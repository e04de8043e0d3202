import NfdPitless.Name
import NfdPitless.Tlv
import NfdPitless.Lists

/-! Datasets in segments: how an octet string is published (`core/segment-publisher.hpp`), and how the segments are
fetched (`rib/rib-manager.cpp`). Both sides agree on the numbers of the segments and on the final one. -/

namespace NfdPitless

/-- A Data packet of a dataset. The FinalBlockId has no octets when it is not set. -/
structure Segment where
  name : Name
  content : List UInt8
  freshnessPeriod : Nat
  finalBlockId : Component
  deriving DecidableEq

namespace Segment

/-- `appendSegment`: the marker and the number. -/
def component (codec : TlvCodec) (segmentNo : UInt64) : Component :=
  ⟨false, 0 :: codec.nonNegativeInteger segmentNo.toNat⟩

/-- `toSegment`; `none` where it throws. -/
def toSegment (codec : TlvCodec) (c : Component) : Option UInt64 :=
  match c.value with
  | 0 :: octets => (codec.readNonNegativeInteger octets).map UInt64.ofNat
  | _ => none

def noFinalBlockId : Component := ⟨false, []⟩

end Segment

/-- The prefix, the freshness period, and the maximum size of a packet. -/
structure SegmentPublisher where
  namePrefix : Name
  freshnessPeriod : Nat
  maxNdnPacketSize : Nat

namespace SegmentPublisher

def getMaxSegmentSize (P : SegmentPublisher) : Nat := P.maxNdnPacketSize >>> 1

/-- The loop of `publish`, for some rounds; `none` when these are not enough. -/
def publishLoop (codec : TlvCodec) (P : SegmentPublisher) (segmentPrefix : Name) (octets : List UInt8) :
    Nat → Nat → UInt64 → Option (List Segment)
  | 0, _, _ => none
  | rounds + 1, segmentBegin, segmentNo =>
      let segmentEnd := min (segmentBegin + P.getMaxSegmentSize) octets.length
      let number := Segment.component codec segmentNo
      let data : Segment :=
        { name := segmentPrefix ++ [number]
          content := (octets.drop segmentBegin).take (segmentEnd - segmentBegin)
          freshnessPeriod := P.freshnessPeriod
          finalBlockId := if octets.length ≤ segmentEnd then number else Segment.noFinalBlockId }
      if segmentEnd < octets.length then
        (publishLoop codec P segmentPrefix octets rounds segmentEnd (segmentNo + 1)).map fun rest => data :: rest
      else some [data]

/-- The packets of a dataset of which `version` is the version. -/
def publish (codec : TlvCodec) (P : SegmentPublisher) (version : Component) (octets : List UInt8) :
    Option (List Segment) :=
  publishLoop codec P (P.namePrefix ++ [version]) octets (octets.length + 1) 0 0

end SegmentPublisher

namespace RibManager

/-- What is done after a segment. -/
inductive FetchStep where
  | expressInterest (name : Name)
  | removeInvalidFaces

/-- A segment is received; `none` where a number cannot be read. -/
def fetchSegments (codec : TlvCodec) (data : Segment) (buffer : List UInt8) : Option (List UInt8 × FetchStep) := do
  let buffer := buffer ++ data.content
  let last ← data.name.getLast?
  let currentSegment ← Segment.toSegment codec last
  let next := FetchStep.expressInterest (data.name.dropLast ++ [Segment.component codec (currentSegment + 1)])
  if data.finalBlockId.value.isEmpty then return (buffer, next)
  let finalSegment ← Segment.toSegment codec data.finalBlockId
  if currentSegment < finalSegment then return (buffer, next)
  return (buffer, .removeInvalidFaces)

/-- Every Interest is answered by the segment of its name: the buffer in the end, and the names that were asked for. -/
def fetchAll (codec : TlvCodec) (published : List Segment) :
    Nat → Segment → List UInt8 → Option (List UInt8 × List Name)
  | 0, _, _ => none
  | rounds + 1, data, buffer =>
      (fetchSegments codec data buffer).bind fun (buffer, step) =>
        match step with
        | .removeInvalidFaces => some (buffer, [])
        | .expressInterest name =>
            (published.find? fun data => data.name == name).bind fun data =>
              (fetchAll codec published rounds data buffer).map fun (buffer, names) => (buffer, name :: names)

end RibManager

/-- The segments of some octets from a number on. -/
inductive Segmented (codec : TlvCodec) (P : SegmentPublisher) (segmentPrefix : Name) :
    Nat → List UInt8 → List Segment → Prop
  | last {n : Nat} {content : List UInt8} (hsize : content.length ≤ P.getMaxSegmentSize) :
      Segmented codec P segmentPrefix n content
        [⟨segmentPrefix ++ [Segment.component codec (.ofNat n)], content, P.freshnessPeriod,
          Segment.component codec (.ofNat n)⟩]
  | more {n : Nat} {content octets : List UInt8} {segments : List Segment}
      (hsize : content.length ≤ P.getMaxSegmentSize) (h : Segmented codec P segmentPrefix (n + 1) octets segments) :
      Segmented codec P segmentPrefix n (content ++ octets)
        (⟨segmentPrefix ++ [Segment.component codec (.ofNat n)], content, P.freshnessPeriod, Segment.noFinalBlockId⟩ ::
          segments)

variable {codec : TlvCodec} {P : SegmentPublisher} {segmentPrefix : Name} {n : Nat} {octets : List UInt8}
  {segments : List Segment}

namespace SegmentPublisher

/-- The loop publishes what is left, when the rounds are enough for one octet each. -/
theorem publishLoop_segmented (hsize : 0 < P.getMaxSegmentSize) (rounds : Nat) {segmentBegin n : Nat}
    (hbegin : segmentBegin ≤ octets.length) (hrounds : octets.length - segmentBegin < rounds) :
    ∃ segments, publishLoop codec P segmentPrefix octets rounds segmentBegin (.ofNat n) = some segments ∧
      Segmented codec P segmentPrefix n (octets.drop segmentBegin) segments ∧
      segments.length ≤ octets.length - segmentBegin + 1 := by
  induction rounds generalizing segmentBegin n with
  | zero => omega
  | succ rounds ih =>
      rw [publishLoop]
      by_cases hmore : min (segmentBegin + P.getMaxSegmentSize) octets.length < octets.length
      · have hend : min (segmentBegin + P.getMaxSegmentSize) octets.length =
          segmentBegin + P.getMaxSegmentSize := by omega
        rw [if_pos hmore, if_neg (by omega), hend, Nat.add_sub_cancel_left]
        obtain ⟨rest, hrest, hsegmented, hlength⟩ :=
          ih (n := n + 1) (by omega : segmentBegin + P.getMaxSegmentSize ≤ octets.length)
          (by omega)
        have hnext : (UInt64.ofNat n + 1 : UInt64) = UInt64.ofNat (n + 1) := by simp
        rw [hnext, hrest]
        have hsplit : octets.drop segmentBegin = (octets.drop segmentBegin).take P.getMaxSegmentSize ++
            octets.drop (segmentBegin + P.getMaxSegmentSize) := by
          rw [← List.drop_drop, List.take_append_drop]
        refine ⟨_, rfl, ?_, ?_⟩
        · rw [hsplit, List.take_left' (by simp; omega)]
          exact .more (by simp) hsegmented
        · rw [List.length_cons]
          omega
      · have hend : min (segmentBegin + P.getMaxSegmentSize) octets.length = octets.length := by omega
        rw [if_neg hmore, if_pos (by omega), hend, List.take_of_length_le (by rw [List.length_drop])]
        refine ⟨_, rfl, .last ?_, by simp⟩
        rw [List.length_drop]
        omega

end SegmentPublisher

namespace Segmented

theorem ne_nil (h : Segmented codec P segmentPrefix n octets segments) : segments ≠ [] := by
  cases h <;> exact List.cons_ne_nil _ _

theorem flatMap_content (h : Segmented codec P segmentPrefix n octets segments) :
    segments.flatMap Segment.content = octets := by
  induction h with
  | last hsize => rw [List.flatMap_singleton]
  | more hsize h ih => rw [List.flatMap_cons, ih]

/-- The number of a segment is its position, and only the last one says that it is final. -/
theorem getElem? (h : Segmented codec P segmentPrefix n octets segments) {i : Nat} {data : Segment}
    (hi : segments[i]? = some data) :
    data.name = segmentPrefix ++ [Segment.component codec (.ofNat (n + i))] ∧
      data.content.length ≤ P.getMaxSegmentSize ∧ data.freshnessPeriod = P.freshnessPeriod ∧
      data.finalBlockId =
        if i + 1 = segments.length then Segment.component codec (.ofNat (n + i)) else Segment.noFinalBlockId := by
  induction h generalizing i with
  | last hsize =>
      cases i with
      | zero =>
          cases hi
          exact ⟨rfl, hsize, rfl, rfl⟩
      | succ i => cases hi
  | @more n content octets segments hsize h ih =>
      cases i with
      | zero =>
          cases hi
          have hlast : 0 + 1 ≠ segments.length + 1 := by
            have hpos := List.length_pos_iff_ne_nil.mpr h.ne_nil
            omega
          exact ⟨rfl, hsize, rfl, (if_neg hlast).symm⟩
      | succ i =>
          rw [List.getElem?_cons_succ] at hi
          obtain ⟨hname, hcontent, hfresh, hfinal⟩ := ih hi
          have hnumber : n + 1 + i = n + (i + 1) := by omega
          rw [hnumber] at hname hfinal
          refine ⟨hname, hcontent, hfresh, hfinal.trans (if_congr ?_ rfl rfl)⟩
          rw [List.length_cons, Nat.add_right_cancel_iff]

end Segmented

namespace Segment

theorem toSegment_component (hlawful : codec.Lawful) (segmentNo : UInt64) :
    toSegment codec (component codec segmentNo) = some segmentNo := by
  have hread := hlawful.readNonNegativeInteger_eq segmentNo.toNat segmentNo.toNat_lt
  simp only [component, toSegment, hread, Option.map_some, UInt64.ofNat_toNat]

theorem component_injective (hlawful : codec.Lawful) {a b : UInt64} (h : component codec a = component codec b) :
    a = b := by
  have hread := toSegment_component hlawful a
  rw [h, toSegment_component hlawful b] at hread
  exact (Option.some_inj.mp hread).symm

end Segment

namespace Segmented

/-- The names of the segments are different, if there are not too many. -/
theorem names_nodup (hlawful : codec.Lawful) (h : Segmented codec P segmentPrefix n octets segments)
    (hlength : n + segments.length ≤ 2 ^ 64) : (segments.map Segment.name).Nodup := by
  induction h with
  | last hsize => exact List.nodup_singleton _
  | @more n content octets segments hsize h ih =>
      rw [List.length_cons] at hlength
      refine List.nodup_cons.mpr ⟨fun hmem => ?_, ih (by omega)⟩
      obtain ⟨data, hdata, hname⟩ := List.mem_map.mp hmem
      obtain ⟨i, hi⟩ := List.mem_iff_getElem?.mp hdata
      have hlt : i < segments.length := (List.getElem?_eq_some_iff.mp hi).1
      rw [(h.getElem? hi).1, List.append_cancel_left_eq, List.cons.injEq] at hname
      have hbits : UInt64.size = 2 ^ 64 := rfl
      have heq := congrArg UInt64.toNat (Segment.component_injective hlawful hname.1)
      rw [UInt64.toNat_ofNat_of_lt' (by omega), UInt64.toNat_ofNat_of_lt' (by omega)] at heq
      omega

/-- A segment is found by its name. -/
theorem find?_name (hlawful : codec.Lawful) (h : Segmented codec P segmentPrefix n octets segments)
    (hlength : n + segments.length ≤ 2 ^ 64) {data : Segment} (hdata : data ∈ segments) :
    segments.find? (fun d => d.name == data.name) = some data := by
  have hpairwise : segments.Pairwise fun a b => a.name ≠ b.name := List.pairwise_map.mp (h.names_nodup hlawful hlength)
  have hself : (fun d : Segment => d.name == data.name) data = true := beq_self_eq_true data.name
  cases hfind : segments.find? fun d => d.name == data.name with
  | none => exact absurd hself (List.find?_eq_none.mp hfind data hdata)
  | some found =>
      have hfound := List.find?_some hfind
      have hname : found.name = data.name := beq_iff_eq.mp hfound
      exact congrArg some ((Lists.find?_pairwise hpairwise hfind hdata hself).resolve_right fun hne => hne hname)

end Segmented

namespace RibManager

variable {published : List Segment} {name : Name} {content buffer : List UInt8} {freshnessPeriod : Nat}

/-- After a segment that is not final, the next one is asked for. -/
theorem fetchSegments_more (hlawful : codec.Lawful) (segmentNo : UInt64) :
    fetchSegments codec ⟨segmentPrefix ++ [Segment.component codec segmentNo], content, freshnessPeriod,
        Segment.noFinalBlockId⟩ buffer =
      some (buffer ++ content, .expressInterest (segmentPrefix ++ [Segment.component codec (segmentNo + 1)])) := by
  simp [fetchSegments, Segment.toSegment_component hlawful, Segment.noFinalBlockId]

/-- The segment that has its own number as the final one is the last. -/
theorem fetchSegments_last (hlawful : codec.Lawful) (segmentNo : UInt64) :
    fetchSegments codec ⟨segmentPrefix ++ [Segment.component codec segmentNo], content, freshnessPeriod,
        Segment.component codec segmentNo⟩ buffer = some (buffer ++ content, .removeInvalidFaces) := by
  have hnonempty : (Segment.component codec segmentNo).value.isEmpty = false := rfl
  simp [fetchSegments, Segment.toSegment_component hlawful, hnonempty]

/-- From any segment on, the rest is fetched in order. The induction is on the segments that are left. -/
theorem fetchAll_segmented (hlawful : codec.Lawful) {data : Segment} {rest : List Segment}
    (h : Segmented codec P segmentPrefix n octets (data :: rest))
    (hpublished : ∀ d ∈ rest, published.find? (fun data => data.name == d.name) = some d) (buffer : List UInt8) :
    fetchAll codec published (data :: rest).length data buffer = some (buffer ++ octets, rest.map Segment.name) := by
  induction rest generalizing n octets data buffer with
  | nil =>
      cases h with
      | last hsize =>
          rw [List.length_singleton, fetchAll, fetchSegments_last hlawful]
          rfl
      | more hsize h => exact absurd rfl h.ne_nil
  | cons next rest ih =>
      cases h with
      | @more n content octets _ hsize h =>
          have hnext : next.name = segmentPrefix ++ [Segment.component codec (.ofNat n + 1)] := by
            rw [(h.getElem? (i := 0) rfl).1, Nat.add_zero, UInt64.ofNat_add]
            rfl
          have hfind := hpublished next List.mem_cons_self
          have hrest := ih h (fun d hd => hpublished d (List.mem_cons_of_mem next hd)) (buffer ++ content)
          rw [hnext] at hfind
          rw [List.length_cons, fetchAll, fetchSegments_more hlawful, Option.bind_some]
          dsimp only
          rw [hfind, Option.bind_some, hrest, Option.map_some, List.append_assoc, List.map_cons, hnext]

end RibManager

/-- What is published is in numbered segments, and fetching them from the first on gives the octets back. -/
theorem publish_fetch (hlawful : codec.Lawful) (hsize : 2 ≤ P.maxNdnPacketSize) (version : Component)
    (hoctets : octets.length < 2 ^ 64) :
    ∃ first rest, P.publish codec version octets = some (first :: rest) ∧
      (first :: rest).flatMap Segment.content = octets ∧
      (∀ i data, (first :: rest)[i]? = some data →
        data.name = P.namePrefix ++ [version, Segment.component codec (.ofNat i)] ∧
        data.content.length ≤ P.getMaxSegmentSize ∧ data.freshnessPeriod = P.freshnessPeriod ∧
        data.finalBlockId =
          if i + 1 = (first :: rest).length then Segment.component codec (.ofNat i) else Segment.noFinalBlockId) ∧
      RibManager.fetchAll codec (first :: rest) (first :: rest).length first [] =
      some (octets, rest.map Segment.name) := by
  have hpos : 0 < P.getMaxSegmentSize := by
    rw [SegmentPublisher.getMaxSegmentSize, Nat.shiftRight_eq_div_pow]
    omega
  obtain ⟨segments, hpublish, hsegmented, hlength⟩ := SegmentPublisher.publishLoop_segmented (n := 0) hpos
    (octets.length + 1) (Nat.zero_le octets.length) (by omega)
  rw [List.drop_zero] at hsegmented
  rw [Nat.sub_zero] at hlength
  obtain ⟨first, rest, rfl⟩ := List.exists_cons_of_ne_nil hsegmented.ne_nil
  refine ⟨first, rest, hpublish, hsegmented.flatMap_content, fun i data hi => ?_, ?_⟩
  · have hdata := hsegmented.getElem? hi
    rw [Nat.zero_add, List.append_assoc] at hdata
    exact hdata
  · refine RibManager.fetchAll_segmented hlawful hsegmented (fun d hd => ?_) []
    exact hsegmented.find?_name hlawful (by omega) (List.mem_cons_of_mem first hd)

/-- A publisher with packets of four octets, and so segments of two. -/
def smallPublisher : SegmentPublisher := ⟨[.ofByte 65], 1000, 4⟩

/-- Four octets are two segments, and no third one is asked for. -/
theorem publish_fetch_multiple :
    ∃ first rest, smallPublisher.publish Tlv.codec (.ofByte 1) [10, 20, 30, 40] = some (first :: rest) ∧
      rest.length = 1 ∧ RibManager.fetchAll Tlv.codec (first :: rest) (first :: rest).length first [] =
        some ([10, 20, 30, 40], rest.map Segment.name) := by
  have hcount : (smallPublisher.publish Tlv.codec (.ofByte 1) [10, 20, 30, 40]).map List.length = some 2 := by
    decide +kernel
  obtain ⟨first, rest, hpublish, -, -, hfetch⟩ := publish_fetch Tlv.codec_lawful
    (show 2 ≤ smallPublisher.maxNdnPacketSize by decide) (.ofByte 1)
    (show ([10, 20, 30, 40] : List UInt8).length < 2 ^ 64 by decide)
  rw [hpublish, Option.map_some, List.length_cons, Option.some_inj] at hcount
  exact ⟨first, rest, hpublish, Nat.succ.inj hcount, hfetch⟩

end NfdPitless
