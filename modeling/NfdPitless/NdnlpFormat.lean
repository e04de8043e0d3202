import NfdPitless.NdnlpTransport

/-! The format of NDNLP packets: what the slicer writes is read back, what is read has one of two forms, and no packet
of a block is larger than the MTU. -/

namespace NfdPitless.Ndnlp

variable {codec : TlvCodec} {wire : Block} {elements : List Block}

/-- A number has 1, 2, 4 or 8 octets. -/
def ReadsNumbers (codec : TlvCodec) : Prop :=
  ∀ value, codec.readNonNegativeInteger value = if value.length ∈ [1, 2, 4, 8] then some (ofBigEndian value) else none

/-- An element of a type with a number in it. -/
structure IsNumber (element : Block) (type n : Nat) : Prop where
  type_eq : element.type = type
  length_mem : element.value.length ∈ [1, 2, 4, 8]
  value_eq : ofBigEndian element.value = n

/-- The children of a packet that is a whole message, and of one that is a fragment. -/
inductive Children : List Block → Prop
  | single {sequenceElement payload : Block} (hsequence : sequenceElement.type = tlvNdnlpSequence)
      (hlength : sequenceElement.value.length = 8) (hpayload : payload.type = tlvNdnlpPayload) :
      Children [sequenceElement, payload]
  | fragment {sequenceElement fragIndexElement fragCountElement payload : Block} {fragIndex fragCount : Nat}
      (hsequence : sequenceElement.type = tlvNdnlpSequence) (hlength : sequenceElement.value.length = 8)
      (hindex : IsNumber fragIndexElement tlvNdnlpFragIndex fragIndex)
      (hcount : IsNumber fragCountElement tlvNdnlpFragCount fragCount) (hpayload : payload.type = tlvNdnlpPayload)
      (hlt : fragIndex < fragCount) (hle : fragCount ≤ 65535) :
      Children [sequenceElement, fragIndexElement, fragCountElement, payload]

theorem ReadsNumbers.eq_some_iff (h : ReadsNumbers codec) {element : Block} {type n : Nat}
    (htype : element.type = type) :
    codec.readNonNegativeInteger element.value = some n ↔ IsNumber element type n := by
  rw [h]
  constructor
  · intro hread
    split at hread
    · rename_i hlength
      exact ⟨htype, hlength, Option.some_inj.mp hread⟩
    · cases hread
  · intro hnumber
    rw [if_pos hnumber.length_mem, hnumber.value_eq]

theorem ofNat_lt_iff {m n : Nat} (hm : m ≤ 65535) (hn : n ≤ 65535) : UInt16.ofNat m < UInt16.ofNat n ↔ m < n := by
  rw [UInt16.lt_iff_toNat_lt, UInt16.toNat_ofNat_of_lt' (Nat.lt_succ_of_le hm),
    UInt16.toNat_ofNat_of_lt' (Nat.lt_succ_of_le hn)]

/-- What is accepted has the children of one of the two forms. -/
theorem children_of_fromBlock (hnumbers : ReadsNumbers codec) {data : NdnlpData}
    (h : NdnlpData.fromBlock codec wire = some data) :
    wire.type = tlvNdnlpData ∧ ∃ elements, codec.parse wire.value = some elements ∧ Children elements := by
  unfold NdnlpData.fromBlock at h
  simp only [Option.bind_eq_bind, Option.bind_eq_some_iff, Option.guard_eq_some', exists_and_left, exists_const] at h
  obtain ⟨htype, elements, hparse, -, sequenceElement, hfirst, hsequence, hlength, payload, hlast, hpayload, hrest⟩ := h
  refine ⟨htype, elements, hparse, ?_⟩
  split at hrest
  · rename_i htwo
    obtain ⟨a, b, rfl⟩ := List.length_eq_two.mp htwo
    cases hfirst
    cases hlast
    exact .single hsequence hlength hpayload
  · simp only [Option.bind_eq_some_iff, Option.guard_eq_some', exists_and_left, exists_const] at hrest
    obtain ⟨hfour, fragIndexElement, hi, hindexType, fragIndex, hindex, hindexLe, fragCountElement, hc, hcountType,
      fragCount, hcount, hcountLe, hlt, -⟩ := hrest
    match elements, hfour with
    | [a, b, c, d], _ =>
        cases hfirst
        cases hlast
        cases hi
        cases hc
        exact .fragment hsequence hlength ((hnumbers.eq_some_iff hindexType).mp hindex)
          ((hnumbers.eq_some_iff hcountType).mp hcount) hpayload ((ofNat_lt_iff hindexLe hcountLe).mp hlt) hcountLe

/-- Both forms are accepted. -/
theorem fromBlock_of_children (hnumbers : ReadsNumbers codec) (htype : wire.type = tlvNdnlpData)
    (hparse : codec.parse wire.value = some elements) (h : Children elements) :
    (NdnlpData.fromBlock codec wire).isSome := by
  unfold NdnlpData.fromBlock
  rw [hparse]
  cases h with
  | single hsequence hlength hpayload => simp [guard, htype, hsequence, hlength, hpayload]
  | fragment hsequence hlength hindex hcount hpayload hlt hle =>
      have hreadIndex := (hnumbers.eq_some_iff hindex.type_eq).mpr hindex
      have hreadCount := (hnumbers.eq_some_iff hcount.type_eq).mpr hcount
      have hindexLe := hlt.le.trans hle
      have hcmp := (ofNat_lt_iff hindexLe hle).mpr hlt
      simp [guard, htype, hsequence, hlength, hpayload, hindex.type_eq, hcount.type_eq, hreadIndex, hreadCount,
        hindexLe, hle, hcmp]

namespace Slicer

/-- A packet is read back as it was written. -/
theorem fromBlock_encodeFragment (hlawful : codec.Lawful) {fragIndex fragCount : UInt16} (seq : UInt64)
    (payload : List UInt8) (hindex : fragIndex < fragCount)
    (hsize : (encodeFragment codec seq fragIndex fragCount payload).length < 2 ^ 64) :
    (codec.fromBuffer (encodeFragment codec seq fragIndex fragCount payload)).bind (NdnlpData.fromBlock codec) =
      some { seq, fragIndex, fragCount, payload := codec.block tlvNdnlpPayload payload } := by
  have hfields : payload.length ≤
      ((fields codec seq fragIndex fragCount payload).flatMap fun e => codec.encode e.1 e.2).length := by
    have hlast := encode_length codec tlvNdnlpPayload payload
    rw [fields, List.flatMap_cons, List.flatMap_append, List.flatMap_singleton, List.length_append, List.length_append]
    dsimp only
    omega
  rw [encodeFragment_eq, encode_length] at hsize
  have hread := hlawful.fromBuffer_eq tlvNdnlpData
    ((fields codec seq fragIndex fragCount payload).flatMap fun e => codec.encode e.1 e.2) [] (by decide) (by omega)
  rw [List.append_nil] at hread
  rw [encodeFragment_eq, hread, Option.bind_some,
    fromBlock_block hlawful (UInt16.lt_iff_toNat_lt.mp hindex) (by omega)]
  rfl

end Slicer

/-- What is written is read back, and nothing is read but packets of the two forms. -/
theorem fragment_format (hlawful : codec.Lawful) (hnumbers : ReadsNumbers codec) :
    (∀ (seq : UInt64) (fragIndex fragCount : UInt16) (payload : List UInt8), fragIndex < fragCount →
      (Slicer.encodeFragment codec seq fragIndex fragCount payload).length < 2 ^ 64 →
      (codec.fromBuffer (Slicer.encodeFragment codec seq fragIndex fragCount payload)).bind
      (NdnlpData.fromBlock codec) =
        some { seq, fragIndex, fragCount, payload := codec.block tlvNdnlpPayload payload }) ∧
      ∀ wire : Block, (NdnlpData.fromBlock codec wire).isSome ↔
        wire.type = tlvNdnlpData ∧ ∃ elements, codec.parse wire.value = some elements ∧ Children elements := by
  refine ⟨fun seq fragIndex fragCount payload => Slicer.fromBlock_encodeFragment hlawful seq payload, fun wire => ?_⟩
  constructor
  · intro h
    obtain ⟨data, hdata⟩ := Option.isSome_iff_exists.mp h
    exact children_of_fromBlock hnumbers hdata
  · rintro ⟨htype, elements, hparse, hchildren⟩
    exact fromBlock_of_children hnumbers htype hparse hchildren

/-- The second of three fragments, with the last sequence number. -/
theorem fragment_format_second :
    (Tlv.codec.fromBuffer (Slicer.encodeFragment Tlv.codec (2 ^ 64 - 1) 1 3 [10, 20, 30])).bind
        (NdnlpData.fromBlock Tlv.codec) =
      some
        { seq := 2 ^ 64 - 1, fragIndex := 1, fragCount := 3
          payload := Tlv.codec.block tlvNdnlpPayload [10, 20, 30] } :=
  (fragment_format Tlv.codec_lawful fun _ => rfl).1 (2 ^ 64 - 1) 1 3 [10, 20, 30] (by decide) (by decide +kernel)

/-- The packets into which a block is sliced: the payloads make up the block, and each packet is one that fits and that
carries the next sequence number, its position, the number of packets, and its payload. -/
structure Sliced (codec : TlvCodec) (mtu : Nat) (next : UInt64) (block : Block) (pa : List Block)
    (payloads : List (List UInt8)) : Prop where
  flatten : payloads.flatten = block.wire
  count : payloads.length = pa.length
  wire_length : ∀ packet ∈ pa, packet.wire.length ≤ mtu
  encoded : ∀ fragIndex packet, pa[fragIndex]? = some packet → packet.wire =
    Slicer.encodeFragment codec (next + UInt64.ofNat fragIndex) (UInt16.ofNat fragIndex) (UInt16.ofNat pa.length)
      (payloads.getD fragIndex [])
  read : ∀ fragIndex packet, pa[fragIndex]? = some packet → NdnlpData.fromBlock codec packet =
    some
      { seq := next + UInt64.ofNat fragIndex
        fragIndex := UInt16.ofNat fragIndex
        fragCount := UInt16.ofNat pa.length
        payload := codec.block tlvNdnlpPayload (payloads.getD fragIndex []) }

namespace Slicer

variable {slicer : Slicer} {block : Block}

/-- The number of fragments is the quotient, rounded up. -/
theorem nFragments_eq (slicer : Slicer) (block : Block) (hpos : 0 < slicer.maxPayload) :
    slicer.nFragments block = (block.wire.length + slicer.maxPayload - 1) / slicer.maxPayload := by
  have hdiv := Nat.div_add_mod block.wire.length slicer.maxPayload
  have hmod := Nat.mod_lt block.wire.length hpos
  rw [nFragments]
  generalize block.wire.length / slicer.maxPayload = quotient at *
  symm
  split
  · rw [Nat.add_zero, Nat.div_eq_iff hpos, Nat.mul_comm quotient]
    omega
  · rw [Nat.div_eq_iff hpos, Nat.add_mul, Nat.mul_comm quotient, Nat.one_mul]
    omega

theorem nFragments_le (hpos : 0 < slicer.maxPayload) (h : block.wire.length ≤ 65535 * slicer.maxPayload) :
    slicer.nFragments block ≤ 65535 := by
  rw [nFragments_eq slicer block hpos, ← Nat.lt_succ_iff, Nat.div_lt_iff_lt_mul hpos]
  omega

/-- The packets of a block are the fragments of the message. -/
theorem of_sliced (hlawful : codec.Lawful) (hfits : slicer.Fits codec) (hle : slicer.nFragments block ≤ 65535) :
    Sliced codec slicer.mtu slicer.seqgen.next block
      ((List.range (slicer.nFragments block)).map ((Sent.of slicer block).wire codec))
      (Sent.of slicer block).payloads := by
  have hlength : ((List.range (slicer.nFragments block)).map ((Sent.of slicer block).wire codec)).length =
      slicer.nFragments block := by rw [List.length_map, List.length_range]
  have hpacket : ∀ fragIndex packet,
      ((List.range (slicer.nFragments block)).map ((Sent.of slicer block).wire codec))[fragIndex]? = some packet →
      fragIndex < slicer.nFragments block ∧ packet = (Sent.of slicer block).wire codec fragIndex := by
    intro fragIndex packet h
    have hlt : fragIndex < slicer.nFragments block := hlength ▸ (List.getElem?_eq_some_iff.mp h).1
    rw [List.getElem?_map, List.getElem?_range hlt] at h
    exact ⟨hlt, (Option.some_inj.mp h).symm⟩
  refine ⟨slicer.flatMap_payload_nFragments block hfits.maxPayload_pos, ?_, ?_, ?_, ?_⟩
  · rw [hlength, Sent.of_length]
  · intro packet hpa
    obtain ⟨fragIndex, hindex, rfl⟩ := List.mem_map.mp hpa
    rw [List.mem_range] at hindex
    obtain ⟨hget, -⟩ := Sent.of_payload hfits hindex
    have hle' := (Sent.of_encodeFragment hlawful hfits hle hindex).1
    rw [encodeFragment_eq, ← hget, ← Sent.of_length] at hle'
    exact hle'
  · intro fragIndex packet h
    obtain ⟨-, rfl⟩ := hpacket fragIndex packet h
    rw [encodeFragment_eq, hlength, ← Sent.of_length]
    rfl
  · intro fragIndex packet h
    obtain ⟨hlt, rfl⟩ := hpacket fragIndex packet h
    rw [Sent.of_fromBlock hlawful hfits hle hlt, hlength, ← Sent.of_length]
    rfl

end Slicer

/-- A block for which 65535 packets are enough is sliced into as many as it needs. -/
theorem slice_fits (hlawful : codec.Lawful) {mtu : Nat} (hmtu : mtu < 2 ^ 64)
    (hoverhead : Slicer.overhead codec mtu < mtu)
    (next : UInt64) (block : Block) (hblock : block.wire.length ≤ 65535 * (Slicer.new codec mtu next).maxPayload) :
    ∃ pa payloads,
      (Slicer.new codec mtu next).slice codec block =
        some (pa, { Slicer.new codec mtu next with seqgen := { next := next + UInt64.ofNat pa.length } }) ∧
      pa.length = (block.wire.length + (Slicer.new codec mtu next).maxPayload - 1) /
      (Slicer.new codec mtu next).maxPayload ∧
      Sliced codec mtu next block pa payloads := by
  have hfits := Slicer.new_fits next hmtu hoverhead
  have hpos := hfits.maxPayload_pos
  have hle := Slicer.nFragments_le hpos hblock
  have hlength : ((List.range ((Slicer.new codec mtu next).nFragments block)).map
      ((Sent.of (Slicer.new codec mtu next) block).wire codec)).length =
        (Slicer.new codec mtu next).nFragments block := by
    rw [List.length_map, List.length_range]
  refine ⟨_, _, ?_, ?_, Slicer.of_sliced hlawful hfits hle⟩
  · rw [slice_eq hlawful hfits hle, hlength]
    rfl
  · rw [hlength, Slicer.nFragments_eq _ _ hpos]

/-- A block of 57 octets at an MTU of 50, with numbers that wrap around. -/
theorem slice_fits_wrapping :
    ∃ pa payloads,
      (Slicer.new Tlv.codec 50 (2 ^ 64 - 1)).slice Tlv.codec (Tlv.codec.block 1 (List.replicate 55 7)) =
        some (pa,
          { Slicer.new Tlv.codec 50 (2 ^ 64 - 1) with seqgen := { next := 2 ^ 64 - 1 + UInt64.ofNat pa.length } }) ∧
      pa.length = 3 ∧ Sliced Tlv.codec 50 (2 ^ 64 - 1) (Tlv.codec.block 1 (List.replicate 55 7)) pa payloads := by
  have hlength : ((Tlv.codec.block 1 (List.replicate 55 7)).wire.length +
    (Slicer.new Tlv.codec 50 (2 ^ 64 - 1)).maxPayload - 1) /
      (Slicer.new Tlv.codec 50 (2 ^ 64 - 1)).maxPayload = 3 := by decide +kernel
  obtain ⟨pa, payloads, hslice, hcount, hsliced⟩ := slice_fits Tlv.codec_lawful (show 50 < 2 ^ 64 by decide)
    (by decide +kernel) (2 ^ 64 - 1) (Tlv.codec.block 1 (List.replicate 55 7)) (by decide +kernel)
  exact ⟨pa, payloads, hslice, hcount.trans hlength, hsliced⟩

end NfdPitless.Ndnlp
