import NfdPitless.NdnlpReassembly
import NfdPitless.NdnlpSlicer

/-! NDNLP from the slicer to the receiver: whatever packets arrive, in whatever order, exactly the messages that have
arrived completely are delivered, each with its last fragment. -/

namespace NfdPitless.Ndnlp

/-- The packets of several blocks that are sliced in order. -/
def sliceAll (codec : TlvCodec) : Slicer → List Block → Option (List (List Block))
  | _, [] => some []
  | slicer, block :: blocks =>
      (slicer.slice codec block).bind fun (pa, slicer) => (sliceAll codec slicer blocks).map fun rest => pa :: rest

/-- The sequence numbers that the blocks get. -/
def sequenceBlocks : Slicer → List Block → List SequenceBlock
  | _, [] => []
  | slicer, block :: blocks =>
      let (seqBlock, seqgen) := slicer.seqgen.nextBlock (slicer.nFragments block)
      seqBlock :: sequenceBlocks { slicer with seqgen } blocks

/-- The blocks have no number in common. -/
def SequenceBlock.Disjoint (a b : SequenceBlock) : Prop :=
  ∀ i < a.count, ∀ j < b.count, a.start + UInt64.ofNat i ≠ b.start + UInt64.ofNat j

instance (a b : SequenceBlock) : Decidable (a.Disjoint b) :=
  inferInstanceAs (Decidable (∀ i < a.count, ∀ j < b.count, a.start + UInt64.ofNat i ≠ b.start + UInt64.ofNat j))

/-- Receive a packet from the wire; one that is not accepted is dropped. -/
def receiveWire (codec : TlvCodec) (store : PartialMessageStore) (wire : Block) :
    Option (PartialMessageStore × Option Block) :=
  match NdnlpData.fromBlock codec wire with
  | some pkt => store.receive codec pkt
  | none => some (store, none)

/-- What is delivered on each of several packets. -/
def receiveAll (codec : TlvCodec) : PartialMessageStore → List Block →
    Option (PartialMessageStore × List (Option Block))
  | store, [] => some (store, [])
  | store, wire :: wires =>
      (receiveWire codec store wire).bind fun (store, output) =>
        (receiveAll codec store wires).map fun (store, outputs) => (store, output :: outputs)

/-- A fragment of a message, both by their positions. -/
def packetAt (packets : List (List Block)) (arrival : Nat × Nat) : Option Block :=
  (packets[arrival.1]?).bind fun pa => pa[arrival.2]?

/-- All fragments of the message have arrived. -/
def allArrived (packets : List (List Block)) (i : Nat) (arrivals : List (Nat × Nat)) : Bool :=
  (List.range ((packets[i]?).elim 0 List.length)).all fun j => decide ((i, j) ∈ arrivals)

/-- What is delivered on the fragments of a message. -/
def deliveredOn (arrivals : List (Nat × Nat)) (outputs : List (Option Block)) (i : Nat) : List Block :=
  (arrivals.zip outputs).filterMap fun a => if a.1.1 = i then a.2 else none

variable {codec : TlvCodec} {mtu : Nat} {next : UInt64} {block : Block}

/-- A message as it is sent: its first sequence number, and the payloads of its fragments. -/
structure Sent where
  message : Block
  seq : UInt64
  payloads : List (List UInt8)

namespace Sent

/-- A fragment as it is read. -/
def packet (codec : TlvCodec) (sent : Sent) (j : Nat) : NdnlpData :=
  Slicer.packet codec (sent.seq + UInt64.ofNat j) (UInt16.ofNat j) (UInt16.ofNat sent.payloads.length)
    (sent.payloads.getD j [])

/-- A fragment on the wire. -/
def wire (codec : TlvCodec) (sent : Sent) (j : Nat) : Block :=
  codec.block tlvNdnlpData ((Slicer.fields codec (sent.seq + UInt64.ofNat j) (UInt16.ofNat j)
    (UInt16.ofNat sent.payloads.length) (sent.payloads.getD j [])).flatMap fun e => codec.encode e.1 e.2)

structure Valid (codec : TlvCodec) (sent : Sent) : Prop where
  flatten : sent.payloads.flatten = sent.message.wire
  pos : 0 < sent.payloads.length
  le : sent.payloads.length ≤ 65535
  fromBuffer : codec.fromBuffer sent.message.wire = some sent.message

/-- The message of a slicer. -/
def of (slicer : Slicer) (block : Block) : Sent :=
  { message := block, seq := slicer.seqgen.next,
    payloads := (List.range (slicer.nFragments block)).map (slicer.payload block) }

variable {sent : Sent} {j : Nat}

theorem Valid.packet_fragCount (h : sent.Valid codec) : (sent.packet codec j).fragCount.toNat = sent.payloads.length :=
  UInt16.toNat_ofNat_of_lt' (by have hle := h.le; exact Nat.lt_succ_of_le hle)

theorem Valid.packet_fragIndex (h : sent.Valid codec) (hj : j < sent.payloads.length) :
    (sent.packet codec j).fragIndex.toNat = j :=
  UInt16.toNat_ofNat_of_lt' (lt_trans hj (Nat.lt_succ_of_le h.le))

/-- The fragments of a message have its first sequence number in common. -/
theorem Valid.packet_messageIdentifier (h : sent.Valid codec) (hj : j < sent.payloads.length) :
    (sent.packet codec j).messageIdentifier = sent.seq := by
  have hindex : (UInt16.ofNat j).toUInt64 = UInt64.ofNat j := by
    apply UInt64.toNat_inj.mp
    have hle := h.le
    rw [UInt16.toNat_toUInt64, UInt16.toNat_ofNat_of_lt' (by omega : j < 2 ^ 16),
      UInt64.toNat_ofNat_of_lt' (lt_trans (by omega : j < 2 ^ 16) (by decide))]
  rw [NdnlpData.messageIdentifier]
  change sent.seq + UInt64.ofNat j - (UInt16.ofNat j).toUInt64 = sent.seq
  rw [hindex, UInt64.add_sub_cancel]

end Sent

theorem mapM_some {α β : Type} {f : α → Option β} {g : α → β} {l : List α} (h : ∀ x ∈ l, f x = some (g x)) :
    l.mapM f = some (l.map g) := by
  induction l with
  | nil => rfl
  | cons x l ih =>
      rw [List.mapM_cons, h x List.mem_cons_self, ih fun y hy => h y (List.mem_cons_of_mem x hy)]
      rfl

variable {slicer : Slicer}

theorem Sent.of_length (slicer : Slicer) (block : Block) :
    (Sent.of slicer block).payloads.length = slicer.nFragments block := by
  rw [Sent.of, List.length_map, List.length_range]

theorem Sent.of_valid (hlawful : codec.Lawful) (hfits : slicer.Fits codec)
    (hblock : codec.fromBuffer block.wire = some block) (hle : slicer.nFragments block ≤ 65535) :
    (Sent.of slicer block).Valid codec := by
  have hne : 0 < block.wire.length := by
    refine List.length_pos_iff_ne_nil.mpr fun hnil => ?_
    rw [hnil, hlawful.fromBuffer_nil] at hblock
    cases hblock
  refine ⟨slicer.flatMap_payload_nFragments block hfits.maxPayload_pos, ?_, ?_, hblock⟩
  · rw [Sent.of_length]
    exact slicer.nFragments_pos hne hfits.maxPayload_pos
  · rw [Sent.of_length]
    exact hle

/-- The octets of a fragment fit the MTU. -/
theorem Sent.of_payload (hfits : slicer.Fits codec) {j : Nat} (hj : j < slicer.nFragments block) :
    (Sent.of slicer block).payloads.getD j [] = slicer.payload block j ∧
      (slicer.payload block j).length ≤ slicer.mtu - Slicer.overhead codec slicer.mtu := by
  refine ⟨?_, ?_⟩
  · rw [List.getD_eq_getElem?_getD, Sent.of, List.getElem?_map, List.getElem?_range hj]
    rfl
  · rw [Slicer.payload, hfits.maxPayload_eq, List.length_take]
    omega

theorem Sent.of_index {j : Nat} (hle : slicer.nFragments block ≤ 65535) (hj : j < slicer.nFragments block) :
    (UInt16.ofNat j).toNat < (UInt16.ofNat (slicer.nFragments block)).toNat := by
  rw [UInt16.toNat_ofNat_of_lt' (lt_trans hj (Nat.lt_succ_of_le hle)),
    UInt16.toNat_ofNat_of_lt' (Nat.lt_succ_of_le hle)]
  exact hj

/-- A fragment is written so that the receiver reads it. -/
theorem Sent.of_fromBlock (hlawful : codec.Lawful) (hfits : slicer.Fits codec) (hle : slicer.nFragments block ≤ 65535)
    {j : Nat} (hj : j < slicer.nFragments block) :
    NdnlpData.fromBlock codec ((Sent.of slicer block).wire codec j) = some ((Sent.of slicer block).packet codec j) := by
  obtain ⟨hget, hshort⟩ := Sent.of_payload hfits hj
  have hmtu := hfits.mtu_lt
  rw [Sent.wire, Sent.packet, hget, Sent.of_length]
  exact Slicer.fromBlock_block hlawful (Sent.of_index hle hj) (by omega)

/-- The octets of a fragment are those of a block. -/
theorem Sent.of_encodeFragment (hlawful : codec.Lawful) (hfits : slicer.Fits codec)
    (hle : slicer.nFragments block ≤ 65535) {j : Nat} (hj : j < slicer.nFragments block) :
    (Slicer.encodeFragment codec (slicer.seqgen.next + UInt64.ofNat j) (UInt16.ofNat j)
        (UInt16.ofNat (slicer.nFragments block)) (slicer.payload block j)).length ≤ slicer.mtu ∧
      codec.fromBuffer (Slicer.encodeFragment codec (slicer.seqgen.next + UInt64.ofNat j) (UInt16.ofNat j)
        (UInt16.ofNat (slicer.nFragments block)) (slicer.payload block j)) =
          some ((Sent.of slicer block).wire codec j) := by
  obtain ⟨hget, hshort⟩ := Sent.of_payload hfits hj
  have hlength := Slicer.encodeFragment_length_le (slicer.seqgen.next + UInt64.ofNat j) hlawful (Sent.of_index hle hj)
    hfits.overhead_lt hshort
  refine ⟨hlength, ?_⟩
  have hmtu := hfits.mtu_lt
  rw [Slicer.encodeFragment_eq, Slicer.encode_length] at hlength
  rw [Slicer.encodeFragment_eq, Sent.wire, hget, Sent.of_length]
  refine (congrArg codec.fromBuffer (List.append_nil _).symm).trans ?_
  exact hlawful.fromBuffer_eq tlvNdnlpData _ [] (by decide) (by omega)

/-- Slicing a block gives its fragments. -/
theorem slice_eq (hlawful : codec.Lawful) (hfits : slicer.Fits codec) (hle : slicer.nFragments block ≤ 65535) :
    slicer.slice codec block = some ((List.range (slicer.nFragments block)).map ((Sent.of slicer block).wire codec),
      { slicer with seqgen := { next := slicer.seqgen.next + UInt64.ofNat (slicer.nFragments block) } }) := by
  have hcount : (UInt16.ofNat (slicer.nFragments block)).toNat = slicer.nFragments block :=
    UInt16.toNat_ofNat_of_lt' (Nat.lt_succ_of_le hle)
  have hfragments : ∀ j ∈ List.range (slicer.nFragments block), (do
      let seq ← SequenceBlock.get ⟨slicer.seqgen.next, slicer.nFragments block⟩ j
      let buffer := Slicer.encodeFragment codec seq (UInt16.ofNat j) (UInt16.ofNat (slicer.nFragments block))
        (slicer.payload block j)
      guard (buffer.length ≤ slicer.mtu)
      codec.fromBuffer buffer) = some ((Sent.of slicer block).wire codec j) := by
    intro j hj
    rw [List.mem_range] at hj
    obtain ⟨hlength, hread⟩ := Sent.of_encodeFragment hlawful hfits hle hj
    rw [SequenceBlock.get, if_neg (Nat.not_le.mpr hj)]
    simp only [Option.bind_eq_bind, Option.bind_some]
    rw [guard, if_pos hlength]
    exact hread
  rw [Slicer.slice, if_neg (Nat.pos_iff_ne_zero.mp hfits.maxPayload_pos)]
  dsimp only [SequenceGenerator.nextBlock]
  rw [hcount, mapM_some hfragments]
  rfl

/-- The messages of several blocks. -/
def sentAll : Slicer → List Block → List Sent
  | _, [] => []
  | slicer, block :: blocks =>
      Sent.of slicer block ::
        sentAll { slicer with seqgen := { next := slicer.seqgen.next + UInt64.ofNat (slicer.nFragments block) } } blocks

theorem sentAll_message (slicer : Slicer) (blocks : List Block) :
    (sentAll slicer blocks).map Sent.message = blocks := by
  induction blocks generalizing slicer with
  | nil => rfl
  | cons block blocks ih =>
      rw [sentAll, List.map_cons, ih]
      rfl

theorem sequenceBlocks_eq (slicer : Slicer) (blocks : List Block) : sequenceBlocks slicer blocks =
    (sentAll slicer blocks).map fun sent => { start := sent.seq, count := sent.payloads.length } := by
  induction blocks generalizing slicer with
  | nil => rfl
  | cons block blocks ih =>
      rw [sequenceBlocks, sentAll, List.map_cons, Sent.of_length]
      dsimp only [SequenceGenerator.nextBlock]
      rw [ih]
      rfl

/-- What a receiver relies on. -/
structure Sent.Readable (codec : TlvCodec) (sent : Sent) : Prop extends sent.Valid codec where
  fromBlock : ∀ j < sent.payloads.length, NdnlpData.fromBlock codec (sent.wire codec j) = some (sent.packet codec j)

theorem sliceAll_eq (hlawful : codec.Lawful) (hfits : slicer.Fits codec) {blocks : List Block}
    (hblocks : ∀ block ∈ blocks, codec.fromBuffer block.wire = some block ∧ slicer.nFragments block ≤ 65535) :
    sliceAll codec slicer blocks = some ((sentAll slicer blocks).map fun sent =>
      (List.range sent.payloads.length).map (sent.wire codec)) ∧
      ∀ sent ∈ sentAll slicer blocks, sent.Readable codec := by
  induction blocks generalizing slicer with
  | nil => exact ⟨rfl, fun _ h => nomatch h⟩
  | cons block blocks ih =>
      obtain ⟨hblock, hle⟩ := hblocks block List.mem_cons_self
      have hfits' : Slicer.Fits codec { slicer with
          seqgen := { next := slicer.seqgen.next + UInt64.ofNat (slicer.nFragments block) } } :=
        ⟨hfits.mtu_lt, hfits.overhead_lt, hfits.maxPayload_eq⟩
      obtain ⟨hrest, hreadable⟩ := ih hfits' fun b hb => hblocks b (List.mem_cons_of_mem block hb)
      refine ⟨?_, fun sent hsent => ?_⟩
      · rw [sliceAll, slice_eq hlawful hfits hle, Option.bind_some]
        dsimp only
        rw [hrest, Option.map_some, sentAll, List.map_cons, Sent.of_length]
      · rw [sentAll, List.mem_cons] at hsent
        cases hsent with
        | inl hfirst =>
            rw [hfirst]
            exact ⟨Sent.of_valid hlawful hfits hblock hle, fun j hj =>
              Sent.of_fromBlock hlawful hfits hle (Sent.of_length slicer block ▸ hj)⟩
        | inr hlater => exact hreadable sent hlater

/-! ### What is received -/

section Reassembly

variable {sents : List Sent} {arrived : List (Nat × Nat)} {store : PartialMessageStore}

/-- The payloads of a message that have arrived, each in its place. -/
def Sent.arrivedPayloads (codec : TlvCodec) (sent : Sent) (i : Nat) (arrived : List (Nat × Nat)) :
    List (Option Block) :=
  (List.range sent.payloads.length).map fun j =>
    if (i, j) ∈ arrived then some (codec.block tlvNdnlpPayload (sent.payloads.getD j [])) else none

/-- The store holds the fragments that have arrived of the messages that have not arrived completely. -/
structure Holds (codec : TlvCodec) (sents : List Sent) (arrived : List (Nat × Nat)) (store : PartialMessageStore) :
    Prop where
  wellFormed : store.WellFormed
  message : ∀ i sent, sents[i]? = some sent → sent.payloads.length ≠ 1 →
    (store.partialMessages sent.seq = none ∧
      ((∀ j, (i, j) ∉ arrived) ∨ ∀ j < sent.payloads.length, (i, j) ∈ arrived)) ∨
    ∃ message, store.partialMessages sent.seq = some message ∧ message.payloads = sent.arrivedPayloads codec i arrived

theorem empty_holds (codec : TlvCodec) (sents : List Sent) : Holds codec sents [] .empty where
  wellFormed := PartialMessageStore.empty_wellFormed
  message := fun _ _ _ _ => .inl ⟨rfl, .inl fun _ => List.not_mem_nil⟩

theorem Sent.arrivedPayloads_cons (sent : Sent) (i : Nat) {j : Nat} (hj : j < sent.payloads.length) :
    sent.arrivedPayloads codec i ((i, j) :: arrived) = (sent.arrivedPayloads codec i arrived).set j
      (some (codec.block tlvNdnlpPayload (sent.payloads.getD j []))) := by
  apply List.ext_getElem?
  intro k
  rw [arrivedPayloads, List.getElem?_set, List.getElem?_map, arrivedPayloads, List.getElem?_map, List.length_map,
    List.length_range]
  by_cases hk : j = k
  · subst hk
    rw [if_pos rfl, if_pos hj, List.getElem?_range hj, Option.map_some, if_pos List.mem_cons_self]
  · rw [if_neg hk]
    by_cases hlen : k < sent.payloads.length
    · have hmem : (i, k) ∈ (i, j) :: arrived ↔ (i, k) ∈ arrived := by
        rw [List.mem_cons, or_iff_right fun heq => hk (Prod.mk.inj heq).2.symm]
      rw [List.getElem?_range hlen, Option.map_some, Option.map_some, if_congr hmem rfl rfl]
    · rw [List.getElem?_eq_none (by rw [List.length_range]; omega)]
      rfl

theorem Sent.arrivedPayloads_getElem? (codec : TlvCodec) (sent : Sent) (i : Nat) {j : Nat}
    (hj : j < sent.payloads.length) : (sent.arrivedPayloads codec i arrived)[j]? = some (if (i, j) ∈ arrived then
      some (codec.block tlvNdnlpPayload (sent.payloads.getD j [])) else none) := by
  rw [arrivedPayloads, List.getElem?_map, List.getElem?_range hj, Option.map_some]

theorem Sent.arrivedPayloads_of_none (sent : Sent) {i : Nat} (h : ∀ j, (i, j) ∉ arrived) :
    sent.arrivedPayloads codec i arrived = List.replicate sent.payloads.length none := by
  refine List.eq_replicate_iff.mpr ⟨?_, fun payload hmem => ?_⟩
  · rw [arrivedPayloads, List.length_map, List.length_range]
  · obtain ⟨j, -, rfl⟩ := List.mem_map.mp hmem
    exact if_neg (h j)

/-- All payloads are there when all fragments are, and make up the message. -/
theorem Sent.arrivedPayloads_isSome (sent : Sent) (i : Nat) (arrived : List (Nat × Nat)) :
    (∀ payload ∈ sent.arrivedPayloads codec i arrived, payload.isSome = true) ↔
      ∀ j < sent.payloads.length, (i, j) ∈ arrived := by
  constructor
  · intro hall j hj
    by_contra hnot
    have hsome := hall _ (List.mem_of_getElem? (sent.arrivedPayloads_getElem? codec i hj))
    rw [if_neg hnot] at hsome
    cases hsome
  · intro hall payload hmem
    obtain ⟨j, hj, rfl⟩ := List.mem_map.mp hmem
    rw [if_pos (hall j (List.mem_range.mp hj))]
    rfl

theorem Sent.Valid.flatMap_arrivedPayloads {sent : Sent} {i : Nat} (h : sent.Valid codec)
    (hall : ∀ j < sent.payloads.length, (i, j) ∈ arrived) :
    (sent.arrivedPayloads codec i arrived).flatMap
    (fun payload => payload.elim [] Block.value) = sent.message.wire := by
  have hpayloads : (List.range sent.payloads.length).map (fun j => sent.payloads.getD j []) = sent.payloads := by
    apply List.ext_getElem?
    intro k
    rw [List.getElem?_map]
    by_cases hk : k < sent.payloads.length
    · rw [List.getElem?_range hk, Option.map_some, List.getD_eq_getElem?_getD, List.getElem?_eq_getElem hk]
      rfl
    · rw [List.getElem?_eq_none (by rw [List.length_range]; omega), List.getElem?_eq_none (by omega)]
      rfl
  rw [← h.flatten, Sent.arrivedPayloads, List.flatMap_map]
  refine Eq.trans ?_ (congrArg List.flatten hpayloads)
  rw [← List.flatMap_def]
  refine List.flatMap_congr fun j hj => ?_
  rw [if_pos (hall j (List.mem_range.mp hj))]
  rfl

variable {sent : Sent} {i j : Nat}

/-- The messages other than the one of a fragment that arrives. -/
theorem Holds.of_other (h : Holds codec sents arrived store) {store' : PartialMessageStore} (hwf : store'.WellFormed)
    (hother : ∀ i' sent', i' ≠ i → sents[i']? = some sent' → sent'.payloads.length ≠ 1 →
      store'.partialMessages sent'.seq = store.partialMessages sent'.seq)
    (hsent : sents[i]? = some sent) (hthis : sent.payloads.length ≠ 1 →
      (store'.partialMessages sent.seq = none ∧ ∀ k < sent.payloads.length, (i, k) ∈ (i, j) :: arrived) ∨
      ∃ message, store'.partialMessages sent.seq = some message ∧
        message.payloads = sent.arrivedPayloads codec i ((i, j) :: arrived)) :
    Holds codec sents ((i, j) :: arrived) store' := by
  refine ⟨hwf, fun i' sent' hsent' hlength => ?_⟩
  by_cases hi : i' = i
  · subst hi
    cases hsent.symm.trans hsent'
    exact (hthis hlength).imp_left fun hnone => ⟨hnone.1, .inr hnone.2⟩
  · have hmem : ∀ k, (i', k) ∈ (i, j) :: arrived ↔ (i', k) ∈ arrived := fun k => by
      rw [List.mem_cons, or_iff_right fun heq => hi (Prod.mk.inj heq).1]
    rw [hother i' sent' hi hsent' hlength, Sent.arrivedPayloads]
    simp only [hmem]
    exact h.message i' sent' hsent' hlength

theorem Holds.receive_single (h : Holds codec sents arrived store) (hlawful : codec.Lawful)
    (hsent : sents[i]? = some sent) (hreadable : sent.Readable codec) (hone : sent.payloads.length = 1)
    (hj : j < sent.payloads.length) :
    receiveWire codec store (sent.wire codec j) = some (store, some sent.message) ∧
      Holds codec sents ((i, j) :: arrived) store := by
  have hfirst : j = 0 := by omega
  have hcount : (sent.packet codec j).fragCount = 1 := UInt16.toNat_inj.mp (hreadable.packet_fragCount.trans hone)
  have hpayload : (sent.packet codec j).payload.value = sent.message.wire := by
    obtain ⟨octets, hoctets⟩ := List.length_eq_one_iff.mp hone
    rw [← hreadable.flatten, hfirst]
    change sent.payloads.getD 0 [] = _
    rw [hoctets]
    exact (List.append_nil octets).symm
  refine ⟨?_, h.of_other h.wellFormed (fun _ _ _ _ _ => rfl) hsent fun hlength => absurd hone hlength⟩
  rw [receiveWire, hreadable.fromBlock j hj]
  dsimp only
  rw [PartialMessageStore.receive, if_pos hcount, PartialMessage.reassembleSingle, if_pos hcount, Option.map_some,
    hpayload, hlawful.blockFromValue_eq, hreadable.fromBuffer]

/-- A fragment of several takes its place, and completes the message when it is the last. -/
theorem Holds.add (h : Holds codec sents arrived store) (hsent : sents[i]? = some sent) (hvalid : sent.Valid codec)
    (hmany : sent.payloads.length ≠ 1) (hj : j < sent.payloads.length) (hnew : (i, j) ∉ arrived)
    {message : PartialMessage} {accepted : Bool}
    (hadd : ((store.partialMessages sent.seq).getD .new).add (sent.packet codec j).fragIndex
      (sent.packet codec j).fragCount (sent.packet codec j).payload = some (message, accepted)) :
    message.payloads = sent.arrivedPayloads codec i ((i, j) :: arrived) := by
  have hcount := hvalid.packet_fragCount (j := j)
  have hindex := hvalid.packet_fragIndex hj
  have hlt : (sent.packet codec j).fragIndex.toNat < (sent.packet codec j).fragCount.toNat := by
    rw [hcount, hindex]
    exact hj
  have hplace : (sent.arrivedPayloads codec i arrived)[j]? = some none := by
    rw [sent.arrivedPayloads_getElem? codec i hj, if_neg hnew]
  have hbefore : ∀ old : PartialMessage, old.Counted →
      (old.start (sent.packet codec j).fragCount).payloads = sent.arrivedPayloads codec i arrived →
      (old.received ≠ 0 → old.payloads = sent.arrivedPayloads codec i arrived ∧ old.fragCount = sent.payloads.length) →
      old.add (sent.packet codec j).fragIndex (sent.packet codec j).fragCount (sent.packet codec j).payload =
        some (message, accepted) → message.payloads = sent.arrivedPayloads codec i ((i, j) :: arrived) := by
    intro old hcounted hstart hlater hadd
    obtain ⟨message', accepted', hadd', -, -, haccepted, hrefused⟩ := hcounted.add hlt (sent.packet codec j).payload
    rw [hadd] at hadd'
    cases hadd'
    cases ha : accepted with
    | true =>
        obtain ⟨-, -, hpayloads⟩ := haccepted ha
        rw [hpayloads, hstart, hindex, sent.arrivedPayloads_cons i hj]
        rfl
    | false =>
        obtain ⟨-, hreceived, hfull⟩ := hrefused ha
        obtain ⟨hpayloads, hfragCount⟩ := hlater hreceived
        obtain ⟨b, hb⟩ := hfull (hfragCount.trans hcount.symm)
        rw [hindex, hpayloads, hplace] at hb
        cases hb
  cases hm : store.partialMessages sent.seq with
  | none =>
      rw [hm, Option.getD_none] at hadd
      refine hbefore .new PartialMessage.new_counted ?_ (fun hreceived => absurd rfl hreceived) hadd
      have hnone : ∀ k, (i, k) ∉ arrived := by
        rcases h.message i sent hsent hmany with ⟨-, hnone | hall⟩ | ⟨message, hmessage, -⟩
        · exact hnone
        · exact absurd (hall j hj) hnew
        · rw [hm] at hmessage
          cases hmessage
      rw [sent.arrivedPayloads_of_none hnone, PartialMessage.start,
        if_pos (show PartialMessage.new.received = 0 from rfl), hcount]
      exact congrArg (· ++ List.replicate sent.payloads.length none) List.take_nil
  | some old =>
      rw [hm, Option.getD_some] at hadd
      obtain ⟨hcounted, hreceived, -⟩ := h.wellFormed.counted _ _ hm
      have hpayloads : old.payloads = sent.arrivedPayloads codec i arrived := by
        rcases h.message i sent hsent hmany with ⟨hnone, -⟩ | ⟨message, hmessage, hpayloads⟩
        · rw [hm] at hnone
          cases hnone
        · rw [hm] at hmessage
          cases hmessage
          exact hpayloads
      refine hbefore old hcounted ?_ (fun _ => ⟨hpayloads, ?_⟩) hadd
      · rw [PartialMessage.start, if_neg (Nat.pos_iff_ne_zero.mp hreceived)]
        exact hpayloads
      · rw [← hcounted.length, hpayloads, Sent.arrivedPayloads, List.length_map, List.length_range]

/-- A fragment arrives: its message is delivered if it was the last that was missing. -/
theorem Holds.receive (h : Holds codec sents arrived store) (hlawful : codec.Lawful)
    (hseq : ∀ i' sent', i' ≠ i → sents[i']? = some sent' → sent'.seq ≠ sent.seq) (hsent : sents[i]? = some sent)
    (hreadable : sent.Readable codec) (hj : j < sent.payloads.length) (hnew : (i, j) ∉ arrived) :
    ∃ store', receiveWire codec store (sent.wire codec j) =
        some (store', if ∀ k < sent.payloads.length, (i, k) ∈ (i, j) :: arrived then some sent.message else none) ∧
      Holds codec sents ((i, j) :: arrived) store' := by
  by_cases hone : sent.payloads.length = 1
  · obtain ⟨hreceive, hholds⟩ := h.receive_single hlawful hsent hreadable hone hj
    refine ⟨store, ?_, hholds⟩
    rw [hreceive, if_pos fun k hk => ?_]
    have hk' : k = j := by omega
    rw [hk']
    exact List.mem_cons_self
  · have hcount := hreadable.packet_fragCount (j := j)
    have hid := hreadable.packet_messageIdentifier hj
    have hmany : (sent.packet codec j).fragCount ≠ 1 := fun heq => hone (by rw [← hcount, heq]; rfl)
    obtain ⟨message, accepted, hadd, hcounted, -, store', hreceive, hwf, hmessages⟩ :=
      h.wellFormed.receive_fragment codec hmany (by rw [hcount, hreadable.packet_fragIndex hj]; exact hj)
    rw [hid] at hadd hmessages
    have hpayloads := h.add hsent hreadable.toValid hone hj hnew hadd
    have hcomplete : message.isComplete = true ↔ ∀ k < sent.payloads.length, (i, k) ∈ (i, j) :: arrived := by
      rw [hcounted.isComplete_iff, hpayloads]
      exact sent.arrivedPayloads_isSome i _
    refine ⟨store', ?_, h.of_other hwf (fun i' sent' hi hsent' _ => ?_) hsent fun _ => ?_⟩
    · rw [receiveWire, hreadable.fromBlock j hj]
      dsimp only
      rw [hreceive]
      by_cases hall : ∀ k < sent.payloads.length, (i, k) ∈ (i, j) :: arrived
      · rw [if_pos hall, if_pos (hcomplete.mpr hall), PartialMessage.octets, hpayloads,
          hreadable.flatMap_arrivedPayloads hall, hreadable.fromBuffer]
      · rw [if_neg hall, if_neg fun hc => hall (hcomplete.mp hc)]
    · rw [hmessages, Function.update_of_ne (hseq i' sent' hi hsent')]
    · rw [hmessages, Function.update_self]
      by_cases hall : ∀ k < sent.payloads.length, (i, k) ∈ (i, j) :: arrived
      · rw [if_pos (hcomplete.mpr hall)]
        exact .inl ⟨rfl, hall⟩
      · rw [if_neg fun hc => hall (hcomplete.mp hc)]
        exact .inr ⟨_, rfl, hpayloads⟩

/-- The fragments of a message have arrived completely. -/
theorem allArrived_iff {packets : List (List Block)} {pa : List Block} (hpa : packets[i]? = some pa) :
    allArrived packets i arrived = true ↔ ∀ k < pa.length, (i, k) ∈ arrived := by
  rw [allArrived, hpa, Option.elim_some, List.all_eq_true]
  exact forall_congr' fun k => by rw [List.mem_range, decide_eq_true_iff]

theorem allArrived_congr (packets : List (List Block)) (i : Nat) {arrived' : List (Nat × Nat)}
    (h : ∀ k, (i, k) ∈ arrived ↔ (i, k) ∈ arrived') : allArrived packets i arrived = allArrived packets i arrived' := by
  simp only [allArrived, h]

/-- A fragment counts as arrived before others or after them. -/
theorem allArrived_append_cons (packets : List (List Block)) (i : Nat) (a : Nat × Nat) (arrivals : List (Nat × Nat)) :
    allArrived packets i (arrivals ++ a :: arrived) = allArrived packets i (a :: arrivals ++ arrived) :=
  allArrived_congr packets i fun k => by
    simp only [List.mem_append, List.mem_cons, List.cons_append]
    rw [or_left_comm]

theorem seq_ne (hseq : sents.Pairwise fun a b => a.seq ≠ b.seq) {i i' : Nat} {sent sent' : Sent} (hi : i' ≠ i)
    (hsent' : sents[i']? = some sent') (hsent : sents[i]? = some sent) : sent'.seq ≠ sent.seq := by
  obtain ⟨hlt', rfl⟩ := List.getElem?_eq_some_iff.mp hsent'
  obtain ⟨hlt, rfl⟩ := List.getElem?_eq_some_iff.mp hsent
  have hpair := List.pairwise_iff_getElem.mp hseq
  cases Nat.lt_or_gt_of_ne hi with
  | inl hbefore => exact hpair i' i hlt' hlt hbefore
  | inr hafter => exact (hpair i i' hlt hlt' hafter).symm

/-- What has been sent, with its wire form. -/
def packetsOf (codec : TlvCodec) (sents : List Sent) : List (List Block) :=
  sents.map fun sent => (List.range sent.payloads.length).map (sent.wire codec)

theorem packetAt_packetsOf {wire : Block} (h : packetAt (packetsOf codec sents) (i, j) = some wire) :
    ∃ sent, sents[i]? = some sent ∧ j < sent.payloads.length ∧ wire = sent.wire codec j := by
  obtain ⟨pa, hpa, hwire⟩ := Option.bind_eq_some_iff.mp h
  rw [packetsOf, List.getElem?_map] at hpa
  obtain ⟨sent, hsent, rfl⟩ := Option.map_eq_some_iff.mp hpa
  dsimp only at hwire
  rw [List.getElem?_map] at hwire
  obtain ⟨k, hk, rfl⟩ := Option.map_eq_some_iff.mp hwire
  obtain ⟨hlt, rfl⟩ := List.getElem?_eq_some_iff.mp hk
  rw [List.length_range] at hlt
  exact ⟨sent, hsent, hlt, by rw [List.getElem_range]⟩

theorem allArrived_packetsOf (hsent : sents[i]? = some sent) :
    allArrived (packetsOf codec sents) i arrived = true ↔ ∀ k < sent.payloads.length, (i, k) ∈ arrived := by
  have hpa : (packetsOf codec sents)[i]? = some ((List.range sent.payloads.length).map (sent.wire codec)) := by
    rw [packetsOf, List.getElem?_map, hsent, Option.map_some]
  rw [allArrived_iff hpa, List.length_map, List.length_range]

theorem deliveredOn_cons (i j : Nat) (arrivals : List (Nat × Nat)) (output : Option Block)
    (outputs : List (Option Block)) (i' : Nat) : deliveredOn ((i, j) :: arrivals) (output :: outputs) i' =
      (if i = i' then output.toList else []) ++ deliveredOn arrivals outputs i' := by
  rw [deliveredOn, List.zip_cons_cons, List.filterMap_cons]
  dsimp only
  by_cases hi : i = i'
  · rw [if_pos hi, if_pos hi]
    cases output <;> rfl
  · rw [if_neg hi, if_neg hi]
    rfl

/-- What is delivered when fragments arrive after others. -/
theorem Holds.receiveAll (hlawful : codec.Lawful) (hreadable : ∀ sent ∈ sents, sent.Readable codec)
    (hseq : sents.Pairwise fun a b => a.seq ≠ b.seq) (arrivals : List (Nat × Nat)) (wires : List Block)
    (hwires : arrivals.map (packetAt (packetsOf codec sents)) = wires.map some) (h : Holds codec sents arrived store)
    (hnodup : arrivals.Nodup) (hnew : ∀ a ∈ arrivals, a ∉ arrived) :
    ∃ store' outputs, Ndnlp.receiveAll codec store wires = some (store', outputs) ∧
      (∀ n i j, arrivals[n]? = some (i, j) → outputs[n]? = some
        (if allArrived (packetsOf codec sents) i (arrivals.take (n + 1) ++ arrived) then
          (sents[i]?).map Sent.message else none)) ∧
      ∀ i sent, sents[i]? = some sent → deliveredOn arrivals outputs i =
        if allArrived (packetsOf codec sents) i (arrivals ++ arrived) ∧ ¬ allArrived (packetsOf codec sents) i arrived
        then [sent.message] else [] := by
  induction arrivals generalizing wires store arrived with
  | nil =>
      obtain rfl : wires = [] := List.map_eq_nil_iff.mp hwires.symm
      refine ⟨store, [], rfl, fun n i j hn => (nomatch hn), fun i sent _ => ?_⟩
      rw [List.nil_append, if_neg fun hand => hand.2 hand.1]
      rfl
  | cons a arrivals ih =>
      obtain ⟨i, j⟩ := a
      cases wires with
      | nil => cases hwires
      | cons wire wires =>
          rw [List.map_cons, List.map_cons, List.cons.injEq] at hwires
          obtain ⟨sent, hsent, hj, rfl⟩ := packetAt_packetsOf hwires.1
          obtain ⟨hfirst, hrest⟩ := List.nodup_cons.mp hnodup
          have hnewFirst := hnew (i, j) List.mem_cons_self
          obtain ⟨store₁, hreceive, hholds⟩ :=
            h.receive hlawful (fun i' sent' hi hsent' => seq_ne hseq hi hsent' hsent) hsent
              (hreadable sent (List.mem_of_getElem? hsent)) hj hnewFirst
          obtain ⟨store', outputs, hrun, hat, hdelivered⟩ := ih wires hwires.2 hholds hrest fun a ha => by
            rw [List.mem_cons, not_or]
            exact ⟨fun heq => hfirst (heq ▸ ha), hnew a (List.mem_cons_of_mem _ ha)⟩
          have hlast : (if ∀ k < sent.payloads.length, (i, k) ∈ (i, j) :: arrived then some sent.message else none) =
              if allArrived (packetsOf codec sents) i ((i, j) :: arrived) then (sents[i]?).map Sent.message
                else none := by
            rw [hsent, Option.map_some]
            exact if_congr (allArrived_packetsOf hsent).symm rfl rfl
          rw [hlast] at hreceive
          refine ⟨store', (if allArrived (packetsOf codec sents) i ((i, j) :: arrived) then
            (sents[i]?).map Sent.message else none) :: outputs, ?_, fun n i' j' hn => ?_, fun i' sent' hsent' => ?_⟩
          · rw [Ndnlp.receiveAll, hreceive, Option.bind_some]
            dsimp only
            rw [hrun, Option.map_some]
          · cases n with
            | zero =>
                cases hn
                rfl
            | succ n =>
                rw [List.getElem?_cons_succ, hat n i' j' hn, allArrived_append_cons]
                rfl
          · rw [deliveredOn_cons, hdelivered i' sent' hsent', allArrived_append_cons]
            by_cases hi : i = i'
            · subst hi
              cases hsent.symm.trans hsent'
              have hbefore : ¬ allArrived (packetsOf codec sents) i arrived = true := fun hall =>
                hnewFirst ((allArrived_packetsOf hsent).mp hall j hj)
              rw [if_pos rfl, hsent, Option.map_some]
              by_cases hnow : allArrived (packetsOf codec sents) i ((i, j) :: arrived) = true
              · have hlater : allArrived (packetsOf codec sents) i ((i, j) :: arrivals ++ arrived) = true := by
                  rw [allArrived_packetsOf hsent] at hnow ⊢
                  exact fun k hk => List.cons_subset_cons _ (List.subset_append_right arrivals arrived) (hnow k hk)
                rw [if_pos hnow, if_neg fun hand => hand.2 hnow, if_pos ⟨hlater, hbefore⟩]
                rfl
              · rw [if_neg hnow, Option.toList_none, List.nil_append]
                exact if_congr (and_congr_right fun _ => iff_of_true hnow hbefore) rfl rfl
            · have hsame : allArrived (packetsOf codec sents) i' ((i, j) :: arrived) =
                  allArrived (packetsOf codec sents) i' arrived := allArrived_congr _ i' fun k => by
                rw [List.mem_cons, or_iff_right fun heq => hi (Prod.mk.inj heq).1.symm]
              rw [if_neg hi, List.nil_append, hsame]

end Reassembly

/-- Blocks that are sliced one after the other and whose packets arrive in any order, some perhaps not at all: every
message that arrives completely is delivered, once, as it was sent, on the packet that completes it; no other is. -/
theorem messages_delivered (hlawful : codec.Lawful) (hmtu : mtu < 2 ^ 64) (hoverhead : Slicer.overhead codec mtu < mtu)
    (next : UInt64) (messages : List Block)
    (hmessages : ∀ message ∈ messages, codec.fromBuffer message.wire = some message ∧
      (Slicer.new codec mtu next).nFragments message ≤ 65535)
    (hdisjoint : (sequenceBlocks (Slicer.new codec mtu next) messages).Pairwise SequenceBlock.Disjoint) :
    ∃ packets, sliceAll codec (Slicer.new codec mtu next) messages = some packets ∧
      ∀ (arrivals : List (Nat × Nat)) (wires : List Block), arrivals.Nodup →
        arrivals.map (packetAt packets) = wires.map some →
        ∃ store outputs, receiveAll codec .empty wires = some (store, outputs) ∧
          (∀ n i j, arrivals[n]? = some (i, j) → outputs[n]? =
            some (if allArrived packets i (arrivals.take (n + 1)) then messages[i]? else none)) ∧
          ∀ i message, messages[i]? = some message →
            deliveredOn arrivals outputs i = if allArrived packets i arrivals then [message] else [] := by
  obtain ⟨hslice, hreadable⟩ := sliceAll_eq hlawful (Slicer.new_fits next hmtu hoverhead) hmessages
  refine ⟨_, hslice, fun arrivals wires hnodup hwires => ?_⟩
  generalize hsents : sentAll (Slicer.new codec mtu next) messages = sents at *
  have hmessage : sents.map Sent.message = messages := hsents ▸ sentAll_message _ messages
  have hseq : sents.Pairwise fun a b => a.seq ≠ b.seq := by
    rw [sequenceBlocks_eq, hsents, List.pairwise_map] at hdisjoint
    refine hdisjoint.imp_of_mem fun {a b} ha hb hab => ?_
    have hfirst := hab 0 (hreadable a ha).pos 0 (hreadable b hb).pos
    simpa using hfirst
  obtain ⟨store, outputs, hrun, hat, hdelivered⟩ := (empty_holds codec sents).receiveAll hlawful hreadable hseq arrivals
    wires hwires hnodup fun _ _ => List.not_mem_nil
  refine ⟨store, outputs, hrun, fun n i j hn => ?_, fun i message hi => ?_⟩
  · rw [hat n i j hn, List.append_nil, ← hmessage, List.getElem?_map]
    rfl
  · rw [← hmessage, List.getElem?_map] at hi
    obtain ⟨sent, hsent, rfl⟩ := Option.map_eq_some_iff.mp hi
    have hnone : ¬ allArrived (packetsOf codec sents) i [] = true := fun hall =>
      List.not_mem_nil ((allArrived_packetsOf hsent).mp hall 0 (hreadable sent (List.mem_of_getElem? hsent)).pos)
    rw [hdelivered i sent hsent, List.append_nil]
    exact if_congr (and_iff_left hnone) rfl rfl

/-- Messages of twenty octets and of two, with a payload of eighteen octets and numbers that wrap around. -/
def sampleMessages : List Block := [Tlv.codec.block 1 (List.replicate 18 204), Tlv.codec.block 1 []]

/-- The second message, and the fragments of the first in the wrong order. -/
theorem messages_delivered_wrapping :
    ∃ packets, sliceAll Tlv.codec (Slicer.new Tlv.codec 40 (2 ^ 64 - 1)) sampleMessages = some packets ∧
      packets.map List.length = [2, 1] ∧ ∀ wires : List Block,
        [(1, 0), (0, 1), (0, 0)].map (packetAt packets) = wires.map some →
          ∃ store outputs, receiveAll Tlv.codec .empty wires = some (store, outputs) ∧
            outputs[2]? = some (sampleMessages[0]?) := by
  obtain ⟨packets, hslice, hdelivered⟩ := messages_delivered Tlv.codec_lawful (show 40 < 2 ^ 64 by decide)
    (by decide +kernel)
    (2 ^ 64 - 1) sampleMessages (by decide +kernel) (by decide +kernel)
  have hlength : (sliceAll Tlv.codec (Slicer.new Tlv.codec 40 (2 ^ 64 - 1)) sampleMessages).any (fun packets =>
      packets.map List.length == [2, 1] && allArrived packets 0 [(1, 0), (0, 1), (0, 0)]) = true := by decide +kernel
  rw [hslice, Option.any_some, Bool.and_eq_true, beq_iff_eq] at hlength
  refine ⟨packets, hslice, hlength.1, fun wires hwires => ?_⟩
  obtain ⟨store, outputs, hrun, hat, -⟩ := hdelivered [(1, 0), (0, 1), (0, 0)] wires (by decide) hwires
  refine ⟨store, outputs, hrun, ?_⟩
  rw [hat 2 0 0 rfl]
  exact congrArg some (if_pos hlength.2)

end NfdPitless.Ndnlp
