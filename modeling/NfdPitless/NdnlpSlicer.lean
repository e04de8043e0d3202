import NfdPitless.Ndnlp

/-! NDNLP: slicing a block into packets (`face/ndnlp-slicer.cpp`, `face/ndnlp-sequence-generator.cpp`), and what the
receiver reads from them. -/

namespace NfdPitless.Ndnlp

structure SequenceBlock where
  start : UInt64
  count : Nat

/-- The number at a position; `none` where it throws. -/
def SequenceBlock.get (block : SequenceBlock) (pos : Nat) : Option UInt64 :=
  if block.count ≤ pos then none else some (block.start + UInt64.ofNat pos)

structure SequenceGenerator where
  next : UInt64

def SequenceGenerator.nextBlock (seqgen : SequenceGenerator) (count : Nat) : SequenceBlock × SequenceGenerator :=
  ({ start := seqgen.next, count }, { next := seqgen.next + UInt64.ofNat count })

structure Slicer where
  seqgen : SequenceGenerator
  mtu : Nat
  maxPayload : Nat

namespace Slicer

/-- The octets of a packet. The index and the count are only written when there are several fragments. -/
def encodeFragment (codec : TlvCodec) (seq : UInt64) (fragIndex fragCount : UInt16) (payload : List UInt8) :
    List UInt8 :=
  let blk := codec.encode tlvNdnlpPayload payload
  let blk :=
    if 1 < fragCount then
      codec.encode tlvNdnlpFragIndex (codec.nonNegativeInteger fragIndex.toNat) ++
        (codec.encode tlvNdnlpFragCount (codec.nonNegativeInteger fragCount.toNat) ++ blk)
    else blk
  codec.encode tlvNdnlpData (codec.encode tlvNdnlpSequence (bigEndian 8 seq.toNat) ++ blk)

/-- The size of a packet with all header fields at the largest possible size and `mtu` octets of payload, less these. -/
def overhead (codec : TlvCodec) (mtu : Nat) : Nat :=
  (encodeFragment codec (2 ^ 64 - 1) (2 ^ 16 - 2) (2 ^ 16 - 1) (List.replicate mtu 0)).length - mtu

/-- A slicer whose generator goes on from a sequence number. -/
def new (codec : TlvCodec) (mtu : Nat) (next : UInt64) : Slicer :=
  { seqgen := { next }, mtu, maxPayload := (mtu + 2 ^ 64 - overhead codec mtu) % 2 ^ 64 }

/-- The number of fragments that a block needs. -/
def nFragments (slicer : Slicer) (block : Block) : Nat :=
  block.wire.length / slicer.maxPayload + if block.wire.length % slicer.maxPayload = 0 then 0 else 1

/-- The payload of a fragment. -/
def payload (slicer : Slicer) (block : Block) (fragIndex : Nat) : List UInt8 :=
  (block.wire.drop (fragIndex * slicer.maxPayload)).take
    (min slicer.maxPayload (block.wire.length - fragIndex * slicer.maxPayload))

/-- The packets of a block; `none` where a division by zero or a packet that is too large ends the program. -/
def slice (codec : TlvCodec) (slicer : Slicer) (block : Block) : Option (List Block × Slicer) :=
  if slicer.maxPayload = 0 then none
  else
    let fragCount := UInt16.ofNat (slicer.nFragments block)
    let (seqBlock, seqgen) := slicer.seqgen.nextBlock fragCount.toNat
    ((List.range fragCount.toNat).mapM fun fragIndex => do
      let seq ← seqBlock.get fragIndex
      let buffer := encodeFragment codec seq (UInt16.ofNat fragIndex) fragCount (slicer.payload block fragIndex)
      guard (buffer.length ≤ slicer.mtu)
      codec.fromBuffer buffer).map fun pa => (pa, { slicer with seqgen })

variable {codec : TlvCodec} {mtu : Nat} {next seq : UInt64} {fragIndex fragCount : UInt16} {octets : List UInt8}
  {block : Block}

/-- The MTU is larger than the overhead, which is left for the headers. -/
structure Fits (codec : TlvCodec) (slicer : Slicer) : Prop where
  mtu_lt : slicer.mtu < 2 ^ 64
  overhead_lt : overhead codec slicer.mtu < slicer.mtu
  maxPayload_eq : slicer.maxPayload = slicer.mtu - overhead codec slicer.mtu

theorem new_fits (next : UInt64) (hmtu : mtu < 2 ^ 64) (h : overhead codec mtu < mtu) :
    (new codec mtu next).Fits codec where
  mtu_lt := hmtu
  overhead_lt := h
  maxPayload_eq := by
    rw [new]
    dsimp only
    omega

theorem Fits.maxPayload_pos {slicer : Slicer} (h : slicer.Fits codec) : 0 < slicer.maxPayload := by
  have hlt := h.overhead_lt
  have heq := h.maxPayload_eq
  omega

theorem encode_length (codec : TlvCodec) (type : Nat) (value : List UInt8) : (codec.encode type value).length =
    (codec.varNumber type).length + (codec.varNumber value.length).length + value.length := by
  rw [TlvCodec.encode, List.length_append, List.length_append]

theorem encode_length_mono (hlawful : codec.Lawful) (type : Nat) {value value' : List UInt8}
    (h : value.length ≤ value'.length) : (codec.encode type value).length ≤ (codec.encode type value').length := by
  have hlength := hlawful.varNumber_mono _ _ h
  rw [encode_length, encode_length]
  omega

/-- The elements of a packet. -/
def fields (codec : TlvCodec) (seq : UInt64) (fragIndex fragCount : UInt16) (payload : List UInt8) :
    List (Nat × List UInt8) :=
  (tlvNdnlpSequence, bigEndian 8 seq.toNat) ::
    ((if 1 < fragCount then [(tlvNdnlpFragIndex, codec.nonNegativeInteger fragIndex.toNat),
      (tlvNdnlpFragCount, codec.nonNegativeInteger fragCount.toNat)] else []) ++ [(tlvNdnlpPayload, payload)])

theorem encodeFragment_eq : encodeFragment codec seq fragIndex fragCount octets =
    codec.encode tlvNdnlpData ((fields codec seq fragIndex fragCount octets).flatMap fun e =>
      codec.encode e.1 e.2) := by
  unfold encodeFragment fields
  dsimp only
  split <;> simp

/-- The contents of a packet are no longer than those of the estimate, less what the payload is shorter. -/
theorem fields_length_le (hlawful : codec.Lawful) (seq : UInt64) (hindex : fragIndex.toNat < fragCount.toNat)
    (hpayload : octets.length ≤ mtu) :
    ((fields codec seq fragIndex fragCount octets).flatMap fun e => codec.encode e.1 e.2).length + mtu ≤
      ((fields codec (2 ^ 64 - 1) (2 ^ 16 - 2) (2 ^ 16 - 1) (List.replicate mtu 0)).flatMap
        fun e => codec.encode e.1 e.2).length + octets.length := by
  have hcount : fragCount.toNat < 2 ^ 16 := fragCount.toNat_lt
  have hpay := hlawful.varNumber_mono octets.length (List.replicate mtu (0 : UInt8)).length (by simpa using hpayload)
  have hi := encode_length_mono hlawful tlvNdnlpFragIndex
    (hlawful.nonNegativeInteger_mono fragIndex.toNat (2 ^ 16 - 2) (by omega))
  have hc := encode_length_mono hlawful tlvNdnlpFragCount
    (hlawful.nonNegativeInteger_mono fragCount.toNat (2 ^ 16 - 1) (by omega))
  have hseq : (codec.encode tlvNdnlpSequence (bigEndian 8 seq.toNat)).length =
      (codec.encode tlvNdnlpSequence (bigEndian 8 (2 ^ 64 - 1 : UInt64).toNat)).length := by
    rw [encode_length, encode_length, bigEndian_length, bigEndian_length]
  have hmax : (2 ^ 16 - 1 : UInt16).toNat = 2 ^ 16 - 1 := by decide
  have hmax' : (2 ^ 16 - 2 : UInt16).toNat = 2 ^ 16 - 2 := by decide
  have hmany : (1 : UInt16) < 2 ^ 16 - 1 := by decide
  have hlast := encode_length codec tlvNdnlpPayload octets
  have hlast' := encode_length codec tlvNdnlpPayload (List.replicate mtu (0 : UInt8))
  rw [List.length_replicate] at hlast'
  rw [List.length_replicate] at hpay
  unfold fields
  rw [if_pos hmany, hmax, hmax']
  split
  · simp only [List.flatMap_cons, List.flatMap_nil, List.cons_append, List.nil_append, List.append_nil,
      List.length_append]
    omega
  · simp only [List.flatMap_cons, List.flatMap_nil, List.cons_append, List.nil_append, List.append_nil,
      List.length_append]
    omega

/-- A packet fits the MTU. -/
theorem encodeFragment_length_le (seq : UInt64) (hlawful : codec.Lawful) (hindex : fragIndex.toNat < fragCount.toNat)
    (h : overhead codec mtu < mtu) (hpayload : octets.length ≤ mtu - overhead codec mtu) :
    (encodeFragment codec seq fragIndex fragCount octets).length ≤ mtu := by
  have hfields := fields_length_le hlawful seq hindex (by omega : octets.length ≤ mtu)
  rw [overhead, encodeFragment_eq, encode_length] at h hpayload
  rw [encodeFragment_eq, encode_length]
  have hvar := hlawful.varNumber_mono
    ((fields codec seq fragIndex fragCount octets).flatMap fun e => codec.encode e.1 e.2).length
    ((fields codec (2 ^ 64 - 1) (2 ^ 16 - 2) (2 ^ 16 - 1) (List.replicate mtu 0)).flatMap
        fun e => codec.encode e.1 e.2).length (by omega)
  omega

/-- What the receiver reads from a packet. -/
def packet (codec : TlvCodec) (seq : UInt64) (fragIndex fragCount : UInt16) (payload : List UInt8) : NdnlpData :=
  { seq, fragIndex, fragCount, payload := codec.block tlvNdnlpPayload payload }

theorem ofNat_ofBigEndian (seq : UInt64) : UInt64.ofNat (ofBigEndian (bigEndian 8 seq.toNat)) = seq := by
  have hlt : seq.toNat < 256 ^ 8 := seq.toNat_lt
  rw [ofBigEndian_bigEndian hlt, UInt64.ofNat_toNat]

theorem fields_bounds (hlawful : codec.Lawful) (hoctets : octets.length < 2 ^ 64) :
    ∀ e ∈ fields codec seq fragIndex fragCount octets, e.1 < 2 ^ 32 ∧ e.2.length < 2 ^ 64 := by
  have hnni : ∀ n, (codec.nonNegativeInteger n).length < 2 ^ 64 := fun n =>
    (hlawful.nonNegativeInteger_length n).trans_lt (by decide)
  intro e he
  rw [fields, List.mem_cons, List.mem_append, List.mem_singleton] at he
  rcases he with rfl | he | rfl
  · dsimp only
    rw [bigEndian_length]
    exact ⟨show tlvNdnlpSequence < 2 ^ 32 by decide, by decide⟩
  · split at he
    · rw [List.mem_cons, List.mem_singleton] at he
      rcases he with rfl | rfl
      · exact ⟨show tlvNdnlpFragIndex < 2 ^ 32 by decide, hnni _⟩
      · exact ⟨show tlvNdnlpFragCount < 2 ^ 32 by decide, hnni _⟩
    · cases he
  · exact ⟨show tlvNdnlpPayload < 2 ^ 32 by decide, hoctets⟩

/-- A packet is accepted, and what was encoded is read. -/
theorem fromBlock_block (hlawful : codec.Lawful) (hindex : fragIndex.toNat < fragCount.toNat)
    (hoctets : octets.length < 2 ^ 64) :
    NdnlpData.fromBlock codec (codec.block tlvNdnlpData
      ((fields codec seq fragIndex fragCount octets).flatMap fun e => codec.encode e.1 e.2)) =
      some (packet codec seq fragIndex fragCount octets) := by
  have hparse := hlawful.parse_eq (fields codec seq fragIndex fragCount octets) (fields_bounds hlawful hoctets)
  have hcount : fragCount.toNat < 2 ^ 16 := fragCount.toNat_lt
  unfold NdnlpData.fromBlock
  simp only [TlvCodec.block] at hparse ⊢
  rw [hparse]
  unfold fields
  split
  · rename_i hmany
    have hreadIndex := hlawful.readNonNegativeInteger_eq fragIndex.toNat (by omega)
    have hreadCount := hlawful.readNonNegativeInteger_eq fragCount.toNat (by omega)
    have hlt : fragIndex < fragCount := UInt16.lt_iff_toNat_lt.mpr hindex
    simp [guard, hreadIndex, hreadCount, ofNat_ofBigEndian, packet, TlvCodec.block, hlt,
      show fragIndex.toNat ≤ 65535 by omega, show fragCount.toNat ≤ 65535 by omega]
  · rename_i hsingle
    have hone : fragCount = 1 := by
      rw [UInt16.lt_iff_toNat_lt] at hsingle
      apply UInt16.toNat_inj.mp
      change fragCount.toNat = 1
      change ¬ 1 < fragCount.toNat at hsingle
      omega
    have hzero : fragIndex = 0 := by
      apply UInt16.toNat_inj.mp
      change fragIndex.toNat = 0
      rw [hone] at hindex
      change fragIndex.toNat < 1 at hindex
      omega
    simp [guard, ofNat_ofBigEndian, packet, TlvCodec.block, hone, hzero]

theorem payload_eq (slicer : Slicer) (block : Block) (fragIndex : Nat) : slicer.payload block fragIndex =
    (block.wire.drop (fragIndex * slicer.maxPayload)).take slicer.maxPayload := by
  rw [payload]
  cases Nat.le_total slicer.maxPayload (block.wire.length - fragIndex * slicer.maxPayload) with
  | inl h => rw [Nat.min_eq_left h]
  | inr h =>
      rw [Nat.min_eq_right h, List.take_of_length_le (by rw [List.length_drop]),
        List.take_of_length_le (by rw [List.length_drop]; exact h)]

theorem flatMap_payload (slicer : Slicer) (block : Block) (n : Nat) :
    (List.range n).flatMap (slicer.payload block) = block.wire.take (n * slicer.maxPayload) := by
  induction n with
  | zero => rw [Nat.zero_mul, List.take_zero]; rfl
  | succ n ih =>
      rw [List.range_succ, List.flatMap_append, ih, List.flatMap_singleton, payload_eq, Nat.succ_mul, List.take_add]

/-- The payloads of all fragments make up the block. -/
theorem flatMap_payload_nFragments (slicer : Slicer) (block : Block) (hpos : 0 < slicer.maxPayload) :
    (List.range (slicer.nFragments block)).flatMap (slicer.payload block) = block.wire := by
  rw [flatMap_payload]
  apply List.take_of_length_le
  have hdiv := Nat.div_add_mod block.wire.length slicer.maxPayload
  have hmod := Nat.mod_lt block.wire.length hpos
  rw [nFragments, Nat.add_mul, mul_comm _ slicer.maxPayload]
  split
  · omega
  · rw [Nat.one_mul]
    omega

theorem nFragments_pos (slicer : Slicer) (hblock : 0 < block.wire.length) (hpos : 0 < slicer.maxPayload) :
    0 < slicer.nFragments block := by
  rw [nFragments]
  split
  · rename_i hmod
    exact Nat.div_pos (Nat.le_of_dvd hblock (Nat.dvd_of_mod_eq_zero hmod)) hpos
  · exact Nat.succ_pos _

end Slicer
end NfdPitless.Ndnlp
