import Mathlib.Data.List.Basic
import Mathlib.Data.UInt

/-! TLV coding: what programs rely on of a library that writes and reads TLV elements, and one such library, which
keeps to the NDN packet format. -/

namespace NfdPitless

/-- The octets of a number, the most significant first. -/
def bigEndian : Nat → Nat → List UInt8
  | 0, _ => []
  | width + 1, n => bigEndian width (n / 256) ++ [UInt8.ofNat n]

def ofBigEndian (octets : List UInt8) : Nat := octets.foldl (fun n octet => n * 256 + octet.toNat) 0

@[simp] theorem bigEndian_length (width n : Nat) : (bigEndian width n).length = width := by
  induction width generalizing n with
  | zero => rfl
  | succ width ih => rw [bigEndian, List.length_append, ih, List.length_singleton]

theorem ofBigEndian_bigEndian {width n : Nat} (h : n < 256 ^ width) : ofBigEndian (bigEndian width n) = n := by
  induction width generalizing n with
  | zero =>
      rw [pow_zero] at h
      exact (Nat.lt_one_iff.mp h).symm
  | succ width ih =>
      have hhigh : n / 256 < 256 ^ width := Nat.div_lt_of_lt_mul (by rwa [pow_succ, mul_comm] at h)
      have hrest := ih hhigh
      rw [ofBigEndian] at hrest
      rw [bigEndian, ofBigEndian, List.foldl_append, hrest, List.foldl_cons, List.foldl_nil, UInt8.toNat_ofNat']
      exact Nat.div_add_mod' n 256

/-- A TLV element: its type, the octets of its value, and all of its octets. -/
structure Block where
  type : Nat
  value : List UInt8
  wire : List UInt8
  deriving DecidableEq

/-- The operations of a TLV library. A function that throws on what it reads returns `none`. -/
structure TlvCodec where
  /-- What `prependVarNumber` writes. -/
  varNumber : Nat → List UInt8
  /-- What `prependNonNegativeInteger` writes. -/
  nonNegativeInteger : Nat → List UInt8
  /-- `readNonNegativeInteger`, of a value. -/
  readNonNegativeInteger : List UInt8 → Option Nat
  /-- `Block::fromBuffer`: the element at the start. -/
  fromBuffer : List UInt8 → Option Block
  /-- `Block::parse`, of a value: its elements. -/
  parse : List UInt8 → Option (List Block)
  /-- `Block::blockFromValue`, of a value. -/
  blockFromValue : List UInt8 → Option Block

namespace TlvCodec

variable (codec : TlvCodec)

/-- An element as it is written. -/
def encode (type : Nat) (value : List UInt8) : List UInt8 :=
  codec.varNumber type ++ codec.varNumber value.length ++ value

/-- The element as it is read back. -/
def block (type : Nat) (value : List UInt8) : Block := ⟨type, value, codec.encode type value⟩

/-- What the documentation of the library promises. -/
structure Lawful : Prop where
  varNumber_mono : ∀ m n, m ≤ n → (codec.varNumber m).length ≤ (codec.varNumber n).length
  nonNegativeInteger_mono :
    ∀ m n, m ≤ n → (codec.nonNegativeInteger m).length ≤ (codec.nonNegativeInteger n).length
  nonNegativeInteger_length : ∀ n, (codec.nonNegativeInteger n).length ≤ 8
  readNonNegativeInteger_eq : ∀ n, n < 2 ^ 64 → codec.readNonNegativeInteger (codec.nonNegativeInteger n) = some n
  fromBuffer_eq : ∀ type value rest, type < 2 ^ 32 → value.length < 2 ^ 64 →
    codec.fromBuffer (codec.encode type value ++ rest) = some (codec.block type value)
  fromBuffer_nil : codec.fromBuffer [] = none
  parse_eq : ∀ elements : List (Nat × List UInt8), (∀ e ∈ elements, e.1 < 2 ^ 32 ∧ e.2.length < 2 ^ 64) →
    codec.parse (elements.flatMap fun e => codec.encode e.1 e.2) = some (elements.map fun e => codec.block e.1 e.2)
  blockFromValue_eq : ∀ value, codec.blockFromValue value = codec.fromBuffer value

end TlvCodec

/-- Reading succeeds exactly when the octets start with a complete element, and returns that. A complete element is one
that is read from its own octets. -/
structure ReadsElements (fromBuffer : List UInt8 → Option Block) : Prop where
  nil : fromBuffer [] = none
  iff : ∀ octets element, fromBuffer octets = some element ↔
    fromBuffer element.wire = some element ∧ element.wire <+: octets

namespace ReadsElements

variable {fromBuffer : List UInt8 → Option Block}

theorem append (h : ReadsElements fromBuffer) {element : Block}
    (helement : fromBuffer element.wire = some element) (rest : List UInt8) :
    fromBuffer (element.wire ++ rest) = some element :=
  (h.iff _ _).mpr ⟨helement, List.prefix_append _ _⟩

theorem length_pos (h : ReadsElements fromBuffer) {octets : List UInt8} {element : Block}
    (helement : fromBuffer octets = some element) : 0 < element.wire.length := by
  refine List.length_pos_iff_ne_nil.mpr fun hnil => ?_
  have hread := ((h.iff _ _).mp helement).1
  rw [hnil, h.nil] at hread
  cases hread

end ReadsElements

/-! ### The NDN packet format -/

namespace Tlv

def varNumber (n : Nat) : List UInt8 :=
  if n < 253 then [UInt8.ofNat n]
  else if n < 2 ^ 16 then 253 :: bigEndian 2 n
  else if n < 2 ^ 32 then 254 :: bigEndian 4 n
  else 255 :: bigEndian 8 n

def readVarNumber : List UInt8 → Option (Nat × List UInt8)
  | [] => none
  | first :: rest =>
      if first < 253 then some (first.toNat, rest)
      else
        let width := if first = 253 then 2 else if first = 254 then 4 else 8
        if rest.length < width then none else some (ofBigEndian (rest.take width), rest.drop width)

def nonNegativeInteger (n : Nat) : List UInt8 :=
  if n < 2 ^ 8 then bigEndian 1 n
  else if n < 2 ^ 16 then bigEndian 2 n
  else if n < 2 ^ 32 then bigEndian 4 n
  else bigEndian 8 n

def readNonNegativeInteger (value : List UInt8) : Option Nat :=
  if value.length ∈ [1, 2, 4, 8] then some (ofBigEndian value) else none

/-- The element at the start: a type, a length, and as many octets. -/
def fromBuffer (octets : List UInt8) : Option Block := do
  let (type, rest) ← readVarNumber octets
  let (length, rest) ← readVarNumber rest
  guard (length ≤ rest.length)
  return ⟨type, rest.take length, octets.take (octets.length - rest.length + length)⟩

/-- The elements that the octets consist of; there are at most as many as octets. -/
def elements : Nat → List UInt8 → Option (List Block)
  | _, [] => some []
  | 0, _ :: _ => none
  | n + 1, octets => do
      let element ← fromBuffer octets
      let rest ← elements n (octets.drop element.wire.length)
      return element :: rest

def parse (value : List UInt8) : Option (List Block) := elements value.length value

def codec : TlvCodec :=
  { varNumber, nonNegativeInteger, readNonNegativeInteger, fromBuffer, parse, blockFromValue := fromBuffer }

theorem readVarNumber_varNumber {n : Nat} (h : n < 2 ^ 64) (rest : List UInt8) :
    readVarNumber (varNumber n ++ rest) = some (n, rest) := by
  have hwide : ∀ (first : UInt8) (width : Nat), ¬ first < 253 →
      (if first = 253 then 2 else if first = 254 then 4 else 8) = width → n < 256 ^ width →
      readVarNumber (first :: bigEndian width n ++ rest) = some (n, rest) := by
    intro first width hfirst hwidth hn
    rw [List.cons_append, readVarNumber, if_neg hfirst, hwidth]
    have hlength : ¬ (bigEndian width n ++ rest).length < width := by
      rw [List.length_append, bigEndian_length]
      omega
    dsimp only
    rw [if_neg hlength, List.take_left' (bigEndian_length width n), List.drop_left' (bigEndian_length width n),
      ofBigEndian_bigEndian hn]
  unfold varNumber
  split
  · rename_i hn
    have hbyte : (UInt8.ofNat n).toNat = n := by
      rw [UInt8.toNat_ofNat']
      exact Nat.mod_eq_of_lt (by omega)
    have hsmall : UInt8.ofNat n < 253 := UInt8.lt_iff_toNat_lt.mpr (by rwa [hbyte])
    rw [List.singleton_append, readVarNumber, if_pos hsmall, hbyte]
  · split
    · exact hwide 253 2 (by decide) rfl (by omega)
    · split
      · exact hwide 254 4 (by decide) rfl (by omega)
      · exact hwide 255 8 (by decide) rfl (by omega)

theorem varNumber_length (n : Nat) : (varNumber n).length =
    if n < 253 then 1 else if n < 2 ^ 16 then 3 else if n < 2 ^ 32 then 5 else 9 := by
  unfold varNumber
  repeat' split
  all_goals simp

theorem nonNegativeInteger_length (n : Nat) : (nonNegativeInteger n).length =
    if n < 2 ^ 8 then 1 else if n < 2 ^ 16 then 2 else if n < 2 ^ 32 then 4 else 8 := by
  unfold nonNegativeInteger
  repeat' split
  all_goals simp

theorem fromBuffer_encode {type : Nat} {value : List UInt8} (htype : type < 2 ^ 64) (hvalue : value.length < 2 ^ 64)
    (rest : List UInt8) : fromBuffer (codec.encode type value ++ rest) = some (codec.block type value) := by
  have hread : readVarNumber (codec.encode type value ++ rest) =
      some (type, varNumber value.length ++ (value ++ rest)) := by
    rw [TlvCodec.encode, List.append_assoc, List.append_assoc]
    exact readVarNumber_varNumber htype _
  have hlength : (codec.encode type value ++ rest).length - (value ++ rest).length + value.length =
      (codec.encode type value).length := by
    simp only [TlvCodec.encode, List.length_append]
    omega
  have hguard : value.length ≤ (value ++ rest).length := by
    rw [List.length_append]
    exact Nat.le_add_right _ _
  rw [fromBuffer, hread]
  simp only [Option.bind_eq_bind, Option.bind_some, readVarNumber_varNumber hvalue, guard, if_pos hguard,
    Option.pure_def, hlength, List.take_left]
  rfl

theorem encode_length_pos (type : Nat) (value : List UInt8) : 0 < (codec.encode type value).length := by
  have htype := varNumber_length type
  rw [TlvCodec.encode, List.length_append, List.length_append]
  change 0 < (varNumber type).length + _ + _
  split_ifs at htype <;> omega

theorem elements_cons (n : Nat) (octet : UInt8) (octets : List UInt8) : elements (n + 1) (octet :: octets) =
    (fromBuffer (octet :: octets)).bind fun element =>
      (elements n ((octet :: octets).drop element.wire.length)).bind fun rest => some (element :: rest) := rfl

theorem elements_encode (encoded : List (Nat × List UInt8))
    (h : ∀ e ∈ encoded, e.1 < 2 ^ 32 ∧ e.2.length < 2 ^ 64) (n : Nat)
    (hn : (encoded.flatMap fun e => codec.encode e.1 e.2).length ≤ n) :
    elements n (encoded.flatMap fun e => codec.encode e.1 e.2) =
      some (encoded.map fun e => codec.block e.1 e.2) := by
  induction encoded generalizing n with
  | nil => cases n <;> rfl
  | cons e encoded ih =>
      obtain ⟨htype, hvalue⟩ := h e List.mem_cons_self
      have hpos := encode_length_pos e.1 e.2
      rw [List.flatMap_cons, List.length_append] at hn
      cases n with
      | zero => omega
      | succ n =>
          have hrest := ih (fun e he => h e (List.mem_cons_of_mem _ he)) n (by omega)
          have hread := fromBuffer_encode (show e.1 < 2 ^ 64 by omega) hvalue
            (encoded.flatMap fun e => codec.encode e.1 e.2)
          rw [List.flatMap_cons, List.map_cons]
          generalize hocts : codec.encode e.1 e.2 ++ encoded.flatMap (fun e => codec.encode e.1 e.2) = octets at hread ⊢
          cases octets with
          | nil =>
              rw [List.append_eq_nil_iff] at hocts
              rw [hocts.1] at hpos
              cases hpos
          | cons octet octets =>
              have hdrop : (octet :: octets).drop (codec.block e.1 e.2).wire.length =
                  encoded.flatMap fun e => codec.encode e.1 e.2 := by
                rw [← hocts]
                exact List.drop_left
              rw [elements_cons, hread, Option.bind_some, hdrop, hrest]
              rfl

theorem codec_lawful : codec.Lawful where
  varNumber_mono m n h := by
    change (varNumber m).length ≤ (varNumber n).length
    rw [varNumber_length, varNumber_length]
    split_ifs <;> omega
  nonNegativeInteger_mono m n h := by
    change (nonNegativeInteger m).length ≤ (nonNegativeInteger n).length
    rw [nonNegativeInteger_length, nonNegativeInteger_length]
    split_ifs <;> omega
  nonNegativeInteger_length n := by
    change (nonNegativeInteger n).length ≤ 8
    rw [nonNegativeInteger_length]
    split_ifs <;> omega
  readNonNegativeInteger_eq n h := by
    change readNonNegativeInteger (nonNegativeInteger n) = some n
    have hlength := nonNegativeInteger_length n
    have hmem : (nonNegativeInteger n).length ∈ [1, 2, 4, 8] := by
      rw [hlength]
      split_ifs <;> decide
    rw [readNonNegativeInteger, if_pos hmem, nonNegativeInteger]
    split_ifs <;> rw [ofBigEndian_bigEndian (by omega)]
  fromBuffer_eq type value rest htype hvalue := fromBuffer_encode (by omega) hvalue rest
  fromBuffer_nil := rfl
  parse_eq encoded h := elements_encode encoded h _ le_rfl
  blockFromValue_eq _ := rfl

theorem readVarNumber_some {octets rest : List UInt8} {n : Nat} (h : readVarNumber octets = some (n, rest)) :
    ∃ first, octets = first ++ rest ∧ ∀ rest', readVarNumber (first ++ rest') = some (n, rest') := by
  cases octets with
  | nil => cases h
  | cons first octets =>
      rw [readVarNumber] at h
      split at h
      · rename_i hsmall
        cases h
        exact ⟨[first], rfl, fun rest' => by rw [List.singleton_append, readVarNumber, if_pos hsmall]⟩
      · rename_i hlarge
        dsimp only at h
        generalize hwidth : (if first = 253 then 2 else if first = 254 then 4 else 8) = width at h
        split at h
        · cases h
        · rename_i hlength
          cases h
          refine ⟨first :: octets.take width, ?_, fun rest' => ?_⟩
          · rw [List.cons_append, List.take_append_drop]
          · have htake : (octets.take width).length = width := by
              rw [List.length_take]
              omega
            have hroom : ¬ (octets.take width ++ rest').length < width := by
              rw [List.length_append, htake]
              omega
            rw [List.cons_append, readVarNumber, if_neg hlarge, hwidth]
            dsimp only
            rw [if_neg hroom, List.take_left' htake, List.drop_left' htake]

/-- What is read does not depend on what follows the element. -/
theorem fromBuffer_some {octets : List UInt8} {element : Block} (h : fromBuffer octets = some element) :
    ∃ rest, octets = element.wire ++ rest ∧ ∀ rest', fromBuffer (element.wire ++ rest') = some element := by
  obtain ⟨⟨type, afterType⟩, htype, h⟩ := Option.bind_eq_some_iff.mp h
  obtain ⟨⟨length, afterLength⟩, hlength, h⟩ := Option.bind_eq_some_iff.mp h
  obtain ⟨_, hguard, h⟩ := Option.bind_eq_some_iff.mp h
  have hle : length ≤ afterLength.length := (Option.guard_eq_some' _).mp hguard
  obtain ⟨first, rfl, hfirst⟩ := readVarNumber_some htype
  obtain ⟨second, rfl, hsecond⟩ := readVarNumber_some hlength
  have hvalue : (afterLength.take length).length = length := List.length_take_of_le hle
  have hsize : (first ++ (second ++ afterLength)).length - afterLength.length + length =
      (first ++ (second ++ afterLength.take length)).length := by
    simp only [List.length_append, hvalue]
    omega
  have hsplit : first ++ (second ++ afterLength) =
      first ++ (second ++ afterLength.take length) ++ afterLength.drop length := by
    rw [List.append_assoc, List.append_assoc, List.take_append_drop]
  have helement : element =
      ⟨type, afterLength.take length, first ++ (second ++ afterLength.take length)⟩ := by
    cases h
    rw [hsize]
    congr 1
    rw [hsplit, List.take_left]
  subst helement
  refine ⟨afterLength.drop length, hsplit, fun rest' => ?_⟩
  have hguard' : length ≤ (afterLength.take length ++ rest').length := by
    rw [List.length_append, hvalue]
    exact Nat.le_add_right _ _
  have hsize' : (first ++ (second ++ (afterLength.take length ++ rest'))).length -
      (afterLength.take length ++ rest').length + length =
        (first ++ (second ++ afterLength.take length)).length := by
    simp only [List.length_append, hvalue]
    omega
  have hwhole : first ++ (second ++ (afterLength.take length ++ rest')) =
      first ++ (second ++ afterLength.take length) ++ rest' := by
    rw [List.append_assoc, List.append_assoc]
  dsimp only
  rw [← hwhole, fromBuffer, hfirst]
  simp only [Option.bind_eq_bind, Option.bind_some, hsecond, guard, if_pos hguard', Option.pure_def, hsize']
  rw [List.take_left' hvalue, hwhole, List.take_left]

theorem readsElements : ReadsElements fromBuffer where
  nil := rfl
  iff octets element := by
    constructor
    · intro h
      obtain ⟨rest, hoctets, hread⟩ := fromBuffer_some h
      have hwire := hread []
      rw [List.append_nil] at hwire
      exact ⟨hwire, rest, hoctets.symm⟩
    · intro h
      obtain ⟨rest, hoctets⟩ := h.2
      obtain ⟨-, -, hread⟩ := fromBuffer_some h.1
      rw [← hoctets]
      exact hread rest

end Tlv
end NfdPitless
