import NfdPitless.OctetBits
import Mathlib.Data.List.TakeWhile

/-! Ranges of addresses (`core/network.cpp`): what is read from `address/mask`, and which addresses a range contains. -/

namespace NfdPitless

/-- An address; one of IPv6 has a scope, which is zero where there is none. -/
inductive Address where
  | v4 (bytes : Vector UInt8 4)
  | v6 (bytes : Vector UInt8 16) (scopeId : Nat)
  deriving DecidableEq

namespace Address

def octets : Address → List UInt8
  | v4 bytes => bytes.toList
  | v6 bytes _ => bytes.toList

def width : Address → Nat
  | v4 _ => 32
  | v6 _ _ => 128

/-- An address of IPv4 comes before all of IPv6, and those of one family are in the order of the octets, then of the
scopes. -/
def less : Address → Address → Bool
  | v4 a, v4 b => Octets.less a.toList b.toList
  | v4 _, v6 _ _ => true
  | v6 _ _, v4 _ => false
  | v6 a scopeId, v6 b scopeId' => Octets.less a.toList b.toList || (a == b && decide (scopeId < scopeId'))

/-- The addresses are of one family and have the same first bits. -/
def SameFirst (m : Nat) (a b : Address) : Prop :=
  a.width = b.width ∧ ∀ i < m, Octets.bit a.octets i = Octets.bit b.octets i

/-- The last address that has the first bits of another, with a scope. -/
def ScopedLast (m : Nat) (a : Address) : Address → Prop
  | v4 _ => False
  | v6 bytes scopeId => scopeId ≠ 0 ∧ SameFirst m a (v6 bytes scopeId) ∧ ∀ i < 128, m ≤ i →
      Octets.bit bytes.toList i = true

theorem ScopedLast.sameFirst {m : Nat} {a b : Address} (h : ScopedLast m a b) : SameFirst m a b := by
  cases b with
  | v4 bytes => exact absurd h not_false
  | v6 bytes scopeId => exact h.2.1

end Address

structure Network where
  minAddress : Address
  maxAddress : Address

/-- Why nothing is read: a function threw, or an access was out of range. -/
inductive NetworkFault where
  | thrown
  | outOfRange
  deriving DecidableEq

/-- The parts of Boost that reading a network uses; what throws is `none`. -/
structure Boost where
  fromString : List Char → Option Address
  lexicalCast : List Char → Option Nat

namespace Network

/-- `a <= b` is `!(b < a)`. -/
def doesContain (network : Network) (address : Address) : Bool :=
  !address.less network.minAddress && !network.maxAddress.less address

def setMaskBit {n : Nat} (maskBytes : Vector UInt8 n) (i : Nat) : Option (Vector UInt8 n) :=
  let byteId := i / 8
  let bitIndex := 7 - i % 8
  if h : byteId < n then some (maskBytes.set byteId (maskBytes[byteId] ||| 1 <<< UInt8.ofNat bitIndex) h) else none

/-- The loop over the bits of the mask; `none` when one is out of range. -/
def maskBytes (n mask : Nat) : Option (Vector UInt8 n) := (List.range mask).foldlM setMaskBit (Vector.replicate n 0)

def minMax {n : Nat} (addressBytes : Vector UInt8 n) (mask : Nat) : Option (Vector UInt8 n × Vector UInt8 n) :=
  (maskBytes n mask).map fun maskBytes =>
    (Vector.zipWith (fun a m => a &&& m) addressBytes maskBytes,
      Vector.zipWith (fun a m => a ||| ~~~m) addressBytes maskBytes)

/-- The range of a mask; the scope of the address is not kept. -/
def ofMask (address : Address) (mask : Nat) : Option Network :=
  match address with
  | .v4 bytes => (minMax bytes mask).map fun (min, max) => ⟨.v4 min, .v4 max⟩
  | .v6 bytes _ => (minMax bytes mask).map fun (min, max) => ⟨.v6 min 0, .v6 max 0⟩

def isSpace (c : Char) : Bool := c == ' ' || (9 ≤ c.toNat && c.toNat ≤ 13)

/-- `operator>>`, on the characters that are left in the stream. -/
def read (boost : Boost) (input : List Char) : Except NetworkFault Network :=
  let networkStr := (input.dropWhile isSpace).takeWhile fun c => !isSpace c
  match networkStr.dropWhile fun c => c != '/' with
  | [] =>
      match boost.fromString networkStr with
      | some address => .ok ⟨address, address⟩
      | none => .error .thrown
  | _ :: maskStr =>
      match boost.fromString (networkStr.takeWhile fun c => c != '/') with
      | none => .error .thrown
      | some address =>
          match boost.lexicalCast maskStr with
          | none => .error .thrown
          | some mask =>
              match ofMask address mask with
              | some network => .ok network
              | none => .error .outOfRange

variable {n mask m : Nat} {a b : Address}

/-- The octets of a mask. -/
def maskOf (n mask : Nat) : Vector UInt8 n := Vector.ofFn fun j => Octets.topBits (mask - 8 * j)

theorem topBits_succ (k : Nat) : Octets.topBits (k % 8) ||| 1 <<< UInt8.ofNat (7 - k % 8) =
    Octets.topBits (k % 8 + 1) := by
  have hall : ∀ r < 8, Octets.topBits r ||| 1 <<< UInt8.ofNat (7 - r) = Octets.topBits (r + 1) := by decide +kernel
  exact hall _ (Nat.mod_lt k (by decide))

/-- One more bit. -/
theorem setMaskBit_maskOf (n k : Nat) :
    setMaskBit (maskOf n k) k = if k < 8 * n then some (maskOf n (k + 1)) else none := by
  unfold setMaskBit
  dsimp only
  by_cases hk : k < 8 * n
  · have hbyte : k / 8 < n := by omega
    rw [dif_pos hbyte, if_pos hk, Option.some_inj]
    refine Vector.ext fun j hj => ?_
    rw [Vector.getElem_set]
    split
    · rename_i heq
      subst heq
      rw [maskOf, maskOf, Vector.getElem_ofFn, Vector.getElem_ofFn, show k - 8 * (k / 8) = k % 8 by omega,
        show k + 1 - 8 * (k / 8) = k % 8 + 1 by omega, topBits_succ]
    · rename_i hne
      rw [maskOf, maskOf, Vector.getElem_ofFn, Vector.getElem_ofFn]
      dsimp only
      rcases Nat.lt_or_gt_of_ne hne with hlt | hlt
      · rw [show k - 8 * j = 0 by omega, show k + 1 - 8 * j = 0 by omega]
      · rw [Octets.topBits_of_le (by omega), Octets.topBits_of_le (by omega)]
  · rw [dif_neg (by omega), if_neg hk]

/-- The mask is built when it is not longer than the address. -/
theorem maskBytes_eq (n mask : Nat) : maskBytes n mask = if mask ≤ 8 * n then some (maskOf n mask) else none := by
  induction mask with
  | zero =>
      rw [if_pos (Nat.zero_le _)]
      refine congrArg some (Vector.ext fun j hj => ?_)
      rw [Vector.getElem_replicate, maskOf, Vector.getElem_ofFn, Nat.zero_sub]
      rfl
  | succ mask ih =>
      rw [maskBytes] at ih
      rw [maskBytes, List.range_succ, List.foldlM_append, ih]
      by_cases hle : mask ≤ 8 * n
      · rw [if_pos hle]
        change setMaskBit (maskOf n mask) mask >>= pure = _
        rw [bind_pure, setMaskBit_maskOf]
        rfl
      · rw [if_neg hle, if_neg (by omega)]
        rfl

theorem toList_zipWith_maskOf (f : UInt8 → UInt8 → UInt8) (bytes : Vector UInt8 n) (mask j : Nat) :
    (Vector.zipWith f bytes (maskOf n mask)).toList[j]? =
      (bytes.toList[j]?).map fun a => f a (Octets.topBits (mask - 8 * j)) := by
  by_cases hj : j < n
  · simp [maskOf, hj]
  · rw [List.getElem?_eq_none (by simpa using hj), List.getElem?_eq_none (by simpa using hj)]
    rfl

/-- The bounds are the octets with the last bits cleared, and with the last bits set. -/
theorem minMax_eq (bytes : Vector UInt8 n) (h : mask ≤ 8 * n) :
    ∃ min max, minMax bytes mask = some (min, max) ∧ min.toList = Octets.low mask bytes.toList ∧
      max.toList = Octets.high mask bytes.toList := by
  refine ⟨_, _, by rw [minMax, maskBytes_eq, if_pos h]; rfl, List.ext_getElem? fun j => ?_,
    List.ext_getElem? fun j => ?_⟩
  · rw [toList_zipWith_maskOf, Octets.getElem?_low]
  · rw [toList_zipWith_maskOf, Octets.getElem?_high]

theorem minMax_eq_none (bytes : Vector UInt8 n) (h : ¬ mask ≤ 8 * n) : minMax bytes mask = none := by
  rw [minMax, maskBytes_eq, if_neg h]
  rfl

/-- A mask that is not longer than the address gives a range, and a longer one none. -/
theorem ofMask_isSome_iff (a : Address) (mask : Nat) : (ofMask a mask).isSome ↔ mask ≤ a.width := by
  cases a with
  | v4 bytes =>
      by_cases h : mask ≤ 8 * 4
      · obtain ⟨min, max, heq, -⟩ := minMax_eq bytes h
        rw [ofMask, heq]
        exact iff_of_true rfl h
      · rw [ofMask, minMax_eq_none bytes h]
        exact iff_of_false Bool.false_ne_true h
  | v6 bytes scopeId =>
      by_cases h : mask ≤ 8 * 16
      · obtain ⟨min, max, heq, -⟩ := minMax_eq bytes h
        rw [ofMask, heq]
        exact iff_of_true rfl h
      · rw [ofMask, minMax_eq_none bytes h]
        exact iff_of_false Bool.false_ne_true h

/-- A range contains the addresses with the first bits of the given one, but not the last of them if it has a scope. -/
theorem doesContain_iff {network : Network} (h : ofMask a mask = some network) (b : Address) :
    network.doesContain b = true ↔ a.SameFirst mask b ∧ ¬ a.ScopedLast mask b := by
  have hle := (ofMask_isSome_iff a mask).mp (h ▸ rfl)
  cases a with
  | v4 bytes =>
      obtain ⟨min, max, heq, hmin, hmax⟩ := minMax_eq bytes hle
      rw [ofMask, heq] at h
      cases h
      cases b with
      | v4 bytes' =>
          have hlength : bytes.toList.length = bytes'.toList.length := by simp
          have hbetween := Octets.between_iff hlength mask
          rw [doesContain, Bool.and_eq_true, Bool.not_eq_true', Bool.not_eq_true', Address.less, Address.less, hmin,
            hmax, hbetween]
          exact ⟨fun hsame => ⟨⟨rfl, hsame⟩, not_false⟩, fun hsame => hsame.1.2⟩
      | v6 bytes' scopeId' =>
          exact iff_of_false (by simp [doesContain, Address.less]) fun hsame =>
            absurd hsame.1.1 (by simp [Address.width])
  | v6 bytes scopeId =>
      obtain ⟨min, max, heq, hmin, hmax⟩ := minMax_eq bytes hle
      rw [ofMask, heq] at h
      cases h
      cases b with
      | v4 bytes' =>
          exact iff_of_false (by simp [doesContain, Address.less]) fun hsame =>
            absurd hsame.1.1 (by simp [Address.width])
      | v6 bytes' scopeId' =>
          have hlength : bytes.toList.length = bytes'.toList.length := by simp
          have hbetween := Octets.between_iff hlength mask
          have hlast := Octets.eq_high_iff hlength mask
          rw [Vector.length_toList] at hlast
          have hmaxEq : max = bytes' ↔ Octets.high mask bytes.toList =
            bytes'.toList := by rw [← hmax, Vector.toList_inj]
          have hscope : (bytes' == min && decide (scopeId' < 0)) = false := by simp
          have htop : (max == bytes' && decide (0 < scopeId')) = false ↔ ¬ (max = bytes' ∧ scopeId' ≠ 0) := by
            simp [Nat.pos_iff_ne_zero]
          rw [doesContain, Bool.and_eq_true, Bool.not_eq_true', Bool.not_eq_true', Address.less, Address.less,
            Bool.or_eq_false_iff, Bool.or_eq_false_iff, htop, hmin, hmax, and_iff_left hscope, ← and_assoc, hbetween]
          refine and_congr ⟨fun hsame => ⟨rfl, hsame⟩, And.right⟩ (not_congr ?_)
          rw [hmaxEq, hlast]
          constructor
          · rintro ⟨⟨hfirst, hrest⟩, hscoped⟩
            exact ⟨hscoped, ⟨rfl, fun i hi => hfirst i hi (lt_of_lt_of_le hi hle)⟩, hrest⟩
          · rintro ⟨hscoped, ⟨-, hfirst⟩, hrest⟩
            exact ⟨⟨fun i hi _ => hfirst i hi, hrest⟩, hscoped⟩

/-! ### Reading -/

/-- The number that decimal digits stand for. -/
def decimal (digits : List Char) : Nat := digits.foldl (fun n c => 10 * n + (c.toNat - 48)) 0

/-- The text has neither a slash nor white space. -/
def IsPlain (text : List Char) : Prop := ∀ c ∈ text, c ≠ '/' ∧ isSpace c = false

/-- What is relied on: digits are cast to the number that they stand for unless it is too large for a `size_t`. -/
def CastsDigits (boost : Boost) : Prop :=
  ∀ digits, digits ≠ [] → (∀ c ∈ digits, c.isDigit = true) →
    boost.lexicalCast digits = if decimal digits < 2 ^ 64 then some (decimal digits) else none

/-- Reading reports an error, or gives a range that contains an address just when the first bits are those given. -/
def MeetsMask (boost : Boost) (input : List Char) (address : Address) (mask : Nat) (b : Address) : Prop :=
  match read boost input with
  | .error .thrown => True
  | .error .outOfRange => False
  | .ok network => mask ≤ address.width ∧ (network.doesContain b = true ↔ address.SameFirst mask b)

theorem isSpace_of_isDigit {c : Char} (h : c.isDigit = true) : isSpace c = false := by
  have hspace : c ≠ ' ' := fun heq => by
    rw [heq] at h
    exact absurd h (by decide)
  have hlow : 48 ≤ c.toNat := by
    rw [Char.isDigit, Bool.and_eq_true, decide_eq_true_iff] at h
    exact h.1
  rw [isSpace, beq_eq_false_iff_ne.mpr hspace, Bool.false_or, Bool.and_eq_false_iff, decide_eq_false_iff_not,
    decide_eq_false_iff_not]
  omega

/-- What is read from an address and digits. -/
theorem read_eq {boost : Boost} (h : CastsDigits boost) {text digits : List Char} {address : Address}
    (haddress : boost.fromString text = some address) (hplain : IsPlain text) (hne : digits ≠ [])
    (hdigits : ∀ c ∈ digits, c.isDigit = true) :
    read boost (text ++ '/' :: digits) =
      if decimal digits < 2 ^ 64 then
        (ofMask address (decimal digits)).elim (.error .outOfRange) .ok
      else .error .thrown := by
  have hword : ∀ c ∈ text ++ '/' :: digits, isSpace c = false := by
    intro c hc
    rcases List.mem_append.mp hc with hc | hc
    · exact (hplain c hc).2
    · rcases List.mem_cons.mp hc with rfl | hc
      · decide
      · exact isSpace_of_isDigit (hdigits c hc)
  have hslash : ∀ c ∈ text, (c != '/') = true := fun c hc => bne_iff_ne.mpr (hplain c hc).1
  have hnetworkStr : ((text ++ '/' :: digits).dropWhile isSpace).takeWhile (fun c => !isSpace c) =
      text ++ '/' :: digits := by
    have hdrop : (text ++ '/' :: digits).dropWhile isSpace = text ++ '/' :: digits :=
      List.dropWhile_eq_self_iff.mpr fun hpos hfirst => by
        rw [hword _ (List.getElem_mem hpos)] at hfirst
        cases hfirst
    rw [hdrop, List.takeWhile_eq_self_iff]
    exact fun c hc => by rw [hword c hc, Bool.not_false]
  have hdrop : (text ++ '/' :: digits).dropWhile (fun c => c != '/') = '/' :: digits := by
    rw [List.dropWhile_append_of_pos hslash, List.dropWhile_cons_of_neg (by decide)]
  have htake : (text ++ '/' :: digits).takeWhile (fun c => c != '/') = text := by
    rw [List.takeWhile_append_of_pos hslash, List.takeWhile_cons_of_neg (by decide), List.append_nil]
  unfold read
  dsimp only
  rw [hnetworkStr, hdrop]
  dsimp only
  rw [htake, haddress]
  dsimp only
  rw [h digits hne hdigits]
  by_cases hsize : decimal digits < 2 ^ 64
  · rw [if_pos hsize, if_pos hsize]
    dsimp only
    cases ofMask address (decimal digits) <;> rfl
  · rw [if_neg hsize, if_neg hsize]

/-- A mask is read as it should be exactly when it is no longer than the address, or too long for a `size_t`, and the
address that is asked for is not the last of the range with a scope. -/
theorem read_meetsMask_iff {boost : Boost} (h : CastsDigits boost) {text digits : List Char} {address : Address}
    (haddress : boost.fromString text = some address) (hplain : IsPlain text) (hne : digits ≠ [])
    (hdigits : ∀ c ∈ digits, c.isDigit = true) (b : Address) :
    MeetsMask boost (text ++ '/' :: digits) address (decimal digits) b ↔
      2 ^ 64 ≤ decimal digits ∨
        decimal digits ≤ address.width ∧ ¬ address.ScopedLast (decimal digits) b := by
  rw [MeetsMask, read_eq h haddress hplain hne hdigits]
  by_cases hsize : decimal digits < 2 ^ 64
  · rw [if_pos hsize]
    by_cases hle : decimal digits ≤ address.width
    · obtain ⟨network, hnetwork⟩ := Option.isSome_iff_exists.mp ((ofMask_isSome_iff address _).mpr hle)
      rw [hnetwork, Option.elim_some]
      dsimp only
      rw [and_iff_right hle, and_iff_right hle, or_iff_right (by omega), doesContain_iff hnetwork b]
      exact ⟨fun hiff hlast => (hiff.mpr hlast.sameFirst).2 hlast, fun hnot => and_iff_left hnot⟩
    · have hnone : ofMask address (decimal digits) = none :=
        Option.not_isSome_iff_eq_none.mp fun hsome => hle ((ofMask_isSome_iff address _).mp hsome)
      rw [hnone]
      exact iff_of_false id fun hmeets => hmeets.elim (by omega) fun hmeets => hle hmeets.1
  · rw [if_neg hsize]
    exact iff_of_true trivial (Or.inl (by omega))

/-- A library that knows the address `10.0.0.0` only, and casts digits. -/
def sampleBoost : Boost where
  fromString s := if s = "10.0.0.0".toList then some (.v4 #v[10, 0, 0, 0]) else none
  lexicalCast s := if s ≠ [] ∧ s.all Char.isDigit ∧ decimal s < 2 ^ 64 then some (decimal s) else none

theorem sampleBoost_castsDigits : CastsDigits sampleBoost := by
  intro digits hne hdigits
  rw [sampleBoost]
  exact if_congr ((and_iff_right hne).trans (and_iff_right (List.all_eq_true.mpr hdigits))) rfl rfl

/-- `10.1.2.3` is in `10.0.0.0/8`. -/
theorem read_meetsMask_octet :
    MeetsMask sampleBoost "10.0.0.0/8".toList (.v4 #v[10, 0, 0, 0]) 8 (.v4 #v[10, 1, 2, 3]) := by
  have haddress : sampleBoost.fromString "10.0.0.0".toList = some (.v4 #v[10, 0, 0, 0]) := by decide
  have hall : ("10.0.0.0".toList.all fun c => c != '/' && !isSpace c) = true := by decide
  have hplain : IsPlain "10.0.0.0".toList := by
    intro c hc
    simpa using List.all_eq_true.mp hall c hc
  have hdigits : ∀ c ∈ "8".toList, c.isDigit = true := List.all_eq_true.mp (by decide)
  exact (read_meetsMask_iff sampleBoost_castsDigits haddress hplain (by decide) hdigits (.v4 #v[10, 1, 2, 3])).mpr
    (Or.inr ⟨by decide, not_false⟩)

/-- Reading `10.0.0.0/33` sets a bit of a fifth octet. -/
theorem read_out_of_range :
    ¬ ∀ b : Address, MeetsMask sampleBoost "10.0.0.0/33".toList (.v4 #v[10, 0, 0, 0]) 33 b := by
  have hread : read sampleBoost "10.0.0.0/33".toList = .error .outOfRange := by rfl
  intro h
  have hmeets := h (.v4 #v[10, 0, 0, 0])
  rw [MeetsMask, hread] at hmeets
  exact hmeets

end Network

end NfdPitless
