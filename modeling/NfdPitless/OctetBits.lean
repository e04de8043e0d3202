import Mathlib.Data.List.Basic
import Mathlib.Data.UInt
import Mathlib.Data.Nat.Bitwise

/-! The bits of a list of octets, the most significant of the first one first, and the order in which `memcmp` has such
lists. What lies between a list with its last bits cleared and with its last bits set has the same first bits. -/

namespace NfdPitless.Octets

variable {a b : UInt8} {as bs : List UInt8} {i k m : Nat}

/-- A bit of an octet, the most significant is 0. -/
def octetBit (a : UInt8) (i : Nat) : Bool := a.toNat.testBit (7 - i)

def bit (octets : List UInt8) (i : Nat) : Bool := octetBit (octets.getD (i / 8) 0) (i % 8)

/-- The order of `memcmp`, of lists that are equally long. -/
def less : List UInt8 → List UInt8 → Bool
  | a :: as, b :: bs => decide (a < b) || (a == b && less as bs)
  | _, _ => false

/-- The octet whose first bits are set. -/
def topBits (k : Nat) : UInt8 := UInt8.ofNat (256 - 2 ^ (8 - k))

/-- The octets with all bits cleared but the first. -/
def low : Nat → List UInt8 → List UInt8
  | _, [] => []
  | m, a :: as => (a &&& topBits m) :: low (m - 8) as

/-- The octets with all bits set but the first. -/
def high : Nat → List UInt8 → List UInt8
  | _, [] => []
  | m, a :: as => (a ||| ~~~topBits m) :: high (m - 8) as

theorem topBits_of_le (h : 8 ≤ k) : topBits k = 255 := by
  rw [topBits, Nat.sub_eq_zero_of_le h]
  rfl

theorem toNat_and_topBits (a : UInt8) (hk : k ≤ 8) : (a &&& topBits k).toNat = a.toNat / 2 ^ (8 - k) * 2 ^ (8 - k) := by
  have hall : ∀ n < 256, ∀ k < 9, (UInt8.ofNat n &&& topBits k).toNat = n / 2 ^ (8 - k) * 2 ^ (8 - k) := by
    decide +kernel
  have ha := hall a.toNat a.toNat_lt k (Nat.lt_succ_of_le hk)
  rwa [UInt8.ofNat_toNat] at ha

theorem toNat_or_topBits (a : UInt8) (hk : k ≤ 8) :
    (a ||| ~~~topBits k).toNat = a.toNat / 2 ^ (8 - k) * 2 ^ (8 - k) + 2 ^ (8 - k) - 1 := by
  have hall : ∀ n < 256, ∀ k < 9,
      (UInt8.ofNat n ||| ~~~topBits k).toNat = n / 2 ^ (8 - k) * 2 ^ (8 - k) + 2 ^ (8 - k) - 1 := by decide +kernel
  have ha := hall a.toNat a.toNat_lt k (Nat.lt_succ_of_le hk)
  rwa [UInt8.ofNat_toNat] at ha

/-- The first bits are those of the quotient. -/
theorem div_eq_iff_octetBit (hk : k ≤ 8) :
    a.toNat / 2 ^ (8 - k) = b.toNat / 2 ^ (8 - k) ↔ ∀ i < k, octetBit a i = octetBit b i := by
  constructor
  · intro h i hi
    have hbit := congrArg (fun n => n.testBit (k - 1 - i)) h
    simp only [Nat.testBit_div_two_pow] at hbit
    rwa [show k - 1 - i + (8 - k) = 7 - i by omega] at hbit
  · intro h
    refine Nat.eq_of_testBit_eq fun t => ?_
    rw [Nat.testBit_div_two_pow, Nat.testBit_div_two_pow]
    by_cases ht : t < k
    · have hbit := h (k - 1 - t) (by omega)
      rwa [octetBit, octetBit, show 7 - (k - 1 - t) = t + (8 - k) by omega] at hbit
    · have hbig : ∀ c : UInt8, c.toNat.testBit (t + (8 - k)) = false := fun c =>
        Nat.testBit_lt_two_pow (c.toNat_lt.trans_le (Nat.pow_le_pow_right (by decide) (by omega)))
      rw [hbig a, hbig b]

/-- What lies between an octet with its last bits cleared and with its last bits set. -/
theorem octet_between_iff (hk : k ≤ 8) :
    (a &&& topBits k ≤ b ∧ b ≤ a ||| ~~~topBits k) ↔ ∀ i < k, octetBit a i = octetBit b i := by
  rw [UInt8.le_iff_toNat_le, UInt8.le_iff_toNat_le, toNat_and_topBits a hk, toNat_or_topBits a hk,
    ← div_eq_iff_octetBit hk, eq_comm, Nat.div_eq_iff (Nat.two_pow_pos _)]

theorem octet_eq_iff : a = b ↔ ∀ i < 8, octetBit a i = octetBit b i := by
  rw [← div_eq_iff_octetBit le_rfl, Nat.sub_self, pow_zero, Nat.div_one, Nat.div_one, UInt8.toNat_inj]

theorem and_topBits_of_le (a : UInt8) (h : 8 ≤ k) : a &&& topBits k = a := by
  rw [topBits_of_le h, ← topBits_of_le le_rfl]
  apply UInt8.toNat_inj.mp
  rw [toNat_and_topBits a le_rfl, Nat.sub_self, pow_zero, Nat.div_one, Nat.mul_one]

theorem or_topBits_of_le (a : UInt8) (h : 8 ≤ k) : a ||| ~~~topBits k = a := by
  rw [topBits_of_le h, ← topBits_of_le le_rfl]
  apply UInt8.toNat_inj.mp
  rw [toNat_or_topBits a le_rfl, Nat.sub_self, pow_zero, Nat.div_one, Nat.mul_one, Nat.add_sub_cancel]

theorem octetBit_or_topBits (a : UInt8) (k : Nat) (hi : i < 8) :
    octetBit (a ||| ~~~topBits k) i = if i < k then octetBit a i else true := by
  by_cases hk : k ≤ 8
  · have hlow : 2 ^ (8 - k) - 1 < 2 ^ (8 - k) := Nat.sub_lt (Nat.two_pow_pos _) Nat.one_pos
    rw [octetBit, toNat_or_topBits a hk, Nat.add_sub_assoc (Nat.two_pow_pos _), Nat.mul_comm,
      Nat.testBit_two_pow_mul_add _ hlow, octetBit]
    split
    · rename_i hlast
      rw [Nat.testBit_two_pow_sub_one, decide_eq_true hlast, if_neg (by omega)]
    · rename_i hfirst
      rw [Nat.testBit_div_two_pow, Nat.sub_add_cancel (by omega), if_pos (by omega)]
  · rw [or_topBits_of_le a (by omega), if_pos (by omega)]

theorem bit_cons (a : UInt8) (as : List UInt8) (i : Nat) :
    bit (a :: as) i = if i < 8 then octetBit a i else bit as (i - 8) := by
  rw [bit, bit]
  split
  · rename_i hi
    rw [Nat.div_eq_of_lt hi, Nat.mod_eq_of_lt hi, List.getD_cons_zero]
  · rename_i hi
    have hdiv : i / 8 = (i - 8) / 8 + 1 := by omega
    have hmod : i % 8 = (i - 8) % 8 := by omega
    rw [hdiv, hmod, List.getD_cons_succ]

/-- The first bits are those of the first octet and those of the rest. -/
theorem sameFirst_cons : (∀ i < m, bit (a :: as) i = bit (b :: bs) i) ↔
    (∀ i < min m 8, octetBit a i = octetBit b i) ∧ ∀ i < m - 8, bit as i = bit bs i := by
  constructor
  · refine fun h => ⟨fun i hi => ?_, fun i hi => ?_⟩
    · have hbit := h i (by omega)
      rwa [bit_cons, bit_cons, if_pos (by omega), if_pos (by omega)] at hbit
    · have hbit := h (i + 8) (by omega)
      rwa [bit_cons, bit_cons, if_neg (by omega), if_neg (by omega), Nat.add_sub_cancel] at hbit
  · rintro ⟨hfirst, hrest⟩ i hi
    rw [bit_cons, bit_cons]
    split
    · exact hfirst i (by omega)
    · exact hrest (i - 8) (by omega)

theorem eq_iff_bit (h : as.length = bs.length) : as = bs ↔ ∀ i < 8 * as.length, bit as i = bit bs i := by
  induction as generalizing bs with
  | nil =>
      rw [List.eq_nil_of_length_eq_zero h.symm]
      exact iff_of_true rfl fun _ _ => rfl
  | cons a as ih =>
      cases bs with
      | nil => cases h
      | cons b bs =>
          have hlength : 8 * (a :: as).length = 8 * as.length + 8 := by rw [List.length_cons, Nat.mul_succ]
          rw [hlength, sameFirst_cons, Nat.min_eq_right (Nat.le_add_left 8 _), Nat.add_sub_cancel, ← octet_eq_iff,
            ← ih (Nat.succ.inj h), List.cons_eq_cons]

theorem less_low_zero (as bs : List UInt8) : less bs (low 0 as) = false := by
  induction bs generalizing as with
  | nil => rfl
  | cons b bs ih =>
      cases as with
      | nil => rfl
      | cons a as => simp [low, less, topBits, ih]

theorem less_high_zero (as bs : List UInt8) : less (high 0 as) bs = false := by
  induction bs generalizing as with
  | nil => cases as <;> rfl
  | cons b bs ih =>
      cases as with
      | nil => rfl
      | cons a as =>
          have htop : a ||| ~~~topBits 0 = 255 := UInt8.toNat_inj.mp (by
            rw [toNat_or_topBits a (Nat.zero_le 8), Nat.div_eq_of_lt a.toNat_lt]
            rfl)
          have hle : ¬ (255 : UInt8) < b := fun hlt => by
            have hb := b.toNat_lt
            rw [UInt8.lt_iff_toNat_lt] at hlt
            change 255 < b.toNat at hlt
            omega
          rw [high, htop, less, ih, decide_eq_false hle, Bool.and_false, Bool.or_false]

/-- What lies between a list with its last bits cleared and with its last bits set has the same first bits. -/
theorem between_iff (h : as.length = bs.length) (m : Nat) :
    (less bs (low m as) = false ∧ less (high m as) bs = false) ↔ ∀ i < m, bit as i = bit bs i := by
  induction as generalizing bs m with
  | nil =>
      rw [List.eq_nil_of_length_eq_zero h.symm]
      exact iff_of_true ⟨rfl, rfl⟩ fun _ _ => rfl
  | cons a as ih =>
      cases bs with
      | nil => cases h
      | cons b bs =>
          rw [sameFirst_cons]
          by_cases hm : 8 ≤ m
          · rw [Nat.min_eq_right hm, ← octet_eq_iff, ← ih (Nat.succ.inj h) (m - 8), low, high, and_topBits_of_le a hm,
              or_topBits_of_le a hm, less, less]
            by_cases heq : a = b
            · subst heq
              simp
            · refine iff_of_false (fun hnot => heq ?_) fun hboth => heq hboth.1
              simp only [Bool.or_eq_false_iff, decide_eq_false_iff_not, UInt8.not_lt] at hnot
              exact UInt8.le_antisymm hnot.1.1 hnot.2.1
          · have hzero : m - 8 = 0 := by omega
            rw [Nat.min_eq_left (by omega), ← octet_between_iff (by omega), low, high, hzero, less, less, less_low_zero,
              less_high_zero, Bool.and_false, Bool.and_false, Bool.or_false, Bool.or_false, decide_eq_false_iff_not,
              decide_eq_false_iff_not, UInt8.not_lt, UInt8.not_lt]
            exact (and_iff_left fun i hi => absurd hi (Nat.not_lt_zero i)).symm

theorem getElem?_low (m : Nat) (as : List UInt8) (j : Nat) :
    (low m as)[j]? = (as[j]?).map fun a => a &&& topBits (m - 8 * j) := by
  induction as generalizing m j with
  | nil => rfl
  | cons a as ih =>
      cases j with
      | zero => rfl
      | succ j => rw [low, List.getElem?_cons_succ, List.getElem?_cons_succ, ih, Nat.sub_sub, Nat.mul_succ,
          Nat.add_comm 8]

theorem getElem?_high (m : Nat) (as : List UInt8) (j : Nat) :
    (high m as)[j]? = (as[j]?).map fun a => a ||| ~~~topBits (m - 8 * j) := by
  induction as generalizing m j with
  | nil => rfl
  | cons a as ih =>
      cases j with
      | zero => rfl
      | succ j => rw [high, List.getElem?_cons_succ, List.getElem?_cons_succ, ih, Nat.sub_sub, Nat.mul_succ,
          Nat.add_comm 8]

theorem length_high (m : Nat) (as : List UInt8) : (high m as).length = as.length := by
  induction as generalizing m with
  | nil => rfl
  | cons a as ih => rw [high, List.length_cons, List.length_cons, ih]

theorem bit_high (m : Nat) (as : List UInt8) (hi : i < 8 * as.length) :
    bit (high m as) i = if i < m then bit as i else true := by
  induction as generalizing m i with
  | nil => cases hi
  | cons a as ih =>
      rw [high, bit_cons, bit_cons]
      by_cases hfirst : i < 8
      · rw [if_pos hfirst, if_pos hfirst, octetBit_or_topBits a m hfirst]
      · rw [List.length_cons] at hi
        rw [if_neg hfirst, if_neg hfirst, ih (m - 8) (by omega)]
        exact if_congr (by omega) rfl rfl

/-- The last list with some first bits has all other bits set. -/
theorem eq_high_iff (h : as.length = bs.length) (m : Nat) :
    high m as = bs ↔ (∀ i < m, i < 8 * as.length → bit as i = bit bs i) ∧ ∀ i < 8 * as.length, m ≤ i →
      bit bs i = true := by
  rw [eq_iff_bit (by rw [length_high, h]), length_high]
  constructor
  · refine fun heq => ⟨fun i him hi => ?_, fun i hi him => ?_⟩
    · rw [← heq i hi, bit_high m as hi, if_pos him]
    · rw [← heq i hi, bit_high m as hi, if_neg (by omega)]
  · rintro ⟨hfirst, hrest⟩ i hi
    rw [bit_high m as hi]
    split
    · exact hfirst i ‹_› hi
    · exact (hrest i hi (by omega)).symm

end NfdPitless.Octets
