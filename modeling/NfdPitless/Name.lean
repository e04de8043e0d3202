import Mathlib.Data.List.Lex
import Mathlib.Data.List.Infix
import Mathlib.Data.Prod.Lex
import Mathlib.Data.UInt
import Mathlib.Order.Basic

/-! Names as ndn-cxx has them: a list of components, each a generic component or an implicit
SHA-256 digest, in the canonical order (component by component, a proper prefix first; components by
type, then by length, then by octets). -/

namespace NfdPitless

/-- A name component: its TLV type (an implicit SHA-256 digest or a generic component) and its
octets. -/
structure Component where
  isImplicitSha256Digest : Bool
  value : List UInt8
  deriving DecidableEq

namespace Component

/-- The canonical order compares the TLV type (1 for a digest, 8 for a generic component), then the
length, then the octets. -/
def orderKey (c : Component) : ℕ ×ₗ ℕ ×ₗ List ℕ :=
  toLex (if c.isImplicitSha256Digest then 1 else 8, toLex (c.value.length, c.value.map UInt8.toNat))

theorem orderKey_injective : Function.Injective orderKey := by
  intro a b h
  obtain ⟨ta, va⟩ := a
  obtain ⟨tb, vb⟩ := b
  simp only [orderKey, toLex_inj, Prod.mk.injEq] at h
  obtain ⟨htype, _, hvalue⟩ := h
  have hv : va = vb := List.map_injective_iff.mpr (fun _ _ hxy => UInt8.toNat_inj.mp hxy) hvalue
  have ht : ta = tb := by
    cases ta <;> cases tb <;> simp at htype <;> rfl
  rw [hv, ht]

instance : LinearOrder Component := LinearOrder.lift' orderKey orderKey_injective

/-- A generic component of one octet. -/
def ofByte (b : UInt8) : Component := ⟨false, [b]⟩

end Component

/-- A name, components in order. -/
abbrev Name := List Component

namespace Name

instance : LawfulBEq Name := inferInstance

/-- `Name::getPrefix` with a non-negative length. -/
def getPrefix (n : Name) (nComponents : Nat) : Name := n.take nComponents

/-- `Name::isPrefixOf`; a name is a prefix of itself. -/
def isPrefixOf (p n : Name) : Bool := List.isPrefixOf p n

@[simp] theorem isPrefixOf_iff {p n : Name} : isPrefixOf p n = true ↔ p <+: n :=
  List.isPrefixOf_iff_prefix

theorem lt_of_prefix {n m : Name} (h : n <+: m) (hne : n ≠ m) : n < m := by
  obtain ⟨t, rfl⟩ := h
  cases t with
  | nil => simp at hne
  | cons a t =>
      induction n with
      | nil => exact List.nil_lt_cons a t
      | cons b n ih => exact List.cons_lt_cons_iff.mpr (Or.inr ⟨rfl, ih (by simp)⟩)

theorem le_of_prefix {n m : Name} (h : n <+: m) : n ≤ m := by
  by_cases heq : n = m
  · exact heq.le
  · exact le_of_lt <| lt_of_prefix h heq

theorem lt_of_longer {n m : Name} {c : Component} (h : n ++ [c] <+: m) : n < m := by
  refine lt_of_prefix ((List.prefix_append n [c]).trans h) ?_
  rintro rfl
  exact absurd h.length_le (by simp)

/-- The extensions of a name are contiguous in the order. -/
theorem prefix_of_between {n m q : Name} (h : n <+: m) (hlt : n < q) (hlt' : q < m) : n <+: q := by
  obtain ⟨t, rfl⟩ := h
  induction n generalizing q with
  | nil => exact List.nil_prefix
  | cons a n ih =>
      cases q with
      | nil => exact absurd hlt (List.not_lt_nil _)
      | cons b q =>
          rw [List.cons_append] at hlt'
          rcases List.cons_lt_cons_iff.mp hlt with h1 | ⟨rfl, h1⟩
          · rcases List.cons_lt_cons_iff.mp hlt' with h2 | ⟨rfl, -⟩
            · exact absurd h2 (lt_asymm h1)
            · exact absurd h1 (lt_irrefl _)
          · rcases List.cons_lt_cons_iff.mp hlt' with h2 | ⟨-, h2⟩
            · exact absurd h2 (lt_irrefl _)
            · exact List.cons_prefix_cons.mpr ⟨rfl, ih h1 h2⟩

theorem compare_cons (a b : Component) (n m : Name) :
    compare (a :: n : Name) (b :: m : Name) = (compare a b).then (compare n m) :=
  List.compareLex_cons_cons

theorem compare_eq_iff {n m : Name} : compare n m = .eq ↔ n = m := by
  induction n generalizing m with
  | nil => cases m with
    | nil => exact ⟨fun _ => rfl, fun _ => rfl⟩
    | cons b m => exact ⟨(by intro h; cases h), (by intro h; cases h)⟩
  | cons a n ih => cases m with
    | nil => exact ⟨(by intro h; cases h), (by intro h; cases h)⟩
    | cons b m => rw [compare_cons, Ordering.then_eq_eq, compare_eq_iff_eq, ih, List.cons.injEq]

/-- The comparison of names is the canonical order. -/
theorem compare_gt_iff {n m : Name} : compare n m = .gt ↔ m < n := by
  induction n generalizing m with
  | nil => cases m with
    | nil => exact ⟨(by intro h; cases h), fun h => absurd h (lt_irrefl _)⟩
    | cons b m => exact ⟨(by intro h; cases h), fun h => absurd h (List.not_lt_nil _)⟩
  | cons a n ih => cases m with
    | nil => exact ⟨fun _ => List.nil_lt_cons a n, fun _ => rfl⟩
    | cons b m =>
        rw [compare_cons, Ordering.then_eq_gt, compare_gt_iff_gt, compare_eq_iff_eq, ih, List.cons_lt_cons_iff]
        constructor
        · rintro (h | ⟨rfl, h⟩)
          · exact Or.inl h
          · exact Or.inr ⟨rfl, h⟩
        · rintro (h | ⟨rfl, h⟩)
          · exact Or.inl h
          · exact Or.inr ⟨rfl, h⟩

theorem compare_lt_iff {n m : Name} : compare n m = .lt ↔ n < m := by
  constructor
  · intro h
    rcases lt_trichotomy n m with hlt | rfl | hgt
    · exact hlt
    · rw [compare_eq_iff.mpr rfl] at h
      cases h
    · rw [compare_gt_iff.mpr hgt] at h
      cases h
  · intro hlt
    cases h : compare n m with
    | lt => rfl
    | eq => exact absurd (compare_eq_iff.mp h) hlt.ne
    | gt => exact absurd (compare_gt_iff.mp h) (lt_asymm hlt)

end Name
end NfdPitless
