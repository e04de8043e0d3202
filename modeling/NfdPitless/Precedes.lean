import Mathlib.Data.List.Nodup
import Mathlib.Data.List.Basic

/-! The order of the elements of a list without repetition. -/

namespace NfdPitless

variable {α : Type} {l l' : List α} {a b : α}

/-- An element comes before another one in a list. -/
def Precedes (l : List α) (a b : α) : Prop := [a, b].Sublist l

instance [DecidableEq α] (l : List α) (a b : α) : Decidable (Precedes l a b) :=
  inferInstanceAs (Decidable ([a, b].Sublist l))

namespace Precedes

theorem mono (h : Precedes l a b) (hsub : l.Sublist l') : Precedes l' a b := h.trans hsub

theorem left_mem (h : Precedes l a b) : a ∈ l := h.subset List.mem_cons_self

/-- What comes after an element. -/
theorem split_iff (hl : (l ++ a :: l').Nodup) : Precedes (l ++ a :: l') a b ↔ b ∈ l' := by
  rw [List.nodup_append, List.nodup_cons] at hl
  constructor
  · intro h
    obtain ⟨l₁, l₂, heq, h₁, h₂⟩ := List.sublist_append_iff.mp h
    cases l₁ with
    | nil =>
        cases heq
        exact List.singleton_sublist.mp (List.cons_sublist_cons.mp h₂)
    | cons x l₁ =>
        cases (List.cons.inj heq).1
        exact absurd rfl (hl.2.2 a (h₁.subset List.mem_cons_self) a List.mem_cons_self)
  · intro hb
    exact (List.cons_sublist_cons.mpr (List.singleton_sublist.mpr hb)).trans (List.sublist_append_right l _)

theorem ne (hl : l.Nodup) (h : Precedes l a b) : a ≠ b := by
  have hpair := hl.sublist h
  rw [List.nodup_cons, List.mem_singleton] at hpair
  exact hpair.1

theorem asymm (hl : l.Nodup) (h : Precedes l a b) : ¬ Precedes l b a := by
  intro h'
  obtain ⟨before, after, rfl⟩ := List.append_of_mem h.left_mem
  have hb := (split_iff hl).mp h
  obtain ⟨middle, after', rfl⟩ := List.append_of_mem hb
  rw [← List.cons_append, ← List.append_assoc] at hl h'
  have ha := (split_iff hl).mp h'
  rw [List.append_assoc, List.nodup_append, List.cons_append, List.nodup_cons] at hl
  exact hl.2.1.1 (List.mem_append_right middle (List.mem_cons_of_mem b ha))

theorem total (ha : a ∈ l) (hb : b ∈ l) (hne : a ≠ b) : Precedes l a b ∨ Precedes l b a := by
  obtain ⟨before, after, rfl⟩ := List.append_of_mem ha
  rcases List.mem_append.mp hb with hb | hb
  · exact Or.inr ((List.singleton_sublist.mpr hb).append (List.singleton_sublist.mpr List.mem_cons_self))
  · rcases List.mem_cons.mp hb with rfl | hb
    · exact absurd rfl hne
    · exact Or.inl ((List.cons_sublist_cons.mpr (List.singleton_sublist.mpr hb)).trans (List.sublist_append_right _ _))

/-- Where both orders of two elements are carried over, the order is the same. -/
theorem iff_of_imp (hl' : l'.Nodup) (ha : a ∈ l) (hb : b ∈ l)
    (hab : Precedes l a b → Precedes l' a b) (hba : Precedes l b a → Precedes l' b a) :
    Precedes l' a b ↔ Precedes l a b := by
  refine ⟨fun h' => ?_, hab⟩
  by_contra h
  rcases total ha hb (h'.ne hl') with h | h₁
  · contradiction
  · exact h'.asymm hl' (hba h₁)

theorem filter (h : Precedes l a b) {p : α → Bool} (ha : p a = true) (hb : p b = true) : Precedes (l.filter p) a b := by
  have hpair := List.Sublist.filter p h
  rwa [List.filter_cons_of_pos ha, List.filter_cons_of_pos hb, List.filter_nil] at hpair

/-- The elements of one part stand in the order of the part. -/
theorem flatMap_same {f : Nat → List α} {n i : Nat} (hi : i < n) (h : Precedes (f i) a b) :
    Precedes ((List.range n).flatMap f) a b :=
  h.mono (List.sublist_flatten_of_mem (List.mem_map_of_mem (List.mem_range.mpr hi)))

/-- The elements of one part stand before those of a later one. -/
theorem flatMap_lt {f : Nat → List α} {n i j : Nat} (hij : i < j) (hj : j < n) (ha : a ∈ f i) (hb : b ∈ f j) :
    Precedes ((List.range n).flatMap f) a b := by
  induction n with
  | zero => exact absurd hj (Nat.not_lt_zero j)
  | succ n ih =>
      rw [List.range_succ, List.flatMap_append, List.flatMap_singleton]
      rcases Nat.lt_succ_iff_lt_or_eq.mp hj with hj | rfl
      · exact (ih hj).mono (List.sublist_append_left _ _)
      · have ha' : a ∈ (List.range j).flatMap f := List.mem_flatMap.mpr ⟨i, List.mem_range.mpr hij, ha⟩
        exact (List.singleton_sublist.mpr ha').append (List.singleton_sublist.mpr hb)

end Precedes

end NfdPitless
