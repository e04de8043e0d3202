import Mathlib.Data.List.Infix
import Mathlib.Logic.Function.Basic

/-! The value of the longest prefix of a list that a partial function has a value for, and what a change of the function
at one list does to it: it changes for the lists that this one covers, and for no other. -/

namespace NfdPitless.LongestPrefix

variable {α β : Type} {f g : List α → Option β} {p q n l : List α} {c : α}

/-- `longest` of a list that is given in reverse. -/
def longestUp (f : List α → Option β) : List α → Option β
  | [] => f []
  | c :: l => (f (l.reverse ++ [c])).or (longestUp f l)

/-- The list itself is tried first, then without its last element, and so on. -/
def longest (f : List α → Option β) (n : List α) : Option β := longestUp f n.reverse

/-- Between the prefix and the list there is no other one with a value. -/
def Covers (f : List α → Option β) (p n : List α) : Prop :=
  p <+: n ∧ ∀ q, p <+: q → q <+: n → q ≠ p → f q = none

theorem longest_nil (f : List α → Option β) : longest f [] = f [] := rfl

theorem longest_concat (f : List α → Option β) (l : List α) (c : α) :
    longest f (l ++ [c]) = (f (l ++ [c])).or (longest f l) := by
  rw [longest, List.reverse_append, List.reverse_singleton, List.singleton_append, longestUp, List.reverse_reverse,
    longest]

theorem longest_congr (h : ∀ q, q <+: n → f q = g q) : longest f n = longest g n := by
  induction n using List.reverseRecOn with
  | nil => exact h [] List.nil_prefix
  | append_singleton l c ih =>
      rw [longest_concat, longest_concat, h _ (List.prefix_refl _), ih fun q hq =>
        h q (hq.trans (List.prefix_append l [c]))]

theorem longest_map {γ : Type} (g : β → γ) (n : List α) :
    longest (fun l => (f l).map g) n = (longest f n).map g := by
  induction n using List.reverseRecOn with
  | nil => rfl
  | append_singleton l c ih => rw [longest_concat, longest_concat, ih, Option.map_or]

theorem covers_self (f : List α → Option β) (p : List α) : Covers f p p :=
  ⟨List.prefix_refl p, fun _ hpq hqp hne => absurd (hqp.eq_of_length (Nat.le_antisymm hqp.length_le hpq.length_le)) hne⟩

theorem covers_concat_iff (hne : p ≠ l ++ [c]) : Covers f p (l ++ [c]) ↔ Covers f p l ∧ f (l ++ [c]) = none := by
  constructor
  · rintro ⟨hp, hnone⟩
    refine ⟨⟨(List.prefix_concat_iff.mp hp).resolve_left hne, fun q hpq hql => ?_⟩, ?_⟩
    · exact hnone q hpq (hql.trans (List.prefix_append l [c]))
    · exact hnone _ hp (List.prefix_refl _) (Ne.symm hne)
  · rintro ⟨⟨hp, hnone⟩, hlast⟩
    refine ⟨hp.trans (List.prefix_append l [c]), fun q hpq hql hqne => ?_⟩
    rcases List.prefix_concat_iff.mp hql with rfl | hql
    · exact hlast
    · exact hnone q hpq hql hqne

/-- A covered list has the value of the prefix that covers it. -/
theorem longest_of_covers (h : Covers f p n) : longest f n = longest f p := by
  induction n using List.reverseRecOn with
  | nil => rw [List.prefix_nil.mp h.1]
  | append_singleton l c ih =>
      by_cases hne : p = l ++ [c]
      · rw [hne]
      · obtain ⟨hl, hlast⟩ := (covers_concat_iff hne).mp h
        rw [longest_concat, hlast, Option.none_or, ih hl]

theorem longest_of_some {v : β} (h : f p = some v) : longest f p = some v := by
  cases p using List.reverseRecOn with
  | nil => exact h
  | append_singleton l c => rw [longest_concat, h, Option.some_or]

theorem longest_isSome (h : (f []).isSome) (n : List α) : (longest f n).isSome := by
  induction n using List.reverseRecOn with
  | nil => exact h
  | append_singleton l c ih =>
      rw [longest_concat, Option.isSome_or, ih, Bool.or_true]

/-- The value is that of the prefix that covers the list. -/
theorem longest_eq_some_iff {v : β} : longest f n = some v ↔ ∃ p, Covers f p n ∧ f p = some v := by
  constructor
  · intro h
    induction n using List.reverseRecOn with
    | nil => exact ⟨[], covers_self f [], h⟩
    | append_singleton l c ih =>
        rw [longest_concat] at h
        cases hlast : f (l ++ [c]) with
        | some w =>
            rw [hlast, Option.some_or] at h
            exact ⟨_, covers_self f _, hlast.trans h⟩
        | none =>
            rw [hlast, Option.none_or] at h
            obtain ⟨p, hcovers, hp⟩ := ih h
            have hne : p ≠ l ++ [c] := by
              rintro rfl
              rw [hlast] at hp
              cases hp
            exact ⟨p, (covers_concat_iff hne).mpr ⟨hcovers, hlast⟩, hp⟩
  · rintro ⟨p, hcovers, hp⟩
    rw [longest_of_covers hcovers, longest_of_some hp]

/-- The lists between the prefix and the list, by their lengths. -/
theorem covers_iff_take :
    Covers f p n ↔ p <+: n ∧ ∀ k, k < n.length + 1 → p.length < k → f (n.take k) = none := by
  refine and_congr_right fun hp => ⟨fun h k hk hlt => ?_, fun h q hpq hqn hne => ?_⟩
  · have hlen : (n.take k).length = k := List.length_take_of_le (Nat.le_of_lt_succ hk)
    refine h _ (List.prefix_of_prefix_length_le hp (List.take_prefix k n) (by omega)) (List.take_prefix k n) ?_
    intro heq
    rw [heq] at hlen
    omega
  · have hlen : p.length < q.length := Nat.lt_of_le_of_ne hpq.length_le fun heq => hne (hpq.eq_of_length heq).symm
    have htake := h q.length (Nat.lt_succ_of_le hqn.length_le) hlen
    rwa [← List.prefix_iff_eq_take.mp hqn] at htake

variable [DecidableEq α]

instance (f : List α → Option β) (p n : List α) : Decidable (Covers f p n) := decidable_of_iff _ covers_iff_take.symm

theorem covers_update (v : Option β) : Covers (Function.update f p v) p n ↔ Covers f p n := by
  refine and_congr_right fun _ => forall_congr' fun q => forall₃_congr fun _ _ hne => ?_
  rw [Function.update_of_ne hne]

/-- The value of a list that is not covered does not change. -/
theorem longest_update_of_not_covers (v : Option β) (h : ¬ Covers f p n) :
    longest (Function.update f p v) n = longest f n := by
  induction n using List.reverseRecOn with
  | nil =>
      rw [longest_nil, longest_nil, Function.update_of_ne]
      rintro rfl
      exact h (covers_self f [])
  | append_singleton l c ih =>
      have hne : p ≠ l ++ [c] := by
        rintro rfl
        exact h (covers_self f _)
      rw [longest_concat, longest_concat, Function.update_of_ne (Ne.symm hne)]
      cases hlast : f (l ++ [c]) with
      | some x => rfl
      | none => rw [ih fun hl => h ((covers_concat_iff hne).mpr ⟨hl, hlast⟩)]

/-- The value of a covered list becomes the new one, or that of the next shorter prefix. -/
theorem longest_update_of_covers (v : Option β) (h : Covers f p n) :
    longest (Function.update f p v) n = longest (Function.update f p v) p :=
  longest_of_covers ⟨h.1, fun q hpq hqn hne => by rw [Function.update_of_ne hne, h.2 q hpq hqn hne]⟩

/-- A value changes exactly if it is covered and that of the prefix changes. -/
theorem longest_update_ne_iff (v : Option β) : longest (Function.update f p v) n ≠ longest f n ↔
    longest (Function.update f p v) p ≠ longest f p ∧ Covers f p n := by
  by_cases h : Covers f p n
  · rw [longest_update_of_covers v h, longest_of_covers h]
    exact (and_iff_left h).symm
  · rw [longest_update_of_not_covers v h]
    exact iff_of_false (fun hne => hne rfl) fun hboth => h hboth.2

theorem longest_update_none (f : List α → Option β) (hne : p ≠ []) :
    longest (Function.update f p none) p = longest f p.dropLast := by
  cases p using List.reverseRecOn with
  | nil => exact absurd rfl hne
  | append_singleton l c =>
      rw [longest_concat, Function.update_self, Option.none_or, List.dropLast_concat]
      refine longest_congr fun q hq => Function.update_of_ne ?_ _ _
      rintro rfl
      have hlen := hq.length_le
      rw [List.length_append, List.length_singleton] at hlen
      omega

end NfdPitless.LongestPrefix
