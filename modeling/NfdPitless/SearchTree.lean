import NfdPitless.Lists
import Mathlib.Data.Tree.Basic

/-! Search trees, as the ones of `std::set`: the values are those of the nodes from left to right. A search for a bound
goes down one path, which is right for every shape of the tree when the values below the bound come first. -/

namespace NfdPitless.SearchTree

variable {α : Type} {below small : α → Bool} {t t' : BinaryTree α} {l : List α}

def inorder : BinaryTree α → List α
  | .nil => []
  | .node x left right => inorder left ++ x :: inorder right

/-- The path of `lower_bound`, with the last value on it that is not below the bound. -/
def lowerBoundFrom (below : α → Bool) : BinaryTree α → Option α → Option α
  | .nil, found => found
  | .node x left right, found =>
      if below x then lowerBoundFrom below right found else lowerBoundFrom below left (some x)

/-- The value that `lower_bound` points at; `none` at the end. -/
def lowerBound (below : α → Bool) (t : BinaryTree α) : Option α := lowerBoundFrom below t none

theorem lowerBoundFrom_eq (h : Lists.Splits below (inorder t)) (found : Option α) :
    lowerBoundFrom below t found = ((inorder t).find? fun x => !below x).or found := by
  induction t generalizing found with
  | nil => rfl
  | node x left right ihleft ihright =>
      obtain ⟨hleft, hright, hcross⟩ := List.pairwise_append.mp h
      rw [lowerBoundFrom, inorder, List.find?_append]
      by_cases hx : below x = true
      · -- all that is left of the node is below the bound too
        have hnone : (inorder left).find? (fun x => !below x) = none :=
          List.find?_eq_none.mpr fun y hy => by simp [hcross y hy x List.mem_cons_self hx]
        rw [if_pos hx, ihright (List.pairwise_cons.mp hright).2, hnone, Option.none_or,
          List.find?_cons_of_neg (by simp [hx])]
      · rw [if_neg hx, ihleft hleft, List.find?_cons_of_pos (by simpa using hx), Option.or_assoc, Option.some_or]

/-- The search finds the first value that is not below the bound. -/
theorem lowerBound_eq_find? (h : Lists.Splits below (inorder t)) :
    lowerBound below t = (inorder t).find? fun x => !below x :=
  (lowerBoundFrom_eq h none).trans Option.or_none

/-- The shape of the tree does not matter. -/
theorem lowerBound_congr (h : Lists.Splits below (inorder t)) (hsame : inorder t' = inorder t) :
    lowerBound below t' = lowerBound below t := by
  rw [lowerBound_eq_find? h, lowerBound_eq_find? (hsame ▸ h), hsame]

/-- Two bounds are at one place exactly if each value below the one is below the other, and the value at the one is
not. -/
theorem find?_eq_find?_iff (h : Lists.Splits below l) :
    (l.find? fun x => !below x) = (l.find? fun x => !small x) ↔
      (∀ x ∈ l, below x = true → small x = true) ∧
        ∀ x, (l.find? fun x => !below x) = some x → small x = false := by
  constructor
  · intro heq
    refine ⟨fun x hx hbelow => ?_, fun x hfind => ?_⟩
    · by_contra hsmall
      have hsome : (l.find? fun x => !small x).isSome := List.find?_isSome.mpr ⟨x, hx, by simpa using hsmall⟩
      obtain ⟨y, hy⟩ := Option.isSome_iff_exists.mp hsome
      obtain ⟨-, before, after, rfl, hbefore⟩ := List.find?_eq_some_iff_append.mp hy
      have hnot := List.find?_some (heq.trans hy)
      -- the first value that is not small is not below the bound, and `x` is after it
      rcases List.mem_append.mp hx with hin | hin
      · exact hsmall (by simpa using hbefore x hin)
      · rcases List.mem_cons.mp hin with rfl | hin
        · rw [hbelow] at hnot
          cases hnot
        · have hyx := (List.pairwise_cons.mp (List.pairwise_append.mp h).2.1).1 x hin hbelow
          rw [hyx] at hnot
          cases hnot
    · have hnot := List.find?_some (heq.symm.trans hfind)
      rwa [Bool.not_eq_true'] at hnot
  · rintro ⟨hsmall, hfirst⟩
    cases hfind : l.find? fun x => !below x with
    | none =>
        refine (List.find?_eq_none.mpr fun x hx => ?_).symm
        have hbelow := List.find?_eq_none.mp hfind x hx
        rw [Bool.not_eq_true, Bool.not_eq_false'] at hbelow
        rw [hsmall x hx hbelow]
        exact Bool.false_ne_true
    | some x =>
        obtain ⟨-, before, after, rfl, hbefore⟩ := List.find?_eq_some_iff_append.mp hfind
        refine (List.find?_eq_some_iff_append.mpr ⟨?_, before, after, rfl, fun y hy => ?_⟩).symm
        · rw [hfirst x hfind]
          rfl
        · have hbelow := hbefore y hy
          rw [Bool.not_not] at hbelow ⊢
          exact hsmall y (List.mem_append_left _ hy) hbelow

end NfdPitless.SearchTree
