import Mathlib.Data.List.Basic

/-! Iterators as functions to the next position. A position is visited from the first one on until there is
no next one; an iterator that goes wrong, or never comes to an end, visits nothing that can be listed. -/

namespace NfdPitless.Iteration

variable {σ τ : Type} {next : σ → Option (Option σ)} {l : List σ} {a : σ}

/-- The positions visited, if the end is reached with the given fuel. Advancing may go wrong, which is the outer
`none`. -/
def visits (next : σ → Option (Option σ)) : Nat → Option σ → Option (List σ)
  | _, none => some []
  | 0, some _ => none
  | fuel + 1, some a => (next a).bind fun a' => (visits next fuel a').map (a :: ·)

/-- Each position of a list is followed by the next one of the list, and the last by the end. -/
def Follows (next : σ → Option (Option σ)) : List σ → Prop
  | [] => True
  | a :: l => next a = some l.head? ∧ Follows next l

theorem Follows.visits_eq (h : Follows next l) {fuel : Nat} (hfuel : l.length ≤ fuel) :
    visits next fuel l.head? = some l := by
  induction l generalizing fuel with
  | nil => cases fuel <;> rfl
  | cons a l ih =>
      obtain ⟨hnext, htail⟩ := h
      cases fuel with
      | zero => exact absurd hfuel (Nat.not_succ_le_zero _)
      | succ fuel =>
          rw [List.head?_cons, visits, hnext, Option.bind_some, ih htail (Nat.le_of_succ_le_succ hfuel)]
          rfl

/-- A search that goes on after each element it finds visits what it searches for. -/
theorem follows_filter {p : σ → Bool} (h : ∀ pre a post, l = pre ++ a :: post → p a = true →
    next a = some (post.find? p)) : Follows next (l.filter p) := by
  induction l with
  | nil => trivial
  | cons a l ih =>
      have htail : Follows next (l.filter p) := ih fun pre b post heq hb =>
        h (a :: pre) b post (by rw [heq, List.cons_append]) hb
      by_cases ha : p a = true
      · rw [List.filter_cons_of_pos ha]
        exact ⟨by rw [h [] a l rfl ha, List.head?_filter], htail⟩
      · rw [List.filter_cons_of_neg ha]
        exact htail

/-- Where every position of an iterator stands for several, of which the first is its own, visit these one
after the other. -/
theorem Follows.flatMap {next' : τ → Option (Option τ)} {first : σ → τ} {parts : σ → List τ}
    (hparts : ∀ a ∈ l, (parts a).head? = some (first a))
    (hstep : ∀ a ∈ l, ∀ pre b post, parts a = pre ++ b :: post →
      next' b = match post with
        | [] => (next a).map fun a' => a'.map first
        | b' :: _ => some (some b'))
    (h : Follows next l) : Follows next' (l.flatMap parts) := by
  induction l with
  | nil => trivial
  | cons a l ih =>
      obtain ⟨hnext, htail⟩ := h
      have hrest : Follows next' (l.flatMap parts) :=
        ih (fun b hb => hparts b (List.mem_cons_of_mem a hb)) (fun b hb => hstep b (List.mem_cons_of_mem a hb)) htail
      have hhead : (l.flatMap parts).head? = l.head?.map first := by
        cases l with
        | nil => rfl
        | cons b l =>
            have hb := hparts b (List.mem_cons_of_mem a List.mem_cons_self)
            rw [List.flatMap_cons, List.head?_append, hb]
            rfl
      -- the positions of `a` that are left, then those of the rest
      have hsuffix : ∀ post pre, parts a = pre ++ post → Follows next' (post ++ l.flatMap parts) := by
        intro post
        induction post with
        | nil => exact fun _ _ => hrest
        | cons b post ihp =>
            intro pre hpre
            refine ⟨?_, ihp (pre ++ [b]) (by rw [hpre, List.append_assoc]; rfl)⟩
            rw [hstep a List.mem_cons_self pre b post hpre]
            cases post with
            | nil =>
                simp only [hnext, Option.map_some]
                exact congrArg some hhead.symm
            | cons b' post => rfl
      exact hsuffix (parts a) [] rfl

/-- Whatever is closed under the iterator holds what is visited. -/
theorem mem_of_visits {P : σ → Prop} (hnext : ∀ a a', P a → next a = some (some a') → P a') (fuel : Nat) :
    ∀ {start : Option σ} {visited : List σ}, (∀ a, start = some a → P a) →
      visits next fuel start = some visited → ∀ a ∈ visited, P a := by
  induction fuel with
  | zero =>
      intro start visited _ h
      cases start with
      | none =>
          cases h
          exact fun a ha => by cases ha
      | some a => cases h
  | succ fuel ih =>
      intro start visited hstart h
      cases start with
      | none =>
          cases h
          exact fun a ha => by cases ha
      | some a =>
          obtain ⟨a', hstep, hrest⟩ := Option.bind_eq_some_iff.mp h
          obtain ⟨rest, hvisits, rfl⟩ := Option.map_eq_some_iff.mp hrest
          intro b hb
          rcases List.mem_cons.mp hb with rfl | hb
          · exact hstart b rfl
          · refine ih (fun c hc => hnext a c (hstart a rfl) ?_) hvisits b hb
            rw [hstep, hc]

end NfdPitless.Iteration
