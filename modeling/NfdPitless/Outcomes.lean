import Mathlib.Logic.Basic

/-! Computations that may stop at an error, and the rules for what they end in. Of the errors, those that are allowed
may happen; a computation that ends properly ends in what the postcondition says. -/

namespace NfdPitless

variable {ε σ τ α : Type} {allowed : ε → Prop} {Q Q' : σ → Prop} {R : τ → Prop} {x : Except ε σ}

/-- What a computation ends in. -/
def Ends (allowed : ε → Prop) (Q : σ → Prop) : Except ε σ → Prop
  | .ok s => Q s
  | .error e => allowed e

theorem toOption_eq_some_iff {s : σ} : x.toOption = some s ↔ x = .ok s := by
  cases x with
  | ok s' => rw [Except.toOption, Option.some_inj, Except.ok.injEq]
  | error e => exact iff_of_false (by simp [Except.toOption]) (by simp)

namespace Ends

theorem mono (h : Ends allowed Q x) (hq : ∀ s, Q s → Q' s) : Ends allowed Q' x := by
  cases x with
  | ok s => exact hq s h
  | error e => exact h

theorem bind {f : σ → Except ε τ} (h : Ends allowed Q x) (hf : ∀ s, Q s → Ends allowed R (f s)) :
    Ends allowed R (x.bind f) := by
  cases x with
  | ok s => exact hf s h
  | error e => exact h

theorem map {f : σ → τ} (h : Ends allowed Q x) (hf : ∀ s, Q s → R (f s)) : Ends allowed R (x.map f) := by
  cases x with
  | ok s => exact hf s h
  | error e => exact h

/-- What holds before a loop and is kept by every round holds after it. -/
theorem foldlM {f : σ → α → Except ε σ} {I : σ → Prop} {l : List α}
    (hf : ∀ s, ∀ a ∈ l, I s → Ends allowed I (f s a)) {s : σ} (h : I s) : Ends allowed I (l.foldlM f s) := by
  induction l generalizing s with
  | nil => exact h
  | cons a l ih =>
      rw [List.foldlM_cons]
      exact (hf s a List.mem_cons_self h).bind fun s' h' =>
        ih (fun s b hb => hf s b (List.mem_cons_of_mem a hb)) h'

/-- What one round of a loop brings about, and every other round keeps, holds after the loop. -/
theorem foldlM_mem {f : σ → α → Except ε σ} {a : α} {l : List α} (hmem : a ∈ l)
    (hdone : ∀ s, Ends allowed Q (f s a)) (hkept : ∀ s b, Q s → Ends allowed Q (f s b))
    (hallowed : ∀ s b, Ends allowed (fun _ => True) (f s b)) (s : σ) : Ends allowed Q (l.foldlM f s) := by
  induction l generalizing s with
  | nil => exact absurd hmem List.not_mem_nil
  | cons b l ih =>
      rw [List.foldlM_cons]
      rcases List.mem_cons.mp hmem with rfl | hmem
      · exact (hdone s).bind fun s' hs' => Ends.foldlM (fun s b _ hs => hkept s b hs) hs'
      · exact (hallowed s b).bind fun s' _ => ih hmem s'

theorem and (h : Ends allowed Q x) (h' : Ends allowed Q' x) : Ends allowed (fun s => Q s ∧ Q' s) x := by
  cases x with
  | ok s => exact ⟨h, h'⟩
  | error e => exact h

/-- What a computation that has ended is in. -/
theorem of_ok (h : Ends allowed Q x) {s : σ} (hx : x = .ok s) : Q s := by
  rw [hx] at h
  exact h

/-- An error that is not allowed does not happen. -/
theorem ne_error (h : Ends allowed Q x) {e : ε} (he : ¬ allowed e) : x ≠ .error e := by
  intro hx
  rw [hx] at h
  exact he h

end Ends
end NfdPitless
