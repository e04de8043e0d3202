import Mathlib.Logic.Basic

/-! Runs of a partial step function. A step that returns `none` (a failed assertion, a disabled
event) has no successor, and a run is a list of events each of which has one. The condition `ok`
selects the runs a result is about: it is read in the state before each step. -/

namespace NfdPitless

variable {σ ε : Type}

/-- The states reached from `init` by steps that all meet `ok` in the state they start from. -/
inductive Reach (step : σ → ε → Option σ) (ok : σ → ε → Prop) (init : σ) : σ → Prop where
  | start : Reach step ok init init
  | next {s s' : σ} (e : ε) : Reach step ok init s → ok s e → step s e = some s' →
      Reach step ok init s'

/-- The condition of a run that is restricted in no way. -/
def anyStep (_ : σ) (_ : ε) : Prop := True

namespace Reach

variable {step : σ → ε → Option σ} {ok ok' : σ → ε → Prop} {init s s' : σ}

/-- What holds initially and is kept by every step that meets the condition holds in every state
reached. -/
theorem invariant {I : σ → Prop} (hr : Reach step ok init s) (hinit : I init)
    (hstep : ∀ s e s', I s → ok s e → step s e = some s' → I s') : I s := by
  induction hr with
  | start => exact hinit
  | next e _ hok hs ih => exact hstep _ e _ ih hok hs

/-- The same for a step of which it is known what one result keeps. -/
theorem invariant_of_spec {I : σ → Prop} (hr : Reach step ok init s) (hinit : I init)
    (hspec : ∀ s e s', I s → ok s e → step s e = some s' → ∃ s₁, step s e = some s₁ ∧ I s₁) : I s :=
  hr.invariant hinit fun s e s' hI hok hstep => by
    obtain ⟨s₁, hstep₁, hI₁⟩ := hspec s e s' hI hok hstep
    rw [hstep] at hstep₁
    cases hstep₁
    exact hI₁

theorem mono (hr : Reach step ok init s) (h : ∀ s e, ok s e → ok' s e) : Reach step ok' init s := by
  induction hr with
  | start => exact .start
  | next e _ hok hs ih => exact .next e ih (h _ _ hok) hs

theorem trans (hr : Reach step ok init s) (hr' : Reach step ok s s') : Reach step ok init s' := by
  induction hr' with
  | start => exact hr
  | next e _ hok hs ih => exact .next e ih hok hs

end Reach

/-- Execute a list of events. -/
def exec (step : σ → ε → Option σ) : σ → List ε → Option σ
  | s, [] => some s
  | s, e :: es => (step s e).bind fun s' => exec step s' es

/-- Executing a list of events reaches a state of an unrestricted run. -/
theorem reach_of_exec {step : σ → ε → Option σ} {init : σ} :
    ∀ {s s' : σ} {es : List ε}, Reach step anyStep init s → exec step s es = some s' →
      Reach step anyStep init s'
  | s, s', [], hr, h => by
      cases h
      exact hr
  | s, s', e :: es, hr, h => by
      rw [exec] at h
      cases hs : step s e with
      | none => rw [hs] at h; cases h
      | some s1 =>
          rw [hs] at h
          exact reach_of_exec (hr.next e trivial hs) h

/-- Executing events that meet a condition in every state. -/
theorem reach_of_exec_all {step : σ → ε → Option σ} {ok : σ → ε → Prop} {init : σ} :
    ∀ {s s' : σ} {es : List ε}, Reach step ok init s → (∀ e ∈ es, ∀ s, ok s e) → exec step s es = some s' →
      Reach step ok init s'
  | s, s', [], hr, _, h => by
      cases h
      exact hr
  | s, s', e :: es, hr, hok, h => by
      obtain ⟨s1, hs, hrest⟩ := Option.bind_eq_some_iff.mp h
      exact reach_of_exec_all (hr.next e (hok e List.mem_cons_self s) hs)
        (fun x hx => hok x (List.mem_cons_of_mem e hx)) hrest

/-- A step that is taken only when it meets a condition. -/
def guarded (step : σ → ε → Option σ) (ok : σ → ε → Bool) (s : σ) (e : ε) : Option σ :=
  if ok s e then step s e else none

theorem exec_of_guarded {step : σ → ε → Option σ} {ok : σ → ε → Bool} :
    ∀ {s s' : σ} {es : List ε}, exec (guarded step ok) s es = some s' → exec step s es = some s'
  | s, s', [], h => h
  | s, s', e :: es, h => by
      rw [exec, guarded] at h
      split at h
      · obtain ⟨s1, hs, hrest⟩ := Option.bind_eq_some_iff.mp h
        rw [exec, hs]
        exact exec_of_guarded hrest
      · cases h

/-- Executing a list of events that all meet a condition. -/
theorem reach_of_exec_guarded {step : σ → ε → Option σ} {ok : σ → ε → Bool} {init : σ} :
    ∀ {s s' : σ} {es : List ε}, Reach step (fun s e => ok s e = true) init s →
      exec (guarded step ok) s es = some s' → Reach step (fun s e => ok s e = true) init s'
  | s, s', [], hr, h => by
      cases h
      exact hr
  | s, s', e :: es, hr, h => by
      rw [exec, guarded] at h
      split at h
      · rename_i hok
        cases hs : step s e with
        | none => rw [hs] at h; cases h
        | some s1 =>
            rw [hs] at h
            exact reach_of_exec_guarded (hr.next e hok hs) h
      · cases h

/-- A state with the steps that led to it, the latest first: the state before each, and its event. -/
structure Traced (σ ε : Type) where
  state : σ
  history : List (σ × ε)

namespace Traced

def start (s : σ) : Traced σ ε := ⟨s, []⟩

def next (step : σ → ε → Option σ) (t : Traced σ ε) (e : ε) : Option (Traced σ ε) :=
  (step t.state e).map fun state => ⟨state, (t.state, e) :: t.history⟩

end Traced

end NfdPitless
