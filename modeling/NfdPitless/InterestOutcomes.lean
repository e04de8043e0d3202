import NfdPitless.ForwarderPending
import NfdPitless.StrategyPipelines

/-! What an incoming Interest leads to in the forwarder with its strategies: it is dropped, answered from the content
store, or handed to the effective strategy of its PIT entry in the state where it has been recorded. -/

namespace NfdPitless

open Forwarder StrategyState

variable {κ : Type} {P : Platform κ} {s s' : StrategyState κ} {inFace : Face} {interest : Interest} {fibEntry r : Ref}
  {input : TriggerInput} {e : PitEntry}

namespace StrategyForwarder

/-- The Interest is not dropped in the PIT entry that is found or made for it. -/
def Accepts (P : Platform κ) (s : StrategyState κ) (inFace : Face) (interest : Interest) (r : Ref) (e : PitEntry) :
    Prop :=
  isViolatingLocalhost P inFace interest.name = false ∧
    (∃ pit isNew, s.base.pit.insert P.cityHash interest = some (pit, r, isNew) ∧ pit.entries r = some e) ∧
    hasDuplicateNonce P s.base e inFace interest = false

theorem Receives.accepts (h : Receives P s inFace interest r e) : Accepts P s inFace interest r e :=
  ⟨h.1, h.2.1, h.2.2.1⟩

/-- The state in which an Interest that is not dropped is looked up in the content store, or after it. -/
def admitted (s : StrategyState κ) (inFace : Face) (interest : Interest) (pit : Pit) (cs : κ) (r : Ref) :
    StrategyState κ :=
  { s with base := cancelUnsatisfyAndStragglerTimer { withPit s.base inFace interest pit with cs } r }

/-- The state in which the strategy is triggered. -/
def atTrigger (s : StrategyState κ) (inFace : Face) (interest : Interest) (pit : Pit) (cs : κ) (r : Ref) :
    StrategyState κ :=
  { s with base := recordedState s.base inFace interest pit cs r }

/-- What becomes of an Interest. -/
inductive InterestOutcome (P : Platform κ) (s : StrategyState κ) (inFace : Face) (interest : Interest) (fibEntry : Ref)
    (input : TriggerInput) (s' : StrategyState κ) : Prop where
  | violating (hs' : s' = { s with base := s.base.logged (.inInterest inFace interest) })
  | looping (r : Ref) (pit : Pit) (isNew : Bool) (e : PitEntry)
      (hins : s.base.pit.insert P.cityHash interest = some (pit, r, isNew)) (he : pit.entries r = some e)
      (hs' : s' = { s with base := withPit s.base inFace interest pit })
  | answered (r : Ref) (pit : Pit) (isNew : Bool) (e : PitEntry) (cs : κ) (data : Data) (strategy : Strategy)
      (hins : s.base.pit.insert P.cityHash interest = some (pit, r, isNew)) (he : pit.entries r = some e)
      (haccepts : Accepts P s inFace interest r e)
      (hs' : s' = { strategy.beforeSatisfyInterest (admitted s inFace interest pit cs r) r with
        base := onOutgoingData P (setStragglerTimer (admitted s inFace interest pit cs r).base r true
          data.freshnessPeriod) data inFace })
  | received (r : Ref) (pit : Pit) (isNew : Bool) (e : PitEntry) (cs : κ) (strategy : Strategy)
      (hins : s.base.pit.insert P.cityHash interest = some (pit, r, isNew)) (he : pit.entries r = some e)
      (hreceives : Receives P s inFace interest r e) (heff : s.effectiveStrategy e.getName = some strategy)
      (hok : strategy.afterReceiveInterest P (atTrigger s inFace interest pit cs r) inFace fibEntry r input = .ok s')

theorem dispatch_ok {trigger : StrategyState κ → Strategy → StrategyOutcome κ}
    (h : dispatchToStrategy s r trigger = .ok s') :
    ∃ e strategy, s.entry r = some e ∧ s.effectiveStrategy e.getName = some strategy ∧ trigger s strategy = .ok s' := by
  rw [dispatchToStrategy] at h
  split at h
  · cases h
  · rename_i strategy hfound
    obtain ⟨e, he, heff⟩ := Option.bind_eq_some_iff.mp hfound
    exact ⟨e, strategy, he, heff, h⟩

section Accepted

variable {pit : Pit} {isNew : Bool} (cs : κ)

theorem atTrigger_entry (he : pit.entries r = some e) :
    (atTrigger s inFace interest pit cs r).entry r = some (recordedEntry s.now inFace interest e) := by
  rw [atTrigger, StrategyState.entry, recordedState_entries, if_pos rfl, he]
  rfl

theorem atTrigger_hasUnexpiredOutRecords (he : pit.entries r = some e) :
    (atTrigger s inFace interest pit cs r).hasUnexpiredOutRecords r = e.hasUnexpiredOutRecords s.now := by
  rw [hasUnexpiredOutRecords, atTrigger_entry cs he]
  rfl

variable (hl : s.base.pit.Linked) (hins : s.base.pit.insert P.cityHash interest = some (pit, r, isNew))
  (he : pit.entries r = some e)

include hl hins he

theorem admitted_linked : (admitted s inFace interest pit cs r).base.pit.Linked :=
  linked_cancel (hl.insert_spec hins he).1 r

theorem atTrigger_linked : (atTrigger s inFace interest pit cs r).base.pit.Linked :=
  linked_setUnsatisfyTimer (linked_insertInRecord (admitted_linked cs hl hins he) r _ _ _) r

end Accepted

theorem onContentStoreMiss_outcome {pit : Pit} {isNew : Bool} (cs : κ)
    (hins : s.base.pit.insert P.cityHash interest = some (pit, r, isNew)) (he : pit.entries r = some e)
    (hreceives : Receives P s inFace interest r e)
    (h : onContentStoreMiss P (admitted s inFace interest pit cs r) inFace r interest fibEntry input = .ok s') :
    InterestOutcome P s inFace interest fibEntry input s' := by
  replace h : dispatchToStrategy (atTrigger s inFace interest pit cs r) r
    (fun s strategy => strategy.afterReceiveInterest P s inFace fibEntry r input) = .ok s' := h
  obtain ⟨e', strategy, he', heff, hok⟩ := dispatch_ok h
  have hrecorded : some e' = some (recordedEntry s.now inFace interest e) := he'.symm.trans (atTrigger_entry cs he)
  cases hrecorded
  exact .received r pit isNew e cs strategy hins he hreceives heff hok

theorem onContentStoreHit_outcome {pit : Pit} {isNew : Bool} (cs : κ) {data : Data}
    (hins : s.base.pit.insert P.cityHash interest = some (pit, r, isNew)) (he : pit.entries r = some e)
    (haccepts : Accepts P s inFace interest r e)
    (h : onContentStoreHit P (admitted s inFace interest pit cs r) inFace r data = .ok s') :
    InterestOutcome P s inFace interest fibEntry input s' := by
  rw [onContentStoreHit] at h
  cases hdispatch : dispatchToStrategy (admitted s inFace interest pit cs r) r
      fun s strategy => .ok (strategy.beforeSatisfyInterest s r) with
  | error a =>
      rw [hdispatch] at h
      cases h
  | ok s₁ =>
      rw [hdispatch] at h
      cases h
      obtain ⟨e', strategy, -, -, hok⟩ := dispatch_ok hdispatch
      cases hok
      refine .answered r pit isNew e cs data strategy hins he haccepts ?_
      rw [← strategy.beforeSatisfyInterest_base (admitted s inFace interest pit cs r) r]

theorem onIncomingInterest_outcome (h : onIncomingInterest P s inFace interest fibEntry input = .ok s') :
    InterestOutcome P s inFace interest fibEntry input s' := by
  rw [onIncomingInterest] at h
  dsimp only at h
  split at h
  · cases h
    exact .violating rfl
  · rename_i hscope
    rw [Bool.not_eq_true] at hscope
    split at h
    · cases h
    · rename_i pit r isNew hins
      replace hins : s.base.pit.insert P.cityHash interest = some (pit, r, isNew) := hins
      split at h
      · cases h
      · rename_i e he
        rw [onPitEntry] at h
        split at h
        · cases h
          exact .looping r pit isNew e hins he rfl
        · rename_i hnonce
          rw [Bool.not_eq_true] at hnonce
          have haccepts : Accepts P s inFace interest r e := ⟨hscope, ⟨pit, isNew, hins, he⟩, hnonce⟩
          dsimp only at h
          split at h
          · split at h
            · exact onContentStoreHit_outcome (P.store.find s.base.cs s.now interest).1 hins he haccepts h
            · rename_i hmiss
              exact onContentStoreMiss_outcome (P.store.find s.base.cs s.now interest).1 hins he
                ⟨hscope, haccepts.2.1, hnonce, fun _ => hmiss⟩ h
          · rename_i hpending
            exact onContentStoreMiss_outcome s.base.cs hins he
              ⟨hscope, haccepts.2.1, hnonce, fun hempty => absurd hempty hpending⟩ h

end StrategyForwarder
end NfdPitless
