import NfdPitless.HousedMeasurements
import NfdPitless.NccIntervals

/-! The straggler timers of PIT entries in the forwarder with its strategies. A step sets or cancels those of the
entries that it is about; any other entry keeps its timer for as long as it is in the table, and its address is not used
again. An entry that a Data matches waits for stragglers afterwards. -/

namespace NfdPitless

open Forwarder StrategyState
open Strategy (sendInterest)

variable {κ : Type} {P : Platform κ} {touched touched' : Ref → Prop} {r x : Ref} {inFace : Face} {data : Data}

/-- From `s` to `s'` no address is used again, and the PIT entries that are not touched keep their straggler timers. -/
structure Leaves (touched : Ref → Prop) (s s' : ForwarderState κ) : Prop where
  nextRef_le : s.pit.nextRef ≤ s'.pit.nextRef
  entry : ∀ {x e'}, x < s.pit.nextRef → s'.pit.entries x = some e' →
    ∃ e, s.pit.entries x = some e ∧ (touched x ∨ e'.stragglerTimer = e.stragglerTimer)

namespace Leaves

variable {s s' s'' : ForwarderState κ}

theorem of_pit_eq (hpit : s'.pit = s.pit) : Leaves touched s s' where
  nextRef_le := hpit ▸ le_rfl
  entry {_ e'} _ he' := ⟨e', hpit ▸ he', Or.inr rfl⟩

theorem refl (touched : Ref → Prop) (s : ForwarderState κ) : Leaves touched s s := of_pit_eq rfl

theorem trans (h : Leaves touched s s') (h' : Leaves touched s' s'') : Leaves touched s s'' where
  nextRef_le := h.nextRef_le.trans h'.nextRef_le
  entry {x e''} hx he'' := by
    obtain ⟨e', he', hlast⟩ := h'.entry (hx.trans_le h.nextRef_le) he''
    obtain ⟨e, he, hfirst⟩ := h.entry hx he'
    refine ⟨e, he, ?_⟩
    rcases hlast with htouched | hlast
    · exact Or.inl htouched
    · exact hfirst.imp_right hlast.trans

theorem mono (h : Leaves touched s s') (hmono : ∀ x, touched x → touched' x) : Leaves touched' s s' where
  nextRef_le := h.nextRef_le
  entry hx he' := by
    obtain ⟨e, he, hcases⟩ := h.entry hx he'
    exact ⟨e, he, hcases.imp_left (hmono _)⟩

/-- One PIT entry changes. -/
theorem modifyEntry (s : ForwarderState κ) (r : Ref) {f : PitEntry → PitEntry}
    (hf : touched r ∨ ∀ e, (f e).stragglerTimer = e.stragglerTimer) : Leaves touched s (s.modifyEntry r f) where
  nextRef_le := le_rfl
  entry {x e'} _ he' := by
    rw [entries_modify] at he'
    split at he'
    · rename_i hx
      subst hx
      obtain ⟨e, he, rfl⟩ := Option.map_eq_some_iff.mp he'
      exact ⟨e, he, hf.imp_right fun hsame => hsame e⟩
    · exact ⟨e', he', Or.inr rfl⟩

theorem acted (h : Acted r s s') : Leaves (· = r) s s' where
  nextRef_le := h.nextRef_eq.ge
  entry {x e'} _ he' := by
    by_cases hx : x = r
    · subst hx
      obtain ⟨e, he, -⟩ := h.entry_of he'
      exact ⟨e, he, Or.inl rfl⟩
    · exact ⟨e', (h.other x hx).symm.trans he', Or.inr rfl⟩

/-- A PIT entry is found or made for an Interest. -/
theorem withPit (hl : s.pit.Linked) {interest : Interest} {pit : Pit} {isNew : Bool} {e : PitEntry}
    (hins : s.pit.insert P.cityHash interest = some (pit, r, isNew)) (he : pit.entries r = some e) (inFace : Face) :
    Leaves touched s (withPit s inFace interest pit) where
  nextRef_le := (hl.insert_spec hins he).2.2.1
  entry {x e'} hx he' := by
    refine ⟨e', ?_, Or.inr rfl⟩
    obtain ⟨-, hother, -, -, -, hcases⟩ := hl.insert_spec hins he
    rcases hcases with ⟨-, hentries, -⟩ | ⟨hnew, -, -⟩
    · exact (congrFun hentries x).symm.trans he'
    · have hr : r = s.pit.nextRef := hl.insert_new (hnew ▸ hins)
      exact (hother x (hr ▸ hx.ne)).symm.trans he'

end Leaves

/-- If the PIT entry is in the table, it waits for stragglers from now on. -/
def StrategyState.WaitsForStragglers (s : StrategyState κ) (r : Ref) : Prop :=
  ∀ e, s.entry r = some e → ∃ timer, e.stragglerTimer = some timer ∧ timer.due = s.now + stragglerTime

theorem StrategyChoice.Chosen.base_eq {s s' : StrategyState κ} (h : Chosen s s') : s'.base = s.base := by
  cases h with
  | same heq => rw [heq]
  | changed entryPrefix entry oldStrategy newStrategy _ _ heq =>
      rw [heq]
      exact (changeEffective_spec s entryPrefix oldStrategy newStrategy).1

section Strategies

variable {s s' : StrategyState κ} {input : TriggerInput}

/-- An Interest that is sent renews an out-record, and nothing else of the PIT. -/
theorem sendInterest_leaves (s : StrategyState κ) (outFace : Face) :
    Ends (fun _ => True) (fun s' => Leaves touched s.base s'.base) (sendInterest P s r outFace) := by
  rw [sendInterest]
  cases hsend : onOutgoingInterest P s.base r outFace none with
  | none => trivial
  | some base =>
      show Leaves touched s.base base
      rcases onOutgoingInterest_cases hsend with rfl | ⟨e, interest, -, -, rfl⟩
      · exact Leaves.refl touched _
      · have hrecord : Leaves touched s.base (s.base.modifyEntry r fun e =>
            e.insertOrUpdateOutRecord s.base.now outFace interest) := Leaves.modifyEntry s.base r (Or.inr fun _ => rfl)
        exact hrecord.trans (Leaves.of_pit_eq rfl)

theorem sendIfFound_leaves (s : StrategyState κ) (found : Option Face) :
    Ends (fun _ => True) (fun s' => Leaves touched s.base s'.base) (found.elim (.ok s) (sendInterest P s r)) := by
  cases found with
  | none => exact Leaves.refl touched _
  | some outFace => exact sendInterest_leaves s outFace

/-- The timers of the strategies only send. -/
theorem Strategy.callback_leaves (s : StrategyState κ) (input : TriggerInput) (callback : StrategyCallback) :
    Ends (fun _ => True) (fun s' => Leaves touched s.base s'.base) (Strategy.callback P s input callback) := by
  cases callback with
  | afterRtoTimeout pitWeak fibWeak inFace firstOutFace =>
      rw [Strategy.callback, AccessStrategy.afterRtoTimeout]
      split
      · trivial
      · split
        · exact Leaves.refl touched _
        · refine Ends.foldlM (I := fun s' : StrategyState κ => Leaves touched s.base s'.base) (fun s' face _ h => ?_)
            (Leaves.refl touched _)
          rw [AccessStrategy.sendExcept]
          split
          · exact h
          · exact (sendInterest_leaves s' face).mono fun _ hsend => h.trans hsend
  | doPropagate pitWeak fibWeak =>
      rw [Strategy.callback, NccStrategy.doPropagate]
      split
      · split
        · trivial
        · have hsend : Ends (fun _ => True) (fun s' => Leaves touched s.base s'.base)
            ((input.measurementsInfo.previousFace.filter
              (NccStrategy.isUsable P s fibWeak pitWeak)).elim (.ok s) (sendInterest P s pitWeak)) :=
                sendIfFound_leaves s _
          refine hsend.bind fun s' hprevious => ?_
          split
          · exact hprevious
          · exact (sendInterest_leaves s' _).map fun _ hsend => hprevious.trans hsend
      · exact Leaves.refl touched _
  | timeoutOnBestFace pitWeak => exact Leaves.refl touched _

end Strategies

namespace StrategyForwarder

variable {s s' : StrategyState κ} {fibEntry : Ref} {interest : Interest} {input : TriggerInput} {e : PitEntry}

theorem admitted_leaves (hl : s.base.pit.Linked) {pit : Pit} {isNew : Bool}
    (hins : s.base.pit.insert P.cityHash interest = some (pit, r, isNew)) (he : pit.entries r = some e) (cs : κ) :
    Leaves (· = r) s.base (admitted s inFace interest pit cs r).base := by
  have hfound : Leaves (· = r) s.base { withPit s.base inFace interest pit with cs } :=
    (Leaves.withPit hl hins he inFace).trans (Leaves.of_pit_eq rfl)
  exact hfound.trans (Leaves.modifyEntry _ r (Or.inl rfl))

/-- An Interest that is not dropped touches its PIT entry. -/
theorem incomingInterest_leaves (hl : s.base.pit.Linked)
    (h : onIncomingInterest P s inFace interest fibEntry input = .ok s') :
    Leaves (fun x => ∃ e, Accepts P s inFace interest x e) s.base s'.base := by
  cases onIncomingInterest_outcome h with
  | violating hs' =>
      rw [hs']
      exact Leaves.of_pit_eq rfl
  | looping r pit isNew e hins he hs' =>
      rw [hs']
      exact Leaves.withPit hl hins he inFace
  | answered r pit isNew e cs data strategy hins he haccepts hs' =>
      have hset : Leaves (· = r) s.base (setStragglerTimer (admitted s inFace interest pit cs r).base r true
          data.freshnessPeriod) := (admitted_leaves hl hins he cs).trans (Leaves.modifyEntry _ r (Or.inl rfl))
      rw [hs']
      refine (hset.trans (Leaves.of_pit_eq (onOutgoingData_pit _ data inFace))).mono ?_
      rintro x rfl
      exact ⟨e, haccepts⟩
  | received r pit isNew e cs strategy hins he hreceives heff hok =>
      have hrecorded : Leaves (· = r) s.base (atTrigger s inFace interest pit cs r).base :=
        ((admitted_leaves hl hins he cs).trans (Leaves.modifyEntry _ r (Or.inl rfl))).trans
          (Leaves.modifyEntry _ r (Or.inl rfl))
      have hkept := (KeepsChoice.afterReceiveInterest strategy _ inFace fibEntry r input).of_ok hok
      refine (hrecorded.trans (Leaves.acted hkept.acted)).mono ?_
      rintro x rfl
      exact ⟨e, hreceives.accepts⟩

/-! ### Incoming Data -/

/-- The entry that a Data satisfies waits for stragglers from now on, and the others are left alone. -/
theorem satisfyEntry_spec (h : satisfyEntry P inFace data s r = .ok s') :
    s'.now = s.now ∧ Leaves (· = r) s.base s'.base ∧ (∀ x, x ≠ r → s'.entry x = s.entry x) ∧
      s'.WaitsForStragglers r := by
  rw [satisfyEntry] at h
  cases hdispatch : dispatchToStrategy { s with base := cancelUnsatisfyAndStragglerTimer s.base r } r
      fun s strategy => .ok (strategy.beforeSatisfyInterest s r) with
  | error a =>
      rw [hdispatch] at h
      cases h
  | ok s₁ =>
      rw [hdispatch] at h
      cases h
      obtain ⟨e, strategy, -, -, hok⟩ := dispatch_ok hdispatch
      cases hok
      dsimp only
      rw [strategy.beforeSatisfyInterest_base]
      have hq := insertDeadNonceList_queued (P := P) (cancelUnsatisfyAndStragglerTimer s.base r) r true
        data.freshnessPeriod (some inFace)
      generalize insertDeadNonceList P (cancelUnsatisfyAndStragglerTimer s.base r) r true data.freshnessPeriod
        (some inFace) = queued at hq
      have hcancelled : Leaves (· = r) s.base (cancelUnsatisfyAndStragglerTimer s.base r) :=
        Leaves.modifyEntry s.base r (Or.inl rfl)
      have hmodified : Leaves (· = r) queued (queued.modifyEntry r fun e => e.deleteInRecords.deleteOutRecord inFace) :=
        Leaves.modifyEntry queued r (Or.inl rfl)
      have hmarked : Leaves (· = r) queued (markSatisfied queued r inFace) := hmodified.trans (Leaves.of_pit_eq rfl)
      refine ⟨hq.now_eq, ?_, fun x hx => ?_, fun e' he' => ?_⟩
      · exact ((hcancelled.trans (Leaves.of_pit_eq hq.pit_eq)).trans hmarked).trans
          (Leaves.modifyEntry _ r (Or.inl rfl))
      · have hentries : (markSatisfied queued r inFace).pit.entries x = queued.pit.entries x := by
          exact (entries_modify queued r _ x).trans (if_neg hx)
        rw [StrategyState.entry, setStragglerTimer, entries_modify, if_neg hx, hentries, hq.pit_eq]
        exact (entries_modify s.base r _ x).trans (if_neg hx)
      · rw [StrategyState.entry, setStragglerTimer, entries_modify, if_pos rfl] at he'
        obtain ⟨e₁, -, rfl⟩ := Option.map_eq_some_iff.mp he'
        exact ⟨_, rfl, rfl⟩

theorem satisfyEntry_waits (h : satisfyEntry P inFace data s x = .ok s') (hr : s.WaitsForStragglers r) :
    s'.WaitsForStragglers r := by
  obtain ⟨hnow, -, hother, hwaits⟩ := satisfyEntry_spec h
  by_cases hx : r = x
  · rw [hx]
    exact hwaits
  · intro e' he'
    rw [hnow]
    exact hr e' ((hother r hx).symm.trans he')

/-- A round of the loop over the PIT matches. -/
theorem satisfyRound_ends {Q : StrategyState κ → Prop} (acc : StrategyState κ × List Face)
    (h : ∀ s', satisfyEntry P inFace data acc.1 r = .ok s' → Q s') :
    Ends (fun _ => True) (fun acc' => Q acc'.1) (satisfyRound P inFace data acc r) := by
  rw [satisfyRound]
  cases hround : satisfyEntry P inFace data acc.1 r with
  | error a => trivial
  | ok s' => exact h s' hround

/-- The loop over the PIT matches. -/
theorem satisfyRounds_ends (acc : StrategyState κ × List Face) (pitMatches : List Ref) :
    Ends (fun _ => True) (fun acc' => acc'.1.now = acc.1.now ∧ Leaves (· ∈ pitMatches) acc.1.base acc'.1.base)
      (pitMatches.foldlM (satisfyRound P inFace data) acc) := by
  refine Ends.foldlM (I := fun acc' : StrategyState κ × List Face => acc'.1.now = acc.1.now ∧
    Leaves (· ∈ pitMatches) acc.1.base acc'.1.base) (fun acc' r hr hacc => ?_) ⟨rfl, Leaves.refl _ _⟩
  refine satisfyRound_ends (Q := fun s' => s'.now = acc.1.now ∧ Leaves (· ∈ pitMatches) acc.1.base s'.base) acc'
    fun s' hround => ?_
  obtain ⟨hnow, hleaves, -⟩ := satisfyEntry_spec hround
  exact ⟨hnow.trans hacc.1, hacc.2.trans (hleaves.mono fun x hx => hx ▸ hr)⟩

theorem satisfyRounds_waits (acc : StrategyState κ × List Face) {pitMatches : List Ref} (hr : r ∈ pitMatches) :
    Ends (fun _ => True) (fun acc' => acc'.1.WaitsForStragglers r)
      (pitMatches.foldlM (satisfyRound P inFace data) acc) := by
  refine Ends.foldlM_mem (Q := fun acc' : StrategyState κ × List Face => acc'.1.WaitsForStragglers r) hr
    (fun acc' => ?_) (fun acc' x hacc => ?_) (fun acc' x => ?_) acc
  · exact satisfyRound_ends acc' fun s' hround => (satisfyEntry_spec hround).2.2.2
  · exact satisfyRound_ends acc' fun s' hround => satisfyEntry_waits hround hacc
  · exact satisfyRound_ends (Q := fun _ => True) acc' fun s' _ => trivial

/-- The state in which a Data that matches PIT entries has been cached. -/
def cached (P : Platform κ) (s : StrategyState κ) (inFace : Face) (data : Data) : StrategyState κ :=
  { s with base := { s.base.logged (.inData inFace data) with cs := P.store.insert s.base.cs s.now data false } }

/-- A Data matches nothing, or the entries that it matches are satisfied one after the other. -/
theorem onIncomingData_cases (h : onIncomingData P s inFace data = .ok s') :
    (matchedBy P s.base inFace data = [] ∧ s'.now = s.now ∧ s'.base.pit = s.base.pit) ∨
      ∃ result, (matchedBy P s.base inFace data).foldlM (satisfyRound P inFace data) (cached P s inFace data, []) =
        .ok result ∧ s' = { result.1 with base := sendToDownstreams P inFace data result.2 result.1.base } := by
  rw [onIncomingData] at h
  rw [matchedBy]
  dsimp only at h
  split at h
  · rename_i hscope
    cases h
    rw [if_pos hscope]
    exact Or.inl ⟨rfl, rfl, rfl⟩
  · rename_i hscope
    rw [if_neg hscope]
    split at h
    · rename_i hempty
      cases h
      exact Or.inl ⟨hempty, onDataUnsolicited_now _ inFace data, onDataUnsolicited_pit _ inFace data⟩
    · replace h : ((s.base.pit.findAllDataMatches P.cityHash P.matchesData data).foldlM (satisfyRound P inFace data)
        (cached P s inFace data, [])).map (fun result =>
          { result.1 with base := sendToDownstreams P inFace data result.2 result.1.base }) = .ok s' := h
      cases hloop : (s.base.pit.findAllDataMatches P.cityHash P.matchesData data).foldlM (satisfyRound P inFace data)
          (cached P s inFace data, []) with
      | error a =>
          rw [hloop] at h
          cases h
      | ok result =>
          rw [hloop] at h
          cases h
          exact Or.inr ⟨result, rfl, rfl⟩

/-- The entries that a Data matches are touched: where one is in the table, it waits for stragglers from now on. -/
theorem incomingData_leaves (h : onIncomingData P s inFace data = .ok s') :
    s'.now = s.now ∧ Leaves (· ∈ matchedBy P s.base inFace data) s.base s'.base ∧
      ∀ r ∈ matchedBy P s.base inFace data, s'.WaitsForStragglers r := by
  rcases onIncomingData_cases h with ⟨hempty, hnow, hpit⟩ | ⟨result, hloop, rfl⟩
  · rw [hempty]
    exact ⟨hnow, Leaves.of_pit_eq hpit, fun r hr => absurd hr List.not_mem_nil⟩
  · obtain ⟨hsame, hleaves⟩ := (satisfyRounds_ends (cached P s inFace data, []) _).of_ok hloop
    have hcached : Leaves (· ∈ matchedBy P s.base inFace data) s.base (cached P s inFace data).base :=
      Leaves.of_pit_eq rfl
    have hpit := sendToDownstreams_pit (P := P) inFace data result.2 result.1.base
    have hnow : (sendToDownstreams P inFace data result.2 result.1.base).now = result.1.now :=
      sendToDownstreams_now inFace data result.2 result.1.base
    refine ⟨hnow.trans hsame, (hcached.trans hleaves).trans (Leaves.of_pit_eq hpit), fun r hr e' he' => ?_⟩
    rw [StrategyState.entry] at he'
    dsimp only at he'
    rw [hpit] at he'
    obtain ⟨timer, htimer, hdue⟩ := (satisfyRounds_waits (cached P s inFace data, []) hr).of_ok hloop e' he'
    exact ⟨timer, htimer, hdue.trans (congrArg (· + stragglerTime) hnow.symm)⟩

theorem onInterestFinalize_leaves (hl : s.base.pit.Linked) {isSatisfied : Bool} {dataFreshnessPeriod : Int}
    (h : onInterestFinalize P s r isSatisfied dataFreshnessPeriod = .ok s') :
    Leaves (fun _ => False) s.base s'.base := by
  rw [onInterestFinalize] at h
  cases he : s.base.pit.entries r with
  | none =>
      rw [onInterestFinalize_absent he] at h
      cases h
  | some e =>
      obtain ⟨base, -, hbase, -, -, hentries, hnext, -⟩ :=
        onInterestFinalize_spec (P := P) hl he isSatisfied dataFreshnessPeriod
      rw [hbase] at h
      cases h
      refine ⟨hnext.ge, fun {x e'} _ he' => ⟨e', ?_, Or.inr rfl⟩⟩
      rw [hentries, Function.update_apply] at he'
      split at he'
      · cases he'
      · exact he'

theorem onInterestUnsatisfied_leaves (hl : s.base.pit.Linked) (h : onInterestUnsatisfied P s r = .ok s') :
    Leaves (fun _ => False) s.base s'.base := by
  rw [onInterestUnsatisfied] at h
  cases hdispatch : dispatchToStrategy s r fun s strategy => .ok (strategy.beforeExpirePendingInterest s r) with
  | error a =>
      rw [hdispatch] at h
      cases h
  | ok s₁ =>
      rw [hdispatch] at h
      obtain ⟨e, strategy, -, -, hok⟩ := dispatch_ok hdispatch
      cases hok
      exact onInterestFinalize_leaves hl h

/-- The PIT entries that an event is about: the one that an Interest is accepted for, those that a Data matches. -/
def Touches (P : Platform κ) (s : StrategyState κ) : Event → Ref → Prop
  | .incomingInterest inFace interest _ _, x => ∃ e, Accepts P s inFace interest x e
  | .incomingData inFace data, x => x ∈ matchedBy P s.base inFace data
  | _, _ => False

/-- Every step leaves the straggler timers of the PIT entries that it is not about alone. -/
theorem step_leaves (hl : s.base.pit.Linked) {event : Event} (h : step P s event = .ok s') :
    Leaves (Touches P s event) s.base s'.base := by
  cases event with
  | incomingInterest inFace interest fibEntry input => exact incomingInterest_leaves hl h
  | incomingData inFace data => exact (incomingData_leaves h).2.1
  | unsatisfyTimer r =>
      rw [step] at h
      split at h
      · cases h
        exact Leaves.refl _ _
      · split at h
        · exact onInterestUnsatisfied_leaves hl h
        · cases h
          exact Leaves.refl _ _
  | stragglerTimer r =>
      rw [step] at h
      split at h
      · cases h
        exact Leaves.refl _ _
      · split at h
        · exact onInterestFinalize_leaves hl h
        · cases h
          exact Leaves.refl _ _
  | strategyTimer id input =>
      rw [step, fire] at h
      split at h
      · cases h
        exact Leaves.refl _ _
      · rename_i event hdue
        exact (Strategy.callback_leaves (s.cancel (some id)) input event.callback).of_ok h
  | insertStrategy entryPrefix strategy =>
      rcases StrategyChoice.choose_cases s entryPrefix strategy with hnone | ⟨s₁, hsome, hchosen⟩
      · rw [step, hnone] at h
        cases h
      · rw [step, hsome] at h
        cases h
        exact Leaves.of_pit_eq (congrArg ForwarderState.pit hchosen.base_eq)
  | eraseStrategy entryPrefix =>
      rcases StrategyChoice.unchoose_cases s entryPrefix with hnone | hnone | ⟨s₁, hsome, hchosen⟩
      · rw [step, hnone] at h
        cases h
      · rw [step, hnone] at h
        cases h
      · rw [step, hsome] at h
        cases h
        exact Leaves.of_pit_eq (congrArg ForwarderState.pit hchosen.base_eq)
  | _ =>
      cases h
      exact Leaves.of_pit_eq rfl

end StrategyForwarder
end NfdPitless
