import NfdPitless.ForwarderSpec

/-! Every PIT entry of the base forwarder has exactly one pending timer, as long as no Interest that
the Dead Nonce List knows creates a PIT entry: the duplicate Nonce check comes after the insertion, and
its branch leaves a new entry without timer. -/

namespace NfdPitless.Forwarder

variable {κ : Type} {P : Platform κ} {s s' : ForwarderState κ} {r : Ref}

/-- Either the unsatisfy timer or the straggler timer is pending. -/
def OneTimer (e : PitEntry) : Prop :=
  e.unsatisfyTimer.isSome ∧ e.stragglerTimer = none ∨ e.unsatisfyTimer = none ∧ e.stragglerTimer.isSome

/-- One timer, and an entry that waits for its in-records to expire has some. -/
def Timed (e : PitEntry) : Prop := OneTimer e ∧ (e.unsatisfyTimer.isSome → e.inRecords ≠ [])

structure AllTimed (s : ForwarderState κ) : Prop where
  linked : s.pit.Linked
  timed : ∀ {x e}, s.pit.entries x = some e → Timed e

/-- A state whose entries are old ones or have their timer. -/
theorem AllTimed.of_entries (h : AllTimed s) (hl : s'.pit.Linked)
    (hentries : ∀ x e', s'.pit.entries x = some e' → s.pit.entries x = some e' ∨ Timed e') : AllTimed s' := by
  refine ⟨hl, fun {x e'} he' => ?_⟩
  rcases hentries x e' he' with he | htimed
  · exact h.timed he
  · exact htimed

theorem timed_straggler {e : PitEntry} (hu : e.unsatisfyTimer = none) (hs : e.stragglerTimer.isSome) :
    Timed e :=
  ⟨Or.inr ⟨hu, hs⟩, fun h => by rw [hu] at h; cases h⟩

/-- What a strategy does keeps the one timer of its entry. -/
theorem Acted.timed {e : PitEntry} (h : Acted r s s') (he : s.pit.entries r = some e) (htimed : Timed e) :
    ∃ e', s'.pit.entries r = some e' ∧ Timed e' := by
  obtain ⟨e', he', -, hin, -, ⟨hu, hs⟩ | ⟨hu, hs⟩⟩ := h.entry e he
  · refine ⟨e', he', ?_⟩
    rw [Timed, OneTimer, hu, hs, hin]
    exact htimed
  · exact ⟨e', he', timed_straggler hu hs⟩

theorem Acted.allTimed (h : Acted r s s') (hs : AllTimed s) : AllTimed s' := by
  refine hs.of_entries (h.linked hs.linked) fun x e' he' => ?_
  by_cases hx : x = r
  · subst hx
    cases he : s.pit.entries x with
    | none =>
        rw [h.absent he] at he'
        cases he'
    | some e =>
        obtain ⟨e₁, he₁, htimed⟩ := h.timed he (hs.timed he)
        rw [he'] at he₁
        cases he₁
        exact Or.inr htimed
  · exact Or.inl (by rw [← h.other x hx, he'])

/-- A trigger between cancelling the timers and setting the straggler timer leaves the entry with the
straggler timer only. -/
theorem timed_after_trigger {s₁ : ForwarderState κ} {e : PitEntry}
    (hcancel : s.pit.entries r = some e) (hu : e.unsatisfyTimer = none) (h : Acted r s s₁)
    (isSatisfied : Bool) (dataFreshnessPeriod : Int) {e' : PitEntry}
    (he' : (setStragglerTimer s₁ r isSatisfied dataFreshnessPeriod).pit.entries r = some e') : Timed e' := by
  obtain ⟨e₁, he₁, -, -, -, ht⟩ := h.entry e hcancel
  rw [setStragglerTimer, entries_modify, if_pos rfl, he₁] at he'
  cases he'
  refine timed_straggler ?_ rfl
  rcases ht with ⟨hu₁, -⟩ | ⟨hu₁, -⟩
  · exact hu₁.trans hu
  · exact hu₁

/-- Every Nonce that the Dead Nonce List knows arrives on an existing PIT entry. -/
def NoLoopOnNewEntry (P : Platform κ) (s : ForwarderState κ) : Event → Prop
  | .incomingInterest inFace interest _ =>
      isViolatingLocalhost P inFace interest.name = false →
      s.deadNonceList.has P.makeEntry interest.name interest.nonce = true →
      ∃ pit r, s.pit.insert P.cityHash interest = some (pit, r, false)
  | _ => True

theorem findNonce_new (interest : Interest) (nte : Ref) (nonce : UInt32) (face : Face) :
    (PitEntry.new interest nte).findNonce nonce face = .none := rfl

theorem AllTimed.incomingInterest (h : AllTimed s) {inFace : Face} {interest : Interest}
    {actions : List StrategyAction} (hok : NoLoopOnNewEntry P s (.incomingInterest inFace interest actions))
    (hstep : onIncomingInterest P s inFace interest actions = some s') : AllTimed s' := by
  rcases onIncomingInterest_cases hstep with ⟨-, rfl⟩ | ⟨hv, pit, r, isNew, e, hins, he, hcases⟩
  · exact ⟨h.linked, h.timed⟩
  obtain ⟨hlinked, hother, -, -, -, hnew⟩ := h.linked.insert_spec hins he
  rcases hcases with ⟨hdup, rfl⟩ | ⟨-, -, cs, data, s₁, -, hdisp, rfl⟩ | ⟨-, cs, hmiss⟩
  · -- a new entry has no records, so its Nonce was found in the Dead Nonce List
    rcases hnew with ⟨-, hentries, -⟩ | ⟨rfl, -, nte, rfl⟩
    · exact ⟨hlinked, fun {x e'} he' => h.timed (hentries ▸ he')⟩
    · have hdead : s.deadNonceList.has P.makeEntry interest.name interest.nonce = true := by
        simpa [hasDuplicateNonce, findNonce_new] using hdup
      obtain ⟨pit', r', hins'⟩ := hok hv hdead
      rw [hins] at hins'
      cases hins'
  · have hact := dispatch_acted hdisp
    have hcancel : (cancelUnsatisfyAndStragglerTimer { withPit s inFace interest pit with cs } r).pit.entries r =
        some { e with unsatisfyTimer := none, stragglerTimer := none } := by
      rw [cancelUnsatisfyAndStragglerTimer, entries_modify, if_pos rfl]
      simp [withPit, he]
    have hl₁ : s₁.pit.Linked := hact.linked (linked_cancel hlinked r)
    refine h.of_entries ?_ fun x e' he' => ?_
    · rw [onOutgoingData_pit]
      exact linked_setStragglerTimer hl₁ r _ _
    · rw [onOutgoingData_pit] at he'
      by_cases hx : x = r
      · subst hx
        exact Or.inr (timed_after_trigger hcancel rfl hact _ _ he')
      · rw [setStragglerTimer, entries_modify, if_neg hx, hact.other x hx, cancelUnsatisfyAndStragglerTimer,
          entries_modify, if_neg hx] at he'
        exact Or.inl ((hother x hx).symm.trans he')
  · rw [onContentStoreMiss] at hmiss
    have hact := dispatch_acted hmiss
    have hbefore : Timed { e with
        inRecords := (e.insertOrUpdateInRecord s.now inFace interest).inRecords
        unsatisfyTimer := (Lists.maxElement (fun a b => decide (a.expiry < b.expiry))
          (e.insertOrUpdateInRecord s.now inFace interest).inRecords).map InRecord.expiry
        stragglerTimer := none } := by
      have hne : (e.insertOrUpdateInRecord s.now inFace interest).inRecords ≠ [] :=
        Lists.replaceOrCons_ne_nil _ _ _
      obtain ⟨record, hrecord⟩ := Lists.maxElement_isSome
        (fun a b : InRecord => decide (a.expiry < b.expiry)) hne
      refine ⟨Or.inl ⟨?_, rfl⟩, fun _ => hne⟩
      simp [hrecord]
    refine h.of_entries (hact.linked ?_) fun x e' he' => ?_
    · exact linked_setUnsatisfyTimer (linked_insertInRecord (linked_cancel hlinked r) r _ _ _) r
    · by_cases hx : x = r
      · subst hx
        obtain ⟨e₁, he₁, htimed⟩ := hact.timed (e := _) (by
          simp only [setUnsatisfyTimer, cancelUnsatisfyAndStragglerTimer, entries_modify, if_true, withPit, he,
            Option.map_some]
          rfl) hbefore
        rw [he'] at he₁
        cases he₁
        exact Or.inr htimed
      · rw [hact.other x hx] at he'
        simp only [setUnsatisfyTimer, cancelUnsatisfyAndStragglerTimer, entries_modify, if_neg hx] at he'
        exact Or.inl ((hother x hx).symm.trans he')

/-- One round of the loop over the PIT matches leaves the entry with a straggler timer. -/
theorem AllTimed.satisfyEntry (h : AllTimed s) {inFace : Face} {data : Data}
    {actions : Ref → List StrategyAction} (hstep : satisfyEntry P inFace data actions s r = some s') :
    AllTimed s' := by
  have hlinked := linked_satisfyEntry h.linked hstep
  obtain ⟨s₁, s₂, hact, hq, rfl⟩ := satisfyEntry_cases hstep
  refine h.of_entries hlinked fun x e' he' => ?_
  · by_cases hx : x = r
    · subst hx
      simp only [setStragglerTimer, markSatisfied, ForwarderState.logged, entries_modify, if_true, hq.pit_eq,
        Option.map_map] at he'
      obtain ⟨e₁, he₁, rfl⟩ := Option.map_eq_some_iff.mp he'
      refine Or.inr (timed_straggler ?_ rfl)
      cases he : s.pit.entries x with
      | none =>
          have hnone : s₁.pit.entries x = none := hact.absent (by
            rw [cancelUnsatisfyAndStragglerTimer, entries_modify, if_pos rfl, he]
            rfl)
          rw [hnone] at he₁
          cases he₁
      | some e =>
          obtain ⟨e₂, he₂, -, -, -, ht⟩ := hact.entry { e with unsatisfyTimer := none, stragglerTimer := none }
            (by rw [cancelUnsatisfyAndStragglerTimer, entries_modify, if_pos rfl, he]; rfl)
          rw [he₁] at he₂
          cases he₂
          rcases ht with ⟨hu, -⟩ | ⟨hu, -⟩
          · exact hu
          · exact hu
    · simp only [setStragglerTimer, markSatisfied, ForwarderState.logged, entries_modify, if_neg hx,
        hq.pit_eq] at he'
      rw [hact.other x hx, cancelUnsatisfyAndStragglerTimer, entries_modify, if_neg hx] at he'
      exact Or.inl he'

theorem AllTimed.incomingData (h : AllTimed s) {inFace : Face} {data : Data}
    {actions : Ref → List StrategyAction} (hstep : onIncomingData P s inFace data actions = some s') :
    AllTimed s' := by
  have hsame : ∀ {s₁ : ForwarderState κ}, AllTimed s → s₁.pit = s.pit → AllTimed s₁ := by
    intro s₁ h hpit
    exact ⟨hpit ▸ h.linked, fun he => h.timed (hpit ▸ he)⟩
  rcases onIncomingData_cases hstep with rfl | rfl | ⟨result, hresult, rfl⟩
  · exact hsame h rfl
  · exact hsame h (onDataUnsolicited_pit _ inFace data)
  · have hall : AllTimed result.1 := by
      refine satisfyAll_invariant (I := AllTimed) (fun _ _ _ h hs => h.satisfyEntry hs) _ ?_ hresult
      exact hsame h rfl
    have hpit := sendToDownstreams_pit (P := P) inFace data result.2 result.1
    exact ⟨hpit ▸ hall.linked, fun he => hall.timed (hpit ▸ he)⟩

/-- Finalizing erases the entry and keeps the timers of all others. -/
theorem AllTimed.finalize (h : AllTimed s) {isSatisfied : Bool} {dataFreshnessPeriod : Int}
    (hstep : onInterestFinalize P s r isSatisfied dataFreshnessPeriod = some s') :
    AllTimed s' ∧ s'.pit.entries r = none := by
  cases he : s.pit.entries r with
  | none =>
      rw [onInterestFinalize_absent he] at hstep
      cases hstep
  | some e =>
      obtain ⟨s₁, -, hrun, -, hlinked, hentries, -⟩ := onInterestFinalize_spec (P := P) h.linked he isSatisfied
        dataFreshnessPeriod
      rw [hstep] at hrun
      cases hrun
      refine ⟨h.of_entries hlinked fun x e' he' => ?_, by rw [hentries, Function.update_self]⟩
      rw [hentries] at he'
      by_cases hx : x = r
      · rw [hx, Function.update_self] at he'
        cases he'
      · rw [Function.update_of_ne hx] at he'
        exact Or.inl he'

/-- Every step that meets the condition keeps one timer on every entry. -/
theorem AllTimed.step (h : AllTimed s) {event : Event} (hok : NoLoopOnNewEntry P s event)
    (hstep : step P s event = some s') : AllTimed s' := by
  cases event with
  | incomingInterest inFace interest actions => exact h.incomingInterest hok hstep
  | incomingData inFace data actions => exact h.incomingData hstep
  | unsatisfyTimer r actions =>
      simp only [Forwarder.step] at hstep
      split at hstep
      · cases hstep
      · split at hstep
        · obtain ⟨s₁, hs₁, hfin⟩ := Option.bind_eq_some_iff.mp hstep
          exact (((dispatch_acted hs₁).allTimed h).finalize hfin).1
        · cases hstep
  | stragglerTimer r =>
      simp only [Forwarder.step] at hstep
      split at hstep
      · cases hstep
      · split at hstep
        · exact (h.finalize hstep).1
        · cases hstep
  | strategyTimer r actions => exact (dispatch_acted hstep).allTimed h
  | markDeadNonceList =>
      cases hstep
      exact ⟨h.linked, h.timed⟩
  | adjustDeadNonceListCapacity =>
      cases hstep
      exact ⟨h.linked, h.timed⟩
  | contentStoreTimer key =>
      cases hstep
      exact ⟨h.linked, h.timed⟩
  | setFaceId face id =>
      cases hstep
      exact ⟨h.linked, h.timed⟩
  | advanceClock duration =>
      cases hstep
      exact ⟨h.linked, h.timed⟩

theorem new_allTimed (nBuckets : Nat) (faceId : Face → Option Nat) (cs : κ) :
    AllTimed (ForwarderState.new nBuckets faceId cs) :=
  ⟨Pit.new_linked nBuckets, fun he => by simp [ForwarderState.new, Pit.new] at he⟩

/-- A strategy never fails its assertion on an entry that has in-records. -/
theorem dispatch_total (actions : List StrategyAction) :
    ∀ {s : ForwarderState κ} {e : PitEntry}, s.pit.entries r = some e → e.inRecords ≠ [] →
      ∃ s', dispatchToStrategy P s r actions = some s' := by
  induction actions with
  | nil => exact fun {s} _ _ _ => ⟨s, rfl⟩
  | cons action actions ih =>
      intro s e he hne
      have hact : ∃ s₁, act P r s action = some s₁ := by
        cases action with
        | sendInterest outFace newNonce =>
            obtain ⟨record, hrecord⟩ := Lists.maxElement_isSome (comparePickInterest outFace) hne
            simp only [act, onOutgoingInterest, he, pickInterest, hrecord, Option.map_some]
            split
            · exact ⟨_, rfl⟩
            · split <;> exact ⟨_, rfl⟩
        | rejectPendingInterest =>
            simp only [act, onInterestReject, he]
            split <;> exact ⟨_, rfl⟩
      obtain ⟨s₁, hs₁⟩ := hact
      obtain ⟨e₁, he₁, -, hin, -⟩ := (act_acted hs₁).entry e he
      obtain ⟨s₂, hs₂⟩ := ih he₁ (by rw [hin]; exact hne)
      refine ⟨s₂, ?_⟩
      rw [dispatchToStrategy, List.foldlM_cons, hs₁]
      exact hs₂

/-- Every entry has exactly one pending timer, and when it is due its firing erases the entry. -/
def NoLeak (P : Platform κ) (s : ForwarderState κ) : Prop :=
  ∀ r e, s.pit.entries r = some e → OneTimer e ∧
    (∀ due, e.unsatisfyTimer = some due → due ≤ s.now → ∀ actions,
      ∃ s', step P s (.unsatisfyTimer r actions) = some s' ∧ s'.pit.entries r = none) ∧
    ∀ timer, e.stragglerTimer = some timer → timer.due ≤ s.now →
      ∃ s', step P s (.stragglerTimer r) = some s' ∧ s'.pit.entries r = none

theorem AllTimed.noLeak (h : AllTimed s) : NoLeak P s := by
  intro r e he
  obtain ⟨hone, hrecords⟩ := h.timed he
  refine ⟨hone, fun due hdue hle actions => ?_, fun timer htimer hle => ?_⟩
  · obtain ⟨s₁, hs₁⟩ := dispatch_total (P := P) actions he (hrecords (by simp [hdue]))
    have hact := dispatch_acted hs₁
    obtain ⟨e₁, he₁, -⟩ := hact.entry e he
    obtain ⟨s₂, -, hs₂, -, -, hentries, -⟩ :=
      onInterestFinalize_spec (P := P) (hact.linked h.linked) he₁ false (-1)
    refine ⟨s₂, ?_, by rw [hentries, Function.update_self]⟩
    simp only [Forwarder.step, he, Option.bind_some, hdue, if_pos hle, onInterestUnsatisfied, hs₁, hs₂]
  · obtain ⟨s₂, -, hs₂, -, -, hentries, -⟩ :=
      onInterestFinalize_spec (P := P) h.linked he timer.isSatisfied timer.dataFreshnessPeriod
    refine ⟨s₂, ?_, by rw [hentries, Function.update_self]⟩
    simp only [Forwarder.step, he, Option.bind_some, htimer, if_pos hle, hs₂]

/-- In every run in which no Nonce that the Dead Nonce List knows arrives without a PIT entry, every PIT
entry has exactly one pending timer, whose firing erases it. -/
theorem pit_entries_never_leak (P : Platform κ) (nBuckets : Nat) (faceId : Face → Option Nat) (cs : κ)
    (s : ForwarderState κ)
    (hr : Reach (step P) (NoLoopOnNewEntry P) (ForwarderState.new nBuckets faceId cs) s) : NoLeak P s :=
  (hr.invariant (new_allTimed nBuckets faceId cs) fun _ _ _ h hok hs => h.step hok hs).noLeak

/-- An Interest from face 1 is sent to face 2, expires unanswered, and arrives again. -/
def loopAfterExpiry : List Event :=
  [.incomingInterest 1 (plainInterest [.ofByte 65]) [.sendInterest 2 none], .advanceClock (milliseconds 4000),
    .unsatisfyTimer 0 [], .incomingInterest 3 (plainInterest [.ofByte 65]) []]

/-- Its Nonce is in the Dead Nonce List, and the new PIT entry is left without timer. -/
theorem pit_entry_leaks_on_loop :
    ∃ s, Reach (step Platform.sample) anyStep ForwarderState.sample s ∧ ¬ NoLeak Platform.sample s := by
  have hrun : ((exec (step Platform.sample) ForwarderState.sample loopAfterExpiry).bind fun s =>
      s.pit.entries 1).map (fun e => (e.unsatisfyTimer, e.stragglerTimer)) = some (none, none) := by decide
  obtain ⟨e, hentry, htimers⟩ := Option.map_eq_some_iff.mp hrun
  obtain ⟨s, hs, he⟩ := Option.bind_eq_some_iff.mp hentry
  refine ⟨s, reach_of_exec Reach.start hs, fun hno => ?_⟩
  obtain ⟨hu, hst⟩ := Prod.mk.inj htimers
  obtain ⟨⟨hsome, -⟩ | ⟨-, hsome⟩, -⟩ := hno 1 e he
  · rw [hu] at hsome
    cases hsome
  · rw [hst] at hsome
    cases hsome

/-- The first Interest of that run meets the condition. -/
theorem pit_entries_never_leak_sample :
    ∃ s, step Platform.sample ForwarderState.sample
        (.incomingInterest 1 (plainInterest [.ofByte 65]) [.sendInterest 2 none]) = some s ∧
      (s.pit.entries 0).isSome ∧ NoLeak Platform.sample s := by
  have hrun : ((step Platform.sample ForwarderState.sample
      (.incomingInterest 1 (plainInterest [.ofByte 65]) [.sendInterest 2 none])).bind fun s =>
        s.pit.entries 0).isSome := by decide
  obtain ⟨e, hentry⟩ := Option.isSome_iff_exists.mp hrun
  obtain ⟨s, hs, he⟩ := Option.bind_eq_some_iff.mp hentry
  refine ⟨s, hs, by simp [he], ?_⟩
  refine pit_entries_never_leak Platform.sample 16 some ⟨[], ()⟩ s (Reach.next _ Reach.start ?_ hs)
  intro _ hdead
  have hnot : DeadNonceList.new.has Platform.sample.makeEntry [.ofByte 65] 1 = false := by decide
  cases hnot.symm.trans hdead

end NfdPitless.Forwarder
