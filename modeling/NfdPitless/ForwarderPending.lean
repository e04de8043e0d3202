import NfdPitless.ForwarderScope

/-! How long the base forwarder keeps a pending Interest. Beside the state a run carries when each PIT entry
was last rejected, reset by the next Interest that is accepted for it, and when it was last answered. An
entry that has in-records and was not rejected has its unsatisfy timer due when the last of them expires. -/

namespace NfdPitless.Forwarder

variable {κ : Type} {P : Platform κ} {s s' : ForwarderState κ} {r : Ref}

/-- Whether a trigger rejects its entry: an Interest that was forwarded and is still unanswered cannot be
rejected. -/
def rejectsDuring (P : Platform κ) (r : Ref) : ForwarderState κ → List StrategyAction → Bool
  | _, [] => false
  | s, action :: actions =>
      (action == .rejectPendingInterest && (s.pit.entries r).any fun e => !e.hasUnexpiredOutRecords s.now) ||
        (act P r s action).any fun s => rejectsDuring P r s actions

/-- What becomes of an Interest that is neither dropped nor found to loop. -/
inductive Admission (κ : Type) where
  /-- It is recorded; the strategy of the entry is triggered in this state. -/
  | recorded (r : Ref) (s : ForwarderState κ)
  /-- It is answered from the content store. -/
  | answered (r : Ref)

/-- The state in which an admitted Interest has been recorded. -/
def recordedState (s : ForwarderState κ) (inFace : Face) (interest : Interest) (pit : Pit) (cs : κ) (r : Ref) :
    ForwarderState κ :=
  setUnsatisfyTimer ((cancelUnsatisfyAndStragglerTimer { withPit s inFace interest pit with cs } r).modifyEntry r
    fun e => e.insertOrUpdateInRecord s.now inFace interest) r

/-- The pipeline of an incoming Interest up to the trigger of the strategy. -/
def admission (P : Platform κ) (s : ForwarderState κ) (inFace : Face) (interest : Interest) : Option (Admission κ) :=
  if isViolatingLocalhost P inFace interest.name then none
  else
    (s.pit.insert P.cityHash interest).bind fun inserted =>
      let r := inserted.2.1
      (inserted.1.entries r).bind fun e =>
        if hasDuplicateNonce P s e inFace interest then none
        else
          let recorded := fun cs => Admission.recorded r (recordedState s inFace interest inserted.1 cs r)
          let found := P.store.find s.cs s.now interest
          if e.inRecords = [] then
            match found.2 with
            | some _ => some (.answered r)
            | none => some (recorded found.1)
          else some (recorded s.cs)

/-- The forwarder with what happened to its PIT entries. -/
structure Tracked (κ : Type) where
  state : ForwarderState κ
  /-- When the entry was rejected since its last accepted Interest. -/
  rejected : Ref → Option Nat
  /-- When the entry was last answered by a Data or by the content store. -/
  answered : Ref → Option Nat

def Tracked.start (s : ForwarderState κ) : Tracked κ := ⟨s, fun _ => none, fun _ => none⟩

/-- The PIT entries that a Data satisfies. -/
def matchedBy (P : Platform κ) (s : ForwarderState κ) (inFace : Face) (data : Data) : List Ref :=
  if isViolatingLocalhost P inFace data.name then []
  else s.pit.findAllDataMatches P.cityHash P.matchesData data

/-- A rejection by a trigger that is followed by deleting the in-records or the entry is not kept. -/
def rejectedAfter (P : Platform κ) (t : Tracked κ) : Event → Ref → Option Nat
  | .incomingInterest inFace interest actions =>
      match admission P t.state inFace interest with
      | some (.recorded r s) =>
          Function.update t.rejected r (if rejectsDuring P r s actions then some t.state.now else none)
      | _ => t.rejected
  | .strategyTimer r actions =>
      if rejectsDuring P r t.state actions then Function.update t.rejected r (some t.state.now) else t.rejected
  | _ => t.rejected

def answeredAfter (P : Platform κ) (t : Tracked κ) : Event → Ref → Option Nat
  | .incomingInterest inFace interest _ =>
      match admission P t.state inFace interest with
      | some (.answered r) => Function.update t.answered r (some t.state.now)
      | _ => t.answered
  | .incomingData inFace data _ =>
      fun r => if r ∈ matchedBy P t.state inFace data then some t.state.now else t.answered r
  | _ => t.answered

/-- A step of the forwarder, with what happened to its entries. -/
def track (P : Platform κ) (t : Tracked κ) (event : Event) : Option (Tracked κ) :=
  (step P t.state event).map fun state =>
    { state, rejected := rejectedAfter P t event, answered := answeredAfter P t event }

/-- Every run of the forwarder can be tracked. -/
theorem reach_track {init : ForwarderState κ} (hr : Reach (step P) anyStep init s) :
    ∃ t, Reach (track P) anyStep (Tracked.start init) t ∧ t.state = s := by
  induction hr with
  | start => exact ⟨_, Reach.start, rfl⟩
  | next e _ _ hs ih =>
      obtain ⟨t, ht, rfl⟩ := ih
      exact ⟨_, ht.next e trivial (by rw [track, hs]; rfl), rfl⟩

/-- What a trigger does to the timers of its entry. -/
theorem dispatch_timers {actions : List StrategyAction} (h : dispatchToStrategy P s r actions = some s')
    {e : PitEntry} (he : s.pit.entries r = some e) :
    ∃ e', s'.pit.entries r = some e' ∧ e'.inRecords = e.inRecords ∧
      if rejectsDuring P r s actions then
        e'.unsatisfyTimer = none ∧ e'.stragglerTimer = some ⟨s.now + stragglerTime, false, -1⟩
      else e'.unsatisfyTimer = e.unsatisfyTimer ∧ e'.stragglerTimer = e.stragglerTimer := by
  unfold dispatchToStrategy at h
  induction actions generalizing s e with
  | nil =>
      cases h
      exact ⟨e, he, rfl, by simp [rejectsDuring]⟩
  | cons action actions ih =>
      rw [List.foldlM_cons] at h
      obtain ⟨s₁, hact, hrest⟩ := Option.bind_eq_some_iff.mp h
      obtain ⟨e₁, he₁, -, hin₁, -, -⟩ := (act_acted hact).entry e he
      have hnow : s₁.now = s.now := (act_acted hact).now_eq
      obtain ⟨e', he', hin', htimers⟩ := ih hrest he₁
      refine ⟨e', he', hin'.trans hin₁, ?_⟩
      rw [rejectsDuring, hact, Option.any_some]
      rw [hnow] at htimers
      by_cases hlater : rejectsDuring P r s₁ actions = true
      · rw [if_pos hlater] at htimers
        rw [hlater, Bool.or_true, if_pos rfl]
        exact htimers
      · rw [if_neg hlater] at htimers
        rw [Bool.not_eq_true] at hlater
        rw [hlater, Bool.or_false, htimers.1, htimers.2]
        cases action with
        | sendInterest outFace newNonce =>
            rcases onOutgoingInterest_cases hact with rfl | ⟨e₂, interest, -, -, rfl⟩
            · rw [he] at he₁
              cases he₁
              simp
            · rw [ForwarderState.logged, entries_modify, if_pos rfl, he] at he₁
              cases he₁
              exact ⟨rfl, rfl⟩
        | rejectPendingInterest =>
            rw [act, onInterestReject, he] at hact
            dsimp only at hact
            split at hact
            · rename_i hout
              cases hact
              rw [he] at he₁
              cases he₁
              simp [he, hout]
            · rename_i hout
              cases hact
              simp only [setStragglerTimer, cancelUnsatisfyAndStragglerTimer, entries_modify, if_true, he,
                Option.map_some, Option.some.injEq] at he₁
              subst he₁
              simp [he, hout, ForwarderState.modifyEntry]

/-- What an incoming Interest leads to, by its admission. -/
theorem onIncomingInterest_admission {inFace : Face} {interest : Interest} {actions : List StrategyAction}
    (h : onIncomingInterest P s inFace interest actions = some s') :
    (admission P s inFace interest = none ∧ s' = s.logged (.inInterest inFace interest)) ∨
    ∃ pit r isNew e, s.pit.insert P.cityHash interest = some (pit, r, isNew) ∧ pit.entries r = some e ∧
      ((admission P s inFace interest = none ∧ s' = withPit s inFace interest pit) ∨
       (admission P s inFace interest = some (.answered r) ∧ e.inRecords = [] ∧
        ∃ cs data s₁, dispatchToStrategy P (cancelUnsatisfyAndStragglerTimer
            { withPit s inFace interest pit with cs } r) r actions = some s₁ ∧
          s' = onOutgoingData P (setStragglerTimer s₁ r true data.freshnessPeriod) data inFace) ∨
       ∃ cs, admission P s inFace interest = some (.recorded r (recordedState s inFace interest pit cs r)) ∧
        dispatchToStrategy P (recordedState s inFace interest pit cs r) r actions = some s') := by
  unfold onIncomingInterest at h
  unfold admission
  cases hv : isViolatingLocalhost P inFace interest.name with
  | true =>
      simp only [hv, if_true, Option.some.injEq] at h
      exact Or.inl ⟨rfl, h.symm⟩
  | false =>
      simp only [hv, Bool.false_eq_true, if_false] at h
      obtain ⟨⟨pit, r, isNew⟩, hins, h⟩ := Option.bind_eq_some_iff.mp h
      obtain ⟨e, he, h⟩ := Option.bind_eq_some_iff.mp h
      have hins' : s.pit.insert P.cityHash interest = some (pit, r, isNew) := hins
      have he' : pit.entries r = some e := he
      refine Or.inr ⟨pit, r, isNew, e, hins', he', ?_⟩
      simp only [Bool.false_eq_true, if_false, hins', Option.bind_some, he']
      have hdup : hasDuplicateNonce P { s.logged (.inInterest inFace interest) with pit } e inFace interest =
          hasDuplicateNonce P s e inFace interest := rfl
      dsimp only at h
      rw [hdup] at h
      split at h
      · rename_i hd
        exact Or.inl ⟨by rw [if_pos hd], (Option.some.inj h).symm⟩
      · rename_i hd
        rw [if_neg hd]
        split at h
        · rename_i hempty
          rw [if_pos hempty]
          have hfind : P.store.find (cancelUnsatisfyAndStragglerTimer
              { s.logged (.inInterest inFace interest) with pit } r).cs
              (cancelUnsatisfyAndStragglerTimer { s.logged (.inInterest inFace interest) with pit } r).now interest =
                P.store.find s.cs s.now interest := rfl
          rw [hfind] at h
          cases hf : (P.store.find s.cs s.now interest).2 with
          | some data =>
              simp only [hf, onContentStoreHit] at h
              obtain ⟨s₁, hs₁, rfl⟩ := Option.map_eq_some_iff.mp h
              exact Or.inr (Or.inl ⟨rfl, hempty, (P.store.find s.cs s.now interest).1, data, s₁, hs₁, rfl⟩)
          | none =>
              simp only [hf] at h
              exact Or.inr (Or.inr ⟨_, rfl, h⟩)
        · rename_i hne
          rw [if_neg hne]
          exact Or.inr (Or.inr ⟨_, rfl, h⟩)

/-- The time at which the last in-record of an entry expires. -/
def IsLatestExpiry (e : PitEntry) (due : Nat) : Prop :=
  (∃ record ∈ e.inRecords, record.expiry = due) ∧ ∀ record ∈ e.inRecords, record.expiry ≤ due

/-- How the timers of an entry follow from when it was rejected and answered. -/
structure Promised (e : PitEntry) (rejected answered : Option Nat) : Prop where
  latest : ∀ due, e.unsatisfyTimer = some due → IsLatestExpiry e due
  pending : e.inRecords ≠ [] → rejected = none → e.unsatisfyTimer.isSome
  straggler : ∀ timer, e.stragglerTimer = some timer →
    (∃ time, rejected = some time ∧ time + stragglerTime ≤ timer.due) ∨
      e.inRecords = [] ∧ ∃ time, answered = some time ∧ time + stragglerTime ≤ timer.due

structure AllPromised (t : Tracked κ) : Prop where
  linked : t.state.pit.Linked
  promised : ∀ {x e}, t.state.pit.entries x = some e → Promised e (t.rejected x) (t.answered x)

/-- An entry that waits for stragglers after it was answered. -/
structure AnsweredAt (time : Nat) (e : PitEntry) : Prop where
  inRecords_eq : e.inRecords = []
  unsatisfyTimer_eq : e.unsatisfyTimer = none
  straggler : ∀ timer, e.stragglerTimer = some timer → timer.due = time + stragglerTime

theorem AnsweredAt.promised {e : PitEntry} {time : Nat} (h : AnsweredAt time e) (rejected : Option Nat) :
    Promised e rejected (some time) where
  latest due hdue := by
    rw [h.unsatisfyTimer_eq] at hdue
    cases hdue
  pending hne := absurd h.inRecords_eq hne
  straggler timer htimer := Or.inr ⟨h.inRecords_eq, time, rfl, (h.straggler timer htimer).ge⟩

/-- A new entry has no records and no timers. -/
theorem promised_new (interest : Interest) (nte : Ref) (rejected answered : Option Nat) :
    Promised (PitEntry.new interest nte) rejected answered where
  latest due hdue := by simp [PitEntry.new] at hdue
  pending hne := absurd rfl hne
  straggler timer htimer := by simp [PitEntry.new] at htimer

/-- A trigger keeps what the timers promise, once it is known whether it rejected the entry. -/
theorem Promised.dispatch {e : PitEntry} {rejected answered : Option Nat} (h : Promised e rejected answered)
    {actions : List StrategyAction} (hdisp : dispatchToStrategy P s r actions = some s')
    (he : s.pit.entries r = some e) :
    ∃ e', s'.pit.entries r = some e' ∧
      Promised e' (if rejectsDuring P r s actions then some s.now else rejected) answered := by
  obtain ⟨e', he', hin, htimers⟩ := dispatch_timers hdisp he
  refine ⟨e', he', ?_⟩
  split at htimers
  · rename_i hrej
    rw [if_pos hrej]
    refine ⟨fun due hdue => ?_, fun _ hnone => (by cases hnone), fun timer htimer => ?_⟩
    · rw [htimers.1] at hdue
      cases hdue
    · rw [htimers.2] at htimer
      cases htimer
      exact Or.inl ⟨s.now, rfl, le_refl _⟩
  · rename_i hrej
    rw [if_neg hrej]
    refine ⟨fun due hdue => ?_, fun hne hnone => ?_, fun timer htimer => ?_⟩
    · rw [IsLatestExpiry, hin]
      exact h.latest due (htimers.1 ▸ hdue)
    · rw [htimers.1]
      exact h.pending (hin ▸ hne) hnone
    · rw [hin]
      exact h.straggler timer (htimers.2 ▸ htimer)

/-- A PIT entry after an Interest was recorded and its unsatisfy timer set. -/
def recordedEntry (now : Nat) (inFace : Face) (interest : Interest) (e : PitEntry) : PitEntry :=
  { e with
    inRecords := (e.insertOrUpdateInRecord now inFace interest).inRecords
    unsatisfyTimer := (Lists.maxElement (fun a b => decide (a.expiry < b.expiry))
      (e.insertOrUpdateInRecord now inFace interest).inRecords).map InRecord.expiry
    stragglerTimer := none }

theorem recordedState_entries (s : ForwarderState κ) (inFace : Face) (interest : Interest) (pit : Pit) (cs : κ)
    (r x : Ref) : (recordedState s inFace interest pit cs r).pit.entries x =
      if x = r then (pit.entries r).map (recordedEntry s.now inFace interest) else pit.entries x := by
  simp only [recordedState, setUnsatisfyTimer, cancelUnsatisfyAndStragglerTimer, entries_modify, if_true, withPit,
    Option.map_map]
  by_cases hx : x = r
  · rw [if_pos hx, if_pos hx]
    rfl
  · simp only [if_neg hx]

/-- The entry of an Interest that was just recorded. -/
theorem promised_recorded (now : Nat) (inFace : Face) (interest : Interest) (e : PitEntry) (answered : Option Nat) :
    Promised (recordedEntry now inFace interest e) none answered := by
  have hne : (e.insertOrUpdateInRecord now inFace interest).inRecords ≠ [] := Lists.replaceOrCons_ne_nil _ _ _
  obtain ⟨record, hrecord⟩ := Lists.maxElement_isSome (fun a b : InRecord => decide (a.expiry < b.expiry)) hne
  have htimer : (recordedEntry now inFace interest e).unsatisfyTimer = some record.expiry := by
    rw [recordedEntry, hrecord]
    rfl
  refine ⟨fun due hdue => ?_, fun _ _ => by rw [htimer]; rfl, fun timer htimer => by cases htimer⟩
  rw [htimer] at hdue
  cases hdue
  exact ⟨⟨record, Lists.mem_of_maxElement hrecord, rfl⟩, Lists.le_of_maxElement hrecord⟩

/-- What satisfying entries does: the entries of `refs` wait for stragglers, the others are unchanged. -/
structure Satisfies (refs : List Ref) (s s' : ForwarderState κ) : Prop where
  now_eq : s'.now = s.now
  other : ∀ x, x ∉ refs → s'.pit.entries x = s.pit.entries x
  answered : ∀ x ∈ refs, ∀ e, s'.pit.entries x = some e → AnsweredAt s.now e
  present : ∀ x ∈ refs, (s.pit.entries x).isSome → (s'.pit.entries x).isSome

theorem satisfyEntry_satisfies {inFace : Face} {data : Data} {actions : Ref → List StrategyAction}
    (hstep : satisfyEntry P inFace data actions s r = some s') : Satisfies [r] s s' := by
  obtain ⟨s₁, s₂, hact, hq, rfl⟩ := satisfyEntry_cases hstep
  have hnow : s₂.now = s.now := hq.now_eq.trans hact.now_eq
  refine ⟨hnow, fun x hx => ?_, fun x hx e he => ?_, fun x hx hsome => ?_⟩
  · have hne : x ≠ r := fun heq => hx (heq ▸ List.mem_singleton_self r)
    simp only [setStragglerTimer, markSatisfied, ForwarderState.logged, entries_modify, if_neg hne, hq.pit_eq]
    rw [hact.other x hne, cancelUnsatisfyAndStragglerTimer, entries_modify, if_neg hne]
  · rw [List.mem_singleton] at hx
    subst hx
    simp only [setStragglerTimer, markSatisfied, ForwarderState.logged, entries_modify, if_true, hq.pit_eq,
      Option.map_map] at he
    obtain ⟨e₁, he₁, rfl⟩ := Option.map_eq_some_iff.mp he
    obtain ⟨e₀, he₀, -, -⟩ := hact.entry_of he₁
    obtain ⟨e₂, he₂, -, -, -, htimers⟩ := hact.entry e₀ he₀
    rw [he₁] at he₂
    cases he₂
    rw [cancelUnsatisfyAndStragglerTimer, entries_modify, if_pos rfl] at he₀
    obtain ⟨e₃, -, rfl⟩ := Option.map_eq_some_iff.mp he₀
    refine ⟨rfl, ?_, fun timer htimer => ?_⟩
    · rcases htimers with ⟨hu, -⟩ | ⟨hu, -⟩
      · exact hu
      · exact hu
    · cases htimer
      exact congrArg (· + stragglerTime) hnow
  · rw [List.mem_singleton] at hx
    subst hx
    obtain ⟨e, he⟩ := Option.isSome_iff_exists.mp hsome
    obtain ⟨e₁, he₁, -⟩ := hact.entry { e with unsatisfyTimer := none, stragglerTimer := none } (by
      rw [cancelUnsatisfyAndStragglerTimer, entries_modify, if_pos rfl, he]
      rfl)
    simp [setStragglerTimer, markSatisfied, ForwarderState.logged, entries_modify, hq.pit_eq, he₁]

theorem satisfyAll_satisfies {inFace : Face} {data : Data} {actions : Ref → List StrategyAction}
    (pitMatches : List Ref) : ∀ {s : ForwarderState κ} {downstreams : List Face} {result},
      satisfyAll P inFace data actions s downstreams pitMatches = some result →
        Satisfies pitMatches s result.1 := by
  induction pitMatches with
  | nil =>
      intro s downstreams result hrun
      cases hrun
      exact ⟨rfl, fun _ _ => rfl, fun x hx => by simp at hx, fun x hx => by simp at hx⟩
  | cons r pitMatches ih =>
      intro s downstreams result hrun
      rw [satisfyAll] at hrun
      obtain ⟨s₁, hs₁, hrest⟩ := Option.bind_eq_some_iff.mp hrun
      have hfirst := satisfyEntry_satisfies hs₁
      have hlater := ih hrest
      have hsame : ∀ x, x ∉ pitMatches → result.1.pit.entries x = s₁.pit.entries x := hlater.other
      refine ⟨hlater.now_eq.trans hfirst.now_eq, fun x hx => ?_, fun x hx e he => ?_, fun x hx hsome => ?_⟩
      · rw [List.mem_cons, not_or] at hx
        rw [hsame x hx.2, hfirst.other x (by simpa using hx.1)]
      · by_cases hmem : x ∈ pitMatches
        · have hans := hlater.answered x hmem e he
          rwa [hfirst.now_eq] at hans
        · rw [hsame x hmem] at he
          refine hfirst.answered x ?_ e he
          simpa [hmem] using hx
      · have hsome₁ : (s₁.pit.entries x).isSome := by
          by_cases hxr : x = r
          · exact hfirst.present x (by simp [hxr]) hsome
          · rw [hfirst.other x (by simpa using hxr)]
            exact hsome
        by_cases hmem : x ∈ pitMatches
        · exact hlater.present x hmem hsome₁
        · rw [hsame x hmem]
          exact hsome₁

/-- An incoming Data satisfies the entries it matches. -/
theorem onIncomingData_satisfies {inFace : Face} {data : Data} {actions : Ref → List StrategyAction}
    (hstep : onIncomingData P s inFace data actions = some s') :
    Satisfies (matchedBy P s inFace data) s s' := by
  have hnone : ∀ {s₁ : ForwarderState κ} {refs : List Ref}, refs = [] → s₁.pit = s.pit → s₁.now = s.now →
      Satisfies refs s s₁ := by
    intro s₁ refs hrefs hpit hnow
    subst hrefs
    exact ⟨hnow, fun _ _ => by rw [hpit], fun x hx => by simp at hx, fun x hx => by simp at hx⟩
  unfold onIncomingData at hstep
  unfold matchedBy
  dsimp only at hstep
  split at hstep
  · rename_i hv
    rw [if_pos hv, ← Option.some.inj hstep]
    exact hnone rfl rfl rfl
  · rename_i hv
    rw [if_neg hv]
    split at hstep
    · rename_i hempty
      rw [← Option.some.inj hstep]
      exact hnone hempty (onDataUnsolicited_pit _ inFace data) (onDataUnsolicited_now _ inFace data)
    · obtain ⟨result, hresult, rfl⟩ := Option.map_eq_some_iff.mp hstep
      have hsat := satisfyAll_satisfies _ hresult
      have hpit := sendToDownstreams_pit (P := P) inFace data result.2 result.1
      refine ⟨(sendToDownstreams_now inFace data result.2 result.1).trans hsat.now_eq, fun x hx => ?_,
        fun x hx e he => ?_, fun x hx hsome => ?_⟩
      · rw [hpit]
        exact hsat.other x hx
      · rw [hpit] at he
        exact hsat.answered x hx e he
      · rw [hpit]
        exact hsat.present x hx hsome

/-! ### The steps -/

variable {t t' : Tracked κ}

/-- Entries and what is known of them are old, or are known to be as promised. -/
theorem AllPromised.of_entries (h : AllPromised t) (hl : t'.state.pit.Linked)
    (hentries : ∀ x e', t'.state.pit.entries x = some e' →
      (t.state.pit.entries x = some e' ∧ t'.rejected x = t.rejected x ∧ t'.answered x = t.answered x) ∨
        Promised e' (t'.rejected x) (t'.answered x)) : AllPromised t' := by
  refine ⟨hl, fun {x e'} he' => ?_⟩
  rcases hentries x e' he' with ⟨he, hrej, hans⟩ | hpromised
  · rw [hrej, hans]
    exact h.promised he
  · exact hpromised

/-- A new entry is as promised, and the entries of the table that was there are unchanged. -/
theorem AllPromised.inserted (h : AllPromised t) {interest : Interest} {pit : Pit} {isNew : Bool} {e : PitEntry}
    (hins : t.state.pit.insert P.cityHash interest = some (pit, r, isNew)) (he : pit.entries r = some e)
    {x : Ref} {e' : PitEntry} (he' : pit.entries x = some e') : Promised e' (t.rejected x) (t.answered x) := by
  obtain ⟨-, hother, -, -, -, hcases⟩ := h.linked.insert_spec hins he
  by_cases hx : x = r
  · subst hx
    rw [he] at he'
    cases he'
    rcases hcases with ⟨-, -, hold⟩ | ⟨-, -, nte, rfl⟩
    · exact h.promised hold
    · exact promised_new interest nte _ _
  · exact h.promised ((hother x hx).symm.trans he')

theorem AllPromised.incomingInterest (h : AllPromised t) {inFace : Face} {interest : Interest}
    {actions : List StrategyAction} (hstep : onIncomingInterest P t.state inFace interest actions = some s') :
    AllPromised ⟨s', rejectedAfter P t (.incomingInterest inFace interest actions),
      answeredAfter P t (.incomingInterest inFace interest actions)⟩ := by
  have hlinked' := linked_onIncomingInterest h.linked hstep
  rcases onIncomingInterest_admission hstep with ⟨hadm, rfl⟩ | ⟨pit, r, isNew, e, hins, he, hcases⟩
  · simp only [rejectedAfter, answeredAfter, hadm]
    exact ⟨hlinked', h.promised⟩
  obtain ⟨hlinked, hother, -⟩ := h.linked.insert_spec hins he
  rcases hcases with ⟨hadm, rfl⟩ | ⟨hadm, hempty, cs, data, s₁, hdisp, rfl⟩ | ⟨cs, hadm, hdisp⟩
  · simp only [rejectedAfter, answeredAfter, hadm]
    exact ⟨hlinked', fun he' => h.inserted hins he he'⟩
  · simp only [rejectedAfter, answeredAfter, hadm]
    have hact := dispatch_acted hdisp
    refine h.of_entries hlinked' fun x e' he' => ?_
    rw [onOutgoingData_pit, setStragglerTimer, entries_modify] at he'
    by_cases hx : x = r
    · subst hx
      rw [if_pos rfl] at he'
      obtain ⟨e₁, he₁, rfl⟩ := Option.map_eq_some_iff.mp he'
      obtain ⟨e₂, he₂, hin₂, htimers⟩ := dispatch_timers hdisp
        (show (cancelUnsatisfyAndStragglerTimer { withPit t.state inFace interest pit with cs } x).pit.entries x =
          some { e with unsatisfyTimer := none, stragglerTimer := none } by
            rw [cancelUnsatisfyAndStragglerTimer, entries_modify, if_pos rfl]
            simp [withPit, he])
      rw [he₁] at he₂
      cases he₂
      refine Or.inr ?_
      have hanswered : AnsweredAt t.state.now { e₁ with
          stragglerTimer := some ⟨s₁.now + stragglerTime, true, data.freshnessPeriod⟩ } := by
        refine ⟨hin₂.trans hempty, ?_, fun timer htimer => ?_⟩
        · split at htimers
          · exact htimers.1
          · exact htimers.1
        · cases htimer
          exact congrArg (· + stragglerTime) hact.now_eq
      simp only [Function.update_self]
      exact hanswered.promised _
    · rw [if_neg hx, hact.other x hx, cancelUnsatisfyAndStragglerTimer, entries_modify, if_neg hx] at he'
      exact Or.inl ⟨(hother x hx).symm.trans he', rfl, Function.update_of_ne hx _ _⟩
  · simp only [rejectedAfter, answeredAfter, hadm]
    have he₁ : (recordedState t.state inFace interest pit cs r).pit.entries r =
        some (recordedEntry t.state.now inFace interest e) := by
      rw [recordedState_entries, if_pos rfl, he]
      rfl
    obtain ⟨e₂, he₂, hafter⟩ := (promised_recorded _ _ _ e (t.answered r)).dispatch hdisp he₁
    refine h.of_entries hlinked' fun x e' he' => ?_
    by_cases hx : x = r
    · subst hx
      rw [he₂] at he'
      cases he'
      refine Or.inr ?_
      simp only [Function.update_self]
      exact hafter
    · rw [(dispatch_acted hdisp).other x hx, recordedState_entries, if_neg hx] at he'
      exact Or.inl ⟨(hother x hx).symm.trans he', Function.update_of_ne hx _ _, rfl⟩

theorem AllPromised.incomingData (h : AllPromised t) {inFace : Face} {data : Data}
    {actions : Ref → List StrategyAction} (hstep : onIncomingData P t.state inFace data actions = some s') :
    AllPromised ⟨s', rejectedAfter P t (.incomingData inFace data actions),
      answeredAfter P t (.incomingData inFace data actions)⟩ := by
  have hsat := onIncomingData_satisfies hstep
  refine h.of_entries (linked_onIncomingData h.linked hstep) fun x e' he' => ?_
  simp only [rejectedAfter, answeredAfter]
  by_cases hx : x ∈ matchedBy P t.state inFace data
  · rw [if_pos hx]
    exact Or.inr ((hsat.answered x hx e' he').promised _)
  · rw [if_neg hx]
    exact Or.inl ⟨(hsat.other x hx).symm.trans he', by simp⟩

theorem AllPromised.strategyTimer (h : AllPromised t) {actions : List StrategyAction}
    (hstep : dispatchToStrategy P t.state r actions = some s') :
    AllPromised ⟨s', rejectedAfter P t (.strategyTimer r actions), answeredAfter P t (.strategyTimer r actions)⟩ := by
  have hact := dispatch_acted hstep
  refine h.of_entries (hact.linked h.linked) fun x e' he' => ?_
  by_cases hx : x = r
  · subst hx
    obtain ⟨e, he, -⟩ := hact.entry_of he'
    obtain ⟨e₁, he₁, hafter⟩ := (h.promised he).dispatch hstep he
    rw [he'] at he₁
    cases he₁
    refine Or.inr ?_
    simp only [rejectedAfter, answeredAfter]
    split at hafter
    · rename_i hrej
      rw [if_pos hrej, Function.update_self]
      exact hafter
    · rename_i hrej
      rw [if_neg hrej]
      exact hafter
  · refine Or.inl ⟨(hact.other x hx).symm.trans he', ?_, rfl⟩
    simp only [rejectedAfter]
    split
    · exact Function.update_of_ne hx _ _
    · rfl

/-- Finalizing erases one entry and keeps all others. -/
theorem finalize_entries (hl : s.pit.Linked) {isSatisfied : Bool} {dataFreshnessPeriod : Int}
    (hstep : onInterestFinalize P s r isSatisfied dataFreshnessPeriod = some s') :
    s'.pit.Linked ∧ s'.pit.entries = Function.update s.pit.entries r none ∧ s'.now = s.now := by
  cases he : s.pit.entries r with
  | none =>
      rw [onInterestFinalize_absent he] at hstep
      cases hstep
  | some e =>
      obtain ⟨s₂, s₁, hrun, -, hlinked, hentries, -, hnow, -⟩ :=
        onInterestFinalize_spec (P := P) hl he isSatisfied dataFreshnessPeriod
      rw [hstep] at hrun
      cases hrun
      exact ⟨hlinked, hentries, hnow⟩

theorem AllPromised.finalized (h : AllPromised t) (hl : s'.pit.Linked)
    (hentries : ∀ x, x ≠ r → s'.pit.entries x = t.state.pit.entries x) (hgone : s'.pit.entries r = none) :
    AllPromised ⟨s', t.rejected, t.answered⟩ := by
  refine h.of_entries hl fun x e' he' => ?_
  by_cases hx : x = r
  · rw [show s'.pit.entries x = none from hx ▸ hgone] at he'
    cases he'
  · exact Or.inl ⟨(hentries x hx).symm.trans he', rfl, rfl⟩

/-- What a timer does when it fires: the entry is erased and the others are unchanged. -/
theorem step_timer (hl : s.pit.Linked) {event : Event}
    (hevent : (∃ actions, event = .unsatisfyTimer r actions) ∨ event = .stragglerTimer r)
    (hstep : step P s event = some s') :
    s'.pit.Linked ∧ (∀ x, x ≠ r → s'.pit.entries x = s.pit.entries x) ∧ s'.pit.entries r = none ∧ s'.now = s.now ∧
      ∃ e, s.pit.entries r = some e ∧ ((∃ due, e.unsatisfyTimer = some due ∧ due ≤ s.now) ∨
        ∃ timer, e.stragglerTimer = some timer ∧ timer.due ≤ s.now) := by
  rcases hevent with ⟨actions, rfl⟩ | rfl
  · simp only [step] at hstep
    split at hstep
    · cases hstep
    · rename_i due hdue
      obtain ⟨e, he, hdue⟩ := Option.bind_eq_some_iff.mp hdue
      split at hstep
      · rename_i hle
        obtain ⟨s₁, hs₁, hfin⟩ := Option.bind_eq_some_iff.mp hstep
        have hact := dispatch_acted hs₁
        obtain ⟨hlinked, hentries, hnow⟩ := finalize_entries (hact.linked hl) hfin
        refine ⟨hlinked, fun x hx => ?_, by rw [hentries, Function.update_self], hnow.trans hact.now_eq, e, he,
          Or.inl ⟨due, hdue, hle⟩⟩
        rw [hentries, Function.update_of_ne hx, hact.other x hx]
      · cases hstep
  · simp only [step] at hstep
    split at hstep
    · cases hstep
    · rename_i timer htimer
      obtain ⟨e, he, htimer⟩ := Option.bind_eq_some_iff.mp htimer
      split at hstep
      · rename_i hle
        obtain ⟨hlinked, hentries, hnow⟩ := finalize_entries hl hstep
        refine ⟨hlinked, fun x hx => ?_, by
          rw [hentries, Function.update_self], hnow, e, he, Or.inr ⟨timer, htimer, hle⟩⟩
        rw [hentries, Function.update_of_ne hx]
      · cases hstep

theorem AllPromised.step (h : AllPromised t) {event : Event} (hstep : track P t event = some t') :
    AllPromised t' := by
  obtain ⟨s', hs', rfl⟩ := Option.map_eq_some_iff.mp hstep
  cases event with
  | incomingInterest inFace interest actions => exact h.incomingInterest hs'
  | incomingData inFace data actions => exact h.incomingData hs'
  | unsatisfyTimer r actions =>
      obtain ⟨hlinked, hentries, hgone, -⟩ := step_timer h.linked (Or.inl ⟨actions, rfl⟩) hs'
      exact h.finalized hlinked hentries hgone
  | stragglerTimer r =>
      obtain ⟨hlinked, hentries, hgone, -⟩ := step_timer h.linked (Or.inr rfl) hs'
      exact h.finalized hlinked hentries hgone
  | strategyTimer r actions => exact h.strategyTimer hs'
  | markDeadNonceList =>
      cases hs'
      exact ⟨h.linked, h.promised⟩
  | adjustDeadNonceListCapacity =>
      cases hs'
      exact ⟨h.linked, h.promised⟩
  | contentStoreTimer key =>
      cases hs'
      exact ⟨h.linked, h.promised⟩
  | setFaceId face id =>
      cases hs'
      exact ⟨h.linked, h.promised⟩
  | advanceClock duration =>
      cases hs'
      exact ⟨h.linked, h.promised⟩

theorem start_allPromised (nBuckets : Nat) (faceId : Face → Option Nat) (cs : κ) :
    AllPromised (Tracked.start (ForwarderState.new nBuckets faceId cs)) :=
  ⟨Pit.new_linked nBuckets, fun he => by simp [Tracked.start, ForwarderState.new, Pit.new] at he⟩

/-! ### Records and leaving -/

/-- An Interest of `face` is accepted for the entry `r`: it renews the in-record of the face. -/
def Renews (P : Platform κ) (r : Ref) (face : Face) (s : ForwarderState κ) (event : Event) : Prop :=
  ∃ interest actions s₁, event = .incomingInterest face interest actions ∧
    admission P s face interest = some (.recorded r s₁)

/-- A Data matches the entry `r`. -/
def Matches (P : Platform κ) (r : Ref) (s : ForwarderState κ) (event : Event) : Prop :=
  ∃ inFace data actions, event = .incomingData inFace data actions ∧ r ∈ matchedBy P s inFace data

/-- A timer of the entry `r` is due when it fires. -/
def Fires (e : PitEntry) (now : Nat) : Prop :=
  (∃ due, e.unsatisfyTimer = some due ∧ due ≤ now) ∨ ∃ timer, e.stragglerTimer = some timer ∧ timer.due ≤ now

/-- An in-record of `e` is still in the entry, or was satisfied or renewed by the event. -/
def RecordsAfter (P : Platform κ) (r : Ref) (s : ForwarderState κ) (event : Event) (e : PitEntry)
    (s' : ForwarderState κ) : Prop :=
  ∃ e', s'.pit.entries r = some e' ∧ ∀ record ∈ e.inRecords,
    record ∈ e'.inRecords ∨ Matches P r s event ∨ Renews P r record.face s event

theorem recordsAfter_of_eq {event : Event} {e e' : PitEntry} (he' : s'.pit.entries r = some e')
    (hin : e'.inRecords = e.inRecords) : RecordsAfter P r s event e s' :=
  ⟨e', he', fun _ hrecord => Or.inl (hin ▸ hrecord)⟩

theorem recordsAfter_incomingInterest (hl : s.pit.Linked) {inFace : Face} {interest : Interest}
    {actions : List StrategyAction} (hstep : onIncomingInterest P s inFace interest actions = some s') {e : PitEntry}
    (he : s.pit.entries r = some e) : RecordsAfter P r s (.incomingInterest inFace interest actions) e s' := by
  rcases onIncomingInterest_admission hstep with ⟨-, rfl⟩ | ⟨pit, x, isNew, e₀, hins, he₀, hcases⟩
  · exact recordsAfter_of_eq he rfl
  obtain ⟨-, hother, -, -, -, hnew⟩ := hl.insert_spec hins he₀
  have hold : pit.entries r = some e := by
    by_cases hx : r = x
    · subst hx
      rcases hnew with ⟨-, hentries, -⟩ | ⟨-, hnone, -⟩
      · rw [hentries, he]
      · rw [hnone] at he
        cases he
    · rw [hother r hx, he]
  rcases hcases with ⟨-, rfl⟩ | ⟨-, -, cs, data, s₁, hdisp, rfl⟩ | ⟨cs, hadm, hdisp⟩
  · exact recordsAfter_of_eq hold rfl
  · obtain ⟨e₁, he₁, hin₁⟩ : ∃ e₁, (cancelUnsatisfyAndStragglerTimer
        { withPit s inFace interest pit with cs } x).pit.entries r = some e₁ ∧ e₁.inRecords = e.inRecords := by
      rw [cancelUnsatisfyAndStragglerTimer, entries_modify]
      split
      · rename_i hx
        subst hx
        exact ⟨{ e with unsatisfyTimer := none, stragglerTimer := none },
          by simp only [withPit, hold, Option.map_some], rfl⟩
      · exact ⟨e, hold, rfl⟩
    obtain ⟨e₂, he₂, hin₂⟩ := (dispatch_acted hdisp).keeps r e₁ he₁
    obtain ⟨e₃, he₃, hin₃⟩ : ∃ e₃, (setStragglerTimer s₁ x true data.freshnessPeriod).pit.entries r = some e₃ ∧
        e₃.inRecords = e₂.inRecords := by
      rw [setStragglerTimer, entries_modify]
      split
      · rename_i hx
        subst hx
        rw [he₂]
        exact ⟨_, rfl, rfl⟩
      · exact ⟨e₂, he₂, rfl⟩
    exact recordsAfter_of_eq (by rw [onOutgoingData_pit, he₃]) (hin₃.trans (hin₂.trans hin₁))
  · by_cases hx : r = x
    · subst hx
      obtain ⟨e₂, he₂, hin₂⟩ := (dispatch_acted hdisp).keeps r (recordedEntry s.now inFace interest e) (by
        rw [recordedState_entries, if_pos rfl, hold]
        rfl)
      refine ⟨e₂, he₂, fun record hrecord => ?_⟩
      by_cases hface : record.face = inFace
      · subst hface
        exact Or.inr (Or.inr ⟨interest, actions, _, rfl, hadm⟩)
      · refine Or.inl ?_
        rw [hin₂]
        exact Lists.mem_replaceOrCons_of_not hrecord (by simpa [InRecord.update] using hface)
    · obtain ⟨e₂, he₂, hin₂⟩ := (dispatch_acted hdisp).keeps r e (by rw [recordedState_entries, if_neg hx, hold])
      exact recordsAfter_of_eq he₂ hin₂

/-- What one step can do to an in-record: an entry leaves when a timer fires, and an entry that stays keeps
its in-records but for those that a Data satisfies or an Interest renews. -/
theorem record_after (hl : s.pit.Linked) {event : Event} (hstep : step P s event = some s') {e : PitEntry}
    (he : s.pit.entries r = some e) :
    (s'.pit.entries r = none ∧ Fires e s.now ∧ s'.now = s.now) ∨ RecordsAfter P r s event e s' := by
  have htimer : ∀ {x : Ref}, (∃ actions, event = .unsatisfyTimer x actions) ∨ event = .stragglerTimer x →
      (s'.pit.entries r = none ∧ Fires e s.now ∧ s'.now = s.now) ∨ RecordsAfter P r s event e s' := by
    intro x hevent
    obtain ⟨-, hentries, hgone, hnow, e₁, he₁, hfires⟩ := step_timer hl hevent hstep
    by_cases hx : r = x
    · subst hx
      rw [he] at he₁
      cases he₁
      exact Or.inl ⟨hgone, hfires, hnow⟩
    · exact Or.inr (recordsAfter_of_eq ((hentries r hx).trans he) rfl)
  cases event with
  | incomingInterest inFace interest actions => exact Or.inr (recordsAfter_incomingInterest hl hstep he)
  | incomingData inFace data actions =>
      have hsat := onIncomingData_satisfies hstep
      by_cases hmem : r ∈ matchedBy P s inFace data
      · obtain ⟨e', he'⟩ := Option.isSome_iff_exists.mp (hsat.present r hmem (by simp [he]))
        exact Or.inr ⟨e', he', fun _ _ => Or.inr (Or.inl ⟨inFace, data, actions, rfl, hmem⟩)⟩
      · exact Or.inr (recordsAfter_of_eq ((hsat.other r hmem).trans he) rfl)
  | unsatisfyTimer x actions => exact htimer (Or.inl ⟨actions, rfl⟩)
  | stragglerTimer x => exact htimer (Or.inr rfl)
  | strategyTimer x actions =>
      obtain ⟨e', he', hin⟩ := (dispatch_acted hstep).keeps r e he
      exact Or.inr (recordsAfter_of_eq he' hin)
  | markDeadNonceList =>
      cases hstep
      exact Or.inr (recordsAfter_of_eq he rfl)
  | adjustDeadNonceListCapacity =>
      cases hstep
      exact Or.inr (recordsAfter_of_eq he rfl)
  | contentStoreTimer key =>
      cases hstep
      exact Or.inr (recordsAfter_of_eq he rfl)
  | setFaceId face id =>
      cases hstep
      exact Or.inr (recordsAfter_of_eq he rfl)
  | advanceClock duration =>
      cases hstep
      exact Or.inr (recordsAfter_of_eq he rfl)

theorem step_now_le (hl : s.pit.Linked) {event : Event} (hstep : step P s event = some s') : s.now ≤ s'.now := by
  cases event with
  | incomingInterest inFace interest actions =>
      rcases onIncomingInterest_admission hstep with ⟨-, rfl⟩ | ⟨pit, x, isNew, e, -, -, hcases⟩
      · exact le_refl _
      · rcases hcases with ⟨-, rfl⟩ | ⟨-, -, cs, data, s₁, hdisp, rfl⟩ | ⟨cs, -, hdisp⟩
        · exact le_refl _
        · rw [onOutgoingData_now]
          exact (dispatch_acted hdisp).now_eq.ge
        · exact (dispatch_acted hdisp).now_eq.ge
  | incomingData inFace data actions => exact (onIncomingData_satisfies hstep).now_eq.ge
  | unsatisfyTimer x actions => exact (step_timer hl (Or.inl ⟨actions, rfl⟩) hstep).2.2.2.1.ge
  | stragglerTimer x => exact (step_timer hl (Or.inr rfl) hstep).2.2.2.1.ge
  | strategyTimer x actions => exact (dispatch_acted hstep).now_eq.ge
  | markDeadNonceList =>
      cases hstep
      exact le_refl _
  | adjustDeadNonceListCapacity =>
      cases hstep
      exact le_refl _
  | contentStoreTimer key =>
      cases hstep
      exact le_refl _
  | setFaceId face id =>
      cases hstep
      exact le_refl _
  | advanceClock duration =>
      cases hstep
      exact Nat.le_add_right _ _

/-- The entry `r` leaves at this step, at least a straggler period after it was rejected. -/
def LeavesRejected (r : Ref) (t t' : Tracked κ) : Prop :=
  t'.state.pit.entries r = none ∧
    ∃ time, t.rejected r = some time ∧ time + stragglerTime ≤ t.state.now

/-- In the run from `t` to `t'` a Data matched the entry `r`, or the entry was rejected and left. -/
def ReleasedBetween (P : Platform κ) (r : Ref) (t t' : Tracked κ) : Prop :=
  ∃ t₁ event t₂, Reach (track P) anyStep t t₁ ∧ track P t₁ event = some t₂ ∧ Reach (track P) anyStep t₂ t' ∧
    (Matches P r t₁.state event ∨ LeavesRejected r t₁ t₂)

/-- A timer that fires says why its entry leaves. -/
theorem Promised.fires {e : PitEntry} {rejected answered : Option Nat} {now : Nat}
    (h : Promised e rejected answered) (hf : Fires e now) :
    (e.inRecords ≠ [] ∧ ∀ record ∈ e.inRecords, record.expiry ≤ now) ∨
    (∃ time, rejected = some time ∧ time + stragglerTime ≤ now) ∨
    e.inRecords = [] ∧ ∃ time, answered = some time ∧ time + stragglerTime ≤ now := by
  rcases hf with ⟨due, hdue, hle⟩ | ⟨timer, htimer, hle⟩
  · obtain ⟨⟨record, hrecord, -⟩, hlatest⟩ := h.latest due hdue
    exact Or.inl ⟨List.ne_nil_of_mem hrecord, fun record hmem => (hlatest record hmem).trans hle⟩
  · rcases h.straggler timer htimer with ⟨time, hrej, hdue⟩ | ⟨hempty, time, hans, hdue⟩
    · exact Or.inr (Or.inl ⟨time, hrej, hdue.trans hle⟩)
    · exact Or.inr (Or.inr ⟨hempty, time, hans, hdue.trans hle⟩)

/-- An in-record that is not renewed stays until it expires, unless its entry is released. -/
theorem AllPromised.kept (h : AllPromised t) {e : PitEntry} (he : t.state.pit.entries r = some e) {record : InRecord}
    (hrecord : record ∈ e.inRecords)
    (hr : Reach (track P) (fun t event => ¬ Renews P r record.face t.state event) t t') :
    AllPromised t' ∧ ((∃ e', t'.state.pit.entries r = some e' ∧ record ∈ e'.inRecords) ∨
      record.expiry ≤ t'.state.now ∨ ReleasedBetween P r t t') := by
  induction hr with
  | start => exact ⟨h, Or.inl ⟨e, he, hrecord⟩⟩
  | next event hr hok hs ih =>
      rename_i t₁ t₂
      obtain ⟨h₁, hcases⟩ := ih
      obtain ⟨s₂, hstep, hs₂⟩ := Option.map_eq_some_iff.mp hs
      have hstate : t₂.state = s₂ := by rw [← hs₂]
      have hreach : Reach _ anyStep _ t₁ := hr.mono fun _ _ _ => trivial
      refine ⟨h₁.step hs, ?_⟩
      rcases hcases with ⟨e₁, he₁, hmem⟩ | hexpired | ⟨t₃, event₃, t₄, h₃, hs₃, h₄, hwhy⟩
      · rcases record_after h₁.linked hstep he₁ with ⟨hgone, hfires, hnow⟩ | ⟨e₂, he₂, hafter⟩
        · rcases (h₁.promised he₁).fires hfires with ⟨-, hall⟩ | hrej | ⟨hempty, -⟩
          · refine Or.inr (Or.inl ?_)
            rw [hstate, hnow]
            exact hall record hmem
          · exact Or.inr (Or.inr ⟨t₁, event, t₂, hreach, hs, Reach.start, Or.inr ⟨hstate ▸ hgone, hrej⟩⟩)
          · rw [hempty] at hmem
            cases hmem
        · rcases hafter record hmem with hstay | hmatch | hrenew
          · exact Or.inl ⟨e₂, hstate ▸ he₂, hstay⟩
          · exact Or.inr (Or.inr ⟨t₁, event, t₂, hreach, hs, Reach.start, Or.inl hmatch⟩)
          · exact absurd hrenew hok
      · refine Or.inr (Or.inl (hexpired.trans ?_))
        rw [hstate]
        exact step_now_le h₁.linked hstep
      · exact Or.inr (Or.inr ⟨t₃, event₃, t₄, h₃, hs₃, h₄.next event trivial hs, hwhy⟩)

/-- How long pending Interests are kept. -/
structure KeptAsPromised (P : Platform κ) (t : Tracked κ) : Prop where
  /-- The unsatisfy timer is due exactly when the last in-record expires. -/
  timer : ∀ r e, t.state.pit.entries r = some e → e.inRecords ≠ [] → t.rejected r = none →
    ∃ due, e.unsatisfyTimer = some due ∧ IsLatestExpiry e due
  /-- An entry leaves when its in-records have expired, or a straggler period after it was rejected, or, its
  in-records gone, a straggler period after it was answered. -/
  leaves : ∀ event t' r e, track P t event = some t' → t.state.pit.entries r = some e →
    t'.state.pit.entries r = none →
      (e.inRecords ≠ [] ∧ ∀ record ∈ e.inRecords, record.expiry ≤ t.state.now) ∨
      (∃ time, t.rejected r = some time ∧ time + stragglerTime ≤ t.state.now) ∨
      e.inRecords = [] ∧ ∃ time, t.answered r = some time ∧ time + stragglerTime ≤ t.state.now
  /-- An in-record that its face does not renew is there until it expires, unless a Data matches the entry or
  the entry leaves rejected. -/
  kept : ∀ t' r e record, t.state.pit.entries r = some e → record ∈ e.inRecords →
    Reach (track P) (fun t event => ¬ Renews P r record.face t.state event) t t' →
      (∃ e', t'.state.pit.entries r = some e' ∧ record ∈ e'.inRecords) ∨
      record.expiry ≤ t'.state.now ∨ ReleasedBetween P r t t'

/-- In every run, pending Interests are kept exactly as long as promised. -/
theorem pending_interests_kept (P : Platform κ) (nBuckets : Nat) (faceId : Face → Option Nat) (cs : κ)
    (t : Tracked κ) (hr : Reach (track P) anyStep (Tracked.start (ForwarderState.new nBuckets faceId cs)) t) :
    KeptAsPromised P t := by
  have h : AllPromised t := hr.invariant (start_allPromised nBuckets faceId cs) fun _ _ _ h _ hs => h.step hs
  refine ⟨fun r e he hne hrej => ?_, fun event t' r e htrack he hgone => ?_, fun t' r e record he hrecord hrun => ?_⟩
  · obtain ⟨due, hdue⟩ := Option.isSome_iff_exists.mp ((h.promised he).pending hne hrej)
    exact ⟨due, hdue, (h.promised he).latest due hdue⟩
  · obtain ⟨s', hstep, rfl⟩ := Option.map_eq_some_iff.mp htrack
    rcases record_after h.linked hstep he with ⟨-, hfires, -⟩ | ⟨e', he', -⟩
    · exact (h.promised he).fires hfires
    · rw [he'] at hgone
      cases hgone
  · exact (h.kept he hrecord hrun).2

/-- Two Interests of one name, the later one of a shorter lifetime. -/
def overlapping : List Event :=
  [.incomingInterest 1 (plainInterest [.ofByte 65]) [.sendInterest 3 none],
    .incomingInterest 2 { plainInterest [.ofByte 65] with nonce := 2, interestLifetime := 1000 } []]

/-- The timer is still due when the first one expires. -/
theorem pending_interests_kept_sample :
    ∃ t, Reach (track Platform.sample) anyStep (Tracked.start ForwarderState.sample) t ∧
      (t.state.pit.entries 0).any (fun e => e.unsatisfyTimer == some (milliseconds 4000) && e.inRecords.length == 2) ∧
      KeptAsPromised Platform.sample t := by
  have hrun : ((exec (track Platform.sample) (Tracked.start ForwarderState.sample) overlapping).any fun t =>
      (t.state.pit.entries 0).any
        (fun e => e.unsatisfyTimer == some (milliseconds 4000) && e.inRecords.length == 2)) = true := by decide +kernel
  obtain ⟨t, ht, hentry⟩ := (Option.any_eq_true _ _).mp hrun
  have hreach := reach_of_exec Reach.start ht
  exact ⟨t, hreach, hentry, pending_interests_kept Platform.sample 16 some ⟨[], ()⟩ t hreach⟩

end NfdPitless.Forwarder
