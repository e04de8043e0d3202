import NfdPitless.FlowTokens
import NfdPitless.ForwarderTimers

/-! Flow balance of the base forwarder: every Data it sends to a face answers an Interest of its own
that the face sent before. -/

namespace NfdPitless.Forwarder

open Answers

variable {κ : Type} {P : Platform κ} {s s' : ForwarderState κ} {r : Ref}

/-- The table is linked and every in-record has its token. -/
structure Balanced (P : Platform κ) (s : ForwarderState κ) : Prop where
  linked : s.pit.Linked
  flow : FlowBalanced P.matchesData s

variable {Q : Interest → Prop} {spare : Face → Option Nat} {tok : Ref → Face → Nat}

theorem Tokens.cancel (h : Tokens P.matchesData Q spare s tok) (r : Ref) :
    Tokens P.matchesData Q spare (cancelUnsatisfyAndStragglerTimer s r) tok :=
  h.modifyEntry r (fun _ => rfl) fun _ => List.Subset.refl _

theorem Tokens.setStraggler (h : Tokens P.matchesData Q spare s tok) (r : Ref) (isSatisfied : Bool) (period : Int) :
    Tokens P.matchesData Q spare (setStragglerTimer s r isSatisfied period) tok :=
  h.modifyEntry r (fun _ => rfl) fun _ => List.Subset.refl _

theorem Tokens.setUnsatisfy (h : Tokens P.matchesData Q spare s tok) (r : Ref) :
    Tokens P.matchesData Q spare (setUnsatisfyTimer s r) tok :=
  h.modifyEntry r (fun _ => rfl) fun _ => List.Subset.refl _

/-- Deleting the in-records of an entry gives up their tokens. -/
theorem Tokens.markSatisfied (h : Tokens P.matchesData Q spare s tok) (r : Ref) (inFace : Face) :
    Tokens P.matchesData Q spare (markSatisfied s r inFace) tok := by
  have hdel := h.modifyEntry r (f := fun e => e.deleteInRecords.deleteOutRecord inFace) (fun _ => rfl)
    fun _ => List.nil_subset _
  exact hdel.logged (.satisfied r inFace) fun h => h

/-- An entry that `insert` creates has no in-records. -/
theorem Tokens.insert (h : Tokens P.matchesData Q spare s tok) (hl : s.pit.Linked) {pit : Pit}
    {isNew : Bool} {interest : Interest} {e : PitEntry}
    (hins : s.pit.insert P.cityHash interest = some (pit, r, isNew)) (he : pit.entries r = some e)
    (hs' : s'.pit = pit) (hlog : s'.log = s.log) : Tokens P.matchesData Q spare s' tok := by
  obtain ⟨-, hother, -, -, -, hnew⟩ := hl.insert_spec hins he
  refine h.congr [] ?_ (by rw [hlog, List.append_nil]) (by simp)
  intro x e' face he' hface
  rw [hs'] at he'
  by_cases hx : x = r
  · subst hx
    rw [he] at he'
    cases he'
    rcases hnew with ⟨-, -, hold⟩ | ⟨-, -, nte, rfl⟩
    · exact ⟨e, hold, hface, rfl⟩
    · cases hface
  · exact ⟨e', by rw [← hother x hx, he'], hface, rfl⟩

theorem Balanced.incomingInterest (h : Balanced P s) (hstore : P.store.Sound P.matchesData) {inFace : Face}
    {interest : Interest} {actions : List StrategyAction}
    (hstep : onIncomingInterest P s inFace interest actions = some s') : FlowBalanced P.matchesData s' := by
  obtain ⟨tok, htok⟩ := h.flow
  have harr := htok.arrive inFace interest
  rcases onIncomingInterest_cases hstep with ⟨-, rfl⟩ | ⟨-, pit, r, isNew, e, hins, he, hcases⟩
  · exact ⟨tok, harr.drop⟩
  obtain ⟨-, -, -, hname, hsel, -⟩ := h.linked.insert_spec hins he
  have hpit : ∀ cs, Tokens P.matchesData (fun i => i = interest)
      (fun f => if f = inFace then some s.log.length else none)
      { withPit s inFace interest pit with cs } tok := fun cs =>
    harr.insert h.linked hins he rfl rfl
  rcases hcases with ⟨-, rfl⟩ | ⟨-, -, cs, data, s₁, hfind, hdisp, rfl⟩ | ⟨-, cs, hmiss⟩
  · exact ⟨tok, (hpit s.cs).drop⟩
  · have hhit := (((hpit cs).cancel r).acted (dispatch_acted hdisp)).setStraggler r true data.freshnessPeriod
    have hmatch : ∀ i, i = interest → P.matchesData i.name i.selectors data = true := by
      rintro i rfl
      exact hstore _ _ _ _ _ hfind
    unfold onOutgoingData
    split
    · exact ⟨tok, hhit.drop⟩
    · split
      · exact ⟨tok, hhit.drop⟩
      · exact ⟨tok, (hhit.reply (if_pos rfl) hmatch).drop⟩
  · rw [onContentStoreMiss] at hmiss
    have hentry : (cancelUnsatisfyAndStragglerTimer { withPit s inFace interest pit with cs } r).pit.entries r =
        some { e with unsatisfyTimer := none, stragglerTimer := none } := by
      rw [cancelUnsatisfyAndStragglerTimer, entries_modify, if_pos rfl]
      simp [withPit, he]
    have hrec : Tokens P.matchesData (fun _ => True) (fun _ => none) ((cancelUnsatisfyAndStragglerTimer
        { withPit s inFace interest pit with cs } r).modifyEntry r fun e =>
          e.insertOrUpdateInRecord s.now inFace interest) _ :=
      ((hpit cs).cancel r).record s.now interest (if_pos rfl)
        (fun i hi => by rw [hi]; exact ⟨hname.symm, hsel.symm⟩) hentry
    exact ⟨_, (hrec.setUnsatisfy r).acted (dispatch_acted hmiss)⟩

/-- A trigger keeps the Interest of every entry. -/
theorem Acted.interest_eq (h : Acted r s s') {x : Ref} {e' : PitEntry} (he' : s'.pit.entries x = some e') :
    ∃ e, s.pit.entries x = some e ∧ e'.interest = e.interest ∧ e'.inRecords = e.inRecords := by
  by_cases hx : x = r
  · subst hx
    cases he : s.pit.entries x with
    | none =>
        rw [h.absent he] at he'
        cases he'
    | some e =>
        obtain ⟨e₁, he₁, hint, hin, -⟩ := h.entry e he
        rw [he'] at he₁
        cases he₁
        exact ⟨e, rfl, hint, hin⟩
  · rw [h.other x hx] at he'
    exact ⟨e', he', rfl, rfl⟩

/-- The loop neither adds entries nor changes their Interests. -/
theorem satisfyEntry_interest {inFace : Face} {data : Data} {actions : Ref → List StrategyAction}
    (hstep : satisfyEntry P inFace data actions s r = some s') {x : Ref} {e' : PitEntry}
    (he' : s'.pit.entries x = some e') : ∃ e, s.pit.entries x = some e ∧ e'.interest = e.interest := by
  obtain ⟨s₁, s₂, hact, hq, rfl⟩ := satisfyEntry_cases hstep
  obtain ⟨e₃, he₃, hint₃⟩ : ∃ e₃, s₂.pit.entries x = some e₃ ∧ e'.interest = e₃.interest := by
    obtain ⟨e₁, he₁, h₁⟩ := Pit.modifyEntry_some he'
    obtain ⟨e₂, he₂, h₂⟩ := Pit.modifyEntry_some he₁
    refine ⟨e₂, he₂, ?_⟩
    rcases h₁ with ⟨-, rfl⟩ | ⟨-, rfl⟩ <;> rcases h₂ with ⟨-, rfl⟩ | ⟨-, rfl⟩ <;> rfl
  rw [hq.pit_eq] at he₃
  obtain ⟨e₁, he₁, hint₁, -⟩ := hact.interest_eq he₃
  obtain ⟨e, he, ⟨-, rfl⟩ | ⟨-, rfl⟩⟩ := Pit.modifyEntry_some he₁
  · exact ⟨e, he, hint₃.trans hint₁⟩
  · exact ⟨e₁, he, hint₃.trans hint₁⟩

/-- Satisfying an entry whose Interest the Data matches frees the tokens of its in-records. -/
theorem Tokens.satisfyEntry {inFace : Face} {data : Data} {actions : Ref → List StrategyAction}
    (h : Tokens P.matchesData (fun i => P.matchesData i.name i.selectors data = true) spare s tok)
    {e : PitEntry} (he : s.pit.entries r = some e)
    (hmatch : P.matchesData e.interest.name e.interest.selectors data = true)
    (hstep : satisfyEntry P inFace data actions s r = some s') :
    Tokens P.matchesData (fun i => P.matchesData i.name i.selectors data = true)
      (takeSpares spare (tok r) (inFaces e)) s' tok := by
  obtain ⟨s₁, s₂, hact, hq, rfl⟩ := satisfyEntry_cases hstep
  have hcancel : (cancelUnsatisfyAndStragglerTimer s r).pit.entries r =
      some { e with unsatisfyTimer := none, stragglerTimer := none } := by
    rw [cancelUnsatisfyAndStragglerTimer, entries_modify, if_pos rfl, he]
    rfl
  obtain ⟨e₁, he₁, hint, hin, -⟩ := hact.entry _ hcancel
  have he₂ : s₂.pit.entries r = some e₁ := by rw [hq.pit_eq, he₁]
  have hfaces : inFaces e₁ = inFaces e := by rw [inFaces, hin, inFaces]
  have hrel := (((h.cancel r).acted hact).queued hq).release (f := fun e => e.deleteInRecords.deleteOutRecord inFace)
    he₂ (fun i hname hsel => by rw [hname, hsel, hint]; exact hmatch) (fun _ => rfl)
  rw [hfaces] at hrel
  exact (hrel.logged (.satisfied r inFace) (fun h => h)).setStraggler r true data.freshnessPeriod

theorem mem_inFaces_of_pendingDownstreams {face : Face} (h : face ∈ pendingDownstreamsOf s r) :
    ∃ e, s.pit.entries r = some e ∧ face ∈ inFaces e := by
  unfold pendingDownstreamsOf at h
  cases he : s.pit.entries r with
  | none => simp [he] at h
  | some e =>
      rw [he] at h
      obtain ⟨record, hrecord, rfl⟩ := List.mem_map.mp h
      exact ⟨e, rfl, List.mem_map_of_mem (List.mem_filter.mp hrecord).1⟩

/-- Through the loop over the PIT matches, every downstream collected has a spare token. -/
theorem Tokens.satisfyAll {inFace : Face} {data : Data} {actions : Ref → List StrategyAction}
    (pitMatches : List Ref) :
    ∀ {s : ForwarderState κ} {spare : Face → Option Nat} {downstreams : List Face} {result},
      Tokens P.matchesData (fun i => P.matchesData i.name i.selectors data = true) spare s tok →
      (∀ r ∈ pitMatches, ∀ e, s.pit.entries r = some e →
        P.matchesData e.interest.name e.interest.selectors data = true) →
      downstreams.Nodup → HasSpares spare downstreams →
      satisfyAll P inFace data actions s downstreams pitMatches = some result →
      ∃ spare', Tokens P.matchesData (fun i => P.matchesData i.name i.selectors data = true) spare' result.1 tok ∧
        result.2.Nodup ∧ HasSpares spare' result.2 := by
  induction pitMatches with
  | nil =>
      intro s spare downstreams result h _ hnodup hspares hrun
      cases hrun
      exact ⟨spare, h, hnodup, hspares⟩
  | cons r pitMatches ih =>
      intro s spare downstreams result h hmatches hnodup hspares hrun
      rw [Forwarder.satisfyAll] at hrun
      obtain ⟨s₁, hs₁, hrest⟩ := Option.bind_eq_some_iff.mp hrun
      have hmatches₁ : ∀ x ∈ pitMatches, ∀ e', s₁.pit.entries x = some e' →
          P.matchesData e'.interest.name e'.interest.selectors data = true := by
        intro x hx e' he'
        obtain ⟨e, he, hint⟩ := satisfyEntry_interest hs₁ he'
        rw [hint]
        exact hmatches x (List.mem_cons_of_mem _ hx) e he
      cases he : s.pit.entries r with
      | none =>
          -- a stale reference: nothing is pending there
          have hpend : pendingDownstreamsOf s r = [] := by simp [pendingDownstreamsOf, he]
          rw [hpend] at hrest
          obtain ⟨s₂, s₃, hact, hq, rfl⟩ := satisfyEntry_cases hs₁
          have hmark := (((h.cancel r).acted hact).queued hq).markSatisfied r inFace
          exact ih (hmark.setStraggler r true data.freshnessPeriod) hmatches₁ hnodup hspares hrest
      | some e =>
          have hstep := h.satisfyEntry he (hmatches r List.mem_cons_self e he) hs₁
          refine ih hstep hmatches₁ (foldl_insertFace_nodup hnodup) ?_ hrest
          intro face hface
          refine takeSpares_isSome ?_
          rcases mem_foldl_insertFace.mp hface with hf | hf
          · obtain ⟨e₁, he₁, hmem⟩ := mem_inFaces_of_pendingDownstreams hf
            rw [he] at he₁
            cases he₁
            exact Or.inr hmem
          · exact Or.inl (hspares face hf)

theorem Balanced.incomingData (h : Balanced P s) {inFace : Face} {data : Data}
    {actions : Ref → List StrategyAction} (hstep : onIncomingData P s inFace data actions = some s') :
    FlowBalanced P.matchesData s' := by
  obtain ⟨tok, htok⟩ := h.flow
  have hlog := htok.logged (.inData inFace data) (fun h => h)
  rcases onIncomingData_cases hstep with rfl | rfl | ⟨result, hresult, rfl⟩
  · exact ⟨tok, hlog⟩
  · exact ⟨tok, hlog.same (by rw [onDataUnsolicited_pit]) (onDataUnsolicited_log _ _ _)⟩
  · have hstart : Tokens P.matchesData (fun i => P.matchesData i.name i.selectors data = true) (fun _ => none)
        { s.logged (.inData inFace data) with cs := P.store.insert s.cs s.now data false } tok :=
      hlog.drop.same rfl rfl
    obtain ⟨spare', hend, hnodup, hspares⟩ := hstart.satisfyAll _ (by
      intro r hr e he
      have hfound := (List.mem_filter.mp hr).2
      have hpit : s.pit.entries r = some e := he
      simpa [hpit] using hfound) List.nodup_nil (by simp [HasSpares]) hresult
    obtain ⟨spare'', hsent⟩ := Tokens.sendAll P data
      (result.2.filter fun face => face != inFace) (hnodup.filter _)
      (fun f hf => hspares f (List.mem_filter.mp hf).1) (fun i hi => hi) hend
    exact ⟨tok, hsent.drop⟩

theorem Balanced.finalize (h : Balanced P s) {isSatisfied : Bool} {dataFreshnessPeriod : Int}
    (hstep : onInterestFinalize P s r isSatisfied dataFreshnessPeriod = some s') :
    s'.pit.Linked ∧ FlowBalanced P.matchesData s' := by
  obtain ⟨tok, htok⟩ := h.flow
  have hq := insertDeadNonceList_queued (P := P) s r isSatisfied dataFreshnessPeriod none
  cases he : s.pit.entries r with
  | none =>
      rw [onInterestFinalize_absent he] at hstep
      cases hstep
  | some e =>
      obtain ⟨s₁, s₂, hrun, rfl, hlinked, hentries, -, -, -, -, -, hlog⟩ :=
        onInterestFinalize_spec (P := P) h.linked he isSatisfied dataFreshnessPeriod
      rw [hstep] at hrun
      cases hrun
      refine ⟨hlinked, tok, (htok.queued hq).congr _ ?_ hlog (by simp [IsReply])⟩
      intro x e' face he' hface
      rw [hentries] at he'
      by_cases hx : x = r
      · rw [hx, Function.update_self] at he'
        cases he'
      · rw [Function.update_of_ne hx] at he'
        exact ⟨e', by rw [hq.pit_eq, he'], hface, rfl⟩

theorem Balanced.acted (h : Balanced P s) (hact : Acted r s s') : Balanced P s' := by
  obtain ⟨tok, htok⟩ := h.flow
  exact ⟨hact.linked h.linked, tok, htok.acted hact⟩

theorem Balanced.same (h : Balanced P s) (hpit : s'.pit = s.pit) (hlog : s'.log = s.log) : Balanced P s' := by
  obtain ⟨tok, htok⟩ := h.flow
  exact ⟨hpit ▸ h.linked, tok, htok.same (by rw [hpit]) hlog⟩

/-- Every step keeps the flow balanced. -/
theorem Balanced.step (h : Balanced P s) (hstore : P.store.Sound P.matchesData) {event : Event}
    (hstep : step P s event = some s') : Balanced P s' := by
  cases event with
  | incomingInterest inFace interest actions =>
      exact ⟨linked_onIncomingInterest h.linked hstep, h.incomingInterest hstore hstep⟩
  | incomingData inFace data actions => exact ⟨linked_onIncomingData h.linked hstep, h.incomingData hstep⟩
  | unsatisfyTimer r actions =>
      simp only [Forwarder.step] at hstep
      split at hstep
      · cases hstep
      · split at hstep
        · obtain ⟨s₁, hs₁, hfin⟩ := Option.bind_eq_some_iff.mp hstep
          obtain ⟨hlinked, hflow⟩ := (h.acted (dispatch_acted hs₁)).finalize hfin
          exact ⟨hlinked, hflow⟩
        · cases hstep
  | stragglerTimer r =>
      simp only [Forwarder.step] at hstep
      split at hstep
      · cases hstep
      · split at hstep
        · obtain ⟨hlinked, hflow⟩ := h.finalize hstep
          exact ⟨hlinked, hflow⟩
        · cases hstep
  | strategyTimer r actions => exact h.acted (dispatch_acted hstep)
  | markDeadNonceList =>
      cases hstep
      exact h.same rfl rfl
  | adjustDeadNonceListCapacity =>
      cases hstep
      exact h.same rfl rfl
  | contentStoreTimer key =>
      cases hstep
      exact h.same rfl rfl
  | setFaceId face id =>
      cases hstep
      exact h.same rfl rfl
  | advanceClock duration =>
      cases hstep
      exact h.same rfl rfl

def isOutDataTo (face : Face) : LogItem → Bool
  | .outData face' _ => face' == face
  | _ => false

def isInInterestFrom (face : Face) : LogItem → Bool
  | .inInterest face' _ => face' == face
  | _ => false

/-- In every run with the built-in content store, the Data sent can be charged injectively to Interests
received earlier from the same face that they match. So the Data sent to a face and the PIT entries that
hold an in-record of it are together no more than the Interests received from it. -/
theorem flow_balance {π : Type} (cityHash : Component → UInt64) (makeEntry : Name → UInt32 → UInt64)
    (digest : Data → List UInt8) (getSuccessor : Name → Name) (matchesData : MatchesData)
    (isLocal : Face → Bool) (policy : CsPolicy π) (policyState : π) (nBuckets : Nat)
    (faceId : Face → Option Nat) (s : ForwarderState (Cs π))
    (hr : Reach (step (.builtin cityHash makeEntry digest getSuccessor matchesData isLocal policy)) anyStep
      (ForwarderState.new nBuckets faceId ⟨[], policyState⟩) s) :
    Charged matchesData s.log ∧
    ∀ (face : Face) (pending : Finset Ref),
      (∀ r ∈ pending, ∃ e, s.pit.entries r = some e ∧ ∃ record ∈ e.inRecords, record.face = face) →
      s.log.countP (isOutDataTo face) + pending.card ≤ s.log.countP (isInInterestFrom face) := by
  generalize hP : Platform.builtin cityHash makeEntry digest getSuccessor matchesData isLocal policy = P at hr
  have hstore : P.store.Sound P.matchesData := by
    rw [← hP]
    exact Cs.contentStore_sound policy
  have hmatch : P.matchesData = matchesData := by
    rw [← hP]
    rfl
  have hinit : Balanced P (ForwarderState.new nBuckets faceId ⟨[], policyState⟩) :=
    ⟨Pit.new_linked nBuckets, new_flowBalanced nBuckets faceId _⟩
  have hbal := hr.invariant hinit fun _ _ _ h _ hs => h.step hstore hs
  obtain ⟨tok, htok⟩ := hbal.flow
  rw [hmatch] at htok
  refine ⟨htok.charged, fun face pending hpending => ?_⟩
  · have hheld : ∀ r ∈ pending, ∃ e, s.pit.entries r = some e ∧ face ∈ inFaces e := by
      intro r hr
      obtain ⟨e, he, record, hrecord, hface⟩ := hpending r hr
      exact ⟨e, he, List.mem_map.mpr ⟨record, hrecord, hface⟩⟩
    have hcard : (pending.image fun r => tok r face).card = pending.card := by
      refine Finset.card_image_of_injOn fun r hr r' hr' heq => ?_
      obtain ⟨e, he, hf⟩ := hheld r hr
      obtain ⟨e', he', hf'⟩ := hheld r' hr'
      exact htok.distinct he he' hf hf' heq
    rw [← hcard]
    refine htok.covered.count_le ?_ ?_ ?_
    · intro a ha
      cases a <;> simp_all [isOutDataTo, IsReply]
    · intro q a hqa ha
      cases q <;> cases a <;> simp_all [Replies, isOutDataTo, isInInterestFrom]
    · intro t ht
      obtain ⟨r, hr, rfl⟩ := Finset.mem_image.mp ht
      obtain ⟨e, he, hf⟩ := hheld r hr
      obtain ⟨i, hi, -⟩ := htok.arrived he hf
      exact ⟨Or.inl ⟨r, e, face, he, hf, rfl⟩, by rw [hi]; simp [isInInterestFrom]⟩

/-- An Interest from face 1 is sent to face 2, which answers it. -/
def answeredOnce : List Event :=
  [.incomingInterest 1 (plainInterest [.ofByte 65]) [.sendInterest 2 none],
    .incomingData 2 (plainData [.ofByte 65]) fun _ => []]

/-- The Data is sent to face 1, which has sent one Interest. -/
theorem flow_balance_answeredOnce :
    ∃ s, exec (step Platform.sample) ForwarderState.sample answeredOnce = some s ∧
      LogItem.outData 1 (plainData [.ofByte 65]) ∈ s.log ∧
      s.log.countP (isOutDataTo 1) ≤ s.log.countP (isInInterestFrom 1) := by
  have hrun : ((exec (step Platform.sample) ForwarderState.sample answeredOnce).map fun s =>
      decide (LogItem.outData 1 (plainData [.ofByte 65]) ∈ s.log)) = some true := by decide
  obtain ⟨s, hs, hmem⟩ := Option.map_eq_some_iff.mp hrun
  refine ⟨s, hs, by simpa using hmem, ?_⟩
  exact (flow_balance NameTree.octetHash _ (fun _ => [0]) incrementLast (matchesSuffix fun _ => [0]) (fun _ => false)
    .keepAll () 16 some s (reach_of_exec Reach.start hs)).2 1 ∅ (by simp)

end NfdPitless.Forwarder
