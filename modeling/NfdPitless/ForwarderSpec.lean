import NfdPitless.Forwarder
import NfdPitless.Runs

/-! What each pipeline does to the tables, said once. A strategy's trigger changes the out-records and
the timers of its PIT entry and sends Interests; finalizing an entry queues Nonces and erases it; an
incoming Interest is dropped, found to loop, answered from the content store or admitted. -/

namespace NfdPitless.Forwarder

variable {κ : Type} {P : Platform κ} {s s' s'' : ForwarderState κ} {r : Ref}

/-- From `s` to `s'` a strategy acted on the PIT entry `r`. -/
structure Acted (r : Ref) (s s' : ForwarderState κ) : Prop where
  now_eq : s'.now = s.now
  faceId_eq : s'.faceId = s.faceId
  cs_eq : s'.cs = s.cs
  deadNonceList_eq : s'.deadNonceList = s.deadNonceList
  nameTree_eq : s'.pit.nameTree = s.pit.nameTree
  nextRef_eq : s'.pit.nextRef = s.pit.nextRef
  other : ∀ x, x ≠ r → s'.pit.entries x = s.pit.entries x
  absent : s.pit.entries r = none → s'.pit.entries r = none
  entry : ∀ e, s.pit.entries r = some e → ∃ e', s'.pit.entries r = some e' ∧
    e'.interest = e.interest ∧ e'.inRecords = e.inRecords ∧ e'.nameTreeEntry = e.nameTreeEntry ∧
    (e'.unsatisfyTimer = e.unsatisfyTimer ∧ e'.stragglerTimer = e.stragglerTimer ∨
      e'.unsatisfyTimer = none ∧ e'.stragglerTimer.isSome)
  log_eq : ∃ sends, s'.log = s.log ++ sends ∧ ∀ item ∈ sends, ∃ face interest, item = .outInterest r face interest

theorem Acted.refl (r : Ref) (s : ForwarderState κ) : Acted r s s where
  now_eq := rfl
  faceId_eq := rfl
  cs_eq := rfl
  deadNonceList_eq := rfl
  nameTree_eq := rfl
  nextRef_eq := rfl
  other _ _ := rfl
  absent h := h
  entry e he := ⟨e, he, rfl, rfl, rfl, Or.inl ⟨rfl, rfl⟩⟩
  log_eq := ⟨[], by simp, by simp⟩

theorem Acted.trans (h : Acted r s s') (h' : Acted r s' s'') : Acted r s s'' where
  now_eq := h'.now_eq.trans h.now_eq
  faceId_eq := h'.faceId_eq.trans h.faceId_eq
  cs_eq := h'.cs_eq.trans h.cs_eq
  deadNonceList_eq := h'.deadNonceList_eq.trans h.deadNonceList_eq
  nameTree_eq := h'.nameTree_eq.trans h.nameTree_eq
  nextRef_eq := h'.nextRef_eq.trans h.nextRef_eq
  other x hx := (h'.other x hx).trans (h.other x hx)
  absent hn := h'.absent (h.absent hn)
  entry e he := by
    obtain ⟨e₁, he₁, hi₁, hin₁, hnt₁, ht₁⟩ := h.entry e he
    obtain ⟨e₂, he₂, hi₂, hin₂, hnt₂, ht₂⟩ := h'.entry e₁ he₁
    refine ⟨e₂, he₂, hi₂.trans hi₁, hin₂.trans hin₁, hnt₂.trans hnt₁, ?_⟩
    rcases ht₂ with ⟨hu₂, hs₂⟩ | ht₂
    · rw [hu₂, hs₂]
      exact ht₁
    · exact Or.inr ht₂
  log_eq := by
    obtain ⟨l₁, hl₁, hi₁⟩ := h.log_eq
    obtain ⟨l₂, hl₂, hi₂⟩ := h'.log_eq
    refine ⟨l₁ ++ l₂, by rw [hl₂, hl₁, List.append_assoc], ?_⟩
    intro item hitem
    rcases List.mem_append.mp hitem with hmem | hmem
    · exact hi₁ item hmem
    · exact hi₂ item hmem

/-- What sending an Interest does: nothing, or it renews the out-record of a face. -/
theorem onOutgoingInterest_cases {outFace : Face} {newNonce : Option UInt32}
    (h : onOutgoingInterest P s r outFace newNonce = some s') :
    s' = s ∨ ∃ e interest, s.pit.entries r = some e ∧ pickInterest e outFace newNonce = some interest ∧
      s' = (s.modifyEntry r fun e => e.insertOrUpdateOutRecord s.now outFace interest).logged
        (.outInterest r outFace interest) := by
  unfold onOutgoingInterest at h
  cases he : s.pit.entries r with
  | none => simp [he] at h
  | some e =>
      simp only [he] at h
      split at h
      · exact Or.inl (Option.some.inj h).symm
      · split at h
        · exact Or.inl (Option.some.inj h).symm
        · cases hp : pickInterest e outFace newNonce with
          | none => simp [hp] at h
          | some interest =>
              simp only [hp, Option.some.injEq] at h
              exact Or.inr ⟨e, interest, rfl, hp, h.symm⟩

/-- What rejecting does: nothing, or it leaves only a straggler timer. -/
theorem onInterestReject_cases (h : onInterestReject s r = some s') :
    s' = s ∨ s' = setStragglerTimer (cancelUnsatisfyAndStragglerTimer s r) r false (-1) := by
  unfold onInterestReject at h
  cases he : s.pit.entries r with
  | none => simp [he] at h
  | some e =>
      simp only [he] at h
      split at h
      · exact Or.inl (Option.some.inj h).symm
      · exact Or.inr (Option.some.inj h).symm

theorem entries_modify (s : ForwarderState κ) (r : Ref) (f : PitEntry → PitEntry) (x : Ref) :
    (s.modifyEntry r f).pit.entries x = if x = r then (s.pit.entries r).map f else s.pit.entries x :=
  Pit.entries_modifyEntry s.pit r f x

/-! The changes of an entry in the pipelines leave its pointer to the name tree alone. -/

theorem linked_cancel (h : s.pit.Linked) (r : Ref) : (cancelUnsatisfyAndStragglerTimer s r).pit.Linked :=
  h.modifyEntry r (f := fun e => { e with unsatisfyTimer := none, stragglerTimer := none }) fun _ => rfl

theorem linked_insertInRecord (h : s.pit.Linked) (r : Ref) (now : Nat) (face : Face) (interest : Interest) :
    (s.modifyEntry r fun e => e.insertOrUpdateInRecord now face interest).pit.Linked :=
  h.modifyEntry r (f := fun e => e.insertOrUpdateInRecord now face interest) fun _ => rfl

theorem linked_setUnsatisfyTimer (h : s.pit.Linked) (r : Ref) : (setUnsatisfyTimer s r).pit.Linked :=
  h.modifyEntry r (f := fun e => { e with unsatisfyTimer := _ }) fun _ => rfl

theorem linked_setStragglerTimer (h : s.pit.Linked) (r : Ref) (isSatisfied : Bool) (period : Int) :
    (setStragglerTimer s r isSatisfied period).pit.Linked :=
  h.modifyEntry r (f := fun e => { e with stragglerTimer := some ⟨s.now + stragglerTime, isSatisfied, period⟩ })
    fun _ => rfl

theorem linked_markSatisfied (h : s.pit.Linked) (r : Ref) (inFace : Face) :
    (markSatisfied s r inFace).pit.Linked :=
  h.modifyEntry r (f := fun e => e.deleteInRecords.deleteOutRecord inFace) fun _ => rfl

/-- Changing out-records and timers of an entry, with sends logged. -/
theorem acted_of_modify (f : PitEntry → PitEntry) (sends : List LogItem)
    (hint : ∀ e, (f e).interest = e.interest) (hin : ∀ e, (f e).inRecords = e.inRecords)
    (hnt : ∀ e, (f e).nameTreeEntry = e.nameTreeEntry)
    (htimer : ∀ e, (f e).unsatisfyTimer = e.unsatisfyTimer ∧ (f e).stragglerTimer = e.stragglerTimer ∨
      (f e).unsatisfyTimer = none ∧ (f e).stragglerTimer.isSome)
    (hsends : ∀ item ∈ sends, ∃ face interest, item = .outInterest r face interest) :
    Acted r s { s.modifyEntry r f with log := s.log ++ sends } where
  now_eq := rfl
  faceId_eq := rfl
  cs_eq := rfl
  deadNonceList_eq := rfl
  nameTree_eq := rfl
  nextRef_eq := rfl
  other x hx := by
    show (s.modifyEntry r f).pit.entries x = _
    rw [entries_modify, if_neg hx]
  absent hn := by
    show (s.modifyEntry r f).pit.entries r = _
    rw [entries_modify, if_pos rfl, hn]
    rfl
  entry e he := by
    refine ⟨f e, ?_, hint e, hin e, hnt e, htimer e⟩
    show (s.modifyEntry r f).pit.entries r = _
    rw [entries_modify, if_pos rfl, he]
    rfl
  log_eq := ⟨sends, rfl, hsends⟩

theorem act_acted {action : StrategyAction} (h : act P r s action = some s') : Acted r s s' := by
  cases action with
  | sendInterest outFace newNonce =>
      rcases onOutgoingInterest_cases h with rfl | ⟨e, interest, -, -, rfl⟩
      · exact Acted.refl r s'
      · exact acted_of_modify _ [.outInterest r outFace interest] (fun _ => rfl) (fun _ => rfl)
          (fun _ => rfl) (fun _ => Or.inl ⟨rfl, rfl⟩)
          (fun item hitem => ⟨outFace, interest, List.mem_singleton.mp hitem⟩)
  | rejectPendingInterest =>
      rcases onInterestReject_cases h with rfl | rfl
      · exact Acted.refl r s'
      · have hcancel : Acted r s (setStragglerTimer (cancelUnsatisfyAndStragglerTimer s r) r false (-1)) := by
          have hone := acted_of_modify (r := r) (s := s) (fun e => { e with
            unsatisfyTimer := none
            stragglerTimer := some ⟨s.now + stragglerTime, false, -1⟩ }) [] (fun _ => rfl) (fun _ => rfl)
            (fun _ => rfl) (fun _ => Or.inr ⟨rfl, rfl⟩) (by simp)
          have heq : ({ s.modifyEntry r (fun e => { e with
              unsatisfyTimer := none
              stragglerTimer := some ⟨s.now + stragglerTime, false, -1⟩ }) with log := s.log ++ [] } :
                ForwarderState κ) =
              setStragglerTimer (cancelUnsatisfyAndStragglerTimer s r) r false (-1) := by
            simp only [List.append_nil, setStragglerTimer, cancelUnsatisfyAndStragglerTimer,
              ForwarderState.modifyEntry, Pit.modifyEntry, Function.update_self, Option.map_map,
              Function.update_idem]
            rfl
          rwa [heq] at hone
        exact hcancel

theorem dispatch_acted {actions : List StrategyAction} (h : dispatchToStrategy P s r actions = some s') :
    Acted r s s' := by
  unfold dispatchToStrategy at h
  induction actions generalizing s with
  | nil =>
      cases h
      exact Acted.refl r _
  | cons action actions ih =>
      rw [List.foldlM_cons] at h
      obtain ⟨s₁, hact, hrest⟩ := Option.bind_eq_some_iff.mp h
      exact (act_acted hact).trans (ih hrest)

theorem Acted.linked (h : Acted r s s') (hl : s.pit.Linked) : s'.pit.Linked := by
  have hentry : ∀ {x e'}, s'.pit.entries x = some e' →
      ∃ e, s.pit.entries x = some e ∧ e'.nameTreeEntry = e.nameTreeEntry := by
    intro x e' he'
    by_cases hx : x = r
    · subst hx
      cases he : s.pit.entries x with
      | none =>
          rw [h.absent he] at he'
          cases he'
      | some e =>
          obtain ⟨e₁, he₁, -, -, hnt, -⟩ := h.entry e he
          rw [he'] at he₁
          cases he₁
          exact ⟨e, rfl, hnt⟩
    · rw [h.other x hx] at he'
      exact ⟨e', he', rfl⟩
  refine ⟨by rw [h.nameTree_eq]; exact hl.treeFresh, ?_, ?_, ?_, by rw [h.nameTree_eq]; exact hl.nodup⟩
  · intro x e' he'
    obtain ⟨e, he, -⟩ := hentry he'
    rw [h.nextRef_eq]
    exact hl.fresh he
  · intro x e' he'
    obtain ⟨e, he, hnt⟩ := hentry he'
    rw [hnt, h.nameTree_eq]
    exact hl.attached he
  · intro nte x hx
    rw [h.nameTree_eq] at hx
    obtain ⟨e, he, hnte⟩ := hl.owned hx
    by_cases hxr : x = r
    · subst hxr
      obtain ⟨e₁, he₁, -, -, hnt, -⟩ := h.entry e he
      exact ⟨e₁, he₁, hnt.trans hnte⟩
    · exact ⟨e, by rw [h.other x hxr, he], hnte⟩

/-- From `s` to `s'` only Nonces were queued. -/
structure Queued (s s' : ForwarderState κ) : Prop where
  now_eq : s'.now = s.now
  faceId_eq : s'.faceId = s.faceId
  cs_eq : s'.cs = s.cs
  pit_eq : s'.pit = s.pit
  later : DeadNonceList.Later s.deadNonceList s'.deadNonceList
  log_eq : ∃ items, s'.log = s.log ++ items ∧ ∀ item ∈ items, ∃ k name nonce, item = .deadNonce k name nonce

theorem Queued.refl (s : ForwarderState κ) : Queued s s :=
  ⟨rfl, rfl, rfl, rfl, DeadNonceList.Later.refl _, [], by simp, by simp⟩

theorem Queued.trans (h : Queued s s') (h' : Queued s' s'') : Queued s s'' where
  now_eq := h'.now_eq.trans h.now_eq
  faceId_eq := h'.faceId_eq.trans h.faceId_eq
  cs_eq := h'.cs_eq.trans h.cs_eq
  pit_eq := h'.pit_eq.trans h.pit_eq
  later := h.later.trans h'.later
  log_eq := by
    obtain ⟨l₁, hl₁, hi₁⟩ := h.log_eq
    obtain ⟨l₂, hl₂, hi₂⟩ := h'.log_eq
    refine ⟨l₁ ++ l₂, by rw [hl₂, hl₁, List.append_assoc], ?_⟩
    intro item hitem
    rcases List.mem_append.mp hitem with hmem | hmem
    · exact hi₁ item hmem
    · exact hi₂ item hmem

theorem insertNonceToDnl_queued (name : Name) (s : ForwarderState κ) (record : OutRecord) :
    Queued s (insertNonceToDnl P name s record) :=
  ⟨rfl, rfl, rfl, rfl, DeadNonceList.add_later _ _ _, _, rfl,
    fun _ hitem => ⟨_, _, _, List.mem_singleton.mp hitem⟩⟩

theorem foldl_insertNonceToDnl_queued (name : Name) (records : List OutRecord) (s : ForwarderState κ) :
    Queued s (records.foldl (insertNonceToDnl P name) s) := by
  induction records generalizing s with
  | nil => exact Queued.refl s
  | cons record records ih => exact (insertNonceToDnl_queued name s record).trans (ih _)

theorem insertDeadNonceList_queued (s : ForwarderState κ) (r : Ref) (isSatisfied : Bool)
    (dataFreshnessPeriod : Int) (upstream : Option Face) :
    Queued s (insertDeadNonceList P s r isSatisfied dataFreshnessPeriod upstream) := by
  unfold insertDeadNonceList
  split
  · exact Queued.refl s
  · split
    · split
      · exact foldl_insertNonceToDnl_queued _ _ s
      · cases PitEntry.getOutRecord _ _ with
        | none => exact Queued.refl s
        | some record => exact insertNonceToDnl_queued _ s record
    · exact Queued.refl s

/-- Finalizing an entry of the table succeeds and erases that entry only. -/
theorem onInterestFinalize_spec (hl : s.pit.Linked) {e : PitEntry} (he : s.pit.entries r = some e)
    (isSatisfied : Bool) (dataFreshnessPeriod : Int) :
    ∃ s' s₁, onInterestFinalize P s r isSatisfied dataFreshnessPeriod = some s' ∧
      s₁ = insertDeadNonceList P s r isSatisfied dataFreshnessPeriod none ∧
      s'.pit.Linked ∧ s'.pit.entries = Function.update s.pit.entries r none ∧
      s'.pit.nextRef = s.pit.nextRef ∧ s'.now = s.now ∧ s'.faceId = s.faceId ∧ s'.cs = s.cs ∧
      s'.deadNonceList = s₁.deadNonceList ∧ s'.log = s₁.log ++ [.finalized r isSatisfied] := by
  have hq := insertDeadNonceList_queued (P := P) s r isSatisfied dataFreshnessPeriod none
  generalize hs₁ : insertDeadNonceList P s r isSatisfied dataFreshnessPeriod none = s₁ at hq
  have hl₂ : (cancelUnsatisfyAndStragglerTimer s₁ r).pit.Linked := by
    have hl₁ : s₁.pit.Linked := by rwa [hq.pit_eq]
    exact hl₁.modifyEntry r fun _ => rfl
  have he₂ : (cancelUnsatisfyAndStragglerTimer s₁ r).pit.entries r =
      some { e with unsatisfyTimer := none, stragglerTimer := none } := by
    rw [cancelUnsatisfyAndStragglerTimer, entries_modify, if_pos rfl, hq.pit_eq, he]
    rfl
  obtain ⟨p', hp', hlinked, hentries, hnext⟩ := hl₂.erase he₂
  have hrun : onInterestFinalize P s r isSatisfied dataFreshnessPeriod =
      some { cancelUnsatisfyAndStragglerTimer s₁ r with
        pit := p', log := s₁.log ++ [.finalized r isSatisfied] } := by
    simp only [onInterestFinalize, hs₁, hp', Option.map_some]
    rfl
  refine ⟨_, s₁, hrun, rfl, hlinked, ?_, ?_, hq.now_eq, hq.faceId_eq, hq.cs_eq, rfl, rfl⟩
  · show p'.entries = _
    rw [hentries]
    simp only [cancelUnsatisfyAndStragglerTimer, ForwarderState.modifyEntry, Pit.modifyEntry, hq.pit_eq,
      Function.update_idem]
  · show p'.nextRef = _
    rw [hnext]
    show s₁.pit.nextRef = _
    rw [hq.pit_eq]

/-- There is nothing to finalize without an entry. -/
theorem onInterestFinalize_absent (he : s.pit.entries r = none) (isSatisfied : Bool) (dataFreshnessPeriod : Int) :
    onInterestFinalize P s r isSatisfied dataFreshnessPeriod = none := by
  have hq := insertDeadNonceList_queued (P := P) s r isSatisfied dataFreshnessPeriod none
  simp [onInterestFinalize, Pit.erase, cancelUnsatisfyAndStragglerTimer, ForwarderState.modifyEntry,
    Pit.modifyEntry, hq.pit_eq, he]

/-- The state in which an Interest has been logged and its PIT entry found or created. -/
def withPit (s : ForwarderState κ) (inFace : Face) (interest : Interest) (pit : Pit) : ForwarderState κ :=
  { s.logged (.inInterest inFace interest) with pit }

/-- What an incoming Interest can lead to. -/
theorem onIncomingInterest_cases {inFace : Face} {interest : Interest} {actions : List StrategyAction}
    (h : onIncomingInterest P s inFace interest actions = some s') :
    (isViolatingLocalhost P inFace interest.name = true ∧
      s' = s.logged (.inInterest inFace interest)) ∨
    isViolatingLocalhost P inFace interest.name = false ∧
    ∃ pit r isNew e, s.pit.insert P.cityHash interest = some (pit, r, isNew) ∧ pit.entries r = some e ∧
      ((hasDuplicateNonce P s e inFace interest = true ∧ s' = withPit s inFace interest pit) ∨
       (hasDuplicateNonce P s e inFace interest = false ∧ e.inRecords = [] ∧
        ∃ cs data s₁, P.store.find s.cs s.now interest = (cs, some data) ∧
          dispatchToStrategy P (cancelUnsatisfyAndStragglerTimer
            { withPit s inFace interest pit with cs } r) r actions = some s₁ ∧
          s' = onOutgoingData P (setStragglerTimer s₁ r true data.freshnessPeriod) data inFace) ∨
       (hasDuplicateNonce P s e inFace interest = false ∧
        ∃ cs, onContentStoreMiss P (cancelUnsatisfyAndStragglerTimer
            { withPit s inFace interest pit with cs } r) inFace r interest actions = some s')) := by
  unfold onIncomingInterest at h
  cases hv : isViolatingLocalhost P inFace interest.name with
  | true =>
      simp only [hv, if_true, Option.some.injEq] at h
      exact Or.inl ⟨rfl, h.symm⟩
  | false =>
      refine Or.inr ⟨rfl, ?_⟩
      simp only [hv, Bool.false_eq_true, if_false] at h
      obtain ⟨⟨pit, r, isNew⟩, hins, h⟩ := Option.bind_eq_some_iff.mp h
      obtain ⟨e, he, h⟩ := Option.bind_eq_some_iff.mp h
      refine ⟨pit, r, isNew, e, hins, he, ?_⟩
      dsimp only at h
      have hdup : hasDuplicateNonce P { s.logged (.inInterest inFace interest) with pit } e inFace interest =
          hasDuplicateNonce P s e inFace interest := rfl
      rw [hdup] at h
      cases hd : hasDuplicateNonce P s e inFace interest with
      | true =>
          simp only [hd, if_true, Option.some.injEq] at h
          exact Or.inl ⟨rfl, h.symm⟩
      | false =>
          simp only [hd, Bool.false_eq_true, if_false] at h
          split at h
          · rename_i hempty
            have hfind : P.store.find (cancelUnsatisfyAndStragglerTimer
                { s.logged (.inInterest inFace interest) with pit } r).cs
                (cancelUnsatisfyAndStragglerTimer
                  { s.logged (.inInterest inFace interest) with pit } r).now interest =
                P.store.find s.cs s.now interest := rfl
            rw [hfind] at h
            generalize hf : P.store.find s.cs s.now interest = found at h
            obtain ⟨cs, o⟩ := found
            cases o with
            | some data =>
                simp only [onContentStoreHit] at h
                obtain ⟨s₁, hs₁, rfl⟩ := Option.map_eq_some_iff.mp h
                exact Or.inr (Or.inl ⟨rfl, hempty, cs, data, s₁, rfl, hs₁, rfl⟩)
            | none => exact Or.inr (Or.inr ⟨rfl, cs, h⟩)
          · exact Or.inr (Or.inr ⟨rfl, s.cs, h⟩)

theorem onOutgoingData_pit (s : ForwarderState κ) (data : Data) (face : Face) :
    (onOutgoingData P s data face).pit = s.pit := by
  unfold onOutgoingData
  split
  · rfl
  · split <;> rfl

theorem onOutgoingData_now (s : ForwarderState κ) (data : Data) (face : Face) :
    (onOutgoingData P s data face).now = s.now := by
  unfold onOutgoingData
  split
  · rfl
  · split <;> rfl

theorem linked_onIncomingInterest (h : s.pit.Linked) {inFace : Face} {interest : Interest}
    {actions : List StrategyAction} (hstep : onIncomingInterest P s inFace interest actions = some s') :
    s'.pit.Linked := by
  rcases onIncomingInterest_cases hstep with ⟨-, rfl⟩ | ⟨-, pit, r, isNew, e, hins, he, hcases⟩
  · exact h
  have hlinked := (h.insert_spec hins he).1
  rcases hcases with ⟨-, rfl⟩ | ⟨-, -, cs, data, s₁, -, hdisp, rfl⟩ | ⟨-, cs, hmiss⟩
  · exact hlinked
  · rw [onOutgoingData_pit]
    exact linked_setStragglerTimer ((dispatch_acted hdisp).linked (linked_cancel hlinked r)) r _ _
  · rw [onContentStoreMiss] at hmiss
    exact (dispatch_acted hmiss).linked
      (linked_setUnsatisfyTimer (linked_insertInRecord (linked_cancel hlinked r) r _ _ _) r)

/-! ### Incoming Data -/

theorem sendToDownstreams_pit (inFace : Face) (data : Data) (faces : List Face) (s : ForwarderState κ) :
    (sendToDownstreams P inFace data faces s).pit = s.pit := by
  unfold sendToDownstreams
  generalize faces.filter (fun face => face != inFace) = l
  induction l generalizing s with
  | nil => rfl
  | cons face l ih => rw [List.foldl_cons, ih, onOutgoingData_pit]

theorem sendToDownstreams_now (inFace : Face) (data : Data) (faces : List Face) (s : ForwarderState κ) :
    (sendToDownstreams P inFace data faces s).now = s.now := by
  unfold sendToDownstreams
  generalize faces.filter (fun face => face != inFace) = l
  induction l generalizing s with
  | nil => rfl
  | cons face l ih => rw [List.foldl_cons, ih, onOutgoingData_now]

/-- One round of the loop over the PIT matches: a trigger, Nonces queued, and the entry marked
satisfied. -/
theorem satisfyEntry_cases {inFace : Face} {data : Data} {actions : Ref → List StrategyAction}
    (hstep : satisfyEntry P inFace data actions s r = some s') :
    ∃ s₁ s₂, Acted r (cancelUnsatisfyAndStragglerTimer s r) s₁ ∧ Queued s₁ s₂ ∧
      s' = setStragglerTimer (markSatisfied s₂ r inFace) r true data.freshnessPeriod := by
  obtain ⟨s₁, hdisp, rfl⟩ := Option.map_eq_some_iff.mp hstep
  exact ⟨s₁, _, dispatch_acted hdisp, insertDeadNonceList_queued s₁ r true data.freshnessPeriod (some inFace), rfl⟩

/-- What holds before the loop over the PIT matches and is kept by every round holds after it. -/
theorem satisfyAll_rule {inFace : Face} {data : Data} {actions : Ref → List StrategyAction}
    {I : ForwarderState κ → Prop} (pitMatches : List Ref)
    (hstep : ∀ s, ∀ r ∈ pitMatches, ∀ s', I s → satisfyEntry P inFace data actions s r = some s' → I s') :
    ∀ {s : ForwarderState κ} {downstreams : List Face} {result}, I s →
      satisfyAll P inFace data actions s downstreams pitMatches = some result → I result.1 := by
  induction pitMatches with
  | nil =>
      intro s downstreams result h hrun
      cases hrun
      exact h
  | cons r pitMatches ih =>
      intro s downstreams result h hrun
      rw [satisfyAll] at hrun
      obtain ⟨s₁, hs₁, hrest⟩ := Option.bind_eq_some_iff.mp hrun
      refine ih (fun s x hx => hstep s x (List.mem_cons_of_mem r hx)) ?_ hrest
      exact hstep s r List.mem_cons_self s₁ h hs₁

theorem satisfyAll_invariant {inFace : Face} {data : Data} {actions : Ref → List StrategyAction}
    {I : ForwarderState κ → Prop} (hstep : ∀ s r s', I s → satisfyEntry P inFace data actions s r = some s' → I s')
    (pitMatches : List Ref) {s : ForwarderState κ} {downstreams : List Face} {result} (h : I s)
    (hrun : satisfyAll P inFace data actions s downstreams pitMatches = some result) : I result.1 :=
  satisfyAll_rule pitMatches (fun s r _ => hstep s r) h hrun

/-- What an incoming Data can lead to. -/
theorem onIncomingData_cases {inFace : Face} {data : Data} {actions : Ref → List StrategyAction}
    (h : onIncomingData P s inFace data actions = some s') :
    (s' = s.logged (.inData inFace data)) ∨
    (s' = onDataUnsolicited P (s.logged (.inData inFace data)) inFace data) ∨
    ∃ result, satisfyAll P inFace data actions
        { s.logged (.inData inFace data) with cs := P.store.insert s.cs s.now data false } []
        (s.pit.findAllDataMatches P.cityHash P.matchesData data) = some result ∧
      s' = sendToDownstreams P inFace data result.2 result.1 := by
  unfold onIncomingData at h
  dsimp only at h
  split at h
  · exact Or.inl (Option.some.inj h).symm
  · split at h
    · exact Or.inr (Or.inl (Option.some.inj h).symm)
    · obtain ⟨result, hresult, rfl⟩ := Option.map_eq_some_iff.mp h
      exact Or.inr (Or.inr ⟨result, hresult, rfl⟩)

theorem onDataUnsolicited_pit (s : ForwarderState κ) (inFace : Face) (data : Data) :
    (onDataUnsolicited P s inFace data).pit = s.pit := by
  unfold onDataUnsolicited
  split <;> rfl

theorem onDataUnsolicited_now (s : ForwarderState κ) (inFace : Face) (data : Data) :
    (onDataUnsolicited P s inFace data).now = s.now := by
  unfold onDataUnsolicited
  split <;> rfl

theorem onDataUnsolicited_log (s : ForwarderState κ) (inFace : Face) (data : Data) :
    (onDataUnsolicited P s inFace data).log = s.log := by
  unfold onDataUnsolicited
  split <;> rfl

theorem linked_satisfyEntry (h : s.pit.Linked) {inFace : Face} {data : Data}
    {actions : Ref → List StrategyAction} (hstep : satisfyEntry P inFace data actions s r = some s') :
    s'.pit.Linked := by
  obtain ⟨s₁, s₂, hact, hq, rfl⟩ := satisfyEntry_cases hstep
  have hl : s₂.pit.Linked := by
    rw [hq.pit_eq]
    exact hact.linked (linked_cancel h r)
  exact linked_setStragglerTimer (linked_markSatisfied hl r inFace) r _ _

theorem linked_onIncomingData (h : s.pit.Linked) {inFace : Face} {data : Data}
    {actions : Ref → List StrategyAction} (hstep : onIncomingData P s inFace data actions = some s') :
    s'.pit.Linked := by
  rcases onIncomingData_cases hstep with rfl | rfl | ⟨result, hresult, rfl⟩
  · exact h
  · rw [onDataUnsolicited_pit]
    exact h
  · rw [sendToDownstreams_pit]
    refine satisfyAll_invariant (I := fun s => s.pit.Linked) (fun _ _ _ h hs => linked_satisfyEntry h hs) _ ?_
      hresult
    exact h

end NfdPitless.Forwarder
