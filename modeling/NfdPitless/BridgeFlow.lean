import NfdPitless.BridgeForwarder
import NfdPitless.ForwarderFlow

/-! Replies of the bridge forwarder. It matches a Data by name only and ignores the selectors of the
PIT entries it satisfies, so a face may be sent a Data that none of its Interests allows. When every
face that a Data goes to has an in-record on an entry whose selectors the Data satisfies, every Data sent
answers an Interest of its own, as in the base forwarder. -/

namespace NfdPitless.BridgeForwarder

open Forwarder

variable {κ : Type} {P : Platform κ} {supportingName : Name} {s s' : ForwarderState κ} {r : Ref}

/-- Whether the outgoing Data pipeline sends. -/
def sendable (P : Platform κ) (s : ForwarderState κ) (data : Data) (face : Face) : Bool :=
  (s.faceId face).isSome && !isViolatingLocalhost P face data.name

/-- Every face that a Data would be sent to, as an unexpired downstream of a PIT entry of its supporting
name, has an in-record on such an entry whose Interest the renamed Data matches. -/
def allowedBySelectors (P : Platform κ) (s : ForwarderState κ) : Event → Bool
  | .incomingData inFace data =>
      let pitMatches := s.pit.findAllDataMatchesByName P.cityHash data.supportingName
      pitMatches.all fun r => (pendingDownstreamsOf s r).all fun face =>
        face == inFace || !sendable P s (resetName data) face ||
          pitMatches.any fun x => (s.pit.entries x).any fun e => (inFaces e).contains face &&
            P.matchesData e.interest.name e.interest.selectors (resetName data)
  | _ => true

theorem exists_allowed {inFace face : Face} {data : Data} {r : Ref}
    (h : allowedBySelectors P s (.incomingData inFace data) = true)
    (hr : r ∈ s.pit.findAllDataMatchesByName P.cityHash data.supportingName)
    (hface : face ∈ pendingDownstreamsOf s r) (hne : face ≠ inFace)
    (hsend : sendable P s (resetName data) face = true) :
    ∃ x ∈ s.pit.findAllDataMatchesByName P.cityHash data.supportingName, ∃ e, s.pit.entries x = some e ∧
      face ∈ inFaces e ∧ P.matchesData e.interest.name e.interest.selectors (resetName data) = true := by
  have hany := List.all_eq_true.mp (List.all_eq_true.mp h r hr) face hface
  rw [hsend, beq_false_of_ne hne, Bool.not_true, Bool.or_self, Bool.false_or, List.any_eq_true] at hany
  obtain ⟨x, hx, hentry⟩ := hany
  obtain ⟨e, he, hboth⟩ := (Option.any_eq_true _ _).mp hentry
  rw [Bool.and_eq_true, List.contains_iff_mem] at hboth
  exact ⟨x, hx, e, he, hboth⟩

theorem onOutgoingData_of_not_sendable {data : Data} {face : Face} (h : sendable P s data face = false) :
    onOutgoingData P s data face = s := by
  unfold onOutgoingData
  unfold sendable at h
  cases hid : s.faceId face with
  | none => rfl
  | some id =>
      rw [hid] at h
      have hv : isViolatingLocalhost P face data.name = true := by simpa using h
      rw [if_neg (by simp)]
      exact if_pos hv

theorem onOutgoingData_faceId (s : ForwarderState κ) (data : Data) (face : Face) :
    (onOutgoingData P s data face).faceId = s.faceId := by
  unfold onOutgoingData
  split
  · rfl
  · split <;> rfl

theorem sendable_onOutgoingData (s : ForwarderState κ) (data : Data) (face : Face) :
    sendable P (onOutgoingData P s data face) data = sendable P s data := by
  funext f
  rw [sendable, onOutgoingData_faceId, sendable]

/-- Only the faces that the outgoing Data pipeline sends to matter. -/
theorem foldl_onOutgoingData_filter (data : Data) (faces : List Face) (s : ForwarderState κ) :
    faces.foldl (fun s face => onOutgoingData P s data face) s =
      (faces.filter (sendable P s data)).foldl (fun s face => onOutgoingData P s data face) s := by
  induction faces generalizing s with
  | nil => rfl
  | cons face faces ih =>
      cases hf : sendable P s data face with
      | true => rw [List.foldl_cons, List.filter_cons_of_pos hf, List.foldl_cons, ih, sendable_onOutgoingData]
      | false =>
          rw [List.foldl_cons, List.filter_cons_of_neg (by simp [hf]), onOutgoingData_of_not_sendable hf, ih]

/-- A content store miss makes the token of the Interest the token of its in-record. -/
theorem flowBalanced_onContentStoreMiss {spare : Face → Option Nat} {tok : Ref → Face → Nat} {inFace : Face}
    {interest : Interest} {nexthops : List Face} {t : Nat} {e : PitEntry}
    (h : Tokens P.matchesData (fun i => i = interest) spare s tok) (hspare : spare inFace = some t)
    (he : s.pit.entries r = some e) (hname : e.interest.name = interest.name)
    (hsel : e.interest.selectors = interest.selectors) :
    FlowBalanced P.matchesData (onContentStoreMiss supportingName s inFace r interest nexthops) := by
  have hrec : Tokens P.matchesData (fun _ => True) (fun _ => none) (s.modifyEntry r fun e =>
      e.insertOrUpdateInRecord s.now inFace { interest with supportingName }) _ :=
    h.record s.now _ hspare (fun i hi => by rw [hi, hname, hsel]; exact ⟨rfl, rfl⟩) he
  obtain ⟨sends, hrun, hshape⟩ := onContentStoreMiss_spec supportingName s inFace r interest nexthops
  refine ⟨_, (hrec.setUnsatisfy r).congr sends ?_ ?_ ?_⟩
  · intro x e' face he' hface
    rw [onContentStoreMiss_pit] at he'
    exact ⟨e', he', hface, rfl⟩
  · rw [hrun]
    rfl
  · rcases hshape with ⟨rfl, -⟩ | ⟨outFace, -, -, rfl⟩ <;> simp [IsReply]

theorem balanced_incomingInterest (h : Balanced P s) (hstore : P.store.Sound P.matchesData) {inFace : Face}
    {interest : Interest} {nexthops : List Face}
    {strategy : StrategyInstance}
    (hstep : onIncomingInterest P supportingName s inFace interest nexthops strategy = some s') : Balanced P s' := by
  obtain ⟨tok, htok⟩ := h.flow
  have harr := htok.arrive inFace interest
  rcases onIncomingInterest_cases hstep with ⟨-, rfl⟩ | ⟨-, pit, r, isNew, e, hins, he, hcases⟩
  · exact ⟨h.linked, tok, harr.drop⟩
  obtain ⟨hlinked, -, -, hname, hsel, -⟩ := h.linked.insert_spec hins he
  have hpit : ∀ cs, Tokens P.matchesData (fun i => i = interest)
      (fun f => if f = inFace then some s.log.length else none)
      { withPit s inFace interest pit with cs } tok := fun cs =>
    harr.insert h.linked hins he rfl rfl
  rcases hcases with ⟨-, rfl⟩ | ⟨-, -, cs, data, hfind, rfl⟩ | ⟨-, -, cs, rfl⟩
  · exact ⟨hlinked, tok, (hpit s.cs).drop⟩
  · refine ⟨?_, ?_⟩
    · rw [onOutgoingData_pit]
      exact linked_cancel hlinked r
    · obtain ⟨spare', hsent⟩ := Tokens.sendAll P data [inFace] (List.nodup_singleton _)
        (fun f hf => by rw [List.mem_singleton.mp hf]; simp)
        (fun i hi => by rw [hi]; exact hstore _ _ _ _ _ hfind) ((hpit cs).cancel r)
      exact ⟨tok, hsent.drop⟩
  · refine ⟨?_, ?_⟩
    · rw [onContentStoreMiss_pit]
      exact linked_setUnsatisfyTimer (linked_insertInRecord (linked_cancel hlinked r) r _ _ _) r
    · refine flowBalanced_onContentStoreMiss ((hpit cs).cancel r) (if_pos rfl)
        (e := { e with unsatisfyTimer := none, stragglerTimer := none }) ?_ hname hsel
      rw [cancelUnsatisfyAndStragglerTimer, entries_modify, if_pos rfl]
      simp [withPit, he]

variable {inFace : Face} {data : Data} {spare : Face → Option Nat} {tok : Ref → Face → Nat}

/-- Satisfying one entry changes no other entry and deletes the in-records of its own. -/
theorem satisfyEntry_entries (hstep : satisfyEntry P inFace data (fun _ => []) s r = some s') :
    s'.now = s.now ∧ s'.faceId = s.faceId ∧ (∀ x, x ≠ r → s'.pit.entries x = s.pit.entries x) ∧
      ∀ e', s'.pit.entries r = some e' → e'.inRecords = [] := by
  obtain ⟨s₁, s₂, hact, hq, rfl⟩ := satisfyEntry_cases hstep
  refine ⟨hq.now_eq.trans hact.now_eq, hq.faceId_eq.trans hact.faceId_eq, fun x hx => ?_, fun e' he' => ?_⟩
  · simp only [setStragglerTimer, markSatisfied, ForwarderState.logged, entries_modify, if_neg hx, hq.pit_eq]
    rw [hact.other x hx, cancelUnsatisfyAndStragglerTimer, entries_modify, if_neg hx]
  · simp only [setStragglerTimer, markSatisfied, ForwarderState.logged, entries_modify, if_true,
      Option.map_map] at he'
    obtain ⟨e₁, -, rfl⟩ := Option.map_eq_some_iff.mp he'
    rfl

/-- The tokens through the loop over the PIT matches: the in-records of the entries that the Data
matches become spare, and every face collected was a pending downstream before the loop. -/
theorem tokens_satisfyAll (pitMatches : List Ref) :
    ∀ {s : ForwarderState κ} {spare : Face → Option Nat} {downstreams : List Face} {result},
      Tokens P.matchesData (fun i => P.matchesData i.name i.selectors data = true) spare s tok →
      downstreams.Nodup → satisfyAll P inFace data (fun _ => []) s downstreams pitMatches = some result →
      ∃ spare', Tokens P.matchesData (fun i => P.matchesData i.name i.selectors data = true) spare' result.1 tok ∧
        (∀ face, (spare face).isSome → (spare' face).isSome) ∧
        (∀ x ∈ pitMatches, ∀ e face, s.pit.entries x = some e → face ∈ inFaces e →
          P.matchesData e.interest.name e.interest.selectors data = true → (spare' face).isSome) ∧
        result.1.faceId = s.faceId ∧ result.2.Nodup ∧
        ∀ face ∈ result.2, face ∈ downstreams ∨ ∃ x ∈ pitMatches, face ∈ pendingDownstreamsOf s x := by
  induction pitMatches with
  | nil =>
      intro s spare downstreams result h hnodup hrun
      cases hrun
      exact ⟨spare, h, fun _ hf => hf, by simp, rfl, hnodup, fun _ hf => Or.inl hf⟩
  | cons r pitMatches ih =>
      intro s spare downstreams result h hnodup hrun
      rw [satisfyAll] at hrun
      obtain ⟨s₁, hs₁, hrest⟩ := Option.bind_eq_some_iff.mp hrun
      obtain ⟨hnow, hfaceId, hother, hdeleted⟩ := satisfyEntry_entries hs₁
      -- the entry's tokens become spare if the Data matches it, and are given up otherwise
      obtain ⟨spare₁, h₁, hkeep, hfreed⟩ : ∃ spare₁,
          Tokens P.matchesData (fun i => P.matchesData i.name i.selectors data = true) spare₁ s₁ tok ∧
          (∀ face, (spare face).isSome → (spare₁ face).isSome) ∧
          ∀ e face, s.pit.entries r = some e → face ∈ inFaces e →
            P.matchesData e.interest.name e.interest.selectors data = true → (spare₁ face).isSome := by
        by_cases hmatch : ∃ e, s.pit.entries r = some e ∧
            P.matchesData e.interest.name e.interest.selectors data = true
        · obtain ⟨e, he, hm⟩ := hmatch
          refine ⟨_, h.satisfyEntry he hm hs₁, fun face hf => takeSpares_isSome (Or.inl hf), ?_⟩
          intro e' face he' hface _
          rw [he] at he'
          cases he'
          exact takeSpares_isSome (Or.inr hface)
        · obtain ⟨s₂, s₃, hact, hq, rfl⟩ := satisfyEntry_cases hs₁
          refine ⟨spare, ((((h.cancel r).acted hact).queued hq).markSatisfied r inFace).setStraggler r true _,
            fun _ hf => hf, fun e face he _ hm => absurd ⟨e, he, hm⟩ hmatch⟩
      obtain ⟨spare', h', hmono, hall, hid, hnodup', hfrom⟩ := ih h₁ (foldl_insertFace_nodup hnodup) hrest
      refine ⟨spare', h', fun face hf => hmono face (hkeep face hf), ?_, hid.trans hfaceId, hnodup', ?_⟩
      · intro x hx e face he hface hm
        by_cases hxr : x = r
        · subst hxr
          exact hmono face (hfreed e face he hface hm)
        · have hx' : x ∈ pitMatches := (List.mem_cons.mp hx).resolve_left hxr
          exact hall x hx' e face (by rw [hother x hxr, he]) hface hm
      · intro face hface
        rcases hfrom face hface with hf | ⟨x, hx, hf⟩
        · rcases mem_foldl_insertFace.mp hf with hf | hf
          · exact Or.inr ⟨r, List.mem_cons_self, hf⟩
          · exact Or.inl hf
        · by_cases hxr : x = r
          · subst hxr
            obtain ⟨e, he, hmem⟩ := mem_inFaces_of_pendingDownstreams hf
            rw [inFaces, hdeleted e he] at hmem
            cases hmem
          · refine Or.inr ⟨x, List.mem_cons_of_mem r hx, ?_⟩
            rw [pendingDownstreamsOf, hother x hxr, hnow] at hf
            exact hf

theorem balanced_incomingData (h : Balanced P s) (hok : allowedBySelectors P s (.incomingData inFace data) = true)
    (hstep : onIncomingData P s inFace data = some s') : Balanced P s' := by
  obtain ⟨tok, htok⟩ := h.flow
  have hlog := htok.logged (.inData inFace data) (fun h => h)
  rcases onIncomingData_cases hstep with rfl | rfl | ⟨result, hresult, rfl⟩
  · exact ⟨h.linked, tok, hlog⟩
  · refine ⟨?_, tok, hlog.same (by rw [onDataUnsolicited_pit]) (onDataUnsolicited_log _ _ _)⟩
    rw [onDataUnsolicited_pit]
    exact h.linked
  · have hstart : Tokens P.matchesData (fun i => P.matchesData i.name i.selectors (resetName data) = true)
        (fun _ => none)
        { s.logged (.inData inFace data) with cs := P.store.insert s.cs s.now (resetName data) false } tok :=
      hlog.drop.same rfl rfl
    obtain ⟨spare', hend, -, hfreed, hid, hnodup, hfrom⟩ := tokens_satisfyAll _ hstart List.nodup_nil hresult
    refine ⟨?_, ?_⟩
    · rw [sendToDownstreams_pit]
      refine satisfyAll_invariant (I := fun s => s.pit.Linked) (fun _ _ _ h hs => linked_satisfyEntry h hs) _ ?_
        hresult
      exact h.linked
    · rw [sendToDownstreams, foldl_onOutgoingData_filter]
      have hspares : HasSpares spare'
          ((result.2.filter fun face => face != inFace).filter (sendable P result.1 (resetName data))) := by
        intro face hface
        obtain ⟨hface, hsend⟩ := List.mem_filter.mp hface
        obtain ⟨hface, hne⟩ := List.mem_filter.mp hface
        obtain ⟨x, hx, hpending⟩ := (hfrom face hface).resolve_left List.not_mem_nil
        have hsend' : sendable P s (resetName data) face = true := by
          rw [sendable, hid] at hsend
          exact hsend
        obtain ⟨y, hy, e, he, hmem, hm⟩ := exists_allowed hok hx hpending (by simpa using hne) hsend'
        exact hfreed y hy e face he hmem hm
      obtain ⟨spare'', hsent⟩ := Tokens.sendAll P _ _ ((hnodup.filter _).filter _) hspares (fun i hi => hi) hend
      exact ⟨tok, hsent.drop⟩

/-- Every step that meets the condition keeps the flow balanced. -/
theorem balanced_step (h : Balanced P s) (hstore : P.store.Sound P.matchesData) {event : Event}
    (hok : allowedBySelectors P s event = true) (hstep : step P supportingName s event = some s') : Balanced P s' := by
  rcases step_cases hstep with ⟨inFace, interest, nexthops, strategy, rfl, hrun⟩ | ⟨inFace, data, rfl, hrun⟩ |
    ⟨base, -, hrun⟩
  · exact balanced_incomingInterest h hstore hrun
  · exact balanced_incomingData h hok hrun
  · exact h.step hstore hrun

/-- In every run with the built-in content store in which each face that a Data goes to has an in-record
on an entry whose Interest the renamed Data matches, every Data sent to a face matches an Interest
received earlier from that face that no other Data answers. -/
theorem replies_match_selectors {π : Type} (cityHash : Component → UInt64) (makeEntry : Name → UInt32 → UInt64)
    (digest : Data → List UInt8) (getSuccessor : Name → Name) (matchesData : MatchesData)
    (isLocal : Face → Bool) (policy : CsPolicy π) (policyState : π) (supportingName : Name) (nBuckets : Nat)
    (faceId : Face → Option Nat) (s : ForwarderState (Cs π))
    (hr : Reach (step (.builtin cityHash makeEntry digest getSuccessor matchesData isLocal policy) supportingName)
      (fun s event => allowedBySelectors
        (.builtin cityHash makeEntry digest getSuccessor matchesData isLocal policy) s event = true)
      (ForwarderState.new nBuckets faceId ⟨[], policyState⟩) s) : Charged matchesData s.log := by
  generalize hP : Platform.builtin cityHash makeEntry digest getSuccessor matchesData isLocal policy = P at hr
  have hstore : P.store.Sound P.matchesData := by
    rw [← hP]
    exact Cs.contentStore_sound policy
  have hmatch : P.matchesData = matchesData := by
    rw [← hP]
    rfl
  have hinit : Balanced P (ForwarderState.new nBuckets faceId ⟨[], policyState⟩) :=
    ⟨Pit.new_linked nBuckets, new_flowBalanced nBuckets faceId _⟩
  have hbal := hr.invariant hinit fun _ _ _ h hok hs => balanced_step h hstore hok hs
  obtain ⟨tok, htok⟩ := hbal.flow
  rw [← hmatch]
  exact htok.charged

/-- An Interest for the name `/A` that wants at least two components after it. -/
def wantsTwoMore : Interest :=
  { plainInterest [.ofByte 65] with selectors := { Selectors.empty with minSuffixComponents := some 2 } }

/-- Face 1 sends that Interest, and face 2 a Data whose supporting name is `/A`. -/
def answeredByName : List Event :=
  [.incomingInterest 1 wantsTwoMore [2] makeDefaultStrategy,
    .incomingData 2 { plainData [.ofByte 66] with supportingName := [.ofByte 65] }]

/-- The Data goes to face 1 under the name `/A`, too short for the only Interest that face has sent. -/
theorem reply_ignores_selectors :
    ∃ s, Reach (step Platform.sample []) anyStep ForwarderState.sample s ∧
      ¬ Charged Platform.sample.matchesData s.log := by
  have hrun : (exec (step Platform.sample []) ForwarderState.sample answeredByName).map (fun s => s.log) =
      some [.inInterest 1 wantsTwoMore, .outInterest 0 2 wantsTwoMore,
        .inData 2 { plainData [.ofByte 66] with supportingName := [.ofByte 65] }, .satisfied 0 2,
        .outData 1 { plainData [.ofByte 65] with supportingName := [.ofByte 65] }] := by decide
  obtain ⟨s, hs, hlog⟩ := Option.map_eq_some_iff.mp hrun
  refine ⟨s, reach_of_exec Reach.start hs, ?_⟩
  rw [hlog]
  rintro ⟨charge, hcharge, -⟩
  obtain ⟨hlt, interest, hin, hmatch⟩ := hcharge 4 1 _ rfl
  generalize charge 4 = t at hlt hin
  rcases t with _ | _ | _ | _ | t
  · cases hin
    revert hmatch
    decide
  · cases hin
  · cases hin
  · cases hin
  · omega

/-- The same run with an Interest without selectors. -/
theorem replies_match_selectors_sample :
    ∃ s, exec (step Platform.sample []) ForwarderState.sample
        [.incomingInterest 1 (plainInterest [.ofByte 65]) [2] makeDefaultStrategy,
          .incomingData 2 { plainData [.ofByte 66] with supportingName := [.ofByte 65] }] = some s ∧
      LogItem.outData 1 { plainData [.ofByte 65] with supportingName := [.ofByte 65] } ∈ s.log ∧
      Charged Platform.sample.matchesData s.log := by
  have hrun : (exec (guarded (step Platform.sample []) (allowedBySelectors Platform.sample))
      ForwarderState.sample [.incomingInterest 1 (plainInterest [.ofByte 65]) [2] makeDefaultStrategy,
        .incomingData 2 { plainData [.ofByte 66] with supportingName := [.ofByte 65] }]).map
      (fun s => decide (LogItem.outData 1 { plainData [.ofByte 65] with supportingName := [.ofByte 65] } ∈ s.log)) =
      some true := by decide
  obtain ⟨s, hs, hmem⟩ := Option.map_eq_some_iff.mp hrun
  refine ⟨s, exec_of_guarded hs, by simpa using hmem, ?_⟩
  exact replies_match_selectors NameTree.octetHash _ (fun _ => [0]) incrementLast (matchesSuffix fun _ => [0])
    (fun _ => false) .keepAll () [] 16 some s (reach_of_exec_guarded Reach.start hs)

end NfdPitless.BridgeForwarder
