import NfdPitless.BridgeFlow
import NfdPitless.ForwarderLoop
import NfdPitless.ForwarderPending

/-! What the base forwarder does with an incoming Data: it goes once to each unexpired downstream of the PIT entries it
matches, and these entries are left waiting for stragglers. -/

namespace NfdPitless.Forwarder

open BridgeForwarder (sendable sendable_onOutgoingData onOutgoingData_of_not_sendable)

variable {κ : Type} {P : Platform κ} {s s' : ForwarderState κ} {r : Ref} {inFace : Face} {data : Data}
  {actions : Ref → List StrategyAction}

/-- A face to which a Data of `inFace` goes that matches the PIT entries `refs`. -/
structure IsDownstream (P : Platform κ) (s : ForwarderState κ) (inFace : Face) (data : Data) (refs : List Ref)
    (face : Face) : Prop where
  ne_inFace : face ≠ inFace
  valid : (s.faceId face).isSome
  scope : isViolatingLocalhost P face data.name = false
  pending : ∃ r ∈ refs, ∃ e, s.pit.entries r = some e ∧ ∃ record ∈ e.inRecords, record.face = face ∧
    s.now < record.expiry

/-- A PIT entry after it was satisfied by a Data of `inFace` at `time`. -/
structure SatisfiedBy (time : Nat) (inFace : Face) (data : Data) (e : PitEntry) : Prop where
  inRecords_eq : e.inRecords = []
  outRecord_ne : ∀ o ∈ e.outRecords, o.face ≠ inFace
  stragglerTimer_eq : e.stragglerTimer = some ⟨time + stragglerTime, true, data.freshnessPeriod⟩

/-- What a Data that matches the PIT entries `refs` leads to; `items` is what is logged after its arrival. -/
structure FansOut (P : Platform κ) (s s' : ForwarderState κ) (inFace : Face) (data : Data) (refs : List Ref)
    (items : List LogItem) : Prop where
  log_eq : s'.log = s.log ++ .inData inFace data :: items
  once : ∀ face, IsDownstream P s inFace data refs face → items.count (.outData face data) = 1
  only : ∀ face data', LogItem.outData face data' ∈ items → data' = data ∧ IsDownstream P s inFace data refs face
  unmatched : refs = [] → items = []
  satisfied : ∀ r ∈ refs, ∃ e, s'.pit.entries r = some e ∧ SatisfiedBy s'.now inFace data e
  other : ∀ r, r ∉ refs → s'.pit.entries r = s.pit.entries r

theorem foldl_onOutgoingData_log (data : Data) (faces : List Face) (s : ForwarderState κ) :
    (faces.foldl (fun s face => onOutgoingData P s data face) s).log =
      s.log ++ (faces.filter (sendable P s data)).map fun face => .outData face data := by
  induction faces generalizing s with
  | nil => exact (List.append_nil _).symm
  | cons face faces ih =>
      rw [List.foldl_cons, ih, sendable_onOutgoingData]
      cases hface : sendable P s data face with
      | false => rw [onOutgoingData_of_not_sendable hface, List.filter_cons_of_neg (by simp [hface])]
      | true =>
          have hsent : onOutgoingData P s data face = s.logged (.outData face data) := by
            rw [sendable, Bool.and_eq_true, Bool.not_eq_true'] at hface
            rw [onOutgoingData, if_neg (by simpa [Option.isSome_iff_ne_none] using hface.1)]
            exact if_neg (Bool.eq_false_iff.mp hface.2)
          rw [hsent, List.filter_cons_of_pos hface, List.map_cons, ForwarderState.logged, List.append_assoc]
          rfl

theorem eraseP_face_ne {records : List OutRecord} (h : (records.map OutRecord.face).Nodup) {face : Face} :
    ∀ o ∈ records.eraseP (fun o => o.face == face), o.face ≠ face := by
  induction records with
  | nil => exact fun o ho => (List.not_mem_nil ho).elim
  | cons record records ih =>
      obtain ⟨hrecord, hrest⟩ := List.nodup_cons.mp h
      intro o ho
      by_cases hface : record.face = face
      · rw [List.eraseP_cons_of_pos (by simpa using hface)] at ho
        rintro rfl
        exact hrecord (hface ▸ List.mem_map_of_mem ho)
      · rw [List.eraseP_cons_of_neg (by simpa using hface)] at ho
        rcases List.mem_cons.mp ho with rfl | ho
        · exact hface
        · exact ih hrest o ho

/-- One round of the loop over the PIT matches: only Interests are sent, and the entry is satisfied. -/
theorem satisfyEntry_fanout (h : Remembers P s) (hstep : satisfyEntry P inFace data actions s r = some s') :
    s'.faceId = s.faceId ∧
      (∃ items, s'.log = s.log ++ items ∧ ∀ face data', LogItem.outData face data' ∉ items) ∧
        ∀ e, s'.pit.entries r = some e → SatisfiedBy s.now inFace data e := by
  obtain ⟨s₁, hdisp, rfl⟩ := Option.map_eq_some_iff.mp hstep
  have hact := dispatch_acted hdisp
  have hq := insertDeadNonceList_queued (P := P) s₁ r true data.freshnessPeriod (some inFace)
  have hrem := ((h.cancel r).dispatch hdisp).queued hq
  refine ⟨hq.faceId_eq.trans hact.faceId_eq, ?_, ?_⟩
  · obtain ⟨sends, hsends, hinterest⟩ := hact.log_eq
    obtain ⟨nonces, hnonces, hdead⟩ := hq.log_eq
    refine ⟨sends ++ (nonces ++ [.satisfied r inFace]), ?_, fun face data' hmem => ?_⟩
    · have hlog : ∀ s : ForwarderState κ, (setStragglerTimer (markSatisfied s r inFace) r true
          data.freshnessPeriod).log = s.log ++ [.satisfied r inFace] := fun _ => rfl
      rw [hlog, hnonces, hsends, List.append_assoc, List.append_assoc]
      rfl
    · rcases List.mem_append.mp hmem with hmem | hmem
      · obtain ⟨_, _, heq⟩ := hinterest _ hmem
        cases heq
      · rcases List.mem_append.mp hmem with hmem | hmem
        · obtain ⟨_, _, _, heq⟩ := hdead _ hmem
          cases heq
        · cases List.mem_singleton.mp hmem
  · intro e he
    simp only [setStragglerTimer, markSatisfied, ForwarderState.logged, entries_modify, if_true, Option.map_map] at he
    obtain ⟨e₁, he₁, rfl⟩ := Option.map_eq_some_iff.mp he
    refine ⟨rfl, eraseP_face_ne (hrem.recorded he₁).outRecords, ?_⟩
    have hnow := hq.now_eq.trans hact.now_eq
    exact congrArg (fun now => some (StragglerTimer.mk (now + stragglerTime) true data.freshnessPeriod)) hnow

theorem mem_pendingDownstreamsOf {face : Face} : face ∈ pendingDownstreamsOf s r ↔
    ∃ e, s.pit.entries r = some e ∧ ∃ record ∈ e.inRecords, record.face = face ∧ s.now < record.expiry := by
  rw [pendingDownstreamsOf]
  cases he : s.pit.entries r with
  | none => simp
  | some e =>
      simp only [Option.elim_some, List.mem_map, List.mem_filter, decide_eq_true_iff, Option.some.injEq,
        exists_eq_left']
      constructor
      · rintro ⟨record, ⟨hmem, hexp⟩, hface⟩
        exact ⟨record, hmem, hface, hexp⟩
      · rintro ⟨record, hmem, hface, hexp⟩
        exact ⟨record, ⟨hmem, hexp⟩, hface⟩

/-- The whole loop: the downstreams collected are those pending before it, as a satisfied entry has none. -/
theorem satisfyAll_fanout (refs : List Ref) : ∀ {s : ForwarderState κ} {downstreams : List Face} {result},
    Remembers P s → downstreams.Nodup → satisfyAll P inFace data actions s downstreams refs = some result →
      result.1.faceId = s.faceId ∧
        (∃ items, result.1.log = s.log ++ items ∧ ∀ face data', LogItem.outData face data' ∉ items) ∧
          (∀ r ∈ refs, ∀ e, result.1.pit.entries r = some e → SatisfiedBy s.now inFace data e) ∧
            result.2.Nodup ∧
              ∀ face, face ∈ result.2 ↔ face ∈ downstreams ∨ ∃ r ∈ refs, face ∈ pendingDownstreamsOf s r := by
  induction refs with
  | nil =>
      intro s downstreams result h hnodup hrun
      cases hrun
      exact ⟨rfl, ⟨[], by simp, by simp⟩, by simp, hnodup, by simp⟩
  | cons r refs ih =>
      intro s downstreams result h hnodup hrun
      rw [satisfyAll] at hrun
      obtain ⟨s₁, hs₁, hrest⟩ := Option.bind_eq_some_iff.mp hrun
      obtain ⟨hid₁, ⟨items₁, hlog₁, hno₁⟩, hsat₁⟩ := satisfyEntry_fanout h hs₁
      have hround := satisfyEntry_satisfies hs₁
      obtain ⟨hid, ⟨items, hlog, hno⟩, hsat, hnodup', hmem⟩ :=
        ih (h.satisfyEntry hs₁) (foldl_insertFace_nodup hnodup) hrest
      have hloop := satisfyAll_satisfies refs hrest
      refine ⟨hid.trans hid₁, ⟨items₁ ++ items, by rw [hlog, hlog₁, List.append_assoc], fun face data' hitem => ?_⟩,
        fun x hx e he => ?_, hnodup', fun face => ?_⟩
      · rcases List.mem_append.mp hitem with hitem | hitem
        · exact hno₁ face data' hitem
        · exact hno face data' hitem
      · by_cases hxs : x ∈ refs
        · rw [← hround.now_eq]
          exact hsat x hxs e he
        · obtain rfl := (List.mem_cons.mp hx).resolve_right hxs
          rw [hloop.other x hxs] at he
          exact hsat₁ e he
      · -- an entry met before is pending for no face, and was collected when it was met
        have hpending : ∀ x, x ≠ r → pendingDownstreamsOf s₁ x = pendingDownstreamsOf s x := by
          intro x hx
          rw [pendingDownstreamsOf, pendingDownstreamsOf, hround.other x (by simpa using hx), hround.now_eq]
        have hnone : pendingDownstreamsOf s₁ r = [] := by
          rw [pendingDownstreamsOf]
          cases he : s₁.pit.entries r with
          | none => rfl
          | some e => simp [(hsat₁ e he).inRecords_eq]
        rw [hmem, mem_foldl_insertFace]
        constructor
        · rintro ((hf | hf) | ⟨x, hx, hf⟩)
          · exact .inr ⟨r, List.mem_cons_self, hf⟩
          · exact .inl hf
          · by_cases hxr : x = r
            · rw [hxr, hnone] at hf
              cases hf
            · exact .inr ⟨x, List.mem_cons_of_mem r hx, hpending x hxr ▸ hf⟩
        · rintro (hf | ⟨x, hx, hf⟩)
          · exact .inl (.inr hf)
          · by_cases hxr : x = r
            · exact .inl (.inl (hxr ▸ hf))
            · exact .inr ⟨x, (List.mem_cons.mp hx).resolve_left hxr, (hpending x hxr).symm ▸ hf⟩

theorem isSome_of_matches {p : Pit} (hr : r ∈ p.findAllDataMatches P.cityHash P.matchesData data) :
    (p.entries r).isSome := by
  obtain ⟨e, he, -⟩ := (Option.any_eq_true _ _).mp (List.mem_filter.mp hr).2
  rw [he]
  rfl

theorem onIncomingData_eq (hdrop : isViolatingLocalhost P inFace data.name = false)
    (hne : s.pit.findAllDataMatches P.cityHash P.matchesData data ≠ []) :
    onIncomingData P s inFace data actions =
      (satisfyAll P inFace data actions
        { s.logged (.inData inFace data) with cs := P.store.insert s.cs s.now data false } []
        (s.pit.findAllDataMatches P.cityHash P.matchesData data)).map fun result =>
          sendToDownstreams P inFace data result.2 result.1 := by
  rw [onIncomingData, if_neg (by simp [hdrop])]
  exact if_neg hne

theorem onIncomingData_unmatched (hdrop : isViolatingLocalhost P inFace data.name = false)
    (hnil : s.pit.findAllDataMatches P.cityHash P.matchesData data = []) :
    onIncomingData P s inFace data actions =
      some (onDataUnsolicited P (s.logged (.inData inFace data)) inFace data) := by
  rw [onIncomingData, if_neg (by simp [hdrop])]
  exact if_pos hnil

/-- The Data goes to the pending downstreams that the outgoing Data pipeline sends to. -/
theorem mem_sent_iff {refs : List Ref} {downstreams : List Face} {s₁ : ForwarderState κ} {face : Face}
    (hid : s₁.faceId = s.faceId)
    (hmem : face ∈ downstreams ↔ ∃ r ∈ refs, face ∈ pendingDownstreamsOf s r) :
    face ∈ (downstreams.filter fun face => face != inFace).filter (sendable P s₁ data) ↔
      IsDownstream P s inFace data refs face := by
  rw [List.mem_filter, List.mem_filter, hmem, bne_iff_ne, sendable, hid, Bool.and_eq_true, Bool.not_eq_true']
  constructor
  · rintro ⟨⟨⟨r, hr, hpending⟩, hne⟩, hvalid, hscope⟩
    exact ⟨hne, hvalid, hscope, r, hr, mem_pendingDownstreamsOf.mp hpending⟩
  · rintro ⟨hne, hvalid, hscope, r, hr, hpending⟩
    exact ⟨⟨⟨r, hr, mem_pendingDownstreamsOf.mpr hpending⟩, hne⟩, hvalid, hscope⟩

theorem Remembers.fansOut (h : Remembers P s) (hdrop : isViolatingLocalhost P inFace data.name = false)
    (hstep : onIncomingData P s inFace data actions = some s') :
    ∃ items, FansOut P s s' inFace data (s.pit.findAllDataMatches P.cityHash P.matchesData data) items := by
  have hsat := onIncomingData_satisfies hstep
  rw [matchedBy, if_neg (by simp [hdrop])] at hsat
  generalize hrefs : s.pit.findAllDataMatches P.cityHash P.matchesData data = refs at hsat
  rcases eq_or_ne refs [] with rfl | hne
  · rw [onIncomingData_unmatched hdrop hrefs] at hstep
    cases hstep
    refine ⟨[], onDataUnsolicited_log _ _ _, fun face hdown => ?_, by simp, fun _ => rfl, by simp, hsat.other⟩
    obtain ⟨r, hr, -⟩ := hdown.pending
    cases hr
  · rw [onIncomingData_eq hdrop (hrefs ▸ hne), hrefs] at hstep
    obtain ⟨result, hresult, rfl⟩ := Option.map_eq_some_iff.mp hstep
    have hlogged : Remembers P { s.logged (.inData inFace data) with cs := P.store.insert s.cs s.now data false } :=
      h.same [_] rfl rfl (fun item hitem => .inr (.inl ⟨_, _, List.mem_singleton.mp hitem⟩))
        (DeadNonceList.Later.refl _)
    obtain ⟨hid, ⟨items, hlog, hno⟩, hentries, hnodup, hmem⟩ := satisfyAll_fanout refs hlogged List.nodup_nil hresult
    have hsent : ∀ face, face ∈ (result.2.filter fun face => face != inFace).filter (sendable P result.1 data) ↔
        IsDownstream P s inFace data refs face := fun face =>
      mem_sent_iff hid ((hmem face).trans (or_iff_right List.not_mem_nil))
    generalize hfaces : (result.2.filter fun face => face != inFace).filter (sendable P result.1 data) = faces at hsent
    have hnodup' : faces.Nodup := by
      rw [← hfaces]
      exact (hnodup.filter _).filter _
    have hlog' : (sendToDownstreams P inFace data result.2 result.1).log =
        s.log ++ .inData inFace data :: (items ++ faces.map fun face => .outData face data) := by
      rw [sendToDownstreams, foldl_onOutgoingData_log, hfaces, hlog, ForwarderState.logged]
      simp
    refine ⟨_, hlog', fun face hdown => ?_, fun face data' hitem => ?_, fun hnil => absurd hnil hne,
      fun x hx => ?_, hsat.other⟩
    · have hinj : Function.Injective fun face => LogItem.outData face data := fun _ _ heq => by
        injection heq
      rw [List.count_append, List.count_eq_zero.mpr (hno face data), Nat.zero_add,
        List.count_map_of_injective faces (fun face => LogItem.outData face data) hinj face]
      exact List.count_eq_one_of_mem hnodup' ((hsent face).mpr hdown)
    · obtain ⟨face', hface', heq⟩ := List.mem_map.mp ((List.mem_append.mp hitem).resolve_left (hno face data'))
      cases heq
      exact ⟨rfl, (hsent face).mp hface'⟩
    · have hmatch : x ∈ s.pit.findAllDataMatches P.cityHash P.matchesData data := hrefs ▸ hx
      have hsome := hsat.present x hx (isSome_of_matches hmatch)
      obtain ⟨e, he⟩ := Option.isSome_iff_exists.mp hsome
      refine ⟨e, he, ?_⟩
      rw [hsat.now_eq]
      rw [sendToDownstreams_pit] at he
      exact hentries x hx e he

/-! ### Returning -/

/-- A trigger that only rejects does not fail. -/
theorem dispatch_isSome {actions : List StrategyAction}
    (hreject : ∀ action ∈ actions, action = .rejectPendingInterest) :
    ∀ {s : ForwarderState κ}, (s.pit.entries r).isSome → ∃ s', dispatchToStrategy P s r actions = some s' := by
  induction actions with
  | nil => exact fun {s} _ => ⟨s, rfl⟩
  | cons action actions ih =>
      intro s hsome
      obtain ⟨e, he⟩ := Option.isSome_iff_exists.mp hsome
      obtain rfl := hreject action List.mem_cons_self
      have hact : ∃ s₁, act P r s .rejectPendingInterest = some s₁ := by
        simp only [act, onInterestReject, he]
        split <;> exact ⟨_, rfl⟩
      obtain ⟨s₁, hs₁⟩ := hact
      obtain ⟨e₁, he₁, -⟩ := (act_acted hs₁).entry e he
      obtain ⟨s₂, hs₂⟩ := ih (fun action hmem => hreject action (List.mem_cons_of_mem _ hmem))
        (Option.isSome_iff_exists.mpr ⟨e₁, he₁⟩)
      refine ⟨s₂, ?_⟩
      rw [dispatchToStrategy, List.foldlM_cons, hs₁]
      exact hs₂

theorem satisfyAll_isSome (refs : List Ref)
    (hreject : ∀ r ∈ refs, ∀ action ∈ actions r, action = .rejectPendingInterest) :
    ∀ {s : ForwarderState κ} {downstreams : List Face}, (∀ r ∈ refs, (s.pit.entries r).isSome) →
      ∃ result, satisfyAll P inFace data actions s downstreams refs = some result := by
  induction refs with
  | nil => exact fun {s downstreams} _ => ⟨(s, downstreams), rfl⟩
  | cons r refs ih =>
      intro s downstreams hsome
      have hcancel : ((cancelUnsatisfyAndStragglerTimer s r).pit.entries r).isSome := by
        rw [cancelUnsatisfyAndStragglerTimer, entries_modify, if_pos rfl, Option.isSome_map]
        exact hsome r List.mem_cons_self
      obtain ⟨s₁, hs₁⟩ := dispatch_isSome (P := P) (hreject r List.mem_cons_self) hcancel
      have hround : ∃ s₂, satisfyEntry P inFace data actions s r = some s₂ := by
        rw [satisfyEntry, hs₁]
        exact ⟨_, rfl⟩
      obtain ⟨s₂, hs₂⟩ := hround
      have hsat := satisfyEntry_satisfies hs₂
      rw [satisfyAll, hs₂]
      refine ih (fun x hx => hreject x (List.mem_cons_of_mem r hx)) fun x hx => ?_
      by_cases hxr : x = r
      · exact hsat.present x (by simp [hxr]) (hsome x (List.mem_cons_of_mem r hx))
      · rw [hsat.other x (by simpa using hxr)]
        exact hsome x (List.mem_cons_of_mem r hx)

theorem onIncomingData_isSome (hreject : ∀ r ∈ s.pit.findAllDataMatches P.cityHash P.matchesData data,
    ∀ action ∈ actions r, action = .rejectPendingInterest) :
      ∃ s', onIncomingData P s inFace data actions = some s' := by
  cases hdrop : isViolatingLocalhost P inFace data.name with
  | true =>
      rw [onIncomingData, if_pos hdrop]
      exact ⟨_, rfl⟩
  | false =>
      by_cases hne : s.pit.findAllDataMatches P.cityHash P.matchesData data = []
      · exact ⟨_, onIncomingData_unmatched hdrop hne⟩
      · obtain ⟨result, hresult⟩ : ∃ result, satisfyAll P inFace data actions
            { s.logged (.inData inFace data) with cs := P.store.insert s.cs s.now data false } []
            (s.pit.findAllDataMatches P.cityHash P.matchesData data) = some result :=
          satisfyAll_isSome _ hreject fun r hr => isSome_of_matches hr
        rw [onIncomingData_eq hdrop hne, hresult]
        exact ⟨_, rfl⟩

/-- In every state of a run, a Data that is not dropped goes once to each unexpired downstream of the entries it
matches, and the pipeline ends unless a strategy sends Interests of an entry that is being satisfied. -/
theorem reach_fansOut {nBuckets : Nat} {faceId : Face → Option Nat} {cs : κ}
    (hr : Reach (step P) anyStep (.new nBuckets faceId cs) s)
    (hdrop : isViolatingLocalhost P inFace data.name = false) :
    ((∀ r ∈ s.pit.findAllDataMatches P.cityHash P.matchesData data, ∀ action ∈ actions r,
        action = .rejectPendingInterest) → ∃ s', onIncomingData P s inFace data actions = some s') ∧
      ∀ s', onIncomingData P s inFace data actions = some s' →
        ∃ items, FansOut P s s' inFace data (s.pit.findAllDataMatches P.cityHash P.matchesData data) items := by
  have h : Remembers P s := hr.invariant (new_remembers nBuckets faceId cs) fun _ _ _ h _ hs => h.step hs
  exact ⟨onIncomingData_isSome, fun s' => h.fansOut hdrop⟩

/-- A Data that answers the Interest of face 1. -/
theorem reach_fansOut_answer : ∃ s s' items,
    exec (step Platform.sample) ForwarderState.sample
      [.incomingInterest 1 (plainInterest [.ofByte 65]) [.sendInterest 2 none]] = some s ∧
      IsDownstream Platform.sample s 2 (plainData [.ofByte 65]) [0] 1 ∧
        onIncomingData Platform.sample s 2 (plainData [.ofByte 65]) (fun _ => []) = some s' ∧
          FansOut Platform.sample s s' 2 (plainData [.ofByte 65]) [0] items := by
  have hrun : ((exec (step Platform.sample) ForwarderState.sample
      [.incomingInterest 1 (plainInterest [.ofByte 65]) [.sendInterest 2 none]]).map fun s =>
        (s.pit.findAllDataMatches Platform.sample.cityHash Platform.sample.matchesData (plainData [.ofByte 65]),
          s.faceId 1, decide (1 ∈ pendingDownstreamsOf s 0))) = some ([0], some 1, true) := by decide
  obtain ⟨s, hs, hread⟩ := Option.map_eq_some_iff.mp hrun
  rw [Prod.mk.injEq, Prod.mk.injEq] at hread
  obtain ⟨hmatches, hid, hpending⟩ := hread
  have h := @reach_fansOut _ Platform.sample s 2 (plainData [.ofByte 65]) (fun _ => []) 16 some ⟨[], ()⟩
    (reach_of_exec Reach.start hs) rfl
  rw [hmatches] at h
  obtain ⟨s', hs'⟩ := h.1 fun _ _ action haction => (List.not_mem_nil haction).elim
  obtain ⟨items, hfans⟩ := h.2 s' hs'
  refine ⟨s, s', items, hs, ⟨by decide, by rw [hid]; rfl, rfl, 0, List.mem_singleton_self 0, ?_⟩, hs', hfans⟩
  exact mem_pendingDownstreamsOf.mp (of_decide_eq_true hpending)

end NfdPitless.Forwarder
