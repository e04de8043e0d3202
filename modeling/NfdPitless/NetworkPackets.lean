import NfdPitless.PitlessCache
import NfdPitless.RouterNetwork

/-! Where the packets of a network come from. A router sends a Data that it has received, as it is or under
the name that a bridge resets it to, and an Interest that it has received, but for a new Nonce and for the
supporting name that a bridge sets. So in a network of routers of all kinds, whatever the links do, no
Data and no Interest is made up. -/

namespace NfdPitless

/-- A store holds nothing but what was inserted. -/
structure ContentStore.Honest {κ : Type} (store : ContentStore κ) (holds : κ → Data → Prop) : Prop where
  insert : ∀ {cs now data isUnsolicited d}, holds (store.insert cs now data isUnsolicited) d → d = data ∨ holds cs d
  found : ∀ {cs now interest data}, (store.find cs now interest).2 = some data → holds cs data
  find : ∀ {cs now interest d}, holds (store.find cs now interest).1 d → holds cs d
  timer : ∀ {cs now key d}, holds (store.timer cs now key) d → holds cs d

namespace Cs

variable {π : Type} {digest : Data → List UInt8} {getSuccessor : Name → Name} {matchesData : MatchesData}

/-- A Data is in the table. -/
def Holds (cs : Cs π) (data : Data) : Prop := ∃ e ∈ cs.table, e.data = data

theorem tableInsert_entry (digest : Data → List UInt8) (e : CsEntry) (table : List CsEntry) :
    (tableInsert digest e table).2.1 = e ∨ (tableInsert digest e table).2.1 ∈ table := by
  induction table with
  | nil => exact Or.inl rfl
  | cons y table ih =>
      rw [tableInsert]
      split
      · exact Or.inl rfl
      · exact Or.inr List.mem_cons_self
      · exact ih.imp_right (List.mem_cons_of_mem y)

theorem mem_of_tableSet {e x : CsEntry} {table : List CsEntry} (h : x ∈ tableSet digest e table) :
    x = e ∨ x ∈ table := by
  obtain ⟨y, hy, rfl⟩ := List.mem_map.mp h
  split
  · exact Or.inl rfl
  · exact Or.inr hy

theorem holds_of_insert {policy : CsPolicy π} {cs : Cs π} {now : Nat} {data d : Data} {isUnsolicited : Bool}
    (h : (insert digest policy cs now data isUnsolicited).Holds d) : d = data ∨ cs.Holds d := by
  obtain ⟨x, hx, rfl⟩ := h
  unfold insert at hx
  split at hx
  · exact Or.inr ⟨x, hx, rfl⟩
  · generalize hfresh : CsEntry.updateStaleTime now ⟨data, isUnsolicited, none⟩ = fresh at hx
    have hdata : fresh.data = data := by
      rw [← hfresh]
      rfl
    have hentry := tableInsert_entry digest fresh cs.table
    have hset : ∀ {e : CsEntry}, e.data = (tableInsert digest fresh cs.table).2.1.data →
        x ∈ tableSet digest e (tableInsert digest fresh cs.table).1 → x.data = data ∨ cs.Holds x.data := by
      intro e he hmem
      rcases mem_of_tableSet hmem with rfl | hmem
      · rw [he]
        rcases hentry with heq | hold
        · exact Or.inl (by rw [heq, hdata])
        · exact Or.inr ⟨_, hold, rfl⟩
      · rcases mem_tableInsert hmem with rfl | hold
        · exact Or.inl hdata
        · exact Or.inr ⟨x, hold, rfl⟩
    dsimp only at hx
    split at hx
    · refine hset ?_ (List.mem_filter.mp hx).1
      rfl
    · refine hset ?_ hx
      split <;> rfl

theorem not_holds_empty (policyState : π) (data : Data) : ¬ Holds ⟨[], policyState⟩ data := by
  rintro ⟨e, he, -⟩
  cases he

theorem contentStore_honest (policy : CsPolicy π) :
    (contentStore digest getSuccessor matchesData policy).Honest Holds where
  insert h := holds_of_insert h
  found h := by
    obtain ⟨e, he, heq, -⟩ := find_some h
    exact ⟨e, he, heq⟩
  find {cs now interest d} h := by
    obtain ⟨e, he, heq⟩ := h
    have htable : (find digest getSuccessor matchesData policy cs now interest).1.table = cs.table :=
      find_table policy cs now interest
    exact ⟨e, htable ▸ he, heq⟩
  timer h := h

end Cs

/-! ### The base forwarder -/

namespace Forwarder

variable {κ : Type} {P : Platform κ} {s s' : ForwarderState κ} {r : Ref} {I : FacePacket → Prop}
  {holds : κ → Data → Prop}

/-- An Interest sent for an entry is that of one of its in-records, but for the Nonce. -/
def PickedFrom (r : Ref) (records : List InRecord) (item : LogItem) : Prop :=
  ∃ face nonce, ∃ record ∈ records, item = .outInterest r face { record.interest with nonce }

theorem pickInterest_picked {e : PitEntry} {outFace : Face} {newNonce : Option UInt32} {interest : Interest}
    (h : pickInterest e outFace newNonce = some interest) :
    ∃ nonce, ∃ record ∈ e.inRecords, interest = { record.interest with nonce } := by
  obtain ⟨record, hrecord, rfl⟩ := Option.map_eq_some_iff.mp h
  have hmem := Lists.mem_of_maxElement hrecord
  cases newNonce with
  | none => exact ⟨record.interest.nonce, record, hmem, rfl⟩
  | some nonce => exact ⟨nonce, record, hmem, rfl⟩

theorem act_picks {action : StrategyAction} (h : act P r s action = some s') {e : PitEntry}
    (he : s.pit.entries r = some e) :
    ∃ sends, s'.log = s.log ++ sends ∧ ∀ item ∈ sends, PickedFrom r e.inRecords item := by
  cases action with
  | sendInterest outFace newNonce =>
      rcases onOutgoingInterest_cases h with rfl | ⟨e', interest, he', hpick, rfl⟩
      · exact ⟨[], by simp, by simp⟩
      · rw [he] at he'
        cases he'
        obtain ⟨nonce, record, hrecord, rfl⟩ := pickInterest_picked hpick
        exact ⟨_, rfl, fun item hitem => ⟨outFace, nonce, record, hrecord, List.mem_singleton.mp hitem⟩⟩
  | rejectPendingInterest =>
      rcases onInterestReject_cases h with rfl | rfl
      · exact ⟨[], by simp, by simp⟩
      · exact ⟨[], (List.append_nil _).symm, by simp⟩

theorem dispatch_picks {actions : List StrategyAction} (h : dispatchToStrategy P s r actions = some s')
    {e : PitEntry} (he : s.pit.entries r = some e) :
    ∃ sends, s'.log = s.log ++ sends ∧ ∀ item ∈ sends, PickedFrom r e.inRecords item := by
  unfold dispatchToStrategy at h
  induction actions generalizing s e with
  | nil =>
      cases h
      exact ⟨[], by simp, by simp⟩
  | cons action actions ih =>
      rw [List.foldlM_cons] at h
      obtain ⟨s₁, hact, hrest⟩ := Option.bind_eq_some_iff.mp h
      obtain ⟨e₁, he₁, -, hin₁, -⟩ := (act_acted hact).entry e he
      obtain ⟨sends, hsends, hitems⟩ := act_picks hact he
      obtain ⟨sends', hsends', hitems'⟩ := ih hrest he₁
      refine ⟨sends ++ sends', by rw [hsends', hsends, List.append_assoc], fun item hitem => ?_⟩
      rcases List.mem_append.mp hitem with hmem | hmem
      · exact hitems item hmem
      · rw [← hin₁]
        exact hitems' item hmem

/-- All that the forwarder has in its PIT and its content store, and all that it has sent, satisfies `I`. -/
structure Carries (I : FacePacket → Prop) (holds : κ → Data → Prop) (s : ForwarderState κ) : Prop where
  linked : s.pit.Linked
  records : ∀ {x e}, s.pit.entries x = some e → ∀ record ∈ e.inRecords, I (.interest record.interest)
  cached : ∀ {d}, holds s.cs d → I (.data d)
  sent : ∀ item ∈ s.log, ∀ x, item.sent = some x → I x.2

/-- Entries with fewer in-records, a store with fewer Data, and items that satisfy `I`. -/
theorem Carries.change (h : Carries I holds s) (hl : s'.pit.Linked)
    (hentry : ∀ x e', s'.pit.entries x = some e' → ∃ e, s.pit.entries x = some e ∧ e'.inRecords ⊆ e.inRecords)
    (hcs : ∀ d, holds s'.cs d → holds s.cs d ∨ I (.data d))
    (hlog : ∃ items, s'.log = s.log ++ items ∧ ∀ item ∈ items, ∀ x, item.sent = some x → I x.2) :
    Carries I holds s' where
  linked := hl
  records {x e'} he' record hrecord := by
    obtain ⟨e, he, hsub⟩ := hentry x e' he'
    exact h.records he record (hsub hrecord)
  cached {d} hd := (hcs d hd).elim h.cached id
  sent item hitem := by
    obtain ⟨items, hitems, hall⟩ := hlog
    rw [hitems] at hitem
    rcases List.mem_append.mp hitem with hold | hnew
    · exact h.sent item hold
    · exact hall item hnew

theorem Carries.modifyEntry (h : Carries I holds s) (r : Ref) {f : PitEntry → PitEntry}
    (hnte : ∀ e, (f e).nameTreeEntry = e.nameTreeEntry) (hin : ∀ e, (f e).inRecords ⊆ e.inRecords) :
    Carries I holds (s.modifyEntry r f) := by
  refine h.change (h.linked.modifyEntry r hnte) (fun x e' he' => ?_) (fun d hd => Or.inl hd)
    ⟨[], (List.append_nil _).symm, by simp⟩
  obtain ⟨e, he, ⟨-, rfl⟩ | ⟨-, rfl⟩⟩ := Pit.modifyEntry_some he'
  · exact ⟨e, he, hin e⟩
  · exact ⟨e', he, List.Subset.refl _⟩

/-- The PIT is as it was, and something was logged. -/
theorem Carries.of_pit (h : Carries I holds s) (hpit : s'.pit = s.pit) (hcs : s'.cs = s.cs)
    (hlog : ∃ items, s'.log = s.log ++ items ∧ ∀ item ∈ items, ∀ x, item.sent = some x → I x.2) :
    Carries I holds s' := by
  refine h.change (hpit ▸ h.linked) (fun x e' he' => ⟨e', hpit ▸ he', List.Subset.refl _⟩) (fun d hd => ?_) hlog
  rw [hcs] at hd
  exact Or.inl hd

theorem Carries.logged (h : Carries I holds s) (item : LogItem) (hitem : item.sent = none) :
    Carries I holds (s.logged item) :=
  h.of_pit rfl rfl ⟨[item], rfl, fun x hx y hy => by
    rw [List.mem_singleton.mp hx, hitem] at hy
    cases hy⟩

theorem Carries.dispatch (h : Carries I holds s)
    (hnonce : ∀ i nonce, I (.interest i) → I (.interest { i with nonce })) {actions : List StrategyAction}
    (hdisp : dispatchToStrategy P s r actions = some s') : Carries I holds s' := by
  have hact := dispatch_acted hdisp
  refine h.change (hact.linked h.linked) (fun x e' he' => ?_) (fun d hd => Or.inl (hact.cs_eq ▸ hd)) ?_
  · obtain ⟨e, he, -, hin⟩ := hact.entry_of he'
    exact ⟨e, he, hin ▸ List.Subset.refl _⟩
  · cases he : s.pit.entries r with
    | none =>
        rw [dispatch_absent hdisp he]
        exact ⟨[], by simp, by simp⟩
    | some e =>
        obtain ⟨sends, hsends, hitems⟩ := dispatch_picks hdisp he
        refine ⟨sends, hsends, fun item hitem x hx => ?_⟩
        obtain ⟨face, nonce, record, hrecord, rfl⟩ := hitems item hitem
        cases hx
        exact hnonce _ _ (h.records he record hrecord)

theorem Carries.queued (h : Carries I holds s) (hq : Queued s s') : Carries I holds s' := by
  obtain ⟨items, hitems, hall⟩ := hq.log_eq
  refine h.of_pit hq.pit_eq hq.cs_eq ⟨items, hitems, fun item hitem x hx => ?_⟩
  obtain ⟨k, name, nonce, rfl⟩ := hall item hitem
  cases hx

theorem Carries.outgoingData (h : Carries I holds s) {data : Data} (hdata : I (.data data)) (face : Face) :
    Carries I holds (onOutgoingData P s data face) := by
  unfold onOutgoingData
  split
  · exact h
  · split
    · exact h
    · refine h.of_pit rfl rfl ⟨[.outData face data], rfl, fun item hitem x hx => ?_⟩
      rw [List.mem_singleton.mp hitem] at hx
      cases hx
      exact hdata

theorem Carries.sendToDownstreams (h : Carries I holds s) {data : Data} (hdata : I (.data data)) (inFace : Face)
    (faces : List Face) : Carries I holds (sendToDownstreams P inFace data faces s) := by
  unfold Forwarder.sendToDownstreams
  generalize faces.filter (fun face => face != inFace) = l
  induction l generalizing s with
  | nil => exact h
  | cons face l ih => exact ih (h.outgoingData hdata face)

theorem Carries.satisfyEntry (h : Carries I holds s)
    (hnonce : ∀ i nonce, I (.interest i) → I (.interest { i with nonce })) {inFace : Face} {data : Data}
    {actions : Ref → List StrategyAction} (hstep : satisfyEntry P inFace data actions s r = some s') :
    Carries I holds s' := by
  obtain ⟨s₁, hdisp, rfl⟩ := Option.map_eq_some_iff.mp hstep
  have hcancel : Carries I holds (cancelUnsatisfyAndStragglerTimer s r) :=
    h.modifyEntry r (fun _ => rfl) fun _ => List.Subset.refl _
  have hqueued := (hcancel.dispatch hnonce hdisp).queued
    (insertDeadNonceList_queued (P := P) s₁ r true data.freshnessPeriod (some inFace))
  have hdeleted := hqueued.modifyEntry r (f := fun e => e.deleteInRecords.deleteOutRecord inFace)
    (fun _ => rfl) fun _ => List.nil_subset _
  exact (hdeleted.logged (.satisfied r inFace) rfl).modifyEntry r (fun _ => rfl) fun _ => List.Subset.refl _

theorem Carries.insertCs (h : Carries I holds s) (hstore : P.store.Honest holds) {data : Data}
    (hdata : I (.data data)) (isUnsolicited : Bool) :
    Carries I holds { s with cs := P.store.insert s.cs s.now data isUnsolicited } := by
  refine h.change h.linked (fun x e' he' => ⟨e', he', List.Subset.refl _⟩) (fun d hd => ?_)
    ⟨[], (List.append_nil _).symm, by simp⟩
  rcases hstore.insert hd with rfl | hold
  · exact Or.inr hdata
  · exact Or.inl hold

theorem Carries.findCs (h : Carries I holds s) (hstore : P.store.Honest holds) (interest : Interest) :
    Carries I holds { s with cs := (P.store.find s.cs s.now interest).1 } :=
  h.change h.linked (fun _ e' he' => ⟨e', he', List.Subset.refl _⟩) (fun _ hd => Or.inl (hstore.find hd))
    ⟨[], (List.append_nil _).symm, by simp⟩

theorem Carries.unsolicited (h : Carries I holds s) (hstore : P.store.Honest holds) {data : Data}
    (hdata : I (.data data)) (inFace : Face) : Carries I holds (onDataUnsolicited P s inFace data) := by
  unfold onDataUnsolicited
  split
  · exact h.insertCs hstore hdata true
  · exact h

theorem Carries.satisfyAll (h : Carries I holds s)
    (hnonce : ∀ i nonce, I (.interest i) → I (.interest { i with nonce })) {inFace : Face} {data : Data}
    {actions : Ref → List StrategyAction} {pitMatches : List Ref} {downstreams : List Face}
    {result : ForwarderState κ × List Face}
    (hrun : satisfyAll P inFace data actions s downstreams pitMatches = some result) : Carries I holds result.1 :=
  satisfyAll_invariant (I := Carries I holds) (fun _ _ _ h hs => h.satisfyEntry hnonce hs) _ h hrun

theorem Carries.finalize (h : Carries I holds s) {isSatisfied : Bool} {dataFreshnessPeriod : Int}
    (hstep : onInterestFinalize P s r isSatisfied dataFreshnessPeriod = some s') : Carries I holds s' := by
  cases he : s.pit.entries r with
  | none =>
      rw [onInterestFinalize_absent he] at hstep
      cases hstep
  | some e =>
      have hq := insertDeadNonceList_queued (P := P) s r isSatisfied dataFreshnessPeriod none
      obtain ⟨s₂, s₁, hrun, rfl, hlinked, hentries, -, -, -, hcs, -, hlog⟩ :=
        onInterestFinalize_spec (P := P) h.linked he isSatisfied dataFreshnessPeriod
      rw [hstep] at hrun
      cases hrun
      refine (h.queued hq).change hlinked (fun x e' he' => ?_) (fun d hd => ?_)
        ⟨[.finalized r isSatisfied], hlog, fun item hitem x hx => ?_⟩
      · rw [hentries] at he'
        rw [hq.pit_eq]
        by_cases hx : x = r
        · rw [hx, Function.update_self] at he'
          cases he'
        · rw [Function.update_of_ne hx] at he'
          exact ⟨e', he', List.Subset.refl _⟩
      · rw [hcs] at hd
        rw [hq.cs_eq]
        exact Or.inl hd
      · rw [List.mem_singleton.mp hitem] at hx
        cases hx

/-- The state in which the PIT entry of an Interest has been found or created. -/
theorem Carries.admitted (h : Carries I holds s) (inFace : Face) {interest : Interest} {pit : Pit} {isNew : Bool}
    {e : PitEntry} (hins : s.pit.insert P.cityHash interest = some (pit, r, isNew)) (he : pit.entries r = some e) :
    Carries I holds (withPit s inFace interest pit) := by
  obtain ⟨hlinked, hother, -, -, -, hcases⟩ := h.linked.insert_spec hins he
  have hlogged := h.logged (.inInterest inFace interest) rfl
  refine ⟨hlinked, fun {x e'} he' => ?_, hlogged.cached, hlogged.sent⟩
  by_cases hx : x = r
  · subst hx
    have hee : e = e' := Option.some.inj (he.symm.trans he')
    subst hee
    rcases hcases with ⟨-, -, hold⟩ | ⟨-, -, nte, rfl⟩
    · exact h.records hold
    · exact fun record hrecord => by simp [PitEntry.new] at hrecord
  · exact h.records ((hother x hx).symm.trans he')

theorem Carries.record (h : Carries I holds s) {interest : Interest} (hinterest : I (.interest interest)) (r : Ref)
    (now : Nat) (face : Face) :
    Carries I holds (s.modifyEntry r fun e => e.insertOrUpdateInRecord now face interest) := by
  refine ⟨linked_insertInRecord h.linked r now face interest, fun {x e'} he' => ?_, h.cached, h.sent⟩
  obtain ⟨e, he, ⟨-, rfl⟩ | ⟨-, rfl⟩⟩ := Pit.modifyEntry_some he'
  · intro record hrecord
    rcases Lists.mem_of_replaceOrCons hrecord with rfl | hold
    · exact hinterest
    · exact h.records he record hold
  · exact h.records he

theorem Carries.setUnsatisfy (h : Carries I holds s) (r : Ref) : Carries I holds (setUnsatisfyTimer s r) :=
  h.modifyEntry r (fun _ => rfl) fun _ => List.Subset.refl _

theorem Carries.cancel (h : Carries I holds s) (r : Ref) :
    Carries I holds (cancelUnsatisfyAndStragglerTimer s r) :=
  h.modifyEntry r (fun _ => rfl) fun _ => List.Subset.refl _

theorem onOutgoingData_cs (s : ForwarderState κ) (data : Data) (face : Face) :
    (onOutgoingData P s data face).cs = s.cs := by
  unfold onOutgoingData
  split
  · rfl
  · split <;> rfl

/-- An Interest changes the content store at most by being looked up. -/
theorem onIncomingInterest_cs {inFace : Face} {interest : Interest} {actions : List StrategyAction}
    (h : onIncomingInterest P s inFace interest actions = some s') :
    s'.cs = s.cs ∨ s'.cs = (P.store.find s.cs s.now interest).1 := by
  unfold onIncomingInterest at h
  dsimp only at h
  split at h
  · cases h
    exact Or.inl rfl
  · obtain ⟨⟨pit, r, isNew⟩, -, h⟩ := Option.bind_eq_some_iff.mp h
    obtain ⟨e, -, h⟩ := Option.bind_eq_some_iff.mp h
    dsimp only at h
    split at h
    · cases h
      exact Or.inl rfl
    · split at h
      · refine Or.inr ?_
        split at h
        · obtain ⟨s₁, hs₁, rfl⟩ := Option.map_eq_some_iff.mp h
          rw [onOutgoingData_cs]
          exact (dispatch_acted hs₁).cs_eq
        · exact (dispatch_acted h).cs_eq
      · exact Or.inl (dispatch_acted h).cs_eq

/-- A step keeps `I` if what it takes in satisfies it. -/
theorem Carries.step (h : Carries I holds s) (hstore : P.store.Honest holds)
    (hnonce : ∀ i nonce, I (.interest i) → I (.interest { i with nonce })) {event : Event}
    (hintake : ∀ x, event.intake = some x → I x.2) (hstep : step P s event = some s') : Carries I holds s' := by
  cases event with
  | incomingInterest inFace interest actions =>
      have hinterest : I (.interest interest) := hintake _ rfl
      rcases onIncomingInterest_cases hstep with ⟨-, rfl⟩ | ⟨-, pit, r, isNew, e, hins, he, hcases⟩
      · exact h.logged _ rfl
      have hpit := h.admitted inFace hins he
      rcases hcases with ⟨-, rfl⟩ | ⟨-, -, cs, data, s₁, hfind, hdisp, rfl⟩ | ⟨-, cs, hmiss⟩
      · exact hpit
      · have hdata : I (.data data) := h.cached (hstore.found (by rw [hfind]))
        have hfound : Carries I holds { withPit s inFace interest pit with cs } := by
          have hcs := hpit.findCs hstore interest
          have heq : P.store.find (withPit s inFace interest pit).cs (withPit s inFace interest pit).now interest =
              (cs, some data) := hfind
          rwa [heq] at hcs
        have hstraggler : Carries I holds (setStragglerTimer s₁ r true data.freshnessPeriod) :=
          ((hfound.cancel r).dispatch hnonce hdisp).modifyEntry r (fun _ => rfl) fun _ => List.Subset.refl _
        exact hstraggler.outgoingData hdata inFace
      · have hcs : cs = s.cs ∨ cs = (P.store.find s.cs s.now interest).1 := by
          rw [onContentStoreMiss] at hmiss
          have heq := onIncomingInterest_cs hstep
          rwa [(dispatch_acted hmiss).cs_eq] at heq
        have hlooked : Carries I holds { withPit s inFace interest pit with cs } := by
          rcases hcs with rfl | rfl
          · exact hpit
          · exact hpit.findCs hstore interest
        rw [onContentStoreMiss] at hmiss
        exact (((hlooked.cancel r).record hinterest r _ inFace).setUnsatisfy r).dispatch hnonce hmiss
  | incomingData inFace data actions =>
      have hdata : I (.data data) := hintake _ rfl
      have hin : Carries I holds (s.logged (.inData inFace data)) := h.logged _ rfl
      rcases onIncomingData_cases hstep with rfl | rfl | ⟨result, hresult, rfl⟩
      · exact hin
      · exact hin.unsolicited hstore hdata inFace
      · exact ((hin.insertCs hstore hdata false).satisfyAll hnonce hresult).sendToDownstreams hdata inFace result.2
  | unsatisfyTimer r actions =>
      simp only [Forwarder.step] at hstep
      split at hstep
      · cases hstep
      · split at hstep
        · obtain ⟨s₁, hs₁, hfin⟩ := Option.bind_eq_some_iff.mp hstep
          exact (h.dispatch hnonce hs₁).finalize hfin
        · cases hstep
  | stragglerTimer r =>
      simp only [Forwarder.step] at hstep
      split at hstep
      · cases hstep
      · split at hstep
        · exact h.finalize hstep
        · cases hstep
  | strategyTimer r actions => exact h.dispatch hnonce hstep
  | contentStoreTimer key =>
      cases hstep
      exact h.change h.linked (fun _ e' he' => ⟨e', he', List.Subset.refl _⟩) (fun _ hd => Or.inl (hstore.timer hd))
        ⟨[], (List.append_nil _).symm, by simp⟩
  | markDeadNonceList | adjustDeadNonceListCapacity | setFaceId face id | advanceClock duration =>
      cases hstep
      exact h.of_pit rfl rfl ⟨[], (List.append_nil _).symm, by simp⟩

end Forwarder

namespace BridgeForwarder

open Forwarder

variable {κ : Type} {P : Platform κ} {supportingName : Name} {s s' : ForwarderState κ} {r : Ref}
  {I : FacePacket → Prop} {holds : κ → Data → Prop}

/-- After a content store miss an Interest is recorded and sent under the bridge's supporting name. -/
theorem carries_contentStoreMiss (h : Carries I holds s) {interest : Interest}
    (hinterest : I (.interest { interest with supportingName })) (inFace : Face) (r : Ref) (nexthops : List Face) :
    Carries I holds (onContentStoreMiss supportingName s inFace r interest nexthops) := by
  obtain ⟨sends, hrun, hshape⟩ := onContentStoreMiss_spec supportingName s inFace r interest nexthops
  have hadmitted : Carries I holds (admitted supportingName s inFace r interest) :=
    (h.record hinterest r s.now inFace).setUnsatisfy r
  rw [hrun]
  refine hadmitted.of_pit rfl rfl ⟨sends, rfl, fun item hitem x hx => ?_⟩
  rcases hshape with ⟨rfl, -⟩ | ⟨outFace, -, -, rfl⟩
  · cases hitem
  · rw [List.mem_singleton.mp hitem] at hx
    cases hx
    exact hinterest

theorem onContentStoreMiss_cs (s : ForwarderState κ) (inFace : Face) (r : Ref) (interest : Interest)
    (nexthops : List Face) : (onContentStoreMiss supportingName s inFace r interest nexthops).cs = s.cs := by
  obtain ⟨sends, hrun, -⟩ := onContentStoreMiss_spec supportingName s inFace r interest nexthops
  rw [hrun]
  rfl

/-- An Interest changes the content store at most by being looked up. -/
theorem onIncomingInterest_cs {inFace : Face} {interest : Interest} {nexthops : List Face}
    {strategy : StrategyInstance}
    (h : onIncomingInterest P supportingName s inFace interest nexthops strategy = some s') :
    s'.cs = s.cs ∨ s'.cs = (P.store.find s.cs s.now interest).1 := by
  unfold onIncomingInterest at h
  dsimp only at h
  split at h
  · cases h
    exact Or.inl rfl
  · obtain ⟨⟨pit, r, isNew⟩, -, h⟩ := Option.bind_eq_some_iff.mp h
    obtain ⟨e, -, h⟩ := Option.bind_eq_some_iff.mp h
    dsimp only at h
    split at h
    · cases h
      exact Or.inl rfl
    · split at h
      · refine Or.inr ?_
        split at h
        · obtain ⟨-, -, rfl⟩ := Option.map_eq_some_iff.mp h
          rw [onOutgoingData_cs]
          rfl
        · cases h
          rw [onContentStoreMiss_cs]
          rfl
      · cases h
        rw [onContentStoreMiss_cs]
        exact Or.inl rfl

/-- A step keeps `I` if it takes in only Data that satisfy it, and Interests that do so under the bridge's
supporting name. -/
theorem carries_step (h : Carries I holds s) (hstore : P.store.Honest holds)
    (hnonce : ∀ i nonce, I (.interest i) → I (.interest { i with nonce }))
    (hrename : ∀ d, I (.data d) → I (.data (resetName d))) {event : Event}
    (hdata : ∀ face d, event.intake = some (face, .data d) → I (.data d))
    (hinterest : ∀ face i, event.intake = some (face, .interest i) → I (.interest { i with supportingName }))
    (hstep : step P supportingName s event = some s') : Carries I holds s' := by
  rcases step_cases hstep with ⟨inFace, interest, nexthops, strategy, rfl, hrun⟩ | ⟨inFace, data, rfl, hrun⟩ |
    ⟨base, hbase, hrun⟩
  · have hcs := onIncomingInterest_cs hrun
    rcases onIncomingInterest_cases hrun with ⟨-, rfl⟩ | ⟨-, pit, r, isNew, e, hins, he, hcases⟩
    · exact h.logged _ rfl
    have hpit := h.admitted inFace hins he
    have hlooked : ∀ {cs}, cs = s.cs ∨ cs = (P.store.find s.cs s.now interest).1 →
        Carries I holds { withPit s inFace interest pit with cs } := by
      rintro cs (rfl | rfl)
      · exact hpit
      · exact hpit.findCs hstore interest
    rcases hcases with ⟨-, rfl⟩ | ⟨-, -, cs, data, hfind, rfl⟩ | ⟨-, -, cs, rfl⟩
    · exact hpit
    · have hfound : I (.data data) := h.cached (hstore.found (by rw [hfind]))
      exact ((hlooked (Or.inr (by rw [hfind]))).cancel r).outgoingData hfound inFace
    · rw [onContentStoreMiss_cs] at hcs
      exact carries_contentStoreMiss ((hlooked hcs).cancel r) (hinterest inFace interest rfl) inFace r nexthops
  · have hin : Carries I holds (s.logged (.inData inFace data)) := h.logged _ rfl
    have hdata := hdata inFace data rfl
    rcases onIncomingData_cases hrun with rfl | rfl | ⟨result, hresult, rfl⟩
    · exact hin
    · exact hin.unsolicited hstore hdata inFace
    · have hreset := hrename _ hdata
      exact ((hin.insertCs hstore hreset false).satisfyAll hnonce hresult).sendToDownstreams hreset inFace result.2
  · refine h.step hstore hnonce (fun x hx => ?_) hrun
    cases event <;> first | (cases hbase; done) | (cases hbase; cases hx)

end BridgeForwarder

namespace PitlessForwarder

variable {κ : Type} {P : Platform κ} {s s' : PitlessState κ} {I : FacePacket → Prop} {holds : κ → Data → Prop}

/-- All that the forwarder has in its content store, and all that it has sent, satisfies `I`. -/
structure Carries (I : FacePacket → Prop) (holds : κ → Data → Prop) (s : PitlessState κ) : Prop where
  cached : ∀ {d}, holds s.cs d → I (.data d)
  sent : ∀ item ∈ s.log, ∀ x, item.sent = some x → I x.2

theorem Carries.change (h : Carries I holds s) (hcs : ∀ d, holds s'.cs d → holds s.cs d ∨ I (.data d))
    (hlog : ∃ items, s'.log = s.log ++ items ∧ ∀ item ∈ items, ∀ x, item.sent = some x → I x.2) :
    Carries I holds s' where
  cached {d} hd := (hcs d hd).elim h.cached id
  sent item hitem := by
    obtain ⟨items, hitems, hall⟩ := hlog
    rw [hitems] at hitem
    rcases List.mem_append.mp hitem with hold | hnew
    · exact h.sent item hold
    · exact hall item hnew

theorem Carries.logged (h : Carries I holds s) {item : PitlessItem} (hitem : ∀ x, item.sent = some x → I x.2) :
    Carries I holds (s.logged item) :=
  h.change (fun _ hd => Or.inl hd) ⟨[item], rfl, fun x hx => by rw [List.mem_singleton.mp hx]; exact hitem⟩

theorem Carries.outgoingData (h : Carries I holds s) {data : Data} (hdata : I (.data data)) (outFace : Face) :
    Carries I holds (onOutgoingData P s data outFace) := by
  unfold onOutgoingData
  split
  · exact h
  · split
    · exact h
    · exact h.logged fun x hx => by cases hx; exact hdata

theorem Carries.contentStoreMiss (h : Carries I holds s) {interest : Interest} (hinterest : I (.interest interest))
    (inFace : Face) (nexthops : List Face) : Carries I holds (onContentStoreMiss s inFace interest nexthops) := by
  unfold onContentStoreMiss afterReceiveInterestPITless
  split
  · exact h
  · unfold onOutgoingInterestPITless
    split
    · exact h
    · exact h.logged fun x hx => by cases hx; exact hinterest

/-- A step keeps `I` if what it takes in satisfies it. -/
theorem Carries.step (h : Carries I holds s) (hstore : P.store.Honest holds) {event : Event}
    (hintake : ∀ x, event.intake = some x → I x.2) (hstep : step P s event = some s') : Carries I holds s' := by
  cases event with
  | incomingInterest inFace interest nexthops =>
      have hin : Carries I holds (s.logged (.inInterest inFace interest)) := h.logged fun x hx => by cases hx
      have hcs : Carries I holds (lookedUp P s inFace interest) :=
        hin.change (fun _ hd => Or.inl (hstore.find hd)) ⟨[], (List.append_nil _).symm, by simp⟩
      rcases onIncomingInterest_cases hstep with ⟨-, rfl⟩ | ⟨-, ⟨data, hfound, rfl⟩ | ⟨-, rfl⟩⟩
      · exact hin
      · exact hcs.outgoingData (h.cached (hstore.found hfound)) inFace
      · exact hcs.contentStoreMiss (hintake _ rfl) inFace nexthops
  | incomingData inFace data nexthops =>
      cases hstep
      have hdata : I (.data data) := hintake _ rfl
      have hin : Carries I holds (s.logged (.inData inFace data)) := h.logged fun x hx => by cases hx
      unfold onIncomingData
      dsimp only
      split
      · exact hin
      · have hcs : Carries I holds { s.logged (.inData inFace data) with
            cs := P.store.insert s.cs s.now data false } := by
          refine hin.change (fun d hd => ?_) ⟨[], (List.append_nil _).symm, by simp⟩
          rcases hstore.insert hd with rfl | hold
          · exact Or.inr hdata
          · exact Or.inl hold
        split
        · exact hcs
        · split
          · exact hcs
          · exact hcs.outgoingData hdata _
  | contentStoreTimer key =>
      cases hstep
      exact h.change (fun _ hd => Or.inl (hstore.timer hd)) ⟨[], (List.append_nil _).symm, by simp⟩
  | strategyChoice op =>
      obtain ⟨T, -, rfl⟩ := Option.map_eq_some_iff.mp hstep
      exact h.change (fun _ hd => Or.inl hd) ⟨[], (List.append_nil _).symm, by simp⟩
  | setFaceId face id | advanceClock duration =>
      cases hstep
      exact h.change (fun _ hd => Or.inl hd) ⟨[], (List.append_nil _).symm, by simp⟩

end PitlessForwarder

/-! ### Networks -/

section Network

variable {ν κ : Type} {routers : ν → Router κ} {I : FacePacket → Prop} {holds : κ → Data → Prop}

/-- All that a router has and has sent satisfies `I`. -/
def RouterState.Carries (I : FacePacket → Prop) (holds : κ → Data → Prop) : RouterState κ → Prop
  | .tables s => Forwarder.Carries I holds s
  | .pitless s => PitlessForwarder.Carries I holds s

/-- What the routers do to the packets keeps `I`. -/
structure KeptByRouters (I : FacePacket → Prop) (routers : ν → Router κ) : Prop where
  nonce : ∀ i nonce, I (.interest i) → I (.interest { i with nonce })
  support : ∀ n supportingName, (routers n).kind = .bridge supportingName →
    ∀ i, I (.interest i) → I (.interest { i with supportingName })
  rename : ∀ d, I (.data d) → I (.data (BridgeForwarder.resetName d))

theorem Router.new_carries (router : Router κ) (nBuckets : Nat) (faceId : Face → Option Nat) {cs : κ}
    (hcs : ∀ d, ¬ holds cs d) : (router.new nBuckets faceId cs).Carries I holds := by
  unfold Router.new
  split
  · exact ⟨fun hd => absurd hd (hcs _), fun item hitem => by simp [PitlessState.new] at hitem⟩
  · exact ⟨Pit.new_linked nBuckets, fun he => by simp [ForwarderState.new, Pit.new] at he,
      fun hd => absurd hd (hcs _), fun item hitem => by simp [ForwarderState.new] at hitem⟩

theorem RouterState.Carries.step {n : ν} {state state' : RouterState κ} {event : RouterEvent}
    (h : state.Carries I holds) (hkept : KeptByRouters I routers)
    (hstore : (routers n).platform.store.Honest holds) (hintake : ∀ x, event.intake = some x → I x.2)
    (hstep : (routers n).step state event = some state') : state'.Carries I holds := by
  rcases Router.step_cases hstep with ⟨s, s', e, -, rfl, rfl, rfl, hs⟩ |
    ⟨supportingName, s, s', e, hkind, rfl, rfl, rfl, hs⟩ | ⟨s, s', e, -, rfl, rfl, rfl, hs⟩
  · exact Forwarder.Carries.step h hstore hkept.nonce hintake hs
  · exact BridgeForwarder.carries_step h hstore hkept.nonce hkept.rename (fun face d hd => hintake _ hd)
      (fun face i hi => hkept.support n supportingName hkind i (hintake _ hi)) hs
  · exact PitlessForwarder.Carries.step h hstore hintake hs

theorem RouterState.Carries.sent_satisfies {state : RouterState κ} (h : state.Carries I holds) :
    ∀ x ∈ state.sent, I x.2 := by
  intro x hx
  cases state with
  | tables s =>
      obtain ⟨item, hitem, hsent⟩ := List.mem_filterMap.mp hx
      exact h.sent item hitem x hsent
  | pitless s =>
      obtain ⟨item, hitem, hsent⟩ := List.mem_filterMap.mp hx
      exact h.sent item hitem x hsent

variable [DecidableEq ν] {L : Links ν Face} {nBuckets : ν → Nat} {faceId : ν → Face → Option Nat} {cs : ν → κ}
  {net : NetworkState ν (RouterState κ) Face FacePacket}

/-- What the applications' packets have and the routers keep, all packets of the network have. -/
theorem packets_kept (holds : κ → Data → Prop) (hstore : ∀ n, (routers n).platform.store.Honest holds)
    (hcs : ∀ n d, ¬ holds (cs n) d) (hr : Reach (PacketNetwork.step (routerComponents routers) L) anyStep
      (startedNetwork routers nBuckets faceId cs) net) (hkept : KeptByRouters I routers)
    (henter : ∀ m face packet, L.peer m face = none → (face, packet) ∈ (net.node m).received → I packet) (n : ν) :
    ∀ x ∈ (net.node n).sent, I x.2 := by
  refine (PacketNetwork.packets_satisfy_of_step (K := fun _ state => state.Carries I holds)
    (PacketNetwork.reach_meets hr) (startedNetwork_fresh routers nBuckets faceId cs) (fun n => ?_) ?_ ?_ henter n).2
  · exact (routers n).new_carries (nBuckets n) (faceId n) (hcs n)
  · exact fun n state event state' h hstep hintake => h.step hkept (hstore n) hintake hstep
  · exact fun n state h => h.sent_satisfies

end Network

/-- Routers with the built-in content store, under any policies. -/
def builtinRouters {ν π : Type} (cityHash : Component → UInt64) (makeEntry : Name → UInt32 → UInt64)
    (digest : Data → List UInt8) (getSuccessor : Name → Name) (matchesData : MatchesData)
    (isLocal : ν → Face → Bool) (policy : ν → CsPolicy π) (kind : ν → RouterKind) (n : ν) : Router (Cs π) :=
  { platform := .builtin cityHash makeEntry digest getSuccessor matchesData (isLocal n) (policy n)
    kind := kind n }

/-- A Data of an application, as it is or under the name that a bridge resets it to. -/
def ProducedBy {ν κ : Type} (L : Links ν Face) (net : NetworkState ν (RouterState κ) Face FacePacket)
    (data : Data) : Prop :=
  ∃ m face produced, L.peer m face = none ∧ (face, .data produced) ∈ (net.node m).received ∧
    (data = produced ∨ data = BridgeForwarder.resetName produced)

/-- An Interest of an application, but for the Nonce and for a supporting name that a bridge set. -/
def AskedBy {ν κ : Type} (L : Links ν Face) (kind : ν → RouterKind)
    (net : NetworkState ν (RouterState κ) Face FacePacket) (interest : Interest) : Prop :=
  ∃ m face asked, L.peer m face = none ∧ (face, .interest asked) ∈ (net.node m).received ∧
    interest = { asked with nonce := interest.nonce, supportingName := interest.supportingName } ∧
    (interest.supportingName = asked.supportingName ∨ ∃ n, kind n = .bridge interest.supportingName)

/-- A packet of an application. -/
def PutIn {ν κ : Type} (L : Links ν Face) (kind : ν → RouterKind)
    (net : NetworkState ν (RouterState κ) Face FacePacket) : FacePacket → Prop
  | .interest interest => AskedBy L kind net interest
  | .data data => ProducedBy L net data

/-- In a network of base, bridge and PITless forwarders, with any routes, strategies, timers and replacement
policies, over links that delay, reorder, lose and duplicate packets, every Data that a router sends is one
that an application put in, and every Interest is one that an application put in. -/
theorem packets_authentic {ν π : Type} [DecidableEq ν] (cityHash : Component → UInt64)
    (makeEntry : Name → UInt32 → UInt64) (digest : Data → List UInt8) (getSuccessor : Name → Name)
    (matchesData : MatchesData) (isLocal : ν → Face → Bool) (policy : ν → CsPolicy π) (policyState : ν → π)
    (kind : ν → RouterKind) (nBuckets : ν → Nat) (faceId : ν → Face → Option Nat) (L : Links ν Face)
    (net : NetworkState ν (RouterState (Cs π)) Face FacePacket)
    (hr : Reach (PacketNetwork.step (routerComponents
        (builtinRouters cityHash makeEntry digest getSuccessor matchesData isLocal policy kind)) L) anyStep
      (startedNetwork (builtinRouters cityHash makeEntry digest getSuccessor matchesData isLocal policy kind)
        nBuckets faceId fun n => ⟨[], policyState n⟩) net) (n : ν) (face : Face) :
    (∀ data, (face, .data data) ∈ (net.node n).sent → ProducedBy L net data) ∧
      ∀ interest, (face, .interest interest) ∈ (net.node n).sent → AskedBy L kind net interest := by
  have hall := packets_kept (I := PutIn L kind net) Cs.Holds (fun _ => Cs.contentStore_honest _)
    (fun n => Cs.not_holds_empty (policyState n)) hr ?_ ?_ n
  · exact ⟨fun data hsent => hall _ hsent, fun interest hsent => hall _ hsent⟩
  · refine ⟨?_, ?_, ?_⟩
    · rintro i nonce ⟨m, port, asked, hport, hreceived, heq, hname⟩
      exact ⟨m, port, asked, hport, hreceived, by rw [heq], hname⟩
    · rintro b supportingName hkind i ⟨m, port, asked, hport, hreceived, heq, -⟩
      exact ⟨m, port, asked, hport, hreceived, by rw [heq], Or.inr ⟨b, hkind⟩⟩
    · rintro d ⟨m, port, produced, hport, hreceived, rfl | rfl⟩
      · exact ⟨m, port, d, hport, hreceived, Or.inr rfl⟩
      · exact ⟨m, port, produced, hport, hreceived, Or.inr rfl⟩
  · intro m port packet hport hreceived
    cases packet with
    | data data => exact ⟨m, port, data, hport, hreceived, Or.inl rfl⟩
    | interest interest => exact ⟨m, port, interest, hport, hreceived, rfl, Or.inl rfl⟩

/-- Three routers in a line: face 2 of one is linked to face 1 of the next. -/
def lineLinks : Links Nat Face where
  peer
    | 0, 2 => some (1, 1)
    | 1, 1 => some (0, 2)
    | 1, 2 => some (2, 1)
    | 2, 1 => some (1, 2)
    | _, _ => none
  symm {n f m g} h := by
    split at h <;> cases h <;> rfl

/-- A bridge that is called `/B`, at the end of a line of PITless routers. -/
def lineKind : Nat → RouterKind
  | 0 => .bridge [.ofByte 66]
  | _ => .pitless

def lineRouters : Nat → Router (Cs Unit) :=
  builtinRouters NameTree.octetHash (fun n nonce => 1 + 65536 * computeHash NameTree.octetHash n + nonce.toUInt64)
    (fun _ => [0]) incrementLast (matchesSuffix fun _ => [0]) (fun _ _ => false) (fun _ => .keepAll) lineKind

def lineNetwork : NetworkState Nat (RouterState (Cs Unit)) Face FacePacket :=
  startedNetwork lineRouters (fun _ => 16) (fun _ => some) fun _ => ⟨[], ()⟩

/-- The Interest for `/A` of a consumer as the bridge sends it. -/
def bridgedInterest : Interest := { plainInterest [.ofByte 65] with supportingName := [.ofByte 66] }

/-- The answer of a producer: it is named by the supporting name of the Interest. -/
def bridgedData : Data := { plainData [.ofByte 66] with supportingName := [.ofByte 65] }

/-- A consumer at the bridge asks for `/A`, a producer at the other end answers, and the Data goes back. -/
def lineEvents : List (NetworkEvent Nat RouterEvent) :=
  [.act 0 (.bridge (.incomingInterest 1 (plainInterest [.ofByte 65]) [2] makeDefaultStrategy)),
    .deliver 0 (.pitless (.incomingInterest 1 bridgedInterest [2])),
    .deliver 0 (.pitless (.incomingInterest 1 bridgedInterest [2])),
    .act 2 (.pitless (.incomingData 2 bridgedData [1])),
    .deliver 0 (.pitless (.incomingData 2 bridgedData [1])),
    .deliver 0 (.bridge (.incomingData 2 bridgedData))]

/-- What the routers have sent when the consumer has its Data. -/
theorem lineEvents_sent :
    (exec (PacketNetwork.step (routerComponents lineRouters) lineLinks) lineNetwork lineEvents).map
      (fun net => ((net.node 0).sent, (net.node 1).sent, (net.node 2).sent, net.inFlight.length)) =
    some ([(2, .interest bridgedInterest), (1, .data { bridgedData with name := [.ofByte 65] })],
      [(2, .interest bridgedInterest), (1, .data bridgedData)],
      [(2, .interest bridgedInterest), (1, .data bridgedData)], 0) := by
  decide +kernel

/-- The consumer's Data is the producer's, under the name of the Interest. -/
theorem packets_authentic_line :
    ∃ net, exec (PacketNetwork.step (routerComponents lineRouters) lineLinks) lineNetwork lineEvents = some net ∧
      (1, .data { bridgedData with name := [.ofByte 65] }) ∈ (net.node 0).sent ∧
      ProducedBy lineLinks net { bridgedData with name := [.ofByte 65] } := by
  obtain ⟨net, hnet, hsent⟩ := Option.map_eq_some_iff.mp lineEvents_sent
  obtain ⟨hbridge, -⟩ := Prod.mk.inj hsent
  have hmem : (1, .data { bridgedData with name := [.ofByte 65] }) ∈ (net.node 0).sent := by
    rw [hbridge]
    simp
  refine ⟨net, hnet, hmem, ?_⟩
  exact (packets_authentic NameTree.octetHash _ (fun _ => [0]) incrementLast (matchesSuffix fun _ => [0])
    (fun _ _ => false) (fun _ => .keepAll) (fun _ => ()) lineKind (fun _ => 16) (fun _ => some) lineLinks net
    (reach_of_exec Reach.start hnet) 0 1).1 _ hmem

end NfdPitless
