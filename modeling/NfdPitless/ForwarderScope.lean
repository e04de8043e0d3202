import NfdPitless.ForwarderSpec

/-! Scope control of the base forwarder. The four checks are made on different names: the incoming
pipelines look at the packet, the outgoing Interest pipeline at the PIT entry, and the Interest that is
sent is picked from the in-records. They agree because every in-record carries the name of its entry. -/

namespace NfdPitless.Forwarder

variable {κ : Type} {P : Platform κ} {s s' : ForwarderState κ} {r : Ref}

/-- A name under `/localhost` and a face that is not local. -/
def CrossesLocalhost (P : Platform κ) (face : Face) (name : Name) : Prop :=
  P.isLocal face = false ∧ localhostName <+: name

theorem isViolatingLocalhost_iff {face : Face} {name : Name} :
    isViolatingLocalhost P face name = true ↔ CrossesLocalhost P face name := by
  simp [isViolatingLocalhost, CrossesLocalhost, Name.isPrefixOf_iff]

theorem isViolatingLocalhost_eq_false_iff {face : Face} {name : Name} :
    isViolatingLocalhost P face name = false ↔ ¬ CrossesLocalhost P face name := by
  rw [← isViolatingLocalhost_iff, Bool.not_eq_true]

/-- Every in-record carries an Interest of the entry's name. -/
def NamedRecords (e : PitEntry) : Prop := ∀ record ∈ e.inRecords, record.interest.name = e.getName

theorem namedRecords_of_eq {e e' : PitEntry} (h : NamedRecords e) (hname : e'.getName = e.getName)
    (hin : e'.inRecords = e.inRecords) : NamedRecords e' := by
  intro record hrecord
  rw [hname]
  exact h record (hin ▸ hrecord)

theorem pickInterest_name {e : PitEntry} (h : NamedRecords e) {outFace : Face} {newNonce : Option UInt32}
    {interest : Interest} (hp : pickInterest e outFace newNonce = some interest) :
    interest.name = e.getName := by
  obtain ⟨record, hrecord, rfl⟩ := Option.map_eq_some_iff.mp hp
  have hmem := Lists.mem_of_maxElement hrecord
  cases newNonce with
  | none => exact h record hmem
  | some nonce => exact h record hmem

/-- The Interests sent for an entry carry its name, to faces that its scope allows. -/
def SentFor (P : Platform κ) (r : Ref) (e : PitEntry) (item : LogItem) : Prop :=
  ∃ face interest, item = .outInterest r face interest ∧ interest.name = e.getName ∧
    e.violatesScope P.isLocal face = false

theorem sentFor_of_eq {e e' : PitEntry} (hname : e'.getName = e.getName) (hin : e'.inRecords = e.inRecords)
    {item : LogItem} (h : SentFor P r e' item) : SentFor P r e item := by
  obtain ⟨face, interest, hitem, hi, hscope⟩ := h
  refine ⟨face, interest, hitem, hi.trans hname, ?_⟩
  rw [← hscope, PitEntry.violatesScope, PitEntry.violatesScope, PitEntry.hasLocalInRecord,
    PitEntry.hasLocalInRecord, hname, hin]

theorem act_sends {action : StrategyAction} (h : act P r s action = some s') :
    ∃ e, s.pit.entries r = some e ∧ (NamedRecords e →
      ∃ sends, s'.log = s.log ++ sends ∧ ∀ item ∈ sends, SentFor P r e item) := by
  cases action with
  | sendInterest outFace newNonce =>
      rw [act, onOutgoingInterest] at h
      cases he : s.pit.entries r with
      | none => simp [he] at h
      | some e =>
          refine ⟨e, rfl, fun hnamed => ?_⟩
          simp only [he] at h
          split at h
          · exact ⟨[], by rw [← Option.some.inj h]; simp, by simp⟩
          · split at h
            · exact ⟨[], by rw [← Option.some.inj h]; simp, by simp⟩
            · rename_i hscope
              cases hp : pickInterest e outFace newNonce with
              | none => simp [hp] at h
              | some interest =>
                  simp only [hp, Option.some.injEq] at h
                  refine ⟨[.outInterest r outFace interest], by rw [← h]; rfl, fun item hitem => ?_⟩
                  exact ⟨outFace, interest, List.mem_singleton.mp hitem, pickInterest_name hnamed hp,
                    by simpa using hscope⟩
  | rejectPendingInterest =>
      rw [act, onInterestReject] at h
      cases he : s.pit.entries r with
      | none => simp [he] at h
      | some e =>
          refine ⟨e, rfl, fun _ => ⟨[], ?_, by simp⟩⟩
          simp only [he] at h
          split at h
          · rw [← Option.some.inj h]
            simp
          · rw [← Option.some.inj h]
            simp [setStragglerTimer, cancelUnsatisfyAndStragglerTimer, ForwarderState.modifyEntry]

/-- A trigger sends Interests of the entry's name only, and only where its in-records at the time of the
trigger allow. -/
theorem dispatch_sends {actions : List StrategyAction} (h : dispatchToStrategy P s r actions = some s')
    {e : PitEntry} (he : s.pit.entries r = some e) (hnamed : NamedRecords e) :
    ∃ sends, s'.log = s.log ++ sends ∧ ∀ item ∈ sends, SentFor P r e item := by
  unfold dispatchToStrategy at h
  induction actions generalizing s e with
  | nil =>
      cases h
      exact ⟨[], by simp, by simp⟩
  | cons action actions ih =>
      rw [List.foldlM_cons] at h
      obtain ⟨s₁, hact, hrest⟩ := Option.bind_eq_some_iff.mp h
      obtain ⟨e₁, he₁, hi₁, hin₁, -⟩ := (act_acted hact).entry e he
      have hname₁ : e₁.getName = e.getName := by rw [PitEntry.getName, PitEntry.getName, hi₁]
      obtain ⟨e', he', hfirst⟩ := act_sends hact
      rw [he] at he'
      cases he'
      obtain ⟨sends, hsends, hitems⟩ := hfirst hnamed
      obtain ⟨sends', hsends', hitems'⟩ := ih hrest he₁ (namedRecords_of_eq hnamed hname₁ hin₁)
      refine ⟨sends ++ sends', by rw [hsends', hsends, List.append_assoc], fun item hitem => ?_⟩
      rcases List.mem_append.mp hitem with hmem | hmem
      · exact hitems item hmem
      · exact sentFor_of_eq hname₁ hin₁ (hitems' item hmem)

/-- Without an entry there is nothing a trigger can do. -/
theorem dispatch_absent {actions : List StrategyAction} (h : dispatchToStrategy P s r actions = some s')
    (hnone : s.pit.entries r = none) : s' = s := by
  cases actions with
  | nil => exact (Option.some.inj h).symm
  | cons action actions =>
      rw [dispatchToStrategy, List.foldlM_cons] at h
      obtain ⟨s₁, hact, -⟩ := Option.bind_eq_some_iff.mp h
      obtain ⟨e, he, -⟩ := act_sends hact
      rw [hnone] at he
      cases he

/-! ### The steps -/

/-- What may pass the faces: nothing under `/localhost` goes to a non-local face, and an Interest under
`/localhop` only if the entry it is sent for, one of `entries`, has an in-record of a local face. -/
def Allowed (P : Platform κ) (entries : Ref → Option PitEntry) : LogItem → Prop
  | .outInterest r face interest =>
      ¬ CrossesLocalhost P face interest.name ∧
        (P.isLocal face = false → localhopName <+: interest.name →
          ∃ e, entries r = some e ∧ e.hasLocalInRecord P.isLocal = true)
  | .outData face data => ¬ CrossesLocalhost P face data.name
  | _ => True

/-- The entries with the in-records they have when the strategy is triggered: an incoming Interest is
recorded before, and the other pipelines change in-records only after the trigger. -/
def entriesAtTrigger (s s' : ForwarderState κ) : Event → Ref → Option PitEntry
  | .incomingInterest _ _ _ => s'.pit.entries
  | _ => s.pit.entries

theorem SentFor.allowed {e e₀ : PitEntry} {entries : Ref → Option PitEntry} {item : LogItem}
    (h : SentFor P r e item) (he₀ : entries r = some e₀)
    (hin : e.inRecords = e₀.inRecords ∨ e.inRecords = []) : Allowed P entries item := by
  obtain ⟨face, interest, rfl, hname, hscope⟩ := h
  rw [PitEntry.violatesScope, Bool.or_eq_false_iff] at hscope
  refine ⟨fun hcross => ?_, fun hlocal hhop => ⟨e₀, he₀, ?_⟩⟩
  · obtain ⟨hlocal, hpref⟩ := hcross
    rw [hname, ← Name.isPrefixOf_iff] at hpref
    simp [hlocal, hpref] at hscope
  · rw [hname, ← Name.isPrefixOf_iff] at hhop
    have hrecord : e.hasLocalInRecord P.isLocal = true := by simpa [hlocal, hhop] using hscope.2
    rcases hin with hin | hin
    · rw [PitEntry.hasLocalInRecord, ← hin]
      exact hrecord
    · simp [PitEntry.hasLocalInRecord, hin] at hrecord

theorem onOutgoingData_allowed (entries : Ref → Option PitEntry) (s : ForwarderState κ) (data : Data)
    (face : Face) : ∃ items, (onOutgoingData P s data face).log = s.log ++ items ∧
      ∀ item ∈ items, Allowed P entries item := by
  unfold onOutgoingData
  split
  · exact ⟨[], by simp, by simp⟩
  · split
    · exact ⟨[], by simp, by simp⟩
    · rename_i hscope
      refine ⟨[.outData face data], rfl, fun item hitem => ?_⟩
      rw [List.mem_singleton.mp hitem]
      intro hcross
      exact hscope (isViolatingLocalhost_iff.mpr hcross)

structure Scoped (s : ForwarderState κ) : Prop where
  linked : s.pit.Linked
  named : ∀ {x e}, s.pit.entries x = some e → NamedRecords e

/-- From `s₀` to `s` entries kept their names and their in-records, or lost them all, and only what is
allowed passed the faces. -/
structure ScopedSince (P : Platform κ) (s₀ s : ForwarderState κ) : Prop extends Scoped s where
  kept : ∀ {x e}, s.pit.entries x = some e → ∃ e₀, s₀.pit.entries x = some e₀ ∧
    e.getName = e₀.getName ∧ (e.inRecords = e₀.inRecords ∨ e.inRecords = [])
  log_eq : ∃ items, s.log = s₀.log ++ items ∧ ∀ item ∈ items, Allowed P s₀.pit.entries item

theorem Scoped.since (h : Scoped s) : ScopedSince P s s :=
  { h with
    kept := fun {_ e} he => ⟨e, he, rfl, Or.inl rfl⟩
    log_eq := ⟨[], by simp, by simp⟩ }

/-- Changing an entry without its name, its in-records kept or deleted, with allowed items logged. -/
theorem ScopedSince.modify {s₀ : ForwarderState κ} (h : ScopedSince P s₀ s) (hl : s'.pit.Linked)
    (hentry : ∀ x e', s'.pit.entries x = some e' → ∃ e, s.pit.entries x = some e ∧
      e'.getName = e.getName ∧ (e'.inRecords = e.inRecords ∨ e'.inRecords = []))
    (hlog : ∃ items, s'.log = s.log ++ items ∧ ∀ item ∈ items, Allowed P s₀.pit.entries item) :
    ScopedSince P s₀ s' where
  linked := hl
  named {x e'} he' := by
    obtain ⟨e, he, hname, hin | hin⟩ := hentry x e' he'
    · exact namedRecords_of_eq (h.named he) hname hin
    · intro record hrecord
      simp [hin] at hrecord
  kept {x e'} he' := by
    obtain ⟨e, he, hname, hin⟩ := hentry x e' he'
    obtain ⟨e₀, he₀, hname₀, hin₀⟩ := h.kept he
    refine ⟨e₀, he₀, hname.trans hname₀, ?_⟩
    rcases hin with hin | hin
    · rw [hin]
      exact hin₀
    · exact Or.inr hin
  log_eq := by
    obtain ⟨items, hitems, hall⟩ := h.log_eq
    obtain ⟨items', hitems', hall'⟩ := hlog
    refine ⟨items ++ items', by rw [hitems', hitems, List.append_assoc], fun item hitem => ?_⟩
    rcases List.mem_append.mp hitem with hmem | hmem
    · exact hall item hmem
    · exact hall' item hmem

theorem Acted.entry_of (h : Acted r s s') {x : Ref} {e' : PitEntry} (he' : s'.pit.entries x = some e') :
    ∃ e, s.pit.entries x = some e ∧ e'.getName = e.getName ∧ e'.inRecords = e.inRecords := by
  by_cases hx : x = r
  · subst hx
    cases he : s.pit.entries x with
    | none =>
        rw [h.absent he] at he'
        cases he'
    | some e =>
        obtain ⟨e₁, he₁, hi, hin, -⟩ := h.entry e he
        rw [he'] at he₁
        cases he₁
        exact ⟨e, rfl, by rw [PitEntry.getName, PitEntry.getName, hi], hin⟩
  · rw [h.other x hx] at he'
    exact ⟨e', he', rfl, rfl⟩

theorem ScopedSince.dispatch {s₀ : ForwarderState κ} (h : ScopedSince P s₀ s) {actions : List StrategyAction}
    (hdisp : dispatchToStrategy P s r actions = some s') : ScopedSince P s₀ s' := by
  have hact := dispatch_acted hdisp
  refine h.modify (hact.linked h.linked) (fun x e' he' => ?_) ?_
  · obtain ⟨e, he, hname, hin⟩ := hact.entry_of he'
    exact ⟨e, he, hname, Or.inl hin⟩
  · cases he : s.pit.entries r with
    | none =>
        rw [dispatch_absent hdisp he]
        exact ⟨[], by simp, by simp⟩
    | some e =>
        obtain ⟨sends, hsends, hitems⟩ := dispatch_sends hdisp he (h.named he)
        obtain ⟨e₀, he₀, -, hin⟩ := h.kept he
        exact ⟨sends, hsends, fun item hitem => (hitems item hitem).allowed he₀ hin⟩

theorem ScopedSince.modifyEntry {s₀ : ForwarderState κ} (h : ScopedSince P s₀ s) (r : Ref) {f : PitEntry → PitEntry}
    (hnte : ∀ e, (f e).nameTreeEntry = e.nameTreeEntry) (hname : ∀ e, (f e).getName = e.getName)
    (hin : ∀ e, (f e).inRecords = e.inRecords ∨ (f e).inRecords = []) : ScopedSince P s₀ (s.modifyEntry r f) := by
  refine h.modify (h.linked.modifyEntry r hnte) (fun x e' he' => ?_) ⟨[], by simp [ForwarderState.modifyEntry], by simp⟩
  obtain ⟨e, he, ⟨-, rfl⟩ | ⟨-, rfl⟩⟩ := Pit.modifyEntry_some he'
  · exact ⟨e, he, hname e, hin e⟩
  · exact ⟨e', he, rfl, Or.inl rfl⟩

/-- Logging items that are allowed, with other tables changed. -/
theorem ScopedSince.of_pit {s₀ : ForwarderState κ} (h : ScopedSince P s₀ s) (hpit : s'.pit = s.pit)
    (hlog : ∃ items, s'.log = s.log ++ items ∧ ∀ item ∈ items, Allowed P s₀.pit.entries item) :
    ScopedSince P s₀ s' := by
  refine h.modify (hpit ▸ h.linked) (fun x e' he' => ?_) hlog
  rw [hpit] at he'
  exact ⟨e', he', rfl, Or.inl rfl⟩

theorem Queued.scopedSince {s₀ : ForwarderState κ} (hq : Queued s s') (h : ScopedSince P s₀ s) :
    ScopedSince P s₀ s' := by
  obtain ⟨items, hitems, hall⟩ := hq.log_eq
  refine h.of_pit hq.pit_eq ⟨items, hitems, fun item hitem => ?_⟩
  obtain ⟨k, name, nonce, rfl⟩ := hall item hitem
  trivial

theorem ScopedSince.satisfyEntry {s₀ : ForwarderState κ} (h : ScopedSince P s₀ s) {inFace : Face} {data : Data}
    {actions : Ref → List StrategyAction} (hstep : satisfyEntry P inFace data actions s r = some s') :
    ScopedSince P s₀ s' := by
  obtain ⟨s₁, hdisp, rfl⟩ := Option.map_eq_some_iff.mp hstep
  have hcancel : ScopedSince P s₀ (cancelUnsatisfyAndStragglerTimer s r) :=
    h.modifyEntry r (fun _ => rfl) (fun _ => rfl) (fun _ => Or.inl rfl)
  have hqueued := (insertDeadNonceList_queued (P := P) s₁ r true data.freshnessPeriod (some inFace)).scopedSince
    (hcancel.dispatch hdisp)
  have hsatisfied := hqueued.modifyEntry r (f := fun e => e.deleteInRecords.deleteOutRecord inFace)
    (fun _ => rfl) (fun _ => rfl) (fun _ => Or.inr rfl)
  have hlogged : ScopedSince P s₀ (markSatisfied
      (insertDeadNonceList P s₁ r true data.freshnessPeriod (some inFace)) r inFace) :=
    hsatisfied.of_pit rfl ⟨[.satisfied r inFace], rfl, fun item hitem => by
      rw [List.mem_singleton.mp hitem]
      trivial⟩
  exact hlogged.modifyEntry r (fun _ => rfl) (fun _ => rfl) (fun _ => Or.inl rfl)

theorem ScopedSince.sendToDownstreams {s₀ : ForwarderState κ} (h : ScopedSince P s₀ s) (inFace : Face) (data : Data)
    (faces : List Face) : ScopedSince P s₀ (sendToDownstreams P inFace data faces s) := by
  unfold Forwarder.sendToDownstreams
  generalize faces.filter (fun face => face != inFace) = l
  induction l generalizing s with
  | nil => exact h
  | cons face l ih =>
      rw [List.foldl_cons]
      exact ih (h.of_pit (onOutgoingData_pit s data face) (onOutgoingData_allowed _ s data face))

theorem Scoped.incomingData (h : Scoped s) {inFace : Face} {data : Data} {actions : Ref → List StrategyAction}
    (hstep : onIncomingData P s inFace data actions = some s') : ScopedSince P s s' := by
  have hin : ∃ items, s.log ++ [.inData inFace data] = s.log ++ items ∧
      ∀ item ∈ items, Allowed P s.pit.entries item :=
    ⟨[.inData inFace data], rfl, fun item hitem => by rw [List.mem_singleton.mp hitem]; trivial⟩
  rcases onIncomingData_cases hstep with rfl | rfl | ⟨result, hresult, rfl⟩
  · exact h.since.of_pit rfl hin
  · refine h.since.of_pit (onDataUnsolicited_pit _ inFace data) ?_
    rw [onDataUnsolicited_log]
    exact hin
  · refine ScopedSince.sendToDownstreams ?_ inFace data result.2
    refine satisfyAll_invariant (I := ScopedSince P s) (fun _ _ _ h hs => h.satisfyEntry hs) _ ?_ hresult
    exact h.since.of_pit rfl hin

theorem ScopedSince.finalize {s₀ : ForwarderState κ} (h : ScopedSince P s₀ s) {isSatisfied : Bool}
    {dataFreshnessPeriod : Int} (hstep : onInterestFinalize P s r isSatisfied dataFreshnessPeriod = some s') :
    ScopedSince P s₀ s' := by
  cases he : s.pit.entries r with
  | none =>
      rw [onInterestFinalize_absent he] at hstep
      cases hstep
  | some e =>
      have hq := insertDeadNonceList_queued (P := P) s r isSatisfied dataFreshnessPeriod none
      obtain ⟨s₂, s₁, hrun, rfl, hlinked, hentries, -, -, -, -, -, hlog⟩ :=
        onInterestFinalize_spec (P := P) h.linked he isSatisfied dataFreshnessPeriod
      rw [hstep] at hrun
      cases hrun
      refine (hq.scopedSince h).modify hlinked (fun x e' he' => ?_) ⟨[.finalized r isSatisfied], hlog,
        fun item hitem => by
        rw [List.mem_singleton.mp hitem]
        trivial⟩
      rw [hentries] at he'
      rw [hq.pit_eq]
      by_cases hx : x = r
      · rw [hx, Function.update_self] at he'
        cases he'
      · rw [Function.update_of_ne hx] at he'
        exact ⟨e', he', rfl, Or.inl rfl⟩

theorem Allowed.mono {entries entries' : Ref → Option PitEntry} {item : LogItem} (h : Allowed P entries item)
    (hkept : ∀ x e, entries x = some e → ∃ e', entries' x = some e' ∧ e'.inRecords = e.inRecords) :
    Allowed P entries' item := by
  cases item with
  | outInterest r face interest =>
      refine ⟨h.1, fun hlocal hhop => ?_⟩
      obtain ⟨e, he, hrecord⟩ := h.2 hlocal hhop
      obtain ⟨e', he', hin⟩ := hkept r e he
      refine ⟨e', he', ?_⟩
      rw [PitEntry.hasLocalInRecord, hin]
      exact hrecord
  | outData face data => exact h
  | _ => trivial

theorem Acted.keeps (h : Acted r s s') (x : Ref) (e : PitEntry) (he : s.pit.entries x = some e) :
    ∃ e', s'.pit.entries x = some e' ∧ e'.inRecords = e.inRecords := by
  by_cases hx : x = r
  · subst hx
    obtain ⟨e', he', -, hin, -⟩ := h.entry e he
    exact ⟨e', he', hin⟩
  · exact ⟨e, by rw [h.other x hx, he], rfl⟩

theorem namedRecords_insertInRecord {e : PitEntry} (h : NamedRecords e) (now : Nat) (face : Face) {interest : Interest}
    (hname : e.interest.name = interest.name) : NamedRecords (e.insertOrUpdateInRecord now face interest) := by
  intro record hrecord
  rcases Lists.mem_of_replaceOrCons hrecord with rfl | hold
  · exact hname.symm
  · exact h record hold

/-- The state in which the PIT entry of an Interest has been found or created. -/
theorem Scoped.admitted (h : Scoped s) {inFace : Face} {interest : Interest} {pit : Pit} {isNew : Bool} {e : PitEntry}
    (hins : s.pit.insert P.cityHash interest = some (pit, r, isNew)) (he : pit.entries r = some e) (cs : κ) :
    Scoped { withPit s inFace interest pit with cs } := by
  obtain ⟨hlinked, hother, -, -, -, hcases⟩ := h.linked.insert_spec hins he
  refine ⟨hlinked, fun {x e'} he' => ?_⟩
  by_cases hx : x = r
  · subst hx
    have hee : e = e' := Option.some.inj (he.symm.trans he')
    subst hee
    rcases hcases with ⟨-, -, hold⟩ | ⟨-, -, nte, rfl⟩
    · exact h.named hold
    · exact fun record hrecord => by simp [PitEntry.new] at hrecord
  · exact h.named ((hother x hx).symm.trans he')

theorem Scoped.incomingInterest (h : Scoped s) {inFace : Face} {interest : Interest} {actions : List StrategyAction}
    (hstep : onIncomingInterest P s inFace interest actions = some s') :
    Scoped s' ∧ ∃ items, s'.log = s.log ++ items ∧ ∀ item ∈ items, Allowed P s'.pit.entries item := by
  have hin : ∀ item ∈ [LogItem.inInterest inFace interest], Allowed P s'.pit.entries item := by
    intro item hitem
    rw [List.mem_singleton.mp hitem]
    trivial
  have hafter : ∀ {s₁ : ForwarderState κ}, s₁.log = s.log ++ [.inInterest inFace interest] → ScopedSince P s₁ s' →
      (∀ x e, s₁.pit.entries x = some e → ∃ e', s'.pit.entries x = some e' ∧ e'.inRecords = e.inRecords) →
      Scoped s' ∧ ∃ items, s'.log = s.log ++ items ∧ ∀ item ∈ items, Allowed P s'.pit.entries item := by
    intro s₁ hlog hsince hkeeps
    obtain ⟨items, hitems, hall⟩ := hsince.log_eq
    refine ⟨hsince.toScoped, [.inInterest inFace interest] ++ items, by rw [hitems, hlog, List.append_assoc], ?_⟩
    intro item hitem
    rcases List.mem_append.mp hitem with hmem | hmem
    · exact hin item hmem
    · exact (hall item hmem).mono hkeeps
  rcases onIncomingInterest_cases hstep with ⟨-, rfl⟩ | ⟨-, pit, r, isNew, e, hins, he, hcases⟩
  · exact ⟨⟨h.linked, h.named⟩, _, rfl, hin⟩
  rcases hcases with ⟨-, rfl⟩ | ⟨-, -, cs, data, s₁, -, hdisp, rfl⟩ | ⟨-, cs, hmiss⟩
  · exact ⟨h.admitted hins he s.cs, _, rfl, hin⟩
  · have hcancel : ScopedSince P _ (cancelUnsatisfyAndStragglerTimer { withPit s inFace interest pit with cs } r) :=
      (h.admitted (P := P) hins he cs).since.modifyEntry r (fun _ => rfl) (fun _ => rfl) (fun _ => Or.inl rfl)
    have hstraggler : ScopedSince P _ (setStragglerTimer s₁ r true data.freshnessPeriod) :=
      (hcancel.toScoped.since.dispatch hdisp).modifyEntry r (fun _ => rfl) (fun _ => rfl) (fun _ => Or.inl rfl)
    refine hafter rfl (hstraggler.of_pit (onOutgoingData_pit _ _ _) (onOutgoingData_allowed _ _ _ _))
      (fun x e₀ he₀ => ?_)
    obtain ⟨e₁, he₁, hin₁⟩ := (dispatch_acted hdisp).keeps x e₀ he₀
    rw [onOutgoingData_pit, setStragglerTimer, entries_modify]
    split
    · rename_i hx
      subst hx
      rw [he₁]
      exact ⟨_, rfl, hin₁⟩
    · exact ⟨e₁, he₁, hin₁⟩
  · rw [onContentStoreMiss] at hmiss
    have hcancel : ScopedSince P _ (cancelUnsatisfyAndStragglerTimer { withPit s inFace interest pit with cs } r) :=
      (h.admitted (P := P) hins he cs).since.modifyEntry r (fun _ => rfl) (fun _ => rfl) (fun _ => Or.inl rfl)
    have hname := (h.linked.insert_spec hins he).2.2.2.1
    have hrecorded : Scoped ((cancelUnsatisfyAndStragglerTimer { withPit s inFace interest pit with cs } r).modifyEntry
      r fun e => e.insertOrUpdateInRecord s.now inFace interest) := by
      refine ⟨linked_insertInRecord hcancel.linked r _ _ _, fun {x e'} he' => ?_⟩
      obtain ⟨e₁, he₁, ⟨hx, rfl⟩ | ⟨-, rfl⟩⟩ := Pit.modifyEntry_some he'
      · subst hx
        refine namedRecords_insertInRecord (hcancel.named he₁) _ _ ?_
        rw [cancelUnsatisfyAndStragglerTimer, entries_modify, if_pos rfl] at he₁
        obtain ⟨e₂, he₂, rfl⟩ := Option.map_eq_some_iff.mp he₁
        rw [show e₂ = e from Option.some.inj (he₂.symm.trans he)]
        exact hname
      · exact hcancel.named he₁
    have htimer : ScopedSince P _ (setUnsatisfyTimer _ r) :=
      hrecorded.since.modifyEntry r (fun _ => rfl) (fun _ => rfl) (fun _ => Or.inl rfl)
    exact hafter rfl (htimer.toScoped.since.dispatch hmiss) (dispatch_acted hmiss).keeps

/-- Every step logs only what is allowed. -/
theorem Scoped.step (h : Scoped s) {event : Event} (hstep : step P s event = some s') :
    Scoped s' ∧ ∃ items, s'.log = s.log ++ items ∧
      ∀ item ∈ items, Allowed P (entriesAtTrigger s s' event) item := by
  cases event with
  | incomingInterest inFace interest actions => exact h.incomingInterest hstep
  | incomingData inFace data actions =>
      have hsince := h.incomingData hstep
      exact ⟨hsince.toScoped, hsince.log_eq⟩
  | unsatisfyTimer r actions =>
      simp only [Forwarder.step] at hstep
      split at hstep
      · cases hstep
      · split at hstep
        · obtain ⟨s₁, hs₁, hfin⟩ := Option.bind_eq_some_iff.mp hstep
          have hsince := (h.since.dispatch hs₁).finalize hfin
          exact ⟨hsince.toScoped, hsince.log_eq⟩
        · cases hstep
  | stragglerTimer r =>
      simp only [Forwarder.step] at hstep
      split at hstep
      · cases hstep
      · split at hstep
        · have hsince := h.since.finalize hstep
          exact ⟨hsince.toScoped, hsince.log_eq⟩
        · cases hstep
  | strategyTimer r actions =>
      have hsince := h.since.dispatch hstep
      exact ⟨hsince.toScoped, hsince.log_eq⟩
  | markDeadNonceList =>
      cases hstep
      exact ⟨⟨h.linked, h.named⟩, [], by simp, by simp⟩
  | adjustDeadNonceListCapacity =>
      cases hstep
      exact ⟨⟨h.linked, h.named⟩, [], by simp, by simp⟩
  | contentStoreTimer key =>
      cases hstep
      exact ⟨⟨h.linked, h.named⟩, [], by simp, by simp⟩
  | setFaceId face id =>
      cases hstep
      exact ⟨⟨h.linked, h.named⟩, [], by simp, by simp⟩
  | advanceClock duration =>
      cases hstep
      exact ⟨⟨h.linked, h.named⟩, [], by simp, by simp⟩

theorem new_scoped (nBuckets : Nat) (faceId : Face → Option Nat) (cs : κ) :
    Scoped (ForwarderState.new nBuckets faceId cs) :=
  ⟨Pit.new_linked nBuckets, fun he => by simp [ForwarderState.new, Pit.new] at he⟩

/-- What scope control promises of a step from `s` to `s'`. -/
structure ScopeSafe (P : Platform κ) (s : ForwarderState κ) (event : Event) (s' : ForwarderState κ) : Prop where
  /-- An Interest under `/localhost` of a non-local face changes no table. -/
  interest_dropped : ∀ inFace interest actions, event = .incomingInterest inFace interest actions →
    CrossesLocalhost P inFace interest.name → s'.pit = s.pit ∧ s'.cs = s.cs
  data_dropped : ∀ inFace data actions, event = .incomingData inFace data actions →
    CrossesLocalhost P inFace data.name → s'.pit = s.pit ∧ s'.cs = s.cs
  /-- Nothing under `/localhost` has gone to a non-local face. -/
  interest_kept : ∀ x face interest, .outInterest x face interest ∈ s'.log → ¬ CrossesLocalhost P face interest.name
  data_kept : ∀ face data, .outData face data ∈ s'.log → ¬ CrossesLocalhost P face data.name
  /-- An Interest under `/localhop` goes to a non-local face while its entry has an in-record of a local one. -/
  localhop : ∃ items, s'.log = s.log ++ items ∧ ∀ x face interest, .outInterest x face interest ∈ items →
    P.isLocal face = false → localhopName <+: interest.name →
      ∃ e, entriesAtTrigger s s' event x = some e ∧ e.hasLocalInRecord P.isLocal = true

theorem onIncomingInterest_dropped {inFace : Face} {interest : Interest} {actions : List StrategyAction}
    (hstep : onIncomingInterest P s inFace interest actions = some s')
    (hcross : CrossesLocalhost P inFace interest.name) : s'.pit = s.pit ∧ s'.cs = s.cs := by
  rw [onIncomingInterest, if_pos (isViolatingLocalhost_iff.mpr hcross)] at hstep
  cases hstep
  exact ⟨rfl, rfl⟩

theorem onIncomingData_dropped {inFace : Face} {data : Data} {actions : Ref → List StrategyAction}
    (hstep : onIncomingData P s inFace data actions = some s')
    (hcross : CrossesLocalhost P inFace data.name) : s'.pit = s.pit ∧ s'.cs = s.cs := by
  rw [onIncomingData, if_pos (isViolatingLocalhost_iff.mpr hcross)] at hstep
  cases hstep
  exact ⟨rfl, rfl⟩

/-- Nothing that is logged crosses the `/localhost` boundary. -/
def Contained (P : Platform κ) (log : List LogItem) : Prop := ∀ item ∈ log, ∃ entries, Allowed P entries item

theorem Scoped.contained (h : Scoped s) (hc : Contained P s.log) {event : Event}
    (hstep : Forwarder.step P s event = some s') : Contained P s'.log := by
  obtain ⟨-, items, hlog, hitems⟩ := h.step hstep
  intro item hitem
  rw [hlog] at hitem
  rcases List.mem_append.mp hitem with hold | hnew
  · exact hc item hold
  · exact ⟨_, hitems item hnew⟩

/-- Scope control holds at every step of every run, whatever the strategies and the content store do. -/
theorem scope_safe (P : Platform κ) (nBuckets : Nat) (faceId : Face → Option Nat) (cs : κ)
    (s s' : ForwarderState κ) (event : Event)
    (hr : Reach (step P) anyStep (ForwarderState.new nBuckets faceId cs) s) (hstep : step P s event = some s') :
    ScopeSafe P s event s' := by
  have hinv : Scoped s ∧ Contained P s.log := by
    refine hr.invariant (I := fun s => Scoped s ∧ Contained P s.log)
      ⟨new_scoped nBuckets faceId cs, fun item hitem => by simp [ForwarderState.new] at hitem⟩ ?_
    intro s e s' h _ hs
    exact ⟨(h.1.step hs).1, h.1.contained h.2 hs⟩
  have hcontained := hinv.1.contained hinv.2 hstep
  obtain ⟨-, items, hlog, hitems⟩ := hinv.1.step hstep
  refine ⟨?_, ?_, fun x face interest hmem => ?_, fun face data hmem => ?_, items, hlog, fun x face interest hmem => ?_⟩
  · rintro inFace interest actions rfl hcross
    exact onIncomingInterest_dropped hstep hcross
  · rintro inFace data actions rfl hcross
    exact onIncomingData_dropped hstep hcross
  · obtain ⟨_, hallowed⟩ := hcontained _ hmem
    exact hallowed.1
  · obtain ⟨_, hallowed⟩ := hcontained _ hmem
    exact hallowed
  · exact (hitems _ hmem).2

/-- An Interest under `/localhop` of face 1. -/
def localhopInterest : Interest := plainInterest (localhopName ++ [.ofByte 65])

/-- The platform of the runs on fixed packets, with face 1 local. -/
def localPlatform : Platform (Cs Unit) := { Platform.sample with isLocal := fun face => face == 1 }

/-- It is sent to the non-local face 2, with an in-record of the local face 1. -/
theorem scope_safe_sample :
    ∃ s', step localPlatform ForwarderState.sample
        (.incomingInterest 1 localhopInterest [.sendInterest 2 none]) = some s' ∧
      .outInterest 0 2 localhopInterest ∈ s'.log ∧
      ScopeSafe localPlatform ForwarderState.sample
        (.incomingInterest 1 localhopInterest [.sendInterest 2 none]) s' := by
  have hrun : ((step localPlatform ForwarderState.sample
      (.incomingInterest 1 localhopInterest [.sendInterest 2 none])).any fun s' =>
        decide (.outInterest 0 2 localhopInterest ∈ s'.log)) = true := by decide +kernel
  obtain ⟨s', hs', hmem⟩ := (Option.any_eq_true _ _).mp hrun
  exact ⟨s', hs', of_decide_eq_true hmem,
    scope_safe localPlatform 16 some ⟨[], ()⟩ ForwarderState.sample s' _ Reach.start hs'⟩

end NfdPitless.Forwarder
