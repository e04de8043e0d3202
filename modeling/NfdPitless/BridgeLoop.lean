import NfdPitless.BridgeForwarder

/-! Loops through the bridge forwarder. The bridge makes no out-records, and out-records are all that the
base forwarder queues in the Dead Nonce List when it finalizes an entry, so the list never holds more
than its marks. The Nonce of an Interest is known while an in-record has it and is forgotten with the PIT
entry: a looped Interest that comes back later is forwarded again unless something else stops it. -/

namespace NfdPitless.BridgeForwarder

open Forwarder

variable {κ : Type} {P : Platform κ} {supportingName : Name} {s s' : ForwarderState κ} {r : Ref}

structure Forgets (s : ForwarderState κ) : Prop where
  linked : s.pit.Linked
  noOutRecords : ∀ {r e}, s.pit.entries r = some e → e.outRecords = []
  onlyMarks : ∀ x ∈ s.deadNonceList.queue, x = DeadNonceList.markEntry

theorem new_forgets (nBuckets : Nat) (faceId : Face → Option Nat) (cs : κ) :
    Forgets (ForwarderState.new nBuckets faceId cs) where
  linked := Pit.new_linked nBuckets
  noOutRecords he := by simp [ForwarderState.new, Pit.new] at he
  onlyMarks x hx := by
    simp only [ForwarderState.new, DeadNonceList.new, List.mem_replicate] at hx
    exact hx.2

/-- The same entries and Dead Nonce List. -/
theorem Forgets.same (h : Forgets s) (hpit : s'.pit = s.pit) (hdnl : s'.deadNonceList = s.deadNonceList) :
    Forgets s' :=
  ⟨hpit ▸ h.linked, fun he => h.noOutRecords (hpit ▸ he), hdnl ▸ h.onlyMarks⟩

theorem Forgets.modifyEntry (h : Forgets s) (r : Ref) {f : PitEntry → PitEntry}
    (hnt : ∀ e, (f e).nameTreeEntry = e.nameTreeEntry) (hout : ∀ e, e.outRecords = [] → (f e).outRecords = []) :
    Forgets (s.modifyEntry r f) := by
  refine ⟨h.linked.modifyEntry r hnt, fun {x e'} he' => ?_, h.onlyMarks⟩
  obtain ⟨e, he, ⟨-, rfl⟩ | ⟨-, rfl⟩⟩ := Pit.modifyEntry_some he'
  · exact hout e (h.noOutRecords he)
  · exact h.noOutRecords he

theorem Forgets.cancel (h : Forgets s) (r : Ref) : Forgets (cancelUnsatisfyAndStragglerTimer s r) :=
  h.modifyEntry r (fun _ => rfl) fun _ hout => hout

theorem Forgets.admitted (h : Forgets s) (supportingName : Name) (inFace : Face) (r : Ref) (interest : Interest) :
    Forgets (admitted supportingName s inFace r interest) := by
  refine Forgets.modifyEntry ?_ r (fun _ => rfl) fun _ hout => hout
  exact Forgets.modifyEntry (f := fun e => e.insertOrUpdateInRecord s.now inFace { interest with supportingName })
    h r (fun _ => rfl) fun _ hout => hout

/-- No Nonce is ever queued. -/
theorem Forgets.insertDeadNonceList (h : Forgets s) (r : Ref) (isSatisfied : Bool) (period : Int)
    (upstream : Option Face) : insertDeadNonceList P s r isSatisfied period upstream = s := by
  unfold Forwarder.insertDeadNonceList
  cases he : s.pit.entries r with
  | none => rfl
  | some e =>
      have hout := h.noOutRecords he
      dsimp only
      split
      · cases upstream with
        | none => rw [hout]; rfl
        | some face => simp [PitEntry.getOutRecord, hout]
      · rfl

theorem Forgets.onOutgoingData (h : Forgets s) (data : Data) (face : Face) :
    Forgets (onOutgoingData P s data face) := by
  unfold Forwarder.onOutgoingData
  split
  · exact h
  · split
    · exact h
    · exact h.same rfl rfl

theorem Forgets.sendToDownstreams (h : Forgets s) (inFace : Face) (data : Data) (faces : List Face) :
    Forgets (sendToDownstreams P inFace data faces s) := by
  unfold Forwarder.sendToDownstreams
  generalize faces.filter (fun face => face != inFace) = l
  induction l generalizing s with
  | nil => exact h
  | cons face l ih => exact ih (h.onOutgoingData data face)

theorem Forgets.satisfyEntry (h : Forgets s) {inFace : Face} {data : Data}
    (hstep : satisfyEntry P inFace data (fun _ => []) s r = some s') : Forgets s' := by
  obtain ⟨s₁, hdisp, rfl⟩ := Option.map_eq_some_iff.mp hstep
  have hs₁ : s₁ = cancelUnsatisfyAndStragglerTimer s r := (Option.some.inj hdisp).symm
  have h₁ : Forgets s₁ := hs₁ ▸ h.cancel r
  dsimp only
  rw [h₁.insertDeadNonceList]
  have hmark : Forgets (markSatisfied s₁ r inFace) :=
    (h₁.modifyEntry r (f := fun e => e.deleteInRecords.deleteOutRecord inFace) (fun _ => rfl)
      fun e hout => by simp [PitEntry.deleteOutRecord, PitEntry.deleteInRecords, hout]).same rfl rfl
  exact hmark.modifyEntry r (fun _ => rfl) fun _ hout => hout

theorem Forgets.incomingInterest (h : Forgets s) {inFace : Face} {interest : Interest} {nexthops : List Face}
    {strategy : StrategyInstance}
    (hstep : onIncomingInterest P supportingName s inFace interest nexthops strategy = some s') : Forgets s' := by
  rcases onIncomingInterest_cases hstep with ⟨-, rfl⟩ | ⟨-, pit, r, isNew, e, hins, he, hcases⟩
  · exact h.same rfl rfl
  obtain ⟨hlinked, hother, -, -, -, hnew⟩ := h.linked.insert_spec hins he
  have hpit : ∀ cs : κ, Forgets { withPit s inFace interest pit with cs } := by
    refine fun _ => ⟨hlinked, fun {x e'} he' => ?_, h.onlyMarks⟩
    by_cases hx : x = r
    · subst hx
      rw [show pit.entries x = some e' from he'] at he
      cases he
      rcases hnew with ⟨-, -, hold⟩ | ⟨-, -, nte, rfl⟩
      · exact h.noOutRecords hold
      · rfl
    · exact h.noOutRecords ((hother x hx).symm.trans he')
  rcases hcases with ⟨-, rfl⟩ | ⟨-, -, cs, data, -, rfl⟩ | ⟨-, -, cs, rfl⟩
  · exact hpit s.cs
  · exact ((hpit cs).cancel r).onOutgoingData data inFace
  · obtain ⟨sends, hrun, -⟩ := onContentStoreMiss_spec supportingName
      (cancelUnsatisfyAndStragglerTimer { withPit s inFace interest pit with cs } r) inFace r interest nexthops
    rw [hrun]
    exact (((hpit cs).cancel r).admitted supportingName inFace r interest).same rfl rfl

theorem Forgets.incomingData (h : Forgets s) {inFace : Face} {data : Data}
    (hstep : onIncomingData P s inFace data = some s') : Forgets s' := by
  rcases onIncomingData_cases hstep with rfl | rfl | ⟨result, hresult, rfl⟩
  · exact h.same rfl rfl
  · unfold onDataUnsolicited
    split <;> exact h.same rfl rfl
  · refine Forgets.sendToDownstreams ?_ inFace (resetName data) result.2
    refine satisfyAll_invariant (I := Forgets) (fun _ _ _ h hs => h.satisfyEntry hs) _ ?_ hresult
    exact h.same rfl rfl

theorem Forgets.finalize (h : Forgets s) {isSatisfied : Bool} {period : Int}
    (hstep : onInterestFinalize P s r isSatisfied period = some s') : Forgets s' := by
  rw [onInterestFinalize, h.insertDeadNonceList] at hstep
  obtain ⟨pit, herase, rfl⟩ := Option.map_eq_some_iff.mp hstep
  have hc := h.cancel r
  cases he : (cancelUnsatisfyAndStragglerTimer s r).pit.entries r with
  | none => simp [Pit.erase, he] at herase
  | some e =>
      obtain ⟨p', hp', hlinked, hentries, -⟩ := hc.linked.erase he
      rw [herase] at hp'
      cases hp'
      refine ⟨hlinked, fun {x e'} he' => ?_, h.onlyMarks⟩
      have hx : Function.update (cancelUnsatisfyAndStragglerTimer s r).pit.entries r none x = some e' :=
        hentries ▸ he'
      by_cases hxr : x = r
      · rw [hxr, Function.update_self] at hx
        cases hx
      · rw [Function.update_of_ne hxr] at hx
        exact hc.noOutRecords hx

theorem Forgets.step (h : Forgets s) {event : Event} (hstep : step P supportingName s event = some s') :
    Forgets s' := by
  cases event with
  | incomingInterest inFace interest nexthops => exact h.incomingInterest hstep
  | incomingData inFace data => exact h.incomingData hstep
  | unsatisfyTimer r =>
      simp only [BridgeForwarder.step, Event.base, Option.bind_some, Forwarder.step] at hstep
      split at hstep
      · cases hstep
      · split at hstep
        · exact h.finalize hstep
        · cases hstep
  | stragglerTimer r =>
      simp only [BridgeForwarder.step, Event.base, Option.bind_some, Forwarder.step] at hstep
      split at hstep
      · cases hstep
      · split at hstep
        · exact h.finalize hstep
        · cases hstep
  | markDeadNonceList =>
      cases hstep
      refine ⟨h.linked, h.noOutRecords, fun x hx => ?_⟩
      rcases List.mem_append.mp hx with hx | hx
      · exact h.onlyMarks x hx
      · exact List.mem_singleton.mp hx
  | adjustDeadNonceListCapacity =>
      cases hstep
      exact ⟨h.linked, h.noOutRecords, fun x hx => h.onlyMarks x (List.mem_of_mem_drop hx)⟩
  | contentStoreTimer key =>
      cases hstep
      exact h.same rfl rfl
  | setFaceId face id =>
      cases hstep
      exact h.same rfl rfl
  | advanceClock duration =>
      cases hstep
      exact h.same rfl rfl

/-! ### Loops -/

/-- When it arrives, the Interest is sent on. -/
def Forwards (P : Platform κ) (supportingName : Name) (s : ForwarderState κ) (inFace : Face)
    (interest : Interest) (nexthops : List Face) (strategy : StrategyInstance) : Prop :=
  ∃ s' r outFace sent, step P supportingName s (.incomingInterest inFace interest nexthops strategy) = some s' ∧
    s'.log = s.log ++ [.inInterest inFace interest, .outInterest r outFace sent]

/-- An Interest of this name and Nonce was sent, and its PIT entry expired unsatisfied later. -/
def SentAndExpired (log : List LogItem) (name : Name) (nonce : UInt32) : Prop :=
  ∃ l₁ l₂ r outFace sent, log = l₁ ++ .outInterest r outFace sent :: l₂ ∧ LogItem.finalized r false ∈ l₂ ∧
    sent.name = name ∧ sent.nonce = nonce

def LoopSuppressed (P : Platform κ) (supportingName : Name) (s : ForwarderState κ) (inFace : Face)
    (interest : Interest) (nexthops : List Face) (strategy : StrategyInstance) : Prop :=
  SentAndExpired s.log interest.name interest.nonce →
    ¬ Forwards P supportingName s inFace interest nexthops strategy

/-- Something that has nothing to do with the expired entry stops an Interest: its scope, an in-record
with its Nonce on the PIT entry it gets, a hash that is the mark of the Dead Nonce List, an answer from
the content store, or the lack of a usable next hop. -/
def StoppedOtherwise (P : Platform κ) (s : ForwarderState κ) (inFace : Face) (interest : Interest)
    (nexthops : List Face) : Prop :=
  isViolatingLocalhost P inFace interest.name = true ∨
  (∃ e, entryFor P s interest = some e ∧ ∃ record ∈ e.inRecords, record.lastNonce = interest.nonce) ∨
  (P.makeEntry interest.name interest.nonce = DeadNonceList.markEntry ∧
    DeadNonceList.markEntry ∈ s.deadNonceList.queue) ∨
  (∃ e, entryFor P s interest = some e ∧ e.inRecords = [] ∧ (P.store.find s.cs s.now interest).2.isSome) ∨
  ∀ outFace, nexthops.find? (canForwardToNextHop s inFace) = some outFace → s.faceId outFace = none

/-- With no out-records, a Nonce is a duplicate when an in-record has it. -/
theorem findNonce_ne_none {e : PitEntry} (hout : e.outRecords = []) {nonce : UInt32} {face : Face} :
    e.findNonce nonce face ≠ .none ↔ ∃ record ∈ e.inRecords, record.lastNonce = nonce := by
  rw [Ne, PitEntry.findNonce, DuplicateNonceWhere.none, DuplicateNonceWhere.mk.injEq, hout]
  constructor
  · intro hne
    by_contra hno
    refine hne ⟨?_, ?_, rfl, rfl⟩ <;>
    · rw [List.any_eq_false]
      intro record hrecord htrue
      rw [Bool.and_eq_true, beq_iff_eq] at htrue
      exact hno ⟨record, hrecord, htrue.1⟩
  · rintro ⟨record, hrecord, rfl⟩ ⟨hsame, hother, -, -⟩
    rw [List.any_eq_false] at hsame hother
    have h₁ := hsame record hrecord
    have h₂ := hother record hrecord
    by_cases hf : record.face = face
    · simp [hf] at h₁
    · simp [hf] at h₂

theorem Forgets.hasDuplicateNonce_iff (h : Forgets s) {e : PitEntry} (hout : e.outRecords = []) (inFace : Face)
    (interest : Interest) :
    hasDuplicateNonce P s e inFace interest = true ↔
      (∃ record ∈ e.inRecords, record.lastNonce = interest.nonce) ∨
      P.makeEntry interest.name interest.nonce = DeadNonceList.markEntry ∧
        DeadNonceList.markEntry ∈ s.deadNonceList.queue := by
  rw [hasDuplicateNonce, Bool.or_eq_true, bne_iff_ne, findNonce_ne_none hout, DeadNonceList.has,
    List.contains_iff_mem]
  refine or_congr_right ⟨fun hmem => ?_, ?_⟩
  · have heq := h.onlyMarks _ hmem
    exact ⟨heq, heq ▸ hmem⟩
  · rintro ⟨heq, hmem⟩
    exact heq ▸ hmem

/-- An Interest that is dropped or answered is not sent. -/
theorem not_forwards_of_log {inFace : Face} {interest : Interest} {nexthops : List Face}
    {strategy : StrategyInstance}
    (hstep : onIncomingInterest P supportingName s inFace interest nexthops strategy = some s') (items : List LogItem)
    (hlog : s'.log = s.log ++ items) (hitems : ∀ r outFace sent, LogItem.outInterest r outFace sent ∉ items) :
    ¬ Forwards P supportingName s inFace interest nexthops strategy := by
  rintro ⟨s₁, r, outFace, sent, hs₁, hlog₁⟩
  have heq : some s' = some s₁ := hstep.symm.trans hs₁
  cases heq
  have hsame : items = [.inInterest inFace interest, .outInterest r outFace sent] :=
    List.append_cancel_left (hlog.symm.trans hlog₁)
  exact hitems r outFace sent (by simp [hsame])

theorem onOutgoingData_log (s : ForwarderState κ) (data : Data) (face : Face) :
    (onOutgoingData P s data face).log = s.log ∨
      (onOutgoingData P s data face).log = s.log ++ [.outData face data] := by
  unfold onOutgoingData
  split
  · exact Or.inl rfl
  · split
    · exact Or.inl rfl
    · exact Or.inr rfl

/-- The arrival of an Interest fails only after a content store hit. -/
theorem onIncomingInterest_fails (h : s.pit.Linked) {inFace : Face} {interest : Interest} {nexthops : List Face}
    {strategy : StrategyInstance}
    (hnone : onIncomingInterest P supportingName s inFace interest nexthops strategy = none) :
    ∃ e, entryFor P s interest = some e ∧ e.inRecords = [] ∧ (P.store.find s.cs s.now interest).2.isSome := by
  obtain ⟨pit, r, isNew, hins, -, hcases⟩ := h.insert P.cityHash interest
  obtain ⟨e, he⟩ : ∃ e, pit.entries r = some e := by
    rcases hcases with ⟨-, hentries, -, hfor⟩ | ⟨-, rfl, -, nte, hentries⟩
    · obtain ⟨e, he, -⟩ := Pit.isFor_eq_true.mp hfor
      exact ⟨e, hentries ▸ he⟩
    · exact ⟨_, by rw [hentries, Function.update_self]⟩
  have hins' : (s.logged (.inInterest inFace interest)).pit.insert P.cityHash interest =
      some (pit, r, isNew) := hins
  unfold onIncomingInterest at hnone
  dsimp only at hnone
  split at hnone
  · cases hnone
  · rw [hins', Option.bind_some] at hnone
    dsimp only at hnone
    rw [he, Option.bind_some] at hnone
    split at hnone
    · cases hnone
    · split at hnone
      · rename_i hempty
        split at hnone
        · rename_i data hfound
          exact ⟨e, by rw [entryFor, hins]; exact he, hempty, Option.isSome_iff_exists.mpr ⟨data, hfound⟩⟩
        · cases hnone
      · cases hnone

/-- What decides whether an Interest is forwarded. -/
theorem Forgets.not_forwards_iff (h : Forgets s) (supportingName : Name) (inFace : Face) (interest : Interest)
    (nexthops : List Face) (strategy : StrategyInstance) :
    ¬ Forwards P supportingName s inFace interest nexthops strategy ↔
      StoppedOtherwise P s inFace interest nexthops := by
  rcases hrun : onIncomingInterest P supportingName s inFace interest nexthops strategy with _ | s'
  · -- the trigger fails, so nothing is sent
    refine iff_of_true ?_ (Or.inr (Or.inr (Or.inr (Or.inl (onIncomingInterest_fails h.linked hrun)))))
    rintro ⟨s', r, outFace, sent, hs', -⟩
    cases hrun.symm.trans hs'
  have hstep := hrun
  rcases onIncomingInterest_cases hstep with ⟨hv, rfl⟩ | ⟨hv, pit, r, isNew, e, hins, he, hcases⟩
  · exact ⟨fun _ => Or.inl hv, fun _ => not_forwards_of_log hstep [_] rfl (by simp)⟩
  have hentry : entryFor P s interest = some e := by rw [entryFor, hins]; exact he
  obtain ⟨-, -, -, -, -, hnew⟩ := h.linked.insert_spec hins he
  have hout : e.outRecords = [] := by
    rcases hnew with ⟨-, -, hold⟩ | ⟨-, -, nte, rfl⟩
    · exact h.noOutRecords hold
    · rfl
  have hdup := h.hasDuplicateNonce_iff (P := P) hout inFace interest
  rcases hcases with ⟨hd, rfl⟩ | ⟨-, hempty, cs, data, hfind, rfl⟩ | ⟨hd, hmiss, cs, rfl⟩
  · refine ⟨fun _ => ?_, fun _ => not_forwards_of_log hstep [_] rfl (by simp)⟩
    rcases hdup.mp hd with hrecord | hmark
    · exact Or.inr (Or.inl ⟨e, hentry, hrecord⟩)
    · exact Or.inr (Or.inr (Or.inl hmark))
  · refine ⟨fun _ => Or.inr (Or.inr (Or.inr (Or.inl ⟨e, hentry, hempty, by rw [hfind]; rfl⟩))), fun _ => ?_⟩
    rcases onOutgoingData_log (P := P) (cancelUnsatisfyAndStragglerTimer
      { withPit s inFace interest pit with cs } r) data inFace with hlog | hlog
    · exact not_forwards_of_log hstep [_] hlog (by simp)
    · refine not_forwards_of_log hstep [.inInterest inFace interest, .outData inFace data] ?_ (by simp)
      rw [hlog]
      simp [cancelUnsatisfyAndStragglerTimer, ForwarderState.modifyEntry, withPit, ForwarderState.logged]
  · -- the Interest is admitted, and only the next hops decide
    obtain ⟨sends, hrun, hsends⟩ := onContentStoreMiss_spec supportingName
      (cancelUnsatisfyAndStragglerTimer { withPit s inFace interest pit with cs } r) inFace r interest nexthops
    rw [hrun] at hstep
    rcases hsends with ⟨rfl, hhops⟩ | ⟨outFace, hhop, hid, rfl⟩
    · refine ⟨fun _ => Or.inr (Or.inr (Or.inr (Or.inr hhops))), fun _ => ?_⟩
      refine not_forwards_of_log hstep [.inInterest inFace interest] ?_ (by simp)
      simp [cancelUnsatisfyAndStragglerTimer, ForwarderState.modifyEntry, withPit, ForwarderState.logged]
    · have hforwards : Forwards P supportingName s inFace interest nexthops strategy := by
        refine ⟨_, r, outFace, { interest with supportingName }, hstep, ?_⟩
        simp [cancelUnsatisfyAndStragglerTimer, ForwarderState.modifyEntry, withPit, ForwarderState.logged]
      refine ⟨fun hnot => absurd hforwards hnot, ?_⟩
      rintro (hv' | ⟨e', he', hrecord⟩ | hmark | ⟨e', he', hempty, hsome⟩ | hhops)
      · rw [hv] at hv'
        cases hv'
      · rw [hentry] at he'
        cases he'
        rw [hdup.mpr (Or.inl hrecord)] at hd
        cases hd
      · rw [hdup.mpr (Or.inr hmark)] at hd
        cases hd
      · rw [hentry] at he'
        cases he'
        rw [hmiss hempty] at hsome
        cases hsome
      · exact absurd (hhops outFace hhop) hid

/-- In every run, an Interest whose Nonce was sent before for an entry that then expired is kept from
being forwarded again only if something that has nothing to do with that stops it. -/
theorem loop_suppressed_iff (P : Platform κ) (supportingName : Name) (nBuckets : Nat) (faceId : Face → Option Nat)
    (cs : κ) (s : ForwarderState κ)
    (hr : Reach (step P supportingName) anyStep (ForwarderState.new nBuckets faceId cs) s) (inFace : Face)
    (interest : Interest) (nexthops : List Face) (strategy : StrategyInstance)
    (hsent : SentAndExpired s.log interest.name interest.nonce) :
    LoopSuppressed P supportingName s inFace interest nexthops strategy ↔
      StoppedOtherwise P s inFace interest nexthops := by
  have hforgets := hr.invariant (new_forgets nBuckets faceId cs) fun _ _ _ h _ hs => h.step hs
  rw [← hforgets.not_forwards_iff supportingName]
  exact ⟨fun hsup => hsup hsent, fun hnot _ => hnot⟩

/-- An Interest from face 1 is sent to face 2 and expires unanswered. -/
def sentAndExpired : List Event :=
  [.incomingInterest 1 (plainInterest [.ofByte 65]) [2] makeDefaultStrategy, .advanceClock (milliseconds 4000),
    .unsatisfyTimer 0]

theorem sentAndExpired_log :
    (exec (step Platform.sample []) ForwarderState.sample sentAndExpired).map (fun s => s.log) =
      some [.inInterest 1 (plainInterest [.ofByte 65]), .outInterest 0 2 (plainInterest [.ofByte 65]),
        .finalized 0 false] := by decide

/-- When it comes back from face 3 it is forwarded again, although nothing has been evicted from the
Dead Nonce List and there is room in it. -/
theorem looped_interest_forwarded :
    ∃ s, Reach (step Platform.sample []) anyStep ForwarderState.sample s ∧
      s.deadNonceList.nEvicted = 0 ∧ s.deadNonceList.queue.length < s.deadNonceList.capacity ∧
      ¬ LoopSuppressed Platform.sample [] s 3 (plainInterest [.ofByte 65]) [2] makeDefaultStrategy := by
  have hrun : (exec (step Platform.sample []) ForwarderState.sample sentAndExpired).map (fun s =>
      (s.deadNonceList.nEvicted, decide (s.deadNonceList.queue.length < s.deadNonceList.capacity),
        (step Platform.sample [] s (.incomingInterest 3 (plainInterest [.ofByte 65]) [2] makeDefaultStrategy)).map
          fun s' =>
          decide (s'.log = s.log ++ [.inInterest 3 (plainInterest [.ofByte 65]),
            .outInterest 1 2 (plainInterest [.ofByte 65])]))) = some (0, true, some true) := by decide
  obtain ⟨s, hs, hall⟩ := Option.map_eq_some_iff.mp hrun
  rw [Prod.mk.injEq, Prod.mk.injEq] at hall
  obtain ⟨hevicted, hroom, hforward⟩ := hall
  refine ⟨s, reach_of_exec Reach.start hs, hevicted, by simpa using hroom, fun hsup => ?_⟩
  obtain ⟨s', hs', hlog⟩ := Option.map_eq_some_iff.mp hforward
  have hsent := sentAndExpired_log
  rw [hs, Option.map_some, Option.some.injEq] at hsent
  exact hsup ⟨_, _, 0, 2, _, (by rw [hsent]; rfl : s.log = [_] ++ _ :: [_]), List.mem_singleton_self _, rfl, rfl⟩
    ⟨s', 1, 2, _, hs', of_decide_eq_true hlog⟩

/-- The same Interest is stopped when the FIB has no next hop for it. -/
theorem loop_suppressed_without_nexthop :
    ∃ s, exec (step Platform.sample []) ForwarderState.sample sentAndExpired = some s ∧
      SentAndExpired s.log [.ofByte 65] 1 ∧
      LoopSuppressed Platform.sample [] s 3 (plainInterest [.ofByte 65]) [] makeDefaultStrategy := by
  obtain ⟨s, hs, hlog⟩ := Option.map_eq_some_iff.mp sentAndExpired_log
  have hsent : SentAndExpired s.log [.ofByte 65] 1 :=
    ⟨_, _, 0, 2, _, (by rw [hlog]; rfl : s.log = [_] ++ _ :: [_]), List.mem_singleton_self _, rfl, rfl⟩
  refine ⟨s, hs, hsent, ?_⟩
  refine (loop_suppressed_iff Platform.sample [] 16 some ⟨[], ()⟩ s (reach_of_exec Reach.start hs) 3
    (plainInterest [.ofByte 65]) [] makeDefaultStrategy hsent).mpr ?_
  exact Or.inr (Or.inr (Or.inr (Or.inr fun _ hfind => by cases hfind)))

end NfdPitless.BridgeForwarder
