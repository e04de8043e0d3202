import NfdPitless.StrategyPipelines

/-! The propagate timers of NCC. A pending one is that of a PIT entry whose effective strategy is NCC, and its handle is
the one stored on the entry, as long as NCC sets a timer only where none is pending: it sets one when it treats an
Interest as new, without looking for one that is pending, and then the handle of that one is lost. -/

namespace NfdPitless

open Forwarder LongestPrefix StrategyState
open Strategy (sendInterest)

variable {κ : Type} {P : Platform κ} {s s' s'' : StrategyState κ} {r x fibEntry : Ref} {e : PitEntry}
  {strategy : Strategy} {base : ForwarderState κ} {input : TriggerInput} {id : Nat}

namespace StrategyState

/-- A pending propagate timer of a PIT entry. -/
def PropagateTimer (s : StrategyState κ) (r : Ref) (id : Nat) : Prop :=
  ∃ event ∈ s.timers.pending, event.id = id ∧ ∃ fibWeak, event.callback = .doPropagate r fibWeak

/-- The handle on the PIT entry. -/
def propagateHandle (s : StrategyState κ) (r : Ref) : Option Nat := (s.info r).ncc.bind NccPitEntryInfo.propagateTimer

/-- A pending propagate timer is that of a PIT entry in the table, and its handle is stored in the item there. -/
def TimersOwned (s : StrategyState κ) : Prop :=
  ∀ r id, s.PropagateTimer r id → (s.entry r).isSome ∧
    ∃ pitEntryInfo, (s.info r).ncc = some pitEntryInfo ∧ pitEntryInfo.propagateTimer = some id

/-- No propagate timer of the PIT entry is pending. -/
def Unarmed (s : StrategyState κ) (r : Ref) : Prop := ∀ id, ¬ s.PropagateTimer r id

/-- Where the propagate timers are. -/
structure Propagating (s : StrategyState κ) : Prop where
  linked : s.base.pit.Linked
  stored : ∀ {r id}, s.PropagateTimer r id → s.propagateHandle r = some id
  chosen : ∀ {r id}, s.PropagateTimer r id → ∃ e, s.entry r = some e ∧ s.effectiveStrategy e.getName = some .ncc

theorem Propagating.timersOwned (h : s.Propagating) : s.TimersOwned := by
  intro r id htimer
  obtain ⟨e, he, -⟩ := h.chosen htimer
  exact ⟨he ▸ rfl, Option.bind_eq_some_iff.mp (h.stored htimer)⟩

theorem propagateTimer_of_cancel {handle : Option Nat} (h : (s.cancel handle).PropagateTimer r id) :
    s.PropagateTimer r id ∧ handle ≠ some id := by
  obtain ⟨event, hmem, rfl, hcall⟩ := h
  obtain ⟨hmem, hne⟩ := TimerQueue.mem_cancel.mp hmem
  exact ⟨⟨event, hmem, rfl, hcall⟩, hne⟩

theorem propagateTimer_of_schedule {delay : Nat} {callback : StrategyCallback}
    (h : (s.schedule delay callback).PropagateTimer r id) :
    s.PropagateTimer r id ∨ id = s.timers.nextId ∧ ∃ fibWeak, callback = .doPropagate r fibWeak := by
  obtain ⟨event, hmem, rfl, hcall⟩ := h
  rcases TimerQueue.mem_schedule.mp hmem with hmem | rfl
  · exact Or.inl ⟨event, hmem, rfl, hcall⟩
  · exact Or.inr ⟨rfl, hcall⟩

theorem Propagating.cancel (h : s.Propagating) (handle : Option Nat) : (s.cancel handle).Propagating where
  linked := h.linked
  stored htimer := h.stored (propagateTimer_of_cancel htimer).1
  chosen htimer := h.chosen (propagateTimer_of_cancel htimer).1

/-- A timer that has fired was the only one of its PIT entry. -/
theorem Propagating.unarmed_of_cancel (h : s.Propagating) (htimer : s.PropagateTimer r id) :
    (s.cancel (some id)).Unarmed r := by
  intro id' htimer'
  obtain ⟨hold, hne⟩ := propagateTimer_of_cancel htimer'
  exact hne ((h.stored htimer).symm.trans (h.stored hold))

theorem propagateTimer_of_clear (h : (s.clearStrategyInfo r).PropagateTimer x id) :
    s.PropagateTimer x id ∧ s.propagateHandle r ≠ some id := by
  obtain ⟨hold, hne⟩ := propagateTimer_of_cancel (s := (s.cancel _).cancel _) h
  exact ⟨(propagateTimer_of_cancel (propagateTimer_of_cancel hold).1).1, hne⟩

/-- The timer is cancelled with its item. -/
theorem Propagating.unarmed_of_clear (h : s.Propagating) (r : Ref) : (s.clearStrategyInfo r).Unarmed r := by
  intro id htimer
  obtain ⟨hold, hne⟩ := propagateTimer_of_clear htimer
  exact hne (h.stored hold)

theorem Propagating.clear (h : s.Propagating) (r : Ref) : (s.clearStrategyInfo r).Propagating where
  linked := h.linked
  stored {x id} htimer := by
    have hx : x ≠ r := by
      rintro rfl
      exact h.unarmed_of_clear x id htimer
    rw [propagateHandle, info_clearStrategyInfo, if_neg hx]
    exact h.stored (propagateTimer_of_clear htimer).1
  chosen htimer := h.chosen (propagateTimer_of_clear htimer).1

theorem Propagating.clearAll (h : s.Propagating) (rs : List Ref) : (rs.foldl clearStrategyInfo s).Propagating := by
  induction rs generalizing s with
  | nil => exact h
  | cons r rs ih => exact ih (h.clear r)

/-- The tables change; the PIT entries that have a propagate timer keep their Interest. -/
theorem Propagating.withBase (h : s.Propagating) (hl : base.pit.Linked)
    (hkeep : ∀ x e, ¬ s.Unarmed x → s.entry x = some e →
      ∃ e', base.pit.entries x = some e' ∧ e'.interest = e.interest) :
    ({ s with base } : StrategyState κ).Propagating where
  linked := hl
  stored htimer := h.stored (s := s) htimer
  chosen {x id} htimer := by
    have hold : s.PropagateTimer x id := htimer
    obtain ⟨e, he, heff⟩ := h.chosen hold
    obtain ⟨e', he', hint⟩ := hkeep x e (fun hunarmed => hunarmed id hold) he
    refine ⟨e', he', ?_⟩
    rw [PitEntry.getName, hint]
    exact heff

end StrategyState

/-- From `s` to `s'` a strategy acted on the PIT entry `r`, set no propagate timer and left the handles alone. -/
structure SetsNoTimer (r : Ref) (s s' : StrategyState κ) : Prop where
  acted : Acted r s.base s'.base
  strategyChoice_eq : s'.strategyChoice = s.strategyChoice
  handle_eq : ∀ x, s'.propagateHandle x = s.propagateHandle x
  item_kept : ∀ x, (s.info x).ncc.isSome → (s'.info x).ncc.isSome
  timers : ∀ x id, s'.PropagateTimer x id → s.PropagateTimer x id

namespace SetsNoTimer

theorem refl (r : Ref) (s : StrategyState κ) : SetsNoTimer r s s where
  acted := Acted.refl r s.base
  strategyChoice_eq := rfl
  handle_eq _ := rfl
  item_kept _ h := h
  timers _ _ h := h

theorem trans (h : SetsNoTimer r s s') (h' : SetsNoTimer r s' s'') : SetsNoTimer r s s'' where
  acted := h.acted.trans h'.acted
  strategyChoice_eq := h'.strategyChoice_eq.trans h.strategyChoice_eq
  handle_eq x := (h'.handle_eq x).trans (h.handle_eq x)
  item_kept x hx := h'.item_kept x (h.item_kept x hx)
  timers x id htimer := h.timers x id (h'.timers x id htimer)

theorem of_base (h : Acted r s.base base) : SetsNoTimer r s { s with base } where
  acted := h
  strategyChoice_eq := rfl
  handle_eq _ := rfl
  item_kept _ h := h
  timers _ _ h := h

/-- Items are stored, with the same handle in that of NCC. -/
theorem setInfo {info : PitStrategyInfo} (hhandle : info.ncc.bind NccPitEntryInfo.propagateTimer = s.propagateHandle r)
    (hkept : (s.info r).ncc.isSome → info.ncc.isSome) : SetsNoTimer r s (s.setInfo r info) where
  acted := Acted.refl r s.base
  strategyChoice_eq := rfl
  handle_eq x := by
    rw [propagateHandle, info_setInfo]
    split
    · rename_i hx
      rw [hx, hhandle]
    · rfl
  item_kept x hx := by
    rw [info_setInfo]
    split
    · rename_i hxr
      rw [hxr] at hx
      exact hkept hx
    · exact hx
  timers _ _ h := h

theorem cancel (r : Ref) (s : StrategyState κ) (handle : Option Nat) : SetsNoTimer r s (s.cancel handle) where
  acted := Acted.refl r s.base
  strategyChoice_eq := rfl
  handle_eq _ := rfl
  item_kept _ h := h
  timers _ _ h := (propagateTimer_of_cancel h).1

theorem schedule (r : Ref) (s : StrategyState κ) (delay : Nat) {callback : StrategyCallback}
    (h : ∀ x fibWeak, callback ≠ .doPropagate x fibWeak) : SetsNoTimer r s (s.schedule delay callback) where
  acted := Acted.refl r s.base
  strategyChoice_eq := rfl
  handle_eq _ := rfl
  item_kept _ h := h
  timers x id htimer := by
    rcases propagateTimer_of_schedule htimer with hold | ⟨-, fibWeak, hcall⟩
    · exact hold
    · exact absurd hcall (h x fibWeak)

theorem unarmed (h : SetsNoTimer r s s') (hunarmed : s.Unarmed x) : s'.Unarmed x :=
  fun id htimer => hunarmed id (h.timers x id htimer)

theorem chosen (h : SetsNoTimer r s s') (he : s.entry x = some e)
    (heff : s.effectiveStrategy e.getName = some strategy) :
    ∃ e', s'.entry x = some e' ∧ s'.effectiveStrategy e'.getName = some strategy := by
  have heffective : ∀ n, s'.effectiveStrategy n = s.effectiveStrategy n := fun n => by
    rw [effectiveStrategy, effectiveStrategy, h.strategyChoice_eq]
  by_cases hx : x = r
  · subst hx
    obtain ⟨e', he', hint, -⟩ := h.acted.entry e he
    refine ⟨e', he', ?_⟩
    rw [heffective, PitEntry.getName, hint]
    exact heff
  · exact ⟨e, (h.acted.other x hx).trans he, (heffective _).trans heff⟩

theorem propagating (h : SetsNoTimer r s s') (hs : s.Propagating) : s'.Propagating where
  linked := h.acted.linked hs.linked
  stored {x id} htimer := (h.handle_eq x).trans (hs.stored (h.timers x id htimer))
  chosen {x id} htimer := by
    obtain ⟨e, he, heff⟩ := hs.chosen (h.timers x id htimer)
    exact h.chosen he heff

end SetsNoTimer

/-- The assertions that may fail: all but the one that the item of a PIT entry is there when its timer fires. -/
def OtherThanPropagate (a : Assertion) : Prop := a ≠ .propagatePitEntryInfo

theorem sendInterest_setsNoTimer (s : StrategyState κ) (outFace : Face) :
    Ends OtherThanPropagate (SetsNoTimer r s) (sendInterest P s r outFace) := by
  rcases sendInterest_acted P s r outFace with hsend | ⟨base, hacted, hsend⟩
  · rw [hsend]
    exact Assertion.noConfusion
  · rw [hsend]
    exact SetsNoTimer.of_base hacted

/-- The rules for `SetsNoTimer`. -/
theorem SetsNoTimer.rules (P : Platform κ) (r : Ref) :
    TriggerRules P OtherThanPropagate r (fun _ => True) (SetsNoTimer r) where
  refl := SetsNoTimer.refl r
  trans := SetsNoTimer.trans
  keeps _ _ := trivial
  send {s} outFace _ := sendInterest_setsNoTimer s outFace
  reject s := by
    obtain ⟨base, hacted, hreject⟩ := rejectPendingInterest_acted P s r
    rw [hreject]
    exact SetsNoTimer.of_base hacted
  setRetx _ _ := SetsNoTimer.setInfo rfl fun h => h
  lastOutgoing := Assertion.noConfusion
  earliestOutRecord := Assertion.noConfusion

namespace NccStrategy

theorem modifyPitEntryInfo_setsNoTimer (s : StrategyState κ) (r : Ref) {f : NccPitEntryInfo → NccPitEntryInfo}
    (hf : ∀ info, (f info).propagateTimer = info.propagateTimer) : SetsNoTimer r s (modifyPitEntryInfo s r f) := by
  refine SetsNoTimer.setInfo ?_ fun hsome => ?_
  · rw [propagateHandle]
    cases (s.info r).ncc with
    | none => rfl
    | some info => exact hf info
  · rw [Option.isSome_map]
    exact hsome

theorem setBestFaceTimeout_setsNoTimer (s : StrategyState κ) (delay : Nat) (r : Ref) :
    SetsNoTimer r s (setBestFaceTimeout s delay r) :=
  (SetsNoTimer.schedule r s delay (by simp)).trans (modifyPitEntryInfo_setsNoTimer _ r fun _ => rfl)

/-- The item that is made holds no handle. -/
theorem getOrCreatePitEntryInfo_setsNoTimer (s : StrategyState κ) (r : Ref) :
    SetsNoTimer r s (s.setInfo r { s.info r with ncc := some (getOrCreatePitEntryInfo s r) }) := by
  refine SetsNoTimer.setInfo ?_ fun _ => rfl
  rw [propagateHandle, getOrCreatePitEntryInfo]
  cases (s.info r).ncc with
  | none => rfl
  | some info => rfl

theorem sendFirst_setsNoTimer (s : StrategyState κ) (fibEntry r : Ref) (info : NccMeasurementsInfo) :
    Ends OtherThanPropagate (fun result => SetsNoTimer r s result.1) (sendFirst P s fibEntry r info) := by
  rw [sendFirst]
  split
  · exact (sendInterest_setsNoTimer s _).map fun s' hs => hs.trans (setBestFaceTimeout_setsNoTimer s' _ r)
  · exact ((SetsNoTimer.rules P r).sendIfFound trivial _).map fun s' hs => hs

/-- A timer is set where none is pending. -/
theorem setPropagateTimer_propagating (hs : s.Propagating) (hunarmed : s.Unarmed r) (he : s.entry r = some e)
    (heff : s.effectiveStrategy e.getName = some .ncc) (hitem : (s.info r).ncc.isSome) (delay : Nat) (fibWeak : Ref) :
    (setPropagateTimer s delay r fibWeak).Propagating := by
  obtain ⟨pitEntryInfo, hitem⟩ := Option.isSome_iff_exists.mp hitem
  have hinfo : ∀ x, (setPropagateTimer s delay r fibWeak).info x =
      if x = r then { s.info r with ncc := some { pitEntryInfo with propagateTimer := some s.timers.nextId } }
      else s.info x := by
    intro x
    rw [setPropagateTimer, modifyPitEntryInfo, info_setInfo, info_schedule, hitem, Option.map_some]
  have hcases : ∀ {x id}, (setPropagateTimer s delay r fibWeak).PropagateTimer x id →
      s.PropagateTimer x id ∨ x = r ∧ id = s.timers.nextId := by
    intro x id htimer
    rcases propagateTimer_of_schedule htimer with hold | ⟨rfl, _, hcall⟩
    · exact Or.inl hold
    · cases hcall
      exact Or.inr ⟨rfl, rfl⟩
  refine ⟨hs.linked, fun {x id} htimer => ?_, fun {x id} htimer => ?_⟩
  · rw [propagateHandle, hinfo]
    rcases hcases htimer with hold | ⟨rfl, rfl⟩
    · have hx : x ≠ r := by
        rintro rfl
        exact hunarmed id hold
      rw [if_neg hx]
      exact hs.stored hold
    · rw [if_pos rfl]
      rfl
  · rcases hcases htimer with hold | ⟨rfl, rfl⟩
    · exact hs.chosen hold
    · exact ⟨e, he, heff⟩

/-- An Interest that is treated as new must find no timer pending. -/
theorem afterReceiveInterest_propagating (hs : s.Propagating) (he : s.entry r = some e)
    (heff : s.effectiveStrategy e.getName = some .ncc)
    (hnew : s.nexthopsOf fibEntry ≠ [] → s.hasUnexpiredOutRecords r = false → s.Unarmed r) :
    Ends OtherThanPropagate Propagating (afterReceiveInterest P s fibEntry r input) := by
  rw [afterReceiveInterest]
  split
  · exact ((SetsNoTimer.rules P r).reject s).propagating hs
  · rename_i hnexthops
    have hcreated := getOrCreatePitEntryInfo_setsNoTimer s r
    dsimp only
    split
    · exact hcreated.propagating hs
    · rename_i hout
      rw [Bool.not_eq_true] at hout
      refine (sendFirst_setsNoTimer _ fibEntry r _).map fun result hsent => ?_
      obtain ⟨s', deferral⟩ := result
      have hmax := modifyPitEntryInfo_setsNoTimer s' r (f := fun info => { info with
        maxInterval := maxIntervalOf deferral (input.measurementsInfo.previousFace.any (isUsable P s' fibEntry r)) })
        fun _ => rfl
      have ht := (hcreated.trans hsent).trans hmax
      obtain ⟨e', he', heff'⟩ := ht.chosen he heff
      refine setPropagateTimer_propagating (ht.propagating hs) (ht.unarmed (hnew hnexthops hout)) he' heff' ?_ _ _
      have hitem : ((s.setInfo r { s.info r with ncc := some (getOrCreatePitEntryInfo s r) }).info r).ncc.isSome := by
        rw [info_setInfo, if_pos rfl]
        rfl
      exact (hsent.trans hmax).item_kept r hitem

/-- The timer fires: its item is there, and the next timer is the only one. -/
theorem doPropagate_propagating (hs : s.Propagating) (hunarmed : s.Unarmed r) (he : s.entry r = some e)
    (heff : s.effectiveStrategy e.getName = some .ncc) (hitem : (s.info r).ncc.isSome) (fibWeak : Ref) :
    Ends OtherThanPropagate Propagating (doPropagate P s r fibWeak input) := by
  rw [doPropagate]
  split
  · obtain ⟨pitEntryInfo, hinfo⟩ := Option.isSome_iff_exists.mp hitem
    rw [hinfo]
    dsimp only
    refine ((SetsNoTimer.rules P r).sendIfFound trivial _).bind fun s' hprevious => ?_
    split
    · exact hprevious.propagating hs
    · refine (sendInterest_setsNoTimer s' _).map fun s'' hsent => ?_
      have ht := hprevious.trans hsent
      obtain ⟨e', he', heff'⟩ := ht.chosen he heff
      exact setPropagateTimer_propagating (ht.propagating hs) (ht.unarmed hunarmed) he' heff' (ht.item_kept r hitem) _ _
  · exact hs

/-- The timer is cancelled with its handle. -/
theorem beforeSatisfyInterest_propagating (hs : s.Propagating) (r : Ref) :
    (beforeSatisfyInterest s r).Propagating := by
  rw [beforeSatisfyInterest]
  split
  · exact hs
  · split
    · exact hs
    · rename_i pitEntryInfo hitem
      have hhandle : s.propagateHandle r = pitEntryInfo.propagateTimer := by
        rw [propagateHandle, hitem]
        rfl
      refine ⟨hs.linked, fun {x id} htimer => ?_, fun htimer => hs.chosen (propagateTimer_of_cancel htimer).1⟩
      obtain ⟨hold, hne⟩ := propagateTimer_of_cancel htimer
      have hx : x ≠ r := by
        rintro rfl
        exact hne (hhandle.symm.trans (hs.stored hold))
      rw [propagateHandle, modifyPitEntryInfo, info_setInfo, if_neg hx]
      exact hs.stored hold

end NccStrategy

theorem AccessStrategy.setRtoTimer_setsNoTimer (s : StrategyState κ) (rto : Nat) (fibWeak : Ref)
    (inFace firstOutFace : Option Nat) :
    SetsNoTimer r s (setRtoTimer s r rto (.afterRtoTimeout r fibWeak inFace firstOutFace)) :=
  ((SetsNoTimer.schedule r s rto (by simp)).trans (SetsNoTimer.cancel r _ _)).trans (SetsNoTimer.setInfo rfl fun h => h)

theorem Strategy.afterReceiveInterest_propagating (hs : s.Propagating) (he : s.entry r = some e)
    (heff : s.effectiveStrategy e.getName = some strategy) (inFace : Face)
    (hnew : strategy = .ncc → s.nexthopsOf fibEntry ≠ [] → s.hasUnexpiredOutRecords r = false → s.Unarmed r) :
    Ends OtherThanPropagate Propagating (strategy.afterReceiveInterest P s inFace fibEntry r input) := by
  have hrules := SetsNoTimer.rules P r
  have hkept : ∀ s', SetsNoTimer r s s' → s'.Propagating := fun s' ht => ht.propagating hs
  cases strategy with
  | bestRoute2 => exact (hrules.bestRoute2 trivial inFace fibEntry).mono hkept
  | multicast => exact (hrules.multicast trivial fibEntry).mono hkept
  | clientControl => exact (hrules.clientControl trivial fibEntry input).mono hkept
  | ncc => exact NccStrategy.afterReceiveInterest_propagating hs he heff (hnew rfl)
  | access =>
      exact (hrules.access (fun s rto fibWeak _ _ _ => AccessStrategy.setRtoTimer_setsNoTimer s rto fibWeak _ _) trivial
        inFace fibEntry input).mono hkept

theorem Strategy.beforeSatisfyInterest_propagating (hs : s.Propagating) (strategy : Strategy) (r : Ref) :
    (strategy.beforeSatisfyInterest s r).Propagating := by
  cases strategy with
  | ncc => exact NccStrategy.beforeSatisfyInterest_propagating hs r
  | access =>
      rw [Strategy.beforeSatisfyInterest, AccessStrategy.beforeSatisfyInterest]
      split
      · exact hs
      · rename_i pi _
        have hset : SetsNoTimer r (s.cancel pi.rtoTimer)
            ((s.cancel pi.rtoTimer).setInfo r { s.info r with access := some ⟨none⟩ }) :=
          SetsNoTimer.setInfo rfl fun h => h
        exact ((SetsNoTimer.cancel r s _).trans hset).propagating hs
  | _ => exact hs

/-- The propagate timers left are those of PIT entries whose effective strategy does not change. -/
theorem StrategyChoice.Chosen.propagating (h : s.Propagating) (hchosen : Chosen s s') : s'.Propagating := by
  have hinfo := fun {x e} => hchosen.info (x := x) (e := e) h.linked
  cases hchosen with
  | same heq =>
      rw [heq]
      exact h
  | changed entryPrefix entry oldStrategy newStrategy hold hnew heq =>
      have hchanged : (changeEffective s entryPrefix oldStrategy newStrategy).Propagating := by
        rw [changeEffective]
        split
        · exact h
        · exact h.clearAll _
      obtain ⟨hbase, hchoice⟩ := changeEffective_spec s entryPrefix oldStrategy newStrategy
      subst heq
      refine ⟨hchanged.linked, hchanged.stored, fun {x id} htimer => ?_⟩
      obtain ⟨e, he, heff⟩ := hchanged.chosen (show
        (changeEffective s entryPrefix oldStrategy newStrategy).PropagateTimer x id from htimer)
      have hentry : s.entry x = some e := by
        rw [StrategyState.entry, ← hbase]
        exact he
      rw [effectiveStrategy, hchoice, ← effectiveStrategy] at heff
      refine ⟨e, he, ?_⟩
      by_contra hne
      have hstored : ((setEntry (changeEffective s entryPrefix oldStrategy newStrategy) entryPrefix entry).info
          x).ncc.bind NccPitEntryInfo.propagateTimer = some id := hchanged.stored (r := x) htimer
      rw [hinfo hentry, if_pos fun heq => hne (heq.trans heff)] at hstored
      cases hstored

/-! ### Runs -/

namespace StrategyForwarder

/-- NCC treats the Interest as new on the PIT entry: it gets it, the FIB entry has next hops, and no out-record is
unexpired. -/
def TreatedAsNew (P : Platform κ) (s : StrategyState κ) (inFace : Face) (interest : Interest) (fibEntry r : Ref)
    (e : PitEntry) : Prop :=
  Receives P s inFace interest r e ∧ s.effectiveStrategy e.getName = some .ncc ∧ s.nexthopsOf fibEntry ≠ [] ∧
    e.hasUnexpiredOutRecords s.now = false

/-- NCC treats an Interest as new while a propagate timer of the PIT entry is pending. -/
def OverwritesTimer (P : Platform κ) (s : StrategyState κ) : Event → Prop
  | .incomingInterest inFace interest fibEntry _ =>
      ∃ r e, TreatedAsNew P s inFace interest fibEntry r e ∧ ∃ id, s.PropagateTimer r id
  | _ => False

/-- NCC may set a timer. -/
def AdmitsTimer (s : StrategyState κ) (r fibEntry : Ref) : Prop :=
  ∀ e, s.entry r = some e → s.effectiveStrategy e.getName = some .ncc → s.nexthopsOf fibEntry ≠ [] →
    s.hasUnexpiredOutRecords r = false → s.Unarmed r

theorem admitsTimer_of_not_overwrites {event : Event} (h : ¬ OverwritesTimer P s event) :
    Admitted P AdmitsTimer s event := by
  cases event with
  | incomingInterest inFace interest fibEntry input =>
      intro r e s' hreceives htrigger e' he' heff hnexthops hout id htimer
      obtain ⟨e₁, he₁, hint, hrecords⟩ := htrigger.entry
      rw [he₁] at he'
      cases he'
      refine h ⟨r, e, ⟨hreceives, ?_, ?_, ?_⟩, id, ?_⟩
      · rw [effectiveStrategy, htrigger.strategyChoice_eq, PitEntry.getName, hint] at heff
        exact heff
      · rw [nexthopsOf, htrigger.fib_eq] at hnexthops
        exact hnexthops
      · rw [hasUnexpiredOutRecords, he₁, Option.any_some, htrigger.now_eq, PitEntry.hasUnexpiredOutRecords,
          hrecords] at hout
        exact hout
      · rw [PropagateTimer, htrigger.timers_eq] at htimer
        exact htimer
  | _ => trivial

theorem fired_propagating (hs : s.Propagating) {event : TimerEvent StrategyCallback}
    (hdue : s.timers.dueEvent s.now id = some event) :
    Ends OtherThanPropagate Propagating (Strategy.callback P (s.cancel (some id)) input event.callback) := by
  obtain ⟨hmem, hid, -⟩ := TimerQueue.mem_of_dueEvent hdue
  have hcancel := hs.cancel (some id)
  obtain ⟨eventId, due, callback⟩ := event
  cases callback with
  | afterRtoTimeout pitWeak fibWeak inFace firstOutFace =>
      rw [Strategy.callback, AccessStrategy.afterRtoTimeout]
      split
      · exact Assertion.noConfusion
      · split
        · exact hcancel
        · exact ((SetsNoTimer.rules P pitWeak).accessMulticast trivial _ _).mono fun _ ht => ht.propagating hcancel
  | doPropagate pitWeak fibWeak =>
      have htimer : s.PropagateTimer pitWeak id := ⟨_, hmem, hid, fibWeak, rfl⟩
      obtain ⟨e, he, heff⟩ := hs.chosen htimer
      obtain ⟨pitEntryInfo, hitem, -⟩ := Option.bind_eq_some_iff.mp (hs.stored htimer)
      exact NccStrategy.doPropagate_propagating hcancel (hs.unarmed_of_cancel htimer) he heff
        (Option.isSome_iff_exists.mpr ⟨pitEntryInfo, hitem⟩) fibWeak
  | timeoutOnBestFace pitWeak => exact hcancel

theorem propagating_rules (P : Platform κ) : InvariantRules P OtherThanPropagate AdmitsTimer Propagating where
  linked hs := hs.linked
  withBase hs hl hkeep := hs.withBase hl fun x e _ he => by
    obtain ⟨e', he', hint, -⟩ := hkeep x e he
    exact ⟨e', he', hint⟩
  received {s r fibEntry e strategy} inFace input hs he _ heff hadmits :=
    strategy.afterReceiveInterest_propagating hs he heff inFace fun hncc => hadmits e he (hncc ▸ heff)
  satisfied {s r e strategy base} hs he heff hl hother hentry := by
    have hbase := strategy.beforeSatisfyInterest_base s r
    refine (strategy.beforeSatisfyInterest_propagating hs r).withBase hl fun x e₁ _ he₁ => ?_
    rw [StrategyState.entry, hbase] at he₁
    by_cases hx : x = r
    · subst hx
      rw [StrategyState.entry, he₁] at he
      cases he
      exact hentry
    · exact ⟨e₁, (hother x hx).trans he₁, rfl⟩
  finalized {s r base} hs hl hother := by
    refine (hs.clear r).withBase hl fun x e harmed he => ⟨e, ?_, rfl⟩
    have hx : x ≠ r := by
      rintro rfl
      exact harmed (hs.unarmed_of_clear x)
    exact (hother x hx).trans he
  fired input hs hdue := fired_propagating hs hdue
  chosen hs hchosen := StrategyChoice.Chosen.propagating hs hchosen
  withFib _ hs := ⟨hs.linked, hs.stored, hs.chosen⟩
  withFaceTable _ hs := ⟨hs.linked, hs.stored, hs.chosen⟩
  nameTreeEntry := Assertion.noConfusion
  erasedPrefix := Assertion.noConfusion

theorem new_propagating (nBuckets : Nat) (faceId : Face → Option Nat) (cs : κ) :
    (new nBuckets faceId cs).Propagating := by
  have hnone : ∀ r id, ¬ (new nBuckets faceId cs).PropagateTimer r id := by
    rintro r id ⟨event, hmem, -⟩
    exact absurd hmem List.not_mem_nil
  exact ⟨Pit.new_linked nBuckets, fun htimer => absurd htimer (hnone _ _), fun htimer => absurd htimer (hnone _ _)⟩

/-- In every run in which NCC treats no Interest as new on a PIT entry that has a propagate timer pending, the pending
timers are owned, and a step that is like this fails no assertion that the item is there. -/
theorem propagateTimers_owned {nBuckets : Nat} {faceId : Face → Option Nat} {cs : κ}
    (hr : Reach (next P) (fun s event => ¬ OverwritesTimer P s event) (new nBuckets faceId cs) s) :
    s.TimersOwned ∧ ∀ event, ¬ OverwritesTimer P s event → step P s event ≠ .error .propagatePitEntryInfo := by
  have hs := (propagating_rules P).reach (fun _ _ hok => admitsTimer_of_not_overwrites hok)
    (new_propagating nBuckets faceId cs) hr
  refine ⟨hs.timersOwned, fun event hok => ?_⟩
  exact ((propagating_rules P).step hs (admitsTimer_of_not_overwrites hok)).ne_error fun hne => hne rfl

/-- NCC is chosen for the root, and the only next hop is the face that an Interest for `/A` comes from: it is not
sent. -/
def untilPropagated : List Event :=
  [.setFibEntry 0 (some [0]), .insertStrategy [] .ncc, .incomingInterest 0 (plainInterest [.ofByte 65]) 0 noInput]

/-- A second Interest finds the timer pending; best route is chosen then, and the first timer is due. -/
def untilOverwritten : List Event :=
  untilPropagated ++
    [.incomingInterest 0 { plainInterest [.ofByte 65] with nonce := 2 } 0 noInput, .insertStrategy [] .bestRoute2,
      .advanceClock (milliseconds 4)]

theorem not_overwrites_of_no_timer {event : Event} (h : s.timers.pending = []) : ¬ OverwritesTimer P s event := by
  cases event with
  | incomingInterest inFace interest fibEntry input =>
      rintro ⟨r, e, -, id, timerEvent, hmem, -⟩
      rw [h] at hmem
      exact List.not_mem_nil hmem
  | _ => exact fun h => h

/-- The timer of the first Interest is due. -/
theorem propagateTimers_owned_first : ∃ s : StrategyState (Cs Unit),
    Reach (next Platform.sample) (fun s event => ¬ OverwritesTimer Platform.sample s event) (new 16 some ⟨[], ()⟩) s ∧
      (∃ event, s.timers.dueEvent s.now 0 = some event ∧ event.callback = .doPropagate 0 0) ∧ s.TimersOwned ∧
      step Platform.sample s (.strategyTimer 0 noInput) ≠ .error .propagatePitEntryInfo := by
  have hrun : ((exec (guarded (next Platform.sample) fun s _ => s.timers.pending.isEmpty) (new 16 some ⟨[], ()⟩)
      untilPropagated).any fun s => (s.timers.dueEvent (s.now + milliseconds 4) 0).any fun event =>
        decide (event.callback = .doPropagate 0 0)) = true := by
    decide +kernel
  obtain ⟨s, hs, hdue⟩ := (Option.any_eq_true _ _).mp hrun
  obtain ⟨event, hdue, hcallback⟩ := (Option.any_eq_true _ _).mp hdue
  have hfirst : Reach (next Platform.sample) (fun s event => ¬ OverwritesTimer Platform.sample s event) _ s :=
    (reach_of_exec_guarded .start hs).mono fun _ _ hempty => not_overwrites_of_no_timer (List.isEmpty_iff.mp hempty)
  have hok : ¬ OverwritesTimer Platform.sample s (.advanceClock (milliseconds 4)) := fun h => h
  have hreach := hfirst.next _ hok rfl
  obtain ⟨howned, hstep⟩ := propagateTimers_owned hreach
  exact ⟨_, hreach, ⟨event, hdue, of_decide_eq_true hcallback⟩, howned, hstep (.strategyTimer 0 noInput) fun h => h⟩

/-- The timer that is not cancelled fires and does not find the item. -/
theorem propagateTimers_not_owned : ∃ s : StrategyState (Cs Unit),
    Reach (next Platform.sample) anyStep (new 16 some ⟨[], ()⟩) s ∧ ¬ s.TimersOwned ∧
      step Platform.sample s (.strategyTimer 0 noInput) = .error .propagatePitEntryInfo := by
  have hrun : ((exec (next Platform.sample) (new 16 some ⟨[], ()⟩) untilOverwritten).any fun s =>
      (s.timers.dueEvent s.now 0).any (fun event => decide (event.callback = .doPropagate 0 0)) &&
        decide ((s.info 0).ncc = none) &&
          (match step Platform.sample s (.strategyTimer 0 noInput) with
            | .ok _ => false
            | .error a => decide (a = .propagatePitEntryInfo))) = true := by
    decide +kernel
  obtain ⟨s, hs, hfound⟩ := (Option.any_eq_true _ _).mp hrun
  obtain ⟨hboth, hfailed⟩ := Bool.and_eq_true_iff.mp hfound
  obtain ⟨hdue, hitem⟩ := Bool.and_eq_true_iff.mp hboth
  obtain ⟨event, hdue, hcallback⟩ := (Option.any_eq_true _ _).mp hdue
  obtain ⟨hmem, hid, -⟩ := TimerQueue.mem_of_dueEvent hdue
  refine ⟨s, reach_of_exec .start hs, fun howned => ?_, ?_⟩
  · obtain ⟨-, pitEntryInfo, hsome, -⟩ := howned 0 0 ⟨event, hmem, hid, 0, of_decide_eq_true hcallback⟩
    rw [of_decide_eq_true hitem] at hsome
    cases hsome
  · split at hfailed
    · cases hfailed
    · rename_i a ha
      rw [ha, of_decide_eq_true hfailed]

end StrategyForwarder
end NfdPitless
