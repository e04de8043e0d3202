import NfdPitless.InterestOutcomes
import NfdPitless.NccPredictions

/-! The intervals of NCC. The number of upstreams that are left never goes below zero, as the Interest cannot be
forwarded again to the face that it was just sent to. The interval that is stored for an Interest treated as new is not
empty; that of a pending propagate timer may be, if an Interest that is not treated as new makes the item under it. -/

namespace NfdPitless

open Forwarder LongestPrefix StrategyState
open Strategy (sendInterest)

variable {κ : Type} {P : Platform κ} {s s' s'' : StrategyState κ} {r x fibEntry : Ref} {e : PitEntry}
  {strategy : Strategy} {base : ForwarderState κ} {input : TriggerInput} {id : Nat} {face : Face}

theorem Lists.self_mem_replaceOrCons {α : Type} (p : α → Bool) (a : α) (l : List α) : a ∈ replaceOrCons p a l := by
  rw [replaceOrCons]
  split
  · rename_i hany
    induction l with
    | nil => cases hany
    | cons b l ih =>
        rw [replaceFirst]
        split
        · exact List.mem_cons_self
        · rename_i hb
          rw [List.any_cons, Bool.eq_false_iff.mpr hb, Bool.false_or] at hany
          exact List.mem_cons_of_mem b (ih hany)
  · exact List.mem_cons_self

/-- The out-record of a face that an Interest was just sent to is unexpired. -/
theorem PitEntry.canForwardTo_of_sent (isLocal : Face → Bool) (now : Nat) (e : PitEntry) (face : Face)
    (interest : Interest) : (e.insertOrUpdateOutRecord now face interest).canForwardTo isLocal now face = false := by
  have hrecord : (e.insertOrUpdateOutRecord now face interest).outRecords.any
      (fun outRecord => outRecord.face == face && decide (outRecord.expiry ≥ now)) = true := by
    refine List.any_eq_true.mpr ⟨OutRecord.update now face interest, Lists.self_mem_replaceOrCons _ _ _, ?_⟩
    rw [OutRecord.update, beq_self_eq_true, Bool.true_and, decide_eq_true_iff]
    exact Nat.le_add_right now _
  rw [canForwardTo, hrecord, Bool.not_true, Bool.false_and, Bool.false_and]

/-- The state in which an Interest has been sent for a PIT entry. -/
def StrategyState.sent (s : StrategyState κ) (r : Ref) (face : Face) (interest : Interest) : StrategyState κ :=
  let base := s.base.modifyEntry r fun e => e.insertOrUpdateOutRecord s.now face interest
  { s with base := base.logged (.outInterest r face interest) }

theorem sendInterest_base (h : sendInterest P s r face = .ok s') : s' = { s with base := s'.base } := by
  rw [sendInterest] at h
  split at h
  · cases h
  · cases h
    rfl

theorem sendIfFound_base {found : Option Face} (h : found.elim (.ok s) (sendInterest P s r) = .ok s') :
    s' = { s with base := s'.base } := by
  cases found with
  | none =>
      cases h
      rfl
  | some face => exact sendInterest_base h

/-- To a face with an id that can be forwarded to, the Interest is sent. -/
theorem sendInterest_sends (hcan : s.canForwardTo P r face = true) (hid : (s.base.faceId face).isSome) :
    ∃ interest, sendInterest P s r face = .ok (s.sent r face interest) := by
  obtain ⟨e, he, hface⟩ := (Option.any_eq_true _ _).mp hcan
  rw [PitEntry.canForwardTo, Bool.and_eq_true, Bool.and_eq_true, Bool.not_eq_true' (e.violatesScope _ _)] at hface
  have hin : e.inRecords ≠ [] := by
    intro hempty
    rw [hempty] at hface
    cases hface.1.2
  obtain ⟨record, hrecord⟩ := Lists.maxElement_isSome (comparePickInterest face) hin
  refine ⟨record.interest, ?_⟩
  rw [StrategyState.entry] at he
  obtain ⟨id, hid⟩ := Option.isSome_iff_exists.mp hid
  simp [sendInterest, onOutgoingInterest, he, hid, hface.2, pickInterest, hrecord, StrategyState.sent,
    StrategyState.now]

theorem canForwardTo_of_sendInterest (hcan : s.canForwardTo P r face = true) (hid : (s.base.faceId face).isSome)
    (h : sendInterest P s r face = .ok s') : s'.canForwardTo P r face = false := by
  obtain ⟨interest, hsend⟩ := sendInterest_sends hcan hid
  obtain ⟨e, he, -⟩ := (Option.any_eq_true _ _).mp hcan
  rw [hsend] at h
  cases h
  have hentry : (s.sent r face interest).entry r = some (e.insertOrUpdateOutRecord s.now face interest) := by
    rw [StrategyState.entry] at he
    rw [StrategyState.sent, StrategyState.entry]
    dsimp only [ForwarderState.logged]
    rw [entries_modify, if_pos rfl, he, Option.map_some]
  rw [StrategyState.canForwardTo, hentry]
  exact e.canForwardTo_of_sent P.isLocal s.now face interest

namespace NccStrategy

theorem isUsable_iff : isUsable P s fibEntry r face = true ↔
    face ∈ s.nexthopsOf fibEntry ∧ s.canForwardTo P r face = true := by
  rw [isUsable, Bool.and_eq_true, List.contains_iff_mem]

/-- The number of next hops is decremented where there is one: for the best face that the Interest is sent to, and then
for the previous face. -/
structure NeverUnderflows (P : Platform κ) (s : StrategyState κ) (fibEntry r : Ref) (info : NccMeasurementsInfo) :
    Prop where
  bestFace : ∀ face, (getBestFace info).filter (isUsable P s fibEntry r) = some face →
    1 ≤ (s.nexthopsOf fibEntry).length
  previousFace : ∀ s' deferral, sendFirst P s fibEntry r info = .ok (s', deferral) →
    info.previousFace.any (isUsable P s' fibEntry r) = true → 1 ≤ deferral.nUpstreams

theorem sendFirst_neverUnderflows (info : NccMeasurementsInfo)
    (hid : ∀ face ∈ s.nexthopsOf fibEntry, (s.base.faceId face).isSome) : NeverUnderflows P s fibEntry r info := by
  refine ⟨fun bestFace hbest => ?_, fun s' deferral hsend hprevious => ?_⟩
  · obtain ⟨hmem, -⟩ := isUsable_iff.mp (Option.filter_eq_some_iff.mp hbest).2
    exact List.length_pos_of_mem hmem
  · obtain ⟨previousFace, -, hprevious⟩ := (Option.any_eq_true _ _).mp hprevious
    obtain ⟨hmem, hcan⟩ := isUsable_iff.mp hprevious
    rw [sendFirst] at hsend
    split at hsend
    · rename_i bestFace hbest
      obtain ⟨hbestMem, hbestCan⟩ := isUsable_iff.mp (Option.filter_eq_some_iff.mp hbest).2
      obtain ⟨interest, hsent⟩ := sendInterest_sends hbestCan (hid bestFace hbestMem)
      have hblocked := canForwardTo_of_sendInterest hbestCan (hid bestFace hbestMem) hsent
      rw [hsent] at hsend
      cases hsend
      have hne : previousFace ≠ bestFace := by
        rintro rfl
        exact Bool.false_ne_true (hblocked.symm.trans hcan)
      have hothers : previousFace ∈ (s.nexthopsOf fibEntry).erase bestFace := (List.mem_erase_of_ne hne).mpr hmem
      rw [← List.length_erase_of_mem hbestMem]
      exact List.length_pos_of_mem hothers
    · cases hsent : ((s.nexthopsOf fibEntry).find? (s.canForwardTo P r)).elim (.ok s) (sendInterest P s r) with
      | error a =>
          rw [hsent] at hsend
          cases hsend
      | ok s₁ =>
          rw [hsent] at hsend
          cases hsend
          rw [sendIfFound_base hsent] at hmem
          exact List.length_pos_of_mem hmem

end NccStrategy

/-! ### Intervals -/

namespace StrategyState

def maxInterval (s : StrategyState κ) (r : Ref) : Option Nat := (s.info r).ncc.map NccPitEntryInfo.maxInterval

/-- The range of numbers below the interval of the item, if there is one, is not empty. -/
def HasInterval (s : StrategyState κ) (r : Ref) : Prop := ∀ interval, s.maxInterval r = some interval → 1 ≤ interval

/-- A propagate timer that is pending finds an interval. -/
def IntervalsNonEmpty (s : StrategyState κ) : Prop := ∀ r id, s.PropagateTimer r id → s.HasInterval r

/-- The same for the PIT entries other than `r`. -/
def IntervalsOutside (s : StrategyState κ) (r : Ref) : Prop := ∀ x id, x ≠ r → s.PropagateTimer x id → s.HasInterval x

theorem IntervalsNonEmpty.outside (h : s.IntervalsNonEmpty) (r : Ref) : s.IntervalsOutside r := fun x id _ => h x id

theorem IntervalsOutside.nonEmpty (h : s.IntervalsOutside r) (hr : ∀ id, s.PropagateTimer r id → s.HasInterval r) :
    s.IntervalsNonEmpty := by
  intro x id htimer
  by_cases hx : x = r
  · subst hx
    exact hr id htimer
  · exact h x id hx htimer

/-- No timer is set, and no interval changes. -/
theorem IntervalsNonEmpty.of_fewer (h : s.IntervalsNonEmpty)
    (htimers : ∀ x id, s'.PropagateTimer x id → s.PropagateTimer x id)
    (hintervals : ∀ x interval, s'.maxInterval x = some interval → s.maxInterval x = some interval) :
    s'.IntervalsNonEmpty :=
  fun x id htimer interval hinterval => h x id (htimers x id htimer) interval (hintervals x interval hinterval)

theorem IntervalsNonEmpty.clear (h : s.IntervalsNonEmpty) (r : Ref) : (s.clearStrategyInfo r).IntervalsNonEmpty := by
  refine h.of_fewer (fun x id htimer => (propagateTimer_of_clear htimer).1) fun x interval hinterval => ?_
  rw [maxInterval, info_clearStrategyInfo] at hinterval
  split at hinterval
  · cases hinterval
  · exact hinterval

theorem IntervalsNonEmpty.clearAll (h : s.IntervalsNonEmpty) (rs : List Ref) :
    (rs.foldl clearStrategyInfo s).IntervalsNonEmpty := by
  induction rs generalizing s with
  | nil => exact h
  | cons r rs ih => exact ih (h.clear r)

/-- Storing an item of `r` does nothing to the others. -/
theorem IntervalsOutside.setInfo (h : s.IntervalsOutside r) (info : PitStrategyInfo) :
    (s.setInfo r info).IntervalsOutside r := by
  intro x id hx htimer
  rw [HasInterval, maxInterval, info_setInfo, if_neg hx]
  exact h x id hx htimer

theorem IntervalsOutside.schedule (h : s.IntervalsOutside r) (delay : Nat) (fibWeak : Ref) :
    (s.schedule delay (.doPropagate r fibWeak)).IntervalsOutside r := by
  intro x id hx htimer
  rcases propagateTimer_of_schedule htimer with hold | ⟨-, fibWeak', hcall⟩
  · exact h x id hx hold
  · cases hcall
    exact absurd rfl hx

end StrategyState

/-- From `s` to `s'` a strategy acted on the PIT entry `r`, set no propagate timer and left the intervals alone. -/
structure KeepsIntervals (r : Ref) (s s' : StrategyState κ) : Prop extends SetsNoTimer r s s' where
  interval_eq : ∀ x, s'.maxInterval x = s.maxInterval x

namespace KeepsIntervals

theorem refl (r : Ref) (s : StrategyState κ) : KeepsIntervals r s s := ⟨SetsNoTimer.refl r s, fun _ => rfl⟩

theorem trans (h : KeepsIntervals r s s') (h' : KeepsIntervals r s' s'') : KeepsIntervals r s s'' :=
  ⟨h.toSetsNoTimer.trans h'.toSetsNoTimer, fun x => (h'.interval_eq x).trans (h.interval_eq x)⟩

/-- The items are those before. -/
theorem of_info (h : SetsNoTimer r s s') (hinfo : s'.info = s.info) : KeepsIntervals r s s' :=
  ⟨h, fun x => by rw [maxInterval, hinfo, maxInterval]⟩

theorem setInfo {info : PitStrategyInfo} (h : SetsNoTimer r s (s.setInfo r info))
    (hinterval : info.ncc.map NccPitEntryInfo.maxInterval = s.maxInterval r) :
    KeepsIntervals r s (s.setInfo r info) := by
  refine ⟨h, fun x => ?_⟩
  rw [maxInterval, info_setInfo]
  split
  · rename_i hx
    rw [hx, hinterval]
  · rfl

theorem hasInterval (h : KeepsIntervals r s s') (hx : s.HasInterval x) : s'.HasInterval x := by
  rw [HasInterval, h.interval_eq]
  exact hx

theorem nonEmpty (h : KeepsIntervals r s s') (hs : s.IntervalsNonEmpty) : s'.IntervalsNonEmpty :=
  hs.of_fewer h.timers fun x _ hinterval => (h.interval_eq x).symm.trans hinterval

theorem outside (h : KeepsIntervals r s s') (hs : s.IntervalsOutside x) : s'.IntervalsOutside x :=
  fun y id hy htimer => h.hasInterval (hs y id hy (h.timers y id htimer))

theorem sendInterest (s : StrategyState κ) (outFace : Face) :
    Ends (fun _ => True) (KeepsIntervals r s) (Strategy.sendInterest P s r outFace) := by
  cases hsend : Strategy.sendInterest P s r outFace with
  | error a => trivial
  | ok s' =>
      refine of_info ((sendInterest_setsNoTimer s outFace).of_ok hsend) ?_
      rw [sendInterest_base hsend]

/-- The rules for `KeepsIntervals`. -/
theorem rules (P : Platform κ) (r : Ref) : TriggerRules P (fun _ => True) r (fun _ => True) (KeepsIntervals r) where
  refl := refl r
  trans := trans
  keeps _ _ := trivial
  send {s} outFace _ := sendInterest s outFace
  reject s := by
    obtain ⟨base, hacted, hreject⟩ := rejectPendingInterest_acted P s r
    rw [hreject]
    exact of_info (SetsNoTimer.of_base hacted) rfl
  setRetx s retx := setInfo ((SetsNoTimer.rules P r).setRetx s retx) rfl
  lastOutgoing := trivial
  earliestOutRecord := trivial

end KeepsIntervals

namespace NccStrategy

theorem modifyPitEntryInfo_maxInterval (s : StrategyState κ) (r : Ref) {f : NccPitEntryInfo → NccPitEntryInfo}
    (hf : ∀ info, (f info).maxInterval = info.maxInterval) (x : Ref) :
    (modifyPitEntryInfo s r f).maxInterval x = s.maxInterval x := by
  rw [maxInterval, modifyPitEntryInfo, info_setInfo]
  split
  · rename_i hx
    rw [hx, maxInterval, Option.map_map]
    exact congrArg (fun g => (s.info r).ncc.map g) (funext hf)
  · rfl

theorem setBestFaceTimeout_keepsIntervals (s : StrategyState κ) (delay : Nat) (r : Ref) :
    KeepsIntervals r s (setBestFaceTimeout s delay r) :=
  ⟨setBestFaceTimeout_setsNoTimer s delay r, modifyPitEntryInfo_maxInterval _ r fun _ => rfl⟩

theorem sendFirst_keepsIntervals (s : StrategyState κ) (fibEntry r : Ref) (info : NccMeasurementsInfo) :
    Ends (fun _ => True) (fun result => KeepsIntervals r s result.1) (sendFirst P s fibEntry r info) := by
  rw [sendFirst]
  split
  · exact (KeepsIntervals.sendInterest s _).map fun s' hs => hs.trans (setBestFaceTimeout_keepsIntervals s' _ r)
  · exact ((KeepsIntervals.rules P r).sendIfFound trivial _).map fun s' hs => hs

/-- The timer that is set finds the interval. -/
theorem setPropagateTimer_nonEmpty (hs : s.IntervalsOutside r) (hr : s.HasInterval r) (delay : Nat) (fibWeak : Ref) :
    (setPropagateTimer s delay r fibWeak).IntervalsNonEmpty := by
  refine IntervalsOutside.nonEmpty (r := r) ((hs.schedule delay fibWeak).setInfo _) fun _ _ => ?_
  rw [HasInterval, setPropagateTimer, modifyPitEntryInfo_maxInterval]
  · exact hr
  · exact fun _ => rfl

theorem maxIntervalOf_pos {d : Deferral} (h : 1 ≤ d.deferFirst) (isPreviousUsable : Bool) :
    1 ≤ maxIntervalOf d isPreviousUsable := by
  rw [maxIntervalOf]
  generalize (if isPreviousUsable = true then d.nUpstreams - 1 else d.nUpstreams) = nUpstreams
  split
  · exact le_max_left _ _
  · exact h

/-- The first delay is that of the prediction, or the default. -/
theorem sendFirst_deferFirst {info : NccMeasurementsInfo} (hpredicted : Predicted info) (s : StrategyState κ)
    (fibEntry r : Ref) : Ends (fun _ => True) (fun result => 1 ≤ result.2.deferFirst)
      (sendFirst P s fibEntry r info) := by
  have hsend : ∀ {outcome : StrategyOutcome κ}, Ends (fun _ => True) (fun _ => True) outcome := fun {outcome} => by
    cases outcome <;> trivial
  rw [sendFirst]
  split
  · exact hsend.map fun _ _ => le_trans (by decide) hpredicted.bounded.1
  · exact hsend.map fun _ _ => (by decide : 1 ≤ deferFirstWithoutBestFace)

/-- The Interest is sent where it can be forwarded to, and then it has a downstream. -/
theorem sendFirst_ok (s : StrategyState κ) (fibEntry r : Ref) (info : NccMeasurementsInfo) :
    ∃ s' deferral, sendFirst P s fibEntry r info = .ok (s', deferral) := by
  have hsend : ∀ face, s.canForwardTo P r face = true → ∃ s', sendInterest P s r face = .ok s' := by
    intro face hcan
    obtain ⟨e, he, hin⟩ := TriggerRules.hasDownstream_of_canForwardTo hcan
    obtain ⟨base, hbase⟩ := onOutgoingInterest_isSome (P := P) he hin face none
    exact ⟨{ s with base }, by rw [sendInterest, hbase]⟩
  rw [sendFirst]
  split
  · rename_i bestFace hbest
    obtain ⟨s', hs'⟩ := hsend bestFace (isUsable_iff.mp (Option.filter_eq_some_iff.mp hbest).2).2
    rw [hs']
    exact ⟨_, _, rfl⟩
  · cases hfound : (s.nexthopsOf fibEntry).find? (s.canForwardTo P r) with
    | none => exact ⟨_, _, rfl⟩
    | some face =>
        obtain ⟨s', hs'⟩ := hsend face (List.find?_some hfound)
        rw [Option.elim_some, hs']
        exact ⟨_, _, rfl⟩

/-- The item that NCC finds or makes for an Interest. -/
def withItem (s : StrategyState κ) (r : Ref) : StrategyState κ :=
  s.setInfo r { s.info r with ncc := some (getOrCreatePitEntryInfo s r) }

def setMaxInterval (s : StrategyState κ) (r : Ref) (maxInterval : Nat) : StrategyState κ :=
  modifyPitEntryInfo s r fun info => { info with maxInterval }

theorem setMaxInterval_maxInterval (hitem : (s.info r).ncc.isSome) (interval : Nat) :
    (setMaxInterval s r interval).maxInterval r = some interval := by
  obtain ⟨pitEntryInfo, hinfo⟩ := Option.isSome_iff_exists.mp hitem
  rw [StrategyState.maxInterval, setMaxInterval, modifyPitEntryInfo, info_setInfo, if_pos rfl, hinfo]
  rfl

/-- An Interest that is treated as new is sent, and a timer set. -/
theorem afterReceiveInterest_new (input : TriggerInput) (hnexthops : s.nexthopsOf fibEntry ≠ [])
    (hnew : s.hasUnexpiredOutRecords r = false) : ∃ s₁ deferral isPreviousUsable,
      sendFirst P (withItem s r) fibEntry r input.measurementsInfo = .ok (s₁, deferral) ∧
        afterReceiveInterest P s fibEntry r input = .ok (setPropagateTimer
          (setMaxInterval s₁ r (maxIntervalOf deferral isPreviousUsable))
          (microseconds deferral.deferFirst) r fibEntry) := by
  obtain ⟨s₁, deferral, hsent⟩ := sendFirst_ok (P := P) (withItem s r) fibEntry r input.measurementsInfo
  refine ⟨s₁, deferral, input.measurementsInfo.previousFace.any (isUsable P s₁ fibEntry r), hsent, ?_⟩
  have hout : ¬ (withItem s r).hasUnexpiredOutRecords r = true := by
    rw [Bool.not_eq_true]
    exact hnew
  rw [afterReceiveInterest, if_neg hnexthops]
  dsimp only
  rw [← withItem, if_neg hout, hsent]
  rfl

/-- The interval that is stored is not empty, and no other becomes so. -/
theorem afterReceiveInterest_interval (P : Platform κ) (hpredicted : Predicted input.measurementsInfo)
    (hnexthops : s.nexthopsOf fibEntry ≠ []) (hnew : s.hasUnexpiredOutRecords r = false) : ∃ s' interval,
      afterReceiveInterest P s fibEntry r input = .ok s' ∧ s'.maxInterval r = some interval ∧ 1 ≤ interval ∧
        (s.IntervalsOutside r → s'.IntervalsNonEmpty) ∧ Acted r s.base s'.base := by
  obtain ⟨s₁, deferral, isPreviousUsable, hsent, hok⟩ := afterReceiveInterest_new (P := P) input hnexthops hnew
  have hkept := (sendFirst_keepsIntervals _ fibEntry r _).of_ok hsent
  have hpos := maxIntervalOf_pos ((sendFirst_deferFirst hpredicted _ fibEntry r).of_ok hsent) isPreviousUsable
  have hitem : ((withItem s r).info r).ncc.isSome := by
    rw [withItem, info_setInfo, if_pos rfl]
    rfl
  have hstored := setMaxInterval_maxInterval (hkept.item_kept r hitem) (maxIntervalOf deferral isPreviousUsable)
  refine ⟨_, _, hok, ?_, hpos, fun hs => setPropagateTimer_nonEmpty ?_ ?_ _ _, ?_⟩
  · rw [setPropagateTimer, modifyPitEntryInfo_maxInterval]
    · exact hstored
    · exact fun _ => rfl
  · exact (hkept.outside (hs.setInfo _)).setInfo _
  · intro interval hinterval
    rw [hstored] at hinterval
    cases hinterval
    exact hpos
  · exact hkept.acted

/-- Where no timer is pending, an item without an interval may be made. -/
theorem withItem_nonEmpty (hs : s.IntervalsNonEmpty) (hmade : (s.info r).ncc = none → s.Unarmed r) :
    (withItem s r).IntervalsNonEmpty := by
  cases hitem : (s.info r).ncc with
  | none => exact (((hs.outside r).setInfo _).nonEmpty fun id htimer => absurd htimer (hmade hitem id))
  | some pitEntryInfo =>
      have hkept : KeepsIntervals r s (withItem s r) := by
        refine KeepsIntervals.setInfo (getOrCreatePitEntryInfo_setsNoTimer s r) ?_
        rw [StrategyState.maxInterval, getOrCreatePitEntryInfo, hitem]
        rfl
      exact hkept.nonEmpty hs

theorem afterReceiveInterest_nonEmpty (hs : s.IntervalsNonEmpty)
    (hpredicted : s.nexthopsOf fibEntry ≠ [] → s.hasUnexpiredOutRecords r = false → Predicted input.measurementsInfo)
    (hmade : s.nexthopsOf fibEntry ≠ [] → s.hasUnexpiredOutRecords r = true → (s.info r).ncc = none → s.Unarmed r) :
    Ends (fun _ => True) (fun s' => s'.IntervalsNonEmpty ∧ Acted r s.base s'.base)
      (afterReceiveInterest P s fibEntry r input) := by
  by_cases hnexthops : s.nexthopsOf fibEntry = []
  · have hreject := (KeepsIntervals.rules P r).reject s
    rw [afterReceiveInterest, if_pos hnexthops]
    exact ⟨hreject.nonEmpty hs, hreject.acted⟩
  · cases hout : s.hasUnexpiredOutRecords r with
    | true =>
        have hout' : (withItem s r).hasUnexpiredOutRecords r = true := hout
        rw [afterReceiveInterest, if_neg hnexthops]
        dsimp only
        rw [← withItem, if_pos hout']
        exact ⟨withItem_nonEmpty hs (hmade hnexthops hout), Acted.refl r s.base⟩
    | false =>
        obtain ⟨s', interval, hok, -, -, hs', hacted⟩ :=
          afterReceiveInterest_interval P (hpredicted hnexthops hout) hnexthops hout
        rw [hok]
        exact ⟨hs' (hs.outside r), hacted⟩

/-- The next timer finds the interval that this one has found. -/
theorem doPropagate_nonEmpty (hs : s.IntervalsNonEmpty) (hr : s.HasInterval r) (fibWeak : Ref) :
    Ends (fun _ => True) (fun s' => s'.IntervalsNonEmpty ∧ Acted r s.base s'.base)
      (doPropagate P s r fibWeak input) := by
  rw [doPropagate]
  split
  · split
    · trivial
    · refine ((KeepsIntervals.rules P r).sendIfFound trivial _).bind fun s' hprevious => ?_
      split
      · exact ⟨hprevious.nonEmpty hs, hprevious.acted⟩
      · refine (KeepsIntervals.sendInterest s' _).map fun s'' hsent => ?_
        have ht := hprevious.trans hsent
        exact ⟨setPropagateTimer_nonEmpty ((ht.nonEmpty hs).outside r) (ht.hasInterval hr) _ _, ht.acted⟩
  · exact ⟨hs, Acted.refl r s.base⟩

theorem beforeSatisfyInterest_nonEmpty (hs : s.IntervalsNonEmpty) (r : Ref) :
    (beforeSatisfyInterest s r).IntervalsNonEmpty := by
  rw [beforeSatisfyInterest]
  split
  · exact hs
  · split
    · exact hs
    · refine hs.of_fewer (fun x id htimer => (propagateTimer_of_cancel htimer).1) fun x interval hinterval => ?_
      rw [modifyPitEntryInfo_maxInterval] at hinterval
      · exact hinterval
      · exact fun _ => rfl

end NccStrategy

/-- The tables are connected, and a propagate timer that is pending finds an interval. -/
structure Intervals (s : StrategyState κ) : Prop where
  linked : s.base.pit.Linked
  nonEmpty : s.IntervalsNonEmpty

theorem KeepsIntervals.intervals (h : KeepsIntervals r s s') (hs : Intervals s) : Intervals s' :=
  ⟨h.acted.linked hs.linked, h.nonEmpty hs.nonEmpty⟩

theorem AccessStrategy.setRtoTimer_keepsIntervals (s : StrategyState κ) (rto : Nat) (fibWeak : Ref)
    (inFace firstOutFace : Option Nat) :
    KeepsIntervals r s (setRtoTimer s r rto (.afterRtoTimeout r fibWeak inFace firstOutFace)) := by
  refine ⟨setRtoTimer_setsNoTimer s rto fibWeak inFace firstOutFace, fun x => ?_⟩
  rw [maxInterval, setRtoTimer, info_setInfo]
  split
  · rename_i hx
    rw [hx, maxInterval]
  · rfl

theorem Strategy.afterReceiveInterest_intervals (hs : Intervals s) (inFace : Face)
    (hpredicted : strategy = .ncc → s.nexthopsOf fibEntry ≠ [] → s.hasUnexpiredOutRecords r = false →
      NccStrategy.Predicted input.measurementsInfo)
    (hmade : strategy = .ncc → s.nexthopsOf fibEntry ≠ [] → s.hasUnexpiredOutRecords r = true →
      (s.info r).ncc = none → s.Unarmed r) :
    Ends (fun _ => True) Intervals (strategy.afterReceiveInterest P s inFace fibEntry r input) := by
  have hrules := KeepsIntervals.rules P r
  have hkept : ∀ s', KeepsIntervals r s s' → Intervals s' := fun s' ht => ht.intervals hs
  cases strategy with
  | bestRoute2 => exact (hrules.bestRoute2 trivial inFace fibEntry).mono hkept
  | multicast => exact (hrules.multicast trivial fibEntry).mono hkept
  | clientControl => exact (hrules.clientControl trivial fibEntry input).mono hkept
  | ncc =>
      exact (NccStrategy.afterReceiveInterest_nonEmpty hs.nonEmpty (hpredicted rfl) (hmade rfl)).mono
        fun s' hs' => ⟨hs'.2.linked hs.linked, hs'.1⟩
  | access =>
      exact (hrules.access (fun s rto fibWeak _ _ _ => AccessStrategy.setRtoTimer_keepsIntervals s rto fibWeak _ _)
        trivial inFace fibEntry input).mono hkept

theorem Strategy.beforeSatisfyInterest_nonEmpty (hs : s.IntervalsNonEmpty) (strategy : Strategy) (r : Ref) :
    (strategy.beforeSatisfyInterest s r).IntervalsNonEmpty := by
  cases strategy with
  | ncc => exact NccStrategy.beforeSatisfyInterest_nonEmpty hs r
  | access =>
      rw [Strategy.beforeSatisfyInterest, AccessStrategy.beforeSatisfyInterest]
      split
      · exact hs
      · refine hs.of_fewer (fun x id htimer => (propagateTimer_of_cancel htimer).1) fun x interval hinterval => ?_
        rw [maxInterval, info_setInfo] at hinterval
        split at hinterval
        · rename_i hx
          rw [maxInterval, hx]
          exact hinterval
        · exact hinterval
  | _ => exact hs

theorem StrategyChoice.Chosen.intervals (hs : Intervals s) (hchosen : Chosen s s') : Intervals s' := by
  cases hchosen with
  | same heq =>
      rw [heq]
      exact hs
  | changed entryPrefix entry oldStrategy newStrategy hold hnew heq =>
      have hchanged : (changeEffective s entryPrefix oldStrategy newStrategy).IntervalsNonEmpty := by
        rw [changeEffective]
        split
        · exact hs.nonEmpty
        · exact hs.nonEmpty.clearAll _
      obtain ⟨hbase, -⟩ := changeEffective_spec s entryPrefix oldStrategy newStrategy
      subst heq
      refine ⟨?_, hchanged⟩
      rw [setEntry, hbase]
      exact hs.linked

/-! ### Runs -/

namespace StrategyForwarder

/-- NCC makes the item of a PIT entry for an Interest that it does not treat as new, while a propagate timer is
pending. -/
def MakesItemUnderTimer (P : Platform κ) (s : StrategyState κ) : Event → Prop
  | .incomingInterest inFace interest fibEntry _ =>
      ∃ r e, Receives P s inFace interest r e ∧ s.effectiveStrategy e.getName = some .ncc ∧
        s.nexthopsOf fibEntry ≠ [] ∧ e.hasUnexpiredOutRecords s.now = true ∧ (s.info r).ncc = none ∧
          ∃ id, s.PropagateTimer r id
  | _ => False

theorem makesItemUnderTimer_setInput (event : Event) (input : TriggerInput) :
    MakesItemUnderTimer P s (event.setInput input) ↔ MakesItemUnderTimer P s event := by
  cases event <;> rfl

theorem fired_intervals (hs : Intervals s) {event : TimerEvent StrategyCallback}
    (hdue : s.timers.dueEvent s.now id = some event) :
    Ends (fun _ => True) Intervals (Strategy.callback P (s.cancel (some id)) input event.callback) := by
  obtain ⟨hmem, hid, -⟩ := TimerQueue.mem_of_dueEvent hdue
  have hcancel : Intervals (s.cancel (some id)) :=
    ⟨hs.linked, hs.nonEmpty.of_fewer (fun _ _ htimer => (propagateTimer_of_cancel htimer).1) fun _ _ h => h⟩
  obtain ⟨eventId, due, callback⟩ := event
  cases callback with
  | afterRtoTimeout pitWeak fibWeak inFace firstOutFace =>
      rw [Strategy.callback, AccessStrategy.afterRtoTimeout]
      split
      · trivial
      · split
        · exact hcancel
        · exact ((KeepsIntervals.rules P pitWeak).accessMulticast trivial _ _).mono fun _ ht => ht.intervals hcancel
  | doPropagate pitWeak fibWeak =>
      have hfound : s.HasInterval pitWeak := hs.nonEmpty pitWeak id ⟨_, hmem, hid, fibWeak, rfl⟩
      exact (NccStrategy.doPropagate_nonEmpty hcancel.nonEmpty hfound fibWeak).mono fun s' hs' =>
        ⟨hs'.2.linked hcancel.linked, hs'.1⟩
  | timeoutOnBestFace pitWeak => exact hcancel

/-- No Interest is let in here; what becomes of one depends on what NCC reads. -/
theorem intervals_rules (P : Platform κ) : InvariantRules P (fun _ => True) (fun _ _ _ => False) Intervals where
  linked hs := hs.linked
  withBase hs hl _ := ⟨hl, hs.nonEmpty⟩
  received _ _ _ _ _ _ hadmits := hadmits.elim
  satisfied {_ r _ strategy _} hs _ _ hl _ _ := ⟨hl, strategy.beforeSatisfyInterest_nonEmpty hs.nonEmpty r⟩
  finalized {_ r _} hs hl _ := ⟨hl, hs.nonEmpty.clear r⟩
  fired _ hs hdue := fired_intervals hs hdue
  chosen hs hchosen := StrategyChoice.Chosen.intervals hs hchosen
  withFib _ hs := ⟨hs.linked, hs.nonEmpty⟩
  withFaceTable _ hs := ⟨hs.linked, hs.nonEmpty⟩
  nameTreeEntry := trivial
  erasedPrefix := trivial

theorem Intervals.incomingInterest (hs : Intervals s) {inFace : Face} {interest : Interest}
    (hok : ¬ MakesItemUnderTimer P s (.incomingInterest inFace interest fibEntry input))
    (hreads : ReadsPredicted P s (.incomingInterest inFace interest fibEntry input))
    (h : onIncomingInterest P s inFace interest fibEntry input = .ok s') : Intervals s' := by
  cases onIncomingInterest_outcome h with
  | violating hs' =>
      rw [hs']
      exact ⟨hs.linked, hs.nonEmpty⟩
  | looping r pit isNew e hins he hs' =>
      rw [hs']
      exact ⟨(hs.linked.insert_spec hins he).1, hs.nonEmpty⟩
  | answered r pit isNew e cs data strategy hins he haccepts hs' =>
      rw [hs']
      have hadmitted : (admitted s inFace interest pit cs r).IntervalsNonEmpty := hs.nonEmpty
      refine ⟨?_, strategy.beforeSatisfyInterest_nonEmpty hadmitted r⟩
      rw [onOutgoingData_pit]
      exact linked_setStragglerTimer (admitted_linked cs hs.linked hins he) r _ _
  | received r pit isNew e cs strategy hins he hreceives heff hstrategy =>
      have hout : (atTrigger s inFace interest pit cs r).hasUnexpiredOutRecords r = e.hasUnexpiredOutRecords s.now :=
        atTrigger_hasUnexpiredOutRecords cs he
      have htriggered : Intervals (atTrigger s inFace interest pit cs r) :=
        ⟨atTrigger_linked cs hs.linked hins he, hs.nonEmpty⟩
      refine (Strategy.afterReceiveInterest_intervals htriggered inFace ?_ ?_).of_ok hstrategy
      · rintro rfl hnexthops hnew
        exact hreads r e ⟨hreceives, heff, hnexthops, hout ▸ hnew⟩
      · rintro rfl hnexthops hold hnone id htimer
        exact hok ⟨r, e, hreceives, heff, hnexthops, hout ▸ hold, hnone, id, htimer⟩

theorem Intervals.step (hs : Intervals s) {event : Event} (hok : ¬ MakesItemUnderTimer P s event)
    (hreads : ReadsPredicted P s event) (hstep : step P s event = .ok s') : Intervals s' := by
  cases event with
  | incomingInterest inFace interest fibEntry input => exact Intervals.incomingInterest hs hok hreads hstep
  | _ =>
      refine ((intervals_rules P).step hs ?_).of_ok hstep
      trivial

theorem new_intervals (nBuckets : Nat) (faceId : Face → Option Nat) (cs : κ) :
    Intervals (new nBuckets faceId cs) := by
  refine ⟨Pit.new_linked nBuckets, ?_⟩
  rintro r id ⟨event, hmem, -⟩
  exact absurd hmem List.not_mem_nil

end StrategyForwarder

namespace MeasuredForwarder

/-- In every forwarder, the number of upstreams never underflows and the interval that is stored is not empty; and in
every run in which NCC makes no item for an Interest that is not new under a propagate timer, a propagate timer that is
pending finds an interval that is not empty. The predictions are always within their bounds. -/
theorem intervals_nonEmpty (P : Platform κ) :
    (∀ info, NccStrategy.Predicted info →
      NccStrategy.minPrediction ≤ info.prediction ∧ info.prediction ≤ NccStrategy.maxPrediction) ∧
    (∀ (s : StrategyState κ) fibEntry r info, (∀ face ∈ s.nexthopsOf fibEntry, (s.base.faceId face).isSome) →
      NccStrategy.NeverUnderflows P s fibEntry r info) ∧
    (∀ (s : StrategyState κ) fibEntry r input, NccStrategy.Predicted input.measurementsInfo →
      s.nexthopsOf fibEntry ≠ [] → s.hasUnexpiredOutRecords r = false → ∃ s' interval,
        NccStrategy.afterReceiveInterest P s fibEntry r input = .ok s' ∧ s'.maxInterval r = some interval ∧
          1 ≤ interval) ∧
    ∀ nBuckets faceId cs s,
      Reach (next P) (OnForwarder fun s event => ¬ StrategyForwarder.MakesItemUnderTimer P s event)
        (new nBuckets faceId cs) s →
      s.measurements.AllPredicted ∧ s.forwarder.IntervalsNonEmpty := by
  refine ⟨fun info h => h.bounded, fun s fibEntry r info hid => NccStrategy.sendFirst_neverUnderflows info hid,
    fun s fibEntry r input hpredicted hnexthops hnew => ?_, fun nBuckets faceId cs s hr => ?_⟩
  · obtain ⟨s', interval, hok, hstored, hpos, -⟩ :=
      NccStrategy.afterReceiveInterest_interval P hpredicted hnexthops hnew
    exact ⟨s', interval, hok, hstored, hpos⟩
  · obtain ⟨hpredicted, hreach⟩ := predicted_reach
      (fun s event input hok => fun hmakes => hok ((StrategyForwarder.makesItemUnderTimer_setInput event input).mp
        hmakes)) hr
    refine ⟨hpredicted, (hreach.invariant (StrategyForwarder.new_intervals nBuckets faceId cs) ?_).nonEmpty⟩
    rintro s event s' hs ⟨hok, hreads⟩ hnext
    exact StrategyForwarder.Intervals.step hs hok hreads (StrategyForwarder.step_of_next hnext)

/-- An Interest for `/A` from face 0. -/
def interestWithNonce (nonce : UInt32) : StrategyForwarder.Event :=
  .incomingInterest 0 { plainInterest [.ofByte 65] with nonce } 0 StrategyForwarder.noInput

/-- NCC is chosen for the root, and an Interest is treated as new that is not sent. -/
def untilArmed : List StrategyForwarder.Event :=
  [.setFibEntry 0 (some [0]), .setFibEntry 1 (some [1, 2]), .insertStrategy [] .ncc, interestWithNonce 1]

/-- Both next hops of the other FIB entry are remembered. -/
def bothRemembered : TriggerInput :=
  { StrategyForwarder.noInput with measurementsInfo := ⟨some 1, some 2, NccStrategy.initialPrediction⟩ }

theorem onForwarder_of_no_timer {s : MeasuredState κ} (h : s.forwarder.timers.pending = []) (event : Event) :
    OnForwarder (fun s event => ¬ StrategyForwarder.MakesItemUnderTimer P s event) s event := by
  cases event with
  | forwarder event rto =>
      cases event with
      | incomingInterest inFace interest fibEntry input =>
          rintro ⟨r, e, -, -, -, -, -, id, timerEvent, hmem, -⟩
          rw [h] at hmem
          exact List.not_mem_nil hmem
      | _ => exact fun h => h
  | _ => trivial

/-- The timer is pending, and an Interest could be treated as new. -/
theorem intervals_nonEmpty_armed : ∃ s : MeasuredState (Cs Unit),
    Reach (next Platform.sample) (OnForwarder fun s event =>
      ¬ StrategyForwarder.MakesItemUnderTimer Platform.sample s event)
      (new 16 some ⟨[], ()⟩) s ∧ s.forwarder.PropagateTimer 0 0 ∧ s.forwarder.IntervalsNonEmpty ∧
      NccStrategy.NeverUnderflows Platform.sample s.forwarder 1 0 bothRemembered.measurementsInfo ∧
      ∃ s' interval, NccStrategy.afterReceiveInterest Platform.sample s.forwarder 1 0 bothRemembered = .ok s' ∧
        s'.maxInterval 0 = some interval ∧ 1 ≤ interval := by
  have hrun : ((exec (guarded (next Platform.sample) fun s _ => s.forwarder.timers.pending.isEmpty)
      (new 16 some ⟨[], ()⟩) (untilArmed.map fun event => .forwarder event fun _ => 0)).any fun s =>
        (s.forwarder.timers.pending.any fun event => decide (event.id = 0 ∧ event.callback = .doPropagate 0 0)) &&
          (decide (s.forwarder.nexthopsOf 1 = [1, 2]) && ([1, 2].all fun face =>
            (s.forwarder.base.faceId face).isSome) && !s.forwarder.hasUnexpiredOutRecords 0)) = true := by
    decide +kernel
  obtain ⟨s, hs, hfound⟩ := (Option.any_eq_true _ _).mp hrun
  simp only [Bool.and_eq_true, decide_eq_true_iff, Bool.not_eq_true', List.all_eq_true] at hfound
  obtain ⟨htimer, ⟨hnexthops, hfaces⟩, hnew⟩ := hfound
  obtain ⟨event, hmem, hevent⟩ := List.any_eq_true.mp htimer
  obtain ⟨hid, hcallback⟩ := of_decide_eq_true hevent
  have hreach := (reach_of_exec_guarded .start hs).mono fun s event hempty =>
    onForwarder_of_no_timer (P := Platform.sample) (List.isEmpty_iff.mp hempty) event
  obtain ⟨-, hunderflow, hinterval, hruns⟩ := intervals_nonEmpty Platform.sample
  refine ⟨s, hreach, ⟨event, hmem, hid, 0, hcallback⟩, (hruns _ _ _ _ hreach).2, hunderflow _ _ _ _ ?_,
    hinterval _ _ _ _ (.withFaces (some 1) (some 2) .new) ?_ hnew⟩
  · rw [hnexthops]
    exact hfaces
  · rw [hnexthops]
    exact List.cons_ne_nil 1 [2]

/-- Two Interests are treated as new, and the handle of the first timer is lost. Best route is chosen, an Interest is
sent to face 1, and NCC is chosen again: it makes the item for the last Interest, which is not new. Then the first timer
is due, and the FIB entry has got face 2. -/
def untilMadeUnderTimer : List StrategyForwarder.Event :=
  [.setFibEntry 0 (some [0]), .insertStrategy [] .ncc, interestWithNonce 1, interestWithNonce 2,
    .insertStrategy [] .bestRoute2, .setFibEntry 0 (some [0, 1]), interestWithNonce 3, .insertStrategy [] .ncc,
    interestWithNonce 4, .setFibEntry 0 (some [0, 1, 2]), .advanceClock (milliseconds 4)]

/-- `doPropagate` draws a number below the interval, if no previous face is remembered: there is a face to forward
to. -/
def Draws (P : Platform κ) (s : StrategyState κ) (id interval : Nat) : Prop :=
  ∃ event pitWeak fibWeak face, s.timers.dueEvent s.now id = some event ∧
    event.callback = .doPropagate pitWeak fibWeak ∧
    s.maxInterval pitWeak = some interval ∧ (s.nexthopsOf fibWeak).find? (s.canForwardTo P pitWeak) = some face

/-- The interval of the timer that is due is empty. -/
theorem draws_below_zero : ∃ s : MeasuredState (Cs Unit),
    Reach (next Platform.sample) anyStep (new 16 some ⟨[], ()⟩) s ∧
      s.measurements.measurementsEntryInfoOf [.ofByte 65] = none ∧ Draws Platform.sample s.forwarder 0 0 := by
  have hrun : ((exec (next Platform.sample) (new 16 some ⟨[], ()⟩)
      (untilMadeUnderTimer.map fun event => .forwarder event fun _ => 0)).any fun s =>
        decide (s.measurements.measurementsEntryInfoOf [.ofByte 65] = none) &&
          ((s.forwarder.timers.dueEvent s.forwarder.now 0).any
            (fun event => decide (event.callback = .doPropagate 0 0)) && (decide (s.forwarder.maxInterval 0 = some 0) &&
              ((s.forwarder.nexthopsOf 0).find? (s.forwarder.canForwardTo Platform.sample 0)).isSome))) = true := by
    decide +kernel
  obtain ⟨s, hs, hfound⟩ := (Option.any_eq_true _ _).mp hrun
  simp only [Bool.and_eq_true, decide_eq_true_iff] at hfound
  obtain ⟨hnone, hdue, hinterval, hface⟩ := hfound
  obtain ⟨event, hdue, hcallback⟩ := (Option.any_eq_true _ _).mp hdue
  obtain ⟨face, hface⟩ := Option.isSome_iff_exists.mp hface
  exact ⟨s, reach_of_exec .start hs, hnone, event, 0, 0, face, hdue, of_decide_eq_true hcallback, hinterval, hface⟩

end MeasuredForwarder
end NfdPitless
