import NfdPitless.BestRouteChoice
import Mathlib.Data.List.Count

/-! The suppression intervals of `RetxSuppressionExponential` over the life of a PIT entry. The interval is kept on the
entry and grows only when a retransmission is forwarded; the time it is compared with is that of the latest out-record,
which the strategy renews and the pipelines delete. -/

namespace NfdPitless

namespace RetxSuppressionExponential

/-- What the constructor takes and asserts. The multiplier is a whole number, and the products are exact. -/
structure Parameters where
  initialInterval : Nat
  multiplier : Nat
  maxInterval : Nat
  initialInterval_pos : 0 < initialInterval
  one_le_multiplier : 1 ≤ multiplier
  initialInterval_le_maxInterval : initialInterval ≤ maxInterval

/-- The default arguments. -/
def Parameters.default : Parameters where
  initialInterval := RetxSuppressionExponential.initialInterval
  multiplier := RetxSuppressionExponential.multiplier
  maxInterval := RetxSuppressionExponential.maxInterval
  initialInterval_pos := by decide
  one_le_multiplier := by decide
  initialInterval_le_maxInterval := by decide

/-- `decide` on a PIT entry, given the suppression interval of its `PitInfo` if it has one. -/
def decideEntry (p : Parameters) (e : PitEntry) (now : Nat) (pitInfo : Option Nat) :
    Except Assertion (RetxSuppression × Option Nat) :=
  if !e.hasUnexpiredOutRecords now then .ok (.new, pitInfo)
  else
    match e.getLastOutgoing with
    | none => .error .lastOutgoing
    | some lastOutgoing =>
        let suppressionInterval := pitInfo.getD p.initialInterval
        if now - lastOutgoing < suppressionInterval then .ok (.suppress, some suppressionInterval)
        else .ok (.forward, some (min p.maxInterval (suppressionInterval * p.multiplier)))

/-- A PIT entry, with the clock and what has been decided. -/
structure EntryState where
  now : Nat
  entry : PitEntry
  pitInfo : Option Nat
  decisions : List RetxSuppression

inductive EntryEvent where
  | decide
  | insertOrUpdateOutRecord (face : Face) (interest : Interest)
  | deleteOutRecord (face : Face)
  | advanceClock (duration : Nat)

def step (p : Parameters) (s : EntryState) : EntryEvent → Option EntryState
  | .decide =>
      (decideEntry p s.entry s.now s.pitInfo).toOption.map fun result =>
        { s with pitInfo := result.2, decisions := s.decisions ++ [result.1] }
  | .insertOrUpdateOutRecord face interest =>
      some { s with entry := s.entry.insertOrUpdateOutRecord s.now face interest }
  | .deleteOutRecord face => some { s with entry := s.entry.deleteOutRecord face }
  | .advanceClock duration => some { s with now := s.now + duration }

/-- An entry that nothing has been decided about. -/
def start (now : Nat) (entry : PitEntry) : EntryState := { now, entry, pitInfo := none, decisions := [] }

namespace Parameters

/-- The interval after a number of retransmissions have been forwarded. -/
def intervalAfter (p : Parameters) (nForwarded : Nat) : Nat :=
  min (p.initialInterval * p.multiplier ^ nForwarded) p.maxInterval

variable {p : Parameters}

theorem intervalAfter_zero : p.intervalAfter 0 = p.initialInterval := by
  rw [intervalAfter, pow_zero, mul_one]
  exact min_eq_left p.initialInterval_le_maxInterval

theorem intervalAfter_pos (n : Nat) : 0 < p.intervalAfter n := by
  have hgrown : 0 < p.initialInterval * p.multiplier ^ n :=
    Nat.mul_pos p.initialInterval_pos (Nat.pow_pos p.one_le_multiplier)
  exact lt_min hgrown (p.initialInterval_pos.trans_le p.initialInterval_le_maxInterval)

/-- The interval that was cut off is not less after it is multiplied. -/
theorem intervalAfter_succ (n : Nat) :
    p.intervalAfter (n + 1) = min p.maxInterval (p.intervalAfter n * p.multiplier) := by
  rw [intervalAfter, intervalAfter, pow_succ, ← mul_assoc, min_comm]
  rcases le_total (p.initialInterval * p.multiplier ^ n) p.maxInterval with hle | hle
  · rw [min_eq_left hle]
  · have hmax : p.maxInterval ≤ p.maxInterval * p.multiplier := Nat.le_mul_of_pos_right _ p.one_le_multiplier
    have hgrown : p.maxInterval ≤ p.initialInterval * p.multiplier ^ n * p.multiplier :=
      hmax.trans (Nat.mul_le_mul_right _ hle)
    rw [min_eq_right hle, min_eq_left hgrown, min_eq_left hmax]

end Parameters

variable {p : Parameters} {e : PitEntry} {now : Nat} {pitInfo : Option Nat} {s s' : EntryState}

/-- The time of the latest out-record. -/
def IsLastOutgoing (e : PitEntry) (lastOutgoing : Nat) : Prop :=
  (∃ outRecord ∈ e.outRecords, outRecord.lastRenewed = lastOutgoing) ∧
    ∀ outRecord ∈ e.outRecords, outRecord.lastRenewed ≤ lastOutgoing

theorem getLastOutgoing_spec {lastOutgoing : Nat} (h : e.getLastOutgoing = some lastOutgoing) :
    IsLastOutgoing e lastOutgoing := by
  obtain ⟨outRecord, hmax, rfl⟩ := Option.map_eq_some_iff.mp h
  exact ⟨⟨outRecord, Lists.mem_of_maxElement hmax, rfl⟩, Lists.le_of_maxElement hmax⟩

theorem IsLastOutgoing.unique {lastOutgoing lastOutgoing' : Nat} (h : IsLastOutgoing e lastOutgoing)
    (h' : IsLastOutgoing e lastOutgoing') : lastOutgoing = lastOutgoing' := by
  obtain ⟨⟨outRecord, hmem, rfl⟩, hle⟩ := h
  obtain ⟨⟨outRecord', hmem', rfl⟩, hle'⟩ := h'
  exact le_antisymm (hle' outRecord hmem) (hle outRecord' hmem')

/-- A decision: new without an unexpired out-record, else by the time since the latest out-record. -/
theorem decideEntry_cases (p : Parameters) (e : PitEntry) (now : Nat) (pitInfo : Option Nat) :
    (e.hasUnexpiredOutRecords now = false ∧ decideEntry p e now pitInfo = .ok (.new, pitInfo)) ∨
      e.hasUnexpiredOutRecords now = true ∧ ∃ lastOutgoing, IsLastOutgoing e lastOutgoing ∧
        (now - lastOutgoing < pitInfo.getD p.initialInterval ∧
            decideEntry p e now pitInfo = .ok (.suppress, some (pitInfo.getD p.initialInterval)) ∨
          ¬ now - lastOutgoing < pitInfo.getD p.initialInterval ∧ decideEntry p e now pitInfo =
            .ok (.forward, some (min p.maxInterval (pitInfo.getD p.initialInterval * p.multiplier)))) := by
  rw [decideEntry]
  cases hunexpired : e.hasUnexpiredOutRecords now with
  | false => exact Or.inl ⟨rfl, rfl⟩
  | true =>
      obtain ⟨lastOutgoing, hlast⟩ := BestRouteStrategy2.getLastOutgoing_isSome hunexpired
      refine Or.inr ⟨rfl, lastOutgoing, getLastOutgoing_spec hlast, ?_⟩
      rw [if_neg (by simp), hlast]
      by_cases hrecent : now - lastOutgoing < pitInfo.getD p.initialInterval
      · exact Or.inl ⟨hrecent, if_pos hrecent⟩
      · exact Or.inr ⟨hrecent, if_neg hrecent⟩

/-- The strategy's decision is that with the default parameters. -/
theorem decide_eq {κ : Type} {s : StrategyState κ} {r : Ref} (he : s.entry r = some e) :
    decide s r = (decideEntry .default e s.now (s.info r).retx).map fun result =>
      (result.1, s.setInfo r { s.info r with retx := result.2 }) := by
  have hsame : s.setInfo r { s.info r with retx := (s.info r).retx } = s := by
    rw [StrategyState.setInfo, Function.update_eq_self]
  rw [decide, decideEntry, StrategyState.hasUnexpiredOutRecords, lastOutgoingOf, he, Option.any_some, Option.bind_some]
  by_cases hunexpired : e.hasUnexpiredOutRecords s.now = true
  swap
  · rw [if_pos (by simpa using hunexpired), if_pos (by simpa using hunexpired)]
    exact congrArg (fun x => Except.ok (RetxSuppression.new, x)) hsame.symm
  rw [if_neg (by simpa using hunexpired), if_neg (by simpa using hunexpired)]
  cases e.getLastOutgoing with
  | none => rfl
  | some lastOutgoing =>
      by_cases hrecent : s.now - lastOutgoing < (s.info r).retx.getD initialInterval
      · simp [Except.map, Parameters.default, hrecent]
      · simp [Except.map, Parameters.default, hrecent]

/-- The current interval is that after the retransmissions that were forwarded so far. -/
def EntryState.Counted (p : Parameters) (s : EntryState) : Prop :=
  s.pitInfo.getD p.initialInterval = p.intervalAfter (s.decisions.count .forward)

theorem EntryState.Counted.step {event : EntryEvent} (h : s.Counted p) (hstep : step p s event = some s') :
    s'.Counted p := by
  cases event with
  | decide =>
      obtain ⟨result, hresult, rfl⟩ := Option.map_eq_some_iff.mp hstep
      have hresult := toOption_eq_some_iff.mp hresult
      rw [Counted, List.count_append]
      rcases decideEntry_cases p s.entry s.now s.pitInfo with
        ⟨-, hnew⟩ | ⟨-, lastOutgoing, -, ⟨-, hsuppress⟩ | ⟨-, hforward⟩⟩
      · cases hnew.symm.trans hresult
        exact h
      · cases hsuppress.symm.trans hresult
        exact h
      · cases hforward.symm.trans hresult
        rw [Option.getD_some, h, ← p.intervalAfter_succ]
        rfl
  | insertOrUpdateOutRecord face interest =>
      cases hstep
      exact h
  | deleteOutRecord face =>
      cases hstep
      exact h
  | advanceClock duration =>
      cases hstep
      exact h

theorem counted_of_reach {entry : PitEntry} (hr : Reach (step p) anyStep (start now entry) s) : s.Counted p :=
  hr.invariant p.intervalAfter_zero.symm fun _ _ _ h _ hstep => h.step hstep

/-- In every run, of the next decision: a retransmission is forwarded only after the interval that has grown with each
one forwarded before, and suppressed exactly within the current interval. -/
theorem intervals_respected {entry : PitEntry} (hr : Reach (step p) anyStep (start now entry) s) :
    ∃ suppression pitInfo, decideEntry p s.entry s.now s.pitInfo = .ok (suppression, pitInfo) ∧
      (suppression = .forward → ∀ outRecord ∈ s.entry.outRecords,
        outRecord.lastRenewed +
          min (p.initialInterval * p.multiplier ^ s.decisions.count .forward) p.maxInterval ≤ s.now) ∧
      (suppression = .suppress ↔ s.entry.hasUnexpiredOutRecords s.now = true ∧
        ∃ lastOutgoing, IsLastOutgoing s.entry lastOutgoing ∧
          s.now < lastOutgoing + s.pitInfo.getD p.initialInterval) := by
  have hcounted : s.pitInfo.getD p.initialInterval = p.intervalAfter (s.decisions.count .forward) := counted_of_reach hr
  have hpos := p.intervalAfter_pos (s.decisions.count .forward)
  rw [← Parameters.intervalAfter, ← hcounted] at *
  rcases decideEntry_cases p s.entry s.now s.pitInfo with
    ⟨hexpired, hnew⟩ | ⟨hunexpired, lastOutgoing, hlast, ⟨hrecent, hsuppress⟩ | ⟨hpast, hforward⟩⟩
  · refine ⟨.new, _, hnew, fun h => (by cases h), fun h => (by cases h), fun h => ?_⟩
    exact absurd (hexpired.symm.trans h.1) (by decide)
  · refine ⟨.suppress, _, hsuppress, fun h => (by cases h), fun _ => ⟨hunexpired, lastOutgoing, hlast, ?_⟩, fun _ =>
      rfl⟩
    omega
  · refine ⟨.forward, _, hforward, fun _ outRecord hmem => ?_, fun h => (by cases h), ?_⟩
    · have hle := hlast.2 outRecord hmem
      omega
    · rintro ⟨-, lastOutgoing', hlast', hrecent⟩
      cases hlast.unique hlast'
      omega

/-- The interval grows from 1 to 3 to 5. -/
def threefold : Parameters :=
  ⟨1, 3, 5, by decide, by decide, by decide⟩

/-- An entry for `/A` with no records. -/
def unsent : PitEntry :=
  { interest := plainInterest [.ofByte 65], inRecords := [], outRecords := [], unsatisfyTimer := none
    stragglerTimer := none, nameTreeEntry := none }

/-- The Interest is sent, and twice more after the interval has passed. -/
def sentThrice : List EntryEvent :=
  [.decide, .insertOrUpdateOutRecord 1 (plainInterest [.ofByte 65]), .advanceClock 1, .decide,
    .insertOrUpdateOutRecord 2 (plainInterest [.ofByte 65]), .advanceClock 2, .decide, .advanceClock 1, .decide,
    .insertOrUpdateOutRecord 1 (plainInterest [.ofByte 65]), .deleteOutRecord 2, .advanceClock 4]

/-- The third retransmission is suppressed 4 units after the last: the interval is 5. -/
theorem intervals_respected_thrice : ∃ s, Reach (step threefold) anyStep (start 0 unsent) s ∧
    s.decisions = [.new, .forward, .suppress, .forward] ∧ s.now = 8 ∧
    ∃ suppression pitInfo, decideEntry threefold s.entry s.now s.pitInfo = .ok (suppression, pitInfo) ∧
      (suppression = .forward → ∀ outRecord ∈ s.entry.outRecords,
        outRecord.lastRenewed + min (1 * 3 ^ s.decisions.count .forward) 5 ≤ s.now) ∧
      (suppression = .suppress ↔ s.entry.hasUnexpiredOutRecords s.now = true ∧
        ∃ lastOutgoing, IsLastOutgoing s.entry lastOutgoing ∧ s.now < lastOutgoing + s.pitInfo.getD 1) := by
  have hrun : ((exec (step threefold) (start 0 unsent) sentThrice).any fun s =>
      s.decisions == [.new, .forward, .suppress, .forward] && s.now == 8) = true := by
    decide +kernel
  obtain ⟨s, hs, hstate⟩ := (Option.any_eq_true _ _).mp hrun
  obtain ⟨hdecisions, hnow⟩ := Bool.and_eq_true_iff.mp hstate
  have hreach := reach_of_exec .start hs
  exact ⟨s, hreach, beq_iff_eq.mp hdecisions, beq_iff_eq.mp hnow, intervals_respected hreach⟩

end RetxSuppressionExponential

end NfdPitless
