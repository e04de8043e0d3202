import NfdPitless.StrategyForwarder
import NfdPitless.Tables

/-! Which next hop version 2 of best route sends an Interest to. The next hops of a FIB entry are in the order of their
costs, so that the first one that a predicate holds of is the cheapest. A retransmission goes to a next hop that is
unused, and only if each of those that are eligible has an out-record are these compared. -/

namespace NfdPitless

namespace BestRouteStrategy2

variable {κ : Type} {P : Platform κ} {s s' : StrategyState κ} {e : PitEntry} {inFace : Face} {fibEntry r : Ref}
  {nexthops : List NextHop} {nexthop : NextHop} {suppression : RetxSuppression}

/-- The next hop is not the face of the Interest, and sending to it is within the scope. -/
structure Eligible (P : Platform κ) (s : StrategyState κ) (e : PitEntry) (inFace : Face) (nexthop : NextHop) :
    Prop where
  other : s.base.faceId nexthop.face ≠ s.base.faceId inFace
  inScope : e.violatesScope P.isLocal nexthop.face = false

/-- The next hop has no out-record, or one that has expired. -/
def Unused (s : StrategyState κ) (e : PitEntry) (nexthop : NextHop) : Prop :=
  ∀ outRecord, e.getOutRecord nexthop.face = some outRecord → outRecord.expiry ≤ s.now

structure IsCheapest (p : NextHop → Prop) (nexthops : List NextHop) (nexthop : NextHop) : Prop where
  mem : nexthop ∈ nexthops
  holds : p nexthop
  le : ∀ other ∈ nexthops, p other → nexthop.cost ≤ other.cost

/-- Each of the next hops has an out-record, and that of this one was renewed first. -/
structure IsEarliest (e : PitEntry) (p : NextHop → Prop) (nexthops : List NextHop) (nexthop : NextHop) : Prop where
  mem : nexthop ∈ nexthops
  holds : p nexthop
  earliest : ∃ outRecord, e.getOutRecord nexthop.face = some outRecord ∧ ∀ other ∈ nexthops, p other →
    ∃ otherRecord, e.getOutRecord other.face = some otherRecord ∧ outRecord.lastRenewed ≤ otherRecord.lastRenewed

/-- The next hop that each decision is to choose, `none` if the Interest is not sent. -/
def Chooses (P : Platform κ) (s : StrategyState κ) (e : PitEntry) (inFace : Face) (nexthops : List NextHop) :
    RetxSuppression → Option NextHop → Prop
  | .new, some nexthop => IsCheapest (Eligible P s e inFace) nexthops nexthop
  | .suppress, some _ => False
  | .forward, some nexthop =>
      IsCheapest (fun nexthop => Eligible P s e inFace nexthop ∧ Unused s e nexthop) nexthops nexthop ∨
        (∀ other ∈ nexthops, ¬ (Eligible P s e inFace other ∧ Unused s e other)) ∧
          IsEarliest e (Eligible P s e inFace) nexthops nexthop
  | .suppress, none => True
  | _, none => ∀ other ∈ nexthops, ¬ Eligible P s e inFace other

/-- The Interest is sent to the next hop that is chosen. A new PIT entry is rejected if there is none. -/
def followed (P : Platform κ) (s : StrategyState κ) (r : Ref) :
    RetxSuppression → Option NextHop → StrategyOutcome κ
  | _, some nexthop => Strategy.sendInterest P s r nexthop.face
  | .new, none => .ok (Strategy.rejectPendingInterest s r)
  | _, none => .ok s

theorem getLastOutgoing_isSome {now : Nat} (h : e.hasUnexpiredOutRecords now = true) :
    ∃ lastOutgoing, e.getLastOutgoing = some lastOutgoing := by
  have hne : e.outRecords ≠ [] := fun hnil => by simp [PitEntry.hasUnexpiredOutRecords, hnil] at h
  obtain ⟨outRecord, hmax⟩ := Lists.maxElement_isSome
    (fun a b : OutRecord => decide (a.lastRenewed < b.lastRenewed)) hne
  exact ⟨outRecord.lastRenewed, Option.map_eq_some_iff.mpr ⟨outRecord, hmax, rfl⟩⟩

/-- A decision is made, and of the state only the suppression interval changes. -/
theorem decide_returns (s : StrategyState κ) (r : Ref) : ∃ suppression info,
    RetxSuppressionExponential.decide s r = .ok (suppression, { s with info }) := by
  rw [RetxSuppressionExponential.decide]
  by_cases hnew : s.hasUnexpiredOutRecords r = true
  swap
  · exact ⟨.new, s.info, by rw [if_pos (by simpa using hnew)]⟩
  obtain ⟨e, he, hunexpired⟩ := (Option.any_eq_true _ _).mp hnew
  obtain ⟨lastOutgoing, hlast⟩ := getLastOutgoing_isSome hunexpired
  have hof : lastOutgoingOf s r = .ok lastOutgoing := by
    rw [lastOutgoingOf, he, Option.bind_some, hlast]
  rw [if_neg (by simpa using hnew), hof]
  by_cases hrecent : s.now - lastOutgoing < (s.info r).retx.getD RetxSuppressionExponential.initialInterval
  · exact ⟨.suppress, _, congrArg Except.ok (if_pos hrecent)⟩
  · exact ⟨.forward, _, congrArg Except.ok (if_neg hrecent)⟩

theorem isEligible_iff (P : Platform κ) (he : s.entry r = some e) (inFace : Face) (nexthop : NextHop) :
    isEligible P s r (s.base.faceId inFace) false nexthop.face = true ↔ Eligible P s e inFace nexthop := by
  rw [isEligible, StrategyState.violatesScope, he]
  simp only [Bool.false_and, Bool.not_false, Bool.and_true, Option.any_some, Bool.and_eq_true, bne_iff_ne,
    Bool.not_eq_true']
  exact ⟨fun h => ⟨h.1, h.2⟩, fun h => ⟨h.other, h.inScope⟩⟩

theorem isEligible_unused_iff (P : Platform κ) (he : s.entry r = some e) (inFace : Face) (nexthop : NextHop) :
    isEligible P s r (s.base.faceId inFace) true nexthop.face = true ↔
      Eligible P s e inFace nexthop ∧ Unused s e nexthop := by
  rw [← isEligible_iff P he, isEligible, isEligible, StrategyState.getOutRecord, he, Option.bind_some]
  cases hrecord : e.getOutRecord nexthop.face with
  | none => simp [Unused, hrecord]
  | some outRecord => simp [Unused, hrecord]

/-- The first next hop that a predicate holds of is the cheapest. -/
theorem find_cheapest {p : NextHop → Prop} {test : Face → Bool} (hsorted : nexthops.Pairwise fun a b => a.cost ≤ b.cost)
    (htest : ∀ nexthop, test nexthop.face = true ↔ p nexthop) :
    (∃ nexthop, (nexthops.map NextHop.face).find? test = some nexthop.face ∧ IsCheapest p nexthops nexthop) ∨
      (nexthops.map NextHop.face).find? test = none ∧ ∀ other ∈ nexthops, ¬ p other := by
  induction nexthops with
  | nil => exact Or.inr ⟨rfl, fun _ h => absurd h List.not_mem_nil⟩
  | cons first rest ih =>
      obtain ⟨hfirst, hrest⟩ := List.pairwise_cons.mp hsorted
      rw [List.map_cons]
      by_cases hp : p first
      · refine Or.inl ⟨first, List.find?_cons_of_pos ((htest first).mpr hp), List.mem_cons_self, hp, ?_⟩
        exact List.forall_mem_cons.mpr ⟨fun _ => le_rfl, fun other hother _ => hfirst other hother⟩
      · rw [List.find?_cons_of_neg fun h => hp ((htest first).mp h)]
        rcases ih hrest with ⟨nexthop, hfind, hcheapest⟩ | ⟨hfind, hnone⟩
        · refine Or.inl ⟨nexthop, hfind, List.mem_cons_of_mem first hcheapest.mem, hcheapest.holds, ?_⟩
          exact List.forall_mem_cons.mpr ⟨fun h => absurd h hp, hcheapest.le⟩
        · exact Or.inr ⟨hfind, List.forall_mem_cons.mpr ⟨hp, hnone⟩⟩

/-- What the loop has found is no later than a time. -/
def FoundBy (found : Option (Face × Nat)) (time : Nat) : Prop := ∃ best, found = some best ∧ best.2 ≤ time

theorem earlierOutRecord_skips (he : s.entry r = some e) (h : ¬ Eligible P s e inFace nexthop)
    (found : Option (Face × Nat)) :
    earlierOutRecord P s r (s.base.faceId inFace) found nexthop.face = .ok found := by
  rw [earlierOutRecord, if_pos (by simpa using fun heligible => h ((isEligible_iff P he inFace nexthop).mp heligible))]

/-- One round: an earlier out-record replaces the one found. -/
theorem earlierOutRecord_spec (he : s.entry r = some e) (h : Eligible P s e inFace nexthop) {outRecord : OutRecord}
    (hrecord : e.getOutRecord nexthop.face = some outRecord) (found : Option (Face × Nat)) : ∃ found',
      earlierOutRecord P s r (s.base.faceId inFace) found nexthop.face = .ok found' ∧
        FoundBy found' outRecord.lastRenewed ∧ (∀ time, FoundBy found time → FoundBy found' time) ∧
        (found' = found ∨ found' = some (nexthop.face, outRecord.lastRenewed)) := by
  have hget : s.getOutRecord r nexthop.face = some outRecord := by rw [StrategyState.getOutRecord, he]; exact hrecord
  rw [earlierOutRecord, if_neg (by simpa using (isEligible_iff P he inFace nexthop).mpr h), hget]
  by_cases hearlier : (found.all fun best => decide (outRecord.lastRenewed < best.2)) = true
  · refine ⟨_, congrArg Except.ok (if_pos hearlier), ⟨_, rfl, le_rfl⟩, ?_, Or.inr rfl⟩
    rintro time ⟨best, rfl, hbest⟩
    have hlt : outRecord.lastRenewed < best.2 := by simpa using hearlier
    exact ⟨_, rfl, hlt.le.trans hbest⟩
  · refine ⟨_, congrArg Except.ok (if_neg hearlier), ?_, fun _ hfound => hfound, Or.inl rfl⟩
    cases found with
    | none => exact absurd rfl hearlier
    | some best => exact ⟨best, rfl, not_lt.mp (by simpa using hearlier)⟩

/-- The loop fails no assertion if each eligible next hop has an out-record, and finds the earliest of these. -/
theorem foldlM_earlierOutRecord (he : s.entry r = some e)
    (hrecords : ∀ nexthop ∈ nexthops, Eligible P s e inFace nexthop →
      ∃ outRecord, e.getOutRecord nexthop.face = some outRecord) (found : Option (Face × Nat)) : ∃ found',
      (nexthops.map NextHop.face).foldlM (earlierOutRecord P s r (s.base.faceId inFace)) found = .ok found' ∧
        (∀ time, FoundBy found time → FoundBy found' time) ∧
        (∀ nexthop ∈ nexthops, Eligible P s e inFace nexthop → ∀ outRecord,
          e.getOutRecord nexthop.face = some outRecord → FoundBy found' outRecord.lastRenewed) ∧
        (found' = found ∨ ∃ nexthop ∈ nexthops, Eligible P s e inFace nexthop ∧ ∃ outRecord,
          e.getOutRecord nexthop.face = some outRecord ∧ found' = some (nexthop.face, outRecord.lastRenewed)) := by
  induction nexthops generalizing found with
  | nil => exact ⟨found, rfl, fun _ h => h, fun _ h => absurd h List.not_mem_nil, Or.inl rfl⟩
  | cons first rest ih =>
      have ih := ih fun nexthop hnexthop => hrecords nexthop (List.mem_cons_of_mem first hnexthop)
      rw [List.map_cons, List.foldlM_cons]
      by_cases hfirst : Eligible P s e inFace first
      swap
      · obtain ⟨found', heq, hkeep, hrest, horigin⟩ := ih found
        rw [earlierOutRecord_skips he hfirst]
        refine ⟨found', heq, hkeep, List.forall_mem_cons.mpr ⟨fun h => absurd h hfirst, hrest⟩, ?_⟩
        exact horigin.imp_right fun ⟨nexthop, hmem, hnexthop⟩ => ⟨nexthop, List.mem_cons_of_mem first hmem, hnexthop⟩
      obtain ⟨firstRecord, hfirstRecord⟩ := hrecords first List.mem_cons_self hfirst
      obtain ⟨found₁, heq₁, hby₁, hkeep₁, horigin₁⟩ := earlierOutRecord_spec he hfirst hfirstRecord found
      obtain ⟨found', heq, hkeep, hrest, horigin⟩ := ih found₁
      rw [heq₁]
      refine ⟨found', heq, fun time h => hkeep time (hkeep₁ time h), List.forall_mem_cons.mpr ⟨?_, hrest⟩, ?_⟩
      · intro _ outRecord hrecord
        cases hfirstRecord.symm.trans hrecord
        exact hkeep _ hby₁
      · rcases horigin with rfl | ⟨nexthop, hmem, hnexthop⟩
        · exact horigin₁.imp_right fun h => ⟨first, List.mem_cons_self, hfirst, firstRecord, hfirstRecord, h⟩
        · exact Or.inr ⟨nexthop, List.mem_cons_of_mem first hmem, hnexthop⟩

/-- If no eligible next hop is unused, the one that was renewed first is found. -/
theorem findEligibleNextHopWithEarliestOutRecord_spec (he : s.entry r = some e)
    (hused : ∀ nexthop ∈ nexthops, ¬ (Eligible P s e inFace nexthop ∧ Unused s e nexthop)) :
    (∃ nexthop, findEligibleNextHopWithEarliestOutRecord P s r (nexthops.map NextHop.face) (s.base.faceId inFace) =
        .ok (some nexthop.face) ∧ IsEarliest e (Eligible P s e inFace) nexthops nexthop) ∨
      findEligibleNextHopWithEarliestOutRecord P s r (nexthops.map NextHop.face) (s.base.faceId inFace) = .ok none ∧
        ∀ other ∈ nexthops, ¬ Eligible P s e inFace other := by
  have hrecords : ∀ nexthop ∈ nexthops, Eligible P s e inFace nexthop →
      ∃ outRecord, e.getOutRecord nexthop.face = some outRecord := by
    intro nexthop hnexthop heligible
    cases hrecord : e.getOutRecord nexthop.face with
    | none => exact absurd ⟨heligible, fun _ h => by simp [hrecord] at h⟩ (hused nexthop hnexthop)
    | some outRecord => exact ⟨outRecord, rfl⟩
  obtain ⟨found, hfold, -, hall, horigin⟩ := foldlM_earlierOutRecord he hrecords none
  rw [findEligibleNextHopWithEarliestOutRecord, hfold]
  rcases horigin with rfl | ⟨nexthop, hmem, heligible, outRecord, hrecord, rfl⟩
  · refine Or.inr ⟨rfl, fun other hother heligible => ?_⟩
    obtain ⟨outRecord, hrecord⟩ := hrecords other hother heligible
    obtain ⟨best, hbest, -⟩ := hall other hother heligible outRecord hrecord
    cases hbest
  · refine Or.inl ⟨nexthop, rfl, hmem, heligible, outRecord, hrecord, fun other hother hother' => ?_⟩
    obtain ⟨otherRecord, hotherRecord⟩ := hrecords other hother hother'
    obtain ⟨best, hbest, hle⟩ := hall other hother hother' otherRecord hotherRecord
    cases hbest
    exact ⟨otherRecord, hotherRecord, hle⟩

/-- The trigger makes a decision and follows it. -/
theorem afterReceiveInterest_follows (he : s.entry r = some e)
    (hsorted : nexthops.Pairwise fun a b => a.cost ≤ b.cost)
    (hfib : s.nexthopsOf fibEntry = nexthops.map NextHop.face) :
    ∃ suppression info choice, RetxSuppressionExponential.decide s r = .ok (suppression, { s with info }) ∧
      Chooses P s e inFace nexthops suppression choice ∧
      afterReceiveInterest P s inFace fibEntry r = followed P { s with info } r suppression choice := by
  obtain ⟨suppression, info, hdecide⟩ := decide_returns s r
  -- the predicate and the loop read nothing of the suppression intervals
  have hread : ∀ wantUnused, isEligible P { s with info } r (s.base.faceId inFace) wantUnused =
      isEligible P s r (s.base.faceId inFace) wantUnused := fun _ => rfl
  have hloop : findEligibleNextHopWithEarliestOutRecord P { s with info } r (nexthops.map NextHop.face)
      (s.base.faceId inFace) = findEligibleNextHopWithEarliestOutRecord P s r (nexthops.map NextHop.face)
      (s.base.faceId inFace) := rfl
  rw [afterReceiveInterest, hdecide, hfib]
  cases suppression with
  | new =>
      rcases find_cheapest hsorted (isEligible_iff P he inFace) with
        ⟨nexthop, hfind, hcheapest⟩ | ⟨hfind, hnone⟩
      · exact ⟨.new, info, some nexthop, rfl, hcheapest, by simp only [Except.bind, hread, hfind, followed]⟩
      · exact ⟨.new, info, none, rfl, hnone, by simp only [Except.bind, hread, hfind, followed]⟩
  | suppress => exact ⟨.suppress, info, none, rfl, trivial, rfl⟩
  | forward =>
      rcases find_cheapest hsorted (isEligible_unused_iff P he inFace) with
        ⟨nexthop, hfind, hcheapest⟩ | ⟨hfind, hused⟩
      · exact ⟨.forward, info, some nexthop, rfl, Or.inl hcheapest, by
          simp only [Except.bind, hread, hfind, followed]⟩
      · rcases findEligibleNextHopWithEarliestOutRecord_spec he hused with
          ⟨nexthop, hfound, hearliest⟩ | ⟨hfound, hnone⟩
        · exact ⟨.forward, info, some nexthop, rfl, Or.inr ⟨hused, hearliest⟩, by
            simp only [Except.bind, hread, hfind, hloop, hfound, Option.elim_some, followed]⟩
        · exact ⟨.forward, info, none, rfl, hnone, by
            simp only [Except.bind, hread, hfind, hloop, hfound, Option.elim_none, followed]⟩

/-- Nothing passes the faces, or one Interest that does not go back to its face nor out of the scope. -/
def SendsAtMostOne (P : Platform κ) (s : StrategyState κ) (r : Ref) (e : PitEntry) (inFace : Face)
    (s' : StrategyState κ) : Prop :=
  s'.base.log = s.base.log ∨ ∃ outFace interest, s'.base.log = s.base.log ++ [.outInterest r outFace interest] ∧
    outFace ≠ inFace ∧ e.violatesScope P.isLocal outFace = false

theorem Chooses.eligible (h : Chooses P s e inFace nexthops suppression (some nexthop)) :
    Eligible P s e inFace nexthop := by
  cases suppression with
  | new => exact h.holds
  | suppress => exact h.elim
  | forward => exact h.elim (fun hunused => hunused.holds.1) fun hearliest => hearliest.2.holds

theorem rejectPendingInterest_log (s : StrategyState κ) (r : Ref) :
    (Strategy.rejectPendingInterest s r).base.log = s.base.log := by
  rw [Strategy.rejectPendingInterest]
  cases hreject : Forwarder.onInterestReject s.base r with
  | none => rfl
  | some base =>
      rcases Forwarder.onInterestReject_cases hreject with rfl | rfl
      · rfl
      · rfl

theorem sendInterest_sends (h : Eligible P s e inFace nexthop)
    (hsend : Strategy.sendInterest P s r nexthop.face = .ok s') : SendsAtMostOne P s r e inFace s' := by
  rw [Strategy.sendInterest] at hsend
  split at hsend
  · cases hsend
  · rename_i base hout
    cases hsend
    rcases Forwarder.onOutgoingInterest_cases hout with rfl | ⟨e', interest, -, -, rfl⟩
    · exact Or.inl rfl
    · exact Or.inr ⟨nexthop.face, interest, rfl, fun heq => h.other (by rw [heq]), h.inScope⟩

theorem sendInterest_ne (P : Platform κ) (s : StrategyState κ) (r : Ref) (outFace : Face) :
    Strategy.sendInterest P s r outFace ≠ .error .earliestOutRecord := by
  rw [Strategy.sendInterest]
  split
  · exact fun h => by cases h
  · exact fun h => by cases h

/-- What the trigger does for every PIT entry, every list of next hops by ascending costs and every face. -/
theorem afterReceiveInterest_chooses (he : s.entry r = some e)
    (hsorted : nexthops.Pairwise fun a b => a.cost ≤ b.cost)
    (hfib : s.nexthopsOf fibEntry = nexthops.map NextHop.face) (inFace : Face) :
    (∃ suppression info choice, RetxSuppressionExponential.decide s r = .ok (suppression, { s with info }) ∧
      Chooses P s e inFace nexthops suppression choice ∧
      afterReceiveInterest P s inFace fibEntry r = followed P { s with info } r suppression choice) ∧
      afterReceiveInterest P s inFace fibEntry r ≠ .error .earliestOutRecord ∧
      ∀ s', afterReceiveInterest P s inFace fibEntry r = .ok s' → SendsAtMostOne P s r e inFace s' := by
  obtain ⟨suppression, info, choice, hdecide, hchooses, heq⟩ := afterReceiveInterest_follows he hsorted hfib
  refine ⟨⟨suppression, info, choice, hdecide, hchooses, heq⟩, ?_⟩
  rw [heq]
  cases choice with
  | some nexthop =>
      have heligible : Eligible P { s with info } e inFace nexthop :=
        ⟨hchooses.eligible.other, hchooses.eligible.inScope⟩
      have hsends := fun s' (hs' : Strategy.sendInterest P { s with info } r nexthop.face = .ok s') =>
        sendInterest_sends heligible hs'
      exact ⟨sendInterest_ne P _ r nexthop.face, hsends⟩
  | none =>
      cases suppression with
      | new =>
          refine ⟨fun h => (by cases h), fun s' hs' => Or.inl ?_⟩
          cases hs'
          exact rejectPendingInterest_log _ r
      | suppress =>
          refine ⟨fun h => (by cases h), fun s' hs' => Or.inl ?_⟩
          cases hs'
          rfl
      | forward =>
          refine ⟨fun h => (by cases h), fun s' hs' => Or.inl ?_⟩
          cases hs'
          rfl

/-- An Interest for `/A` from face 0 goes to face 1; sent again after 5 ms, to face 2. -/
def untilUsed : List StrategyForwarder.Event :=
  [.setFibEntry 0 (some [1, 2]), .insertStrategy [] .bestRoute2,
    .incomingInterest 0 (plainInterest [.ofByte 65]) 0 StrategyForwarder.noInput, .advanceClock (milliseconds 5),
    .incomingInterest 0 { plainInterest [.ofByte 65] with nonce := 2 } 0 StrategyForwarder.noInput,
    .advanceClock (milliseconds 5)]

/-- Sent once more, it goes to face 1 again. -/
theorem afterReceiveInterest_chooses_used : ∃ (s : StrategyState (Cs Unit)) (e : PitEntry),
    exec (StrategyForwarder.next .sample) (StrategyForwarder.new 16 some ⟨[], ()⟩) untilUsed = some s ∧
      s.entry 0 = some e ∧ afterReceiveInterest .sample s 0 0 0 ≠ .error .earliestOutRecord ∧
      (∀ s', afterReceiveInterest .sample s 0 0 0 = .ok s' → SendsAtMostOne .sample s 0 e 0 s') ∧
      ∃ s', afterReceiveInterest .sample s 0 0 0 = .ok s' ∧
        s'.base.log.getLast? = some (.outInterest 0 1 { plainInterest [.ofByte 65] with nonce := 2 }) := by
  have hrun : ((exec (StrategyForwarder.next .sample) (StrategyForwarder.new 16 some ⟨[], ()⟩) untilUsed).any fun s =>
      (s.entry 0).isSome && decide (s.nexthopsOf 0 = [1, 2]) &&
        (afterReceiveInterest .sample s 0 0 0).toOption.any fun s' =>
          s'.base.log.getLast? == some (.outInterest 0 1 { plainInterest [.ofByte 65] with nonce := 2 })) = true := by
    decide +kernel
  obtain ⟨s, hs, hstate⟩ := (Option.any_eq_true _ _).mp hrun
  rw [Bool.and_eq_true, Bool.and_eq_true] at hstate
  obtain ⟨⟨hentry, hfib⟩, hsent⟩ := hstate
  obtain ⟨e, he⟩ := Option.isSome_iff_exists.mp hentry
  obtain ⟨s', hs', hlast⟩ := (Option.any_eq_true _ _).mp hsent
  have hsorted : ([⟨1, 10⟩, ⟨2, 20⟩] : List NextHop).Pairwise fun a b => a.cost ≤ b.cost := by decide
  obtain ⟨-, hassert, hsends⟩ := afterReceiveInterest_chooses (P := .sample) he hsorted (of_decide_eq_true hfib) 0
  exact ⟨s, e, hs, he, hassert, hsends, s', toOption_eq_some_iff.mp hs', beq_iff_eq.mp hlast⟩

end BestRouteStrategy2

end NfdPitless
