import NfdPitless.CsLeftmost
import NfdPitless.NameSuccessor
import NfdPitless.PitlessScope

/-! The content store of the PITless forwarder. A Data in transit is named by the route to the consumer's
bridge, and it is cached under that name, while an Interest asks for a content name: what it finds is
right as far as the routes of the cached Data happen to agree with their content. -/

namespace NfdPitless.PitlessForwarder

open Forwarder (CrossesLocalhost isViolatingLocalhost isViolatingLocalhost_eq_false_iff)

variable {π κ : Type} {P : Platform κ} {digest : Data → List UInt8} {getSuccessor : Name → Name}
  {matchesData : MatchesData}

/-- The Interest is let in and the content store has a match. -/
def AnsweredFromCache (P : Platform κ) (s : PitlessState κ) (inFace : Face) (interest : Interest) (data : Data) :
    Prop :=
  isViolatingLocalhost P inFace interest.name = false ∧ (P.store.find s.cs s.now interest).2 = some data

/-- The match goes to the outgoing Data pipeline, unless the trigger before it fails. -/
theorem AnsweredFromCache.run {s : PitlessState κ} {inFace : Face} {interest : Interest} {data : Data}
    (h : AnsweredFromCache P s inFace interest data) (nexthops : List Face) :
    onIncomingInterest P s inFace interest nexthops =
      onContentStoreHit P (lookedUp P s inFace interest) inFace data := by
  obtain ⟨hscope, hfind⟩ := h
  rw [onIncomingInterest_eq, hscope, if_neg Bool.false_ne_true, hfind]

/-- The strategy that is triggered on a hit dereferences the PIT entry that there is not. -/
def NeedsPitEntry (T : StrategyChoiceTable) : Prop :=
  ∃ strategy, ForwarderKind.pitless.triggeredOnHit T = some strategy ∧
    (strategy.name = NccStrategy.strategyName ∨ strategy.name = AccessStrategy.strategyName)

/-- What answers the Interest is sent only after a trigger, and this fails. -/
def Crashes (P : Platform κ) (s : PitlessState κ) (inFace : Face) (interest : Interest) : Prop :=
  (∃ data, AnsweredFromCache P s inFace interest data) ∧ NeedsPitEntry s.strategyChoice

theorem beforeSatisfyInterest_eq_none_iff {s : PitlessState κ} (h : ForwarderKind.pitless.Ready s.strategyChoice) :
    beforeSatisfyInterest s = none ↔ NeedsPitEntry s.strategyChoice := by
  obtain ⟨strategy, hstrategy⟩ := Option.isSome_iff_exists.mp
    (LongestPrefix.longest_isSome h.root ForwarderKind.pitless.strategyName)
  have htriggered : ForwarderKind.pitless.triggeredOnHit s.strategyChoice = some strategy := hstrategy
  rw [beforeSatisfyInterest, htriggered, Option.bind_some, StrategyInstance.beforeSatisfyInterest]
  constructor
  · intro hnone
    split at hnone
    · rename_i hderef
      exact ⟨strategy, htriggered, hderef.1⟩
    · cases hnone
  · rintro ⟨strategy', heq, hderef⟩
    cases htriggered.symm.trans heq
    rw [if_pos ⟨hderef, rfl⟩]

/-- Otherwise the match is sent. -/
theorem AnsweredFromCache.sent {s : PitlessState κ} {inFace : Face} {interest : Interest} {data : Data}
    (h : AnsweredFromCache P s inFace interest data) (hready : ForwarderKind.pitless.Ready s.strategyChoice)
    (hneeds : ¬ NeedsPitEntry s.strategyChoice) (nexthops : List Face) :
    onIncomingInterest P s inFace interest nexthops =
      some (onOutgoingData P (lookedUp P s inFace interest) data inFace) := by
  obtain ⟨u, hu⟩ := Option.ne_none_iff_exists'.mp (mt (beforeSatisfyInterest_eq_none_iff hready).mp hneeds)
  have htrigger : beforeSatisfyInterest (lookedUp P s inFace interest) = some u := hu
  rw [h.run, onContentStoreHit, htrigger, Option.map_some]

/-- This is the only way in which the pipeline of an Interest fails. -/
theorem onIncomingInterest_eq_none_iff {s : PitlessState κ} {inFace : Face} {interest : Interest}
    (h : ForwarderKind.pitless.Ready s.strategyChoice) (nexthops : List Face) :
    onIncomingInterest P s inFace interest nexthops = none ↔ Crashes P s inFace interest := by
  constructor
  · intro hnone
    rw [onIncomingInterest_eq] at hnone
    split at hnone
    · cases hnone
    · rename_i hscope
      split at hnone
      · rename_i data hfind
        refine ⟨⟨data, Bool.eq_false_iff.mpr hscope, hfind⟩, ?_⟩
        exact (beforeSatisfyInterest_eq_none_iff h).mp (Option.map_eq_none_iff.mp hnone)
      · cases hnone
  · rintro ⟨⟨data, hanswer⟩, hderef⟩
    have htrigger : beforeSatisfyInterest (lookedUp P s inFace interest) = none :=
      (beforeSatisfyInterest_eq_none_iff h).mpr hderef
    rw [hanswer.run, onContentStoreHit, htrigger]
    rfl

/-- What caching by content name promises of an arriving Interest. -/
structure CacheCorrect (P : Platform (Cs π)) (s : PitlessState (Cs π)) (inFace : Face) (interest : Interest) :
    Prop where
  /-- A cached Data answers an Interest for its content: there is a match of that content, and it is what the
  pipeline of the Interest sends. -/
  hit : interest.selectors = .empty → (∃ e ∈ s.cs.table, e.data.contentName = interest.name) →
    ∃ data, AnsweredFromCache P s inFace interest data ∧ data.contentName = interest.name ∧
      ∀ nexthops, onIncomingInterest P s inFace interest nexthops =
        some (onOutgoingData P (lookedUp P s inFace interest) data inFace)
  /-- What answers an Interest is content it asks for. -/
  content : ∀ data, AnsweredFromCache P s inFace interest data → interest.name <+: data.contentName

/-- The Interest finds the Data under the name it is cached by, or asks for its content. -/
def Concerns (matchesData : MatchesData) (now : Nat) (interest : Interest) (e : CsEntry) : Prop :=
  e.canSatisfy matchesData now interest = true ∨
    interest.selectors = .empty ∧ e.data.contentName = interest.name

/-- At the arrival of an Interest: the cached Data that it concerns have their content for a name, and it is the
full name of none; and if it asks, with no selectors, for the content of a cached Data, it is let in, its name does
not end in a digest, and the strategy that is triggered does without a PIT entry. -/
structure CachedByContent (digest : Data → List UInt8) (P : Platform (Cs π)) (s : PitlessState (Cs π))
    (inFace : Face) (interest : Interest) : Prop where
  named : ¬ CrossesLocalhost P inFace interest.name → ∀ e ∈ s.cs.table, Concerns P.matchesData s.now interest e →
    e.data.name = e.data.contentName ∧ interest.name ≠ e.data.fullName digest
  asked : interest.selectors = .empty → (∃ e ∈ s.cs.table, e.data.contentName = interest.name) →
    ¬ CrossesLocalhost P inFace interest.name ∧ ¬ Cs.IsFullName interest.name ∧ ¬ NeedsPitEntry s.strategyChoice

/-- The successor of a name that does not end in a digest is above every Data of that name. -/
theorem above_successor {name : Name} {data : Data} (hname : data.name = name) (hfull : ¬ Cs.IsFullName name)
    (hsucc : ∀ n c, ∃ c' : Component, getSuccessor (n ++ [c]) = n ++ [c'] ∧ c < c' ∧
      c'.isImplicitSha256Digest = c.isImplicitSha256Digest) (hne : name ≠ []) :
    Cs.compareQueryWithData digest (getSuccessor name) data = .gt := by
  obtain ⟨n, c, rfl⟩ := (List.eq_nil_or_concat name).resolve_left hne
  rw [List.concat_eq_append] at hname hfull ⊢
  obtain ⟨c', hc', hlt, htype⟩ := hsucc n c
  have hgeneric : ¬ Cs.IsFullName (n ++ [c']) := by
    rw [Cs.isFullName_concat_iff, htype]
    exact mt Cs.isFullName_concat_iff.mpr hfull
  rw [hc', Cs.above_iff hgeneric, hname]
  exact (Name.append_lt_append_iff _).mpr (List.cons_lt_cons_iff.mpr (Or.inl hlt))

theorem onOutgoingData_cs (s : PitlessState κ) (data : Data) (outFace : Face) :
    (onOutgoingData P s data outFace).cs = s.cs := by
  unfold onOutgoingData
  split
  · rfl
  · split <;> rfl

theorem onContentStoreMiss_cs (s : PitlessState κ) (inFace : Face) (interest : Interest) (nexthops : List Face) :
    (onContentStoreMiss s inFace interest nexthops).cs = s.cs := by
  unfold onContentStoreMiss afterReceiveInterestPITless onOutgoingInterestPITless
  split
  · rfl
  · split <;> rfl

/-- An Interest changes the content store at most by being looked up. -/
theorem onIncomingInterest_cs {s s' : PitlessState κ} {inFace : Face} {interest : Interest} {nexthops : List Face}
    (h : onIncomingInterest P s inFace interest nexthops = some s') :
    s'.cs = s.cs ∨ s'.cs = (P.store.find s.cs s.now interest).1 := by
  rcases onIncomingInterest_cases h with ⟨-, rfl⟩ | ⟨-, ⟨data, -, rfl⟩ | ⟨-, rfl⟩⟩
  · exact Or.inl rfl
  · exact Or.inr (onOutgoingData_cs _ _ _)
  · exact Or.inr (onContentStoreMiss_cs _ _ _ _)

theorem onIncomingData_cs (s : PitlessState κ) (inFace : Face) (data : Data) (nexthops : List Face) :
    (onIncomingData P s inFace data nexthops).cs = s.cs ∨
      (onIncomingData P s inFace data nexthops).cs = P.store.insert s.cs s.now data false := by
  unfold onIncomingData
  dsimp only
  split
  · exact Or.inl rfl
  · refine Or.inr ?_
    split
    · rfl
    · split
      · rfl
      · rw [onOutgoingData_cs]
        rfl

section Tables

variable {s s' : PitlessState κ}

/-- A packet changes neither the faces' ids nor the StrategyChoice table. -/
def SameTables (s s' : PitlessState κ) : Prop := s'.faceId = s.faceId ∧ s'.strategyChoice = s.strategyChoice

theorem onOutgoingData_tables (s : PitlessState κ) (data : Data) (outFace : Face) :
    SameTables s (onOutgoingData P s data outFace) := by
  unfold onOutgoingData
  split
  · exact ⟨rfl, rfl⟩
  · split <;> exact ⟨rfl, rfl⟩

theorem onContentStoreMiss_tables (s : PitlessState κ) (inFace : Face) (interest : Interest) (hops : List Face) :
    SameTables s (onContentStoreMiss s inFace interest hops) := by
  unfold onContentStoreMiss afterReceiveInterestPITless
  split
  · exact ⟨rfl, rfl⟩
  · unfold onOutgoingInterestPITless
    split <;> exact ⟨rfl, rfl⟩

theorem onIncomingInterest_tables {inFace : Face} {interest : Interest} {hops : List Face}
    (h : onIncomingInterest P s inFace interest hops = some s') : SameTables s s' := by
  rcases onIncomingInterest_cases h with ⟨-, rfl⟩ | ⟨-, ⟨data, -, rfl⟩ | ⟨-, rfl⟩⟩
  · exact ⟨rfl, rfl⟩
  · exact onOutgoingData_tables (lookedUp P s inFace interest) data inFace
  · exact onContentStoreMiss_tables (lookedUp P s inFace interest) inFace interest hops

theorem onIncomingData_tables (s : PitlessState κ) (inFace : Face) (data : Data) (hops : List Face) :
    SameTables s (onIncomingData P s inFace data hops) := by
  unfold onIncomingData
  dsimp only
  split
  · exact ⟨rfl, rfl⟩
  · split
    · exact ⟨rfl, rfl⟩
    · split
      · exact ⟨rfl, rfl⟩
      · exact onOutgoingData_tables _ _ _

/-- The strategies that can be triggered stay able to be. -/
theorem ready_step {event : Event} (h : ForwarderKind.pitless.Ready s.strategyChoice)
    (hstep : step P s event = some s') : ForwarderKind.pitless.Ready s'.strategyChoice := by
  cases event with
  | incomingInterest inFace interest hops =>
      rw [(onIncomingInterest_tables hstep).2]
      exact h
  | incomingData inFace data hops =>
      cases hstep
      rw [(onIncomingData_tables (P := P) s inFace data hops).2]
      exact h
  | strategyChoice op =>
      obtain ⟨T, hT, rfl⟩ := Option.map_eq_some_iff.mp hstep
      exact h.step hT
  | contentStoreTimer key =>
      cases hstep
      exact h
  | setFaceId face id =>
      cases hstep
      exact h
  | advanceClock duration =>
      cases hstep
      exact h

end Tables

section Builtin

variable {policy : CsPolicy π} {cityHash : Component → UInt64} {makeEntry : Name → UInt32 → UInt64}
  {isLocal : Face → Bool} {s s' : PitlessState (Cs π)}

theorem sorted_step (h : Cs.Sorted digest s.cs.table) {event : Event}
    (hstep : step (.builtin cityHash makeEntry digest getSuccessor matchesData isLocal policy) s event = some s') :
    Cs.Sorted digest s'.cs.table := by
  cases event with
  | incomingInterest inFace interest nexthops =>
      rcases onIncomingInterest_cs hstep with hcs | hcs
      · rw [hcs]
        exact h
      · rw [hcs]
        exact (Cs.find_table policy s.cs s.now interest).symm ▸ h
  | incomingData inFace data nexthops =>
      cases hstep
      rcases onIncomingData_cs s inFace data nexthops with hcs | hcs
      · rw [hcs]
        exact h
      · rw [hcs]
        exact h.insert policy s.now data false
  | contentStoreTimer key =>
      cases hstep
      exact h
  | strategyChoice op =>
      obtain ⟨T, -, rfl⟩ := Option.map_eq_some_iff.mp hstep
      exact h
  | setFaceId face id =>
      cases hstep
      exact h
  | advanceClock duration =>
      cases hstep
      exact h

end Builtin

/-- In every run, under every replacement policy, an Interest that concerns only Data cached under their content
gets the content it asks for. -/
theorem cache_correct (cityHash : Component → UInt64) (makeEntry : Name → UInt32 → UInt64)
    (digest : Data → List UInt8) (getSuccessor : Name → Name) (matchesData : MatchesData) (isLocal : Face → Bool)
    (policy : CsPolicy π) (faceId : Face → Option Nat) (policyState : π)
    (hmatches : ∀ data, matchesData data.name .empty data = true)
    (hstarts : ∀ name selectors data, matchesData name selectors data = true → name <+: data.fullName digest)
    (hsucc : ∀ n c, ∃ c' : Component, getSuccessor (n ++ [c]) = n ++ [c'] ∧ c < c' ∧
      c'.isImplicitSha256Digest = c.isImplicitSha256Digest) (s : PitlessState (Cs π))
    (hr : Reach (step (.builtin cityHash makeEntry digest getSuccessor matchesData isLocal policy)) anyStep
      (PitlessState.new faceId ⟨[], policyState⟩) s) (inFace : Face) (interest : Interest)
    (hok : CachedByContent digest (.builtin cityHash makeEntry digest getSuccessor matchesData isLocal policy) s
      inFace interest) :
    CacheCorrect (.builtin cityHash makeEntry digest getSuccessor matchesData isLocal policy) s inFace interest := by
  have hsorted : Cs.Sorted digest s.cs.table := by
    refine hr.invariant (I := fun s => Cs.Sorted digest s.cs.table) ?_ fun _ _ _ h _ hstep => sorted_step h hstep
    exact List.Pairwise.nil
  have hready : ForwarderKind.pitless.Ready s.strategyChoice :=
    hr.invariant (I := fun s => ForwarderKind.pitless.Ready s.strategyChoice) ForwarderKind.pitless.constructed_ready
      fun _ _ _ h _ hstep => ready_step h hstep
  have hunder : ∀ e ∈ s.cs.table, ¬ CrossesLocalhost (.builtin cityHash makeEntry digest getSuccessor matchesData
      isLocal policy) inFace interest.name → e.canSatisfy matchesData s.now interest = true →
        interest.name <+: e.data.name ∧ e.data.name = e.data.contentName := by
    intro e he hscope hsat
    obtain ⟨hname, hfull⟩ := hok.named hscope e he (Or.inl hsat)
    rw [CsEntry.canSatisfy, Bool.and_eq_true] at hsat
    exact ⟨(List.prefix_concat_iff.mp (hstarts _ _ _ hsat.1)).resolve_left hfull, hname⟩
  refine ⟨fun hempty hcached => ?_, fun data hanswer => ?_⟩
  · obtain ⟨hscope, hplain, hneeds⟩ := hok.asked hempty hcached
    obtain ⟨e, he, hcontent⟩ := hcached
    have hname : e.data.name = interest.name :=
      (hok.named hscope e he (Or.inr ⟨hempty, hcontent⟩)).1.trans hcontent
    have hsat : e.canSatisfy matchesData s.now interest = true := by
      rw [CsEntry.canSatisfy, hempty, ← hname, hmatches]
      rfl
    obtain ⟨found, hfound, hsat', hle, hfind⟩ := hsorted.find_least policy (by rw [hempty]; simp [Selectors.empty])
      he hsat (Cs.not_above_of_under (hname ▸ List.prefix_refl _)) (above_successor hname hplain hsucc)
    obtain ⟨hpref, hfoundName⟩ := hunder found hfound hscope hsat'
    have hfoundLe : found.data.name ≤ interest.name := hname ▸ Cs.name_le_of_key_le hle
    have hsame : found.data.name = interest.name := le_antisymm hfoundLe (Name.le_of_prefix hpref)
    have hanswer : AnsweredFromCache (.builtin cityHash makeEntry digest getSuccessor matchesData isLocal policy) s
        inFace interest found.data :=
      ⟨isViolatingLocalhost_eq_false_iff.mpr hscope, hfind⟩
    exact ⟨found.data, hanswer, hfoundName.symm.trans hsame, hanswer.sent hready hneeds⟩
  · obtain ⟨hscope, hfind⟩ := hanswer
    obtain ⟨e, he, rfl, hsat⟩ := Cs.find_some hfind
    obtain ⟨hpref, hname⟩ := hunder e he (isViolatingLocalhost_eq_false_iff.mp hscope) hsat
    rwa [← hname]

/-- The platform of the runs on fixed packets, with the successor of every name. -/
def cachePlatform : Platform (Cs Unit) :=
  .builtin NameTree.octetHash (fun _ _ => 0) (fun _ => [0]) successorName (matchesSuffix fun _ => [0])
    (fun _ => false) .keepAll

theorem matchesSuffix_empty (digest : Data → List UInt8) {name : Name} {data : Data}
    (h : name <+: data.fullName digest) : matchesSuffix digest name .empty data = true := by
  have hlen := h.length_le
  rw [Data.fullName, List.length_append, List.length_singleton] at hlen
  simp [matchesSuffix, Selectors.empty, h, hlen]

/-- A Data of a content, named by a route. -/
def routedData (route content : Name) : Data := { plainData route with supportingName := content }

/-- A Data for `/A` on the route `/B` is cached; an Interest for `/A` misses it, and one for `/B` gets it. -/
theorem cached_by_route :
    ∃ s, Reach (step cachePlatform) anyStep PitlessState.sample s ∧
      (∃ e ∈ s.cs.table, e.data.contentName = (plainInterest [.ofByte 65]).name) ∧
      (∀ data, ¬ AnsweredFromCache cachePlatform s 1 (plainInterest [.ofByte 65]) data) ∧
      AnsweredFromCache cachePlatform s 1 (plainInterest [.ofByte 66]) (routedData [.ofByte 66] [.ofByte 65]) ∧
      ¬ [.ofByte 66] <+: (routedData [.ofByte 66] [.ofByte 65]).contentName := by
  refine ⟨_, Reach.start.next (.incomingData 2 (routedData [.ofByte 66] [.ofByte 65]) [1]) trivial rfl,
    ⟨⟨routedData [.ofByte 66] [.ofByte 65], false, none⟩, by decide +kernel, rfl⟩, ?_, ?_, by decide⟩
  · rintro data ⟨-, hfind⟩
    have hmiss : (cachePlatform.store.find (onIncomingData cachePlatform PitlessState.sample 2
        (routedData [.ofByte 66] [.ofByte 65]) [1]).cs 0 (plainInterest [.ofByte 65])).2 = none := by decide +kernel
    exact absurd (hmiss.symm.trans hfind) (by simp)
  · exact ⟨by decide +kernel, by decide +kernel⟩

/-- A Data for `/A` whose route is `/A` too answers an Interest for `/A`. -/
theorem cache_correct_same_route :
    ∃ s, Reach (step cachePlatform) anyStep PitlessState.sample s ∧
      (∃ e ∈ s.cs.table, e.data.contentName = (plainInterest [.ofByte 65]).name) ∧
      CacheCorrect cachePlatform s 1 (plainInterest [.ofByte 65]) := by
  have hreach : Reach (step cachePlatform) anyStep PitlessState.sample (onIncomingData cachePlatform
      PitlessState.sample 2 (routedData [.ofByte 65] [.ofByte 65]) [1]) :=
    Reach.start.next (.incomingData 2 (routedData [.ofByte 65] [.ofByte 65]) [1]) trivial rfl
  have htable : (onIncomingData cachePlatform PitlessState.sample 2 (routedData [.ofByte 65] [.ofByte 65])
      [1]).cs.table = [⟨routedData [.ofByte 65] [.ofByte 65], false, none⟩] := by decide +kernel
  have hneeds : ¬ NeedsPitEntry ForwarderKind.pitless.constructed := by
    rintro ⟨strategy, htriggered, hname⟩
    have hpitless : (ForwarderKind.pitless.triggeredOnHit ForwarderKind.pitless.constructed).any (fun strategy =>
        decide (strategy.name ≠ NccStrategy.strategyName ∧ strategy.name ≠ AccessStrategy.strategyName)) = true := by
      decide +kernel
    rw [htriggered, Option.any_some, decide_eq_true_eq] at hpitless
    exact hname.elim hpitless.1 hpitless.2
  refine ⟨_, hreach, ⟨_, by rw [htable]; exact List.mem_singleton_self _, rfl⟩, ?_⟩
  refine cache_correct NameTree.octetHash (fun _ _ => 0) (fun _ => [0]) successorName (matchesSuffix fun _ => [0])
    (fun _ => false) .keepAll some () (fun _ => matchesSuffix_empty _ (List.prefix_append _ _))
    (fun _ _ _ h => prefix_of_matchesSuffix h) successorName_append _ hreach 1 (plainInterest [.ofByte 65])
    ⟨fun _ e he _ => ?_, fun _ _ => ⟨fun hcross => absurd hcross.2 (by decide), by decide, hneeds⟩⟩
  rw [htable, List.mem_singleton] at he
  rw [he]
  exact ⟨rfl, by decide⟩

end NfdPitless.PitlessForwarder
