import NfdPitless.TableAccounting

/-! The counter of the FIB (`daemon/table/fib.cpp`). An insertion counts an entry that it attaches, and an
erasure counts down whatever was attached, so `size` is the number of attached entries as long as nothing is
erased by a name that has a name tree entry without a FIB entry. -/

namespace NfdPitless

namespace Tables

variable {cityHash : Component → UInt64} {s s' : Tables} {n : Name} {nte : Ref}

/-- The size of the FIB is the number of FIB entries attached to the name tree. -/
def FibCounted (s : Tables) : Prop := s.fib.nItems = (s.nameTree.attachedSet .fib).ncard

/-- The name tree entry of a name, if there is one, has a FIB entry. -/
def HasFibEntryIfStored (cityHash : Component → UInt64) (s : Tables) (n : Name) : Prop :=
  ∀ nte, s.nameTree.findExactMatch cityHash n = some nte → (s.nameTree.attachedTo .fib nte).isSome

/-- A FIB entry is erased by its name only where there is one, or no name tree entry either. -/
def ErasesFibEntry (cityHash : Component → UInt64) (s : Tables) : Op → Prop
  | .fibErase entryPrefix => s.HasFibEntryIfStored cityHash entryPrefix
  | _ => True

/-- The FIB's part of the tables, which another table changes only in the name tree. -/
abbrev FibAccounted (s : Tables) : Prop := s.fib.Accounted .fib s.nameTree FibContent.entryPrefix

/-- What another table leaves alone. -/
theorem FibAccounted.of_tree (hfib : s'.fib = s.fib)
    (h : s.fib.Accounted .fib s'.nameTree FibContent.entryPrefix) : s'.FibAccounted := by
  rw [FibAccounted, hfib]
  exact h

theorem FibAccounted.fibInsert (h : s.FibAccounted) {result} (hstep : Fib.insert cityHash s n = some result) :
    result.1.FibAccounted := by
  obtain ⟨nte, hnte, rfl⟩ := Option.map_eq_some_iff.mp hstep
  have hlook := h.lookup cityHash n
  cases hatt : (s.nameTree.lookup cityHash n).1.attachedTo .fib nte with
  | some r => exact hlook
  | none =>
      have hname : (s.nameTree.lookup cityHash n).1.nameOf nte = some (FibContent.mk n []).entryPrefix :=
        NameTree.nameOf_of_lookup hnte
      exact hlook.attachNew hname hatt

theorem FibAccounted.eraseEntry (h : s.FibAccounted) (r : Ref) : (Fib.eraseEntry s r).FibAccounted := by
  unfold Fib.eraseEntry
  cases hnte : s.fib.nameTreeEntryOf r with
  | none => exact h
  | some nte =>
      obtain ⟨e, he, hptr⟩ := Option.bind_eq_some_iff.mp hnte
      have hatt := h.attached.attached he hptr
      exact h.detach (by rw [hatt]; rfl)

theorem FibAccounted.eraseAll (h : s.FibAccounted) (rs : List Ref) : (rs.foldl Fib.eraseEntry s).FibAccounted := by
  induction rs generalizing s with
  | nil => exact h
  | cons r rs ih => exact ih (h.eraseEntry r)

theorem FibAccounted.removeNextHopRounds (h : s.FibAccounted) (face : Face) (rs done : List Ref) :
    (rs.foldl (Fib.removeNextHopRound face) (s, done)).1.FibAccounted := by
  induction rs generalizing s done with
  | nil => exact h
  | cons r rs ih =>
      have hround : (Fib.removeNextHop s face r).FibAccounted := h.modify r (fun _ => rfl) fun _ => rfl
      exact ih hround _

theorem FibAccounted.getAt (h : s.FibAccounted) {result} (hstep : Measurements.getAt s nte = some result) :
    result.1.FibAccounted := by
  have hfib : result.1.fib = s.fib := by
    obtain ⟨e, he, rfl⟩ := Option.map_eq_some_iff.mp hstep
    split <;> rfl
  exact of_tree hfib (accounted_getAt h (by decide) hstep)

theorem FibAccounted.cleanup (h : s.FibAccounted) (r : Ref) : (Measurements.cleanup s r).FibAccounted := by
  have hfib : (Measurements.cleanup s r).fib = s.fib := by
    unfold Measurements.cleanup
    cases s.measurements.nameTreeEntryOf r <;> rfl
  exact of_tree hfib (accounted_cleanup h (by decide) r)

theorem FibAccounted.strategyInsert (h : s.FibAccounted) {strategyName : Name} {result}
    (hstep : StrategyChoice.insert cityHash s n strategyName = some result) : result.1.FibAccounted :=
  of_tree (strategyInsert_others hstep).1 (accounted_strategyInsert h (by decide) hstep)

theorem FibAccounted.strategyErase (h : s.FibAccounted) (hstep : StrategyChoice.erase cityHash s n = some s') :
    s'.FibAccounted :=
  of_tree (strategyErase_others hstep).1 (accounted_strategyErase h (by decide) hstep)

theorem new_fibAccounted (cityHash : Component → UInt64) (nBuckets : Nat) (defaultStrategy : Name) :
    (new cityHash nBuckets defaultStrategy).FibAccounted := by
  have hfib : (new cityHash nBuckets defaultStrategy).fib = .empty := by
    unfold new StrategyChoice.setDefaultStrategy StrategyChoice.install
    split <;> dsimp only <;> cases NameTree.lookup _ _ _ |>.2 <;> rfl
  have hempty : (Table.empty : Table FibContent).Accounted .fib (empty nBuckets).nameTree FibContent.entryPrefix :=
    Table.empty_accounted .fib nBuckets _
  rw [FibAccounted, hfib]
  exact accounted_setDefaultStrategy hempty (by decide) cityHash defaultStrategy

/-- One operation. -/
theorem FibAccounted.step (h : s.FibAccounted) {op : Op} (hok : ErasesFibEntry cityHash s op)
    (hstep : step cityHash s op = some s') : s'.FibAccounted := by
  cases op with
  | fibInsert entryPrefix =>
      obtain ⟨result, hrun, rfl⟩ := Option.map_eq_some_iff.mp hstep
      exact h.fibInsert hrun
  | fibErase entryPrefix =>
      cases hstep
      unfold Fib.erase
      cases hfind : s.nameTree.findExactMatch cityHash entryPrefix with
      | none => exact h
      | some nte => exact h.detach (hok nte hfind)
  | fibEraseEntry r =>
      cases hstep
      exact h.eraseEntry r
  | fibAddNextHop r face cost =>
      cases hstep
      exact h.modify r (fun _ => rfl) fun _ => rfl
  | fibRemoveNextHop r face =>
      cases hstep
      exact h.modify r (fun _ => rfl) fun _ => rfl
  | fibRemoveNextHopFromAllEntries face =>
      obtain ⟨entries, -, rfl⟩ := Option.map_eq_some_iff.mp hstep
      exact (h.removeNextHopRounds face entries []).eraseAll _
  | pitInsert interest =>
      obtain ⟨result, hrun, rfl⟩ := Option.map_eq_some_iff.mp hstep
      exact accounted_pitInsert h hrun
  | pitErase r =>
      obtain ⟨p, hrun, rfl⟩ := Option.map_eq_some_iff.mp hstep
      exact accounted_pitErase h hrun
  | measurementsGet name =>
      obtain ⟨result, hrun, rfl⟩ := Option.map_eq_some_iff.mp hstep
      obtain ⟨nte, -, hget⟩ := Option.bind_eq_some_iff.mp hrun
      exact getAt (s := s.withTree (s.nameTree.lookup cityHash name).1) (h.lookup cityHash name) hget
  | measurementsGetOfFib r =>
      obtain ⟨result, hrun, rfl⟩ := Option.map_eq_some_iff.mp hstep
      obtain ⟨nte, -, hget⟩ := Option.bind_eq_some_iff.mp hrun
      exact h.getAt hget
  | measurementsGetOfPit r =>
      obtain ⟨result, hrun, rfl⟩ := Option.map_eq_some_iff.mp hstep
      obtain ⟨nte, -, hget⟩ := Option.bind_eq_some_iff.mp hrun
      exact h.getAt hget
  | measurementsGetParent r =>
      obtain ⟨result, hrun, rfl⟩ := Option.map_eq_some_iff.mp hstep
      obtain ⟨e, -, hrun⟩ := Option.bind_eq_some_iff.mp hrun
      split at hrun
      · cases hrun
        exact h
      · obtain ⟨nte, -, hget⟩ := Option.bind_eq_some_iff.mp hrun
        obtain ⟨got, hgot, rfl⟩ := Option.map_eq_some_iff.mp hget
        exact h.getAt hgot
  | measurementsFindExactMatch name =>
      cases hstep
      exact h.lookup cityHash name
  | measurementsExtendLifetime r lifetime =>
      cases hstep
      unfold Measurements.extendLifetime
      dsimp only
      split <;> exact h
  | measurementsCleanup r =>
      simp only [Tables.step] at hstep
      split at hstep
      · cases hstep
      · split at hstep
        · cases hstep
          exact h.cleanup r
        · cases hstep
  | strategyInstall strategyName =>
      cases hstep
      unfold StrategyChoice.install
      split <;> exact h
  | strategyInsert entryPrefix strategyName =>
      obtain ⟨result, hrun, rfl⟩ := Option.map_eq_some_iff.mp hstep
      exact h.strategyInsert hrun
  | strategyErase entryPrefix => exact h.strategyErase hstep
  | find =>
      cases hstep
      exact h
  | advanceClock duration =>
      cases hstep
      exact h

/-- Erasing by a name counts right if and only if the name's name tree entry, if there is one, has a FIB
entry. -/
theorem FibAccounted.erase_count_iff (h : s.FibAccounted) (n : Name) :
    (Fib.erase cityHash s n).FibCounted ↔ s.HasFibEntryIfStored cityHash n := by
  unfold Fib.erase HasFibEntryIfStored
  cases hfind : s.nameTree.findExactMatch cityHash n with
  | none => exact ⟨fun _ _ hnte => absurd hnte (Option.some_ne_none _).symm, fun _ => h.nItems_eq⟩
  | some nte =>
      refine (h.detach_count_iff nte).trans ⟨fun hsome nte' hnte' => ?_, fun hall => hall nte rfl⟩
      cases hnte'
      exact hsome

/-- Erasing a name without FIB entry does nothing under the same condition. -/
theorem FibAccounted.erase_absent_iff (h : s.FibAccounted) {n : Name}
    (habsent : Fib.findExactMatch cityHash s n = none) :
    Fib.erase cityHash s n = s ↔ s.HasFibEntryIfStored cityHash n := by
  constructor
  · intro hsame
    rw [← h.erase_count_iff, hsame]
    exact h.nItems_eq
  · intro hok
    unfold Fib.erase
    cases hfind : s.nameTree.findExactMatch cityHash n with
    | none => rfl
    | some nte =>
        have hsome := hok nte hfind
        rw [Fib.findExactMatch, hfind, Option.bind_some] at habsent
        rw [habsent] at hsome
        cases hsome

/-- In every run that erases by a name only where the name's name tree entry, if there is one, has a FIB entry,
the size of the FIB is the number of FIB entries attached to the name tree. In such a state an erasure by any
name counts right, and does nothing where there is no FIB entry, exactly under this condition. -/
theorem fib_counted {nBuckets : Nat} {defaultStrategy : Name}
    (hr : Reach (step cityHash) (ErasesFibEntry cityHash) (new cityHash nBuckets defaultStrategy) s) :
    s.FibCounted ∧
    (∀ n, (Fib.erase cityHash s n).FibCounted ↔ s.HasFibEntryIfStored cityHash n) ∧
    ∀ n, Fib.findExactMatch cityHash s n = none →
      (Fib.erase cityHash s n = s ↔ s.HasFibEntryIfStored cityHash n) := by
  have h : s.FibAccounted :=
    hr.invariant (I := FibAccounted) (new_fibAccounted cityHash nBuckets defaultStrategy)
      fun _ _ _ h hok hstep => h.step hok hstep
  exact ⟨h.nItems_eq, h.erase_count_iff, fun n => h.erase_absent_iff⟩

/-- The FIB has `/A/B`, and the name tree an entry for `/A` too. -/
theorem fib_counted_below : ∃ s,
    Reach (step NameTree.octetHash) (ErasesFibEntry NameTree.octetHash) (new NameTree.octetHash 1024 [.ofByte 83]) s ∧
      s.FibCounted ∧ s.fib.nItems = 1 ∧ ¬ s.HasFibEntryIfStored NameTree.octetHash [.ofByte 65] := by
  have hr : Reach (step NameTree.octetHash) (ErasesFibEntry NameTree.octetHash)
    (new NameTree.octetHash 1024 [.ofByte 83]) _ :=
    .next (.fibInsert [.ofByte 65, .ofByte 66]) .start trivial rfl
  refine ⟨_, hr, (fib_counted hr).1, by decide +kernel, fun h => ?_⟩
  exact absurd (h 1 (by decide +kernel)) (by decide +kernel)

/-- Erasing `/A` when the FIB has `/A/B` only. -/
theorem erase_absent_counted_down : ∃ s,
    Reach (step NameTree.octetHash) anyStep (new NameTree.octetHash 1024 [.ofByte 83]) s ∧
      Fib.findExactMatch NameTree.octetHash s [.ofByte 65, .ofByte 66] = some 0 ∧ s.fib.nItems = 0 ∧
      ¬ s.FibCounted := by
  have hinsert : Reach (step NameTree.octetHash) anyStep (new NameTree.octetHash 1024 [.ofByte 83]) _ :=
    .next (.fibInsert [.ofByte 65, .ofByte 66]) .start trivial rfl
  have herase := hinsert.next (Op.fibErase [.ofByte 65]) trivial rfl
  have hrun : Fib.insert NameTree.octetHash (new NameTree.octetHash 1024 [.ofByte 83]) [.ofByte 65, .ofByte 66] =
    some _ := rfl
  have hinserted := (new_fibAccounted NameTree.octetHash 1024 [.ofByte 83]).fibInsert hrun
  refine ⟨_, herase, by decide +kernel, by decide +kernel, fun hcount => ?_⟩
  exact absurd ((hinserted.erase_count_iff _).mp hcount 1 (by decide +kernel)) (by decide +kernel)

end Tables
end NfdPitless
