import NfdPitless.TablesInvariant
import NfdPitless.NameTreeGrowth

/-! What the tables find from a PIT entry. Each table walks the parents of the PIT entry's name tree entry
to the first one that has an entry of the table; since the name tree entries from there to the root are
those of all prefixes of the name, this is the longest prefix match among the entries of the table. -/

namespace NfdPitless

variable {cityHash : Component → UInt64} {t : NameTree} {n : Name} {nte : Ref} {slot : Slot}

namespace Table

variable {α : Type} {T : Table α} {name : α → Name}

/-- The entry is in the table: entries that have been detached are not. -/
def Has (T : Table α) (r : Ref) (e : TableEntry α) : Prop := T.entries r = some e ∧ e.nameTreeEntry ≠ none

/-- The entry of the table with the longest name that is a prefix of `n` and satisfies `pred`; `none` if
there is no such entry. -/
def IsLongest (T : Table α) (name : α → Name) (n : Name) (pred : Ref → Bool) : Option Ref → Prop
  | none => ∀ r e, T.Has r e → name e.content <+: n → pred r = false
  | some r => ∃ e, T.Has r e ∧ name e.content <+: n ∧ pred r = true ∧
      ∀ r' e', T.Has r' e' → name e'.content <+: n → pred r' = true → r' ≠ r →
        (name e'.content).length < (name e.content).length

/-- An entry of the table is a candidate for the walk where it is attached. -/
theorem Attached.isCandidate (h : T.Attached slot t name) {r : Ref} {e : TableEntry α} {pred : Ref → Bool}
    (hr : T.Has r e) (hn : name e.content <+: n) (hpred : pred r = true) :
    ∃ x, t.attachedTo slot x = some r ∧
      t.IsCandidate n (fun ne => (ne.attached slot).any pred) (name e.content).length x := by
  obtain ⟨he, hne⟩ := hr
  obtain ⟨x, hx⟩ := Option.ne_none_iff_exists'.mp hne
  have hatt := h.attached he hx
  obtain ⟨ne, hstored, hname⟩ := NameTree.nameOf_eq_some.mp (h.named he hx)
  rw [NameTree.attachedTo, hstored, Option.bind_some] at hatt
  refine ⟨x, ?_, hn.length_le, ne, hstored, ?_, ?_⟩
  · rw [NameTree.attachedTo, hstored, Option.bind_some, hatt]
  · rw [hname]
    exact NameTree.eq_getPrefix_of_prefix hn
  · simp [hatt, hpred]

/-- The walk up the parents finds the longest prefix match among the entries of the table. -/
theorem Attached.isLongest (h : T.Attached slot t name) (hs : t.Sound cityHash) (hn : t.nameOf nte = some n)
    (pred : Ref → Bool) :
    T.IsLongest name n pred
      ((t.findLongestPrefixMatchFrom nte fun ne => (ne.attached slot).any pred).bind (t.attachedTo slot)) := by
  have hwalk := hs.findLongestPrefixMatchFrom hn fun ne => (ne.attached slot).any pred
  cases hfind : t.findLongestPrefixMatchFrom nte fun ne => (ne.attached slot).any pred with
  | none =>
      rw [hfind] at hwalk
      intro r e hr hpre
      by_contra hpred
      obtain ⟨x, -, hx⟩ := h.isCandidate hr hpre (by simpa using hpred)
      exact hwalk _ x hx
  | some x =>
      rw [hfind] at hwalk
      obtain ⟨j, hx, hmax⟩ := hwalk
      obtain ⟨hj, ne, hne, hname, hsel⟩ := hx
      obtain ⟨r, hatt, hpred⟩ := (Option.any_eq_true _ _).mp hsel
      have hattached : t.attachedTo slot x = some r := by rw [NameTree.attachedTo, hne, Option.bind_some, hatt]
      rw [Option.bind_some, hattached]
      obtain ⟨e, he, hptr⟩ := h.owned hattached
      have hcontent : name e.content = n.getPrefix j := by
        have hnamed := h.named he hptr
        rw [NameTree.nameOf_eq_some.mpr ⟨ne, hne, hname⟩] at hnamed
        exact (Option.some.inj hnamed).symm
      have hlen : (name e.content).length = j := by rw [hcontent, NameTree.getPrefix_length hj]
      refine ⟨e, ⟨he, by rw [hptr]; simp⟩, hcontent ▸ List.take_prefix j n, hpred, fun r' e' hr' hpre hpred' hrr => ?_⟩
      obtain ⟨x', hatt', hx'⟩ := h.isCandidate hr' hpre hpred'
      refine lt_of_le_of_ne (hlen ▸ hmax _ x' hx') fun heq => hrr ?_
      -- entries of the same length are attached to the same name tree entry
      have hsame : t.nameOf x' = t.nameOf x := by
        rw [hx'.nameOf, NameTree.nameOf_eq_some.mpr ⟨ne, hne, hname⟩, heq, hlen]
      obtain ⟨m, hm⟩ : ∃ m, t.nameOf x' = some m := ⟨_, hx'.nameOf⟩
      rw [hs.nameOf_inj hm (hsame ▸ hm), hattached] at hatt'
      exact (Option.some.inj hatt').symm

end Table

namespace Tables

variable {s : Tables}

/-- The lookups from a PIT entry are longest prefix matches: of the FIB, which finds the empty entry when
there is none, of the StrategyChoice table, which always finds one, and of the Measurements table. -/
structure MatchesFrom (s : Tables) (pitEntry : Ref) (n : Name) : Prop where
  fib : ∃ found, Fib.findLongestPrefixMatchOfPit s pitEntry = some found ∧
    s.fib.IsLongest FibContent.entryPrefix n (fun _ => true) found
  strategyChoice : ∃ found e, s.strategyChoice.entries found = some e ∧
    StrategyChoice.findEffectiveStrategyOfPit s pitEntry = some e.content.strategy ∧
    s.strategyChoice.IsLongest StrategyChoiceContent.entryPrefix n (fun _ => true) (some found)
  measurements : ∀ pred, ∃ found, Measurements.findLongestPrefixMatchOfPit s pitEntry pred = some found ∧
    s.measurements.IsLongest MeasurementsContent.name n pred found

theorem any_true {α : Type} (o : Option α) : (o.any fun _ => true) = o.isSome := by
  cases o <;> rfl

theorem Joint.fibMatchFrom (h : Joint cityHash s) (hn : s.nameTree.nameOf nte = some n) :
    s.fib.IsLongest FibContent.entryPrefix n (fun _ => true) (s.nameTree.fibMatchFrom nte) := by
  have hwalk := h.fib.isLongest h.tree.sound hn fun _ => true
  simp only [any_true] at hwalk
  rw [NameTree.fibMatchFrom]
  exact (h.tree.sound.matchFrom_shortcut Entry.fibEntry nte).symm ▸ hwalk

/-- The root has a strategy, so the walk cannot fail. -/
theorem Joint.findEffectiveStrategyFrom (h : Joint cityHash s) (hn : s.nameTree.nameOf nte = some n) :
    ∃ found, s.nameTree.findEffectiveStrategyFrom nte = some found ∧
      s.strategyChoice.IsLongest StrategyChoiceContent.entryPrefix n (fun _ => true) (some found) := by
  have hwalk := h.strategyChoice.isLongest h.tree.sound hn fun _ => true
  simp only [any_true] at hwalk
  have heq : s.nameTree.findEffectiveStrategyFrom nte =
      (s.nameTree.findLongestPrefixMatchFrom nte fun e => (e.attached .strategyChoice).isSome).bind
        (s.nameTree.attachedTo .strategyChoice) :=
    h.tree.sound.matchFrom_shortcut Entry.strategyChoiceEntry nte
  rw [← heq] at hwalk
  cases hfound : s.nameTree.findEffectiveStrategyFrom nte with
  | some found =>
      rw [hfound] at hwalk
      exact ⟨found, rfl, hwalk⟩
  | none =>
      rw [hfound] at hwalk
      obtain ⟨x, r, hx, hr⟩ := h.root
      obtain ⟨e, he, hptr⟩ := h.strategyChoice.owned hr
      have hname := h.strategyChoice.named he hptr
      rw [hx] at hname
      have hroot : e.content.entryPrefix = [] := (Option.some.inj hname).symm
      exact absurd (hwalk r e ⟨he, by rw [hptr]; simp⟩ (hroot ▸ List.nil_prefix)) (by simp)

theorem Joint.matchesFrom (h : Joint cityHash s) {r : Ref} {e : PitEntry} (he : s.pit.entries r = some e) :
    s.MatchesFrom r e.interest.name := by
  obtain ⟨nte, hnte, -⟩ := h.pit.attached he
  have hn := h.pitNamed he hnte
  have hptr : s.nameTreeEntryOfPit r = some nte := by rw [nameTreeEntryOfPit, he, Option.bind_some, hnte]
  refine ⟨⟨_, by rw [Fib.findLongestPrefixMatchOfPit, hptr, Option.map_some], h.fibMatchFrom hn⟩, ?_, fun pred => ?_⟩
  · obtain ⟨found, hfound, es, hhas, hlong⟩ := h.findEffectiveStrategyFrom hn
    refine ⟨found, es, hhas.1, ?_, es, hhas, hlong⟩
    rw [StrategyChoice.findEffectiveStrategyOfPit, hptr, Option.bind_some, hfound, Option.bind_some,
      StrategyChoice.strategyOf, hhas.1, Option.map_some]
  · refine ⟨_, by rw [Measurements.findLongestPrefixMatchOfPit, hptr, Option.map_some], ?_⟩
    exact h.measurements.isLongest h.tree.sound hn pred

/-- In every run whose resizes find the right buckets, what the tables find from any PIT entry is the
longest prefix match of its name. -/
theorem matches_from_pit_entries {nBuckets : Nat} (hpos : 0 < nBuckets) (defaultStrategy : Name)
    (hr : Reach (step cityHash) (HarmlessStep cityHash) (new cityHash nBuckets defaultStrategy) s) {r : Ref}
    {e : PitEntry} (he : s.pit.entries r = some e) : s.MatchesFrom r e.interest.name := by
  have hjoint : Joint cityHash s :=
    hr.invariant (new_joint hpos defaultStrategy) fun _ _ _ h hok hstep => h.step hok hstep
  exact hjoint.matchesFrom he

/-- A PIT entry for `/A/B` in tables with a route for `/A`. -/
theorem match_from_pit_entry_below_route : ∃ s e,
    Reach (step CityHash.ofShort) (HarmlessStep CityHash.ofShort) (new CityHash.ofShort 1024 [.ofByte 83]) s ∧
      s.pit.entries 0 = some e ∧ Fib.findLongestPrefixMatchOfPit s 0 = some (some 0) ∧
      s.MatchesFrom 0 e.interest.name := by
  have hroute : Reach (step CityHash.ofShort) (HarmlessStep CityHash.ofShort)
      (new CityHash.ofShort 1024 [.ofByte 83]) _ :=
    .next (.fibInsert [.ofByte 65]) .start (NameTree.harmless_lookup_of_two_pow (k := 10) rfl (by decide +kernel)) rfl
  have hpit := hroute.next (Op.pitInsert (plainInterest [.ofByte 65, .ofByte 66]))
    (NameTree.harmless_lookup_of_two_pow (k := 10) rfl (by decide +kernel)) rfl
  have hentry := matches_from_pit_entries (r := 0) (e := PitEntry.new (plainInterest [.ofByte 65, .ofByte 66]) 2)
    (by decide) [.ofByte 83] hpit rfl
  exact ⟨_, _, hpit, rfl, by decide +kernel, hentry⟩

end Tables

namespace NameTree

theorem ancestorsOrSelf_one {x p : Ref} {c : Component} (hx : t.nameOf x = some [c]) (hp : t.parentOf x = some p)
    (hroot : t.nameOf p = some []) (hnone : t.parentOf p = none) : t.ancestorsOrSelf x = [x, p] := by
  obtain ⟨e, he, hname⟩ := nameOf_eq_some.mp hx
  obtain ⟨ep, hep, -⟩ := nameOf_eq_some.mp hroot
  rw [parentOf, he, Option.bind_some] at hp
  rw [parentOf, hep, Option.bind_some] at hnone
  simp [ancestorsOrSelf, he, hname, parentChain, hp, hep, hnone]

theorem parentOf_setPitEntries (t : NameTree) (x : Ref) (f : List Ref → List Ref) :
    (t.setPitEntries x f).parentOf = t.parentOf := by
  funext y
  rw [parentOf, parentOf, NameTree.setPitEntries, entries_modifyEntry]
  split
  · rename_i hy
    rw [hy]
    cases t.entries x <;> rfl
  · rfl

/-- The entry that is made a second time in an overgrown table is below the root. -/
theorem Sound.ancestorsOrSelf_overgrown (h : t.Sound cityHash) {root : Ref} (hroot : t.nameOf root = some []) (m : Nat)
    (c : Component) (f : List Ref → List Ref) :
    (((t.resize m).added cityHash (some root) [c]).setPitEntries t.nextRef f).ancestorsOrSelf t.nextRef =
      [t.nextRef, root] := by
  have hlt := h.fresh hroot
  have hp : ∀ p, some root = some p → p ≠ (t.resize m).nextRef := by
    intro p hpar
    cases hpar
    exact hlt.ne
  have hroot' : (t.resize m).nameOf root = some [] := hroot
  have hparent : (t.resize m).parentOf root = none := h.parent_root hroot
  apply ancestorsOrSelf_one (c := c)
  · rw [Pit.nameOf_setPitEntries, added_nameOf cityHash hp]
    exact if_pos rfl
  · rw [parentOf_setPitEntries, added_parentOf cityHash hp]
    exact if_pos rfl
  · rw [Pit.nameOf_setPitEntries, added_nameOf cityHash hp, hroot']
    exact if_neg hlt.ne
  · rw [parentOf_setPitEntries, added_parentOf cityHash hp, hparent]
    exact if_neg hlt.ne

/-- What the FIB finds is attached along the walk. -/
theorem attachedTo_of_fibMatchFrom {r : Ref} (h : t.fibMatchFrom nte = some r) :
    ∃ x, (x = nte ∨ x ∈ t.ancestorsOrSelf nte) ∧ t.attachedTo .fib x = some r := by
  unfold fibMatchFrom at h
  split at h
  · rename_i entry hown
    cases h
    exact ⟨nte, Or.inl rfl, hown⟩
  · obtain ⟨x, hx, hr⟩ := Option.bind_eq_some_iff.mp h
    exact ⟨x, Or.inr (List.mem_of_find?_eq_some hx), hr⟩

end NameTree

namespace Tables

/-- Tables with a route for `/A`, after the numbers below `k` have been looked up. -/
structure Overgrowing (k : Nat) (s : Tables) : Prop where
  reach : Reach (step CityHash.ofShort) anyStep (new CityHash.ofShort (2 ^ 32) [.ofByte 83]) s
  growing : NameTree.Growing CityHash.ofShort (.ofByte 65) 0 1 k s.nameTree
  linked : s.pit.Linked
  route : s.fib.entries 0 = some ⟨⟨[.ofByte 65], []⟩, some 1⟩
  routeOnly : ∀ {x r}, s.nameTree.attachedTo .fib x = some r → x = 1

theorem exists_overgrowing_zero : ∃ s, Overgrowing 0 s := by
  have hharmless : (new CityHash.ofShort (2 ^ 32) [.ofByte 83]).nameTree.Harmless CityHash.ofShort
      (.lookup [.ofByte 65]) := NameTree.harmless_lookup_of_two_pow (k := 32) rfl (by decide +kernel)
  have hjoint := (new_joint (by decide) [.ofByte 83]).fibInsert hharmless rfl
  refine ⟨_, .next (.fibInsert [.ofByte 65]) .start trivial rfl, ?_, hjoint.pit, by decide +kernel, fun {x r} hr => ?_⟩
  · exact NameTree.growing_zero hjoint.tree.sound hjoint.tree.roomy (by decide +kernel) (by decide +kernel)
      (by decide +kernel) (by decide +kernel) (by decide +kernel)
  · obtain ⟨e, he, hptr⟩ := hjoint.fib.owned hr
    have hlt : r < 1 := Nat.lt_of_lt_of_eq (hjoint.fib.fresh he) (by decide +kernel)
    have hzero : r = 0 := Nat.lt_one_iff.mp hlt
    subst hzero
    have heq : some e = some ⟨⟨[.ofByte 65], []⟩, some 1⟩ := he.symm.trans (by decide +kernel)
    cases heq
    exact (Option.some.inj hptr).symm

/-- Looking up the next number changes the name tree only, and no attachment. -/
theorem Overgrowing.lookup {k : Nat} (h : Overgrowing k s) (n : Name) :
    Reach (step CityHash.ofShort) anyStep (new CityHash.ofShort (2 ^ 32) [.ofByte 83])
        (s.withTree (s.nameTree.lookup CityHash.ofShort n).1) ∧
      (s.withTree (s.nameTree.lookup CityHash.ofShort n).1).pit.Linked ∧
      ∀ {x r}, (s.nameTree.lookup CityHash.ofShort n).1.attachedTo .fib x = some r → x = 1 := by
  obtain ⟨hkeep, -⟩ := h.growing.sound.isFresh.lookup CityHash.ofShort n
  refine ⟨h.reach.next (Op.measurementsFindExactMatch n) trivial rfl, h.linked.of_keeps hkeep, fun hr => ?_⟩
  rw [NameTree.attachedTo_eq, hkeep.attachmentOf_eq, ← NameTree.attachedTo_eq] at hr
  exact h.routeOnly hr

theorem exists_overgrowing : ∀ k, 2 + k ≤ 2 ^ 31 → ∃ s, Overgrowing k s := by
  intro k
  induction k with
  | zero => exact fun _ => exists_overgrowing_zero
  | succ k ih =>
      intro hk
      obtain ⟨s, h⟩ := ih (by omega)
      obtain ⟨hreach, hlinked, honly⟩ := h.lookup [.ofNumber k]
      exact ⟨_, hreach, h.growing.next (by omega), hlinked, h.route, honly⟩

/-- One more number enlarges the table, and a PIT entry for `/A` is attached to a second entry of its name,
which has no route. -/
theorem Overgrowing.lost {k : Nat} (h : Overgrowing k s) (hk : 2 + k = 2 ^ 31) :
    ∃ s' r e, Reach (step CityHash.ofShort) anyStep (new CityHash.ofShort (2 ^ 32) [.ofByte 83]) s' ∧
      s'.pit.entries r = some e ∧ ¬ s'.MatchesFrom r e.interest.name := by
  obtain ⟨hreach, hlinked, honly⟩ := h.lookup [.ofNumber k]
  obtain ⟨hsound, hroot, hstored⟩ := h.growing.added (by omega)
  have hbit : 2 ^ 32 ≤ (computeHash CityHash.ofShort [.ofByte 65]).toNat % 2 ^ 33 := by decide +kernel
  have hitems : (s.nameTree.added CityHash.ofShort (some 0) [.ofNumber k]).nItems < 2 ^ 32 := by
    rw [NameTree.added_nItems, h.growing.nItems_eq, hk]
    decide
  have hlook := hsound.lookup_overgrown hroot hitems hbit
  have hwalk := hsound.ancestorsOrSelf_overgrown hroot (2 ^ 33) (.ofByte 65)
  have hgrown := h.growing.overgrown hk
  rw [← hgrown] at hlook hwalk
  have hfresh : ∀ e, (s.nameTree.lookup CityHash.ofShort [.ofNumber k]).1.entries
      (s.nameTree.added CityHash.ofShort (some 0) [.ofNumber k]).nextRef ≠ some e := by
    intro e he
    rw [hgrown] at he
    exact absurd (hsound.fresh (NameTree.nameOf_eq_some.mpr ⟨e, he, rfl⟩)) (lt_irrefl _)
  generalize (s.nameTree.lookup CityHash.ofShort [.ofNumber k]).1 = u at *
  generalize s.nameTree.added CityHash.ofShort (some 0) [.ofNumber k] = v at *
  obtain ⟨t, nte, heq, hkeep, -, hcases⟩ := hlinked.insert_cases CityHash.ofShort (plainInterest [.ofByte 65])
  have hnte : (t, some nte) = _ := heq.symm.trans hlook
  cases hnte
  rcases hcases with ⟨r, -, hmem, -⟩ | ⟨-, hrun⟩
  · -- nothing is attached to an entry that has just been made
    obtain ⟨e, he, -⟩ := NameTree.isSome_of_mem_pitEntriesOf hmem
    exact absurd he (hfresh e)
  · refine ⟨_, _, _, hreach.next (.pitInsert (plainInterest [.ofByte 65])) trivial
      (Option.map_eq_some_iff.mpr ⟨_, hrun, rfl⟩), (Pit.inserted_entries _ _ _ _ _).trans (if_pos rfl), fun hm => ?_⟩
    obtain ⟨found, hfound, hlong⟩ := hm.fib
    rw [Fib.findLongestPrefixMatchOfPit, nameTreeEntryOfPit, Pit.inserted_entries, if_pos rfl, Option.bind_some,
      PitEntry.new, Option.map_some, Option.some.injEq] at hfound
    cases found with
    | none =>
        have hroute := hlong 0 _ ⟨h.route, by simp⟩ List.prefix_rfl
        cases hroute
    | some r =>
        obtain ⟨x, hx, hr⟩ := NameTree.attachedTo_of_fibMatchFrom hfound
        have hsame := congrFun hkeep.attachmentOf_eq x
        have hone : x = 1 := by
          rw [nameTree, Pit.inserted, NameTree.attachedTo_setPitEntries, NameTree.attachedTo_eq, hsame,
            ← NameTree.attachedTo_eq] at hr
          exact honly hr
        have hlt := hsound.fresh hstored
        rw [nameTree, Pit.inserted, hwalk, hone] at hx
        simp only [List.mem_cons, List.not_mem_nil, or_false] at hx
        rcases hx with hx | hx | hx
        · exact absurd hx hlt.ne
        · exact absurd hx hlt.ne
        · cases hx

/-- In a table that has outgrown `2 ^ 32` buckets the route of a PIT entry's name is not found. -/
theorem route_lost_in_overgrown_table :
    ∃ s r e, Reach (step CityHash.ofShort) anyStep (new CityHash.ofShort (2 ^ 32) [.ofByte 83]) s ∧
      s.pit.entries r = some e ∧ ¬ s.MatchesFrom r e.interest.name := by
  obtain ⟨s, h⟩ := exists_overgrowing (2 ^ 31 - 2) (by decide)
  exact h.lost (by decide)

end Tables
end NfdPitless
