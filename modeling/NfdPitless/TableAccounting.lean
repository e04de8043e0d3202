import NfdPitless.TablesInvariant

/-! The counter of a table. Attaching an entry where none was counts up, detaching counts down whatever was attached,
and what other tables do to the name tree leaves the attachments of this one alone. What the tables attach does not
depend on the buckets of the name tree, so neither does this. -/

namespace NfdPitless

variable {cityHash : Component → UInt64} {t t' : NameTree} {n : Name} {nte : Ref} {slot slot' : Slot}

namespace NameTree

theorem nameOf_added (h : t.Fresh) {parent : Option Ref} (hparent : ∀ p, parent = some p → p < t.nextRef) {x : Ref}
    {m : Name} (hx : t.nameOf x = some m) : (t.added cityHash parent n).nameOf x = some m := by
  obtain ⟨e, he, -⟩ := nameOf_eq_some.mp hx
  have hlt : x < t.nextRef := h x (by rw [he]; rfl)
  rw [added_nameOf cityHash (fun p hp => (hparent p hp).ne), if_neg hlt.ne, hx]

/-- A lookup keeps every attachment under its name, whatever the buckets hold. -/
theorem Fresh.carries_lookup (h : t.Fresh) (cityHash : Component → UInt64) (n : Name) :
    Carries t (t.lookup cityHash n).1 where
  keeps := (h.lookup cityHash n).1
  nameOf_eq {x m} hx _ := by
    refine h.lookup_rule (I := fun u => u.nameOf x = some m) hx (fun u parent k hu hp hI => ?_) (fun u hI => ?_) n
    · rw [enlargeIfLoaded_nameOf]
      exact nameOf_added hu hp hI
    · rw [enlargeIfLoaded_nameOf]
      exact hI

theorem Fresh.carries_erase (h : t.Fresh) (r : Ref) : Carries t (t.eraseEntryIfEmpty r).1 where
  keeps := h.eraseEntryIfEmpty r
  nameOf_eq {x m} hx hstored := by
    obtain ⟨e, he⟩ := hstored
    have hname : (t.eraseEntryIfEmpty r).1.nameOf x = some e.entryPrefix := nameOf_eq_some.mpr ⟨e, he, rfl⟩
    have hold := Pit.nameOf_of_eraseUp _ hname
    rw [hname, ← hold, hx]

theorem insert_nameOf (cityHash : Component → UInt64) (t : NameTree) (n : Name) :
    (t.insert cityHash n).1.nameOf (t.insert cityHash n).2.1 = some n := by
  cases hfind : (t.buckets ((computeHash cityHash n).toNat % t.nBuckets)).find? fun r =>
      (t.entries r).any fun e => n == e.entryPrefix with
  | some r =>
      have hr := List.find?_some hfind
      obtain ⟨e, he, hname⟩ := (Option.any_eq_true _ _).mp hr
      simp only [NameTree.insert, hfind]
      exact nameOf_eq_some.mpr ⟨e, he, (beq_iff_eq.mp hname).symm⟩
  | none => simp [NameTree.insert, hfind, nameOf, Entry.new]

theorem nameOf_modifyEntry (t : NameTree) (r : Ref) {f : Entry → Entry}
    (hname : ∀ e, (f e).entryPrefix = e.entryPrefix) : (t.modifyEntry r f).nameOf = t.nameOf := by
  funext x
  rw [nameOf, nameOf, entries_modifyEntry]
  split
  · rename_i hx
    rw [hx]
    cases t.entries r with
    | none => rfl
    | some e => exact congrArg some (hname e)
  · rfl

theorem nameOf_linkNew (t : NameTree) (parent : Option Ref) (r : Ref) : (t.linkNew parent r).nameOf = t.nameOf := by
  have hcount : ({ t.modifyEntry r fun e => { e with parent } with nItems := t.nItems + 1 } : NameTree).nameOf =
      t.nameOf := nameOf_modifyEntry t r fun _ => rfl
  cases parent with
  | none => exact hcount
  | some p =>
      refine Eq.trans (b := NameTree.nameOf _) (nameOf_modifyEntry _ p
        (f := fun e => { e with children := e.children ++ [r] }) ?_) hcount
      exact fun _ => rfl

/-- A lookup yields an entry of the name it looks up. -/
theorem nameOf_of_lookup (hnte : (t.lookup cityHash n).2 = some nte) : (t.lookup cityHash n).1.nameOf nte = some n := by
  have hself : n.getPrefix n.length = n := List.take_length
  rw [lookup_eq_lookupAcc, lookupAcc_succ, hself] at hnte ⊢
  generalize t.lookupAcc cityHash n n.length = acc at hnte ⊢
  have hret : (acc.1.insert cityHash n).2.1 = nte := Option.some.inj hnte
  have hinsert := insert_nameOf cityHash acc.1 n
  rw [hret] at hinsert
  rw [lookupStep_eq, enlargeIfLoaded_nameOf, afterInsert]
  split
  · rw [nameOf_linkNew]
    exact hinsert
  · exact hinsert

/-- The name tree entries with an entry of a table attached. -/
def attachedSet (t : NameTree) (slot : Slot) : Set Ref := { x | (t.attachedTo slot x).isSome }

theorem mem_attachedSet {x : Ref} : x ∈ t.attachedSet slot ↔ (t.attachedTo slot x).isSome := Iff.rfl

/-- Where the attachments agree, so do the sets. -/
theorem attachedSet_congr (h : ∀ x, t'.attachedTo slot x = t.attachedTo slot x) :
    t'.attachedSet slot = t.attachedSet slot := by
  ext x
  rw [mem_attachedSet, mem_attachedSet, h]

theorem Fresh.attachedSet_finite (h : t.Fresh) (slot : Slot) : (t.attachedSet slot).Finite := by
  refine (Set.finite_Iio t.nextRef).subset fun x hx => ?_
  obtain ⟨r, hr⟩ := Option.isSome_iff_exists.mp hx
  obtain ⟨e, he⟩ := stored_of_attachedTo hr
  exact h x (by rw [he]; rfl)

theorem Fresh.modifyEntry (h : t.Fresh) (r : Ref) (f : Entry → Entry) : (t.modifyEntry r f).Fresh := by
  intro x hx
  rw [modifyEntry_nextRef]
  rw [entries_modifyEntry] at hx
  refine h x ?_
  split at hx
  · rename_i heq
    rw [heq]
    simpa using hx
  · exact hx

end NameTree

namespace Table

variable {α : Type} {T : Table α} {name : α → Name}

/-- The entries of a table are attached where they point to, and its counter is their number. -/
structure Accounted (T : Table α) (slot : Slot) (t : NameTree) (name : α → Name) : Prop where
  fresh : t.Fresh
  attached : T.Attached slot t name
  nItems_eq : T.nItems = (t.attachedSet slot).ncard

theorem empty_accounted (slot : Slot) (nBuckets : Nat) (name : α → Name) :
    (empty : Table α).Accounted slot (.new nBuckets) name where
  fresh := NameTree.new_fresh nBuckets
  attached := empty_attached _ _ _
  nItems_eq := by
    have hempty : (NameTree.new nBuckets).attachedSet slot = ∅ := by
      ext x
      simp [NameTree.attachedSet, NameTree.attachedTo, NameTree.new]
    rw [hempty, Set.ncard_empty]
    rfl

theorem Accounted.carried (h : T.Accounted slot t name) (hc : NameTree.Carries t t') : T.Accounted slot t' name where
  fresh := hc.keeps.fresh
  attached := h.attached.carried hc
  nItems_eq := by
    rw [NameTree.attachedSet_congr (hc.attachedTo_eq slot)]
    exact h.nItems_eq

theorem Accounted.lookup (h : T.Accounted slot t name) (cityHash : Component → UInt64) (n : Name) :
    T.Accounted slot (t.lookup cityHash n).1 name := h.carried (h.fresh.carries_lookup cityHash n)

theorem Accounted.setAttached_other (h : T.Accounted slot t name) (hne : slot ≠ slot') (x : Ref) (entry : Option Ref) :
    T.Accounted slot (t.setAttached slot' x entry) name where
  fresh := h.fresh.modifyEntry x _
  attached := h.attached.setAttached_other hne x entry
  nItems_eq := by
    have hsame : ∀ y, (t.setAttached slot' x entry).attachedTo slot y = t.attachedTo slot y := by
      intro y
      rw [NameTree.attachedTo_setAttached, if_neg fun hy => hne hy.2]
    rw [NameTree.attachedSet_congr hsame]
    exact h.nItems_eq

/-- Another table detaches. -/
theorem Accounted.detach_other (h : T.Accounted slot t name) (hne : slot ≠ slot') (x : Ref) :
    T.Accounted slot ((t.setAttached slot' x none).eraseEntryIfEmpty x).1 name := by
  have hset := h.setAttached_other hne x none
  exact hset.carried (hset.fresh.carries_erase x)

theorem Accounted.setPitEntries (h : T.Accounted slot t name) (x : Ref) (f : List Ref → List Ref) :
    T.Accounted slot (t.setPitEntries x f) name where
  fresh := h.fresh.setPitEntries x f
  attached := h.attached.setPitEntries x f
  nItems_eq := by
    rw [NameTree.attachedSet_congr (NameTree.attachedTo_setPitEntries t slot x f)]
    exact h.nItems_eq

/-- The contents of an entry change, but not its name. -/
theorem Accounted.modify (h : T.Accounted slot t name) (r : Ref) {f : TableEntry α → TableEntry α}
    (hptr : ∀ e, (f e).nameTreeEntry = e.nameTreeEntry) (hname : ∀ e, name (f e).content = name e.content) :
    (T.modify r f).Accounted slot t name where
  fresh := h.fresh
  attached := h.attached.modify r hptr hname
  nItems_eq := h.nItems_eq

theorem attachNew_nItems (hfree : t.attachedTo slot nte = none) (content : α) :
    (T.attachNew slot t nte content).2.nItems = T.nItems + 1 := by
  simp only [attachNew, attach, hfree, Option.elim, setNameTreeEntry, modify]

theorem Accounted.attachNew (h : T.Accounted slot t name) {content : α} (hname : t.nameOf nte = some (name content))
    (hfree : t.attachedTo slot nte = none) :
    (T.attachNew slot t nte content).2.Accounted slot (T.attachNew slot t nte content).1 name where
  fresh := h.fresh.modifyEntry nte _
  attached := h.attached.attachNew hfree hname
  nItems_eq := by
    obtain ⟨e, he, -⟩ := NameTree.nameOf_eq_some.mp hname
    have hset : (T.attachNew slot t nte content).1.attachedSet slot = Insert.insert nte (t.attachedSet slot) := by
      ext x
      rw [attachNew_tree, Set.mem_insert_iff, NameTree.mem_attachedSet, NameTree.mem_attachedSet,
        NameTree.attachedTo_setAttached]
      by_cases hx : x = nte
      · simp [hx, he]
      · simp [hx]
    have hnot : nte ∉ t.attachedSet slot := by
      rw [NameTree.mem_attachedSet, hfree]
      exact Bool.false_ne_true
    rw [attachNew_nItems hfree, hset, Set.ncard_insert_of_notMem hnot (h.fresh.attachedSet_finite slot), h.nItems_eq]

theorem attachedSet_detached (t : NameTree) (slot : Slot) (nte : Ref) :
    (t.setAttached slot nte none).attachedSet slot = t.attachedSet slot \ {nte} := by
  ext x
  rw [Set.mem_sdiff, Set.mem_singleton_iff, NameTree.mem_attachedSet, NameTree.mem_attachedSet,
    NameTree.attachedTo_setAttached]
  by_cases hx : x = nte
  · cases t.entries nte <;> simp [hx]
  · simp [hx]

theorem detach_nItems (t : NameTree) (T : Table α) (slot : Slot) (nte : Ref) :
    (T.detach slot t nte).2.nItems = countDown T.nItems := by
  simp only [detach, attach, Option.elim]
  cases t.attachedTo slot nte <;> rfl

/-- What is attached after a detachment. -/
theorem Accounted.detach_attachedSet (h : T.Accounted slot t name) (nte : Ref) :
    (T.detach slot t nte).1.attachedSet slot = t.attachedSet slot \ {nte} := by
  have hfresh : (t.setAttached slot nte none).Fresh := h.fresh.modifyEntry nte _
  rw [detach_tree, ← attachedSet_detached]
  exact NameTree.attachedSet_congr ((hfresh.carries_erase nte).attachedTo_eq slot)

/-- Counting down is right if something was attached. -/
theorem Accounted.detach_count_iff (h : T.Accounted slot t name) (nte : Ref) :
    (T.detach slot t nte).2.nItems = ((T.detach slot t nte).1.attachedSet slot).ncard ↔
      (t.attachedTo slot nte).isSome := by
  have hfinite := h.fresh.attachedSet_finite slot
  rw [detach_nItems, h.detach_attachedSet, h.nItems_eq]
  constructor
  · intro hcount
    by_contra hnone
    have hnot : nte ∉ t.attachedSet slot := hnone
    rw [Set.sdiff_singleton_eq_self hnot, countDown] at hcount
    split at hcount <;> omega
  · intro hsome
    have hmem : nte ∈ t.attachedSet slot := hsome
    have hpos : 0 < (t.attachedSet slot).ncard := (Set.ncard_pos hfinite).mpr ⟨nte, hmem⟩
    rw [Set.ncard_sdiff_singleton_of_mem hmem, countDown, if_neg hpos.ne']

theorem Accounted.detach (h : T.Accounted slot t name) (hsome : (t.attachedTo slot nte).isSome) :
    (T.detach slot t nte).2.Accounted slot (T.detach slot t nte).1 name where
  fresh := by
    have hfresh : (t.setAttached slot nte none).Fresh := h.fresh.modifyEntry nte _
    exact (hfresh.carries_erase nte).keeps.fresh
  attached := by
    have hfresh : (t.setAttached slot nte none).Fresh := h.fresh.modifyEntry nte _
    have hdetached := (h.attached.detached nte).carried (hfresh.carries_erase nte)
    exact ⟨hdetached.fresh, hdetached.attached, hdetached.owned, hdetached.named⟩
  nItems_eq := (h.detach_count_iff nte).mpr hsome

end Table

/-! ### What other tables do -/

namespace Tables

variable {α : Type} {T : Table α} {name : α → Name} {s s' : Tables}

theorem accounted_pitInsert (h : T.Accounted slot s.nameTree name) {interest : Interest} {result}
    (hins : s.pit.insert cityHash interest = some result) : T.Accounted slot result.1.nameTree name := by
  have hlook : T.Accounted slot (s.nameTree.lookup cityHash interest.name).1 name := h.lookup cityHash interest.name
  unfold Pit.insert at hins
  dsimp only at hins
  split at hins
  · cases hins
  · rename_i nte _
    split at hins
    · cases hins
      exact hlook
    · cases hins
      exact hlook.setPitEntries nte fun entries => entries ++ [s.pit.nextRef]

theorem accounted_pitErase (h : T.Accounted slot s.nameTree name) {r : Ref} {p : Pit}
    (herase : s.pit.erase r = some p) :
    T.Accounted slot p.nameTree name := by
  unfold Pit.erase at herase
  split at herase
  · cases herase
  · rename_i nte _
    split at herase
    · cases herase
      have hset := h.setPitEntries nte fun entries => Lists.swapPop entries r
      exact hset.carried (hset.fresh.carries_erase nte)
    · cases herase

theorem accounted_fibInsert (h : T.Accounted slot s.nameTree name) (hne : slot ≠ .fib) {result}
    (hstep : Fib.insert cityHash s n = some result) : T.Accounted slot result.1.nameTree name := by
  obtain ⟨nte, -, rfl⟩ := Option.map_eq_some_iff.mp hstep
  have hlook : T.Accounted slot (s.nameTree.lookup cityHash n).1 name := h.lookup cityHash n
  split
  · exact hlook
  · exact hlook.setAttached_other hne nte _

theorem accounted_fibEraseEntry (h : T.Accounted slot s.nameTree name) (hne : slot ≠ .fib) (r : Ref) :
    T.Accounted slot (Fib.eraseEntry s r).nameTree name := by
  unfold Fib.eraseEntry
  cases s.fib.nameTreeEntryOf r with
  | none => exact h
  | some nte => exact h.detach_other hne nte

theorem accounted_fibEraseAll (hne : slot ≠ .fib) (rs : List Ref) : ∀ {s : Tables}, T.Accounted slot s.nameTree name →
    T.Accounted slot (rs.foldl Fib.eraseEntry s).nameTree name := by
  induction rs with
  | nil => exact fun h => h
  | cons r rs ih => exact fun h => ih (accounted_fibEraseEntry h hne r)

theorem accounted_fibErase (h : T.Accounted slot s.nameTree name) (hne : slot ≠ .fib) (n : Name) :
    T.Accounted slot (Fib.erase cityHash s n).nameTree name := by
  unfold Fib.erase
  cases s.nameTree.findExactMatch cityHash n with
  | none => exact h
  | some nte => exact h.detach_other hne nte

theorem accounted_getAt (h : T.Accounted slot s.nameTree name) (hne : slot ≠ .measurements) {result}
    (hstep : Measurements.getAt s nte = some result) : T.Accounted slot result.1.nameTree name := by
  obtain ⟨e, he, rfl⟩ := Option.map_eq_some_iff.mp hstep
  split
  · exact h
  · exact h.setAttached_other hne nte _

theorem accounted_cleanup (h : T.Accounted slot s.nameTree name) (hne : slot ≠ .measurements) (r : Ref) :
    T.Accounted slot (Measurements.cleanup s r).nameTree name := by
  unfold Measurements.cleanup
  cases s.measurements.nameTreeEntryOf r with
  | none => exact h
  | some nte => exact h.detach_other hne nte

theorem accounted_strategyInsert (h : T.Accounted slot s.nameTree name) (hne : slot ≠ .strategyChoice)
    {strategyName : Name} {result} (hstep : StrategyChoice.insert cityHash s n strategyName = some result) :
    T.Accounted slot result.1.nameTree name := by
  have hlook : T.Accounted slot (s.nameTree.lookup cityHash n).1 name := h.lookup cityHash n
  unfold StrategyChoice.insert at hstep
  split at hstep
  · cases hstep
    exact h
  · obtain ⟨nte, -, hrun⟩ := Option.bind_eq_some_iff.mp hstep
    split at hrun
    · cases hrun
      exact hlook
    · split at hrun
      · cases hrun
      · cases hrun
        exact hlook.setAttached_other hne nte _

theorem accounted_strategyErase (h : T.Accounted slot s.nameTree name) (hne : slot ≠ .strategyChoice)
    (hstep : StrategyChoice.erase cityHash s n = some s') : T.Accounted slot s'.nameTree name := by
  unfold StrategyChoice.erase at hstep
  split at hstep
  · cases hstep
  · split at hstep
    · cases hstep
      exact h
    · rename_i nte _
      split at hstep
      · cases hstep
        exact h
      · split at hstep
        · cases hstep
        · cases hstep
          exact h.detach_other hne nte

theorem strategyInsert_others {strategyName : Name} {result}
    (hstep : StrategyChoice.insert cityHash s n strategyName = some result) :
    result.1.fib = s.fib ∧ result.1.measurements = s.measurements := by
  unfold StrategyChoice.insert at hstep
  split at hstep
  · cases hstep
    exact ⟨rfl, rfl⟩
  · obtain ⟨nte, -, hrun⟩ := Option.bind_eq_some_iff.mp hstep
    split at hrun
    · cases hrun
      exact ⟨rfl, rfl⟩
    · split at hrun
      · cases hrun
      · cases hrun
        exact ⟨rfl, rfl⟩

theorem strategyErase_others (hstep : StrategyChoice.erase cityHash s n = some s') :
    s'.fib = s.fib ∧ s'.measurements = s.measurements := by
  unfold StrategyChoice.erase at hstep
  split at hstep
  · cases hstep
  · split at hstep
    · cases hstep
      exact ⟨rfl, rfl⟩
    · split at hstep
      · cases hstep
        exact ⟨rfl, rfl⟩
      · split at hstep
        · cases hstep
        · cases hstep
          exact ⟨rfl, rfl⟩

/-- The constructor of the StrategyChoice table. -/
theorem accounted_setDefaultStrategy (h : T.Accounted slot s.nameTree name) (hne : slot ≠ .strategyChoice)
    (cityHash : Component → UInt64) (strategy : Name) :
    T.Accounted slot (StrategyChoice.setDefaultStrategy cityHash s strategy).nameTree name := by
  have hinstall : (StrategyChoice.install s strategy).1.nameTree = s.nameTree := by
    unfold StrategyChoice.install
    split <;> rfl
  unfold StrategyChoice.setDefaultStrategy
  dsimp only
  rw [hinstall]
  cases (s.nameTree.lookup cityHash []).2 with
  | none => exact hinstall ▸ h
  | some nte => exact (h.lookup cityHash []).setAttached_other hne nte _

end Tables
end NfdPitless
