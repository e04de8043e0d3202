import NfdPitless.Pit

/-! The PIT and the name tree point at each other: every PIT entry is attached to exactly one name
tree entry, the one it points to. With that, the assertions of `insert` and `erase` never fail,
whatever the state of the hash table. -/

namespace NfdPitless.Pit

variable {cityHash : Component → UInt64} {p p' : Pit}

structure Linked (p : Pit) : Prop where
  treeFresh : p.nameTree.Fresh
  fresh : ∀ {r e}, p.entries r = some e → r < p.nextRef
  attached : ∀ {r e}, p.entries r = some e →
    ∃ nte, e.nameTreeEntry = some nte ∧ r ∈ p.nameTree.pitEntriesOf nte
  owned : ∀ {nte r}, r ∈ p.nameTree.pitEntriesOf nte →
    ∃ e, p.entries r = some e ∧ e.nameTreeEntry = some nte
  nodup : ∀ nte, (p.nameTree.pitEntriesOf nte).Nodup

theorem new_linked (nBuckets : Nat) : (new nBuckets).Linked where
  treeFresh := NameTree.new_fresh nBuckets
  fresh h := by simp [new] at h
  attached h := by simp [new] at h
  owned h := by simp [new, NameTree.pitEntriesOf, NameTree.attachmentOf, NameTree.new,
    NameTree.Attachment.bare] at h
  nodup := by simp [new, NameTree.pitEntriesOf, NameTree.attachmentOf, NameTree.new,
    NameTree.Attachment.bare]

theorem pitEntriesOf_of_keeps {t t' : NameTree} (h : NameTree.KeepsAttachments t t') (x : Ref) :
    t'.pitEntriesOf x = t.pitEntriesOf x := by
  rw [NameTree.pitEntriesOf, NameTree.pitEntriesOf, h.attachmentOf_eq]

theorem Linked.nextRef_free (h : p.Linked) : p.entries p.nextRef = none := by
  cases hn : p.entries p.nextRef with
  | none => rfl
  | some e => exact absurd (h.fresh hn) (lt_irrefl _)

/-- Replacing the tree by one with the same attachments keeps the links. -/
theorem Linked.of_keeps (h : p.Linked) {t : NameTree} (ht : NameTree.KeepsAttachments p.nameTree t) :
    ({ p with nameTree := t } : Pit).Linked where
  treeFresh := ht.fresh
  fresh := h.fresh
  attached he := by
    simp only [pitEntriesOf_of_keeps ht]
    exact h.attached he
  owned hr := h.owned (by simpa only [pitEntriesOf_of_keeps ht] using hr)
  nodup nte := by
    simp only [pitEntriesOf_of_keeps ht]
    exact h.nodup nte

theorem entries_modifyEntry (p : Pit) (r : Ref) (f : PitEntry → PitEntry) (x : Ref) :
    (p.modifyEntry r f).entries x = if x = r then (p.entries r).map f else p.entries x := by
  by_cases hx : x = r
  · subst hx
    simp [modifyEntry]
  · simp [modifyEntry, hx]

theorem modifyEntry_some {r x : Ref} {f : PitEntry → PitEntry} {e' : PitEntry}
    (h : (p.modifyEntry r f).entries x = some e') :
    ∃ e, p.entries x = some e ∧ (x = r ∧ e' = f e ∨ x ≠ r ∧ e' = e) := by
  rw [entries_modifyEntry] at h
  by_cases hx : x = r
  · rw [if_pos hx] at h
    obtain ⟨e, he, rfl⟩ := Option.map_eq_some_iff.mp h
    exact ⟨e, hx ▸ he, Or.inl ⟨hx, rfl⟩⟩
  · rw [if_neg hx] at h
    exact ⟨e', h, Or.inr ⟨hx, rfl⟩⟩

/-- Changing an entry without its pointer to the tree keeps the links. -/
theorem Linked.modifyEntry (h : p.Linked) (r : Ref) {f : PitEntry → PitEntry}
    (hf : ∀ e, (f e).nameTreeEntry = e.nameTreeEntry) : (p.modifyEntry r f).Linked where
  treeFresh := h.treeFresh
  fresh he := by
    obtain ⟨e, he, -⟩ := modifyEntry_some he
    exact h.fresh he
  attached he' := by
    obtain ⟨e, he, ⟨-, rfl⟩ | ⟨-, rfl⟩⟩ := modifyEntry_some he'
    · rw [hf]
      exact h.attached he
    · exact h.attached he
  owned {nte x} hx := by
    obtain ⟨e, he, hnte⟩ := h.owned hx
    rw [entries_modifyEntry]
    by_cases hxr : x = r
    · subst hxr
      exact ⟨f e, by simp [he], by rw [hf, hnte]⟩
    · exact ⟨e, by simp [hxr, he], hnte⟩
  nodup := h.nodup

/-- The table after a new entry has been attached to `nte` in the tree `t`. -/
def inserted (p : Pit) (t : NameTree) (nte : Ref) (interest : Interest) : Pit :=
  { nameTree := t.setPitEntries nte fun entries => entries ++ [p.nextRef]
    entries := Function.update p.entries p.nextRef (some (PitEntry.new interest nte))
    nextRef := p.nextRef + 1
    nItems := p.nItems + 1 }

theorem inserted_entries (p : Pit) (t : NameTree) (nte : Ref) (interest : Interest) (x : Ref) :
    (p.inserted t nte interest).entries x =
      if x = p.nextRef then some (PitEntry.new interest nte) else p.entries x := by
  by_cases hx : x = p.nextRef
  · simp [inserted, hx]
  · simp [inserted, hx]

theorem Linked.inserted (h : p.Linked) {t : NameTree} (ht : NameTree.KeepsAttachments p.nameTree t)
    {nte : Ref} (hnte : (t.entries nte).isSome) (interest : Interest) :
    (p.inserted t nte interest).Linked := by
  have hpit : ∀ y, (p.inserted t nte interest).nameTree.pitEntriesOf y =
      if y = nte then p.nameTree.pitEntriesOf nte ++ [p.nextRef] else p.nameTree.pitEntriesOf y := by
    intro y
    simp only [Pit.inserted, NameTree.pitEntriesOf_setPitEntries hnte, pitEntriesOf_of_keeps ht]
  have hnot : ∀ y, p.nextRef ∉ p.nameTree.pitEntriesOf y := by
    intro y hy
    obtain ⟨e, he, -⟩ := h.owned hy
    rw [h.nextRef_free] at he
    cases he
  refine ⟨ht.fresh.setPitEntries nte _, ?_, ?_, ?_, ?_⟩
  · intro r e he
    rw [inserted_entries] at he
    split at he
    · rename_i heq
      rw [heq]
      exact Nat.lt_succ_self _
    · exact Nat.lt_succ_of_lt (h.fresh he)
  · intro r e he
    rw [inserted_entries] at he
    split at he
    · rename_i heq
      cases he
      exact ⟨nte, rfl, by rw [hpit, if_pos rfl, heq]; simp⟩
    · obtain ⟨m, hm, hmem⟩ := h.attached he
      refine ⟨m, hm, ?_⟩
      rw [hpit]
      split
      · rename_i heq
        exact List.mem_append_left _ (heq ▸ hmem)
      · exact hmem
  · intro y r hr
    rw [hpit] at hr
    rw [inserted_entries]
    have hold : ∀ {y}, r ∈ p.nameTree.pitEntriesOf y →
        ∃ e, (if r = p.nextRef then some (PitEntry.new interest nte) else p.entries r) = some e ∧
          e.nameTreeEntry = some y := by
      intro y hy
      have hne : r ≠ p.nextRef := fun heq => hnot y (heq ▸ hy)
      rw [if_neg hne]
      exact h.owned hy
    split at hr
    · rename_i heq
      subst heq
      rcases List.mem_append.mp hr with hr | hr
      · exact hold hr
      · rw [if_pos (List.mem_singleton.mp hr)]
        exact ⟨_, rfl, rfl⟩
    · exact hold hr
  · intro y
    rw [hpit]
    split
    · refine (h.nodup nte).append (by simp) ?_
      intro x hx hx'
      exact hnot nte (List.mem_singleton.mp hx' ▸ hx)
    · exact h.nodup y

theorem isFor_eq_true {interest : Interest} {r : Ref} :
    p.isFor interest r = true ↔
      ∃ e, p.entries r = some e ∧ e.interest.name = interest.name ∧
        e.interest.selectors = interest.selectors := by
  simp [isFor, Option.any_eq_true]

/-- `insert` returns the entry of the Interest, either one that exists, with no entry changed, or a
new one. -/
theorem Linked.insert_cases (h : p.Linked) (cityHash : Component → UInt64) (interest : Interest) :
    ∃ t nte, p.nameTree.lookup cityHash interest.name = (t, some nte) ∧
      NameTree.KeepsAttachments p.nameTree t ∧ (t.entries nte).isSome ∧
      ((∃ r, p.isFor interest r = true ∧ r ∈ p.nameTree.pitEntriesOf nte ∧
          p.insert cityHash interest = some ({ p with nameTree := t }, r, false)) ∨
       ((∀ r ∈ p.nameTree.pitEntriesOf nte, p.isFor interest r = false) ∧
          p.insert cityHash interest = some (p.inserted t nte interest, p.nextRef, true))) := by
  obtain ⟨hkeep, nte, hnte, hstored⟩ := h.treeFresh.lookup cityHash interest.name
  generalize hlook : p.nameTree.lookup cityHash interest.name = looked at hkeep hnte hstored
  obtain ⟨t, o⟩ := looked
  subst hnte
  refine ⟨t, nte, rfl, hkeep, hstored, ?_⟩
  have hpit := pitEntriesOf_of_keeps hkeep nte
  cases hfind : (t.pitEntriesOf nte).find? (p.isFor interest) with
  | some r =>
      refine Or.inl ⟨r, List.find?_some hfind, hpit ▸ List.mem_of_find?_eq_some hfind, ?_⟩
      simp only [insert, hlook, hfind]
  | none =>
      refine Or.inr ⟨fun r hr => ?_, ?_⟩
      · have := List.find?_eq_none.mp hfind r (hpit ▸ hr)
        simpa using this
      · simp only [insert, hlook, hfind]
        rfl

/-- What the pipelines use of `insert`. -/
theorem Linked.insert (h : p.Linked) (cityHash : Component → UInt64) (interest : Interest) :
    ∃ p' r isNew, p.insert cityHash interest = some (p', r, isNew) ∧ p'.Linked ∧
      (isNew = false ∧ p'.entries = p.entries ∧ p'.nextRef = p.nextRef ∧ p.isFor interest r = true ∨
       isNew = true ∧ r = p.nextRef ∧ p'.nextRef = p.nextRef + 1 ∧
        ∃ nte, p'.entries = Function.update p.entries p.nextRef (some (PitEntry.new interest nte))) := by
  obtain ⟨t, nte, -, hkeep, hstored, ⟨r, hfor, -, hins⟩ | ⟨-, hins⟩⟩ :=
    h.insert_cases cityHash interest
  · exact ⟨_, r, false, hins, h.of_keeps hkeep, Or.inl ⟨rfl, rfl, rfl, hfor⟩⟩
  · exact ⟨_, _, true, hins, h.inserted hkeep hstored interest, Or.inr ⟨rfl, rfl, rfl, nte, rfl⟩⟩

/-- A new entry gets the next address. -/
theorem Linked.insert_new (h : p.Linked) {interest : Interest} {r : Ref}
    (hins : p.insert cityHash interest = some (p', r, true)) : r = p.nextRef := by
  obtain ⟨p₁, r₁, isNew₁, hins₁, -, ⟨hold, -⟩ | ⟨-, hr, -⟩⟩ := h.insert cityHash interest
  · rw [hins] at hins₁
    cases hins₁
    cases hold
  · rw [hins] at hins₁
    cases hins₁
    exact hr

/-- The entry that `insert` returns, and that no other entry changes. -/
theorem Linked.insert_spec (h : p.Linked) {interest : Interest} {r : Ref} {isNew : Bool} {e : PitEntry}
    (hins : p.insert cityHash interest = some (p', r, isNew)) (he : p'.entries r = some e) :
    p'.Linked ∧ (∀ x, x ≠ r → p'.entries x = p.entries x) ∧ p.nextRef ≤ p'.nextRef ∧
    e.interest.name = interest.name ∧ e.interest.selectors = interest.selectors ∧
    (isNew = false ∧ p'.entries = p.entries ∧ p.entries r = some e ∨
     isNew = true ∧ p.entries r = none ∧ ∃ nte, e = PitEntry.new interest nte) := by
  obtain ⟨p₁, r₁, isNew₁, hins₁, hlinked, hcases⟩ := h.insert cityHash interest
  rw [hins] at hins₁
  cases hins₁
  rcases hcases with ⟨hold, hentries, hnext, hfor⟩ | ⟨hnew, hr, hnext, nte, hentries⟩
  · rw [hentries] at he
    obtain ⟨e', he', hname, hsel⟩ := isFor_eq_true.mp hfor
    rw [he] at he'
    cases he'
    exact ⟨hlinked, fun x _ => by rw [hentries], hnext.ge, hname, hsel, Or.inl ⟨hold, hentries, he⟩⟩
  · subst hr
    rw [hentries, Function.update_self] at he
    cases he
    refine ⟨hlinked, fun x hx => ?_, ?_, rfl, rfl, Or.inr ⟨hnew, h.nextRef_free, nte, rfl⟩⟩
    · rw [hentries, Function.update_of_ne hx]
    · rw [hnext]
      exact Nat.le_succ _

/-- Erasing an entry of the table succeeds and removes that entry only. -/
theorem Linked.erase (h : p.Linked) {r : Ref} {e : PitEntry} (he : p.entries r = some e) :
    ∃ p', p.erase r = some p' ∧ p'.Linked ∧ p'.entries = Function.update p.entries r none ∧
      p'.nextRef = p.nextRef := by
  obtain ⟨nte, hnte, hmem⟩ := h.attached he
  obtain ⟨ne, hne, -⟩ := NameTree.isSome_of_mem_pitEntriesOf hmem
  have hsome : (p.nameTree.entries nte).isSome := by simp [hne]
  have hset := h.treeFresh.setPitEntries nte fun entries => Lists.swapPop entries r
  have hkeep := hset.eraseEntryIfEmpty nte
  have hpit : ∀ y, (((p.nameTree.setPitEntries nte fun entries =>
      Lists.swapPop entries r).eraseEntryIfEmpty nte).1).pitEntriesOf y =
        if y = nte then Lists.swapPop (p.nameTree.pitEntriesOf nte) r else p.nameTree.pitEntriesOf y := by
    intro y
    rw [pitEntriesOf_of_keeps hkeep, NameTree.pitEntriesOf_setPitEntries hsome]
  have hrem : ∀ {y x}, x ∈ (((p.nameTree.setPitEntries nte fun entries =>
      Lists.swapPop entries r).eraseEntryIfEmpty nte).1).pitEntriesOf y ↔
        x ∈ p.nameTree.pitEntriesOf y ∧ x ≠ r := by
    intro y x
    rw [hpit]
    split
    · rename_i heq
      rw [heq, Lists.mem_swapPop (h.nodup nte)]
    · rename_i hyne
      refine ⟨fun hx => ⟨hx, ?_⟩, fun hx => hx.1⟩
      rintro rfl
      obtain ⟨e', he', hnte'⟩ := h.owned hx
      rw [he] at he'
      cases he'
      rw [hnte] at hnte'
      exact hyne (Option.some.inj hnte').symm
  have hrun : p.erase r = some { p with
      nameTree := ((p.nameTree.setPitEntries nte fun entries =>
        Lists.swapPop entries r).eraseEntryIfEmpty nte).1
      entries := Function.update p.entries r none
      nItems := p.nItems - 1 } := by
    simp [Pit.erase, he, hnte, hmem]
  refine ⟨_, hrun, ⟨hkeep.fresh, ?_, ?_, ?_, ?_⟩, rfl, rfl⟩
  · intro x e' he'
    by_cases hx : x = r
    · simp [hx] at he'
    · exact h.fresh (by simpa [hx] using he')
  · intro x e' he'
    by_cases hx : x = r
    · simp [hx] at he'
    · obtain ⟨m, hm, hxm⟩ := h.attached (show p.entries x = some e' by simpa [hx] using he')
      exact ⟨m, hm, hrem.mpr ⟨hxm, hx⟩⟩
  · intro y x hx
    obtain ⟨hxy, hxr⟩ := hrem.mp hx
    obtain ⟨e', he', hy⟩ := h.owned hxy
    exact ⟨e', by simp [hxr, he'], hy⟩
  · intro y
    rw [hpit]
    split
    · exact Lists.nodup_swapPop (h.nodup nte) r
    · exact h.nodup y

end NfdPitless.Pit
