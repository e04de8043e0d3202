import NfdPitless.NameTreeInvariant

/-! What the tables attach to the name tree survives `lookup` and `eraseEntryIfEmpty`, in every tree:
new entries are bare and only bare entries are erased. This needs no more of a tree than that new
entries get unused addresses, so the tables can rely on their pointers whatever the buckets hold. -/

namespace NfdPitless

def Entry.attachment (e : Entry) : NameTree.Attachment :=
  ⟨e.fibEntry, e.pitEntries, e.measurementsEntry, e.strategyChoiceEntry⟩

namespace NameTree

variable {cityHash : Component → UInt64} {t t' : NameTree}

/-- Nothing attached. -/
def Attachment.bare : Attachment := ⟨none, [], none, none⟩

def attachmentOf (t : NameTree) (x : Ref) : Attachment := (t.entries x).elim .bare Entry.attachment

def pitEntriesOf (t : NameTree) (x : Ref) : List Ref := (t.attachmentOf x).pitEntries

/-- Every entry lies below the next address. -/
def Fresh (t : NameTree) : Prop := ∀ x, (t.entries x).isSome → x < t.nextRef

/-- From `t` to `t'` no attachment changes. -/
structure KeepsAttachments (t t' : NameTree) : Prop where
  fresh : t'.Fresh
  attachmentOf_eq : t'.attachmentOf = t.attachmentOf

theorem KeepsAttachments.trans {t'' : NameTree} (h : KeepsAttachments t t') (h' : KeepsAttachments t' t'') :
    KeepsAttachments t t'' where
  fresh := h'.fresh
  attachmentOf_eq := h'.attachmentOf_eq.trans h.attachmentOf_eq

theorem new_fresh (nBuckets : Nat) : (new nBuckets).Fresh := by simp [Fresh, new]

theorem Sound.isFresh (h : t.Sound cityHash) : t.Fresh := by
  intro x hx
  obtain ⟨e, he⟩ := Option.isSome_iff_exists.mp hx
  exact h.fresh (nameOf_eq_some.mpr ⟨e, he, rfl⟩)

theorem attachment_of_isEmpty {e : Entry} (h : e.isEmpty = true) : e.attachment = .bare := by
  simp only [Entry.isEmpty, Bool.and_eq_true, List.isEmpty_iff, Option.isNone_iff_eq_none] at h
  obtain ⟨⟨⟨⟨-, hfib⟩, hpit⟩, hmeas⟩, hstrat⟩ := h
  simp [Entry.attachment, Attachment.bare, hfib, hpit, hmeas, hstrat]

theorem isSome_of_mem_pitEntriesOf {x r : Ref} (h : r ∈ t.pitEntriesOf x) :
    ∃ e, t.entries x = some e ∧ r ∈ e.pitEntries := by
  cases hx : t.entries x with
  | none => simp [pitEntriesOf, attachmentOf, hx, Attachment.bare] at h
  | some e => exact ⟨e, rfl, by simpa [pitEntriesOf, attachmentOf, hx, Entry.attachment] using h⟩

theorem pitEntriesOf_eq {x : Ref} {e : Entry} (h : t.entries x = some e) :
    t.pitEntriesOf x = e.pitEntries := by
  simp [pitEntriesOf, attachmentOf, h, Entry.attachment]

theorem enlargeIfLoaded_entries (t : NameTree) : t.enlargeIfLoaded.entries = t.entries := by
  unfold enlargeIfLoaded
  split <;> rfl

theorem enlargeIfLoaded_nextRef (t : NameTree) : t.enlargeIfLoaded.nextRef = t.nextRef := by
  unfold enlargeIfLoaded
  split <;> rfl

theorem Fresh.enlargeIfLoaded (h : t.Fresh) : KeepsAttachments t t.enlargeIfLoaded where
  fresh x hx := by
    rw [enlargeIfLoaded_nextRef]
    exact h x (by rwa [enlargeIfLoaded_entries] at hx)
  attachmentOf_eq := by
    funext x
    rw [attachmentOf, attachmentOf, enlargeIfLoaded_entries]

theorem Fresh.added (h : t.Fresh) (cityHash : Component → UInt64) {parent : Option Ref} (n : Name)
    (hparent : ∀ p, parent = some p → p < t.nextRef) :
    KeepsAttachments t (t.added cityHash parent n) := by
  have hentries := added_entries cityHash t parent n
    (fun p hp => Nat.ne_of_lt (hparent p hp))
  constructor
  · intro x hx
    rw [hentries] at hx
    rw [added_nextRef]
    by_cases hxn : x = t.nextRef
    · rw [hxn]
      exact Nat.lt_succ_self _
    · refine Nat.lt_succ_of_lt (h x ?_)
      rw [if_neg hxn] at hx
      split at hx
      · simpa using hx
      · exact hx
  · funext x
    rw [attachmentOf, attachmentOf, hentries]
    by_cases hxn : x = t.nextRef
    · have hfree : t.entries t.nextRef = none := by
        cases hn : t.entries t.nextRef with
        | none => rfl
        | some e => exact absurd (h t.nextRef (by simp [hn])) (lt_irrefl _)
      rw [if_pos hxn, hxn, hfree]
      rfl
    · rw [if_neg hxn]
      split
      · cases t.entries x <;> rfl
      · rfl

theorem insert_found_or_new (cityHash : Component → UInt64) (t : NameTree) (n : Name) :
    (∃ r, (t.entries r).isSome ∧ t.insert cityHash n = (t, r, false)) ∨
    ∃ t', t.insert cityHash n = (t', t.nextRef, true) ∧
      ∀ parent, t'.linkNew parent t.nextRef = t.added cityHash parent n := by
  cases hfind : (t.buckets ((computeHash cityHash n).toNat % t.nBuckets)).find? fun r =>
      (t.entries r).any fun e => n == e.entryPrefix with
  | some r =>
      have hr := List.find?_some hfind
      obtain ⟨e, he, -⟩ := (Option.any_eq_true _ _).mp hr
      refine Or.inl ⟨r, by simp [he], ?_⟩
      simp only [insert, hfind]
  | none =>
      refine Or.inr ⟨_, ?_, fun parent => rfl⟩
      simp only [insert, hfind]
      rfl

/-- One iteration of `lookup` on a fresh tree, below a stored parent. -/
theorem Fresh.lookupStep (h : t.Fresh) (cityHash : Component → UInt64) {parent : Option Ref} (n : Name)
    (hparent : ∀ p, parent = some p → (t.entries p).isSome) :
    KeepsAttachments t (NameTree.lookupStep cityHash (t, parent) n).1 ∧
    ∃ r, (NameTree.lookupStep cityHash (t, parent) n).2 = some r ∧
      ((NameTree.lookupStep cityHash (t, parent) n).1.entries r).isSome := by
  rcases insert_found_or_new cityHash t n with ⟨r, hr, hins⟩ | ⟨t', hins, hlink⟩
  · have hstep : NameTree.lookupStep cityHash (t, parent) n = (t.enlargeIfLoaded, some r) := by
      simp [NameTree.lookupStep, hins]
    rw [hstep]
    exact ⟨h.enlargeIfLoaded, r, rfl, by rwa [enlargeIfLoaded_entries]⟩
  · have hstep : NameTree.lookupStep cityHash (t, parent) n =
        ((t.added cityHash parent n).enlargeIfLoaded, some t.nextRef) := by
      simp [NameTree.lookupStep, hins, hlink]
    have hbelow : ∀ p, parent = some p → p < t.nextRef := fun p hp => h p (hparent p hp)
    have hadd := h.added cityHash n hbelow
    rw [hstep]
    refine ⟨hadd.trans hadd.fresh.enlargeIfLoaded, t.nextRef, rfl, ?_⟩
    rw [enlargeIfLoaded_entries, added_entries cityHash t parent n (fun p hp => Nat.ne_of_lt (hbelow p hp)),
      if_pos rfl]
    rfl

theorem Fresh.lookupLoop (cityHash : Component → UInt64) (names : List Name) :
    ∀ {t : NameTree} (parent : Option Ref), t.Fresh → (∀ p, parent = some p → (t.entries p).isSome) →
      let acc := names.foldl (NameTree.lookupStep cityHash) (t, parent)
      KeepsAttachments t acc.1 ∧ (∀ p, acc.2 = some p → (acc.1.entries p).isSome) ∧
        (names ≠ [] → acc.2.isSome) := by
  induction names with
  | nil =>
      intro t parent h hparent
      exact ⟨⟨h, rfl⟩, hparent, fun hne => absurd rfl hne⟩
  | cons n names ih =>
      intro t parent h hparent
      obtain ⟨hkeep, r, hr, hstored⟩ := h.lookupStep cityHash n hparent
      rw [List.foldl_cons]
      generalize hacc : NameTree.lookupStep cityHash (t, parent) n = acc at hkeep hr hstored ⊢
      obtain ⟨t', parent'⟩ := acc
      subst hr
      obtain ⟨hkeep', hstored', hsome⟩ := ih (some r) hkeep.fresh
        (fun p hp => by rw [← Option.some.inj hp]; exact hstored)
      refine ⟨hkeep.trans hkeep', hstored', fun _ => ?_⟩
      cases names with
      | nil => rfl
      | cons m names => exact hsome (by simp)

/-- `lookup` keeps every attachment and returns a stored entry. -/
theorem Fresh.lookup (h : t.Fresh) (cityHash : Component → UInt64) (n : Name) :
    KeepsAttachments t (t.lookup cityHash n).1 ∧
    ∃ r, (t.lookup cityHash n).2 = some r ∧ ((t.lookup cityHash n).1.entries r).isSome := by
  obtain ⟨hkeep, hstored, hsome⟩ := Fresh.lookupLoop cityHash
    ((List.range (n.length + 1)).map n.getPrefix) none h (fun p hp => by cases hp)
  obtain ⟨r, hr⟩ := Option.isSome_iff_exists.mp (hsome (by simp))
  exact ⟨hkeep, r, hr, hstored r hr⟩

theorem Fresh.removed (h : t.Fresh) {r : Ref} {e : Entry} (he : t.entries r = some e)
    (hempty : e.isEmpty = true) : KeepsAttachments t (t.removed r e) := by
  constructor
  · intro x hx
    rw [removed_entries] at hx
    rw [removed_nextRef]
    refine h x ?_
    split at hx
    · simp at hx
    · split at hx
      · simpa using hx
      · exact hx
  · funext x
    rw [attachmentOf, attachmentOf, removed_entries]
    by_cases hx : x = r
    · rw [if_pos hx, hx, he]
      exact (attachment_of_isEmpty hempty).symm
    · rw [if_neg hx]
      split
      · cases t.entries x <;> rfl
      · rfl

theorem Fresh.shrinkIfSparse (h : t.Fresh) : KeepsAttachments t t.shrinkIfSparse := by
  unfold NameTree.shrinkIfSparse
  split
  · exact ⟨h, rfl⟩
  · exact ⟨h, rfl⟩

theorem Fresh.eraseUp (h : t.Fresh) (fuel : Nat) (r : Ref) :
    KeepsAttachments t (NameTree.eraseUp fuel t r).1 := by
  induction fuel generalizing t r with
  | zero => exact ⟨h, rfl⟩
  | succ fuel ih =>
      rcases eraseUp_succ_cases fuel t r with ⟨e, he, hempty, hrun⟩ | ⟨-, hrun⟩
      · rw [hrun]
        have hrem := h.removed he hempty
        cases hp : e.parent with
        | none => exact hrem.trans hrem.fresh.shrinkIfSparse
        | some p =>
            have hup := ih hrem.fresh p
            exact (hrem.trans hup).trans hup.fresh.shrinkIfSparse
      · rw [hrun]
        exact ⟨h, rfl⟩

theorem Fresh.eraseEntryIfEmpty (h : t.Fresh) (r : Ref) : KeepsAttachments t (t.eraseEntryIfEmpty r).1 :=
  h.eraseUp _ r

/-- Replace the PIT entries of an entry. -/
def setPitEntries (t : NameTree) (x : Ref) (f : List Ref → List Ref) : NameTree :=
  t.modifyEntry x fun e => { e with pitEntries := f e.pitEntries }

theorem Fresh.setPitEntries (h : t.Fresh) (x : Ref) (f : List Ref → List Ref) : (t.setPitEntries x f).Fresh := by
  intro y hy
  rw [NameTree.setPitEntries, modifyEntry_nextRef]
  rw [NameTree.setPitEntries, entries_modifyEntry] at hy
  refine h y ?_
  split at hy
  · rename_i heq
    rw [heq]
    simpa using hy
  · exact hy

theorem pitEntriesOf_setPitEntries {x : Ref} (hx : (t.entries x).isSome) (f : List Ref → List Ref) (y : Ref) :
    (t.setPitEntries x f).pitEntriesOf y = if y = x then f (t.pitEntriesOf x) else t.pitEntriesOf y := by
  obtain ⟨e, he⟩ := Option.isSome_iff_exists.mp hx
  simp only [pitEntriesOf, attachmentOf, setPitEntries, entries_modifyEntry]
  by_cases hy : y = x
  · simp [hy, he, Entry.attachment]
  · simp [hy]

theorem WF.setPitEntries (h : t.WF cityHash) (x : Ref) (f : List Ref → List Ref) :
    (t.setPitEntries x f).WF cityHash :=
  h.modifyEntry_attached x _ (fun _ => rfl) (fun _ => rfl) (fun _ => rfl) (fun _ => rfl)

end NameTree
end NfdPitless
