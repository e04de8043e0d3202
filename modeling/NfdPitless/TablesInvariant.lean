import NfdPitless.Tables
import NfdPitless.NameTreeStructure

/-! The tables and the name tree point at each other: an entry of a table is attached to the name tree
entry it points to, which has its name. An operation of a table changes the attachments of one name tree
entry and may add name tree entries or remove bare ones, so it disturbs no other table. -/

namespace NfdPitless

variable {cityHash : Component → UInt64} {t t' : NameTree} {n : Name} {nte : Ref} {slot : Slot}

namespace NameTree

/-- What every operation that resizes without harm keeps of a name tree. -/
structure Stable (cityHash : Component → UInt64) (t : NameTree) : Prop where
  sound : t.Sound cityHash
  roomy : t.Roomy

theorem new_stable {nBuckets : Nat} (hpos : 0 < nBuckets) : (new nBuckets).Stable cityHash :=
  ⟨new_sound cityHash hpos, new_roomy nBuckets⟩

theorem Stable.lookup (h : t.Stable cityHash) (hok : t.Harmless cityHash (.lookup n)) :
    (t.lookup cityHash n).1.Stable cityHash where
  sound := (h.sound.lookup n hok.lookupRehashes).1
  roomy := h.roomy.lookup h.sound.isFresh h.sound.nBuckets_pos cityHash n

theorem Stable.eraseEntryIfEmpty (h : t.Stable cityHash) {r : Ref} (hok : t.Harmless cityHash (.eraseEntryIfEmpty r)) :
    (t.eraseEntryIfEmpty r).1.Stable cityHash where
  sound := h.sound.erase_of_harmless hok
  roomy := h.roomy.eraseEntryIfEmpty r

/-- Attaching and detaching. -/
theorem Stable.modifyEntry (h : t.Stable cityHash) (r : Ref) (f : Entry → Entry) (hhash : ∀ e, (f e).hash = e.hash)
    (hname : ∀ e, (f e).entryPrefix = e.entryPrefix) (hparent : ∀ e, (f e).parent = e.parent)
    (hchildren : ∀ e, (f e).children = e.children) : (t.modifyEntry r f).Stable cityHash where
  sound := h.sound.modifyEntry_attached r f hhash hname hparent hchildren
  roomy := by
    have hroomy := h.roomy
    unfold NameTree.modifyEntry
    split
    · exact ⟨hroomy.enlarge_eq, hroomy.shrink_eq, hroomy.le_enlarge⟩
    · exact hroomy

theorem Stable.setAttached (h : t.Stable cityHash) (slot : Slot) (nte : Ref) (entry : Option Ref) :
    (t.setAttached slot nte entry).Stable cityHash := by
  cases slot <;> exact h.modifyEntry nte _ (fun _ => rfl) (fun _ => rfl) (fun _ => rfl) (fun _ => rfl)

theorem Stable.setPitEntries (h : t.Stable cityHash) (nte : Ref) (f : List Ref → List Ref) :
    (t.setPitEntries nte f).Stable cityHash :=
  h.modifyEntry nte _ (fun _ => rfl) (fun _ => rfl) (fun _ => rfl) (fun _ => rfl)

theorem entries_setAttached (t : NameTree) (slot : Slot) (nte : Ref) (entry : Option Ref) (x : Ref) :
    (t.setAttached slot nte entry).entries x =
      if x = nte then (t.entries nte).map (Entry.attach slot entry) else t.entries x :=
  entries_modifyEntry t nte _ x

theorem nameOf_setAttached (t : NameTree) (slot : Slot) (nte : Ref) (entry : Option Ref) :
    (t.setAttached slot nte entry).nameOf = t.nameOf := by
  funext x
  rw [nameOf, nameOf, entries_setAttached]
  split
  · rename_i hx
    rw [hx]
    cases t.entries nte with
    | none => rfl
    | some e => cases slot <;> rfl
  · rfl

theorem pitEntriesOf_setAttached (t : NameTree) (slot : Slot) (nte : Ref) (entry : Option Ref) (x : Ref) :
    (t.setAttached slot nte entry).pitEntriesOf x = t.pitEntriesOf x := by
  rw [pitEntriesOf, pitEntriesOf, attachmentOf, attachmentOf, entries_setAttached]
  split
  · rename_i hx
    rw [hx]
    cases t.entries nte with
    | none => rfl
    | some e => cases slot <;> rfl
  · rfl

theorem attachedTo_setAttached (t : NameTree) (slot slot' : Slot) (nte : Ref) (entry : Option Ref) (x : Ref) :
    (t.setAttached slot nte entry).attachedTo slot' x =
      if x = nte ∧ slot' = slot then (t.entries nte).bind fun _ => entry else t.attachedTo slot' x := by
  rw [attachedTo, attachedTo, entries_setAttached]
  by_cases hx : x = nte
  · subst hx
    cases t.entries x with
    | none => simp
    | some e => cases slot <;> cases slot' <;> simp [Entry.attach, Entry.attached]
  · simp [hx]

theorem attachedTo_setPitEntries (t : NameTree) (slot : Slot) (nte : Ref) (f : List Ref → List Ref) (x : Ref) :
    (t.setPitEntries nte f).attachedTo slot x = t.attachedTo slot x := by
  rw [attachedTo, attachedTo, NameTree.setPitEntries, entries_modifyEntry]
  split
  · rename_i hx
    rw [hx]
    cases t.entries nte with
    | none => rfl
    | some e => cases slot <;> rfl
  · rfl

def Attachment.entryOf (a : Attachment) : Slot → Option Ref
  | .fib => a.fibEntry
  | .measurements => a.measurementsEntry
  | .strategyChoice => a.strategyChoiceEntry

theorem attachedTo_eq (t : NameTree) (slot : Slot) (x : Ref) :
    t.attachedTo slot x = (t.attachmentOf x).entryOf slot := by
  rw [attachedTo, attachmentOf]
  cases t.entries x with
  | none => cases slot <;> rfl
  | some e => cases slot <;> rfl

/-- From `t` to `t'` every attachment stays, and its name with it. -/
structure Carries (t t' : NameTree) : Prop where
  keeps : KeepsAttachments t t'
  nameOf_eq : ∀ {x m}, t.nameOf x = some m → (∃ e, t'.entries x = some e) → t'.nameOf x = some m

theorem Carries.attachedTo_eq (h : Carries t t') (slot : Slot) (x : Ref) :
    t'.attachedTo slot x = t.attachedTo slot x := by
  rw [NameTree.attachedTo_eq, NameTree.attachedTo_eq, h.keeps.attachmentOf_eq]

theorem Carries.of_entries (hfresh : t'.Fresh) (hentries : t'.entries = t.entries) : Carries t t' where
  keeps := ⟨hfresh, by
    funext x
    rw [attachmentOf, attachmentOf, hentries]⟩
  nameOf_eq hx _ := by
    rw [nameOf, hentries]
    exact hx

theorem Stable.carries_lookup (h : t.Stable cityHash) (hok : t.Harmless cityHash (.lookup n)) :
    Carries t (t.lookup cityHash n).1 where
  keeps := (h.sound.isFresh.lookup cityHash n).1
  nameOf_eq hx _ := (h.sound.lookup n hok.lookupRehashes).2.1 _ _ hx

theorem Stable.carries_erase (h : t.Stable cityHash) (r : Ref) : Carries t (t.eraseEntryIfEmpty r).1 where
  keeps := h.sound.isFresh.eraseEntryIfEmpty r
  nameOf_eq {x m} hx hstored := by
    obtain ⟨e, he⟩ := hstored
    have hname : (t.eraseEntryIfEmpty r).1.nameOf x = some e.entryPrefix := nameOf_eq_some.mpr ⟨e, he, rfl⟩
    have hold := Pit.nameOf_of_eraseUp _ hname
    rw [hname, ← hold, hx]

theorem stored_of_attachedTo {r : Ref} (h : t.attachedTo slot nte = some r) : ∃ e, t.entries nte = some e := by
  obtain ⟨e, he, -⟩ := Option.bind_eq_some_iff.mp h
  exact ⟨e, he⟩

end NameTree

/-! ### One table -/

namespace Table

variable {α : Type} {T : Table α} {name : α → Name}

/-- The entries of a table are attached where they point to, under their names, and nothing else is. -/
structure Attached (T : Table α) (slot : Slot) (t : NameTree) (name : α → Name) : Prop where
  fresh : ∀ {r e}, T.entries r = some e → r < T.nextRef
  attached : ∀ {r e nte}, T.entries r = some e → e.nameTreeEntry = some nte → t.attachedTo slot nte = some r
  owned : ∀ {r nte}, t.attachedTo slot nte = some r → ∃ e, T.entries r = some e ∧ e.nameTreeEntry = some nte
  named : ∀ {r e nte}, T.entries r = some e → e.nameTreeEntry = some nte → t.nameOf nte = some (name e.content)

theorem empty_attached (slot : Slot) (nBuckets : Nat) (name : α → Name) :
    (empty : Table α).Attached slot (.new nBuckets) name where
  fresh h := by simp [empty] at h
  attached h := by simp [empty] at h
  owned h := by simp [NameTree.attachedTo, NameTree.new] at h
  named h := by simp [empty] at h

theorem Attached.carried (h : T.Attached slot t name) (hc : NameTree.Carries t t') : T.Attached slot t' name where
  fresh := h.fresh
  attached he hnte := (hc.attachedTo_eq slot _).trans (h.attached he hnte)
  owned hr := h.owned ((hc.attachedTo_eq slot _).symm.trans hr)
  named he hnte := hc.nameOf_eq (h.named he hnte)
    (NameTree.stored_of_attachedTo ((hc.attachedTo_eq slot _).trans (h.attached he hnte)))

/-- An entry is attached once. -/
theorem Attached.inj (h : T.Attached slot t name) {r x y : Ref} (hx : t.attachedTo slot x = some r)
    (hy : t.attachedTo slot y = some r) : x = y := by
  obtain ⟨e, he, hptr⟩ := h.owned hx
  obtain ⟨e', he', hptr'⟩ := h.owned hy
  rw [he] at he'
  cases he'
  exact Option.some.inj (hptr.symm.trans hptr')

/-- Another table attaches or detaches. -/
theorem Attached.setAttached_other (h : T.Attached slot t name) {slot' : Slot} (hne : slot ≠ slot') (x : Ref)
    (entry : Option Ref) : T.Attached slot (t.setAttached slot' x entry) name := by
  have hsame : ∀ y, (t.setAttached slot' x entry).attachedTo slot y = t.attachedTo slot y := by
    intro y
    rw [NameTree.attachedTo_setAttached, if_neg (fun hy => hne hy.2)]
  refine ⟨h.fresh, fun he hnte => (hsame _).trans (h.attached he hnte),
    fun hr => h.owned ((hsame _).symm.trans hr), fun he hnte => ?_⟩
  rw [NameTree.nameOf_setAttached]
  exact h.named he hnte

theorem Attached.setPitEntries (h : T.Attached slot t name) (x : Ref) (f : List Ref → List Ref) :
    T.Attached slot (t.setPitEntries x f) name where
  fresh := h.fresh
  attached he hnte := (NameTree.attachedTo_setPitEntries t slot x f _).trans (h.attached he hnte)
  owned hr := h.owned ((NameTree.attachedTo_setPitEntries t slot x f _).symm.trans hr)
  named he hnte := by
    rw [Pit.nameOf_setPitEntries]
    exact h.named he hnte

theorem entries_modify (T : Table α) (r : Ref) (f : TableEntry α → TableEntry α) (x : Ref) :
    (T.modify r f).entries x = if x = r then (T.entries r).map f else T.entries x := by
  by_cases hx : x = r
  · subst hx
    simp [modify]
  · simp [modify, hx]

/-- The contents of an entry change, but not its name. -/
theorem Attached.modify (h : T.Attached slot t name) (r : Ref) {f : TableEntry α → TableEntry α}
    (hptr : ∀ e, (f e).nameTreeEntry = e.nameTreeEntry) (hname : ∀ e, name (f e).content = name e.content) :
    (T.modify r f).Attached slot t name := by
  have hentries : ∀ {x e'}, (T.modify r f).entries x = some e' → ∃ e, T.entries x = some e ∧
      e'.nameTreeEntry = e.nameTreeEntry ∧ name e'.content = name e.content := by
    intro x e' he'
    rw [entries_modify] at he'
    split at he'
    · rename_i hx
      obtain ⟨e, he, rfl⟩ := Option.map_eq_some_iff.mp he'
      exact ⟨e, by rw [hx, he], hptr e, hname e⟩
    · exact ⟨e', he', rfl, rfl⟩
  refine ⟨fun he' => ?_, fun he' hnte => ?_, fun hr => ?_, fun he' hnte => ?_⟩
  · obtain ⟨e, he, -⟩ := hentries he'
    exact h.fresh he
  · obtain ⟨e, he, hp, -⟩ := hentries he'
    exact h.attached he (hp ▸ hnte)
  · obtain ⟨e, he, hnte⟩ := h.owned hr
    rw [entries_modify]
    split
    · rename_i hx
      subst hx
      exact ⟨f e, by rw [he]; rfl, (hptr e).trans hnte⟩
    · exact ⟨e, he, hnte⟩
  · obtain ⟨e, he, hp, hn⟩ := hentries he'
    rw [hn]
    exact h.named he (hp ▸ hnte)

theorem attachNew_tree (T : Table α) (slot : Slot) (t : NameTree) (nte : Ref) (content : α) :
    (T.attachNew slot t nte content).1 = t.setAttached slot nte (some T.nextRef) := rfl

theorem attachNew_nextRef (hfree : t.attachedTo slot nte = none) (content : α) :
    (T.attachNew slot t nte content).2.nextRef = T.nextRef + 1 := by
  simp [attachNew, attach, hfree, setNameTreeEntry, modify]

theorem attachNew_entries (hfree : t.attachedTo slot nte = none) (content : α) (x : Ref) :
    (T.attachNew slot t nte content).2.entries x =
      if x = T.nextRef then some ⟨content, some nte⟩ else T.entries x := by
  simp only [attachNew, attach, hfree, Option.elim, setNameTreeEntry, entries_modify]
  by_cases hx : x = T.nextRef
  · simp [hx]
  · simp [hx]

/-- A new entry is attached where none was. -/
theorem Attached.attachNew (h : T.Attached slot t name) (hfree : t.attachedTo slot nte = none) {content : α}
    (hname : t.nameOf nte = some (name content)) :
    (T.attachNew slot t nte content).2.Attached slot (T.attachNew slot t nte content).1 name := by
  obtain ⟨en, hen, -⟩ := NameTree.nameOf_eq_some.mp hname
  have htree : ∀ x, (T.attachNew slot t nte content).1.attachedTo slot x =
      if x = nte then some T.nextRef else t.attachedTo slot x := by
    intro x
    rw [attachNew_tree, NameTree.attachedTo_setAttached]
    by_cases hx : x = nte
    · simp [hx, hen]
    · simp [hx]
  have hnames : (T.attachNew slot t nte content).1.nameOf = t.nameOf := NameTree.nameOf_setAttached _ _ _ _
  refine ⟨fun {r e} he => ?_, fun {r e x} he hx => ?_, fun {r x} hr => ?_, fun {r e x} he hx => ?_⟩
  · rw [attachNew_entries hfree] at he
    rw [attachNew_nextRef hfree]
    split at he
    · rename_i hr
      rw [hr]
      exact Nat.lt_succ_self _
    · exact Nat.lt_succ_of_lt (h.fresh he)
  · rw [attachNew_entries hfree] at he
    rw [htree]
    split at he
    · rename_i hr
      cases he
      cases hx
      rw [if_pos rfl, hr]
    · have hold := h.attached he hx
      have hne : x ≠ nte := by
        rintro rfl
        rw [hfree] at hold
        cases hold
      rw [if_neg hne, hold]
  · rw [htree] at hr
    rw [attachNew_entries hfree]
    split at hr
    · rename_i hx
      cases hr
      exact ⟨⟨content, some nte⟩, by simp, by rw [hx]⟩
    · obtain ⟨e, he, hnte⟩ := h.owned hr
      have hne : r ≠ T.nextRef := fun heq => absurd (h.fresh he) (by simp [heq])
      exact ⟨e, by simp [hne, he], hnte⟩
  · rw [attachNew_entries hfree] at he
    rw [hnames]
    split at he
    · cases he
      cases hx
      exact hname
    · exact h.named he hx

theorem detach_tree (T : Table α) (slot : Slot) (t : NameTree) (nte : Ref) :
    (T.detach slot t nte).1 = ((t.setAttached slot nte none).eraseEntryIfEmpty nte).1 := rfl

theorem attach_none_entries (T : Table α) (slot : Slot) (t : NameTree) (nte x : Ref) :
    (T.attach slot t nte none).2.entries x =
      if t.attachedTo slot nte = some x then (T.entries x).map fun e => { e with nameTreeEntry := none }
      else T.entries x := by
  cases hold : t.attachedTo slot nte with
  | none => simp [attach, hold]
  | some old =>
      simp only [attach, hold, Option.elim, setNameTreeEntry, entries_modify, Option.some.injEq]
      by_cases hx : x = old
      · simp [hx]
      · simp [hx, Ne.symm hx]

theorem attach_nextRef (T : Table α) (slot : Slot) (t : NameTree) (nte : Ref) (entry : Option Ref) :
    (T.attach slot t nte entry).2.nextRef = T.nextRef := by
  unfold attach
  cases t.attachedTo slot nte <;> cases entry <;> rfl

/-- Whatever was attached is detached. -/
theorem Attached.detached (h : T.Attached slot t name) (nte : Ref) :
    (T.attach slot t nte none).2.Attached slot (t.setAttached slot nte none) name := by
  have htree : ∀ x, (t.setAttached slot nte none).attachedTo slot x =
      if x = nte then none else t.attachedTo slot x := by
    intro x
    rw [NameTree.attachedTo_setAttached]
    by_cases hx : x = nte
    · cases t.entries nte <;> simp [hx]
    · simp [hx]
  have hkept : ∀ {r e x}, (T.attach slot t nte none).2.entries r = some e → e.nameTreeEntry = some x →
      T.entries r = some e ∧ x ≠ nte := by
    intro r e x he hx
    rw [attach_none_entries] at he
    split at he
    · obtain ⟨e0, -, rfl⟩ := Option.map_eq_some_iff.mp he
      cases hx
    · rename_i hr
      refine ⟨he, ?_⟩
      rintro rfl
      exact hr (h.attached he hx)
  refine ⟨fun {r e} he => ?_, fun {r e x} he hx => ?_, fun {r x} hr => ?_, fun {r e x} he hx => ?_⟩
  · rw [attach_nextRef]
    rw [attach_none_entries] at he
    split at he
    · obtain ⟨e0, he0, -⟩ := Option.map_eq_some_iff.mp he
      exact h.fresh he0
    · exact h.fresh he
  · obtain ⟨hold, hne⟩ := hkept he hx
    rw [htree, if_neg hne]
    exact h.attached hold hx
  · rw [htree] at hr
    split at hr
    · cases hr
    · rename_i hne
      obtain ⟨e, he, hx⟩ := h.owned hr
      refine ⟨e, ?_, hx⟩
      rw [attach_none_entries, if_neg, he]
      intro hold
      obtain ⟨e', he', hx'⟩ := h.owned hold
      rw [he] at he'
      cases he'
      rw [hx] at hx'
      exact hne (Option.some.inj hx')
  · rw [NameTree.nameOf_setAttached]
    exact h.named (hkept he hx).1 hx

end Table

theorem Pit.Linked.withTree {p : Pit} (h : p.Linked) (hfresh : t.Fresh)
    (hsame : ∀ x, t.pitEntriesOf x = p.nameTree.pitEntriesOf x) : ({ p with nameTree := t } : Pit).Linked where
  treeFresh := hfresh
  fresh := h.fresh
  attached he := by
    obtain ⟨x, hx, hmem⟩ := h.attached he
    exact ⟨x, hx, (hsame x).symm ▸ hmem⟩
  owned hr := h.owned ((hsame _) ▸ hr)
  nodup x := (hsame x).symm ▸ h.nodup x

/-- What an erasure from the PIT does to the name tree. -/
theorem Pit.Linked.erase_tree {p p' : Pit} (h : p.Linked) {r : Ref} (herase : p.erase r = some p') :
    ∃ e nte, p.entries r = some e ∧ e.nameTreeEntry = some nte ∧
      p'.nameTree =
        ((p.nameTree.setPitEntries nte fun entries => Lists.swapPop entries r).eraseEntryIfEmpty nte).1 := by
  cases he : p.entries r with
  | none => simp [Pit.erase, he] at herase
  | some e =>
      obtain ⟨nte, hnte, hmem⟩ := h.attached he
      refine ⟨e, nte, rfl, hnte, ?_⟩
      simp only [Pit.erase, he, Option.bind_some, hnte, hmem, if_true, Option.some.injEq] at herase
      rw [← herase]

namespace Slot

/-- What an entry of the table has besides its pointer. -/
abbrev Content : Slot → Type
  | fib => FibContent
  | measurements => MeasurementsContent
  | strategyChoice => StrategyChoiceContent

def nameOf : (slot : Slot) → slot.Content → Name
  | fib => FibContent.entryPrefix
  | measurements => MeasurementsContent.name
  | strategyChoice => StrategyChoiceContent.entryPrefix

end Slot

namespace Tables

variable {s s' : Tables}

structure Joint (cityHash : Component → UInt64) (s : Tables) : Prop where
  tree : s.nameTree.Stable cityHash
  fib : s.fib.Attached .fib s.nameTree FibContent.entryPrefix
  measurements : s.measurements.Attached .measurements s.nameTree MeasurementsContent.name
  strategyChoice : s.strategyChoice.Attached .strategyChoice s.nameTree StrategyChoiceContent.entryPrefix
  pit : s.pit.Linked
  pitNamed : ∀ {r e nte}, s.pit.entries r = some e → e.nameTreeEntry = some nte →
    s.nameTree.nameOf nte = some e.interest.name
  /-- There is a default strategy. -/
  root : ∃ nte r, s.nameTree.nameOf nte = some [] ∧ s.nameTree.attachedTo .strategyChoice nte = some r

/-- Name tree entries are added, or bare ones removed. -/
theorem Joint.carried (h : Joint cityHash s) (hc : NameTree.Carries s.nameTree t) (ht : t.Stable cityHash) :
    Joint cityHash (s.withTree t) where
  tree := ht
  fib := h.fib.carried hc
  measurements := h.measurements.carried hc
  strategyChoice := h.strategyChoice.carried hc
  pit := h.pit.of_keeps hc.keeps
  pitNamed he hnte := by
    obtain ⟨x, hx, hmem⟩ := h.pit.attached he
    rw [hnte] at hx
    cases hx
    have hmem' : _ ∈ t.pitEntriesOf _ := (Pit.pitEntriesOf_of_keeps hc.keeps _).symm ▸ hmem
    obtain ⟨e', he', -⟩ := NameTree.isSome_of_mem_pitEntriesOf hmem'
    exact hc.nameOf_eq (h.pitNamed he hnte) ⟨e', he'⟩
  root := by
    obtain ⟨x, r, hx, hr⟩ := h.root
    have hr' : t.attachedTo .strategyChoice x = some r := (hc.attachedTo_eq _ x).trans hr
    exact ⟨x, r, hc.nameOf_eq hx (NameTree.stored_of_attachedTo hr'), hr'⟩

theorem Joint.pit_setAttached (h : Joint cityHash s) (slot : Slot) (nte : Ref) (entry : Option Ref) :
    ({ s.pit with nameTree := s.nameTree.setAttached slot nte entry } : Pit).Linked :=
  h.pit.withTree (h.tree.setAttached slot nte entry).sound.isFresh
    fun x => NameTree.pitEntriesOf_setAttached s.nameTree slot nte entry x

theorem Joint.pitNamed_setAttached (h : Joint cityHash s) (slot : Slot) (nte : Ref) (entry : Option Ref) {r x : Ref}
    {e : PitEntry} (he : s.pit.entries r = some e) (hx : e.nameTreeEntry = some x) :
    (s.nameTree.setAttached slot nte entry).nameOf x = some e.interest.name := by
  rw [NameTree.nameOf_setAttached]
  exact h.pitNamed he hx

/-- The table of a slot. -/
def table (s : Tables) : (slot : Slot) → Table slot.Content
  | .fib => s.fib
  | .measurements => s.measurements
  | .strategyChoice => s.strategyChoice

def setTable (s : Tables) : (slot : Slot) → NameTree × Table slot.Content → Tables
  | .fib, p => s.setFib p
  | .measurements, p => s.setMeasurements p
  | .strategyChoice, p => s.setStrategyChoice p

theorem Joint.table (h : Joint cityHash s) : ∀ slot, (s.table slot).Attached slot s.nameTree slot.nameOf
  | .fib => h.fib
  | .measurements => h.measurements
  | .strategyChoice => h.strategyChoice

/-- One table changes, and the name tree stays. -/
theorem Joint.withTable (h : Joint cityHash s) (slot : Slot) {T : Table slot.Content}
    (hT : T.Attached slot s.nameTree slot.nameOf) : Joint cityHash (s.setTable slot (s.nameTree, T)) := by
  cases slot with
  | fib => exact ⟨h.tree, hT, h.measurements, h.strategyChoice, h.pit, h.pitNamed, h.root⟩
  | measurements => exact ⟨h.tree, h.fib, hT, h.strategyChoice, h.pit, h.pitNamed, h.root⟩
  | strategyChoice => exact ⟨h.tree, h.fib, h.measurements, hT, h.pit, h.pitNamed, h.root⟩

/-- One table changes what it attaches to a name tree entry, and the default strategy stays. -/
theorem Joint.reattached (h : Joint cityHash s) (slot : Slot) {entry : Option Ref} {T : Table slot.Content}
    (hT : T.Attached slot (s.nameTree.setAttached slot nte entry) slot.nameOf)
    (hroot : slot = .strategyChoice → s.nameTree.nameOf nte = some [] →
      s.nameTree.attachedTo .strategyChoice nte = none) :
    Joint cityHash (s.setTable slot (s.nameTree.setAttached slot nte entry, T)) := by
  have hother : ∀ other, other ≠ slot →
      (s.table other).Attached other (s.nameTree.setAttached slot nte entry) other.nameOf :=
    fun other hne => (h.table other).setAttached_other hne nte entry
  have hdefault : ∃ x r, (s.nameTree.setAttached slot nte entry).nameOf x = some [] ∧
      (s.nameTree.setAttached slot nte entry).attachedTo .strategyChoice x = some r := by
    obtain ⟨x, r, hx, hr⟩ := h.root
    have hne : ¬ (x = nte ∧ .strategyChoice = slot) := by
      rintro ⟨rfl, rfl⟩
      exact nomatch hr.symm.trans (hroot rfl hx)
    refine ⟨x, r, (congrFun (NameTree.nameOf_setAttached _ _ _ _) x).trans hx, ?_⟩
    exact (NameTree.attachedTo_setAttached _ _ _ _ _ _).trans ((if_neg hne).trans hr)
  have hpit := h.pit_setAttached slot nte entry
  have hnamed : ∀ {r x e}, s.pit.entries r = some e → e.nameTreeEntry = some x → _ :=
    h.pitNamed_setAttached slot nte entry
  cases slot with
  | fib =>
      exact ⟨h.tree.setAttached _ _ _, hT, hother .measurements Slot.noConfusion,
        hother .strategyChoice Slot.noConfusion, hpit, hnamed, hdefault⟩
  | measurements =>
      exact ⟨h.tree.setAttached _ _ _, hother .fib Slot.noConfusion, hT, hother .strategyChoice Slot.noConfusion,
        hpit, hnamed, hdefault⟩
  | strategyChoice =>
      exact ⟨h.tree.setAttached _ _ _, hother .fib Slot.noConfusion, hother .measurements Slot.noConfusion, hT,
        hpit, hnamed, hdefault⟩

theorem Joint.attachNew (h : Joint cityHash s) (slot : Slot) {content : slot.Content}
    (hname : s.nameTree.nameOf nte = some (slot.nameOf content)) (hfree : s.nameTree.attachedTo slot nte = none) :
    Joint cityHash (s.setTable slot ((s.table slot).attachNew slot s.nameTree nte content)) :=
  h.reattached slot ((h.table slot).attachNew hfree hname) fun hslot _ => hslot ▸ hfree

theorem Joint.erased (h : Joint cityHash s) (hok : s.nameTree.Harmless cityHash (.eraseEntryIfEmpty nte)) :
    Joint cityHash (s.withTree (s.nameTree.eraseEntryIfEmpty nte).1) :=
  h.carried (h.tree.carries_erase nte) (h.tree.eraseEntryIfEmpty hok)

/-- An entry is detached, and its name tree entry erased if it is empty. The counter of the table is no part of the
invariant. -/
theorem Joint.detach (h : Joint cityHash s) (slot : Slot)
    (hroot : slot = .strategyChoice → s.nameTree.nameOf nte ≠ some [])
    (hok : (s.nameTree.setAttached slot nte none).Harmless cityHash (.eraseEntryIfEmpty nte)) :
    Joint cityHash (s.setTable slot ((s.table slot).detach slot s.nameTree nte)) := by
  have hdetached := h.reattached slot ((h.table slot).detached nte) fun hslot hname => absurd hname (hroot hslot)
  cases slot with
  | fib =>
      have he := hdetached.erased hok
      exact he.withTable .fib ⟨he.fib.fresh, he.fib.attached, he.fib.owned, he.fib.named⟩
  | measurements =>
      have he := hdetached.erased hok
      exact he.withTable .measurements ⟨he.measurements.fresh, he.measurements.attached, he.measurements.owned,
        he.measurements.named⟩
  | strategyChoice =>
      have he := hdetached.erased hok
      exact he.withTable .strategyChoice ⟨he.strategyChoice.fresh, he.strategyChoice.attached, he.strategyChoice.owned,
        he.strategyChoice.named⟩

theorem Joint.lookup (h : Joint cityHash s) (hok : s.nameTree.Harmless cityHash (.lookup n)) :
    Joint cityHash (s.withTree (s.nameTree.lookup cityHash n).1) ∧
    ∃ nte, (s.nameTree.lookup cityHash n).2 = some nte ∧ (s.nameTree.lookup cityHash n).1.nameOf nte = some n := by
  obtain ⟨-, -, -, hret⟩ := h.tree.sound.lookup n hok.lookupRehashes
  exact ⟨h.carried (h.tree.carries_lookup hok) (h.tree.lookup hok), hret⟩

theorem Joint.pitInsert (h : Joint cityHash s) {interest : Interest}
    (hok : s.nameTree.Harmless cityHash (.lookup interest.name)) {p : Pit} {r : Ref} {isNew : Bool}
    (hins : s.pit.insert cityHash interest = some (p, r, isNew)) : Joint cityHash { s with pit := p } := by
  obtain ⟨hlook, nte, hnte, hname⟩ := h.lookup hok
  obtain ⟨t, nte', heq, hkeep, hstored, hcases⟩ := h.pit.insert_cases cityHash interest
  have heq' : s.nameTree.lookup cityHash interest.name = (t, some nte') := heq
  rw [heq'] at hlook hnte hname
  cases hnte
  rcases hcases with ⟨x, -, -, hrun⟩ | ⟨-, hrun⟩
  · rw [hins] at hrun
    cases hrun
    exact hlook
  · rw [hins] at hrun
    cases hrun
    let append : List Ref → List Ref := fun entries => entries ++ [s.pit.nextRef]
    refine ⟨hlook.tree.setPitEntries nte append, hlook.fib.setPitEntries nte append,
      hlook.measurements.setPitEntries nte append, hlook.strategyChoice.setPitEntries nte append,
      h.pit.inserted hkeep hstored interest, fun {x e m} he hm => ?_, ?_⟩
    · show (t.setPitEntries nte append).nameOf m = _
      rw [Pit.nameOf_setPitEntries]
      have he' : (s.pit.inserted t nte interest).entries x = some e := he
      rw [Pit.inserted_entries] at he'
      split at he'
      · cases he'
        cases hm
        exact hname
      · exact hlook.pitNamed he' hm
    · obtain ⟨x, y, hx, hy⟩ := hlook.root
      refine ⟨x, y, (congrFun (Pit.nameOf_setPitEntries t nte append) x).trans hx, ?_⟩
      exact (NameTree.attachedTo_setPitEntries t .strategyChoice nte append x).trans hy

/-- An erasure from the PIT takes the entry from its name tree entry, which may be erased then. -/
theorem Joint.pitErase (h : Joint cityHash s) {r : Ref} {p : Pit} (herase : s.pit.erase r = some p)
    (hok : ∀ nte, s.nameTreeEntryOfPit r = some nte →
      (s.nameTree.setPitEntries nte fun entries => Lists.swapPop entries r).Harmless cityHash
        (.eraseEntryIfEmpty nte)) : Joint cityHash { s with pit := p } := by
  obtain ⟨e, nte, he, hnte, htree⟩ := h.pit.erase_tree herase
  obtain ⟨p₁, hp₁, hlinked, hentries, -⟩ := h.pit.erase he
  rw [herase] at hp₁
  cases hp₁
  have hstable := h.tree.setPitEntries nte fun entries => Lists.swapPop entries r
  have hcarries := hstable.carries_erase nte
  have hnew := hstable.eraseEntryIfEmpty (hok nte (by rw [nameTreeEntryOfPit, he]; exact hnte))
  rw [nameTree, ← htree] at hcarries hnew
  have hsub : ∀ {x e'}, p.entries x = some e' → s.pit.entries x = some e' := by
    intro x e' he'
    rw [hentries] at he'
    by_cases hx : x = r
    · simp [hx] at he'
    · simpa [hx] using he'
  refine ⟨hnew, (h.fib.setPitEntries _ _).carried hcarries, (h.measurements.setPitEntries _ _).carried hcarries,
    (h.strategyChoice.setPitEntries _ _).carried hcarries, hlinked, fun {x e' m} he' hm => ?_, ?_⟩
  · obtain ⟨m', hm', hxm⟩ := hlinked.attached he'
    rw [hm] at hm'
    cases hm'
    obtain ⟨ne, hne, -⟩ := NameTree.isSome_of_mem_pitEntriesOf hxm
    refine hcarries.nameOf_eq ?_ ⟨ne, hne⟩
    rw [Pit.nameOf_setPitEntries]
    exact h.pitNamed (hsub he') hm
  · obtain ⟨x, y, hx, hy⟩ := h.root
    have hy' : p.nameTree.attachedTo .strategyChoice x = some y := by
      rw [hcarries.attachedTo_eq, NameTree.attachedTo_setPitEntries]
      exact hy
    refine ⟨x, y, hcarries.nameOf_eq ?_ (NameTree.stored_of_attachedTo hy'), hy'⟩
    rw [Pit.nameOf_setPitEntries]
    exact hx

/-- Looking up the root in a new name tree does no harm: its hash is zero. -/
theorem new_harmless (nBuckets : Nat) : (NameTree.new nBuckets).Harmless cityHash (.lookup []) := by
  intro j hj _ x e he
  have hzero : j = 0 := Nat.le_zero.mp hj
  subst hzero
  have hbefore : (NameTree.new nBuckets).beforeEnlarge cityHash [] 0 =
      (NameTree.new nBuckets).added cityHash none [] := rfl
  rw [hbefore, NameTree.added_entries cityHash _ none [] (by simp)] at he
  split at he
  · cases he
    simp [NameTree.rehashLoc, computeHash, Entry.new]
  · simp [NameTree.new] at he

/-- The default strategy is attached to the entry of the root. -/
theorem new_eq (cityHash : Component → UInt64) {nBuckets : Nat} (hpos : 0 < nBuckets) (defaultStrategy : Name) :
    ∃ t nte, (NameTree.new nBuckets).lookup cityHash [] = (t, some nte) ∧ t.Stable cityHash ∧
      NameTree.Carries (.new nBuckets) t ∧ t.nameOf nte = some [] ∧
      new cityHash nBuckets defaultStrategy =
        ({ empty nBuckets with strategyInstances := [defaultStrategy] } : Tables).setStrategyChoice
          (Table.empty.attachNew .strategyChoice t nte ⟨[], defaultStrategy⟩) := by
  have hnew : (NameTree.new nBuckets).Stable cityHash := NameTree.new_stable hpos
  have hok : (NameTree.new nBuckets).Harmless cityHash (.lookup []) := new_harmless nBuckets
  have hstable := hnew.lookup hok
  have hcarries := hnew.carries_lookup hok
  obtain ⟨-, -, -, nte, hnte, hname⟩ := hnew.sound.lookup [] hok.lookupRehashes
  generalize hlook : (NameTree.new nBuckets).lookup cityHash [] = looked at hstable hcarries hnte hname
  obtain ⟨t, o⟩ := looked
  subst hnte
  refine ⟨t, nte, rfl, hstable, hcarries, hname, ?_⟩
  have hinstall : (StrategyChoice.install (empty nBuckets) defaultStrategy).1 =
      { empty nBuckets with strategyInstances := [defaultStrategy] } := by
    simp [StrategyChoice.install, empty]
  have htree : Tables.nameTree { empty nBuckets with strategyInstances := [defaultStrategy] } =
      NameTree.new nBuckets := rfl
  simp only [new, StrategyChoice.setDefaultStrategy, hinstall, htree, hlook, Option.elim]
  rfl

theorem new_joint {nBuckets : Nat} (hpos : 0 < nBuckets) (defaultStrategy : Name) :
    Joint cityHash (new cityHash nBuckets defaultStrategy) := by
  obtain ⟨t, nte, -, hstable, hcarries, hname, heq⟩ := new_eq cityHash hpos defaultStrategy
  have hfree : t.attachedTo .strategyChoice nte = none := (hcarries.attachedTo_eq _ _).trans rfl
  have hnone : ∀ x, t.pitEntriesOf x = [] := fun x => (Pit.pitEntriesOf_of_keeps hcarries.keeps x).trans rfl
  rw [heq]
  refine ⟨hstable.setAttached _ _ _, ((Table.empty_attached _ _ _).carried hcarries).setAttached_other (by decide) _ _,
    ((Table.empty_attached _ _ _).carried hcarries).setAttached_other (by decide) _ _,
    ((Table.empty_attached _ _ _).carried hcarries).attachNew hfree hname, ?_, ?_, ?_⟩
  · refine Pit.Linked.withTree (p := .new nBuckets) (Pit.new_linked nBuckets)
      (hstable.setAttached _ _ _).sound.isFresh fun x => ?_
    exact (NameTree.pitEntriesOf_setAttached _ _ _ _ _).trans (hnone x)
  · intro r e x he
    simp [setStrategyChoice, withTree, empty, Pit.new] at he
  · refine ⟨nte, 0, (congrFun (NameTree.nameOf_setAttached _ _ _ _) nte).trans hname, ?_⟩
    obtain ⟨e, he, -⟩ := NameTree.nameOf_eq_some.mp hname
    refine (NameTree.attachedTo_setAttached _ _ _ _ _ _).trans ?_
    simp [he, Table.empty]

/-! ### Runs -/

/-- Detaching an entry resizes without harm. -/
def DetachHarmless (cityHash : Component → UInt64) (t : NameTree) (slot : Slot) (nte : Ref) : Prop :=
  (t.setAttached slot nte none).Harmless cityHash (.eraseEntryIfEmpty nte)

/-- Erasing FIB entries one by one resizes without harm. -/
def EraseAllHarmless (cityHash : Component → UInt64) : Tables → List Ref → Prop
  | _, [] => True
  | s, r :: rs =>
      (∀ nte, s.fib.nameTreeEntryOf r = some nte → DetachHarmless cityHash s.nameTree .fib nte) ∧
        EraseAllHarmless cityHash (Fib.eraseEntry s r) rs

/-- Every resize of the name tree in an operation finds the right buckets. -/
def HarmlessStep (cityHash : Component → UInt64) (s : Tables) : Op → Prop
  | .fibInsert entryPrefix => s.nameTree.Harmless cityHash (.lookup entryPrefix)
  | .fibErase entryPrefix => ∀ nte, s.nameTree.findExactMatch cityHash entryPrefix = some nte →
      DetachHarmless cityHash s.nameTree .fib nte
  | .fibEraseEntry r => EraseAllHarmless cityHash s [r]
  | .fibRemoveNextHopFromAllEntries face => ∀ entries, Fib.enumerate s = some entries →
      let removed := entries.foldl (Fib.removeNextHopRound face) (s, [])
      EraseAllHarmless cityHash removed.1 removed.2
  | .pitInsert interest => s.nameTree.Harmless cityHash (.lookup interest.name)
  | .pitErase r => ∀ nte, s.nameTreeEntryOfPit r = some nte →
      (s.nameTree.setPitEntries nte fun entries => Lists.swapPop entries r).Harmless cityHash (.eraseEntryIfEmpty nte)
  | .measurementsGet name => s.nameTree.Harmless cityHash (.lookup name)
  | .measurementsFindExactMatch name => s.nameTree.Harmless cityHash (.lookup name)
  | .measurementsCleanup r => ∀ nte, s.measurements.nameTreeEntryOf r = some nte →
      DetachHarmless cityHash s.nameTree .measurements nte
  | .strategyInsert entryPrefix _ => s.nameTree.Harmless cityHash (.lookup entryPrefix)
  | .strategyErase entryPrefix => ∀ nte, s.nameTree.findExactMatch cityHash entryPrefix = some nte →
      DetachHarmless cityHash s.nameTree .strategyChoice nte
  | _ => True

theorem Joint.fibInsert (h : Joint cityHash s) (hok : s.nameTree.Harmless cityHash (.lookup n)) {result}
    (hstep : Fib.insert cityHash s n = some result) : Joint cityHash result.1 := by
  obtain ⟨hlook, nte, hnte, hname⟩ := h.lookup hok
  simp only [Fib.insert, hnte, Option.map_some, Option.some.injEq] at hstep
  subst hstep
  cases hatt : (s.nameTree.lookup cityHash n).1.attachedTo .fib nte with
  | some r => exact hlook
  | none =>
      have hname' : (s.nameTree.lookup cityHash n).1.nameOf nte = some (FibContent.mk n []).entryPrefix := hname
      exact hlook.attachNew .fib hname' hatt

theorem Joint.fibErase (h : Joint cityHash s) (rs : List Ref) (hok : EraseAllHarmless cityHash s rs) :
    Joint cityHash (rs.foldl Fib.eraseEntry s) := by
  induction rs generalizing s with
  | nil => exact h
  | cons r rs ih =>
      refine ih ?_ hok.2
      unfold Fib.eraseEntry
      cases hnte : s.fib.nameTreeEntryOf r with
      | none => exact h
      | some nte => exact h.detach .fib Slot.noConfusion (hok.1 nte hnte)

theorem Joint.removeNextHop (h : Joint cityHash s) (face : Face) (r : Ref) :
    Joint cityHash (Fib.removeNextHop s face r) :=
  h.withTable .fib (h.fib.modify r (fun _ => rfl) (fun _ => rfl))

theorem Joint.removeNextHopRounds (h : Joint cityHash s) (face : Face) (rs : List Ref) (done : List Ref) :
    Joint cityHash (rs.foldl (Fib.removeNextHopRound face) (s, done)).1 := by
  induction rs generalizing s done with
  | nil => exact h
  | cons r rs ih => exact ih (h.removeNextHop face r) _

theorem Joint.getAt (h : Joint cityHash s) {result} (hstep : Measurements.getAt s nte = some result) :
    Joint cityHash result.1 := by
  obtain ⟨e, he, rfl⟩ := Option.map_eq_some_iff.mp hstep
  cases hatt : e.measurementsEntry with
  | some r => exact h
  | none =>
      refine h.attachNew .measurements (NameTree.nameOf_eq_some.mpr ⟨e, he, rfl⟩) ?_
      rw [NameTree.attachedTo, he]
      exact hatt

theorem Joint.strategyInsert (h : Joint cityHash s) (hok : s.nameTree.Harmless cityHash (.lookup n))
    {strategyName : Name}
    {result} (hstep : StrategyChoice.insert cityHash s n strategyName = some result) : Joint cityHash result.1 := by
  obtain ⟨hlook, nte, hnte, hname⟩ := h.lookup hok
  unfold StrategyChoice.insert at hstep
  split at hstep
  · cases hstep
    exact h
  · rename_i strategy _
    simp only [hnte, Option.bind_some] at hstep
    split at hstep
    · cases hstep
      exact hlook.withTable .strategyChoice (hlook.strategyChoice.modify _ (fun _ => rfl) (fun _ => rfl))
    · rename_i hatt
      split at hstep
      · cases hstep
      · cases hstep
        have hname' : (s.nameTree.lookup cityHash n).1.nameOf nte =
          some (StrategyChoiceContent.mk n strategy).entryPrefix := hname
        exact hlook.attachNew .strategyChoice hname' hatt

theorem Joint.strategyErase (h : Joint cityHash s)
    (hok : ∀ nte, s.nameTree.findExactMatch cityHash n = some nte →
      DetachHarmless cityHash s.nameTree .strategyChoice nte)
    (hstep : StrategyChoice.erase cityHash s n = some s') : Joint cityHash s' := by
  unfold StrategyChoice.erase at hstep
  split at hstep
  · cases hstep
  · rename_i hlen
    split at hstep
    · cases hstep
      exact h
    · rename_i nte hfind
      split at hstep
      · cases hstep
        exact h
      · split at hstep
        · cases hstep
        · cases hstep
          refine h.detach .strategyChoice (fun _ hroot => ?_) (hok nte hfind)
          rw [h.tree.sound.findExactMatch_eq_some.mp hfind] at hroot
          cases hroot
          exact hlen rfl

theorem Joint.cleanup (h : Joint cityHash s) {r : Ref}
    (hok : ∀ nte, s.measurements.nameTreeEntryOf r = some nte → DetachHarmless cityHash s.nameTree .measurements nte) :
    Joint cityHash (Measurements.cleanup s r) := by
  unfold Measurements.cleanup
  cases hnte : s.measurements.nameTreeEntryOf r with
  | none => exact h
  | some nte => exact h.detach .measurements Slot.noConfusion (hok nte hnte)

/-- Every operation that resizes without harm keeps the tables and the name tree pointing at each other. -/
theorem Joint.step (h : Joint cityHash s) {op : Op} (hok : HarmlessStep cityHash s op)
    (hstep : step cityHash s op = some s') : Joint cityHash s' := by
  cases op with
  | fibInsert entryPrefix =>
      obtain ⟨result, hrun, rfl⟩ := Option.map_eq_some_iff.mp hstep
      exact h.fibInsert hok hrun
  | fibErase entryPrefix =>
      cases hstep
      unfold Fib.erase
      cases hfind : s.nameTree.findExactMatch cityHash entryPrefix with
      | none => exact h
      | some nte => exact h.detach .fib Slot.noConfusion (hok nte hfind)
  | fibEraseEntry r =>
      cases hstep
      exact h.fibErase [r] hok
  | fibAddNextHop r face cost =>
      cases hstep
      exact h.withTable .fib (h.fib.modify r (fun _ => rfl) (fun _ => rfl))
  | fibRemoveNextHop r face =>
      cases hstep
      exact h.removeNextHop face r
  | fibRemoveNextHopFromAllEntries face =>
      obtain ⟨entries, hentries, rfl⟩ := Option.map_eq_some_iff.mp hstep
      exact (h.removeNextHopRounds face entries []).fibErase _ (hok entries hentries)
  | pitInsert interest =>
      obtain ⟨⟨p, r, isNew⟩, hrun, rfl⟩ := Option.map_eq_some_iff.mp hstep
      exact h.pitInsert hok hrun
  | pitErase r =>
      obtain ⟨p, hrun, rfl⟩ := Option.map_eq_some_iff.mp hstep
      exact h.pitErase hrun hok
  | measurementsGet name =>
      obtain ⟨result, hrun, rfl⟩ := Option.map_eq_some_iff.mp hstep
      obtain ⟨nte, -, hget⟩ := Option.bind_eq_some_iff.mp hrun
      exact (h.lookup hok).1.getAt hget
  | measurementsGetOfFib r =>
      obtain ⟨result, hrun, rfl⟩ := Option.map_eq_some_iff.mp hstep
      obtain ⟨nte, -, hget⟩ := Option.bind_eq_some_iff.mp hrun
      exact h.getAt hget
  | measurementsGetOfPit r =>
      obtain ⟨result, hrun, rfl⟩ := Option.map_eq_some_iff.mp hstep
      obtain ⟨nte, -, hget⟩ := Option.bind_eq_some_iff.mp hrun
      exact h.getAt hget
  | measurementsGetParent r =>
      obtain ⟨result, hrun, rfl⟩ := Option.map_eq_some_iff.mp hstep
      obtain ⟨e, -, hrun⟩ := Option.bind_eq_some_iff.mp hrun
      split at hrun
      · cases hrun
        exact h
      · obtain ⟨nte, -, hget⟩ := Option.bind_eq_some_iff.mp hrun
        obtain ⟨got, hgot, rfl⟩ := Option.map_eq_some_iff.mp hget
        exact h.getAt hgot
  | measurementsFindExactMatch name =>
      cases hstep
      exact (h.lookup hok).1
  | measurementsExtendLifetime r lifetime =>
      cases hstep
      unfold Measurements.extendLifetime
      dsimp only
      split
      · exact h.withTable .measurements (h.measurements.modify r (fun _ => rfl) (fun _ => rfl))
      · exact h
  | measurementsCleanup r =>
      simp only [Tables.step] at hstep
      split at hstep
      · cases hstep
      · split at hstep
        · cases hstep
          have hclean := h.cleanup hok
          exact hclean.withTable .measurements (hclean.measurements.modify r (fun _ => rfl) (fun _ => rfl))
        · cases hstep
  | strategyInstall strategyName =>
      cases hstep
      unfold StrategyChoice.install
      split
      · exact h
      · exact ⟨h.tree, h.fib, h.measurements, h.strategyChoice, h.pit, h.pitNamed, h.root⟩
  | strategyInsert entryPrefix strategyName =>
      obtain ⟨result, hrun, rfl⟩ := Option.map_eq_some_iff.mp hstep
      exact h.strategyInsert hok hrun
  | strategyErase entryPrefix => exact h.strategyErase hok hstep
  | find =>
      cases hstep
      exact h
  | advanceClock duration =>
      cases hstep
      exact ⟨h.tree, h.fib, h.measurements, h.strategyChoice, h.pit, h.pitNamed, h.root⟩

end Tables
end NfdPitless
