import NfdPitless.TablesInvariant

/-! No garbage is left in the name tree. An operation of a table looks an entry up and attaches to it, or
detaches from an entry and erases it if it is empty; in between that entry is the only one that may be
empty. `Measurements::findExactMatch` looks up and attaches nothing. -/

namespace NfdPitless

variable {cityHash : Component → UInt64} {t : NameTree} {n : Name} {nte : Ref} {slot : Slot}

/-- An entry of a table is attached. -/
def Entry.inUse (e : Entry) : Bool :=
  e.fibEntry.isSome || e.hasPitEntries || e.measurementsEntry.isSome || e.strategyChoiceEntry.isSome

namespace NameTree

theorem CleanBut.filled (h : t.CleanBut (some nte)) (hfull : ∀ e, t.entries nte = some e → e.isEmpty = false) :
    t.CleanBut none := by
  intro x e he _
  by_cases hx : x = nte
  · subst hx
    exact hfull e he
  · exact h x e he fun heq => hx (Option.some.inj heq).symm

/-- An entry that is changed may become empty. -/
theorem CleanBut.modifyEntry {except : Option Ref} (h : t.CleanBut except) (hex : ∀ x, except = some x → x = nte)
    (f : Entry → Entry) : (t.modifyEntry nte f).CleanBut (some nte) := by
  intro x e he hne
  have hx : x ≠ nte := fun heq => hne (by rw [heq])
  rw [entries_modifyEntry, if_neg hx] at he
  exact h x e he fun heq => hx (hex x heq)

theorem isEmpty_of_attached {e : Entry} {r : Ref} (h : e.attached slot = some r) : e.isEmpty = false := by
  cases slot <;> simp only [Entry.attached] at h <;> simp [Entry.isEmpty, h]

theorem isEmpty_of_pitEntry {e : Entry} {r : Ref} (h : r ∈ e.pitEntries) : e.isEmpty = false := by
  cases hentries : e.pitEntries with
  | nil => simp [hentries] at h
  | cons x l => simp [Entry.isEmpty, hentries]

theorem CleanBut.of_attachedTo (h : t.CleanBut (some nte)) {r : Ref} (hr : t.attachedTo slot nte = some r) :
    t.CleanBut none := by
  refine h.filled fun e he => ?_
  rw [attachedTo, he] at hr
  exact isEmpty_of_attached hr

theorem attached_attach (e : Entry) (slot : Slot) (entry : Option Ref) :
    (e.attach slot entry).attached slot = entry := by
  cases slot <;> rfl

theorem CleanBut.setAttached (h : t.CleanBut (some nte)) (slot : Slot) (r : Ref) :
    (t.setAttached slot nte (some r)).CleanBut none := by
  refine (h.modifyEntry (fun x hx => (Option.some.inj hx).symm) _).filled fun e he => ?_
  rw [entries_modifyEntry, if_pos rfl] at he
  obtain ⟨e₀, -, rfl⟩ := Option.map_eq_some_iff.mp he
  exact isEmpty_of_attached (attached_attach e₀ slot (some r))

/-- Detaching leaves an entry that may be empty, which is erased if it is. -/
theorem CleanBut.detach (h : t.CleanBut none) (hstable : t.Stable cityHash) (slot : Slot) (nte : Ref) :
    ((t.setAttached slot nte none).eraseEntryIfEmpty nte).1.CleanBut none :=
  (hstable.setAttached slot nte none).sound.cleanBut_eraseEntryIfEmpty
    (h.modifyEntry (fun _ hx => by cases hx) _)

theorem Stable.cleanBut_lookup (h : t.Stable cityHash) (hclean : t.CleanBut none)
    (hok : t.Harmless cityHash (.lookup n)) : (t.lookup cityHash n).1.CleanBut (t.lookup cityHash n).2 :=
  h.sound.cleanBut_lookup hok.lookupRehashes hclean

/-- The entry of a name that was not stored has a new address. -/
theorem Sound.unused_of_new (h : t.Sound cityHash) (hre : t.LookupRehashes cityHash n)
    (hn : ∀ x, t.nameOf x ≠ some n) (hname : (t.lookup cityHash n).1.nameOf nte = some n) : t.entries nte = none := by
  obtain ⟨-, hkeep, -, -⟩ := h.lookup n hre
  cases hold : t.entries nte with
  | none => rfl
  | some e =>
      have hname₀ : t.nameOf nte = some e.entryPrefix := nameOf_eq_some.mpr ⟨e, hold, rfl⟩
      have hsame := hkeep nte _ hname₀
      rw [hname] at hsame
      exact absurd (hname₀.trans hsame.symm) (hn nte)

/-- The entry of a name that was not stored has no children: they would be stored below it. -/
theorem Sound.childless_of_new (h : t.Sound cityHash) (hre : t.LookupRehashes cityHash n)
    (hn : ∀ x, t.nameOf x ≠ some n) {e : Entry} (he : (t.lookup cityHash n).1.entries nte = some e)
    (hname : (t.lookup cityHash n).1.nameOf nte = some n) : e.children = [] := by
  obtain ⟨hsound, -, honly, -⟩ := h.lookup n hre
  rw [List.eq_nil_iff_forall_not_mem]
  intro c hc
  have hparent : (t.lookup cityHash n).1.parentOf c = some nte := by
    rw [← hsound.mem_children, childrenOf, he]
    exact hc
  obtain ⟨ec, hec, -⟩ := parentOf_eq_some.mp hparent
  have hcn := nameOf_eq_some.mpr ⟨ec, hec, rfl⟩
  obtain ⟨hnil, hdrop⟩ := hsound.parent_name hcn hparent
  rw [hname] at hdrop
  have heq : n = ec.entryPrefix.dropLast := Option.some.inj hdrop
  rcases honly c _ hcn with hold | hpref
  · obtain ⟨y, hy⟩ := h.prefix_stored hold (List.dropLast_prefix _)
    exact hn y (by rw [hy, ← heq])
  · have hle := hpref.length_le
    have hpos := List.length_pos_iff.mpr hnil
    rw [heq, List.length_dropLast] at hle
    omega

theorem inUse_of_bare {e : Entry} (h : e.attachment = .bare) : e.inUse = false := by
  obtain ⟨hfib, hpit, hmeas, hstrat⟩ := Attachment.mk.inj h
  simp [Entry.inUse, Entry.hasPitEntries, hfib, hpit, hmeas, hstrat]

end NameTree

namespace Tables

variable {s s' : Tables}

/-- The entry of a name is stored, so that looking it up makes no other. -/
def Stored (s : Tables) (n : Name) : Prop := ∃ nte, s.nameTree.nameOf nte = some n

/-- Every resize of the name tree finds the right buckets, and an exact match in the Measurements table is
asked for a name whose entry is stored. -/
def CleanStep (cityHash : Component → UInt64) (s : Tables) : Op → Prop
  | .measurementsFindExactMatch name => s.nameTree.Harmless cityHash (.lookup name) ∧ s.Stored name
  | op => HarmlessStep cityHash s op

theorem CleanStep.harmless {op : Op} (h : CleanStep cityHash s op) : HarmlessStep cityHash s op := by
  cases op with
  | measurementsFindExactMatch name => exact h.1
  | _ => exact h

structure Clean (cityHash : Component → UInt64) (s : Tables) : Prop where
  joint : Joint cityHash s
  clean : s.nameTree.CleanBut none

theorem new_clean {nBuckets : Nat} (hpos : 0 < nBuckets) (defaultStrategy : Name) :
    Clean cityHash (new cityHash nBuckets defaultStrategy) where
  joint := new_joint hpos defaultStrategy
  clean := by
    obtain ⟨t, nte, hlook, -, -, -, heq⟩ := new_eq cityHash hpos defaultStrategy
    have hnew : (NameTree.new nBuckets).CleanBut none := fun _ _ he => by simp [NameTree.new] at he
    have hstable : (NameTree.new nBuckets).Stable cityHash := NameTree.new_stable hpos
    have hclean := hstable.cleanBut_lookup hnew (new_harmless nBuckets)
    rw [hlook] at hclean
    rw [heq]
    exact hclean.setAttached .strategyChoice _

/-- The entry that is looked up is the one that may be empty. -/
theorem Clean.lookup (h : Clean cityHash s) (hok : s.nameTree.Harmless cityHash (.lookup n))
    (hnte : (s.nameTree.lookup cityHash n).2 = some nte) : (s.nameTree.lookup cityHash n).1.CleanBut (some nte) :=
  hnte ▸ h.joint.tree.cleanBut_lookup h.clean hok

theorem Clean.fibInsert (h : Clean cityHash s) (hok : s.nameTree.Harmless cityHash (.lookup n)) {result}
    (hstep : Fib.insert cityHash s n = some result) : result.1.nameTree.CleanBut none := by
  obtain ⟨nte, hnte, rfl⟩ := Option.map_eq_some_iff.mp hstep
  have hclean := h.lookup hok hnte
  split
  · rename_i r hatt
    exact hclean.of_attachedTo hatt
  · exact hclean.setAttached .fib _

theorem Clean.eraseAll (h : Clean cityHash s) (rs : List Ref) (hok : EraseAllHarmless cityHash s rs) :
    Clean cityHash (rs.foldl Fib.eraseEntry s) := by
  induction rs generalizing s with
  | nil => exact h
  | cons r rs ih =>
      refine ih ⟨h.joint.fibErase [r] ⟨hok.1, trivial⟩, ?_⟩ hok.2
      unfold Fib.eraseEntry
      cases s.fib.nameTreeEntryOf r with
      | none => exact h.clean
      | some nte => exact h.clean.detach h.joint.tree .fib nte

theorem removeNextHopRounds_nameTree (face : Face) (rs : List Ref) :
    ∀ (s : Tables) (done : List Ref), (rs.foldl (Fib.removeNextHopRound face) (s, done)).1.nameTree = s.nameTree := by
  induction rs with
  | nil => exact fun _ _ => rfl
  | cons r rs ih => exact fun s done => ih (Fib.removeNextHop s face r) _

theorem Clean.pitInsert (h : Clean cityHash s) {interest : Interest}
    (hok : s.nameTree.Harmless cityHash (.lookup interest.name)) {p : Pit} {r : Ref} {isNew : Bool}
    (hins : s.pit.insert cityHash interest = some (p, r, isNew)) : p.nameTree.CleanBut none := by
  obtain ⟨t, nte, hlook, hkeep, -, hcases⟩ := h.joint.pit.insert_cases cityHash interest
  have hlook' : s.nameTree.lookup cityHash interest.name = (t, some nte) := hlook
  have hclean := h.lookup hok (congrArg Prod.snd hlook')
  rw [hlook'] at hclean
  rcases hcases with ⟨x, -, hmem, hrun⟩ | ⟨-, hrun⟩
  · rw [hins] at hrun
    cases hrun
    refine hclean.filled fun e he => ?_
    rw [← Pit.pitEntriesOf_of_keeps hkeep] at hmem
    rw [NameTree.pitEntriesOf, NameTree.attachmentOf, he] at hmem
    exact NameTree.isEmpty_of_pitEntry hmem
  · rw [hins] at hrun
    cases hrun
    refine (hclean.modifyEntry (fun x hx => (Option.some.inj hx).symm) _).filled fun e he => ?_
    rw [NameTree.entries_modifyEntry, if_pos rfl] at he
    obtain ⟨e₀, -, rfl⟩ := Option.map_eq_some_iff.mp he
    exact NameTree.isEmpty_of_pitEntry (r := s.pit.nextRef) (by simp)

theorem Clean.pitErase (h : Clean cityHash s) {r : Ref} {p : Pit} (herase : s.pit.erase r = some p) :
    p.nameTree.CleanBut none := by
  obtain ⟨e, nte, -, -, htree⟩ := h.joint.pit.erase_tree herase
  rw [htree]
  exact (h.joint.tree.setPitEntries nte _).sound.cleanBut_eraseEntryIfEmpty
    (h.clean.modifyEntry (fun _ hx => by cases hx) _)

theorem getAt_clean (h : s.nameTree.CleanBut (some nte)) {result} (hstep : Measurements.getAt s nte = some result) :
    result.1.nameTree.CleanBut none := by
  obtain ⟨e, he, rfl⟩ := Option.map_eq_some_iff.mp hstep
  split
  · rename_i r hatt
    have hr : s.nameTree.attachedTo .measurements nte = some r := by
      rw [NameTree.attachedTo, he]
      exact hatt
    exact h.of_attachedTo hr
  · exact h.setAttached .measurements _

theorem Clean.getAt (h : Clean cityHash s) {result} (hstep : Measurements.getAt s nte = some result) :
    result.1.nameTree.CleanBut none :=
  getAt_clean (fun x e he _ => h.clean x e he (by intro hx; cases hx)) hstep

theorem Clean.strategyInsert (h : Clean cityHash s) (hok : s.nameTree.Harmless cityHash (.lookup n))
    {strategyName : Name} {result} (hstep : StrategyChoice.insert cityHash s n strategyName = some result) :
    result.1.nameTree.CleanBut none := by
  unfold StrategyChoice.insert at hstep
  split at hstep
  · cases hstep
    exact h.clean
  · obtain ⟨nte, hnte, hrun⟩ := Option.bind_eq_some_iff.mp hstep
    have hclean := h.lookup hok hnte
    split at hrun
    · rename_i r hatt
      cases hrun
      exact hclean.of_attachedTo hatt
    · split at hrun
      · cases hrun
      · cases hrun
        exact hclean.setAttached .strategyChoice _

theorem Clean.strategyErase (h : Clean cityHash s) (hstep : StrategyChoice.erase cityHash s n = some s') :
    s'.nameTree.CleanBut none := by
  unfold StrategyChoice.erase at hstep
  split at hstep
  · cases hstep
  · split at hstep
    · cases hstep
      exact h.clean
    · rename_i nte hfind
      split at hstep
      · cases hstep
        exact h.clean
      · split at hstep
        · cases hstep
        · cases hstep
          exact h.clean.detach h.joint.tree .strategyChoice nte

theorem Clean.cleanup (h : Clean cityHash s) (r : Ref) : (Measurements.cleanup s r).nameTree.CleanBut none := by
  unfold Measurements.cleanup
  cases s.measurements.nameTreeEntryOf r with
  | none => exact h.clean
  | some nte => exact h.clean.detach h.joint.tree .measurements nte

/-- Looking up a name that is stored leaves the name tree as it is. -/
theorem Joint.findExactMatch_nameTree (h : Joint cityHash s) (hn : s.Stored n) :
    (Measurements.findExactMatch cityHash s n).1.nameTree = s.nameTree := by
  obtain ⟨nte, hnte⟩ := hn
  have hlook := h.tree.sound.lookup_stored h.tree.roomy hnte
  show (s.nameTree.lookup cityHash n).1 = s.nameTree
  rw [hlook]

/-- One operation leaves no garbage. -/
theorem Clean.step (h : Clean cityHash s) {op : Op} (hok : CleanStep cityHash s op)
    (hstep : step cityHash s op = some s') : Clean cityHash s' := by
  refine ⟨h.joint.step hok.harmless hstep, ?_⟩
  cases op with
  | fibInsert entryPrefix =>
      obtain ⟨result, hrun, rfl⟩ := Option.map_eq_some_iff.mp hstep
      exact h.fibInsert hok hrun
  | fibErase entryPrefix =>
      cases hstep
      unfold Fib.erase
      cases s.nameTree.findExactMatch cityHash entryPrefix with
      | none => exact h.clean
      | some nte => exact h.clean.detach h.joint.tree .fib nte
  | fibEraseEntry r =>
      cases hstep
      exact (h.eraseAll [r] hok).clean
  | fibAddNextHop r face cost =>
      cases hstep
      exact h.clean
  | fibRemoveNextHop r face =>
      cases hstep
      exact h.clean
  | fibRemoveNextHopFromAllEntries face =>
      obtain ⟨entries, hentries, rfl⟩ := Option.map_eq_some_iff.mp hstep
      have hrounds : Clean cityHash (entries.foldl (Fib.removeNextHopRound face) (s, [])).1 :=
        ⟨h.joint.removeNextHopRounds face entries [], by rw [removeNextHopRounds_nameTree]; exact h.clean⟩
      exact (hrounds.eraseAll _ (hok entries hentries)).clean
  | pitInsert interest =>
      obtain ⟨⟨p, r, isNew⟩, hrun, rfl⟩ := Option.map_eq_some_iff.mp hstep
      exact h.pitInsert hok hrun
  | pitErase r =>
      obtain ⟨p, hrun, rfl⟩ := Option.map_eq_some_iff.mp hstep
      exact h.pitErase hrun
  | measurementsGet name =>
      obtain ⟨result, hrun, rfl⟩ := Option.map_eq_some_iff.mp hstep
      obtain ⟨nte, hnte, hget⟩ := Option.bind_eq_some_iff.mp hrun
      exact getAt_clean (s := s.withTree _) (h.lookup hok hnte) hget
  | measurementsGetOfFib r =>
      obtain ⟨result, hrun, rfl⟩ := Option.map_eq_some_iff.mp hstep
      obtain ⟨nte, -, hget⟩ := Option.bind_eq_some_iff.mp hrun
      exact h.getAt hget
  | measurementsGetOfPit r =>
      obtain ⟨result, hrun, rfl⟩ := Option.map_eq_some_iff.mp hstep
      obtain ⟨nte, -, hget⟩ := Option.bind_eq_some_iff.mp hrun
      exact h.getAt hget
  | measurementsGetParent r =>
      obtain ⟨result, hrun, rfl⟩ := Option.map_eq_some_iff.mp hstep
      obtain ⟨e, -, hrun⟩ := Option.bind_eq_some_iff.mp hrun
      split at hrun
      · cases hrun
        exact h.clean
      · obtain ⟨nte, -, hget⟩ := Option.bind_eq_some_iff.mp hrun
        obtain ⟨got, hgot, rfl⟩ := Option.map_eq_some_iff.mp hget
        exact h.getAt hgot
  | measurementsFindExactMatch name =>
      cases hstep
      rw [h.joint.findExactMatch_nameTree hok.2]
      exact h.clean
  | measurementsExtendLifetime r lifetime =>
      cases hstep
      unfold Measurements.extendLifetime
      dsimp only
      split <;> exact h.clean
  | measurementsCleanup r =>
      simp only [Tables.step] at hstep
      split at hstep
      · cases hstep
      · split at hstep
        · cases hstep
          exact h.cleanup r
        · cases hstep
  | strategyInstall strategyName =>
      cases hstep
      unfold StrategyChoice.install
      split <;> exact h.clean
  | strategyInsert entryPrefix strategyName =>
      obtain ⟨result, hrun, rfl⟩ := Option.map_eq_some_iff.mp hstep
      exact h.strategyInsert hok hrun
  | strategyErase entryPrefix => exact h.strategyErase hstep
  | find =>
      cases hstep
      exact h.clean
  | advanceClock duration =>
      cases hstep
      exact h.clean

/-! ### No garbage -/

/-- The find operations. -/
def Op.isFind : Op → Bool
  | .find => true
  | .measurementsFindExactMatch _ => true
  | _ => false

/-- Every name tree entry without children has an entry of a table attached. -/
def NoGarbage (s : Tables) : Prop :=
  ∀ x e, s.nameTree.entries x = some e → e.children = [] → e.inUse = true

theorem noGarbage_iff : s.NoGarbage ↔ s.nameTree.CleanBut none := by
  have hempty : ∀ e : Entry, e.isEmpty = false ↔ (e.children = [] → e.inUse = true) := by
    intro e
    cases hc : e.children with
    | nil => cases hf : e.fibEntry <;> cases hm : e.measurementsEntry <;> cases hs : e.strategyChoiceEntry <;>
        cases hp : e.pitEntries <;> simp [Entry.isEmpty, Entry.inUse, Entry.hasPitEntries, hc, hf, hm, hs, hp]
    | cons c l => simp [Entry.isEmpty, hc]
  exact ⟨fun h x e he _ => (hempty e).mpr (h x e he), fun h x e he => (hempty e).mp (h x e he (by intro hx; cases hx))⟩

/-- A name that is not stored becomes an entry that nothing is attached to. -/
theorem Joint.garbage_of_not_stored (h : Joint cityHash s) (hok : s.nameTree.Harmless cityHash (.lookup n))
    (hn : ¬ s.Stored n) : ¬ (s.withTree (s.nameTree.lookup cityHash n).1).NoGarbage := by
  have hre := hok.lookupRehashes
  obtain ⟨-, -, -, nte, -, hname⟩ := h.tree.sound.lookup n hre
  obtain ⟨e, he, -⟩ := NameTree.nameOf_eq_some.mp hname
  have hnew : ∀ x, s.nameTree.nameOf x ≠ some n := fun x hx => hn ⟨x, hx⟩
  have hbare := congrFun (h.tree.carries_lookup hok).keeps.attachmentOf_eq nte
  rw [NameTree.attachmentOf, NameTree.attachmentOf, he, h.tree.sound.unused_of_new hre hnew hname] at hbare
  intro hgarbage
  have hused := hgarbage nte e he (h.tree.sound.childless_of_new hre hnew he hname)
  rw [NameTree.inUse_of_bare hbare] at hused
  cases hused

/-- In every run whose resizes find the right buckets and whose exact matches in the Measurements table are
for stored names, every name tree entry without children has an entry of a table attached, and a find
operation leaves the name tree as it is. An exact match for any other name leaves garbage. -/
theorem no_garbage {nBuckets : Nat} (hpos : 0 < nBuckets) (defaultStrategy : Name)
    (hr : Reach (step cityHash) (CleanStep cityHash) (new cityHash nBuckets defaultStrategy) s) :
    s.NoGarbage ∧
    (∀ op s', op.isFind = true → CleanStep cityHash s op → step cityHash s op = some s' → s'.nameTree = s.nameTree) ∧
    ∀ name s', s.nameTree.Harmless cityHash (.lookup name) →
      step cityHash s (.measurementsFindExactMatch name) = some s' → (s'.NoGarbage ↔ s.Stored name) := by
  have hclean : Clean cityHash s :=
    hr.invariant (new_clean hpos defaultStrategy) fun _ _ _ h hok hstep => h.step hok hstep
  refine ⟨noGarbage_iff.mpr hclean.clean, fun op s' hfind hok hstep => ?_, fun name s' hok hstep => ?_⟩
  · cases op with
    | find =>
        cases hstep
        rfl
    | measurementsFindExactMatch name =>
        cases hstep
        exact hclean.joint.findExactMatch_nameTree hok.2
    | _ => cases hfind
  · cases hstep
    constructor
    · intro hgarbage
      by_contra hn
      exact hclean.joint.garbage_of_not_stored hok hn hgarbage
    · intro hn
      rw [noGarbage_iff, hclean.joint.findExactMatch_nameTree hn]
      exact hclean.clean

theorem no_garbage_insert_find : ∃ s,
    Reach (step NameTree.octetHash) (CleanStep NameTree.octetHash) (new NameTree.octetHash 1024 [.ofByte 83]) s ∧
      s.NoGarbage ∧ s.nameTree.nItems = 2 := by
  have hinsert : Reach (step NameTree.octetHash) (CleanStep NameTree.octetHash)
      (new NameTree.octetHash 1024 [.ofByte 83]) _ :=
    .next (.fibInsert [.ofByte 65]) .start (NameTree.harmless_lookup_of_two_pow (k := 10) rfl (by decide +kernel)) rfl
  have hfind := hinsert.next (Op.measurementsFindExactMatch [.ofByte 65])
    ⟨NameTree.harmless_lookup_of_two_pow (k := 10) rfl (by decide +kernel), 1, by decide +kernel⟩ rfl
  exact ⟨_, hfind, (no_garbage (by decide) _ hfind).1, by decide +kernel⟩

/-- Asking for the Measurements entry of a name leaves an entry of the name tree that nothing uses. -/
theorem findExactMatch_leaves_garbage :
    ∃ s, Reach (step NameTree.octetHash) anyStep (new NameTree.octetHash 1024 [.ofByte 83]) s ∧ ¬ s.NoGarbage := by
  refine ⟨_, .next (.measurementsFindExactMatch [.ofByte 65]) .start trivial rfl, fun h => ?_⟩
  have hentry : (Measurements.findExactMatch NameTree.octetHash (new NameTree.octetHash 1024 [.ofByte 83])
      [.ofByte 65]).1.nameTree.entries 1 = some { Entry.new [.ofByte 65] 65 with parent := some 0 } := by
    decide +kernel
  have hused := h 1 _ hentry rfl
  cases hused

end Tables
end NfdPitless
