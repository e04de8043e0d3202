import NfdPitless.NameTreeIntegrity
import NfdPitless.NameTreeAttachment
import Mathlib.Data.Set.Card
import Mathlib.Order.Interval.Finset.Nat

/-! What the operations do to the tree of names: which entries a lookup adds and which an erasure removes,
that the counter counts them, and that no entry is left without children and without attachments but the
one a table is about to use. All of it rests on the chains being right, so on every resize finding the
right buckets. -/

namespace NfdPitless.NameTree

variable {cityHash : Component → UInt64} {t t' : NameTree} {n : Name} {r : Ref}

/-- What the loop of `lookup` keeps: adding an entry and enlarging the table are all it does. -/
theorem Fresh.lookupAcc_rule {I : NameTree → Prop} (h : t.Fresh) (hI : I t)
    (hadd : ∀ t parent m, t.Fresh → (∀ p, parent = some p → p < t.nextRef) → I t →
      I (t.added cityHash parent m).enlargeIfLoaded)
    (hlarge : ∀ t, I t → I t.enlargeIfLoaded) (n : Name) (j : Nat) : I (t.lookupAcc cityHash n j).1 := by
  have hloop : (t.lookupAcc cityHash n j).1.Fresh ∧ I (t.lookupAcc cityHash n j).1 ∧
      ∀ p, (t.lookupAcc cityHash n j).2 = some p → ((t.lookupAcc cityHash n j).1.entries p).isSome := by
    induction j with
    | zero => exact ⟨h, hI, fun p hp => by cases hp⟩
    | succ j ih =>
        rw [lookupAcc_succ]
        generalize t.lookupAcc cityHash n j = acc at ih ⊢
        obtain ⟨t', parent⟩ := acc
        obtain ⟨hfresh, hI', hparent⟩ := ih
        obtain ⟨hkeep, r, hr, hstored⟩ := hfresh.lookupStep cityHash (n.getPrefix j) hparent
        refine ⟨hkeep.fresh, ?_, fun p hp => ?_⟩
        · rcases insert_found_or_new cityHash t' (n.getPrefix j) with ⟨x, -, hins⟩ | ⟨t'', hins, hlink⟩
          · simp only [NameTree.lookupStep, hins, Bool.false_eq_true, if_false]
            exact hlarge t' hI'
          · simp only [NameTree.lookupStep, hins, if_true, hlink]
            exact hadd t' parent _ hfresh (fun p hp => hfresh p (hparent p hp)) hI'
        · rw [hr] at hp
          cases hp
          exact hstored
  exact hloop.2.1

theorem Fresh.lookup_rule {I : NameTree → Prop} (h : t.Fresh) (hI : I t)
    (hadd : ∀ t parent m, t.Fresh → (∀ p, parent = some p → p < t.nextRef) → I t →
      I (t.added cityHash parent m).enlargeIfLoaded)
    (hlarge : ∀ t, I t → I t.enlargeIfLoaded) (n : Name) : I (t.lookup cityHash n).1 := by
  rw [lookup_eq_lookupAcc]
  exact h.lookupAcc_rule hI hadd hlarge n _

/-- What an erasure keeps: removing an empty entry and shrinking the table are all it does. -/
theorem eraseUp_rule {I : NameTree → Prop}
    (hrem : ∀ t r e, t.entries r = some e → e.isEmpty = true → I t → I (t.removed r e))
    (hshrink : ∀ t, I t → I t.shrinkIfSparse) (fuel : Nat) :
    ∀ {t : NameTree} {r : Ref}, I t → I (eraseUp fuel t r).1 := by
  induction fuel with
  | zero => exact fun hI => hI
  | succ fuel ih =>
      intro t r hI
      rcases eraseUp_succ_cases fuel t r with ⟨e, he, hempty, hrun⟩ | ⟨-, hrun⟩
      · rw [hrun]
        have hI' := hrem t r e he hempty hI
        cases e.parent with
        | none => exact hshrink _ hI'
        | some p => exact hshrink _ (ih hI')
      · rw [hrun]
        exact hI

theorem eraseEntryIfEmpty_minNBuckets (t : NameTree) (r : Ref) :
    (t.eraseEntryIfEmpty r).1.minNBuckets = t.minNBuckets := by
  refine eraseUp_rule (I := fun u => u.minNBuckets = t.minNBuckets) (fun u r e _ _ h => ?_) (fun u h => ?_) _ rfl
  · rw [removed_minNBuckets, h]
  · unfold NameTree.shrinkIfSparse
    split <;> exact h

/-- The number of buckets is a power of two, and halving gives at most `2 ^ 32`. -/
def TwoPow (t : NameTree) : Prop := 0 < t.minNBuckets ∧ ∃ k, k ≤ 33 ∧ t.nBuckets = 2 ^ k

theorem TwoPow.half (h : t.TwoPow) (hmin : t.minNBuckets ≤ t.nBuckets / 2) : ∃ k, k ≤ 32 ∧ t.nBuckets / 2 = 2 ^ k := by
  obtain ⟨hpos, k, hk, heq⟩ := h
  cases k with
  | zero =>
      rw [heq] at hmin
      omega
  | succ k => exact ⟨k, by omega, by rw [heq, pow_succ, Nat.mul_div_cancel _ (by decide)]⟩

theorem TwoPow.shrinkRehashes (h : t.TwoPow) : t.ShrinkRehashes := by
  intro hmin _
  obtain ⟨k, hk, heq⟩ := h.half hmin
  rw [heq]
  exact rehashesTo_two_pow hk

theorem TwoPow.shrinkIfSparse (h : t.TwoPow) : t.shrinkIfSparse.TwoPow := by
  unfold NameTree.shrinkIfSparse
  split
  · rename_i hsparse
    obtain ⟨k, hk, heq⟩ := h.half hsparse.1
    exact ⟨h.1, k, by omega, heq⟩
  · exact h

theorem TwoPow.removed (h : t.TwoPow) (r : Ref) (e : Entry) : (t.removed r e).TwoPow := by
  simpa [TwoPow] using h

theorem TwoPow.eraseRehashes (fuel : Nat) : ∀ {t : NameTree} {r : Ref}, t.TwoPow → EraseRehashes fuel t r := by
  induction fuel with
  | zero => exact fun _ => trivial
  | succ fuel ih =>
      intro t r h e _ _
      have hrem := h.removed r e
      refine ⟨fun p _ => ih hrem, ?_⟩
      cases e.parent with
      | none => exact hrem.shrinkRehashes
      | some p =>
          have hup : (eraseUp fuel (t.removed r e) p).1.TwoPow :=
            eraseUp_rule (fun _ r e _ _ h => h.removed r e) (fun _ h => h.shrinkIfSparse) fuel hrem
          exact hup.shrinkRehashes

/-- The stored entries. -/
def stored (t : NameTree) : Set Ref := { r | (t.entries r).isSome }

/-- The counter is the number of stored entries, and the table is not smaller than it was initially. -/
structure Counted (t : NameTree) : Prop where
  fresh : t.Fresh
  nItems_eq : t.nItems = t.stored.ncard
  min_le : t.minNBuckets ≤ t.nBuckets

theorem Fresh.stored_finite (h : t.Fresh) : t.stored.Finite :=
  (Set.finite_Iio t.nextRef).subset fun x hx => h x hx

theorem added_stored {parent : Option Ref} (hp : ∀ p, parent = some p → p ≠ t.nextRef) (m : Name) :
    (t.added cityHash parent m).stored = Insert.insert t.nextRef t.stored := by
  ext x
  simp only [stored, Set.mem_ofPred_eq, Set.mem_insert_iff, added_entries cityHash t parent m hp]
  by_cases hx : x = t.nextRef
  · simp [hx]
  · simp only [hx, if_false, false_or]
    split <;> simp

theorem removed_stored (r : Ref) (e : Entry) : (t.removed r e).stored = t.stored \ {r} := by
  ext x
  simp only [stored, Set.mem_ofPred_eq, Set.mem_sdiff, Set.mem_singleton_iff, removed_entries]
  by_cases hx : x = r
  · simp [hx]
  · simp only [hx, if_false, not_false_eq_true, and_true]
    split <;> simp

theorem Counted.added (h : t.Counted) {parent : Option Ref} (hp : ∀ p, parent = some p → p < t.nextRef) (m : Name) :
    (t.added cityHash parent m).Counted where
  fresh := (h.fresh.added cityHash m hp).fresh
  nItems_eq := by
    have hnew : t.nextRef ∉ t.stored := fun hmem => absurd (h.fresh _ hmem) (lt_irrefl _)
    rw [added_stored (fun p hpar => (hp p hpar).ne) m, Set.ncard_insert_of_notMem hnew h.fresh.stored_finite,
      added_nItems, h.nItems_eq]
  min_le := by simpa using h.min_le

theorem Counted.enlargeIfLoaded (h : t.Counted) : t.enlargeIfLoaded.Counted := by
  have hmin := h.min_le
  unfold NameTree.enlargeIfLoaded
  split
  · exact ⟨h.fresh, h.nItems_eq, by simp only [NameTree.resize]; omega⟩
  · exact h

theorem Counted.removed (h : t.Counted) {r : Ref} {e : Entry} (he : t.entries r = some e) (hempty : e.isEmpty = true) :
    (t.removed r e).Counted where
  fresh := (h.fresh.removed he hempty).fresh
  nItems_eq := by
    have hmem : r ∈ t.stored := by simp [stored, he]
    rw [removed_stored, Set.ncard_sdiff_singleton_of_mem hmem, removed_nItems, h.nItems_eq]
  min_le := by simpa using h.min_le

theorem Counted.shrinkIfSparse (h : t.Counted) : t.shrinkIfSparse.Counted := by
  unfold NameTree.shrinkIfSparse
  split
  · rename_i hsparse
    exact ⟨h.fresh, h.nItems_eq, hsparse.1⟩
  · exact h

theorem Counted.modifyEntry (h : t.Counted) (r : Ref) (f : Entry → Entry) : (t.modifyEntry r f).Counted := by
  unfold NameTree.modifyEntry
  split
  · rename_i e he
    have hstored : (t.setEntry r (some (f e))).stored = t.stored := by
      ext x
      by_cases hx : x = r
      · simp [stored, setEntry, hx, he]
      · simp [stored, setEntry, hx]
    refine ⟨fun x hx => h.fresh x ?_, ?_, h.min_le⟩
    · have hmem : x ∈ (t.setEntry r (some (f e))).stored := hx
      rw [hstored] at hmem
      exact hmem
    · rw [hstored]
      exact h.nItems_eq
  · exact h

theorem Sound.counted_afterInsert (h : t.Sound cityHash) (hcounted : t.Counted) {parent : Option Ref}
    (hparent : t.IsParentFor parent n) : (t.afterInsert cityHash parent n).Counted := by
  rcases h.afterInsert_cases parent n with ⟨r, -, hafter, -⟩ | ⟨-, hafter, -⟩
  · rw [hafter]
    exact hcounted
  · rw [hafter]
    refine hcounted.added (fun p hp => ?_) n
    rcases hparent with ⟨-, hnone⟩ | ⟨-, q, hq, hname⟩
    · rw [hnone] at hp
      cases hp
    · rw [hq] at hp
      cases hp
      exact h.fresh hname

theorem new_counted (nBuckets : Nat) : (new nBuckets).Counted where
  fresh := new_fresh nBuckets
  nItems_eq := by simp [new, stored]
  min_le := le_rfl

theorem Counted.lookupAcc (h : t.Counted) (cityHash : Component → UInt64) (n : Name) (j : Nat) :
    (t.lookupAcc cityHash n j).1.Counted :=
  h.fresh.lookupAcc_rule h (fun _ _ m _ hp h => (h.added hp m).enlargeIfLoaded) (fun _ h => h.enlargeIfLoaded) n j

theorem Counted.lookup (h : t.Counted) (cityHash : Component → UInt64) (n : Name) :
    (t.lookup cityHash n).1.Counted :=
  h.fresh.lookup_rule h (fun _ _ m _ hp h => (h.added hp m).enlargeIfLoaded) (fun _ h => h.enlargeIfLoaded) n

theorem Counted.eraseEntryIfEmpty (h : t.Counted) (r : Ref) : (t.eraseEntryIfEmpty r).1.Counted :=
  eraseUp_rule (fun _ _ _ he hempty h => h.removed he hempty) (fun _ h => h.shrinkIfSparse) _ h

/-- The thresholds are those of the number of buckets, and the table is not overloaded. -/
structure Roomy (t : NameTree) : Prop where
  enlarge_eq : t.enlargeThreshold = t.nBuckets / 2
  shrink_eq : t.shrinkThreshold = t.nBuckets / 10
  le_enlarge : t.nItems ≤ t.enlargeThreshold

theorem Roomy.enlargeIfLoaded (h : t.Roomy) : t.enlargeIfLoaded = t := by
  rw [NameTree.enlargeIfLoaded, if_neg (Nat.not_lt.mpr h.le_enlarge)]

theorem new_roomy (nBuckets : Nat) : (new nBuckets).Roomy := ⟨rfl, rfl, Nat.zero_le _⟩

@[simp] theorem added_shrinkThreshold (t : NameTree) (parent : Option Ref) (m : Name) :
    (t.added cityHash parent m).shrinkThreshold = t.shrinkThreshold := by
  cases parent with
  | none =>
      simp only [added, linkNew]
      unfold modifyEntry
      split <;> rfl
  | some p =>
      simp only [added, linkNew]
      unfold modifyEntry
      split <;> split <;> rfl

@[simp] theorem removed_enlargeThreshold (t : NameTree) (r : Ref) (e : Entry) :
    (t.removed r e).enlargeThreshold = t.enlargeThreshold := by
  unfold removed
  split
  · rfl
  · simp only [removeNode]
    unfold modifyEntry
    split <;> rfl

theorem Roomy.added (h : t.Roomy) (hpos : 0 < t.nBuckets) (parent : Option Ref) (m : Name) :
    (t.added cityHash parent m).enlargeIfLoaded.Roomy := by
  have henlarge := h.enlarge_eq
  have hle := h.le_enlarge
  unfold NameTree.enlargeIfLoaded
  split
  · refine ⟨rfl, rfl, ?_⟩
    simp only [NameTree.resize, added_nItems, added_nBuckets]
    omega
  · rename_i hroom
    exact ⟨by simpa using h.enlarge_eq, by simpa using h.shrink_eq, Nat.not_lt.mp hroom⟩

theorem Roomy.removed (h : t.Roomy) (r : Ref) (e : Entry) : (t.removed r e).Roomy := by
  have hle := h.le_enlarge
  exact ⟨by simpa using h.enlarge_eq, by simpa using h.shrink_eq, by
    rw [removed_nItems, removed_enlargeThreshold]
    omega⟩

theorem Roomy.shrinkIfSparse (h : t.Roomy) : t.shrinkIfSparse.Roomy := by
  unfold NameTree.shrinkIfSparse
  split
  · rename_i hsparse
    have hshrink := h.shrink_eq
    refine ⟨rfl, rfl, ?_⟩
    simp only [NameTree.resize]
    omega
  · exact h

theorem Roomy.lookup (h : t.Roomy) (hfresh : t.Fresh) (hpos : 0 < t.nBuckets) (cityHash : Component → UInt64)
    (n : Name) : (t.lookup cityHash n).1.Roomy := by
  have hboth : (t.lookup cityHash n).1.Roomy ∧ 0 < (t.lookup cityHash n).1.nBuckets := by
    refine hfresh.lookup_rule (I := fun t => t.Roomy ∧ 0 < t.nBuckets) ⟨h, hpos⟩ ?_ ?_ n
    · intro t parent m _ _ hI
      refine ⟨hI.1.added hI.2 parent m, hI.2.trans_le ?_⟩
      exact (added_nBuckets t parent m).ge.trans (nBuckets_le_enlargeIfLoaded _)
    · intro t hI
      rw [hI.1.enlargeIfLoaded]
      exact hI
  exact hboth.1

theorem Roomy.eraseEntryIfEmpty (h : t.Roomy) (r : Ref) : (t.eraseEntryIfEmpty r).1.Roomy :=
  eraseUp_rule (fun _ r e _ _ h => h.removed r e) (fun _ h => h.shrinkIfSparse) _ h

/-- Looking up a name that is stored changes nothing. -/
theorem Sound.lookup_stored (h : t.Sound cityHash) (hroom : t.Roomy) (hr : t.nameOf r = some n) :
    t.lookup cityHash n = (t, some r) := by
  have hloop : ∀ j, j ≤ n.length + 1 → (t.lookupAcc cityHash n j).1 = t ∧
      (∀ i, j = i + 1 → ∃ x, (t.lookupAcc cityHash n j).2 = some x ∧ t.nameOf x = some (n.getPrefix i)) := by
    intro j
    induction j with
    | zero => exact fun _ => ⟨rfl, fun i hi => absurd hi (by omega)⟩
    | succ j ih =>
        intro hj
        obtain ⟨htree, -⟩ := ih (by omega)
        obtain ⟨y, hy⟩ := h.prefix_stored hr (List.take_prefix j n)
        rw [lookupAcc_succ, lookupStep_eq, htree]
        rcases h.afterInsert_cases (t.lookupAcc cityHash n j).2 (n.getPrefix j) with
          ⟨x, hx, hafter, hret⟩ | ⟨hnew, -⟩
        · rw [hafter, hret]
          refine ⟨hroom.enlargeIfLoaded, fun i hi => ⟨x, rfl, ?_⟩⟩
          cases hi
          exact hx
        · exact absurd hy (hnew y)
  obtain ⟨htree, hret⟩ := hloop (n.length + 1) le_rfl
  obtain ⟨x, hx, hxn⟩ := hret n.length rfl
  rw [Name.getPrefix, List.take_length] at hxn
  rw [lookup_eq_lookupAcc]
  exact Prod.ext htree (hx.trans (by rw [h.nameOf_inj hxn hr]))

/-! ### Entries without children and attachments -/

/-- Every stored entry but `except` has a child or something attached. -/
def CleanBut (t : NameTree) (except : Option Ref) : Prop :=
  ∀ x e, t.entries x = some e → except ≠ some x → e.isEmpty = false

theorem isEmpty_of_child {e : Entry} {c : Ref} (h : c ∈ e.children) : e.isEmpty = false := by
  cases hchildren : e.children with
  | nil => simp [hchildren] at h
  | cons d l => simp [Entry.isEmpty, hchildren]

/-- One iteration of `lookup`: the entry before is the parent of the one found or made. -/
theorem Sound.cleanBut_afterInsert (h : t.Sound cityHash) {parent : Option Ref} (hparent : t.IsParentFor parent n)
    (hclean : t.CleanBut parent) :
    (t.afterInsert cityHash parent n).CleanBut (some (t.insert cityHash n).2.1) := by
  rcases h.afterInsert_cases parent n with ⟨r, hr, hafter, hret⟩ | ⟨hnew, hafter, hret⟩
  · rw [hafter, hret]
    intro x e he hne
    by_cases hx : parent = some x
    · rcases hparent with ⟨-, hnone⟩ | ⟨hnil, p, hp, hpn⟩
      · rw [hx] at hnone
        cases hnone
      · rw [hx] at hp
        cases hp
        obtain ⟨q, hq, hqn⟩ := h.parent_cons hr hnil
        rw [h.nameOf_inj hqn hpn] at hq
        have hchild := h.mem_children.mpr hq
        rw [childrenOf, he] at hchild
        exact isEmpty_of_child hchild
    · exact hclean x e he hx
  · rw [hafter, hret]
    intro x e he hne
    have hx : x ≠ t.nextRef := fun heq => hne (by rw [heq])
    rw [added_entries cityHash t parent n (h.ne_nextRef hparent), if_neg hx] at he
    split at he
    · obtain ⟨e0, -, rfl⟩ := Option.map_eq_some_iff.mp he
      exact isEmpty_of_child (c := t.nextRef) (by simp)
    · rename_i hpar
      exact hclean x e he hpar

/-- After a lookup only the entry that it returns may be empty. -/
theorem Sound.cleanBut_lookup (h : t.Sound cityHash) (hre : t.LookupRehashes cityHash n) (hclean : t.CleanBut none) :
    (t.lookup cityHash n).1.CleanBut (t.lookup cityHash n).2 := by
  have hloop : ∀ j, j ≤ n.length + 1 →
      (t.lookupAcc cityHash n j).1.CleanBut (t.lookupAcc cityHash n j).2 := by
    intro j
    induction j with
    | zero => exact fun _ => hclean
    | succ j ih =>
        intro hj
        obtain ⟨hsound, -, -, hparent, -⟩ := h.lookupLoop n hre j (by omega)
        rw [lookupAcc_succ, lookupStep_eq]
        intro x e he
        rw [enlargeIfLoaded_entries] at he
        exact hsound.cleanBut_afterInsert (hparent (by omega)) (ih (by omega)) x e he
  rw [lookup_eq_lookupAcc]
  exact hloop (n.length + 1) le_rfl

theorem shrinkIfSparse_entries (t : NameTree) : t.shrinkIfSparse.entries = t.entries := by
  unfold NameTree.shrinkIfSparse
  split <;> rfl

theorem CleanBut.removed (h : t.CleanBut (some r)) {e : Entry} : (t.removed r e).CleanBut e.parent := by
  intro x e' he' hne
  rw [removed_entries] at he'
  split at he'
  · cases he'
  · rename_i hxr
    exact h x e' he' fun heq => hxr (Option.some.inj heq).symm

theorem Sound.parent_name (h : t.Sound cityHash) {m : Name} {p : Ref} (hr : t.nameOf r = some m)
    (hp : t.parentOf r = some p) : m ≠ [] ∧ t.nameOf p = some m.dropLast := by
  have hnil : m ≠ [] := by
    rintro rfl
    rw [h.parent_root hr] at hp
    cases hp
  obtain ⟨q, hq, hqn⟩ := h.parent_cons hr hnil
  rw [hp] at hq
  cases hq
  exact ⟨hnil, hqn⟩

/-- A name is longer than that of the parent. -/
theorem Sound.parent_shorter (h : t.Sound cityHash) {m pm : Name} {p : Ref} (hr : t.nameOf r = some m)
    (hp : t.parentOf r = some p) (hpm : t.nameOf p = some pm) : pm.length < m.length := by
  obtain ⟨hnil, hpn⟩ := h.parent_name hr hp
  rw [hpm] at hpn
  have hpos := List.length_pos_iff.mpr hnil
  rw [Option.some.inj hpn, List.length_dropLast]
  omega

theorem Sound.parent_ne (h : t.Sound cityHash) {m : Name} {p : Ref} (hr : t.nameOf r = some m)
    (hp : t.parentOf r = some p) : p ≠ r := by
  rintro rfl
  exact absurd (h.parent_shorter hr hp hr) (lt_irrefl _)

/-- The recursion of `eraseEntryIfEmpty` goes to shorter names. -/
theorem Sound.removed_parent_shorter (h : t.Sound cityHash) {e : Entry} {p : Ref} {m : Name}
    (he : t.entries r = some e) (hp : e.parent = some p) (hm : (t.removed r e).nameOf p = some m) :
    m.length < e.entryPrefix.length := by
  rw [removed_nameOf] at hm
  split at hm
  · cases hm
  · exact h.parent_shorter (nameOf_eq_some.mpr ⟨e, he, rfl⟩) (parentOf_eq_some.mpr ⟨e, he, hp⟩) hm

/-- After the entry that may be empty has been erased if it is, none is empty. -/
theorem Sound.cleanBut_eraseUp (fuel : Nat) : ∀ {t : NameTree} {r : Ref}, t.Sound cityHash →
    (∀ m, t.nameOf r = some m → m.length < fuel) → t.CleanBut (some r) →
    (NameTree.eraseUp fuel t r).1.CleanBut none := by
  induction fuel with
  | zero =>
      intro t r _ hfuel hclean x e he _
      refine hclean x e he fun heq => ?_
      cases heq
      exact absurd (hfuel e.entryPrefix (nameOf_eq_some.mpr ⟨e, he, rfl⟩)) (Nat.not_lt_zero _)
  | succ fuel ih =>
      intro t r h hfuel hclean
      rcases eraseUp_succ_cases fuel t r with ⟨e, he, hempty, hrun⟩ | ⟨hnot, hrun⟩
      · have hrem := h.removed he hempty
        have hclean' := hclean.removed (e := e)
        rw [hrun]
        intro x e' he' hne
        rw [shrinkIfSparse_entries] at he'
        cases hp : e.parent with
        | none =>
            rw [hp] at he' hclean'
            exact hclean' x e' he' hne
        | some p =>
            rw [hp] at he' hclean'
            refine ih hrem (fun m hm => ?_) hclean' x e' he' hne
            have hlen := hfuel _ (nameOf_eq_some.mpr ⟨e, he, rfl⟩)
            have hlt := h.removed_parent_shorter he hp hm
            omega
      · rw [hrun]
        intro x e he hne
        by_cases hx : x = r
        · exact hnot e (hx ▸ he)
        · exact hclean x e he fun heq => hx (Option.some.inj heq).symm

theorem Sound.cleanBut_eraseEntryIfEmpty (h : t.Sound cityHash) {r : Ref} (hclean : t.CleanBut (some r)) :
    (t.eraseEntryIfEmpty r).1.CleanBut none := by
  refine Sound.cleanBut_eraseUp _ h (fun m hm => ?_) hclean
  obtain ⟨e, he, rfl⟩ := nameOf_eq_some.mp hm
  rw [he]
  exact Nat.lt_succ_self _

end NfdPitless.NameTree
