import NfdPitless.CityHash
import NfdPitless.NameTreeMatch

/-! The chains of the name tree for any initial number of buckets. `insert`, `findExactMatch` and
`eraseEntryIfEmpty` take the 64-bit hash modulo the number of buckets, and `resize` takes what is left of
it after truncation to 32 bits. The two agree for a power of two up to `2 ^ 32`, for other numbers only by
chance. -/

namespace NfdPitless.NameTree

variable {cityHash : Component → UInt64} {t t' : NameTree} {n : Name} {r : Ref}

theorem Sound.findExactMatch_eq_some (h : t.Sound cityHash) {r : Ref} :
    t.findExactMatch cityHash n = some r ↔ t.nameOf r = some n := by
  have hname : ∀ {x}, t.findExactMatch cityHash n = some x → t.nameOf x = some n := by
    intro x hx
    have := List.find?_some hx
    obtain ⟨e, he, heq⟩ := (Option.any_eq_true _ _).mp this
    simp only [Bool.and_eq_true, beq_iff_eq] at heq
    exact nameOf_eq_some.mpr ⟨e, he, heq.2.symm⟩
  refine ⟨hname, fun hr => ?_⟩
  cases hfind : t.findExactMatch cityHash n with
  | some x => rw [h.nameOf_inj (hname hfind) hr]
  | none =>
      have hmem : r ∈ t.buckets (t.loc cityHash n) := h.mem_bucket.mpr ⟨n, hr, rfl⟩
      have hnot := List.find?_eq_none.mp hfind r hmem
      obtain ⟨e, he, rfl⟩ := nameOf_eq_some.mp hr
      simp [he, h.hash_eq he] at hnot

@[simp] theorem added_nItems (t : NameTree) (parent : Option Ref) (n : Name) :
    (t.added cityHash parent n).nItems = t.nItems + 1 := by
  cases parent with
  | none => rfl
  | some p =>
      simp only [added, linkNew]
      unfold modifyEntry
      split <;> rfl

@[simp] theorem added_enlargeThreshold (t : NameTree) (parent : Option Ref) (n : Name) :
    (t.added cityHash parent n).enlargeThreshold = t.enlargeThreshold := by
  cases parent with
  | none =>
      simp only [added, linkNew]
      unfold modifyEntry
      split <;> rfl
  | some p =>
      simp only [added, linkNew]
      unfold modifyEntry
      split <;> split <;> rfl

@[simp] theorem removed_nItems (t : NameTree) (r : Ref) (e : Entry) : (t.removed r e).nItems = t.nItems - 1 := by
  unfold removed
  split
  · rfl
  · simp only [removeNode]
    unfold modifyEntry
    split <;> rfl

@[simp] theorem removed_shrinkThreshold (t : NameTree) (r : Ref) (e : Entry) :
    (t.removed r e).shrinkThreshold = t.shrinkThreshold := by
  unfold removed
  split
  · rfl
  · simp only [removeNode]
    unfold modifyEntry
    split <;> rfl

theorem lookup_minNBuckets (t : NameTree) (n : Name) : (t.lookup cityHash n).1.minNBuckets = t.minNBuckets := by
  have hstep : ∀ acc m, (lookupStep cityHash acc m).1.minNBuckets = acc.1.minNBuckets := by
    intro acc m
    have hlarge : ∀ t : NameTree, t.enlargeIfLoaded.minNBuckets = t.minNBuckets := by
      intro t
      unfold NameTree.enlargeIfLoaded
      split <;> rfl
    rw [lookupStep_eq]
    dsimp only
    rw [hlarge]
    have hins : (acc.1.insert cityHash m).1.minNBuckets = acc.1.minNBuckets := by
      unfold insert
      dsimp only
      split <;> rfl
    unfold NameTree.afterInsert
    dsimp only
    split
    · rw [← hins]
      unfold linkNew
      dsimp only
      split <;> simp
    · exact hins
  have hacc : ∀ j, (t.lookupAcc cityHash n j).1.minNBuckets = t.minNBuckets := by
    intro j
    induction j with
    | zero => rfl
    | succ j ih => rw [lookupAcc_succ, hstep, ih]
  rw [lookup_eq_lookupAcc, hacc]

/-- The number of entries an erasure can remove at most. -/
def removable (t : NameTree) (r : Ref) : Nat := ((t.entries r).elim 0 fun e => e.entryPrefix.length) + 1

/-- If the table is shrunk, every hash gives the same bucket when it is truncated to 32 bits. -/
def ShrinkRehashes (t : NameTree) : Prop :=
  t.minNBuckets ≤ t.nBuckets / 2 → t.nItems < t.shrinkThreshold → t.RehashesTo (t.nBuckets / 2)

/-- The same at every level of the recursion of `eraseEntryIfEmpty`. -/
def EraseRehashes : Nat → NameTree → Ref → Prop
  | 0, _, _ => True
  | fuel + 1, t, r => ∀ e, t.entries r = some e → e.isEmpty = true →
      (∀ p, e.parent = some p → EraseRehashes fuel (t.removed r e) p) ∧
        (e.parent.elim (t.removed r e) fun p => (eraseUp fuel (t.removed r e) p).1).ShrinkRehashes

/-- Whenever the operation resizes the table, every hash that it moves gives the same bucket when it is
truncated to 32 bits. -/
def Harmless (cityHash : Component → UInt64) (t : NameTree) : Op → Prop
  | .lookup n => ∀ j ≤ n.length,
      (t.beforeEnlarge cityHash n j).enlargeThreshold < (t.beforeEnlarge cityHash n j).nItems →
      (t.beforeEnlarge cityHash n j).RehashesTo (2 * (t.beforeEnlarge cityHash n j).nBuckets)
  | .eraseEntryIfEmpty r => EraseRehashes (t.removable r) t r
  | .attach _ _ => True

theorem Harmless.lookupRehashes (h : t.Harmless cityHash (.lookup n)) : t.LookupRehashes cityHash n :=
  fun j hj _ _ _ hload => h j hj hload

/-- An iteration that resizes doubles the number of buckets. -/
theorem lookupAcc_nBuckets_of_loaded {j : Nat}
    (hload : (t.beforeEnlarge cityHash n j).enlargeThreshold < (t.beforeEnlarge cityHash n j).nItems) :
    (t.lookupAcc cityHash n (j + 1)).1.nBuckets = 2 * (t.beforeEnlarge cityHash n j).nBuckets := by
  rw [lookupAcc_succ, lookupStep_eq, nBuckets_enlargeIfLoaded, if_pos]
  · rfl
  · exact hload

/-- A power of two of buckets does no harm as long as there are at most `2 ^ 32`. -/
theorem harmless_lookup_of_two_pow {k : Nat} (hk : t.nBuckets = 2 ^ k)
    (hbound : (t.lookup cityHash n).1.nBuckets ≤ 2 ^ 32) : t.Harmless cityHash (.lookup n) := by
  intro j hj hload
  obtain ⟨a, ha⟩ := nBuckets_lookupAcc cityHash t n (j + 1)
  have hpow : (t.lookupAcc cityHash n (j + 1)).1.nBuckets = 2 ^ (k + a) := by rw [ha, hk, pow_add]
  have hle : 2 ^ (k + a) ≤ 2 ^ 32 := by
    rw [← hpow]
    rw [lookup_eq_lookupAcc] at hbound
    exact (nBuckets_le_lookupAcc t n (Nat.succ_le_succ hj)).trans hbound
  rw [← lookupAcc_nBuckets_of_loaded hload, hpow]
  exact rehashesTo_two_pow ((Nat.pow_le_pow_iff_right (by decide)).mp hle)

/-- An erasure that does no harm keeps the chains right. -/
theorem Sound.eraseUp_of_rehashes (fuel : Nat) : ∀ {t : NameTree} {r : Ref}, t.Sound cityHash →
    EraseRehashes fuel t r → (NameTree.eraseUp fuel t r).1.Sound cityHash := by
  induction fuel with
  | zero => exact fun h _ => h
  | succ fuel ih =>
      intro t r h hre
      rcases eraseUp_succ_cases fuel t r with ⟨e, he, hempty, hrun⟩ | ⟨-, hrun⟩
      · obtain ⟨hup, hshrink⟩ := hre e he hempty
        have hrem := h.removed he hempty
        rw [hrun]
        cases hp : e.parent with
        | none =>
            rw [hp] at hshrink
            exact hrem.shrinkIfSparse hshrink
        | some p =>
            rw [hp] at hshrink
            exact (ih hrem (hup p hp)).shrinkIfSparse hshrink
      · rw [hrun]
        exact h

theorem Sound.erase_of_harmless (h : t.Sound cityHash) (hok : t.Harmless cityHash (.eraseEntryIfEmpty r)) :
    (t.eraseEntryIfEmpty r).1.Sound cityHash := Sound.eraseUp_of_rehashes _ h hok

theorem Sound.apply_of_harmless (h : t.Sound cityHash) {op : Op} (hok : t.Harmless cityHash op)
    (happly : t.apply cityHash op = some t') : t'.Sound cityHash := by
  cases op with
  | lookup n =>
      cases happly
      exact (h.lookup n hok.lookupRehashes).1
  | eraseEntryIfEmpty r =>
      cases happly
      exact h.erase_of_harmless hok
  | attach r a =>
      cases happly
      exact h.modifyEntry_attached r _ (fun _ => rfl) (fun _ => rfl) (fun _ => rfl) (fun _ => rfl)

theorem sound_of_reach {nBuckets : Nat} (hpos : 0 < nBuckets)
    (hr : Reach (NameTree.apply cityHash) (Harmless cityHash) (new nBuckets) t) : t.Sound cityHash :=
  hr.invariant (new_sound cityHash hpos) fun _ _ _ h hok happly => h.apply_of_harmless hok happly

/-- The operation leaves fewer than `2 ^ 32` buckets. -/
def Within (cityHash : Component → UInt64) (t : NameTree) (op : Op) : Prop :=
  ∀ t', t.apply cityHash op = some t' → t'.nBuckets < 2 ^ 32

/-- From any positive number of buckets, in every run whose resizes do no harm, every entry is in the bucket
of its hash, is found by its name, and is the only one of its name. -/
theorem entries_in_their_buckets (cityHash : Component → UInt64) (nBuckets : Nat) (hpos : 1 ≤ nBuckets)
    (t : NameTree) (hr : Reach (NameTree.apply cityHash) (Harmless cityHash) (new nBuckets) t) :
    (∀ r e, t.entries r = some e → r ∈ t.buckets (e.hash.toNat % t.nBuckets)) ∧
    (∀ r n, t.nameOf r = some n → t.findExactMatch cityHash n = some r) ∧
    ∀ r r' n, t.nameOf r = some n → t.nameOf r' = some n → r = r' := by
  have hsound := sound_of_reach hpos hr
  refine ⟨fun r e he => ?_, fun r n hr => hsound.findExactMatch_eq_some.mpr hr,
    fun r r' n h h' => hsound.nameOf_inj h h'⟩
  exact hsound.mem_bucket.mpr ⟨e.entryPrefix, nameOf_eq_some.mpr ⟨e, he, rfl⟩, by rw [hsound.hash_eq he, loc]⟩

/-- A table of three buckets after one lookup: it has grown to six, and the entry is not found. -/
theorem entry_lost_from_three_buckets :
    ∃ t, Reach (NameTree.apply CityHash.ofShort) (Within CityHash.ofShort) (new 3) t ∧
      t.nameOf 1 = some [.ofByte 65] ∧ t.findExactMatch CityHash.ofShort [.ofByte 65] = none ∧
      (t.lookup CityHash.ofShort [.ofByte 65]).1.nameOf 2 = some [.ofByte 65] := by
  refine ⟨((new 3).lookup CityHash.ofShort [.ofByte 65]).1, ?_, by decide +kernel, by decide +kernel, by decide +kernel⟩
  refine Reach.next (Op.lookup [.ofByte 65]) Reach.start (fun t' ht' => ?_) rfl
  cases ht'
  decide +kernel

/-- From three buckets again: `/B/A` enlarges the table when only the root and `/B` are in it, and both keep their
buckets. -/
theorem entry_kept_from_three_buckets :
    (((new 3).lookup CityHash.ofShort [.ofByte 66, .ofByte 65]).1).findExactMatch CityHash.ofShort
      [.ofByte 66, .ofByte 65] = some 2 := by
  refine (entries_in_their_buckets CityHash.ofShort 3 (by decide) _ ?_).2.1 2 _ (by decide +kernel)
  refine Reach.next (Op.lookup [.ofByte 66, .ofByte 65]) Reach.start (fun j hj hload => ?_) rfl
  have hsmall : ∀ j ≤ 2, j ≠ 1 → ¬ ((new 3).beforeEnlarge CityHash.ofShort [.ofByte 66, .ofByte 65]
    j).enlargeThreshold <
      ((new 3).beforeEnlarge CityHash.ofShort [.ofByte 66, .ofByte 65] j).nItems := by decide +kernel
  have hone : j = 1 := by_contra fun hne => hsmall j hj hne hload
  subst hone
  intro r e he
  match r, he with
  | 0, he =>
      cases he
      decide +kernel
  | 1, he =>
      cases he
      decide +kernel

end NfdPitless.NameTree
