import NfdPitless.NameTreePartial
import NfdPitless.NameTreeGrowth

/-! The order of a partial enumeration over runs of the name tree: an entry comes before its children, and these come
one after the other with all that is below them. A prefix that is stored in a wrong bucket is not found, and then
nothing is enumerated. -/

namespace NfdPitless.NameTree

variable {cityHash : Component → UInt64} {t t' : NameTree} {n p : Name} {r x : Ref} {sel : Ref → Bool × Bool}

/-- The entries at and below one in pre-order. -/
def preOrder (t : NameTree) (r : Ref) : List Ref :=
  TreeWalk.nodes t.childrenOf (fun _ => (true, true)) (t.height + 1) r

/-- An entry, and then its children with what is below them. -/
theorem Sound.preOrder_eq (h : t.Sound cityHash) (hr : t.nameOf r = some n) :
    t.preOrder r = r :: (t.childrenOf r).flatMap t.preOrder := by
  rw [preOrder, TreeWalk.nodes, if_pos rfl]
  refine congrArg (r :: ·) (List.flatMap_congr fun c hc => ?_)
  obtain ⟨comp, hcn⟩ := h.child_name hr hc
  refine ((h.tree hcn fun _ => (true, true)).nodes_succ t.height .root fun x hx => ?_).symm
  have := h.depthOf_reached hcn x hx
  omega

theorem Sound.preOrder_nodup (h : t.Sound cityHash) (hr : t.nameOf r = some p) : (t.preOrder r).Nodup :=
  (h.tree hr fun _ => (true, true)).nodup_nodes (t.height + 1) .root

/-- Neither the entry nor one above it, from the prefix on, hides it. -/
def Visits (t : NameTree) (p : Name) (sel : Ref → Bool × Bool) (x : Ref) : Prop :=
  (∃ n, t.nameOf x = some n ∧ p <+: n ∧
    ∀ y m, t.nameOf y = some m → p <+: m → m <+: n → m ≠ n → (sel y).2 = true) ∧ (sel x).1 = true

/-- An enumeration comes to an end, and visits what it should once and in pre-order, or nothing if the prefix has no
entry. -/
structure EnumeratesBelow (cityHash : Component → UInt64) (t : NameTree) (p : Name) (sel : Ref → Bool × Bool) :
    Prop where
  stored : ∀ r, t.nameOf r = some p → ∃ visited, t.partialEnumerate cityHash p sel = some visited ∧
    visited.Sublist (t.preOrder r) ∧ visited.Nodup ∧ ∀ x, x ∈ visited ↔ t.Visits p sel x
  absent : (∀ r, t.nameOf r ≠ some p) → t.partialEnumerate cityHash p sel = some []

theorem Sound.enumeratesBelow (h : t.Sound cityHash) (p : Name) (sel : Ref → Bool × Bool) :
    t.EnumeratesBelow cityHash p sel where
  stored r hr := by
    obtain ⟨visited, hvisited, hnodup, hmem⟩ := h.partialEnumerate_eq hr sel
    refine ⟨visited, hvisited, ?_, hnodup, hmem⟩
    rw [h.partialEnumerate_nodes hr sel] at hvisited
    cases hvisited
    exact List.filter_sublist.trans (TreeWalk.nodes_sublist t.childrenOf sel (t.height + 1) r)
  absent hnone := by
    cases hfind : t.findExactMatch cityHash p with
    | none => rw [partialEnumerate, hfind]
    | some r => exact absurd (h.findExactMatch_eq_some.mp hfind) (hnone r)

/-- In every run whose resizes do no harm each enumeration visits what it should, in the pre-order of the children. -/
theorem enumerates_in_pre_order {nBuckets : Nat} (hpos : 0 < nBuckets)
    (hr : Reach (NameTree.apply cityHash) (Harmless cityHash) (new nBuckets) t) :
    (∀ r n, t.nameOf r = some n →
      t.preOrder r = r :: (t.childrenOf r).flatMap t.preOrder ∧ (t.preOrder r).Nodup) ∧
      ∀ p sel, t.EnumeratesBelow cityHash p sel := by
  have h := sound_of_reach hpos hr
  exact ⟨fun r n hrn => ⟨h.preOrder_eq hrn, h.preOrder_nodup hrn⟩, h.enumeratesBelow⟩

/-- Below `/A` the children of `/A/B` are visited, but not this itself, and of `/A/C` this but not its child. -/
theorem enumerates_in_pre_order_treeABC :
    ∃ t, Reach (NameTree.apply octetHash) (Harmless octetHash) (new 16) t ∧
      t.partialEnumerate octetHash [.ofByte 65] (fun r => (r != 2, r != 4)) = some [1, 3, 4] ∧
      t.EnumeratesBelow octetHash [.ofByte 65] fun r => (r != 2, r != 4) := by
  have hr : Reach (NameTree.apply octetHash) (Harmless octetHash) (new 16) _ :=
    ((Reach.start.next (.lookup [.ofByte 65, .ofByte 66, .ofByte 68])
      (harmless_lookup_of_two_pow (k := 4) rfl (by decide +kernel)) rfl).next (.lookup [.ofByte 65, .ofByte 67])
      (harmless_lookup_of_two_pow (k := 4) (by decide +kernel) (by decide +kernel)) rfl).next
      (.lookup [.ofByte 65, .ofByte 67, .ofByte 69])
      (harmless_lookup_of_two_pow (k := 4) (by decide +kernel) (by decide +kernel)) rfl
  exact ⟨_, hr, by decide +kernel, (enumerates_in_pre_order (by decide) hr).2 _ _⟩

/-- In a table of `2 ^ 33` buckets an entry that belongs in the upper half is not found. -/
theorem findExactMatch_overgrown {c : Component} (t : NameTree)
    (hbit : 2 ^ 32 ≤ (computeHash cityHash [c]).toNat % 2 ^ 33) :
    (t.resize (2 ^ 33)).findExactMatch cityHash [c] = none := by
  have hempty : (t.resize (2 ^ 33)).buckets ((computeHash cityHash [c]).toNat % (t.resize (2 ^ 33)).nBuckets) = [] :=
    resize_upper_empty t _ hbit
  rw [findExactMatch, hempty]
  rfl

theorem exists_growing : ∀ k, 2 + k ≤ 2 ^ 31 → ∃ t,
    Reach (NameTree.apply CityHash.ofShort) anyStep (new (2 ^ 32)) t ∧
      Growing CityHash.ofShort (.ofByte 65) 0 1 k t := by
  intro k
  induction k with
  | zero =>
      intro _
      have hpos : 0 < 2 ^ 32 := by decide
      have hharmless : (new (2 ^ 32)).Harmless CityHash.ofShort (.lookup [.ofByte 65]) :=
        harmless_lookup_of_two_pow (k := 32) rfl (by decide +kernel)
      have hsound := (new_sound CityHash.ofShort hpos).apply_of_harmless hharmless rfl
      have hroomy := (new_roomy (2 ^ 32)).lookup (new_sound CityHash.ofShort hpos).isFresh hpos CityHash.ofShort
        [.ofByte 65]
      exact ⟨_, .next (.lookup [.ofByte 65]) .start trivial rfl, growing_zero hsound hroomy (by decide +kernel)
        (by decide +kernel) (by decide +kernel) (by decide +kernel) (by decide +kernel)⟩
  | succ k ih =>
      intro hk
      obtain ⟨t, hreach, hgrowing⟩ := ih (by omega)
      exact ⟨_, hreach.next (.lookup [.ofNumber k]) trivial rfl, hgrowing.next (by omega)⟩

/-- From `2 ^ 32` buckets, as many lookups as enlarge the table once: `/A` is stored, but nothing is enumerated. -/
theorem nothing_enumerated_in_overgrown_table :
    ∃ t, Reach (NameTree.apply CityHash.ofShort) anyStep (new (2 ^ 32)) t ∧ t.nameOf 1 = some [.ofByte 65] ∧
      t.partialEnumerate CityHash.ofShort [.ofByte 65] (fun _ => (true, true)) = some [] ∧
      ¬ t.EnumeratesBelow CityHash.ofShort [.ofByte 65] fun _ => (true, true) := by
  obtain ⟨t, hreach, hgrowing⟩ := exists_growing (2 ^ 31 - 2) (by decide)
  obtain ⟨-, -, hstored⟩ := hgrowing.added (by decide)
  have hgrown := hgrowing.overgrown (by decide)
  have hbit : 2 ^ 32 ≤ (computeHash CityHash.ofShort [.ofByte 65]).toNat % 2 ^ 33 := by decide +kernel
  refine ⟨_, hreach.next (.lookup [.ofNumber (2 ^ 31 - 2)]) trivial rfl, ?_⟩
  rw [hgrown]
  generalize t.added CityHash.ofShort (some 0) [.ofNumber (2 ^ 31 - 2)] = v at hstored ⊢
  have hstored' : (v.resize (2 ^ 33)).nameOf 1 = some [.ofByte 65] := hstored
  have hnothing : (v.resize (2 ^ 33)).partialEnumerate CityHash.ofShort [.ofByte 65] (fun _ => (true, true)) =
      some [] := by
    rw [partialEnumerate, findExactMatch_overgrown v hbit]
  refine ⟨hstored', hnothing, fun h => ?_⟩
  obtain ⟨visited, hvisited, -, -, hmem⟩ := h.stored 1 hstored'
  cases hnothing.symm.trans hvisited
  have hvisits : (v.resize (2 ^ 33)).Visits [.ofByte 65] (fun _ => (true, true)) 1 :=
    ⟨⟨_, hstored', List.prefix_refl _, fun _ _ _ _ _ _ => rfl⟩, rfl⟩
  exact absurd ((hmem 1).mpr hvisits) List.not_mem_nil

end NfdPitless.NameTree
