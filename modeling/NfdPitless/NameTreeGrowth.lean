import NfdPitless.NameTreeStructure

/-! A table that grows beyond `2 ^ 32` buckets. Looking up one new name after the other loads the table
until it is enlarged; `resize` then uses the lower 32 bits of the hashes only, so the upper half of the
table stays empty, and an entry whose bucket is in the upper half is not found any more. -/

namespace NfdPitless

/-- The component with the four octets of a number. -/
def Component.ofNumber (i : Nat) : Component :=
  ⟨false, [UInt8.ofNat (i / 2 ^ 24), UInt8.ofNat (i / 2 ^ 16), UInt8.ofNat (i / 2 ^ 8), UInt8.ofNat i]⟩

theorem Component.ofNumber_inj {i j : Nat} (hi : i < 2 ^ 32) (hj : j < 2 ^ 32) (h : ofNumber i = ofNumber j) :
    i = j := by
  simp only [ofNumber, Component.mk.injEq, List.cons.injEq, true_and, and_true, ← UInt8.toNat_inj,
    UInt8.toNat_ofNat'] at h
  omega

namespace NameTree

variable {cityHash : Component → UInt64} {t : NameTree} {c : Component} {root : Ref}

/-- Looking up a new name of one component adds one entry below the root. -/
theorem Sound.lookup_one_new (h : t.Sound cityHash) (hroom : t.Roomy) (hroot : t.nameOf root = some [])
    (hnew : ∀ x, t.nameOf x ≠ some [c]) :
    t.lookup cityHash [c] = ((t.added cityHash (some root) [c]).enlargeIfLoaded, some t.nextRef) := by
  have hfirst : t.lookupAcc cityHash [c] 1 = (t, some root) := by
    rw [lookupAcc_succ, lookupStep_eq]
    rcases h.afterInsert_cases none [] with ⟨r, hr, hafter, hret⟩ | ⟨hno, -⟩
    · have hrr : r = root := h.nameOf_inj hr hroot
      exact Prod.ext ((congrArg NameTree.enlargeIfLoaded hafter).trans hroom.enlargeIfLoaded)
        (congrArg some (hret.trans hrr))
    · exact absurd hroot (hno root)
  rw [lookup_eq_lookupAcc]
  show t.lookupAcc cityHash [c] (1 + 1) = _
  rw [lookupAcc_succ, hfirst, lookupStep_eq]
  rcases h.afterInsert_cases (some root) [c] with ⟨r, hr, -⟩ | ⟨-, hafter, hret⟩
  · exact absurd hr (hnew r)
  · exact Prod.ext (congrArg NameTree.enlargeIfLoaded hafter) (congrArg some hret)

/-- The tree after the numbers below `k` have been looked up in a tree with the root and the name `[c]`: as
long as the table is not loaded it has `2 ^ 32` buckets. -/
structure Growing (cityHash : Component → UInt64) (c : Component) (root r : Ref) (k : Nat) (t : NameTree) :
    Prop where
  sound : t.Sound cityHash
  roomy : t.Roomy
  root : t.nameOf root = some []
  stored : t.nameOf r = some [c]
  nItems_eq : t.nItems = 2 + k
  nBuckets_eq : t.nBuckets = 2 ^ 32
  unused : ∀ i, k ≤ i → i < 2 ^ 32 → ∀ x, t.nameOf x ≠ some [.ofNumber i]

/-- A tree that has the root and one name, and no number yet. -/
theorem growing_zero {b : UInt8} (h : t.Sound cityHash) (hroomy : t.Roomy) (hroot : t.nameOf 0 = some [])
    (hstored : t.nameOf 1 = some [.ofByte b]) (hnext : t.nextRef = 2) (hitems : t.nItems = 2)
    (hbuckets : t.nBuckets = 2 ^ 32) : Growing cityHash (.ofByte b) 0 1 0 t := by
  refine ⟨h, hroomy, hroot, hstored, hitems, hbuckets, fun i _ _ x hx => ?_⟩
  have hlt : x < 2 := hnext ▸ h.fresh hx
  rcases Nat.lt_succ_iff_lt_or_eq.mp hlt with hzero | rfl
  · have hx0 : x = 0 := Nat.lt_one_iff.mp hzero
    subst hx0
    cases hx.symm.trans hroot
  · have hsame : some [Component.ofNumber i] = some [Component.ofByte b] := hx.symm.trans hstored
    simp [Component.ofNumber, Component.ofByte] at hsame

theorem Growing.enlargeThreshold_eq {r : Ref} {k : Nat} (h : Growing cityHash c root r k t) :
    t.enlargeThreshold = 2 ^ 31 := by
  rw [h.roomy.enlarge_eq, h.nBuckets_eq]
  decide

/-- The entry of the next number is added below the root. -/
theorem Growing.added {r : Ref} {k : Nat} (h : Growing cityHash c root r k t) (hk : k < 2 ^ 32) :
    (t.added cityHash (some root) [.ofNumber k]).Sound cityHash ∧
      (t.added cityHash (some root) [.ofNumber k]).nameOf root = some [] ∧
      (t.added cityHash (some root) [.ofNumber k]).nameOf r = some [c] := by
  have hparent : t.IsParentFor (some root) [.ofNumber k] := Or.inr ⟨by simp, root, rfl, h.root⟩
  have hp := h.sound.ne_nextRef hparent
  have hkept : ∀ {x m}, t.nameOf x = some m → (t.added cityHash (some root) [.ofNumber k]).nameOf x = some m := by
    intro x m hx
    rw [added_nameOf cityHash hp, if_neg (h.sound.fresh hx).ne, hx]
  exact ⟨h.sound.added (h.unused k le_rfl hk) hparent, hkept h.root, hkept h.stored⟩

theorem Growing.lookup_eq {r : Ref} {k : Nat} (h : Growing cityHash c root r k t) (hk : k < 2 ^ 32) :
    (t.lookup cityHash [.ofNumber k]).1 = (t.added cityHash (some root) [.ofNumber k]).enlargeIfLoaded := by
  rw [h.sound.lookup_one_new h.roomy h.root (h.unused k le_rfl hk)]

/-- Up to `2 ^ 31` entries the table is not enlarged. -/
theorem Growing.next {r : Ref} {k : Nat} (h : Growing cityHash c root r k t) (hk : 2 + k < 2 ^ 31) :
    Growing cityHash c root r (k + 1) (t.lookup cityHash [.ofNumber k]).1 := by
  obtain ⟨hsound, hroot, hstored⟩ := h.added (by omega)
  have hroomy : (t.added cityHash (some root) [.ofNumber k]).enlargeIfLoaded.Roomy :=
    h.roomy.added h.sound.nBuckets_pos (some root) [.ofNumber k]
  have hthreshold := h.enlargeThreshold_eq
  have hsame : (t.added cityHash (some root) [.ofNumber k]).enlargeIfLoaded =
      t.added cityHash (some root) [.ofNumber k] := by
    rw [enlargeIfLoaded, if_neg]
    rw [added_nItems, added_enlargeThreshold, hthreshold, h.nItems_eq]
    omega
  rw [h.lookup_eq (by omega), hsame]
  rw [hsame] at hroomy
  refine ⟨hsound, hroomy, hroot, hstored, ?_, ?_, fun i hi hlt x hx => ?_⟩
  · rw [added_nItems, h.nItems_eq]
    omega
  · rw [added_nBuckets, h.nBuckets_eq]
  · have hp := h.sound.ne_nextRef (Or.inr ⟨by simp, root, rfl, h.root⟩ : t.IsParentFor (some root) [.ofNumber k])
    rw [added_nameOf cityHash hp] at hx
    split at hx
    · have heq : Component.ofNumber k = Component.ofNumber i := by simpa using hx
      have := Component.ofNumber_inj (by omega) hlt heq
      omega
    · exact h.unused i (by omega) hlt x hx

/-- One more entry, and the table is enlarged. -/
theorem Growing.overgrown {r : Ref} {k : Nat} (h : Growing cityHash c root r k t) (hk : 2 + k = 2 ^ 31) :
    (t.lookup cityHash [.ofNumber k]).1 = (t.added cityHash (some root) [.ofNumber k]).resize (2 ^ 33) := by
  have hthreshold := h.enlargeThreshold_eq
  rw [h.lookup_eq (by omega), enlargeIfLoaded, if_pos]
  · rw [added_nBuckets, h.nBuckets_eq, ← pow_succ']
  · rw [added_nItems, added_enlargeThreshold, hthreshold, h.nItems_eq]
    omega

/-- The truncated hashes fill the lower half of the table. -/
theorem resize_upper_empty (t : NameTree) (m : Nat) {b : Nat} (hb : 2 ^ 32 ≤ b) : (t.resize m).buckets b = [] := by
  rw [resize_buckets, List.filter_eq_nil_iff]
  intro x _ hx
  obtain ⟨e, -, he⟩ := (Option.any_eq_true _ _).mp hx
  have hloc : rehashLoc e.hash m = b := by simpa using he
  have hle : rehashLoc e.hash m ≤ e.hash.toNat % 2 ^ 32 := Nat.mod_le _ _
  have hlt : e.hash.toNat % 2 ^ 32 < 2 ^ 32 := Nat.mod_lt _ (by decide)
  omega

/-- The root is still found, since its hash is zero. -/
theorem Sound.insert_root_resized (h : t.Sound cityHash) (hroot : t.nameOf root = some []) (m : Nat) :
    (t.resize m).insert cityHash [] = (t.resize m, root, false) := by
  have hmem : root ∈ (t.resize m).buckets 0 := by
    obtain ⟨e, he, hname⟩ := nameOf_eq_some.mp hroot
    have hzero : e.hash = 0 := by
      rw [h.hash_eq he, hname]
      rfl
    rw [resize_buckets, List.mem_filter]
    exact ⟨h.mem_nodes.mpr ⟨_, hroot⟩, by simp [he, hzero, rehashLoc]⟩
  have hloc : (computeHash cityHash []).toNat % (t.resize m).nBuckets = 0 := Nat.zero_mod _
  cases hfind : ((t.resize m).buckets 0).find? fun r => ((t.resize m).entries r).any fun e => [] == e.entryPrefix with
  | none =>
      obtain ⟨e, he, hname⟩ := nameOf_eq_some.mp hroot
      have hentry : (t.resize m).entries root = some e := he
      exact absurd (List.find?_eq_none.mp hfind root hmem) (by simp [hentry, hname])
  | some r =>
      have hsel := List.find?_some hfind
      obtain ⟨e, he, hname⟩ := (Option.any_eq_true _ _).mp hsel
      have hr : t.nameOf r = some [] := nameOf_eq_some.mpr ⟨e, he, by simpa using hname⟩
      simp only [NameTree.insert, hloc, hfind, h.nameOf_inj hr hroot]

theorem Sound.afterInsert_root_resized (h : t.Sound cityHash) (hroot : t.nameOf root = some []) (m : Nat) :
    (t.resize m).afterInsert cityHash none [] = t.resize m := by
  simp [NameTree.afterInsert, h.insert_root_resized hroot]

/-- In the enlarged table a name whose bucket is in the upper half is not found. -/
theorem insert_overgrown (t : NameTree) (hbit : 2 ^ 32 ≤ (computeHash cityHash [c]).toNat % 2 ^ 33) :
    ((t.resize (2 ^ 33)).insert cityHash [c]).2.1 = t.nextRef ∧ ∀ parent,
      (t.resize (2 ^ 33)).afterInsert cityHash parent [c] = (t.resize (2 ^ 33)).added cityHash parent [c] := by
  have hempty : (t.resize (2 ^ 33)).buckets ((computeHash cityHash [c]).toNat % (t.resize (2 ^ 33)).nBuckets) = [] :=
    resize_upper_empty t _ hbit
  constructor
  · simp only [NameTree.insert, hempty, List.find?_nil]
    rfl
  · intro parent
    simp only [NameTree.afterInsert, NameTree.insert, hempty, List.find?_nil, if_true]
    rw [NameTree.added, NameTree.loc, hempty]

theorem resize_enlargeThreshold (t : NameTree) : (t.resize (2 ^ 33)).enlargeThreshold = 2 ^ 32 := by
  simp [NameTree.resize]

/-- Looking it up makes another entry. -/
theorem Sound.lookup_overgrown (h : t.Sound cityHash) (hroot : t.nameOf root = some []) (hitems : t.nItems < 2 ^ 32)
    (hbit : 2 ^ 32 ≤ (computeHash cityHash [c]).toNat % 2 ^ 33) :
    (t.resize (2 ^ 33)).lookup cityHash [c] =
      ((t.resize (2 ^ 33)).added cityHash (some root) [c], some t.nextRef) := by
  have hlight : ∀ u : NameTree, u.enlargeThreshold = 2 ^ 32 → u.nItems ≤ 2 ^ 32 → u.enlargeIfLoaded = u := by
    intro u hu hle
    rw [NameTree.enlargeIfLoaded, if_neg]
    omega
  have hthreshold := t.resize_enlargeThreshold
  obtain ⟨hinsert, hafter⟩ := t.insert_overgrown hbit
  have hfirst : (t.resize (2 ^ 33)).lookupAcc cityHash [c] 1 = (t.resize (2 ^ 33), some root) := by
    rw [lookupAcc_succ, lookupStep_eq]
    refine Prod.ext ?_ (congrArg (fun p => some p.2.1) (h.insert_root_resized hroot (2 ^ 33)))
    exact (congrArg NameTree.enlargeIfLoaded (h.afterInsert_root_resized hroot (2 ^ 33))).trans
      (hlight _ hthreshold hitems.le)
  rw [lookup_eq_lookupAcc]
  show (t.resize (2 ^ 33)).lookupAcc cityHash [c] (1 + 1) = _
  rw [lookupAcc_succ, hfirst, lookupStep_eq]
  refine Prod.ext ?_ (congrArg some hinsert)
  refine (congrArg NameTree.enlargeIfLoaded (hafter (some root))).trans (hlight _ ?_ ?_)
  · rw [added_enlargeThreshold, hthreshold]
  · rw [added_nItems]
    exact hitems

end NameTree
end NfdPitless
