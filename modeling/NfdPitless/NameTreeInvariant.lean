import NfdPitless.NameTree
import NfdPitless.Runs

/-! The invariant of the name tree for a power-of-two number of buckets. A tree is read through four
views (the name, the parent and the children of a pointer, and the chains); each operation is first
described by what it does to the views, and the invariant is kept by every operation as long as the
table has at most `2 ^ 32` buckets, the range in which the 32-bit rehash agrees with the 64-bit hash. -/

namespace NfdPitless.NameTree

variable (cityHash : Component → UInt64)

def nameOf (t : NameTree) (r : Ref) : Option Name := (t.entries r).map Entry.entryPrefix

def parentOf (t : NameTree) (r : Ref) : Option Ref := (t.entries r).bind Entry.parent

def childrenOf (t : NameTree) (r : Ref) : List Ref := (t.entries r).elim [] Entry.children

/-- The bucket a name belongs to. -/
def loc (t : NameTree) (n : Name) : Nat := (computeHash cityHash n).toNat % t.nBuckets

theorem nameOf_eq_some {t : NameTree} {r : Ref} {n : Name} :
    t.nameOf r = some n ↔ ∃ e, t.entries r = some e ∧ e.entryPrefix = n := by
  simp [nameOf]

theorem parentOf_eq_some {t : NameTree} {r p : Ref} :
    t.parentOf r = some p ↔ ∃ e, t.entries r = some e ∧ e.parent = some p :=
  Option.bind_eq_some_iff

/-- Two entries of one hash are chained in this order: the later one's name is no prefix of the
earlier one's. -/
def Chained (t : NameTree) (r r' : Ref) : Prop :=
  ∀ n n', t.nameOf r = some n → t.nameOf r' = some n' →
    computeHash cityHash n = computeHash cityHash n' → ¬ n' <+: n

/-- What holds of a tree whose chains are right, for any number of buckets. -/
structure Sound (t : NameTree) : Prop where
  fresh : ∀ {r n}, t.nameOf r = some n → r < t.nextRef
  hash_eq : ∀ {r e}, t.entries r = some e → e.hash = computeHash cityHash e.entryPrefix
  nameOf_inj : ∀ {r r' n}, t.nameOf r = some n → t.nameOf r' = some n → r = r'
  mem_bucket : ∀ {b r}, r ∈ t.buckets b ↔ ∃ n, t.nameOf r = some n ∧ t.loc cityHash n = b
  bucket_nodup : ∀ b, (t.buckets b).Nodup
  chained : ∀ b, (t.buckets b).Pairwise (t.Chained cityHash)
  parent_root : ∀ {r}, t.nameOf r = some [] → t.parentOf r = none
  parent_cons : ∀ {r n}, t.nameOf r = some n → n ≠ [] →
    ∃ p, t.parentOf r = some p ∧ t.nameOf p = some n.dropLast
  mem_children : ∀ {p c}, c ∈ t.childrenOf p ↔ t.parentOf c = some p
  children_nodup : ∀ p, (t.childrenOf p).Nodup
  nBuckets_pos : 0 < t.nBuckets
  min_pos : 0 < t.minNBuckets

structure WF (t : NameTree) : Prop extends Sound cityHash t where
  pow_two : ∃ k, k ≤ 32 ∧ t.nBuckets = 2 ^ k

theorem new_sound {nBuckets : Nat} (hpos : 0 < nBuckets) : (new nBuckets).Sound cityHash where
  fresh h := by simp [nameOf, new] at h
  hash_eq h := by simp [new] at h
  nameOf_inj h := by simp [nameOf, new] at h
  mem_bucket := by simp [nameOf, new]
  bucket_nodup := by simp [new]
  chained := by simp [new]
  parent_root h := by simp [nameOf, new] at h
  parent_cons h := by simp [nameOf, new] at h
  mem_children := by simp [childrenOf, parentOf, new]
  children_nodup := by simp [childrenOf, new]
  nBuckets_pos := hpos
  min_pos := hpos

theorem new_wf {k : Nat} (hk : k ≤ 32) : (new (2 ^ k)).WF cityHash where
  toSound := new_sound cityHash (Nat.two_pow_pos k)
  pow_two := ⟨k, hk, rfl⟩

variable {cityHash} {t : NameTree}

/-- Every prefix of a stored name is stored. -/
theorem Sound.prefix_stored (h : t.Sound cityHash) :
    ∀ {n p : Name} {r : Ref}, t.nameOf r = some n → p <+: n → ∃ r', t.nameOf r' = some p := by
  intro n
  induction hlen : n.length generalizing n with
  | zero =>
      intro p r hr hp
      rw [List.length_eq_zero_iff.mp hlen] at hp hr
      rw [List.prefix_nil.mp hp]
      exact ⟨r, hr⟩
  | succ k ih =>
      intro p r hr hp
      have hne : n ≠ [] := by
        rintro rfl
        simp at hlen
      by_cases heq : p = n
      · exact ⟨r, heq ▸ hr⟩
      · obtain ⟨q, -, hq⟩ := h.parent_cons hr hne
        refine ih (n := n.dropLast) (by simp [hlen]) hq ?_
        obtain ⟨s, rfl⟩ := hp
        have hs : s ≠ [] := fun hs => heq (by simp [hs])
        rw [List.dropLast_append_of_ne_nil hs]
        exact List.prefix_append p s.dropLast

theorem entries_modifyEntry (t : NameTree) (r : Ref) (f : Entry → Entry) (x : Ref) :
    (t.modifyEntry r f).entries x = if x = r then (t.entries r).map f else t.entries x := by
  unfold modifyEntry
  cases hr : t.entries r with
  | none =>
      by_cases hx : x = r
      · simp [hx, hr]
      · simp [hx]
  | some e =>
      by_cases hx : x = r
      · simp [hx, setEntry]
      · simp [hx, setEntry]

@[simp] theorem modifyEntry_nextRef (t : NameTree) (r : Ref) (f : Entry → Entry) :
    (t.modifyEntry r f).nextRef = t.nextRef := by
  unfold modifyEntry
  split <;> rfl

@[simp] theorem modifyEntry_buckets (t : NameTree) (r : Ref) (f : Entry → Entry) :
    (t.modifyEntry r f).buckets = t.buckets := by
  unfold modifyEntry
  split <;> rfl

@[simp] theorem modifyEntry_nBuckets (t : NameTree) (r : Ref) (f : Entry → Entry) :
    (t.modifyEntry r f).nBuckets = t.nBuckets := by
  unfold modifyEntry
  split <;> rfl

@[simp] theorem modifyEntry_minNBuckets (t : NameTree) (r : Ref) (f : Entry → Entry) :
    (t.modifyEntry r f).minNBuckets = t.minNBuckets := by
  unfold modifyEntry
  split <;> rfl

/-- Changing what is attached to an entry keeps the views, and with them the invariant. -/
theorem Sound.modifyEntry_attached (h : t.Sound cityHash) (r : Ref) (f : Entry → Entry)
    (hhash : ∀ e, (f e).hash = e.hash) (hname : ∀ e, (f e).entryPrefix = e.entryPrefix)
    (hparent : ∀ e, (f e).parent = e.parent) (hchildren : ∀ e, (f e).children = e.children) :
    (t.modifyEntry r f).Sound cityHash := by
  have hn : ∀ x, (t.modifyEntry r f).nameOf x = t.nameOf x := by
    intro x
    simp only [nameOf, entries_modifyEntry]
    split
    · subst x
      cases t.entries r <;> simp [hname]
    · rfl
  have hp : ∀ x, (t.modifyEntry r f).parentOf x = t.parentOf x := by
    intro x
    simp only [parentOf, entries_modifyEntry]
    split
    · subst x
      cases t.entries r <;> simp [hparent]
    · rfl
  have hc : ∀ x, (t.modifyEntry r f).childrenOf x = t.childrenOf x := by
    intro x
    simp only [childrenOf, entries_modifyEntry]
    split
    · subst x
      cases t.entries r <;> simp [hchildren]
    · rfl
  have hch : (t.modifyEntry r f).Chained cityHash = t.Chained cityHash := by
    funext x y
    simp only [Chained, hn]
  exact
    { fresh := fun hx => by simpa using h.fresh (hn _ ▸ hx)
      hash_eq := by
        intro x e he
        rw [entries_modifyEntry] at he
        split at he
        · obtain ⟨e', he', rfl⟩ := Option.map_eq_some_iff.mp he
          rw [hhash, hname, h.hash_eq he']
        · exact h.hash_eq he
      nameOf_inj := fun hx hy => h.nameOf_inj (hn _ ▸ hx) (hn _ ▸ hy)
      mem_bucket := by
        intro b x
        simpa only [modifyEntry_buckets, modifyEntry_nBuckets, hn, loc] using h.mem_bucket (b := b) (r := x)
      bucket_nodup := by simpa using h.bucket_nodup
      chained := by simpa only [hch, modifyEntry_buckets] using h.chained
      parent_root := fun hx => by rw [hp]; exact h.parent_root (hn _ ▸ hx)
      parent_cons := fun hx hne => by simpa only [hn, hp] using h.parent_cons (hn _ ▸ hx) hne
      mem_children := by
        intro p c
        simpa only [hc, hp] using h.mem_children (p := p) (c := c)
      children_nodup := by simpa only [hc] using h.children_nodup
      nBuckets_pos := by simpa using h.nBuckets_pos
      min_pos := by simpa using h.min_pos }

theorem WF.modifyEntry_attached (h : t.WF cityHash) (r : Ref) (f : Entry → Entry)
    (hhash : ∀ e, (f e).hash = e.hash) (hname : ∀ e, (f e).entryPrefix = e.entryPrefix)
    (hparent : ∀ e, (f e).parent = e.parent) (hchildren : ∀ e, (f e).children = e.children) :
    (t.modifyEntry r f).WF cityHash where
  toSound := h.toSound.modifyEntry_attached r f hhash hname hparent hchildren
  pow_two := by simpa using h.pow_two

theorem foldl_rehashNode (t : NameTree) (m : Nat) (nodes : List Ref) (start : Nat → List Ref) (b : Nat) :
    nodes.foldl (t.rehashNode m) start b =
      start b ++ nodes.filter fun r => (t.entries r).any fun e => rehashLoc e.hash m == b := by
  induction nodes generalizing start with
  | nil => simp
  | cons r nodes ih =>
      rw [List.foldl_cons, ih, rehashNode]
      cases hr : t.entries r with
      | none => simp [hr]
      | some e =>
          by_cases hb : rehashLoc e.hash m = b
          · subst hb
            simp [hr]
          · simp [hr, hb, Function.update_of_ne (Ne.symm hb)]

/-- A chain after `resize` is made of the nodes that rehash to its bucket, in the order in which the
old table lists them. -/
theorem resize_buckets (t : NameTree) (m b : Nat) :
    (t.resize m).buckets b = ((List.range t.nBuckets).flatMap t.buckets).filter fun r =>
      (t.entries r).any fun e => rehashLoc e.hash m == b := by
  simp only [resize, foldl_rehashNode, List.nil_append]

/-- The truncation of the hash to 32 bits does not change the bucket. -/
theorem rehashLoc_two_pow {k : Nat} (hk : k ≤ 32) (hash : UInt64) :
    rehashLoc hash (2 ^ k) = hash.toNat % 2 ^ k :=
  Nat.mod_mod_of_dvd _ (pow_dvd_pow 2 hk)

theorem Sound.mem_nodes (h : t.Sound cityHash) {r : Ref} :
    r ∈ (List.range t.nBuckets).flatMap t.buckets ↔ ∃ n, t.nameOf r = some n := by
  simp only [List.mem_flatMap, List.mem_range, h.mem_bucket]
  constructor
  · rintro ⟨b, -, n, hn, -⟩
    exact ⟨n, hn⟩
  · rintro ⟨n, hn⟩
    exact ⟨t.loc cityHash n, Nat.mod_lt _ h.nBuckets_pos, n, hn, rfl⟩

/-- Nodes of different buckets have different hashes, so the whole table lists the nodes of one hash
in the order of their chain. -/
theorem Sound.nodes_chained (h : t.Sound cityHash) :
    ((List.range t.nBuckets).flatMap t.buckets).Pairwise (t.Chained cityHash) := by
  rw [List.pairwise_flatMap]
  refine ⟨fun b _ => h.chained b, ?_⟩
  refine List.nodup_range.imp ?_
  intro b b' hne r hr r' hr' n n' hn hn' hhash
  obtain ⟨m, hm, hb⟩ := h.mem_bucket.mp hr
  obtain ⟨m', hm', hb'⟩ := h.mem_bucket.mp hr'
  rw [hn] at hm
  rw [hn'] at hm'
  cases hm
  cases hm'
  exact absurd (by rw [← hb, ← hb', loc, loc, hhash]) hne

theorem Sound.nodes_nodup (h : t.Sound cityHash) : ((List.range t.nBuckets).flatMap t.buckets).Nodup := by
  rw [List.nodup_flatMap]
  refine ⟨fun b _ => h.bucket_nodup b, ?_⟩
  refine List.nodup_range.imp ?_
  intro b b' hne r hr hr'
  obtain ⟨m, hm, hb⟩ := h.mem_bucket.mp hr
  obtain ⟨m', hm', hb'⟩ := h.mem_bucket.mp hr'
  rw [hm] at hm'
  cases hm'
  exact hne (hb.symm.trans hb')

/-- A resize for which the truncated hash of every stored entry gives the bucket of its hash. -/
theorem Sound.resize (h : t.Sound cityHash) {m : Nat} (hm : 0 < m)
    (hloc : ∀ r e, t.entries r = some e → rehashLoc e.hash m = e.hash.toNat % m) :
    (t.resize m).Sound cityHash where
  fresh := h.fresh
  hash_eq := h.hash_eq
  nameOf_inj := h.nameOf_inj
  mem_bucket := by
    intro b r
    rw [resize_buckets, List.mem_filter, h.mem_nodes, Option.any_eq_true]
    constructor
    · rintro ⟨⟨n, hn⟩, e, he, hb⟩
      obtain ⟨e', he', rfl⟩ := nameOf_eq_some.mp hn
      rw [he] at he'
      cases he'
      refine ⟨e.entryPrefix, hn, ?_⟩
      rw [beq_iff_eq, hloc r e he, h.hash_eq he] at hb
      exact hb
    · rintro ⟨n, hn, hb⟩
      obtain ⟨e, he, rfl⟩ := nameOf_eq_some.mp hn
      refine ⟨⟨_, hn⟩, e, he, ?_⟩
      rw [beq_iff_eq, hloc r e he, h.hash_eq he]
      exact hb
  bucket_nodup b := by
    rw [resize_buckets]
    exact h.nodes_nodup.filter _
  chained b := by
    rw [resize_buckets]
    exact h.nodes_chained.filter _
  parent_root := h.parent_root
  parent_cons := h.parent_cons
  mem_children := h.mem_children
  children_nodup := h.children_nodup
  nBuckets_pos := hm
  min_pos := h.min_pos

theorem WF.resize (h : t.WF cityHash) {k : Nat} (hk : k ≤ 32) : (t.resize (2 ^ k)).WF cityHash where
  toSound := h.toSound.resize (Nat.two_pow_pos k) fun _ e _ => rehashLoc_two_pow hk e.hash
  pow_two := ⟨k, hk, rfl⟩

/-! ### Adding an entry -/

/-- The search in the bucket of a name finds the entry of that name if there is one. -/
theorem Sound.insert_cases (h : t.Sound cityHash) (n : Name) :
    (∃ r, t.nameOf r = some n ∧ t.insert cityHash n = (t, r, false)) ∨
    ((∀ r, t.nameOf r ≠ some n) ∧ t.insert cityHash n =
      ({ t with
          entries := Function.update t.entries t.nextRef
            (some (Entry.new n (computeHash cityHash n)))
          nextRef := t.nextRef + 1
          buckets := Function.update t.buckets (t.loc cityHash n)
            (t.buckets (t.loc cityHash n) ++ [t.nextRef]) }, t.nextRef, true)) := by
  cases hfind : (t.buckets (t.loc cityHash n)).find? fun r =>
      (t.entries r).any fun e => n == e.entryPrefix with
  | some r =>
      refine Or.inl ⟨r, ?_, ?_⟩
      · have hr := List.find?_some hfind
        simp only [Option.any_eq_true, beq_iff_eq] at hr
        obtain ⟨e, he, hn⟩ := hr
        exact nameOf_eq_some.mpr ⟨e, he, hn.symm⟩
      · simp only [loc] at hfind
        simp only [insert, hfind]
  | none =>
      refine Or.inr ⟨?_, ?_⟩
      · intro r hr
        have hmem : r ∈ t.buckets (t.loc cityHash n) := h.mem_bucket.mpr ⟨n, hr, rfl⟩
        have hnot := List.find?_eq_none.mp hfind r hmem
        obtain ⟨e, he, rfl⟩ := nameOf_eq_some.mp hr
        simp [he] at hnot
      · simp only [loc] at hfind ⊢
        simp only [insert, hfind]

/-- The tree after a new entry has been inserted and linked to its parent. -/
def added (cityHash : Component → UInt64) (t : NameTree) (parent : Option Ref) (n : Name) : NameTree :=
  linkNew
    { t with
      entries := Function.update t.entries t.nextRef (some (Entry.new n (computeHash cityHash n)))
      nextRef := t.nextRef + 1
      buckets := Function.update t.buckets (t.loc cityHash n)
        (t.buckets (t.loc cityHash n) ++ [t.nextRef]) } parent t.nextRef

@[simp] theorem added_nextRef (t : NameTree) (parent : Option Ref) (n : Name) :
    (t.added cityHash parent n).nextRef = t.nextRef + 1 := by
  cases parent <;> simp [added, linkNew]

@[simp] theorem added_nBuckets (t : NameTree) (parent : Option Ref) (n : Name) :
    (t.added cityHash parent n).nBuckets = t.nBuckets := by
  cases parent <;> simp [added, linkNew]

@[simp] theorem added_minNBuckets (t : NameTree) (parent : Option Ref) (n : Name) :
    (t.added cityHash parent n).minNBuckets = t.minNBuckets := by
  cases parent <;> simp [added, linkNew]

theorem added_buckets (t : NameTree) (parent : Option Ref) (n : Name) (b : Nat) :
    (t.added cityHash parent n).buckets b =
      if b = t.loc cityHash n then t.buckets b ++ [t.nextRef] else t.buckets b := by
  by_cases hb : b = t.loc cityHash n
  · subst hb
    cases parent <;> simp [added, linkNew]
  · cases parent <;> simp [added, linkNew, hb]

theorem added_entries (cityHash : Component → UInt64) (t : NameTree) (parent : Option Ref) (n : Name)
    (hparent : ∀ p, parent = some p → p ≠ t.nextRef) (x : Ref) :
    (t.added cityHash parent n).entries x =
      if x = t.nextRef then some { Entry.new n (computeHash cityHash n) with parent }
      else if parent = some x then
        (t.entries x).map fun e => { e with children := e.children ++ [t.nextRef] }
      else t.entries x := by
  cases parent with
  | none =>
      by_cases hx : x = t.nextRef
      · simp [added, linkNew, entries_modifyEntry, hx]
      · simp [added, linkNew, entries_modifyEntry, hx]
  | some p =>
      have hp := hparent p rfl
      by_cases hx : x = t.nextRef
      · simp [added, linkNew, entries_modifyEntry, hx, Ne.symm hp]
      · by_cases hxp : x = p
        · subst hxp
          simp [added, linkNew, entries_modifyEntry, hx]
        · simp [added, linkNew, entries_modifyEntry, hx, hxp, Ne.symm hxp]

section Added

variable {parent : Option Ref} {n : Name}

theorem added_nameOf (cityHash : Component → UInt64) (hp : ∀ p, parent = some p → p ≠ t.nextRef) (x : Ref) :
    (t.added cityHash parent n).nameOf x = if x = t.nextRef then some n else t.nameOf x := by
  rw [nameOf, added_entries cityHash t parent n hp]
  split
  · rfl
  · split
    · cases hx : t.entries x <;> simp [nameOf, hx]
    · rfl

theorem added_parentOf (cityHash : Component → UInt64) (hp : ∀ p, parent = some p → p ≠ t.nextRef) (x : Ref) :
    (t.added cityHash parent n).parentOf x = if x = t.nextRef then parent else t.parentOf x := by
  rw [parentOf, added_entries cityHash t parent n hp]
  split
  · rfl
  · split
    · cases hx : t.entries x <;> simp [parentOf, hx]
    · rfl

theorem added_childrenOf (cityHash : Component → UInt64) (hp : ∀ p, parent = some p → p ≠ t.nextRef)
    (hstored : ∀ p, parent = some p → ∃ m, t.nameOf p = some m) (hfree : t.entries t.nextRef = none)
    (x : Ref) :
    (t.added cityHash parent n).childrenOf x =
      if parent = some x then t.childrenOf x ++ [t.nextRef] else t.childrenOf x := by
  rw [childrenOf, added_entries cityHash t parent n hp]
  by_cases hx : x = t.nextRef
  · have hne : parent ≠ some x := fun h => hp x h hx
    simp [hx ▸ hne, hx, childrenOf, hfree, Entry.new]
  · by_cases hpx : parent = some x
    · obtain ⟨m, hm⟩ := hstored x hpx
      obtain ⟨e, he, -⟩ := nameOf_eq_some.mp hm
      simp [hx, hpx, childrenOf, he]
    · simp [hx, hpx, childrenOf]

end Added

theorem Sound.free_nextRef (h : t.Sound cityHash) : t.entries t.nextRef = none := by
  cases he : t.entries t.nextRef with
  | none => rfl
  | some e => exact absurd (h.fresh (nameOf_eq_some.mpr ⟨e, he, rfl⟩)) (lt_irrefl _)

/-- The parent a new entry is linked to: none for the root name, else the entry one component
shorter. -/
def IsParentFor (t : NameTree) (parent : Option Ref) (n : Name) : Prop :=
  (n = [] ∧ parent = none) ∨ (n ≠ [] ∧ ∃ p, parent = some p ∧ t.nameOf p = some n.dropLast)

theorem IsParentFor.stored {parent : Option Ref} {n : Name} (hparent : t.IsParentFor parent n) {p : Ref}
    (hp : parent = some p) : ∃ m, t.nameOf p = some m := by
  rcases hparent with ⟨-, hnone⟩ | ⟨-, q, hq, hm⟩
  · rw [hp] at hnone
    cases hnone
  · rw [hp] at hq
    cases hq
    exact ⟨_, hm⟩

theorem Sound.ne_nextRef (h : t.Sound cityHash) {parent : Option Ref} {n : Name} (hparent : t.IsParentFor parent n) :
    ∀ p, parent = some p → p ≠ t.nextRef := by
  intro p hp heq
  obtain ⟨m, hm⟩ := hparent.stored hp
  exact absurd (h.fresh hm) (by simp [heq])

theorem Sound.nextRef_not_mem (h : t.Sound cityHash) (b : Nat) : t.nextRef ∉ t.buckets b := by
  intro hb
  obtain ⟨m, hm, -⟩ := h.mem_bucket.mp hb
  exact absurd (h.fresh hm) (lt_irrefl _)

/-! The parts of the invariant after an entry has been added, one by one. -/

section AddedSound

variable {parent : Option Ref} {n : Name}

theorem Sound.added_hash (h : t.Sound cityHash) (hparent : t.IsParentFor parent n) {r : Ref} {e : Entry}
    (he : (t.added cityHash parent n).entries r = some e) : e.hash = computeHash cityHash e.entryPrefix := by
  rw [added_entries cityHash t parent n (h.ne_nextRef hparent)] at he
  split at he
  · cases he
    rfl
  · split at he
    · obtain ⟨e', he', rfl⟩ := Option.map_eq_some_iff.mp he
      show e'.hash = computeHash cityHash e'.entryPrefix
      exact h.hash_eq he'
    · exact h.hash_eq he

theorem Sound.added_nameOf_inj (h : t.Sound cityHash) (hnew : ∀ r, t.nameOf r ≠ some n)
    (hparent : t.IsParentFor parent n) {r r' : Ref} {m : Name} (hr : (t.added cityHash parent n).nameOf r = some m)
    (hr' : (t.added cityHash parent n).nameOf r' = some m) : r = r' := by
  rw [added_nameOf cityHash (h.ne_nextRef hparent)] at hr hr'
  split at hr <;> split at hr'
  · simp [*]
  · cases hr
    exact absurd hr' (hnew r')
  · cases hr'
    exact absurd hr (hnew r)
  · exact h.nameOf_inj hr hr'

theorem Sound.added_mem_bucket (h : t.Sound cityHash) (hparent : t.IsParentFor parent n) {b : Nat} {r : Ref} :
    r ∈ (t.added cityHash parent n).buckets b ↔
      ∃ m, (t.added cityHash parent n).nameOf r = some m ∧ (t.added cityHash parent n).loc cityHash m = b := by
  have hold := h.mem_bucket (b := b) (r := r)
  have hnotmem := h.nextRef_not_mem b
  have hloc : ∀ m, (t.added cityHash parent n).loc cityHash m = t.loc cityHash m := by simp [loc]
  rw [added_buckets, added_nameOf cityHash (h.ne_nextRef hparent)]
  simp only [hloc]
  by_cases hr : r = t.nextRef
  · subst hr
    by_cases hb : b = t.loc cityHash n
    · simp [hb]
    · simp [hb, hnotmem, Ne.symm hb]
  · by_cases hb : b = t.loc cityHash n
    · subst hb
      simpa [hr] using hold
    · simp [hb, hr, hold]

theorem Sound.added_bucket_nodup (h : t.Sound cityHash) (b : Nat) :
    ((t.added cityHash parent n).buckets b).Nodup := by
  rw [added_buckets]
  split
  · refine (h.bucket_nodup b).append (by simp) ?_
    intro x hx hx'
    rw [List.mem_singleton.mp hx'] at hx
    exact h.nextRef_not_mem b hx
  · exact h.bucket_nodup b

theorem Sound.added_chained (h : t.Sound cityHash) (hnew : ∀ r, t.nameOf r ≠ some n)
    (hparent : t.IsParentFor parent n) (b : Nat) :
    ((t.added cityHash parent n).buckets b).Pairwise ((t.added cityHash parent n).Chained cityHash) := by
  have hname := added_nameOf cityHash (n := n) (h.ne_nextRef hparent)
  have hne : ∀ {x}, x ∈ t.buckets b → x ≠ t.nextRef := fun hx heq => h.nextRef_not_mem b (heq ▸ hx)
  have hold : (t.buckets b).Pairwise ((t.added cityHash parent n).Chained cityHash) := by
    refine (h.chained b).imp_of_mem ?_
    intro x y hx hy hxy m m' hm hm'
    rw [hname, if_neg (hne hx)] at hm
    rw [hname, if_neg (hne hy)] at hm'
    exact hxy m m' hm hm'
  rw [added_buckets]
  split
  · refine List.pairwise_append.mpr ⟨hold, by simp, ?_⟩
    intro x hx y hy m m' hm hm' _ hpre
    rw [List.mem_singleton.mp hy, hname, if_pos rfl] at hm'
    cases hm'
    rw [hname, if_neg (hne hx)] at hm
    -- a stored name has all its prefixes stored, and the new name is not stored
    obtain ⟨r', hr'⟩ := h.prefix_stored hm hpre
    exact hnew r' hr'
  · exact hold

theorem Sound.added_parent_root (h : t.Sound cityHash) (hparent : t.IsParentFor parent n) {r : Ref}
    (hr : (t.added cityHash parent n).nameOf r = some []) : (t.added cityHash parent n).parentOf r = none := by
  rw [added_nameOf cityHash (h.ne_nextRef hparent)] at hr
  rw [added_parentOf cityHash (h.ne_nextRef hparent)]
  split at hr
  · rename_i heq
    rw [if_pos heq]
    rcases hparent with ⟨-, hnone⟩ | ⟨hne, -⟩
    · exact hnone
    · cases hr
      exact absurd rfl hne
  · rename_i hne
    rw [if_neg hne]
    exact h.parent_root hr

theorem Sound.added_parent_cons (h : t.Sound cityHash) (hparent : t.IsParentFor parent n) {r : Ref} {m : Name}
    (hr : (t.added cityHash parent n).nameOf r = some m) (hne : m ≠ []) :
    ∃ p, (t.added cityHash parent n).parentOf r = some p ∧
      (t.added cityHash parent n).nameOf p = some m.dropLast := by
  have hfresh := h.ne_nextRef hparent
  rw [added_nameOf cityHash hfresh] at hr
  simp only [added_nameOf cityHash hfresh, added_parentOf cityHash hfresh]
  split at hr
  · rename_i heq
    cases hr
    rcases hparent with ⟨hroot, -⟩ | ⟨-, p, hpp, hpm⟩
    · exact absurd hroot hne
    · exact ⟨p, by rw [if_pos heq, hpp], by rw [if_neg (hfresh p hpp), hpm]⟩
  · rename_i hr'
    obtain ⟨p, hpp, hpm⟩ := h.parent_cons hr hne
    exact ⟨p, by rw [if_neg hr', hpp], by rw [if_neg (h.fresh hpm).ne, hpm]⟩

theorem Sound.added_mem_children (h : t.Sound cityHash) (hparent : t.IsParentFor parent n) {p c : Ref} :
    c ∈ (t.added cityHash parent n).childrenOf p ↔ (t.added cityHash parent n).parentOf c = some p := by
  have hold := h.mem_children (p := p) (c := c)
  rw [added_childrenOf cityHash (h.ne_nextRef hparent) (fun _ => hparent.stored) h.free_nextRef,
    added_parentOf cityHash (h.ne_nextRef hparent)]
  by_cases hc : c = t.nextRef
  · subst hc
    have hnone : t.parentOf t.nextRef = none := by simp [parentOf, h.free_nextRef]
    rw [hnone] at hold
    by_cases hpp : parent = some p
    · simp [hpp]
    · simp [hpp, hold]
  · by_cases hpp : parent = some p
    · simp [hpp, hc, hold]
    · simp [hpp, hc, hold]

theorem Sound.added_children_nodup (h : t.Sound cityHash) (hparent : t.IsParentFor parent n) (p : Ref) :
    ((t.added cityHash parent n).childrenOf p).Nodup := by
  rw [added_childrenOf cityHash (h.ne_nextRef hparent) (fun _ => hparent.stored) h.free_nextRef]
  split
  · refine (h.children_nodup p).append (by simp) ?_
    intro x hx hx'
    have hnone : t.parentOf t.nextRef = none := by simp [parentOf, h.free_nextRef]
    rw [List.mem_singleton.mp hx', h.mem_children, hnone] at hx
    cases hx
  · exact h.children_nodup p

theorem Sound.added (h : t.Sound cityHash) (hnew : ∀ r, t.nameOf r ≠ some n) (hparent : t.IsParentFor parent n) :
    (t.added cityHash parent n).Sound cityHash where
  fresh hr := by
    rw [added_nameOf cityHash (h.ne_nextRef hparent)] at hr
    rw [added_nextRef]
    split at hr
    · rename_i heq
      rw [heq]
      exact Nat.lt_succ_self _
    · exact Nat.lt_succ_of_lt (h.fresh hr)
  hash_eq := h.added_hash hparent
  nameOf_inj := h.added_nameOf_inj hnew hparent
  mem_bucket := h.added_mem_bucket hparent
  bucket_nodup := h.added_bucket_nodup
  chained := h.added_chained hnew hparent
  parent_root := h.added_parent_root hparent
  parent_cons := h.added_parent_cons hparent
  mem_children := h.added_mem_children hparent
  children_nodup := h.added_children_nodup hparent
  nBuckets_pos := by simpa using h.nBuckets_pos
  min_pos := by simpa using h.min_pos

end AddedSound

theorem WF.added (h : t.WF cityHash) {parent : Option Ref} {n : Name} (hnew : ∀ r, t.nameOf r ≠ some n)
    (hparent : t.IsParentFor parent n) : (t.added cityHash parent n).WF cityHash where
  toSound := h.toSound.added hnew hparent
  pow_two := by simpa using h.pow_two

/-! ### Lookup -/

theorem nBuckets_le_enlargeIfLoaded (t : NameTree) : t.nBuckets ≤ t.enlargeIfLoaded.nBuckets := by
  unfold enlargeIfLoaded
  split
  · simp only [NameTree.resize]
    omega
  · exact le_rfl

@[simp] theorem enlargeIfLoaded_nameOf (t : NameTree) : t.enlargeIfLoaded.nameOf = t.nameOf := by
  unfold enlargeIfLoaded
  split <;> rfl

/-- The hash of every stored entry gives the same bucket of a table of `m` buckets when it is truncated to
32 bits. -/
def RehashesTo (t : NameTree) (m : Nat) : Prop :=
  ∀ r e, t.entries r = some e → rehashLoc e.hash m = e.hash.toNat % m

theorem rehashesTo_two_pow {k : Nat} (hk : k ≤ 32) : t.RehashesTo (2 ^ k) :=
  fun _ e _ => rehashLoc_two_pow hk e.hash

theorem Sound.enlargeIfLoaded (h : t.Sound cityHash)
    (hre : t.enlargeThreshold < t.nItems → t.RehashesTo (2 * t.nBuckets)) :
    t.enlargeIfLoaded.Sound cityHash := by
  have hpos := h.nBuckets_pos
  unfold NameTree.enlargeIfLoaded
  split
  · rename_i hload
    exact h.resize (by omega) (hre hload)
  · exact h

/-- What one iteration of `lookup` leaves before it may enlarge the table. -/
def afterInsert (cityHash : Component → UInt64) (t : NameTree) (parent : Option Ref) (n : Name) : NameTree :=
  let ret := t.insert cityHash n
  if ret.2.2 then ret.1.linkNew parent ret.2.1 else ret.1

theorem lookupStep_eq (acc : NameTree × Option Ref) (n : Name) :
    lookupStep cityHash acc n =
      ((acc.1.afterInsert cityHash acc.2 n).enlargeIfLoaded, some (acc.1.insert cityHash n).2.1) := rfl

theorem Sound.afterInsert_cases (h : t.Sound cityHash) (parent : Option Ref) (n : Name) :
    (∃ r, t.nameOf r = some n ∧ t.afterInsert cityHash parent n = t ∧ (t.insert cityHash n).2.1 = r) ∨
    ((∀ r, t.nameOf r ≠ some n) ∧ t.afterInsert cityHash parent n = t.added cityHash parent n ∧
      (t.insert cityHash n).2.1 = t.nextRef) := by
  rcases h.insert_cases n with ⟨r, hr, hins⟩ | ⟨hnew, hins⟩
  · exact Or.inl ⟨r, hr, by simp [afterInsert, hins], by rw [hins]⟩
  · exact Or.inr ⟨hnew, by simp [afterInsert, hins, NameTree.added], by rw [hins]⟩

/-- One iteration of `lookup` keeps the invariant and every stored name, adds at most its prefix, and
yields the entry of its prefix. -/
theorem Sound.afterInsert (h : t.Sound cityHash) {parent : Option Ref} {n : Name}
    (hparent : t.IsParentFor parent n) :
    (t.afterInsert cityHash parent n).Sound cityHash ∧
    (∀ r m, t.nameOf r = some m → (t.afterInsert cityHash parent n).nameOf r = some m) ∧
    (∀ r m, (t.afterInsert cityHash parent n).nameOf r = some m → t.nameOf r = some m ∨ m = n) ∧
    (t.afterInsert cityHash parent n).nameOf (t.insert cityHash n).2.1 = some n := by
  rcases h.afterInsert_cases parent n with ⟨r, hr, hafter, hret⟩ | ⟨hnew, hafter, hret⟩
  · rw [hafter, hret]
    exact ⟨h, fun x m hx => hx, fun x m hx => Or.inl hx, hr⟩
  · rw [hafter, hret]
    have hp := h.ne_nextRef hparent
    refine ⟨h.added hnew hparent, fun x m hx => ?_, fun x m hx => ?_, ?_⟩
    · have hne : x ≠ t.nextRef := fun heq => absurd (h.fresh hx) (by simp [heq])
      simp [added_nameOf cityHash hp, hne, hx]
    · rw [added_nameOf cityHash hp] at hx
      split at hx
      · exact Or.inr (Option.some.inj hx).symm
      · exact Or.inl hx
    · simp [added_nameOf cityHash hp]

theorem afterInsert_nBuckets (t : NameTree) (parent : Option Ref) (n : Name) :
    (t.afterInsert cityHash parent n).nBuckets = t.nBuckets := by
  have hins : (t.insert cityHash n).1.nBuckets = t.nBuckets := by
    unfold insert
    dsimp only
    split <;> rfl
  unfold afterInsert
  dsimp only
  split
  · rw [← hins]
    unfold linkNew
    dsimp only
    split <;> simp
  · exact hins

theorem nBuckets_le_lookupStep (acc : NameTree × Option Ref) (n : Name) :
    acc.1.nBuckets ≤ (lookupStep cityHash acc n).1.nBuckets := by
  rw [lookupStep_eq]
  exact le_trans (afterInsert_nBuckets acc.1 acc.2 n).ge (nBuckets_le_enlargeIfLoaded _)

/-- The state of the loop of `lookup` after the first `j` prefixes. -/
def lookupAcc (cityHash : Component → UInt64) (t : NameTree) (n : Name) (j : Nat) : NameTree × Option Ref :=
  (List.range j).foldl (fun acc i => lookupStep cityHash acc (n.getPrefix i)) (t, none)

theorem lookup_eq_lookupAcc (t : NameTree) (n : Name) :
    t.lookup cityHash n = t.lookupAcc cityHash n (n.length + 1) := by
  rw [lookup, List.foldl_map, lookupAcc]

theorem lookupAcc_succ (t : NameTree) (n : Name) (j : Nat) :
    t.lookupAcc cityHash n (j + 1) = lookupStep cityHash (t.lookupAcc cityHash n j) (n.getPrefix j) := by
  rw [lookupAcc, List.range_succ, List.foldl_append]
  rfl

theorem nBuckets_le_lookupAcc (t : NameTree) (n : Name) {i j : Nat} (hij : i ≤ j) :
    (t.lookupAcc cityHash n i).1.nBuckets ≤ (t.lookupAcc cityHash n j).1.nBuckets := by
  induction j, hij using Nat.le_induction with
  | base => exact le_rfl
  | succ j _ ih =>
      rw [lookupAcc_succ]
      exact ih.trans (nBuckets_le_lookupStep _ _)

/-- The tree before iteration `j` enlarges the table. -/
def beforeEnlarge (cityHash : Component → UInt64) (t : NameTree) (n : Name) (j : Nat) : NameTree :=
  (t.lookupAcc cityHash n j).1.afterInsert cityHash (t.lookupAcc cityHash n j).2 (n.getPrefix j)

/-- Up to iteration `j` the loop keeps the invariant and every stored name, and stores prefixes only. -/
def LoopSound (cityHash : Component → UInt64) (t : NameTree) (n : Name) (j : Nat) : Prop :=
  ∀ i ≤ j, (t.lookupAcc cityHash n i).1.Sound cityHash ∧
    (∀ r m, t.nameOf r = some m → (t.lookupAcc cityHash n i).1.nameOf r = some m) ∧
    ∀ r m, (t.lookupAcc cityHash n i).1.nameOf r = some m → t.nameOf r = some m ∨ m <+: n

/-- Every resize in the loop of `lookup` finds the right buckets. -/
def LookupRehashes (cityHash : Component → UInt64) (t : NameTree) (n : Name) : Prop :=
  ∀ j ≤ n.length, t.LoopSound cityHash n j → (t.beforeEnlarge cityHash n j).Sound cityHash →
    (∀ r m, (t.beforeEnlarge cityHash n j).nameOf r = some m → t.nameOf r = some m ∨ m <+: n) →
    (t.beforeEnlarge cityHash n j).enlargeThreshold < (t.beforeEnlarge cityHash n j).nItems →
    (t.beforeEnlarge cityHash n j).RehashesTo (2 * (t.beforeEnlarge cityHash n j).nBuckets)

theorem Sound.lookupLoop (h : t.Sound cityHash) (n : Name) (hre : t.LookupRehashes cityHash n) :
    ∀ j, j ≤ n.length + 1 →
      (t.lookupAcc cityHash n j).1.Sound cityHash ∧
      (∀ r m, t.nameOf r = some m → (t.lookupAcc cityHash n j).1.nameOf r = some m) ∧
      (∀ r m, (t.lookupAcc cityHash n j).1.nameOf r = some m → t.nameOf r = some m ∨ m <+: n) ∧
      (j ≤ n.length → (t.lookupAcc cityHash n j).1.IsParentFor (t.lookupAcc cityHash n j).2 (n.getPrefix j)) ∧
      (∀ i < j, ∃ r, (t.lookupAcc cityHash n j).1.nameOf r = some (n.getPrefix i)) ∧
      ∀ i, j = i + 1 → ∃ r, (t.lookupAcc cityHash n j).2 = some r ∧
        (t.lookupAcc cityHash n j).1.nameOf r = some (n.getPrefix i) := by
  intro j
  induction j using Nat.strong_induction_on with
  | _ j ih =>
    intro hj
    cases j with
    | zero =>
      exact ⟨h, fun _ _ hr => hr, fun _ _ hr => Or.inl hr, fun _ => Or.inl ⟨rfl, rfl⟩,
        fun i hi => absurd hi (by omega), fun i hi => absurd hi (by omega)⟩
    | succ j =>
      obtain ⟨hsound, hkeep, honly, hparent, hall, -⟩ := ih j (by omega) (by omega)
      have hloop : t.LoopSound cityHash n j := fun i hi => by
        obtain ⟨h1, h2, h3, -⟩ := ih i (by omega) (by omega)
        exact ⟨h1, h2, h3⟩
      obtain ⟨hsound', hkeep', honly', hrn⟩ := hsound.afterInsert (hparent (by omega))
      have honly'' : ∀ x m, (t.beforeEnlarge cityHash n j).nameOf x = some m → t.nameOf x = some m ∨ m <+: n := by
        intro x m hx
        rcases honly' x m hx with hx | rfl
        · exact honly x m hx
        · exact Or.inr (List.take_prefix _ _)
      rw [lookupAcc_succ, lookupStep_eq]
      dsimp only
      rw [enlargeIfLoaded_nameOf, IsParentFor, enlargeIfLoaded_nameOf]
      refine ⟨hsound'.enlargeIfLoaded (hre j (by omega) hloop hsound' honly''),
        fun x m hx => hkeep' x m (hkeep x m hx), honly'', ?_, fun i hi => ?_, ?_⟩
      · intro hlen
        refine Or.inr ⟨?_, _, rfl, ?_⟩
        · intro hnil
          have := congrArg List.length hnil
          simp only [Name.getPrefix, List.length_take, List.length_nil] at this
          omega
        · rw [hrn, Name.getPrefix, Name.getPrefix, ← List.take_append_getElem (by omega : j < n.length),
            List.dropLast_concat]
      · rcases Nat.lt_succ_iff_lt_or_eq.mp hi with hi | rfl
        · obtain ⟨x, hx⟩ := hall i hi
          exact ⟨x, hkeep' x _ hx⟩
        · exact ⟨_, hrn⟩
      · intro i hi
        cases hi
        exact ⟨_, rfl, hrn⟩

/-- `lookup` keeps the invariant and every stored name, stores exactly the prefixes of its name besides,
and returns the entry of its name. -/
theorem Sound.lookup (h : t.Sound cityHash) (n : Name) (hre : t.LookupRehashes cityHash n) :
    (t.lookup cityHash n).1.Sound cityHash ∧
    (∀ r m, t.nameOf r = some m → (t.lookup cityHash n).1.nameOf r = some m) ∧
    (∀ r m, (t.lookup cityHash n).1.nameOf r = some m → t.nameOf r = some m ∨ m <+: n) ∧
    ∃ r, (t.lookup cityHash n).2 = some r ∧ (t.lookup cityHash n).1.nameOf r = some n := by
  rw [lookup_eq_lookupAcc]
  obtain ⟨hsound, hkeep, honly, -, -, hsucc⟩ := h.lookupLoop n hre (n.length + 1) le_rfl
  obtain ⟨r, hr, hrn⟩ := hsucc n.length rfl
  refine ⟨hsound, hkeep, honly, r, hr, ?_⟩
  rw [hrn, Name.getPrefix, List.take_length]

theorem nBuckets_enlargeIfLoaded (t : NameTree) :
    t.enlargeIfLoaded.nBuckets = if t.enlargeThreshold < t.nItems then 2 * t.nBuckets else t.nBuckets := by
  unfold enlargeIfLoaded
  split <;> rfl

/-- The number of buckets is doubled any number of times. -/
theorem nBuckets_lookupAcc (cityHash : Component → UInt64) (t : NameTree) (n : Name) (j : Nat) :
    ∃ a, (t.lookupAcc cityHash n j).1.nBuckets = t.nBuckets * 2 ^ a := by
  induction j with
  | zero => exact ⟨0, (Nat.mul_one _).symm⟩
  | succ j ih =>
      obtain ⟨a, ha⟩ := ih
      rw [lookupAcc_succ, lookupStep_eq, nBuckets_enlargeIfLoaded, afterInsert_nBuckets, ha]
      split
      · exact ⟨a + 1, by rw [pow_succ, mul_comm 2, mul_assoc]⟩
      · exact ⟨a, rfl⟩

/-- Up to `2 ^ 32` buckets every resize finds the right buckets. -/
theorem WF.rehashes (h : t.WF cityHash) (n : Name) (hbound : (t.lookup cityHash n).1.nBuckets ≤ 2 ^ 32) :
    t.LookupRehashes cityHash n := by
  intro j hj _ _ _ hload
  obtain ⟨k, -, hk⟩ := h.pow_two
  obtain ⟨a, ha⟩ := nBuckets_lookupAcc cityHash t n (j + 1)
  have hpow : (t.lookupAcc cityHash n (j + 1)).1.nBuckets = 2 ^ (k + a) := by rw [ha, hk, pow_add]
  have hnext : (t.lookupAcc cityHash n (j + 1)).1.nBuckets = 2 * (t.beforeEnlarge cityHash n j).nBuckets := by
    rw [lookupAcc_succ, lookupStep_eq, nBuckets_enlargeIfLoaded, if_pos]
    · rfl
    · exact hload
  have hle : 2 ^ (k + a) ≤ 2 ^ 32 := by
    rw [← hpow]
    rw [lookup_eq_lookupAcc] at hbound
    exact (nBuckets_le_lookupAcc t n (Nat.succ_le_succ hj)).trans hbound
  rw [← hnext, hpow]
  exact rehashesTo_two_pow ((Nat.pow_le_pow_iff_right (by decide)).mp hle)

theorem WF.lookup_pow_two (h : t.WF cityHash) (n : Name) (hbound : (t.lookup cityHash n).1.nBuckets ≤ 2 ^ 32) :
    ∃ k, k ≤ 32 ∧ (t.lookup cityHash n).1.nBuckets = 2 ^ k := by
  obtain ⟨k, -, hk⟩ := h.pow_two
  obtain ⟨a, ha⟩ := nBuckets_lookupAcc cityHash t n (n.length + 1)
  rw [lookup_eq_lookupAcc] at hbound ⊢
  rw [hk, ← pow_add] at ha
  rw [ha] at hbound
  exact ⟨k + a, (Nat.pow_le_pow_iff_right (by decide)).mp hbound, ha⟩

/-- `lookup` keeps the invariant and every stored name, and returns the entry of its name. -/
theorem WF.lookup (h : t.WF cityHash) (n : Name) (hbound : (t.lookup cityHash n).1.nBuckets ≤ 2 ^ 32) :
    (t.lookup cityHash n).1.WF cityHash ∧
    (∀ r m, t.nameOf r = some m → (t.lookup cityHash n).1.nameOf r = some m) ∧
    ∃ r, (t.lookup cityHash n).2 = some r ∧ (t.lookup cityHash n).1.nameOf r = some n := by
  obtain ⟨hsound, hkeep, -, hret⟩ := h.toSound.lookup n (h.rehashes n hbound)
  exact ⟨⟨hsound, h.lookup_pow_two n hbound⟩, hkeep, hret⟩

/-! ### Erasing an entry -/

/-- The tree after an empty entry has been taken from its parent's children and from its chain. -/
def removed (t : NameTree) (r : Ref) (e : Entry) : NameTree :=
  match e.parent with
  | none => t.removeNode r e
  | some p =>
      (t.modifyEntry p fun pe => { pe with children := Lists.swapPop pe.children r }).removeNode r e

theorem removed_entries (t : NameTree) (r : Ref) (e : Entry) (x : Ref) :
    (t.removed r e).entries x =
      if x = r then none
      else if e.parent = some x then
        (t.entries x).map fun pe => { pe with children := Lists.swapPop pe.children r }
      else t.entries x := by
  unfold removed
  by_cases hx : x = r
  · split <;> simp [removeNode, setEntry, hx]
  · cases hp : e.parent with
    | none => simp [removeNode, setEntry, hx]
    | some p =>
        by_cases hxp : x = p
        · subst hxp
          simp [removeNode, setEntry, entries_modifyEntry, hx]
        · simp [removeNode, setEntry, entries_modifyEntry, hx, hxp, Ne.symm hxp]

@[simp] theorem removed_nBuckets (t : NameTree) (r : Ref) (e : Entry) :
    (t.removed r e).nBuckets = t.nBuckets := by
  unfold removed
  split <;> simp [removeNode, setEntry]

@[simp] theorem removed_nextRef (t : NameTree) (r : Ref) (e : Entry) :
    (t.removed r e).nextRef = t.nextRef := by
  unfold removed
  split <;> simp [removeNode, setEntry]

@[simp] theorem removed_minNBuckets (t : NameTree) (r : Ref) (e : Entry) :
    (t.removed r e).minNBuckets = t.minNBuckets := by
  unfold removed
  split <;> simp [removeNode, setEntry]

theorem removed_buckets (t : NameTree) (r : Ref) (e : Entry) :
    (t.removed r e).buckets = Function.update t.buckets (e.hash.toNat % t.nBuckets)
      ((t.buckets (e.hash.toNat % t.nBuckets)).erase r) := by
  unfold removed
  split <;> simp [removeNode, setEntry]

theorem removed_nameOf (t : NameTree) (r : Ref) (e : Entry) (x : Ref) :
    (t.removed r e).nameOf x = if x = r then none else t.nameOf x := by
  rw [nameOf, removed_entries]
  split
  · rfl
  · split
    · cases hx : t.entries x <;> simp [nameOf, hx]
    · rfl

theorem removed_parentOf (t : NameTree) (r : Ref) (e : Entry) (x : Ref) :
    (t.removed r e).parentOf x = if x = r then none else t.parentOf x := by
  rw [parentOf, removed_entries]
  split
  · rfl
  · split
    · cases hx : t.entries x <;> simp [parentOf, hx]
    · rfl

theorem removed_childrenOf (t : NameTree) (r : Ref) (e : Entry) (x : Ref) :
    (t.removed r e).childrenOf x =
      if x = r then [] else if e.parent = some x then Lists.swapPop (t.childrenOf x) r else t.childrenOf x := by
  rw [childrenOf, removed_entries]
  split
  · rfl
  · split
    · cases hx : t.entries x <;> simp [childrenOf, hx, Lists.swapPop]
    · rfl

/-- An entry without children is no entry's parent. -/
theorem Sound.no_child (h : t.Sound cityHash) {r : Ref} {e : Entry} (he : t.entries r = some e)
    (hempty : e.isEmpty = true) (c : Ref) : t.parentOf c ≠ some r := by
  intro hc
  have hmem := h.mem_children.mpr hc
  have hnil : e.children = [] := by
    simp only [Entry.isEmpty, Bool.and_eq_true, List.isEmpty_iff] at hempty
    exact hempty.1.1.1.1
  simp [childrenOf, he, hnil] at hmem

/-! The parts of the invariant after an entry has been removed. -/

section RemovedSound

variable {r : Ref} {e : Entry}

theorem removed_sublist (t : NameTree) (r : Ref) (e : Entry) (b : Nat) :
    ((t.removed r e).buckets b).Sublist (t.buckets b) := by
  rw [removed_buckets]
  by_cases hb : b = e.hash.toNat % t.nBuckets
  · subst hb
    rw [Function.update_self]
    exact List.erase_sublist
  · rw [Function.update_of_ne hb]

theorem Sound.mem_removed_buckets (h : t.Sound cityHash) (he : t.entries r = some e) {b : Nat} {x : Ref} :
    x ∈ (t.removed r e).buckets b ↔ x ∈ t.buckets b ∧ x ≠ r := by
  rw [removed_buckets]
  by_cases hb : b = e.hash.toNat % t.nBuckets
  · subst hb
    rw [Function.update_self, (h.bucket_nodup _).mem_erase_iff]
    exact and_comm
  · rw [Function.update_of_ne hb]
    refine ⟨fun hx => ⟨hx, ?_⟩, fun hx => hx.1⟩
    rintro rfl
    obtain ⟨n, hn, hbn⟩ := h.mem_bucket.mp hx
    rw [nameOf_eq_some.mpr ⟨e, he, rfl⟩] at hn
    cases hn
    rw [loc, ← h.hash_eq he] at hbn
    exact hb hbn.symm

theorem Sound.removed_mem_bucket (h : t.Sound cityHash) (he : t.entries r = some e) {b : Nat} {x : Ref} :
    x ∈ (t.removed r e).buckets b ↔
      ∃ m, (t.removed r e).nameOf x = some m ∧ (t.removed r e).loc cityHash m = b := by
  have hloc : ∀ m, (t.removed r e).loc cityHash m = t.loc cityHash m := by simp [loc]
  rw [h.mem_removed_buckets he, h.mem_bucket, removed_nameOf]
  simp only [hloc]
  by_cases hx : x = r
  · simp [hx]
  · simp [hx]

theorem Sound.removed_chained (h : t.Sound cityHash) (b : Nat) :
    ((t.removed r e).buckets b).Pairwise ((t.removed r e).Chained cityHash) := by
  refine ((h.chained b).sublist (removed_sublist t r e b)).imp ?_
  intro x y hxy n n' hn hn'
  rw [removed_nameOf] at hn hn'
  split at hn
  · cases hn
  · split at hn'
    · cases hn'
    · exact hxy n n' hn hn'

theorem Sound.removed_parent_cons (h : t.Sound cityHash) (he : t.entries r = some e) (hempty : e.isEmpty = true)
    {x : Ref} {n : Name} (hx : (t.removed r e).nameOf x = some n) (hne : n ≠ []) :
    ∃ p, (t.removed r e).parentOf x = some p ∧ (t.removed r e).nameOf p = some n.dropLast := by
  rw [removed_nameOf] at hx
  simp only [removed_nameOf, removed_parentOf]
  split at hx
  · cases hx
  · rename_i hxr
    obtain ⟨p, hp, hpn⟩ := h.parent_cons hx hne
    have hpr : p ≠ r := by
      rintro rfl
      exact h.no_child he hempty x hp
    exact ⟨p, by rw [if_neg hxr, hp], by rw [if_neg hpr, hpn]⟩

theorem Sound.removed_mem_children (h : t.Sound cityHash) (he : t.entries r = some e) (hempty : e.isEmpty = true)
    {p c : Ref} : c ∈ (t.removed r e).childrenOf p ↔ (t.removed r e).parentOf c = some p := by
  rw [removed_childrenOf, removed_parentOf]
  by_cases hpr : p = r
  · subst hpr
    have hno := h.no_child he hempty c
    by_cases hc : c = p <;> simp [hc, hno]
  · rw [if_neg hpr]
    by_cases hep : e.parent = some p
    · rw [if_pos hep, Lists.mem_swapPop (h.children_nodup p), h.mem_children]
      by_cases hc : c = r <;> simp [hc]
    · rw [if_neg hep, h.mem_children]
      by_cases hc : c = r
      · subst hc
        simp [parentOf, he, hep]
      · simp [hc]

theorem Sound.removed_children_nodup (h : t.Sound cityHash) (p : Ref) : ((t.removed r e).childrenOf p).Nodup := by
  rw [removed_childrenOf]
  split
  · exact List.nodup_nil
  · split
    · exact Lists.nodup_swapPop (h.children_nodup p) r
    · exact h.children_nodup p

theorem Sound.removed (h : t.Sound cityHash) (he : t.entries r = some e) (hempty : e.isEmpty = true) :
    (t.removed r e).Sound cityHash where
  fresh hx := by
    rw [removed_nameOf] at hx
    rw [removed_nextRef]
    split at hx
    · cases hx
    · exact h.fresh hx
  hash_eq he' := by
    rw [removed_entries] at he'
    split at he'
    · cases he'
    · split at he'
      · obtain ⟨e'', he'', rfl⟩ := Option.map_eq_some_iff.mp he'
        show e''.hash = computeHash cityHash e''.entryPrefix
        exact h.hash_eq he''
      · exact h.hash_eq he'
  nameOf_inj hx hy := by
    rw [removed_nameOf] at hx hy
    split at hx
    · cases hx
    · split at hy
      · cases hy
      · exact h.nameOf_inj hx hy
  mem_bucket := h.removed_mem_bucket he
  bucket_nodup b := (h.bucket_nodup b).sublist (removed_sublist t r e b)
  chained := h.removed_chained
  parent_root hx := by
    rw [removed_nameOf] at hx
    rw [removed_parentOf]
    split at hx
    · cases hx
    · rename_i hne
      rw [if_neg hne]
      exact h.parent_root hx
  parent_cons := h.removed_parent_cons he hempty
  mem_children := h.removed_mem_children he hempty
  children_nodup := h.removed_children_nodup
  nBuckets_pos := by simpa using h.nBuckets_pos
  min_pos := by simpa using h.min_pos

end RemovedSound

theorem WF.removed (h : t.WF cityHash) {r : Ref} {e : Entry} (he : t.entries r = some e)
    (hempty : e.isEmpty = true) : (t.removed r e).WF cityHash where
  toSound := h.toSound.removed he hempty
  pow_two := by simpa using h.pow_two

theorem Sound.shrinkIfSparse (h : t.Sound cityHash)
    (hre : t.minNBuckets ≤ t.nBuckets / 2 → t.nItems < t.shrinkThreshold → t.RehashesTo (t.nBuckets / 2)) :
    t.shrinkIfSparse.Sound cityHash := by
  have hmin := h.min_pos
  unfold NameTree.shrinkIfSparse
  split
  · rename_i hsparse
    exact h.resize (by omega) (hre hsparse.1 hsparse.2)
  · exact h

theorem WF.shrinkIfSparse (h : t.WF cityHash) : t.shrinkIfSparse.WF cityHash := by
  have hmin := h.min_pos
  unfold NameTree.shrinkIfSparse
  split
  · rename_i hsparse
    obtain ⟨k, hk, hpow⟩ := h.pow_two
    obtain ⟨j, rfl⟩ : ∃ j, k = j + 1 := by
      cases k with
      | zero =>
          rw [hpow] at hsparse
          omega
      | succ j => exact ⟨j, rfl⟩
    have hhalf : t.nBuckets / 2 = 2 ^ j := by rw [hpow, pow_succ, Nat.mul_div_cancel _ (by decide)]
    rw [hhalf]
    exact h.resize (by omega)
  · exact h

theorem eraseUp_empty (fuel : Nat) {r : Ref} {e : Entry} (he : t.entries r = some e)
    (hempty : e.isEmpty = true) :
    eraseUp (fuel + 1) t r =
      ((e.parent.elim (t.removed r e) fun p => (eraseUp fuel (t.removed r e) p).1).shrinkIfSparse, true) := by
  cases hp : e.parent <;> simp [eraseUp, he, hempty, hp, NameTree.removed]

theorem eraseUp_unchanged (fuel : Nat) {r : Ref} (h : ∀ e, t.entries r = some e → e.isEmpty = false) :
    eraseUp fuel t r = (t, false) := by
  cases fuel with
  | zero => rfl
  | succ fuel =>
      cases he : t.entries r with
      | none => simp [eraseUp, he]
      | some e => simp [eraseUp, he, h e he]

/-- One level of the recursion of `eraseEntryIfEmpty`. -/
theorem eraseUp_succ_cases (fuel : Nat) (t : NameTree) (r : Ref) :
    (∃ e, t.entries r = some e ∧ e.isEmpty = true ∧ eraseUp (fuel + 1) t r =
      ((e.parent.elim (t.removed r e) fun p => (eraseUp fuel (t.removed r e) p).1).shrinkIfSparse, true)) ∨
    ((∀ e, t.entries r = some e → e.isEmpty = false) ∧ eraseUp (fuel + 1) t r = (t, false)) := by
  by_cases hex : ∃ e, t.entries r = some e ∧ e.isEmpty = true
  · obtain ⟨e, he, hempty⟩ := hex
    exact Or.inl ⟨e, he, hempty, eraseUp_empty fuel he hempty⟩
  · have hnot : ∀ e, t.entries r = some e → e.isEmpty = false := by
      intro e he
      by_contra hne
      exact hex ⟨e, he, by simpa using hne⟩
    exact Or.inr ⟨hnot, eraseUp_unchanged (fuel + 1) hnot⟩

/-- The rule for the recursion of `eraseEntryIfEmpty`: `Q` allows a number of removals, and where it
allows none the table may be shrunk. -/
theorem Sound.eraseUp {Q : Nat → NameTree → Prop} (hdown : ∀ k t, Q (k + 1) t → Q k t)
    (hremoved : ∀ k t r e, t.Sound cityHash → t.entries r = some e → Q (k + 1) t → Q k (t.removed r e))
    (hshrink : ∀ t, t.Sound cityHash → Q 0 t → t.shrinkIfSparse.Sound cityHash ∧ Q 0 t.shrinkIfSparse)
    (h : t.Sound cityHash) (fuel : Nat) (r : Ref) (hQ : Q fuel t) :
    (NameTree.eraseUp fuel t r).1.Sound cityHash ∧ Q 0 (NameTree.eraseUp fuel t r).1 := by
  have hzero : ∀ k t, Q k t → Q 0 t := by
    intro k
    induction k with
    | zero => exact fun t hQ => hQ
    | succ k ih => exact fun t hQ => ih t (hdown k t hQ)
  induction fuel generalizing t r with
  | zero => exact ⟨h, hQ⟩
  | succ fuel ih =>
      rcases eraseUp_succ_cases fuel t r with ⟨e, he, hempty, hrun⟩ | ⟨-, hrun⟩
      · rw [hrun]
        have hrem := h.removed he hempty
        have hQ' := hremoved fuel t r e h he hQ
        cases hp : e.parent with
        | none => exact hshrink _ hrem (hzero _ _ hQ')
        | some p =>
            obtain ⟨hsound, hQ0⟩ := ih hrem p hQ'
            exact hshrink _ hsound hQ0
      · rw [hrun]
        exact ⟨h, hzero _ _ hQ⟩

theorem WF.eraseUp (h : t.WF cityHash) (fuel : Nat) (r : Ref) :
    (NameTree.eraseUp fuel t r).1.WF cityHash := by
  obtain ⟨hsound, hpow⟩ := Sound.eraseUp (Q := fun _ t => ∃ k, k ≤ 32 ∧ t.nBuckets = 2 ^ k)
    (fun _ _ hQ => hQ) (fun _ t r e _ _ hQ => by simpa using hQ)
    (fun t hs hQ => ⟨(WF.shrinkIfSparse ⟨hs, hQ⟩).toSound, (WF.shrinkIfSparse ⟨hs, hQ⟩).pow_two⟩)
    h.toSound fuel r h.pow_two
  exact ⟨hsound, hpow⟩

theorem WF.eraseEntryIfEmpty (h : t.WF cityHash) (r : Ref) : (t.eraseEntryIfEmpty r).1.WF cityHash :=
  h.eraseUp _ r

/-- What is attached to an entry. -/
structure Attachment where
  fibEntry : Option Ref
  pitEntries : List Ref
  measurementsEntry : Option Ref
  strategyChoiceEntry : Option Ref

/-- The operations on the tree: the two public mutations, and the tables attaching and detaching
their entries. -/
inductive Op where
  | lookup (n : Name)
  | eraseEntryIfEmpty (r : Ref)
  | attach (r : Ref) (a : Attachment)

def apply (cityHash : Component → UInt64) (t : NameTree) : Op → Option NameTree
  | .lookup n => some (t.lookup cityHash n).1
  | .eraseEntryIfEmpty r => some (t.eraseEntryIfEmpty r).1
  | .attach r a => some (t.modifyEntry r fun e =>
      { e with
        fibEntry := a.fibEntry, pitEntries := a.pitEntries
        measurementsEntry := a.measurementsEntry, strategyChoiceEntry := a.strategyChoiceEntry })

/-- The operation leaves at most `2 ^ 32` buckets, so that `resize` never drops hash bits that
matter. -/
def Bounded (cityHash : Component → UInt64) (t : NameTree) (op : Op) : Prop :=
  ∀ t', t.apply cityHash op = some t' → t'.nBuckets ≤ 2 ^ 32

theorem WF.apply (h : t.WF cityHash) {op : Op} {t' : NameTree} (hb : t.Bounded cityHash op)
    (happly : t.apply cityHash op = some t') : t'.WF cityHash := by
  have hbound := hb t' happly
  cases op with
  | lookup n =>
      cases happly
      exact (h.lookup n hbound).1
  | eraseEntryIfEmpty r =>
      cases happly
      exact h.eraseEntryIfEmpty r
  | attach r a =>
      cases happly
      exact h.modifyEntry_attached r _ (fun _ => rfl) (fun _ => rfl) (fun _ => rfl) (fun _ => rfl)

/-- Every tree reached from a power-of-two number of buckets satisfies the invariant. -/
theorem wf_of_reach {k : Nat} (hk : k ≤ 32)
    (hr : Reach (NameTree.apply cityHash) (Bounded cityHash) (new (2 ^ k)) t) : t.WF cityHash :=
  hr.invariant (new_wf cityHash hk) fun _ _ _ h hb ha => h.apply hb ha

end NfdPitless.NameTree
