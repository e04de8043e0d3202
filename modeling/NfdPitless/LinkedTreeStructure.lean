import NfdPitless.LinkedTree
import NfdPitless.NameTreeErasure
import NfdPitless.NameTreeGrowth

/-! The structure of the name tree: its parents and children are those of the names, its chains are linked
both ways and hold every entry once, and each operation adds and erases exactly the entries it should. This
holds in every run whose resizes find the right buckets. -/

namespace NfdPitless.LinkedTree

variable {cityHash : Component → UInt64} {t t' : LinkedTree} {n : Name} {r : Ref}

/-- What holds between two operations. -/
structure WellFormed (nBuckets : Nat) (t : LinkedTree) : Prop where
  root : ∀ {r e}, t.entries r = some e → e.entryPrefix = [] → e.parent = none
  parent : ∀ {r e}, t.entries r = some e → e.entryPrefix ≠ [] →
    ∃ p pe, e.parent = some p ∧ t.entries p = some pe ∧ pe.entryPrefix = e.entryPrefix.dropLast
  children : ∀ {p pe}, t.entries p = some pe → ∀ c, c ∈ pe.children ↔ ∃ ce, t.entries c = some ce ∧ ce.parent = some p
  children_nodup : ∀ {p pe}, t.entries p = some pe → pe.children.Nodup
  /-- No name is stored twice. -/
  unique : ∀ {r r' e e'}, t.entries r = some e → t.entries r' = some e' → e.entryPrefix = e'.entryPrefix → r = r'
  size : t.nItems = { r | (t.entries r).isSome }.ncard
  /-- The nodes of every bucket are linked both ways. -/
  linked : ∃ chains, t.links.Holds chains ∧
    ∀ b r, r ∈ chains b ↔ ∃ e, t.entries r = some e ∧ e.hash.toNat % t.nBuckets = b
  /-- The assertion of `resize` holds, whatever the new number of buckets. -/
  resizable : ∀ m, (t.resize m).isSome
  minimum : nBuckets ≤ t.nBuckets

/-- A lookup of `n` that returns `r` adds the missing prefixes of `n` and changes no other entry but for its
children. -/
structure AddsMissing (t : LinkedTree) (n : Name) (t' : LinkedTree) (r : Option Ref) : Prop where
  returned : ∃ x e, r = some x ∧ t'.entries x = some e ∧ e.entryPrefix = n
  kept : ∀ {x e}, t.entries x = some e → ∃ e', t'.entries x = some e' ∧ e'.entryPrefix = e.entryPrefix ∧
    e'.parent = e.parent ∧ e'.attachment = e.attachment
  added : ∀ {x e'}, t.entries x = none → t'.entries x = some e' →
    e'.entryPrefix <+: n ∧ ∀ y e, t.entries y = some e → e.entryPrefix ≠ e'.entryPrefix
  all : ∀ p, p <+: n → ∃ x e, t'.entries x = some e ∧ e.entryPrefix = p

theorem new_toNameTree (nBuckets : Nat) : (new nBuckets).toNameTree = NameTree.new nBuckets := by
  have hchain : (new nBuckets).chain = fun _ => [] := rfl
  rw [toNameTree, hchain]
  rfl

theorem new_consistent {nBuckets : Nat} (hpos : 0 < nBuckets) : (new nBuckets).Consistent cityHash where
  linked := new_linked nBuckets
  sound := NameTree.new_sound cityHash hpos
  counted := NameTree.new_counted nBuckets

theorem Consistent.wellFormed (h : t.Consistent cityHash) {nBuckets : Nat} (hmin : t.minNBuckets = nBuckets) :
    t.WellFormed nBuckets where
  root he hname := by
    have hparent := h.sound.parent_root (NameTree.nameOf_eq_some.mpr ⟨_, he, hname⟩)
    have hentry : t.toNameTree.entries _ = some _ := he
    rwa [NameTree.parentOf, hentry, Option.bind_some] at hparent
  parent he hname := by
    obtain ⟨p, hp, hpn⟩ := h.sound.parent_cons (NameTree.nameOf_eq_some.mpr ⟨_, he, rfl⟩) hname
    obtain ⟨pe, hpe, hpeq⟩ := NameTree.nameOf_eq_some.mp hpn
    have hentry : t.toNameTree.entries _ = some _ := he
    rw [NameTree.parentOf, hentry, Option.bind_some] at hp
    exact ⟨p, pe, hp, hpe, hpeq⟩
  children {p pe} hpe c := by
    have hentry : t.toNameTree.entries p = some pe := hpe
    have hmem := h.sound.mem_children (p := p) (c := c)
    rw [NameTree.childrenOf, hentry] at hmem
    exact hmem.trans NameTree.parentOf_eq_some
  children_nodup {p pe} hpe := by
    have hentry : t.toNameTree.entries p = some pe := hpe
    have hnodup := h.sound.children_nodup p
    rwa [NameTree.childrenOf, hentry] at hnodup
  unique he he' heq :=
    h.sound.nameOf_inj (NameTree.nameOf_eq_some.mpr ⟨_, he, rfl⟩) (NameTree.nameOf_eq_some.mpr ⟨_, he', heq.symm⟩)
  size := h.counted.nItems_eq
  linked := by
    refine ⟨t.chain, h.linked.holds, fun b r => (h.sound.mem_bucket (b := b) (r := r)).trans ?_⟩
    constructor
    · rintro ⟨m, hm, hloc⟩
      obtain ⟨e, he, hname⟩ := NameTree.nameOf_eq_some.mp hm
      refine ⟨e, he, ?_⟩
      rw [h.sound.hash_eq he, hname]
      exact hloc
    · rintro ⟨e, he, hloc⟩
      refine ⟨e.entryPrefix, NameTree.nameOf_eq_some.mpr ⟨e, he, rfl⟩, ?_⟩
      rw [NameTree.loc, ← h.sound.hash_eq he]
      exact hloc
  resizable m := by
    obtain ⟨t', hrun, -⟩ := h.linked.resize h.full m
    rw [hrun]
    rfl
  minimum := hmin ▸ h.counted.min_le

theorem entry_of_nameOf {u : NameTree} {x : Ref} {m : Name} (h : u.nameOf x = some m) :
    ∃ e, u.entries x = some e ∧ e.entryPrefix = m := NameTree.nameOf_eq_some.mp h

/-- An entry that was there has the parent that it had. -/
theorem parentOf_kept {u u' : NameTree} (hu : u.Sound cityHash) (hu' : u'.Sound cityHash)
    (hkeep : ∀ x m, u.nameOf x = some m → u'.nameOf x = some m) {x : Ref} {m : Name} (hx : u.nameOf x = some m) :
    u'.parentOf x = u.parentOf x := by
  by_cases hnil : m = []
  · subst hnil
    rw [hu.parent_root hx, hu'.parent_root (hkeep _ _ hx)]
  · obtain ⟨p, hp, hpn⟩ := hu.parent_cons hx hnil
    obtain ⟨p', hp', hpn'⟩ := hu'.parent_cons (hkeep _ _ hx) hnil
    rw [hp, hp', hu'.nameOf_inj hpn' (hkeep _ _ hpn)]

theorem parent_eq_of_parentOf {u u' : NameTree} {x : Ref} {e e' : Entry} (he : u.entries x = some e)
    (he' : u'.entries x = some e') (h : u'.parentOf x = u.parentOf x) : e'.parent = e.parent := by
  rw [NameTree.parentOf, NameTree.parentOf, he, he'] at h
  exact h

theorem attachment_eq_of_attachmentOf {u u' : NameTree} {x : Ref} {e e' : Entry} (he : u.entries x = some e)
    (he' : u'.entries x = some e') (h : u'.attachmentOf x = u.attachmentOf x) : e'.attachment = e.attachment := by
  rw [NameTree.attachmentOf, NameTree.attachmentOf, he, he'] at h
  exact h

/-- A lookup that resizes without harm adds exactly the missing prefixes. -/
theorem Consistent.addsMissing (h : t.Consistent cityHash) (hok : t.toNameTree.Harmless cityHash (.lookup n)) :
    ∃ t' r, t.lookup cityHash n = some (t', r) ∧ t'.Consistent cityHash ∧ t.AddsMissing n t' r := by
  obtain ⟨t', r, hrun, hcons, htree⟩ := h.lookup hok
  obtain ⟨hsound, hkeep, honly, x, hx, hxn⟩ := h.sound.lookup n hok.lookupRehashes
  have hattached := (h.sound.isFresh.lookup cityHash n).1.attachmentOf_eq
  rw [← htree] at hsound hkeep honly hx hxn hattached
  dsimp only at hsound hkeep honly hx hxn hattached
  refine ⟨t', r, hrun, hcons, ?_, fun {y e} he => ?_, fun {y e'} hnone he' => ?_, fun p hp => ?_⟩
  · obtain ⟨e, he, hname⟩ := entry_of_nameOf hxn
    exact ⟨x, e, hx, he, hname⟩
  · have hy : t.toNameTree.nameOf y = some e.entryPrefix := NameTree.nameOf_eq_some.mpr ⟨e, he, rfl⟩
    obtain ⟨e', he', hname⟩ := entry_of_nameOf (hkeep y _ hy)
    exact ⟨e', he', hname, parent_eq_of_parentOf he he' (parentOf_kept h.sound hsound hkeep hy),
      attachment_eq_of_attachmentOf he he' (congrFun hattached y)⟩
  · have hy : t'.toNameTree.nameOf y = some e'.entryPrefix := NameTree.nameOf_eq_some.mpr ⟨e', he', rfl⟩
    have hold : ∀ z m, t.toNameTree.nameOf z = some m → m ≠ e'.entryPrefix := by
      intro z m hz heq
      subst heq
      have hzy := hsound.nameOf_inj (hkeep z _ hz) hy
      subst hzy
      obtain ⟨e, he, -⟩ := entry_of_nameOf hz
      have hentry : t.entries z = some e := he
      rw [hnone] at hentry
      cases hentry
    refine ⟨(honly y _ hy).resolve_left fun hy' => hold y _ hy' rfl, fun z e he => ?_⟩
    exact hold z _ (NameTree.nameOf_eq_some.mpr ⟨e, he, rfl⟩)
  · obtain ⟨z, hz⟩ := hsound.prefix_stored hxn hp
    obtain ⟨e, he, hname⟩ := entry_of_nameOf hz
    exact ⟨z, e, he, hname⟩

theorem Consistent.erases (h : t.Consistent cityHash) {e : Entry} (he : t.entries r = some e)
    (hok : t.toNameTree.Harmless cityHash (.eraseEntryIfEmpty r)) :
    ∃ t' erased, t.eraseEntryIfEmpty r = some (t', erased) ∧ t'.Consistent cityHash ∧
      t'.toNameTree = (t.toNameTree.eraseEntryIfEmpty r).1 ∧
      NameTree.Erases t.toNameTree t'.toNameTree (t.toNameTree.Removed r) ∧
      (e.isEmpty = false → t' = t ∧ erased = false) := by
  have hentry : t.toNameTree.entries r = some e := he
  have hfuel : t.toNameTree.removable r = e.entryPrefix.length + 1 := by rw [NameTree.removable, hentry]; rfl
  have hre : NameTree.EraseRehashes (e.entryPrefix.length + 1) t.toNameTree r := hfuel ▸ hok
  obtain ⟨t', erased, hrun, hcons, htree⟩ := h.eraseUp (e.entryPrefix.length + 1) he (Nat.lt_succ_self _) hre
  have hstart : t.eraseEntryIfEmpty r = LinkedTree.eraseUp (e.entryPrefix.length + 1) t r := by
    rw [LinkedTree.eraseEntryIfEmpty, he]
    rfl
  have hlists : t'.toNameTree = (t.toNameTree.eraseEntryIfEmpty r).1 := by
    rw [NameTree.eraseEntryIfEmpty, hentry]
    exact congrArg Prod.fst htree
  refine ⟨t', erased, hstart.trans hrun, hcons, hlists, ?_, fun hempty => ?_⟩
  · rw [hlists]
    exact h.sound.eraseEntryIfEmpty_erases r
  · rw [eraseUp_not_empty _ he hempty] at hrun
    cases hrun
    exact ⟨rfl, rfl⟩

/-- The operation resizes without harm. -/
def Harmless (cityHash : Component → UInt64) (t : LinkedTree) (op : NameTree.Op) : Prop :=
  t.toNameTree.Harmless cityHash op

theorem Consistent.attach (h : t.Consistent cityHash) (r : Ref) (f : Entry → Entry)
    (hhash : ∀ e, (f e).hash = e.hash) (hname : ∀ e, (f e).entryPrefix = e.entryPrefix)
    (hparent : ∀ e, (f e).parent = e.parent) (hchildren : ∀ e, (f e).children = e.children) :
    (t.modifyEntry r f).Consistent cityHash where
  linked := h.linked.modifyEntry r f
  sound := by
    rw [toNameTree_modifyEntry]
    exact h.sound.modifyEntry_attached r f hhash hname hparent hchildren
  counted := by
    rw [toNameTree_modifyEntry]
    exact h.counted.modifyEntry r f

theorem minNBuckets_of_eq {u : NameTree} (h : t.toNameTree = u) : t.minNBuckets = u.minNBuckets := by
  rw [← h]
  rfl

theorem Consistent.apply (h : t.Consistent cityHash) {op : NameTree.Op} (hok : t.Harmless cityHash op)
    (happly : t.apply cityHash op = some t') : t'.Consistent cityHash ∧ t'.minNBuckets = t.minNBuckets := by
  cases op with
  | lookup n =>
      obtain ⟨t₁, r, hrun, hcons, htree⟩ := h.lookup hok
      rw [LinkedTree.apply, hrun, Option.map_some] at happly
      cases happly
      refine ⟨hcons, (minNBuckets_of_eq (congrArg Prod.fst htree)).trans ?_⟩
      exact NameTree.lookup_minNBuckets t.toNameTree n
  | eraseEntryIfEmpty r =>
      cases he : t.entries r with
      | none =>
          rw [LinkedTree.apply, LinkedTree.eraseEntryIfEmpty, he] at happly
          simp [LinkedTree.eraseUp, he] at happly
      | some e =>
          obtain ⟨t₁, erased, hrun, hcons, htree, -⟩ := h.erases he hok
          rw [LinkedTree.apply, hrun, Option.map_some] at happly
          cases happly
          exact ⟨hcons, (minNBuckets_of_eq htree).trans (NameTree.eraseEntryIfEmpty_minNBuckets t.toNameTree r)⟩
  | attach r a =>
      cases happly
      refine ⟨h.attach r _ (fun _ => rfl) (fun _ => rfl) (fun _ => rfl) (fun _ => rfl), ?_⟩
      unfold LinkedTree.modifyEntry
      split <;> rfl

/-- In every run whose resizes find the right buckets, the parents, the children and the chains are right
after each operation, a lookup adds exactly the missing prefixes, and an erasure erases exactly the chain of
entries that are empty one after the other; no assertion fails. -/
theorem structure_kept {nBuckets : Nat} (hpos : 0 < nBuckets)
    (hr : Reach (LinkedTree.apply cityHash) (Harmless cityHash) (new nBuckets) t) :
    t.WellFormed nBuckets ∧
    (∀ n, t.Harmless cityHash (.lookup n) → ∃ t' r, t.lookup cityHash n = some (t', r) ∧ t.AddsMissing n t' r) ∧
    ∀ r e, t.entries r = some e → t.Harmless cityHash (.eraseEntryIfEmpty r) →
      ∃ t' erased, t.eraseEntryIfEmpty r = some (t', erased) ∧
        NameTree.Erases t.toNameTree t'.toNameTree (t.toNameTree.Removed r) ∧
        (e.isEmpty = false → t' = t ∧ erased = false) := by
  have hkept : t.Consistent cityHash ∧ t.minNBuckets = nBuckets := by
    refine hr.invariant (I := fun t => t.Consistent cityHash ∧ t.minNBuckets = nBuckets)
      ⟨new_consistent hpos, rfl⟩ fun s op s' h hok happly => ?_
    obtain ⟨hcons, hmin⟩ := h.1.apply hok happly
    exact ⟨hcons, hmin.trans h.2⟩
  obtain ⟨hcons, hmin⟩ := hkept
  refine ⟨hcons.wellFormed hmin, fun n hok => ?_, fun r e he hok => ?_⟩
  · obtain ⟨t', r, hrun, -, hadds⟩ := hcons.addsMissing hok
    exact ⟨t', r, hrun, hadds⟩
  · obtain ⟨t', erased, hrun, -, -, herases, hunchanged⟩ := hcons.erases he hok
    exact ⟨t', erased, hrun, herases, hunchanged⟩

/-- The tree of four buckets after `/A/B` has been looked up: it has been enlarged once. -/
theorem structure_kept_enlarged : ∃ t ret, (new 4).lookup CityHash.ofShort [.ofByte 65, .ofByte 66] = some (t, ret) ∧
    t.nBuckets = 8 ∧ t.WellFormed 4 ∧ ∃ t' erased, t.eraseEntryIfEmpty 2 = some (t', erased) ∧
      NameTree.Erases t.toNameTree t'.toNameTree (t.toNameTree.Removed 2) := by
  have hharmless : (new 4).Harmless CityHash.ofShort (.lookup [.ofByte 65, .ofByte 66]) := by
    rw [Harmless, new_toNameTree]
    exact NameTree.harmless_lookup_of_two_pow (k := 2) rfl (by decide +kernel)
  have hempty : (new 4).Consistent CityHash.ofShort := new_consistent (by decide)
  obtain ⟨t, ret, hrun, -, htree⟩ := hempty.lookup hharmless
  rw [new_toNameTree] at htree
  obtain ⟨htree, -⟩ := Prod.mk.inj htree
  have hreach : Reach (LinkedTree.apply CityHash.ofShort) (Harmless CityHash.ofShort) (new 4) t := by
    refine Reach.start.next (.lookup [.ofByte 65, .ofByte 66]) hharmless ?_
    rw [LinkedTree.apply, hrun, Option.map_some]
  have hbuckets : t.nBuckets = 8 := by
    have heq := congrArg NameTree.nBuckets htree
    exact heq.trans (by decide +kernel)
  obtain ⟨e, he⟩ : ∃ e, t.entries 2 = some e := by
    refine Option.isSome_iff_exists.mp ?_
    rw [show t.entries = _ from congrArg NameTree.entries htree]
    decide +kernel
  have hpow : t.toNameTree.TwoPow := ⟨by rw [htree]; decide +kernel, 3, by decide, hbuckets⟩
  obtain ⟨hformed, -, herase⟩ := structure_kept (by decide) hreach
  obtain ⟨t', erased, hrun', herases, -⟩ := herase 2 e he (hpow.eraseRehashes _)
  exact ⟨t, ret, hrun, hbuckets, hformed, t', erased, hrun', herases⟩

/-! ### An overgrown table -/

section Overgrown

variable {c : Component} {root : Ref}

theorem lookup_one_eq (t : LinkedTree) (c : Component) : t.lookup cityHash [c] =
    (lookupStep cityHash (t, none) []).bind fun acc => (lookupStep cityHash acc [c]).bind some := rfl

/-- Looking up a name of one component where the root is found and the table is not loaded: only the second
iteration may enlarge the table, and it may do harm. -/
theorem Linked.lookup_one (h : t.Linked) (hroot : t.toNameTree.insert cityHash [] = (t.toNameTree, root, false))
    (hroom : t.nItems ≤ t.enlargeThreshold)
    (hfull : ∀ u : LinkedTree, u.toNameTree = t.toNameTree.afterInsert cityHash (some root) [c] →
      u.enlargeThreshold < u.nItems → u.Full) :
    ∃ t', t.lookup cityHash [c] = some (t', some (t.toNameTree.insert cityHash [c]).2.1) ∧ t'.Linked ∧
      t'.toNameTree = (t.toNameTree.afterInsert cityHash (some root) [c]).enlargeIfLoaded := by
  obtain ⟨-, hfirst⟩ := h.afterInsert cityHash none []
  have hsame : t.toNameTree.afterInsert cityHash none [] = t.toNameTree := by simp [NameTree.afterInsert, hroot]
  rw [hsame] at hfirst
  have hlight : ¬ (t.afterInsert cityHash none []).enlargeThreshold < (t.afterInsert cityHash none []).nItems := by
    have hitems : (t.afterInsert cityHash none []).nItems = t.nItems := congrArg NameTree.nItems hfirst
    have hthreshold : (t.afterInsert cityHash none []).enlargeThreshold = t.enlargeThreshold :=
      congrArg NameTree.enlargeThreshold hfirst
    rw [hitems, hthreshold]
    exact Nat.not_lt.mpr hroom
  obtain ⟨t₁, r₁, hrun₁, hlinked₁, htree₁⟩ := h.lookupStep none [] fun hload => absurd hload hlight
  have hlight' : t.toNameTree.enlargeIfLoaded = t.toNameTree := if_neg (Nat.not_lt.mpr hroom)
  rw [NameTree.lookupStep_eq, hsame, hlight', hroot] at htree₁
  obtain ⟨hkept, hret₁⟩ := Prod.mk.inj htree₁
  subst hret₁
  obtain ⟨-, hsecond⟩ := hlinked₁.afterInsert cityHash (some root) [c]
  rw [hkept] at hsecond
  obtain ⟨t', r, hrun, hlinked, htree⟩ := hlinked₁.lookupStep (some root) [c] (hfull _ hsecond)
  rw [NameTree.lookupStep_eq, hkept] at htree
  obtain ⟨hadded, hret⟩ := Prod.mk.inj htree
  subst hret
  refine ⟨t', ?_, hlinked, hadded⟩
  rw [lookup_one_eq, hrun₁, Option.bind_some, hrun]
  rfl

/-- A tree with `/A`, after the numbers below `k` have been looked up. -/
structure Overgrowing (k : Nat) (t : LinkedTree) : Prop where
  reach : Reach (LinkedTree.apply CityHash.ofShort) anyStep (new (2 ^ 32)) t
  consistent : t.Consistent CityHash.ofShort
  growing : NameTree.Growing CityHash.ofShort (.ofByte 65) 0 1 k t.toNameTree

theorem reach_lookup {s : LinkedTree} {ret : Option Ref} (hr : Reach (LinkedTree.apply cityHash) anyStep s t)
    (hrun : t.lookup cityHash n = some (t', ret)) : Reach (LinkedTree.apply cityHash) anyStep s t' := by
  refine hr.next (.lookup n) trivial ?_
  rw [LinkedTree.apply, hrun, Option.map_some]

theorem exists_overgrowing_zero : ∃ t, Overgrowing 0 t := by
  have hpos : 0 < 2 ^ 32 := by decide
  have hnew : (new (2 ^ 32)).Consistent CityHash.ofShort := new_consistent hpos
  have hharmless : (new (2 ^ 32)).toNameTree.Harmless CityHash.ofShort (.lookup [.ofByte 65]) := by
    rw [new_toNameTree]
    exact NameTree.harmless_lookup_of_two_pow (k := 32) rfl (by decide +kernel)
  obtain ⟨t, r, hrun, hcons, htree⟩ := hnew.lookup hharmless
  rw [new_toNameTree] at htree
  obtain ⟨htree, -⟩ := Prod.mk.inj htree
  refine ⟨t, reach_lookup .start hrun, hcons, ?_⟩
  have hsound := hcons.sound
  have hroomy : t.toNameTree.Roomy := by
    rw [htree]
    exact (NameTree.new_roomy (2 ^ 32)).lookup (NameTree.new_sound CityHash.ofShort hpos).isFresh hpos CityHash.ofShort
      [.ofByte 65]
  rw [htree] at hsound hroomy ⊢
  exact NameTree.growing_zero hsound hroomy (by decide +kernel) (by decide +kernel) (by decide +kernel)
    (by decide +kernel) (by decide +kernel)

theorem exists_overgrowing : ∀ k, 2 + k ≤ 2 ^ 31 → ∃ t, Overgrowing k t := by
  intro k
  induction k with
  | zero => exact fun _ => exists_overgrowing_zero
  | succ k ih =>
      intro hk
      obtain ⟨t, h⟩ := ih (by omega)
      have hnext := h.growing.next (by omega)
      have hharmless : t.toNameTree.Harmless CityHash.ofShort (.lookup [.ofNumber k]) :=
        NameTree.harmless_lookup_of_two_pow h.growing.nBuckets_eq hnext.nBuckets_eq.le
      obtain ⟨t', r, hrun, hcons, htree⟩ := h.consistent.lookup hharmless
      refine ⟨t', reach_lookup h.reach hrun, hcons, ?_⟩
      rw [← htree] at hnext
      exact hnext

/-- One more number enlarges the table. -/
theorem Overgrowing.enlarged {k : Nat} (h : Overgrowing k t) (hk : 2 + k = 2 ^ 31) :
    ∃ (t₁ : LinkedTree) (v : NameTree),
      Reach (LinkedTree.apply CityHash.ofShort) anyStep (new (2 ^ 32)) t₁ ∧ t₁.Linked ∧
      t₁.toNameTree = v.resize (2 ^ 33) ∧ v.Sound CityHash.ofShort ∧ v.nItems < 2 ^ 32 ∧ v.nameOf 0 = some [] ∧
      v.nameOf 1 = some [.ofByte 65] := by
  have hsound := h.consistent.sound
  have hroot : t.toNameTree.insert CityHash.ofShort [] = (t.toNameTree, 0, false) := by
    rcases hsound.insert_cases [] with ⟨r, hr, heq⟩ | ⟨hno, -⟩
    · rw [heq, hsound.nameOf_inj hr h.growing.root]
    · exact absurd h.growing.root (hno 0)
  have hparent : t.toNameTree.IsParentFor (some 0) [.ofNumber k] := Or.inr ⟨by simp, 0, rfl, h.growing.root⟩
  obtain ⟨t₁, hrun, hlinked, htree⟩ :=
    h.consistent.linked.lookup_one hroot h.growing.roomy.le_enlarge fun u hu _ => by
      have hsound' := (hsound.afterInsert hparent).1
      have hcounted' := hsound.counted_afterInsert h.consistent.counted hparent
      rw [← hu] at hsound' hcounted'
      exact full_of_counted hsound' hcounted'
  have hafter : t.toNameTree.afterInsert CityHash.ofShort (some 0) [.ofNumber k] =
      t.toNameTree.added CityHash.ofShort (some 0) [.ofNumber k] := by
    rcases hsound.afterInsert_cases (some 0) [.ofNumber k] with ⟨r, hr, -⟩ | ⟨-, hafter, -⟩
    · exact absurd hr (h.growing.unused k le_rfl (by omega) r)
    · exact hafter
  rw [hafter, ← h.growing.lookup_eq (by omega), h.growing.overgrown hk] at htree
  obtain ⟨hadded, hroot', hstored⟩ := h.growing.added (by omega)
  have hitems : (t.toNameTree.added CityHash.ofShort (some 0) [.ofNumber k]).nItems < 2 ^ 32 := by
    rw [NameTree.added_nItems, h.growing.nItems_eq, hk]
    decide
  exact ⟨t₁, _, reach_lookup h.reach hrun, hlinked, htree, hadded, hitems, hroot', hstored⟩

/-- Looking up a name whose bucket is in the upper half of the enlarged table makes a new entry. -/
theorem Linked.lookup_overgrown {v : NameTree} (h : t.Linked) (htree : t.toNameTree = v.resize (2 ^ 33))
    (hsound : v.Sound cityHash) (hitems : v.nItems < 2 ^ 32) (hroot : v.nameOf root = some [])
    (hbit : 2 ^ 32 ≤ (computeHash cityHash [c]).toNat % 2 ^ 33) :
    ∃ t', t.lookup cityHash [c] = some (t', some v.nextRef) := by
  obtain ⟨hinsert, hafter⟩ := v.insert_overgrown hbit
  have hthreshold := v.resize_enlargeThreshold
  have hfound : t.toNameTree.insert cityHash [] = (t.toNameTree, root, false) := by
    rw [htree]
    exact hsound.insert_root_resized hroot _
  have hcount : t.nItems = v.nItems := congrArg NameTree.nItems htree
  have hlimit : t.enlargeThreshold = 2 ^ 32 := (congrArg NameTree.enlargeThreshold htree).trans hthreshold
  obtain ⟨t', hrun, -⟩ := h.lookup_one (c := c) hfound (by omega) fun u hu hload => by
    -- the table has room for twice as many entries
    rw [htree, hafter] at hu
    have hcount' : u.nItems = v.nItems + 1 := (congrArg NameTree.nItems hu).trans (NameTree.added_nItems _ _ _)
    have hlimit' : u.enlargeThreshold = 2 ^ 32 :=
      (congrArg NameTree.enlargeThreshold hu).trans ((NameTree.added_enlargeThreshold _ _ _).trans hthreshold)
    omega
  rw [htree, hinsert] at hrun
  exact ⟨t', hrun⟩

/-- A lookup of `/A` then adds an entry, although no prefix is missing. -/
theorem Overgrowing.added_again {k : Nat} (h : Overgrowing k t) (hk : 2 + k = 2 ^ 31) :
    ∃ t₁ t₂ ret, Reach (LinkedTree.apply CityHash.ofShort) anyStep (new (2 ^ 32)) t₁ ∧
      t₁.lookup CityHash.ofShort [.ofByte 65] = some (t₂, ret) ∧ ¬ t₁.AddsMissing [.ofByte 65] t₂ ret := by
  obtain ⟨t₁, v, hreach, hlinked, htree, hsound, hitems, hroot, hstored⟩ := h.enlarged hk
  have hbit : 2 ^ 32 ≤ (computeHash CityHash.ofShort [.ofByte 65]).toNat % 2 ^ 33 := by decide +kernel
  obtain ⟨t₂, hrun⟩ := hlinked.lookup_overgrown htree hsound hitems hroot hbit
  refine ⟨t₁, t₂, some v.nextRef, hreach, hrun, fun hm => ?_⟩
  obtain ⟨x, e, hx, he, hname⟩ := hm.returned
  cases hx
  obtain ⟨old, hold, hname'⟩ := NameTree.nameOf_eq_some.mp hstored
  have hentries : t₁.entries = v.entries := congrArg NameTree.entries htree
  have hnone : t₁.entries v.nextRef = none := by
    rw [hentries]
    cases hv : v.entries v.nextRef with
    | none => rfl
    | some e' => exact absurd (hsound.fresh (NameTree.nameOf_eq_some.mpr ⟨e', hv, rfl⟩)) (lt_irrefl _)
  rw [← hentries] at hold
  exact (hm.added hnone he).2 1 old hold (hname'.trans hname.symm)

/-- In a table that has outgrown `2 ^ 32` buckets a lookup adds a name that is stored. -/
theorem stored_name_added_again :
    ∃ t t' ret, Reach (LinkedTree.apply CityHash.ofShort) anyStep (new (2 ^ 32)) t ∧
      t.lookup CityHash.ofShort [.ofByte 65] = some (t', ret) ∧ ¬ t.AddsMissing [.ofByte 65] t' ret := by
  obtain ⟨t, h⟩ := exists_overgrowing (2 ^ 31 - 2) (by decide)
  exact h.added_again (by decide)

end Overgrown

end NfdPitless.LinkedTree
