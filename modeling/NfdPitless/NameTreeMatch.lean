import NfdPitless.NameTreeInvariant

/-! The two longest prefix matches of the name tree. The overload by entry walks the parents and is
right in every tree. The overload by name probes the bucket of the hash of every prefix of the name
and takes the first entry of that hash whose name is any prefix of it; because the hash of a name is
an exclusive or, two prefixes of one name can have one hash, and the probe then takes the shorter. -/

namespace NfdPitless.NameTree

variable {cityHash : Component → UInt64} {t : NameTree} {n : Name} {sel : EntrySelector}

/-- Entry `r` is stored under the first `j` components of `n` and is selected. -/
def IsCandidate (t : NameTree) (n : Name) (sel : EntrySelector) (j : Nat) (r : Ref) : Prop :=
  j ≤ n.length ∧ ∃ e, t.entries r = some e ∧ e.entryPrefix = n.getPrefix j ∧ sel e = true

/-- The selected entry with the longest prefix of `n`; none if no prefix of `n` has a selected
entry. -/
def IsLongestPrefixMatch (t : NameTree) (n : Name) (sel : EntrySelector) : Option Ref → Prop
  | none => ∀ j r, ¬ t.IsCandidate n sel j r
  | some r => ∃ j, t.IsCandidate n sel j r ∧ ∀ j' r', t.IsCandidate n sel j' r' → j' ≤ j

/-- The hash of the first `i` components. -/
def prefixHash (cityHash : Component → UInt64) (n : Name) (i : Nat) : UInt64 :=
  computeHash cityHash (n.getPrefix i)

theorem IsCandidate.nameOf {j : Nat} {r : Ref} (h : t.IsCandidate n sel j r) :
    t.nameOf r = some (n.getPrefix j) := by
  obtain ⟨-, e, he, hname, -⟩ := h
  exact nameOf_eq_some.mpr ⟨e, he, hname⟩

theorem getPrefix_length {j : Nat} (hj : j ≤ n.length) : (n.getPrefix j).length = j := by
  simp [Name.getPrefix, hj]

theorem getPrefix_inj {j j' : Nat} (hj : j ≤ n.length) (hj' : j' ≤ n.length)
    (h : n.getPrefix j = n.getPrefix j') : j = j' := by
  rw [← getPrefix_length hj, h, getPrefix_length hj']

/-- An entry is a candidate for one length only. -/
theorem IsCandidate.length_unique {j j' : Nat} {r : Ref} (h : t.IsCandidate n sel j r)
    (h' : t.IsCandidate n sel j' r) : j = j' :=
  getPrefix_inj h.1 h'.1 (Option.some.inj (h.nameOf.symm.trans h'.nameOf))

theorem getPrefix_prefix_iff {j j' : Nat} (hj : j ≤ n.length) (hj' : j' ≤ n.length) :
    n.getPrefix j <+: n.getPrefix j' ↔ j ≤ j' := by
  constructor
  · intro h
    simpa only [getPrefix_length hj, getPrefix_length hj'] using h.length_le
  · intro h
    exact List.prefix_take_iff.mpr ⟨List.take_prefix j n, (getPrefix_length hj).le.trans h⟩

/-- A prefix of a name is made of its first components. -/
theorem eq_getPrefix_of_prefix {p : Name} (h : p <+: n) : p = n.getPrefix p.length :=
  List.prefix_iff_eq_take.mp h

/-- There is at most one longest prefix match. -/
theorem Sound.longestPrefixMatch_unique (h : t.Sound cityHash) {o o' : Option Ref}
    (ho : t.IsLongestPrefixMatch n sel o) (ho' : t.IsLongestPrefixMatch n sel o') : o = o' := by
  cases o with
  | none =>
      cases o' with
      | none => rfl
      | some r' =>
          obtain ⟨j, hj, -⟩ := ho'
          exact absurd hj (ho j r')
  | some r =>
      obtain ⟨j, hj, hmax⟩ := ho
      cases o' with
      | none => exact absurd hj (ho' j r)
      | some r' =>
          obtain ⟨j', hj', hmax'⟩ := ho'
          have heq : j = j' := le_antisymm (hmax' j r hj) (hmax j' r' hj')
          subst heq
          rw [h.nameOf_inj hj.nameOf hj'.nameOf]

/-- The chain of parents of the entry of a name stores all prefixes of the name, the longest first. -/
theorem Sound.parentChain_names (h : t.Sound cityHash) :
    ∀ {n : Name} {r : Ref}, t.nameOf r = some n →
      (t.parentChain (n.length + 1) r).map t.nameOf =
        (List.range (n.length + 1)).reverse.map fun j => some (n.getPrefix j) := by
  intro n
  induction hlen : n.length generalizing n with
  | zero =>
      intro r hr
      obtain rfl := List.length_eq_zero_iff.mp hlen
      obtain ⟨e, he, hname⟩ := nameOf_eq_some.mp hr
      have hparent : e.parent = none := by simpa [parentOf, he] using h.parent_root hr
      simp [parentChain, he, hparent, hr, Name.getPrefix]
  | succ k ih =>
      intro r hr
      obtain ⟨e, he, hname⟩ := nameOf_eq_some.mp hr
      have hne : n ≠ [] := by
        rintro rfl
        simp at hlen
      obtain ⟨p, hp, hpn⟩ := h.parent_cons hr hne
      have hparent : e.parent = some p := by simpa [parentOf, he] using hp
      have hrest := ih (n := n.dropLast) (by simp [hlen]) hpn
      rw [parentChain, he]
      simp only [hparent, List.map_cons, hrest, hr]
      rw [List.range_succ (n := k + 1), List.reverse_append, List.reverse_singleton,
        List.singleton_append, List.map_cons]
      refine congrArg₂ List.cons ?_ ?_
      · rw [Name.getPrefix, ← hlen, List.take_length]
      · refine List.map_congr_left fun j hj => ?_
        have hj' : j ≤ k := by simpa [Nat.lt_succ_iff] using hj
        rw [Name.getPrefix, Name.getPrefix, List.dropLast_eq_take, List.take_take, hlen]
        congr 2
        omega

theorem Sound.ancestorsOrSelf_names (h : t.Sound cityHash) {r : Ref} (hr : t.nameOf r = some n) :
    (t.ancestorsOrSelf r).map t.nameOf =
      (List.range (n.length + 1)).reverse.map fun j => some (n.getPrefix j) := by
  obtain ⟨e, he, rfl⟩ := nameOf_eq_some.mp hr
  have hfuel : ((t.entries r).elim 0 fun e => e.entryPrefix.length) + 1 = e.entryPrefix.length + 1 := by
    rw [he]
    rfl
  rw [ancestorsOrSelf, hfuel]
  exact h.parentChain_names hr

theorem Sound.mem_ancestorsOrSelf (h : t.Sound cityHash) {r x : Ref} (hr : t.nameOf r = some n) :
    x ∈ t.ancestorsOrSelf r ↔ ∃ j, j ≤ n.length ∧ t.nameOf x = some (n.getPrefix j) := by
  have hnames := h.ancestorsOrSelf_names hr
  constructor
  · intro hx
    have hmem : t.nameOf x ∈ (t.ancestorsOrSelf r).map t.nameOf := List.mem_map_of_mem hx
    rw [hnames] at hmem
    simp only [List.mem_map, List.mem_reverse, List.mem_range, Nat.lt_succ_iff] at hmem
    obtain ⟨j, hj, hname⟩ := hmem
    exact ⟨j, hj, hname.symm⟩
  · rintro ⟨j, hj, hname⟩
    have hmem : some (n.getPrefix j) ∈ (t.ancestorsOrSelf r).map t.nameOf := by
      rw [hnames]
      exact List.mem_map.mpr ⟨j, by simpa [Nat.lt_succ_iff] using hj, rfl⟩
    obtain ⟨y, hy, hyname⟩ := List.mem_map.mp hmem
    rwa [h.nameOf_inj hname hyname]

/-- The chain goes from longer to shorter names. -/
theorem Sound.ancestorsOrSelf_pairwise (h : t.Sound cityHash) {r : Ref} (hr : t.nameOf r = some n) :
    (t.ancestorsOrSelf r).Pairwise fun x y =>
      ∃ j j', j' < j ∧ j ≤ n.length ∧ t.nameOf x = some (n.getPrefix j) ∧
        t.nameOf y = some (n.getPrefix j') := by
  have hdesc : ((List.range (n.length + 1)).reverse.map fun j => some (n.getPrefix j)).Pairwise
      fun a b => ∃ j j', j' < j ∧ j ≤ n.length ∧ a = some (n.getPrefix j) ∧ b = some (n.getPrefix j') := by
    rw [List.pairwise_map, List.pairwise_reverse]
    have hlt : (List.range (n.length + 1)).Pairwise fun a b => a < b ∧ b ≤ n.length := by
      refine (List.pairwise_lt_range (n := n.length + 1)).imp_of_mem ?_
      intro a b _ hb hab
      exact ⟨hab, Nat.lt_succ_iff.mp (List.mem_range.mp hb)⟩
    exact hlt.imp fun {a b} hab => ⟨b, a, hab.1, hab.2, rfl, rfl⟩
  rw [← h.ancestorsOrSelf_names hr, List.pairwise_map] at hdesc
  exact hdesc

theorem Sound.ancestorsOrSelf_nodup (h : t.Sound cityHash) {r : Ref} (hr : t.nameOf r = some n) :
    (t.ancestorsOrSelf r).Nodup := by
  refine (h.ancestorsOrSelf_pairwise hr).imp ?_
  rintro x y ⟨j, j', hlt, hj, hx, hy⟩ rfl
  rw [hx] at hy
  have := getPrefix_inj hj (by omega) (Option.some.inj hy)
  omega

theorem selects_eq_true {r : Ref} :
    t.selects sel r = true ↔ ∃ e, t.entries r = some e ∧ sel e = true := by
  simp [selects, Option.any_eq_true]

/-- Walking the parents from the entry of a name finds its longest prefix match. -/
theorem Sound.findLongestPrefixMatchFrom (h : t.Sound cityHash) {r : Ref} (hr : t.nameOf r = some n)
    (sel : EntrySelector) : t.IsLongestPrefixMatch n sel (t.findLongestPrefixMatchFrom r sel) := by
  rw [NameTree.findLongestPrefixMatchFrom]
  cases hfind : (t.ancestorsOrSelf r).find? (t.selects sel) with
  | none =>
      intro j x hx
      have hmem := (h.mem_ancestorsOrSelf hr).mpr ⟨j, hx.1, hx.nameOf⟩
      obtain ⟨-, e, he, -, hsel⟩ := hx
      exact List.find?_eq_none.mp hfind x hmem (selects_eq_true.mpr ⟨e, he, hsel⟩)
  | some x =>
      obtain ⟨j, hj, hxn⟩ := (h.mem_ancestorsOrSelf hr).mp (List.mem_of_find?_eq_some hfind)
      obtain ⟨e, he, hsel⟩ := selects_eq_true.mp (List.find?_some hfind)
      have hname : e.entryPrefix = n.getPrefix j := by simpa [nameOf, he] using hxn
      refine ⟨j, ⟨hj, e, he, hname, hsel⟩, ?_⟩
      intro j' y hy
      have hmem := (h.mem_ancestorsOrSelf hr).mpr ⟨j', hy.1, hy.nameOf⟩
      have hysel : t.selects sel y = true := by
        obtain ⟨-, e', he', -, hsel'⟩ := hy
        exact selects_eq_true.mpr ⟨e', he', hsel'⟩
      rcases Lists.find?_pairwise (h.ancestorsOrSelf_pairwise hr) hfind hmem hysel with rfl | hxy
      · exact le_of_eq (getPrefix_inj hy.1 hj (Option.some.inj (hy.nameOf.symm.trans hxn)))
      · obtain ⟨i, i', hlt, hi, hxi, hyi⟩ := hxy
        have hij : j = i := getPrefix_inj hj hi (Option.some.inj (hxn.symm.trans hxi))
        have hij' : j' = i' := getPrefix_inj hy.1 (by omega) (Option.some.inj (hy.nameOf.symm.trans hyi))
        omega

/-! ### The overload by name -/

theorem computeHashSet_eq (n : Name) :
    computeHashSet cityHash n = (List.range (n.length + 1)).map (prefixHash cityHash n) := by
  refine List.ext_getElem (by simp [computeHashSet]) fun i hi hi' => ?_
  simp [computeHashSet, prefixHash, computeHash, List.getElem_scanl, Name.getPrefix]

/-- What a probe of one hash looks for. -/
theorem Sound.isCandidate_of_probe (h : t.Sound cityHash) {hashValue : UInt64} {r : Ref}
    (hr : (t.entries r).any (fun e =>
      hashValue == e.hash && Name.isPrefixOf e.entryPrefix n && sel e) = true) :
    ∃ j, t.IsCandidate n sel j r ∧ prefixHash cityHash n j = hashValue := by
  simp only [Option.any_eq_true, Bool.and_eq_true, beq_iff_eq, Name.isPrefixOf_iff] at hr
  obtain ⟨e, he, ⟨hhash, hpre⟩, hsel⟩ := hr
  have hname := eq_getPrefix_of_prefix hpre
  refine ⟨e.entryPrefix.length, ⟨hpre.length_le, e, he, hname, hsel⟩, ?_⟩
  rw [prefixHash, ← hname, ← h.hash_eq he, hhash]

theorem Sound.probe_of_isCandidate (h : t.Sound cityHash) {j : Nat} {r : Ref} (hr : t.IsCandidate n sel j r) :
    r ∈ t.buckets ((prefixHash cityHash n j).toNat % t.nBuckets) ∧
    (t.entries r).any (fun e =>
      prefixHash cityHash n j == e.hash && Name.isPrefixOf e.entryPrefix n && sel e) = true := by
  refine ⟨h.mem_bucket.mpr ⟨_, hr.nameOf, rfl⟩, ?_⟩
  obtain ⟨-, e, he, hname, hsel⟩ := hr
  have hpre : e.entryPrefix <+: n := hname ▸ List.take_prefix j n
  simp [he, hsel, h.hash_eq he, hname, prefixHash, List.take_prefix, Name.getPrefix]

/-- A probe fails if and only if no candidate has its hash. -/
theorem Sound.probe_eq_none (h : t.Sound cityHash) {hashValue : UInt64} :
    t.probe n sel hashValue = none ↔
      ∀ j r, t.IsCandidate n sel j r → prefixHash cityHash n j ≠ hashValue := by
  rw [probe, List.find?_eq_none]
  constructor
  · rintro hnone j r hr rfl
    obtain ⟨hmem, hany⟩ := h.probe_of_isCandidate hr
    exact hnone r hmem hany
  · intro hnone r _ hany
    obtain ⟨j, hj, hhash⟩ := h.isCandidate_of_probe hany
    exact hnone j r hj hhash

/-- A probe returns the shortest candidate of its hash. -/
theorem Sound.probe_eq_some (h : t.Sound cityHash) {hashValue : UInt64} {r : Ref}
    (hprobe : t.probe n sel hashValue = some r) :
    ∃ j, t.IsCandidate n sel j r ∧ prefixHash cityHash n j = hashValue ∧
      ∀ j' r', t.IsCandidate n sel j' r' → prefixHash cityHash n j' = hashValue → j ≤ j' := by
  rw [probe] at hprobe
  have hfound := List.find?_some hprobe
  obtain ⟨j, hj, hhash⟩ := h.isCandidate_of_probe hfound
  refine ⟨j, hj, hhash, ?_⟩
  rintro j' r' hj' rfl
  obtain ⟨hmem, hany⟩ := h.probe_of_isCandidate hj'
  rcases Lists.find?_pairwise (h.chained _) hprobe hmem hany with rfl | hchain
  · exact le_of_eq (hj.length_unique hj')
  · by_contra hlt
    exact hchain _ _ hj.nameOf hj'.nameOf hhash
      ((getPrefix_prefix_iff hj'.1 hj.1).mpr (by omega))

theorem findLongestPrefixMatch_eq (t : NameTree) (n : Name) (sel : EntrySelector) :
    t.findLongestPrefixMatch cityHash n sel =
      (List.range (n.length + 1)).reverse.findSome? fun i => t.probe n sel (prefixHash cityHash n i) := by
  rw [findLongestPrefixMatch, computeHashSet_eq, ← List.map_reverse, List.findSome?_map]
  rfl

/-- The overload by name finds nothing if and only if there is no candidate. -/
theorem Sound.findLongestPrefixMatch_eq_none (h : t.Sound cityHash) :
    t.findLongestPrefixMatch cityHash n sel = none ↔ ∀ j r, ¬ t.IsCandidate n sel j r := by
  rw [findLongestPrefixMatch_eq, List.findSome?_eq_none_iff]
  constructor
  · intro hnone j r hr
    have hj := hnone j (by simpa [Nat.lt_succ_iff] using hr.1)
    exact h.probe_eq_none.mp hj j r hr rfl
  · intro hno i _
    exact h.probe_eq_none.mpr fun j r hr => absurd hr (hno j r)

/-- What the overload by name returns: the shortest candidate that has the hash of the longest prefix
of `n` that hits any. -/
theorem Sound.findLongestPrefixMatch_eq_some (h : t.Sound cityHash) {r : Ref}
    (hfind : t.findLongestPrefixMatch cityHash n sel = some r) :
    ∃ i j, i ≤ n.length ∧ t.IsCandidate n sel j r ∧ prefixHash cityHash n i = prefixHash cityHash n j ∧
      (∀ j' r', t.IsCandidate n sel j' r' → prefixHash cityHash n j' = prefixHash cityHash n i → j ≤ j') ∧
      ∀ i', i < i' → i' ≤ n.length → ∀ k x, t.IsCandidate n sel k x →
        prefixHash cityHash n k ≠ prefixHash cityHash n i' := by
  rw [findLongestPrefixMatch_eq, Lists.findSome?_reverse_range] at hfind
  obtain ⟨i, hi, hprobe, hlast⟩ := hfind
  obtain ⟨j, hj, hhash, hshort⟩ := h.probe_eq_some hprobe
  refine ⟨i, j, Nat.lt_succ_iff.mp hi, hj, hhash.symm, hshort, ?_⟩
  intro i' hlt hi' k x hk
  exact h.probe_eq_none.mp (hlast i' hlt (Nat.lt_succ_iff.mpr hi')) k x hk

/-- A collision hides the candidate of length `j`: a shorter candidate has the hash of some prefix of
`n`, and no longer prefix of `n` has the hash of any candidate. -/
def Shadowed (cityHash : Component → UInt64) (t : NameTree) (n : Name) (sel : EntrySelector) (j : Nat) :
    Prop :=
  ∃ i j' r', j' < j ∧ t.IsCandidate n sel j' r' ∧ i ≤ n.length ∧
    prefixHash cityHash n i = prefixHash cityHash n j' ∧
    ∀ i', i < i' → i' ≤ n.length → ∀ k x, t.IsCandidate n sel k x →
      prefixHash cityHash n k ≠ prefixHash cityHash n i'

/-- No candidate is hidden by a collision. -/
def ProbesReachLongest (cityHash : Component → UInt64) (t : NameTree) (n : Name) (sel : EntrySelector) :
    Prop :=
  ∀ j r, t.IsCandidate n sel j r → ¬ Shadowed cityHash t n sel j

/-- The overload by name reaches at least length `j` exactly when the candidate of this length is not
hidden. -/
theorem Sound.findLongestPrefixMatch_reaches_iff (h : t.Sound cityHash) {j : Nat} {r : Ref}
    (hr : t.IsCandidate n sel j r) :
    (∃ x j₀, t.findLongestPrefixMatch cityHash n sel = some x ∧ t.IsCandidate n sel j₀ x ∧ j ≤ j₀) ↔
      ¬ Shadowed cityHash t n sel j := by
  cases hfind : t.findLongestPrefixMatch cityHash n sel with
  | none => exact absurd hr (h.findLongestPrefixMatch_eq_none.mp hfind j r)
  | some x =>
      obtain ⟨i, j₁, hi, hj₁, hhash, hshort, hlast⟩ := h.findLongestPrefixMatch_eq_some hfind
      constructor
      · rintro ⟨y, j₀, hy, hj₀, hle⟩ ⟨i', j', r', hlt, hj', hi', hcol, hlast'⟩
        cases hy
        have heq : j₀ = j₁ := hj₀.length_unique hj₁
        subst heq
        -- both `i` and `i'` are the longest prefix that hits
        have hle : i' ≤ i := by
          by_contra hgt
          exact hlast i' (by omega) hi' j' r' hj' hcol.symm
        have hge : i ≤ i' := by
          by_contra hgt
          exact hlast' i (by omega) hi j₀ x hj₁ hhash.symm
        have hmin := hshort j' r' hj' (by rw [← hcol, le_antisymm hle hge])
        omega
      · intro hnot
        refine ⟨x, j₁, rfl, hj₁, ?_⟩
        by_contra hlt
        exact hnot ⟨i, j₁, x, by omega, hj₁, hi, hhash, hlast⟩

/-- The overload by name is right exactly when no candidate is hidden. -/
theorem Sound.findLongestPrefixMatch_iff (h : t.Sound cityHash) :
    t.IsLongestPrefixMatch n sel (t.findLongestPrefixMatch cityHash n sel) ↔
      ProbesReachLongest cityHash t n sel := by
  cases hfind : t.findLongestPrefixMatch cityHash n sel with
  | none =>
      have hno := h.findLongestPrefixMatch_eq_none.mp hfind
      exact iff_of_true hno fun j r hj => absurd hj (hno j r)
  | some x =>
      constructor
      · rintro ⟨j₀, hj₀, hmax⟩ j r hr
        exact (h.findLongestPrefixMatch_reaches_iff hr).mp ⟨x, j₀, hfind, hj₀, hmax j r hr⟩
      · intro hreach
        obtain ⟨i, j₁, hi, hj₁, -⟩ := h.findLongestPrefixMatch_eq_some hfind
        refine ⟨j₁, hj₁, fun j r hr => ?_⟩
        obtain ⟨y, j₀, hy, hj₀, hle⟩ := (h.findLongestPrefixMatch_reaches_iff hr).mpr (hreach j r hr)
        rw [hfind] at hy
        cases hy
        have heq : j₀ = j₁ := hj₀.length_unique hj₁
        omega

/-- Both promises of the longest prefix match: the overload by name returns the selected entry with
the longest prefix, and it agrees with the overload by entry where the name has one. -/
def LongestPrefixMatchAgrees (cityHash : Component → UInt64) (t : NameTree) (n : Name)
    (sel : EntrySelector) : Prop :=
  t.IsLongestPrefixMatch n sel (t.findLongestPrefixMatch cityHash n sel) ∧
  ∀ r, t.nameOf r = some n → t.findLongestPrefixMatch cityHash n sel = t.findLongestPrefixMatchFrom r sel

theorem Sound.longestPrefixMatchAgrees_iff (h : t.Sound cityHash) :
    LongestPrefixMatchAgrees cityHash t n sel ↔ ProbesReachLongest cityHash t n sel := by
  rw [← h.findLongestPrefixMatch_iff, LongestPrefixMatchAgrees]
  refine and_iff_left_of_imp fun hlong r hr => ?_
  exact h.longestPrefixMatch_unique hlong (h.findLongestPrefixMatchFrom hr sel)

def hasFibEntry : EntrySelector := fun e => e.fibEntry.isSome

def hasStrategyChoiceEntry : EntrySelector := fun e => e.strategyChoiceEntry.isSome

def hasMeasurementsEntry (pred : Ref → Bool) : EntrySelector := fun e => e.measurementsEntry.any pred

/-- `Fib::findLongestPrefixMatch` by name; `none` is the FIB's empty entry. -/
def fibMatch (cityHash : Component → UInt64) (t : NameTree) (n : Name) : Option Ref :=
  (t.findLongestPrefixMatch cityHash n hasFibEntry).bind fun r => (t.entries r).bind Entry.fibEntry

/-- `Fib::findLongestPrefixMatch` by name tree entry, which the overload by PIT entry calls. -/
def fibMatchFrom (t : NameTree) (nameTreeEntry : Ref) : Option Ref :=
  match (t.entries nameTreeEntry).bind Entry.fibEntry with
  | some entry => some entry
  | none =>
      (t.findLongestPrefixMatchFrom nameTreeEntry hasFibEntry).bind fun r =>
        (t.entries r).bind Entry.fibEntry

/-- `StrategyChoice::findEffectiveStrategy` by name; `none` is the failed assertion. -/
def findEffectiveStrategy (cityHash : Component → UInt64) (t : NameTree) (n : Name) : Option Ref :=
  (t.findLongestPrefixMatch cityHash n hasStrategyChoiceEntry).bind fun r =>
    (t.entries r).bind Entry.strategyChoiceEntry

def findEffectiveStrategyFrom (t : NameTree) (nte : Ref) : Option Ref :=
  match (t.entries nte).bind Entry.strategyChoiceEntry with
  | some entry => some entry
  | none =>
      (t.findLongestPrefixMatchFrom nte hasStrategyChoiceEntry).bind fun r =>
        (t.entries r).bind Entry.strategyChoiceEntry

/-- `Measurements::findLongestPrefixMatch` by name. -/
def measurementsMatch (cityHash : Component → UInt64) (t : NameTree) (n : Name) (pred : Ref → Bool) :
    Option Ref :=
  (t.findLongestPrefixMatch cityHash n (hasMeasurementsEntry pred)).bind fun r =>
    (t.entries r).bind Entry.measurementsEntry

def measurementsMatchFrom (t : NameTree) (nte : Ref) (pred : Ref → Bool) : Option Ref :=
  (t.findLongestPrefixMatchFrom nte (hasMeasurementsEntry pred)).bind fun r =>
    (t.entries r).bind Entry.measurementsEntry

/-- The walk starts at the entry itself. -/
theorem Sound.findLongestPrefixMatchFrom_self (h : t.Sound cityHash) {r : Ref} {e : Entry}
    (he : t.entries r = some e) (hsel : sel e = true) : t.findLongestPrefixMatchFrom r sel = some r := by
  have hr : t.nameOf r = some e.entryPrefix := nameOf_eq_some.mpr ⟨e, he, rfl⟩
  have hself : t.IsLongestPrefixMatch e.entryPrefix sel (some r) :=
    ⟨e.entryPrefix.length, ⟨le_rfl, e, he, (List.take_length).symm, hsel⟩, fun j' r' hj' => hj'.1⟩
  exact h.longestPrefixMatch_unique (h.findLongestPrefixMatchFrom hr sel) hself

/-- The shortcut for an entry that has the attachment itself does not change the result. -/
theorem Sound.matchFrom_shortcut (h : t.Sound cityHash) (attached : Entry → Option Ref) (r : Ref) :
    (match (t.entries r).bind attached with
      | some entry => some entry
      | none => (t.findLongestPrefixMatchFrom r fun e => (attached e).isSome).bind fun x =>
          (t.entries x).bind attached) =
      (t.findLongestPrefixMatchFrom r fun e => (attached e).isSome).bind fun x =>
        (t.entries x).bind attached := by
  cases hown : (t.entries r).bind attached with
  | none => rfl
  | some entry =>
      obtain ⟨e, he, hatt⟩ := Option.bind_eq_some_iff.mp hown
      rw [h.findLongestPrefixMatchFrom_self he (by simp [hatt])]
      simp [hown]

/-- Where the two overloads agree, so do the lookups of the tables by name and by entry. -/
theorem Sound.fibMatch_eq (h : t.Sound cityHash) {r : Ref} (hr : t.nameOf r = some n)
    (hagree : LongestPrefixMatchAgrees cityHash t n hasFibEntry) : t.fibMatch cityHash n = t.fibMatchFrom r := by
  rw [fibMatch, fibMatchFrom, hagree.2 r hr]
  exact (h.matchFrom_shortcut Entry.fibEntry r).symm

theorem Sound.findEffectiveStrategy_eq (h : t.Sound cityHash) {r : Ref} (hr : t.nameOf r = some n)
    (hagree : LongestPrefixMatchAgrees cityHash t n hasStrategyChoiceEntry) :
    t.findEffectiveStrategy cityHash n = t.findEffectiveStrategyFrom r := by
  rw [findEffectiveStrategy, findEffectiveStrategyFrom, hagree.2 r hr]
  exact (h.matchFrom_shortcut Entry.strategyChoiceEntry r).symm

theorem measurementsMatch_eq {r : Ref} {pred : Ref → Bool} (hr : t.nameOf r = some n)
    (hagree : LongestPrefixMatchAgrees cityHash t n (hasMeasurementsEntry pred)) :
    t.measurementsMatch cityHash n pred = t.measurementsMatchFrom r pred := by
  rw [measurementsMatch, measurementsMatchFrom, hagree.2 r hr]

/-- In every tree reached from a power-of-two number of buckets, the longest prefix match by name is
right and agrees with the one by entry exactly when no collision hides a candidate; then the FIB, the
StrategyChoice table and the Measurements table find the same by name and by entry. -/
theorem longestPrefixMatch_correct_iff (cityHash : Component → UInt64) (k : Nat) (hk : k ≤ 32)
    (t : NameTree) (hr : Reach (NameTree.apply cityHash) (Bounded cityHash) (new (2 ^ k)) t) :
    (∀ n sel, LongestPrefixMatchAgrees cityHash t n sel ↔ ProbesReachLongest cityHash t n sel) ∧
    ∀ r n, t.nameOf r = some n →
      (ProbesReachLongest cityHash t n hasFibEntry → t.fibMatch cityHash n = t.fibMatchFrom r) ∧
      (ProbesReachLongest cityHash t n hasStrategyChoiceEntry →
        t.findEffectiveStrategy cityHash n = t.findEffectiveStrategyFrom r) ∧
      ∀ pred, ProbesReachLongest cityHash t n (hasMeasurementsEntry pred) →
        t.measurementsMatch cityHash n pred = t.measurementsMatchFrom r pred := by
  have hwf := wf_of_reach hk hr
  refine ⟨fun n sel => hwf.longestPrefixMatchAgrees_iff, fun r n hname => ⟨?_, ?_, ?_⟩⟩
  · exact fun h => hwf.fibMatch_eq hname (hwf.longestPrefixMatchAgrees_iff.mpr h)
  · exact fun h => hwf.findEffectiveStrategy_eq hname (hwf.longestPrefixMatchAgrees_iff.mpr h)
  · exact fun pred h => measurementsMatch_eq hname (hwf.longestPrefixMatchAgrees_iff.mpr h)

/-- The tree after one lookup of `/A/B`. -/
def treeAB : NameTree := ((new 16).lookup octetHash [.ofByte 65, .ofByte 66]).1

theorem treeAB_reach : Reach (NameTree.apply octetHash) (Bounded octetHash) (new (2 ^ 4)) treeAB := by
  refine Reach.next (Op.lookup [.ofByte 65, .ofByte 66]) Reach.start ?_ rfl
  intro t' ht'
  cases ht'
  decide

/-- `/A` and `/A/B/B` have one hash, so the match of `/A/B/B` is `/A` although `/A/B` is stored. -/
theorem longestPrefixMatch_collision :
    Reach (NameTree.apply octetHash) (Bounded octetHash) (new (2 ^ 4)) treeAB ∧
    ¬ LongestPrefixMatchAgrees octetHash treeAB [.ofByte 65, .ofByte 66, .ofByte 66] fun _ => true := by
  refine ⟨treeAB_reach, fun hagree => ?_⟩
  have hfind : treeAB.findLongestPrefixMatch octetHash [.ofByte 65, .ofByte 66, .ofByte 66]
      (fun _ => true) = some 1 := by decide
  obtain ⟨hlong, -⟩ := hagree
  rw [hfind] at hlong
  obtain ⟨j, ⟨-, e, he, hname, -⟩, hmax⟩ := hlong
  have hentry : treeAB.nameOf 1 = some [.ofByte 65] := by decide
  have hlonger : treeAB.nameOf 2 = some [.ofByte 65, .ofByte 66] := by decide
  obtain ⟨e', he', hname'⟩ := nameOf_eq_some.mp hlonger
  have hle := hmax 2 2 ⟨by decide, e', he', hname', rfl⟩
  rw [nameOf_eq_some.mpr ⟨e, he, hname⟩] at hentry
  have hlen := congrArg List.length (Option.some.inj hentry)
  simp only [Name.getPrefix, List.length_take, List.length_cons, List.length_nil] at hlen
  omega

/-- At the tree with `/A/B` no collision disturbs the match of `/A/B`. -/
theorem longestPrefixMatch_treeAB :
    LongestPrefixMatchAgrees octetHash treeAB [.ofByte 65, .ofByte 66] fun _ => true := by
  refine ((longestPrefixMatch_correct_iff octetHash 4 (by decide) treeAB treeAB_reach).1 _ _).mpr ?_
  rintro j r hj ⟨i, j', r', hlt, hj', hi, hcol, hlast⟩
  have hinj : ∀ i ≤ 2, ∀ j ≤ 2, prefixHash octetHash [.ofByte 65, .ofByte 66] i =
      prefixHash octetHash [.ofByte 65, .ofByte 66] j → i = j := by decide
  have heq := hinj i hi j' hj'.1 hcol
  exact hlast j (by omega) hj.1 j r hj rfl

end NfdPitless.NameTree
