import NfdPitless.PitInvariant
import NfdPitless.NameTreeMatch

/-! What a Data match finds. The search starts at the longest prefix match of the Data's name and
walks up, so it misses an Interest whose name carries the implicit digest, being longer than the name
searched for, and an Interest that a hash collision hides. -/

namespace NfdPitless.Pit

variable {cityHash : Component → UInt64} {p p' : Pit}

/-- The table on a sound name tree, every entry attached under its own name, and one entry at most for
a name and selectors. -/
structure Sound (cityHash : Component → UInt64) (p : Pit) : Prop where
  linked : p.Linked
  tree : p.nameTree.WF cityHash
  named : ∀ {r e nte}, p.entries r = some e → e.nameTreeEntry = some nte →
    p.nameTree.nameOf nte = some e.interest.name
  unique : ∀ {r r' e e'}, p.entries r = some e → p.entries r' = some e' →
    e.interest.name = e'.interest.name → e.interest.selectors = e'.interest.selectors → r = r'

inductive Op where
  | insert (interest : Interest)
  | erase (r : Ref)

def apply (cityHash : Component → UInt64) (p : Pit) : Op → Option Pit
  | .insert interest => (p.insert cityHash interest).map (·.1)
  | .erase r => p.erase r

/-- The operation leaves at most `2 ^ 32` buckets; erasing never adds any. -/
def Bounded (cityHash : Component → UInt64) (p : Pit) : Op → Prop
  | .insert interest => (p.nameTree.lookup cityHash interest.name).1.nBuckets ≤ 2 ^ 32
  | .erase _ => True

theorem new_sound {k : Nat} (hk : k ≤ 32) : (new (2 ^ k)).Sound cityHash where
  linked := new_linked _
  tree := NameTree.new_wf cityHash hk
  named he := by simp [new] at he
  unique he := by simp [new] at he

theorem nameOf_setPitEntries (t : NameTree) (x : Ref) (f : List Ref → List Ref) :
    (t.setPitEntries x f).nameOf = t.nameOf := by
  funext y
  simp only [NameTree.nameOf, NameTree.setPitEntries, NameTree.entries_modifyEntry]
  split
  · rename_i heq
    rw [heq]
    cases t.entries x <;> rfl
  · rfl

/-- A PIT entry for an Interest is attached to the entry that a lookup of the Interest's name yields. -/
theorem Sound.mem_of_lookup (h : p.Sound cityHash) {interest : Interest} {r nte : Ref} {e : PitEntry}
    {t : NameTree} (he : p.entries r = some e) (hname : e.interest.name = interest.name)
    (hlook : p.nameTree.lookup cityHash interest.name = (t, some nte)) (hbound : t.nBuckets ≤ 2 ^ 32) :
    r ∈ p.nameTree.pitEntriesOf nte := by
  have hwf := h.tree.lookup interest.name (by rwa [hlook])
  rw [hlook] at hwf
  obtain ⟨hwf', hkept, y, hy, hyname⟩ := hwf
  cases hy
  obtain ⟨m, hm, hmem⟩ := h.linked.attached he
  have hmname : t.nameOf m = some interest.name := hname ▸ hkept m _ (h.named he hm)
  have htree : t.WF cityHash := hwf'
  rwa [htree.nameOf_inj hmname hyname] at hmem

/-- Insertion keeps a sound table sound. -/
theorem Sound.insert (h : p.Sound cityHash) {interest : Interest} {r : Ref} {isNew : Bool}
    (hins : p.insert cityHash interest = some (p', r, isNew))
    (hbound : (p.nameTree.lookup cityHash interest.name).1.nBuckets ≤ 2 ^ 32) : p'.Sound cityHash := by
  obtain ⟨t, nte, hlook, hkeep, hstored, hcases⟩ := h.linked.insert_cases cityHash interest
  have hwf := h.tree.lookup interest.name hbound
  rw [hlook] at hwf hbound
  obtain ⟨hwf', hkept, y, hy, hyname⟩ := hwf
  cases hy
  rcases hcases with ⟨x, -, -, hins'⟩ | ⟨hnone, hins'⟩
  · rw [hins] at hins'
    cases hins'
    exact ⟨h.linked.of_keeps hkeep, hwf', fun he hm => hkept _ _ (h.named he hm), h.unique⟩
  · rw [hins] at hins'
    cases hins'
    have htree : (p.inserted t nte interest).nameTree.WF cityHash :=
      NameTree.WF.setPitEntries hwf' nte fun entries => entries ++ [p.nextRef]
    -- an old entry for the same Interest would have been found
    have hold : ∀ {x e}, p.entries x = some e → e.interest.name = interest.name →
        e.interest.selectors ≠ interest.selectors := by
      intro x e he hname hsel
      have hfor := hnone x (h.mem_of_lookup he hname hlook hbound)
      rw [isFor_eq_true.mpr ⟨e, he, hname, hsel⟩] at hfor
      cases hfor
    refine ⟨h.linked.inserted hkeep hstored interest, htree, ?_, ?_⟩
    · intro y e m he hm
      show (t.setPitEntries nte _).nameOf m = _
      rw [nameOf_setPitEntries]
      rw [inserted_entries] at he
      split at he
      · cases he
        cases hm
        exact hyname
      · exact hkept m _ (h.named he hm)
    · intro x x' e e' he he' hname hsel
      rw [inserted_entries] at he he'
      split at he
      · cases he
        split at he'
        · rw [‹x = _›, ‹x' = _›]
        · exact absurd hsel.symm (hold he' hname.symm)
      · split at he'
        · cases he'
          exact absurd hsel (hold he hname)
        · exact h.unique he he' hname hsel

/-- An Interest that has an entry gets that entry. -/
theorem Sound.insert_existing (h : p.Sound cityHash) {interest : Interest} {r : Ref} {e : PitEntry}
    (he : p.entries r = some e) (hname : e.interest.name = interest.name)
    (hsel : e.interest.selectors = interest.selectors)
    (hbound : (p.nameTree.lookup cityHash interest.name).1.nBuckets ≤ 2 ^ 32) :
    ∃ p', p.insert cityHash interest = some (p', r, false) ∧ p'.entries = p.entries := by
  obtain ⟨t, nte, hlook, -, -, ⟨x, hfor, -, hins⟩ | ⟨hnone, -⟩⟩ :=
    h.linked.insert_cases cityHash interest
  · obtain ⟨e', he', hname', hsel'⟩ := isFor_eq_true.mp hfor
    rw [h.unique he' he (hname'.trans hname.symm) (hsel'.trans hsel.symm)] at hins
    exact ⟨_, hins, rfl⟩
  · rw [hlook] at hbound
    have hno := hnone r (h.mem_of_lookup he hname hlook hbound)
    rw [isFor_eq_true.mpr ⟨e, he, hname, hsel⟩] at hno
    cases hno

/-- Changing an entry, but not its Interest nor its pointer to the tree. -/
theorem Sound.of_entries (h : p.Sound cityHash) (hlinked : p'.Linked) (htree : p'.nameTree = p.nameTree)
    (hentries : ∀ x e', p'.entries x = some e' → ∃ e, p.entries x = some e ∧ e'.interest = e.interest ∧
      e'.nameTreeEntry = e.nameTreeEntry) : p'.Sound cityHash where
  linked := hlinked
  tree := by rw [htree]; exact h.tree
  named he' hm := by
    obtain ⟨e, he, hint, hnt⟩ := hentries _ _ he'
    rw [htree, hint]
    exact h.named he (hnt ▸ hm)
  unique he₁ he₂ hname hsel := by
    obtain ⟨e, he, hint, -⟩ := hentries _ _ he₁
    obtain ⟨e', he', hint', -⟩ := hentries _ _ he₂
    rw [hint, hint'] at hname hsel
    exact h.unique he he' hname hsel

theorem nameOf_shrinkIfSparse (t : NameTree) : t.shrinkIfSparse.nameOf = t.nameOf := by
  unfold NameTree.shrinkIfSparse
  split <;> rfl

/-- Erasing stores no new name. -/
theorem nameOf_of_eraseUp {x : Ref} {m : Name} (fuel : Nat) :
    ∀ {t : NameTree} {r : Ref}, (NameTree.eraseUp fuel t r).1.nameOf x = some m → t.nameOf x = some m := by
  induction fuel with
  | zero => exact fun h => h
  | succ fuel ih =>
      intro t r hx
      rcases NameTree.eraseUp_succ_cases fuel t r with ⟨e, -, -, hrun⟩ | ⟨-, hrun⟩
      · rw [hrun, nameOf_shrinkIfSparse] at hx
        have hrem : (t.removed r e).nameOf x = some m := by
          cases hp : e.parent with
          | none => simpa [hp] using hx
          | some q => exact ih (by simpa [hp] using hx)
        rw [NameTree.removed_nameOf] at hrem
        split at hrem
        · cases hrem
        · exact hrem
      · rw [hrun] at hx
        exact hx

/-- Erasure keeps a sound table sound. -/
theorem Sound.erase (h : p.Sound cityHash) {r : Ref} (herase : p.erase r = some p') :
    p'.Sound cityHash := by
  cases he : p.entries r with
  | none => simp [Pit.erase, he] at herase
  | some e =>
      obtain ⟨p₁, hp₁, hlinked, hentries, -⟩ := h.linked.erase he
      rw [herase] at hp₁
      cases hp₁
      obtain ⟨nte, hnte, hmem⟩ := h.linked.attached he
      have htree : p'.nameTree = ((p.nameTree.setPitEntries nte fun entries =>
          Lists.swapPop entries r).eraseEntryIfEmpty nte).1 := by
        simp only [Pit.erase, he, Option.bind_some, hnte, hmem, if_true, Option.some.injEq] at herase
        rw [← herase]
      have hsub : ∀ {x e'}, p'.entries x = some e' → p.entries x = some e' := by
        intro x e' he'
        rw [hentries] at he'
        by_cases hx : x = r
        · simp [hx] at he'
        · simpa [hx] using he'
      refine ⟨hlinked, ?_, ?_, fun he₁ he₂ => h.unique (hsub he₁) (hsub he₂)⟩
      · rw [htree]
        exact (h.tree.setPitEntries nte _).eraseEntryIfEmpty nte
      · intro x e' m he' hm
        obtain ⟨m', hm', hxm⟩ := hlinked.attached he'
        rw [hm] at hm'
        cases hm'
        obtain ⟨ne, hne, -⟩ := NameTree.isSome_of_mem_pitEntriesOf hxm
        have hstored : p'.nameTree.nameOf m = some ne.entryPrefix :=
          NameTree.nameOf_eq_some.mpr ⟨ne, hne, rfl⟩
        have hold : p.nameTree.nameOf m = some ne.entryPrefix := by
          rw [htree] at hstored
          have := nameOf_of_eraseUp _ hstored
          rwa [nameOf_setPitEntries] at this
        rw [hstored, ← hold]
        exact h.named (hsub he') hm

theorem Sound.apply (h : p.Sound cityHash) {op : Op} (hb : p.Bounded cityHash op)
    (happly : p.apply cityHash op = some p') : p'.Sound cityHash := by
  cases op with
  | insert interest =>
      obtain ⟨⟨p₁, r, isNew⟩, hins, rfl⟩ := Option.map_eq_some_iff.mp happly
      exact h.insert hins hb
  | erase r => exact h.erase happly

theorem sound_of_reach {k : Nat} (hk : k ≤ 32)
    (hr : Reach (Pit.apply cityHash) (Bounded cityHash) (new (2 ^ k)) p) : p.Sound cityHash :=
  hr.invariant (new_sound hk) fun _ _ _ h hb ha => h.apply hb ha

theorem hasPitEntries_eq_true {e : Entry} : e.hasPitEntries = true ↔ e.pitEntries ≠ [] := by
  simp [Entry.hasPitEntries]

/-- A PIT entry whose name is a prefix of `n` makes its name tree entry a candidate. -/
theorem Sound.isCandidate (h : p.Sound cityHash) {r nte : Ref} {e : PitEntry} {n : Name}
    (he : p.entries r = some e) (hnte : e.nameTreeEntry = some nte) (hn : e.interest.name <+: n) :
    p.nameTree.IsCandidate n Entry.hasPitEntries e.interest.name.length nte := by
  obtain ⟨m, hm, hmem⟩ := h.linked.attached he
  rw [hnte] at hm
  cases hm
  obtain ⟨ne, hne, hr⟩ := NameTree.isSome_of_mem_pitEntriesOf hmem
  have hname : ne.entryPrefix = e.interest.name := by
    have := h.named he hnte
    rw [NameTree.nameOf, hne] at this
    exact Option.some.inj this
  refine ⟨hn.length_le, ne, hne, ?_, hasPitEntries_eq_true.mpr (List.ne_nil_of_mem hr)⟩
  rw [hname]
  exact NameTree.eq_getPrefix_of_prefix hn

/-- The search visits the name tree entries of the prefixes of the name it starts at. -/
theorem Sound.mem_findAllMatches (h : p.Sound cityHash) {n : Name} {nte : Ref} {j : Nat}
    (hnte : p.nameTree.IsCandidate n Entry.hasPitEntries j nte) :
    nte ∈ p.nameTree.findAllMatches cityHash n Entry.hasPitEntries ↔
      ¬ NameTree.Shadowed cityHash p.nameTree n Entry.hasPitEntries j := by
  rw [← h.tree.findLongestPrefixMatch_reaches_iff hnte, NameTree.findAllMatches]
  cases hfind : p.nameTree.findLongestPrefixMatch cityHash n Entry.hasPitEntries with
  | none => simp
  | some x =>
      have hsel : p.nameTree.selects Entry.hasPitEntries nte = true := by
        obtain ⟨-, e, he, -, hs⟩ := hnte
        exact NameTree.selects_eq_true.mpr ⟨e, he, hs⟩
      obtain ⟨-, j₁, -, hj₁, -⟩ := h.tree.findLongestPrefixMatch_eq_some hfind
      simp only [List.mem_filter, hsel, and_true, h.tree.mem_ancestorsOrSelf hj₁.nameOf]
      rw [NameTree.getPrefix_length hj₁.1]
      constructor
      · rintro ⟨i, hi, hname⟩
        refine ⟨x, j₁, rfl, hj₁, ?_⟩
        rw [hnte.nameOf, Name.getPrefix, Name.getPrefix, Name.getPrefix, List.take_take,
          min_eq_left hi] at hname
        rw [NameTree.getPrefix_inj hnte.1 (hi.trans hj₁.1) (Option.some.inj hname)]
        exact hi
      · rintro ⟨y, j₀, hy, hj₀, hle⟩
        cases hy
        rw [hj₀.length_unique hj₁] at hle
        refine ⟨j, hle, ?_⟩
        rw [hnte.nameOf, Name.getPrefix, Name.getPrefix, Name.getPrefix, List.take_take, min_eq_left hle]

/-- The name tree entries visited store prefixes of the name searched for. -/
theorem Sound.prefix_of_mem_findAllMatches (h : p.Sound cityHash) {n m : Name} {nte : Ref}
    (hmem : nte ∈ p.nameTree.findAllMatches cityHash n Entry.hasPitEntries)
    (hname : p.nameTree.nameOf nte = some m) : m <+: n := by
  rw [NameTree.findAllMatches] at hmem
  cases hfind : p.nameTree.findLongestPrefixMatch cityHash n Entry.hasPitEntries with
  | none => simp [hfind] at hmem
  | some x =>
      rw [hfind] at hmem
      obtain ⟨-, j₁, -, hj₁, -⟩ := h.tree.findLongestPrefixMatch_eq_some hfind
      obtain ⟨i, -, hi⟩ := (h.tree.mem_ancestorsOrSelf hj₁.nameOf).mp (List.mem_filter.mp hmem).1
      rw [hname] at hi
      rw [Option.some.inj hi]
      exact (List.take_prefix i _).trans (List.take_prefix j₁ n)

/-- The search for `n` finds the PIT entries whose names are prefixes of `n` and are not hidden. -/
theorem Sound.mem_entriesAlong (h : p.Sound cityHash) {n : Name} {r : Ref} :
    r ∈ p.entriesAlong cityHash n ↔
      ∃ e, p.entries r = some e ∧ e.interest.name <+: n ∧
        ¬ NameTree.Shadowed cityHash p.nameTree n Entry.hasPitEntries e.interest.name.length := by
  rw [entriesAlong, List.mem_flatMap]
  constructor
  · rintro ⟨nte, hmem, hr⟩
    obtain ⟨e, he, hnte⟩ := h.linked.owned hr
    have hn := h.prefix_of_mem_findAllMatches hmem (h.named he hnte)
    exact ⟨e, he, hn, (h.mem_findAllMatches (h.isCandidate he hnte hn)).mp hmem⟩
  · rintro ⟨e, he, hn, hnot⟩
    obtain ⟨nte, hnte, hr⟩ := h.linked.attached he
    exact ⟨nte, (h.mem_findAllMatches (h.isCandidate he hnte hn)).mpr hnot, hr⟩

/-- No PIT entry is visited twice. -/
theorem Sound.entriesAlong_nodup (h : p.Sound cityHash) (n : Name) : (p.entriesAlong cityHash n).Nodup := by
  rw [entriesAlong, List.nodup_flatMap]
  refine ⟨fun nte _ => h.linked.nodup nte, ?_⟩
  have hvisited : (p.nameTree.findAllMatches cityHash n Entry.hasPitEntries).Nodup := by
    rw [NameTree.findAllMatches]
    cases hfind : p.nameTree.findLongestPrefixMatch cityHash n Entry.hasPitEntries with
    | none => exact List.nodup_nil
    | some x =>
        obtain ⟨-, j₁, -, hj₁, -⟩ := h.tree.findLongestPrefixMatch_eq_some hfind
        exact (h.tree.ancestorsOrSelf_nodup hj₁.nameOf).filter _
  refine hvisited.imp ?_
  intro x y hxy r hrx hry
  obtain ⟨e, he, hx⟩ := h.linked.owned hrx
  obtain ⟨e', he', hy⟩ := h.linked.owned hry
  rw [he] at he'
  cases he'
  rw [hx] at hy
  exact hxy (Option.some.inj hy)

/-! ### Data matches -/

/-- The result of a Data match is the list of all matching PIT entries, each once. -/
def DataMatchesExact (cityHash : Component → UInt64) (matchesData : MatchesData) (p : Pit) (d : Data) : Prop :=
  (p.findAllDataMatches cityHash matchesData d).Nodup ∧
  ∀ r, r ∈ p.findAllDataMatches cityHash matchesData d ↔
    ∃ e, p.entries r = some e ∧ matchesData e.interest.name e.interest.selectors d = true

theorem Sound.mem_findAllDataMatches (h : p.Sound cityHash) {matchesData : MatchesData} {d : Data} {r : Ref} :
    r ∈ p.findAllDataMatches cityHash matchesData d ↔
      ∃ e, p.entries r = some e ∧ matchesData e.interest.name e.interest.selectors d = true ∧
        e.interest.name <+: d.name ∧
        ¬ NameTree.Shadowed cityHash p.nameTree d.name Entry.hasPitEntries e.interest.name.length := by
  rw [findAllDataMatches, List.mem_filter, h.mem_entriesAlong]
  constructor
  · rintro ⟨⟨e, he, hn, hnot⟩, hm⟩
    exact ⟨e, he, by simpa [he] using hm, hn, hnot⟩
  · rintro ⟨e, he, hm, hn, hnot⟩
    exact ⟨⟨e, he, hn, hnot⟩, by simpa [he] using hm⟩

/-- In every reachable table, a Data match is exact if and only if every matching PIT entry has a name
no longer than the Data's name (so it carries no implicit digest) and is not hidden by a collision. -/
theorem findAllDataMatches_exact_iff (cityHash : Component → UInt64) (matchesData : MatchesData)
    (digest : Data → List UInt8)
    (hmatch : ∀ n s d, matchesData n s d = true → n <+: d.fullName digest)
    (k : Nat) (hk : k ≤ 32) (p : Pit)
    (hr : Reach (Pit.apply cityHash) (Bounded cityHash) (new (2 ^ k)) p) (d : Data) :
    DataMatchesExact cityHash matchesData p d ↔
      ∀ r e, p.entries r = some e → matchesData e.interest.name e.interest.selectors d = true →
        e.interest.name.length ≤ d.name.length ∧
        ¬ NameTree.Shadowed cityHash p.nameTree d.name Entry.hasPitEntries e.interest.name.length := by
  have h := sound_of_reach hk hr
  constructor
  · rintro ⟨-, hall⟩ r e he hm
    obtain ⟨e', he', -, hn, hnot⟩ := h.mem_findAllDataMatches.mp ((hall r).mpr ⟨e, he, hm⟩)
    rw [he] at he'
    cases he'
    exact ⟨hn.length_le, hnot⟩
  · intro hcond
    refine ⟨(h.entriesAlong_nodup d.name).filter _, fun r => ?_⟩
    rw [h.mem_findAllDataMatches]
    constructor
    · rintro ⟨e, he, hm, -⟩
      exact ⟨e, he, hm⟩
    · rintro ⟨e, he, hm⟩
      obtain ⟨hlen, hnot⟩ := hcond r e he hm
      have hn : e.interest.name <+: d.name :=
        List.prefix_of_prefix_length_le (hmatch _ _ _ hm) (List.prefix_append d.name _) hlen
      exact ⟨e, he, hm, hn, hnot⟩

/-- The digest that the runs below give every Data. -/
def zeroDigest (_ : Data) : List UInt8 := List.replicate 32 0

/-- The name `/A` followed by that digest. -/
def digestNameA : Name := [.ofByte 65, digestOf 0]

/-- The table after one Interest. -/
def pitOf (name : Name) : Pit :=
  ((new 16).apply NameTree.octetHash (.insert (plainInterest name))).getD (new 16)

theorem pitOf_apply (name : Name) :
    (new 16).apply NameTree.octetHash (.insert (plainInterest name)) = some (pitOf name) := by
  obtain ⟨p', r, isNew, hins, -⟩ :=
    (new_linked 16).insert NameTree.octetHash (plainInterest name)
  simp [pitOf, apply, hins]

theorem pitOf_reach {name : Name} (hbound : ((NameTree.new 16).lookup NameTree.octetHash name).1.nBuckets ≤ 2 ^ 32) :
    Reach (Pit.apply NameTree.octetHash) (Bounded NameTree.octetHash) (new (2 ^ 4)) (pitOf name) :=
  Reach.next (.insert (plainInterest name)) Reach.start hbound (pitOf_apply name)

/-- An Interest for `/A` with the digest of a Data is not found when that Data arrives. -/
theorem findAllDataMatches_misses_digest :
    Reach (Pit.apply NameTree.octetHash) (Bounded NameTree.octetHash) (new (2 ^ 4)) (pitOf digestNameA) ∧
      ¬ DataMatchesExact NameTree.octetHash (matchesSuffix zeroDigest) (pitOf digestNameA)
        (plainData [.ofByte 65]) := by
  refine ⟨pitOf_reach (by decide +kernel), ?_⟩
  rintro ⟨-, hall⟩
  have hfind : (pitOf digestNameA).findAllDataMatches NameTree.octetHash (matchesSuffix zeroDigest)
      (plainData [.ofByte 65]) = [] := by decide +kernel
  have hentry : ((pitOf digestNameA).entries 0).map PitEntry.interest =
      some (plainInterest digestNameA) := by decide +kernel
  obtain ⟨e, he, hint⟩ := Option.map_eq_some_iff.mp hentry
  have hmem := (hall 0).mpr ⟨e, he, by rw [hint]; decide +kernel⟩
  rw [hfind] at hmem
  cases hmem

/-- The entry of an Interest for the root prefix is found by a Data of any name. -/
theorem findAllDataMatches_exact_root :
    DataMatchesExact NameTree.octetHash (matchesSuffix zeroDigest) (pitOf []) (plainData [.ofByte 65]) := by
  refine (findAllDataMatches_exact_iff NameTree.octetHash (matchesSuffix zeroDigest) zeroDigest
    (fun _ _ _ h => prefix_of_matchesSuffix h) 4 (by decide) (pitOf []) (pitOf_reach (by decide)) _).mpr ?_
  intro r e he _
  have hname : e.interest.name = [] := by
    obtain ⟨p', r', isNew, hins, -, ⟨-, hentries, -⟩ | ⟨-, -, -, nte, hentries⟩⟩ :=
      (new_linked 16).insert NameTree.octetHash (plainInterest [])
    · have hp : pitOf [] = p' := by simp [pitOf, apply, hins]
      rw [hp, hentries] at he
      cases he
    · have hp : pitOf [] = p' := by simp [pitOf, apply, hins]
      rw [hp, hentries] at he
      by_cases hr : r = (new 16).nextRef
      · rw [hr, Function.update_self] at he
        cases he
        rfl
      · rw [Function.update_of_ne hr] at he
        cases he
  rw [hname]
  refine ⟨Nat.zero_le _, ?_⟩
  rintro ⟨i, j', r', hlt, -⟩
  exact absurd hlt (Nat.not_lt_zero j')

end NfdPitless.Pit
