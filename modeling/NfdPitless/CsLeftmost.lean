import NfdPitless.CsLookup
import NfdPitless.Lists
import NfdPitless.NameSuccessor

/-! What a lookup of the content store returns when it looks for the leftmost match. A query that ends in an implicit
digest is taken for the full name of a Data, so the Data that the lookup reaches are those whose own names have no
digest. -/

namespace NfdPitless

/-- A name of which no component is an implicit digest. -/
def Name.Plain (n : Name) : Prop := ∀ c ∈ n, c.isImplicitSha256Digest = false

instance (n : Name) : Decidable n.Plain :=
  inferInstanceAs (Decidable (∀ c ∈ n, c.isImplicitSha256Digest = false))

/-- A digest is less than a component of another type. -/
theorem Component.digest_lt {d c : Component} (hd : d.isImplicitSha256Digest = true)
    (hc : c.isImplicitSha256Digest = false) : d < c := by
  show Component.orderKey d < Component.orderKey c
  unfold Component.orderKey
  refine Prod.Lex.toLex_lt_toLex.mpr (Or.inl ?_)
  dsimp only
  rw [hd, hc]
  decide

/-- The name after which a digest comes does not matter for the order of two names that differ before. -/
theorem Name.append_lt_append {n m : Name} (hlt : n < m) (hnot : ¬ n <+: m) (x y : Name) : n ++ x < m ++ y := by
  induction n generalizing m with
  | nil => exact absurd List.nil_prefix hnot
  | cons a n ih =>
      cases m with
      | nil => exact absurd hlt (List.not_lt_nil _)
      | cons b m =>
          rw [List.cons_append, List.cons_append, List.cons_lt_cons_iff]
          rcases List.cons_lt_cons_iff.mp hlt with hab | ⟨rfl, hnm⟩
          · exact Or.inl hab
          · exact Or.inr ⟨rfl, ih hnm fun hstarts => hnot (List.cons_prefix_cons.mpr ⟨rfl, hstarts⟩)⟩

/-- Names in order stay so when they are followed by digests, if the greater one has none. -/
theorem Name.append_digest_lt {n m : Name} {d d' : Component} (hlt : n < m) (hm : m.Plain)
    (hd : d.isImplicitSha256Digest = true) : n ++ [d] < m ++ [d'] := by
  by_cases hstarts : n <+: m
  · obtain ⟨t, rfl⟩ := hstarts
    rw [List.append_assoc, Name.append_lt_append_iff]
    cases t with
    | nil =>
        rw [List.append_nil] at hlt
        exact absurd hlt (lt_irrefl n)
    | cons c t =>
        refine List.cons_lt_cons_iff.mpr (Or.inl (Component.digest_lt hd (hm c ?_)))
        exact List.mem_append_right n List.mem_cons_self
  · exact Name.append_lt_append hlt hstarts _ _

namespace Cs

variable {π : Type} {digest : Data → List UInt8} {getSuccessor : Name → Name} {matchesData : MatchesData}
  {table : List CsEntry} {queryName : Name} {a b data : Data}

/-- The table is in the order of full names. -/
theorem fullName_lt_of_sortKey (h : sortKey digest a < sortKey digest b) (hb : b.name.Plain) :
    a.fullName digest < b.fullName digest := by
  rcases sortKey_lt_iff.mp h with hname | ⟨hname, hdigest⟩
  · exact Name.append_digest_lt hname hb rfl
  · rw [Data.fullName, Data.fullName, hname, Name.append_lt_append_iff]
    exact List.cons_lt_cons_iff.mpr (Or.inl hdigest)

/-- A query that is greater than the full name of a Data is above it, or ends in a digest that is greater than a
component of the Data's own name. -/
theorem above_or_of_fullName_lt (hlt : data.fullName digest < queryName) :
    compareQueryWithData digest queryName data = .gt ∨ ∃ m d c, queryName = m ++ [d] ∧
      d.isImplicitSha256Digest = true ∧ m ++ [c] <+: data.name ∧ c < d := by
  by_cases hfull : IsFullName queryName
  · obtain ⟨m, d, rfl, hd⟩ := exists_of_isFullName hfull
    rw [above_concat_iff hd, sortKey, Prod.Lex.toLex_lt_toLex]
    rcases lt_trichotomy data.name m with hless | heq | hmore
    · exact Or.inl (Or.inl hless)
    · rw [Data.fullName, heq, Name.append_lt_append_iff] at hlt
      refine Or.inl (Or.inr ⟨heq, (List.cons_lt_cons_iff.mp hlt).resolve_right ?_⟩)
      exact fun h => absurd h.2 (List.not_lt_nil _)
    · by_cases hunder : m <+: data.name
      · obtain ⟨t, ht⟩ := hunder
        rw [Data.fullName, ← ht, List.append_assoc, Name.append_lt_append_iff] at hlt
        cases t with
        | nil =>
            rw [List.append_nil] at ht
            exact absurd ht hmore.ne
        | cons c t =>
            have hc : c < d := (List.cons_lt_cons_iff.mp hlt).resolve_right fun h => absurd h.2 (List.not_lt_nil _)
            exact Or.inr ⟨m, d, c, rfl, hd, ⟨t, by rw [← ht, List.append_assoc]; rfl⟩, hc⟩
      · exact absurd hlt (lt_asymm (Name.append_lt_append hmore hunder [d] [⟨true, digest data⟩]))
  · rw [above_iff hfull]
    exact Or.inl ((Name.le_of_prefix (List.prefix_append data.name _)).trans_lt hlt)

/-- A name that is greater than the full name of a Data is above it as a query, if the Data is named without a
digest. -/
theorem above_of_fullName_lt (hplain : data.name.Plain) (hlt : data.fullName digest < queryName) :
    compareQueryWithData digest queryName data = .gt := by
  refine (above_or_of_fullName_lt hlt).resolve_right ?_
  rintro ⟨m, d, c, -, hd, hunder, hcd⟩
  have hc : c ∈ data.name := hunder.mem (List.mem_append_right m List.mem_cons_self)
  exact lt_asymm hcd (Component.digest_lt hd (hplain c hc))

theorem Sorted.slice_pairwise (h : Sorted digest table) (first last : Nat) :
    (slice table first last).Pairwise fun p q => sortKey digest p.2.data < sortKey digest q.2.data := by
  refine List.Pairwise.filter _ ?_
  have htable : ((List.range table.length).zip table).map Prod.snd = table :=
    List.map_snd_zip (List.length_range (n := table.length)).ge
  rw [← List.pairwise_map (f := Prod.snd) (R := fun x y : CsEntry => sortKey digest x.data < sortKey digest y.data),
    htable]
  exact h

/-- The leftmost match comes before every other match that is read. -/
theorem Sorted.findLeftmost_least (h : Sorted digest table) {now first last : Nat} {interest : Interest}
    {found other : Nat × CsEntry} (hfound : findLeftmost matchesData table now interest first last = some found)
    (hother : other ∈ slice table first last) (hsat : other.2.canSatisfy matchesData now interest = true) :
    other = found ∨ sortKey digest found.2.data < sortKey digest other.2.data := by
  exact (Lists.find?_pairwise (h.slice_pairwise first last) hfound hother hsat).imp_left Eq.symm

/-- An entry between the bounds that can satisfy an Interest makes it hit, on this entry or one before it. -/
theorem Sorted.find_least {cs : Cs π} (h : Sorted digest cs.table) (policy : CsPolicy π) {now : Nat}
    {interest : Interest} (hchild : interest.selectors.childSelector ≠ some 1) {e : CsEntry} (he : e ∈ cs.table)
    (hsat : e.canSatisfy matchesData now interest = true)
    (hfirst : compareQueryWithData digest interest.name e.data ≠ .gt)
    (hlast : interest.name ≠ [] → compareQueryWithData digest (getSuccessor interest.name) e.data = .gt) :
    ∃ found ∈ cs.table, found.canSatisfy matchesData now interest = true ∧
      sortKey digest found.data ≤ sortKey digest e.data ∧
      (find digest getSuccessor matchesData policy cs now interest).2 = some found.data := by
  obtain ⟨i, hmem⟩ := h.mem_slice_of_bounds he hfirst hlast
  have hfound := List.find?_isSome (p := fun p : Nat × CsEntry => p.2.canSatisfy matchesData now interest).mpr
    ⟨(i, e), hmem, hsat⟩
  obtain ⟨p, hp⟩ := Option.isSome_iff_exists.mp hfound
  refine ⟨p.2, findLeftmost_mem hp, findLeftmost_satisfies hp, ?_, ?_⟩
  · rcases h.findLeftmost_least hp hmem hsat with heq | hlt
    · rw [← heq]
    · exact hlt.le
  · unfold find
    dsimp only
    rw [if_neg hchild, findLeftmost, hp]

/-- An entry that can satisfy an Interest is between the bounds of its lookup, if the Data is named without a
digest. -/
theorem Sorted.mem_slice_of_satisfies (h : Sorted digest table)
    (hsucc : ∀ n n' : Name, n ≠ [] → n <+: n' → n' < getSuccessor n)
    (hmatch : ∀ n s d, matchesData n s d = true → n <+: d.fullName digest) {e : CsEntry} (he : e ∈ table)
    (hplain : e.data.name.Plain) {now : Nat} {interest : Interest}
    (hsat : e.canSatisfy matchesData now interest = true) :
    ∃ i, (i, e) ∈ slice table (lowerBound digest table interest.name)
      (if interest.name.length > 0 then lowerBound digest table (getSuccessor interest.name) else table.length) := by
  rw [CsEntry.canSatisfy, Bool.and_eq_true] at hsat
  have hstarts := hmatch _ _ _ hsat.1
  exact h.mem_slice_of_bounds he (not_above_of_starts hstarts) fun hname =>
    above_of_fullName_lt hplain (hsucc _ _ hname hstarts)

/-- A lookup for the leftmost match hits when an entry can satisfy the Interest, and returns the one with the least
full name, if no Data is named with a digest. -/
theorem find_leftmost (digest : Data → List UInt8) (getSuccessor : Name → Name) (matchesData : MatchesData)
    (policy : CsPolicy π) (hsucc : ∀ n n' : Name, n ≠ [] → n <+: n' → n' < getSuccessor n)
    (hmatch : ∀ n s d, matchesData n s d = true → n <+: d.fullName digest) (cs : Cs π)
    (hsorted : Sorted digest cs.table) (hplain : ∀ e ∈ cs.table, e.data.name.Plain) (now : Nat) (interest : Interest)
    (hchild : interest.selectors.childSelector ≠ some 1) :
    ((find digest getSuccessor matchesData policy cs now interest).2.isSome ↔
      ∃ e ∈ cs.table, e.canSatisfy matchesData now interest = true) ∧
    ∀ data, (find digest getSuccessor matchesData policy cs now interest).2 = some data →
      ∃ e ∈ cs.table, e.data = data ∧ e.canSatisfy matchesData now interest = true ∧
        ∀ e' ∈ cs.table, e'.canSatisfy matchesData now interest = true →
          data.fullName digest ≤ e'.data.fullName digest := by
  have hreads : ∀ e ∈ cs.table, e.canSatisfy matchesData now interest = true →
      ∃ i, (i, e) ∈ slice cs.table (lowerBound digest cs.table interest.name)
        (if interest.name.length > 0 then lowerBound digest cs.table (getSuccessor interest.name)
          else cs.table.length) :=
    fun e he hsat => hsorted.mem_slice_of_satisfies hsucc hmatch he (hplain e he) hsat
  have hfind : (find digest getSuccessor matchesData policy cs now interest).2 =
      (findLeftmost matchesData cs.table now interest (lowerBound digest cs.table interest.name)
        (if interest.name.length > 0 then lowerBound digest cs.table (getSuccessor interest.name)
          else cs.table.length)).map fun p => p.2.data := by
    unfold find
    dsimp only
    rw [if_neg hchild]
    split
    · rename_i hmiss
      rw [hmiss]
      rfl
    · rename_i hhit
      rw [hhit]
      rfl
  rw [hfind, Option.isSome_map]
  constructor
  · constructor
    · intro hsome
      obtain ⟨found, hfound⟩ := Option.isSome_iff_exists.mp hsome
      exact ⟨found.2, findLeftmost_mem hfound, findLeftmost_satisfies hfound⟩
    · rintro ⟨e, he, hsat⟩
      obtain ⟨i, hi⟩ := hreads e he hsat
      exact List.find?_isSome.mpr ⟨(i, e), hi, hsat⟩
  · intro data hdata
    obtain ⟨found, hfound, rfl⟩ := Option.map_eq_some_iff.mp hdata
    refine ⟨found.2, findLeftmost_mem hfound, rfl, findLeftmost_satisfies hfound, fun e' he' hsat => ?_⟩
    obtain ⟨i, hi⟩ := hreads e' he' hsat
    rcases hsorted.findLeftmost_least hfound hi hsat with heq | hlt
    · rw [← heq]
    · exact (fullName_lt_of_sortKey hlt (hplain e' he')).le

/-- The digest of the runs on fixed packets: the content, filled up to 32 octets. -/
def contentDigest (d : Data) : List UInt8 := d.content ++ List.replicate (32 - d.content.length) 0

/-- A store with two Data of one name and one below it. -/
def threeStored : Cs Unit :=
  [plainData [.ofByte 65, .ofByte 66], { plainData [.ofByte 65] with content := [8] },
    { plainData [.ofByte 65] with content := [7] }].foldl
    (fun cs data => insert contentDigest .keepAll cs 0 data false) ⟨[], ()⟩

theorem threeStored_sorted : Sorted contentDigest threeStored.table := by
  have hempty : Sorted contentDigest (⟨[], ()⟩ : Cs Unit).table := List.Pairwise.nil
  rw [threeStored, List.foldl_cons, List.foldl_cons, List.foldl_cons, List.foldl_nil]
  exact ((hempty.insert _ _ _ _).insert _ _ _ _).insert _ _ _ _

/-- The lookup returns the Data with the least digest. -/
theorem find_leftmost_three :
    (find contentDigest successorName (matchesSuffix contentDigest) .keepAll threeStored 0
        (plainInterest [.ofByte 65])).2 = some { plainData [.ofByte 65] with content := [7] } ∧
      ∀ e' ∈ threeStored.table, e'.canSatisfy (matchesSuffix contentDigest) 0 (plainInterest [.ofByte 65]) = true →
        ({ plainData [.ofByte 65] with content := [7] } : Data).fullName contentDigest ≤
          e'.data.fullName contentDigest := by
  have hfind : (find contentDigest successorName (matchesSuffix contentDigest) .keepAll threeStored 0
      (plainInterest [.ofByte 65])).2 = some { plainData [.ofByte 65] with content := [7] } := by decide +kernel
  obtain ⟨-, hleast⟩ := find_leftmost contentDigest successorName (matchesSuffix contentDigest) .keepAll
    (fun n n' hn hstarts => (successorName_isLeast hn).1 n' hstarts) (fun _ _ _ h => prefix_of_matchesSuffix h)
    threeStored threeStored_sorted (by decide +kernel) 0 (plainInterest [.ofByte 65]) (by decide)
  obtain ⟨-, -, -, -, hle⟩ := hleast _ hfind
  exact ⟨hfind, hle⟩

/-- A Data of which the own name ends in a digest is not found under that name. -/
theorem find_misses_digest :
    (∀ n : Name, n ≠ [] → IsLeast {m | ∀ n', n <+: n' → n' < m} (successorName n)) ∧
    (∀ n s d, matchesSuffix contentDigest n s d = true → n <+: d.fullName contentDigest) ∧
    (plainInterest [.ofByte 65, digestOf 1]).selectors.childSelector ≠ some 1 ∧
    ∃ cs : Cs Unit, cs = insert contentDigest CsPolicy.keepAll ⟨[], ()⟩ 0
        (plainData [.ofByte 65, digestOf 1]) false ∧
      (∃ e ∈ cs.table, e.canSatisfy (matchesSuffix contentDigest) 0
        (plainInterest [.ofByte 65, digestOf 1]) = true) ∧
      (find contentDigest successorName (matchesSuffix contentDigest) CsPolicy.keepAll cs 0
        (plainInterest [.ofByte 65, digestOf 1])).2 = none := by
  refine ⟨fun n hn => successorName_isLeast hn, fun _ _ _ h => prefix_of_matchesSuffix h, by decide, _, rfl, ?_, ?_⟩
  · decide +kernel
  · decide +kernel

end Cs
end NfdPitless
