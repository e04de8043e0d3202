import NfdPitless.CsLeftmost
import NfdPitless.SearchTree

/-! The comparison of `cs::EntryImpl` (`daemon/table/cs-entry-impl.cpp`), by which `std::set` keeps the table of the
content store as a search tree and finds the bounds of a lookup. A Data is compared by its name and then by its digest,
which is the order of full names unless a name goes on after a digest. -/

namespace NfdPitless.Cs

/-- A stored Data, or a query. -/
inductive EntryImpl where
  | query (queryName : Name)
  | stored (data : Data)

/-- `operator<`. -/
def EntryImpl.less (digest : Data → List UInt8) : EntryImpl → EntryImpl → Bool
  | .query queryName, .query other => queryName < other
  | .query queryName, .stored other => compareQueryWithData digest queryName other == .lt
  | .stored data, .query other => compareQueryWithData digest other data == .gt
  | .stored data, .stored other => compareDataWithData digest data other == .lt

/-- The table as a search tree. -/
structure Table (digest : Data → List UInt8) where
  tree : BinaryTree CsEntry
  sorted : (SearchTree.inorder tree).Pairwise fun x y => EntryImpl.less digest (.stored x.data) (.stored y.data) = true

variable {digest : Data → List UInt8} {queryName : Name} {data a b c : Data} {e e' : CsEntry}

namespace Table

/-- The entries in the order of the table. -/
def entries (t : Table digest) : List CsEntry := SearchTree.inorder t.tree

/-- `m_table.lower_bound(queryName)`. -/
def lowerBound (t : Table digest) (queryName : Name) : Option CsEntry :=
  SearchTree.lowerBound (fun e => EntryImpl.less digest (.stored e.data) (.query queryName)) t.tree

end Table

/-- The comparison of Data is a strict total order, lexicographic in the name and the digest. -/
structure TotalOrder (digest : Data → List UInt8) : Prop where
  irrefl : ∀ a, EntryImpl.less digest (.stored a) (.stored a) = false
  trans : ∀ a b c, EntryImpl.less digest (.stored a) (.stored b) = true →
    EntryImpl.less digest (.stored b) (.stored c) = true → EntryImpl.less digest (.stored a) (.stored c) = true
  total : ∀ a b, a.fullName digest ≠ b.fullName digest →
    EntryImpl.less digest (.stored a) (.stored b) = true ∨ EntryImpl.less digest (.stored b) (.stored a) = true
  lex : ∀ a b, EntryImpl.less digest (.stored a) (.stored b) = true ↔
    a.name < b.name ∨ a.name = b.name ∧ (⟨true, digest a⟩ : Component) < ⟨true, digest b⟩

/-- A Data that comes before a query by its name, and not by its full name: the query goes on after a digest that is
less than the one of the Data. -/
def BeforeByName (digest : Data → List UInt8) (queryName : Name) (data : Data) : Prop :=
  ∃ d rest, queryName = data.name ++ d :: rest ∧ rest ≠ [] ∧ d < ⟨true, digest data⟩

/-- A Data that comes after a full name by its own name, and before it by its full name: its name goes on where the
query has a greater digest. -/
def AfterByName (queryName : Name) (data : Data) : Prop :=
  ∃ m d d', queryName = m ++ [d] ∧ d.isImplicitSha256Digest = true ∧ m ++ [d'] <+: data.name ∧ d' < d

/-- The bound of a query is the same in the order of full names. -/
structure OrderedByFullName (digest : Data → List UInt8) (entries : List CsEntry) (queryName : Name) : Prop where
  before : ∀ e ∈ entries, ¬ BeforeByName digest queryName e.data
  /-- The Data after the query by their names do not come first. -/
  after : (∃ e ∈ entries, AfterByName queryName e.data) →
    ∃ e ∈ entries, ∃ d, queryName = e.data.name ++ [d] ∧ d ≤ ⟨true, digest e.data⟩

theorem stored_less_stored_iff :
    EntryImpl.less digest (.stored a) (.stored b) = true ↔ sortKey digest a < sortKey digest b :=
  beq_iff_eq.trans compareDataWithData_lt_iff

theorem stored_less_query_iff :
    EntryImpl.less digest (.stored a) (.query queryName) = true ↔ compareQueryWithData digest queryName a = .gt :=
  beq_iff_eq

theorem query_less_stored_iff :
    EntryImpl.less digest (.query queryName) (.stored a) = true ↔ compareQueryWithData digest queryName a = .lt :=
  beq_iff_eq

/-- A query and a Data are equivalent exactly if the query is the full name of the Data. -/
theorem equivalent_iff :
    EntryImpl.less digest (.stored a) (.query queryName) = false ∧
        EntryImpl.less digest (.query queryName) (.stored a) = false ↔
      queryName = a.fullName digest := by
  rw [← Bool.not_eq_true, ← Bool.not_eq_true, stored_less_query_iff, query_less_stored_iff]
  have heq : compareQueryWithData digest queryName a = .eq ↔ queryName = a.fullName digest := by
    by_cases hfull : IsFullName queryName
    · obtain ⟨m, d, rfl, hd⟩ := exists_of_isFullName hfull
      rw [compareQueryWithData_concat hd, Ordering.then_eq_eq, Name.compare_eq_iff, compare_eq_iff_eq, Data.fullName]
      constructor
      · rintro ⟨rfl, rfl⟩
        rfl
      · intro h
        obtain ⟨hname, hdigest⟩ := List.append_inj' h rfl
        exact ⟨hname, (List.cons.inj hdigest).1⟩
    · rw [compareQueryWithData_of_not_isFullName hfull, Ordering.then_eq_eq]
      refine iff_of_false (fun h => Ordering.noConfusion h.2) ?_
      rintro rfl
      exact hfull (isFullName_concat_iff.mpr rfl)
  rw [← heq]
  cases compareQueryWithData digest queryName a <;> simp

theorem totalOrder (digest : Data → List UInt8) : TotalOrder digest where
  irrefl a := Bool.eq_false_iff.mpr fun h => lt_irrefl _ (stored_less_stored_iff.mp h)
  trans a b c hab hbc := stored_less_stored_iff.mpr
    ((stored_less_stored_iff.mp hab).trans (stored_less_stored_iff.mp hbc))
  total a b hne := by
    rw [stored_less_stored_iff, stored_less_stored_iff]
    exact lt_or_gt_of_ne fun heq => hne (sortKey_eq_iff.mp heq)
  lex a b := stored_less_stored_iff.trans sortKey_lt_iff

/-- A Data below a query is below it by its name, and by its digest if that is what is left of the query. -/
theorem name_lt_of_above (h : compareQueryWithData digest queryName data = .gt) :
    data.name < queryName ∧ ∀ d, queryName = data.name ++ [d] → ⟨true, digest data⟩ < d := by
  by_cases hfull : IsFullName queryName
  · obtain ⟨m, d, rfl, hd⟩ := exists_of_isFullName hfull
    rw [above_concat_iff hd, sortKey, Prod.Lex.toLex_lt_toLex] at h
    have hbelow : m < m ++ [d] := Name.lt_of_prefix (List.prefix_append m [d]) (by simp)
    rcases h with hlt | ⟨heq, hlt⟩
    · refine ⟨hlt.trans hbelow, fun d' h => absurd (List.append_inj' h rfl).1 hlt.ne'⟩
    · dsimp only at heq hlt
      refine ⟨heq ▸ hbelow, fun d' h => ?_⟩
      rw [heq, List.append_cancel_left_eq, List.cons.injEq] at h
      exact h.1 ▸ hlt
  · refine ⟨(above_iff hfull).mp h, ?_⟩
    rintro d rfl
    exact Component.digest_lt rfl (Bool.eq_false_iff.mpr fun hd => hfull (isFullName_concat_iff.mpr hd))

theorem BeforeByName.above (h : BeforeByName digest queryName data) :
    compareQueryWithData digest queryName data = .gt := by
  obtain ⟨d, rest, rfl, hrest, -⟩ := h
  by_cases hfull : IsFullName (data.name ++ d :: rest)
  · obtain ⟨m, d', heq, hd'⟩ := exists_of_isFullName hfull
    obtain ⟨init, last, rfl⟩ := (List.eq_nil_or_concat rest).resolve_left hrest
    rw [List.concat_eq_append, ← List.cons_append, ← List.append_assoc] at heq ⊢
    obtain ⟨rfl, hlast⟩ := List.append_inj' heq rfl
    rw [(List.cons.inj hlast).1, above_concat_iff hd', sortKey, Prod.Lex.toLex_lt_toLex]
    exact Or.inl (Name.lt_of_prefix (List.prefix_append data.name _) (by simp))
  · exact (above_iff hfull).mpr (Name.lt_of_prefix (List.prefix_append data.name _) (by simp))

theorem BeforeByName.not_fullName_lt (h : BeforeByName digest queryName data) : ¬ data.fullName digest < queryName := by
  obtain ⟨d, rest, rfl, -, hlt⟩ := h
  rw [Data.fullName, Name.append_lt_append_iff, List.cons_lt_cons_iff]
  rintro (hgt | ⟨heq, -⟩)
  · exact lt_asymm hlt hgt
  · exact hlt.ne' heq

/-- A Data below a query is below it by its full name too, unless the query goes on after a digest. -/
theorem fullName_lt_iff_of_above (h : compareQueryWithData digest queryName data = .gt) :
    data.fullName digest < queryName ↔ ¬ BeforeByName digest queryName data := by
  refine ⟨fun hlt hbefore => hbefore.not_fullName_lt hlt, fun hnot => ?_⟩
  obtain ⟨hname, hlast⟩ := name_lt_of_above h
  by_cases hunder : data.name <+: queryName
  · obtain ⟨t, rfl⟩ := hunder
    rw [Data.fullName, Name.append_lt_append_iff]
    cases t with
    | nil =>
        rw [List.append_nil] at hname
        exact absurd hname (lt_irrefl _)
    | cons d rest =>
        rw [List.cons_lt_cons_iff]
        cases rest with
        | nil => exact Or.inl (hlast d rfl)
        | cons d' rest =>
            rcases lt_trichotomy (⟨true, digest data⟩ : Component) d with hlt | heq | hgt
            · exact Or.inl hlt
            · exact Or.inr ⟨heq, List.nil_lt_cons d' rest⟩
            · exact absurd ⟨d, d' :: rest, rfl, List.cons_ne_nil d' rest, hgt⟩ hnot
  · have hlt := Name.append_lt_append hname hunder [⟨true, digest data⟩] []
    rwa [List.append_nil] at hlt

theorem AfterByName.fullName_lt (h : AfterByName queryName data) : data.fullName digest < queryName := by
  obtain ⟨m, d, d', rfl, -, ⟨t, ht⟩, hlt⟩ := h
  rw [Data.fullName, ← ht, List.append_assoc, List.append_assoc, Name.append_lt_append_iff]
  exact List.cons_lt_cons_iff.mpr (Or.inl hlt)

theorem AfterByName.not_above (h : AfterByName queryName data) : compareQueryWithData digest queryName data ≠ .gt := by
  obtain ⟨m, d, d', rfl, hd, hunder, -⟩ := h
  have hlt := Name.lt_of_longer hunder
  rw [Ne, above_concat_iff hd, sortKey, Prod.Lex.toLex_lt_toLex]
  rintro (hgt | ⟨heq, -⟩)
  · exact lt_asymm hlt hgt
  · exact hlt.ne' heq

/-! ### The table -/

theorem orderedByFullName_of_plain {entries : List CsEntry} (hquery : Name.Plain queryName.dropLast)
    (hentries : ∀ e ∈ entries, e.data.name.Plain) : OrderedByFullName digest entries queryName where
  before := by
    rintro e - ⟨d, rest, rfl, hrest, hlt⟩
    have hd : d ∈ (e.data.name ++ d :: rest).dropLast := by
      rw [List.dropLast_append_of_ne_nil (List.cons_ne_nil d rest), List.dropLast_cons_of_ne_nil hrest]
      exact List.mem_append_right _ List.mem_cons_self
    exact lt_asymm hlt (Component.digest_lt rfl (hquery d hd))
  after := by
    rintro ⟨e, he, m, d, d', -, hd, hunder, hlt⟩
    have hd' : d' ∈ e.data.name := hunder.mem (List.mem_append_right m List.mem_cons_self)
    exact absurd hlt (lt_asymm (Component.digest_lt hd (hentries e he d' hd')))

namespace Table

theorem sorted_entries (t : Table digest) : Sorted digest t.entries :=
  t.sorted.imp stored_less_stored_iff.mp

/-- Every sorted list is the one of a table. -/
def ofList (table : List CsEntry) (h : Sorted digest table) : Table digest where
  tree := table.foldr (fun e tree => .node e .nil tree) .nil
  sorted := by
    have hinorder : SearchTree.inorder (table.foldr (fun e tree => BinaryTree.node e .nil tree) .nil) = table := by
      clear h
      induction table with
      | nil => rfl
      | cons e table ih => rw [List.foldr_cons, SearchTree.inorder, ih]; rfl
    rw [hinorder]
    exact h.imp stored_less_stored_iff.mpr

/-- The entries below a query come first. -/
theorem splits (t : Table digest) (queryName : Name) :
    Lists.Splits (fun e => EntryImpl.less digest (.stored e.data) (.query queryName)) t.entries :=
  t.sorted.imp fun hless habove => stored_less_query_iff.mpr
    (query_above_of_le (stored_less_stored_iff.mp hless).le (stored_less_query_iff.mp habove))

/-- The bound is where the model of the lookups has it. -/
theorem lowerBound_eq_getElem? (t : Table digest) (queryName : Name) :
    t.lowerBound queryName = t.entries[Cs.lowerBound digest t.entries queryName]? := by
  rw [lowerBound, SearchTree.lowerBound_eq_find? (t.splits queryName), ← entries, Cs.lowerBound]
  generalize t.entries = l
  induction l with
  | nil => rfl
  | cons e l ih =>
      rw [List.find?_cons, List.takeWhile_cons, EntryImpl.less]
      cases compareQueryWithData digest queryName e.data == .gt with
      | true => exact ih
      | false => rfl

/-- The first entry that is not below a query comes before all others. -/
theorem key_le_of_find? (t : Table digest)
    (hfind : (t.entries.find? fun e => !EntryImpl.less digest (.stored e.data) (.query queryName)) = some e)
    (he' : e' ∈ t.entries) (hnot : compareQueryWithData digest queryName e'.data ≠ .gt) :
    sortKey digest e.data ≤ sortKey digest e'.data := by
  have hnot' : (!EntryImpl.less digest (.stored e'.data) (.query queryName)) = true := by
    rwa [Bool.not_eq_true', ← Bool.not_eq_true, stored_less_query_iff]
  rcases Lists.find?_pairwise t.sorted_entries hfind he' hnot' with rfl | hlt
  · exact le_rfl
  · exact hlt.le

theorem not_above_of_find?
    {l : List CsEntry} (hfind : (l.find? fun e => !EntryImpl.less digest (.stored e.data) (.query queryName)) =
      some e) :
    compareQueryWithData digest queryName e.data ≠ .gt := by
  have hnot := List.find?_some hfind
  rwa [Bool.not_eq_true', ← Bool.not_eq_true, stored_less_query_iff] at hnot

end Table

/-- A Data that is not below a full name, and not after one that is after it by its name. -/
theorem AfterByName.of_key_le (h : AfterByName queryName b) (hle : sortKey digest a ≤ sortKey digest b)
    (hnot : compareQueryWithData digest queryName a ≠ .gt) :
    AfterByName queryName a ∨ ∃ d, queryName = a.name ++ [d] ∧ d ≤ ⟨true, digest a⟩ := by
  obtain ⟨m, d, d', rfl, hd, ⟨t', ht'⟩, hlt⟩ := h
  rw [Ne, above_concat_iff hd, not_lt, sortKey, Prod.Lex.toLex_le_toLex] at hnot
  rcases hnot with hmore | ⟨rfl, hge⟩
  · -- the names between the query's and the one that goes on after it go on after it too
    have hname : a.name ≤ m ++ [d'] ++ t' := ht' ▸ name_le_of_key_le hle
    have hunder : m <+: a.name := by
      rcases hname.eq_or_lt with heq | hbelow
      · exact heq ▸ (List.prefix_append m [d']).trans (List.prefix_append _ t')
      · exact Name.prefix_of_between ((List.prefix_append m [d']).trans (List.prefix_append _ t')) hmore hbelow
    obtain ⟨t, ht⟩ := hunder
    cases t with
    | nil =>
        rw [List.append_nil] at ht
        exact absurd ht hmore.ne
    | cons c t =>
        refine Or.inl ⟨m, d, c, rfl, hd, ⟨t, by rw [← ht, List.append_assoc]; rfl⟩, ?_⟩
        by_contra hge
        refine absurd hname (not_le.mpr ?_)
        rw [← ht, List.append_assoc, Name.append_lt_append_iff]
        exact List.cons_lt_cons_iff.mpr (Or.inl (hlt.trans_le (not_lt.mp hge)))
  · exact Or.inr ⟨d, rfl, hge⟩

namespace Table

/-- The first entry that is not below a query is not less than it by its full name, unless it is after it by its name
alone. -/
theorem first_not_fullName_lt_iff (t : Table digest) (queryName : Name) :
    (∀ e, (t.entries.find? fun e => !EntryImpl.less digest (.stored e.data) (.query queryName)) = some e →
        ¬ e.data.fullName digest < queryName) ↔
      ((∃ e ∈ t.entries, AfterByName queryName e.data) →
        ∃ e ∈ t.entries, ∃ d, queryName = e.data.name ++ [d] ∧ d ≤ ⟨true, digest e.data⟩) := by
  constructor
  · rintro hfirst ⟨e', he', hafter⟩
    have hsome : (t.entries.find? fun e => !EntryImpl.less digest (.stored e.data) (.query queryName)).isSome := by
      refine List.find?_isSome.mpr ⟨e', he', ?_⟩
      rw [Bool.not_eq_true', ← Bool.not_eq_true, stored_less_query_iff]
      exact hafter.not_above
    obtain ⟨e, hfind⟩ := Option.isSome_iff_exists.mp hsome
    have hle := t.key_le_of_find? hfind he' hafter.not_above
    refine ⟨e, List.mem_of_find?_eq_some hfind, (hafter.of_key_le hle (not_above_of_find? hfind)).resolve_left ?_⟩
    exact fun hafter' => hfirst e hfind hafter'.fullName_lt
  · intro hdigest e hfind hlt
    obtain ⟨m, d, d', rfl, hd, hunder, hd'⟩ := (above_or_of_fullName_lt hlt).resolve_left (not_above_of_find? hfind)
    obtain ⟨e', he', d'', heq, hge⟩ := hdigest ⟨e, List.mem_of_find?_eq_some hfind, m, d, d', rfl, hd, hunder, hd'⟩
    obtain ⟨rfl, hlast⟩ := List.append_inj' heq rfl
    rw [← (List.cons.inj hlast).1] at hge
    have hnot : compareQueryWithData digest (e'.data.name ++ [d]) e'.data ≠ .gt := by
      rw [Ne, above_concat_iff hd, not_lt, sortKey, Prod.Lex.toLex_le_toLex]
      exact Or.inr ⟨rfl, hge⟩
    exact absurd (Name.lt_of_longer hunder) (not_lt.mpr (name_le_of_key_le (t.key_le_of_find? hfind he' hnot)))

/-- `operator<` orders the Data by names and digests, and a query stands at one place among them, with the Data whose
full names it starts after it; a search for the place finds it in every tree of the Data. It is the place of the query
among the full names unless a stored Data is before or after the query by its name alone. -/
theorem lowerBound_fullName_iff (t : Table digest) (queryName : Name) :
    TotalOrder digest ∧
    (∃ lower upper, t.entries = lower ++ upper ∧
      (∀ e ∈ lower, EntryImpl.less digest (.stored e.data) (.query queryName) = true) ∧
      (∀ e ∈ upper, EntryImpl.less digest (.stored e.data) (.query queryName) = false) ∧
      ∀ e ∈ t.entries, queryName <+: e.data.fullName digest → e ∈ upper) ∧
    (t.lowerBound queryName =
      t.entries.find? fun e => !EntryImpl.less digest (.stored e.data) (.query queryName)) ∧
    (∀ t' : Table digest, t'.entries = t.entries → t'.lowerBound queryName = t.lowerBound queryName) ∧
    ((t.lowerBound queryName = t.entries.find? fun e => !decide (e.data.fullName digest < queryName)) ↔
      OrderedByFullName digest t.entries queryName) ∧
    (Name.Plain queryName.dropLast → (∀ e ∈ t.entries, e.data.name.Plain) →
      t.lowerBound queryName = t.entries.find? fun e => !decide (e.data.fullName digest < queryName)) := by
  have hfind := SearchTree.lowerBound_eq_find? (t.splits queryName)
  have hiff : (t.lowerBound queryName = t.entries.find? fun e => !decide (e.data.fullName digest < queryName)) ↔
      OrderedByFullName digest t.entries queryName := by
    rw [lowerBound, hfind, ← entries, SearchTree.find?_eq_find?_iff (t.splits queryName)]
    have hbefore : (∀ e ∈ t.entries, EntryImpl.less digest (.stored e.data) (.query queryName) = true →
        decide (e.data.fullName digest < queryName) = true) ↔
          ∀ e ∈ t.entries, ¬ BeforeByName digest queryName e.data := by
      refine forall₂_congr fun e _ => ?_
      rw [stored_less_query_iff, decide_eq_true_iff]
      exact ⟨fun h hby => hby.not_fullName_lt (h hby.above), fun hnot h => (fullName_lt_iff_of_above h).mpr hnot⟩
    rw [hbefore]
    simp only [decide_eq_false_iff_not]
    rw [t.first_not_fullName_lt_iff queryName]
    exact ⟨fun h => ⟨h.1, h.2⟩, fun h => ⟨h.before, h.after⟩⟩
  refine ⟨totalOrder digest, ?_, hfind, fun t' hsame => ?_, hiff, fun hquery hentries =>
    hiff.mpr (orderedByFullName_of_plain hquery hentries)⟩
  · have hsplit := t.splits queryName
    refine ⟨_, _, List.takeWhile_append_dropWhile.symm, fun e he => (hsplit.mem_takeWhile_iff.mp he).2,
      fun e he => (hsplit.mem_dropWhile_iff.mp he).2, fun e he hstarts => hsplit.mem_dropWhile_iff.mpr ⟨he, ?_⟩⟩
    exact Bool.eq_false_iff.mpr fun hless => not_above_of_starts hstarts (stored_less_query_iff.mp hless)
  · exact SearchTree.lowerBound_congr (t.splits queryName) hsame

/-- A table of one Data, with a digest of 32 ones. -/
def ofName (name : Name) : Table contentDigest :=
  ofList [⟨{ plainData name with content := List.replicate 32 1 }, false, none⟩] (List.pairwise_singleton _ _)

/-- The bound of `/A/<32 zeros>/B` is after the Data `/A`, and the one of `/A/<32 ones>` before the Data
`/A/<32 zeros>/B`. The full names are the other way round. -/
theorem lowerBound_not_first_fullName :
    ((ofName [.ofByte 65]).lowerBound [.ofByte 65, digestOf 0, .ofByte 66] ≠
      (ofName [.ofByte 65]).entries.find? fun e =>
        !decide (e.data.fullName contentDigest < [.ofByte 65, digestOf 0, .ofByte 66])) ∧
    (ofName [.ofByte 65, digestOf 0, .ofByte 66]).lowerBound [.ofByte 65, digestOf 1] ≠
      (ofName [.ofByte 65, digestOf 0, .ofByte 66]).entries.find? fun e =>
        !decide (e.data.fullName contentDigest < [.ofByte 65, digestOf 1]) := by
  decide +kernel

end Table
end NfdPitless.Cs
