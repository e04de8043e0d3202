import NfdPitless.Cs

/-! The table of the content store is a set sorted by name and digest, and a lookup reads the part of it
between two bounds. Nothing the store does breaks the order, and a Data between the bounds that matches an
Interest is not missed. -/

namespace NfdPitless.Cs

variable {π : Type} {digest : Data → List UInt8} {getSuccessor : Name → Name} {matchesData : MatchesData}
  {table : List CsEntry} {a b : Data} {queryName m : Name} {d : Component}

/-- The key that the table is sorted by. -/
def sortKey (digest : Data → List UInt8) (d : Data) : Name ×ₗ Component := toLex (d.name, ⟨true, digest d⟩)

theorem sortKey_lt_iff : sortKey digest a < sortKey digest b ↔
    a.name < b.name ∨ a.name = b.name ∧ (⟨true, digest a⟩ : Component) < ⟨true, digest b⟩ :=
  Prod.Lex.toLex_lt_toLex

theorem sortKey_eq_iff : sortKey digest a = sortKey digest b ↔ a.fullName digest = b.fullName digest := by
  constructor
  · intro h
    have hpair := Prod.mk.inj (toLex.injective h)
    rw [Data.fullName, Data.fullName, hpair.1, hpair.2]
  · intro h
    obtain ⟨hname, hdigest⟩ := List.append_inj' h rfl
    rw [sortKey, sortKey, hname, (List.cons.inj hdigest).1]

theorem compareDataWithData_lt_iff :
    compareDataWithData digest a b = .lt ↔ sortKey digest a < sortKey digest b := by
  rw [compareDataWithData, Ordering.then_eq_lt, Name.compare_lt_iff, Name.compare_eq_iff, compare_lt_iff_lt,
    sortKey_lt_iff]

theorem compareDataWithData_eq_iff :
    compareDataWithData digest a b = .eq ↔ sortKey digest a = sortKey digest b := by
  rw [compareDataWithData, Ordering.then_eq_eq, Name.compare_eq_iff, compare_eq_iff_eq, sortKey, sortKey,
    toLex.injective.eq_iff, Prod.mk.injEq]

/-- `queryIsFullName`: the query ends in an implicit digest. -/
def IsFullName (queryName : Name) : Prop := queryName.getLast?.any Component.isImplicitSha256Digest = true

instance : Decidable (IsFullName queryName) := inferInstanceAs (Decidable (_ = true))

theorem isFullName_concat_iff : IsFullName (m ++ [d]) ↔ d.isImplicitSha256Digest = true := by
  rw [IsFullName, List.getLast?_concat, Option.any_some]

theorem exists_of_isFullName (h : IsFullName m) : ∃ n d, m = n ++ [d] ∧ d.isImplicitSha256Digest = true := by
  obtain ⟨d, hlast, hd⟩ := (Option.any_eq_true _ _).mp h
  exact ⟨m.dropLast, d, (List.dropLast_append_getLast? d hlast).symm, hd⟩

theorem compareQueryWithData_concat (hd : d.isImplicitSha256Digest = true) :
    compareQueryWithData digest (m ++ [d]) a = (compare m a.name).then (compare d ⟨true, digest a⟩) := by
  rw [compareQueryWithData, List.getLast?_concat]
  dsimp only
  rw [if_pos hd, List.dropLast_concat]

theorem compareQueryWithData_of_not_isFullName (h : ¬ IsFullName queryName) :
    compareQueryWithData digest queryName a = (compare queryName a.name).then .lt := by
  rw [compareQueryWithData]
  split
  · rename_i last hlast
    rw [IsFullName, hlast, Option.any_some] at h
    rw [if_neg h]
  · rfl

/-- A full name is compared with names and digests. -/
theorem above_concat_iff (hd : d.isImplicitSha256Digest = true) :
    compareQueryWithData digest (m ++ [d]) a = .gt ↔ sortKey digest a < toLex (m, d) := by
  rw [compareQueryWithData_concat hd, Ordering.then_eq_gt, Name.compare_gt_iff, Name.compare_eq_iff, compare_gt_iff_gt,
    sortKey, Prod.Lex.toLex_lt_toLex]
  exact or_congr_right (and_congr_left' eq_comm)

/-- Another query is compared with names only. -/
theorem above_iff (h : ¬ IsFullName queryName) :
    compareQueryWithData digest queryName a = .gt ↔ a.name < queryName := by
  rw [compareQueryWithData_of_not_isFullName h, Ordering.then_eq_gt, Name.compare_gt_iff]
  exact or_iff_left fun h => Ordering.noConfusion h.2

theorem name_le_of_key_le (h : sortKey digest a ≤ sortKey digest b) : a.name ≤ b.name :=
  (Prod.Lex.toLex_le_toLex.mp h).elim le_of_lt fun h => h.1.le

/-- A query that is above a Data is above all that come before it. -/
theorem query_above_of_le (hle : sortKey digest a ≤ sortKey digest b)
    (h : compareQueryWithData digest queryName b = .gt) : compareQueryWithData digest queryName a = .gt := by
  by_cases hfull : IsFullName queryName
  · obtain ⟨m, d, rfl, hd⟩ := exists_of_isFullName hfull
    rw [above_concat_iff hd] at h ⊢
    exact hle.trans_lt h
  · rw [above_iff hfull] at h ⊢
    exact (name_le_of_key_le hle).trans_lt h

/-- A query is not above a Data that is named under it. -/
theorem not_above_of_under (h : queryName <+: a.name) : compareQueryWithData digest queryName a ≠ .gt := by
  by_cases hfull : IsFullName queryName
  · obtain ⟨m, d, rfl, hd⟩ := exists_of_isFullName hfull
    rw [Ne, above_concat_iff hd, not_lt, sortKey, Prod.Lex.toLex_le_toLex]
    exact Or.inl (Name.lt_of_longer h)
  · rw [Ne, above_iff hfull, not_lt]
    exact Name.le_of_prefix h

/-- Nor above one whose full name it starts. -/
theorem not_above_of_starts (h : queryName <+: a.fullName digest) : compareQueryWithData digest queryName a ≠ .gt := by
  rcases List.prefix_concat_iff.mp h with rfl | hunder
  · rw [Ne, above_concat_iff rfl]
    exact lt_irrefl (sortKey digest a)
  · exact not_above_of_under hunder

/-- The table is sorted, without duplicates. -/
def Sorted (digest : Data → List UInt8) (table : List CsEntry) : Prop :=
  table.Pairwise fun x y => sortKey digest x.data < sortKey digest y.data

theorem mem_tableInsert {e x : CsEntry} (h : x ∈ (tableInsert digest e table).1) : x = e ∨ x ∈ table := by
  induction table with
  | nil => exact Or.inl (List.mem_singleton.mp h)
  | cons y table ih =>
      rw [tableInsert] at h
      split at h
      · exact List.mem_cons.mp h
      · exact Or.inr h
      · rcases List.mem_cons.mp h with rfl | hrest
        · exact Or.inr List.mem_cons_self
        · exact (ih hrest).imp_right (List.mem_cons_of_mem y)

theorem Sorted.tableInsert (h : Sorted digest table) (e : CsEntry) :
    Sorted digest (tableInsert digest e table).1 := by
  induction table with
  | nil => exact List.pairwise_singleton _ e
  | cons y table ih =>
      obtain ⟨hhead, htail⟩ := List.pairwise_cons.mp h
      rw [Cs.tableInsert]
      cases hcmp : compareDataWithData digest e.data y.data with
      | lt =>
          have hlt := compareDataWithData_lt_iff.mp hcmp
          refine List.pairwise_cons.mpr ⟨fun x hx => ?_, h⟩
          rcases List.mem_cons.mp hx with rfl | hrest
          · exact hlt
          · exact hlt.trans (hhead x hrest)
      | eq => exact h
      | gt =>
          refine List.pairwise_cons.mpr ⟨fun x hx => ?_, ih htail⟩
          rcases mem_tableInsert hx with rfl | hold
          · rcases lt_trichotomy (sortKey digest y.data) (sortKey digest x.data) with hlt | heq | hgt
            · exact hlt
            · rw [compareDataWithData_eq_iff.mpr heq.symm] at hcmp
              cases hcmp
            · rw [compareDataWithData_lt_iff.mpr hgt] at hcmp
              cases hcmp
          · exact hhead x hold

theorem Sorted.tableSet (h : Sorted digest table) (e : CsEntry) : Sorted digest (tableSet digest e table) := by
  have hkey : ∀ x : CsEntry, sortKey digest (if x.data.fullName digest = e.data.fullName digest then e else x).data =
      sortKey digest x.data := by
    intro x
    split
    · rename_i heq
      exact (sortKey_eq_iff.mpr heq).symm
    · rfl
  rw [Sorted, Cs.tableSet, List.pairwise_map]
  refine h.imp fun {x y} hlt => ?_
  rwa [hkey, hkey]

theorem Sorted.insert {cs : Cs π} (h : Sorted digest cs.table) (policy : CsPolicy π) (now : Nat) (data : Data)
    (isUnsolicited : Bool) : Sorted digest (insert digest policy cs now data isUnsolicited).table := by
  unfold Cs.insert
  split
  · exact h
  · dsimp only
    split
    · exact ((h.tableInsert _).tableSet _).filter _
    · exact (h.tableInsert _).tableSet _

theorem find_table (policy : CsPolicy π) (cs : Cs π) (now : Nat) (interest : Interest) :
    (find digest getSuccessor matchesData policy cs now interest).1.table = cs.table := by
  unfold find
  dsimp only
  split <;> rfl

theorem lowerBound_le_of_not_above {i : Nat} {e : CsEntry} (hi : table[i]? = some e)
    (h : compareQueryWithData digest queryName e.data ≠ .gt) : lowerBound digest table queryName ≤ i := by
  induction table generalizing i with
  | nil => simp at hi
  | cons x table ih =>
      rw [lowerBound, List.takeWhile_cons]
      split
      · rename_i hx
        cases i with
        | zero =>
            rw [List.getElem?_cons_zero, Option.some.injEq] at hi
            exact absurd (beq_iff_eq.mp hx) (hi ▸ h)
        | succ i =>
            rw [List.length_cons]
            exact Nat.succ_le_succ (ih hi)
      · exact Nat.zero_le i

theorem Sorted.lt_lowerBound_of_above (h : Sorted digest table) {i : Nat} {e : CsEntry} (hi : table[i]? = some e)
    (habove : compareQueryWithData digest queryName e.data = .gt) : i < lowerBound digest table queryName := by
  induction table generalizing i with
  | nil => simp at hi
  | cons x table ih =>
      obtain ⟨hhead, htail⟩ := List.pairwise_cons.mp h
      rw [lowerBound, List.takeWhile_cons]
      cases i with
      | zero =>
          rw [List.getElem?_cons_zero, Option.some.injEq] at hi
          rw [hi, habove]
          exact Nat.succ_pos _
      | succ i =>
          rw [List.getElem?_cons_succ] at hi
          have hmem := List.mem_of_getElem? hi
          rw [query_above_of_le (hhead e hmem).le habove]
          exact Nat.succ_lt_succ (ih htail hi)

theorem mem_slice {i first last : Nat} {e : CsEntry} (hi : table[i]? = some e) (hfirst : first ≤ i)
    (hlast : i < last) : (i, e) ∈ slice table first last := by
  obtain ⟨hlt, rfl⟩ := List.getElem?_eq_some_iff.mp hi
  rw [slice, List.mem_filter]
  refine ⟨List.mem_iff_getElem.mpr ⟨i, by simpa using hlt, by simp⟩, by simp [hfirst, hlast]⟩

/-- An entry between the bounds of a lookup is among those it reads. -/
theorem Sorted.mem_slice_of_bounds (h : Sorted digest table) {name : Name} {e : CsEntry} (he : e ∈ table)
    (hfirst : compareQueryWithData digest name e.data ≠ .gt)
    (hlast : name ≠ [] → compareQueryWithData digest (getSuccessor name) e.data = .gt) :
    ∃ i, (i, e) ∈ slice table (lowerBound digest table name)
      (if name.length > 0 then lowerBound digest table (getSuccessor name) else table.length) := by
  obtain ⟨i, hi⟩ := List.mem_iff_getElem?.mp he
  refine ⟨i, mem_slice hi (lowerBound_le_of_not_above hi hfirst) ?_⟩
  split
  · rename_i hpos
    exact h.lt_lowerBound_of_above hi (hlast (List.ne_nil_of_length_pos hpos))
  · exact (List.getElem?_eq_some_iff.mp hi).1

theorem mem_of_mem_slice {first last : Nat} {p : Nat × CsEntry} (h : p ∈ slice table first last) :
    p.2 ∈ table :=
  (List.of_mem_zip (List.mem_filter.mp h).1).2

theorem findLeftmost_mem {now first last : Nat} {interest : Interest} {found : Nat × CsEntry}
    (h : findLeftmost matchesData table now interest first last = some found) : found.2 ∈ table :=
  mem_of_mem_slice (List.mem_of_find?_eq_some h)

theorem findRightmost_mem {now first : Nat} {interest : Interest} {found : Nat × CsEntry} (fuel : Nat) :
    ∀ {right}, findRightmost digest matchesData table now interest first fuel right = some found →
      found.2 ∈ table := by
  induction fuel with
  | zero => exact fun h => by cases h
  | succ fuel ih =>
      intro right h
      rw [findRightmost] at h
      split at h
      · cases h
      · split at h
        · cases h
        · split at h
          · exact mem_of_mem_slice (List.mem_reverse.mp (List.mem_of_find?_eq_some h))
          · dsimp only at h
            split at h
            · rename_i hleft
              cases h
              exact findLeftmost_mem hleft
            · exact ih h

/-- A hit is an entry of the table that can satisfy the Interest. -/
theorem find_some {policy : CsPolicy π} {cs : Cs π} {now : Nat} {interest : Interest} {data : Data}
    (h : (find digest getSuccessor matchesData policy cs now interest).2 = some data) :
    ∃ e ∈ cs.table, e.data = data ∧ e.canSatisfy matchesData now interest = true := by
  unfold find at h
  dsimp only at h
  split at h
  · cases h
  · rename_i p hfound
    cases h
    split at hfound
    · exact ⟨p.2, findRightmost_mem _ hfound, rfl, findRightmost_satisfies _ hfound⟩
    · exact ⟨p.2, findLeftmost_mem hfound, rfl, findLeftmost_satisfies hfound⟩

end NfdPitless.Cs
