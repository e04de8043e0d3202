import NfdPitless.CsLookup
import NfdPitless.Lists
import NfdPitless.NameSuccessor

/-! The loop of `Cs::findRightmost` as it runs on iterators, with the entries that it reads. `std::prev` of the first
entry of the table has no value, so a run of the loop that goes past the beginning has no result. What `lower_bound`
compares on its way through the whole table is not counted as read. -/

namespace NfdPitless.Cs

variable {digest : Data → List UInt8} {matchesData : MatchesData} {table : List CsEntry} {queryName n m : Name}
  {data : Data} {d : Component} {now : Nat} {interest : Interest} {first last right left i j : Nat} {e e' : CsEntry}

theorem Sorted.lt_lowerBound_iff (h : Sorted digest table) (hi : table[i]? = some e) :
    i < lowerBound digest table queryName ↔ compareQueryWithData digest queryName e.data = .gt := by
  refine ⟨fun hlt => ?_, h.lt_lowerBound_of_above hi⟩
  by_contra habove
  exact absurd hlt (not_lt.mpr (lowerBound_le_of_not_above hi habove))

theorem Sorted.lowerBound_le_iff (h : Sorted digest table) (hi : table[i]? = some e) :
    lowerBound digest table queryName ≤ i ↔ compareQueryWithData digest queryName e.data ≠ .gt := by
  rw [← not_lt, h.lt_lowerBound_iff hi]

theorem lowerBound_le_length : lowerBound digest table queryName ≤ table.length :=
  (List.takeWhile_sublist _).length_le

theorem Sorted.key_lt_iff (h : Sorted digest table) (hi : table[i]? = some e) (hj : table[j]? = some e') :
    sortKey digest e.data < sortKey digest e'.data ↔ i < j := by
  have hrel : ∀ {i j : Nat} {e e' : CsEntry}, table[i]? = some e → table[j]? = some e' → i < j →
      sortKey digest e.data < sortKey digest e'.data := by
    intro i j e e' hi hj hlt
    obtain ⟨hilt, rfl⟩ := List.getElem?_eq_some_iff.mp hi
    obtain ⟨hjlt, rfl⟩ := List.getElem?_eq_some_iff.mp hj
    exact List.pairwise_iff_getElem.mp h i j hilt hjlt hlt
  refine ⟨fun hkey => ?_, hrel hi hj⟩
  rcases lt_trichotomy i j with hlt | rfl | hgt
  · exact hlt
  · rw [hi] at hj
    cases hj
    exact absurd hkey (lt_irrefl _)
  · exact absurd hkey (lt_asymm (hrel hj hi hgt))

theorem mem_slice_iff {p : Nat × CsEntry} :
    p ∈ slice table first last ↔ table[p.1]? = some p.2 ∧ first ≤ p.1 ∧ p.1 < last := by
  obtain ⟨i, e⟩ := p
  refine ⟨fun h => ?_, fun ⟨hi, hfirst, hlast⟩ => mem_slice hi hfirst hlast⟩
  rw [slice, List.mem_filter] at h
  obtain ⟨hmem, hbounds⟩ := h
  rw [Bool.and_eq_true, decide_eq_true_iff, decide_eq_true_iff] at hbounds
  obtain ⟨k, hk, hget⟩ := List.mem_iff_getElem.mp hmem
  rw [List.getElem_zip, List.getElem_range, Prod.mk.injEq] at hget
  refine ⟨?_, hbounds⟩
  obtain ⟨rfl, rfl⟩ := hget
  exact List.getElem?_eq_getElem _

theorem slice_pairwise_position : (slice table first last).Pairwise fun p q => p.1 < q.1 := by
  refine List.Pairwise.filter _ ?_
  have hrange : ((List.range table.length).zip table).map Prod.fst = List.range table.length :=
    List.map_fst_zip (List.length_range (n := table.length)).le
  rw [← List.pairwise_map (f := Prod.fst) (R := fun i j : Nat => i < j), hrange]
  exact List.pairwise_lt_range

theorem findLeftmost_eq_some {p : Nat × CsEntry} (h : findLeftmost matchesData table now interest first last = some p) :
    p ∈ slice table first last ∧ p.2.canSatisfy matchesData now interest = true ∧
      ∀ q ∈ slice table first last, q.2.canSatisfy matchesData now interest = true → p.1 ≤ q.1 := by
  refine ⟨List.mem_of_find?_eq_some h, findLeftmost_satisfies h, fun q hq hsat => ?_⟩
  rcases Lists.find?_pairwise slice_pairwise_position h hq hsat with rfl | hlt
  · exact le_rfl
  · exact hlt.le

theorem findLeftmost_eq_none (h : findLeftmost matchesData table now interest first last = none) :
    ∀ q ∈ slice table first last, q.2.canSatisfy matchesData now interest ≠ true :=
  List.find?_eq_none.mp h

theorem findRightmostAmongExact_eq_some {p : Nat × CsEntry}
    (h : findRightmostAmongExact matchesData table now interest first last = some p) :
    p ∈ slice table first last ∧ p.2.canSatisfy matchesData now interest = true ∧
      ∀ q ∈ slice table first last, q.2.canSatisfy matchesData now interest = true → q.1 ≤ p.1 := by
  rw [findRightmostAmongExact] at h
  have hsat := List.find?_some h
  refine ⟨List.mem_reverse.mp (List.mem_of_find?_eq_some h), hsat, fun q hq hsat => ?_⟩
  rcases Lists.find?_pairwise (List.pairwise_reverse.mpr slice_pairwise_position) h (List.mem_reverse.mpr hq) hsat
    with rfl | hlt
  · exact le_rfl
  · exact hlt.le

theorem findRightmostAmongExact_eq_none (h : findRightmostAmongExact matchesData table now interest first last = none) :
    ∀ q ∈ slice table first last, q.2.canSatisfy matchesData now interest ≠ true :=
  fun q hq => List.find?_eq_none.mp h q (List.mem_reverse.mpr hq)

/-- The positions that a search reads: up to the first entry that is accepted. -/
def readsUntil (accepts : CsEntry → Bool) : List (Nat × CsEntry) → List Nat
  | [] => []
  | p :: l => p.1 :: if accepts p.2 then [] else readsUntil accepts l

theorem mem_of_mem_readsUntil {accepts : CsEntry → Bool} {l : List (Nat × CsEntry)} (h : i ∈ readsUntil accepts l) :
    ∃ e, (i, e) ∈ l := by
  induction l with
  | nil => cases h
  | cons p l ih =>
      rcases List.mem_cons.mp h with rfl | hrest
      · exact ⟨p.2, List.mem_cons_self⟩
      · split at hrest
        · cases hrest
        · obtain ⟨e, he⟩ := ih hrest
          exact ⟨e, List.mem_cons_of_mem p he⟩

/-- A search of a part of the table that is not empty reads its first entry. -/
theorem left_mem_readsUntil {accepts : CsEntry → Bool} (hleft : left < right) (hright : right ≤ table.length) :
    left ∈ readsUntil accepts (slice table left right) := by
  have hmem := mem_slice (List.getElem?_eq_getElem (hleft.trans_le hright)) le_rfl hleft
  have hpairwise : (slice table left right).Pairwise fun p q => p.1 < q.1 := slice_pairwise_position
  have hge : ∀ p ∈ slice table left right, left ≤ p.1 := fun p hp => (mem_slice_iff.mp hp).2.1
  cases hslice : slice table left right with
  | nil =>
      rw [hslice] at hmem
      cases hmem
  | cons p l =>
      rw [hslice] at hmem hpairwise hge
      have hfirst : p.1 = left := by
        rcases List.mem_cons.mp hmem with heq | hrest
        · rw [← heq]
        · exact absurd (hge p List.mem_cons_self) (not_le.mpr (List.rel_of_pairwise_cons hpairwise hrest))
      rw [readsUntil, hfirst]
      exact List.mem_cons_self

/-- What a round of the loop ends in. -/
inductive Round where
  | returns (found : Option (Nat × CsEntry))
  | continues (right : Nat)
  deriving DecidableEq

/-- A match under the prefix is returned; without one the loop goes on to the left of it. -/
def Round.of (left : Nat) : Option (Nat × CsEntry) → Round
  | some found => .returns (some found)
  | none => .continues left

variable (digest matchesData table now interest first) in
/-- The body of the loop: the positions that it reads, and what it ends in. -/
def round : Nat → Option (List Nat × Round)
  | 0 => none
  | prev + 1 => (table[prev]?).map fun prevEntry =>
      let accepts := CsEntry.canSatisfy matchesData now interest
      if prevEntry.data.name.length = interest.name.length then
        (prev :: readsUntil accepts (slice table first (prev + 1)).reverse,
          .returns (findRightmostAmongExact matchesData table now interest first (prev + 1)))
      else
        let left := lowerBound digest table (prevEntry.data.name.getPrefix (interest.name.length + 1))
        (prev :: readsUntil accepts (slice table left (prev + 1)),
          .of left (findLeftmost matchesData table now interest left (prev + 1)))

variable (digest matchesData table now interest first) in
/-- The loop from `right` on comes to its end, having read the entries at some positions, with a result. -/
inductive Loop : Nat → List Nat → Option (Nat × CsEntry) → Prop
  | stop : Loop first [] none
  | returns {right : Nat} {reads : List Nat} {found : Option (Nat × CsEntry)} : right ≠ first →
      round digest matchesData table now interest first right = some (reads, .returns found) → Loop right reads found
  | continues {right left : Nat} {reads reads' : List Nat} {found : Option (Nat × CsEntry)} : right ≠ first →
      round digest matchesData table now interest first right = some (reads, .continues left) → Loop left reads' found →
      Loop right (reads ++ reads') found

/-- A round that reads something is one of an entry before `right`. -/
theorem round_eq_some {reads : List Nat} {result : Round}
    (h : round digest matchesData table now interest first right = some (reads, result)) :
    ∃ prev prevEntry, right = prev + 1 ∧ table[prev]? = some prevEntry ∧
      ((prevEntry.data.name.length = interest.name.length ∧
          reads = prev :: readsUntil (CsEntry.canSatisfy matchesData now interest) (slice table first right).reverse ∧
          result = .returns (findRightmostAmongExact matchesData table now interest first right)) ∨
        (prevEntry.data.name.length ≠ interest.name.length ∧
          ∃ left, left = lowerBound digest table (prevEntry.data.name.getPrefix (interest.name.length + 1)) ∧
            reads = prev :: readsUntil (CsEntry.canSatisfy matchesData now interest) (slice table left right) ∧
            result = .of left (findLeftmost matchesData table now interest left right))) := by
  cases right with
  | zero => cases h
  | succ prev =>
      obtain ⟨prevEntry, hprev, hbody⟩ := Option.map_eq_some_iff.mp h
      refine ⟨prev, prevEntry, rfl, hprev, ?_⟩
      dsimp only at hbody
      split at hbody
      · rename_i hlength
        obtain ⟨hreads, hresult⟩ := Prod.mk.inj hbody
        exact Or.inl ⟨hlength, hreads.symm, hresult.symm⟩
      · rename_i hlength
        obtain ⟨hreads, hresult⟩ := Prod.mk.inj hbody
        exact Or.inr ⟨hlength, _, rfl, hreads.symm, hresult.symm⟩

/-- The loop moves to the left. -/
theorem left_le_prev (hi : table[i]? = some e) (k : Nat) : lowerBound digest table (e.data.name.getPrefix k) ≤ i :=
  lowerBound_le_of_not_above hi (not_above_of_under (List.take_prefix k e.data.name))

/-- A run that comes to its end is one of the search by fuel. -/
theorem Loop.findRightmost {reads : List Nat} {found : Option (Nat × CsEntry)}
    (h : Loop digest matchesData table now interest first right reads found) {fuel : Nat} (hfuel : right < fuel) :
    findRightmost digest matchesData table now interest first fuel right = found := by
  induction h generalizing fuel with
  | stop =>
      obtain ⟨fuel, rfl⟩ := Nat.exists_eq_add_one_of_ne_zero (Nat.ne_zero_of_lt hfuel)
      rw [Cs.findRightmost, if_pos rfl]
  | returns hne hround =>
      obtain ⟨fuel, rfl⟩ := Nat.exists_eq_add_one_of_ne_zero (Nat.ne_zero_of_lt hfuel)
      obtain ⟨prev, prevEntry, rfl, hprev, ⟨hlength, -, hresult⟩ | ⟨hlength, left, rfl, -, hresult⟩⟩ :=
        round_eq_some hround
      · rw [Cs.findRightmost, if_neg hne, Nat.add_sub_cancel, hprev]
        dsimp only
        rw [if_pos hlength]
        exact (Round.returns.inj hresult).symm
      · rw [Cs.findRightmost, if_neg hne, Nat.add_sub_cancel, hprev]
        dsimp only
        rw [if_neg hlength]
        cases hfound : findLeftmost matchesData table now interest
            (lowerBound digest table (prevEntry.data.name.getPrefix (interest.name.length + 1))) (prev + 1) with
        | some p =>
            rw [hfound] at hresult
            exact (Round.returns.inj hresult).symm
        | none =>
            rw [hfound] at hresult
            cases hresult
  | continues hne hround _ ih =>
      obtain ⟨fuel, rfl⟩ := Nat.exists_eq_add_one_of_ne_zero (Nat.ne_zero_of_lt hfuel)
      obtain ⟨prev, prevEntry, rfl, hprev, ⟨hlength, -, hresult⟩ | ⟨hlength, left, rfl, -, hresult⟩⟩ :=
        round_eq_some hround
      · cases hresult
      · rw [Cs.findRightmost, if_neg hne, Nat.add_sub_cancel, hprev]
        dsimp only
        rw [if_neg hlength]
        cases hfound : findLeftmost matchesData table now interest
            (lowerBound digest table (prevEntry.data.name.getPrefix (interest.name.length + 1))) (prev + 1) with
        | some p =>
            rw [hfound] at hresult
            cases hresult
        | none =>
            rw [hfound] at hresult
            cases hresult
            exact ih ((left_le_prev hprev _).trans_lt (Nat.lt_of_succ_lt_succ hfuel))

/-- The loop comes to one end at most. -/
theorem Loop.unique {reads reads' : List Nat} {found found' : Option (Nat × CsEntry)}
    (h : Loop digest matchesData table now interest first right reads found)
    (h' : Loop digest matchesData table now interest first right reads' found') : reads = reads' ∧ found = found' := by
  induction h generalizing reads' found' with
  | stop =>
      cases h' with
      | stop => exact ⟨rfl, rfl⟩
      | returns hne => exact absurd rfl hne
      | continues hne => exact absurd rfl hne
  | returns hne hround =>
      cases h' with
      | stop => exact absurd rfl hne
      | returns _ hround' =>
          rw [hround] at hround'
          cases hround'
          exact ⟨rfl, rfl⟩
      | continues _ hround' =>
          rw [hround] at hround'
          cases hround'
  | continues hne hround _ ih =>
      cases h' with
      | stop => exact absurd rfl hne
      | returns _ hround' =>
          rw [hround] at hround'
          cases hround'
      | continues _ hround' hrest =>
          rw [hround] at hround'
          cases hround'
          obtain ⟨rfl, rfl⟩ := ih hrest
          exact ⟨rfl, rfl⟩

end NfdPitless.Cs
