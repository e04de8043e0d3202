import NfdPitless.CsLeftmost
import NfdPitless.CsRightmostLoop
import Mathlib.Order.Bounds.Basic

/-! What `Cs::findRightmost` returns. It goes back through the range, from one prefix that is one component longer than
the Interest's name to the one before, and finds where the entries of the prefix begin with a query for the prefix. A
query that ends in an implicit digest is taken for a full name, which is not where they begin; and an Interest for a
full name has no Data of its length. -/

namespace NfdPitless

namespace Name

variable {n m x y : Name} {c c' : Component}

theorem eq_or_longer (h : n <+: x) : x = n ∨ ∃ c, n ++ [c] <+: x := by
  obtain ⟨t, rfl⟩ := h
  cases t with
  | nil => exact Or.inl (List.append_nil n)
  | cons c t => exact Or.inr ⟨c, t, by rw [List.append_assoc]; rfl⟩

theorem longer_unique (h : n ++ [c] <+: x) (h' : n ++ [c'] <+: x) : c = c' := by
  obtain ⟨t, rfl⟩ := h
  obtain ⟨t', heq⟩ := h'
  rw [List.append_assoc, List.append_assoc] at heq
  exact (List.cons.inj (List.append_cancel_left heq)).1.symm

theorem not_longer_self : ¬ n ++ [c] <+: n := fun h => (lt_of_longer h).false

theorem longer_lt_longer (h : n ++ [c] <+: x) (h' : n ++ [c'] <+: y) (hlt : c < c') : x < y := by
  obtain ⟨t, rfl⟩ := h
  obtain ⟨t', rfl⟩ := h'
  rw [List.append_assoc, List.append_assoc, append_lt_append_iff]
  exact List.cons_lt_cons_iff.mpr (Or.inl hlt)

/-- The prefixes are in the order of the names under them. -/
theorem longer_le_of_le (h : n ++ [c] <+: x) (h' : n ++ [c'] <+: y) (hle : x ≤ y) : c ≤ c' := by
  by_contra hlt
  exact absurd hle (not_le.mpr (longer_lt_longer h' h (not_le.mp hlt)))

theorem getPrefix_of_longer (h : n ++ [c] <+: x) : x.getPrefix (n.length + 1) = n ++ [c] := by
  obtain ⟨t, rfl⟩ := h
  rw [getPrefix, List.take_append_of_le_length (by simp), List.take_of_length_le (by simp)]

end Name

namespace Cs

variable {digest : Data → List UInt8} {getSuccessor : Name → Name} {matchesData : MatchesData} {table : List CsEntry}
  {now : Nat} {interest : Interest} {first last right left i j : Nat} {n : Name} {c d : Component} {e x y : CsEntry}

section Range

variable (digest getSuccessor table interest)

/-- `first` in `Cs::find`. -/
def lookupFirst : Nat := lowerBound digest table interest.name

/-- `last` in `Cs::find`. -/
def lookupLast : Nat :=
  if interest.name.length > 0 then lowerBound digest table (getSuccessor interest.name) else table.length

end Range

variable (digest getSuccessor table interest) in
theorem lookupLast_le_length : lookupLast digest getSuccessor table interest ≤ table.length := by
  rw [lookupLast]
  split
  · exact lowerBound_le_length
  · exact le_rfl

/-- Of `getSuccessor` it is assumed that it gives the least name after a prefix. -/
theorem successor_eq (hsucc : ∀ n : Name, n ≠ [] → IsLeast {m | ∀ n', n <+: n' → n' < m} (getSuccessor n))
    (hn : n ≠ []) : getSuccessor n = successorName n := (hsucc n hn).unique (successorName_isLeast hn)

/-- The names with a prefix are those from it up to its successor. -/
theorem prefix_iff_between {n x : Name} (hn : n ≠ []) : n <+: x ↔ n ≤ x ∧ x < successorName n := by
  obtain ⟨habove, hleast⟩ := successorName_isLeast hn
  constructor
  · intro hunder
    exact ⟨Name.le_of_prefix hunder, habove x hunder⟩
  · rintro ⟨hle, hlt⟩
    rcases hle.eq_or_lt with rfl | hlt'
    · exact List.prefix_refl n
    · have hnot : ¬ ∀ n', n <+: n' → n' < x := fun hall => absurd hlt (not_lt.mpr (hleast hall))
      push Not at hnot
      obtain ⟨n', hunder, hle⟩ := hnot
      rcases hle.eq_or_lt with rfl | hbefore
      · exact hunder
      · exact Name.prefix_of_between hunder hlt' hbefore

theorem isFullName_successorName (hn : n ≠ []) : IsFullName (successorName n) ↔ IsFullName n := by
  obtain ⟨m, c, rfl⟩ := (List.eq_nil_or_concat' n).resolve_left hn
  obtain ⟨c', hsucc, -, htype⟩ := successorName_append m c
  rw [hsucc, isFullName_concat_iff, isFullName_concat_iff, htype]

/-- The range of another name than a full name is that of the Data named under it. -/
theorem Sorted.mem_range_iff (h : Sorted digest table)
    (hsucc : ∀ n : Name, n ≠ [] → IsLeast {m | ∀ n', n <+: n' → n' < m} (getSuccessor n))
    (hfull : ¬ IsFullName interest.name) (hi : table[i]? = some e) :
    (lookupFirst digest table interest ≤ i ∧ i < lookupLast digest getSuccessor table interest) ↔
      interest.name <+: e.data.name := by
  rw [lookupFirst, lookupLast, h.lowerBound_le_iff hi, Ne, above_iff hfull, not_lt]
  by_cases hn : interest.name = []
  · rw [hn]
    exact iff_of_true ⟨not_lt.mp (List.not_lt_nil _), by simpa using (List.getElem?_eq_some_iff.mp hi).1⟩
      List.nil_prefix
  · rw [if_pos (List.length_pos_of_ne_nil hn), h.lt_lowerBound_iff hi, successor_eq hsucc hn,
      above_iff ((isFullName_successorName hn).not.mpr hfull), prefix_iff_between hn]

/-- The range of a full name is that of the Data that it names. -/
theorem Sorted.mem_full_range_iff (h : Sorted digest table)
    (hsucc : ∀ n : Name, n ≠ [] → IsLeast {m | ∀ n', n <+: n' → n' < m} (getSuccessor n))
    (hfull : IsFullName interest.name) (hi : table[i]? = some e) :
    (lookupFirst digest table interest ≤ i ∧ i < lookupLast digest getSuccessor table interest) ↔
      e.data.fullName digest = interest.name := by
  obtain ⟨m, d, hname, hd⟩ := exists_of_isFullName hfull
  have hn : m ++ [d] ≠ [] := by simp
  have hsuccessor : successorName (m ++ [d]) = m ++ [successorOf d] := by
    rw [successorName, List.getLast?_concat, List.dropLast_concat]
  rw [lookupFirst, lookupLast, hname, if_pos (List.length_pos_of_ne_nil hn), h.lowerBound_le_iff hi,
    h.lt_lowerBound_iff hi, successor_eq hsucc hn, hsuccessor, Ne, above_concat_iff hd, not_lt,
    above_concat_iff (show (successorOf d).isImplicitSha256Digest = true from hd)]
  constructor
  · rintro ⟨hle, hlt⟩
    rcases Prod.Lex.toLex_le_toLex.mp hle with hless | ⟨hsame, hdigest⟩
    · rcases Prod.Lex.toLex_lt_toLex.mp hlt with hmore | ⟨hsame, -⟩
      · exact absurd hless (lt_asymm hmore)
      · exact absurd hsame hless.ne'
    · rcases Prod.Lex.toLex_lt_toLex.mp hlt with hmore | ⟨-, hdigest'⟩
      · exact absurd hsame hmore.ne'
      · have heq : d = ⟨true, digest e.data⟩ :=
          le_antisymm hdigest (not_lt.mp fun hbetween => absurd hdigest' (not_lt.mpr (successorOf_le hbetween)))
        rw [Data.fullName, heq, show m = e.data.name from hsame]
  · intro hsame
    obtain ⟨hm, hcomponent⟩ := List.append_inj' hsame rfl
    rw [sortKey, hm, (List.cons.inj hcomponent).1]
    exact ⟨le_rfl, Prod.Lex.toLex_lt_toLex.mpr (Or.inr ⟨rfl, lt_successorOf d⟩)⟩

/-- The entries at the positions `first` to `last`. -/
def entriesOf (table : List CsEntry) (first last : Nat) : Set CsEntry := {e | ∃ i, (i, e) ∈ slice table first last}

/-- Those of them that satisfy the Interest. -/
def candidates (matchesData : MatchesData) (table : List CsEntry) (now : Nat) (interest : Interest) (first last : Nat) :
    Set CsEntry :=
  {e | e ∈ entriesOf table first last ∧ e.canSatisfy matchesData now interest = true}

/-- The Data has the name, or the full name. -/
def NamedBy (digest : Data → List UInt8) (n : Name) (data : Data) : Prop := data.name = n ∨ data.fullName digest = n

/-- The rightmost match: the leftmost one under the greatest prefix that is one component longer than the name and has a
match, or, if no match has a longer name, the greatest one of the name. -/
def IsRightmost (digest : Data → List UInt8) (n : Name) (C : Set CsEntry) : Option CsEntry → Prop
  | none => C = ∅
  | some e => e ∈ C ∧
      ((∃ c, n ++ [c] <+: e.data.name ∧ (∀ x ∈ C, ∀ c', n ++ [c'] <+: x.data.name → c' ≤ c) ∧
          ∀ x ∈ C, n ++ [c] <+: x.data.name → sortKey digest e.data ≤ sortKey digest x.data) ∨
        (∀ x ∈ C, ∀ c, ¬ n ++ [c] <+: x.data.name) ∧ NamedBy digest n e.data ∧
          ∀ x ∈ C, NamedBy digest n x.data → x.data.fullName digest ≤ e.data.fullName digest)

/-- Of the matches that are not before the prefix `n ++ [c]` as a full name, any two are the same or under one prefix
that is one component longer than `n`. -/
def Uniform (digest : Data → List UInt8) (n : Name) (c : Component) (C : Set CsEntry) : Prop :=
  ∀ x ∈ C, ∀ y ∈ C, compareQueryWithData digest (n ++ [c]) x.data ≠ .gt →
    compareQueryWithData digest (n ++ [c]) y.data ≠ .gt →
      x = y ∨ ∃ c', n ++ [c'] <+: x.data.name ∧ n ++ [c'] <+: y.data.name

/-- A match is under a prefix that does not end in a digest, or the matches from the greatest one that does are
uniform. -/
def SafeAmong (digest : Data → List UInt8) (n : Name) (R C : Set CsEntry) : Prop :=
  (∃ x ∈ C, ∃ c, c.isImplicitSha256Digest = false ∧ n ++ [c] <+: x.data.name) ∨
    ∀ c, IsGreatest {c | c.isImplicitSha256Digest = true ∧ ∃ x ∈ R, n ++ [c] <+: x.data.name} c → Uniform digest n c C

theorem Sorted.position_unique (h : Sorted digest table) (hi : table[i]? = some e) (hj : table[j]? = some e) :
    i = j := by
  rcases lt_trichotomy i j with hlt | heq | hgt
  · exact absurd ((h.key_lt_iff hi hj).mpr hlt) (lt_irrefl _)
  · exact heq
  · exact absurd ((h.key_lt_iff hj hi).mpr hgt) (lt_irrefl _)

theorem Sorted.eq_of_key_eq (h : Sorted digest table) (hx : x ∈ table) (hy : y ∈ table)
    (heq : sortKey digest x.data = sortKey digest y.data) : x = y := by
  obtain ⟨i, hi⟩ := List.mem_iff_getElem?.mp hx
  obtain ⟨j, hj⟩ := List.mem_iff_getElem?.mp hy
  rcases lt_trichotomy i j with hlt | rfl | hgt
  · exact absurd ((h.key_lt_iff hi hj).mpr hlt) heq.not_lt
  · rw [hi] at hj
    exact Option.some.inj hj
  · exact absurd ((h.key_lt_iff hj hi).mpr hgt) heq.symm.not_lt

theorem Sorted.key_le_of_position_le (h : Sorted digest table) (hi : table[i]? = some x) (hj : table[j]? = some y)
    (hle : i ≤ j) : sortKey digest x.data ≤ sortKey digest y.data := by
  rcases hle.eq_or_lt with rfl | hlt
  · rw [hi] at hj
    rw [Option.some.inj hj]
  · exact ((h.key_lt_iff hi hj).mpr hlt).le

theorem fullName_le_of_key_le (hname : x.data.name = y.data.name) (h : sortKey digest x.data ≤ sortKey digest y.data) :
    x.data.fullName digest ≤ y.data.fullName digest := by
  rcases h.eq_or_lt with heq | hlt
  · exact (sortKey_eq_iff.mp heq).le
  · rcases sortKey_lt_iff.mp hlt with hless | ⟨-, hdigest⟩
    · exact absurd hname hless.ne
    · rw [Data.fullName, Data.fullName, hname]
      exact ((Name.append_lt_append_iff _).mpr (List.cons_lt_cons_iff.mpr (Or.inl hdigest))).le

/-- Above a Data that is before a name are all queries under the name. -/
theorem above_longer_of_lt (h : e.data.name < n) (c : Component) :
    compareQueryWithData digest (n ++ [c]) e.data = .gt := by
  by_cases hc : c.isImplicitSha256Digest = true
  · rw [above_concat_iff hc]
    exact Prod.Lex.toLex_lt_toLex.mpr (Or.inl h)
  · rw [above_iff (isFullName_concat_iff.not.mpr hc)]
    exact h.trans (Name.lt_of_longer (List.prefix_refl _))

/-- A Data with a longer name comes after the full name. -/
theorem not_above_of_longer (hd : d.isImplicitSha256Digest = true) (h : n ++ [c] <+: e.data.name) :
    compareQueryWithData digest (n ++ [d]) e.data ≠ .gt := by
  rw [Ne, above_concat_iff hd, not_lt]
  exact Prod.Lex.toLex_le_toLex.mpr (Or.inl (Name.lt_of_longer h))

theorem mem_entriesOf_iff : x ∈ entriesOf table first last ↔ ∃ i, table[i]? = some x ∧ first ≤ i ∧ i < last :=
  exists_congr fun _ => mem_slice_iff

theorem mem_of_mem_entriesOf (h : x ∈ entriesOf table first last) : x ∈ table := by
  obtain ⟨i, hi⟩ := h
  exact mem_of_mem_slice hi

/-- Where no entry satisfies the Interest, the range may end before. -/
theorem candidates_eq_of_miss (hleft : left ≤ right)
    (hmiss : findLeftmost matchesData table now interest left right = none) :
    candidates matchesData table now interest first right = candidates matchesData table now interest first left := by
  ext x
  refine and_congr_left fun hsat => ?_
  rw [mem_entriesOf_iff, mem_entriesOf_iff]
  refine exists_congr fun i => and_congr_right fun hi => and_congr_right fun _ =>
    ⟨fun hlt => ?_, fun hlt => hlt.trans_le hleft⟩
  by_contra hge
  exact findLeftmost_eq_none hmiss (i, x) (mem_slice hi (not_lt.mp hge) hlt) hsat

theorem candidates_self : candidates matchesData table now interest first first = ∅ := by
  ext x
  refine iff_of_false ?_ (Set.notMem_empty x)
  rintro ⟨hx, -⟩
  obtain ⟨i, -, hge, hlt⟩ := mem_entriesOf_iff.mp hx
  exact absurd hge (not_le.mpr hlt)

/-- The part of a range up to `right`: before it are lesser names, and in it are names under `n`. -/
structure InRange (table : List CsEntry) (n : Name) (first right : Nat) : Prop where
  first_le : first ≤ right
  le_length : right ≤ table.length
  before {i : Nat} {e : CsEntry} : table[i]? = some e → i < first → e.data.name < n
  under {i : Nat} {e : CsEntry} : table[i]? = some e → first ≤ i → i < right → n <+: e.data.name

namespace InRange

theorem shorten (h : InRange table n first right) (hfirst : first ≤ left) (hleft : left ≤ right) :
    InRange table n first left where
  first_le := hfirst
  le_length := hleft.trans h.le_length
  before := h.before
  under hi hge hlt := h.under hi hge (hlt.trans_le hleft)

theorem under_of_mem (h : InRange table n first right) (hx : x ∈ entriesOf table first right) : n <+: x.data.name := by
  obtain ⟨i, hi, hge, hlt⟩ := mem_entriesOf_iff.mp hx
  exact h.under hi hge hlt

/-- A query under the name does not lead before the range. -/
theorem first_le_lowerBound (h : InRange table n first right) (hsorted : Sorted digest table) (c : Component) :
    first ≤ lowerBound digest table (n ++ [c]) := by
  by_contra hbefore
  rw [not_le] at hbefore
  have hget := List.getElem?_eq_getElem (hbefore.trans_le (h.first_le.trans h.le_length))
  exact absurd (hsorted.lt_lowerBound_of_above hget (above_longer_of_lt (h.before hget hbefore) c)) (lt_irrefl _)

end InRange

/-! ### Rounds -/

theorem round_exact {prev : Nat} (hprev : table[prev]? = some e) (hname : e.data.name = interest.name) :
    round digest matchesData table now interest first (prev + 1) =
      some (prev :: readsUntil (CsEntry.canSatisfy matchesData now interest) (slice table first (prev + 1)).reverse,
        .returns (findRightmostAmongExact matchesData table now interest first (prev + 1))) := by
  rw [round, hprev, Option.map_some]
  dsimp only
  rw [if_pos (congrArg List.length hname)]

variable (digest matchesData now first) in
theorem round_longer {prev : Nat} (hprev : table[prev]? = some e) (hc : interest.name ++ [c] <+: e.data.name) :
    round digest matchesData table now interest first (prev + 1) =
      some (prev :: readsUntil (CsEntry.canSatisfy matchesData now interest)
          (slice table (lowerBound digest table (interest.name ++ [c])) (prev + 1)),
        .of (lowerBound digest table (interest.name ++ [c]))
          (findLeftmost matchesData table now interest (lowerBound digest table (interest.name ++ [c]))
            (prev + 1))) := by
  have hlength : e.data.name.length ≠ interest.name.length := by
    have hle := hc.length_le
    rw [List.length_append, List.length_singleton] at hle
    exact (Nat.lt_of_succ_le hle).ne'
  rw [round, hprev, Option.map_some]
  dsimp only
  rw [if_neg hlength, Name.getPrefix_of_longer hc]

/-- A round reads the last entry, and entries of a part of the range. -/
theorem reads_in_range {accepts : CsEntry → Bool} {prev : Nat} (hfirst : first ≤ left) (hprev : first ≤ prev)
    {l : List (Nat × CsEntry)} (hl : ∀ p ∈ l, p ∈ slice table left (prev + 1)) :
    ∀ i ∈ prev :: readsUntil accepts l, first ≤ i ∧ i < prev + 1 := by
  intro i hi
  rcases List.mem_cons.mp hi with rfl | hrest
  · exact ⟨hprev, Nat.lt_succ_self i⟩
  · obtain ⟨e, he⟩ := mem_of_mem_readsUntil hrest
    obtain ⟨-, hge, hlt⟩ := mem_slice_iff.mp (hl _ he)
    exact ⟨hfirst.trans hge, hlt⟩

/-- The loop from `right` on comes to its end, reads nothing outside the range, and returns the rightmost match exactly
if it is safe. -/
def FindsFrom (digest : Data → List UInt8) (matchesData : MatchesData) (table : List CsEntry) (now : Nat)
    (interest : Interest) (first right : Nat) : Prop :=
  ∃ reads found, Loop digest matchesData table now interest first right reads found ∧
    (∀ i ∈ reads, first ≤ i ∧ i < right) ∧
    (IsRightmost digest interest.name (candidates matchesData table now interest first right) (found.map Prod.snd) ↔
      SafeAmong digest interest.name (entriesOf table first right)
        (candidates matchesData table now interest first right))

theorem findsFrom_first : FindsFrom digest matchesData table now interest first first := by
  refine ⟨[], none, .stop, fun i hi => absurd hi List.not_mem_nil, ?_⟩
  rw [candidates_self]
  refine iff_of_true rfl (Or.inr fun c _ x hx => absurd hx (Set.notMem_empty x))

/-- A search for which the two conditions are decided. -/
theorem findsFrom_returns {reads : List Nat} {found : Option (Nat × CsEntry)} (hne : right ≠ first)
    (hround : round digest matchesData table now interest first right = some (reads, .returns found))
    (hreads : ∀ i ∈ reads, first ≤ i ∧ i < right)
    (hiff : IsRightmost digest interest.name (candidates matchesData table now interest first right)
      (found.map Prod.snd) ↔ SafeAmong digest interest.name (entriesOf table first right)
        (candidates matchesData table now interest first right)) :
    FindsFrom digest matchesData table now interest first right :=
  ⟨reads, found, .returns hne hround, hreads, hiff⟩

/-- The part of the range up to `left` is safe exactly if all of it is. -/
theorem FindsFrom.continues {reads : List Nat} (h : FindsFrom digest matchesData table now interest first left)
    (hne : right ≠ first) (hleft : left ≤ right)
    (hround : round digest matchesData table now interest first right = some (reads, .continues left))
    (hreads : ∀ i ∈ reads, first ≤ i ∧ i < right)
    (hsame : candidates matchesData table now interest first right =
      candidates matchesData table now interest first left)
    (hsafe : SafeAmong digest interest.name (entriesOf table first right)
        (candidates matchesData table now interest first left) ↔
      SafeAmong digest interest.name (entriesOf table first left)
        (candidates matchesData table now interest first left)) :
    FindsFrom digest matchesData table now interest first right := by
  obtain ⟨reads', found, hloop, hreads', hiff⟩ := h
  refine ⟨reads ++ reads', found, .continues hne hround hloop, fun i hi => ?_, ?_⟩
  · rcases List.mem_append.mp hi with hi | hi
    · exact hreads i hi
    · obtain ⟨hge, hlt⟩ := hreads' i hi
      exact ⟨hge, hlt.trans_le hleft⟩
  · rw [hsame, hiff, hsafe]

/-- All entries left have the name. -/
theorem findsFrom_exact (hsorted : Sorted digest table) {prev : Nat}
    (hrange : InRange table interest.name first (prev + 1)) (hfirst : first ≤ prev) (hprev : table[prev]? = some e)
    (hname : e.data.name = interest.name) : FindsFrom digest matchesData table now interest first (prev + 1) := by
  have hnames : ∀ x ∈ entriesOf table first (prev + 1), x.data.name = interest.name := by
    intro x hx
    obtain ⟨i, hi, hge, hlt⟩ := mem_entriesOf_iff.mp hx
    have hle := name_le_of_key_le (hsorted.key_le_of_position_le hi hprev (Nat.le_of_lt_succ hlt))
    rw [hname] at hle
    rcases Name.eq_or_longer (hrange.under_of_mem hx) with heq | ⟨c, hc⟩
    · exact heq
    · exact absurd hle (not_le.mpr (Name.lt_of_longer hc))
  have hnot : ∀ x ∈ entriesOf table first (prev + 1), ∀ c, ¬ interest.name ++ [c] <+: x.data.name := by
    intro x hx c hc
    rw [hnames x hx] at hc
    exact Name.not_longer_self hc
  refine findsFrom_returns (Nat.lt_succ_of_le hfirst).ne' (round_exact hprev hname)
    (reads_in_range le_rfl hfirst fun p hp => List.mem_reverse.mp hp) (iff_of_true ?_ ?_)
  · cases hfound : findRightmostAmongExact matchesData table now interest first (prev + 1) with
    | none =>
        refine Set.eq_empty_iff_forall_notMem.mpr fun x hx => ?_
        obtain ⟨⟨i, hi⟩, hsat⟩ := hx
        exact findRightmostAmongExact_eq_none hfound _ hi hsat
    | some p =>
        obtain ⟨hp, hsat, hgreatest⟩ := findRightmostAmongExact_eq_some hfound
        refine ⟨⟨⟨p.1, hp⟩, hsat⟩, Or.inr ⟨fun x hx c => hnot x hx.1 c, Or.inl (hnames _ ⟨p.1, hp⟩), fun x hx _ => ?_⟩⟩
        obtain ⟨⟨i, hi⟩, hsatx⟩ := hx
        have hle := hsorted.key_le_of_position_le (mem_slice_iff.mp hi).1 (mem_slice_iff.mp hp).1 (hgreatest _ hi hsatx)
        exact fullName_le_of_key_le ((hnames x ⟨i, hi⟩).trans (hnames _ ⟨p.1, hp⟩).symm) hle
  · refine Or.inr fun c hc => ?_
    obtain ⟨-, x, hx, hlonger⟩ := hc.1
    exact absurd hlonger (hnot x hx c)

theorem entriesOf_mono (hle : left ≤ right) (hx : x ∈ entriesOf table first left) :
    x ∈ entriesOf table first right := by
  obtain ⟨i, hi, hge, hlt⟩ := mem_entriesOf_iff.mp hx
  exact mem_entriesOf_iff.mpr ⟨i, hi, hge, hlt.trans_le hle⟩

/-- Every entry of the range is named before the last one. -/
theorem Sorted.name_le_last (hsorted : Sorted digest table) {prev : Nat} (hprev : table[prev]? = some e)
    (hx : x ∈ entriesOf table first (prev + 1)) : x.data.name ≤ e.data.name := by
  obtain ⟨i, hi, -, hlt⟩ := mem_entriesOf_iff.mp hx
  exact name_le_of_key_le (hsorted.key_le_of_position_le hi hprev (Nat.le_of_lt_succ hlt))

/-- A round under a prefix that is one component longer: what is left to see of a match, and of no match. -/
theorem findsFrom_longer (hsorted : Sorted digest table) {prev : Nat}
    (hrange : InRange table interest.name first (prev + 1)) (hfirst : first ≤ prev) (hprev : table[prev]? = some e)
    (hc : interest.name ++ [c] <+: e.data.name)
    (ih : FindsFrom digest matchesData table now interest first (lowerBound digest table (interest.name ++ [c])))
    (hhit : ∀ p ∈ slice table (lowerBound digest table (interest.name ++ [c])) (prev + 1),
      p.2 ∈ candidates matchesData table now interest first (prev + 1) →
      (∀ j x, table[j]? = some x → lowerBound digest table (interest.name ++ [c]) ≤ j →
        x ∈ candidates matchesData table now interest first (prev + 1) →
          sortKey digest p.2.data ≤ sortKey digest x.data) →
      (IsRightmost digest interest.name (candidates matchesData table now interest first (prev + 1)) (some p.2) ↔
        SafeAmong digest interest.name (entriesOf table first (prev + 1))
          (candidates matchesData table now interest first (prev + 1))))
    (hmiss : SafeAmong digest interest.name (entriesOf table first (prev + 1))
      (candidates matchesData table now interest first (lowerBound digest table (interest.name ++ [c]))) ↔
      SafeAmong digest interest.name (entriesOf table first (lowerBound digest table (interest.name ++ [c])))
        (candidates matchesData table now interest first (lowerBound digest table (interest.name ++ [c])))) :
    FindsFrom digest matchesData table now interest first (prev + 1) := by
  have hround := round_longer digest matchesData now first hprev hc
  have hfirst' := hrange.first_le_lowerBound hsorted c
  have hleft : lowerBound digest table (interest.name ++ [c]) ≤ prev :=
    lowerBound_le_of_not_above hprev (not_above_of_under hc)
  generalize lowerBound digest table (interest.name ++ [c]) = left at ih hhit hmiss hround hfirst' hleft
  have hreads : ∀ i ∈ prev :: readsUntil (CsEntry.canSatisfy matchesData now interest) (slice table left (prev + 1)),
      first ≤ i ∧ i < prev + 1 := reads_in_range hfirst' hfirst fun _ hp => hp
  have hne := (Nat.lt_succ_of_le hfirst).ne'
  cases hfound : findLeftmost matchesData table now interest left (prev + 1) with
  | some p =>
      rw [hfound] at hround
      obtain ⟨hp, hsat, hleftmost⟩ := findLeftmost_eq_some hfound
      obtain ⟨hi, hge, hlt⟩ := mem_slice_iff.mp hp
      refine findsFrom_returns hne hround hreads (hhit p hp ⟨mem_entriesOf_iff.mpr ⟨p.1, hi, hfirst'.trans hge, hlt⟩,
        hsat⟩ ?_)
      rintro j x hj hjge ⟨hx, hsatx⟩
      obtain ⟨k, hk, -, hklt⟩ := mem_entriesOf_iff.mp hx
      rw [hsorted.position_unique hk hj] at hklt
      exact hsorted.key_le_of_position_le hi hj (hleftmost (j, x) (mem_slice hj hjge hklt) hsatx)
  | none =>
      rw [hfound] at hround
      exact ih.continues hne (Nat.le_succ_of_le hleft) hround hreads
        (candidates_eq_of_miss (Nat.le_succ_of_le hleft) hfound) hmiss

/-- The entries from the query for a prefix that ends in no digest on are those under the prefix. -/
theorem Sorted.lowerBound_le_iff_longer (hsorted : Sorted digest table) {prev : Nat} (hprev : table[prev]? = some e)
    (hc : n ++ [c] <+: e.data.name) (hgeneric : c.isImplicitSha256Digest = false) (hi : table[i]? = some x)
    (hlt : i < prev + 1) : lowerBound digest table (n ++ [c]) ≤ i ↔ n ++ [c] <+: x.data.name := by
  have hquery : ¬ IsFullName (n ++ [c]) := by
    rw [isFullName_concat_iff, hgeneric]
    exact Bool.false_ne_true
  rw [hsorted.lowerBound_le_iff hi, Ne, above_iff hquery, not_lt]
  constructor
  · intro hge
    have hle := name_le_of_key_le (hsorted.key_le_of_position_le hi hprev (Nat.le_of_lt_succ hlt))
    rcases hge.eq_or_lt with heq | habove
    · rw [← heq]
    · rcases hle.eq_or_lt with heq | hbelow
      · rw [heq]
        exact hc
      · exact Name.prefix_of_between hc habove hbelow
  · exact Name.le_of_prefix

/-- The last entries are those under a prefix that ends in no digest. -/
theorem findsFrom_generic (hsorted : Sorted digest table) {prev : Nat}
    (hrange : InRange table interest.name first (prev + 1)) (hfirst : first ≤ prev) (hprev : table[prev]? = some e)
    (hc : interest.name ++ [c] <+: e.data.name) (hgeneric : c.isImplicitSha256Digest = false)
    (ih : FindsFrom digest matchesData table now interest first (lowerBound digest table (interest.name ++ [c]))) :
    FindsFrom digest matchesData table now interest first (prev + 1) := by
  have hgroup : ∀ {i : Nat} {x : CsEntry}, table[i]? = some x → i < prev + 1 →
      (lowerBound digest table (interest.name ++ [c]) ≤ i ↔ interest.name ++ [c] <+: x.data.name) :=
    fun hi hlt => hsorted.lowerBound_le_iff_longer hprev hc hgeneric hi hlt
  have hleft : lowerBound digest table (interest.name ++ [c]) ≤ prev + 1 :=
    Nat.le_succ_of_le (lowerBound_le_of_not_above hprev (not_above_of_under hc))
  refine findsFrom_longer hsorted hrange hfirst hprev hc ih (fun p hp hcandidate hleast => ?_) ?_
  · obtain ⟨hi, hge, hlt⟩ := mem_slice_iff.mp hp
    have hunder := (hgroup hi hlt).mp hge
    refine iff_of_true ⟨hcandidate, Or.inl ⟨c, hunder, fun x hx c' hc' => ?_, fun x hx hlonger => ?_⟩⟩
      (Or.inl ⟨p.2, hcandidate, c, hgeneric, hunder⟩)
    · exact Name.longer_le_of_le hc' hc (hsorted.name_le_last hprev hx.1)
    · obtain ⟨j, hj, -, hjlt⟩ := mem_entriesOf_iff.mp hx.1
      exact hleast j x hj ((hgroup hj hjlt).mpr hlonger) hx
  · have hset : {d | d.isImplicitSha256Digest = true ∧ ∃ x ∈ entriesOf table first (prev + 1),
        interest.name ++ [d] <+: x.data.name} = {d | d.isImplicitSha256Digest = true ∧
          ∃ x ∈ entriesOf table first (lowerBound digest table (interest.name ++ [c])),
            interest.name ++ [d] <+: x.data.name} := by
      ext d
      refine and_congr_right fun hd => ⟨?_, ?_⟩
      · rintro ⟨x, hx, hlonger⟩
        obtain ⟨i, hi, hge, hlt⟩ := mem_entriesOf_iff.mp hx
        refine ⟨x, mem_entriesOf_iff.mpr ⟨i, hi, hge, ?_⟩, hlonger⟩
        by_contra hin
        rw [Name.longer_unique hlonger ((hgroup hi hlt).mp (not_lt.mp hin)), hgeneric] at hd
        cases hd
      · rintro ⟨x, hx, hlonger⟩
        exact ⟨x, entriesOf_mono hleft hx, hlonger⟩
    rw [SafeAmong, SafeAmong, hset]

/-- The first match from a full name on is the rightmost one exactly if the matches from there on are uniform. -/
theorem isRightmost_iff_uniform (hsorted : Sorted digest table) (hfull : ¬ IsFullName n) {C : Set CsEntry}
    (hd : d.isImplicitSha256Digest = true) (hC : ∀ x ∈ C, x ∈ table ∧ n <+: x.data.name) (he : e ∈ C)
    (hfrom : compareQueryWithData digest (n ++ [d]) e.data ≠ .gt)
    (hleast : ∀ x ∈ C, compareQueryWithData digest (n ++ [d]) x.data ≠ .gt →
      sortKey digest e.data ≤ sortKey digest x.data) : IsRightmost digest n C (some e) ↔ Uniform digest n d C := by
  have hnamed : ∀ x : CsEntry, NamedBy digest n x.data → x.data.name = n := by
    rintro x (hname | hname)
    · exact hname
    · refine absurd ?_ hfull
      rw [← hname, Data.fullName, isFullName_concat_iff]
  constructor
  · rintro ⟨-, ⟨c, hc, hgreatest, -⟩ | ⟨hnot, hname, hmax⟩⟩
    · -- all are under the prefix of the one that is returned
      have hunder : ∀ x ∈ C, compareQueryWithData digest (n ++ [d]) x.data ≠ .gt → n ++ [c] <+: x.data.name := by
        intro x hx hnotAbove
        have hle := name_le_of_key_le (hleast x hx hnotAbove)
        rcases Name.eq_or_longer (hC x hx).2 with heq | ⟨c', hc'⟩
        · rw [heq] at hle
          exact absurd hle (not_le.mpr (Name.lt_of_longer hc))
        · rw [le_antisymm (hgreatest x hx c' hc') (Name.longer_le_of_le hc hc' hle)] at hc'
          exact hc'
      exact fun x hx y hy hxFrom hyFrom => Or.inr ⟨c, hunder x hx hxFrom, hunder y hy hyFrom⟩
    · -- all are the one that is returned
      have heq : ∀ x ∈ C, compareQueryWithData digest (n ++ [d]) x.data ≠ .gt → x = e := by
        intro x hx hxFrom
        have hxname : x.data.name = n := by
          refine (Name.eq_or_longer (hC x hx).2).resolve_right ?_
          rintro ⟨c, hc⟩
          exact hnot x hx c hc
        refine hsorted.eq_of_key_eq (hC x hx).1 (hC e he).1 (sortKey_eq_iff.mpr ?_)
        exact le_antisymm (hmax x hx (Or.inl hxname))
          (fullName_le_of_key_le ((hnamed e hname).trans hxname.symm) (hleast x hx hxFrom))
      exact fun x hx y hy hxFrom hyFrom => Or.inl ((heq x hx hxFrom).trans (heq y hy hyFrom).symm)
  · intro huniform
    have hsame : ∀ x ∈ C, compareQueryWithData digest (n ++ [d]) x.data ≠ .gt →
        x = e ∨ ∃ c, n ++ [c] <+: x.data.name ∧ n ++ [c] <+: e.data.name := fun x hx hxFrom =>
      huniform x hx e he hxFrom hfrom
    refine ⟨he, ?_⟩
    rcases Name.eq_or_longer (hC e he).2 with heq | ⟨c, hc⟩
    · refine Or.inr ⟨fun x hx c hc => ?_, Or.inl heq, fun x hx hname => ?_⟩
      · rcases hsame x hx (not_above_of_longer hd hc) with rfl | ⟨c', -, hc'⟩
        · rw [heq] at hc
          exact Name.not_longer_self hc
        · rw [heq] at hc'
          exact Name.not_longer_self hc'
      · by_cases hxFrom : compareQueryWithData digest (n ++ [d]) x.data = .gt
        · rw [above_concat_iff hd] at hxFrom
          rw [Ne, above_concat_iff hd, not_lt] at hfrom
          exact fullName_le_of_key_le ((hnamed x hname).trans heq.symm) (hxFrom.le.trans hfrom)
        · rcases hsame x hx hxFrom with rfl | ⟨c', -, hc'⟩
          · exact le_rfl
          · rw [heq] at hc'
            exact absurd hc' Name.not_longer_self
    · refine Or.inl ⟨c, hc, fun x hx c' hc' => ?_, fun x hx hlonger => hleast x hx (not_above_of_longer hd hlonger)⟩
      rcases hsame x hx (not_above_of_longer hd hc') with rfl | ⟨c'', hx'', he''⟩
      · exact (Name.longer_unique hc' hc).le
      · rw [Name.longer_unique hc' hx'', Name.longer_unique he'' hc]

/-- The last entries are under a prefix that ends in a digest: the query leads to its place among the full names. -/
theorem findsFrom_digest (hsorted : Sorted digest table) (hfull : ¬ IsFullName interest.name) {prev : Nat}
    (hrange : InRange table interest.name first (prev + 1)) (hfirst : first ≤ prev) (hprev : table[prev]? = some e)
    (hd : d.isImplicitSha256Digest = true) (hlonger : interest.name ++ [d] <+: e.data.name)
    (ih : FindsFrom digest matchesData table now interest first (lowerBound digest table (interest.name ++ [d]))) :
    FindsFrom digest matchesData table now interest first (prev + 1) := by
  have hposition : ∀ {i : Nat} {x : CsEntry}, table[i]? = some x →
      (lowerBound digest table (interest.name ++ [d]) ≤ i ↔
        compareQueryWithData digest (interest.name ++ [d]) x.data ≠ .gt) :=
    fun hi => hsorted.lowerBound_le_iff hi
  have hbelow : ∀ {c x}, x ∈ entriesOf table first (prev + 1) → interest.name ++ [c] <+: x.data.name → c ≤ d :=
    fun hx hc => Name.longer_le_of_le hc hlonger (hsorted.name_le_last hprev hx)
  have hgreatest : IsGreatest {c | c.isImplicitSha256Digest = true ∧ ∃ x ∈ entriesOf table first (prev + 1),
      interest.name ++ [c] <+: x.data.name} d := by
    refine ⟨⟨hd, e, mem_entriesOf_iff.mpr ⟨prev, hprev, hfirst, Nat.lt_succ_self prev⟩, hlonger⟩, ?_⟩
    rintro c ⟨-, x, hx, hc⟩
    exact hbelow hx hc
  refine findsFrom_longer hsorted hrange hfirst hprev hlonger ih (fun p hp hcandidate hleast => ?_) (iff_of_true ?_ ?_)
  · obtain ⟨hi, hge, -⟩ := mem_slice_iff.mp hp
    have huniform := isRightmost_iff_uniform hsorted hfull hd
      (fun x hx => ⟨mem_of_mem_entriesOf hx.1, hrange.under_of_mem hx.1⟩) hcandidate ((hposition hi).mp hge)
      fun x hx hxFrom => by
        obtain ⟨j, hj, -, -⟩ := mem_entriesOf_iff.mp hx.1
        exact hleast j x hj ((hposition hj).mpr hxFrom) hx
    rw [huniform]
    constructor
    · intro h
      refine Or.inr fun c hc => ?_
      rw [hc.unique hgreatest]
      exact h
    · rintro (⟨x, hx, c, hgeneric, hc⟩ | h)
      · exact absurd (hbelow hx.1 hc) (not_le.mpr (Component.digest_lt hd hgeneric))
      · exact h d hgreatest
  · -- no match is left that is not before the full name
    refine Or.inr fun c hc x hx _ _ hxFrom => ?_
    rw [hc.unique hgreatest] at hxFrom
    obtain ⟨i, hi, -, hlt⟩ := mem_entriesOf_iff.mp hx.1
    exact absurd ((hposition hi).mpr hxFrom) (not_le.mpr hlt)
  · refine Or.inr fun c hc => ?_
    obtain ⟨-, x, hx, hc⟩ := hc.1
    obtain ⟨i, hi, -, hlt⟩ := mem_entriesOf_iff.mp hx
    exact absurd ((hposition hi).mpr (not_above_of_longer hd hc)) (not_le.mpr hlt)

variable (matchesData now) in
/-- The loop under a name that is no full name. -/
theorem findsFrom (hsorted : Sorted digest table) (hfull : ¬ IsFullName interest.name) :
    InRange table interest.name first right → FindsFrom digest matchesData table now interest first right := by
  induction right using Nat.strong_induction_on with
  | _ right ih =>
      intro hrange
      rcases hrange.first_le.eq_or_lt with rfl | hlt
      · exact findsFrom_first
      · obtain ⟨prev, rfl⟩ := Nat.exists_eq_add_one_of_ne_zero (Nat.ne_zero_of_lt hlt)
        have hfirst := Nat.le_of_lt_succ hlt
        have hprev := List.getElem?_eq_getElem (Nat.lt_of_succ_le hrange.le_length)
        rcases Name.eq_or_longer (hrange.under hprev hfirst (Nat.lt_succ_self prev)) with hname | ⟨c, hc⟩
        · exact findsFrom_exact hsorted hrange hfirst hprev hname
        · have hleft : lowerBound digest table (interest.name ++ [c]) ≤ prev :=
            lowerBound_le_of_not_above hprev (not_above_of_under hc)
          have hrest := ih _ (Nat.lt_succ_of_le hleft)
            (hrange.shorten (hrange.first_le_lowerBound hsorted c) (Nat.le_succ_of_le hleft))
          by_cases hd : c.isImplicitSha256Digest = true
          · exact findsFrom_digest hsorted hfull hrange hfirst hprev hd hc hrest
          · rw [Bool.not_eq_true] at hd
            exact findsFrom_generic hsorted hrange hfirst hprev hc hd hrest

section Lookup

variable (digest getSuccessor matchesData table now interest)

/-- `Cs::findRightmost` comes to its end, reads entries of its range only, and returns the rightmost match of it. -/
def FindsRightmost : Prop :=
  ∃ reads found, Loop digest matchesData table now interest (lookupFirst digest table interest)
      (lookupLast digest getSuccessor table interest) reads found ∧
    (∀ i ∈ reads, lookupFirst digest table interest ≤ i ∧ i < lookupLast digest getSuccessor table interest) ∧
    IsRightmost digest interest.name (candidates matchesData table now interest (lookupFirst digest table interest)
      (lookupLast digest getSuccessor table interest)) (found.map Prod.snd)

/-- Before the Data that a full name is about are those only that the name without its digest is above. Another name is
safe among the Data that are stored. -/
def RightmostSafe : Prop :=
  (IsFullName interest.name → ∀ x ∈ table, x.data.fullName digest = interest.name →
    ∀ y ∈ table, sortKey digest y.data < sortKey digest x.data →
      compareQueryWithData digest interest.name.dropLast y.data = .gt) ∧
  (¬ IsFullName interest.name → SafeAmong digest interest.name {x | x ∈ table}
    {x | x ∈ table ∧ x.canSatisfy matchesData now interest = true})

end Lookup

/-- What is before a name is before its successor. -/
theorem above_successorName (hn : n ≠ []) (h : compareQueryWithData digest n e.data = .gt) :
    compareQueryWithData digest (successorName n) e.data = .gt := by
  by_cases hfull : IsFullName n
  · obtain ⟨m, d, rfl, hd⟩ := exists_of_isFullName hfull
    rw [above_concat_iff hd] at h
    rw [successorName, List.getLast?_concat, List.dropLast_concat,
      above_concat_iff (show (successorOf d).isImplicitSha256Digest = true from hd)]
    exact h.trans (Prod.Lex.toLex_lt_toLex.mpr (Or.inr ⟨rfl, lt_successorOf d⟩))
  · rw [above_iff hfull] at h
    rw [above_iff ((isFullName_successorName hn).not.mpr hfull)]
    exact h.trans ((successorName_isLeast hn).1 n (List.prefix_refl n))

theorem Sorted.first_le_last (hsorted : Sorted digest table)
    (hsucc : ∀ n : Name, n ≠ [] → IsLeast {m | ∀ n', n <+: n' → n' < m} (getSuccessor n)) :
    lookupFirst digest table interest ≤ lookupLast digest getSuccessor table interest := by
  rw [lookupFirst, lookupLast]
  split
  · rename_i hpos
    have hn := List.ne_nil_of_length_pos hpos
    rw [successor_eq hsucc hn]
    by_contra hlt
    rw [not_le] at hlt
    have hget := List.getElem?_eq_getElem (hlt.trans_le lowerBound_le_length)
    have habove := above_successorName hn ((hsorted.lt_lowerBound_iff hget).mp hlt)
    exact absurd ((hsorted.lt_lowerBound_iff hget).mpr habove) (lt_irrefl _)
  · exact lowerBound_le_length

/-- Another name than a full name. -/
theorem findsRightmost_iff_of_not_full (hsorted : Sorted digest table)
    (hsucc : ∀ n : Name, n ≠ [] → IsLeast {m | ∀ n', n <+: n' → n' < m} (getSuccessor n))
    (hmatch : ∀ n s d, matchesData n s d = true → n <+: d.fullName digest) (hfull : ¬ IsFullName interest.name) :
    FindsRightmost digest getSuccessor matchesData table now interest ↔
      SafeAmong digest interest.name {x | x ∈ table}
        {x | x ∈ table ∧ x.canSatisfy matchesData now interest = true} := by
  have hentries : ∀ x, x ∈ entriesOf table (lookupFirst digest table interest)
      (lookupLast digest getSuccessor table interest) ↔ x ∈ table ∧ interest.name <+: x.data.name := by
    intro x
    rw [mem_entriesOf_iff, List.mem_iff_getElem?]
    constructor
    · rintro ⟨i, hi, hbounds⟩
      exact ⟨⟨i, hi⟩, (hsorted.mem_range_iff hsucc hfull hi).mp hbounds⟩
    · rintro ⟨⟨i, hi⟩, hunder⟩
      exact ⟨i, hi, (hsorted.mem_range_iff hsucc hfull hi).mpr hunder⟩
  have hunder : ∀ x : CsEntry, x.canSatisfy matchesData now interest = true → interest.name <+: x.data.name := by
    intro x hsat
    rw [CsEntry.canSatisfy, Bool.and_eq_true] at hsat
    have hstarts := hmatch _ _ _ hsat.1
    rw [Data.fullName, List.prefix_concat_iff] at hstarts
    refine hstarts.resolve_left fun heq => hfull ?_
    rw [heq, isFullName_concat_iff]
  have hcandidates : candidates matchesData table now interest (lookupFirst digest table interest)
      (lookupLast digest getSuccessor table interest) =
        {x | x ∈ table ∧ x.canSatisfy matchesData now interest = true} := by
    ext x
    refine and_congr_left fun hsat => (hentries x).trans (and_iff_left (hunder x hsat))
  have hrange : InRange table interest.name (lookupFirst digest table interest)
      (lookupLast digest getSuccessor table interest) := by
    refine ⟨hsorted.first_le_last hsucc, lookupLast_le_length .., fun hi hlt => ?_, fun hi hge hlt => ?_⟩
    · rw [lookupFirst, hsorted.lt_lowerBound_iff hi, above_iff hfull] at hlt
      exact hlt
    · exact (hsorted.mem_range_iff hsucc hfull hi).mp ⟨hge, hlt⟩
  have hset : {c | c.isImplicitSha256Digest = true ∧ ∃ x ∈ entriesOf table (lookupFirst digest table interest)
      (lookupLast digest getSuccessor table interest), interest.name ++ [c] <+: x.data.name} =
        {c | c.isImplicitSha256Digest = true ∧ ∃ x ∈ {x | x ∈ table}, interest.name ++ [c] <+: x.data.name} := by
    ext c
    refine and_congr_right fun _ => exists_congr fun x => and_congr_left fun hlonger => ?_
    rw [hentries]
    exact and_iff_left ((List.prefix_append _ _).trans hlonger)
  obtain ⟨reads, found, hloop, hreads, hiff⟩ := findsFrom matchesData now hsorted hfull hrange
  rw [SafeAmong, hset, ← SafeAmong, hcandidates] at hiff
  constructor
  · rintro ⟨reads', found', hloop', -, hrightmost⟩
    obtain ⟨-, rfl⟩ := hloop.unique hloop'
    rw [hcandidates] at hrightmost
    exact hiff.mp hrightmost
  · intro hsafe
    refine ⟨reads, found, hloop, hreads, ?_⟩
    rw [hcandidates]
    exact hiff.mpr hsafe

/-- The Data that a full name is about is all of the range. -/
theorem Sorted.full_range_eq (hsorted : Sorted digest table)
    (hsucc : ∀ n : Name, n ≠ [] → IsLeast {m | ∀ n', n <+: n' → n' < m} (getSuccessor n))
    (hfull : IsFullName interest.name) (hi : table[i]? = some e) (hname : e.data.fullName digest = interest.name) :
    lookupFirst digest table interest = i ∧ lookupLast digest getSuccessor table interest = i + 1 := by
  obtain ⟨hge, hlt⟩ := (hsorted.mem_full_range_iff hsucc hfull hi).mpr hname
  have honly : ∀ j, lookupFirst digest table interest ≤ j → j < lookupLast digest getSuccessor table interest →
    j = i := by
    intro j hjge hjlt
    have hj := List.getElem?_eq_getElem (hjlt.trans_le (lookupLast_le_length ..))
    have hjname := (hsorted.mem_full_range_iff hsucc hfull hj).mp ⟨hjge, hjlt⟩
    have hkey := sortKey_eq_iff.mpr (hjname.trans hname.symm)
    rcases lt_trichotomy j i with hless | heq | hmore
    · exact absurd ((hsorted.key_lt_iff hj hi).mpr hless) hkey.not_lt
    · exact heq
    · exact absurd ((hsorted.key_lt_iff hi hj).mpr hmore) hkey.symm.not_lt
  refine ⟨honly _ le_rfl (hge.trans_lt hlt), ?_⟩
  by_contra hne
  exact absurd (honly (i + 1) (Nat.le_succ_of_le hge) (lt_of_le_of_ne hlt (Ne.symm hne))) (Nat.succ_ne_self i)

/-- A full name of a Data that is not stored. -/
theorem findsRightmost_of_absent (hsorted : Sorted digest table)
    (hsucc : ∀ n : Name, n ≠ [] → IsLeast {m | ∀ n', n <+: n' → n' < m} (getSuccessor n))
    (hfull : IsFullName interest.name) (habsent : ∀ x ∈ table, x.data.fullName digest ≠ interest.name) :
    FindsRightmost digest getSuccessor matchesData table now interest := by
  have hempty : lookupFirst digest table interest = lookupLast digest getSuccessor table interest := by
    refine (hsorted.first_le_last hsucc).eq_or_lt.resolve_right fun hlt => ?_
    have hget := List.getElem?_eq_getElem (hlt.trans_le (lookupLast_le_length ..))
    exact habsent _ (List.mem_of_getElem? hget) ((hsorted.mem_full_range_iff hsucc hfull hget).mp ⟨le_rfl, hlt⟩)
  rw [FindsRightmost, ← hempty]
  exact ⟨[], none, .stop, fun i hi => absurd hi List.not_mem_nil, candidates_self⟩

/-! ### The full name of a Data that is stored -/

theorem lowerBound_le_of_name (hi : table[i]? = some e) : lowerBound digest table e.data.name ≤ i :=
  lowerBound_le_of_not_above hi (not_above_of_under (List.prefix_refl _))

/-- The entries of a name begin at a Data of it, if the name is above all Data before. -/
theorem Sorted.lowerBound_name_eq_iff (h : Sorted digest table) (hi : table[i]? = some e) :
    lowerBound digest table e.data.name = i ↔
      ∀ y ∈ table, sortKey digest y.data < sortKey digest e.data →
        compareQueryWithData digest e.data.name y.data = .gt := by
  constructor
  · intro heq y hy hlt
    obtain ⟨j, hj⟩ := List.mem_iff_getElem?.mp hy
    rw [← h.lt_lowerBound_iff hj, heq]
    exact (h.key_lt_iff hj hi).mp hlt
  · intro hall
    refine (lowerBound_le_of_name hi).eq_or_lt.resolve_right fun hlt => ?_
    have hget := List.getElem?_eq_getElem (hlt.trans (List.getElem?_eq_some_iff.mp hi).1)
    have habove := hall _ (List.mem_of_getElem? hget) ((h.key_lt_iff hget hi).mpr hlt)
    exact absurd ((h.lt_lowerBound_iff hget).mpr habove) (lt_irrefl _)

variable (matchesData now) in
/-- The prefix of a full name that the Data has is the name of the Data itself. -/
theorem round_full (hi : table[i]? = some e) (hname : e.data.fullName digest = interest.name) :
    round digest matchesData table now interest i (i + 1) =
      some (i :: readsUntil (CsEntry.canSatisfy matchesData now interest)
          (slice table (lowerBound digest table e.data.name) (i + 1)),
        .of (lowerBound digest table e.data.name)
          (findLeftmost matchesData table now interest (lowerBound digest table e.data.name) (i + 1))) := by
  have hshort : e.data.name.length + 1 = interest.name.length := by
    rw [← hname, Data.fullName, List.length_append, List.length_singleton]
  rw [round, hi, Option.map_some]
  dsimp only
  rw [if_neg (by omega), Name.getPrefix, List.take_of_length_le (by omega)]

/-- A loop over the Data alone reads where the entries of its name begin. -/
theorem lowerBound_mem_of_loop {reads : List Nat} {found : Option (Nat × CsEntry)} (hi : table[i]? = some e)
    (hname : e.data.fullName digest = interest.name)
    (hloop : Loop digest matchesData table now interest i (i + 1) reads found) :
    lowerBound digest table e.data.name ∈ reads := by
  have hin : lowerBound digest table e.data.name ∈ readsUntil (CsEntry.canSatisfy matchesData now interest)
      (slice table (lowerBound digest table e.data.name) (i + 1)) :=
    left_mem_readsUntil (Nat.lt_succ_of_le (lowerBound_le_of_name hi)) (List.getElem?_eq_some_iff.mp hi).1
  cases hloop with
  | returns _ hround =>
      rw [round_full matchesData now hi hname] at hround
      rw [← (Prod.mk.inj (Option.some.inj hround)).1]
      exact List.mem_cons_of_mem _ hin
  | continues _ hround =>
      rw [round_full matchesData now hi hname] at hround
      rw [← (Prod.mk.inj (Option.some.inj hround)).1]
      exact List.mem_append_left _ (List.mem_cons_of_mem _ hin)

theorem eq_of_mem_entriesOf (hi : table[i]? = some e) (hx : x ∈ entriesOf table i (i + 1)) : x = e := by
  obtain ⟨j, hj, hge, hlt⟩ := mem_entriesOf_iff.mp hx
  rw [le_antisymm (Nat.le_of_lt_succ hlt) hge, hi] at hj
  exact (Option.some.inj hj).symm

/-- A match that is alone in its range, and has the full name, is the rightmost one. -/
theorem isRightmost_of_only (hi : table[i]? = some e) (hname : e.data.fullName digest = interest.name)
    (hx : x ∈ candidates matchesData table now interest i (i + 1)) :
    IsRightmost digest interest.name (candidates matchesData table now interest i (i + 1)) (some x) := by
  obtain rfl := eq_of_mem_entriesOf hi hx.1
  refine ⟨hx, Or.inr ⟨fun y hy c hc => ?_, Or.inr hname, fun y hy _ => ?_⟩⟩
  · rw [eq_of_mem_entriesOf hi hy.1, ← hname, Data.fullName] at hc
    have hle := hc.length_le
    rw [List.length_append, List.length_append, List.length_singleton, List.length_singleton] at hle
    omega
  · rw [eq_of_mem_entriesOf hi hy.1]

/-- A full name of a Data that is stored: the loop stays in the range if the entries of the name begin at the Data. -/
theorem findsRightmost_iff_of_stored (hsorted : Sorted digest table)
    (hsucc : ∀ n : Name, n ≠ [] → IsLeast {m | ∀ n', n <+: n' → n' < m} (getSuccessor n))
    (hfull : IsFullName interest.name) (hi : table[i]? = some e) (hname : e.data.fullName digest = interest.name) :
    FindsRightmost digest getSuccessor matchesData table now interest ↔
      ∀ y ∈ table, sortKey digest y.data < sortKey digest e.data →
        compareQueryWithData digest interest.name.dropLast y.data = .gt := by
  obtain ⟨hfirst, hlast⟩ := hsorted.full_range_eq hsucc hfull hi hname
  have hdrop : interest.name.dropLast = e.data.name := by
    rw [← hname, Data.fullName, List.dropLast_concat]
  rw [hdrop, ← hsorted.lowerBound_name_eq_iff hi, FindsRightmost, hfirst, hlast]
  constructor
  · rintro ⟨reads, found, hloop, hreads, -⟩
    exact le_antisymm (lowerBound_le_of_name hi) (hreads _ (lowerBound_mem_of_loop hi hname hloop)).1
  · intro heq
    have hround := round_full matchesData now hi hname
    rw [heq] at hround
    have hreads : ∀ j ∈ i :: readsUntil (CsEntry.canSatisfy matchesData now interest) (slice table i (i + 1)),
        i ≤ j ∧ j < i + 1 := reads_in_range le_rfl le_rfl fun _ hp => hp
    cases hfound : findLeftmost matchesData table now interest i (i + 1) with
    | some p =>
        rw [hfound] at hround
        obtain ⟨hp, hsat, -⟩ := findLeftmost_eq_some hfound
        exact ⟨_, _, .returns (Nat.succ_ne_self i) hround, hreads, isRightmost_of_only hi hname ⟨⟨p.1, hp⟩, hsat⟩⟩
    | none =>
        rw [hfound] at hround
        refine ⟨_, none, .continues (Nat.succ_ne_self i) hround .stop, ?_, ?_⟩
        · rw [List.append_nil]
          exact hreads
        · refine Set.eq_empty_iff_forall_notMem.mpr fun x hx => ?_
          obtain ⟨⟨j, hj⟩, hsat⟩ := hx
          exact findLeftmost_eq_none hfound _ hj hsat

/-- For every set of stored Data and every Interest, the lookup for the rightmost match comes to its end, reads nothing
outside its range and returns the rightmost match of it exactly if it is safe. -/
theorem findRightmost_iff (digest : Data → List UInt8) (getSuccessor : Name → Name) (matchesData : MatchesData)
    (hsucc : ∀ n : Name, n ≠ [] → IsLeast {m | ∀ n', n <+: n' → n' < m} (getSuccessor n))
    (hmatch : ∀ n s d, matchesData n s d = true → n <+: d.fullName digest) (table : List CsEntry)
    (hsorted : Sorted digest table) (now : Nat) (interest : Interest) :
    FindsRightmost digest getSuccessor matchesData table now interest ↔
      RightmostSafe digest matchesData table now interest := by
  rw [RightmostSafe]
  by_cases hfull : IsFullName interest.name
  · rw [and_iff_left fun hnot => absurd hfull hnot, forall_prop_of_true hfull]
    by_cases hstored : ∃ x ∈ table, x.data.fullName digest = interest.name
    · obtain ⟨e, he, hname⟩ := hstored
      obtain ⟨i, hi⟩ := List.mem_iff_getElem?.mp he
      rw [findsRightmost_iff_of_stored hsorted hsucc hfull hi hname]
      constructor
      · intro hall x hx hxname
        rw [hsorted.eq_of_key_eq hx he (sortKey_eq_iff.mpr (hxname.trans hname.symm))]
        exact hall
      · exact fun hall => hall e he hname
    · push Not at hstored
      exact iff_of_true (findsRightmost_of_absent hsorted hsucc hfull hstored)
        fun x hx hname => absurd hname (hstored x hx)
  · rw [and_iff_right fun hyes => absurd hyes hfull, forall_prop_of_true hfull]
    exact findsRightmost_iff_of_not_full hsorted hsucc hmatch hfull

/-- What `Cs::find` gives is then the rightmost match. -/
theorem find_of_findsRightmost {π : Type} {policy : CsPolicy π} {cs : Cs π}
    (hchild : interest.selectors.childSelector = some 1)
    (h : FindsRightmost digest getSuccessor matchesData cs.table now interest) :
    ∃ found, IsRightmost digest interest.name (candidates matchesData cs.table now interest
        (lookupFirst digest cs.table interest) (lookupLast digest getSuccessor cs.table interest)) found ∧
      (find digest getSuccessor matchesData policy cs now interest).2 = found.map CsEntry.data := by
  obtain ⟨reads, found, hloop, -, hrightmost⟩ := h
  have hfind := hloop.findRightmost (Nat.lt_succ_of_le (lookupLast_le_length digest getSuccessor cs.table interest))
  rw [lookupFirst, lookupLast] at hfind
  refine ⟨found.map Prod.snd, hrightmost, ?_⟩
  unfold find
  dsimp only
  rw [if_pos hchild, hfind]
  cases found with
  | none => rfl
  | some p => rfl

/-- An Interest with ChildSelector 1. -/
def rightmostInterest (name : Name) : Interest :=
  { plainInterest name with selectors := { Selectors.empty with childSelector := some 1 } }

/-- Under a name, the Data below it is the rightmost match. -/
theorem findRightmost_three :
    FindsRightmost contentDigest successorName (matchesSuffix contentDigest) threeStored.table 0
      (rightmostInterest [.ofByte 65]) := by
  refine (findRightmost_iff contentDigest successorName (matchesSuffix contentDigest) (fun _ hn =>
    successorName_isLeast hn) (fun _ _ _ h => prefix_of_matchesSuffix h) threeStored.table threeStored_sorted 0
    (rightmostInterest [.ofByte 65])).mpr ⟨fun hfull => absurd hfull (by decide), fun _ => Or.inl ?_⟩
  have hstored : ∃ x ∈ threeStored.table, x.canSatisfy (matchesSuffix contentDigest) 0
    (rightmostInterest [.ofByte 65]) = true ∧ [Component.ofByte 65] ++ [.ofByte 66] <+: x.data.name := by decide +kernel
  obtain ⟨x, hx, hsat, hlonger⟩ := hstored
  exact ⟨x, ⟨hx, hsat⟩, .ofByte 66, rfl, hlonger⟩

/-- An Interest for the full name of the second Data of one name, that wants a suffix component more. -/
def fullNameInterest : Interest :=
  { plainInterest [.ofByte 65, ⟨true, 8 :: List.replicate 31 0⟩] with
    selectors := { Selectors.empty with childSelector := some 1, minSuffixComponents := some 1 } }

/-- The loop leaves the range for the first Data of the name, and goes on before the beginning of the table. -/
theorem findRightmost_runs_past :
    fullNameInterest.selectors.childSelector = some 1 ∧ Sorted contentDigest threeStored.table ∧
      (∀ n : Name, n ≠ [] → IsLeast {m | ∀ n', n <+: n' → n' < m} (successorName n)) ∧
      (∀ n s d, matchesSuffix contentDigest n s d = true → n <+: d.fullName contentDigest) ∧
      ¬ FindsRightmost contentDigest successorName (matchesSuffix contentDigest) threeStored.table 0
      fullNameInterest := by
  refine ⟨rfl, threeStored_sorted, fun _ hn => successorName_isLeast hn, fun _ _ _ h => prefix_of_matchesSuffix h, ?_⟩
  rintro ⟨reads, found, hloop, -⟩
  have hfirst : lookupFirst contentDigest threeStored.table fullNameInterest = 1 := by decide +kernel
  have hlast : lookupLast contentDigest successorName threeStored.table fullNameInterest = 2 := by decide +kernel
  have hround : round contentDigest (matchesSuffix contentDigest) threeStored.table 0 fullNameInterest 1 2 =
      some ([1, 0, 1], .continues 0) := by decide +kernel
  rw [hfirst, hlast] at hloop
  cases hloop with
  | returns _ hround' =>
      rw [hround] at hround'
      cases hround'
  | continues _ hround' hrest =>
      rw [hround] at hround'
      cases hround'
      cases hrest with
      | returns _ hpast => cases hpast
      | continues _ hpast => cases hpast

end Cs
end NfdPitless
