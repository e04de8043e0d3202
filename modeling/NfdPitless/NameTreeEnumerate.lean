import NfdPitless.NameTreeInvariant
import NfdPitless.Iteration
import Mathlib.Tactic.NormNum

/-! The full enumeration of the name tree (`NameTree::fullEnumerate` and its iterator): the chains of all
buckets, one after the other. The iterator keeps the position of a bucket in an `int`, so it goes through the
table only as long as the number of buckets is one. -/

namespace NfdPitless

/-- The conversion of a `size_t` to `int`. -/
def toInt (n : Nat) : Int := (n : Int).bmod (2 ^ 32)

theorem toInt_of_lt {n : Nat} (h : n < 2 ^ 31) : toInt n = n := by
  refine Int.bmod_eq_of_le ?_ ?_
  · norm_num
  · norm_num
    omega

namespace NameTree

/-- The nodes after the one of an entry in its chain. -/
def chainAfter (t : NameTree) (r : Ref) : List Ref :=
  (((List.range t.nBuckets).map t.buckets).find? fun chain => chain.contains r).elim [] fun chain =>
    (chain.dropWhile fun x => x != r).tail

/-- The buckets after that of a hash; a negative position is outside the table. -/
def bucketsAfter (t : NameTree) (hash : UInt64) : Option (List Nat) :=
  let newLocation := toInt (hash.toNat % t.nBuckets + 1)
  let stop := toInt t.nBuckets
  if newLocation < 0 ∧ newLocation < stop then none
  else some (List.range' newLocation.toNat (stop - newLocation).toNat)

/-- `operator++` of a full enumeration. When the rest of the chain has no selected entry, the iterator has
moved to the last entry of the chain, and goes on with the buckets after the one of that entry's hash. -/
def fullNext (t : NameTree) (entrySelector : EntrySelector) (r : Ref) : Option (Option Ref) :=
  match (t.chainAfter r).find? (t.selects entrySelector) with
  | some r' => some (some r')
  | none =>
      (t.entries ((t.chainAfter r).getLast?.getD r)).bind fun e =>
        (t.bucketsAfter e.hash).map fun bs => bs.findSome? fun b => (t.buckets b).find? (t.selects entrySelector)

/-- The first eligible entry. -/
def fullBegin (t : NameTree) (entrySelector : EntrySelector) : Option Ref :=
  (List.range t.nBuckets).findSome? fun b => (t.buckets b).find? (t.selects entrySelector)

/-- The entries visited, if the enumeration comes to an end. It visits no more entries than there are
addresses, unless it visits one again and never ends. -/
def fullEnumerate (t : NameTree) (entrySelector : EntrySelector) : Option (List Ref) :=
  Iteration.visits (t.fullNext entrySelector) t.nextRef (t.fullBegin entrySelector)

/-- The nodes of all chains, bucket by bucket. -/
def nodes (t : NameTree) : List Ref := (List.range t.nBuckets).flatMap t.buckets

variable {cityHash : Component → UInt64} {t : NameTree} {entrySelector : EntrySelector} {r r' : Ref} {n : Name}

theorem fullBegin_eq (t : NameTree) (entrySelector : EntrySelector) :
    t.fullBegin entrySelector = t.nodes.find? (t.selects entrySelector) := by
  rw [fullBegin, nodes, List.find?_flatMap]

theorem Sound.loc_of_mem (h : t.Sound cityHash) {b : Nat} (hr : r ∈ t.buckets b) :
    ∃ e, t.entries r = some e ∧ e.hash.toNat % t.nBuckets = b := by
  obtain ⟨n, hn, hloc⟩ := h.mem_bucket.mp hr
  obtain ⟨e, he, rfl⟩ := nameOf_eq_some.mp hn
  refine ⟨e, he, ?_⟩
  rw [h.hash_eq he]
  exact hloc

theorem Sound.bucket_unique (h : t.Sound cityHash) {b b' : Nat} (hr : r ∈ t.buckets b) (hr' : r ∈ t.buckets b') :
    b = b' := by
  obtain ⟨e, he, hb⟩ := h.loc_of_mem hr
  obtain ⟨e', he', hb'⟩ := h.loc_of_mem hr'
  rw [he] at he'
  cases he'
  exact hb.symm.trans hb'

theorem Sound.lt_of_mem_bucket (h : t.Sound cityHash) {b : Nat} (hr : r ∈ t.buckets b) : b < t.nBuckets := by
  obtain ⟨e, -, hb⟩ := h.loc_of_mem hr
  rw [← hb]
  exact Nat.mod_lt _ h.nBuckets_pos

/-- An entry's chain is that of its bucket. -/
theorem Sound.chainAfter_eq (h : t.Sound cityHash) {b : Nat} {before after : List Ref}
    (hb : t.buckets b = before ++ r :: after) : t.chainAfter r = after := by
  have hr : r ∈ t.buckets b := by rw [hb]; simp
  have hfind : (((List.range t.nBuckets).map t.buckets).find? fun chain => chain.contains r) = some (t.buckets b) := by
    cases hfind : ((List.range t.nBuckets).map t.buckets).find? fun chain => chain.contains r with
    | none =>
        have hmem : t.buckets b ∈ (List.range t.nBuckets).map t.buckets :=
          List.mem_map_of_mem (List.mem_range.mpr (h.lt_of_mem_bucket hr))
        exact absurd (List.contains_iff_mem.mpr hr) (by simpa using List.find?_eq_none.mp hfind _ hmem)
    | some chain =>
        have hcontains := List.find?_some hfind
        have hin : r ∈ chain := List.contains_iff_mem.mp hcontains
        obtain ⟨b', -, rfl⟩ := List.mem_map.mp (List.mem_of_find?_eq_some hfind)
        rw [h.bucket_unique hr hin]
  have hnotin : r ∉ before := by
    have hnodup := h.bucket_nodup b
    rw [hb, List.nodup_append] at hnodup
    exact fun hmem => hnodup.2.2 r hmem r List.mem_cons_self rfl
  have hdrop : (before ++ r :: after).dropWhile (fun x => x != r) = r :: after := by
    have hpass : ∀ x ∈ before, (x != r) = true := by
      intro x hx
      rw [bne_iff_ne]
      rintro rfl
      exact hnotin hx
    rw [List.dropWhile_append_of_pos hpass]
    simp
  rw [chainAfter, hfind, Option.elim, hb, hdrop, List.tail_cons]

/-- Whichever entry the iterator is at when it leaves a chain, its bucket is that of the chain. -/
theorem Sound.last_of_chain (h : t.Sound cityHash) {b : Nat} {before after : List Ref}
    (hchain : t.buckets b = before ++ r :: after) :
    ∃ e, t.entries (after.getLast?.getD r) = some e ∧ e.hash.toNat % t.nBuckets = b := by
  refine h.loc_of_mem ?_
  rw [hchain]
  cases hlast : after.getLast? with
  | none => simp
  | some last => simp [List.mem_of_getLast? hlast]

/-- Below `2 ^ 31` buckets the iterator goes on with the next bucket. -/
theorem bucketsAfter_eq (hint : t.nBuckets < 2 ^ 31) (hpos : 0 < t.nBuckets) (hash : UInt64) :
    t.bucketsAfter hash = some (List.range' (hash.toNat % t.nBuckets + 1)
      (t.nBuckets - (hash.toNat % t.nBuckets + 1))) := by
  have hlt : hash.toNat % t.nBuckets < t.nBuckets := Nat.mod_lt _ hpos
  have hlocation : toInt (hash.toNat % t.nBuckets + 1) = (hash.toNat % t.nBuckets + 1 : Nat) := toInt_of_lt (by omega)
  have hstop : toInt t.nBuckets = (t.nBuckets : Nat) := toInt_of_lt hint
  have hcount : ((t.nBuckets : Int) - (hash.toNat % t.nBuckets + 1 : Nat)).toNat =
      t.nBuckets - (hash.toNat % t.nBuckets + 1) := Int.toNat_sub _ _
  unfold bucketsAfter
  dsimp only
  rw [hlocation, hstop, if_neg fun hneg => absurd hneg.1 (Int.not_lt.mpr (Int.natCast_nonneg _)), Int.toNat_natCast,
    hcount]

theorem nodes_split (t : NameTree) {b : Nat} (hb : b < t.nBuckets) :
    t.nodes = (List.range b).flatMap t.buckets ++ (t.buckets b ++
      (List.range' (b + 1) (t.nBuckets - (b + 1))).flatMap t.buckets) := by
  have hrange : List.range t.nBuckets = List.range b ++ b :: List.range' (b + 1) (t.nBuckets - (b + 1)) := by
    calc List.range t.nBuckets = List.range' 0 (b + (t.nBuckets - (b + 1) + 1)) := by
          rw [List.range_eq_range']
          congr 1
          omega
      _ = List.range' 0 b ++ List.range' b (t.nBuckets - (b + 1) + 1) := by
          rw [← List.range'_append_1, Nat.zero_add]
      _ = List.range b ++ b :: List.range' (b + 1) (t.nBuckets - (b + 1)) := by
          rw [List.range_eq_range', List.range'_succ]
  rw [nodes, hrange, List.flatMap_append, List.flatMap_cons]

/-- The iterator goes to the next selected node. -/
theorem Sound.fullNext_eq (h : t.Sound cityHash) (hint : t.nBuckets < 2 ^ 31) {before after : List Ref}
    (hsplit : t.nodes = before ++ r :: after) :
    t.fullNext entrySelector r = some (after.find? (t.selects entrySelector)) := by
  have hmem : r ∈ t.nodes := by rw [hsplit]; simp
  obtain ⟨b, -, hb⟩ := List.mem_flatMap.mp hmem
  obtain ⟨before', after', hchain⟩ := List.append_of_mem hb
  have hrest : after = after' ++ (List.range' (b + 1) (t.nBuckets - (b + 1))).flatMap t.buckets := by
    have hnodes := t.nodes_split (h.lt_of_mem_bucket hb)
    have hnodup : t.nodes.Nodup := h.nodes_nodup
    rw [hchain, List.append_assoc, ← List.append_assoc, List.cons_append] at hnodes
    have hnotin : ∀ {l l' : List Ref}, t.nodes = l ++ r :: l' → r ∉ l := by
      intro l l' heq hin
      rw [heq, List.nodup_append] at hnodup
      exact hnodup.2.2 r hin r List.mem_cons_self rfl
    have hnotin' : ∀ {l l' : List Ref}, t.nodes = l ++ r :: l' → r ∉ l' := by
      intro l l' heq hin
      rw [heq, List.nodup_append, List.nodup_cons] at hnodup
      exact hnodup.2.1.1 hin
    have heq := hsplit.symm.trans hnodes
    exact ((List.append_cons_inj_of_notMem (hnotin hnodes) (hnotin' hnodes)).mp heq.symm).2.2.symm
  obtain ⟨e, he, hloc⟩ := h.last_of_chain hchain
  rw [fullNext, h.chainAfter_eq hchain, hrest, List.find?_append]
  cases after'.find? (t.selects entrySelector) with
  | some r' => rfl
  | none =>
      dsimp only
      rw [he, Option.bind_some, bucketsAfter_eq hint h.nBuckets_pos, hloc, Option.map_some, List.find?_flatMap]
      rfl

/-- The enumeration visits every selected entry once and comes to an end. -/
theorem Sound.fullEnumerate_eq (h : t.Sound cityHash) (hint : t.nBuckets < 2 ^ 31) (entrySelector : EntrySelector) :
    t.fullEnumerate entrySelector = some (t.nodes.filter (t.selects entrySelector)) := by
  have hfollows : Iteration.Follows (t.fullNext entrySelector) (t.nodes.filter (t.selects entrySelector)) :=
    Iteration.follows_filter fun before r after hsplit _ => h.fullNext_eq hint hsplit
  have hlength : (t.nodes.filter (t.selects entrySelector)).length ≤ t.nextRef := by
    have hnodup : (t.nodes.filter (t.selects entrySelector)).Nodup := h.nodes_nodup.filter _
    have hlt : ∀ r ∈ t.nodes.filter (t.selects entrySelector), r ∈ List.range t.nextRef := by
      intro r hr
      obtain ⟨n, hn⟩ := h.mem_nodes.mp (List.mem_of_mem_filter hr)
      exact List.mem_range.mpr (h.fresh hn)
    calc (t.nodes.filter (t.selects entrySelector)).length ≤ (List.range t.nextRef).length :=
          (hnodup.subperm hlt).length_le
      _ = t.nextRef := List.length_range
  rw [fullEnumerate, fullBegin_eq, ← List.head?_filter]
  exact hfollows.visits_eq hlength

/-- What the enumeration visits. -/
theorem Sound.mem_fullEnumerate (h : t.Sound cityHash) {visited : List Ref} (hint : t.nBuckets < 2 ^ 31)
    (hvisited : t.fullEnumerate entrySelector = some visited) :
    visited.Nodup ∧ ∀ r, r ∈ visited ↔ ∃ e, t.entries r = some e ∧ entrySelector e = true := by
  rw [h.fullEnumerate_eq hint] at hvisited
  cases hvisited
  refine ⟨h.nodes_nodup.filter _, fun r => ?_⟩
  rw [List.mem_filter, selects, Option.any_eq_true]
  constructor
  · exact fun hr => hr.2
  · rintro ⟨e, he, hsel⟩
    exact ⟨h.mem_nodes.mpr ⟨_, nameOf_eq_some.mpr ⟨e, he, rfl⟩⟩, e, he, hsel⟩

/-- At `2 ^ 31` buckets the number of buckets is a negative `int`, so there is no next bucket. -/
theorem bucketsAfter_wide (hb : t.nBuckets = 2 ^ 31) (hash : UInt64) : t.bucketsAfter hash = some [] := by
  have hstop : toInt (2 ^ 31) = -2 ^ 31 := by decide
  have hlow : -2 ^ 31 ≤ toInt (hash.toNat % 2 ^ 31 + 1) := Int.le_bmod (by decide)
  have hempty : (toInt (2 ^ 31) - toInt (hash.toNat % 2 ^ 31 + 1)).toNat = 0 := by omega
  simp only [bucketsAfter, hb, hempty, List.range'_zero]
  rw [if_neg (by omega)]

/-- The iterator does not leave the first chain. -/
theorem Sound.fullNext_wide (h : t.Sound cityHash) (hb : t.nBuckets = 2 ^ 31) {b : Nat} {before after : List Ref}
    (hchain : t.buckets b = before ++ r :: after) :
    t.fullNext entrySelector r = some (after.find? (t.selects entrySelector)) := by
  obtain ⟨e, he, -⟩ := h.last_of_chain hchain
  rw [fullNext, h.chainAfter_eq hchain]
  cases hfind : after.find? (t.selects entrySelector) with
  | some r' => rfl
  | none =>
      dsimp only
      rw [he, Option.bind_some, bucketsAfter_wide hb]
      rfl

/-- So the enumeration visits one chain only. -/
theorem Sound.fullEnumerate_wide (h : t.Sound cityHash) (hb : t.nBuckets = 2 ^ 31) (entrySelector : EntrySelector) :
    ∃ b, t.fullEnumerate entrySelector = some ((t.buckets b).filter (t.selects entrySelector)) := by
  obtain ⟨b, hbegin⟩ : ∃ b, t.fullBegin entrySelector = (t.buckets b).find? (t.selects entrySelector) := by
    cases hbegin : t.fullBegin entrySelector with
    | none =>
        refine ⟨0, (List.findSome?_eq_none_iff.mp hbegin 0 ?_).symm⟩
        exact List.mem_range.mpr h.nBuckets_pos
    | some first =>
        obtain ⟨b, -, hfirst⟩ := List.exists_of_findSome?_eq_some hbegin
        exact ⟨b, hfirst.symm⟩
  refine ⟨b, ?_⟩
  have hfollows : Iteration.Follows (t.fullNext entrySelector) ((t.buckets b).filter (t.selects entrySelector)) :=
    Iteration.follows_filter fun _ _ _ hsplit _ => h.fullNext_wide hb hsplit
  have hlength : ((t.buckets b).filter (t.selects entrySelector)).length ≤ t.nextRef := by
    have hlt : ∀ r ∈ (t.buckets b).filter (t.selects entrySelector), r ∈ List.range t.nextRef := by
      intro r hr
      obtain ⟨n, hn, -⟩ := h.mem_bucket.mp (List.mem_of_mem_filter hr)
      exact List.mem_range.mpr (h.fresh hn)
    calc ((t.buckets b).filter (t.selects entrySelector)).length ≤ (List.range t.nextRef).length :=
          (((h.bucket_nodup b).filter _).subperm hlt).length_le
      _ = t.nextRef := List.length_range
  rw [fullEnumerate, hbegin, ← List.head?_filter]
  exact hfollows.visits_eq hlength

end NameTree
end NfdPitless
