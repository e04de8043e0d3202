import NfdPitless.PitMatch
import NfdPitless.NameTreeEnumerate
import NfdPitless.NameTreeGrowth

/-! The PIT as a set (`Pit::insert`, `Pit::erase` and the iterator of `daemon/table/pit.hpp`): one entry for a
name and selectors, counted once and visited once. The iterator goes through the entries of a name tree entry
and then to the next name tree entry of a full enumeration, so it visits all of them as long as the number of
buckets is an `int`. -/

namespace NfdPitless.Pit

variable {cityHash : Component → UInt64} {p p' : Pit} {interest : Interest} {r nte : Ref}

/-- `const_iterator`: a name tree entry and the index of one of its PIT entries. -/
abbrev Iterator := Ref × Nat

def begin (p : Pit) : Option Iterator := (p.nameTree.fullBegin Entry.hasPitEntries).map fun nte => (nte, 0)

/-- `operator++` -/
def next (p : Pit) (it : Iterator) : Option (Option Iterator) :=
  if it.2 + 1 < (p.nameTree.pitEntriesOf it.1).length then some (some (it.1, it.2 + 1))
  else (p.nameTree.fullNext Entry.hasPitEntries it.1).map fun nte => nte.map fun nte => (nte, 0)

/-- `operator->`; there is no entry at an index out of range. -/
def deref (p : Pit) (it : Iterator) : Option Ref := (p.nameTree.pitEntriesOf it.1)[it.2]?

/-- What the iterator points to from the beginning to the end, if it gets there. It visits no more entries than
there are addresses, unless it never ends. -/
def iterate (p : Pit) : Option (List (Option Ref)) :=
  (Iteration.visits p.next p.nextRef p.begin).map fun its => its.map p.deref

/-- The positions at one name tree entry. -/
def positions (p : Pit) (nte : Ref) : List Iterator :=
  (List.range (p.nameTree.pitEntriesOf nte).length).map fun i => (nte, i)

theorem deref_positions (p : Pit) (nte : Ref) :
    (p.positions nte).map p.deref = (p.nameTree.pitEntriesOf nte).map some := by
  rw [positions, List.map_map]
  apply List.ext_getElem?
  intro i
  by_cases hi : i < (p.nameTree.pitEntriesOf nte).length
  · simp [deref, hi]
  · simp [hi]

/-- The nodes with PIT entries, bucket by bucket. -/
def occupied (p : Pit) : List Ref := p.nameTree.nodes.filter (p.nameTree.selects Entry.hasPitEntries)

/-- The PIT entries in the order of the nodes they are attached to. -/
def listed (p : Pit) : List Ref := p.occupied.flatMap p.nameTree.pitEntriesOf

theorem pitEntriesOf_ne_nil (h : p.nameTree.selects Entry.hasPitEntries nte = true) :
    p.nameTree.pitEntriesOf nte ≠ [] := by
  obtain ⟨e, he, hpit⟩ := (Option.any_eq_true _ _).mp h
  rw [NameTree.pitEntriesOf_eq he]
  simpa [Entry.hasPitEntries] using hpit

theorem Sound.follows (h : p.Sound cityHash) (hint : p.nameTree.nBuckets < 2 ^ 31) :
    Iteration.Follows p.next (p.occupied.flatMap p.positions) := by
  have hnodes : Iteration.Follows (p.nameTree.fullNext Entry.hasPitEntries) p.occupied :=
    Iteration.follows_filter fun before x after hsplit _ => h.tree.toSound.fullNext_eq hint hsplit
  have hfirst : ∀ x ∈ p.occupied, (p.positions x).head? = some (x, 0) := by
    intro x hx
    have hpos := List.length_pos_iff.mpr (pitEntriesOf_ne_nil (List.mem_filter.mp hx).2)
    rw [positions, List.head?_map, List.head?_range, if_neg hpos.ne']
    rfl
  refine hnodes.flatMap hfirst fun x hx before it after hsplit => ?_
  have hlength := congrArg List.length hsplit
  rw [positions, List.length_map, List.length_range, List.length_append, List.length_cons] at hlength
  have hat : ∀ j, (p.positions x)[before.length + j]? = (it :: after)[j]? := by
    intro j
    rw [hsplit, List.getElem?_append_right (Nat.le_add_right _ _), Nat.add_sub_cancel_left]
  have hindex : ∀ i, i < (p.nameTree.pitEntriesOf x).length → (p.positions x)[i]? = some (x, i) := by
    intro i hi
    simp [positions, hi]
  have hit : it = (x, before.length) := by
    have heq := (hindex before.length (by omega)).symm.trans (hat 0)
    exact (Option.some.inj heq).symm
  subst hit
  unfold next
  dsimp only
  cases after with
  | nil =>
      rw [if_neg (by simp only [List.length_nil] at hlength; omega)]
  | cons it' after =>
      simp only [List.length_cons] at hlength
      have heq := (hindex (before.length + 1) (by omega)).symm.trans (hat 1)
      have hit' : it' = (x, before.length + 1) := (Option.some.inj heq).symm
      rw [if_pos (by omega), hit']

theorem Sound.listed_nodup (h : p.Sound cityHash) : p.listed.Nodup := by
  rw [listed, List.nodup_flatMap]
  refine ⟨fun x _ => h.linked.nodup x, (h.tree.toSound.nodes_nodup.filter _).imp fun {x y} hne r hx hy => ?_⟩
  obtain ⟨e, he, hxe⟩ := h.linked.owned hx
  obtain ⟨e', he', hye⟩ := h.linked.owned hy
  rw [he] at he'
  cases he'
  rw [hxe] at hye
  exact hne (Option.some.inj hye)

theorem Sound.mem_listed (h : p.Sound cityHash) : r ∈ p.listed ↔ (p.entries r).isSome := by
  rw [listed, List.mem_flatMap]
  constructor
  · rintro ⟨x, -, hr⟩
    obtain ⟨e, he, -⟩ := h.linked.owned hr
    rw [he]
    rfl
  · intro hr
    obtain ⟨e, he⟩ := Option.isSome_iff_exists.mp hr
    obtain ⟨x, hx, hmem⟩ := h.linked.attached he
    obtain ⟨ne, hne, hpit⟩ := NameTree.isSome_of_mem_pitEntriesOf hmem
    have hstored : x ∈ p.nameTree.nodes := h.tree.toSound.mem_nodes.mpr ⟨_, NameTree.nameOf_eq_some.mpr ⟨ne, hne, rfl⟩⟩
    refine ⟨x, List.mem_filter.mpr ⟨hstored, ?_⟩, hmem⟩
    rw [NameTree.selects, hne]
    exact hasPitEntries_eq_true.mpr (List.ne_nil_of_mem hpit)

/-- The iterator visits every entry once and comes to the end. -/
theorem Sound.iterate_eq (h : p.Sound cityHash) (hint : p.nameTree.nBuckets < 2 ^ 31) :
    p.iterate = some (p.listed.map some) := by
  have hfollows := h.follows hint
  have hderef : (p.occupied.flatMap p.positions).map p.deref =
      p.listed.map some := by
    rw [listed, List.map_flatMap, List.map_flatMap]
    exact congrArg (List.flatMap · _) (funext p.deref_positions)
  have hlength : (p.occupied.flatMap p.positions).length ≤
      p.nextRef := by
    have hlt : ∀ r ∈ p.listed, r ∈ List.range p.nextRef := by
      intro r hr
      obtain ⟨e, he⟩ := Option.isSome_iff_exists.mp (h.mem_listed.mp hr)
      exact List.mem_range.mpr (h.linked.fresh he)
    calc (p.occupied.flatMap p.positions).length
        = p.listed.length := by
          rw [← List.length_map p.deref, hderef, List.length_map]
      _ ≤ (List.range p.nextRef).length := (h.listed_nodup.subperm hlt).length_le
      _ = p.nextRef := List.length_range
  have hbegin : p.begin = (p.occupied.flatMap p.positions).head? := by
    rw [begin, NameTree.fullBegin_eq, ← List.head?_filter, ← occupied]
    cases hnodes : p.occupied with
    | nil => rfl
    | cons x l =>
        have hx : x ∈ p.occupied := by
          rw [hnodes]
          exact List.mem_cons_self
        have hpos := List.length_pos_iff.mpr (pitEntriesOf_ne_nil (List.mem_filter.mp hx).2)
        rw [List.flatMap_cons, List.head?_append, positions, List.head?_map, List.head?_range, if_neg hpos.ne']
        rfl
  rw [iterate, hbegin, hfollows.visits_eq hlength, Option.map_some, hderef]

/-! ### Runs of insertions and erasures -/

/-- The entries attached to name tree entries. -/
def attachedEntries (p : Pit) : Set Ref := { r | ∃ nte, r ∈ p.nameTree.pitEntriesOf nte }

/-- The entry of an Interest. -/
def IsEntryOf (p : Pit) (interest : Interest) (r : Ref) : Prop :=
  ∃ e, p.entries r = some e ∧ e.interest.name = interest.name ∧ e.interest.selectors = interest.selectors

/-- The size of the table is the number of its entries. -/
structure Counted (cityHash : Component → UInt64) (p : Pit) : Prop where
  sound : p.Sound cityHash
  nItems_eq : p.nItems = p.attachedEntries.ncard
  small : p.nameTree.nBuckets < 2 ^ 31

/-- The operation leaves a number of buckets that is an `int`. -/
def Small (cityHash : Component → UInt64) (p : Pit) : Op → Prop
  | .insert interest => (p.nameTree.lookup cityHash interest.name).1.nBuckets < 2 ^ 31
  | .erase _ => True

theorem Linked.mem_attachedEntries (h : p.Linked) : r ∈ p.attachedEntries ↔ (p.entries r).isSome := by
  constructor
  · rintro ⟨nte, hr⟩
    obtain ⟨e, he, -⟩ := h.owned hr
    rw [he]
    rfl
  · intro hr
    obtain ⟨e, he⟩ := Option.isSome_iff_exists.mp hr
    obtain ⟨nte, -, hmem⟩ := h.attached he
    exact ⟨nte, hmem⟩

theorem Linked.attachedEntries_finite (h : p.Linked) : p.attachedEntries.Finite := by
  refine (Set.finite_lt_nat p.nextRef).subset fun r hr => ?_
  obtain ⟨e, he⟩ := Option.isSome_iff_exists.mp (h.mem_attachedEntries.mp hr)
  exact h.fresh he

theorem eraseEntryIfEmpty_nBuckets_le (t : NameTree) (r : Ref) : (t.eraseEntryIfEmpty r).1.nBuckets ≤ t.nBuckets := by
  refine NameTree.eraseUp_rule (I := fun u => u.nBuckets ≤ t.nBuckets) (fun u r e _ _ h => ?_) (fun u h => ?_) _ le_rfl
  · rwa [NameTree.removed_nBuckets]
  · unfold NameTree.shrinkIfSparse
    split
    · exact (Nat.div_le_self _ _).trans h
    · exact h

theorem Counted.insert (h : p.Counted cityHash) {isNew : Bool} (hins : p.insert cityHash interest = some (p', r, isNew))
    (hsmall : (p.nameTree.lookup cityHash interest.name).1.nBuckets < 2 ^ 31) : p'.Counted cityHash := by
  have hsound : p'.Sound cityHash := h.sound.insert hins (by omega)
  obtain ⟨t, nte, hlook, -, -, ⟨x, -, -, hins'⟩ | ⟨-, hins'⟩⟩ := h.sound.linked.insert_cases cityHash interest
  · rw [hlook] at hsmall
    rw [hins] at hins'
    cases hins'
    refine ⟨hsound, ?_, hsmall⟩
    have hset : ({ p with nameTree := t } : Pit).attachedEntries = p.attachedEntries := by
      ext y
      rw [hsound.linked.mem_attachedEntries, h.sound.linked.mem_attachedEntries]
    rw [hset, ← h.nItems_eq]
  · rw [hlook] at hsmall
    rw [hins] at hins'
    cases hins'
    refine ⟨hsound, ?_, by rwa [Pit.inserted, NameTree.setPitEntries, NameTree.modifyEntry_nBuckets]⟩
    have hset : (p.inserted t nte interest).attachedEntries = Insert.insert p.nextRef p.attachedEntries := by
      ext y
      rw [Set.mem_insert_iff, hsound.linked.mem_attachedEntries, h.sound.linked.mem_attachedEntries, inserted_entries]
      by_cases hy : y = p.nextRef
      · simp [hy]
      · simp [hy]
    have hnot : p.nextRef ∉ p.attachedEntries := by
      rw [h.sound.linked.mem_attachedEntries, h.sound.linked.nextRef_free]
      simp
    rw [hset, Set.ncard_insert_of_notMem hnot h.sound.linked.attachedEntries_finite, ← h.nItems_eq]
    rfl

theorem Counted.erase (h : p.Counted cityHash) (herase : p.erase r = some p') : p'.Counted cityHash := by
  have hsound := h.sound.erase herase
  cases he : p.entries r with
  | none => simp [Pit.erase, he] at herase
  | some e =>
      obtain ⟨nte, hnte, hmem⟩ := h.sound.linked.attached he
      obtain ⟨p₁, hp₁, -, hentries, -⟩ := h.sound.linked.erase he
      rw [herase] at hp₁
      cases hp₁
      simp only [Pit.erase, he, Option.bind_some, hnte, hmem, if_true, Option.some.injEq] at herase
      have htree : p'.nameTree = ((p.nameTree.setPitEntries nte fun entries =>
          Lists.swapPop entries r).eraseEntryIfEmpty nte).1 := by
        rw [← herase]
      have hitems : p'.nItems = p.nItems - 1 := by
        rw [← herase]
      have hset : p'.attachedEntries = p.attachedEntries \ {r} := by
        ext y
        rw [Set.mem_sdiff, Set.mem_singleton_iff, hsound.linked.mem_attachedEntries, h.sound.linked.mem_attachedEntries,
          hentries]
        by_cases hy : y = r
        · simp [hy]
        · simp [hy]
      refine ⟨hsound, ?_, ?_⟩
      · have hr : r ∈ p.attachedEntries := h.sound.linked.mem_attachedEntries.mpr (by rw [he]; rfl)
        rw [hset, Set.ncard_sdiff_singleton_of_mem hr, hitems, h.nItems_eq]
      · rw [htree]
        refine (eraseEntryIfEmpty_nBuckets_le _ _).trans_lt ?_
        rw [NameTree.setPitEntries, NameTree.modifyEntry_nBuckets]
        exact h.small

theorem Counted.apply (h : p.Counted cityHash) {op : Op} (hsmall : p.Small cityHash op)
    (happly : p.apply cityHash op = some p') : p'.Counted cityHash := by
  cases op with
  | insert interest =>
      obtain ⟨⟨p₁, r, isNew⟩, hins, rfl⟩ := Option.map_eq_some_iff.mp happly
      exact h.insert hins hsmall
  | erase r => exact h.erase happly

theorem counted_of_reach {k : Nat} (hk : 2 ^ k < 2 ^ 31)
    (hr : Reach (Pit.apply cityHash) (Small cityHash) (new (2 ^ k)) p) : p.Counted cityHash := by
  have hk' : k ≤ 32 := ((Nat.pow_lt_pow_iff_right (by decide)).mp hk).le.trans (by decide)
  refine hr.invariant ⟨new_sound hk', ?_, hk⟩ fun _ _ _ h hsmall happly => h.apply hsmall happly
  have hempty : (new (2 ^ k)).attachedEntries = ∅ := by
    ext y
    rw [(new_linked _).mem_attachedEntries]
    simp [new]
  rw [hempty, Set.ncard_empty]
  rfl

/-- The table as a set of entries: at most one for a name and selectors, each attached to the name tree entry of
its name, which points to it once and to which it points, counted, and visited once by the iterator, which comes to
the end. -/
structure Enumerated (p : Pit) : Prop where
  unique : ∀ interest r r', p.IsEntryOf interest r → p.IsEntryOf interest r' → r = r'
  attached : ∀ r e, p.entries r = some e → ∃ nte, e.nameTreeEntry = some nte ∧
    p.nameTree.nameOf nte = some e.interest.name ∧ (p.nameTree.pitEntriesOf nte).count r = 1
  owned : ∀ nte r, r ∈ p.nameTree.pitEntriesOf nte → ∃ e, p.entries r = some e ∧ e.nameTreeEntry = some nte
  size : p.nItems = p.attachedEntries.ncard
  iterated : ∃ visited : List Ref, p.iterate = some (visited.map some) ∧ visited.Nodup ∧
    ∀ r, r ∈ visited ↔ r ∈ p.attachedEntries

/-- An insertion returns an entry of the Interest, and says that it is not new exactly if there is one. -/
def Inserts (cityHash : Component → UInt64) (p : Pit) (interest : Interest) : Prop :=
  ∃ p' r isNew, p.insert cityHash interest = some (p', r, isNew) ∧ p'.IsEntryOf interest r ∧
    (isNew = false ↔ ∃ r', p.IsEntryOf interest r') ∧ (isNew = false → p.IsEntryOf interest r)

theorem Counted.enumerated (h : p.Counted cityHash) : p.Enumerated where
  unique := by
    rintro interest r r' ⟨e, he, hname, hsel⟩ ⟨e', he', hname', hsel'⟩
    exact h.sound.unique he he' (hname.trans hname'.symm) (hsel.trans hsel'.symm)
  attached := by
    intro r e he
    obtain ⟨nte, hnte, hmem⟩ := h.sound.linked.attached he
    exact ⟨nte, hnte, h.sound.named he hnte, List.count_eq_one_of_mem (h.sound.linked.nodup nte) hmem⟩
  owned _ _ hr := h.sound.linked.owned hr
  size := h.nItems_eq
  iterated := by
    refine ⟨p.listed, h.sound.iterate_eq h.small, h.sound.listed_nodup, fun r => ?_⟩
    rw [h.sound.mem_listed, h.sound.linked.mem_attachedEntries]

theorem Counted.inserts (h : p.Counted cityHash) (hsmall : p.Small cityHash (.insert interest)) :
    p.Inserts cityHash interest := by
  have hbound : (p.nameTree.lookup cityHash interest.name).1.nBuckets ≤ 2 ^ 32 := by
    have hlt : (p.nameTree.lookup cityHash interest.name).1.nBuckets < 2 ^ 31 := hsmall
    omega
  by_cases hex : ∃ r', p.IsEntryOf interest r'
  · obtain ⟨r, e, he, hname, hsel⟩ := hex
    obtain ⟨p', hins, hentries⟩ := h.sound.insert_existing he hname hsel hbound
    exact ⟨p', r, false, hins, ⟨e, by rw [hentries]; exact he, hname, hsel⟩,
      ⟨fun _ => ⟨r, e, he, hname, hsel⟩, fun _ => rfl⟩, fun _ => ⟨e, he, hname, hsel⟩⟩
  · obtain ⟨p', r, isNew, hins, -, ⟨-, -, -, hfor⟩ | ⟨rfl, rfl, -, nte, hentries⟩⟩ :=
      h.sound.linked.insert cityHash interest
    · exact absurd ⟨r, isFor_eq_true.mp hfor⟩ hex
    · refine ⟨p', _, true, hins, ⟨_, by rw [hentries, Function.update_self], rfl, rfl⟩, ?_, ?_⟩
      · exact ⟨fun hfalse => absurd hfalse (by decide), fun hsome => absurd hsome hex⟩
      · exact fun hfalse => absurd hfalse (by decide)

/-- The table is a set of entries as long as the name tree has fewer than `2 ^ 31` buckets. -/
theorem entries_enumerated (cityHash : Component → UInt64) (k : Nat) (hk : 2 ^ k < 2 ^ 31) (p : Pit)
    (hr : Reach (Pit.apply cityHash) (Small cityHash) (new (2 ^ k)) p) :
    p.Enumerated ∧ ∀ interest, p.Small cityHash (.insert interest) → p.Inserts cityHash interest :=
  ⟨(counted_of_reach hk hr).enumerated, fun _ hsmall => (counted_of_reach hk hr).inserts hsmall⟩

theorem bucket_of_begin (p : Pit) : ∃ b, ∀ it, p.begin = some it → it.1 ∈ p.nameTree.buckets b := by
  cases hbegin : p.begin with
  | none => exact ⟨0, fun it hit => by cases hit⟩
  | some first =>
      obtain ⟨nte, hnte, rfl⟩ := Option.map_eq_some_iff.mp hbegin
      obtain ⟨b, -, hmem⟩ := List.exists_of_findSome?_eq_some hnte
      refine ⟨b, fun it hit => ?_⟩
      cases hit
      exact List.mem_of_find?_eq_some hmem

/-- At `2 ^ 31` buckets the iterator does not leave the first chain. -/
theorem Sound.next_in_chain (h : p.Sound cityHash) (hb : p.nameTree.nBuckets = 2 ^ 31) {b : Nat} {it it' : Iterator}
    (hit : it.1 ∈ p.nameTree.buckets b) (hnext : p.next it = some (some it')) : it'.1 ∈ p.nameTree.buckets b := by
  rw [next] at hnext
  split at hnext
  · cases hnext
    exact hit
  · obtain ⟨o, hfull, ho⟩ := Option.map_eq_some_iff.mp hnext
    obtain ⟨nte, rfl, rfl⟩ := Option.map_eq_some_iff.mp ho
    obtain ⟨before, after, hchain⟩ := List.append_of_mem hit
    rw [h.tree.toSound.fullNext_wide hb hchain] at hfull
    rw [hchain]
    exact List.mem_append_right before (List.mem_cons_of_mem _ (List.mem_of_find?_eq_some (Option.some.inj hfull)))

/-- So it cannot visit the entries of names in two buckets. -/
theorem Sound.not_enumerated (h : p.Sound cityHash) (hb : p.nameTree.nBuckets = 2 ^ 31) {r r' : Ref} {e e' : PitEntry}
    (he : p.entries r = some e) (he' : p.entries r' = some e')
    (hloc : p.nameTree.loc cityHash e.interest.name ≠ p.nameTree.loc cityHash e'.interest.name) : ¬ p.Enumerated := by
  intro henum
  obtain ⟨visited, hvisited, -, hall⟩ := henum.iterated
  obtain ⟨its, hits, hderef⟩ := Option.map_eq_some_iff.mp hvisited
  obtain ⟨b, hfirst⟩ := p.bucket_of_begin
  have hchain : ∀ it ∈ its, it.1 ∈ p.nameTree.buckets b :=
    Iteration.mem_of_visits (fun it it' hit hnext => h.next_in_chain hb hit hnext) p.nextRef hfirst hits
  have hat : ∀ {r e}, p.entries r = some e → p.nameTree.loc cityHash e.interest.name = b := by
    intro r e he
    have hmem : some r ∈ its.map p.deref := by
      rw [hderef]
      exact List.mem_map_of_mem ((hall r).mpr (h.linked.mem_attachedEntries.mpr (by rw [he]; rfl)))
    obtain ⟨it, hit, hr⟩ := List.mem_map.mp hmem
    obtain ⟨e₁, he₁, hnte⟩ := h.linked.owned (List.mem_of_getElem? hr)
    rw [he] at he₁
    cases he₁
    obtain ⟨n, hn, hloc⟩ := h.tree.mem_bucket.mp (hchain it hit)
    rw [h.named he hnte] at hn
    cases hn
    exact hloc
  exact hloc ((hat he).trans (hat he').symm)

instance (cityHash : Component → UInt64) (p : Pit) : DecidablePred (p.Bounded cityHash)
  | .insert _ => inferInstanceAs (Decidable (_ ≤ _))
  | .erase _ => inferInstanceAs (Decidable True)

instance (cityHash : Component → UInt64) (p : Pit) : DecidablePred (p.Small cityHash)
  | .insert _ => inferInstanceAs (Decidable (_ < _))
  | .erase _ => inferInstanceAs (Decidable True)

/-- Interests for `/A` and for `/B`. -/
def twoInterests : List Op := [.insert (plainInterest [.ofByte 65]), .insert (plainInterest [.ofByte 66])]

/-- On `2 ^ 31` buckets, the iterator does not visit both entries. -/
theorem iterate_misses_bucket :
    ∃ p, Reach (Pit.apply CityHash.ofShort) anyStep (new (2 ^ 31)) p ∧ ¬ p.Enumerated := by
  have hrun : ((exec (guarded (Pit.apply CityHash.ofShort) fun p op => decide (p.Bounded CityHash.ofShort op))
      (new (2 ^ 31)) twoInterests).any fun p => decide (p.nameTree.nBuckets = 2 ^ 31) &&
        (p.entries 0).any fun e => (p.entries 1).any fun e' =>
          p.nameTree.loc CityHash.ofShort e.interest.name != p.nameTree.loc CityHash.ofShort e'.interest.name) =
            true := by
    decide +kernel
  obtain ⟨p, hp, hfound⟩ := (Option.any_eq_true _ _).mp hrun
  obtain ⟨hb, hentries⟩ := Bool.and_eq_true_iff.mp hfound
  obtain ⟨e, he, hother⟩ := (Option.any_eq_true _ _).mp hentries
  obtain ⟨e', he', hloc⟩ := (Option.any_eq_true _ _).mp hother
  have hr := reach_of_exec_guarded Reach.start hp
  have hsound : p.Sound CityHash.ofShort := sound_of_reach (by decide) (hr.mono fun _ _ h => of_decide_eq_true h)
  exact ⟨p, hr.mono fun _ _ _ => trivial, hsound.not_enumerated (of_decide_eq_true hb) he he' (bne_iff_ne.mp hloc)⟩

/-- The table on 16 buckets after them. -/
theorem entries_enumerated_two :
    ∃ p, exec (Pit.apply NameTree.octetHash) (new 16) twoInterests = some p ∧ p.nItems = 2 ∧ p.Enumerated ∧
      p.Inserts NameTree.octetHash (plainInterest [.ofByte 65]) := by
  have hrun : ((exec (guarded (Pit.apply NameTree.octetHash) fun p op => decide (p.Small NameTree.octetHash op))
      (new 16) twoInterests).any fun p => decide (p.nItems = 2) &&
        decide (p.Small NameTree.octetHash (.insert (plainInterest [.ofByte 65])))) = true := by
    decide
  obtain ⟨p, hp, hfound⟩ := (Option.any_eq_true _ _).mp hrun
  obtain ⟨hitems, hsmall⟩ := Bool.and_eq_true_iff.mp hfound
  have hr := reach_of_exec_guarded Reach.start hp
  have hall := entries_enumerated NameTree.octetHash 4 (by decide) p (hr.mono fun _ _ h => of_decide_eq_true h)
  exact ⟨p, exec_of_guarded hp, of_decide_eq_true hitems, hall.1, hall.2 _ (of_decide_eq_true hsmall)⟩

end NfdPitless.Pit
