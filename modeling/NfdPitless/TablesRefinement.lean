import NfdPitless.TablesMatch
import NfdPitless.LongestPrefix
import NfdPitless.FibManager

/-! The tables on the shared name tree refine four maps that have nothing to do with each other: routes, measurements
and strategies by name, and a set of pending Interests. What an operation does to the name tree on the way is seen in
none of them. -/

namespace NfdPitless

open LongestPrefix

variable {cityHash : Component → UInt64} {t t' : NameTree} {slot : Slot} {n p : Name} {r x nte : Ref}

namespace Table

variable {α : Type} {T T' : Table α} {name : α → Name} {a : α} {w : Option α} {e : TableEntry α}

/-- What the entry of a name carries. -/
def contentAt (T : Table α) (name : α → Name) (n : Name) : Option α :=
  (List.range T.nextRef).findSome? fun r =>
    (T.entries r).bind fun e =>
      if e.nameTreeEntry.isSome && decide (name e.content = n) then some e.content else none

/-- An entry of the table carries this. -/
def Contains (T : Table α) (a : α) : Prop := ∃ r e, T.Has r e ∧ e.content = a

/-- There is one entry at most for a name. -/
theorem Attached.has_unique (h : T.Attached slot t name) (hs : t.Sound cityHash) {r r' : Ref} {e e' : TableEntry α}
    (hr : T.Has r e) (hr' : T.Has r' e') (hname : name e.content = name e'.content) : r = r' := by
  obtain ⟨x, hx⟩ := Option.ne_none_iff_exists'.mp hr.2
  obtain ⟨x', hx'⟩ := Option.ne_none_iff_exists'.mp hr'.2
  have hn := h.named hr.1 hx
  have hn' := h.named hr'.1 hx'
  rw [← hname] at hn'
  have hatt := h.attached hr.1 hx
  rw [hs.nameOf_inj hn hn', h.attached hr'.1 hx'] at hatt
  exact (Option.some.inj hatt).symm

theorem contains_of_contentAt (h : T.contentAt name n = some a) : name a = n ∧ T.Contains a := by
  obtain ⟨r, -, hr⟩ := List.exists_of_findSome?_eq_some h
  obtain ⟨e, he, hcontent⟩ := Option.bind_eq_some_iff.mp hr
  split at hcontent
  · rename_i hcond
    obtain ⟨hin, hname⟩ := Bool.and_eq_true_iff.mp hcond
    obtain rfl := Option.some.inj hcontent
    exact ⟨of_decide_eq_true hname, r, e, ⟨he, Option.isSome_iff_ne_none.mp hin⟩, rfl⟩
  · cases hcontent

theorem Attached.contentAt_eq_some (h : T.Attached slot t name) (hs : t.Sound cityHash) :
    T.contentAt name n = some a ↔ name a = n ∧ T.Contains a := by
  refine ⟨contains_of_contentAt, ?_⟩
  rintro ⟨rfl, r, e, hr, rfl⟩
  cases hat : T.contentAt name (name e.content) with
  | none =>
      have hnone := List.findSome?_eq_none_iff.mp hat r (List.mem_range.mpr (h.fresh hr.1))
      rw [hr.1, Option.bind_some, if_pos (by simp [Option.isSome_iff_ne_none, hr.2])] at hnone
      cases hnone
  | some a' =>
      obtain ⟨hname, r', e', hr', rfl⟩ := contains_of_contentAt hat
      have heq := hr'.1
      rw [h.has_unique hs hr' hr hname, hr.1] at heq
      rw [Option.some.inj heq]

/-- Two tables that differ at one name. -/
theorem Attached.contentAt_eq_update (h : T.Attached slot t name) (hs : t.Sound cityHash)
    (h' : T'.Attached slot t' name) (hs' : t'.Sound cityHash) (hw : ∀ a, w = some a → name a = p)
    (hat : ∀ a, name a = p → (T'.Contains a ↔ w = some a))
    (hother : ∀ a, name a ≠ p → (T'.Contains a ↔ T.Contains a)) :
    T'.contentAt name = Function.update (T.contentAt name) p w := by
  funext n
  apply Option.ext
  intro a
  rw [h'.contentAt_eq_some hs', Function.update_apply]
  split
  · rename_i hn
    subst hn
    exact ⟨fun ha => (hat a ha.1).mp ha.2, fun ha => ⟨hw a ha, (hat a (hw a ha)).mpr ha⟩⟩
  · rename_i hn
    rw [h.contentAt_eq_some hs]
    refine and_congr_right fun hname => hother a ?_
    rwa [hname]

theorem Attached.contentAt_congr (h : T.Attached slot t name) (hs : t.Sound cityHash) (h' : T'.Attached slot t' name)
    (hs' : t'.Sound cityHash) (hsame : ∀ a, T'.Contains a ↔ T.Contains a) : T'.contentAt name = T.contentAt name := by
  funext n
  apply Option.ext
  intro a
  rw [h'.contentAt_eq_some hs', h.contentAt_eq_some hs, hsame]

theorem Attached.contentAt_of_has (h : T.Attached slot t name) (hs : t.Sound cityHash) (hr : T.Has r e) :
    T.contentAt name (name e.content) = some e.content :=
  (h.contentAt_eq_some hs).mpr ⟨rfl, r, e, hr, rfl⟩

/-- The entry of a name is the one that is attached to its name tree entry. -/
theorem Attached.contentAt_of_nameOf (h : T.Attached slot t name) (hs : t.Sound cityHash) (hn : t.nameOf nte = some n) :
    T.contentAt name n = (t.attachedTo slot nte).bind fun r => (T.entries r).map TableEntry.content := by
  apply Option.ext
  intro a
  rw [h.contentAt_eq_some hs]
  constructor
  · rintro ⟨hname, r, e, hr, rfl⟩
    obtain ⟨y, hy⟩ := Option.ne_none_iff_exists'.mp hr.2
    have hny := h.named hr.1 hy
    rw [hname] at hny
    have hatt := h.attached hr.1 hy
    rw [hs.nameOf_inj hny hn] at hatt
    rw [hatt, Option.bind_some, hr.1, Option.map_some]
  · intro ha
    obtain ⟨r, hr, ha⟩ := Option.bind_eq_some_iff.mp ha
    obtain ⟨e, he, rfl⟩ := Option.map_eq_some_iff.mp ha
    obtain ⟨e', he', hptr⟩ := h.owned hr
    rw [he] at he'
    cases he'
    have hnamed := h.named he hptr
    rw [hn] at hnamed
    exact ⟨(Option.some.inj hnamed).symm, r, e, ⟨he, by rw [hptr]; simp⟩, rfl⟩

theorem Attached.contentAt_eq_none_iff (h : T.Attached slot t name) (hs : t.Sound cityHash)
    (hn : t.nameOf nte = some n) : T.contentAt name n = none ↔ t.attachedTo slot nte = none := by
  rw [h.contentAt_of_nameOf hs hn]
  cases hatt : t.attachedTo slot nte with
  | none => exact iff_of_true rfl rfl
  | some r =>
      obtain ⟨e, he, -⟩ := h.owned hatt
      rw [Option.bind_some, he]
      exact iff_of_false (by simp) (by simp)

/-! ### The operations on a table -/

/-- A new entry of a name that has none. -/
theorem Attached.contentAt_attachNew (h : T.Attached slot t name) (hs : t.Sound cityHash)
    (hs' : (T.attachNew slot t nte a).1.Sound cityHash) (hfree : t.attachedTo slot nte = none)
    (hn : t.nameOf nte = some (name a)) :
    (T.attachNew slot t nte a).2.contentAt name = Function.update (T.contentAt name) (name a) (some a) := by
  have hnone := (h.contentAt_eq_none_iff hs hn).mpr hfree
  refine h.contentAt_eq_update hs (h.attachNew hfree hn) hs' (fun b hb => by rw [← Option.some.inj hb]) (fun b hb => ?_)
    fun b hb => ?_
  · constructor
    · rintro ⟨r, e, ⟨he, hin⟩, rfl⟩
      rw [attachNew_entries hfree] at he
      split at he
      · cases he
        rfl
      · rw [← hb, h.contentAt_of_has hs ⟨he, hin⟩] at hnone
        cases hnone
    · intro heq
      obtain rfl := Option.some.inj heq
      exact ⟨T.nextRef, ⟨a, some nte⟩, ⟨by rw [attachNew_entries hfree, if_pos rfl], by simp⟩, rfl⟩
  · constructor
    · rintro ⟨r, e, ⟨he, hin⟩, rfl⟩
      rw [attachNew_entries hfree] at he
      split at he
      · cases he
        exact absurd rfl hb
      · exact ⟨r, e, ⟨he, hin⟩, rfl⟩
    · rintro ⟨r, e, ⟨he, hin⟩, rfl⟩
      refine ⟨r, e, ⟨?_, hin⟩, rfl⟩
      rw [attachNew_entries hfree, if_neg (h.fresh he).ne, he]

/-- An entry of the table changes, but not its name. -/
theorem Attached.contentAt_modify (h : T.Attached slot t name) (hs : t.Sound cityHash)
    {f : TableEntry α → TableEntry α} (hptr : ∀ e, (f e).nameTreeEntry = e.nameTreeEntry)
    (hname : ∀ e, name (f e).content = name e.content) (hr : T.Has r e) :
    (T.modify r f).contentAt name = Function.update (T.contentAt name) (name e.content) (some (f e).content) := by
  have hentries := entries_modify T r f
  refine h.contentAt_eq_update hs (h.modify r hptr hname) hs (fun b hb => by rw [← Option.some.inj hb, hname])
    (fun b hb => ?_) fun b hb => ?_
  · constructor
    · rintro ⟨r', e', ⟨he', hin'⟩, rfl⟩
      rw [hentries, hr.1, Option.map_some] at he'
      split at he'
      · rw [Option.some.inj he']
      · rename_i hne
        exact absurd (h.has_unique hs ⟨he', hin'⟩ hr hb) hne
    · intro heq
      obtain rfl := Option.some.inj heq
      exact ⟨r, f e, ⟨by rw [hentries, if_pos rfl, hr.1, Option.map_some], by rw [hptr]; exact hr.2⟩, rfl⟩
  · constructor
    · rintro ⟨r', e', ⟨he', hin'⟩, rfl⟩
      rw [hentries, hr.1, Option.map_some] at he'
      split at he'
      · obtain rfl := Option.some.inj he'
        exact absurd (hname e) hb
      · exact ⟨r', e', ⟨he', hin'⟩, rfl⟩
    · rintro ⟨r', e', ⟨he', hin'⟩, rfl⟩
      have hne : r' ≠ r := by
        rintro rfl
        rw [hr.1] at he'
        cases he'
        exact hb rfl
      exact ⟨r', e', ⟨by rw [hentries, if_neg hne, he'], hin'⟩, rfl⟩

/-- What has been detached is no part of the map. -/
theorem Attached.contentAt_modify_detached (h : T.Attached slot t name) (hs : t.Sound cityHash)
    {f : TableEntry α → TableEntry α} (hptr : ∀ e, (f e).nameTreeEntry = e.nameTreeEntry)
    (hname : ∀ e, name (f e).content = name e.content) (hout : T.nameTreeEntryOf r = none) :
    (T.modify r f).contentAt name = T.contentAt name := by
  have hno : ∀ e, T.entries r = some e → e.nameTreeEntry = none := fun e he => by
    rwa [nameTreeEntryOf, he, Option.bind_some] at hout
  refine h.contentAt_congr hs (h.modify r hptr hname) hs fun b => ?_
  constructor
  · rintro ⟨r', e', ⟨he', hin'⟩, rfl⟩
    rw [entries_modify] at he'
    split at he'
    · obtain ⟨e, he, rfl⟩ := Option.map_eq_some_iff.mp he'
      rw [hptr] at hin'
      exact absurd (hno e he) hin'
    · exact ⟨r', e', ⟨he', hin'⟩, rfl⟩
  · rintro ⟨r', e', ⟨he', hin'⟩, rfl⟩
    have hne : r' ≠ r := by
      rintro rfl
      exact hin' (hno e' he')
    exact ⟨r', e', ⟨by rw [entries_modify, if_neg hne, he'], hin'⟩, rfl⟩

/-- The entry of a name is detached. -/
theorem Attached.contentAt_detached (h : T.Attached slot t name) (hs : t.Sound cityHash)
    (hs' : (t.setAttached slot nte none).Sound cityHash) (hn : t.nameOf nte = some n) :
    (T.attach slot t nte none).2.contentAt name = Function.update (T.contentAt name) n none := by
  refine h.contentAt_eq_update hs (h.detached nte) hs' (fun b hb => (by cases hb)) (fun b hb => ?_) fun b hb => ?_
  · refine iff_of_false ?_ (by simp)
    rintro ⟨r, e, ⟨he, hin⟩, rfl⟩
    rw [attach_none_entries] at he
    split at he
    · obtain ⟨e₀, -, rfl⟩ := Option.map_eq_some_iff.mp he
      exact hin rfl
    · rename_i hne
      obtain ⟨y, hy⟩ := Option.ne_none_iff_exists'.mp hin
      have hny := h.named he hy
      rw [hb] at hny
      have hatt := h.attached he hy
      rw [hs.nameOf_inj hny hn] at hatt
      exact hne hatt
  · have hentries := attach_none_entries T slot t nte
    have hnot : ∀ {r e}, T.Has r e → name e.content ≠ n → t.attachedTo slot nte ≠ some r := by
      intro r e hr hne hatt
      obtain ⟨e', he', hptr⟩ := h.owned hatt
      rw [hr.1] at he'
      cases he'
      have hnamed := h.named hr.1 hptr
      rw [hn] at hnamed
      exact hne (Option.some.inj hnamed).symm
    constructor
    · rintro ⟨r, e, ⟨he, hin⟩, rfl⟩
      rw [hentries] at he
      split at he
      · obtain ⟨e₀, -, rfl⟩ := Option.map_eq_some_iff.mp he
        exact absurd rfl hin
      · exact ⟨r, e, ⟨he, hin⟩, rfl⟩
    · rintro ⟨r, e, hr, rfl⟩
      exact ⟨r, e, ⟨by rw [hentries, if_neg (hnot hr hb), hr.1], hr.2⟩, rfl⟩

/-- The map depends on the entries only. -/
theorem contentAt_congr_entries (hentries : T'.entries = T.entries) (hnext : T'.nextRef = T.nextRef) :
    T'.contentAt name = T.contentAt name := by
  unfold contentAt
  rw [hentries, hnext]

theorem Attached.contentAt_detach (h : T.Attached slot t name) (hs : t.Sound cityHash)
    (hs' : (t.setAttached slot nte none).Sound cityHash) (hn : t.nameOf nte = some n) :
    (T.detach slot t nte).2.contentAt name = Function.update (T.contentAt name) n none :=
  (contentAt_congr_entries rfl rfl).trans (h.contentAt_detached hs hs' hn)

/-- The longest match of a walk is the longest prefix that the map has a value for. -/
theorem Attached.longest_contentAt (h : T.Attached slot t name) (hs : t.Sound cityHash) {found : Option Ref}
    (hlongest : T.IsLongest name n (fun _ => true) found) :
    longest (T.contentAt name) n = found.bind fun r => (T.entries r).map TableEntry.content := by
  cases found with
  | none =>
      cases hvalue : longest (T.contentAt name) n with
      | none => rfl
      | some a =>
          obtain ⟨p, ⟨hp, -⟩, hat⟩ := longest_eq_some_iff.mp hvalue
          obtain ⟨rfl, r, e, hr, rfl⟩ := contains_of_contentAt hat
          exact absurd (hlongest r e hr hp) (by simp)
  | some r =>
      obtain ⟨e, hr, hp, -, hmax⟩ := hlongest
      rw [Option.bind_some, hr.1, Option.map_some]
      refine longest_eq_some_iff.mpr ⟨name e.content, ⟨hp, fun q hpq hq hne => ?_⟩, h.contentAt_of_has hs hr⟩
      cases hat : T.contentAt name q with
      | none => rfl
      | some a =>
          obtain ⟨rfl, r', e', hr', rfl⟩ := contains_of_contentAt hat
          have hdiff : r' ≠ r := by
            rintro rfl
            have heq := hr'.1
            rw [hr.1] at heq
            cases heq
            exact hne rfl
          exact absurd hpq.length_le (Nat.not_le.mpr (hmax r' e' hr' hq rfl hdiff))

theorem Attached.contentAt_of_no_name (h : T.Attached slot t name) (hno : ∀ nte, t.nameOf nte ≠ some n) :
    T.contentAt name n = none := by
  cases hat : T.contentAt name n with
  | none => rfl
  | some a =>
      obtain ⟨hname, r, e, hr, rfl⟩ := contains_of_contentAt hat
      obtain ⟨y, hy⟩ := Option.ne_none_iff_exists'.mp hr.2
      exact absurd (hname ▸ h.named hr.1 hy) (hno y)

/-- The name of an entry of the table. -/
def nameOfEntry (T : Table α) (name : α → Name) (r : Ref) : Option Name :=
  (T.entries r).bind fun e => e.nameTreeEntry.map fun _ => name e.content

theorem nameOfEntry_of_has (hr : T.Has r e) : T.nameOfEntry name r = some (name e.content) := by
  obtain ⟨y, hy⟩ := Option.ne_none_iff_exists'.mp hr.2
  rw [nameOfEntry, hr.1, Option.bind_some, hy, Option.map_some]

/-- An entry that was ever in the table is in it, or detached. -/
theorem has_or_detached (T : Table α) (r : Ref) : (∃ e, T.Has r e) ∨ T.nameTreeEntryOf r = none := by
  cases he : T.entries r with
  | none =>
      right
      rw [nameTreeEntryOf, he]
      rfl
  | some e =>
      cases hptr : e.nameTreeEntry with
      | none =>
          right
          rw [nameTreeEntryOf, he, Option.bind_some, hptr]
      | some y => exact Or.inl ⟨e, he, by rw [hptr]; simp⟩

theorem nameOfEntry_of_detached (hout : T.nameTreeEntryOf r = none) : T.nameOfEntry name r = none := by
  rw [nameTreeEntryOf] at hout
  rw [nameOfEntry]
  cases he : T.entries r with
  | none => rfl
  | some e =>
      rw [he, Option.bind_some] at hout
      rw [Option.bind_some, hout]
      rfl

end Table

/-- The routes, measurements and strategies of names, and the Interests that are pending. -/
structure TableMaps where
  fib : Name → Option (List NextHop)
  measurements : Name → Option Int
  strategyChoice : Name → Option Name
  pit : Set (Name × Selectors)

/-- What can be done to the maps; every operation is about one of them. -/
inductive MapOp where
  | skip
  | fibInsert (n : Name)
  | fibErase (n : Name)
  | fibAddNextHop (n : Name) (face : Face) (cost : Nat)
  | fibRemoveNextHop (n : Name) (face : Face)
  | fibRemoveFace (face : Face)
  | pitInsert (n : Name) (selectors : Selectors)
  | pitErase (n : Name) (selectors : Selectors)
  | measurementsGet (n : Name) (expiry : Int)
  | measurementsExtend (n : Name) (expiry : Int)
  | measurementsErase (n : Name)
  | strategyInsert (n strategy : Name)
  | strategyErase (n : Name)

namespace TableMaps

variable {m : TableMaps}

/-- The default strategy, and nothing else. -/
def initial (defaultStrategy : Name) : TableMaps :=
  { fib := fun _ => none, measurements := fun _ => none
    strategyChoice := Function.update (fun _ => none) [] (some defaultStrategy), pit := ∅ }

/-- The next hops of an entry in the order of their costs, one of them set. -/
def withNextHop (face : Face) (cost : Nat) (nextHops : List NextHop) : List NextHop :=
  (Fib.setNextHop face cost nextHops).insertionSort fun a b => a.cost ≤ b.cost

def withoutNextHop (face : Face) (nextHops : List NextHop) : List NextHop := nextHops.eraseP fun h => h.face == face

/-- An entry that has no next hop left is gone. -/
def dropFace (face : Face) (nextHops : List NextHop) : Option (List NextHop) :=
  if withoutNextHop face nextHops = [] then none else some (withoutNextHop face nextHops)

def apply (m : TableMaps) : MapOp → TableMaps
  | .skip => m
  | .fibInsert n => { m with fib := Function.update m.fib n (some ((m.fib n).getD [])) }
  | .fibErase n => { m with fib := Function.update m.fib n none }
  | .fibAddNextHop n face cost => { m with fib := Function.update m.fib n ((m.fib n).map (withNextHop face cost)) }
  | .fibRemoveNextHop n face => { m with fib := Function.update m.fib n ((m.fib n).map (withoutNextHop face)) }
  | .fibRemoveFace face => { m with fib := fun n => (m.fib n).bind (dropFace face) }
  | .pitInsert n selectors => { m with pit := insert (n, selectors) m.pit }
  | .pitErase n selectors => { m with pit := m.pit \ {(n, selectors)} }
  | .measurementsGet n expiry =>
      { m with measurements := Function.update m.measurements n (some ((m.measurements n).getD expiry)) }
  | .measurementsExtend n expiry =>
      { m with measurements := Function.update m.measurements n ((m.measurements n).map fun old => max old expiry) }
  | .measurementsErase n => { m with measurements := Function.update m.measurements n none }
  | .strategyInsert n strategy => { m with strategyChoice := Function.update m.strategyChoice n (some strategy) }
  | .strategyErase n => { m with strategyChoice := Function.update m.strategyChoice n none }

end TableMaps

namespace Tables

variable {s s' : Tables}

/-- The maps that the tables stand for. -/
def maps (s : Tables) : TableMaps where
  fib := Option.map FibContent.nextHops ∘ s.fib.contentAt FibContent.entryPrefix
  measurements := Option.map MeasurementsContent.expiry ∘ s.measurements.contentAt MeasurementsContent.name
  strategyChoice :=
    Option.map StrategyChoiceContent.strategy ∘ s.strategyChoice.contentAt StrategyChoiceContent.entryPrefix
  pit := { key | ∃ r e, s.pit.entries r = some e ∧ (e.interest.name, e.interest.selectors) = key }

/-- What an operation on the tables is for the maps. An entry is known by its name; one that has been detached is none
of the map. -/
def mapOp (s : Tables) : Op → MapOp
  | .fibInsert entryPrefix => .fibInsert entryPrefix
  | .fibErase entryPrefix => .fibErase entryPrefix
  | .fibEraseEntry r => (s.fib.nameOfEntry FibContent.entryPrefix r).elim .skip .fibErase
  | .fibAddNextHop r face cost =>
      (s.fib.nameOfEntry FibContent.entryPrefix r).elim .skip fun n => .fibAddNextHop n face cost
  | .fibRemoveNextHop r face =>
      (s.fib.nameOfEntry FibContent.entryPrefix r).elim .skip fun n => .fibRemoveNextHop n face
  | .fibRemoveNextHopFromAllEntries face => .fibRemoveFace face
  | .pitInsert interest => .pitInsert interest.name interest.selectors
  | .pitErase r => (s.pit.entries r).elim .skip fun e => .pitErase e.interest.name e.interest.selectors
  | .measurementsGet name => .measurementsGet name (s.now + Measurements.initialLifetime)
  | .measurementsGetOfFib r =>
      (s.fib.nameOfEntry FibContent.entryPrefix r).elim .skip fun n =>
        .measurementsGet n (s.now + Measurements.initialLifetime)
  | .measurementsGetOfPit r =>
      (s.pit.entries r).elim .skip fun e => .measurementsGet e.interest.name (s.now + Measurements.initialLifetime)
  | .measurementsGetParent r =>
      (s.measurements.nameOfEntry MeasurementsContent.name r).elim .skip fun n =>
        if n.length = 0 then .skip else .measurementsGet n.dropLast (s.now + Measurements.initialLifetime)
  | .measurementsFindExactMatch _ => .skip
  | .measurementsExtendLifetime r lifetime =>
      (s.measurements.nameOfEntry MeasurementsContent.name r).elim .skip fun n =>
        .measurementsExtend n (s.now + lifetime)
  | .measurementsCleanup r =>
      (s.measurements.nameOfEntry MeasurementsContent.name r).elim .skip .measurementsErase
  | .strategyInstall _ => .skip
  | .strategyInsert entryPrefix strategyName =>
      (StrategyChoice.getStrategy s strategyName).elim .skip (.strategyInsert entryPrefix)
  | .strategyErase entryPrefix => .strategyErase entryPrefix
  | .find => .skip
  | .advanceClock _ => .skip

/-- At most one PIT entry for a name and selectors. -/
def PitDistinct (s : Tables) : Prop := ∀ r r' e e', s.pit.entries r = some e → s.pit.entries r' = some e' →
  e.interest.name = e'.interest.name → e.interest.selectors = e'.interest.selectors → r = r'

/-- Resizes find the right buckets, and a face is removed only when the number of buckets is an `int`. -/
def NarrowStep (cityHash : Component → UInt64) (s : Tables) (op : Op) : Prop :=
  HarmlessStep cityHash s op ∧ ∀ face, op = .fibRemoveNextHopFromAllEntries face → s.nameTree.nBuckets < 2 ^ 31

theorem maps_withTree (s : Tables) (t : NameTree) : (s.withTree t).maps = s.maps := rfl

theorem maps_fib {T : Table FibContent} {w : Option FibContent}
    (heq : T.contentAt FibContent.entryPrefix = Function.update (s.fib.contentAt FibContent.entryPrefix) n w) :
    ({ s with fib := T } : Tables).maps =
      { s.maps with fib := Function.update s.maps.fib n (w.map FibContent.nextHops) } := by
  show TableMaps.mk (Option.map FibContent.nextHops ∘ T.contentAt FibContent.entryPrefix) _ _ _ = _
  rw [heq, Function.comp_update]
  rfl

/-- A map that is updated with the value it has. -/
theorem update_getD {β : Type} (f : Name → Option β) (n : Name) (b : β) (h : f n ≠ none) :
    Function.update f n (some ((f n).getD b)) = f := by
  obtain ⟨c, hc⟩ := Option.ne_none_iff_exists'.mp h
  rw [hc, Option.getD_some, ← hc, Function.update_eq_self]

theorem Joint.fib_eq_none_iff (h : s.Joint cityHash) (hn : s.nameTree.nameOf nte = some n) :
    s.maps.fib n = none ↔ s.nameTree.attachedTo .fib nte = none := by
  rw [← h.fib.contentAt_eq_none_iff h.tree.sound hn]
  exact Option.map_eq_none_iff

theorem Joint.maps_fibInsert (h : s.Joint cityHash) (hok : s.nameTree.Harmless cityHash (.lookup n)) {result}
    (hstep : Fib.insert cityHash s n = some result) : result.1.maps = s.maps.apply (.fibInsert n) := by
  obtain ⟨hlook, nte, hnte, hname⟩ := h.lookup hok
  simp only [Fib.insert, hnte, Option.map_some, Option.some.injEq] at hstep
  subst hstep
  have hiff := hlook.fib_eq_none_iff hname
  rw [maps_withTree] at hiff
  cases hatt : (s.nameTree.lookup cityHash n).1.attachedTo .fib nte with
  | some r =>
      have hhas : s.maps.fib n ≠ none := fun hnone => by
        have hbad : (s.nameTree.lookup cityHash n).1.attachedTo .fib nte = none := hiff.mp hnone
        rw [hatt] at hbad
        cases hbad
      show s.maps = _
      rw [TableMaps.apply, update_getD _ _ _ hhas]
  | none =>
      have hnone : s.maps.fib n = none := hiff.mpr hatt
      have hname' : (s.nameTree.lookup cityHash n).1.nameOf nte = some (FibContent.mk n []).entryPrefix := hname
      have hnew := hlook.attachNew .fib hname' hatt
      rw [TableMaps.apply, hnone]
      exact maps_fib (hlook.fib.contentAt_attachNew hlook.tree.sound hnew.tree.sound hatt hname')

theorem Joint.maps_eraseAt (h : s.Joint cityHash) (hn : s.nameTree.nameOf nte = some n) :
    (Fib.eraseAt s nte).maps = s.maps.apply (.fibErase n) :=
  maps_fib (h.fib.contentAt_detach h.tree.sound (h.tree.setAttached .fib nte none).sound hn)

theorem Joint.maps_fibErase (h : s.Joint cityHash) : (Fib.erase cityHash s n).maps = s.maps.apply (.fibErase n) := by
  unfold Fib.erase
  cases hfind : s.nameTree.findExactMatch cityHash n with
  | some nte => exact h.maps_eraseAt (h.tree.sound.findExactMatch_eq_some.mp hfind)
  | none =>
      have hnone : s.fib.contentAt FibContent.entryPrefix n = none := by
        refine h.fib.contentAt_of_no_name fun nte hnte => ?_
        rw [h.tree.sound.findExactMatch_eq_some.mpr hnte] at hfind
        cases hfind
      have hfib : s.maps.fib n = none := Option.map_eq_none_iff.mpr hnone
      show s.maps = _
      rw [TableMaps.apply, ← hfib, Function.update_eq_self]

theorem Joint.maps_fibEraseEntry (h : s.Joint cityHash) (r : Ref) :
    (Fib.eraseEntry s r).maps = s.maps.apply (s.mapOp (.fibEraseEntry r)) := by
  rw [mapOp]
  unfold Fib.eraseEntry
  rcases s.fib.has_or_detached r with ⟨e, he⟩ | hout
  · obtain ⟨nte, hptr⟩ := Option.ne_none_iff_exists'.mp he.2
    rw [Table.nameOfEntry_of_has he, Table.nameTreeEntryOf, he.1, Option.bind_some, hptr]
    exact h.maps_eraseAt (h.fib.named he.1 hptr)
  · rw [Table.nameOfEntry_of_detached hout, hout]
    rfl

/-- The next hops of an entry change. -/
theorem Joint.maps_modifyNextHops (h : s.Joint cityHash) (r : Ref) (g : List NextHop → List NextHop) :
    ({ s with fib := s.fib.modify r fun e =>
        { e with content := { e.content with nextHops := g e.content.nextHops } } } : Tables).maps =
      (s.fib.nameOfEntry FibContent.entryPrefix r).elim s.maps fun n =>
        { s.maps with fib := Function.update s.maps.fib n ((s.maps.fib n).map g) } := by
  rcases s.fib.has_or_detached r with ⟨e, he⟩ | hout
  · have hat := h.fib.contentAt_of_has h.tree.sound he
    have hfib : s.maps.fib e.content.entryPrefix = some e.content.nextHops := by
      show Option.map _ _ = _
      rw [hat, Option.map_some]
    rw [Table.nameOfEntry_of_has he, Option.elim_some, hfib]
    exact maps_fib (h.fib.contentAt_modify h.tree.sound
      (f := fun e => { e with content := { e.content with nextHops := g e.content.nextHops } })
      (fun _ => rfl) (fun _ => rfl) he)
  · rw [Table.nameOfEntry_of_detached hout, Option.elim_none]
    have heq := h.fib.contentAt_modify_detached h.tree.sound
      (f := fun e => { e with content := { e.content with nextHops := g e.content.nextHops } })
      (fun _ => rfl) (fun _ => rfl) hout
    show TableMaps.mk (Option.map FibContent.nextHops ∘ _) _ _ _ = _
    rw [heq]
    rfl

/-! ### A face is removed from all entries -/

theorem Joint.has_eraseEntry (h : s.Joint cityHash) (r : Ref) {x : Ref} {e : TableEntry FibContent} :
    (Fib.eraseEntry s r).fib.Has x e ↔ s.fib.Has x e ∧ x ≠ r := by
  unfold Fib.eraseEntry
  cases hnte : s.fib.nameTreeEntryOf r with
  | none =>
      refine ⟨fun hx => ⟨hx, ?_⟩, fun hx => hx.1⟩
      rintro rfl
      have hin : s.fib.Has x e := hx
      rw [Table.nameTreeEntryOf, hin.1, Option.bind_some] at hnte
      exact hin.2 hnte
  | some nte =>
      obtain ⟨e₀, he₀, hptr⟩ := Option.bind_eq_some_iff.mp hnte
      have hatt := h.fib.attached he₀ hptr
      have hentries : ∀ x, (Fib.eraseAt s nte).fib.entries x =
          if s.nameTree.attachedTo .fib nte = some x then
            (s.fib.entries x).map fun e => { e with nameTreeEntry := none }
          else s.fib.entries x := Table.attach_none_entries s.fib .fib s.nameTree nte
      show (Fib.eraseAt s nte).fib.entries x = some e ∧ _ ↔ _
      rw [hentries, hatt]
      by_cases hxr : x = r
      · rw [if_pos (congrArg some hxr.symm)]
        refine ⟨fun hx => ?_, fun hx => absurd hxr hx.2⟩
        obtain ⟨e₁, -, rfl⟩ := Option.map_eq_some_iff.mp hx.1
        exact absurd rfl hx.2
      · rw [if_neg fun heq => hxr (Option.some.inj heq).symm]
        exact ⟨fun hx => ⟨hx, hxr⟩, fun hx => hx.1⟩

/-- The map without some entries. -/
theorem Joint.maps_eraseAll (h : s.Joint cityHash) (rs : List Ref) (hok : EraseAllHarmless cityHash s rs) (n : Name)
    [Decidable (∃ r ∈ rs, ∃ e, s.fib.Has r e ∧ e.content.entryPrefix = n)] :
    (rs.foldl Fib.eraseEntry s).maps.fib n =
      if ∃ r ∈ rs, ∃ e, s.fib.Has r e ∧ e.content.entryPrefix = n then none else s.maps.fib n := by
  classical
  induction rs generalizing s with
  | nil => simp
  | cons r rs ih =>
      have hjoint : Joint cityHash (Fib.eraseEntry s r) := h.fibErase [r] ⟨hok.1, trivial⟩
      have hstep : (Fib.eraseEntry s r).maps.fib n =
          if ∃ e, s.fib.Has r e ∧ e.content.entryPrefix = n then none else s.maps.fib n := by
        rw [h.maps_fibEraseEntry r, mapOp]
        rcases s.fib.has_or_detached r with ⟨e, he⟩ | hout
        · rw [Table.nameOfEntry_of_has he, Option.elim_some, TableMaps.apply]
          dsimp only
          rw [Function.update_apply]
          refine if_congr ⟨fun hn => ⟨e, he, hn.symm⟩, ?_⟩ rfl rfl
          rintro ⟨e', he', hn⟩
          have heq := he'.1
          rw [he.1] at heq
          cases heq
          exact hn.symm
        · rw [Table.nameOfEntry_of_detached hout, Option.elim_none, if_neg]
          · rfl
          · rintro ⟨e, he, -⟩
            rw [Table.nameTreeEntryOf, he.1, Option.bind_some] at hout
            exact he.2 hout
      rw [List.foldl_cons, ih hjoint hok.2, hstep]
      by_cases hhead : ∃ e, s.fib.Has r e ∧ e.content.entryPrefix = n
      · rw [if_pos hhead, ite_self, if_pos ⟨r, List.mem_cons_self, hhead⟩]
      · rw [if_neg hhead]
        refine if_congr ⟨?_, ?_⟩ rfl rfl
        · rintro ⟨x, hx, e, he, hn⟩
          exact ⟨x, List.mem_cons_of_mem r hx, e, ((h.has_eraseEntry r).mp he).1, hn⟩
        · rintro ⟨x, hx, e, he, hn⟩
          rcases List.mem_cons.mp hx with rfl | hx
          · exact absurd ⟨e, he, hn⟩ hhead
          · refine ⟨x, hx, e, (h.has_eraseEntry r).mpr ⟨he, ?_⟩, hn⟩
            rintro rfl
            exact hhead ⟨e, he, hn⟩

/-- An operation on the FIB changes no other map. -/
theorem Joint.maps_eraseAll_rest (h : s.Joint cityHash) (rs : List Ref) (hok : EraseAllHarmless cityHash s rs) :
    (rs.foldl Fib.eraseEntry s).maps = { s.maps with fib := (rs.foldl Fib.eraseEntry s).maps.fib } := by
  induction rs generalizing s with
  | nil => rfl
  | cons r rs ih =>
      have hjoint : Joint cityHash (Fib.eraseEntry s r) := h.fibErase [r] ⟨hok.1, trivial⟩
      have hone : (Fib.eraseEntry s r).maps = { s.maps with fib := (Fib.eraseEntry s r).maps.fib } := by
        rw [h.maps_fibEraseEntry r, mapOp]
        cases s.fib.nameOfEntry FibContent.entryPrefix r with
        | none => rfl
        | some n => rfl
      rw [List.foldl_cons, ih hjoint hok.2, hone]

/-- The entries that the enumeration visits are those of the table. -/
theorem Joint.enumerate (h : s.Joint cityHash) (hint : s.nameTree.nBuckets < 2 ^ 31) :
    ∃ rs, Fib.enumerate s = some rs ∧ rs.Nodup ∧ ∀ r, r ∈ rs ↔ ∃ e, s.fib.Has r e := by
  have hfull := h.tree.sound.fullEnumerate_eq hint fun e => e.fibEntry.isSome
  obtain ⟨hnodup, hvisited⟩ := h.tree.sound.mem_fullEnumerate hint hfull
  refine ⟨_, by rw [Fib.enumerate, hfull]; rfl, hnodup.filterMap fun x x' r hx hx' => h.fib.inj hx hx', fun r => ?_⟩
  rw [List.mem_filterMap]
  constructor
  · rintro ⟨nte, -, hr⟩
    obtain ⟨e, he, hptr⟩ := h.fib.owned hr
    exact ⟨e, he, by rw [hptr]; simp⟩
  · rintro ⟨e, he, hin⟩
    obtain ⟨nte, hptr⟩ := Option.ne_none_iff_exists'.mp hin
    have hr := h.fib.attached he hptr
    obtain ⟨ne, hne, hatt⟩ := Option.bind_eq_some_iff.mp hr
    refine ⟨nte, (hvisited nte).mpr ⟨ne, hne, ?_⟩, hr⟩
    rw [Entry.attached] at hatt
    rw [hatt]
    rfl

/-- The enumeration takes the next hop from every entry. -/
theorem has_removeNextHopRounds (face : Face) {rs : List Ref} (hnodup : rs.Nodup)
    (hall : ∀ r, r ∈ rs ↔ ∃ e, s.fib.Has r e) (x : Ref) (e' : TableEntry FibContent) :
    (rs.foldl (Fib.removeNextHopRound face) (s, [])).1.fib.Has x e' ↔
      ∃ e, s.fib.Has x e ∧ e' = Fib.withoutFace face e := by
  obtain ⟨-, hentries, -⟩ := Fib.removeNextHopRounds face hnodup s []
  constructor
  · rintro ⟨he', hin'⟩
    rw [hentries] at he'
    split at he'
    · obtain ⟨e, he, rfl⟩ := Option.map_eq_some_iff.mp he'
      exact ⟨e, ⟨he, hin'⟩, rfl⟩
    · rename_i hnot
      exact absurd ((hall x).mpr ⟨e', he', hin'⟩) hnot
  · rintro ⟨e, he, rfl⟩
    refine ⟨?_, he.2⟩
    rw [hentries, if_pos ((hall x).mpr ⟨e, he⟩), he.1, Option.map_some]

theorem Joint.maps_removeNextHopRounds (h : s.Joint cityHash) (face : Face) {rs : List Ref} (hnodup : rs.Nodup)
    (hall : ∀ r, r ∈ rs ↔ ∃ e, s.fib.Has r e) (n : Name) :
    (rs.foldl (Fib.removeNextHopRound face) (s, [])).1.maps.fib n =
      (s.maps.fib n).map (TableMaps.withoutNextHop face) := by
  have hjoint := h.removeNextHopRounds face rs []
  have hhas := has_removeNextHopRounds face hnodup hall
  show Option.map _ _ = Option.map _ (Option.map _ _)
  cases hat : s.fib.contentAt FibContent.entryPrefix n with
  | some a =>
      obtain ⟨rfl, r, e, he, rfl⟩ := Table.contains_of_contentAt hat
      have hnew := hjoint.fib.contentAt_of_has hjoint.tree.sound ((hhas r _).mpr ⟨e, he, rfl⟩)
      have hname : (Fib.withoutFace face e).content.entryPrefix = e.content.entryPrefix := rfl
      rw [hname] at hnew
      rw [hnew]
      rfl
  | none =>
      cases hnew : (rs.foldl (Fib.removeNextHopRound face) (s, [])).1.fib.contentAt FibContent.entryPrefix n with
      | none => rfl
      | some a =>
          obtain ⟨hname, r, e', he', rfl⟩ := Table.contains_of_contentAt hnew
          obtain ⟨e, he, rfl⟩ := (hhas r e').mp he'
          have hold := h.fib.contentAt_of_has h.tree.sound he
          rw [show e.content.entryPrefix = n from hname, hat] at hold
          cases hold

theorem maps_removeNextHopRounds_rest (face : Face) (rs : List Ref) : ∀ (s : Tables) (done : List Ref),
    (rs.foldl (Fib.removeNextHopRound face) (s, done)).1.maps =
      { s.maps with fib := (rs.foldl (Fib.removeNextHopRound face) (s, done)).1.maps.fib } := by
  induction rs with
  | nil => exact fun _ _ => rfl
  | cons r rs ih => exact fun s done => ih (Fib.removeNextHop s face r) _

/-- A face is removed from all entries, and the entries that have no other next hop are erased. -/
theorem Joint.maps_fibRemoveFace (h : s.Joint cityHash) {face : Face}
    (hok : NarrowStep cityHash s (.fibRemoveNextHopFromAllEntries face))
    (hrem : Fib.removeNextHopFromAllEntries s face = some s') : s'.maps = s.maps.apply (.fibRemoveFace face) := by
  classical
  obtain ⟨rs, hrs, hnodup, hall⟩ := h.enumerate (hok.2 face rfl)
  have hharmless := hok.1 rs hrs
  rw [Fib.removeNextHopFromAllEntries, hrs] at hrem
  cases hrem
  have hjoint := h.removeNextHopRounds face rs []
  have hhas := has_removeNextHopRounds face hnodup hall
  obtain ⟨-, -, hdone⟩ := Fib.removeNextHopRounds face hnodup s []
  have hrest := maps_removeNextHopRounds_rest face rs s []
  have hfib : ((rs.foldl (Fib.removeNextHopRound face) (s, [])).2.foldl Fib.eraseEntry
      (rs.foldl (Fib.removeNextHopRound face) (s, [])).1).maps.fib = fun n =>
        (s.maps.fib n).bind (TableMaps.dropFace face) := by
    funext n
    rw [hjoint.maps_eraseAll _ hharmless, h.maps_removeNextHopRounds face hnodup hall]
    cases hat : s.fib.contentAt FibContent.entryPrefix n with
    | none =>
        have hnone : s.maps.fib n = none := Option.map_eq_none_iff.mpr hat
        rw [hnone, Option.map_none, ite_self, Option.bind_none]
    | some a =>
        obtain ⟨hname, r, e, he, rfl⟩ := Table.contains_of_contentAt hat
        have hsome : s.maps.fib n = some e.content.nextHops := by
          show Option.map _ _ = _
          rw [hat, Option.map_some]
        have hnow := (hhas r _).mpr ⟨e, he, rfl⟩
        -- the entry is erased exactly if it has no next hop left
        have hleft : Fib.hasNextHops (rs.foldl (Fib.removeNextHopRound face) (s, [])).1 r = false ↔
            TableMaps.withoutNextHop face e.content.nextHops = [] := by
          rw [Fib.hasNextHops, hnow.1]
          simp [Fib.withoutFace, TableMaps.withoutNextHop]
        rw [hsome, Option.map_some, Option.bind_some, TableMaps.dropFace]
        refine if_congr ⟨?_, fun hempty => ?_⟩ rfl rfl
        · rintro ⟨x, hx, e', he', hn⟩
          obtain ⟨e₀, he₀, rfl⟩ := (hhas x e').mp he'
          have hxr : x = r := h.fib.has_unique h.tree.sound he₀ he (hn.trans hname.symm)
          subst hxr
          rcases (hdone x).mp hx with hbad | ⟨-, hlost⟩
          · cases hbad
          · exact hleft.mp hlost
        · exact ⟨r, (hdone r).mpr (Or.inr ⟨(hall r).mpr ⟨e, he⟩, hleft.mpr hempty⟩), _, hnow, hname⟩
  rw [hjoint.maps_eraseAll_rest _ hharmless, hrest, hfib]
  rfl

theorem maps_measurements {T : Table MeasurementsContent} {w : Option MeasurementsContent}
    (heq : T.contentAt MeasurementsContent.name =
      Function.update (s.measurements.contentAt MeasurementsContent.name) n w) :
    ({ s with measurements := T } : Tables).maps =
      { s.maps with measurements := Function.update s.maps.measurements n (w.map MeasurementsContent.expiry) } := by
  show TableMaps.mk _ (Option.map MeasurementsContent.expiry ∘ T.contentAt MeasurementsContent.name) _ _ = _
  rw [heq, Function.comp_update]
  rfl

theorem Joint.measurements_eq_none_iff (h : s.Joint cityHash) (hn : s.nameTree.nameOf nte = some n) :
    s.maps.measurements n = none ↔ s.nameTree.attachedTo .measurements nte = none := by
  rw [← h.measurements.contentAt_eq_none_iff h.tree.sound hn]
  exact Option.map_eq_none_iff

theorem Joint.maps_getAt (h : s.Joint cityHash) (hn : s.nameTree.nameOf nte = some n) {result}
    (hstep : Measurements.getAt s nte = some result) :
    result.1.maps = s.maps.apply (.measurementsGet n (s.now + Measurements.initialLifetime)) := by
  obtain ⟨e, he, rfl⟩ := Option.map_eq_some_iff.mp hstep
  have hiff := h.measurements_eq_none_iff hn
  have hprefix : e.entryPrefix = n := by
    rw [NameTree.nameOf, he] at hn
    exact Option.some.inj hn
  have hslot : s.nameTree.attachedTo .measurements nte = e.measurementsEntry := by
    rw [NameTree.attachedTo, he]
    rfl
  rw [hslot] at hiff
  rw [TableMaps.apply]
  cases hatt : e.measurementsEntry with
  | some r =>
      have hhas : s.maps.measurements n ≠ none := fun hnone => by
        have hbad := hiff.mp hnone
        rw [hatt] at hbad
        cases hbad
      rw [update_getD _ _ _ hhas]
  | none =>
      have hfree : s.nameTree.attachedTo .measurements nte = none := hslot.trans hatt
      have hname : s.nameTree.nameOf nte = some (MeasurementsContent.name
          ⟨e.entryPrefix, s.now + Measurements.initialLifetime, some (s.now + Measurements.initialLifetime)⟩) :=
        hprefix.symm ▸ hn
      have hnew := h.attachNew .measurements hname hfree
      rw [hiff.mpr hatt, Option.getD_none]
      have heq := maps_measurements (s := s) (h.measurements.contentAt_attachNew h.tree.sound hnew.tree.sound hfree
        hname)
      rw [show MeasurementsContent.name _ = n from hprefix] at heq
      exact heq

theorem Joint.maps_extendLifetime (h : s.Joint cityHash) (r : Ref) (lifetime : Int) :
    (Measurements.extendLifetime s r lifetime).maps = s.maps.apply
    (s.mapOp (.measurementsExtendLifetime r lifetime)) := by
  rw [mapOp]
  unfold Measurements.extendLifetime
  dsimp only
  rcases s.measurements.has_or_detached r with ⟨e, he⟩ | hout
  · obtain ⟨nte, hptr⟩ := Option.ne_none_iff_exists'.mp he.2
    have hnte : s.measurements.nameTreeEntryOf r = some nte := by
      rw [Table.nameTreeEntryOf, he.1, Option.bind_some, hptr]
    have hold : s.maps.measurements e.content.name = some e.content.expiry := by
      show Option.map _ _ = _
      rw [h.measurements.contentAt_of_has h.tree.sound he, Option.map_some]
    rw [Table.nameOfEntry_of_has he, Option.elim_some, TableMaps.apply, hold, Option.map_some, hnte, Option.any_some,
      h.measurements.attached he.1 hptr, he.1, Option.all_some]
    by_cases hlater : e.content.expiry < s.now + lifetime
    · rw [if_pos (by simpa using hlater), max_eq_right hlater.le]
      exact maps_measurements (h.measurements.contentAt_modify h.tree.sound
        (f := fun e => { e with content := { e.content with
          expiry := s.now + lifetime, cleanup := some (s.now + lifetime) } }) (fun _ => rfl) (fun _ => rfl) he)
    · rw [if_neg (by simpa using hlater), max_eq_left (not_lt.mp hlater), ← hold, Function.update_eq_self]
  · rw [Table.nameOfEntry_of_detached hout, hout, Option.any_none, Bool.false_and, if_neg Bool.false_ne_true]
    rfl

/-- After the cleanup the entry is out of the table. -/
theorem Joint.cleanup_detached (h : s.Joint cityHash) (r : Ref) :
    (Measurements.cleanup s r).measurements.nameTreeEntryOf r = none := by
  unfold Measurements.cleanup
  cases hnte : s.measurements.nameTreeEntryOf r with
  | none => exact hnte
  | some nte =>
      obtain ⟨e, he, hptr⟩ := Option.bind_eq_some_iff.mp hnte
      have hentries := Table.attach_none_entries s.measurements .measurements s.nameTree nte r
      rw [h.measurements.attached he hptr, if_pos rfl, he, Option.map_some] at hentries
      show ((s.measurements.attach .measurements s.nameTree nte none).2.entries r).bind _ = none
      rw [hentries]
      rfl

theorem Joint.maps_cleanup (h : s.Joint cityHash) (r : Ref) :
    (Measurements.cleanup s r).maps = s.maps.apply (s.mapOp (.measurementsCleanup r)) := by
  rw [mapOp]
  unfold Measurements.cleanup
  rcases s.measurements.has_or_detached r with ⟨e, he⟩ | hout
  · obtain ⟨nte, hptr⟩ := Option.ne_none_iff_exists'.mp he.2
    rw [Table.nameOfEntry_of_has he, Table.nameTreeEntryOf, he.1, Option.bind_some, hptr]
    exact maps_measurements (h.measurements.contentAt_detach h.tree.sound
      (h.tree.setAttached .measurements nte none).sound (h.measurements.named he.1 hptr))
  · rw [Table.nameOfEntry_of_detached hout, hout]
    rfl

theorem maps_strategyChoice {T : Table StrategyChoiceContent} {w : Option StrategyChoiceContent}
    (heq : T.contentAt StrategyChoiceContent.entryPrefix =
      Function.update (s.strategyChoice.contentAt StrategyChoiceContent.entryPrefix) n w) :
    ({ s with strategyChoice := T } : Tables).maps =
      { s.maps with strategyChoice :=
          Function.update s.maps.strategyChoice n (w.map StrategyChoiceContent.strategy) } := by
  show TableMaps.mk _ _ (Option.map StrategyChoiceContent.strategy ∘ T.contentAt
    StrategyChoiceContent.entryPrefix) _ = _
  rw [heq, Function.comp_update]
  rfl

theorem Joint.maps_strategyInsert (h : s.Joint cityHash) (hok : s.nameTree.Harmless cityHash (.lookup n))
    {strategyName : Name} {result} (hstep : StrategyChoice.insert cityHash s n strategyName = some result) :
    result.1.maps = s.maps.apply (s.mapOp (.strategyInsert n strategyName)) := by
  obtain ⟨hlook, nte, hnte, hname⟩ := h.lookup hok
  rw [mapOp]
  unfold StrategyChoice.insert at hstep
  cases hstrategy : StrategyChoice.getStrategy s strategyName with
  | none =>
      rw [hstrategy] at hstep
      cases hstep
      rfl
  | some strategy =>
      rw [hstrategy] at hstep
      simp only [hnte, Option.bind_some] at hstep
      split at hstep
      · rename_i r hatt
        cases hstep
        obtain ⟨e, he, hptr⟩ := hlook.strategyChoice.owned hatt
        have hprefix := hlook.strategyChoice.named he hptr
        have heq : (s.nameTree.lookup cityHash n).1.nameOf nte = some e.content.entryPrefix := hprefix
        rw [hname] at heq
        have hmodify := hlook.strategyChoice.contentAt_modify hlook.tree.sound
          (f := fun e => { e with content := { e.content with strategy } }) (fun _ => rfl) (fun _ => rfl)
          (r := r) (e := e) ⟨he, by rw [hptr]; simp⟩
        rw [← Option.some.inj heq] at hmodify
        exact maps_strategyChoice hmodify
      · rename_i hatt
        split at hstep
        · cases hstep
        · cases hstep
          have hname' : (s.nameTree.lookup cityHash n).1.nameOf nte =
            some (StrategyChoiceContent.mk n strategy).entryPrefix := hname
          have hnew := hlook.attachNew .strategyChoice hname' hatt
          exact maps_strategyChoice (hlook.strategyChoice.contentAt_attachNew hlook.tree.sound hnew.tree.sound hatt
            hname')

theorem Joint.maps_strategyErase (h : s.Joint cityHash) (hstep : StrategyChoice.erase cityHash s n = some s') :
    s'.maps = s.maps.apply (.strategyErase n) := by
  have habsent : s.strategyChoice.contentAt StrategyChoiceContent.entryPrefix n = none →
      s.maps = s.maps.apply (.strategyErase n) := fun hnone => by
    have hmap : s.maps.strategyChoice n = none := Option.map_eq_none_iff.mpr hnone
    rw [TableMaps.apply, ← hmap, Function.update_eq_self]
  unfold StrategyChoice.erase at hstep
  split at hstep
  · cases hstep
  · split at hstep
    · rename_i hfind
      cases hstep
      refine habsent (h.strategyChoice.contentAt_of_no_name fun nte hnte => ?_)
      rw [h.tree.sound.findExactMatch_eq_some.mpr hnte] at hfind
      cases hfind
    · rename_i nte hfind
      have hname := h.tree.sound.findExactMatch_eq_some.mp hfind
      split at hstep
      · rename_i hfree
        cases hstep
        exact habsent ((h.strategyChoice.contentAt_eq_none_iff h.tree.sound hname).mpr (by simpa using hfree))
      · split at hstep
        · cases hstep
        · cases hstep
          exact maps_strategyChoice (h.strategyChoice.contentAt_detach h.tree.sound
            (h.tree.setAttached .strategyChoice nte none).sound hname)

theorem maps_pit {pit : Pit} {keys : Set (Name × Selectors)}
    (heq : ∀ key, (∃ r e, pit.entries r = some e ∧ (e.interest.name, e.interest.selectors) = key) ↔ key ∈ keys) :
    ({ s with pit } : Tables).maps = { s.maps with pit := keys } := by
  have hkeys : { key | ∃ r e, pit.entries r = some e ∧ (e.interest.name, e.interest.selectors) = key } = keys :=
    Set.ext heq
  rw [maps, maps]
  dsimp only
  rw [hkeys]

theorem Joint.maps_pitInsert (h : s.Joint cityHash) (hdistinct : s.PitDistinct) {interest : Interest}
    (hok : s.nameTree.Harmless cityHash (.lookup interest.name)) {result : Pit × Ref × Bool}
    (hins : s.pit.insert cityHash interest = some result) :
    ({ s with pit := result.1 } : Tables).maps = s.maps.apply (.pitInsert interest.name interest.selectors) ∧
      ({ s with pit := result.1 } : Tables).PitDistinct := by
  obtain ⟨hlook, nte, hnte, hname⟩ := h.lookup hok
  obtain ⟨t, nte', heq, -, -, hcases⟩ := h.pit.insert_cases cityHash interest
  have heq' : s.nameTree.lookup cityHash interest.name = (t, some nte') := heq
  rw [heq'] at hnte hname hlook
  cases hnte
  rcases hcases with ⟨r, hfor, -, hrun⟩ | ⟨hnone, hrun⟩
  · rw [hins] at hrun
    cases hrun
    obtain ⟨e, he, hsame, hselectors⟩ := Pit.isFor_eq_true.mp hfor
    refine ⟨maps_pit fun key => ?_, hdistinct⟩
    rw [Set.mem_insert_iff]
    refine ⟨Or.inr, ?_⟩
    rintro (rfl | hkey)
    · exact ⟨r, e, he, by rw [hsame, hselectors]⟩
    · exact hkey
  · rw [hins] at hrun
    cases hrun
    have hentries := Pit.inserted_entries s.pit t nte interest
    have hother : ∀ r e, s.pit.entries r = some e → e.interest.name = interest.name →
        e.interest.selectors ≠ interest.selectors := by
      intro r e he hsame hselectors
      obtain ⟨x, hx, hmem⟩ := h.pit.attached he
      have hxname : t.nameOf x = some interest.name := hsame ▸ hlook.pitNamed he hx
      rw [hlook.tree.sound.nameOf_inj hxname hname] at hmem
      have hfor : s.pit.isFor interest r = true := Pit.isFor_eq_true.mpr ⟨e, he, hsame, hselectors⟩
      rw [hnone r hmem] at hfor
      cases hfor
    constructor
    · refine maps_pit fun key => ?_
      rw [Set.mem_insert_iff]
      constructor
      · rintro ⟨r, e, he, rfl⟩
        rw [hentries] at he
        split at he
        · cases he
          exact Or.inl rfl
        · exact Or.inr ⟨r, e, he, rfl⟩
      · rintro (rfl | ⟨r, e, he, rfl⟩)
        · exact ⟨s.pit.nextRef, PitEntry.new interest nte, by rw [hentries, if_pos rfl], rfl⟩
        · exact ⟨r, e, by rw [hentries, if_neg (h.pit.fresh he).ne, he], rfl⟩
    · intro r r' e e' he he' hsame hselectors
      have he₁ := (hentries r).symm.trans he
      have he₁' := (hentries r').symm.trans he'
      split at he₁
      · rename_i hr
        split at he₁'
        · rename_i hr'
          rw [hr, hr']
        · cases he₁
          exact absurd hselectors.symm (hother r' e' he₁' hsame.symm)
      · split at he₁'
        · cases he₁'
          exact absurd hselectors (hother r e he₁ hsame)
        · exact hdistinct r r' e e' he₁ he₁' hsame hselectors

theorem Joint.maps_pitErase (h : s.Joint cityHash) (hdistinct : s.PitDistinct) {pit : Pit}
    (herase : s.pit.erase r = some pit) :
    ({ s with pit } : Tables).maps = s.maps.apply (s.mapOp (.pitErase r)) ∧
      ({ s with pit } : Tables).PitDistinct := by
  obtain ⟨e, -, he, -, -⟩ := h.pit.erase_tree herase
  obtain ⟨p₁, hp₁, -, hentries, -⟩ := h.pit.erase he
  rw [herase] at hp₁
  cases hp₁
  have hleft : ∀ {x e'}, pit.entries x = some e' ↔ s.pit.entries x = some e' ∧ x ≠ r := by
    intro x e'
    rw [hentries, Function.update_apply]
    split
    · rename_i hx
      exact ⟨fun hbad => (by cases hbad), fun hboth => absurd hx hboth.2⟩
    · rename_i hx
      exact ⟨fun hkept => ⟨hkept, hx⟩, fun hboth => hboth.1⟩
  constructor
  · rw [mapOp, he, Option.elim_some]
    refine maps_pit fun key => ?_
    rw [Set.mem_sdiff, Set.mem_singleton_iff]
    constructor
    · rintro ⟨x, e', he', rfl⟩
      obtain ⟨hold, hx⟩ := hleft.mp he'
      refine ⟨⟨x, e', hold, rfl⟩, fun heq => hx ?_⟩
      obtain ⟨hsame, hselectors⟩ := Prod.mk.inj heq
      exact hdistinct x r e' e hold he hsame hselectors
    · rintro ⟨⟨x, e', hold, rfl⟩, hne⟩
      refine ⟨x, e', hleft.mpr ⟨hold, ?_⟩, rfl⟩
      rintro rfl
      rw [he] at hold
      cases hold
      exact hne rfl
  · intro x x' e₁ e₁' he₁ he₁' hsame hselectors
    exact hdistinct x x' e₁ e₁' (hleft.mp he₁).1 (hleft.mp he₁').1 hsame hselectors

/-! ### Runs -/

theorem eraseEntry_pit (s : Tables) (r : Ref) : (Fib.eraseEntry s r).pit.entries = s.pit.entries := by
  unfold Fib.eraseEntry
  cases s.fib.nameTreeEntryOf r <;> rfl

theorem eraseAll_pit (rs : List Ref) : ∀ s : Tables, (rs.foldl Fib.eraseEntry s).pit.entries = s.pit.entries := by
  induction rs with
  | nil => exact fun _ => rfl
  | cons r rs ih => exact fun s => (ih _).trans (eraseEntry_pit s r)

theorem removeNextHopRounds_pit (face : Face) (rs : List Ref) : ∀ (s : Tables) (done : List Ref),
    (rs.foldl (Fib.removeNextHopRound face) (s, done)).1.pit.entries = s.pit.entries := by
  induction rs with
  | nil => exact fun _ _ => rfl
  | cons r rs ih => exact fun s done => ih (Fib.removeNextHop s face r) _

theorem getAt_pit {result} (hstep : Measurements.getAt s nte = some result) :
    result.1.pit.entries = s.pit.entries := by
  obtain ⟨e, -, rfl⟩ := Option.map_eq_some_iff.mp hstep
  cases e.measurementsEntry <;> rfl

theorem cleanup_pit (s : Tables) (r : Ref) : (Measurements.cleanup s r).pit.entries = s.pit.entries := by
  unfold Measurements.cleanup
  cases s.measurements.nameTreeEntryOf r <;> rfl

theorem strategyInsert_pit {strategyName : Name} {result}
    (hstep : StrategyChoice.insert cityHash s n strategyName = some result) :
    result.1.pit.entries = s.pit.entries := by
  unfold StrategyChoice.insert at hstep
  split at hstep
  · cases hstep
    rfl
  · obtain ⟨nte, -, hrun⟩ := Option.bind_eq_some_iff.mp hstep
    split at hrun
    · cases hrun
      rfl
    · split at hrun
      · cases hrun
      · cases hrun
        rfl

theorem strategyErase_pit (hstep : StrategyChoice.erase cityHash s n = some s') : s'.pit.entries = s.pit.entries := by
  unfold StrategyChoice.erase at hstep
  split at hstep
  · cases hstep
  · split at hstep
    · cases hstep
      rfl
    · split at hstep
      · cases hstep
        rfl
      · split at hstep
        · cases hstep
        · cases hstep
          rfl

theorem PitDistinct.congr (h : s.PitDistinct) (hsame : s'.pit.entries = s.pit.entries) : s'.PitDistinct := by
  unfold PitDistinct
  rw [hsame]
  exact h

/-- Every operation of the tables is the operation of the maps that it stands for. -/
theorem Joint.step_maps (h : s.Joint cityHash) (hdistinct : s.PitDistinct) {op : Op} (hok : NarrowStep cityHash s op)
    (hstep : Tables.step cityHash s op = some s') : s'.maps = s.maps.apply (s.mapOp op) ∧ s'.PitDistinct := by
  cases op with
  | fibInsert entryPrefix =>
      obtain ⟨result, hrun, rfl⟩ := Option.map_eq_some_iff.mp hstep
      refine ⟨h.maps_fibInsert hok.1 hrun, hdistinct.congr ?_⟩
      obtain ⟨nte, -, rfl⟩ := Option.map_eq_some_iff.mp hrun
      split <;> rfl
  | fibErase entryPrefix =>
      cases hstep
      refine ⟨h.maps_fibErase, hdistinct.congr ?_⟩
      unfold Fib.erase
      cases s.nameTree.findExactMatch cityHash entryPrefix <;> rfl
  | fibEraseEntry r =>
      cases hstep
      exact ⟨h.maps_fibEraseEntry r, hdistinct.congr (eraseEntry_pit s r)⟩
  | fibAddNextHop r face cost =>
      cases hstep
      refine ⟨(h.maps_modifyNextHops r (TableMaps.withNextHop face cost)).trans ?_, hdistinct⟩
      rw [mapOp]
      cases s.fib.nameOfEntry FibContent.entryPrefix r <;> rfl
  | fibRemoveNextHop r face =>
      cases hstep
      refine ⟨(h.maps_modifyNextHops r (TableMaps.withoutNextHop face)).trans ?_, hdistinct⟩
      rw [mapOp]
      cases s.fib.nameOfEntry FibContent.entryPrefix r <;> rfl
  | fibRemoveNextHopFromAllEntries face =>
      refine ⟨h.maps_fibRemoveFace hok hstep, hdistinct.congr ?_⟩
      obtain ⟨entries, -, rfl⟩ := Option.map_eq_some_iff.mp hstep
      exact (eraseAll_pit _ _).trans (removeNextHopRounds_pit face entries s [])
  | pitInsert interest =>
      obtain ⟨result, hrun, rfl⟩ := Option.map_eq_some_iff.mp hstep
      exact h.maps_pitInsert hdistinct hok.1 hrun
  | pitErase r =>
      obtain ⟨p, hrun, rfl⟩ := Option.map_eq_some_iff.mp hstep
      exact h.maps_pitErase hdistinct hrun
  | measurementsGet name =>
      obtain ⟨result, hrun, rfl⟩ := Option.map_eq_some_iff.mp hstep
      obtain ⟨nte, hlook, hget⟩ := Option.bind_eq_some_iff.mp hrun
      obtain ⟨hjoint, nte', hnte, hname⟩ := h.lookup hok.1
      cases hlook.symm.trans hnte
      have hpit := getAt_pit hget
      exact ⟨hjoint.maps_getAt hname hget, hdistinct.congr hpit⟩
  | measurementsGetOfFib r =>
      obtain ⟨result, hrun, rfl⟩ := Option.map_eq_some_iff.mp hstep
      obtain ⟨nte, hnte, hget⟩ := Option.bind_eq_some_iff.mp hrun
      obtain ⟨e, he, hptr⟩ := Option.bind_eq_some_iff.mp hnte
      have hname := h.fib.named he hptr
      rw [mapOp, Table.nameOfEntry, he, Option.bind_some, hptr, Option.map_some, Option.elim_some]
      exact ⟨h.maps_getAt hname hget, hdistinct.congr (getAt_pit hget)⟩
  | measurementsGetOfPit r =>
      obtain ⟨result, hrun, rfl⟩ := Option.map_eq_some_iff.mp hstep
      obtain ⟨nte, hnte, hget⟩ := Option.bind_eq_some_iff.mp hrun
      obtain ⟨e, he, hptr⟩ := Option.bind_eq_some_iff.mp hnte
      rw [mapOp, he, Option.elim_some]
      exact ⟨h.maps_getAt (h.pitNamed he hptr) hget, hdistinct.congr (getAt_pit hget)⟩
  | measurementsGetParent r =>
      obtain ⟨result, hrun, rfl⟩ := Option.map_eq_some_iff.mp hstep
      obtain ⟨e, he, hrun⟩ := Option.bind_eq_some_iff.mp hrun
      rw [mapOp, Table.nameOfEntry, he, Option.bind_some]
      split at hrun
      · rename_i hroot
        cases hrun
        refine ⟨?_, hdistinct⟩
        cases e.nameTreeEntry with
        | none => rfl
        | some nte => rw [Option.map_some, Option.elim_some, if_pos hroot, TableMaps.apply]
      · rename_i hroot
        obtain ⟨nte, hnte, hget⟩ := Option.bind_eq_some_iff.mp hrun
        obtain ⟨got, hgot, rfl⟩ := Option.map_eq_some_iff.mp hget
        obtain ⟨x, hptr, hparent⟩ := Option.bind_eq_some_iff.mp hnte
        obtain ⟨p, hp, hname⟩ := h.tree.sound.parent_cons (h.measurements.named he hptr) fun hnil =>
          hroot (by rw [hnil]; rfl)
        cases hparent.symm.trans hp
        rw [hptr, Option.map_some, Option.elim_some, if_neg hroot]
        exact ⟨h.maps_getAt hname hgot, hdistinct.congr (getAt_pit hgot)⟩
  | measurementsFindExactMatch name =>
      cases hstep
      exact ⟨rfl, hdistinct⟩
  | measurementsExtendLifetime r lifetime =>
      cases hstep
      refine ⟨h.maps_extendLifetime r lifetime, hdistinct.congr ?_⟩
      unfold Measurements.extendLifetime
      dsimp only
      split <;> rfl
  | measurementsCleanup r =>
      simp only [Tables.step] at hstep
      split at hstep
      · cases hstep
      · split at hstep
        · cases hstep
          have hclean := h.cleanup hok.1
          refine ⟨?_, hdistinct.congr (cleanup_pit s r)⟩
          rw [← h.maps_cleanup r]
          have heq := hclean.measurements.contentAt_modify_detached hclean.tree.sound
            (f := fun e => { e with content := { e.content with cleanup := none } }) (fun _ => rfl) (fun _ => rfl)
            (h.cleanup_detached r)
          show TableMaps.mk _ (Option.map MeasurementsContent.expiry ∘ _) _ _ = _
          rw [heq]
          rfl
        · cases hstep
  | strategyInstall strategyName =>
      cases hstep
      unfold StrategyChoice.install
      split
      · exact ⟨rfl, hdistinct⟩
      · exact ⟨rfl, hdistinct⟩
  | strategyInsert entryPrefix strategyName =>
      obtain ⟨result, hrun, rfl⟩ := Option.map_eq_some_iff.mp hstep
      exact ⟨h.maps_strategyInsert hok.1 hrun, hdistinct.congr (strategyInsert_pit hrun)⟩
  | strategyErase entryPrefix => exact ⟨h.maps_strategyErase hstep, hdistinct.congr (strategyErase_pit hstep)⟩
  | find =>
      cases hstep
      exact ⟨rfl, hdistinct⟩
  | advanceClock duration =>
      cases hstep
      exact ⟨rfl, hdistinct⟩

theorem new_maps {nBuckets : Nat} (hpos : 0 < nBuckets) (defaultStrategy : Name) :
    (new cityHash nBuckets defaultStrategy).maps = TableMaps.initial defaultStrategy := by
  obtain ⟨t, nte, -, hstable, hcarries, hname, heq⟩ := new_eq cityHash hpos defaultStrategy
  have hfree : t.attachedTo .strategyChoice nte = none := (hcarries.attachedTo_eq _ _).trans rfl
  have hname' : t.nameOf nte = some (StrategyChoiceContent.mk [] defaultStrategy).entryPrefix := hname
  have hempty := (Table.empty_attached .strategyChoice nBuckets StrategyChoiceContent.entryPrefix).carried hcarries
  have hnew := hempty.contentAt_attachNew hstable.sound (hstable.setAttached _ _ _).sound hfree hname'
  rw [heq]
  refine (maps_strategyChoice (s := empty nBuckets) hnew).trans ?_
  have hpit : (empty nBuckets).maps.pit = ∅ := by
    ext key
    simp [maps, empty, Pit.new]
  rw [TableMaps.initial, ← hpit]
  rfl

theorem new_pitDistinct {nBuckets : Nat} (hpos : 0 < nBuckets) (defaultStrategy : Name) :
    (new cityHash nBuckets defaultStrategy).PitDistinct := by
  obtain ⟨t, nte, -, -, -, -, heq⟩ := new_eq cityHash hpos defaultStrategy
  rw [heq]
  intro r r' e e' he
  cases he

/-- The next hops of a FIB entry; those of the empty entry are none. -/
def nextHopsOf (s : Tables) (r : Ref) : Option (List NextHop) := (s.fib.entries r).map fun e => e.content.nextHops

/-- Whatever the tables do on the name tree they share, they stand for four maps: an operation does to the maps what
it is for, to one of them; an exact match finds what the map has, and a match from a PIT entry what it has for the
longest prefix. -/
theorem tables_refine_maps {nBuckets : Nat} (hpos : 0 < nBuckets) (defaultStrategy : Name)
    (hr : Reach (step cityHash) (NarrowStep cityHash) (new cityHash nBuckets defaultStrategy) s) :
    (∃ ops : List MapOp, s.maps = ops.foldl TableMaps.apply (TableMaps.initial defaultStrategy)) ∧
    (∀ op s', NarrowStep cityHash s op → step cityHash s op = some s' → s'.maps = s.maps.apply (s.mapOp op)) ∧
    (∀ n, (Fib.findExactMatch cityHash s n).bind s.nextHopsOf = s.maps.fib n ∧
      StrategyChoice.get cityHash s n = s.maps.strategyChoice n) ∧
    ∀ r e, s.pit.entries r = some e →
      (∃ found, Fib.findLongestPrefixMatchOfPit s r = some found ∧
        found.bind s.nextHopsOf = longest s.maps.fib e.interest.name) ∧
      StrategyChoice.findEffectiveStrategyOfPit s r = longest s.maps.strategyChoice e.interest.name := by
  obtain ⟨h, hdistinct, hops⟩ : s.Joint cityHash ∧ s.PitDistinct ∧
      ∃ ops : List MapOp, s.maps = ops.foldl TableMaps.apply (TableMaps.initial defaultStrategy) := by
    refine hr.invariant (I := fun s => s.Joint cityHash ∧ s.PitDistinct ∧
      ∃ ops : List MapOp, s.maps = ops.foldl TableMaps.apply (TableMaps.initial defaultStrategy))
      ⟨new_joint hpos defaultStrategy, new_pitDistinct hpos defaultStrategy, [], new_maps hpos defaultStrategy⟩ ?_
    rintro s op s' ⟨h, hdistinct, ops, hmaps⟩ hok hstep
    obtain ⟨hmaps', hdistinct'⟩ := h.step_maps hdistinct hok hstep
    refine ⟨h.step hok.1 hstep, hdistinct', ops ++ [s.mapOp op], ?_⟩
    rw [List.foldl_append, ← hmaps]
    exact hmaps'
  refine ⟨hops, fun op s' hok hstep => (h.step_maps hdistinct hok hstep).1, fun n => ⟨?_, ?_⟩, fun r e he => ?_⟩
  · rw [Fib.findExactMatch]
    show _ = Option.map _ _
    cases hfind : s.nameTree.findExactMatch cityHash n with
    | none =>
        rw [h.fib.contentAt_of_no_name fun nte hnte => by
          rw [h.tree.sound.findExactMatch_eq_some.mpr hnte] at hfind
          cases hfind]
        rfl
    | some nte =>
        rw [h.fib.contentAt_of_nameOf h.tree.sound (h.tree.sound.findExactMatch_eq_some.mp hfind), Option.bind_some]
        cases s.nameTree.attachedTo .fib nte with
        | none => rfl
        | some r =>
            rw [Option.bind_some, Option.bind_some, nextHopsOf, Option.map_map]
            rfl
  · rw [StrategyChoice.get]
    show _ = Option.map _ _
    cases hfind : s.nameTree.findExactMatch cityHash n with
    | none =>
        rw [h.strategyChoice.contentAt_of_no_name fun nte hnte => by
          rw [h.tree.sound.findExactMatch_eq_some.mpr hnte] at hfind
          cases hfind]
        rfl
    | some nte =>
        rw [h.strategyChoice.contentAt_of_nameOf h.tree.sound (h.tree.sound.findExactMatch_eq_some.mp hfind),
          Option.bind_some]
        cases s.nameTree.attachedTo .strategyChoice nte with
        | none => rfl
        | some r =>
            rw [Option.bind_some, Option.bind_some, StrategyChoice.strategyOf, Option.map_map]
            rfl
  · obtain ⟨⟨found, hfound, hfib⟩, ⟨strategy, e', he', heffective, hstrategy⟩, -⟩ := h.matchesFrom he
    refine ⟨⟨found, hfound, ?_⟩, ?_⟩
    · have hlongest := h.fib.longest_contentAt h.tree.sound hfib
      show _ = longest (fun n => Option.map _ _) _
      rw [longest_map, hlongest, Option.map_bind]
      cases found with
      | none => rfl
      | some r' =>
          rw [Option.bind_some, Option.bind_some, nextHopsOf]
          show _ = Option.map _ (Option.map _ _)
          rw [Option.map_map]
          rfl
    · have hlongest := h.strategyChoice.longest_contentAt h.tree.sound hstrategy
      show _ = longest (fun n => Option.map _ _) _
      rw [longest_map, hlongest, heffective, Option.bind_some, he', Option.map_some, Option.map_some]

/-- A route for `/A` and a PIT entry for `/A/B`. -/
theorem tables_refine_maps_route : ∃ s e,
    Reach (step CityHash.ofShort) (NarrowStep CityHash.ofShort) (new CityHash.ofShort 1024 [.ofByte 83]) s ∧
      s.pit.entries 0 = some e ∧ s.maps.fib [.ofByte 65] = some [⟨1, 10⟩] ∧
      longest s.maps.fib e.interest.name = some [⟨1, 10⟩] ∧
      longest s.maps.strategyChoice e.interest.name = some [.ofByte 83] := by
  have hnever : ∀ {s : Tables} {op : Op}, HarmlessStep CityHash.ofShort s op →
      (∀ face, op ≠ .fibRemoveNextHopFromAllEntries face) → NarrowStep CityHash.ofShort s op :=
    fun hok hop => ⟨hok, fun face heq => absurd heq (hop face)⟩
  have hroute : Reach (step CityHash.ofShort) (NarrowStep CityHash.ofShort)
      (new CityHash.ofShort 1024 [.ofByte 83]) _ :=
    .next (.fibInsert [.ofByte 65]) .start (hnever (NameTree.harmless_lookup_of_two_pow (k := 10) rfl
      (by decide +kernel)) (by simp)) rfl
  have hhop := hroute.next (Op.fibAddNextHop 0 1 10) (hnever trivial (by simp)) rfl
  have hpit := hhop.next (Op.pitInsert (plainInterest [.ofByte 65, .ofByte 66]))
    (hnever (NameTree.harmless_lookup_of_two_pow (k := 10) rfl (by decide +kernel)) (by simp)) rfl
  obtain ⟨-, -, hread, hmatch⟩ := tables_refine_maps (by decide) [.ofByte 83] hpit
  obtain ⟨⟨found, hfound, hfib⟩, hstrategy⟩ :=
    hmatch 0 (PitEntry.new (plainInterest [.ofByte 65, .ofByte 66]) 2) rfl
  refine ⟨_, _, hpit, rfl, ?_, ?_, ?_⟩
  · rw [← (hread [.ofByte 65]).1]
    decide +kernel
  · refine hfib.symm.trans ?_
    have heq : found = some 0 := Option.some.inj (hfound.symm.trans (by decide +kernel))
    rw [heq]
    decide +kernel
  · refine hstrategy.symm.trans ?_
    decide +kernel

end Tables
end NfdPitless
