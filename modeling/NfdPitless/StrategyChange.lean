import NfdPitless.StrategyInfo
import NfdPitless.LongestPrefix
import NfdPitless.NameTreeGrowth

/-! A change of the StrategyChoice table clears the `StrategyInfo` of what has another effective strategy afterwards,
and of nothing else. The effective strategy of a name is that of its longest prefix with an entry, and a change at one
prefix changes it for the names that this prefix covers; these are the names that the pruned walk of `changeStrategy`
visits. -/

namespace NfdPitless

open LongestPrefix

variable {I : Type} {cityHash : Component → UInt64}

namespace Tables

/-- The strategy of the entry of a name that is in the table. -/
def strategyAt (s : Tables) (n : Name) : Option Name :=
  (List.range s.strategyChoice.nextRef).findSome? fun r =>
    (s.strategyChoice.entries r).bind fun e =>
      if e.nameTreeEntry.isSome && decide (e.content.entryPrefix = n) then some e.content.strategy else none

/-- The strategy of the longest prefix with an entry. -/
def effectiveStrategy (s : Tables) (n : Name) : Option Name := longest s.strategyAt n

/-- The name of a host: of a PIT entry, of the one whose record it is, or of a Measurements entry in the name tree. -/
def nameOfHost (s : Tables) : StrategyInfoHost → Option Name
  | .pitEntry r => (s.pit.entries r).map PitEntry.getName
  | .inRecord r face => ((s.pit.entries r).filter fun e => e.hasInRecord face).map PitEntry.getName
  | .outRecord r face => ((s.pit.entries r).filter fun e => e.hasOutRecord face).map PitEntry.getName
  | .measurementsEntry r => (s.measurements.nameTreeEntryOf r).bind s.nameTree.nameOf

/-- `StrategyChoice::findEffectiveStrategy` of a name returns the strategy of the longest prefix with an entry. -/
def FindsEffective (cityHash : Component → UInt64) (s : Tables) (n : Name) : Prop :=
  (s.nameTree.findEffectiveStrategy cityHash n).bind (StrategyChoice.strategyOf s) = s.effectiveStrategy n

variable {s s' : Tables} {n p : Name} {x nte : Ref} {host : StrategyInfoHost} {v : Name} {w : Option Name}

def HasStrategy (s : Tables) (n v : Name) : Prop :=
  ∃ r e, s.strategyChoice.entries r = some e ∧ e.nameTreeEntry ≠ none ∧ e.content.entryPrefix = n ∧
    e.content.strategy = v

/-- There is one entry at most for a name. -/
theorem Joint.entry_unique (h : s.Joint cityHash) {r r' : Ref} {e e' : TableEntry StrategyChoiceContent}
    (he : s.strategyChoice.entries r = some e) (he' : s.strategyChoice.entries r' = some e')
    (hin : e.nameTreeEntry ≠ none) (hin' : e'.nameTreeEntry ≠ none)
    (hname : e.content.entryPrefix = e'.content.entryPrefix) : r = r' := by
  obtain ⟨x, hx⟩ := Option.ne_none_iff_exists'.mp hin
  obtain ⟨x', hx'⟩ := Option.ne_none_iff_exists'.mp hin'
  have hnx := h.strategyChoice.named he hx
  have hnx' := h.strategyChoice.named he' hx'
  rw [← hname] at hnx'
  have hatt := h.strategyChoice.attached he hx
  rw [h.tree.sound.nameOf_inj hnx hnx', h.strategyChoice.attached he' hx'] at hatt
  exact (Option.some.inj hatt).symm

theorem Joint.strategyAt_eq_some (h : s.Joint cityHash) : s.strategyAt n = some v ↔ s.HasStrategy n v := by
  have hfound : ∀ {v}, s.strategyAt n = some v → s.HasStrategy n v := by
    intro v hv
    obtain ⟨r, -, hr⟩ := List.exists_of_findSome?_eq_some hv
    obtain ⟨e, he, hv⟩ := Option.bind_eq_some_iff.mp hr
    split at hv
    · rename_i hcond
      obtain ⟨hin, hname⟩ := Bool.and_eq_true_iff.mp hcond
      exact ⟨r, e, he, Option.isSome_iff_ne_none.mp hin, of_decide_eq_true hname, Option.some.inj hv⟩
    · cases hv
  refine ⟨hfound, ?_⟩
  rintro ⟨r, e, he, hin, hname, hv⟩
  have hval : ((s.strategyChoice.entries r).bind fun e =>
      if e.nameTreeEntry.isSome && decide (e.content.entryPrefix = n) then some e.content.strategy else none) =
        some v := by
    rw [he, Option.bind_some, hname, Option.isSome_iff_ne_none.mpr hin, ← hv]
    simp
  cases hat : s.strategyAt n with
  | none =>
      have hnone := List.findSome?_eq_none_iff.mp hat r (List.mem_range.mpr (h.strategyChoice.fresh he))
      rw [hval] at hnone
      cases hnone
  | some v' =>
      obtain ⟨r', e', he', hin', hname', hv'⟩ := hfound hat
      have hr := h.entry_unique he he' hin hin' (hname.trans hname'.symm)
      rw [← hr, he] at he'
      cases he'
      rw [← hv', hv]

theorem Joint.strategyAt_of_nameOf (h : s.Joint cityHash) (hx : s.nameTree.nameOf x = some n) :
    s.strategyAt n = (s.nameTree.attachedTo .strategyChoice x).bind (StrategyChoice.strategyOf s) := by
  apply Option.ext
  intro v
  rw [h.strategyAt_eq_some]
  constructor
  · rintro ⟨r, e, he, hin, hname, hv⟩
    obtain ⟨y, hy⟩ := Option.ne_none_iff_exists'.mp hin
    have hny := h.strategyChoice.named he hy
    rw [hname] at hny
    have hatt := h.strategyChoice.attached he hy
    rw [h.tree.sound.nameOf_inj hny hx] at hatt
    rw [hatt, Option.bind_some, StrategyChoice.strategyOf, he, Option.map_some, hv]
  · intro hv
    obtain ⟨r, hr, hv⟩ := Option.bind_eq_some_iff.mp hv
    obtain ⟨e, he, hv⟩ := Option.map_eq_some_iff.mp hv
    obtain ⟨e', he', hptr⟩ := h.strategyChoice.owned hr
    rw [he] at he'
    cases he'
    have hnamed := h.strategyChoice.named he hptr
    rw [hx] at hnamed
    exact ⟨r, e, he, by rw [hptr]; simp, (Option.some.inj hnamed).symm, hv⟩

/-- An entry is attached to a name tree entry exactly if its name has a strategy. -/
theorem Joint.strategyAt_eq_none_iff (h : s.Joint cityHash) (hx : s.nameTree.nameOf x = some n) :
    s.strategyAt n = none ↔ s.nameTree.attachedTo .strategyChoice x = none := by
  rw [h.strategyAt_of_nameOf hx]
  cases hatt : s.nameTree.attachedTo .strategyChoice x with
  | none => exact iff_of_true rfl rfl
  | some r =>
      obtain ⟨e, he, -⟩ := h.strategyChoice.owned hatt
      rw [Option.bind_some, StrategyChoice.strategyOf, he]
      exact iff_of_false (by simp) (by simp)

/-- The root has a strategy, so every name does. -/
theorem Joint.effectiveStrategy_isSome (h : s.Joint cityHash) (n : Name) : (s.effectiveStrategy n).isSome := by
  obtain ⟨x, r, hx, hr⟩ := h.root
  refine longest_isSome ?_ n
  rw [Option.isSome_iff_ne_none]
  intro hnone
  rw [(h.strategyAt_eq_none_iff hx).mp hnone] at hr
  cases hr

theorem Joint.strategyAt_eq_update (h : s.Joint cityHash) (h' : s'.Joint cityHash)
    (hat : ∀ v, s'.HasStrategy p v ↔ w = some v)
    (hother : ∀ q v, q ≠ p → (s'.HasStrategy q v ↔ s.HasStrategy q v)) :
    s'.strategyAt = Function.update s.strategyAt p w := by
  funext q
  apply Option.ext
  intro v
  rw [h'.strategyAt_eq_some]
  by_cases hq : q = p
  · rw [hq, hat, Function.update_self]
  · rw [hother q v hq, Function.update_of_ne hq, h.strategyAt_eq_some]

theorem mem_map_face {ρ : Type} (faceOf : ρ → Face) (mk : Face → StrategyInfoHost) (records : List ρ) :
    host ∈ records.map (fun record => mk (faceOf record)) ↔
      ∃ face, host = mk face ∧ (records.any fun record => faceOf record == face) = true := by
  rw [List.mem_map]
  constructor
  · rintro ⟨record, hrecord, rfl⟩
    exact ⟨faceOf record, rfl, List.any_eq_true.mpr ⟨record, hrecord, beq_self_eq_true _⟩⟩
  · rintro ⟨face, rfl, hface⟩
    obtain ⟨record, hrecord, heq⟩ := List.any_eq_true.mp hface
    exact ⟨record, hrecord, by rw [beq_iff_eq.mp heq]⟩

theorem mem_hostsOfPit {r : Ref} : host ∈ s.hostsOfPit r ↔ ∃ e, s.pit.entries r = some e ∧
    (host = .pitEntry r ∨ (∃ face, host = .inRecord r face ∧ e.hasInRecord face = true) ∨
      ∃ face, host = .outRecord r face ∧ e.hasOutRecord face = true) := by
  rw [hostsOfPit]
  cases s.pit.entries r with
  | none => exact iff_of_false List.not_mem_nil (by simp)
  | some e =>
      rw [Option.elim_some, List.cons_append, List.mem_cons, List.mem_append,
        mem_map_face InRecord.face (StrategyInfoHost.inRecord r),
        mem_map_face OutRecord.face (StrategyInfoHost.outRecord r)]
      simp [PitEntry.hasInRecord, PitEntry.hasOutRecord]

/-- The PIT entry that a host is or belongs to, with its name. -/
theorem nameOfHost_pit {r : Ref} {e : PitEntry} (he : s.pit.entries r = some e) (h : host ∈ s.hostsOfPit r) :
    s.nameOfHost host = some e.getName := by
  obtain ⟨e', he', hhost⟩ := mem_hostsOfPit.mp h
  rw [he] at he'
  cases he'
  rcases hhost with rfl | ⟨face, rfl, hface⟩ | ⟨face, rfl, hface⟩
  · rw [nameOfHost, he, Option.map_some]
  · rw [nameOfHost, he, Option.filter_some, if_pos hface, Option.map_some]
  · rw [nameOfHost, he, Option.filter_some, if_pos hface, Option.map_some]

theorem nameOfHost_cases (h : s.nameOfHost host = some n) :
    (∃ r e, s.pit.entries r = some e ∧ host ∈ s.hostsOfPit r ∧ e.getName = n) ∨
      ∃ r, host = .measurementsEntry r ∧ (s.measurements.nameTreeEntryOf r).bind s.nameTree.nameOf = some n := by
  cases host with
  | pitEntry r =>
      obtain ⟨e, he, hname⟩ := Option.map_eq_some_iff.mp h
      exact Or.inl ⟨r, e, he, mem_hostsOfPit.mpr ⟨e, he, Or.inl rfl⟩, hname⟩
  | inRecord r face =>
      obtain ⟨e, he, hname⟩ := Option.map_eq_some_iff.mp h
      obtain ⟨he, hface⟩ := Option.filter_eq_some_iff.mp he
      exact Or.inl ⟨r, e, he, mem_hostsOfPit.mpr ⟨e, he, Or.inr (Or.inl ⟨face, rfl, hface⟩)⟩, hname⟩
  | outRecord r face =>
      obtain ⟨e, he, hname⟩ := Option.map_eq_some_iff.mp h
      obtain ⟨he, hface⟩ := Option.filter_eq_some_iff.mp he
      exact Or.inl ⟨r, e, he, mem_hostsOfPit.mpr ⟨e, he, Or.inr (Or.inr ⟨face, rfl, hface⟩)⟩, hname⟩
  | measurementsEntry r => exact Or.inr ⟨r, rfl, h⟩

/-- What `clearStrategyInfo` finds at a name tree entry are the hosts of its name. -/
theorem Joint.mem_hostsAt (h : s.Joint cityHash) (hx : s.nameTree.nameOf x = some n) :
    host ∈ s.hostsAt x ↔ s.nameOfHost host = some n := by
  rw [hostsAt, List.mem_append, List.mem_flatMap, Option.mem_toList, Option.map_eq_some_iff]
  constructor
  · rintro (⟨r, hr, hhost⟩ | ⟨r, hr, rfl⟩)
    · obtain ⟨e, he, hptr⟩ := h.pit.owned hr
      have hname := h.pitNamed he hptr
      rw [hx] at hname
      rw [nameOfHost_pit he hhost, PitEntry.getName, hname]
    · obtain ⟨e, he, hptr⟩ := h.measurements.owned hr
      rw [nameOfHost, Table.nameTreeEntryOf, he, Option.bind_some, hptr, Option.bind_some, hx]
  · intro hhost
    rcases nameOfHost_cases hhost with ⟨r, e, he, hmem, hname⟩ | ⟨r, rfl, hr⟩
    · obtain ⟨y, hptr, hy⟩ := h.pit.attached he
      have hny := h.pitNamed he hptr
      rw [← PitEntry.getName, hname] at hny
      rw [h.tree.sound.nameOf_inj hny hx] at hy
      exact Or.inl ⟨r, hy, hmem⟩
    · obtain ⟨y, hptr, hy⟩ := Option.bind_eq_some_iff.mp hr
      obtain ⟨e, he, hptr⟩ := Option.bind_eq_some_iff.mp hptr
      have hatt := h.measurements.attached he hptr
      rw [h.tree.sound.nameOf_inj hy hx] at hatt
      exact Or.inr ⟨r, hatt, rfl⟩

/-- A host is at a name tree entry. -/
theorem Joint.nameOfHost_stored (h : s.Joint cityHash) (hhost : s.nameOfHost host = some n) :
    ∃ x, s.nameTree.nameOf x = some n := by
  rcases nameOfHost_cases hhost with ⟨r, e, he, -, rfl⟩ | ⟨r, rfl, hr⟩
  · obtain ⟨y, hptr, -⟩ := h.pit.attached he
    exact ⟨y, h.pitNamed he hptr⟩
  · obtain ⟨y, -, hy⟩ := Option.bind_eq_some_iff.mp hr
    exact ⟨y, hy⟩

/-- From `s` to `s'` the hosts keep their names. -/
theorem nameOfHost_of_pit_eq (hhost : s.nameOfHost host = some n) (hpit : s'.pit.entries = s.pit.entries)
    (hmeas : s'.measurements = s.measurements)
    (hnames : ∀ {x m}, s.nameTree.nameOf x = some m → s'.nameTree.nameOf x = some m) : s'.nameOfHost host = some n := by
  cases host with
  | measurementsEntry r =>
      obtain ⟨y, hptr, hy⟩ := Option.bind_eq_some_iff.mp hhost
      rw [nameOfHost, hmeas, hptr, Option.bind_some, hnames hy]
  | _ =>
      rw [nameOfHost, hpit]
      exact hhost

/-! ### The walk -/

/-- The entries that the walk of `changeStrategy` visits are those of the names that the prefix covers. -/
theorem Joint.partialEnumerate_covers (h : s.Joint cityHash) (hnte : s.nameTree.nameOf nte = some p) :
    ∃ visited, s.nameTree.partialEnumerate cityHash p (StrategyChoice.changeSelector s.nameTree (some nte)) =
        some visited ∧ (∀ x ∈ visited, ∃ n, s.nameTree.nameOf x = some n) ∧
      ∀ {x n}, s.nameTree.nameOf x = some n → (x ∈ visited ↔ Covers s.strategyAt p n) := by
  obtain ⟨visited, hvisited, -, hmem⟩ :=
    h.tree.sound.partialEnumerate_eq hnte (StrategyChoice.changeSelector s.nameTree (some nte))
  refine ⟨visited, hvisited, fun x hx => ?_, fun {x n} hx => ?_⟩
  · obtain ⟨⟨n, hn, -⟩, -⟩ := (hmem x).mp hx
    exact ⟨n, hn⟩
  have hsel : ∀ {y m}, s.nameTree.nameOf y = some m →
      (((StrategyChoice.changeSelector s.nameTree (some nte) y).1 = true ↔ m = p ∨ s.strategyAt m = none) ∧
        ((StrategyChoice.changeSelector s.nameTree (some nte) y).2 = true ↔ m = p ∨ s.strategyAt m = none)) := by
    intro y m hy
    have hroot : some nte = some y ↔ m = p := by
      constructor
      · intro heq
        cases heq
        rw [hnte] at hy
        exact (Option.some.inj hy).symm
      · rintro rfl
        rw [h.tree.sound.nameOf_inj hnte hy]
    rw [h.strategyAt_eq_none_iff hy, ← hroot, StrategyChoice.changeSelector]
    by_cases heq : some nte = some y
    · simp [heq]
    · rw [if_neg heq]
      cases s.nameTree.attachedTo .strategyChoice y <;> simp [heq]
  rw [hmem]
  constructor
  · rintro ⟨⟨m, hm, hpm, hbetween⟩, hstop⟩
    rw [hx] at hm
    cases hm
    refine ⟨hpm, fun q hpq hqn hne => ?_⟩
    obtain ⟨y, hy⟩ := h.tree.sound.prefix_stored hx hqn
    by_cases heq : q = n
    · rw [heq] at hne ⊢
      exact ((hsel hx).1.mp hstop).resolve_left hne
    · exact ((hsel hy).2.mp (hbetween y q hy hpq hqn heq)).resolve_left hne
  · rintro ⟨hpn, hnone⟩
    refine ⟨⟨n, hx, hpn, fun y m hy hpm hmn _ => (hsel hy).2.mpr ?_⟩, (hsel hx).1.mpr ?_⟩
    · exact or_iff_not_imp_left.mpr (hnone m hpm hmn)
    · exact or_iff_not_imp_left.mpr (hnone n hpn (List.prefix_refl n))

end Tables

namespace StrategyChoice

variable {s s' : StrategyTables I} {n p : Name} {nte entry : Ref} {host : StrategyInfoHost}

/-- `changeStrategy` clears what the entry covers, unless the strategies are the same. -/
theorem changeStrategy_spec (h : s.tables.Joint cityHash) {e : TableEntry StrategyChoiceContent}
    (he : s.tables.strategyChoice.entries entry = some e) (hptr : e.nameTreeEntry = some nte)
    (oldStrategy newStrategy : Name) :
    ∃ s', changeStrategy cityHash s entry oldStrategy newStrategy = some s' ∧ s'.tables = s.tables ∧
      ∀ host n, s.tables.nameOfHost host = some n →
        (newStrategy ≠ oldStrategy ∧ Covers s.tables.strategyAt e.content.entryPrefix n →
          s'.items host = fun _ => none) ∧
        (¬ (newStrategy ≠ oldStrategy ∧ Covers s.tables.strategyAt e.content.entryPrefix n) →
          s'.items host = s.items host) := by
  rw [changeStrategy]
  by_cases hsame : oldStrategy = newStrategy
  · rw [if_pos hsame]
    exact ⟨s, rfl, rfl, fun host n _ => ⟨fun hboth => absurd hsame.symm hboth.1, fun _ => rfl⟩⟩
  · obtain ⟨visited, hvisited, hstored, hmem⟩ := h.partialEnumerate_covers (h.strategyChoice.named he hptr)
    rw [if_neg hsame, he, Option.bind_some, hptr, hvisited, Option.map_some, foldl_clearStrategyInfo]
    refine ⟨_, rfl, rfl, fun host n hhost => ?_⟩
    obtain ⟨x, hx⟩ := h.nameOfHost_stored hhost
    have hcleared : host ∈ visited.flatMap s.tables.hostsAt ↔ Covers s.tables.strategyAt e.content.entryPrefix n := by
      rw [List.mem_flatMap]
      constructor
      · rintro ⟨y, hy, hhosty⟩
        obtain ⟨m, hm⟩ := hstored y hy
        have hname := (h.mem_hostsAt hm).mp hhosty
        rw [hhost] at hname
        cases hname
        exact (hmem hm).mp hy
      · exact fun hcovers => ⟨x, (hmem hx).mpr hcovers, (h.mem_hostsAt hx).mpr hhost⟩
    refine ⟨fun hboth => clearItems_of_mem (hcleared.mpr hboth.2), fun hnot => clearItems_of_not_mem fun hin => ?_⟩
    exact hnot ⟨Ne.symm hsame, hcleared.mp hin⟩

/-- Between two states of the tables: what has another effective strategy has been cleared, and nothing else has been
touched. -/
def Resets (s s' : StrategyTables I) : Prop := ∀ host n, s.tables.nameOfHost host = some n →
  (s'.tables.effectiveStrategy n ≠ s.tables.effectiveStrategy n → s'.items host = fun _ => none) ∧
    (s'.tables.effectiveStrategy n = s.tables.effectiveStrategy n → s'.items host = s.items host)

theorem resets_self (hstrategies : s'.tables.strategyAt = s.tables.strategyAt) (hitems : s'.items = s.items) :
    Resets s s' := by
  intro host n _
  have heff : s'.tables.effectiveStrategy n = s.tables.effectiveStrategy n := by
    rw [Tables.effectiveStrategy, Tables.effectiveStrategy, hstrategies]
  exact ⟨fun hne => absurd heff hne, fun _ => congrFun hitems host⟩

/-- A change of the strategy at one prefix, together with the call of `changeStrategy`. -/
theorem resets_of_change {w : Option Name} {oldStrategy newStrategy : Name}
    (hold : s.tables.effectiveStrategy p = some oldStrategy)
    (hstrategies : s'.tables.strategyAt = Function.update s.tables.strategyAt p w)
    (hnew : s'.tables.effectiveStrategy p = some newStrategy)
    (hitems : ∀ host n, s.tables.nameOfHost host = some n →
      (newStrategy ≠ oldStrategy ∧ Covers s.tables.strategyAt p n → s'.items host = fun _ => none) ∧
        (¬ (newStrategy ≠ oldStrategy ∧ Covers s.tables.strategyAt p n) → s'.items host = s.items host)) :
    Resets s s' := by
  intro host n hhost
  obtain ⟨hcleared, hkept⟩ := hitems host n hhost
  have hchanged : s'.tables.effectiveStrategy n ≠ s.tables.effectiveStrategy n ↔
      newStrategy ≠ oldStrategy ∧ Covers s.tables.strategyAt p n := by
    rw [Tables.effectiveStrategy, hstrategies] at hnew
    rw [Tables.effectiveStrategy] at hold
    rw [Tables.effectiveStrategy, Tables.effectiveStrategy, hstrategies, longest_update_ne_iff, hnew, hold, Ne,
      Option.some_inj]
  exact ⟨fun hne => hcleared (hchanged.mp hne), fun heq => hkept fun hboth => hchanged.mpr hboth heq⟩

theorem strategyAt_setStrategy {tables : Tables} (h : tables.Joint cityHash) {e : TableEntry StrategyChoiceContent}
    (he : tables.strategyChoice.entries entry = some e) (hptr : e.nameTreeEntry = some nte) (strategy : Name) :
    (setStrategy tables entry strategy).strategyAt =
      Function.update tables.strategyAt e.content.entryPrefix (some strategy) := by
  have hentries : ∀ r, (setStrategy tables entry strategy).strategyChoice.entries r =
      if r = entry then some ⟨⟨e.content.entryPrefix, strategy⟩, e.nameTreeEntry⟩ else
        tables.strategyChoice.entries r := by
    intro r
    rw [setStrategy, Table.entries_modify, he, Option.map_some]
  have hin : e.nameTreeEntry ≠ none := by
    rw [hptr]
    exact Option.some_ne_none nte
  refine h.strategyAt_eq_update (h.withTable .strategyChoice (h.strategyChoice.modify _ (fun _ => rfl) (fun _ => rfl)))
    (fun v => ?_) (fun q v hq => exists_congr fun r => ?_)
  · constructor
    · rintro ⟨r, e', he', hin', hname', rfl⟩
      rw [hentries] at he'
      split at he'
      · cases he'
        rfl
      · rename_i hne
        exact absurd (h.entry_unique he' he hin' hin hname') hne
    · intro hv
      exact ⟨entry, _, (hentries entry).trans (if_pos rfl), hin, rfl, Option.some.inj hv⟩
  · rw [hentries]
    by_cases hr : r = entry
    · rw [if_pos hr, hr, he]
      refine iff_of_false ?_ ?_
      · rintro ⟨e', he', -, hname', -⟩
        cases he'
        exact hq hname'.symm
      · rintro ⟨e', he', -, hname', -⟩
        cases he'
        exact hq hname'.symm
    · rw [if_neg hr]

theorem strategyAt_attachNew {tables : Tables} (h : tables.Joint cityHash) (hname : tables.nameTree.nameOf nte = some p)
    (hfree : tables.nameTree.attachedTo .strategyChoice nte = none) (strategy : Name) :
    (tables.setStrategyChoice (tables.strategyChoice.attachNew .strategyChoice tables.nameTree nte
        ⟨p, strategy⟩)).strategyAt = Function.update tables.strategyAt p (some strategy) := by
  have hname' : tables.nameTree.nameOf nte = some (StrategyChoiceContent.mk p strategy).entryPrefix := hname
  have hnone := (h.strategyAt_eq_none_iff hname).mpr hfree
  refine h.strategyAt_eq_update (h.attachNew .strategyChoice hname' hfree) (fun v => ?_)
    (fun q v hq => ?_)
  · constructor
    · rintro ⟨r, e, he, hin, hep, rfl⟩
      have he' := (Table.attachNew_entries hfree _ r).symm.trans he
      split at he'
      · cases he'
        rfl
      · rw [h.strategyAt_eq_some.mpr ⟨r, e, he', hin, hep, rfl⟩] at hnone
        cases hnone
    · intro hv
      exact ⟨_, _, (Table.attachNew_entries hfree _ _).trans (if_pos rfl), Option.some_ne_none nte, rfl,
        Option.some.inj hv⟩
  · constructor
    · rintro ⟨r, e, he, hin, hep, hv⟩
      have he' := (Table.attachNew_entries hfree _ r).symm.trans he
      split at he'
      · cases he'
        exact absurd hep.symm hq
      · exact ⟨r, e, he', hin, hep, hv⟩
    · rintro ⟨r, e, he, hin, hep, hv⟩
      refine ⟨r, e, (Table.attachNew_entries hfree _ r).trans ?_, hin, hep, hv⟩
      rw [if_neg, he]
      exact fun hr => absurd (h.strategyChoice.fresh he) (by rw [hr]; exact Nat.lt_irrefl _)

theorem strategyAt_detach {tables : Tables} (h : tables.Joint cityHash) {e : TableEntry StrategyChoiceContent}
    (he : tables.strategyChoice.entries entry = some e) (hptr : e.nameTreeEntry = some nte)
    (h' : (tables.setStrategyChoice
      (tables.strategyChoice.detach .strategyChoice tables.nameTree nte)).Joint cityHash) :
    (tables.setStrategyChoice (tables.strategyChoice.detach .strategyChoice tables.nameTree nte)).strategyAt =
      Function.update tables.strategyAt e.content.entryPrefix none := by
  have hatt := h.strategyChoice.attached he hptr
  have hin : e.nameTreeEntry ≠ none := by
    rw [hptr]
    exact Option.some_ne_none nte
  have hentries : ∀ r, (tables.strategyChoice.detach .strategyChoice tables.nameTree nte).2.entries r =
      if r = entry then some { e with nameTreeEntry := none } else tables.strategyChoice.entries r := by
    intro r
    refine (Table.attach_none_entries tables.strategyChoice .strategyChoice tables.nameTree nte r).trans ?_
    rw [hatt]
    by_cases hr : r = entry
    · rw [if_pos (congrArg some hr.symm), if_pos hr, hr, he, Option.map_some]
    · rw [if_neg fun heq => hr (Option.some.inj heq).symm, if_neg hr]
  refine h.strategyAt_eq_update h' (fun v => iff_of_false ?_ (by simp)) (fun q v hq => exists_congr fun r => ?_)
  · rintro ⟨r, e', he', hin', hname', -⟩
    have he'' := (hentries r).symm.trans he'
    split at he''
    · cases he''
      exact hin' rfl
    · rename_i hne
      exact hne (h.entry_unique he'' he hin' hin hname')
  · have hr := hentries r
    rw [Tables.setStrategyChoice, hr]
    by_cases hentry : r = entry
    · rw [if_pos hentry, hentry, he]
      refine iff_of_false ?_ ?_
      · rintro ⟨e', he', hin', -⟩
        cases he'
        exact hin' rfl
      · rintro ⟨e', he', -, hname', -⟩
        cases he'
        exact hq hname'.symm
    · rw [if_neg hentry]

/-- The strategy of an entry is changed. -/
theorem changeEntry_resets (h : s.tables.Joint cityHash) {e : TableEntry StrategyChoiceContent}
    (he : s.tables.strategyChoice.entries entry = some e) (hptr : e.nameTreeEntry = some nte) (strategy : Name) :
    ∃ s₁, changeStrategy cityHash s entry e.content.strategy strategy = some s₁ ∧
      Resets s { s₁ with tables := setStrategy s₁.tables entry strategy } := by
  obtain ⟨s₁, hs₁, htables, hitems⟩ := changeStrategy_spec h he hptr e.content.strategy strategy
  have hat : s.tables.strategyAt e.content.entryPrefix = some e.content.strategy :=
    h.strategyAt_eq_some.mpr ⟨entry, e, he, by rw [hptr]; exact Option.some_ne_none nte, rfl, rfl⟩
  have hset := strategyAt_setStrategy h he hptr strategy
  have hnew : (setStrategy s.tables entry strategy).effectiveStrategy e.content.entryPrefix = some strategy := by
    rw [Tables.effectiveStrategy, hset]
    exact longest_of_some (Function.update_self _ _ _)
  refine ⟨s₁, hs₁, ?_⟩
  rw [htables]
  exact resets_of_change (longest_of_some hat) hset hnew hitems

/-- An entry is made where there was none. -/
theorem newEntry_resets (h : s.tables.Joint cityHash) (hname : s.tables.nameTree.nameOf nte = some p)
    (hfree : s.tables.nameTree.attachedTo .strategyChoice nte = none) {oldStrategy : Name}
    (hold : s.tables.effectiveStrategy p = some oldStrategy) (strategy : Name) {tables : Tables}
    (htables : tables = s.tables.setStrategyChoice
      (s.tables.strategyChoice.attachNew .strategyChoice s.tables.nameTree nte ⟨p, strategy⟩)) :
    ∃ s₁, changeStrategy cityHash { s with tables } s.tables.strategyChoice.nextRef oldStrategy strategy = some s₁ ∧
      Resets s s₁ := by
  have hname' : s.tables.nameTree.nameOf nte = some (StrategyChoiceContent.mk p strategy).entryPrefix := hname
  have hjoint : tables.Joint cityHash := by
    rw [htables]
    exact h.attachNew .strategyChoice hname' hfree
  have hset := strategyAt_attachNew h hname hfree strategy
  have hentries := (Table.attachNew_entries (T := s.tables.strategyChoice) hfree ⟨p, strategy⟩
    s.tables.strategyChoice.nextRef).trans (if_pos rfl)
  rw [← htables] at hset
  have hentry : tables.strategyChoice.entries s.tables.strategyChoice.nextRef = some ⟨⟨p, strategy⟩, some nte⟩ := by
    rw [htables]
    exact hentries
  have hnames : tables.nameTree.nameOf = s.tables.nameTree.nameOf := by
    rw [htables]
    exact NameTree.nameOf_setAttached _ _ _ _
  have hpit : tables.pit.entries = s.tables.pit.entries := by rw [htables]; rfl
  have hmeas : tables.measurements = s.tables.measurements := by rw [htables]; rfl
  have hchange := changeStrategy_spec (show (StrategyTables.mk tables s.items).tables.Joint cityHash from hjoint)
    hentry rfl oldStrategy strategy
  obtain ⟨s₁, hs₁, htables₁, hitems⟩ := hchange
  have hnew : s₁.tables.effectiveStrategy p = some strategy := by
    rw [Tables.effectiveStrategy, htables₁, hset]
    exact longest_of_some (Function.update_self _ _ _)
  refine ⟨s₁, hs₁, resets_of_change hold (by rw [htables₁, hset]) hnew fun host n hhost => ?_⟩
  have hhost' : tables.nameOfHost host = some n :=
    Tables.nameOfHost_of_pit_eq hhost hpit hmeas fun hx => (congrFun hnames _).trans hx
  have hboth := hitems host n hhost'
  rw [hset, covers_update] at hboth
  exact hboth

/-- An insertion that resizes without harm, and finds the strategy that is effective before. -/
theorem insertStrategy_resets (h : s.tables.Joint cityHash) (hok : s.tables.nameTree.Harmless cityHash (.lookup p))
    (hfinds : (s.tables.withTree (s.tables.nameTree.lookup cityHash p).1).FindsEffective cityHash p)
    (strategyName : Name) :
    ∃ s' installed, insertStrategy cityHash s p strategyName = some (s', installed) ∧ Resets s s' := by
  obtain ⟨hlook, nte, hnte, hname⟩ := h.lookup hok
  have hnames : ∀ {x m}, s.tables.nameTree.nameOf x = some m →
      (s.tables.nameTree.lookup cityHash p).1.nameOf x = some m :=
    fun hx => (h.tree.sound.lookup p hok.lookupRehashes).2.1 _ _ hx
  have hlooked : ∀ {s' : StrategyTables I},
      Resets { s with tables := s.tables.withTree (s.tables.nameTree.lookup cityHash p).1 } s' → Resets s s' :=
    fun hresets host n hhost => hresets host n (Tables.nameOfHost_of_pit_eq hhost rfl rfl hnames)
  rw [insertStrategy]
  cases getStrategy s.tables strategyName with
  | none => exact ⟨s, false, rfl, resets_self rfl rfl⟩
  | some strategy =>
      dsimp only
      rw [hnte, Option.bind_some]
      cases hentry : (s.tables.nameTree.lookup cityHash p).1.attachedTo .strategyChoice nte with
      | some entry =>
          obtain ⟨e, he, hptr⟩ := hlook.strategyChoice.owned hentry
          have hold : strategyOf (s.tables.withTree (s.tables.nameTree.lookup cityHash p).1) entry =
              some e.content.strategy := by
            rw [strategyOf, he, Option.map_some]
          dsimp only
          rw [hold, Option.bind_some]
          by_cases hsame : e.content.strategy = strategy
          · rw [if_pos hsame]
            exact ⟨_, true, rfl, resets_self rfl rfl⟩
          · obtain ⟨s₁, hs₁, hresets⟩ := changeEntry_resets (s := { s with
              tables := s.tables.withTree (s.tables.nameTree.lookup cityHash p).1 }) hlook he hptr strategy
            rw [if_neg hsame, hs₁, Option.map_some]
            exact ⟨_, true, rfl, hlooked hresets⟩
      | none =>
          obtain ⟨oldStrategy, hold⟩ := Option.isSome_iff_exists.mp (hlook.effectiveStrategy_isSome p)
          have hfound : ((s.tables.nameTree.lookup cityHash p).1.findEffectiveStrategy cityHash p).bind
              (strategyOf (s.tables.withTree (s.tables.nameTree.lookup cityHash p).1)) = some oldStrategy :=
            hfinds.trans hold
          obtain ⟨s₁, hs₁, hresets⟩ := newEntry_resets (s := { s with
            tables := s.tables.withTree (s.tables.nameTree.lookup cityHash p).1 }) hlook hname hentry hold strategy rfl
          dsimp only
          rw [hfound, Option.bind_some]
          exact ⟨s₁, true, congrArg (Option.map fun s => (s, true)) hs₁, hlooked hresets⟩

/-- An erasure, which is never of the root. -/
theorem eraseStrategy_resets (h : s.tables.Joint cityHash) (hne : p ≠ [])
    (hok : ∀ nte, s.tables.nameTree.findExactMatch cityHash p = some nte →
      Tables.DetachHarmless cityHash s.tables.nameTree .strategyChoice nte)
    (hfinds : s.tables.FindsEffective cityHash (p.getPrefix (p.length - 1))) :
    ∃ s', eraseStrategy cityHash s p = some s' ∧ Resets s s' := by
  rw [eraseStrategy, if_neg fun hlength => hne (List.length_eq_zero_iff.mp hlength)]
  cases hfind : s.tables.nameTree.findExactMatch cityHash p with
  | none => exact ⟨s, rfl, resets_self rfl rfl⟩
  | some nte =>
      have hname := h.tree.sound.findExactMatch_eq_some.mp hfind
      dsimp only
      cases hentry : s.tables.nameTree.attachedTo .strategyChoice nte with
      | none => exact ⟨s, rfl, resets_self rfl rfl⟩
      | some entry =>
          obtain ⟨e, he, hptr⟩ := h.strategyChoice.owned hentry
          have hep : e.content.entryPrefix = p := by
            have hnamed := h.strategyChoice.named he hptr
            exact Option.some.inj (hnamed.symm.trans hname)
          have hat : s.tables.strategyAt p = some e.content.strategy :=
            h.strategyAt_eq_some.mpr ⟨entry, e, he, by rw [hptr]; exact Option.some_ne_none nte, hep, rfl⟩
          have hold : strategyOf s.tables entry = some e.content.strategy := by rw [strategyOf, he, Option.map_some]
          obtain ⟨parentStrategy, hparent⟩ := Option.isSome_iff_exists.mp
            (h.effectiveStrategy_isSome (p.getPrefix (p.length - 1)))
          obtain ⟨s₁, hs₁, htables, hitems⟩ := changeStrategy_spec h he hptr e.content.strategy parentStrategy
          have hdetach := strategyAt_detach h he hptr (h.detach .strategyChoice (fun _ hroot => hne ?_) (hok nte hfind))
          · rw [hep] at hdetach hitems
            dsimp only
            rw [hold, Option.bind_some, hfinds.trans hparent, Option.bind_some, hs₁, Option.map_some, htables]
            refine ⟨_, rfl, resets_of_change (longest_of_some hat) hdetach ?_ hitems⟩
            rw [Tables.effectiveStrategy, hdetach, longest_update_none _ hne, List.dropLast_eq_take]
            exact hparent
          · rw [hname] at hroot
            exact Option.some.inj hroot

/-- In every run whose resizes find the right buckets, an insertion or erasure that does as well and asks for the right
effective strategy resets what it changes. -/
theorem strategy_change_resets {nBuckets : Nat} (hpos : 0 < nBuckets) (defaultStrategy : Name)
    (hr : Reach (StrategyTables.step cityHash) (StrategyTables.HarmlessStep cityHash)
      (StrategyTables.new cityHash nBuckets defaultStrategy) s) :
    (∀ p strategyName, s.tables.HarmlessStep cityHash (.strategyInsert p strategyName) →
      (s.tables.withTree (s.tables.nameTree.lookup cityHash p).1).FindsEffective cityHash p →
      ∃ s' installed, insertStrategy cityHash s p strategyName = some (s', installed) ∧ Resets s s') ∧
    ∀ p : Name, p ≠ [] → s.tables.HarmlessStep cityHash (.strategyErase p) →
      s.tables.FindsEffective cityHash (p.getPrefix (p.length - 1)) →
      ∃ s', eraseStrategy cityHash s p = some s' ∧ Resets s s' := by
  have h := StrategyTables.joint_of_reach hpos defaultStrategy hr
  exact ⟨fun p strategyName hok hfinds => insertStrategy_resets h hok hfinds strategyName,
    fun p hne hok hfinds => eraseStrategy_resets h hne hok hfinds⟩

instance (s : Tables) (n : Name) : Decidable (s.FindsEffective cityHash n) :=
  inferInstanceAs (Decidable (_ = _))

/-- A second strategy is installed, and there is a PIT entry for `/A` with an item. -/
def itemOnPitEntry : List (StrategyTables.Op Unit) :=
  [.table (.strategyInstall [.ofByte 84]), .table (.pitInsert (plainInterest [.ofByte 65])),
    .setStrategyInfo (.pitEntry 0) 1000 (some ())]

/-- Choosing the second strategy for `/A`, in tables of 1024 buckets. -/
theorem strategy_change_resets_item : ∃ s s' : StrategyTables Unit, ∃ installed,
    s.items (.pitEntry 0) 1000 = some () ∧
      insertStrategy CityHash.ofShort s [.ofByte 65] [.ofByte 84] = some (s', installed) ∧ Resets s s' := by
  have hinstall : Reach (StrategyTables.step CityHash.ofShort) (StrategyTables.HarmlessStep CityHash.ofShort)
      (StrategyTables.new CityHash.ofShort 1024 [.ofByte 83] : StrategyTables Unit) _ :=
    .next (.table (.strategyInstall [.ofByte 84])) .start trivial rfl
  have hpit := hinstall.next (StrategyTables.Op.table (.pitInsert (plainInterest [.ofByte 65])))
    (NameTree.harmless_lookup_of_two_pow (k := 10) rfl (by decide +kernel)) rfl
  have hitem := hpit.next (StrategyTables.Op.setStrategyInfo (.pitEntry 0) 1000 (some ())) trivial rfl
  obtain ⟨s', installed, hinsert, hresets⟩ := (strategy_change_resets (by decide) [.ofByte 83] hitem).1
    [.ofByte 65] [.ofByte 84] (NameTree.harmless_lookup_of_two_pow (k := 10) rfl (by decide +kernel))
    (by decide +kernel)
  exact ⟨_, s', installed, rfl, hinsert, hresets⟩

/-- On three buckets the PIT entry is at a name tree entry that an enlargement has put into a wrong bucket, and the
second strategy is chosen at another name tree entry of the same name. -/
theorem item_survives_strategy_change : ∃ s s' : StrategyTables Unit, ∃ installed,
    Reach (StrategyTables.step CityHash.ofShort) anyStep (StrategyTables.new CityHash.ofShort 3 [.ofByte 83]) s ∧
      (s.tables.withTree (s.tables.nameTree.lookup CityHash.ofShort [.ofByte 65]).1).FindsEffective CityHash.ofShort
        [.ofByte 65] ∧
      insertStrategy CityHash.ofShort s [.ofByte 65] [.ofByte 84] = some (s', installed) ∧ ¬ Resets s s' := by
  have hrun : ((exec (StrategyTables.step CityHash.ofShort) (StrategyTables.new CityHash.ofShort 3 [.ofByte 83])
      itemOnPitEntry).any fun s =>
        decide ((s.tables.withTree (s.tables.nameTree.lookup CityHash.ofShort [.ofByte 65]).1).FindsEffective
          CityHash.ofShort [.ofByte 65]) &&
        decide (s.tables.nameOfHost (.pitEntry 0) = some [.ofByte 65]) &&
        (insertStrategy CityHash.ofShort s [.ofByte 65] [.ofByte 84]).any fun result =>
          decide (result.1.tables.effectiveStrategy [.ofByte 65] ≠ s.tables.effectiveStrategy [.ofByte 65]) &&
            decide (result.1.items (.pitEntry 0) 1000 = some ())) = true := by
    decide +kernel
  obtain ⟨s, hs, hfound⟩ := (Option.any_eq_true _ _).mp hrun
  obtain ⟨hboth, hinsert⟩ := Bool.and_eq_true_iff.mp hfound
  obtain ⟨hfinds, hhost⟩ := Bool.and_eq_true_iff.mp hboth
  obtain ⟨⟨s', installed⟩, hinsert, hleft⟩ := (Option.any_eq_true _ _).mp hinsert
  obtain ⟨hchanged, hitem⟩ := Bool.and_eq_true_iff.mp hleft
  refine ⟨s, s', installed, reach_of_exec .start hs, of_decide_eq_true hfinds, hinsert, fun hresets => ?_⟩
  have hcleared := (hresets _ _ (of_decide_eq_true hhost)).1 (of_decide_eq_true hchanged)
  have hnone := (congrFun hcleared 1000).symm.trans (of_decide_eq_true hitem)
  cases hnone

end StrategyChoice
end NfdPitless
