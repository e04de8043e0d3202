import NfdPitless.StrategyForwarder
import NfdPitless.StrategyChange

/-! Choosing another strategy for a prefix destroys the `StrategyInfo` of the PIT entries that have another effective
strategy afterwards, and of no other. This is what the walk over the name tree does as well. -/

namespace NfdPitless

open LongestPrefix StrategyState

variable {κ I : Type} {s s' : StrategyState κ} {x : Ref} {e : PitEntry}

namespace StrategyState

theorem info_clearStrategyInfo (s : StrategyState κ) (r x : Ref) :
    (s.clearStrategyInfo r).info x = if x = r then .empty else s.info x := by
  rw [clearStrategyInfo, info_setInfo, info_cancel, info_cancel, info_cancel]

theorem clearAll_spec (rs : List Ref) (s : StrategyState κ) :
    (rs.foldl clearStrategyInfo s).base = s.base ∧ (rs.foldl clearStrategyInfo s).strategyChoice = s.strategyChoice ∧
      ∀ x, (rs.foldl clearStrategyInfo s).info x = if x ∈ rs then .empty else s.info x := by
  induction rs generalizing s with
  | nil => exact ⟨rfl, rfl, fun x => (if_neg List.not_mem_nil).symm⟩
  | cons r rs ih =>
      obtain ⟨hbase, hchoice, hinfo⟩ := ih (s.clearStrategyInfo r)
      refine ⟨hbase, hchoice, fun x => ?_⟩
      rw [List.foldl_cons, hinfo, info_clearStrategyInfo]
      by_cases hx : x ∈ rs
      · rw [if_pos hx, if_pos (List.mem_cons_of_mem r hx)]
      · rw [if_neg hx]
        by_cases hxr : x = r
        · rw [if_pos hxr, if_pos (hxr ▸ List.mem_cons_self)]
        · rw [if_neg hxr, if_neg fun hmem => (List.mem_cons.mp hmem).elim hxr hx]

end StrategyState

namespace StrategyChoice

variable {entryPrefix : Name} {entry : Option Strategy} {oldStrategy newStrategy : Strategy}

theorem clearCovered_spec (hl : s.base.pit.Linked) (entryPrefix : Name) :
    (clearCovered s entryPrefix).base = s.base ∧ (clearCovered s entryPrefix).strategyChoice = s.strategyChoice ∧
      ∀ x e, s.entry x = some e → (clearCovered s entryPrefix).info x =
        if Covers s.strategyChoice entryPrefix e.getName then .empty else s.info x := by
  obtain ⟨hbase, hchoice, hinfo⟩ := clearAll_spec ((List.range s.base.pit.nextRef).filter fun r =>
    (s.entry r).any fun e => decide (Covers s.strategyChoice entryPrefix e.getName)) s
  refine ⟨hbase, hchoice, fun x e he => (hinfo x).trans (if_congr ?_ rfl rfl)⟩
  rw [List.mem_filter, List.mem_range, he, Option.any_some, decide_eq_true_iff]
  exact and_iff_right (hl.fresh he)

/-- A PIT entry has another effective strategy exactly if the two strategies differ and the prefix covers its name. -/
theorem effective_ne_iff (hold : s.effectiveStrategy entryPrefix = some oldStrategy)
    (hnew : longest (Function.update s.strategyChoice entryPrefix entry) entryPrefix = some newStrategy) (n : Name) :
    longest (Function.update s.strategyChoice entryPrefix entry) n ≠ s.effectiveStrategy n ↔
      newStrategy ≠ oldStrategy ∧ Covers s.strategyChoice entryPrefix n := by
  rw [effectiveStrategy] at hold
  rw [effectiveStrategy, longest_update_ne_iff, hnew, hold, Ne, Option.some_inj]

/-- What has another effective strategy afterwards has no items, and nothing else is touched. -/
theorem setEntry_info (hl : s.base.pit.Linked) (hold : s.effectiveStrategy entryPrefix = some oldStrategy)
    (hnew : longest (Function.update s.strategyChoice entryPrefix entry) entryPrefix = some newStrategy)
    (he : s.entry x = some e) :
    (setEntry (changeEffective s entryPrefix oldStrategy newStrategy) entryPrefix entry).info x =
      if longest (Function.update s.strategyChoice entryPrefix entry) e.getName ≠ s.effectiveStrategy e.getName then
        .empty
      else s.info x := by
  have hiff := effective_ne_iff hold hnew e.getName
  rw [setEntry, changeEffective]
  split
  · rename_i hsame
    rw [if_neg fun hne => (hiff.mp hne).1 hsame.symm]
  · rename_i hdiffer
    rw [(clearCovered_spec hl entryPrefix).2.2 x e he]
    refine if_congr (hiff.trans (and_iff_right (Ne.symm hdiffer))).symm rfl rfl

theorem changeEffective_spec (s : StrategyState κ) (entryPrefix : Name) (oldStrategy newStrategy : Strategy) :
    (changeEffective s entryPrefix oldStrategy newStrategy).base = s.base ∧
      (changeEffective s entryPrefix oldStrategy newStrategy).strategyChoice = s.strategyChoice := by
  rw [changeEffective]
  split
  · exact ⟨rfl, rfl⟩
  · exact ⟨(clearAll_spec _ s).1, (clearAll_spec _ s).2.1⟩

/-- From `s` to `s'` the entry of one prefix was made, changed or erased, or nothing was. -/
inductive Chosen (s s' : StrategyState κ) : Prop where
  | same : s' = s → Chosen s s'
  | changed (entryPrefix : Name) (entry : Option Strategy) (oldStrategy newStrategy : Strategy) :
      s.effectiveStrategy entryPrefix = some oldStrategy →
      longest (Function.update s.strategyChoice entryPrefix entry) entryPrefix = some newStrategy →
      s' = setEntry (changeEffective s entryPrefix oldStrategy newStrategy) entryPrefix entry → Chosen s s'

/-- The strategy that `StrategyChoice::insert` replaces is the effective one. -/
theorem effective_of_replaced (h : (s.strategyChoice entryPrefix).or (s.effectiveStrategy entryPrefix) =
    some oldStrategy) :
    s.effectiveStrategy entryPrefix = some oldStrategy := by
  cases hentry : s.strategyChoice entryPrefix with
  | none =>
      rw [hentry, Option.none_or] at h
      exact h
  | some current =>
      rw [hentry, Option.some_or] at h
      rw [← h]
      exact longest_of_some hentry

/-- Where an entry is erased, that of the parent takes over. -/
theorem effective_of_erased (s : StrategyState κ) (hlength : entryPrefix.length ≠ 0) :
    longest (Function.update s.strategyChoice entryPrefix none) entryPrefix =
      s.effectiveStrategy (entryPrefix.getPrefix (entryPrefix.length - 1)) := by
  rw [longest_update_none _ (fun hnil => hlength (by rw [hnil, List.length_nil])), List.dropLast_eq_take]
  rfl

theorem choose_cases (s : StrategyState κ) (entryPrefix : Name) (strategy : Strategy) :
    choose s entryPrefix strategy = .error .nameTreeEntry ∨ ∃ s', choose s entryPrefix strategy = .ok s' ∧
      Chosen s s' := by
  rw [choose]
  cases hfound : (s.strategyChoice entryPrefix).or (s.effectiveStrategy entryPrefix) with
  | none => exact Or.inl rfl
  | some oldStrategy =>
      exact Or.inr ⟨_, rfl, .changed entryPrefix (some strategy) oldStrategy strategy
        (effective_of_replaced hfound) (longest_of_some (Function.update_self _ _ _)) rfl⟩

theorem unchoose_cases (s : StrategyState κ) (entryPrefix : Name) :
    unchoose s entryPrefix = .error .erasedPrefix ∨ unchoose s entryPrefix = .error .nameTreeEntry ∨
      ∃ s', unchoose s entryPrefix = .ok s' ∧ Chosen s s' := by
  rw [unchoose]
  split
  · exact Or.inl rfl
  · rename_i hlength
    cases hentry : s.strategyChoice entryPrefix with
    | none => exact Or.inr (Or.inr ⟨s, rfl, .same rfl⟩)
    | some oldStrategy =>
        dsimp only
        cases hparent : s.effectiveStrategy (entryPrefix.getPrefix (entryPrefix.length - 1)) with
        | none => exact Or.inr (Or.inl rfl)
        | some parentStrategy =>
            exact Or.inr (Or.inr ⟨_, rfl, .changed entryPrefix none oldStrategy parentStrategy
              (longest_of_some hentry) ((effective_of_erased s hlength).trans hparent) rfl⟩)

theorem Chosen.info (hl : s.base.pit.Linked) (hchosen : Chosen s s') (he : s.entry x = some e) :
    s'.info x = if s'.effectiveStrategy e.getName ≠ s.effectiveStrategy e.getName then .empty else s.info x := by
  cases hchosen with
  | same heq =>
      rw [heq]
      exact (if_neg fun hne => hne rfl).symm
  | changed entryPrefix entry oldStrategy newStrategy hold hnew heq =>
      have heff : s'.effectiveStrategy e.getName =
          longest (Function.update s.strategyChoice entryPrefix entry) e.getName := by
        rw [heq, effectiveStrategy, setEntry, (changeEffective_spec s entryPrefix oldStrategy newStrategy).2]
      rw [heff, heq]
      exact setEntry_info hl hold hnew he

/-- Where the tables and the forwarder have the same PIT entries and the same effective strategies, before and after,
the walk over the name tree destroys the items of the same PIT entries. -/
theorem Chosen.agrees {t t' : StrategyTables I} {nameOf : Strategy → Name} (hinj : Function.Injective nameOf)
    (hl : s.base.pit.Linked) (hchosen : Chosen s s') (hresets : Resets t t')
    (hpit : t.tables.pit.entries = s.base.pit.entries)
    (hbefore : ∀ n, t.tables.effectiveStrategy n = (s.effectiveStrategy n).map nameOf)
    (hafter : ∀ n, t'.tables.effectiveStrategy n = (s'.effectiveStrategy n).map nameOf) (he : s.entry x = some e) :
    (s'.info x = .empty ∧ t'.items (.pitEntry x) = fun _ => none) ∨
      (s'.info x = s.info x ∧ t'.items (.pitEntry x) = t.items (.pitEntry x)) := by
  have hname : t.tables.nameOfHost (.pitEntry x) = some e.getName := by
    rw [Tables.nameOfHost, hpit, ← StrategyState.entry, he, Option.map_some]
  obtain ⟨hcleared, hkept⟩ := hresets _ _ hname
  rw [hbefore, hafter] at hcleared hkept
  have hinfo := hchosen.info hl he
  by_cases hsame : s'.effectiveStrategy e.getName = s.effectiveStrategy e.getName
  · rw [if_neg (not_not_intro hsame)] at hinfo
    exact Or.inr ⟨hinfo, hkept (by rw [hsame])⟩
  · rw [if_pos hsame] at hinfo
    exact Or.inl ⟨hinfo, hcleared fun heq => hsame (Option.map_injective hinj heq)⟩

end StrategyChoice
end NfdPitless
