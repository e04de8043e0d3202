import NfdPitless.StrategyDispatch
import NfdPitless.CsRightmost

/-! Which strategy a name stands for (`StrategyChoice::getStrategy`). The loop goes over the names that are not smaller,
while the name is a prefix of them, and keeps the last that is one component longer. Between two of these there can be
any number of longer names. -/

namespace NfdPitless

theorem Name.longer_of_eq {n x : Name} {c : Component} (h : x = n ++ [c]) : n ++ [c] <+: x := h ▸ List.prefix_refl x

namespace StrategyChoiceTable

variable {T : StrategyChoiceTable} {strategyName : Name} {candidate strategy : Option StrategyInstance}
  {a : StrategyInstance} {instances : List StrategyInstance}

/-- The loop, from the instances that are left and the candidate of before. -/
def getStrategyFrom (strategyName : Name) : Option StrategyInstance → List StrategyInstance → Option StrategyInstance
  | candidate, [] => candidate
  | candidate, it :: rest =>
      if Name.isPrefixOf strategyName it.name then
        match it.name.length - strategyName.length with
        | 0 => some it
        | 1 => getStrategyFrom strategyName (some it) rest
        | _ => getStrategyFrom strategyName candidate rest
      else candidate

/-- A name stands for the strategy of exactly this name, else for the one with the greatest component among those that
are one component longer. -/
def Resolves (instances : List StrategyInstance) (strategyName : Name) : Option StrategyInstance → Prop
  | some strategy =>
      strategy ∈ instances ∧
        (strategy.name = strategyName ∨
          (∀ a ∈ instances, a.name ≠ strategyName) ∧
            ∃ c, strategy.name = strategyName ++ [c] ∧ ∀ a ∈ instances, ∀ c', a.name = strategyName ++ [c'] → c' ≤ c)
  | none => ∀ a ∈ instances, a.name ≠ strategyName ∧ ∀ c, a.name ≠ strategyName ++ [c]

theorem getStrategyFrom_self (rest : List StrategyInstance) :
    getStrategyFrom a.name candidate (a :: rest) = some a := by
  have hself : Name.isPrefixOf a.name a.name = true := Name.isPrefixOf_iff.mpr (List.prefix_refl _)
  simp [getStrategyFrom, hself]

theorem getStrategyFrom_longer {c : Component} (h : a.name = strategyName ++ [c]) (rest : List StrategyInstance) :
    getStrategyFrom strategyName candidate (a :: rest) = getStrategyFrom strategyName (some a) rest := by
  have hunder : Name.isPrefixOf strategyName a.name = true :=
    Name.isPrefixOf_iff.mpr (h ▸ List.prefix_append strategyName [c])
  rw [getStrategyFrom, if_pos hunder, h]
  simp

/-- A name under the one looked for is passed over if it is neither this nor one component longer. -/
theorem getStrategyFrom_deeper (h : strategyName <+: a.name) (hne : a.name ≠ strategyName)
    (hlonger : ∀ c, a.name ≠ strategyName ++ [c]) (rest : List StrategyInstance) :
    getStrategyFrom strategyName candidate (a :: rest) = getStrategyFrom strategyName candidate rest := by
  obtain ⟨t, ht⟩ := h
  have hlength : a.name.length - strategyName.length = t.length := by simp [← ht]
  rw [getStrategyFrom, if_pos (Name.isPrefixOf_iff.mpr ⟨t, ht⟩), hlength]
  match t, ht with
  | [], ht => exact absurd (ht.symm.trans (List.append_nil _)) hne
  | [c], ht => exact absurd ht.symm (hlonger c)
  | _ :: _ :: _, _ => rfl

theorem getStrategyFrom_past (h : ¬ strategyName <+: a.name) (rest : List StrategyInstance) :
    getStrategyFrom strategyName candidate (a :: rest) = candidate := by
  rw [getStrategyFrom, if_neg (fun hunder => h (Name.isPrefixOf_iff.mp hunder))]

/-- No name after one that is past the range is in the range. -/
theorem not_under_of_past (hle : strategyName ≤ a.name) (h : ¬ strategyName <+: a.name) {n : Name} (hlt : a.name < n) :
    ¬ strategyName <+: n := fun hunder => by
  have hne : strategyName ≠ a.name := fun heq => h (heq ▸ List.prefix_refl _)
  exact h (Name.prefix_of_between hunder (lt_of_le_of_ne hle hne) hlt)

/-- A loop that meets nothing leaves the candidate; otherwise what it met decides. The induction is on the instances
that are left, which come in ascending order, so that each candidate has a greater component than the one before. -/
theorem getStrategyFrom_spec (candidate : Option StrategyInstance)
    (hsorted : instances.Pairwise fun a b => a.name < b.name)
    (hle : ∀ a ∈ instances, strategyName ≤ a.name) :
    (Resolves instances strategyName none ∧ getStrategyFrom strategyName candidate instances = candidate) ∨
      ∃ strategy, getStrategyFrom strategyName candidate instances = some strategy ∧
        Resolves instances strategyName (some strategy) := by
  induction instances generalizing candidate with
  | nil => exact Or.inl ⟨fun _ h => absurd h List.not_mem_nil, rfl⟩
  | cons a rest ih =>
      obtain ⟨hlt, hrest⟩ := List.pairwise_cons.mp hsorted
      have hnot : ∀ b ∈ rest, b.name ≠ strategyName := fun b hb heq =>
        absurd (heq ▸ hlt b hb) (not_lt.mpr (hle a List.mem_cons_self))
      have ih := fun candidate => ih candidate hrest fun b hb => hle b (List.mem_cons_of_mem a hb)
      by_cases hself : a.name = strategyName
      · subst hself
        exact Or.inr ⟨a, getStrategyFrom_self rest, List.mem_cons_self, Or.inl rfl⟩
      by_cases hunder : strategyName <+: a.name
      swap
      · refine Or.inl ⟨fun b hb => ?_, getStrategyFrom_past hunder rest⟩
        have hpast : ¬ strategyName <+: b.name := by
          rcases List.mem_cons.mp hb with rfl | hb
          · exact hunder
          · exact not_under_of_past (hle a List.mem_cons_self) hunder (hlt b hb)
        exact ⟨fun heq => hpast (heq ▸ List.prefix_refl _), fun c heq => hpast (heq ▸ List.prefix_append _ _)⟩
      have hnone : ∀ b ∈ a :: rest, b.name ≠ strategyName := List.forall_mem_cons.mpr ⟨hself, hnot⟩
      by_cases hlonger : ∃ c, a.name = strategyName ++ [c]
      · obtain ⟨c, hc⟩ := hlonger
        rw [getStrategyFrom_longer hc]
        rcases ih (some a) with ⟨hkeep, heq⟩ | ⟨strategy, heq, hmem, hstrategy⟩
        · -- the candidate is the last of its length
          refine Or.inr ⟨a, heq, List.mem_cons_self, Or.inr ⟨hnone, c, hc, ?_⟩⟩
          refine List.forall_mem_cons.mpr ⟨fun c' hc' => ?_, fun b hb c' hc' => absurd hc' ((hkeep b hb).2 c')⟩
          exact (List.cons.inj (List.append_cancel_left (hc'.symm.trans hc))).1.le
        · obtain ⟨-, c₁, hc₁, hgreatest⟩ := hstrategy.resolve_left (hnot strategy hmem)
          refine Or.inr ⟨strategy, heq, List.mem_cons_of_mem a hmem, Or.inr ⟨hnone, c₁, hc₁, ?_⟩⟩
          refine List.forall_mem_cons.mpr ⟨fun c' hc' => ?_, hgreatest⟩
          exact Name.longer_le_of_le (Name.longer_of_eq hc') (Name.longer_of_eq hc₁) (hlt strategy hmem).le
      · have hdeeper : ∀ c', a.name ≠ strategyName ++ [c'] := fun c' hc' => hlonger ⟨c', hc'⟩
        rw [getStrategyFrom_deeper hunder hself hdeeper]
        rcases ih candidate with ⟨hkeep, heq⟩ | ⟨strategy, heq, hmem, hstrategy⟩
        · exact Or.inl ⟨List.forall_mem_cons.mpr ⟨⟨hself, hdeeper⟩, hkeep⟩, heq⟩
        · obtain ⟨-, c₁, hc₁, hgreatest⟩ := hstrategy.resolve_left (hnot strategy hmem)
          refine Or.inr ⟨strategy, heq, List.mem_cons_of_mem a hmem, Or.inr ⟨hnone, c₁, hc₁, ?_⟩⟩
          exact List.forall_mem_cons.mpr ⟨fun c' hc' => absurd hc' (hdeeper c'), hgreatest⟩

/-- The loop returns the first exact match in the range, else the last that is one component longer. -/
theorem getStrategyFrom_eq (strategyName : Name) (candidate : Option StrategyInstance)
    (instances : List StrategyInstance) :
    let range := instances.takeWhile fun strategy => Name.isPrefixOf strategyName strategy.name
    getStrategyFrom strategyName candidate instances =
      (range.find? fun strategy => strategy.name == strategyName).or
        ((range.filter fun strategy => strategy.name.length == strategyName.length + 1).getLast?.or candidate) := by
  dsimp only
  induction instances generalizing candidate with
  | nil => simp [getStrategyFrom]
  | cons a rest ih =>
      by_cases hunder : strategyName <+: a.name
      swap
      · rw [getStrategyFrom_past hunder, List.takeWhile_cons_of_neg (by simpa using hunder)]
        rfl
      rw [List.takeWhile_cons_of_pos (p := fun strategy : StrategyInstance =>
        Name.isPrefixOf strategyName strategy.name) (Name.isPrefixOf_iff.mpr hunder)]
      by_cases hself : a.name = strategyName
      · subst hself
        rw [getStrategyFrom_self, List.find?_cons_of_pos (by simp)]
        rfl
      rw [List.find?_cons_of_neg (by simpa using hself)]
      by_cases hlonger : ∃ c, a.name = strategyName ++ [c]
      · obtain ⟨c, hc⟩ := hlonger
        rw [getStrategyFrom_longer hc, ih, List.filter_cons_of_pos (by simp [hc]), List.getLast?_cons, Option.or_some]
        rfl
      · have hlength : a.name.length ≠ strategyName.length + 1 := fun hlength => by
          obtain ⟨t, ht⟩ := hunder
          have hone : t.length = 1 := by simpa [← ht] using hlength
          obtain ⟨c, rfl⟩ := List.length_eq_one_iff.mp hone
          exact hlonger ⟨c, ht.symm⟩
        rw [getStrategyFrom_deeper hunder hself fun c hc => hlonger ⟨c, hc⟩, ih,
          List.filter_cons_of_neg (by simpa using hlength)]

/-- `getStrategy` is the loop from the lower bound. -/
theorem getStrategy_eq_from (T : StrategyChoiceTable) (strategyName : Name) :
    T.getStrategy strategyName = getStrategyFrom strategyName none
      (T.strategyInstances.dropWhile fun strategy => decide (strategy.name < strategyName)) := by
  rw [getStrategy]
  generalize T.strategyInstances.dropWhile (fun strategy => decide (strategy.name < strategyName)) = instances
  have hfrom := getStrategyFrom_eq strategyName none instances
  rw [hfrom, Option.or_none]
  split
  · rename_i strategy hfind
    rw [hfind, Option.some_or]
  · rename_i hfind
    rw [hfind, Option.none_or]

/-- The instances before the lower bound are of no matter. -/
theorem Resolves.of_not_less {later : List StrategyInstance}
    (hmem : ∀ a, a ∈ later ↔ a ∈ instances ∧ strategyName ≤ a.name) (h : Resolves later strategyName strategy) :
    Resolves instances strategyName strategy := by
  have hself : ∀ a ∈ instances, a.name = strategyName → a ∈ later := fun a ha heq => (hmem a).mpr ⟨ha, heq.ge⟩
  have hlonger : ∀ a ∈ instances, ∀ c, a.name = strategyName ++ [c] → a ∈ later := fun a ha c hc =>
    (hmem a).mpr ⟨ha, (Name.lt_of_longer (Name.longer_of_eq hc)).le⟩
  cases strategy with
  | none => exact fun a ha => ⟨fun heq => (h a (hself a ha heq)).1 heq, fun c hc => (h a (hlonger a ha c hc)).2 c hc⟩
  | some strategy =>
      obtain ⟨hstrategy, hname⟩ := h
      refine ⟨((hmem strategy).mp hstrategy).1, hname.imp_right ?_⟩
      rintro ⟨hnone, c, hc, hgreatest⟩
      exact ⟨fun a ha heq => hnone a (hself a ha heq) heq, c, hc, fun a ha c' hc' =>
        hgreatest a (hlonger a ha c' hc') c' hc'⟩

/-- In a map that is in the order of the names, every name is looked up as the strategy it stands for. -/
theorem getStrategy_resolves (hsorted : T.strategyInstances.Pairwise fun a b => a.name < b.name) (strategyName : Name) :
    Resolves T.strategyInstances strategyName (T.getStrategy strategyName) := by
  rw [getStrategy_eq_from]
  have hmem : ∀ a, a ∈ T.strategyInstances.dropWhile (fun strategy => decide (strategy.name < strategyName)) ↔
      a ∈ T.strategyInstances ∧ strategyName ≤ a.name := fun a =>
    (Lists.Splits.of_sorted hsorted strategyName).mem_dropWhile_iff.trans
      (and_congr_right fun _ => decide_eq_false_iff_not.trans not_lt)
  refine Resolves.of_not_less hmem ?_
  have hlater := hsorted.sublist (List.dropWhile_suffix fun strategy => decide (strategy.name < strategyName)).sublist
  rcases getStrategyFrom_spec none hlater fun a ha => ((hmem a).mp ha).2 with
    ⟨hnone, heq⟩ | ⟨strategy, heq, hsome⟩
  · rw [heq]
    exact hnone
  · rw [heq]
    exact hsome

/-- `/A/1`, `/A/1/2/3` and `/A/2`, of the octets 1, 2 and 3, then the names around them. -/
def installedInBetween : StrategyChoiceTable :=
  [[.ofByte 1, .ofByte 2], [.ofByte 65, .ofByte 1], [.ofByte 65, .ofByte 2],
    [.ofByte 65, .ofByte 1, .ofByte 2, .ofByte 3], [.ofByte 66]].foldl install empty

/-- The names under `/A/1` come between it and `/A/2`, for which `/A` stands. -/
theorem getStrategy_resolves_in_between :
    (installedInBetween.getStrategy [.ofByte 65] = some ⟨[.ofByte 65, .ofByte 2], 2⟩) ∧
      Resolves installedInBetween.strategyInstances [.ofByte 65] (installedInBetween.getStrategy [.ofByte 65]) :=
  ⟨by decide +kernel, getStrategy_resolves (by decide +kernel) _⟩

end StrategyChoiceTable

end NfdPitless
