import NfdPitless.CommandValidator
import NfdPitless.OrderedMap
import NfdPitless.LruPolicy
import NfdPitless.PriorityFifoPolicy
import NfdPitless.StrategyResolution

/-! The tables section of the configuration file (`daemon/mgmt/tables-config-section.cpp`). The strategy choices are all
checked before the first is made; the limit of the content store is only checked by the policy, when it is set. -/

namespace NfdPitless

/-- What is used of libraries: a name from its URI (`none` when it throws), its URI, and a `size_t` from a value. -/
structure ConfigText where
  parseName : String → Option Name
  toUri : Name → String
  getSizeT : String → Option Nat

/-- How a call ends that does not return: by `ConfigFile::Error`, by an error of a name, or by a failed assertion. -/
inductive TablesFault where
  | configError (message : String)
  | nameError
  | assertion
  deriving DecidableEq

/-- What a section configures. -/
structure TablesConfigSection (ρ : Type) where
  strategyChoice : StrategyChoiceTable
  cs : CsRun ρ
  areTablesConfigured : Bool

namespace TablesConfigSection

def defaultCsMaxPackets : Nat := 65536

variable {ρ : Type} (text : ConfigText) (digest : Data → List UInt8) (P : ReplacementPolicy ρ)

/-- `Cs::setLimit`; `none` where an assertion fails. -/
def setLimit (cs : CsRun ρ) (nMaxPackets : Nat) : Option (CsRun ρ) :=
  (P.setLimit cs.policy nMaxPackets cs.table).map fun after =>
    { cs with table := Cs.without digest after.2 cs.table, policy := after.1 }

/-- One round of the loop that checks the choices. -/
def addChoice (T : StrategyChoiceTable) (choices : OrderedMap Name Name) (prefixAndStrategy : String × ConfigSection) :
    Except TablesFault (OrderedMap Name Name) :=
  match text.parseName prefixAndStrategy.1 with
  | none => .error .nameError
  | some entryPrefix =>
      if (choices.find? entryPrefix).isSome then
        .error (.configError ("Duplicate strategy choice for prefix \"" ++ text.toUri entryPrefix ++
          "\" in \"strategy_choice\" section"))
      else
        let strategyString := prefixAndStrategy.2.value
        if strategyString = "" then
          .error (.configError ("Invalid strategy choice \"\" for prefix \"" ++ text.toUri entryPrefix ++
            "\" in \"strategy_choice\" section"))
        else
          match text.parseName strategyString with
          | none => .error .nameError
          | some strategyName =>
              if (T.getStrategy strategyName).isSome then .ok (choices.set entryPrefix strategyName)
              else
                .error (.configError ("Invalid strategy choice \"" ++ text.toUri strategyName ++ "\" for prefix \"" ++
                  text.toUri entryPrefix ++ "\" in \"strategy_choice\" section"))

/-- The loop that makes the choices, with what there is of them when it ends. -/
def insertChoices (isDryRun : Bool) : List (Name × Name) → StrategyChoiceTable →
    Option TablesFault × StrategyChoiceTable
  | [], T => (none, T)
  | prefixAndStrategy :: rest, T =>
      if isDryRun then insertChoices isDryRun rest T
      else
        match T.insert prefixAndStrategy.1 prefixAndStrategy.2 with
        | none => (some .assertion, T)
        | some (T, true) => insertChoices isDryRun rest T
        | some (T, false) =>
            (some (.configError ("Failed to set strategy \"" ++ text.toUri prefixAndStrategy.2 ++ "\" for prefix \"" ++
              text.toUri prefixAndStrategy.1 ++ "\" in \"strategy_choicev\"")), T)

def processSectionStrategyChoice (T : StrategyChoiceTable) (configSection : ConfigSection) (isDryRun : Bool) :
    Option TablesFault × StrategyChoiceTable :=
  match configSection.children.foldlM (addChoice text T) .empty with
  | .error fault => (some fault, T)
  | .ok choices => insertChoices text isDryRun choices.entries T

/-- The number of packets that a section sets; `none` when the value is invalid. -/
def csMaxPackets (configSection : ConfigSection) : Option Nat :=
  match configSection.getChild "cs_max_packets" with
  | none => some defaultCsMaxPackets
  | some csMaxPacketsNode => text.getSizeT csMaxPacketsNode.value

/-- How the call ends if it does not return, and the tables after it. -/
def onConfig (s : TablesConfigSection ρ) (configSection : ConfigSection) (isDryRun : Bool) :
    Option TablesFault × TablesConfigSection ρ :=
  match csMaxPackets text configSection with
  | none => (some (.configError "Invalid value for option \"cs_max_packets\" in \"tables\" section"), s)
  | some nCsMaxPackets =>
      let processed :=
        match configSection.getChild "strategy_choice" with
        | none => (none, s.strategyChoice)
        | some strategyChoiceSection =>
            processSectionStrategyChoice text s.strategyChoice strategyChoiceSection isDryRun
      let s := { s with strategyChoice := processed.2 }
      match processed.1 with
      | some fault => (some fault, s)
      | none =>
          if isDryRun then (none, s)
          else
            match setLimit digest P s.cs nCsMaxPackets with
            | none => (some .assertion, s)
            | some cs => (none, { s with cs, areTablesConfigured := true })

/-- The strategy choices of a section. -/
def listedChoices (configSection : ConfigSection) : List (String × ConfigSection) :=
  (configSection.getChild "strategy_choice").elim [] ConfigSection.children

/-- A choice for a new prefix of a strategy that is installed. -/
def Fine (T : StrategyChoiceTable) (before : List (String × ConfigSection)) (entry : String × ConfigSection) : Prop :=
  ∃ entryPrefix strategyName, text.parseName entry.1 = some entryPrefix ∧
    (∀ b ∈ before, text.parseName b.1 ≠ some entryPrefix) ∧ entry.2.value ≠ "" ∧
    text.parseName entry.2.value = some strategyName ∧ (T.getStrategy strategyName).isSome

/-- The prefix is not the URI of a name, or it is new and the strategy is not. -/
def Malformed (before : List (String × ConfigSection)) (entry : String × ConfigSection) : Prop :=
  text.parseName entry.1 = none ∨
    (∀ b ∈ before, text.parseName b.1 ≠ text.parseName entry.1) ∧ entry.2.value ≠ "" ∧
      text.parseName entry.2.value = none

/-- All choices can be made. -/
def ValidChoices (T : StrategyChoiceTable) (entries : List (String × ConfigSection)) : Prop :=
  ∀ before entry after, entries = before ++ entry :: after → Fine text T before entry

/-- The first choice that cannot be made is not made of names. -/
def MalformedFirst (T : StrategyChoiceTable) (entries : List (String × ConfigSection)) : Prop :=
  ∃ before entry after, entries = before ++ entry :: after ∧ ValidChoices text T before ∧ Malformed text before entry

/-- The choices are made, and the limit is set. -/
structure Applied (s s' : TablesConfigSection ρ) (configSection : ConfigSection) : Prop where
  installed : s'.strategyChoice.strategyInstances = s.strategyChoice.strategyInstances
  chosen : ∀ entry ∈ listedChoices configSection, ∃ entryPrefix strategyName strategy,
    text.parseName entry.1 = some entryPrefix ∧ text.parseName entry.2.value = some strategyName ∧
      s.strategyChoice.getStrategy strategyName = some strategy ∧
      (s'.strategyChoice.entries entryPrefix).map StrategyInstance.name = some strategy.name
  others : ∀ n, (∀ entry ∈ listedChoices configSection, text.parseName entry.1 ≠ some n) →
    s'.strategyChoice.entries n = s.strategyChoice.entries n
  limit : ∃ n, csMaxPackets text configSection = some n ∧ setLimit digest P s.cs n = some s'.cs
  configured : s'.areTablesConfigured = true

/-- A section is applied as a whole, or not at all and with `ConfigFile::Error`; a dry run tells which, and changes
nothing. -/
structure AllOrNothing (s : TablesConfigSection ρ) (configSection : ConfigSection) : Prop where
  failed : ∀ fault, (onConfig text digest P s configSection false).1 = some fault →
    (∃ message, fault = .configError message) ∧ (onConfig text digest P s configSection false).2 = s
  completed : (onConfig text digest P s configSection false).1 = none →
    Applied text digest P s (onConfig text digest P s configSection false).2 configSection
  dryRun_unchanged : (onConfig text digest P s configSection true).2 = s
  dryRun_iff : (∃ message, (onConfig text digest P s configSection true).1 = some (.configError message)) ↔
    ∃ message, (onConfig text digest P s configSection false).1 = some (.configError message)
  accepted : (onConfig text digest P s configSection true).1 = none →
    (onConfig text digest P s configSection false).1 ≠ some .assertion

/-- The root has a strategy, and the policy can set every limit but zero. -/
structure Operational (s : TablesConfigSection ρ) : Prop where
  root : (s.strategyChoice.entries []).isSome
  limit : ∀ n, (setLimit digest P s.cs n).isSome ↔ 0 < n

variable {text digest P} {T T' : StrategyChoiceTable} {entries before : List (String × ConfigSection)}
  {entry : String × ConfigSection} {choices : OrderedMap Name Name}

theorem append_eq_append_cons_iff {α : Type} {l before after : List α} {e x : α} :
    l ++ [e] = before ++ x :: after ↔
      (l = before ∧ e = x ∧ after = []) ∨ ∃ rest, after = rest ++ [e] ∧ l = before ++ x :: rest := by
  rcases List.eq_nil_or_concat after with rfl | ⟨rest, y, rfl⟩
  · constructor
    · intro h
      obtain ⟨hl, he⟩ := List.append_inj' h rfl
      exact Or.inl ⟨hl, (List.cons.inj he).1, rfl⟩
    · rintro (⟨rfl, rfl, -⟩ | ⟨rest, hrest, -⟩)
      · rfl
      · exact absurd hrest.symm (List.append_ne_nil_of_right_ne_nil rest (List.cons_ne_nil e []))
  · rw [List.concat_eq_append]
    constructor
    · intro h
      rw [← List.cons_append, ← List.append_assoc] at h
      obtain ⟨hl, he⟩ := List.append_inj' h rfl
      exact Or.inr ⟨rest, by rw [(List.cons.inj he).1], hl⟩
    · rintro (⟨-, -, hnil⟩ | ⟨rest', hrest, rfl⟩)
      · exact absurd hnil (List.append_ne_nil_of_right_ne_nil rest (List.cons_ne_nil y []))
      · rw [hrest, List.append_assoc, List.cons_append]

theorem validChoices_nil : ValidChoices text T [] := fun before x after heq =>
  absurd heq.symm (List.append_ne_nil_of_right_ne_nil before (List.cons_ne_nil x after))

theorem validChoices_concat_iff :
    ValidChoices text T (entries ++ [entry]) ↔ ValidChoices text T entries ∧ Fine text T entries entry := by
  constructor
  · refine fun h => ⟨fun before x after heq => h before x (after ++ [entry]) ?_, h entries entry [] rfl⟩
    rw [heq, List.append_assoc, List.cons_append]
  · rintro ⟨hvalid, hfine⟩ before x after heq
    rcases append_eq_append_cons_iff.mp heq with ⟨rfl, rfl, -⟩ | ⟨rest, -, heq⟩
    · exact hfine
    · exact hvalid before x rest heq

theorem malformedFirst_concat_iff :
    MalformedFirst text T (entries ++ [entry]) ↔
      MalformedFirst text T entries ∨ ValidChoices text T entries ∧ Malformed text entries entry := by
  constructor
  · rintro ⟨before, x, after, heq, hvalid, hmalformed⟩
    rcases append_eq_append_cons_iff.mp heq with ⟨rfl, rfl, -⟩ | ⟨rest, -, heq⟩
    · exact Or.inr ⟨hvalid, hmalformed⟩
    · exact Or.inl ⟨before, x, rest, heq, hvalid, hmalformed⟩
  · rintro (⟨before, x, after, rfl, hvalid, hmalformed⟩ | ⟨hvalid, hmalformed⟩)
    · exact ⟨before, x, after ++ [entry], by rw [List.append_assoc, List.cons_append], hvalid, hmalformed⟩
    · exact ⟨entries, entry, [], rfl, hvalid, hmalformed⟩

theorem Fine.not_malformed (h : Fine text T before entry) : ¬ Malformed text before entry := by
  obtain ⟨entryPrefix, strategyName, hname, -, -, hstrategy, -⟩ := h
  rintro (hnone | ⟨-, -, hnone⟩)
  · rw [hname] at hnone
    cases hnone
  · rw [hstrategy] at hnone
    cases hnone

theorem ValidChoices.not_malformedFirst (h : ValidChoices text T entries) : ¬ MalformedFirst text T entries := by
  rintro ⟨before, x, after, heq, -, hmalformed⟩
  exact (h before x after heq).not_malformed hmalformed

/-- The map has the choices of the entries. -/
def Represents (text : ConfigText) (entries : List (String × ConfigSection)) (choices : OrderedMap Name Name) : Prop :=
  ∀ e, e ∈ choices.entries ↔
    ∃ entry ∈ entries, text.parseName entry.1 = some e.1 ∧ text.parseName entry.2.value = some e.2

theorem ValidChoices.of_mem (h : ValidChoices text T entries) (hentry : entry ∈ entries) :
    ∃ before, Fine text T before entry := by
  obtain ⟨before, after, heq⟩ := List.append_of_mem hentry
  exact ⟨before, h before entry after heq⟩

/-- A prefix is in the map if it has been in the section. -/
theorem Represents.find?_isSome_iff (h : Represents text entries choices) (hvalid : ValidChoices text T entries)
    (n : Name) : (choices.find? n).isSome ↔ ∃ b ∈ entries, text.parseName b.1 = some n := by
  rw [OrderedMap.find?_isSome_iff]
  constructor
  · rintro ⟨e, he, rfl⟩
    obtain ⟨b, hb, hname, -⟩ := (h e).mp he
    exact ⟨b, hb, hname⟩
  · rintro ⟨b, hb, hname⟩
    obtain ⟨before, entryPrefix, strategyName, hname', -, -, hstrategy, -⟩ := hvalid.of_mem hb
    rw [hname] at hname'
    exact ⟨(n, strategyName), (h _).mpr ⟨b, hb, hname, hstrategy⟩, rfl⟩

theorem fine_iff {entryPrefix : Name} (hname : text.parseName entry.1 = some entryPrefix) :
    Fine text T before entry ↔ (∀ b ∈ before, text.parseName b.1 ≠ some entryPrefix) ∧ entry.2.value ≠ "" ∧
      ∃ strategyName, text.parseName entry.2.value = some strategyName ∧ (T.getStrategy strategyName).isSome := by
  constructor
  · rintro ⟨n, strategyName, hn, hnew, hvalue, hstrategy, hhas⟩
    rw [hname, Option.some_inj] at hn
    exact ⟨hn ▸ hnew, hvalue, strategyName, hstrategy, hhas⟩
  · rintro ⟨hnew, hvalue, strategyName, hstrategy, hhas⟩
    exact ⟨entryPrefix, strategyName, hname, hnew, hvalue, hstrategy, hhas⟩

theorem malformed_iff {entryPrefix : Name} (hname : text.parseName entry.1 = some entryPrefix) :
    Malformed text before entry ↔ (∀ b ∈ before, text.parseName b.1 ≠ some entryPrefix) ∧ entry.2.value ≠ "" ∧
      text.parseName entry.2.value = none := by
  rw [Malformed, hname]
  exact or_iff_right (Option.some_ne_none entryPrefix)

/-- A choice for a new prefix is added to those of the map. -/
theorem Represents.set (h : Represents text entries choices) {entryPrefix strategyName : Name}
    (hfresh : ∀ e ∈ choices.entries, e.1 ≠ entryPrefix) (hname : text.parseName entry.1 = some entryPrefix)
    (hstrategy : text.parseName entry.2.value = some strategyName) :
    Represents text (entries ++ [entry]) (choices.set entryPrefix strategyName) := by
  intro e
  rw [OrderedMap.mem_set_iff hfresh, h e]
  constructor
  · rintro (rfl | ⟨b, hb, hb'⟩)
    · exact ⟨entry, List.mem_append_right entries List.mem_cons_self, hname, hstrategy⟩
    · exact ⟨b, List.mem_append_left [entry] hb, hb'⟩
  · rintro ⟨b, hb, hb'⟩
    rcases List.mem_append.mp hb with hb | hb
    · exact Or.inr ⟨b, hb, hb'⟩
    · rw [List.mem_singleton.mp hb, hname, hstrategy] at hb'
      exact Or.inl (Prod.ext (Option.some_inj.mp hb'.1).symm (Option.some_inj.mp hb'.2).symm)

/-- A choice is added, or the loop ends in one of two ways. -/
theorem addChoice_cases (h : Represents text entries choices) (hvalid : ValidChoices text T entries)
    (entry : String × ConfigSection) :
    (Fine text T entries entry ∧
        ∃ choices', addChoice text T choices entry = .ok choices' ∧ Represents text (entries ++ [entry]) choices') ∨
      (Malformed text entries entry ∧ addChoice text T choices entry = .error .nameError) ∨
      (¬ Fine text T entries entry ∧ ¬ Malformed text entries entry ∧
        ∃ message, addChoice text T choices entry = .error (.configError message)) := by
  have hfind := h.find?_isSome_iff hvalid
  rw [addChoice]
  cases hname : text.parseName entry.1 with
  | none => exact Or.inr (Or.inl ⟨Or.inl hname, rfl⟩)
  | some entryPrefix =>
      rw [fine_iff hname, malformed_iff hname]
      dsimp only
      by_cases hold : (choices.find? entryPrefix).isSome
      · obtain ⟨b, hb, hsame⟩ := (hfind entryPrefix).mp hold
        rw [if_pos hold]
        exact Or.inr (Or.inr ⟨fun hfine => hfine.1 b hb hsame, fun hmalformed => hmalformed.1 b hb hsame, _, rfl⟩)
      · have hnew : ∀ b ∈ entries, text.parseName b.1 ≠ some entryPrefix := fun b hb hsame =>
          hold ((hfind entryPrefix).mpr ⟨b, hb, hsame⟩)
        rw [if_neg hold]
        by_cases hempty : entry.2.value = ""
        · rw [if_pos hempty]
          exact Or.inr (Or.inr ⟨fun hfine => hfine.2.1 hempty, fun hmalformed => hmalformed.2.1 hempty, _, rfl⟩)
        · rw [if_neg hempty]
          cases hstrategy : text.parseName entry.2.value with
          | none => exact Or.inr (Or.inl ⟨⟨hnew, hempty, rfl⟩, rfl⟩)
          | some strategyName =>
              dsimp only
              by_cases hhas : (T.getStrategy strategyName).isSome
              · rw [if_pos hhas]
                have hfresh : ∀ e ∈ choices.entries, e.1 ≠ entryPrefix := fun e he heq =>
                  hold (OrderedMap.find?_isSome_iff.mpr ⟨e, he, heq⟩)
                exact Or.inl ⟨⟨hnew, hempty, strategyName, rfl, hhas⟩, _, rfl, h.set hfresh hname hstrategy⟩
              · rw [if_neg hhas]
                refine Or.inr (Or.inr ⟨?_, fun hmalformed => Option.some_ne_none _ hmalformed.2.2, _, rfl⟩)
                rintro ⟨-, -, strategyName', hsame, hhas'⟩
                exact hhas (Option.some_inj.mp hsame ▸ hhas')

/-- The loop that checks the choices. -/
theorem foldlM_addChoice_cases (text : ConfigText) (T : StrategyChoiceTable) (entries : List (String × ConfigSection)) :
    (ValidChoices text T entries ∧
        ∃ choices, entries.foldlM (addChoice text T) .empty = .ok choices ∧ Represents text entries choices) ∨
      (MalformedFirst text T entries ∧ entries.foldlM (addChoice text T) .empty = .error .nameError) ∨
      (¬ ValidChoices text T entries ∧ ¬ MalformedFirst text T entries ∧
        ∃ message, entries.foldlM (addChoice text T) .empty = .error (.configError message)) := by
  induction entries using List.reverseRecOn with
  | nil =>
      refine Or.inl ⟨validChoices_nil, .empty, rfl, fun e => ?_⟩
      exact iff_of_false List.not_mem_nil fun ⟨_, hmem, _⟩ => absurd hmem List.not_mem_nil
  | append_singleton entries entry ih =>
      rw [List.foldlM_append, validChoices_concat_iff, malformedFirst_concat_iff]
      rcases ih with ⟨hvalid, choices, heq, hrep⟩ | ⟨hmalformed, heq⟩ | ⟨hinvalid, hnot, message, heq⟩
      · have hone : ∀ r, addChoice text T choices entry = r →
            (Except.ok choices >>= fun choices => [entry].foldlM (addChoice text T) choices) = r := by
          rintro r rfl
          exact bind_pure (addChoice text T choices entry)
        rw [heq]
        rcases addChoice_cases hrep hvalid entry with ⟨hfine, choices', hadd, hrep'⟩ | ⟨hmalformed, hadd⟩ |
          ⟨hnotFine, hnotMalformed, message, hadd⟩
        · exact Or.inl ⟨⟨hvalid, hfine⟩, choices', hone _ hadd, hrep'⟩
        · exact Or.inr (Or.inl ⟨Or.inr ⟨hvalid, hmalformed⟩, hone _ hadd⟩)
        · refine Or.inr (Or.inr ⟨fun h => hnotFine h.2, ?_, message, hone _ hadd⟩)
          rintro (h | h)
          · exact hvalid.not_malformedFirst h
          · exact hnotMalformed h.2
      · rw [heq]
        exact Or.inr (Or.inl ⟨Or.inl hmalformed, rfl⟩)
      · rw [heq]
        refine Or.inr (Or.inr ⟨fun h => hinvalid h.1, ?_, message, rfl⟩)
        rintro (h | h)
        · exact hnot h
        · exact hinvalid h.1

theorem getStrategy_congr (h : T'.strategyInstances = T.strategyInstances) (n : Name) :
    T'.getStrategy n = T.getStrategy n := by
  rw [StrategyChoiceTable.getStrategy, StrategyChoiceTable.getStrategy, h]

theorem root_of_setEntry (hroot : (T.entries []).isSome) (n : Name) (strategy : StrategyInstance) :
    ((T.setEntry n (some strategy)).entries []).isSome := by
  rw [StrategyChoiceTable.setEntry_entries]
  split
  · rfl
  · exact hroot

/-- A choice of an installed strategy is made, whatever was chosen. -/
theorem insert_spec {strategy : StrategyInstance} {strategyName : Name} (hroot : (T.entries []).isSome)
    (hstrategy : T.getStrategy strategyName = some strategy) (entryPrefix : Name) :
    ∃ T', T.insert entryPrefix strategyName = some (T', true) ∧ T'.strategyInstances = T.strategyInstances ∧
      (T'.entries []).isSome ∧ (T'.entries entryPrefix).map StrategyInstance.name = some strategy.name ∧
      ∀ n, n ≠ entryPrefix → T'.entries n = T.entries n := by
  have hset : ((T.setEntry entryPrefix (some strategy)).entries []).isSome ∧
      ((T.setEntry entryPrefix (some strategy)).entries entryPrefix).map StrategyInstance.name = some strategy.name ∧
      ∀ n, n ≠ entryPrefix → (T.setEntry entryPrefix (some strategy)).entries n = T.entries n := by
    refine ⟨root_of_setEntry hroot entryPrefix strategy, ?_, fun n hn => ?_⟩
    · rw [StrategyChoiceTable.setEntry_entries, if_pos rfl]
      rfl
    · rw [StrategyChoiceTable.setEntry_entries, if_neg hn]
  rw [StrategyChoiceTable.insert, hstrategy]
  cases hold : T.entries entryPrefix with
  | some oldStrategy =>
      dsimp only
      split
      · rename_i hname
        exact ⟨T, rfl, rfl, hroot, by rw [hold, Option.map_some, hname], fun _ _ => rfl⟩
      · exact ⟨_, rfl, rfl, hset⟩
  | none =>
      have heffective : ¬ (T.findEffectiveStrategy entryPrefix).isNone = true := by
        have hsome := LongestPrefix.longest_isSome hroot entryPrefix
        rw [StrategyChoiceTable.findEffectiveStrategy, Option.isNone_iff_eq_none]
        exact Option.isSome_iff_ne_none.mp hsome
      dsimp only
      rw [if_neg heffective]
      exact ⟨_, rfl, rfl, hset⟩

/-- All choices are made, one after the other. -/
theorem insertChoices_spec (text : ConfigText) {l : List (Name × Name)} (hroot : (T.entries []).isSome)
    (hsorted : l.Pairwise fun a b => a.1 < b.1) (hinstalled : ∀ e ∈ l, (T.getStrategy e.2).isSome) :
    ∃ T', insertChoices text false l T = (none, T') ∧ T'.strategyInstances = T.strategyInstances ∧
      (∀ e ∈ l, ∃ strategy, T.getStrategy e.2 = some strategy ∧
        (T'.entries e.1).map StrategyInstance.name = some strategy.name) ∧
      ∀ n, (∀ e ∈ l, e.1 ≠ n) → T'.entries n = T.entries n := by
  induction l generalizing T with
  | nil => exact ⟨T, rfl, rfl, fun _ h => absurd h List.not_mem_nil, fun _ _ => rfl⟩
  | cons e l ih =>
      obtain ⟨hlt, hsorted⟩ := List.pairwise_cons.mp hsorted
      obtain ⟨strategy, hstrategy⟩ := Option.isSome_iff_exists.mp (hinstalled e List.mem_cons_self)
      obtain ⟨T₁, hinsert, hsame, hroot₁, hchosen, hothers⟩ := insert_spec hroot hstrategy e.1
      obtain ⟨T', hrest, hsame', hchosen', hothers'⟩ := ih hroot₁ hsorted fun x hx => by
        rw [getStrategy_congr hsame]
        exact hinstalled x (List.mem_cons_of_mem e hx)
      refine ⟨T', ?_, hsame'.trans hsame, List.forall_mem_cons.mpr ⟨?_, fun x hx => ?_⟩, fun n hn => ?_⟩
      · rw [insertChoices, if_neg Bool.false_ne_true, hinsert]
        exact hrest
      · refine ⟨strategy, hstrategy, ?_⟩
        rw [hothers' e.1 fun x hx heq => absurd heq.symm (hlt x hx).ne]
        exact hchosen
      · obtain ⟨found, hfound, hname⟩ := hchosen' x hx
        exact ⟨found, (getStrategy_congr hsame x.2).symm.trans hfound, hname⟩
      · rw [hothers' n fun x hx => hn x (List.mem_cons_of_mem e hx), hothers n (hn e List.mem_cons_self).symm]

theorem insertChoices_dryRun (text : ConfigText) (l : List (Name × Name)) (T : StrategyChoiceTable) :
    insertChoices text true l T = (none, T) := by
  induction l with
  | nil => rfl
  | cons e l ih => rw [insertChoices, if_pos rfl, ih]

variable {s : TablesConfigSection ρ}

/-- The choices of a section are made, or the processing ends in one of two ways, whether it is a dry run or not. -/
theorem processSectionStrategyChoice_cases (text : ConfigText) (hroot : (T.entries []).isSome)
    (configSection : ConfigSection) :
    (ValidChoices text T configSection.children ∧
        processSectionStrategyChoice text T configSection true = (none, T) ∧
        ∃ T', processSectionStrategyChoice text T configSection false = (none, T') ∧
          T'.strategyInstances = T.strategyInstances ∧
          (∀ entry ∈ configSection.children, ∃ entryPrefix strategyName strategy,
            text.parseName entry.1 = some entryPrefix ∧ text.parseName entry.2.value = some strategyName ∧
              T.getStrategy strategyName = some strategy ∧
              (T'.entries entryPrefix).map StrategyInstance.name = some strategy.name) ∧
          ∀ n, (∀ entry ∈ configSection.children, text.parseName entry.1 ≠ some n) → T'.entries n = T.entries n) ∨
      (MalformedFirst text T configSection.children ∧
        ∀ isDryRun, processSectionStrategyChoice text T configSection isDryRun = (some .nameError, T)) ∨
      (¬ ValidChoices text T configSection.children ∧ ¬ MalformedFirst text T configSection.children ∧
        ∃ message, ∀ isDryRun,
          processSectionStrategyChoice text T configSection isDryRun = (some (.configError message), T)) := by
  unfold processSectionStrategyChoice
  rcases foldlM_addChoice_cases text T configSection.children with ⟨hvalid, choices, heq, hrep⟩ | ⟨hmalformed, heq⟩ |
    ⟨hinvalid, hnot, message, heq⟩
  · rw [heq]
    have hinstalled : ∀ e ∈ choices.entries, (T.getStrategy e.2).isSome := fun e he => by
      obtain ⟨entry, hentry, -, hstrategy⟩ := (hrep e).mp he
      obtain ⟨-, -, strategyName, -, -, -, hstrategy', hhas⟩ := hvalid.of_mem hentry
      rw [hstrategy] at hstrategy'
      exact Option.some_inj.mp hstrategy' ▸ hhas
    obtain ⟨T', hinsert, hsame, hchosen, hothers⟩ := insertChoices_spec text hroot choices.sorted hinstalled
    refine Or.inl ⟨hvalid, insertChoices_dryRun text _ T, T', hinsert, hsame, fun entry hentry => ?_, fun n hn => ?_⟩
    · obtain ⟨-, entryPrefix, strategyName, hname, -, -, hstrategy, -⟩ := hvalid.of_mem hentry
      obtain ⟨strategy, hget, hset⟩ := hchosen _ ((hrep (entryPrefix, strategyName)).mpr
        ⟨entry, hentry, hname, hstrategy⟩)
      exact ⟨entryPrefix, strategyName, strategy, hname, hstrategy, hget, hset⟩
    · refine hothers n fun e he heq => ?_
      obtain ⟨entry, hentry, hname, -⟩ := (hrep e).mp he
      exact hn entry hentry (heq ▸ hname)
  · rw [heq]
    exact Or.inr (Or.inl ⟨hmalformed, fun _ => rfl⟩)
  · rw [heq]
    exact Or.inr (Or.inr ⟨hinvalid, hnot, message, fun _ => rfl⟩)

/-- A section without choices is like one with an empty list of them. -/
theorem onConfig_eq {n : Nat} {configSection : ConfigSection} (hpackets : csMaxPackets text configSection = some n)
    (isDryRun : Bool) :
    onConfig text digest P s configSection isDryRun =
      match processSectionStrategyChoice text s.strategyChoice (.node "" (listedChoices configSection)) isDryRun with
      | (some fault, T) => (some fault, { s with strategyChoice := T })
      | (none, T) =>
          if isDryRun then (none, { s with strategyChoice := T })
          else
            match setLimit digest P s.cs n with
            | none => (some .assertion, { s with strategyChoice := T })
            | some cs => (none, { s with strategyChoice := T, cs, areTablesConfigured := true }) := by
  have hprocessed : (match configSection.getChild "strategy_choice" with
      | none => (none, s.strategyChoice)
      | some strategyChoiceSection =>
          processSectionStrategyChoice text s.strategyChoice strategyChoiceSection isDryRun) =
      processSectionStrategyChoice text s.strategyChoice (.node "" (listedChoices configSection)) isDryRun := by
    rw [listedChoices]
    cases configSection.getChild "strategy_choice" with
    | none => rfl
    | some strategyChoiceSection => rfl
  rw [onConfig, hpackets]
  dsimp only
  rw [hprocessed]
  rcases processSectionStrategyChoice text s.strategyChoice (.node "" (listedChoices configSection)) isDryRun with
    ⟨_ | fault, T⟩ <;> rfl

/-! ### The tables of a forwarder -/

/-- No operation leaves the root without a strategy. -/
theorem root_of_step {op : StrategyChoiceTable.Op} (hroot : (T.entries []).isSome) (hstep : T.step op = some T') :
    (T'.entries []).isSome := by
  rcases StrategyChoiceTable.step_cases hstep with ⟨strategyName, rfl⟩ | rfl | ⟨p, strategy, -, rfl⟩ | ⟨p, hp, rfl⟩
  · rw [StrategyChoiceTable.install_entries]
    exact hroot
  · exact hroot
  · exact root_of_setEntry hroot p strategy
  · rw [StrategyChoiceTable.setEntry_entries, if_neg (Ne.symm hp)]
    exact hroot

theorem root_of_reach {strategyName : Name}
    (hr : Reach StrategyChoiceTable.step anyStep (StrategyChoiceTable.empty.setDefaultStrategy strategyName) T) :
    (T.entries []).isSome := by
  refine hr.invariant (I := fun T => (T.entries []).isSome) ?_ fun _ _ _ hroot _ hstep => root_of_step hroot hstep
  rw [StrategyChoiceTable.setDefaultStrategy, StrategyChoiceTable.setEntry_entries, if_pos rfl]
  rfl

theorem operational_of_reach {s : TablesConfigSection ρ} {strategyName : Name}
    (hT : Reach StrategyChoiceTable.step anyStep (StrategyChoiceTable.empty.setDefaultStrategy strategyName)
      s.strategyChoice)
    (hzero : setLimit digest P s.cs 0 = none) (hpos : ∀ n, 0 < n → ∃ cs, setLimit digest P s.cs n = some cs) :
    s.Operational digest P := by
  refine ⟨root_of_reach hT, fun n => ⟨fun hsome => Nat.pos_of_ne_zero ?_, fun hn => ?_⟩⟩
  · rintro rfl
    rw [hzero] at hsome
    cases hsome
  · exact Option.isSome_iff_exists.mpr (hpos n hn)

/-- In every run of a store under priority-FIFO, and after a default strategy is set, the tables are operational. -/
theorem operational_priorityFifo {s : TablesConfigSection PriorityFifoPolicy} {strategyName : Name} {nMaxPackets : Nat}
    {getSuccessor : Name → Name} {matchesData : MatchesData}
    (hT : Reach StrategyChoiceTable.step anyStep (StrategyChoiceTable.empty.setDefaultStrategy strategyName)
      s.strategyChoice)
    (hcs : Reach (CsRun.step digest getSuccessor matchesData (PriorityFifoPolicy.policy digest)) anyStep
      { table := [], policy := { PriorityFifoPolicy.constructed with limit := nMaxPackets }, now := 0 } s.cs) :
    s.Operational digest (PriorityFifoPolicy.policy digest) := by
  have hv := PriorityFifoPolicy.valid_of_reach (PriorityFifoPolicy.start_valid digest nMaxPackets) hcs
  refine operational_of_reach hT rfl fun n hn => ?_
  have hop : PriorityFifoPolicy.Operation s.cs (.setLimit n) := hn
  obtain ⟨cs, hcs, -⟩ := hv.step getSuccessor matchesData hop
  exact ⟨cs, hcs⟩

/-- The same under LRU. -/
theorem operational_lru {s : TablesConfigSection LruPolicy} {strategyName : Name} {nMaxPackets : Nat}
    {getSuccessor : Name → Name} {matchesData : MatchesData}
    (hT : Reach StrategyChoiceTable.step anyStep (StrategyChoiceTable.empty.setDefaultStrategy strategyName)
      s.strategyChoice)
    (hcs : Reach (CsRun.step digest getSuccessor matchesData (LruPolicy.policy digest)) anyStep
      { table := [], policy := { LruPolicy.constructed with limit := nMaxPackets }, now := 0 } s.cs) :
    s.Operational digest (LruPolicy.policy digest) := by
  obtain ⟨h, hrun, hreach⟩ := LruPolicy.History.exists_of_reach hcs
  have hv := LruPolicy.History.valid_of_reach (LruPolicy.start_valid digest nMaxPackets) hreach
  refine operational_of_reach hT rfl fun n hn => ?_
  have hop : LruPolicy.History.Operation (.setLimit n) := hn
  obtain ⟨h', hevicts, -⟩ := hv.step getSuccessor matchesData hop
  obtain ⟨cs, hcs, -⟩ := Option.map_eq_some_iff.mp hevicts.result
  rw [hrun] at hcs
  exact ⟨cs, hcs⟩

/-- A section in which an error is found, by the dry run too, is not applied. -/
theorem AllOrNothing.of_error {message : String} {configSection : ConfigSection}
    (h : ∀ isDryRun, onConfig text digest P s configSection isDryRun = (some (.configError message), s)) :
    AllOrNothing text digest P s configSection where
  failed := by
    rw [h false]
    rintro fault hfault
    exact ⟨⟨message, (Option.some_inj.mp hfault).symm⟩, rfl⟩
  completed := by
    rw [h false]
    exact fun hnone => absurd hnone (Option.some_ne_none _)
  dryRun_unchanged := by rw [h true]
  dryRun_iff := by rw [h true, h false]
  accepted := by
    rw [h true]
    exact fun hnone => absurd hnone (Option.some_ne_none _)

/-- A section is applied as a whole or not at all exactly when its first choice that cannot be made is made of names,
and when it does not set the limit to zero with choices that can all be made. -/
theorem onConfig_allOrNothing_iff (h : s.Operational digest P) (configSection : ConfigSection) :
    AllOrNothing text digest P s configSection ↔
      (csMaxPackets text configSection ≠ none →
        ¬ MalformedFirst text s.strategyChoice (listedChoices configSection) ∧
          (ValidChoices text s.strategyChoice (listedChoices configSection) →
            csMaxPackets text configSection ≠ some 0)) := by
  cases hpackets : csMaxPackets text configSection with
  | none =>
      have heq : ∀ isDryRun, onConfig text digest P s configSection isDryRun =
          (some (.configError "Invalid value for option \"cs_max_packets\" in \"tables\" section"), s) :=
            fun isDryRun => by
        rw [onConfig, hpackets]
      exact iff_of_true (.of_error heq) fun hne => absurd rfl hne
  | some n =>
      have hconfig : ∀ isDryRun, onConfig text digest P s configSection isDryRun = _ := onConfig_eq hpackets
      rcases processSectionStrategyChoice_cases text h.root (.node "" (listedChoices configSection)) with
        ⟨hvalid, hdry, T', hreal, hsame, hchosen, hothers⟩ | ⟨hmalformed, heq⟩ | ⟨hinvalid, hnot, message, heq⟩
      · have hdryRun : onConfig text digest P s configSection true = (none, s) := by
          rw [hconfig, hdry]
          rfl
        by_cases hzero : n = 0
        · -- the choices are made, and then the policy refuses the limit
          have hlimit : setLimit digest P s.cs n = none :=
            Option.not_isSome_iff_eq_none.mp fun hsome => absurd ((h.limit n).mp hsome) (by omega)
          have hfails : (onConfig text digest P s configSection false).1 = some .assertion := by
            rw [hconfig, hreal]
            dsimp only
            rw [hlimit]
            rfl
          refine iff_of_false (fun hall => ?_) fun hok => (hok (Option.some_ne_none n)).2 hvalid (congrArg some hzero)
          obtain ⟨⟨message, hmessage⟩, -⟩ := hall.failed _ hfails
          cases hmessage
        · obtain ⟨cs, hlimit⟩ := Option.isSome_iff_exists.mp ((h.limit n).mpr (Nat.pos_of_ne_zero hzero))
          have hdone : onConfig text digest P s configSection false =
              (none, { s with strategyChoice := T', cs, areTablesConfigured := true }) := by
            rw [hconfig, hreal]
            dsimp only
            rw [hlimit]
            rfl
          refine iff_of_true ⟨fun fault hfault => ?_, fun _ => ?_, by
            rw [hdryRun], by simp [hdryRun, hdone], fun _ => ?_⟩
            fun _ => ⟨hvalid.not_malformedFirst, fun _ hn => hzero (Option.some_inj.mp hn)⟩
          · rw [hdone] at hfault
            cases hfault
          · rw [hdone]
            exact ⟨hsame, hchosen, hothers, ⟨n, hpackets, hlimit⟩, rfl⟩
          · rw [hdone]
            exact Option.some_ne_none _ |>.symm
      · have hfails : (onConfig text digest P s configSection false).1 = some .nameError := by rw [hconfig, heq]
        refine iff_of_false (fun hall => ?_) fun hok => (hok (Option.some_ne_none n)).1 hmalformed
        obtain ⟨⟨message, hmessage⟩, -⟩ := hall.failed _ hfails
        cases hmessage
      · have hboth : ∀ isDryRun,
            onConfig text digest P s configSection isDryRun = (some (.configError message), s) := fun isDryRun => by
          rw [hconfig, heq]
        exact iff_of_true (.of_error hboth) fun _ => ⟨hnot, fun hvalid => absurd hvalid hinvalid⟩

/-- The names and numbers of one section. -/
def smallText : ConfigText where
  parseName := fun text => if text = "/A" then some [.ofByte 65] else if text = "/1" then some [.ofByte 49] else none
  toUri := fun _ => ""
  getSizeT := fun text => if text = "0" then some 0 else if text = "2" then some 2 else none

/-- A section that chooses the strategy `/1` for `/A`. -/
def smallSection (csMaxPackets : String) : ConfigSection :=
  .node "" [("cs_max_packets", .node csMaxPackets []), ("strategy_choice", .node "" [("/A", .node "/1" [])])]

/-- New tables in which `/1` is the default. -/
def smallTables : TablesConfigSection PriorityFifoPolicy where
  strategyChoice := StrategyChoiceTable.empty.setDefaultStrategy [.ofByte 49]
  cs := { table := [], policy := { PriorityFifoPolicy.constructed with limit := 1 }, now := 0 }
  areTablesConfigured := false

theorem onConfig_allOrNothing_two :
    smallTables.Operational (fun _ => [0]) (PriorityFifoPolicy.policy fun _ => [0]) ∧
      AllOrNothing smallText (fun _ => [0]) (PriorityFifoPolicy.policy fun _ => [0]) smallTables
      (smallSection "2") := by
  have h : smallTables.Operational (fun _ => [0]) (PriorityFifoPolicy.policy fun _ => [0]) :=
    @operational_priorityFifo (fun _ => [0]) smallTables [.ofByte 49] 1 incrementLast
      (matchesSuffix fun _ => [0]) .start .start
  have hfine : Fine smallText smallTables.strategyChoice [] ("/A", .node "/1" []) :=
    ⟨[.ofByte 65], [.ofByte 49], rfl, fun _ hb => absurd hb List.not_mem_nil, by decide, rfl, by decide +kernel⟩
  have hvalid : ValidChoices smallText smallTables.strategyChoice ([] ++ [("/A", .node "/1" [])]) :=
    validChoices_concat_iff.mpr ⟨validChoices_nil, hfine⟩
  exact ⟨h, (onConfig_allOrNothing_iff h (smallSection "2")).mpr fun _ =>
    ⟨hvalid.not_malformedFirst, fun _ => by decide⟩⟩

/-- A dry run accepts the limit zero. The run makes the choice, and then the policy refuses the limit. -/
theorem onConfig_zero_not_allOrNothing :
    (onConfig smallText (fun _ => [0]) (PriorityFifoPolicy.policy fun _ => [0]) smallTables (smallSection "0") true).1 =
        none ∧
      (onConfig smallText (fun _ => [0]) (PriorityFifoPolicy.policy fun _ => [0]) smallTables (smallSection "0")
        false).1 = some .assertion ∧
      smallTables.strategyChoice.entries [.ofByte 65] = none ∧
      ((onConfig smallText (fun _ => [0]) (PriorityFifoPolicy.policy fun _ => [0]) smallTables (smallSection "0")
        false).2.strategyChoice.entries [.ofByte 65]).isSome ∧
      ¬ AllOrNothing smallText (fun _ => [0]) (PriorityFifoPolicy.policy fun _ => [0]) smallTables
      (smallSection "0") := by
  have hdry : (onConfig smallText (fun _ => [0]) (PriorityFifoPolicy.policy fun _ => [0]) smallTables (smallSection "0")
      true).1 = none := by decide +kernel
  have hreal : (onConfig smallText (fun _ => [0]) (PriorityFifoPolicy.policy fun _ => [0]) smallTables
    (smallSection "0") false).1 = some .assertion := by decide +kernel
  exact ⟨hdry, hreal, rfl, by decide +kernel, fun hall => hall.accepted hdry hreal⟩

end TablesConfigSection

end NfdPitless
