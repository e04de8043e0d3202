import NfdPitless.Name
import NfdPitless.OrderedMap
import Mathlib.Data.List.MinMax

/-! The face between the forwarder and the managers (`internal-face.cpp`). A manager sets a filter for the names that it
answers, and an Interest goes to the handler that the neighbours of its name among the filters decide. -/

namespace NfdPitless

/-- The Interest filters, with the handlers registered for them. -/
structure InternalFace (OnInterest : Type) where
  interestFilters : OrderedMap Name OnInterest

namespace InternalFace

variable {OnInterest : Type} {face : InternalFace OnInterest} {interestName : Name} {f f' : Name × OnInterest}

def new : InternalFace OnInterest := ⟨.empty⟩

def setInterestFilter (face : InternalFace OnInterest) (filter : Name) (onInterest : OnInterest) :
    InternalFace OnInterest :=
  ⟨face.interestFilters.set filter onInterest⟩

/-- `processInterest`, as the filter whose handler it invokes. -/
def processInterest (face : InternalFace OnInterest) (interestName : Name) : Option (Name × OnInterest) :=
  if face.interestFilters.entries.isEmpty then none
  else
    match face.interestFilters.lowerBound interestName, (face.interestFilters.before interestName).getLast? with
    -- at the end of the map, the element before it
    | [], some filter => if Name.isPrefixOf filter.1 interestName then some filter else none
    | [], none => none
    | filter :: _, previous =>
        if filter.1 == interestName then some filter
        else
          match previous with
          | some filter => if Name.isPrefixOf filter.1 interestName then some filter else none
          | none => none

/-- The longest registered filter that is a prefix of the name. -/
def LongestFor (face : InternalFace OnInterest) (interestName : Name) (f : Name × OnInterest) : Prop :=
  f ∈ face.interestFilters.entries ∧ f.1 <+: interestName ∧
    ∀ g ∈ face.interestFilters.entries, g.1 <+: interestName → g.1.length ≤ f.1.length

/-- An Interest is for the longest filter above it, and for no handler only if there is none. -/
structure DispatchesLongest (face : InternalFace OnInterest) (interestName : Name) : Prop where
  invoked : ∀ f, face.processInterest interestName = some f ↔ face.LongestFor interestName f
  dropped : face.processInterest interestName = none ↔
    ∀ g ∈ face.interestFilters.entries, ¬ g.1 <+: interestName

/-- Another filter stands between the longest filter and the name in the order of the map. -/
def Shadowed (face : InternalFace OnInterest) (interestName : Name) : Prop :=
  ∃ f, face.LongestFor interestName f ∧ ∃ g ∈ face.interestFilters.entries, f.1 < g.1 ∧ g.1 < interestName

/-- The greatest filter that is not after the name is the only one looked at. -/
theorem processInterest_cases (face : InternalFace OnInterest) (interestName : Name) :
    (∃ f ∈ face.interestFilters.entries, f.1 ≤ interestName ∧
        (∀ g ∈ face.interestFilters.entries, g.1 ≤ interestName → g.1 ≤ f.1) ∧
        face.processInterest interestName = if Name.isPrefixOf f.1 interestName then some f else none) ∨
      (∀ g ∈ face.interestFilters.entries, interestName < g.1) ∧ face.processInterest interestName = none := by
  unfold processInterest
  by_cases hempty : face.interestFilters.entries.isEmpty
  · refine Or.inr ⟨fun g hg => ?_, if_pos hempty⟩
    rw [List.isEmpty_iff.mp hempty] at hg
    cases hg
  rw [if_neg hempty]
  cases hlower : face.interestFilters.lowerBound interestName with
  | nil =>
      have hall : ∀ g ∈ face.interestFilters.entries, g.1 < interestName := fun g hg => by
        by_contra hge
        have hmem := OrderedMap.mem_lowerBound_iff.mpr ⟨hg, not_lt.mp hge⟩
        rw [hlower] at hmem
        cases hmem
      cases hlast : (face.interestFilters.before interestName).getLast? with
      | none =>
          have hnone := List.getLast?_eq_none_iff.mp hlast
          exact Or.inr ⟨fun g hg => absurd (hall g hg) (OrderedMap.not_lt_of_before_eq_nil hnone hg), rfl⟩
      | some f =>
          obtain ⟨hf, hlt, hgreatest⟩ := OrderedMap.le_getLast_before hlast
          exact Or.inl ⟨f, hf, hlt.le, fun g hg _ => hgreatest g hg (hall g hg), rfl⟩
  | cons first rest =>
      have hfirst := OrderedMap.mem_lowerBound_iff.mp (hlower ▸ List.mem_cons_self)
      dsimp only
      by_cases hexact : first.1 = interestName
      · refine Or.inl ⟨first, hfirst.1, hexact.le, fun g _ hle => hle.trans hexact.ge, ?_⟩
        have hself : Name.isPrefixOf first.1 interestName = true :=
          Name.isPrefixOf_iff.mpr (hexact ▸ List.prefix_refl first.1)
        rw [if_pos (beq_iff_eq.mpr hexact), if_pos hself]
      · rw [if_neg (fun heq => hexact (beq_iff_eq.mp heq))]
        -- no filter has exactly this name, or the lower bound would point at it
        have hlt : ∀ g ∈ face.interestFilters.entries, g.1 ≤ interestName → g.1 < interestName := fun g hg hle =>
          lt_of_le_of_ne hle fun heq =>
            hexact (le_antisymm ((OrderedMap.head_lowerBound_le hlower hg heq.ge).trans hle) hfirst.2)
        cases hlast : (face.interestFilters.before interestName).getLast? with
        | none =>
            have hnone := List.getLast?_eq_none_iff.mp hlast
            exact Or.inr ⟨fun g hg => not_le.mp fun hle => OrderedMap.not_lt_of_before_eq_nil hnone hg (hlt g hg hle),
              rfl⟩
        | some f =>
            obtain ⟨hf, hbelow, hgreatest⟩ := OrderedMap.le_getLast_before hlast
            exact Or.inl ⟨f, hf, hbelow.le, fun g hg hle => hgreatest g hg (hlt g hg hle), rfl⟩

theorem LongestFor.unique (h : face.LongestFor interestName f) (h' : face.LongestFor interestName f') : f = f' := by
  have hlength : f.1.length = f'.1.length := Nat.le_antisymm (h'.2.2 f h.1 h.2.1) (h.2.2 f' h'.1 h'.2.1)
  have hstarts : f.1 <+: f'.1 := List.prefix_of_prefix_length_le h.2.1 h'.2.1 hlength.le
  exact OrderedMap.eq_of_key_eq h.1 h'.1 (hstarts.eq_of_length hlength)

theorem exists_longestFor (hf : f ∈ face.interestFilters.entries) (hstarts : f.1 <+: interestName) :
    ∃ f', face.LongestFor interestName f' := by
  let above := face.interestFilters.entries.filter fun g => Name.isPrefixOf g.1 interestName
  have hmem : ∀ g, g ∈ above ↔ g ∈ face.interestFilters.entries ∧ g.1 <+: interestName := fun g => by
    rw [List.mem_filter, Name.isPrefixOf_iff]
  cases hmax : above.argmax fun g => g.1.length with
  | none =>
      have hnil : above = [] := List.argmax_eq_none.mp hmax
      exact absurd ((hmem f).mpr ⟨hf, hstarts⟩) (hnil ▸ List.not_mem_nil)
  | some f' =>
      obtain ⟨hf', hstarts'⟩ := (hmem f').mp (List.argmax_mem hmax)
      refine ⟨f', hf', hstarts', fun g hg hg' => ?_⟩
      exact List.le_of_mem_argmax (f := fun g : Name × OnInterest => g.1.length) ((hmem g).mpr ⟨hg, hg'⟩) hmax

/-- A filter above the name that no other filter below the name comes after is the longest. -/
theorem LongestFor.of_greatest (hf : f ∈ face.interestFilters.entries) (hstarts : f.1 <+: interestName)
    (hgreatest : ∀ g ∈ face.interestFilters.entries, g.1 ≤ interestName → g.1 ≤ f.1) :
    face.LongestFor interestName f := by
  refine ⟨hf, hstarts, fun g hg hg' => ?_⟩
  by_contra hlength
  have hunder : f.1 <+: g.1 := List.prefix_of_prefix_length_le hstarts hg' (Nat.le_of_lt (not_le.mp hlength))
  have hlt := Name.lt_of_prefix hunder fun heq => hlength (heq ▸ le_rfl)
  exact absurd hlt (not_lt.mpr (hgreatest g hg (Name.le_of_prefix hg')))

/-- Filters of which none is under another shadow nothing, which is how the managers set theirs. -/
theorem not_shadowed_of_apart
    (h : ∀ f ∈ face.interestFilters.entries, ∀ g ∈ face.interestFilters.entries, f.1 <+: g.1 → f.1 = g.1) :
    ¬ face.Shadowed interestName := by
  rintro ⟨f, hf, g, hg, hlt, hlt'⟩
  exact hlt.ne (h f hf.1 g hg (Name.prefix_of_between hf.2.1 hlt hlt'))

/-- The neighbour of the name is enough exactly when nothing stands between the longest filter and the name. -/
theorem processInterest_dispatchesLongest_iff (face : InternalFace OnInterest) (interestName : Name) :
    face.DispatchesLongest interestName ↔ ¬ face.Shadowed interestName := by
  rcases face.processInterest_cases interestName with ⟨f, hf, hle, hgreatest, heq⟩ | ⟨hafter, heq⟩
  · by_cases hstarts : f.1 <+: interestName
    · have hlongest := LongestFor.of_greatest hf hstarts hgreatest
      rw [if_pos (Name.isPrefixOf_iff.mpr hstarts)] at heq
      refine iff_of_true ⟨fun f' => ?_, ?_⟩ ?_
      · rw [heq, Option.some_inj]
        exact ⟨fun h => h ▸ hlongest, hlongest.unique⟩
      · rw [heq]
        exact iff_of_false (Option.some_ne_none f) fun hnone => hnone f hf hstarts
      · rintro ⟨f', hf', g, hg, hlt, hlt'⟩
        rw [← hlongest.unique hf'] at hlt
        exact absurd hlt (not_lt.mpr (hgreatest g hg hlt'.le))
    · rw [if_neg (fun h => hstarts (Name.isPrefixOf_iff.mp h))] at heq
      have hne : f.1 ≠ interestName := fun hself => hstarts (hself ▸ List.prefix_refl f.1)
      constructor
      · rintro hdispatch ⟨f', hf', -⟩
        exact hdispatch.dropped.mp heq f' hf'.1 hf'.2.1
      · intro hshadowed
        have hnone : ∀ g ∈ face.interestFilters.entries, ¬ g.1 <+: interestName := fun g hg hg' => by
          obtain ⟨f', hf'⟩ := exists_longestFor hg hg'
          have hbefore := hgreatest f' hf'.1 (Name.le_of_prefix hf'.2.1)
          have hother : f'.1 ≠ f.1 := fun hsame => hstarts (hsame ▸ hf'.2.1)
          exact hshadowed ⟨f', hf', f, hf, lt_of_le_of_ne hbefore hother, lt_of_le_of_ne hle hne⟩
        refine ⟨fun f' => ?_, iff_of_true heq hnone⟩
        rw [heq]
        exact iff_of_false (fun h => Option.some_ne_none f' h.symm) fun hf' => hnone f' hf'.1 hf'.2.1
  · have hnone : ∀ g ∈ face.interestFilters.entries, ¬ g.1 <+: interestName := fun g hg hg' =>
      absurd (hafter g hg) (not_lt.mpr (Name.le_of_prefix hg'))
    refine iff_of_true ⟨fun f' => ?_, iff_of_true heq hnone⟩ ?_
    · rw [heq]
      exact iff_of_false (fun h => Option.some_ne_none f' h.symm) fun hf' => hnone f' hf'.1 hf'.2.1
    · rintro ⟨f', hf', -⟩
      exact hnone f' hf'.1 hf'.2.1

/-- Filters for `/A` and `/A/B`. -/
def nestedFilters : InternalFace Nat :=
  (new.setInterestFilter [.ofByte 65] 1).setInterestFilter [.ofByte 65, .ofByte 66] 2

/-- An Interest for `/A/C` invokes no handler, although the one for `/A` is above it. -/
theorem nestedFilters_not_dispatched : ¬ nestedFilters.DispatchesLongest [.ofByte 65, .ofByte 67] := fun h =>
  have hnone : nestedFilters.processInterest [.ofByte 65, .ofByte 67] = none := by decide +kernel
  have hmem : ([.ofByte 65], 1) ∈ nestedFilters.interestFilters.entries := by decide +kernel
  h.dropped.mp hnone _ hmem (by decide)

end InternalFace

end NfdPitless
