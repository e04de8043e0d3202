import NfdPitless.StrategyMeasurements

/-! What the strategies do to the Measurements table, said once for all of them: entries and items are made and never
destroyed. Access gives an item to each entry that it makes in its namespace; NCC makes entries in other namespaces when
it goes up from its own, and leaves them empty. -/

namespace NfdPitless

open LongestPrefix MeasurementsAccessor

variable {choice : Choice} {t t' t'' : MeasurementsTable} {n me x : Name} {asked asked' : Name → Prop}

namespace MeasurementsTable

def mtInfoOf (t : MeasurementsTable) (n : Name) : Option AccessMtInfo := (t n).bind MeasurementsItems.mtInfo

def measurementsEntryInfoOf (t : MeasurementsTable) (n : Name) : Option NccMeasurementsInfo :=
  (t n).bind MeasurementsItems.measurementsEntryInfo

theorem get_apply (t : MeasurementsTable) (n x : Name) :
    t.get n x = if x = n then some ((t n).getD .empty) else t x := by
  rw [get]
  split
  · rename_i hsome
    obtain ⟨items, hitems⟩ := Option.isSome_iff_exists.mp hsome
    by_cases hx : x = n
    · rw [if_pos hx, hx, hitems, Option.getD_some]
    · rw [if_neg hx]
  · rename_i hnone
    rw [Option.not_isSome_iff_eq_none] at hnone
    rw [hnone, Option.getD_none, Function.update_apply]

/-- A new entry has no items. -/
theorem get_bind {γ : Type} {g : MeasurementsItems → Option γ} (hempty : g .empty = none) :
    (t.get n x).bind g = (t x).bind g := by
  rw [get_apply]
  split
  · rename_i hx
    rw [hx]
    cases t n with
    | none => exact hempty
    | some items => rfl
  · rfl

theorem modify_apply (t : MeasurementsTable) (n x : Name) (f : MeasurementsItems → MeasurementsItems) :
    t.modify n f x = if x = n then (t n).map f else t x := by
  rw [modify, Function.update_apply]

/-- An item that a change of the entries keeps. -/
theorem modify_bind_isSome {γ : Type} {g : MeasurementsItems → Option γ} {f : MeasurementsItems → MeasurementsItems}
    (hf : ∀ items, (g items).isSome → (g (f items)).isSome) (hx : ((t x).bind g).isSome) :
    ((t.modify n f x).bind g).isSome := by
  rw [modify_apply]
  split
  · rename_i hxn
    rw [hxn] at hx
    cases hitems : t n with
    | none =>
        rw [hitems] at hx
        cases hx
    | some items =>
        rw [hitems] at hx
        exact hf items hx
  · exact hx

end MeasurementsTable

open MeasurementsTable

/-- The entry that an accessor finds is in the namespace of its strategy. -/
theorem findLongestPrefixMatch_spec {strategy : Strategy} (h : findLongestPrefixMatch choice strategy t n = some me) :
    longest choice me = some strategy ∧ (t me).isSome := by
  obtain ⟨hmatch, heff⟩ := Option.filter_eq_some_iff.mp h
  rw [decide_eq_true_iff] at heff
  obtain ⟨p, -, hp⟩ := longest_eq_some_iff.mp hmatch
  obtain ⟨items, hitems, rfl⟩ := Option.map_eq_some_iff.mp hp
  exact ⟨heff, hitems ▸ rfl⟩

/-- The assertions that may fail: all but the one that an entry of access has its item. -/
def OtherThanMtInfo (a : MeasurementsAssertion) : Prop := a ≠ .mtInfo

/-- From `t` to `t'` a strategy used the table. In the namespace of access, the entries that it made have an item there,
or are among those that were asked for. -/
structure Measured (choice : Choice) (asked : Name → Prop) (t t' : MeasurementsTable) : Prop where
  kept : ∀ x, (t x).isSome → (t' x).isSome
  mtInfo : ∀ x, (t.mtInfoOf x).isSome → (t'.mtInfoOf x).isSome
  info : ∀ x, (t.measurementsEntryInfoOf x).isSome → (t'.measurementsEntryInfoOf x).isSome
  made : ∀ x, longest choice x = some .access → (t' x).isSome → (t x).isSome ∨ asked x ∨ (t'.mtInfoOf x).isSome

namespace Measured

theorem refl (asked : Name → Prop) (t : MeasurementsTable) : Measured choice asked t t where
  kept _ h := h
  mtInfo _ h := h
  info _ h := h
  made _ _ h := Or.inl h

theorem trans (h : Measured choice asked t t') (h' : Measured choice asked t' t'') : Measured choice asked t t'' where
  kept x hx := h'.kept x (h.kept x hx)
  mtInfo x hx := h'.mtInfo x (h.mtInfo x hx)
  info x hx := h'.info x (h.info x hx)
  made x heff hx := by
    rcases h'.made x heff hx with hmid | hasked | hitem
    · rcases h.made x heff hmid with hold | hasked | hitem
      · exact Or.inl hold
      · exact Or.inr (Or.inl hasked)
      · exact Or.inr (Or.inr (h'.mtInfo x hitem))
    · exact Or.inr (Or.inl hasked)
    · exact Or.inr (Or.inr hitem)

theorem mono (h : Measured choice asked t t') (hasked : ∀ x, longest choice x = some .access → asked x → asked' x) :
    Measured choice asked' t t' where
  kept := h.kept
  mtInfo := h.mtInfo
  info := h.info
  made x heff hx := (h.made x heff hx).imp_right (Or.imp_left (hasked x heff))

theorem get (t : MeasurementsTable) (n : Name) : Measured choice (fun x => x = n) t (t.get n) where
  kept x hx := by
    rw [get_apply]
    split
    · rfl
    · exact hx
  mtInfo x hx := by
    rw [mtInfoOf, get_bind rfl]
    exact hx
  info x hx := by
    rw [measurementsEntryInfoOf, get_bind rfl]
    exact hx
  made x _ hx := by
    rw [get_apply] at hx
    split at hx
    · rename_i hxn
      exact Or.inr (Or.inl hxn)
    · exact Or.inl hx

/-- An entry outside the namespace of access is asked for. -/
theorem get_of_ne (t : MeasurementsTable) (hne : longest choice n ≠ some .access) : Measured choice asked t (t.get n) :=
  (get t n).mono fun _ hx hxn => absurd (hxn ▸ hx) hne

/-- The entry that was asked for has been given an item. -/
theorem settle (h : Measured choice (fun x => x = me) t t') (hitem : (t'.mtInfoOf me).isSome) :
    Measured choice asked t t' where
  kept := h.kept
  mtInfo := h.mtInfo
  info := h.info
  made x heff hx := by
    rcases h.made x heff hx with hold | rfl | hmade
    · exact Or.inl hold
    · exact Or.inr (Or.inr hitem)
    · exact Or.inr (Or.inr hmade)

/-- The items of one entry change, and none is destroyed. -/
theorem modify (t : MeasurementsTable) (n : Name) {f : MeasurementsItems → MeasurementsItems}
    (hmtInfo : ∀ items, items.mtInfo.isSome → (f items).mtInfo.isSome)
    (hinfo : ∀ items, items.measurementsEntryInfo.isSome → (f items).measurementsEntryInfo.isSome) :
    Measured choice asked t (t.modify n f) where
  kept x hx := by
    rw [modify_apply]
    split
    · rename_i hxn
      rwa [Option.isSome_map, ← hxn]
    · exact hx
  mtInfo _ hx := modify_bind_isSome hmtInfo hx
  info _ hx := modify_bind_isSome hinfo hx
  made x _ hx := by
    rw [modify_apply] at hx
    split at hx
    · rename_i hxn
      rw [Option.isSome_map, ← hxn] at hx
      exact Or.inl hx
    · exact Or.inl hx

end Measured

/-! ### NCC -/

namespace NccStrategy

/-- `getMeasurementsEntryInfo` of the entry of the first `k` components of `n` goes up to the entry of `x`, whose
effective strategy is another one. -/
def LeavesAt (choice : Choice) (t : MeasurementsTable) (n : Name) : Nat → Name → Prop
  | 0, _ => False
  | k + 1, x => t.measurementsEntryInfoOf (n.getPrefix (k + 1)) = none ∧
      if longest choice (n.getPrefix k) = some .ncc then LeavesAt choice t n k x else x = n.getPrefix k

/-- The loop over the levels, from the entry of `me` on, gets to the entry of `x`, whose effective strategy is another
one. -/
def LevelsLeaveAt (choice : Choice) (t : MeasurementsTable) : Nat → Name → Name → Prop
  | 0, me, x => longest choice me ≠ some .ncc ∧ x = me
  | levels + 1, me, x =>
      if longest choice me = some .ncc then
        LeavesAt choice t me me.length x ∨
          me.length ≠ 0 ∧ LevelsLeaveAt choice t levels (me.getPrefix (me.length - 1)) x
      else x = me

theorem setMeasurementsEntryInfo_measured (t : MeasurementsTable) (n : Name) (info : NccMeasurementsInfo) :
    Measured choice asked t (setMeasurementsEntryInfo t n info) :=
  Measured.modify t n (fun _ h => h) fun _ _ => rfl

/-- Where more entries have the item, there is less to go up. -/
theorem LeavesAt.of_measured (h : Measured choice asked t t') {k : Nat} (hleaves : LeavesAt choice t' n k x) :
    LeavesAt choice t n k x := by
  induction k with
  | zero => exact hleaves
  | succ k ih =>
      obtain ⟨hnone, hnext⟩ := hleaves
      refine ⟨?_, ?_⟩
      · by_contra hsome
        have hkept := h.info _ (Option.ne_none_iff_isSome.mp hsome)
        rw [hnone] at hkept
        cases hkept
      · split
        · rename_i heff
          rw [if_pos heff] at hnext
          exact ih hnext
        · rename_i heff
          rw [if_neg heff] at hnext
          exact hnext

theorem LevelsLeaveAt.of_measured (h : Measured choice asked t t') {levels : Nat} {me : Name}
    (hleave : LevelsLeaveAt choice t' levels me x) : LevelsLeaveAt choice t levels me x := by
  induction levels generalizing me with
  | zero => exact hleave
  | succ levels ih =>
      rw [LevelsLeaveAt] at hleave ⊢
      split
      · rename_i heff
        rw [if_pos heff] at hleave
        exact hleave.imp (LeavesAt.of_measured h) fun hnext => ⟨hnext.1, ih hnext.2⟩
      · rename_i heff
        rw [if_neg heff] at hleave
        exact hleave

/-- The parent is asked for. -/
theorem LeavesAt.of_parent {k : Nat} (hnone : t.measurementsEntryInfoOf (n.getPrefix (k + 1)) = none)
    (hx : longest choice x = some .access) (hparent : x = n.getPrefix k) : LeavesAt choice t n (k + 1) x := by
  refine ⟨hnone, ?_⟩
  rw [if_neg (by rw [← hparent, hx]; simp)]
  exact hparent

theorem getMeasurementsEntryInfo_measured (t : MeasurementsTable) (n : Name) (k : Nat) :
    Measured choice (LeavesAt choice t n k) t (getMeasurementsEntryInfo choice n k t).1 := by
  induction k generalizing t with
  | zero =>
      rw [getMeasurementsEntryInfo]
      split
      · exact Measured.refl _ t
      · exact setMeasurementsEntryInfo_measured t _ _
  | succ k ih =>
      rw [getMeasurementsEntryInfo]
      split
      · exact Measured.refl _ t
      · rename_i hnone
        have hcreated : Measured choice (LeavesAt choice t n (k + 1)) t
            (setMeasurementsEntryInfo t (n.getPrefix (k + 1)) newMeasurementsEntryInfo) :=
          setMeasurementsEntryInfo_measured t _ _
        have hgot := hcreated.trans ((Measured.get _ (n.getPrefix k)).mono fun x => LeavesAt.of_parent hnone)
        dsimp only
        rw [MeasurementsAccessor.get, filter_some]
        by_cases heff : longest choice (n.getPrefix k) = some .ncc
        · rw [if_pos heff]
          refine hgot.trans (((ih _).mono fun x _ hleaves => ?_).trans (setMeasurementsEntryInfo_measured _ _ _))
          refine ⟨hnone, ?_⟩
          rw [if_pos heff]
          exact hleaves.of_measured hgot
        · rw [if_neg heff]
          exact hgot

/-- The overload by PIT entry. -/
theorem getMeasurementsEntryInfoOfPit_measured (t : MeasurementsTable) (n : Name) :
    Ends OtherThanMtInfo (fun result => Measured choice (LeavesAt choice t n n.length) t result.1)
      (getMeasurementsEntryInfoOfPit choice t n) := by
  rw [getMeasurementsEntryInfoOfPit, MeasurementsAccessor.get, filter_some]
  by_cases heff : longest choice n = some .ncc
  · rw [if_pos heff]
    have hgot : Measured choice (LeavesAt choice t n n.length) t (t.get n) :=
      Measured.get_of_ne t (by simp [heff])
    exact hgot.trans ((getMeasurementsEntryInfo_measured _ n n.length).mono fun x _ hleaves => hleaves.of_measured hgot)
  · rw [if_neg heff]
    exact MeasurementsAssertion.noConfusion

theorem updateLevels_none (update : NccMeasurementsInfo → NccMeasurementsInfo) (levels : Nat) (t : MeasurementsTable) :
    updateLevels choice update levels (t, none) = t := by
  cases levels with
  | zero => rfl
  | succ levels => rfl

theorem updateLevels_measured (update : NccMeasurementsInfo → NccMeasurementsInfo) (levels : Nat)
    (t : MeasurementsTable) (me : Name) :
    Measured choice (LevelsLeaveAt choice t levels me) t
      (updateLevels choice update levels (get choice .ncc t me)) := by
  induction levels generalizing t me with
  | zero =>
      refine (Measured.get t me).mono fun x hx hxme => ⟨?_, hxme⟩
      rw [← hxme, hx]
      simp
  | succ levels ih =>
      rw [MeasurementsAccessor.get, filter_some]
      by_cases heff : longest choice me = some .ncc
      · rw [if_pos heff, updateLevels]
        have hgot : Measured choice (LevelsLeaveAt choice t (levels + 1) me) t (t.get me) :=
          Measured.get_of_ne t (by simp [heff])
        have hfound : Measured choice (LevelsLeaveAt choice t (levels + 1) me) (t.get me)
            (getMeasurementsEntryInfo choice me me.length (t.get me)).1 := by
          refine (getMeasurementsEntryInfo_measured _ me me.length).mono fun x _ hleaves => ?_
          rw [LevelsLeaveAt, if_pos heff]
          exact Or.inl (hleaves.of_measured hgot)
        have hset := hgot.trans (hfound.trans (setMeasurementsEntryInfo_measured _ me
          (update (getMeasurementsEntryInfo choice me me.length (t.get me)).2)))
        rw [getParent]
        split
        · rw [updateLevels_none]
          exact hset
        · rename_i hlength
          refine hset.trans ((ih _ _).mono fun x _ hleave => ?_)
          rw [LevelsLeaveAt, if_pos heff]
          exact Or.inr ⟨hlength, hleave.of_measured hset⟩
      · rw [if_neg heff, updateLevels_none]
        refine (Measured.get t me).mono fun x _ hx => ?_
        rw [LevelsLeaveAt, if_neg heff]
        exact hx

end NccStrategy

namespace AccessStrategy

variable {dataName : Name} {inFace : Option Nat} {rto : Nat}

/-- Which entry it is depends on the strategies only. -/
theorem prefixEntry_snd (t t' : MeasurementsTable) (dataName : Name) :
    (prefixEntry choice t dataName).2 = (prefixEntry choice t' dataName).2 := by
  rw [prefixEntry, prefixEntry]
  by_cases hlength : dataName.length ≥ 1
  · rw [if_pos hlength, if_pos hlength, MeasurementsAccessor.get, MeasurementsAccessor.get]
    cases filter choice .access (some (dataName.getPrefix (dataName.length - 1))) with
    | none => rfl
    | some me => rfl
  · rw [if_neg hlength, if_neg hlength]
    rfl

theorem get_measured (h : get choice .access t n = (t', some me)) :
    Measured choice (fun x => x = me) t t' ∧ (t' me).isSome := by
  rw [MeasurementsAccessor.get, filter_some] at h
  split at h
  · cases h
    refine ⟨Measured.get t n, ?_⟩
    rw [get_apply, if_pos rfl]
    rfl
  · cases h

theorem prefixEntry_measured (h : prefixEntry choice t dataName = (t', some me)) :
    Measured choice (fun x => x = me) t t' ∧ (t' me).isSome := by
  rw [prefixEntry] at h
  by_cases hlength : dataName.length ≥ 1
  · rw [if_pos hlength] at h
    split at h
    · rename_i hparent
      cases h
      exact get_measured hparent
    · rename_i t₁ hparent
      obtain ⟨hmeasured, hsome⟩ := get_measured h
      refine ⟨Measured.trans ?_ hmeasured, hsome⟩
      rw [MeasurementsAccessor.get, filter_some] at hparent
      split at hparent
      · cases hparent
      · rename_i hne
        cases hparent
        exact Measured.get_of_ne t hne
  · rw [if_neg hlength] at h
    exact get_measured h

theorem setMtInfo_measured (t : MeasurementsTable) (me : Name) (mi : MeasurementsItems → AccessMtInfo) :
    Measured choice asked t (t.modify me fun items => { items with mtInfo := some (mi items) }) :=
  Measured.modify t me (fun _ _ => rfl) fun _ h => h

/-- The measurements of a Data end up in the entry that is found or made for them. -/
theorem updateMeasurements_measured : Ends OtherThanMtInfo
    (fun t' => Measured choice asked t t' ∧ ∀ me, (prefixEntry choice t dataName).2 = some me → (t'.mtInfoOf me).isSome)
    (updateMeasurements choice t inFace dataName rto) := by
  rw [updateMeasurements, addPrefixMeasurements]
  split
  · exact MeasurementsAssertion.noConfusion
  · rename_i t₁ me hentry
    obtain ⟨hmeasured, hsome⟩ := prefixEntry_measured hentry
    obtain ⟨items, hitems⟩ := Option.isSome_iff_exists.mp hsome
    have hmodified : Measured choice (fun x => x = me) t ((t₁.modify me fun items =>
        { items with mtInfo := some (items.mtInfo.getD newMtInfo) }).modify me fun items =>
          { items with mtInfo := some ⟨inFace, rto⟩ }) :=
      hmeasured.trans ((setMtInfo_measured t₁ me _).trans (setMtInfo_measured _ me _))
    have hitem : (((t₁.modify me fun items => { items with mtInfo := some (items.mtInfo.getD newMtInfo) }).modify me
        fun items => { items with mtInfo := some ⟨inFace, rto⟩ }).mtInfoOf me).isSome := by
      rw [mtInfoOf, modify_apply, if_pos rfl, modify_apply, if_pos rfl, hitems]
      rfl
    refine ⟨hmodified.settle hitem, fun me' hme' => ?_⟩
    rw [hentry] at hme'
    cases hme'
    exact hitem

end AccessStrategy
end NfdPitless
