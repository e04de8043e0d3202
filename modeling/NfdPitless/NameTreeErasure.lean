import NfdPitless.NameTreeStructure

/-! Which entries `eraseEntryIfEmpty` erases: the entry if it is empty, and then each parent that has
nothing attached and no child but the one that was erased before it. -/

namespace NfdPitless.NameTree

variable {cityHash : Component → UInt64} {t : NameTree} {n : Name} {r x : Ref} {e : Entry}

/-- The chain of entries from `start` up the parents in which each is empty once its child is gone. -/
inductive Removed (t : NameTree) (start : Ref) : Ref → Prop where
  | self {e : Entry} : t.entries start = some e → e.isEmpty = true → Removed t start start
  | parent {c p : Ref} : Removed t start c → t.parentOf c = some p → t.childrenOf p = [c] →
      t.attachmentOf p = .bare → Removed t start p

theorem isEmpty_iff (he : t.entries x = some e) :
    e.isEmpty = true ↔ t.childrenOf x = [] ∧ t.attachmentOf x = .bare := by
  have hchildren : t.childrenOf x = e.children := by rw [childrenOf, he]; rfl
  have hattached : t.attachmentOf x = e.attachment := by rw [attachmentOf, he]; rfl
  rw [hchildren, hattached]
  cases hc : e.children <;> cases hf : e.fibEntry <;> cases hp : e.pitEntries <;> cases hm : e.measurementsEntry <;>
    cases hs : e.strategyChoiceEntry <;> simp [Entry.isEmpty, Entry.attachment, Attachment.bare, hc, hf, hp, hm, hs]

/-- There is no chain from an entry that is not empty. -/
theorem Removed.start_empty (h : t.Removed r x) : ∃ e, t.entries r = some e ∧ e.isEmpty = true := by
  induction h with
  | self he hempty => exact ⟨_, he, hempty⟩
  | parent _ _ _ _ ih => exact ih


/-- The chain has ancestors of its start only, whose names are prefixes. -/
theorem Sound.removed_below (h : t.Sound cityHash) (hr : t.nameOf r = some n) (hx : t.Removed r x) :
    ∃ m, t.nameOf x = some m ∧ m <+: n := by
  induction hx with
  | self _ _ => exact ⟨n, hr, List.prefix_rfl⟩
  | parent _ hp _ _ ih =>
      obtain ⟨m, hm, hpre⟩ := ih
      obtain ⟨-, hpn⟩ := h.parent_name hm hp
      exact ⟨m.dropLast, hpn, (List.dropLast_prefix m).trans hpre⟩

theorem removed_self_iff (he : t.entries r = some e) (hempty : e.isEmpty = true) (hp : e.parent = none) :
    t.Removed r x ↔ x = r := by
  constructor
  · intro hx
    induction hx with
    | self _ _ => rfl
    | parent _ hpar _ _ ih =>
        rw [ih, parentOf, he, Option.bind_some, hp] at hpar
        cases hpar
  · rintro rfl
    exact .self he hempty

/-- The only child of a parent that has none once the child is gone. -/
theorem children_of_swapPop {l : List Ref} {c : Ref} (hc : c ∈ l) (hnil : Lists.swapPop l c = []) : l = [c] := by
  have herase : l.erase c = [] := by
    have hperm := Lists.swapPop_perm_erase l c
    rw [hnil] at hperm
    exact hperm.nil_eq.symm
  have hperm := List.perm_cons_erase hc
  rw [herase] at hperm
  exact List.perm_singleton.mp hperm

/-- Above the entry that is erased first, the chain is that of its parent in the tree without it. -/
theorem Sound.removed_parent_iff (h : t.Sound cityHash) (he : t.entries r = some e) (hempty : e.isEmpty = true)
    {p : Ref} (hp : e.parent = some p) : t.Removed r x ↔ x = r ∨ (t.removed r e).Removed p x := by
  have hr : t.nameOf r = some e.entryPrefix := nameOf_eq_some.mpr ⟨e, he, rfl⟩
  have hparent : t.parentOf r = some p := parentOf_eq_some.mpr ⟨e, he, hp⟩
  have hpr := h.parent_ne hr hparent
  have hchild : r ∈ t.childrenOf p := h.mem_children.mpr hparent
  have hattached := congrFun (h.isFresh.removed he hempty).attachmentOf_eq
  obtain ⟨-, hpn⟩ := h.parent_name hr hparent
  have hpn' : (t.removed r e).nameOf p = some e.entryPrefix.dropLast := by rw [removed_nameOf, if_neg hpr, hpn]
  obtain ⟨pe, hpe, -⟩ := nameOf_eq_some.mp hpn'
  have hchildren : (t.removed r e).childrenOf p = Lists.swapPop (t.childrenOf p) r := by
    rw [removed_childrenOf, if_neg hpr, if_pos hp]
  have hothers : ∀ q, q ≠ r → q ≠ p → (t.removed r e).childrenOf q = t.childrenOf q := by
    intro q hqr hqp
    rw [removed_childrenOf, if_neg hqr, if_neg]
    exact fun heq => hqp (Option.some.inj (hp.symm.trans heq)).symm
  have hstored : ∀ {c}, (t.removed r e).Removed p c →
      c ≠ r ∧ ∃ m, t.nameOf c = some m ∧ m <+: e.entryPrefix.dropLast := by
    intro c hc
    obtain ⟨m, hm, hpre⟩ := (h.removed he hempty).removed_below hpn' hc
    rw [removed_nameOf] at hm
    split at hm
    · cases hm
    · rename_i hcr
      exact ⟨hcr, m, hm, hpre⟩
  constructor
  · intro hx
    induction hx with
    | self _ _ => exact Or.inl rfl
    | @parent c q _ hq hone hbare ih =>
        right
        rcases ih with rfl | hc
        · -- the parent of the first entry is the start of the chain without it
          rw [hparent] at hq
          cases hq
          refine .self hpe ((isEmpty_iff hpe).mpr ⟨?_, (hattached p).trans hbare⟩)
          rw [hchildren, hone]
          simp [Lists.swapPop]
        · obtain ⟨hcr, -⟩ := hstored hc
          have hqr : q ≠ r := fun heq => h.no_child he hempty c (heq ▸ hq)
          have hqp : q ≠ p := by
            rintro rfl
            rw [hone] at hchild
            exact hcr (List.mem_singleton.mp hchild).symm
          refine .parent hc ?_ ((hothers q hqr hqp).trans hone) ((hattached q).trans hbare)
          rw [removed_parentOf, if_neg hcr, hq]
  · rintro (rfl | hx)
    · exact .self he hempty
    · induction hx with
      | self hpe' hempty' =>
          obtain ⟨hnil, hbare⟩ := (isEmpty_iff hpe').mp hempty'
          rw [hchildren] at hnil
          exact .parent (.self he hempty) hparent (children_of_swapPop hchild hnil) ((hattached p).symm.trans hbare)
      | @parent c q hc hq hone hbare ih =>
          obtain ⟨hcr, m, hm, hpre⟩ := hstored hc
          rw [removed_parentOf, if_neg hcr] at hq
          have hqr : q ≠ r := fun heq => h.no_child he hempty c (heq ▸ hq)
          have hqp : q ≠ p := by
            rintro rfl
            have hlt := h.parent_shorter hm hq hpn
            have hle := hpre.length_le
            omega
          rw [hothers q hqr hqp] at hone
          exact .parent ih hq hone ((hattached q).symm.trans hbare)

/-- From `t` to `t'` the entries in `gone` are erased, and the others keep their names, parents and
attachments. -/
structure Erases (t t' : NameTree) (gone : Ref → Prop) : Prop where
  erased : ∀ {x}, gone x → t'.entries x = none
  nameOf_eq : ∀ {x}, ¬ gone x → t'.nameOf x = t.nameOf x
  parentOf_eq : ∀ {x}, ¬ gone x → t'.parentOf x = t.parentOf x
  attachmentOf_eq : ∀ {x}, ¬ gone x → t'.attachmentOf x = t.attachmentOf x

theorem Erases.refl (h : ∀ x, ¬ t.Removed r x) : Erases t t (t.Removed r) :=
  ⟨fun hx => absurd hx (h _), fun _ => rfl, fun _ => rfl, fun _ => rfl⟩

theorem Erases.of_entries {t' t'' : NameTree} {gone : Ref → Prop} (h : Erases t t' gone)
    (heq : t''.entries = t'.entries) :
    Erases t t'' gone where
  erased hx := (congrFun heq _).trans (h.erased hx)
  nameOf_eq hx := by
    rw [nameOf, heq]
    exact h.nameOf_eq hx
  parentOf_eq hx := by
    rw [parentOf, heq]
    exact h.parentOf_eq hx
  attachmentOf_eq hx := by
    rw [attachmentOf, heq]
    exact h.attachmentOf_eq hx

theorem Sound.erases_removed (h : t.Sound cityHash) (he : t.entries r = some e) (hempty : e.isEmpty = true) :
    Erases t (t.removed r e) (fun x => x = r) where
  erased hx := by
    rw [removed_entries, if_pos hx]
  nameOf_eq hx := by
    rw [removed_nameOf, if_neg hx]
  parentOf_eq hx := by
    rw [removed_parentOf, if_neg hx]
  attachmentOf_eq _ := congrFun (h.isFresh.removed he hempty).attachmentOf_eq _

theorem Erases.trans {t' t'' : NameTree} {gone gone' : Ref → Prop} (h : Erases t t' gone) (h' : Erases t' t'' gone')
    (hkept : ∀ {x}, gone x → ¬ gone' x → t''.entries x = none) :
    Erases t t'' (fun x => gone x ∨ gone' x) where
  erased {x} hx := by
    by_cases hgone' : gone' x
    · exact h'.erased hgone'
    · exact hkept (hx.resolve_right hgone') hgone'
  nameOf_eq hx := (h'.nameOf_eq fun hg => hx (Or.inr hg)).trans (h.nameOf_eq fun hg => hx (Or.inl hg))
  parentOf_eq hx := (h'.parentOf_eq fun hg => hx (Or.inr hg)).trans (h.parentOf_eq fun hg => hx (Or.inl hg))
  attachmentOf_eq hx :=
    (h'.attachmentOf_eq fun hg => hx (Or.inr hg)).trans (h.attachmentOf_eq fun hg => hx (Or.inl hg))

theorem entries_none_of_nameOf (h : t.nameOf x = none) : t.entries x = none := by
  cases he : t.entries x with
  | none => rfl
  | some e =>
      rw [nameOf_eq_some.mpr ⟨e, he, rfl⟩] at h
      cases h

/-- `eraseEntryIfEmpty` erases the chain and nothing else. -/
theorem Sound.eraseUp_erases (fuel : Nat) : ∀ {t : NameTree} {r : Ref}, t.Sound cityHash →
    (∀ m, t.nameOf r = some m → m.length < fuel) → Erases t (NameTree.eraseUp fuel t r).1 (t.Removed r) := by
  induction fuel with
  | zero =>
      intro t r _ hfuel
      refine Erases.refl fun x hx => ?_
      obtain ⟨e, he, -⟩ := hx.start_empty
      exact absurd (hfuel _ (nameOf_eq_some.mpr ⟨e, he, rfl⟩)) (Nat.not_lt_zero _)
  | succ fuel ih =>
      intro t r h hfuel
      rcases eraseUp_succ_cases fuel t r with ⟨e, he, hempty, hrun⟩ | ⟨hnot, hrun⟩
      · have hfirst := h.erases_removed he hempty
        have hrem := h.removed he hempty
        rw [hrun]
        refine Erases.of_entries ?_ (shrinkIfSparse_entries _)
        cases hp : e.parent with
        | none =>
            have hgone : t.Removed r = fun x => x = r := funext fun x => propext (removed_self_iff he hempty hp)
            rw [hgone]
            exact hfirst
        | some p =>
            have hgone : t.Removed r = fun x => x = r ∨ (t.removed r e).Removed p x :=
              funext fun x => propext (h.removed_parent_iff he hempty hp)
            have hup := ih (r := p) hrem fun m hm => by
              have hlen := hfuel _ (nameOf_eq_some.mpr ⟨e, he, rfl⟩)
              have hlt := h.removed_parent_shorter he hp hm
              omega
            rw [hgone]
            refine hfirst.trans hup fun {x} hx hnot => entries_none_of_nameOf ?_
            refine (hup.nameOf_eq hnot).trans ?_
            rw [removed_nameOf, if_pos hx]
      · rw [hrun]
        refine Erases.refl fun x hx => ?_
        obtain ⟨e, he, hempty⟩ := hx.start_empty
        rw [hnot e he] at hempty
        cases hempty

theorem Sound.eraseEntryIfEmpty_erases (h : t.Sound cityHash) (r : Ref) :
    Erases t (t.eraseEntryIfEmpty r).1 (t.Removed r) := by
  refine Sound.eraseUp_erases _ h fun m hm => ?_
  obtain ⟨e, he, rfl⟩ := nameOf_eq_some.mp hm
  rw [he]
  exact Nat.lt_succ_self _

end NfdPitless.NameTree
