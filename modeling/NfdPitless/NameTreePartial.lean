import NfdPitless.NameTreeIntegrity
import NfdPitless.TreeWalk
import Mathlib.Data.List.MinMax

/-! A partial enumeration of the name tree (`NameTree::partialEnumerate`): the entries below a prefix in pre-order. A
selector says of each entry whether it is visited and whether its children are. -/

namespace NfdPitless.NameTree

variable {cityHash : Component → UInt64} {t : NameTree} {n p : Name} {r x : Ref} {sel : Ref → Bool × Bool}

/-- A predicate to accept or reject an entry and its children. -/
abbrev EntrySubTreeSelector := Ref → Bool × Bool

/-- What an iteration over `partialEnumerate` visits; `none` if it does not come to the end, or an entry is not among
the children of its parent. Between two entries it makes no more moves than there are pointers twice. -/
def partialEnumerate (cityHash : Component → UInt64) (t : NameTree) (entryPrefix : Name)
    (entrySubTreeSelector : EntrySubTreeSelector) : Option (List Ref) :=
  match t.findExactMatch cityHash entryPrefix with
  | none => some []
  | some entry => TreeWalk.walk t.childrenOf t.parentOf entrySubTreeSelector entry (2 * t.nextRef)

/-- The length of the name of an entry. -/
def depthOf (t : NameTree) (r : Ref) : Nat := (t.nameOf r).elim 0 List.length

theorem depthOf_eq (hr : t.nameOf r = some n) : t.depthOf r = n.length := by rw [depthOf, hr, Option.elim_some]

theorem Sound.child_name (h : t.Sound cityHash) {c : Ref} (hr : t.nameOf r = some n) (hc : c ∈ t.childrenOf r) :
    ∃ comp, t.nameOf c = some (n ++ [comp]) := by
  have hparent := h.mem_children.mp hc
  obtain ⟨e, he, -⟩ := parentOf_eq_some.mp hparent
  have hname : t.nameOf c = some e.entryPrefix := nameOf_eq_some.mpr ⟨e, he, rfl⟩
  cases hm : e.entryPrefix using List.reverseRecOn with
  | nil =>
      rw [hm] at hname
      rw [h.parent_root hname] at hparent
      cases hparent
  | append_singleton l comp =>
      rw [hm] at hname
      obtain ⟨q, hq, hqn⟩ := h.parent_cons hname (by simp)
      rw [hparent] at hq
      cases hq
      rw [hr, List.dropLast_concat] at hqn
      cases hqn
      exact ⟨comp, hname⟩

/-- The entries below one, and on the way only those whose children are visited. -/
theorem Sound.reached_iff (h : t.Sound cityHash) (hr : t.nameOf r = some p) :
    TreeWalk.Reached t.childrenOf sel r x ↔ ∃ n, t.nameOf x = some n ∧ p <+: n ∧
      ∀ y m, t.nameOf y = some m → p <+: m → m <+: n → m ≠ n → (sel y).2 = true := by
  constructor
  · intro hx
    induction hx with
    | root =>
        refine ⟨p, hr, List.prefix_refl p, fun y m _ hpm hmp hne => absurd ?_ hne⟩
        exact hmp.eq_of_length (Nat.le_antisymm hmp.length_le hpm.length_le)
    | @child q c _ hsel hc ih =>
        obtain ⟨n, hq, hpn, hbetween⟩ := ih
        obtain ⟨comp, hcn⟩ := h.child_name hq hc
        refine ⟨n ++ [comp], hcn, hpn.trans (List.prefix_append n [comp]), fun y m hy hpm hmn hne => ?_⟩
        have hmn' := (List.prefix_concat_iff.mp hmn).resolve_left hne
        by_cases heq : m = n
        · rw [heq] at hy
          rw [h.nameOf_inj hy hq]
          exact hsel
        · exact hbetween y m hy hpm hmn' heq
  · rintro ⟨n, hx, hpn, hbetween⟩
    induction n using List.reverseRecOn generalizing x with
    | nil =>
        rw [List.prefix_nil.mp hpn] at hr
        rw [h.nameOf_inj hx hr]
        exact .root
    | append_singleton l comp ih =>
        rcases List.prefix_concat_iff.mp hpn with heq | hpl
        · rw [heq] at hr
          rw [h.nameOf_inj hx hr]
          exact .root
        · obtain ⟨q, hq, hqn⟩ := h.parent_cons hx (by simp)
          rw [List.dropLast_concat] at hqn
          have hlt : l ≠ l ++ [comp] := fun heq => by
            have hlength := congrArg List.length heq
            rw [List.length_append, List.length_singleton] at hlength
            omega
          refine .child (ih hqn hpl fun y m hy hpm hml hne => ?_) ?_ (h.mem_children.mpr hq)
          · refine hbetween y m hy hpm (hml.trans (List.prefix_append l [comp])) ?_
            rintro rfl
            have hlength := hml.length_le
            rw [List.length_append, List.length_singleton] at hlength
            omega
          · exact hbetween q l hqn hpl (List.prefix_append l [comp]) hlt

theorem Sound.tree (h : t.Sound cityHash) (hr : t.nameOf r = some p) (sel : Ref → Bool × Bool) :
    TreeWalk.Tree t.childrenOf t.parentOf sel t.depthOf r where
  parent_eq _ hc := h.mem_children.mp hc
  nodup _ := h.children_nodup _
  deeper hp hc := by
    obtain ⟨m, hm, -⟩ := (h.reached_iff hr).mp hp
    obtain ⟨comp, hcn⟩ := h.child_name hm hc
    rw [depthOf_eq hm, depthOf_eq hcn, List.length_append, List.length_singleton]
    exact Nat.lt_succ_self _

/-- More than the length of every name. -/
def height (t : NameTree) : Nat := ((List.range t.nextRef).map t.depthOf).foldr max 0 + 1

theorem Sound.depthOf_lt_height (h : t.Sound cityHash) (hx : t.nameOf x = some n) : t.depthOf x < t.height :=
  Nat.lt_succ_of_le (List.le_max_of_le' 0 (List.mem_map_of_mem (List.mem_range.mpr (h.fresh hx))) (Nat.le_refl _))

theorem Sound.depthOf_reached (h : t.Sound cityHash) (hr : t.nameOf r = some p) :
    ∀ x, TreeWalk.Reached t.childrenOf sel r x → t.depthOf x < t.height := by
  intro x hx
  obtain ⟨n, hn, -⟩ := (h.reached_iff hr).mp hx
  exact h.depthOf_lt_height hn

/-- The enumeration from a stored prefix comes to its end and visits the selected entries of those below it that a
pre-order comes to. -/
theorem Sound.partialEnumerate_nodes (h : t.Sound cityHash) (hr : t.nameOf r = some p) (sel : Ref → Bool × Bool) :
    t.partialEnumerate cityHash p sel =
      some ((TreeWalk.nodes t.childrenOf sel (t.height + 1) r).filter fun x => (sel x).1) := by
  have hsize : ∀ l : List Ref, l.Nodup → (∀ x ∈ l, TreeWalk.Reached t.childrenOf sel r x) → l.length ≤ t.nextRef := by
    intro l hnodup hl
    have hlt : ∀ x ∈ l, x ∈ List.range t.nextRef := by
      intro x hx
      obtain ⟨n, hn, -⟩ := (h.reached_iff hr).mp (hl x hx)
      exact List.mem_range.mpr (h.fresh hn)
    calc l.length ≤ (List.range t.nextRef).length := (hnodup.subperm hlt).length_le
      _ = t.nextRef := List.length_range
  rw [partialEnumerate, h.findExactMatch_eq_some.mpr hr]
  exact (h.tree hr sel).walk_nodes (h.depthOf_reached hr) hsize (Nat.le_refl _)

/-- It visits every entry once that is below the prefix and selected, unless the children of an entry on the way are not
visited. -/
theorem Sound.partialEnumerate_eq (h : t.Sound cityHash) (hr : t.nameOf r = some p) (sel : Ref → Bool × Bool) :
    ∃ visited, t.partialEnumerate cityHash p sel = some visited ∧ visited.Nodup ∧
      ∀ x, x ∈ visited ↔ (∃ n, t.nameOf x = some n ∧ p <+: n ∧
        ∀ y m, t.nameOf y = some m → p <+: m → m <+: n → m ≠ n → (sel y).2 = true) ∧ (sel x).1 = true := by
  have hdeep : ∀ x, TreeWalk.Reached t.childrenOf sel r x → t.depthOf x < t.depthOf r + (t.height + 1) := by
    intro x hx
    have := h.depthOf_reached hr x hx
    omega
  have ht := h.tree hr sel
  refine ⟨_, h.partialEnumerate_nodes hr sel, (ht.nodup_nodes (t.height + 1) .root).filter _, fun x => ?_⟩
  rw [List.mem_filter, ht.mem_nodes hdeep, h.reached_iff hr]

end NfdPitless.NameTree
