import Mathlib.Data.List.Infix

/-! The tree a set of lists forms under the prefix order: the parent of a list is the longest proper
prefix of it in the set, and its children are the members with no other member in between. The list
itself need not be in the set. -/

namespace NfdPitless.PrefixTree

variable {α : Type} {S S' : List α → Prop} {a c d m n p q x : List α}

/-- `p` is the longest proper prefix of `n` in `S`. -/
def IsParent (S : List α → Prop) (p n : List α) : Prop :=
  S p ∧ p <+: n ∧ p ≠ n ∧ ∀ q, S q → q <+: n → q ≠ n → q <+: p

/-- `d` is a member below `c` with no other member in between. -/
def IsChild (S : List α → Prop) (c d : List α) : Prop :=
  S d ∧ c <+: d ∧ c ≠ d ∧ ∀ a, S a → c <+: a → c ≠ a → a <+: d → a = d

theorem prefix_antisymm (h : a <+: c) (h' : c <+: a) : a = c :=
  h.eq_of_length (le_antisymm h.length_le h'.length_le)

theorem prefix_total (h : a <+: n) (h' : c <+: n) : a <+: c ∨ c <+: a := List.prefix_or_prefix_of_prefix h h'

theorem IsParent.unique (h : IsParent S p n) (h' : IsParent S q n) : p = q :=
  prefix_antisymm (h'.2.2.2 p h.1 h.2.1 h.2.2.1) (h.2.2.2 q h'.1 h'.2.1 h'.2.2.1)

/-- A member that is a proper prefix makes a parent: the longest one. -/
theorem exists_isParent (hq : S q) (hqn : q <+: n) (hne : q ≠ n) : ∃ p, IsParent S p n := by
  -- induction on how much longer than `q` a member may be
  induction hk : n.length - q.length using Nat.strong_induction_on generalizing q with
  | _ k ih =>
      by_cases hlonger : ∃ r, S r ∧ r <+: n ∧ r ≠ n ∧ ¬ r <+: q
      · obtain ⟨r, hr, hrn, hrne, hrq⟩ := hlonger
        have hqr : q <+: r := (prefix_total hqn hrn).resolve_right hrq
        have hlt : q.length < r.length :=
          lt_of_le_of_ne hqr.length_le fun hlen => hrq (hqr.eq_of_length hlen ▸ List.prefix_refl r)
        have hle := hrn.length_le
        exact ih (n.length - r.length) (by omega) hr hrn hrne rfl
      · exact ⟨q, hq, hqn, hne, fun r hr hrn hrne => by_contra fun hrq => hlonger ⟨r, hr, hrn, hrne, hrq⟩⟩

/-- Below a list, the path to a member starts at one of the children. -/
theorem exists_isChild (hm : S m) (hcm : c <+: m) (hne : c ≠ m) : ∃ d, IsChild S c d ∧ d <+: m := by
  induction hk : m.length using Nat.strong_induction_on generalizing m with
  | _ k ih =>
      by_cases hshorter : ∃ a, S a ∧ c <+: a ∧ c ≠ a ∧ a <+: m ∧ a ≠ m
      · obtain ⟨a, ha, hca, hcne, ham, hame⟩ := hshorter
        have hlt : a.length < m.length :=
          lt_of_le_of_ne ham.length_le fun hlen => hame (ham.eq_of_length hlen)
        obtain ⟨d, hd, hda⟩ := ih a.length (hk ▸ hlt) ha hca hcne rfl
        exact ⟨d, hd, hda.trans ham⟩
      · refine ⟨m, ⟨hm, hcm, hne, fun a ha hca hcne ham => ?_⟩, List.prefix_refl m⟩
        exact by_contra fun hame => hshorter ⟨a, ha, hca, hcne, ham, hame⟩

/-- The first child on the path to `m` is a prefix of every member on the path. -/
theorem IsChild.prefix_of_path (hd : IsChild S c d) (hdm : d <+: m) (ha : S a) (hca : c <+: a) (hcne : c ≠ a)
    (ham : a <+: m) : d <+: a := by
  rcases prefix_total hdm ham with h | h
  · exact h
  · exact hd.2.2.2 a ha hca hcne h ▸ List.prefix_refl a

theorem IsChild.unique (hd : IsChild S c d) (ha : IsChild S c a) (hdm : d <+: m) (ham : a <+: m) : d = a :=
  prefix_antisymm (hd.prefix_of_path hdm ha.1 ha.2.1 ha.2.2.1 ham)
    (ha.prefix_of_path ham hd.1 hd.2.1 hd.2.2.1 hdm)

theorem isChild_iff_isParent (hc : S c) : IsChild S c d ↔ S d ∧ IsParent S c d := by
  constructor
  · intro h
    refine ⟨h.1, hc, h.2.1, h.2.2.1, fun q hq hqd hqne => ?_⟩
    rcases prefix_total hqd h.2.1 with hqc | hcq
    · exact hqc
    · by_cases hcq' : c = q
      · exact hcq' ▸ List.prefix_refl c
      · exact absurd (h.2.2.2 q hq hcq hcq' hqd) hqne
  · rintro ⟨hd, h⟩
    refine ⟨hd, h.2.1, h.2.2.1, fun a ha hca hcne had => by_contra fun hane => ?_⟩
    exact hcne (prefix_antisymm hca (h.2.2.2 a ha had hane))

/-- A list that is not in the set has the same parent as its children. -/
theorem isChild_iff_same_parent (hc : ¬ S c) (hd : S d) (hcd : c <+: d) :
    IsChild S c d ↔ ∀ p, IsParent S p d ↔ IsParent S p c := by
  have hne : c ≠ d := fun h => hc (h ▸ hd)
  constructor
  · intro h p
    have hsame : ∀ q, S q → (q <+: d ∧ q ≠ d ↔ q <+: c ∧ q ≠ c) := by
      intro q hq
      have hqc : q ≠ c := fun heq => hc (heq ▸ hq)
      constructor
      · rintro ⟨hqd, hqne⟩
        rcases prefix_total hqd hcd with h' | h'
        · exact ⟨h', hqc⟩
        · exact absurd (h.2.2.2 q hq h' (Ne.symm hqc) hqd) hqne
      · rintro ⟨hqc', -⟩
        refine ⟨hqc'.trans hcd, fun heq => hne (prefix_antisymm hcd (heq ▸ hqc'))⟩
    constructor
    · rintro ⟨hp, hpd, hpne, hlongest⟩
      obtain ⟨hpc, hpc'⟩ := (hsame p hp).mp ⟨hpd, hpne⟩
      refine ⟨hp, hpc, hpc', fun q hq hqc hqne => ?_⟩
      obtain ⟨hqd, hqne'⟩ := (hsame q hq).mpr ⟨hqc, hqne⟩
      exact hlongest q hq hqd hqne'
    · rintro ⟨hp, hpc, hpne, hlongest⟩
      obtain ⟨hpd, hpne'⟩ := (hsame p hp).mpr ⟨hpc, hpne⟩
      refine ⟨hp, hpd, hpne', fun q hq hqd hqne => ?_⟩
      obtain ⟨hqc, hqne'⟩ := (hsame q hq).mp ⟨hqd, hqne⟩
      exact hlongest q hq hqc hqne'
  · intro h
    refine ⟨hd, hcd, hne, fun a ha hca hcne had => by_contra fun hane => ?_⟩
    obtain ⟨p, hp⟩ := exists_isParent ha had hane
    exact hcne (prefix_antisymm hca ((hp.2.2.2 a ha had hane).trans ((h p).mp hp).2.1))

/-- `S'` is `S` with `n` added. -/
def Adds (S S' : List α → Prop) (n : List α) : Prop := ∀ x, S' x ↔ S x ∨ x = n

theorem Adds.isChild_self (h : Adds S S' n) : IsChild S' n x ↔ IsChild S n x := by
  unfold IsChild
  constructor
  · rintro ⟨hx, hnx, hne, hfirst⟩
    exact ⟨((h x).mp hx).resolve_right (Ne.symm hne), hnx, hne, fun a ha => hfirst a ((h a).mpr (Or.inl ha))⟩
  · rintro ⟨hx, hnx, hne, hfirst⟩
    refine ⟨(h x).mpr (Or.inl hx), hnx, hne, fun a ha hna hnea => ?_⟩
    exact hfirst a (((h a).mp ha).resolve_right (Ne.symm hnea)) hna hnea

/-- The members below the new one that had its parent get it as their parent. -/
theorem Adds.isParent_of_isChild (h : Adds S S' n) (hx : IsChild S n x) : IsParent S' n x :=
  ((isChild_iff_isParent ((h n).mpr (Or.inr rfl))).mp (h.isChild_self.mpr hx)).2

theorem Adds.isParent_of_not_isChild (h : Adds S S' n) (hn : ¬ S n) (hx : S x ∨ x = n) (hnot : ¬ IsChild S n x) :
    IsParent S' p x ↔ IsParent S p x := by
  have hcover : ∀ q, S' q → q <+: x → q ≠ x → S q ∨ ∃ r, S r ∧ r <+: x ∧ r ≠ x ∧ q <+: r := by
    intro q hq hqx hqne
    rcases (h q).mp hq with hq | rfl
    · exact Or.inl hq
    · have hSx : S x := hx.resolve_right (Ne.symm hqne)
      obtain ⟨d, hd, hdx⟩ := exists_isChild hSx hqx hqne
      have hdne : d ≠ x := fun heq => hnot (heq ▸ hd)
      exact Or.inr ⟨d, hd.1, hdx, hdne, hd.2.1⟩
  constructor
  · rintro ⟨hp, hpx, hpne, hlongest⟩
    have hlongest' : ∀ q, S q → q <+: x → q ≠ x → q <+: p := fun q hq => hlongest q ((h q).mpr (Or.inl hq))
    rcases hcover p hp hpx hpne with hSp | ⟨r, hr, hrx, hrne, hpr⟩
    · exact ⟨hSp, hpx, hpne, hlongest'⟩
    · have heq : p = r := prefix_antisymm hpr (hlongest' r hr hrx hrne)
      exact ⟨heq ▸ hr, hpx, hpne, hlongest'⟩
  · rintro ⟨hp, hpx, hpne, hlongest⟩
    refine ⟨(h p).mpr (Or.inl hp), hpx, hpne, fun q hq hqx hqne => ?_⟩
    rcases hcover q hq hqx hqne with hSq | ⟨r, hr, hrx, hrne, hqr⟩
    · exact hlongest q hSq hqx hqne
    · exact hqr.trans (hlongest r hr hrx hrne)

/-- What had a removed member as its parent gets the parent of the removed member. -/
theorem Adds.isParent_of_removed (h : Adds S S' n) (hn : ¬ S n) (hx : IsParent S' n x) :
    IsParent S p x ↔ IsParent S p n := by
  constructor
  · rintro ⟨hp, hpx, hpne, hlongest⟩
    have hpn : p <+: n := hx.2.2.2 p ((h p).mpr (Or.inl hp)) hpx hpne
    refine ⟨hp, hpn, fun heq => hn (heq ▸ hp), fun q hq hqn _ => ?_⟩
    refine hlongest q hq (hqn.trans hx.2.1) (fun heq => hx.2.2.1 ?_)
    exact prefix_antisymm hx.2.1 (heq ▸ hqn)
  · rintro ⟨hp, hpn, -, hlongest⟩
    refine ⟨hp, hpn.trans hx.2.1, fun heq => hx.2.2.1 (prefix_antisymm hx.2.1 (heq ▸ hpn)), fun q hq hqx hqne => ?_⟩
    have hqn : q <+: n := hx.2.2.2 q ((h q).mpr (Or.inl hq)) hqx hqne
    exact hlongest q hq hqn (fun heq => hn (heq ▸ hq))

end NfdPitless.PrefixTree
