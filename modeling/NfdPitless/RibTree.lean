import NfdPitless.RibUpdates
import NfdPitless.PrefixTree

/-! The pointers of the RIB: after every update an entry's parent is the longest proper prefix that has
an entry, and its children are the entries it is the parent of. Insertion and erasure change pointers and
one entry, and leave the routes of every other entry alone. -/

namespace NfdPitless.Rib

open PrefixTree

def Has (rib : Rib) (name : Name) : Prop := (rib.entries name).isSome = true

def parentOf (rib : Rib) (name : Name) : Option Name := (rib.entries name).bind RibEntry.parent

def childrenOf (rib : Rib) (name : Name) : List Name := (rib.entries name).elim [] RibEntry.children

variable {rib rib' rib'' : Rib} {n m p c q : Name} {e : RibEntry}

theorem Has.of_entry (h : rib.entries n = some e) : rib.Has n := by
  rw [Has, h]
  rfl

theorem Has.entry (h : rib.Has n) : ∃ e, rib.entries n = some e := Option.isSome_iff_exists.mp h

theorem modifyEntry_entries (f : RibEntry → RibEntry) :
    (rib.modifyEntry n f).entries m = if m = n then (rib.entries n).map f else rib.entries m := by
  simp [modifyEntry, Function.update_apply]

theorem findParent_eq_some : rib.findParent n = some p ↔ IsParent rib.Has p n := by
  rw [findParent, List.find?_eq_findSome?_guard, Option.map_eq_some_iff]
  simp only [Lists.findSome?_reverse_range, Option.guard_eq_some_iff, Option.guard_eq_none_iff]
  constructor
  · rintro ⟨i, ⟨j, hj, ⟨rfl, hhas⟩, hlongest⟩, rfl⟩
    have hlen : (n.getPrefix j).length = j := by simp [Name.getPrefix]; omega
    refine ⟨hhas, List.take_prefix _ _, fun heq => ?_, fun q hq hqn hqne => ?_⟩
    · rw [heq] at hlen
      omega
    · have hql : q.length < n.length := lt_of_le_of_ne hqn.length_le fun h => hqne (hqn.eq_of_length h)
      have hqeq : n.getPrefix q.length = q := (List.prefix_iff_eq_take.mp hqn).symm
      have hle : q.length ≤ j := by
        by_contra hlt
        have := hlongest q.length (by omega) hql
        rw [hqeq] at this
        exact absurd hq (by simpa [Has] using this)
      exact List.prefix_of_prefix_length_le hqn (List.take_prefix _ _) (hle.trans_eq hlen.symm)
  · rintro ⟨hp, hpn, hpne, hlongest⟩
    have hpl : p.length < n.length := lt_of_le_of_ne hpn.length_le fun h => hpne (hpn.eq_of_length h)
    have hpeq : n.getPrefix p.length = p := (List.prefix_iff_eq_take.mp hpn).symm
    refine ⟨p.length, ⟨p.length, hpl, ⟨rfl, by rw [hpeq]; exact hp⟩, fun i hi hin => ?_⟩, hpeq⟩
    rw [Bool.eq_false_iff]
    intro hhas
    have hlen : (n.getPrefix i).length = i := by simp [Name.getPrefix]; omega
    have := (hlongest (n.getPrefix i) hhas (List.take_prefix _ _)
      (fun heq => by rw [heq] at hlen; omega)).length_le
    omega

theorem findParent_eq (h : ∀ p, IsParent rib.Has p n ↔ IsParent rib'.Has p m) :
    rib.findParent n = rib'.findParent m := by
  apply Option.ext
  intro p
  rw [findParent_eq_some, findParent_eq_some]
  exact h p

/-- `rib'` has the entries of `rib` with other pointers. -/
structure Relinked (rib rib' : Rib) : Prop where
  names : rib'.names = rib.names
  faceMap : rib'.faceMap = rib.faceMap
  entries : ∀ m, rib'.entries m =
    (rib.entries m).map fun e => { e with parent := rib'.parentOf m, children := rib'.childrenOf m }

theorem Relinked.refl (rib : Rib) : Relinked rib rib where
  names := rfl
  faceMap := rfl
  entries m := by
    cases h : rib.entries m with
    | none => rfl
    | some e => simp [parentOf, childrenOf, h]

theorem Relinked.trans (h : Relinked rib rib') (h' : Relinked rib' rib'') : Relinked rib rib'' where
  names := h'.names.trans h.names
  faceMap := h'.faceMap.trans h.faceMap
  entries m := by
    rw [h'.entries, h.entries, Option.map_map]
    rfl

theorem Relinked.has (h : Relinked rib rib') : rib'.Has m ↔ rib.Has m := by
  rw [Has, h.entries, Option.isSome_map, Has]

/-- The children of an entry are the entries that point to it. -/
structure Linked (rib : Rib) : Prop where
  mem_children : ∀ p c, rib.Has p → (c ∈ rib.childrenOf p ↔ rib.parentOf c = some p)
  nodup_children : ∀ p, (rib.childrenOf p).Nodup

/-- What changing the parent of `c` and the children of `p` comes to. -/
theorem modifyEntry_links (parent : Option Name) (g : List Name → List Name) (hne : p ≠ c) (hp : rib.Has p)
    (hc : rib.Has c)
    (h : rib' = (rib.modifyEntry c fun e => { e with parent := parent }).modifyEntry p fun e =>
      { e with children := g e.children }) :
    Relinked rib rib' ∧ rib'.parentOf = Function.update rib.parentOf c parent ∧
      rib'.childrenOf = Function.update rib.childrenOf p (g (rib.childrenOf p)) := by
  obtain ⟨ep, hep⟩ := hp.entry
  obtain ⟨ec, hec⟩ := hc.entry
  have hentries : ∀ m, rib'.entries m =
      if m = p then some { ep with children := g ep.children }
      else if m = c then some { ec with parent := parent } else rib.entries m := by
    intro m
    rw [h, modifyEntry_entries, modifyEntry_entries, modifyEntry_entries, if_neg hne, hep, hec]
    rfl
  have hparent : rib'.parentOf = Function.update rib.parentOf c parent := by
    funext m
    rw [parentOf, hentries, Function.update_apply]
    by_cases hmp : m = p
    · rw [hmp, if_pos rfl, if_neg hne, parentOf, hep]
      rfl
    · rw [if_neg hmp]
      split
      · rfl
      · rfl
  have hchildren : rib'.childrenOf = Function.update rib.childrenOf p (g (rib.childrenOf p)) := by
    funext m
    rw [childrenOf, hentries, Function.update_apply]
    by_cases hmp : m = p
    · rw [hmp, if_pos rfl, if_pos rfl, childrenOf, hep]
      rfl
    · rw [if_neg hmp, if_neg hmp]
      split
      · rename_i hmc
        rw [hmc, childrenOf, hec]
        rfl
      · rfl
  refine ⟨⟨by rw [h]; rfl, by rw [h]; rfl, fun m => ?_⟩, hparent, hchildren⟩
  rw [hparent, hchildren, hentries, Function.update_apply, Function.update_apply]
  by_cases hmp : m = p
  · subst hmp
    simp [hne, hep, parentOf, childrenOf]
  · by_cases hmc : m = c
    · subst hmc
      simp [hmp, hec, childrenOf]
    · simp only [hmp, hmc, if_false]
      exact (Relinked.refl rib).entries m

theorem addChild_spec (hlinked : rib.Linked) (hne : p ≠ c) (hp : rib.Has p) (hc : rib.Has c)
    (h : rib.addChild p c = some rib') :
    Relinked rib rib' ∧ rib'.Linked ∧ rib'.parentOf = Function.update rib.parentOf c (some p) := by
  unfold addChild at h
  cases hparent : (rib.entries c).bind RibEntry.parent with
  | some _ => simp [hparent] at h
  | none =>
      simp only [hparent, Option.some.injEq] at h
      obtain ⟨hrel, hpar, hchi⟩ := modifyEntry_links (some p) (fun l => l ++ [c]) hne hp hc h.symm
      have horphan : rib.parentOf c = none := hparent
      refine ⟨hrel, ⟨fun q x hq => ?_, fun q => ?_⟩, hpar⟩
      · have hmem := hlinked.mem_children q x (hrel.has.mp hq)
        rw [hpar, hchi, Function.update_apply, Function.update_apply]
        by_cases hqp : q = p
        · subst hqp
          rw [if_pos rfl, List.mem_append, hmem, List.mem_singleton]
          by_cases hxc : x = c
          · simp [hxc]
          · simp [hxc]
        · rw [if_neg hqp, hmem]
          by_cases hxc : x = c
          · simp [hxc, horphan, Ne.symm hqp]
          · rw [if_neg hxc]
      · rw [hchi, Function.update_apply]
        split
        · refine (hlinked.nodup_children p).append (List.nodup_singleton c) (fun x hx hxc => ?_)
          rw [List.mem_singleton.mp hxc, hlinked.mem_children p c hp, horphan] at hx
          cases hx
        · exact hlinked.nodup_children q

theorem removeChild_spec (hlinked : rib.Linked) (hne : p ≠ c) (hp : rib.Has p) (hc : rib.Has c)
    (h : rib.removeChild p c = some rib') :
    rib.parentOf c = some p ∧ Relinked rib rib' ∧ rib'.Linked ∧
      rib'.parentOf = Function.update rib.parentOf c none := by
  unfold removeChild at h
  split at h
  · rename_i hparent
    rw [Option.some.injEq] at h
    obtain ⟨hrel, hpar, hchi⟩ := modifyEntry_links none (fun l => l.filter fun x => x != c) hne hp hc h.symm
    refine ⟨hparent, hrel, ⟨fun q x hq => ?_, fun q => ?_⟩, hpar⟩
    · have hmem := hlinked.mem_children q x (hrel.has.mp hq)
      rw [hpar, hchi, Function.update_apply, Function.update_apply]
      by_cases hqp : q = p
      · subst hqp
        rw [if_pos rfl, List.mem_filter, hmem]
        by_cases hxc : x = c
        · simp [hxc]
        · simp [hxc]
      · rw [if_neg hqp, hmem]
        by_cases hxc : x = c
        · rw [if_pos hxc, hxc]
          refine ⟨fun heq => ?_, fun heq => by cases heq⟩
          exact absurd (Option.some.inj (heq.symm.trans hparent)) hqp
        · rw [if_neg hxc]
    · rw [hchi, Function.update_apply]
      split
      · exact (hlinked.nodup_children p).filter _
      · exact hlinked.nodup_children q
  · cases h

theorem addChildTo_spec {parent : Option Name} (hlinked : rib.Linked) (hne : parent ≠ some c)
    (hp : ∀ p, parent = some p → rib.Has p) (hc : rib.Has c) (horphan : rib.parentOf c = none)
    (h : rib.addChildTo parent c = some rib') :
    Relinked rib rib' ∧ rib'.Linked ∧ ∀ x, rib'.parentOf x = if x = c then parent else rib.parentOf x := by
  cases parent with
  | none =>
      rw [addChildTo, Option.some.injEq] at h
      subst h
      refine ⟨Relinked.refl rib, hlinked, fun x => ?_⟩
      split
      · rename_i hx
        rw [hx, horphan]
      · rfl
  | some p =>
      obtain ⟨hrel, hlink, hpar⟩ := addChild_spec hlinked (fun heq => hne (congrArg some heq)) (hp p rfl) hc h
      exact ⟨hrel, hlink, fun x => by rw [hpar, Function.update_apply]⟩

theorem removeChildFrom_spec {parent : Option Name} (hlinked : rib.Linked) (hne : parent ≠ some c)
    (hp : ∀ p, parent = some p → rib.Has p) (hc : rib.Has c) (hparent : rib.parentOf c = parent)
    (h : rib.removeChildFrom parent c = some rib') :
    Relinked rib rib' ∧ rib'.Linked ∧ ∀ x, rib'.parentOf x = if x = c then none else rib.parentOf x := by
  cases parent with
  | none =>
      rw [removeChildFrom, Option.some.injEq] at h
      subst h
      refine ⟨Relinked.refl rib, hlinked, fun x => ?_⟩
      split
      · rename_i hx
        rw [hx, hparent]
      · rfl
  | some p =>
      obtain ⟨-, hrel, hlink, hpar⟩ :=
        removeChild_spec hlinked (fun heq => hne (congrArg some heq)) (hp p rfl) hc h
      exact ⟨hrel, hlink, fun x => by rw [hpar, Function.update_apply]⟩

theorem adoptChild_spec {parent : Option Name} (hlinked : rib.Linked) (hn : rib.Has n)
    (hp : ∀ p, parent = some p → rib.Has p) (hc : rib.Has c) (hcn : c ≠ n) (hcp : parent ≠ some c)
    (h : adoptChild n parent rib c = some rib') :
    Relinked rib rib' ∧ rib'.Linked ∧
      ∀ x, rib'.parentOf x = if x = c ∧ rib.parentOf c = parent then some n else rib.parentOf x := by
  unfold adoptChild at h
  split at h
  · rename_i hparent
    obtain ⟨rib1, h1, h2⟩ := Option.bind_eq_some_iff.mp h
    obtain ⟨hrel1, hlink1, hpar1⟩ := removeChildFrom_spec hlinked hcp hp hc hparent h1
    obtain ⟨hrel2, hlink2, hpar2⟩ :=
      addChild_spec hlink1 (Ne.symm hcn) (hrel1.has.mpr hn) (hrel1.has.mpr hc) h2
    refine ⟨hrel1.trans hrel2, hlink2, fun x => ?_⟩
    have hparent' : rib.parentOf c = parent := hparent
    rw [hpar2, Function.update_apply]
    by_cases hx : x = c
    · simp [hx, hparent']
    · simp [hx, hpar1]
  · rename_i hparent
    cases h
    refine ⟨Relinked.refl rib, hlinked, fun x => ?_⟩
    rw [if_neg (fun hx => hparent hx.2)]

/-- The children of `parent` among `children` become children of `n`. -/
theorem foldlM_adoptChild {parent : Option Name} (hpn : parent ≠ some n) (children : List Name) :
    ∀ {rib : Rib}, rib.Linked → rib.Has n → (∀ p, parent = some p → rib.Has p) →
      (∀ c ∈ children, rib.Has c ∧ c ≠ n ∧ parent ≠ some c) →
      children.foldlM (adoptChild n parent) rib = some rib' →
      Relinked rib rib' ∧ rib'.Linked ∧
        ∀ x, rib'.parentOf x = if x ∈ children ∧ rib.parentOf x = parent then some n else rib.parentOf x := by
  induction children with
  | nil =>
      intro rib hlinked _ _ _ h
      cases h
      exact ⟨Relinked.refl _, hlinked, fun x => by simp⟩
  | cons c children ih =>
      intro rib hlinked hn hp hall h
      obtain ⟨rib1, h1, h2⟩ := Option.bind_eq_some_iff.mp h
      obtain ⟨hc, hcn, hcp⟩ := hall c List.mem_cons_self
      obtain ⟨hrel1, hlink1, hpar1⟩ := adoptChild_spec hlinked hn hp hc hcn hcp h1
      have hall' : ∀ c ∈ children, rib1.Has c ∧ c ≠ n ∧ parent ≠ some c := by
        intro c' hc'
        obtain ⟨h1, h2⟩ := hall c' (List.mem_cons_of_mem c hc')
        exact ⟨hrel1.has.mpr h1, h2⟩
      obtain ⟨hrel2, hlink2, hpar2⟩ :=
        ih hlink1 (hrel1.has.mpr hn) (fun p hpp => hrel1.has.mpr (hp p hpp)) hall' h2
      refine ⟨hrel1.trans hrel2, hlink2, fun x => ?_⟩
      rw [hpar2, hpar1]
      by_cases hx : x = c ∧ rib.parentOf c = parent
      · -- moved already: it now points to `n`, which is not `parent`
        obtain ⟨rfl, hparent⟩ := hx
        simp [hparent, Ne.symm hpn]
      · rw [if_neg hx]
        by_cases hmem : x ∈ children ∧ rib.parentOf x = parent
        · rw [if_pos hmem, if_pos ⟨List.mem_cons_of_mem c hmem.1, hmem.2⟩]
        · rw [if_neg hmem, if_neg]
          rintro ⟨hxc, hparent⟩
          rcases List.mem_cons.mp hxc with rfl | hxc
          · exact hx ⟨rfl, hparent⟩
          · exact hmem ⟨hxc, hparent⟩

/-- The children of `n` become children of `parent`. -/
theorem foldlM_releaseChild {parent : Option Name} (children : List Name) :
    ∀ {rib : Rib}, rib.Linked → rib.Has n → (∀ p, parent = some p → rib.Has p) →
      (∀ c ∈ children, rib.Has c ∧ c ≠ n ∧ parent ≠ some c) →
      children.foldlM (releaseChild n parent) rib = some rib' →
      Relinked rib rib' ∧ rib'.Linked ∧
        ∀ x, rib'.parentOf x = if x ∈ children then parent else rib.parentOf x := by
  induction children with
  | nil =>
      intro rib hlinked _ _ _ h
      cases h
      exact ⟨Relinked.refl _, hlinked, fun x => by simp⟩
  | cons c children ih =>
      intro rib hlinked hn hp hall h
      obtain ⟨rib1, h1, h2⟩ := Option.bind_eq_some_iff.mp h
      obtain ⟨hc, hcn, hcp⟩ := hall c List.mem_cons_self
      obtain ⟨rib0, h0, h1⟩ := Option.bind_eq_some_iff.mp h1
      obtain ⟨-, hrel0, hlink0, hpar0⟩ := removeChild_spec hlinked (Ne.symm hcn) hn hc h0
      obtain ⟨hrel1, hlink1, hpar1⟩ := addChildTo_spec hlink0 hcp (fun p hpp => hrel0.has.mpr (hp p hpp))
        (hrel0.has.mpr hc) (by rw [hpar0, Function.update_self]) h1
      have hrel01 := hrel0.trans hrel1
      have hall' : ∀ c ∈ children, rib1.Has c ∧ c ≠ n ∧ parent ≠ some c := by
        intro c' hc'
        obtain ⟨h1, h2⟩ := hall c' (List.mem_cons_of_mem c hc')
        exact ⟨hrel01.has.mpr h1, h2⟩
      obtain ⟨hrel2, hlink2, hpar2⟩ :=
        ih hlink1 (hrel01.has.mpr hn) (fun p hpp => hrel01.has.mpr (hp p hpp)) hall' h2
      refine ⟨hrel01.trans hrel2, hlink2, fun x => ?_⟩
      rw [hpar2, hpar1, hpar0, Function.update_apply]
      by_cases hx : x = c
      · simp [hx]
      · simp [hx]

theorem mem_takeWhile_prefix {l : List Name} (hsorted : l.Pairwise (· < ·)) (hgt : ∀ x ∈ l, n < x) :
    m ∈ l.takeWhile (fun x => Name.isPrefixOf n x) ↔ m ∈ l ∧ n <+: m := by
  induction l with
  | nil => simp
  | cons x l ih =>
      obtain ⟨hx, hl⟩ := List.pairwise_cons.mp hsorted
      have ih' := ih hl (fun y hy => hgt y (List.mem_cons_of_mem x hy))
      rw [List.takeWhile_cons]
      by_cases hp : n <+: x
      · rw [if_pos (Name.isPrefixOf_iff.mpr hp), List.mem_cons, ih', List.mem_cons]
        constructor
        · rintro (rfl | ⟨hm, hnm⟩)
          · exact ⟨Or.inl rfl, hp⟩
          · exact ⟨Or.inr hm, hnm⟩
        · rintro ⟨rfl | hm, hnm⟩
          · exact Or.inl rfl
          · exact Or.inr ⟨hm, hnm⟩
      · rw [if_neg (fun h => hp (Name.isPrefixOf_iff.mp h))]
        refine ⟨fun h => absurd h List.not_mem_nil, fun h => absurd ?_ hp⟩
        rcases List.mem_cons.mp h.1 with rfl | hm
        · exact h.2
        · exact Name.prefix_of_between h.2 (hgt x List.mem_cons_self) (hx m hm)

theorem mem_findDescendants (hnames : ∀ x, x ∈ rib.names ↔ rib.Has x) (hsorted : rib.names.Pairwise (· < ·))
    (hn : rib.Has n) : m ∈ rib.findDescendants n ↔ rib.Has m ∧ n <+: m ∧ m ≠ n := by
  obtain ⟨l₁, l₂, hsplit⟩ := List.append_of_mem ((hnames n).mpr hn)
  rw [hsplit] at hsorted
  obtain ⟨-, hs, hcross⟩ := List.pairwise_append.mp hsorted
  obtain ⟨hgt, hl₂⟩ := List.pairwise_cons.mp hs
  have hbefore : ∀ x ∈ l₁, (x != n) = true := fun x hx =>
    bne_iff_ne.mpr (ne_of_lt (hcross x hx n List.mem_cons_self))
  have htail : (rib.names.dropWhile fun x => x != n).tail = l₂ := by
    rw [hsplit, List.dropWhile_append_of_pos hbefore, List.dropWhile_cons]
    simp
  rw [findDescendants, if_pos (show (rib.entries n).isSome = true from hn), htail, mem_takeWhile_prefix hl₂ hgt,
    ← hnames, hsplit]
  constructor
  · rintro ⟨hm, hnm⟩
    exact ⟨List.mem_append_right _ (List.mem_cons_of_mem n hm), hnm, (ne_of_lt (hgt m hm)).symm⟩
  · rintro ⟨hm, hnm, hne⟩
    refine ⟨?_, hnm⟩
    rcases List.mem_append.mp hm with hm | hm
    · exact absurd (Name.lt_of_prefix hnm (Ne.symm hne)) (lt_asymm (hcross m hm n List.mem_cons_self))
    · exact (List.mem_cons.mp hm).resolve_left hne

structure Valid (rib : Rib) : Prop where
  mem_names : ∀ n, n ∈ rib.names ↔ rib.Has n
  sorted : rib.names.Pairwise (· < ·)
  name_eq : ∀ n e, rib.entries n = some e → e.name = n
  parent_eq : ∀ n, rib.Has n → rib.parentOf n = rib.findParent n
  linked : rib.Linked
  routes_nodup : ∀ n e, rib.entries n = some e → (e.routes.map fun r => (r.faceId, r.origin)).Nodup
  mem_faceMap : ∀ n e f, rib.entries n = some e → e.hasFaceId f = true → n ∈ rib.faceMap f

theorem Valid.empty : Valid Rib.empty where
  mem_names n := by simp [Rib.empty, Has]
  sorted := List.Pairwise.nil
  name_eq n e h := by simp [Rib.empty] at h
  parent_eq n h := by simp [Rib.empty, Has] at h
  linked := ⟨fun p c h => by simp [Rib.empty, Has] at h, fun p => List.nodup_nil⟩
  routes_nodup n e h := by simp [Rib.empty] at h
  mem_faceMap n e f h := by simp [Rib.empty] at h

theorem Valid.has_of_parentOf (hv : rib.Valid) (h : rib.parentOf n = some p) : IsParent rib.Has p n := by
  have hn : rib.Has n := by
    cases hent : rib.entries n with
    | none => simp [parentOf, hent] at h
    | some e => exact .of_entry hent
  rwa [hv.parent_eq n hn, findParent_eq_some] at h

/-- The children in the sense of the tree of prefixes. -/
theorem Valid.mem_children (hv : rib.Valid) (he : rib.entries n = some e) :
    c ∈ e.children ↔ IsChild rib.Has n c := by
  have hn : rib.Has n := .of_entry he
  have hchildren : rib.childrenOf n = e.children := by simp [childrenOf, he]
  rw [← hchildren, hv.linked.mem_children n c hn, isChild_iff_isParent hn]
  constructor
  · intro h
    have hp := hv.has_of_parentOf h
    refine ⟨?_, hp⟩
    cases hent : rib.entries c with
    | none => simp [parentOf, hent] at h
    | some e => exact .of_entry hent
  · rintro ⟨hc, hp⟩
    rw [hv.parent_eq c hc, findParent_eq_some]
    exact hp

theorem Valid.nodup_children (hv : rib.Valid) (he : rib.entries n = some e) : e.children.Nodup := by
  have := hv.linked.nodup_children n
  simpa [childrenOf, he] using this

/-- The entries are those of `entries` with other pointers. -/
def Extends (rib : Rib) (entries : Name → Option RibEntry) : Prop :=
  ∀ m, ∃ parent children, rib.entries m = (entries m).map fun e => { e with parent, children }

theorem Relinked.extends (h : Relinked rib rib') : rib'.Extends rib.entries := fun m => ⟨_, _, h.entries m⟩

/-- Entries changed in place, their pointers as they were. -/
theorem Valid.modify (hv : rib.Valid) (g : Name → RibEntry → RibEntry) (hnames : rib'.names = rib.names)
    (hent : ∀ m, rib'.entries m = (rib.entries m).map (g m))
    (hname : ∀ m e, (g m e).name = e.name) (hparent : ∀ m e, (g m e).parent = e.parent)
    (hchildren : ∀ m e, (g m e).children = e.children)
    (hroutes : ∀ m e, rib.entries m = some e → ((g m e).routes.map fun r => (r.faceId, r.origin)).Nodup)
    (hface : ∀ m e f, rib.entries m = some e → (g m e).hasFaceId f = true → m ∈ rib'.faceMap f) :
    rib'.Valid := by
  have hhas : rib'.Has = rib.Has := by
    funext m
    rw [Has, hent, Option.isSome_map, Has]
  have hpar : rib'.parentOf = rib.parentOf := by
    funext m
    rw [parentOf, hent, parentOf]
    cases rib.entries m with
    | none => rfl
    | some e => exact hparent m e
  have hchi : rib'.childrenOf = rib.childrenOf := by
    funext m
    rw [childrenOf, hent, childrenOf]
    cases rib.entries m with
    | none => rfl
    | some e => exact hchildren m e
  have hfrom : ∀ m e', rib'.entries m = some e' → ∃ e, rib.entries m = some e ∧ g m e = e' := by
    intro m e' h
    rw [hent] at h
    exact Option.map_eq_some_iff.mp h
  constructor
  · intro n
    rw [hnames, hhas]
    exact hv.mem_names n
  · rw [hnames]
    exact hv.sorted
  · intro n e' h
    obtain ⟨e, he, rfl⟩ := hfrom n e' h
    rw [hname, hv.name_eq n e he]
  · intro n hn
    rw [hpar, hv.parent_eq n (hhas ▸ hn)]
    exact findParent_eq (fun p => by rw [hhas])
  · constructor
    · intro p c hp
      rw [hchi, hpar]
      exact hv.linked.mem_children p c (hhas ▸ hp)
    · intro p
      rw [hchi]
      exact hv.linked.nodup_children p
  · intro n e' h
    obtain ⟨e, he, rfl⟩ := hfrom n e' h
    exact hroutes n e he
  · intro n e' f h hf
    obtain ⟨e, he, rfl⟩ := hfrom n e' h
    exact hface n e f he hf

/-! ### Insertion of a name -/

/-- The table with a new entry that has no pointers yet. -/
def withNewEntry (rib : Rib) (name : Name) (route : Route) : Rib :=
  { rib with
    names := rib.names.orderedInsert (· ≤ ·) name
    entries := Function.update rib.entries name (some ((RibEntry.new name).insertRoute route)) }

section NewEntry

variable {r : Route} {descendants : List Name} {x : Name}

theorem withNewEntry_adds (rib : Rib) (n : Name) (r : Route) : Adds rib.Has (rib.withNewEntry n r).Has n := by
  intro x
  by_cases hx : x = n <;> simp [withNewEntry, Has, hx]

theorem withNewEntry_parentOf (hn : rib.entries n = none) (r : Route) :
    (rib.withNewEntry n r).parentOf = rib.parentOf := by
  funext x
  by_cases hx : x = n
  · simp [parentOf, withNewEntry, hx, hn, RibEntry.new]
  · simp [parentOf, withNewEntry, hx]

theorem withNewEntry_childrenOf (hn : rib.entries n = none) (r : Route) :
    (rib.withNewEntry n r).childrenOf = rib.childrenOf := by
  funext x
  by_cases hx : x = n
  · simp [childrenOf, withNewEntry, hx, hn, RibEntry.new]
  · simp [childrenOf, withNewEntry, hx]

theorem withNewEntry_linked (hv : rib.Valid) (hn : rib.entries n = none) : (rib.withNewEntry n r).Linked := by
  have hnot : ¬ rib.Has n := by simp [Has, hn]
  constructor
  · intro p c hp
    rw [withNewEntry_parentOf hn, withNewEntry_childrenOf hn]
    rcases (withNewEntry_adds rib n r p).mp hp with hp | rfl
    · exact hv.linked.mem_children p c hp
    · -- nothing points to a name that has no entry
      have hempty : rib.childrenOf p = [] := by simp [childrenOf, hn]
      rw [hempty]
      refine ⟨fun h => absurd h List.not_mem_nil, fun h => absurd (hv.has_of_parentOf h).1 hnot⟩
  · intro p
    rw [withNewEntry_childrenOf hn]
    exact hv.linked.nodup_children p

theorem withNewEntry_names (hv : rib.Valid) (hn : rib.entries n = none) :
    (∀ x, x ∈ (rib.withNewEntry n r).names ↔ (rib.withNewEntry n r).Has x) ∧
      (rib.withNewEntry n r).names.Pairwise (· < ·) := by
  have hnotin : n ∉ rib.names := by simp [hv.mem_names, Has, hn]
  refine ⟨fun x => ?_, ?_⟩
  · rw [withNewEntry_adds rib n r x, ← hv.mem_names]
    simp [withNewEntry, List.mem_orderedInsert, or_comm]
  · have hle : (rib.names.orderedInsert (· ≤ ·) n).Pairwise (· ≤ ·) :=
      List.Pairwise.orderedInsert n _ (hv.sorted.imp le_of_lt)
    have hne : (rib.names.orderedInsert (· ≤ ·) n).Pairwise (· ≠ ·) := by
      rw [← List.Nodup, (List.perm_orderedInsert _ n rib.names).nodup_iff, List.nodup_cons]
      exact ⟨hnotin, hv.sorted.imp ne_of_lt⟩
    exact (hle.and hne).imp fun h => lt_of_le_of_ne h.1 h.2

theorem withNewEntry_findParent (rib : Rib) (hn : rib.entries n = none) :
    (rib.withNewEntry n r).findParent n = rib.findParent n := by
  refine findParent_eq fun p => (withNewEntry_adds rib n r).isParent_of_not_isChild ?_ (Or.inr rfl) ?_
  · simp [Has, hn]
  · exact fun h => h.2.2.1 rfl

/-- The entry of a name in the new table, whatever its pointers: the new one, or that of before. -/
theorem Relinked.entry_of_new (hrel : Relinked (rib.withNewEntry n r) rib') (he : rib'.entries x = some e) :
    (x = n ∧ e.name = n ∧ e.routes = [r]) ∨
      (x ≠ n ∧ ∃ e₀, rib.entries x = some e₀ ∧ e.name = e₀.name ∧ e.routes = e₀.routes) := by
  obtain ⟨e₁, he₁, rfl⟩ := Option.map_eq_some_iff.mp ((hrel.entries x).symm.trans he)
  by_cases hx : x = n
  · simp only [withNewEntry, hx, Function.update_self, Option.some.injEq] at he₁
    subst he₁
    exact Or.inl ⟨hx, by simp [RibEntry.new, RibEntry.insertRoute, RibEntry.findRoute]⟩
  · simp only [withNewEntry, Function.update_apply, if_neg hx] at he₁
    exact Or.inr ⟨hx, e₁, he₁, rfl, rfl⟩

/-- The pointer of every entry is the one that the tree of prefixes has, once the new entry has its parent and
those of `descendants` that had the same parent are its children. -/
theorem Valid.parentOf_adopted (hv : rib.Valid) (hn : rib.entries n = none) (hhas : Adds rib.Has rib'.Has n)
    (hdesc : ∀ x, x ∈ descendants ↔ rib'.Has x ∧ n <+: x ∧ x ≠ n)
    (hpar : ∀ x, rib'.parentOf x =
      if x ∈ descendants ∧ (if x = n then rib.findParent n else rib.parentOf x) = rib.findParent n then some n
      else if x = n then rib.findParent n else rib.parentOf x)
    (hx : rib'.Has x) : rib'.parentOf x = rib'.findParent x := by
  have hnot : ¬ rib.Has n := by simp [Has, hn]
  rw [hpar]
  by_cases hxn : x = n
  · subst hxn
    rw [if_neg (fun hc => ((hdesc x).mp hc.1).2.2 rfl), if_pos rfl]
    exact findParent_eq fun p => (hhas.isParent_of_not_isChild hnot (Or.inr rfl) fun hc => hc.2.2.1 rfl).symm
  · have hold : rib.Has x := ((hhas x).mp hx).resolve_right hxn
    rw [if_neg hxn, hv.parent_eq x hold]
    by_cases hchild : IsChild rib.Has n x
    · have hsame : rib.findParent x = rib.findParent n :=
        findParent_eq ((isChild_iff_same_parent hnot hold hchild.2.1).mp hchild)
      have hmem : x ∈ descendants := (hdesc x).mpr ⟨hx, hchild.2.1, hxn⟩
      rw [if_pos ⟨hmem, hsame⟩]
      exact (findParent_eq_some.mpr (Adds.isParent_of_isChild hhas hchild)).symm
    · rw [if_neg]
      · exact findParent_eq fun p => (hhas.isParent_of_not_isChild hnot (Or.inl hold) hchild).symm
      · rintro ⟨hmem, hsame⟩
        refine hchild ((isChild_iff_same_parent hnot hold ((hdesc x).mp hmem).2.1).mpr fun p => ?_)
        rw [← findParent_eq_some, ← findParent_eq_some, hsame]

theorem Valid.registerFace_relinked (hv : rib.Valid) (hn : rib.entries n = none)
    (hrel : Relinked (rib.withNewEntry n r) rib') (hlink : rib'.Linked)
    (hpar : ∀ x, rib'.Has x → rib'.parentOf x = rib'.findParent x) : (rib'.registerFace r.faceId n).Valid := by
  obtain ⟨hnames, hsorted⟩ := withNewEntry_names (r := r) hv hn
  have hsame : (rib'.registerFace r.faceId n).names = (rib.withNewEntry n r).names := hrel.names
  constructor
  · intro x
    rw [hsame, hnames]
    exact hrel.has.symm
  · rw [hsame]
    exact hsorted
  · intro x e he
    rcases hrel.entry_of_new he with ⟨rfl, hname, -⟩ | ⟨-, e₀, he₀, hname, -⟩
    · exact hname
    · exact hname.trans (hv.name_eq x e₀ he₀)
  · exact hpar
  · exact ⟨hlink.1, hlink.2⟩
  · intro x e he
    rcases hrel.entry_of_new he with ⟨-, -, hroutes⟩ | ⟨-, e₀, he₀, -, hroutes⟩
    · simp [hroutes]
    · rw [hroutes]
      exact hv.routes_nodup x e₀ he₀
  · intro x e f he hf
    have hmap : rib'.faceMap = rib.faceMap := hrel.faceMap
    simp only [registerFace, hmap, Function.update_apply]
    rcases hrel.entry_of_new he with ⟨hx, -, hroutes⟩ | ⟨-, e₀, he₀, -, hroutes⟩
    · have hfr : r.faceId = f := by simpa [RibEntry.hasFaceId, hroutes] using hf
      simp [hfr, hx]
    · have hmem : x ∈ rib.faceMap f := hv.mem_faceMap x e₀ f he₀ (by simpa [RibEntry.hasFaceId, hroutes] using hf)
      split
      · rename_i hfr
        exact List.mem_append_left _ (hfr ▸ hmem)
      · exact hmem

/-- The entry gets its pointers, and the children of its parent that extend it. -/
theorem insert_new_spec (hv : rib.Valid) (hn : rib.entries n = none) (h : rib.insert n r = some rib') :
    rib'.Valid ∧ rib'.Extends (rib.withNewEntry n r).entries := by
  have hadds := withNewEntry_adds rib n r
  rw [insert, hn] at h
  change ((rib.withNewEntry n r).addChildTo ((rib.withNewEntry n r).findParent n) n).bind _ = some rib' at h
  rw [withNewEntry_findParent rib hn] at h
  have hparent : ∀ p, rib.findParent n = some p → IsParent rib.Has p n := fun p hp => findParent_eq_some.mp hp
  have hself : rib.findParent n ≠ some n := fun heq => (hparent n heq).2.2.1 rfl
  obtain ⟨rib2, h2, h⟩ := Option.bind_eq_some_iff.mp h
  obtain ⟨rib3, h3, rfl⟩ := Option.map_eq_some_iff.mp h
  have horphan : (rib.withNewEntry n r).parentOf n = none := by
    rw [withNewEntry_parentOf hn]
    simp [parentOf, hn]
  have hfold : (rib2.findDescendants n).foldlM (adoptChild n (rib.findParent n)) rib2 = some rib3 := by
    rw [← withNewEntry_findParent (r := r) rib hn]
    exact h3
  have hhasp : ∀ p, rib.findParent n = some p → (rib.withNewEntry n r).Has p := fun p hp =>
    (hadds p).mpr (Or.inl (hparent p hp).1)
  obtain ⟨hrel2, hlink2, hpar2⟩ := addChildTo_spec (withNewEntry_linked hv hn) hself hhasp
    ((hadds n).mpr (Or.inr rfl)) horphan h2
  obtain ⟨hnames, hsorted⟩ := withNewEntry_names (r := r) hv hn
  have hdesc : ∀ x, x ∈ rib2.findDescendants n ↔ rib2.Has x ∧ n <+: x ∧ x ≠ n := by
    intro x
    refine mem_findDescendants ?_ ?_ (hrel2.has.mpr ((hadds n).mpr (Or.inr rfl)))
    · intro y
      rw [hrel2.names, hrel2.has]
      exact hnames y
    · rw [hrel2.names]
      exact hsorted
  obtain ⟨hrel3, hlink3, hpar3⟩ := foldlM_adoptChild hself (rib2.findDescendants n) hlink2
    (hrel2.has.mpr ((hadds n).mpr (Or.inr rfl))) (fun p hp => hrel2.has.mpr (hhasp p hp))
    (fun c hc => by
      obtain ⟨hc1, hc2, hc3⟩ := (hdesc c).mp hc
      exact ⟨hc1, hc3, fun heq => hc3 (prefix_antisymm (hparent c heq).2.1 hc2)⟩) hfold
  have hrel := hrel2.trans hrel3
  have hpar : ∀ x, rib3.Has x → rib3.parentOf x = rib3.findParent x := fun x hx =>
    hv.parentOf_adopted hn (fun y => hrel.has.trans (hadds y))
      (fun y => (hdesc y).trans (and_congr_left' hrel3.has.symm))
      (fun y => by rw [hpar3, hpar2, withNewEntry_parentOf hn]) hx
  exact ⟨hv.registerFace_relinked hn hrel hlink3 hpar, hrel.extends⟩

end NewEntry

/-! ### Erasure of a name -/

/-- The table without an entry whose children have been released. -/
def withoutEntry (rib : Rib) (name : Name) : Rib :=
  { rib with names := rib.names.erase name, entries := Function.update rib.entries name none }

section ErasedEntry

variable {x : Name}

theorem withoutEntry_has (rib : Rib) (n : Name) : (rib.withoutEntry n).Has x ↔ rib.Has x ∧ x ≠ n := by
  by_cases hx : x = n <;> simp [withoutEntry, Has, hx]

theorem withoutEntry_adds (hn : rib.Has n) : Adds (rib.withoutEntry n).Has rib.Has n := by
  intro x
  rw [withoutEntry_has]
  by_cases hx : x = n
  · simp [hx, hn]
  · simp [hx]

theorem withoutEntry_parentOf (rib : Rib) (hx : x ≠ n) : (rib.withoutEntry n).parentOf x = rib.parentOf x := by
  simp [withoutEntry, parentOf, hx]

theorem withoutEntry_childrenOf (rib : Rib) (hx : x ≠ n) : (rib.withoutEntry n).childrenOf x = rib.childrenOf x := by
  simp [withoutEntry, childrenOf, hx]

theorem Relinked.entry_of_erased (hrel : Relinked rib rib') (he : (rib'.withoutEntry n).entries x = some e) :
    x ≠ n ∧ ∃ e₀, rib.entries x = some e₀ ∧ e.name = e₀.name ∧ e.routes = e₀.routes := by
  have hx : x ≠ n := ((withoutEntry_has rib' n).mp (.of_entry he)).2
  have he' : rib'.entries x = some e := by simpa [withoutEntry, hx] using he
  obtain ⟨e₀, he₀, rfl⟩ := Option.map_eq_some_iff.mp ((hrel.entries x).symm.trans he')
  exact ⟨hx, e₀, he₀, rfl, rfl⟩

theorem Relinked.extends_withoutEntry (hrel : Relinked rib rib') :
    (rib'.withoutEntry n).Extends (Function.update rib.entries n none) := by
  intro m
  refine ⟨rib'.parentOf m, rib'.childrenOf m, ?_⟩
  by_cases hm : m = n
  · simp [withoutEntry, hm]
  · simp only [withoutEntry, Function.update_apply, if_neg hm]
    exact hrel.entries m

/-- No pointer leads to the erased entry, once it has neither a parent nor children. -/
theorem Linked.withoutEntry (hlink : rib.Linked) (hparent : rib.parentOf n = none)
    (hchildren : ∀ p, rib.Has p → n ∉ rib.childrenOf p) : (rib.withoutEntry n).Linked := by
  constructor
  · intro p c hp
    obtain ⟨hold, hpn⟩ := (withoutEntry_has rib n).mp hp
    rw [withoutEntry_childrenOf rib hpn]
    by_cases hcn : c = n
    · subst hcn
      have hnone : (rib.withoutEntry c).parentOf c = none := by simp [Rib.withoutEntry, parentOf]
      rw [hnone]
      exact ⟨fun h => absurd h (hchildren p hold), fun h => absurd h (by simp)⟩
    · rw [withoutEntry_parentOf rib hcn]
      exact hlink.mem_children p c hold
  · intro p
    by_cases hpn : p = n
    · simp [Rib.withoutEntry, childrenOf, hpn]
    · rw [withoutEntry_childrenOf rib hpn]
      exact hlink.nodup_children p

/-- The pointer of every other entry is the one that the tree of prefixes has, once the children of the erased
entry have its parent. -/
theorem Valid.parentOf_released (hv : rib.Valid) (he : rib.entries n = some e) (hrel : Relinked rib rib')
    (hpar : ∀ x, rib'.parentOf x =
      if x ∈ e.children then rib.findParent n else if x = n then none else rib.parentOf x)
    (hx : (rib'.withoutEntry n).Has x) : (rib'.withoutEntry n).parentOf x = (rib'.withoutEntry n).findParent x := by
  have hn : rib.Has n := .of_entry he
  obtain ⟨hx', hxn⟩ := (withoutEntry_has rib' n).mp hx
  have hadds : Adds (rib'.withoutEntry n).Has rib.Has n := fun y =>
    hrel.has.symm.trans (withoutEntry_adds (hrel.has.mpr hn) y)
  have hnot : ¬ (rib'.withoutEntry n).Has n := fun h => ((withoutEntry_has rib' n).mp h).2 rfl
  rw [withoutEntry_parentOf rib' hxn, hpar]
  by_cases hmem : x ∈ e.children
  · have hisn := ((isChild_iff_isParent hn).mp ((hv.mem_children he).mp hmem)).2
    have hup : rib.findParent n = (rib'.withoutEntry n).findParent n := findParent_eq fun p =>
      hadds.isParent_of_not_isChild hnot (Or.inr rfl) fun hc => hc.2.2.1 rfl
    rw [if_pos hmem, hup]
    exact (findParent_eq fun p => hadds.isParent_of_removed hnot hisn).symm
  · have hchild : ¬ IsChild (rib'.withoutEntry n).Has n x := fun hc =>
      hmem ((hv.mem_children he).mpr (hadds.isChild_self.mpr hc))
    rw [if_neg hmem, if_neg hxn, hv.parent_eq x (hrel.has.mp hx')]
    exact findParent_eq fun p => hadds.isParent_of_not_isChild hnot (Or.inl hx) hchild

theorem Valid.withoutEntry_relinked (hv : rib.Valid) (hrel : Relinked rib rib')
    (hlink : (rib'.withoutEntry n).Linked)
    (hpar : ∀ x, (rib'.withoutEntry n).Has x → (rib'.withoutEntry n).parentOf x = (rib'.withoutEntry n).findParent x) :
    (rib'.withoutEntry n).Valid := by
  have hsame : (rib'.withoutEntry n).names = rib.names.erase n := by rw [withoutEntry, hrel.names]
  constructor
  · intro x
    rw [hsame, withoutEntry_has, hrel.has, List.Nodup.mem_erase_iff (hv.sorted.imp ne_of_lt), hv.mem_names, and_comm]
  · rw [hsame]
    exact hv.sorted.sublist List.erase_sublist
  · intro x e he
    obtain ⟨-, e₀, he₀, hname, -⟩ := hrel.entry_of_erased he
    exact hname.trans (hv.name_eq x e₀ he₀)
  · exact hpar
  · exact hlink
  · intro x e he
    obtain ⟨-, e₀, he₀, -, hroutes⟩ := hrel.entry_of_erased he
    rw [hroutes]
    exact hv.routes_nodup x e₀ he₀
  · intro x e f he hf
    obtain ⟨-, e₀, he₀, -, hroutes⟩ := hrel.entry_of_erased he
    rw [show (rib'.withoutEntry n).faceMap = rib'.faceMap from rfl, hrel.faceMap]
    exact hv.mem_faceMap x e₀ f he₀ (by simpa [RibEntry.hasFaceId, hroutes] using hf)

/-- The children of an erased entry become children of its parent. -/
theorem eraseEntry_spec (hv : rib.Valid) (he : rib.entries n = some e) (h : rib.eraseEntry n = some rib') :
    rib'.Valid ∧ rib'.Extends (Function.update rib.entries n none) := by
  have hn : rib.Has n := .of_entry he
  have hparent : e.parent = rib.findParent n := by
    rw [← hv.parent_eq n hn]
    simp [parentOf, he]
  rw [eraseEntry, he] at h
  dsimp only at h
  rw [hparent] at h
  obtain ⟨rib2, h2, h⟩ := Option.bind_eq_some_iff.mp h
  obtain ⟨rib3, h3, rfl⟩ := Option.map_eq_some_iff.mp h
  have hisp : ∀ p, rib.findParent n = some p → IsParent rib.Has p n := fun p hp => findParent_eq_some.mp hp
  have hself : rib.findParent n ≠ some n := fun heq => (hisp n heq).2.2.1 rfl
  obtain ⟨hrel2, hlink2, hpar2⟩ := removeChildFrom_spec hv.linked hself (fun p hp => (hisp p hp).1) hn
    (hv.parent_eq n hn) h2
  have hchild : ∀ x, x ∈ e.children ↔ IsChild rib.Has n x := fun x => hv.mem_children he
  obtain ⟨hrel3, hlink3, hpar3⟩ := foldlM_releaseChild e.children hlink2 (hrel2.has.mpr hn)
    (fun p hp => hrel2.has.mpr (hisp p hp).1)
    (fun c hc => by
      have hc' := (hchild c).mp hc
      exact ⟨hrel2.has.mpr hc'.1, Ne.symm hc'.2.2.1,
        fun heq => hc'.2.2.1 (prefix_antisymm hc'.2.1 (hisp c heq).2.1)⟩) h3
  have hrel := hrel2.trans hrel3
  have hpar : ∀ x, rib3.parentOf x =
      if x ∈ e.children then rib.findParent n else if x = n then none else rib.parentOf x := by
    intro x
    rw [hpar3, hpar2]
  have hnone : rib3.parentOf n = none := by
    rw [hpar, if_neg (fun hmem => ((hchild n).mp hmem).2.2.1 rfl), if_pos rfl]
  have hnochild : ∀ p, rib3.Has p → n ∉ rib3.childrenOf p := by
    intro p hp hmem
    rw [hlink3.mem_children p n hp, hnone] at hmem
    exact absurd hmem (by simp)
  exact ⟨hv.withoutEntry_relinked hrel (hlink3.withoutEntry hnone hnochild)
    (fun x hx => hv.parentOf_released he hrel hpar hx), hrel.extends_withoutEntry⟩

end ErasedEntry

end NfdPitless.Rib
