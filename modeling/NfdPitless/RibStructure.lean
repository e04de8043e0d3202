import NfdPitless.CaptureCount
import Mathlib.Algebra.BigOperators.Group.Finset.Basic

/-! The RIB as a tree of prefixes (`Rib::insert`, `Rib::erase`): no assertion on the pointers fails, an entry is never
without routes, and the number that `size` returns is that of the routes. -/

namespace NfdPitless

/-- The RIB with `m_nItems`, a `size_t`; there are fewer routes than addresses. -/
structure SizedRib where
  rib : Rib
  nItems : Nat

namespace SizedRib

def empty : SizedRib := ⟨.empty, 0⟩

/-- The entry of the name has the route. -/
def hasRoute (rib : Rib) (name : Name) (route : Route) : Bool :=
  (rib.entries name).any fun e => (e.findRoute route).isSome

/-- Decrementing goes wrong at zero. -/
def step (s : SizedRib) : RibOperation → Option SizedRib
  | .insert name route =>
      (s.rib.insert name route).map fun rib => ⟨rib, if hasRoute s.rib name route then s.nItems else s.nItems + 1⟩
  | .erase name route =>
      if hasRoute s.rib name route then
        if s.nItems = 0 then none else (s.rib.erase name route).map fun rib => ⟨rib, s.nItems - 1⟩
      else (s.rib.erase name route).map fun rib => ⟨rib, s.nItems⟩

end SizedRib

namespace Rib

variable {rib rib' : Rib} {n p c x : Name} {e : RibEntry} {r s : Route} {parent : Option Name}

theorem parentOf_modifyEntry (rib : Rib) (n : Name) (f : RibEntry → RibEntry) (x : Name) :
    (rib.modifyEntry n f).parentOf x =
      if x = n then (rib.entries n).bind fun e => (f e).parent else rib.parentOf x := by
  rw [parentOf, modifyEntry_entries]
  split
  · cases rib.entries n <;> rfl
  · rfl

theorem parentOf_modifyEntry_of_same {f : RibEntry → RibEntry} (hf : ∀ e, (f e).parent = e.parent) :
    (rib.modifyEntry n f).parentOf = rib.parentOf := by
  funext x
  rw [parentOf_modifyEntry]
  split
  · rename_i hx
    rw [hx, parentOf]
    cases rib.entries n with
    | none => rfl
    | some e => exact hf e
  · rfl

theorem addChild_isSome (h : rib.parentOf c = none) : ∃ rib', rib.addChild p c = some rib' ∧
    ∀ x, x ≠ c → rib'.parentOf x = rib.parentOf x := by
  have hparent : (rib.entries c).bind RibEntry.parent = none := h
  rw [addChild, hparent]
  refine ⟨_, rfl, fun x hx => (congrFun (parentOf_modifyEntry_of_same ?_) x).trans ?_⟩
  · exact fun _ => rfl
  · rw [parentOf_modifyEntry, if_neg hx]

theorem removeChild_isSome (h : rib.parentOf c = some p) : ∃ rib', rib.removeChild p c = some rib' ∧
    rib'.parentOf c = none ∧ ∀ x, x ≠ c → rib'.parentOf x = rib.parentOf x := by
  have hparent : (rib.entries c).bind RibEntry.parent = some p := h
  rw [removeChild, if_pos hparent]
  have hpar : ∀ x, ((rib.modifyEntry c fun e => { e with parent := none }).modifyEntry p fun e =>
      { e with children := e.children.filter fun d => d != c }).parentOf x =
        if x = c then none else rib.parentOf x := by
    intro x
    refine (congrFun (parentOf_modifyEntry_of_same ?_) x).trans ?_
    · exact fun _ => rfl
    · rw [parentOf_modifyEntry]
      cases rib.entries c <;> rfl
  exact ⟨_, rfl, (hpar c).trans (if_pos rfl), fun x hx => (hpar x).trans (if_neg hx)⟩

theorem addChildTo_isSome (parent : Option Name) (h : rib.parentOf c = none) :
    ∃ rib', rib.addChildTo parent c = some rib' ∧ ∀ x, x ≠ c → rib'.parentOf x = rib.parentOf x := by
  cases parent with
  | none => exact ⟨rib, rfl, fun _ _ => rfl⟩
  | some p => exact addChild_isSome h

theorem removeChildFrom_isSome (h : rib.parentOf c = parent) : ∃ rib', rib.removeChildFrom parent c = some rib' ∧
    rib'.parentOf c = none ∧ ∀ x, x ≠ c → rib'.parentOf x = rib.parentOf x := by
  cases parent with
  | none => exact ⟨rib, rfl, h, fun _ _ => rfl⟩
  | some p => exact removeChild_isSome h

/-- A child that is moved has the parent it is taken from. -/
theorem adoptChild_isSome (n : Name) (parent : Option Name) (rib : Rib) (c : Name) :
    ∃ rib', adoptChild n parent rib c = some rib' := by
  unfold adoptChild
  split
  · rename_i hparent
    obtain ⟨rib₁, h₁, hfree, -⟩ := removeChildFrom_isSome (show rib.parentOf c = parent from hparent)
    obtain ⟨rib₂, h₂, -⟩ := addChild_isSome (p := n) hfree
    exact ⟨rib₂, by rw [h₁, Option.bind_some, h₂]⟩
  · exact ⟨rib, rfl⟩

theorem foldlM_adoptChild_isSome (n : Name) (parent : Option Name) (children : List Name) (rib : Rib) :
    ∃ rib', children.foldlM (adoptChild n parent) rib = some rib' := by
  induction children generalizing rib with
  | nil => exact ⟨rib, rfl⟩
  | cons c children ih =>
      obtain ⟨rib₁, h₁⟩ := adoptChild_isSome n parent rib c
      obtain ⟨rib₂, h₂⟩ := ih rib₁
      exact ⟨rib₂, by rw [List.foldlM_cons, h₁, Option.bind_eq_bind, Option.bind_some, h₂]⟩

/-- The children of an entry point to it until they are released, one after the other. -/
theorem foldlM_releaseChild_isSome (n : Name) (parent : Option Name) (children : List Name) (hnodup : children.Nodup)
    (rib : Rib) (hparent : ∀ c ∈ children, rib.parentOf c = some n) :
    ∃ rib', children.foldlM (releaseChild n parent) rib = some rib' := by
  induction children generalizing rib with
  | nil => exact ⟨rib, rfl⟩
  | cons c children ih =>
      obtain ⟨hnot, hrest⟩ := List.nodup_cons.mp hnodup
      obtain ⟨rib₁, h₁, hfree, hsame₁⟩ := removeChild_isSome (hparent c List.mem_cons_self)
      obtain ⟨rib₂, h₂, hsame₂⟩ := addChildTo_isSome parent hfree
      have hleft : ∀ d ∈ children, rib₂.parentOf d = some n := by
        intro d hd
        have hne : d ≠ c := fun heq => hnot (heq ▸ hd)
        rw [hsame₂ d hne, hsame₁ d hne, hparent d (List.mem_cons_of_mem c hd)]
      obtain ⟨rib₃, h₃⟩ := ih hrest rib₂ hleft
      refine ⟨rib₃, ?_⟩
      rw [List.foldlM_cons, releaseChild, h₁, Option.bind_some, h₂, Option.bind_eq_bind, Option.bind_some, h₃]

theorem insert_isSome (rib : Rib) (n : Name) (r : Route) : ∃ rib', rib.insert n r = some rib' := by
  cases he : rib.entries n with
  | some e =>
      rw [insert, he]
      dsimp only
      cases e.findRoute r <;> exact ⟨_, rfl⟩
  | none =>
      have horphan : (rib.withNewEntry n r).parentOf n = none := by
        rw [withNewEntry_parentOf he, parentOf, he]
        rfl
      obtain ⟨rib₁, h₁, -⟩ := addChildTo_isSome ((rib.withNewEntry n r).findParent n) horphan
      obtain ⟨rib₂, h₂⟩ := foldlM_adoptChild_isSome n ((rib.withNewEntry n r).findParent n)
        (rib₁.findDescendants n) rib₁
      refine ⟨rib₂.registerFace r.faceId n, ?_⟩
      rw [insert, he]
      change ((rib.withNewEntry n r).addChildTo ((rib.withNewEntry n r).findParent n) n).bind _ = _
      rw [h₁, Option.bind_some]
      exact congrArg (Option.map fun rib => rib.registerFace r.faceId n) h₂

theorem Valid.eraseEntry_isSome (hv : rib.Valid) (he : rib.entries n = some e) :
    ∃ rib', rib.eraseEntry n = some rib' := by
  have hparent : rib.parentOf n = e.parent := by rw [parentOf, he, Option.bind_some]
  obtain ⟨rib₁, h₁, -, hsame⟩ := removeChildFrom_isSome hparent
  have hpoint : ∀ c ∈ e.children, rib₁.parentOf c = some n := by
    intro c hc
    have hchild := (hv.mem_children he).mp hc
    have hne : c ≠ n := Ne.symm hchild.2.2.1
    rw [hsame c hne, ← hv.linked.mem_children n c (.of_entry he), childrenOf, he]
    exact hc
  obtain ⟨rib₂, h₂⟩ := foldlM_releaseChild_isSome n e.parent e.children (hv.nodup_children he) rib₁ hpoint
  rw [eraseEntry, he]
  dsimp only
  rw [h₁, Option.bind_some, h₂]
  exact ⟨_, rfl⟩

theorem Valid.erase_isSome (hv : rib.Valid) (n : Name) (r : Route) : ∃ rib', rib.erase n r = some rib' := by
  cases he : rib.entries n with
  | none => exact ⟨rib, by rw [Rib.erase, he]⟩
  | some e =>
      cases hs : e.findRoute r with
      | none =>
          refine ⟨rib, ?_⟩
          rw [Rib.erase, he]
          dsimp only
          rw [hs]
      | some s =>
          obtain ⟨hv₁, hent₁⟩ := hv.withoutRoute he hs
          have herase : rib.erase n r = if (e.eraseRoute r).getNRoutes = 0 then (rib.withoutRoute n r e).eraseEntry n
              else some (rib.withoutRoute n r e) := by
            rw [Rib.erase, he]
            dsimp only
            rw [hs]
            rfl
          rw [herase]
          split
          · exact hv₁.eraseEntry_isSome (by rw [hent₁, Function.update_self])
          · exact ⟨_, rfl⟩

/-- The number of routes of an entry, if there is one. -/
def countAt (entries : Name → Option RibEntry) (name : Name) : Nat := (entries name).elim 0 RibEntry.getNRoutes

/-- The number of routes of all entries. -/
def nRoutes (rib : Rib) : Nat := (rib.names.map (countAt rib.entries)).sum

/-- A sum over a table in which one summand changes. -/
theorem sum_map_eq {names names' : List Name} {f f' : Name → Nat} (hnodup : names.Nodup) (hnodup' : names'.Nodup)
    (hzero : ∀ m, m ∉ names → f m = 0) (hzero' : ∀ m, m ∉ names' → f' m = 0) (hother : ∀ m, m ≠ n → f' m = f m) :
    (names'.map f').sum + f n = (names.map f).sum + f' n := by
  have htotal : ∀ {l : List Name} {g : Name → Nat}, l.Nodup → (∀ m, m ∉ l → g m = 0) →
      l.toFinset ⊆ (n :: (names ++ names')).toFinset →
      (l.map g).sum = g n + ∑ m ∈ (n :: (names ++ names')).toFinset.erase n, g m := by
    intro l g hl hg hsub
    rw [Finset.add_sum_erase _ g (by simp), ← List.sum_toFinset g hl]
    exact Finset.sum_subset hsub fun m _ hm => hg m fun hin => hm (List.mem_toFinset.mpr hin)
  have hrest : ∑ m ∈ (n :: (names ++ names')).toFinset.erase n, f' m =
      ∑ m ∈ (n :: (names ++ names')).toFinset.erase n, f m :=
    Finset.sum_congr rfl fun m hm => hother m (Finset.ne_of_mem_erase hm)
  have hnames := htotal hnodup hzero fun m hm => by simp_all
  have hnames' := htotal hnodup' hzero' fun m hm => by simp_all
  omega

theorem Valid.names_nodup (hv : rib.Valid) : rib.names.Nodup := hv.sorted.imp ne_of_lt

theorem Valid.countAt_eq_zero (hv : rib.Valid) (h : n ∉ rib.names) : countAt rib.entries n = 0 := by
  rw [hv.mem_names, Has, Option.not_isSome_iff_eq_none] at h
  rw [countAt, h]
  rfl

theorem Extends.countAt_eq {entries : Name → Option RibEntry} (h : rib.Extends entries) (m : Name) :
    countAt rib.entries m = countAt entries m := by
  obtain ⟨parent, children, hent⟩ := h m
  rw [countAt, countAt, hent]
  cases entries m <;> rfl

/-- The routes of one entry change. -/
theorem Valid.nRoutes_eq (hv : rib.Valid) (hv' : rib'.Valid) {value : Option RibEntry}
    (h : rib'.Extends (Function.update rib.entries n value)) :
    rib'.nRoutes + countAt rib.entries n = rib.nRoutes + value.elim 0 RibEntry.getNRoutes := by
  have hother : ∀ m, m ≠ n → countAt rib'.entries m = countAt rib.entries m := by
    intro m hm
    rw [h.countAt_eq, countAt, Function.update_of_ne hm, countAt]
  have hat : countAt rib'.entries n = value.elim 0 RibEntry.getNRoutes := by
    rw [h.countAt_eq, countAt, Function.update_self]
  rw [← hat]
  exact sum_map_eq hv.names_nodup hv'.names_nodup (fun m => hv.countAt_eq_zero) (fun m => hv'.countAt_eq_zero) hother

theorem entryWith_getNRoutes (rib : Rib) (n : Name) (r : Route) : (rib.entryWith n r).getNRoutes =
    if SizedRib.hasRoute rib n r then countAt rib.entries n else countAt rib.entries n + 1 := by
  rw [entryWith, SizedRib.hasRoute, countAt]
  cases rib.entries n with
  | none => rfl
  | some e =>
      rw [Option.getD_some, Option.any_some, Option.elim_some]
      cases hs : e.findRoute r with
      | none =>
          rw [RibEntry.put_of_none hs, RibEntry.getNRoutes, RibEntry.insertRoute_routes hs, List.length_append]
          rfl
      | some s =>
          rw [RibEntry.put_of_some hs]
          exact Lists.length_replaceFirst _ _ _

end Rib

/-! ### Runs -/

namespace SizedRib

open Rib

variable {s s' : SizedRib} {n : Name} {r : Route}

/-- What insertions and erasures keep. -/
structure Consistent (s : SizedRib) : Prop where
  valid : s.rib.Valid
  routes_ne_nil : ∀ n e, s.rib.entries n = some e → e.routes ≠ []
  nItems_eq : s.nItems = s.rib.nRoutes

theorem empty_consistent : empty.Consistent where
  valid := .empty
  routes_ne_nil := fun _ _ h => nomatch h
  nItems_eq := rfl

/-- A property of the routes of the entries. -/
theorem routes_ne_nil_of_extends {rib : Rib} {entries : Name → Option RibEntry} (h : rib.Extends entries)
    (hall : ∀ n e, entries n = some e → e.routes ≠ []) : ∀ n e, rib.entries n = some e → e.routes ≠ [] :=
  (h.forall_iff (P := fun e => e.routes ≠ []) fun _ _ _ => Iff.rfl).mpr hall

theorem Consistent.insert (h : s.Consistent) (n : Name) (r : Route) :
    ∃ s', s.step (.insert n r) = some s' ∧ s'.Consistent := by
  obtain ⟨rib', hrib'⟩ := s.rib.insert_isSome n r
  obtain ⟨hv', hextends⟩ := h.valid.insert hrib'
  refine ⟨_, by rw [step, hrib', Option.map_some], hv', routes_ne_nil_of_extends hextends ?_, ?_⟩
  · refine (forall_update h.routes_ne_nil).mpr fun e he => ?_
    cases he
    rw [← List.length_pos_iff_ne_nil]
    have hcount := entryWith_getNRoutes s.rib n r
    rw [RibEntry.getNRoutes] at hcount
    rw [hcount]
    split
    · rename_i hhas
      obtain ⟨e, he, hfound⟩ := (Option.any_eq_true _ _).mp hhas
      rw [countAt, he, Option.elim_some, RibEntry.getNRoutes, List.length_pos_iff_ne_nil]
      exact h.routes_ne_nil n e he
    · exact Nat.succ_pos _
  · have hcount := h.valid.nRoutes_eq hv' hextends
    rw [Option.elim_some, entryWith_getNRoutes] at hcount
    have hsize := h.nItems_eq
    dsimp only
    cases hhas : hasRoute s.rib n r with
    | true =>
        rw [hhas, if_pos rfl] at hcount
        rw [if_pos rfl]
        omega
    | false =>
        rw [hhas, if_neg Bool.false_ne_true] at hcount
        rw [if_neg Bool.false_ne_true]
        omega

theorem erase_of_not_hasRoute {rib : Rib} (h : hasRoute rib n r = false) : rib.erase n r = some rib := by
  rw [hasRoute] at h
  rw [Rib.erase]
  cases he : rib.entries n with
  | none => rfl
  | some e =>
      rw [he, Option.any_some, Option.isSome_eq_false_iff, Option.isNone_iff_eq_none] at h
      dsimp only
      rw [h]

theorem Consistent.erase (h : s.Consistent) (n : Name) (r : Route) :
    ∃ s', s.step (.erase n r) = some s' ∧ s'.Consistent := by
  cases hhas : hasRoute s.rib n r with
  | false =>
      refine ⟨s, ?_, h⟩
      rw [step, hhas, if_neg Bool.false_ne_true, erase_of_not_hasRoute hhas]
      rfl
  | true =>
      obtain ⟨rib', hrib'⟩ := h.valid.erase_isSome n r
      obtain ⟨hv', hextends⟩ := h.valid.erase hrib'
      obtain ⟨e, he, hfound⟩ := (Option.any_eq_true _ _).mp hhas
      obtain ⟨x, hx⟩ := Option.isSome_iff_exists.mp hfound
      have hcount : countAt s.rib.entries n = (e.eraseRoute r).getNRoutes + 1 := by
        obtain ⟨hmem, hkey⟩ := RibEntry.findRoute_some hx
        have hlength := List.length_eraseP_add_one hmem (p := fun y => y.compareFaceIdAndOrigin r)
          (Route.compareFaceIdAndOrigin_iff.mpr hkey)
        rw [countAt, he, Option.elim_some, RibEntry.getNRoutes, RibEntry.getNRoutes, RibEntry.eraseRoute_routes hx]
        exact hlength.symm
      have hwithout : s.rib.entriesWithout n r = Function.update s.rib.entries n
          (if (e.eraseRoute r).getNRoutes = 0 then none else some (e.eraseRoute r)) := by
        rw [entriesWithout, he]
        dsimp only
        rw [hx, Option.isNone_some, if_neg Bool.false_ne_true]
      rw [hwithout] at hextends
      have hsize := h.valid.nRoutes_eq hv' hextends
      have hvalue : (if (e.eraseRoute r).getNRoutes = 0 then none else some (e.eraseRoute r)).elim 0
        RibEntry.getNRoutes = (e.eraseRoute r).getNRoutes := by
        split
        · rename_i hempty
          exact hempty.symm
        · rfl
      rw [hvalue, hcount] at hsize
      have hold := h.nItems_eq
      have hpos : s.nItems ≠ 0 := by omega
      refine ⟨⟨rib', s.nItems - 1⟩, by rw [step, hhas, if_pos rfl, if_neg hpos, hrib', Option.map_some], hv', ?_, ?_⟩
      · refine routes_ne_nil_of_extends hextends ((forall_update h.routes_ne_nil).mpr fun e' he' => ?_)
        split at he'
        · cases he'
        · rename_i hleft
          cases he'
          exact fun hnil => hleft (by rw [RibEntry.getNRoutes, hnil, List.length_nil])
      · dsimp only
        omega

/-- The table as a tree of prefixes: an entry's parent is the one of the longest proper prefix, its children are the
entries whose parent it is, and it has routes, at most one of a face and origin. -/
structure IsTree (rib : Rib) : Prop where
  named : ∀ n e, rib.entries n = some e → e.name = n
  listed : rib.names.Nodup ∧ ∀ n, n ∈ rib.names ↔ rib.Has n
  parent : ∀ n e, rib.entries n = some e → ∀ p, e.parent = some p ↔ PrefixTree.IsParent rib.Has p n
  children : ∀ n e, rib.entries n = some e →
    e.children.Nodup ∧ ∀ c, c ∈ e.children ↔ ∃ e', rib.entries c = some e' ∧ e'.parent = some n
  routes : ∀ n e, rib.entries n = some e → e.routes ≠ [] ∧ (e.routes.map fun r => (r.faceId, r.origin)).Nodup

theorem Consistent.isTree (h : s.Consistent) : IsTree s.rib where
  named := h.valid.name_eq
  listed := ⟨h.valid.names_nodup, h.valid.mem_names⟩
  parent n e he p := by
    have hparent := h.valid.parent_eq n (.of_entry he)
    rw [parentOf, he, Option.bind_some] at hparent
    rw [hparent, findParent_eq_some]
  children n e he := by
    refine ⟨h.valid.nodup_children he, fun c => ?_⟩
    have hmem := h.valid.linked.mem_children n c (.of_entry he)
    rw [childrenOf, he, Option.elim_some, parentOf, Option.bind_eq_some_iff] at hmem
    exact hmem
  routes n e he := ⟨h.routes_ne_nil n e he, h.valid.routes_nodup n e he⟩

/-- After any insertions and erasures the RIB is a tree of prefixes, `size` is the number of its routes, and the next
insertion or erasure fails no assertion. -/
theorem rib_is_tree (s : SizedRib) (hr : Reach step anyStep empty s) :
    IsTree s.rib ∧ s.nItems = s.rib.nRoutes ∧ ∀ operation, ∃ s', s.step operation = some s' := by
  have hnext : ∀ {s : SizedRib}, s.Consistent → ∀ operation, ∃ s', s.step operation = some s' ∧ s'.Consistent := by
    intro s h operation
    cases operation with
    | insert n r => exact h.insert n r
    | erase n r => exact h.erase n r
  have h : s.Consistent := by
    refine hr.invariant empty_consistent fun s operation s' h _ hstep => ?_
    obtain ⟨s₁, hs₁, h₁⟩ := hnext h operation
    rw [hstep] at hs₁
    cases hs₁
    exact h₁
  refine ⟨h.isTree, h.nItems_eq, fun operation => ?_⟩
  obtain ⟨s', hs', -⟩ := hnext h operation
  exact ⟨s', hs'⟩

/-- Two routes of `/A`, and one of `/A/B`. -/
theorem rib_is_tree_two_names : ∃ s, exec step empty [.insert [.ofByte 65, .ofByte 66] (sampleRoute 1 0),
    .insert [.ofByte 65] (sampleRoute 2 0), .insert [.ofByte 65] (sampleRoute 1 0)] = some s ∧ s.nItems = 3 ∧
      IsTree s.rib := by
  have hrun : ((exec step empty [.insert [.ofByte 65, .ofByte 66] (sampleRoute 1 0),
      .insert [.ofByte 65] (sampleRoute 2 0), .insert [.ofByte 65] (sampleRoute 1 0)]).any fun s => s.nItems == 3) =
        true := by decide +kernel
  obtain ⟨s, hs, hitems⟩ := (Option.any_eq_true _ _).mp hrun
  exact ⟨s, hs, beq_iff_eq.mp hitems, (rib_is_tree s (reach_of_exec .start hs)).1⟩

end SizedRib
end NfdPitless
