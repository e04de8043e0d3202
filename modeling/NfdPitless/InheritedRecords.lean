import NfdPitless.RibSteps

/-! The records of inherited routes that the updater writes for a batch (`rib/fib-updater.cpp`), and what becomes of
them when the RIB replays them. For one entry and one face only the number of its inherited routes matters: a record
adds one or takes one away, and one cannot be taken from none. -/

namespace NfdPitless

namespace RibEntry

/-- How many inherited routes an entry has on a face. -/
def nInherited (e : RibEntry) (faceId : FaceId) : Nat := e.inheritedRoutes.countP fun r => r.faceId == faceId

end RibEntry

namespace RouteSet

/-- Whether a set has a route on a face. -/
def has (s : RouteSet) (faceId : FaceId) : Bool := s.routes.any fun r => r.faceId == faceId

end RouteSet

/-- One more inherited route. -/
def gain (c : Nat) : Option Nat := some (c + 1)

/-- One fewer, of those that there are. -/
def lose (c : Nat) : Option Nat := if 0 < c then some (c - 1) else none

/-- A change that is made under a condition. -/
def onlyIf (b : Prop) [Decidable b] (g : Nat → Option Nat) : Nat → Option Nat := if b then g else some

theorem onlyIf_pos {b : Prop} [Decidable b] {g : Nat → Option Nat} (h : b) : onlyIf b g = g := if_pos h

theorem onlyIf_neg {b : Prop} [Decidable b] {g : Nat → Option Nat} (h : ¬ b) : onlyIf b g = some := if_neg h

theorem onlyIf_congr {b b' : Prop} [Decidable b] [Decidable b'] {g : Nat → Option Nat} (h : b ↔ b') :
    onlyIf b g = onlyIf b' g := if_congr h rfl rfl

namespace RibUpdate

/-- What a record does to the number of inherited routes of one entry on one face. -/
def count (m : Name) (f : FaceId) (c : Nat) (record : RibUpdate) : Option Nat :=
  if record.name = m ∧ record.route.faceId = f then
    match record.action with
    | .register => gain c
    | .unregister => lose c
    | .removeFace => some c
  else some c

/-- What a list of records does to it. -/
def tally (m : Name) (f : FaceId) (records : List RibUpdate) (c : Nat) : Option Nat := records.foldlM (count m f) c

theorem tally_append (m : Name) (f : FaceId) (records records' : List RibUpdate) (c : Nat) :
    tally m f (records ++ records') c = (tally m f records c).bind (tally m f records') := List.foldlM_append

theorem tally_cons (m : Name) (f : FaceId) (record : RibUpdate) (records : List RibUpdate) (c : Nat) :
    tally m f (record :: records) c = (count m f c record).bind (tally m f records) := List.foldlM_cons

end RibUpdate

namespace RibEntry

variable {e : RibEntry} {r : Route} {f : FaceId}

theorem hasInheritedRoute_iff : e.hasInheritedRoute f = true ↔ 0 < e.nInherited f := by
  rw [hasInheritedRoute, nInherited, List.countP_pos_iff, List.any_eq_true]

theorem nInherited_add (e : RibEntry) (r : Route) (f : FaceId) :
    (e.addInheritedRoute r).nInherited f = e.nInherited f + if r.faceId = f then 1 else 0 := by
  rw [addInheritedRoute, nInherited, List.countP_append, List.countP_singleton, nInherited]
  simp only [beq_iff_eq]

theorem nInherited_remove {e' : RibEntry} (h : e.removeInheritedRoute r = some e') (f : FaceId) :
    e'.nInherited f + (if r.faceId = f then 1 else 0) = e.nInherited f := by
  rw [removeInheritedRoute] at h
  split at h
  · rename_i hhas
    cases h
    cases hfind : e.inheritedRoutes.find? fun x => x.faceId == r.faceId with
    | none =>
        rw [hasInheritedRoute, List.any_eq_true] at hhas
        obtain ⟨x, hx, hface⟩ := hhas
        exact absurd hface (List.find?_eq_none.mp hfind x hx)
    | some x =>
        have hcount := Lists.countP_eraseP (fun y : Route => y.faceId == f) hfind
        have hx := List.find?_some hfind
        rw [beq_iff_eq] at hx
        rw [hx] at hcount
        simp only [beq_iff_eq] at hcount
        exact hcount
  · cases h

end RibEntry

namespace Rib

variable {rib rib' rib'' : Rib}

/-- `rib'` is `rib` with other inherited routes. -/
structure Reinherited (rib rib' : Rib) : Prop where
  names : rib'.names = rib.names
  faceMap : rib'.faceMap = rib.faceMap
  entries : ∀ m, ∃ l, rib'.entries m = (rib.entries m).map fun e => { e with inheritedRoutes := l }

theorem Reinherited.refl (rib : Rib) : rib.Reinherited rib where
  names := rfl
  faceMap := rfl
  entries := fun m => by
    cases hm : rib.entries m with
    | none => exact ⟨[], rfl⟩
    | some e => exact ⟨e.inheritedRoutes, rfl⟩

theorem Reinherited.trans (h : rib.Reinherited rib') (h' : rib'.Reinherited rib'') : rib.Reinherited rib'' where
  names := h'.names.trans h.names
  faceMap := h'.faceMap.trans h.faceMap
  entries := fun m => by
    obtain ⟨l, hl⟩ := h.entries m
    obtain ⟨l', hl'⟩ := h'.entries m
    exact ⟨l', by rw [hl', hl, Option.map_map]; rfl⟩

theorem Reinherited.has (h : rib.Reinherited rib') {m : Name} : rib'.Has m ↔ rib.Has m := by
  obtain ⟨l, hl⟩ := h.entries m
  rw [Has, hl, Option.isSome_map, Has]

theorem Reinherited.valid (h : rib.Reinherited rib') (hv : rib.Valid) : rib'.Valid := by
  choose l hl using h.entries
  refine hv.modify (fun m e => { e with inheritedRoutes := l m }) h.names hl (fun _ _ => rfl) (fun _ _ => rfl)
    (fun _ _ => rfl) (fun m e he => hv.routes_nodup m e he) fun m e f he hf => ?_
  rw [h.faceMap]
  exact hv.mem_faceMap m e f he hf

/-- An entry with other inherited routes. -/
theorem modifyEntry_reinherited {n : Name} {e : RibEntry} (he : rib.entries n = some e) (l : List Route) :
    rib.Reinherited (rib.modifyEntry n fun _ => { e with inheritedRoutes := l }) where
  names := rfl
  faceMap := rfl
  entries := fun m => by
    rw [modifyEntry_entries]
    by_cases hm : m = n
    · exact ⟨l, by rw [if_pos hm, hm, he]; rfl⟩
    · rw [if_neg hm]
      exact (Reinherited.refl rib).entries m

/-- A record that does not take a route from none is replayed. -/
theorem modifyInheritedRoute_spec {record : RibUpdate} {e : RibEntry} (he : rib.entries record.name = some e)
    (hcount : ∃ c, record.count record.name record.route.faceId (e.nInherited record.route.faceId) = some c) :
    ∃ rib' e', rib.modifyInheritedRoute record = some rib' ∧ rib.Reinherited rib' ∧
      rib'.entries record.name = some e' ∧ (∀ m, m ≠ record.name → rib'.entries m = rib.entries m) ∧
      ∀ f, record.count record.name f (e.nInherited f) = some (e'.nInherited f) := by
  have hmodified : ∀ e' : RibEntry, (rib.modifyEntry record.name fun _ => e').entries record.name = some e' ∧
      ∀ m, m ≠ record.name → (rib.modifyEntry record.name fun _ => e').entries m = rib.entries m := by
    intro e'
    refine ⟨by rw [modifyEntry_entries, if_pos rfl, he]; rfl, fun m hm => ?_⟩
    rw [modifyEntry_entries, if_neg hm]
  rw [modifyInheritedRoute, he]
  dsimp only
  cases haction : record.action with
  | register =>
      refine ⟨_, e.addInheritedRoute record.route, rfl, modifyEntry_reinherited he _, (hmodified _).1, (hmodified _).2,
        fun f => ?_⟩
      rw [RibUpdate.count, haction, RibEntry.nInherited_add]
      by_cases hf : record.route.faceId = f
      · rw [if_pos ⟨rfl, hf⟩, if_pos hf, gain]
      · rw [if_neg fun h => hf h.2, if_neg hf, Nat.add_zero]
  | unregister =>
      obtain ⟨c, hc⟩ := hcount
      rw [RibUpdate.count, haction, if_pos ⟨rfl, rfl⟩] at hc
      have hpos : 0 < e.nInherited record.route.faceId := by
        by_contra hzero
        rw [lose, if_neg hzero] at hc
        cases hc
      have hremove : e.removeInheritedRoute record.route = some { e with
          inheritedRoutes := e.inheritedRoutes.eraseP fun r => r.faceId == record.route.faceId } := by
        rw [RibEntry.removeInheritedRoute, if_pos (RibEntry.hasInheritedRoute_iff.mpr hpos)]
      refine ⟨_, _, by rw [hremove]; rfl, modifyEntry_reinherited he _, (hmodified _).1, (hmodified _).2, fun f => ?_⟩
      have hleft := RibEntry.nInherited_remove hremove f
      rw [RibUpdate.count, haction]
      by_cases hf : record.route.faceId = f
      · rw [if_pos hf] at hleft
        rw [if_pos ⟨rfl, hf⟩, lose, if_pos (hf ▸ hpos)]
        exact congrArg some (by omega)
      · rw [if_neg hf] at hleft
        rw [if_neg fun h => hf h.2, ← hleft]
        rfl
  | removeFace =>
      refine ⟨rib, e, rfl, .refl rib, he, fun _ _ => rfl, fun f => ?_⟩
      rw [RibUpdate.count, haction]
      split <;> rfl

/-- Records are replayed when every one names an entry, and on each face none takes a route away that is not there. -/
theorem modifyInheritedRoutes_spec (records : List RibUpdate) :
    ∀ {rib : Rib}, (∀ record ∈ records, rib.Has record.name) →
      (∀ m e f, rib.entries m = some e → ∃ c, RibUpdate.tally m f records (e.nInherited f) = some c) →
      ∃ rib', rib.modifyInheritedRoutes records = some rib' ∧ rib.Reinherited rib' ∧
        ∀ m e e' f, rib.entries m = some e → rib'.entries m = some e' →
          RibUpdate.tally m f records (e.nInherited f) = some (e'.nInherited f) := by
  induction records with
  | nil =>
      intro rib _ _
      refine ⟨rib, rfl, .refl rib, fun m e e' f he he' => ?_⟩
      cases he.symm.trans he'
      rfl
  | cons record records ih =>
      intro rib hnames htally
      obtain ⟨e, he⟩ := (hnames record List.mem_cons_self).entry
      have hfirst : ∃ c, record.count record.name record.route.faceId (e.nInherited record.route.faceId) = some c := by
        obtain ⟨c, hc⟩ := htally record.name e record.route.faceId he
        rw [RibUpdate.tally_cons] at hc
        obtain ⟨c', hc', -⟩ := Option.bind_eq_some_iff.mp hc
        exact ⟨c', hc'⟩
      obtain ⟨rib₁, e₁, hmodify, hre, he₁, hother, hcount⟩ := modifyInheritedRoute_spec he hfirst
      -- what is left to replay starts from the counts after the first record
      have hstep : ∀ m x y f, rib.entries m = some x → rib₁.entries m = some y →
          RibUpdate.tally m f (record :: records) (x.nInherited f) = RibUpdate.tally m f records (y.nInherited f) := by
        intro m x y f hx hy
        rw [RibUpdate.tally_cons]
        by_cases hm : m = record.name
        · subst hm
          cases he.symm.trans hx
          cases he₁.symm.trans hy
          rw [hcount f, Option.bind_some]
        · rw [hother m hm, hx] at hy
          cases hy
          rw [RibUpdate.count, if_neg fun h => hm h.1.symm, Option.bind_some]
      have hback : ∀ m y, rib₁.entries m = some y → ∃ x, rib.entries m = some x := by
        intro m y hy
        exact (hre.has.mp (Has.of_entry hy)).entry
      obtain ⟨rib₂, hrest, hre₂, hfinal⟩ := ih (fun r hr => hre.has.mpr (hnames r (List.mem_cons_of_mem record hr)))
        fun m y f hy => by
          obtain ⟨x, hx⟩ := hback m y hy
          rw [← hstep m x y f hx hy]
          exact htally m x f hx
      refine ⟨rib₂, ?_, hre.trans hre₂, fun m x z f hx hz => ?_⟩
      · rw [modifyInheritedRoutes, List.foldlM_cons, hmodify]
        exact hrest
      · obtain ⟨y, hy⟩ := (hre.has.mpr (Has.of_entry hx)).entry
        rw [hstep m x y f hx hy]
        exact hfinal m y z f hy hz

/-- The entries that `traverseSubTree` visits with a face still in its sets. -/
def reachedFrom (rib : Rib) (faceId : FaceId) : Nat → Name → List Name
  | 0, _ => []
  | fuel + 1, name =>
      match rib.entries name with
      | none => []
      | some e =>
          if e.hasCapture || e.hasChildInheritOnFaceId faceId then []
          else name :: e.children.flatMap (rib.reachedFrom faceId fuel)

def reached (rib : Rib) (children : List Name) (faceId : FaceId) : List Name :=
  children.flatMap (rib.reachedFrom faceId rib.depth)

/-- The entry inherits a route on the face. -/
def Inherits (rib : Rib) (name : Name) (faceId : FaceId) : Prop :=
  ((rib.entries name).any fun e => e.hasInheritedRoute faceId) = true

/-- The entry has a route of its own on the face. -/
def Owns (rib : Rib) (name : Name) (faceId : FaceId) : Prop :=
  ((rib.entries name).any fun e => e.hasFaceId faceId) = true

instance (rib : Rib) (name : Name) (faceId : FaceId) : Decidable (rib.Inherits name faceId) :=
  inferInstanceAs (Decidable (((rib.entries name).any fun e => e.hasInheritedRoute faceId) = true))

instance (rib : Rib) (name : Name) (faceId : FaceId) : Decidable (rib.Owns name faceId) :=
  inferInstanceAs (Decidable (((rib.entries name).any fun e => e.hasFaceId faceId) = true))

end Rib

namespace FibUpdater

/-- The records that an operation adds name what `P` allows, and change the number of inherited routes of every entry
on every face as `g` does. -/
structure Effect (P : Name → Prop) (u u' : FibUpdater) (g : Name → FaceId → Nat → Option Nat) : Prop where
  tally : ∀ m f c, RibUpdate.tally m f u'.inheritedRoutes c = (RibUpdate.tally m f u.inheritedRoutes c).bind (g m f)
  within : ∀ record ∈ u'.inheritedRoutes, record ∈ u.inheritedRoutes ∨ P record.name

variable {P Q : Name → Prop} {u u' u'' : FibUpdater} {g g' : Name → FaceId → Nat → Option Nat}

theorem Effect.none (h : u'.inheritedRoutes = u.inheritedRoutes) : Effect P u u' fun _ _ => some where
  tally := fun m f c => by rw [h, Option.bind_fun_some]
  within := fun record hr => Or.inl (h ▸ hr)

theorem Effect.trans (h : Effect P u u' g) (h' : Effect P u' u'' g') :
    Effect P u u'' fun m f c => (g m f c).bind (g' m f) where
  tally := fun m f c => by rw [h'.tally, h.tally, Option.bind_assoc]
  within := fun record hr => (h'.within record hr).elim (h.within record) Or.inr

theorem Effect.congr (h : Effect P u u' g) (hg : ∀ m f c, g m f c = g' m f c) : Effect P u u' g' where
  tally := fun m f c => by
    rw [h.tally]
    exact congrArg _ (funext (hg m f))
  within := h.within

theorem Effect.mono (h : Effect P u u' g) (hPQ : ∀ m, P m → Q m) : Effect Q u u' g where
  tally := h.tally
  within := fun record hr => (h.within record hr).imp_right (hPQ record.name)

theorem Effect.start (h : u'.inheritedRoutes = u.inheritedRoutes) (h' : Effect P u' u'' g) : Effect P u u'' g where
  tally := fun m f c => by rw [h'.tally, h]
  within := fun record hr => (h'.within record hr).imp_left fun hr => h ▸ hr

theorem Effect.finish (h : Effect P u u' g) (h' : u''.inheritedRoutes = u'.inheritedRoutes) : Effect P u u'' g where
  tally := fun m f c => by rw [h', h.tally]
  within := fun record hr => h.within record (h' ▸ hr)

/-- The nexthops are not the records. -/
theorem addFibUpdate_inheritedRoutes (u : FibUpdater) (update : FibUpdate) :
    (u.addFibUpdate update).inheritedRoutes = u.inheritedRoutes := by
  unfold addFibUpdate
  split <;> rfl

theorem tally_record (m : Name) (f : FaceId) (c : Nat) (record : RibUpdate) :
    RibUpdate.tally m f [record] c = record.count m f c := by
  rw [RibUpdate.tally_cons]
  exact Option.bind_fun_some _

theorem inherit_effect (name : Name) (u : FibUpdater) (route : Route) :
    Effect (· = name) u (inherit name u route) fun m f => onlyIf (m = name ∧ f = route.faceId) gain where
  tally := fun m f c => by
    rw [inherit, addFibUpdate_inheritedRoutes, addInheritedRoute, RibUpdate.tally_append]
    refine congrArg _ (funext fun c => ?_)
    rw [tally_record, RibUpdate.count, onlyIf]
    by_cases h : m = name ∧ f = route.faceId
    · rw [if_pos h, if_pos ⟨h.1.symm, h.2.symm⟩]
    · rw [if_neg h, if_neg fun h' => h ⟨h'.1.symm, h'.2.symm⟩]
  within := fun record hr => by
    rw [inherit, addFibUpdate_inheritedRoutes, addInheritedRoute, List.mem_append, List.mem_singleton] at hr
    exact hr.imp_right fun h => by rw [h]

theorem disinherit_effect (name : Name) (u : FibUpdater) (route : Route) :
    Effect (· = name) u (disinherit name u route) fun m f => onlyIf (m = name ∧ f = route.faceId) lose where
  tally := fun m f c => by
    rw [disinherit, addFibUpdate_inheritedRoutes, removeInheritedRoute, RibUpdate.tally_append]
    refine congrArg _ (funext fun c => ?_)
    rw [tally_record, RibUpdate.count, onlyIf]
    by_cases h : m = name ∧ f = route.faceId
    · rw [if_pos h, if_pos ⟨h.1.symm, h.2.symm⟩]
    · rw [if_neg h, if_neg fun h' => h ⟨h'.1.symm, h'.2.symm⟩]
  within := fun record hr => by
    rw [disinherit, addFibUpdate_inheritedRoutes, removeInheritedRoute, List.mem_append, List.mem_singleton] at hr
    exact hr.imp_right fun h => by rw [h]

/-- The loop over a set of routes acts at most once on a face. -/
theorem foldl_effect {name : Name} {act : FibUpdater → Route → FibUpdater} {δ : Nat → Option Nat}
    (hact : ∀ u r, Effect (· = name) u (act u r) fun m f => onlyIf (m = name ∧ f = r.faceId) δ) (cond : FaceId → Bool)
    {routes : List Route} (hsorted : routes.Pairwise fun a b => a.faceId < b.faceId) (u : FibUpdater) :
    Effect (· = name) u (routes.foldl (fun u r => if cond r.faceId then act u r else u) u) fun m f =>
      onlyIf (m = name ∧ (routes.any fun r => r.faceId == f) = true ∧ cond f = true) δ := by
  induction routes generalizing u with
  | nil =>
      exact (Effect.none rfl).congr fun m f c => (congrFun (onlyIf_neg fun h => Bool.false_ne_true h.2.1) c).symm
  | cons r routes ih =>
      obtain ⟨hfirst, hrest⟩ := List.pairwise_cons.mp hsorted
      have hnot : ∀ f, f = r.faceId → (routes.any fun r => r.faceId == f) = false := by
        rintro f rfl
        rw [List.any_eq_false]
        exact fun x hx hface => (hfirst x hx).ne (beq_iff_eq.mp hface).symm
      have hone : Effect (· = name) u (if cond r.faceId then act u r else u) fun m f =>
          onlyIf (m = name ∧ f = r.faceId ∧ cond f = true) δ := by
        cases hcond : cond r.faceId with
        | true =>
            rw [if_pos rfl]
            refine (hact u r).congr fun m f c => congrFun (onlyIf_congr (and_congr_right fun _ => ?_)) c
            refine (and_iff_left_of_imp ?_).symm
            rintro rfl
            exact hcond
        | false =>
            rw [if_neg Bool.false_ne_true]
            refine (Effect.none rfl).congr fun m f c => (congrFun (onlyIf_neg ?_) c).symm
            rintro ⟨-, rfl, htrue⟩
            rw [hcond] at htrue
            cases htrue
      rw [List.foldl_cons]
      refine (hone.trans (ih hrest _)).congr fun m f c => ?_
      by_cases hf : f = r.faceId
      · have htail : onlyIf (m = name ∧ (routes.any fun r => r.faceId == f) = true ∧ cond f = true) δ = some :=
          onlyIf_neg fun h => Bool.false_ne_true ((hnot f hf).symm.trans h.2.1)
        rw [htail, Option.bind_fun_some]
        refine congrFun (onlyIf_congr ?_) c
        rw [List.any_cons, hf, beq_self_eq_true, Bool.true_or]
        exact and_congr_right fun _ => and_congr_left fun _ => iff_of_true rfl rfl
      · have hhead : onlyIf (m = name ∧ f = r.faceId ∧ cond f = true) δ = some := onlyIf_neg fun h => hf h.2.1
        rw [hhead, Option.bind_some]
        refine congrFun (onlyIf_congr ?_) c
        rw [List.any_cons, beq_false_of_ne (Ne.symm hf), Bool.false_or]

theorem addInheritedRoutes_effect (u : FibUpdater) (e : RibEntry) (routesToAdd : RouteSet) :
    Effect (· = e.name) u (u.addInheritedRoutes e routesToAdd) fun m f =>
      onlyIf (m = e.name ∧ routesToAdd.has f = true ∧ (!e.hasFaceId f) = true) gain :=
  foldl_effect (inherit_effect e.name) (fun f => !e.hasFaceId f) routesToAdd.sorted u

theorem addInheritedRoutes_nil (u : FibUpdater) (e : RibEntry) {routesToAdd : RouteSet} (h : routesToAdd.routes = []) :
    u.addInheritedRoutes e routesToAdd = u := by
  rw [addInheritedRoutes, h, List.foldl_nil]

theorem removeInheritedRoutes_effect (u : FibUpdater) (e : RibEntry) (routesToRemove : RouteSet) :
    Effect (· = e.name) u (u.removeInheritedRoutes e routesToRemove) fun m f =>
      onlyIf (m = e.name ∧ routesToRemove.has f = true ∧ e.hasInheritedRoute f = true) lose :=
  foldl_effect (disinherit_effect e.name) (fun f => e.hasInheritedRoute f) routesToRemove.sorted u

theorem addInheritedRoutesOfName_effect (u : FibUpdater) (name : Name) (routesToAdd : RouteSet) (ignore : Route) :
    Effect (· = name) u (u.addInheritedRoutesOfName name routesToAdd ignore) fun m f =>
      onlyIf (m = name ∧ routesToAdd.has f = true ∧ (f != ignore.faceId) = true) gain :=
  foldl_effect (inherit_effect name) (fun f => f != ignore.faceId) routesToAdd.sorted u

/-! ### The traversal of a subtree -/

/-- What a visit does, when the sets still have the face. -/
def visit (rib : Rib) (adds removes : Bool) (m : Name) (f : FaceId) (c : Nat) : Option Nat :=
  (onlyIf (removes = true ∧ rib.Inherits m f) lose c).bind (onlyIf (adds = true ∧ ¬ rib.Owns m f) gain)

theorem visit_none (rib : Rib) (m : Name) (f : FaceId) : visit rib false false m f = some := by
  funext c
  rw [visit, onlyIf_neg fun h => Bool.false_ne_true h.1, onlyIf_neg fun h => Bool.false_ne_true h.1, Option.bind_some]

theorem has_filter (s : RouteSet) (p : FaceId → Bool) (f : FaceId) : (s.filter p).has f = (s.has f && p f) := by
  rw [RouteSet.has, RouteSet.has, RouteSet.filter, List.any_filter, Bool.eq_iff_iff, Bool.and_eq_true, List.any_eq_true,
    List.any_eq_true]
  constructor
  · rintro ⟨r, hr, hp⟩
    rw [Bool.and_eq_true] at hp
    exact ⟨⟨r, hr, hp.2⟩, beq_iff_eq.mp hp.2 ▸ hp.1⟩
  · rintro ⟨⟨r, hr, hf⟩, hp⟩
    exact ⟨r, hr, by rw [Bool.and_eq_true]; exact ⟨beq_iff_eq.mp hf ▸ hp, hf⟩⟩

/-- What is visited from a name extends it. -/
theorem prefix_of_reachedFrom {rib : Rib} (hv : rib.Valid) {f : FaceId} (fuel : Nat) :
    ∀ {c m : Name}, m ∈ rib.reachedFrom f fuel c → c <+: m ∧ rib.Has m := by
  induction fuel with
  | zero => exact fun h => absurd h List.not_mem_nil
  | succ fuel ih =>
      intro c m h
      rw [Rib.reachedFrom] at h
      cases he : rib.entries c with
      | none =>
          rw [he] at h
          exact absurd h List.not_mem_nil
      | some e =>
          rw [he] at h
          dsimp only at h
          split at h
          · exact absurd h List.not_mem_nil
          · rcases List.mem_cons.mp h with rfl | h
            · exact ⟨List.prefix_refl _, .of_entry he⟩
            · obtain ⟨d, hd, hm⟩ := List.mem_flatMap.mp h
              have hchild := (hv.mem_children he).mp hd
              exact ⟨hchild.2.1.trans (ih hm).1, (ih hm).2⟩

/-- Names below which no name is twice. -/
def Apart (children : List Name) : Prop := children.Pairwise fun c c' => ∀ m, c <+: m → ¬ c' <+: m

theorem apart_of_isChild {rib : Rib} {n : Name} {children : List Name} (hnodup : children.Nodup)
    (hchild : ∀ c ∈ children, PrefixTree.IsChild rib.Has n c) : Apart children :=
  hnodup.imp_of_mem fun hc hc' hne _ hcm hcm' => hne ((hchild _ hc).unique (hchild _ hc') hcm hcm')

/-- A traversal of several subtrees, when that of one is known. -/
theorem foldl_traverse_effect {rib : Rib} (hv : rib.Valid) {fuel : Nat}
    (htraverse : ∀ u c A X, rib.Has c → Effect (fun m => rib.Has m ∧ c <+: m) u (traverseSubTree rib fuel u c A X)
      fun m f => if m ∈ rib.reachedFrom f fuel c then visit rib (A.has f) (X.has f) m f else some)
    (A X : RouteSet) {children : List Name} (hapart : Apart children) (hhas : ∀ c ∈ children, rib.Has c)
    (u : FibUpdater) :
    Effect (fun m => rib.Has m ∧ ∃ c ∈ children, c <+: m) u
      (children.foldl (fun u c => traverseSubTree rib fuel u c A X) u) fun m f =>
        if m ∈ children.flatMap (rib.reachedFrom f fuel) then visit rib (A.has f) (X.has f) m f else some := by
  induction children generalizing u with
  | nil => exact (Effect.none rfl).congr fun m f c => by rw [if_neg (by rw [List.flatMap_nil]; exact List.not_mem_nil)]
  | cons c children ih =>
      obtain ⟨hfirst, hrest⟩ := List.pairwise_cons.mp hapart
      rw [List.foldl_cons]
      have hhead := (htraverse u c A X (hhas c List.mem_cons_self)).mono
        (Q := fun m => rib.Has m ∧ ∃ d ∈ c :: children, d <+: m) fun m hm => ⟨hm.1, c, List.mem_cons_self, hm.2⟩
      have htail := (ih hrest (fun d hd => hhas d (List.mem_cons_of_mem c hd))
        (traverseSubTree rib fuel u c A X)).mono (Q := fun m => rib.Has m ∧ ∃ d ∈ c :: children, d <+: m)
        fun m hm => ⟨hm.1, hm.2.imp fun d hd => ⟨List.mem_cons_of_mem c hd.1, hd.2⟩⟩
      refine (hhead.trans htail).congr fun m f k => ?_
      rw [List.flatMap_cons]
      by_cases hc : m ∈ rib.reachedFrom f fuel c
      · have hnot : m ∉ children.flatMap (rib.reachedFrom f fuel) := by
          intro hm
          obtain ⟨d, hd, hmd⟩ := List.mem_flatMap.mp hm
          exact hfirst d hd m (prefix_of_reachedFrom hv fuel hc).1 (prefix_of_reachedFrom hv fuel hmd).1
        rw [if_pos hc, if_neg hnot, if_pos (List.mem_append_left _ hc), Option.bind_fun_some]
      · rw [if_neg hc, Option.bind_some]
        exact congrFun (if_congr (by rw [List.mem_append, or_iff_right hc]) rfl rfl) k

theorem inherits_iff {rib : Rib} {c : Name} {e : RibEntry} (he : rib.entries c = some e) (f : FaceId) :
    rib.Inherits c f ↔ e.hasInheritedRoute f = true := by
  rw [Rib.Inherits, he]
  rfl

theorem owns_iff {rib : Rib} {c : Name} {e : RibEntry} (he : rib.entries c = some e) (f : FaceId) :
    rib.Owns c f ↔ e.hasFaceId f = true := by
  rw [Rib.Owns, he]
  rfl

/-- A visit is the two loops at the entry. -/
theorem visit_eq {rib : Rib} {c : Name} {e : RibEntry} (he : rib.entries c = some e) (adds removes : Bool) (f : FaceId)
    (k : Nat) :
    visit rib adds removes c f k = (onlyIf (c = c ∧ removes = true ∧ e.hasInheritedRoute f = true) lose k).bind
      (onlyIf (c = c ∧ adds = true ∧ (!e.hasFaceId f) = true) gain) := by
  have hlose : (removes = true ∧ rib.Inherits c f) ↔ (c = c ∧ removes = true ∧ e.hasInheritedRoute f = true) := by
    rw [inherits_iff he]
    exact (and_iff_right rfl).symm
  have hgain : (adds = true ∧ ¬ rib.Owns c f) ↔ (c = c ∧ adds = true ∧ (!e.hasFaceId f) = true) := by
    rw [owns_iff he, Bool.not_eq_true, Bool.not_eq_true']
    exact (and_iff_right rfl).symm
  rw [visit, onlyIf_congr hlose, onlyIf_congr hgain]

/-- Nothing is reached through an entry that captures or hands down the face itself. -/
theorem reachedFrom_blocked {rib : Rib} {c : Name} {e : RibEntry} {f : FaceId} (he : rib.entries c = some e)
    (h : (e.hasCapture || e.hasChildInheritOnFaceId f) = true) (fuel : Nat) : rib.reachedFrom f fuel c = [] := by
  cases fuel with
  | zero => rfl
  | succ fuel =>
      rw [Rib.reachedFrom, he]
      exact if_pos h

theorem reachedFrom_open {rib : Rib} {c : Name} {e : RibEntry} {f : FaceId} (he : rib.entries c = some e)
    (h : (e.hasCapture || e.hasChildInheritOnFaceId f) = false) (fuel : Nat) :
    rib.reachedFrom f (fuel + 1) c = c :: e.children.flatMap (rib.reachedFrom f fuel) := by
  rw [Rib.reachedFrom, he]
  exact if_neg (by rw [h]; exact Bool.false_ne_true)

/-- A traversal visits the entries that are reached, once each. -/
theorem traverseSubTree_effect {rib : Rib} (hv : rib.Valid) (fuel : Nat) :
    ∀ u c A X, rib.Has c → Effect (fun m => rib.Has m ∧ c <+: m) u (traverseSubTree rib fuel u c A X)
      fun m f => if m ∈ rib.reachedFrom f fuel c then visit rib (A.has f) (X.has f) m f else some := by
  induction fuel with
  | zero => exact fun u c A X _ => (Effect.none rfl).congr fun m f k => congrFun (if_neg List.not_mem_nil).symm k
  | succ fuel ih =>
      intro u c A X hc
      obtain ⟨e, he⟩ := hc.entry
      have hname := hv.name_eq c e he
      rw [traverseSubTree, he]
      dsimp only
      cases hcapture : e.hasCapture with
      | true =>
          rw [if_pos rfl]
          refine (Effect.none rfl).congr fun m f k => congrFun (if_neg ?_).symm k
          rw [reachedFrom_blocked he (by rw [hcapture, Bool.true_or])]
          exact List.not_mem_nil
      | false =>
          rw [if_neg Bool.false_ne_true]
          have hchildren : ∀ d ∈ e.children, PrefixTree.IsChild rib.Has c d := fun d hd => (hv.mem_children he).mp hd
          have hremove := removeInheritedRoutes_effect u e (X.filter fun f => !e.hasChildInheritOnFaceId f)
          have hadd := addInheritedRoutes_effect
            (u.removeInheritedRoutes e (X.filter fun f => !e.hasChildInheritOnFaceId f)) e
            (A.filter fun f => !e.hasChildInheritOnFaceId f)
          have hbelow := foldl_traverse_effect hv ih (A.filter fun f => !e.hasChildInheritOnFaceId f)
            (X.filter fun f => !e.hasChildInheritOnFaceId f) (apart_of_isChild (hv.nodup_children he) hchildren)
            (fun d hd => (hchildren d hd).1)
            ((u.removeInheritedRoutes e (X.filter fun f => !e.hasChildInheritOnFaceId f)).addInheritedRoutes e
              (A.filter fun f => !e.hasChildInheritOnFaceId f))
          have hself : ∀ m, m = e.name → rib.Has m ∧ c <+: m := by
            rintro m rfl
            rw [hname]
            exact ⟨hc, List.prefix_refl c⟩
          refine (((hremove.trans hadd).mono hself).trans (hbelow.mono fun m hm => ?_)).congr fun m f k => ?_
          · obtain ⟨hhas, d, hd, hdm⟩ := hm
            exact ⟨hhas, (hchildren d hd).2.1.trans hdm⟩
          · have hstrict : c ∉ e.children.flatMap (rib.reachedFrom f fuel) := by
              intro hmem
              obtain ⟨d, hd, hdm⟩ := List.mem_flatMap.mp hmem
              have hchild := hchildren d hd
              exact hchild.2.2.1 (PrefixTree.prefix_antisymm hchild.2.1 (prefix_of_reachedFrom hv fuel hdm).1)
            rw [has_filter, has_filter, hname]
            cases hface : e.hasChildInheritOnFaceId f with
            | true =>
                have hblocked : m ∉ rib.reachedFrom f (fuel + 1) c := by
                  rw [reachedFrom_blocked he (by rw [hface, Bool.or_true])]
                  exact List.not_mem_nil
                rw [if_neg hblocked, Bool.not_true, Bool.and_false, Bool.and_false, visit_none, ite_self,
                  Option.bind_fun_some, onlyIf_neg (fun h => Bool.false_ne_true h.2.1), Option.bind_some,
                  onlyIf_neg (fun h => Bool.false_ne_true h.2.1)]
            | false =>
                have hopen : m ∈ rib.reachedFrom f (fuel + 1) c ↔
                    m = c ∨ m ∈ e.children.flatMap (rib.reachedFrom f fuel) := by
                  rw [reachedFrom_open he (by rw [hcapture, hface, Bool.or_false])]
                  exact List.mem_cons
                rw [Bool.not_false, Bool.and_true, Bool.and_true]
                by_cases hm : m = c
                · subst hm
                  rw [if_neg hstrict, if_pos (hopen.mpr (Or.inl rfl)), Option.bind_fun_some, visit_eq he]
                · have hlose : onlyIf (m = c ∧ X.has f = true ∧ e.hasInheritedRoute f = true) lose = some :=
                    onlyIf_neg fun h => hm h.1
                  have hgain : onlyIf (m = c ∧ A.has f = true ∧ (!e.hasFaceId f) = true) gain = some :=
                    onlyIf_neg fun h => hm h.1
                  rw [hlose, hgain, Option.bind_some, Option.bind_some]
                  exact congrFun (if_congr (hopen.trans (or_iff_right hm)).symm rfl rfl) k

/-- The traversals of the children of a name, in the RIB or not. -/
theorem modifyChildrensInheritedRoutes_effect {rib : Rib} (hv : rib.Valid) {n : Name} {children : List Name}
    (hnodup : children.Nodup) (hchild : ∀ c ∈ children, PrefixTree.IsChild rib.Has n c) (u : FibUpdater)
    (A X : RouteSet) :
    Effect (fun m => rib.Has m ∧ n <+: m ∧ n ≠ m) u (modifyChildrensInheritedRoutes rib u children A X) fun m f =>
      if m ∈ rib.reached children f then visit rib (A.has f) (X.has f) m f else some := by
  refine (foldl_traverse_effect hv (traverseSubTree_effect hv rib.depth) A X (apart_of_isChild hnodup hchild)
    (fun c hc => (hchild c hc).1) u).mono fun m hm => ?_
  obtain ⟨hhas, c, hc, hcm⟩ := hm
  obtain ⟨-, hnc, hne, -⟩ := hchild c hc
  exact ⟨hhas, hnc.trans hcm, fun heq => hne (PrefixTree.prefix_antisymm hnc (heq ▸ hcm))⟩

/-- A visit of an entry that inherits nothing on the face. -/
theorem visit_of_not_inherits {rib : Rib} {m : Name} {f : FaceId} (h : ¬ rib.Inherits m f) (adds removes : Bool)
    (k : Nat) :
    visit rib adds removes m f k = some (k + if adds = true ∧ ¬ rib.Owns m f then 1 else 0) := by
  rw [visit, onlyIf_neg fun h' => h h'.2, Option.bind_some, onlyIf]
  split <;> rfl

/-- A visit of an entry that inherits a route on the face. -/
theorem visit_of_inherits {rib : Rib} {m : Name} {f : FaceId} (h : rib.Inherits m f) (howns : ¬ rib.Owns m f)
    (adds removes : Bool) (k : Nat) :
    visit rib adds removes m f k =
      (if removes = true then lose k else some k).map (· + if adds = true then 1 else 0) := by
  rw [visit]
  cases removes with
  | true =>
      rw [onlyIf_pos ⟨rfl, h⟩, if_pos rfl]
      cases lose k with
      | none => rfl
      | some k' =>
          cases adds with
          | true => rw [Option.bind_some, onlyIf_pos ⟨rfl, howns⟩]; rfl
          | false => rw [Option.bind_some, onlyIf_neg fun h => Bool.false_ne_true h.1]; rfl
  | false =>
      rw [onlyIf_neg fun h => Bool.false_ne_true h.1, if_neg Bool.false_ne_true, Option.bind_some]
      cases adds with
      | true => rw [onlyIf_pos ⟨rfl, howns⟩]; rfl
      | false => rw [onlyIf_neg fun h => Bool.false_ne_true h.1]; rfl

end FibUpdater
end NfdPitless
