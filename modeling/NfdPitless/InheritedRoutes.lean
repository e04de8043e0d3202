import NfdPitless.InheritedEffects
import NfdPitless.CaptureCount

/-! The inherited routes of the RIB entries over a run of updates (`rib/rib.cpp`, `rib/fib-updater.cpp`). The records of
a batch leave every entry at most one inherited route on a face, and none on a face of its own, as long as no update
hands a route on a face down to an entry that inherits one and keeps it. -/

namespace NfdPitless.Rib

/-- No entry that a route on the face is handed down to inherits one already. -/
abbrev FreeBelow (rib : Rib) (children : List Name) (faceId : FaceId) : Prop :=
  ∀ m ∈ rib.reached children faceId, ¬ rib.Inherits m faceId

/-- A route on the face is handed down to no entry. -/
abbrev OwnedBelow (rib : Rib) (children : List Name) (faceId : FaceId) : Prop :=
  ∀ m ∈ rib.reached children faceId, rib.Owns m faceId

/-- The children of a name that is new. -/
def childrenOfNew (rib : Rib) (name : Name) : List Name :=
  (rib.findDescendantsForNonInsertedName name).filter fun descendant =>
    (rib.entries descendant).bind RibEntry.parent == rib.findParent name

/-- A new name: the route, and without CAPTURE the routes of the ancestors too, are handed down. -/
abbrev SoundNewEntry (rib : Rib) (name : Name) (route : Route) : Prop :=
  route.isChildInherit = true →
    ((rib.getAncestorRoutesOfName name).has route.faceId = true ∧ route.isCapture = true ∨
      rib.FreeBelow (rib.childrenOfNew name) route.faceId) ∧
    (route.isCapture = false → ∀ r ∈ (rib.getAncestorRoutesOfName name).routes,
      rib.FreeBelow (rib.childrenOfNew name) r.faceId)

/-- A new route of an entry: the entry may inherit a route on its face only if that is taken away, and so may those that
it is handed down to. -/
abbrev SoundNewRoute (rib : Rib) (e : RibEntry) (route : Route) : Prop :=
  ((e.hasCapture = false ∧ route.isCapture = true) ∧ (rib.getAncestorRoutes e).has route.faceId = true) ∨
    (e.hasInheritedRoute route.faceId = false ∧
      (route.isChildInherit = true →
        route.costsAtMost (e.getRouteWithLowestCostAndChildInheritByFaceId route.faceId) = true →
          rib.FreeBelow e.children route.faceId))

/-- A route registered again is handed down to entries that do not inherit one on its face, unless capture is turned on
at the same time; when capture is turned off, the routes of the ancestors go to entries that do not inherit one. -/
abbrev SoundUpdatedRoute (rib : Rib) (e : RibEntry) (route existing : Route) : Prop :=
  (FibUpdater.handsDown (e.updateRoute route) route existing = true →
    ((existing.isCapture = false ∧ route.isCapture = true) ∧ (rib.getAncestorRoutes e).has route.faceId = true) ∨
      rib.FreeBelow e.children route.faceId) ∧
  (existing.isCapture = true ∧ route.isCapture = false → ∀ r ∈ (rib.getAncestorRoutes e).routes,
    e.hasInheritedRoute r.faceId = false ∧
      if r.faceId = route.faceId ∧ (FibUpdater.handsDown (e.updateRoute route) route existing = true ∨
          existing.isChildInherit = true ∧ route.isChildInherit = false) then
        rib.OwnedBelow e.children r.faceId
      else rib.FreeBelow e.children r.faceId)

/-- Whether an erased route lets the routes of the ancestors through to the descendants. -/
def letsThrough (e : RibEntry) (existing : Route) : Bool :=
  FibUpdater.letsThrough (e.eraseRoute existing) existing (e.hasCapture && !(e.eraseRoute existing).hasCapture)

/-- Whether it lets through one on its own face. -/
def letsThroughFace (rib : Rib) (e : RibEntry) (existing : Route) : Bool :=
  letsThrough e existing && (rib.getAncestorRoutes e).has existing.faceId

/-- Whether a route of the face of an erased one is handed down when it is taken for the next one. -/
def isHandedDownFor (e : RibEntry) (existing next : Route) : Bool :=
  next.isChildInherit &&
    next.costsAtMost ((e.eraseRoute existing).getRouteWithLowestCostAndChildInheritByFaceId existing.faceId)

/-- Whether a route on the face of an erased one can be handed down in its place: one of those of the second lowest
cost. -/
def handsDownNext (e : RibEntry) (existing : Route) : Bool :=
  (Route.secondLowest (e.routes.filter fun r => r.faceId == existing.faceId)).any (isHandedDownFor e existing)

abbrev SoundErasedRoute (rib : Rib) (e : RibEntry) (existing : Route) : Prop :=
  (e.hasCapture = true ∧ (e.eraseRoute existing).hasCapture = false →
    if e.getNRoutes = 1 then (rib.getAncestorRoutes e).routes = []
    else ∀ r ∈ (rib.getAncestorRoutes e).routes, r.faceId ≠ existing.faceId ∧ e.hasInheritedRoute r.faceId = false) ∧
  (e.getNRoutes ≠ 1 → (e.eraseRoute existing).hasCapture = false →
    (rib.getAncestorRoutes e).has existing.faceId = true → (e.eraseRoute existing).hasFaceId existing.faceId = false) ∧
  (letsThrough e existing = true → ∀ r ∈ (rib.getAncestorRoutes e).routes, r.faceId ≠ existing.faceId →
    rib.FreeBelow e.children r.faceId) ∧
  (letsThroughFace rib e existing = true ∧ handsDownNext e existing = true →
    rib.OwnedBelow e.children existing.faceId) ∧
  (existing.isChildInherit = false ∧ (letsThroughFace rib e existing = true ∨ handsDownNext e existing = true) →
    rib.FreeBelow e.children existing.faceId)

/-- The records of an update leave every entry at most one inherited route on a face, and none on a face of its own. -/
def SoundUpdate (rib : Rib) (update : RibUpdate) : Prop :=
  match rib.entries update.name with
  | none => update.action = .register → rib.SoundNewEntry update.name update.route
  | some e =>
      match e.findRoute update.route with
      | none => update.action = .register → rib.SoundNewRoute e update.route
      | some existing =>
          if update.action = .register then rib.SoundUpdatedRoute e update.route existing
          else rib.SoundErasedRoute e existing

theorem soundUpdate_new {rib : Rib} {update : RibUpdate} (he : rib.entries update.name = none) :
    rib.SoundUpdate update ↔ (update.action = .register → rib.SoundNewEntry update.name update.route) := by
  rw [SoundUpdate, he]

theorem soundUpdate_newRoute {rib : Rib} {update : RibUpdate} {e : RibEntry} (he : rib.entries update.name = some e)
    (hfind : e.findRoute update.route = none) :
    rib.SoundUpdate update ↔ (update.action = .register → rib.SoundNewRoute e update.route) := by
  rw [SoundUpdate, he]
  dsimp only
  rw [hfind]

theorem soundUpdate_register {rib : Rib} {update : RibUpdate} {e : RibEntry} {existing : Route}
    (he : rib.entries update.name = some e) (hfind : e.findRoute update.route = some existing)
    (haction : update.action = .register) :
    rib.SoundUpdate update ↔ rib.SoundUpdatedRoute e update.route existing := by
  rw [SoundUpdate, he]
  dsimp only
  rw [hfind]
  dsimp only
  rw [if_pos haction]

theorem soundUpdate_erase {rib : Rib} {update : RibUpdate} {e : RibEntry} {existing : Route}
    (he : rib.entries update.name = some e) (hfind : e.findRoute update.route = some existing)
    (haction : update.action ≠ .register) : rib.SoundUpdate update ↔ rib.SoundErasedRoute e existing := by
  rw [SoundUpdate, he]
  dsimp only
  rw [hfind]
  dsimp only
  rw [if_neg haction]

instance (rib : Rib) (update : RibUpdate) : Decidable (rib.SoundUpdate update) :=
  match he : rib.entries update.name with
  | none => decidable_of_iff _ (soundUpdate_new he).symm
  | some e =>
      match hfind : e.findRoute update.route with
      | none => decidable_of_iff _ (soundUpdate_newRoute he hfind).symm
      | some _ =>
          if haction : update.action = .register then decidable_of_iff _ (soundUpdate_register he hfind haction).symm
          else decidable_of_iff _ (soundUpdate_erase he hfind haction).symm

/-- At most one inherited route on a face, and none beside a route of the entry's own. -/
def Settles (owns : Prop) (count : Option Nat) : Prop := ∃ c, count = some c ∧ c ≤ 1 ∧ (owns → c = 0)

/-- Every entry inherits at most one route on a face, and none on a face of its own. -/
def Listed (rib : Rib) : Prop :=
  ∀ m e f, rib.entries m = some e → Settles (e.hasFaceId f = true) (some (e.nInherited f))

variable {rib rib₁ : Rib} {entries : Name → Option RibEntry} {m n : Name} {e : RibEntry} {f : FaceId}

theorem Settles.of_le {owns : Prop} {c : Nat} (hle : c ≤ 1) (hown : owns → c = 0) : Settles owns (some c) :=
  ⟨c, rfl, hle, hown⟩

theorem Settles.le {owns : Prop} {c : Nat} (h : Settles owns (some c)) : c ≤ 1 ∧ (owns → c = 0) := by
  obtain ⟨c', hc', h⟩ := h
  cases hc'
  exact h

/-- Records that name entries of a table, and leave every one of them settled. -/
structure Replays (entries : Name → Option RibEntry) (records : List RibUpdate) : Prop where
  names : ∀ record ∈ records, (entries record.name).isSome = true
  settles : ∀ m e f, entries m = some e →
    Settles (e.hasFaceId f = true) (RibUpdate.tally m f records (e.nInherited f))

/-- Such records are replayed. -/
theorem Valid.replay (hv : rib₁.Valid) (hextends : rib₁.Extends entries) {records : List RibUpdate}
    (h : Replays entries records) :
    ∃ rib', rib₁.modifyInheritedRoutes records = some rib' ∧ rib'.Valid ∧ rib'.Listed := by
  have hold : ∀ m e₁, rib₁.entries m = some e₁ → ∃ e, entries m = some e ∧ (∀ f, e.hasFaceId f = e₁.hasFaceId f) ∧
      ∀ f, e.nInherited f = e₁.nInherited f := by
    intro m e₁ he₁
    obtain ⟨parent, children, hent⟩ := hextends m
    obtain ⟨e, he, rfl⟩ := Option.map_eq_some_iff.mp (hent.symm.trans he₁)
    exact ⟨e, he, fun _ => rfl, fun _ => rfl⟩
  have hnames : ∀ record ∈ records, rib₁.Has record.name := by
    intro record hrecord
    obtain ⟨parent, children, hent⟩ := hextends record.name
    rw [Has, hent, Option.isSome_map]
    exact h.names record hrecord
  have hcounts : ∀ m e₁ f, rib₁.entries m = some e₁ →
      ∃ c, RibUpdate.tally m f records (e₁.nInherited f) = some c := by
    intro m e₁ f he₁
    obtain ⟨e, he, -, hcount⟩ := hold m e₁ he₁
    obtain ⟨c, hc, -⟩ := h.settles m e f he
    exact ⟨c, by rw [← hcount, hc]⟩
  obtain ⟨rib', hreplay, hre, hfinal⟩ := modifyInheritedRoutes_spec records hnames hcounts
  refine ⟨rib', hreplay, hre.valid hv, fun m e' f he' => ?_⟩
  obtain ⟨e₁, he₁⟩ := (hre.has.mp (Has.of_entry he')).entry
  obtain ⟨e, he, hface, hcount⟩ := hold m e₁ he₁
  obtain ⟨l, hl⟩ := hre.entries m
  have hown : e'.hasFaceId f = e₁.hasFaceId f := by
    rw [he₁, he', Option.map_some] at hl
    cases hl
    rfl
  rw [← hfinal m e₁ e' f he₁ he', hown, ← hface, ← hcount]
  exact h.settles m e f he

/-- The records of an update of one entry, from what they do at its name and elsewhere. -/
theorem replays_of_effect {faceId : FaceId} {u : FibUpdater} {self : Prop} {g : Name → FaceId → Nat → Option Nat}
    (heffect : FibUpdater.Effect (FibUpdater.Around rib n self) (.new faceId) u g) {value : Option RibEntry}
    (hself : self → value.isSome = true)
    (hat : ∀ e f, value = some e → Settles (e.hasFaceId f = true) (g n f (e.nInherited f)))
    (hbelow : ∀ m e f, m ≠ n → rib.entries m = some e → Settles (e.hasFaceId f = true) (g m f (e.nInherited f))) :
    Replays (Function.update rib.entries n value) u.inheritedRoutes where
  names := fun record hrecord => by
    rcases heffect.within record hrecord with hnone | ⟨rfl, hname⟩ | ⟨hhas, -, hne⟩
    · exact absurd hnone List.not_mem_nil
    · rw [Function.update_self]
      exact hself hname
    · rw [Function.update_of_ne (Ne.symm hne)]
      exact hhas
  settles := fun m e f he => by
    have htally : RibUpdate.tally m f u.inheritedRoutes (e.nInherited f) = g m f (e.nInherited f) := heffect.tally m f _
    rw [htally]
    rw [Function.update_apply] at he
    split at he
    · rename_i hm
      subst hm
      exact hat e f he
    · rename_i hm
      exact hbelow m e f hm he

/-- Two sweeps leave an entry settled when they do not both hand a route down to it, and take one away if it has one. -/
theorem sweeps_settle (hl : rib.Listed) (he : rib.entries m = some e) (children : List Name)
    (adds removes adds' removes' : FaceId → Bool)
    (h : m ∈ rib.reached children f → ¬ rib.Owns m f → ¬ (adds f = true ∧ adds' f = true) ∧
      (rib.Inherits m f → (adds f = true ∨ adds' f = true → removes f = true ∨ removes' f = true) ∧
        (removes f = true → removes' f = true → adds f = true))) :
    Settles (e.hasFaceId f = true) ((FibUpdater.sweep rib children adds removes m f (e.nInherited f)).bind
      (FibUpdater.sweep rib children adds' removes' m f)) := by
  obtain ⟨hle, hown⟩ := (hl m e f he).le
  unfold FibUpdater.sweep
  by_cases hreached : m ∈ rib.reached children f
  · rw [if_pos hreached, if_pos hreached]
    have h := h hreached
    by_cases hinherits : rib.Inherits m f
    · have hpos := RibEntry.hasInheritedRoute_iff.mp ((FibUpdater.inherits_iff he f).mp hinherits)
      have hone : e.nInherited f = 1 := le_antisymm hle hpos
      have howns : ¬ rib.Owns m f := fun howns => by
        rw [hown ((FibUpdater.owns_iff he f).mp howns)] at hone
        cases hone
      obtain ⟨hboth, hinherited⟩ := h howns
      have hinherited := hinherited hinherits
      have hface : e.hasFaceId f = false := Bool.eq_false_of_not_eq_true fun hface =>
        howns ((FibUpdater.owns_iff he f).mpr hface)
      rw [hone, FibUpdater.visit_of_inherits hinherits howns, hface]
      simp only [FibUpdater.visit_of_inherits hinherits howns]
      revert hboth hinherited
      generalize adds f = a
      generalize adds' f = a'
      generalize removes f = r
      generalize removes' f = r'
      cases a <;> cases a' <;> cases r <;> cases r' <;> simp [lose, Settles]
    · have hzero : e.nInherited f = 0 := Nat.eq_zero_of_not_pos fun hpos =>
        hinherits ((FibUpdater.inherits_iff he f).mpr (RibEntry.hasInheritedRoute_iff.mpr hpos))
      rw [hzero, FibUpdater.visit_of_not_inherits hinherits, Option.bind_some,
        FibUpdater.visit_of_not_inherits hinherits]
      by_cases howns : rib.Owns m f
      · rw [if_neg fun h => h.2 howns, if_neg fun h => h.2 howns]
        exact .of_le (Nat.zero_le 1) fun _ => rfl
      · have hface : e.hasFaceId f = false := Bool.eq_false_of_not_eq_true fun hface =>
          howns ((FibUpdater.owns_iff he f).mpr hface)
        refine .of_le ?_ fun hface' => absurd (hface.symm.trans hface') Bool.false_ne_true
        have hboth := (h howns).1
        split
        · rename_i hfirst
          rw [if_neg fun hsecond => hboth ⟨hfirst.1, hsecond.1⟩]
        · split <;> decide
  · rw [if_neg hreached, if_neg hreached]
    exact hl m e f he

/-- One sweep, likewise. -/
theorem sweep_settles (hl : rib.Listed) (he : rib.entries m = some e) (children : List Name)
    (adds removes : FaceId → Bool)
    (h : adds f = true → removes f = true ∨ (m ∈ rib.reached children f → ¬ rib.Inherits m f)) :
    Settles (e.hasFaceId f = true) (FibUpdater.sweep rib children adds removes m f (e.nInherited f)) := by
  have hnone : FibUpdater.sweep rib children (fun _ => false) (fun _ => false) m f = some :=
    FibUpdater.sweep_none rib children rfl rfl
  have hboth := sweeps_settle hl he children adds removes (fun _ => false) (fun _ => false) (f := f)
    fun hreached _ => ⟨fun hadds => Bool.false_ne_true hadds.2, fun hinherits =>
      ⟨fun hadds => Or.inl ((h (hadds.resolve_right Bool.false_ne_true)).resolve_right fun hnot =>
        hnot hreached hinherits), fun _ hnot => absurd hnot Bool.false_ne_true⟩⟩
  rwa [hnone, Option.bind_fun_some] at hboth

/-- The name of an update is not below itself. -/
theorem not_mem_reached (hv : rib.Valid) {children : List Name}
    (hchild : ∀ c ∈ children, PrefixTree.IsChild rib.Has n c) : n ∉ rib.reached children f := by
  intro h
  obtain ⟨c, hc, hcn⟩ := List.mem_flatMap.mp h
  obtain ⟨-, hnc, hne, -⟩ := hchild c hc
  exact hne (PrefixTree.prefix_antisymm hnc (FibUpdater.prefix_of_reachedFrom hv _ hcn).1)

theorem sweep_self (hv : rib.Valid) {children : List Name}
    (hchild : ∀ c ∈ children, PrefixTree.IsChild rib.Has n c) (adds removes : FaceId → Bool) :
    FibUpdater.sweep rib children adds removes n f = some := if_neg (not_mem_reached hv hchild)

theorem childrenOfNew_nodup (hv : rib.Valid) (n : Name) : (rib.childrenOfNew n).Nodup :=
  ((hv.sorted.imp fun h => h.ne).filter _).filter _

theorem isChild_of_childrenOfNew (hv : rib.Valid) (hn : rib.entries n = none) :
    ∀ c ∈ rib.childrenOfNew n, PrefixTree.IsChild rib.Has n c := by
  intro c hc
  obtain ⟨hc, hparent⟩ := List.mem_filter.mp hc
  obtain ⟨hname, hstarts⟩ := List.mem_filter.mp hc
  have hhas := (hv.mem_names c).mp hname
  have hnot : ¬ rib.Has n := fun h => by
    rw [Has, hn] at h
    cases h
  rw [beq_iff_eq] at hparent
  refine (PrefixTree.isChild_iff_same_parent hnot hhas (Name.isPrefixOf_iff.mp hstarts)).mpr fun p => ?_
  rw [← findParent_eq_some, ← findParent_eq_some, ← hv.parent_eq c hhas]
  exact Eq.congr_left hparent

theorem newEntry_replays (hv : rib.Valid) (hl : rib.Listed) (hn : rib.entries n = none) {route : Route}
    (hsound : rib.SoundNewEntry n route) (faceId : FaceId) :
    Replays (Function.update rib.entries n (some (rib.entryWith n route)))
      (FibUpdater.createFibUpdatesForNewRibEntry rib (.new faceId) n route (rib.childrenOfNew n)).inheritedRoutes := by
  have hchild := isChild_of_childrenOfNew hv hn
  refine replays_of_effect (FibUpdater.newRibEntry_effect hv (childrenOfNew_nodup hv n) hchild (.new faceId))
    (fun _ => rfl) (fun e f he => ?_) fun m e f hm he => ?_
  · cases he
    rw [sweep_self hv hchild, Option.bind_fun_some]
    have hnone : (rib.entryWith n route).nInherited f = 0 := by
      rw [entryWith, hn]
      rfl
    have hface : (rib.entryWith n route).hasFaceId f = (route.faceId == f) := by
      rw [entryWith, hn]
      exact Bool.or_false _
    rw [hnone, hface, beq_iff_eq]
    by_cases hgain : n = n ∧ (rib.getAncestorRoutesOfName n).has f = true ∧ (f != route.faceId) = true ∧
        route.isCapture = false
    · rw [onlyIf_pos hgain]
      exact .of_le (le_refl 1) fun hf => absurd hf.symm (bne_iff_ne.mp hgain.2.2.1)
    · rw [onlyIf_neg hgain]
      exact .of_le (Nat.zero_le 1) fun _ => rfl
  · rw [onlyIf_neg fun h => hm h.1, Option.bind_some]
    refine sweep_settles hl he _ _ _ fun hadds => ?_
    rw [Bool.and_eq_true] at hadds
    obtain ⟨hroute, hancestors⟩ := hsound hadds.1
    rcases Bool.eq_false_or_eq_true route.isCapture with hcapture | hcapture
    · rw [hcapture, Bool.not_true, Bool.false_and, Bool.or_false, beq_iff_eq] at hadds
      obtain ⟨-, rfl⟩ := hadds
      rcases hroute with hhas | hfree
      · exact Or.inl (by rw [hcapture, hhas.1]; rfl)
      · exact Or.inr (hfree m)
    · right
      rw [hcapture, Bool.not_false, Bool.true_and, Bool.or_eq_true, beq_iff_eq] at hadds
      rcases hadds.2 with rfl | hhas
      · refine hroute.resolve_left (fun h => ?_) m
        rw [hcapture] at h
        exact Bool.false_ne_true h.2
      · obtain ⟨r, hr, rfl⟩ := RouteSet.has_iff.mp hhas
        exact hancestors hcapture r hr m

theorem hasFaceId_insertRoute {route : Route} (hfind : e.findRoute route = none) (f : FaceId) :
    (e.insertRoute route).hasFaceId f = (e.hasFaceId f || route.faceId == f) := by
  rw [RibEntry.hasFaceId, RibEntry.insertRoute_routes hfind, List.any_append, List.any_cons, List.any_nil,
    Bool.or_false, RibEntry.hasFaceId]

theorem nInherited_insertRoute (e : RibEntry) (route : Route) (f : FaceId) :
    (e.insertRoute route).nInherited f = e.nInherited f := by
  rw [RibEntry.nInherited, RibEntry.insertRoute_inheritedRoutes, RibEntry.nInherited]

theorem isChild_of_children (hv : rib.Valid) (he : rib.entries n = some e) :
    ∀ c ∈ e.children, PrefixTree.IsChild rib.Has n c := fun _ hc => (hv.mem_children he).mp hc

theorem newRoute_replays (hv : rib.Valid) (hl : rib.Listed) (he : rib.entries n = some e) {route : Route}
    (hfind : e.findRoute route = none) (hsound : rib.SoundNewRoute e route) (faceId : FaceId) :
    Replays (Function.update rib.entries n (some (e.insertRoute route)))
      (FibUpdater.createFibUpdatesForNewRoute rib (.new faceId) e route
        (!e.hasCapture && route.isCapture)).inheritedRoutes := by
  obtain rfl := hv.name_eq n e he
  have hchild := isChild_of_children hv he
  have hturned : (!e.hasCapture && route.isCapture) = true ↔ e.hasCapture = false ∧ route.isCapture = true := by
    rw [Bool.and_eq_true, Bool.not_eq_true']
  refine replays_of_effect (FibUpdater.newRoute_effect hv (hv.nodup_children he) hchild (.new faceId) route _)
    (fun _ => rfl) (fun e' f he' => ?_) fun m x f hm hx => ?_
  · cases he'
    rw [sweep_self hv hchild, Option.bind_fun_some, nInherited_insertRoute, hasFaceId_insertRoute hfind]
    obtain ⟨hle, hown⟩ := (hl _ e f he).le
    by_cases hloses : e.name = e.name ∧ (!e.hasCapture && route.isCapture) = true ∧
        (rib.getAncestorRoutes e).has f = true ∧ e.hasInheritedRoute f = true
    · rw [onlyIf_pos hloses, lose, if_pos (RibEntry.hasInheritedRoute_iff.mp hloses.2.2.2)]
      have hzero : e.nInherited f - 1 = 0 := Nat.sub_eq_zero_of_le hle
      rw [hzero]
      exact .of_le (Nat.zero_le 1) fun _ => rfl
    · rw [onlyIf_neg hloses]
      refine .of_le hle fun hface => ?_
      rw [Bool.or_eq_true, beq_iff_eq] at hface
      rcases hface with hface | rfl
      · exact hown hface
      · rcases hsound with ⟨hon, hhas⟩ | ⟨hnone, -⟩
        · refine Nat.eq_zero_of_not_pos fun hpos => hloses ⟨rfl, hturned.mpr hon, hhas, ?_⟩
          exact RibEntry.hasInheritedRoute_iff.mpr hpos
        · refine Nat.eq_zero_of_not_pos fun hpos => ?_
          rw [RibEntry.hasInheritedRoute_iff.mpr hpos] at hnone
          cases hnone
  · rw [onlyIf_neg fun h => hm h.1, Option.bind_some]
    refine sweep_settles hl hx _ _ _ fun hadds => ?_
    rw [Bool.and_eq_true, Bool.and_eq_true, beq_iff_eq] at hadds
    obtain ⟨⟨hinherit, hcheapest⟩, rfl⟩ := hadds
    rcases hsound with ⟨hon, hhas⟩ | ⟨-, hfree⟩
    · left
      rw [hturned.mpr hon, hhas]
      rfl
    · exact Or.inr (hfree hinherit hcheapest m)

theorem hasFaceId_updateRoute {route existing : Route} (hfind : e.findRoute route = some existing) (f : FaceId) :
    (e.updateRoute route).hasFaceId f = e.hasFaceId f := by
  have hkeys : (e.updateRoute route).routes.map Route.key = e.routes.map Route.key := by
    rw [RibEntry.updateRoute, Route.compareFaceIdAndOrigin_eq]
    exact Lists.replaceFirst_map ⟨existing, RibEntry.findRoute_some hfind⟩
  have hface : ∀ e : RibEntry, e.hasFaceId f = (e.routes.map Route.key).any fun k => k.1 == f := fun e => by
    rw [RibEntry.hasFaceId, List.any_map]
    rfl
  rw [hface, hkeys, ← hface]

/-- The records at an entry where capture is turned on or off. -/
theorem recapture_self (hl : rib.Listed) (he : rib.entries e.name = some e) (hv : rib.Valid) {turnedOn turnedOff : Bool}
    (honce : ¬ (turnedOn = true ∧ turnedOff = true))
    (hoff : turnedOff = true → (rib.getAncestorRoutes e).has f = true → e.hasInheritedRoute f = false) :
    Settles (e.hasFaceId f = true) (FibUpdater.recapture rib e turnedOn turnedOff e.name f (e.nInherited f)) := by
  obtain ⟨hle, hown⟩ := (hl _ e f he).le
  rw [FibUpdater.recapture, sweep_self hv (isChild_of_children hv he), Option.bind_fun_some]
  by_cases hloses : e.name = e.name ∧ turnedOn = true ∧ (rib.getAncestorRoutes e).has f = true ∧
      e.hasInheritedRoute f = true
  · rw [onlyIf_pos hloses, lose, if_pos (RibEntry.hasInheritedRoute_iff.mp hloses.2.2.2), Option.bind_some,
      onlyIf_neg fun h => honce ⟨hloses.2.1, h.2.1⟩, Nat.sub_eq_zero_of_le hle]
    exact .of_le (Nat.zero_le 1) fun _ => rfl
  · rw [onlyIf_neg hloses, Option.bind_some]
    by_cases hgains : e.name = e.name ∧ turnedOff = true ∧ (rib.getAncestorRoutes e).has f = true ∧
        (!e.hasFaceId f) = true
    · have hzero : e.nInherited f = 0 := Nat.eq_zero_of_not_pos fun hpos => by
        have hnone := hoff hgains.2.1 hgains.2.2.1
        rw [RibEntry.hasInheritedRoute_iff.mpr hpos] at hnone
        cases hnone
      rw [onlyIf_pos hgains, hzero]
      refine .of_le (le_refl 1) fun hface => ?_
      rw [hface] at hgains
      exact absurd hgains.2.2.2 Bool.false_ne_true
    · rw [onlyIf_neg hgains]
      exact .of_le hle hown

theorem recapture_below (hm : m ≠ e.name) (turnedOn turnedOff : Bool) :
    FibUpdater.recapture rib e turnedOn turnedOff m f =
      FibUpdater.sweep rib e.children (fun f => turnedOff && (rib.getAncestorRoutes e).has f)
        (fun f => turnedOn && (rib.getAncestorRoutes e).has f) m f := by
  funext c
  rw [FibUpdater.recapture, onlyIf_neg fun h => hm h.1, onlyIf_neg fun h => hm h.1, Option.bind_some, Option.bind_some]

theorem recapture_updateRoute {route existing : Route} (hfind : e.findRoute route = some existing)
    (turnedOn turnedOff : Bool) (m : Name) (f : FaceId) :
    FibUpdater.recapture rib (e.updateRoute route) turnedOn turnedOff m f =
      FibUpdater.recapture rib e turnedOn turnedOff m f := by
  funext c
  unfold FibUpdater.recapture
  rw [hasFaceId_updateRoute hfind]
  rfl

theorem updatedRoute_replays (hv : rib.Valid) (hl : rib.Listed) (he : rib.entries n = some e) {route existing : Route}
    (hfind : e.findRoute route = some existing) (hsound : rib.SoundUpdatedRoute e route existing) {faceId : FaceId}
    {u : FibUpdater}
    (hu : FibUpdater.createFibUpdatesForUpdatedRoute rib (.new faceId) (e.updateRoute route) route existing = some u) :
    Replays (Function.update rib.entries n (some (e.updateRoute route))) u.inheritedRoutes := by
  obtain rfl := hv.name_eq n e he
  have hchild := isChild_of_children hv he
  have hnodup := hv.nodup_children he
  have heffect := FibUpdater.updatedRoute_effect (e := e.updateRoute route) hv hnodup hchild hu
  obtain ⟨hdown, hoff⟩ := hsound
  refine replays_of_effect heffect (fun _ => rfl) (fun e' f he' => ?_) fun m x f hm hx => ?_
  · cases he'
    have hself : ∀ adds removes, FibUpdater.sweep rib (e.updateRoute route).children adds removes
        (e.updateRoute route).name f = some := sweep_self hv hchild
    rw [hself, Option.bind_some, recapture_updateRoute hfind, hasFaceId_updateRoute hfind]
    refine recapture_self hl he hv (fun h => ?_) fun hturned hhas => ?_
    · rw [Bool.and_eq_true, Bool.and_eq_true, Bool.not_eq_true'] at h
      exact Bool.false_ne_true (h.1.1.symm.trans h.2.1)
    · rw [Bool.and_eq_true, Bool.not_eq_true'] at hturned
      obtain ⟨r, hr, rfl⟩ := RouteSet.has_iff.mp hhas
      exact (hoff hturned r hr).1
  · rw [recapture_updateRoute hfind, recapture_below (e := e) hm]
    refine sweeps_settle hl hx e.children _ _ _ _ fun hreached howns => ?_
    -- what capture lets through is not handed down as well
    have hopen : existing.isCapture = true ∧ route.isCapture = false → (rib.getAncestorRoutes e).has f = true →
        ¬ rib.Inherits m f ∧ (route.faceId = f → ¬ (FibUpdater.handsDown (e.updateRoute route) route existing = true ∨
          existing.isChildInherit = true ∧ route.isChildInherit = false)) := by
      intro hturned hhas
      obtain ⟨r, hr, rfl⟩ := RouteSet.has_iff.mp hhas
      have hbelow := (hoff hturned r hr).2
      split at hbelow
      · exact absurd (hbelow m hreached) howns
      · rename_i hnot
        exact ⟨hbelow m hreached, fun hface hhands => hnot ⟨hface.symm, hhands⟩⟩
    simp only [Bool.and_eq_true, Bool.or_eq_true, Bool.not_eq_true', beq_iff_eq]
    refine ⟨?_, fun hinherits => ⟨?_, ?_⟩⟩
    · rintro ⟨⟨hadds, hface⟩, hturned, hhas⟩
      exact (hopen hturned hhas).2 hface (hadds.imp_right fun h => h.1)
    · rintro (⟨hadds, rfl⟩ | ⟨hturned, hhas⟩)
      · rcases hadds with hhands | ⟨hoff', -⟩
        · exact Or.inr ((hdown hhands).resolve_right fun hfree => hfree m hreached hinherits)
        · exact Or.inl ⟨hoff', rfl⟩
      · exact absurd hinherits (hopen hturned hhas).1
    · rintro ⟨hoff', rfl⟩ ⟨-, hhas⟩
      exact ⟨Or.inr ⟨hoff', Or.inr hhas⟩, rfl⟩

/-! ### An erased route -/

theorem eraseRoute_congr {route existing : Route} (hkey : existing.key = route.key) :
    e.eraseRoute route = e.eraseRoute existing := by
  have hsame : ∀ r : Route, r.compareFaceIdAndOrigin route = r.compareFaceIdAndOrigin existing := by
    intro r
    rw [Bool.eq_iff_iff, Route.compareFaceIdAndOrigin_iff, Route.compareFaceIdAndOrigin_iff, hkey]
  simp only [RibEntry.eraseRoute, RibEntry.findRoute, hsame]

theorem getAncestorRoutes_eraseRoute (rib : Rib) (e : RibEntry) (route : Route) :
    rib.getAncestorRoutes (e.eraseRoute route) = rib.getAncestorRoutes e := by
  rw [getAncestorRoutes, RibEntry.eraseRoute_name, RibEntry.eraseRoute_parent, getAncestorRoutes]

theorem hasFaceId_of_eraseRoute {route existing : Route} (hfind : e.findRoute route = some existing)
    (h : (e.eraseRoute route).hasFaceId f = true) : e.hasFaceId f = true := by
  obtain ⟨r, hr, hface⟩ := RibEntry.hasFaceId_iff.mp h
  rw [RibEntry.eraseRoute_routes hfind] at hr
  exact RibEntry.hasFaceId_iff.mpr ⟨r, List.mem_of_mem_eraseP hr, hface⟩

theorem getNRoutes_eraseRoute {route existing : Route} (hfind : e.findRoute route = some existing) :
    (e.eraseRoute route).getNRoutes + 1 = e.getNRoutes := by
  have hmem := (RibEntry.findRoute_some hfind).1
  have hlength := List.length_eraseP_of_mem (p := fun r => r.compareFaceIdAndOrigin route) hmem
    (Route.compareFaceIdAndOrigin_iff.mpr (RibEntry.findRoute_some hfind).2)
  have hpos := List.length_pos_of_mem hmem
  rw [RibEntry.getNRoutes, RibEntry.eraseRoute_routes hfind, hlength, RibEntry.getNRoutes]
  omega

theorem turned_off_iff {route : Route} : (e.hasCapture && !(e.eraseRoute route).hasCapture) = true ↔
    e.hasCapture = true ∧ (e.eraseRoute route).hasCapture = false := by
  rw [Bool.and_eq_true, Bool.not_eq_true']

/-- Only a route with the CAPTURE flag turns capture off. -/
theorem isCapture_of_turned_off {route existing : Route} (hfind : e.findRoute route = some existing)
    (hoff : (e.hasCapture && !(e.eraseRoute route).hasCapture) = true) : existing.isCapture = true := by
  cases hcapture : existing.isCapture with
  | true => rfl
  | false =>
      have hcount : (e.eraseRoute route).nRoutesWithCaptureSet = e.nRoutesWithCaptureSet := by
        rw [RibEntry.eraseRoute, hfind]
        exact if_neg (by rw [hcapture]; exact Bool.false_ne_true)
      simp only [RibEntry.hasCapture, hcount, Bool.and_not_self, Bool.false_eq_true] at hoff

theorem secondLowest_faceId {nthElement : NthElement} {next : Route}
    (h : e.getRouteWithSecondLowestCostByFaceId nthElement f = some next) : next.faceId = f := by
  have hmem := (Route.mem_secondLowest.mp (nthElement.mem _ _ h)).1
  rw [List.mem_filter, beq_iff_eq] at hmem
  exact hmem.2

/-- Whether the route that stands second is handed down in the place of an erased one. -/
def chosenHandedDown (nthElement : NthElement) (e : RibEntry) (existing : Route) : Bool :=
  (e.getRouteWithSecondLowestCostByFaceId nthElement existing.faceId).any (isHandedDownFor e existing)

theorem handsDownNext_of_chosen {nthElement : NthElement} {existing : Route}
    (h : chosenHandedDown nthElement e existing = true) : handsDownNext e existing = true := by
  obtain ⟨next, hsecond, hdown⟩ := (Option.any_eq_true _ _).mp h
  exact List.any_eq_true.mpr ⟨next, nthElement.mem _ _ hsecond, hdown⟩

/-- The records of an unregistration: those of the erased route, then those of the one that is handed down instead. -/
theorem unregistration_effect (hv : rib.Valid) (he : rib.entries n = some e) {route existing : Route}
    (hfind : e.findRoute route = some existing) (nthElement : NthElement) (u : FibUpdater) :
    FibUpdater.Effect (FibUpdater.Around rib n ((e.eraseRoute route).getNRoutes ≠ 0 ∨
        (e.hasCapture && !(e.eraseRoute route).hasCapture) = true ∧ (rib.getAncestorRoutes e).routes ≠ [])) u
      (FibUpdater.computeUpdatesForUnregistration nthElement rib u n route) fun m f c =>
        (((onlyIf (m = n ∧ (e.hasCapture && !(e.eraseRoute route).hasCapture) = true ∧
            (rib.getAncestorRoutes e).has f = true ∧ (!(e.eraseRoute route).hasFaceId f) = true) gain c).bind
          (FibUpdater.sweep rib e.children (fun f => letsThrough e existing && (rib.getAncestorRoutes e).has f)
            (fun f => existing.isChildInherit && existing.faceId == f) m f)).bind
          (onlyIf (m = n ∧ (!(e.eraseRoute route).hasCapture && (e.eraseRoute route).getNRoutes != 0) = true ∧
            (rib.getAncestorRoutes e).has f = true ∧ existing.faceId = f) gain)).bind
        (FibUpdater.sweep rib e.children (fun f => chosenHandedDown nthElement e existing && existing.faceId == f)
          (fun _ => false) m f) := by
  obtain rfl := hv.name_eq n e he
  have hkey := (RibEntry.findRoute_some hfind).2
  have hface : existing.faceId = route.faceId := (Prod.mk.inj hkey).1
  have hname : (e.eraseRoute route).name = e.name := RibEntry.eraseRoute_name e route
  have hchildren : (e.eraseRoute route).children = e.children := RibEntry.eraseRoute_children e route
  have hnodup : (e.eraseRoute route).children.Nodup := hchildren ▸ hv.nodup_children he
  have hchild : ∀ c ∈ (e.eraseRoute route).children, PrefixTree.IsChild rib.Has (e.eraseRoute route).name c := by
    rw [hchildren, hname]
    exact isChild_of_children hv he
  have herased := FibUpdater.erasedRoute_effect hv hnodup hchild u existing _ (isCapture_of_turned_off hfind)
  have hnext : ∀ (self : Prop) u, FibUpdater.Effect (FibUpdater.Around rib e.name self) u
      ((e.getRouteWithSecondLowestCostByFaceId nthElement route.faceId).elim u fun next =>
        FibUpdater.createFibUpdatesForNewRoute rib u (e.eraseRoute route) next false)
      (FibUpdater.sweep rib e.children (fun f => chosenHandedDown nthElement e existing && existing.faceId == f)
        (fun _ => false)) := by
    intro self u
    rw [chosenHandedDown, hface]
    cases hsecond : e.getRouteWithSecondLowestCostByFaceId nthElement route.faceId with
    | none =>
        exact (FibUpdater.Effect.none rfl).congr fun m f c => by
          rw [FibUpdater.sweep_none rib e.children rfl rfl]
    | some next =>
        have hroute := FibUpdater.newRoute_effect hv hnodup hchild u next false
        rw [hname, hchildren, secondLowest_faceId hsecond] at hroute
        refine (hroute.mono fun m hm => ?_).congr fun m f c => ?_
        · exact hm.imp_left fun h => absurd h.2 Bool.false_ne_true
        · rw [onlyIf_neg fun h => Bool.false_ne_true h.2.1, Option.bind_some, Option.any_some, isHandedDownFor,
            ← eraseRoute_congr hkey, hface]
          rfl
  rw [hname, hchildren, getAncestorRoutes_eraseRoute] at herased
  rw [letsThrough, ← eraseRoute_congr hkey]
  unfold FibUpdater.computeUpdatesForUnregistration
  rw [he]
  dsimp only
  rw [hfind]
  dsimp only
  have hboth := herased.trans (hnext _ _)
  split
  · exact hboth.finish (FibUpdater.createFibUpdatesForErasedRibEntry_inheritedRoutes _ e)
  · exact hboth

/-- The records at the entry, when it keeps other routes. -/
theorem unregistration_self (hl : rib.Listed) (he : rib.entries n = some e) {route existing : Route}
    (hfind : e.findRoute route = some existing) (hsound : rib.SoundErasedRoute e existing)
    (hleft : (e.eraseRoute route).getNRoutes ≠ 0) (f : FaceId) :
    Settles ((e.eraseRoute route).hasFaceId f = true)
      ((onlyIf (n = n ∧ (e.hasCapture && !(e.eraseRoute route).hasCapture) = true ∧
          (rib.getAncestorRoutes e).has f = true ∧
          (!(e.eraseRoute route).hasFaceId f) = true) gain (e.nInherited f)).bind
        (onlyIf (n = n ∧ (!(e.eraseRoute route).hasCapture && (e.eraseRoute route).getNRoutes != 0) = true ∧
          (rib.getAncestorRoutes e).has f = true ∧ existing.faceId = f) gain)) := by
  obtain ⟨hmem, hkey⟩ := RibEntry.findRoute_some hfind
  have hcount := getNRoutes_eraseRoute hfind
  obtain ⟨hoff, hown, -⟩ := hsound
  rw [← eraseRoute_congr hkey] at hoff hown
  obtain ⟨hle, hnone⟩ := (hl n e f he).le
  have hface : existing.faceId = f → e.nInherited f = 0 := by
    rintro rfl
    exact hnone (RibEntry.hasFaceId_iff.mpr ⟨existing, hmem, rfl⟩)
  by_cases hancestors : n = n ∧ (e.hasCapture && !(e.eraseRoute route).hasCapture) = true ∧
      (rib.getAncestorRoutes e).has f = true ∧ (!(e.eraseRoute route).hasFaceId f) = true
  · obtain ⟨-, hcapture, hhas, hnot⟩ := hancestors
    obtain ⟨r, hr, rfl⟩ := RouteSet.has_iff.mp hhas
    have hfree := hoff (turned_off_iff.mp hcapture)
    rw [if_neg (by omega)] at hfree
    obtain ⟨hne, hinherits⟩ := hfree r hr
    have hzero : e.nInherited r.faceId = 0 := Nat.eq_zero_of_not_pos fun hpos =>
      Bool.false_ne_true (hinherits.symm.trans (RibEntry.hasInheritedRoute_iff.mpr hpos))
    rw [onlyIf_pos ⟨rfl, hcapture, hhas, hnot⟩, onlyIf_neg fun h => hne h.2.2.2.symm, hzero]
    refine .of_le (le_refl 1) fun hkept => ?_
    rw [hkept] at hnot
    exact absurd hnot Bool.false_ne_true
  · rw [onlyIf_neg hancestors, Option.bind_some]
    by_cases hblocked : n = n ∧ (!(e.eraseRoute route).hasCapture && (e.eraseRoute route).getNRoutes != 0) = true ∧
        (rib.getAncestorRoutes e).has f = true ∧ existing.faceId = f
    · rw [onlyIf_pos hblocked]
      obtain ⟨-, hopen, hhas, rfl⟩ := hblocked
      rw [Bool.and_eq_true, Bool.not_eq_true'] at hopen
      rw [hface rfl]
      exact .of_le (le_refl 1) fun hkept =>
        absurd ((hown (by omega) hopen.1 hhas).symm.trans hkept) Bool.false_ne_true
    · rw [onlyIf_neg hblocked]
      exact .of_le hle fun hkept => hnone (hasFaceId_of_eraseRoute hfind hkept)

/-- The records at an entry below: what the erased route let through and what is handed down instead. -/
theorem unregistration_below (hl : rib.Listed) {x : RibEntry} (hx : rib.entries m = some x) {existing : Route}
    (hsound : rib.SoundErasedRoute e existing) (nthElement : NthElement) (f : FaceId) :
    Settles (x.hasFaceId f = true)
      ((FibUpdater.sweep rib e.children (fun f => letsThrough e existing && (rib.getAncestorRoutes e).has f)
          (fun f => existing.isChildInherit && existing.faceId == f) m f (x.nInherited f)).bind
        (FibUpdater.sweep rib e.children (fun f => chosenHandedDown nthElement e existing && existing.faceId == f)
          (fun _ => false) m f)) := by
  obtain ⟨-, -, hlets, hboth, hlast⟩ := hsound
  refine sweeps_settle hl hx e.children _ _ _ _ fun hreached howns => ?_
  simp only [Bool.and_eq_true, beq_iff_eq]
  refine ⟨?_, fun hinherits => ⟨fun hadds => ?_, fun _ hnot => absurd hnot Bool.false_ne_true⟩⟩
  · rintro ⟨⟨hthrough, hhas⟩, hnext, rfl⟩
    exact howns (hboth ⟨by rw [letsThroughFace, hthrough, hhas]; rfl, handsDownNext_of_chosen hnext⟩ m
      hreached)
  · -- only the face of the erased route may be handed down again
    have hsame : existing.faceId = f := by
      by_contra hne
      obtain ⟨hthrough, hhas⟩ := hadds.resolve_right fun h => hne h.2
      obtain ⟨r, hr, rfl⟩ := RouteSet.has_iff.mp hhas
      exact hlets hthrough r hr (Ne.symm hne) m hreached hinherits
    subst hsame
    have hdown : letsThroughFace rib e existing = true ∨ handsDownNext e existing = true := by
      rw [letsThroughFace, Bool.and_eq_true]
      exact hadds.imp_right fun h => handsDownNext_of_chosen h.1
    refine Or.inl ⟨?_, rfl⟩
    by_contra hinherit
    exact hlast ⟨Bool.eq_false_of_not_eq_true hinherit, hdown⟩ m hreached hinherits

theorem unregistration_replays (hv : rib.Valid) (hl : rib.Listed) (he : rib.entries n = some e) {route existing : Route}
    (hfind : e.findRoute route = some existing) (hsound : rib.SoundErasedRoute e existing) (nthElement : NthElement)
    (faceId : FaceId) :
    Replays (rib.entriesWithout n route)
      (FibUpdater.computeUpdatesForUnregistration nthElement rib (.new faceId) n route).inheritedRoutes := by
  have hentries : rib.entriesWithout n route = Function.update rib.entries n
      (if (e.eraseRoute route).getNRoutes = 0 then none else some (e.eraseRoute route)) := by
    rw [entriesWithout, he]
    dsimp only
    rw [hfind]
    rfl
  rw [hentries]
  refine replays_of_effect (unregistration_effect hv he hfind nthElement (.new faceId)) (fun hself => ?_)
    (fun e' f he' => ?_)
    fun m x f hm hx => ?_
  · split
    · rename_i hempty
      rcases hself with hleft | ⟨hcapture, hroutes⟩
      · exact absurd hempty hleft
      · have hcount := getNRoutes_eraseRoute hfind
        have hnone := hsound.1 (eraseRoute_congr (RibEntry.findRoute_some hfind).2 ▸ turned_off_iff.mp hcapture)
        rw [if_pos (by omega)] at hnone
        exact absurd hnone hroutes
    · rfl
  · split at he'
    · cases he'
    · rename_i hleft
      cases he'
      rw [sweep_self hv (isChild_of_children hv he), sweep_self hv (isChild_of_children hv he), Option.bind_fun_some,
        Option.bind_fun_some, RibEntry.nInherited, RibEntry.eraseRoute_inheritedRoutes, ← RibEntry.nInherited]
      exact unregistration_self hl he hfind hsound hleft f
  · rw [onlyIf_neg fun h => hm h.1, onlyIf_neg fun h => hm h.1, Option.bind_some, Option.bind_fun_some]
    exact unregistration_below hl hx hsound nthElement f

/-! ### A run of updates -/

theorem Listed.replays (hl : rib.Listed) : Replays rib.entries [] where
  names := fun _ h => absurd h List.not_mem_nil
  settles := hl

theorem registration_replays (hv : rib.Valid) (hl : rib.Listed) {update : RibUpdate} (hsound : rib.SoundUpdate update)
    (haction : update.action = .register) {faceId : FaceId} {u : FibUpdater}
    (hu : FibUpdater.computeUpdatesForRegistration rib (.new faceId) update.name update.route = some u) :
    Replays (Function.update rib.entries update.name (some (rib.entryWith update.name update.route)))
      u.inheritedRoutes := by
  unfold FibUpdater.computeUpdatesForRegistration at hu
  cases he : rib.entries update.name with
  | none =>
      rw [he] at hu
      cases hu
      exact newEntry_replays hv hl he ((soundUpdate_new he).mp hsound haction) faceId
  | some e =>
      rw [he] at hu
      dsimp only at hu
      cases hfind : e.findRoute update.route with
      | none =>
          rw [hfind] at hu
          cases hu
          rw [entryWith, he, Option.getD_some, RibEntry.put_of_none hfind]
          exact newRoute_replays hv hl he hfind ((soundUpdate_newRoute he hfind).mp hsound haction) faceId
      | some existing =>
          rw [hfind] at hu
          rw [entryWith, he, Option.getD_some, RibEntry.put_of_some hfind]
          exact updatedRoute_replays hv hl he hfind ((soundUpdate_register he hfind haction).mp hsound) hu

theorem removal_replays (hv : rib.Valid) (hl : rib.Listed) {update : RibUpdate} (hsound : rib.SoundUpdate update)
    (haction : update.action ≠ .register) (nthElement : NthElement) (faceId : FaceId) :
    Replays (rib.entriesWithout update.name update.route)
      (FibUpdater.computeUpdatesForUnregistration nthElement rib (.new faceId) update.name
        update.route).inheritedRoutes := by
  cases he : rib.entries update.name with
  | none =>
      unfold FibUpdater.computeUpdatesForUnregistration entriesWithout
      rw [he]
      exact hl.replays
  | some e =>
      cases hfind : e.findRoute update.route with
      | none =>
          unfold FibUpdater.computeUpdatesForUnregistration entriesWithout
          rw [he]
          dsimp only
          rw [hfind, if_pos Option.isNone_none]
          exact hl.replays
      | some existing =>
          exact unregistration_replays hv hl he hfind ((soundUpdate_erase he hfind haction).mp hsound) nthElement faceId

/-- The records of a sound update are replayed on the RIB that it has been applied to. -/
theorem Valid.batch (hv : rib.Valid) (hl : rib.Listed) {update : RibUpdate} (hsound : rib.SoundUpdate update)
    {nthElement : NthElement} {faceId : FaceId} {u : FibUpdater}
    (hu : FibUpdater.computeUpdates nthElement rib (.new faceId) update = some u)
    (happly : rib.applyUpdate update = some rib₁) :
    ∃ rib', rib₁.modifyInheritedRoutes u.inheritedRoutes = some rib' ∧ rib'.Valid ∧ rib'.Listed := by
  unfold FibUpdater.computeUpdates at hu
  unfold applyUpdate at happly
  cases haction : update.action with
  | register =>
      rw [haction] at hu happly
      obtain ⟨hv₁, hextends⟩ := hv.insert happly
      exact hv₁.replay hextends (registration_replays hv hl hsound haction hu)
  | unregister =>
      rw [haction] at hu happly
      cases hu
      obtain ⟨hv₁, hextends⟩ := hv.erase happly
      exact hv₁.replay hextends (removal_replays hv hl hsound (by rw [haction]; decide) nthElement faceId)
  | removeFace =>
      rw [haction] at hu happly
      cases hu
      obtain ⟨hv₁, hextends⟩ := hv.erase happly
      exact hv₁.replay hextends (removal_replays hv hl hsound (by rw [haction]; decide) nthElement faceId)

end NfdPitless.Rib

namespace NfdPitless.RibState

/-- The update that is sent leaves the inherited routes right. -/
def SendsSound (s : RibState) : Event → Prop
  | .sendBatchFromQueue => ∀ update ∈ s.updateBatches.head?, s.rib.SoundUpdate update
  | _ => True

instance (s : RibState) (event : Event) : Decidable (s.SendsSound event) :=
  match event with
  | .sendBatchFromQueue => inferInstanceAs (Decidable (∀ update ∈ s.updateBatches.head?, s.rib.SoundUpdate update))
  | .beginApplyUpdate _ => inferInstanceAs (Decidable True)
  | .beginRemoveFace _ => inferInstanceAs (Decidable True)
  | .onFibUpdateSuccess => inferInstanceAs (Decidable True)

/-- The invariant of the runs. -/
structure Recorded (s : RibState) : Prop where
  valid : s.rib.Valid
  listed : s.rib.Listed
  replays : ∀ update records rib, s.inProgress = some (update, records) → s.rib.applyUpdate update = some rib →
    ∃ rib', rib.modifyInheritedRoutes records = some rib' ∧ rib'.Valid ∧ rib'.Listed

theorem init_recorded : Recorded init where
  valid := .empty
  listed := fun _ _ _ he => nomatch he
  replays := fun _ _ _ h => nomatch h

theorem Recorded.step {nthElement : NthElement} {s s' : RibState} {event : Event} (h : s.Recorded)
    (hok : s.SendsSound event) (hstep : s.step nthElement event = some s') : s'.Recorded := by
  cases event with
  | beginApplyUpdate update =>
      rw [RibState.step] at hstep
      split at hstep
      · cases hstep
      · cases hstep
        exact ⟨h.valid, h.listed, h.replays⟩
  | beginRemoveFace faceId =>
      cases hstep
      exact ⟨h.valid, h.listed, h.replays⟩
  | sendBatchFromQueue =>
      rw [RibState.step, RibState.sendBatchFromQueue] at hstep
      split at hstep
      · rename_i update updateBatches hidle hqueue
        obtain ⟨u, hu, rfl⟩ := Option.map_eq_some_iff.mp hstep
        refine ⟨h.valid, h.listed, fun update' records rib hprogress happly => ?_⟩
        cases hprogress
        have hsound := hok update (by rw [hqueue]; rfl)
        exact h.valid.batch h.listed hsound hu happly
      · cases hstep
  | onFibUpdateSuccess =>
      rw [RibState.step, RibState.onFibUpdateSuccess] at hstep
      split at hstep
      · cases hstep
      · rename_i update records hprogress
        obtain ⟨rib', hrib', rfl⟩ := Option.map_eq_some_iff.mp hstep
        obtain ⟨rib, happly, hreplay⟩ := Option.bind_eq_some_iff.mp hrib'
        obtain ⟨rib'', hreplay', hv, hl⟩ := h.replays update records rib hprogress happly
        cases hreplay.symm.trans hreplay'
        exact ⟨hv, hl, fun _ _ _ hnone => nomatch hnone⟩

/-- An update is queued and sent. -/
def sent (action : RibUpdate.Action) (name : Name) (route : Route) : List Event :=
  [.beginApplyUpdate ⟨action, name, route⟩, .sendBatchFromQueue]

/-- It is applied as well. -/
def applied (action : RibUpdate.Action) (name : Name) (route : Route) : List Event :=
  sent action name route ++ [.onFibUpdateSuccess]

end NfdPitless.RibState
