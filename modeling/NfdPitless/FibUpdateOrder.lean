import NfdPitless.FibCommands
import NfdPitless.FibManager
import NfdPitless.FibUpdaterRules

/-! The order in which NFD executes the commands of a batch (`rib/fib-updater.cpp`, `daemon/mgmt/fib-manager.cpp`). No
two updates of the batch are for the same next hop, so each command decides one next hop alone. What remains of the
order is that of next hops of equal cost. -/

namespace NfdPitless

namespace Fib

variable {nextHops : List NextHop} {face : Face} {a : NextHop}

theorem mem_setNextHop_iff (h : (nextHops.map NextHop.face).Nodup) (face : Face) (cost : Nat) :
    a ∈ setNextHop face cost nextHops ↔ a = ⟨face, cost⟩ ∨ a.face ≠ face ∧ a ∈ nextHops := by
  induction nextHops with
  | nil => simp [setNextHop]
  | cons b nextHops ih =>
      rw [List.map_cons, List.nodup_cons] at h
      rw [setNextHop]
      by_cases hb : b.face = face
      · have hrest : a ∈ nextHops → a.face ≠ face := fun ha heq =>
          h.1 (List.mem_map.mpr ⟨a, ha, heq.trans hb.symm⟩)
        rw [if_pos hb, List.mem_cons, List.mem_cons]
        constructor
        · exact Or.imp_right fun ha => ⟨hrest ha, Or.inr ha⟩
        · rintro (ha | ⟨hne, rfl | ha⟩)
          · exact Or.inl ha
          · exact absurd hb hne
          · exact Or.inr ha
      · rw [if_neg hb, List.mem_cons, List.mem_cons, ih h.2]
        constructor
        · rintro (rfl | ha | ha)
          · exact Or.inr ⟨hb, Or.inl rfl⟩
          · exact Or.inl ha
          · exact Or.inr ⟨ha.1, Or.inr ha.2⟩
        · rintro (ha | ⟨hne, ha | ha⟩)
          · exact Or.inr (Or.inl ha)
          · exact Or.inl ha
          · exact Or.inr (Or.inr ⟨hne, ha⟩)

theorem Ordered.mem_erase_iff (h : Ordered nextHops) :
    (a ∈ nextHops.eraseP fun b => b.face == face) ↔ a.face ≠ face ∧ a ∈ nextHops := by
  constructor
  · exact fun ha => ⟨h.face_ne_of_mem_erase ha, List.mem_of_mem_eraseP ha⟩
  · rintro ⟨hne, ha⟩
    exact (List.mem_eraseP_of_neg (by simpa using hne)).mpr ha

theorem Ordered.nodup_nextHops (h : Ordered nextHops) : nextHops.Nodup := h.nodup.of_map NextHop.face

/-- The same next hops, both times the cheaper ones first: only those of equal cost may stand in another order. -/
structure SameUpToTies (nextHops nextHops' : List NextHop) : Prop where
  perm : nextHops.Perm nextHops'
  sorted : nextHops.Pairwise fun a b => a.cost ≤ b.cost
  sorted' : nextHops'.Pairwise fun a b => a.cost ≤ b.cost

theorem Ordered.sameUpToTies {nextHops' : List NextHop} (h : Ordered nextHops) (h' : Ordered nextHops')
    (hmem : ∀ a, a ∈ nextHops ↔ a ∈ nextHops') : SameUpToTies nextHops nextHops' where
  perm := (List.perm_ext_iff_of_nodup h.nodup_nextHops h'.nodup_nextHops).mpr hmem
  sorted := h.sorted
  sorted' := h'.sorted

end Fib

/-- The next hops of each name; a name without an entry has none. -/
abbrev FibEntries := Name → List NextHop

/-- The request is for the next hop of a name and a face, where `faces` gives the face of an id. -/
def FibUpdate.Addresses (faces : FaceId → Option Face) (request : FibUpdate) (name : Name) (face : Face) : Prop :=
  request.name = name ∧ faces request.faceId = some face

/-- No face has the ids of two of the requests. -/
def FibUpdate.OneIdEach (faces : FaceId → Option Face) (requests : List FibUpdate) : Prop :=
  ∀ r ∈ requests, ∀ r' ∈ requests, ∀ face, faces r.faceId = some face → faces r'.faceId = some face →
    r.faceId = r'.faceId

namespace FibEntries

variable {faces : FaceId → Option Face} {fib : FibEntries} {request : FibUpdate} {name : Name} {a : NextHop}

/-- A request for a face that does not exist changes nothing. -/
def execute (faces : FaceId → Option Face) (fib : FibEntries) (request : FibUpdate) : FibEntries :=
  (faces request.faceId).elim fib fun face => Function.update fib request.name <|
    match request.action with
    | .addNextHop => (Fib.setNextHop face request.cost (fib request.name)).insertionSort fun a b => a.cost ≤ b.cost
    | .removeNextHop => (fib request.name).eraseP fun h => h.face == face

def Ordered (fib : FibEntries) : Prop := ∀ name, Fib.Ordered (fib name)

theorem Ordered.execute (h : fib.Ordered) (faces : FaceId → Option Face) (request : FibUpdate) :
    (fib.execute faces request).Ordered := by
  intro name
  unfold FibEntries.execute
  cases faces request.faceId with
  | none => exact h name
  | some face =>
      rw [Option.elim_some, Function.update_apply]
      split
      · cases request.action with
        | addNextHop => exact (h request.name).set face request.cost
        | removeNextHop => exact (h request.name).erase face
      · exact h name

/-- A request decides the next hop it is for, and no other. -/
theorem Ordered.mem_execute (h : fib.Ordered) :
    a ∈ fib.execute faces request name ↔ request.Addresses faces name a.face ∧ request.effect = some a.cost ∨
      ¬ request.Addresses faces name a.face ∧ a ∈ fib name := by
  unfold FibEntries.execute FibUpdate.Addresses
  cases faces request.faceId with
  | none => simp
  | some face =>
      rw [Option.elim_some, Function.update_apply, Option.some_inj]
      by_cases hname : name = request.name
      · subst hname
        rw [if_pos rfl]
        unfold FibUpdate.effect
        cases request.action with
        | addNextHop =>
            have hset := Fib.mem_setNextHop_iff (a := a) (h request.name).nodup face request.cost
            obtain ⟨face', cost'⟩ := a
            rw [List.mem_insertionSort, hset, NextHop.mk.injEq]
            simp only [true_and, Option.some_inj, ne_eq, eq_comm]
        | removeNextHop =>
            rw [(h request.name).mem_erase_iff]
            simp [eq_comm]
      · rw [if_neg hname]
        simp [Ne.symm hname]

theorem Ordered.foldl (h : fib.Ordered) (faces : FaceId → Option Face) (requests : List FibUpdate) :
    (requests.foldl (FibEntries.execute faces) fib).Ordered := by
  induction requests generalizing fib with
  | nil => exact h
  | cons request requests ih => exact ih (h.execute faces request)

/-- Requests for different next hops decide each its own. -/
theorem Ordered.mem_foldl {requests : List FibUpdate} (h : fib.Ordered)
    (hfaces : FibUpdate.OneIdEach faces requests) (hnodup : (requests.map FibUpdate.key).Nodup) :
    a ∈ requests.foldl (FibEntries.execute faces) fib name ↔
      (∃ r ∈ requests, r.Addresses faces name a.face ∧ r.effect = some a.cost) ∨
      (∀ r ∈ requests, ¬ r.Addresses faces name a.face) ∧ a ∈ fib name := by
  induction requests generalizing fib with
  | nil => simp
  | cons first requests ih =>
      rw [List.map_cons, List.nodup_cons] at hnodup
      have halone : first.Addresses faces name a.face → ∀ r ∈ requests, ¬ r.Addresses faces name a.face := by
        intro hfirst r hr hsecond
        have hid := hfaces first List.mem_cons_self r (List.mem_cons_of_mem _ hr) a.face hfirst.2 hsecond.2
        exact hnodup.1 (List.mem_map.mpr ⟨r, hr, Prod.ext (hsecond.1.trans hfirst.1.symm) hid.symm⟩)
      have hrest := ih (h.execute faces first)
        (fun r hr r' hr' => hfaces r (List.mem_cons_of_mem _ hr) r' (List.mem_cons_of_mem _ hr')) hnodup.2
      rw [List.foldl_cons, hrest, h.mem_execute, List.exists_mem_cons_iff, List.forall_mem_cons]
      by_cases hfirst : first.Addresses faces name a.face
      · have hnone : ¬ ∃ r ∈ requests, r.Addresses faces name a.face ∧ r.effect = some a.cost :=
          fun ⟨r, hr, haddr, _⟩ => halone hfirst r hr haddr
        simp only [hfirst, hnone, not_true_eq_false, true_and, false_and, or_false, false_or]
        exact and_iff_right (halone hfirst)
      · simp only [hfirst, not_false_eq_true, true_and, false_and, false_or]

/-- The order of requests for different next hops does not matter. -/
theorem Ordered.foldl_perm {requests requests' : List FibUpdate} (h : fib.Ordered)
    (hfaces : FibUpdate.OneIdEach faces requests) (hnodup : (requests.map FibUpdate.key).Nodup)
    (hperm : requests'.Perm requests) (name : Name) :
    Fib.SameUpToTies (requests'.foldl (FibEntries.execute faces) fib name)
      (requests.foldl (FibEntries.execute faces) fib name) := by
  refine (h.foldl faces requests' name).sameUpToTies (h.foldl faces requests name) fun a => ?_
  have hnodup' : (requests'.map FibUpdate.key).Nodup := (hperm.map _).nodup_iff.mpr hnodup
  rw [h.mem_foldl hfaces hnodup, h.mem_foldl (fun r hr r' hr' =>
    hfaces r (hperm.mem_iff.mp hr) r' (hperm.mem_iff.mp hr')) hnodup']
  simp only [hperm.mem_iff]

end FibEntries

/-! ### The FIB of the manager -/

namespace Fib

variable {cityHash : Component → UInt64} {s s' : Tables} {r : Ref} {n m : Name}

def nextHopsOf (cityHash : Component → UInt64) (s : Tables) : FibEntries := fun name =>
  ((findExactMatch cityHash s name).bind s.fib.entries).elim [] fun e => e.content.nextHops

/-- The entry of a name is the one that carries the name and is attached. -/
theorem findExactMatch_iff (htree : s.nameTree.WF cityHash) (h : s.FibAccounted) :
    findExactMatch cityHash s n = some r ↔
      ∃ e nte, s.fib.entries r = some e ∧ e.nameTreeEntry = some nte ∧ e.content.entryPrefix = n := by
  rw [findExactMatch, Option.bind_eq_some_iff]
  constructor
  · rintro ⟨nte, hnte, hatt⟩
    obtain ⟨e, he, hptr⟩ := h.attached.owned hatt
    have hname := htree.toSound.findExactMatch_eq_some.mp hnte
    exact ⟨e, nte, he, hptr, Option.some.inj ((h.attached.named he hptr).symm.trans hname)⟩
  · rintro ⟨e, nte, he, hptr, rfl⟩
    exact ⟨nte, htree.toSound.findExactMatch_eq_some.mpr (h.attached.named he hptr), h.attached.attached he hptr⟩

theorem findExactMatch_inj (htree : s.nameTree.WF cityHash) (h : s.FibAccounted)
    (hn : findExactMatch cityHash s n = some r) (hm : findExactMatch cityHash s m = some r) : m = n := by
  obtain ⟨e, -, he, -, rfl⟩ := (findExactMatch_iff htree h).mp hn
  obtain ⟨e', -, he', -, rfl⟩ := (findExactMatch_iff htree h).mp hm
  rw [Option.some.inj (he'.symm.trans he)]

theorem nextHopsOf_of_find {e : TableEntry FibContent} (hfind : findExactMatch cityHash s n = some r)
    (he : s.fib.entries r = some e) : nextHopsOf cityHash s n = e.content.nextHops := by
  rw [nextHopsOf, hfind, Option.bind_some, he, Option.elim_some]

theorem nextHopsOf_of_none (hfind : findExactMatch cityHash s n = none) : nextHopsOf cityHash s n = [] := by
  rw [nextHopsOf, hfind, Option.bind_none, Option.elim_none]

/-- The next hops of one entry change. -/
theorem nextHopsOf_modify (htree : s.nameTree.WF cityHash) (h : s.FibAccounted)
    (hfind : findExactMatch cityHash s n = some r) (f : List NextHop → List NextHop) :
    nextHopsOf cityHash { s with fib := s.fib.modify r fun e =>
        { e with content := { e.content with nextHops := f e.content.nextHops } } } =
      Function.update (nextHopsOf cityHash s) n (f (nextHopsOf cityHash s n)) := by
  funext m
  obtain ⟨e, -, he, -, -⟩ := (findExactMatch_iff htree h).mp hfind
  have hentries := Table.entries_modify s.fib r fun e =>
    { e with content := { e.content with nextHops := f e.content.nextHops } }
  rw [Function.update_apply, nextHopsOf_of_find hfind he]
  show ((findExactMatch cityHash s m).bind _).elim [] _ = _
  by_cases hm : m = n
  · subst hm
    rw [if_pos rfl, hfind, Option.bind_some, hentries, if_pos rfl, he, Option.map_some, Option.elim_some]
  · rw [if_neg hm, nextHopsOf]
    cases hfind' : findExactMatch cityHash s m with
    | none => rfl
    | some r' =>
        have hr : r' ≠ r := fun heq => hm (findExactMatch_inj htree h hfind (heq ▸ hfind'))
        rw [Option.bind_some, Option.bind_some, hentries, if_neg hr]

/-- An entry that is inserted has no next hops yet. -/
theorem nextHopsOf_insert (htree : s.nameTree.WF cityHash) (h : s.FibAccounted) (htree' : s'.nameTree.WF cityHash)
    {isNew : Bool} (hins : insert cityHash s n = some (s', r, isNew)) :
    findExactMatch cityHash s' n = some r ∧ nextHopsOf cityHash s' = nextHopsOf cityHash s := by
  obtain ⟨h', hatts, hothers, nte, hatt, hname, hself⟩ := insert_entries h hins
  have hfind : findExactMatch cityHash s' n = some r := by
    rw [findExactMatch, htree'.toSound.findExactMatch_eq_some.mpr hname, Option.bind_some, hatt]
  have hsame : ∀ m r', r' ≠ r → (findExactMatch cityHash s' m = some r' ↔ findExactMatch cityHash s m = some r') := by
    intro m r' hr
    rw [findExactMatch_iff htree' h', findExactMatch_iff htree h, hothers r' hr]
  refine ⟨hfind, funext fun m => ?_⟩
  by_cases hm : m = n
  · subst hm
    rcases hself with ⟨hold, hentry⟩ | ⟨hnone, e, he, hempty⟩
    · obtain ⟨e, he, hptr⟩ := h.attached.owned hold
      obtain ⟨e', nte', he', hptr', hprefix⟩ := (findExactMatch_iff htree' h').mp hfind
      cases he'.symm.trans (hentry.trans he)
      have hfind' := (findExactMatch_iff htree h).mpr ⟨e, nte, he, hptr, hprefix⟩
      rw [nextHopsOf_of_find hfind' he, nextHopsOf_of_find hfind he']
    · rw [nextHopsOf_of_find hfind he, hempty]
      cases hfind' : findExactMatch cityHash s m with
      | none => exact (nextHopsOf_of_none hfind').symm
      | some r' =>
          have hr : r' ≠ r := by
            rintro rfl
            obtain ⟨e', -, he', -⟩ := (findExactMatch_iff htree h).mp hfind'
            cases hnone.symm.trans he'
          cases ((hsame m r' hr).mpr hfind').symm.trans hfind
          exact absurd rfl hr
  · cases hfind' : findExactMatch cityHash s m with
    | none =>
        refine Eq.trans (nextHopsOf_of_none ?_) (nextHopsOf_of_none hfind').symm
        refine Option.eq_none_iff_forall_ne_some.mpr fun r' hr' => ?_
        have hr : r' ≠ r := fun heq => hm (findExactMatch_inj htree' h' hfind (heq ▸ hr'))
        cases hfind'.symm.trans ((hsame m r' hr).mp hr')
    | some r' =>
        obtain ⟨e, nte', he, hptr, hprefix⟩ := (findExactMatch_iff htree h).mp hfind'
        by_cases hr : r' = r
        · subst hr
          rcases hself with ⟨-, hentry⟩ | ⟨hnone, -⟩
          · exact absurd (findExactMatch_inj htree' h' hfind
              ((findExactMatch_iff htree' h').mpr ⟨e, nte', hentry.trans he, hptr, hprefix⟩)) hm
          · cases hnone.symm.trans he
        · rw [nextHopsOf_of_find hfind' he, nextHopsOf_of_find ((hsame m r' hr).mpr hfind') ((hothers r' hr).trans he)]

/-- An entry without next hops is erased. -/
theorem nextHopsOf_eraseEntry (htree : s.nameTree.WF cityHash) (h : s.FibAccounted)
    (hfind : findExactMatch cityHash s n = some r) (hempty : nextHopsOf cityHash s n = []) :
    nextHopsOf cityHash (eraseEntry s r) = nextHopsOf cityHash s := by
  have htree' := wf_eraseEntry htree r
  have h' := h.eraseEntry r
  obtain ⟨hatts, hothers⟩ := eraseEntry_entries h r
  have hgone : ∀ m, findExactMatch cityHash (eraseEntry s r) m ≠ some r := by
    intro m hm
    obtain ⟨e, nte, he, hptr, -⟩ := (findExactMatch_iff htree' h').mp hm
    exact ((hatts nte r).mp (h'.attached.attached he hptr)).1 rfl
  have hsame : ∀ m r', r' ≠ r →
      (findExactMatch cityHash (eraseEntry s r) m = some r' ↔ findExactMatch cityHash s m = some r') := by
    intro m r' hr
    rw [findExactMatch_iff htree' h', findExactMatch_iff htree h, hothers r' hr]
  funext m
  cases hfind' : findExactMatch cityHash s m with
  | none =>
      refine Eq.trans (nextHopsOf_of_none ?_) (nextHopsOf_of_none hfind').symm
      refine Option.eq_none_iff_forall_ne_some.mpr fun r' hr' => ?_
      have hr : r' ≠ r := fun heq => hgone m (heq ▸ hr')
      cases hfind'.symm.trans ((hsame m r' hr).mp hr')
  | some r' =>
      obtain ⟨e, -, he, -⟩ := (findExactMatch_iff htree h).mp hfind'
      by_cases hr : r' = r
      · subst hr
        cases findExactMatch_inj htree h hfind hfind'
        rw [hempty]
        refine nextHopsOf_of_none (Option.eq_none_iff_forall_ne_some.mpr fun r'' hr'' => ?_)
        by_cases heq : r'' = r'
        · exact hgone n (heq ▸ hr'')
        · exact heq (Option.some.inj (((hsame n r'' heq).mp hr'').symm.trans hfind'))
      · rw [nextHopsOf_of_find hfind' he, nextHopsOf_of_find ((hsame m r' hr).mpr hfind') ((hothers r' hr).trans he)]

end Fib

/-- The command as it reaches the FIB manager. -/
def Command.event (incomingFaceId : Nat) (c : Command) : FibManager.Event :=
  match c.verb with
  | .addNextHop => .addNextHop incomingFaceId ⟨some c.update.name, some c.update.faceId, some c.update.cost⟩
  | .removeNextHop => .removeNextHop incomingFaceId ⟨some c.update.name, some c.update.faceId, none⟩

namespace FibManager

variable {cityHash : Component → UInt64} {validateParameters : FibVerb → ControlParameters → Option FibParameters}
  {m m' : FibManager} {incomingFaceId : Nat} {c : Command} {cs : List Command}

/-- The parameters that the updater sends are as the commands want them. -/
structure AcceptsUpdates (validateParameters : FibVerb → ControlParameters → Option FibParameters) : Prop where
  addNextHop : ∀ name faceId cost,
    validateParameters .addNextHop ⟨some name, some faceId, some cost⟩ = some ⟨name, faceId, cost⟩
  removeNextHop : ∀ name faceId, ∃ cost,
    validateParameters .removeNextHop ⟨some name, some faceId, none⟩ = some ⟨name, faceId, cost⟩

/-- Every event of a list is tame in the state it comes in. -/
def TameRun (cityHash : Component → UInt64) (validateParameters : FibVerb → ControlParameters → Option FibParameters) :
    FibManager → List Event → Prop
  | _, [] => True
  | m, event :: events => m.Tame cityHash validateParameters event ∧
      ∀ m', m.step cityHash validateParameters event = some m' → TameRun cityHash validateParameters m' events

/-- The face of an id that the updater uses. -/
def faceOf (m : FibManager) (faceId : FaceId) : Option Face := m.faceTable.faces (toInt faceId)

theorem Sound.entries_ordered (h : m.Sound cityHash) : (Fib.nextHopsOf cityHash m.tables).Ordered := by
  intro name
  cases hfind : Fib.findExactMatch cityHash m.tables name with
  | none =>
      rw [Fib.nextHopsOf_of_none hfind]
      exact ⟨List.nodup_nil, List.Pairwise.nil⟩
  | some r =>
      obtain ⟨e, nte, he, hptr, -⟩ := (Fib.findExactMatch_iff h.tree h.fib).mp hfind
      rw [Fib.nextHopsOf_of_find hfind he]
      exact (h.sane nte r e (h.fib.attached.attached he hptr) he).ordered

/-- No two ids of the `int` range are those of one face. -/
theorem Sound.faceOf_inj (h : m.Sound cityHash) {id id' : FaceId} {face : Face} (hid : id < 2 ^ 31)
    (hid' : id' < 2 ^ 31) (hface : m.faceOf id = some face) (hface' : m.faceOf id' = some face) : id = id' := by
  have heq := (h.faces.held hface).symm.trans (h.faces.held hface')
  rw [toInt_of_lt hid, toInt_of_lt hid'] at heq
  exact Int.ofNat.inj heq

theorem selfRegistered_of_ne (incomingFaceId : Nat) {faceId : Nat} (hid : faceId ≠ 0) (name : Option Name)
    (cost : Option Nat) : selfRegistered incomingFaceId ⟨name, some faceId, cost⟩ = ⟨name, some faceId, cost⟩ := by
  rw [selfRegistered, Option.getD_some, if_neg hid]

/-- The manager executes an add command as the request says. -/
theorem Sound.addNextHop_executes (h : m.Sound cityHash) (hvalid : AcceptsUpdates validateParameters)
    (name : Name) (faceId : FaceId) (cost : Nat)
    (hbound : (m.tables.nameTree.lookup cityHash name).1.nBuckets ≤ 2 ^ 32) :
    ∃ m' response, m.addNextHop cityHash validateParameters ⟨some name, some faceId, some cost⟩ = some (m', response) ∧
      m'.Sound cityHash ∧ m'.faceTable = m.faceTable ∧
      Fib.nextHopsOf cityHash m'.tables =
        (Fib.nextHopsOf cityHash m.tables).execute m.faceOf (.createAddUpdate name faceId cost) := by
  unfold FibManager.addNextHop FibEntries.execute FibUpdate.createAddUpdate faceOf
  rw [hvalid.addNextHop]
  dsimp only
  cases hface : m.faceTable.faces (toInt faceId) with
  | none => exact ⟨m, _, rfl, h, rfl, rfl⟩
  | some face =>
      obtain ⟨-, nte, hnte, -⟩ := h.fib.fresh.lookup cityHash name
      obtain ⟨⟨s, r, isNew⟩, hins⟩ : ∃ inserted, Fib.insert cityHash m.tables name = some inserted := by
        rw [Fib.insert, hnte]
        exact ⟨_, rfl⟩
      have hadded : ({ m with tables := Fib.addNextHop s r face cost } : FibManager).Sound cityHash :=
        (h.insert_addNextHop hface hbound hins).1
      have htree : s.nameTree.WF cityHash := hadded.tree
      obtain ⟨hfind, hsame⟩ := Fib.nextHopsOf_insert h.tree h.fib htree hins
      refine ⟨_, ⟨200, "Success"⟩, by rw [hins]; rfl, hadded, rfl, ?_⟩
      refine (Fib.nextHopsOf_modify htree (h.fib.fibInsert hins) hfind fun l =>
        (Fib.setNextHop face cost l).insertionSort fun a b => a.cost ≤ b.cost).trans ?_
      rw [hsame, Option.elim_some]

theorem Sound.removeNextHop_executes (h : m.Sound cityHash) (hvalid : AcceptsUpdates validateParameters)
    (name : Name) (faceId : FaceId) :
    (m.removeNextHop cityHash validateParameters ⟨some name, some faceId, none⟩).1.faceTable = m.faceTable ∧
      Fib.nextHopsOf cityHash (m.removeNextHop cityHash validateParameters ⟨some name, some faceId, none⟩).1.tables =
        (Fib.nextHopsOf cityHash m.tables).execute m.faceOf (.createRemoveUpdate name faceId) := by
  obtain ⟨cost, hparameters⟩ := hvalid.removeNextHop name faceId
  unfold FibManager.removeNextHop FibEntries.execute FibUpdate.createRemoveUpdate faceOf
  rw [hparameters]
  dsimp only
  cases hface : m.faceTable.faces (toInt faceId) with
  | none => exact ⟨rfl, rfl⟩
  | some face =>
      rw [Option.elim_some]
      dsimp only
      cases hfind : Fib.findExactMatch cityHash m.tables name with
      | none =>
          rw [Fib.nextHopsOf_of_none hfind, List.eraseP_nil]
          exact ⟨rfl, (Function.update_eq_self_iff.mpr (Fib.nextHopsOf_of_none hfind).symm).symm⟩
      | some r =>
          dsimp only
          have hremoved := Fib.nextHopsOf_modify h.tree h.fib hfind fun l => l.eraseP fun a => a.face == face
          have hfib : (Fib.removeNextHop m.tables face r).FibAccounted := h.fib.modify r (fun _ => rfl) fun _ => rfl
          have htree : (Fib.removeNextHop m.tables face r).nameTree.WF cityHash := h.tree
          have hstill : Fib.findExactMatch cityHash (Fib.removeNextHop m.tables face r) name = some r := hfind
          obtain ⟨e, -, he, -⟩ := (Fib.findExactMatch_iff htree hfib).mp hstill
          refine ⟨rfl, ?_⟩
          rw [← hremoved]
          split
          · rfl
          · rename_i hhas
            refine Fib.nextHopsOf_eraseEntry htree hfib hstill ?_
            rw [Fib.hasNextHops, he] at hhas
            rw [Fib.nextHopsOf_of_find hstill he]
            simpa using hhas

/-- The manager executes a command of the updater as the request says. -/
theorem Sound.step_command (h : m.Sound cityHash) (hvalid : AcceptsUpdates validateParameters)
    (hid : c.update.faceId ≠ 0) (htame : m.Tame cityHash validateParameters (c.event incomingFaceId)) :
    ∃ m', m.step cityHash validateParameters (c.event incomingFaceId) = some m' ∧ m'.Sound cityHash ∧
      m'.faceTable = m.faceTable ∧
      Fib.nextHopsOf cityHash m'.tables = (Fib.nextHopsOf cityHash m.tables).execute m.faceOf c.request := by
  unfold Command.event at htame ⊢
  unfold Command.request
  cases hverb : c.verb with
  | addNextHop =>
      rw [hverb] at htame
      have hself := selfRegistered_of_ne incomingFaceId hid (some c.update.name) (some c.update.cost)
      have hbound := htame ⟨c.update.name, c.update.faceId, c.update.cost⟩ (by rw [hself, hvalid.addNextHop])
      obtain ⟨m', response, hadd, hsound, hfaces, hentries⟩ :=
        h.addNextHop_executes hvalid c.update.name c.update.faceId c.update.cost hbound
      refine ⟨m', ?_, hsound, hfaces, hentries⟩
      show (m.addNextHop cityHash validateParameters (selfRegistered incomingFaceId _)).map Prod.fst = some m'
      rw [hself, hadd, Option.map_some]
  | removeNextHop =>
      have hself := selfRegistered_of_ne incomingFaceId hid (some c.update.name) none
      obtain ⟨hfaces, hentries⟩ := h.removeNextHop_executes hvalid c.update.name c.update.faceId
      refine ⟨_, ?_, h.removeNextHop _, hfaces, hentries⟩
      show some (m.removeNextHop cityHash validateParameters (selfRegistered incomingFaceId _)).1 = _
      rw [hself]

/-- So it does with all the commands of a list. -/
theorem Sound.exec_commands (h : m.Sound cityHash) (hvalid : AcceptsUpdates validateParameters)
    (hid : ∀ c ∈ cs, c.update.faceId ≠ 0)
    (htame : m.TameRun cityHash validateParameters (cs.map (Command.event incomingFaceId))) :
    ∃ m', exec (FibManager.step cityHash validateParameters) m (cs.map (Command.event incomingFaceId)) = some m' ∧
      Fib.nextHopsOf cityHash m'.tables =
        (cs.map Command.request).foldl (FibEntries.execute m.faceOf) (Fib.nextHopsOf cityHash m.tables) := by
  induction cs generalizing m with
  | nil => exact ⟨m, rfl, rfl⟩
  | cons c cs ih =>
      obtain ⟨m₁, hstep, hsound, hfaces, hentries⟩ := h.step_command hvalid (hid c List.mem_cons_self) htame.1
      obtain ⟨m', hexec, hall⟩ := ih hsound (fun c' hc' => hid c' (List.mem_cons_of_mem c hc')) (htame.2 m₁ hstep)
      refine ⟨m', ?_, ?_⟩
      · rw [List.map_cons, exec, hstep]
        exact hexec
      · have hfaceOf : m₁.faceOf = m.faceOf := funext fun id => congrArg (fun t => t.faces (toInt id)) hfaces
        rw [hall, hentries, List.map_cons, List.foldl_cons, hfaceOf]

theorem checkedParameters_accepts : AcceptsUpdates checkedParameters where
  addNextHop name faceId cost := by simp [checkedParameters]
  removeNextHop name faceId := ⟨0, by simp [checkedParameters]⟩

/-- The condition for a list of commands, as a test. -/
def isTameRun : FibManager → List Event → Bool
  | _, [] => true
  | m, event :: events => m.isTame event &&
      (m.step NameTree.octetHash checkedParameters event).all fun m' => isTameRun m' events

theorem tameRun_of_isTameRun {events : List Event} (h : m.isTameRun events = true) :
    m.TameRun NameTree.octetHash checkedParameters events := by
  induction events generalizing m with
  | nil => trivial
  | cons event events ih =>
      rw [isTameRun, Bool.and_eq_true] at h
      refine ⟨tame_of_isTame h.1, fun m' hstep => ih ?_⟩
      have hrest := h.2
      rwa [hstep, Option.all_some] at hrest

end FibManager

namespace FibUpdater

variable {u : FibUpdater} {updates : List FibUpdate} {batch : Batch} {cs : List Command}

/-- Executed in any order, the commands of a list leave the same next hops: in every FIB, as far as it is a list of next
hops for each name, and in the FIB of the manager. -/
structure OrderFree (updates : List FibUpdate) : Prop where
  entries : ∀ {batch : Batch} {cs : List Command}, cs.Perm (sendUpdates batch updates) →
    ∀ (faces : FaceId → Option Face) (fib : FibEntries), FibUpdate.OneIdEach faces updates → fib.Ordered → ∀ name,
    Fib.SameUpToTies ((cs.map Command.request).foldl (FibEntries.execute faces) fib name)
      (updates.foldl (FibEntries.execute faces) fib name)
  manager : ∀ {batch : Batch} {cs : List Command}, cs.Perm (sendUpdates batch updates) →
    ∀ {cityHash validateParameters} {m : FibManager},
    m.Sound cityHash → FibManager.AcceptsUpdates validateParameters →
    (∀ r ∈ updates, r.faceId ≠ 0 ∧ r.faceId < 2 ^ 31) → ∀ {incomingFaceId},
    m.TameRun cityHash validateParameters (cs.map (Command.event incomingFaceId)) →
    m.TameRun cityHash validateParameters ((sendUpdates batch updates).map (Command.event incomingFaceId)) →
    ∃ m₁ m₂, exec (FibManager.step cityHash validateParameters) m (cs.map (Command.event incomingFaceId)) = some m₁ ∧
      exec (FibManager.step cityHash validateParameters) m
        ((sendUpdates batch updates).map (Command.event incomingFaceId)) = some m₂ ∧
      ∀ name, Fib.SameUpToTies (Fib.nextHopsOf cityHash m₁.tables name) (Fib.nextHopsOf cityHash m₂.tables name)

theorem sendUpdates_request (batch : Batch) (updates : List FibUpdate) :
    (sendUpdates batch updates).map Command.request = updates := by
  rw [sendUpdates, List.map_map]
  refine List.map_id'' (fun update => ?_) updates
  rw [Function.comp_apply, sendUpdate_eq]
  rfl

theorem orderFree_of_nodup (hnodup : (updates.map FibUpdate.key).Nodup) : OrderFree updates where
  entries {batch cs} hperm faces fib hfaces h name := by
    have hrequests := sendUpdates_request batch updates ▸ hperm.map Command.request
    exact h.foldl_perm hfaces hnodup hrequests name
  manager {batch cs} hperm {cityHash validateParameters m} h hvalid hid {incomingFaceId} htame htame' := by
    have hids : ∀ c ∈ sendUpdates batch updates, c.update.faceId ≠ 0 := by
      intro c hc
      obtain ⟨update, hupdate, rfl⟩ := List.mem_map.mp hc
      rw [sendUpdate_eq]
      exact (hid update hupdate).1
    obtain ⟨m₁, hexec, hentries⟩ := h.exec_commands hvalid (fun c hc => hids c (hperm.mem_iff.mp hc)) htame
    obtain ⟨m₂, hexec', hentries'⟩ := h.exec_commands hvalid hids htame'
    refine ⟨m₁, m₂, hexec, hexec', fun name => ?_⟩
    have hrequests := sendUpdates_request batch updates ▸ hperm.map Command.request
    rw [hentries, hentries', sendUpdates_request]
    exact h.entries_ordered.foldl_perm (fun r hr r' hr' face hface hface' =>
      h.faceOf_inj (hid r hr).2 (hid r' hr').2 hface hface') hnodup hrequests name

theorem new_kept (faceId : FaceId) : Kept fun u => u.batchFaceId = faceId where
  addFibUpdate {u} h update := by
    rw [← h, addFibUpdate]
    split <;> rfl
  addInheritedRoute h _ _ := h
  removeInheritedRoute h _ _ := h
  clearUpdatesForBatchFaceId h := h

/-- The updates of a batch are all for different next hops, those of the batch's face in one list and the others in the
other; and the commands of a list can be executed in any order. -/
theorem updates_commute (nthElement : NthElement) (rib : Rib) (faceId : FaceId) (update : RibUpdate)
    (hu : computeUpdates nthElement rib (.new faceId) update = some u) :
    ((u.updatesForBatchFaceId ++ u.updatesForNonBatchFaceId).map FibUpdate.key).Nodup ∧
      (∀ x ∈ u.updatesForBatchFaceId, x.faceId = faceId) ∧ (∀ x ∈ u.updatesForNonBatchFaceId, x.faceId ≠ faceId) ∧
      OrderFree u.updatesForBatchFaceId ∧ OrderFree u.updatesForNonBatchFaceId := by
  have hface : u.batchFaceId = faceId := (new_kept faceId).computeUpdates rfl rib update hu
  have hbatch : ∀ x ∈ u.updatesForBatchFaceId, x.faceId = faceId := fun x hx => hface ▸ u.face_batch x hx
  have hother : ∀ x ∈ u.updatesForNonBatchFaceId, x.faceId ≠ faceId := fun x hx => hface ▸ u.face_nonBatch x hx
  refine ⟨?_, hbatch, hother, orderFree_of_nodup u.nodup_batch, orderFree_of_nodup u.nodup_nonBatch⟩
  rw [List.map_append, List.nodup_append]
  refine ⟨u.nodup_batch, u.nodup_nonBatch, fun k hk k' hk' heq => ?_⟩
  obtain ⟨x, hx, rfl⟩ := List.mem_map.mp hk
  obtain ⟨y, hy, rfl⟩ := List.mem_map.mp hk'
  exact hother y hy ((Prod.mk.inj heq).2 ▸ hbatch x hx)

/-- Two faces have routes of equal cost for `/A`, to be inherited. -/
def twoHandedDown : List RibState.Event :=
  [.beginApplyUpdate ⟨.register, [.ofByte 65], ⟨256, 0, 1, 10⟩⟩, .sendBatchFromQueue, .onFibUpdateSuccess,
    .beginApplyUpdate ⟨.register, [.ofByte 65], ⟨257, 0, 1, 10⟩⟩, .sendBatchFromQueue, .onFibUpdateSuccess]

/-- A third face registers `/A/B`, which inherits both. -/
def belowBoth : RibUpdate := ⟨.register, [.ofByte 65, .ofByte 66], ⟨258, 0, 0, 5⟩⟩

def threeFaces : List FibManager.Event := [.addFace 1, .addFace 2, .addFace 3]

def inheritedCommands (u : FibUpdater) : List FibManager.Event :=
  (sendUpdates ⟨0, belowBoth⟩ u.updatesForNonBatchFaceId).map (Command.event 0)

/-- Two commands of one list, executed in both orders. -/
theorem updates_commute_inherited :
    ∃ s u m m₁ m₂, exec (RibState.step .stable) RibState.init twoHandedDown = some s ∧
      computeUpdates .stable s.rib (.new 258) belowBoth = some u ∧ u.updatesForNonBatchFaceId.length = 2 ∧
      exec (FibManager.step NameTree.octetHash FibManager.checkedParameters) m (inheritedCommands u).reverse = some m₁ ∧
      exec (FibManager.step NameTree.octetHash FibManager.checkedParameters) m (inheritedCommands u) = some m₂ ∧
      ∀ name, Fib.SameUpToTies (Fib.nextHopsOf NameTree.octetHash m₁.tables name)
        (Fib.nextHopsOf NameTree.octetHash m₂.tables name) := by
  have hrun : ((exec (RibState.step .stable) RibState.init twoHandedDown).any fun s =>
      (computeUpdates .stable s.rib (.new 258) belowBoth).any fun u =>
        (exec (guarded (FibManager.step NameTree.octetHash FibManager.checkedParameters) FibManager.isTame)
          (FibManager.constructed NameTree.octetHash [.ofByte 83] 0) threeFaces).any fun m =>
        decide (u.updatesForNonBatchFaceId.length = 2 ∧
          ∀ r ∈ u.updatesForNonBatchFaceId, r.faceId ≠ 0 ∧ r.faceId < 2 ^ 31) &&
        FibManager.isTameRun m (inheritedCommands u).reverse && FibManager.isTameRun m (inheritedCommands u)) =
          true := by
    decide +kernel
  obtain ⟨s, hs, hrun⟩ := (Option.any_eq_true _ _).mp hrun
  obtain ⟨u, hu, hrun⟩ := (Option.any_eq_true _ _).mp hrun
  obtain ⟨m, hm, hrun⟩ := (Option.any_eq_true _ _).mp hrun
  rw [Bool.and_eq_true, Bool.and_eq_true, decide_eq_true_iff] at hrun
  obtain ⟨⟨⟨hlength, hid⟩, htame⟩, htame'⟩ := hrun
  have hr := (reach_of_exec_guarded Reach.start hm).mono fun _ _ => FibManager.tame_of_isTame
  have hsound := FibManager.sound_of_reach hr
  rw [inheritedCommands, ← List.map_reverse] at htame
  obtain ⟨m₁, m₂, hm₁, hm₂, hsame⟩ := (updates_commute .stable s.rib 258 belowBoth hu).2.2.2.2.manager
    (List.reverse_perm _) hsound FibManager.checkedParameters_accepts hid (FibManager.tameRun_of_isTameRun htame)
    (FibManager.tameRun_of_isTameRun htame')
  rw [List.map_reverse] at hm₁
  exact ⟨s, u, m, m₁, m₂, hs, hu, hlength, hm₁, hm₂, hsame⟩

/-- In the order of the list the two next hops that `/A/B` inherits stand one way, in the reverse order the other. -/
theorem next_hops_in_order_of_commands :
    ∃ s u m m₁ m₂, exec (RibState.step .stable) RibState.init twoHandedDown = some s ∧
      computeUpdates .stable s.rib (.new 258) belowBoth = some u ∧
      exec (FibManager.step NameTree.octetHash FibManager.checkedParameters)
        (FibManager.constructed NameTree.octetHash [.ofByte 83] 0) threeFaces = some m ∧
      exec (FibManager.step NameTree.octetHash FibManager.checkedParameters) m (inheritedCommands u) = some m₁ ∧
      exec (FibManager.step NameTree.octetHash FibManager.checkedParameters) m (inheritedCommands u).reverse = some m₂ ∧
      Fib.nextHopsOf NameTree.octetHash m₁.tables [.ofByte 65, .ofByte 66] = [⟨1, 10⟩, ⟨2, 10⟩] ∧
      Fib.nextHopsOf NameTree.octetHash m₂.tables [.ofByte 65, .ofByte 66] = [⟨2, 10⟩, ⟨1, 10⟩] := by
  have hrun : ((exec (RibState.step .stable) RibState.init twoHandedDown).any fun s =>
      (computeUpdates .stable s.rib (.new 258) belowBoth).any fun u =>
        (exec (FibManager.step NameTree.octetHash FibManager.checkedParameters)
          (FibManager.constructed NameTree.octetHash [.ofByte 83] 0) threeFaces).any fun m =>
        (exec (FibManager.step NameTree.octetHash FibManager.checkedParameters) m (inheritedCommands u)).any fun m₁ =>
        (exec (FibManager.step NameTree.octetHash FibManager.checkedParameters) m (inheritedCommands u).reverse).any
          fun m₂ => decide (
            Fib.nextHopsOf NameTree.octetHash m₁.tables [.ofByte 65, .ofByte 66] = [⟨1, 10⟩, ⟨2, 10⟩] ∧
            Fib.nextHopsOf NameTree.octetHash m₂.tables [.ofByte 65, .ofByte 66] = [⟨2, 10⟩, ⟨1, 10⟩])) = true := by
    decide +kernel
  obtain ⟨s, hs, hrun⟩ := (Option.any_eq_true _ _).mp hrun
  obtain ⟨u, hu, hrun⟩ := (Option.any_eq_true _ _).mp hrun
  obtain ⟨m, hm, hrun⟩ := (Option.any_eq_true _ _).mp hrun
  obtain ⟨m₁, hm₁, hrun⟩ := (Option.any_eq_true _ _).mp hrun
  obtain ⟨m₂, hm₂, hrun⟩ := (Option.any_eq_true _ _).mp hrun
  obtain ⟨hfirst, hsecond⟩ := of_decide_eq_true hrun
  exact ⟨s, u, m, m₁, m₂, hs, hu, hm, hm₁, hm₂, hfirst, hsecond⟩

end FibUpdater

end NfdPitless
