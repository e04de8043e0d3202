import NfdPitless.FaceTable
import NfdPitless.FibAccounting
import NfdPitless.NameTreeIntegrity

/-! The next hops of the FIB under the commands of the FIB manager (`daemon/mgmt/fib-manager.cpp`) and the
events of the face table. A command takes the face of an id from the face table; a face that fails is removed
from the face table, then from all FIB entries. -/

namespace NfdPitless

inductive FibVerb where
  | addNextHop
  | removeNextHop
  deriving DecidableEq

/-- The fields of the command parameters that the manager reads. -/
structure ControlParameters where
  name : Option Name
  faceId : Option Nat
  cost : Option Nat
  deriving DecidableEq

/-- The parameters of a command that has been validated, with the defaults. -/
structure FibParameters where
  name : Name
  faceId : Nat
  cost : Nat
  deriving DecidableEq

structure ControlResponse where
  code : Nat
  text : String
  deriving DecidableEq

/-- The FIB, with the tables it shares the name tree with, and the face table. -/
structure FibManager where
  tables : Tables
  faceTable : FaceTable

namespace FibManager

/-- A command without face id, or with id zero, is for the face it comes from. -/
def selfRegistered (incomingFaceId : Nat) (parameters : ControlParameters) : ControlParameters :=
  if parameters.faceId.getD 0 = 0 then { parameters with faceId := some incomingFaceId } else parameters

section Commands

variable (cityHash : Component → UInt64) (validateParameters : FibVerb → ControlParameters → Option FibParameters)

def addNextHop (m : FibManager) (parameters : ControlParameters) : Option (FibManager × ControlResponse) :=
  match validateParameters .addNextHop parameters with
  | none => some (m, ⟨400, "Malformed command"⟩)
  | some p =>
      match m.faceTable.faces (toInt p.faceId) with
      | none => some (m, ⟨410, "Face not found"⟩)
      | some nextHopFace =>
          (Fib.insert cityHash m.tables p.name).map fun inserted =>
            ({ m with tables := Fib.addNextHop inserted.1 inserted.2.1 nextHopFace p.cost }, ⟨200, "Success"⟩)

def removeNextHop (m : FibManager) (parameters : ControlParameters) : FibManager × ControlResponse :=
  match validateParameters .removeNextHop parameters with
  | none => (m, ⟨400, "Malformed command"⟩)
  | some p =>
      let success : ControlResponse := ⟨200, "Success"⟩
      match m.faceTable.faces (toInt p.faceId) with
      | none => (m, success)
      | some faceToRemove =>
          match Fib.findExactMatch cityHash m.tables p.name with
          | none => (m, success)
          | some r =>
              let s := Fib.removeNextHop m.tables faceToRemove r
              ({ m with tables := if Fib.hasNextHops s r then s else Fib.eraseEntry s r }, success)

/-- `FaceTable::remove` with what it does to the FIB. -/
def removeFace (face : Face) (m : FibManager) : Option FibManager :=
  (Fib.removeNextHopFromAllEntries m.tables face).map fun tables => { tables, faceTable := m.faceTable.remove face }

/-- The handlers of the `onFail` of a face, one after the other. -/
def removeTimes (face : Face) : Nat → FibManager → Option FibManager
  | 0, m => some m
  | n + 1, m => (m.removeFace face).bind (removeTimes face n)

def failFace (m : FibManager) (face : Face) : Option FibManager :=
  if m.faceTable.isFailed face then some m
  else removeTimes face (m.faceTable.onFail face) { m with faceTable := m.faceTable.markFailed face }

inductive Event where
  | addNextHop (incomingFaceId : Nat) (parameters : ControlParameters)
  | removeNextHop (incomingFaceId : Nat) (parameters : ControlParameters)
  | addFace (face : Face)
  | addReservedFace (face : Face) (faceId : FaceTable.FaceId)
  | failFace (face : Face)

def step (m : FibManager) : Event → Option FibManager
  | .addNextHop incomingFaceId parameters =>
      (m.addNextHop cityHash validateParameters (selfRegistered incomingFaceId parameters)).map (·.1)
  | .removeNextHop incomingFaceId parameters =>
      some (m.removeNextHop cityHash validateParameters (selfRegistered incomingFaceId parameters)).1
  | .addFace face => (m.faceTable.add face).map fun faceTable => { m with faceTable }
  | .addReservedFace face faceId => (m.faceTable.addReserved face faceId).map fun faceTable => { m with faceTable }
  | .failFace face => m.failFace face

end Commands

/-- After the constructor of the forwarder. -/
def constructed (cityHash : Component → UInt64) (defaultStrategy : Name) (csFace : Face) : FibManager :=
  { tables := .new cityHash 1024 defaultStrategy, faceTable := (FaceTable.History.constructed csFace).table }

end FibManager

namespace Fib

variable {nextHops : List NextHop} {face : Face} {cost : Nat}

instance : Std.Total (fun a b : NextHop => a.cost ≤ b.cost) := ⟨fun _ _ => le_total _ _⟩

instance : IsTrans NextHop (fun a b => a.cost ≤ b.cost) := ⟨fun _ _ _ => le_trans⟩

/-- One next hop for a face, and the cheaper ones first. -/
structure Ordered (nextHops : List NextHop) : Prop where
  nodup : (nextHops.map NextHop.face).Nodup
  sorted : nextHops.Pairwise fun a b => a.cost ≤ b.cost

theorem setNextHop_faces (face : Face) (cost : Nat) (nextHops : List NextHop) :
    (setNextHop face cost nextHops).map NextHop.face =
      if face ∈ nextHops.map NextHop.face then nextHops.map NextHop.face else nextHops.map NextHop.face ++ [face] := by
  induction nextHops with
  | nil => rfl
  | cons h nextHops ih =>
      rw [setNextHop]
      by_cases hface : h.face = face
      · simp [hface]
      · rw [if_neg hface, List.map_cons, ih, List.map_cons]
        by_cases hmem : face ∈ nextHops.map NextHop.face
        · rw [if_pos hmem, if_pos (List.mem_cons_of_mem _ hmem)]
        · rw [if_neg hmem, if_neg]
          · rfl
          · exact fun hin => (List.mem_cons.mp hin).elim (Ne.symm hface) hmem

theorem mem_setNextHop (face : Face) (cost : Nat) (nextHops : List NextHop) :
    ⟨face, cost⟩ ∈ setNextHop face cost nextHops := by
  induction nextHops with
  | nil => exact List.mem_cons_self
  | cons h nextHops ih =>
      rw [setNextHop]
      split
      · exact List.mem_cons_self
      · exact List.mem_cons_of_mem _ ih

theorem face_of_mem_setNextHop {h : NextHop} (hmem : h ∈ setNextHop face cost nextHops) :
    h.face = face ∨ ∃ h' ∈ nextHops, h'.face = h.face := by
  have hin : h.face ∈ (setNextHop face cost nextHops).map NextHop.face := List.mem_map_of_mem hmem
  rw [setNextHop_faces] at hin
  split at hin
  · exact Or.inr (List.mem_map.mp hin)
  · rcases List.mem_append.mp hin with hin | hin
    · exact Or.inr (List.mem_map.mp hin)
    · exact Or.inl (List.mem_singleton.mp hin)

theorem setNextHop_nodup (h : (nextHops.map NextHop.face).Nodup) (face : Face) (cost : Nat) :
    ((setNextHop face cost nextHops).map NextHop.face).Nodup := by
  rw [setNextHop_faces]
  split
  · exact h
  · exact List.nodup_append.mpr ⟨h, List.nodup_singleton face, fun a ha b hb hab => by
      rw [List.mem_singleton.mp hb] at hab
      exact absurd (hab ▸ ha) ‹_›⟩

/-- Setting a cost and sorting. -/
theorem Ordered.set (h : Ordered nextHops) (face : Face) (cost : Nat) :
    Ordered ((setNextHop face cost nextHops).insertionSort fun a b => a.cost ≤ b.cost) where
  nodup := (((setNextHop face cost nextHops).perm_insertionSort _).map NextHop.face).nodup_iff.mpr
    (setNextHop_nodup h.nodup face cost)
  sorted := List.pairwise_insertionSort _ _

theorem Ordered.erase (h : Ordered nextHops) (face : Face) : Ordered (nextHops.eraseP fun a => a.face == face) where
  nodup := h.nodup.sublist ((List.eraseP_sublist).map NextHop.face)
  sorted := h.sorted.sublist List.eraseP_sublist

/-- Erasing the first next hop of a face leaves none. -/
theorem Ordered.face_ne_of_mem_erase (h : Ordered nextHops) {a : NextHop}
    (ha : a ∈ nextHops.eraseP fun a => a.face == face) : a.face ≠ face := by
  have hnodup := h.nodup
  clear h
  induction nextHops with
  | nil => cases ha
  | cons b nextHops ih =>
      rw [List.map_cons, List.nodup_cons] at hnodup
      by_cases hb : b.face = face
      · rw [List.eraseP_cons_of_pos (by simp [hb])] at ha
        rintro rfl
        exact hnodup.1 (hb ▸ List.mem_map_of_mem ha)
      · rw [List.eraseP_cons_of_neg (by simp [hb])] at ha
        rcases List.mem_cons.mp ha with rfl | ha
        · exact hb
        · exact ih ha hnodup.2

/-- A next hop is the only one of its face. -/
theorem Ordered.filter_eq (h : Ordered nextHops) {a : NextHop} (ha : a ∈ nextHops) :
    (nextHops.filter fun b => b.face == a.face) = [a] := by
  have hnodup := h.nodup
  clear h
  induction nextHops with
  | nil => cases ha
  | cons b nextHops ih =>
      rw [List.map_cons, List.nodup_cons] at hnodup
      rcases List.mem_cons.mp ha with rfl | ha
      · rw [List.filter_cons_of_pos (by simp), List.filter_eq_nil_iff.mpr]
        intro c hc hface
        exact hnodup.1 (beq_iff_eq.mp hface ▸ List.mem_map_of_mem hc)
      · have hne : b.face ≠ a.face := fun heq => hnodup.1 (heq ▸ List.mem_map_of_mem ha)
        rw [List.filter_cons_of_neg (by simpa using hne), ih ha hnodup.2]

/-! ### The entries of the FIB -/

variable {cityHash : Component → UInt64} {s s' : Tables} {r nte : Ref} {n : Name} {P : List NextHop → Prop}

/-- The next hops of every FIB entry but the given ones are as required. -/
def AllBut (P : List NextHop → Prop) (s : Tables) (rs : List Ref) : Prop :=
  ∀ nte r e, s.nameTree.attachedTo .fib nte = some r → r ∉ rs → s.fib.entries r = some e → P e.content.nextHops

/-- What an insertion does to the name tree. -/
theorem insert_tree {isNew : Bool} (hins : insert cityHash s n = some (s', r, isNew)) :
    s'.nameTree = (s.nameTree.lookup cityHash n).1 ∨
      ∃ nte entry, s'.nameTree = (s.nameTree.lookup cityHash n).1.setAttached .fib nte entry := by
  obtain ⟨nte, -, hres⟩ := Option.map_eq_some_iff.mp hins
  cases hatt : (s.nameTree.lookup cityHash n).1.attachedTo .fib nte with
  | some r₀ =>
      rw [hatt] at hres
      cases hres
      exact Or.inl rfl
  | none =>
      rw [hatt] at hres
      cases hres
      exact Or.inr ⟨nte, some s.fib.nextRef, rfl⟩

/-- The entry that an insertion returns is that of the name, and all others stay. -/
theorem insert_entries (h : s.FibAccounted) {isNew : Bool} (hins : insert cityHash s n = some (s', r, isNew)) :
    s'.FibAccounted ∧
    (∀ x r', r' ≠ r → (s'.nameTree.attachedTo .fib x = some r' ↔ s.nameTree.attachedTo .fib x = some r')) ∧
    (∀ r', r' ≠ r → s'.fib.entries r' = s.fib.entries r') ∧
    ∃ nte, s'.nameTree.attachedTo .fib nte = some r ∧ s'.nameTree.nameOf nte = some n ∧
      (s.nameTree.attachedTo .fib nte = some r ∧ s'.fib.entries r = s.fib.entries r ∨
        s.fib.entries r = none ∧ ∃ e, s'.fib.entries r = some e ∧ e.content.nextHops = []) := by
  have haccounted := h.fibInsert hins
  obtain ⟨nte, hnte, hres⟩ := Option.map_eq_some_iff.mp hins
  have hname : (s.nameTree.lookup cityHash n).1.nameOf nte = some n := NameTree.nameOf_of_lookup hnte
  have hlook : ∀ x, (s.nameTree.lookup cityHash n).1.attachedTo .fib x = s.nameTree.attachedTo .fib x :=
    (h.fresh.carries_lookup cityHash n).attachedTo_eq .fib
  cases hatt : (s.nameTree.lookup cityHash n).1.attachedTo .fib nte with
  | some r₀ =>
      rw [hatt] at hres
      cases hres
      exact ⟨haccounted, fun x r' _ => iff_of_eq (congrArg (· = some r') (hlook x)), fun _ _ => rfl, nte, hatt, hname,
        Or.inl ⟨(hlook nte).symm.trans hatt, rfl⟩⟩
  | none =>
      rw [hatt] at hres
      cases hres
      have htree : ∀ x, ((s.nameTree.lookup cityHash n).1.setAttached .fib nte (some s.fib.nextRef)).attachedTo .fib x =
          if x = nte then some s.fib.nextRef else s.nameTree.attachedTo .fib x := by
        obtain ⟨e, he, -⟩ := NameTree.nameOf_eq_some.mp hname
        intro x
        rw [NameTree.attachedTo_setAttached]
        by_cases hx : x = nte
        · simp [hx, he]
        · simp [hx, hlook]
      have hentries := Table.attachNew_entries (T := s.fib) hatt (⟨n, []⟩ : FibContent)
      have hunused : s.fib.entries s.fib.nextRef = none := by
        cases hold : s.fib.entries s.fib.nextRef with
        | none => rfl
        | some e => exact absurd (h.attached.fresh hold) (lt_irrefl _)
      refine ⟨haccounted, fun x r' hne => ?_, fun r' hne => ?_, nte, (htree nte).trans (if_pos rfl),
        (congrFun (NameTree.nameOf_setAttached _ _ _ _) nte).trans hname,
        Or.inr ⟨hunused, ⟨⟨n, []⟩, some nte⟩, (hentries _).trans (if_pos rfl), rfl⟩⟩
      · refine (iff_of_eq (congrArg (· = some r') (htree x))).trans ?_
        by_cases hx : x = nte
        · subst hx
          rw [if_pos rfl, ← hlook x, hatt]
          exact ⟨fun heq => absurd (Option.some.inj heq).symm hne, fun heq => by cases heq⟩
        · rw [if_neg hx]
      · exact (hentries r').trans (if_neg hne)

/-- Erasing an entry detaches it and changes no other. -/
theorem eraseEntry_entries (h : s.FibAccounted) (r : Ref) :
    (∀ x r', (eraseEntry s r).nameTree.attachedTo .fib x = some r' ↔
      r' ≠ r ∧ s.nameTree.attachedTo .fib x = some r') ∧
    ∀ r', r' ≠ r → (eraseEntry s r).fib.entries r' = s.fib.entries r' := by
  have howner : ∀ {x}, s.nameTree.attachedTo .fib x = some r → s.fib.nameTreeEntryOf r = some x := by
    intro x hx
    obtain ⟨e, he, hptr⟩ := h.attached.owned hx
    rw [Table.nameTreeEntryOf, he, Option.bind_some, hptr]
  unfold eraseEntry
  cases hnte : s.fib.nameTreeEntryOf r with
  | none =>
      refine ⟨fun x r' => ⟨fun hx => ⟨?_, hx⟩, fun hx => hx.2⟩, fun _ _ => rfl⟩
      rintro rfl
      rw [howner hx] at hnte
      cases hnte
  | some nte =>
      obtain ⟨e, he, hptr⟩ := Option.bind_eq_some_iff.mp hnte
      have hatt := h.attached.attached he hptr
      have hfresh : (s.nameTree.setAttached .fib nte none).Fresh := h.fresh.modifyEntry nte _
      have hdetached : ∀ x, (eraseAt s nte).nameTree.attachedTo .fib x =
          if x = nte then none else s.nameTree.attachedTo .fib x := by
        intro x
        refine ((hfresh.carries_erase nte).attachedTo_eq .fib x).trans ?_
        rw [NameTree.attachedTo_setAttached]
        by_cases hx : x = nte
        · cases s.nameTree.entries nte <;> simp [hx]
        · simp [hx]
      refine ⟨fun x r' => ?_, fun r' hne => ?_⟩
      · show (eraseAt s nte).nameTree.attachedTo .fib x = some r' ↔ _
        rw [hdetached]
        by_cases hx : x = nte
        · subst hx
          rw [if_pos rfl, hatt]
          exact ⟨fun heq => absurd heq (by simp), fun heq => absurd (Option.some.inj heq.2).symm heq.1⟩
        · rw [if_neg hx]
          refine ⟨fun hx' => ⟨?_, hx'⟩, fun hx' => hx'.2⟩
          rintro rfl
          rw [howner hx'] at hnte
          exact hx (Option.some.inj hnte)
      · refine (Table.attach_none_entries s.fib .fib s.nameTree nte r').trans (if_neg ?_)
        rw [hatt]
        exact fun heq => hne (Option.some.inj heq).symm

theorem AllBut.eraseEntry (hall : AllBut P s (r :: rs)) (h : s.FibAccounted) : AllBut P (eraseEntry s r) rs := by
  intro x r' e' hatt hnot he'
  obtain ⟨hatts, hentries⟩ := eraseEntry_entries h r
  obtain ⟨hne, hold⟩ := (hatts x r').mp hatt
  rw [hentries r' hne] at he'
  exact hall x r' e' hold (fun hin => (List.mem_cons.mp hin).elim hne hnot) he'

theorem AllBut.eraseAll {rs : List Ref} (hall : AllBut P s rs) (h : s.FibAccounted) :
    AllBut P (rs.foldl Fib.eraseEntry s) [] := by
  induction rs generalizing s with
  | nil => exact hall
  | cons r rs ih => exact ih (hall.eraseEntry h) (h.eraseEntry r)

/-- Below `2 ^ 31` buckets, the entries of the FIB are all enumerated, each once. -/
theorem enumerate_eq (htree : s.nameTree.WF cityHash) (hint : s.nameTree.nBuckets < 2 ^ 31) (h : s.FibAccounted) :
    ∃ rs, enumerate s = some rs ∧ rs.Nodup ∧ ∀ r, r ∈ rs ↔ ∃ nte, s.nameTree.attachedTo .fib nte = some r := by
  have hfull := htree.toSound.fullEnumerate_eq hint fun e => e.fibEntry.isSome
  obtain ⟨hnodup, hvisited⟩ := htree.toSound.mem_fullEnumerate hint hfull
  refine ⟨_, by rw [enumerate, hfull]; rfl, hnodup.filterMap fun x x' r hx hx' => h.attached.inj hx hx',
    fun r => ?_⟩
  rw [List.mem_filterMap]
  constructor
  · rintro ⟨nte, -, hr⟩
    exact ⟨nte, hr⟩
  · rintro ⟨nte, hr⟩
    obtain ⟨e, he, hatt⟩ := Option.bind_eq_some_iff.mp hr
    refine ⟨nte, (hvisited nte).mpr ⟨e, he, ?_⟩, hr⟩
    rw [Entry.attached] at hatt
    rw [hatt]
    rfl

/-- An entry without the first next hop of a face. -/
def withoutFace (face : Face) (e : TableEntry FibContent) : TableEntry FibContent :=
  { e with content := { e.content with nextHops := e.content.nextHops.eraseP fun h => h.face == face } }

theorem removeNextHop_entries (s : Tables) (face : Face) (r x : Ref) :
    (removeNextHop s face r).fib.entries x =
      if x = r then (s.fib.entries r).map (withoutFace face) else s.fib.entries x :=
  Table.entries_modify s.fib r _ x

/-- The enumeration removes the next hop from each entry, and keeps those that have none left. -/
theorem removeNextHopRounds (face : Face) {rs : List Ref} (hnodup : rs.Nodup) :
    ∀ (s : Tables) (done : List Ref),
      (rs.foldl (removeNextHopRound face) (s, done)).1.nameTree = s.nameTree ∧
      (∀ x, (rs.foldl (removeNextHopRound face) (s, done)).1.fib.entries x =
        if x ∈ rs then (s.fib.entries x).map (withoutFace face) else s.fib.entries x) ∧
      ∀ x, x ∈ (rs.foldl (removeNextHopRound face) (s, done)).2 ↔
        x ∈ done ∨ x ∈ rs ∧ hasNextHops (rs.foldl (removeNextHopRound face) (s, done)).1 x = false := by
  induction rs with
  | nil => exact fun s done => ⟨rfl, fun x => rfl, fun x => by simp⟩
  | cons r rs ih =>
      intro s done
      obtain ⟨hnot, htail⟩ := List.nodup_cons.mp hnodup
      rw [List.foldl_cons]
      obtain ⟨htree, hentries, hmem⟩ := ih htail (removeNextHop s face r)
        (if hasNextHops (removeNextHop s face r) r then done else done ++ [r])
      have hround : removeNextHopRound face (s, done) r = (removeNextHop s face r,
          if hasNextHops (removeNextHop s face r) r then done else done ++ [r]) := rfl
      rw [hround]
      refine ⟨htree, fun x => ?_, fun x => ?_⟩
      · rw [hentries, removeNextHop_entries]
        by_cases hx : x = r
        · rw [hx, if_neg hnot, if_pos rfl, if_pos List.mem_cons_self]
        · simp [hx]
      · have hself : hasNextHops (rs.foldl (removeNextHopRound face) (removeNextHop s face r,
            if hasNextHops (removeNextHop s face r) r then done else done ++ [r])).1 r =
              hasNextHops (removeNextHop s face r) r := by
          rw [hasNextHops, hentries, if_neg hnot, hasNextHops]
        rw [hmem]
        by_cases hx : x = r
        · subst hx
          rw [hself]
          cases hasNextHops (removeNextHop s face x) x <;> simp [hnot]
        · cases hasNextHops (removeNextHop s face r) r <;> simp [hx]

theorem wf_eraseEntry (h : s.nameTree.WF cityHash) (r : Ref) : (eraseEntry s r).nameTree.WF cityHash := by
  unfold eraseEntry
  cases s.fib.nameTreeEntryOf r with
  | none => exact h
  | some nte =>
      have hset : (s.nameTree.setAttached .fib nte none).WF cityHash :=
        h.modifyEntry_attached nte _ (fun _ => rfl) (fun _ => rfl) (fun _ => rfl) fun _ => rfl
      exact hset.eraseEntryIfEmpty nte

theorem wf_eraseAll (h : s.nameTree.WF cityHash) (rs : List Ref) : (rs.foldl eraseEntry s).nameTree.WF cityHash := by
  induction rs generalizing s with
  | nil => exact h
  | cons r rs ih => exact ih (wf_eraseEntry h r)

/-- Every entry loses the next hop of the face, and is erased if it has no other. -/
theorem AllBut.removeFromAll {Q : List NextHop → Prop} (hall : AllBut P s []) (htree : s.nameTree.WF cityHash)
    (hint : s.nameTree.nBuckets < 2 ^ 31) (h : s.FibAccounted)
    (hP : ∀ nextHops, P nextHops → (nextHops.eraseP fun a => a.face == face) ≠ [] →
      Q (nextHops.eraseP fun a => a.face == face))
    (hrem : removeNextHopFromAllEntries s face = some s') :
    s'.nameTree.WF cityHash ∧ s'.FibAccounted ∧ AllBut Q s' [] := by
  obtain ⟨rs, hrs, hnodup, hvisited⟩ := enumerate_eq htree hint h
  rw [removeNextHopFromAllEntries, hrs] at hrem
  cases hrem
  obtain ⟨htrees, hentries, hdone⟩ := removeNextHopRounds face hnodup s []
  have hrounds := h.removeNextHopRounds face rs []
  refine ⟨wf_eraseAll (htrees ▸ htree) _, hrounds.eraseAll _, AllBut.eraseAll (fun nte r e hatt hnot he => ?_) hrounds⟩
  rw [htrees] at hatt
  have hin : r ∈ rs := (hvisited r).mpr ⟨nte, hatt⟩
  have hhas : hasNextHops (rs.foldl (removeNextHopRound face) (s, [])).1 r = true := by
    by_contra hno
    exact hnot ((hdone r).mpr (Or.inr ⟨hin, Bool.eq_false_iff.mpr hno⟩))
  rw [hasNextHops, he] at hhas
  rw [hentries, if_pos hin] at he
  obtain ⟨e₀, he₀, rfl⟩ := Option.map_eq_some_iff.mp he
  exact hP _ (hall nte r e₀ hatt List.not_mem_nil he₀) (by simpa [withoutFace] using hhas)

end Fib

/-! ### Runs -/

namespace FibManager

variable {cityHash : Component → UInt64} {validateParameters : FibVerb → ControlParameters → Option FibParameters}
  {m m' : FibManager} {event : Event} {face : Face}

/-- The next hops of an entry, the faces of which are in the face table. -/
structure NextHopsSane (t : FaceTable) (nextHops : List NextHop) : Prop where
  nonempty : nextHops ≠ []
  ordered : Fib.Ordered nextHops
  live : ∀ h ∈ nextHops, ∃ id, t.faces id = some h.face

/-- Every entry of the FIB has next hops, ordered and to faces of the face table. -/
def Sane (m : FibManager) : Prop :=
  ∀ nte r e, m.tables.nameTree.attachedTo .fib nte = some r → m.tables.fib.entries r = some e →
    NextHopsSane m.faceTable e.content.nextHops

structure Sound (cityHash : Component → UInt64) (m : FibManager) : Prop where
  faces : m.faceTable.Sound
  tree : m.tables.nameTree.WF cityHash
  fib : m.tables.FibAccounted
  sane : m.Sane

/-- No insertion leaves more than `2 ^ 32` buckets, no reserved id is given to a second face, and when a face of the
face table fails the number of buckets is an `int`. -/
def Tame (cityHash : Component → UInt64) (validateParameters : FibVerb → ControlParameters → Option FibParameters)
    (m : FibManager) : Event → Prop
  | .addNextHop incomingFaceId parameters =>
      ∀ p, validateParameters .addNextHop (selfRegistered incomingFaceId parameters) = some p →
        (m.tables.nameTree.lookup cityHash p.name).1.nBuckets ≤ 2 ^ 32
  | .addFace face => m.faceTable.Guarded (.add face)
  | .addReservedFace face faceId => m.faceTable.Guarded (.addReserved face faceId)
  | .failFace face => m.faceTable.faces (m.faceTable.getId face) = some face → m.tables.nameTree.nBuckets < 2 ^ 31
  | _ => True

theorem NextHopsSane.mono {t t' : FaceTable} {nextHops : List NextHop} (h : NextHopsSane t nextHops)
    (hlive : ∀ id x, t.faces id = some x → ∃ id', t'.faces id' = some x) : NextHopsSane t' nextHops where
  nonempty := h.nonempty
  ordered := h.ordered
  live a ha := by
    obtain ⟨id, hid⟩ := h.live a ha
    exact hlive id _ hid

theorem Sane.mono (h : m.Sane) {t : FaceTable}
    (hlive : ∀ id x, m.faceTable.faces id = some x → ∃ id', t.faces id' = some x) :
    ({ m with faceTable := t } : FibManager).Sane :=
  fun nte r e hatt he => (h nte r e hatt he).mono hlive

/-- What a command that succeeds leaves in the entry of its name. -/
def HasNextHop (cityHash : Component → UInt64) (m : FibManager) (name : Name) (face : Face) (cost : Nat) : Prop :=
  ∃ r e, Fib.findExactMatch cityHash m.tables name = some r ∧ m.tables.fib.entries r = some e ∧
    (e.content.nextHops.filter fun h => h.face == face) = [⟨face, cost⟩]

theorem Sound.insert_addNextHop (h : m.Sound cityHash) {name : Name} {cost : Nat} {id : FaceTable.FaceId}
    (hface : m.faceTable.faces id = some face)
    (hbound : (m.tables.nameTree.lookup cityHash name).1.nBuckets ≤ 2 ^ 32) {s : Tables} {r : Ref} {isNew : Bool}
    (hins : Fib.insert cityHash m.tables name = some (s, r, isNew)) :
    ({ m with tables := Fib.addNextHop s r face cost } : FibManager).Sound cityHash ∧
      ({ m with tables := Fib.addNextHop s r face cost } : FibManager).HasNextHop cityHash name face cost := by
  obtain ⟨haccounted, hatts, hothers, nte, hatt, hname, hself⟩ := Fib.insert_entries h.fib hins
  have htree : s.nameTree.WF cityHash := by
    have hlook : (m.tables.nameTree.lookup cityHash name).1.WF cityHash := (h.tree.lookup name hbound).1
    rcases Fib.insert_tree hins with heq | ⟨x, entry, heq⟩
    · rwa [heq]
    · rw [heq]
      exact hlook.modifyEntry_attached x _ (fun _ => rfl) (fun _ => rfl) (fun _ => rfl) fun _ => rfl
  obtain ⟨e, he, hordered, hlive⟩ : ∃ e, s.fib.entries r = some e ∧ Fib.Ordered e.content.nextHops ∧
      ∀ a ∈ e.content.nextHops, ∃ id, m.faceTable.faces id = some a.face := by
    rcases hself with ⟨hx, hsame⟩ | ⟨-, e, he, hempty⟩
    · obtain ⟨e, he, -⟩ := h.fib.attached.owned hx
      have hsane := h.sane nte r e hx he
      exact ⟨e, hsame.trans he, hsane.ordered, hsane.live⟩
    · exact ⟨e, he, by rw [hempty]; exact ⟨List.nodup_nil, List.Pairwise.nil⟩, by rw [hempty]; simp⟩
  have hentries : ∀ x, (Fib.addNextHop s r face cost).fib.entries x =
      if x = r then some { e with content := { e.content with
        nextHops := (Fib.setNextHop face cost e.content.nextHops).insertionSort fun a b => a.cost ≤ b.cost } }
      else s.fib.entries x := by
    intro x
    refine (Table.entries_modify s.fib r _ x).trans ?_
    rw [he, Option.map_some]
  have hset := hordered.set face cost
  have hmem : ⟨face, cost⟩ ∈ (Fib.setNextHop face cost e.content.nextHops).insertionSort fun a b => a.cost ≤ b.cost :=
    (List.mem_insertionSort _).mpr (Fib.mem_setNextHop face cost _)
  refine ⟨⟨h.faces, htree, haccounted.modify r (fun _ => rfl) fun _ => rfl, fun x r' e' hx he' => ?_⟩, r, _, ?_,
    (hentries r).trans (if_pos rfl), hset.filter_eq hmem⟩
  · have hx' : s.nameTree.attachedTo .fib x = some r' := hx
    by_cases hr : r' = r
    · have hcontent := (hentries r').symm.trans he'
      rw [if_pos hr] at hcontent
      cases hcontent
      refine ⟨List.ne_nil_of_mem hmem, hset, fun a ha => ?_⟩
      rcases Fib.face_of_mem_setNextHop ((List.mem_insertionSort _).mp ha) with heq | ⟨a', ha', heq⟩
      · exact ⟨id, by rw [heq]; exact hface⟩
      · rw [← heq]
        exact hlive a' ha'
    · have hcontent := (hentries r').symm.trans he'
      rw [if_neg hr, hothers r' hr] at hcontent
      exact h.sane x r' e' ((hatts x r' hr).mp hx') hcontent
  · have hfind : s.nameTree.findExactMatch cityHash name = some nte := htree.toSound.findExactMatch_eq_some.mpr hname
    rw [Fib.findExactMatch]
    show (s.nameTree.findExactMatch cityHash name).bind (s.nameTree.attachedTo .fib) = some r
    rw [hfind, Option.bind_some, hatt]

theorem Sound.removeNextHop (h : m.Sound cityHash) (parameters : ControlParameters) :
    (m.removeNextHop cityHash validateParameters parameters).1.Sound cityHash := by
  unfold FibManager.removeNextHop
  split
  · exact h
  · rename_i p _
    dsimp only
    split
    · exact h
    · rename_i faceToRemove _
      cases hfind : Fib.findExactMatch cityHash m.tables p.name with
      | none => exact h
      | some r =>
          dsimp only
          have haccounted : (Fib.removeNextHop m.tables faceToRemove r).FibAccounted :=
            h.fib.modify r (fun _ => rfl) fun _ => rfl
          have hentries := Fib.removeNextHop_entries m.tables faceToRemove r
          have hrest : ∀ x r' e', r' ≠ r → m.tables.nameTree.attachedTo .fib x = some r' →
              (Fib.removeNextHop m.tables faceToRemove r).fib.entries r' = some e' →
                NextHopsSane m.faceTable e'.content.nextHops := by
            intro x r' e' hr hx he'
            rw [hentries, if_neg hr] at he'
            exact h.sane x r' e' hx he'
          cases hhas : Fib.hasNextHops (Fib.removeNextHop m.tables faceToRemove r) r with
          | true =>
              refine ⟨h.faces, h.tree, haccounted, fun x r' e' hx he' => ?_⟩
              by_cases hr : r' = r
              · subst hr
                have he : (Fib.removeNextHop m.tables faceToRemove r').fib.entries r' = some e' := he'
                rw [Fib.hasNextHops, he] at hhas
                rw [hentries, if_pos rfl] at he
                obtain ⟨e, hold, rfl⟩ := Option.map_eq_some_iff.mp he
                have hsane := h.sane x r' e hx hold
                exact ⟨by simpa using hhas, hsane.ordered.erase faceToRemove,
                  fun a ha => hsane.live a (List.mem_of_mem_eraseP ha)⟩
              · exact hrest x r' e' hr hx he'
          | false =>
              have hbut : Fib.AllBut (NextHopsSane m.faceTable) (Fib.removeNextHop m.tables faceToRemove r) [r] :=
                fun x r' e' hx hnot he' => hrest x r' e' (fun heq => hnot (List.mem_singleton.mpr heq)) hx he'
              have htree : (Fib.removeNextHop m.tables faceToRemove r).nameTree.WF cityHash := h.tree
              exact ⟨h.faces, Fib.wf_eraseEntry htree r, haccounted.eraseEntry r,
                fun x r' e' hx he' => hbut.eraseEntry haccounted x r' e' hx List.not_mem_nil he'⟩

/-- The face goes from the face table and from all entries. -/
theorem Sound.failFace (h : m.Sound cityHash)
    (hint : m.faceTable.faces (m.faceTable.getId face) = some face → m.tables.nameTree.nBuckets < 2 ^ 31)
    (hstep : m.failFace face = some m') : m'.Sound cityHash := by
  rw [FibManager.failFace] at hstep
  split at hstep
  · cases hstep
    exact h
  · rcases h.faces.connected face with hzero | ⟨hone, hface⟩
    · rw [hzero] at hstep
      cases hstep
      exact ⟨h.faces.markFailed face, h.tree, h.fib, h.sane.mono fun id x hx => ⟨id, hx⟩⟩
    · rw [hone] at hstep
      obtain ⟨m₁, hremove, hrest⟩ := Option.bind_eq_some_iff.mp hstep
      cases hrest
      obtain ⟨s, hs, rfl⟩ := Option.map_eq_some_iff.mp hremove
      have hfaces : ((m.faceTable.markFailed face).remove face).Sound :=
        (h.faces.markFailed face).remove hface (by rw [FaceTable.markFailed_onFail, if_pos rfl])
      have hkept : ∀ nextHops, NextHopsSane m.faceTable nextHops → (nextHops.eraseP fun a => a.face == face) ≠ [] →
          NextHopsSane ((m.faceTable.markFailed face).remove face) (nextHops.eraseP fun a => a.face == face) := by
        intro nextHops hsane hne
        refine ⟨hne, hsane.ordered.erase face, fun a ha => ?_⟩
        obtain ⟨id, hid⟩ := hsane.live a (List.mem_of_mem_eraseP ha)
        refine ⟨id, ?_⟩
        rw [FaceTable.remove_faces, if_neg]
        · exact hid
        · rintro rfl
          exact hsane.ordered.face_ne_of_mem_erase ha (Option.some.inj (hid.symm.trans hface))
      have hsane : Fib.AllBut (NextHopsSane m.faceTable) m.tables [] := fun nte r e hatt _ he => h.sane nte r e hatt he
      obtain ⟨htree, hfib, hall⟩ := hsane.removeFromAll h.tree (hint hface) h.fib hkept hs
      exact ⟨hfaces, htree, hfib, fun nte r e hatt he => hall nte r e hatt List.not_mem_nil he⟩

theorem Sound.step (h : m.Sound cityHash) (htame : m.Tame cityHash validateParameters event)
    (hstep : m.step cityHash validateParameters event = some m') : m'.Sound cityHash := by
  cases event with
  | addNextHop incomingFaceId parameters =>
      obtain ⟨⟨m₁, response⟩, hadd, rfl⟩ := Option.map_eq_some_iff.mp hstep
      unfold FibManager.addNextHop at hadd
      split at hadd
      · cases hadd
        exact h
      · rename_i p hp
        split at hadd
        · cases hadd
          exact h
        · rename_i nextHopFace hface
          obtain ⟨⟨s, r, isNew⟩, hins, heq⟩ := Option.map_eq_some_iff.mp hadd
          cases heq
          exact (h.insert_addNextHop hface (htame p hp) hins).1
  | removeNextHop incomingFaceId parameters =>
      cases hstep
      exact h.removeNextHop _
  | addFace face =>
      obtain ⟨t, ht, rfl⟩ := Option.map_eq_some_iff.mp hstep
      have hguard : m.faceTable.Guarded (.add face) := htame
      have hadd : m.faceTable.step (.add face) = some t := ht
      exact ⟨h.faces.step hguard hadd, h.tree, h.fib,
        h.sane.mono fun id x hx => ⟨id, h.faces.add_keeps ht hx⟩⟩
  | addReservedFace face faceId =>
      obtain ⟨t, ht, rfl⟩ := Option.map_eq_some_iff.mp hstep
      have hguard : m.faceTable.Guarded (.addReserved face faceId) := htame
      have hadd : m.faceTable.step (.addReserved face faceId) = some t := ht
      exact ⟨h.faces.step hguard hadd, h.tree, h.fib,
        h.sane.mono fun id x hx => ⟨id, FaceTable.addReserved_keeps ht htame hx⟩⟩
  | failFace face => exact h.failFace htame hstep

theorem constructed_sound (cityHash : Component → UInt64) (defaultStrategy : Name) (csFace : Face) :
    (constructed cityHash defaultStrategy csFace).Sound cityHash := by
  have hfib := Tables.new_fibAccounted cityHash 1024 defaultStrategy
  obtain ⟨t, nte, hlook, -, -, -, heq⟩ := Tables.new_eq cityHash (by decide : 0 < 1024) defaultStrategy
  have hbound : ((NameTree.new 1024).lookup cityHash []).1.nBuckets ≤ 2 ^ 32 := by
    show 1024 ≤ 2 ^ 32
    decide
  have hwf := ((NameTree.new_wf cityHash (by decide : 10 ≤ 32)).lookup [] hbound).1
  refine ⟨(FaceTable.constructed_accounted csFace).sound, ?_, hfib, fun x r e hx he => ?_⟩
  · have htree : (constructed cityHash defaultStrategy csFace).tables.nameTree =
        t.setAttached .strategyChoice nte (some 0) := by
      rw [constructed, heq]
      rfl
    have hlook' : (NameTree.new (2 ^ 10)).lookup cityHash [] = (t, some nte) := hlook
    rw [hlook'] at hwf
    rw [htree]
    exact hwf.modifyEntry_attached nte _ (fun _ => rfl) (fun _ => rfl) (fun _ => rfl) fun _ => rfl
  · have hnone : (constructed cityHash defaultStrategy csFace).tables.fib.entries r = none := by
      rw [constructed, heq]
      rfl
    rw [hnone] at he
    cases he

/-- What a successful command to add a next hop leaves. -/
def AddsNextHop (cityHash : Component → UInt64)
    (validateParameters : FibVerb → ControlParameters → Option FibParameters)
    (m : FibManager) (parameters : ControlParameters) : Prop :=
  ∀ m' response, m.addNextHop cityHash validateParameters parameters = some (m', response) → response.code = 200 →
    ∃ p face, validateParameters .addNextHop parameters = some p ∧ m.faceTable.faces (toInt p.faceId) = some face ∧
      m'.HasNextHop cityHash p.name face p.cost

theorem Sound.addsNextHop (h : m.Sound cityHash) {parameters : ControlParameters}
    (hbound : ∀ p, validateParameters .addNextHop parameters = some p →
      (m.tables.nameTree.lookup cityHash p.name).1.nBuckets ≤ 2 ^ 32) :
    m.AddsNextHop cityHash validateParameters parameters := by
  intro m' response hadd hcode
  unfold FibManager.addNextHop at hadd
  split at hadd
  · cases hadd
    cases hcode
  · rename_i p hp
    split at hadd
    · cases hadd
      cases hcode
    · rename_i nextHopFace hface
      obtain ⟨⟨s, r, isNew⟩, hins, heq⟩ := Option.map_eq_some_iff.mp hadd
      cases heq
      exact ⟨p, nextHopFace, hp, hface, (h.insert_addNextHop hface (hbound p hp) hins).2⟩

theorem Sound.addNextHop_isSome (h : m.Sound cityHash) (parameters : ControlParameters) :
    (m.addNextHop cityHash validateParameters parameters).isSome := by
  unfold FibManager.addNextHop
  split
  · rfl
  · rename_i p _
    split
    · rfl
    · obtain ⟨-, nte, hnte, -⟩ := h.fib.fresh.lookup cityHash p.name
      rw [Option.isSome_map, Fib.insert, Option.isSome_map]
      exact Option.isSome_iff_exists.mpr ⟨nte, hnte⟩

theorem Sound.failFace_isSome (h : m.Sound cityHash)
    (hint : m.faceTable.faces (m.faceTable.getId face) = some face → m.tables.nameTree.nBuckets < 2 ^ 31) :
    (m.failFace face).isSome := by
  rw [FibManager.failFace]
  split
  · rfl
  · rcases h.faces.connected face with hzero | ⟨hone, hface⟩
    · rw [hzero]
      rfl
    · obtain ⟨rs, hrs, -⟩ := Fib.enumerate_eq h.tree (hint hface) h.fib
      rw [hone, removeTimes, removeFace, Fib.removeNextHopFromAllEntries, hrs]
      rfl

theorem sound_of_reach {defaultStrategy : Name} {csFace : Face}
    (hr : Reach (step cityHash validateParameters) (Tame cityHash validateParameters)
      (constructed cityHash defaultStrategy csFace) m) : m.Sound cityHash :=
  hr.invariant (constructed_sound cityHash defaultStrategy csFace) fun _ _ _ h htame hstep => h.step htame hstep

/-- In every run that meets the condition the FIB has only next hops to faces of the face table, for each entry one
or more, ordered and one for a face. The commands and the failure of a face come to an end, and a command that
succeeds leaves its next hop. -/
theorem next_hops_sane (cityHash : Component → UInt64)
    (validateParameters : FibVerb → ControlParameters → Option FibParameters) (defaultStrategy : Name) (csFace : Face)
    (m : FibManager)
    (hr : Reach (step cityHash validateParameters) (Tame cityHash validateParameters)
      (constructed cityHash defaultStrategy csFace) m) :
    m.Sane ∧
    (∀ face, m.Tame cityHash validateParameters (.failFace face) → (m.failFace face).isSome) ∧
    ∀ incomingFaceId parameters, m.Tame cityHash validateParameters (.addNextHop incomingFaceId parameters) →
      (m.addNextHop cityHash validateParameters (selfRegistered incomingFaceId parameters)).isSome ∧
      m.AddsNextHop cityHash validateParameters (selfRegistered incomingFaceId parameters) := by
  have h : m.Sound cityHash := sound_of_reach hr
  exact ⟨h.sane, fun face htame => h.failFace_isSome htame,
    fun _ _ htame => ⟨h.addNextHop_isSome _, h.addsNextHop htame⟩⟩

/-- The checks of the two commands: the name is required, and there is no cost to remove. -/
def checkedParameters (verb : FibVerb) (parameters : ControlParameters) : Option FibParameters :=
  if verb = .removeNextHop ∧ parameters.cost.isSome then none
  else parameters.name.map fun name => ⟨name, parameters.faceId.getD 0, parameters.cost.getD 0⟩

/-- Two faces, two next hops for `/A`, and the failure of the first face. -/
def oneFaceLeft : List Event :=
  [.addFace 1, .addFace 2, .addNextHop 256 ⟨some [.ofByte 65], none, some 7⟩,
    .addNextHop 256 ⟨some [.ofByte 65], some 257, some 3⟩, .failFace 1]

/-- The condition for the run above, as a test. -/
def isTame (m : FibManager) : Event → Bool
  | .addNextHop incomingFaceId parameters =>
      (checkedParameters .addNextHop (selfRegistered incomingFaceId parameters)).all fun p =>
        decide ((m.tables.nameTree.lookup NameTree.octetHash p.name).1.nBuckets ≤ 2 ^ 32)
  | .addFace face => decide (m.faceTable.Guarded (.add face))
  | .addReservedFace face faceId => decide (m.faceTable.Guarded (.addReserved face faceId))
  | .failFace _ => decide (m.tables.nameTree.nBuckets < 2 ^ 31)
  | .removeNextHop _ _ => true

theorem tame_of_isTame (h : m.isTame event = true) : m.Tame NameTree.octetHash checkedParameters event := by
  cases event with
  | addNextHop incomingFaceId parameters =>
      intro p hp
      rw [isTame, hp] at h
      exact of_decide_eq_true h
  | removeNextHop => trivial
  | addFace face =>
      have hok : m.faceTable.Guarded (.add face) := of_decide_eq_true h
      exact hok
  | addReservedFace face faceId =>
      have hok : m.faceTable.Guarded (.addReserved face faceId) := of_decide_eq_true h
      exact hok
  | failFace => exact fun _ => of_decide_eq_true h

theorem next_hops_sane_left :
    ∃ m, exec (step NameTree.octetHash checkedParameters) (constructed NameTree.octetHash [.ofByte 83] 0) oneFaceLeft =
        some m ∧ (m.tables.fib.entries 0).map (fun e => e.content.nextHops) = some [⟨2, 3⟩] ∧ m.Sane := by
  have hrun : ((exec (guarded (step NameTree.octetHash checkedParameters) isTame)
      (constructed NameTree.octetHash [.ofByte 83] 0) oneFaceLeft).any fun m =>
        decide ((m.tables.fib.entries 0).map (fun e => e.content.nextHops) = some [⟨2, 3⟩])) = true := by
    decide +kernel
  obtain ⟨m, hm, hleft⟩ := (Option.any_eq_true _ _).mp hrun
  have hr := (reach_of_exec_guarded Reach.start hm).mono fun _ _ => tame_of_isTame
  exact ⟨m, exec_of_guarded hm, of_decide_eq_true hleft,
    (next_hops_sane NameTree.octetHash checkedParameters [.ofByte 83] 0 m hr).1⟩

end FibManager
end NfdPitless
