import NfdPitless.Packet
import NfdPitless.Runs
import Mathlib.Logic.Function.Iterate
import Mathlib.Tactic.NormNum

/-! The face table (`daemon/fw/face-table.cpp`) and what it keeps in the faces (`face.cpp`): their ids and the
handlers of `onFail` by which a face that fails is removed. Ids come from a counter and, for reserved ones, from
the callers. -/

namespace NfdPitless

namespace FaceTable

/-- `FaceId` is an `int`; the RIB's is the unsigned number of the command parameters. -/
abbrev FaceId := Int

def invalidFaceId : FaceId := -1
def internalFaceId : FaceId := 1
def contentStoreFaceId : FaceId := 254
def nullFaceId : FaceId := 255
def reservedMax : FaceId := 255

end FaceTable

structure FaceTable where
  faces : FaceTable.FaceId → Option Face
  lastFaceId : FaceTable.FaceId
  getId : Face → FaceTable.FaceId
  isFailed : Face → Bool
  /-- How often `remove` is connected to the `onFail` of a face. -/
  onFail : Face → Nat

namespace FaceTable

/-- The empty table; no face has an id. -/
def empty : FaceTable :=
  { faces := fun _ => none, lastFaceId := reservedMax, getId := fun _ => invalidFaceId
    isFailed := fun _ => false, onFail := fun _ => 0 }

/-- `++m_lastFaceId`; past the largest `int` it is undefined, and a number that wraps around fails the assertion
of `add`. -/
def increment (id : FaceId) : FaceId := (id + 1).bmod (2 ^ 32)

/-- `setId`, insertion under the id and the connection of `remove`. -/
def addImpl (t : FaceTable) (face : Face) (faceId : FaceId) : FaceTable :=
  { t with
    getId := Function.update t.getId face faceId
    faces := Function.update t.faces faceId (some face)
    onFail := Function.update t.onFail face (t.onFail face + 1) }

/-- Whether a face is taken to be in the table already. -/
def isExisting (t : FaceTable) (face : Face) : Bool :=
  t.getId face != invalidFaceId && (t.faces (t.getId face)).isSome

def add (t : FaceTable) (face : Face) : Option FaceTable :=
  if t.isExisting face then some t
  else
    let faceId := increment t.lastFaceId
    if reservedMax < faceId then some ({ t with lastFaceId := faceId }.addImpl face faceId) else none

/-- The second assertion counts the faces under the id that the face has, not under the one it is to have. -/
def addReserved (t : FaceTable) (face : Face) (faceId : FaceId) : Option FaceTable :=
  if t.getId face = invalidFaceId ∧ t.faces (t.getId face) = none ∧ faceId ≤ reservedMax then
    some (t.addImpl face faceId)
  else none

def remove (t : FaceTable) (face : Face) : FaceTable :=
  { t with
    faces := Function.update t.faces (t.getId face) none
    getId := Function.update t.getId face invalidFaceId }

def markFailed (t : FaceTable) (face : Face) : FaceTable :=
  { t with isFailed := Function.update t.isFailed face true, onFail := Function.update t.onFail face 0 }

/-- `Face::fail` and the handlers connected to `onFail`, each of which is called once. -/
def fail (t : FaceTable) (face : Face) : FaceTable :=
  if t.isFailed face then t else (fun t => t.remove face)^[t.onFail face] (t.markFailed face)

inductive Event where
  | add (face : Face)
  | addReserved (face : Face) (faceId : FaceId)
  | fail (face : Face)
  deriving DecidableEq

def step (t : FaceTable) : Event → Option FaceTable
  | .add face => t.add face
  | .addReserved face faceId => t.addReserved face faceId
  | .fail face => some (t.fail face)

/-- An id that a face has got. -/
structure Assignment where
  face : Face
  faceId : FaceId
  byAdd : Bool

/-- The id that a step assigns, if any. -/
def assignment (t t' : FaceTable) : Event → List Assignment
  | .add face => if t.isExisting face then [] else [⟨face, t'.getId face, true⟩]
  | .addReserved face _ => [⟨face, t'.getId face, false⟩]
  | .fail _ => []

/-- The table with the ids it has assigned, the last one first. -/
structure History where
  table : FaceTable
  assigned : List Assignment

def History.step (h : History) (event : Event) : Option History :=
  (h.table.step event).map fun t => ⟨t, h.table.assignment t event ++ h.assigned⟩

/-- The table after the constructor of the forwarder, which adds `m_csFace`. -/
def History.constructed (csFace : Face) : History :=
  ((⟨empty, []⟩ : History).step (.addReserved csFace contentStoreFaceId)).getD ⟨empty, []⟩

/-- What `Nfd::initialize` adds to it: the internal face, the faces of the configuration, and two `NullFace`. -/
def nfdInitialize (internalFace : Face) (configured : List Face) (nullFace contentStoreFace : Face) : List Event :=
  [.addReserved internalFace internalFaceId] ++ configured.map .add ++
    [.addReserved nullFace nullFaceId, .addReserved contentStoreFace contentStoreFaceId]

/-! ### The steps -/

variable {t t' : FaceTable} {h h' : History} {face face' : Face} {id : FaceId} {event : Event}

/-- The counter goes up by one, or the assertion fails. -/
theorem increment_eq {id : Int} (hlow : reservedMax ≤ id) (hhigh : id < 2 ^ 31) (hpos : reservedMax < increment id) :
    increment id = id + 1 ∧ id + 1 < 2 ^ 31 := by
  have hlow' : (255 : Int) ≤ id := hlow
  have hpos' : (255 : Int) < (id + 1).bmod (2 ^ 32) := hpos
  by_cases hid : id + 1 < 2 ^ 31
  · refine ⟨Int.bmod_eq_of_le ?_ ?_, hid⟩
    · norm_num
      omega
    · norm_num
      omega
  · have hmax : id + 1 = 2 ^ 31 := by omega
    rw [hmax] at hpos'
    exact absurd hpos' (by decide)

/-- The faces of the table are those with an id, each under its id, and `remove` is connected to no other. -/
structure Sound (t : FaceTable) : Prop where
  held : ∀ {id face}, t.faces id = some face → t.getId face = id
  found : ∀ {face}, t.getId face ≠ invalidFaceId → t.faces (t.getId face) = some face
  bounded : ∀ {id face}, t.faces id = some face → id ≤ t.lastFaceId
  reserved : reservedMax ≤ t.lastFaceId
  isInt : t.lastFaceId < 2 ^ 31
  connected : ∀ face, t.onFail face = 0 ∨ t.onFail face = 1 ∧ t.faces (t.getId face) = some face

/-- A reserved id is not that of another face of the table, and no face is added that the table holds under the
invalid id. -/
def Guarded (t : FaceTable) : Event → Prop
  | .add face => t.faces invalidFaceId ≠ some face
  | .addReserved _ faceId => t.faces faceId = none
  | .fail _ => True

instance (t : FaceTable) : DecidablePred t.Guarded
  | .add _ => inferInstanceAs (Decidable (_ ≠ _))
  | .addReserved _ _ => inferInstanceAs (Decidable (_ = _))
  | .fail _ => inferInstanceAs (Decidable True)

theorem empty_sound : empty.Sound where
  held h := by simp [empty] at h
  found h := by simp [empty] at h
  bounded h := by simp [empty] at h
  reserved := le_rfl
  isInt := by decide
  connected _ := Or.inl rfl

theorem addImpl_faces (t : FaceTable) (face : Face) (faceId id : FaceId) :
    (t.addImpl face faceId).faces id = if id = faceId then some face else t.faces id :=
  Function.update_apply _ _ _ _

theorem addImpl_getId (t : FaceTable) (face : Face) (faceId : FaceId) (x : Face) :
    (t.addImpl face faceId).getId x = if x = face then faceId else t.getId x :=
  Function.update_apply _ _ _ _

theorem addImpl_onFail (t : FaceTable) (face : Face) (faceId : FaceId) (x : Face) :
    (t.addImpl face faceId).onFail x = if x = face then t.onFail face + 1 else t.onFail x :=
  Function.update_apply _ _ _ _

/-- A face gets an id that no other face has; it had none, and was not in the table. -/
theorem Sound.addImpl (h : t.Sound) {faceId : FaceId} (hid : t.getId face = invalidFaceId)
    (hnot : t.faces invalidFaceId ≠ some face) (hfree : t.faces faceId = none) (hle : faceId ≤ t.lastFaceId) :
    (t.addImpl face faceId).Sound where
  held := by
    intro id x hx
    rw [addImpl_faces] at hx
    rw [addImpl_getId]
    split at hx
    · cases hx
      rw [if_pos rfl, ‹id = faceId›]
    · have hne : x ≠ face := by
        rintro rfl
        have hinv := (h.held hx).symm.trans hid
        exact hnot (hinv ▸ hx)
      rw [if_neg hne, h.held hx]
  found := by
    intro x hx
    rw [addImpl_getId] at hx ⊢
    rw [addImpl_faces]
    by_cases hxf : x = face
    · rw [if_pos hxf, if_pos rfl, hxf]
    · rw [if_neg hxf] at hx ⊢
      have hfound := h.found hx
      have hne : t.getId x ≠ faceId := by
        intro heq
        rw [heq, hfree] at hfound
        cases hfound
      rw [if_neg hne, hfound]
  bounded := by
    intro id x hx
    rw [addImpl_faces] at hx
    split at hx
    · rwa [‹id = faceId›]
    · exact h.bounded hx
  reserved := h.reserved
  isInt := h.isInt
  connected := by
    intro x
    rw [addImpl_onFail, addImpl_getId, addImpl_faces]
    by_cases hx : x = face
    · rcases h.connected face with hzero | ⟨-, hface⟩
      · exact Or.inr ⟨by rw [if_pos hx, hzero], by rw [if_pos hx, if_pos rfl, hx]⟩
      · exact absurd (hid ▸ hface) hnot
    · rw [if_neg hx, if_neg hx]
      refine (h.connected x).imp id fun hone => ⟨hone.1, ?_⟩
      have hne : t.getId x ≠ faceId := by
        intro heq
        rw [heq, hfree] at hone
        cases hone.2
      rw [if_neg hne, hone.2]

theorem remove_faces (t : FaceTable) (face : Face) (id : FaceId) :
    (t.remove face).faces id = if id = t.getId face then none else t.faces id :=
  Function.update_apply _ _ _ _

theorem remove_getId (t : FaceTable) (face x : Face) :
    (t.remove face).getId x = if x = face then invalidFaceId else t.getId x :=
  Function.update_apply _ _ _ _

/-- A face of the table is removed from where it is, and `remove` is not connected to it any more. -/
theorem Sound.remove (h : t.Sound) (hface : t.faces (t.getId face) = some face) (hzero : t.onFail face = 0) :
    (t.remove face).Sound where
  held := by
    intro id x hx
    rw [remove_faces] at hx
    split at hx
    · cases hx
    · have hne : x ≠ face := by
        rintro rfl
        exact absurd (h.held hx).symm ‹_›
      rw [remove_getId, if_neg hne, h.held hx]
  found := by
    intro x hx
    rw [remove_getId] at hx ⊢
    rw [remove_faces]
    by_cases hxf : x = face
    · exact absurd (if_pos hxf) hx
    · rw [if_neg hxf] at hx ⊢
      have hfound := h.found hx
      have hne : t.getId x ≠ t.getId face := by
        intro heq
        have hface := h.found (heq ▸ hx)
        rw [← heq, hfound] at hface
        exact hxf (Option.some.inj hface)
      rw [if_neg hne, hfound]
  bounded := by
    intro id x hx
    rw [remove_faces] at hx
    split at hx
    · cases hx
    · exact h.bounded hx
  reserved := h.reserved
  isInt := h.isInt
  connected := by
    intro x
    rw [remove_getId, remove_faces]
    show t.onFail x = 0 ∨ t.onFail x = 1 ∧ _
    by_cases hx : x = face
    · exact Or.inl (hx ▸ hzero)
    · rw [if_neg hx]
      refine (h.connected x).imp id fun hone => ⟨hone.1, ?_⟩
      have hne : t.getId x ≠ t.getId face := by
        intro heq
        have hsame := hone.2
        rw [heq, hface] at hsame
        exact hx (Option.some.inj hsame).symm
      rw [if_neg hne, hone.2]

theorem markFailed_onFail (t : FaceTable) (face x : Face) :
    (t.markFailed face).onFail x = if x = face then 0 else t.onFail x := Function.update_apply _ _ _ _

theorem Sound.markFailed (h : t.Sound) (face : Face) : (t.markFailed face).Sound where
  held := h.held
  found := h.found
  bounded := h.bounded
  reserved := h.reserved
  isInt := h.isInt
  connected := by
    intro x
    rw [markFailed_onFail]
    by_cases hx : x = face
    · exact Or.inl (if_pos hx)
    · rw [if_neg hx]
      exact h.connected x

/-- A face that fails is removed if it is in the table. -/
theorem Sound.fail_eq (h : t.Sound) (face : Face) :
    t.fail face = t ∨ t.fail face = t.markFailed face ∨
      t.faces (t.getId face) = some face ∧ t.fail face = (t.markFailed face).remove face := by
  unfold FaceTable.fail
  split
  · exact Or.inl rfl
  · rcases h.connected face with hzero | ⟨hone, hface⟩
    · exact Or.inr (Or.inl (by rw [hzero]; rfl))
    · exact Or.inr (Or.inr ⟨hface, by rw [hone]; rfl⟩)

theorem Sound.fail (h : t.Sound) (face : Face) : (t.fail face).Sound := by
  rcases h.fail_eq face with heq | heq | ⟨hface, heq⟩
  · rwa [heq]
  · rw [heq]
    exact h.markFailed face
  · rw [heq]
    exact (h.markFailed face).remove hface (Function.update_self ..)

/-- The next number of the counter is no id of a face. -/
theorem Sound.increment_free (h : t.Sound) (hpos : reservedMax < increment t.lastFaceId) :
    t.faces (increment t.lastFaceId) = none := by
  cases hfree : t.faces (increment t.lastFaceId) with
  | none => rfl
  | some x =>
      have hle := h.bounded hfree
      rw [(increment_eq h.reserved h.isInt hpos).1] at hle
      exact absurd hle (not_le.mpr (lt_add_one _))

theorem Sound.addImpl_next (h : t.Sound) (hid : t.getId face = invalidFaceId) (hnot : t.faces invalidFaceId ≠ some face)
    (hpos : reservedMax < increment t.lastFaceId) :
    ({ t with lastFaceId := increment t.lastFaceId }.addImpl face (increment t.lastFaceId)).Sound := by
  obtain ⟨hnext, hint⟩ := increment_eq h.reserved h.isInt hpos
  have hraised : ({ t with lastFaceId := increment t.lastFaceId } : FaceTable).Sound := by
    refine ⟨h.held, h.found, fun hx => (h.bounded hx).trans ?_, hpos.le, ?_, ?_⟩
    · exact hnext ▸ (lt_add_one _).le
    · exact hnext ▸ hint
    · exact h.connected
  exact hraised.addImpl hid hnot (h.increment_free hpos) le_rfl

theorem isExisting_eq_false (h : t.Sound) (hnew : t.isExisting face = false) : t.getId face = invalidFaceId := by
  by_contra hid
  have hfound := h.found hid
  simp [isExisting, hid, hfound] at hnew

/-- Steps that meet the condition keep the table sound. -/
theorem Sound.step (h : t.Sound) (hok : t.Guarded event) (hstep : t.step event = some t') : t'.Sound := by
  cases event with
  | add face =>
      rw [FaceTable.step, FaceTable.add] at hstep
      split at hstep
      · cases hstep
        exact h
      · have hid := isExisting_eq_false h (Bool.eq_false_iff.mpr ‹_›)
        dsimp only at hstep
        split at hstep
        · cases hstep
          exact h.addImpl_next hid hok ‹_›
        · cases hstep
  | addReserved face faceId =>
      rw [FaceTable.step, FaceTable.addReserved] at hstep
      split at hstep
      · obtain ⟨hid, hnot, hle⟩ := ‹_ ∧ _›
        cases hstep
        rw [hid] at hnot
        exact h.addImpl hid (by rw [hnot]; exact Option.some_ne_none face |>.symm) hok (hle.trans h.reserved)
      · cases hstep
  | fail face =>
      cases hstep
      exact h.fail face

theorem addImpl_keeps {faceId : FaceId} (hfree : t.faces faceId = none) {x : Face} (hx : t.faces id = some x) :
    (t.addImpl face faceId).faces id = some x := by
  have hne : id ≠ faceId := by
    rintro rfl
    rw [hfree] at hx
    cases hx
  rw [addImpl_faces, if_neg hne, hx]

/-- Adding a face keeps the others. -/
theorem Sound.add_keeps (h : t.Sound) (hadd : t.add face = some t') {x : Face} (hx : t.faces id = some x) :
    t'.faces id = some x := by
  rw [FaceTable.add] at hadd
  split at hadd
  · cases hadd
    exact hx
  · dsimp only at hadd
    split at hadd
    · have hfree := h.increment_free ‹_›
      cases hadd
      exact addImpl_keeps hfree hx
    · cases hadd

theorem addReserved_keeps {faceId : FaceId} (hadd : t.addReserved face faceId = some t') (hfree : t.faces faceId = none)
    {x : Face} (hx : t.faces id = some x) : t'.faces id = some x := by
  rw [FaceTable.addReserved] at hadd
  split at hadd
  · cases hadd
    exact addImpl_keeps hfree hx
  · cases hadd

theorem fail_lastFaceId (t : FaceTable) (face : Face) : (t.fail face).lastFaceId = t.lastFaceId := by
  unfold FaceTable.fail
  split
  · rfl
  · have hremove : ∀ t' : FaceTable, t'.lastFaceId = t.lastFaceId → (t'.remove face).lastFaceId = t.lastFaceId :=
      fun _ hrest => hrest
    have hmark : (t.markFailed face).lastFaceId = t.lastFaceId := rfl
    exact Function.Iterate.rec (fun t' : FaceTable => t'.lastFaceId = t.lastFaceId) hmark hremove _

/-- Ids above the reserved ones come from the counter, which only goes up. -/
structure History.Accounted (h : History) : Prop where
  sound : h.table.Sound
  counted : ∀ a ∈ h.assigned, a.faceId ≤ h.table.lastFaceId ∧ (a.byAdd = true → reservedMax < a.faceId)
  once : h.assigned.Pairwise fun later earlier => earlier.byAdd = true → later.faceId ≠ earlier.faceId

theorem History.Accounted.assign (ha : h.Accounted) (hsound : t.Sound) {a : Assignment}
    (hlast : h.table.lastFaceId ≤ t.lastFaceId) (hle : a.faceId ≤ t.lastFaceId)
    (hnew : a.byAdd = true ∧ h.table.lastFaceId < a.faceId ∨ a.byAdd = false ∧ a.faceId ≤ reservedMax) :
    (⟨t, a :: h.assigned⟩ : History).Accounted where
  sound := hsound
  counted := by
    intro b hb
    rcases List.mem_cons.mp hb with rfl | hb
    · refine ⟨hle, fun hadd => ?_⟩
      obtain ⟨-, hgt⟩ | ⟨hres, -⟩ := hnew
      · exact ha.sound.reserved.trans_lt hgt
      · rw [hadd] at hres
        cases hres
    · obtain ⟨hble, hbadd⟩ := ha.counted b hb
      exact ⟨hble.trans hlast, hbadd⟩
  once := by
    refine List.pairwise_cons.mpr ⟨fun b hb hbadd heq => ?_, ha.once⟩
    obtain ⟨hble, hbgt⟩ := ha.counted b hb
    obtain ⟨-, hgt⟩ | ⟨-, hres⟩ := hnew
    · exact absurd (heq ▸ hgt) (not_lt.mpr hble)
    · exact absurd (hbgt hbadd) (not_lt.mpr (heq ▸ hres))

theorem History.Accounted.step (ha : h.Accounted) (hok : h.table.Guarded event) (hstep : h.step event = some h') :
    h'.Accounted := by
  obtain ⟨t, ht, rfl⟩ := Option.map_eq_some_iff.mp hstep
  have hsound := ha.sound.step hok ht
  cases event with
  | add face =>
      rw [FaceTable.step, FaceTable.add] at ht
      split at ht
      · cases ht
        rw [assignment, if_pos ‹_›]
        exact ha
      · dsimp only at ht
        split at ht
        · cases ht
          obtain ⟨hnext, -⟩ := increment_eq ha.sound.reserved ha.sound.isInt ‹_›
          have hid : ({ h.table with lastFaceId := increment h.table.lastFaceId }.addImpl face
              (increment h.table.lastFaceId)).getId face = increment h.table.lastFaceId := by
            rw [addImpl_getId, if_pos rfl]
          have hlt : h.table.lastFaceId < increment h.table.lastFaceId := hnext ▸ lt_add_one _
          rw [assignment, if_neg ‹_›, hid]
          exact ha.assign hsound hlt.le le_rfl (Or.inl ⟨rfl, hlt⟩)
        · cases ht
  | addReserved face faceId =>
      rw [FaceTable.step, FaceTable.addReserved] at ht
      split at ht
      · obtain ⟨-, -, hle⟩ := ‹_ ∧ _›
        cases ht
        have hid : (h.table.addImpl face faceId).getId face = faceId := by
          rw [addImpl_getId, if_pos rfl]
        rw [assignment, hid]
        exact ha.assign hsound le_rfl (hle.trans ha.sound.reserved) (Or.inr ⟨rfl, hle⟩)
      · cases ht
  | fail face =>
      cases ht
      refine ⟨hsound, fun a hmem => ?_, ha.once⟩
      rw [fail_lastFaceId]
      exact ha.counted a hmem

theorem constructed_accounted (csFace : Face) : (History.constructed csFace).Accounted := by
  have hempty : (⟨empty, []⟩ : History).Accounted := ⟨empty_sound, by simp, List.Pairwise.nil⟩
  rw [History.constructed]
  cases hstep : (⟨empty, []⟩ : History).step (.addReserved csFace contentStoreFaceId) with
  | none => exact hempty
  | some h =>
      have hguard : empty.Guarded (.addReserved csFace contentStoreFaceId) := rfl
      exact hempty.step hguard hstep

/-- Every face with an id is in the table under this id only, no two faces have one id, and an id assigned by `add`
is never assigned to another face. -/
structure History.Identified (h : History) : Prop where
  found : ∀ face, h.table.getId face ≠ invalidFaceId →
    ∀ id, h.table.faces id = some face ↔ id = h.table.getId face
  distinct : ∀ face face', h.table.getId face ≠ invalidFaceId → h.table.getId face = h.table.getId face' → face = face'
  once : h.assigned.Pairwise fun later earlier =>
    earlier.byAdd = true → later.faceId = earlier.faceId → later.face = earlier.face

theorem History.Accounted.identified (ha : h.Accounted) : h.Identified where
  found := by
    intro face hid id
    constructor
    · exact fun hface => (ha.sound.held hface).symm
    · rintro rfl
      exact ha.sound.found hid
  distinct := by
    intro face face' hid heq
    have hface := ha.sound.found hid
    have hface' := ha.sound.found (heq ▸ hid)
    rw [← heq, hface] at hface'
    exact Option.some.inj hface'
  once := ha.once.imp fun hne hadd heq => absurd heq (hne hadd)

/-- A step that does not meet the condition leaves a face with an id that another face has, or two ids for a face. -/
theorem History.Accounted.not_identified (ha : h.Accounted) (hok : ¬ h.table.Guarded event)
    (hstep : h.step event = some h') : ¬ h'.Identified := by
  intro hident
  obtain ⟨t, ht, rfl⟩ := Option.map_eq_some_iff.mp hstep
  cases event with
  | add face =>
      have hheld : h.table.faces invalidFaceId = some face := not_not.mp hok
      rw [FaceTable.step, FaceTable.add] at ht
      have hnew : h.table.isExisting face = false := by
        rw [isExisting, ha.sound.held hheld]
        rfl
      rw [hnew, if_neg Bool.false_ne_true] at ht
      dsimp only at ht
      split at ht
      · have hpos := ‹reservedMax < _›
        cases ht
        have hid : increment h.table.lastFaceId ≠ invalidFaceId := by
          intro heq
          rw [heq] at hpos
          exact absurd hpos (by decide)
        have hfound := (hident.found face (by rwa [addImpl_getId, if_pos rfl]) invalidFaceId).mp
          (by rwa [addImpl_faces, if_neg hid.symm])
        rw [addImpl_getId, if_pos rfl] at hfound
        exact hid hfound.symm
      · cases ht
  | addReserved face faceId =>
      obtain ⟨face', hface'⟩ := Option.ne_none_iff_exists'.mp hok
      rw [FaceTable.step, FaceTable.addReserved] at ht
      split at ht
      · obtain ⟨hinvalid, hnot, -⟩ := ‹_ ∧ _›
        cases ht
        have hid : faceId ≠ invalidFaceId := by
          rintro rfl
          rw [hinvalid, hface'] at hnot
          cases hnot
        have hne : face' ≠ face := by
          rintro rfl
          exact hid ((ha.sound.held hface').symm.trans hinvalid)
        refine hne (hident.distinct face face' ?_ ?_).symm
        · rwa [addImpl_getId, if_pos rfl]
        · rw [addImpl_getId, addImpl_getId, if_pos rfl, if_neg hne, ha.sound.held hface']
      · cases ht
  | fail face => exact hok trivial

/-- While no reserved id is given to a second face, ids identify faces; a step that breaks the condition breaks
this. -/
theorem ids_identify_faces (csFace : Face) (h : History)
    (hr : Reach History.step (fun h event => h.table.Guarded event) (History.constructed csFace) h) :
    h.Identified ∧ ∀ event h', h.step event = some h' → (h'.Identified ↔ h.table.Guarded event) := by
  have ha : h.Accounted := hr.invariant (constructed_accounted csFace) fun _ _ _ ha hok hstep => ha.step hok hstep
  refine ⟨ha.identified, fun event h' hstep => ⟨fun hident => ?_, fun hok => (ha.step hok hstep).identified⟩⟩
  by_contra hok
  exact ha.not_identified hok hstep hident

/-- A face that fails gives its id back, and the next one gets another. -/
theorem ids_identify_faces_readded :
    ∃ h, exec History.step (History.constructed 0) [.addReserved 1 internalFaceId, .add 2, .fail 2, .add 3] = some h ∧
      h.table.getId 2 = invalidFaceId ∧ h.table.getId 3 = 257 ∧ h.Identified := by
  have hrun : ((exec (guarded History.step fun h event => decide (h.table.Guarded event)) (History.constructed 0)
      [.addReserved 1 internalFaceId, .add 2, .fail 2, .add 3]).any fun h =>
        decide (h.table.getId 2 = invalidFaceId) && decide (h.table.getId 3 = 257)) = true := by decide
  obtain ⟨h, hh, hids⟩ := (Option.any_eq_true _ _).mp hrun
  obtain ⟨hold, hnew⟩ := Bool.and_eq_true_iff.mp hids
  have hr := (reach_of_exec_guarded Reach.start hh).mono fun _ _ hok => of_decide_eq_true hok
  exact ⟨h, exec_of_guarded hh, of_decide_eq_true hold, of_decide_eq_true hnew, (ids_identify_faces 0 h hr).1⟩

/-- `Nfd::initialize` gives the id of `m_csFace` to a second face. -/
theorem nfdInitialize_id_twice :
    ∃ h, exec History.step (History.constructed 0) (nfdInitialize 1 [] 2 3) = some h ∧ ¬ h.Identified := by
  have hrun : ((exec History.step (History.constructed 0) (nfdInitialize 1 [] 2 3)).any fun h =>
      decide (h.table.getId 0 = contentStoreFaceId) && decide (h.table.getId 3 = contentStoreFaceId)) =
        true := by decide
  obtain ⟨h, hh, hids⟩ := (Option.any_eq_true _ _).mp hrun
  obtain ⟨hfirst, hsecond⟩ := Bool.and_eq_true_iff.mp hids
  refine ⟨h, hh, fun hident => ?_⟩
  have hid := of_decide_eq_true hfirst
  have heq := hident.distinct 0 3 (by rw [hid]; decide) (hid.trans (of_decide_eq_true hsecond).symm)
  cases heq

end FaceTable
end NfdPitless
