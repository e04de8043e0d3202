import NfdPitless.UdpChannel

/-! What holds of UDP faces in every run: the faces of a channel that have not failed are those of the face table,
one for a remote endpoint. -/

namespace NfdPitless

namespace FaceTable

variable {t t' : FaceTable} {f x : Face} {id : FaceId}

/-- The table changes only in what concerns a face. -/
structure ChangesOnly (f : Face) (t t' : FaceTable) : Prop where
  getId : ∀ x, x ≠ f → t'.getId x = t.getId x
  isFailed : ∀ x, x ≠ f → t'.isFailed x = t.isFailed x
  onFail : ∀ x, x ≠ f → t'.onFail x = t.onFail x
  faces : ∀ id x, x ≠ f → (t'.faces id = some x ↔ t.faces id = some x)

theorem ChangesOnly.refl (f : Face) (t : FaceTable) : ChangesOnly f t t :=
  ⟨fun _ _ => rfl, fun _ _ => rfl, fun _ _ => rfl, fun _ _ _ => Iff.rfl⟩

theorem Sound.add_changesOnly (h : t.Sound) (hadd : t.add f = some t') : ChangesOnly f t t' := by
  rw [FaceTable.add] at hadd
  split at hadd
  · cases hadd
    exact .refl f t
  · dsimp only at hadd
    split at hadd
    · have hfree := h.increment_free ‹_›
      cases hadd
      refine ⟨fun x hx => ?_, fun _ _ => rfl, fun x hx => ?_, fun id x hx => ?_⟩
      · rw [addImpl_getId, if_neg hx]
      · rw [addImpl_onFail, if_neg hx]
      · rw [addImpl_faces]
        split
        · rename_i hid
          subst hid
          show some f = some x ↔ t.faces (increment t.lastFaceId) = some x
          rw [hfree]
          exact ⟨fun heq => absurd (Option.some.inj heq).symm hx, fun heq => (by cases heq)⟩
        · rfl
    · cases hadd

theorem Sound.fail_changesOnly (h : t.Sound) (f : Face) : ChangesOnly f t (t.fail f) := by
  have hmark : ∀ x, x ≠ f → (t.markFailed f).isFailed x = t.isFailed x := fun x hx => Function.update_of_ne hx _ _
  have hhandlers : ∀ x, x ≠ f → (t.markFailed f).onFail x = t.onFail x := fun x hx => Function.update_of_ne hx _ _
  rcases h.fail_eq f with heq | heq | ⟨hface, heq⟩
  · rw [heq]
    exact .refl f t
  · rw [heq]
    exact ⟨fun _ _ => rfl, hmark, hhandlers, fun _ _ _ => Iff.rfl⟩
  · rw [heq]
    refine ⟨fun x hx => ?_, hmark, hhandlers, fun id x hx => ?_⟩
    · rw [remove_getId, if_neg hx]
      rfl
    · rw [remove_faces]
      split
      · rename_i hid
        have hheld : t.faces id = some f := hid ▸ hface
        rw [hheld]
        exact ⟨fun heq => (by cases heq), fun heq => absurd (Option.some.inj heq).symm hx⟩
      · rfl

/-- A face without id that is added gets one that is not reserved. -/
theorem Sound.add_new (h : t.Sound) (hid : t.getId f = invalidFaceId) (hnot : t.faces invalidFaceId ≠ some f)
    (hadd : t.add f = some t') : t'.Sound ∧ reservedMax < t'.getId f ∧ t'.onFail f = t.onFail f + 1 ∧
      t'.isFailed = t.isFailed := by
  have hnew : t.isExisting f = false := by simp [isExisting, hid]
  rw [FaceTable.add, hnew] at hadd
  dsimp only at hadd
  rw [if_neg (by simp)] at hadd
  split at hadd
  · rename_i hpos
    cases hadd
    refine ⟨h.addImpl_next hid hnot hpos, ?_, ?_, rfl⟩
    · rw [addImpl_getId, if_pos rfl]
      exact hpos
    · rw [addImpl_onFail, if_pos rfl]
  · cases hadd

theorem fail_isFailed (t : FaceTable) (f : Face) : (t.fail f).isFailed f = true := by
  unfold FaceTable.fail
  split
  · assumption
  · have hremove : ∀ t' : FaceTable, t'.isFailed f = true → (t'.remove f).isFailed f = true := fun _ hfailed => hfailed
    have hmark : (t.markFailed f).isFailed f = true := Function.update_self ..
    exact Function.Iterate.rec (fun t' : FaceTable => t'.isFailed f = true) hmark hremove _

/-- A face without handlers that fails has none afterwards. -/
theorem Sound.fail_onFail (h : t.Sound) (hlive : t.isFailed f = false) : (t.fail f).onFail f = 0 := by
  have hmark : (t.markFailed f).onFail f = 0 := Function.update_self ..
  rcases h.fail_eq f with heq | heq | ⟨-, heq⟩
  · have hfailed := fail_isFailed t f
    rw [heq, hlive] at hfailed
    cases hfailed
  · rw [heq, hmark]
  · rw [heq]
    exact hmark

/-- A face of the table that fails is removed. -/
theorem Sound.fail_removes (h : t.Sound) (hlive : t.isFailed f = false) (hone : t.onFail f = 1) (id : FaceId) :
    (t.fail f).faces id ≠ some f := by
  have hface : t.faces (t.getId f) = some f := by
    rcases h.connected f with hzero | ⟨-, hface⟩
    · rw [hzero] at hone
      cases hone
    · exact hface
  have heq : t.fail f = (t.markFailed f).remove f := by
    rw [FaceTable.fail, hlive, hone]
    rfl
  intro hid
  rw [heq, remove_faces] at hid
  split at hid
  · cases hid
  · rename_i hne
    exact hne (h.held hid).symm

theorem Sound.add_sound (h : t.Sound) (hnot : t.faces invalidFaceId ≠ some f) (hadd : t.add f = some t') :
    t'.Sound := by
  have hstep : t.step (.add f) = some t' := hadd
  have hok : t.Guarded (.add f) := hnot
  exact h.step hok hstep

end FaceTable

namespace UdpSystem

open FaceTable (ChangesOnly)

variable {s s' : UdpSystem} {f x object : Face} {u u' v : UdpFace} {c r : Endpoint}

/-! ### The faces of the channels -/

/-- A unicast face of which `fail` was not called. -/
structure Live (s : UdpSystem) (c r : Endpoint) (f : Face) (u : UdpFace) : Prop where
  face : s.faces f = some u
  isUnicast : u.isMultiAccess = false
  localEndpoint : u.localEndpoint = c
  remoteEndpoint : u.remoteEndpoint = r
  isFailed : s.table.isFailed f = false

/-- A channel has its faces that have not failed, under their remote endpoints; these are its faces of the table. -/
structure Registered (s : UdpSystem) : Prop where
  sound : s.table.Sound
  mapped : ∀ {c r f}, s.channelFaces c r = some f ↔ ∃ u, s.Live c r f u
  isOpen : ∀ {f u}, s.faces f = some u → (u.isOpen = true ↔ s.table.isFailed f = false)
  added : ∀ {c r f u}, s.Live c r f u → FaceTable.reservedMax < s.table.getId f ∧ s.table.onFail f = 1
  removed : ∀ {f u}, s.faces f = some u → u.isMultiAccess = false → s.table.isFailed f = true →
    ∀ id, s.table.faces id ≠ some f
  multicast : ∀ {f u}, s.faces f = some u → u.isMultiAccess = true → s.table.onFail f = 0

theorem new_registered {table : FaceTable} (h : table.Sound) : (new table).Registered := by
  have hno : ∀ {c r f u}, ¬ (new table).Live c r f u := fun hlive => by cases hlive.face
  refine ⟨h, ⟨fun hmap => ?_, fun hlive => ?_⟩, fun hf => ?_, fun hlive => absurd hlive hno, fun hf => ?_, fun hf => ?_⟩
  · cases hmap
  · exact absurd hlive.choose_spec hno
  all_goals cases hf

/-- A face differs in what is not its endpoints, its kind and its socket. -/
structure Same (u u' : UdpFace) : Prop where
  localEndpoint : u'.localEndpoint = u.localEndpoint
  remoteEndpoint : u'.remoteEndpoint = u.remoteEndpoint
  isMultiAccess : u'.isMultiAccess = u.isMultiAccess
  isOpen : u'.isOpen = u.isOpen

theorem Same.refl (u : UdpFace) : Same u u := ⟨rfl, rfl, rfl, rfl⟩

theorem Registered.of_same (h : s.Registered) (htable : s'.table = s.table) (hmap : s'.channelFaces = s.channelFaces)
    (hold : ∀ x v, s.faces x = some v → ∃ v', s'.faces x = some v' ∧ Same v v')
    (hnew : ∀ x v', s'.faces x = some v' → ∃ v, s.faces x = some v ∧ Same v v') : s'.Registered := by
  have hlive : ∀ {c r x}, (∃ v', s'.Live c r x v') ↔ ∃ v, s.Live c r x v := by
    intro c r x
    constructor
    · rintro ⟨v', hx, hu, hc, hr, hno⟩
      obtain ⟨v, hv, hsame⟩ := hnew x v' hx
      exact ⟨v, hv, hsame.isMultiAccess ▸ hu, hsame.localEndpoint ▸ hc, hsame.remoteEndpoint ▸ hr, htable ▸ hno⟩
    · rintro ⟨v, hx, hu, hc, hr, hno⟩
      obtain ⟨v', hv', hsame⟩ := hold x v hx
      exact ⟨v', hv', hsame.isMultiAccess.trans hu, hsame.localEndpoint.trans hc, hsame.remoteEndpoint.trans hr,
        htable.symm ▸ hno⟩
  refine ⟨htable.symm ▸ h.sound, ?_, ?_, ?_, ?_, ?_⟩
  · intro c r x
    rw [hlive, hmap]
    exact h.mapped
  · intro x v' hx
    obtain ⟨v, hv, hsame⟩ := hnew x v' hx
    rw [hsame.isOpen, htable]
    exact h.isOpen hv
  · intro c r x v' hl
    obtain ⟨v, hv⟩ := hlive.mp ⟨v', hl⟩
    rw [htable]
    exact h.added hv
  · intro x v' hx hu hfailed
    obtain ⟨v, hv, hsame⟩ := hnew x v' hx
    rw [htable] at hfailed ⊢
    exact h.removed hv (hsame.isMultiAccess ▸ hu) hfailed
  · intro x v' hx hu
    obtain ⟨v, hv, hsame⟩ := hnew x v' hx
    rw [htable]
    exact h.multicast hv (hsame.isMultiAccess ▸ hu)

/-- What the faces of the channels depend on is the same. -/
theorem Registered.congr (h : s.Registered) (htable : s'.table = s.table) (hfaces : s'.faces = s.faces)
    (hmap : s'.channelFaces = s.channelFaces) : s'.Registered :=
  h.of_same htable hmap (fun _ v hv => ⟨v, hfaces ▸ hv, .refl v⟩) fun _ v hv => ⟨v, hfaces ▸ hv, .refl v⟩

theorem setFace_self (s : UdpSystem) (f : Face) (u : UdpFace) : (s.setFace f u).faces f = some u :=
  Function.update_self _ _ _

theorem setFace_of_ne (u : UdpFace) (hx : x ≠ f) : (s.setFace f u).faces x = s.faces x :=
  Function.update_of_ne hx _ _

theorem ne_of_none (hx : s.faces x = some v) (hnone : s.faces f = none) : f ≠ x := by
  rintro rfl
  rw [hx] at hnone
  cases hnone

theorem setFace_same_old (hf : s.faces f = some u) (hsame : Same u u') (x : Face) (v : UdpFace)
    (hv : s.faces x = some v) : ∃ v', (s.setFace f u').faces x = some v' ∧ Same v v' := by
  by_cases hx : x = f
  · subst hx
    cases hf.symm.trans hv
    exact ⟨u', setFace_self s _ u', hsame⟩
  · exact ⟨v, (setFace_of_ne u' hx).trans hv, .refl v⟩

theorem setFace_same_new (hf : s.faces f = some u) (hsame : Same u u') (x : Face) (v' : UdpFace)
    (hv' : (s.setFace f u').faces x = some v') : ∃ v, s.faces x = some v ∧ Same v v' := by
  by_cases hx : x = f
  · subst hx
    cases (setFace_self s _ u').symm.trans hv'
    exact ⟨u, hf, hsame⟩
  · exact ⟨v', (setFace_of_ne u' hx).symm.trans hv', .refl v'⟩

theorem Registered.touch (h : s.Registered) (hf : s.faces f = some u) (hsame : Same u u') :
    (s.setFace f u').Registered :=
  h.of_same rfl rfl (setFace_same_old hf hsame) (setFace_same_new hf hsame)

/-- A face fails: its socket is closed, and its handlers forget it. -/
theorem Registered.of_fail (h : s.Registered) (hf : s.faces f = some u) (hopen : u.isOpen = true)
    (htable : s'.table = s.table.fail f) (hfaces : s'.faces = (s.setFace f { u with isOpen := false }).faces)
    (hmap : ∀ c r x, s'.channelFaces c r = some x ↔ s.channelFaces c r = some x ∧ x ≠ f) : s'.Registered := by
  have hnot := (h.isOpen hf).mp hopen
  have honly := h.sound.fail_changesOnly f
  have hfailed := FaceTable.fail_isFailed s.table f
  have hface : ∀ x, x ≠ f → s'.faces x = s.faces x := fun x hx => by rw [hfaces, setFace_of_ne _ hx]
  have hself : s'.faces f = some { u with isOpen := false } := by rw [hfaces, setFace_self]
  have hlive : ∀ {c r x v}, s'.Live c r x v ↔ s.Live c r x v ∧ x ≠ f := by
    intro c r x v
    constructor
    · rintro ⟨hx, hu, hc, hr, hno⟩
      have hne : x ≠ f := by
        rintro rfl
        rw [htable, hfailed] at hno
        cases hno
      exact ⟨⟨(hface x hne) ▸ hx, hu, hc, hr, honly.isFailed x hne ▸ htable ▸ hno⟩, hne⟩
    · rintro ⟨⟨hx, hu, hc, hr, hno⟩, hne⟩
      refine ⟨(hface x hne).trans hx, hu, hc, hr, ?_⟩
      rw [htable, honly.isFailed x hne, hno]
  refine ⟨htable.symm ▸ h.sound.fail f, ?_, ?_, ?_, ?_, ?_⟩
  · intro c r x
    simp only [hlive, hmap, h.mapped, exists_and_right]
  · intro x v hx
    by_cases hxf : x = f
    · subst hxf
      cases hself.symm.trans hx
      rw [htable, hfailed]
      exact ⟨fun hbad => (by cases hbad), fun hbad => (by cases hbad)⟩
    · rw [htable, honly.isFailed x hxf]
      exact h.isOpen ((hface x hxf) ▸ hx)
  · intro c r x v hl
    obtain ⟨hold, hne⟩ := hlive.mp hl
    rw [htable, honly.getId x hne, honly.onFail x hne]
    exact h.added hold
  · intro x v hx hu hfail id
    rw [htable] at hfail ⊢
    by_cases hxf : x = f
    · subst hxf
      cases hself.symm.trans hx
      exact h.sound.fail_removes hnot (h.added ⟨hf, hu, rfl, rfl, hnot⟩).2 id
    · rw [honly.isFailed x hxf] at hfail
      rw [Ne, honly.faces id x hxf]
      exact h.removed ((hface x hxf) ▸ hx) hu hfail id
  · intro x v hx hu
    rw [htable]
    by_cases hxf : x = f
    · subst hxf
      exact h.sound.fail_onFail hnot
    · rw [honly.onFail x hxf]
      exact h.multicast ((hface x hxf) ▸ hx) hu

theorem setChannelFace_apply (s : UdpSystem) (c r : Endpoint) (face : Option Face) (c' r' : Endpoint) :
    (s.setChannelFace c r face).channelFaces c' r' = if c' = c ∧ r' = r then face else s.channelFaces c' r' := by
  unfold setChannelFace
  dsimp only
  by_cases hc : c' = c
  · subst hc
    rw [Function.update_self, Function.update_apply]
    simp
  · rw [Function.update_of_ne hc, if_neg fun hboth => hc hboth.1]

/-- A face that is open fails and is closed. -/
theorem Registered.closed (h : s.Registered) (hf : s.faces f = some u) (hopen : u.isOpen = true) :
    ((s.closeSocket f u).fail f u).Registered := by
  have hnot := (h.isOpen hf).mp hopen
  have hclosed : (s.closeSocket f u).table.isFailed f = false := hnot
  unfold fail
  rw [hclosed]
  dsimp only
  rw [if_neg (by simp)]
  split
  · rename_i hmulti
    refine h.of_fail hf hopen rfl rfl fun c r x => ?_
    constructor
    · intro hmap
      refine ⟨hmap, ?_⟩
      rintro rfl
      obtain ⟨v, hv⟩ := h.mapped.mp hmap
      cases hf.symm.trans hv.face
      rw [hv.isUnicast] at hmulti
      cases hmulti
    · exact fun hmap => hmap.1
  · rename_i hmulti
    have hunicast := Bool.eq_false_iff.mpr hmulti
    refine h.of_fail hf hopen rfl rfl fun c r x => ?_
    have hown : s.channelFaces u.localEndpoint u.remoteEndpoint = some f :=
      h.mapped.mpr ⟨u, hf, hunicast, rfl, rfl, hnot⟩
    rw [setChannelFace_apply]
    split
    · rename_i hkey
      obtain ⟨rfl, rfl⟩ := hkey
      refine ⟨fun hmap => (by cases hmap), fun hmap => ?_⟩
      exact absurd (Option.some.inj (hown.symm.trans hmap.1)).symm hmap.2
    · rename_i hkey
      refine ⟨fun hmap => ⟨hmap, ?_⟩, fun hmap => hmap.1⟩
      rintro rfl
      obtain ⟨v, hv⟩ := h.mapped.mp hmap
      cases hf.symm.trans hv.face
      exact hkey ⟨hv.localEndpoint.symm, hv.remoteEndpoint.symm⟩

theorem Registered.close (h : s.Registered) (hf : s.faces f = some u) : (s.close f u).Registered := by
  unfold UdpSystem.close
  split
  · exact h.closed hf ‹_›
  · exact h

/-- An error closes the face, or is ignored. -/
theorem processErrorCode_cases (h : s.Registered) (hf : s.faces f = some u) (error : SocketError) :
    s.processErrorCode f u error = s ∨
      u.isOpen = true ∧ s.processErrorCode f u error = (s.closeSocket f u).fail f u := by
  unfold UdpSystem.processErrorCode
  split
  · exact Or.inl rfl
  · split
    · exact Or.inl rfl
    · split
      · rename_i hclosed
        have hfailed : s.table.isFailed f = true := by
          by_contra hnot
          rw [(h.isOpen hf).mpr (Bool.eq_false_iff.mpr hnot)] at hclosed
          cases hclosed
        exact Or.inl (by rw [UdpSystem.fail, if_pos hfailed])
      · exact Or.inr ⟨by simpa using ‹¬ u.isOpen = false›, rfl⟩

theorem Registered.processErrorCode (h : s.Registered) (hf : s.faces f = some u) (error : SocketError) :
    (s.processErrorCode f u error).Registered := by
  rcases processErrorCode_cases h hf error with heq | ⟨hopen, heq⟩
  · rwa [heq]
  · rw [heq]
    exact h.closed hf hopen

theorem Registered.receiveDatagram (h : s.Registered) (hf : s.faces f = some u) (isPacket : List UInt8 → Bool)
    (input : Except SocketError (List UInt8)) : (receiveDatagram isPacket s f u input).Registered := by
  unfold UdpSystem.receiveDatagram
  split
  · exact h.processErrorCode hf _
  · split
    · exact h.touch hf ⟨rfl, rfl, rfl, rfl⟩
    · exact h

theorem Registered.closeIfIdle (h : s.Registered) (hf : s.faces f = some u) : (s.closeIfIdle f u).Registered := by
  have htouched : (s.setFace f { u with closeIfIdleEvent := none }).Registered := h.touch hf ⟨rfl, rfl, rfl, rfl⟩
  have hself := setFace_self s f { u with closeIfIdleEvent := none }
  unfold UdpSystem.closeIfIdle
  dsimp only
  split
  · split
    · exact htouched.close hself
    · exact htouched.touch hself ⟨rfl, rfl, rfl, rfl⟩
  · exact htouched

structure IsNew (s : UdpSystem) (object : Face) : Prop where
  faces : s.faces object = none
  getId : s.table.getId object = FaceTable.invalidFaceId
  isFailed : s.table.isFailed object = false
  onFail : s.table.onFail object = 0
  notHeld : s.table.faces FaceTable.invalidFaceId ≠ some object

theorem isNew_iff : s.isNew object = true ↔ s.IsNew object := by
  unfold isNew
  simp only [Bool.and_eq_true, Option.isNone_iff_eq_none, beq_iff_eq, Bool.not_eq_true', bne_iff_ne]
  exact ⟨fun ⟨⟨⟨⟨h, h₁⟩, h₂⟩, h₃⟩, h₄⟩ => ⟨h, h₁, h₂, h₃, h₄⟩, fun ⟨h, h₁, h₂, h₃, h₄⟩ => ⟨⟨⟨⟨h, h₁⟩, h₂⟩, h₃⟩, h₄⟩⟩

/-- A unicast face is created, entered in its channel and added to the table. -/
theorem Registered.of_create (h : s.Registered) (hnew : s.IsNew object) (hfree : s.channelFaces c r = none)
    (hu : u.isMultiAccess = false) (hc : u.localEndpoint = c) (hr : u.remoteEndpoint = r) (hopen : u.isOpen = true)
    (hadd : s.table.add object = some s'.table) (hfaces : s'.faces = (s.setFace object u).faces)
    (hmap : s'.channelFaces = (s.setChannelFace c r (some object)).channelFaces) : s'.Registered := by
  obtain ⟨hsound, hid, hone, hkept⟩ := h.sound.add_new hnew.getId hnew.notHeld hadd
  rw [hnew.onFail] at hone
  have honly := h.sound.add_changesOnly hadd
  have hself : s'.faces object = some u := by rw [hfaces, setFace_self]
  have hface : ∀ x, x ≠ object → s'.faces x = s.faces x := fun x hx => by rw [hfaces, setFace_of_ne _ hx]
  have hne : ∀ {x v}, s.faces x = some v → x ≠ object := by
    rintro x v hx rfl
    rw [hnew.faces] at hx
    cases hx
  have hnot : s'.table.isFailed object = false := by rw [hkept, hnew.isFailed]
  have hlive : ∀ {c' r' x v}, s'.Live c' r' x v ↔
      s.Live c' r' x v ∨ x = object ∧ v = u ∧ c' = c ∧ r' = r := by
    intro c' r' x v
    constructor
    · rintro ⟨hx, hv, hc', hr', hno⟩
      by_cases hxo : x = object
      · subst hxo
        cases hself.symm.trans hx
        exact Or.inr ⟨rfl, rfl, hc'.symm.trans hc, hr'.symm.trans hr⟩
      · exact Or.inl ⟨(hface x hxo) ▸ hx, hv, hc', hr', hkept ▸ hno⟩
    · rintro (⟨hx, hv, hc', hr', hno⟩ | ⟨rfl, rfl, rfl, rfl⟩)
      · exact ⟨(hface x (hne hx)).trans hx, hv, hc', hr', hkept.symm ▸ hno⟩
      · exact ⟨hself, hu, hc, hr, hnot⟩
  refine ⟨hsound, ?_, ?_, ?_, ?_, ?_⟩
  · intro c' r' x
    rw [hmap, setChannelFace_apply]
    simp only [hlive, exists_or]
    split
    · rename_i hkey
      obtain ⟨rfl, rfl⟩ := hkey
      constructor
      · intro heq
        exact Or.inr ⟨u, (Option.some.inj heq).symm, rfl, rfl, rfl⟩
      · rintro (hold | ⟨v, rfl, -⟩)
        · rw [← h.mapped, hfree] at hold
          cases hold
        · rfl
    · rename_i hkey
      rw [h.mapped]
      exact ⟨Or.inl, fun hor => hor.elim id fun ⟨v, _, _, hc', hr'⟩ => absurd ⟨hc', hr'⟩ hkey⟩
  · intro x v hx
    by_cases hxo : x = object
    · subst hxo
      cases hself.symm.trans hx
      exact ⟨fun _ => hnot, fun _ => hopen⟩
    · rw [hkept]
      exact h.isOpen ((hface x hxo) ▸ hx)
  · intro c' r' x v hl
    rcases hlive.mp hl with hold | ⟨rfl, -, -, -⟩
    · have hxo := hne hold.face
      rw [honly.getId x hxo, honly.onFail x hxo]
      exact h.added hold
    · exact ⟨hid, hone⟩
  · intro x v hx hv hfailed id
    have hxo : x ≠ object := by
      rintro rfl
      rw [hnot] at hfailed
      cases hfailed
    rw [Ne, honly.faces id x hxo]
    exact h.removed ((hface x hxo) ▸ hx) hv (hkept ▸ hfailed) id
  · intro x v hx hv
    have hxo : x ≠ object := by
      rintro rfl
      cases hself.symm.trans hx
      rw [hu] at hv
      cases hv
    rw [honly.onFail x hxo]
    exact h.multicast ((hface x hxo) ▸ hx) hv

/-- A multicast face is created. -/
theorem Registered.of_createMulticast (h : s.Registered) (hnew : s.IsNew object) (hu : u.isMultiAccess = true)
    (hopen : u.isOpen = true) (htable : s'.table = s.table) (hfaces : s'.faces = (s.setFace object u).faces)
    (hmap : s'.channelFaces = s.channelFaces) : s'.Registered := by
  have hself : s'.faces object = some u := by rw [hfaces, setFace_self]
  have hface : ∀ x, x ≠ object → s'.faces x = s.faces x := fun x hx => by rw [hfaces, setFace_of_ne _ hx]
  have hlive : ∀ {c r x v}, s'.Live c r x v ↔ s.Live c r x v := by
    intro c r x v
    constructor
    · rintro ⟨hx, hv, hc, hr, hno⟩
      have hxo : x ≠ object := by
        rintro rfl
        cases hself.symm.trans hx
        rw [hu] at hv
        cases hv
      exact ⟨(hface x hxo) ▸ hx, hv, hc, hr, htable ▸ hno⟩
    · rintro ⟨hx, hv, hc, hr, hno⟩
      have hxo : x ≠ object := by
        rintro rfl
        rw [hnew.faces] at hx
        cases hx
      exact ⟨(hface x hxo).trans hx, hv, hc, hr, htable.symm ▸ hno⟩
  refine ⟨htable.symm ▸ h.sound, ?_, ?_, ?_, ?_, ?_⟩
  · intro c r x
    rw [hmap, h.mapped]
    simp only [hlive]
  · intro x v hx
    rw [htable]
    by_cases hxo : x = object
    · subst hxo
      cases hself.symm.trans hx
      exact ⟨fun _ => hnew.isFailed, fun _ => hopen⟩
    · exact h.isOpen ((hface x hxo) ▸ hx)
  · intro c r x v hl
    rw [htable]
    exact h.added (hlive.mp hl)
  · intro x v hx hv hfailed
    rw [htable] at hfailed ⊢
    by_cases hxo : x = object
    · subst hxo
      rw [hnew.isFailed] at hfailed
      cases hfailed
    · exact h.removed ((hface x hxo) ▸ hx) hv hfailed
  · intro x v hx hv
    rw [htable]
    by_cases hxo : x = object
    · subst hxo
      exact hnew.onFail
    · exact h.multicast ((hface x hxo) ▸ hx) hv

/-- The table changes in what concerns a face that is none of UDP. -/
theorem Registered.of_other (h : s.Registered) {table : FaceTable} (hsound : table.Sound) (hnone : s.faces f = none)
    (honly : ChangesOnly f s.table table) : ({ s with table } : UdpSystem).Registered := by
  have hne : ∀ {x v}, s.faces x = some v → x ≠ f := by
    rintro x v hx rfl
    rw [hnone] at hx
    cases hx
  have hlive : ∀ {c r x v}, ({ s with table } : UdpSystem).Live c r x v ↔ s.Live c r x v := by
    intro c r x v
    constructor
    · rintro ⟨hx, hv, hc, hr, hno⟩
      exact ⟨hx, hv, hc, hr, (honly.isFailed x (hne hx)).symm.trans hno⟩
    · rintro ⟨hx, hv, hc, hr, hno⟩
      exact ⟨hx, hv, hc, hr, (honly.isFailed x (hne hx)).trans hno⟩
  refine ⟨hsound, ?_, ?_, ?_, ?_, ?_⟩
  · intro c r x
    simp only [hlive]
    exact h.mapped
  · intro x v hx
    show _ ↔ table.isFailed x = false
    rw [honly.isFailed x (hne hx)]
    exact h.isOpen hx
  · intro c r x v hl
    have hold := hlive.mp hl
    show FaceTable.reservedMax < table.getId x ∧ table.onFail x = 1
    rw [honly.getId x (hne hold.face), honly.onFail x (hne hold.face)]
    exact h.added hold
  · intro x v hx hv hfailed id
    show table.faces id ≠ some x
    rw [Ne, honly.faces id x (hne hx)]
    exact h.removed hx hv ((honly.isFailed x (hne hx)).symm.trans hfailed) id
  · intro x v hx hv
    show table.onFail x = 0
    rw [honly.onFail x (hne hx)]
    exact h.multicast hx hv

/-- A face that a channel has is in the table already. -/
theorem Registered.onFaceCreated_self (h : s.Registered) (hlive : s.Live c r f u) : s.onFaceCreated f = some s := by
  obtain ⟨hid, hone⟩ := h.added hlive
  have hface : s.table.faces (s.table.getId f) = some f := by
    rcases h.sound.connected f with hzero | ⟨-, hface⟩
    · rw [hzero] at hone
      cases hone
    · exact hface
  have hvalid : s.table.getId f ≠ FaceTable.invalidFaceId := by
    rintro hbad
    rw [hbad] at hid
    exact absurd hid (by decide)
  have hexisting : s.table.isExisting f = true := by simp [FaceTable.isExisting, hvalid, hface]
  rw [UdpSystem.onFaceCreated, FaceTable.add, if_pos hexisting]
  rfl

/-! ### The steps -/

theorem newFace_fields (s : UdpSystem) (c : Endpoint) (idleTimeout : Nat) (r : Endpoint) (persistency : FacePersistency)
    (uninitialized : Bool) :
    (s.newFace c idleTimeout r persistency uninitialized).isMultiAccess = false ∧
      (s.newFace c idleTimeout r persistency uninitialized).localEndpoint = c ∧
      (s.newFace c idleTimeout r persistency uninitialized).remoteEndpoint = r ∧
      (s.newFace c idleTimeout r persistency uninitialized).isOpen = true ∧
      (s.newFace c idleTimeout r persistency uninitialized).persistency = persistency := by
  unfold newFace
  dsimp only
  split <;> exact ⟨rfl, rfl, rfl, rfl, rfl⟩

/-- The channel has a face for the endpoint, whose persistency may be raised, or creates one. -/
theorem channelCreateFace_cases {idleTimeout : Nat} {persistency : FacePersistency} {uninitialized : Bool}
    {created : Bool} (h : s.channelCreateFace c idleTimeout r persistency object uninitialized =
      some (s', created, f)) :
    (created = false ∧ s.channelFaces c r = some f ∧ ∃ u, s.faces f = some u ∧
      (s' = s ∨ isTransitionAllowed u.persistency persistency = true ∧ s' = s.setFace f { u with persistency })) ∨
    (created = true ∧ f = object ∧ s.IsNew object ∧ s.channelFaces c r = none ∧
      s' = (s.setFace object (s.newFace c idleTimeout r persistency uninitialized)).setChannelFace c r
        (some object)) := by
  unfold channelCreateFace at h
  cases hmap : s.channelFaces c r with
  | some face =>
      rw [hmap] at h
      obtain ⟨u, hu, heq⟩ := Option.map_eq_some_iff.mp h
      cases heq
      refine Or.inl ⟨rfl, rfl, u, hu, ?_⟩
      split
      · exact Or.inr ⟨‹_›, rfl⟩
      · exact Or.inl rfl
  | none =>
      rw [hmap] at h
      dsimp only at h
      split at h
      · rename_i hnew
        cases h
        exact Or.inr ⟨rfl, rfl, isNew_iff.mp hnew, rfl, rfl⟩
      · cases h

/-- What `createFace` of a channel and the callback for a face that was created do. -/
inductive Connects (s : UdpSystem) (c r : Endpoint) (idleTimeout : Nat) (persistency : FacePersistency) (f : Face) :
    UdpSystem → Prop where
  | kept (u : UdpFace) : s.Live c r f u → Connects s c r idleTimeout persistency f s
  | raised (u : UdpFace) : s.Live c r f u → isTransitionAllowed u.persistency persistency = true →
      Connects s c r idleTimeout persistency f (s.setFace f { u with persistency })
  | created (uninitialized : Bool) (table : FaceTable) : s.IsNew f → s.channelFaces c r = none →
      s.table.add f = some table → Connects s c r idleTimeout persistency f
        { (s.setFace f (s.newFace c idleTimeout r persistency uninitialized)).setChannelFace c r (some f) with table }

theorem Registered.live_of_map (h : s.Registered) (hmap : s.channelFaces c r = some f) (hf : s.faces f = some u) :
    s.Live c r f u := by
  obtain ⟨v, hv⟩ := h.mapped.mp hmap
  cases hf.symm.trans hv.face
  exact hv

theorem Registered.connects (h : s.Registered) {idleTimeout : Nat} {persistency : FacePersistency}
    {uninitialized created : Bool} {s₁ : UdpSystem}
    (hcreate : s.channelCreateFace c idleTimeout r persistency object uninitialized = some (s₁, created, f))
    (hadd : (if created then s₁.onFaceCreated f else some s₁) = some s') :
    Connects s c r idleTimeout persistency f s' := by
  rcases channelCreateFace_cases hcreate with ⟨rfl, hmap, u, hu, hcases⟩ | ⟨rfl, rfl, hnew, hfree, rfl⟩
  · have hlive := h.live_of_map hmap hu
    simp only [Bool.false_eq_true, if_false, Option.some.injEq] at hadd
    subst hadd
    rcases hcases with rfl | ⟨hallowed, rfl⟩
    · exact .kept u hlive
    · exact .raised u hlive hallowed
  · rw [if_pos rfl] at hadd
    obtain ⟨table, htable, rfl⟩ := Option.map_eq_some_iff.mp hadd
    exact .created uninitialized table hnew hfree htable

theorem Connects.registered {idleTimeout : Nat} {persistency : FacePersistency}
    (hc : Connects s c r idleTimeout persistency f s') (h : s.Registered) : s'.Registered ∧ ∃ u, s'.Live c r f u := by
  cases hc with
  | kept u hlive => exact ⟨h, u, hlive⟩
  | raised u hlive =>
      exact ⟨h.touch hlive.face ⟨rfl, rfl, rfl, rfl⟩, _, setFace_self s f _, hlive.isUnicast, hlive.localEndpoint,
        hlive.remoteEndpoint, hlive.isFailed⟩
  | created uninitialized table hnew hfree hadd =>
      obtain ⟨hu, hc, hr, hopen, -⟩ := newFace_fields s c idleTimeout r persistency uninitialized
      refine ⟨h.of_create hnew hfree hu hc hr hopen hadd rfl rfl, _, setFace_self s f _, hu, hc, hr, ?_⟩
      exact (congrFun (h.sound.add_new hnew.getId hnew.notHeld hadd).2.2.2 f).trans hnew.isFailed

theorem Registered.connect (h : s.Registered) {idleTimeout : Nat} {persistency : FacePersistency} {uninitialized : Bool}
    (hconnect : s.connect c idleTimeout r persistency object uninitialized = some s') :
    ∃ f, Connects s c r idleTimeout persistency f s' := by
  obtain ⟨⟨s₁, created, f⟩, hcreate, hadd⟩ := Option.bind_eq_some_iff.mp hconnect
  refine ⟨f, h.connects hcreate ?_⟩
  dsimp only at hadd
  split
  · exact hadd
  · rename_i hold
    obtain rfl : created = false := by simpa using hold
    have hkept := h.connects hcreate rfl
    obtain ⟨hreg, u, hlive⟩ := hkept.registered h
    rw [← hadd, hreg.onFaceCreated_self hlive]

theorem Registered.handleNewPeer (h : s.Registered) {idleTimeout : Nat} {isPacket : List UInt8 → Bool}
    {buffer : List UInt8} {uninitialized : Bool}
    (hnew : UdpSystem.handleNewPeer isPacket s c idleTimeout r buffer object uninitialized = some s') :
    ∃ f s₁ u, Connects s c r idleTimeout .onDemand f s₁ ∧ s₁.faces f = some u ∧
      s' = UdpSystem.receiveDatagram isPacket s₁ f u (.ok buffer) := by
  obtain ⟨⟨s₁, created, f⟩, hcreate, hrest⟩ := Option.bind_eq_some_iff.mp hnew
  obtain ⟨s₂, hadd, hmap⟩ := Option.bind_eq_some_iff.mp hrest
  obtain ⟨u, hu, rfl⟩ := Option.map_eq_some_iff.mp hmap
  exact ⟨f, s₂, u, h.connects hcreate hadd, hu, rfl⟩

/-- What `createFace` of the factory does if it connects. -/
theorem createFace_cases {persistency : FacePersistency} {uninitialized socketFails : Bool}
    (hcreate : s.createFace r persistency object uninitialized socketFails = some s') :
    s' = s ∨ persistency ≠ .onDemand ∧ r.isMulticast = false ∧ r ∉ s.prohibitedEndpoints ∧
      ∃ channel ∈ s.channels, s.connect channel.1 channel.2 r persistency object uninitialized = some s' := by
  unfold createFace at hcreate
  split at hcreate
  · exact Or.inl (Option.some.inj hcreate).symm
  · split at hcreate
    · exact Or.inl (Option.some.inj hcreate).symm
    · split at hcreate
      · exact Or.inl (Option.some.inj hcreate).symm
      · split at hcreate
        · exact Or.inl (Option.some.inj hcreate).symm
        · rename_i hpersistency hmulticast hprohibited _ channel hfind
          split at hcreate
          · exact Or.inl (Option.some.inj hcreate).symm
          · exact Or.inr ⟨hpersistency, by simpa using hmulticast, hprohibited, channel,
              List.mem_of_find?_eq_some hfind, hcreate⟩

/-- What `createMulticastFace` does if it creates a face. -/
theorem createMulticastFace_cases {localEndpoint multicastEndpoint : Endpoint} {uninitialized socketFails : Bool}
    (hcreate : s.createMulticastFace localEndpoint multicastEndpoint object uninitialized socketFails = some s') :
    s' = s ∨ s.multicastFaces localEndpoint = none ∧ s.findChannel localEndpoint = none ∧
      multicastEndpoint ∉ s.prohibitedEndpoints ∧ multicastEndpoint.isMulticast = true ∧ s.IsNew object ∧
      ∃ u : UdpFace, u.isMultiAccess = true ∧ u.isOpen = true ∧ u.localEndpoint = localEndpoint ∧
        u.remoteEndpoint = multicastEndpoint ∧ u.persistency = .persistent ∧
        s' = { s.setFace object u with
          multicastFaces := Function.update s.multicastFaces localEndpoint (some object) } := by
  unfold createMulticastFace at hcreate
  repeat' split at hcreate
  all_goals first
    | exact Or.inl (Option.some.inj hcreate).symm
    | cases hcreate
  rename_i hface hchannel hprohibited _ _ hgroup _ hnew
  refine Or.inr ⟨?_, ?_, hprohibited, by simpa using hgroup, isNew_iff.mp hnew, _, rfl, rfl, rfl, rfl, rfl, rfl⟩
  · simpa using hface
  · simpa using hchannel

theorem createChannel_same (s : UdpSystem) (endpoint : Endpoint) (idleTimeout : Nat)
    (nics : List NetworkInterfaceInfo) : (s.createChannel endpoint idleTimeout nics).table = s.table ∧
      (s.createChannel endpoint idleTimeout nics).faces = s.faces ∧
      (s.createChannel endpoint idleTimeout nics).channelFaces = s.channelFaces ∧
      (s.createChannel endpoint idleTimeout nics).now = s.now := by
  unfold createChannel prohibitEndpoint
  repeat' split
  all_goals exact ⟨rfl, rfl, rfl, rfl⟩

theorem destroyFace_cases (s : UdpSystem) (faceId : FaceTable.FaceId) :
    s.destroyFace faceId = s ∨ ∃ face u, s.table.faces faceId = some face ∧ s.faces face = some u ∧
      s.destroyFace faceId = s.close face u := by
  unfold destroyFace
  split
  · exact Or.inl rfl
  · split
    · exact Or.inl rfl
    · exact Or.inr ⟨_, _, ‹_›, ‹_›, rfl⟩

theorem Registered.step (h : s.Registered) {isPacket : List UInt8 → Bool} {event : Event}
    (hstep : step isPacket s event = some s') : s'.Registered := by
  cases event with
  | createChannel endpoint idleTimeout nics =>
      cases hstep
      obtain ⟨htable, hfaces, hmap, -⟩ := createChannel_same s endpoint idleTimeout nics
      exact h.congr htable hfaces hmap
  | createMulticastFace localEndpoint multicastEndpoint object uninitialized socketFails =>
      rcases createMulticastFace_cases hstep with rfl | ⟨-, -, -, -, hnew, u, hu, hopen, -, -, -, rfl⟩
      · exact h
      · exact h.of_createMulticast hnew hu hopen rfl rfl rfl
  | createFace remoteEndpoint persistency object uninitialized socketFails =>
      rcases createFace_cases hstep with rfl | ⟨-, -, -, channel, -, hconnect⟩
      · exact h
      · obtain ⟨f, hconnects⟩ := h.connect hconnect
        exact (hconnects.registered h).1
  | newPeer localEndpoint remoteEndpoint buffer object uninitialized =>
      obtain ⟨channel, -, hnew⟩ := Option.bind_eq_some_iff.mp hstep
      obtain ⟨f, s₁, u, hconnects, hu, rfl⟩ := h.handleNewPeer hnew
      exact (hconnects.registered h).1.receiveDatagram hu isPacket _
  | receive face input =>
      obtain ⟨u, hu, rfl⟩ := Option.map_eq_some_iff.mp hstep
      exact h.receiveDatagram hu isPacket input
  | sendError face error =>
      obtain ⟨u, hu, rfl⟩ := Option.map_eq_some_iff.mp hstep
      exact h.processErrorCode hu error
  | closeIfIdle face =>
      obtain ⟨u, hu, hrest⟩ := Option.bind_eq_some_iff.mp hstep
      split at hrest
      · cases hrest
        exact h.closeIfIdle hu
      · cases hrest
  | destroyFace faceId =>
      cases hstep
      rcases destroyFace_cases s faceId with heq | ⟨face, u, -, hu, heq⟩
      · rwa [heq]
      · rw [heq]
        exact h.close hu
  | addOther face =>
      simp only [UdpSystem.step] at hstep
      split at hstep
      · rename_i hcond
        simp only [Bool.and_eq_true, Option.isNone_iff_eq_none, bne_iff_ne] at hcond
        obtain ⟨table, hadd, rfl⟩ := Option.map_eq_some_iff.mp hstep
        exact h.of_other (h.sound.add_sound hcond.2 hadd) hcond.1 (h.sound.add_changesOnly hadd)
      · cases hstep
  | failOther face =>
      simp only [UdpSystem.step] at hstep
      split at hstep
      · rename_i hnone
        cases hstep
        exact h.of_other (h.sound.fail face) (by simpa using hnone) (h.sound.fail_changesOnly face)
      · cases hstep
  | advanceClock duration =>
      cases hstep
      exact h.congr rfl rfl rfl

theorem registered_of_reach {table : FaceTable} (htable : table.Sound) {isPacket : List UInt8 → Bool}
    {ok : UdpSystem → Event → Prop} (hr : Reach (step isPacket) ok (new table) s) : s.Registered :=
  hr.invariant (new_registered htable) fun _ _ _ h _ hstep => h.step hstep

/-- The unicast faces that have not failed are those of the table. -/
theorem Registered.isFailed_iff (h : s.Registered) (hf : s.faces f = some u) (hu : u.isMultiAccess = false) :
    s.table.isFailed f = false ↔ ∃ id, s.table.faces id = some f := by
  constructor
  · intro hnot
    have hone := (h.added ⟨hf, hu, rfl, rfl, hnot⟩).2
    rcases h.sound.connected f with hzero | ⟨-, hface⟩
    · rw [hzero] at hone
      cases hone
    · exact ⟨_, hface⟩
  · rintro ⟨id, hid⟩
    by_contra hfailed
    exact h.removed hf hu (by simpa using hfailed) id hid

theorem Registered.isOpen_iff (h : s.Registered) (hf : s.faces f = some u) (hu : u.isMultiAccess = false) :
    u.isOpen = true ↔ ∃ id, s.table.faces id = some f :=
  (h.isOpen hf).trans (h.isFailed_iff hf hu)

/-- At any time the channels have exactly those of their faces that are in the face table, each under its remote
endpoint, and these are open; so no two faces of the table have the same endpoints. -/
theorem udp_faces_registered {table : FaceTable} (htable : table.Sound) (isPacket : List UInt8 → Bool)
    (hr : Reach (step isPacket) anyStep (new table) s) :
    (∀ c r f, s.channelFaces c r = some f ↔ ∃ u, s.faces f = some u ∧ u.isMultiAccess = false ∧
      u.localEndpoint = c ∧ u.remoteEndpoint = r ∧ ∃ id, s.table.faces id = some f) ∧
    (∀ f u, s.faces f = some u → u.isMultiAccess = false →
      (u.isOpen = true ↔ ∃ id, s.table.faces id = some f)) ∧
    ∀ f f' u u' id id', s.faces f = some u → s.faces f' = some u' → u.isMultiAccess = false →
      u'.isMultiAccess = false → s.table.faces id = some f → s.table.faces id' = some f' →
      u.localEndpoint = u'.localEndpoint → u.remoteEndpoint = u'.remoteEndpoint → f = f' := by
  have h := registered_of_reach htable hr
  have hmapped : ∀ {c r f}, s.channelFaces c r = some f ↔ ∃ u, s.faces f = some u ∧ u.isMultiAccess = false ∧
      u.localEndpoint = c ∧ u.remoteEndpoint = r ∧ ∃ id, s.table.faces id = some f := by
    intro c r f
    rw [h.mapped]
    constructor
    · rintro ⟨u, hf, hu, hc, hr, hnot⟩
      exact ⟨u, hf, hu, hc, hr, (h.isFailed_iff hf hu).mp hnot⟩
    · rintro ⟨u, hf, hu, hc, hr, hid⟩
      exact ⟨u, hf, hu, hc, hr, (h.isFailed_iff hf hu).mpr hid⟩
  refine ⟨fun c r f => hmapped, fun f u hf hu => h.isOpen_iff hf hu, ?_⟩
  intro f f' u u' id id' hf hf' hu hu' hid hid' hlocal hremote
  have hown := hmapped.mpr ⟨u, hf, hu, hlocal, hremote, id, hid⟩
  have hother := hmapped.mpr ⟨u', hf', hu', rfl, rfl, id', hid'⟩
  exact Option.some.inj (hown.symm.trans hother)

def localhost : Endpoint := ⟨.v4 #v[127, 0, 0, 1], 6363⟩
def peer : Endpoint := ⟨.v4 #v[192, 0, 2, 1], 6363⟩

/-- A datagram from a peer creates a face, which is then destroyed and created again. -/
def peerEvents : List Event :=
  [.createChannel localhost 600 [], .newPeer localhost peer [5, 0] 1 false, .newPeer localhost peer [5, 0] 2 false,
    .destroyFace 256, .newPeer localhost peer [5, 0] 2 false]

theorem udp_faces_registered_peer :
    ∃ s id, exec (step fun buffer => buffer.length == 2) (new FaceTable.empty) peerEvents = some s ∧
      s.channelFaces localhost peer = some 2 ∧ s.table.faces id = some 2 ∧ ∀ id, s.table.faces id ≠ some 1 := by
  have hrun : (exec (step fun buffer => buffer.length == 2) (new FaceTable.empty) peerEvents).map
      (fun s => (s.channelFaces localhost peer, (s.faces 1).map fun u => (u.isMultiAccess, u.isOpen))) =
      some (some 2, some (false, false)) := by
    decide +kernel
  obtain ⟨s, hs, heq⟩ := Option.map_eq_some_iff.mp hrun
  obtain ⟨hmap, hface⟩ := Prod.mk.inj heq
  obtain ⟨u, hu, hfields⟩ := Option.map_eq_some_iff.mp hface
  obtain ⟨hunicast, hclosed⟩ := Prod.mk.inj hfields
  obtain ⟨hmapped, hopen, -⟩ := udp_faces_registered FaceTable.empty_sound _ (reach_of_exec Reach.start hs)
  obtain ⟨v, -, -, -, -, id, hid⟩ := (hmapped localhost peer 2).mp hmap
  refine ⟨s, id, hs, hmap, hid, fun id' hid' => ?_⟩
  rw [(hopen 1 u hu hunicast).mpr ⟨id', hid'⟩] at hclosed
  cases hclosed

end UdpSystem
end NfdPitless
