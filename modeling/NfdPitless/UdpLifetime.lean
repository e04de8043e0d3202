import NfdPitless.UdpFaces

/-! The life of a UDP face: a permanent one stays until it is destroyed, and an on-demand one is closed for
inactivity when its status says. -/

namespace NfdPitless
def FacePersistency.rank : FacePersistency → Nat
  | .onDemand => 0
  | .persistent => 1
  | .permanent => 2

namespace UdpSystem

variable {s s' : UdpSystem} {f x object : Face} {u u' v : UdpFace} {c r : Endpoint}

/-- The face takes in a packet. -/
def Accepts (isPacket : List UInt8 → Bool) (s : UdpSystem) (f : Face) : Event → Prop
  | .receive face (.ok buffer) => face = f ∧ isPacket buffer = true
  | .newPeer localEndpoint remoteEndpoint buffer _ _ =>
      s.channelFaces localEndpoint remoteEndpoint = some f ∧ isPacket buffer = true
  | _ => False

/-- The socket of the face has an error. -/
def Breaks (f : Face) : Event → Prop
  | .receive face (.error error) => face = f ∧ error ≠ .operationAborted
  | .sendError face error => face = f ∧ error ≠ .operationAborted
  | _ => False

/-- The face is destroyed by command. -/
def Destroys (s : UdpSystem) (f : Face) : Event → Prop
  | .destroyFace faceId => s.table.faces faceId = some f
  | _ => False

/-- The face after `closeIfIdle`. -/
def idleChecked (s : UdpSystem) (u : UdpFace) : UdpFace :=
  if u.persistency = .onDemand then
    if u.hasBeenUsedRecently = false then { u with closeIfIdleEvent := none, isOpen := false }
    else
      { u with hasBeenUsedRecently := false, lastIdleCheck := s.now, closeIfIdleEvent := some (s.now + u.timeout) }
  else { u with closeIfIdleEvent := none }

/-- What a step can do to a face. -/
inductive Changes (isPacket : List UInt8 → Bool) (s : UdpSystem) (f : Face) (u : UdpFace) : Event → UdpFace → Prop where
  | kept (event : Event) : ¬ Accepts isPacket s f event → (∀ face, event = .closeIfIdle face → face ≠ f) →
      Changes isPacket s f u event u
  | raised (event : Event) (persistency : FacePersistency) : ¬ Accepts isPacket s f event →
      isTransitionAllowed u.persistency persistency = true → persistency ≠ .onDemand →
      (∀ face, event ≠ .closeIfIdle face) → (∀ duration, event ≠ .advanceClock duration) →
      Changes isPacket s f u event { u with persistency }
  | used (event : Event) : Accepts isPacket s f event → Changes isPacket s f u event
      { u with hasBeenUsedRecently := true }
  | broken (event : Event) : Breaks f event → u.persistency ≠ .permanent →
      Changes isPacket s f u event { u with isOpen := false }
  | destroyed (event : Event) : Destroys s f event → Changes isPacket s f u event { u with isOpen := false }
  | idle : u.closeIfIdleEvent.any (· ≤ s.now) = true → Changes isPacket s f u (.closeIfIdle f) (idleChecked s u)

theorem fail_faces (s : UdpSystem) (x : Face) (v : UdpFace) : (s.fail x v).faces = s.faces := by
  unfold fail setChannelFace
  dsimp only
  repeat' split
  all_goals rfl

theorem close_faces (s : UdpSystem) (x : Face) (v : UdpFace) :
    (s.close x v).faces = if v.isOpen = true then (s.closeSocket x v).faces else s.faces := by
  unfold close
  split
  · rw [fail_faces]
  · rfl

/-- Only the face that has the error changes. -/
theorem processErrorCode_face (hx : s.faces x = some v) (hf : s.faces f = some u) (error : SocketError) :
    (s.processErrorCode x v error).faces f = some u ∨
      x = f ∧ error ≠ .operationAborted ∧ u.persistency ≠ .permanent ∧
        (s.processErrorCode x v error).faces f = some { u with isOpen := false } := by
  unfold processErrorCode
  split
  · exact Or.inl hf
  · split
    · exact Or.inl hf
    · split
      · rw [fail_faces]
        exact Or.inl hf
      · rename_i herror hpersistency _
        rw [fail_faces, closeSocket]
        by_cases hxf : x = f
        · subst hxf
          cases hx.symm.trans hf
          exact Or.inr ⟨rfl, herror, hpersistency, setFace_self s _ _⟩
        · exact Or.inl ((setFace_of_ne _ (Ne.symm hxf)).trans hf)

theorem receiveDatagram_face {isPacket : List UInt8 → Bool} (hx : s.faces x = some v) (hf : s.faces f = some u)
    (buffer : List UInt8) :
    (receiveDatagram isPacket s x v (.ok buffer)).faces f =
      some (if x = f ∧ isPacket buffer = true then { u with hasBeenUsedRecently := true } else u) := by
  unfold receiveDatagram
  by_cases hpacket : isPacket buffer = true
  · simp only [hpacket, and_true, if_true]
    by_cases hxf : x = f
    · subst hxf
      cases hx.symm.trans hf
      rw [if_pos rfl]
      exact setFace_self s _ _
    · rw [if_neg hxf]
      exact (setFace_of_ne _ (Ne.symm hxf)).trans hf
  · dsimp only
    rw [if_neg hpacket, if_neg fun hboth => hpacket hboth.2]
    exact hf

theorem isTransitionAllowed_onDemand (persistency : FacePersistency) :
    isTransitionAllowed persistency .onDemand = false := by
  cases persistency <;> rfl

/-- The face for which a channel is asked may be `f`. -/
theorem Connects.face {idleTimeout : Nat} {persistency : FacePersistency}
    (hc : Connects s c r idleTimeout persistency x s') (hf : s.faces f = some u) :
    s'.faces f = some u ∨ x = f ∧ isTransitionAllowed u.persistency persistency = true ∧
      s'.faces f = some { u with persistency } := by
  cases hc with
  | kept v hlive => exact Or.inl hf
  | raised v hlive hallowed =>
      by_cases hxf : x = f
      · subst hxf
        cases hlive.face.symm.trans hf
        exact Or.inr ⟨rfl, hallowed, setFace_self s _ _⟩
      · exact Or.inl ((setFace_of_ne _ (Ne.symm hxf)).trans hf)
  | created uninitialized table hnew hfree hadd =>
      have hxf : f ≠ x := by
        rintro rfl
        rw [hnew.faces] at hf
        cases hf
      exact Or.inl ((setFace_of_ne _ hxf).trans hf)

theorem closeIfIdle_face (hx : s.faces x = some v) (hf : s.faces f = some u) :
    (s.closeIfIdle x v).faces f = some (if x = f then s.idleChecked u else u) := by
  have hother : x ≠ f → ∀ w, (s.setFace x w).faces f = some u := fun hxf w =>
    (setFace_of_ne w (Ne.symm hxf)).trans hf
  unfold closeIfIdle idleChecked
  dsimp only
  by_cases hxf : x = f
  · subst hxf
    cases hx.symm.trans hf
    rw [if_pos rfl]
    split
    · split
      · rw [close_faces]
        split
        · exact setFace_self _ _ _
        · rename_i hclosed
          have hclosed : u.isOpen = false := by simpa using hclosed
          rw [setFace_self]
          simp [hclosed]
      · exact setFace_self _ _ _
    · exact setFace_self _ _ _
  · rw [if_neg hxf]
    split
    · split
      · rw [close_faces]
        split
        · exact (setFace_of_ne _ (Ne.symm hxf)).trans (hother hxf _)
        · exact hother hxf _
      · exact (setFace_of_ne _ (Ne.symm hxf)).trans (hother hxf _)
    · exact hother hxf _

theorem Registered.step_face (h : s.Registered) {isPacket : List UInt8 → Bool} {event : Event}
    (hstep : UdpSystem.step isPacket s event = some s') (hf : s.faces f = some u) :
    ∃ u', s'.faces f = some u' ∧ Changes isPacket s f u event u' := by
  have hsame : ∀ {event}, s'.faces f = some u → ¬ Accepts isPacket s f event →
      (∀ face, event ≠ .closeIfIdle face) → ∃ u', s'.faces f = some u' ∧ Changes isPacket s f u event u' :=
    fun hkept hno htimer => ⟨u, hkept, .kept _ hno fun face heq => absurd heq (htimer face)⟩
  have hnew : ∀ {object}, s.IsNew object → ∀ w, (s.setFace object w).faces f = some u := by
    intro object hnew w
    refine (setFace_of_ne w ?_).trans hf
    rintro rfl
    rw [hnew.faces] at hf
    cases hf
  cases event with
  | createChannel endpoint idleTimeout nics =>
      cases hstep
      refine hsame ?_ (fun hbad => hbad) (by simp)
      rw [(createChannel_same s endpoint idleTimeout nics).2.1]
      exact hf
  | createMulticastFace localEndpoint multicastEndpoint object uninitialized socketFails =>
      rcases createMulticastFace_cases hstep with rfl | ⟨-, -, -, -, hisNew, w, -, -, -, -, -, rfl⟩
      · exact hsame hf (fun hbad => hbad) (by simp)
      · exact hsame (hnew hisNew w) (fun hbad => hbad) (by simp)
  | createFace remoteEndpoint persistency object uninitialized socketFails =>
      rcases createFace_cases hstep with rfl | ⟨hpersistency, -, -, channel, -, hconnect⟩
      · exact hsame hf (fun hbad => hbad) (by simp)
      · obtain ⟨x, hconnects⟩ := h.connect hconnect
        rcases hconnects.face hf with hkept | ⟨-, hallowed, hraised⟩
        · exact hsame hkept (fun hbad => hbad) (by simp)
        · exact ⟨_, hraised, .raised _ persistency (fun hbad => hbad) hallowed hpersistency (by simp) (by simp)⟩
  | newPeer localEndpoint remoteEndpoint buffer object uninitialized =>
      obtain ⟨channel, hchannel, hpeer⟩ := Option.bind_eq_some_iff.mp hstep
      obtain rfl : channel.1 = localEndpoint := by simpa using List.find?_some hchannel
      obtain ⟨x, s₁, v, hconnects, hv, rfl⟩ := h.handleNewPeer hpeer
      have hkept : s₁.faces f = some u := by
        rcases hconnects.face hf with hkept | ⟨-, hallowed, -⟩
        · exact hkept
        · rw [isTransitionAllowed_onDemand] at hallowed
          cases hallowed
      have hmap : s.channelFaces channel.1 remoteEndpoint = some f ↔ x = f := by
        cases hconnects with
        | kept w hlive | raised w hlive _ =>
            rw [h.mapped.mpr ⟨w, hlive⟩]
            exact Option.some_inj
        | created uninitialized table hisNew hfree hadd =>
            rw [hfree]
            refine ⟨fun hbad => (by cases hbad), ?_⟩
            rintro rfl
            rw [hisNew.faces] at hf
            cases hf
      rw [receiveDatagram_face hv hkept]
      split
      · rename_i htaken
        exact ⟨_, rfl, .used _ ⟨hmap.mpr htaken.1, htaken.2⟩⟩
      · rename_i htaken
        exact ⟨_, rfl, .kept _ (fun hbad => htaken ⟨hmap.mp hbad.1, hbad.2⟩) (by simp)⟩
  | receive face input =>
      obtain ⟨v, hv, rfl⟩ := Option.map_eq_some_iff.mp hstep
      cases input with
      | error error =>
          rcases processErrorCode_face hv hf error with hkept | ⟨hface, herror, hpersistency, hclosed⟩
          · exact hsame hkept (fun hbad => hbad) (by simp)
          · exact ⟨_, hclosed, .broken _ ⟨hface, herror⟩ hpersistency⟩
      | ok buffer =>
          rw [receiveDatagram_face hv hf]
          split
          · rename_i htaken
            exact ⟨_, rfl, .used _ htaken⟩
          · rename_i htaken
            exact ⟨_, rfl, .kept _ htaken (by simp)⟩
  | sendError face error =>
      obtain ⟨v, hv, rfl⟩ := Option.map_eq_some_iff.mp hstep
      rcases processErrorCode_face hv hf error with hkept | ⟨hface, herror, hpersistency, hclosed⟩
      · exact hsame hkept (fun hbad => hbad) (by simp)
      · exact ⟨_, hclosed, .broken _ ⟨hface, herror⟩ hpersistency⟩
  | closeIfIdle face =>
      obtain ⟨v, hv, hrest⟩ := Option.bind_eq_some_iff.mp hstep
      split at hrest
      · rename_i hdue
        cases hrest
        rw [closeIfIdle_face hv hf]
        split
        · rename_i hface
          subst hface
          cases hv.symm.trans hf
          exact ⟨_, rfl, .idle hdue⟩
        · rename_i hface
          refine ⟨_, rfl, .kept _ (fun hbad => hbad) fun x heq => ?_⟩
          cases heq
          exact hface
      · cases hrest
  | destroyFace faceId =>
      cases hstep
      rcases destroyFace_cases s faceId with heq | ⟨x, v, hget, hx, heq⟩
      · rw [heq]
        exact ⟨u, hf, .kept _ (fun hbad => hbad) (by simp)⟩
      · rw [heq, close_faces]
        split
        · by_cases hxf : x = f
          · subst hxf
            cases hx.symm.trans hf
            exact ⟨_, setFace_self s _ _, .destroyed _ hget⟩
          · exact ⟨u, (setFace_of_ne _ (Ne.symm hxf)).trans hf, .kept _ (fun hbad => hbad) (by simp)⟩
        · exact ⟨u, hf, .kept _ (fun hbad => hbad) (by simp)⟩
  | addOther face =>
      simp only [UdpSystem.step] at hstep
      split at hstep
      · obtain ⟨table, -, rfl⟩ := Option.map_eq_some_iff.mp hstep
        exact hsame hf (fun hbad => hbad) (by simp)
      · cases hstep
  | failOther face =>
      simp only [UdpSystem.step] at hstep
      split at hstep
      · cases hstep
        exact hsame hf (fun hbad => hbad) (by simp)
      · cases hstep
  | advanceClock duration =>
      cases hstep
      exact hsame hf (fun hbad => hbad) (by simp)

/-! ### Persistency -/

/-- What is left of a face after any number of steps. -/
structure Later (u u' : UdpFace) : Prop where
  localEndpoint : u'.localEndpoint = u.localEndpoint
  remoteEndpoint : u'.remoteEndpoint = u.remoteEndpoint
  isMultiAccess : u'.isMultiAccess = u.isMultiAccess
  idleTimeout : u'.idleTimeout = u.idleTimeout
  rank_le : u.persistency.rank ≤ u'.persistency.rank
  isOpen : u.isOpen = false → u'.isOpen = false

theorem isTransitionAllowed_rank {old new : FacePersistency} (h : isTransitionAllowed old new = true) :
    old.rank < new.rank := by
  cases old <;> cases new <;> first | decide | cases h

theorem Later.trans {u₁ u₂ u₃ : UdpFace} (h : Later u₁ u₂) (h' : Later u₂ u₃) : Later u₁ u₃ where
  localEndpoint := h'.localEndpoint.trans h.localEndpoint
  remoteEndpoint := h'.remoteEndpoint.trans h.remoteEndpoint
  isMultiAccess := h'.isMultiAccess.trans h.isMultiAccess
  idleTimeout := h'.idleTimeout.trans h.idleTimeout
  rank_le := h.rank_le.trans h'.rank_le
  isOpen := fun hclosed => h'.isOpen (h.isOpen hclosed)

theorem Changes.later {isPacket : List UInt8 → Bool} {event : Event} (h : Changes isPacket s f u event u') :
    Later u u' := by
  cases h with
  | kept => exact ⟨rfl, rfl, rfl, rfl, le_rfl, id⟩
  | raised _ persistency _ hallowed => exact ⟨rfl, rfl, rfl, rfl, (isTransitionAllowed_rank hallowed).le, id⟩
  | used => exact ⟨rfl, rfl, rfl, rfl, le_rfl, id⟩
  | broken | destroyed => exact ⟨rfl, rfl, rfl, rfl, le_rfl, fun _ => rfl⟩
  | idle =>
      unfold idleChecked
      split
      · split
        · exact ⟨rfl, rfl, rfl, rfl, le_rfl, fun _ => rfl⟩
        · exact ⟨rfl, rfl, rfl, rfl, le_rfl, id⟩
      · exact ⟨rfl, rfl, rfl, rfl, le_rfl, id⟩

theorem Changes.onDemand {isPacket : List UInt8 → Bool} {event : Event} (h : Changes isPacket s f u event u')
    (hpersistency : u'.persistency = .onDemand) : u.persistency = .onDemand := by
  have hrank := h.later.rank_le
  rw [hpersistency] at hrank
  cases hold : u.persistency with
  | onDemand => rfl
  | persistent | permanent =>
      rw [hold] at hrank
      exact absurd hrank (by decide)

/-- Only its destruction closes a permanent face. -/
theorem Changes.permanent {isPacket : List UInt8 → Bool} {event : Event} (h : Changes isPacket s f u event u')
    (hdestroy : ¬ Destroys s f event) (hpersistency : u.persistency = .permanent) (hopen : u.isOpen = true) :
    u'.persistency = .permanent ∧ u'.isOpen = true := by
  cases h with
  | kept | used => exact ⟨hpersistency, hopen⟩
  | raised _ persistency _ hallowed =>
      have hrank := isTransitionAllowed_rank hallowed
      rw [hpersistency] at hrank
      cases persistency <;> exact absurd hrank (by decide)
  | broken _ _ hnot => exact absurd hpersistency hnot
  | destroyed _ hdestroys => exact absurd hdestroys hdestroy
  | idle =>
      unfold idleChecked
      rw [if_neg (by simp [hpersistency])]
      exact ⟨hpersistency, hopen⟩

theorem Registered.later (h : s.Registered) {isPacket : List UInt8 → Bool} {ok : UdpSystem → Event → Prop}
    (hr : Reach (UdpSystem.step isPacket) ok s s') (hf : s.faces f = some u) :
    s'.Registered ∧ ∃ u', s'.faces f = some u' ∧ Later u u' := by
  refine hr.invariant (I := fun s' => s'.Registered ∧ ∃ u', s'.faces f = some u' ∧ Later u u')
    ⟨h, u, hf, rfl, rfl, rfl, rfl, le_rfl, id⟩ ?_
  rintro s₁ event s₂ ⟨h₁, u₁, hf₁, hlater⟩ - hstep
  obtain ⟨u₂, hf₂, hchanges⟩ := h₁.step_face hstep hf₁
  exact ⟨h₁.step hstep, u₂, hf₂, hlater.trans hchanges.later⟩

theorem Registered.stays_permanent (h : s.Registered) {isPacket : List UInt8 → Bool}
    (hr : Reach (UdpSystem.step isPacket) (fun s event => ¬ Destroys s f event) s s') (hf : s.faces f = some u)
    (hpersistency : u.persistency = .permanent) (hopen : u.isOpen = true) :
    s'.Registered ∧ ∃ u', s'.faces f = some u' ∧ u'.persistency = .permanent ∧ u'.isOpen = true := by
  refine hr.invariant (I := fun s' => s'.Registered ∧
    ∃ u', s'.faces f = some u' ∧ u'.persistency = .permanent ∧ u'.isOpen = true) ⟨h, u, hf, hpersistency, hopen⟩ ?_
  rintro s₁ event s₂ ⟨h₁, u₁, hf₁, hpermanent, hopen₁⟩ hdestroy hstep
  obtain ⟨u₂, hf₂, hchanges⟩ := h₁.step_face hstep hf₁
  exact ⟨h₁.step hstep, u₂, hf₂, hchanges.permanent hdestroy hpermanent hopen₁⟩

/-- A face keeps its endpoints, its persistency only rises, and once out of the table it never comes back; a
permanent face of a channel stays until it is destroyed by command. -/
theorem udp_persistency_rises {table : FaceTable} (htable : table.Sound) (isPacket : List UInt8 → Bool)
    (hr : Reach (step isPacket) anyStep (new table) s) (hf : s.faces f = some u) :
    (∀ s', Reach (step isPacket) anyStep s s' → ∃ u', s'.faces f = some u' ∧
      u'.localEndpoint = u.localEndpoint ∧ u'.remoteEndpoint = u.remoteEndpoint ∧
      u.persistency.rank ≤ u'.persistency.rank ∧
      (u.isMultiAccess = false → (∀ id, s.table.faces id ≠ some f) → ∀ id, s'.table.faces id ≠ some f)) ∧
    ∀ s' id, Reach (step isPacket) (fun s event => ¬ Destroys s f event) s s' → u.persistency = .permanent →
      u.isMultiAccess = false → s.table.faces id = some f →
      s'.channelFaces u.localEndpoint u.remoteEndpoint = some f ∧ ∃ id', s'.table.faces id' = some f := by
  have h := registered_of_reach htable hr
  constructor
  · intro s' hr'
    obtain ⟨h', u', hf', hlater⟩ := h.later hr' hf
    refine ⟨u', hf', hlater.localEndpoint, hlater.remoteEndpoint, hlater.rank_le, fun hu hout id hid => ?_⟩
    have hclosed : u.isOpen = false := by
      by_contra hopen
      obtain ⟨id₀, hid₀⟩ := (h.isOpen_iff hf hu).mp (by simpa using hopen)
      exact hout id₀ hid₀
    have hopen' := (h'.isOpen_iff hf' (hlater.isMultiAccess.trans hu)).mpr ⟨id, hid⟩
    rw [hlater.isOpen hclosed] at hopen'
    cases hopen'
  · intro s' id hr' hpersistency hu hid
    obtain ⟨h', u', hf', hlater⟩ := h.later hr' hf
    obtain ⟨-, u₁, hf₁, -, hopen₁⟩ := h.stays_permanent hr' hf hpersistency ((h.isOpen_iff hf hu).mpr ⟨id, hid⟩)
    cases hf'.symm.trans hf₁
    have hu' := hlater.isMultiAccess.trans hu
    have hlive : s'.Live u.localEndpoint u.remoteEndpoint f u' :=
      ⟨hf', hu', hlater.localEndpoint, hlater.remoteEndpoint, (h'.isOpen hf').mp hopen₁⟩
    exact ⟨h'.mapped.mpr ⟨u', hlive⟩, (h'.isOpen_iff hf' hu').mp hopen₁⟩

/-- A command raises the face of a peer to a permanent one, and its socket breaks. -/
theorem udp_persistency_rises_peer :
    ∃ s u s', exec (step fun buffer => buffer.length == 2) (new FaceTable.empty)
        [.createChannel localhost 600 [], .newPeer localhost peer [5, 0] 1 false,
          .createFace peer .permanent 2 false false] = some s ∧
      s.faces 1 = some u ∧ u.persistency = .permanent ∧
      step (fun buffer => buffer.length == 2) s (.sendError 1 .other) = some s' ∧
      s'.channelFaces localhost peer = some 1 ∧ ∃ id, s'.table.faces id = some 1 := by
  obtain ⟨s, hs, heq⟩ := Option.map_eq_some_iff.mp (show
    (exec (step fun buffer => buffer.length == 2) (new FaceTable.empty)
      [.createChannel localhost 600 [], .newPeer localhost peer [5, 0] 1 false,
        .createFace peer .permanent 2 false false]).map
      (fun s => ((s.faces 1).map fun u => (u.localEndpoint, u.remoteEndpoint, u.isMultiAccess, u.persistency),
        s.table.faces 256)) =
      some (some (localhost, peer, false, .permanent), some 1) by decide +kernel)
  obtain ⟨hface, hid⟩ := Prod.mk.inj heq
  obtain ⟨u, hu, hfields⟩ := Option.map_eq_some_iff.mp hface
  obtain ⟨hlocal, hfields⟩ := Prod.mk.inj hfields
  obtain ⟨hremote, hfields⟩ := Prod.mk.inj hfields
  obtain ⟨hunicast, hpermanent⟩ := Prod.mk.inj hfields
  have hstep : step (fun buffer => buffer.length == 2) s (.sendError 1 .other) =
      some (s.processErrorCode 1 u .other) := by
    rw [step, hu]
    rfl
  have hstays := (udp_persistency_rises FaceTable.empty_sound _ (reach_of_exec Reach.start hs) hu).2 _ 256
    (Reach.start.next (.sendError 1 .other) (fun hdestroys => hdestroys) hstep) hpermanent hunicast hid
  rw [hlocal, hremote] at hstays
  exact ⟨s, u, _, hs, hu, hpermanent, hstep, hstays⟩

/-! ### Idle faces -/

theorem fail_now (s : UdpSystem) (x : Face) (v : UdpFace) : (s.fail x v).now = s.now := by
  unfold fail setChannelFace
  dsimp only
  repeat' split
  all_goals rfl

theorem close_now (s : UdpSystem) (x : Face) (v : UdpFace) : (s.close x v).now = s.now := by
  unfold close
  split
  · rw [fail_now]
    rfl
  · rfl

theorem processErrorCode_now (s : UdpSystem) (x : Face) (v : UdpFace) (error : SocketError) :
    (s.processErrorCode x v error).now = s.now := by
  unfold processErrorCode
  repeat' split
  all_goals first
    | rfl
    | rw [fail_now]
  rfl

theorem receiveDatagram_now (isPacket : List UInt8 → Bool) (s : UdpSystem) (x : Face) (v : UdpFace)
    (input : Except SocketError (List UInt8)) : (receiveDatagram isPacket s x v input).now = s.now := by
  unfold receiveDatagram
  split
  · exact processErrorCode_now s x v _
  · split <;> rfl

theorem closeIfIdle_now (s : UdpSystem) (x : Face) (v : UdpFace) : (s.closeIfIdle x v).now = s.now := by
  unfold closeIfIdle
  dsimp only
  split
  · split
    · exact close_now _ _ _
    · rfl
  · rfl

theorem Connects.now {idleTimeout : Nat} {persistency : FacePersistency}
    (hc : Connects s c r idleTimeout persistency f s') : s'.now = s.now := by
  cases hc <;> rfl

/-- Time passes in one event only. -/
theorem Registered.step_now (h : s.Registered) {isPacket : List UInt8 → Bool} {event : Event}
    (hstep : UdpSystem.step isPacket s event = some s') :
    s'.now = s.now ∨ ∃ duration, event = .advanceClock duration ∧ s'.now = s.now + duration := by
  cases event with
  | createChannel endpoint idleTimeout nics =>
      cases hstep
      exact Or.inl (createChannel_same s endpoint idleTimeout nics).2.2.2
  | createMulticastFace localEndpoint multicastEndpoint object uninitialized socketFails =>
      rcases createMulticastFace_cases hstep with rfl | ⟨-, -, -, -, -, w, -, -, -, -, -, rfl⟩
      all_goals exact Or.inl rfl
  | createFace remoteEndpoint persistency object uninitialized socketFails =>
      rcases createFace_cases hstep with rfl | ⟨-, -, -, channel, -, hconnect⟩
      · exact Or.inl rfl
      · obtain ⟨x, hconnects⟩ := h.connect hconnect
        exact Or.inl hconnects.now
  | newPeer localEndpoint remoteEndpoint buffer object uninitialized =>
      obtain ⟨channel, -, hpeer⟩ := Option.bind_eq_some_iff.mp hstep
      obtain ⟨x, s₁, v, hconnects, -, rfl⟩ := h.handleNewPeer hpeer
      exact Or.inl ((receiveDatagram_now isPacket s₁ x v _).trans hconnects.now)
  | receive face input =>
      obtain ⟨v, -, rfl⟩ := Option.map_eq_some_iff.mp hstep
      exact Or.inl (receiveDatagram_now isPacket s face v input)
  | sendError face error =>
      obtain ⟨v, -, rfl⟩ := Option.map_eq_some_iff.mp hstep
      exact Or.inl (processErrorCode_now s face v error)
  | closeIfIdle face =>
      obtain ⟨v, -, hrest⟩ := Option.bind_eq_some_iff.mp hstep
      split at hrest
      · cases hrest
        exact Or.inl (closeIfIdle_now s face v)
      · cases hrest
  | destroyFace faceId =>
      cases hstep
      rcases destroyFace_cases s faceId with heq | ⟨x, v, -, -, heq⟩
      · exact Or.inl (by rw [heq])
      · exact Or.inl (by rw [heq, close_now])
  | addOther face =>
      simp only [UdpSystem.step] at hstep
      split at hstep
      · obtain ⟨table, -, rfl⟩ := Option.map_eq_some_iff.mp hstep
        exact Or.inl rfl
      · cases hstep
  | failOther face =>
      simp only [UdpSystem.step] at hstep
      split at hstep
      · cases hstep
        exact Or.inl rfl
      · cases hstep
  | advanceClock duration =>
      cases hstep
      exact Or.inr ⟨duration, rfl, rfl⟩

/-- The timer of a face as it is started. -/
def Started (now : Nat) (u : UdpFace) : Prop :=
  u.persistency = .onDemand → 0 < u.idleTimeout → u.closeIfIdleEvent = some (now + u.timeout) ∧ u.lastIdleCheck = now

theorem newFace_started (s : UdpSystem) (c : Endpoint) (idleTimeout : Nat) (r : Endpoint)
    (persistency : FacePersistency)
    (uninitialized : Bool) : Started s.now (s.newFace c idleTimeout r persistency uninitialized) := by
  unfold newFace
  dsimp only
  split
  · exact fun _ _ => ⟨rfl, rfl⟩
  · rename_i hnot
    exact fun hpersistency hidle => absurd ⟨hpersistency, hidle⟩ hnot

theorem Connects.new {idleTimeout : Nat} {persistency : FacePersistency}
    (hc : Connects s c r idleTimeout persistency x s') (hnone : s.faces f = none) (hf : s'.faces f = some u) :
    x = f ∧ Started s.now u := by
  cases hc with
  | kept v hlive =>
      rw [hnone] at hf
      cases hf
  | raised v hlive =>
      rw [setFace_of_ne _ (ne_of_none hlive.face hnone), hnone] at hf
      cases hf
  | created uninitialized table =>
      by_cases hne : f = x
      · subst hne
        cases (setFace_self s f _).symm.trans hf
        exact ⟨rfl, newFace_started s c idleTimeout r persistency uninitialized⟩
      · have hold := (setFace_of_ne _ hne).symm.trans hf
        rw [hnone] at hold
        cases hold

theorem close_faces_none (s : UdpSystem) (hx : s.faces x = some v) (hnone : s.faces f = none) :
    (s.close x v).faces f = none := by
  have hne := ne_of_none hx hnone
  rw [close_faces]
  split
  · exact (setFace_of_ne _ hne).trans hnone
  · exact hnone

theorem processErrorCode_faces_none (s : UdpSystem) (hx : s.faces x = some v) (hnone : s.faces f = none)
    (error : SocketError) : (s.processErrorCode x v error).faces f = none := by
  have hne := ne_of_none hx hnone
  unfold processErrorCode
  repeat' split
  · exact hnone
  · exact hnone
  · rw [fail_faces]
    exact hnone
  · rw [fail_faces]
    exact (setFace_of_ne _ hne).trans hnone

theorem closeIfIdle_faces_none (s : UdpSystem) (hx : s.faces x = some v) (hnone : s.faces f = none) :
    (s.closeIfIdle x v).faces f = none := by
  have hne := ne_of_none hx hnone
  have htouched : ∀ w, (s.setFace x w).faces f = none := fun w => (setFace_of_ne w hne).trans hnone
  unfold closeIfIdle
  dsimp only
  split
  · split
    · exact close_faces_none _ (setFace_self s x _) (htouched _)
    · exact (setFace_of_ne _ hne).trans (htouched _)
  · exact htouched _

theorem receiveDatagram_faces_none (isPacket : List UInt8 → Bool) (s : UdpSystem) (hx : s.faces x = some v)
    (hnone : s.faces f = none) (input : Except SocketError (List UInt8)) :
    (receiveDatagram isPacket s x v input).faces f = none := by
  unfold receiveDatagram
  split
  · exact processErrorCode_faces_none s hx hnone _
  · split
    · exact (setFace_of_ne _ (ne_of_none hx hnone)).trans hnone
    · exact hnone

/-- The timer of a face that a step creates is started in that step. -/
theorem Registered.step_new (h : s.Registered) {isPacket : List UInt8 → Bool} {event : Event}
    (hstep : UdpSystem.step isPacket s event = some s') (hnone : s.faces f = none) (hf : s'.faces f = some u) :
    Started s'.now u := by
  have habsurd : s'.faces f = none → Started s'.now u := fun hno => by
    rw [hno] at hf
    cases hf
  cases event with
  | createChannel endpoint idleTimeout nics =>
      cases hstep
      refine habsurd ?_
      rw [(createChannel_same s endpoint idleTimeout nics).2.1]
      exact hnone
  | createMulticastFace localEndpoint multicastEndpoint object uninitialized socketFails =>
      rcases createMulticastFace_cases hstep with rfl | ⟨-, -, -, -, -, w, -, -, -, -, hpersistent, rfl⟩
      · exact habsurd hnone
      · by_cases hne : f = object
        · subst hne
          cases (setFace_self s f _).symm.trans hf
          intro hpersistency
          rw [hpersistent] at hpersistency
          cases hpersistency
        · exact habsurd ((setFace_of_ne _ hne).trans hnone)
  | createFace remoteEndpoint persistency object uninitialized socketFails =>
      rcases createFace_cases hstep with rfl | ⟨-, -, -, channel, -, hconnect⟩
      · exact habsurd hnone
      · obtain ⟨x, hconnects⟩ := h.connect hconnect
        rw [hconnects.now]
        exact (hconnects.new hnone hf).2
  | newPeer localEndpoint remoteEndpoint buffer object uninitialized =>
      obtain ⟨channel, -, hpeer⟩ := Option.bind_eq_some_iff.mp hstep
      obtain ⟨x, s₁, v, hconnects, hv, rfl⟩ := h.handleNewPeer hpeer
      rw [receiveDatagram_now, hconnects.now]
      cases hold : s₁.faces f with
      | none =>
          rw [receiveDatagram_faces_none isPacket s₁ hv hold] at hf
          cases hf
      | some w =>
          have hstarted := (hconnects.new hnone hold).2
          rw [receiveDatagram_face hv hold] at hf
          cases hf
          split
          · exact hstarted
          · exact hstarted
  | receive face input =>
      obtain ⟨v, hv, rfl⟩ := Option.map_eq_some_iff.mp hstep
      exact habsurd (receiveDatagram_faces_none isPacket s hv hnone input)
  | sendError face error =>
      obtain ⟨v, hv, rfl⟩ := Option.map_eq_some_iff.mp hstep
      exact habsurd (processErrorCode_faces_none s hv hnone error)
  | closeIfIdle face =>
      obtain ⟨v, hv, hrest⟩ := Option.bind_eq_some_iff.mp hstep
      split at hrest
      · cases hrest
        exact habsurd (closeIfIdle_faces_none s hv hnone)
      · cases hrest
  | destroyFace faceId =>
      cases hstep
      rcases destroyFace_cases s faceId with heq | ⟨x, v, -, hx, heq⟩
      · exact habsurd (by rw [heq, hnone])
      · exact habsurd (by rw [heq, close_faces_none s hx hnone])
  | addOther face =>
      simp only [UdpSystem.step] at hstep
      split at hstep
      · obtain ⟨table, -, rfl⟩ := Option.map_eq_some_iff.mp hstep
        exact habsurd hnone
      · cases hstep
  | failOther face =>
      simp only [UdpSystem.step] at hstep
      split at hstep
      · cases hstep
        exact habsurd hnone
      · cases hstep
  | advanceClock duration =>
      cases hstep
      exact habsurd hnone

/-- No time passes while the timer of an open face is due. -/
def Punctual (s : UdpSystem) : Event → Prop
  | .advanceClock duration => ∀ f u due, s.faces f = some u → u.isOpen = true → u.closeIfIdleEvent = some due →
      s.now + duration ≤ due
  | _ => True

/-- A face that is closed if it is idle. -/
structure Idles (u : UdpFace) : Prop where
  isOpen : u.isOpen = true
  persistency : u.persistency = .onDemand
  idleTimeout : 0 < u.idleTimeout

/-- When the timer of such a face is due. -/
def checkDue (u : UdpFace) : Nat := u.lastIdleCheck + u.timeout

/-- When such a face is closed, if it takes in no packet. -/
def idleDeadline (u : UdpFace) : Nat := checkDue u + if u.hasBeenUsedRecently then u.timeout else 0

/-- The timers of the faces that can be closed. -/
def Timed (s : UdpSystem) : Prop := ∀ f u, s.faces f = some u → Idles u →
  u.closeIfIdleEvent = some (checkDue u) ∧ u.lastIdleCheck ≤ s.now ∧ s.now ≤ checkDue u

/-- Such a face after a step, if it still is one. -/
theorem Changes.timed {isPacket : List UInt8 → Bool} {event : Event} (h : Changes isPacket s f u event u')
    (hidles : Idles u') (htimed : Idles u → u.closeIfIdleEvent = some (checkDue u)) :
    u'.closeIfIdleEvent = some (checkDue u') ∧
      (u'.lastIdleCheck = u.lastIdleCheck ∧ checkDue u' = checkDue u ∧ Idles u ∨
        u'.lastIdleCheck = s.now ∧ (∀ duration, event ≠ .advanceClock duration)) := by
  cases h with
  | kept => exact ⟨htimed hidles, Or.inl ⟨rfl, rfl, hidles⟩⟩
  | raised _ persistency _ _ hnot => exact absurd hidles.persistency hnot
  | used =>
      have hold : Idles u := ⟨hidles.isOpen, hidles.persistency, hidles.idleTimeout⟩
      exact ⟨htimed hold, Or.inl ⟨rfl, rfl, hold⟩⟩
  | broken | destroyed => cases hidles.isOpen
  | idle =>
      revert hidles
      unfold idleChecked
      split
      · split
        · exact fun hidles => (by cases hidles.isOpen)
        · exact fun hidles => ⟨rfl, Or.inr ⟨rfl, by simp⟩⟩
      · rename_i hnot
        exact fun hidles => absurd hidles.persistency hnot

theorem Registered.step_timed (h : s.Registered) (htimed : s.Timed) {isPacket : List UInt8 → Bool} {event : Event}
    (hok : Punctual s event) (hstep : UdpSystem.step isPacket s event = some s') : s'.Timed := by
  intro f u' hf' hidles
  have hnow := h.step_now hstep
  cases hf : s.faces f with
  | none =>
      obtain ⟨hevent, hlast⟩ := h.step_new hstep hf hf' hidles.persistency hidles.idleTimeout
      exact ⟨by rw [hevent, checkDue, hlast], hlast.le, by rw [checkDue, hlast]; omega⟩
  | some u =>
      obtain ⟨u₁, hf₁, hchanges⟩ := h.step_face hstep hf
      cases hf'.symm.trans hf₁
      obtain ⟨hevent, hsame | ⟨hlast, hclock⟩⟩ := hchanges.timed hidles fun hold => (htimed f u hf hold).1
      · obtain ⟨hlast, hdue, hold⟩ := hsame
        obtain ⟨hpending, hle, hge⟩ := htimed f u hf hold
        refine ⟨hevent, ?_, ?_⟩
        · rw [hlast]
          rcases hnow with hkept | ⟨duration, -, hpassed⟩
          · rwa [hkept]
          · omega
        · rw [hdue]
          rcases hnow with hkept | ⟨duration, rfl, hpassed⟩
          · rwa [hkept]
          · rw [hpassed]
            exact hok f u _ hf hold.isOpen hpending
      · have hkept : s'.now = s.now := by
          rcases hnow with hkept | ⟨duration, heq, -⟩
          · exact hkept
          · exact absurd heq (hclock duration)
        exact ⟨hevent, by rw [hlast, hkept], by rw [checkDue, hlast, hkept]; omega⟩

theorem timed_of_reach {table : FaceTable} (htable : table.Sound) {isPacket : List UInt8 → Bool}
    (hr : Reach (step isPacket) Punctual (new table) s) : s.Registered ∧ s.Timed := by
  refine hr.invariant (I := fun s => s.Registered ∧ s.Timed) ⟨new_registered htable, fun f u hf => (by cases hf)⟩ ?_
  intro s event s' h hok hstep
  exact ⟨h.1.step hstep, h.1.step_timed h.2 hok hstep⟩

theorem due_le {event : Option Nat} {due now : Nat} (hevent : event = some due)
    (hdue : event.any (fun due => decide (due ≤ now)) = true) : due ≤ now := by
  subst hevent
  simpa using hdue

theorem idleDeadline_used (u : UdpFace) :
    idleDeadline { u with hasBeenUsedRecently := true } = checkDue u + u.timeout := by
  simp [idleDeadline, checkDue, UdpFace.timeout]

/-- The deadline of a face whose timer is started again. -/
theorem idleDeadline_restarted (u : UdpFace) (now : Nat) (event : Option Nat) :
    idleDeadline { u with hasBeenUsedRecently := false, lastIdleCheck := now, closeIfIdleEvent := event } =
      now + u.timeout := by
  simp [idleDeadline, checkDue, UdpFace.timeout]

/-- Without an error and without a command, a face is closed only at its deadline, which never comes earlier. -/
theorem Changes.deadline_le {isPacket : List UInt8 → Bool} {event : Event} (h : Changes isPacket s f u event u')
    (hidles : Idles u) (hpending : u.closeIfIdleEvent = some (checkDue u)) (hbreak : ¬ Breaks f event)
    (hdestroy : ¬ Destroys s f event) (hpersistency : u'.persistency = .onDemand) :
    Idles u' ∧ idleDeadline u ≤ idleDeadline u' ∨ u'.isOpen = false ∧ idleDeadline u ≤ s.now := by
  cases h with
  | kept => exact Or.inl ⟨hidles, le_rfl⟩
  | raised _ persistency _ _ hnot => exact absurd hpersistency hnot
  | used =>
      refine Or.inl ⟨⟨hidles.isOpen, hidles.persistency, hidles.idleTimeout⟩, ?_⟩
      rw [idleDeadline_used, idleDeadline]
      refine Nat.add_le_add_left ?_ _
      split
      · exact le_rfl
      · exact Nat.zero_le _
  | broken _ hbreaks => exact absurd hbreaks hbreak
  | destroyed _ hdestroys => exact absurd hdestroys hdestroy
  | idle hdue =>
      have hle : checkDue u ≤ s.now := due_le hpending hdue
      unfold idleChecked
      rw [if_pos hidles.persistency]
      split
      · rename_i hunused
        refine Or.inr ⟨rfl, ?_⟩
        rw [idleDeadline, if_neg (by simp [hunused]), Nat.add_zero]
        exact hle
      · rename_i hused
        have hused : u.hasBeenUsedRecently = true := by simpa using hused
        refine Or.inl ⟨⟨hidles.isOpen, hidles.persistency, hidles.idleTimeout⟩, ?_⟩
        rw [idleDeadline, if_pos hused, idleDeadline_restarted]
        exact Nat.add_le_add_right hle _

/-- Without a packet, the deadline of a face never comes later. -/
theorem Changes.deadline_ge {isPacket : List UInt8 → Bool} {event : Event} (h : Changes isPacket s f u event u')
    (hpending : Idles u → s.now ≤ checkDue u) (haccept : ¬ Accepts isPacket s f event) (hidles : Idles u') :
    Idles u ∧ idleDeadline u' ≤ idleDeadline u := by
  cases h with
  | kept => exact ⟨hidles, le_rfl⟩
  | raised _ persistency _ _ hnot => exact absurd hidles.persistency hnot
  | used _ haccepts => exact absurd haccepts haccept
  | broken | destroyed => cases hidles.isOpen
  | idle =>
      revert hidles
      unfold idleChecked
      split
      · split
        · exact fun hidles => (by cases hidles.isOpen)
        · rename_i hused
          have hused : u.hasBeenUsedRecently = true := by simpa using hused
          intro hidles
          have hold : Idles u := ⟨hidles.isOpen, hidles.persistency, hidles.idleTimeout⟩
          refine ⟨hold, ?_⟩
          have hdeadline : idleDeadline u = checkDue u + u.timeout := by rw [idleDeadline, if_pos hused]
          rw [hdeadline, idleDeadline_restarted]
          exact Nat.add_le_add_right (hpending hold) _
      · rename_i hnot
        exact fun hidles => absurd hidles.persistency hnot

/-- The status of a face gives its deadline, rounded up to a millisecond. -/
theorem expirationPeriod_deadline (hpersistency : u.persistency = .onDemand) (hlast : u.lastIdleCheck ≤ s.now)
    (hdue : s.now ≤ checkDue u) : ∃ left, s.expirationPeriod u = some left ∧
      idleDeadline u ≤ s.now + milliseconds left ∧ s.now + milliseconds left < idleDeadline u + milliseconds 1 := by
  refine ⟨_, if_pos hpersistency, ?_⟩
  generalize hpassed : (s.now - u.lastIdleCheck) / milliseconds 1 = passed
  have hround := Nat.div_add_mod (s.now - u.lastIdleCheck) (milliseconds 1)
  have hlt := Nat.mod_lt (s.now - u.lastIdleCheck) (show 0 < milliseconds 1 by decide)
  rw [hpassed] at hround
  unfold checkDue UdpFace.timeout at hdue
  unfold idleDeadline checkDue UdpFace.timeout
  simp only [milliseconds] at *
  split
  · omega
  · omega

/-- Until its deadline the face is open, whatever it takes in. -/
theorem Registered.open_until (h : s.Registered) (htimed : s.Timed) (hf : s.faces f = some u) (hidles : Idles u)
    {isPacket : List UInt8 → Bool}
    (hr : Reach (UdpSystem.step isPacket)
      (fun s event => Punctual s event ∧ ¬ Breaks f event ∧ ¬ Destroys s f event) s s') :
    (s'.Registered ∧ s'.Timed) ∧ ∃ u', s'.faces f = some u' ∧ (u'.persistency = .onDemand →
      Idles u' ∧ idleDeadline u ≤ idleDeadline u' ∨ u'.isOpen = false ∧ idleDeadline u ≤ s'.now) := by
  refine hr.invariant (I := fun s' => (s'.Registered ∧ s'.Timed) ∧ ∃ u', s'.faces f = some u' ∧
    (u'.persistency = .onDemand → Idles u' ∧ idleDeadline u ≤ idleDeadline u' ∨
      u'.isOpen = false ∧ idleDeadline u ≤ s'.now)) ⟨⟨h, htimed⟩, u, hf, fun _ => Or.inl ⟨hidles, le_rfl⟩⟩ ?_
  rintro s₁ event s₂ ⟨⟨h₁, htimed₁⟩, u₁, hf₁, hcases⟩ ⟨hpunctual, hbreak, hdestroy⟩ hstep
  obtain ⟨u₂, hf₂, hchanges⟩ := h₁.step_face hstep hf₁
  refine ⟨⟨h₁.step hstep, h₁.step_timed htimed₁ hpunctual hstep⟩, u₂, hf₂, fun hpersistency => ?_⟩
  have hnow : s₁.now ≤ s₂.now := by
    rcases h₁.step_now hstep with heq | ⟨duration, -, heq⟩
    · exact heq.ge
    · exact heq ▸ Nat.le_add_right _ _
  rcases hcases (hchanges.onDemand hpersistency) with ⟨hidles₁, hle⟩ | ⟨hclosed, hle⟩
  · rcases hchanges.deadline_le hidles₁ (htimed₁ f u₁ hf₁ hidles₁).1 hbreak hdestroy hpersistency with
      ⟨hidles₂, hle₂⟩ | ⟨hclosed, hle₂⟩
    · exact Or.inl ⟨hidles₂, hle.trans hle₂⟩
    · exact Or.inr ⟨hclosed, (hle.trans hle₂).trans hnow⟩
  · exact Or.inr ⟨hchanges.later.isOpen hclosed, hle.trans hnow⟩

/-- A face that takes in nothing is closed by its deadline. -/
theorem Registered.closed_by (h : s.Registered) (htimed : s.Timed) (hf : s.faces f = some u)
    {isPacket : List UInt8 → Bool}
    (hr : Reach (UdpSystem.step isPacket) (fun s event => Punctual s event ∧ ¬ Accepts isPacket s f event) s s') :
    (s'.Registered ∧ s'.Timed) ∧ ∃ u', s'.faces f = some u' ∧
      (Idles u' → Idles u ∧ idleDeadline u' ≤ idleDeadline u) := by
  refine hr.invariant (I := fun s' => (s'.Registered ∧ s'.Timed) ∧ ∃ u', s'.faces f = some u' ∧
    (Idles u' → Idles u ∧ idleDeadline u' ≤ idleDeadline u)) ⟨⟨h, htimed⟩, u, hf, fun hidles => ⟨hidles, le_rfl⟩⟩ ?_
  rintro s₁ event s₂ ⟨⟨h₁, htimed₁⟩, u₁, hf₁, hcases⟩ ⟨hpunctual, haccept⟩ hstep
  obtain ⟨u₂, hf₂, hchanges⟩ := h₁.step_face hstep hf₁
  refine ⟨⟨h₁.step hstep, h₁.step_timed htimed₁ hpunctual hstep⟩, u₂, hf₂, fun hidles => ?_⟩
  obtain ⟨hidles₁, hle₁⟩ := hchanges.deadline_ge (fun hold => (htimed₁ f u₁ hf₁ hold).2.2) haccept hidles
  obtain ⟨hidles₀, hle₀⟩ := hcases hidles₁
  exact ⟨hidles₀, hle₁.trans hle₀⟩

/-- An on-demand face has a deadline, which its status gives up to a millisecond. As long as its persistency is not
raised, it is closed by then if it takes in no packet, and only then unless it breaks or is destroyed. Where it
took in a packet since the last check, a whole idle timeout is left. -/
theorem idle_face_closes {table : FaceTable} (htable : table.Sound) (isPacket : List UInt8 → Bool)
    (hr : Reach (step isPacket) Punctual (new table) s) (hf : s.faces f = some u) (hopen : u.isOpen = true)
    (hpersistency : u.persistency = .onDemand) (hidle : 0 < u.idleTimeout) :
    ∃ deadline left, s.expirationPeriod u = some left ∧ deadline ≤ s.now + milliseconds left ∧
      s.now + milliseconds left < deadline + milliseconds 1 ∧
      (u.hasBeenUsedRecently = true → s.now + u.timeout ≤ deadline) ∧
      (∀ s', Reach (step isPacket) (fun s event => Punctual s event ∧ ¬ Accepts isPacket s f event) s s' →
        ∃ u', s'.faces f = some u' ∧ (u'.persistency = .onDemand → u'.isOpen = true → s'.now ≤ deadline)) ∧
      ∀ s', Reach (step isPacket) (fun s event => Punctual s event ∧ ¬ Breaks f event ∧ ¬ Destroys s f event) s s' →
        ∃ u', s'.faces f = some u' ∧ (u'.persistency = .onDemand → u'.isOpen = false → deadline ≤ s'.now) := by
  obtain ⟨h, htimed⟩ := timed_of_reach htable hr
  have hidles : Idles u := ⟨hopen, hpersistency, hidle⟩
  obtain ⟨-, hlast, hdue⟩ := htimed f u hf hidles
  obtain ⟨left, hleft, hle, hlt⟩ := expirationPeriod_deadline hpersistency hlast hdue
  refine ⟨idleDeadline u, left, hleft, hle, hlt, fun hused => ?_, fun s' hr' => ?_, fun s' hr' => ?_⟩
  · rw [idleDeadline, if_pos hused]
    exact Nat.add_le_add_right hdue _
  · obtain ⟨⟨-, htimed'⟩, u', hf', hcases⟩ := h.closed_by htimed hf hr'
    refine ⟨u', hf', fun hpersistency' hopen' => ?_⟩
    have htimeout := (h.later hr' hf).2
    rw [hf'] at htimeout
    obtain ⟨u₁, heq, hlater⟩ := htimeout
    cases heq
    have hidles' : Idles u' := ⟨hopen', hpersistency', hlater.idleTimeout ▸ hidle⟩
    exact ((htimed' f u' hf' hidles').2.2.trans (Nat.le_add_right _ _)).trans (hcases hidles').2
  · obtain ⟨-, u', hf', hcases⟩ := h.open_until htimed hf hidles hr'
    refine ⟨u', hf', fun hpersistency' hclosed => ?_⟩
    rcases hcases hpersistency' with ⟨hidles', -⟩ | ⟨-, hle'⟩
    · rw [hidles'.isOpen] at hclosed
      cases hclosed
    · exact hle'

/-- The face of a peer that sent a packet has twenty minutes, until the second check. -/
theorem idle_face_closes_peer :
    ∃ s u deadline, exec (step fun buffer => buffer.length == 2) (new FaceTable.empty)
        [.createChannel localhost 600 [], .newPeer localhost peer [5, 0] 1 false] = some s ∧ s.faces 1 = some u ∧
      s.expirationPeriod u = some 1200000 ∧ deadline ≤ s.now + milliseconds 1200000 ∧ s.now + u.timeout ≤ deadline ∧
      ∀ s', Reach (step fun buffer => buffer.length == 2)
          (fun s event => Punctual s event ∧ ¬ Accepts (fun buffer => buffer.length == 2) s 1 event) s s' →
        ∃ u', s'.faces 1 = some u' ∧ (u'.persistency = .onDemand → u'.isOpen = true → s'.now ≤ deadline) := by
  obtain ⟨s, hs, heq⟩ := Option.map_eq_some_iff.mp (show
    (exec (step fun buffer => buffer.length == 2) (new FaceTable.empty)
      [.createChannel localhost 600 [], .newPeer localhost peer [5, 0] 1 false]).map
        (fun s => (s.faces 1, s.expirationPeriod ⟨localhost, peer, false, .onDemand, true, true, 600, 0,
          some (milliseconds 600000)⟩)) =
      some (some ⟨localhost, peer, false, .onDemand, true, true, 600, 0, some (milliseconds 600000)⟩, some 1200000) by
    decide +kernel)
  obtain ⟨hface, hperiod⟩ := Prod.mk.inj heq
  have hr : Reach (step fun buffer => buffer.length == 2) Punctual (new FaceTable.empty) s :=
    reach_of_exec_all Reach.start (fun event hevent s => by
      rcases List.mem_cons.mp hevent with rfl | hevent
      · trivial
      · cases List.mem_singleton.mp hevent
        trivial) hs
  obtain ⟨deadline, left, hleft, hle, -, hused, hclosed, -⟩ :=
    idle_face_closes FaceTable.empty_sound _ hr hface rfl rfl (by decide)
  cases hleft.symm.trans hperiod
  exact ⟨s, _, deadline, hs, hface, hperiod, hle, hused rfl, hclosed⟩

end UdpSystem
end NfdPitless
