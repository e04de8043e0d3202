import NfdPitless.UdpLifetime

/-! The local endpoints of channels and multicast faces, and the remote endpoints that are prohibited. -/

namespace NfdPitless
namespace UdpSystem

variable {s s' : UdpSystem} {f x object : Face} {u u' v : UdpFace} {c r : Endpoint}

/-- Channels and multicast faces have different local endpoints, and every face has one of them. -/
structure Apart (s : UdpSystem) : Prop where
  nodup : (s.channels.map Prod.fst).Nodup
  prohibited : ∀ channel ∈ s.channels, channel.1 ∈ s.prohibitedEndpoints
  multicast : ∀ {c f}, s.multicastFaces c = some f ↔
    ∃ u, s.faces f = some u ∧ u.isMultiAccess = true ∧ u.localEndpoint = c ∧ u.isOpen = true
  disjoint : ∀ {c f}, s.multicastFaces c = some f → ∀ channel ∈ s.channels, channel.1 ≠ c
  channel : ∀ {f u}, s.faces f = some u → u.isMultiAccess = false → ∃ channel ∈ s.channels, channel.1 = u.localEndpoint

theorem new_apart (table : FaceTable) : (new table).Apart := by
  refine ⟨List.nodup_nil, ?_, ⟨?_, ?_⟩, ?_, ?_⟩
  · exact fun channel hmem => absurd hmem List.not_mem_nil
  · exact fun hmap => (by cases hmap)
  · rintro ⟨u, hf, -⟩
    cases hf
  · exact fun hmap => (by cases hmap)
  · exact fun hf => (by cases hf)

/-- Faces keep their endpoints, and the multicast faces of the factory are as before. -/
theorem Apart.of_same (h : s.Apart) (hchannels : s'.channels = s.channels)
    (hprohibited : s'.prohibitedEndpoints = s.prohibitedEndpoints) (hmulticast : s'.multicastFaces = s.multicastFaces)
    (hold : ∀ x v, s.faces x = some v → ∃ v', s'.faces x = some v' ∧ Same v v')
    (hnew : ∀ x v', s'.faces x = some v' → ∃ v, s.faces x = some v ∧ Same v v') : s'.Apart := by
  refine ⟨hchannels.symm ▸ h.nodup, ?_, ?_, ?_, ?_⟩
  · rw [hchannels, hprohibited]
    exact h.prohibited
  · intro c f
    rw [hmulticast, h.multicast]
    constructor
    · rintro ⟨v, hv, hmulti, hlocal, hopen⟩
      obtain ⟨v', hv', hsame⟩ := hold f v hv
      exact ⟨v', hv', hsame.isMultiAccess.trans hmulti, hsame.localEndpoint.trans hlocal, hsame.isOpen.trans hopen⟩
    · rintro ⟨v', hv', hmulti, hlocal, hopen⟩
      obtain ⟨v, hv, hsame⟩ := hnew f v' hv'
      exact ⟨v, hv, hsame.isMultiAccess ▸ hmulti, hsame.localEndpoint ▸ hlocal, hsame.isOpen ▸ hopen⟩
  · rw [hchannels, hmulticast]
    exact h.disjoint
  · rw [hchannels]
    intro f v' hv' hunicast
    obtain ⟨v, hv, hsame⟩ := hnew f v' hv'
    rw [hsame.localEndpoint]
    exact h.channel hv (hsame.isMultiAccess ▸ hunicast)

theorem Apart.touch (h : s.Apart) (hf : s.faces f = some u) (hsame : Same u u') : (s.setFace f u').Apart :=
  h.of_same rfl rfl rfl (setFace_same_old hf hsame) (setFace_same_new hf hsame)

theorem fail_endpoints (s : UdpSystem) (x : Face) (v : UdpFace) :
    (s.fail x v).channels = s.channels ∧ (s.fail x v).prohibitedEndpoints = s.prohibitedEndpoints := by
  unfold fail setChannelFace
  dsimp only
  repeat' split
  all_goals exact ⟨rfl, rfl⟩

theorem fail_multicastFaces (hnot : s.table.isFailed f = false) (u : UdpFace) (c : Endpoint) :
    (s.fail f u).multicastFaces c =
      if u.isMultiAccess = true ∧ c = u.localEndpoint then none else s.multicastFaces c := by
  unfold fail
  rw [hnot]
  dsimp only
  rw [if_neg (by simp)]
  by_cases hmulti : u.isMultiAccess = true
  · rw [if_pos hmulti]
    simp only [hmulti, true_and]
    exact Function.update_apply ..
  · rw [if_neg hmulti, if_neg fun hboth => hmulti hboth.1]
    rfl

/-- A face that is open fails and is closed. -/
theorem Apart.closed (h : s.Apart) (hreg : s.Registered) (hf : s.faces f = some u) (hopen : u.isOpen = true) :
    ((s.closeSocket f u).fail f u).Apart := by
  have hself : ((s.closeSocket f u).fail f u).faces f = some { u with isOpen := false } := by
    rw [fail_faces]
    exact setFace_self s f _
  have hface : ∀ x, x ≠ f → ((s.closeSocket f u).fail f u).faces x = s.faces x := fun x hx => by
    rw [fail_faces]
    exact setFace_of_ne _ hx
  obtain ⟨hchannels, hprohibited⟩ := fail_endpoints (s.closeSocket f u) f u
  have hmap : ∀ {c x}, ((s.closeSocket f u).fail f u).multicastFaces c = some x ↔
      s.multicastFaces c = some x ∧ x ≠ f := by
    intro c x
    rw [fail_multicastFaces (show (s.closeSocket f u).table.isFailed f = false from (hreg.isOpen hf).mp hopen)]
    split
    · rename_i hown
      have heq : s.multicastFaces c = some f := h.multicast.mpr ⟨u, hf, hown.1, hown.2.symm, hopen⟩
      refine ⟨fun hbad => (by cases hbad), fun hboth => ?_⟩
      exact absurd (Option.some.inj (heq.symm.trans hboth.1)).symm hboth.2
    · rename_i hown
      refine ⟨fun hx => ⟨hx, ?_⟩, fun hboth => hboth.1⟩
      rintro rfl
      obtain ⟨v, hv, hmulti, hlocal, -⟩ := h.multicast.mp hx
      cases hf.symm.trans hv
      exact hown ⟨hmulti, hlocal.symm⟩
  refine ⟨hchannels.symm ▸ h.nodup, ?_, ?_, ?_, ?_⟩
  · rw [hchannels, hprohibited]
    exact h.prohibited
  · intro c x
    rw [hmap, h.multicast]
    constructor
    · rintro ⟨⟨v, hv, hrest⟩, hne⟩
      exact ⟨v, (hface x hne).trans hv, hrest⟩
    · rintro ⟨v, hv, hmulti, hlocal, hopen'⟩
      have hne : x ≠ f := by
        rintro rfl
        cases hself.symm.trans hv
        cases hopen'
      exact ⟨⟨v, (hface x hne) ▸ hv, hmulti, hlocal, hopen'⟩, hne⟩
  · intro c x hx
    rw [hchannels]
    exact h.disjoint (hmap.mp hx).1
  · intro x v hv hunicast
    rw [hchannels]
    by_cases hne : x = f
    · subst hne
      cases hself.symm.trans hv
      exact h.channel (u := u) hf hunicast
    · exact h.channel ((hface x hne) ▸ hv) hunicast

theorem Apart.close (h : s.Apart) (hreg : s.Registered) (hf : s.faces f = some u) : (s.close f u).Apart := by
  unfold UdpSystem.close
  split
  · exact h.closed hreg hf ‹_›
  · exact h

theorem Apart.processErrorCode (h : s.Apart) (hreg : s.Registered) (hf : s.faces f = some u) (error : SocketError) :
    (s.processErrorCode f u error).Apart := by
  rcases processErrorCode_cases hreg hf error with heq | ⟨hopen, heq⟩
  · rwa [heq]
  · rw [heq]
    exact h.closed hreg hf hopen

theorem Apart.receiveDatagram (h : s.Apart) (hreg : s.Registered) (hf : s.faces f = some u)
    (isPacket : List UInt8 → Bool) (input : Except SocketError (List UInt8)) :
    (receiveDatagram isPacket s f u input).Apart := by
  unfold UdpSystem.receiveDatagram
  split
  · exact h.processErrorCode hreg hf _
  · split
    · exact h.touch hf ⟨rfl, rfl, rfl, rfl⟩
    · exact h

theorem Apart.closeIfIdle (h : s.Apart) (hreg : s.Registered) (hf : s.faces f = some u) :
    (s.closeIfIdle f u).Apart := by
  have htouched : (s.setFace f { u with closeIfIdleEvent := none }).Apart := h.touch hf ⟨rfl, rfl, rfl, rfl⟩
  have hself := setFace_self s f { u with closeIfIdleEvent := none }
  unfold UdpSystem.closeIfIdle
  dsimp only
  split
  · split
    · exact htouched.close (hreg.touch hf ⟨rfl, rfl, rfl, rfl⟩) hself
    · exact htouched.touch hself ⟨rfl, rfl, rfl, rfl⟩
  · exact htouched

/-- A face is created whose local endpoint has a channel. -/
theorem Apart.of_create (h : s.Apart) (hnew : s.faces object = none) (hu : u.isMultiAccess = false)
    (hchannel : ∃ channel ∈ s.channels, channel.1 = u.localEndpoint) (hchannels : s'.channels = s.channels)
    (hprohibited : s'.prohibitedEndpoints = s.prohibitedEndpoints) (hmulticast : s'.multicastFaces = s.multicastFaces)
    (hfaces : s'.faces = (s.setFace object u).faces) : s'.Apart := by
  have hself : s'.faces object = some u := by rw [hfaces, setFace_self]
  have hface : ∀ x, x ≠ object → s'.faces x = s.faces x := fun x hx => by rw [hfaces, setFace_of_ne _ hx]
  refine ⟨hchannels.symm ▸ h.nodup, ?_, ?_, ?_, ?_⟩
  · rw [hchannels, hprohibited]
    exact h.prohibited
  · intro c x
    rw [hmulticast, h.multicast]
    constructor
    · rintro ⟨v, hv, hrest⟩
      exact ⟨v, (hface x (ne_of_none hv hnew).symm).trans hv, hrest⟩
    · rintro ⟨v, hv, hmulti, hrest⟩
      have hne : x ≠ object := by
        rintro rfl
        cases hself.symm.trans hv
        rw [hu] at hmulti
        cases hmulti
      exact ⟨v, (hface x hne) ▸ hv, hmulti, hrest⟩
  · rw [hchannels, hmulticast]
    exact h.disjoint
  · intro x v hv hunicast
    rw [hchannels]
    by_cases hne : x = object
    · subst hne
      cases hself.symm.trans hv
      exact hchannel
    · exact h.channel ((hface x hne) ▸ hv) hunicast

theorem Apart.connects (h : s.Apart) {idleTimeout : Nat} {persistency : FacePersistency}
    (hc : Connects s c r idleTimeout persistency f s') (hchannel : ∃ channel ∈ s.channels, channel.1 = c) :
    s'.Apart := by
  cases hc with
  | kept => exact h
  | raised u hlive => exact h.touch hlive.face ⟨rfl, rfl, rfl, rfl⟩
  | created uninitialized table hnew =>
      obtain ⟨hu, hlocal, -⟩ := newFace_fields s c idleTimeout r persistency uninitialized
      exact h.of_create hnew.faces hu (hlocal.symm ▸ hchannel) rfl rfl rfl rfl

/-- A multicast face is created where there is neither a channel nor a multicast face. -/
theorem Apart.of_createMulticast (h : s.Apart) (hnew : s.faces object = none) (hu : u.isMultiAccess = true)
    (hopen : u.isOpen = true) (hlocal : u.localEndpoint = c) (hfree : s.multicastFaces c = none)
    (hno : ∀ channel ∈ s.channels, channel.1 ≠ c) :
    ({ s.setFace object u with multicastFaces := Function.update s.multicastFaces c (some object) } :
      UdpSystem).Apart := by
  refine ⟨h.nodup, h.prohibited, ?_, ?_, ?_⟩
  · intro c' x
    show Function.update s.multicastFaces c (some object) c' = some x ↔
      ∃ v, (s.setFace object u).faces x = some v ∧ v.isMultiAccess = true ∧ v.localEndpoint = c' ∧ v.isOpen = true
    rw [Function.update_apply]
    split
    · rename_i hc
      subst hc
      constructor
      · intro heq
        obtain rfl := Option.some.inj heq
        exact ⟨u, setFace_self s _ u, hu, hlocal, hopen⟩
      · rintro ⟨v, hv, hmulti, hlocal', hopen'⟩
        by_cases hne : x = object
        · rw [hne]
        · have hold := h.multicast.mpr ⟨v, (setFace_of_ne u hne) ▸ hv, hmulti, hlocal', hopen'⟩
          rw [hfree] at hold
          cases hold
    · rename_i hc
      rw [h.multicast]
      constructor
      · rintro ⟨v, hv, hrest⟩
        exact ⟨v, (setFace_of_ne u (ne_of_none hv hnew).symm).trans hv, hrest⟩
      · rintro ⟨v, hv, hmulti, hlocal', hopen'⟩
        have hne : x ≠ object := by
          rintro rfl
          cases (setFace_self s x u).symm.trans hv
          exact hc (hlocal'.symm.trans hlocal)
        exact ⟨v, (setFace_of_ne u hne) ▸ hv, hmulti, hlocal', hopen'⟩
  · intro c' x hx channel hmem
    replace hx : Function.update s.multicastFaces c (some object) c' = some x := hx
    rw [Function.update_apply] at hx
    split at hx
    · rename_i hc
      rw [hc]
      exact hno channel hmem
    · exact h.disjoint hx channel hmem
  · intro x v hv hunicast
    have hne : x ≠ object := by
      rintro rfl
      cases (setFace_self s x u).symm.trans hv
      rw [hu] at hunicast
      cases hunicast
    exact h.channel ((setFace_of_ne u hne) ▸ hv) hunicast

theorem findChannel_eq_none (s : UdpSystem) (c : Endpoint) :
    s.findChannel c = none ↔ ∀ channel ∈ s.channels, channel.1 ≠ c := by
  simp [findChannel]

theorem insertChannel_perm (endpoint : Endpoint) (idleTimeout : Nat) (channels : List (Endpoint × Nat)) :
    (insertChannel endpoint idleTimeout channels).Perm ((endpoint, idleTimeout) :: channels) := by
  refine List.perm_middle.trans ?_
  rw [List.takeWhile_append_dropWhile]

/-- The endpoints to which `prohibitEndpoint` prohibits to connect. -/
def ownEndpoints (nics : List NetworkInterfaceInfo) (endpoint : Endpoint) : List Endpoint :=
  endpoint ::
    if endpoint.address = allV4Endpoint then allIpv4Endpoints nics endpoint.port
    else if endpoint.address = allV6Endpoint then allIpv6Endpoints nics endpoint.port
    else []

/-- What `createChannel` does if it creates a channel. -/
theorem createChannel_cases (s : UdpSystem) (endpoint : Endpoint) (idleTimeout : Nat)
    (nics : List NetworkInterfaceInfo) :
    s.createChannel endpoint idleTimeout nics = s ∨ s.findChannel endpoint = none ∧
      s.multicastFaces endpoint = none ∧ endpoint.isMulticast = false ∧
      s.createChannel endpoint idleTimeout nics =
        { s with channels := insertChannel endpoint idleTimeout s.channels
                 prohibitedEndpoints := ownEndpoints nics endpoint ++ s.prohibitedEndpoints } := by
  unfold createChannel
  split
  · exact Or.inl rfl
  · split
    · exact Or.inl rfl
    · split
      · exact Or.inl rfl
      · rename_i hchannel hmulticast hgroup
        exact Or.inr ⟨by simpa using hchannel, by simpa using hmulticast, by simpa using hgroup, rfl⟩

theorem Apart.createChannel (h : s.Apart) (endpoint : Endpoint) (idleTimeout : Nat) (nics : List NetworkInterfaceInfo) :
    (s.createChannel endpoint idleTimeout nics).Apart := by
  rcases createChannel_cases s endpoint idleTimeout nics with heq | ⟨hchannel, hmulticast, -, heq⟩
  · rwa [heq]
  · rw [heq]
    have hperm := insertChannel_perm endpoint idleTimeout s.channels
    have hmem : ∀ channel, channel ∈ insertChannel endpoint idleTimeout s.channels ↔
        channel = (endpoint, idleTimeout) ∨ channel ∈ s.channels := fun channel =>
      hperm.mem_iff.trans List.mem_cons
    rw [findChannel_eq_none] at hchannel
    refine ⟨?_, ?_, h.multicast, ?_, ?_⟩
    · refine (hperm.map Prod.fst).nodup_iff.mpr (List.nodup_cons.mpr ⟨fun hin => ?_, h.nodup⟩)
      obtain ⟨channel, hin, hsame⟩ := List.mem_map.mp hin
      exact hchannel channel hin hsame
    · intro channel hin
      refine List.mem_append.mpr ?_
      rcases (hmem channel).mp hin with rfl | hold
      · exact Or.inl List.mem_cons_self
      · exact Or.inr (h.prohibited channel hold)
    · intro c f hf channel hin
      rcases (hmem channel).mp hin with rfl | hold
      · rintro rfl
        replace hf : s.multicastFaces endpoint = some f := hf
        rw [hmulticast] at hf
        cases hf
      · exact h.disjoint hf channel hold
    · intro f u hf hunicast
      obtain ⟨channel, hin, hsame⟩ := h.channel hf hunicast
      exact ⟨channel, (hmem channel).mpr (Or.inr hin), hsame⟩

theorem Apart.step (h : s.Apart) (hreg : s.Registered) {isPacket : List UInt8 → Bool} {event : Event}
    (hstep : UdpSystem.step isPacket s event = some s') : s'.Apart := by
  cases event with
  | createChannel endpoint idleTimeout nics =>
      cases hstep
      exact h.createChannel endpoint idleTimeout nics
  | createMulticastFace localEndpoint multicastEndpoint object uninitialized socketFails =>
      rcases createMulticastFace_cases hstep with rfl | ⟨hfree, hchannel, -, -, hnew, u, hu, hopen, hlocal, -, -, rfl⟩
      · exact h
      · exact h.of_createMulticast hnew.faces hu hopen hlocal hfree ((findChannel_eq_none s _).mp hchannel)
  | createFace remoteEndpoint persistency object uninitialized socketFails =>
      rcases createFace_cases hstep with rfl | ⟨-, -, -, channel, hmem, hconnect⟩
      · exact h
      · obtain ⟨x, hconnects⟩ := hreg.connect hconnect
        exact h.connects hconnects ⟨channel, hmem, rfl⟩
  | newPeer localEndpoint remoteEndpoint buffer object uninitialized =>
      obtain ⟨channel, hchannel, hpeer⟩ := Option.bind_eq_some_iff.mp hstep
      obtain ⟨x, s₁, v, hconnects, hv, rfl⟩ := hreg.handleNewPeer hpeer
      have hapart := h.connects hconnects ⟨channel, List.mem_of_find?_eq_some hchannel, rfl⟩
      exact hapart.receiveDatagram (hconnects.registered hreg).1 hv isPacket _
  | receive face input =>
      obtain ⟨v, hv, rfl⟩ := Option.map_eq_some_iff.mp hstep
      exact h.receiveDatagram hreg hv isPacket input
  | sendError face error =>
      obtain ⟨v, hv, rfl⟩ := Option.map_eq_some_iff.mp hstep
      exact h.processErrorCode hreg hv error
  | closeIfIdle face =>
      obtain ⟨v, hv, hrest⟩ := Option.bind_eq_some_iff.mp hstep
      split at hrest
      · cases hrest
        exact h.closeIfIdle hreg hv
      · cases hrest
  | destroyFace faceId =>
      cases hstep
      rcases destroyFace_cases s faceId with heq | ⟨x, v, -, hx, heq⟩
      · rwa [heq]
      · rw [heq]
        exact h.close hreg hx
  | addOther face =>
      simp only [UdpSystem.step] at hstep
      split at hstep
      · obtain ⟨table, -, rfl⟩ := Option.map_eq_some_iff.mp hstep
        exact ⟨h.nodup, h.prohibited, h.multicast, h.disjoint, h.channel⟩
      · cases hstep
  | failOther face =>
      simp only [UdpSystem.step] at hstep
      split at hstep
      · cases hstep
        exact ⟨h.nodup, h.prohibited, h.multicast, h.disjoint, h.channel⟩
      · cases hstep
  | advanceClock duration =>
      cases hstep
      exact ⟨h.nodup, h.prohibited, h.multicast, h.disjoint, h.channel⟩

theorem close_prohibitedEndpoints (s : UdpSystem) (x : Face) (v : UdpFace) :
    (s.close x v).prohibitedEndpoints = s.prohibitedEndpoints := by
  unfold close
  split
  · exact (fail_endpoints _ x v).2
  · rfl

theorem closeIfIdle_prohibitedEndpoints (s : UdpSystem) (x : Face) (v : UdpFace) :
    (s.closeIfIdle x v).prohibitedEndpoints = s.prohibitedEndpoints := by
  unfold closeIfIdle
  dsimp only
  split
  · split
    · exact close_prohibitedEndpoints _ _ _
    · rfl
  · rfl

theorem Registered.receiveDatagram_prohibitedEndpoints (h : s.Registered) (hf : s.faces f = some u)
    (isPacket : List UInt8 → Bool) (input : Except SocketError (List UInt8)) :
    (UdpSystem.receiveDatagram isPacket s f u input).prohibitedEndpoints = s.prohibitedEndpoints := by
  unfold UdpSystem.receiveDatagram
  split
  · rcases processErrorCode_cases h hf ‹_› with heq | ⟨-, heq⟩
    · rw [heq]
    · rw [heq]
      exact (fail_endpoints _ f u).2
  · split <;> rfl

/-- What is prohibited once stays so. -/
theorem Registered.step_prohibitedEndpoints (h : s.Registered) {isPacket : List UInt8 → Bool} {event : Event}
    (hstep : UdpSystem.step isPacket s event = some s') {endpoint : Endpoint}
    (hmem : endpoint ∈ s.prohibitedEndpoints) :
    endpoint ∈ s'.prohibitedEndpoints := by
  have hkept : s'.prohibitedEndpoints = s.prohibitedEndpoints → endpoint ∈ s'.prohibitedEndpoints :=
    fun heq => heq ▸ hmem
  cases event with
  | createChannel localEndpoint idleTimeout nics =>
      cases hstep
      rcases createChannel_cases s localEndpoint idleTimeout nics with heq | ⟨-, -, -, heq⟩
      · rwa [heq]
      · rw [heq]
        exact List.mem_append_right _ hmem
  | createMulticastFace localEndpoint multicastEndpoint object uninitialized socketFails =>
      rcases createMulticastFace_cases hstep with rfl | ⟨-, -, -, -, -, w, -, -, -, -, -, rfl⟩
      all_goals exact hmem
  | createFace remoteEndpoint persistency object uninitialized socketFails =>
      rcases createFace_cases hstep with rfl | ⟨-, -, -, channel, -, hconnect⟩
      · exact hmem
      · obtain ⟨x, hconnects⟩ := h.connect hconnect
        exact hkept (by cases hconnects <;> rfl)
  | newPeer localEndpoint remoteEndpoint buffer object uninitialized =>
      obtain ⟨channel, -, hpeer⟩ := Option.bind_eq_some_iff.mp hstep
      obtain ⟨x, s₁, v, hconnects, hv, rfl⟩ := h.handleNewPeer hpeer
      have hold : s₁.prohibitedEndpoints = s.prohibitedEndpoints := by cases hconnects <;> rfl
      exact hkept (((hconnects.registered h).1.receiveDatagram_prohibitedEndpoints hv isPacket _).trans hold)
  | receive face input =>
      obtain ⟨v, hv, rfl⟩ := Option.map_eq_some_iff.mp hstep
      exact hkept (h.receiveDatagram_prohibitedEndpoints hv isPacket input)
  | sendError face error =>
      obtain ⟨v, hv, rfl⟩ := Option.map_eq_some_iff.mp hstep
      exact hkept (h.receiveDatagram_prohibitedEndpoints hv isPacket (.error error))
  | closeIfIdle face =>
      obtain ⟨v, -, hrest⟩ := Option.bind_eq_some_iff.mp hstep
      split at hrest
      · cases hrest
        exact hkept (closeIfIdle_prohibitedEndpoints s face v)
      · cases hrest
  | destroyFace faceId =>
      cases hstep
      rcases destroyFace_cases s faceId with heq | ⟨x, v, -, -, heq⟩
      · rwa [heq]
      · rw [heq, close_prohibitedEndpoints]
        exact hmem
  | addOther face =>
      simp only [UdpSystem.step] at hstep
      split at hstep
      · obtain ⟨table, -, rfl⟩ := Option.map_eq_some_iff.mp hstep
        exact hmem
      · cases hstep
  | failOther face =>
      simp only [UdpSystem.step] at hstep
      split at hstep
      · cases hstep
        exact hmem
      · cases hstep
  | advanceClock duration =>
      cases hstep
      exact hmem

/-- `createFace` does not connect to a prohibited endpoint. -/
theorem createFace_prohibited (h : r ∈ s.prohibitedEndpoints) (persistency : FacePersistency) (object : Face)
    (uninitialized socketFails : Bool) : s.createFace r persistency object uninitialized socketFails = some s := by
  unfold createFace
  split
  · rfl
  · split <;> rfl

/-- A local endpoint has at most one channel, and no channel if it has a multicast face; every other face has a
channel. To an endpoint that was the node's own when a channel was created, `createFace` never connects again. -/
theorem udp_endpoints_apart {table : FaceTable} (htable : table.Sound) (isPacket : List UInt8 → Bool)
    (hr : Reach (step isPacket) anyStep (new table) s) :
    (s.channels.map Prod.fst).Nodup ∧
    (∀ c f, s.multicastFaces c = some f ↔
      ∃ u, s.faces f = some u ∧ u.isMultiAccess = true ∧ u.localEndpoint = c ∧ u.isOpen = true) ∧
    (∀ c f, s.multicastFaces c = some f → s.findChannel c = none) ∧
    (∀ f u, s.faces f = some u → u.isMultiAccess = false → s.findChannel u.localEndpoint ≠ none) ∧
    ∀ endpoint idleTimeout nics s' r persistency object uninitialized socketFails, s.findChannel endpoint = none →
      (s.createChannel endpoint idleTimeout nics).findChannel endpoint ≠ none →
      Reach (step isPacket) anyStep (s.createChannel endpoint idleTimeout nics) s' → r ∈ ownEndpoints nics endpoint →
      s'.createFace r persistency object uninitialized socketFails = some s' := by
  obtain ⟨h, hapart⟩ : s.Registered ∧ s.Apart := by
    refine hr.invariant (I := fun s => s.Registered ∧ s.Apart) ⟨new_registered htable, new_apart table⟩ ?_
    rintro s event s' ⟨h, hapart⟩ - hstep
    exact ⟨h.step hstep, hapart.step h hstep⟩
  refine ⟨hapart.nodup, fun c f => hapart.multicast, fun c f hf => ?_, fun f u hf hunicast => ?_, ?_⟩
  · exact (findChannel_eq_none s c).mpr (hapart.disjoint hf)
  · obtain ⟨channel, hmem, hsame⟩ := hapart.channel hf hunicast
    exact fun hnone => (findChannel_eq_none s _).mp hnone channel hmem hsame
  · intro endpoint idleTimeout nics s' r persistency object uninitialized socketFails hnone hcreated hr' hown
    rcases createChannel_cases s endpoint idleTimeout nics with heq | ⟨-, -, -, heq⟩
    · rw [heq] at hcreated
      exact absurd hnone hcreated
    · refine createFace_prohibited (hr'.invariant (I := fun s' => s'.Registered ∧
        r ∈ s'.prohibitedEndpoints) ?_ ?_).2 ..
      · have hstep : step isPacket s (.createChannel endpoint idleTimeout nics) =
            some (s.createChannel endpoint idleTimeout nics) := rfl
        refine ⟨h.step hstep, ?_⟩
        rw [heq]
        exact List.mem_append_left _ hown
      · rintro s₁ event s₂ ⟨h₁, hmem⟩ - hstep
        exact ⟨h₁.step hstep, h₁.step_prohibitedEndpoints hstep hmem⟩

/-- After a channel on all addresses is created, no face is created to the address of an interface. -/
theorem udp_endpoints_apart_interface :
    ∃ s, exec (step fun buffer => buffer.length == 2) (new FaceTable.empty)
        [.createChannel ⟨allV4Endpoint, 6363⟩ 600 [⟨[.v4 #v[192, 0, 2, 1]], [], none⟩],
          .newPeer ⟨allV4Endpoint, 6363⟩ ⟨.v4 #v[192, 0, 2, 9], 6363⟩ [5, 0] 1 false] = some s ∧
      s.createFace peer .persistent 2 false false = some s := by
  obtain ⟨s, hs⟩ := Option.isSome_iff_exists.mp (show
    (exec (step fun buffer => buffer.length == 2) (new FaceTable.empty)
      [.createChannel ⟨allV4Endpoint, 6363⟩ 600 [⟨[.v4 #v[192, 0, 2, 1]], [], none⟩],
        .newPeer ⟨allV4Endpoint, 6363⟩ ⟨.v4 #v[192, 0, 2, 9], 6363⟩ [5, 0] 1 false]).isSome = true by decide +kernel)
  obtain ⟨s₁, hs₁, hrest⟩ := Option.bind_eq_some_iff.mp hs
  cases hs₁
  refine ⟨s, hs, (udp_endpoints_apart FaceTable.empty_sound (fun buffer => buffer.length == 2) Reach.start).2.2.2.2
    ⟨allV4Endpoint, 6363⟩ 600 [⟨[.v4 #v[192, 0, 2, 1]], [], none⟩] s peer .persistent 2 false false ?_ ?_
    (reach_of_exec Reach.start hrest) ?_⟩
  · decide +kernel
  · decide +kernel
  · decide +kernel

end UdpSystem
end NfdPitless
