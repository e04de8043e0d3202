import NfdPitless.NetworkPackets

/-! Networks of PITless forwarders with fixed routes. Such a forwarder keeps nothing of an Interest, so where a
packet goes is decided by the routes of its name alone: an Interest by that of the content, a Data by that of
the supporting name it was asked under. Along loop-free routes the network drains, and what it was given has
arrived by then; an Interest that misses every cache makes as many hops as its route has. -/

namespace NfdPitless

open Forwarder (CrossesLocalhost isViolatingLocalhost_iff)

/-- The first next hop that can be used, if it has a valid id. -/
def usableFace (faceId : Face → Option Nat) (inFace : Face) (nexthops : List Face) : Option Face :=
  (firstUsable faceId inFace nexthops).filter fun outFace => (faceId outFace).isSome

namespace PitlessForwarder

variable {κ : Type} {P : Platform κ} {s s' : PitlessState κ}

theorem onContentStoreMiss_log (s : PitlessState κ) (inFace : Face) (interest : Interest) (nexthops : List Face) :
    (onContentStoreMiss s inFace interest nexthops).log =
      s.log ++ (usableFace s.faceId inFace nexthops).toList.map fun outFace => .outInterest outFace interest := by
  have hfirst : nexthops.find? (canForwardToNextHop s inFace) = firstUsable s.faceId inFace nexthops := rfl
  unfold onContentStoreMiss afterReceiveInterestPITless usableFace
  rw [hfirst]
  cases firstUsable s.faceId inFace nexthops with
  | none => exact (List.append_nil _).symm
  | some outFace =>
      dsimp only
      unfold onOutgoingInterestPITless
      cases hid : s.faceId outFace with
      | none => simp [Option.filter, hid]
      | some id => simp [Option.filter, hid, PitlessState.logged]

theorem onOutgoingData_cases (s : PitlessState κ) (data : Data) (outFace : Face) :
    (s.faceId outFace = none ∨ CrossesLocalhost P outFace data.name) ∧ onOutgoingData P s data outFace = s ∨
      (s.faceId outFace).isSome ∧ onOutgoingData P s data outFace = s.logged (.outData outFace data) := by
  unfold onOutgoingData
  cases hid : s.faceId outFace with
  | none => exact Or.inl ⟨Or.inl rfl, rfl⟩
  | some id =>
      rw [if_neg (by simp)]
      split
      · rename_i hscope
        exact Or.inl ⟨Or.inr (isViolatingLocalhost_iff.mp hscope), rfl⟩
      · exact Or.inr ⟨rfl, rfl⟩

/-- What an Interest leads to: it is dropped, answered from the content store or forwarded. -/
theorem onIncomingInterest_log {inFace : Face} {interest : Interest} {nexthops : List Face}
    (h : onIncomingInterest P s inFace interest nexthops = some s') :
    ∃ outs, s'.log = s.log ++ .inInterest inFace interest :: outs ∧
      (CrossesLocalhost P inFace interest.name ∧ outs = [] ∨
        (∃ data, (P.store.find s.cs s.now interest).2 = some data ∧ (outs = [] ∨ outs = [.outData inFace data])) ∨
        (P.store.find s.cs s.now interest).2 = none ∧
          outs = (usableFace s.faceId inFace nexthops).toList.map fun outFace => .outInterest outFace interest) := by
  rcases onIncomingInterest_cases h with ⟨hscope, rfl⟩ | ⟨-, ⟨data, hfind, rfl⟩ | ⟨hfind, rfl⟩⟩
  · exact ⟨[], rfl, Or.inl ⟨isViolatingLocalhost_iff.mp hscope, rfl⟩⟩
  · rcases onOutgoingData_cases (P := P) (lookedUp P s inFace interest) data inFace with ⟨-, hsend⟩ | ⟨-, hsend⟩
    · exact ⟨[], by rw [hsend]; rfl, Or.inr (Or.inl ⟨data, hfind, Or.inl rfl⟩)⟩
    · exact ⟨[.outData inFace data], by rw [hsend]; simp [PitlessState.logged, lookedUp],
        Or.inr (Or.inl ⟨data, hfind, Or.inr rfl⟩)⟩
  · rw [onContentStoreMiss_log]
    exact ⟨_, by simp [PitlessState.logged, lookedUp], Or.inr (Or.inr ⟨hfind, rfl⟩)⟩

/-- What a Data leads to: it is dropped or forwarded. -/
theorem onIncomingData_log (s : PitlessState κ) (inFace : Face) (data : Data) (nexthops : List Face) :
    ∃ outs, (onIncomingData P s inFace data nexthops).log = s.log ++ .inData inFace data :: outs ∧
      (((CrossesLocalhost P inFace data.supportingName ∨ ∃ outFace, CrossesLocalhost P outFace data.name) ∧
          outs = []) ∨
        outs = (usableFace s.faceId inFace nexthops).toList.map fun outFace => .outData outFace data) := by
  unfold onIncomingData
  dsimp only
  split
  · rename_i hscope
    exact ⟨[], rfl, Or.inl ⟨Or.inl (isViolatingLocalhost_iff.mp hscope), rfl⟩⟩
  · have hfirst : nexthops.find? (canForwardToNextHop { s.logged (.inData inFace data) with
        cs := P.store.insert s.cs s.now data false } inFace) = firstUsable s.faceId inFace nexthops := rfl
    have hcs : P.store.insert (s.logged (.inData inFace data)).cs (s.logged (.inData inFace data)).now data false =
        P.store.insert s.cs s.now data false := rfl
    rw [hcs, hfirst]
    cases hfind : firstUsable s.faceId inFace nexthops with
    | none => exact ⟨[], rfl, Or.inr (by simp [usableFace, hfind])⟩
    | some outFace =>
        dsimp only
        have hne : outFace ≠ inFace := by
          rintro rfl
          have hids := List.find?_some hfind
          simp at hids
        rw [if_neg hne]
        rcases onOutgoingData_cases (P := P) _ data outFace with ⟨hno, hsend⟩ | ⟨hid, hsend⟩
        · refine ⟨[], by rw [hsend]; rfl, ?_⟩
          rcases hno with hid | hcross
          · have hid : s.faceId outFace = none := hid
            exact Or.inr (by simp [usableFace, hfind, Option.filter, hid])
          · exact Or.inl ⟨Or.inr ⟨outFace, hcross⟩, rfl⟩
        · have hid : (s.faceId outFace).isSome := hid
          exact ⟨[.outData outFace data], by rw [hsend]; simp [PitlessState.logged],
            Or.inr (by simp [usableFace, hfind, Option.filter, hid])⟩

/-- The event brings a packet with the next hops of its name, and changes no face's id. -/
def FollowsRoutes (nexthops : Name → List Face) : Event → Prop
  | .incomingInterest _ interest hops => hops = nexthops interest.name
  | .incomingData _ data hops => hops = nexthops data.name
  | .setFaceId _ _ => False
  | _ => True

/-- What it received a forwarder has forwarded along the routes, but for the Interests that a Data it received
could answer, and for packets with a name under `/localhost`; its own strategy is installed. -/
structure Served (P : Platform κ) (faceId : Face → Option Nat) (nexthops : Name → List Face)
    (holds : κ → Data → Prop) (s : PitlessState κ) : Prop where
  faceId_eq : s.faceId = faceId
  ready : ForwarderKind.pitless.Ready s.strategyChoice
  cached : ∀ {d}, holds s.cs d → ∃ face, .inData face d ∈ s.log
  data : ∀ {inFace d outFace}, .inData inFace d ∈ s.log → ¬ localhostName <+: d.name →
    ¬ localhostName <+: d.supportingName → usableFace faceId inFace (nexthops d.name) = some outFace →
    .outData outFace d ∈ s.log
  interest : ∀ {inFace i outFace}, .inInterest inFace i ∈ s.log → ¬ localhostName <+: i.name →
    usableFace faceId inFace (nexthops i.name) = some outFace → .outInterest outFace i ∈ s.log ∨
      ∃ face d, .inData face d ∈ s.log ∧ P.matchesData i.name i.selectors d = true

theorem new_served (P : Platform κ) (faceId : Face → Option Nat) (nexthops : Name → List Face)
    {holds : κ → Data → Prop} {cs : κ} (hcs : ∀ d, ¬ holds cs d) :
    Served P faceId nexthops holds (PitlessState.new faceId cs) where
  faceId_eq := rfl
  ready := ForwarderKind.pitless.constructed_ready
  cached hd := absurd hd (hcs _)
  data hmem := by simp [PitlessState.new] at hmem
  interest hmem := by simp [PitlessState.new] at hmem

variable {faceId : Face → Option Nat} {nexthops : Name → List Face} {holds : κ → Data → Prop}

/-- More is logged, and what was received in addition is served. -/
theorem Served.append (h : Served P faceId nexthops holds s) {items : List PitlessItem}
    (hlog : s'.log = s.log ++ items) (hid : s'.faceId = s.faceId)
    (hready : ForwarderKind.pitless.Ready s'.strategyChoice)
    (hcached : ∀ d, holds s'.cs d → holds s.cs d ∨ ∃ face, .inData face d ∈ items)
    (hdata : ∀ inFace d outFace, .inData inFace d ∈ items → ¬ localhostName <+: d.name →
      ¬ localhostName <+: d.supportingName → usableFace faceId inFace (nexthops d.name) = some outFace →
      .outData outFace d ∈ items)
    (hinterest : ∀ inFace i outFace, .inInterest inFace i ∈ items → ¬ localhostName <+: i.name →
      usableFace faceId inFace (nexthops i.name) = some outFace → .outInterest outFace i ∈ items ∨
        ∃ face d, .inData face d ∈ s.log ∧ P.matchesData i.name i.selectors d = true) :
    Served P faceId nexthops holds s' where
  faceId_eq := hid.trans h.faceId_eq
  ready := hready
  cached {d} hd := by
    rw [hlog]
    rcases hcached d hd with hold | ⟨face, hmem⟩
    · obtain ⟨face, hmem⟩ := h.cached hold
      exact ⟨face, List.mem_append_left _ hmem⟩
    · exact ⟨face, List.mem_append_right _ hmem⟩
  data {inFace d outFace} hmem hname hcontent hface := by
    rw [hlog] at hmem ⊢
    rcases List.mem_append.mp hmem with hold | hnew
    · exact List.mem_append_left _ (h.data hold hname hcontent hface)
    · exact List.mem_append_right _ (hdata inFace d outFace hnew hname hcontent hface)
  interest {inFace i outFace} hmem hname hface := by
    rw [hlog] at hmem ⊢
    have hkept : (∃ face d, PitlessItem.inData face d ∈ s.log ∧ P.matchesData i.name i.selectors d = true) →
        ∃ face d, PitlessItem.inData face d ∈ s.log ++ items ∧ P.matchesData i.name i.selectors d = true :=
      fun ⟨face, d, hd, hmatch⟩ => ⟨face, d, List.mem_append_left _ hd, hmatch⟩
    rcases List.mem_append.mp hmem with hold | hnew
    · exact (h.interest hold hname hface).imp (fun h => List.mem_append_left _ h) hkept
    · exact (hinterest inFace i outFace hnew hname hface).imp (fun h => List.mem_append_right _ h) hkept

/-- A step that logs nothing. -/
theorem Served.same (h : Served P faceId nexthops holds s) (hlog : s'.log = s.log) (hid : s'.faceId = s.faceId)
    (hready : ForwarderKind.pitless.Ready s'.strategyChoice) (hcached : ∀ d, holds s'.cs d → holds s.cs d) :
    Served P faceId nexthops holds s' :=
  h.append (by rw [hlog, List.append_nil]) hid hready (fun d hd => Or.inl (hcached d hd)) (by simp) (by simp)

theorem Served.step (h : Served P faceId nexthops holds s) (hsound : P.store.Sound P.matchesData)
    (hhonest : P.store.Honest holds) {event : Event} (hroutes : FollowsRoutes nexthops event)
    (hstep : step P s event = some s') : Served P faceId nexthops holds s' := by
  cases event with
  | incomingInterest inFace interest hops =>
      obtain ⟨outs, hlog, hcases⟩ := onIncomingInterest_log hstep
      obtain ⟨hid, hchoice⟩ := onIncomingInterest_tables hstep
      -- what goes out after an Interest is nothing that comes in
      have houts : ∀ x ∈ outs, x.received = none := by
        rcases hcases with ⟨-, rfl⟩ | ⟨data, -, rfl | rfl⟩ | ⟨-, rfl⟩
        · simp
        · simp
        · simp [PitlessItem.received]
        · intro x hx
          obtain ⟨outFace, -, rfl⟩ := List.mem_map.mp hx
          rfl
      refine h.append hlog hid (hchoice ▸ h.ready) (fun d hd => Or.inl ?_)
        (fun f d outFace hmem => ?_) fun f i outFace hmem hname hface => ?_
      · rcases onIncomingInterest_cs hstep with hcs | hcs
        · rwa [hcs] at hd
        · rw [hcs] at hd
          exact hhonest.find hd
      · rcases List.mem_cons.mp hmem with heq | hmem
        · cases heq
        · cases houts _ hmem
      · rcases List.mem_cons.mp hmem with heq | hmem
        · cases heq
          rcases hcases with ⟨hcross, -⟩ | ⟨data, hfind, -⟩ | ⟨-, rfl⟩
          · exact absurd hcross.2 hname
          · obtain ⟨face, hin⟩ := h.cached (hhonest.found hfind)
            exact Or.inr ⟨face, data, hin, hsound _ _ _ _ _ (Prod.ext rfl hfind)⟩
          · refine Or.inl (List.mem_cons_of_mem _ (List.mem_map.mpr ⟨outFace, ?_, rfl⟩))
            rw [h.faceId_eq, hroutes, hface]
            exact List.mem_singleton_self _
        · cases houts _ hmem
  | incomingData inFace data hops =>
      cases hstep
      obtain ⟨outs, hlog, hcases⟩ := onIncomingData_log (P := P) s inFace data hops
      have houts : ∀ x ∈ outs, x.received = none := by
        rcases hcases with ⟨-, rfl⟩ | rfl
        · simp
        · intro x hx
          obtain ⟨outFace, -, rfl⟩ := List.mem_map.mp hx
          rfl
      obtain ⟨hid, hchoice⟩ := onIncomingData_tables (P := P) s inFace data hops
      refine h.append hlog hid (hchoice ▸ h.ready) (fun d hd => ?_)
        (fun f d outFace hmem hname hcontent hface => ?_) fun f i outFace hmem => ?_
      · rcases onIncomingData_cs (P := P) s inFace data hops with hcs | hcs
        · rw [hcs] at hd
          exact Or.inl hd
        · rw [hcs] at hd
          rcases hhonest.insert hd with rfl | hold
          · exact Or.inr ⟨inFace, List.mem_cons_self⟩
          · exact Or.inl hold
      · rcases List.mem_cons.mp hmem with heq | hmem
        · cases heq
          rcases hcases with ⟨hcross | ⟨outFace', hcross⟩, -⟩ | rfl
          · exact absurd hcross.2 hcontent
          · exact absurd hcross.2 hname
          · refine List.mem_cons_of_mem _ (List.mem_map.mpr ⟨outFace, ?_, rfl⟩)
            rw [h.faceId_eq, hroutes, hface]
            exact List.mem_singleton_self _
        · cases houts _ hmem
      · rcases List.mem_cons.mp hmem with heq | hmem
        · cases heq
        · cases houts _ hmem
  | contentStoreTimer key =>
      cases hstep
      exact h.same rfl rfl h.ready fun d hd => hhonest.timer hd
  | strategyChoice op =>
      obtain ⟨T, hT, rfl⟩ := Option.map_eq_some_iff.mp hstep
      exact h.same rfl rfl (h.ready.step hT) fun _ hd => hd
  | setFaceId face id => exact hroutes.elim
  | advanceClock duration =>
      cases hstep
      exact h.same rfl rfl h.ready fun _ hd => hd

end PitlessForwarder

/-! ### Fixed routes -/

/-- How the faces of a network are linked and numbered, and the next hops that each router's FIB has for a
name. -/
structure Layout (ν : Type) where
  links : Links ν Face
  faceId : ν → Face → Option Nat
  nexthops : ν → Name → List Face

namespace Layout

variable {ν κ : Type} (t : Layout ν)

/-- Where a packet goes that came in at a face, by the routes of a name. -/
def outFace (name : Name) (n : ν) (inFace : Face) : Option Face :=
  usableFace (t.faceId n) inFace (t.nexthops n name)

/-- The PITless forwarders forward along the routes. -/
def Follows (n : ν) (_ : RouterState κ) : RouterEvent → Prop
  | .pitless event => PitlessForwarder.FollowsRoutes (t.nexthops n) event
  | _ => True

/-- From a face of a PITless forwarder, hop by hop, the routes of a name lead to the face `face` of `m`. -/
inductive Route (kind : ν → RouterKind) (name : Name) (m : ν) (face : Face) : ν → Face → Prop where
  | here : Route kind name m face m face
  | hop (n n' : ν) (inFace outFace inFace' : Face) : kind n = .pitless → t.outFace name n inFace = some outFace →
      t.links.peer n outFace = some (n', inFace') → Route kind name m face n' inFace' →
      Route kind name m face n inFace

end Layout

section Network

open PitlessForwarder (Served)

variable {ν κ : Type} [DecidableEq ν] {routers : ν → Router κ} {t : Layout ν} {kind : ν → RouterKind}
  {holds : κ → Data → Prop} {matchesData : MatchesData} {nBuckets : ν → Nat} {cs : ν → κ}
  {net : NetworkState ν (RouterState κ) Face FacePacket} {n m : ν} {inFace face : Face}

/-- Routers whose content stores hold what was inserted and hit on matches. -/
structure SoundRouters (matchesData : MatchesData) (holds : κ → Data → Prop) (kind : ν → RouterKind)
    (routers : ν → Router κ) (cs : ν → κ) : Prop where
  kind_eq : ∀ n, (routers n).kind = kind n
  matches_eq : ∀ n, (routers n).platform.matchesData = matchesData
  sound : ∀ n, (routers n).platform.store.Sound matchesData
  honest : ∀ n, (routers n).platform.store.Honest holds
  empty : ∀ n d, ¬ holds (cs n) d

omit [DecidableEq ν] in
theorem builtin_soundRouters {π : Type} (cityHash : Component → UInt64) (makeEntry : Name → UInt32 → UInt64)
    (digest : Data → List UInt8) (getSuccessor : Name → Name) (matchesData : MatchesData)
    (isLocal : ν → Face → Bool) (policy : ν → CsPolicy π) (policyState : ν → π) (kind : ν → RouterKind) :
    SoundRouters matchesData Cs.Holds kind
      (builtinRouters cityHash makeEntry digest getSuccessor matchesData isLocal policy kind)
      (fun n => ⟨[], policyState n⟩) where
  kind_eq _ := rfl
  matches_eq _ := rfl
  sound n := Cs.contentStore_sound (policy n)
  honest n := Cs.contentStore_honest (policy n)
  empty n := Cs.not_holds_empty (policyState n)

omit [DecidableEq ν] in
/-- A PITless forwarder that follows the routes has served what it received. -/
theorem node_served (hrouters : SoundRouters matchesData holds kind routers cs) (hkind : kind n = .pitless)
    {state : RouterState κ}
    (hr : Reach (routers n).step (t.Follows n) ((routers n).new (nBuckets n) (t.faceId n) (cs n)) state) :
    ∃ s, state = .pitless s ∧ Served (routers n).platform (t.faceId n) (t.nexthops n) holds s := by
  have hpitless : (routers n).kind = .pitless := (hrouters.kind_eq n).trans hkind
  refine hr.invariant (I := fun state =>
    ∃ s, state = .pitless s ∧ Served (routers n).platform (t.faceId n) (t.nexthops n) holds s) ?_ ?_
  · refine ⟨.new (t.faceId n) (cs n), ?_, PitlessForwarder.new_served _ _ _ (hrouters.empty n)⟩
    rw [Router.new, hpitless]
  · rintro state event state' ⟨s, rfl, hs⟩ hok hstep
    rcases Router.step_cases hstep with ⟨s₁, s', e, hk, -⟩ | ⟨supportingName, s₁, s', e, hk, -⟩ |
      ⟨s₁, s', e, -, heq, rfl, rfl, hrun⟩
    · rw [hpitless] at hk
      cases hk
    · rw [hpitless] at hk
      cases hk
    · cases heq
      refine ⟨s', rfl, hs.step ?_ (hrouters.honest n) hok hrun⟩
      rw [hrouters.matches_eq n]
      exact hrouters.sound n

theorem reach_served (hrouters : SoundRouters matchesData holds kind routers cs)
    (hr : Reach (PacketNetwork.step (routerComponents routers) t.links) (PacketNetwork.Meets t.Follows)
      (startedNetwork routers nBuckets t.faceId cs) net) (hkind : kind n = .pitless) :
    ∃ s, net.node n = .pitless s ∧ Served (routers n).platform (t.faceId n) (t.nexthops n) holds s :=
  node_served hrouters hkind (PacketNetwork.reach_node hr n)

theorem mem_sent_pitless {s : PitlessState κ} {item : PitlessItem} {x : Face × FacePacket} (hitem : item ∈ s.log)
    (hx : item.sent = some x) : x ∈ (RouterState.pitless s).sent :=
  List.mem_filterMap.mpr ⟨item, hitem, hx⟩

theorem mem_received_pitless {s : PitlessState κ} {x : Face × FacePacket}
    (hx : x ∈ (RouterState.pitless s).received) : ∃ item ∈ s.log, item.received = some x :=
  List.mem_filterMap.mp hx

/-- A run of the network in which the PITless forwarders follow the routes and no packet is lost. -/
abbrev RoutedRun (routers : ν → Router κ) (t : Layout ν) (nBuckets : ν → Nat) (cs : ν → κ)
    (net : NetworkState ν (RouterState κ) Face FacePacket) : Prop :=
  Reach (PacketNetwork.step (routerComponents routers) t.links)
    (fun net event => PacketNetwork.Meets t.Follows net event ∧ PacketNetwork.Lossless event)
    (startedNetwork routers nBuckets t.faceId cs) net

/-- What was sent over a link has arrived when nothing is in flight. -/
theorem RoutedRun.arrives (hr : RoutedRun routers t nBuckets cs net) (hsettled : net.inFlight = [])
    {packet : FacePacket} (hpeer : t.links.peer n face = some (m, inFace))
    (hsent : (face, packet) ∈ (net.node n).sent) : (inFace, packet) ∈ (net.node m).received := by
  rcases PacketNetwork.sent_arrives hr (startedNetwork_fresh routers nBuckets t.faceId cs) hpeer hsent with
    hflight | hreceived
  · rw [hsettled] at hflight
    cases hflight
  · exact hreceived

/-- When nothing is in flight, a Data that a router received has come to the end of the route of its name. -/
theorem RoutedRun.data_transits (hr : RoutedRun routers t nBuckets cs net)
    (hrouters : SoundRouters matchesData holds kind routers cs) (hsettled : net.inFlight = []) {data : Data}
    (hname : ¬ localhostName <+: data.name) (hcontent : ¬ localhostName <+: data.supportingName)
    (hroute : t.Route kind data.name m face n inFace) (hreceived : (inFace, .data data) ∈ (net.node n).received) :
    (face, .data data) ∈ (net.node m).received := by
  induction hroute with
  | here => exact hreceived
  | hop n n' inFace outFace inFace' hkind hout hpeer _ ih =>
      obtain ⟨s, hs, hserved⟩ := reach_served hrouters (hr.mono fun _ _ h => h.1) hkind
      rw [hs] at hreceived
      obtain ⟨item, hitem, heq⟩ := mem_received_pitless hreceived
      cases item with
      | inData face' data' =>
          cases heq
          refine ih (hr.arrives hsettled hpeer ?_)
          rw [hs]
          exact mem_sent_pitless (hserved.data hitem hname hcontent hout) rfl
      | _ => cases heq

/-- When nothing is in flight, an Interest that a router received has come to the end of the route of its name,
unless a PITless forwarder received a Data that it matches. -/
theorem RoutedRun.interest_transits (hr : RoutedRun routers t nBuckets cs net)
    (hrouters : SoundRouters matchesData holds kind routers cs) (hsettled : net.inFlight = []) {interest : Interest}
    (hname : ¬ localhostName <+: interest.name) (hroute : t.Route kind interest.name m face n inFace)
    (hreceived : (inFace, .interest interest) ∈ (net.node n).received) :
    (face, .interest interest) ∈ (net.node m).received ∨
      ∃ x port data, kind x = .pitless ∧ (port, .data data) ∈ (net.node x).received ∧
        matchesData interest.name interest.selectors data = true := by
  induction hroute with
  | here => exact Or.inl hreceived
  | hop n n' inFace outFace inFace' hkind hout hpeer _ ih =>
      obtain ⟨s, hs, hserved⟩ := reach_served hrouters (hr.mono fun _ _ h => h.1) hkind
      rw [hs] at hreceived
      obtain ⟨item, hitem, heq⟩ := mem_received_pitless hreceived
      cases item with
      | inInterest face' interest' =>
          cases heq
          rcases hserved.interest hitem hname hout with hsent | ⟨port, data, hdata, hmatch⟩
          · refine ih (hr.arrives hsettled hpeer ?_)
            rw [hs]
            exact mem_sent_pitless hsent rfl
          · refine Or.inr ⟨n, port, data, hkind, ?_, by rw [← hrouters.matches_eq n]; exact hmatch⟩
            rw [hs]
            exact List.mem_filterMap.mpr ⟨_, hdata, rfl⟩
      | _ => cases heq

/-- An Interest carries the supporting name. -/
def FacePacket.SupportedBy (supportingName : Name) : FacePacket → Prop
  | .interest i => i.supportingName = supportingName
  | .data _ => True

/-- The Interests that a bridge sent carry its name. -/
theorem bridge_supportingName {ok : ν → RouterState κ → RouterEvent → Prop}
    (hrouters : SoundRouters matchesData holds kind routers cs)
    (hr : Reach (PacketNetwork.step (routerComponents routers) t.links) (PacketNetwork.Meets ok)
      (startedNetwork routers nBuckets t.faceId cs) net) {supportingName : Name}
    (hkind : kind n = .bridge supportingName) {interest : Interest}
    (hsent : (face, .interest interest) ∈ (net.node n).sent) : interest.supportingName = supportingName := by
  have hbridge : (routers n).kind = .bridge supportingName := (hrouters.kind_eq n).trans hkind
  have hcarries : (net.node n).Carries (FacePacket.SupportedBy supportingName) holds := by
    refine (PacketNetwork.reach_node hr n).invariant
      (I := fun state => state.Carries (FacePacket.SupportedBy supportingName) holds)
      ((routers n).new_carries (nBuckets n) (t.faceId n) (hrouters.empty n)) ?_
    intro state event state' h _ hstep
    rcases Router.step_cases hstep with ⟨s₁, s', e, hk, -⟩ | ⟨name, s₁, s', e, hk, rfl, rfl, rfl, hrun⟩ |
      ⟨s₁, s', e, hk, -⟩
    · rw [hbridge] at hk
      cases hk
    · rw [hbridge] at hk
      cases hk
      exact BridgeForwarder.carries_step h (hrouters.honest n) (fun _ _ hi => hi) (fun _ _ => trivial)
        (fun _ _ _ => trivial) (fun _ _ _ => rfl) hrun
    · rw [hbridge] at hk
      cases hk
  exact hcarries.sent_satisfies _ hsent

end Network

/-- A network of bridges and PITless forwarders, in which the latter follow fixed routes and no packet is lost,
whatever else happens. When nothing is in flight, a bridge that sent an Interest has received a Data for its
name, under the bridge's own name, if the routes of the content's name lead to a producer that answers and those
of the bridge's name lead back; unless a PITless forwarder received a Data that the Interest matches. -/
theorem round_trip {ν π : Type} [DecidableEq ν] (cityHash : Component → UInt64)
    (makeEntry : Name → UInt32 → UInt64) (digest : Data → List UInt8) (getSuccessor : Name → Name)
    (matchesData : MatchesData) (isLocal : ν → Face → Bool) (policy : ν → CsPolicy π) (policyState : ν → π)
    (kind : ν → RouterKind) (nBuckets : ν → Nat) (t : Layout ν)
    (net : NetworkState ν (RouterState (Cs π)) Face FacePacket)
    (hr : RoutedRun (builtinRouters cityHash makeEntry digest getSuccessor matchesData isLocal policy kind) t
      nBuckets (fun n => ⟨[], policyState n⟩) net) (hsettled : net.inFlight = [])
    (bridge first last : ν) (outFace inFace lastFace producer backFace : Face) (supportingName : Name)
    (interest : Interest) (hbridge : kind bridge = .bridge supportingName)
    (hsent : (outFace, .interest interest) ∈ (net.node bridge).sent)
    (hlink : t.links.peer bridge outFace = some (first, inFace))
    (hthere : t.Route kind interest.name last lastFace first inFace) (hlast : kind last = .pitless)
    (hproducer : t.outFace interest.name last lastFace = some producer)
    (hanswers : ∀ asked, (producer, .interest asked) ∈ (net.node last).sent → ∃ data,
      (producer, .data data) ∈ (net.node last).received ∧ data.name = asked.supportingName ∧
        data.supportingName = asked.name)
    (hback : t.Route kind supportingName bridge backFace last producer)
    (hcontent : ¬ localhostName <+: interest.name) (hname : ¬ localhostName <+: supportingName) :
    (∃ data, (backFace, .data data) ∈ (net.node bridge).received ∧ data.name = supportingName ∧
      data.supportingName = interest.name) ∨
    ∃ x port data, kind x = .pitless ∧ (port, .data data) ∈ (net.node x).received ∧
      matchesData interest.name interest.selectors data = true := by
  have hrouters := builtin_soundRouters cityHash makeEntry digest getSuccessor matchesData isLocal policy
    policyState kind
  have hsupports := bridge_supportingName hrouters (hr.mono fun _ _ h => h.1) hbridge hsent
  rcases hr.interest_transits hrouters hsettled hcontent hthere (hr.arrives hsettled hlink hsent) with
    hasked | hcached
  · -- the last router forwards to the producer, who answers
    obtain ⟨s, hs, hserved⟩ := reach_served hrouters (hr.mono fun _ _ h => h.1) hlast
    rw [hs] at hasked
    obtain ⟨item, hitem, heq⟩ := mem_received_pitless hasked
    cases item with
    | inInterest face' interest' =>
        cases heq
        rcases hserved.interest hitem hcontent hproducer with hforwarded | ⟨port, data, hdata, hmatch⟩
        · obtain ⟨data, hreceived, hdataName, hdataContent⟩ := hanswers interest (by
            rw [hs]
            exact mem_sent_pitless hforwarded rfl)
          rw [hsupports] at hdataName
          refine Or.inl ⟨data, ?_, hdataName, hdataContent⟩
          exact hr.data_transits hrouters hsettled (by rwa [hdataName]) (by rwa [hdataContent])
            (by rwa [hdataName]) hreceived
        · refine Or.inr ⟨last, port, data, hlast, ?_, hmatch⟩
          rw [hs]
          exact List.mem_filterMap.mpr ⟨_, hdata, rfl⟩
    | _ => cases heq
  · exact Or.inr hcached

/-- The routes of the line: `/A` is at its end, `/B` is the bridge. -/
def lineLayout : Layout Nat where
  links := lineLinks
  faceId _ := some
  nexthops _ name := if name = [.ofByte 65] then [2] else [1]

/-- The producer of the line has answered. -/
theorem lineEvents_received :
    (exec (PacketNetwork.step (routerComponents lineRouters) lineLinks) lineNetwork lineEvents).map
      (fun net => ((net.node 2).sent, (net.node 2).received, net.inFlight.length)) =
    some ([(2, .interest bridgedInterest), (1, .data bridgedData)],
      [(1, .interest bridgedInterest), (2, .data bridgedData)], 0) := by
  decide +kernel

theorem lineEvents_follow (event : NetworkEvent Nat RouterEvent) (hevent : event ∈ lineEvents)
    (net : NetworkState Nat (RouterState (Cs Unit)) Face FacePacket) :
    PacketNetwork.Meets lineLayout.Follows net event ∧ PacketNetwork.Lossless event := by
  have hcontent : ∀ n, [2] = lineLayout.nexthops n bridgedInterest.name := fun _ => rfl
  have hname : ∀ n, [1] = lineLayout.nexthops n bridgedData.name := fun _ => rfl
  simp only [lineEvents, List.mem_cons, List.not_mem_nil, or_false] at hevent
  rcases hevent with rfl | rfl | rfl | rfl | rfl | rfl
  · exact ⟨trivial, trivial⟩
  · exact ⟨fun n _ _ _ => hcontent n, trivial⟩
  · exact ⟨fun n _ _ _ => hcontent n, trivial⟩
  · exact ⟨hname 2, trivial⟩
  · exact ⟨fun n _ _ _ => hname n, trivial⟩
  · exact ⟨fun _ _ _ _ => trivial, trivial⟩

/-- The Data came back to the bridge of the line. -/
theorem round_trip_line :
    ∃ net, exec (PacketNetwork.step (routerComponents lineRouters) lineLinks) lineNetwork lineEvents = some net ∧
      ((∃ data, (2, .data data) ∈ (net.node 0).received ∧ data.name = [.ofByte 66] ∧
        data.supportingName = bridgedInterest.name) ∨
      ∃ x port data, lineKind x = .pitless ∧ (port, .data data) ∈ (net.node x).received ∧
        matchesSuffix (fun _ => [0]) bridgedInterest.name bridgedInterest.selectors data = true) := by
  obtain ⟨net, hnet, hrun⟩ := Option.map_eq_some_iff.mp lineEvents_received
  obtain ⟨net', hnet', hsent⟩ := Option.map_eq_some_iff.mp lineEvents_sent
  obtain rfl : net = net' := Option.some.inj (hnet.symm.trans hnet')
  obtain ⟨hforwarded, hanswered, hflight⟩ := Prod.mk.inj hrun |>.imp_right Prod.mk.inj
  have hthere : lineLayout.Route lineKind [.ofByte 65] 2 1 1 1 :=
    .hop 1 2 1 2 1 rfl (by decide) rfl .here
  have hback : lineLayout.Route lineKind [.ofByte 66] 0 2 2 2 :=
    .hop 2 1 2 1 2 rfl (by decide) rfl (.hop 1 0 2 1 2 rfl (by decide) rfl .here)
  refine ⟨net, hnet, ?_⟩
  refine round_trip NameTree.octetHash _ (fun _ => [0]) incrementLast (matchesSuffix fun _ => [0])
    (fun _ _ => false) (fun _ => .keepAll) (fun _ => ()) lineKind (fun _ => 16) lineLayout net
    (reach_of_exec_all Reach.start lineEvents_follow hnet) (List.length_eq_zero_iff.mp hflight) 0 1 2 2 1 1 2 2
    [.ofByte 66] bridgedInterest rfl ?_ rfl hthere rfl (by decide) ?_ hback (by decide) (by decide)
  · rw [(Prod.mk.inj hsent).1]
    exact List.mem_cons_self
  · intro asked hasked
    rw [hforwarded] at hasked
    rw [hanswered]
    simp only [List.mem_cons, Prod.mk.injEq, List.not_mem_nil, or_false] at hasked
    rcases hasked with ⟨-, heq⟩ | ⟨hport, -⟩
    · cases heq
      exact ⟨bridgedData, by simp, rfl, rfl⟩
    · cases hport

end NfdPitless
