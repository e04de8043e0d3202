import NfdPitless.PitlessNetwork

/-! How far packets go in a network of PITless forwarders. A forwarder has no memory of what it forwarded and
packets carry no hop limit, so only the routes end a packet's way: along loop-free ones the network drains, and
an Interest in a routing loop is forwarded for ever. -/

namespace NfdPitless

namespace Layout

variable {ν : Type} (t : Layout ν)

/-- The next stop of a packet, by the routes of a name. -/
def hop (name : Name) (stop : ν × Face) : Option (ν × Face) :=
  (t.outFace name stop.1 stop.2).bind (t.links.peer stop.1)

/-- The stop after some hops. -/
def stop (name : Name) (start : ν × Face) : Nat → Option (ν × Face)
  | 0 => some start
  | k + 1 => (stop name start k).bind (t.hop name)

/-- A packet on its way to a stop. -/
def packetTo (packet : FacePacket) (stop : ν × Face) : ν × Face × FacePacket := (stop.1, stop.2, packet)

theorem stop_isSome_of_le {name : Name} {start : ν × Face} {j k : Nat} (hle : j ≤ k)
    (hk : (t.stop name start k).isSome) : (t.stop name start j).isSome := by
  induction k with
  | zero =>
      obtain rfl : j = 0 := Nat.le_zero.mp hle
      exact hk
  | succ k ih =>
      rcases Nat.le_succ_iff.mp hle with hle | rfl
      · obtain ⟨x, hx⟩ := Option.isSome_iff_exists.mp hk
        obtain ⟨y, hy, -⟩ := Option.bind_eq_some_iff.mp hx
        exact ih hle (Option.isSome_iff_exists.mpr ⟨y, hy⟩)
      · exact hk

end Layout

section Deliveries

open PitlessForwarder PacketNetwork

variable {ν κ : Type} {routers : ν → Router κ} {t : Layout ν} {n : ν} {s s' : PitlessState κ} {inFace : Face}

theorem emitted_pitless {items : List PitlessItem} (hlog : s'.log = s.log ++ items) :
    emitted (routerComponents routers) t.links n (.pitless s) (.pitless s') =
      (items.filterMap PitlessItem.sent).filterMap fun packet =>
        (t.links.peer n packet.1).map fun port => (port.1, port.2, packet.2) := by
  have hsent : (routerComponents routers).sent (.pitless s') =
      (routerComponents routers).sent (.pitless s) ++ items.filterMap PitlessItem.sent := by
    show s'.log.filterMap PitlessItem.sent = s.log.filterMap PitlessItem.sent ++ _
    rw [hlog, List.filterMap_append]
  rw [emitted, hsent, List.drop_left]

/-- What is sent on the usable face is on its way to the next stop. -/
theorem emitted_forwarded {packet : FacePacket} {item : Face → PitlessItem} {nexthops : List Face} {name : Name}
    (hitem : ∀ outFace, (item outFace).sent = some (outFace, packet)) (hhops : nexthops = t.nexthops n name) :
    (((usableFace (t.faceId n) inFace nexthops).toList.map item).filterMap PitlessItem.sent).filterMap
        (fun packet => (t.links.peer n packet.1).map fun port => (port.1, port.2, packet.2)) =
      ((t.hop name (n, inFace)).map (Layout.packetTo packet)).toList := by
  have hface : usableFace (t.faceId n) inFace nexthops = t.outFace name n inFace := by rw [hhops, Layout.outFace]
  have hsent : PitlessItem.sent ∘ item = fun outFace => some (outFace, packet) := funext hitem
  rw [hface, List.filterMap_map, hsent]
  unfold Layout.hop Layout.packetTo
  dsimp only
  cases t.outFace name n inFace with
  | none => rfl
  | some outFace =>
      simp only [Option.toList_some, List.filterMap_cons, List.filterMap_nil, Option.bind_some]
      cases hpeer : t.links.peer n outFace with
      | none => simp
      | some port => simp

/-- An Interest leads to nothing, to the Data that the content store hits on, back on its face, or to itself at
the next stop. -/
theorem emitted_interest {interest : Interest} {nexthops : List Face}
    (hrun : onIncomingInterest (routers n).platform s inFace interest nexthops = some s')
    (hid : s.faceId = t.faceId n) (hhops : nexthops = t.nexthops n interest.name) :
    ∃ outs, emitted (routerComponents routers) t.links n (.pitless s) (.pitless s') = outs ∧
      ((localhostName <+: interest.name ∧ outs = []) ∨
        (∃ data, ((routers n).platform.store.find s.cs s.now interest).2 = some data ∧
          (outs = [] ∨ outs = ((t.links.peer n inFace).map (Layout.packetTo (.data data))).toList)) ∨
        outs = ((t.hop interest.name (n, inFace)).map (Layout.packetTo (.interest interest))).toList) := by
  obtain ⟨items, hlog, hcases⟩ := onIncomingInterest_log hrun
  refine ⟨_, emitted_pitless hlog, ?_⟩
  rcases hcases with ⟨hcross, rfl⟩ | ⟨data, hfound, rfl | rfl⟩ | ⟨-, rfl⟩
  · exact Or.inl ⟨hcross.2, rfl⟩
  · exact Or.inr (Or.inl ⟨data, hfound, Or.inl rfl⟩)
  · refine Or.inr (Or.inl ⟨data, hfound, Or.inr ?_⟩)
    show List.filterMap _ [(inFace, FacePacket.data data)] = _
    cases hpeer : t.links.peer n inFace with
    | none => simp [hpeer]
    | some port => simp [hpeer, Layout.packetTo]
  · rw [hid]
    exact Or.inr (Or.inr (emitted_forwarded (fun _ => rfl) hhops))

/-- A Data leads to nothing or to itself at the next stop. -/
theorem emitted_data (routers : ν → Router κ) (inFace : Face) {data : Data} {nexthops : List Face}
    (hid : s.faceId = t.faceId n) (hhops : nexthops = t.nexthops n data.name) :
    ∃ outs, emitted (routerComponents routers) t.links n (.pitless s)
        (.pitless (onIncomingData (routers n).platform s inFace data nexthops)) = outs ∧
      (outs = [] ∨ outs = ((t.hop data.name (n, inFace)).map (Layout.packetTo (.data data))).toList) := by
  obtain ⟨items, hlog, hcases⟩ := onIncomingData_log (P := (routers n).platform) s inFace data nexthops
  refine ⟨_, emitted_pitless hlog, ?_⟩
  rcases hcases with ⟨-, rfl⟩ | rfl
  · exact Or.inl rfl
  · rw [hid]
    exact Or.inr (emitted_forwarded (fun _ => rfl) hhops)

end Deliveries

/-- The routes of every name lead down a ranking of the stops. -/
structure Layout.LoopFree {ν : Type} (t : Layout ν) (rank : Name → ν × Face → Nat) (bound : Nat) : Prop where
  descends : ∀ {name stop next}, t.hop name stop = some next → rank name next < rank name stop
  bounded : ∀ name stop, rank name stop ≤ bound

/-- An Interest may yet turn into a Data, at any stop. -/
def Layout.weight {ν : Type} (rank : Name → ν × Face → Nat) (bound : Nat) : ν × Face × FacePacket → Nat
  | (n, face, .data data) => rank data.name (n, face) + 1
  | (n, face, .interest interest) => rank interest.name (n, face) + bound + 2

section Network

open PacketNetwork PitlessForwarder

variable {ν κ : Type} [DecidableEq ν] {routers : ν → Router κ} {t : Layout ν} {kind : ν → RouterKind}
  {holds : κ → Data → Prop} {matchesData : MatchesData} {nBuckets : ν → Nat} {cs : ν → κ}
  {net net' : NetworkState ν (RouterState κ) Face FacePacket} {n : ν} {rank : Name → ν × Face → Nat} {bound : Nat}

omit [DecidableEq ν] in
/-- A PITless forwarder that follows the routes takes a packet as an Interest or as a Data. -/
theorem pitless_takes (hkind : (routers n).kind = .pitless) {s : PitlessState κ} {state' : RouterState κ}
    {event : RouterEvent} {face : Face} {packet : FacePacket} (hok : t.Follows n (.pitless s) event)
    (hintake : event.intake = some (face, packet)) (hstep : (routers n).step (.pitless s) event = some state') :
    (∃ interest nexthops s', packet = .interest interest ∧ nexthops = t.nexthops n interest.name ∧
      onIncomingInterest (routers n).platform s face interest nexthops = some s' ∧ state' = .pitless s') ∨
    ∃ data nexthops, packet = .data data ∧ nexthops = t.nexthops n data.name ∧
      state' = .pitless (onIncomingData (routers n).platform s face data nexthops) := by
  rcases Router.step_cases hstep with ⟨s₁, s', e, hk, -⟩ | ⟨supportingName, s₁, s', e, hk, -⟩ |
    ⟨s₁, s', e, -, heq, rfl, rfl, hrun⟩
  · rw [hkind] at hk
    cases hk
  · rw [hkind] at hk
    cases hk
  · cases heq
    cases e with
    | incomingInterest inFace interest nexthops =>
        cases hintake
        exact Or.inl ⟨interest, nexthops, s', rfl, hok, hrun, rfl⟩
    | incomingData inFace data nexthops =>
        cases hintake
        cases hrun
        exact Or.inr ⟨data, nexthops, rfl, hok, rfl⟩
    | _ => cases hintake

/-- In a network of PITless forwarders every packet in flight can be delivered, unless it is an Interest that makes
a trigger fail. -/
theorem pitless_deliverable_iff (hrouters : SoundRouters matchesData holds kind routers cs)
    (hkind : ∀ n, kind n = .pitless)
    (hr : Reach (PacketNetwork.step (routerComponents routers) t.links) (Meets t.Follows)
      (startedNetwork routers nBuckets t.faceId cs) net) {position : Nat} {face : Face} {packet : FacePacket}
    (hget : net.inFlight[position]? = some (n, face, packet)) :
    Deliverable (routerComponents routers) t.links t.Follows net position ↔
      ¬ ∃ interest s, packet = .interest interest ∧ net.node n = .pitless s ∧
        Crashes (routers n).platform s face interest := by
  obtain ⟨s, hs, hserved⟩ := reach_served hrouters hr (hkind n)
  have hpitless : (routers n).kind = .pitless := (hrouters.kind_eq n).trans (hkind n)
  have hstep : ∀ event, (routers n).step (.pitless s) (.pitless event) =
      (PitlessForwarder.step (routers n).platform s event).map .pitless := by
    intro event
    rw [Router.step, hpitless]
  rw [deliverable_iff hget, hs]
  cases packet with
  | interest interest =>
      constructor
      · rintro ⟨event, state', hintake, hok, hrun⟩ ⟨i, s', heq, hnode, hcrash⟩
        cases heq
        cases hnode
        rcases pitless_takes hpitless hok hintake hrun with ⟨i, nexthops, s', heq, -, hin, -⟩ | ⟨data, nexthops, heq, -⟩
        · cases heq
          rw [(onIncomingInterest_eq_none_iff hserved.ready nexthops).mpr hcrash] at hin
          cases hin
        · cases heq
      · intro hno
        have hruns : onIncomingInterest (routers n).platform s face interest (t.nexthops n interest.name) ≠ none :=
          fun hnone => hno ⟨interest, s, rfl, rfl, (onIncomingInterest_eq_none_iff hserved.ready _).mp hnone⟩
        obtain ⟨s', hs'⟩ := Option.ne_none_iff_exists'.mp hruns
        refine ⟨.pitless (.incomingInterest face interest (t.nexthops n interest.name)), .pitless s', rfl, rfl, ?_⟩
        exact (hstep _).trans (congrArg (Option.map RouterState.pitless) hs')
  | data data =>
      refine iff_of_true ⟨.pitless (.incomingData face data (t.nexthops n data.name)), _, rfl, rfl, hstep _⟩ ?_
      rintro ⟨interest, s', heq, -⟩
      cases heq

omit [DecidableEq ν] in
/-- A delivery makes of a packet at most one packet of less weight. -/
theorem emitted_weight (hfree : t.LoopFree rank bound) (hkind : (routers n).kind = .pitless) {s : PitlessState κ}
    (hid : s.faceId = t.faceId n) {state' : RouterState κ} {event : RouterEvent} {face : Face} {packet : FacePacket}
    (hok : t.Follows n (.pitless s) event) (hintake : event.intake = some (face, packet))
    (hstep : (routers n).step (.pitless s) event = some state') :
    ((emitted (routerComponents routers) t.links n (.pitless s) state').map (Layout.weight rank bound)).sum <
      Layout.weight rank bound (n, face, packet) := by
  rcases pitless_takes hkind hok hintake hstep with ⟨interest, nexthops, s', rfl, hhops, hrun, rfl⟩ |
    ⟨data, nexthops, rfl, hhops, rfl⟩
  · obtain ⟨outs, houts, hcases⟩ := emitted_interest hrun hid hhops
    rw [houts]
    rcases hcases with ⟨-, rfl⟩ | ⟨data, -, rfl | rfl⟩ | rfl
    · exact Nat.succ_pos _
    · exact Nat.succ_pos _
    · cases t.links.peer n face with
      | none => exact Nat.succ_pos _
      | some port =>
          have hle := hfree.bounded data.name port
          simp [Layout.packetTo, Layout.weight]
          omega
    · cases hhop : t.hop interest.name (n, face) with
      | none => exact Nat.succ_pos _
      | some next =>
          have hless := hfree.descends hhop
          simpa [Layout.packetTo, Layout.weight] using hless
  · obtain ⟨outs, houts, hcases⟩ := emitted_data routers face hid hhops
    rw [houts]
    rcases hcases with rfl | rfl
    · exact Nat.succ_pos _
    · cases hhop : t.hop data.name (n, face) with
      | none => exact Nat.succ_pos _
      | some next =>
          have hless := hfree.descends hhop
          simpa [Layout.packetTo, Layout.weight] using hless

omit [DecidableEq ν] in
theorem weight_le (hfree : t.LoopFree rank bound) (packet : ν × Face × FacePacket) :
    Layout.weight rank bound packet ≤ 2 * bound + 2 := by
  obtain ⟨n, face, packet⟩ := packet
  cases packet with
  | data data =>
      have hle := hfree.bounded data.name (n, face)
      simp only [Layout.weight]
      omega
  | interest interest =>
      have hle := hfree.bounded interest.name (n, face)
      simp only [Layout.weight]
      omega

/-- No more deliveries in a row than the packets in flight have hops and cached answers before them. -/
theorem pitless_deliveries_le (hrouters : SoundRouters matchesData holds kind routers cs)
    (hkind : ∀ n, kind n = .pitless) (hfree : t.LoopFree rank bound)
    (hr : Reach (PacketNetwork.step (routerComponents routers) t.links) (Meets t.Follows)
      (startedNetwork routers nBuckets t.faceId cs) net) {k : Nat}
    (hdel : Deliveries (routerComponents routers) t.links t.Follows net k net') :
    k ≤ (2 * bound + 2) * net.inFlight.length := by
  refine deliveries_le hr (fun n state event state' face packet hreach hok hintake hstep => ?_) (weight_le hfree) hdel
  obtain ⟨s, rfl, hserved⟩ := node_served hrouters (hkind n) hreach
  exact emitted_weight hfree ((hrouters.kind_eq n).trans (hkind n)) hserved.faceId_eq hok hintake hstep

/-! ### The way of one Interest -/

/-- One Interest in flight, which no cached Data matches, is all there is in flight after any deliveries, at the
stop that the routes lead to. -/
theorem interest_alone (hrouters : SoundRouters matchesData holds kind routers cs) (hkind : ∀ n, kind n = .pitless)
    (hr : Reach (PacketNetwork.step (routerComponents routers) t.links) (Meets t.Follows)
      (startedNetwork routers nBuckets t.faceId cs) net) {start : ν × Face} {interest : Interest}
    (hflight : net.inFlight = [Layout.packetTo (.interest interest) start])
    (hmiss : ∀ n s d, net.node n = .pitless s → holds s.cs d →
      matchesData interest.name interest.selectors d = false)
    (hname : ¬ localhostName <+: interest.name) {k : Nat}
    (hdel : Deliveries (routerComponents routers) t.links t.Follows net k net') :
    net'.inFlight = ((t.stop interest.name start k).map (Layout.packetTo (.interest interest))).toList ∧
      ∀ n s d, net'.node n = .pitless s → holds s.cs d →
        matchesData interest.name interest.selectors d = false := by
  induction hdel with
  | none => exact ⟨hflight, hmiss⟩
  | @next k net₁ net₂ position event hdel hok hs ih =>
      obtain ⟨hflight₁, hmiss₁⟩ := ih
      obtain ⟨n, face, packet, state', hget, hintake, hstep, rfl⟩ := deliver_eq_some hs
      rw [hflight₁] at hget
      cases hstop : t.stop interest.name start k with
      | none => rw [hstop] at hget; cases hget
      | some stop =>
          rw [hstop] at hget hflight₁
          obtain ⟨hpos, hget⟩ := List.getElem?_eq_some_iff.mp hget
          obtain rfl : position = 0 := by simpa using hpos
          obtain ⟨rfl, rfl, rfl⟩ : stop.1 = n ∧ stop.2 = face ∧ FacePacket.interest interest = packet := by
            simpa [Layout.packetTo] using hget
          obtain ⟨s, hnode, hserved⟩ := reach_served hrouters (hdel.reach hr) (hkind stop.1)
          have hfollows := hok stop.1 stop.2 (.interest interest) (by rw [hflight₁]; rfl)
          rw [hnode] at hfollows
          rw [show (routerComponents routers).step stop.1 (net₁.node stop.1) event =
            (routers stop.1).step (net₁.node stop.1) event from rfl, hnode] at hstep
          rcases pitless_takes ((hrouters.kind_eq _).trans (hkind _)) hfollows hintake hstep with
            ⟨i, nexthops, s₂, heq, hhops, hrun, rfl⟩ | ⟨data, nexthops, heq, -⟩
          · cases heq
            obtain ⟨outs, houts, hcases⟩ := emitted_interest hrun hserved.faceId_eq hhops
            refine ⟨?_, fun n s' d hn hd => ?_⟩
            · rw [hflight₁, hnode, houts]
              rcases hcases with ⟨hlocal, -⟩ | ⟨data, hfound, -⟩ | rfl
              · exact absurd hlocal hname
              · have hmatch := hrouters.sound stop.1 _ _ _ _ _ (Prod.ext rfl hfound)
                rw [hmiss₁ _ _ _ hnode ((hrouters.honest stop.1).found hfound)] at hmatch
                cases hmatch
              · rw [Layout.stop, hstop]
                rfl
            · by_cases hn' : n = stop.1
              · subst hn'
                have hself := Function.update_self stop.1 (RouterState.pitless s₂) net₁.node
                cases hself.symm.trans hn
                rcases onIncomingInterest_cs hrun with hcs | hcs
                · rw [hcs] at hd
                  exact hmiss₁ _ _ _ hnode hd
                · rw [hcs] at hd
                  exact hmiss₁ _ _ _ hnode ((hrouters.honest stop.1).find hd)
              · exact hmiss₁ n s' d ((Function.update_of_ne hn' _ _).symm.trans hn) hd
          · cases heq

end Network

/-- PITless forwarders along loop-free routes, with any caches and any strategies chosen, over links that delay,
reorder, lose and duplicate packets: from any state there are at most twice as many deliveries for each packet as
a route has stops, and after them every packet that is still in flight can be delivered, unless it is an Interest
that hits in the content store of a router at which NCC or access is triggered. -/
theorem pitless_drains {ν π : Type} [DecidableEq ν] (cityHash : Component → UInt64)
    (makeEntry : Name → UInt32 → UInt64) (digest : Data → List UInt8) (getSuccessor : Name → Name)
    (matchesData : MatchesData) (isLocal : ν → Face → Bool) (policy : ν → CsPolicy π) (policyState : ν → π)
    (nBuckets : ν → Nat) (t : Layout ν) (rank : Name → ν × Face → Nat) (bound : Nat) (hfree : t.LoopFree rank bound)
    (net : NetworkState ν (RouterState (Cs π)) Face FacePacket)
    (hr : Reach (PacketNetwork.step (routerComponents
        (builtinRouters cityHash makeEntry digest getSuccessor matchesData isLocal policy fun _ => .pitless)) t.links)
      (PacketNetwork.Meets t.Follows) (startedNetwork
        (builtinRouters cityHash makeEntry digest getSuccessor matchesData isLocal policy fun _ => .pitless)
        nBuckets t.faceId fun n => ⟨[], policyState n⟩) net) (k : Nat)
    (net' : NetworkState ν (RouterState (Cs π)) Face FacePacket)
    (hdel : PacketNetwork.Deliveries (routerComponents
      (builtinRouters cityHash makeEntry digest getSuccessor matchesData isLocal policy fun _ => .pitless)) t.links
      t.Follows net k net') :
    k ≤ (2 * bound + 2) * net.inFlight.length ∧
      ∀ position n face packet, net'.inFlight[position]? = some (n, face, packet) →
        (PacketNetwork.Deliverable (routerComponents
          (builtinRouters cityHash makeEntry digest getSuccessor matchesData isLocal policy fun _ => .pitless))
          t.links t.Follows net' position ↔
        ¬ ∃ interest s, packet = .interest interest ∧ net'.node n = .pitless s ∧ PitlessForwarder.Crashes
          (.builtin cityHash makeEntry digest getSuccessor matchesData (isLocal n) (policy n)) s face interest) := by
  have hrouters := builtin_soundRouters cityHash makeEntry digest getSuccessor matchesData isLocal policy
    policyState fun _ => .pitless
  exact ⟨pitless_deliveries_le hrouters (fun _ => rfl) hfree hr hdel, fun position n face packet hget =>
    pitless_deliverable_iff hrouters (fun _ => rfl) (hdel.reach hr) hget⟩

/-- The line with PITless routers only. -/
def pitlessLine : Nat → Router (Cs Unit) :=
  builtinRouters NameTree.octetHash (fun n nonce => 1 + 65536 * computeHash NameTree.octetHash n + nonce.toUInt64)
    (fun _ => [0]) incrementLast (matchesSuffix fun _ => [0]) (fun _ _ => false) (fun _ => .keepAll)
    fun _ => .pitless

def pitlessLineNetwork : NetworkState Nat (RouterState (Cs Unit)) Face FacePacket :=
  startedNetwork pitlessLine (fun _ => 16) lineLayout.faceId fun _ => ⟨[], ()⟩

/-- How many routers of the line are ahead. -/
def lineRank (name : Name) (stop : Nat × Face) : Nat := if name = [.ofByte 65] then 2 - stop.1 else min stop.1 2

theorem lineLayout_loopFree : lineLayout.LoopFree lineRank 2 where
  descends {name stop next} hhop := by
    obtain ⟨n, face⟩ := stop
    obtain ⟨outFace, hout, hpeer⟩ := Option.bind_eq_some_iff.mp hhop
    obtain ⟨hfirst, -⟩ := Option.filter_eq_some_iff.mp hout
    have hmem := List.mem_of_find?_eq_some hfirst
    by_cases hname : name = [.ofByte 65]
    · obtain rfl : outFace = 2 := by simpa [lineLayout, hname] using hmem
      simp only [lineRank, hname, if_true]
      rcases n with _ | _ | n
      · cases hpeer
        decide
      · cases hpeer
        decide
      · simp [lineLayout, lineLinks] at hpeer
    · obtain rfl : outFace = 1 := by simpa [lineLayout, hname] using hmem
      simp only [lineRank, hname, if_false]
      rcases n with _ | _ | _ | n
      · simp [lineLayout, lineLinks] at hpeer
      · cases hpeer
        decide
      · cases hpeer
        decide
      · simp [lineLayout, lineLinks] at hpeer
  bounded name stop := by
    unfold lineRank
    split <;> omega

/-- An Interest enters the line. -/
def pitlessLineEvents : List (NetworkEvent Nat RouterEvent) :=
  [.act 0 (.pitless (.incomingInterest 1 (plainInterest [.ofByte 65]) [2]))]

theorem pitless_drains_line :
    ∃ net, exec (PacketNetwork.step (routerComponents pitlessLine) lineLinks) pitlessLineNetwork
        pitlessLineEvents = some net ∧ net.inFlight.length = 1 ∧
      ∀ k net', PacketNetwork.Deliveries (routerComponents pitlessLine) lineLinks lineLayout.Follows net k net' →
        k ≤ 6 := by
  have hlength : (exec (PacketNetwork.step (routerComponents pitlessLine) lineLinks) pitlessLineNetwork
      pitlessLineEvents).map (fun net => net.inFlight.length) = some 1 := by decide +kernel
  obtain ⟨net, hnet, hone⟩ := Option.map_eq_some_iff.mp hlength
  refine ⟨net, hnet, hone, fun k net' hdel => ?_⟩
  have hfollows : Reach (PacketNetwork.step (routerComponents pitlessLine) lineLinks)
      (PacketNetwork.Meets lineLayout.Follows) pitlessLineNetwork net := by
    refine reach_of_exec_all Reach.start (fun event hevent s => ?_) hnet
    rw [List.mem_singleton.mp hevent]
    exact rfl
  have hle := (pitless_drains NameTree.octetHash _ (fun _ => [0]) incrementLast (matchesSuffix fun _ => [0])
    (fun _ _ => false) (fun _ => .keepAll) (fun _ => ()) (fun _ => 16) lineLayout lineRank 2 lineLayout_loopFree net
    hfollows k net' hdel).1
  rw [hone] at hle
  exact hle

/-- An Interest alone in flight between PITless forwarders, which no cached Data matches, can be delivered exactly
as often as its route has stops, for ever if the route is a loop: it is never dropped, answered or multiplied on
the way. -/
theorem interest_hops {ν π : Type} [DecidableEq ν] (cityHash : Component → UInt64)
    (makeEntry : Name → UInt32 → UInt64) (digest : Data → List UInt8) (getSuccessor : Name → Name)
    (matchesData : MatchesData) (isLocal : ν → Face → Bool) (policy : ν → CsPolicy π) (policyState : ν → π)
    (nBuckets : ν → Nat) (t : Layout ν) (net : NetworkState ν (RouterState (Cs π)) Face FacePacket)
    (hr : Reach (PacketNetwork.step (routerComponents
        (builtinRouters cityHash makeEntry digest getSuccessor matchesData isLocal policy fun _ => .pitless)) t.links)
      (PacketNetwork.Meets t.Follows) (startedNetwork
        (builtinRouters cityHash makeEntry digest getSuccessor matchesData isLocal policy fun _ => .pitless)
        nBuckets t.faceId fun n => ⟨[], policyState n⟩) net) (start : ν × Face) (interest : Interest)
    (hflight : net.inFlight = [(start.1, start.2, .interest interest)])
    (hmiss : ∀ n s, net.node n = .pitless s → ∀ entry ∈ s.cs.table,
      matchesData interest.name interest.selectors entry.data = false)
    (hname : ¬ localhostName <+: interest.name) (k : Nat) :
    ((∃ net', PacketNetwork.Deliveries (routerComponents
        (builtinRouters cityHash makeEntry digest getSuccessor matchesData isLocal policy fun _ => .pitless)) t.links
        t.Follows net k net') ↔ ∀ j < k, (t.stop interest.name start j).isSome) ∧
      ∀ net', PacketNetwork.Deliveries (routerComponents
        (builtinRouters cityHash makeEntry digest getSuccessor matchesData isLocal policy fun _ => .pitless)) t.links
        t.Follows net k net' →
        net'.inFlight = (t.stop interest.name start k).toList.map fun stop =>
          (stop.1, stop.2, .interest interest) := by
  have hrouters := builtin_soundRouters cityHash makeEntry digest getSuccessor matchesData isLocal policy
    policyState fun _ => .pitless
  have halone : ∀ {j net'}, PacketNetwork.Deliveries (routerComponents
      (builtinRouters cityHash makeEntry digest getSuccessor matchesData isLocal policy fun _ => .pitless)) t.links
      t.Follows net j net' → net'.inFlight = ((t.stop interest.name start j).map
        (Layout.packetTo (.interest interest))).toList ∧ ∀ n s d, net'.node n = .pitless s → Cs.Holds s.cs d →
          matchesData interest.name interest.selectors d = false := fun hdel =>
    interest_alone hrouters (fun _ => rfl) hr hflight
      (fun n s d hn ⟨entry, hmem, heq⟩ => by rw [← heq]; exact hmiss n s hn entry hmem) hname hdel
  refine ⟨⟨?_, ?_⟩, fun net' hdel => ?_⟩
  · rintro ⟨net', hdel⟩
    cases hdel with
    | none => exact fun j hj => absurd hj (Nat.not_lt_zero j)
    | @next k net₁ _ position event hdel hok hs =>
        intro j hj
        refine t.stop_isSome_of_le (Nat.le_of_lt_succ hj) ?_
        obtain ⟨n, face, packet, -, hget, -⟩ := PacketNetwork.deliver_eq_some hs
        rw [(halone hdel).1] at hget
        cases hstop : t.stop interest.name start k with
        | none => rw [hstop] at hget; cases hget
        | some stop => rfl
  · intro hstops
    induction k with
    | zero => exact ⟨net, .none⟩
    | succ k ih =>
        obtain ⟨net', hdel⟩ := ih fun j hj => hstops j (Nat.lt_succ_of_lt hj)
        obtain ⟨stop, hstop⟩ := Option.isSome_iff_exists.mp (hstops k (Nat.lt_succ_self k))
        obtain ⟨hflight', hmiss'⟩ := halone hdel
        have hget : net'.inFlight[0]? = some (stop.1, stop.2, .interest interest) := by
          rw [hflight', hstop]
          rfl
        obtain ⟨event, net'', hok, hs⟩ := (pitless_deliverable_iff hrouters (fun _ => rfl) (hdel.reach hr) hget).mpr (by
          rintro ⟨i, s, heq, hnode, ⟨data, -, hfind⟩, -⟩
          cases heq
          have hmatch := hrouters.sound stop.1 _ _ _ _ _ (Prod.ext rfl hfind)
          rw [hmiss' _ _ _ hnode ((hrouters.honest stop.1).found hfind)] at hmatch
          cases hmatch)
        exact ⟨net'', hdel.next 0 event hok hs⟩
  · rw [(halone hdel).1]
    cases t.stop interest.name start k <;> rfl

/-- Two routers that send everything around: face 2 of each is linked to face 1 of the other. -/
def ringLayout : Layout Bool where
  links :=
    { peer := fun b face => if face = 2 then some (!b, 1) else if face = 1 then some (!b, 2) else none
      symm := by
        intro n f m g h
        split at h
        · rename_i hf
          cases h
          simp [hf]
        · split at h
          · rename_i hf
            cases h
            simp [hf]
          · cases h }
  faceId _ := some
  nexthops _ _ := [2]

def ringRouters : Bool → Router (Cs Unit) :=
  builtinRouters NameTree.octetHash (fun n nonce => 1 + 65536 * computeHash NameTree.octetHash n + nonce.toUInt64)
    (fun _ => [0]) incrementLast (matchesSuffix fun _ => [0]) (fun _ _ => false) (fun _ => .keepAll)
    fun _ => .pitless

def ringNetwork : NetworkState Bool (RouterState (Cs Unit)) Face FacePacket :=
  startedNetwork ringRouters (fun _ => 16) ringLayout.faceId fun _ => ⟨[], ()⟩

/-- An application asks one of the two for `/A`. -/
def ringEvents : List (NetworkEvent Bool RouterEvent) :=
  [.act false (.pitless (.incomingInterest 3 (plainInterest [.ofByte 65]) [2]))]

theorem ringEvents_run :
    (exec (PacketNetwork.step (routerComponents ringRouters) ringLayout.links) ringNetwork ringEvents).map
      (fun net => ((net.node false).received, (net.node true).received, net.inFlight)) =
    some ([(3, .interest (plainInterest [.ofByte 65]))], [],
      [(true, 1, .interest (plainInterest [.ofByte 65]))]) := by
  decide +kernel

theorem ringLayout_stop (name : Name) (b : Bool) (k : Nat) : ∃ b', ringLayout.stop name (b, 1) k = some (b', 1) := by
  induction k with
  | zero => exact ⟨b, rfl⟩
  | succ k ih =>
      obtain ⟨b', hb'⟩ := ih
      refine ⟨!b', ?_⟩
      rw [Layout.stop, hb', Option.bind_some]
      rfl

/-- An Interest goes around the ring any number of times. -/
theorem interest_hops_ring :
    ∃ net, exec (PacketNetwork.step (routerComponents ringRouters) ringLayout.links) ringNetwork ringEvents =
        some net ∧
      ∀ k, ∃ net', PacketNetwork.Deliveries (routerComponents ringRouters) ringLayout.links ringLayout.Follows net k
        net' := by
  obtain ⟨net, hnet, hrun⟩ := Option.map_eq_some_iff.mp ringEvents_run
  obtain ⟨hfirst, hsecond, hflight⟩ := Prod.mk.inj hrun |>.imp_right Prod.mk.inj
  have hfollows : Reach (PacketNetwork.step (routerComponents ringRouters) ringLayout.links)
      (PacketNetwork.Meets ringLayout.Follows) ringNetwork net := by
    refine reach_of_exec_all Reach.start (fun event hevent s => ?_) hnet
    rw [List.mem_singleton.mp hevent]
    exact rfl
  have hrouters := builtin_soundRouters NameTree.octetHash (fun n nonce => 1 + 65536 *
    computeHash NameTree.octetHash n + nonce.toUInt64) (fun _ => [0]) incrementLast (matchesSuffix fun _ => [0])
    (fun _ : Bool => fun _ => false) (fun _ => .keepAll) (fun _ => ()) fun _ => .pitless
  refine ⟨net, hnet, fun k => ?_⟩
  refine ((interest_hops NameTree.octetHash _ (fun _ => [0]) incrementLast (matchesSuffix fun _ => [0])
    (fun _ _ => false) (fun _ => .keepAll) (fun _ => ()) (fun _ => 16) ringLayout net hfollows (true, 1)
    (plainInterest [.ofByte 65]) hflight ?_ (by decide) k).1).mpr fun j _ => ?_
  · -- no Data has come in, so nothing is cached
    intro b s hs entry hentry
    obtain ⟨s', hs', hserved⟩ := reach_served hrouters hfollows (n := b) rfl
    obtain rfl : s' = s := by
      rw [hs] at hs'
      exact (RouterState.pitless.inj hs').symm
    obtain ⟨face, hin⟩ := hserved.cached ⟨entry, hentry, rfl⟩
    have hmem : (face, FacePacket.data entry.data) ∈ (net.node b).received := by
      rw [hs]
      exact List.mem_filterMap.mpr ⟨_, hin, rfl⟩
    cases b with
    | false => rw [hfirst] at hmem; simp at hmem
    | true => rw [hsecond] at hmem; cases hmem
  · obtain ⟨b', hb'⟩ := ringLayout_stop [.ofByte 65] true j
    exact Option.isSome_iff_exists.mpr ⟨_, hb'⟩

end NfdPitless
