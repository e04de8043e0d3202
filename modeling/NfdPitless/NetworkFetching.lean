import NfdPitless.ForwarderFlow
import NfdPitless.NetworkPackets

/-! Networks of base forwarders. A Data that a router sends was fetched: it came, router by router, over links
on which a matching Interest had gone the other way, from a router that has it of an application. And on
every link, what comes back is paid for: the Data that have arrived or are in flight, the Interests in flight
the other way and the PIT entries that wait for the link are together no more than the Interests sent. -/

namespace NfdPitless

namespace Forwarder

variable {κ : Type} {P : Platform κ} {holds : κ → Data → Prop} {s s' : ForwarderState κ}

/-- A Data that was received, or any Interest. -/
def ReceivedIn (log : List LogItem) : FacePacket → Prop
  | .data data => ∃ face, LogItem.inData face data ∈ log
  | .interest _ => True

theorem ReceivedIn.append {log : List LogItem} {packet : FacePacket} (h : ReceivedIn log packet)
    (items : List LogItem) : ReceivedIn (log ++ items) packet := by
  cases packet with
  | interest interest => trivial
  | data data =>
      obtain ⟨face, hmem⟩ := h
      exact ⟨face, List.mem_append_left _ hmem⟩

theorem Carries.mono {I I' : FacePacket → Prop} (h : Carries I holds s) (hI : ∀ packet, I packet → I' packet) :
    Carries I' holds s where
  linked := h.linked
  records he record hrecord := hI _ (h.records he record hrecord)
  cached hd := hI _ (h.cached hd)
  sent item hitem x hx := hI _ (h.sent item hitem x hx)

/-- The flow is balanced, and what the forwarder has cached and sent it has received. -/
structure Supplied (P : Platform κ) (holds : κ → Data → Prop) (s : ForwarderState κ) : Prop where
  balanced : Balanced P s
  carries : Carries (ReceivedIn s.log) holds s

theorem new_supplied (P : Platform κ) (nBuckets : Nat) (faceId : Face → Option Nat) {cs : κ}
    (hcs : ∀ d, ¬ holds cs d) : Supplied P holds (ForwarderState.new nBuckets faceId cs) where
  balanced := ⟨Pit.new_linked nBuckets, new_flowBalanced nBuckets faceId cs⟩
  carries := ⟨Pit.new_linked nBuckets, fun he => by simp [ForwarderState.new, Pit.new] at he,
    fun hd => absurd hd (hcs _), fun item hitem => by simp [ForwarderState.new] at hitem⟩

theorem Supplied.step (h : Supplied P holds s) (hsound : P.store.Sound P.matchesData)
    (hhonest : P.store.Honest holds) {event : Event} (hstep : step P s event = some s') : Supplied P holds s' := by
  obtain ⟨items, hlog, hitems⟩ := step_received hstep
  refine ⟨h.balanced.step hsound hstep, Carries.step (h.carries.mono ?_) hhonest ?_ ?_ hstep⟩
  · intro packet hpacket
    rw [hlog]
    exact hpacket.append items
  · intro i nonce _
    trivial
  · rintro ⟨face, packet⟩ hintake
    cases packet with
    | interest interest => trivial
    | data data =>
        have hmem : (face, FacePacket.data data) ∈ items.filterMap LogItem.received := by
          rw [hitems, hintake]
          exact List.mem_singleton_self _
        obtain ⟨item, hitem, hreceived⟩ := List.mem_filterMap.mp hmem
        cases item with
        | inData face' data' =>
            cases hreceived
            exact ⟨face, by rw [hlog]; exact List.mem_append_right _ hitem⟩
        | _ => cases hreceived

/-- A Data that was sent was received, and an Interest that it matches was received from the face. -/
theorem Supplied.sent (h : Supplied P holds s) {face : Face} {data : Data} (hsent : .outData face data ∈ s.log) :
    (∃ face', .inData face' data ∈ s.log) ∧
      ∃ interest, .inInterest face interest ∈ s.log ∧ P.matchesData interest.name interest.selectors data = true := by
  refine ⟨h.carries.sent _ hsent _ rfl, ?_⟩
  obtain ⟨tok, htok⟩ := h.balanced.flow
  obtain ⟨charge, hcharge, -⟩ := htok.charged
  obtain ⟨k, hk⟩ := List.mem_iff_getElem?.mp hsent
  obtain ⟨-, interest, hin, hmatch⟩ := hcharge k face data hk
  exact ⟨interest, List.mem_of_getElem? hin, hmatch⟩

/-- The Data sent to a face and the entries that wait for it are no more than the Interests from it. -/
theorem Balanced.count_le (h : Balanced P s) (face : Face) (pending : Finset Ref)
    (hpending : ∀ r ∈ pending, ∃ e, s.pit.entries r = some e ∧ face ∈ inFaces e) :
    s.log.countP (isOutDataTo face) + pending.card ≤ s.log.countP (isInInterestFrom face) := by
  obtain ⟨tok, htok⟩ := h.flow
  have hcard : (pending.image fun r => tok r face).card = pending.card := by
    refine Finset.card_image_of_injOn fun r hr r' hr' heq => ?_
    obtain ⟨e, he, hf⟩ := hpending r hr
    obtain ⟨e', he', hf'⟩ := hpending r' hr'
    exact htok.distinct he he' hf hf' heq
  rw [← hcard]
  refine htok.covered.count_le (fun a ha => ?_) (fun q a hqa ha => ?_) fun t ht => ?_
  · cases a with
    | outData face' data => trivial
    | _ => cases ha
  · cases q with
    | inInterest face' interest =>
        cases a with
        | outData face'' data =>
            rw [isInInterestFrom, hqa.1]
            exact ha
        | _ => cases ha
    | _ => exact hqa.elim
  · obtain ⟨r, hr, rfl⟩ := Finset.mem_image.mp ht
    obtain ⟨e, he, hf⟩ := hpending r hr
    obtain ⟨i, hi, -⟩ := htok.arrived he hf
    exact ⟨Or.inl ⟨r, e, face, he, hf, rfl⟩, by rw [hi]; simp [isInInterestFrom]⟩

end Forwarder

namespace FacePacket

def isInterest : FacePacket → Bool
  | .interest _ => true
  | .data _ => false

def isData : FacePacket → Bool
  | .interest _ => false
  | .data _ => true

end FacePacket

open PacketNetwork (atPort toPort)

theorem countP_sent_data {κ : Type} (s : ForwarderState κ) (face : Face) :
    (RouterState.tables s).sent.countP (atPort face FacePacket.isData) =
      s.log.countP (Forwarder.isOutDataTo face) := by
  rw [RouterState.sent, List.countP_filterMap]
  refine List.countP_congr fun item _ => ?_
  cases item <;> simp [LogItem.sent, atPort, FacePacket.isData, Forwarder.isOutDataTo]

theorem countP_received_interests {κ : Type} (s : ForwarderState κ) (face : Face) :
    (RouterState.tables s).received.countP (atPort face FacePacket.isInterest) =
      s.log.countP (Forwarder.isInInterestFrom face) := by
  rw [RouterState.received, List.countP_filterMap]
  refine List.countP_congr fun item _ => ?_
  cases item <;> simp [LogItem.received, atPort, FacePacket.isInterest, Forwarder.isInInterestFrom]

/-! ### The network -/

/-- A Data was fetched to a router: from an application there, or over a link from a router to which it was
fetched, which was sent an Interest for it over the link. -/
inductive Fetched {ν κ : Type} (L : Links ν Face) (matchesData : MatchesData)
    (net : NetworkState ν (RouterState κ) Face FacePacket) (data : Data) : ν → Prop where
  | produced (n : ν) (face : Face) : L.peer n face = none → (face, .data data) ∈ (net.node n).received →
      Fetched L matchesData net data n
  | upstream (n m : ν) (face upFace : Face) (interest : Interest) : L.peer n face = some (m, upFace) →
      (face, .interest interest) ∈ (net.node n).sent → (upFace, .interest interest) ∈ (net.node m).received →
      matchesData interest.name interest.selectors data = true →
      (upFace, .data data) ∈ (net.node m).sent → (face, .data data) ∈ (net.node n).received →
      Fetched L matchesData net data m → Fetched L matchesData net data n

section

variable {ν κ : Type} {L : Links ν Face} {matchesData : MatchesData}
  {net net' : NetworkState ν (RouterState κ) Face FacePacket} {data : Data} {n : ν}

theorem Fetched.mono (h : Fetched L matchesData net data n)
    (hreceived : ∀ n, (net.node n).received ⊆ (net'.node n).received)
    (hsent : ∀ n, (net.node n).sent ⊆ (net'.node n).sent) : Fetched L matchesData net' data n := by
  induction h with
  | produced n face hport hmem => exact .produced n face hport (hreceived n hmem)
  | upstream n m face upFace interest hpeer hout hin hmatch hdata harrived _ ih =>
      exact .upstream n m face upFace interest hpeer (hsent n hout) (hreceived m hin) hmatch (hsent m hdata)
        (hreceived n harrived) ih

/-- A router in which the flow is balanced, and which has what it sends. -/
def RouterState.Supplied (P : Platform κ) (holds : κ → Data → Prop) : RouterState κ → Prop
  | .tables s => Forwarder.Supplied P holds s
  | .pitless _ => False

theorem RouterState.Supplied.tables {P : Platform κ} {holds : κ → Data → Prop} {state : RouterState κ}
    (h : state.Supplied P holds) : ∃ s, state = .tables s ∧ Forwarder.Supplied P holds s := by
  cases state with
  | tables s => exact ⟨s, rfl, h⟩
  | pitless s => exact h.elim

theorem RouterState.Supplied.sent {P : Platform κ} {holds : κ → Data → Prop} {state : RouterState κ}
    (h : state.Supplied P holds) {face : Face} (hsent : (face, .data data) ∈ state.sent) :
    (∃ face', (face', .data data) ∈ state.received) ∧ ∃ interest, (face, .interest interest) ∈ state.received ∧
      P.matchesData interest.name interest.selectors data = true := by
  obtain ⟨s, rfl, hs⟩ := h.tables
  obtain ⟨item, hitem, heq⟩ := List.mem_filterMap.mp hsent
  have hout : .outData face data ∈ s.log := by
    cases item with
    | outData face' data' =>
        cases heq
        exact hitem
    | _ => cases heq
  obtain ⟨⟨face', hin⟩, interest, hinterest, hmatch⟩ := hs.sent hout
  exact ⟨⟨face', List.mem_filterMap.mpr ⟨_, hin, rfl⟩⟩, interest, List.mem_filterMap.mpr ⟨_, hinterest, rfl⟩, hmatch⟩

variable [DecidableEq ν] {routers : ν → Router κ} {holds : κ → Data → Prop} {nBuckets : ν → Nat}
  {faceId : ν → Face → Option Nat} {cs : ν → κ}

/-- The base forwarders of a network, with content stores that hold what was inserted and hit on matches. -/
structure BaseForwarders (matchesData : MatchesData) (holds : κ → Data → Prop) (routers : ν → Router κ)
    (cs : ν → κ) : Prop where
  kind : ∀ n, (routers n).kind = .forwarder
  matches_eq : ∀ n, (routers n).platform.matchesData = matchesData
  sound : ∀ n, (routers n).platform.store.Sound matchesData
  honest : ∀ n, (routers n).platform.store.Honest holds
  empty : ∀ n d, ¬ holds (cs n) d

theorem reach_supplied {ok : ν → RouterState κ → RouterEvent → Prop}
    (hbase : BaseForwarders matchesData holds routers cs)
    (hr : Reach (PacketNetwork.step (routerComponents routers) L) (PacketNetwork.Meets ok)
      (startedNetwork routers nBuckets faceId cs) net) (n : ν) :
    (net.node n).Supplied (routers n).platform holds := by
  refine (PacketNetwork.reach_node hr n).invariant (I := fun state => state.Supplied (routers n).platform holds) ?_ ?_
  · show ((routers n).new (nBuckets n) (faceId n) (cs n)).Supplied (routers n).platform holds
    rw [Router.new, hbase.kind n]
    exact Forwarder.new_supplied _ _ _ (hbase.empty n)
  · intro state event state' h _ hstep
    rcases Router.step_cases hstep with ⟨s, s', e, -, rfl, rfl, rfl, hs⟩ | ⟨supportingName, s, s', e, hkind, -⟩ |
      ⟨s, s', e, hkind, -⟩
    · exact Forwarder.Supplied.step h (by rw [hbase.matches_eq n]; exact hbase.sound n) (hbase.honest n) hs
    · rw [hbase.kind n] at hkind
      cases hkind
    · rw [hbase.kind n] at hkind
      cases hkind

/-- Every Data that a router has received was fetched to it. -/
theorem reach_fetched (hbase : BaseForwarders matchesData holds routers cs)
    (hr : Reach (PacketNetwork.step (routerComponents routers) L) (PacketNetwork.Meets fun _ _ _ => True)
      (startedNetwork routers nBuckets faceId cs) net) {face : Face}
    (hreceived : (face, .data data) ∈ (net.node n).received) : Fetched L matchesData net data n := by
  induction hr generalizing n face with
  | start =>
      have hnone := (startedNetwork_fresh routers nBuckets faceId cs).received n
      rw [show ((startedNetwork routers nBuckets faceId cs).node n).received = [] from hnone] at hreceived
      cases hreceived
  | @next net net' event hr hok hs ih =>
      rcases PacketNetwork.step_cases hs hok with ⟨a, e, state', hadv⟩ | ⟨hnode, -⟩
      · have hmono : ∀ {m : ν}, Fetched L matchesData net data m → Fetched L matchesData net' data m := fun h =>
          h.mono (fun m => (hadv.mono m).1) fun m => (hadv.mono m).2
        rcases hadv.mem_received hreceived with hold | ⟨rfl, hintake⟩
        · exact hmono (ih hold)
        · rcases hadv.origin hintake with hflight | hport
          · -- the packet comes from a router that has received it and was asked for it
            have hpeers := PacketNetwork.reach_fromPeer hr (startedNetwork_fresh routers nBuckets faceId cs)
            obtain ⟨m, upFace, hpeer, hsent⟩ := hpeers.inFlight hflight
            obtain ⟨⟨face', hin⟩, interest, hinterest, hmatch⟩ := (reach_supplied hbase hr m).sent hsent
            rw [hbase.matches_eq m] at hmatch
            have hasked := hpeers.received (L.symm hpeer) hinterest
            exact .upstream n m face upFace interest (L.symm hpeer) ((hadv.mono n).2 hasked)
              ((hadv.mono m).1 hinterest) hmatch ((hadv.mono m).2 hsent) hreceived (hmono (ih hin))
          · exact .produced n face hport hreceived
      · rw [hnode] at hreceived
        refine (ih hreceived).mono (fun m => ?_) fun m => ?_
        · rw [hnode]
          exact List.Subset.refl _
        · rw [hnode]
          exact List.Subset.refl _

end

theorem builtin_baseForwarders {ν π : Type} (cityHash : Component → UInt64) (makeEntry : Name → UInt32 → UInt64)
    (digest : Data → List UInt8) (getSuccessor : Name → Name) (matchesData : MatchesData)
    (isLocal : ν → Face → Bool) (policy : ν → CsPolicy π) (policyState : ν → π) :
    BaseForwarders matchesData Cs.Holds
      (builtinRouters cityHash makeEntry digest getSuccessor matchesData isLocal policy fun _ => .forwarder)
      (fun n => ⟨[], policyState n⟩) where
  kind _ := rfl
  matches_eq _ := rfl
  sound n := Cs.contentStore_sound (policy n)
  honest n := Cs.contentStore_honest (policy n)
  empty n := Cs.not_holds_empty (policyState n)

/-- In a network of base forwarders, with any strategies, timers and replacement policies, over links that delay,
reorder, lose and duplicate packets, a Data that is sent to a face was asked for by the face, and it was
fetched over links on each of which a matching Interest went the other way. -/
theorem data_fetched {ν π : Type} [DecidableEq ν] (cityHash : Component → UInt64)
    (makeEntry : Name → UInt32 → UInt64) (digest : Data → List UInt8) (getSuccessor : Name → Name)
    (matchesData : MatchesData) (isLocal : ν → Face → Bool) (policy : ν → CsPolicy π) (policyState : ν → π)
    (nBuckets : ν → Nat) (faceId : ν → Face → Option Nat) (L : Links ν Face)
    (net : NetworkState ν (RouterState (Cs π)) Face FacePacket)
    (hr : Reach (PacketNetwork.step (routerComponents
        (builtinRouters cityHash makeEntry digest getSuccessor matchesData isLocal policy fun _ => .forwarder)) L)
      anyStep (startedNetwork
        (builtinRouters cityHash makeEntry digest getSuccessor matchesData isLocal policy fun _ => .forwarder)
        nBuckets faceId fun n => ⟨[], policyState n⟩) net) (n : ν) (face : Face) (data : Data)
    (hsent : (face, .data data) ∈ (net.node n).sent) :
    Fetched L matchesData net data n ∧ ∃ interest, (face, .interest interest) ∈ (net.node n).received ∧
      matchesData interest.name interest.selectors data = true := by
  have hbase := builtin_baseForwarders cityHash makeEntry digest getSuccessor matchesData isLocal policy policyState
  have hmeets := PacketNetwork.reach_meets hr
  obtain ⟨⟨face', hin⟩, hasked⟩ := (reach_supplied hbase hmeets n).sent hsent
  exact ⟨reach_fetched hbase hmeets hin, hasked⟩

/-- Three base forwarders in a line. -/
def forwarderLine : Nat → Router (Cs Unit) :=
  builtinRouters NameTree.octetHash (fun n nonce => 1 + 65536 * computeHash NameTree.octetHash n + nonce.toUInt64)
    (fun _ => [0]) incrementLast (matchesSuffix fun _ => [0]) (fun _ _ => false) (fun _ => .keepAll)
    fun _ => .forwarder

def forwarderLineNetwork : NetworkState Nat (RouterState (Cs Unit)) Face FacePacket :=
  startedNetwork forwarderLine (fun _ => 16) (fun _ => some) fun _ => ⟨[], ()⟩

/-- An Interest goes along the line, and the Data of an application at its end goes back. -/
def forwarderLineEvents : List (NetworkEvent Nat RouterEvent) :=
  [.act 0 (.forwarder (.incomingInterest 1 (plainInterest [.ofByte 65]) [.sendInterest 2 none])),
    .deliver 0 (.forwarder (.incomingInterest 1 (plainInterest [.ofByte 65]) [.sendInterest 2 none])),
    .deliver 0 (.forwarder (.incomingInterest 1 (plainInterest [.ofByte 65]) [.sendInterest 2 none])),
    .act 2 (.forwarder (.incomingData 2 (plainData [.ofByte 65]) fun _ => [])),
    .deliver 0 (.forwarder (.incomingData 2 (plainData [.ofByte 65]) fun _ => [])),
    .deliver 0 (.forwarder (.incomingData 2 (plainData [.ofByte 65]) fun _ => []))]

theorem forwarderLineEvents_run :
    (exec (PacketNetwork.step (routerComponents forwarderLine) lineLinks) forwarderLineNetwork
      forwarderLineEvents).map (fun net => (decide ((1, .data (plainData [.ofByte 65])) ∈ (net.node 0).sent),
        (net.node 0).received.countP (atPort 2 FacePacket.isData),
        (net.node 0).sent.countP (atPort 2 FacePacket.isInterest))) = some (true, 1, 1) := by
  decide +kernel

/-- The Data that the consumer gets was fetched along the line. -/
theorem data_fetched_line :
    ∃ net, exec (PacketNetwork.step (routerComponents forwarderLine) lineLinks) forwarderLineNetwork
        forwarderLineEvents = some net ∧ (1, .data (plainData [.ofByte 65])) ∈ (net.node 0).sent ∧
      Fetched lineLinks (matchesSuffix fun _ => [0]) net (plainData [.ofByte 65]) 0 := by
  obtain ⟨net, hnet, hrun⟩ := Option.map_eq_some_iff.mp forwarderLineEvents_run
  have hmem : (1, .data (plainData [.ofByte 65])) ∈ (net.node 0).sent := of_decide_eq_true (Prod.mk.inj hrun).1
  refine ⟨net, hnet, hmem, ?_⟩
  exact (data_fetched NameTree.octetHash _ (fun _ => [0]) incrementLast (matchesSuffix fun _ => [0])
    (fun _ _ => false) (fun _ => .keepAll) (fun _ => ()) (fun _ => 16) (fun _ => some) lineLinks net
    (reach_of_exec Reach.start hnet) 0 1 _ hmem).1

/-- In a network of base forwarders over links that lose, delay and reorder packets, but do not duplicate them,
the Data that have come over a link and those in flight on it, the PIT entries of the router at the other end
that have an in-record of the link, and the Interests in flight to it are no more than the Interests sent. -/
theorem link_balanced {ν π : Type} [DecidableEq ν] (cityHash : Component → UInt64)
    (makeEntry : Name → UInt32 → UInt64) (digest : Data → List UInt8) (getSuccessor : Name → Name)
    (matchesData : MatchesData) (isLocal : ν → Face → Bool) (policy : ν → CsPolicy π) (policyState : ν → π)
    (nBuckets : ν → Nat) (faceId : ν → Face → Option Nat) (L : Links ν Face)
    (net : NetworkState ν (RouterState (Cs π)) Face FacePacket)
    (hr : Reach (PacketNetwork.step (routerComponents
        (builtinRouters cityHash makeEntry digest getSuccessor matchesData isLocal policy fun _ => .forwarder)) L)
      (fun _ event => PacketNetwork.Singular event) (startedNetwork
        (builtinRouters cityHash makeEntry digest getSuccessor matchesData isLocal policy fun _ => .forwarder)
        nBuckets faceId fun n => ⟨[], policyState n⟩) net) (n m : ν) (face upFace : Face)
    (hpeer : L.peer n face = some (m, upFace)) (s : ForwarderState (Cs π)) (hs : net.node m = .tables s)
    (pending : Finset Ref) (hpending : ∀ r ∈ pending, ∃ e, s.pit.entries r = some e ∧
      ∃ record ∈ e.inRecords, record.face = upFace) :
    (net.node n).received.countP (atPort face FacePacket.isData) +
        net.inFlight.countP (toPort n face FacePacket.isData) + pending.card +
        net.inFlight.countP (toPort m upFace FacePacket.isInterest) ≤
      (net.node n).sent.countP (atPort face FacePacket.isInterest) := by
  have hbase := builtin_baseForwarders cityHash makeEntry digest getSuccessor matchesData isLocal policy policyState
  have hmeets := hr.mono fun net event hsingular => And.intro (PacketNetwork.meets_true net event) hsingular
  have hfresh := startedNetwork_fresh (builtinRouters cityHash makeEntry digest getSuccessor matchesData isLocal
    policy fun _ => .forwarder) nBuckets faceId fun n => ⟨[], policyState n⟩
  have hsupplied := reach_supplied hbase (hmeets.mono fun _ _ h => h.1) m
  rw [hs] at hsupplied
  have hback := PacketNetwork.arrived_le_sent hmeets hfresh (L.symm hpeer) FacePacket.isData
  have hforth := PacketNetwork.arrived_le_sent hmeets hfresh hpeer FacePacket.isInterest
  have hlocal := hsupplied.balanced.count_le upFace pending fun r hr => by
    obtain ⟨e, he, record, hrecord, hface⟩ := hpending r hr
    exact ⟨e, he, List.mem_map.mpr ⟨record, hrecord, hface⟩⟩
  rw [← countP_sent_data, ← countP_received_interests, ← hs] at hlocal
  simp only [routerComponents] at hback hforth
  omega

/-- Of the two links, the first has brought back the Data that its one Interest paid for. -/
theorem link_balanced_line :
    ∃ net, exec (PacketNetwork.step (routerComponents forwarderLine) lineLinks) forwarderLineNetwork
        forwarderLineEvents = some net ∧
      (net.node 0).received.countP (atPort 2 FacePacket.isData) = 1 ∧
      (net.node 0).received.countP (atPort 2 FacePacket.isData) +
          net.inFlight.countP (toPort 0 2 FacePacket.isData) + (∅ : Finset Ref).card +
          net.inFlight.countP (toPort 1 1 FacePacket.isInterest) ≤
        (net.node 0).sent.countP (atPort 2 FacePacket.isInterest) := by
  obtain ⟨net, hnet, hrun⟩ := Option.map_eq_some_iff.mp forwarderLineEvents_run
  have hsingular : Reach (PacketNetwork.step (routerComponents forwarderLine) lineLinks)
      (fun _ event => PacketNetwork.Singular event) forwarderLineNetwork net := by
    refine reach_of_exec_all Reach.start (fun event hevent net => ?_) hnet
    simp only [forwarderLineEvents, List.mem_cons, List.not_mem_nil, or_false] at hevent
    rcases hevent with rfl | rfl | rfl | rfl | rfl | rfl <;> trivial
  have hbase := builtin_baseForwarders NameTree.octetHash (fun n nonce => 1 + 65536 *
    computeHash NameTree.octetHash n + nonce.toUInt64) (fun _ => [0]) incrementLast (matchesSuffix fun _ => [0])
    (fun _ : Nat => fun _ => false) (fun _ => .keepAll) (fun _ => ())
  obtain ⟨s, hs, -⟩ := (reach_supplied hbase
    (PacketNetwork.reach_meets (reach_of_exec Reach.start hnet)) 1).tables
  refine ⟨net, hnet, (Prod.mk.inj (Prod.mk.inj hrun).2).1, ?_⟩
  exact link_balanced NameTree.octetHash _ (fun _ => [0]) incrementLast (matchesSuffix fun _ => [0])
    (fun _ _ => false) (fun _ => .keepAll) (fun _ => ()) (fun _ => 16) (fun _ => some) lineLinks net hsingular
    0 1 2 1 rfl s hs ∅ (by simp)

end NfdPitless
