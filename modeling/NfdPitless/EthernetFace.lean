import NfdPitless.NdnlpTransport
import Mathlib.Data.List.GetD

/-! Ethernet faces (`daemon/face/ethernet-face.cpp`): the frames that packets are sent in, and the reassembly of what
is captured, one store of partial messages for each sender. What `pcap_inject` does with a frame is an argument. -/

namespace NfdPitless

/-- `ndn::util::ethernet::Address`. -/
abbrev EthernetAddress : Type := Vector UInt8 6

namespace Ethernet

def typeLen : Nat := 2
def hdrLen : Nat := 14
def minDataLen : Nat := 46

/-- `ETHERTYPE_NDN` in network byte order. -/
def ethertypeNdn : List UInt8 := [134, 36]

/-- The address at a position of a frame. -/
def addressAt (frame : List UInt8) (position : Nat) : EthernetAddress := .ofFn fun i => frame.getD (position + i) 0

def destination (frame : List UInt8) : EthernetAddress := addressAt frame 0

def source (frame : List UInt8) : EthernetAddress := addressAt frame 6

def ethertype (frame : List UInt8) : List UInt8 := (frame.drop 12).take typeLen

/-- The frame of a block, padded with zeroes if it is too short. -/
def frameOf (destAddress srcAddress : EthernetAddress) (block : Block) : List UInt8 :=
  destAddress.toList ++ srcAddress.toList ++ ethertypeNdn ++ block.wire ++
    List.replicate (minDataLen - block.wire.length) 0

variable (destAddress srcAddress : EthernetAddress) (block : Block)

theorem frameOf_drop : (frameOf destAddress srcAddress block).drop hdrLen =
    block.wire ++ List.replicate (minDataLen - block.wire.length) 0 := by
  rw [frameOf, List.append_assoc]
  refine List.drop_left' ?_
  simp [hdrLen, ethertypeNdn]

theorem frameOf_length : hdrLen + minDataLen ≤ (frameOf destAddress srcAddress block).length := by
  simp only [frameOf, hdrLen, minDataLen, ethertypeNdn, List.length_append, Vector.length_toList, List.length_cons,
    List.length_nil, List.length_replicate]
  omega

theorem addressAt_append (before rest : List UInt8) (address : EthernetAddress) :
    addressAt (before ++ (address.toList ++ rest)) before.length = address := by
  refine Vector.ext fun i hi => ?_
  rw [addressAt, Vector.getElem_ofFn, List.getD_append_right _ _ _ _ (by omega), Nat.add_sub_cancel_left,
    List.getD_append _ _ _ _ (by rwa [Vector.length_toList]), List.getD_eq_getElem _ _ (by rwa [Vector.length_toList])]
  exact Vector.getElem_toList _

@[simp] theorem destination_frameOf : destination (frameOf destAddress srcAddress block) = destAddress := by
  rw [frameOf, List.append_assoc, List.append_assoc, List.append_assoc]
  exact addressAt_append [] _ destAddress

@[simp] theorem source_frameOf : source (frameOf destAddress srcAddress block) = srcAddress := by
  have haddress := addressAt_append destAddress.toList (ethertypeNdn ++ (block.wire ++
    List.replicate (minDataLen - block.wire.length) 0)) srcAddress
  rw [Vector.length_toList] at haddress
  rw [frameOf, List.append_assoc, List.append_assoc, List.append_assoc]
  exact haddress

@[simp] theorem ethertype_frameOf : ethertype (frameOf destAddress srcAddress block) = ethertypeNdn := by
  rw [ethertype, frameOf, List.append_assoc, List.append_assoc]
  rw [List.drop_left' (by simp)]
  exact List.take_left' rfl

end Ethernet

open Ndnlp

structure Reassembler where
  pms : PartialMessageStore
  expireEvent : Nat

structure EthernetFace where
  srcAddress : EthernetAddress
  destAddress : EthernetAddress
  interfaceMtu : Nat
  slicer : Slicer
  /-- There is a capture (`m_pcap`). -/
  isOpen : Bool
  /-- The next frame is waited for. -/
  isReading : Bool
  failed : Bool
  reassemblers : EthernetAddress → Option Reassembler
  /-- The pending events, each with the sender whose reassembler it erases. -/
  events : List (Nat × EthernetAddress)
  nextEvent : Nat
  /-- The blocks given to `decodeAndDispatchInput`, with their senders. -/
  dispatched : List (EthernetAddress × Block)

namespace EthernetFace

/-- A face whose slicer starts with a random sequence number. -/
def new (codec : TlvCodec) (srcAddress destAddress : EthernetAddress) (interfaceMtu : Nat) (seq : UInt64) :
    EthernetFace :=
  { srcAddress, destAddress, interfaceMtu, slicer := Slicer.new codec interfaceMtu seq, isOpen := true
    isReading := true, failed := false, reassemblers := fun _ => none, events := [], nextEvent := 0, dispatched := [] }

variable (face : EthernetFace)

def fail : EthernetFace := { face with failed := true }

def close : EthernetFace := if face.isOpen then { face with isOpen := false }.fail else face

/-- `sendPacket`, and the frame if it is on the network; `none` where the assertion fails. -/
def sendPacket (block : Block) (isInjected : Bool) : Option (EthernetFace × Option (List UInt8)) :=
  if face.isOpen = false then some (face.fail, none)
  else if face.interfaceMtu < block.wire.length then none
  else if isInjected then some (face, some (Ethernet.frameOf face.destAddress face.srcAddress block))
  else some (face.fail, none)

/-- The loop of `sendInterest` and `sendData`. -/
def sendPackets : EthernetFace → List Block → List Bool → Option (EthernetFace × List (Option (List UInt8)))
  | face, [], _ => some (face, [])
  | face, block :: blocks, injected =>
      (face.sendPacket block (injected.headD false)).bind fun (face, frame) =>
        (sendPackets face blocks injected.tail).map fun (face, frames) => (face, frame :: frames)

/-- `sendInterest` or `sendData`. -/
def send (codec : TlvCodec) (packet : Block) (injected : List Bool) :
    Option (EthernetFace × List (Option (List UInt8))) :=
  (face.slicer.slice codec packet).bind fun (pa, slicer) => { face with slicer }.sendPackets pa injected

/-- What the packet filter lets through. -/
def passesFilter (frame : List UInt8) : Bool :=
  decide (Ethernet.hdrLen ≤ frame.length) && Ethernet.ethertype frame == Ethernet.ethertypeNdn &&
    Ethernet.destination frame == face.destAddress && Ethernet.source frame != face.srcAddress

/-- The store of a sender, a new one if it has none. -/
def storeOf (source : EthernetAddress) : PartialMessageStore := (face.reassemblers source).elim .empty Reassembler.pms

/-- The store of a sender has taken a fragment, and the reassembler is kept for another lifetime. -/
def withFragment (source : EthernetAddress) (pms : PartialMessageStore) (received : Option Block) : EthernetFace :=
  let events := face.events.filter fun pending =>
    some pending.1 != (face.reassemblers source).map Reassembler.expireEvent
  { face with
    reassemblers := Function.update face.reassemblers source (some { pms, expireEvent := face.nextEvent })
    events := (face.nextEvent, source) :: events
    nextEvent := face.nextEvent + 1
    dispatched := face.dispatched ++ received.toList.map fun block => (source, block) }

def receiveFragment (codec : TlvCodec) (source : EthernetAddress) (fragmentBlock : Block) : Option EthernetFace :=
  (receiveWire codec (face.storeOf source) fragmentBlock).map fun result => face.withFragment source result.1 result.2

/-- `none` where an assertion fails. -/
def processIncomingPacket (codec : TlvCodec) (frame : List UInt8) : Option EthernetFace :=
  if frame.length < Ethernet.hdrLen + Ethernet.minDataLen then some face
  else if Ethernet.destination frame ≠ face.destAddress ∨ Ethernet.source frame = face.srcAddress ∨
      Ethernet.ethertype frame ≠ Ethernet.ethertypeNdn then none
  else
    match codec.fromBuffer (frame.drop Ethernet.hdrLen) with
    | none => some face
    | some fragmentBlock => face.receiveFragment codec (Ethernet.source frame) fragmentBlock

/-- `handleRead` with a frame that the filter lets through. -/
def handleRead (codec : TlvCodec) (frame : List UInt8) : Option EthernetFace :=
  if face.isOpen && face.isReading && face.passesFilter frame then face.processIncomingPacket codec frame else none

/-- `handleRead` with an error of the socket, or of `pcap_next_ex`; the next frame is not waited for. -/
def handleReadError (isAborted : Bool) : EthernetFace :=
  let face := { face with isReading := false }
  if isAborted && face.isOpen then face else face.fail

/-- The cleanup event of a partial message fires. -/
def cleanup (source : EthernetAddress) (event : Nat) : Option EthernetFace :=
  (face.reassemblers source).bind fun reassembler => (reassembler.pms.fire event).map fun pms =>
    { face with reassemblers := Function.update face.reassemblers source (some { reassembler with pms }) }

/-- The event of a reassembler fires; `none` where `BOOST_VERIFY` fails. -/
def expire (event : Nat) : Option EthernetFace :=
  (face.events.find? fun pending => pending.1 == event).bind fun pending =>
    (face.reassemblers pending.2).map fun _ =>
      { face with
        reassemblers := Function.update face.reassemblers pending.2 none
        events := face.events.filter fun other => other.1 != event }

/-- What was dispatched of a sender. -/
def dispatchedFrom (source : EthernetAddress) : List Block :=
  (face.dispatched.filter fun entry => entry.1 == source).map Prod.snd

section Sending

variable {face} {codec : TlvCodec} {packet : Block}

theorem sendPackets_eq {blocks : List Block} (hmtu : ∀ block ∈ blocks, block.wire.length ≤ face.interfaceMtu)
    (injected : List Bool) : ∃ failed frames, face.sendPackets blocks injected = some ({ face with failed }, frames) ∧
      frames.length = blocks.length ∧ ∀ (j : Nat) frame, frames[j]? = some (some frame) →
        ∃ block, blocks[j]? = some block ∧ frame = Ethernet.frameOf face.destAddress face.srcAddress block := by
  induction blocks generalizing face injected with
  | nil => exact ⟨face.failed, [], rfl, rfl, fun j frame h => nomatch h⟩
  | cons block blocks ih =>
      have hfirst : ∃ failed frame, face.sendPacket block (injected.headD false) = some ({ face with failed }, frame) ∧
          ∀ octets, frame = some octets → octets = Ethernet.frameOf face.destAddress face.srcAddress block := by
        rw [sendPacket]
        split
        · exact ⟨true, none, rfl, fun _ h => nomatch h⟩
        · rw [if_neg (Nat.not_lt.mpr (hmtu block List.mem_cons_self))]
          split
          · exact ⟨face.failed, _, rfl, fun _ h => (Option.some.inj h).symm⟩
          · exact ⟨true, none, rfl, fun _ h => nomatch h⟩
      obtain ⟨failed, frame, hsend, hframe⟩ := hfirst
      obtain ⟨failed', frames, hrest, hlength, hframes⟩ := @ih { face with failed }
        (fun block hblock => hmtu block (List.mem_cons_of_mem _ hblock)) injected.tail
      refine ⟨failed', frame :: frames, ?_, by rw [List.length_cons, List.length_cons, hlength], fun j octets h => ?_⟩
      · rw [sendPackets, hsend, Option.bind_some]
        dsimp only
        rw [hrest]
        rfl
      · cases j with
        | zero => exact ⟨block, rfl, hframe octets (Option.some.inj h)⟩
        | succ j => exact hframes j octets h

/-- A fragment is no larger than the MTU. -/
theorem length_wire_le {slicer : Slicer} (hlawful : codec.Lawful) (hfits : slicer.Fits codec)
    (hle : slicer.nFragments packet ≤ 65535) {j : Nat} (hj : j < slicer.nFragments packet) :
    ((Sent.of slicer packet).wire codec j).wire.length ≤ slicer.mtu := by
  have hlength := (Sent.of_encodeFragment hlawful hfits hle hj).1
  rw [Slicer.encodeFragment_eq] at hlength
  rw [Sent.wire, (Sent.of_payload hfits hj).1, Sent.of_length]
  exact hlength

/-- Sending fails no assertion, and what is injected are the fragments of the packet in their order. -/
theorem send_eq (hlawful : codec.Lawful) (hfits : face.slicer.Fits codec) (hmtu : face.slicer.mtu = face.interfaceMtu)
    (hle : face.slicer.nFragments packet ≤ 65535) (injected : List Bool) :
    ∃ failed frames, face.send codec packet injected = some ({ face with
        slicer := { face.slicer with
          seqgen := { next := face.slicer.seqgen.next + UInt64.ofNat (face.slicer.nFragments packet) } }
        failed }, frames) ∧
      frames.length = face.slicer.nFragments packet ∧ ∀ (j : Nat) frame, frames[j]? = some (some frame) →
        frame = Ethernet.frameOf face.destAddress face.srcAddress ((Sent.of face.slicer packet).wire codec j) := by
  have hblocks : ∀ block ∈ (List.range (face.slicer.nFragments packet)).map ((Sent.of face.slicer packet).wire codec),
      block.wire.length ≤ face.interfaceMtu := by
    intro block hblock
    obtain ⟨j, hj, rfl⟩ := List.mem_map.mp hblock
    rw [← hmtu]
    exact length_wire_le hlawful hfits hle (List.mem_range.mp hj)
  obtain ⟨failed, frames, hsend, hlength, hframes⟩ := @sendPackets_eq { face with
    slicer := { face.slicer with
      seqgen := { next := face.slicer.seqgen.next + UInt64.ofNat (face.slicer.nFragments packet) } } } _
        hblocks injected
  refine ⟨failed, frames, ?_, ?_, fun j frame h => ?_⟩
  · rw [send, slice_eq hlawful hfits hle, Option.bind_some]
    exact hsend
  · rw [hlength, List.length_map, List.length_range]
  · obtain ⟨block, hblock, rfl⟩ := hframes j frame h
    rw [List.getElem?_map] at hblock
    obtain ⟨k, hk, rfl⟩ := Option.map_eq_some_iff.mp hblock
    obtain ⟨hlt, rfl⟩ := List.getElem?_eq_some_iff.mp hk
    rw [List.getElem_range]

end Sending

section Receiving

variable {face} {codec : TlvCodec} {frame : List UInt8} {source : EthernetAddress}

/-- Whatever a fragment is, a store takes it, and only the message that it is for changes. -/
theorem receiveWire_of_wellFormed (codec : TlvCodec) {store : PartialMessageStore} (h : store.WellFormed)
    (wire : Block) :
    ∃ store' received, receiveWire codec store wire = some (store', received) ∧ store'.WellFormed ∧
      ∀ messageIdentifier, (∀ pkt, NdnlpData.fromBlock codec wire = some pkt →
        pkt.messageIdentifier ≠ messageIdentifier) →
          store'.partialMessages messageIdentifier = store.partialMessages messageIdentifier := by
  rw [receiveWire]
  cases hread : NdnlpData.fromBlock codec wire with
  | none => exact ⟨store, none, rfl, h, fun _ _ => rfl⟩
  | some pkt =>
      dsimp only
      by_cases hsingle : pkt.fragCount = 1
      · rw [PartialMessageStore.receive, if_pos hsingle, PartialMessage.reassembleSingle, if_pos hsingle]
        exact ⟨store, _, rfl, h, fun _ _ => rfl⟩
      · obtain ⟨message, accepted, -, -, -, store', hreceive, hwf, hmessages⟩ :=
          h.receive_fragment codec hsingle (NdnlpData.Accepted.fragIndex_lt ⟨wire, hread⟩)
        refine ⟨store', _, hreceive, hwf, fun messageIdentifier hother => ?_⟩
        rw [hmessages, Function.update_of_ne (hother pkt rfl).symm]

theorem passesFilter_iff : face.passesFilter frame = true ↔ Ethernet.hdrLen ≤ frame.length ∧
    Ethernet.ethertype frame = Ethernet.ethertypeNdn ∧ Ethernet.destination frame = face.destAddress ∧
      Ethernet.source frame ≠ face.srcAddress := by
  rw [passesFilter, Bool.and_eq_true, Bool.and_eq_true, Bool.and_eq_true, decide_eq_true_iff, beq_iff_eq, beq_iff_eq,
    bne_iff_ne, and_assoc, and_assoc]

theorem handleRead_eq_some {face' : EthernetFace} (h : face.handleRead codec frame = some face') :
    face.isOpen = true ∧ face.isReading = true ∧ face.passesFilter frame = true ∧
      face.processIncomingPacket codec frame = some face' := by
  obtain ⟨hcaptures, hprocess⟩ := Option.ite_none_right_eq_some.mp h
  rw [Bool.and_eq_true, Bool.and_eq_true] at hcaptures
  exact ⟨hcaptures.1.1, hcaptures.1.2, hcaptures.2, hprocess⟩

/-- What the filter lets through fails no assertion: it is ignored, or a fragment is received. -/
theorem processIncomingPacket_of_passesFilter (codec : TlvCodec) (h : face.passesFilter frame = true) :
    face.processIncomingPacket codec frame = some face ∨ ∃ wire,
      face.processIncomingPacket codec frame = face.receiveFragment codec (Ethernet.source frame) wire := by
  obtain ⟨-, htype, hdestination, hsource⟩ := passesFilter_iff.mp h
  rw [processIncomingPacket]
  split
  · exact .inl rfl
  · rw [if_neg (by rw [not_or, not_or, not_not, not_not]; exact ⟨hdestination, hsource, htype⟩)]
    cases codec.fromBuffer (frame.drop Ethernet.hdrLen) with
    | none => exact .inl rfl
    | some wire => exact .inr ⟨wire, rfl⟩

/-- A fragment is read from the frame that it was sent in. -/
theorem processIncomingPacket_frameOf (hlawful : codec.Lawful) (sent : Sent) (j : Nat)
    (hlength : (sent.wire codec j).value.length < 2 ^ 64) (hsource : source ≠ face.srcAddress) :
    face.processIncomingPacket codec (Ethernet.frameOf face.destAddress source (sent.wire codec j)) =
      face.receiveFragment codec source (sent.wire codec j) := by
  have hread : codec.fromBuffer ((Ethernet.frameOf face.destAddress source (sent.wire codec j)).drop Ethernet.hdrLen) =
      some (sent.wire codec j) := by
    rw [Ethernet.frameOf_drop]
    exact hlawful.fromBuffer_eq tlvNdnlpData _ _ (by decide) hlength
  rw [processIncomingPacket, if_neg (Nat.not_lt.mpr (Ethernet.frameOf_length _ _ _)), Ethernet.destination_frameOf,
    Ethernet.source_frameOf, Ethernet.ethertype_frameOf, if_neg (by simpa using hsource), hread]

end Receiving

end EthernetFace
end NfdPitless
