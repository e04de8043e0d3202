import NfdPitless.FaceTable
import NfdPitless.Network
import NfdPitless.Tlv

/-! UDP faces: the factory (`daemon/face/udp-factory.cpp`), its channels (`udp-channel.cpp`) and the faces with
their sockets (`datagram-face.hpp`, `udp-face.cpp`), together with the face table that the callback of a created
face adds it to. A new object is any that was never used; what a socket does is part of the events. -/

namespace NfdPitless

structure Endpoint where
  address : Address
  port : Nat
  deriving DecidableEq

namespace Endpoint

def isV4 (endpoint : Endpoint) : Bool :=
  match endpoint.address with
  | .v4 _ => true
  | .v6 _ _ => false

/-- `address::is_multicast`: 224.0.0.0/4, or ff00::/8. -/
def isMulticast (endpoint : Endpoint) : Bool :=
  match endpoint.address with
  | .v4 bytes => bytes[0] &&& 240 == 224
  | .v6 bytes _ => bytes[0] == 255

/-- The order of `std::map` and `std::set`. -/
def less (a b : Endpoint) : Bool :=
  a.address.less b.address || (a.address == b.address && decide (a.port < b.port))

end Endpoint

def allV4Endpoint : Address := .v4 (Vector.replicate 4 0)
def allV6Endpoint : Address := .v6 (Vector.replicate 16 0) 0

/-- What the factory reads of a network interface; the broadcast address of one that can broadcast. -/
structure NetworkInterfaceInfo where
  ipv4Addresses : List Address
  ipv6Addresses : List Address
  broadcastAddress : Option Address

/-- `ndn::nfd::FacePersistency`. -/
inductive FacePersistency where
  | onDemand
  | persistent
  | permanent
  deriving DecidableEq

/-- The errors of a socket that are told apart. -/
inductive SocketError where
  | operationAborted
  | other
  deriving DecidableEq

structure UdpFace where
  localEndpoint : Endpoint
  /-- The multicast group of a `MulticastUdpFace`. -/
  remoteEndpoint : Endpoint
  isMultiAccess : Bool
  persistency : FacePersistency
  isOpen : Bool
  hasBeenUsedRecently : Bool
  /-- In seconds. -/
  idleTimeout : Nat
  lastIdleCheck : Nat
  /-- When the pending call of `closeIfIdle` is due. -/
  closeIfIdleEvent : Option Nat
  deriving DecidableEq

/-- The idle timeout in units of the clock. -/
def UdpFace.timeout (u : UdpFace) : Nat := milliseconds (1000 * u.idleTimeout)

structure UdpSystem where
  now : Nat
  table : FaceTable
  faces : Face → Option UdpFace
  /-- The channels in the order of their endpoints, each with the idle timeout of its faces. -/
  channels : List (Endpoint × Nat)
  /-- `m_channelFaces` of the channel at an endpoint. -/
  channelFaces : Endpoint → Endpoint → Option Face
  multicastFaces : Endpoint → Option Face
  prohibitedEndpoints : List Endpoint

namespace UdpSystem

/-- No UDP face and no channel, beside the faces of a table. -/
def new (table : FaceTable) : UdpSystem :=
  { now := 0, table, faces := fun _ => none, channels := [], channelFaces := fun _ _ => none
    multicastFaces := fun _ => none, prohibitedEndpoints := [] }

def setFace (s : UdpSystem) (face : Face) (u : UdpFace) : UdpSystem :=
  { s with faces := Function.update s.faces face (some u) }

def setChannelFace (s : UdpSystem) (localEndpoint remoteEndpoint : Endpoint) (face : Option Face) : UdpSystem :=
  let faces := Function.update (s.channelFaces localEndpoint) remoteEndpoint face
  { s with channelFaces := Function.update s.channelFaces localEndpoint faces }

/-- An object that was never used: it has no id, and no handler. -/
def isNew (s : UdpSystem) (face : Face) : Bool :=
  (s.faces face).isNone && s.table.getId face == FaceTable.invalidFaceId && !s.table.isFailed face &&
    s.table.onFail face == 0 && s.table.faces FaceTable.invalidFaceId != some face

/-- `Face::fail`, with the handler that forgets the face in its channel or factory, and `FaceTable::remove`. -/
def fail (s : UdpSystem) (face : Face) (u : UdpFace) : UdpSystem :=
  if s.table.isFailed face then s
  else
    let s' := { s with table := s.table.fail face }
    if u.isMultiAccess then { s' with multicastFaces := Function.update s.multicastFaces u.localEndpoint none }
    else s'.setChannelFace u.localEndpoint u.remoteEndpoint none

def closeSocket (s : UdpSystem) (face : Face) (u : UdpFace) : UdpSystem := s.setFace face { u with isOpen := false }

def close (s : UdpSystem) (face : Face) (u : UdpFace) : UdpSystem :=
  if u.isOpen then (s.closeSocket face u).fail face u else s

def processErrorCode (s : UdpSystem) (face : Face) (u : UdpFace) (error : SocketError) : UdpSystem :=
  if error = .operationAborted then s
  else if u.persistency = .permanent then s
  else if u.isOpen = false then s.fail face u
  else (s.closeSocket face u).fail face u

/-- The types of Interest and Data. -/
def tlvInterest : Nat := 5
def tlvData : Nat := 6

/-- `Face::decodeAndDispatchInput`; whether the packet is decoded by `wireDecode` is up to ndn-cxx. -/
def decodeAndDispatchInput (wireDecode : Block → Bool) (element : Block) : Bool :=
  (element.type == tlvInterest || element.type == tlvData) && wireDecode element

/-- The datagram is one element, and a packet. -/
def isPacket (fromBuffer : List UInt8 → Option Block) (wireDecode : Block → Bool) (buffer : List UInt8) : Bool :=
  (fromBuffer buffer).any fun element =>
    element.wire.length == buffer.length && decodeAndDispatchInput wireDecode element

/-- `receiveDatagram`; only a packet extends the lifetime of the face. -/
def receiveDatagram (isPacket : List UInt8 → Bool) (s : UdpSystem) (face : Face) (u : UdpFace) :
    Except SocketError (List UInt8) → UdpSystem
  | .error error => s.processErrorCode face u error
  | .ok buffer => if isPacket buffer then s.setFace face { u with hasBeenUsedRecently := true } else s

/-- `closeIfIdle`, when its event fires. -/
def closeIfIdle (s : UdpSystem) (face : Face) (u : UdpFace) : UdpSystem :=
  let u := { u with closeIfIdleEvent := none }
  let s := s.setFace face u
  if u.persistency = .onDemand then
    if u.hasBeenUsedRecently = false then s.close face u
    else
      s.setFace face { u with hasBeenUsedRecently := false, lastIdleCheck := s.now
                              closeIfIdleEvent := some (s.now + u.timeout) }
  else s

/-- `getFaceStatus`: the expiration period, in milliseconds, of an on-demand face. -/
def expirationPeriod (s : UdpSystem) (u : UdpFace) : Option Nat :=
  if u.persistency = .onDemand then
    let left := 1000 * u.idleTimeout - (s.now - u.lastIdleCheck) / milliseconds 1
    some (if u.hasBeenUsedRecently then left + 1000 * u.idleTimeout else left)
  else none

/-- Whether `createFace` of the channel changes the persistency of a face that exists. -/
def isTransitionAllowed (old new : FacePersistency) : Bool := new != old && (old == .onDemand || new == .permanent)

/-- The constructor of `UdpFace`, on a connected socket. The flag `hasBeenUsedRecently` is not initialized. -/
def newFace (s : UdpSystem) (localEndpoint : Endpoint) (idleTimeout : Nat) (remoteEndpoint : Endpoint)
    (persistency : FacePersistency) (uninitialized : Bool) : UdpFace :=
  let u : UdpFace :=
    { localEndpoint, remoteEndpoint, isMultiAccess := false, persistency, isOpen := true
      hasBeenUsedRecently := uninitialized, idleTimeout, lastIdleCheck := s.now, closeIfIdleEvent := none }
  if persistency = .onDemand ∧ 0 < idleTimeout then { u with closeIfIdleEvent := some (s.now + u.timeout) } else u

/-- `UdpChannel::createFace`: whether the face was created, and the face. -/
def channelCreateFace (s : UdpSystem) (localEndpoint : Endpoint) (idleTimeout : Nat) (remoteEndpoint : Endpoint)
    (persistency : FacePersistency) (object : Face) (uninitialized : Bool) : Option (UdpSystem × Bool × Face) :=
  match s.channelFaces localEndpoint remoteEndpoint with
  | some face =>
      (s.faces face).map fun u =>
        (if isTransitionAllowed u.persistency persistency then s.setFace face { u with persistency } else s,
          false, face)
  | none =>
      if s.isNew object then
        let u := s.newFace localEndpoint idleTimeout remoteEndpoint persistency uninitialized
        some ((s.setFace object u).setChannelFace localEndpoint remoteEndpoint (some object), true, object)
      else none

/-- The callback of a created face. -/
def onFaceCreated (s : UdpSystem) (face : Face) : Option UdpSystem :=
  (s.table.add face).map fun table => { s with table }

/-- `UdpChannel::connect`. -/
def connect (s : UdpSystem) (localEndpoint : Endpoint) (idleTimeout : Nat) (remoteEndpoint : Endpoint)
    (persistency : FacePersistency) (object : Face) (uninitialized : Bool) : Option UdpSystem :=
  (s.channelCreateFace localEndpoint idleTimeout remoteEndpoint persistency object uninitialized).bind fun created =>
    created.1.onFaceCreated created.2.2

/-- `UdpChannel::handleNewPeer`, of a datagram without error. -/
def handleNewPeer (isPacket : List UInt8 → Bool) (s : UdpSystem) (localEndpoint : Endpoint) (idleTimeout : Nat)
    (remoteEndpoint : Endpoint) (buffer : List UInt8) (object : Face) (uninitialized : Bool) : Option UdpSystem :=
  (s.channelCreateFace localEndpoint idleTimeout remoteEndpoint .onDemand object uninitialized).bind fun created =>
    (if created.2.1 then created.1.onFaceCreated created.2.2 else some created.1).bind fun s =>
      (s.faces created.2.2).map fun u => receiveDatagram isPacket s created.2.2 u (.ok buffer)

/-- The endpoints that `prohibitAllIpv4Endpoints` prohibits; none of them is the address of all. -/
def allIpv4Endpoints (nics : List NetworkInterfaceInfo) (port : Nat) : List Endpoint :=
  (nics.flatMap fun nic => (nic.ipv4Addresses ++ nic.broadcastAddress.toList).filter (· != allV4Endpoint)).map
    (⟨·, port⟩) ++ [⟨.v4 (Vector.replicate 4 255), port⟩]

def allIpv6Endpoints (nics : List NetworkInterfaceInfo) (port : Nat) : List Endpoint :=
  (nics.flatMap fun nic => nic.ipv6Addresses.filter (· != allV6Endpoint)).map (⟨·, port⟩)

def prohibitEndpoint (s : UdpSystem) (nics : List NetworkInterfaceInfo) (endpoint : Endpoint) : UdpSystem :=
  let all :=
    if endpoint.address = allV4Endpoint then allIpv4Endpoints nics endpoint.port
    else if endpoint.address = allV6Endpoint then allIpv6Endpoints nics endpoint.port
    else []
  { s with prohibitedEndpoints := endpoint :: all ++ s.prohibitedEndpoints }

/-- `m_channels[endpoint] = channel`, of an endpoint without a channel. -/
def insertChannel (endpoint : Endpoint) (idleTimeout : Nat) (channels : List (Endpoint × Nat)) :
    List (Endpoint × Nat) :=
  channels.takeWhile (fun channel => channel.1.less endpoint) ++
    (endpoint, idleTimeout) :: channels.dropWhile fun channel => channel.1.less endpoint

def findChannel (s : UdpSystem) (endpoint : Endpoint) : Option (Endpoint × Nat) :=
  s.channels.find? fun channel => channel.1 == endpoint

/-- `UdpFactory::createChannel`; where it throws, nothing has changed. -/
def createChannel (s : UdpSystem) (endpoint : Endpoint) (idleTimeout : Nat) (nics : List NetworkInterfaceInfo) :
    UdpSystem :=
  if (s.findChannel endpoint).isSome then s
  else if (s.multicastFaces endpoint).isSome then s
  else if endpoint.isMulticast then s
  else ({ s with channels := insertChannel endpoint idleTimeout s.channels }).prohibitEndpoint nics endpoint

/-- `UdpFactory::createMulticastFace`; where it throws, nothing has changed. -/
def createMulticastFace (s : UdpSystem) (localEndpoint multicastEndpoint : Endpoint) (object : Face)
    (uninitialized socketFails : Bool) : Option UdpSystem :=
  if (s.multicastFaces localEndpoint).isSome then some s
  else if (s.findChannel localEndpoint).isSome then some s
  else if multicastEndpoint ∈ s.prohibitedEndpoints then some s
  else if localEndpoint.isV4 = false ∨ multicastEndpoint.isV4 = false then some s
  else if localEndpoint.port ≠ multicastEndpoint.port then some s
  else if multicastEndpoint.isMulticast = false then some s
  else if socketFails then some s
  else if s.isNew object then
    let u := { localEndpoint, remoteEndpoint := multicastEndpoint, isMultiAccess := true, persistency := .persistent
               isOpen := true, hasBeenUsedRecently := uninitialized, idleTimeout := 0, lastIdleCheck := 0
               closeIfIdleEvent := none }
    some { s.setFace object u with multicastFaces := Function.update s.multicastFaces localEndpoint (some object) }
  else none

/-- `UdpFactory::createFace`, the face being added to the table; where it throws or `onConnectFailed` is called,
nothing has changed. -/
def createFace (s : UdpSystem) (remoteEndpoint : Endpoint) (persistency : FacePersistency) (object : Face)
    (uninitialized socketFails : Bool) : Option UdpSystem :=
  if persistency = .onDemand then some s
  else if remoteEndpoint.isMulticast then some s
  else if remoteEndpoint ∈ s.prohibitedEndpoints then some s
  else
    match s.channels.find? fun channel => channel.1.isV4 == remoteEndpoint.isV4 with
    | none => some s
    | some channel =>
        if socketFails && (s.channelFaces channel.1 remoteEndpoint).isNone then some s
        else s.connect channel.1 channel.2 remoteEndpoint persistency object uninitialized

/-- `FaceManager::destroyFace`. -/
def destroyFace (s : UdpSystem) (faceId : FaceTable.FaceId) : UdpSystem :=
  match s.table.faces faceId with
  | none => s
  | some face =>
      match s.faces face with
      | none => s
      | some u => s.close face u

inductive Event where
  | createChannel (endpoint : Endpoint) (idleTimeout : Nat) (nics : List NetworkInterfaceInfo)
  | createMulticastFace (localEndpoint multicastEndpoint : Endpoint) (object : Face) (uninitialized socketFails : Bool)
  | createFace (remoteEndpoint : Endpoint) (persistency : FacePersistency) (object : Face)
      (uninitialized socketFails : Bool)
  | newPeer (localEndpoint remoteEndpoint : Endpoint) (buffer : List UInt8) (object : Face) (uninitialized : Bool)
  | receive (face : Face) (input : Except SocketError (List UInt8))
  | sendError (face : Face) (error : SocketError)
  | closeIfIdle (face : Face)
  | destroyFace (faceId : FaceTable.FaceId)
  /-- A face of another kind is added to the table. -/
  | addOther (face : Face)
  | failOther (face : Face)
  | advanceClock (duration : Nat)

/-- One step; `none` where it cannot be taken, or an assertion of the face table fails. -/
def step (isPacket : List UInt8 → Bool) (s : UdpSystem) : Event → Option UdpSystem
  | .createChannel endpoint idleTimeout nics => some (s.createChannel endpoint idleTimeout nics)
  | .createMulticastFace localEndpoint multicastEndpoint object uninitialized socketFails =>
      s.createMulticastFace localEndpoint multicastEndpoint object uninitialized socketFails
  | .createFace remoteEndpoint persistency object uninitialized socketFails =>
      s.createFace remoteEndpoint persistency object uninitialized socketFails
  | .newPeer localEndpoint remoteEndpoint buffer object uninitialized =>
      (s.findChannel localEndpoint).bind fun channel =>
        handleNewPeer isPacket s channel.1 channel.2 remoteEndpoint buffer object uninitialized
  | .receive face input => (s.faces face).map fun u => receiveDatagram isPacket s face u input
  | .sendError face error => (s.faces face).map fun u => s.processErrorCode face u error
  | .closeIfIdle face =>
      (s.faces face).bind fun u =>
        if u.closeIfIdleEvent.any (· ≤ s.now) then some (s.closeIfIdle face u) else none
  | .destroyFace faceId => some (s.destroyFace faceId)
  | .addOther face =>
      if (s.faces face).isNone && s.table.faces FaceTable.invalidFaceId != some face then s.onFaceCreated face else none
  | .failOther face => if (s.faces face).isNone then some { s with table := s.table.fail face } else none
  | .advanceClock duration => some { s with now := s.now + duration }

end UdpSystem
end NfdPitless
