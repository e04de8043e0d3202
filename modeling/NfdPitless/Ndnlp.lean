import NfdPitless.Tlv
import Mathlib.Logic.Function.Basic

/-! NDNLP: the packets and the reassembly of fragments (`face/ndnlp-data.cpp`,
`face/ndnlp-partial-message-store.cpp`). -/

namespace NfdPitless.Ndnlp

def tlvNdnlpData : Nat := 80
def tlvNdnlpSequence : Nat := 81
def tlvNdnlpFragIndex : Nat := 82
def tlvNdnlpFragCount : Nat := 83
def tlvNdnlpPayload : Nat := 84

structure NdnlpData where
  seq : UInt64
  fragIndex : UInt16
  fragCount : UInt16
  payload : Block
  deriving DecidableEq

/-- Parse a packet; `none` when it is refused or the parsing throws. -/
def NdnlpData.fromBlock (codec : TlvCodec) (wire : Block) : Option NdnlpData := do
  guard (wire.type = tlvNdnlpData)
  let elements ← codec.parse wire.value
  guard (2 ≤ elements.length)
  let sequenceElement ← elements.head?
  guard (sequenceElement.type = tlvNdnlpSequence)
  guard (sequenceElement.value.length = 8)
  let seq := UInt64.ofNat (ofBigEndian sequenceElement.value)
  let payload ← elements.getLast?
  guard (payload.type = tlvNdnlpPayload)
  if elements.length = 2 then
    return { seq, fragIndex := 0, fragCount := 1, payload }
  guard (elements.length = 4)
  let fragIndexElement ← elements[1]?
  guard (fragIndexElement.type = tlvNdnlpFragIndex)
  let fragIndex ← codec.readNonNegativeInteger fragIndexElement.value
  guard (fragIndex ≤ 65535)
  let fragCountElement ← elements[2]?
  guard (fragCountElement.type = tlvNdnlpFragCount)
  let fragCount ← codec.readNonNegativeInteger fragCountElement.value
  guard (fragCount ≤ 65535)
  guard (UInt16.ofNat fragIndex < UInt16.ofNat fragCount)
  return { seq, fragIndex := UInt16.ofNat fragIndex, fragCount := UInt16.ofNat fragCount, payload }

/-- What fragments of one message have in common, modulo `2 ^ 64`. -/
def NdnlpData.messageIdentifier (pkt : NdnlpData) : UInt64 := pkt.seq - pkt.fragIndex.toUInt64

/-- A message of which fragments are missing. In `payloads` an empty block is `none`; a payload is not empty, even
without octets, as it has a type. -/
structure PartialMessage where
  expiry : Option Nat
  fragCount : Nat
  received : Nat
  payloads : List (Option Block)
  totalLength : Nat

namespace PartialMessage

def new : PartialMessage := { expiry := none, fragCount := 0, received := 0, payloads := [], totalLength := 0 }

/-- What `add` does on the first packet. -/
def start (message : PartialMessage) (fragCount : UInt16) : PartialMessage :=
  if message.received = 0 then
    { message with
      fragCount := fragCount.toNat
      payloads := message.payloads.take fragCount.toNat ++
        List.replicate (fragCount.toNat - message.payloads.length) none }
  else message

/-- The message with the payload, and whether it was accepted; `none` where an access is out of bounds. -/
def add (message : PartialMessage) (fragIndex fragCount : UInt16) (payload : Block) : Option (PartialMessage × Bool) :=
  let message := message.start fragCount
  if message.fragCount ≠ fragCount.toNat ∨ message.fragCount ≤ fragIndex.toNat then some (message, false)
  else
    (message.payloads[fragIndex.toNat]?).map fun existing =>
      if existing.isSome then (message, false)
      else
        ({ message with
            payloads := message.payloads.set fragIndex.toNat (some payload)
            received := message.received + 1
            totalLength := message.totalLength + payload.value.length }, true)

def isComplete (message : PartialMessage) : Bool := message.received == message.fragCount

/-- The octets of all payloads in order. -/
def octets (message : PartialMessage) : List UInt8 :=
  message.payloads.flatMap fun payload => payload.elim [] Block.value

/-- The outer option is `none` where an assertion fails, or where more is copied than the buffer holds. -/
def reassemble (codec : TlvCodec) (message : PartialMessage) : Option (Option Block) :=
  if message.isComplete = true ∧ message.octets.length = message.totalLength then some (codec.fromBuffer message.octets)
  else none

def reassembleSingle (codec : TlvCodec) (fragment : NdnlpData) : Option (Option Block) :=
  if fragment.fragCount = 1 then some (codec.blockFromValue fragment.payload.value) else none

end PartialMessage

/-- The partial messages, and the scheduler's pending cleanup events with the message they are for. -/
structure PartialMessageStore where
  partialMessages : UInt64 → Option PartialMessage
  events : List (Nat × UInt64)
  nextEvent : Nat

namespace PartialMessageStore

def empty : PartialMessageStore := { partialMessages := fun _ => none, events := [], nextEvent := 0 }

/-- `scheduler::cancel`. -/
def cancel (store : PartialMessageStore) (event : Option Nat) : PartialMessageStore :=
  { store with events := store.events.filter fun pending => some pending.1 != event }

/-- Erasing a message cancels its event. -/
def erase (store : PartialMessageStore) (messageIdentifier : UInt64) : PartialMessageStore :=
  let store' := store.cancel ((store.partialMessages messageIdentifier).bind PartialMessage.expiry)
  { store' with partialMessages := Function.update store.partialMessages messageIdentifier none }

/-- The new event is scheduled before the old one is cancelled. -/
def scheduleCleanup (store : PartialMessageStore) (messageIdentifier : UInt64) (message : PartialMessage) :
    PartialMessageStore × PartialMessage :=
  let scheduled : PartialMessageStore :=
    { store with events := (store.nextEvent, messageIdentifier) :: store.events, nextEvent := store.nextEvent + 1 }
  (scheduled.cancel message.expiry, { message with expiry := some store.nextEvent })

/-- Receive a packet: the block that is delivered, if any. -/
def receive (codec : TlvCodec) (store : PartialMessageStore) (pkt : NdnlpData) :
    Option (PartialMessageStore × Option Block) :=
  if pkt.fragCount = 1 then
    (PartialMessage.reassembleSingle codec pkt).map fun reassembled => (store, reassembled)
  else
    let (scheduled, message) := store.scheduleCleanup pkt.messageIdentifier
      ((store.partialMessages pkt.messageIdentifier).getD .new)
    (message.add pkt.fragIndex pkt.fragCount pkt.payload).bind fun (message, _) =>
      let stored : PartialMessageStore := { scheduled with
        partialMessages := Function.update store.partialMessages pkt.messageIdentifier (some message) }
      if message.isComplete then
        (message.reassemble codec).map fun reassembled => (stored.erase pkt.messageIdentifier, reassembled)
      else some (stored, none)

/-- A pending event fires: `cleanup` of its message. -/
def fire (store : PartialMessageStore) (event : Nat) : Option PartialMessageStore :=
  (store.events.find? fun pending => pending.1 == event).map fun pending =>
    (store.cancel (some event)).erase pending.2

end PartialMessageStore
end NfdPitless.Ndnlp
