import NfdPitless.EthernetFace
import NfdPitless.Runs

/-! Ethernet faces on one network segment. Every frame that is sent may reach any face of its group, at any time and in
any order, or be lost; other stations may send frames of their own; the timers fire at any time. -/

namespace NfdPitless

open Ndnlp

/-- What an Ethernet face is made with. -/
structure Station where
  srcAddress : EthernetAddress
  destAddress : EthernetAddress
  mtu : Nat
  seq : UInt64

/-- A packet that a face has sent, with its frames, without those that were not injected. -/
structure Transmission where
  face : Nat
  packet : Block
  frames : List (Option (List UInt8))

structure EthernetSegment where
  faces : List EthernetFace
  sent : List Transmission
  /-- Which frames the faces have captured: the face, the transmission and the position of the frame. -/
  received : List (Nat × Nat × Nat)

namespace EthernetSegment

def new (codec : TlvCodec) (stations : List Station) : EthernetSegment :=
  { faces := stations.map fun st => .new codec st.srcAddress st.destAddress st.mtu st.seq, sent := [], received := [] }

def setFace (s : EthernetSegment) (b : Nat) (face : EthernetFace) : EthernetSegment :=
  { s with faces := s.faces.set b face }

/-- A face has sent a packet. -/
def transmitted (s : EthernetSegment) (face : EthernetFace) (t : Transmission) : EthernetSegment :=
  { faces := s.faces.set t.face face, sent := s.sent ++ [t], received := s.received }

def frameAt (s : EthernetSegment) (p j : Nat) : Option (List UInt8) :=
  (s.sent[p]?).bind fun t => (t.frames[j]?).join

/-- How many fragments a face has numbered. -/
def fragmentsSent (s : EthernetSegment) (a : Nat) : Nat :=
  ((s.sent.filter fun t => t.face == a).map fun t => t.frames.length).sum

/-- The frame is not from a face of the group. -/
def isForeign (s : EthernetSegment) (face : EthernetFace) (frame : List UInt8) : Bool :=
  s.faces.all fun other => other.srcAddress != Ethernet.source frame || other.destAddress != face.destAddress

inductive Event where
  | send (a : Nat) (packet : Block) (injected : List Bool)
  | deliver (b p j : Nat)
  | foreign (b : Nat) (frame : List UInt8)
  | cleanup (b : Nat) (source : EthernetAddress) (event : Nat)
  | expire (b event : Nat)
  | close (b : Nat)
  | readError (b : Nat) (isAborted : Bool)

def step (codec : TlvCodec) (s : EthernetSegment) : Event → Option EthernetSegment
  | .send a packet injected =>
      (s.faces[a]?).bind fun face => (face.send codec packet injected).map fun result =>
        s.transmitted result.1 { face := a, packet, frames := result.2 }
  | .deliver b p j =>
      (s.faces[b]?).bind fun face => (s.frameAt p j).bind fun frame =>
        if (b, p, j) ∈ s.received then none
        else (face.handleRead codec frame).map fun face =>
          { s.setFace b face with received := (b, p, j) :: s.received }
  | .foreign b frame =>
      (s.faces[b]?).bind fun face =>
        if s.isForeign face frame then (face.handleRead codec frame).map (s.setFace b) else none
  | .cleanup b source event =>
      (s.faces[b]?).bind fun face => (face.cleanup source event).map (s.setFace b)
  | .expire b event => (s.faces[b]?).bind fun face => (face.expire event).map (s.setFace b)
  | .close b => (s.faces[b]?).map fun face => s.setFace b face.close
  | .readError b isAborted => (s.faces[b]?).map fun face => s.setFace b (face.handleReadError isAborted)

/-- What is sent are elements of at most 65535 fragments, and no face has used up its sequence numbers. -/
def Sendable (codec : TlvCodec) (s : EthernetSegment) : Event → Prop
  | .send a packet _ => codec.fromBuffer packet.wire = some packet ∧ ∀ face, s.faces[a]? = some face →
      face.slicer.nFragments packet ≤ 65535 ∧ s.fragmentsSent a + face.slicer.nFragments packet ≤ 2 ^ 64
  | _ => True

/-- The stations have different addresses or groups, and MTUs that leave room for the headers. -/
structure Sound (codec : TlvCodec) (stations : List Station) : Prop where
  distinct : (stations.map fun st => (st.srcAddress, st.destAddress)).Nodup
  mtu_lt : ∀ st ∈ stations, st.mtu < 2 ^ 64
  overhead_lt : ∀ st ∈ stations, Slicer.overhead codec st.mtu < st.mtu

variable {codec : TlvCodec} {stations : List Station} {s s' : EthernetSegment}

/-- The store holds the fragments of a message that it has, unless it has all of them. -/
def Held (codec : TlvCodec) (sent : Sent) (indexes : List Nat) (store : PartialMessageStore) : Prop :=
  Holds codec [sent] (indexes.map (Prod.mk 0)) store

section Held

variable {sent : Sent} {indexes : List Nat} {store store' : PartialMessageStore} {j : Nat}

theorem mem_map_mk : (0, j) ∈ indexes.map (Prod.mk 0) ↔ j ∈ indexes := by
  rw [List.mem_map]
  exact ⟨fun ⟨k, hk, heq⟩ => (Prod.mk.inj heq).2 ▸ hk, fun hj => ⟨j, hj, rfl⟩⟩

theorem Held.of_none (hwf : store.WellFormed) (hnone : store.partialMessages sent.seq = none) :
    Held codec sent [] store := by
  refine ⟨hwf, fun i sent' hsent' _ => .inl ?_⟩
  obtain ⟨-, rfl⟩ : i = 0 ∧ sent = sent' := by simpa [List.getElem?_singleton] using hsent'
  exact ⟨hnone, .inl fun _ => List.not_mem_nil⟩

/-- What the store does with other messages does not matter. -/
theorem Held.congr (h : Held codec sent indexes store) (hwf : store'.WellFormed)
    (hsame : store'.partialMessages sent.seq = store.partialMessages sent.seq) : Held codec sent indexes store' := by
  refine ⟨hwf, fun i sent' hsent' hlength => ?_⟩
  have hmessage := h.message i sent' hsent' hlength
  obtain ⟨-, rfl⟩ : i = 0 ∧ sent = sent' := by simpa [List.getElem?_singleton] using hsent'
  rw [hsame]
  exact hmessage

theorem Held.receive (h : Held codec sent indexes store) (hlawful : codec.Lawful) (hreadable : sent.Readable codec)
    (hj : j < sent.payloads.length) (hnew : j ∉ indexes) :
    ∃ store', receiveWire codec store (sent.wire codec j) =
        some (store', if ∀ k < sent.payloads.length, k ∈ j :: indexes then some sent.message else none) ∧
      Held codec sent (j :: indexes) store' := by
  obtain ⟨store', hreceive, hheld⟩ := Holds.receive h hlawful (i := 0)
    (fun i' sent' hi hsent' => absurd hsent' (by simp [hi])) rfl hreadable hj
    (fun hmem => hnew (mem_map_mk.mp hmem))
  refine ⟨store', ?_, hheld⟩
  rw [hreceive]
  refine congrArg (fun received => some (store', received)) (if_congr (forall₂_congr fun k _ => ?_) rfl rfl)
  exact @mem_map_mk (j :: indexes) k

end Held

/-! ### The senders -/

/-- A transmission and the message that its frames carry the fragments of. -/
structure Carried (codec : TlvCodec) (st : Station) (t : Transmission) (sent : Sent) : Prop where
  message : sent.message = t.packet
  readable : sent.Readable codec
  length : t.frames.length = sent.payloads.length
  frame : ∀ (j : Nat) frame, t.frames[j]? = some (some frame) →
    frame = Ethernet.frameOf st.destAddress st.srcAddress (sent.wire codec j)
  short : ∀ j < sent.payloads.length, (sent.wire codec j).value.length < 2 ^ 64

/-- The face of a station that has numbered some fragments. -/
structure Sends (codec : TlvCodec) (st : Station) (nFragments : Nat) (face : EthernetFace) : Prop where
  srcAddress : face.srcAddress = st.srcAddress
  destAddress : face.destAddress = st.destAddress
  interfaceMtu : face.interfaceMtu = st.mtu
  slicer : face.slicer = { Slicer.new codec st.mtu st.seq with seqgen := { next := st.seq + UInt64.ofNat nFragments } }

/-- A face of the sender's group, but not the sender, may capture the frame. -/
def MayCapture (stations : List Station) (sent : List Transmission) (b p j : Nat) : Prop :=
  ∃ t st other frame, sent[p]? = some t ∧ stations[t.face]? = some st ∧ stations[b]? = some other ∧
    st.destAddress = other.destAddress ∧ t.face ≠ b ∧ t.frames[j]? = some (some frame)

/-- What holds of the senders, with the messages of the transmissions. -/
structure Transmitted (codec : TlvCodec) (stations : List Station) (s : EthernetSegment) (sentAt : Nat → Sent) :
    Prop where
  length : s.faces.length = stations.length
  face : ∀ (a : Nat) st face, stations[a]? = some st → s.faces[a]? = some face → Sends codec st (s.fragmentsSent a) face
  carried : ∀ (p : Nat) t, s.sent[p]? = some t → ∃ st, stations[t.face]? = some st ∧ Carried codec st t (sentAt p) ∧
    ∃ k, (sentAt p).seq = st.seq + UInt64.ofNat k ∧ k + t.frames.length ≤ s.fragmentsSent t.face
  apart : ∀ (p q : Nat) t t', s.sent[p]? = some t → s.sent[q]? = some t' → t.face = t'.face → p ≠ q →
    (sentAt p).seq ≠ (sentAt q).seq
  bound : ∀ a, s.fragmentsSent a ≤ 2 ^ 64
  received : ∀ b p j, (b, p, j) ∈ s.received → MayCapture stations s.sent b p j

section Senders

variable {sentAt : Nat → Sent}

theorem getElem?_append_singleton {α : Type} {l : List α} {x y : α} {i : Nat} :
    (l ++ [x])[i]? = some y ↔ l[i]? = some y ∨ i = l.length ∧ y = x := by
  rw [List.getElem?_append]
  split
  · rename_i hlt
    exact ⟨.inl, fun h => h.resolve_right fun heq => absurd heq.1 hlt.ne⟩
  · rename_i hge
    rw [List.getElem?_singleton]
    constructor
    · intro h
      split at h
      · exact .inr ⟨by omega, (Option.some.inj h).symm⟩
      · cases h
    · rintro (h | ⟨rfl, rfl⟩)
      · exact absurd (List.getElem?_eq_some_iff.mp h).1 hge
      · rw [Nat.sub_self]
        rfl

theorem new_transmitted (codec : TlvCodec) (stations : List Station) (sentAt : Nat → Sent) :
    Transmitted codec stations (new codec stations) sentAt where
  length := List.length_map _
  face a st face hst hface := by
    rw [new, List.getElem?_map, hst] at hface
    cases hface
    refine ⟨rfl, rfl, rfl, ?_⟩
    change Slicer.new codec st.mtu st.seq = _
    rw [Slicer.new]
    dsimp only [fragmentsSent, new]
    simp
  carried _ _ h := nomatch h
  apart _ _ _ _ h := nomatch h
  bound _ := Nat.zero_le _
  received _ _ _ h := nomatch h

theorem Sends.fits (hsound : Sound codec stations) {a : Nat} {st : Station} (hst : stations[a]? = some st) {n : Nat}
    {face : EthernetFace} (h : Sends codec st n face) :
    face.slicer.Fits codec ∧ face.slicer.mtu = face.interfaceMtu := by
  have hmem := List.mem_of_getElem? hst
  obtain ⟨hlt, hoverhead, heq⟩ := Slicer.new_fits st.seq (hsound.mtu_lt st hmem) (hsound.overhead_lt st hmem)
  rw [h.slicer, h.interfaceMtu]
  exact ⟨⟨hlt, hoverhead, heq⟩, rfl⟩

/-- A face changes in what it receives. -/
theorem Transmitted.setFace (h : Transmitted codec stations s sentAt) {b : Nat} {face face' : EthernetFace}
    (hface : s.faces[b]? = some face) (hsrc : face'.srcAddress = face.srcAddress)
    (hdest : face'.destAddress = face.destAddress) (hmtu : face'.interfaceMtu = face.interfaceMtu)
    (hslicer : face'.slicer = face.slicer) : Transmitted codec stations (s.setFace b face') sentAt where
  length := (List.length_set).trans h.length
  face a st other hst hother := by
    change (s.faces.set b face')[a]? = some other at hother
    rw [List.getElem?_set] at hother
    split at hother
    · rename_i heq
      subst heq
      obtain ⟨-, rfl⟩ := Option.ite_none_right_eq_some.mp hother |>.imp_right Option.some.inj
      obtain ⟨h₁, h₂, h₃, h₄⟩ := h.face b st face hst hface
      exact ⟨hsrc.trans h₁, hdest.trans h₂, hmtu.trans h₃, hslicer.trans h₄⟩
    · exact h.face a st other hst hother
  carried := h.carried
  apart := h.apart
  bound := h.bound
  received := h.received

theorem fragmentsSent_transmitted (s : EthernetSegment) (face : EthernetFace) (t : Transmission) (a : Nat) :
    (s.transmitted face t).fragmentsSent a = s.fragmentsSent a + if t.face = a then t.frames.length else 0 := by
  rw [fragmentsSent, transmitted, List.filter_append, List.map_append, List.sum_append, fragmentsSent]
  by_cases hface : t.face = a <;> simp [hface]

/-- The numbers of a transmission are not those of an earlier one. -/
theorem seq_ne_of_lt {seq : UInt64} {k k' : Nat} (hlt : k < k') (hk' : k' < 2 ^ 64) :
    seq + UInt64.ofNat k ≠ seq + UInt64.ofNat k' := by
  intro heq
  have hnat := congrArg UInt64.toNat (add_left_cancel heq)
  rw [UInt64.toNat_ofNat_of_lt' (hlt.trans hk'), UInt64.toNat_ofNat_of_lt' hk'] at hnat
  exact hlt.ne hnat

/-- Sending fails no assertion, and adds a transmission with numbers of its own. -/
theorem Transmitted.send (h : Transmitted codec stations s sentAt) (hlawful : codec.Lawful)
    (hsound : Sound codec stations) {a : Nat} {packet : Block} {injected : List Bool}
    (hok : Sendable codec s (.send a packet injected)) {face : EthernetFace} (hface : s.faces[a]? = some face) :
    ∃ st slicer failed frames, stations[a]? = some st ∧
      face.send codec packet injected = some ({ face with slicer, failed }, frames) ∧
      Carried codec st { face := a, packet, frames } (Sent.of face.slicer packet) ∧
      Transmitted codec stations (s.transmitted { face with slicer, failed } { face := a, packet, frames })
        (Function.update sentAt s.sent.length (Sent.of face.slicer packet)) := by
  obtain ⟨hread, hnumbers⟩ := hok
  obtain ⟨hle, hroom⟩ := hnumbers face hface
  obtain ⟨st, hst⟩ : ∃ st, stations[a]? = some st :=
    ⟨_, List.getElem?_eq_getElem (h.length ▸ (List.getElem?_eq_some_iff.mp hface).1)⟩
  have hsends := h.face a st face hst hface
  obtain ⟨hfits, hmtu⟩ := hsends.fits hsound hst
  obtain ⟨failed, frames, hsend, hlength, hframes⟩ := EthernetFace.send_eq hlawful hfits hmtu hle injected
  have hpayloads : frames.length = (Sent.of face.slicer packet).payloads.length := by rw [Sent.of_length, hlength]
  have hreadable : (Sent.of face.slicer packet).Readable codec :=
    ⟨Sent.of_valid hlawful hfits hread hle, fun j hj => Sent.of_fromBlock hlawful hfits hle
      (by rwa [Sent.of_length] at hj)⟩
  have hcarried : Carried codec st { face := a, packet, frames } (Sent.of face.slicer packet) := by
    refine ⟨rfl, hreadable, hpayloads, fun j frame hframe => ?_, fun j hj => ?_⟩
    · rw [hframes j frame hframe, hsends.srcAddress, hsends.destAddress]
    · have hshort := EthernetFace.length_wire_le hlawful hfits hle (by rwa [Sent.of_length] at hj : j < _)
      have hmtuLt := hfits.mtu_lt
      rw [Sent.wire, TlvCodec.block, Slicer.encode_length] at hshort
      rw [Sent.wire, TlvCodec.block]
      exact lt_of_le_of_lt (Nat.le_add_left _ _) (lt_of_le_of_lt hshort hmtuLt)
  have hpos : 0 < frames.length := hpayloads ▸ hreadable.pos
  have hseq : (Sent.of face.slicer packet).seq = st.seq + UInt64.ofNat (s.fragmentsSent a) := by
    rw [Sent.of, hsends.slicer]
  have hbefore : ∀ p t, s.sent[p]? = some t →
      Function.update sentAt s.sent.length (Sent.of face.slicer packet) p = sentAt p := fun p t ht =>
    Function.update_of_ne (List.getElem?_eq_some_iff.mp ht).1.ne _ _
  -- The numbers of the transmission come after all that the face has used.
  have hother : ∀ p t, s.sent[p]? = some t → t.face = a → (sentAt p).seq ≠ (Sent.of face.slicer packet).seq := by
    intro p t ht htface
    obtain ⟨st', hst', hcarried', k, hk, hused⟩ := h.carried p t ht
    rw [htface] at hst' hused
    cases hst.symm.trans hst'
    have htpos : 0 < t.frames.length := hcarried'.length ▸ hcarried'.readable.pos
    rw [hk, hseq]
    exact seq_ne_of_lt (by omega) (by omega)
  refine ⟨st, _, failed, frames, hst, hsend, hcarried, ?_⟩
  constructor
  · exact (List.length_set).trans h.length
  · intro a' st' other hst' hother'
    rw [transmitted, List.getElem?_set] at hother'
    rw [fragmentsSent_transmitted]
    split at hother'
    · rename_i heq
      subst heq
      cases hst.symm.trans hst'
      obtain ⟨-, rfl⟩ := Option.ite_none_right_eq_some.mp hother' |>.imp_right Option.some.inj
      obtain ⟨h₁, h₂, h₃, h₄⟩ := hsends
      refine ⟨h₁, h₂, h₃, ?_⟩
      rw [if_pos rfl, hlength, h₄]
      dsimp only
      rw [UInt64.ofNat_add, add_assoc]
    · rename_i hne
      rw [if_neg hne, Nat.add_zero]
      exact h.face a' st' other hst' hother'
  · intro p t ht
    rw [transmitted] at ht
    rw [fragmentsSent_transmitted]
    rcases getElem?_append_singleton.mp ht with hold | ⟨rfl, rfl⟩
    · obtain ⟨st', hst', hcarried', k, hk, hused⟩ := h.carried p t hold
      rw [hbefore p t hold]
      exact ⟨st', hst', hcarried', k, hk, hused.trans (Nat.le_add_right _ _)⟩
    · rw [Function.update_self, if_pos rfl]
      exact ⟨st, hst, hcarried, s.fragmentsSent a, hseq, le_rfl⟩
  · intro p q t t' ht ht' heq hne
    rw [transmitted] at ht ht'
    rcases getElem?_append_singleton.mp ht with hold | ⟨rfl, rfl⟩ <;>
      rcases getElem?_append_singleton.mp ht' with hold' | ⟨rfl, rfl⟩
    · rw [hbefore p t hold, hbefore q t' hold']
      exact h.apart p q t t' hold hold' heq hne
    · rw [hbefore p t hold, Function.update_self]
      exact hother p t hold heq
    · rw [hbefore q t' hold', Function.update_self]
      exact (hother q t' hold' heq.symm).symm
    · exact absurd rfl hne
  · intro a'
    rw [fragmentsSent_transmitted]
    split
    · rename_i heq
      dsimp only at heq ⊢
      rw [← heq, hlength]
      exact hroom
    · exact h.bound a'
  · intro b p j hmem
    obtain ⟨t, st', other, frame, ht, hst', hother', hgroup, hne, hframe⟩ := h.received b p j hmem
    exact ⟨t, st', other, frame, getElem?_append_singleton.mpr (.inl ht), hst', hother', hgroup, hne, hframe⟩

end Senders

/-! ### The receivers -/

/-- What a face has dispatched of a sender are the packets of transmissions, each of which has arrived completely. -/
structure Originated (sent : List Transmission) (received : List (Nat × Nat × Nat)) (sentAt : Nat → Sent) (b a : Nat)
    (dispatched : List Block) (positions : List Nat) : Prop where
  nodup : positions.Nodup
  packets : dispatched.map some = positions.map fun p => (sent[p]?).map Transmission.packet
  transmission : ∀ p ∈ positions, ∃ t, sent[p]? = some t ∧ t.face = a
  arrived : ∀ p ∈ positions, ∀ j < (sentAt p).payloads.length, (b, p, j) ∈ received

/-- What holds of a face, with the fragments that it holds of each transmission and what it has dispatched. -/
structure Reassembles (codec : TlvCodec) (stations : List Station) (sent : List Transmission)
    (received : List (Nat × Nat × Nat)) (sentAt : Nat → Sent) (b : Nat) (face : EthernetFace) (held : Nat → List Nat)
    (origins : Nat → List Nat) : Prop where
  wellFormed : ∀ source r, face.reassemblers source = some r → r.pms.WellFormed
  events : ∀ pending ∈ face.events, (face.reassemblers pending.2).map Reassembler.expireEvent = some pending.1
  holds : ∀ (p : Nat) t (st : Station), sent[p]? = some t → stations[t.face]? = some st →
    st.destAddress = face.destAddress → Held codec (sentAt p) (held p) (face.storeOf st.srcAddress)
  known : ∀ (a : Nat) (st : Station), stations[a]? = some st → st.destAddress = face.destAddress →
    ∀ messageIdentifier, (face.storeOf st.srcAddress).partialMessages messageIdentifier = none ∨
      ∃ (p : Nat) (t : Transmission), sent[p]? = some t ∧ t.face = a ∧ (sentAt p).seq = messageIdentifier
  captured : ∀ p, ∀ j ∈ held p, (b, p, j) ∈ received
  complete : ∀ (p : Nat) t, sent[p]? = some t → (∀ j < (sentAt p).payloads.length, j ∈ held p) → p ∈ origins t.face
  originated : ∀ (a : Nat) (st : Station), stations[a]? = some st → st.destAddress = face.destAddress →
    Originated sent received sentAt b a (face.dispatchedFrom st.srcAddress) (origins a)

section Receivers

variable {sent : List Transmission} {received received' : List (Nat × Nat × Nat)} {sentAt : Nat → Sent} {b : Nat}
  {face face' : EthernetFace} {held held' origins origins' : Nat → List Nat} {source : EthernetAddress}

theorem Originated.of_received {a : Nat} {dispatched : List Block} {positions : List Nat}
    (h : Originated sent received sentAt b a dispatched positions) (hsub : received ⊆ received') :
    Originated sent received' sentAt b a dispatched positions :=
  ⟨h.nodup, h.packets, h.transmission, fun p hp j hj => hsub (h.arrived p hp j hj)⟩

/-- Other faces receive. -/
theorem Reassembles.of_received (h : Reassembles codec stations sent received sentAt b face held origins)
    (hsub : received ⊆ received') : Reassembles codec stations sent received' sentAt b face held origins :=
  { h with
    captured := fun p j hj => hsub (h.captured p j hj)
    originated := fun a st hst hdest => (h.originated a st hst hdest).of_received hsub }

/-- The face changes in what it sends. -/
theorem Reassembles.of_face (h : Reassembles codec stations sent received sentAt b face held origins)
    (hdest : face'.destAddress = face.destAddress) (hreassemblers : face'.reassemblers = face.reassemblers)
    (hevents : face'.events = face.events) (hdispatched : face'.dispatched = face.dispatched) :
    Reassembles codec stations sent received sentAt b face' held origins := by
  have hstore : ∀ source, face'.storeOf source = face.storeOf source := fun source => by
    rw [EthernetFace.storeOf, hreassemblers, EthernetFace.storeOf]
  have hfrom : ∀ source, face'.dispatchedFrom source = face.dispatchedFrom source := fun source => by
    rw [EthernetFace.dispatchedFrom, hdispatched, EthernetFace.dispatchedFrom]
  constructor
  · rw [hreassemblers]
    exact h.wellFormed
  · rw [hevents, hreassemblers]
    exact h.events
  · intro p t st ht hst hgroup
    rw [hstore]
    exact h.holds p t st ht hst (hgroup.trans hdest)
  · intro a st hst hgroup
    rw [hstore]
    exact h.known a st hst (hgroup.trans hdest)
  · exact h.captured
  · exact h.complete
  · intro a st hst hgroup
    rw [hfrom]
    exact h.originated a st hst (hgroup.trans hdest)

theorem storeOf_wellFormed (h : ∀ source r, face.reassemblers source = some r → r.pms.WellFormed)
    (source : EthernetAddress) : (face.storeOf source).WellFormed := by
  rw [EthernetFace.storeOf]
  cases hr : face.reassemblers source with
  | none => exact PartialMessageStore.empty_wellFormed
  | some r => exact h source r hr

/-- A packet is sent: no face holds a fragment of it. -/
theorem Reassembles.send (h : Reassembles codec stations sent received sentAt b face held origins) {t : Transmission}
    {st : Station} {message : Sent} (hst : stations[t.face]? = some st) (hcarried : Carried codec st t message)
    (hapart : ∀ (p : Nat) t', sent[p]? = some t' → t'.face = t.face → (sentAt p).seq ≠ message.seq)
    (hcaptured : ∀ b p j, (b, p, j) ∈ received → MayCapture stations sent b p j) :
    Reassembles codec stations (sent ++ [t]) received (Function.update sentAt sent.length message) b face held
      origins := by
  have hbefore : ∀ p, p < sent.length → Function.update sentAt sent.length message p = sentAt p := fun p hp =>
    Function.update_of_ne hp.ne _ _
  have hnothing : held sent.length = [] := List.eq_nil_iff_forall_not_mem.mpr fun j hj => by
    obtain ⟨t', -, -, -, ht', -⟩ := hcaptured b _ j (h.captured _ j hj)
    exact lt_irrefl _ (List.getElem?_eq_some_iff.mp ht').1
  constructor
  · exact h.wellFormed
  · exact h.events
  · intro p t' st' ht' hst' hgroup
    rcases getElem?_append_singleton.mp ht' with hold | ⟨rfl, rfl⟩
    · rw [hbefore p (List.getElem?_eq_some_iff.mp hold).1]
      exact h.holds p t' st' hold hst' hgroup
    · rw [Function.update_self, hnothing]
      refine .of_none (storeOf_wellFormed h.wellFormed _) ?_
      refine (h.known _ st' hst' hgroup message.seq).resolve_right ?_
      rintro ⟨p, t, ht, hface, hseq⟩
      exact hapart p t ht hface hseq
  · intro a st' hst' hgroup messageIdentifier
    refine (h.known a st' hst' hgroup messageIdentifier).imp_right ?_
    rintro ⟨p, t', ht', hface, hseq⟩
    have hp := (List.getElem?_eq_some_iff.mp ht').1
    exact ⟨p, t', getElem?_append_singleton.mpr (.inl ht'), hface, by rw [hbefore p hp, hseq]⟩
  · exact h.captured
  · intro p t' ht' hall
    rcases getElem?_append_singleton.mp ht' with hold | ⟨rfl, rfl⟩
    · rw [hbefore p (List.getElem?_eq_some_iff.mp hold).1] at hall
      exact h.complete p t' hold hall
    · rw [Function.update_self, hnothing] at hall
      exact absurd (hall 0 hcarried.readable.pos) List.not_mem_nil
  · intro a st' hst' hgroup
    obtain ⟨hnodup, hpackets, hsent, harrived⟩ := h.originated a st' hst' hgroup
    have hlength : ∀ p ∈ origins a, p < sent.length := fun p hp => by
      obtain ⟨t', ht', -⟩ := hsent p hp
      exact (List.getElem?_eq_some_iff.mp ht').1
    refine ⟨hnodup, ?_, fun p hp => ?_, fun p hp => ?_⟩
    · rw [hpackets]
      exact List.map_congr_left fun p hp => by rw [List.getElem?_append_left (hlength p hp)]
    · obtain ⟨t', ht', hface⟩ := hsent p hp
      exact ⟨t', getElem?_append_singleton.mpr (.inl ht'), hface⟩
    · rw [hbefore p (hlength p hp)]
      exact harrived p hp

/-- The reassembler of one sender changes; what the face holds and has dispatched of the others does not. -/
theorem Reassembles.of_update (h : Reassembles codec stations sent received sentAt b face held origins)
    (source : EthernetAddress) (reassembler : Option Reassembler) {store : PartialMessageStore}
    (hstore : reassembler.elim PartialMessageStore.empty Reassembler.pms = store)
    (hdest : face'.destAddress = face.destAddress)
    (hreassemblers : face'.reassemblers = Function.update face.reassemblers source reassembler)
    (hevents : ∀ pending ∈ face'.events, (face'.reassemblers pending.2).map Reassembler.expireEvent = some pending.1)
    (hwf : ∀ r, reassembler = some r → r.pms.WellFormed) (hsub : received ⊆ received')
    (hheld : ∀ (p : Nat) t (st : Station), sent[p]? = some t → stations[t.face]? = some st →
      st.destAddress = face.destAddress →
        if st.srcAddress = source then Held codec (sentAt p) (held' p) store else held' p = held p)
    (hknown : ∀ (a : Nat) (st : Station), stations[a]? = some st → st.destAddress = face.destAddress →
      st.srcAddress = source → ∀ messageIdentifier, store.partialMessages messageIdentifier = none ∨
        ∃ (p : Nat) (t : Transmission), sent[p]? = some t ∧ t.face = a ∧ (sentAt p).seq = messageIdentifier)
    (hreceived : ∀ p, ∀ j ∈ held' p, (b, p, j) ∈ received')
    (hcomplete : ∀ (p : Nat) t, sent[p]? = some t → (∀ j < (sentAt p).payloads.length, j ∈ held' p) →
      p ∈ origins' t.face)
    (horiginated : ∀ (a : Nat) (st : Station), stations[a]? = some st → st.destAddress = face.destAddress →
      if st.srcAddress = source then
        Originated sent received' sentAt b a (face'.dispatchedFrom st.srcAddress) (origins' a)
      else origins' a = origins a ∧ face'.dispatchedFrom st.srcAddress = face.dispatchedFrom st.srcAddress) :
    Reassembles codec stations sent received' sentAt b face' held' origins' := by
  have hself : face'.storeOf source = store := by
    rw [EthernetFace.storeOf, hreassemblers, Function.update_self, hstore]
  have hother : ∀ source', source' ≠ source → face'.storeOf source' = face.storeOf source' := fun source' hne => by
    rw [EthernetFace.storeOf, hreassemblers, Function.update_of_ne hne, EthernetFace.storeOf]
  constructor
  · intro source' r hr
    rw [hreassemblers, Function.update_apply] at hr
    split at hr
    · exact hwf r hr
    · exact h.wellFormed source' r hr
  · exact hevents
  · intro p t st ht hst hgroup
    rw [hdest] at hgroup
    have hthis := hheld p t st ht hst hgroup
    split at hthis
    · rename_i heq
      rw [heq, hself]
      exact hthis
    · rename_i hne
      rw [hother _ hne, hthis]
      exact h.holds p t st ht hst hgroup
  · intro a st hst hgroup
    rw [hdest] at hgroup
    by_cases hsource : st.srcAddress = source
    · rw [hsource, hself]
      exact hknown a st hst hgroup hsource
    · rw [hother _ hsource]
      exact h.known a st hst hgroup
  · exact hreceived
  · exact hcomplete
  · intro a st hst hgroup
    rw [hdest] at hgroup
    have hthis := horiginated a st hst hgroup
    split at hthis
    · exact hthis
    · rw [hthis.1, hthis.2]
      exact (h.originated a st hst hgroup).of_received hsub

theorem dispatchedFrom_withFragment (face : EthernetFace) (source : EthernetAddress) (pms : PartialMessageStore)
    (output : Option Block) : (face.withFragment source pms output).dispatchedFrom source =
      face.dispatchedFrom source ++ output.toList := by
  rw [EthernetFace.dispatchedFrom, EthernetFace.withFragment, List.filter_append, List.map_append,
    EthernetFace.dispatchedFrom]
  cases output <;> simp

theorem dispatchedFrom_withFragment_of_ne (face : EthernetFace) (pms : PartialMessageStore) (output : Option Block)
    {source' : EthernetAddress} (hne : source' ≠ source) :
    (face.withFragment source pms output).dispatchedFrom source' = face.dispatchedFrom source' := by
  rw [EthernetFace.dispatchedFrom, EthernetFace.withFragment, List.filter_append, List.map_append,
    EthernetFace.dispatchedFrom]
  cases output <;> simp [hne.symm]

/-- The old event of the reassembler is cancelled. -/
theorem withFragment_events
    (h : ∀ pending ∈ face.events, (face.reassemblers pending.2).map Reassembler.expireEvent = some pending.1)
    (source : EthernetAddress) (pms : PartialMessageStore) (output : Option Block) :
    ∀ pending ∈ (face.withFragment source pms output).events,
      ((face.withFragment source pms output).reassemblers pending.2).map Reassembler.expireEvent = some pending.1 := by
  intro pending hpending
  dsimp only [EthernetFace.withFragment] at hpending ⊢
  rcases List.mem_cons.mp hpending with rfl | hold
  · rw [Function.update_self]
    rfl
  · obtain ⟨hmem, hkept⟩ := List.mem_filter.mp hold
    have hexpire := h pending hmem
    rw [Function.update_of_ne, hexpire]
    rintro heq
    rw [← heq, hexpire, bne_self_eq_false] at hkept
    cases hkept

theorem Sound.eq_of_addresses (hsound : Sound codec stations) {a a' : Nat} {st st' : Station}
    (hst : stations[a]? = some st) (hst' : stations[a']? = some st') (hsrc : st.srcAddress = st'.srcAddress)
    (hdest : st.destAddress = st'.destAddress) : a = a' := by
  have haddresses : ∀ {i : Nat} {x : Station}, stations[i]? = some x →
      (stations.map fun st => (st.srcAddress, st.destAddress))[i]? = some (x.srcAddress, x.destAddress) := by
    intro i x hx
    rw [List.getElem?_map, hx, Option.map_some]
  refine (List.getElem?_inj (List.getElem?_eq_some_iff.mp (haddresses hst)).1 hsound.distinct).mp ?_
  rw [haddresses hst, haddresses hst', hsrc, hdest]

/-- A transmission has arrived completely, and its packet is dispatched. -/
theorem Originated.append {a p : Nat} {t : Transmission} {dispatched : List Block} {positions : List Nat}
    (h : Originated sent received sentAt b a dispatched positions) (ht : sent[p]? = some t) (hface : t.face = a)
    (hnew : p ∉ positions) (hsub : received ⊆ received')
    (hall : ∀ j < (sentAt p).payloads.length, (b, p, j) ∈ received') :
    Originated sent received' sentAt b a (dispatched ++ [t.packet]) (positions ++ [p]) where
  nodup := List.Nodup.append h.nodup (List.nodup_singleton p) (List.disjoint_singleton.mpr hnew)
  packets := by
    rw [List.map_append, List.map_append, h.packets, List.map_singleton, List.map_singleton, ht, Option.map_some]
  transmission q hq := by
    rcases List.mem_append.mp hq with hold | hlast
    · exact h.transmission q hold
    · rw [List.mem_singleton.mp hlast]
      exact ⟨t, ht, hface⟩
  arrived q hq := by
    rcases List.mem_append.mp hq with hold | hlast
    · exact fun j hj => hsub (h.arrived q hold j hj)
    · rw [List.mem_singleton.mp hlast]
      exact hall

/-- A fragment arrives: its packet is dispatched if it was the last that was missing. -/
theorem Reassembles.deliver (h : Reassembles codec stations sent received sentAt b face held origins)
    (hlawful : codec.Lawful) (hsound : Sound codec stations) {p j : Nat} {t : Transmission} {st : Station}
    (ht : sent[p]? = some t) (hst : stations[t.face]? = some st) (hgroup : st.destAddress = face.destAddress)
    (hcarried : Carried codec st t (sentAt p))
    (hapart : ∀ (q : Nat) t', sent[q]? = some t' → t'.face = t.face → q ≠ p → (sentAt q).seq ≠ (sentAt p).seq)
    (hj : j < (sentAt p).payloads.length) (hnew : (b, p, j) ∉ received) :
    ∃ pms output origins', face.receiveFragment codec st.srcAddress ((sentAt p).wire codec j) =
        some (face.withFragment st.srcAddress pms output) ∧
      Reassembles codec stations sent ((b, p, j) :: received) sentAt b (face.withFragment st.srcAddress pms output)
        (Function.update held p (j :: held p)) origins' ∧ ∀ a, origins a <+: origins' a := by
  have hwf := storeOf_wellFormed h.wellFormed st.srcAddress
  have hjnew : j ∉ held p := fun hmem => hnew (h.captured p j hmem)
  obtain ⟨pms, hreceive, hheld⟩ := (h.holds p t st ht hst hgroup).receive hlawful hcarried.readable hj hjnew
  obtain ⟨pms', output, hreceive', hwf', hothers⟩ := EthernetFace.receiveWire_of_wellFormed codec hwf
    ((sentAt p).wire codec j)
  rw [hreceive] at hreceive'
  obtain ⟨rfl, rfl⟩ := Prod.mk.inj (Option.some.inj hreceive')
  have hseq : ∀ messageIdentifier, (sentAt p).seq ≠ messageIdentifier →
      pms.partialMessages messageIdentifier = (face.storeOf st.srcAddress).partialMessages messageIdentifier := by
    refine fun messageIdentifier hne => hothers messageIdentifier fun pkt hpkt => ?_
    rw [hcarried.readable.fromBlock j hj] at hpkt
    cases hpkt
    rwa [hcarried.readable.packet_messageIdentifier hj]
  have hsame : ∀ (a : Nat) (st' : Station), stations[a]? = some st' → st'.destAddress = face.destAddress →
      st'.srcAddress = st.srcAddress → a = t.face := fun a st' hst' hgroup' hsrc =>
    hsound.eq_of_addresses hst' hst hsrc (hgroup'.trans hgroup.symm)
  have hcaptured : ∀ q, ∀ k ∈ Function.update held p (j :: held p) q, (b, q, k) ∈ (b, p, j) :: received := by
    intro q k hk
    rw [Function.update_apply] at hk
    split at hk
    · rename_i heq
      subst heq
      rcases List.mem_cons.mp hk with rfl | hold
      · exact List.mem_cons_self
      · exact List.mem_cons_of_mem _ (h.captured q k hold)
    · exact List.mem_cons_of_mem _ (h.captured q k hk)
  have hsub : received ⊆ (b, p, j) :: received := List.subset_cons_self _ _
  refine ⟨pms, if ∀ k < (sentAt p).payloads.length, k ∈ j :: held p then some (sentAt p).message else none,
    if ∀ k < (sentAt p).payloads.length, k ∈ j :: held p then
      Function.update origins t.face (origins t.face ++ [p]) else origins, ?_, ?_, fun a => ?_⟩
  · rw [EthernetFace.receiveFragment, hreceive]
    rfl
  rotate_left
  · split
    · rw [Function.update_apply]
      split
      · rename_i hface
        rw [hface]
        exact List.prefix_append _ _
      · exact List.prefix_rfl
    · exact List.prefix_rfl
  refine h.of_update st.srcAddress (some { pms, expireEvent := face.nextEvent }) rfl rfl rfl
    (withFragment_events h.events _ _ _) (fun r hr => by cases hr; exact hwf') hsub
    (fun q t' st' ht' hst' hgroup' => ?_) (fun a st' hst' hgroup' hsrc messageIdentifier => ?_) hcaptured
    (fun q t' ht' hall => ?_) (fun a st' hst' hgroup' => ?_)
  · split
    · rename_i hsrc
      have hface := hsame t'.face st' hst' hgroup' hsrc
      by_cases hq : q = p
      · rw [hq, Function.update_self]
        exact hheld
      · rw [Function.update_of_ne hq]
        have hq' := h.holds q t' st' ht' hst' hgroup'
        rw [hsrc] at hq'
        exact hq'.congr hwf' (hseq _ (hapart q t' ht' hface hq).symm)
    · rename_i hsrc
      refine Function.update_of_ne ?_ _ _
      rintro rfl
      cases ht.symm.trans ht'
      cases hst.symm.trans hst'
      exact hsrc rfl
  · by_cases hid : (sentAt p).seq = messageIdentifier
    · exact .inr ⟨p, t, ht, (hsame a st' hst' hgroup' hsrc).symm, hid⟩
    · rw [Option.elim_some, hseq messageIdentifier hid, ← hsrc]
      exact h.known a st' hst' hgroup' messageIdentifier
  · by_cases hq : q = p
    · subst hq
      cases ht.symm.trans ht'
      rw [Function.update_self] at hall
      rw [if_pos hall, Function.update_self]
      exact List.mem_append_right _ (List.mem_singleton_self _)
    · rw [Function.update_of_ne hq] at hall
      have hmem := h.complete q t' ht' hall
      split
      · rw [Function.update_apply]
        split
        · rename_i heq
          rw [← heq]
          exact List.mem_append_left _ hmem
        · exact hmem
      · exact hmem
  · split
    · rename_i hsrc
      have hface := hsame a st' hst' hgroup' hsrc
      subst hface
      cases hst.symm.trans hst'
      have horiginated := h.originated t.face st hst hgroup
      rw [dispatchedFrom_withFragment]
      by_cases hall : ∀ k < (sentAt p).payloads.length, k ∈ j :: held p
      · rw [if_pos hall, if_pos hall, Function.update_self, hcarried.message]
        refine horiginated.append ht rfl (fun hmem => hnew (horiginated.arrived p hmem j hj)) hsub fun k hk => ?_
        refine hcaptured p k ?_
        rw [Function.update_self]
        exact hall k hk
      · rw [if_neg hall, if_neg hall, Option.toList_none, List.append_nil]
        exact horiginated.of_received hsub
    · rename_i hsrc
      refine ⟨?_, dispatchedFrom_withFragment_of_ne face pms _ hsrc⟩
      split
      · refine Function.update_of_ne ?_ _ _
        rintro rfl
        cases hst.symm.trans hst'
        exact hsrc rfl
      · rfl

/-- A frame of another station changes the reassembler of that station only. -/
theorem Reassembles.foreign (h : Reassembles codec stations sent received sentAt b face held origins)
    (hforeign : ∀ (a : Nat) (st : Station), stations[a]? = some st → st.destAddress = face.destAddress →
      st.srcAddress ≠ source) (wire : Block) :
    ∃ pms output, face.receiveFragment codec source wire = some (face.withFragment source pms output) ∧
      Reassembles codec stations sent received sentAt b (face.withFragment source pms output) held origins := by
  obtain ⟨pms, output, hreceive, hwf, -⟩ := EthernetFace.receiveWire_of_wellFormed codec
    (storeOf_wellFormed h.wellFormed source) wire
  refine ⟨pms, output, by rw [EthernetFace.receiveFragment, hreceive]; rfl, ?_⟩
  refine h.of_update source (some { pms, expireEvent := face.nextEvent }) rfl rfl rfl
    (withFragment_events h.events _ _ _) (fun r hr => by cases hr; exact hwf) (List.Subset.refl _)
    (fun p t st _ hst hgroup => ?_) (fun a st hst hgroup hsrc => absurd hsrc (hforeign a st hst hgroup)) h.captured
    h.complete (fun a st hst hgroup => ?_)
  · rw [if_neg (hforeign _ st hst hgroup)]
  · rw [if_neg (hforeign a st hst hgroup)]
    exact ⟨rfl, dispatchedFrom_withFragment_of_ne face pms output (hforeign a st hst hgroup)⟩

/-- Fragments of the transmissions of a sender are lost; nothing is dispatched. -/
theorem Reassembles.lose (h : Reassembles codec stations sent received sentAt b face held origins)
    (source : EthernetAddress) (reassembler : Option Reassembler) (lost : Nat → Prop) [DecidablePred lost]
    (hlost : ∀ p, lost p → ∃ t st, sent[p]? = some t ∧ stations[t.face]? = some st ∧ st.srcAddress = source)
    (hdest : face'.destAddress = face.destAddress)
    (hreassemblers : face'.reassemblers = Function.update face.reassemblers source reassembler)
    (hevents : ∀ pending ∈ face'.events, (face'.reassemblers pending.2).map Reassembler.expireEvent = some pending.1)
    (hdispatched : face'.dispatched = face.dispatched)
    (hwf : (reassembler.elim PartialMessageStore.empty Reassembler.pms).WellFormed)
    (hstore : ∀ messageIdentifier,
      (reassembler.elim PartialMessageStore.empty Reassembler.pms).partialMessages messageIdentifier = none ∨
        (reassembler.elim PartialMessageStore.empty Reassembler.pms).partialMessages messageIdentifier =
          (face.storeOf source).partialMessages messageIdentifier)
    (hkept : ∀ (p : Nat) t (st : Station), sent[p]? = some t → stations[t.face]? = some st → st.srcAddress = source →
      if lost p then (reassembler.elim PartialMessageStore.empty Reassembler.pms).partialMessages (sentAt p).seq = none
      else (reassembler.elim PartialMessageStore.empty Reassembler.pms).partialMessages (sentAt p).seq =
        (face.storeOf source).partialMessages (sentAt p).seq) :
    Reassembles codec stations sent received sentAt b face' (fun p => if lost p then [] else held p) origins := by
  have hsubset : ∀ p, ∀ j ∈ (if lost p then [] else held p), j ∈ held p := by
    intro p j hj
    split at hj
    · cases hj
    · exact hj
  refine h.of_update source reassembler rfl hdest hreassemblers hevents (fun r hr => ?_) (List.Subset.refl _)
    (fun p t st ht hst hgroup => ?_) (fun a st hst hgroup hsrc messageIdentifier => ?_)
    (fun p j hj => h.captured p j (hsubset p j hj))
    (fun p t ht hall => h.complete p t ht fun j hj => hsubset p j (hall j hj)) (fun a st hst hgroup => ?_)
  · subst hr
    exact hwf
  · split
    · rename_i hsrc
      have hthis := hkept p t st ht hst hsrc
      by_cases hl : lost p
      · rw [if_pos hl] at hthis ⊢
        exact .of_none hwf hthis
      · have hheld := h.holds p t st ht hst hgroup
        rw [if_neg hl] at hthis ⊢
        rw [hsrc] at hheld
        exact hheld.congr hwf hthis
    · rename_i hsrc
      refine if_neg fun hl => hsrc ?_
      obtain ⟨t', st', ht', hst', hsrc'⟩ := hlost p hl
      cases ht.symm.trans ht'
      cases hst.symm.trans hst'
      exact hsrc'
  · rcases hstore messageIdentifier with hnone | hsame
    · exact .inl hnone
    · rw [hsame, ← hsrc]
      exact h.known a st hst hgroup messageIdentifier
  · have hfrom : face'.dispatchedFrom st.srcAddress = face.dispatchedFrom st.srcAddress := by
      rw [EthernetFace.dispatchedFrom, hdispatched, EthernetFace.dispatchedFrom]
    split
    · rw [hfrom]
      exact h.originated a st hst hgroup
    · exact ⟨rfl, hfrom⟩

/-- The partial message of an event is erased. -/
theorem partialMessages_fire {store store' : PartialMessageStore} {event : Nat} (h : store.fire event = some store') :
    ∃ messageIdentifier, (event, messageIdentifier) ∈ store.events ∧
      store'.partialMessages = Function.update store.partialMessages messageIdentifier none := by
  obtain ⟨⟨first, messageIdentifier⟩, hfind, rfl⟩ := Option.map_eq_some_iff.mp h
  have hevent : first = event := beq_iff_eq.mp (List.find?_some (p := fun e : Nat × UInt64 => e.1 == event) hfind)
  subst hevent
  exact ⟨messageIdentifier, List.mem_of_find?_eq_some hfind, rfl⟩

open Classical in
theorem Reassembles.cleanup (h : Reassembles codec stations sent received sentAt b face held origins) {event : Nat}
    (hstep : face.cleanup source event = some face') :
    ∃ reassembler, face' = { face with reassemblers := Function.update face.reassemblers source reassembler } ∧
      ∃ held', Reassembles codec stations sent received sentAt b face' held' origins ∧
        ∀ p, held' p = held p ∨ ∃ t st r, sent[p]? = some t ∧ stations[t.face]? = some st ∧ st.srcAddress = source ∧
          face.reassemblers source = some r ∧ (event, (sentAt p).seq) ∈ r.pms.events := by
  obtain ⟨r, hr, hfire⟩ := Option.bind_eq_some_iff.mp hstep
  obtain ⟨pms, hpms, rfl⟩ := Option.map_eq_some_iff.mp hfire
  obtain ⟨messageIdentifier, hevent, hmessages⟩ := partialMessages_fire hpms
  obtain ⟨-, -, hwf⟩ := (h.wellFormed source r hr).fire hpms
  have hstoreOf : face.storeOf source = r.pms := by rw [EthernetFace.storeOf, hr, Option.elim_some]
  refine ⟨some { r with pms }, rfl, _, h.lose source (some { r with pms }) (fun p =>
    (sentAt p).seq = messageIdentifier ∧
      ∃ t st, sent[p]? = some t ∧ stations[t.face]? = some st ∧ st.srcAddress = source)
    (fun p hl => hl.2) rfl rfl (fun pending hpending => ?_) rfl hwf (fun other => ?_) (fun p t st ht hst hsrc => ?_),
    fun p => ?_⟩
  · have hexpire := h.events pending hpending
    dsimp only
    rw [Function.update_apply]
    split
    · rename_i heq
      rw [heq, hr] at hexpire
      exact hexpire
    · exact hexpire
  · change pms.partialMessages other = none ∨ pms.partialMessages other = _
    rw [hmessages, hstoreOf, Function.update_apply]
    split
    · exact .inl rfl
    · exact .inr rfl
  · change if _ then pms.partialMessages _ = none else pms.partialMessages _ = _
    rw [hmessages, hstoreOf, Function.update_apply]
    by_cases hid : (sentAt p).seq = messageIdentifier
    · rw [if_pos hid, if_pos ⟨hid, t, st, ht, hst, hsrc⟩]
    · rw [if_neg hid, if_neg fun hl => hid hl.1]
  · split
    · rename_i hl
      obtain ⟨hid, t, st, ht, hst, hsrc⟩ := hl
      exact .inr ⟨t, st, r, ht, hst, hsrc, hr, hid ▸ hevent⟩
    · exact .inl rfl

/-- The assertion about the event of a reassembler holds. -/
theorem Reassembles.expire_isSome (h : Reassembles codec stations sent received sentAt b face held origins)
    {event : Nat} {pending : Nat × EthernetAddress} (hpending : pending ∈ face.events) (hevent : pending.1 = event) :
    (face.expire event).isSome := by
  have hsome : (face.events.find? fun pending => pending.1 == event).isSome = true :=
    List.find?_isSome.mpr ⟨pending, hpending, beq_iff_eq.mpr hevent⟩
  obtain ⟨found, hfind⟩ := Option.isSome_iff_exists.mp hsome
  have hexpire := h.events found (List.mem_of_find?_eq_some hfind)
  obtain ⟨r, hr, -⟩ := Option.map_eq_some_iff.mp hexpire
  rw [EthernetFace.expire, hfind, Option.bind_some, hr]
  rfl

open Classical in
theorem Reassembles.expire (h : Reassembles codec stations sent received sentAt b face held origins) {event : Nat}
    (hstep : face.expire event = some face') :
    ∃ source events, face' = { face with reassemblers := Function.update face.reassemblers source none, events } ∧
      ∃ held', Reassembles codec stations sent received sentAt b face' held' origins ∧
        ∀ p, held' p = held p ∨ ∃ t st, sent[p]? = some t ∧ stations[t.face]? = some st ∧
          (event, st.srcAddress) ∈ face.events := by
  obtain ⟨⟨first, source⟩, hfind, hmap⟩ := Option.bind_eq_some_iff.mp hstep
  obtain ⟨r, hr, rfl⟩ := Option.map_eq_some_iff.mp hmap
  have hevent : first = event := beq_iff_eq.mp (List.find?_some (p := fun e : Nat × EthernetAddress => e.1 == event)
    hfind)
  subst hevent
  have hmem := List.mem_of_find?_eq_some hfind
  have hexpire := h.events _ hmem
  refine ⟨source, _, rfl, _, h.lose source none
    (fun p => ∃ t st, sent[p]? = some t ∧ stations[t.face]? = some st ∧ st.srcAddress = source)
    (fun p hl => hl) rfl rfl (fun pending hpending => ?_) rfl PartialMessageStore.empty_wellFormed
    (fun _ => .inl rfl) (fun p t st ht hst hsrc => ?_), fun p => ?_⟩
  · obtain ⟨hpending, hkept⟩ := List.mem_filter.mp hpending
    have hother := h.events pending hpending
    dsimp only
    rw [Function.update_of_ne]
    · exact hother
    · rintro heq
      rw [heq, hexpire, Option.some.injEq] at hother
      rw [← hother, bne_self_eq_false] at hkept
      cases hkept
  · rw [if_pos ⟨t, st, ht, hst, hsrc⟩]
    rfl
  · split
    · rename_i hl
      obtain ⟨t, st, ht, hst, rfl⟩ := hl
      exact .inr ⟨t, st, ht, hst, hmem⟩
    · exact .inl rfl

end Receivers

/-! ### Runs -/

/-- What holds of all faces. -/
structure Linked (codec : TlvCodec) (stations : List Station) (s : EthernetSegment) (sentAt : Nat → Sent)
    (held origins : Nat → Nat → List Nat) : Prop where
  transmitted : Transmitted codec stations s sentAt
  reassembles : ∀ (b : Nat) face, s.faces[b]? = some face →
    Reassembles codec stations s.sent s.received sentAt b face (held b) (origins b)

/-- The number that the fragments of a message have in common, read from a frame. -/
def identifierOf (codec : TlvCodec) (frame : List UInt8) : Option UInt64 :=
  (codec.fromBuffer (frame.drop Ethernet.hdrLen)).bind fun wire =>
    (NdnlpData.fromBlock codec wire).map NdnlpData.messageIdentifier

/-- A timer of the face drops what has arrived of the transmission. -/
def Loses (codec : TlvCodec) (s : EthernetSegment) (b p : Nat) : Event → Prop
  | .cleanup b' source event => b' = b ∧ ∃ frame face r messageIdentifier, s.frameAt p 0 = some frame ∧
      s.faces[b]? = some face ∧ Ethernet.source frame = source ∧ face.reassemblers source = some r ∧
      identifierOf codec frame = some messageIdentifier ∧ (event, messageIdentifier) ∈ r.pms.events
  | .expire b' event => b' = b ∧ ∃ frame face, s.frameAt p 0 = some frame ∧ s.faces[b]? = some face ∧
      (event, Ethernet.source frame) ∈ face.events
  | _ => False

/-- What arrives is held, and stays held unless a timer drops it. -/
def KeepsHeld (codec : TlvCodec) (s : EthernetSegment) (e : Event) (s' : EthernetSegment)
    (held held' : Nat → Nat → List Nat) : Prop :=
  ∀ b p frame, s.frameAt p 0 = some frame → ¬ Loses codec s b p e → held b p ⊆ held' b p ∧
    ∀ j, (b, p, j) ∈ s'.received → (b, p, j) ∈ s.received ∨ j ∈ held' b p

section Runs

variable {sentAt : Nat → Sent} {held origins : Nat → Nat → List Nat} {b p j : Nat} {face face' : EthernetFace}
  {received' : List (Nat × Nat × Nat)}

theorem frameAt_eq_some {frame : List UInt8} (h : s.frameAt p j = some frame) :
    ∃ t, s.sent[p]? = some t ∧ t.frames[j]? = some (some frame) := by
  obtain ⟨t, ht, hjoin⟩ := Option.bind_eq_some_iff.mp h
  exact ⟨t, ht, Option.join_eq_some_iff.mp hjoin⟩

/-- A frame tells its message. -/
theorem Carried.identifierOf {st : Station} {t : Transmission} {sent : Sent} (h : Carried codec st t sent)
    (hlawful : codec.Lawful) (hj : j < sent.payloads.length) :
    EthernetSegment.identifierOf codec (Ethernet.frameOf st.destAddress st.srcAddress (sent.wire codec j)) =
      some sent.seq := by
  have hread : codec.fromBuffer ((Ethernet.frameOf st.destAddress st.srcAddress (sent.wire codec j)).drop
      Ethernet.hdrLen) = some (sent.wire codec j) := by
    rw [Ethernet.frameOf_drop]
    exact hlawful.fromBuffer_eq tlvNdnlpData _ _ (by decide) (h.short j hj)
  rw [EthernetSegment.identifierOf, hread, Option.bind_some, h.readable.fromBlock j hj, Option.map_some,
    h.readable.packet_messageIdentifier hj]

theorem new_linked (codec : TlvCodec) (stations : List Station) (sentAt : Nat → Sent) :
    Linked codec stations (new codec stations) sentAt (fun _ _ => []) fun _ _ => [] where
  transmitted := new_transmitted codec stations sentAt
  reassembles b face hface := by
    rw [new, List.getElem?_map] at hface
    obtain ⟨st, -, rfl⟩ := Option.map_eq_some_iff.mp hface
    exact
      { wellFormed := fun _ _ hr => nomatch hr
        events := fun _ hpending => nomatch hpending
        holds := fun _ _ _ ht => nomatch ht
        known := fun _ _ _ _ _ => .inl rfl
        captured := fun _ _ hj => nomatch hj
        complete := fun _ _ ht => nomatch ht
        originated := fun _ _ _ _ => ⟨List.nodup_nil, rfl, fun _ hp => (nomatch hp), fun _ hp => nomatch hp⟩ }

/-- One face changes in what it has received. -/
theorem Linked.receive (h : Linked codec stations s sentAt held origins) (hface : s.faces[b]? = some face)
    {held' origins' : Nat → List Nat}
    (hreassembles : Reassembles codec stations s.sent received' sentAt b face' held' origins')
    (hsub : s.received ⊆ received') (hcaptured : ∀ b p j, (b, p, j) ∈ received' → MayCapture stations s.sent b p j)
    (hsrc : face'.srcAddress = face.srcAddress) (hdest : face'.destAddress = face.destAddress)
    (hmtu : face'.interfaceMtu = face.interfaceMtu) (hslicer : face'.slicer = face.slicer) :
    Linked codec stations { s.setFace b face' with received := received' } sentAt (Function.update held b held')
      (Function.update origins b origins') where
  transmitted :=
    { h.transmitted.setFace hface hsrc hdest hmtu hslicer with received := hcaptured }
  reassembles b' other hother := by
    change (s.faces.set b face')[b']? = some other at hother
    rw [List.getElem?_set] at hother
    by_cases hb : b = b'
    · subst hb
      rw [if_pos rfl] at hother
      obtain ⟨-, rfl⟩ := Option.ite_none_right_eq_some.mp hother |>.imp_right Option.some.inj
      rw [Function.update_self, Function.update_self]
      exact hreassembles
    · rw [if_neg hb] at hother
      rw [Function.update_of_ne (Ne.symm hb), Function.update_of_ne (Ne.symm hb)]
      exact (h.reassembles b' other hother).of_received hsub

/-- One face changes in neither. -/
theorem Linked.of_face (h : Linked codec stations s sentAt held origins) (hface : s.faces[b]? = some face)
    (hsrc : face'.srcAddress = face.srcAddress) (hdest : face'.destAddress = face.destAddress)
    (hmtu : face'.interfaceMtu = face.interfaceMtu) (hslicer : face'.slicer = face.slicer)
    (hreassemblers : face'.reassemblers = face.reassemblers) (hevents : face'.events = face.events)
    (hdispatched : face'.dispatched = face.dispatched) :
    Linked codec stations (s.setFace b face') sentAt held origins := by
  have hlinked := h.receive hface ((h.reassembles b face hface).of_face hdest hreassemblers hevents hdispatched)
    (List.Subset.refl _) h.transmitted.received hsrc hdest hmtu hslicer
  rwa [Function.update_eq_self, Function.update_eq_self] at hlinked

theorem Linked.send (h : Linked codec stations s sentAt held origins) (hlawful : codec.Lawful)
    (hsound : Sound codec stations) {a : Nat} {packet : Block} {injected : List Bool}
    (hok : Sendable codec s (.send a packet injected))
    (hstep : step codec s (.send a packet injected) = some s') :
    ∃ sentAt', Linked codec stations s' sentAt' held origins ∧ s'.received = s.received := by
  obtain ⟨face, hface, hstep⟩ := Option.bind_eq_some_iff.mp hstep
  obtain ⟨st, slicer, failed, frames, hst, hsend, hcarried, htransmitted⟩ := h.transmitted.send hlawful hsound hok hface
  rw [hsend, Option.map_some] at hstep
  cases hstep
  refine ⟨_, ⟨htransmitted, fun b other hother => ?_⟩, rfl⟩
  have hapart : ∀ (p : Nat) t, s.sent[p]? = some t → t.face = a →
    (sentAt p).seq ≠ (Sent.of face.slicer packet).seq := by
    intro p t ht htface
    have hp := (List.getElem?_eq_some_iff.mp ht).1
    have hne := htransmitted.apart p s.sent.length t { face := a, packet, frames }
      (getElem?_append_singleton.mpr (.inl ht)) (getElem?_append_singleton.mpr (.inr ⟨rfl, rfl⟩)) htface hp.ne
    rwa [Function.update_of_ne hp.ne, Function.update_self] at hne
  rw [EthernetSegment.transmitted, List.getElem?_set] at hother
  dsimp only at hother
  by_cases hb : a = b
  · subst hb
    rw [if_pos rfl] at hother
    obtain ⟨-, rfl⟩ := Option.ite_none_right_eq_some.mp hother |>.imp_right Option.some.inj
    exact ((h.reassembles a face hface).send (t := ⟨a, packet, frames⟩) hst hcarried hapart
      h.transmitted.received).of_face rfl rfl rfl rfl
  · rw [if_neg hb] at hother
    exact (h.reassembles b other hother).send (t := ⟨a, packet, frames⟩) hst hcarried hapart h.transmitted.received

/-- A frame of the segment that a face's filter lets through is of a station of its group. -/
theorem Transmitted.frame_passes (h : Transmitted codec stations s sentAt) {frame : List UInt8}
    (hframe : s.frameAt p j = some frame) (hpasses : face.passesFilter frame = true) :
    ∃ t st, s.sent[p]? = some t ∧ stations[t.face]? = some st ∧ st.destAddress = face.destAddress ∧
      st.srcAddress ≠ face.srcAddress ∧ Carried codec st t (sentAt p) ∧ j < (sentAt p).payloads.length ∧
      frame = Ethernet.frameOf face.destAddress st.srcAddress ((sentAt p).wire codec j) := by
  obtain ⟨t, ht, hj⟩ := frameAt_eq_some hframe
  obtain ⟨st, hst, hcarried, -⟩ := h.carried p t ht
  obtain rfl := hcarried.frame j frame hj
  obtain ⟨-, -, hgroup, hsource⟩ := EthernetFace.passesFilter_iff.mp hpasses
  rw [Ethernet.destination_frameOf] at hgroup
  rw [Ethernet.source_frameOf] at hsource
  exact ⟨t, st, ht, hst, hgroup, hsource, hcarried, hcarried.length ▸
    (List.getElem?_eq_some_iff.mp hj).1, by rw [hgroup]⟩

theorem Linked.deliver (h : Linked codec stations s sentAt held origins) (hlawful : codec.Lawful)
    (hsound : Sound codec stations) (hstep : step codec s (.deliver b p j) = some s') :
    ∃ origins', Linked codec stations s' sentAt
        (Function.update held b (Function.update (held b) p (j :: held b p))) origins' ∧
      s'.received = (b, p, j) :: s.received ∧ ∀ b a, origins b a <+: origins' b a := by
  obtain ⟨face, hface, hstep⟩ := Option.bind_eq_some_iff.mp hstep
  obtain ⟨frame, hframe, hstep⟩ := Option.bind_eq_some_iff.mp hstep
  obtain ⟨hnew, hstep⟩ := Option.ite_none_left_eq_some.mp hstep
  obtain ⟨face', hread, rfl⟩ := Option.map_eq_some_iff.mp hstep
  obtain ⟨-, -, hpasses, hprocess⟩ := EthernetFace.handleRead_eq_some hread
  obtain ⟨t, st, ht, hst, hgroup, hsource, hcarried, hj, rfl⟩ := h.transmitted.frame_passes hframe hpasses
  rw [EthernetFace.processIncomingPacket_frameOf hlawful (sentAt p) j (hcarried.short j hj) hsource] at hprocess
  obtain ⟨pms, output, origins', hreceive, hreassembles, hgrows⟩ := (h.reassembles b face hface).deliver hlawful hsound
    ht hst hgroup hcarried (fun q t' ht' heq hne => h.transmitted.apart q p t' t ht' ht heq hne) hj hnew
  rw [hreceive] at hprocess
  cases hprocess
  refine ⟨_, h.receive hface hreassembles (List.subset_cons_self _ _) (fun b' p' j' hmem => ?_) rfl rfl rfl rfl, rfl,
    fun b' a => ?_⟩
  rotate_left
  · rw [Function.update_apply]
    split
    · rename_i hb
      rw [hb]
      exact hgrows a
    · exact List.prefix_rfl
  rcases List.mem_cons.mp hmem with heq | hold
  · cases heq
    obtain ⟨other, hother⟩ : ∃ other, stations[b]? = some other :=
      ⟨_, List.getElem?_eq_getElem (h.transmitted.length ▸ (List.getElem?_eq_some_iff.mp hface).1)⟩
    have hsends := h.transmitted.face b other face hother hface
    obtain ⟨t', ht', hinjected⟩ := frameAt_eq_some hframe
    cases ht.symm.trans ht'
    refine ⟨t, st, other, _, ht, hst, hother, hgroup.trans hsends.destAddress, ?_, hinjected⟩
    rintro rfl
    cases hst.symm.trans hother
    exact hsource hsends.srcAddress.symm
  · exact h.transmitted.received b' p' j' hold

theorem isForeign_iff (h : Transmitted codec stations s sentAt) {frame : List UInt8}
    (hforeign : s.isForeign face frame = true) {a : Nat} {st : Station} (hst : stations[a]? = some st)
    (hgroup : st.destAddress = face.destAddress) : st.srcAddress ≠ Ethernet.source frame := by
  have hlt : a < s.faces.length := h.length ▸ (List.getElem?_eq_some_iff.mp hst).1
  have hother := List.all_eq_true.mp hforeign _ (List.getElem_mem hlt)
  obtain ⟨hsrc, hdest, -, -⟩ := h.face a st _ hst (List.getElem?_eq_getElem hlt)
  rw [hsrc, hdest, Bool.or_eq_true, bne_iff_ne, bne_iff_ne] at hother
  exact hother.resolve_right fun hne => hne hgroup

theorem Linked.foreign (h : Linked codec stations s sentAt held origins) {frame : List UInt8}
    (hstep : step codec s (.foreign b frame) = some s') :
    Linked codec stations s' sentAt held origins ∧ s'.received = s.received := by
  obtain ⟨face, hface, hstep⟩ := Option.bind_eq_some_iff.mp hstep
  obtain ⟨hforeign, hstep⟩ := Option.ite_none_right_eq_some.mp hstep
  obtain ⟨face', hread, rfl⟩ := Option.map_eq_some_iff.mp hstep
  obtain ⟨-, -, hpasses, hprocess⟩ := EthernetFace.handleRead_eq_some hread
  have hsame : ∀ {face' : EthernetFace}, face'.srcAddress = face.srcAddress → face'.destAddress = face.destAddress →
      face'.interfaceMtu = face.interfaceMtu → face'.slicer = face.slicer →
      Reassembles codec stations s.sent s.received sentAt b face' (held b) (origins b) →
        Linked codec stations (s.setFace b face') sentAt held origins := by
    intro face' hsrc hdest hmtu hslicer hreassembles
    have hlinked := h.receive hface hreassembles (List.Subset.refl _) h.transmitted.received hsrc hdest hmtu hslicer
    rwa [Function.update_eq_self, Function.update_eq_self] at hlinked
  refine ⟨?_, rfl⟩
  have hreassembles := h.reassembles b face hface
  rcases EthernetFace.processIncomingPacket_of_passesFilter codec hpasses with hignored | ⟨wire, hreceive⟩
  · rw [hignored] at hprocess
    cases hprocess
    exact hsame rfl rfl rfl rfl hreassembles
  · obtain ⟨pms, output, hfragment, hnext⟩ := hreassembles.foreign
      (fun a st hst hgroup => isForeign_iff h.transmitted hforeign hst hgroup) wire
    rw [hreceive, hfragment] at hprocess
    cases hprocess
    exact hsame rfl rfl rfl rfl hnext

/-- What a step does to what the faces hold. -/
theorem Linked.step (h : Linked codec stations s sentAt held origins) (hlawful : codec.Lawful)
    (hsound : Sound codec stations) {e : Event} (hok : Sendable codec s e)
    (hstep : EthernetSegment.step codec s e = some s') :
    ∃ sentAt' held' origins', Linked codec stations s' sentAt' held' origins' ∧ KeepsHeld codec s e s' held held' ∧
      ∀ b a, origins b a <+: origins' b a := by
  have hkept : ∀ {s' : EthernetSegment} {e : Event}, s'.received = s.received → KeepsHeld codec s e s' held held :=
    fun hreceived b p frame hframe hloses => ⟨List.Subset.refl _, fun j hj => .inl (hreceived ▸ hj)⟩
  cases e with
  | send a packet injected =>
      obtain ⟨sentAt', hlinked, hreceived⟩ := h.send hlawful hsound hok hstep
      exact ⟨sentAt', held, origins, hlinked, hkept hreceived, fun _ _ => List.prefix_rfl⟩
  | deliver b p j =>
      obtain ⟨origins', hlinked, hreceived, hgrows⟩ := h.deliver hlawful hsound hstep
      refine ⟨sentAt, _, origins', hlinked, fun b' p' frame hframe hloses => ?_, hgrows⟩
      rw [hreceived]
      by_cases hb : b' = b
      · subst hb
        rw [Function.update_self]
        by_cases hp : p' = p
        · subst hp
          rw [Function.update_self]
          refine ⟨List.subset_cons_self _ _, fun k hk => ?_⟩
          rcases List.mem_cons.mp hk with heq | hold
          · cases heq
            exact .inr List.mem_cons_self
          · exact .inl hold
        · rw [Function.update_of_ne hp]
          refine ⟨List.Subset.refl _, fun k hk => .inl ((List.mem_cons.mp hk).resolve_left fun heq => ?_)⟩
          cases heq
          exact hp rfl
      · rw [Function.update_of_ne hb]
        refine ⟨List.Subset.refl _, fun k hk => .inl ((List.mem_cons.mp hk).resolve_left fun heq => ?_)⟩
        cases heq
        exact hb rfl
  | foreign b frame =>
      obtain ⟨hlinked, hreceived⟩ := h.foreign hstep
      exact ⟨sentAt, held, origins, hlinked, hkept hreceived, fun _ _ => List.prefix_rfl⟩
  | cleanup b source event =>
      obtain ⟨face, hface, hstep⟩ := Option.bind_eq_some_iff.mp hstep
      obtain ⟨face', hcleanup, rfl⟩ := Option.map_eq_some_iff.mp hstep
      obtain ⟨reassembler, rfl, held', hreassembles, hlost⟩ := (h.reassembles b face hface).cleanup hcleanup
      refine ⟨sentAt, _, _, h.receive hface hreassembles (List.Subset.refl _) h.transmitted.received rfl rfl rfl rfl,
        fun b' p frame hframe hloses => ?_, fun _ _ => by rw [Function.update_eq_self]⟩
      by_cases hb : b' = b
      · subst hb
        rw [Function.update_self]
        rcases hlost p with hsame | ⟨t, st, r, ht, hst, hsource, hr, hevent⟩
        · rw [hsame]
          exact ⟨List.Subset.refl _, fun j hj => .inl hj⟩
        · obtain ⟨t', ht', hfirst⟩ := frameAt_eq_some hframe
          cases ht.symm.trans ht'
          obtain ⟨st', hst', hcarried, -⟩ := h.transmitted.carried p t ht
          cases hst.symm.trans hst'
          refine absurd ⟨rfl, frame, face, r, (sentAt p).seq, hframe, hface, ?_, hr, ?_, hevent⟩ hloses
          · rw [hcarried.frame 0 frame hfirst, Ethernet.source_frameOf, hsource]
          · rw [hcarried.frame 0 frame hfirst]
            exact hcarried.identifierOf hlawful hcarried.readable.pos
      · rw [Function.update_of_ne hb]
        exact ⟨List.Subset.refl _, fun j hj => .inl hj⟩
  | expire b event =>
      obtain ⟨face, hface, hstep⟩ := Option.bind_eq_some_iff.mp hstep
      obtain ⟨face', hexpire, rfl⟩ := Option.map_eq_some_iff.mp hstep
      obtain ⟨source, events, rfl, held', hreassembles, hlost⟩ := (h.reassembles b face hface).expire hexpire
      refine ⟨sentAt, _, _, h.receive hface hreassembles (List.Subset.refl _) h.transmitted.received rfl rfl rfl rfl,
        fun b' p frame hframe hloses => ?_, fun _ _ => by rw [Function.update_eq_self]⟩
      by_cases hb : b' = b
      · subst hb
        rw [Function.update_self]
        rcases hlost p with hsame | ⟨t, st, ht, hst, hevent⟩
        · rw [hsame]
          exact ⟨List.Subset.refl _, fun j hj => .inl hj⟩
        · obtain ⟨t', ht', hfirst⟩ := frameAt_eq_some hframe
          cases ht.symm.trans ht'
          obtain ⟨st', hst', hcarried, -⟩ := h.transmitted.carried p t ht
          cases hst.symm.trans hst'
          refine absurd ⟨rfl, frame, face, hframe, hface, ?_⟩ hloses
          rw [hcarried.frame 0 frame hfirst, Ethernet.source_frameOf]
          exact hevent
      · rw [Function.update_of_ne hb]
        exact ⟨List.Subset.refl _, fun j hj => .inl hj⟩
  | close b =>
      obtain ⟨face, hface, rfl⟩ := Option.map_eq_some_iff.mp hstep
      refine ⟨sentAt, held, origins, h.of_face hface ?_ ?_ ?_ ?_ ?_ ?_ ?_, hkept rfl, fun _ _ => List.prefix_rfl⟩ <;>
        (rw [EthernetFace.close]; split <;> rfl)
  | readError b isAborted =>
      obtain ⟨face, hface, rfl⟩ := Option.map_eq_some_iff.mp hstep
      refine ⟨sentAt, held, origins, h.of_face hface ?_ ?_ ?_ ?_ ?_ ?_ ?_, hkept rfl, fun _ _ => List.prefix_rfl⟩ <;>
        (rw [EthernetFace.handleReadError]; dsimp only; split <;> rfl)

theorem reach_linked (hlawful : codec.Lawful) (hsound : Sound codec stations)
    (hr : Reach (EthernetSegment.step codec) (Sendable codec) (new codec stations) s) :
    ∃ sentAt held origins, Linked codec stations s sentAt held origins := by
  refine hr.invariant (I := fun s => ∃ sentAt held origins, Linked codec stations s sentAt held origins)
    ⟨fun _ => ⟨⟨0, [], []⟩, 0, []⟩, _, _, new_linked codec stations _⟩ ?_
  rintro s e s' ⟨sentAt, held, origins, h⟩ hok hstep
  obtain ⟨sentAt', held', origins', h', -, -⟩ := h.step hlawful hsound hok hstep
  exact ⟨sentAt', held', origins', h'⟩

/-- Whatever reaches a face fails no assertion, and neither does an event of its timers. -/
theorem Linked.handleRead_isSome (h : Linked codec stations s sentAt held origins) (hface : s.faces[b]? = some face)
    {frame : List UInt8} (hopen : face.isOpen = true) (hreading : face.isReading = true)
    (hpasses : face.passesFilter frame = true) : (face.handleRead codec frame).isSome := by
  rw [EthernetFace.handleRead, if_pos (by rw [hopen, hreading, hpasses]; rfl)]
  rcases EthernetFace.processIncomingPacket_of_passesFilter codec hpasses with hignored | ⟨wire, hreceive⟩
  · rw [hignored]
    rfl
  · obtain ⟨pms, output, hwire, -⟩ := EthernetFace.receiveWire_of_wellFormed codec
      (storeOf_wellFormed (h.reassembles b face hface).wellFormed (Ethernet.source frame)) wire
    rw [hreceive, EthernetFace.receiveFragment, hwire]
    rfl

/-- A face captures no frame of its own, and dispatches no packet of its own. -/
theorem Linked.dispatchedFrom_self (h : Linked codec stations s sentAt held origins) (hface : s.faces[b]? = some face) :
    face.dispatchedFrom face.srcAddress = [] := by
  obtain ⟨st, hst⟩ : ∃ st, stations[b]? = some st :=
    ⟨_, List.getElem?_eq_getElem (h.transmitted.length ▸ (List.getElem?_eq_some_iff.mp hface).1)⟩
  have hsends := h.transmitted.face b st face hst hface
  obtain ⟨-, hpackets, htransmission, harrived⟩ :=
    (h.reassembles b face hface).originated b st hst hsends.destAddress.symm
  have hnothing : origins b b = [] := List.eq_nil_iff_forall_not_mem.mpr fun p hp => by
    obtain ⟨t, ht, hown⟩ := htransmission p hp
    obtain ⟨_, _, hcarried, _⟩ := h.transmitted.carried p t ht
    obtain ⟨t', _, _, _, ht', _, _, _, hne, _⟩ := h.transmitted.received b p 0 (harrived p hp 0 hcarried.readable.pos)
    cases ht.symm.trans ht'
    exact hne hown
  rw [hnothing, List.map_nil, List.map_eq_nil_iff] at hpackets
  rw [hsends.srcAddress]
  exact hpackets

end Runs

/-- Whatever is lost, delayed, reordered or sent by others on the segment, and whenever timers fire: no assertion fails,
and what a face has dispatched of a station of its group are packets that this station has sent, each at most once
and none of its own. -/
theorem ethernet_messages (hlawful : codec.Lawful) (hsound : Sound codec stations)
    (hr : Reach (step codec) (Sendable codec) (new codec stations) s) :
    (∀ a packet injected face, Sendable codec s (.send a packet injected) → s.faces[a]? = some face →
      (face.send codec packet injected).isSome) ∧
    (∀ (b : Nat) face, s.faces[b]? = some face →
      (∀ frame, face.isOpen = true → face.isReading = true → face.passesFilter frame = true →
        (face.handleRead codec frame).isSome) ∧
      (∀ pending ∈ face.events, (face.expire pending.1).isSome) ∧ face.dispatchedFrom face.srcAddress = []) ∧
    ∀ (a b : Nat) sender face, s.faces[a]? = some sender → s.faces[b]? = some face →
      sender.destAddress = face.destAddress → ∃ positions : List Nat, positions.Nodup ∧
        (∀ p ∈ positions, ∃ t, s.sent[p]? = some t ∧ t.face = a) ∧
        (face.dispatchedFrom sender.srcAddress).map some = positions.map fun p =>
        (s.sent[p]?).map Transmission.packet := by
  obtain ⟨sentAt, held, origins, h⟩ := reach_linked hlawful hsound hr
  refine ⟨fun a packet injected face hok hface => ?_, fun b face hface => ⟨fun frame => h.handleRead_isSome hface,
    fun pending hpending => (h.reassembles b face hface).expire_isSome hpending rfl, h.dispatchedFrom_self hface⟩,
    fun a b sender face hsender hface hgroup => ?_⟩
  · obtain ⟨_, _, _, _, _, hsend, _⟩ := h.transmitted.send hlawful hsound hok hface
    rw [hsend]
    rfl
  · obtain ⟨st, hst⟩ : ∃ st, stations[a]? = some st :=
      ⟨_, List.getElem?_eq_getElem (h.transmitted.length ▸ (List.getElem?_eq_some_iff.mp hsender).1)⟩
    have hsends := h.transmitted.face a st sender hst hsender
    obtain ⟨hnodup, hpackets, htransmission, -⟩ := (h.reassembles b face hface).originated a st hst
      (hsends.destAddress.symm.trans hgroup)
    rw [hsends.srcAddress]
    exact ⟨origins b a, hnodup, htransmission, hpackets⟩

/-- Two stations of a group, with room for eighteen octets in a frame and numbers that wrap around. -/
def twoStations : List Station :=
  [⟨#v[2, 0, 0, 0, 0, 1], #v[1, 0, 94, 0, 23, 170], 40, 2 ^ 64 - 1⟩,
    ⟨#v[2, 0, 0, 0, 0, 2], #v[1, 0, 94, 0, 23, 170], 40, 7⟩]

theorem twoStations_sound : Sound Tlv.codec twoStations where
  distinct := by decide +kernel
  mtu_lt := by decide
  overhead_lt := by decide +kernel

def isSendable (s : EthernetSegment) : Event → Bool
  | .send a packet _ => decide (Tlv.codec.fromBuffer packet.wire = some packet) &&
      (s.faces[a]?).all fun face => decide (face.slicer.nFragments packet ≤ 65535 ∧
        s.fragmentsSent a + face.slicer.nFragments packet ≤ 2 ^ 64)
  | _ => true

theorem sendable_of_isSendable {e : Event} (h : isSendable s e = true) : Sendable Tlv.codec s e := by
  cases e with
  | send a packet injected =>
      obtain ⟨hread, hnumbers⟩ := (Bool.and_eq_true _ _).mp h
      refine ⟨of_decide_eq_true hread, fun face hface => ?_⟩
      rw [hface, Option.all_some] at hnumbers
      exact of_decide_eq_true hnumbers
  | _ => trivial

/-- Two packets in three frames, of which the first is lost. -/
def twoPackets : List Event :=
  [.send 0 (Tlv.codec.block 6 (List.replicate 18 204)) [false, true], .send 0 (Tlv.codec.block 6 [1]) [true],
    .deliver 1 0 1, .deliver 1 1 0]

theorem ethernet_messages_twoPackets : ∃ s face,
    Reach (step Tlv.codec) (Sendable Tlv.codec) (new Tlv.codec twoStations) s ∧ s.faces[1]? = some face ∧
      face.dispatchedFrom #v[2, 0, 0, 0, 0, 1] = [Tlv.codec.block 6 [1]] ∧
      face.dispatchedFrom face.srcAddress = [] := by
  have hrun : ((exec (guarded (step Tlv.codec) isSendable) (new Tlv.codec twoStations) twoPackets).bind fun s =>
      s.faces[1]?).any (fun face => decide (face.dispatchedFrom #v[2, 0, 0, 0, 0, 1] = [Tlv.codec.block 6 [1]])) =
        true := by
    decide +kernel
  obtain ⟨face, hface, hdispatched⟩ := (Option.any_eq_true _ _).mp hrun
  obtain ⟨s, hs, hface⟩ := Option.bind_eq_some_iff.mp hface
  have hr := (reach_of_exec_guarded Reach.start hs).mono fun _ _ => sendable_of_isSendable
  exact ⟨s, face, hr, hface, of_decide_eq_true hdispatched,
    ((ethernet_messages Tlv.codec_lawful twoStations_sound hr).2.1 1 face hface).2.2⟩

/-- A frame that has not been captured yet can be. -/
theorem deliver_isSome (hlawful : codec.Lawful) (hsound : Sound codec stations)
    (hr : Reach (step codec) (Sendable codec) (new codec stations) s) {b p j : Nat} (hnew : (b, p, j) ∉ s.received)
    (hcaptures : ((s.faces[b]?).bind fun face => (s.frameAt p j).map fun frame =>
      face.isOpen && face.isReading && face.passesFilter frame) = some true) :
    ∃ s', step codec s (.deliver b p j) = some s' ∧ s'.received = (b, p, j) :: s.received := by
  obtain ⟨sentAt, held, origins, h⟩ := reach_linked hlawful hsound hr
  obtain ⟨face, hface, hcaptures⟩ := Option.bind_eq_some_iff.mp hcaptures
  obtain ⟨frame, hframe, hcaptures⟩ := Option.map_eq_some_iff.mp hcaptures
  rw [Bool.and_eq_true, Bool.and_eq_true] at hcaptures
  obtain ⟨face', hread⟩ := Option.isSome_iff_exists.mp
    (h.handleRead_isSome hface hcaptures.1.1 hcaptures.1.2 hcaptures.2)
  refine ⟨{ s.setFace b face' with received := (b, p, j) :: s.received }, ?_, rfl⟩
  rw [step, hface, Option.bind_some, hframe, Option.bind_some, if_neg hnew, hread, Option.map_some]

theorem sent_of_step {e : Event} (hstep : step codec s e = some s') {p : Nat} {t : Transmission}
    (ht : s.sent[p]? = some t) : s'.sent[p]? = some t := by
  cases e with
  | send a packet injected =>
      obtain ⟨face, -, hstep⟩ := Option.bind_eq_some_iff.mp hstep
      obtain ⟨result, -, rfl⟩ := Option.map_eq_some_iff.mp hstep
      exact getElem?_append_singleton.mpr (.inl ht)
  | deliver b p j =>
      obtain ⟨face, -, hstep⟩ := Option.bind_eq_some_iff.mp hstep
      obtain ⟨frame, -, hstep⟩ := Option.bind_eq_some_iff.mp hstep
      obtain ⟨-, hstep⟩ := Option.ite_none_left_eq_some.mp hstep
      obtain ⟨face', -, rfl⟩ := Option.map_eq_some_iff.mp hstep
      exact ht
  | foreign b frame =>
      obtain ⟨face, -, hstep⟩ := Option.bind_eq_some_iff.mp hstep
      obtain ⟨-, hstep⟩ := Option.ite_none_right_eq_some.mp hstep
      obtain ⟨face', -, rfl⟩ := Option.map_eq_some_iff.mp hstep
      exact ht
  | cleanup b source event =>
      obtain ⟨face, -, hstep⟩ := Option.bind_eq_some_iff.mp hstep
      obtain ⟨face', -, rfl⟩ := Option.map_eq_some_iff.mp hstep
      exact ht
  | expire b event =>
      obtain ⟨face, -, hstep⟩ := Option.bind_eq_some_iff.mp hstep
      obtain ⟨face', -, rfl⟩ := Option.map_eq_some_iff.mp hstep
      exact ht
  | close b =>
      obtain ⟨face, -, rfl⟩ := Option.map_eq_some_iff.mp hstep
      exact ht
  | readError b isAborted =>
      obtain ⟨face, -, rfl⟩ := Option.map_eq_some_iff.mp hstep
      exact ht

/-- The fragments of a transmission that have arrived since it was sent are held, while no timer drops them, and what a
face has dispatched stays. -/
theorem reach_held (hlawful : codec.Lawful) (hsound : Sound codec stations) {sentAt : Nat → Sent}
    {held origins : Nat → Nat → List Nat} (hlinked : Linked codec stations s sentAt held origins) {b p : Nat}
    {t : Transmission} {frame : List UInt8} (ht : s.sent[p]? = some t) (hframe : t.frames[0]? = some (some frame))
    (hnone : ∀ j, (b, p, j) ∉ s.received)
    (hr : Reach (step codec) (fun s e => Sendable codec s e ∧ ¬ Loses codec s b p e) s s') :
    ∃ sentAt' held' origins', Linked codec stations s' sentAt' held' origins' ∧ s'.sent[p]? = some t ∧
      (∀ j, (b, p, j) ∈ s'.received → j ∈ held' b p) ∧ ∀ b a, origins b a <+: origins' b a := by
  refine hr.invariant (I := fun s' => ∃ sentAt' held' origins', Linked codec stations s' sentAt' held' origins' ∧
    s'.sent[p]? = some t ∧ (∀ j, (b, p, j) ∈ s'.received → j ∈ held' b p) ∧ ∀ b a, origins b a <+: origins' b a)
    ⟨sentAt, held, origins, hlinked, ht, fun j hj => absurd hj (hnone j), fun _ _ => List.prefix_rfl⟩ ?_
  rintro s e s' ⟨sentAt₁, held₁, origins₁, h, ht, hheld, hgrows⟩ ⟨hok, hloses⟩ hstep
  obtain ⟨sentAt', held', origins', h', hkeeps, hgrows'⟩ := h.step hlawful hsound hok hstep
  obtain ⟨hsub, hreceived⟩ := hkeeps b p frame (by rw [frameAt, ht, Option.bind_some, hframe]; rfl) hloses
  exact ⟨sentAt', held', origins', h', sent_of_step hstep ht, fun j hj =>
    (hreceived j hj).elim (fun hold => hsub (hheld j hold)) id, fun b a => (hgrows b a).trans (hgrows' b a)⟩

theorem sent_of_reach {Allowed : EthernetSegment → Event → Prop} (hr : Reach (step codec) Allowed s s') {p : Nat}
    {t : Transmission} (ht : s.sent[p]? = some t) : s'.sent[p]? = some t :=
  hr.invariant (I := fun s => s.sent[p]? = some t) ht fun _ _ _ ht _ hstep => sent_of_step hstep ht

/-- What was dispatched before comes first. -/
theorem dispatched_prefix {sent sent' : List Transmission} {received received' : List (Nat × Nat × Nat)}
    {sentAt sentAt' : Nat → Sent} {a b : Nat} {before after : List Block} {positions positions' : List Nat}
    (h : Originated sent received sentAt b a before positions)
    (h' : Originated sent' received' sentAt' b a after positions') (hgrows : positions <+: positions')
    (hsent : ∀ (p : Nat) t, sent[p]? = some t → sent'[p]? = some t) : before <+: after := by
  obtain ⟨later, rfl⟩ := hgrows
  have hold : positions.map (fun p => (sent'[p]?).map Transmission.packet) = before.map some := by
    rw [h.packets]
    refine List.map_congr_left fun p hp => ?_
    obtain ⟨t, ht, -⟩ := h.transmission p hp
    rw [ht, hsent p t ht]
  have hsplit := h'.packets
  rw [List.map_append, hold] at hsplit
  obtain ⟨first, rest, rfl, hfirst, -⟩ := List.map_eq_append_iff.mp hsplit
  rw [List.map_inj_right fun _ _ => Option.some.inj] at hfirst
  exact ⟨rest, by rw [hfirst]⟩

/-- A packet of which all frames arrive at a face, in any order and among any others, is dispatched by it, unless one
of its timers drops some of them before: it has a position of its own among the packets of its sender, after those that
were dispatched before it was sent. -/
theorem ethernet_delivers (hlawful : codec.Lawful) (hsound : Sound codec stations)
    (hr : Reach (step codec) (Sendable codec) (new codec stations) s) {b p : Nat} {t : Transmission}
    (ht : s.sent[p]? = some t) (hnone : ∀ j, (b, p, j) ∉ s.received)
    (hr' : Reach (step codec) (fun s e => Sendable codec s e ∧ ¬ Loses codec s b p e) s s')
    (hall : ∀ j < t.frames.length, (b, p, j) ∈ s'.received) :
    ∃ sender before face, s'.faces[t.face]? = some sender ∧ s.faces[b]? = some before ∧ s'.faces[b]? = some face ∧
      before.dispatchedFrom sender.srcAddress <+: face.dispatchedFrom sender.srcAddress ∧
      ∃ (positions : List Nat) (i : Nat), positions.Nodup ∧
        (∀ q ∈ positions, ∃ t', s'.sent[q]? = some t' ∧ t'.face = t.face) ∧
        (face.dispatchedFrom sender.srcAddress).map some =
          positions.map (fun q => (s'.sent[q]?).map Transmission.packet) ∧
        positions[i]? = some p ∧ (face.dispatchedFrom sender.srcAddress)[i]? = some t.packet ∧
        (before.dispatchedFrom sender.srcAddress).length ≤ i := by
  obtain ⟨sentAt₀, held₀, origins₀, h₀⟩ := reach_linked hlawful hsound hr
  obtain ⟨st, hst, hcarried₀, -⟩ := h₀.transmitted.carried p t ht
  have hpos : 0 < t.frames.length := hcarried₀.length ▸ hcarried₀.readable.pos
  obtain ⟨_, _, _, h₁⟩ := reach_linked hlawful hsound (hr.trans (hr'.mono fun s e hok => hok.1))
  obtain ⟨t', -, other, frame, ht', -, hother, -, -, hframe⟩ := h₁.transmitted.received b p 0 (hall 0 hpos)
  cases (sent_of_reach hr' ht).symm.trans ht'
  obtain ⟨sentAt, held, origins, h, hsent, hheld, hgrows⟩ := reach_held hlawful hsound h₀ ht hframe hnone hr'
  obtain ⟨st₁, hst₁, hcarried, -⟩ := h.transmitted.carried p t hsent
  cases hst.symm.trans hst₁
  obtain ⟨t', st', other', -, ht', hst', hother', hgroup, -, -⟩ := h.transmitted.received b p 0 (hall 0 hpos)
  cases hsent.symm.trans ht'
  cases hst.symm.trans hst'
  cases hother.symm.trans hother'
  have hfaces : ∀ {i : Nat} {x : Station}, stations[i]? = some x → ∃ face, s'.faces[i]? = some face :=
    fun hx => ⟨_, List.getElem?_eq_getElem (h.transmitted.length ▸ (List.getElem?_eq_some_iff.mp hx).1)⟩
  obtain ⟨sender, hsender⟩ := hfaces hst
  obtain ⟨face, hface⟩ := hfaces hother
  obtain ⟨before, hbefore⟩ : ∃ before, s.faces[b]? = some before :=
    ⟨_, List.getElem?_eq_getElem (h₀.transmitted.length ▸ (List.getElem?_eq_some_iff.mp hother).1)⟩
  have hsends := h.transmitted.face t.face st sender hst hsender
  have hreassembles := h.reassembles b face hface
  have horiginated := hreassembles.originated t.face st hst
    (hgroup.trans (h.transmitted.face b other face hother hface).destAddress.symm)
  have horiginated₀ := (h₀.reassembles b before hbefore).originated t.face st hst
    (hgroup.trans (h₀.transmitted.face b other before hother hbefore).destAddress.symm)
  have hmem : p ∈ origins b t.face :=
    hreassembles.complete p t hsent fun j hj => hheld j (hall j (hcarried.length ▸ hj))
  have hnew : p ∉ origins₀ b t.face := fun hold =>
    hnone 0 (horiginated₀.arrived p hold 0 hcarried₀.readable.pos)
  obtain ⟨later, hlater⟩ := hgrows b t.face
  rw [← hlater] at hmem horiginated
  obtain ⟨k, hk⟩ := List.mem_iff_getElem?.mp ((List.mem_append.mp hmem).resolve_left hnew)
  have hi : (origins₀ b t.face ++ later)[(origins₀ b t.face).length + k]? = some p := by
    rw [List.getElem?_append_right (Nat.le_add_right _ _), Nat.add_sub_cancel_left, hk]
  have hpacket : ((face.dispatchedFrom st.srcAddress).map some)[(origins₀ b t.face).length + k]? =
      some (some t.packet) := by
    rw [horiginated.packets, List.getElem?_map, hi, Option.map_some, hsent, Option.map_some]
  rw [List.getElem?_map, Option.map_eq_some_iff] at hpacket
  obtain ⟨packet, hpacket, heq⟩ := hpacket
  have hlength : (before.dispatchedFrom st.srcAddress).length = (origins₀ b t.face).length := by
    simpa using congrArg List.length horiginated₀.packets
  rw [← hsends.srcAddress] at *
  refine ⟨sender, before, face, hsender, hbefore, hface, ?_, origins₀ b t.face ++ later,
    (origins₀ b t.face).length + k, horiginated.nodup, horiginated.transmission, horiginated.packets, hi,
    hpacket.trans heq, hlength.trans_le (Nat.le_add_right _ _)⟩
  exact dispatched_prefix horiginated₀ horiginated (List.prefix_append _ _) fun q t hq => sent_of_reach hr' hq

/-- A packet of two fragments is sent. -/
def packetSent : Option EthernetSegment :=
  exec (guarded (step Tlv.codec) isSendable) (new Tlv.codec twoStations)
    [.send 0 (Tlv.codec.block 6 (List.replicate 18 204)) [true, true]]

/-- The frames of a packet arrive in the wrong order. -/
theorem ethernet_delivers_reordered : ∃ (s : EthernetSegment) (sender face : EthernetFace) (i : Nat),
    Reach (step Tlv.codec) (Sendable Tlv.codec) (new Tlv.codec twoStations) s ∧ s.received = [(1, 0, 0), (1, 0, 1)] ∧
      s.faces[0]? = some sender ∧ s.faces[1]? = some face ∧
      (face.dispatchedFrom sender.srcAddress)[i]? = some (Tlv.codec.block 6 (List.replicate 18 204)) := by
  have hnone : packetSent.map received = some [] := by decide +kernel
  have hsent : (packetSent.bind fun s => s.sent[0]?).map (fun t => (t.face, t.frames.length, t.packet)) =
      some (0, 2, Tlv.codec.block 6 (List.replicate 18 204)) := by decide +kernel
  have hsecond : (packetSent.bind fun s => step Tlv.codec s (.deliver 1 0 1)).map received = some [(1, 0, 1)] := by
    decide +kernel
  have hcaptures : ((packetSent.bind fun s => step Tlv.codec s (.deliver 1 0 1)).bind fun s =>
      (s.faces[1]?).bind fun face => (s.frameAt 0 0).map fun frame =>
        face.isOpen && face.isReading && face.passesFilter frame) = some true := by decide +kernel
  obtain ⟨s, hs, hnone⟩ := Option.map_eq_some_iff.mp hnone
  rw [hs, Option.bind_some] at hsent hsecond hcaptures
  obtain ⟨t, ht, hpacket⟩ := Option.map_eq_some_iff.mp hsent
  obtain ⟨hface, hpacket⟩ := Prod.mk.inj hpacket
  obtain ⟨hlength, hpacket⟩ := Prod.mk.inj hpacket
  obtain ⟨s₁, hs₁, hreceived₁⟩ := Option.map_eq_some_iff.mp hsecond
  rw [hs₁, Option.bind_some] at hcaptures
  have hr := (reach_of_exec_guarded Reach.start hs).mono fun _ _ => sendable_of_isSendable
  obtain ⟨s₂, hs₂, hreceived₂⟩ := deliver_isSome Tlv.codec_lawful twoStations_sound
    (hr.next (.deliver 1 0 1) trivial hs₁)
    (by rw [hreceived₁]; decide) hcaptures
  rw [hreceived₁] at hreceived₂
  have hr' : Reach (step Tlv.codec) (fun s e => Sendable Tlv.codec s e ∧ ¬ Loses Tlv.codec s 1 0 e) s s₂ :=
    .next (.deliver 1 0 0) (.next (.deliver 1 0 1) .start ⟨trivial, id⟩ hs₁) ⟨trivial, id⟩ hs₂
  obtain ⟨sender, -, face, hsender, -, hface', -, -, i, -, -, -, -, hi, -⟩ := ethernet_delivers Tlv.codec_lawful
    twoStations_sound hr ht (fun j hj => by rw [hnone] at hj; cases hj) hr' fun j hj => by
      rw [hlength] at hj
      rw [hreceived₂]
      obtain rfl | rfl : j = 0 ∨ j = 1 := by omega
      · decide
      · decide
  rw [hface] at hsender
  rw [hpacket] at hi
  exact ⟨s₂, sender, face, i, hr.trans (hr'.mono fun _ _ hok => hok.1), hreceived₂, hsender, hface', hi⟩

end EthernetSegment
end NfdPitless
