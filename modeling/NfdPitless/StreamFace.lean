import NfdPitless.Tlv
import NfdPitless.Runs

/-! Framing of a byte stream (`StreamFace::handleReceive`, `face/stream-face.hpp`): elements are cut from an input
buffer of fixed size, and what is left of it is carried over. -/

namespace NfdPitless

structure StreamFace where
  inputBuffer : List UInt8
  inputBufferSize : Nat
  /-- The elements given to `decodeAndDispatchInput`. -/
  dispatched : List Block
  failed : Bool

namespace StreamFace

def new (maxPacketSize : Nat) : StreamFace :=
  { inputBuffer := List.replicate maxPacketSize 0, inputBufferSize := 0, dispatched := [], failed := false }

/-- The size of the buffer that is offered to `async_receive`. -/
def offered (maxPacketSize : Nat) (face : StreamFace) : Nat := maxPacketSize - face.inputBufferSize

/-- Octets written to a buffer; `none` past its end. -/
def write (buffer : List UInt8) (pos : Nat) (octets : List UInt8) : Option (List UInt8) :=
  if pos + octets.length ≤ buffer.length then
    some (buffer.take pos ++ octets ++ buffer.drop (pos + octets.length))
  else none

/-- The loop of `handleReceive`: the offset where it ends, whether it ended well, and the elements. `none` where the
assertion fails, or the loop does not end. -/
def decodeInput (fromBuffer : List UInt8 → Option Block) (buffer : List UInt8) (size : Nat) :
    Nat → Nat → List Block → Option (Nat × Bool × List Block)
  | 0, _, _ => none
  | fuel + 1, offset, dispatched =>
      if size - offset = 0 then some (offset, true, dispatched)
      else
        match fromBuffer ((buffer.drop offset).take (size - offset)) with
        | none => some (offset, false, dispatched)
        | some element =>
            let offset := offset + element.wire.length
            if offset ≤ size then decodeInput fromBuffer buffer size fuel offset (dispatched ++ [element]) else none

/-- `handleReceive` after `nBytesReceived` octets. -/
def handleReceive (fromBuffer : List UInt8 → Option Block) (maxPacketSize : Nat) (face : StreamFace)
    (nBytesReceived : Nat) : Option StreamFace :=
  let size := face.inputBufferSize + nBytesReceived
  (decodeInput fromBuffer face.inputBuffer size (size + 1) 0 face.dispatched).bind fun (offset, isOk, dispatched) =>
    if isOk = false ∧ size = maxPacketSize ∧ offset = 0 then
      some { face with inputBufferSize := size, dispatched, failed := true }
    else if 0 < offset then
      if offset ≠ size then
        (write face.inputBuffer 0 ((face.inputBuffer.drop offset).take (size - offset))).map fun inputBuffer =>
          { face with inputBuffer, inputBufferSize := size - offset, dispatched }
      else some { face with inputBufferSize := 0, dispatched }
    else some { face with inputBufferSize := size, dispatched }

/-- A chunk is received into the buffer. -/
def receive (fromBuffer : List UInt8 → Option Block) (maxPacketSize : Nat) (face : StreamFace) (chunk : List UInt8) :
    Option StreamFace :=
  (write face.inputBuffer face.inputBufferSize chunk).bind fun inputBuffer =>
    handleReceive fromBuffer maxPacketSize { face with inputBuffer } chunk.length

/-- The octets in the buffer. -/
def input (face : StreamFace) : List UInt8 := face.inputBuffer.take face.inputBufferSize

variable {fromBuffer : List UInt8 → Option Block} {maxPacketSize : Nat} {face face' : StreamFace} {chunk : List UInt8}

/-- The loop cuts complete elements from what is in the buffer, until none is left. -/
theorem decodeInput_spec (h : ReadsElements fromBuffer) (buffer : List UInt8) {size : Nat}
    (hsize : size ≤ buffer.length)
    (fuel offset : Nat) (hoffset : offset ≤ size) (hfuel : size - offset < fuel) (dispatched : List Block) :
    ∃ elements offset', decodeInput fromBuffer buffer size fuel offset dispatched =
        some (offset', decide (offset' = size), dispatched ++ elements) ∧
      (∀ e ∈ elements, fromBuffer e.wire = some e) ∧ offset ≤ offset' ∧ offset' ≤ size ∧
      (buffer.drop offset).take (size - offset) =
        elements.flatMap Block.wire ++ (buffer.drop offset').take (size - offset') ∧
      fromBuffer ((buffer.drop offset').take (size - offset')) = none := by
  induction fuel generalizing offset dispatched with
  | zero => omega
  | succ fuel ih =>
      rw [decodeInput]
      split
      · rename_i hend
        obtain rfl : offset = size := by omega
        refine ⟨[], offset, ?_, fun _ he => (nomatch he), le_rfl, le_rfl, rfl, ?_⟩
        · rw [decide_eq_true rfl, List.append_nil]
        · rw [Nat.sub_self, List.take_zero, h.nil]
      · rename_i hmore
        cases hread : fromBuffer ((buffer.drop offset).take (size - offset)) with
        | none =>
            refine ⟨[], offset, ?_, fun _ he => (nomatch he), le_rfl, hoffset, rfl, hread⟩
            rw [decide_eq_false (by omega), List.append_nil]
        | some element =>
            obtain ⟨helement, hpre⟩ := (h.iff _ _).mp hread
            have hpos := h.length_pos hread
            have hlength := hpre.length_le
            rw [List.length_take, List.length_drop] at hlength
            have hfits : offset + element.wire.length ≤ size := by omega
            dsimp only
            rw [if_pos hfits]
            obtain ⟨elements, offset', hrun, hall, hle, hle', hcut, hnone⟩ :=
              ih (offset + element.wire.length) hfits (by omega) (dispatched ++ [element])
            refine ⟨element :: elements, offset', ?_, ?_, by omega, hle', ?_, hnone⟩
            · rw [hrun, List.append_assoc, List.singleton_append]
            · intro e he
              cases List.mem_cons.mp he with
              | inl hfirst => exact hfirst ▸ helement
              | inr hrest => exact hall e hrest
            · obtain ⟨rest, hrest⟩ := hpre
              have hdrop : rest = (buffer.drop (offset + element.wire.length)).take
                  (size - (offset + element.wire.length)) := by
                have heq := congrArg (List.drop element.wire.length) hrest
                rw [List.drop_left, List.drop_take, List.drop_drop] at heq
                rw [heq, Nat.sub_sub]
              rw [← hrest, List.flatMap_cons, List.append_assoc, ← hcut, ← hdrop]

theorem write_eq (buffer octets : List UInt8) (pos : Nat) (h : pos + octets.length ≤ buffer.length) :
    ∃ buffer', write buffer pos octets = some buffer' ∧ buffer'.length = buffer.length ∧
      buffer'.take (pos + octets.length) = buffer.take pos ++ octets := by
  refine ⟨_, if_pos h, ?_, ?_⟩
  · rw [List.length_append, List.length_append, List.length_take, List.length_drop]
    omega
  · apply List.take_left'
    rw [List.length_append, List.length_take]
    omega

/-- The octets in the buffer are at most as many as it has. -/
structure Bounded (maxPacketSize : Nat) (face : StreamFace) : Prop where
  length : face.inputBuffer.length = maxPacketSize
  le : face.inputBufferSize ≤ maxPacketSize

theorem new_bounded (maxPacketSize : Nat) : (new maxPacketSize).Bounded maxPacketSize where
  length := List.length_replicate
  le := Nat.zero_le _

/-- The elements that a chunk completes are dispatched, and the rest stays in the buffer. The face fails only when
that fills the buffer. -/
theorem Bounded.receive (hface : face.Bounded maxPacketSize) (h : ReadsElements fromBuffer) (hpos : 0 < maxPacketSize)
    (hfailed : face.failed = false) (hchunk : chunk.length ≤ face.offered maxPacketSize) :
    ∃ face' elements, face.receive fromBuffer maxPacketSize chunk = some face' ∧ face'.Bounded maxPacketSize ∧
      face'.dispatched = face.dispatched ++ elements ∧ (∀ e ∈ elements, fromBuffer e.wire = some e) ∧
      face.input ++ chunk = elements.flatMap Block.wire ++ face'.input ∧ fromBuffer face'.input = none ∧
      (face'.failed = true ↔ face'.inputBufferSize = maxPacketSize) := by
  have hle := hface.le
  have hlength := hface.length
  rw [offered] at hchunk
  obtain ⟨buffer, hwrite, hbuffer, hfilled⟩ :=
    write_eq face.inputBuffer chunk face.inputBufferSize (by omega)
  have hsize : face.inputBufferSize + chunk.length ≤ buffer.length := by omega
  obtain ⟨elements, offset, hrun, hall, -, hoffset, hcut, hnone⟩ := decodeInput_spec h buffer hsize
    (face.inputBufferSize + chunk.length + 1) 0 (Nat.zero_le _) (by omega) face.dispatched
  rw [List.drop_zero, Nat.sub_zero, hfilled] at hcut
  rw [StreamFace.receive, hwrite, Option.bind_some, handleReceive]
  dsimp only
  rw [hrun, Option.bind_some]
  dsimp only
  split
  · rename_i hfull
    obtain ⟨-, hfull, rfl⟩ := hfull
    rw [List.drop_zero, Nat.sub_zero] at hcut hnone
    exact ⟨_, elements, rfl, ⟨hbuffer.trans hlength, hfull.le⟩, rfl, hall, hcut, hnone, iff_of_true rfl hfull⟩
  · rename_i hroom
    split
    · split
      · obtain ⟨buffer', hwrite', hbuffer', hfilled'⟩ := write_eq buffer
          ((buffer.drop offset).take (face.inputBufferSize + chunk.length - offset)) 0
            (by rw [List.length_take, List.length_drop]; omega)
        have hkept : ((buffer.drop offset).take (face.inputBufferSize + chunk.length - offset)).length =
            face.inputBufferSize + chunk.length - offset := by
          rw [List.length_take, List.length_drop]
          omega
        rw [Nat.zero_add, hkept, List.take_zero, List.nil_append] at hfilled'
        rw [hwrite', Option.map_some]
        refine ⟨_, elements, rfl, ⟨by dsimp only; omega, by dsimp only; omega⟩, rfl, hall, ?_, ?_, ?_⟩
        · exact hcut.trans (congrArg (elements.flatMap Block.wire ++ ·) hfilled'.symm)
        · exact (congrArg fromBuffer hfilled').trans hnone
        · refine iff_of_false (by dsimp only; rw [hfailed]; exact Bool.false_ne_true) ?_
          dsimp only
          omega
      · rename_i hend
        obtain rfl : offset = face.inputBufferSize + chunk.length := not_not.mp hend
        rw [Nat.sub_self, List.take_zero] at hcut hnone
        refine ⟨_, elements, rfl, ⟨hbuffer.trans hlength, Nat.zero_le _⟩, rfl, hall, hcut, hnone, ?_⟩
        refine iff_of_false (by dsimp only; rw [hfailed]; exact Bool.false_ne_true) ?_
        dsimp only
        omega
    · rename_i hzero
      obtain rfl : offset = 0 := by omega
      rw [List.drop_zero, Nat.sub_zero] at hcut hnone
      refine ⟨_, elements, rfl, ⟨hbuffer.trans hlength, by dsimp only; omega⟩, rfl, hall, hcut, hnone, ?_⟩
      refine iff_of_false (by dsimp only; rw [hfailed]; exact Bool.false_ne_true) fun hfull => hroom ?_
      dsimp only at hfull
      exact ⟨decide_eq_false (by omega), hfull, rfl⟩

/-! ### Runs -/

/-- A face with the octets of the stream that it has received. -/
structure Connection where
  face : StreamFace
  received : List UInt8

namespace Connection

def start (maxPacketSize : Nat) : Connection := { face := .new maxPacketSize, received := [] }

def step (fromBuffer : List UInt8 → Option Block) (maxPacketSize : Nat) (connection : Connection)
    (chunk : List UInt8) : Option Connection :=
  (connection.face.receive fromBuffer maxPacketSize chunk).map fun face =>
    { face, received := connection.received ++ chunk }

/-- What a socket does: it delivers at least an octet, and no more than there is room for, to a face that has not
failed. -/
def Delivers (maxPacketSize : Nat) (connection : Connection) (chunk : List UInt8) : Prop :=
  connection.face.failed = false ∧ chunk ≠ [] ∧ chunk.length ≤ connection.face.offered maxPacketSize

variable {connection connection' : Connection}

/-- The stream that has been received is what has been dispatched, and what is in the buffer, which does not start
with an element. -/
structure Framed (fromBuffer : List UInt8 → Option Block) (maxPacketSize : Nat) (connection : Connection) : Prop where
  bounded : connection.face.Bounded maxPacketSize
  complete : ∀ e ∈ connection.face.dispatched, fromBuffer e.wire = some e
  received : connection.received = connection.face.dispatched.flatMap Block.wire ++ connection.face.input
  undecoded : fromBuffer connection.face.input = none
  failed : connection.face.failed = true ↔ connection.face.inputBufferSize = maxPacketSize

theorem start_framed (h : ReadsElements fromBuffer) (hpos : 0 < maxPacketSize) :
    (start maxPacketSize).Framed fromBuffer maxPacketSize where
  bounded := new_bounded maxPacketSize
  complete := fun _ he => nomatch he
  received := rfl
  undecoded := h.nil
  failed := iff_of_false Bool.false_ne_true hpos.ne

theorem Framed.step (hframed : connection.Framed fromBuffer maxPacketSize) (h : ReadsElements fromBuffer)
    (hpos : 0 < maxPacketSize) (hchunk : connection.Delivers maxPacketSize chunk) :
    ∃ connection', connection.step fromBuffer maxPacketSize chunk = some connection' ∧
      connection'.Framed fromBuffer maxPacketSize := by
  obtain ⟨hfailed, -, hlength⟩ := hchunk
  obtain ⟨face', elements, hreceive, hbounded, hdispatched, hall, hcut, hnone, hfull⟩ :=
    hframed.bounded.receive h hpos hfailed hlength
  refine ⟨_, by rw [Connection.step, hreceive, Option.map_some], hbounded, ?_, ?_, hnone, hfull⟩
  · dsimp only
    rw [hdispatched]
    intro e he
    cases List.mem_append.mp he with
    | inl hold => exact hframed.complete e hold
    | inr hnew => exact hall e hnew
  · dsimp only
    rw [hdispatched, hframed.received, List.append_assoc, hcut, List.flatMap_append, List.append_assoc]

/-- Complete elements at the start of a stream of complete elements are those of the stream. -/
theorem elements_prefix (h : ReadsElements fromBuffer) {dispatched elements : List Block} {rest : List UInt8}
    (hdispatched : ∀ e ∈ dispatched, fromBuffer e.wire = some e)
    (helements : ∀ e ∈ elements, fromBuffer e.wire = some e)
    (hpre : dispatched.flatMap Block.wire ++ rest <+: elements.flatMap Block.wire) :
    ∃ pending, elements = dispatched ++ pending ∧ rest <+: pending.flatMap Block.wire := by
  induction dispatched generalizing elements with
  | nil => exact ⟨elements, rfl, hpre⟩
  | cons e dispatched ih =>
      have hread := hdispatched e List.mem_cons_self
      have hpos := h.length_pos hread
      rw [List.flatMap_cons, List.append_assoc] at hpre
      cases elements with
      | nil =>
          have hlength := hpre.length_le
          rw [List.length_append] at hlength
          change _ ≤ 0 at hlength
          omega
      | cons e' elements =>
          obtain ⟨tail, htail⟩ := hpre
          rw [List.flatMap_cons] at htail
          have hsame : e = e' := by
            have hfirst := h.append hread (dispatched.flatMap Block.wire ++ rest ++ tail)
            rw [← List.append_assoc, htail, h.append (helements e' List.mem_cons_self)] at hfirst
            exact (Option.some.inj hfirst).symm
          subst hsame
          rw [List.append_assoc, List.append_right_inj] at htail
          obtain ⟨pending, hpending, hrest⟩ := ih (fun x hx => hdispatched x (List.mem_cons_of_mem _ hx))
            (fun x hx => helements x (List.mem_cons_of_mem _ hx)) ⟨tail, htail⟩
          exact ⟨pending, congrArg (e :: ·) hpending, hrest⟩

/-- However a stream is cut into chunks, the face takes each one; it fails only when its buffer is full and starts with
no element; otherwise it goes on to offer room. Of a stream of complete elements that fit the buffer it dispatches those
that have arrived, in order, and never fails. -/
theorem stream_framed (h : ReadsElements fromBuffer) (hpos : 0 < maxPacketSize)
    (hr : Reach (step fromBuffer maxPacketSize) (Delivers maxPacketSize) (start maxPacketSize) connection) :
    (∀ chunk, connection.Delivers maxPacketSize chunk →
      ∃ connection', connection.step fromBuffer maxPacketSize chunk = some connection') ∧
    (connection.face.failed = false → 1 ≤ connection.face.offered maxPacketSize) ∧
    (connection.face.failed = true → connection.face.input.length = maxPacketSize ∧
      fromBuffer connection.face.input = none) ∧
    ∀ elements : List Block, (∀ e ∈ elements, fromBuffer e.wire = some e ∧ e.wire.length ≤ maxPacketSize) →
      connection.received <+: elements.flatMap Block.wire →
      connection.face.failed = false ∧
      (∃ pending, elements = connection.face.dispatched ++ pending ∧
        ∀ e ∈ pending.head?, ¬ (connection.face.dispatched ++ [e]).flatMap Block.wire <+: connection.received) ∧
      (connection.received = elements.flatMap Block.wire → connection.face.dispatched = elements) := by
  have hframed : connection.Framed fromBuffer maxPacketSize :=
    hr.invariant_of_spec (start_framed h hpos) fun _ _ _ hc hok _ => hc.step h hpos hok
  have hinput : connection.face.input.length = connection.face.inputBufferSize := by
    rw [input, List.length_take, hframed.bounded.length]
    exact Nat.min_eq_left hframed.bounded.le
  refine ⟨fun chunk hchunk => ?_, fun hfailed => ?_, fun hfailed => ?_, fun elements helements hreceived => ?_⟩
  · obtain ⟨connection', hstep, -⟩ := hframed.step h hpos hchunk
    exact ⟨connection', hstep⟩
  · have hne : connection.face.inputBufferSize ≠ maxPacketSize := fun heq => by
      rw [hframed.failed.mpr heq] at hfailed
      cases hfailed
    have hle := hframed.bounded.le
    rw [offered]
    omega
  · exact ⟨hinput.trans (hframed.failed.mp hfailed), hframed.undecoded⟩
  · have hrest := hreceived
    rw [hframed.received] at hrest
    obtain ⟨pending, hpending, hbuffered⟩ :=
      elements_prefix h hframed.complete (fun e he => (helements e he).1) hrest
    -- The first element that has not been dispatched has not arrived completely.
    have hnotwhole : ∀ e ∈ pending.head?, ¬ e.wire <+: connection.face.input := by
      intro e he hpre
      have hmem : e ∈ elements := hpending ▸ List.mem_append_right _ (List.mem_of_mem_head? he)
      have hread := (h.iff _ _).mpr ⟨(helements e hmem).1, hpre⟩
      rw [hframed.undecoded] at hread
      cases hread
    refine ⟨?_, ⟨pending, hpending, fun e he hpre => hnotwhole e he ?_⟩, fun hall => ?_⟩
    · rw [← Bool.not_eq_true]
      intro hfailed
      have hfull := hinput.trans (hframed.failed.mp hfailed)
      cases pending with
      | nil =>
          have hlength := hbuffered.length_le
          change _ ≤ 0 at hlength
          omega
      | cons e pending =>
          have hfits := (helements e (hpending ▸ List.mem_append_right _ List.mem_cons_self)).2
          refine hnotwhole e rfl (List.prefix_of_prefix_length_le (List.prefix_append _ _) hbuffered ?_)
          rw [hfull]
          exact hfits
    · rw [hframed.received, List.flatMap_append, List.flatMap_singleton] at hpre
      exact (List.prefix_append_right_inj _).mp hpre
    · rw [hpending, List.flatMap_append, hframed.received, List.append_right_inj] at hall
      cases pending with
      | nil => exact (hpending.trans (List.append_nil _)).symm
      | cons e pending => exact absurd ⟨_, hall.symm⟩ (hnotwhole e rfl)

/-- An element that fills the buffer, and a smaller one of which the first octet comes with it. -/
def sampleElements : List Block := [Tlv.codec.block 1 [7, 8], Tlv.codec.block 1 []]

/-- Two elements in three chunks, with a buffer of four octets. -/
theorem stream_framed_two_elements : ∃ connection, exec (step Tlv.fromBuffer 4) (start 4) [[1, 2, 7], [8], [1], [0]] =
      some connection ∧ connection.received = sampleElements.flatMap Block.wire ∧
      connection.face.failed = false ∧ connection.face.dispatched = sampleElements := by
  have hrun : ((exec (guarded (step Tlv.fromBuffer 4) fun connection chunk =>
      !connection.face.failed && !chunk.isEmpty && decide (chunk.length ≤ connection.face.offered 4)) (start 4)
        [[1, 2, 7], [8], [1], [0]]).any fun connection =>
          decide (connection.received = sampleElements.flatMap Block.wire)) = true := by decide +kernel
  obtain ⟨connection, hconnection, hreceived⟩ := (Option.any_eq_true _ _).mp hrun
  have hr : Reach (step Tlv.fromBuffer 4) (Delivers 4) (start 4) connection := by
    refine (reach_of_exec_guarded Reach.start hconnection).mono fun c chunk hok => ?_
    rw [Bool.and_eq_true, Bool.and_eq_true, Bool.not_eq_true', Bool.not_eq_true', decide_eq_true_iff] at hok
    exact ⟨hok.1.1, fun hnil => absurd (hnil ▸ hok.1.2) (by decide), hok.2⟩
  have hreceived := of_decide_eq_true hreceived
  obtain ⟨-, -, -, hframed⟩ := stream_framed Tlv.readsElements (by decide) hr
  obtain ⟨hfailed, -, hall⟩ := hframed sampleElements (by decide +kernel) (hreceived ▸ List.prefix_rfl)
  exact ⟨connection, exec_of_guarded hconnection, hreceived, hfailed, hall hreceived⟩

end Connection
end StreamFace
end NfdPitless
