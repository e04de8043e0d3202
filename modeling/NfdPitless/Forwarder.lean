import NfdPitless.PitInvariant
import NfdPitless.Cs
import NfdPitless.DeadNonceList

/-! The forwarding pipelines of the base forwarder (`daemon/fw/forwarder.cpp`) as functions on the
tables. A failed assertion is `none`. A strategy may send Interests and reject in each of its triggers
and on timers of its own; what it does is part of the event, so a result about all runs is a result
about all strategies. The log records what passes the faces, and the points in the life of a PIT entry
that statements about runs refer to. -/

namespace NfdPitless

/-- What the forwarder is built on: the hash functions, `Interest::matchesData`, the faces' scope, and
a content store. -/
structure Platform (κ : Type) where
  cityHash : Component → UInt64
  makeEntry : Name → UInt32 → UInt64
  matchesData : MatchesData
  isLocal : Face → Bool
  store : ContentStore κ

/-- The platform with the built-in content store under a replacement policy. -/
def Platform.builtin {π : Type} (cityHash : Component → UInt64) (makeEntry : Name → UInt32 → UInt64)
    (digest : Data → List UInt8) (getSuccessor : Name → Name) (matchesData : MatchesData)
    (isLocal : Face → Bool) (policy : CsPolicy π) : Platform (Cs π) :=
  { cityHash, makeEntry, matchesData, isLocal
    store := Cs.contentStore digest getSuccessor matchesData policy }

/-- A platform for runs on fixed packets: hashes made of octets, every face non-local, every Data with
the digest of one zero octet, and a content store that evicts nothing. -/
def Platform.sample : Platform (Cs Unit) :=
  .builtin NameTree.octetHash (fun n nonce => 1 + 65536 * computeHash NameTree.octetHash n + nonce.toUInt64)
    (fun _ => [0]) incrementLast (matchesSuffix fun _ => [0]) (fun _ => false) .keepAll

inductive LogItem where
  | inInterest (face : Face) (interest : Interest)
  /-- An Interest sent for the PIT entry `r`. -/
  | outInterest (r : Ref) (face : Face) (interest : Interest)
  | inData (face : Face) (data : Data)
  | outData (face : Face) (data : Data)
  /-- The PIT entry `r` was satisfied by a Data of `inFace`. -/
  | satisfied (r : Ref) (inFace : Face)
  /-- Entry number `k` of the Dead Nonce List was queued for a name and a Nonce. -/
  | deadNonce (k : Nat) (name : Name) (nonce : UInt32)
  /-- The PIT entry `r` was finalized and erased. -/
  | finalized (r : Ref) (isSatisfied : Bool)
  deriving DecidableEq

structure ForwarderState (κ : Type) where
  now : Nat
  /-- The id of a face, `none` for `INVALID_FACEID`. -/
  faceId : Face → Option Nat
  pit : Pit
  cs : κ
  deadNonceList : DeadNonceList
  log : List LogItem

/-- What a strategy does with the PIT entry of its trigger; a fresh Nonce is drawn when it wants one. -/
inductive StrategyAction where
  | sendInterest (outFace : Face) (newNonce : Option UInt32)
  | rejectPendingInterest
  deriving DecidableEq

namespace ForwarderState

variable {κ : Type}

def new (nBuckets : Nat) (faceId : Face → Option Nat) (cs : κ) : ForwarderState κ :=
  { now := 0, faceId, pit := .new nBuckets, cs, deadNonceList := .new, log := [] }

def logged (s : ForwarderState κ) (item : LogItem) : ForwarderState κ := { s with log := s.log ++ [item] }

def modifyEntry (s : ForwarderState κ) (r : Ref) (f : PitEntry → PitEntry) : ForwarderState κ :=
  { s with pit := s.pit.modifyEntry r f }

/-- The initial state of the runs on fixed packets: faces are valid, and the content store is empty. -/
def sample : ForwarderState (Cs Unit) := new 16 some ⟨[], ()⟩

end ForwarderState

namespace Forwarder

variable {κ : Type} (P : Platform κ)

def stragglerTime : Nat := milliseconds 100

def cancelUnsatisfyAndStragglerTimer (s : ForwarderState κ) (r : Ref) : ForwarderState κ :=
  s.modifyEntry r fun e => { e with unsatisfyTimer := none, stragglerTimer := none }

/-- The unsatisfy timer is due when the last in-record expires. -/
def setUnsatisfyTimer (s : ForwarderState κ) (r : Ref) : ForwarderState κ :=
  s.modifyEntry r fun e =>
    { e with
      unsatisfyTimer := (Lists.maxElement (fun a b => decide (a.expiry < b.expiry)) e.inRecords).map
        InRecord.expiry }

def setStragglerTimer (s : ForwarderState κ) (r : Ref) (isSatisfied : Bool) (dataFreshnessPeriod : Int) :
    ForwarderState κ :=
  s.modifyEntry r fun e =>
    { e with stragglerTimer := some ⟨s.now + stragglerTime, isSatisfied, dataFreshnessPeriod⟩ }

/-- Whether `b` is preferred over `a` as the Interest to send. -/
def comparePickInterest (outFace : Face) (a b : InRecord) : Bool :=
  if a.face ≠ outFace ∧ b.face = outFace then false
  else if a.face = outFace ∧ b.face ≠ outFace then true
  else decide (a.lastRenewed > b.lastRenewed)

/-- The Interest that would be sent to `outFace`. -/
def pickInterest (e : PitEntry) (outFace : Face) (newNonce : Option UInt32) : Option Interest :=
  (Lists.maxElement (comparePickInterest outFace) e.inRecords).map fun record =>
    match newNonce with
    | none => record.interest
    | some nonce => { record.interest with nonce }

def onOutgoingInterest (s : ForwarderState κ) (r : Ref) (outFace : Face) (newNonce : Option UInt32) :
    Option (ForwarderState κ) :=
  match s.pit.entries r with
  | none => none
  | some e =>
      if (s.faceId outFace).isNone then some s
      else if e.violatesScope P.isLocal outFace then some s
      else
        match pickInterest e outFace newNonce with
        | none => none
        | some interest =>
            some ((s.modifyEntry r fun e => e.insertOrUpdateOutRecord s.now outFace interest).logged
              (.outInterest r outFace interest))

def onOutgoingData (s : ForwarderState κ) (data : Data) (outFace : Face) : ForwarderState κ :=
  if (s.faceId outFace).isNone then s
  else if !P.isLocal outFace && Name.isPrefixOf localhostName data.name then s
  else s.logged (.outData outFace data)

def onInterestReject (s : ForwarderState κ) (r : Ref) : Option (ForwarderState κ) :=
  match s.pit.entries r with
  | none => none
  | some e =>
      if e.hasUnexpiredOutRecords s.now then some s
      else some (setStragglerTimer (cancelUnsatisfyAndStragglerTimer s r) r false (-1))

def act (r : Ref) (s : ForwarderState κ) : StrategyAction → Option (ForwarderState κ)
  | .sendInterest outFace newNonce => onOutgoingInterest P s r outFace newNonce
  | .rejectPendingInterest => onInterestReject s r

/-- A trigger of the effective strategy of a PIT entry. -/
def dispatchToStrategy (s : ForwarderState κ) (r : Ref) (actions : List StrategyAction) :
    Option (ForwarderState κ) :=
  actions.foldlM (act P r) s

/-- Queue one Nonce of a PIT entry. -/
def insertNonceToDnl (name : Name) (s : ForwarderState κ) (outRecord : OutRecord) : ForwarderState κ :=
  { s with
    deadNonceList := s.deadNonceList.add P.makeEntry name outRecord.lastNonce
    log := s.log ++ [.deadNonce s.deadNonceList.nextIndex name outRecord.lastNonce] }

/-- Whether the outgoing Nonces of a PIT entry go to the Dead Nonce List. -/
def needDnl (e : PitEntry) (isSatisfied : Bool) (dataFreshnessPeriod : Int) : Bool :=
  if isSatisfied then
    e.interest.selectors.mustBeFresh &&
      (decide (dataFreshnessPeriod ≥ 0) &&
        decide (milliseconds dataFreshnessPeriod.toNat < DeadNonceList.defaultLifetime))
  else true

/-- The Nonces of all out-records, or only that of one upstream. -/
def insertDeadNonceList (s : ForwarderState κ) (r : Ref) (isSatisfied : Bool) (dataFreshnessPeriod : Int)
    (upstream : Option Face) : ForwarderState κ :=
  match s.pit.entries r with
  | none => s
  | some e =>
      if needDnl e isSatisfied dataFreshnessPeriod then
        match upstream with
        | none => e.outRecords.foldl (insertNonceToDnl P e.getName) s
        | some face => (e.getOutRecord face).elim s (insertNonceToDnl P e.getName s)
      else s

def onInterestFinalize (s : ForwarderState κ) (r : Ref) (isSatisfied : Bool) (dataFreshnessPeriod : Int) :
    Option (ForwarderState κ) :=
  let s := insertDeadNonceList P s r isSatisfied dataFreshnessPeriod none
  let s := cancelUnsatisfyAndStragglerTimer s r
  (s.pit.erase r).map fun pit => { s with pit, log := s.log ++ [.finalized r isSatisfied] }

def onInterestUnsatisfied (s : ForwarderState κ) (r : Ref) (actions : List StrategyAction) :
    Option (ForwarderState κ) :=
  (dispatchToStrategy P s r actions).bind fun s => onInterestFinalize P s r false (-1)

def onContentStoreMiss (s : ForwarderState κ) (inFace : Face) (r : Ref) (interest : Interest)
    (actions : List StrategyAction) : Option (ForwarderState κ) :=
  let s := s.modifyEntry r fun e => e.insertOrUpdateInRecord s.now inFace interest
  dispatchToStrategy P (setUnsatisfyTimer s r) r actions

def onContentStoreHit (s : ForwarderState κ) (inFace : Face) (r : Ref) (data : Data)
    (actions : List StrategyAction) : Option (ForwarderState κ) :=
  (dispatchToStrategy P s r actions).map fun s =>
    onOutgoingData P (setStragglerTimer s r true data.freshnessPeriod) data inFace

/-- Whether a Nonce is in the records of the PIT entry or in the Dead Nonce List. -/
def hasDuplicateNonce (s : ForwarderState κ) (e : PitEntry) (inFace : Face) (interest : Interest) : Bool :=
  (e.findNonce interest.nonce inFace != .none) ||
    s.deadNonceList.has P.makeEntry interest.name interest.nonce

def isViolatingLocalhost (inFace : Face) (name : Name) : Bool :=
  !P.isLocal inFace && Name.isPrefixOf localhostName name

def onIncomingInterest (s : ForwarderState κ) (inFace : Face) (interest : Interest)
    (actions : List StrategyAction) : Option (ForwarderState κ) :=
  let s := s.logged (.inInterest inFace interest)
  if isViolatingLocalhost P inFace interest.name then some s
  else
    (s.pit.insert P.cityHash interest).bind fun inserted =>
      let s := { s with pit := inserted.1 }
      let r := inserted.2.1
      (s.pit.entries r).bind fun e =>
        -- Interest loop: drop
        if hasDuplicateNonce P s e inFace interest then some s
        else
          let s := cancelUnsatisfyAndStragglerTimer s r
          if e.inRecords = [] then
            let found := P.store.find s.cs s.now interest
            let s := { s with cs := found.1 }
            match found.2 with
            | some data => onContentStoreHit P s inFace r data actions
            | none => onContentStoreMiss P s inFace r interest actions
          else onContentStoreMiss P s inFace r interest actions

def onDataUnsolicited (s : ForwarderState κ) (inFace : Face) (data : Data) : ForwarderState κ :=
  if P.isLocal inFace then { s with cs := P.store.insert s.cs s.now data true } else s

/-- The faces of the in-records of a PIT entry that have not expired. -/
def pendingDownstreamsOf (s : ForwarderState κ) (r : Ref) : List Face :=
  (s.pit.entries r).elim [] fun e =>
    (e.inRecords.filter fun record => decide (record.expiry > s.now)).map InRecord.face

/-- Mark a PIT entry satisfied by a Data of `inFace`. -/
def markSatisfied (s : ForwarderState κ) (r : Ref) (inFace : Face) : ForwarderState κ :=
  (s.modifyEntry r fun e => e.deleteInRecords.deleteOutRecord inFace).logged (.satisfied r inFace)

/-- One round of the loop over the PIT matches: satisfy an entry. -/
def satisfyEntry (inFace : Face) (data : Data) (actions : Ref → List StrategyAction)
    (s : ForwarderState κ) (r : Ref) : Option (ForwarderState κ) :=
  (dispatchToStrategy P (cancelUnsatisfyAndStragglerTimer s r) r (actions r)).map fun s =>
    let s := insertDeadNonceList P s r true data.freshnessPeriod (some inFace)
    setStragglerTimer (markSatisfied s r inFace) r true data.freshnessPeriod

/-- The set of pending downstreams is ordered by address. -/
def insertFace (faces : List Face) (face : Face) : List Face :=
  if face ∈ faces then faces else faces.orderedInsert (· ≤ ·) face

/-- Satisfy the PIT matches one by one, collecting the pending downstreams. -/
def satisfyAll (inFace : Face) (data : Data) (actions : Ref → List StrategyAction) :
    ForwarderState κ → List Face → List Ref → Option (ForwarderState κ × List Face)
  | s, downstreams, [] => some (s, downstreams)
  | s, downstreams, r :: matches' =>
      let downstreams := (pendingDownstreamsOf s r).foldl insertFace downstreams
      (satisfyEntry P inFace data actions s r).bind fun s =>
        satisfyAll inFace data actions s downstreams matches'

/-- Send a Data to every pending downstream but the one it came from. -/
def sendToDownstreams (inFace : Face) (data : Data) (downstreams : List Face) (s : ForwarderState κ) :
    ForwarderState κ :=
  (downstreams.filter fun face => face != inFace).foldl (fun s face => onOutgoingData P s data face) s

def onIncomingData (s : ForwarderState κ) (inFace : Face) (data : Data)
    (actions : Ref → List StrategyAction) : Option (ForwarderState κ) :=
  let s := s.logged (.inData inFace data)
  if isViolatingLocalhost P inFace data.name then some s
  else
    let pitMatches := s.pit.findAllDataMatches P.cityHash P.matchesData data
    if pitMatches = [] then some (onDataUnsolicited P s inFace data)
    else
      let s := { s with cs := P.store.insert s.cs s.now data false }
      (satisfyAll P inFace data actions s [] pitMatches).map fun result =>
        sendToDownstreams P inFace data result.2 result.1

inductive Event where
  | incomingInterest (inFace : Face) (interest : Interest) (actions : List StrategyAction)
  | incomingData (inFace : Face) (data : Data) (actions : Ref → List StrategyAction)
  | unsatisfyTimer (r : Ref) (actions : List StrategyAction)
  | stragglerTimer (r : Ref)
  /-- A strategy acts on a PIT entry on a timer of its own. -/
  | strategyTimer (r : Ref) (actions : List StrategyAction)
  | markDeadNonceList
  | adjustDeadNonceListCapacity
  | contentStoreTimer (key : Name)
  | setFaceId (face : Face) (id : Option Nat)
  | advanceClock (duration : Nat)

/-- One step of the forwarder. A timer can fire once it is due. -/
def step (s : ForwarderState κ) : Event → Option (ForwarderState κ)
  | .incomingInterest inFace interest actions => onIncomingInterest P s inFace interest actions
  | .incomingData inFace data actions => onIncomingData P s inFace data actions
  | .unsatisfyTimer r actions =>
      match (s.pit.entries r).bind PitEntry.unsatisfyTimer with
      | none => none
      | some due => if due ≤ s.now then onInterestUnsatisfied P s r actions else none
  | .stragglerTimer r =>
      match (s.pit.entries r).bind PitEntry.stragglerTimer with
      | none => none
      | some timer =>
          if timer.due ≤ s.now then onInterestFinalize P s r timer.isSatisfied timer.dataFreshnessPeriod
          else none
  | .strategyTimer r actions => dispatchToStrategy P s r actions
  | .markDeadNonceList => some { s with deadNonceList := s.deadNonceList.mark }
  | .adjustDeadNonceListCapacity => some { s with deadNonceList := s.deadNonceList.adjustCapacity }
  | .contentStoreTimer key => some { s with cs := P.store.timer s.cs s.now key }
  | .setFaceId face id => some { s with faceId := Function.update s.faceId face id }
  | .advanceClock duration => some { s with now := s.now + duration }

end Forwarder
end NfdPitless
