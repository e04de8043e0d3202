import NfdPitless.NameTreeAttachment
import NfdPitless.Packet

/-! The Interest table (`daemon/table/pit.cpp`, `pit-entry.cpp`). A PIT entry is a heap object with the
records of its downstreams and upstreams and its two timers; it is attached to the name tree entry of
its Interest's name and points back to it. A scheduled event is the time it is due with what it was
bound to; cancelling it resets the handle. -/

namespace NfdPitless

structure InRecord where
  face : Face
  lastNonce : UInt32
  lastRenewed : Nat
  expiry : Nat
  interest : Interest
  deriving DecidableEq

/-- A record just created or found for `face`, after `update`, which sets every other field. -/
def InRecord.update (now : Nat) (face : Face) (interest : Interest) : InRecord :=
  { face, lastNonce := interest.nonce, lastRenewed := now, expiry := now + interest.lifetime, interest }

structure OutRecord where
  face : Face
  lastNonce : UInt32
  lastRenewed : Nat
  expiry : Nat
  deriving DecidableEq

def OutRecord.update (now : Nat) (face : Face) (interest : Interest) : OutRecord :=
  { face, lastNonce := interest.nonce, lastRenewed := now, expiry := now + interest.lifetime }

/-- A pending call of `onInterestFinalize`. -/
structure StragglerTimer where
  due : Nat
  isSatisfied : Bool
  dataFreshnessPeriod : Int
  deriving DecidableEq

structure PitEntry where
  interest : Interest
  inRecords : List InRecord
  outRecords : List OutRecord
  unsatisfyTimer : Option Nat
  stragglerTimer : Option StragglerTimer
  nameTreeEntry : Option Ref
  deriving DecidableEq

/-- Where a duplicate Nonce is found. -/
structure DuplicateNonceWhere where
  inSame : Bool
  inOther : Bool
  outSame : Bool
  outOther : Bool
  deriving DecidableEq

/-- `DUPLICATE_NONCE_NONE`. -/
def DuplicateNonceWhere.none : DuplicateNonceWhere := ⟨false, false, false, false⟩

namespace PitEntry

def new (interest : Interest) (nameTreeEntry : Ref) : PitEntry :=
  { interest, inRecords := [], outRecords := [], unsatisfyTimer := .none, stragglerTimer := .none
    nameTreeEntry := some nameTreeEntry }

def getName (e : PitEntry) : Name := e.interest.name

def hasLocalInRecord (isLocal : Face → Bool) (e : PitEntry) : Bool :=
  e.inRecords.any fun inRecord => isLocal inRecord.face

/-- Whether forwarding to a face would violate the scope of the name. -/
def violatesScope (isLocal : Face → Bool) (e : PitEntry) (face : Face) : Bool :=
  (!isLocal face && Name.isPrefixOf localhostName e.getName) ||
    (!isLocal face && Name.isPrefixOf localhopName e.getName && !e.hasLocalInRecord isLocal)

def findNonce (e : PitEntry) (nonce : UInt32) (face : Face) : DuplicateNonceWhere :=
  { inSame := e.inRecords.any fun r => r.lastNonce == nonce && r.face == face
    inOther := e.inRecords.any fun r => r.lastNonce == nonce && r.face != face
    outSame := e.outRecords.any fun r => r.lastNonce == nonce && r.face == face
    outOther := e.outRecords.any fun r => r.lastNonce == nonce && r.face != face }

def insertOrUpdateInRecord (e : PitEntry) (now : Nat) (face : Face) (interest : Interest) : PitEntry :=
  let record := InRecord.update now face interest
  { e with inRecords := Lists.replaceOrCons (fun r => r.face == record.face) record e.inRecords }

def deleteInRecords (e : PitEntry) : PitEntry := { e with inRecords := [] }

def insertOrUpdateOutRecord (e : PitEntry) (now : Nat) (face : Face) (interest : Interest) : PitEntry :=
  let record := OutRecord.update now face interest
  { e with outRecords := Lists.replaceOrCons (fun r => r.face == record.face) record e.outRecords }

def getOutRecord (e : PitEntry) (face : Face) : Option OutRecord := e.outRecords.find? fun r => r.face == face

def deleteOutRecord (e : PitEntry) (face : Face) : PitEntry :=
  { e with outRecords := e.outRecords.eraseP fun r => r.face == face }

def hasUnexpiredOutRecords (e : PitEntry) (now : Nat) : Bool :=
  e.outRecords.any fun r => r.expiry ≥ now

end PitEntry

/-- The table, with the name tree it is attached to. -/
structure Pit where
  nameTree : NameTree
  entries : Ref → Option PitEntry
  nextRef : Ref
  nItems : Nat

namespace Pit

/-- The empty table on a new name tree. -/
def new (nBuckets : Nat) : Pit :=
  { nameTree := .new nBuckets, entries := fun _ => none, nextRef := 0, nItems := 0 }

def modifyEntry (p : Pit) (r : Ref) (f : PitEntry → PitEntry) : Pit :=
  { p with entries := Function.update p.entries r ((p.entries r).map f) }

/-- Whether a PIT entry is for exactly the name and the selectors of an Interest. -/
def isFor (p : Pit) (interest : Interest) (r : Ref) : Bool :=
  (p.entries r).any fun e =>
    e.interest.name == interest.name && e.interest.selectors == interest.selectors

section Find

variable (cityHash : Component → UInt64)

/-- The entry of an Interest, created if there is none; the flag says whether it is new. The result is
`none` when the assertion on the name tree entry fails. -/
def insert (p : Pit) (interest : Interest) : Option (Pit × Ref × Bool) :=
  let looked := p.nameTree.lookup cityHash interest.name
  match looked.2 with
  | none => none
  | some nte =>
      match (looked.1.pitEntriesOf nte).find? (p.isFor interest) with
      | some r => some ({ p with nameTree := looked.1 }, r, false)
      | none =>
          some ({ nameTree := looked.1.setPitEntries nte fun entries => entries ++ [p.nextRef]
                  entries := Function.update p.entries p.nextRef (some (PitEntry.new interest nte))
                  nextRef := p.nextRef + 1
                  nItems := p.nItems + 1 }, p.nextRef, true)

/-- The PIT entries attached to the name tree entries that hold any, from the longest prefix match of
`name` up. -/
def entriesAlong (p : Pit) (name : Name) : List Ref :=
  (p.nameTree.findAllMatches cityHash name Entry.hasPitEntries).flatMap p.nameTree.pitEntriesOf

def findAllDataMatches (matchesData : MatchesData) (p : Pit) (data : Data) : List Ref :=
  (p.entriesAlong cityHash data.name).filter fun r =>
    (p.entries r).any fun e => matchesData e.interest.name e.interest.selectors data

def findAllDataMatchesByName (p : Pit) (name : Name) : List Ref :=
  (p.entriesAlong cityHash name).filter fun r => (p.entries r).any fun e => e.interest.name == name

end Find

/-- Erase an entry; `none` when one of the assertions on its name tree entry fails. -/
def erase (p : Pit) (r : Ref) : Option Pit :=
  match (p.entries r).bind PitEntry.nameTreeEntry with
  | none => none
  | some nte =>
      if r ∈ p.nameTree.pitEntriesOf nte then
        let t := p.nameTree.setPitEntries nte fun entries => Lists.swapPop entries r
        some { p with
          nameTree := (t.eraseEntryIfEmpty nte).1
          entries := Function.update p.entries r none
          nItems := p.nItems - 1 }
      else none

end Pit
end NfdPitless
