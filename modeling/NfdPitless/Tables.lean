import NfdPitless.PitMatch
import NfdPitless.NameTreeEnumerate

/-! The four tables that share the name tree: the FIB (`daemon/table/fib.cpp`), the PIT, the Measurements
table (`measurements.cpp`) and the StrategyChoice table (`strategy-choice.cpp`). An entry of a table is a
heap object that points back to the name tree entry it is attached to; the pointer is reset when the entry
is detached, and the object outlives that as long as somebody holds it. What a table's entries carry for
the strategies (`StrategyInfo`) is no part of the tables and is left out, with what `changeStrategy` does to
it. A failed assertion or a null pointer that is followed is `none`. -/

namespace NfdPitless

/-- The tables that attach one entry at most to a name tree entry. -/
inductive Slot where
  | fib
  | measurements
  | strategyChoice
  deriving DecidableEq

namespace Entry

def attached (slot : Slot) (e : Entry) : Option Ref :=
  match slot with
  | .fib => e.fibEntry
  | .measurements => e.measurementsEntry
  | .strategyChoice => e.strategyChoiceEntry

def attach (slot : Slot) (entry : Option Ref) (e : Entry) : Entry :=
  match slot with
  | .fib => { e with fibEntry := entry }
  | .measurements => { e with measurementsEntry := entry }
  | .strategyChoice => { e with strategyChoiceEntry := entry }

end Entry

namespace NameTree

def attachedTo (t : NameTree) (slot : Slot) (nte : Ref) : Option Ref := (t.entries nte).bind (Entry.attached slot)

def setAttached (t : NameTree) (slot : Slot) (nte : Ref) (entry : Option Ref) : NameTree :=
  t.modifyEntry nte (Entry.attach slot entry)

end NameTree

/-- A table entry with its pointer to the name tree. -/
structure TableEntry (α : Type) where
  content : α
  nameTreeEntry : Option Ref
  deriving DecidableEq

/-- The entries of a table and its counter, a `size_t`. -/
structure Table (α : Type) where
  entries : Ref → Option (TableEntry α)
  nextRef : Ref
  nItems : Nat

namespace Table

variable {α : Type}

def empty : Table α := { entries := fun _ => none, nextRef := 0, nItems := 0 }

def modify (T : Table α) (r : Ref) (f : TableEntry α → TableEntry α) : Table α :=
  { T with entries := Function.update T.entries r ((T.entries r).map f) }

def setNameTreeEntry (T : Table α) (r : Ref) (nte : Option Ref) : Table α :=
  T.modify r fun e => { e with nameTreeEntry := nte }

/-- The name tree entry that a table entry points to (`NameTree::get`). -/
def nameTreeEntryOf (T : Table α) (r : Ref) : Option Ref := (T.entries r).bind TableEntry.nameTreeEntry

/-- `setFibEntry`, `setMeasurementsEntry` and `setStrategyChoiceEntry` of a name tree entry: the entry that
was attached is told that it no longer is, the new one that it is. -/
def attach (T : Table α) (slot : Slot) (t : NameTree) (nte : Ref) (entry : Option Ref) : NameTree × Table α :=
  let T := (t.attachedTo slot nte).elim T fun old => T.setNameTreeEntry old none
  let T := entry.elim T fun new => T.setNameTreeEntry new (some nte)
  (t.setAttached slot nte entry, T)

/-- Make an entry, attach it and count it. -/
def attachNew (T : Table α) (slot : Slot) (t : NameTree) (nte : Ref) (content : α) : NameTree × Table α :=
  attach { entries := Function.update T.entries T.nextRef (some ⟨content, none⟩), nextRef := T.nextRef + 1
           nItems := T.nItems + 1 } slot t nte (some T.nextRef)

/-- Decrement a `size_t`, which wraps around at zero. -/
def countDown (nItems : Nat) : Nat := if nItems = 0 then 2 ^ 64 - 1 else nItems - 1

/-- Detach what is attached, erase the name tree entry if it is empty, and count down whether or not
anything was attached. -/
def detach (T : Table α) (slot : Slot) (t : NameTree) (nte : Ref) : NameTree × Table α :=
  let detached := T.attach slot t nte none
  ((detached.1.eraseEntryIfEmpty nte).1, { detached.2 with nItems := countDown detached.2.nItems })

end Table

structure NextHop where
  face : Face
  cost : Nat
  deriving DecidableEq

structure FibContent where
  entryPrefix : Name
  nextHops : List NextHop
  deriving DecidableEq

structure MeasurementsContent where
  name : Name
  expiry : Int
  /-- When the pending cleanup event is due. -/
  cleanup : Option Int

structure StrategyChoiceContent where
  entryPrefix : Name
  /-- A strategy is identified by its name. -/
  strategy : Name

/-- The tables; the PIT carries the name tree they share. -/
structure Tables where
  pit : Pit
  fib : Table FibContent
  measurements : Table MeasurementsContent
  strategyChoice : Table StrategyChoiceContent
  /-- The installed strategies, in the order of their names. -/
  strategyInstances : List Name
  now : Nat

namespace Tables

def nameTree (s : Tables) : NameTree := s.pit.nameTree

def withTree (s : Tables) (t : NameTree) : Tables := { s with pit := { s.pit with nameTree := t } }

def setFib (s : Tables) (p : NameTree × Table FibContent) : Tables := { s.withTree p.1 with fib := p.2 }

def setMeasurements (s : Tables) (p : NameTree × Table MeasurementsContent) : Tables :=
  { s.withTree p.1 with measurements := p.2 }

def setStrategyChoice (s : Tables) (p : NameTree × Table StrategyChoiceContent) : Tables :=
  { s.withTree p.1 with strategyChoice := p.2 }

/-- The name tree entry of a PIT entry (`NameTree::get`). -/
def nameTreeEntryOfPit (s : Tables) (r : Ref) : Option Ref := (s.pit.entries r).bind PitEntry.nameTreeEntry

end Tables

variable (cityHash : Component → UInt64)

namespace Fib

/-- Set the cost of the first next hop of a face, which is added at the end if there is none. -/
def setNextHop (face : Face) (cost : Nat) : List NextHop → List NextHop
  | [] => [⟨face, cost⟩]
  | h :: nextHops => if h.face = face then ⟨face, cost⟩ :: nextHops else h :: setNextHop face cost nextHops

/-- The next hops are sorted by cost after every change; `std::sort` promises no order of equal costs. -/
def addNextHop (s : Tables) (r : Ref) (face : Face) (cost : Nat) : Tables :=
  { s with fib := s.fib.modify r fun e =>
      { e with content := { e.content with
          nextHops := (setNextHop face cost e.content.nextHops).insertionSort fun a b => a.cost ≤ b.cost } } }

def removeNextHop (s : Tables) (face : Face) (r : Ref) : Tables :=
  { s with fib := s.fib.modify r fun e =>
      { e with content := { e.content with nextHops := e.content.nextHops.eraseP fun h => h.face == face } } }

def insert (s : Tables) (entryPrefix : Name) : Option (Tables × Ref × Bool) :=
  let looked := s.nameTree.lookup cityHash entryPrefix
  looked.2.map fun nte =>
    match looked.1.attachedTo .fib nte with
    | some r => (s.withTree looked.1, r, false)
    | none => (s.setFib (s.fib.attachNew .fib looked.1 nte ⟨entryPrefix, []⟩), s.fib.nextRef, true)

/-- The private overload by name tree entry. -/
def eraseAt (s : Tables) (nameTreeEntry : Ref) : Tables := s.setFib (s.fib.detach .fib s.nameTree nameTreeEntry)

def erase (s : Tables) (entryPrefix : Name) : Tables :=
  (s.nameTree.findExactMatch cityHash entryPrefix).elim s (eraseAt s)

/-- The overload by FIB entry. -/
def eraseEntry (s : Tables) (r : Ref) : Tables := (s.fib.nameTreeEntryOf r).elim s (eraseAt s)

/-- The FIB entries that a full enumeration visits. -/
def enumerate (s : Tables) : Option (List Ref) :=
  (s.nameTree.fullEnumerate fun e => e.fibEntry.isSome).map fun visited =>
    visited.filterMap (s.nameTree.attachedTo .fib)

def hasNextHops (s : Tables) (r : Ref) : Bool := (s.fib.entries r).any fun e => !e.content.nextHops.isEmpty

/-- One round of the enumeration in `removeNextHopFromAllEntries`. -/
def removeNextHopRound (face : Face) (acc : Tables × List Ref) (r : Ref) : Tables × List Ref :=
  let s := removeNextHop acc.1 face r
  (s, if hasNextHops s r then acc.2 else acc.2 ++ [r])

/-- The entries that lose their last next hop are erased after the enumeration. -/
def removeNextHopFromAllEntries (s : Tables) (face : Face) : Option Tables :=
  (enumerate s).map fun entries =>
    let removed := entries.foldl (removeNextHopRound face) (s, [])
    removed.2.foldl eraseEntry removed.1

def findExactMatch (s : Tables) (entryPrefix : Name) : Option Ref :=
  (s.nameTree.findExactMatch cityHash entryPrefix).bind (s.nameTree.attachedTo .fib)

/-- `Fib::findLongestPrefixMatch` of a PIT entry, `none` when the assertion fails; the inner `none` is the
empty entry. -/
def findLongestPrefixMatchOfPit (s : Tables) (pitEntry : Ref) : Option (Option Ref) :=
  (s.nameTreeEntryOfPit pitEntry).map s.nameTree.fibMatchFrom

end Fib

namespace Measurements

/-- Four seconds. -/
def initialLifetime : Nat := milliseconds 4000

/-- The private overload by name tree entry. -/
def getAt (s : Tables) (nte : Ref) : Option (Tables × Ref) :=
  (s.nameTree.entries nte).map fun e =>
    match e.measurementsEntry with
    | some r => (s, r)
    | none =>
        let expiry : Int := s.now + initialLifetime
        (s.setMeasurements (s.measurements.attachNew .measurements s.nameTree nte ⟨e.entryPrefix, expiry, some expiry⟩),
          s.measurements.nextRef)

def get (s : Tables) (name : Name) : Option (Tables × Ref) :=
  let looked := s.nameTree.lookup cityHash name
  looked.2.bind (getAt (s.withTree looked.1))

def getOfFib (s : Tables) (fibEntry : Ref) : Option (Tables × Ref) := (s.fib.nameTreeEntryOf fibEntry).bind (getAt s)

def getOfPit (s : Tables) (pitEntry : Ref) : Option (Tables × Ref) := (s.nameTreeEntryOfPit pitEntry).bind (getAt s)

/-- The root entry has no parent. -/
def getParent (s : Tables) (child : Ref) : Option (Tables × Option Ref) :=
  (s.measurements.entries child).bind fun e =>
    if e.content.name.length = 0 then some (s, none)
    else
      (e.nameTreeEntry.bind s.nameTree.parentOf).bind fun nte => (getAt s nte).map fun got => (got.1, some got.2)

/-- An exact match looks the name up, which creates the entry of the name if there is none. -/
def findExactMatch (s : Tables) (name : Name) : Tables × Option Ref :=
  let looked := s.nameTree.lookup cityHash name
  (s.withTree looked.1, looked.2.bind (looked.1.attachedTo .measurements))

def findLongestPrefixMatchOfPit (s : Tables) (pitEntry : Ref) (pred : Ref → Bool) : Option (Option Ref) :=
  (s.nameTreeEntryOfPit pitEntry).map fun nte => s.nameTree.measurementsMatchFrom nte pred

/-- Nothing happens to an entry that is already gone, or has a longer lifetime. -/
def extendLifetime (s : Tables) (r : Ref) (lifetime : Int) : Tables :=
  let isAttached := (s.measurements.nameTreeEntryOf r).any fun nte => s.nameTree.attachedTo .measurements nte == some r
  let expiry : Int := s.now + lifetime
  if isAttached && (s.measurements.entries r).all fun e => e.content.expiry < expiry then
    { s with measurements := s.measurements.modify r fun e =>
        { e with content := { e.content with expiry, cleanup := some expiry } } }
  else s

def cleanup (s : Tables) (r : Ref) : Tables :=
  (s.measurements.nameTreeEntryOf r).elim s fun nte =>
    s.setMeasurements (s.measurements.detach .measurements s.nameTree nte)

end Measurements

namespace StrategyChoice

/-- The strategy of a name: the exact match, else the last of those one component longer. -/
def getStrategy (s : Tables) (strategyName : Name) : Option Name :=
  let candidates := (s.strategyInstances.dropWhile fun n => decide (n < strategyName)).takeWhile
    (Name.isPrefixOf strategyName)
  match candidates.find? fun n => n == strategyName with
  | some strategy => some strategy
  | none => (candidates.filter fun n => n.length == strategyName.length + 1).getLast?

/-- A strategy is not installed twice. -/
def install (s : Tables) (strategyName : Name) : Tables × Bool :=
  if strategyName ∈ s.strategyInstances then (s, false)
  else ({ s with strategyInstances := s.strategyInstances.orderedInsert (· ≤ ·) strategyName }, true)

def strategyOf (s : Tables) (r : Ref) : Option Name := (s.strategyChoice.entries r).map fun e => e.content.strategy

def setStrategy (s : Tables) (r : Ref) (strategy : Name) : Tables :=
  { s with strategyChoice := s.strategyChoice.modify r fun e => { e with content := { e.content with strategy } } }

/-- The flag says whether the strategy is installed. -/
def insert (s : Tables) (entryPrefix strategyName : Name) : Option (Tables × Bool) :=
  match getStrategy s strategyName with
  | none => some (s, false)
  | some strategy =>
      let looked := s.nameTree.lookup cityHash entryPrefix
      looked.2.bind fun nte =>
        match looked.1.attachedTo .strategyChoice nte with
        | some r => some (setStrategy (s.withTree looked.1) r strategy, true)
        | none =>
            -- the strategy that was effective is asked for, and there has to be one
            if (looked.1.findEffectiveStrategy cityHash entryPrefix).isNone then none
            else some (s.setStrategyChoice
              (s.strategyChoice.attachNew .strategyChoice looked.1 nte ⟨entryPrefix, strategy⟩), true)

/-- The entry of the root is never erased. -/
def erase (s : Tables) (entryPrefix : Name) : Option Tables :=
  if entryPrefix.length = 0 then none
  else
    match s.nameTree.findExactMatch cityHash entryPrefix with
    | none => some s
    | some nte =>
        if (s.nameTree.attachedTo .strategyChoice nte).isNone then some s
        else if (s.nameTree.findEffectiveStrategy cityHash (entryPrefix.getPrefix (entryPrefix.length - 1))).isNone then
          none
        else some (s.setStrategyChoice (s.strategyChoice.detach .strategyChoice s.nameTree nte))

def get (s : Tables) (entryPrefix : Name) : Option Name :=
  (s.nameTree.findExactMatch cityHash entryPrefix).bind fun nte =>
    (s.nameTree.attachedTo .strategyChoice nte).bind (strategyOf s)

/-- `StrategyChoice::findEffectiveStrategy` of a PIT entry, `none` when an assertion fails. -/
def findEffectiveStrategyOfPit (s : Tables) (pitEntry : Ref) : Option Name :=
  (s.nameTreeEntryOfPit pitEntry).bind fun nte => (s.nameTree.findEffectiveStrategyFrom nte).bind (strategyOf s)

/-- The constructor attaches the default strategy to the root. -/
def setDefaultStrategy (s : Tables) (strategy : Name) : Tables :=
  let s := (install s strategy).1
  let looked := s.nameTree.lookup cityHash []
  looked.2.elim s fun nte =>
    s.setStrategyChoice (s.strategyChoice.attachNew .strategyChoice looked.1 nte ⟨[], strategy⟩)

end StrategyChoice

/-! ### Runs -/

namespace Tables

/-- The tables before the default strategy is set. -/
def empty (nBuckets : Nat) : Tables :=
  { pit := .new nBuckets, fib := .empty, measurements := .empty, strategyChoice := .empty, strategyInstances := []
    now := 0 }

def new (nBuckets : Nat) (defaultStrategy : Name) : Tables :=
  StrategyChoice.setDefaultStrategy cityHash (empty nBuckets) defaultStrategy

/-- The public operations. The find operations that only read the tables, so that their definitions above
return no tables, are `find`. -/
inductive Op where
  | fibInsert (entryPrefix : Name)
  | fibErase (entryPrefix : Name)
  | fibEraseEntry (r : Ref)
  | fibAddNextHop (r : Ref) (face : Face) (cost : Nat)
  | fibRemoveNextHop (r : Ref) (face : Face)
  | fibRemoveNextHopFromAllEntries (face : Face)
  | pitInsert (interest : Interest)
  | pitErase (r : Ref)
  | measurementsGet (name : Name)
  | measurementsGetOfFib (r : Ref)
  | measurementsGetOfPit (r : Ref)
  | measurementsGetParent (r : Ref)
  | measurementsFindExactMatch (name : Name)
  | measurementsExtendLifetime (r : Ref) (lifetime : Int)
  | measurementsCleanup (r : Ref)
  | strategyInstall (strategyName : Name)
  | strategyInsert (entryPrefix strategyName : Name)
  | strategyErase (entryPrefix : Name)
  | find
  | advanceClock (duration : Nat)

/-- One operation; the cleanup event of a Measurements entry fires once it is due. -/
def step (s : Tables) : Op → Option Tables
  | .fibInsert entryPrefix => (Fib.insert cityHash s entryPrefix).map (·.1)
  | .fibErase entryPrefix => some (Fib.erase cityHash s entryPrefix)
  | .fibEraseEntry r => some (Fib.eraseEntry s r)
  | .fibAddNextHop r face cost => some (Fib.addNextHop s r face cost)
  | .fibRemoveNextHop r face => some (Fib.removeNextHop s face r)
  | .fibRemoveNextHopFromAllEntries face => Fib.removeNextHopFromAllEntries s face
  | .pitInsert interest => (s.pit.insert cityHash interest).map fun inserted => { s with pit := inserted.1 }
  | .pitErase r => (s.pit.erase r).map fun pit => { s with pit }
  | .measurementsGet name => (Measurements.get cityHash s name).map (·.1)
  | .measurementsGetOfFib r => (Measurements.getOfFib s r).map (·.1)
  | .measurementsGetOfPit r => (Measurements.getOfPit s r).map (·.1)
  | .measurementsGetParent r => (Measurements.getParent s r).map (·.1)
  | .measurementsFindExactMatch name => some (Measurements.findExactMatch cityHash s name).1
  | .measurementsExtendLifetime r lifetime => some (Measurements.extendLifetime s r lifetime)
  | .measurementsCleanup r =>
      match (s.measurements.entries r).bind fun e => e.content.cleanup with
      | none => none
      | some due =>
          if due ≤ s.now then
            some { Measurements.cleanup s r with
              measurements := (Measurements.cleanup s r).measurements.modify r fun e =>
                { e with content := { e.content with cleanup := none } } }
          else none
  | .strategyInstall strategyName => some (StrategyChoice.install s strategyName).1
  | .strategyInsert entryPrefix strategyName => (StrategyChoice.insert cityHash s entryPrefix strategyName).map (·.1)
  | .strategyErase entryPrefix => StrategyChoice.erase cityHash s entryPrefix
  | .find => some s
  | .advanceClock duration => some { s with now := s.now + duration }

end Tables
end NfdPitless
