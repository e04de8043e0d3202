import NfdPitless.Name
import NfdPitless.Lists

/-! The name tree (`daemon/table/name-tree.cpp`): one hash table for all name prefixes that the FIB,
the PIT, the Measurements and the StrategyChoice tables use, with parent and children pointers.

An entry is a heap object; a pointer to it is a `Ref`. The node of an entry is the entry's place in
the chain of its bucket, so a chain is a list of pointers. The hash of a component is a parameter:
CityHash is used as a function of the component's wire encoding and nothing more. -/

namespace NfdPitless

/-- A pointer to a heap object. -/
abbrev Ref := Nat

/-- `name_tree::Entry`. The attached table entries are pointers into the tables that own them. -/
structure Entry where
  hash : UInt64
  entryPrefix : Name
  parent : Option Ref
  children : List Ref
  fibEntry : Option Ref
  pitEntries : List Ref
  measurementsEntry : Option Ref
  strategyChoiceEntry : Option Ref
  deriving DecidableEq

namespace Entry

/-- A new entry, before it is linked to its parent. -/
def new (namePrefix : Name) (hash : UInt64) : Entry :=
  { hash, entryPrefix := namePrefix, parent := none, children := [], fibEntry := none,
    pitEntries := [], measurementsEntry := none, strategyChoiceEntry := none }

def hasPitEntries (e : Entry) : Bool := !e.pitEntries.isEmpty

/-- No children and nothing attached. -/
def isEmpty (e : Entry) : Bool :=
  e.children.isEmpty && e.fibEntry.isNone && e.pitEntries.isEmpty && e.measurementsEntry.isNone &&
    e.strategyChoiceEntry.isNone

end Entry

/-- A predicate to accept or reject an entry in find operations. -/
abbrev EntrySelector := Entry → Bool

section Hash

variable (cityHash : Component → UInt64)

/-- The hash of a name is the exclusive or of the hashes of its components. -/
def computeHash (n : Name) : UInt64 := n.foldl (fun hashValue c => hashValue ^^^ cityHash c) 0

/-- The hashes of all prefixes of a name, from the root prefix on. -/
def computeHashSet (n : Name) : List UInt64 :=
  n.scanl (fun hashValue c => hashValue ^^^ cityHash c) 0

end Hash

structure NameTree where
  entries : Ref → Option Entry
  nextRef : Ref
  buckets : Nat → List Ref
  nItems : Nat
  nBuckets : Nat
  minNBuckets : Nat
  enlargeThreshold : Nat
  shrinkThreshold : Nat

namespace NameTree

/-- The load factors are 0.5 and 0.1, and the products are truncated to integers. -/
def new (nBuckets : Nat) : NameTree :=
  { entries := fun _ => none, nextRef := 0, buckets := fun _ => [], nItems := 0, nBuckets,
    minNBuckets := nBuckets, enlargeThreshold := nBuckets / 2, shrinkThreshold := nBuckets / 10 }

def setEntry (t : NameTree) (r : Ref) (e : Option Entry) : NameTree :=
  { t with entries := Function.update t.entries r e }

/-- Change an entry in place; a dangling pointer changes nothing. -/
def modifyEntry (t : NameTree) (r : Ref) (f : Entry → Entry) : NameTree :=
  match t.entries r with
  | some e => t.setEntry r (some (f e))
  | none => t

/-- The bucket `resize` puts an entry in: its hash is first truncated to 32 bits. -/
def rehashLoc (hash : UInt64) (newNBuckets : Nat) : Nat := hash.toNat % 2 ^ 32 % newNBuckets

/-- Append one node to the chain of its new bucket. -/
def rehashNode (t : NameTree) (newNBuckets : Nat) (newBuckets : Nat → List Ref) (r : Ref) :
    Nat → List Ref :=
  match t.entries r with
  | some e =>
      Function.update newBuckets (rehashLoc e.hash newNBuckets)
        (newBuckets (rehashLoc e.hash newNBuckets) ++ [r])
  | none => newBuckets

/-- Move every node, bucket by bucket and in chain order, to the new table. -/
def resize (t : NameTree) (newNBuckets : Nat) : NameTree :=
  { t with
    buckets := ((List.range t.nBuckets).flatMap t.buckets).foldl (t.rehashNode newNBuckets) fun _ => []
    nBuckets := newNBuckets
    enlargeThreshold := newNBuckets / 2
    shrinkThreshold := newNBuckets / 10 }

section Lookup

variable (cityHash : Component → UInt64)

/-- Find the entry of a name in the chain of its bucket or append a new one. The flag says whether
the entry is new. -/
def insert (t : NameTree) (namePrefix : Name) : NameTree × Ref × Bool :=
  let hashValue := computeHash cityHash namePrefix
  let loc := hashValue.toNat % t.nBuckets
  match (t.buckets loc).find? fun r => (t.entries r).any fun e => namePrefix == e.entryPrefix with
  | some r => (t, r, false)
  | none =>
      ({ t with
          entries := Function.update t.entries t.nextRef (some (Entry.new namePrefix hashValue))
          nextRef := t.nextRef + 1
          buckets := Function.update t.buckets loc (t.buckets loc ++ [t.nextRef]) }, t.nextRef, true)

/-- Count a new entry and link it to its parent. -/
def linkNew (t : NameTree) (parent : Option Ref) (r : Ref) : NameTree :=
  let t := { t.modifyEntry r fun e => { e with parent } with nItems := t.nItems + 1 }
  match parent with
  | some p => t.modifyEntry p fun e => { e with children := e.children ++ [r] }
  | none => t

/-- Double the table when more than half the buckets are loaded. -/
def enlargeIfLoaded (t : NameTree) : NameTree :=
  if t.nItems > t.enlargeThreshold then t.resize (2 * t.nBuckets) else t

/-- One iteration of the loop of `lookup`: the entry of one prefix, below the one before it. -/
def lookupStep (acc : NameTree × Option Ref) (temp : Name) : NameTree × Option Ref :=
  let ret := acc.1.insert cityHash temp
  let t := if ret.2.2 then ret.1.linkNew acc.2 ret.2.1 else ret.1
  (t.enlargeIfLoaded, some ret.2.1)

/-- The entry of a name, created with the entries of all its prefixes where they do not exist. -/
def lookup (t : NameTree) (namePrefix : Name) : NameTree × Option Ref :=
  ((List.range (namePrefix.length + 1)).map namePrefix.getPrefix).foldl (lookupStep cityHash) (t, none)

def findExactMatch (t : NameTree) (namePrefix : Name) : Option Ref :=
  let hashValue := computeHash cityHash namePrefix
  (t.buckets (hashValue.toNat % t.nBuckets)).find? fun r =>
    (t.entries r).any fun e => hashValue == e.hash && namePrefix == e.entryPrefix

/-- One probe of `findLongestPrefixMatch`: the first entry in the bucket of `hashValue` that has this
hash, is a prefix of the name and is selected. -/
def probe (t : NameTree) (namePrefix : Name) (entrySelector : EntrySelector) (hashValue : UInt64) :
    Option Ref :=
  (t.buckets (hashValue.toNat % t.nBuckets)).find? fun r =>
    (t.entries r).any fun e =>
      hashValue == e.hash && Name.isPrefixOf e.entryPrefix namePrefix && entrySelector e

/-- The overload by name probes the hashes of the name's prefixes, the longest first. -/
def findLongestPrefixMatch (t : NameTree) (namePrefix : Name) (entrySelector : EntrySelector) :
    Option Ref :=
  (computeHashSet cityHash namePrefix).reverse.findSome? (t.probe namePrefix entrySelector)

end Lookup

/-- An entry, its parent, and so on up to an entry without parent. -/
def parentChain (t : NameTree) : Nat → Ref → List Ref
  | 0, _ => []
  | fuel + 1, r =>
      match t.entries r with
      | none => []
      | some e =>
          match e.parent with
          | none => [r]
          | some p => r :: t.parentChain fuel p

/-- Each parent's name is one component shorter, so the length of the name bounds the chain. -/
def ancestorsOrSelf (t : NameTree) (r : Ref) : List Ref :=
  t.parentChain (((t.entries r).elim 0 fun e => e.entryPrefix.length) + 1) r

def selects (t : NameTree) (entrySelector : EntrySelector) (r : Ref) : Bool :=
  (t.entries r).any entrySelector

/-- The overload by entry walks the parent pointers. -/
def findLongestPrefixMatchFrom (t : NameTree) (entry : Ref) (entrySelector : EntrySelector) : Option Ref :=
  (t.ancestorsOrSelf entry).find? (t.selects entrySelector)

/-- What an iteration over `findAllMatches` visits: the longest prefix match by name, then, going up
the parents, every entry selected. -/
def findAllMatches (cityHash : Component → UInt64) (t : NameTree) (namePrefix : Name)
    (entrySelector : EntrySelector) : List Ref :=
  match t.findLongestPrefixMatch cityHash namePrefix entrySelector with
  | some r => (t.ancestorsOrSelf r).filter (t.selects entrySelector)
  | none => []

/-- Take an entry out of its bucket's chain and free it. -/
def removeNode (t : NameTree) (r : Ref) (e : Entry) : NameTree :=
  let loc := e.hash.toNat % t.nBuckets
  { t.setEntry r none with
    buckets := Function.update t.buckets loc ((t.buckets loc).erase r)
    nItems := t.nItems - 1 }

/-- Halve the table when less than a tenth of the buckets are loaded, down to the initial size. -/
def shrinkIfSparse (t : NameTree) : NameTree :=
  if t.nBuckets / 2 ≥ t.minNBuckets ∧ t.nItems < t.shrinkThreshold then t.resize (t.nBuckets / 2) else t

/-- The recursion of `eraseEntryIfEmpty` up the parents, by fuel. -/
def eraseUp : Nat → NameTree → Ref → NameTree × Bool
  | 0, t, _ => (t, false)
  | fuel + 1, t, r =>
      match t.entries r with
      | none => (t, false)
      | some e =>
          if e.isEmpty then
            match e.parent with
            | none => ((t.removeNode r e).shrinkIfSparse, true)
            | some p =>
                let t := t.modifyEntry p fun pe => { pe with children := Lists.swapPop pe.children r }
                ((eraseUp fuel (t.removeNode r e) p).1.shrinkIfSparse, true)
          else (t, false)

/-- Delete an entry if nothing is attached to it and it has no children, and then do the same to its
parent. The flag says whether the entry was erased. -/
def eraseEntryIfEmpty (t : NameTree) (r : Ref) : NameTree × Bool :=
  eraseUp (((t.entries r).elim 0 fun e => e.entryPrefix.length) + 1) t r

/-- A component hash for runs on fixed names: the octets themselves. -/
def octetHash (c : Component) : UInt64 := c.value.foldl (fun h b => 256 * h + b.toUInt64) 0

end NameTree
end NfdPitless
