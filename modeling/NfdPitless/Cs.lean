import NfdPitless.Packet

/-! The content store (`daemon/table/cs.cpp`). The table is a set sorted by full names; a replacement
policy is told of insertions, refreshes and uses and may evict entries. What the pipelines see of a
content store is an interface, because ndnSIM's own store can take the place of the built-in one. -/

namespace NfdPitless

/-- A content store as the pipelines use it, at a given time of the clock. -/
structure ContentStore (κ : Type) where
  insert : κ → Nat → Data → Bool → κ
  find : κ → Nat → Interest → κ × Option Data
  /-- A timer of the store, such as an entry becoming stale. -/
  timer : κ → Nat → Name → κ

/-- Every hit matches the Interest. -/
def ContentStore.Sound {κ : Type} (store : ContentStore κ) (matchesData : MatchesData) : Prop :=
  ∀ cs now interest cs' data, store.find cs now interest = (cs', some data) →
    matchesData interest.name interest.selectors data = true

structure CsEntry where
  data : Data
  isUnsolicited : Bool
  /-- `none` for an entry that never becomes stale. -/
  staleTime : Option Nat
  deriving DecidableEq

namespace CsEntry

def isStale (now : Nat) (e : CsEntry) : Bool := e.staleTime.any fun t => t < now

def updateStaleTime (now : Nat) (e : CsEntry) : CsEntry :=
  { e with
    staleTime :=
      if e.data.freshnessPeriod ≥ 0 then some (now + milliseconds e.data.freshnessPeriod.toNat) else none }

def canSatisfy (matchesData : MatchesData) (now : Nat) (interest : Interest) (e : CsEntry) : Bool :=
  matchesData interest.name interest.selectors e.data && !(interest.selectors.mustBeFresh && e.isStale now)

end CsEntry

/-- A replacement policy with state `π`. An entry is named by its full name; the names returned by
`afterInsert` are evicted. -/
structure CsPolicy (π : Type) where
  afterInsert : π → Nat → List CsEntry → Name → π × List Name
  afterRefresh : π → Nat → List CsEntry → Name → π
  beforeUse : π → Nat → List CsEntry → Name → π
  timer : π → Nat → List CsEntry → Name → π

/-- The policy that evicts nothing. -/
def CsPolicy.keepAll : CsPolicy Unit :=
  { afterInsert := fun _ _ _ _ => ((), []), afterRefresh := fun _ _ _ _ => ()
    beforeUse := fun _ _ _ _ => (), timer := fun _ _ _ _ => () }

structure Cs (π : Type) where
  table : List CsEntry
  policy : π

namespace Cs

variable {π : Type} (digest : Data → List UInt8) (getSuccessor : Name → Name)

def compareDataWithData (lhs rhs : Data) : Ordering :=
  (compare lhs.name rhs.name).then (compare (⟨true, digest lhs⟩ : Component) ⟨true, digest rhs⟩)

/-- A query without digest is less than every Data it is a prefix of. -/
def compareQueryWithData (queryName : Name) (data : Data) : Ordering :=
  match queryName.getLast? with
  | some last =>
      if last.isImplicitSha256Digest then
        (compare queryName.dropLast data.name).then (compare last ⟨true, digest data⟩)
      else (compare queryName data.name).then .lt
  | none => (compare queryName data.name).then .lt

/-- The first position of the sorted table that is not less than a query. -/
def lowerBound (table : List CsEntry) (queryName : Name) : Nat :=
  (table.takeWhile fun e => compareQueryWithData digest queryName e.data == .gt).length

/-- Insert into the sorted table, or give the entry that is already there. -/
def tableInsert (e : CsEntry) : List CsEntry → List CsEntry × CsEntry × Bool
  | [] => ([e], e, true)
  | x :: table =>
      match compareDataWithData digest e.data x.data with
      | .lt => (e :: x :: table, e, true)
      | .eq => (x :: table, x, false)
      | .gt =>
          let rest := tableInsert e table
          (x :: rest.1, rest.2)

/-- Replace the entry of a full name. -/
def tableSet (e : CsEntry) (table : List CsEntry) : List CsEntry :=
  table.map fun x => if x.data.fullName digest = e.data.fullName digest then e else x

def insert (policy : CsPolicy π) (cs : Cs π) (now : Nat) (data : Data) (isUnsolicited : Bool) : Cs π :=
  if data.noCache then cs
  else
    let inserted := tableInsert digest (CsEntry.updateStaleTime now ⟨data, isUnsolicited, none⟩) cs.table
    let entry := inserted.2.1.updateStaleTime now
    let key := entry.data.fullName digest
    if inserted.2.2 then
      let table := tableSet digest entry inserted.1
      let after := policy.afterInsert cs.policy now table key
      { table := table.filter fun e => !after.2.contains (e.data.fullName digest), policy := after.1 }
    else
      -- an unsolicited entry that is inserted again as solicited becomes solicited
      let entry := if entry.isUnsolicited && !isUnsolicited then { entry with isUnsolicited := false } else entry
      let table := tableSet digest entry inserted.1
      { table, policy := policy.afterRefresh cs.policy now table key }

/-- The entries at the positions `first` to `last`, with their positions. -/
def slice (table : List CsEntry) (first last : Nat) : List (Nat × CsEntry) :=
  ((List.range table.length).zip table).filter fun p => first ≤ p.1 && p.1 < last

variable (matchesData : MatchesData)

def findLeftmost (table : List CsEntry) (now : Nat) (interest : Interest) (first last : Nat) :
    Option (Nat × CsEntry) :=
  (slice table first last).find? fun p => p.2.canSatisfy matchesData now interest

def findRightmostAmongExact (table : List CsEntry) (now : Nat) (interest : Interest) (first last : Nat) :
    Option (Nat × CsEntry) :=
  (slice table first last).reverse.find? fun p => p.2.canSatisfy matchesData now interest

/-- The loop of `findRightmost`, by fuel: each round looks under the prefix one component longer than
the Interest's name that the last entry before `right` has. -/
def findRightmost (table : List CsEntry) (now : Nat) (interest : Interest) (first : Nat) :
    Nat → Nat → Option (Nat × CsEntry)
  | 0, _ => none
  | fuel + 1, right =>
      if right = first then none
      else
        match table[right - 1]? with
        | none => none
        | some prev =>
            if prev.data.name.length = interest.name.length then
              findRightmostAmongExact matchesData table now interest first right
            else
              let left := lowerBound digest table (prev.data.name.getPrefix (interest.name.length + 1))
              match findLeftmost matchesData table now interest left right with
              | some found => some found
              | none => findRightmost table now interest first fuel left

/-- The match of an Interest; the policy is told of its use. -/
def find (policy : CsPolicy π) (cs : Cs π) (now : Nat) (interest : Interest) : Cs π × Option Data :=
  let first := lowerBound digest cs.table interest.name
  let last :=
    if interest.name.length > 0 then lowerBound digest cs.table (getSuccessor interest.name) else cs.table.length
  let found :=
    if interest.selectors.childSelector = some 1 then
      findRightmost digest matchesData cs.table now interest first (cs.table.length + 1) last
    else findLeftmost matchesData cs.table now interest first last
  match found with
  | none => (cs, none)
  | some p =>
      ({ cs with policy := policy.beforeUse cs.policy now cs.table (p.2.data.fullName digest) }, some p.2.data)

/-- The built-in content store with a given policy. -/
def contentStore (policy : CsPolicy π) : ContentStore (Cs π) where
  insert := insert digest policy
  find := find digest getSuccessor matchesData policy
  timer := fun cs now key => { cs with policy := policy.timer cs.policy now cs.table key }

variable {digest getSuccessor matchesData}

theorem findLeftmost_satisfies {table : List CsEntry} {now first last : Nat} {interest : Interest}
    {found : Nat × CsEntry} (h : findLeftmost matchesData table now interest first last = some found) :
    found.2.canSatisfy matchesData now interest = true := by
  rw [findLeftmost] at h
  have hsat := List.find?_some h
  exact hsat

theorem findRightmost_satisfies {table : List CsEntry} {now first : Nat} {interest : Interest}
    {found : Nat × CsEntry} (fuel : Nat) :
    ∀ {right}, findRightmost digest matchesData table now interest first fuel right = some found →
      found.2.canSatisfy matchesData now interest = true := by
  induction fuel with
  | zero => exact fun h => by cases h
  | succ fuel ih =>
      intro right h
      rw [findRightmost] at h
      split at h
      · cases h
      · split at h
        · cases h
        · split at h
          · rw [findRightmostAmongExact] at h
            have hsat := List.find?_some h
            exact hsat
          · dsimp only at h
            split at h
            · rename_i hleft
              cases h
              exact findLeftmost_satisfies hleft
            · exact ih h

/-- The built-in content store hits only on Data that match, under every policy. -/
theorem contentStore_sound (policy : CsPolicy π) :
    (contentStore digest getSuccessor matchesData policy).Sound matchesData := by
  intro cs now interest cs' data h
  have hsat : ∀ e : CsEntry, e.canSatisfy matchesData now interest = true →
      matchesData interest.name interest.selectors e.data = true := by
    intro e he
    rw [CsEntry.canSatisfy, Bool.and_eq_true] at he
    exact he.1
  simp only [contentStore, find] at h
  split at h
  · cases h
  · rename_i p hfound
    cases h
    split at hfound
    · exact hsat p.2 (findRightmost_satisfies _ hfound)
    · exact hsat p.2 (findLeftmost_satisfies hfound)

end Cs
end NfdPitless
