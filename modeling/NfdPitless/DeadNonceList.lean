import NfdPitless.Name

/-! The Dead Nonce List (`daemon/table/dead-nonce-list.cpp`): a queue of hashes of a name and a Nonce,
with marks at fixed intervals, from which the oldest are evicted over capacity. -/

namespace NfdPitless

structure DeadNonceList where
  /-- The oldest entry first. -/
  queue : List UInt64
  capacity : Nat
  actualMarkCounts : List Nat
  /-- How many entries have been evicted; no operation reads it. -/
  nEvicted : Nat
  deriving DecidableEq

namespace DeadNonceList

/-- Six seconds, in nanoseconds. -/
def defaultLifetime : Nat := 6000000000

def initialCapacity : Nat := 2 ^ 7

def minCapacity : Nat := 2 ^ 3

def maxCapacity : Nat := 2 ^ 24

def markEntry : UInt64 := 0

def expectedMarkCount : Nat := 5

def evictLimit : Nat := 2 ^ 6

def new : DeadNonceList :=
  { queue := List.replicate expectedMarkCount markEntry, capacity := initialCapacity
    actualMarkCounts := [], nEvicted := 0 }

variable (makeEntry : Name → UInt32 → UInt64)

def has (l : DeadNonceList) (name : Name) (nonce : UInt32) : Bool := l.queue.contains (makeEntry name nonce)

def evictEntries (l : DeadNonceList) : DeadNonceList :=
  let nEvict := min (l.queue.length - l.capacity) evictLimit
  { l with queue := l.queue.drop nEvict, nEvicted := l.nEvicted + nEvict }

def add (l : DeadNonceList) (name : Name) (nonce : UInt32) : DeadNonceList :=
  evictEntries { l with queue := l.queue ++ [makeEntry name nonce] }

def mark (l : DeadNonceList) : DeadNonceList :=
  let queue := l.queue ++ [markEntry]
  { l with queue, actualMarkCounts := queue.count markEntry :: l.actualMarkCounts }

/-- Scale the capacity by 0.9 if all counts are above the expected one, by 1.2 if all are below. -/
def adjustCapacity (l : DeadNonceList) : DeadNonceList :=
  let capacity :=
    if l.actualMarkCounts.all fun n => expectedMarkCount < n then max minCapacity (l.capacity * 9 / 10)
    else if l.actualMarkCounts.all fun n => n < expectedMarkCount then
      min maxCapacity (l.capacity * 12 / 10)
    else l.capacity
  evictEntries { l with capacity, actualMarkCounts := [] }

/-- Entry number `k`, counted from the first one ever queued, if it has not been evicted. -/
def entryAt (l : DeadNonceList) (k : Nat) : Option UInt64 :=
  if k < l.nEvicted then none else l.queue[k - l.nEvicted]?

/-- The number the next entry gets. -/
def nextIndex (l : DeadNonceList) : Nat := l.nEvicted + l.queue.length

/-- From `l` to `l'` entries have only been queued and evicted. -/
structure Later (l l' : DeadNonceList) : Prop where
  nEvicted_le : l.nEvicted ≤ l'.nEvicted
  entryAt_eq : ∀ {k}, k < l.nextIndex → l'.nEvicted ≤ k → l'.entryAt k = l.entryAt k
  nextIndex_le : l.nextIndex ≤ l'.nextIndex
  evicted_queued : l'.nEvicted ≤ l'.nextIndex

variable {makeEntry} {l l' l'' : DeadNonceList}

theorem Later.refl (l : DeadNonceList) : Later l l := ⟨le_rfl, fun _ _ => rfl, le_rfl, Nat.le_add_right _ _⟩

theorem Later.trans (h : Later l l') (h' : Later l' l'') : Later l l'' where
  nEvicted_le := h.nEvicted_le.trans h'.nEvicted_le
  entryAt_eq hk hev := by
    rw [h'.entryAt_eq (hk.trans_le h.nextIndex_le) hev, h.entryAt_eq hk (h'.nEvicted_le.trans hev)]
  nextIndex_le := h.nextIndex_le.trans h'.nextIndex_le
  evicted_queued := h'.evicted_queued

theorem evictEntries_later (l : DeadNonceList) : Later l l.evictEntries := by
  have hle : min (l.queue.length - l.capacity) evictLimit ≤ l.queue.length := by omega
  refine ⟨Nat.le_add_right _ _, ?_, ?_, Nat.le_add_right _ _⟩
  · intro k _ hev
    have hev' : l.nEvicted + min (l.queue.length - l.capacity) evictLimit ≤ k := hev
    rw [entryAt, entryAt, if_neg (by omega), if_neg (by omega)]
    simp only [evictEntries, List.getElem?_drop]
    congr 1
    omega
  · simp only [nextIndex, evictEntries, List.length_drop]
    omega

theorem queue_append_later (l : DeadNonceList) (x : UInt64) (counts : List Nat) :
    Later l { l with queue := l.queue ++ [x], actualMarkCounts := counts } := by
  refine ⟨le_rfl, ?_, ?_, Nat.le_add_right _ _⟩
  · intro k hk hev
    simp only [nextIndex] at hk
    simp only [entryAt]
    rw [List.getElem?_append_left]
    have : l.nEvicted ≤ k := hev
    omega
  · simp only [nextIndex, List.length_append, List.length_singleton]
    omega

theorem add_later (l : DeadNonceList) (name : Name) (nonce : UInt32) : Later l (l.add makeEntry name nonce) :=
  (queue_append_later l _ l.actualMarkCounts).trans (evictEntries_later _)

theorem mark_later (l : DeadNonceList) : Later l l.mark := queue_append_later l _ _

theorem adjustCapacity_later (l : DeadNonceList) : Later l l.adjustCapacity := by
  have hcap : ∀ capacity, Later l { l with capacity, actualMarkCounts := [] } := fun capacity =>
    ⟨le_rfl, fun _ _ => rfl, le_rfl, Nat.le_add_right _ _⟩
  exact (hcap _).trans (evictEntries_later _)

theorem add_nextIndex (makeEntry : Name → UInt32 → UInt64) (l : DeadNonceList) (name : Name) (nonce : UInt32) :
    (l.add makeEntry name nonce).nextIndex = l.nextIndex + 1 := by
  simp only [add, evictEntries, nextIndex, List.length_drop, List.length_append, List.length_singleton]
  omega

/-- The entry just added is the last one of the queue unless it was evicted at once. -/
theorem add_entryAt (l : DeadNonceList) (name : Name) (nonce : UInt32)
    (hev : (l.add makeEntry name nonce).nEvicted ≤ l.nextIndex) :
    (l.add makeEntry name nonce).entryAt l.nextIndex = some (makeEntry name nonce) := by
  have hlater := evictEntries_later { l with queue := l.queue ++ [makeEntry name nonce] }
  rw [add, hlater.entryAt_eq (by simp [nextIndex]) hev]
  simp [entryAt, nextIndex]

theorem has_of_entryAt {name : Name} {nonce : UInt32} {k : Nat}
    (h : l.entryAt k = some (makeEntry name nonce)) : l.has makeEntry name nonce = true := by
  rw [entryAt] at h
  split at h
  · cases h
  · rw [has, List.contains_iff_mem]
    exact List.mem_of_getElem? h

end DeadNonceList
end NfdPitless
