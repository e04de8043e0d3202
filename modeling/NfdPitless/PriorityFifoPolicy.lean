import NfdPitless.CsPolicies

/-! The priority-FIFO policy of the content store (`daemon/table/cs-policy-priority-fifo.cpp`). Each entry is in one
of three queues, and an entry that is fresh has a timer that moves it to the queue of the stale ones. -/

namespace NfdPitless

/-- `QUEUE_UNSOLICITED`, `QUEUE_STALE` and `QUEUE_FIFO`. -/
inductive QueueType where
  | unsolicited
  | stale
  | fifo
  deriving DecidableEq

/-- What the policy knows of an entry: its queue, its node there, and the timer if one was set. -/
structure EntryInfo where
  queueType : QueueType
  queueIt : Nat
  moveStaleEventId : Option Nat
  deriving DecidableEq

/-- A call of `moveToStaleQueue` that the scheduler will make. -/
structure MoveStaleEvent where
  id : Nat
  due : Nat
  entry : Name
  deriving DecidableEq

/-- A node of a queue. -/
structure QueueNode where
  node : Nat
  entry : Name
  deriving DecidableEq

/-- The policy, with the events it has scheduled and the next free node and event. -/
structure PriorityFifoPolicy where
  limit : Nat
  queues : QueueType → List QueueNode
  entryInfoMap : Name → Option EntryInfo
  pending : List MoveStaleEvent
  nextNode : Nat
  nextEvent : Nat

namespace PriorityFifoPolicy

/-- `scheduler::cancel`; the id that stands for no event cancels nothing. -/
def cancel (eventId : Option Nat) (pending : List MoveStaleEvent) : List MoveStaleEvent :=
  pending.filter fun event => some event.id ≠ eventId

/-- The queues with an entry at the end of one, in a new node. -/
def pushQueue (queues : QueueType → List QueueNode) (queueType : QueueType) (node : Nat) (i : Name) :
    QueueType → List QueueNode :=
  Function.update queues queueType (queues queueType ++ [⟨node, i⟩])

/-- The queues without a node of one. -/
def eraseQueue (queues : QueueType → List QueueNode) (queueType : QueueType) (node : Nat) :
    QueueType → List QueueNode :=
  Function.update queues queueType ((queues queueType).filter fun cell => cell.node ≠ node)

/-- The queue of an entry that is attached. -/
def queueTypeOf (now : Nat) (e : CsEntry) : QueueType :=
  if e.isUnsolicited then .unsolicited else if e.isStale now then .stale else .fifo

/-- The event that `attachQueue` schedules. -/
def scheduleMove (now id : Nat) (i : Name) (e : CsEntry) : Option MoveStaleEvent :=
  if queueTypeOf now e = .fifo ∧ e.staleTime.isSome then
    some { id, due := now + milliseconds e.data.freshnessPeriod.toNat, entry := i }
  else none

section Operations

variable (digest : Data → List UInt8)

def attachQueue (p : PriorityFifoPolicy) (now : Nat) (table : List CsEntry) (i : Name) : Option PriorityFifoPolicy :=
  if (p.entryInfoMap i).isNone then
    (table.find? fun e => e.data.fullName digest = i).map fun e =>
      let event := scheduleMove now p.nextEvent i e
      { p with
        queues := pushQueue p.queues (queueTypeOf now e) p.nextNode i
        entryInfoMap := Function.update p.entryInfoMap i
          (some { queueType := queueTypeOf now e, queueIt := p.nextNode, moveStaleEventId := event.map (·.id) })
        pending := p.pending ++ event.toList
        nextNode := p.nextNode + 1
        nextEvent := p.nextEvent + 1 }
  else none

/-- Erasing a node that is not in the queue would be undefined. -/
def detachQueue (p : PriorityFifoPolicy) (i : Name) : Option PriorityFifoPolicy :=
  (p.entryInfoMap i).bind fun entryInfo =>
    if ⟨entryInfo.queueIt, i⟩ ∈ p.queues entryInfo.queueType then
      some { p with
        pending := if entryInfo.queueType = .fifo then cancel entryInfo.moveStaleEventId p.pending else p.pending
        queues := eraseQueue p.queues entryInfo.queueType entryInfo.queueIt
        entryInfoMap := Function.update p.entryInfoMap i none }
    else none

def moveToStaleQueue (p : PriorityFifoPolicy) (i : Name) : Option PriorityFifoPolicy :=
  (p.entryInfoMap i).bind fun entryInfo =>
    if entryInfo.queueType = .fifo ∧ ⟨entryInfo.queueIt, i⟩ ∈ p.queues .fifo then
      some { p with
        queues := pushQueue (eraseQueue p.queues .fifo entryInfo.queueIt) .stale p.nextNode i
        entryInfoMap := Function.update p.entryInfoMap i
          (some { entryInfo with queueType := .stale, queueIt := p.nextNode })
        nextNode := p.nextNode + 1 }
    else none

/-- The entry that is evicted next: unsolicited, then stale, then the oldest. -/
def nextEvicted (p : PriorityFifoPolicy) : Option Name :=
  match p.queues .unsolicited, p.queues .stale, p.queues .fifo with
  | cell :: _, _, _ => some cell.entry
  | [], cell :: _, _ => some cell.entry
  | [], [], cell :: _ => some cell.entry
  | [], [], [] => none

def evictOne (p : PriorityFifoPolicy) : Option (PriorityFifoPolicy × Name) :=
  p.nextEvicted.bind fun i => (p.detachQueue i).map fun p => (p, i)

def evictEntries (p : PriorityFifoPolicy) (table : List CsEntry) : Option (PriorityFifoPolicy × List Name) :=
  evictWhile evictOne p.limit table.length (Cs.keys digest table) p

/-- The scheduler makes a call that is due. -/
def fireEvent (p : PriorityFifoPolicy) (now id : Nat) : Option PriorityFifoPolicy :=
  (p.pending.find? fun event => event.id = id ∧ event.due ≤ now).bind fun event =>
    moveToStaleQueue { p with pending := cancel (some id) p.pending } event.entry

def policy : ReplacementPolicy PriorityFifoPolicy where
  doAfterInsert := fun p now table i => (p.attachQueue digest now table i).bind fun p => p.evictEntries digest table
  doAfterRefresh := fun p now table i => (p.detachQueue i).bind fun p => p.attachQueue digest now table i
  doBeforeUse := fun p _ _ i => if (p.entryInfoMap i).isSome then some p else none
  setLimit := fun p nMaxEntries table =>
    if 0 < nMaxEntries then evictEntries digest { p with limit := nMaxEntries } table else none
  fire := fun p now _ id => p.fireEvent now id

/-- The policy before its limit is set. -/
def constructed : PriorityFifoPolicy :=
  { limit := 0, queues := fun _ => [], entryInfoMap := fun _ => none, pending := [], nextNode := 0, nextEvent := 0 }

end Operations

/-! ### The queues and the timers -/

/-- The nodes of the queues are those that the map names, and no two entries have the same node. -/
structure Cells (queues : QueueType → List QueueNode) (entryInfoMap : Name → Option EntryInfo) (nextNode : Nat) :
    Prop where
  cell : ∀ t n k, ⟨n, k⟩ ∈ queues t ↔ ∃ id, entryInfoMap k = some ⟨t, n, id⟩
  nodup : ∀ t, (queues t).Nodup
  inj : ∀ k k' info info', entryInfoMap k = some info → entryInfoMap k' = some info' →
    info.queueIt = info'.queueIt → k = k'
  fresh : ∀ k info, entryInfoMap k = some info → info.queueIt < nextNode

/-- The events that are scheduled are those of the entries of `QUEUE_FIFO`. -/
structure Timers (entryInfoMap : Name → Option EntryInfo) (pending : List MoveStaleEvent) (nextEvent : Nat) :
    Prop where
  timer : ∀ id k, (∃ due, ⟨id, due, k⟩ ∈ pending) ↔ ∃ n, entryInfoMap k = some ⟨.fifo, n, some id⟩
  ids : (pending.map (·.id)).Nodup
  fresh : ∀ event ∈ pending, event.id < nextEvent

variable {queues : QueueType → List QueueNode} {entryInfoMap : Name → Option EntryInfo} {nextNode nextEvent : Nat}
  {pending : List MoveStaleEvent} {k : Name} {info : EntryInfo}

theorem Cells.unlink (h : Cells queues entryInfoMap nextNode) (hk : entryInfoMap k = some info) :
    Cells (eraseQueue queues info.queueType info.queueIt) (Function.update entryInfoMap k none) nextNode where
  cell := fun t n k' => by
    rw [eraseQueue, Function.update_apply, Function.update_apply]
    by_cases hsame : k' = k
    · -- the only node of the entry is the one that goes
      subst hsame
      refine iff_of_false (fun hmem => ?_) (fun hnone => by rw [if_pos rfl] at hnone; simp at hnone)
      split at hmem
      · obtain ⟨hin, hne⟩ := List.mem_filter.mp hmem
        obtain ⟨_, hinfo⟩ := (h.cell _ _ _).mp hin
        rw [hk, Option.some.injEq] at hinfo
        rw [hinfo] at hne
        exact of_decide_eq_true hne rfl
      · rename_i hqueue
        obtain ⟨_, hinfo⟩ := (h.cell _ _ _).mp hmem
        rw [hk, Option.some.injEq] at hinfo
        exact hqueue (congrArg EntryInfo.queueType hinfo).symm
    · rw [if_neg hsame, ← h.cell t n k']
      split
      · subst t
        rw [List.mem_filter]
        refine and_iff_left_of_imp fun hin => decide_eq_true fun hnode => hsame ?_
        obtain ⟨_, hinfo⟩ := (h.cell _ _ _).mp hin
        exact h.inj k' k _ info hinfo hk hnode
      · rfl
  nodup := fun t => by
    rw [eraseQueue, Function.update_apply]
    split
    · exact (h.nodup _).filter _
    · exact h.nodup t
  inj := fun k₁ k₂ info₁ info₂ h₁ h₂ => by
    rw [Function.update_apply] at h₁ h₂
    split at h₁
    · cases h₁
    · split at h₂
      · cases h₂
      · exact h.inj k₁ k₂ info₁ info₂ h₁ h₂
  fresh := fun k₁ info₁ h₁ => by
    rw [Function.update_apply] at h₁
    split at h₁
    · cases h₁
    · exact h.fresh k₁ info₁ h₁

theorem Cells.link (h : Cells queues entryInfoMap nextNode) (hk : entryInfoMap k = none) (t : QueueType)
    (id : Option Nat) :
    Cells (pushQueue queues t nextNode k) (Function.update entryInfoMap k (some ⟨t, nextNode, id⟩))
      (nextNode + 1) where
  cell := fun t' n k' => by
    rw [pushQueue, Function.update_apply, Function.update_apply]
    by_cases hsame : k' = k
    · subst hsame
      have hnot : ∀ t n, (⟨n, k'⟩ : QueueNode) ∉ queues t := by
        intro t n hin
        obtain ⟨_, hinfo⟩ := (h.cell _ _ _).mp hin
        rw [hk] at hinfo
        cases hinfo
      rw [if_pos rfl]
      split
      · subst t'
        rw [List.mem_append, List.mem_singleton, or_iff_right (hnot t n), QueueNode.mk.injEq]
        exact ⟨fun hn => ⟨id, by rw [hn.1]⟩, fun ⟨_, hinfo⟩ => ⟨by cases hinfo; rfl, rfl⟩⟩
      · exact iff_of_false (hnot t' n) fun ⟨_, hinfo⟩ => ‹¬ _› (by cases hinfo; rfl)
    · rw [if_neg hsame, ← h.cell t' n k']
      split
      · subst t'
        rw [List.mem_append, List.mem_singleton, QueueNode.mk.injEq]
        exact or_iff_left fun heq => hsame heq.2
      · rfl
  nodup := fun t' => by
    rw [pushQueue, Function.update_apply]
    split
    · refine (h.nodup t).append (List.nodup_singleton _) fun cell hin hcell => ?_
      cases List.mem_singleton.mp hcell
      obtain ⟨_, hinfo⟩ := (h.cell _ _ _).mp hin
      rw [hk] at hinfo
      cases hinfo
    · exact h.nodup t'
  inj := fun k₁ k₂ info₁ info₂ h₁ h₂ hnode => by
    rw [Function.update_apply] at h₁ h₂
    split at h₁
    · split at h₂
      · exact ‹k₁ = k›.trans ‹k₂ = k›.symm
      · cases h₁
        exact absurd hnode.symm (h.fresh k₂ info₂ h₂).ne
    · split at h₂
      · cases h₂
        exact absurd hnode (h.fresh k₁ info₁ h₁).ne
      · exact h.inj k₁ k₂ info₁ info₂ h₁ h₂ hnode
  fresh := fun k₁ info₁ h₁ => by
    rw [Function.update_apply] at h₁
    split at h₁
    · cases h₁
      exact Nat.lt_succ_self nextNode
    · exact (h.fresh k₁ info₁ h₁).trans (Nat.lt_succ_self nextNode)

theorem mem_cancel {eventId : Option Nat} {event : MoveStaleEvent} :
    event ∈ cancel eventId pending ↔ event ∈ pending ∧ some event.id ≠ eventId := by
  rw [cancel, List.mem_filter, decide_eq_true_iff]

theorem mem_cancelTimer {event : MoveStaleEvent} :
    event ∈ (if info.queueType = .fifo then cancel info.moveStaleEventId pending else pending) ↔
      event ∈ pending ∧ (info.queueType = .fifo → some event.id ≠ info.moveStaleEventId) := by
  split
  · rw [mem_cancel]
    exact and_congr_right fun _ => ⟨fun hne _ => hne, fun hne => hne ‹_›⟩
  · exact (and_iff_left fun hfifo => absurd hfifo ‹_›).symm

/-- An entry that leaves its queue takes its timer with it. -/
theorem Timers.unlink (h : Timers entryInfoMap pending nextEvent) (hk : entryInfoMap k = some info) :
    Timers (Function.update entryInfoMap k none)
      (if info.queueType = .fifo then cancel info.moveStaleEventId pending else pending) nextEvent where
  timer := fun id k' => by
    simp only [mem_cancelTimer]
    rw [Function.update_apply]
    by_cases hsame : k' = k
    · subst hsame
      refine iff_of_false ?_ (by simp)
      rintro ⟨due, hin, hkept⟩
      obtain ⟨n, hinfo⟩ := (h.timer id k').mp ⟨due, hin⟩
      rw [hk, Option.some.injEq] at hinfo
      rw [hinfo] at hkept
      exact hkept rfl rfl
    · rw [if_neg hsame, ← h.timer id k']
      refine exists_congr fun due => and_iff_left_of_imp fun hin hfifo hid => hsame ?_
      obtain ⟨due', hin'⟩ := (h.timer id k).mpr ⟨info.queueIt, hk.trans (by rw [← hfifo, hid])⟩
      exact congrArg MoveStaleEvent.entry (List.inj_on_of_nodup_map h.ids hin hin' rfl)
  ids := by
    split
    · exact h.ids.sublist (List.filter_sublist.map _)
    · exact h.ids
  fresh := fun event hin => h.fresh event (mem_cancelTimer.mp hin).1

/-- A new entry has a timer when one is scheduled for it. -/
theorem Timers.link (h : Timers entryInfoMap pending nextEvent) (hk : entryInfoMap k = none) (t : QueueType) (n : Nat)
    {event : Option MoveStaleEvent}
    (hevent : ∀ ev ∈ event, t = .fifo ∧ ev.id = nextEvent ∧ ev.entry = k) :
    Timers (Function.update entryInfoMap k (some ⟨t, n, event.map (·.id)⟩)) (pending ++ event.toList)
      (nextEvent + 1) where
  timer := fun id k' => by
    have hpending : ∀ {id due}, (⟨id, due, k⟩ : MoveStaleEvent) ∉ pending := by
      intro id due hin
      obtain ⟨_, hinfo⟩ := (h.timer id k).mp ⟨due, hin⟩
      rw [hk] at hinfo
      cases hinfo
    rw [Function.update_apply]
    simp only [List.mem_append, Option.mem_toList]
    by_cases hsame : k' = k
    · subst hsame
      rw [if_pos rfl]
      constructor
      · rintro ⟨due, hin | hev⟩
        · exact absurd hin hpending
        · obtain ⟨rfl, -, -⟩ := hevent _ hev
          exact ⟨n, by rw [hev, Option.map_some]⟩
      · rintro ⟨_, hinfo⟩
        obtain ⟨ev, hev, hid⟩ := Option.map_eq_some_iff.mp (EntryInfo.mk.inj (Option.some.inj hinfo)).2.2
        obtain ⟨-, -, hentry⟩ := hevent ev hev
        exact ⟨ev.due, Or.inr (by rw [hev, ← hid, ← hentry])⟩
    · rw [if_neg hsame, ← h.timer id k']
      refine exists_congr fun due => or_iff_left fun hev => hsame (hevent _ hev).2.2
  ids := by
    rw [List.map_append]
    refine h.ids.append ?_ ?_
    · cases event with
      | none => exact List.nodup_nil
      | some ev => exact List.nodup_singleton _
    · cases event with
      | none => exact List.disjoint_nil_right _
      | some ev =>
          intro id hin hid
          obtain ⟨event, hmem, rfl⟩ := List.mem_map.mp hin
          obtain ⟨-, hnext, -⟩ := hevent ev rfl
          exact (h.fresh event hmem).ne ((List.mem_singleton.mp hid).trans hnext)
  fresh := fun ev hin => by
    rcases List.mem_append.mp hin with hold | hnew
    · exact (h.fresh ev hold).trans (Nat.lt_succ_self nextEvent)
    · rw [(hevent ev (Option.mem_toList.mp hnew)).2.1]
      exact Nat.lt_succ_self nextEvent

/-- An entry in another queue needs no timer. -/
theorem Timers.relabel (h : Timers entryInfoMap pending nextEvent) (hk : entryInfoMap k = none) {t : QueueType}
    (ht : t ≠ .fifo) (n : Nat) (id : Option Nat) :
    Timers (Function.update entryInfoMap k (some ⟨t, n, id⟩)) pending nextEvent where
  timer := fun id' k' => by
    rw [h.timer id' k', Function.update_apply]
    split
    · rename_i hsame
      rw [hsame, hk]
      refine iff_of_false (fun ⟨_, hinfo⟩ => nomatch hinfo) fun ⟨_, hinfo⟩ => ht ?_
      exact (EntryInfo.mk.inj (Option.some.inj hinfo)).1
    · rfl
  ids := h.ids
  fresh := h.fresh

/-! ### The entries -/

/-- What the policy knows of an entry is right, and its timer is not early. -/
structure Fits (now : Nat) (e : CsEntry) (key : Name) (info : EntryInfo) (pending : List MoveStaleEvent) : Prop where
  unsolicited : info.queueType = .unsolicited ↔ e.isUnsolicited = true
  stale : info.queueType = .stale → ∃ t, e.staleTime = some t ∧ t ≤ now
  timer : info.queueType = .fifo → (info.moveStaleEventId.isSome ↔ e.staleTime.isSome)
  due : ∀ event ∈ pending, event.entry = key → ∃ t, e.staleTime = some t ∧ t ≤ event.due

/-- The policy keeps a record of some entries of a table. -/
structure Tracks (digest : Data → List UInt8) (now : Nat) (table : List CsEntry) (keys : List Name)
    (p : PriorityFifoPolicy) : Prop where
  cells : Cells p.queues p.entryInfoMap p.nextNode
  timers : Timers p.entryInfoMap p.pending p.nextEvent
  nodup : keys.Nodup
  known : ∀ k, (p.entryInfoMap k).isSome ↔ k ∈ keys
  fits : ∀ e ∈ table, ∀ info, p.entryInfoMap (e.data.fullName digest) = some info →
    Fits now e (e.data.fullName digest) info p.pending

variable {digest : Data → List UInt8} {now now' : Nat} {table table' : List CsEntry} {keys : List Name}
  {p : PriorityFifoPolicy} {e : CsEntry}

theorem Fits.mono {key : Name} (h : Fits now e key info pending) (hnow : now ≤ now') : Fits now' e key info pending :=
  { h with stale := fun ht => (h.stale ht).imp fun _ hstale => ⟨hstale.1, hstale.2.trans hnow⟩ }

theorem Tracks.mono (h : Tracks digest now table keys p) (hnow : now ≤ now') : Tracks digest now' table keys p :=
  { h with fits := fun e he info hinfo => (h.fits e he info hinfo).mono hnow }

/-- The entries of which there is no record may change. -/
theorem Tracks.of_table (h : Tracks digest now table keys p) (table' : List CsEntry)
    (htable : ∀ e ∈ table', e.data.fullName digest ∈ keys → e ∈ table) : Tracks digest now table' keys p :=
  { h with
    fits := fun e he info hinfo =>
      h.fits e (htable e he ((h.known _).mp (Option.isSome_iff_exists.mpr ⟨info, hinfo⟩))) info hinfo }

theorem Tracks.perm {keys' : List Name} (h : Tracks digest now table keys p) (hperm : keys'.Perm keys) :
    Tracks digest now table keys' p :=
  { h with nodup := hperm.nodup_iff.mpr h.nodup, known := fun k => (h.known k).trans hperm.mem_iff.symm }

theorem Tracks.detachQueue (h : Tracks digest now table keys p) (hk : k ∈ keys) :
    ∃ p', p.detachQueue k = some p' ∧ Tracks digest now table (keys.erase k) p' ∧ p'.limit = p.limit := by
  obtain ⟨info, hinfo⟩ := Option.isSome_iff_exists.mp ((h.known k).mpr hk)
  have hcell : ⟨info.queueIt, k⟩ ∈ p.queues info.queueType := (h.cells.cell _ _ _).mpr ⟨info.moveStaleEventId, hinfo⟩
  have hdetached : p.detachQueue k = some { p with
      pending := if info.queueType = .fifo then cancel info.moveStaleEventId p.pending else p.pending
      queues := eraseQueue p.queues info.queueType info.queueIt
      entryInfoMap := Function.update p.entryInfoMap k none } := by
    rw [PriorityFifoPolicy.detachQueue, hinfo, Option.bind_some, if_pos hcell]
  refine ⟨_, hdetached, ⟨h.cells.unlink hinfo, h.timers.unlink hinfo, h.nodup.erase k, fun k' => ?_,
    fun e he info' hinfo' => ?_⟩, rfl⟩
  · dsimp only
    rw [Function.update_apply, h.nodup.mem_erase_iff]
    split
    · exact iff_of_false Bool.false_ne_true fun hmem => hmem.1 ‹_›
    · rw [h.known k']
      exact (and_iff_right ‹_›).symm
  · dsimp only at hinfo'
    rw [Function.update_apply] at hinfo'
    split at hinfo'
    · cases hinfo'
    · have hfits := h.fits e he info' hinfo'
      exact { hfits with due := fun event hin => hfits.due event (mem_cancelTimer.mp hin).1 }

/-- The entry of a name. -/
theorem find_entry (hsorted : Cs.Sorted digest table) (he : e ∈ table) :
    (table.find? fun x => x.data.fullName digest = e.data.fullName digest) = some e := by
  cases hfind : table.find? fun x => x.data.fullName digest = e.data.fullName digest with
  | none => exact absurd (decide_eq_true rfl) (List.find?_eq_none.mp hfind e he)
  | some x =>
      have hx := List.find?_some hfind
      rw [hsorted.entry_unique (List.mem_of_find?_eq_some hfind) he (of_decide_eq_true hx)]

/-- The event of a new entry moves it, and not before it is stale. -/
theorem scheduleMove_spec {id updated : Nat} {i : Name} {event : MoveStaleEvent}
    (hstale : e = e.updateStaleTime updated) (hupdated : updated ≤ now) (h : scheduleMove now id i e = some event) :
    queueTypeOf now e = .fifo ∧ event.id = id ∧ event.entry = i ∧ ∃ t, e.staleTime = some t ∧ t ≤ event.due := by
  rw [scheduleMove] at h
  split at h
  · rename_i hfifo
    cases h
    obtain ⟨t, ht⟩ := Option.isSome_iff_exists.mp hfifo.2
    refine ⟨hfifo.1, rfl, rfl, t, ht, ?_⟩
    have htime : e.staleTime = if e.data.freshnessPeriod ≥ 0 then
        some (updated + milliseconds e.data.freshnessPeriod.toNat) else none := congrArg CsEntry.staleTime hstale
    rw [ht] at htime
    split at htime
    · cases htime
      exact Nat.add_le_add_right hupdated _
    · cases htime
  · cases h

theorem fits_new (hstale : ∀ event, scheduleMove now nextEvent k e = some event →
    event.id = nextEvent ∧ event.entry = k ∧ ∃ t, e.staleTime = some t ∧ t ≤ event.due) {n : Nat}
    (hpending : ∀ event ∈ pending, event.entry ≠ k) :
    Fits now e k ⟨queueTypeOf now e, n, (scheduleMove now nextEvent k e).map (·.id)⟩
      (pending ++ (scheduleMove now nextEvent k e).toList) where
  unsolicited := by
    rw [queueTypeOf]
    cases e.isUnsolicited with
    | true => exact iff_of_true rfl rfl
    | false =>
        refine iff_of_false ?_ Bool.false_ne_true
        rw [if_neg Bool.false_ne_true]
        split <;> exact fun h => nomatch h
  stale := by
    dsimp only
    rw [queueTypeOf]
    split
    · exact fun h => nomatch h
    · split
      · rename_i hold
        intro _
        obtain ⟨t, ht, hlt⟩ := (Option.any_eq_true _ _).mp hold
        exact ⟨t, ht, (of_decide_eq_true hlt).le⟩
      · exact fun h => nomatch h
  timer := fun hfifo => by
    have hfifo' : queueTypeOf now e = .fifo := hfifo
    rw [Option.isSome_map, scheduleMove]
    split
    · rename_i hboth
      exact iff_of_true rfl hboth.2
    · rename_i hnot
      exact iff_of_false Bool.false_ne_true fun hsome => hnot ⟨hfifo', hsome⟩
  due := fun event hin hentry => by
    rcases List.mem_append.mp hin with hold | hnew
    · exact absurd hentry (hpending event hold)
    · exact (hstale event (Option.mem_toList.mp hnew)).2.2

/-- A new record is right when the stale time of its entry has just been updated. -/
theorem Tracks.attachQueue (h : Tracks digest now table keys p) (hsorted : Cs.Sorted digest table) (he : e ∈ table)
    (hnot : e.data.fullName digest ∉ keys) {updated : Nat} (hstale : e = e.updateStaleTime updated)
    (hupdated : updated ≤ now) :
    ∃ p', p.attachQueue digest now table (e.data.fullName digest) = some p' ∧
      Tracks digest now table (e.data.fullName digest :: keys) p' ∧ p'.limit = p.limit := by
  have hnone : p.entryInfoMap (e.data.fullName digest) = none :=
    Option.not_isSome_iff_eq_none.mp fun hsome => hnot ((h.known _).mp hsome)
  have hattached : p.attachQueue digest now table (e.data.fullName digest) = some { p with
      queues := pushQueue p.queues (queueTypeOf now e) p.nextNode (e.data.fullName digest)
      entryInfoMap := Function.update p.entryInfoMap (e.data.fullName digest) (some ⟨queueTypeOf now e, p.nextNode,
        (scheduleMove now p.nextEvent (e.data.fullName digest) e).map (·.id)⟩)
      pending := p.pending ++ (scheduleMove now p.nextEvent (e.data.fullName digest) e).toList
      nextNode := p.nextNode + 1
      nextEvent := p.nextEvent + 1 } := by
    rw [PriorityFifoPolicy.attachQueue, hnone, if_pos Option.isNone_none, find_entry hsorted he]
    rfl
  have hevent : ∀ event, scheduleMove now p.nextEvent (e.data.fullName digest) e = some event →
      queueTypeOf now e = .fifo ∧ event.id = p.nextEvent ∧ event.entry = e.data.fullName digest ∧
        ∃ t, e.staleTime = some t ∧ t ≤ event.due := fun _ hev => scheduleMove_spec hstale hupdated hev
  have hpending : ∀ event ∈ p.pending, event.entry ≠ e.data.fullName digest := by
    intro event hin hentry
    obtain ⟨_, hinfo⟩ := (h.timers.timer event.id event.entry).mp ⟨event.due, hin⟩
    rw [hentry, hnone] at hinfo
    cases hinfo
  refine ⟨_, hattached, ⟨h.cells.link hnone _ _, h.timers.link hnone _ _ fun event hev => ?_,
    List.nodup_cons.mpr ⟨hnot, h.nodup⟩, fun k => ?_, fun x hx info hinfo => ?_⟩, rfl⟩
  · obtain ⟨hfifo, hid, hentry, -⟩ := hevent event hev
    exact ⟨hfifo, hid, hentry⟩
  · dsimp only
    rw [Function.update_apply, List.mem_cons]
    split
    · exact iff_of_true rfl (Or.inl ‹_›)
    · rw [h.known k]
      exact (or_iff_right ‹_›).symm
  · dsimp only at hinfo ⊢
    rw [Function.update_apply] at hinfo
    split at hinfo
    · cases hinfo
      rw [hsorted.entry_unique hx he ‹_›]
      exact fits_new (fun event hev => (hevent event hev).2) hpending
    · have hfits := h.fits x hx info hinfo
      refine { hfits with due := fun event hin hentry => ?_ }
      rcases List.mem_append.mp hin with hold | hnew
      · exact hfits.due event hold hentry
      · obtain ⟨-, -, hkey, -⟩ := hevent event (Option.mem_toList.mp hnew)
        exact absurd (hentry.symm.trans hkey) ‹_›

/-- A timer that is due moves its entry to the stale ones. -/
theorem Tracks.fireEvent (h : Tracks digest now table keys p) {event : MoveStaleEvent} (hin : event ∈ p.pending)
    (hdue : event.due ≤ now) :
    ∃ p', p.fireEvent now event.id = some p' ∧ Tracks digest now table keys p' ∧ p'.limit = p.limit := by
  have hfound : (p.pending.find? fun ev => ev.id = event.id ∧ ev.due ≤ now) = some event := by
    cases hfind : p.pending.find? fun ev => ev.id = event.id ∧ ev.due ≤ now with
    | none => exact absurd (decide_eq_true ⟨rfl, hdue⟩) (List.find?_eq_none.mp hfind event hin)
    | some ev =>
        have hev := List.find?_some hfind
        rw [List.inj_on_of_nodup_map h.timers.ids (List.mem_of_find?_eq_some hfind) hin (of_decide_eq_true hev).1]
  obtain ⟨n, hinfo⟩ := (h.timers.timer event.id event.entry).mp ⟨event.due, hin⟩
  have hcell : ⟨n, event.entry⟩ ∈ p.queues .fifo := (h.cells.cell _ _ _).mpr ⟨_, hinfo⟩
  have hmoved : p.fireEvent now event.id = some { p with
      queues := pushQueue (eraseQueue p.queues .fifo n) .stale p.nextNode event.entry
      entryInfoMap := Function.update p.entryInfoMap event.entry (some ⟨.stale, p.nextNode, some event.id⟩)
      pending := cancel (some event.id) p.pending
      nextNode := p.nextNode + 1 } := by
    rw [PriorityFifoPolicy.fireEvent, hfound, Option.bind_some, moveToStaleQueue]
    dsimp only
    rw [hinfo, Option.bind_some, if_pos ⟨rfl, hcell⟩]
  have hnone : Function.update p.entryInfoMap event.entry none event.entry = none := Function.update_self ..
  have hcells := (h.cells.unlink hinfo).link hnone .stale (some event.id)
  have htimers := (h.timers.unlink hinfo).relabel hnone (show QueueType.stale ≠ .fifo by decide) p.nextNode
    (some event.id)
  rw [Function.update_idem] at hcells htimers
  refine ⟨_, hmoved, ⟨hcells, htimers, h.nodup, fun k => ?_, fun e he info hinfo' => ?_⟩, rfl⟩
  · dsimp only
    rw [Function.update_apply]
    split
    · rename_i hsame
      rw [hsame, ← h.known event.entry, hinfo]
      exact iff_of_true rfl rfl
    · exact h.known k
  · dsimp only at hinfo' ⊢
    rw [Function.update_apply] at hinfo'
    split at hinfo'
    · rename_i hkey
      have hfits := h.fits e he ⟨.fifo, n, some event.id⟩ (hkey ▸ hinfo)
      cases hinfo'
      exact {
        unsolicited := iff_of_false (fun h => nomatch h) fun huns => nomatch hfits.unsolicited.mpr huns
        stale := fun _ => (hfits.due event hin hkey.symm).imp fun _ hstale => ⟨hstale.1, hstale.2.trans hdue⟩
        timer := fun h => nomatch h
        due := fun ev hev => hfits.due ev (mem_cancel.mp hev).1 }
    · have hfits := h.fits e he info hinfo'
      exact { hfits with due := fun ev hev => hfits.due ev (mem_cancel.mp hev).1 }

theorem nextEvicted_mem {i : Name} (h : p.nextEvicted = some i) : ∃ t n, ⟨n, i⟩ ∈ p.queues t := by
  unfold nextEvicted at h
  split at h
  · rename_i cell _ hqueue
    cases h
    exact ⟨.unsolicited, cell.node, by rw [hqueue]; exact List.mem_cons_self⟩
  · rename_i cell _ _ hqueue
    cases h
    exact ⟨.stale, cell.node, by rw [hqueue]; exact List.mem_cons_self⟩
  · rename_i cell _ _ _ hqueue
    cases h
    exact ⟨.fifo, cell.node, by rw [hqueue]; exact List.mem_cons_self⟩
  · cases h

theorem nextEvicted_some {t : QueueType} {cell : QueueNode} (h : cell ∈ p.queues t) : p.nextEvicted ≠ none := by
  intro hnone
  unfold nextEvicted at hnone
  split at hnone
  · cases hnone
  · cases hnone
  · cases hnone
  · rename_i hunsolicited hstale hfifo
    have hempty : p.queues t = [] := by
      cases t with
      | unsolicited => exact hunsolicited
      | stale => exact hstale
      | fifo => exact hfifo
    rw [hempty] at h
    cases h

/-- One of the queues is not empty while there are entries, and its first entry is in the table. -/
theorem Tracks.evictOne (h : Tracks digest now table keys p) (hload : p.limit < keys.length) :
    ∃ p' k, p.evictOne = some (p', k) ∧ k ∈ keys ∧ Tracks digest now table (keys.erase k) p' ∧ p'.limit = p.limit := by
  obtain ⟨k₀, hk₀⟩ := List.exists_mem_of_length_pos ((Nat.zero_le _).trans_lt hload)
  obtain ⟨info, hinfo⟩ := Option.isSome_iff_exists.mp ((h.known k₀).mpr hk₀)
  have hcell : ⟨info.queueIt, k₀⟩ ∈ p.queues info.queueType := (h.cells.cell _ _ _).mpr ⟨_, hinfo⟩
  obtain ⟨k, hk⟩ := Option.ne_none_iff_exists'.mp (nextEvicted_some hcell)
  obtain ⟨t, n, hqueued⟩ := nextEvicted_mem hk
  obtain ⟨_, hinfo'⟩ := (h.cells.cell t n k).mp hqueued
  have hmem : k ∈ keys := (h.known k).mp (by rw [hinfo']; rfl)
  obtain ⟨p', hdetach, htracks, hlimit⟩ := h.detachQueue hmem
  refine ⟨p', k, ?_, hmem, htracks, hlimit⟩
  rw [PriorityFifoPolicy.evictOne, hk, Option.bind_some, hdetach]
  rfl

theorem Tracks.evictEntries (h : Tracks digest now table (Cs.keys digest table) p) :
    ∃ p' evicted, p.evictEntries digest table = some (p', evicted) ∧
      Tracks digest now table ((Cs.keys digest table).diff evicted) p' ∧ p'.limit = p.limit ∧
      ((Cs.keys digest table).diff evicted).length ≤ p.limit := by
  have hfuel : (Cs.keys digest table).length ≤ table.length := (List.length_map _).le
  have hone : ∀ (keys : List Name) (p' : PriorityFifoPolicy), Tracks digest now table keys p' ∧ p'.limit = p.limit →
      p.limit < keys.length → ∃ p₁ k, p'.evictOne = some (p₁, k) ∧ k ∈ keys ∧ True ∧
        Tracks digest now table (keys.erase k) p₁ ∧ p₁.limit = p.limit := by
    intro keys p' hI hload
    obtain ⟨p₁, k, hevict, hk, htracks, hlimit⟩ := hI.1.evictOne (hI.2 ▸ hload)
    exact ⟨p₁, k, hevict, hk, trivial, htracks, hlimit.trans hI.2⟩
  obtain ⟨p', evicted, hevict, -, hI, hle⟩ := evictWhile_spec (E := fun _ _ => True) hone table.length hfuel ⟨h, rfl⟩
  exact ⟨p', evicted, hevict, hI.1, hI.2, hle⟩

variable {s s' : CsRun PriorityFifoPolicy}

/-- The invariant of the runs. -/
structure Valid (digest : Data → List UInt8) (s : CsRun PriorityFifoPolicy) : Prop where
  sorted : Cs.Sorted digest s.table
  tracks : Tracks digest s.now s.table (Cs.keys digest s.table) s.policy
  load : s.table.length ≤ s.policy.limit

/-- The limit is not zero, and a timer fires once it is due. -/
def Operation (s : CsRun PriorityFifoPolicy) : CsRun.Event → Prop
  | .setLimit nMaxPackets => 0 < nMaxPackets
  | .fire id => ∃ event ∈ s.policy.pending, event.id = id ∧ event.due ≤ s.now
  | _ => True

/-- What is left after the evictions. -/
theorem Tracks.valid {evicted : List Name} {limit : Nat} (hsorted : Cs.Sorted digest table)
    (h : Tracks digest now table ((Cs.keys digest table).diff evicted) p) (hlimit : p.limit = limit)
    (hle : ((Cs.keys digest table).diff evicted).length ≤ limit) :
    Valid digest { table := Cs.without digest evicted table, policy := p, now } := by
  have hkeys := hsorted.keys_without evicted
  refine ⟨hsorted.without evicted, ?_, ?_⟩
  · dsimp only
    rw [hkeys]
    exact h.of_table _ fun e he _ => (List.mem_filter.mp he).1
  · have hlength := congrArg List.length hkeys
    rw [Cs.keys, List.length_map] at hlength
    exact (hlength.trans_le hle).trans_eq hlimit.symm

/-- An entry that is new in a table is attached. -/
theorem Valid.attach_new (h : Valid digest s) (elapsed : Nat) {key : Name} {entry : CsEntry}
    (hkey : entry.data.fullName digest = key) (hsorted : Cs.Sorted digest table)
    (hmem : ∀ x, x ∈ table ↔ x = entry ∨ x ∈ s.table ∧ x.data.fullName digest ≠ key)
    (hstale : entry = entry.updateStaleTime s.now) (hnot : key ∉ Cs.keys digest s.table)
    (hperm : (Cs.keys digest table).Perm (key :: Cs.keys digest s.table)) :
    ∃ p, s.policy.attachQueue digest (s.now + elapsed) table key = some p ∧
      Tracks digest (s.now + elapsed) table (Cs.keys digest s.table) s.policy ∧
      Tracks digest (s.now + elapsed) table (Cs.keys digest table) p ∧ p.limit = s.policy.limit := by
  subst hkey
  have hlater : s.now ≤ s.now + elapsed := Nat.le_add_right s.now elapsed
  have hold := (h.tracks.mono hlater).of_table table fun x hx hin => by
    rcases (hmem x).mp hx with rfl | hx
    · exact absurd hin hnot
    · exact hx.1
  obtain ⟨p, hattach, htracks, hlimit⟩ := hold.attachQueue hsorted ((hmem entry).mpr (Or.inl rfl)) hnot hstale hlater
  exact ⟨p, hattach, hold, htracks.perm hperm, hlimit⟩

/-- An entry that is refreshed is attached again. -/
theorem Valid.reattach (h : Valid digest s) (elapsed : Nat) {key : Name} {entry : CsEntry}
    (hkey : entry.data.fullName digest = key) (hsorted : Cs.Sorted digest table)
    (hmem : ∀ x, x ∈ table ↔ x = entry ∨ x ∈ s.table ∧ x.data.fullName digest ≠ key)
    (hstale : entry = entry.updateStaleTime s.now) (hin : key ∈ Cs.keys digest s.table)
    (hkeys : Cs.keys digest table = Cs.keys digest s.table) :
    ∃ p₁ p₂, s.policy.detachQueue key = some p₁ ∧ p₁.attachQueue digest (s.now + elapsed) table key = some p₂ ∧
      Tracks digest (s.now + elapsed) table ((Cs.keys digest s.table).erase key) p₁ ∧
      Tracks digest (s.now + elapsed) table (Cs.keys digest table) p₂ ∧ p₂.limit = s.policy.limit := by
  subst hkey
  have hlater : s.now ≤ s.now + elapsed := Nat.le_add_right s.now elapsed
  obtain ⟨p₁, hdetach, hdetached, hlimit₁⟩ := (h.tracks.mono hlater).detachQueue hin
  have hnot : entry.data.fullName digest ∉ (Cs.keys digest s.table).erase (entry.data.fullName digest) :=
    h.sorted.keys_nodup.not_mem_erase
  have hold := hdetached.of_table table fun x hx hx' => by
    rcases (hmem x).mp hx with rfl | hx
    · exact absurd hx' hnot
    · exact hx.1
  obtain ⟨p₂, hattach, htracks, hlimit₂⟩ :=
    hold.attachQueue hsorted ((hmem entry).mpr (Or.inl rfl)) hnot hstale hlater
  refine ⟨p₁, p₂, hdetach, hattach, hold, htracks.perm ?_, hlimit₂.trans hlimit₁⟩
  rw [hkeys]
  exact List.perm_cons_erase hin

theorem Valid.insert_new (h : Valid digest s) (getSuccessor : Name → Name) (matchesData : MatchesData) {data : Data}
    {isUnsolicited : Bool} (elapsed : Nat) {entry : CsEntry} (hkey : entry.data.fullName digest = data.fullName digest)
    (hcache : data.noCache = false)
    (hsorted : Cs.Sorted digest (Cs.stored digest s.table s.now data isUnsolicited).1)
    (hmem : ∀ x, x ∈ (Cs.stored digest s.table s.now data isUnsolicited).1 ↔
      x = entry ∨ x ∈ s.table ∧ x.data.fullName digest ≠ data.fullName digest)
    (hstale : entry = entry.updateStaleTime s.now)
    (hnew : (Cs.stored digest s.table s.now data isUnsolicited).2 = true)
    (hnot : data.fullName digest ∉ Cs.keys digest s.table)
    (hperm : (Cs.keys digest (Cs.stored digest s.table s.now data isUnsolicited).1).Perm
      (data.fullName digest :: Cs.keys digest s.table)) :
    ∃ s', s.step digest getSuccessor matchesData (policy digest) (.insert data isUnsolicited elapsed) = some s' ∧
      Valid digest s' := by
  obtain ⟨p₁, hattach, -, htracks, hlimit₁⟩ := h.attach_new elapsed hkey hsorted hmem hstale hnot hperm
  obtain ⟨p₂, evicted, hevict, htracks₂, hlimit₂, hle⟩ := htracks.evictEntries
  have hafter : (policy digest).doAfterInsert s.policy (s.now + elapsed)
      (Cs.stored digest s.table s.now data isUnsolicited).1 (data.fullName digest) = some (p₂, evicted) := by
    dsimp only [policy]
    rw [hattach, Option.bind_some, hevict]
  exact ⟨_, (CsRun.step_insert_new getSuccessor matchesData hcache hnew hafter).1,
    htracks₂.valid hsorted hlimit₂ hle⟩

theorem Valid.insert_refresh (h : Valid digest s) (getSuccessor : Name → Name) (matchesData : MatchesData)
    {data : Data} {isUnsolicited : Bool} (elapsed : Nat) {entry : CsEntry}
    (hkey : entry.data.fullName digest = data.fullName digest) (hcache : data.noCache = false)
    (hsorted : Cs.Sorted digest (Cs.stored digest s.table s.now data isUnsolicited).1)
    (hmem : ∀ x, x ∈ (Cs.stored digest s.table s.now data isUnsolicited).1 ↔
      x = entry ∨ x ∈ s.table ∧ x.data.fullName digest ≠ data.fullName digest)
    (hstale : entry = entry.updateStaleTime s.now)
    (hnew : (Cs.stored digest s.table s.now data isUnsolicited).2 = false)
    (hin : data.fullName digest ∈ Cs.keys digest s.table)
    (hkeys : Cs.keys digest (Cs.stored digest s.table s.now data isUnsolicited).1 = Cs.keys digest s.table) :
    ∃ s', s.step digest getSuccessor matchesData (policy digest) (.insert data isUnsolicited elapsed) = some s' ∧
      Valid digest s' := by
  obtain ⟨p₁, p₂, hdetach, hattach, -, htracks, hlimit⟩ := h.reattach elapsed hkey hsorted hmem hstale hin hkeys
  have hrefresh : (policy digest).doAfterRefresh s.policy (s.now + elapsed)
      (Cs.stored digest s.table s.now data isUnsolicited).1 (data.fullName digest) = some p₂ := by
    dsimp only [policy]
    rw [hdetach, Option.bind_some, hattach]
  have hstep := CsRun.step_insert_refresh getSuccessor matchesData (policy digest) elapsed hcache hnew
  rw [hrefresh, Option.map_some] at hstep
  refine ⟨_, hstep, hsorted, htracks, ?_⟩
  have hlength := congrArg List.length hkeys
  rw [Cs.keys, Cs.keys, List.length_map, List.length_map] at hlength
  exact (hlength.trans_le h.load).trans_eq hlimit.symm

/-- Every operation has a result. -/
theorem Valid.step (h : Valid digest s) (getSuccessor : Name → Name) (matchesData : MatchesData) {event : CsRun.Event}
    (hop : Operation s event) :
    ∃ s', s.step digest getSuccessor matchesData (policy digest) event = some s' ∧ Valid digest s' := by
  cases event with
  | insert data isUnsolicited elapsed =>
      cases hcache : data.noCache with
      | true =>
          exact ⟨_, CsRun.step_insert_noCache getSuccessor matchesData hcache, h.sorted,
            h.tracks.mono (Nat.le_add_right s.now elapsed), h.load⟩
      | false =>
          obtain ⟨entry, hkey, hsorted, hmem, hstale, hcase⟩ := h.sorted.stored_spec s.now data isUnsolicited
          rcases hcase with ⟨hnew, hnot, hperm⟩ | ⟨hold, hin, hkeys⟩
          · exact h.insert_new getSuccessor matchesData elapsed hkey hcache hsorted hmem hstale hnew hnot hperm
          · exact h.insert_refresh getSuccessor matchesData elapsed hkey hcache hsorted hmem hstale hold hin hkeys
  | find interest =>
      rcases s.step_find digest getSuccessor matchesData (policy digest) interest with
        ⟨hstep, -⟩ | ⟨e, he, hstep, -⟩
      · exact ⟨s, hstep, h⟩
      · have huse : (policy digest).doBeforeUse s.policy s.now s.table (e.data.fullName digest) = some s.policy :=
          if_pos ((h.tracks.known _).mpr (Cs.mem_keys.mpr ⟨e, he, rfl⟩))
        rw [huse, Option.map_some] at hstep
        exact ⟨s, hstep, h⟩
  | setLimit nMaxPackets =>
      have htracks : Tracks digest s.now s.table (Cs.keys digest s.table) { s.policy with limit := nMaxPackets } :=
        { h.tracks with }
      obtain ⟨p', evicted, hevict, htracks', hlimit, hle⟩ := htracks.evictEntries
      have hset : (policy digest).setLimit s.policy nMaxPackets s.table = some (p', evicted) :=
        (if_pos hop).trans hevict
      refine ⟨_, ?_, htracks'.valid h.sorted hlimit hle⟩
      rw [CsRun.step, hset]
      rfl
  | fire id =>
      obtain ⟨ev, hin, rfl, hdue⟩ := hop
      obtain ⟨p', hfire, htracks, hlimit⟩ := h.tracks.fireEvent hin hdue
      refine ⟨{ s with policy := p' }, ?_, h.sorted, htracks, h.load.trans_eq hlimit.symm⟩
      rw [CsRun.step, show (policy digest).fire s.policy s.now s.table ev.id = _ from hfire]
      rfl
  | advanceClock duration =>
      exact ⟨_, rfl, h.sorted, h.tracks.mono (Nat.le_add_right s.now duration), h.load⟩

/-- A step that has a result is an operation. -/
theorem operation_of_step {getSuccessor : Name → Name} {matchesData : MatchesData} {event : CsRun.Event}
    (hstep : s.step digest getSuccessor matchesData (policy digest) event = some s') : Operation s event := by
  cases event with
  | setLimit nMaxPackets =>
      by_contra hzero
      have hnone : (policy digest).setLimit s.policy nMaxPackets s.table = none := if_neg hzero
      rw [CsRun.step, hnone] at hstep
      cases hstep
  | fire id =>
      obtain ⟨p', hfire, -⟩ := Option.map_eq_some_iff.mp hstep
      obtain ⟨ev, hfind, -⟩ := Option.bind_eq_some_iff.mp hfire
      have hev := List.find?_some hfind
      exact ⟨ev, List.mem_of_find?_eq_some hfind, of_decide_eq_true hev⟩
  | insert _ _ _ => trivial
  | find _ => trivial
  | advanceClock _ => trivial

theorem valid_of_reach {getSuccessor : Name → Name} {matchesData : MatchesData} {s₀ : CsRun PriorityFifoPolicy}
    (h : Valid digest s₀) (hr : Reach (CsRun.step digest getSuccessor matchesData (policy digest)) anyStep s₀ s) :
    Valid digest s :=
  hr.invariant_of_spec h fun _ _ _ h _ hstep => h.step getSuccessor matchesData (operation_of_step hstep)

/-- The entries of a queue. -/
def names (p : PriorityFifoPolicy) (t : QueueType) : List Name := (p.queues t).map (·.entry)

/-- The queues, the map, the timers and the table agree. -/
structure Consistent (digest : Data → List UInt8) (s : CsRun PriorityFifoPolicy) : Prop where
  queued : (s.policy.names .unsolicited ++ s.policy.names .stale ++ s.policy.names .fifo).Perm
    (Cs.keys digest s.table)
  distinct : (Cs.keys digest s.table).Nodup
  known : ∀ k, (s.policy.entryInfoMap k).isSome ↔ k ∈ Cs.keys digest s.table
  unsolicited : ∀ e ∈ s.table, e.data.fullName digest ∈ s.policy.names .unsolicited ↔ e.isUnsolicited = true
  stale : ∀ e ∈ s.table, e.data.fullName digest ∈ s.policy.names .stale →
    e.isUnsolicited = false ∧ ∃ t, e.staleTime = some t ∧ t ≤ s.now
  timer : ∀ e ∈ s.table, (∃ event ∈ s.policy.pending, event.entry = e.data.fullName digest) ↔
    e.data.fullName digest ∈ s.policy.names .fifo ∧ e.staleTime.isSome
  owned : ∀ event ∈ s.policy.pending, event.entry ∈ Cs.keys digest s.table
  load : s.table.length ≤ s.policy.limit

theorem Tracks.mem_names (h : Tracks digest now table keys p) {t : QueueType} :
    k ∈ p.names t ↔ ∃ info, p.entryInfoMap k = some info ∧ info.queueType = t := by
  rw [names, List.mem_map]
  constructor
  · rintro ⟨⟨n, i⟩, hcell, rfl⟩
    obtain ⟨_, hinfo⟩ := (h.cells.cell t n i).mp hcell
    exact ⟨_, hinfo, rfl⟩
  · rintro ⟨⟨t', n, id⟩, hinfo, rfl⟩
    exact ⟨⟨n, k⟩, (h.cells.cell t' n k).mpr ⟨id, hinfo⟩, rfl⟩

theorem Tracks.names_nodup (h : Tracks digest now table keys p) (t : QueueType) : (p.names t).Nodup := by
  refine (h.cells.nodup t).map_on fun ⟨n, i⟩ hcell ⟨n', i'⟩ hcell' hsame => ?_
  cases hsame
  obtain ⟨_, hinfo⟩ := (h.cells.cell t n i).mp hcell
  obtain ⟨_, hinfo'⟩ := (h.cells.cell t n' i).mp hcell'
  rw [hinfo] at hinfo'
  cases hinfo'
  rfl

theorem Tracks.names_disjoint (h : Tracks digest now table keys p) {t t' : QueueType} (hne : t ≠ t') :
    (p.names t).Disjoint (p.names t') := by
  intro k hin hin'
  obtain ⟨info, hinfo, rfl⟩ := h.mem_names.mp hin
  obtain ⟨info', hinfo', rfl⟩ := h.mem_names.mp hin'
  rw [hinfo] at hinfo'
  cases hinfo'
  exact hne rfl

/-- Each entry is in one queue. -/
theorem Tracks.queued (h : Tracks digest now table keys p) :
    (p.names .unsolicited ++ p.names .stale ++ p.names .fifo).Perm keys := by
  refine (List.perm_ext_iff_of_nodup ?_ h.nodup).mpr fun k => ?_
  · refine ((h.names_nodup _).append (h.names_nodup _) (h.names_disjoint (by decide))).append (h.names_nodup _) ?_
    exact List.disjoint_append_left.mpr ⟨h.names_disjoint (by decide), h.names_disjoint (by decide)⟩
  · rw [List.mem_append, List.mem_append, h.mem_names, h.mem_names, h.mem_names, ← h.known k]
    constructor
    · rintro ((⟨info, hinfo, -⟩ | ⟨info, hinfo, -⟩) | ⟨info, hinfo, -⟩) <;>
        exact Option.isSome_iff_exists.mpr ⟨info, hinfo⟩
    · intro hsome
      obtain ⟨⟨t, n, id⟩, hinfo⟩ := Option.isSome_iff_exists.mp hsome
      cases t with
      | unsolicited => exact Or.inl (Or.inl ⟨_, hinfo, rfl⟩)
      | stale => exact Or.inl (Or.inr ⟨_, hinfo, rfl⟩)
      | fifo => exact Or.inr ⟨_, hinfo, rfl⟩

theorem Valid.consistent (h : Valid digest s) : Consistent digest s where
  queued := h.tracks.queued
  distinct := h.tracks.nodup
  known := h.tracks.known
  unsolicited := fun e he => by
    obtain ⟨info, hinfo⟩ := Option.isSome_iff_exists.mp ((h.tracks.known _).mpr (Cs.mem_keys.mpr ⟨e, he, rfl⟩))
    rw [h.tracks.mem_names, ← (h.tracks.fits e he info hinfo).unsolicited]
    exact ⟨fun ⟨_, hinfo', ht⟩ => by rw [hinfo] at hinfo'; cases hinfo'; exact ht, fun ht => ⟨info, hinfo, ht⟩⟩
  stale := fun e he hin => by
    obtain ⟨info, hinfo, hstale⟩ := h.tracks.mem_names.mp hin
    have hfits := h.tracks.fits e he info hinfo
    refine ⟨Bool.eq_false_iff.mpr fun huns => ?_, hfits.stale hstale⟩
    rw [hfits.unsolicited.mpr huns] at hstale
    cases hstale
  timer := fun e he => by
    rw [h.tracks.mem_names]
    constructor
    · rintro ⟨⟨id, due, i⟩, hin, rfl⟩
      obtain ⟨n, hinfo⟩ := (h.tracks.timers.timer id _).mp ⟨due, hin⟩
      exact ⟨⟨_, hinfo, rfl⟩, ((h.tracks.fits e he _ hinfo).timer rfl).mp rfl⟩
    · rintro ⟨⟨⟨t, n, id⟩, hinfo, rfl⟩, hstale⟩
      obtain ⟨id, rfl⟩ := Option.isSome_iff_exists.mp (((h.tracks.fits e he _ hinfo).timer rfl).mpr hstale)
      obtain ⟨due, hin⟩ := (h.tracks.timers.timer id _).mpr ⟨n, hinfo⟩
      exact ⟨_, hin, rfl⟩
  owned := fun ⟨id, due, i⟩ hin => by
    obtain ⟨n, hinfo⟩ := (h.tracks.timers.timer id i).mp ⟨due, hin⟩
    exact (h.tracks.known i).mp (Option.isSome_iff_exists.mpr ⟨_, hinfo⟩)
  load := h.load

theorem constructed_tracks (digest : Data → List UInt8) (limit : Nat) :
    Tracks digest 0 [] [] { constructed with limit := limit } where
  cells := {
    cell := fun _ _ _ => iff_of_false List.not_mem_nil fun ⟨_, hinfo⟩ => nomatch hinfo
    nodup := fun _ => List.nodup_nil
    inj := fun _ _ _ _ hinfo => nomatch hinfo
    fresh := fun _ _ hinfo => nomatch hinfo }
  timers := {
    timer := fun _ _ => iff_of_false (fun ⟨_, hin⟩ => nomatch hin) fun ⟨_, hinfo⟩ => nomatch hinfo
    ids := List.nodup_nil
    fresh := fun _ hin => nomatch hin }
  nodup := List.nodup_nil
  known := fun _ => iff_of_false Bool.false_ne_true List.not_mem_nil
  fits := fun _ he => nomatch he

theorem start_valid (digest : Data → List UInt8) (nMaxPackets : Nat) :
    Valid digest { table := [], policy := { constructed with limit := nMaxPackets }, now := 0 } :=
  ⟨List.Pairwise.nil, constructed_tracks digest nMaxPackets, Nat.zero_le _⟩

/-- Under priority-FIFO each entry of the table is in one queue, which is the one of its class, and has a timer exactly
when it is in `QUEUE_FIFO` and can become stale. Every operation has a result, so no assertion fails. -/
theorem queues_consistent (digest : Data → List UInt8) (getSuccessor : Name → Name) (matchesData : MatchesData)
    {nMaxPackets : Nat} (hlimit : 0 < nMaxPackets) :
    ∃ s₀, CsRun.start (policy digest) constructed nMaxPackets = some s₀ ∧
      ∀ s, Reach (CsRun.step digest getSuccessor matchesData (policy digest)) anyStep s₀ s →
        Consistent digest s ∧
        ∀ event, Operation s event → ∃ s', s.step digest getSuccessor matchesData (policy digest) event = some s' := by
  refine ⟨_, congrArg (Option.map _) (if_pos hlimit), fun s hr => ?_⟩
  have h := valid_of_reach (start_valid digest nMaxPackets) hr
  exact ⟨h.consistent, fun event hop => (h.step getSuccessor matchesData hop).imp fun _ hvalid => hvalid.1⟩

/-- A solicited Data becomes stale, and an unsolicited one that is new goes when there is no room for it. -/
theorem queues_consistent_stale :
    ∃ s₀ s, CsRun.start (policy fun _ => [0]) constructed 1 = some s₀ ∧
      exec (CsRun.step (fun _ => [0]) incrementLast (matchesSuffix fun _ => [0]) (policy fun _ => [0])) s₀
        [.insert { plainData [.ofByte 65] with freshnessPeriod := 5 } false 0, .advanceClock (milliseconds 5), .fire 0,
          .insert (plainData [.ofByte 66]) true 0] = some s ∧
      s.policy.names .stale = [(plainData [.ofByte 65]).fullName fun _ => [0]] ∧ s.policy.names .unsolicited = [] ∧
      Consistent (fun _ => [0]) s := by
  obtain ⟨s₀, hstart, hruns⟩ :=
    queues_consistent (fun _ => [0]) incrementLast (matchesSuffix fun _ => [0]) (show 0 < 1 by decide)
  have hs₀ : s₀ = { table := [], policy := { constructed with limit := 1 }, now := 0 } :=
    Option.some.inj hstart.symm
  have hqueues : ((exec (CsRun.step (fun _ => [0]) incrementLast (matchesSuffix fun _ => [0]) (policy fun _ => [0])) s₀
        [.insert { plainData [.ofByte 65] with freshnessPeriod := 5 } false 0, .advanceClock (milliseconds 5), .fire 0,
          .insert (plainData [.ofByte 66]) true 0]).map fun s =>
      (s.policy.names .stale, s.policy.names .unsolicited)) =
      some ([(plainData [.ofByte 65]).fullName fun _ => [0]], []) := by
    rw [hs₀]
    decide +kernel
  obtain ⟨s, hexec, hnames⟩ := Option.map_eq_some_iff.mp hqueues
  obtain ⟨hstale, hunsolicited⟩ := Prod.mk.inj hnames
  exact ⟨s₀, s, hstart, hexec, hstale, hunsolicited, (hruns s (reach_of_exec .start hexec)).1⟩

end PriorityFifoPolicy
end NfdPitless
