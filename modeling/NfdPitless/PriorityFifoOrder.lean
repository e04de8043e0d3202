import NfdPitless.PriorityFifoPolicy

/-! The order of evictions under priority-FIFO. An entry comes into a class when it is inserted, refreshed or moved to
the stale ones, and each queue has the entries of its class in the order in which they came. -/

namespace NfdPitless

namespace PriorityFifoPolicy

variable {digest : Data → List UInt8} {now : Nat} {table : List CsEntry} {keys : List Name} {k : Name}
  {p p' : PriorityFifoPolicy} {classOf : Name → QueueType} {since : Name → Nat} {count : Nat} {t : QueueType}

theorem names_eraseQueue (queues : QueueType → List QueueNode) (t' : QueueType) (node : Nat) :
    ((eraseQueue queues t' node t).map (·.entry)).Sublist ((queues t).map (·.entry)) := by
  rw [eraseQueue, Function.update_apply]
  split
  · rename_i heq
    rw [heq]
    exact List.filter_sublist.map _
  · exact .refl _

theorem names_pushQueue (queues : QueueType → List QueueNode) (t' : QueueType) (node : Nat) (k : Name) :
    (pushQueue queues t' node k t).map (·.entry) =
      (queues t).map (·.entry) ++ if t = t' then [k] else [] := by
  rw [pushQueue, Function.update_apply]
  split
  · rename_i heq
    rw [heq, List.map_append]
    rfl
  · exact (List.append_nil _).symm

theorem detachQueue_spec (h : p.detachQueue k = some p') :
    p'.entryInfoMap = Function.update p.entryInfoMap k none ∧ ∀ t, (p'.names t).Sublist (p.names t) := by
  obtain ⟨info, -, hrest⟩ := Option.bind_eq_some_iff.mp h
  split at hrest
  · cases hrest
    exact ⟨rfl, fun t => names_eraseQueue p.queues info.queueType info.queueIt⟩
  · cases hrest

theorem attachQueue_spec (h : p.attachQueue digest now table k = some p') : ∃ e info,
    table.find? (fun e => e.data.fullName digest = k) = some e ∧ info.queueType = queueTypeOf now e ∧
      p'.entryInfoMap = Function.update p.entryInfoMap k (some info) ∧
      ∀ t, p'.names t = p.names t ++ if t = queueTypeOf now e then [k] else [] := by
  rw [attachQueue] at h
  split at h
  · obtain ⟨e, he, rfl⟩ := Option.map_eq_some_iff.mp h
    exact ⟨e, _, he, rfl, rfl, fun t => names_pushQueue p.queues _ p.nextNode k⟩
  · cases h

theorem fireEvent_spec {id : Nat} (h : p.fireEvent now id = some p') : ∃ event info,
    (p.pending.find? fun event => event.id = id ∧ event.due ≤ now) = some event ∧ info.queueType = .stale ∧
      p'.entryInfoMap = Function.update p.entryInfoMap event.entry (some info) ∧
      ∀ t, ∃ kept, kept.Sublist (p.names t) ∧ p'.names t = kept ++ if t = .stale then [event.entry] else [] := by
  obtain ⟨event, hevent, hmove⟩ := Option.bind_eq_some_iff.mp h
  obtain ⟨info, -, hrest⟩ := Option.bind_eq_some_iff.mp hmove
  split at hrest
  · cases hrest
    refine ⟨event, _, hevent, rfl, rfl, fun t => ⟨_, names_eraseQueue p.queues .fifo info.queueIt, ?_⟩⟩
    exact names_pushQueue _ .stale p.nextNode event.entry
  · cases hrest

/-- The entry has been in its class for the longest time, and no other entry is in a class that goes before. -/
structure FirstOut (classOf : Name → QueueType) (since : Name → Nat) (keys : List Name) (k : Name) : Prop where
  longest : ∀ k' ∈ keys, classOf k' = classOf k → k' ≠ k → since k < since k'
  stale : classOf k = .stale → ∀ k' ∈ keys, classOf k' ≠ .unsolicited
  fifo : classOf k = .fifo → ∀ k' ∈ keys, classOf k' = .fifo

/-- Each queue has the entries of a class, in the order in which they came into it. -/
structure Ranked (classOf : Name → QueueType) (since : Name → Nat) (count : Nat) (p : PriorityFifoPolicy) : Prop where
  classed : ∀ k info, p.entryInfoMap k = some info → classOf k = info.queueType
  ordered : ∀ t, (p.names t).Pairwise fun k k' => since k < since k'
  bound : ∀ k, since k ≤ count

theorem Ranked.mem_names (h : Ranked classOf since count p) (ht : Tracks digest now table keys p) :
    k ∈ p.names t ↔ k ∈ keys ∧ classOf k = t := by
  rw [ht.mem_names, ← ht.known k]
  constructor
  · rintro ⟨info, hinfo, rfl⟩
    exact ⟨by rw [hinfo]; rfl, h.classed k info hinfo⟩
  · rintro ⟨hsome, rfl⟩
    obtain ⟨info, hinfo⟩ := Option.isSome_iff_exists.mp hsome
    exact ⟨info, hinfo, (h.classed k info hinfo).symm⟩

theorem Ranked.detachQueue (h : Ranked classOf since count p) (hdetach : p.detachQueue k = some p') :
    Ranked classOf since count p' := by
  obtain ⟨hmap, hnames⟩ := detachQueue_spec hdetach
  refine ⟨fun k' info hinfo => ?_, fun t => (h.ordered t).sublist (hnames t), h.bound⟩
  rw [hmap, Function.update_apply] at hinfo
  split at hinfo
  · cases hinfo
  · exact h.classed k' info hinfo

/-- An entry comes into a class last. -/
theorem Ranked.enter (h : Ranked classOf since count p) {info : EntryInfo}
    (hmap : p'.entryInfoMap = Function.update p.entryInfoMap k (some info))
    (hnames : ∀ t, ∃ kept, kept.Sublist (p.names t) ∧ k ∉ kept ∧
      p'.names t = kept ++ if t = info.queueType then [k] else []) :
    Ranked (Function.update classOf k info.queueType) (Function.update since k (count + 1)) (count + 1) p' where
  classed := fun k' info' hinfo => by
    rw [hmap, Function.update_apply] at hinfo
    rw [Function.update_apply]
    split at hinfo
    · rename_i heq
      cases hinfo
      rw [if_pos heq]
    · rename_i hne
      rw [if_neg hne]
      exact h.classed k' info' hinfo
  ordered := fun t => by
    obtain ⟨kept, hkept, hnot, heq⟩ := hnames t
    have hne : ∀ a ∈ kept, a ≠ k := fun a ha hak => hnot (hak ▸ ha)
    rw [heq]
    refine List.pairwise_append.mpr ⟨?_, ?_, fun a ha b hb => ?_⟩
    · refine ((h.ordered t).sublist hkept).imp_of_mem fun ha hb hlt => ?_
      rwa [Function.update_of_ne (hne _ ha), Function.update_of_ne (hne _ hb)]
    · split
      · exact List.pairwise_singleton _ _
      · exact List.Pairwise.nil
    · split at hb
      · cases List.mem_singleton.mp hb
        rw [Function.update_of_ne (hne a ha), Function.update_self]
        exact Nat.lt_succ_of_le (h.bound a)
      · cases hb
  bound := fun k' => by
    rw [Function.update_apply]
    split
    · exact le_rfl
    · exact (h.bound k').trans (Nat.le_succ count)

/-- The first of its queue has been in its class for the longest time. -/
theorem Ranked.longest (h : Ranked classOf since count p) (ht : Tracks digest now table keys p) {node : QueueNode}
    {later : List QueueNode} (hqueue : p.queues t = node :: later) {k' : Name} (hk' : k' ∈ keys)
    (hclass : classOf k' = classOf node.entry) (hne : k' ≠ node.entry) : since node.entry < since k' := by
  have hnames : p.names t = node.entry :: later.map (·.entry) := by rw [names, hqueue, List.map_cons]
  have hfirst : node.entry ∈ p.names t := by rw [hnames]; exact List.mem_cons_self
  have hin : k' ∈ p.names t := (h.mem_names ht).mpr ⟨hk', hclass.trans ((h.mem_names ht).mp hfirst).2⟩
  have hordered := h.ordered t
  rw [hnames] at hin hordered
  exact (List.pairwise_cons.mp hordered).1 k' ((List.mem_cons.mp hin).resolve_left hne)

theorem Ranked.not_class (h : Ranked classOf since count p) (ht : Tracks digest now table keys p)
    (hqueue : p.queues t = []) {k' : Name} (hk' : k' ∈ keys) : classOf k' ≠ t := fun hclass => by
  have hin : k' ∈ p.names t := (h.mem_names ht).mpr ⟨hk', hclass⟩
  rw [names, hqueue] at hin
  cases hin

theorem Ranked.head_class (h : Ranked classOf since count p) (ht : Tracks digest now table keys p) {node : QueueNode}
    {later : List QueueNode} (hqueue : p.queues t = node :: later) : classOf node.entry = t := by
  refine ((h.mem_names ht).mp ?_).2
  rw [names, hqueue]
  exact List.mem_cons_self

/-- The queues are asked in the order of the classes. -/
theorem Ranked.nextEvicted (h : Ranked classOf since count p) (ht : Tracks digest now table keys p)
    (hnext : p.nextEvicted = some k) : FirstOut classOf since keys k := by
  unfold PriorityFifoPolicy.nextEvicted at hnext
  split at hnext
  · rename_i node _ hunsolicited
    cases hnext
    have hclass := h.head_class ht hunsolicited
    refine ⟨fun k' hk' => h.longest ht hunsolicited hk', fun hstale => ?_, fun hfifo => ?_⟩
    · cases hclass.symm.trans hstale
    · cases hclass.symm.trans hfifo
  · rename_i node _ hunsolicited hstale
    cases hnext
    have hclass := h.head_class ht hstale
    refine ⟨fun k' hk' => h.longest ht hstale hk', fun _ k' hk' => h.not_class ht hunsolicited hk', fun hfifo => ?_⟩
    cases hclass.symm.trans hfifo
  · rename_i node _ hunsolicited hstale hfifo
    cases hnext
    have hclass := h.head_class ht hfifo
    refine ⟨fun k' hk' => h.longest ht hfifo hk', fun heq => (by cases hclass.symm.trans heq), fun _ k' hk' => ?_⟩
    cases hk : classOf k' with
    | unsolicited => exact absurd hk (h.not_class ht hunsolicited hk')
    | stale => exact absurd hk (h.not_class ht hstale hk')
    | fifo => rfl
  · cases hnext

theorem Ranked.evictEntries (h : Ranked classOf since count p) (ht : Tracks digest now table (Cs.keys digest table) p) :
    ∃ p' evicted, p.evictEntries digest table = some (p', evicted) ∧
      EachEvicted (FirstOut classOf since) (Cs.keys digest table) evicted ∧ Ranked classOf since count p' ∧
      p'.limit = p.limit ∧ ((Cs.keys digest table).diff evicted).length =
      min (Cs.keys digest table).length p.limit := by
  have hfuel : (Cs.keys digest table).length ≤ table.length := (List.length_map _).le
  have hone : ∀ (keys : List Name) (p' : PriorityFifoPolicy),
      Tracks digest now table keys p' ∧ Ranked classOf since count p' ∧ p'.limit = p.limit →
      p.limit < keys.length → ∃ p₁ k, p'.evictOne = some (p₁, k) ∧ k ∈ keys ∧ FirstOut classOf since keys k ∧
        Tracks digest now table (keys.erase k) p₁ ∧ Ranked classOf since count p₁ ∧ p₁.limit = p.limit := by
    rintro keys p' ⟨htracks, hranked, hlimit⟩ hload
    obtain ⟨p₁, k, hevict, hk, htracks₁, hlimit₁⟩ := htracks.evictOne (hlimit ▸ hload)
    obtain ⟨k₁, hnext, hdetached⟩ := Option.bind_eq_some_iff.mp hevict
    obtain ⟨p₂, hdetach, heq⟩ := Option.map_eq_some_iff.mp hdetached
    cases heq
    exact ⟨p₁, k, hevict, hk, hranked.nextEvicted htracks hnext, htracks₁, hranked.detachQueue hdetach,
      hlimit₁.trans hlimit⟩
  obtain ⟨p', evicted, hevict, heach, ⟨-, hranked, hlimit⟩, -⟩ := evictWhile_spec hone table.length hfuel ⟨ht, h, rfl⟩
  refine ⟨p', evicted, hevict, heach, hranked, hlimit, ?_⟩
  rw [heach.length_diff, evictWhile_length table.length hevict]
  omega

theorem Ranked.attachQueue (h : Ranked classOf since count p) (ht : Tracks digest now table keys p) (hnot : k ∉ keys)
    (hattach : p.attachQueue digest now table k = some p') :
    ∃ e, table.find? (fun e => e.data.fullName digest = k) = some e ∧
      Ranked (Function.update classOf k (queueTypeOf now e)) (Function.update since k (count + 1)) (count + 1) p' := by
  obtain ⟨e, info, hfind, htype, hmap, hnames⟩ := attachQueue_spec hattach
  refine ⟨e, hfind, ?_⟩
  rw [← htype]
  refine h.enter hmap fun t => ⟨p.names t, .refl _, fun hin => hnot ((h.mem_names ht).mp hin).1, ?_⟩
  rw [hnames t, htype]

theorem Ranked.fireEvent (h : Ranked classOf since count p) {id : Nat} (hfire : p.fireEvent now id = some p')
    (ht' : Tracks digest now table keys p') :
    ∃ event, (p.pending.find? fun event => event.id = id ∧ event.due ≤ now) = some event ∧
      Ranked (Function.update classOf event.entry .stale) (Function.update since event.entry (count + 1))
        (count + 1) p' := by
  obtain ⟨event, info, hfind, htype, hmap, hnames⟩ := fireEvent_spec hfire
  refine ⟨event, hfind, ?_⟩
  rw [← htype]
  refine h.enter hmap fun t => ?_
  obtain ⟨kept, hkept, heq⟩ := hnames t
  refine ⟨kept, hkept, fun hin => ?_, by rw [heq, htype]⟩
  by_cases hstale : t = .stale
  · -- the entry is once in the queue
    have hnodup := ht'.names_nodup t
    rw [heq, if_pos hstale] at hnodup
    exact List.disjoint_of_nodup_append hnodup hin List.mem_cons_self
  · obtain ⟨info', hinfo', ht⟩ := (ht'.mem_names (k := event.entry) (t := t)).mp
      (by rw [heq]; exact List.mem_append_left _ hin)
    rw [hmap, Function.update_self] at hinfo'
    cases hinfo'
    exact hstale (ht.symm.trans htype)

/-! ### The times in the classes -/

/-- A run with the class of each entry and the time since when it is in it, in entries into classes. -/
structure History where
  run : CsRun PriorityFifoPolicy
  count : Nat
  classOf : Name → QueueType
  since : Name → Nat

namespace History

section Definitions

variable (digest : Data → List UInt8) (getSuccessor : Name → Name) (matchesData : MatchesData)

/-- The entry that comes into a class: one that is inserted or refreshed into the class it has then, one whose timer
fires into that of the stale ones. -/
def entersBy (s : CsRun PriorityFifoPolicy) : CsRun.Event → Option (Name × QueueType)
  | .insert data isUnsolicited elapsed =>
      if data.noCache then none
      else ((Cs.stored digest s.table s.now data isUnsolicited).1.find? fun e =>
        e.data.fullName digest = data.fullName digest).map fun e =>
          (data.fullName digest, queueTypeOf (s.now + elapsed) e)
  | .fire id => (s.policy.pending.find? fun event => event.id = id ∧ event.due ≤ s.now).map fun event =>
      (event.entry, .stale)
  | _ => none

def enter (h : History) : Option (Name × QueueType) → History
  | some (k, queueType) =>
      { h with
        count := h.count + 1
        classOf := Function.update h.classOf k queueType
        since := Function.update h.since k (h.count + 1) }
  | none => h

def step (h : History) (event : CsRun.Event) : Option History :=
  (h.run.step digest getSuccessor matchesData (policy digest) event).map fun run =>
    { h.enter (entersBy digest h.run event) with run }

def start (run : CsRun PriorityFifoPolicy) : History :=
  { run, count := 0, classOf := fun _ => .fifo, since := fun _ => 0 }

/-- The invariant of the runs. -/
structure Valid (h : History) : Prop where
  valid : PriorityFifoPolicy.Valid digest h.run
  ranked : Ranked h.classOf h.since h.count h.run.policy

/-- The classes are those of the entries: the unsolicited ones, and among the others those that were stale when they
came into their class or whose timer has fired. -/
def Classed (h : History) : Prop :=
  ∀ e ∈ h.run.table, (h.classOf (e.data.fullName digest) = .unsolicited ↔ e.isUnsolicited = true) ∧
    (h.classOf (e.data.fullName digest) = .stale → ∃ t, e.staleTime = some t ∧ t ≤ h.run.now)

/-- An operation has a result, each entry that it evicts is the first to go of those that are left, and it evicts no
more than it has to. -/
structure Evicts (h : History) (event : CsRun.Event) (h' : History) : Prop where
  result : h.step digest getSuccessor matchesData event = some h'
  first : EachEvicted (FirstOut h'.classOf h'.since) (h.run.evictedBy digest (policy digest) event).1
    (h.run.evictedBy digest (policy digest) event).2
  left : Cs.keys digest h'.run.table = (h.run.evictedBy digest (policy digest) event).1.diff
    (h.run.evictedBy digest (policy digest) event).2
  stops : h'.run.table.length =
    min (h.run.evictedBy digest (policy digest) event).1.length h'.run.policy.limit

end Definitions

variable {getSuccessor : Name → Name} {matchesData : MatchesData} {h h' : History}

theorem step_eq {event : CsRun.Event} {run : CsRun PriorityFifoPolicy}
    (hstep : h.run.step digest getSuccessor matchesData (policy digest) event = some run) :
    h.step digest getSuccessor matchesData event = some { h.enter (entersBy digest h.run event) with run } := by
  rw [History.step, hstep]
  rfl

/-- An operation that evicts nothing. -/
theorem Evicts.of_keys {event : CsRun.Event} (hresult : h.step digest getSuccessor matchesData event = some h')
    (hevicted : h.run.evictedBy digest (policy digest) event = (Cs.keys digest h.run.table, []))
    (hkeys : Cs.keys digest h'.run.table = Cs.keys digest h.run.table)
    (hload : h'.run.table.length ≤ h'.run.policy.limit) :
    h.Evicts digest getSuccessor matchesData event h' where
  result := hresult
  first := by
    rw [hevicted]
    trivial
  left := by
    rw [hevicted, hkeys]
    rfl
  stops := by
    rw [hevicted, ← hkeys, Cs.keys, List.length_map]
    exact (min_eq_left hload).symm

theorem Valid.insert_new (hv : Valid digest h) (getSuccessor : Name → Name) (matchesData : MatchesData) {data : Data}
    {isUnsolicited : Bool} (elapsed : Nat) (hcache : data.noCache = false) {entry : CsEntry}
    (hkey : entry.data.fullName digest = data.fullName digest)
    (hsorted : Cs.Sorted digest (Cs.stored digest h.run.table h.run.now data isUnsolicited).1)
    (hmem : ∀ x, x ∈ (Cs.stored digest h.run.table h.run.now data isUnsolicited).1 ↔
      x = entry ∨ x ∈ h.run.table ∧ x.data.fullName digest ≠ data.fullName digest)
    (hstale : entry = entry.updateStaleTime h.run.now)
    (hnew : (Cs.stored digest h.run.table h.run.now data isUnsolicited).2 = true)
    (hnot : data.fullName digest ∉ Cs.keys digest h.run.table)
    (hperm : (Cs.keys digest (Cs.stored digest h.run.table h.run.now data isUnsolicited).1).Perm
      (data.fullName digest :: Cs.keys digest h.run.table)) :
    ∃ h', h.Evicts digest getSuccessor matchesData (.insert data isUnsolicited elapsed) h' ∧ Valid digest h' := by
  obtain ⟨p₁, hattach, hold, htracks, hlimit₁⟩ := hv.valid.attach_new elapsed hkey hsorted hmem hstale hnot hperm
  obtain ⟨e, hfind, hranked₁⟩ := hv.ranked.attachQueue hold hnot hattach
  obtain ⟨p₂, evicted, hevict, heach, hranked₂, hlimit₂, hlength⟩ := hranked₁.evictEntries htracks
  have hafter : (policy digest).doAfterInsert h.run.policy (h.run.now + elapsed)
      (Cs.stored digest h.run.table h.run.now data isUnsolicited).1 (data.fullName digest) = some (p₂, evicted) := by
    dsimp only [policy]
    rw [hattach, Option.bind_some, hevict]
  obtain ⟨hstep, hevicted⟩ := CsRun.step_insert_new getSuccessor matchesData hcache hnew hafter
  have henters : entersBy digest h.run (.insert data isUnsolicited elapsed) =
      some (data.fullName digest, queueTypeOf (h.run.now + elapsed) e) := by
    rw [entersBy, hcache, if_neg Bool.false_ne_true, hfind, Option.map_some]
  have hop : Operation h.run (.insert data isUnsolicited elapsed) := trivial
  obtain ⟨run, hrun, hvalid⟩ := hv.valid.step getSuccessor matchesData hop
  cases hrun.symm.trans hstep
  have hkeys := hsorted.keys_without evicted
  refine ⟨_, ⟨step_eq hstep, ?_, ?_, ?_⟩, hvalid, ?_⟩
  · rw [henters, hevicted]
    exact heach
  · rw [hevicted]
    exact hkeys
  · rw [hevicted]
    dsimp only
    rw [hlimit₂, ← hlength, ← hkeys, Cs.keys, List.length_map]
  · rw [henters]
    exact hranked₂

theorem Valid.insert_refresh (hv : Valid digest h) (getSuccessor : Name → Name) (matchesData : MatchesData)
    {data : Data} {isUnsolicited : Bool} (elapsed : Nat) (hcache : data.noCache = false) {entry : CsEntry}
    (hkey : entry.data.fullName digest = data.fullName digest)
    (hsorted : Cs.Sorted digest (Cs.stored digest h.run.table h.run.now data isUnsolicited).1)
    (hmem : ∀ x, x ∈ (Cs.stored digest h.run.table h.run.now data isUnsolicited).1 ↔
      x = entry ∨ x ∈ h.run.table ∧ x.data.fullName digest ≠ data.fullName digest)
    (hstale : entry = entry.updateStaleTime h.run.now)
    (hnew : (Cs.stored digest h.run.table h.run.now data isUnsolicited).2 = false)
    (hin : data.fullName digest ∈ Cs.keys digest h.run.table)
    (hkeys : Cs.keys digest (Cs.stored digest h.run.table h.run.now data isUnsolicited).1 =
      Cs.keys digest h.run.table) :
    ∃ h', h.Evicts digest getSuccessor matchesData (.insert data isUnsolicited elapsed) h' ∧ Valid digest h' := by
  obtain ⟨p₁, p₂, hdetach, hattach, hold, -, -⟩ := hv.valid.reattach elapsed hkey hsorted hmem hstale hin hkeys
  obtain ⟨e, hfind, hranked⟩ := (hv.ranked.detachQueue hdetach).attachQueue hold
    hv.valid.sorted.keys_nodup.not_mem_erase hattach
  have hrefresh : (policy digest).doAfterRefresh h.run.policy (h.run.now + elapsed)
      (Cs.stored digest h.run.table h.run.now data isUnsolicited).1 (data.fullName digest) = some p₂ := by
    dsimp only [policy]
    rw [hdetach, Option.bind_some, hattach]
  have hstep := CsRun.step_insert_refresh getSuccessor matchesData (policy digest) elapsed hcache hnew
  rw [hrefresh, Option.map_some] at hstep
  have henters : entersBy digest h.run (.insert data isUnsolicited elapsed) =
      some (data.fullName digest, queueTypeOf (h.run.now + elapsed) e) := by
    rw [entersBy, hcache, if_neg Bool.false_ne_true, hfind, Option.map_some]
  have hop : Operation h.run (.insert data isUnsolicited elapsed) := trivial
  obtain ⟨run, hrun, hvalid⟩ := hv.valid.step getSuccessor matchesData hop
  cases hrun.symm.trans hstep
  refine ⟨_, .of_keys (step_eq hstep) (CsRun.evictedBy_insert (Or.inr hnew)) hkeys hvalid.load, hvalid, ?_⟩
  rw [henters]
  exact hranked

/-- A change of the limit evicts from the entries that are there. -/
theorem Valid.setLimit (hv : Valid digest h) (getSuccessor : Name → Name) (matchesData : MatchesData)
    {nMaxPackets : Nat} (hpos : 0 < nMaxPackets) :
    ∃ h', h.Evicts digest getSuccessor matchesData (.setLimit nMaxPackets) h' ∧ Valid digest h' := by
  have htracks : Tracks digest h.run.now h.run.table (Cs.keys digest h.run.table)
      { h.run.policy with limit := nMaxPackets } := { hv.valid.tracks with }
  have hlimited : Ranked h.classOf h.since h.count { h.run.policy with limit := nMaxPackets } := { hv.ranked with }
  obtain ⟨p', evicted, hevict, heach, hranked, hlimit, hlength⟩ := hlimited.evictEntries htracks
  have hset : (policy digest).setLimit h.run.policy nMaxPackets h.run.table = some (p', evicted) :=
    (if_pos hpos).trans hevict
  have hstep : h.run.step digest getSuccessor matchesData (policy digest) (.setLimit nMaxPackets) =
      some { h.run with table := Cs.without digest evicted h.run.table, policy := p' } := by
    rw [CsRun.step, hset]
    rfl
  have hevicted : h.run.evictedBy digest (policy digest) (.setLimit nMaxPackets) =
      (Cs.keys digest h.run.table, evicted) := by
    rw [CsRun.evictedBy, hset]
    rfl
  have hop : Operation h.run (.setLimit nMaxPackets) := hpos
  obtain ⟨run, hrun, hvalid⟩ := hv.valid.step getSuccessor matchesData hop
  cases hrun.symm.trans hstep
  have hkeys := hv.valid.sorted.keys_without evicted
  refine ⟨_, ⟨step_eq hstep, ?_, ?_, ?_⟩, hvalid, hranked⟩
  · rw [hevicted]
    exact heach
  · rw [hevicted]
    exact hkeys
  · rw [hevicted]
    dsimp only
    rw [hlimit, ← hlength, ← hkeys, Cs.keys, List.length_map]

/-- A timer that fires moves its entry to the stale ones. -/
theorem Valid.fire (hv : Valid digest h) (getSuccessor : Name → Name) (matchesData : MatchesData) {id : Nat}
    (hop : Operation h.run (.fire id)) :
    ∃ h', h.Evicts digest getSuccessor matchesData (.fire id) h' ∧ Valid digest h' := by
  obtain ⟨run, hstep, hvalid⟩ := hv.valid.step getSuccessor matchesData hop
  obtain ⟨p', hfire, rfl⟩ := Option.map_eq_some_iff.mp hstep
  obtain ⟨event, hfind, hranked⟩ := hv.ranked.fireEvent hfire hvalid.tracks
  have henters : entersBy digest h.run (.fire id) = some (event.entry, .stale) := by
    rw [entersBy, hfind, Option.map_some]
  refine ⟨_, .of_keys (step_eq hstep) rfl rfl hvalid.load, hvalid, ?_⟩
  rw [henters]
  exact hranked

/-- Every operation has a result. -/
theorem Valid.step (hv : Valid digest h) (getSuccessor : Name → Name) (matchesData : MatchesData)
    {event : CsRun.Event} (hop : Operation h.run event) :
    ∃ h', h.Evicts digest getSuccessor matchesData event h' ∧ Valid digest h' := by
  cases event with
  | insert data isUnsolicited elapsed =>
      cases hcache : data.noCache with
      | true =>
          have hstep : h.run.step digest getSuccessor matchesData (policy digest) (.insert data isUnsolicited elapsed) =
              some { h.run with now := h.run.now + elapsed } :=
            CsRun.step_insert_noCache getSuccessor matchesData hcache
          obtain ⟨run, hrun, hvalid⟩ := hv.valid.step getSuccessor matchesData hop
          cases hrun.symm.trans hstep
          refine ⟨_, .of_keys (step_eq hstep) (CsRun.evictedBy_insert (Or.inl hcache)) rfl hvalid.load, hvalid, ?_⟩
          rw [entersBy, if_pos hcache]
          exact hv.ranked
      | false =>
          obtain ⟨entry, hkey, hsorted, hmem, hstale, hcase⟩ :=
            hv.valid.sorted.stored_spec h.run.now data isUnsolicited
          rcases hcase with ⟨hnew, hnot, hperm⟩ | ⟨hold, hin, hkeys⟩
          · exact hv.insert_new getSuccessor matchesData elapsed hcache hkey hsorted hmem hstale hnew hnot hperm
          · exact hv.insert_refresh getSuccessor matchesData elapsed hcache hkey hsorted hmem hstale hold hin hkeys
  | find interest =>
      obtain ⟨run, hstep, hvalid⟩ := hv.valid.step getSuccessor matchesData hop
      have hsame : run = h.run := by
        rcases h.run.step_find digest getSuccessor matchesData (policy digest) interest with
          ⟨hmiss, -⟩ | ⟨e, he, hhit, -⟩
        · exact (Option.some.inj (hmiss.symm.trans hstep)).symm
        · rw [hhit] at hstep
          obtain ⟨p', huse, rfl⟩ := Option.map_eq_some_iff.mp hstep
          have hkept : (if (h.run.policy.entryInfoMap (e.data.fullName digest)).isSome then some h.run.policy
            else none) = some p' := huse
          split at hkept
          · cases hkept
            rfl
          · cases hkept
      rw [hsame] at hstep
      exact ⟨_, .of_keys (step_eq hstep) rfl rfl hv.valid.load, hv.valid, hv.ranked⟩
  | setLimit nMaxPackets => exact hv.setLimit getSuccessor matchesData hop
  | fire id => exact hv.fire getSuccessor matchesData hop
  | advanceClock duration =>
      obtain ⟨run, hstep, hvalid⟩ := hv.valid.step getSuccessor matchesData hop
      cases hstep
      exact ⟨_, .of_keys (step_eq rfl) rfl rfl hvalid.load, hvalid, hv.ranked⟩

theorem Valid.classed (hv : Valid digest h) : h.Classed digest := by
  intro e he
  obtain ⟨info, hinfo⟩ := Option.isSome_iff_exists.mp ((hv.valid.tracks.known _).mpr (Cs.mem_keys.mpr ⟨e, he, rfl⟩))
  have hfits := hv.valid.tracks.fits e he info hinfo
  rw [hv.ranked.classed _ info hinfo]
  exact ⟨hfits.unsolicited, hfits.stale⟩

end History

/-- Under priority-FIFO every operation has a result, and each entry that it evicts is the one that has been longest in
its class: among the unsolicited ones, else the stale ones, else the others. It evicts until the limit is reached. -/
theorem evicts_first_out (digest : Data → List UInt8) (getSuccessor : Name → Name) (matchesData : MatchesData)
    {nMaxPackets : Nat} (hlimit : 0 < nMaxPackets) :
    ∃ s₀, CsRun.start (policy digest) constructed nMaxPackets = some s₀ ∧
      ∀ h, Reach (History.step digest getSuccessor matchesData) anyStep (History.start s₀) h →
        h.Classed digest ∧ ∀ event, Operation h.run event →
          ∃ h', h.Evicts digest getSuccessor matchesData event h' := by
  refine ⟨_, congrArg (Option.map _) (if_pos hlimit), fun h hr => ?_⟩
  have hv : h.Valid digest := hr.invariant_of_spec ?_ fun h event h' hv _ hstep => ?_
  · exact ⟨hv.classed, fun event hop => (hv.step getSuccessor matchesData hop).imp fun _ hevicts => hevicts.1⟩
  · refine ⟨⟨List.Pairwise.nil, constructed_tracks digest nMaxPackets, Nat.zero_le _⟩, fun k info hinfo => ?_,
      fun _ => List.Pairwise.nil, fun _ => le_rfl⟩
    cases hinfo
  · obtain ⟨run, hrun, rfl⟩ := Option.map_eq_some_iff.mp hstep
    obtain ⟨h₁, hevicts, hv₁⟩ := hv.step getSuccessor matchesData (operation_of_step hrun)
    exact ⟨h₁, hevicts.result, hv₁⟩

/-- In a store for two, the limit of one takes the entry that has become stale, although the other one is older. -/
theorem evicts_first_out_stale :
    ∃ s₀ h h', CsRun.start (policy fun _ => [0]) constructed 2 = some s₀ ∧
      exec (History.step (fun _ => [0]) incrementLast (matchesSuffix fun _ => [0])) (History.start s₀)
        [.insert (plainData [.ofByte 65]) false 0, .insert { plainData [.ofByte 66] with freshnessPeriod := 5 } false 0,
          .advanceClock (milliseconds 5), .fire 1] = some h ∧
      h.Evicts (fun _ => [0]) incrementLast (matchesSuffix fun _ => [0]) (.setLimit 1) h' ∧
      h.run.evictedBy (fun _ => [0]) (policy fun _ => [0]) (.setLimit 1) =
        ([(plainData [.ofByte 65]).fullName fun _ => [0], (plainData [.ofByte 66]).fullName fun _ => [0]],
          [(plainData [.ofByte 66]).fullName fun _ => [0]]) := by
  obtain ⟨s₀, hstart, hruns⟩ :=
    evicts_first_out (fun _ => [0]) incrementLast (matchesSuffix fun _ => [0]) (show 0 < 2 by decide)
  have hs₀ : s₀ = { table := [], policy := { constructed with limit := 2 }, now := 0 } :=
    Option.some.inj hstart.symm
  have hevicted : ((exec (History.step (fun _ => [0]) incrementLast (matchesSuffix fun _ => [0])) (History.start s₀)
        [.insert (plainData [.ofByte 65]) false 0, .insert { plainData [.ofByte 66] with freshnessPeriod := 5 } false 0,
          .advanceClock (milliseconds 5), .fire 1]).map fun h =>
      h.run.evictedBy (fun _ => [0]) (policy fun _ => [0]) (.setLimit 1)) =
      some ([(plainData [.ofByte 65]).fullName fun _ => [0], (plainData [.ofByte 66]).fullName fun _ => [0]],
        [(plainData [.ofByte 66]).fullName fun _ => [0]]) := by
    rw [hs₀]
    decide +kernel
  obtain ⟨h, hexec, hnames⟩ := Option.map_eq_some_iff.mp hevicted
  obtain ⟨h', hevicts⟩ := (hruns h (reach_of_exec .start hexec)).2 (.setLimit 1) (show 0 < 1 by decide)
  exact ⟨s₀, h, h', hstart, hexec, hevicts, hnames⟩

end PriorityFifoPolicy
end NfdPitless
