import NfdPitless.CsPolicies

/-! The LRU policy of the content store (`daemon/table/cs-policy-lru.cpp`). Its queue has the entries of the table in
the order of their last uses, so that an entry is evicted when its last use is the oldest. -/

namespace NfdPitless

/-- The policy: `m_limit`, and the entries of `m_queue` by their full names. -/
structure LruPolicy where
  limit : Nat
  queue : List Name

namespace LruPolicy

/-- The queue has no duplicates: pushing an entry that is there finds it. -/
def pushBack (queue : List Name) (i : Name) : List Name × Bool :=
  if i ∈ queue then (queue, false) else (queue ++ [i], true)

def insertToQueue (p : LruPolicy) (i : Name) (isNewEntry : Bool) : Option LruPolicy :=
  let pushed := pushBack p.queue i
  if pushed.2 = isNewEntry then
    some { p with queue := if isNewEntry then pushed.1 else pushed.1.erase i ++ [i] }
  else none

/-- One round of `evictEntries`. -/
def evictOne (p : LruPolicy) : Option (LruPolicy × Name) :=
  match p.queue with
  | [] => none
  | i :: queue => some ({ p with queue }, i)

variable (digest : Data → List UInt8)

def evictEntries (p : LruPolicy) (table : List CsEntry) : Option (LruPolicy × List Name) :=
  evictWhile evictOne p.limit table.length (Cs.keys digest table) p

def policy : ReplacementPolicy LruPolicy where
  doAfterInsert := fun p _ table i => (p.insertToQueue i true).bind fun p => p.evictEntries digest table
  doAfterRefresh := fun p _ _ i => p.insertToQueue i false
  doBeforeUse := fun p _ _ i => p.insertToQueue i false
  setLimit := fun p nMaxEntries table =>
    if 0 < nMaxEntries then evictEntries digest { p with limit := nMaxEntries } table else none
  fire := fun _ _ _ _ => none

/-- The policy before its limit is set. -/
def constructed : LruPolicy := { limit := 0, queue := [] }

/-- A run with the time of the last use of each entry, in uses. -/
structure History where
  run : CsRun LruPolicy
  count : Nat
  lastUse : Name → Nat

namespace History

variable (getSuccessor : Name → Name) (matchesData : MatchesData)

/-- An entry is used when it is inserted, refreshed or hit. -/
def use (h : History) : Option Name → History
  | some k => { h with count := h.count + 1, lastUse := Function.update h.lastUse k (h.count + 1) }
  | none => h

def step (h : History) (event : CsRun.Event) : Option History :=
  (h.run.step digest getSuccessor matchesData (policy digest) event).map fun run =>
    { h.use (h.run.usedBy digest getSuccessor matchesData (policy digest) event) with run }

def start (run : CsRun LruPolicy) : History := { run, count := 0, lastUse := fun _ => 0 }

end History

/-- The last use of an entry is the oldest of all. -/
def LeastRecent (lastUse : Name → Nat) (keys : List Name) (k : Name) : Prop :=
  ∀ k' ∈ keys, k' ≠ k → lastUse k < lastUse k'

/-- The queue has the entries in the order of their last uses. -/
structure Recency (keys : List Name) (queue : List Name) (count : Nat) (lastUse : Name → Nat) : Prop where
  perm : queue.Perm keys
  ordered : queue.Pairwise fun k k' => lastUse k < lastUse k'
  bound : ∀ k, lastUse k ≤ count

variable {digest} {getSuccessor : Name → Name} {matchesData : MatchesData} {p : LruPolicy} {keys queue : List Name}
  {i : Name} {count : Nat} {lastUse : Name → Nat}

/-- The assertion holds when the entry is in the queue unless it is new, and it is last then. -/
theorem insertToQueue_some {isNewEntry : Bool} (h : i ∈ p.queue ↔ isNewEntry = false) :
    p.insertToQueue i isNewEntry = some { p with queue := p.queue.erase i ++ [i] } := by
  unfold insertToQueue pushBack
  cases isNewEntry with
  | true =>
      have hnot : i ∉ p.queue := fun hmem => Bool.noConfusion (h.mp hmem)
      rw [if_neg hnot, if_pos rfl, if_pos rfl, List.erase_of_not_mem hnot]
  | false =>
      rw [if_pos (h.mpr rfl), if_pos rfl, if_neg Bool.false_ne_true]

/-- The entry that is used is the last one. -/
theorem Recency.use {keys' : List Name} (h : Recency keys queue count lastUse)
    (hkeys : keys'.Perm (keys.erase i ++ [i])) :
    Recency keys' (queue.erase i ++ [i]) (count + 1) (Function.update lastUse i (count + 1)) where
  perm := ((h.perm.erase i).append_right [i]).trans hkeys.symm
  ordered := by
    have hne : ∀ k ∈ queue.erase i, k ≠ i := by
      have hnodup : queue.Nodup := h.ordered.imp fun hlt heq => (heq ▸ hlt).false
      rintro k hk rfl
      exact hnodup.not_mem_erase hk
    refine List.pairwise_append.mpr ⟨?_, List.pairwise_singleton _ _, fun k hk k' hk' => ?_⟩
    · refine (h.ordered.sublist List.erase_sublist).imp_of_mem fun hk hk' hlt => ?_
      rwa [Function.update_of_ne (hne _ hk), Function.update_of_ne (hne _ hk')]
    · cases List.mem_singleton.mp hk'
      rw [Function.update_of_ne (hne k hk), Function.update_self]
      exact Nat.lt_succ_of_le (h.bound k)
  bound := fun k => by
    rw [Function.update_apply]
    split
    · exact le_rfl
    · exact (h.bound k).trans (Nat.le_succ count)

/-- The first of the queue is the entry that is evicted, and its last use is the oldest. -/
theorem Recency.evictOne (h : Recency keys p.queue count lastUse) (hload : p.limit < keys.length) :
    ∃ p' k, p.evictOne = some (p', k) ∧ k ∈ keys ∧ LeastRecent lastUse keys k ∧
      Recency (keys.erase k) p'.queue count lastUse ∧ p'.limit = p.limit := by
  obtain ⟨limit, queue⟩ := p
  cases queue with
  | nil =>
      rw [← h.perm.length_eq] at hload
      exact absurd hload (Nat.not_lt_zero _)
  | cons k rest =>
      obtain ⟨hfirst, hrest⟩ := List.pairwise_cons.mp h.ordered
      refine ⟨⟨limit, rest⟩, k, rfl, h.perm.mem_iff.mp List.mem_cons_self, fun k' hk' hne => ?_,
        ⟨?_, hrest, h.bound⟩, rfl⟩
      · exact hfirst k' ((List.mem_cons.mp (h.perm.mem_iff.mpr hk')).resolve_left hne)
      · have hperm := h.perm.erase k
        rwa [List.erase_cons_head] at hperm

theorem Recency.evictEntries {table : List CsEntry} (h : Recency (Cs.keys digest table) p.queue count lastUse) :
    ∃ p' evicted, p.evictEntries digest table = some (p', evicted) ∧
      EachEvicted (LeastRecent lastUse) (Cs.keys digest table) evicted ∧
      Recency ((Cs.keys digest table).diff evicted) p'.queue count lastUse ∧ p'.limit = p.limit ∧
      ((Cs.keys digest table).diff evicted).length ≤ p.limit := by
  have hfuel : (Cs.keys digest table).length ≤ table.length := (List.length_map _).le
  have hone : ∀ (keys : List Name) (p' : LruPolicy), Recency keys p'.queue count lastUse ∧ p'.limit = p.limit →
      p.limit < keys.length → ∃ p₁ k, p'.evictOne = some (p₁, k) ∧ k ∈ keys ∧ LeastRecent lastUse keys k ∧
        Recency (keys.erase k) p₁.queue count lastUse ∧ p₁.limit = p.limit := by
    intro keys p' hI hload
    obtain ⟨p₁, k, hevict, hk, hleast, hrec, hlimit⟩ := hI.1.evictOne (hI.2 ▸ hload)
    exact ⟨p₁, k, hevict, hk, hleast, hrec, hlimit.trans hI.2⟩
  obtain ⟨p', evicted, hevict, heach, hI, hle⟩ := evictWhile_spec hone table.length hfuel ⟨h, rfl⟩
  exact ⟨p', evicted, hevict, heach, hI.1, hI.2, hle⟩

namespace History

/-- The invariant of the runs. -/
structure Valid (digest : Data → List UInt8) (h : History) : Prop where
  sorted : Cs.Sorted digest h.run.table
  recency : Recency (Cs.keys digest h.run.table) h.run.policy.queue h.count h.lastUse
  load : h.run.table.length ≤ h.run.policy.limit

/-- An operation has a result, and each entry that it evicts is the one whose last use is the oldest among those that
are left. -/
structure Evicts (digest : Data → List UInt8) (getSuccessor : Name → Name) (matchesData : MatchesData) (h : History)
    (event : CsRun.Event) (h' : History) : Prop where
  result : h.step digest getSuccessor matchesData event = some h'
  least : EachEvicted (LeastRecent h'.lastUse) (h.run.evictedBy digest (policy digest) event).1
    (h.run.evictedBy digest (policy digest) event).2
  left : Cs.keys digest h'.run.table = (h.run.evictedBy digest (policy digest) event).1.diff
    (h.run.evictedBy digest (policy digest) event).2

variable {h h' : History}

/-- The limit is not zero, and LRU has no timers. -/
def Operation : CsRun.Event → Prop
  | .setLimit nMaxPackets => 0 < nMaxPackets
  | .fire _ => False
  | _ => True

theorem step_eq {event : CsRun.Event} {run : CsRun LruPolicy}
    (hstep : h.run.step digest getSuccessor matchesData (policy digest) event = some run) :
    h.step digest getSuccessor matchesData event =
      some { h.use (h.run.usedBy digest getSuccessor matchesData (policy digest) event) with run } := by
  rw [History.step, hstep]
  rfl

/-- An operation that evicts nothing. -/
theorem Evicts.of_keys {event : CsRun.Event} (hresult : h.step digest getSuccessor matchesData event = some h')
    (hevicted : h.run.evictedBy digest (policy digest) event = (Cs.keys digest h.run.table, []))
    (hkeys : Cs.keys digest h'.run.table = Cs.keys digest h.run.table) :
    h.Evicts digest getSuccessor matchesData event h' where
  result := hresult
  least := by
    rw [hevicted]
    trivial
  left := by
    rw [hevicted, hkeys]
    rfl

theorem perm_erase_append {keys : List Name} {k : Name} (hk : k ∈ keys) : keys.Perm (keys.erase k ++ [k]) :=
  (List.perm_cons_erase hk).trans (List.perm_append_singleton k (keys.erase k)).symm

theorem Valid.insert_new (hv : Valid digest h) {data : Data} {isUnsolicited : Bool} {elapsed : Nat}
    (hcache : data.noCache = false) (hnew : (Cs.stored digest h.run.table h.run.now data isUnsolicited).2 = true)
    (hsorted : Cs.Sorted digest (Cs.stored digest h.run.table h.run.now data isUnsolicited).1)
    (hnot : data.fullName digest ∉ Cs.keys digest h.run.table)
    (hperm : (Cs.keys digest (Cs.stored digest h.run.table h.run.now data isUnsolicited).1).Perm
      (data.fullName digest :: Cs.keys digest h.run.table)) :
    ∃ h', h.Evicts digest getSuccessor matchesData (.insert data isUnsolicited elapsed) h' ∧ Valid digest h' := by
  have hqueue : data.fullName digest ∉ h.run.policy.queue := fun hin => hnot (hv.recency.perm.mem_iff.mp hin)
  have hpushed : h.run.policy.insertToQueue (data.fullName digest) true =
      some { h.run.policy with queue := h.run.policy.queue.erase (data.fullName digest) ++ [data.fullName digest] } :=
    insertToQueue_some (iff_of_false hqueue Bool.noConfusion)
  have hrec := hv.recency.use (i := data.fullName digest) (hperm.trans (by
    rw [List.erase_of_not_mem hnot]
    exact (List.perm_append_singleton _ _).symm))
  obtain ⟨p', evicted, hevict, heach, hrec', hlimit, hle⟩ := Recency.evictEntries
    (p := { h.run.policy with
      queue := h.run.policy.queue.erase (data.fullName digest) ++ [data.fullName digest] }) hrec
  have hafter : (policy digest).doAfterInsert h.run.policy (h.run.now + elapsed)
      (Cs.stored digest h.run.table h.run.now data isUnsolicited).1 (data.fullName digest) = some (p', evicted) := by
    dsimp only [policy]
    rw [hpushed, Option.bind_some, hevict]
  obtain ⟨hstep, hevicted⟩ := CsRun.step_insert_new getSuccessor matchesData hcache hnew hafter
  have hused : h.run.usedBy digest getSuccessor matchesData (policy digest) (.insert data isUnsolicited elapsed) =
      some (data.fullName digest) := by
    rw [CsRun.usedBy, hcache, if_neg Bool.false_ne_true]
  have hkeys := hsorted.keys_without evicted
  refine ⟨_, ⟨step_eq hstep, ?_, ?_⟩, hsorted.without evicted, ?_, ?_⟩
  · rw [hused, hevicted]
    exact heach
  · rw [hevicted]
    exact hkeys
  · rw [hused]
    dsimp only
    rw [hkeys]
    exact hrec'
  · dsimp only
    rw [← List.length_map (f := fun e : CsEntry => e.data.fullName digest)]
    exact (congrArg List.length hkeys).trans_le (hle.trans_eq hlimit.symm)

theorem Valid.refresh (hv : Valid digest h) {table : List CsEntry} {k : Name} (hsorted : Cs.Sorted digest table)
    (hkeys : Cs.keys digest table = Cs.keys digest h.run.table) (hk : k ∈ Cs.keys digest h.run.table) (now : Nat) :
    ∃ p', h.run.policy.insertToQueue k false = some p' ∧
      Valid digest { h.use (some k) with run := { table, policy := p', now } } := by
  refine ⟨_, insertToQueue_some (iff_of_true (hv.recency.perm.mem_iff.mpr hk) rfl), hsorted, ?_, ?_⟩
  · have hrec := hv.recency.use (perm_erase_append hk)
    rw [← hkeys] at hrec
    exact hrec
  · have hlength := congrArg List.length hkeys
    rw [Cs.keys, Cs.keys, List.length_map, List.length_map] at hlength
    exact hlength.trans_le hv.load

/-- Every operation has a result. -/
theorem Valid.step (hv : Valid digest h) (getSuccessor : Name → Name) (matchesData : MatchesData)
    {event : CsRun.Event} (hop : Operation event) :
    ∃ h', h.Evicts digest getSuccessor matchesData event h' ∧ Valid digest h' := by
  cases event with
  | insert data isUnsolicited elapsed =>
      cases hcache : data.noCache with
      | true =>
          refine ⟨_, .of_keys (step_eq (CsRun.step_insert_noCache getSuccessor matchesData hcache))
            (CsRun.evictedBy_insert (Or.inl hcache)) rfl, ?_⟩
          rw [CsRun.usedBy, if_pos hcache]
          exact ⟨hv.sorted, hv.recency, hv.load⟩
      | false =>
          obtain ⟨_, _, hsorted, -, -, hcase⟩ := hv.sorted.stored_spec h.run.now data isUnsolicited
          rcases hcase with ⟨hnew, hnot, hperm⟩ | ⟨hold, hin, hkeys⟩
          · exact hv.insert_new hcache hnew hsorted hnot hperm
          · obtain ⟨p', hp, hv'⟩ := hv.refresh hsorted hkeys hin (h.run.now + elapsed)
            have hstep := CsRun.step_insert_refresh getSuccessor matchesData (policy digest) elapsed hcache hold
            rw [show (policy digest).doAfterRefresh h.run.policy _ _ _ = _ from hp, Option.map_some] at hstep
            refine ⟨_, .of_keys (step_eq hstep) (CsRun.evictedBy_insert (Or.inr hold)) hkeys, ?_⟩
            rwa [CsRun.usedBy, hcache, if_neg Bool.false_ne_true]
  | find interest =>
      rcases h.run.step_find digest getSuccessor matchesData (policy digest) interest with
        ⟨hstep, hused⟩ | ⟨e, he, hstep, hused⟩
      · refine ⟨_, .of_keys (step_eq hstep) rfl rfl, ?_⟩
        rw [hused]
        exact hv
      · obtain ⟨p', hp, hv'⟩ := hv.refresh hv.sorted rfl (Cs.mem_keys.mpr ⟨e, he, rfl⟩) h.run.now
        rw [show (policy digest).doBeforeUse h.run.policy _ _ _ = _ from hp, Option.map_some] at hstep
        refine ⟨_, .of_keys (step_eq hstep) rfl rfl, ?_⟩
        rwa [hused]
  | setLimit nMaxPackets =>
      obtain ⟨p', evicted, hevict, heach, hrec, hlimit, hle⟩ := Recency.evictEntries
        (p := { h.run.policy with limit := nMaxPackets }) hv.recency
      have hset : (policy digest).setLimit h.run.policy nMaxPackets h.run.table = some (p', evicted) :=
        (if_pos hop).trans hevict
      have hkeys := hv.sorted.keys_without evicted
      have hevicted : h.run.evictedBy digest (policy digest) (.setLimit nMaxPackets) =
          (Cs.keys digest h.run.table, evicted) := by
        rw [CsRun.evictedBy, hset]
        rfl
      have hstep : h.run.step digest getSuccessor matchesData (policy digest) (.setLimit nMaxPackets) =
          some { h.run with table := Cs.without digest evicted h.run.table, policy := p' } := by
        rw [CsRun.step, hset]
        rfl
      refine ⟨_, ⟨step_eq hstep, ?_, ?_⟩, hv.sorted.without evicted, ?_, ?_⟩
      · rw [hevicted]
        exact heach
      · rw [hevicted]
        exact hkeys
      · exact hkeys ▸ hrec
      · have hlength := congrArg List.length hkeys
        rw [Cs.keys, List.length_map] at hlength
        exact (hlength.trans_le hle).trans_eq hlimit.symm
  | fire id => exact hop.elim
  | advanceClock duration =>
      exact ⟨_, .of_keys (step_eq rfl) rfl rfl, hv.sorted, hv.recency, hv.load⟩

/-- A step that has a result is an operation. -/
theorem operation_of_step {event : CsRun.Event} (hstep : h.step digest getSuccessor matchesData event = some h') :
    Operation event := by
  cases event with
  | setLimit nMaxPackets =>
      by_contra hzero
      have hnone : (policy digest).setLimit h.run.policy nMaxPackets h.run.table = none := if_neg hzero
      rw [History.step, CsRun.step, hnone] at hstep
      cases hstep
  | fire id => cases hstep
  | insert _ _ _ => trivial
  | find _ => trivial
  | advanceClock _ => trivial

theorem valid_of_reach {h₀ : History} (hv : Valid digest h₀)
    (hr : Reach (History.step digest getSuccessor matchesData) anyStep h₀ h) : Valid digest h :=
  hr.invariant_of_spec hv fun _ _ _ hv _ hstep => by
    obtain ⟨h₁, hevicts, hv₁⟩ := hv.step getSuccessor matchesData (operation_of_step hstep)
    exact ⟨h₁, hevicts.result, hv₁⟩

/-- Every run has a history. -/
theorem exists_of_reach {s₀ s : CsRun LruPolicy}
    (hr : Reach (CsRun.step digest getSuccessor matchesData (policy digest)) anyStep s₀ s) :
    ∃ h : History, h.run = s ∧ Reach (History.step digest getSuccessor matchesData) anyStep (History.start s₀) h := by
  induction hr with
  | start => exact ⟨History.start s₀, rfl, .start⟩
  | next event _ _ hstep ih =>
      obtain ⟨h, rfl, hreach⟩ := ih
      exact ⟨_, rfl, hreach.next event trivial (step_eq hstep)⟩

end History

theorem start_valid (digest : Data → List UInt8) (nMaxPackets : Nat) :
    (History.start { table := [], policy := { constructed with limit := nMaxPackets }, now := 0 }).Valid digest :=
  ⟨List.Pairwise.nil, ⟨.refl _, List.Pairwise.nil, fun _ => le_rfl⟩, Nat.zero_le _⟩

/-- Under LRU the queue has the entries of the table in the order of their last uses. Every operation has a result, so
no assertion fails, and each entry that it evicts is the one whose last use is the oldest. -/
theorem evicts_least_recent (digest : Data → List UInt8) (getSuccessor : Name → Name) (matchesData : MatchesData)
    {nMaxPackets : Nat} (hlimit : 0 < nMaxPackets) :
    ∃ s₀, CsRun.start (policy digest) constructed nMaxPackets = some s₀ ∧
      ∀ h, Reach (History.step digest getSuccessor matchesData) anyStep (History.start s₀) h →
        h.run.policy.queue.Perm (Cs.keys digest h.run.table) ∧
        h.run.policy.queue.Pairwise (fun k k' => h.lastUse k < h.lastUse k') ∧
        h.run.table.length ≤ h.run.policy.limit ∧
        ∀ event, History.Operation event →
          ∃ h', h.Evicts digest getSuccessor matchesData event h' := by
  refine ⟨_, congrArg (Option.map _) (if_pos hlimit), fun h hr => ?_⟩
  have hv := History.valid_of_reach (start_valid digest nMaxPackets) hr
  exact ⟨hv.recency.perm, hv.recency.ordered, hv.load, fun event hop =>
    (hv.step getSuccessor matchesData hop).imp fun _ hevicts => hevicts.1⟩

/-- In a store for two, the entry that is hit stays and the other one goes. -/
theorem evicts_least_recent_two :
    ∃ s₀ h, CsRun.start (policy fun _ => [0]) constructed 2 = some s₀ ∧
      exec (History.step (fun _ => [0]) incrementLast (matchesSuffix fun _ => [0])) (History.start s₀)
        [.insert (plainData [.ofByte 65]) false 0, .insert (plainData [.ofByte 66]) false 0,
          .find (plainInterest [.ofByte 65]), .insert (plainData [.ofByte 67]) false 0] = some h ∧
      h.run.policy.queue =
        [(plainData [.ofByte 65]).fullName fun _ => [0], (plainData [.ofByte 67]).fullName fun _ => [0]] ∧
      h.run.policy.queue.Perm (Cs.keys (fun _ => [0]) h.run.table) := by
  obtain ⟨s₀, hstart, hruns⟩ :=
    evicts_least_recent (fun _ => [0]) incrementLast (matchesSuffix fun _ => [0]) (show 0 < 2 by decide)
  have hs₀ : s₀ = { table := [], policy := { limit := 2, queue := [] }, now := 0 } := Option.some.inj hstart.symm
  have hqueue : ((exec (History.step (fun _ => [0]) incrementLast (matchesSuffix fun _ => [0])) (History.start s₀)
        [.insert (plainData [.ofByte 65]) false 0, .insert (plainData [.ofByte 66]) false 0,
          .find (plainInterest [.ofByte 65]), .insert (plainData [.ofByte 67]) false 0]).map fun h =>
      h.run.policy.queue) =
      some [(plainData [.ofByte 65]).fullName fun _ => [0], (plainData [.ofByte 67]).fullName fun _ => [0]] := by
    rw [hs₀]
    decide +kernel
  obtain ⟨h, hexec, hh⟩ := Option.map_eq_some_iff.mp hqueue
  exact ⟨s₀, h, hstart, hexec, hh, (hruns h (reach_of_exec .start hexec)).1⟩

end LruPolicy
end NfdPitless
