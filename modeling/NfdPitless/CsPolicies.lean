import NfdPitless.CsLookup
import NfdPitless.Runs

/-! The content store under a replacement policy (`daemon/table/cs-policy.cpp`), as runs of insertions, lookups,
changes of the limit and timers. A policy keeps its own record of the entries, and names the entries it evicts one
after the other; the store erases each from its table when it is told. -/

namespace NfdPitless

/-- A replacement policy with state `ρ`, in which an entry is named by its full name. An operation that fails an
assertion has no result; the names of the evicted entries come in the order of the `beforeEvict` signals. -/
structure ReplacementPolicy (ρ : Type) where
  doAfterInsert : ρ → Nat → List CsEntry → Name → Option (ρ × List Name)
  doAfterRefresh : ρ → Nat → List CsEntry → Name → Option ρ
  doBeforeUse : ρ → Nat → List CsEntry → Name → Option ρ
  setLimit : ρ → Nat → List CsEntry → Option (ρ × List Name)
  /-- A scheduled event of the policy, by its id; it is enabled once it is due. -/
  fire : ρ → Nat → List CsEntry → Nat → Option ρ

/-- The policy as the store sees it. The clock goes on by `elapsed` before the policy reads it. -/
def ReplacementPolicy.toCsPolicy {ρ : Type} (P : ReplacementPolicy ρ) (elapsed : Nat) : CsPolicy (Option ρ) where
  afterInsert := fun p now table key =>
    match p.bind fun p => P.doAfterInsert p (now + elapsed) table key with
    | some after => (some after.1, after.2)
    | none => (none, [])
  afterRefresh := fun p now table key => p.bind fun p => P.doAfterRefresh p (now + elapsed) table key
  beforeUse := fun p now table key => p.bind fun p => P.doBeforeUse p (now + elapsed) table key
  timer := fun p _ _ _ => p

/-- The loop of `evictEntries`: entries are evicted while there are more than the limit, by as many rounds at most
as there are entries. Erasing an entry that is not in the table would be undefined. -/
def evictWhile {ρ : Type} (evictOne : ρ → Option (ρ × Name)) (limit : Nat) :
    Nat → List Name → ρ → Option (ρ × List Name)
  | 0, keys, p => if limit < keys.length then none else some (p, [])
  | fuel + 1, keys, p =>
      if limit < keys.length then
        (evictOne p).bind fun evicted =>
          if evicted.2 ∈ keys then
            (evictWhile evictOne limit fuel (keys.erase evicted.2) evicted.1).map fun rest =>
              (rest.1, evicted.2 :: rest.2)
          else none
      else some (p, [])

namespace Cs

/-- The full names of the entries. -/
def keys (digest : Data → List UInt8) (table : List CsEntry) : List Name := table.map fun e => e.data.fullName digest

/-- The table without the entries that have been evicted. -/
def without (digest : Data → List UInt8) (evicted : List Name) (table : List CsEntry) : List CsEntry :=
  table.filter fun e => !evicted.contains (e.data.fullName digest)

/-- The table with a Data, before the policy is told, and whether the entry is new. -/
def stored (digest : Data → List UInt8) (table : List CsEntry) (now : Nat) (data : Data) (isUnsolicited : Bool) :
    List CsEntry × Bool :=
  let inserted := tableInsert digest (CsEntry.updateStaleTime now ⟨data, isUnsolicited, none⟩) table
  let entry := inserted.2.1.updateStaleTime now
  (tableSet digest { entry with isUnsolicited := entry.isUnsolicited && (inserted.2.2 || isUnsolicited) } inserted.1,
    inserted.2.2)

variable {π : Type} {digest : Data → List UInt8} {table : List CsEntry}

/-- Whether it is new or not, the entry has the full name. -/
theorem tableInsert_fullName (digest : Data → List UInt8) (e : CsEntry) (table : List CsEntry) :
    (tableInsert digest e table).2.1.data.fullName digest = e.data.fullName digest := by
  induction table with
  | nil => rfl
  | cons x table ih =>
      rw [tableInsert]
      cases hcmp : compareDataWithData digest e.data x.data with
      | lt => rfl
      | eq => exact (sortKey_eq_iff.mp (compareDataWithData_eq_iff.mp hcmp)).symm
      | gt => exact ih

/-- An insertion stores the Data, and then the policy is told and may evict. -/
theorem insert_eq (policy : CsPolicy π) (cs : Cs π) (now : Nat) (data : Data) (isUnsolicited : Bool) :
    insert digest policy cs now data isUnsolicited =
      if data.noCache then cs
      else if (stored digest cs.table now data isUnsolicited).2 then
        { table := without digest (policy.afterInsert cs.policy now (stored digest cs.table now data isUnsolicited).1
            (data.fullName digest)).2 (stored digest cs.table now data isUnsolicited).1
          policy := (policy.afterInsert cs.policy now (stored digest cs.table now data isUnsolicited).1
            (data.fullName digest)).1 }
      else
        { table := (stored digest cs.table now data isUnsolicited).1
          policy := policy.afterRefresh cs.policy now (stored digest cs.table now data isUnsolicited).1
            (data.fullName digest) } := by
  have hkey : (tableInsert digest (CsEntry.updateStaleTime now ⟨data, isUnsolicited, none⟩)
      cs.table).2.1.data.fullName digest = data.fullName digest := tableInsert_fullName digest _ cs.table
  unfold insert stored without
  generalize tableInsert digest (CsEntry.updateStaleTime now ⟨data, isUnsolicited, none⟩) cs.table = inserted
    at hkey ⊢
  obtain ⟨table, ⟨d, u, stale⟩, isNew⟩ := inserted
  split
  · rfl
  · cases isNew with
    | true =>
        have hkey' : (CsEntry.updateStaleTime now ⟨d, u, stale⟩).data.fullName digest = data.fullName digest := hkey
        simp only [if_true, Bool.true_or, Bool.and_true, hkey']
    | false =>
        cases u with
        | true =>
            cases isUnsolicited with
            | true => exact congrArg (Cs.mk _) (congrArg _ hkey)
            | false => exact congrArg (Cs.mk _) (congrArg _ hkey)
        | false => exact congrArg (Cs.mk _) (congrArg _ hkey)

theorem mem_keys {k : Name} : k ∈ keys digest table ↔ ∃ e ∈ table, e.data.fullName digest = k := List.mem_map

theorem Sorted.keys_nodup (h : Sorted digest table) : (keys digest table).Nodup := by
  rw [keys, List.nodup_iff_pairwise_ne, List.pairwise_map]
  exact h.imp fun hlt heq => hlt.ne (sortKey_eq_iff.mpr heq)

/-- The entry of a full name. -/
theorem Sorted.entry_unique (h : Sorted digest table) {e e' : CsEntry} (he : e ∈ table) (he' : e' ∈ table)
    (hkey : e.data.fullName digest = e'.data.fullName digest) : e = e' :=
  List.inj_on_of_nodup_map h.keys_nodup he he' hkey

/-- Inserting adds the entry, or finds the one that is there. -/
theorem Sorted.tableInsert_spec (h : Sorted digest table) (e : CsEntry) :
    (Cs.tableInsert digest e table).2.2 = true ∧ e.data.fullName digest ∉ keys digest table ∧
        (Cs.tableInsert digest e table).1.Perm (e :: table) ∨
      (Cs.tableInsert digest e table).2.2 = false ∧ (Cs.tableInsert digest e table).2.1 ∈ table ∧
        (Cs.tableInsert digest e table).1 = table := by
  induction table with
  | nil => exact Or.inl ⟨rfl, List.not_mem_nil, .refl _⟩
  | cons x table ih =>
      obtain ⟨hhead, htail⟩ := List.pairwise_cons.mp h
      rw [Cs.tableInsert]
      cases hcmp : compareDataWithData digest e.data x.data with
      | lt =>
          have hlt := compareDataWithData_lt_iff.mp hcmp
          refine Or.inl ⟨rfl, fun hmem => ?_, .refl _⟩
          obtain ⟨y, hy, hkey⟩ := mem_keys.mp hmem
          have hle : sortKey digest x.data ≤ sortKey digest y.data := by
            rcases List.mem_cons.mp hy with rfl | hy
            · exact le_rfl
            · exact (hhead y hy).le
          exact (hlt.trans_le hle).ne (sortKey_eq_iff.mpr hkey.symm)
      | eq => exact Or.inr ⟨rfl, List.mem_cons_self, rfl⟩
      | gt =>
          rcases ih htail with ⟨hnew, hnot, hperm⟩ | ⟨hold, hmem, hsame⟩
          · refine Or.inl ⟨hnew, fun hin => ?_, (hperm.cons x).trans (.swap e x table)⟩
            rcases List.mem_cons.mp hin with heq | hin
            · rw [compareDataWithData_eq_iff.mpr (sortKey_eq_iff.mpr heq)] at hcmp
              cases hcmp
            · exact hnot hin
          · exact Or.inr ⟨hold, List.mem_cons_of_mem x hmem, congrArg (x :: ·) hsame⟩

theorem keys_tableSet (e : CsEntry) (table : List CsEntry) :
    keys digest (tableSet digest e table) = keys digest table := by
  rw [keys, tableSet, List.map_map, keys]
  refine List.map_congr_left fun x _ => ?_
  rw [Function.comp_apply]
  split
  · exact Eq.symm ‹_›
  · rfl

theorem mem_tableSet {e x : CsEntry} (hkey : e.data.fullName digest ∈ keys digest table) :
    x ∈ tableSet digest e table ↔ x = e ∨ x ∈ table ∧ x.data.fullName digest ≠ e.data.fullName digest := by
  rw [tableSet, List.mem_map]
  constructor
  · rintro ⟨y, hy, rfl⟩
    split
    · exact Or.inl rfl
    · exact Or.inr ⟨hy, ‹_›⟩
  · rintro (rfl | ⟨hx, hne⟩)
    · obtain ⟨y, hy, hyk⟩ := mem_keys.mp hkey
      exact ⟨y, hy, if_pos hyk⟩
    · exact ⟨x, hx, if_neg hne⟩

/-- What is stored: a new entry, or the one that was there, with a new stale time and solicited if either is. -/
theorem Sorted.stored_spec (h : Sorted digest table) (now : Nat) (data : Data) (isUnsolicited : Bool) :
    ∃ entry : CsEntry, entry.data.fullName digest = data.fullName digest ∧
      Sorted digest (stored digest table now data isUnsolicited).1 ∧
      (∀ x, x ∈ (stored digest table now data isUnsolicited).1 ↔
        x = entry ∨ x ∈ table ∧ x.data.fullName digest ≠ data.fullName digest) ∧
      entry = entry.updateStaleTime now ∧
      ((stored digest table now data isUnsolicited).2 = true ∧ data.fullName digest ∉ keys digest table ∧
          (keys digest (stored digest table now data isUnsolicited).1).Perm
          (data.fullName digest :: keys digest table) ∨
        (stored digest table now data isUnsolicited).2 = false ∧ data.fullName digest ∈ keys digest table ∧
          keys digest (stored digest table now data isUnsolicited).1 = keys digest table) := by
  have hkey := tableInsert_fullName digest (CsEntry.updateStaleTime now ⟨data, isUnsolicited, none⟩) table
  have hspec := h.tableInsert_spec (CsEntry.updateStaleTime now ⟨data, isUnsolicited, none⟩)
  have hsorted := h.tableInsert (CsEntry.updateStaleTime now ⟨data, isUnsolicited, none⟩)
  unfold stored
  generalize Cs.tableInsert digest (CsEntry.updateStaleTime now ⟨data, isUnsolicited, none⟩) table = inserted at *
  obtain ⟨table', ⟨d, u, stale⟩, isNew⟩ := inserted
  have hdata : d.fullName digest = data.fullName digest := hkey
  have hin : data.fullName digest ∈ keys digest table' := by
    rcases hspec with ⟨-, -, hperm⟩ | ⟨-, hmem, hsame⟩
    · exact mem_keys.mpr ⟨_, hperm.mem_iff.mpr List.mem_cons_self, rfl⟩
    · have hsame' : table' = table := hsame
      rw [hsame']
      exact mem_keys.mpr ⟨_, hmem, hdata⟩
  refine ⟨{ CsEntry.updateStaleTime now ⟨d, u, stale⟩ with isUnsolicited := u && (isNew || isUnsolicited) }, hdata,
    hsorted.tableSet _, fun x => (mem_tableSet (hdata ▸ hin)).trans ?_, rfl, ?_⟩
  · refine or_congr_right ?_
    rw [show (CsEntry.updateStaleTime now ⟨d, u, stale⟩).data = d from rfl, hdata]
    rcases hspec with ⟨-, -, hperm⟩ | ⟨-, -, hsame⟩
    · refine and_congr_left fun hne => ?_
      rw [hperm.mem_iff, List.mem_cons]
      refine or_iff_right ?_
      rintro rfl
      exact hne rfl
    · have hsame' : table' = table := hsame
      rw [hsame']
  · rcases hspec with ⟨hnew, hnot, hperm⟩ | ⟨hold, -, hsame⟩
    · refine Or.inl ⟨hnew, hnot, ?_⟩
      rw [keys_tableSet]
      exact hperm.map _
    · have hsame' : table' = table := hsame
      refine Or.inr ⟨hold, hsame' ▸ hin, ?_⟩
      rw [keys_tableSet, hsame']

end Cs

/-- A content store and its policy, none of whose assertions has failed. -/
structure CsRun (ρ : Type) where
  table : List CsEntry
  policy : ρ
  now : Nat

namespace CsRun

inductive Event where
  | insert (data : Data) (isUnsolicited : Bool) (elapsed : Nat)
  | find (interest : Interest)
  | setLimit (nMaxPackets : Nat)
  | fire (id : Nat)
  | advanceClock (duration : Nat)

section Step

variable {ρ : Type} (digest : Data → List UInt8) (getSuccessor : Name → Name) (matchesData : MatchesData)
  (P : ReplacementPolicy ρ)

/-- The store after an insertion, in which the policy may have failed. -/
def inserted (s : CsRun ρ) (data : Data) (isUnsolicited : Bool) (elapsed : Nat) : Cs (Option ρ) :=
  Cs.insert digest (P.toCsPolicy elapsed) ⟨s.table, some s.policy⟩ s.now data isUnsolicited

/-- The store after a lookup, and the hit. -/
def found (s : CsRun ρ) (interest : Interest) : Cs (Option ρ) × Option Data :=
  Cs.find digest getSuccessor matchesData (P.toCsPolicy 0) ⟨s.table, some s.policy⟩ s.now interest

def step (s : CsRun ρ) : Event → Option (CsRun ρ)
  | .insert data isUnsolicited elapsed =>
      (s.inserted digest P data isUnsolicited elapsed).policy.map fun policy =>
        { table := (s.inserted digest P data isUnsolicited elapsed).table, policy, now := s.now + elapsed }
  | .find interest =>
      (s.found digest getSuccessor matchesData P interest).1.policy.map fun policy =>
        { table := (s.found digest getSuccessor matchesData P interest).1.table, policy, now := s.now }
  | .setLimit nMaxPackets =>
      (P.setLimit s.policy nMaxPackets s.table).map fun after =>
        { s with table := Cs.without digest after.2 s.table, policy := after.1 }
  | .fire id => (P.fire s.policy s.now s.table id).map fun policy => { s with policy }
  | .advanceClock duration => some { s with now := s.now + duration }

/-- The entries from which an operation evicts, and the names that it evicts, in this order. -/
def evictedBy (s : CsRun ρ) : Event → List Name × List Name
  | .insert data isUnsolicited elapsed =>
      let stored := Cs.stored digest s.table s.now data isUnsolicited
      if data.noCache || !stored.2 then (Cs.keys digest s.table, [])
      else
        (Cs.keys digest stored.1,
          ((P.toCsPolicy elapsed).afterInsert (some s.policy) s.now stored.1 (data.fullName digest)).2)
  | .setLimit nMaxPackets => (Cs.keys digest s.table, ((P.setLimit s.policy nMaxPackets s.table).map (·.2)).getD [])
  | _ => (Cs.keys digest s.table, [])

/-- The name of the entry that an operation inserts, refreshes or hits. -/
def usedBy (s : CsRun ρ) : Event → Option Name
  | .insert data _ _ => if data.noCache then none else some (data.fullName digest)
  | .find interest => (s.found digest getSuccessor matchesData P interest).2.map (Data.fullName digest)
  | _ => none

/-- A new store (the constructor sets the limit). -/
def start (initial : ρ) (nMaxPackets : Nat) : Option (CsRun ρ) :=
  (P.setLimit initial nMaxPackets []).map fun after => { table := [], policy := after.1, now := 0 }

end Step

end CsRun

/-- Each entry is there when it is evicted, and meets a condition on it and the entries left. -/
def EachEvicted (E : List Name → Name → Prop) : List Name → List Name → Prop
  | _, [] => True
  | keys, k :: evicted => k ∈ keys ∧ E keys k ∧ EachEvicted E (keys.erase k) evicted

/-- What one eviction keeps holds after the loop, which leaves no more entries than the limit. -/
theorem evictWhile_spec {ρ : Type} {evictOne : ρ → Option (ρ × Name)} {limit : Nat} {I : List Name → ρ → Prop}
    {E : List Name → Name → Prop}
    (hone : ∀ keys p, I keys p → limit < keys.length →
      ∃ p' k, evictOne p = some (p', k) ∧ k ∈ keys ∧ E keys k ∧ I (keys.erase k) p') (fuel : Nat) :
    ∀ {keys : List Name} {p : ρ}, keys.length ≤ fuel → I keys p →
      ∃ p' evicted, evictWhile evictOne limit fuel keys p = some (p', evicted) ∧ EachEvicted E keys evicted ∧
        I (keys.diff evicted) p' ∧ (keys.diff evicted).length ≤ limit := by
  induction fuel with
  | zero =>
      intro keys p hfuel hI
      have hle : keys.length ≤ limit := (Nat.le_zero.mp hfuel).le.trans (Nat.zero_le _)
      exact ⟨p, [], by rw [evictWhile, if_neg (Nat.not_lt.mpr hle)], trivial, hI, hle⟩
  | succ fuel ih =>
      intro keys p hfuel hI
      rw [evictWhile]
      by_cases hload : limit < keys.length
      · obtain ⟨p₁, k, hevict, hk, hE, hI₁⟩ := hone keys p hI hload
        have hlength := List.length_erase_of_mem hk
        obtain ⟨p', evicted, hrest, heach, hI', hle⟩ := ih (by omega) hI₁
        refine ⟨p', k :: evicted, ?_, ⟨hk, hE, heach⟩, ?_, ?_⟩
        · rw [if_pos hload, hevict, Option.bind_some, if_pos hk, hrest]
          rfl
        · rwa [List.diff_cons]
        · rwa [List.diff_cons]
      · exact ⟨p, [], if_neg hload, trivial, hI, Nat.not_lt.mp hload⟩

/-- As many entries are evicted as there are too many. -/
theorem evictWhile_length {ρ : Type} {evictOne : ρ → Option (ρ × Name)} {limit : Nat} (fuel : Nat) :
    ∀ {keys evicted : List Name} {p p' : ρ}, evictWhile evictOne limit fuel keys p = some (p', evicted) →
      evicted.length = keys.length - limit := by
  induction fuel with
  | zero =>
      intro keys evicted p p' h
      rw [evictWhile] at h
      split at h
      · cases h
      · cases h
        exact (Nat.sub_eq_zero_of_le (Nat.not_lt.mp ‹_›)).symm
  | succ fuel ih =>
      intro keys evicted p p' h
      rw [evictWhile] at h
      split at h
      · obtain ⟨⟨p₁, k⟩, -, hrest⟩ := Option.bind_eq_some_iff.mp h
        split at hrest
        · obtain ⟨⟨p₂, later⟩, hlater, heq⟩ := Option.map_eq_some_iff.mp hrest
          cases heq
          have hlength := ih hlater
          rw [List.length_erase_of_mem ‹_›] at hlength
          rw [List.length_cons, hlength]
          omega
        · cases hrest
      · cases h
        exact (Nat.sub_eq_zero_of_le (Nat.not_lt.mp ‹_›)).symm

theorem EachEvicted.length_diff {E : List Name → Name → Prop} :
    ∀ {keys evicted : List Name}, EachEvicted E keys evicted →
      (keys.diff evicted).length = keys.length - evicted.length
  | keys, [], _ => rfl
  | keys, k :: evicted, h => by
      obtain ⟨hk, -, hrest⟩ := h
      rw [List.diff_cons, hrest.length_diff, List.length_erase_of_mem hk, List.length_cons, Nat.sub_sub, Nat.add_comm 1]

namespace Cs

variable {digest : Data → List UInt8} {table : List CsEntry}

theorem Sorted.keys_without (h : Sorted digest table) (evicted : List Name) :
    keys digest (without digest evicted table) = (keys digest table).diff evicted := by
  rw [h.keys_nodup.sdiff_eq_filter, keys, keys, without, List.filter_map]
  congr 1
  refine List.filter_congr fun e _ => ?_
  rw [Function.comp_apply, List.contains_eq_mem, decide_not]

theorem Sorted.without (h : Sorted digest table) (evicted : List Name) :
    Sorted digest (without digest evicted table) :=
  h.filter _

end Cs

namespace CsRun

variable {ρ : Type} {digest : Data → List UInt8} {getSuccessor : Name → Name} {matchesData : MatchesData}
  {P : ReplacementPolicy ρ} {s : CsRun ρ} {data : Data} {isUnsolicited : Bool} {elapsed : Nat}

/-! ### Steps -/

theorem step_insert_noCache (getSuccessor : Name → Name) (matchesData : MatchesData) (hcache : data.noCache = true) :
    s.step digest getSuccessor matchesData P (.insert data isUnsolicited elapsed) =
      some { s with now := s.now + elapsed } := by
  rw [step, inserted, Cs.insert_eq, if_pos hcache]
  rfl

theorem step_insert_new (getSuccessor : Name → Name) (matchesData : MatchesData) (hcache : data.noCache = false)
    (hnew : (Cs.stored digest s.table s.now data isUnsolicited).2 = true) {policy : ρ} {evicted : List Name}
    (hafter : P.doAfterInsert s.policy (s.now + elapsed) (Cs.stored digest s.table s.now data isUnsolicited).1
      (data.fullName digest) = some (policy, evicted)) :
    s.step digest getSuccessor matchesData P (.insert data isUnsolicited elapsed) =
        some { table := Cs.without digest evicted (Cs.stored digest s.table s.now data isUnsolicited).1
               policy, now := s.now + elapsed } ∧
      s.evictedBy digest P (.insert data isUnsolicited elapsed) =
        (Cs.keys digest (Cs.stored digest s.table s.now data isUnsolicited).1, evicted) := by
  have htold : (P.toCsPolicy elapsed).afterInsert (some s.policy) s.now
      (Cs.stored digest s.table s.now data isUnsolicited).1 (data.fullName digest) = (some policy, evicted) := by
    dsimp only [ReplacementPolicy.toCsPolicy]
    rw [Option.bind_some, hafter]
  constructor
  · rw [step, inserted, Cs.insert_eq, if_neg (by rw [hcache]; exact Bool.false_ne_true), if_pos hnew, htold]
    rfl
  · dsimp only [evictedBy]
    rw [hcache, hnew, htold]
    rfl

theorem step_insert_refresh (getSuccessor : Name → Name) (matchesData : MatchesData) (P : ReplacementPolicy ρ)
    (elapsed : Nat) (hcache : data.noCache = false)
    (hold : (Cs.stored digest s.table s.now data isUnsolicited).2 = false) :
    s.step digest getSuccessor matchesData P (.insert data isUnsolicited elapsed) =
        (P.doAfterRefresh s.policy (s.now + elapsed) (Cs.stored digest s.table s.now data isUnsolicited).1
          (data.fullName digest)).map fun policy =>
            { table := (Cs.stored digest s.table s.now data isUnsolicited).1, policy, now := s.now + elapsed } := by
  rw [step, inserted, Cs.insert_eq, if_neg (by rw [hcache]; exact Bool.false_ne_true),
    if_neg (by rw [hold]; exact Bool.false_ne_true)]
  rfl

/-- An insertion that finds the entry evicts nothing. -/
theorem evictedBy_insert (h : data.noCache = true ∨ (Cs.stored digest s.table s.now data isUnsolicited).2 = false) :
    s.evictedBy digest P (.insert data isUnsolicited elapsed) = (Cs.keys digest s.table, []) := by
  dsimp only [evictedBy]
  refine if_pos ?_
  rcases h with hcache | hold
  · rw [hcache, Bool.true_or]
  · rw [hold, Bool.not_false, Bool.or_true]

/-- A lookup uses the entry that it hits. -/
theorem found_cases (digest : Data → List UInt8) (getSuccessor : Name → Name) (matchesData : MatchesData)
    (P : ReplacementPolicy ρ) (s : CsRun ρ) (interest : Interest) :
    s.found digest getSuccessor matchesData P interest = (⟨s.table, some s.policy⟩, none) ∨
    ∃ e ∈ s.table, s.found digest getSuccessor matchesData P interest =
      (⟨s.table, P.doBeforeUse s.policy s.now s.table (e.data.fullName digest)⟩, some e.data) := by
  cases hfound : (s.found digest getSuccessor matchesData P interest).2 with
  | none =>
      refine Or.inl ?_
      unfold found Cs.find at hfound ⊢
      dsimp only at hfound ⊢
      split
      · rfl
      · rename_i hmatch
        rw [hmatch] at hfound
        cases hfound
  | some data =>
      obtain ⟨e, he, hdata, -⟩ := Cs.find_some hfound
      refine Or.inr ⟨e, he, ?_⟩
      unfold found Cs.find at hfound ⊢
      dsimp only at hfound ⊢
      split
      · rename_i hmatch
        rw [hmatch] at hfound
        cases hfound
      · rename_i hmatch
        rw [hmatch] at hfound
        rw [Option.some.inj hfound, ← hdata]
        rfl

theorem step_find (digest : Data → List UInt8) (getSuccessor : Name → Name) (matchesData : MatchesData)
    (P : ReplacementPolicy ρ) (s : CsRun ρ) (interest : Interest) :
    s.step digest getSuccessor matchesData P (.find interest) = some s ∧
        s.usedBy digest getSuccessor matchesData P (.find interest) = none ∨
      ∃ e ∈ s.table, s.step digest getSuccessor matchesData P (.find interest) =
          ((P.doBeforeUse s.policy s.now s.table (e.data.fullName digest)).map fun policy => { s with policy }) ∧
        s.usedBy digest getSuccessor matchesData P (.find interest) = some (e.data.fullName digest) := by
  rcases s.found_cases digest getSuccessor matchesData P interest with hmiss | ⟨e, he, hhit⟩
  · refine Or.inl ⟨?_, ?_⟩
    · rw [step, hmiss]
      rfl
    · rw [usedBy, hmiss]
      rfl
  · refine Or.inr ⟨e, he, ?_, ?_⟩
    · rw [step, hhit]
    · rw [usedBy, hhit]
      rfl

end CsRun
end NfdPitless
