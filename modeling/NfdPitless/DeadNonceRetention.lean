import NfdPitless.DeadNonceList
import NfdPitless.Runs

/-! How long the Dead Nonce List keeps an entry. The integer a capacity is rescaled to, which the code computes in
floating point, is a parameter of the operation. -/

namespace NfdPitless.DeadNonceList

/-- `evictEntries` with its assertion. -/
def evictEntriesAsserted (l : DeadNonceList) : Option DeadNonceList :=
  if l.queue.length ≤ l.capacity then some l
  else if l.capacity ≤ l.evictEntries.queue.length then some l.evictEntries
  else none

inductive Op where
  | add (name : Name) (nonce : UInt32)
  | mark
  /-- What the capacity is rescaled to if it goes down, and if it goes up. -/
  | adjustCapacity (down up : Nat)
  deriving DecidableEq

/-- `adjustCapacity` up to the eviction. -/
def rescaled (l : DeadNonceList) (down up : Nat) : DeadNonceList :=
  let capacity :=
    if l.actualMarkCounts.all fun n => expectedMarkCount < n then max minCapacity down
    else if l.actualMarkCounts.all fun n => n < expectedMarkCount then min maxCapacity up
    else l.capacity
  { l with capacity, actualMarkCounts := [] }

theorem adjustCapacity_eq (l : DeadNonceList) :
    l.adjustCapacity = (l.rescaled (l.capacity * 9 / 10) (l.capacity * 12 / 10)).evictEntries := rfl

variable (makeEntry : Name → UInt32 → UInt64)

def step (l : DeadNonceList) : Op → Option DeadNonceList
  | .add name nonce => evictEntriesAsserted { l with queue := l.queue ++ [makeEntry name nonce] }
  | .mark => some l.mark
  | .adjustCapacity down up => (l.rescaled down up).evictEntriesAsserted

/-- What an operation pushes to the queue. -/
def Op.pushed : Op → List UInt64
  | .add name nonce => [makeEntry name nonce]
  | .mark => [markEntry]
  | .adjustCapacity _ _ => []

/-- Rescaling down does not raise the capacity, and rescaling up does not lower it. -/
def rescales (l : DeadNonceList) : Op → Bool
  | .adjustCapacity down up => decide (down ≤ l.capacity) && decide (l.capacity ≤ up)
  | _ => true

variable {makeEntry} {l l' : DeadNonceList} {op : Op}

theorem evictEntries_length (l : DeadNonceList) :
    l.evictEntries.queue.length = l.queue.length - min (l.queue.length - l.capacity) evictLimit :=
  List.length_drop

theorem evictEntriesAsserted_eq (l : DeadNonceList) : l.evictEntriesAsserted = some l.evictEntries := by
  have hlen := evictEntries_length l
  rw [evictEntriesAsserted]
  split
  · rename_i hle
    have hnone : l.queue.length - l.capacity = 0 := Nat.sub_eq_zero_of_le hle
    simp [evictEntries, hnone]
  · rw [if_pos (by omega)]

/-- No operation but an eviction follows what it pushes and a rescaling. -/
theorem step_cases (h : step makeEntry l op = some l') :
    (∃ name nonce, op = .add name nonce ∧ l' = l.add makeEntry name nonce) ∨ (op = .mark ∧ l' = l.mark) ∨
      ∃ down up, op = .adjustCapacity down up ∧ l' = (l.rescaled down up).evictEntries := by
  cases op with
  | add name nonce =>
      rw [step, evictEntriesAsserted_eq] at h
      exact .inl ⟨name, nonce, rfl, (Option.some.inj h).symm⟩
  | mark => exact .inr (.inl ⟨rfl, (Option.some.inj h).symm⟩)
  | adjustCapacity down up =>
      rw [step, evictEntriesAsserted_eq] at h
      exact .inr (.inr ⟨down, up, rfl, (Option.some.inj h).symm⟩)

/-- The entries evicted are the first ones of the queue, the new entry being the last. -/
theorem step_drops (makeEntry : Name → UInt32 → UInt64) (l : DeadNonceList) (op : Op) :
    ∃ l' n, step makeEntry l op = some l' ∧ l'.queue = (l.queue ++ op.pushed makeEntry).drop n := by
  cases op with
  | add name nonce => exact ⟨_, _, evictEntriesAsserted_eq _, rfl⟩
  | mark => exact ⟨_, 0, rfl, rfl⟩
  | adjustCapacity down up =>
      refine ⟨_, min ((l.rescaled down up).queue.length - (l.rescaled down up).capacity) evictLimit,
        evictEntriesAsserted_eq _, ?_⟩
      rw [Op.pushed, List.append_nil]
      rfl

theorem add_length_le (makeEntry : Name → UInt32 → UInt64) (l : DeadNonceList) (name : Name) (nonce : UInt32) :
    (l.add makeEntry name nonce).queue.length ≤ max l.queue.length l.capacity := by
  have hlen := evictEntries_length { l with queue := l.queue ++ [makeEntry name nonce] }
  have hpos : 1 ≤ evictLimit := by decide
  dsimp only at hlen
  rw [List.length_append, List.length_singleton] at hlen
  rw [add, hlen]
  omega

/-- The capacity is within its bounds, and once anything has been evicted there are `minCapacity` entries. -/
structure Retaining (l : DeadNonceList) : Prop where
  min_le : minCapacity ≤ l.capacity
  le_max : l.capacity ≤ maxCapacity
  retains : l.nEvicted = 0 ∨ minCapacity ≤ l.queue.length

theorem Retaining.initially : Retaining new := ⟨by decide, by decide, .inl rfl⟩

theorem Retaining.pushed (h : Retaining l) (x : UInt64) (counts : List Nat) :
    Retaining { l with queue := l.queue ++ [x], actualMarkCounts := counts } := by
  refine ⟨h.min_le, h.le_max, h.retains.imp_right fun hlen => ?_⟩
  rw [List.length_append]
  exact hlen.trans (Nat.le_add_right _ _)

theorem Retaining.evictEntries (h : Retaining l) : Retaining l.evictEntries := by
  refine ⟨h.min_le, h.le_max, ?_⟩
  have hmin := h.min_le
  have hlen := evictEntries_length l
  rcases Nat.eq_zero_or_pos (min (l.queue.length - l.capacity) evictLimit) with hnone | hsome
  · rw [hlen, hnone]
    refine h.retains.imp_left fun hev => ?_
    rw [DeadNonceList.evictEntries, hnone]
    exact hev
  · -- the eviction stops at the capacity
    right
    omega

theorem Retaining.rescaled (h : Retaining l) {down up : Nat} (hdown : down ≤ l.capacity) (hup : l.capacity ≤ up) :
    Retaining (l.rescaled down up) := by
  have hmin := h.min_le
  have hmax := h.le_max
  have hbounds : minCapacity ≤ maxCapacity := by decide
  refine ⟨?_, ?_, h.retains⟩ <;> · simp only [DeadNonceList.rescaled]; split_ifs <;> omega

theorem Retaining.step (h : Retaining l) (hok : rescales l op = true) (hs : step makeEntry l op = some l') :
    Retaining l' := by
  obtain ⟨name, nonce, rfl, rfl⟩ | ⟨rfl, rfl⟩ | ⟨down, up, rfl, rfl⟩ := step_cases hs
  · exact (h.pushed _ _).evictEntries
  · exact h.pushed _ _
  · rw [rescales, Bool.and_eq_true, decide_eq_true_iff, decide_eq_true_iff] at hok
    exact (h.rescaled hok.1 hok.2).evictEntries

theorem reach_retaining (hr : Reach (DeadNonceList.step makeEntry) (fun l op => rescales l op = true) new l) :
    Retaining l :=
  hr.invariant .initially fun _ _ _ h hok hs => h.step hok hs

theorem rescaled_later (l : DeadNonceList) (down up : Nat) : Later l (l.rescaled down up) :=
  ⟨le_rfl, fun _ _ => rfl, le_rfl, Nat.le_add_right _ _⟩

theorem evictEntries_nextIndex (l : DeadNonceList) : l.evictEntries.nextIndex = l.nextIndex := by
  have hlen := evictEntries_length l
  rw [nextIndex, hlen, nextIndex, evictEntries]
  dsimp only
  omega

theorem step_later (hs : step makeEntry l op = some l') :
    Later l l' ∧ l'.nextIndex = l.nextIndex + (op.pushed makeEntry).length := by
  obtain ⟨name, nonce, rfl, rfl⟩ | ⟨rfl, rfl⟩ | ⟨down, up, rfl, rfl⟩ := step_cases hs
  · exact ⟨add_later l name nonce, add_nextIndex makeEntry l name nonce⟩
  · refine ⟨mark_later l, ?_⟩
    rw [nextIndex, mark, List.length_append, ← Nat.add_assoc]
    rfl
  · exact ⟨(rescaled_later l down up).trans (evictEntries_later _), evictEntries_nextIndex _⟩

/-- What a list of operations pushes. -/
def pushed (makeEntry : Name → UInt32 → UInt64) (ops : List Op) : List UInt64 := ops.flatMap (Op.pushed makeEntry)

theorem exec_later : ∀ {l l' : DeadNonceList} {ops : List Op}, Retaining l →
    exec (guarded (step makeEntry) rescales) l ops = some l' →
      Retaining l' ∧ Later l l' ∧ l'.nextIndex = l.nextIndex + (pushed makeEntry ops).length
  | l, l', [], h, hx => by
      cases hx
      exact ⟨h, .refl l, rfl⟩
  | l, l', op :: ops, h, hx => by
      obtain ⟨l1, hs, hx⟩ := Option.bind_eq_some_iff.mp hx
      rw [guarded] at hs
      split at hs
      · rename_i hok
        obtain ⟨hlater, hnext⟩ := step_later hs
        obtain ⟨h', hlater', hnext'⟩ := exec_later (h.step hok hs) hx
        refine ⟨h', hlater.trans hlater', ?_⟩
        have hcons : pushed makeEntry (op :: ops) = op.pushed makeEntry ++ pushed makeEntry ops := rfl
        rw [hnext', hnext, hcons, List.length_append, Nat.add_assoc]
      · cases hs

/-- The last `minCapacity` entries have not been evicted. -/
theorem Retaining.nEvicted_le (h : Retaining l) {k : Nat} (hk : l.nextIndex ≤ k + minCapacity) : l.nEvicted ≤ k := by
  rw [nextIndex] at hk
  rcases h.retains with h0 | hlen <;> omega

theorem Retaining.has_added (h : Retaining l) {name : Name} {nonce : UInt32} {ops : List Op}
    (hx : exec (guarded (DeadNonceList.step makeEntry) rescales) (l.add makeEntry name nonce) ops = some l')
    (hpushed : (DeadNonceList.pushed makeEntry ops).length < minCapacity) : l'.has makeEntry name nonce = true := by
  have hadded : Retaining (l.add makeEntry name nonce) := (h.pushed _ _).evictEntries
  obtain ⟨h', hlater, hnext⟩ := exec_later hadded hx
  have hadd := add_nextIndex makeEntry l name nonce
  have hkept : (l.add makeEntry name nonce).nEvicted ≤ l.nextIndex := hadded.nEvicted_le (by omega)
  have hkept' : l'.nEvicted ≤ l.nextIndex := h'.nEvicted_le (by omega)
  have hat := hlater.entryAt_eq (by omega) hkept'
  rw [add_entryAt l name nonce hkept] at hat
  exact has_of_entryAt hat

/-- With a rescaling down that does not raise the capacity and a rescaling up that does not lower it, the capacity
stays within its bounds, no operation fails, and an entry is found until `minCapacity` others have followed it. -/
theorem deadNonceList_retention (hr : Reach (step makeEntry) (fun l op => rescales l op = true) new l) :
    (minCapacity ≤ l.capacity ∧ l.capacity ≤ maxCapacity) ∧
      (∀ op, ∃ l' n, step makeEntry l op = some l' ∧ l'.queue = (l.queue ++ op.pushed makeEntry).drop n) ∧
        ∀ name nonce, step makeEntry l (.add name nonce) = some (l.add makeEntry name nonce) ∧
          (l.add makeEntry name nonce).queue.length ≤ max l.queue.length l.capacity ∧
            ∀ ops l', exec (guarded (step makeEntry) rescales) (l.add makeEntry name nonce) ops = some l' →
              (pushed makeEntry ops).length < minCapacity → l'.has makeEntry name nonce = true := by
  have h := reach_retaining hr
  refine ⟨⟨h.min_le, h.le_max⟩, step_drops makeEntry l, fun name nonce => ?_⟩
  exact ⟨evictEntriesAsserted_eq _, add_length_le makeEntry l name nonce, fun ops l' => h.has_added⟩

/-- A list with one count above the expected one goes down to any integer. -/
theorem deadNonceList_unbounded : ∃ l, Reach (step fun _ _ => 1) anyStep new l ∧ maxCapacity < l.capacity := by
  refine ⟨(new.mark.rescaled (2 ^ 30) 0).evictEntries, ?_, by decide⟩
  have hmark : Reach (step fun _ _ => 1) anyStep new new.mark := .next .mark .start trivial rfl
  exact hmark.next (.adjustCapacity (2 ^ 30) 0) trivial (evictEntriesAsserted_eq _)

/-- Seven marks after it, an entry is still there. -/
theorem deadNonceList_retains : (new.mark.add (fun _ _ => 1) [] 0).mark.mark.mark.mark.mark.mark.mark.has
    (fun _ _ => 1) [] 0 = true := by
  have hmark : Reach (step fun _ _ => 1) (fun l op => rescales l op = true) new new.mark := .next .mark .start rfl rfl
  exact ((deadNonceList_retention hmark).2.2 [] 0).2.2 (List.replicate 7 .mark) _ rfl (by decide)

end NfdPitless.DeadNonceList
