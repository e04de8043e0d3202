import NfdPitless.Lists
import Mathlib.Order.Lattice

/-! A map that is kept in the order of its keys, as `std::map` is, and the places that an iterator into it can be moved
to: the first key that is not less than a given one, and the one before. -/

namespace NfdPitless

/-- The entries in ascending order of the keys, one for a key. -/
structure OrderedMap (κ ν : Type) [LinearOrder κ] where
  entries : List (κ × ν)
  sorted : entries.Pairwise fun a b => a.1 < b.1

namespace OrderedMap

variable {κ ν : Type} [LinearOrder κ] {m : OrderedMap κ ν} {k q : κ} {v : ν} {e x : κ × ν} {l rest : List (κ × ν)}

def empty : OrderedMap κ ν := ⟨[], List.Pairwise.nil⟩

/-- The entries with one more, or with the value of its key changed. -/
def setIn (k : κ) (v : ν) : List (κ × ν) → List (κ × ν)
  | [] => [(k, v)]
  | e :: rest => if k < e.1 then (k, v) :: e :: rest else if e.1 = k then (k, v) :: rest else e :: setIn k v rest

/-- A key of the list is the new one or an old one. -/
theorem mem_setIn (h : e ∈ setIn k v l) : e = (k, v) ∨ e ∈ l := by
  induction l with
  | nil => exact Or.inl (List.mem_singleton.mp h)
  | cons x rest ih =>
      rw [setIn] at h
      split at h
      · exact List.mem_cons.mp h
      · split at h
        · exact (List.mem_cons.mp h).imp_right (List.mem_cons_of_mem x)
        · rcases List.mem_cons.mp h with rfl | hrest
          · exact Or.inr List.mem_cons_self
          · exact (ih hrest).imp_right (List.mem_cons_of_mem x)

theorem sorted_setIn (h : l.Pairwise fun a b => a.1 < b.1) (k : κ) (v : ν) :
    (setIn k v l).Pairwise fun a b => a.1 < b.1 := by
  induction l with
  | nil => exact List.pairwise_singleton _ _
  | cons x rest ih =>
      obtain ⟨hhead, htail⟩ := List.pairwise_cons.mp h
      rw [setIn]
      split
      · rename_i hlt
        refine List.pairwise_cons.mpr ⟨List.forall_mem_cons.mpr ⟨hlt, fun e he => hlt.trans (hhead e he)⟩, h⟩
      · rename_i hge
        split
        · rename_i heq
          exact List.pairwise_cons.mpr ⟨heq ▸ hhead, htail⟩
        · rename_i hne
          refine List.pairwise_cons.mpr ⟨fun e he => ?_, ih htail⟩
          rcases mem_setIn he with rfl | hold
          · exact lt_of_le_of_ne (not_lt.mp hge) hne
          · exact hhead e hold

/-- `m[k] = v`. -/
def set (m : OrderedMap κ ν) (k : κ) (v : ν) : OrderedMap κ ν := ⟨setIn k v m.entries, sorted_setIn m.sorted k v⟩

/-- `m.find(k)`. -/
def find? (m : OrderedMap κ ν) (k : κ) : Option ν := (m.entries.find? fun e => e.1 = k).map Prod.snd

/-- From `m.lower_bound(k)` on. -/
def lowerBound (m : OrderedMap κ ν) (k : κ) : List (κ × ν) := m.entries.dropWhile fun e => e.1 < k

/-- What comes before `m.lower_bound(k)`; the iterator before it points at the last of these. -/
def before (m : OrderedMap κ ν) (k : κ) : List (κ × ν) := m.entries.takeWhile fun e => e.1 < k

theorem find?_isSome_iff : (m.find? k).isSome ↔ ∃ e ∈ m.entries, e.1 = k := by
  rw [find?, Option.isSome_map, List.find?_isSome]
  exact exists_congr fun e => and_congr_right fun _ => decide_eq_true_iff

/-- A new key adds an entry. -/
theorem mem_set_iff (h : ∀ e ∈ m.entries, e.1 ≠ k) : e ∈ (m.set k v).entries ↔ e = (k, v) ∨ e ∈ m.entries := by
  obtain ⟨l, hsorted⟩ := m
  dsimp only [set] at h ⊢
  induction l with
  | nil => exact List.mem_cons
  | cons x rest ih =>
      rw [setIn]
      split
      · exact List.mem_cons
      · rw [if_neg (h x List.mem_cons_self), List.mem_cons,
          ih (List.pairwise_cons.mp hsorted).2 fun e he => h e (List.mem_cons_of_mem x he), List.mem_cons, or_left_comm]

theorem keys_nodup (m : OrderedMap κ ν) : (m.entries.map Prod.fst).Nodup :=
  List.pairwise_map.mpr (m.sorted.imp ne_of_lt)

/-- There is one entry for a key. -/
theorem eq_of_key_eq (he : e ∈ m.entries) (hx : x ∈ m.entries) (h : e.1 = x.1) : e = x :=
  List.inj_on_of_nodup_map m.keys_nodup he hx h

theorem mem_before_iff : e ∈ m.before k ↔ e ∈ m.entries ∧ e.1 < k :=
  (Lists.Splits.of_sorted m.sorted k).mem_takeWhile_iff.trans (and_congr_right fun _ => decide_eq_true_iff)

theorem mem_lowerBound_iff : e ∈ m.lowerBound k ↔ e ∈ m.entries ∧ k ≤ e.1 :=
  (Lists.Splits.of_sorted m.sorted k).mem_dropWhile_iff.trans
    (and_congr_right fun _ => decide_eq_false_iff_not.trans not_lt)

/-- The iterator that `lower_bound` returns points at the least key that is not less. -/
theorem head_lowerBound_le (h : m.lowerBound k = e :: rest) (hx : x ∈ m.entries) (hle : k ≤ x.1) : e.1 ≤ x.1 := by
  have hsorted := m.sorted.sublist (List.dropWhile_suffix fun e => decide (e.1 < k)).sublist
  have hmem : x ∈ e :: rest := h ▸ mem_lowerBound_iff.mpr ⟨hx, hle⟩
  rw [← lowerBound, h] at hsorted
  rcases List.mem_cons.mp hmem with rfl | hrest
  · exact le_rfl
  · exact ((List.pairwise_cons.mp hsorted).1 x hrest).le

/-- The iterator before it points at the greatest key that is less. -/
theorem le_getLast_before (h : (m.before k).getLast? = some e) :
    e ∈ m.entries ∧ e.1 < k ∧ ∀ x ∈ m.entries, x.1 < k → x.1 ≤ e.1 := by
  obtain ⟨init, hinit⟩ := List.getLast?_eq_some_iff.mp h
  obtain ⟨he, hlt⟩ := mem_before_iff.mp (hinit ▸ List.mem_append_right init List.mem_cons_self)
  refine ⟨he, hlt, fun x hx hxk => ?_⟩
  have hsorted := m.sorted.sublist (List.takeWhile_prefix fun e => decide (e.1 < k)).sublist
  have hmem : x ∈ init ++ [e] := hinit ▸ mem_before_iff.mpr ⟨hx, hxk⟩
  rw [← before, hinit] at hsorted
  rcases List.mem_append.mp hmem with hfront | hlast
  · exact ((List.pairwise_append.mp hsorted).2.2 x hfront e List.mem_cons_self).le
  · exact (congrArg Prod.fst (List.mem_singleton.mp hlast)).le

theorem not_lt_of_before_eq_nil (h : m.before k = []) (hx : x ∈ m.entries) : ¬ x.1 < k := fun hlt => by
  have hmem := mem_before_iff.mpr ⟨hx, hlt⟩
  rw [h] at hmem
  cases hmem

end OrderedMap

end NfdPitless
