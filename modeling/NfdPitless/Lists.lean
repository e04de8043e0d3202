import Mathlib.Data.List.Basic
import Mathlib.Data.List.MinMax
import Mathlib.Data.List.Nodup
import Mathlib.Data.List.TakeWhile

/-! Lists used as containers: erasing an element of a vector by overwriting it with the last one,
the first element of a list that a predicate accepts, and the two parts of a list that a predicate
splits. -/

namespace NfdPitless.Lists

variable {α : Type}

/-- Erase one occurrence of `a` as `v[i] = v.back(); v.pop_back()` does. -/
def swapPop [DecidableEq α] (l : List α) (a : α) : List α :=
  match l.getLast? with
  | none => []
  | some last => if a ∈ l then (l.set (l.idxOf a) last).dropLast else l

theorem swapPop_perm_erase [DecidableEq α] (l : List α) (a : α) : (swapPop l a).Perm (l.erase a) := by
  rcases List.eq_nil_or_concat l with rfl | ⟨init, last, rfl⟩
  · simp [swapPop]
  · simp only [List.concat_eq_append, swapPop, List.getLast?_append, List.getLast?_singleton,
      Option.some_or]
    by_cases hmem : a ∈ init
    · rw [if_pos (List.mem_append_left _ hmem), List.idxOf_append_of_mem hmem,
        List.set_append_left _ _ (List.idxOf_lt_length_of_mem hmem), List.dropLast_concat,
        List.erase_append_left _ hmem]
      have hsplit := List.take_append_drop (init.idxOf a) init
      rw [List.set_eq_take_append_cons_drop, if_pos (List.idxOf_lt_length_of_mem hmem),
        ← List.eraseIdx_idxOf_eq_erase, List.eraseIdx_eq_take_drop_succ]
      exact (List.perm_middle.trans (List.perm_append_singleton _ _).symm)
    · by_cases hlast : a = last
      · subst hlast
        rw [if_pos (by simp), List.idxOf_append_of_notMem hmem, List.erase_append_right _ hmem]
        simp
      · have hnot : a ∉ init ++ [last] := by simp [hmem, hlast]
        rw [if_neg hnot, List.erase_of_not_mem hnot]

theorem mem_swapPop [DecidableEq α] {l : List α} (hl : l.Nodup) {a b : α} :
    b ∈ swapPop l a ↔ b ∈ l ∧ b ≠ a := by
  rw [(swapPop_perm_erase l a).mem_iff, hl.mem_erase_iff]
  exact and_comm

theorem nodup_swapPop [DecidableEq α] {l : List α} (hl : l.Nodup) (a : α) : (swapPop l a).Nodup :=
  (swapPop_perm_erase l a).nodup_iff.mpr (hl.erase a)

/-- Replace the first element that `p` accepts. -/
def replaceFirst (p : α → Bool) (a : α) : List α → List α
  | [] => []
  | x :: l => if p x then a :: l else x :: replaceFirst p a l

/-- Replace the first element that `p` accepts, or put `a` in front if there is none. -/
def replaceOrCons (p : α → Bool) (a : α) (l : List α) : List α :=
  if l.any p then replaceFirst p a l else a :: l

section Keyed

variable {κ : Type} [DecidableEq κ] {key : α → κ} {a : α} {l : List α}

theorem replaceFirst_map (hany : ∃ x ∈ l, key x = key a) :
    (replaceFirst (fun x => key x == key a) a l).map key = l.map key := by
  induction l with
  | nil => rfl
  | cons x l ih =>
      rw [replaceFirst]
      by_cases hx : key x = key a
      · simp [hx]
      · have hany' : ∃ y ∈ l, key y = key a := by
          obtain ⟨y, hy, hky⟩ := hany
          rcases List.mem_cons.mp hy with rfl | hy
          · exact absurd hky hx
          · exact ⟨y, hy, hky⟩
        simp [hx, ih hany']

theorem mem_replaceFirst (hl : (l.map key).Nodup) {b : α} :
    b ∈ replaceFirst (fun x => key x == key a) a l ↔
      (b = a ∧ ∃ x ∈ l, key x = key a) ∨ (b ∈ l ∧ key b ≠ key a) := by
  induction l with
  | nil => simp [replaceFirst]
  | cons x l ih =>
      rw [List.map_cons, List.nodup_cons] at hl
      rw [replaceFirst]
      by_cases hx : key x = key a
      · have hno : ∀ y ∈ l, key y ≠ key a := by
          intro y hy hky
          exact hl.1 (List.mem_map.mpr ⟨y, hy, hky.trans hx.symm⟩)
        simp only [beq_iff_eq, hx, if_true, List.mem_cons, exists_eq_or_imp, true_or, and_true]
        constructor
        · rintro (rfl | hb)
          · exact Or.inl rfl
          · exact Or.inr ⟨Or.inr hb, hno b hb⟩
        · rintro (rfl | ⟨rfl | hb, hne⟩)
          · exact Or.inl rfl
          · exact absurd hx hne
          · exact Or.inr hb
      · simp only [beq_iff_eq, hx, if_false, List.mem_cons, ih hl.2, exists_eq_or_imp, false_or]
        constructor
        · rintro (rfl | h | ⟨hb, hne⟩)
          · exact Or.inr ⟨Or.inl rfl, hx⟩
          · exact Or.inl h
          · exact Or.inr ⟨Or.inr hb, hne⟩
        · rintro (h | ⟨rfl | hb, hne⟩)
          · exact Or.inr (Or.inl h)
          · exact Or.inl rfl
          · exact Or.inr (Or.inr ⟨hb, hne⟩)

/-- With keys that occur once, the element of `a`'s key becomes `a` and every other one stays. -/
theorem mem_replaceOrCons (key : α → κ) (hl : (l.map key).Nodup) {b : α} :
    b ∈ replaceOrCons (fun x => key x == key a) a l ↔ b = a ∨ (b ∈ l ∧ key b ≠ key a) := by
  by_cases hany : ∃ x ∈ l, key x = key a
  · have h : l.any (fun x => key x == key a) = true := by simpa using hany
    rw [replaceOrCons, if_pos h, mem_replaceFirst hl]
    simp [hany]
  · have h : ¬ l.any (fun x => key x == key a) = true := by simpa using hany
    rw [replaceOrCons, if_neg h, List.mem_cons]
    constructor
    · rintro (rfl | hb)
      · exact Or.inl rfl
      · exact Or.inr ⟨hb, fun hkb => hany ⟨b, hb, hkb⟩⟩
    · rintro (rfl | ⟨hb, -⟩)
      · exact Or.inl rfl
      · exact Or.inr hb

theorem nodup_replaceOrCons (key : α → κ) (hl : (l.map key).Nodup) :
    ((replaceOrCons (fun x => key x == key a) a l).map key).Nodup := by
  by_cases hany : ∃ x ∈ l, key x = key a
  · have h : l.any (fun x => key x == key a) = true := by simpa using hany
    rwa [replaceOrCons, if_pos h, replaceFirst_map hany]
  · have h : ¬ l.any (fun x => key x == key a) = true := by simpa using hany
    rw [replaceOrCons, if_neg h, List.map_cons, List.nodup_cons]
    refine ⟨fun hmem => ?_, hl⟩
    obtain ⟨x, hx, hkx⟩ := List.mem_map.mp hmem
    exact hany ⟨x, hx, hkx⟩

theorem length_replaceFirst (p : α → Bool) (a : α) (l : List α) : (replaceFirst p a l).length = l.length := by
  induction l with
  | nil => rfl
  | cons x l ih =>
      rw [replaceFirst]
      split
      · rfl
      · rw [List.length_cons, ih, List.length_cons]

theorem mem_of_replaceFirst {p : α → Bool} {a b : α} {l : List α} (h : b ∈ replaceFirst p a l) :
    b = a ∨ b ∈ l := by
  induction l with
  | nil => exact Or.inr h
  | cons x l ih =>
      rw [replaceFirst] at h
      split at h
      · exact (List.mem_cons.mp h).imp_right (List.mem_cons_of_mem x)
      · rcases List.mem_cons.mp h with rfl | h
        · exact Or.inr List.mem_cons_self
        · exact (ih h).imp_right (List.mem_cons_of_mem x)

theorem perm_replaceFirst {p : α → Bool} (a : α) {x : α} {l : List α} (h : l.find? p = some x) :
    (replaceFirst p a l).Perm (a :: l.eraseP p) := by
  induction l with
  | nil => cases h
  | cons y l ih =>
      rw [List.find?_cons] at h
      rw [replaceFirst]
      cases hy : p y with
      | true => rw [if_pos rfl, List.eraseP_cons_of_pos hy]
      | false =>
          rw [hy] at h
          rw [if_neg Bool.false_ne_true, List.eraseP_cons_of_neg (by simp [hy])]
          exact ((ih h).cons y).trans (.swap a y _)

/-- Replacing the first element that `p` accepts changes a count by what the two elements count. -/
theorem countP_replaceFirst {p : α → Bool} (q : α → Bool) (a : α) {x : α} {l : List α} (h : l.find? p = some x) :
    (replaceFirst p a l).countP q + (if q x then 1 else 0) = l.countP q + (if q a then 1 else 0) := by
  induction l with
  | nil => cases h
  | cons y l ih =>
      rw [List.find?_cons] at h
      rw [replaceFirst]
      cases hy : p y with
      | true =>
          rw [hy] at h
          cases h
          rw [if_pos rfl, List.countP_cons, List.countP_cons]
          omega
      | false =>
          rw [hy] at h
          rw [if_neg Bool.false_ne_true, List.countP_cons, List.countP_cons]
          have := ih h
          omega

theorem countP_eraseP {p : α → Bool} (q : α → Bool) {x : α} {l : List α} (h : l.find? p = some x) :
    (l.eraseP p).countP q + (if q x then 1 else 0) = l.countP q := by
  induction l with
  | nil => cases h
  | cons y l ih =>
      rw [List.find?_cons] at h
      cases hy : p y with
      | true =>
          rw [hy] at h
          cases h
          rw [List.eraseP_cons_of_pos hy, List.countP_cons]
      | false =>
          rw [hy] at h
          rw [List.eraseP_cons_of_neg (by rw [hy]; exact Bool.false_ne_true), List.countP_cons, List.countP_cons]
          have := ih h
          omega

theorem mem_of_replaceOrCons {p : α → Bool} {a b : α} {l : List α} (h : b ∈ replaceOrCons p a l) :
    b = a ∨ b ∈ l := by
  unfold replaceOrCons at h
  split at h
  · exact mem_of_replaceFirst h
  · exact List.mem_cons.mp h

/-- Elements that `p` rejects stay. -/
theorem mem_replaceOrCons_of_not {p : α → Bool} {a b : α} {l : List α} (hb : b ∈ l) (hp : p b = false) :
    b ∈ replaceOrCons p a l := by
  have hfirst : b ∈ replaceFirst p a l := by
    induction l with
    | nil => exact hb
    | cons x l ih =>
        rw [replaceFirst]
        rcases List.mem_cons.mp hb with rfl | hb
        · simp [hp]
        · split
          · exact List.mem_cons_of_mem a hb
          · exact List.mem_cons_of_mem x (ih hb)
  unfold replaceOrCons
  split
  · exact hfirst
  · exact List.mem_cons_of_mem a hb

theorem replaceOrCons_ne_nil (p : α → Bool) (a : α) (l : List α) : replaceOrCons p a l ≠ [] := by
  unfold replaceOrCons
  split
  · cases l with
    | nil => simp at *
    | cons x l =>
        rw [replaceFirst]
        split <;> simp
  · simp

/-- Replace the first element that `p` accepts, or put `a` at the end if there is none. -/
def replaceOrAppend (p : α → Bool) (a : α) (l : List α) : List α :=
  if l.any p then replaceFirst p a l else l ++ [a]

theorem mem_of_replaceOrAppend {p : α → Bool} {a b : α} {l : List α} (h : b ∈ replaceOrAppend p a l) :
    b = a ∨ b ∈ l := by
  unfold replaceOrAppend at h
  split at h
  · exact mem_of_replaceFirst h
  · exact (List.mem_append.mp h).symm.imp_left List.mem_singleton.mp

theorem nodup_replaceOrAppend (key : α → κ) (hl : (l.map key).Nodup) :
    ((replaceOrAppend (fun x => key x == key a) a l).map key).Nodup := by
  by_cases hany : ∃ x ∈ l, key x = key a
  · have h : l.any (fun x => key x == key a) = true := by simpa using hany
    rwa [replaceOrAppend, if_pos h, replaceFirst_map hany]
  · have h : ¬ l.any (fun x => key x == key a) = true := by simpa using hany
    rw [replaceOrAppend, if_neg h, List.map_append, List.map_singleton]
    refine hl.append (List.nodup_singleton _) (fun k hk hka => hany ?_)
    obtain ⟨x, hx, rfl⟩ := List.mem_map.mp hk
    exact ⟨x, hx, List.mem_singleton.mp hka⟩

end Keyed

/-- `std::max_element`: the first element that no other one exceeds. -/
def maxElement (less : α → α → Bool) : List α → Option α
  | [] => none
  | x :: l => some (l.foldl (fun largest y => if less largest y then y else largest) x)

theorem mem_of_maxElement {less : α → α → Bool} {l : List α} {a : α} (h : maxElement less l = some a) :
    a ∈ l := by
  cases l with
  | nil => cases h
  | cons x l =>
      cases h
      induction l generalizing x with
      | nil => simp
      | cons y l ih =>
          rw [List.foldl_cons]
          split
          · exact List.mem_cons_of_mem x (ih y)
          · rcases List.mem_cons.mp (ih x) with h | h
            · rw [h]
              exact List.mem_cons_self
            · exact List.mem_cons_of_mem x (List.mem_cons_of_mem y h)

theorem maxElement_isSome (less : α → α → Bool) {l : List α} (h : l ≠ []) : ∃ a, maxElement less l = some a := by
  cases l with
  | nil => exact absurd rfl h
  | cons x l => exact ⟨_, rfl⟩

/-- The largest element by a key. -/
theorem le_of_maxElement {key : α → Nat} {l : List α} {a : α}
    (h : maxElement (fun x y => decide (key x < key y)) l = some a) : ∀ b ∈ l, key b ≤ key a := by
  cases l with
  | nil => cases h
  | cons x l =>
      cases h
      induction l generalizing x with
      | nil => simp
      | cons y l ih =>
          rw [List.foldl_cons]
          intro b hb
          split
          · rename_i hlt
            have hxy : key x < key y := of_decide_eq_true hlt
            rcases List.mem_cons.mp hb with rfl | hb
            · exact Nat.le_trans (Nat.le_of_lt hxy) (ih y y List.mem_cons_self)
            · exact ih y b hb
          · rename_i hge
            have hyx : key y ≤ key x := by simpa using hge
            rcases List.mem_cons.mp hb with rfl | hb
            · exact ih b b List.mem_cons_self
            · rcases List.mem_cons.mp hb with rfl | hb
              · exact Nat.le_trans hyx (ih x x List.mem_cons_self)
              · exact ih x b (List.mem_cons_of_mem x hb)

theorem maxElement_congr {less less' : α → α → Bool} {l : List α} (h : ∀ x ∈ l, ∀ y ∈ l, less x y = less' x y) :
    maxElement less l = maxElement less' l := by
  obtain _ | ⟨x, l⟩ := l
  · rfl
  · rw [maxElement, maxElement]
    induction l generalizing x with
    | nil => rfl
    | cons y l ih =>
        rw [List.foldl_cons, List.foldl_cons, h x List.mem_cons_self y (by simp)]
        split
        · exact ih y fun a ha b hb => h a (List.mem_cons_of_mem x ha) b (List.mem_cons_of_mem x hb)
        · have hsub : x :: l ⊆ x :: y :: l := List.cons_subset_cons x (List.subset_cons_self y l)
          exact ih x fun a ha b hb => h a (hsub ha) b (hsub hb)

/-! `std::max_element` with a comparator that prefers the elements of a kind, and among those of one kind the
smaller key. -/

section Preferring

variable {less : α → α → Bool} {preferred : α → Bool} {key : α → Nat}
  (hless : ∀ x y, less x y = if preferred x = preferred y then decide (key y < key x) else preferred y)

include hless

private theorem foldl_preferring {x : α} (hx : preferred x = true) (l : List α) :
    some (l.foldl (fun largest y => if less largest y then y else largest) x) =
      (l.filter preferred).foldl (List.argAux fun b c => key b < key c) (some x) := by
  induction l generalizing x with
  | nil => rfl
  | cons y l ih =>
      rw [List.foldl_cons]
      by_cases hy : preferred y = true
      · have hsame : less x y = decide (key y < key x) := by rw [hless, if_pos (hx.trans hy.symm)]
        rw [List.filter_cons_of_pos hy, List.foldl_cons, hsame]
        by_cases hlt : key y < key x
        · simpa [List.argAux, hlt] using ih hy
        · simpa [List.argAux, hlt] using ih hx
      · have hkeep : less x y = false := by simp [hless, hx, Bool.eq_false_iff.mpr hy]
        rw [List.filter_cons_of_neg hy, hkeep]
        exact ih hx

/-- The first smallest one of the preferred elements, if there are any. -/
theorem maxElement_preferring {l : List α} (h : ∃ x ∈ l, preferred x = true) :
    maxElement less l = (l.filter preferred).argmin key := by
  obtain _ | ⟨x, l⟩ := l
  · obtain ⟨x, hx, -⟩ := h
    cases hx
  · rw [maxElement]
    induction l generalizing x with
    | nil =>
        obtain ⟨y, hy, hpref⟩ := h
        cases List.mem_singleton.mp hy
        rw [List.filter_cons_of_pos hpref]
        rfl
    | cons y l ih =>
        by_cases hx : preferred x = true
        · rw [foldl_preferring hless hx, List.filter_cons_of_pos hx]
          rfl
        · rw [List.filter_cons_of_neg hx, List.foldl_cons]
          by_cases hy : preferred y = true
          · have htake : less x y = true := by simp [hless, hy, Bool.eq_false_iff.mpr hx]
            rw [htake, if_pos rfl, foldl_preferring hless hy, List.filter_cons_of_pos hy]
            rfl
          · -- neither is preferred, so one further on is
            rw [List.filter_cons_of_neg hy]
            obtain ⟨z, hz, hpref⟩ := h
            have hz : z ∈ l := by
              rcases List.mem_cons.mp hz with rfl | hz
              · exact absurd hpref hx
              · exact (List.mem_cons.mp hz).resolve_left fun heq => hy (heq ▸ hpref)
            split
            · have := ih y ⟨z, List.mem_cons_of_mem _ hz, hpref⟩
              rwa [List.filter_cons_of_neg hy] at this
            · have := ih x ⟨z, List.mem_cons_of_mem _ hz, hpref⟩
              rwa [List.filter_cons_of_neg hx] at this

end Preferring

/-- With a comparator that prefers the smaller key, the first smallest one. -/
theorem maxElement_smaller (key : α → Nat) (l : List α) :
    maxElement (fun x y => decide (key y < key x)) l = l.argmin key := by
  obtain _ | ⟨x, l⟩ := l
  · rfl
  · have h := @maxElement_preferring α (fun x y => decide (key y < key x)) (fun _ => true) key (fun _ _ => rfl)
      (x :: l) ⟨x, List.mem_cons_self, rfl⟩
    rwa [List.filter_true] at h

/-- Of two elements of a list related by its order, the search returns the one that comes first. -/
theorem find?_pairwise {p : α → Bool} {R : α → α → Prop} {l : List α} (hl : l.Pairwise R) {a b : α}
    (hfind : l.find? p = some a) (hb : b ∈ l) (hpb : p b = true) : a = b ∨ R a b := by
  obtain ⟨hpa, l₁, l₂, rfl, hbefore⟩ := List.find?_eq_some_iff_append.mp hfind
  rcases List.mem_append.mp hb with h | h
  · have := hbefore b h
    simp [hpb] at this
  · rcases List.mem_cons.mp h with rfl | h
    · exact Or.inl rfl
    · exact Or.inr ((List.pairwise_cons.mp (List.pairwise_append.mp hl).2.1).1 b h)

/-- A search from the last index down stops at the largest index that has a value. -/
theorem findSome?_reverse_range {f : Nat → Option α} (m : Nat) (a : α) :
    (List.range m).reverse.findSome? f = some a ↔
      ∃ i, i < m ∧ f i = some a ∧ ∀ i', i < i' → i' < m → f i' = none := by
  induction m with
  | zero => simp
  | succ m ih =>
      rw [List.range_succ, List.reverse_append, List.reverse_singleton, List.singleton_append,
        List.findSome?_cons]
      cases hm : f m with
      | some b =>
          constructor
          · rintro h
            cases h
            exact ⟨m, Nat.lt_succ_self m, hm, fun i' h h' => absurd h' (by omega)⟩
          · rintro ⟨i, hi, hia, hlast⟩
            rcases Nat.lt_or_eq_of_le (Nat.lt_succ_iff.mp hi) with hlt | rfl
            · have := hlast m hlt (Nat.lt_succ_self m)
              simp [hm] at this
            · rw [← hia, hm]
      | none =>
          rw [ih]
          constructor
          · rintro ⟨i, hi, hia, hlast⟩
            refine ⟨i, by omega, hia, fun i' h h' => ?_⟩
            rcases Nat.lt_or_eq_of_le (Nat.lt_succ_iff.mp h') with hlt | rfl
            · exact hlast i' h hlt
            · exact hm
          · rintro ⟨i, hi, hia, hlast⟩
            have hne : i ≠ m := by
              rintro rfl
              simp [hm] at hia
            exact ⟨i, by omega, hia, fun i' h h' => hlast i' h (by omega)⟩

/-- No element of the first part comes after one of the second, which the predicate is false of. -/
def Splits (p : α → Bool) (l : List α) : Prop := l.Pairwise fun x y => p y = true → p x = true

/-- The elements of a sorted list that are less than a bound come first. -/
theorem Splits.of_sorted {β : Type} [Preorder β] [DecidableLT β] {f : α → β} {l : List α}
    (h : l.Pairwise fun x y => f x < f y) (bound : β) : Splits (fun x => decide (f x < bound)) l :=
  h.imp fun hlt hbound => decide_eq_true (hlt.trans (of_decide_eq_true hbound))

theorem Splits.mem_dropWhile_iff {p : α → Bool} {l : List α} (h : Splits p l) {x : α} :
    x ∈ l.dropWhile p ↔ x ∈ l ∧ p x = false := by
  induction l with
  | nil => simp
  | cons y rest ih =>
      obtain ⟨hhead, htail⟩ := List.pairwise_cons.mp h
      by_cases hy : p y = true
      · rw [List.dropWhile_cons_of_pos hy, ih htail, List.mem_cons, or_and_right]
        refine (or_iff_right ?_).symm
        rintro ⟨rfl, hx⟩
        exact absurd hy (Bool.eq_false_iff.mp hx)
      · rw [List.dropWhile_cons_of_neg hy]
        refine ⟨fun hx => ⟨hx, Bool.eq_false_iff.mpr fun hpx => hy ?_⟩, And.left⟩
        rcases List.mem_cons.mp hx with rfl | hrest
        · exact hpx
        · exact hhead x hrest hpx

theorem Splits.mem_takeWhile_iff {p : α → Bool} {l : List α} (h : Splits p l) {x : α} :
    x ∈ l.takeWhile p ↔ x ∈ l ∧ p x = true := by
  constructor
  · exact fun hx => ⟨(List.takeWhile_prefix p).subset hx, List.mem_takeWhile_imp hx⟩
  · rintro ⟨hx, hpx⟩
    rw [← List.takeWhile_append_dropWhile (p := p) (l := l), List.mem_append] at hx
    exact hx.resolve_right fun hdrop => absurd hpx (Bool.eq_false_iff.mp (h.mem_dropWhile_iff.mp hdrop).2)

end NfdPitless.Lists
