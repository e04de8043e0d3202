import Mathlib.Data.List.Nodup
import Mathlib.Logic.Function.Basic

/-! Doubly linked chains: nodes with a pointer to the node before and to the node after, and an array of
pointers to first nodes. A chain is described by the list of its nodes; appending a node at the end,
unlinking a node and moving all nodes to another array of heads are described by what they do to the
lists. -/

namespace NfdPitless

/-- Links of nodes `α` in chains that start at `heads`. -/
structure Chains (α : Type) where
  heads : Nat → Option α
  prev : α → Option α
  next : α → Option α

namespace Chains

variable {α : Type} {c c' : Chains α}

def empty : Chains α := ⟨fun _ => none, fun _ => none, fun _ => none⟩

/-- The nodes met from `start` on, at most `fuel` of them. -/
def walk (c : Chains α) : Nat → Option α → List α
  | 0, _ => []
  | _, none => []
  | fuel + 1, some x => x :: walk c fuel (c.next x)

/-- Put a node after the last one of a chain. -/
def append [DecidableEq α] (c : Chains α) (fuel b : Nat) (x : α) : Chains α :=
  match (c.walk fuel (c.heads b)).getLast? with
  | none =>
      { heads := Function.update c.heads b (some x)
        prev := Function.update c.prev x none
        next := Function.update c.next x none }
  | some last =>
      { heads := c.heads
        prev := Function.update c.prev x (some last)
        next := Function.update (Function.update c.next x none) last (some x) }

/-- Take a node out of its chain; `b` is where its chain starts. -/
def unlink [DecidableEq α] (c : Chains α) (b : Nat) (x : α) : Chains α :=
  let c' : Chains α :=
    match c.prev x with
    | some p => { c with next := Function.update c.next p (c.next x) }
    | none => { c with heads := Function.update c.heads b (c.next x) }
  match c.next x with
  | some s => { c' with prev := Function.update c'.prev s (c.prev x), next := Function.update c'.next x none }
  | none => c'

/-- Move the nodes from `start` on, each to the end of the chain that `loc` gives, and count them. The node
after is read before a node is moved. -/
def moveFrom [DecidableEq α] (loc : α → Nat) (walkFuel : Nat) : Nat → Option α → Chains α × Nat → Chains α × Nat
  | 0, _, acc => acc
  | _, none, acc => acc
  | fuel + 1, some x, acc =>
      moveFrom loc walkFuel fuel (acc.1.next x) (acc.1.append walkFuel (loc x) x, acc.2 + 1)

/-- Move the nodes of the first `m` chains, in order, to a new array of heads. -/
def moveAll [DecidableEq α] (c : Chains α) (loc : α → Nat) (fuel m : Nat) : Chains α × Nat :=
  (List.range m).foldl (fun acc b => moveFrom loc fuel fuel (c.heads b) acc) ({ c with heads := fun _ => none }, 0)

/-- From `start`, whose node before is `p`, the links run through the list to `stop`, and back. -/
def Seg (c : Chains α) : Option α → Option α → Option α → List α → Prop
  | _, start, stop, [] => start = stop
  | p, start, stop, x :: l => start = some x ∧ c.prev x = p ∧ Seg c (some x) (c.next x) stop l

/-- The chain that starts at `b` has the nodes `l`, linked both ways. -/
def IsChain (c : Chains α) (b : Nat) (l : List α) : Prop := c.Seg none (c.heads b) none l

section Segments

variable {p start stop : Option α} {l l₁ l₂ : List α} {x : α}

theorem Seg.congr (hprev : ∀ x ∈ l, c'.prev x = c.prev x) (hnext : ∀ x ∈ l, c'.next x = c.next x)
    (h : c.Seg p start stop l) : c'.Seg p start stop l := by
  induction l generalizing p start with
  | nil => exact h
  | cons x l ih =>
      obtain ⟨hstart, hp, hrest⟩ := h
      refine ⟨hstart, (hprev x List.mem_cons_self).trans hp, ?_⟩
      rw [hnext x List.mem_cons_self]
      exact ih (fun y hy => hprev y (List.mem_cons_of_mem x hy)) (fun y hy => hnext y (List.mem_cons_of_mem x hy)) hrest

theorem Seg.walk_eq {fuel : Nat} (h : c.Seg p start none l) (hfuel : l.length ≤ fuel) : c.walk fuel start = l := by
  induction l generalizing p start fuel with
  | nil =>
      cases h
      cases fuel <;> rfl
  | cons x l ih =>
      obtain ⟨rfl, -, hrest⟩ := h
      cases fuel with
      | zero => simp at hfuel
      | succ fuel => rw [Chains.walk, ih hrest (by simpa using hfuel)]

theorem seg_append : c.Seg p start stop (l₁ ++ l₂) ↔
    ∃ mid, c.Seg p start mid l₁ ∧ c.Seg (l₁.getLast?.or p) mid stop l₂ := by
  induction l₁ generalizing p start with
  | nil =>
      constructor
      · exact fun h => ⟨start, rfl, h⟩
      · rintro ⟨mid, rfl, h⟩
        exact h
  | cons x l₁ ih =>
      have hlast : ((x :: l₁).getLast?).or p = l₁.getLast?.or (some x) := by
        rw [List.getLast?_cons]
        cases l₁.getLast? <;> rfl
      rw [hlast]
      constructor
      · rintro ⟨hstart, hp, hrest⟩
        obtain ⟨mid, h1, h2⟩ := ih.mp hrest
        exact ⟨mid, ⟨hstart, hp, h1⟩, h2⟩
      · rintro ⟨mid, ⟨hstart, hp, h1⟩, h2⟩
        exact ⟨hstart, hp, ih.mpr ⟨mid, h1, h2⟩⟩

theorem Seg.mem_of_start {y : α} (h : c.Seg p start none l) (hy : start = some y) : y ∈ l := by
  cases l with
  | nil =>
      rw [hy] at h
      cases h
  | cons x l =>
      obtain ⟨hx, -⟩ := h
      rw [hy] at hx
      cases hx
      exact List.mem_cons_self

/-- A segment whose first node gets another node before it. -/
theorem Seg.change_prev [DecidableEq α] {q : Option α}
    (hprev : ∀ y ∈ l, c'.prev y = if start = some y then q else c.prev y)
    (hnext : ∀ y ∈ l, c'.next y = c.next y) (hnodup : l.Nodup) (h : c.Seg p start stop l) :
    c'.Seg q start stop l := by
  cases l with
  | nil => exact h
  | cons x l =>
      obtain ⟨rfl, -, hrest⟩ := h
      refine ⟨rfl, by simp [hprev x List.mem_cons_self], ?_⟩
      rw [hnext x List.mem_cons_self]
      refine hrest.congr (fun y hy => ?_) (fun y hy => hnext y (List.mem_cons_of_mem x hy))
      have hne : x ≠ y := fun heq => (List.nodup_cons.mp hnodup).1 (heq ▸ hy)
      rw [hprev y (List.mem_cons_of_mem x hy), if_neg (by simpa using hne)]

end Segments

/-- The chains have the nodes `ls`, and no node is in two places. -/
structure Holds (c : Chains α) (ls : Nat → List α) : Prop where
  isChain : ∀ b, c.IsChain b (ls b)
  nodup : ∀ b, (ls b).Nodup
  disjoint : ∀ {b b' x}, x ∈ ls b → x ∈ ls b' → b = b'

variable {ls : Nat → List α} {x : α} {b : Nat}

theorem Holds.walk_eq (h : c.Holds ls) {fuel : Nat} (hfuel : (ls b).length ≤ fuel) :
    c.walk fuel (c.heads b) = ls b := (h.isChain b).walk_eq hfuel

theorem Holds.nodup_append (h : c.Holds ls) (hx : ∀ b, x ∉ ls b) (b b' : Nat) :
    (Function.update ls b (ls b ++ [x]) b').Nodup := by
  by_cases hb : b' = b
  · rw [hb, Function.update_self]
    refine (h.nodup b).append (List.nodup_singleton x) (fun y hy hyx => ?_)
    exact hx b (List.mem_singleton.mp hyx ▸ hy)
  · rw [Function.update_of_ne hb]
    exact h.nodup b'

theorem mem_update_append {b' : Nat} {y : α} :
    y ∈ Function.update ls b (ls b ++ [x]) b' ↔ y ∈ ls b' ∨ b' = b ∧ y = x := by
  by_cases hb : b' = b
  · subst hb
    simp
  · simp [hb]

theorem Holds.append [DecidableEq α] (h : c.Holds ls) {fuel : Nat} (hfuel : (ls b).length ≤ fuel) (hx : ∀ b, x ∉ ls b) :
    (c.append fuel b x).Holds (Function.update ls b (ls b ++ [x])) := by
  refine ⟨fun b' => ?_, h.nodup_append hx b, fun {b1 b2 y} h1 h2 => ?_⟩
  · unfold Chains.append
    rw [h.walk_eq hfuel]
    rcases List.eq_nil_or_concat (ls b) with hnil | ⟨l, last, hl⟩
    · -- the node becomes the first one
      rw [hnil]
      dsimp only [List.getLast?_nil]
      by_cases hb : b' = b
      · subst hb
        dsimp only [IsChain]
        rw [Function.update_self, Function.update_self, List.nil_append]
        exact ⟨rfl, Function.update_self _ _ _, Function.update_self _ _ _⟩
      · dsimp only [IsChain]
        rw [Function.update_of_ne hb, Function.update_of_ne hb]
        refine (h.isChain b').congr (fun y hy => ?_) (fun y hy => ?_)
        · exact Function.update_of_ne (fun (heq : y = x) => hx b' (heq ▸ hy)) _ _
        · exact Function.update_of_ne (fun (heq : y = x) => hx b' (heq ▸ hy)) _ _
    · rw [List.concat_eq_append] at hl
      have hlast : (ls b).getLast? = some last := by rw [hl, List.getLast?_concat]
      have hmem : last ∈ ls b := by rw [hl]; simp
      have hne : x ≠ last := fun heq => hx b (heq ▸ hmem)
      rw [hlast]
      dsimp only
      by_cases hb : b' = b
      · subst hb
        have hchain := h.isChain b'
        rw [IsChain, hl, seg_append] at hchain
        obtain ⟨mid, hpre, hmid, hp, -⟩ := hchain
        have hnotin : last ∉ l := by
          have := h.nodup b'
          rw [hl] at this
          exact fun hm => (List.disjoint_of_nodup_append this) hm (List.mem_singleton_self last)
        rw [IsChain, Function.update_self, hl, List.append_assoc, seg_append]
        refine ⟨mid, hpre.congr (fun y hy => ?_) (fun y hy => ?_), hmid, ?_, ?_, ?_, ?_⟩
        · exact Function.update_of_ne (fun heq => hx b' (by rw [hl, ← heq]; exact List.mem_append_left _ hy)) _ _
        · dsimp only
          rw [Function.update_of_ne (fun (heq : y = last) => hnotin (heq ▸ hy)),
            Function.update_of_ne (fun heq => hx b' (by rw [hl, ← heq]; exact List.mem_append_left _ hy))]
        · exact (Function.update_of_ne (Ne.symm hne) _ _).trans hp
        · exact Function.update_self _ _ _
        · exact Function.update_self _ _ _
        · exact (Function.update_of_ne hne _ _).trans (Function.update_self _ _ _)
      · rw [IsChain, Function.update_of_ne hb]
        refine (h.isChain b').congr (fun y hy => ?_) (fun y hy => ?_)
        · exact Function.update_of_ne (fun (heq : y = x) => hx b' (heq ▸ hy)) _ _
        · dsimp only
          rw [Function.update_of_ne (fun (heq : y = last) => hb (h.disjoint (heq ▸ hy) hmem)),
            Function.update_of_ne (fun (heq : y = x) => hx b' (heq ▸ hy))]
  · rw [mem_update_append] at h1 h2
    rcases h1 with h1 | ⟨hb1, rfl⟩
    · rcases h2 with h2 | ⟨-, rfl⟩
      · exact h.disjoint h1 h2
      · exact absurd h1 (hx b1)
    · rcases h2 with h2 | ⟨hb2, -⟩
      · exact absurd h2 (hx b2)
      · rw [hb1, hb2]

section Unlink

variable [DecidableEq α]

theorem unlink_prev (c : Chains α) (b : Nat) (x y : α) :
    (c.unlink b x).prev y = if c.next x = some y then c.prev x else c.prev y := by
  cases hp : c.prev x <;> cases hn : c.next x <;> simp [Chains.unlink, hp, hn, Function.update_apply, eq_comm]

theorem unlink_next (c : Chains α) (b : Nat) {x y : α} (hy : y ≠ x) :
    (c.unlink b x).next y = if c.prev x = some y then c.next x else c.next y := by
  cases hp : c.prev x <;> cases hn : c.next x <;> simp [Chains.unlink, hp, hn, Function.update_apply, hy, eq_comm]

theorem unlink_heads (c : Chains α) (b : Nat) (x : α) (b' : Nat) :
    (c.unlink b x).heads b' = if b' = b ∧ c.prev x = none then c.next x else c.heads b' := by
  cases hp : c.prev x <;> cases hn : c.next x <;> simp [Chains.unlink, hp, hn, Function.update_apply]

omit [DecidableEq α] in
/-- Where a node stands in its chain. -/
theorem Holds.split (h : c.Holds ls) (hx : x ∈ ls b) : ∃ l₁ l₂, ls b = l₁ ++ x :: l₂ ∧ x ∉ l₁ ∧
    (∀ y ∈ l₂, y ≠ x ∧ y ∉ l₁) ∧ c.Seg none (c.heads b) (some x) l₁ ∧ c.prev x = l₁.getLast? ∧
    c.Seg (some x) (c.next x) none l₂ := by
  obtain ⟨l₁, l₂, hl⟩ := List.append_of_mem hx
  have hnodup := h.nodup b
  have hchain := h.isChain b
  rw [hl] at hnodup
  rw [IsChain, hl, seg_append] at hchain
  obtain ⟨mid, hpre, hmid, hp, hpost⟩ := hchain
  obtain ⟨-, hnodup₂, hdisjoint⟩ := List.nodup_append.mp hnodup
  refine ⟨l₁, l₂, hl, fun hm => hdisjoint x hm x List.mem_cons_self rfl, fun y hy => ⟨?_, ?_⟩, ?_, ?_, hpost⟩
  · rintro rfl
    exact (List.nodup_cons.mp hnodup₂).1 hy
  · exact fun hm => hdisjoint y hm y (List.mem_cons_of_mem x hy) rfl
  · rw [← hmid]
    exact hpre
  · simpa using hp

/-- The part before the node now leads to the part after it. -/
theorem unlink_before {l₁ l₂ : List α} (hx : x ∉ l₁) (hdisjoint : ∀ y ∈ l₂, y ∉ l₁) (hnodup : l₁.Nodup)
    (hpre : c.Seg none (c.heads b) (some x) l₁) (hp : c.prev x = l₁.getLast?)
    (hpost : c.Seg (some x) (c.next x) none l₂) :
    (c.unlink b x).Seg none ((c.unlink b x).heads b) (c.next x) l₁ := by
  have hprev : ∀ y ∈ l₁, (c.unlink b x).prev y = c.prev y := by
    intro y hy
    rw [unlink_prev, if_neg]
    exact fun hnext => hdisjoint y (hpost.mem_of_start hnext) hy
  rcases List.eq_nil_or_concat l₁ with hnil | ⟨l, last, hl⟩
  · subst hnil
    rw [unlink_heads, if_pos ⟨rfl, by simpa using hp⟩]
    exact rfl
  · rw [List.concat_eq_append] at hl
    subst hl
    rw [List.getLast?_concat] at hp
    obtain ⟨mid, hl, hmid, hlast, -⟩ := seg_append.mp hpre
    have hnotin : last ∉ l := fun hm => (List.nodup_append.mp hnodup).2.2 last hm last (by simp) rfl
    have hne : last ≠ x := fun heq => hx (by simp [← heq])
    rw [unlink_heads, if_neg (by simp [hp]), seg_append]
    refine ⟨mid, hl.congr (fun y hy => hprev y (by simp [hy])) (fun y hy => ?_), hmid, ?_, ?_⟩
    · have hyx : y ≠ x := fun heq => hx (by simp [← heq, hy])
      have hylast : last ≠ y := fun heq => hnotin (heq ▸ hy)
      rw [unlink_next c b hyx, hp, if_neg (by simpa using hylast)]
    · rw [hprev last (by simp)]
      exact hlast
    · rw [unlink_next c b hne, if_pos hp]
      exact rfl

/-- Unlinking a node takes it out of the list of its chain. -/
theorem Holds.unlink (h : c.Holds ls) (hx : x ∈ ls b) :
    (c.unlink b x).Holds (Function.update ls b ((ls b).erase x)) := by
  obtain ⟨l₁, l₂, hl, hx₁, hl₂, hpre, hp, hpost⟩ := h.split hx
  have hmem₁ : ∀ y, c.prev x = some y → y ∈ l₁ := fun y hy => List.mem_of_getLast? (hp.symm.trans hy)
  have hmem₂ : ∀ y, c.next x = some y → y ∈ l₂ := fun y hy => hpost.mem_of_start hy
  have herase : (ls b).erase x = l₁ ++ l₂ := by
    rw [hl, List.erase_append_right _ hx₁, List.erase_cons_head]
  have hsub : ∀ {b' y}, y ∈ Function.update ls b ((ls b).erase x) b' → y ∈ ls b' := by
    intro b' y hy
    by_cases hb : b' = b
    · subst hb
      rw [Function.update_self] at hy
      exact List.mem_of_mem_erase hy
    · rwa [Function.update_of_ne hb] at hy
  refine ⟨fun b' => ?_, fun b' => ?_, fun h1 h2 => h.disjoint (hsub h1) (hsub h2)⟩
  · by_cases hb : b' = b
    · subst hb
      have hnodup := h.nodup b'
      rw [hl] at hnodup
      rw [IsChain, Function.update_self, herase, seg_append]
      refine ⟨c.next x, unlink_before hx₁ (fun y hy => (hl₂ y hy).2) (List.nodup_append.mp hnodup).1 hpre hp hpost, ?_⟩
      rw [Option.or_none, ← hp]
      refine hpost.change_prev (fun y _ => unlink_prev c b' x y) (fun y hy => ?_) ?_
      · rw [unlink_next c b' (hl₂ y hy).1, if_neg fun hprev => (hl₂ y hy).2 (hmem₁ y hprev)]
      · exact (List.nodup_cons.mp (List.nodup_append.mp hnodup).2.1).2
    · -- the nodes whose links change are all in the chain of the node
      have hother : ∀ {y}, y ∈ ls b' → y ∉ ls b := fun hy hyb => hb (h.disjoint hy hyb)
      rw [IsChain, Function.update_of_ne hb, unlink_heads, if_neg fun hand => hb hand.1]
      refine (h.isChain b').congr (fun y hy => ?_) (fun y hy => ?_)
      · rw [unlink_prev, if_neg fun hnext => hother hy (by rw [hl]; simp [hmem₂ y hnext])]
      · have hyx : y ≠ x := fun heq => hother hy (heq ▸ hx)
        rw [unlink_next c b hyx, if_neg fun hprev => hother hy (by rw [hl]; simp [hmem₁ y hprev])]
  · by_cases hb : b' = b
    · subst hb
      rw [Function.update_self]
      exact (h.nodup b').erase x
    · rw [Function.update_of_ne hb]
      exact h.nodup b'

end Unlink

/-! ### Moving all nodes -/

/-- From `start` the pointers to the node after run through the list. -/
def Path (c : Chains α) : Option α → List α → Prop
  | start, [] => start = none
  | start, x :: l => start = some x ∧ Path c (c.next x) l

theorem Seg.path {p start : Option α} {l : List α} (h : c.Seg p start none l) : c.Path start l := by
  induction l generalizing p start with
  | nil => exact h
  | cons x l ih =>
      obtain ⟨hstart, -, hrest⟩ := h
      exact ⟨hstart, ih hrest⟩

theorem Path.congr {start : Option α} {l : List α} (hnext : ∀ x ∈ l, c'.next x = c.next x) (h : c.Path start l) :
    c'.Path start l := by
  induction l generalizing start with
  | nil => exact h
  | cons x l ih =>
      obtain ⟨hstart, hrest⟩ := h
      refine ⟨hstart, ?_⟩
      rw [hnext x List.mem_cons_self]
      exact ih (fun y hy => hnext y (List.mem_cons_of_mem x hy)) hrest

section Move

variable [DecidableEq α]

/-- Appending a node changes the pointer to the node after of the node and of the last one only. -/
theorem Holds.append_next (h : c.Holds ls) {fuel : Nat} (hfuel : (ls b).length ≤ fuel) {y : α} (hyx : y ≠ x)
    (hy : y ∉ ls b) : (c.append fuel b x).next y = c.next y := by
  unfold Chains.append
  rw [h.walk_eq hfuel]
  cases hlast : (ls b).getLast? with
  | none => exact Function.update_of_ne hyx _ _
  | some last =>
      have hne : y ≠ last := fun heq => hy (heq ▸ List.mem_of_getLast? hlast)
      dsimp only
      rw [Function.update_of_ne hne, Function.update_of_ne hyx]

omit [DecidableEq α] in
theorem update_append_filter (ms : Nat → List α) (loc : α → Nat) (x : α) (l : List α) :
    (fun b => Function.update ms (loc x) (ms (loc x) ++ [x]) b ++ l.filter fun y => loc y == b) =
      fun b => ms b ++ (x :: l).filter fun y => loc y == b := by
  funext b
  by_cases hb : loc x = b
  · subst hb
    simp
  · rw [Function.update_of_ne (Ne.symm hb), List.filter_cons_of_neg (by simpa using hb)]

/-- Moving the nodes of one chain. -/
theorem moveFrom_spec (loc : α → Nat) (walkFuel : Nat) (l : List α) : ∀ (fuel : Nat) (start : Option α)
    (c : Chains α) (count : Nat) {ms : Nat → List α}, c.Holds ms → c.Path start l → l.Nodup →
    (∀ x ∈ l, ∀ b, x ∉ ms b) → l.length ≤ fuel → (∀ b, (ms b).length + l.length ≤ walkFuel) →
    (moveFrom loc walkFuel fuel start (c, count)).1.Holds (fun b => ms b ++ l.filter fun x => loc x == b) ∧
      (moveFrom loc walkFuel fuel start (c, count)).2 = count + l.length ∧
      ∀ y, y ∉ l → (∀ b, y ∉ ms b) → (moveFrom loc walkFuel fuel start (c, count)).1.next y = c.next y := by
  induction l with
  | nil =>
      intro fuel start c count ms h hpath _ _ _ _
      have hnone : start = none := hpath
      subst hnone
      have hrun : moveFrom loc walkFuel fuel none (c, count) = (c, count) := by cases fuel <;> rfl
      rw [hrun]
      exact ⟨by simpa using h, rfl, fun _ _ _ => rfl⟩
  | cons x l ih =>
      intro fuel start c count ms h hpath hnodup hfree hfuel hwalk
      obtain ⟨hstart, hrest⟩ := hpath
      obtain ⟨hxl, hnodup⟩ := List.nodup_cons.mp hnodup
      rw [List.length_cons] at hfuel
      have hbound : ∀ b, (ms b).length + (l.length + 1) ≤ walkFuel := fun b => by simpa using hwalk b
      have hroom : (ms (loc x)).length ≤ walkFuel := by
        have := hbound (loc x)
        omega
      have hnext : ∀ y, y ≠ x → (∀ b, y ∉ ms b) → (c.append walkFuel (loc x) x).next y = c.next y :=
        fun y hyx hy => h.append_next hroom hyx (hy _)
      have hother : ∀ y ∈ l, y ≠ x ∧ ∀ b, y ∉ ms b := fun y hy =>
        ⟨fun heq => hxl (heq ▸ hy), hfree y (List.mem_cons_of_mem x hy)⟩
      -- the node is now in its new chain, the others are where they were
      have hholds := h.append hroom (hfree x List.mem_cons_self)
      have hpath := hrest.congr fun y hy => hnext y (hother y hy).1 (hother y hy).2
      have hfree' : ∀ y, y ≠ x → (∀ b, y ∉ ms b) → ∀ b, y ∉ Function.update ms (loc x) (ms (loc x) ++ [x]) b := by
        intro y hyx hy b hmem
        rcases mem_update_append.mp hmem with hold | ⟨-, heq⟩
        · exact hy b hold
        · exact hyx heq
      have hwalk' : ∀ b, (Function.update ms (loc x) (ms (loc x) ++ [x]) b).length + l.length ≤ walkFuel := by
        intro b
        have := hbound b
        by_cases hb : b = loc x
        · subst hb
          rw [Function.update_self, List.length_append, List.length_singleton]
          omega
        · rw [Function.update_of_ne hb]
          omega
      cases fuel with
      | zero => omega
      | succ fuel =>
          obtain ⟨hmoved, hcount, hkeep⟩ := ih fuel (c.next x) (c.append walkFuel (loc x) x) (count + 1) hholds hpath
            hnodup (fun y hy => hfree' y (hother y hy).1 (hother y hy).2) (by omega) hwalk'
          rw [update_append_filter] at hmoved
          rw [hstart, moveFrom]
          refine ⟨hmoved, by rw [hcount, List.length_cons]; omega, fun y hy hms => ?_⟩
          rw [List.mem_cons, not_or] at hy
          rw [hkeep y hy.2 (hfree' y hy.1 hms), hnext y hy.1 hms]

/-- Moving all nodes: the new chains have them in the order of the old ones, and all are counted. -/
theorem Holds.moveAll (h : c.Holds ls) (loc : α → Nat) {fuel : Nat} (m : Nat)
    (hfuel : ((List.range m).flatMap ls).length ≤ fuel) :
    (c.moveAll loc fuel m).1.Holds (fun b => ((List.range m).flatMap ls).filter fun x => loc x == b) ∧
      (c.moveAll loc fuel m).2 = ((List.range m).flatMap ls).length ∧
      ∀ y, y ∉ (List.range m).flatMap ls → (c.moveAll loc fuel m).1.next y = c.next y := by
  induction m with
  | zero => exact ⟨⟨fun _ => rfl, fun _ => List.nodup_nil, fun hx => by cases hx⟩, rfl, fun _ _ => rfl⟩
  | succ m ih =>
      have hflat : (List.range (m + 1)).flatMap ls = (List.range m).flatMap ls ++ ls m := by
        rw [List.range_succ, List.flatMap_append, List.flatMap_singleton]
      have hrun : c.moveAll loc fuel (m + 1) = moveFrom loc fuel fuel (c.heads m) (c.moveAll loc fuel m) := by
        rw [Chains.moveAll, List.range_succ, List.foldl_append]
        rfl
      rw [hflat, List.length_append] at hfuel
      obtain ⟨hmoved, hcount, hkeep⟩ := ih (by omega)
      have hnew : ∀ y ∈ ls m, y ∉ (List.range m).flatMap ls := by
        intro y hy hmem
        obtain ⟨b, hb, hyb⟩ := List.mem_flatMap.mp hmem
        have hbm : b = m := h.disjoint hyb hy
        exact absurd (List.mem_range.mp hb) (by omega)
      have hpath : (c.moveAll loc fuel m).1.Path (c.heads m) (ls m) :=
        ((h.isChain m).path).congr fun y hy => hkeep y (hnew y hy)
      obtain ⟨hmoved', hcount', hkeep'⟩ := moveFrom_spec loc fuel (ls m) fuel (c.heads m) (c.moveAll loc fuel m).1
        (c.moveAll loc fuel m).2 hmoved hpath (h.nodup m)
        (fun y hy b hmem => hnew y hy (List.mem_of_mem_filter hmem)) (by omega)
        (fun b => by
          have := List.length_filter_le (fun x => loc x == b) ((List.range m).flatMap ls)
          omega)
      rw [hrun, hflat]
      refine ⟨?_, by rw [hcount', hcount, List.length_append], fun y hy => ?_⟩
      · simpa only [List.filter_append] using hmoved'
      · rw [List.mem_append, not_or] at hy
        rw [hkeep' y hy.2 fun b hmem => hy.1 (List.mem_of_mem_filter hmem), hkeep y hy.1]

end Move

end Chains
end NfdPitless
