import NfdPitless.Iteration
import Mathlib.Data.List.Nodup

/-! A cursor that walks a tree in pre-order along the pointers of its nodes: down to the first child, to the next
sibling, or up to the parent. A selector says of each node whether the cursor stops there and whether it goes on to the
children. -/

namespace NfdPitless.TreeWalk

variable {σ : Type}

structure Cursor (σ : Type) where
  node : σ
  shouldVisitChildren : Bool

section Definitions

variable (children : σ → List σ) (parent : σ → Option σ) (sel : σ → Bool × Bool)

/-- The cursor at a node it comes to, and whether it stops there. -/
def arrive (r : σ) : Bool × Cursor σ := ((sel r).1, ⟨r, (sel r).2 && !(children r).isEmpty⟩)

/-- The nodes below a root that a cursor comes to. -/
inductive Reached (root : σ) : σ → Prop where
  | root : Reached root root
  | child {p c : σ} : Reached root p → (sel p).2 = true → c ∈ children p → Reached root c

/-- The pointers of the nodes below a root; a node is deeper than its parent. -/
structure Tree (depth : σ → Nat) (root : σ) : Prop where
  parent_eq : ∀ {p c}, Reached children sel root p → c ∈ children p → parent c = some p
  nodup : ∀ {p}, Reached children sel root p → (children p).Nodup
  deeper : ∀ {p c}, Reached children sel root p → c ∈ children p → depth p < depth c

/-- The nodes in pre-order, with fuel for the depth. -/
def nodes : Nat → σ → List σ
  | 0, _ => []
  | k + 1, r => r :: if (sel r).2 then (children r).flatMap (nodes k) else []

variable [DecidableEq σ]

/-- One move; it goes wrong when a node is not among the children of its parent. The way up is no stop. -/
def round (c : Cursor σ) : Option (Bool × Cursor σ) :=
  if c.shouldVisitChildren then (children c.node).head?.map (arrive children sel)
  else
    (parent c.node).bind fun p =>
      match (children p).dropWhile fun x => x != c.node with
      | [] => none
      | [_] => some (false, ⟨p, false⟩)
      | _ :: sibling :: _ => some (arrive children sel sibling)

/-- Moves until the cursor stops, or is back at the root, which is the end. -/
def loop (root : σ) : Nat → Cursor σ → Option (Option (Cursor σ))
  | 0, _ => none
  | fuel + 1, c =>
      if c.node = root then some none
      else (round children parent sel c).bind fun moved =>
        if moved.1 then some (some moved.2) else loop root fuel moved.2

/-- The next stop; only at the start is the cursor at the root. -/
def next (root : σ) (fuel : Nat) (c : Cursor σ) : Option (Option (Cursor σ)) :=
  if c.node = root then
    if c.shouldVisitChildren then
      (round children parent sel c).bind fun moved =>
        if moved.1 then some (some moved.2) else loop children parent sel root fuel moved.2
    else some none
  else loop children parent sel root fuel c

/-- The first stop. -/
def start (root : σ) (fuel : Nat) : Option (Option (Cursor σ)) :=
  if (arrive children sel root).1 then some (some (arrive children sel root).2)
  else next children parent sel root fuel (arrive children sel root).2

/-- The nodes at which the cursor stops, if it comes to the end. -/
def walk (root : σ) (fuel : Nat) : Option (List σ) :=
  (start children parent sel root fuel).bind fun first =>
    (Iteration.visits (next children parent sel root fuel) fuel first).map fun stops => stops.map Cursor.node

end Definitions

section Nodes

variable {children : σ → List σ} {parent : σ → Option σ} {sel : σ → Bool × Bool} {depth : σ → Nat}
  {root a b c p r x : σ} {k : Nat}

theorem Reached.trans (h : Reached children sel a b) (h' : Reached children sel b c) : Reached children sel a c := by
  induction h' with
  | root => exact h
  | child _ hsel hc ih => exact .child ih hsel hc

namespace Tree

theorem depth_le (ht : Tree children parent sel depth root) (ha : Reached children sel root a)
    (h : Reached children sel a x) : depth a ≤ depth x := by
  induction h with
  | root => exact Nat.le_refl _
  | child hp _ hc ih => exact Nat.le_trans ih (Nat.le_of_lt (ht.deeper (ha.trans hp) hc))

/-- Of two nodes above a third one is above the other. -/
theorem total (ht : Tree children parent sel depth root) (ha : Reached children sel root a)
    (hb : Reached children sel root b) (hax : Reached children sel a x) (hbx : Reached children sel b x) :
    Reached children sel a b ∨ Reached children sel b a := by
  induction hax with
  | root => exact Or.inr hbx
  | child hp hsel hc ih =>
      cases hbx with
      | root => exact Or.inl (.child hp hsel hc)
      | child hp' hsel' hc' =>
          have hparent := ht.parent_eq (ha.trans hp) hc
          rw [ht.parent_eq (hb.trans hp') hc'] at hparent
          cases hparent
          exact ih hp'

/-- Nothing is below two children of a node. -/
theorem unique_child (ht : Tree children parent sel depth root) (hp : Reached children sel root p)
    (hsel : (sel p).2 = true) (ha : a ∈ children p) (hb : b ∈ children p) (hax : Reached children sel a x)
    (hbx : Reached children sel b x) : a = b := by
  have habove : ∀ {a b : σ}, a ∈ children p → b ∈ children p → Reached children sel a b → a = b := by
    intro a b ha hb hab
    cases hab with
    | root => rfl
    | @child q _ hq _ hc =>
        have hparent := ht.parent_eq (((hp.child hsel ha).trans hq)) hc
        rw [ht.parent_eq hp hb] at hparent
        cases hparent
        exact absurd (ht.deeper hp ha) (Nat.not_lt.mpr (ht.depth_le (hp.child hsel ha) hq))
  rcases ht.total (hp.child hsel ha) (hp.child hsel hb) hax hbx with h | h
  · exact habove ha hb h
  · exact (habove hb ha h).symm

/-- The nodes in pre-order are reached. -/
theorem reached_of_mem (k : Nat) : ∀ {r x : σ}, x ∈ nodes children sel k r → Reached children sel r x := by
  induction k with
  | zero => exact fun h => absurd h List.not_mem_nil
  | succ k ih =>
      intro r x h
      rw [nodes] at h
      rcases List.mem_cons.mp h with rfl | h
      · exact .root
      · split at h
        · rename_i hsel
          obtain ⟨c, hc, hx⟩ := List.mem_flatMap.mp h
          exact (Reached.root.child hsel hc).trans (ih hx)
        · exact absurd h List.not_mem_nil

theorem mem_nodes_child (ht : Tree children parent sel depth root) (hsel : (sel p).2 = true) (hc : c ∈ children p)
    (k : Nat) : ∀ {r : σ}, Reached children sel root r → (∀ x, Reached children sel root x → depth x < depth r + k) →
      p ∈ nodes children sel k r → c ∈ nodes children sel k r := by
  induction k with
  | zero => exact fun _ _ h => absurd h List.not_mem_nil
  | succ k ih =>
      intro r hr hdepth hp
      rw [nodes] at hp ⊢
      refine List.mem_cons_of_mem r ?_
      rcases List.mem_cons.mp hp with rfl | hp
      · rw [if_pos hsel]
        refine List.mem_flatMap.mpr ⟨c, hc, ?_⟩
        -- there is fuel left for the child
        have hdeeper := ht.deeper hr hc
        have hlt := hdepth c (hr.child hsel hc)
        obtain ⟨k, rfl⟩ := Nat.exists_eq_succ_of_ne_zero (n := k) (by omega)
        exact List.mem_cons_self
      · split at hp
        · rename_i hselr
          obtain ⟨d, hd, hpd⟩ := List.mem_flatMap.mp hp
          have hdeeper := ht.deeper hr hd
          rw [if_pos hselr]
          refine List.mem_flatMap.mpr ⟨d, hd, ih (hr.child hselr hd) (fun x hx => ?_) hpd⟩
          have hlt := hdepth x hx
          omega
        · exact absurd hp List.not_mem_nil

/-- With enough fuel they are all that are reached. -/
theorem mem_nodes (ht : Tree children parent sel depth root)
    (hdepth : ∀ x, Reached children sel root x → depth x < depth root + k) :
    x ∈ nodes children sel k root ↔ Reached children sel root x := by
  refine ⟨reached_of_mem k, fun h => ?_⟩
  induction h with
  | root =>
      have hlt := hdepth root .root
      obtain ⟨k, rfl⟩ := Nat.exists_eq_succ_of_ne_zero (n := k) (by omega)
      exact List.mem_cons_self
  | child hp hsel hc ih => exact ht.mem_nodes_child hsel hc k .root hdepth ih

theorem nodup_nodes (ht : Tree children parent sel depth root) (k : Nat) :
    ∀ {r : σ}, Reached children sel root r → (nodes children sel k r).Nodup := by
  induction k with
  | zero => exact fun _ => List.nodup_nil
  | succ k ih =>
      intro r hr
      rw [nodes]
      split
      · rename_i hsel
        refine List.nodup_cons.mpr ⟨fun hmem => ?_, List.nodup_flatMap.mpr ⟨fun c hc => ih (hr.child hsel hc), ?_⟩⟩
        · obtain ⟨c, hc, hrc⟩ := List.mem_flatMap.mp hmem
          exact absurd (ht.deeper hr hc) (Nat.not_lt.mpr (ht.depth_le (hr.child hsel hc) (reached_of_mem k hrc)))
        · refine (ht.nodup hr).imp_of_mem fun ha hb hne => ?_
          exact fun x hxa hxb => hne (ht.unique_child hr hsel ha hb (reached_of_mem k hxa) (reached_of_mem k hxb))
      · exact List.nodup_singleton r

/-- More fuel than for the depth makes no difference. -/
theorem nodes_succ (ht : Tree children parent sel depth root) (k : Nat) :
    ∀ {r : σ}, Reached children sel root r → (∀ x, Reached children sel root x → depth x < depth r + k) →
      nodes children sel (k + 1) r = nodes children sel k r := by
  induction k with
  | zero => exact fun hr hdepth => absurd (hdepth _ hr) (Nat.lt_irrefl _)
  | succ k ih =>
      intro r hr hdepth
      rw [nodes, nodes]
      cases hsel : (sel r).2 with
      | false => rfl
      | true =>
          rw [if_pos rfl, if_pos rfl]
          refine congrArg (r :: ·) (List.flatMap_congr fun c hc => ih (hr.child hsel hc) fun x hx => ?_)
          have hlt := hdepth x hx
          have hdeeper := ht.deeper hr hc
          omega

end Tree

/-- Where the children of a node are not visited, what is below it is left out. -/
theorem nodes_sublist (children : σ → List σ) (sel : σ → Bool × Bool) (k : Nat) : ∀ r,
    (nodes children sel k r).Sublist (nodes children (fun _ => (true, true)) k r) := by
  induction k with
  | zero => exact fun _ => .slnil
  | succ k ih =>
      intro r
      rw [nodes, nodes, if_pos rfl]
      refine .cons_cons r ?_
      split
      · generalize children r = l
        induction l with
        | nil => exact .slnil
        | cons c l ihl =>
            rw [List.flatMap_cons, List.flatMap_cons]
            exact (ih c).append ihl
      · exact List.nil_sublist _

end Nodes

section Trails

variable [DecidableEq σ] (children : σ → List σ) (parent : σ → Option σ) (sel : σ → Bool × Bool)

/-- A cursor moves to another in `n` moves, coming to the nodes of a list on the way. -/
inductive Trail (root : σ) : Cursor σ → Nat → List σ → Cursor σ → Prop where
  | refl (c : Cursor σ) : Trail root c 0 [] c
  | arrive {c d : Cursor σ} {r : σ} {n : Nat} {l : List σ} (hc : c.node ≠ root) (hr : r ≠ root)
      (hround : round children parent sel c = some (arrive children sel r)) :
      Trail root (TreeWalk.arrive children sel r).2 n l d → Trail root c (n + 1) (r :: l) d
  | up {c d : Cursor σ} {p : σ} {n : Nat} {l : List σ} (hc : c.node ≠ root)
      (hround : round children parent sel c = some (false, ⟨p, false⟩)) :
      Trail root ⟨p, false⟩ n l d → Trail root c (n + 1) l d

/-- The stops among the nodes a cursor comes to. -/
def stops (l : List σ) : List (Cursor σ) := (l.filter fun r => (sel r).1).map fun r => (arrive children sel r).2

variable {children parent sel} {root a b c p r x : σ} {cur cur' cur'' : Cursor σ} {l l' : List σ} {k n n' : Nat}

theorem Trail.trans (h : Trail children parent sel root cur n l cur') :
    Trail children parent sel root cur' n' l' cur'' → Trail children parent sel root cur (n + n') (l ++ l') cur'' := by
  intro h'
  induction h with
  | refl c =>
      rw [Nat.zero_add]
      exact h'
  | arrive hc hr hround _ ih =>
      rw [Nat.add_right_comm, List.cons_append]
      exact .arrive hc hr hround (ih h')
  | up hc hround _ ih =>
      rw [Nat.add_right_comm]
      exact .up hc hround (ih h')

omit [DecidableEq σ] in
theorem stops_cons_pos (h : (sel r).1 = true) (l : List σ) :
    stops children sel (r :: l) = (arrive children sel r).2 :: stops children sel l := by
  rw [stops, List.filter_cons, if_pos h, List.map_cons, stops]

omit [DecidableEq σ] in
theorem stops_cons_neg (h : (sel r).1 = false) (l : List σ) :
    stops children sel (r :: l) = stops children sel l := by
  rw [stops, List.filter_cons, if_neg (by rw [h]; exact Bool.false_ne_true), stops]

theorem Trail.loop_eq (h : Trail children parent sel root cur n l cur') (hend : cur'.node = root) :
    ∀ {fuel : Nat}, n < fuel → loop children parent sel root fuel cur = some (stops children sel l).head? := by
  induction h with
  | refl c =>
      intro fuel hfuel
      obtain ⟨fuel, rfl⟩ := Nat.exists_eq_succ_of_ne_zero (Nat.ne_zero_of_lt hfuel)
      rw [loop, if_pos hend]
      rfl
  | @arrive c d r n l hc hr hround _ ih =>
      intro fuel hfuel
      obtain ⟨fuel, rfl⟩ := Nat.exists_eq_succ_of_ne_zero (Nat.ne_zero_of_lt hfuel)
      rw [loop, if_neg hc, hround, Option.bind_some]
      cases hstop : (sel r).1 with
      | true =>
          rw [stops_cons_pos hstop, List.head?_cons]
          exact if_pos hstop
      | false =>
          rw [stops_cons_neg hstop, ← ih hend (Nat.lt_of_succ_lt_succ hfuel)]
          exact if_neg (by rw [TreeWalk.arrive, hstop]; exact Bool.false_ne_true)
  | up hc hround _ ih =>
      intro fuel hfuel
      obtain ⟨fuel, rfl⟩ := Nat.exists_eq_succ_of_ne_zero (Nat.ne_zero_of_lt hfuel)
      rw [loop, if_neg hc, hround, Option.bind_some]
      exact (if_neg Bool.false_ne_true).trans (ih hend (Nat.lt_of_succ_lt_succ hfuel))

/-- The stops of a trail that ends at the root follow each other. -/
theorem Trail.follows (h : Trail children parent sel root cur n l cur') (hend : cur'.node = root) {fuel : Nat} :
    n < fuel → Iteration.Follows (next children parent sel root fuel) (stops children sel l) := by
  induction h with
  | refl c => exact fun _ => trivial
  | @arrive c d r n l hc hr hround htrail ih =>
      intro hfuel
      have hrest := ih hend (Nat.lt_of_succ_lt hfuel)
      cases hstop : (sel r).1 with
      | true =>
          rw [stops_cons_pos hstop]
          exact ⟨(if_neg hr).trans (htrail.loop_eq hend (Nat.lt_of_succ_lt hfuel)), hrest⟩
      | false =>
          rw [stops_cons_neg hstop]
          exact hrest
  | up hc hround _ ih => exact fun hfuel => ih hend (Nat.lt_of_succ_lt hfuel)

/-! ### The walk -/

variable {depth : σ → Nat}

variable (sel) in
/-- After a child has been left, the cursor comes to its next sibling, or goes up. -/
theorem round_leave (hparent : parent c = some p) (hnodup : (children p).Nodup) {before after : List σ}
    (hsplit : children p = before ++ c :: after) :
    round children parent sel ⟨c, false⟩ = match after with
      | [] => some (false, ⟨p, false⟩)
      | sibling :: _ => some (arrive children sel sibling) := by
  have hnot : c ∉ before := by
    rw [hsplit, List.nodup_append] at hnodup
    exact fun hmem => hnodup.2.2 c hmem c List.mem_cons_self rfl
  have hdrop : ((children p).dropWhile fun x => x != c) = c :: after := by
    rw [hsplit, List.dropWhile_append_of_pos, List.dropWhile_cons_of_neg (by simp)]
    intro x hx
    rw [bne_iff_ne]
    rintro rfl
    exact hnot hx
  rw [round, if_neg Bool.false_ne_true, hparent, Option.bind_some]
  dsimp only
  rw [hdrop]
  cases after <;> rfl

variable (children sel) in
omit [DecidableEq σ] in
theorem flatMap_nodes_cons (hk : 0 < k) (c : σ) (after : List σ) :
    (c :: after).flatMap (nodes children sel k) = c :: ((c :: after).flatMap (nodes children sel k)).tail := by
  obtain ⟨k, rfl⟩ := Nat.exists_eq_succ_of_ne_zero (Nat.ne_zero_of_lt hk)
  rw [List.flatMap_cons, nodes, List.cons_append, List.tail_cons]

/-- From a child that the cursor comes to, through what is below it and its later siblings, back to the parent. -/
theorem Tree.trail (ht : Tree children parent sel depth root) (k : Nat) :
    ∀ {p : σ}, Reached children sel root p → (sel p).2 = true →
      (∀ x, Reached children sel root x → depth x < depth p + 1 + k) →
      ∀ (after before : List σ) (c : σ), children p = before ++ c :: after →
        ∃ n, Trail children parent sel root (arrive children sel c).2 n
            ((c :: after).flatMap (nodes children sel k)).tail ⟨p, false⟩ ∧
          n + 1 ≤ 2 * ((c :: after).flatMap (nodes children sel k)).length := by
  induction k with
  | zero =>
      intro p hp hsel hdepth after before c hsplit
      have hc : c ∈ children p := by rw [hsplit]; exact List.mem_append_right _ List.mem_cons_self
      have hdeeper := ht.deeper hp hc
      have hlt := hdepth c (hp.child hsel hc)
      omega
  | succ k ih =>
      intro p hp hsel hdepth after
      have hchild : ∀ {c}, c ∈ children p → Reached children sel root c ∧ c ≠ root := by
        intro c hc
        refine ⟨hp.child hsel hc, ?_⟩
        rintro rfl
        exact absurd (ht.deeper hp hc) (Nat.not_lt.mpr (ht.depth_le .root hp))
      have hbelow : ∀ {c}, c ∈ children p → ∃ n, Trail children parent sel root (arrive children sel c).2 n
          (nodes children sel (k + 1) c).tail ⟨c, false⟩ ∧ n ≤ 2 * (nodes children sel (k + 1) c).tail.length := by
        intro c hc
        obtain ⟨hreached, hne⟩ := hchild hc
        rw [nodes, List.tail_cons, arrive]
        cases hgo : (sel c).2 with
        | false => exact ⟨0, .refl _, Nat.zero_le _⟩
        | true =>
            cases hds : children c with
            | nil =>
                rw [if_pos rfl, List.flatMap_nil]
                exact ⟨0, .refl _, Nat.zero_le _⟩
            | cons d ds =>
                have hdeeper := ht.deeper hp hc
                obtain ⟨n, htrail, hn⟩ := ih hreached hgo (fun x hx => by have := hdepth x hx; omega) ds [] d hds
                have hd : d ∈ children c := by rw [hds]; exact List.mem_cons_self
                have hdne : d ≠ root := by
                  rintro rfl
                  exact absurd (ht.deeper hreached hd) (Nat.not_lt.mpr (ht.depth_le .root hreached))
                have hround : round children parent sel ⟨c, true⟩ = some (TreeWalk.arrive children sel d) := by
                  rw [round, if_pos rfl, hds]
                  rfl
                have hroom := hdepth d (hreached.child hgo hd)
                have hdeeper' := ht.deeper hreached hd
                have hk : 0 < k := by omega
                have hcons := flatMap_nodes_cons children sel hk d ds
                refine ⟨n + 1, ?_, ?_⟩
                · rw [if_pos rfl, hcons]
                  exact .arrive hne hdne hround htrail
                · rw [if_pos rfl]
                  exact hn
      induction after with
      | nil =>
          intro before c hsplit
          have hc : c ∈ children p := by rw [hsplit]; exact List.mem_append_right _ List.mem_cons_self
          obtain ⟨n, htrail, hn⟩ := hbelow hc
          have hround := round_leave sel (ht.parent_eq hp hc) (ht.nodup hp) hsplit
          refine ⟨n + 1, ?_, ?_⟩
          · rw [List.flatMap_singleton, ← List.append_nil (nodes children sel (k + 1) c).tail]
            exact htrail.trans (.up (hchild hc).2 hround (.refl _))
          · rw [List.flatMap_singleton, nodes, List.length_cons]
            rw [nodes, List.tail_cons] at hn
            omega
      | cons sibling after ihafter =>
          intro before c hsplit
          have hc : c ∈ children p := by rw [hsplit]; exact List.mem_append_right _ List.mem_cons_self
          have hs : sibling ∈ children p := by rw [hsplit]; simp
          obtain ⟨n, htrail, hn⟩ := hbelow hc
          obtain ⟨n', htrail', hn'⟩ := ihafter (before ++ [c]) sibling (by rw [hsplit, List.append_assoc]; rfl)
          have hround := round_leave sel (ht.parent_eq hp hc) (ht.nodup hp) hsplit
          have hcons := flatMap_nodes_cons children sel (Nat.succ_pos k) sibling after
          have htail : ((c :: sibling :: after).flatMap (nodes children sel (k + 1))).tail =
              (nodes children sel (k + 1) c).tail ++
                sibling :: ((sibling :: after).flatMap (nodes children sel (k + 1))).tail := by
            rw [← hcons, List.flatMap_cons, nodes]
            rfl
          refine ⟨n + (n' + 1), ?_, ?_⟩
          · rw [htail]
            exact htrail.trans (.arrive (hchild hc).2 (hchild hs).2 hround htrail')
          · rw [List.flatMap_cons, List.length_append, nodes, List.length_cons]
            rw [nodes, List.tail_cons] at hn
            omega

/-- From the root, the stops below it follow each other. -/
theorem Tree.below_root (ht : Tree children parent sel depth root) {fuel : Nat}
    (hdepth : ∀ x, Reached children sel root x → depth x < depth root + (k + 1))
    (hfuel : 2 * (nodes children sel (k + 1) root).length ≤ fuel) :
    next children parent sel root fuel (arrive children sel root).2 =
        some (stops children sel (nodes children sel (k + 1) root).tail).head? ∧
      Iteration.Follows (next children parent sel root fuel)
        (stops children sel (nodes children sel (k + 1) root).tail) := by
  rw [nodes, List.length_cons] at hfuel
  rw [nodes, List.tail_cons, arrive]
  cases hgo : (sel root).2 with
  | false => exact ⟨(if_pos rfl).trans (if_neg Bool.false_ne_true), trivial⟩
  | true =>
      cases hcs : children root with
      | nil => exact ⟨(if_pos rfl).trans (if_neg Bool.false_ne_true), trivial⟩
      | cons c cs =>
          have hc : c ∈ children root := by rw [hcs]; exact List.mem_cons_self
          have hdeeper := ht.deeper .root hc
          have hne : c ≠ root := by
            rintro rfl
            exact Nat.lt_irrefl _ hdeeper
          have hroom := hdepth c (Reached.root.child hgo hc)
          obtain ⟨n, htrail, hn⟩ := ht.trail k .root hgo (fun x hx => by have := hdepth x hx; omega) cs [] c hcs
          have hk : 0 < k := by omega
          have hcons := flatMap_nodes_cons children sel hk c cs
          rw [if_pos hgo, hcs] at hfuel
          have hround : round children parent sel ⟨root, true⟩ = some (arrive children sel c) := by
            rw [round, if_pos rfl, hcs]
            rfl
          have hshort : n < fuel := by omega
          have hloop := htrail.loop_eq rfl hshort
          have hrest := htrail.follows rfl hshort
          have hnext : next children parent sel root fuel ⟨root, true⟩ =
              if (sel c).1 = true then some (some (arrive children sel c).2)
              else loop children parent sel root fuel (arrive children sel c).2 := by
            rw [next, if_pos rfl, if_pos rfl, hround, Option.bind_some]
            rfl
          rw [if_pos rfl, hcons]
          refine ⟨hnext.trans ?_, ?_⟩
          · cases hstop : (sel c).1 with
            | true => rw [if_pos rfl, stops_cons_pos hstop, List.head?_cons]
            | false => rw [if_neg Bool.false_ne_true, stops_cons_neg hstop, hloop]
          · cases hstop : (sel c).1 with
            | true =>
                rw [stops_cons_pos hstop]
                exact ⟨(if_neg hne).trans hloop, hrest⟩
            | false =>
                rw [stops_cons_neg hstop]
                exact hrest

/-- The walk comes to its end and stops at the nodes in pre-order that are selected. -/
theorem Tree.walk_nodes (ht : Tree children parent sel depth root) {bound size fuel : Nat}
    (hdepth : ∀ x, Reached children sel root x → depth x < bound)
    (hsize : ∀ l : List σ, l.Nodup → (∀ x ∈ l, Reached children sel root x) → l.length ≤ size)
    (hfuel : 2 * size ≤ fuel) :
    walk children parent sel root fuel = some ((nodes children sel (bound + 1) root).filter fun r => (sel r).1) := by
  have hdeep : ∀ x, Reached children sel root x → depth x < depth root + (bound + 1) := fun x hx => by
    have := hdepth x hx
    omega
  have hmem : ∀ {x}, x ∈ nodes children sel (bound + 1) root ↔ Reached children sel root x := ht.mem_nodes hdeep
  have hnodup := ht.nodup_nodes (bound + 1) .root
  have hlength := hsize _ hnodup fun x hx => hmem.mp hx
  have henough : 2 * (nodes children sel (bound + 1) root).length ≤ fuel := by omega
  obtain ⟨hnext, hfollows⟩ := ht.below_root hdeep henough
  have hcons : nodes children sel (bound + 1) root = root :: (nodes children sel (bound + 1) root).tail := by
    rw [nodes, List.tail_cons]
  have hstart : start children parent sel root fuel =
        some (stops children sel (nodes children sel (bound + 1) root)).head? ∧
      Iteration.Follows (next children parent sel root fuel)
        (stops children sel (nodes children sel (bound + 1) root)) := by
    rw [hcons]
    cases hstop : (sel root).1 with
    | true =>
        rw [stops_cons_pos hstop, start, if_pos (by rw [arrive]; exact hstop)]
        exact ⟨rfl, hnext, hfollows⟩
    | false =>
        rw [stops_cons_neg hstop, start, if_neg (by rw [arrive, hstop]; exact Bool.false_ne_true)]
        exact ⟨hnext, hfollows⟩
  have hstops : (stops children sel (nodes children sel (bound + 1) root)).length ≤ fuel := by
    calc (stops children sel (nodes children sel (bound + 1) root)).length
        = ((nodes children sel (bound + 1) root).filter fun r => (sel r).1).length := List.length_map _
      _ ≤ (nodes children sel (bound + 1) root).length := List.length_filter_le _ _
      _ ≤ fuel := by omega
  rw [walk, hstart.1, Option.bind_some, hstart.2.visits_eq hstops, Option.map_some, stops, List.map_map]
  exact congrArg some (List.map_id _)

end Trails
end NfdPitless.TreeWalk
