import NfdPitless.Chains
import NfdPitless.NameTreeStructure

/-! The name tree with the nodes of its hash table as `daemon/table/name-tree.cpp` has them: a bucket points
to the first node of its chain, and a node to the node before and after it (`m_prev`, `m_next`). A node and
its entry are made and freed together, so one `Ref` stands for both. An operation returns `none` when one of
its assertions fails.

Where the chains are right, the operations do to the chains what those of `NameTree` do to its lists. -/

namespace NfdPitless

structure LinkedTree where
  entries : Ref → Option Entry
  nextRef : Ref
  links : Chains Ref
  nItems : Nat
  nBuckets : Nat
  minNBuckets : Nat
  enlargeThreshold : Nat
  shrinkThreshold : Nat

namespace LinkedTree

def new (nBuckets : Nat) : LinkedTree :=
  { entries := fun _ => none, nextRef := 0, links := .empty, nItems := 0, nBuckets, minNBuckets := nBuckets
    enlargeThreshold := nBuckets / 2, shrinkThreshold := nBuckets / 10 }

/-- The nodes met from the first one of a bucket on. There are fewer nodes than addresses. -/
def chain (t : LinkedTree) (b : Nat) : List Ref := t.links.walk t.nextRef (t.links.heads b)

def modifyEntry (t : LinkedTree) (r : Ref) (f : Entry → Entry) : LinkedTree :=
  match t.entries r with
  | some e => { t with entries := Function.update t.entries r (some (f e)) }
  | none => t

/-- The new bucket of a node. -/
def newLoc (t : LinkedTree) (newNBuckets : Nat) (r : Ref) : Nat :=
  (t.entries r).elim 0 fun e => NameTree.rehashLoc e.hash newNBuckets

/-- Every node is put at the end of its new chain, and the nodes are counted. -/
def resize (t : LinkedTree) (newNBuckets : Nat) : Option LinkedTree :=
  let moved := t.links.moveAll (t.newLoc newNBuckets) t.nextRef t.nBuckets
  -- BOOST_ASSERT(count == m_nItems)
  if moved.2 = t.nItems then
    some { t with
      links := moved.1, nBuckets := newNBuckets
      enlargeThreshold := newNBuckets / 2, shrinkThreshold := newNBuckets / 10 }
  else none

section Lookup

variable (cityHash : Component → UInt64)

def insert (t : LinkedTree) (namePrefix : Name) : LinkedTree × Ref × Bool :=
  let hashValue := computeHash cityHash namePrefix
  let loc := hashValue.toNat % t.nBuckets
  match (t.chain loc).find? fun r => (t.entries r).any fun e => namePrefix == e.entryPrefix with
  | some r => (t, r, false)
  | none =>
      ({ t with
          entries := Function.update t.entries t.nextRef (some (Entry.new namePrefix hashValue))
          nextRef := t.nextRef + 1
          links := t.links.append t.nextRef loc t.nextRef }, t.nextRef, true)

def linkNew (t : LinkedTree) (parent : Option Ref) (r : Ref) : LinkedTree :=
  let t := { t.modifyEntry r fun e => { e with parent } with nItems := t.nItems + 1 }
  match parent with
  | some p => t.modifyEntry p fun e => { e with children := e.children ++ [r] }
  | none => t

def enlargeIfLoaded (t : LinkedTree) : Option LinkedTree :=
  if t.nItems > t.enlargeThreshold then t.resize (2 * t.nBuckets) else some t

def lookupStep (acc : LinkedTree × Option Ref) (temp : Name) : Option (LinkedTree × Option Ref) :=
  let ret := acc.1.insert cityHash temp
  let t := if ret.2.2 then ret.1.linkNew acc.2 ret.2.1 else ret.1
  t.enlargeIfLoaded.map fun t => (t, some ret.2.1)

def lookup (t : LinkedTree) (namePrefix : Name) : Option (LinkedTree × Option Ref) :=
  ((List.range (namePrefix.length + 1)).map namePrefix.getPrefix).foldlM (lookupStep cityHash) (t, none)

end Lookup

/-- Take the node out of its chain; the bucket is that of its hash. -/
def removeNode (t : LinkedTree) (r : Ref) (e : Entry) : LinkedTree :=
  { t with
    entries := Function.update t.entries r none
    links := t.links.unlink (e.hash.toNat % t.nBuckets) r
    nItems := t.nItems - 1 }

def shrinkIfSparse (t : LinkedTree) : Option LinkedTree :=
  if t.nBuckets / 2 ≥ t.minNBuckets ∧ t.nItems < t.shrinkThreshold then t.resize (t.nBuckets / 2) else some t

/-- The recursion up the parents, by fuel. -/
def eraseUp : Nat → LinkedTree → Ref → Option (LinkedTree × Bool)
  | 0, _, _ => none
  | fuel + 1, t, r =>
      match t.entries r with
      | none => none
      | some e =>
          if e.isEmpty then
            match e.parent with
            | none => (t.removeNode r e).shrinkIfSparse.map fun t => (t, true)
            | some p =>
                -- BOOST_VERIFY(isFound == true)
                if (t.entries p).all fun pe => pe.children.contains r then
                  let t := t.modifyEntry p fun pe => { pe with children := Lists.swapPop pe.children r }
                  (eraseUp fuel (t.removeNode r e) p).bind fun erased =>
                    erased.1.shrinkIfSparse.map fun t => (t, true)
                else none
          else some (t, false)

def eraseEntryIfEmpty (t : LinkedTree) (r : Ref) : Option (LinkedTree × Bool) :=
  eraseUp (((t.entries r).elim 0 fun e => e.entryPrefix.length) + 1) t r

def apply (cityHash : Component → UInt64) (t : LinkedTree) : NameTree.Op → Option LinkedTree
  | .lookup n => (t.lookup cityHash n).map (·.1)
  | .eraseEntryIfEmpty r => (t.eraseEntryIfEmpty r).map (·.1)
  | .attach r a => some (t.modifyEntry r fun e =>
      { e with
        fibEntry := a.fibEntry, pitEntries := a.pitEntries
        measurementsEntry := a.measurementsEntry, strategyChoiceEntry := a.strategyChoiceEntry })

/-- The tree with its chains as lists. -/
def toNameTree (t : LinkedTree) : NameTree :=
  { entries := t.entries, nextRef := t.nextRef, buckets := t.chain, nItems := t.nItems, nBuckets := t.nBuckets
    minNBuckets := t.minNBuckets, enlargeThreshold := t.enlargeThreshold, shrinkThreshold := t.shrinkThreshold }

/-! ### Linked chains -/

variable {cityHash : Component → UInt64} {t t' : LinkedTree}

/-- Every chain is linked both ways, no node is in two chains, and the nodes have been made. -/
structure Linked (t : LinkedTree) : Prop where
  holds : t.links.Holds t.chain
  made : ∀ {b r}, r ∈ t.chain b → r < t.nextRef

theorem length_le_of_lt {l : List Ref} {bound : Nat} (hnodup : l.Nodup) (hlt : ∀ r ∈ l, r < bound) :
    l.length ≤ bound := by
  calc l.length ≤ (List.range bound).length :=
        (hnodup.subperm fun r hr => List.mem_range.mpr (hlt r hr)).length_le
    _ = bound := List.length_range

/-- Links that hold lists of nodes that have been made are linked chains, which are these lists. -/
theorem linked_of_holds {ls : Nat → List Ref} (h : t.links.Holds ls) (hlt : ∀ b, ∀ r ∈ ls b, r < t.nextRef) :
    t.Linked ∧ t.chain = ls := by
  have hchain : t.chain = ls := by
    funext b
    exact h.walk_eq (length_le_of_lt (h.nodup b) (hlt b))
  refine ⟨⟨?_, fun {b r} hr => ?_⟩, hchain⟩
  · rw [hchain]
    exact h
  · rw [hchain] at hr
    exact hlt b r hr

theorem new_linked (nBuckets : Nat) : (new nBuckets).Linked := by
  have hholds : (new nBuckets).links.Holds fun _ => [] :=
    ⟨fun _ => rfl, fun _ => List.nodup_nil, fun hr => by cases hr⟩
  exact (linked_of_holds hholds fun _ _ hr => by cases hr).1

theorem chain_congr (hlinks : t'.links = t.links) (hnext : t'.nextRef = t.nextRef) : t'.chain = t.chain := by
  funext b
  rw [chain, chain, hlinks, hnext]

/-- What does not touch the links keeps the chains. -/
theorem Linked.congr (h : t.Linked) (hlinks : t'.links = t.links) (hnext : t'.nextRef = t.nextRef) : t'.Linked := by
  refine ⟨?_, fun hr => ?_⟩
  · rw [chain_congr hlinks hnext, hlinks]
    exact h.holds
  · rw [chain_congr hlinks hnext] at hr
    rw [hnext]
    exact h.made hr

theorem modifyEntry_links (t : LinkedTree) (r : Ref) (f : Entry → Entry) : (t.modifyEntry r f).links = t.links := by
  unfold modifyEntry
  split <;> rfl

theorem modifyEntry_nextRef (t : LinkedTree) (r : Ref) (f : Entry → Entry) :
    (t.modifyEntry r f).nextRef = t.nextRef := by
  unfold modifyEntry
  split <;> rfl

theorem modifyEntry_nBuckets (t : LinkedTree) (r : Ref) (f : Entry → Entry) :
    (t.modifyEntry r f).nBuckets = t.nBuckets := by
  unfold modifyEntry
  split <;> rfl

theorem Linked.modifyEntry (h : t.Linked) (r : Ref) (f : Entry → Entry) : (t.modifyEntry r f).Linked :=
  h.congr (modifyEntry_links t r f) (modifyEntry_nextRef t r f)

theorem toNameTree_modifyEntry (t : LinkedTree) (r : Ref) (f : Entry → Entry) :
    (t.modifyEntry r f).toNameTree = t.toNameTree.modifyEntry r f := by
  have hentries : t.toNameTree.entries r = t.entries r := rfl
  cases he : t.entries r with
  | none => simp only [LinkedTree.modifyEntry, NameTree.modifyEntry, hentries, he]
  | some e =>
      simp only [LinkedTree.modifyEntry, NameTree.modifyEntry, hentries, he]
      rfl

theorem toNameTree_linkNew (t : LinkedTree) (parent : Option Ref) (r : Ref) :
    (t.linkNew parent r).toNameTree = t.toNameTree.linkNew parent r := by
  have hcount : ({ t.modifyEntry r fun e => { e with parent } with nItems := t.nItems + 1 } : LinkedTree).toNameTree =
      { t.toNameTree.modifyEntry r fun e => { e with parent } with nItems := t.nItems + 1 } := by
    rw [← toNameTree_modifyEntry]
    rfl
  cases parent with
  | none => exact hcount
  | some p =>
      simp only [LinkedTree.linkNew, NameTree.linkNew, toNameTree_modifyEntry, hcount]
      rfl

theorem Linked.linkNew (h : t.Linked) (parent : Option Ref) (r : Ref) : (t.linkNew parent r).Linked := by
  have hmod := h.modifyEntry r fun e => { e with parent }
  have hcount : ({ t.modifyEntry r fun e => { e with parent } with nItems := t.nItems + 1 } : LinkedTree).Linked :=
    hmod.congr rfl rfl
  cases parent with
  | none => exact hcount
  | some p => exact hcount.modifyEntry p _

/-- The tree with a new node, before it is counted and linked to its parent. -/
def withNode (t : LinkedTree) (n : Name) (hashValue : UInt64) : LinkedTree :=
  { t with
    entries := Function.update t.entries t.nextRef (some (Entry.new n hashValue))
    nextRef := t.nextRef + 1
    links := t.links.append t.nextRef (hashValue.toNat % t.nBuckets) t.nextRef }

theorem Linked.withNode (h : t.Linked) (n : Name) (hashValue : UInt64) :
    (t.withNode n hashValue).Linked ∧ (t.withNode n hashValue).chain =
      Function.update t.chain (hashValue.toNat % t.nBuckets)
      (t.chain (hashValue.toNat % t.nBuckets) ++ [t.nextRef]) := by
  have hroom : (t.chain (hashValue.toNat % t.nBuckets)).length ≤ t.nextRef :=
    length_le_of_lt (h.holds.nodup _) fun r hr => h.made hr
  have hnew : ∀ b, t.nextRef ∉ t.chain b := fun b hr => absurd (h.made hr) (lt_irrefl _)
  have hholds : (t.withNode n hashValue).links.Holds _ := h.holds.append hroom hnew
  refine linked_of_holds hholds fun b r hr => ?_
  rcases Chains.mem_update_append.mp hr with hold | ⟨-, rfl⟩
  · exact Nat.lt_succ_of_lt (h.made hold)
  · exact Nat.lt_succ_self _

/-- Inserting does to the chains what it does to the lists. -/
theorem Linked.insert (h : t.Linked) (cityHash : Component → UInt64) (n : Name) :
    (t.insert cityHash n).1.Linked ∧ (t.insert cityHash n).1.toNameTree = (t.toNameTree.insert cityHash n).1 ∧
      (t.insert cityHash n).2 = (t.toNameTree.insert cityHash n).2 := by
  have hbucket : t.toNameTree.buckets ((computeHash cityHash n).toNat % t.toNameTree.nBuckets) =
      t.chain ((computeHash cityHash n).toNat % t.nBuckets) := rfl
  have hentries : t.toNameTree.entries = t.entries := rfl
  cases hfind : (t.chain ((computeHash cityHash n).toNat % t.nBuckets)).find? fun r =>
      (t.entries r).any fun e => n == e.entryPrefix with
  | some r =>
      have hlinked : t.insert cityHash n = (t, r, false) := by simp only [LinkedTree.insert, hfind]
      have hlists : t.toNameTree.insert cityHash n = (t.toNameTree, r, false) := by
        simp only [NameTree.insert, hbucket, hentries, hfind]
      rw [hlinked, hlists]
      exact ⟨h, rfl, rfl⟩
  | none =>
      obtain ⟨hnode, hchain⟩ := h.withNode n (computeHash cityHash n)
      have hlinked : t.insert cityHash n = (t.withNode n (computeHash cityHash n), t.nextRef, true) := by
        simp only [LinkedTree.insert, hfind]
        rfl
      have hlists : t.toNameTree.insert cityHash n =
          ((t.withNode n (computeHash cityHash n)).toNameTree, t.nextRef, true) := by
        simp only [NameTree.insert, hfind, toNameTree, hchain]
        rfl
      rw [hlinked, hlists]
      exact ⟨hnode, rfl, rfl⟩

/-- The nodes in the order in which `resize` meets them. -/
def nodes (t : LinkedTree) : List Ref := (List.range t.nBuckets).flatMap t.chain

/-- The chains have the stored entries, as many as are counted. -/
structure Full (t : LinkedTree) : Prop where
  stored : ∀ {b r}, r ∈ t.chain b → (t.entries r).isSome
  length_eq : t.nodes.length = t.nItems

theorem full_of_counted (hsound : t.toNameTree.Sound cityHash) (hcounted : t.toNameTree.Counted) : t.Full where
  stored hr := by
    obtain ⟨n, hn, -⟩ := hsound.mem_bucket.mp hr
    obtain ⟨e, he, -⟩ := NameTree.nameOf_eq_some.mp hn
    exact Option.isSome_iff_exists.mpr ⟨e, he⟩
  length_eq := by
    have hmem : ∀ r, r ∈ t.nodes ↔ r ∈ t.toNameTree.stored := by
      intro r
      refine (hsound.mem_nodes (r := r)).trans ⟨fun ⟨n, hn⟩ => ?_, fun hr => ?_⟩
      · obtain ⟨e, he, -⟩ := NameTree.nameOf_eq_some.mp hn
        exact Option.isSome_iff_exists.mpr ⟨e, he⟩
      · obtain ⟨e, he⟩ := Option.isSome_iff_exists.mp hr
        exact ⟨_, NameTree.nameOf_eq_some.mpr ⟨e, he, rfl⟩⟩
    have hset : t.toNameTree.stored = ↑t.nodes.toFinset := by
      ext r
      rw [List.coe_toFinset]
      exact (hmem r).symm
    have hitems : t.nItems = t.toNameTree.stored.ncard := hcounted.nItems_eq
    rw [hitems, hset, Set.ncard_coe_finset, List.toFinset_card_of_nodup]
    exact hsound.nodes_nodup

theorem Linked.nodes_made (h : t.Linked) {r : Ref} (hr : r ∈ t.nodes) : r < t.nextRef := by
  obtain ⟨b, -, hb⟩ := List.mem_flatMap.mp hr
  exact h.made hb

theorem Linked.nodes_length_le (h : t.Linked) : t.nodes.length ≤ t.nextRef := by
  have hnodup : t.nodes.Nodup := by
    refine List.nodup_flatMap.mpr ⟨fun b _ => h.holds.nodup b, List.nodup_range.imp fun hne r hr hr' => ?_⟩
    exact hne (h.holds.disjoint hr hr')
  exact length_le_of_lt hnodup fun r hr => h.nodes_made hr

theorem Full.resize_buckets (h : t.Full) (m : Nat) :
    (t.toNameTree.resize m).buckets = fun b => t.nodes.filter fun r => t.newLoc m r == b := by
  funext b
  rw [NameTree.resize_buckets]
  refine List.filter_congr fun r hr => ?_
  obtain ⟨b', -, hb'⟩ := List.mem_flatMap.mp hr
  obtain ⟨e, he⟩ := Option.isSome_iff_exists.mp (h.stored hb')
  have hentry : t.toNameTree.entries r = some e := he
  rw [hentry, newLoc, he]
  rfl

/-- Resizing meets every node once, so that the assertion holds, and moves it as in the lists. -/
theorem Linked.resize (h : t.Linked) (hfull : t.Full) (m : Nat) :
    ∃ t', t.resize m = some t' ∧ t'.Linked ∧ t'.toNameTree = t.toNameTree.resize m := by
  obtain ⟨hmoved, hcount, -⟩ := h.holds.moveAll (t.newLoc m) t.nBuckets h.nodes_length_le
  have hassert : (t.links.moveAll (t.newLoc m) t.nextRef t.nBuckets).2 = t.nItems := hcount.trans hfull.length_eq
  refine ⟨_, if_pos hassert, ?_⟩
  generalize hresized : ({ t with
    links := (t.links.moveAll (t.newLoc m) t.nextRef t.nBuckets).1, nBuckets := m, enlargeThreshold := m / 2
    shrinkThreshold := m / 10 } : LinkedTree) = t'
  have hholds : t'.links.Holds fun b => t.nodes.filter fun r => t.newLoc m r == b := by
    rw [← hresized]
    exact hmoved
  have hnext : t'.nextRef = t.nextRef := by rw [← hresized]
  obtain ⟨hlinked, hchain⟩ := linked_of_holds hholds fun b r hr => hnext ▸ h.nodes_made (List.mem_of_mem_filter hr)
  refine ⟨hlinked, ?_⟩
  calc t'.toNameTree = { t.toNameTree.resize m with buckets := t'.chain } := by
        rw [← hresized]
        rfl
    _ = { t.toNameTree.resize m with buckets := (t.toNameTree.resize m).buckets } := by
        rw [hchain, hfull.resize_buckets]
    _ = t.toNameTree.resize m := rfl

theorem Linked.enlargeIfLoaded (h : t.Linked) (hfull : t.enlargeThreshold < t.nItems → t.Full) :
    ∃ t', t.enlargeIfLoaded = some t' ∧ t'.Linked ∧ t'.toNameTree = t.toNameTree.enlargeIfLoaded := by
  by_cases hload : t.enlargeThreshold < t.nItems
  · obtain ⟨t', hrun, hlinked, heq⟩ := h.resize (hfull hload) (2 * t.nBuckets)
    refine ⟨t', (if_pos hload).trans hrun, hlinked, heq.trans ?_⟩
    exact (if_pos hload).symm
  · exact ⟨t, if_neg hload, h, (if_neg hload).symm⟩

/-- What one iteration leaves before it may enlarge the table. -/
def afterInsert (cityHash : Component → UInt64) (t : LinkedTree) (parent : Option Ref) (n : Name) : LinkedTree :=
  let ret := t.insert cityHash n
  if ret.2.2 then ret.1.linkNew parent ret.2.1 else ret.1

theorem Linked.afterInsert (h : t.Linked) (cityHash : Component → UInt64) (parent : Option Ref) (n : Name) :
    (t.afterInsert cityHash parent n).Linked ∧
      (t.afterInsert cityHash parent n).toNameTree = t.toNameTree.afterInsert cityHash parent n := by
  obtain ⟨hlinked, heq, hret⟩ := h.insert cityHash n
  unfold LinkedTree.afterInsert NameTree.afterInsert
  dsimp only
  rw [hret, ← heq]
  split
  · exact ⟨hlinked.linkNew _ _, toNameTree_linkNew _ _ _⟩
  · exact ⟨hlinked, rfl⟩

/-- One iteration of `lookup`. -/
theorem Linked.lookupStep (h : t.Linked) (parent : Option Ref) (n : Name)
    (hfull : (t.afterInsert cityHash parent n).enlargeThreshold < (t.afterInsert cityHash parent n).nItems →
      (t.afterInsert cityHash parent n).Full) :
    ∃ t' r, LinkedTree.lookupStep cityHash (t, parent) n = some (t', r) ∧ t'.Linked ∧
      (t'.toNameTree, r) = NameTree.lookupStep cityHash (t.toNameTree, parent) n := by
  obtain ⟨-, -, hret⟩ := h.insert cityHash n
  obtain ⟨hafter, heq⟩ := h.afterInsert cityHash parent n
  obtain ⟨t', hrun, hlinked, htree⟩ := hafter.enlargeIfLoaded hfull
  refine ⟨t', some (t.insert cityHash n).2.1, ?_, hlinked, ?_⟩
  · have hstep : LinkedTree.lookupStep cityHash (t, parent) n =
        (t.afterInsert cityHash parent n).enlargeIfLoaded.map fun t' => (t', some (t.insert cityHash n).2.1) := rfl
    rw [hstep, hrun, Option.map_some]
  · rw [NameTree.lookupStep_eq, htree, heq, hret]

/-- The tree is linked, and the lists of its chains are right and counted. -/
structure Consistent (cityHash : Component → UInt64) (t : LinkedTree) : Prop where
  linked : t.Linked
  sound : t.toNameTree.Sound cityHash
  counted : t.toNameTree.Counted

theorem Consistent.full (h : t.Consistent cityHash) : t.Full := full_of_counted h.sound h.counted

theorem Consistent.lookupLoop (h : t.Consistent cityHash) {n : Name} (hre : t.toNameTree.LookupRehashes cityHash n) :
    ∀ j, j ≤ n.length + 1 → ∃ t' r,
      (List.range j).foldlM (fun acc i => LinkedTree.lookupStep cityHash acc (n.getPrefix i)) (t, none) = some (t', r) ∧
      t'.Linked ∧ (t'.toNameTree, r) = t.toNameTree.lookupAcc cityHash n j := by
  intro j
  induction j with
  | zero => exact fun _ => ⟨t, none, rfl, h.linked, rfl⟩
  | succ j ih =>
      intro hj
      obtain ⟨t', parent, hrun, hlinked, hacc⟩ := ih (by omega)
      obtain ⟨hsound, -, -, hparent, -⟩ := h.sound.lookupLoop n hre j (by omega)
      have hcounted := h.counted.lookupAcc cityHash n j
      rw [← hacc] at hsound hparent hcounted
      obtain ⟨-, hafter⟩ := hlinked.afterInsert cityHash parent (n.getPrefix j)
      have hsound' := (hsound.afterInsert (hparent (by omega))).1
      have hcounted' := hsound.counted_afterInsert hcounted (hparent (by omega))
      rw [← hafter] at hsound' hcounted'
      have hfull := full_of_counted hsound' hcounted'
      obtain ⟨t'', r, hstep, hlinked', hacc'⟩ := hlinked.lookupStep parent (n.getPrefix j) fun _ => hfull
      refine ⟨t'', r, ?_, hlinked', ?_⟩
      · rw [List.range_succ, List.foldlM_append, hrun]
        simpa using hstep
      · rw [NameTree.lookupAcc_succ, ← hacc, hacc']

/-- A lookup that resizes without harm does to the chains what it does to the lists. -/
theorem Consistent.lookup (h : t.Consistent cityHash) {n : Name} (hok : t.toNameTree.Harmless cityHash (.lookup n)) :
    ∃ t' r, t.lookup cityHash n = some (t', r) ∧ t'.Consistent cityHash ∧
      (t'.toNameTree, r) = t.toNameTree.lookup cityHash n := by
  obtain ⟨t', r, hrun, hlinked, hacc⟩ := h.lookupLoop hok.lookupRehashes (n.length + 1) le_rfl
  rw [← NameTree.lookup_eq_lookupAcc] at hacc
  refine ⟨t', r, ?_, ⟨hlinked, ?_, ?_⟩, hacc⟩
  · rw [LinkedTree.lookup, List.foldlM_map, hrun]
  · have hsound := (h.sound.lookup n hok.lookupRehashes).1
    rw [← hacc] at hsound
    exact hsound
  · have hcounted := h.counted.lookup cityHash n
    rw [← hacc] at hcounted
    exact hcounted

theorem Linked.removeNode (h : t.Linked) {r : Ref} {e : Entry} (hr : r ∈ t.chain (e.hash.toNat % t.nBuckets)) :
    (t.removeNode r e).Linked ∧ (t.removeNode r e).toNameTree = t.toNameTree.removeNode r e := by
  have hholds : (t.removeNode r e).links.Holds _ := h.holds.unlink hr
  obtain ⟨hlinked, hchain⟩ := linked_of_holds hholds fun b x hx => by
    by_cases hb : b = e.hash.toNat % t.nBuckets
    · subst hb
      rw [Function.update_self] at hx
      exact h.made (List.mem_of_mem_erase hx)
    · rw [Function.update_of_ne hb] at hx
      exact h.made hx
  refine ⟨hlinked, ?_⟩
  calc (t.removeNode r e).toNameTree
      = { t.toNameTree.removeNode r e with buckets := (t.removeNode r e).chain } := rfl
    _ = t.toNameTree.removeNode r e := by
        rw [hchain]
        rfl

/-- The tree after an empty entry has been taken from its parent's children and from its chain. -/
def removed (t : LinkedTree) (r : Ref) (e : Entry) : LinkedTree :=
  match e.parent with
  | none => t.removeNode r e
  | some p => (t.modifyEntry p fun pe => { pe with children := Lists.swapPop pe.children r }).removeNode r e

theorem Consistent.removed (h : t.Consistent cityHash) {r : Ref} {e : Entry} (he : t.entries r = some e)
    (hempty : e.isEmpty = true) :
    (t.removed r e).Consistent cityHash ∧ (t.removed r e).toNameTree = t.toNameTree.removed r e := by
  have hentry : t.toNameTree.entries r = some e := he
  have hmem : r ∈ t.chain (e.hash.toNat % t.nBuckets) := by
    refine h.sound.mem_bucket.mpr ⟨e.entryPrefix, NameTree.nameOf_eq_some.mpr ⟨e, hentry, rfl⟩, ?_⟩
    rw [NameTree.loc, ← h.sound.hash_eq hentry]
    rfl
  have hboth : (t.removed r e).Linked ∧ (t.removed r e).toNameTree = t.toNameTree.removed r e := by
    cases hp : e.parent with
    | none =>
        simp only [LinkedTree.removed, NameTree.removed, hp]
        exact h.linked.removeNode hmem
    | some p =>
        simp only [LinkedTree.removed, NameTree.removed, hp, ← toNameTree_modifyEntry]
        refine (h.linked.modifyEntry p _).removeNode ?_
        rw [chain_congr (modifyEntry_links t p _) (modifyEntry_nextRef t p _), modifyEntry_nBuckets]
        exact hmem
  obtain ⟨hlinked, heq⟩ := hboth
  refine ⟨⟨hlinked, ?_, ?_⟩, heq⟩
  · rw [heq]
    exact h.sound.removed hentry hempty
  · rw [heq]
    exact h.counted.removed hentry hempty

theorem Consistent.shrinkIfSparse (h : t.Consistent cityHash) (hre : t.toNameTree.ShrinkRehashes) :
    ∃ t', t.shrinkIfSparse = some t' ∧ t'.Consistent cityHash ∧ t'.toNameTree = t.toNameTree.shrinkIfSparse := by
  have hrun : ∃ t', t.shrinkIfSparse = some t' ∧ t'.Linked ∧ t'.toNameTree = t.toNameTree.shrinkIfSparse := by
    by_cases hsparse : t.nBuckets / 2 ≥ t.minNBuckets ∧ t.nItems < t.shrinkThreshold
    · obtain ⟨t', hrun, hlinked, heq⟩ := h.linked.resize h.full (t.nBuckets / 2)
      exact ⟨t', (if_pos hsparse).trans hrun, hlinked, heq.trans (if_pos hsparse).symm⟩
    · exact ⟨t, if_neg hsparse, h.linked, (if_neg hsparse).symm⟩
  obtain ⟨t', hrun, hlinked, heq⟩ := hrun
  refine ⟨t', hrun, ⟨hlinked, ?_, ?_⟩, heq⟩
  · rw [heq]
    exact h.sound.shrinkIfSparse hre
  · rw [heq]
    exact h.counted.shrinkIfSparse

theorem eraseUp_not_empty (fuel : Nat) {r : Ref} {e : Entry} (he : t.entries r = some e) (hempty : e.isEmpty = false) :
    eraseUp (fuel + 1) t r = some (t, false) := by
  simp only [eraseUp, he, hempty, Bool.false_eq_true, if_false]

theorem eraseUp_root (fuel : Nat) {r : Ref} {e : Entry} (he : t.entries r = some e) (hempty : e.isEmpty = true)
    (hp : e.parent = none) : eraseUp (fuel + 1) t r = (t.removed r e).shrinkIfSparse.map fun t => (t, true) := by
  simp only [eraseUp, he, hempty, if_true, hp, LinkedTree.removed]

theorem eraseUp_parent (fuel : Nat) {r p : Ref} {e : Entry} (he : t.entries r = some e) (hempty : e.isEmpty = true)
    (hp : e.parent = some p) (hchild : ((t.entries p).all fun pe => pe.children.contains r) = true) :
    eraseUp (fuel + 1) t r = (eraseUp fuel (t.removed r e) p).bind fun erased =>
      erased.1.shrinkIfSparse.map fun t => (t, true) := by
  simp only [eraseUp, he, hempty, if_true, hp, hchild, LinkedTree.removed]

/-- The parent stays, and its name is shorter. -/
theorem Consistent.parent_kept (h : t.Consistent cityHash) {r p : Ref} {e : Entry} (he : t.entries r = some e)
    (hempty : e.isEmpty = true) (hp : e.parent = some p) :
    ∃ pe, (t.removed r e).entries p = some pe ∧ pe.entryPrefix.length < e.entryPrefix.length := by
  have hentry : t.toNameTree.entries r = some e := he
  have hr : t.toNameTree.nameOf r = some e.entryPrefix := NameTree.nameOf_eq_some.mpr ⟨e, hentry, rfl⟩
  have hparent : t.toNameTree.parentOf r = some p := NameTree.parentOf_eq_some.mpr ⟨e, hentry, hp⟩
  obtain ⟨-, hpn⟩ := h.sound.parent_name hr hparent
  have hne := h.sound.parent_ne hr hparent
  have hname : (t.toNameTree.removed r e).nameOf p = some e.entryPrefix.dropLast := by
    rw [NameTree.removed_nameOf, if_neg hne, hpn]
  have hlt := h.sound.removed_parent_shorter hentry hp hname
  rw [← (h.removed he hempty).2] at hname
  obtain ⟨pe, hpe, heq⟩ := NameTree.nameOf_eq_some.mp hname
  exact ⟨pe, hpe, by rw [heq]; exact hlt⟩

/-- The parent lists the entry as a child. -/
theorem Consistent.child_listed (h : t.Consistent cityHash) {r p : Ref} {e : Entry} (he : t.entries r = some e)
    (hp : e.parent = some p) : ((t.entries p).all fun pe => pe.children.contains r) = true := by
  have hmem := h.sound.mem_children.mpr (NameTree.parentOf_eq_some.mpr ⟨e, he, hp⟩)
  cases hpe : t.entries p with
  | none => rfl
  | some pe =>
      have hentry : t.toNameTree.entries p = some pe := hpe
      rw [NameTree.childrenOf, hentry] at hmem
      exact List.contains_iff_mem.mpr hmem

/-- The recursion of `eraseEntryIfEmpty`: the assertions hold, and it does to the chains what it does to the
lists. -/
theorem Consistent.eraseUp (fuel : Nat) : ∀ {t : LinkedTree} {r : Ref} {e : Entry}, t.Consistent cityHash →
    t.entries r = some e → e.entryPrefix.length < fuel → NameTree.EraseRehashes fuel t.toNameTree r →
    ∃ t' erased, LinkedTree.eraseUp fuel t r = some (t', erased) ∧ t'.Consistent cityHash ∧
      (t'.toNameTree, erased) = NameTree.eraseUp fuel t.toNameTree r := by
  induction fuel with
  | zero => exact fun _ _ hfuel => absurd hfuel (Nat.not_lt_zero _)
  | succ fuel ih =>
      intro t r e h he hfuel hre
      have hentry : t.toNameTree.entries r = some e := he
      cases hempty : e.isEmpty with
      | false =>
          refine ⟨t, false, eraseUp_not_empty fuel he hempty, h, ?_⟩
          rw [NameTree.eraseUp_unchanged (fuel + 1)]
          intro e' he'
          rw [hentry] at he'
          cases he'
          exact hempty
      | true =>
          obtain ⟨hup, hshrink⟩ := hre e hentry hempty
          obtain ⟨hrem, heq⟩ := h.removed he hempty
          rw [NameTree.eraseUp_empty fuel hentry hempty]
          cases hp : e.parent with
          | none =>
              rw [hp, ← heq] at hshrink
              obtain ⟨t', hrun, hcons, htree⟩ := hrem.shrinkIfSparse hshrink
              refine ⟨t', true, by rw [eraseUp_root fuel he hempty hp, hrun, Option.map_some], hcons, ?_⟩
              rw [htree, heq]
              rfl
          | some p =>
              obtain ⟨pe, hpe, hlen⟩ := h.parent_kept he hempty hp
              have hchild := h.child_listed he hp
              have hup' := hup p hp
              rw [hp] at hshrink
              rw [← heq] at hup' hshrink
              obtain ⟨t₁, erased, hrun, hcons, htree⟩ := ih hrem hpe (by omega) hup'
              dsimp only [Option.elim] at hshrink
              rw [← htree] at hshrink
              obtain ⟨t', hrun', hcons', htree'⟩ := hcons.shrinkIfSparse hshrink
              refine ⟨t', true, ?_, hcons', ?_⟩
              · rw [eraseUp_parent fuel he hempty hp hchild, hrun, Option.bind_some, hrun', Option.map_some]
              · rw [htree']
                dsimp only [Option.elim]
                rw [← heq, ← htree]

end LinkedTree
end NfdPitless
