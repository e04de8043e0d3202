import NfdPitless.NameTreeEnumerate
import NfdPitless.NameTreePreOrder
import NfdPitless.Precedes

/-! A full enumeration of the name tree with lookups between its steps. The iterator knows no more than the entry it is
at, and goes on from there in the table as it is by then. A lookup that enlarges the table moves entries across it. -/

namespace NfdPitless.NameTree

/-- An iterator in its tree, and what it has visited so far. -/
structure Enumeration where
  tree : NameTree
  current : Option Ref
  visited : List Ref

namespace Enumeration

inductive Event where
  | lookup (n : Name)
  | increment

def start (t : NameTree) (sel : EntrySelector) : Enumeration :=
  { tree := t, current := t.fullBegin sel, visited := (t.fullBegin sel).toList }

/-- The iterator is not incremented at the end. -/
def step (cityHash : Component → UInt64) (sel : EntrySelector) (s : Enumeration) : Event → Option Enumeration
  | .lookup n => some { s with tree := (s.tree.lookup cityHash n).1 }
  | .increment => s.current.bind fun r => (s.tree.fullNext sel r).map fun next =>
      { s with current := next, visited := s.visited ++ next.toList }

end Enumeration

variable {cityHash : Component → UInt64} {t t' : NameTree} {n : Name} {r x : Ref} {sel : EntrySelector} {m : Nat}

theorem Sound.mem_nodes_of_selects (h : t.Sound cityHash) (hsel : t.selects sel x = true) : x ∈ t.nodes := by
  obtain ⟨e, he, -⟩ := (Option.any_eq_true _ _).mp hsel
  exact h.mem_nodes.mpr ⟨e.entryPrefix, nameOf_eq_some.mpr ⟨e, he, rfl⟩⟩

theorem Sound.mem_own_bucket (h : t.Sound cityHash) {e : Entry} (he : t.entries r = some e) :
    r ∈ t.buckets (e.hash.toNat % t.nBuckets) := by
  refine h.mem_bucket.mpr ⟨e.entryPrefix, nameOf_eq_some.mpr ⟨e, he, rfl⟩, ?_⟩
  rw [loc, h.hash_eq he]

/-- The buckets come one after the other. -/
theorem Sound.loc_le_of_precedes (h : t.Sound cityHash) {e e' : Entry} (he : t.entries r = some e)
    (he' : t.entries x = some e') (hprec : Precedes t.nodes r x) :
    e.hash.toNat % t.nBuckets ≤ e'.hash.toNat % t.nBuckets := by
  by_contra hlt
  have hback : Precedes t.nodes x r := Precedes.flatMap_lt (Nat.lt_of_not_le hlt)
    (Nat.mod_lt _ h.nBuckets_pos) (h.mem_own_bucket he') (h.mem_own_bucket he)
  exact hprec.asymm h.nodes_nodup hback

/-- A new entry changes the order of no others. -/
theorem Sound.precedes_added {parent : Option Ref} (hsound : (t.added cityHash parent n).Sound cityHash)
    (hr : r ∈ t.nodes) (hx : x ∈ t.nodes) :
    Precedes (t.added cityHash parent n).nodes r x ↔ Precedes t.nodes r x := by
  have hsub : t.nodes.Sublist (t.added cityHash parent n).nodes := by
    rw [nodes, nodes, added_nBuckets]
    refine List.Sublist.flatMap_right _ fun b _ => ?_
    rw [added_buckets]
    split
    · exact List.sublist_append_left _ _
    · exact List.Sublist.refl _
  exact Precedes.iff_of_imp hsound.nodes_nodup hr hx (fun h => h.mono hsub) fun h => h.mono hsub

/-- When the table is doubled an entry stays in its bucket or goes to the one as far up again. -/
def MovesUp (t : NameTree) (r : Ref) : Prop := ∃ e, t.entries r = some e ∧ t.nBuckets ≤ e.hash.toNat % (2 * t.nBuckets)

theorem mod_two_mul_cases (a : Nat) {b : Nat} (hb : 0 < b) :
    a % (2 * b) = a % b ∧ a % (2 * b) < b ∨ a % (2 * b) = a % b + b ∧ b ≤ a % (2 * b) := by
  have hlt := Nat.mod_lt a hb
  have hsplit : a % (2 * b) = a % b + b * (a / b % 2) := by
    rw [Nat.mul_comm 2 b, Nat.mod_mul]
  rcases Nat.mod_two_eq_zero_or_one (a / b) with hzero | hone
  · rw [hsplit, hzero]
    omega
  · rw [hsplit, hone]
    omega

/-- The order is kept where an entry that goes up takes those behind it along. -/
theorem Sound.precedes_doubled (h : t.Sound cityHash) (hre : t.RehashesTo (2 * t.nBuckets)) (hr : r ∈ t.nodes)
    (hx : x ∈ t.nodes) (hprec : Precedes t.nodes r x) (hup : t.MovesUp r → t.MovesUp x) :
    Precedes (t.resize (2 * t.nBuckets)).nodes r x := by
  obtain ⟨nr, hnr⟩ := h.mem_nodes.mp hr
  obtain ⟨nx, hnx⟩ := h.mem_nodes.mp hx
  obtain ⟨e, he, -⟩ := nameOf_eq_some.mp hnr
  obtain ⟨e', he', -⟩ := nameOf_eq_some.mp hnx
  have hpos := h.nBuckets_pos
  have hle := h.loc_le_of_precedes he he' hprec
  have hin : ∀ {y e}, t.entries y = some e → y ∈ t.nodes →
      y ∈ (t.resize (2 * t.nBuckets)).buckets (e.hash.toNat % (2 * t.nBuckets)) := by
    intro y e he hy
    rw [resize_buckets, List.mem_filter]
    refine ⟨hy, ?_⟩
    rw [he, Option.any_some, hre y e he, beq_self_eq_true]
  have hbound : ∀ a, a % (2 * t.nBuckets) < 2 * t.nBuckets := fun a => Nat.mod_lt a (by omega)
  have hnot : ¬ e'.hash.toNat % (2 * t.nBuckets) < e.hash.toNat % (2 * t.nBuckets) := by
    intro hlt
    rcases mod_two_mul_cases e.hash.toNat hpos with ⟨hlow, -⟩ | ⟨hhigh, hge⟩
    · rcases mod_two_mul_cases e'.hash.toNat hpos with ⟨hlow', -⟩ | ⟨hhigh', -⟩ <;> omega
    · obtain ⟨e₁, he₁, hge'⟩ := hup ⟨e, he, hge⟩
      cases he₁.symm.trans he'
      rcases mod_two_mul_cases e'.hash.toNat hpos with ⟨-, hlow'⟩ | ⟨hhigh', -⟩ <;> omega
  rcases Nat.lt_or_eq_of_le (Nat.not_lt.mp hnot) with hlt | heq
  · exact Precedes.flatMap_lt hlt (hbound _) (hin he hr) (hin he' hx)
  · refine Precedes.flatMap_same (hbound e.hash.toNat) ?_
    rw [resize_buckets]
    refine hprec.filter ?_ ?_
    · rw [he, Option.any_some, hre r e he, beq_self_eq_true]
    · rw [he', Option.any_some, hre x e' he', heq, beq_self_eq_true]

/-- If the table is doubled, what is behind an entry that goes up goes up as well, and nothing that was before it is
left behind it. -/
def SplitsRight (t : NameTree) (r x : Ref) : Prop :=
  (Precedes t.nodes r x → t.MovesUp r → t.MovesUp x) ∧ (Precedes t.nodes x r → t.MovesUp x → t.MovesUp r)

theorem Sound.precedes_enlarge (h : t.Sound cityHash)
    (hre : t.enlargeThreshold < t.nItems → t.RehashesTo (2 * t.nBuckets))
    (hsplit : t.enlargeThreshold < t.nItems → t.SplitsRight r x) (hr : r ∈ t.nodes) (hx : x ∈ t.nodes) :
    Precedes t.enlargeIfLoaded.nodes r x ↔ Precedes t.nodes r x := by
  have hsound := h.enlargeIfLoaded hre
  unfold NameTree.enlargeIfLoaded at hsound ⊢
  split
  · rename_i hload
    rw [if_pos hload] at hsound
    obtain ⟨hbehind, hbefore⟩ := hsplit hload
    exact Precedes.iff_of_imp hsound.nodes_nodup hr hx
      (fun hprec => h.precedes_doubled (hre hload) hr hx hprec (hbehind hprec))
      fun hprec => h.precedes_doubled (hre hload) hx hr hprec (hbefore hprec)
  · exact Iff.rfl

/-- A lookup leaves the second entry on the same side of the first one. -/
def KeepsSide (cityHash : Component → UInt64) (t : NameTree) (n : Name) (r x : Ref) : Prop :=
  Precedes (t.lookup cityHash n).1.nodes r x ↔ Precedes t.nodes r x

instance (cityHash : Component → UInt64) (t : NameTree) (n : Name) (r x : Ref) :
    Decidable (t.KeepsSide cityHash n r x) :=
  inferInstanceAs (Decidable (_ ↔ _))

/-- So do all lookups that do not enlarge the table, or where the enlarged table splits the buckets right. -/
theorem Sound.keepsSide (h : t.Sound cityHash) (hok : t.Harmless cityHash (.lookup n))
    (hsplit : ∀ j ≤ n.length, (t.beforeEnlarge cityHash n j).enlargeThreshold < (t.beforeEnlarge cityHash n j).nItems →
      (t.beforeEnlarge cityHash n j).SplitsRight r x) (hr : r ∈ t.nodes) (hx : x ∈ t.nodes) :
    t.KeepsSide cityHash n r x := by
  obtain ⟨nr, hnr⟩ := h.mem_nodes.mp hr
  obtain ⟨nx, hnx⟩ := h.mem_nodes.mp hx
  have hloop : ∀ j ≤ n.length + 1, (Precedes (t.lookupAcc cityHash n j).1.nodes r x ↔ Precedes t.nodes r x) := by
    intro j
    induction j with
    | zero => exact fun _ => Iff.rfl
    | succ j ih =>
        intro hj
        obtain ⟨hsound, hkeep, -, hparent, -⟩ := h.lookupLoop n hok.lookupRehashes j (by omega)
        obtain ⟨hafter, hkeep', -⟩ := hsound.afterInsert (hparent (by omega))
        have hadd : Precedes (t.beforeEnlarge cityHash n j).nodes r x ↔
            Precedes (t.lookupAcc cityHash n j).1.nodes r x := by
          unfold beforeEnlarge
          rcases hsound.afterInsert_cases (t.lookupAcc cityHash n j).2 (n.getPrefix j) with ⟨-, -, heq, -⟩ | ⟨-, heq, -⟩
          · rw [heq]
          · rw [heq] at hafter ⊢
            exact Sound.precedes_added hafter (hsound.mem_nodes.mpr ⟨nr, hkeep r nr hnr⟩)
              (hsound.mem_nodes.mpr ⟨nx, hkeep x nx hnx⟩)
        rw [← ih (by omega), ← hadd, lookupAcc_succ, lookupStep_eq]
        exact Sound.precedes_enlarge hafter (hok j (by omega)) (hsplit j (by omega))
          (hafter.mem_nodes.mpr ⟨nr, hkeep' r nr (hkeep r nr hnr)⟩)
          (hafter.mem_nodes.mpr ⟨nx, hkeep' x nx (hkeep x nx hnx)⟩)
  rw [KeepsSide, lookup_eq_lookupAcc]
  exact hloop _ le_rfl

/-! ### An enumeration -/

/-- A search through the rest of a list, after what has been visited. -/
theorem count_find {before rest visited : List Ref} {p : Ref → Bool} (hl : (before ++ rest).Nodup)
    (hp : p x = true) (hcount : visited.count x = if x ∈ rest then 0 else 1) :
    (visited ++ (rest.find? p).toList).count x =
      (rest.find? p).elim 1 fun y => if Precedes (before ++ rest) y x then 0 else 1 := by
  rw [List.count_append, hcount]
  cases hfind : rest.find? p with
  | none =>
      have hx : x ∉ rest := fun hx => absurd hp (List.find?_eq_none.mp hfind x hx)
      rw [if_neg hx]
      rfl
  | some y =>
      obtain ⟨passed, after, hrest, hpassed⟩ := (List.find?_eq_some_iff_append.mp hfind).2
      subst hrest
      have hx : x ∉ passed := fun hx => absurd hp (by simpa using hpassed x hx)
      rw [← List.append_assoc] at hl ⊢
      simp only [Option.elim_some, Precedes.split_iff hl, Option.toList_some, List.count_singleton, List.mem_append,
        List.mem_cons]
      have hy : y ∉ after := by
        rw [List.nodup_append, List.nodup_cons] at hl
        exact hl.2.1.1
      by_cases hxy : x = y
      · subst hxy
        simp [hy]
      · have hyx : (y == x) = false := beq_eq_false_iff_ne.mpr (Ne.symm hxy)
        simp [hx, hxy, hyx]

namespace Enumeration

variable {s s' : Enumeration}

/-- What an entry has to do with an enumeration: it has been visited once if the iterator has gone past it, and not
yet if it is behind the entry that the iterator is at. -/
structure Watches (cityHash : Component → UInt64) (sel : EntrySelector) (x : Ref) (s : Enumeration) : Prop where
  sound : s.tree.Sound cityHash
  selected : s.tree.selects sel x = true
  stored : ∀ r, s.current = some r → r ∈ s.tree.nodes
  count : s.visited.count x = s.current.elim 1 fun r => if Precedes s.tree.nodes r x then 0 else 1

/-- Resizes find the right buckets, the entry stays selected and on its side of the iterator, and the number of buckets
is an `int` when the iterator is incremented. -/
def Undisturbed (cityHash : Component → UInt64) (sel : EntrySelector) (x : Ref) (s : Enumeration) : Event → Prop
  | .lookup n => s.tree.Harmless cityHash (.lookup n) ∧ (s.tree.lookup cityHash n).1.selects sel x = true ∧
      ∀ r, s.current = some r → s.tree.KeepsSide cityHash n r x
  | .increment => s.tree.nBuckets < 2 ^ 31

theorem start_watches (h : t.Sound cityHash) (hsel : t.selects sel x = true) :
    (start t sel).Watches cityHash sel x where
  sound := h
  selected := hsel
  stored r hr := by
    have hfind : t.nodes.find? (t.selects sel) = some r := (fullBegin_eq t sel).symm.trans hr
    exact List.mem_of_find?_eq_some hfind
  count := by
    have hx := h.mem_nodes_of_selects hsel
    have hnone : ([] : List Ref).count x = if x ∈ t.nodes then 0 else 1 := by rw [if_pos hx, List.count_nil]
    have hcount := count_find (show ([] ++ t.nodes).Nodup from h.nodes_nodup) hsel hnone
    rw [← fullBegin_eq] at hcount
    exact hcount

theorem Watches.lookup (h : s.Watches cityHash sel x) (hok : s.Undisturbed cityHash sel x (.lookup n)) :
    ({ s with tree := (s.tree.lookup cityHash n).1 } : Enumeration).Watches cityHash sel x := by
  obtain ⟨hharmless, hsel, hside⟩ := hok
  obtain ⟨hsound, hkeep, -⟩ := h.sound.lookup n hharmless.lookupRehashes
  refine ⟨hsound, hsel, fun r hr => ?_, ?_⟩
  · obtain ⟨nr, hnr⟩ := h.sound.mem_nodes.mp (h.stored r hr)
    exact hsound.mem_nodes.mpr ⟨nr, hkeep r nr hnr⟩
  · rw [h.count]
    cases hcurrent : s.current with
    | none => rfl
    | some r => exact if_congr (hside r hcurrent).symm rfl rfl

theorem Watches.increment (h : s.Watches cityHash sel x) (hint : s.tree.nBuckets < 2 ^ 31) (hr : s.current = some r) :
    ∃ s', s.step cityHash sel .increment = some s' ∧ s'.Watches cityHash sel x := by
  obtain ⟨before, after, hsplit⟩ := List.append_of_mem (h.stored r hr)
  have hnext : s.tree.fullNext sel r = some (after.find? (s.tree.selects sel)) := h.sound.fullNext_eq hint hsplit
  have hstep : s.step cityHash sel .increment = some { s with
      current := after.find? (s.tree.selects sel)
      visited := s.visited ++ (after.find? (s.tree.selects sel)).toList } := by
    rw [Enumeration.step, hr, Option.bind_some, hnext, Option.map_some]
  refine ⟨_, hstep, h.sound, h.selected, fun y hy => ?_, ?_⟩
  · have hin : y ∈ after := List.mem_of_find?_eq_some hy
    show y ∈ s.tree.nodes
    rw [hsplit]
    exact List.mem_append_right _ (List.mem_cons_of_mem _ hin)
  · have hnodup : s.tree.nodes.Nodup := h.sound.nodes_nodup
    have hcount := h.count
    rw [hr, Option.elim_some] at hcount
    simp only [hsplit, Precedes.split_iff (hsplit ▸ hnodup)] at hcount
    have hsplitNodup : (before ++ [r] ++ after).Nodup := by
      rw [List.append_assoc]
      exact hsplit ▸ hnodup
    have hfound := count_find hsplitNodup h.selected hcount
    rw [List.append_assoc, List.singleton_append, ← hsplit] at hfound
    exact hfound

theorem Watches.step (h : s.Watches cityHash sel x) {event : Event} (hok : s.Undisturbed cityHash sel x event)
    (hstep : s.step cityHash sel event = some s') : s'.Watches cityHash sel x := by
  cases event with
  | lookup n =>
      cases hstep
      exact h.lookup hok
  | increment =>
      obtain ⟨r, hr, -⟩ := Option.bind_eq_some_iff.mp hstep
      obtain ⟨s₁, hs₁, hwatches⟩ := h.increment hok hr
      cases hstep.symm.trans hs₁
      exact hwatches

/-- An entry is visited no more than once, and once when the iterator has come to the end; until then it can be
incremented. -/
structure VisitsOnce (cityHash : Component → UInt64) (sel : EntrySelector) (x : Ref) (s : Enumeration) : Prop where
  atMostOnce : s.visited.count x ≤ 1
  atEnd : s.current = none → s.visited.count x = 1
  goesOn : s.current.isSome = true → s.tree.nBuckets < 2 ^ 31 → (s.step cityHash sel .increment).isSome = true

theorem Watches.visitsOnce (h : s.Watches cityHash sel x) : s.VisitsOnce cityHash sel x where
  atMostOnce := by
    rw [h.count]
    cases s.current with
    | none => exact le_rfl
    | some r =>
        rw [Option.elim_some]
        split <;> decide
  atEnd hend := by rw [h.count, hend, Option.elim_none]
  goesOn hsome hint := by
    obtain ⟨r, hr⟩ := Option.isSome_iff_exists.mp hsome
    obtain ⟨s', hs', -⟩ := h.increment hint hr
    rw [hs', Option.isSome_some]

end Enumeration

/-- An entry that is there from the start and stays selected is visited once in every run that leaves it undisturbed. As
to lookups, those leave it on its side of the iterator that do not enlarge the table, or where the enlarged table splits
the buckets right. -/
theorem iterators_survive_lookup {nBuckets : Nat} (hpos : 0 < nBuckets)
    (hr : Reach (NameTree.apply cityHash) (Harmless cityHash) (new nBuckets) t) :
    (∀ sel x, t.selects sel x = true → ∀ s, Reach (Enumeration.step cityHash sel)
      (Enumeration.Undisturbed cityHash sel x) (.start t sel) s → s.VisitsOnce cityHash sel x) ∧
    ∀ n r x, t.Harmless cityHash (.lookup n) → r ∈ t.nodes → x ∈ t.nodes →
      (∀ j ≤ n.length, (t.beforeEnlarge cityHash n j).enlargeThreshold < (t.beforeEnlarge cityHash n j).nItems →
        (t.beforeEnlarge cityHash n j).SplitsRight r x) → t.KeepsSide cityHash n r x := by
  have h := sound_of_reach hpos hr
  refine ⟨fun sel x hsel s hrun => ?_, fun n r x hok hr hx hsplit => h.keepsSide hok hsplit hr hx⟩
  have hwatches : s.Watches cityHash sel x := hrun.invariant (Enumeration.start_watches h hsel)
    fun _ _ _ hw hok hstep => hw.step hok hstep
  exact hwatches.visitsOnce

/-- Eight buckets with `/C` in the fifth and `/D` in the seventh. -/
def treeCD : NameTree := (((new 8).lookup CityHash.ofShort [.ofByte 67]).1.lookup CityHash.ofShort [.ofByte 68]).1

theorem treeCD_reach : Reach (NameTree.apply CityHash.ofShort) (Harmless CityHash.ofShort) (new 8) treeCD :=
  (Reach.start.next (.lookup [.ofByte 67]) (harmless_lookup_of_two_pow (k := 3) rfl (by decide +kernel)) rfl).next
    (.lookup [.ofByte 68]) (harmless_lookup_of_two_pow (k := 3) (by decide +kernel) (by decide +kernel)) rfl

/-- Two more names, the second of which enlarges the table: `/C` goes up and `/D` does not. -/
def twoMore : List Enumeration.Event := [.lookup [.ofByte 71], .lookup [.ofByte 74]]

/-- The condition for a run, as a test. -/
def Enumeration.isUndisturbed (sel : EntrySelector) (x : Ref) (s : Enumeration) : Event → Bool
  | .lookup n => decide (s.tree.nBuckets = 2 ^ 3 ∨ s.tree.nBuckets = 2 ^ 4) &&
      decide ((s.tree.lookup CityHash.ofShort n).1.nBuckets ≤ 2 ^ 32) &&
      (s.tree.lookup CityHash.ofShort n).1.selects sel x &&
      s.current.all fun r => decide (s.tree.KeepsSide CityHash.ofShort n r x)
  | .increment => decide (s.tree.nBuckets < 2 ^ 31)

theorem Enumeration.undisturbed_of_isUndisturbed {s : Enumeration} {event : Event}
    (h : s.isUndisturbed sel x event = true) : s.Undisturbed CityHash.ofShort sel x event := by
  cases event with
  | lookup n =>
      simp only [isUndisturbed, Bool.and_eq_true, decide_eq_true_iff] at h
      obtain ⟨⟨⟨hpow, hbound⟩, hsel⟩, hside⟩ := h
      refine ⟨?_, hsel, fun r hr => ?_⟩
      · rcases hpow with hpow | hpow
        · exact harmless_lookup_of_two_pow hpow hbound
        · exact harmless_lookup_of_two_pow hpow hbound
      · rw [hr, Option.all_some] at hside
        exact of_decide_eq_true hside
  | increment =>
      have hint : s.tree.nBuckets < 2 ^ 31 := of_decide_eq_true (p := s.tree.nBuckets < 2 ^ 31) h
      exact hint

/-- The table is enlarged while the iterator is at the root, and `/C` is visited. -/
theorem iterators_survive_lookup_enlarged :
    ∃ s, exec (Enumeration.step CityHash.ofShort fun _ => true) (.start treeCD fun _ => true)
        (twoMore ++ List.replicate 5 .increment) = some s ∧
      s.tree.nBuckets = 16 ∧ s.current = none ∧ s.visited.count 1 = 1 := by
  have hsel : treeCD.selects (fun _ => true) 1 = true := by decide +kernel
  have hrun : ((exec (guarded (Enumeration.step CityHash.ofShort fun _ => true)
      (Enumeration.isUndisturbed (fun _ => true) 1)) (.start treeCD fun _ => true)
      (twoMore ++ List.replicate 5 .increment)).any fun s =>
        decide (s.tree.nBuckets = 16 ∧ s.current = none)) = true := by decide +kernel
  obtain ⟨s, hs, hend⟩ := (Option.any_eq_true _ _).mp hrun
  obtain ⟨hbuckets, hcurrent⟩ := of_decide_eq_true hend
  have hreach := (reach_of_exec_guarded Reach.start hs).mono fun _ _ => Enumeration.undisturbed_of_isUndisturbed
  exact ⟨s, exec_of_guarded hs, hbuckets, hcurrent,
    ((iterators_survive_lookup (by decide) treeCD_reach).1 _ 1 hsel s hreach).atEnd hcurrent⟩

/-- With the iterator at `/C` the entry `/D` is left behind and not visited, and with the iterator at `/D` the entry
`/C` is visited once more. -/
theorem enumeration_disturbed :
    treeCD.nameOf 1 = some [.ofByte 67] ∧ treeCD.nameOf 2 = some [.ofByte 68] ∧
      (∃ s, exec (Enumeration.step CityHash.ofShort fun _ => true) (.start treeCD fun _ => true)
          ([.increment] ++ twoMore ++ [.increment]) = some s ∧
        s.current = none ∧ s.visited.count 1 = 1 ∧ s.visited.count 2 = 0) ∧
      ∃ s, exec (Enumeration.step CityHash.ofShort fun _ => true) (.start treeCD fun _ => true)
          ([.increment, .increment] ++ twoMore ++ [.increment, .increment]) = some s ∧
        s.current = none ∧ s.visited.count 1 = 2 ∧ s.visited.count 2 = 1 := by
  have hskips : ((exec (Enumeration.step CityHash.ofShort fun _ => true) (.start treeCD fun _ => true)
      ([.increment] ++ twoMore ++ [.increment])).any fun s =>
        decide (s.current = none ∧ s.visited.count 1 = 1 ∧ s.visited.count 2 = 0)) = true := by decide +kernel
  have hrepeats : ((exec (Enumeration.step CityHash.ofShort fun _ => true) (.start treeCD fun _ => true)
      ([.increment, .increment] ++ twoMore ++ [.increment, .increment])).any fun s =>
        decide (s.current = none ∧ s.visited.count 1 = 2 ∧ s.visited.count 2 = 1)) = true := by decide +kernel
  obtain ⟨s, hs, hskipped⟩ := (Option.any_eq_true _ _).mp hskips
  obtain ⟨s', hs', hrepeated⟩ := (Option.any_eq_true _ _).mp hrepeats
  exact ⟨by decide +kernel, by decide +kernel, ⟨s, hs, of_decide_eq_true hskipped⟩, s', hs',
    of_decide_eq_true hrepeated⟩

end NfdPitless.NameTree
