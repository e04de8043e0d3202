import NfdPitless.FibManager
import NfdPitless.NameTreeGrowth

/-! A face that fails when the name tree has `2 ^ 31` buckets. The enumeration of the FIB then goes through one
chain only, so an entry in another chain keeps its next hop to the face. The commands alone make the name tree
grow from its first 1024 buckets to that number. -/

namespace NfdPitless

variable {cityHash : Component → UInt64} {s s' : Tables} {r : Ref} {face : Face}

namespace NameTree

theorem enlargeIfLoaded_nItems (t : NameTree) : t.enlargeIfLoaded.nItems = t.nItems := by
  unfold enlargeIfLoaded
  split <;> rfl

theorem setAttached_nItems (t : NameTree) (slot : Slot) (nte : Ref) (entry : Option Ref) :
    (t.setAttached slot nte entry).nItems = t.nItems := by
  unfold setAttached modifyEntry
  split <;> rfl

end NameTree

namespace Fib

/-- An entry that is not erased stays. -/
theorem eraseAll_keeps (h : s.FibAccounted) {x r : Ref} (hatt : s.nameTree.attachedTo .fib x = some r) :
    ∀ {rs : List Ref}, r ∉ rs → (rs.foldl eraseEntry s).nameTree.attachedTo .fib x = some r ∧
      (rs.foldl eraseEntry s).fib.entries r = s.fib.entries r := by
  intro rs
  induction rs generalizing s with
  | nil => exact fun _ => ⟨hatt, rfl⟩
  | cons r' rs ih =>
      intro hnot
      obtain ⟨hatts, hentries⟩ := eraseEntry_entries h r'
      have hne : r ≠ r' := List.ne_of_not_mem_cons hnot
      obtain ⟨hkept, hsame⟩ := ih (h.eraseEntry r') ((hatts x r).mpr ⟨hne, hatt⟩) (List.not_mem_of_not_mem_cons hnot)
      exact ⟨hkept, hsame.trans (hentries r hne)⟩

/-- At `2 ^ 31` buckets the entries outside one chain are not visited, and stay as they are. -/
theorem removeNextHopFromAllEntries_wide (htree : s.nameTree.WF cityHash) (hb : s.nameTree.nBuckets = 2 ^ 31)
    (h : s.FibAccounted) (face : Face) :
    ∃ b s', removeNextHopFromAllEntries s face = some s' ∧ ∀ x r, x ∉ s.nameTree.buckets b →
      s.nameTree.attachedTo .fib x = some r →
        s'.nameTree.attachedTo .fib x = some r ∧ s'.fib.entries r = s.fib.entries r := by
  obtain ⟨b, hfull⟩ := htree.toSound.fullEnumerate_wide hb fun e => e.fibEntry.isSome
  refine ⟨b, _, by rw [removeNextHopFromAllEntries, enumerate, hfull]; rfl, fun x r hx hatt => ?_⟩
  have hnot : r ∉ ((s.nameTree.buckets b).filter (s.nameTree.selects fun e => e.fibEntry.isSome)).filterMap
      (s.nameTree.attachedTo .fib) := by
    intro hin
    obtain ⟨y, hy, hyr⟩ := List.mem_filterMap.mp hin
    exact hx (h.attached.inj hyr hatt ▸ List.mem_of_mem_filter hy)
  have hnodup : (((s.nameTree.buckets b).filter (s.nameTree.selects fun e => e.fibEntry.isSome)).filterMap
      (s.nameTree.attachedTo .fib)).Nodup :=
    ((htree.bucket_nodup b).filter _).filterMap fun y y' r' hy hy' => h.attached.inj hy hy'
  obtain ⟨htrees, hentries, hdone⟩ := removeNextHopRounds face hnodup s []
  have hrounds := h.removeNextHopRounds face (((s.nameTree.buckets b).filter
    (s.nameTree.selects fun e => e.fibEntry.isSome)).filterMap (s.nameTree.attachedTo .fib)) []
  have hundone := fun hin => hnot (((hdone r).mp hin).elim (fun hnil => absurd hnil List.not_mem_nil) And.left)
  obtain ⟨hkept, hsame⟩ := eraseAll_keeps hrounds (by rw [htrees]; exact hatt) hundone
  exact ⟨hkept, hsame.trans ((hentries r).trans (if_neg hnot))⟩

end Fib

namespace FibManager

variable {m m' : FibManager}

/-- A next hop in another chain outlives its face. -/
theorem Sound.failFace_wide (h : m.Sound cityHash) (hb : m.tables.nameTree.nBuckets = 2 ^ 31)
    (hfailed : m.faceTable.isFailed face = false) (hone : m.faceTable.onFail face = 1) {x x' r r' : Ref}
    {e e' : TableEntry FibContent} {n n' : Name} (hx : m.tables.nameTree.nameOf x = some n)
    (hx' : m.tables.nameTree.nameOf x' = some n') (hatt : m.tables.nameTree.attachedTo .fib x = some r)
    (hatt' : m.tables.nameTree.attachedTo .fib x' = some r') (he : m.tables.fib.entries r = some e)
    (he' : m.tables.fib.entries r' = some e') (hhop : ∃ a ∈ e.content.nextHops, a.face = face)
    (hhop' : ∃ a ∈ e'.content.nextHops, a.face = face)
    (hloc : m.tables.nameTree.loc cityHash n ≠ m.tables.nameTree.loc cityHash n') :
    ∃ m', m.failFace face = some m' ∧ ¬ m'.Sane := by
  obtain ⟨b, s, hs, hkept⟩ := Fib.removeNextHopFromAllEntries_wide h.tree hb h.fib face
  have hface : m.faceTable.faces (m.faceTable.getId face) = some face := by
    rcases h.faces.connected face with hzero | ⟨-, hface⟩
    · rw [hone] at hzero
      cases hzero
    · exact hface
  refine ⟨⟨s, (m.faceTable.markFailed face).remove face⟩, ?_, fun hsane => ?_⟩
  · rw [FibManager.failFace, hfailed, if_neg Bool.false_ne_true, hone, removeTimes, removeFace]
    simp only [hs, Option.map_some, Option.bind_some, removeTimes]
  · -- an entry outside the chain, with a next hop to the face
    have hbroken : ∀ {y q : Ref} {d : TableEntry FibContent}, y ∉ m.tables.nameTree.buckets b →
        m.tables.nameTree.attachedTo .fib y = some q → m.tables.fib.entries q = some d →
          ¬ ∃ a ∈ d.content.nextHops, a.face = face := by
      rintro y q d hy hyatt hd ⟨a, ha, rfl⟩
      obtain ⟨hstay, hsame⟩ := hkept y q hy hyatt
      obtain ⟨id, hid⟩ := (hsane y q d hstay (hsame.trans hd)).live a ha
      have hid' := (FaceTable.remove_faces (m.faceTable.markFailed a.face) a.face id).symm.trans hid
      split at hid'
      · cases hid'
      · exact absurd (h.faces.held hid').symm ‹_›
    by_cases hmem : x ∈ m.tables.nameTree.buckets b
    · have hmem' : x' ∉ m.tables.nameTree.buckets b := by
        intro hin
        obtain ⟨k, hk, hkb⟩ := h.tree.mem_bucket.mp hmem
        obtain ⟨k', hk', hkb'⟩ := h.tree.mem_bucket.mp hin
        rw [hx] at hk
        rw [hx'] at hk'
        cases hk
        cases hk'
        exact hloc (hkb.trans hkb'.symm)
      exact hbroken hmem' hatt' he' hhop'
    · exact hbroken hmem hatt he hhop

/-- The command to add a next hop with the default cost for a name of one component. -/
def addNumber (i : Nat) : Event := .addNextHop 256 ⟨some [.ofNumber i], none, none⟩

/-- The state after the commands for the numbers below `k`, all from one face: the root and an entry with that next
hop for each number. -/
structure Growing (cityHash : Component → UInt64) (face : Face) (k : Nat) (m : FibManager) : Prop where
  sound : m.Sound cityHash
  roomy : m.tables.nameTree.Roomy
  held : m.faceTable.faces 256 = some face
  root : ∃ root, m.tables.nameTree.nameOf root = some []
  nItems_eq : m.tables.nameTree.nItems = k + 1
  nBuckets_le : m.tables.nameTree.nBuckets ≤ 4 * k + 1024
  unused : ∀ i, k ≤ i → i < 2 ^ 32 → ∀ x, m.tables.nameTree.nameOf x ≠ some [.ofNumber i]
  used : ∀ i, i < k → ∃ x r e, m.tables.nameTree.nameOf x = some [.ofNumber i] ∧
    m.tables.nameTree.attachedTo .fib x = some r ∧ m.tables.fib.entries r = some e ∧ ⟨face, 0⟩ ∈ e.content.nextHops

/-- Looking up the next number adds one entry, and the table is enlarged if that loads it. -/
theorem Growing.lookup {k : Nat} (h : m.Growing cityHash face k) (hk : k < 2 ^ 29) :
    (m.tables.nameTree.lookup cityHash [.ofNumber k]).1.nItems = k + 1 + 1 ∧
      (m.tables.nameTree.lookup cityHash [.ofNumber k]).1.nBuckets ≤ 4 * (k + 1) + 1024 ∧
        ∀ x, (m.tables.nameTree.lookup cityHash [.ofNumber k]).1.nameOf x =
          if x = m.tables.nameTree.nextRef then some [.ofNumber k] else m.tables.nameTree.nameOf x := by
  obtain ⟨root, hroot⟩ := h.root
  have hsound := h.sound.tree.toSound
  have hparent : m.tables.nameTree.IsParentFor (some root) [.ofNumber k] := Or.inr ⟨by simp, root, rfl, hroot⟩
  rw [hsound.lookup_one_new h.roomy hroot (h.unused k le_rfl (by omega))]
  refine ⟨?_, ?_, fun x => ?_⟩
  · rw [NameTree.enlargeIfLoaded_nItems, NameTree.added_nItems, h.nItems_eq]
  · have hle := h.nBuckets_le
    have hthreshold := h.roomy.enlarge_eq
    rw [NameTree.enlargeIfLoaded]
    split
    · rename_i hload
      rw [NameTree.added_nItems, NameTree.added_enlargeThreshold, h.nItems_eq, hthreshold] at hload
      show 2 * (m.tables.nameTree.added cityHash (some root) [.ofNumber k]).nBuckets ≤ _
      rw [NameTree.added_nBuckets]
      omega
    · rw [NameTree.added_nBuckets]
      omega
  · rw [NameTree.enlargeIfLoaded_nameOf, NameTree.added_nameOf cityHash (hsound.ne_nextRef hparent)]

/-- Attaching a FIB entry to it leaves it so. -/
theorem Growing.insert {k : Nat} (h : m.Growing cityHash face k) (hk : k < 2 ^ 29) {result : Tables × Ref × Bool}
    (hins : Fib.insert cityHash m.tables [.ofNumber k] = some result) :
    result.1.nameTree.Roomy ∧ result.1.nameTree.nItems = k + 1 + 1 ∧ result.1.nameTree.nBuckets ≤ 4 * (k + 1) + 1024 ∧
      ∀ x, result.1.nameTree.nameOf x =
        if x = m.tables.nameTree.nextRef then some [.ofNumber k] else m.tables.nameTree.nameOf x := by
  obtain ⟨hnItems, hnBuckets, hnames⟩ := h.lookup hk
  have hsound := h.sound.tree.toSound
  have hroomy := h.roomy.lookup hsound.isFresh hsound.nBuckets_pos cityHash [.ofNumber k]
  rcases Fib.insert_tree hins with heq | ⟨x, entry, heq⟩
  · rw [heq]
    exact ⟨hroomy, hnItems, hnBuckets, hnames⟩
  · have hstable : (m.tables.nameTree.lookup cityHash [.ofNumber k]).1.Stable cityHash :=
      ⟨(h.sound.tree.lookup _ (by omega)).1.toSound, hroomy⟩
    rw [heq, NameTree.nameOf_setAttached, NameTree.setAttached_nItems, NameTree.setAttached,
      NameTree.modifyEntry_nBuckets]
    exact ⟨(hstable.setAttached .fib x entry).roomy, hnItems, hnBuckets, hnames⟩

theorem Growing.next {k : Nat} (h : m.Growing cityHash face k) (hk : k < 2 ^ 29) :
    ∃ m', m.step cityHash checkedParameters (addNumber k) = some m' ∧ m'.Growing cityHash face (k + 1) ∧
      m'.faceTable = m.faceTable := by
  obtain ⟨root, hroot⟩ := h.root
  have hsound := h.sound.tree.toSound
  have hp : checkedParameters .addNextHop (selfRegistered 256 ⟨some [.ofNumber k], none, none⟩) =
      some ⟨[.ofNumber k], 256, 0⟩ := rfl
  have hface : m.faceTable.faces (toInt 256) = some face := h.held
  obtain ⟨⟨s, r, isNew⟩, hins⟩ : ∃ inserted, Fib.insert cityHash m.tables [.ofNumber k] = some inserted := by
    rw [Fib.insert, hsound.lookup_one_new h.roomy hroot (h.unused k le_rfl (by omega))]
    exact ⟨_, rfl⟩
  obtain ⟨hroomy', hnItems', hnBuckets', hnames'⟩ := h.insert hk hins
  have hnBuckets := (h.lookup hk).2.1
  obtain ⟨hsound', r', e, hfind, he, hfilter⟩ := h.sound.insert_addNextHop hface (by omega) hins
  obtain ⟨-, hatts, hothers, z, -, hz, hself⟩ := Fib.insert_entries h.sound.fib hins
  refine ⟨{ m with tables := Fib.addNextHop s r face 0 }, ?_,
    ⟨hsound', hroomy', h.held, ⟨root, ?_⟩, hnItems', hnBuckets', fun i hi hlt x hx => ?_, fun i hi => ?_⟩, rfl⟩
  · show (m.addNextHop cityHash checkedParameters (selfRegistered 256 ⟨some [.ofNumber k], none, none⟩)).map (·.1) = _
    rw [FibManager.addNextHop, hp]
    simp only [hface, hins, Option.map_some]
  · exact (hnames' root).trans (by rw [if_neg (hsound.fresh hroot).ne, hroot])
  · have hx' : s.nameTree.nameOf x = some [.ofNumber i] := hx
    rw [hnames'] at hx'
    split at hx'
    · have heq : Component.ofNumber k = Component.ofNumber i := by simpa using hx'
      have := Component.ofNumber_inj (by omega) hlt heq
      omega
    · exact h.unused i (by omega) hlt x hx'
  · obtain ⟨x, hx, hatt⟩ := Option.bind_eq_some_iff.mp hfind
    have hname : s.nameTree.nameOf x = some [.ofNumber k] := hsound'.tree.toSound.findExactMatch_eq_some.mp hx
    rcases Nat.lt_succ_iff_lt_or_eq.mp hi with hlt | rfl
    · obtain ⟨y, q, d, hy, hyatt, hd, hhop⟩ := h.used i hlt
      have hyne : y ≠ m.tables.nameTree.nextRef := (hsound.fresh hy).ne
      have hy' : s.nameTree.nameOf y = some [.ofNumber i] := (hnames' y).trans ((if_neg hyne).trans hy)
      have hqne : q ≠ r := by
        rintro rfl
        rcases hself with ⟨hzatt, -⟩ | ⟨hnone, -⟩
        · rw [h.sound.fib.attached.inj hzatt hyatt, hy'] at hz
          have heq : Component.ofNumber i = Component.ofNumber k := by simpa using hz
          exact absurd (Component.ofNumber_inj (by omega) (by omega) heq) hlt.ne
        · rw [hnone] at hd
          cases hd
      refine ⟨y, q, d, hy', (hatts y q hqne).mpr hyatt, ?_, hhop⟩
      refine (Table.entries_modify s.fib r _ q).trans ((if_neg hqne).trans ((hothers q hqne).trans hd))
    · refine ⟨x, r', e, hname, hatt, he, ?_⟩
      have hmem : (⟨face, 0⟩ : NextHop) ∈ e.content.nextHops.filter fun a => a.face == face := by
        rw [hfilter]
        exact List.mem_singleton_self _
      exact List.mem_of_mem_filter hmem

/-- At first the name tree has the root only. -/
theorem constructed_names (cityHash : Component → UInt64) (defaultStrategy : Name) (csFace : Face) {x : Ref} {n : Name}
    (hx : (constructed cityHash defaultStrategy csFace).tables.nameTree.nameOf x = some n) : n = [] := by
  obtain ⟨t, nte, hlook, -, -, -, heq⟩ := Tables.new_eq cityHash (by decide : 0 < 1024) defaultStrategy
  have htree : (constructed cityHash defaultStrategy csFace).tables.nameTree =
    t.setAttached .strategyChoice nte (some 0) := by
    rw [constructed, heq]
    rfl
  rw [htree, NameTree.nameOf_setAttached] at hx
  have hok : (NameTree.new 1024).Harmless cityHash (.lookup []) := Tables.new_harmless 1024
  obtain ⟨-, -, honly, -⟩ := (NameTree.new_sound cityHash (by decide : 0 < 1024)).lookup [] hok.lookupRehashes
  rw [hlook] at honly
  rcases honly x n hx with hold | hprefix
  · simp [NameTree.nameOf, NameTree.new] at hold
  · exact List.prefix_nil.mp hprefix

/-- One face in a new forwarder. -/
theorem growing_start : ∃ m, (constructed CityHash.ofShort [.ofByte 83] 0).step CityHash.ofShort checkedParameters
    (.addFace 1) = some m ∧ m.Growing CityHash.ofShort 1 0 ∧ m.faceTable.isFailed 1 = false ∧
    m.faceTable.onFail 1 = 1 := by
  have hfaces : ((FaceTable.History.constructed 0).table.add 1).any (fun t => decide (t.faces 256 = some 1) &&
      (decide (t.isFailed 1 = false) && decide (t.onFail 1 = 1))) = true := by decide
  obtain ⟨t, ht, hall⟩ := (Option.any_eq_true _ _).mp hfaces
  obtain ⟨hheld, hstate⟩ := Bool.and_eq_true_iff.mp hall
  obtain ⟨hfailed, hone⟩ := Bool.and_eq_true_iff.mp hstate
  have hstep : (constructed CityHash.ofShort [.ofByte 83] 0).step CityHash.ofShort checkedParameters (.addFace 1) =
      some { constructed CityHash.ofShort [.ofByte 83] 0 with faceTable := t } := by
    show ((FaceTable.History.constructed 0).table.add 1).map _ = _
    rw [ht]
    rfl
  have hguard : (constructed CityHash.ofShort [.ofByte 83] 0).Tame CityHash.ofShort checkedParameters (.addFace 1) := by
    show (FaceTable.History.constructed 0).table.faces FaceTable.invalidFaceId ≠ some 1
    decide
  have hjoint : Tables.Joint CityHash.ofShort (.new CityHash.ofShort 1024 [.ofByte 83]) :=
    Tables.new_joint (by decide) [.ofByte 83]
  obtain ⟨root, -, hroot, -⟩ := hjoint.root
  refine ⟨_, hstep, ⟨(constructed_sound _ _ _).step hguard hstep, hjoint.tree.roomy, of_decide_eq_true hheld,
    ⟨root, hroot⟩, ?_, ?_, fun i _ _ x hx => ?_, fun i hi => absurd hi (Nat.not_lt_zero i)⟩, of_decide_eq_true hfailed,
    of_decide_eq_true hone⟩
  · show (constructed CityHash.ofShort [.ofByte 83] 0).tables.nameTree.nItems = 1
    decide +kernel
  · show (constructed CityHash.ofShort [.ofByte 83] 0).tables.nameTree.nBuckets ≤ 1024
    decide +kernel
  · exact absurd (constructed_names CityHash.ofShort [.ofByte 83] 0 hx) (List.cons_ne_nil _ _)

theorem growing_reached (k : Nat) (hk : k ≤ 2 ^ 29) : ∃ m, Reach (step CityHash.ofShort checkedParameters) anyStep
    (constructed CityHash.ofShort [.ofByte 83] 0) m ∧ m.Growing CityHash.ofShort 1 k ∧ m.faceTable.isFailed 1 = false ∧
      m.faceTable.onFail 1 = 1 := by
  induction k with
  | zero =>
      obtain ⟨m, hstep, hgrowing, hface⟩ := growing_start
      exact ⟨m, .next (.addFace 1) .start trivial hstep, hgrowing, hface⟩
  | succ k ih =>
      obtain ⟨m, hr, hgrowing, hface⟩ := ih (by omega)
      obtain ⟨m', hstep, hgrowing', hsame⟩ := hgrowing.next (by omega)
      exact ⟨m', hr.next (addNumber k) trivial hstep, hgrowing', by rw [hsame]; exact hface⟩

/-- With `2 ^ 29` numbers and the root, the name tree has `2 ^ 31` buckets. -/
theorem Growing.wide {face : Face} (h : m.Growing cityHash face (2 ^ 29)) : m.tables.nameTree.nBuckets = 2 ^ 31 := by
  obtain ⟨j, hj, hpow⟩ := h.sound.tree.pow_two
  have hle := h.nBuckets_le
  have hitems := h.nItems_eq
  have hload := h.roomy.le_enlarge
  rw [h.roomy.enlarge_eq] at hload
  have hlow : 2 ^ 30 < 2 ^ j := by omega
  have hhigh : 2 ^ j < 2 ^ 32 := by omega
  have hj31 : j = 31 := by
    have h1 := (Nat.pow_lt_pow_iff_right (by decide : 1 < 2)).mp hlow
    have h2 := (Nat.pow_lt_pow_iff_right (by decide : 1 < 2)).mp hhigh
    omega
  rw [hpow, hj31]

/-- After that many commands, the face fails, and keeps a next hop in the FIB. -/
theorem next_hop_outlives_face : ∃ m, Reach (step CityHash.ofShort checkedParameters) anyStep
    (constructed CityHash.ofShort [.ofByte 83] 0) m ∧ ¬ m.Sane := by
  obtain ⟨m, hr, hgrowing, hfailed, hone⟩ := growing_reached (2 ^ 29) le_rfl
  obtain ⟨x, r, e, hx, hatt, he, hhop⟩ := hgrowing.used 0 (by decide)
  obtain ⟨x', r', e', hx', hatt', he', hhop'⟩ := hgrowing.used 1 (by decide)
  have hloc : m.tables.nameTree.loc CityHash.ofShort [.ofNumber 0] ≠
    m.tables.nameTree.loc CityHash.ofShort [.ofNumber 1] := by
    rw [NameTree.loc, NameTree.loc, hgrowing.wide]
    decide +kernel
  obtain ⟨m', hfail, hbroken⟩ := hgrowing.sound.failFace_wide hgrowing.wide hfailed hone hx hx' hatt hatt' he he'
    ⟨_, hhop, rfl⟩ ⟨_, hhop', rfl⟩ hloc
  exact ⟨m', hr.next (.failFace 1) trivial hfail, hbroken⟩

end FibManager
end NfdPitless
