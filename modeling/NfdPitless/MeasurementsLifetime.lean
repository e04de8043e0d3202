import NfdPitless.Runs
import NfdPitless.TableAccounting

/-! The lifetime of Measurements entries (`daemon/table/measurements.cpp`) with the scheduler's events. An event calls
`cleanup` on the entry it was scheduled for; `m_cleanup` of an entry is the handle of its last event. A run remembers
which lifetimes each entry was given, as the points in time at which they end. -/

namespace NfdPitless

variable (cityHash : Component → UInt64)

/-- A pending call of `Measurements::cleanup`. -/
structure CleanupEvent where
  id : Nat
  due : Int
  entry : Ref
  deriving DecidableEq

structure ScheduledTables where
  tables : Tables
  pending : List CleanupEvent
  nextId : Nat
  /-- `m_cleanup` of an entry. -/
  cleanupOf : Ref → Option Nat
  /-- When the initial lifetime of an entry ends, and every lifetime that was asked for. A record of the events only. -/
  lifetimes : Ref → List Int

namespace ScheduledTables

def new (nBuckets : Nat) (defaultStrategy : Name) : ScheduledTables :=
  { tables := .new cityHash nBuckets defaultStrategy, pending := [], nextId := 0, cleanupOf := fun _ => none
    lifetimes := fun _ => [] }

def schedule (s : ScheduledTables) (r : Ref) (due : Int) : ScheduledTables :=
  { s with
    pending := s.pending ++ [⟨s.nextId, due, r⟩]
    nextId := s.nextId + 1
    cleanupOf := Function.update s.cleanupOf r (some s.nextId) }

/-- The event of a handle is removed, and the handle reset. -/
def cancel (s : ScheduledTables) (r : Ref) : ScheduledTables :=
  { s with
    pending := s.pending.filter fun event => decide (s.cleanupOf r ≠ some event.id)
    cleanupOf := Function.update s.cleanupOf r none }

/-- The private overload by name tree entry. -/
def getAt (s : ScheduledTables) (nte : Ref) : Option (ScheduledTables × Ref) :=
  (Measurements.getAt s.tables nte).map fun got =>
    if (s.tables.nameTree.attachedTo .measurements nte).isSome then ({ s with tables := got.1 }, got.2)
    else
      (schedule { s with tables := got.1 } got.2 (s.tables.now + Measurements.initialLifetime), got.2)

def get (s : ScheduledTables) (name : Name) : Option (ScheduledTables × Ref) :=
  let looked := s.tables.nameTree.lookup cityHash name
  looked.2.bind (getAt { s with tables := s.tables.withTree looked.1 })

def getOfFib (s : ScheduledTables) (fibEntry : Ref) : Option (ScheduledTables × Ref) :=
  (s.tables.fib.nameTreeEntryOf fibEntry).bind (getAt s)

def getOfPit (s : ScheduledTables) (pitEntry : Ref) : Option (ScheduledTables × Ref) :=
  (s.tables.nameTreeEntryOfPit pitEntry).bind (getAt s)

def getParent (s : ScheduledTables) (child : Ref) : Option (ScheduledTables × Option Ref) :=
  (s.tables.measurements.entries child).bind fun e =>
    if e.content.name.length = 0 then some (s, none)
    else
      (e.nameTreeEntry.bind s.tables.nameTree.parentOf).bind fun nte =>
        (getAt s nte).map fun got => (got.1, some got.2)

/-- Whether the name tree entry that an entry points to has it attached. -/
def isAttached (s : Tables) (r : Ref) : Bool :=
  (s.measurements.nameTreeEntryOf r).any fun nte => s.nameTree.attachedTo .measurements nte == some r

def extendLifetime (s : ScheduledTables) (r : Ref) (lifetime : Int) : ScheduledTables :=
  let expiry : Int := s.tables.now + lifetime
  if isAttached s.tables r && (s.tables.measurements.entries r).all fun e => e.content.expiry < expiry then
    schedule (cancel { s with tables := Measurements.extendLifetime s.tables r lifetime } r) r expiry
  else s

/-- A pending event fires once it is due. -/
def fire (s : ScheduledTables) (id : Nat) : Option ScheduledTables :=
  (s.pending.find? fun event => event.id == id && decide (event.due ≤ (s.tables.now : Int))).map fun event =>
    { s with
      pending := s.pending.filter fun other => decide (other.id ≠ id)
      tables := Measurements.cleanup s.tables event.entry }

inductive Event where
  | get (name : Name)
  | getOfFib (r : Ref)
  | getOfPit (r : Ref)
  | getParent (r : Ref)
  | extendLifetime (r : Ref) (lifetime : Int)
  | fire (id : Nat)
  /-- An operation of another table, or the clock. -/
  | tables (op : Tables.Op)

/-- The operations that are events of their own here. -/
def isMeasurementsOp : Tables.Op → Bool
  | .measurementsGet _ | .measurementsGetOfFib _ | .measurementsGetOfPit _ | .measurementsGetParent _
  | .measurementsExtendLifetime _ _ | .measurementsCleanup _ => true
  | _ => false

def perform (s : ScheduledTables) : Event → Option ScheduledTables
  | .get name => (get cityHash s name).map (·.1)
  | .getOfFib r => (getOfFib s r).map (·.1)
  | .getOfPit r => (getOfPit s r).map (·.1)
  | .getParent r => (getParent s r).map (·.1)
  | .extendLifetime r lifetime => some (extendLifetime s r lifetime)
  | .fire id => fire s id
  | .tables op =>
      if isMeasurementsOp op then none else (Tables.step cityHash s.tables op).map fun tables => { s with tables }

/-- The lifetime that is asked for an entry. -/
def lifetimeAsked (r : Ref) : Event → Option Int
  | .extendLifetime r' lifetime => if r' = r then some lifetime else none
  | _ => none

/-- The lifetimes of an entry after an event: a new entry has the initial one, and a call asks for one more. -/
def lifetimesAfter (s s' : ScheduledTables) (event : Event) (r : Ref) : List Int :=
  if (s.tables.measurements.entries r).isNone && (s'.tables.measurements.entries r).isSome then
    [s.tables.now + Measurements.initialLifetime]
  else
    (lifetimeAsked r event).elim (s.lifetimes r) fun lifetime => (s.tables.now + lifetime) :: s.lifetimes r

def step (s : ScheduledTables) (event : Event) : Option ScheduledTables :=
  (perform cityHash s event).map fun s' => { s' with lifetimes := s.lifetimesAfter s' event }

variable {cityHash} {s s' : ScheduledTables} {r nte : Ref}

/-! ### The tables underneath -/

theorem getAt_tables (s : ScheduledTables) (nte : Ref) :
    (getAt s nte).map (fun got => (got.1.tables, got.2)) = Measurements.getAt s.tables nte := by
  rw [getAt, Option.map_map]
  cases hgot : Measurements.getAt s.tables nte with
  | none => rfl
  | some got =>
      rw [Option.map_some, Function.comp_apply]
      split <;> rfl

/-- A call extends the lifetime of an attached entry that would end earlier. -/
def Extends (s : Tables) (r : Ref) (lifetime : Int) : Prop :=
  isAttached s r = true ∧ ∀ e, s.measurements.entries r = some e → e.content.expiry < s.now + lifetime

theorem extends_iff {s : Tables} {r : Ref} {lifetime : Int} : Extends s r lifetime ↔ (isAttached s r &&
    (s.measurements.entries r).all fun e => decide (e.content.expiry < s.now + lifetime)) = true := by
  rw [Extends, Bool.and_eq_true, Option.all_eq_true]
  simp only [decide_eq_true_iff]

theorem measurements_extendLifetime_eq (s : Tables) (r : Ref) (lifetime : Int) :
    (Extends s r lifetime ∧ Measurements.extendLifetime s r lifetime = { s with
        measurements := s.measurements.modify r fun e =>
          { e with content := { e.content with expiry := s.now + lifetime, cleanup := some (s.now + lifetime) } } }) ∨
      (¬ Extends s r lifetime ∧ Measurements.extendLifetime s r lifetime = s) := by
  by_cases hext : Extends s r lifetime
  · exact .inl ⟨hext, if_pos (extends_iff.mp hext)⟩
  · exact .inr ⟨hext, if_neg (extends_iff.not.mp hext)⟩

/-- The call with the scheduler's part: a new event if the lifetime is extended, else nothing. -/
theorem extendLifetime_cases (s : ScheduledTables) (r : Ref) (lifetime : Int) :
    (Extends s.tables r lifetime ∧ extendLifetime s r lifetime = schedule (cancel
        { s with tables := Measurements.extendLifetime s.tables r lifetime } r) r (s.tables.now + lifetime)) ∨
      (¬ Extends s.tables r lifetime ∧ extendLifetime s r lifetime = s) := by
  by_cases hext : Extends s.tables r lifetime
  · exact .inl ⟨hext, if_pos (extends_iff.mp hext)⟩
  · exact .inr ⟨hext, if_neg (extends_iff.not.mp hext)⟩

theorem extendLifetime_tables (s : ScheduledTables) (r : Ref) (lifetime : Int) :
    (extendLifetime s r lifetime).tables = Measurements.extendLifetime s.tables r lifetime := by
  rcases extendLifetime_cases s r lifetime with ⟨-, heq⟩ | ⟨hnot, heq⟩
  · rw [heq]
    rfl
  · rw [heq, ((measurements_extendLifetime_eq s.tables r lifetime).resolve_left fun h => hnot h.1).2]

/-- Removing next hops changes FIB entries only, and erasing FIB entries no Measurements entry. -/
theorem removeNextHopRounds_others (face : Face) (rs : List Ref) : ∀ (s : Tables) (done : List Ref),
    (rs.foldl (Fib.removeNextHopRound face) (s, done)).1.measurements = s.measurements ∧
      (rs.foldl (Fib.removeNextHopRound face) (s, done)).1.nameTree = s.nameTree := by
  induction rs with
  | nil => exact fun _ _ => ⟨rfl, rfl⟩
  | cons r rs ih => exact fun s done => ih (Fib.removeNextHop s face r) _

theorem fibEraseEntry_measurements (s : Tables) (r : Ref) : (Fib.eraseEntry s r).measurements = s.measurements := by
  unfold Fib.eraseEntry
  cases s.fib.nameTreeEntryOf r <;> rfl

theorem fibEraseAll_measurements (rs : List Ref) :
    ∀ s : Tables, (rs.foldl Fib.eraseEntry s).measurements = s.measurements := by
  induction rs with
  | nil => exact fun _ => rfl
  | cons r rs ih => exact fun s => (ih _).trans (fibEraseEntry_measurements s r)

/-- An operation of another table leaves the entries and their attachments alone. -/
theorem step_tables {tables : Tables} {op : Tables.Op} (hop : isMeasurementsOp op = false)
    (hstep : Tables.step cityHash s.tables op = some tables) :
    tables.measurements = s.tables.measurements ∧
      (s.tables.measurements.Accounted .measurements s.tables.nameTree MeasurementsContent.name →
        s.tables.measurements.Accounted .measurements tables.nameTree MeasurementsContent.name) := by
  cases op with
  | fibInsert entryPrefix =>
      obtain ⟨result, hrun, rfl⟩ := Option.map_eq_some_iff.mp hstep
      refine ⟨?_, fun h => Tables.accounted_fibInsert h (by decide) hrun⟩
      obtain ⟨nte, -, rfl⟩ := Option.map_eq_some_iff.mp hrun
      split <;> rfl
  | fibErase entryPrefix =>
      cases hstep
      refine ⟨?_, fun h => Tables.accounted_fibErase h (by decide) entryPrefix⟩
      unfold Fib.erase
      cases s.tables.nameTree.findExactMatch cityHash entryPrefix <;> rfl
  | fibEraseEntry r =>
      cases hstep
      exact ⟨fibEraseEntry_measurements _ r, fun h => Tables.accounted_fibEraseEntry h (by decide) r⟩
  | fibAddNextHop r face cost =>
      cases hstep
      exact ⟨rfl, fun h => h⟩
  | fibRemoveNextHop r face =>
      cases hstep
      exact ⟨rfl, fun h => h⟩
  | fibRemoveNextHopFromAllEntries face =>
      obtain ⟨entries, -, rfl⟩ := Option.map_eq_some_iff.mp hstep
      obtain ⟨hmeasurements, htree⟩ := removeNextHopRounds_others face entries s.tables []
      refine ⟨(fibEraseAll_measurements _ _).trans hmeasurements, fun h => ?_⟩
      exact Tables.accounted_fibEraseAll (by decide) _ (htree.symm ▸ h)
  | pitInsert interest =>
      obtain ⟨result, hrun, rfl⟩ := Option.map_eq_some_iff.mp hstep
      exact ⟨rfl, fun h => Tables.accounted_pitInsert h hrun⟩
  | pitErase r =>
      obtain ⟨p, hrun, rfl⟩ := Option.map_eq_some_iff.mp hstep
      exact ⟨rfl, fun h => Tables.accounted_pitErase h hrun⟩
  | measurementsFindExactMatch name =>
      cases hstep
      exact ⟨rfl, fun h => h.lookup cityHash name⟩
  | strategyInstall strategyName =>
      cases hstep
      unfold StrategyChoice.install
      split <;> exact ⟨rfl, fun h => h⟩
  | strategyInsert entryPrefix strategyName =>
      obtain ⟨result, hrun, rfl⟩ := Option.map_eq_some_iff.mp hstep
      exact ⟨(Tables.strategyInsert_others hrun).2, fun h => Tables.accounted_strategyInsert h (by decide) hrun⟩
  | strategyErase entryPrefix =>
      exact ⟨(Tables.strategyErase_others hstep).2, fun h => Tables.accounted_strategyErase h (by decide) hstep⟩
  | find =>
      cases hstep
      exact ⟨rfl, fun h => h⟩
  | advanceClock duration =>
      cases hstep
      exact ⟨rfl, fun h => h⟩
  | _ => cases hop

/-- An entry of the table that is attached to the name tree. -/
def Live (s : Tables) (r : Ref) (content : MeasurementsContent) : Prop :=
  ∃ e, s.measurements.entries r = some e ∧ e.nameTreeEntry.isSome ∧ e.content = content

/-- Every live entry has one event, that of its handle, due when the entry expires; every event is that of a live
entry. -/
structure Owned (s : ScheduledTables) : Prop where
  accounted : s.tables.measurements.Accounted .measurements s.tables.nameTree MeasurementsContent.name
  fresh : ∀ event ∈ s.pending, event.id < s.nextId
  ids : (s.pending.map CleanupEvent.id).Nodup
  entries : (s.pending.map CleanupEvent.entry).Nodup
  live : ∀ event ∈ s.pending, s.cleanupOf event.entry = some event.id ∧
    ∃ content, Live s.tables event.entry content ∧ content.expiry = event.due
  scheduled : ∀ r content, Live s.tables r content → ∃ event ∈ s.pending, event.entry = r

/-- An entry expires when the last of its lifetimes ends. -/
def ExpiresLast (s : ScheduledTables) : Prop :=
  ∀ r content, Live s.tables r content →
    content.expiry ∈ s.lifetimes r ∧ ∀ due ∈ s.lifetimes r, due ≤ content.expiry

theorem new_owned (cityHash : Component → UInt64) (nBuckets : Nat) (defaultStrategy : Name) :
    (new cityHash nBuckets defaultStrategy).Owned ∧ (new cityHash nBuckets defaultStrategy).ExpiresLast := by
  have hmeasurements : (Tables.new cityHash nBuckets defaultStrategy).measurements = .empty := by
    unfold Tables.new StrategyChoice.setDefaultStrategy StrategyChoice.install
    split <;> dsimp only <;> cases NameTree.lookup _ _ _ |>.2 <;> rfl
  have hempty : (Table.empty : Table MeasurementsContent).Accounted .measurements (Tables.empty nBuckets).nameTree
      MeasurementsContent.name := Table.empty_accounted .measurements nBuckets _
  have hnone : ∀ r content, ¬ Live (new cityHash nBuckets defaultStrategy).tables r content := by
    rintro r content ⟨e, he, -⟩
    have he : (Tables.new cityHash nBuckets defaultStrategy).measurements.entries r = some e := he
    rw [hmeasurements] at he
    cases he
  refine ⟨⟨?_, by simp [new], by simp [new], by simp [new], by simp [new],
    fun r content h => absurd h (hnone r content)⟩, fun r content h => absurd h (hnone r content)⟩
  show (Tables.new cityHash nBuckets defaultStrategy).measurements.Accounted _ _ _
  rw [hmeasurements]
  exact Tables.accounted_setDefaultStrategy hempty (by decide) cityHash defaultStrategy

theorem live_congr {tables tables' : Tables} (h : tables'.measurements = tables.measurements) {content} :
    Live tables' r content ↔ Live tables r content := by
  rw [Live, Live, h]

/-- The Measurements entries are the same, though the name tree may have grown or shrunk elsewhere. -/
theorem Owned.of_same (h : s.Owned) {tables : Tables} (hsame : tables.measurements = s.tables.measurements)
    (hacc : s.tables.measurements.Accounted .measurements tables.nameTree MeasurementsContent.name) :
    Owned { s with tables } where
  accounted := hsame ▸ hacc
  fresh := h.fresh
  ids := h.ids
  entries := h.entries
  live event hevent := by
    obtain ⟨hhandle, content, hlive, hdue⟩ := h.live event hevent
    exact ⟨hhandle, content, (live_congr hsame).mpr hlive, hdue⟩
  scheduled r content hlive := h.scheduled r content ((live_congr hsame).mp hlive)

/-- What holds between cancelling the event of `r`, or making the entry `r`, and scheduling its event. -/
structure OwnedBut (s : ScheduledTables) (r : Ref) : Prop where
  accounted : s.tables.measurements.Accounted .measurements s.tables.nameTree MeasurementsContent.name
  fresh : ∀ event ∈ s.pending, event.id < s.nextId
  ids : (s.pending.map CleanupEvent.id).Nodup
  entries : (s.pending.map CleanupEvent.entry).Nodup
  live : ∀ event ∈ s.pending, event.entry ≠ r ∧ s.cleanupOf event.entry = some event.id ∧
    ∃ content, Live s.tables event.entry content ∧ content.expiry = event.due
  scheduled : ∀ r' content, r' ≠ r → Live s.tables r' content → ∃ event ∈ s.pending, event.entry = r'

theorem OwnedBut.schedule (h : s.OwnedBut r) {content : MeasurementsContent} (hlive : Live s.tables r content) :
    (s.schedule r content.expiry).Owned where
  accounted := h.accounted
  fresh event hevent := by
    rcases List.mem_append.mp hevent with hold | hnew
    · exact (h.fresh event hold).trans (Nat.lt_succ_self _)
    · cases List.mem_singleton.mp hnew
      exact Nat.lt_succ_self _
  ids := by
    show ((s.pending ++ [_]).map CleanupEvent.id).Nodup
    rw [List.map_append]
    refine h.ids.append (List.nodup_singleton _) fun id hold hnew => ?_
    obtain ⟨event, hevent, rfl⟩ := List.mem_map.mp hold
    have hlt := h.fresh event hevent
    rw [List.mem_singleton.mp hnew] at hlt
    exact Nat.lt_irrefl _ hlt
  entries := by
    show ((s.pending ++ [_]).map CleanupEvent.entry).Nodup
    rw [List.map_append]
    refine h.entries.append (List.nodup_singleton _) fun r' hold hnew => ?_
    obtain ⟨event, hevent, rfl⟩ := List.mem_map.mp hold
    exact (h.live event hevent).1 (List.mem_singleton.mp hnew)
  live event hevent := by
    rcases List.mem_append.mp hevent with hold | hnew
    · obtain ⟨hne, hhandle, hrest⟩ := h.live event hold
      exact ⟨(Function.update_of_ne hne _ _).trans hhandle, hrest⟩
    · cases List.mem_singleton.mp hnew
      exact ⟨Function.update_self _ _ _, content, hlive, rfl⟩
  scheduled r' content' hlive' := by
    by_cases hr : r' = r
    · exact ⟨⟨s.nextId, content.expiry, r⟩, List.mem_append_right _ (List.mem_singleton_self _), hr.symm⟩
    · obtain ⟨event, hevent, hentry⟩ := h.scheduled r' content' hr hlive'
      exact ⟨event, List.mem_append_left _ hevent, hentry⟩

theorem measurements_getAt_cases {tables : Tables} {got : Tables × Ref}
    (hget : Measurements.getAt tables nte = some got) :
    (tables.nameTree.attachedTo .measurements nte = some got.2 ∧ got.1 = tables) ∨
      (tables.nameTree.attachedTo .measurements nte = none ∧ got.2 = tables.measurements.nextRef ∧
        ∃ content, tables.nameTree.nameOf nte = some content.name ∧
          content.expiry = (tables.now : Int) + Measurements.initialLifetime ∧
            got.1 = tables.setMeasurements
              (tables.measurements.attachNew .measurements tables.nameTree nte content)) := by
  obtain ⟨e, he, rfl⟩ := Option.map_eq_some_iff.mp hget
  have hatt : tables.nameTree.attachedTo .measurements nte = e.measurementsEntry := by
    rw [NameTree.attachedTo, he]
    rfl
  cases hentry : e.measurementsEntry with
  | some r => exact .inl ⟨hatt.trans hentry, rfl⟩
  | none => exact .inr ⟨hatt.trans hentry, rfl, _, NameTree.nameOf_eq_some.mpr ⟨e, he, rfl⟩, rfl, rfl⟩

theorem live_attachNew {tables : Tables} (hfree : tables.nameTree.attachedTo .measurements nte = none)
    {content content' : MeasurementsContent} :
    Live (tables.setMeasurements (tables.measurements.attachNew .measurements tables.nameTree nte content)) r content' ↔
      if r = tables.measurements.nextRef then content = content' else Live tables r content' := by
  have hentries := Table.attachNew_entries (T := tables.measurements) hfree content r
  rw [Live]
  show (∃ e, (tables.measurements.attachNew .measurements tables.nameTree nte content).2.entries r = some e ∧ _) ↔ _
  rw [hentries]
  split
  · simp
  · rfl

theorem Owned.getAt (h : s.Owned) {got : ScheduledTables × Ref} (hget : s.getAt nte = some got) :
    got.1.Owned ∧ (∀ r content, Live s.tables r content → Live got.1.tables r content) ∧
      ∀ r content, Live got.1.tables r content → Live s.tables r content ∨
        s.tables.measurements.entries r = none ∧ content.expiry =
        (s.tables.now : Int) + Measurements.initialLifetime := by
  obtain ⟨result, hresult, rfl⟩ := Option.map_eq_some_iff.mp hget
  rcases measurements_getAt_cases hresult with ⟨hatt, hsame⟩ | ⟨hfree, hr, content, hname, hexpiry, htables⟩
  · rw [if_pos (by rw [hatt]; rfl)]
    dsimp only
    rw [hsame]
    exact ⟨h, fun _ _ hlive => hlive, fun _ _ hlive => .inl hlive⟩
  · rw [if_neg (by rw [hfree]; exact Bool.false_ne_true), hr, htables]
    dsimp only
    have hnew : s.tables.measurements.entries s.tables.measurements.nextRef = none :=
      Option.eq_none_iff_forall_ne_some.mpr fun e he => Nat.lt_irrefl _ (h.accounted.attached.fresh he)
    have hold : ∀ {r content'}, Live s.tables r content' → r ≠ s.tables.measurements.nextRef := by
      rintro r content' ⟨e, he, -⟩ rfl
      exact nomatch he.symm.trans hnew
    have hlive : ∀ {r content'}, Live s.tables r content' → Live (s.tables.setMeasurements
        (s.tables.measurements.attachNew .measurements s.tables.nameTree nte content)) r content' := fun hlive =>
      (live_attachNew hfree).mpr (by rwa [if_neg (hold hlive)])
    refine ⟨?_, fun r content' => hlive, fun r content' hlive' => ?_⟩
    · have hbut : OwnedBut { s with
          tables := s.tables.setMeasurements
            (s.tables.measurements.attachNew .measurements s.tables.nameTree nte content) }
          s.tables.measurements.nextRef := by
        refine ⟨h.accounted.attachNew hname hfree, h.fresh, h.ids, h.entries, fun event hevent => ?_,
          fun r' content' hne hlive' => ?_⟩
        · obtain ⟨hhandle, content', hlive', hdue⟩ := h.live event hevent
          exact ⟨hold hlive', hhandle, content', hlive hlive', hdue⟩
        · rw [live_attachNew hfree, if_neg hne] at hlive'
          exact h.scheduled r' content' hlive'
      rw [← hexpiry]
      exact hbut.schedule ((live_attachNew hfree).mpr (by rw [if_pos rfl]))
    · have hcases := (live_attachNew hfree).mp hlive'
      split at hcases
      · rename_i hr'
        exact .inr ⟨hr' ▸ hnew, hcases ▸ hexpiry⟩
      · exact .inl hcases

theorem Owned.isAttached_iff (h : s.Owned) : isAttached s.tables r = true ↔ ∃ content, Live s.tables r content := by
  rw [isAttached, Table.nameTreeEntryOf, Option.any_eq_true]
  constructor
  · rintro ⟨nte, hnte, -⟩
    obtain ⟨e, he, hptr⟩ := Option.bind_eq_some_iff.mp hnte
    exact ⟨_, e, he, by rw [hptr]; rfl, rfl⟩
  · rintro ⟨content, e, he, hptr, -⟩
    obtain ⟨nte, hnte⟩ := Option.isSome_iff_exists.mp hptr
    refine ⟨nte, Option.bind_eq_some_iff.mpr ⟨e, he, hnte⟩, ?_⟩
    rw [h.accounted.attached.attached he hnte, beq_self_eq_true]

/-- The event of an entry is the one of its handle. -/
theorem Owned.entry_of_handle (h : s.Owned) {content : MeasurementsContent} (hlive : Live s.tables r content)
    {event : CleanupEvent} (hevent : event ∈ s.pending) (hhandle : s.cleanupOf r = some event.id) :
    event.entry = r := by
  obtain ⟨own, hown, rfl⟩ := h.scheduled r content hlive
  have hid : own.id = event.id := Option.some.inj ((h.live own hown).1.symm.trans hhandle)
  rw [List.inj_on_of_nodup_map h.ids hown hevent hid]

theorem live_extendLifetime {lifetime : Int} (hext : Extends s.tables r lifetime) {r' : Ref} {content'} :
    Live (Measurements.extendLifetime s.tables r lifetime) r' content' ↔ ∃ content, Live s.tables r' content ∧
      content' = if r' = r then
        { content with expiry := s.tables.now + lifetime, cleanup := some (s.tables.now + lifetime) } else content := by
  obtain ⟨-, heq⟩ := (measurements_extendLifetime_eq s.tables r lifetime).resolve_right fun h => h.1 hext
  rw [heq, Live]
  dsimp only
  rw [Table.entries_modify]
  by_cases hr : r' = r
  · subst hr
    simp only [if_true]
    constructor
    · rintro ⟨e', he', hptr, rfl⟩
      obtain ⟨e, he, rfl⟩ := Option.map_eq_some_iff.mp he'
      exact ⟨_, ⟨e, he, hptr, rfl⟩, rfl⟩
    · rintro ⟨content, ⟨e, he, hptr, rfl⟩, rfl⟩
      exact ⟨_, Option.map_eq_some_iff.mpr ⟨e, he, rfl⟩, hptr, rfl⟩
  · simp only [if_neg hr]
    constructor
    · intro hlive
      exact ⟨content', hlive, rfl⟩
    · rintro ⟨content, hlive, rfl⟩
      exact hlive

theorem Owned.extended (h : s.Owned) {lifetime : Int} (hext : Extends s.tables r lifetime) :
    OwnedBut (cancel { s with tables := Measurements.extendLifetime s.tables r lifetime } r) r := by
  obtain ⟨content, hlive⟩ := h.isAttached_iff.mp hext.1
  have hsub : ∀ {event}, event ∈ s.pending.filter (fun event => decide (s.cleanupOf r ≠ some event.id)) →
      event ∈ s.pending ∧ event.entry ≠ r := by
    intro event hevent
    obtain ⟨hmem, hne⟩ := List.mem_filter.mp hevent
    refine ⟨hmem, fun heq => of_decide_eq_true hne ?_⟩
    rw [← heq]
    exact (h.live event hmem).1
  have hsublist := @List.filter_sublist _ (fun event => decide (s.cleanupOf r ≠ some event.id)) s.pending
  refine ⟨?_, fun event hevent => h.fresh event (hsub hevent).1, h.ids.sublist (hsublist.map _),
    h.entries.sublist (hsublist.map _), fun event hevent => ?_, fun r' content' hne hlive' => ?_⟩
  · obtain ⟨-, heq⟩ := (measurements_extendLifetime_eq s.tables r lifetime).resolve_right fun h => h.1 hext
    show (Measurements.extendLifetime s.tables r lifetime).measurements.Accounted .measurements
      (Measurements.extendLifetime s.tables r lifetime).nameTree MeasurementsContent.name
    rw [heq]
    exact h.accounted.modify r (fun _ => rfl) fun _ => rfl
  · obtain ⟨hmem, hne⟩ := hsub hevent
    obtain ⟨hhandle, content', hlive', hdue⟩ := h.live event hmem
    refine ⟨hne, (Function.update_of_ne hne _ _).trans hhandle, content', ?_, hdue⟩
    exact (live_extendLifetime hext).mpr ⟨content', hlive', by rw [if_neg hne]⟩
  · obtain ⟨content₀, hlive₀, rfl⟩ := (live_extendLifetime hext).mp hlive'
    obtain ⟨event, hevent, rfl⟩ := h.scheduled r' content₀ hlive₀
    refine ⟨event, List.mem_filter.mpr ⟨hevent, decide_eq_true fun hhandle => ?_⟩, rfl⟩
    exact hne (h.entry_of_handle hlive hevent hhandle)

/-- An entry expires no earlier than the call asks for. -/
theorem Owned.extendLifetime (h : s.Owned) (r : Ref) (lifetime : Int) :
    (s.extendLifetime r lifetime).Owned ∧
      (∀ r' content, Live s.tables r' content → ∃ content', Live (s.extendLifetime r lifetime).tables r' content') ∧
      ∀ r' content', Live (s.extendLifetime r lifetime).tables r' content' → ∃ content, Live s.tables r' content ∧
        content'.expiry = if r = r' then max content.expiry (s.tables.now + lifetime) else content.expiry := by
  rcases extendLifetime_cases s r lifetime with ⟨hext, heq⟩ | ⟨hnot, heq⟩
  · rw [heq]
    obtain ⟨content, hlive⟩ := h.isAttached_iff.mp hext.1
    have hlive' : Live (Measurements.extendLifetime s.tables r lifetime) r { content with
        expiry := s.tables.now + lifetime, cleanup := some (s.tables.now + lifetime) } :=
      (live_extendLifetime hext).mpr ⟨content, hlive, by rw [if_pos rfl]⟩
    refine ⟨(h.extended hext).schedule hlive', fun r' content' hlive' => ?_, fun r' content' hlive' => ?_⟩
    · exact ⟨_, (live_extendLifetime hext).mpr ⟨content', hlive', rfl⟩⟩
    · obtain ⟨content₀, hlive₀, rfl⟩ := (live_extendLifetime hext).mp hlive'
      refine ⟨content₀, hlive₀, ?_⟩
      by_cases hr : r' = r
      · subst hr
        obtain ⟨e, he, -, rfl⟩ := hlive₀
        rw [if_pos rfl, if_pos rfl, max_eq_right (hext.2 e he).le]
      · rw [if_neg hr, if_neg (Ne.symm hr)]
  · rw [heq]
    refine ⟨h, fun r' content hlive => ⟨content, hlive⟩, fun r' content' hlive => ⟨content', hlive, ?_⟩⟩
    split
    · rename_i hr
      subst hr
      refine (max_eq_left (not_lt.mp fun hlt => hnot ⟨h.isAttached_iff.mpr ⟨content', hlive⟩, fun e he => ?_⟩)).symm
      obtain ⟨e', he', -, rfl⟩ := hlive
      cases he.symm.trans he'
      exact hlt
    · rfl

/-- The entry of an event is detached, and no other. -/
theorem Owned.fire (h : s.Owned) {id : Nat} (hfire : s.fire id = some s') :
    s'.Owned ∧ ∃ event ∈ s.pending, event.id = id ∧ event.due ≤ (s.tables.now : Int) ∧
      ∀ r content, Live s'.tables r content ↔ Live s.tables r content ∧ r ≠ event.entry := by
  obtain ⟨event, hfind, rfl⟩ := Option.map_eq_some_iff.mp hfire
  have hevent := List.mem_of_find?_eq_some hfind
  have hcond := List.find?_some hfind
  rw [Bool.and_eq_true, beq_iff_eq, decide_eq_true_iff] at hcond
  obtain ⟨rfl, hdue⟩ := hcond
  obtain ⟨-, content, ⟨e, he, hptr, rfl⟩, -⟩ := h.live event hevent
  obtain ⟨nte, hnte⟩ := Option.isSome_iff_exists.mp hptr
  have hatt := h.accounted.attached.attached he hnte
  have hcleanup : Measurements.cleanup s.tables event.entry =
      s.tables.setMeasurements (s.tables.measurements.detach .measurements s.tables.nameTree nte) := by
    rw [Measurements.cleanup, Table.nameTreeEntryOf, he, Option.bind_some, hnte]
    rfl
  have hlive : ∀ r content, Live (Measurements.cleanup s.tables event.entry) r content ↔
      Live s.tables r content ∧ r ≠ event.entry := by
    intro r content
    rw [hcleanup, Live]
    show (∃ e, (s.tables.measurements.attach .measurements s.tables.nameTree nte none).2.entries r = some e ∧ _) ↔ _
    rw [Table.attach_none_entries, hatt]
    by_cases hr : r = event.entry
    · subst hr
      rw [if_pos rfl, he]
      simp
    · rw [if_neg fun heq => hr (Option.some.inj heq).symm]
      exact (and_iff_left hr).symm
  have hother : ∀ {other}, other ∈ s.pending.filter (fun other => decide (other.id ≠ event.id)) →
      other ∈ s.pending ∧ other.entry ≠ event.entry := by
    intro other hmem
    obtain ⟨hmem, hne⟩ := List.mem_filter.mp hmem
    refine ⟨hmem, fun heq => of_decide_eq_true hne ?_⟩
    rw [List.inj_on_of_nodup_map h.entries hmem hevent heq]
  have hsublist := @List.filter_sublist _ (fun other : CleanupEvent => decide (other.id ≠ event.id)) s.pending
  refine ⟨⟨?_, fun other hmem => h.fresh other (hother hmem).1, h.ids.sublist (hsublist.map _),
    h.entries.sublist (hsublist.map _), fun other hmem => ?_, fun r content hr => ?_⟩,
    event, hevent, rfl, hdue, hlive⟩
  · dsimp only
    rw [hcleanup]
    exact h.accounted.detach (by rw [hatt]; rfl)
  · obtain ⟨hmem, hne⟩ := hother hmem
    obtain ⟨hhandle, content, hcontent, hexpiry⟩ := h.live other hmem
    exact ⟨hhandle, content, (hlive _ _).mpr ⟨hcontent, hne⟩, hexpiry⟩
  · obtain ⟨hcontent, hne⟩ := (hlive r content).mp hr
    obtain ⟨own, hown, rfl⟩ := h.scheduled r content hcontent
    refine ⟨own, List.mem_filter.mpr ⟨hown, decide_eq_true fun hid => hne ?_⟩, rfl⟩
    rw [List.inj_on_of_nodup_map h.ids hown hevent hid]

/-! ### The run -/

theorem Owned.live_iff (h : s.Owned) :
    (∃ content, Live s.tables r content) ↔ ∃ nte, s.tables.nameTree.attachedTo .measurements nte = some r := by
  constructor
  · rintro ⟨content, e, he, hptr, -⟩
    obtain ⟨nte, hnte⟩ := Option.isSome_iff_exists.mp hptr
    exact ⟨nte, h.accounted.attached.attached he hnte⟩
  · rintro ⟨nte, hatt⟩
    obtain ⟨e, he, hptr⟩ := h.accounted.attached.owned hatt
    exact ⟨_, e, he, by rw [hptr]; rfl, rfl⟩

theorem Owned.lookup (h : s.Owned) (cityHash : Component → UInt64) (name : Name) :
    Owned { s with tables := s.tables.withTree (s.tables.nameTree.lookup cityHash name).1 } :=
  h.of_same rfl (h.accounted.lookup cityHash name)

/-- When an entry expires after an event, if it was there before. -/
def expiryAfter (s : ScheduledTables) (event : Event) (r : Ref) (expiry : Int) : Int :=
  (lifetimeAsked r event).elim expiry fun lifetime => max expiry (s.tables.now + lifetime)

/-- An event keeps the invariant; an entry that was live is, unless its own event has fired; and an entry is new, or
expires when it did or later if the event asks for it. -/
structure Performed (s s' : ScheduledTables) (event : Event) : Prop where
  owned : s'.Owned
  kept : ∀ r content, Live s.tables r content → (∃ content', Live s'.tables r content') ∨
    ∃ cleanup ∈ s.pending, cleanup.entry = r ∧ event = .fire cleanup.id ∧ cleanup.due ≤ (s.tables.now : Int)
  expiry : ∀ r content', Live s'.tables r content' →
    (s.tables.measurements.entries r = none ∧
      content'.expiry = (s.tables.now : Int) + Measurements.initialLifetime) ∨
    ∃ content, Live s.tables r content ∧ content'.expiry = s.expiryAfter event r content.expiry

theorem Owned.perform (h : s.Owned) {event : Event} (hstep : perform cityHash s event = some s') :
    Performed s s' event := by
  have hgot : ∀ {looked got nte}, Owned { s with tables := looked } → looked.measurements = s.tables.measurements →
      looked.now = s.tables.now → ScheduledTables.getAt { s with tables := looked } nte = some got →
      (∀ r expiry, s.expiryAfter event r expiry = expiry) → Performed s got.1 event := by
    intro looked got nte hlooked hsame hnow hget hexpiry
    obtain ⟨howned, hkept, hnew⟩ := hlooked.getAt hget
    refine ⟨howned, fun r content hlive => .inl ⟨content, hkept r content ((live_congr hsame).mpr hlive)⟩,
      fun r content' hlive => ?_⟩
    rcases hnew r content' hlive with hlive | ⟨hnone, hdue⟩
    · exact .inr ⟨content', (live_congr hsame).mp hlive, (hexpiry r _).symm⟩
    · exact .inl ⟨hsame ▸ hnone, hnow ▸ hdue⟩
  cases event with
  | get name =>
      obtain ⟨got, hget, rfl⟩ := Option.map_eq_some_iff.mp hstep
      obtain ⟨nte, -, hget⟩ := Option.bind_eq_some_iff.mp hget
      exact hgot (h.lookup cityHash name) rfl rfl hget fun _ _ => rfl
  | getOfFib r =>
      obtain ⟨got, hget, rfl⟩ := Option.map_eq_some_iff.mp hstep
      obtain ⟨nte, -, hget⟩ := Option.bind_eq_some_iff.mp hget
      exact hgot h rfl rfl hget fun _ _ => rfl
  | getOfPit r =>
      obtain ⟨got, hget, rfl⟩ := Option.map_eq_some_iff.mp hstep
      obtain ⟨nte, -, hget⟩ := Option.bind_eq_some_iff.mp hget
      exact hgot h rfl rfl hget fun _ _ => rfl
  | getParent r =>
      obtain ⟨got, hget, rfl⟩ := Option.map_eq_some_iff.mp hstep
      obtain ⟨e, -, hget⟩ := Option.bind_eq_some_iff.mp hget
      split at hget
      · cases hget
        exact ⟨h, fun r content hr => .inl ⟨content, hr⟩, fun r content hr => .inr ⟨content, hr, rfl⟩⟩
      · obtain ⟨nte, -, hget⟩ := Option.bind_eq_some_iff.mp hget
        obtain ⟨got', hget', rfl⟩ := Option.map_eq_some_iff.mp hget
        exact hgot h rfl rfl hget' fun _ _ => rfl
  | extendLifetime r lifetime =>
      cases hstep
      obtain ⟨howned, hkept, hexpiry⟩ := h.extendLifetime r lifetime
      refine ⟨howned, fun r content hr => .inl (hkept r content hr), fun r' content' hr => .inr ?_⟩
      obtain ⟨content, hlive, heq⟩ := hexpiry r' content' hr
      refine ⟨content, hlive, heq.trans ?_⟩
      rw [expiryAfter, lifetimeAsked]
      split <;> rfl
  | fire id =>
      obtain ⟨h', cleanup, hcleanup, rfl, hdue, hlive⟩ := h.fire hstep
      refine ⟨h', fun r content hr => ?_, fun r content' hr => .inr ⟨content', ((hlive r content').mp hr).1, rfl⟩⟩
      by_cases heq : cleanup.entry = r
      · exact .inr ⟨cleanup, hcleanup, heq, rfl, hdue⟩
      · exact .inl ⟨content, (hlive r content).mpr ⟨hr, Ne.symm heq⟩⟩
  | tables op =>
      rw [ScheduledTables.perform] at hstep
      split at hstep
      · cases hstep
      · rename_i hop
        obtain ⟨tables, htables, rfl⟩ := Option.map_eq_some_iff.mp hstep
        obtain ⟨hsame, hacc⟩ := step_tables (Bool.eq_false_iff.mpr hop) htables
        exact ⟨h.of_same hsame (hacc h.accounted), fun r content hr => .inl ⟨content, (live_congr hsame).mpr hr⟩,
          fun r content' hr => .inr ⟨content', (live_congr hsame).mp hr, rfl⟩⟩

/-- A call that asks for a lifetime makes it one of those of the entry, and the entry expires with the last of them. -/
theorem Performed.expiresLast {event : Event} (h : Performed s s' event) (hlast : s.ExpiresLast) :
    ExpiresLast { s' with lifetimes := s.lifetimesAfter s' event } := by
  intro r content' hlive
  have hentry : (s'.tables.measurements.entries r).isSome = true := by
    obtain ⟨e, he, -⟩ := hlive
    rw [he]
    rfl
  dsimp only
  rw [lifetimesAfter]
  rcases h.expiry r content' hlive with ⟨hnone, hexpiry⟩ | ⟨content, hlive₀, hexpiry⟩
  · rw [hnone, hentry, hexpiry]
    exact ⟨List.mem_singleton_self _, fun due hdue => (List.mem_singleton.mp hdue).le⟩
  · obtain ⟨hmem, hmax⟩ := hlast r content hlive₀
    obtain ⟨e, he, -⟩ := hlive₀
    rw [he, Option.isNone_some, Bool.false_and, if_neg Bool.false_ne_true, hexpiry, expiryAfter]
    cases lifetimeAsked r event with
    | none => exact ⟨hmem, hmax⟩
    | some lifetime =>
        simp only [Option.elim_some]
        refine ⟨?_, fun due hdue => ?_⟩
        · rcases max_choice content.expiry (s.tables.now + lifetime) with hlater | hlater
          · rw [hlater]
            exact List.mem_cons_of_mem _ hmem
          · rw [hlater]
            exact List.mem_cons_self
        · rcases List.mem_cons.mp hdue with rfl | hdue
          · exact le_max_right _ _
          · exact (hmax due hdue).trans (le_max_left _ _)

/-- One event, with its record. -/
theorem Owned.step (h : s.Owned) {event : Event} (hstep : step cityHash s event = some s') :
    Performed s s' event ∧ (s.ExpiresLast → s'.ExpiresLast) := by
  obtain ⟨s₁, hperform, rfl⟩ := Option.map_eq_some_iff.mp hstep
  have hperformed := h.perform hperform
  have howned := hperformed.owned
  exact ⟨⟨⟨howned.accounted, howned.fresh, howned.ids, howned.entries, howned.live, howned.scheduled⟩, hperformed.kept,
    hperformed.expiry⟩, hperformed.expiresLast⟩

theorem filter_entry {events : List CleanupEvent} (h : (events.map CleanupEvent.entry).Nodup) {event : CleanupEvent}
    (hevent : event ∈ events) : events.filter (fun other => other.entry == event.entry) = [event] := by
  induction events with
  | nil => cases hevent
  | cons first events ih =>
      obtain ⟨hfirst, hrest⟩ := List.nodup_cons.mp h
      rcases List.mem_cons.mp hevent with rfl | hevent
      · have hnone : events.filter (fun other => other.entry == event.entry) = [] :=
          List.filter_eq_nil_iff.mpr fun other hother heq =>
            hfirst (beq_iff_eq.mp heq ▸ List.mem_map_of_mem hother)
        rw [List.filter_cons, hnone, beq_self_eq_true, if_pos rfl]
      · rw [List.filter_cons_of_neg, ih hrest hevent]
        intro heq
        exact hfirst (beq_iff_eq.mp heq ▸ List.mem_map_of_mem hevent)

/-- In every state of a run, an entry in the name tree has one pending event, due when it expires, which is when the
last of its lifetimes ends; it is removed when that event fires and by nothing else, extending the lifetime of an entry
that is gone does nothing, and the counter is right. -/
theorem measurements_lifetimes {nBuckets : Nat} {defaultStrategy : Name}
    (hr : Reach (step cityHash) anyStep (new cityHash nBuckets defaultStrategy) s) :
    (∀ nte r, s.tables.nameTree.attachedTo .measurements nte = some r → ∃ e event,
        s.tables.measurements.entries r = some e ∧ s.pending.filter (fun event => event.entry == r) = [event] ∧
          event.due = e.content.expiry ∧ e.content.expiry ∈ s.lifetimes r ∧ ∀ due ∈ s.lifetimes r,
          due ≤ e.content.expiry) ∧
      (∀ event s', step cityHash s event = some s' →
        ∀ nte r, s.tables.nameTree.attachedTo .measurements nte = some r →
          (∃ nte', s'.tables.nameTree.attachedTo .measurements nte' = some r) ∨ ∃ cleanup ∈ s.pending,
            cleanup.entry = r ∧ event = .fire cleanup.id ∧ cleanup.due ≤ (s.tables.now : Int)) ∧
      (∀ cleanup ∈ s.pending, (∃ nte, s.tables.nameTree.attachedTo .measurements nte = some cleanup.entry) ∧
        (cleanup.due ≤ (s.tables.now : Int) → ∃ s', step cityHash s (.fire cleanup.id) = some s' ∧
          ∀ nte, s'.tables.nameTree.attachedTo .measurements nte ≠ some cleanup.entry)) ∧
      (∀ r lifetime, (∀ nte, s.tables.nameTree.attachedTo .measurements nte ≠ some r) →
        extendLifetime s r lifetime = s) ∧
      s.tables.measurements.nItems = (s.tables.nameTree.attachedSet .measurements).ncard := by
  obtain ⟨h, hlast⟩ : s.Owned ∧ s.ExpiresLast := hr.invariant (I := fun s => s.Owned ∧ s.ExpiresLast)
    (new_owned cityHash nBuckets defaultStrategy) fun _ _ _ h _ hstep =>
      (h.1.step hstep).imp Performed.owned fun hlast => hlast h.2
  refine ⟨fun nte r hatt => ?_, fun event s' hstep nte r hatt => ?_, fun cleanup hcleanup => ?_,
    fun r lifetime hgone => ?_, h.accounted.nItems_eq⟩
  · obtain ⟨e, he, hptr⟩ := h.accounted.attached.owned hatt
    have hlive : Live s.tables r e.content := ⟨e, he, by rw [hptr]; rfl, rfl⟩
    obtain ⟨event, hevent, rfl⟩ := h.scheduled r e.content hlive
    obtain ⟨-, content, ⟨e', he', -, rfl⟩, hdue⟩ := h.live event hevent
    rw [he] at he'
    cases he'
    exact ⟨e, event, he, filter_entry h.entries hevent, hdue.symm, hlast _ _ hlive⟩
  · obtain ⟨content, hlive⟩ := h.live_iff.mpr ⟨nte, hatt⟩
    have hperformed := (h.step hstep).1
    exact (hperformed.kept r content hlive).imp_left hperformed.owned.live_iff.mp
  · obtain ⟨-, content, hlive, -⟩ := h.live cleanup hcleanup
    refine ⟨h.live_iff.mp ⟨content, hlive⟩, fun hdue => ?_⟩
    have hfire : ∃ s', fire s cleanup.id = some s' := by
      rw [fire]
      cases hfind : s.pending.find? fun event => event.id == cleanup.id &&
        decide (event.due ≤ (s.tables.now : Int)) with
      | some event => exact ⟨_, rfl⟩
      | none =>
          have hnone := List.find?_eq_none.mp hfind cleanup hcleanup
          simp [hdue] at hnone
    obtain ⟨s', hs'⟩ := hfire
    obtain ⟨h', event, hevent, hid, -, hlive'⟩ := h.fire hs'
    obtain rfl := List.inj_on_of_nodup_map h.ids hevent hcleanup hid
    refine ⟨_, Option.map_eq_some_iff.mpr ⟨s', hs', rfl⟩, fun nte hatt => ?_⟩
    obtain ⟨content', hcontent'⟩ := h'.live_iff.mpr ⟨nte, hatt⟩
    exact ((hlive' _ _).mp hcontent').2 rfl
  · have hatt : ¬ isAttached s.tables r = true := fun hatt => by
      obtain ⟨nte, hnte⟩ := h.live_iff.mp (h.isAttached_iff.mp hatt)
      exact hgone nte hnte
    exact if_neg fun hand => hatt (Bool.and_eq_true_iff.mp hand).1

/-- `/A` is measured, its lifetime extended to nine seconds, and its entry removed then. -/
def measured : List Event :=
  [.get [.ofByte 65], .tables (.advanceClock 3000000000), .extendLifetime 0 6000000000]

theorem measurements_lifetimes_measured : ∃ s,
    exec (step NameTree.octetHash) (new NameTree.octetHash 1024 [.ofByte 83]) measured = some s ∧
      ∃ e event, s.tables.measurements.entries 0 = some e ∧ s.pending.filter (fun event => event.entry == 0) = [event] ∧
        event.due = e.content.expiry ∧ e.content.expiry = 9000000000 ∧ e.content.expiry ∈ s.lifetimes 0 ∧
          ∀ due ∈ s.lifetimes 0, due ≤ e.content.expiry := by
  have hrun : (exec (step NameTree.octetHash) (new NameTree.octetHash 1024 [.ofByte 83]) measured).map
      (fun s => (s.tables.nameTree.attachedTo .measurements 1,
        (s.tables.measurements.entries 0).map fun e => e.content.expiry)) = some (some 0, some 9000000000) := by
    decide +kernel
  obtain ⟨s, hs, hread⟩ := Option.map_eq_some_iff.mp hrun
  obtain ⟨hatt, hexpiry⟩ := Prod.mk.inj hread
  obtain ⟨e, event, he, hevent, hdue, hlifetimes⟩ := (measurements_lifetimes (reach_of_exec Reach.start hs)).1 1 0 hatt
  rw [he] at hexpiry
  exact ⟨s, hs, e, event, he, hevent, hdue, Option.some.inj hexpiry, hlifetimes⟩

end ScheduledTables
end NfdPitless
