import NfdPitless.RibSteps

/-! The count of the routes with the CAPTURE flag that every RIB entry keeps (`rib/rib-entry.cpp`). `insertRoute` and
`eraseRoute` keep it; the update in place of `Rib::insert` does not, so that it stays right as long as no route is
registered again with another CAPTURE flag. -/

namespace NfdPitless

namespace RibEntry

variable {e : RibEntry} {r s : Route}

def nCaptures (e : RibEntry) : Nat := e.routes.countP Route.isCapture

/-- The counter is the number of routes with the flag, and the entry captures when there is one. -/
structure Counted (e : RibEntry) : Prop where
  count : e.nRoutesWithCaptureSet = e.nCaptures
  capture : e.hasCapture = true ↔ ∃ r ∈ e.routes, r.isCapture = true

theorem counted_iff : e.Counted ↔ e.nRoutesWithCaptureSet = e.nCaptures := by
  refine ⟨Counted.count, fun h => ⟨h, ?_⟩⟩
  rw [hasCapture, decide_eq_true_iff, h, nCaptures]
  exact List.countP_pos_iff

/-- A route that is put does not change the flag of the one that it replaces, or leaves the counter below its
bound. -/
def KeepsCapture (e : RibEntry) (route : Route) : Prop :=
  match e.findRoute route with
  | some existing => existing.isCapture = route.isCapture
  | none => route.isCapture = true → e.nCaptures + 1 < 2 ^ 64

instance (e : RibEntry) (route : Route) : Decidable (e.KeepsCapture route) :=
  match h : e.findRoute route with
  | some existing => decidable_of_iff (existing.isCapture = route.isCapture) (by rw [KeepsCapture, h])
  | none => decidable_of_iff (route.isCapture = true → e.nCaptures + 1 < 2 ^ 64) (by rw [KeepsCapture, h])

/-- The counter stays right exactly when the route keeps it. -/
theorem Counted.put_iff (h : e.Counted) (hbound : e.nCaptures < 2 ^ 64) :
    ((e.put r).Counted ↔ e.KeepsCapture r) ∧ (e.KeepsCapture r → (e.put r).nCaptures < 2 ^ 64) := by
  rw [counted_iff]
  unfold KeepsCapture
  cases hfind : e.findRoute r with
  | some existing =>
      have hcount := Lists.countP_replaceFirst Route.isCapture r hfind
      rw [put_of_some hfind]
      have hput : (e.updateRoute r).nCaptures + (if existing.isCapture then 1 else 0) =
          e.nCaptures + (if r.isCapture then 1 else 0) := hcount
      have hcounter : (e.updateRoute r).nRoutesWithCaptureSet = e.nCaptures := h.count
      rw [hcounter]
      dsimp only
      cases hold : existing.isCapture <;> cases hnew : r.isCapture <;> simp [hold, hnew] at hput ⊢ <;> omega
  | none =>
      rw [put_of_none hfind]
      have hput : (e.insertRoute r).nCaptures = e.nCaptures + (if r.isCapture then 1 else 0) := by
        rw [nCaptures, insertRoute_routes hfind, List.countP_append, List.countP_singleton]
        rfl
      have hcounter : (e.insertRoute r).nRoutesWithCaptureSet =
          if r.isCapture then (e.nCaptures + 1) % 2 ^ 64 else e.nCaptures := by
        rw [insertRoute, hfind, ← h.count]
      rw [hput, hcounter]
      dsimp only
      cases r.isCapture with
      | true => simp
      | false =>
          simp
          omega

theorem Counted.eraseRoute (h : e.Counted) (hbound : e.nCaptures < 2 ^ 64) :
    (e.eraseRoute r).Counted ∧ (e.eraseRoute r).nCaptures < 2 ^ 64 := by
  rw [counted_iff]
  cases hfind : e.findRoute r with
  | none =>
      rw [RibEntry.eraseRoute, hfind]
      exact ⟨h.count, hbound⟩
  | some existing =>
      have hcount := Lists.countP_eraseP Route.isCapture hfind
      have hleft : (e.eraseRoute r).nCaptures + (if existing.isCapture then 1 else 0) = e.nCaptures := by
        rw [nCaptures, eraseRoute_routes hfind]
        exact hcount
      have hcounter : (e.eraseRoute r).nRoutesWithCaptureSet =
          if existing.isCapture then (e.nCaptures + (2 ^ 64 - 1)) % 2 ^ 64 else e.nCaptures := by
        rw [RibEntry.eraseRoute, hfind, ← h.count]
      rw [hcounter]
      cases hold : existing.isCapture <;> simp [hold] at hleft ⊢ <;> omega

theorem new_counted (name : Name) : (RibEntry.new name).Counted := counted_iff.mpr rfl

end RibEntry

/-- An update of the RIB, as `Rib::insert` or `Rib::erase` applies it. -/
inductive RibOperation where
  | insert (name : Name) (route : Route)
  | erase (name : Name) (route : Route)

namespace Rib

variable {rib rib' : Rib} {operation : RibOperation} {entries : Name → Option RibEntry}

def step (rib : Rib) : RibOperation → Option Rib
  | .insert name route => rib.insert name route
  | .erase name route => rib.erase name route

/-- Every entry has the number of its routes with the flag. -/
def Counted (rib : Rib) : Prop := ∀ n e, rib.entries n = some e → e.Counted

/-- A route that is registered again keeps its CAPTURE flag, and a new one does not exhaust the counter. -/
def KeepsCapture (rib : Rib) : RibOperation → Prop
  | .insert name route => ((rib.entries name).getD (.new name)).KeepsCapture route
  | .erase _ _ => True

instance (rib : Rib) (operation : RibOperation) : Decidable (rib.KeepsCapture operation) :=
  match operation with
  | .insert name route => inferInstanceAs (Decidable (((rib.entries name).getD (.new name)).KeepsCapture route))
  | .erase _ _ => inferInstanceAs (Decidable True)

/-- A property of the entries that does not depend on their pointers. -/
theorem Extends.forall_iff {P : RibEntry → Prop}
    (hP : ∀ (e : RibEntry) parent children, P { e with parent, children } ↔ P e) (h : rib.Extends entries) :
    (∀ n e, rib.entries n = some e → P e) ↔ ∀ n e, entries n = some e → P e := by
  constructor
  · intro hall n e he
    obtain ⟨parent, children, hent⟩ := h n
    rw [he, Option.map_some] at hent
    exact (hP e parent children).mp (hall n _ hent)
  · intro hall n e he
    obtain ⟨parent, children, hent⟩ := h n
    rw [he] at hent
    obtain ⟨e₀, he₀, rfl⟩ := Option.map_eq_some_iff.mp hent.symm
    exact (hP e₀ parent children).mpr (hall n e₀ he₀)

/-- The invariant of the runs. -/
structure CaptureCounted (rib : Rib) : Prop where
  valid : rib.Valid
  counted : rib.Counted
  bound : ∀ n e, rib.entries n = some e → e.nCaptures < 2 ^ 64

theorem forall_update {P : RibEntry → Prop} {n : Name} {value : Option RibEntry}
    (h : ∀ m e, rib.entries m = some e → P e) :
    (∀ m e, Function.update rib.entries n value m = some e → P e) ↔ ∀ e, value = some e → P e := by
  constructor
  · exact fun hall e he => hall n e (by rw [Function.update_self, he])
  · intro hvalue m e he
    rw [Function.update_apply] at he
    split at he
    · exact hvalue e he
    · exact h m e he

theorem CaptureCounted.entry (h : rib.CaptureCounted) (n : Name) :
    ((rib.entries n).getD (.new n)).Counted ∧ ((rib.entries n).getD (.new n)).nCaptures < 2 ^ 64 := by
  cases he : rib.entries n with
  | none => exact ⟨RibEntry.new_counted n, Nat.two_pow_pos 64⟩
  | some e => exact ⟨h.counted n e he, h.bound n e he⟩

/-- A step keeps the counts exactly when it meets the condition. -/
theorem CaptureCounted.step (h : rib.CaptureCounted) (hstep : rib.step operation = some rib') :
    (rib'.Counted ↔ rib.KeepsCapture operation) ∧ (rib.KeepsCapture operation → rib'.CaptureCounted) := by
  cases operation with
  | insert n r =>
      obtain ⟨hcounted, hbound⟩ := h.entry n
      obtain ⟨hput, hputBound⟩ := hcounted.put_iff (r := r) hbound
      obtain ⟨hv, hextends⟩ := h.valid.insert hstep
      have hiff : rib'.Counted ↔ rib.KeepsCapture (.insert n r) := by
        refine (hextends.forall_iff fun _ _ _ => ?_).trans ((forall_update h.counted).trans ?_)
        · rw [RibEntry.counted_iff, RibEntry.counted_iff]
          rfl
        · exact ⟨fun hall => hput.mp (hall _ rfl), fun hkeeps e he => Option.some.inj he ▸ hput.mpr hkeeps⟩
      refine ⟨hiff, fun hkeeps => ⟨hv, hiff.mpr hkeeps, ?_⟩⟩
      refine (hextends.forall_iff (P := fun e => e.nCaptures < 2 ^ 64) fun _ _ _ => Iff.rfl).mpr ?_
      exact (forall_update h.bound).mpr fun e he => Option.some.inj he ▸ hputBound hkeeps
  | erase n r =>
      obtain ⟨hv, hextends⟩ := h.valid.erase hstep
      have herased : ∀ m e, rib.entriesWithout n r m = some e → e.Counted ∧ e.nCaptures < 2 ^ 64 := by
        intro m e hm
        have hold : ∀ m e, rib.entries m = some e → e.Counted ∧ e.nCaptures < 2 ^ 64 :=
          fun m e he => ⟨h.counted m e he, h.bound m e he⟩
        unfold entriesWithout at hm
        cases he₀ : rib.entries n with
        | none =>
            rw [he₀] at hm
            exact hold m e hm
        | some e₀ =>
            rw [he₀] at hm
            dsimp only at hm
            split at hm
            · exact hold m e hm
            · refine (forall_update hold).mpr (fun e he => ?_) m e hm
              split at he
              · cases he
              · cases he
                exact (hold n e₀ he₀).1.eraseRoute (hold n e₀ he₀).2
      have hcounted : rib'.Counted := (hextends.forall_iff fun _ _ _ => by
        rw [RibEntry.counted_iff, RibEntry.counted_iff]
        rfl).mpr fun m e hm => (herased m e hm).1
      refine ⟨iff_of_true hcounted trivial, fun _ => ⟨hv, hcounted, ?_⟩⟩
      exact (hextends.forall_iff (P := fun e => e.nCaptures < 2 ^ 64) fun _ _ _ => Iff.rfl).mpr
        fun m e hm => (herased m e hm).2

theorem empty_captureCounted : Rib.empty.CaptureCounted where
  valid := .empty
  counted := fun _ _ he => nomatch he
  bound := fun _ _ he => nomatch he

/-- While every route that is registered again keeps its CAPTURE flag, the counts are right; a step that breaks the
condition breaks one. -/
theorem captures_counted {rib : Rib} (hr : Reach Rib.step KeepsCapture Rib.empty rib) :
    rib.Counted ∧ ∀ operation rib', rib.step operation = some rib' → (rib'.Counted ↔ rib.KeepsCapture operation) := by
  have h : rib.CaptureCounted :=
    hr.invariant empty_captureCounted fun _ _ _ h hok hstep => (h.step hstep).2 hok
  exact ⟨h.counted, fun operation rib' hstep => (h.step hstep).1⟩

/-- A route of a face under `/A`. -/
def sampleRoute (faceId : FaceId) (flags : Nat) : Route := { faceId, origin := 0, flags, cost := 10 }

/-- One of two routes captures, and is erased. -/
theorem captures_counted_erased :
    ∃ rib, exec Rib.step Rib.empty [.insert [.ofByte 65] (sampleRoute 1 2), .insert [.ofByte 65] (sampleRoute 2 1),
        .insert [.ofByte 65] { sampleRoute 1 2 with cost := 5 }, .erase [.ofByte 65] (sampleRoute 1 2)] = some rib ∧
      (rib.entries [.ofByte 65]).isSome ∧ rib.Counted := by
  have hrun : ((exec (guarded Rib.step fun rib operation => decide (rib.KeepsCapture operation)) Rib.empty
      [.insert [.ofByte 65] (sampleRoute 1 2), .insert [.ofByte 65] (sampleRoute 2 1),
        .insert [.ofByte 65] { sampleRoute 1 2 with cost := 5 }, .erase [.ofByte 65] (sampleRoute 1 2)]).any
      fun rib => (rib.entries [.ofByte 65]).isSome) = true := by decide +kernel
  obtain ⟨rib, hrib, hsome⟩ := (Option.any_eq_true _ _).mp hrun
  have hr := (reach_of_exec_guarded Reach.start hrib).mono fun _ _ hok => of_decide_eq_true hok
  exact ⟨rib, exec_of_guarded hrib, hsome, (captures_counted hr).1⟩

/-- A route gets the CAPTURE flag when it is registered again, and is erased: the counter wraps below zero, and an
entry that captures nothing does. -/
theorem capture_count_wraps :
    ∃ rib e, exec Rib.step Rib.empty [.insert [.ofByte 65] (sampleRoute 1 0), .insert [.ofByte 65] (sampleRoute 2 0),
        .insert [.ofByte 65] (sampleRoute 1 2), .erase [.ofByte 65] (sampleRoute 1 2)] = some rib ∧
      rib.entries [.ofByte 65] = some e ∧ e.nRoutesWithCaptureSet = 2 ^ 64 - 1 ∧ e.hasCapture = true ∧
      e.nCaptures = 0 ∧ ¬ rib.Counted := by
  have hrun : ((exec Rib.step Rib.empty [.insert [.ofByte 65] (sampleRoute 1 0), .insert [.ofByte 65] (sampleRoute 2 0),
      .insert [.ofByte 65] (sampleRoute 1 2), .erase [.ofByte 65] (sampleRoute 1 2)]).any fun rib =>
        (rib.entries [.ofByte 65]).any fun e =>
          e.nRoutesWithCaptureSet == 2 ^ 64 - 1 && e.hasCapture && e.nCaptures == 0) = true := by decide +kernel
  obtain ⟨rib, hrib, hentry⟩ := (Option.any_eq_true _ _).mp hrun
  obtain ⟨e, he, hcounts⟩ := (Option.any_eq_true _ _).mp hentry
  rw [Bool.and_eq_true, Bool.and_eq_true, beq_iff_eq, beq_iff_eq] at hcounts
  obtain ⟨⟨hcounter, hcapture⟩, hnone⟩ := hcounts
  refine ⟨rib, e, hrib, he, hcounter, hcapture, hnone, fun hcounted => ?_⟩
  have hcount := (hcounted _ e he).count
  rw [hcounter, hnone] at hcount
  cases hcount

end Rib
end NfdPitless
