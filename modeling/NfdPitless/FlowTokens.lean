import NfdPitless.Answers
import NfdPitless.ForwarderSpec

/-! Flow balance as an invariant of the tables. Every in-record stands for one received Interest that
has not been answered: it has a token, the position of that Interest in the log. While an Interest or a
Data is processed, further tokens are spare, one for each face that may still be sent a Data. -/

namespace NfdPitless.Forwarder

open Answers

variable {κ : Type} {matchesData : MatchesData} {s s' : ForwarderState κ} {r : Ref}

def IsReply : LogItem → Prop
  | .outData _ _ => True
  | _ => False

/-- A Data sent to a face answers an Interest from that face that it matches. -/
def Replies (matchesData : MatchesData) : LogItem → LogItem → Prop
  | .inInterest face interest, .outData face' data =>
      face = face' ∧ matchesData interest.name interest.selectors data = true
  | _, _ => False

/-- The faces a PIT entry has in-records of. -/
def inFaces (e : PitEntry) : List Face := e.inRecords.map InRecord.face

/-- The positions that in-records and spare tokens hold. -/
def heldBy (s : ForwarderState κ) (tok : Ref → Face → Nat) (spare : Face → Option Nat) : Set Nat :=
  { t | (∃ r e face, s.pit.entries r = some e ∧ face ∈ inFaces e ∧ tok r face = t) ∨
    ∃ face, spare face = some t }

/-- Tokens for all in-records, and spare ones for Interests that satisfy `Q`. -/
structure Tokens (matchesData : MatchesData) (Q : Interest → Prop) (spare : Face → Option Nat)
    (s : ForwarderState κ) (tok : Ref → Face → Nat) : Prop where
  covered : Covered IsReply (Replies matchesData) s.log (heldBy s tok spare)
  arrived : ∀ {r e face}, s.pit.entries r = some e → face ∈ inFaces e →
    ∃ i, s.log[tok r face]? = some (.inInterest face i) ∧ i.name = e.interest.name ∧
      i.selectors = e.interest.selectors
  distinct : ∀ {r r' e e' face}, s.pit.entries r = some e → s.pit.entries r' = some e' →
    face ∈ inFaces e → face ∈ inFaces e' → tok r face = tok r' face → r = r'
  spares : ∀ {face t}, spare face = some t → ∃ i, s.log[t]? = some (.inInterest face i) ∧ Q i
  apart : ∀ {r e face t}, s.pit.entries r = some e → face ∈ inFaces e → spare face = some t →
    tok r face ≠ t

/-- The invariant between two steps: no token is spare. -/
def FlowBalanced (matchesData : MatchesData) (s : ForwarderState κ) : Prop :=
  ∃ tok, Tokens matchesData (fun _ => True) (fun _ => none) s tok

/-- The Data sent can be charged injectively to Interests received earlier from the same face that they
match. -/
def Charged (matchesData : MatchesData) (log : List LogItem) : Prop :=
  ∃ charge : Nat → Nat,
    (∀ k face data, log[k]? = some (.outData face data) → charge k < k ∧
      ∃ interest, log[charge k]? = some (.inInterest face interest) ∧
        matchesData interest.name interest.selectors data = true) ∧
    ∀ k k' face face' data data', log[k]? = some (.outData face data) →
      log[k']? = some (.outData face' data') → charge k = charge k' → k = k'

variable {Q Q' : Interest → Prop} {spare : Face → Option Nat} {tok : Ref → Face → Nat}

theorem new_flowBalanced (nBuckets : Nat) (faceId : Face → Option Nat) (cs : κ) :
    FlowBalanced matchesData (ForwarderState.new nBuckets faceId cs) := by
  have hnone : ∀ x, (ForwarderState.new nBuckets faceId cs).pit.entries x = none := fun _ => rfl
  refine ⟨fun _ _ => 0, ⟨Covered.nil.mono ?_, ?_, ?_, ?_, ?_⟩⟩
  · rintro t (⟨r, e, face, he, -⟩ | ⟨face, hspare⟩)
    · rw [hnone] at he
      cases he
    · cases hspare
  · intro r e face he
    rw [hnone] at he
    cases he
  · intro r r' e e' face he
    rw [hnone] at he
    cases he
  · intro face t h
    cases h
  · intro r e face t he
    rw [hnone] at he
    cases he

theorem Tokens.face_unique (_ : Tokens matchesData Q spare s tok) {t : Nat} {face face' : Face}
    {i i' : Interest} (h : s.log[t]? = some (.inInterest face i))
    (h' : s.log[t]? = some (.inInterest face' i')) : face = face' := by
  rw [h] at h'
  exact (LogItem.inInterest.inj (Option.some.inj h')).1

theorem Tokens.charged (h : Tokens matchesData Q spare s tok) : Charged matchesData s.log := by
  obtain ⟨-, charge, hcharge, hinj⟩ := h.covered
  refine ⟨charge, fun k face data hk => ?_, fun k k' face face' data data' hk hk' =>
    hinj k k' _ _ hk trivial hk' trivial⟩
  obtain ⟨hlt, -, q, hq, hreply⟩ := hcharge k _ hk trivial
  cases q with
  | inInterest face' interest =>
      obtain ⟨rfl, hm⟩ := hreply
      exact ⟨hlt, interest, hq, hm⟩
  | _ => exact hreply.elim

/-! ### Rules -/

/-- Spare tokens may be given up. -/
theorem Tokens.drop (h : Tokens matchesData Q spare s tok) :
    Tokens matchesData Q' (fun _ => none) s tok where
  covered := h.covered.mono (by
    rintro t (ht | ⟨face, hnone⟩)
    · exact Or.inl ht
    · cases hnone)
  arrived := h.arrived
  distinct := h.distinct
  spares h := by cases h
  apart _ _ h := by cases h

/-- Fewer in-records, and log items that are no replies. -/
theorem Tokens.congr (h : Tokens matchesData Q spare s tok) (items : List LogItem)
    (hentries : ∀ x e' face, s'.pit.entries x = some e' → face ∈ inFaces e' →
      ∃ e, s.pit.entries x = some e ∧ face ∈ inFaces e ∧ e.interest = e'.interest)
    (hlog : s'.log = s.log ++ items) (hitems : ∀ item ∈ items, ¬ IsReply item) :
    Tokens matchesData Q spare s' tok where
  covered := by
    rw [hlog]
    refine (h.covered.mono ?_).append hitems
    rintro t (⟨x, e', face, he', hface, ht⟩ | ht)
    · obtain ⟨e, he, hface', -⟩ := hentries x e' face he' hface
      exact Or.inl ⟨x, e, face, he, hface', ht⟩
    · exact Or.inr ht
  arrived he' hface := by
    obtain ⟨e, he, hface', hint⟩ := hentries _ _ _ he' hface
    obtain ⟨i, hi, hname, hsel⟩ := h.arrived he hface'
    exact ⟨i, by rw [hlog]; exact getElem?_append_of_some hi _, hint ▸ hname, hint ▸ hsel⟩
  distinct he₁ he₂ hf₁ hf₂ := by
    obtain ⟨e, he, hf, -⟩ := hentries _ _ _ he₁ hf₁
    obtain ⟨e', he', hf', -⟩ := hentries _ _ _ he₂ hf₂
    exact h.distinct he he' hf hf'
  spares ht := by
    obtain ⟨i, hi, hq⟩ := h.spares ht
    exact ⟨i, by rw [hlog]; exact getElem?_append_of_some hi _, hq⟩
  apart he' hface := by
    obtain ⟨e, he, hf, -⟩ := hentries _ _ _ he' hface
    exact h.apart he hf

/-- A change of one entry that keeps its Interest and adds no in-record. -/
theorem Tokens.modifyEntry (h : Tokens matchesData Q spare s tok) (r : Ref) {f : PitEntry → PitEntry}
    (hint : ∀ e, (f e).interest = e.interest) (hin : ∀ e, inFaces (f e) ⊆ inFaces e) :
    Tokens matchesData Q spare (s.modifyEntry r f) tok := by
  refine h.congr [] ?_ (by simp [ForwarderState.modifyEntry]) (by simp)
  intro x e' face he' hface
  obtain ⟨e, he, ⟨-, rfl⟩ | ⟨-, rfl⟩⟩ := Pit.modifyEntry_some he'
  · exact ⟨e, he, hin e hface, (hint e).symm⟩
  · exact ⟨e', he, hface, rfl⟩

/-- A state with the same PIT entries and log. -/
theorem Tokens.same (h : Tokens matchesData Q spare s tok) (hpit : s'.pit.entries = s.pit.entries)
    (hlog : s'.log = s.log) : Tokens matchesData Q spare s' tok :=
  h.congr [] (fun x e' face he' hface => ⟨e', by rw [← hpit, he'], hface, rfl⟩)
    (by rw [hlog, List.append_nil]) (by simp)

theorem Tokens.logged (h : Tokens matchesData Q spare s tok) (item : LogItem) (hitem : ¬ IsReply item) :
    Tokens matchesData Q spare (s.logged item) tok :=
  h.congr [item] (fun _ e' _ he' hface => ⟨e', he', hface, rfl⟩) rfl
    (fun _ hx => by rw [List.mem_singleton.mp hx]; exact hitem)

theorem Tokens.acted (h : Tokens matchesData Q spare s tok) (hact : Acted r s s') :
    Tokens matchesData Q spare s' tok := by
  obtain ⟨items, hlog, hitems⟩ := hact.log_eq
  refine h.congr items ?_ hlog ?_
  · intro x e' face he' hface
    by_cases hx : x = r
    · subst hx
      cases he : s.pit.entries x with
      | none =>
          rw [hact.absent he] at he'
          cases he'
      | some e =>
          obtain ⟨e₁, he₁, hint, hin, -⟩ := hact.entry e he
          rw [he'] at he₁
          cases he₁
          rw [inFaces, hin] at hface
          exact ⟨e, rfl, hface, hint.symm⟩
    · rw [hact.other x hx] at he'
      exact ⟨e', he', hface, rfl⟩
  · intro item hitem
    obtain ⟨face, interest, rfl⟩ := hitems item hitem
    exact fun h => h

theorem Tokens.queued (h : Tokens matchesData Q spare s tok) (hq : Queued s s') :
    Tokens matchesData Q spare s' tok := by
  obtain ⟨items, hlog, hitems⟩ := hq.log_eq
  refine h.congr items (fun x e' face he' hface => ⟨e', by rw [← hq.pit_eq, he'], hface, rfl⟩) hlog ?_
  intro item hitem
  obtain ⟨k, name, nonce, rfl⟩ := hitems item hitem
  exact fun h => h

/-- An arriving Interest is a spare token for its face. -/
theorem Tokens.arrive (h : Tokens matchesData Q (fun _ => none) s tok) (face : Face) (interest : Interest) :
    Tokens matchesData (fun i => i = interest) (fun f => if f = face then some s.log.length else none)
      (s.logged (.inInterest face interest)) tok where
  covered := by
    refine h.covered.hold (fun h => h) ?_
    rintro t (⟨r, e, f, he, hf, ht⟩ | ⟨f, ht⟩)
    · exact Set.mem_insert_of_mem _ (Or.inl ⟨r, e, f, he, hf, ht⟩)
    · dsimp only at ht
      split at ht
      · cases ht
        exact Set.mem_insert _ _
      · cases ht
  arrived he hf := by
    obtain ⟨i, hi, hrest⟩ := h.arrived he hf
    exact ⟨i, getElem?_append_of_some hi _, hrest⟩
  distinct := h.distinct
  spares {f t} ht := by
    split at ht
    · rename_i heq
      cases ht
      exact ⟨interest, by simp [ForwarderState.logged, heq], rfl⟩
    · cases ht
  apart {r e f t} he hf ht := by
    split at ht
    · cases ht
      obtain ⟨i, hi, -⟩ := h.arrived he hf
      have := lt_of_getElem? hi
      omega
    · cases ht

/-- A Data may be sent to a face that has a spare token, which is then used up. -/
theorem Tokens.reply (h : Tokens matchesData Q spare s tok) {face : Face} {t : Nat} {data : Data}
    (hspare : spare face = some t)
    (hmatch : ∀ i, Q i → matchesData i.name i.selectors data = true) :
    Tokens matchesData Q (Function.update spare face none) (s.logged (.outData face data)) tok where
  covered := by
    obtain ⟨i, hi, hq⟩ := h.spares hspare
    refine h.covered.answer (t := t) (q := .inInterest face i) (Or.inr ⟨face, hspare⟩) hi
      ⟨rfl, hmatch i hq⟩ ?_ ?_
    · rintro x (hx | ⟨f, hf⟩)
      · exact Or.inl hx
      · by_cases hff : f = face
        · rw [hff, Function.update_self] at hf
          cases hf
        · rw [Function.update_of_ne hff] at hf
          exact Or.inr ⟨f, hf⟩
    · rintro (⟨r, e, f, he, hf, ht⟩ | ⟨f, hf⟩)
      · obtain ⟨i', hi', -⟩ := h.arrived he hf
        rw [ht] at hi'
        have hff := h.face_unique hi' hi
        subst hff
        exact h.apart he hf hspare ht
      · by_cases hff : f = face
        · rw [hff, Function.update_self] at hf
          cases hf
        · rw [Function.update_of_ne hff] at hf
          obtain ⟨i', hi', -⟩ := h.spares hf
          exact hff (h.face_unique hi' hi)
  arrived he hf := by
    obtain ⟨i, hi, hrest⟩ := h.arrived he hf
    exact ⟨i, getElem?_append_of_some hi _, hrest⟩
  distinct := h.distinct
  spares {f x} hx := by
    by_cases hff : f = face
    · rw [hff, Function.update_self] at hx
      cases hx
    · rw [Function.update_of_ne hff] at hx
      obtain ⟨i, hi, hq⟩ := h.spares hx
      exact ⟨i, getElem?_append_of_some hi _, hq⟩
  apart {r e f x} he hf hx := by
    by_cases hff : f = face
    · rw [hff, Function.update_self] at hx
      cases hx
    · rw [Function.update_of_ne hff] at hx
      exact h.apart he hf hx

theorem mem_inFaces_insertInRecord {e : PitEntry} {now : Nat} {face f : Face} {interest : Interest}
    (hf : f ∈ inFaces (e.insertOrUpdateInRecord now face interest)) : f = face ∨ f ∈ inFaces e := by
  obtain ⟨record, hrecord, rfl⟩ := List.mem_map.mp hf
  rcases Lists.mem_of_replaceOrCons hrecord with rfl | hold
  · exact Or.inl rfl
  · exact Or.inr (List.mem_map_of_mem hold)

/-- The spare token of an Interest becomes the token of the in-record inserted or updated for it. -/
theorem Tokens.record (h : Tokens matchesData Q spare s tok) {face : Face} {t : Nat} (now : Nat)
    (interest : Interest) {e : PitEntry} (hspare : spare face = some t)
    (hQ : ∀ i, Q i → i.name = e.interest.name ∧ i.selectors = e.interest.selectors)
    (he : s.pit.entries r = some e) :
    Tokens matchesData Q' (fun _ => none)
      (s.modifyEntry r fun e => e.insertOrUpdateInRecord now face interest)
      (fun x f => if x = r ∧ f = face then t else tok x f) := by
  obtain ⟨i, hi, hq⟩ := h.spares hspare
  -- an in-record of the new state is the one of `face` or was there before
  have hcases : ∀ {x e' f}, (s.modifyEntry r fun e => e.insertOrUpdateInRecord now face interest).pit.entries x =
      some e' → f ∈ inFaces e' →
      (x = r ∧ f = face ∧ e'.interest = e.interest) ∨
        ¬ (x = r ∧ f = face) ∧ ∃ e₀, s.pit.entries x = some e₀ ∧ f ∈ inFaces e₀ ∧ e₀.interest = e'.interest := by
    intro x e' f he' hf
    obtain ⟨e₀, he₀, ⟨hx, rfl⟩ | ⟨hx, rfl⟩⟩ := Pit.modifyEntry_some he'
    · by_cases hff : f = face
      · subst hx
        rw [he] at he₀
        cases he₀
        exact Or.inl ⟨rfl, hff, rfl⟩
      · rcases mem_inFaces_insertInRecord hf with h | h
        · exact absurd h hff
        · exact Or.inr ⟨fun hc => hff hc.2, e₀, he₀, h, rfl⟩
    · exact Or.inr ⟨fun hc => hx hc.1, _, he₀, hf, rfl⟩
  have hne : ∀ {x e₀ f}, s.pit.entries x = some e₀ → f ∈ inFaces e₀ → tok x f ≠ t := by
    intro x e₀ f he₀ hf ht
    obtain ⟨i', hi', -⟩ := h.arrived he₀ hf
    rw [ht] at hi'
    have hff := h.face_unique hi' hi
    subst hff
    exact h.apart he₀ hf hspare ht
  refine ⟨h.covered.mono ?_, ?_, ?_, ?_, ?_⟩
  · rintro x (⟨y, e', f, he', hf, hx⟩ | ⟨f, hf⟩)
    · dsimp only at hx
      rcases hcases he' hf with ⟨hy, hff, -⟩ | ⟨hno, e₀, he₀, hf₀, -⟩
      · rw [if_pos ⟨hy, hff⟩] at hx
        exact Or.inr ⟨face, hx ▸ hspare⟩
      · rw [if_neg hno] at hx
        exact Or.inl ⟨y, e₀, f, he₀, hf₀, hx⟩
    · cases hf
  · intro y e' f he' hf
    rcases hcases he' hf with ⟨hy, hff, hint⟩ | ⟨hno, e₀, he₀, hf₀, hint⟩
    · rw [if_pos ⟨hy, hff⟩, hff, hint]
      exact ⟨i, hi, hQ i hq⟩
    · rw [if_neg hno, ← hint]
      exact h.arrived he₀ hf₀
  · intro y y' e₁ e₂ f he₁ he₂ hf₁ hf₂ htok
    rcases hcases he₁ hf₁ with ⟨hy, hff, -⟩ | ⟨hno, e₀, he₀, hf₀, -⟩
    · rcases hcases he₂ hf₂ with ⟨hy', -, -⟩ | ⟨hno', e₀', he₀', hf₀', -⟩
      · rw [hy, hy']
      · rw [if_pos ⟨hy, hff⟩, if_neg hno'] at htok
        exact absurd htok.symm (hne he₀' hf₀')
    · rcases hcases he₂ hf₂ with ⟨hy', hff', -⟩ | ⟨hno', e₀', he₀', hf₀', -⟩
      · rw [if_neg hno, if_pos ⟨hy', hff'⟩] at htok
        exact absurd htok (hne he₀ hf₀)
      · rw [if_neg hno, if_neg hno'] at htok
        exact h.distinct he₀ he₀' hf₀ hf₀' htok
  · intro f x hx
    cases hx
  · intro y e' f x _ _ hx
    cases hx

/-- The spare tokens after the in-records of an entry have been taken. -/
def takeSpares (spare : Face → Option Nat) (tok : Face → Nat) (faces : List Face) (face : Face) : Option Nat :=
  match spare face with
  | some t => some t
  | none => if face ∈ faces then some (tok face) else none

/-- Deleting the in-records of an entry frees their tokens, for Interests of the entry's name and
selectors. -/
theorem Tokens.release (h : Tokens matchesData Q spare s tok) {e : PitEntry} {f : PitEntry → PitEntry}
    (he : s.pit.entries r = some e)
    (hQ : ∀ i, i.name = e.interest.name → i.selectors = e.interest.selectors → Q i)
    (hdel : ∀ e, inFaces (f e) = []) :
    Tokens matchesData Q (takeSpares spare (tok r) (inFaces e)) (s.modifyEntry r f) tok := by
  have hother : ∀ {x e' face}, (s.modifyEntry r f).pit.entries x = some e' → face ∈ inFaces e' →
      x ≠ r ∧ s.pit.entries x = some e' := by
    intro x e' face he' hface
    obtain ⟨e₀, he₀, ⟨-, rfl⟩ | ⟨hx, rfl⟩⟩ := Pit.modifyEntry_some he'
    · rw [hdel] at hface
      cases hface
    · exact ⟨hx, he₀⟩
  have htaken : ∀ {face t}, takeSpares spare (tok r) (inFaces e) face = some t →
      spare face = some t ∨ face ∈ inFaces e ∧ tok r face = t := by
    intro face t ht
    rw [takeSpares] at ht
    split at ht
    · rename_i hs
      exact Or.inl (hs.trans ht)
    · split at ht
      · exact Or.inr ⟨‹_›, Option.some.inj ht⟩
      · cases ht
  refine ⟨h.covered.mono ?_, ?_, ?_, ?_, ?_⟩
  · rintro t (⟨x, e', face, he', hface, ht⟩ | ⟨face, hface⟩)
    · exact Or.inl ⟨x, e', face, (hother he' hface).2, hface, ht⟩
    · rcases htaken hface with hs | ⟨hf, ht⟩
      · exact Or.inr ⟨face, hs⟩
      · exact Or.inl ⟨r, e, face, he, hf, ht⟩
  · intro x e' face he' hface
    exact h.arrived (hother he' hface).2 hface
  · intro x x' e₁ e₂ face he₁ he₂ hf₁ hf₂
    exact h.distinct (hother he₁ hf₁).2 (hother he₂ hf₂).2 hf₁ hf₂
  · intro face t ht
    rcases htaken ht with hs | ⟨hf, ht⟩
    · exact h.spares hs
    · obtain ⟨i, hi, hname, hsel⟩ := h.arrived he hf
      exact ⟨i, ht ▸ hi, hQ i hname hsel⟩
  · intro x e' face t he' hface ht hx
    obtain ⟨hxr, he₀⟩ := hother he' hface
    rcases htaken ht with hs | ⟨hf, ht⟩
    · exact h.apart he₀ hface hs hx
    · exact hxr (h.distinct he₀ he hface hf (hx.trans ht.symm))

/-- The set of spare tokens covers a list of faces. -/
def HasSpares (spare : Face → Option Nat) (faces : List Face) : Prop := ∀ face ∈ faces, (spare face).isSome

theorem takeSpares_isSome {tok : Face → Nat} {faces : List Face} {face : Face}
    (h : (spare face).isSome ∨ face ∈ faces) : (takeSpares spare tok faces face).isSome := by
  rw [takeSpares]
  cases hs : spare face with
  | some t => rfl
  | none =>
      rcases h with h | h
      · rw [hs] at h
        cases h
      · simp [h]

theorem mem_insertFace {faces : List Face} {face f : Face} : f ∈ insertFace faces face ↔ f = face ∨ f ∈ faces := by
  unfold insertFace
  split
  · rename_i hmem
    constructor
    · exact Or.inr
    · rintro (rfl | h)
      · exact hmem
      · exact h
  · exact List.mem_orderedInsert _

theorem insertFace_nodup {faces : List Face} (h : faces.Nodup) (face : Face) : (insertFace faces face).Nodup := by
  unfold insertFace
  split
  · exact h
  · rename_i hnot
    exact (List.perm_orderedInsert _ face faces).nodup_iff.mpr (List.nodup_cons.mpr ⟨hnot, h⟩)

theorem mem_foldl_insertFace {new faces : List Face} {f : Face} :
    f ∈ new.foldl insertFace faces ↔ f ∈ new ∨ f ∈ faces := by
  induction new generalizing faces with
  | nil => simp
  | cons x new ih =>
      rw [List.foldl_cons, ih, mem_insertFace, List.mem_cons]
      exact ⟨fun h => by rcases h with h | h | h <;> simp [h], fun h => by rcases h with (h | h) | h <;> simp [h]⟩

theorem foldl_insertFace_nodup {new : List Face} :
    ∀ {faces : List Face}, faces.Nodup → (new.foldl insertFace faces).Nodup := by
  induction new with
  | nil => exact fun h => h
  | cons x new ih => exact fun h => ih (insertFace_nodup h x)

/-- Sending to faces that all have spare tokens. -/
theorem Tokens.sendAll (P : Platform κ) (data : Data) (faces : List Face) :
    ∀ {s : ForwarderState κ} {spare : Face → Option Nat}, faces.Nodup → HasSpares spare faces →
      (∀ i, Q i → matchesData i.name i.selectors data = true) → Tokens matchesData Q spare s tok →
      ∃ spare', Tokens matchesData Q spare'
        (faces.foldl (fun s face => onOutgoingData P s data face) s) tok := by
  induction faces with
  | nil => exact fun _ _ _ h => ⟨_, h⟩
  | cons face faces ih =>
      intro s spare hnodup hspares hmatch h
      obtain ⟨hface, hrest⟩ := List.nodup_cons.mp hnodup
      rw [List.foldl_cons]
      have hkeep : HasSpares spare faces := fun f hf => hspares f (List.mem_cons_of_mem _ hf)
      unfold onOutgoingData
      split
      · exact ih hrest hkeep hmatch h
      · split
        · exact ih hrest hkeep hmatch h
        · obtain ⟨t, ht⟩ := Option.isSome_iff_exists.mp (hspares face List.mem_cons_self)
          refine ih hrest (fun f hf => ?_) hmatch (h.reply ht hmatch)
          have hne : f ≠ face := fun heq => hface (heq ▸ hf)
          rw [Function.update_of_ne hne]
          exact hkeep f hf

end NfdPitless.Forwarder
