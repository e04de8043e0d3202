import Mathlib.Data.Set.Basic
import Mathlib.Data.Finset.Card
import Mathlib.Data.Finset.Range
import Mathlib.Data.List.Basic

/-! Accounting of answers against requests in a log. A log is covered when every answer in it can be
charged to an earlier request that it answers, no request being charged twice. The positions of
requests that may still be charged are held; an answer uses up a held position. -/

namespace NfdPitless.Answers

variable {ι : Type} {isAnswer : ι → Prop} {answers : ι → ι → Prop}

/-- Every answer of the log is charged to an earlier request of its own, and none to a held position. -/
def Covered (isAnswer : ι → Prop) (answers : ι → ι → Prop) (log : List ι) (held : Set Nat) : Prop :=
  (∀ t ∈ held, t < log.length) ∧
  ∃ charge : Nat → Nat,
    (∀ k a, log[k]? = some a → isAnswer a →
      charge k < k ∧ charge k ∉ held ∧ ∃ q, log[charge k]? = some q ∧ answers q a) ∧
    ∀ k k' a a', log[k]? = some a → isAnswer a → log[k']? = some a' → isAnswer a' →
      charge k = charge k' → k = k'

variable {log : List ι} {held held' : Set Nat} {a : ι}

theorem Covered.nil : Covered isAnswer answers [] ∅ :=
  ⟨by simp, id, by simp, by simp⟩

/-- Held positions may be given up. -/
theorem Covered.mono (h : Covered isAnswer answers log held) (hsub : held' ⊆ held) :
    Covered isAnswer answers log held' := by
  obtain ⟨hlt, charge, hcharge, hinj⟩ := h
  refine ⟨fun t ht => hlt t (hsub ht), charge, fun k a hk ha => ?_, hinj⟩
  obtain ⟨hle, hnot, hq⟩ := hcharge k a hk ha
  exact ⟨hle, fun hmem => hnot (hsub hmem), hq⟩

theorem getElem?_append_cases {k : Nat} {b : ι} (h : (log ++ [a])[k]? = some b) :
    log[k]? = some b ∨ k = log.length ∧ b = a := by
  rcases Nat.lt_or_ge k log.length with hlt | hge
  · rw [List.getElem?_append_left hlt] at h
    exact Or.inl h
  · rw [List.getElem?_append_right hge] at h
    cases hk : k - log.length with
    | zero =>
        rw [hk] at h
        exact Or.inr ⟨by omega, (Option.some.inj h).symm⟩
    | succ n =>
        rw [hk] at h
        cases h

theorem getElem?_append_of_some {k : Nat} {b : ι} (h : log[k]? = some b) (l : List ι) :
    (log ++ l)[k]? = some b := by
  obtain ⟨hlt, -⟩ := List.getElem?_eq_some_iff.mp h
  rw [List.getElem?_append_left hlt, h]

theorem lt_of_getElem? {k : Nat} {b : ι} (h : log[k]? = some b) : k < log.length :=
  (List.getElem?_eq_some_iff.mp h).1

/-- An item that is no answer may be logged, and its position may be held. -/
theorem Covered.hold (h : Covered isAnswer answers log held) (ha : ¬ isAnswer a)
    (hsub : held' ⊆ insert log.length held) : Covered isAnswer answers (log ++ [a]) held' := by
  obtain ⟨hlt, charge, hcharge, hinj⟩ := h
  have hold : ∀ {k : Nat} {b : ι}, (log ++ [a])[k]? = some b → isAnswer b → log[k]? = some b := by
    intro k b hk hb
    rcases getElem?_append_cases hk with hk | ⟨-, rfl⟩
    · exact hk
    · exact absurd hb ha
  refine ⟨?_, charge, ?_, ?_⟩
  · intro t ht
    rw [List.length_append, List.length_singleton]
    rcases hsub ht with rfl | ht
    · exact Nat.lt_succ_self _
    · exact Nat.lt_succ_of_lt (hlt t ht)
  · intro k b hk hb
    have hk' := hold hk hb
    obtain ⟨hle, hnot, q, hq, hans⟩ := hcharge k b hk' hb
    refine ⟨hle, fun hmem => ?_, q, getElem?_append_of_some hq _, hans⟩
    rcases hsub hmem with heq | hmem
    · have := lt_of_getElem? hq
      omega
    · exact hnot hmem
  · intro k k' b b' hk hb hk' hb'
    exact hinj k k' b b' (hold hk hb) hb (hold hk' hb') hb'

/-- Items that are no answers may be logged. -/
theorem Covered.append (h : Covered isAnswer answers log held) {items : List ι}
    (hitems : ∀ item ∈ items, ¬ isAnswer item) : Covered isAnswer answers (log ++ items) held := by
  induction items generalizing log with
  | nil => simpa using h
  | cons item items ih =>
      have hstep := h.hold (hitems item List.mem_cons_self) (Set.subset_insert _ _)
      have hrest := ih hstep fun x hx => hitems x (List.mem_cons_of_mem _ hx)
      simpa using hrest

/-- An answer to the request at a held position uses that position up. -/
theorem Covered.answer (h : Covered isAnswer answers log held) {t : Nat} {q : ι} (ht : t ∈ held)
    (hq : log[t]? = some q) (hans : answers q a) (hsub : held' ⊆ held) (hgone : t ∉ held') :
    Covered isAnswer answers (log ++ [a]) held' := by
  obtain ⟨hlt, charge, hcharge, hinj⟩ := h
  have hold : ∀ {k : Nat} {b : ι}, (log ++ [a])[k]? = some b → k ≠ log.length → log[k]? = some b := by
    intro k b hk hne
    rcases getElem?_append_cases hk with hk | ⟨heq, -⟩
    · exact hk
    · exact absurd heq hne
  refine ⟨?_, Function.update charge log.length t, ?_, ?_⟩
  · intro x hx
    rw [List.length_append, List.length_singleton]
    exact Nat.lt_succ_of_lt (hlt x (hsub hx))
  · intro k b hk hb
    by_cases hkl : k = log.length
    · subst hkl
      rw [Function.update_self]
      have hba : b = a := by
        rcases getElem?_append_cases hk with hk | ⟨-, rfl⟩
        · exact absurd (lt_of_getElem? hk) (lt_irrefl _)
        · rfl
      exact ⟨lt_of_getElem? hq, hgone, q, getElem?_append_of_some hq _, hba ▸ hans⟩
    · rw [Function.update_of_ne hkl]
      obtain ⟨hle, hnot, q', hq', hans'⟩ := hcharge k b (hold hk hkl) hb
      exact ⟨hle, fun hmem => hnot (hsub hmem), q', getElem?_append_of_some hq' _, hans'⟩
  · intro k k' b b' hk hb hk' hb' heq
    -- the new answer is charged to a position that was held, every old one to one that was not
    by_cases hkl : k = log.length
    · by_cases hkl' : k' = log.length
      · rw [hkl, hkl']
      · rw [hkl, Function.update_self, Function.update_of_ne hkl'] at heq
        exact absurd (heq ▸ ht) (hcharge k' b' (hold hk' hkl') hb').2.1
    · by_cases hkl' : k' = log.length
      · rw [hkl', Function.update_self, Function.update_of_ne hkl] at heq
        exact absurd (heq ▸ ht) (hcharge k b (hold hk hkl) hb).2.1
      · rw [Function.update_of_ne hkl, Function.update_of_ne hkl'] at heq
        exact hinj k k' b b' (hold hk hkl) hb (hold hk' hkl') hb' heq

theorem countP_eq_card (p : ι → Bool) (log : List ι) :
    log.countP p = ((Finset.range log.length).filter fun k => log[k]?.any p = true).card := by
  induction log using List.reverseRecOn with
  | nil => simp
  | append_singleton log a ih =>
      have hfilter : ((Finset.range log.length).filter fun k => (log ++ [a])[k]?.any p = true) =
          (Finset.range log.length).filter fun k => log[k]?.any p = true := by
        refine Finset.filter_congr fun k hk => ?_
        rw [List.getElem?_append_left (Finset.mem_range.mp hk)]
      have hlast : (log ++ [a])[log.length]? = some a := by simp
      rw [List.countP_append, List.countP_singleton, List.length_append, List.length_singleton,
        Finset.range_add_one, Finset.filter_insert, hfilter, ih, hlast]
      by_cases ha : p a = true
      · rw [if_pos ha, if_pos (by simpa using ha), Finset.card_insert_of_notMem (by simp)]
      · rw [if_neg ha, if_neg (by simpa using ha)]
        rfl

/-- The answers of one kind and any held requests of the same kind are at most the requests of that
kind. -/
theorem Covered.count_le (h : Covered isAnswer answers log held) {isReq isAns : ι → Bool}
    (hans : ∀ a, isAns a = true → isAnswer a)
    (hkind : ∀ q a, answers q a → isAns a = true → isReq q = true) {tokens : Finset Nat}
    (htokens : ∀ t ∈ tokens, t ∈ held ∧ log[t]?.any isReq = true) :
    log.countP isAns + tokens.card ≤ log.countP isReq := by
  obtain ⟨hlt, charge, hcharge, hinj⟩ := h
  have hitem : ∀ {k}, k ∈ (Finset.range log.length).filter (fun k => log[k]?.any isAns = true) →
      ∃ a, log[k]? = some a ∧ isAns a = true := by
    intro k hk
    exact (Option.any_eq_true _ _).mp (Finset.mem_filter.mp hk).2
  rw [countP_eq_card isAns, countP_eq_card isReq,
    ← Finset.card_image_of_injOn (f := charge) (by
      intro k hk k' hk' heq
      obtain ⟨a, ha, hia⟩ := hitem hk
      obtain ⟨a', ha', hia'⟩ := hitem hk'
      exact hinj k k' a a' ha (hans a hia) ha' (hans a' hia') heq),
    ← Finset.card_union_of_disjoint]
  · refine Finset.card_le_card fun t ht => ?_
    rw [Finset.mem_filter, Finset.mem_range]
    rcases Finset.mem_union.mp ht with ht | ht
    · obtain ⟨k, hk, rfl⟩ := Finset.mem_image.mp ht
      obtain ⟨a, ha, hia⟩ := hitem hk
      obtain ⟨-, -, q, hq, hqa⟩ := hcharge k a ha (hans a hia)
      exact ⟨lt_of_getElem? hq, by rw [hq]; exact hkind q a hqa hia⟩
    · exact ⟨hlt t (htokens t ht).1, (htokens t ht).2⟩
  · rw [Finset.disjoint_left]
    intro t ht htok
    obtain ⟨k, hk, rfl⟩ := Finset.mem_image.mp ht
    obtain ⟨a, ha, hia⟩ := hitem hk
    exact (hcharge k a ha (hans a hia)).2.1 (htokens _ htok).1

end NfdPitless.Answers
