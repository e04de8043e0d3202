import NfdPitless.ForwarderSpec
import NfdPitless.PitMatch

/-! Loop suppression in the base forwarder. The Nonce of an Interest that was sent is in the out-record
of its face until a Data of that face satisfies the PIT entry, and when the entry is finalized
unsatisfied it is queued in the Dead Nonce List. The one exception is a later send to the same face,
which overwrites the out-record: a different Nonce then takes the place of the first one, which is
remembered nowhere. -/

namespace NfdPitless.Forwarder

variable {κ : Type} {P : Platform κ} {s s' : ForwarderState κ} {r : Ref}

/-- The in-records of an entry are for its Interest, and each face has one out-record. -/
structure Recorded (e : PitEntry) : Prop where
  inRecords : ∀ record ∈ e.inRecords, record.interest.name = e.interest.name ∧
    record.interest.selectors = e.interest.selectors
  outRecords : (e.outRecords.map OutRecord.face).Nodup

/-- The PIT entry `r` is for the Interest sent and has its Nonce in the out-record of `face`. -/
def Held (s : ForwarderState κ) (r : Ref) (face : Face) (interest : Interest) : Prop :=
  ∃ e, s.pit.entries r = some e ∧ e.interest.name = interest.name ∧
    e.interest.selectors = interest.selectors ∧
    ∃ o ∈ e.outRecords, o.face = face ∧ o.lastNonce = interest.nonce

/-- In the log items given, the PIT entry `r` was finalized unsatisfied and the Nonce was queued, and it
is in the Dead Nonce List unless evicted. -/
def Dead (P : Platform κ) (s : ForwarderState κ) (r : Ref) (interest : Interest) (items : List LogItem) : Prop :=
  LogItem.finalized r false ∈ items ∧ ∃ k, LogItem.deadNonce k interest.name interest.nonce ∈ items ∧
    k < s.deadNonceList.nextIndex ∧
    (s.deadNonceList.nEvicted ≤ k →
      s.deadNonceList.entryAt k = some (P.makeEntry interest.name interest.nonce))

/-- After an Interest was sent and the log items given, its Nonce is in the PIT entry or, once that is
gone, in the Dead Nonce List, unless the entry was finalized satisfied. -/
def Kept (P : Platform κ) (s : ForwarderState κ) (r : Ref) (face : Face) (interest : Interest)
    (items : List LogItem) : Prop :=
  Held s r face interest ∨ Dead P s r interest items ∨ LogItem.finalized r true ∈ items

structure Remembers (P : Platform κ) (s : ForwarderState κ) : Prop where
  linked : s.pit.Linked
  recorded : ∀ {r e}, s.pit.entries r = some e → Recorded e
  gone : ∀ {r isSatisfied}, LogItem.finalized r isSatisfied ∈ s.log →
    s.pit.entries r = none ∧ r < s.pit.nextRef
  once : ∀ {r a b}, LogItem.finalized r a ∈ s.log → LogItem.finalized r b ∈ s.log → a = b
  sends : ∀ {l₁ l₂ r face interest}, s.log = l₁ ++ .outInterest r face interest :: l₂ →
    LogItem.satisfied r face ∉ l₂ → (∀ i, LogItem.outInterest r face i ∈ l₂ → i.nonce = interest.nonce) →
    Kept P s r face interest l₂

theorem Dead.mono {interest : Interest} {items items' : List LogItem} (h : Dead P s r interest items)
    (hlater : DeadNonceList.Later s.deadNonceList s'.deadNonceList) (hsub : items ⊆ items') :
    Dead P s' r interest items' := by
  obtain ⟨hfin, k, hk, hlt, hentry⟩ := h
  refine ⟨hsub hfin, k, hsub hk, hlt.trans_le hlater.nextIndex_le, fun hev => ?_⟩
  rw [hlater.entryAt_eq hlt hev]
  exact hentry (hlater.nEvicted_le.trans hev)

/-- What happened to a PIT entry that is gone stays so. -/
theorem Kept.mono {face : Face} {interest : Interest} {items items' : List LogItem}
    (h : Kept P s r face interest items) (hlater : DeadNonceList.Later s.deadNonceList s'.deadNonceList)
    (hsub : items ⊆ items') (hheld : Held s r face interest → Kept P s' r face interest items') :
    Kept P s' r face interest items' := by
  rcases h with hh | hd | hs
  · exact hheld hh
  · exact Or.inr (Or.inl (hd.mono hlater hsub))
  · exact Or.inr (Or.inr (hsub hs))

/-- An item of a log that was appended to is in the old part or among the new items. -/
theorem append_eq_cases {ι : Type} {log items l₁ l₂ : List ι} {x : ι} (h : log ++ items = l₁ ++ x :: l₂) :
    (∃ l, log = l₁ ++ x :: l ∧ l₂ = l ++ items) ∨ ∃ l, l₁ = log ++ l ∧ items = l ++ x :: l₂ := by
  rcases List.append_eq_append_iff.mp h with ⟨l, hl₁, hitems⟩ | ⟨l, hlog, hx⟩
  · exact Or.inr ⟨l, hl₁, hitems⟩
  · cases l with
    | nil => exact Or.inr ⟨[], by simpa using hlog.symm, hx.symm⟩
    | cons y l =>
        rw [List.cons_append, List.cons.injEq] at hx
        obtain ⟨rfl, rfl⟩ := hx
        exact Or.inl ⟨l, hlog, rfl⟩

/-- The rule for every change that sends nothing. -/
theorem Remembers.frame (h : Remembers P s) (items : List LogItem) (hlinked : s'.pit.Linked)
    (hrecorded : ∀ {r e}, s'.pit.entries r = some e → Recorded e)
    (hlog : s'.log = s.log ++ items) (hno : ∀ r face interest, LogItem.outInterest r face interest ∉ items)
    (hfin : ∀ r b, LogItem.finalized r b ∈ items → s.pit.entries r ≠ none ∧
      s'.pit.entries r = none ∧ r < s'.pit.nextRef ∧ ∀ a, LogItem.finalized r a ∈ items → a = b)
    (hgone : ∀ r, s.pit.entries r = none → r < s.pit.nextRef → s'.pit.entries r = none)
    (hnext : s.pit.nextRef ≤ s'.pit.nextRef)
    (hlater : DeadNonceList.Later s.deadNonceList s'.deadNonceList)
    (hheld : ∀ r face interest, Held s r face interest → LogItem.satisfied r face ∉ items →
      Kept P s' r face interest items) : Remembers P s' where
  linked := hlinked
  recorded := hrecorded
  gone {r b} hmem := by
    rw [hlog] at hmem
    rcases List.mem_append.mp hmem with hold | hnew
    · obtain ⟨hnone, hlt⟩ := h.gone hold
      exact ⟨hgone r hnone hlt, hlt.trans_le hnext⟩
    · obtain ⟨-, hnone, hlt, -⟩ := hfin r b hnew
      exact ⟨hnone, hlt⟩
  once {r a b} ha hb := by
    rw [hlog] at ha hb
    rcases List.mem_append.mp ha with ha | ha
    · rcases List.mem_append.mp hb with hb | hb
      · exact h.once ha hb
      · exact absurd (h.gone ha).1 (hfin r b hb).1
    · rcases List.mem_append.mp hb with hb | hb
      · exact absurd (h.gone hb).1 (hfin r a ha).1
      · exact (hfin r b hb).2.2.2 a ha
  sends {l₁ l₂ r face interest} hsplit hsat hkept := by
    rw [hlog] at hsplit
    rcases append_eq_cases hsplit with ⟨l, hold, rfl⟩ | ⟨l, -, hnew⟩
    · have hsub : l ⊆ l ++ items := List.subset_append_left l items
      refine (h.sends hold (fun hmem => hsat (hsub hmem)) (fun i hi => hkept i (hsub hi))).mono hlater hsub fun hh => ?_
      exact (hheld r face interest hh fun hmem => hsat (List.mem_append_right l hmem)).mono
        (DeadNonceList.Later.refl _) (List.subset_append_right l items) Or.inl
    · exact absurd (hnew ▸ List.mem_append_right l List.mem_cons_self) (hno r face interest)

/-- Nothing but the clock, the faces, the content store and the Dead Nonce List changes, and items
without meaning for the Nonces are logged. -/
theorem Remembers.same (h : Remembers P s) (items : List LogItem) (hpit : s'.pit = s.pit)
    (hlog : s'.log = s.log ++ items)
    (hitems : ∀ item ∈ items, (∃ face i, item = .inInterest face i) ∨ (∃ face d, item = .inData face d) ∨
      (∃ face d, item = .outData face d) ∨ ∃ k name nonce, item = .deadNonce k name nonce)
    (hlater : DeadNonceList.Later s.deadNonceList s'.deadNonceList) : Remembers P s' := by
  have hnot : ∀ item ∈ items, (∀ r face i, item ≠ .outInterest r face i) ∧ ∀ r b, item ≠ .finalized r b := by
    intro item hitem
    rcases hitems item hitem with ⟨_, _, rfl⟩ | ⟨_, _, rfl⟩ | ⟨_, _, rfl⟩ | ⟨_, _, _, rfl⟩ <;>
      exact ⟨fun _ _ _ heq => (by cases heq), fun _ _ heq => by cases heq⟩
  refine h.frame items (hpit ▸ h.linked) (fun he => h.recorded (hpit ▸ he)) hlog
    (fun r face i hmem => (hnot _ hmem).1 r face i rfl) (fun r b hmem => absurd rfl ((hnot _ hmem).2 r b))
    (fun r hnone _ => hpit ▸ hnone) (by rw [hpit]) hlater ?_
  rintro r face i ⟨e, he, hrest⟩ _
  exact Or.inl ⟨e, hpit ▸ he, hrest⟩

/-- A change of one entry that keeps its out-records. -/
theorem Remembers.modifyEntry (h : Remembers P s) {f : PitEntry → PitEntry}
    (hnt : ∀ e, (f e).nameTreeEntry = e.nameTreeEntry) (hint : ∀ e, (f e).interest = e.interest)
    (hout : ∀ e, (f e).outRecords = e.outRecords)
    (hrec : ∀ e, s.pit.entries r = some e → Recorded (f e)) : Remembers P (s.modifyEntry r f) := by
  refine h.frame [] (h.linked.modifyEntry r hnt) ?_ (by simp [ForwarderState.modifyEntry]) (by simp)
    (by simp) ?_ le_rfl (DeadNonceList.Later.refl _) ?_
  · intro x e' he'
    obtain ⟨e, he, ⟨hx, rfl⟩ | ⟨-, rfl⟩⟩ := Pit.modifyEntry_some he'
    · subst hx
      exact hrec e he
    · exact h.recorded he
  · intro x hnone _
    rw [entries_modify]
    split
    · rename_i hx
      subst hx
      rw [hnone]
      rfl
    · exact hnone
  · rintro x face i ⟨e, he, hname, hsel, o, ho, hface, hnonce⟩ _
    refine Or.inl ?_
    by_cases hx : x = r
    · subst hx
      refine ⟨f e, ?_, by rw [hint, hname], by rw [hint, hsel], o, by rw [hout]; exact ho, hface, hnonce⟩
      rw [entries_modify, if_pos rfl, he]
      rfl
    · exact ⟨e, by rw [entries_modify, if_neg hx, he], hname, hsel, o, ho, hface, hnonce⟩

theorem Remembers.cancel (h : Remembers P s) (r : Ref) :
    Remembers P (cancelUnsatisfyAndStragglerTimer s r) :=
  h.modifyEntry (fun _ => rfl) (fun _ => rfl) (fun _ => rfl) fun _ he =>
    ⟨(h.recorded he).inRecords, (h.recorded he).outRecords⟩

theorem Remembers.setUnsatisfy (h : Remembers P s) (r : Ref) : Remembers P (setUnsatisfyTimer s r) :=
  h.modifyEntry (fun _ => rfl) (fun _ => rfl) (fun _ => rfl) fun _ he =>
    ⟨(h.recorded he).inRecords, (h.recorded he).outRecords⟩

theorem Remembers.setStraggler (h : Remembers P s) (r : Ref) (isSatisfied : Bool) (period : Int) :
    Remembers P (setStragglerTimer s r isSatisfied period) :=
  h.modifyEntry (fun _ => rfl) (fun _ => rfl) (fun _ => rfl) fun _ he =>
    ⟨(h.recorded he).inRecords, (h.recorded he).outRecords⟩

theorem Recorded.mem_sent_iff {e : PitEntry} (h : Recorded e) {now : Nat} {outFace : Face} {interest : Interest}
    {o : OutRecord} : o ∈ (e.insertOrUpdateOutRecord now outFace interest).outRecords ↔
      o = OutRecord.update now outFace interest ∨ o ∈ e.outRecords ∧ o.face ≠ outFace :=
  Lists.mem_replaceOrCons OutRecord.face h.outRecords

/-- The out-record of a Nonce stays unless it is the one of `outFace` with a different Nonce. -/
theorem Held.send {x : Ref} {face outFace : Face} {i interest : Interest} {e : PitEntry} (h : Held s x face i)
    (he : s.pit.entries r = some e) (hrec : Recorded e) (hsend : x = r → face = outFace → interest.nonce = i.nonce) :
    Held ((s.modifyEntry r fun e => e.insertOrUpdateOutRecord s.now outFace interest).logged
      (.outInterest r outFace interest)) x face i := by
  obtain ⟨e₀, he₀, hn₀, hs₀, o, ho, hface, hnonce⟩ := h
  by_cases hx : x = r
  · subst hx
    rw [he] at he₀
    cases he₀
    refine ⟨e.insertOrUpdateOutRecord s.now outFace interest, ?_, hn₀, hs₀, ?_⟩
    · rw [ForwarderState.logged, entries_modify, if_pos rfl, he]
      rfl
    · by_cases hf : face = outFace
      · exact ⟨_, hrec.mem_sent_iff.mpr (Or.inl rfl), hf.symm, hsend rfl hf⟩
      · exact ⟨o, hrec.mem_sent_iff.mpr (Or.inr ⟨ho, hface ▸ hf⟩), hface, hnonce⟩
  · refine ⟨e₀, ?_, hn₀, hs₀, o, ho, hface, hnonce⟩
    rw [ForwarderState.logged, entries_modify, if_neg hx]
    exact he₀

/-- Sending an Interest puts its Nonce in the out-record of the face. -/
theorem Remembers.send (h : Remembers P s) {outFace : Face} {newNonce : Option UInt32}
    (hstep : onOutgoingInterest P s r outFace newNonce = some s') : Remembers P s' := by
  rcases onOutgoingInterest_cases hstep with rfl | ⟨e, interest, he, hpick, rfl⟩
  · exact h
  have hrec := h.recorded he
  obtain ⟨record, hrecord, hsame⟩ : ∃ record ∈ e.inRecords, interest.name = record.interest.name ∧
      interest.selectors = record.interest.selectors := by
    obtain ⟨record, hmax, rfl⟩ := Option.map_eq_some_iff.mp hpick
    refine ⟨record, Lists.mem_of_maxElement hmax, ?_⟩
    cases newNonce <;> exact ⟨rfl, rfl⟩
  have hname : e.interest.name = interest.name := by rw [hsame.1, (hrec.inRecords record hrecord).1]
  have hsel : e.interest.selectors = interest.selectors := by rw [hsame.2, (hrec.inRecords record hrecord).2]
  have hentry : (s.modifyEntry r fun e => e.insertOrUpdateOutRecord s.now outFace interest).pit.entries r =
      some (e.insertOrUpdateOutRecord s.now outFace interest) := by
    rw [entries_modify, if_pos rfl, he]
    rfl
  have hother : ∀ x, x ≠ r → (s.modifyEntry r fun e =>
      e.insertOrUpdateOutRecord s.now outFace interest).pit.entries x = s.pit.entries x := by
    intro x hx
    rw [entries_modify, if_neg hx]
  have hfinalized : ∀ {x b}, LogItem.finalized x b ∈ s.log ++ [.outInterest r outFace interest] →
      LogItem.finalized x b ∈ s.log := by
    intro x b hmemlog
    rcases List.mem_append.mp hmemlog with hold | hnew
    · exact hold
    · cases List.mem_singleton.mp hnew
  refine ⟨h.linked.modifyEntry r fun _ => rfl, ?_, ?_, fun ha hb => h.once (hfinalized ha) (hfinalized hb), ?_⟩
  · intro x e' he'
    by_cases hx : x = r
    · subst hx
      have heq : some (e.insertOrUpdateOutRecord s.now outFace interest) = some e' := hentry.symm.trans he'
      cases heq
      exact ⟨hrec.inRecords, Lists.nodup_replaceOrCons OutRecord.face hrec.outRecords⟩
    · exact h.recorded ((hother x hx).symm.trans he')
  · intro x b hmemlog
    obtain ⟨hnone, hlt⟩ := h.gone (hfinalized hmemlog)
    have hx : x ≠ r := by
      rintro rfl
      rw [he] at hnone
      cases hnone
    exact ⟨(hother x hx).trans hnone, hlt⟩
  · intro l₁ l₂ x face i hsplit hsat hkept
    rcases append_eq_cases hsplit with ⟨l, hold, rfl⟩ | ⟨l, -, hnew⟩
    · have hsub : l ⊆ l ++ [LogItem.outInterest r outFace interest] := List.subset_append_left _ _
      refine (h.sends hold (fun hm => hsat (hsub hm)) fun j hj => hkept j (hsub hj)).mono
        (DeadNonceList.Later.refl _) hsub fun hh => Or.inl (hh.send he hrec fun hx hf => ?_)
      subst hx
      subst hf
      exact hkept interest (List.mem_append_right l (List.mem_singleton_self _))
    · cases l with
      | cons y l =>
          have hlen := congrArg List.length hnew
          simp at hlen
      | nil =>
          rw [List.nil_append, List.cons.injEq] at hnew
          obtain ⟨heq, -⟩ := hnew
          cases heq
          exact Or.inl ⟨_, hentry, hname, hsel, _, hrec.mem_sent_iff.mpr (Or.inl rfl), rfl, rfl⟩

theorem Remembers.act (h : Remembers P s) {action : StrategyAction} (hstep : act P r s action = some s') :
    Remembers P s' := by
  cases action with
  | sendInterest outFace newNonce => exact h.send hstep
  | rejectPendingInterest =>
      rcases onInterestReject_cases hstep with rfl | rfl
      · exact h
      · exact (h.cancel r).setStraggler r false (-1)

theorem Remembers.dispatch {actions : List StrategyAction} :
    ∀ {s : ForwarderState κ}, Remembers P s → dispatchToStrategy P s r actions = some s' → Remembers P s' := by
  induction actions with
  | nil =>
      intro s h hrun
      cases hrun
      exact h
  | cons action actions ih =>
      intro s h hrun
      rw [dispatchToStrategy, List.foldlM_cons] at hrun
      obtain ⟨s₁, hs₁, hrest⟩ := Option.bind_eq_some_iff.mp hrun
      exact ih (h.act hs₁) hrest

theorem Remembers.queued (h : Remembers P s) (hq : Queued s s') : Remembers P s' := by
  obtain ⟨items, hlog, hitems⟩ := hq.log_eq
  exact h.same items hq.pit_eq hlog (fun item hitem => Or.inr (Or.inr (Or.inr (hitems item hitem)))) hq.later

/-- Every Nonce of a list of out-records is queued. -/
theorem foldl_insertNonceToDnl_queues (name : Name) (records : List OutRecord) :
    ∀ (s : ForwarderState κ), ∃ items, (records.foldl (insertNonceToDnl P name) s).log = s.log ++ items ∧
      ∀ o ∈ records, ∃ k, LogItem.deadNonce k name o.lastNonce ∈ items ∧
        k < (records.foldl (insertNonceToDnl P name) s).deadNonceList.nextIndex ∧
        ((records.foldl (insertNonceToDnl P name) s).deadNonceList.nEvicted ≤ k →
          (records.foldl (insertNonceToDnl P name) s).deadNonceList.entryAt k =
            some (P.makeEntry name o.lastNonce)) := by
  induction records with
  | nil => exact fun s => ⟨[], by simp, by simp⟩
  | cons record records ih =>
      intro s
      obtain ⟨items, hlog, hall⟩ := ih (insertNonceToDnl P name s record)
      have hlater := (foldl_insertNonceToDnl_queued (P := P) name records (insertNonceToDnl P name s record)).later
      have hadd : (insertNonceToDnl P name s record).deadNonceList =
          s.deadNonceList.add P.makeEntry name record.lastNonce := rfl
      refine ⟨.deadNonce s.deadNonceList.nextIndex name record.lastNonce :: items, ?_, ?_⟩
      · rw [List.foldl_cons, hlog]
        simp [insertNonceToDnl]
      · intro o ho
        rw [List.foldl_cons]
        rcases List.mem_cons.mp ho with rfl | ho
        · have hlt : s.deadNonceList.nextIndex < (insertNonceToDnl P name s o).deadNonceList.nextIndex := by
            rw [hadd]
            have := DeadNonceList.add_nextIndex P.makeEntry s.deadNonceList name o.lastNonce
            omega
          refine ⟨_, List.mem_cons_self, hlt.trans_le hlater.nextIndex_le, fun hev => ?_⟩
          rw [hlater.entryAt_eq hlt hev, hadd]
          exact DeadNonceList.add_entryAt _ _ _ (hadd ▸ hlater.nEvicted_le.trans hev)
        · obtain ⟨k, hk, hrest⟩ := hall o ho
          exact ⟨k, List.mem_cons_of_mem _ hk, hrest⟩

/-- So are those of an entry that is not satisfied. -/
theorem insertDeadNonceList_queues {e : PitEntry} (he : s.pit.entries r = some e) {period : Int} {items : List LogItem}
    (hitems : (insertDeadNonceList P s r false period none).log = s.log ++ items) {o : OutRecord}
    (ho : o ∈ e.outRecords) : ∃ k, LogItem.deadNonce k e.getName o.lastNonce ∈ items ∧
      k < (insertDeadNonceList P s r false period none).deadNonceList.nextIndex ∧
      ((insertDeadNonceList P s r false period none).deadNonceList.nEvicted ≤ k →
        (insertDeadNonceList P s r false period none).deadNonceList.entryAt k =
          some (P.makeEntry e.getName o.lastNonce)) := by
  have hrun : insertDeadNonceList P s r false period none =
      e.outRecords.foldl (insertNonceToDnl P e.getName) s := by
    simp [insertDeadNonceList, he, needDnl]
  obtain ⟨items', hitems', hall⟩ := foldl_insertNonceToDnl_queues (P := P) e.getName e.outRecords s
  rw [hrun] at hitems ⊢
  obtain rfl : items = items' := List.append_cancel_left (hitems.symm.trans hitems')
  exact hall o ho

/-- When an entry is finalized unsatisfied, its Nonces are queued. -/
theorem Remembers.finalize (h : Remembers P s) {isSatisfied : Bool} {period : Int}
    (hstep : onInterestFinalize P s r isSatisfied period = some s') : Remembers P s' := by
  have hq := insertDeadNonceList_queued (P := P) s r isSatisfied period none
  cases he : s.pit.entries r with
  | none =>
      rw [onInterestFinalize_absent he] at hstep
      cases hstep
  | some e =>
      obtain ⟨s₁, s₂, hrun, rfl, hlinked, hentries, hnext, -, -, -, hdnl, hlog⟩ :=
        onInterestFinalize_spec (P := P) h.linked he isSatisfied period
      rw [hstep] at hrun
      cases hrun
      obtain ⟨items, hitems, hdead⟩ := hq.log_eq
      rw [hitems, List.append_assoc] at hlog
      have hsub : ∀ {x e'}, s'.pit.entries x = some e' → x ≠ r ∧ s.pit.entries x = some e' := by
        intro x e' he'
        rw [hentries] at he'
        by_cases hx : x = r
        · rw [hx, Function.update_self] at he'
          cases he'
        · exact ⟨hx, by rwa [Function.update_of_ne hx] at he'⟩
      refine h.frame _ hlinked (fun he' => h.recorded (hsub he').2) hlog ?_ ?_ ?_ hnext.ge (hdnl ▸ hq.later) ?_
      · intro x face i hmem
        rcases List.mem_append.mp hmem with hm | hm
        · obtain ⟨k, name, nonce, heq⟩ := hdead _ hm
          cases heq
        · cases List.mem_singleton.mp hm
      · intro x b hmem
        rcases List.mem_append.mp hmem with hm | hm
        · obtain ⟨k, name, nonce, heq⟩ := hdead _ hm
          cases heq
        · cases List.mem_singleton.mp hm
          rw [hentries, hnext, he]
          refine ⟨Option.some_ne_none e, Function.update_self _ _ _, h.linked.fresh he, fun a ha => ?_⟩
          rcases List.mem_append.mp ha with ha | ha
          · obtain ⟨k, name, nonce, heq⟩ := hdead _ ha
            cases heq
          · cases List.mem_singleton.mp ha
            rfl
      · intro x hnone _
        rw [hentries]
        by_cases hx : x = r
        · rw [hx, Function.update_self]
        · rw [Function.update_of_ne hx, hnone]
      · rintro x face i ⟨e₀, he₀, hname, hsel, o, ho, hface, hnonce⟩ _
        by_cases hx : x = r
        · subst hx
          rw [he] at he₀
          cases he₀
          cases isSatisfied with
          | true => exact Or.inr (Or.inr (List.mem_append_right _ (List.mem_singleton_self _)))
          | false =>
              obtain ⟨k, hk, hlt, hentry⟩ := insertDeadNonceList_queues he hitems ho
              rw [hnonce, show e.getName = i.name from hname] at hk hentry
              refine Or.inr (Or.inl ⟨List.mem_append_right _ (List.mem_singleton_self _), k,
                List.mem_append_left _ hk, ?_, ?_⟩)
              · rw [hdnl]
                exact hlt
              · rw [hdnl]
                exact hentry
        · refine Or.inl ⟨e₀, ?_, hname, hsel, o, ho, hface, hnonce⟩
          rw [hentries, Function.update_of_ne hx, he₀]

/-! ### The steps -/

/-- A Data that satisfies an entry ends what has to be remembered for the face it came from. -/
theorem Remembers.markSatisfied (h : Remembers P s) (r : Ref) (inFace : Face) :
    Remembers P (markSatisfied s r inFace) := by
  have hentries : ∀ x, (Forwarder.markSatisfied s r inFace).pit.entries x =
      if x = r then (s.pit.entries r).map fun e => e.deleteInRecords.deleteOutRecord inFace
      else s.pit.entries x := fun x => entries_modify s r _ x
  refine h.frame [.satisfied r inFace] (linked_markSatisfied h.linked r inFace) ?_ rfl (by simp) (by simp) ?_
    le_rfl (DeadNonceList.Later.refl _) ?_
  · intro x e' he'
    rw [hentries] at he'
    split at he'
    · obtain ⟨e, he, rfl⟩ := Option.map_eq_some_iff.mp he'
      refine ⟨by simp [PitEntry.deleteInRecords, PitEntry.deleteOutRecord], ?_⟩
      exact (h.recorded he).outRecords.sublist (List.eraseP_sublist.map _)
    · exact h.recorded he'
  · intro x hnone _
    rw [hentries]
    split
    · rename_i hx
      subst hx
      rw [hnone]
      rfl
    · exact hnone
  · rintro x face i ⟨e, he, hname, hsel, o, ho, hface, hnonce⟩ hnot
    refine Or.inl ?_
    by_cases hx : x = r
    · subst hx
      have hne : face ≠ inFace := by
        rintro rfl
        exact hnot (List.mem_singleton_self _)
      refine ⟨e.deleteInRecords.deleteOutRecord inFace, by rw [hentries, if_pos rfl, he]; rfl, hname, hsel, o,
        ?_, hface, hnonce⟩
      exact (List.mem_eraseP_of_neg (by simpa [hface] using hne)).mpr ho
    · exact ⟨e, by rw [hentries, if_neg hx, he], hname, hsel, o, ho, hface, hnonce⟩

theorem Remembers.satisfyEntry (h : Remembers P s) {inFace : Face} {data : Data}
    {actions : Ref → List StrategyAction} (hstep : satisfyEntry P inFace data actions s r = some s') :
    Remembers P s' := by
  obtain ⟨s₁, hdisp, rfl⟩ := Option.map_eq_some_iff.mp hstep
  have hmark := (((h.cancel r).dispatch hdisp).queued
    (insertDeadNonceList_queued (P := P) s₁ r true data.freshnessPeriod (some inFace))).markSatisfied r inFace
  exact hmark.setStraggler r true data.freshnessPeriod

theorem sendToDownstreams_log (inFace : Face) (data : Data) (faces : List Face) (s : ForwarderState κ) :
    (sendToDownstreams P inFace data faces s).deadNonceList = s.deadNonceList ∧
    ∃ items, (sendToDownstreams P inFace data faces s).log = s.log ++ items ∧
      ∀ item ∈ items, ∃ face, item = .outData face data := by
  unfold sendToDownstreams
  generalize faces.filter (fun face => face != inFace) = l
  induction l generalizing s with
  | nil => exact ⟨rfl, [], by simp, by simp⟩
  | cons face l ih =>
      rw [List.foldl_cons]
      obtain ⟨hdnl, items, hlog, hitems⟩ := ih (onOutgoingData P s data face)
      have hone : (onOutgoingData P s data face).deadNonceList = s.deadNonceList ∧
          ∃ items, (onOutgoingData P s data face).log = s.log ++ items ∧
            ∀ item ∈ items, ∃ face, item = .outData face data := by
        unfold onOutgoingData
        split
        · exact ⟨rfl, [], by simp, by simp⟩
        · split
          · exact ⟨rfl, [], by simp, by simp⟩
          · exact ⟨rfl, [_], rfl, fun item hitem => ⟨face, List.mem_singleton.mp hitem⟩⟩
      obtain ⟨hdnl₁, items₁, hlog₁, hitems₁⟩ := hone
      refine ⟨hdnl.trans hdnl₁, items₁ ++ items, by rw [hlog, hlog₁, List.append_assoc], ?_⟩
      intro item hitem
      rcases List.mem_append.mp hitem with hm | hm
      · exact hitems₁ item hm
      · exact hitems item hm

theorem Remembers.outgoingData (h : Remembers P s) (data : Data) (face : Face) :
    Remembers P (onOutgoingData P s data face) := by
  unfold onOutgoingData
  split
  · exact h
  · split
    · exact h
    · exact h.same [_] rfl rfl (fun item hitem => Or.inr (Or.inr (Or.inl ⟨face, data, List.mem_singleton.mp hitem⟩)))
        (DeadNonceList.Later.refl _)

theorem Remembers.arrive (h : Remembers P s) (inFace : Face) (interest : Interest) :
    Remembers P (s.logged (.inInterest inFace interest)) :=
  h.same [_] rfl rfl (fun _ hitem => Or.inl ⟨_, _, List.mem_singleton.mp hitem⟩) (DeadNonceList.Later.refl _)

/-- An arriving Interest adds an entry without records, or none. -/
theorem Remembers.insertPit (h : Remembers P s) {pit : Pit} {isNew : Bool} {e : PitEntry} {interest : Interest}
    (hins : s.pit.insert P.cityHash interest = some (pit, r, isNew)) (he : pit.entries r = some e) (inFace : Face)
    (cs : κ) : Remembers P { withPit s inFace interest pit with cs } := by
  obtain ⟨hlinked, hother, hnext, -, -, hnew⟩ := h.linked.insert_spec hins he
  refine (h.arrive inFace interest).frame [] hlinked ?_ (by simp [withPit]) (by simp) (by simp) ?_ hnext
    (DeadNonceList.Later.refl _) ?_
  · intro x e' he'
    by_cases hx : x = r
    · subst hx
      have heq : some e = some e' := he.symm.trans he'
      cases heq
      rcases hnew with ⟨-, -, hold⟩ | ⟨-, -, nte, rfl⟩
      · exact h.recorded hold
      · exact ⟨by simp [PitEntry.new], by simp [PitEntry.new]⟩
    · exact h.recorded ((hother x hx).symm.trans he')
  · intro x hnone hlt
    show pit.entries x = none
    by_cases hx : x = r
    · subst hx
      rcases hnew with ⟨-, -, hold⟩ | ⟨rfl, -, -⟩
      · rw [show s.pit.entries x = none from hnone] at hold
        cases hold
      · have hfresh := h.linked.insert_new hins
        exact absurd hlt (by rw [hfresh]; exact lt_irrefl _)
    · rw [hother x hx]
      exact hnone
  · rintro x face i ⟨e₀, he₀, hrest⟩ _
    refine Or.inl ⟨e₀, ?_, hrest⟩
    show pit.entries x = some e₀
    by_cases hx : x = r
    · subst hx
      rcases hnew with ⟨-, hentries, -⟩ | ⟨-, hnone, -⟩
      · rw [hentries]
        exact he₀
      · rw [show s.pit.entries x = some e₀ from he₀] at hnone
        cases hnone
    · rw [hother x hx]
      exact he₀

theorem Remembers.incomingInterest (h : Remembers P s) {inFace : Face} {interest : Interest}
    {actions : List StrategyAction} (hstep : onIncomingInterest P s inFace interest actions = some s') :
    Remembers P s' := by
  rcases onIncomingInterest_cases hstep with ⟨-, rfl⟩ | ⟨-, pit, r, isNew, e, hins, he, hcases⟩
  · exact h.arrive inFace interest
  obtain ⟨-, -, -, hname, hsel, -⟩ := h.linked.insert_spec hins he
  have hpit := h.insertPit hins he inFace
  rcases hcases with ⟨-, rfl⟩ | ⟨-, hempty, cs, data, s₁, -, hdisp, rfl⟩ | ⟨-, cs, hmiss⟩
  · exact hpit s.cs
  · exact ((((hpit cs).cancel r).dispatch hdisp).setStraggler r true data.freshnessPeriod).outgoingData data inFace
  · rw [onContentStoreMiss] at hmiss
    refine ((Remembers.modifyEntry (f := fun e => e.insertOrUpdateInRecord s.now inFace interest)
      ((hpit cs).cancel r) (fun _ => rfl) (fun _ => rfl) (fun _ => rfl) ?_).setUnsatisfy r).dispatch hmiss
    intro e₁ he₁
    have hrec := ((hpit cs).cancel r).recorded he₁
    obtain ⟨e₀, he₀, ⟨-, rfl⟩ | ⟨hne, -⟩⟩ := Pit.modifyEntry_some he₁
    · have heq : some e = some e₀ := he.symm.trans he₀
      cases heq
      refine ⟨fun record hrecord => ?_, hrec.outRecords⟩
      rcases Lists.mem_of_replaceOrCons hrecord with rfl | hold
      · exact ⟨hname.symm, hsel.symm⟩
      · exact hrec.inRecords record hold
    · exact absurd rfl hne

theorem Remembers.incomingData (h : Remembers P s) {inFace : Face} {data : Data}
    {actions : Ref → List StrategyAction} (hstep : onIncomingData P s inFace data actions = some s') :
    Remembers P s' := by
  have hlogged : ∀ cs, Remembers P { s.logged (.inData inFace data) with cs } := fun cs =>
    h.same [_] rfl rfl (fun item hitem => Or.inr (Or.inl ⟨_, _, List.mem_singleton.mp hitem⟩))
      (DeadNonceList.Later.refl _)
  rcases onIncomingData_cases hstep with rfl | rfl | ⟨result, hresult, rfl⟩
  · exact hlogged s.cs
  · unfold onDataUnsolicited
    split
    · exact hlogged _
    · exact hlogged s.cs
  · have hall := satisfyAll_invariant (I := Remembers P) (fun _ _ _ h hs => h.satisfyEntry hs) _
      (hlogged _) hresult
    obtain ⟨hdnl, items, hlog, hitems⟩ := sendToDownstreams_log (P := P) inFace data result.2 result.1
    refine hall.same items (sendToDownstreams_pit _ _ _ _) hlog (fun item hitem => ?_)
      (by rw [hdnl]; exact DeadNonceList.Later.refl _)
    obtain ⟨face, rfl⟩ := hitems item hitem
    exact Or.inr (Or.inr (Or.inl ⟨face, data, rfl⟩))

theorem Remembers.step (h : Remembers P s) {event : Event} (hstep : step P s event = some s') :
    Remembers P s' := by
  cases event with
  | incomingInterest inFace interest actions => exact h.incomingInterest hstep
  | incomingData inFace data actions => exact h.incomingData hstep
  | unsatisfyTimer r actions =>
      simp only [Forwarder.step] at hstep
      split at hstep
      · cases hstep
      · split at hstep
        · obtain ⟨s₁, hs₁, hfin⟩ := Option.bind_eq_some_iff.mp hstep
          exact (h.dispatch hs₁).finalize hfin
        · cases hstep
  | stragglerTimer r =>
      simp only [Forwarder.step] at hstep
      split at hstep
      · cases hstep
      · split at hstep
        · exact h.finalize hstep
        · cases hstep
  | strategyTimer r actions => exact h.dispatch hstep
  | markDeadNonceList =>
      cases hstep
      exact h.same [] rfl (by simp) (by simp) (DeadNonceList.mark_later _)
  | adjustDeadNonceListCapacity =>
      cases hstep
      exact h.same [] rfl (by simp) (by simp) (DeadNonceList.adjustCapacity_later _)
  | contentStoreTimer key =>
      cases hstep
      exact h.same [] rfl (by simp) (by simp) (DeadNonceList.Later.refl _)
  | setFaceId face id =>
      cases hstep
      exact h.same [] rfl (by simp) (by simp) (DeadNonceList.Later.refl _)
  | advanceClock duration =>
      cases hstep
      exact h.same [] rfl (by simp) (by simp) (DeadNonceList.Later.refl _)

theorem new_remembers (nBuckets : Nat) (faceId : Face → Option Nat) (cs : κ) :
    Remembers P (ForwarderState.new nBuckets faceId cs) where
  linked := Pit.new_linked nBuckets
  recorded he := by simp [ForwarderState.new, Pit.new] at he
  gone hmem := by simp [ForwarderState.new] at hmem
  once hmem := by simp [ForwarderState.new] at hmem
  sends hsplit := by simp [ForwarderState.new] at hsplit

/-- An arriving Interest leaves the name tree with at most `2 ^ 32` buckets. -/
def Bounded (P : Platform κ) (s : ForwarderState κ) : Event → Prop
  | .incomingInterest _ interest _ => (s.pit.nameTree.lookup P.cityHash interest.name).1.nBuckets ≤ 2 ^ 32
  | _ => True

theorem sound_modifyEntry (h : s.pit.Sound P.cityHash) (r : Ref) {f : PitEntry → PitEntry}
    (hint : ∀ e, (f e).interest = e.interest) (hnt : ∀ e, (f e).nameTreeEntry = e.nameTreeEntry) :
    (s.modifyEntry r f).pit.Sound P.cityHash := by
  refine h.of_entries (h.linked.modifyEntry r hnt) rfl fun x e' he' => ?_
  obtain ⟨e, he, ⟨-, rfl⟩ | ⟨-, rfl⟩⟩ := Pit.modifyEntry_some he'
  · exact ⟨e, he, hint e, hnt e⟩
  · exact ⟨_, he, rfl, rfl⟩

theorem Acted.sound (h : Acted r s s') (hs : s.pit.Sound P.cityHash) : s'.pit.Sound P.cityHash := by
  refine hs.of_entries (h.linked hs.linked) h.nameTree_eq fun x e' he' => ?_
  by_cases hx : x = r
  · subst hx
    cases he : s.pit.entries x with
    | none =>
        rw [h.absent he] at he'
        cases he'
    | some e =>
        obtain ⟨e₁, he₁, hint, -, hnt, -⟩ := h.entry e he
        rw [he'] at he₁
        cases he₁
        exact ⟨e, rfl, hint, hnt⟩
  · exact ⟨e', by rw [← h.other x hx, he'], rfl, rfl⟩

theorem sound_cancel (h : s.pit.Sound P.cityHash) (r : Ref) :
    (cancelUnsatisfyAndStragglerTimer s r).pit.Sound P.cityHash :=
  sound_modifyEntry h r (fun _ => rfl) fun _ => rfl

theorem sound_setStragglerTimer (h : s.pit.Sound P.cityHash) (r : Ref) (isSatisfied : Bool) (period : Int) :
    (setStragglerTimer s r isSatisfied period).pit.Sound P.cityHash :=
  sound_modifyEntry h r (fun _ => rfl) fun _ => rfl

theorem sound_incomingInterest (h : s.pit.Sound P.cityHash) {inFace : Face} {interest : Interest}
    {actions : List StrategyAction} (hb : Bounded P s (.incomingInterest inFace interest actions))
    (hstep : onIncomingInterest P s inFace interest actions = some s') : s'.pit.Sound P.cityHash := by
  rcases onIncomingInterest_cases hstep with ⟨-, rfl⟩ | ⟨-, pit, r, isNew, e, hins, -, hcases⟩
  · exact h
  have hpit : ∀ cs, ({ withPit s inFace interest pit with cs } : ForwarderState κ).pit.Sound P.cityHash :=
    fun _ => h.insert hins hb
  rcases hcases with ⟨-, rfl⟩ | ⟨-, -, cs, data, s₁, -, hdisp, rfl⟩ | ⟨-, cs, hmiss⟩
  · exact hpit s.cs
  · rw [onOutgoingData_pit]
    exact sound_setStragglerTimer ((dispatch_acted hdisp).sound (sound_cancel (hpit cs) r)) r _ _
  · rw [onContentStoreMiss] at hmiss
    refine (dispatch_acted hmiss).sound ?_
    refine sound_modifyEntry ?_ r (fun _ => rfl) fun _ => rfl
    exact sound_modifyEntry (f := fun e => e.insertOrUpdateInRecord s.now inFace interest)
      (sound_cancel (hpit cs) r) r (fun _ => rfl) fun _ => rfl

theorem sound_satisfyEntry (h : s.pit.Sound P.cityHash) {inFace : Face} {data : Data}
    {actions : Ref → List StrategyAction} (hstep : satisfyEntry P inFace data actions s r = some s') :
    s'.pit.Sound P.cityHash := by
  obtain ⟨s₁, s₂, hact, hq, rfl⟩ := satisfyEntry_cases hstep
  have h₂ : s₂.pit.Sound P.cityHash := by
    rw [hq.pit_eq]
    exact hact.sound (sound_cancel h r)
  refine sound_setStragglerTimer ?_ r _ _
  exact sound_modifyEntry (f := fun e => e.deleteInRecords.deleteOutRecord inFace) h₂ r (fun _ => rfl) fun _ => rfl

theorem sound_incomingData (h : s.pit.Sound P.cityHash) {inFace : Face} {data : Data}
    {actions : Ref → List StrategyAction} (hstep : onIncomingData P s inFace data actions = some s') :
    s'.pit.Sound P.cityHash := by
  rcases onIncomingData_cases hstep with rfl | rfl | ⟨result, hresult, rfl⟩
  · exact h
  · rw [onDataUnsolicited_pit]
    exact h
  · rw [sendToDownstreams_pit]
    refine satisfyAll_invariant (I := fun s => s.pit.Sound P.cityHash)
      (fun _ _ _ h hs => sound_satisfyEntry h hs) _ ?_ hresult
    exact h

theorem sound_finalize (h : s.pit.Sound P.cityHash) {isSatisfied : Bool} {period : Int}
    (hstep : onInterestFinalize P s r isSatisfied period = some s') : s'.pit.Sound P.cityHash := by
  obtain ⟨pit, herase, rfl⟩ := Option.map_eq_some_iff.mp hstep
  refine Pit.Sound.erase (sound_cancel ?_ r) herase
  rw [(insertDeadNonceList_queued (P := P) s r isSatisfied period none).pit_eq]
  exact h

theorem sound_step (h : s.pit.Sound P.cityHash) {event : Event} (hb : Bounded P s event)
    (hstep : step P s event = some s') : s'.pit.Sound P.cityHash := by
  cases event with
  | incomingInterest inFace interest actions => exact sound_incomingInterest h hb hstep
  | incomingData inFace data actions => exact sound_incomingData h hstep
  | unsatisfyTimer r actions =>
      simp only [Forwarder.step] at hstep
      split at hstep
      · cases hstep
      · split at hstep
        · obtain ⟨s₁, hs₁, hfin⟩ := Option.bind_eq_some_iff.mp hstep
          exact sound_finalize ((dispatch_acted hs₁).sound h) hfin
        · cases hstep
  | stragglerTimer r =>
      simp only [Forwarder.step] at hstep
      split at hstep
      · cases hstep
      · split at hstep
        · exact sound_finalize h hstep
        · cases hstep
  | strategyTimer r actions => exact (dispatch_acted hstep).sound h
  | markDeadNonceList =>
      cases hstep
      exact h
  | adjustDeadNonceListCapacity =>
      cases hstep
      exact h
  | contentStoreTimer key =>
      cases hstep
      exact h
  | setFaceId face id =>
      cases hstep
      exact h
  | advanceClock duration =>
      cases hstep
      exact h

/-! ### Loops -/

/-- Whatever the strategy would do, the Interest is neither forwarded nor answered when it arrives: it
is logged, and the PIT entries stay as they are. -/
def TreatedAsLoop (P : Platform κ) (s : ForwarderState κ) (inFace : Face) (interest : Interest) : Prop :=
  ∀ actions, Bounded P s (.incomingInterest inFace interest actions) →
    ∃ s', step P s (.incomingInterest inFace interest actions) = some s' ∧
      s'.log = s.log ++ [.inInterest inFace interest] ∧
      ∀ x e, s.pit.entries x = some e → s'.pit.entries x = some e

/-- An Interest whose Nonce is a duplicate for the entry it gets. -/
theorem treatedAsLoop_of_duplicate (h : s.pit.Linked) {inFace : Face} {interest : Interest}
    (hdup : ∀ pit r isNew e, s.pit.insert P.cityHash interest = some (pit, r, isNew) →
      (s.pit.nameTree.lookup P.cityHash interest.name).1.nBuckets ≤ 2 ^ 32 →
      pit.entries r = some e → hasDuplicateNonce P s e inFace interest = true) :
    TreatedAsLoop P s inFace interest := by
  intro actions hb
  simp only [Forwarder.step, onIncomingInterest]
  split
  · exact ⟨_, rfl, rfl, fun _ _ he => he⟩
  · obtain ⟨pit, r, isNew, hins, hlinked, hcases⟩ := h.insert P.cityHash interest
    obtain ⟨e, he⟩ : ∃ e, pit.entries r = some e := by
      rcases hcases with ⟨-, hentries, -, hfor⟩ | ⟨-, rfl, -, nte, hentries⟩
      · obtain ⟨e, he, -⟩ := Pit.isFor_eq_true.mp hfor
        exact ⟨e, hentries ▸ he⟩
      · exact ⟨_, by rw [hentries, Function.update_self]⟩
    have hins' : (s.logged (.inInterest inFace interest)).pit.insert P.cityHash interest =
        some (pit, r, isNew) := hins
    have hd : hasDuplicateNonce P (withPit s inFace interest pit) e inFace interest = true :=
      hdup pit r isNew e hins hb he
    refine ⟨withPit s inFace interest pit, ?_, rfl, fun x e' he' => ?_⟩
    · rw [hins', Option.bind_some]
      dsimp only
      rw [he, Option.bind_some]
      exact if_pos hd
    · obtain ⟨-, hother, -, -, -, hnew⟩ := h.insert_spec hins he
      by_cases hx : x = r
      · subst hx
        rcases hnew with ⟨-, hentries, -⟩ | ⟨-, hnone, -⟩
        · show pit.entries x = some e'
          rw [hentries, he']
        · rw [he'] at hnone
          cases hnone
      · exact (hother x hx).trans he'

/-- A Nonce in an out-record of the entry is a duplicate on every face. -/
theorem findNonce_of_outRecord {e : PitEntry} {o : OutRecord} (ho : o ∈ e.outRecords) (inFace : Face) :
    e.findNonce o.lastNonce inFace ≠ .none := by
  intro heq
  simp only [PitEntry.findNonce, DuplicateNonceWhere.none, DuplicateNonceWhere.mk.injEq] at heq
  obtain ⟨-, -, hsame, hother⟩ := heq
  rw [List.any_eq_false] at hsame hother
  have h₁ := hsame o ho
  have h₂ := hother o ho
  by_cases hf : o.face = inFace
  · simp [hf] at h₁
  · simp [hf] at h₂

theorem Held.treatedAsLoop (h : s.pit.Sound P.cityHash) {face : Face} {sent : Interest}
    (hheld : Held s r face sent) {inFace : Face} {interest : Interest} (hname : interest.name = sent.name)
    (hsel : interest.selectors = sent.selectors) (hnonce : interest.nonce = sent.nonce) :
    TreatedAsLoop P s inFace interest := by
  refine treatedAsLoop_of_duplicate h.linked fun pit x isNew e hins hb he => ?_
  obtain ⟨e₀, he₀, hname₀, hsel₀, o, ho, -, hlast⟩ := hheld
  obtain ⟨pit', hins', hentries⟩ := h.insert_existing he₀ (hname₀.trans hname.symm) (hsel₀.trans hsel.symm) hb
  rw [hins] at hins'
  cases hins'
  rw [hentries, he₀] at he
  cases he
  have hdup := findNonce_of_outRecord ho inFace
  rw [hlast, ← hnonce] at hdup
  simp [hasDuplicateNonce, hdup]

theorem treatedAsLoop_of_dead (h : s.pit.Linked) {inFace : Face} {interest : Interest}
    (hdead : s.deadNonceList.has P.makeEntry interest.name interest.nonce = true) :
    TreatedAsLoop P s inFace interest := by
  refine treatedAsLoop_of_duplicate h fun pit x isNew e _ _ _ => ?_
  simp [hasDuplicateNonce, hdead]

/-- In every run, after an Interest was sent for a PIT entry and as long as no Data of the same face has
satisfied the entry and no other Nonce was sent to that face for it: while the entry exists, the Interest
is treated as a loop when it arrives on any face, and once the entry was finalized unsatisfied its Nonce
has a record in the Dead Nonce List, and the Interest is treated as a loop until that record is
evicted. -/
theorem sent_interest_loops (P : Platform κ) {k : Nat} (hk : k ≤ 32) (faceId : Face → Option Nat) (cs : κ)
    (s : ForwarderState κ) (hr : Reach (step P) (Bounded P) (ForwarderState.new (2 ^ k) faceId cs) s)
    (l₁ l₂ : List LogItem) {r : Ref} {outFace : Face} {sent : Interest}
    (hsent : s.log = l₁ ++ .outInterest r outFace sent :: l₂) (hanswer : LogItem.satisfied r outFace ∉ l₂)
    (hnonces : ∀ i, LogItem.outInterest r outFace i ∈ l₂ → i.nonce = sent.nonce)
    (inFace : Face) (interest : Interest) (hname : interest.name = sent.name)
    (hsel : interest.selectors = sent.selectors) (hnonce : interest.nonce = sent.nonce) :
    ((∀ isSatisfied, LogItem.finalized r isSatisfied ∉ l₂) → TreatedAsLoop P s inFace interest) ∧
    (LogItem.finalized r false ∈ l₂ → ∃ k, LogItem.deadNonce k sent.name sent.nonce ∈ l₂ ∧
      (s.deadNonceList.nEvicted ≤ k → TreatedAsLoop P s inFace interest)) := by
  have hrem : Remembers P s := hr.invariant (new_remembers _ faceId cs) fun _ _ _ h _ hs => h.step hs
  have hsound : s.pit.Sound P.cityHash :=
    hr.invariant (I := fun s => s.pit.Sound P.cityHash) (Pit.new_sound hk) fun _ _ _ h hb hs => sound_step h hb hs
  have hlater : ∀ {item}, item ∈ l₂ → item ∈ s.log := fun hmem =>
    hsent ▸ List.mem_append_right l₁ (List.mem_cons_of_mem _ hmem)
  rcases hrem.sends hsent hanswer hnonces with hheld | ⟨hfin, j, hj, -, hentry⟩ | htrue
  · refine ⟨fun _ => hheld.treatedAsLoop hsound hname hsel hnonce, fun hfin => ?_⟩
    obtain ⟨e, he, -⟩ := hheld
    rw [(hrem.gone (hlater hfin)).1] at he
    cases he
  · refine ⟨fun hnot => absurd hfin (hnot false), fun _ => ⟨j, hj, fun hev => ?_⟩⟩
    refine treatedAsLoop_of_dead hsound.linked ?_
    rw [hname, hnonce]
    exact DeadNonceList.has_of_entryAt (hentry hev)
  · refine ⟨fun hnot => absurd htrue (hnot true), fun hfin => ?_⟩
    cases hrem.once (hlater htrue) (hlater hfin)

/-- Face 1 asks with Nonce 1 and again with Nonce 5, and both Interests are sent to face 2. -/
def retransmission : List Event :=
  [.incomingInterest 1 (plainInterest [.ofByte 65]) [.sendInterest 2 none],
    .incomingInterest 1 { plainInterest [.ofByte 65] with nonce := 5 } [.sendInterest 2 none]]

/-- The second Nonce takes the place of the first one in the out-record, and the first Interest is
forwarded again when it loops back while its PIT entry is pending. -/
theorem overwritten_nonce_forwarded :
    ∃ s, Reach (step Platform.sample) anyStep ForwarderState.sample s ∧
      LogItem.outInterest 0 2 (plainInterest [.ofByte 65]) ∈ s.log ∧
      (∀ item ∈ s.log, item ≠ .satisfied 0 2 ∧ item ≠ .finalized 0 true ∧ item ≠ .finalized 0 false) ∧
      (s.pit.entries 0).isSome ∧ ¬ TreatedAsLoop Platform.sample s 3 (plainInterest [.ofByte 65]) := by
  have hrun : ((exec (step Platform.sample) ForwarderState.sample retransmission).map fun s =>
      (decide (LogItem.outInterest 0 2 (plainInterest [.ofByte 65]) ∈ s.log) &&
        s.log.all fun item => decide (item ≠ .satisfied 0 2 ∧ item ≠ .finalized 0 true ∧
          item ≠ .finalized 0 false)) &&
      ((s.pit.entries 0).isSome &&
      (decide ((s.pit.nameTree.lookup Platform.sample.cityHash [.ofByte 65]).1.nBuckets ≤ 2 ^ 32) &&
      (step Platform.sample s (.incomingInterest 3 (plainInterest [.ofByte 65]) [.sendInterest 4 none])).any
        fun s' => decide (s.log.length + 2 = s'.log.length)))) = some true := by decide
  obtain ⟨s, hs, hall⟩ := Option.map_eq_some_iff.mp hrun
  simp only [Bool.and_eq_true, decide_eq_true_eq, List.all_eq_true] at hall
  obtain ⟨⟨hsent, hitems⟩, hentry, hb, hstep⟩ := hall
  refine ⟨s, reach_of_exec Reach.start hs, hsent, hitems, hentry, fun hloop => ?_⟩
  obtain ⟨s', hs', hlog, -⟩ := hloop [.sendInterest 4 none] hb
  rw [hs'] at hstep
  have hlen : s.log.length + 2 = s'.log.length := by simpa using hstep
  rw [hlog, List.length_append, List.length_singleton] at hlen
  omega

/-- After the first Interest of that run only, face 3 sends it back. -/
theorem sent_interest_loops_sample :
    ∃ s, step Platform.sample ForwarderState.sample
        (.incomingInterest 1 (plainInterest [.ofByte 65]) [.sendInterest 2 none]) = some s ∧
      TreatedAsLoop Platform.sample s 3 (plainInterest [.ofByte 65]) := by
  have hrun : (step Platform.sample ForwarderState.sample
      (.incomingInterest 1 (plainInterest [.ofByte 65]) [.sendInterest 2 none])).map (fun s => s.log) =
      some [.inInterest 1 (plainInterest [.ofByte 65]), .outInterest 0 2 (plainInterest [.ofByte 65])] := by
    decide
  obtain ⟨s, hs, hlog⟩ := Option.map_eq_some_iff.mp hrun
  refine ⟨s, hs, ?_⟩
  have hb : Bounded Platform.sample (ForwarderState.new (2 ^ 4) some ⟨[], ()⟩)
      (.incomingInterest 1 (plainInterest [.ofByte 65]) [.sendInterest 2 none]) := by
    show (_ : NameTree).nBuckets ≤ 2 ^ 32
    decide
  exact (sent_interest_loops Platform.sample (by decide : 4 ≤ 32) some ⟨[], ()⟩ s (Reach.start.next _ hb hs)
    [.inInterest 1 (plainInterest [.ofByte 65])] [] hlog List.not_mem_nil
    (fun i hi => absurd hi List.not_mem_nil) 3 (plainInterest [.ofByte 65]) rfl rfl rfl).1
    (fun _ => List.not_mem_nil)

end NfdPitless.Forwarder
