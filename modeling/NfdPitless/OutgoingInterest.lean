import NfdPitless.Forwarder

/-! Which of the Interests of a PIT entry is sent to a face. The comparator of `onOutgoingInterest` prefers the
earlier renewal, so of the in-records that are not from the face the one renewed longest ago is picked. -/

namespace NfdPitless.Forwarder

variable {κ : Type} {P : Platform κ} {s : ForwarderState κ} {r : Ref} {e : PitEntry} {outFace : Face}
  {newNonce : Option UInt32}

/-- The in-records not from a face, or all of them if every one is from it. -/
def candidates (e : PitEntry) (outFace : Face) : List InRecord :=
  if e.inRecords.all fun record => record.face == outFace then e.inRecords
  else e.inRecords.filter fun record => record.face != outFace

/-- A candidate renewed no earlier than any other. -/
def MostRecent (e : PitEntry) (outFace : Face) (record : InRecord) : Prop :=
  record ∈ candidates e outFace ∧ ∀ record' ∈ candidates e outFace, record'.lastRenewed ≤ record.lastRenewed

/-- The Interest of a record as it is sent, with a fresh Nonce if one is wanted. -/
def interestOf (newNonce : Option UInt32) (record : InRecord) : Interest :=
  match newNonce with
  | none => record.interest
  | some nonce => { record.interest with nonce }

/-- Sending to the face would fail, or violate the scope of the name. -/
def Withheld (P : Platform κ) (s : ForwarderState κ) (e : PitEntry) (outFace : Face) : Prop :=
  s.faceId outFace = none ∨ e.violatesScope P.isLocal outFace = true

def Sends (P : Platform κ) (s : ForwarderState κ) (r : Ref) (outFace : Face) (newNonce : Option UInt32)
    (interest : Interest) : Prop :=
  ∃ s', onOutgoingInterest P s r outFace newNonce = some s' ∧ s'.log = s.log ++ [.outInterest r outFace interest]

theorem pickInterest_eq (e : PitEntry) (outFace : Face) (newNonce : Option UInt32) :
    pickInterest e outFace newNonce =
      ((candidates e outFace).argmin InRecord.lastRenewed).map (interestOf newNonce) := by
  have hpick : pickInterest e outFace newNonce =
      (Lists.maxElement (comparePickInterest outFace) e.inRecords).map (interestOf newNonce) := rfl
  rw [hpick, candidates]
  congr 1
  split
  · rename_i hall
    rw [List.all_eq_true] at hall
    have hcongr : Lists.maxElement (comparePickInterest outFace) e.inRecords =
        Lists.maxElement (fun a b => decide (b.lastRenewed < a.lastRenewed)) e.inRecords :=
      Lists.maxElement_congr fun a ha b hb => by
        have ha' : a.face = outFace := beq_iff_eq.mp (hall a ha)
        have hb' : b.face = outFace := beq_iff_eq.mp (hall b hb)
        simp [comparePickInterest, ha', hb']
    rw [hcongr, Lists.maxElement_smaller]
  · rename_i hall
    have hother : ∃ a ∈ e.inRecords, (a.face != outFace) = true := by simpa [List.all_eq_true] using hall
    refine Lists.maxElement_preferring (fun a b => ?_) hother
    by_cases ha : a.face = outFace <;> by_cases hb : b.face = outFace <;> simp [comparePickInterest, bne, ha, hb]

/-- A record is the face's own only if every one is. -/
theorem face_of_mem_candidates {record : InRecord} (h : record ∈ candidates e outFace) :
    record ∈ e.inRecords ∧ (record.face = outFace → ∀ record' ∈ e.inRecords, record'.face = outFace) := by
  rw [candidates] at h
  split at h
  · rename_i hall
    exact ⟨h, fun _ record' hmem => beq_iff_eq.mp (List.all_eq_true.mp hall record' hmem)⟩
  · obtain ⟨hmem, hface⟩ := List.mem_filter.mp h
    exact ⟨hmem, fun heq => absurd heq (bne_iff_ne.mp hface)⟩

/-- What is sent, if it is not withheld: the Interest of the first of the earliest renewed candidates. -/
theorem sends_iff (he : s.pit.entries r = some e) (hsend : ¬ Withheld P s e outFace) {interest : Interest} :
    Sends P s r outFace newNonce interest ↔
      ∃ first, (candidates e outFace).argmin InRecord.lastRenewed = some first ∧
      interest = interestOf newNonce first := by
  obtain ⟨hvalid, hscope⟩ := not_or.mp hsend
  have hout : onOutgoingInterest P s r outFace newNonce =
      (pickInterest e outFace newNonce).map fun interest =>
        (s.modifyEntry r fun e => e.insertOrUpdateOutRecord s.now outFace interest).logged
          (.outInterest r outFace interest) := by
    simp only [onOutgoingInterest, he, Option.isNone_iff_eq_none, hvalid, hscope, if_false]
    cases pickInterest e outFace newNonce <;> rfl
  rw [Sends, hout, pickInterest_eq]
  constructor
  · rintro ⟨s', hs', hlog⟩
    obtain ⟨interest', hpick, rfl⟩ := Option.map_eq_some_iff.mp hs'
    obtain ⟨first, hfirst, rfl⟩ := Option.map_eq_some_iff.mp hpick
    have hitem := List.append_cancel_left hlog
    refine ⟨first, hfirst, ?_⟩
    injection hitem with hitem
    injection hitem with _ _ hinterest
    exact hinterest.symm
  · rintro ⟨first, hfirst, rfl⟩
    rw [hfirst]
    exact ⟨_, rfl, rfl⟩

/-- The Interest sent is that of a most recently renewed candidate exactly when the first of those renewed longest ago
has the same one, as when they were all renewed at once. -/
theorem onOutgoingInterest_mostRecent (he : s.pit.entries r = some e) :
    (¬ Withheld P s e outFace → ∃ record, MostRecent e outFace record ∧
        (record.face = outFace → ∀ record' ∈ e.inRecords, record'.face = outFace) ∧
          Sends P s r outFace newNonce (interestOf newNonce record)) ↔
      Withheld P s e outFace ∨ ∃ first record, (candidates e outFace).argmin InRecord.lastRenewed = some first ∧
        MostRecent e outFace record ∧ interestOf newNonce first = interestOf newNonce record := by
  constructor
  · intro h
    by_cases hsend : Withheld P s e outFace
    · exact .inl hsend
    · obtain ⟨record, hrecord, -, hsent⟩ := h hsend
      obtain ⟨first, hfirst, heq⟩ := (sends_iff he hsend).mp hsent
      exact .inr ⟨first, record, hfirst, hrecord, heq.symm⟩
  · rintro (hheld | ⟨first, record, hfirst, hrecord, heq⟩) hsend
    · exact absurd hheld hsend
    · refine ⟨record, hrecord, (face_of_mem_candidates hrecord.1).2, ?_⟩
      exact (sends_iff he hsend).mpr ⟨first, hfirst, heq.symm⟩

/-- The Interest of face 1, with an Interest of face 3 that came later. -/
def twoDownstreams : PitEntry :=
  ((PitEntry.new (plainInterest []) 0).insertOrUpdateInRecord 0 1 (plainInterest [])).insertOrUpdateInRecord 5 3
    { plainInterest [] with nonce := 2 }

def twoDownstreamsState : ForwarderState (Cs Unit) :=
  { ForwarderState.sample with
    now := 5
    pit := { ForwarderState.sample.pit with entries := fun _ => some twoDownstreams } }

theorem twoDownstreams_not_withheld (outFace : Face) :
    ¬ Withheld Platform.sample twoDownstreamsState twoDownstreams outFace := by
  rintro (hinvalid | hscope)
  · cases hinvalid
  · cases hscope

/-- The Interest of face 1 is sent to face 2. -/
theorem onOutgoingInterest_leastRecent : twoDownstreamsState.pit.entries 0 = some twoDownstreams ∧
    twoDownstreams.inRecords ≠ [] ∧ ¬ Withheld Platform.sample twoDownstreamsState twoDownstreams 2 ∧
      ¬ ∃ record, MostRecent twoDownstreams 2 record ∧
        Sends Platform.sample twoDownstreamsState 0 2 none (interestOf none record) := by
  refine ⟨rfl, by decide, twoDownstreams_not_withheld 2, ?_⟩
  rintro ⟨record, ⟨hmem, hmost⟩, hsent⟩
  have hrecords : candidates twoDownstreams 2 = [InRecord.update 5 3 { plainInterest [] with nonce := 2 },
    InRecord.update 0 1 (plainInterest [])] := rfl
  obtain ⟨first, hfirst, heq⟩ := (sends_iff rfl (twoDownstreams_not_withheld 2)).mp hsent
  rw [hrecords] at hfirst hmem hmost
  have hfirst : first = InRecord.update 0 1 (plainInterest []) := (Option.some.inj hfirst).symm
  rw [hfirst] at heq
  rcases List.mem_pair.mp hmem with rfl | rfl
  · exact absurd heq (by decide)
  · exact absurd (hmost _ List.mem_cons_self) (by decide)

/-- To face 1 the Interest of face 3 is sent. -/
theorem onOutgoingInterest_other : ∃ record, MostRecent twoDownstreams 1 record ∧
    (record.face = 1 → ∀ record' ∈ twoDownstreams.inRecords, record'.face = 1) ∧
      Sends Platform.sample twoDownstreamsState 0 1 none (interestOf none record) := by
  refine (onOutgoingInterest_mostRecent (e := twoDownstreams) rfl).mpr ?_ (twoDownstreams_not_withheld 1)
  have hrecords : candidates twoDownstreams 1 = [InRecord.update 5 3 { plainInterest [] with nonce := 2 }] := rfl
  refine .inr ⟨_, _, rfl, ⟨List.mem_singleton_self _, fun record hmem => ?_⟩, rfl⟩
  rw [hrecords] at hmem
  rw [List.mem_singleton.mp hmem]

end NfdPitless.Forwarder
