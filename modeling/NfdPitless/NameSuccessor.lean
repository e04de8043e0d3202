import NfdPitless.Name

/-! The successor of a name: the least name that is greater than all that have it as a prefix. ndn-cxx advances the
last component, which gives that name. -/

namespace NfdPitless

/-- The next number in the same octets, unless all are 255. -/
def incrementOctets : List UInt8 → Option (List UInt8)
  | [] => none
  | b :: bs =>
      match incrementOctets bs with
      | some bs' => some (b :: bs')
      | none => if b = 255 then none else some ((b + 1) :: bs.map fun _ => 0)

/-- `Component::getSuccessor`: the next value of the same length, or the first that is longer. -/
def successorOf (c : Component) : Component :=
  { c with value := (incrementOctets c.value).getD (List.replicate (c.value.length + 1) 0) }

/-- `Name::getSuccessor`: the last component is advanced. -/
def successorName (n : Name) : Name :=
  match n.getLast? with
  | none => [⟨false, [0]⟩]
  | some c => n.dropLast ++ [successorOf c]

theorem incrementOctets_spec {v v' : List UInt8} (h : incrementOctets v = some v') :
    v'.length = v.length ∧ v.map UInt8.toNat < v'.map UInt8.toNat := by
  induction v generalizing v' with
  | nil => cases h
  | cons b bs ih =>
      rw [incrementOctets] at h
      split at h
      · rename_i bs' hbs
        cases h
        obtain ⟨hlen, hlt⟩ := ih hbs
        exact ⟨by rw [List.length_cons, List.length_cons, hlen], List.cons_lt_cons_iff.mpr (Or.inr ⟨rfl, hlt⟩)⟩
      · split at h
        · cases h
        · rename_i hb
          cases h
          refine ⟨by simp, List.cons_lt_cons_iff.mpr (Or.inl ?_)⟩
          have hlt : b.toNat < 255 := by
            have hne : b.toNat ≠ 255 := fun heq => hb (UInt8.toNat_inj.mp heq)
            have := b.toNat_lt
            omega
          rw [UInt8.toNat_add, Nat.mod_eq_of_lt (by simpa using Nat.succ_lt_succ hlt)]
          simp

theorem lt_successorOf (c : Component) : c < successorOf c := by
  show Component.orderKey c < Component.orderKey (successorOf c)
  unfold Component.orderKey successorOf
  refine Prod.Lex.toLex_lt_toLex.mpr (Or.inr ⟨rfl, Prod.Lex.toLex_lt_toLex.mpr ?_⟩)
  dsimp only
  cases h : incrementOctets c.value with
  | none => exact Or.inl (by simp)
  | some v' =>
      obtain ⟨hlen, hlt⟩ := incrementOctets_spec h
      exact Or.inr ⟨hlen.symm, hlt⟩

theorem successorName_append (n : Name) (c : Component) :
    ∃ c' : Component, successorName (n ++ [c]) = n ++ [c'] ∧ c < c' ∧
      c'.isImplicitSha256Digest = c.isImplicitSha256Digest := by
  refine ⟨successorOf c, ?_, lt_successorOf c, rfl⟩
  rw [successorName, List.getLast?_concat, List.dropLast_concat]

theorem zeros_le {zeros octets : List UInt8} (hlength : zeros.length = octets.length) (hzeros : ∀ b ∈ zeros, b = 0) :
    zeros.map UInt8.toNat ≤ octets.map UInt8.toNat := by
  refine not_lt.mp ?_
  induction zeros generalizing octets with
  | nil =>
      rw [List.length_eq_zero_iff.mp hlength.symm]
      exact lt_irrefl _
  | cons z zeros ih =>
      cases octets with
      | nil => cases hlength
      | cons b octets =>
          rw [hzeros z List.mem_cons_self, List.map_cons, List.map_cons]
          intro hlt
          rcases List.cons_lt_cons_iff.mp hlt with hfirst | ⟨-, hrest⟩
          · exact absurd hfirst (Nat.not_lt_zero _)
          · exact ih (Nat.succ.inj hlength) (fun b hb => hzeros b (List.mem_cons_of_mem z hb)) hrest

/-- The incremented octets are the next ones of the same length. -/
theorem incrementOctets_le {v w : List UInt8} (hlength : v.length = w.length)
    (hlt : v.map UInt8.toNat < w.map UInt8.toNat) :
    ∃ v', incrementOctets v = some v' ∧ v'.map UInt8.toNat ≤ w.map UInt8.toNat := by
  induction v generalizing w with
  | nil =>
      rw [List.length_eq_zero_iff.mp hlength.symm] at hlt
      exact absurd hlt (lt_irrefl _)
  | cons b bs ih =>
      cases w with
      | nil => cases hlength
      | cons c cs =>
          have hrest := Nat.succ.inj hlength
          rw [incrementOctets]
          rcases List.cons_lt_cons_iff.mp hlt with hfirst | ⟨hsame, hlater⟩
          · cases hincrement : incrementOctets bs with
            | some bs' => exact ⟨b :: bs', rfl, (List.cons_lt_cons_iff.mpr (Or.inl hfirst)).le⟩
            | none =>
                have hbound := c.toNat_lt
                have hne : b ≠ 255 := by
                  rintro rfl
                  have h255 : (255 : UInt8).toNat = 255 := rfl
                  omega
                have hnext : (b + 1).toNat = b.toNat + 1 := by
                  rw [UInt8.toNat_add, Nat.mod_eq_of_lt]
                  · rfl
                  · have h1 : (1 : UInt8).toNat = 1 := rfl
                    omega
                refine ⟨(b + 1) :: bs.map fun _ => 0, if_neg hne, ?_⟩
                rw [List.map_cons, List.map_cons, hnext]
                rcases (Nat.succ_le_of_lt hfirst).lt_or_eq with hlt | heq
                · exact (List.cons_lt_cons_iff.mpr (Or.inl hlt)).le
                · rw [← heq]
                  exact List.cons_le_cons _ (zeros_le (by rw [List.length_map, hrest]) (by simp))
          · obtain ⟨bs', hincrement, hle⟩ := ih hrest hlater
            rw [hincrement]
            refine ⟨b :: bs', rfl, ?_⟩
            rw [List.map_cons, List.map_cons, ← hsame]
            exact List.cons_le_cons _ hle

/-- No component is between one and its successor. -/
theorem successorOf_le {c d : Component} (h : c < d) : successorOf c ≤ d := by
  have hkey : Component.orderKey c < Component.orderKey d := h
  show Component.orderKey (successorOf c) ≤ Component.orderKey d
  unfold Component.orderKey at hkey ⊢
  refine Prod.Lex.toLex_le_toLex.mpr ?_
  rcases Prod.Lex.toLex_lt_toLex.mp hkey with htype | ⟨htype, hvalue⟩
  · exact Or.inl htype
  · refine Or.inr ⟨htype, Prod.Lex.toLex_le_toLex.mpr ?_⟩
    dsimp only [successorOf]
    rcases Prod.Lex.toLex_lt_toLex.mp hvalue with hshort | ⟨hlength, hoctets⟩
    · have hshort' : c.value.length < d.value.length := hshort
      cases hincrement : incrementOctets c.value with
      | some v' => exact Or.inl ((incrementOctets_spec hincrement).1.trans_lt hshort')
      | none =>
          rw [Option.getD_none, List.length_replicate]
          rcases (Nat.succ_le_of_lt hshort').lt_or_eq with hlt | heq
          · exact Or.inl hlt
          · exact Or.inr ⟨heq, zeros_le ((List.length_replicate ..).trans heq) fun _ hb => List.eq_of_mem_replicate hb⟩
    · obtain ⟨v', hincrement, hle⟩ := incrementOctets_le hlength hoctets
      rw [hincrement, Option.getD_some]
      exact Or.inr ⟨(incrementOctets_spec hincrement).1.trans hlength, hle⟩

theorem Name.append_lt_append_iff (n : Name) {a b : Name} : n ++ a < n ++ b ↔ a < b := by
  induction n with
  | nil => rfl
  | cons c n ih =>
      rw [List.cons_append, List.cons_append, List.cons_lt_cons_iff, ih]
      exact ⟨fun h => (h.resolve_left (lt_irrefl c)).2, fun h => Or.inr ⟨rfl, h⟩⟩

/-- The successor of a name that is not empty is the least name greater than all that it is a prefix of. -/
theorem successorName_isLeast {n : Name} (hn : n ≠ []) : IsLeast {m | ∀ n', n <+: n' → n' < m} (successorName n) := by
  obtain ⟨n, c, rfl⟩ := (List.eq_nil_or_concat' n).resolve_left hn
  have hsucc : successorName (n ++ [c]) = n ++ [successorOf c] := by
    rw [successorName, List.getLast?_concat, List.dropLast_concat]
  rw [hsucc]
  constructor
  · rintro n' ⟨t, rfl⟩
    rw [List.append_assoc, Name.append_lt_append_iff]
    exact List.cons_lt_cons_iff.mpr (Or.inl (lt_successorOf c))
  · intro m hm
    by_contra hle
    have hbelow : m < n ++ [successorOf c] := not_le.mp hle
    have habove : n ++ [c] < m := hm (n ++ [c]) (List.prefix_refl _)
    have hprefix : n <+: m := by
      refine Name.prefix_of_between (List.prefix_append n [successorOf c]) (lt_trans ?_ habove) hbelow
      exact Name.lt_of_prefix (List.prefix_append n [c]) (by simp)
    obtain ⟨t, rfl⟩ := hprefix
    rw [Name.append_lt_append_iff] at habove hbelow
    cases t with
    | nil => exact absurd habove (List.not_lt_nil _)
    | cons d t =>
        rcases List.cons_lt_cons_iff.mp habove with hlt | ⟨rfl, -⟩
        · rcases List.cons_lt_cons_iff.mp hbelow with hlt' | ⟨-, hnil⟩
          · exact absurd hlt' (not_lt.mpr (successorOf_le hlt))
          · exact absurd hnil (List.not_lt_nil _)
        · exact lt_irrefl _ (hm (n ++ c :: t) ⟨t, by rw [List.append_assoc]; rfl⟩)

end NfdPitless
