import NfdPitless.Runs
import Mathlib.Algebra.Order.BigOperators.Group.List
import Mathlib.Algebra.Order.Ring.Nat
import Mathlib.Data.List.Perm.Basic
import Mathlib.Logic.Function.Basic

/-! Networks of components that exchange packets over links. A packet that a component sends at a linked
port is in flight to the port at the other end until it is delivered there; packets in flight are
delivered in any order, and a link may lose a packet or duplicate it. At a port that is not linked packets
enter and leave the network. -/

namespace NfdPitless

/-- Components of one interface: what an event does to a state, the packet an event takes in at a port,
and what a state has received and sent so far, in order. -/
structure Components (ν σ ε φ π : Type) where
  step : ν → σ → ε → Option σ
  intake : ε → Option (φ × π)
  received : σ → List (φ × π)
  sent : σ → List (φ × π)
  received_step : ∀ {n s e s'}, step n s e = some s' → received s' = received s ++ (intake e).toList
  sent_step : ∀ {n s e s'}, step n s e = some s' → sent s <+: sent s'

/-- Which ports are linked: the port at the other end. -/
structure Links (ν φ : Type) where
  peer : ν → φ → Option (ν × φ)
  symm : ∀ {n f m g}, peer n f = some (m, g) → peer m g = some (n, f)

structure NetworkState (ν σ φ π : Type) where
  node : ν → σ
  inFlight : List (ν × φ × π)

inductive NetworkEvent (ν ε : Type) where
  /-- The packet at a position of those in flight arrives, and its receiver takes the step `e`. -/
  | deliver (position : Nat) (e : ε)
  /-- A component takes a step that no packet of the network leads to. -/
  | act (n : ν) (e : ε)
  | lose (position : Nat)
  | duplicate (position : Nat)

namespace PacketNetwork

variable {ν σ ε φ π : Type} (C : Components ν σ ε φ π) (L : Links ν φ)

/-- What a component puts on its links by a step from `s` to `s'`. -/
def emitted (n : ν) (s s' : σ) : List (ν × φ × π) :=
  ((C.sent s').drop (C.sent s).length).filterMap fun packet =>
    (L.peer n packet.1).map fun port => (port.1, port.2, packet.2)

section

variable [DecidableEq ν]

/-- A component takes a step. -/
def advance (net : NetworkState ν σ φ π) (n : ν) (e : ε) : Option (NetworkState ν σ φ π) :=
  (C.step n (net.node n) e).map fun s' =>
    { node := Function.update net.node n s', inFlight := net.inFlight ++ emitted C L n (net.node n) s' }

variable [DecidableEq φ] [DecidableEq π]

def step (net : NetworkState ν σ φ π) : NetworkEvent ν ε → Option (NetworkState ν σ φ π)
  | .deliver position e =>
      match net.inFlight[position]? with
      | none => none
      | some (n, f, p) =>
          if C.intake e = some (f, p) then
            advance C L { net with inFlight := net.inFlight.eraseIdx position } n e
          else none
  | .act n e =>
      if (C.intake e).all fun packet => (L.peer n packet.1).isNone then advance C L net n e else none
  | .lose position =>
      if position < net.inFlight.length then
        some { net with inFlight := net.inFlight.eraseIdx position }
      else none
  | .duplicate position =>
      (net.inFlight[position]?).map fun packet => { net with inFlight := net.inFlight ++ [packet] }

end

/-- The steps of the components meet a condition of each. -/
def Meets (ok : ν → σ → ε → Prop) (net : NetworkState ν σ φ π) : NetworkEvent ν ε → Prop
  | .deliver position e => ∀ n f p, net.inFlight[position]? = some (n, f, p) → ok n (net.node n) e
  | .act n e => ok n (net.node n) e
  | .lose _ => True
  | .duplicate _ => True

/-- The step loses nothing. -/
def Lossless : NetworkEvent ν ε → Prop
  | .lose _ => False
  | _ => True

/-- The step duplicates nothing. -/
def Singular : NetworkEvent ν ε → Prop
  | .duplicate _ => False
  | _ => True

/-- Nothing has been received or sent. -/
structure Fresh (net : NetworkState ν σ φ π) : Prop where
  inFlight : net.inFlight = []
  received : ∀ n, C.received (net.node n) = []
  sent : ∀ n, C.sent (net.node n) = []

variable {C L} {ok : ν → σ → ε → Prop} {net net' init : NetworkState ν σ φ π} {event : NetworkEvent ν ε}
  {n m : ν} {f g : φ} {p : π} {e : ε} {s s' : σ}

theorem mem_emitted (h : (m, g, p) ∈ emitted C L n s s') :
    ∃ f, L.peer n f = some (m, g) ∧ (f, p) ∈ C.sent s' := by
  obtain ⟨⟨f, q⟩, hmem, hpeer⟩ := List.mem_filterMap.mp h
  obtain ⟨port, hport, heq⟩ := Option.map_eq_some_iff.mp hpeer
  cases heq
  exact ⟨f, hport, List.mem_of_mem_drop hmem⟩

/-- What is sent in a step at a linked port is put on the link. -/
theorem mem_emitted_of_sent (hstep : C.step n s e = some s') (hpeer : L.peer n f = some (m, g))
    (hsent : (f, p) ∈ C.sent s') : (f, p) ∈ C.sent s ∨ (m, g, p) ∈ emitted C L n s s' := by
  obtain ⟨items, hitems⟩ := C.sent_step hstep
  rw [← hitems] at hsent
  rcases List.mem_append.mp hsent with hold | hnew
  · exact Or.inl hold
  · refine Or.inr (List.mem_filterMap.mpr ⟨(f, p), ?_, ?_⟩)
    · rw [← hitems, List.drop_left]
      exact hnew
    · rw [hpeer]
      rfl

/-- Packets come over their link: those in flight, and those received at a linked port. -/
structure FromPeer (C : Components ν σ ε φ π) (L : Links ν φ) (net : NetworkState ν σ φ π) : Prop where
  inFlight : ∀ {m g p}, (m, g, p) ∈ net.inFlight →
    ∃ n f, L.peer n f = some (m, g) ∧ (f, p) ∈ C.sent (net.node n)
  received : ∀ {n f m g p}, L.peer n f = some (m, g) → (g, p) ∈ C.received (net.node m) →
    (f, p) ∈ C.sent (net.node n)

theorem Fresh.fromPeer (h : Fresh C net) : FromPeer C L net where
  inFlight hmem := by
    rw [h.inFlight] at hmem
    cases hmem
  received _ hmem := by
    rw [h.received] at hmem
    cases hmem

section

variable [DecidableEq ν]

/-- A component takes the step `e` to `s'`. What it takes in entered at a port that is not linked, or was
in flight; what it sends is in flight after the step. -/
structure Advances (C : Components ν σ ε φ π) (L : Links ν φ) (ok : ν → σ → ε → Prop)
    (net net' : NetworkState ν σ φ π) (n : ν) (e : ε) (s' : σ) : Prop where
  meets : ok n (net.node n) e
  step_eq : C.step n (net.node n) e = some s'
  node_eq : net'.node = Function.update net.node n s'
  inFlight_eq : ∃ rest, net'.inFlight = rest ++ emitted C L n (net.node n) s' ∧
    ((rest = net.inFlight ∧ ∀ f p, C.intake e = some (f, p) → L.peer n f = none) ∨
      ∃ f p, C.intake e = some (f, p) ∧ net.inFlight.Perm ((n, f, p) :: rest))

namespace Advances

/-- A packet that a component has received after its step was received before or is taken in. -/
theorem mem_received (h : Advances C L ok net net' n e s') {x : φ × π} (hx : x ∈ C.received (net'.node m)) :
    x ∈ C.received (net.node m) ∨ m = n ∧ C.intake e = some x := by
  rw [h.node_eq] at hx
  by_cases hm : m = n
  · subst hm
    rw [Function.update_self, C.received_step h.step_eq] at hx
    rcases List.mem_append.mp hx with hx | hx
    · exact Or.inl hx
    · exact Or.inr ⟨rfl, Option.mem_toList.mp hx⟩
  · rw [Function.update_of_ne hm] at hx
    exact Or.inl hx

/-- What is taken in has been received. -/
theorem received_of_intake (h : Advances C L ok net net' n e s') {x : φ × π} (hx : C.intake e = some x) :
    x ∈ C.received (net'.node n) := by
  rw [h.node_eq, Function.update_self, C.received_step h.step_eq, hx]
  exact List.mem_append_right _ (List.mem_singleton_self x)

theorem mono (h : Advances C L ok net net' n e s') (m : ν) :
    C.received (net.node m) ⊆ C.received (net'.node m) ∧ C.sent (net.node m) ⊆ C.sent (net'.node m) := by
  rw [h.node_eq]
  by_cases hm : m = n
  · subst hm
    rw [Function.update_self, C.received_step h.step_eq]
    exact ⟨List.subset_append_left _ _, (C.sent_step h.step_eq).subset⟩
  · rw [Function.update_of_ne hm]
    exact ⟨List.Subset.refl _, List.Subset.refl _⟩

theorem origin (h : Advances C L ok net net' n e s') (hintake : C.intake e = some (f, p)) :
    (n, f, p) ∈ net.inFlight ∨ L.peer n f = none := by
  obtain ⟨rest, -, ⟨-, hport⟩ | ⟨f', p', heq, hperm⟩⟩ := h.inFlight_eq
  · exact Or.inr (hport f p hintake)
  · rw [hintake] at heq
    cases heq
    exact Or.inl (hperm.symm.subset List.mem_cons_self)

theorem mem_inFlight (h : Advances C L ok net net' n e s') {x : ν × φ × π} (hx : x ∈ net'.inFlight) :
    x ∈ net.inFlight ∨ x ∈ emitted C L n (net.node n) s' := by
  obtain ⟨rest, heq, hrest⟩ := h.inFlight_eq
  rw [heq] at hx
  refine (List.mem_append.mp hx).imp_left fun hx => ?_
  rcases hrest with ⟨rfl, -⟩ | ⟨f, p, -, hperm⟩
  · exact hx
  · exact hperm.symm.subset (List.mem_cons_of_mem _ hx)

/-- A packet stays in flight unless it is the one taken in. -/
theorem inFlight_kept (h : Advances C L ok net net' n e s') (hx : (m, g, p) ∈ net.inFlight) :
    (m, g, p) ∈ net'.inFlight ∨ m = n ∧ C.intake e = some (g, p) := by
  obtain ⟨rest, heq, hrest⟩ := h.inFlight_eq
  rw [heq]
  rcases hrest with ⟨rfl, -⟩ | ⟨f, q, hintake, hperm⟩
  · exact Or.inl (List.mem_append_left _ hx)
  · rcases List.mem_cons.mp (hperm.subset hx) with hx | hx
    · cases hx
      exact Or.inr ⟨rfl, hintake⟩
    · exact Or.inl (List.mem_append_left _ hx)

/-- A packet on its way to a port, or received there, is so after the step. -/
theorem arrival_kept (h : Advances C L ok net net' n e s')
    (hx : (m, g, p) ∈ net.inFlight ∨ (g, p) ∈ C.received (net.node m)) :
    (m, g, p) ∈ net'.inFlight ∨ (g, p) ∈ C.received (net'.node m) := by
  rcases hx with hflight | hreceived
  · rcases h.inFlight_kept hflight with hflight | ⟨rfl, hintake⟩
    · exact Or.inl hflight
    · exact Or.inr (h.received_of_intake hintake)
  · exact Or.inr ((h.mono m).1 hreceived)

theorem countP_received (h : Advances C L ok net net' n e s') (m : ν) (q : φ × π → Bool) :
    (C.received (net'.node m)).countP q =
      (C.received (net.node m)).countP q + if m = n then (C.intake e).toList.countP q else 0 := by
  rw [h.node_eq]
  split
  · rename_i hm
    rw [hm, Function.update_self, C.received_step h.step_eq, List.countP_append]
  · rename_i hm
    rw [Function.update_of_ne hm, Nat.add_zero]

theorem countP_sent (h : Advances C L ok net net' n e s') (m : ν) (q : φ × π → Bool) :
    (C.sent (net'.node m)).countP q = (C.sent (net.node m)).countP q +
      if m = n then ((C.sent s').drop (C.sent (net.node n)).length).countP q else 0 := by
  rw [h.node_eq]
  split
  · rename_i hm
    rw [hm, Function.update_self, ← List.countP_append,
      List.prefix_iff_eq_append.mp (C.sent_step h.step_eq)]
  · rename_i hm
    rw [Function.update_of_ne hm, Nat.add_zero]

theorem emitted_inFlight (h : Advances C L ok net net' n e s') : emitted C L n (net.node n) s' ⊆ net'.inFlight := by
  obtain ⟨rest, heq, -⟩ := h.inFlight_eq
  rw [heq]
  exact List.subset_append_right _ _

end Advances

theorem FromPeer.advances (h : FromPeer C L net) (hadv : Advances C L ok net net' n e s') : FromPeer C L net' where
  inFlight {m g p} hmem := by
    rcases hadv.mem_inFlight hmem with hold | hnew
    · obtain ⟨n', f, hpeer, hsent⟩ := h.inFlight hold
      exact ⟨n', f, hpeer, (hadv.mono n').2 hsent⟩
    · obtain ⟨f, hpeer, hsent⟩ := mem_emitted hnew
      refine ⟨n, f, hpeer, ?_⟩
      rwa [hadv.node_eq, Function.update_self]
  received {n' f m g p} hpeer hmem := by
    rcases hadv.mem_received hmem with hold | ⟨rfl, hintake⟩
    · exact (hadv.mono n').2 (h.received hpeer hold)
    · rcases hadv.origin hintake with hflight | hnone
      · obtain ⟨n₁, f₁, hpeer₁, hsent⟩ := h.inFlight hflight
        have heq := L.symm hpeer
        rw [L.symm hpeer₁] at heq
        cases heq
        exact (hadv.mono n').2 hsent
      · rw [L.symm hpeer] at hnone
        cases hnone

theorem advance_eq_some (h : advance C L net n e = some net') :
    ∃ s', C.step n (net.node n) e = some s' ∧
      net' = ⟨Function.update net.node n s', net.inFlight ++ emitted C L n (net.node n) s'⟩ := by
  obtain ⟨s', hs', rfl⟩ := Option.map_eq_some_iff.mp h
  exact ⟨s', hs', rfl⟩

end

section Runs

variable [DecidableEq ν] [DecidableEq φ] [DecidableEq π]

theorem deliver_eq_some {position : Nat} (h : step C L net (.deliver position e) = some net') :
    ∃ n f p s', net.inFlight[position]? = some (n, f, p) ∧ C.intake e = some (f, p) ∧
      C.step n (net.node n) e = some s' ∧
      net' = ⟨Function.update net.node n s',
        net.inFlight.eraseIdx position ++ emitted C L n (net.node n) s'⟩ := by
  simp only [step] at h
  split at h
  · cases h
  · rename_i n f p hget
    split at h
    · rename_i hintake
      obtain ⟨s', hs', rfl⟩ := advance_eq_some h
      exact ⟨n, f, p, s', hget, hintake, hs', rfl⟩
    · cases h

/-- A step of the network is a step of one component, or a packet in flight is lost or duplicated. -/
theorem step_cases (h : step C L net event = some net') (hok : Meets ok net event) :
    (∃ n e s', Advances C L ok net net' n e s') ∨
    net'.node = net.node ∧ (¬ Lossless event ∧ net'.inFlight.Sublist net.inFlight ∨
      ¬ Singular event ∧ net'.inFlight ⊆ net.inFlight ∧ net.inFlight ⊆ net'.inFlight) := by
  cases event with
  | deliver position e =>
      obtain ⟨n, f, p, s', hget, hintake, hs', rfl⟩ := deliver_eq_some h
      refine Or.inl ⟨n, e, s', hok n f p hget, hs', rfl, _, rfl, Or.inr ⟨f, p, hintake, ?_⟩⟩
      obtain ⟨hlt, hget⟩ := List.getElem?_eq_some_iff.mp hget
      rw [← hget]
      exact (List.getElem_cons_eraseIdx_perm hlt).symm
  | act n e =>
      simp only [step] at h
      split at h
      · rename_i hport
        obtain ⟨s', hs', rfl⟩ := advance_eq_some h
        refine Or.inl ⟨n, e, s', hok, hs', rfl, _, rfl, Or.inl ⟨rfl, fun f p heq => ?_⟩⟩
        rw [heq] at hport
        simpa using hport
      · cases h
  | lose position =>
      simp only [step] at h
      split at h
      · cases h
        exact Or.inr ⟨rfl, Or.inl ⟨id, List.eraseIdx_sublist _ _⟩⟩
      · cases h
  | duplicate position =>
      obtain ⟨packet, hget, rfl⟩ := Option.map_eq_some_iff.mp h
      refine Or.inr ⟨rfl, Or.inr ⟨id, fun x hx => ?_, List.subset_append_left _ _⟩⟩
      rcases List.mem_append.mp hx with hx | hx
      · exact hx
      · rw [List.mem_singleton.mp hx]
        exact List.mem_of_getElem? hget

/-- In a run of the network each component runs on its own. -/
theorem reach_node (hr : Reach (step C L) (Meets ok) init net) (n : ν) :
    Reach (C.step n) (ok n) (init.node n) (net.node n) := by
  induction hr with
  | start => exact .start
  | next event _ hok hs ih =>
      rcases step_cases hs hok with ⟨m, e, s', hadv⟩ | ⟨hnode, -⟩
      · rw [hadv.node_eq]
        by_cases hn : n = m
        · subst hn
          rw [Function.update_self]
          exact ih.next e hadv.meets hadv.step_eq
        · rw [Function.update_of_ne hn]
          exact ih
      · rw [hnode]
        exact ih

theorem reach_fromPeer (hr : Reach (step C L) (Meets ok) init net) (hinit : Fresh C init) :
    FromPeer C L net := by
  refine hr.invariant hinit.fromPeer fun net event net' h hok hs => ?_
  rcases step_cases hs hok with ⟨n, e, s', hadv⟩ | ⟨hnode, hflight⟩
  · exact h.advances hadv
  · have hsub : net'.inFlight ⊆ net.inFlight := by
      rcases hflight with ⟨-, hsub⟩ | ⟨-, hsub, -⟩
      · exact hsub.subset
      · exact hsub
    refine ⟨fun hmem => ?_, fun hpeer hmem => ?_⟩
    · rw [hnode]
      exact h.inFlight (hsub hmem)
    · rw [hnode] at hmem ⊢
      exact h.received hpeer hmem

/-- If all packets that enter the network satisfy `I`, and a component that has received only such packets
has sent only such packets, then all packets of the network satisfy `I`. -/
theorem packets_satisfy {I : π → Prop} (hr : Reach (step C L) (Meets ok) init net) (hinit : Fresh C init)
    (hlocal : ∀ n s, Reach (C.step n) (ok n) (init.node n) s → (∀ x ∈ C.received s, I x.2) →
      ∀ x ∈ C.sent s, I x.2)
    (henter : ∀ n f p, L.peer n f = none → (f, p) ∈ C.received (net.node n) → I p) (n : ν) :
    (∀ x ∈ C.received (net.node n), I x.2) ∧ ∀ x ∈ C.sent (net.node n), I x.2 := by
  have hall : ∀ n, ∀ x ∈ C.received (net.node n), I x.2 := by
    clear n
    induction hr with
    | start =>
        intro n x hx
        rw [hinit.received] at hx
        cases hx
    | next event hr hok hs ih =>
        rcases step_cases hs hok with ⟨m, e, s', hadv⟩ | ⟨hnode, -⟩
        · have hold := ih fun n f p hport hmem => henter n f p hport ((hadv.mono n).1 hmem)
          rintro n ⟨f, p⟩ hx
          rcases hadv.mem_received hx with hx | ⟨rfl, hintake⟩
          · exact hold n _ hx
          · rcases hadv.origin hintake with hflight | hnone
            · obtain ⟨n', f', -, hsent⟩ := (reach_fromPeer hr hinit).inFlight hflight
              exact hlocal n' _ (reach_node hr n') (hold n') (f', p) hsent
            · exact henter _ f p hnone hx
        · rw [hnode] at henter ⊢
          exact ih henter
  exact ⟨hall n, hlocal n _ (reach_node hr n) (hall n)⟩

/-- The same for what a component keeps from step to step as long as it takes in only such packets. -/
theorem packets_satisfy_of_step {I : π → Prop} {K : ν → σ → Prop} (hr : Reach (step C L) (Meets ok) init net)
    (hinit : Fresh C init) (hstart : ∀ n, K n (init.node n))
    (hstep : ∀ n s e s', K n s → C.step n s e = some s' → (∀ x, C.intake e = some x → I x.2) → K n s')
    (hsent : ∀ n s, K n s → ∀ x ∈ C.sent s, I x.2)
    (henter : ∀ n f p, L.peer n f = none → (f, p) ∈ C.received (net.node n) → I p) (n : ν) :
    (∀ x ∈ C.received (net.node n), I x.2) ∧ ∀ x ∈ C.sent (net.node n), I x.2 := by
  refine packets_satisfy hr hinit (fun n s hreach hreceived => hsent n s ?_) henter n
  induction hreach with
  | start => exact hstart n
  | next e _ _ hs ih =>
      rw [C.received_step hs] at hreceived
      refine hstep n _ e _ (ih fun x hx => hreceived x (List.mem_append_left _ hx)) hs fun x hx => ?_
      exact hreceived x (List.mem_append_right _ (Option.mem_toList.mpr hx))

omit [DecidableEq ν] [DecidableEq φ] [DecidableEq π] in
/-- Nothing is asked of the steps of the components. -/
theorem meets_true (net : NetworkState ν σ φ π) (event : NetworkEvent ν ε) : Meets (fun _ _ _ => True) net event := by
  cases event with
  | deliver position e => exact fun _ _ _ _ => trivial
  | _ => trivial

theorem reach_meets (hr : Reach (step C L) anyStep init net) : Reach (step C L) (Meets fun _ _ _ => True) init net :=
  hr.mono fun net event _ => meets_true net event

/-! ### Packets on a link -/

/-- Without loss, what was sent over a link is in flight or has arrived. -/
theorem sent_arrives (hr : Reach (step C L) (fun net event => Meets ok net event ∧ Lossless event) init net)
    (hinit : Fresh C init) (hpeer : L.peer n f = some (m, g)) (hsent : (f, p) ∈ C.sent (net.node n)) :
    (m, g, p) ∈ net.inFlight ∨ (g, p) ∈ C.received (net.node m) := by
  induction hr with
  | start =>
      rw [hinit.sent] at hsent
      cases hsent
  | next event _ hok hs ih =>
      rcases step_cases hs hok.1 with ⟨n', e, s', hadv⟩ | ⟨hnode, ⟨hlossy, -⟩ | ⟨-, -, hsub⟩⟩
      · by_cases hn : n = n'
        · subst hn
          rw [hadv.node_eq, Function.update_self] at hsent
          rcases mem_emitted_of_sent hadv.step_eq hpeer hsent with hold | hnew
          · exact hadv.arrival_kept (ih hold)
          · exact Or.inl (hadv.emitted_inFlight hnew)
        · rw [hadv.node_eq, Function.update_of_ne hn] at hsent
          exact hadv.arrival_kept (ih hsent)
      · exact absurd hok.2 hlossy
      · rw [hnode] at hsent ⊢
        exact (ih hsent).imp_left fun h => hsub h

/-- A packet at a port that a test selects. -/
def atPort (f : φ) (q : π → Bool) (packet : φ × π) : Bool := packet.1 == f && q packet.2

/-- A packet in flight to a port that a test selects. -/
def toPort (m : ν) (g : φ) (q : π → Bool) (packet : ν × φ × π) : Bool :=
  packet.1 == m && (packet.2.1 == g && q packet.2.2)

omit [DecidableEq ν] [DecidableEq φ] [DecidableEq π] in
theorem peer_eq_iff (hpeer : L.peer n f = some (m, g)) (n' : ν) (f' : φ) :
    L.peer n' f' = some (m, g) ↔ n' = n ∧ f' = f := by
  constructor
  · intro hpeer'
    have heq := L.symm hpeer'
    rw [L.symm hpeer] at heq
    cases heq
    exact ⟨rfl, rfl⟩
  · rintro ⟨rfl, rfl⟩
    exact hpeer

omit [DecidableEq π] in
/-- What a component puts on a link is what it sends at the port of the link. -/
theorem countP_emitted (hpeer : L.peer n f = some (m, g)) (q : π → Bool) (n' : ν) (s s' : σ) :
    (emitted C L n' s s').countP (toPort m g q) =
      if n = n' then ((C.sent s').drop (C.sent s).length).countP (atPort f q) else 0 := by
  have hone : ∀ x : φ × π, (((L.peer n' x.1).map fun port => (port.1, port.2, x.2)).map (toPort m g q)).getD false =
      (decide (n = n') && atPort f q x) := by
    intro x
    have hiff := peer_eq_iff hpeer n' x.1
    by_cases hport : L.peer n' x.1 = some (m, g)
    · obtain ⟨hn, hf⟩ := hiff.mp hport
      rw [hport]
      simp [toPort, atPort, hn, hf]
    · have hnot : ¬ (n' = n ∧ x.1 = f) := fun h => hport (hiff.mpr h)
      have hright : (decide (n = n') && atPort f q x) = false := by
        by_cases hn : n = n'
        · have hf : x.1 ≠ f := fun hf => hnot ⟨hn.symm, hf⟩
          simp [atPort, hf]
        · simp [hn]
      rw [hright]
      cases hpeer' : L.peer n' x.1 with
      | none => rfl
      | some port =>
          obtain ⟨m', g'⟩ := port
          have hne : ¬ (m' = m ∧ g' = g) := by
            rintro ⟨rfl, rfl⟩
            exact hport hpeer'
          by_cases hm : m' = m
          · have hg : g' ≠ g := fun hg => hne ⟨hm, hg⟩
            simp [toPort, hg]
          · simp [toPort, hm]
  rw [emitted, List.countP_filterMap]
  split
  · rename_i hn
    exact List.countP_congr fun x _ => by rw [hone, hn]; simp
  · rename_i hn
    rw [List.countP_eq_zero]
    intro x _
    rw [hone]
    simp [hn]

/-- Without duplication, no more packets have arrived over a link, or are in flight on it, than were sent
over it; this is so for the packets that any test selects. -/
theorem arrived_le_sent (hr : Reach (step C L) (fun net event => Meets ok net event ∧ Singular event) init net)
    (hinit : Fresh C init) (hpeer : L.peer n f = some (m, g)) (q : π → Bool) :
    (C.received (net.node m)).countP (atPort g q) + net.inFlight.countP (toPort m g q) ≤
      (C.sent (net.node n)).countP (atPort f q) := by
  refine hr.invariant (I := fun net => (C.received (net.node m)).countP (atPort g q) +
    net.inFlight.countP (toPort m g q) ≤ (C.sent (net.node n)).countP (atPort f q)) ?_ ?_
  · rw [hinit.received, hinit.inFlight]
    exact Nat.zero_le _
  · intro net event net' h hok hs
    rcases step_cases hs hok.1 with ⟨n', e, s', hadv⟩ | ⟨hnode, ⟨-, hsub⟩ | ⟨hdup, -⟩⟩
    · have hemitted := countP_emitted (C := C) hpeer q n' (net.node n') s'
      have hreceived := hadv.countP_received m (atPort g q)
      have hsent := hadv.countP_sent n (atPort f q)
      obtain ⟨rest, heq, hrest⟩ := hadv.inFlight_eq
      rw [heq, List.countP_append, hemitted, hreceived, hsent]
      have hflight : net.inFlight.countP (toPort m g q) = rest.countP (toPort m g q) +
          if m = n' then (C.intake e).toList.countP (atPort g q) else 0 := by
        rcases hrest with ⟨rfl, hport⟩ | ⟨f', p, hintake, hperm⟩
        · -- the port of the link is not where the packet entered
          split
          · rename_i hm
            have hnone : (C.intake e).toList.countP (atPort g q) = 0 := by
              rw [List.countP_eq_zero]
              rintro ⟨f', p⟩ hx
              rw [Option.mem_toList] at hx
              have hne : f' ≠ g := by
                rintro rfl
                have hlink := L.symm hpeer
                rw [hm, hport f' p hx] at hlink
                cases hlink
              simp [atPort, hne]
            rw [hnone]
            rfl
          · rfl
        · rw [hperm.countP_eq, List.countP_cons, hintake]
          by_cases hm : m = n'
          · simp [toPort, atPort, hm]
          · have hm' : n' ≠ m := fun h => hm h.symm
            simp [toPort, hm, hm']
      omega
    · rw [hnode]
      exact Nat.le_trans (Nat.add_le_add_left hsub.countP_le _) h
    · exact absurd hok.2 hdup

/-- `k` deliveries in a row. -/
inductive Deliveries (C : Components ν σ ε φ π) (L : Links ν φ) (ok : ν → σ → ε → Prop)
    (net : NetworkState ν σ φ π) : Nat → NetworkState ν σ φ π → Prop where
  | none : Deliveries C L ok net 0 net
  | next {k : Nat} {net₁ net₂ : NetworkState ν σ φ π} (position : Nat) (e : ε) : Deliveries C L ok net k net₁ →
      Meets ok net₁ (.deliver position e) → step C L net₁ (.deliver position e) = some net₂ →
      Deliveries C L ok net (k + 1) net₂

theorem Deliveries.reach {k : Nat} (h : Deliveries C L ok net k net')
    (hr : Reach (step C L) (Meets ok) init net) : Reach (step C L) (Meets ok) init net' := by
  induction h with
  | none => exact hr
  | next position e _ hok hs ih => exact ih.next _ hok hs

/-- If every component makes of a packet only packets of less weight in total, there are no more deliveries
in a row than the packets in flight weigh. -/
theorem deliveries_bounded (weight : ν × φ × π → Nat) (hr : Reach (step C L) (Meets ok) init net)
    (hweight : ∀ n s e s' f p, Reach (C.step n) (ok n) (init.node n) s → ok n s e → C.intake e = some (f, p) →
      C.step n s e = some s' → ((emitted C L n s s').map weight).sum < weight (n, f, p))
    {k : Nat} (h : Deliveries C L ok net k net') :
    k + (net'.inFlight.map weight).sum ≤ (net.inFlight.map weight).sum := by
  induction h with
  | none => exact Nat.le_of_eq (Nat.zero_add _)
  | @next k net₁ net₂ position e hdel hok hs ih =>
      obtain ⟨n, f, p, s', hget, hintake, hstep, rfl⟩ := deliver_eq_some hs
      have hless := hweight n _ e s' f p (reach_node (hdel.reach hr) n) (hok n f p hget) hintake hstep
      obtain ⟨hlt, hget⟩ := List.getElem?_eq_some_iff.mp hget
      have hperm := ((List.getElem_cons_eraseIdx_perm hlt).map weight).sum_eq
      rw [hget, List.map_cons, List.sum_cons] at hperm
      rw [List.map_append, List.sum_append]
      omega

theorem deliveries_le {weight : ν × φ × π → Nat} {bound : Nat} (hr : Reach (step C L) (Meets ok) init net)
    (hweight : ∀ n s e s' f p, Reach (C.step n) (ok n) (init.node n) s → ok n s e → C.intake e = some (f, p) →
      C.step n s e = some s' → ((emitted C L n s s').map weight).sum < weight (n, f, p))
    (hbound : ∀ packet, weight packet ≤ bound) {k : Nat} (h : Deliveries C L ok net k net') :
    k ≤ bound * net.inFlight.length := by
  have hbounded := deliveries_bounded weight hr hweight h
  have hsum := List.sum_le_card_nsmul (net.inFlight.map weight) bound fun w hw => by
    obtain ⟨packet, -, rfl⟩ := List.mem_map.mp hw
    exact hbound packet
  rw [List.length_map, Nat.nsmul_eq_mul, Nat.mul_comm] at hsum
  omega

/-- A packet in flight can be delivered. -/
def Deliverable (C : Components ν σ ε φ π) (L : Links ν φ) (ok : ν → σ → ε → Prop) (net : NetworkState ν σ φ π)
    (position : Nat) : Prop :=
  ∃ e net', Meets ok net (.deliver position e) ∧ step C L net (.deliver position e) = some net'

/-- It can if the component takes it. -/
theorem deliverable_iff {position : Nat} (hget : net.inFlight[position]? = some (n, f, p)) :
    Deliverable C L ok net position ↔
      ∃ e s', C.intake e = some (f, p) ∧ ok n (net.node n) e ∧ C.step n (net.node n) e = some s' := by
  constructor
  · rintro ⟨e, net', hok, hs⟩
    obtain ⟨n', f', p', s', hget', hintake, hs', -⟩ := deliver_eq_some hs
    cases hget.symm.trans hget'
    exact ⟨e, s', hintake, hok n f p hget, hs'⟩
  · rintro ⟨e, s', hintake, hok, hs'⟩
    have hstep : step C L net (.deliver position e) =
        (C.step n (net.node n) e).map fun s' =>
          ⟨Function.update net.node n s', net.inFlight.eraseIdx position ++ emitted C L n (net.node n) s'⟩ := by
      simp only [step, hget, hintake, if_true, advance]
    rw [hs'] at hstep
    refine ⟨e, _, fun n' f' p' heq => ?_, hstep⟩
    cases hget.symm.trans heq
    exact hok

end Runs

end PacketNetwork
end NfdPitless
