import NfdPitless.RemoteRegistrator

/-! The identity that signs a registration with the hub. `registerPrefix` has the identity in hand; when the hub is
connected again, `redoRegistration` has only the prefix that was registered, and signs by that. -/

namespace NfdPitless.RemoteRegistrator

variable {C : RegistratorConfig} {s s' : RemoteRegistrator} {name registered identity : Name} {identities : List Name}
  {route : Route} {event : Event} {t t' : Traced RemoteRegistrator Event}

/-- The prefix that an identity stands for. -/
def standsFor (identity : Name) : Name :=
  if identity.getLast? = some ignoreComponent then identity.dropLast else identity

/-- The first identity of the key chain that stands for a prefix. -/
def identityFor (identities : List Name) (registered : Name) : Option Name :=
  identities.find? fun identity => standsFor identity == registered

/-- What `registerPrefix` registers for a name, and the identity that it signs with. -/
def registration (C : RegistratorConfig) (s : RemoteRegistrator) (name : Name) : Option (Name × Name) :=
  if Name.isPrefixOf localRegistrationPrefix name then none
  else if name = remoteHubPrefix then none
  else if !s.hasConnectedHub then none
  else
    let identity := findIdentityForRegistration C.identities name
    if identity.2 = 0 then none
    else if s.isRegistered (prefixForRegistration identity) then none
    else some (prefixForRegistration identity, identity.1)

/-- The registration that a step starts in `registerPrefix`. -/
def registrationOn (C : RegistratorConfig) (s : RemoteRegistrator) : Event → Option (Name × Name)
  | .insert name _ => if (s.rib.entries name).isNone then registration C s name else none
  | _ => none

/-- `registerPrefix` has registered the prefix before, signed by the identity. -/
def RegisteredAs (C : RegistratorConfig) (t : Traced RemoteRegistrator Event) (registered identity : Name) : Prop :=
  ∃ before ∈ t.history, registrationOn C before.1 before.2 = some (registered, identity)

/-- A command is signed by the identity that `registerPrefix` has signed with, whenever it was. -/
structure SignedAsRegistered (C : RegistratorConfig) (t : Traced RemoteRegistrator Event) (command : RemoteCommand) :
    Prop where
  registered : RegisteredAs C t command.name command.signingIdentity
  only : ∀ identity, RegisteredAs C t command.name identity → identity = command.signingIdentity

/-- A state of a run, with the run. -/
def Run (C : RegistratorConfig) (t : Traced RemoteRegistrator Event) : Prop :=
  Reach (Traced.next (step C)) anyStep (Traced.start init) t

/-- In every run, all that is registered again with a hub is signed as it was at first. -/
def RedoSignsAsRegistered (C : RegistratorConfig) : Prop :=
  ∀ t, Run C t → ∀ route s', (t.state.rib.entries remoteHubPrefix).isNone →
    step C t.state (.insert remoteHubPrefix route) = some s' →
    ∀ command ∈ s'.commands.drop t.state.commands.length, SignedAsRegistered C t command

theorem matchIdentity_eq (name : Name) (candidate : Name × Nat) (identity : Name) :
    matchIdentity name candidate identity =
      if standsFor identity <+: name ∧ candidate.2 < (standsFor identity).length then
        (identity, (standsFor identity).length)
      else candidate := by
  by_cases hlast : identity.getLast? = some ignoreComponent
  · simp [matchIdentity, standsFor, hlast]
  · simp [matchIdentity, standsFor, hlast]

/-- The loop ends with the candidate of before, or with the first identity for a longer prefix. -/
theorem foldl_matchIdentity (name : Name) (identities : List Name) (candidate : Name × Nat) :
    identities.foldl (matchIdentity name) candidate = candidate ∧
        (∀ identity ∈ identities, standsFor identity <+: name → (standsFor identity).length ≤ candidate.2) ∨
      ∃ identity, identities.foldl (matchIdentity name) candidate = (identity, (standsFor identity).length) ∧
        candidate.2 < (standsFor identity).length ∧ standsFor identity <+: name ∧
        identityFor identities (standsFor identity) = some identity := by
  induction identities generalizing candidate with
  | nil => exact .inl ⟨rfl, fun _ h => absurd h List.not_mem_nil⟩
  | cons first rest ih =>
      rw [List.foldl_cons, matchIdentity_eq]
      by_cases hfirst : standsFor first <+: name ∧ candidate.2 < (standsFor first).length
      · rw [if_pos hfirst]
        rcases ih (first, (standsFor first).length) with ⟨heq, -⟩ | ⟨identity, heq, hlonger, hstarts, hfind⟩
        · exact .inr ⟨first, heq, hfirst.2, hfirst.1, List.find?_cons_of_pos (beq_self_eq_true _)⟩
        · refine .inr ⟨identity, heq, hfirst.2.trans hlonger, hstarts, ?_⟩
          have hne : standsFor first ≠ standsFor identity := fun hsame => by
            rw [hsame] at hlonger
            exact absurd hlonger (Nat.lt_irrefl _)
          exact (List.find?_cons_of_neg (by simpa using hne)).trans hfind
      · rw [if_neg hfirst]
        rcases ih candidate with ⟨heq, hall⟩ | ⟨identity, heq, hlonger, hstarts, hfind⟩
        · exact .inl ⟨heq, List.forall_mem_cons.mpr ⟨fun hp => not_lt.mp fun hlt => hfirst ⟨hp, hlt⟩, hall⟩⟩
        · refine .inr ⟨identity, heq, hlonger, hstarts, ?_⟩
          have hne : standsFor first ≠ standsFor identity := fun hsame => hfirst (hsame ▸ ⟨hstarts, hlonger⟩)
          exact (List.find?_cons_of_neg (by simpa using hne)).trans hfind

theorem prefixForRegistration_standsFor (identity : Name) :
    prefixForRegistration (identity, (standsFor identity).length) = standsFor identity := by
  rw [prefixForRegistration, standsFor]
  split
  · rename_i hlast
    have hpos : 0 < identity.length := List.length_pos_iff_ne_nil.mpr fun hnil => by
      rw [hnil] at hlast
      cases hlast
    have hne : identity.length ≠ identity.dropLast.length := by
      rw [List.length_dropLast]
      omega
    exact if_neg hne
  · rw [if_pos rfl]

/-- A prefix is registered by the first identity that stands for it, whatever name it is registered for. -/
theorem registration_identityFor (h : registration C s name = some (registered, identity)) :
    identityFor C.identities registered = some identity := by
  unfold registration at h
  split at h
  · cases h
  · split at h
    · cases h
    · split at h
      · cases h
      · dsimp only at h
        split at h
        · cases h
        · rename_i hne
          split at h
          · cases h
          · rcases foldl_matchIdentity name C.identities ([], 0) with ⟨heq, -⟩ | ⟨found, heq, -, -, hfind⟩
            · rw [findIdentityForRegistration, heq] at hne
              exact absurd rfl hne
            · rw [findIdentityForRegistration, heq, prefixForRegistration_standsFor] at h
              cases h
              exact hfind

theorem RegisteredAs.identityFor (h : RegisteredAs C t registered identity) :
    identityFor C.identities registered = some identity := by
  obtain ⟨⟨before, event⟩, -, hon⟩ := h
  cases event with
  | insert name route =>
      rw [registrationOn] at hon
      split at hon
      · exact registration_identityFor hon
      · cases hon
  | _ => cases hon

/-- Everything that is recorded, or that will be, was registered by `registerPrefix` at some time. -/
def Remembered (C : RegistratorConfig) (t : Traced RemoteRegistrator Event) : Prop :=
  ∀ registered, t.state.Records registered → ∃ identity, RegisteredAs C t registered identity

theorem RegisteredAs.later (h : RegisteredAs C t registered identity) (hnext : t.next (step C) event = some t') :
    RegisteredAs C t' registered identity := by
  obtain ⟨s', -, rfl⟩ := Option.map_eq_some_iff.mp hnext
  obtain ⟨before, hmem, hon⟩ := h
  exact ⟨before, List.mem_cons_of_mem _ hmem, hon⟩

theorem registerPrefix_eq (C : RegistratorConfig) (s : RemoteRegistrator) (hne : name ≠ remoteHubPrefix) :
    registerPrefix C s name =
      (registration C s name).elim s fun r => s.startRegistration r.1 r.2 C.nRetries := by
  unfold registerPrefix registration
  rw [if_neg hne, if_neg hne]
  dsimp only
  split
  · rfl
  · split
    · rfl
    · split
      · rfl
      · split <;> rfl

/-- What a step records that was not recorded, it registers. -/
theorem step_records (hstep : step C s event = some s') (h : s'.Records registered) :
    s.Records registered ∨ ∃ identity, registrationOn C s event = some (registered, identity) := by
  cases event with
  | insert name route =>
      obtain ⟨rib', -, rfl⟩ := Option.map_eq_some_iff.mp hstep
      rw [registrationOn]
      split at h
      · rename_i hnew
        rw [if_pos hnew]
        by_cases hhub : name = remoteHubPrefix
        · subst hhub
          have hlocal : ¬ Name.isPrefixOf localRegistrationPrefix remoteHubPrefix = true := by decide
          rw [registerPrefix, if_neg hlocal, if_pos rfl] at h
          exact .inl ((redoRegistration_spec C { s with rib := rib', hasConnectedHub := true }).2.2 registered h)
        · rw [registerPrefix_eq C _ hhub] at h
          change Records ((registration C s name).elim _ _) registered at h
          cases hreg : registration C s name with
          | none =>
              rw [hreg] at h
              exact .inl h
          | some r =>
              rw [hreg, Option.elim_some] at h
              rcases startRegistration_records.mp h with h | rfl
              · exact .inl h
              · exact .inr ⟨r.2, rfl⟩
      · exact .inl h
  | erase name route =>
      obtain ⟨rib', -, rfl⟩ := Option.map_eq_some_iff.mp hstep
      split at h
      · by_cases hhub : name = remoteHubPrefix
        · rw [unregisterPrefix, if_pos hhub] at h
          exact .inl (h.imp_left fun hr =>
            (isRegistered_map (s := s) (f := fun e => { e with refresh := none }) fun _ => rfl).symm.trans hr)
        · exact .inl ((unregisterPrefix_spec C { s with rib := rib' } hhub).2.2 registered h).1
      · exact .inl h
  | onResponse i isSuccess => exact .inl ((onResponse_records hstep).2.2 registered h)
  | onRefresh name => exact .inl ((onRefresh_records hstep).2.2 registered h)

theorem run_remembered (hr : Run C t) : Remembered C t := by
  refine hr.invariant ?_ fun t event t' ih _ hnext registered h => ?_
  · rintro registered (h | ⟨command, hmem, -⟩)
    · cases h
    · cases hmem
  · obtain ⟨s', hstep, rfl⟩ := Option.map_eq_some_iff.mp hnext
    rcases step_records hstep h with h | ⟨identity, hon⟩
    · exact (ih registered h).imp fun identity hi => hi.later hnext
    · exact ⟨identity, (t.state, event), List.mem_cons_self, hon⟩

theorem foldl_startRegistration_commands (entries : List RegisteredEntry) (nRetries : Int) (s : RemoteRegistrator) :
    (entries.foldl (fun s e => s.startRegistration e.name e.name nRetries) s).commands =
      s.commands ++ entries.map fun e => ⟨.register, e.name, e.name, nRetries⟩ := by
  induction entries generalizing s with
  | nil => rw [List.foldl_nil, List.map_nil, List.append_nil]
  | cons e entries ih =>
      rw [List.foldl_cons, ih, List.map_cons, startRegistration, List.append_assoc]
      rfl

/-- A hub that is connected gets a registration of every recorded prefix, signed by the prefix. -/
theorem step_hub_commands (hnew : (s.rib.entries remoteHubPrefix).isNone)
    (hstep : step C s (.insert remoteHubPrefix route) = some s') :
    s'.commands = s.commands ++ s.regEntries.map fun e => ⟨.register, e.name, e.name, C.nRetries⟩ := by
  obtain ⟨rib', -, rfl⟩ := Option.map_eq_some_iff.mp hstep
  have hlocal : ¬ Name.isPrefixOf localRegistrationPrefix remoteHubPrefix = true := by decide
  rw [if_pos hnew, registerPrefix, if_neg hlocal, if_pos rfl, redoRegistration, foldl_startRegistration_commands]

/-- All that a hub gets is signed as it was at first exactly when the key chain has every recorded prefix itself as the
first identity that stands for it. -/
theorem redoRegistration_signs_iff (hr : Run C t) (hnew : (t.state.rib.entries remoteHubPrefix).isNone)
    (hstep : step C t.state (.insert remoteHubPrefix route) = some s') :
    (∀ command ∈ s'.commands.drop t.state.commands.length, SignedAsRegistered C t command) ↔
      ∀ e ∈ t.state.regEntries, identityFor C.identities e.name = some e.name := by
  rw [step_hub_commands hnew hstep, List.drop_left, List.forall_mem_map]
  refine forall₂_congr fun e he => ?_
  obtain ⟨identity, hidentity⟩ := run_remembered hr e.name (.inl (isRegistered_iff.mpr ⟨e, he, rfl⟩))
  constructor
  · exact fun hsigned => hsigned.registered.identityFor
  · intro hself
    have hsame : ∀ identity, RegisteredAs C t e.name identity → identity = e.name := fun identity hi =>
      Option.some_inj.mp (hi.identityFor.symm.trans hself)
    exact ⟨hsame identity hidentity ▸ hidentity, hsame⟩

/-- A hub is connected, `/A` is registered for `/A/B`, and the hub is gone. -/
def hubGone : List Event := registeredIdentity ++ [.erase remoteHubPrefix ⟨1, 0, 0, 10⟩]

/-- With the identity `/A` the registration is repeated as it was. -/
theorem redoRegistration_signs_self :
    ∃ t s', exec (Traced.next (step oneIdentity)) (Traced.start init) hubGone = some t ∧
      step oneIdentity t.state (.insert remoteHubPrefix ⟨1, 0, 0, 10⟩) = some s' ∧
      (s'.commands.drop t.state.commands.length).length = 1 ∧
      ∀ command ∈ s'.commands.drop t.state.commands.length, SignedAsRegistered oneIdentity t command := by
  have hrun : ((exec (Traced.next (step oneIdentity)) (Traced.start init) hubGone).any fun t =>
      (t.state.rib.entries remoteHubPrefix).isNone &&
        decide (∀ e ∈ t.state.regEntries, identityFor oneIdentity.identities e.name = some e.name) &&
        (step oneIdentity t.state (.insert remoteHubPrefix ⟨1, 0, 0, 10⟩)).any fun s' =>
          (s'.commands.drop t.state.commands.length).length == 1) = true := by decide +kernel
  obtain ⟨t, ht, hrun⟩ := (Option.any_eq_true _ _).mp hrun
  rw [Bool.and_eq_true, Bool.and_eq_true, Option.any_eq_true] at hrun
  obtain ⟨⟨hnew, hself⟩, s', hstep, hlength⟩ := hrun
  exact ⟨t, s', ht, hstep, beq_iff_eq.mp hlength,
    (redoRegistration_signs_iff (reach_of_exec .start ht) hnew hstep).mpr (of_decide_eq_true hself)⟩

/-- The only identity is `/A/rib`. -/
def identityWithRib : RegistratorConfig := ⟨[[.ofByte 65, ignoreComponent]], 0⟩

/-- `/A` is registered by `/A/rib`, and again by `/A`, which is no identity. -/
theorem redoRegistration_signs_otherwise : ¬ RedoSignsAsRegistered identityWithRib := by
  have hrun : ((exec (Traced.next (step identityWithRib)) (Traced.start init) hubGone).any fun t =>
      (t.state.rib.entries remoteHubPrefix).isNone &&
        (step identityWithRib t.state (.insert remoteHubPrefix ⟨1, 0, 0, 10⟩)).any fun s' =>
          decide (⟨.register, [.ofByte 65], [.ofByte 65], 0⟩ ∈ s'.commands.drop t.state.commands.length)) = true := by
    decide +kernel
  have hfirst : identityFor identityWithRib.identities [.ofByte 65] ≠ some [.ofByte 65] := by decide +kernel
  intro h
  obtain ⟨t, ht, hrun⟩ := (Option.any_eq_true _ _).mp hrun
  rw [Bool.and_eq_true, Option.any_eq_true] at hrun
  obtain ⟨hnew, s', hstep, hmem⟩ := hrun
  exact hfirst (h t (reach_of_exec .start ht) _ s' hnew hstep _ (of_decide_eq_true hmem)).registered.identityFor

end NfdPitless.RemoteRegistrator
