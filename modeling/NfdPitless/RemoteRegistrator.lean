import NfdPitless.RibSteps
import NfdPitless.Runs
import NfdPitless.Packet

/-! Registration of local prefixes with a remote hub (`rib/remote-registrator.cpp`). What is registered is not the
prefix of a RIB entry but the identity that signs for it. A registration is recorded when its response arrives, and the
hub is the one whose prefix is in the RIB. -/

namespace NfdPitless

/-- The key chain (`getAllIdentities`, the default one last) and the number of retries. -/
structure RegistratorConfig where
  identities : List Name
  nRetries : Int

inductive RemoteVerb where
  | register
  | unregister
  deriving DecidableEq

/-- A command to the hub that has no response yet. -/
structure RemoteCommand where
  verb : RemoteVerb
  name : Name
  signingIdentity : Name
  nRetries : Int
  deriving DecidableEq

/-- A registered prefix with the refresh that is scheduled for it, by the identity that signs it. A refresh that has
begun, or has been cancelled, is `none`. -/
structure RegisteredEntry where
  name : Name
  refresh : Option Name
  deriving DecidableEq

structure RemoteRegistrator where
  rib : Rib
  hasConnectedHub : Bool
  regEntries : List RegisteredEntry
  commands : List RemoteCommand

namespace RemoteRegistrator

def localRegistrationPrefix : Name := localhostName

def remoteHubPrefix : Name := localhopName ++ [⟨false, [110, 102, 100]⟩]

def ignoreComponent : Component := ⟨false, [114, 105, 98]⟩

def init : RemoteRegistrator := { rib := .empty, hasConnectedHub := false, regEntries := [], commands := [] }

/-- One turn of the loop over the identities. -/
def matchIdentity (name : Name) (candidate : Name × Nat) (identity : Name) : Name × Nat :=
  let (isPrefix, curLength) :=
    if identity.getLast? = some ignoreComponent then
      (Name.isPrefixOf identity.dropLast name, identity.length - 1)
    else (Name.isPrefixOf identity name, identity.length)
  if isPrefix && curLength > candidate.2 then (identity, curLength) else candidate

/-- The first identity of the longest match; the length is zero when there is none. -/
def findIdentityForRegistration (identities : List Name) (name : Name) : Name × Nat :=
  identities.foldl (matchIdentity name) ([], 0)

/-- The identity without an ignored component at its end. -/
def prefixForRegistration (identity : Name × Nat) : Name :=
  if identity.1.length = identity.2 then identity.1 else identity.1.dropLast

/-- What is registered for a name. -/
def registrationOf (C : RegistratorConfig) (name : Name) : Option Name :=
  let identity := findIdentityForRegistration C.identities name
  if identity.2 = 0 then none else some (prefixForRegistration identity)

def isRegistered (s : RemoteRegistrator) (name : Name) : Bool := s.regEntries.any fun e => e.name == name

def startRegistration (s : RemoteRegistrator) (name signingIdentity : Name) (nRetries : Int) : RemoteRegistrator :=
  { s with commands := s.commands ++ [⟨.register, name, signingIdentity, nRetries⟩] }

def startUnregistration (s : RemoteRegistrator) (name signingIdentity : Name) (nRetries : Int) : RemoteRegistrator :=
  { s with commands := s.commands ++ [⟨.unregister, name, signingIdentity, nRetries⟩] }

/-- All recorded prefixes are registered with the new hub. -/
def redoRegistration (C : RegistratorConfig) (s : RemoteRegistrator) : RemoteRegistrator :=
  s.regEntries.foldl (fun s e => s.startRegistration e.name e.name C.nRetries) s

def clearRefreshEvents (s : RemoteRegistrator) : RemoteRegistrator :=
  { s with regEntries := s.regEntries.map fun e => { e with refresh := none } }

/-- After an entry was inserted into the RIB. -/
def registerPrefix (C : RegistratorConfig) (s : RemoteRegistrator) (name : Name) : RemoteRegistrator :=
  if Name.isPrefixOf localRegistrationPrefix name then s
  else if name = remoteHubPrefix then redoRegistration C { s with hasConnectedHub := true }
  else if !s.hasConnectedHub then s
  else
    let identity := findIdentityForRegistration C.identities name
    if identity.2 = 0 then s
    else if s.isRegistered (prefixForRegistration identity) then s
    else s.startRegistration (prefixForRegistration identity) identity.1 C.nRetries

/-- After an entry was erased from the RIB. -/
def unregisterPrefix (C : RegistratorConfig) (s : RemoteRegistrator) (name : Name) : RemoteRegistrator :=
  if name = remoteHubPrefix then clearRefreshEvents { s with hasConnectedHub := false }
  else if !s.hasConnectedHub then s
  else
    let identity := findIdentityForRegistration C.identities name
    let registered := prefixForRegistration identity
    if identity.2 = 0 then s
    else if !s.isRegistered registered then s
    else if s.rib.names.any fun other => Name.isPrefixOf registered other &&
        findIdentityForRegistration C.identities other == identity then s
    else
      { s with regEntries := s.regEntries.filter fun e => e.name != registered }.startUnregistration registered
        identity.1 C.nRetries

def setRefresh (s : RemoteRegistrator) (name : Name) (refresh : Option Name) : RemoteRegistrator :=
  { s with regEntries := s.regEntries.map fun e => if e.name = name then { e with refresh } else e }

/-- The registration is recorded, and its refresh scheduled. -/
def onRegSuccess (s : RemoteRegistrator) (name signingIdentity : Name) : RemoteRegistrator :=
  if s.isRegistered name then s.setRefresh name (some signingIdentity)
  else { s with regEntries := s.regEntries ++ [⟨name, some signingIdentity⟩] }

def onRegFailure (s : RemoteRegistrator) (command : RemoteCommand) : RemoteRegistrator :=
  if command.nRetries > 0 then s.startRegistration command.name command.signingIdentity (command.nRetries - 1) else s

def onUnregFailure (s : RemoteRegistrator) (command : RemoteCommand) : RemoteRegistrator :=
  if command.nRetries > 0 then s.startUnregistration command.name command.signingIdentity (command.nRetries - 1) else s

/-- The `i`-th command is answered. -/
def onResponse (s : RemoteRegistrator) (i : Nat) (isSuccess : Bool) : Option RemoteRegistrator :=
  (s.commands[i]?).map fun command =>
    let s := { s with commands := s.commands.eraseIdx i }
    match command.verb, isSuccess with
    | .register, true => s.onRegSuccess command.name command.signingIdentity
    | .register, false => s.onRegFailure command
    | .unregister, true => s
    | .unregister, false => s.onUnregFailure command

/-- The refresh of a registration that is due. -/
def onRefresh (C : RegistratorConfig) (s : RemoteRegistrator) (name : Name) : Option RemoteRegistrator :=
  (s.regEntries.find? fun e => e.name == name).bind fun entry => entry.refresh.map fun signingIdentity =>
    (s.setRefresh name none).startRegistration name signingIdentity C.nRetries

inductive Event where
  | insert (name : Name) (route : Route)
  | erase (name : Name) (route : Route)
  | onResponse (i : Nat) (isSuccess : Bool)
  | onRefresh (name : Name)

/-- The last route of an entry is erased, and the entry with it. -/
def erasesEntry (s : RemoteRegistrator) (name : Name) (route : Route) : Bool :=
  (s.rib.entries name).isSome && (s.rib.erase name route).any fun rib => (rib.entries name).isNone

/-- The RIB signals new entries and entries that are gone. -/
def step (C : RegistratorConfig) (s : RemoteRegistrator) : Event → Option RemoteRegistrator
  | .insert name route => (s.rib.insert name route).map fun rib =>
      if (s.rib.entries name).isNone then registerPrefix C { s with rib } name else { s with rib }
  | .erase name route => (s.rib.erase name route).map fun rib =>
      if s.erasesEntry name route then unregisterPrefix C { s with rib } name else { s with rib }
  | .onResponse i isSuccess => s.onResponse i isSuccess
  | .onRefresh name => onRefresh C s name

variable {C : RegistratorConfig} {s s' : RemoteRegistrator} {rib rib' : Rib} {name other registered : Name}
  {route : Route} {event : Event}

/-- A match is a prefix of the name, of the length found. -/
def IsMatch (name : Name) (candidate : Name × Nat) : Prop :=
  candidate.2 = 0 ∨ (prefixForRegistration candidate <+: name ∧ (prefixForRegistration candidate).length = candidate.2)

theorem matchIdentity_isMatch (name : Name) {candidate : Name × Nat} (h : IsMatch name candidate) (identity : Name) :
    IsMatch name (matchIdentity name candidate identity) := by
  have hfull : Name.isPrefixOf identity name = true → IsMatch name (identity, identity.length) := fun hp => by
    refine .inr ?_
    rw [prefixForRegistration, if_pos rfl]
    exact ⟨Name.isPrefixOf_iff.mp hp, rfl⟩
  have hpart : identity.getLast? = some ignoreComponent → Name.isPrefixOf identity.dropLast name = true →
      IsMatch name (identity, identity.length - 1) := fun hlast hp => by
    have hne : identity ≠ [] := fun hnil => by
      rw [hnil] at hlast
      cases hlast
    have hlength : identity.length ≠ identity.length - 1 := by
      have := List.length_pos_of_ne_nil hne
      omega
    refine .inr ?_
    rw [prefixForRegistration, if_neg hlength]
    exact ⟨Name.isPrefixOf_iff.mp hp, List.length_dropLast⟩
  rw [matchIdentity]
  by_cases hlast : identity.getLast? = some ignoreComponent
  · simp only [if_pos hlast]
    split
    · rename_i hmatch
      exact hpart hlast (Bool.and_eq_true_iff.mp hmatch).1
    · exact h
  · simp only [if_neg hlast]
    split
    · rename_i hmatch
      exact hfull (Bool.and_eq_true_iff.mp hmatch).1
    · exact h

theorem findIdentityForRegistration_isMatch (identities : List Name) (name : Name) :
    IsMatch name (findIdentityForRegistration identities name) := by
  have hall : ∀ candidate, IsMatch name candidate → IsMatch name (identities.foldl (matchIdentity name) candidate) := by
    induction identities with
    | nil => exact fun _ h => h
    | cons identity identities ih => exact fun _ h => ih _ (matchIdentity_isMatch name h identity)
  exact hall _ (.inl rfl)

theorem registrationOf_eq_some : registrationOf C name = some registered ↔
    (findIdentityForRegistration C.identities name).2 ≠ 0 ∧
      prefixForRegistration (findIdentityForRegistration C.identities name) = registered := by
  rw [registrationOf]
  split
  · rename_i hzero
    exact iff_of_false (fun h => nomatch h) fun h => h.1 hzero
  · rename_i hne
    rw [Option.some_inj, and_iff_right hne]

theorem registrationOf_prefix (h : registrationOf C name = some registered) :
    registered <+: name ∧ registered ≠ [] := by
  obtain ⟨hne, rfl⟩ := registrationOf_eq_some.mp h
  obtain ⟨hpre, hlength⟩ := (findIdentityForRegistration_isMatch C.identities name).resolve_left hne
  refine ⟨hpre, fun hnil => hne ?_⟩
  rw [← hlength, hnil]
  rfl

/-- What is registered for a prefix outside `/localhost` is registered for no name inside. -/
theorem not_local_of_prefix (h : registrationOf C name = some registered)
    (hlocal : ¬ localRegistrationPrefix <+: name)
    (hother : registered <+: other) : ¬ localRegistrationPrefix <+: other := by
  obtain ⟨hpre, hne⟩ := registrationOf_prefix h
  intro hlocal'
  obtain ⟨c, rest, rfl⟩ := List.exists_cons_of_ne_nil hne
  obtain ⟨t, rfl⟩ := hother
  obtain ⟨u, rfl⟩ := hpre
  refine hlocal ?_
  rw [localRegistrationPrefix, localhostName, List.cons_append, List.cons_prefix_cons] at hlocal' ⊢
  exact ⟨hlocal'.1, List.nil_prefix⟩

/-- Some entry, or the hub's own prefix, is registered as this. -/
def Backed (C : RegistratorConfig) (rib : Rib) (registered : Name) : Prop :=
  ∃ name, (name = remoteHubPrefix ∨ name ∈ rib.names) ∧ ¬ localRegistrationPrefix <+: name ∧
    registrationOf C name = some registered

theorem Backed.mono (h : Backed C rib registered) (hnames : ∀ n ∈ rib.names, n ∈ rib'.names) :
    Backed C rib' registered := by
  obtain ⟨n, hn, hrest⟩ := h
  exact ⟨n, hn.imp_right (hnames n), hrest⟩

/-- What is recorded, or will be when its response arrives. -/
def Records (s : RemoteRegistrator) (registered : Name) : Prop :=
  s.isRegistered registered = true ∨ ∃ command ∈ s.commands, command.verb = .register ∧ command.name = registered

/-- Every recorded prefix has an entry. -/
structure Consistent (C : RegistratorConfig) (s : RemoteRegistrator) : Prop where
  valid : s.rib.Valid
  hub : s.hasConnectedHub = true → remoteHubPrefix ∈ s.rib.names
  backed : ∀ registered, s.Records registered → Backed C s.rib registered

/-- After a change of the recorded prefixes only. -/
theorem Consistent.of_records (h : Consistent C s) (hrib : s'.rib = s.rib)
    (hhub : s'.hasConnectedHub = true → s.hasConnectedHub = true)
    (hrecords : ∀ registered, s'.Records registered → s.Records registered) : Consistent C s' where
  valid := hrib ▸ h.valid
  hub hconnected := hrib ▸ h.hub (hhub hconnected)
  backed registered hr := hrib ▸ h.backed registered (hrecords registered hr)

theorem isRegistered_iff : s.isRegistered registered = true ↔ ∃ e ∈ s.regEntries, e.name = registered := by
  rw [isRegistered, List.any_eq_true]
  exact exists_congr fun e => and_congr_right fun _ => beq_iff_eq

theorem isRegistered_map {f : RegisteredEntry → RegisteredEntry} (hf : ∀ e, (f e).name = e.name) :
    (s.regEntries.map f).any (fun e => e.name == registered) = s.isRegistered registered := by
  rw [List.any_map, isRegistered]
  exact congrArg _ (funext fun e => congrArg (· == registered) (hf e))

theorem setRefresh_records (s : RemoteRegistrator) (name : Name) (refresh : Option Name) :
    (s.setRefresh name refresh).Records registered ↔ s.Records registered := by
  refine or_congr_left (Iff.of_eq (congrArg (· = true) (isRegistered_map fun e => ?_)))
  split <;> rfl

theorem startRegistration_records {signingIdentity : Name} {nRetries : Int} :
    (s.startRegistration name signingIdentity nRetries).Records registered ↔ s.Records registered ∨
    registered = name := by
  rw [Records, Records, or_assoc]
  refine or_congr_right ?_
  rw [startRegistration]
  constructor
  · rintro ⟨command, hmem, hverb, rfl⟩
    rcases List.mem_append.mp hmem with hmem | hmem
    · exact .inl ⟨command, hmem, hverb, rfl⟩
    · cases List.mem_singleton.mp hmem
      exact .inr rfl
  · rintro (⟨command, hmem, hrest⟩ | rfl)
    · exact ⟨command, List.mem_append_left _ hmem, hrest⟩
    · exact ⟨_, List.mem_append_right _ (List.mem_singleton_self _), rfl, rfl⟩

theorem startUnregistration_records {signingIdentity : Name} {nRetries : Int}
    (h : (s.startUnregistration name signingIdentity nRetries).Records registered) : s.Records registered := by
  refine h.imp_right ?_
  rintro ⟨command, hmem, hverb, hname⟩
  rcases List.mem_append.mp hmem with hmem | hmem
  · exact ⟨command, hmem, hverb, hname⟩
  · cases List.mem_singleton.mp hmem
    cases hverb

theorem foldl_startRegistration (entries : List RegisteredEntry) (nRetries : Int) :
    ∀ s : RemoteRegistrator,
      let s' := entries.foldl (fun s e => s.startRegistration e.name e.name nRetries) s
      s'.rib = s.rib ∧ s'.hasConnectedHub = s.hasConnectedHub ∧
        ∀ registered, s'.Records registered → s.Records registered ∨ ∃ e ∈ entries, e.name = registered := by
  induction entries with
  | nil => exact fun s => ⟨rfl, rfl, fun _ h => .inl h⟩
  | cons e entries ih =>
      intro s
      obtain ⟨hrib, hhub, hrecords⟩ := ih (s.startRegistration e.name e.name nRetries)
      refine ⟨hrib, hhub, fun registered hr => ?_⟩
      rcases hrecords registered hr with hr | ⟨x, hx, hname⟩
      · exact (startRegistration_records.mp hr).imp_right fun heq => ⟨e, List.mem_cons_self, heq.symm⟩
      · exact .inr ⟨x, List.mem_cons_of_mem _ hx, hname⟩

/-- With a new hub nothing is registered that was not recorded. -/
theorem redoRegistration_spec (C : RegistratorConfig) (s : RemoteRegistrator) :
    (redoRegistration C s).rib = s.rib ∧ (redoRegistration C s).hasConnectedHub = s.hasConnectedHub ∧
      ∀ registered, (redoRegistration C s).Records registered → s.Records registered := by
  obtain ⟨hrib, hhub, hrecords⟩ := foldl_startRegistration s.regEntries C.nRetries s
  exact ⟨hrib, hhub, fun registered hr => (hrecords registered hr).elim id fun hr => .inl (isRegistered_iff.mpr hr)⟩

theorem mem_names_of_extends {entries : Name → Option RibEntry} (hv : rib.Valid) (h : rib.Extends entries) (n : Name) :
    n ∈ rib.names ↔ (entries n).isSome = true := by
  obtain ⟨parent, children, hn⟩ := h n
  rw [hv.mem_names, Rib.Has, hn, Option.isSome_map]

theorem insert_names (hv : rib.Valid) (h : rib.insert name route = some rib') (n : Name) :
    n ∈ rib'.names ↔ n = name ∨ n ∈ rib.names := by
  obtain ⟨hv', hextends⟩ := hv.insert h
  rw [mem_names_of_extends hv' hextends, hv.mem_names, Rib.Has, Function.update_apply]
  split
  · rename_i heq
    exact iff_of_true rfl (.inl heq)
  · rename_i hne
    exact (or_iff_right hne).symm

theorem erase_names (hv : rib.Valid) (h : rib.erase name route = some rib') {n : Name} (hne : n ≠ name) :
    n ∈ rib'.names ↔ n ∈ rib.names := by
  obtain ⟨hv', hextends⟩ := hv.erase h
  rw [mem_names_of_extends hv' hextends, hv.mem_names, Rib.Has, Rib.entriesWithout]
  cases rib.entries name with
  | none => rfl
  | some e =>
      dsimp only
      split
      · rfl
      · rw [Function.update_of_ne hne]

/-! ### The invariant -/

theorem init_consistent (C : RegistratorConfig) : Consistent C init where
  valid := .empty
  hub h := nomatch h
  backed registered h := by
    rcases h with h | ⟨command, hmem, -⟩
    · exact nomatch h
    · exact absurd hmem List.not_mem_nil

theorem Consistent.insert (h : Consistent C s) (hrib : s.rib.insert name route = some rib') :
    Consistent C { s with rib := rib' } where
  valid := (h.valid.insert hrib).1
  hub hconnected := (insert_names h.valid hrib _).mpr (.inr (h.hub hconnected))
  backed registered hr := (h.backed registered hr).mono fun n hn => (insert_names h.valid hrib n).mpr (.inr hn)

/-- A new entry is registered as its own identity. -/
theorem Consistent.registerPrefix (h : Consistent C s) (hname : name ∈ s.rib.names) :
    Consistent C (registerPrefix C s name) := by
  rw [RemoteRegistrator.registerPrefix]
  split
  · exact h
  · rename_i hlocal
    split
    · rename_i hhub
      obtain ⟨hrib, hconnected, hrecords⟩ := redoRegistration_spec C { s with hasConnectedHub := true }
      refine ⟨by rw [hrib]; exact h.valid, fun _ => ?_, fun registered hr => ?_⟩
      · rw [hrib]
        exact hhub ▸ hname
      · rw [hrib]
        exact h.backed registered (hrecords registered hr)
    · split
      · exact h
      · dsimp only
        split
        · exact h
        · rename_i hne
          split
          · exact h
          · exact {
              valid := h.valid
              hub := h.hub
              backed := fun registered hr => by
                rcases startRegistration_records.mp hr with hr | heq
                · exact h.backed registered hr
                · exact ⟨name, .inr hname, fun hp => hlocal (Name.isPrefixOf_iff.mpr hp),
                    registrationOf_eq_some.mpr ⟨hne, heq.symm⟩⟩ }

/-- Another entry than `name`, or the hub's own prefix, is registered as this. -/
def isBackedWithout (C : RegistratorConfig) (s : RemoteRegistrator) (name registered : Name) : Bool :=
  (remoteHubPrefix :: s.rib.names.filter fun n => n != name).any fun n =>
    !Name.isPrefixOf localRegistrationPrefix n && decide (registrationOf C n = some registered)

/-- A registration that has no response yet. -/
def isRegistering (s : RemoteRegistrator) (registered : Name) : Bool :=
  s.commands.any fun command => decide (command.verb = .register) && command.name == registered

/-- The last entry of a registered prefix is erased while a hub is connected, and while no registration of the prefix
has no response yet. -/
def erasesSettled (C : RegistratorConfig) (s : RemoteRegistrator) : Event → Bool
  | .erase name route =>
      !s.erasesEntry name route || (registrationOf C name).all fun registered =>
        isBackedWithout C s name registered ||
          (s.hasConnectedHub || !s.isRegistered registered) && !s.isRegistering registered
  | _ => true

theorem isRegistering_iff : s.isRegistering registered = true ↔
    ∃ command ∈ s.commands, command.verb = .register ∧ command.name = registered := by
  rw [isRegistering, List.any_eq_true]
  refine exists_congr fun command => and_congr_right fun _ => ?_
  rw [Bool.and_eq_true, decide_eq_true_iff, beq_iff_eq]

/-- What an erased entry leaves recorded. -/
theorem unregisterPrefix_spec (C : RegistratorConfig) (s : RemoteRegistrator) (hne : name ≠ remoteHubPrefix) :
    (unregisterPrefix C s name).rib = s.rib ∧ (unregisterPrefix C s name).hasConnectedHub = s.hasConnectedHub ∧
      ∀ registered, (unregisterPrefix C s name).Records registered → s.Records registered ∧
        (registrationOf C name = some registered → s.hasConnectedHub = true → s.isRegistering registered = true ∨
          ∃ other ∈ s.rib.names, registered <+: other ∧ registrationOf C other = some registered) := by
  have hsame : (∀ registered, s.isRegistered registered = true → registrationOf C name = some registered →
      s.hasConnectedHub = true → ∃ other ∈ s.rib.names, registered <+: other ∧
        registrationOf C other = some registered) →
      s.rib = s.rib ∧ s.hasConnectedHub = s.hasConnectedHub ∧ ∀ registered, s.Records registered →
        s.Records registered ∧
        (registrationOf C name = some registered → s.hasConnectedHub = true → s.isRegistering registered = true ∨
          ∃ other ∈ s.rib.names, registered <+: other ∧ registrationOf C other = some registered) := by
    refine fun hkeeps => ⟨rfl, rfl, fun registered hr => ⟨hr, fun hreg hconnected => ?_⟩⟩
    rcases hr with hr | hr
    · exact .inr (hkeeps registered hr hreg hconnected)
    · exact .inl (isRegistering_iff.mpr hr)
  rw [unregisterPrefix, if_neg hne]
  split
  · rename_i hidle
    refine hsame fun registered _ _ hconnected => ?_
    rw [hconnected] at hidle
    exact absurd hidle Bool.false_ne_true
  · dsimp only
    split
    · rename_i hzero
      exact hsame fun registered _ hreg _ => absurd hzero (registrationOf_eq_some.mp hreg).1
    · split
      · rename_i hnot
        refine hsame fun registered hr hreg _ => ?_
        rw [(registrationOf_eq_some.mp hreg).2, hr] at hnot
        exact absurd hnot Bool.false_ne_true
      · split
        · rename_i hkept
          obtain ⟨other, hother, hsame'⟩ := List.any_eq_true.mp hkept
          obtain ⟨hpre, hidentity⟩ := Bool.and_eq_true_iff.mp hsame'
          refine hsame fun registered _ hreg _ => ⟨other, hother, ?_, ?_⟩
          · rw [← (registrationOf_eq_some.mp hreg).2]
            exact Name.isPrefixOf_iff.mp hpre
          · rw [registrationOf_eq_some, beq_iff_eq.mp hidentity]
            exact registrationOf_eq_some.mp hreg
        · refine ⟨rfl, rfl, fun registered hr => ?_⟩
          rcases startUnregistration_records hr with hr | hr
          · obtain ⟨e, he, rfl⟩ := isRegistered_iff.mp hr
            obtain ⟨hmem, hother⟩ := List.mem_filter.mp he
            refine ⟨.inl (isRegistered_iff.mpr ⟨e, hmem, rfl⟩), fun hreg => ?_⟩
            exact absurd (registrationOf_eq_some.mp hreg).2.symm (bne_iff_ne.mp hother)
          · exact ⟨.inr hr, fun _ _ => .inl (isRegistering_iff.mpr hr)⟩

theorem erasesEntry_eq (hrib : s.rib.erase name route = some rib') :
    s.erasesEntry name route = ((s.rib.entries name).isSome && (rib'.entries name).isNone) := by
  rw [erasesEntry, hrib, Option.any_some]

/-- The last entry of a prefix is erased when the prefix is not recorded, or when it is unregistered with it. -/
theorem Consistent.erase (h : Consistent C s) (hok : erasesSettled C s (.erase name route) = true)
    (hrib : s.rib.erase name route = some rib') (herases : s.erasesEntry name route = true) :
    Consistent C (unregisterPrefix C { s with rib := rib' } name) := by
  have hvalid : rib'.Valid := (h.valid.erase hrib).1
  by_cases hhub : name = remoteHubPrefix
  · -- the hub is gone, and its prefix still counts
    rw [unregisterPrefix, if_pos hhub]
    refine ⟨hvalid, fun hconnected => ?_, fun registered hr => ?_⟩
    · exact nomatch hconnected
    · have hr' : s.Records registered := hr.imp_left fun hr =>
        (isRegistered_map (s := s) (f := fun e => { e with refresh := none }) fun _ => rfl).symm.trans hr
      obtain ⟨n, hn, hrest⟩ := h.backed registered hr'
      refine ⟨n, ?_, hrest⟩
      by_cases hne : n = name
      · exact .inl (hne.trans hhub)
      · exact hn.imp_right (erase_names h.valid hrib hne).mpr
  · obtain ⟨hsame, hconnected, hrecords⟩ := unregisterPrefix_spec C { s with rib := rib' } hhub
    refine ⟨by rw [hsame]; exact hvalid, fun hc => ?_, fun registered hr => ?_⟩
    · rw [hsame]
      rw [hconnected] at hc
      exact (erase_names h.valid hrib (Ne.symm hhub)).mpr (h.hub hc)
    · rw [hsame]
      obtain ⟨hr, hleft⟩ := hrecords registered hr
      obtain ⟨n, hn, hlocal, hreg⟩ := h.backed registered hr
      by_cases hne : n = name
      · -- the entry that is gone was registered as this
        rw [hne] at hlocal hreg
        rw [erasesSettled, herases, Bool.not_true, Bool.false_or, hreg, Option.all_some, Bool.or_eq_true] at hok
        rcases hok with hother | hsettled
        · obtain ⟨other, hmem, hother⟩ := List.any_eq_true.mp hother
          obtain ⟨hnonlocal, hreg'⟩ := Bool.and_eq_true_iff.mp hother
          refine ⟨other, ?_, fun hp => ?_, of_decide_eq_true hreg'⟩
          · rcases List.mem_cons.mp hmem with hmem | hmem
            · exact .inl hmem
            · obtain ⟨hmem, hne'⟩ := List.mem_filter.mp hmem
              exact .inr ((erase_names h.valid hrib (bne_iff_ne.mp hne')).mpr hmem)
          · rw [Name.isPrefixOf_iff.mpr hp] at hnonlocal
            cases hnonlocal
        · rw [Bool.and_eq_true, Bool.not_eq_true', ← Bool.not_eq_true] at hsettled
          obtain ⟨hhubOrNot, hnoCommand⟩ := hsettled
          have hregistered : s.isRegistered registered = true := by
            refine hr.resolve_right fun hcommand => hnoCommand (isRegistering_iff.mpr hcommand)
          have hc : s.hasConnectedHub = true := by
            rw [hregistered, Bool.not_true, Bool.or_false] at hhubOrNot
            exact hhubOrNot
          rcases hleft hreg hc with hcommand | ⟨other, hother, hpre, hreg'⟩
          · exact absurd hcommand hnoCommand
          · exact ⟨other, .inr hother, not_local_of_prefix hreg hlocal hpre, hreg'⟩
      · exact ⟨n, hn.imp_right (erase_names h.valid hrib hne).mpr, hlocal, hreg⟩

/-- Erasing one of several routes of an entry. -/
theorem Consistent.eraseRoute (h : Consistent C s) (hrib : s.rib.erase name route = some rib')
    (hkeeps : s.erasesEntry name route ≠ true) : Consistent C { s with rib := rib' } := by
  have hnames : ∀ n ∈ s.rib.names, n ∈ rib'.names := by
    intro n hn
    by_cases hne : n = name
    · have hhas : (s.rib.entries name).isSome = true := hne ▸ (h.valid.mem_names n).mp hn
      rw [erasesEntry_eq hrib, hhas, Bool.true_and] at hkeeps
      rw [(h.valid.erase hrib).1.mem_names, Rib.Has, hne]
      cases hentry : rib'.entries name with
      | none =>
          rw [hentry] at hkeeps
          exact absurd rfl hkeeps
      | some e => rfl
    · exact (erase_names h.valid hrib hne).mpr hn
  exact {
    valid := (h.valid.erase hrib).1
    hub := fun hc => hnames _ (h.hub hc)
    backed := fun registered hr => (h.backed registered hr).mono hnames }

/-- A response records what was on the way. -/
theorem onResponse_records {i : Nat} {isSuccess : Bool} (h : s.onResponse i isSuccess = some s') :
    s'.rib = s.rib ∧ s'.hasConnectedHub = s.hasConnectedHub ∧ ∀ registered, s'.Records registered →
      s.Records registered := by
  obtain ⟨command, hcommand, rfl⟩ := Option.map_eq_some_iff.mp h
  have hmem : command ∈ s.commands := List.mem_of_getElem? hcommand
  have hrest : ∀ registered, Records { s with commands := s.commands.eraseIdx i } registered → s.Records registered :=
    fun registered hr => hr.imp_right fun ⟨c, hc, hcr⟩ => ⟨c, List.mem_of_mem_eraseIdx hc, hcr⟩
  dsimp only
  split
  · rename_i hverb
    rw [onRegSuccess]
    split
    · exact ⟨rfl, rfl, fun registered hr => hrest registered ((setRefresh_records _ _ _).mp hr)⟩
    · refine ⟨rfl, rfl, fun registered hr => ?_⟩
      rcases hr with hr | hr
      · obtain ⟨e, he, rfl⟩ := isRegistered_iff.mp hr
        rcases List.mem_append.mp he with he | he
        · exact .inl (isRegistered_iff.mpr ⟨e, he, rfl⟩)
        · cases List.mem_singleton.mp he
          exact .inr ⟨command, hmem, hverb, rfl⟩
      · exact hrest registered (.inr hr)
  · rename_i hverb
    rw [onRegFailure]
    split
    · refine ⟨rfl, rfl, fun registered hr => ?_⟩
      rcases startRegistration_records.mp hr with hr | rfl
      · exact hrest registered hr
      · exact .inr ⟨command, hmem, hverb, rfl⟩
    · exact ⟨rfl, rfl, hrest⟩
  · exact ⟨rfl, rfl, hrest⟩
  · rw [onUnregFailure]
    split
    · exact ⟨rfl, rfl, fun registered hr => hrest registered (startUnregistration_records hr)⟩
    · exact ⟨rfl, rfl, hrest⟩

theorem onRefresh_records (h : onRefresh C s name = some s') :
    s'.rib = s.rib ∧ s'.hasConnectedHub = s.hasConnectedHub ∧ ∀ registered, s'.Records registered →
      s.Records registered := by
  obtain ⟨entry, hfind, h⟩ := Option.bind_eq_some_iff.mp h
  obtain ⟨signingIdentity, -, rfl⟩ := Option.map_eq_some_iff.mp h
  refine ⟨rfl, rfl, fun registered hr => ?_⟩
  rcases startRegistration_records.mp hr with hr | rfl
  · exact (setRefresh_records _ _ _).mp hr
  · have hname := List.find?_some hfind
    exact .inl (isRegistered_iff.mpr ⟨entry, List.mem_of_find?_eq_some hfind, beq_iff_eq.mp hname⟩)

theorem Consistent.step (h : Consistent C s) (hok : erasesSettled C s event = true) (hstep : step C s event = some s') :
    Consistent C s' := by
  cases event with
  | insert name route =>
      obtain ⟨rib', hrib, rfl⟩ := Option.map_eq_some_iff.mp hstep
      have hinserted := h.insert hrib
      split
      · exact hinserted.registerPrefix ((insert_names h.valid hrib name).mpr (.inl rfl))
      · exact hinserted
  | erase name route =>
      obtain ⟨rib', hrib, rfl⟩ := Option.map_eq_some_iff.mp hstep
      split
      · rename_i herases
        exact h.erase hok hrib herases
      · rename_i hkeeps
        exact h.eraseRoute hrib hkeeps
  | onResponse i isSuccess =>
      obtain ⟨hrib, hhub, hrecords⟩ := onResponse_records hstep
      exact h.of_records hrib (fun hc => hhub ▸ hc) hrecords
  | onRefresh name =>
      obtain ⟨hrib, hhub, hrecords⟩ := onRefresh_records hstep
      exact h.of_records hrib (fun hc => hhub ▸ hc) hrecords

/-- Every recorded prefix is what some entry outside `/localhost` is registered as. -/
def RegistersEntries (C : RegistratorConfig) (s : RemoteRegistrator) : Prop :=
  ∀ registered, s.isRegistered registered = true →
    ∃ name ∈ s.rib.names, ¬ localRegistrationPrefix <+: name ∧ registrationOf C name = some registered

/-- While the last entries of prefixes are erased with a hub connected and no registration under way, a connected hub
has registrations of entries only. -/
theorem registers_entries (C : RegistratorConfig)
    (hr : Reach (step C) (fun s event => erasesSettled C s event = true) init s)
    (hconnected : s.hasConnectedHub = true) :
    s.RegistersEntries C := by
  have h : Consistent C s := hr.invariant (init_consistent C) fun s event s' h hok hstep => h.step hok hstep
  intro registered hregistered
  obtain ⟨n, hn, hrest⟩ := h.backed registered (.inl hregistered)
  refine ⟨n, ?_, hrest⟩
  rcases hn with rfl | hn
  · exact h.hub hconnected
  · exact hn

/-- One identity `/A`, no retries. -/
def oneIdentity : RegistratorConfig := ⟨[[.ofByte 65]], 0⟩

/-- A hub is connected, and `/A` is registered for `/A/B`. -/
def registeredIdentity : List Event :=
  [.insert remoteHubPrefix ⟨1, 0, 0, 10⟩, .insert [.ofByte 65, .ofByte 66] ⟨2, 0, 0, 10⟩, .onResponse 0 true]

/-- `/A/B` is erased while `/A/C` is there, then `/A/C` with a hub connected. -/
theorem registers_entries_two_names :
    (∃ s, exec (step oneIdentity) init (registeredIdentity ++ [.insert [.ofByte 65, .ofByte 67] ⟨2, 0, 0, 10⟩,
        .erase [.ofByte 65, .ofByte 66] ⟨2, 0, 0, 10⟩]) = some s ∧ s.isRegistered [.ofByte 65] = true ∧
      s.RegistersEntries oneIdentity) ∧
    ∃ s, exec (step oneIdentity) init (registeredIdentity ++ [.erase [.ofByte 65, .ofByte 66] ⟨2, 0, 0, 10⟩]) = some s ∧
      s.isRegistered [.ofByte 65] = false ∧ s.RegistersEntries oneIdentity := by
  have hrun : ((exec (guarded (step oneIdentity) (erasesSettled oneIdentity)) init (registeredIdentity ++
      [.insert [.ofByte 65, .ofByte 67] ⟨2, 0, 0, 10⟩, .erase [.ofByte 65, .ofByte 66] ⟨2, 0, 0, 10⟩])).any fun s =>
        s.hasConnectedHub && s.isRegistered [.ofByte 65]) = true := by decide +kernel
  have hrun' : ((exec (guarded (step oneIdentity) (erasesSettled oneIdentity)) init (registeredIdentity ++
      [.erase [.ofByte 65, .ofByte 66] ⟨2, 0, 0, 10⟩])).any fun s =>
        s.hasConnectedHub && !s.isRegistered [.ofByte 65]) = true := by decide +kernel
  obtain ⟨s, hs, hrun⟩ := (Option.any_eq_true _ _).mp hrun
  obtain ⟨s', hs', hrun'⟩ := (Option.any_eq_true _ _).mp hrun'
  rw [Bool.and_eq_true] at hrun
  rw [Bool.and_eq_true, Bool.not_eq_true'] at hrun'
  exact ⟨⟨s, exec_of_guarded hs, hrun.2, registers_entries _ (reach_of_exec_guarded .start hs) hrun.1⟩,
    s', exec_of_guarded hs', hrun'.2, registers_entries _ (reach_of_exec_guarded .start hs') hrun'.1⟩

/-- `/A/B` is erased before the response to the registration of `/A` arrives: nothing is unregistered, and the response
records `/A`. -/
theorem registration_outlives_entry :
    ∃ s, exec (step oneIdentity) init [.insert remoteHubPrefix ⟨1, 0, 0, 10⟩,
        .insert [.ofByte 65, .ofByte 66] ⟨2, 0, 0, 10⟩, .erase [.ofByte 65, .ofByte 66] ⟨2, 0, 0, 10⟩,
        .onResponse 0 true] = some s ∧ s.hasConnectedHub = true ∧ s.commands = [] ∧
      ¬ s.RegistersEntries oneIdentity := by
  have hrun : ((exec (step oneIdentity) init [.insert remoteHubPrefix ⟨1, 0, 0, 10⟩,
      .insert [.ofByte 65, .ofByte 66] ⟨2, 0, 0, 10⟩, .erase [.ofByte 65, .ofByte 66] ⟨2, 0, 0, 10⟩,
      .onResponse 0 true]).any fun s => decide (s.hasConnectedHub = true ∧ s.commands = [] ∧
        s.isRegistered [.ofByte 65] = true ∧ s.rib.names = [remoteHubPrefix] ∧
        registrationOf oneIdentity remoteHubPrefix = none)) = true := by decide +kernel
  obtain ⟨s, hs, hrun⟩ := (Option.any_eq_true _ _).mp hrun
  obtain ⟨hconnected, hcommands, hregistered, hnames, hnone⟩ := of_decide_eq_true hrun
  refine ⟨s, hs, hconnected, hcommands, fun h => ?_⟩
  obtain ⟨name, hname, -, hreg⟩ := h _ hregistered
  rw [hnames, List.mem_singleton] at hname
  rw [hname, hnone] at hreg
  cases hreg

end RemoteRegistrator
end NfdPitless
