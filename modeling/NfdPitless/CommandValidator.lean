import Mathlib.Data.List.Basic

/-! The authorizations section of the configuration file (`daemon/mgmt/command-validator.cpp`). Certificates, the file
system and the validator's rules are those of libraries: a certificate is any type, and the validator is the list of
rules added since it was reset. -/

namespace NfdPitless

/-- A property tree: a value, and children under keys that may repeat. -/
inductive ConfigSection where
  | node (value : String) (children : List (String × ConfigSection))

namespace ConfigSection

def value : ConfigSection → String
  | node value _ => value

def children : ConfigSection → List (String × ConfigSection)
  | node _ children => children

/-- The first child of a key. -/
def getChild (section_ : ConfigSection) (key : String) : Option ConfigSection :=
  (section_.children.find? fun child => child.1 == key).map Prod.snd

/-- The value of the first child of a key. -/
def get (section_ : ConfigSection) (key : String) : Option String := (section_.getChild key).map value

end ConfigSection

/-- The certificate files: the path of one named in a configuration file, what an existing file holds, and the
certificate it holds if it is well formed. -/
structure CertificateFiles (γ : Type) where
  absolute : String → String → String
  contents : String → Option String
  load : String → Option γ
  getPublicKeyName : γ → String

/-- A rule of the validator for the Interests that match a regular expression. -/
inductive ValidatorRule (γ : Type) where
  | interestRule (regex : String) (certificate : γ)
  | interestBypassRule (regex : String)
  deriving DecidableEq

structure CommandValidator (γ : Type) where
  validator : List (ValidatorRule γ)
  supportedPrivileges : List String

namespace CommandValidator

variable {γ : Type}

/-- What has been collected while a section is read. -/
structure Loading (γ : Type) where
  rules : List (ValidatorRule γ)
  dryRunErrors : String

/-- The message of an exception, and the rules there are when it leaves the function. -/
structure Thrown (γ : Type) where
  message : String
  rules : List (ValidatorRule γ)

def aggregateErrors (ss msg : String) : String := (if ss ≠ "" then ss ++ "\n" else ss) ++ msg

/-- An error is thrown, or collected in a dry run. -/
def report (isDryRun : Bool) (s : Loading γ) (msg : String) : Except (Thrown γ) (Loading γ) :=
  if isDryRun then .ok { s with dryRunErrors := aggregateErrors s.dryRunErrors msg }
  else .error ⟨msg, s.rules⟩

def ruleFor (id : Option γ) (privilegeName : String) : ValidatorRule γ :=
  let regex := "^<localhost><nfd><" ++ privilegeName ++ ">"
  match id with
  | some certificate => .interestRule regex certificate
  | none => .interestBypassRule regex

/-- The certificate of a `certfile`, none for `any`, or the error. -/
def loadIdentity (files : CertificateFiles γ) (filename certfile : String) : Except String (Option γ) :=
  if certfile = "any" then .ok none
  else
    let certfilePath := files.absolute certfile filename
    match files.contents certfilePath with
    | none => .error ("Unable to open certificate file " ++ certfilePath)
    | some contents =>
        match files.load contents with
        | none => .error ("Malformed certificate file " ++ certfilePath)
        | some id => .ok (some id)

def keyNameForLogging (files : CertificateFiles γ) (id : Option γ) : String :=
  match id with
  | some certificate => files.getPublicKeyName certificate
  | none => "wildcard"

def noPrivileges (certfile keyName : String) : String :=
  "No privileges section found for certificate file " ++ certfile ++ " (" ++ keyName ++ ")"

def invalidPrivilege (privilegeName certfile keyName : String) : String :=
  "Invalid privilege \"" ++ privilegeName ++ "\" for certificate file " ++ certfile ++ " (" ++ keyName ++ ")"

section OnConfig

variable (files : CertificateFiles γ) (supportedPrivileges : List String) (filename : String) (isDryRun : Bool)

/-- One privilege of an authorize section. -/
def grant (id : Option γ) (certfile : String) (s : Loading γ) (privilege : String × ConfigSection) :
    Except (Thrown γ) (Loading γ) :=
  let privilegeName := privilege.1
  if privilegeName ∈ supportedPrivileges then
    .ok (if isDryRun then s else { s with rules := s.rules ++ [ruleFor id privilegeName] })
  else report isDryRun s (invalidPrivilege privilegeName certfile (keyNameForLogging files id))

/-- One authorize section. -/
def authorize (s : Loading γ) (auth : String × ConfigSection) : Except (Thrown γ) (Loading γ) :=
  match auth.2.get "certfile" with
  | none => report isDryRun s "No certfile specified"
  | some certfile =>
      match loadIdentity files filename certfile with
      | .error msg => report isDryRun s msg
      | .ok id =>
          match auth.2.getChild "privileges" with
          | none => report isDryRun s (noPrivileges certfile (keyNameForLogging files id))
          | some privileges => privileges.children.foldlM (grant files supportedPrivileges isDryRun id certfile) s

end OnConfig

/-- The message of the exception, if one is thrown, and the validator after the call. -/
def onConfig (files : CertificateFiles γ) (v : CommandValidator γ) (section_ : ConfigSection) (isDryRun : Bool)
    (filename : String) : Option String × CommandValidator γ :=
  let v := { v with validator := [] }
  if section_.children.isEmpty then (some "No authorize sections found", v)
  else
    match section_.children.foldlM (authorize files v.supportedPrivileges filename isDryRun) ⟨v.validator, ""⟩ with
    | .error thrown => (some thrown.message, { v with validator := thrown.rules })
    | .ok s => (if s.dryRunErrors ≠ "" then some s.dryRunErrors else none, { v with validator := s.rules })

/-- A rule that a section lists, or an error in it. -/
inductive Item (γ : Type) where
  | rule (rule : ValidatorRule γ)
  | error (msg : String)

namespace Item

def rule? : Item γ → Option (ValidatorRule γ)
  | rule r => some r
  | error _ => none

def error? : Item γ → Option String
  | rule _ => none
  | error msg => some msg

end Item

section Listed

variable (files : CertificateFiles γ) (supportedPrivileges : List String) (filename : String)

def grantedItem (id : Option γ) (certfile : String) (privilege : String × ConfigSection) : Item γ :=
  if privilege.1 ∈ supportedPrivileges then .rule (ruleFor id privilege.1)
  else .error (invalidPrivilege privilege.1 certfile (keyNameForLogging files id))

/-- What an authorize section lists, in order. -/
def authorizedItems (auth : String × ConfigSection) : List (Item γ) :=
  match auth.2.get "certfile" with
  | none => [.error "No certfile specified"]
  | some certfile =>
      match loadIdentity files filename certfile with
      | .error msg => [.error msg]
      | .ok id =>
          match auth.2.getChild "privileges" with
          | none => [.error (noPrivileges certfile (keyNameForLogging files id))]
          | some privileges => privileges.children.map (grantedItem files supportedPrivileges id certfile)

def listedItems (section_ : ConfigSection) : List (Item γ) :=
  if section_.children.isEmpty then [.error "No authorize sections found"]
  else section_.children.flatMap (authorizedItems files supportedPrivileges filename)

end Listed

/-- The errors of a section that lists no rule before the first of them. -/
def ErrorsFirst (items : List (Item γ)) : Prop := ∀ r rest, items = .rule r :: rest → rest.filterMap Item.error? = []

/-- Both modes agree on errors, a failed or dry run changes no rule, and a successful one installs what is listed. -/
structure Atomic (files : CertificateFiles γ) (v : CommandValidator γ) (section_ : ConfigSection) (filename : String) :
    Prop where
  dryRun_iff : (onConfig files v section_ true filename).1.isSome ↔ (onConfig files v section_ false filename).1.isSome
  dryRun_unchanged : (onConfig files v section_ true filename).2 = v
  failed_unchanged : (onConfig files v section_ false filename).1.isSome →
    (onConfig files v section_ false filename).2 = v
  installed : (onConfig files v section_ false filename).1 = none → (onConfig files v section_ false filename).2 =
    { v with validator := (listedItems files v.supportedPrivileges filename section_).filterMap Item.rule? }

variable {files : CertificateFiles γ} {supportedPrivileges : List String} {filename : String} {isDryRun : Bool}

/-- What an item does to the loop. -/
def perform (isDryRun : Bool) (s : Loading γ) : Item γ → Except (Thrown γ) (Loading γ)
  | .rule r => .ok (if isDryRun then s else { s with rules := s.rules ++ [r] })
  | .error msg => report isDryRun s msg

theorem grant_eq (id : Option γ) (certfile : String) (s : Loading γ) (privilege : String × ConfigSection) :
    grant files supportedPrivileges isDryRun id certfile s privilege =
      perform isDryRun s (grantedItem files supportedPrivileges id certfile privilege) := by
  rw [grant, grantedItem]
  split <;> rfl

theorem authorize_eq (s : Loading γ) (auth : String × ConfigSection) :
    authorize files supportedPrivileges filename isDryRun s auth =
      (authorizedItems files supportedPrivileges filename auth).foldlM (perform isDryRun) s := by
  have hone : ∀ msg, report isDryRun s msg = [Item.error msg].foldlM (perform isDryRun) s := fun msg => by
    rw [List.foldlM_cons, perform]
    cases report isDryRun s msg <;> rfl
  rw [authorize, authorizedItems]
  cases auth.2.get "certfile" with
  | none => exact hone _
  | some certfile =>
      dsimp only
      cases loadIdentity files filename certfile with
      | error msg => exact hone _
      | ok id =>
          dsimp only
          cases auth.2.getChild "privileges" with
          | none => exact hone _
          | some privileges =>
              dsimp only
              rw [List.foldlM_map]
              congr 1
              funext s privilege
              exact grant_eq id certfile s privilege

theorem authorizeAll_eq (auths : List (String × ConfigSection)) (s : Loading γ) :
    auths.foldlM (authorize files supportedPrivileges filename isDryRun) s =
      (auths.flatMap (authorizedItems files supportedPrivileges filename)).foldlM (perform isDryRun) s := by
  induction auths generalizing s with
  | nil => rfl
  | cons auth auths ih =>
      rw [List.foldlM_cons, List.flatMap_cons, List.foldlM_append, authorize_eq]
      congr 1
      funext s
      exact ih s

/-! ### The two modes -/

/-- A dry run goes through the whole section and installs nothing. -/
theorem performAll_dryRun (items : List (Item γ)) (s : Loading γ) : items.foldlM (perform true) s =
    .ok { s with dryRunErrors := (items.filterMap Item.error?).foldl aggregateErrors s.dryRunErrors } := by
  induction items generalizing s with
  | nil => rfl
  | cons item items ih =>
      rw [List.foldlM_cons]
      cases item with
      | rule r => exact ih s
      | error msg => exact ih { s with dryRunErrors := aggregateErrors s.dryRunErrors msg }

/-- A real run installs the rules up to the first error. -/
theorem performAll_real (items : List (Item γ)) (s : Loading γ) : items.foldlM (perform false) s =
    match (items.filterMap Item.error?).head? with
    | none => .ok { s with rules := s.rules ++ items.filterMap Item.rule? }
    | some msg => .error ⟨msg, s.rules ++ (items.takeWhile fun item => item.error?.isNone).filterMap Item.rule?⟩ := by
  induction items generalizing s with
  | nil => simp [pure, Except.pure]
  | cons item items ih =>
      rw [List.foldlM_cons]
      cases item with
      | rule r =>
          have hstep : (perform false s (.rule r) >>= fun s => items.foldlM (perform false) s) =
              items.foldlM (perform false) { s with rules := s.rules ++ [r] } := rfl
          rw [hstep, ih]
          simp [List.filterMap_cons, Item.rule?, Item.error?]
      | error msg =>
          simp only [List.filterMap_cons, Item.error?, List.head?_cons, List.takeWhile_cons, Option.isNone_some,
            Bool.false_eq_true, if_false, List.filterMap_nil, List.append_nil]
          rfl

theorem append_ne (s : String) {t : String} (h : t ≠ "") : s ++ t ≠ "" := by
  rw [ne_eq, String.append_eq_empty_iff]
  exact fun heq => h heq.2

theorem foldl_aggregateErrors_eq (errors : List String) (h : ∀ msg ∈ errors, msg ≠ "") (ss : String) :
    errors.foldl aggregateErrors ss = "" ↔ ss = "" ∧ errors = [] := by
  induction errors generalizing ss with
  | nil => simp
  | cons msg errors ih =>
      rw [List.foldl_cons, ih fun msg' hmem => h msg' (List.mem_cons_of_mem msg hmem)]
      have hne : aggregateErrors ss msg ≠ "" := append_ne _ (h msg List.mem_cons_self)
      simp [hne]

/-- No message is empty. -/
theorem authorizedItems_error_ne (auth : String × ConfigSection) :
    ∀ msg, Item.error msg ∈ authorizedItems files supportedPrivileges filename auth → msg ≠ "" := by
  intro msg hmem
  rw [authorizedItems] at hmem
  split at hmem
  · cases List.mem_singleton.mp hmem
    decide
  · split at hmem
    · rename_i hload
      cases List.mem_singleton.mp hmem
      rw [loadIdentity] at hload
      split at hload
      · cases hload
      · dsimp only at hload
        split at hload
        · rw [← Except.error.inj hload]
          simp
        · split at hload
          · rw [← Except.error.inj hload]
            simp
          · cases hload
    · split at hmem
      · rw [Item.error.inj (List.mem_singleton.mp hmem)]
        exact append_ne _ (by decide)
      · obtain ⟨privilege, -, heq⟩ := List.mem_map.mp hmem
        rw [grantedItem] at heq
        split at heq
        · cases heq
        · rw [← Item.error.inj heq]
          exact append_ne _ (by decide)

theorem listedItems_error_ne (section_ : ConfigSection) :
    ∀ msg ∈ (listedItems files supportedPrivileges filename section_).filterMap Item.error?, msg ≠ "" := by
  intro msg hmem
  obtain ⟨item, hitem, herror⟩ := List.mem_filterMap.mp hmem
  cases item with
  | rule r => cases herror
  | error msg' =>
      cases herror
      rw [listedItems] at hitem
      split at hitem
      · cases List.mem_singleton.mp hitem
        decide
      · obtain ⟨auth, -, hitem⟩ := List.mem_flatMap.mp hitem
        exact authorizedItems_error_ne auth msg hitem

/-- A section without authorize sections is one with that error. -/
theorem onConfig_eq (v : CommandValidator γ) (section_ : ConfigSection) (isDryRun : Bool) :
    onConfig files v section_ isDryRun filename =
      match (listedItems files v.supportedPrivileges filename section_).foldlM (perform isDryRun) ⟨[], ""⟩ with
      | .error thrown => (some thrown.message, { v with validator := thrown.rules })
      | .ok s => (if s.dryRunErrors ≠ "" then some s.dryRunErrors else none, { v with validator := s.rules }) := by
  rw [onConfig, listedItems]
  dsimp only
  split
  · cases isDryRun
    · rfl
    · rw [performAll_dryRun]
      simp [Item.error?, aggregateErrors]
  · rw [authorizeAll_eq]

variable (files) (v : CommandValidator γ) (section_ : ConfigSection) (filename)

theorem onConfig_dryRun :
    ((onConfig files v section_ true filename).1.isSome ↔
      (listedItems files v.supportedPrivileges filename section_).filterMap Item.error? ≠ []) ∧
      (onConfig files v section_ true filename).2 = { v with validator := [] } := by
  rw [onConfig_eq, performAll_dryRun]
  refine ⟨?_, rfl⟩
  have hempty := foldl_aggregateErrors_eq _
    (@listedItems_error_ne γ files v.supportedPrivileges filename section_) ""
  rw [and_iff_right rfl] at hempty
  rw [ne_eq, ← hempty]
  dsimp only
  split
  · rename_i hne
    exact iff_of_true rfl hne
  · rename_i heq
    exact iff_of_false Bool.false_ne_true heq

/-- A real run succeeds and installs every rule, or fails and leaves the rules before the first error. -/
theorem onConfig_real :
    let items := listedItems files v.supportedPrivileges filename section_
    (items.filterMap Item.error? = [] ∧
        onConfig files v section_ false filename = (none, { v with validator := items.filterMap Item.rule? })) ∨
      (items.filterMap Item.error? ≠ [] ∧ ∃ msg, onConfig files v section_ false filename = (some msg,
        { v with validator := (items.takeWhile fun item => item.error?.isNone).filterMap Item.rule? })) := by
  intro items
  rw [onConfig_eq, performAll_real]
  cases herrors : items.filterMap Item.error? with
  | nil => exact .inl ⟨rfl, rfl⟩
  | cons msg errors => exact .inr ⟨List.cons_ne_nil msg errors, msg, rfl⟩

/-- Both modes throw on the same sections. -/
theorem onConfig_dryRun_iff :
    (onConfig files v section_ true filename).1.isSome ↔ (onConfig files v section_ false filename).1.isSome := by
  rw [(onConfig_dryRun files filename v section_).1]
  rcases onConfig_real files filename v section_ with ⟨hnil, hreal⟩ | ⟨hne, msg, hreal⟩
  · rw [hreal]
    exact iff_of_false (not_not_intro hnil) Bool.false_ne_true
  · rw [hreal]
    exact iff_of_true hne rfl

/-- The rules before the first error, where there is one. -/
theorem errorsFirst_iff (items : List (Item γ)) : ErrorsFirst items ↔ (items.filterMap Item.error? ≠ [] →
    (items.takeWhile fun item => item.error?.isNone).filterMap Item.rule? = []) := by
  rw [ErrorsFirst]
  cases items with
  | nil => simp
  | cons item items =>
      cases item with
      | error msg => simp [Item.error?]
      | rule r => simp [List.filterMap_cons, Item.error?, Item.rule?]

/-- The rule set survives a dry run and a failed one exactly when it is empty and the section, if it has an error, lists
no rule before the first. -/
theorem onConfig_atomic_iff : Atomic files v section_ filename ↔
    v.validator = [] ∧ ErrorsFirst (listedItems files v.supportedPrivileges filename section_) := by
  have hdry := (onConfig_dryRun files filename v section_).2
  have hreal := onConfig_real files filename v section_
  dsimp only at hreal
  rw [errorsFirst_iff]
  constructor
  · intro h
    have hnil : v.validator = [] := by
      have hunchanged := h.dryRun_unchanged
      rw [hdry] at hunchanged
      exact (congrArg CommandValidator.validator hunchanged).symm
    refine ⟨hnil, fun hne => ?_⟩
    rcases hreal with ⟨herrors, -⟩ | ⟨-, msg, hreal⟩
    · exact absurd herrors hne
    · have hunchanged := h.failed_unchanged (by rw [hreal]; rfl)
      rw [hreal] at hunchanged
      exact (congrArg CommandValidator.validator hunchanged).trans hnil
  · rintro ⟨hnil, hfirst⟩
    refine ⟨onConfig_dryRun_iff files filename v section_, by rw [hdry, ← hnil], fun hthrown => ?_, fun hok => ?_⟩
    · rcases hreal with ⟨-, hreal⟩ | ⟨hne, msg, hreal⟩
      · rw [hreal] at hthrown
        cases hthrown
      · rw [hreal, hfirst hne, ← hnil]
    · rcases hreal with ⟨-, hreal⟩ | ⟨-, msg, hreal⟩
      · rw [hreal]
      · rw [hreal] at hok
        cases hok

/-- A file system without files. -/
def noFiles : CertificateFiles Unit :=
  { absolute := fun certfile _ => certfile, contents := fun _ => none, load := fun _ => none
    getPublicKeyName := fun _ => "" }

/-- A section with a privilege that no manager supports is refused, and the rule there is has been removed. -/
theorem onConfig_not_atomic : ¬ Atomic noFiles ⟨[ruleFor none "fib"], ["fib"]⟩
    (.node "" [("authorize", .node "" [("certfile", .node "any" []), ("privileges", .node "" [("fbi", .node "" [])])])])
    "nfd.conf" := by
  intro h
  have hfailed := h.failed_unchanged (by decide +kernel)
  have hremoved := congrArg (fun v => v.validator.length) hfailed
  exact absurd hremoved (by decide +kernel)

end CommandValidator
end NfdPitless
