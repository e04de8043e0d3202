import NfdPitless.Name

/-! The packets of ndn-cxx as far as the tables and the pipelines read them. Matching a Data against
an Interest is ndn-cxx code: it depends on the Interest's name and selectors and on the Data, and is a
parameter wherever it is used. Times are in nanoseconds, durations of packets in milliseconds. -/

namespace NfdPitless

/-- A face object. -/
abbrev Face := Nat

/-- The selectors of an Interest, the `Exclude` and the key locator by their wire encodings. -/
structure Selectors where
  minSuffixComponents : Option Nat
  maxSuffixComponents : Option Nat
  publisherPublicKeyLocator : List UInt8
  exclude : List UInt8
  childSelector : Option Nat
  mustBeFresh : Bool
  deriving DecidableEq

namespace Selectors

/-- No selector set. -/
def empty : Selectors :=
  { minSuffixComponents := none, maxSuffixComponents := none, publisherPublicKeyLocator := []
    exclude := [], childSelector := none, mustBeFresh := false }

end Selectors

structure Interest where
  name : Name
  selectors : Selectors
  nonce : UInt32
  /-- Milliseconds; negative when the packet does not carry the field. -/
  interestLifetime : Int
  supportingName : Name
  deriving DecidableEq

structure Data where
  name : Name
  supportingName : Name
  /-- Milliseconds; negative when the packet does not carry the field. -/
  freshnessPeriod : Int
  noCache : Bool
  content : List UInt8
  deriving DecidableEq

/-- An Interest for a name, with no selectors. -/
def plainInterest (name : Name) : Interest :=
  { name, selectors := .empty, nonce := 1, interestLifetime := -1, supportingName := [] }

/-- A Data of a name, without content. -/
def plainData (name : Name) : Data :=
  { name, supportingName := [], freshnessPeriod := -1, noCache := false, content := [] }

/-- A digest of 32 equal octets. -/
def digestOf (octet : UInt8) : Component := ⟨true, List.replicate 32 octet⟩

/-- `Interest::matchesData` as a function of the Interest's name and selectors. -/
abbrev MatchesData := Name → Selectors → Data → Bool

/-- The name of a Data followed by its implicit digest, which is a function of the whole packet. -/
def Data.fullName (digest : Data → List UInt8) (d : Data) : Name := d.name ++ [⟨true, digest d⟩]

/-- `Interest::matchesData` of an Interest without `Exclude` and key locator: the bounds on the number of
suffix components, counted against the full name, and the prefix. -/
def matchesSuffix (digest : Data → List UInt8) : MatchesData := fun n s d =>
  decide (n.length + s.minSuffixComponents.getD 0 ≤ d.name.length + 1) &&
    (s.maxSuffixComponents.all fun m => decide (d.name.length + 1 ≤ n.length + m)) &&
    Name.isPrefixOf n (d.fullName digest)

theorem prefix_of_matchesSuffix {digest : Data → List UInt8} {n : Name} {s : Selectors} {d : Data}
    (h : matchesSuffix digest n s d = true) : n <+: d.fullName digest := by
  rw [matchesSuffix, Bool.and_eq_true] at h
  exact Name.isPrefixOf_iff.mp h.2

/-- `Name::getSuccessor` of a name whose last octet is not the greatest: that octet is one more. -/
def incrementLast (n : Name) : Name :=
  n.modifyLast fun c => { c with value := c.value.modifyLast (· + 1) }

/-- Milliseconds in units of the clock. -/
def milliseconds (n : Nat) : Nat := n * 1000000

def defaultInterestLifetime : Nat := 4000

/-- The lifetime of an Interest in units of the clock. -/
def Interest.lifetime (i : Interest) : Nat :=
  milliseconds (if i.interestLifetime < 0 then defaultInterestLifetime else i.interestLifetime.toNat)

/-- The name `/localhost`. -/
def localhostName : Name := [⟨false, [108, 111, 99, 97, 108, 104, 111, 115, 116]⟩]

/-- The name `/localhop`. -/
def localhopName : Name := [⟨false, [108, 111, 99, 97, 108, 104, 111, 112]⟩]

end NfdPitless
