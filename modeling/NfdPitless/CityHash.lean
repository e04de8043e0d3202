import NfdPitless.Name

/-! CityHash64 of short components, the hash function of the name tree. -/

namespace NfdPitless

namespace CityHash

def k0 : UInt64 := 0xc3a5c85c97cb3127

def k2 : UInt64 := 0x9ae16a3b2f90404f

/-- Little-endian octets from position `i` on. -/
def fetch (s : List UInt8) (i count : Nat) : UInt64 :=
  ((s.drop i).take count).foldr (fun b value => value <<< 8 ||| b.toUInt64) 0

def rotate (val shift : UInt64) : UInt64 := val >>> shift ||| val <<< (64 - shift)

def shiftMix (val : UInt64) : UInt64 := val ^^^ val >>> 47

def hashLen16 (u v mul : UInt64) : UInt64 :=
  let a := shiftMix ((u ^^^ v) * mul)
  shiftMix ((v ^^^ a) * mul) * mul

/-- CityHash64 of at most 16 octets. -/
def hashLen0to16 (s : List UInt8) : UInt64 :=
  let len := UInt64.ofNat s.length
  let mul := k2 + len * 2
  if 8 ≤ s.length then
    let a := fetch s 0 8 + k2
    let b := fetch s (s.length - 8) 8
    hashLen16 (rotate b 37 * mul + a) ((rotate a 25 + b) * mul) mul
  else if 4 ≤ s.length then hashLen16 (len + fetch s 0 4 <<< 3) (fetch s (s.length - 4) 4) mul
  else if 0 < s.length then
    let y := fetch s 0 1 + fetch s (s.length / 2) 1 <<< 8
    let z := len + fetch s (s.length - 1) 1 <<< 2
    shiftMix (y * k2 ^^^ z * k0) * k2
  else k2

/-- The type, the length and the octets of a component of fewer than 253 octets. -/
def wire (c : Component) : List UInt8 :=
  (if c.isImplicitSha256Digest then 1 else 8) :: UInt8.ofNat c.value.length :: c.value

/-- The hash of a component of at most 14 octets. -/
def ofShort (c : Component) : UInt64 := hashLen0to16 (wire c)

end CityHash

end NfdPitless
