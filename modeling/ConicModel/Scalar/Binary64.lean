/-
Binary64 numbers, exactly.

A float is decoded from its bits into a sign, an integer and a power of two, and
all that is written or compared about it is done on these in exact integer
arithmetic.

Numbers have an exact written form: an integer of at most `2 ^ 53` in decimal,
any other number in hexadecimal with the thirteen digits of its fraction, so
that the text and the bits determine each other.  Both zeros are written `0`.
-/
import ConicModel.Scalar

namespace ConicModel

/-- The number that a float stands for. -/
inductive Binary64 where
  | nan
  | infinite (negative : Bool)
  /-- `± m · 2 ^ e`. -/
  | finite (negative : Bool) (m : Nat) (e : Int)
deriving DecidableEq

namespace Binary64

/-- The weight of the lowest bit of the fraction below which no float goes. -/
def minExponent : Int := -1074

/-- Put a number together from a sign bit, an exponent field and a fraction. -/
def ofFields (negative : Bool) (exponent fraction : Nat) : Binary64 :=
  if exponent = 0x7ff then if fraction = 0 then infinite negative else nan
  else if exponent = 0 then finite negative fraction minExponent
  else finite negative (fraction + Nat.pow 2 52) (exponent + minExponent - 1)

/-- The fields of a float: sign, exponent and fraction. -/
def fields (x : Float) : Bool × Nat × Nat :=
  let bits := x.toBits.toNat
  (bits / Nat.pow 2 63 == 1, bits / Nat.pow 2 52 % Nat.pow 2 11, bits % Nat.pow 2 52)

/-- Decode a float. -/
def ofFloat (x : Float) : Binary64 :=
  let (s, e, f) := fields x
  ofFields s e f

/-- The float with given fields. -/
def floatOfFields (negative : Bool) (exponent fraction : Nat) : Float :=
  let sign := if negative then Nat.pow 2 63 else 0
  Float.ofBits (UInt64.ofNat (sign + exponent * Nat.pow 2 52 + fraction))

/-- The integer part of a number, toward zero. -/
def truncate : Binary64 → Whole
  | nan => .undefined
  | infinite _ => .infinite
  | finite s m e =>
    let n : Int := if 0 ≤ e then m * Nat.pow 2 e.toNat else (m / Nat.pow 2 (-e).toNat : Nat)
    .int (if s then -n else n)

/-- The integer a number is, if it is one. -/
def toInt? : Binary64 → Option Int
  | finite s m e =>
    if 0 ≤ e ∨ m % Nat.pow 2 (-e).toNat = 0 then
      match truncate (finite s m e) with
      | .int n => some n
      | _ => none
    else none
  | _ => none

/-- The float nearest to a natural number; of two equally near, the one with an
even fraction.  Beyond 64 bits the bits cut off are kept as one bit, which is
enough to round by. -/
def nearestNat (n : Nat) : Float :=
  if n < Nat.pow 2 64 then n.toUInt64.toFloat
  else
    let s := n.log2 - 63
    let top := n >>> s
    let rest := if n % Nat.pow 2 s = 0 then 0 else 1
    ((top ||| rest).toUInt64.toFloat).scaleB s

/-- The float nearest to an integer. -/
def nearest (n : Int) : Float := if n < 0 then -nearestNat n.natAbs else nearestNat n.natAbs

end Binary64

instance : Entry Float where
  zero := 0
  one := 1
  add := Float.add
  sub := Float.sub
  mul := Float.mul
  neg := Float.neg
  isZero x := x == 0.0

instance : Scalar Float where
  le x y := decide (x ≤ y)
  ofInt := Binary64.nearest
  truncate x := (Binary64.ofFloat x).truncate

/-! ## The exact written form -/

namespace Binary64

/-- A hexadecimal digit. -/
def hexDigit (n : Nat) : Char := Nat.digitChar (n % 16)

/-- The value of a hexadecimal digit. -/
def hexValue? (c : Char) : Option Nat :=
  if c.isDigit then some (c.toNat - '0'.toNat)
  else if 'a' ≤ c ∧ c ≤ 'f' then some (c.toNat - 'a'.toNat + 10)
  else none

/-- The lowest `k` hexadecimal digits of a number. -/
def hexDigits : Nat → Nat → List Char
  | 0, _ => []
  | k + 1, n => hexDigits k (n / 16) ++ [hexDigit n]

/-- The value of hexadecimal digits in front of which `acc` was read. -/
def ofHexDigits? (acc : Nat) : List Char → Option Nat
  | [] => some acc
  | c :: cs => do ofHexDigits? (16 * acc + (← hexValue? c)) cs

/-- The hexadecimal form of a float with the given fields. -/
def hexText (negative : Bool) (exponent fraction : Nat) : String :=
  let lead := if exponent = 0 then "0" else "1"
  let power : Int := if exponent = 0 then -1022 else (exponent : Int) - 1023
  let sign := if power < 0 then "" else "+"
  (if negative then "-" else "") ++ "0x" ++ lead ++ "." ++ String.ofList (hexDigits 13 fraction)
    ++ "p" ++ sign ++ toString power

/-- The written form of a float. -/
def text (x : Float) : String :=
  let (s, e, f) := fields x
  match ofFields s e f with
  | nan => "nan"
  | infinite s => if s then "-inf" else "inf"
  | v =>
    match v.toInt? with
    | some n => if n.natAbs ≤ Nat.pow 2 53 then toString n else hexText s e f
    | none => hexText s e f

/-- Read a hexadecimal form without its sign. -/
def readHex? (negative : Bool) (cs : List Char) : Option Float :=
  match cs with
  | '0' :: 'x' :: lead :: '.' :: rest => do
    let fraction ← ofHexDigits? 0 (rest.takeWhile (· != 'p'))
    let power ← match rest.dropWhile (· != 'p') with
      | 'p' :: '+' :: ds => (String.ofList ds).toInt?
      | 'p' :: ds => (String.ofList ds).toInt?
      | _ => none
    if lead = '0' then pure (floatOfFields negative 0 fraction)
    else pure (floatOfFields negative (power + 1023).toNat fraction)
  | _ => none

/-- Read a written form. -/
def read? (s : String) : Option Float :=
  match s.toList with
  | ['n', 'a', 'n'] => some (0.0 / 0.0)
  | ['i', 'n', 'f'] => some (1.0 / 0.0)
  | ['-', 'i', 'n', 'f'] => some (-1.0 / 0.0)
  | '-' :: '0' :: 'x' :: cs => readHex? true ('0' :: 'x' :: cs)
  | '0' :: 'x' :: cs => readHex? false ('0' :: 'x' :: cs)
  | _ => s.toInt?.map nearest

end Binary64

end ConicModel
