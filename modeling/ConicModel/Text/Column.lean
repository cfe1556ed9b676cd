/-
Numbers written to go together.

Numbers that are shown side by side have their points below each other.  Each is
written by the fewest digits that read back, but with no more than eight places.
If they are very large, very small or far apart, all have an exponent and as many
places as the longest of them.  A column is what is known of the numbers before
any of them is written.
-/
import ConicModel.Text.Rectangle
import ConicModel.Text.Shortest

namespace ConicModel

open Shortest (Decimal Ratio)

/-- The most places after the point. -/
def Shortest.maxPlaces : Nat := 8

/-- A ratio as a multiple of a power of ten, a half going to the even multiple. -/
def Shortest.Ratio.toMultiple (x : Ratio) (exponent : Int) : Nat :=
  let y : Ratio := if 0 ≤ exponent then ⟨x.num, x.den * Nat.pow 10 exponent.toNat⟩
    else ⟨x.num * Nat.pow 10 (-exponent).toNat, x.den⟩
  let n := y.num / y.den
  let rest := 2 * (y.num % y.den)
  if y.den < rest ∨ (rest = y.den ∧ n % 2 = 1) then n + 1 else n

/-- The shortest decimal of `m · 2 ^ q`, or the nearest one whose exponent is not
below a given one if that is shorter. -/
def Shortest.cutDecimal (m : Nat) (q : Int) (exponent : Int → Int) : Decimal :=
  if m = 0 then ⟨0, 0⟩
  else
    let d := (Shortest.decimal m q).trim 20
    let point := d.exponent + (toString d.digits).length
    if exponent point ≤ d.exponent then d
    else
      let e := exponent (Shortest.magnitude m q)
      Decimal.trim ⟨(Ratio.scaled m 2 q).toMultiple e, e⟩ 20

/-- A number cut up for a column: its sign, the digits before the point, those
after it, and the exponent. -/
structure Figure where
  negative : Bool
  whole : String
  fraction : String
  exponent : Int

namespace Figure

/-- A number without an exponent. -/
def positional (negative : Bool) (m : Nat) (q : Int) : Figure :=
  let d := Shortest.cutDecimal m q fun _ => -(Shortest.maxPlaces : Int)
  let scale := Nat.pow 10 (-d.exponent).toNat
  let n := d.digits * Nat.pow 10 d.exponent.toNat
  let fraction := if scale = 1 then "" else
    String.ofList ((toString (scale + n % scale)).toList.drop 1)
  ⟨negative, toString (n / scale), fraction, 0⟩

/-- A number with one digit before the point. -/
def scientific (negative : Bool) (m : Nat) (q : Int) : Figure :=
  let d := Shortest.cutDecimal m q fun point => point - 1 - (Shortest.maxPlaces : Int)
  let ds := (toString d.digits).toList
  ⟨negative, String.ofList (ds.take 1), String.ofList (ds.drop 1),
    if m = 0 then 0 else d.exponent + ds.length - 1⟩

/-- The sign of a number where a plus sign is written or not. -/
def sign (plus negative : Bool) : String := if negative then "-" else if plus then "+" else ""

end Figure

/-- What is known of numbers that are written side by side. -/
structure Column where
  /-- Whether the numbers have a sign in any case. -/
  plus : Bool
  hasExponent : Bool
  /-- How wide the part before the point is, with the sign. -/
  left : Nat
  /-- How many places there are after the point. -/
  places : Nat
  /-- How many digits the exponent has. -/
  exponentDigits : Nat

namespace Column

/-- The figure of a finite number; none if it is not finite. -/
def figure? (hasExponent : Bool) (x : Float) : Option Figure :=
  match Binary64.ofFloat x with
  | .finite s m e => some (if hasExponent then .scientific s m e else .positional s m e)
  | _ => none

/-- Whether numbers are so large, so small or so far apart that they need an
exponent. -/
def needExponent (xs : List Float) : Bool :=
  let sizes := (xs.filter fun x => x.isFinite && x != 0.0).map Float.abs
  match sizes with
  | [] => false
  | y :: ys =>
    let most := ys.foldl (fun a b => if a < b then b else a) y
    let least := ys.foldl (fun a b => if b < a then b else a) y
    decide (1e8 ≤ most) || decide (least < 0.0001) || decide (1000.0 < most / least)

/-- The digits of an exponent, at least two. -/
def exponentText (e : Int) : String :=
  let s := toString e.natAbs
  if s.length < 2 then "0" ++ s else s

/-- The width of what stands after the part before the point, the point not
counted. -/
def right (c : Column) : Nat := if c.hasExponent then c.exponentDigits + 2 + c.places else c.places

/-- The column of numbers. -/
def ofFloats (plus : Bool) (xs : List Float) : Column :=
  let hasExponent := needExponent xs
  let figures := xs.filterMap (figure? hasExponent)
  let most := fun (f : Figure → Nat) => (figures.map f).foldl max 0
  let c : Column :=
    { plus := plus
      hasExponent := hasExponent
      left := most fun f => (Figure.sign plus f.negative).length + f.whole.length
      places := most fun f => f.fraction.length
      exponentDigits := if hasExponent then most fun f => (exponentText f.exponent).length else 0 }
  if xs.all Float.isFinite then c
  else
    let signed := plus || xs.any fun x => x.isInf && x < 0.0
    { c with left := max c.left (3 + (if signed then 1 else 0) - (c.right + 1)) }

/-- A text with blanks in front of it up to a width. -/
def padLeft (n : Nat) (s : String) : String := Rectangle.blanks (n - s.length) ++ s

/-- A number in its column. -/
def write (c : Column) (x : Float) : String :=
  match figure? c.hasExponent x with
  | none =>
    padLeft (c.left + c.right + 1)
      (Figure.sign c.plus (x.isInf && x < 0.0) ++ if x.isNaN then "nan" else "inf")
  | some f =>
    let head := padLeft c.left (Figure.sign c.plus f.negative ++ f.whole) ++ "." ++ f.fraction
    let rest := c.places - f.fraction.length
    if c.hasExponent then
      let e := exponentText f.exponent
      let zeros := fun n => String.ofList (List.replicate n '0')
      head ++ zeros rest ++ "e" ++ (if f.exponent < 0 then "-" else "+")
        ++ zeros (c.exponentDigits - e.length) ++ e
    else head ++ Rectangle.blanks rest

end Column

/-- Complex numbers written side by side: their real parts, and their imaginary
parts with signs and the unit behind the digits. -/
structure CplxColumn where
  re : Column
  im : Column

/-- The column of complex numbers. -/
def CplxColumn.ofCplxs (zs : List (Cplx Float)) : CplxColumn :=
  ⟨.ofFloats false (zs.map (·.re)), .ofFloats true (zs.map (·.im))⟩

/-- A complex number in its column. -/
def CplxColumn.write (c : CplxColumn) (z : Cplx Float) : String :=
  let im := c.im.write z.im
  let digits := Rectangle.trimEnd im
  c.re.write z.re ++ digits ++ "j" ++ Rectangle.blanks (im.length - digits.length)

end ConicModel
