/-
The shortest decimal that reads back to a number.

A number `m · 2 ^ q` stands for an interval of reals, those that round to it; the
ends belong to the interval when `m` is even.  For one, two, … digits in turn the
two neighbours of the number on that decimal grid are compared with the interval
in exact integer arithmetic.  The first grid with a neighbour inside gives the
digits: of two the nearer one, and of two equally near the even one.  If any
point of a grid lies in the interval, one of the two neighbours does, so no
shorter decimal is passed over.
-/
import ConicModel.Scalar.Binary64

namespace ConicModel.Shortest

/-- A ratio of two natural numbers. -/
structure Ratio where
  num : Nat
  den : Nat

/-- The ratio `n · b ^ e`. -/
def Ratio.scaled (n b : Nat) (e : Int) : Ratio :=
  if 0 ≤ e then ⟨n * Nat.pow b e.toNat, 1⟩ else ⟨n, Nat.pow b (-e).toNat⟩

/-- Whether one ratio is less than another. -/
def Ratio.lt (a b : Ratio) : Bool := decide (a.num * b.den < b.num * a.den)

/-- A decimal `digits · 10 ^ exponent`. -/
structure Decimal where
  digits : Nat
  exponent : Int

/-- The reals that round to a number, their ends included or not. -/
structure Interval where
  low : Ratio
  high : Ratio
  closed : Bool

/-- Whether a ratio lies in an interval. -/
def Interval.has (i : Interval) (x : Ratio) : Bool :=
  if i.closed then !x.lt i.low && !i.high.lt x else i.low.lt x && x.lt i.high

/-- The interval of `m · 2 ^ q`.  Just below a power of two the floats lie twice
as close. -/
def interval (m : Nat) (q : Int) : Interval where
  low := .scaled (4 * m - if m = Nat.pow 2 52 ∧ Binary64.minExponent < q then 1 else 2) 2 (q - 2)
  high := .scaled (4 * m + 2) 2 (q - 2)
  closed := m % 2 == 0

/-- The number of digits before the point: the least `e` with `x < 10 ^ e`, which
is one of a few candidates near its binary estimate. -/
def magnitude (m : Nat) (q : Int) : Int :=
  let x := Ratio.scaled m 2 q
  let estimate := Int.fdiv ((m.log2 + q) * 30103) 100000
  ((List.range 4).map fun k : Nat => estimate + k).find? (fun e => x.lt (.scaled 1 10 e))
    |>.getD (estimate + 4)

/-- A neighbour of the number on the grid of `n` digits that reads back to it. -/
def onGrid (m : Nat) (q : Int) (exponent : Int) : Option Decimal :=
  let x := Ratio.scaled m 2 q
  let scaled := if 0 ≤ exponent then (⟨x.num, x.den * Nat.pow 10 exponent.toNat⟩ : Ratio)
    else ⟨x.num * Nat.pow 10 (-exponent).toNat, x.den⟩
  let below := scaled.num / scaled.den
  let rest := scaled.num % scaled.den
  let reads := fun d : Nat => (interval m q).has (.scaled d 10 exponent)
  match reads below, reads (below + 1) with
  | true, true =>
    if 2 * rest < scaled.den ∨ (2 * rest = scaled.den ∧ below % 2 = 0) then some ⟨below, exponent⟩
    else some ⟨below + 1, exponent⟩
  | true, false => some ⟨below, exponent⟩
  | false, true => some ⟨below + 1, exponent⟩
  | false, false => none

/-- The shortest decimal that reads back to `m · 2 ^ q`, for `m` not zero.  Seventeen
digits are always enough. -/
def decimal (m : Nat) (q : Int) : Decimal :=
  let e := magnitude m q
  ((List.range 17).findSome? fun n : Nat => onGrid m q (e - ((n : Int) + 1))).getD ⟨0, 0⟩

/-- Drop the zeros at the end of a decimal. -/
def Decimal.trim (d : Decimal) : Nat → Decimal
  | 0 => d
  | fuel + 1 =>
    if d.digits ≠ 0 ∧ d.digits % 10 = 0 then trim ⟨d.digits / 10, d.exponent + 1⟩ fuel else d

/-- How decimals are laid out. -/
structure Layout where
  /-- The least place of the point that is written without an exponent. -/
  minPoint : Int
  /-- The greatest one. -/
  maxPoint : Int
  /-- Whether a whole number is written with a point and a zero. -/
  pointZero : Bool

/-- Lay out a decimal. -/
def Layout.write (l : Layout) (d : Decimal) : String :=
  let ds := toString d.digits
  let point : Int := d.exponent + ds.length
  if l.minPoint ≤ point ∧ point ≤ l.maxPoint then
    if point ≤ 0 then "0." ++ String.ofList (List.replicate (-point).toNat '0') ++ ds
    else if ds.length ≤ point.toNat then
      ds ++ String.ofList (List.replicate (point.toNat - ds.length) '0')
        ++ (if l.pointZero then ".0" else "")
    else
      let n := point.toNat
      String.ofList (ds.toList.take n) ++ "." ++ String.ofList (ds.toList.drop n)
  else
    let power := point - 1
    let digits := toString power.natAbs
    let fraction := ds.toList.drop 1
    String.ofList (ds.toList.take 1)
      ++ (if fraction.isEmpty then "" else "." ++ String.ofList fraction)
      ++ "e" ++ (if power < 0 then "-" else "+")
      ++ (if digits.length < 2 then "0" ++ digits else digits)

/-- A float in its shortest decimal form. -/
def Layout.writeFloat (l : Layout) (x : Float) : String :=
  match Binary64.ofFloat x with
  | .nan => "nan"
  | .infinite s => if s then "-inf" else "inf"
  | .finite s m e =>
    (if s then "-" else "") ++
      if m = 0 then l.write ⟨0, 0⟩ else l.write ((decimal m e).trim 20)

end ConicModel.Shortest
