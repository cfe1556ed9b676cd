/-
Single pieces of data.

An atom is a number, a truth value, a text, or nothing.  Truth values count as
integers, and numbers of every sort are compared by what they are: an integer is
not rounded before it meets a scalar, so two numbers are equal only if they are
the same real or complex number.  Order is asked of reals and of texts.
-/
import ConicModel.Mishap
import ConicModel.Scalar

namespace ConicModel

/-- A single piece of data. -/
inductive Atom (α : Type) where
  | null
  | bool (b : Bool)
  | int (n : Int)
  | real (x : α)
  | complex (z : Cplx α)
  | text (s : String)

/-- The operators that ask whether something holds. -/
inductive Question where
  | ge | le | eq
deriving DecidableEq

/-- The question asked from the other side. -/
def Question.flip : Question → Question
  | ge => le
  | le => ge
  | eq => eq

/-- The answer to a question about two integers. -/
def Question.ofInts : Question → Int → Int → Bool
  | ge, m, n => decide (n ≤ m)
  | le, m, n => decide (m ≤ n)
  | eq, m, n => decide (m = n)

/-- The answer to a question about two texts, which are ordered by their
characters. -/
def Question.ofTexts : Question → String → String → Bool
  | ge, s, t => decide (t ≤ s)
  | le, s, t => decide (s ≤ t)
  | eq, s, t => decide (s = t)

namespace Atom

variable {α : Type}

/-- The integer that an atom is. -/
def integer? : Atom α → Option Int
  | bool b => some (if b then 1 else 0)
  | int n => some n
  | _ => none

/-- The text that an atom is. -/
def text? : Atom α → Option String
  | text s => some s
  | _ => none

/-- Whether an atom is a real number. -/
def isReal : Atom α → Bool
  | bool _ | int _ | real _ => true
  | _ => false

/-- Whether an atom is a number. -/
def isNumber : Atom α → Bool
  | complex _ => true
  | a => a.isReal

variable [Scalar α]

/-- The real number that an atom is; zero for one that is none. -/
def toReal : Atom α → α
  | bool b => if b then 1 else 0
  | int n => Scalar.ofInt n
  | real x => x
  | complex z => z.re
  | _ => 0

/-- The complex number that an atom is; zero for one that is none. -/
def toCplx : Atom α → Cplx α
  | complex z => z
  | a => .ofReal a.toReal

/-- Whether an atom counts as true. -/
def truth : Atom α → Bool
  | null => false
  | bool b => b
  | int n => n != 0
  | real x => !isZero x
  | complex z => !isZero z
  | text s => !s.isEmpty

/-! ## Comparison -/

/-- Whether one real number is at most another. -/
def realLe (a b : Atom α) : Bool :=
  match a.integer?, b.integer? with
  | some m, some n => decide (m ≤ n)
  | some m, none => Scalar.intLe m b.toReal
  | none, some n => Scalar.leInt a.toReal n
  | none, none => Scalar.le a.toReal b.toReal

/-- The real part of a number. -/
def realPart : Atom α → Atom α
  | complex z => real z.re
  | a => a

/-- Whether two numbers are equal. -/
def sameNumber (a b : Atom α) : Bool :=
  realLe a.realPart b.realPart && realLe b.realPart a.realPart && Scalar.eq a.toCplx.im b.toCplx.im

/-- Whether two atoms are equal. -/
def same : Atom α → Atom α → Bool
  | null, null => true
  | text s, text t => s == t
  | a, b => a.isNumber && b.isNumber && sameNumber a b

/-- The answer to a question about two atoms. -/
def ask (q : Question) (a b : Atom α) : Except Mishap Bool :=
  match q with
  | .eq => .ok (same a b)
  | q =>
    match a, b with
    | text s, text t => .ok (q.ofTexts s t)
    | a, b =>
      if a.isReal && b.isReal then .ok (if q = .ge then realLe b a else realLe a b)
      else .error .sort

/-! ## Arithmetic -/

/-- A number as a complex one, if it is a number and not too large. -/
def toNumber : Atom α → Except Mishap (Cplx α)
  | int n => (Scalar.ofInt? n).elim (.error .range) fun x => .ok (.ofReal x)
  | null | text _ => .error .sort
  | a => .ok a.toCplx

/-- The sum or the difference of two numbers.  Integers are added exactly. -/
def add (minus : Bool) (a b : Atom α) : Except Mishap (Atom α) :=
  match a.integer?, b.integer? with
  | some m, some n => .ok (int (if minus then m - n else m + n))
  | _, _ => do
    if !(a.isNumber && b.isNumber) then throw .sort
    let z ← a.toNumber
    let w ← b.toNumber
    let sum := if minus then z - w else z + w
    pure (if a.isReal && b.isReal then real sum.re else complex sum)

/-- A number with its sign changed. -/
def neg : Atom α → Except Mishap (Atom α)
  | bool b => .ok (int (if b then -1 else 0))
  | int n => .ok (int (-n))
  | real x => .ok (real (-x))
  | complex z => .ok (complex (-z))
  | null | text _ => .error .sort

/-- How many places an integer can be shifted to the left before it is too large
to be kept. -/
def maxShift : Int := Int.pow 2 31

/-- How many places an integer can be shifted to the left before the places can no
longer be counted. -/
def maxPlaces : Int := 30 * Int.pow 2 60

/-- An integer shifted by another one, to the left or to the right. -/
def shift (left : Bool) (a b : Atom α) : Except Mishap (Atom α) :=
  match a.integer?, b.integer? with
  | some m, some n =>
    if n < 0 then .error .content
    else if m = 0 then .ok (int 0)
    else if left then
      if maxPlaces ≤ n then .error .range
      else if maxShift ≤ n then .error .memory
      else .ok (int (m * Int.pow 2 n.toNat))
    else if n ≤ maxShift then .ok (int (m / Int.pow 2 n.toNat))
    else .ok (int (if m < 0 then -1 else 0))
  | _, _ => .error .sort

end Atom

end ConicModel
