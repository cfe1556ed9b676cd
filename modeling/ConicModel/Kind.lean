/-
The kinds of array elements.

An array holds elements of one kind: truth values, integers of a fixed width,
reals, complex numbers, texts, or loose data of any sort.  Elements of two kinds
go together in a third one that can hold both.  Integers of a fixed width wrap
around, truth values add up by disjunction, and complex numbers are ordered by
their real parts first.

A bare number has no kind of its own where it meets an array.  It takes on the
kind of the elements, and only widens it from integers to reals or from reals to
complex numbers.
-/
import ConicModel.Atom

namespace ConicModel

/-- What the elements of an array are. -/
inductive Kind where
  | truth
  /-- Integers of 8 bits. -/
  | byte
  /-- Integers of 64 bits. -/
  | whole
  /-- Integers of 64 bits without a sign. -/
  | natural
  | real | complex | text | loose
deriving DecidableEq

namespace Kind

/-- The kind that holds the elements of two kinds. -/
def sup : Kind → Kind → Kind
  | loose, _ | _, loose => loose
  | text, _ | _, text => text
  | complex, _ | _, complex => complex
  | real, _ | _, real => real
  | natural, natural | natural, truth | truth, natural => natural
  | natural, _ | _, natural => real
  | whole, _ | _, whole => whole
  | byte, _ | _, byte => byte
  | truth, truth => truth

/-- The least and the greatest integer of a kind of integers. -/
def bounds : Kind → Option (Int × Int)
  | byte => some (-Int.pow 2 7, Int.pow 2 7 - 1)
  | whole => some (-Int.pow 2 63, Int.pow 2 63 - 1)
  | natural => some (0, Int.pow 2 64 - 1)
  | _ => none

/-- Whether a kind of integers holds an integer. -/
def holds (k : Kind) (n : Int) : Bool :=
  k.bounds.any fun b => decide (b.1 ≤ n) && decide (n ≤ b.2)

/-- The bits of an integer. -/
def width : Kind → Nat
  | byte => 8
  | _ => 64

/-- An integer cut down to the bits of a kind. -/
def wrap (k : Kind) (n : Int) : Int :=
  match k with
  | natural => n % Int.pow 2 64
  | k => n.bmod (Nat.pow 2 k.width)

/-- Whether the elements are integers, truth values included. -/
def isIntegral (k : Kind) : Bool := k = truth || k.bounds.isSome

/-- Whether the elements are numbers. -/
def isNumeric : Kind → Bool
  | text | loose => false
  | _ => true

/-- The name of a kind where it is shown. -/
def name : Kind → String
  | truth => "bool"
  | byte => "int8"
  | whole => "int64"
  | natural => "uint64"
  | real => "float64"
  | complex => "complex128"
  | text => "str"
  | loose => "object"

end Kind

namespace Atom

variable {α : Type}

/-- The kind of a single atom.  An integer of more than 64 bits is loose. -/
def kind : Atom α → Kind
  | null => .loose
  | bool _ => .truth
  | int n =>
    if Kind.whole.holds n then .whole else if Kind.natural.holds n then .natural else .loose
  | real _ => .real
  | complex _ => .complex
  | text _ => .text

variable [Scalar α]

/-- An atom as an element of an array of numbers; of another array it stays as it
is. -/
def cast (k : Kind) (a : Atom α) : Atom α :=
  match k with
  | .truth => bool a.truth
  | .byte | .whole | .natural => int (k.wrap (a.integer?.getD 0))
  | .real => real a.toReal
  | .complex => complex a.toCplx
  | .text | .loose => a

end Atom

namespace Kind

variable {α : Type} [Scalar α]

/-- The kind of the result when a bare number meets elements of a kind.  An
integer has to fit the elements. -/
def widenTo (k : Kind) (a : Atom α) : Except Mishap Kind :=
  match a, k with
  | .int n, .truth => if whole.holds n then .ok whole else .error .range
  | .int n, .byte | .int n, .whole | .int n, .natural =>
    if k.holds n then .ok k else .error .range
  | .int n, .real | .int n, .complex => if (Scalar.ofInt? n : Option α).isSome then .ok k
    else .error .range
  | .real _, k => .ok (if k.isIntegral then real else k)
  | .complex _, k => .ok (if k.isNumeric then complex else k)
  | _, k => .ok k

/-! ## Elements -/

/-- The test `z ≥ w` by real parts first.  A greater real part decides only if both
imaginary parts are numbers. -/
def complexGe (z w : Cplx α) : Bool :=
  (Scalar.lt w.re z.re && Scalar.eq z.im z.im && Scalar.eq w.im w.im)
    || (Scalar.eq z.re w.re && Scalar.le w.im z.im)

/-- The answer to a question about two elements of a kind. -/
def ask (k : Kind) (q : Question) (a b : Atom α) : Bool :=
  match k with
  | .truth | .byte | .whole | .natural => q.ofInts (a.integer?.getD 0) (b.integer?.getD 0)
  | .real =>
    match q with
    | .ge => Scalar.le b.toReal a.toReal
    | .le => Scalar.le a.toReal b.toReal
    | .eq => Scalar.eq a.toReal b.toReal
  | .complex =>
    let z := a.toCplx
    let w := b.toCplx
    match q with
    | .ge => complexGe z w
    | .le => complexGe w z
    | .eq => Scalar.eq z.re w.re && Scalar.eq z.im w.im
  | .text | .loose =>
    match a.text?, b.text? with
    | some s, some t => q.ofTexts s t
    | _, _ => false

/-- The sum or the difference of two elements of a kind of numbers. -/
def add (k : Kind) (minus : Bool) (a b : Atom α) : Atom α :=
  match k with
  | .truth => .bool (a.truth || b.truth)
  | .byte | .whole | .natural =>
    let m := a.integer?.getD 0
    let n := b.integer?.getD 0
    .int (k.wrap (if minus then m - n else m + n))
  | .real => .real (if minus then a.toReal - b.toReal else a.toReal + b.toReal)
  | _ => .complex (if minus then a.toCplx - b.toCplx else a.toCplx + b.toCplx)

/-- An element of a kind of numbers with its sign changed; truth values have none. -/
def neg (k : Kind) (a : Atom α) : Except Mishap (Atom α) :=
  match k with
  | .byte | .whole | .natural => .ok (.int (k.wrap (-(a.integer?.getD 0))))
  | .real => .ok (.real (-a.toReal))
  | .complex => .ok (.complex (-a.toCplx))
  | _ => .error .sort

/-- The kind in which elements of a kind are shifted.  Only integers can be shifted,
and truth values as short ones. -/
def shifting : Kind → Option Kind
  | truth | byte => some byte
  | whole => some whole
  | natural => some natural
  | _ => none

/-- An element shifted by another one.  Whoever shifts by more places than there
are, or by a negative number of places, shifts everything out. -/
def shift (k : Kind) (left : Bool) (a b : Atom α) : Atom α :=
  let m := a.integer?.getD 0
  let n := b.integer?.getD 0
  .int (if 0 ≤ n ∧ n < k.width then
      k.wrap (if left then m * Int.pow 2 n.toNat else m / Int.pow 2 n.toNat)
    else if !left && decide (m < 0) then -1 else 0)

end Kind

end ConicModel
