/-
Arrays of any dimension.

An array is its shape and its elements, the last index running fastest.  A number
is an array without dimensions.
-/
import ConicModel.Matrix.Dense

namespace ConicModel

/-- An array of any dimension. -/
structure NdArray (R : Type) where
  shape : List Nat
  data : Array R

instance : Functor NdArray where
  map f a := ⟨a.shape, a.data.map f⟩

namespace NdArray

variable {R : Type}

/-- An array of at most two dimensions as a matrix.  A number is one-by-one and a
vector is a column; none if there are more dimensions. -/
def toColumns? [Zero R] (a : NdArray R) : Option (Dense R) :=
  match a.shape with
  | [] => some (.ofRowMajor 1 1 a.data)
  | [n] => some (.ofRowMajor n 1 a.data)
  | [r, c] => some (.ofRowMajor r c a.data)
  | _ => none

/-- The same with a vector as a row. -/
def toRows? [Zero R] (a : NdArray R) : Option (Dense R) :=
  match a.shape with
  | [n] => some (.ofRowMajor 1 n a.data)
  | _ => a.toColumns?

/-- Where the element stands that comes at place `k` when the first index runs
fastest. -/
def firstFastest : List Nat → Nat → Nat
  | [], _ => 0
  | n :: ns, k => (k % n) * ns.foldl (· * ·) 1 + firstFastest ns (k / n)

/-- The elements as a column, the first index running fastest. -/
def toVec [Zero R] (a : NdArray R) : Dense R :=
  .ofFn a.data.size 1 fun k _ => a.data.getD (firstFastest a.shape k) 0

end NdArray

namespace Numeric

variable {F G : Type → Type} {α : Type}

/-- Apply a partial operation that keeps the element type. -/
def map? [Entry α] (f : ∀ {R : Type} [Entry R], F R → Option (G R)) :
    Numeric F α → Option (Numeric G α)
  | real x => (f x).map real
  | complex x => (f x).map complex

/-- The shape of an array of numbers. -/
def dims (a : Numeric NdArray α) : List Nat := a.on NdArray.shape

end Numeric

end ConicModel
