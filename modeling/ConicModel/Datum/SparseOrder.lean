/-
Questions about sparse matrices.

A sparse matrix answers with a sparse matrix of truth values, in which what holds
is stored.  What is not stored counts as zero.  If a question holds of zero, the
answer is yes except where a stored value violates it; a stored value that is not
a number violates nothing but equality.  If it does not hold of zero, the answer
is yes where it holds of a stored value.
-/
import ConicModel.Datum.Dense

namespace ConicModel.Datum

variable {α : Type} [Scalar α]

/-- The truth values that hold at the places of a sparse matrix. -/
def truths (rows cols : Nat) (holds : Nat → Nat → Bool) : Input α :=
  .sparse 0 true (.real (.ofColumns rows cols fun j =>
    (List.range rows).filterMap fun i => if holds i j then some (i, 1) else none))

/-- The truth values that hold of what is stored. -/
def storedTruths (A : Coeffs α) (holds : Atom α → Bool) : Input α :=
  match A with
  | .real A => .sparse 0 true (.real (kept A .real))
  | .complex A => .sparse 0 true (.real (kept A .complex))
where
  kept {R : Type} (A : Sparse R) (atom : R → Atom α) : Sparse α :=
    ⟨A.rows, A.columns.map fun c =>
      c.filterMap fun e => if holds (atom e.2) then some (e.1, 1) else none⟩

/-- What is stored at a place. -/
def storedAt (A : Coeffs α) (i j : Nat) : Option (Atom α) :=
  match A with
  | .real A => ((A.column j).find? fun e => e.1 == i).map fun e => .real e.2
  | .complex A => ((A.column j).find? fun e => e.1 == i).map fun e => .complex e.2

/-- Whether two elements violate a question. -/
def violates (k : Kind) (q : Question) (a b : Atom α) : Bool :=
  match q with
  | .eq => !k.ask .eq a b
  | q => k.ask q.flip a b && !k.ask .eq a b

/-! ## A bare number -/

/-- Whether an atom is not a number although it stands for one. -/
def isNaN (a : Atom α) : Bool :=
  let z := a.toCplx
  !(Scalar.eq z.re z.re && Scalar.eq z.im z.im)

/-- The answer about zero and a bare number.  A complex number has no order unless
it is the element of an array. -/
def askZero (q : Question) (d : Input α) (a : Atom α) : Except Mishap Bool :=
  match d, a with
  | .atom .., a => a.ask q.flip (.int 0)
  | _, .complex z => .ok (Kind.complex.ask q (.int 0) (.complex z))
  | _, a => a.ask q.flip (.int 0)

/-- The kind in which stored values meet a bare number. -/
def kindToMeet (k : Kind) (a : Atom α) : Kind :=
  if k.isIntegral && a.integer?.isSome then .whole else k.sup a.kind

/-- The answer about a sparse matrix and a bare number, which stands as a datum and
as the atom it holds. -/
def askSparseBare (q : Question) (isTruth : Bool) (A : Coeffs α) (d : Input α) (a : Atom α) :
    Except Mishap (Input α) := do
  if !a.isNumber || a.kind = .loose then throw .sort
  let rows := Coeffs.rows A
  let cols := Coeffs.cols A
  if isNaN a then return storedTruths A fun _ => false
  let kind := kindToMeet (sparseKind isTruth A) a
  if ← askZero q d a then
    Extent.check [rows, cols] 1
    pure (truths rows cols fun i j => (storedAt A i j).all fun x => !violates kind q x a)
  else pure (storedTruths A fun x => kind.ask q x a)

/-! ## Another sparse matrix -/

/-- The test `z < w`, where the imaginary parts count if the real parts are equal. -/
def complexLt (z w : Cplx α) : Bool :=
  if Scalar.eq z.re w.re then Scalar.lt z.im w.im else Scalar.lt z.re w.re

/-- Whether the elements of two sparse matrices at one place violate a question. -/
def violatesStored (q : Question) (z w : Cplx α) : Bool :=
  match q with
  | .eq => !(Scalar.eq z.re w.re && Scalar.eq z.im w.im)
  | .ge => complexLt z w
  | .le => complexLt w z

/-- The answer about two sparse matrices.  Those of different shapes are not equal
and have no order. -/
def askSparsePair (q : Question) (A B : Coeffs α) : Except Mishap (Input α) := do
  if Coeffs.shape A ≠ Coeffs.shape B then
    if q = .eq then pure (ofBool false) else throw .content
  else
    Extent.check [Coeffs.rows A, Coeffs.cols A] 1
    let value := fun (M : Coeffs α) i j => ((storedAt M i j).getD (.int 0)).toCplx
    pure (truths (Coeffs.rows A) (Coeffs.cols A) fun i j =>
      ((storedAt A i j).isNone && (storedAt B i j).isNone)
        || !violatesStored q (value A i j) (value B i j))

end ConicModel.Datum
