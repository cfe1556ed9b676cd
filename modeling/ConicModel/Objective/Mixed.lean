/-
Objectives as they are made by hand.

The parts of an entry given by hand may be integers or truth values, and they stay
so as long as they meet only their like.  A mixed objective keeps such parts beside
the numbers of an objective.  It refuses what the objective of its nearest numbers
refuses, and answers with its entries in the same order; a part that comes of
integers alone is the exact one.  A change of sign is refused as soon as one part
holds truth values.
-/
import ConicModel.Matrix.Words
import ConicModel.Objective

namespace ConicModel

/-- Coefficients as they were given. -/
inductive MixedCoeffs (α : Type) where
  | words (w : Words)
  | numbers (A : Coeffs α)

/-- One entry of a mixed objective. -/
structure MixedPart (α : Type) where
  real : MixedCoeffs α
  imag : MixedCoeffs α

/-- A sparse affine map whose coefficients are of several kinds. -/
structure MixedObjective (α : Type) where
  entries : Table (MixedPart α) := []

namespace MixedCoeffs

variable {α : Type}

/-- The integers, if there are any. -/
def words? : MixedCoeffs α → Option Words
  | words w => some w
  | numbers _ => none

/-- The integers of a result if they are known, and its numbers otherwise. -/
def ofResult (w : Option Words) (A : Coeffs α) : MixedCoeffs α := w.elim (numbers A) words

/-- The integers that an operation makes of two operands, both of which have to be
integers. -/
def wordsOf (op : Words → Words → Option Words) (a b : MixedCoeffs α) : Option Words := do
  op (← a.words?) (← b.words?)

/-- The bytes of an element. -/
def elementBytes : MixedCoeffs α → Nat
  | words w => w.elementBytes
  | numbers A => if A.isComplex then 16 else 8

variable [Scalar α]

/-- The nearest numbers. -/
def toCoeffs : MixedCoeffs α → Coeffs α
  | words w => .real w.toReals
  | numbers A => A

/-- Change the sign, unless the elements are truth values. -/
def neg? : MixedCoeffs α → Option (MixedCoeffs α)
  | words w => words <$> w.neg?
  | numbers A => some (numbers (Coeffs.neg A))

end MixedCoeffs

namespace MixedPart

variable {α : Type}

/-- An entry of numbers. -/
def ofPart (p : Part α) : MixedPart α := ⟨.numbers p.real, .numbers p.imag⟩

/-- The sum of two parts whose nearest numbers have a given sum. -/
def ofSum (p q : MixedPart α) (sum : Part α) : MixedPart α :=
  ⟨.ofResult (MixedCoeffs.wordsOf Words.add? p.real q.real) sum.real,
    .ofResult (MixedCoeffs.wordsOf Words.add? p.imag q.imag) sum.imag⟩

/-- A matrix times a part, given the product of the nearest numbers. -/
def ofProduct (M : MixedCoeffs α) (p : MixedPart α) (product : Part α) : MixedPart α :=
  ⟨.ofResult (MixedCoeffs.wordsOf Words.mul? M p.real) product.real,
    .ofResult (MixedCoeffs.wordsOf Words.mul? M p.imag) product.imag⟩

variable [Scalar α]

/-- The nearest numbers. -/
def toPart (p : MixedPart α) : Part α := ⟨p.real.toCoeffs, p.imag.toCoeffs⟩

/-- Change the sign, unless there are truth values. -/
def neg? (p : MixedPart α) : Option (MixedPart α) := do
  pure ⟨← p.real.neg?, ← p.imag.neg?⟩

end MixedPart

namespace MixedObjective

variable {α : Type}

/-- The objective without entries. -/
def empty : MixedObjective α := {}

/-- An objective of numbers. -/
def ofObjective (o : Objective α) : MixedObjective α :=
  ⟨o.entries.map fun e => (e.1, .ofPart e.2)⟩

/-- The keys in entry order. -/
def keys (o : MixedObjective α) : List Id := o.entries.ids

/-- The entry under a key. -/
def get? (o : MixedObjective α) (key : Id) : Option (MixedPart α) := o.entries.get? key

variable [Scalar α]

/-- The objective of the nearest numbers. -/
def toObjective (o : MixedObjective α) : Objective α :=
  ⟨o.entries.map fun e => (e.1, e.2.toPart)⟩

/-- Add an entry. -/
def set (o : MixedObjective α) (key : Id) (p : MixedPart α) :
    Except ObjectiveFault (MixedObjective α) := do
  let _ ← o.toObjective.set key p.toPart
  pure ⟨o.entries.push key p⟩

/-- The entry of a sum under a key, given that of the nearest numbers. -/
def sumEntry (a b : MixedObjective α) (key : Id) (sum : Part α) : MixedPart α :=
  match a.get? key, b.get? key with
  | some p, some q => .ofSum p q sum
  | some p, none | none, some p => p
  | none, none => .ofPart sum

/-- The sum, in the entry order of the sum of objectives. -/
def add (a b : MixedObjective α) : Except ObjectiveFault (MixedObjective α) := do
  let sum ← a.toObjective.add b.toObjective
  pure ⟨sum.entries.map fun e => (e.1, a.sumEntry b e.1 e.2)⟩

/-- Change the sign of every entry, unless there are truth values. -/
def neg? (o : MixedObjective α) : Option (MixedObjective α) := do
  pure ⟨← o.entries.mapM fun e => e.2.neg?.map (e.1, ·)⟩

/-- The objective of `M · vec e` for a constant matrix `M`. -/
def premultiply (o : MixedObjective α) (M : MixedCoeffs α) :
    Except ObjectiveFault (MixedObjective α) := do
  let product ← o.toObjective.premultiply M.toCoeffs
  pure ⟨product.entries.map fun e =>
    (e.1, ((o.get? e.1).elim (.ofPart e.2) fun p => .ofProduct M p e.2))⟩

end MixedObjective

end ConicModel
