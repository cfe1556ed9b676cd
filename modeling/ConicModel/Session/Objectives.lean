/-
Steps that compute with objectives and with the entries of data.

Data of other sorts have sums, signs and entries too.  What a step makes of them is
bound like an objective, or changed like one, but it cannot be shown.
-/
import ConicModel.Datum.Entry
import ConicModel.Session.Compiling

namespace ConicModel.Session

variable {α : Type} [Scalar α]

/-! ## Parts -/

/-- Refuse elements that are no numbers.  They are asked for their truth first, to
see which of them are to be stored. -/
def refuseCells {β : Type} (cells : List (Input α)) : Make α β := do
  cells.forM fun d => do let _ ← d.truth
  throw (.mishap .content)

/-- The integers of a rectangle that has nothing but integers. -/
def integersOf (g : Grid α) : Option (NdArray Int) :=
  if g.kind.isIntegral then
    some ⟨g.shape, (g.cells.map fun d => d.toAtom.integer?.getD 0).toArray⟩
  else none

/-- A datum as a part of an entry: a vector is a column and a number one-by-one. -/
def coeffsOf (d : Input α) : Make α (MixedCoeffs α) :=
  match d with
  | .sparse _ isTruth A =>
    pure (if isTruth then .words (.ofTruth A) else .numbers A)
  | d => do
    let g ← Make.ofOption (.mishap .content) d.grid
    match integersOf g, ArrayView.ofGrid g with
    | some a, _ => do
      let A ← Make.ofOption (.mishap .content) a.toColumns?
      pure (.words ⟨g.kind, .ofDense A⟩)
    | none, .numbers a => do
      let A ← Make.ofOption (.mishap .content) (a.map? NdArray.toColumns?)
      pure (.numbers (Coeffs.ofDense A))
    | none, .texts g | none, .loose g =>
      refuseCells (if g.shape.length ≤ 2 then g.cells else [])

/-- Set an entry of an objective; the key is looked at before the parts are. -/
def setParts (o : MixedObjective α) (key : Id) (real imag : Input α) :
    Make α (MixedObjective α) := do
  if o.entries.has key then throw (.objective (.taken key))
  let r ← coeffsOf real
  let i ← coeffsOf imag
  Make.ofExcept .objective (o.set key ⟨r, i⟩)

/-! ## Making objectives -/

/-- Bind and show what an operation made. -/
def showObjective (name : Option String) (d : Input α) : Op α (Answer α) := do
  match (← bind name d).toObjective? with
  | some o => pure (.objective o)
  | none => refuse .feature

/-- An entry of an objective given by terms. -/
structure EntryTerm (α : Type) where
  key : Id
  real : Term α
  imag : Term α

/-- Make an objective from entries; of two under one key the later one counts. -/
def objectiveOf (es : List (EntryTerm α)) (name : Option String) : Op α (Answer α) := do
  let entries ← es.mapM fun e => do
    let r ← eval e.real
    let i ← eval e.imag
    pure (e.key, r, i)
  let table : Table (Input α × Input α) :=
    entries.foldl (fun t e => Table.put t e.1 (e.2.1, e.2.2)) []
  let o ← make fun _ => table.foldlM (fun o e => setParts o e.1 e.2.1 e.2.2) .empty
  showObjective name (.thing 0 (.objective o))

/-- The cells of a rectangle, the first index running fastest. -/
def cellsByColumn (g : Grid α) : List (Input α) :=
  let cells := g.cells.toArray
  (List.range cells.size).map fun k =>
    cells.getD (NdArray.firstFastest g.shape k) (.atom 0 .null)

/-- The objective of a constant. -/
def constantObjective (t : Term α) (name : Option String) : Op α (Answer α) := do
  let d ← eval t
  let o ← make fun _ => do
    let g ← Make.ofOption (.mishap .content) d.grid
    match integersOf g, ArrayView.ofGrid g with
    | some a, _ =>
      let real := Sparse.ofDense a.toVec
      let imag := Words.zeros g.kind real.rows real.cols
      pure ⟨[(constantKey, ⟨.words ⟨g.kind, real⟩, .words imag⟩)]⟩
    | none, .numbers a => pure (.ofObjective (.ofColumn (a.map NdArray.toVec)))
    | none, .texts g | none, .loose g => refuseCells (cellsByColumn g)
  showObjective name (.thing 0 (.objective o))

/-- The sum or the difference of two data. -/
def combine (minus : Bool) (a b : Term α) (name : Option String) : Op α (Answer α) := do
  let a ← eval a
  let b ← eval b
  showObjective name (← accept (Datum.add minus a b))

/-- Change the sign of a datum. -/
def negate (object : String) (name : Option String) : Op α (Answer α) := do
  let d ← named object
  showObjective name (← accept d.neg)

/-- A matrix times an objective. -/
def premultiply (object : String) (matrix : Term α) (name : Option String) :
    Op α (Answer α) := do
  let o ← namedObjective object
  let d ← eval matrix
  let M ← make fun _ => coeffsOf d
  match o.premultiply M with
  | .ok p => showObjective name (.thing 0 (.objective p))
  | .error e => throw (.objective e)

/-! ## Entries -/

/-- Set an entry of an objective, or set one of another datum to the pair. -/
def objectiveSet (object : String) (key : Id) (real imag : Term α) : Op α (Answer α) := do
  let d ← named object
  let r ← eval real
  let i ← eval imag
  match d with
  | .thing s (.objective o) =>
    let o ← make fun _ => setParts o key r i
    mutate d (.thing s (.objective o))
    pure (.objective o.toObjective)
  | d =>
    let pair ← numbering (Datum.number (.tuple 0 [r, i]))
    mutate d (← accept ((d.setEntry key pair).mapError .mishap))
    refuse .feature

/-- Show two parts, which have to be matrices. -/
def showParts : Input α × Input α → Op α (Answer α)
  | (.sparse _ _ A, .sparse _ _ B) => pure (.part ⟨A, B⟩)
  | _ => refuse .feature

/-- An entry of an objective, or the two members of an entry of another datum. -/
def objectiveGet (object : String) (key : Id) : Op α (Answer α) := do
  match ← named object with
  | .thing _ (.objective o) =>
    match o.get? key with
    | some p => pure (.part p.toPart)
    | none => throw (.objective (.missing key))
  | d => showParts (← accept (((d.entry key).bind (·.twoMembers)).mapError .mishap))

/-- What is shown of an objective on request. -/
def objectiveAbout (object : String) : Op α (Answer α) := do
  pure (.objectiveInfo (objectiveInfo (← namedObjective object).toObjective))

/-- The offset of an objective, written out. -/
def objectiveConstant (object : String) : Op α (Answer α) := do
  let o ← namedObjective object
  let (dims, bytes) := match o.get? constantKey with
    | some p =>
      let A := p.real.toCoeffs
      ([Coeffs.rows A, Coeffs.cols A], p.real.elementBytes)
    | none => ([o.toObjective.rows.getD 0], 8)
  accept (Extent.check dims bytes |>.mapError .mishap)
  pure (.flat o.toObjective.offset)

end ConicModel.Session
