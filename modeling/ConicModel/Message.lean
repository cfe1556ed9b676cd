/-
The wording of faults and notices.

Messages quote the data they are about the way a session writes it: text in
marks, sequences in brackets, numbers by the fewest digits that read back.
-/
import ConicModel.Datum.Quoting
import ConicModel.Text.Column
import ConicModel.Text.Quoted

namespace ConicModel

/-! ## Quoted data -/

/-- Numbers have a point, and an exponent from `10 ^ 16` on and below `10 ^ -4`. -/
def numberLayout : Shortest.Layout := ⟨-3, 16, true⟩

/-- The parts of a complex number are written without a point where they are whole. -/
def partLayout : Shortest.Layout := ⟨-3, 16, false⟩

/-- Both parts of a complex number, or its imaginary part alone if the real part is
zero, and whether both are written. -/
def Cplx.parts (z : Cplx Float) : String × Bool :=
  let im := partLayout.writeFloat z.im
  if Binary64.ofFloat z.re = .finite false 0 Binary64.minExponent then (im ++ "j", false)
  else
    let sign := if im.startsWith "-" then "" else "+"
    (partLayout.writeFloat z.re ++ sign ++ im ++ "j", true)

/-- A complex number, in parentheses if it has two parts. -/
def Cplx.quoted (z : Cplx Float) : String :=
  if z.parts.2 then "(" ++ z.parts.1 ++ ")" else z.parts.1

/-- Members with commas between them. -/
def commas (xs : List String) : String := ", ".intercalate xs

/-- Members in parentheses; a single one is followed by a comma. -/
def tupleText : List String → String
  | [x] => "(" ++ x ++ ",)"
  | xs => "(" ++ commas xs ++ ")"

/-- The shape of an array. -/
def dimensionsText (shape : List Nat) : String := tupleText (shape.map toString)

/-- A text without the NUL characters at its end, as an array of texts keeps it. -/
def unpadded (s : String) : String :=
  String.ofList (s.toList.reverse.dropWhile (· == Char.ofNat 0)).reverse

/-- An atom as it is quoted. -/
def Atom.quoted : Atom Float → String
  | null => "None"
  | bool b => if b then "True" else "False"
  | int n => toString n
  | real x => numberLayout.writeFloat x
  | complex z => z.quoted
  | text s => Quoted.quote s

/-- An atom as it is written where text is not quoted. -/
def Atom.plain : Atom Float → String
  | text s => s
  | a => a.quoted

/-- The element of an array of texts. -/
def Atom.asText : Atom Float → String
  | text s => unpadded s
  | a => a.quoted

/-- The element of an array as it is quoted: by its kind and its value. -/
def Atom.quotedElement (kind : Kind) (a : Atom Float) : String :=
  match kind, a with
  | .truth, a => "np." ++ a.quoted ++ "_"
  | .text, a => "np.str_(" ++ Quoted.quote a.asText ++ ")"
  | .complex, .complex z => "np.complex128(" ++ z.parts.1 ++ ")"
  | kind, a => "np." ++ kind.name ++ "(" ++ a.quoted ++ ")"

/-! ## Arrays -/

/-- The words for the cells of an array, which depend on all that are shown. -/
def numberWord (kind : Kind) (shape : List Nat) (cells : Array (Atom Float)) : Nat → String :=
  let atom := fun i => cells.getD i .null
  let shown := (Rectangle.shown shape).map atom
  match kind with
  | .truth => fun i =>
    if (atom i).truth then (if shape.isEmpty then "True" else " True") else "False"
  | .real =>
    let column := Column.ofFloats false (shown.map (·.toReal))
    fun i => column.write (atom i).toReal
  | .complex =>
    let column := CplxColumn.ofCplxs (shown.map (·.toCplx))
    fun i => column.write (atom i).toCplx
  | .text => fun i => Quoted.quote (atom i).asText
  | _ =>
    let width := (shown.map (·.quoted.length)).foldl max 0
    fun i => Column.padLeft width (atom i).quoted

/-- The name of the element type of an array. -/
def elementTypeText (kind : Kind) (cells : Array (Atom Float)) : String :=
  match kind with
  | .text =>
    let width := (cells.toList.map (·.asText.length)).foldl max 1
    s!"'<U{width}'"
  | kind => kind.name

/-- What is added to an array whose shape or element type cannot be seen. -/
def arrayExtras (kind : Kind) (shape : List Nat) (cells : Array (Atom Float)) : List String :=
  let isEmpty := shape.contains 0
  let isPlain := [Kind.truth, .whole, .real, .complex].contains kind
  (if (isEmpty && shape != [0]) || Rectangle.isLong shape then
      ["shape=" ++ dimensionsText shape] else []) ++
    if !isPlain || isEmpty then ["dtype=" ++ elementTypeText kind cells] else []

/-- An array as it is quoted, given the words for its cells. -/
def arrayText (rigid : Bool) (kind : Kind) (shape : List Nat) (cells : Array (Atom Float))
    (word : Nat → String) : String :=
  let opening := if rigid then "matrix(" else "array("
  let text := Rectangle.write ⟨", ", opening, ")"⟩ shape word
  match arrayExtras kind shape cells with
  | [] => text ++ ")"
  | extras =>
    let text := text ++ ","
    let last := (text.splitOn "\n").getLastD ""
    let extra := commas extras ++ ")"
    let gap := if Rectangle.lineWidth < last.length + extra.length + 1 then
      "\n" ++ Rectangle.blanks opening.length else " "
    text ++ gap ++ extra

/-- A sparse matrix as it is quoted. -/
def sparseText (isTruth : Bool) (A : Coeffs Float) : String :=
  let kind := if isTruth then Kind.truth else if A.isComplex then Kind.complex else Kind.real
  s!"<Compressed Sparse Column sparse matrix of dtype '{kind.name}'\n" ++
    s!"\twith {Coeffs.stored A} stored elements and shape {shapeText (Coeffs.shape A)}>"

namespace Datum

mutual

/-- A datum as it is quoted. -/
def quoted : Datum Float String → String
  | atom _ a => a.quoted
  | element _ kind a => a.quotedElement kind
  | list _ xs => "[" ++ commas (quotedList xs) ++ "]"
  | tuple _ xs => tupleText (quotedList xs)
  | array _ rigid kind shape cells =>
    let atoms := (cells.map toAtom).toArray
    if kind = .loose then
      let words := (quotedCells cells).toArray
      arrayText rigid kind shape atoms fun i => words.getD i ""
    else arrayText rigid kind shape atoms (numberWord kind shape atoms)
  | sparse _ isTruth A => sparseText isTruth A
  | mapping _ keys values =>
    let entries := keys.zipWith (fun (k : Int) v => s!"{k}: {v}") (quotedList values)
    "\x7b" ++ commas entries ++ "\x7d"
  | record _ o cone size =>
    s!"ConicConstraint(objective={quoted o}, cone={Quoted.quote cone.text}, size={size})"
  | thing _ o => o

/-- The members of a sequence as they are quoted. -/
def quotedList : List (Datum Float String) → List String
  | [] => []
  | d :: ds => quoted d :: quotedList ds

/-- The cells of a loose array as they are quoted, sequences being named. -/
def quotedCells : List (Datum Float String) → List String
  | [] => []
  | list s xs :: ds => ("list(" ++ quoted (list s xs) ++ ")") :: quotedCells ds
  | d :: ds => quoted d :: quotedCells ds

end

/-- A datum as it is written where text is not quoted. -/
def plain : Datum Float String → String
  | atom _ a => a.plain
  | element _ .text a => a.asText
  | element _ _ a => a.quoted
  | array _ _ _ [] [d] => d.toAtom.plain
  | array _ _ kind shape cells =>
    let atoms := (cells.map toAtom).toArray
    let style : Rectangle.Style := ⟨" ", "", ""⟩
    if kind = .loose then
      let words := (quotedCells cells).toArray
      Rectangle.write style shape fun i => words.getD i ""
    else Rectangle.write style shape (numberWord kind shape atoms)
  | d => d.quoted

end Datum

/-! ## Faults -/

/-- The wording of a refusal by an objective, where it has one. -/
def ObjectiveFault.message : ObjectiveFault → Option String
  | taken key => s!"ConicObjective already has an entry for id {key}"
  | partsDiffer r i =>
    s!"Real part {shapeText r} and imaginary part {shapeText i} differ in shape"
  | rowsDiffer key found expected => s!"Entry for id {key} has {found} rows, expected {expected}"
  | sumRows m n => s!"Cannot add conic objectives with {m} and {n} rows"
  | premultiply rows shape =>
    s!"Cannot premultiply objective with {rows} rows by matrix of shape {shapeText shape}"
  | sumColumns | missing _ => none

/-- The wording of a fault, where it has one. -/
def Fault.message : Fault Float → Option String
  | objective f => f.message
  | numberForMatrix s => s!"Cannot set value of a variable of size {shapeText s} to a scalar"
  | vectorForMatrix s => s!"Cannot set value of a variable of size {shapeText s} to a vector"
  | vectorLength s n => s!"Variable size {shapeText s} and value length {n} do not match"
  | arrayShape s found =>
    s!"Variable size {shapeText s} and value size {dimensionsText found} do not match"
  | valueNotNumeric v => s!"Cannot convert {v.quoted} to a numeric value"
  | valueComplex s => s!"Cannot assign a complex value to a real variable (sign {s.text})"
  | constantOfExpr e => s!"Constant cannot wrap expression {e}"
  | constantNotNumeric v => s!"Cannot build a constant from {v.quoted}"
  | constantShape found =>
    s!"Constants must be at most 2-dimensional, got {dimensionsText found}"
  | notExpression c => s!"Cannot use {c} as an expression"
  | sidesDiffer l r =>
    s!"Cannot create constraint between expressions of size {shapeText l} and {shapeText r}"
  | kronLeft => "kron requires a constant left operand"
  | complexInequality => "Cannot create inequality constraint with complex arguments"
  | truthValue r =>
    s!"{r.className} cannot be used as a truth value; " ++
      "compare expression ids with `is` instead"
  | sidesNotSquare s =>
    s!"Semidefinite constraints require a square operand, got {shapeText s}"
  | variableNotSquare hermitian m n =>
    let name := if hermitian then "HermitianSemidefinite" else "Semidefinite"
    s!"{name} matrices must be square, got ({m.plain}, {n.plain})"
  | dimensionCount ds =>
    let found := tupleText (ds.map toString)
    s!"Variables must be 2-dimensional, got shape {found}"
  | dimensionSign r c => s!"Variable dimensions must be positive, got ({r}, {c})"
  | setsAndKind => "Pass either `sets` or `vartype`, not both"
  | unknownSets names =>
    let found := commas (names.map Quoted.quote)
    s!"Unknown variable sets [{found}]; expected any of ('Bin', 'Int', 'Semidefinite')"
  | registered id c => s!"Variable {id} already registered in context '{c.text}'"
  | unregistered id c => s!"No variable with id {id} in context '{c.text}'"
  | signWithoutConstraint s => s!"Sign {s.text} does not imply a constraint"
  | unvalued .unset => "Value of the variable is yet to be calculated"
  | fixUnvalued => "This variable has no value yet; cannot fix value to nothing!"
  | cachedExpr id => s!"Conic form for node {id} already cached"
  | cachedConstraint id => s!"Constraint {id} already cached"
  | solutionLength found expected =>
    s!"Solution vector has {found} entries, layout requires {expected.plain}"
  | layoutWidth found id expected =>
    s!"Layout width {found.plain} does not match variable {id} (expected {expected})"
  | unwritable =>
    "Exceeds the limit (4300 digits) for integer string conversion; " ++
      "use sys.set_int_max_str_digits() to increase the limit"
  | unvalued .stub | mishap _ | unbound => none

/-! ## Notices -/

/-- The wording of a notice. -/
def Notice.message : Notice → String
  | doubt d => s!"Expression not DCP compliant: {d.text}"
  | oldSets => "The `sets` argument is deprecated; use `vartype` and constraint builders"

end ConicModel
