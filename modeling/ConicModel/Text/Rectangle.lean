/-
Rectangles of words in brackets.

Every dimension has its own pair of brackets.  The words of the last dimension
stand in a row, which is broken where a line would become too long; the rows of the
others stand below each other, with an empty line more for each dimension further
out.  A word of several lines keeps its shape.  Of a rectangle of very many words
only the edges are shown.
-/

namespace ConicModel.Rectangle

/-- How a rectangle is written. -/
structure Style where
  /-- What stands between two words of a row. -/
  separator : String
  /-- What stands before the first bracket. -/
  opening : String
  /-- What stands after the last bracket. -/
  closing : String

/-- How long a line may be. -/
def lineWidth : Nat := 75

/-- How many words are shown in full. -/
def maxWords : Nat := 1000

/-- How many members are shown at either edge of a dimension. -/
def edge : Nat := 3

/-- A text without the blanks at its end. -/
def trimEnd (s : String) : String :=
  String.ofList (s.toList.reverse.dropWhile (· == ' ')).reverse

/-- Blanks. -/
def blanks (n : Nat) : String := String.ofList (List.replicate n ' ')

/-- The places of a dimension that are shown, none standing for those that are not. -/
def shownPlaces (isLong : Bool) (n : Nat) : List (Option Nat) :=
  if isLong && decide (2 * edge < n) then
    (List.range edge).map some ++ none :: (List.range edge).map fun i => some (n - edge + i)
  else (List.range n).map some

/-- Lines that are finished, and the one that is being written. -/
structure Draft where
  finished : String
  line : String

/-- Put a word at the end of a draft.  A line is not broken if nothing stands in it
yet. -/
def Draft.add (limit : Nat) (indent : String) (d : Draft) (word : String) : Draft :=
  let parts := word.splitOn "\n"
  let width := (parts.map (·.length)).foldl max 0
  let breaks := decide (limit < d.line.length + width) && decide (indent.length < d.line.length)
  let start : Draft := if breaks then ⟨d.finished ++ trimEnd d.line ++ "\n", indent⟩ else d
  match parts with
  | [] | [_] => { start with line := start.line ++ word }
  | first :: rest =>
    let inner := if breaks then indent else blanks d.line.length
    let last := rest.foldl
      (fun (d : Draft) part => ⟨d.finished ++ trimEnd d.line ++ "\n", inner ++ part⟩)
      { start with line := start.line ++ first }
    { last with line := last.line ++ blanks (width - (rest.getLastD "").length) }

/-- The words of a row, each but the last with a separator after it. -/
def row (separator : String) (limit : Nat) (indent : String) (words : List String) : String :=
  let d := words.zipIdx.foldl (fun (d : Draft) e =>
    let d := d.add limit indent e.1
    if e.2 + 1 < words.length then { d with line := d.line ++ separator } else d) ⟨"", indent⟩
  d.finished ++ d.line

/-- What stands between the members of a dimension with `depth` more inside. -/
def lineBreak (separator : String) (depth : Nat) : String :=
  trimEnd separator ++ String.ofList (List.replicate depth '\n')

/-- The rectangle of a shape whose first word is the one at `start`. -/
def body (separator : String) (isLong : Bool) (word : Nat → String) :
    (shape : List Nat) → (start width : Nat) → (indent : String) → String
  | [], start, _, _ => word start
  | [n], start, width, indent =>
    let words := (shownPlaces isLong n).map fun p => p.elim "..." fun i => word (start + i)
    bracket indent (row separator (width - 1) indent words)
  | n :: inner, start, width, indent =>
    let size := inner.foldl (· * ·) 1
    let members := (shownPlaces isLong n).map fun p =>
      indent ++ p.elim "..." fun i =>
        body separator isLong word inner (start + i * size) (width - 1) (indent ++ " ")
    bracket indent ((lineBreak separator inner.length).intercalate members)
where
  bracket (indent text : String) : String :=
    "[" ++ String.ofList (text.toList.drop indent.length) ++ "]"

/-- Whether a rectangle has too many words to show them all. -/
def isLong (shape : List Nat) : Bool := decide (maxWords < shape.foldl (· * ·) 1)

/-- A rectangle of words. -/
def write (style : Style) (shape : List Nat) (word : Nat → String) : String :=
  let text := if shape.contains 0 then "[]" else
    body style.separator (isLong shape) word shape 0 (lineWidth - style.closing.length)
      (blanks (style.opening.length + 1))
  style.opening ++ text

/-- The places of the words that are shown of a rectangle. -/
def places (isLong : Bool) : List Nat → Nat → List Nat
  | [], start => [start]
  | n :: inner, start =>
    let size := inner.foldl (· * ·) 1
    (shownPlaces isLong n).flatMap fun p =>
      p.elim [] fun i => places isLong inner (start + i * size)

/-- The places of the words that are shown of a rectangle. -/
def shown (shape : List Nat) : List Nat := places (isLong shape) shape 0

end ConicModel.Rectangle
