/-
Quoted text.

Text is quoted in single marks, or in double marks when it holds a single one and
no double one.  Inside, the mark in use and the escape sign are escaped, and so is
every character that does not stand for itself.
-/
import ConicModel.Text.Printable

namespace ConicModel.Quoted

/-- A hexadecimal number of at least the given width. -/
def hex (width n : Nat) : List Char :=
  let ds := Nat.toDigits 16 n
  List.replicate (width - ds.length) '0' ++ ds

/-- A character as it is written between marks. -/
def escape (mark c : Char) : List Char :=
  if c = mark ∨ c = '\\' then ['\\', c]
  else if c = '\n' then ['\\', 'n']
  else if c = '\r' then ['\\', 'r']
  else if c = '\t' then ['\\', 't']
  else if Printable.holds c then [c]
  else if c.toNat < 0x100 then '\\' :: 'x' :: hex 2 c.toNat
  else if c.toNat < 0x10000 then '\\' :: 'u' :: hex 4 c.toNat
  else '\\' :: 'U' :: hex 8 c.toNat

/-- The mark that a text is put in. -/
def mark (cs : List Char) : Char := if cs.contains '\'' && !cs.contains '"' then '"' else '\''

/-- A text in marks. -/
def quote (s : String) : String :=
  let m := mark s.toList
  String.ofList (m :: s.toList.flatMap (escape m) ++ [m])

end ConicModel.Quoted
