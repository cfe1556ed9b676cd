/-
Decimal integers.

A numeral is groups of digits joined by single low lines, with an optional sign
in front and blanks on either side.  Digits of every script count, and so do the
blanks that Unicode has beside the ASCII ones.  A numeral of too many digits is
not read, and an integer with as many is not written.
-/

namespace ConicModel.Numeral

/-- The characters that count as blank around a numeral. -/
def blanks : List Nat :=
  [0x9, 0xa, 0xb, 0xc, 0xd, 0x20, 0x85, 0xa0, 0x1680, 0x2000, 0x2001, 0x2002, 0x2003, 0x2004,
    0x2005, 0x2006, 0x2007, 0x2008, 0x2009, 0x200a, 0x2028, 0x2029, 0x202f, 0x205f, 0x3000]

/-- The zeros of the decimal digits; the other nine follow each. -/
def zeros : List Nat :=
  [0x30, 0x660, 0x6f0, 0x7c0, 0x966, 0x9e6, 0xa66, 0xae6, 0xb66, 0xbe6, 0xc66, 0xce6, 0xd66, 0xde6,
    0xe50, 0xed0, 0xf20, 0x1040, 0x1090, 0x17e0, 0x1810, 0x1946, 0x19d0, 0x1a80, 0x1a90, 0x1b50,
    0x1bb0, 0x1c40, 0x1c50, 0xa620, 0xa8d0, 0xa900, 0xa9d0, 0xa9f0, 0xaa50, 0xabf0, 0xff10, 0x104a0,
    0x10d30, 0x11066, 0x110f0, 0x11136, 0x111d0, 0x112f0, 0x11450, 0x114d0, 0x11650, 0x116c0,
    0x11730, 0x118e0, 0x11950, 0x11c50, 0x11d50, 0x11da0, 0x16a60, 0x16ac0, 0x16b50, 0x1d7ce,
    0x1d7d8, 0x1d7e2, 0x1d7ec, 0x1d7f6, 0x1e140, 0x1e2f0, 0x1e950, 0x1fbf0]

/-- Whether a character is blank. -/
def isBlank (c : Char) : Bool := blanks.contains c.toNat

/-- The value of a digit. -/
def digit? (c : Char) : Option Nat :=
  (zeros.find? fun z => decide (z ≤ c.toNat) && decide (c.toNat < z + 10)).map (c.toNat - ·)

/-- The value of a row of digits in front of which `acc` was read. -/
def digitsValue? (acc : Nat) : List Char → Option Nat
  | [] => some acc
  | c :: cs => do digitsValue? (10 * acc + (← digit? c)) cs

/-- The value of groups of digits, none of them empty. -/
def groupsValue? (acc : Nat) : List (List Char) → Option Nat
  | [] => some acc
  | [] :: _ => none
  | g :: gs => do groupsValue? (← digitsValue? acc g) gs

/-- The most digits that are read or written, leading zeros included. -/
def maxDigits : Nat := 4300

/-- Whether an integer is short enough to be written. -/
def isWritable (n : Int) : Bool := decide (n.natAbs < Nat.pow 10 maxDigits)

/-- The value of digits that may be set apart by single low lines. -/
def magnitude? (cs : List Char) : Option Nat :=
  if (cs.filter (· != '_')).length ≤ maxDigits then groupsValue? 0 (cs.splitOn '_') else none

/-- Drop the blanks on both sides. -/
def trim (cs : List Char) : List Char :=
  ((cs.dropWhile isBlank).reverse.dropWhile isBlank).reverse

/-- The integer that a text denotes. -/
def read? (s : String) : Option Int :=
  match trim s.toList with
  | '-' :: cs => (magnitude? cs).map fun n => -(n : Int)
  | '+' :: cs => (magnitude? cs).map Int.ofNat
  | cs => (magnitude? cs).map Int.ofNat

end ConicModel.Numeral
