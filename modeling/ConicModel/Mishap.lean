/-
Trouble that is only sorted by kind.

Some input no rule of the library speaks about: a ragged sequence, a missing
entry, a number where a text was due.  It is refused all the same, and all that
is said of it is what kind of trouble it was.
-/

namespace ConicModel

/-- Trouble that is only sorted by kind. -/
inductive Mishap where
  /-- A thing of the wrong sort. -/
  | sort
  /-- A thing of the right sort with contents that cannot be used. -/
  | content
  /-- A number out of range. -/
  | range
  /-- Nothing under a key. -/
  | key
  /-- Nothing at a place. -/
  | place
  /-- A thing without the feature asked for. -/
  | feature
  /-- Arithmetic on an array of texts. -/
  | elements
  /-- An array too large to be made. -/
  | memory
  /-- An operation that is not provided. -/
  | absent
deriving DecidableEq

end ConicModel
