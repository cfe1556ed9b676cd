/-
Arrays that are too large to be made.

Dimensions and counts of bytes fit a signed word of 64 bits; an array beyond that
is refused.  One that could be counted but not held is refused for want of memory,
and where that begins is a matter of the machine.  Expressions, constraints and
compilations do not ask: a session looks for room before it makes them.
-/
import ConicModel.Mishap

namespace ConicModel.Extent

/-- Where dimensions and counts of bytes end. -/
def limit : Nat := Nat.pow 2 63

/-- The number of entries from which on no memory is asked for, on some machine. -/
def hopeless : Nat := Nat.pow 2 32

/-- The number of entries of an array, dimensions of zero left out. -/
def volume (dims : List Nat) : Nat := (dims.filter (· != 0)).foldl (· * ·) 1

/-- Whether an array of these dimensions can be made from elements of so many
bytes. -/
def check (dims : List Nat) (bytes : Nat) : Except Mishap Unit :=
  if dims.any (limit ≤ ·) || decide (limit ≤ volume dims * bytes) then .error .content
  else if dims.all (· != 0) && decide (hopeless ≤ volume dims) then .error .memory
  else .ok ()

/-- Whether the identity on so many entries can be made.  Its size has to be a
word before its parts are counted. -/
def checkIdentity (n : Nat) : Except Mishap Unit :=
  if limit ≤ n then .error .range else check [n + 1] 8

end ConicModel.Extent
