/-
Sorting entries by a key, with the order of equal keys settled.

Entries that share a row are added up in the order in which sorting leaves them,
and over floats the last bit of the sum shows that order.  It is the order of
the customary introspective sort: while a stretch is longer than sixteen
entries it is parted around the middle one of three, after too many partings it
is sorted by a heap, and in the end one pass of insertions puts every entry in
its place.  Up to sixteen entries only the insertions act, so equal keys stay in
the order given; beyond that they may not.

The array goes through the steps as a whole and every index is read with a
default, so that no step needs a bound in its type.  `fuel` counts the moves that
are left, and each walk is given as many as the array can need.
-/

namespace ConicModel.Introsort

variable {R : Type}

/-- Entries with their keys. -/
abbrev Entries (R : Type) := Array (Nat × R)

/-- The key at an index. -/
def keyAt (a : Entries R) (i : Nat) : Nat := (a[i]?).elim 0 (·.1)

/-- Whether the entry at `i` comes before the one at `j`. -/
def before (a : Entries R) (i j : Nat) : Bool := decide (keyAt a i < keyAt a j)

/-- Copy the entry at one index to another. -/
def copy (a : Entries R) (source target : Nat) : Entries R :=
  match a[source]? with
  | some e => a.setIfInBounds target e
  | none => a

/-! ## Insertion -/

/-- Move an entry down from an index past all that come after it. -/
def sink (e : Nat × R) : Nat → Entries R → Entries R
  | 0, a => a.setIfInBounds 0 e
  | i + 1, a =>
    if e.1 < keyAt a i then sink e i (copy a i (i + 1)) else a.setIfInBounds (i + 1) e

/-- Insert the entries one after the other among those before them. -/
def insertAll (a : Entries R) : Entries R :=
  (List.range a.size).foldl (fun a i =>
    match a[i]? with
    | some e => sink e i a
    | none => a) a

/-! ## Parting -/

/-- Put the middle one of three entries at an index. -/
def medianTo (target i j k : Nat) (a : Entries R) : Entries R :=
  let median :=
    if before a i j then if before a j k then j else if before a i k then k else i
    else if before a i k then i
    else if before a j k then k
    else j
  a.swapIfInBounds target median

/-- The first index from `i` on whose entry does not come before the pivot. -/
def climb (a : Entries R) (pivot : Nat) : Nat → Nat → Nat
  | 0, i => i
  | fuel + 1, i => if before a i pivot then climb a pivot fuel (i + 1) else i

/-- The first index from `i` down whose entry does not come after the pivot. -/
def descend (a : Entries R) (pivot : Nat) : Nat → Nat
  | 0 => 0
  | i + 1 => if before a pivot (i + 1) then descend a pivot i else i + 1

/-- Part the entries from `i` up to `j` around the pivot; where the upper part
starts. -/
def part (pivot : Nat) : Nat → Nat → Nat → Entries R → Nat × Entries R
  | 0, i, _, a => (i, a)
  | fuel + 1, i, j, a =>
    let i := climb a pivot a.size i
    let j := descend a pivot (j - 1)
    if i < j then part pivot fuel (i + 1) j (a.swapIfInBounds i j) else (i, a)

/-! ## The heap -/

/-- Move an entry up a heap that starts at `first`, not above `top`. -/
def rise (first top : Nat) (e : Nat × R) : Nat → Nat → Entries R → Entries R
  | 0, hole, a => a.setIfInBounds (first + hole) e
  | fuel + 1, hole, a =>
    let parent := (hole - 1) / 2
    if top < hole ∧ keyAt a (first + parent) < e.1 then
      rise first top e fuel parent (copy a (first + parent) (first + hole))
    else a.setIfInBounds (first + hole) e

/-- Move a hole down a heap of `size` entries to a leaf; where it ends up. -/
def hollow (first size : Nat) : Nat → Nat → Entries R → Nat × Entries R
  | 0, hole, a => (hole, a)
  | fuel + 1, hole, a =>
    if hole < (size - 1) / 2 then
      let right := 2 * (hole + 1)
      let child := if before a (first + right) (first + right - 1) then right - 1 else right
      hollow first size fuel child (copy a (first + child) (first + hole))
    else if size % 2 = 0 ∧ 2 ≤ size ∧ hole = (size - 2) / 2 then
      (2 * hole + 1, copy a (first + 2 * hole + 1) (first + hole))
    else (hole, a)

/-- Let an entry find its place in a heap from a hole on. -/
def settle (first size hole : Nat) (e : Nat × R) (a : Entries R) : Entries R :=
  let (leaf, a) := hollow first size size hole a
  rise first hole e size leaf a

/-- Take the largest entry of the heap `[first, last]` to its end. -/
def popHeap (first last : Nat) (a : Entries R) : Entries R :=
  match a[last]? with
  | some e => settle first (last - first) 0 e (copy a first last)
  | none => a

/-- Sort the entries from `first` up to `last` by a heap. -/
def heapSort (first last : Nat) (a : Entries R) : Entries R :=
  let size := last - first
  let a := (List.range (size / 2)).reverse.foldl (fun a i =>
    match a[first + i]? with
    | some e => settle first size i e a
    | none => a) a
  (List.range' (first + 1) (size - 1)).reverse.foldl (fun a i => popHeap first i a) a

/-! ## Sorting -/

/-- How long a stretch is left to the insertions. -/
def threshold : Nat := 16

/-- Part the entries from `first` up to `last` until all stretches are short.
`depth` counts the partings that are left before the heap takes over. -/
def partAll : Nat → Nat → Nat → Entries R → Entries R
  | 0, first, last, a => if last - first ≤ threshold then a else heapSort first last a
  | depth + 1, first, last, a =>
    if last - first ≤ threshold then a
    else
      let a := medianTo first (first + 1) (first + (last - first) / 2) (last - 1) a
      let (cut, a) := part first a.size (first + 1) last a
      partAll depth first cut (partAll depth cut last a)

/-- Entries in the order of their keys. -/
def sort (es : List (Nat × R)) : List (Nat × R) :=
  let a := es.toArray
  let a := partAll (2 * a.size.log2) 0 a.size a
  (insertAll a).toList

end ConicModel.Introsort
