/-
Sums and differences of data.

Numbers are added as numbers, texts and sequences are put one after the other,
objectives have a sum of their own, and arrays are added element by element;
elements that are loose are added as data.  A sparse matrix takes another one of
its shape, an array that can be used again to fill its shape, and the number zero.
-/
import ConicModel.Datum.Dense
import ConicModel.Fault

namespace ConicModel.Datum

variable {α : Type} [Scalar α]

/-! ## Sparse matrices -/

/-- The sum or the difference of two sparse matrices.  Truth values differ where
exactly one of them holds. -/
def addSparsePair (minus t u : Bool) (A B : Coeffs α) : Except (Fault α) (Input α) :=
  match Coeffs.add? A (if minus then Coeffs.neg B else B) with
  | none => .error (.mishap .content)
  | some C =>
    if t && u then
      match C with
      | .real C => .ok (.sparse 0 true (.real (C.map fun _ => 1)))
      | C => .ok (.sparse 0 true C)
    else .ok (.sparse 0 false C)

/-- The sum or the difference of a sparse matrix and a bare number, which has to be
zero. -/
def addSparseBare (minus isLeft isTruth : Bool) (A : Coeffs α) (a : Atom α) :
    Except (Fault α) (Input α) :=
  if !a.isNumber || a.truth then .error (.mishap .absent)
  else if minus && !isLeft then
    if isTruth then .error (.mishap .absent) else .ok (.sparse 0 false (Coeffs.neg A))
  else .ok (.sparse 0 isTruth A)

/-! ## Pairs of data -/

/-- Data without elements that are added one by one. -/
def addPlain (minus : Bool) : Input α → Input α → Except (Fault α) (Input α)
  | .thing _ (.objective a), .thing _ (.objective b) =>
    match if minus then b.neg? else some b with
    | none => .error (.mishap .absent)
    | some b =>
      match a.add b with
      | .ok o => .ok (.thing 0 (.objective o))
      | .error e => .error (.objective e)
  | .atom s (.text a), .atom t (.text b) =>
    if minus then .error (.mishap .sort)
    else if b.isEmpty then .ok (.atom s (.text a))
    else if a.isEmpty then .ok (.atom t (.text b))
    else .ok (.atom 0 (.text (a ++ b)))
  | .list _ xs, .list _ ys => if minus then .error (.mishap .sort) else .ok (.list 0 (xs ++ ys))
  | .tuple s xs, .tuple t ys =>
    if minus then .error (.mishap .sort)
    else if ys.isEmpty then .ok (.tuple s xs)
    else if xs.isEmpty then .ok (.tuple t ys)
    else .ok (.tuple 0 (xs ++ ys))
  | .atom _ a, .atom _ b =>
    match a.add minus b with
    | .ok c => .ok (.atom 0 c)
    | .error m => .error (.mishap m)
  | _, _ => .error (.mishap .sort)

/-- The sum or the difference of two arrays, given that of loose elements. -/
def addArrays (minus : Bool) (add : Input α → Input α → Except (Fault α) (Input α))
    (a b : Input α) : Except (Fault α) (Input α) := do
  let (x, y) ← lift (operands a b)
  if x.mixesTexts y then throw (.mishap .elements)
  let k ← lift (x.joint y)
  if k = .text then throw (.mishap .elements)
  if k = .truth && minus then throw (.mishap .sort)
  let (shape, ps) ← lift (Operand.pairs k x y)
  let cells ←
    if k = .loose then ps.mapM fun p => add p.1 p.2
    else pure (ps.map fun p => .atom 0 (k.add minus p.1.toAtom p.2.toAtom))
  lift (gather a b k shape cells)
where
  lift {β : Type} (x : Except Mishap β) : Except (Fault α) β := x.mapError .mishap

/-- The sum or the difference of a sparse matrix and an array that fills its shape. -/
def addSparseArray (minus isLeft isTruth : Bool)
    (add : Input α → Input α → Except (Fault α) (Input α)) (A : Coeffs α) (g : Grid α) :
    Except (Fault α) (Input α) := do
  let g ← (g.fill? [Coeffs.rows A, Coeffs.cols A]).elim (throw (.mishap .content)) pure
  if !minus && !g.kind.isNumeric then throw (.mishap .sort)
  let D := ofRigid (← (writeOut isTruth A).mapError .mishap)
  let d : Input α := .array 0 false g.kind g.shape g.cells
  if isLeft then addArrays minus add D d else addArrays minus add d D

/-- Whether a datum is an expression. -/
def isExpr : Input α → Bool
  | .thing _ (.expr _) => true
  | _ => false

/-- The sum or the difference of two data, loose elements being nested no deeper
than given. -/
def addWithin (minus : Bool) : Nat → Input α → Input α → Except (Fault α) (Input α)
  | 0, _, _ => .error (.mishap .sort)
  | n + 1, a, b =>
    if a.isExpr || b.isExpr then .error (.mishap .sort)
    else
      match a, b with
      | .sparse _ t A, .sparse _ u B => addSparsePair minus t u A B
      | .sparse _ t A, d => withSparse n true t A d
      | d, .sparse _ t A => withSparse n false t A d
      | .atom _ (.complex z), .element _ .real x =>
        addPlain minus (.atom 0 (.complex z)) (.atom 0 x)
      | a, b =>
        if a.isArray || b.isArray then addArrays minus (addWithin minus n) a b
        else addPlain minus a b
where
  withSparse (n : Nat) (isLeft t : Bool) (A : Coeffs α) (d : Input α) :
      Except (Fault α) (Input α) :=
    match d.bareAtom?, d with
    | some a, _ => addSparseBare minus isLeft t A a
    | none, .array _ _ k shape cells =>
      addSparseArray minus isLeft t (addWithin minus n) A ⟨some k, shape, cells⟩
    | none, _ => .error (.mishap .sort)

/-- The sum or the difference of two data. -/
def add (minus : Bool) (a b : Input α) : Except (Fault α) (Input α) :=
  addWithin minus (a.depth + b.depth + 1) a b

/-! ## Changing the sign -/

mutual

/-- A datum with its sign changed. -/
def neg : Input α → Except (Fault α) (Input α)
  | .atom _ a => (a.neg.map (.atom 0)).mapError .mishap
  | .element _ k a => ((k.neg a).map (.element 0 k)).mapError .mishap
  | .array _ rigid k shape cells => do
    if k = .truth then throw (.mishap .sort)
    let cells ← if k = .loose then negAll cells
      else cells.mapM fun d => ((k.neg d.toAtom).map (.atom 0)).mapError .mishap
    pure (if rigid then .array 0 true k shape cells else ofCells false k shape cells)
  | .sparse _ t A => if t then .error (.mishap .absent) else .ok (.sparse 0 false (Coeffs.neg A))
  | .thing _ (.objective o) =>
    match o.neg? with
    | some o => .ok (.thing 0 (.objective o))
    | none => .error (.mishap .absent)
  | _ => .error (.mishap .sort)

/-- The members of a sequence with their signs changed. -/
def negAll : List (Input α) → Except (Fault α) (List (Input α))
  | [] => .ok []
  | d :: ds => do pure ((← neg d) :: (← negAll ds))

end

end ConicModel.Datum
