/-
# What the memory of a session holds

A session compiles into a cache of data, because an entry made by hand can be anything.
What compilation itself enters are objectives of numbers and records of them, and as long
as nothing else was entered the operations on data are those on objectives
(`Memory.compiledHom`).  From an empty cache a session therefore holds, entry by entry,
what a compilation to objectives holds, and what it shows of its cache is that.  Whatever
is proved of the one is thereby proved of the other.
-/
import ConicModel.Proofs.Objective.Mixed
import ConicModel.Proofs.Compile.Image
import ConicModel.Session.State

namespace ConicModel

variable {α : Type} [Scalar α]

/-! ## Mixed objectives of numbers -/

namespace MixedObjective

/-- The entry of a sum of numbers is the sum. -/
theorem sumEntry_ofObjective {a b o : Objective α} (h : a.add b = .ok o) {e : Id × Part α}
    (he : e ∈ o.entries) :
    (ofObjective a).sumEntry (ofObjective b) e.1 e.2 = .ofPart e.2 := by
  have held : o.get? e.1 = some e.2 := Table.get?_of_mem (Objective.add_ok h).1 he
  rw [sumEntry, get?_ofObjective, get?_ofObjective]
  obtain ⟨new, found⟩ | ⟨p, hp, ⟨alone, found⟩ | ⟨q, s, hq, -, found⟩⟩ := Objective.get?_add h e.1
  · rw [new, ← found, held]
    rfl
  · cases held.symm.trans found
    rw [hp, alone]
    rfl
  · cases held.symm.trans found
    rw [hp, hq]
    rfl

theorem add_ofObjective (a b : Objective α) :
    (ofObjective a).add (ofObjective b) = (a.add b).map ofObjective := by
  unfold add
  rw [toObjective_ofObjective, toObjective_ofObjective]
  cases h : a.add b with
  | error f => rfl
  | ok o =>
      refine congrArg (fun es => Except.ok (MixedObjective.mk es)) ?_
      refine List.map_congr_left fun e he => ?_
      rw [sumEntry_ofObjective h he]

theorem neg?_ofObjective (o : Objective α) :
    (ofObjective o).neg? = some (ofObjective o.neg) := by
  have each (es : Table (Part α)) :
      (es.map fun e => (e.1, MixedPart.ofPart e.2)).mapM
          (fun e => e.2.neg?.map fun p => (e.1, p))
        = some (es.map fun e => (e.1, MixedPart.ofPart e.2.neg)) := by
    induction es with
    | nil => rfl
    | cons e es ih =>
        rw [List.map_cons, List.mapM_cons, ih]
        rfl
  unfold neg?
  rw [ofObjective, each, ofObjective, Objective.neg, List.map_map]
  rfl

theorem premultiply_ofObjective (o : Objective α) (M : Coeffs α) :
    (ofObjective o).premultiply (.numbers M) = (o.premultiply M).map ofObjective := by
  unfold premultiply
  rw [toObjective_ofObjective, MixedCoeffs.toCoeffs]
  cases o.premultiply M with
  | error f => rfl
  | ok product =>
      refine congrArg (fun es => Except.ok (MixedObjective.mk es)) ?_
      refine List.map_congr_left fun e _ => ?_
      cases (ofObjective o).get? e.1 with
      | none => rfl
      | some p => rfl

end MixedObjective

/-! ## Compilation into a memory -/

namespace Memory

/-- An objective as it is entered. -/
def ofObjective (o : Objective α) : Input α := .thing 0 (.objective (.ofObjective o))

/-- A record as it is entered. -/
def ofRecord (r : Record α) : Input α := .record 0 (ofObjective r.objective) r.cone r.size

theorem sub_ofObjective (a b : Objective α) :
    Datum.add true (ofObjective a) (ofObjective b)
      = ((a.sub b).mapError Fault.objective).map ofObjective := by
  rw [ofObjective, ofObjective, MixedObjective.datum_add, if_pos rfl,
    MixedObjective.neg?_ofObjective]
  dsimp only
  rw [MixedObjective.add_ofObjective, Objective.sub]
  cases a.add b.neg <;> rfl

/-- Objectives of numbers are computed with as data the way they are by themselves. -/
theorem compiledHom : Compiled.Hom (ofObjective (α := α)) ofRecord where
  ofObjective _ := rfl
  sub := sub_ofObjective
  neg a := by
    show Datum.neg (ofObjective a) = .ok (ofObjective a.neg)
    simp [Datum.neg, ofObjective, MixedObjective.neg?_ofObjective]
  premultiply a := by
    refine congrArg Except.ok (funext fun M => ?_)
    rw [MixedObjective.premultiply_ofObjective]
    show _ = ((a.premultiply M).mapError Fault.objective).map ofObjective
    cases a.premultiply M <;> rfl
  record _ _ _ := rfl

/-- What a session shows of a cache is what was compiled. -/
theorem objectives?_image (c : Cache (Objective α) (Record α)) :
    Memory.objectives? (c.image ofObjective ofRecord) = some c := by
  have objective (o : Objective α) : (ofObjective o).toObjective? = some o :=
    congrArg some (MixedObjective.toObjective_ofObjective o)
  have record (r : Record α) : (ofRecord r).toRecord? = some r := by
    rw [ofRecord, Datum.toRecord?, objective]
    rfl
  have table {β : Type} {f : β → Input α} {read : Input α → Option β}
      (h : ∀ x, read (f x) = some x) (t : Table β) :
      (t.image f).mapM (fun e => (read e.2).map (e.1, ·)) = some t := by
    induction t with
    | nil => rfl
    | cons e t ih =>
        rw [Table.image, List.map_cons, List.mapM_cons, h]
        rw [Table.image] at ih
        rw [ih]
        rfl
  have records (rs : List (Record α)) : (rs.map ofRecord).mapM (·.toRecord?) = some rs := by
    induction rs with
    | nil => rfl
    | cons r rs ih =>
        rw [List.map_cons, List.mapM_cons, record, ih]
        rfl
  unfold objectives? Cache.image
  rw [table objective, table record, records]
  rfl

variable (vars : Vars α) (l : Ledger)

/-- From an empty cache a session compiles an expression to the datum of the objective to
which it compiles, and its cache holds the data of what was compiled. -/
theorem compileExpr_empty (e : Expr α) :
    compileExpr vars e (⟨l, {}⟩ : Pass (Input α) (Input α))
      = Outcome.image ofObjective (Pass.image ofObjective ofRecord)
        (compileExpr vars e (⟨l, {}⟩ : Pass (Objective α) (Record α))) :=
  compileExpr_image compiledHom vars e ⟨l, {}⟩

/-- The same for expressions and constraints one after another. -/
theorem compileNodes_empty (roots : List (Node α)) :
    compileNodes vars roots (⟨l, {}⟩ : Pass (Input α) (Input α))
      = Outcome.image (List.map (Returned.image ofObjective ofRecord))
        (Pass.image ofObjective ofRecord)
        (compileNodes vars roots (⟨l, {}⟩ : Pass (Objective α) (Record α))) :=
  compileNodes_image compiledHom vars roots ⟨l, {}⟩

end Memory

end ConicModel
