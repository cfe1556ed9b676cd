/-
The state of a session with names and caches.

Names are bound to data of every sort.  Whatever is bound, entered into a cache or
attached to a variable has a serial number by which it is told apart, so that the
names of a thing can be listed and a change to it shows wherever it is held.

A cache of a session holds data too.  Compilation enters objectives and records
there, but an entry made by hand can be anything, and what is compiled above it is
computed the way data are added.  What comes of that need not be an objective, and
then there is nothing to show for it.

A sign or a list can be set by hand on things that have none of their own; these
notes are kept by the thing they were set on.
-/
import ConicModel.Datum.Sum
import ConicModel.Session.Room
import ConicModel.Session.Term

namespace ConicModel

/-! ## What a cache holds -/

/-- Entries made by hand are added and negated like all data; only objectives have
products with a matrix. -/
instance {α : Type} [Scalar α] : Compiled α (Input α) (Input α) where
  ofObjective o := .thing 0 (.objective (.ofObjective o))
  sub := Datum.add true
  neg := Datum.neg
  premultiply d :=
    match d with
    | .thing _ (.objective o) => .ok fun M =>
      match o.premultiply (.numbers M) with
      | .ok p => .ok (.thing 0 (.objective p))
      | .error e => .error (.objective e)
    | _ => .error (.mishap .feature)
  record d cone size := .record 0 d cone size

/-- A cache of a session. -/
abbrev Memory (α : Type) := Cache (Input α) (Input α)

namespace Datum

variable {α : Type} [Scalar α]

/-- The objective that a datum is. -/
def toObjective? : Input α → Option (Objective α)
  | thing _ (.objective o) => some o.toObjective
  | _ => none

/-- The record of an objective that a datum is. -/
def toRecord? : Input α → Option (Record α)
  | record _ d cone size => d.toObjective?.map fun o => ⟨o, cone, size⟩
  | _ => none

/-- The cone that a lowered constraint names. -/
def cone? : Input α → Option Cone
  | record _ _ cone _ => some cone
  | _ => none

/-- Whether notes can be set on a datum by hand. -/
def isOpen : Input α → Bool
  | thing .. | record .. | sparse .. => true
  | d => d.isRigid

end Datum

namespace Memory

variable {α : Type}

/-- Give serial numbers to the entries.  A record stands in the table and in the
list of what was found, and is one thing in both. -/
def number (c : Memory α) : StateM Nat (Memory α) := do
  let exprs ← c.exprs.mapM fun e => do pure (e.1, ← e.2.number)
  let constraints ← c.constraints.mapM fun e => do pure (e.1, ← e.2.number)
  pure ⟨exprs, constraints, Table.items constraints⟩

/-- Put a datum in all places of the one with a given serial number. -/
def replace (c : Memory α) (k : Nat) (new : Input α) : Memory α :=
  ⟨c.exprs.map fun e => (e.1, e.2.replace k new),
    c.constraints.map fun e => (e.1, e.2.replace k new), c.records.map (·.replace k new)⟩

/-- The entries of a cache that holds only objectives and records of them. -/
def objectives? [Scalar α] (c : Memory α) : Option (Cache (Objective α) (Record α)) := do
  let exprs ← c.exprs.mapM fun e => e.2.toObjective?.map (e.1, ·)
  let constraints ← c.constraints.mapM fun e => e.2.toRecord?.map (e.1, ·)
  let records ← c.records.mapM (·.toRecord?)
  pure ⟨exprs, constraints, records⟩

end Memory

/-! ## Sessions -/

/-- The state of a session. -/
structure Session (α : Type) where
  model : Model α := {}
  names : List (String × Input α) := []
  caches : List (String × Memory α) := []
  /-- The next serial number. -/
  nextSerial : Nat := 1
  /-- Signs set by hand on things that have none. -/
  signs : List (Input α × Sign) := []
  /-- Lists set by hand on things that have none. -/
  lists : List (Input α × List (Attached α)) := []

/-- A step of a session: it may be refused, and what it changed stays changed. -/
abbrev Op (α : Type) := EStateM (Fault α) (Session α)

/-- Put a datum in all places of the one with a given serial number. -/
def Attached.replace {α : Type} (item : Attached α) (k : Nat) (new : Input α) : Attached α :=
  match item with
  | node n => node n
  | foreign d => foreign (d.replace k new)

/-- Give an attached item a serial number. -/
def Attached.number {α : Type} : Attached α → StateM Nat (Attached α)
  | node n => pure (node n)
  | foreign d => foreign <$> d.number

namespace Session

variable {α : Type}

/-! ## Serial numbers -/

/-- Take serial numbers. -/
def numbering {β : Type} (f : StateM Nat β) : Op α β := fun s =>
  let (x, next) := f s.nextSerial
  .ok x { s with nextSerial := next }

/-- Give serial numbers to what is attached to variables. -/
def settle (s : Session α) : Session α :=
  let number := s.model.vars.mapM fun e => do
    pure (e.1, { e.2 with attached := ← e.2.attached.mapM Attached.number })
  let (vars, next) := number s.nextSerial
  { s with model := { s.model with vars := vars }, nextSerial := next }

/-- Give serial numbers to what a step attached to variables, also if it was refused
in the end. -/
def settling {β : Type} (op : Op α β) : Op α β := fun s =>
  match op s with
  | .ok x s => .ok x s.settle
  | .error f s => .error f s.settle

/-- Put a datum in all places of another one. -/
def replace (s : Session α) (old new : Input α) : Session α :=
  let k := old.serial
  let items := fun (xs : List (Attached α)) => xs.map (·.replace k new)
  { s with
    model := { s.model with
      vars := s.model.vars.map fun e => (e.1, { e.2 with attached := items e.2.attached }) }
    names := s.names.map fun e => (e.1, e.2.replace k new)
    caches := s.caches.map fun e => (e.1, e.2.replace k new)
    lists := s.lists.map fun e => (e.1, items e.2) }

/-- Change a datum in all its places; it keeps its serial number. -/
def mutate (old new : Input α) : Op α Unit := modify fun s => s.replace old new

/-! ## Names -/

/-- Bind a name, if one is given, and give back what it is bound to. -/
def bind (name : Option String) (d : Input α) : Op α (Input α) := do
  let d ← numbering d.number
  modify fun s =>
    match name with
    | none => s
    | some n => { s with names := (n, d) :: s.names.filter fun e => e.1 != n }
  pure d

/-- The names of a thing, in order. -/
def namesOf (s : Session α) (d : Input α) : List String :=
  ((s.names.filter fun e => e.2.identical d).map (·.1)).mergeSort fun a b => decide (a ≤ b)

/-- What a name is bound to. -/
def named (name : String) : Op α (Input α) := do
  match (← get).names.lookup name with
  | some d => pure d
  | none => throw .unbound

/-- What the names of a term stand for. -/
def scope (s : Session α) : Scope α := ⟨fun name => s.names.lookup name, none⟩

/-! ## Working on the parts of a session -/

/-- Work on the model of a session. -/
def work {β : Type} (w : Work α β) : Op α β := fun s =>
  match w s.model with
  | .ok x m => .ok x { s with model := m }
  | .error e m => .error e { s with model := m }

/-- Make something in a session. -/
def make {β : Type} (f : Vars α → Make α β) : Op α β := work (Work.make f)

/-- Refuse for a mishap. -/
def refuse {β : Type} (m : Mishap) : Op α β := throw (.mishap m)

/-- Take a result, or refuse. -/
def accept {β : Type} (x : Except (Fault α) β) : Op α β :=
  match x with
  | .ok x => pure x
  | .error f => throw f

/-- A cache; one that was not used yet is empty. -/
def cache (s : Session α) (name : String) : Memory α := (s.caches.lookup name).getD {}

/-- Replace a cache. -/
def setCache (name : String) (c : Memory α) : Op α Unit := do
  let c ← numbering c.number
  modify fun s =>
    if (s.caches.lookup name).isSome then
      { s with caches := s.caches.map fun e => if e.1 = name then (name, c) else e }
    else { s with caches := s.caches ++ [(name, c)] }

/-- Compile nodes from a cache on, if there is room, and give back what the cache has
become. -/
def compileFrom {β : Type} (c : Memory α) (roots : List (Node α))
    (f : Vars α → Compile α (Input α) (Input α) β) :
    Op α (Except (Fault α) β × Memory α) := fun s =>
  let keep (p : Pass (Input α) (Input α)) : Session α :=
    { s with model := { s.model with ledger := p.ledger } }
  match fitCompilation s.model.vars c roots with
  | .error m => .ok (.error (.mishap m), c) s
  | .ok _ =>
    match f s.model.vars ⟨s.model.ledger, c⟩ with
    | .ok x p => .ok (.ok x, p.cache) (keep p)
    | .error e p => .ok (.error e, p.cache) (keep p)

/-- Compile nodes into a cache of a session. -/
def compile {β : Type} (name : String) (roots : List (Node α))
    (f : Vars α → Compile α (Input α) (Input α) β) : Op α β := do
  let (x, c) ← compileFrom ((← get).cache name) roots f
  setCache name c
  accept x

/-- Compile nodes into a cache of its own that is not kept. -/
def compileApart {β : Type} (roots : List (Node α))
    (f : Vars α → Compile α (Input α) (Input α) β) : Op α β := do
  accept (← compileFrom {} roots f).1

variable [Scalar α]

/-- The datum that a term stands for. -/
def eval (t : Term α) : Op α (Input α) := do
  let s ← get
  numbering (← make fun vars => t.eval vars s.scope).number

/-- The expression that a name is bound to. -/
def namedExpr (name : String) : Op α (Expr α) := do
  match ← named name with
  | .thing _ (.expr e) => pure e
  | _ => refuse .feature

/-- The variable that a name is bound to. -/
def namedVariable (name : String) : Op α Variable := do
  match ← named name with
  | .thing _ (.expr (.var x)) => pure x
  | _ => refuse .feature

/-- The node that a name is bound to. -/
def namedNode (name : String) : Op α (Node α) := do
  match ← named name with
  | .thing _ (.expr e) => pure (.expr e)
  | .thing _ (.constraint c) => pure (.constraint c)
  | _ => refuse .feature

/-- The constraint that a name is bound to. -/
def namedConstraint (name : String) : Op α (Constraint α) := do
  match ← named name with
  | .thing _ (.constraint c) => pure c
  | _ => refuse .feature

/-- The objective that a name is bound to. -/
def namedObjective (name : String) : Op α (MixedObjective α) := do
  match ← named name with
  | .thing _ (.objective o) => pure o
  | _ => refuse .feature

end Session

end ConicModel
