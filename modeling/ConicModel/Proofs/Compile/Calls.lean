/-
# Entries and calls

A node has its place in a cache by its kind and its identity (`Node.key`).  What a run
was about stands in its place when the run is at its end (`Run.done`).

`compileNodes` compiles a list of nodes into one cache, in order.  That is a run through
a list of items (`run_of_compileNodes`), and the cache holds at the end what each of the
calls has returned.
-/
import ConicModel.Proofs.Compile.Run

namespace ConicModel

variable {α κ ρ : Type}

/-! ## Entries -/

/-- The place of a node in a cache. -/
inductive Key where
  | expr (i : Id)
  | constraint (i : Id)

/-- The place of a node in a cache. -/
def Node.key : Node α → Key
  | expr e => .expr e.id
  | constraint c => .constraint c.id

/-- Whether there is an entry. -/
def Pass.Holds (p : Pass κ ρ) : Key → Prop
  | .expr i => i ∈ p.cache.exprs.ids
  | .constraint i => i ∈ p.cache.constraints.ids

theorem Pass.holds_enterExpr {p : Pass κ ρ} {i : Id} {o : κ} {k : Key} :
    (p.enterExpr i o).Holds k ↔ p.Holds k ∨ k = .expr i := by
  cases k with
  | expr j => simp [Holds, enterExpr]
  | constraint j => simp [Holds, enterExpr]

theorem Pass.holds_enterConstraint {p : Pass κ ρ} {i : Id} {r : ρ} {k : Key} :
    (p.enterConstraint i r).Holds k ↔ p.Holds k ∨ k = .constraint i := by
  cases k with
  | expr j => simp [Holds, enterConstraint]
  | constraint j => simp [Holds, enterConstraint]

theorem Pass.Grows.holds {p q : Pass κ ρ} (h : p.Grows q) {k : Key} (held : p.Holds k) :
    q.Holds k := by
  cases k with
  | expr i =>
      obtain ⟨t, ht⟩ := h.exprs
      rw [Pass.Holds, ht, Table.ids_append]
      exact List.mem_append_left _ held
  | constraint i =>
      obtain ⟨t, ht, -⟩ := h.constraints
      rw [Pass.Holds, ht, Table.ids_append]
      exact List.mem_append_left _ held

/-- What a job gives when it is done. -/
def Job.Done : Job α κ ρ → Pass κ ρ → Prop
  | .expr e o, q => q.cache.exprs.get? e.id = some o
  | .constraint c r, q => q.cache.constraints.get? c.id = some r
  | .sign _, _ => True
  | .attached items, q => ∀ n, .node n ∈ items → q.Holds n.key

/-- What a run gives is what stands in the cache at its end. -/
theorem Run.done [Scalar α] [Compiled α κ ρ] {vars : Vars α} {job : Job α κ ρ} {p q : Pass κ ρ}
    (h : Run vars job p q) : job.Done q := by
  induction h with
  | known held | lowered held => exact held
  | constant doubts new _ _ => exact Table.get?_push_self new _
  | stub new => exact Table.get?_push_self new _
  | free new _ sign attached =>
      exact (sign.grows.trans attached.grows).expr_kept (Table.get?_push_self new _)
  | product _ _ _ _ _ still_new => exact Table.get?_push_self still_new _
  | productMet _ _ _ _ _ met => exact met
  | lower _ _ _ _ _ still_new => exact Table.get?_push_self still_new _
  | lowerMet _ _ _ met => exact met
  | unsigned | signed => trivial
  | nil => exact fun n hn => by cases hn
  | constraint first rest ih ih' =>
      intro n hn
      rcases List.mem_cons.mp hn with hn | hn
      · cases hn
        exact rest.grows.holds (Table.mem_ids_of_get? ih)
      · exact ih' n hn
  | expr first rest ih ih' =>
      intro n hn
      rcases List.mem_cons.mp hn with hn | hn
      · cases hn
        exact rest.grows.holds (Table.mem_ids_of_get? ih)
      · exact ih' n hn

/-! ## Calls one after another -/

/-- What a compilation of a node returns. -/
inductive Returned (κ ρ : Type) where
  | expr (o : κ)
  | constraint (r : ρ)

/-- What was returned for a node is what the cache holds for it. -/
def Returned.HeldFor (q : Pass κ ρ) : Node α → Returned κ ρ → Prop
  | .expr e, .expr o => q.cache.exprs.get? e.id = some o
  | .constraint c, .constraint r => q.cache.constraints.get? c.id = some r
  | _, _ => False

variable [Scalar α] [Compiled α κ ρ]

/-- Compile a node. -/
def compileNode (vars : Vars α) : Node α → Compile α κ ρ (Returned κ ρ)
  | .expr e => .expr <$> compileExpr vars e
  | .constraint c => .constraint <$> compileConstraint vars c

/-- Compile nodes in order. -/
def compileNodes (vars : Vars α) (roots : List (Node α)) :
    Compile α κ ρ (List (Returned κ ρ)) :=
  roots.mapM (compileNode vars)

variable {vars : Vars α}

theorem compileNodes_cons_ok {n : Node α} {roots : List (Node α)} {xs : List (Returned κ ρ)}
    {p q : Pass κ ρ} (h : compileNodes vars (n :: roots) p = .ok xs q) :
    ∃ x ys p', compileNode vars n p = .ok x p' ∧ compileNodes vars roots p' = .ok ys q ∧
      xs = x :: ys := by
  rw [compileNodes, List.mapM_cons] at h
  obtain ⟨x, p', hx, rest⟩ := Outcome.bind_ok.mp h
  obtain ⟨ys, q', hys, done⟩ := Outcome.bind_ok.mp rest
  obtain ⟨rfl, rfl⟩ := Outcome.pure_ok.mp done
  exact ⟨x, ys, p', hx, hys, rfl⟩

/-- The first call is a run, and the others go on from what it has left. -/
theorem Run.cons_of_compileNode {n : Node α} {x : Returned κ ρ} {items : List (Attached α)}
    {p p' q : Pass κ ρ} (h : compileNode vars n p = .ok x p')
    (rest : Run (κ := κ) vars (.attached items) p' q) :
    Run (κ := κ) vars (.attached (.node n :: items)) p q ∧ x.HeldFor q n := by
  cases n with
  | expr e =>
      obtain ⟨o, ho, rfl⟩ := Outcome.map_ok.mp h
      have first := run_of_compileExpr ho
      exact ⟨.expr first rest, rest.grows.expr_kept first.done⟩
  | constraint c =>
      obtain ⟨r, hr, rfl⟩ := Outcome.map_ok.mp h
      have first := run_of_compileConstraint hr
      exact ⟨.constraint first rest, rest.grows.constraint_kept first.done⟩

/-- The calls together are a run, and the cache holds at the end what each returned. -/
theorem run_of_compileNodes {roots : List (Node α)} {xs : List (Returned κ ρ)}
    {p q : Pass κ ρ} (h : compileNodes vars roots p = .ok xs q) :
    Run (κ := κ) vars (.attached (roots.map .node)) p q ∧
      List.Forall₂ (fun n x => Returned.HeldFor q n x) roots xs := by
  induction roots generalizing p xs with
  | nil =>
      obtain ⟨rfl, rfl⟩ := Outcome.pure_ok.mp h
      exact ⟨.nil, .nil⟩
  | cons n roots ih =>
      obtain ⟨x, ys, p', hx, hys, rfl⟩ := compileNodes_cons_ok h
      obtain ⟨rest, held⟩ := ih hys
      obtain ⟨all, first⟩ := Run.cons_of_compileNode hx rest
      exact ⟨all, .cons first held⟩

end ConicModel
