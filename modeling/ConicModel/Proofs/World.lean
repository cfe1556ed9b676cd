/-
# Reachable states

A world is a session's model with the nodes that were made in it.  A step is one
operation that was not refused:

  * making a constant, a product, a constraint or a variable;
  * assigning to a variable, fixing it, freeing it, giving it a sign or a kind, and
    replacing what is attached to it;
  * registering a node, clearing a registry, making one the current one;
  * scattering a solution vector.

An operand that is an expression, and a node that is attached or registered, has to be
one of the nodes made so far.  Whatever only looks at things, compiles, or is refused
takes identities and gives notices at most (`Step.spend`).  A declaration with builders
is a declaration, the steps a builder takes to make its constraint, and the attachment of
it.  What a refused declaration or scattering leaves behind is the work of the steps
before the refusal.

Every reachable world is `Sound`: its variables and nodes are coherent and its
registries hold nodes of it.
-/
import ConicModel.Proofs.Exact
import ConicModel.Proofs.Coherence
import ConicModel.Solution

namespace ConicModel

variable {α : Type}

/-- A session's model and the nodes made in it. -/
structure World (α : Type) where
  model : Model α := {}
  nodes : Set (Node α) := ∅

namespace World

/-- The states of the variables. -/
def vars (w : World α) : Vars α := w.model.vars

/-- What making things uses up. -/
def ledger (w : World α) : Ledger := w.model.ledger

/-- The world after something was made. -/
def make (w : World α) (l : Ledger) (n : Node α) : World α :=
  ⟨{ w.model with ledger := l }, gain w.nodes n⟩

end World

/-- The changes of one variable. -/
inductive Change [Scalar α] (N : Set (Node α)) (x : Variable) :
    (Vars α → Make α (Vars α)) → Prop where
  | assign (d : Input α) : Change N x fun vars => vars.assign x d
  | fix : Change N x fun vars => vars.fix x
  | fixAt (d : Input α) : Change N x fun vars => vars.fixAt x d
  | free : Change N x fun vars => pure (vars.free x)
  | sign (s : Sign) : Change N x fun vars => pure (vars.change x fun st => { st with sign := s })
  | kind (k : VarKind) :
      Change N x fun vars => pure (vars.change x fun st => { st with kind := k })
  | attached (items : List (Attached α)) (h : ∀ n, .node n ∈ items → n ∈ N) :
      Change N x fun vars => pure (vars.change x fun st => { st with attached := items })

/-- One operation that was not refused. -/
inductive Step [Scalar α] : World α → World α → Prop where
  | spend (w : World α) (l : Ledger) (h : w.ledger.nextId ≤ l.nextId) :
      Step w ⟨{ w.model with ledger := l }, w.nodes⟩
  | constant (w : World α) (d : Input α) (sign : Option Sign) (c : Constant α) (l : Ledger)
      (h : makeConstant w.vars d sign w.ledger = .ok c l) : Step w (w.make l (.expr (.const c)))
  | kron (w : World α) (a b : Input α) (e : Expr α) (l : Ledger) (ha : Offers w.nodes a)
      (hb : Offers w.nodes b) (h : makeKron w.vars a b w.ledger = .ok e l) :
      Step w (w.make l (.expr e))
  | constraint (w : World α) (relation : Relation) (dl dr : Input α) (c : Constraint α)
      (l : Ledger) (hl : Offers w.nodes dl) (hr : Offers w.nodes dr)
      (h : makeConstraint w.vars relation dl dr w.ledger = .ok c l) :
      Step w (w.make l (.constraint c))
  | declare (w : World α) (spec : VariableSpec α) (x : Variable) (m : Model α)
      (h : spec.declare [] w.model = .ok x m) :
      Step w ⟨m, {n | n = .expr (.var x) ∨ n ∈ w.nodes ∨
        ∃ c, .node (.constraint c) ∈ (m.vars.state x).attached ∧
          (n = .constraint c ∨ n ∈ (Node.constraint c).children)}⟩
  | change (w : World α) (x : Variable) (f : Vars α → Make α (Vars α)) (m : Model α)
      (hx : .expr (.var x) ∈ w.nodes) (hf : Change w.nodes x f)
      (h : Work.changeVars f w.model = .ok () m) : Step w ⟨m, w.nodes⟩
  | register (w : World α) (name : ContextName) (n : Node α) (m : Model α) (hn : n ∈ w.nodes)
      (h : Model.register name n w.model = .ok () m) : Step w ⟨m, w.nodes⟩
  | clear (w : World α) (name : ContextName) (m : Model α)
      (h : Model.clear name w.model = .ok () m) : Step w ⟨m, w.nodes⟩
  | setCurrent (w : World α) (name previous : ContextName) (m : Model α)
      (h : Model.setCurrent name w.model = .ok previous m) : Step w ⟨m, w.nodes⟩
  | load (w : World α) (name : ContextName) (d : Input α) (layout : Layout) (m : Model α)
      (h : Model.loadSolution name d layout w.model = .ok () m) : Step w ⟨m, w.nodes⟩

/-- What operations lead to from an empty session. -/
inductive Reachable [Scalar α] : World α → Prop where
  | start : Reachable {}
  | next {w w' : World α} (h : Reachable w) (step : Step w w') : Reachable w'

/-! ## Soundness -/

/-- Variables and nodes go together, and registries hold nodes that were made. -/
structure World.Sound (w : World α) : Prop where
  coherent : Coherent w.vars w.nodes w.ledger.nextId
  registered : ∀ c ∈ w.model.contexts, ∀ n ∈ c.2, n ∈ w.nodes

theorem World.Sound.start : World.Sound ({} : World α) where
  coherent :=
    { roster := .empty 1
      pos := Int.le_refl 1
      below := fun i hi => by cases hi
      known := fun x hx => hx.elim
      respects := fun x hx => hx.elim }
  registered c hc := by cases hc

/-! ### Registries -/

/-- What a registry holds is held under its name. -/
theorem Model.exists_of_mem_context {m : Model α} {name : ContextName} {n : Node α}
    (h : n ∈ m.context name) : ∃ c ∈ m.contexts, n ∈ c.2 := by
  unfold context at h
  cases hc : m.contexts.find? fun c => c.1 = name with
  | none =>
      rw [hc] at h
      cases h
  | some c =>
      rw [hc] at h
      exact ⟨c, List.mem_of_find?_eq_some hc, h⟩

/-- After a replacement a registry holds the new nodes or what it held before. -/
theorem Model.mem_setContext {m : Model α} {name : ContextName} {xs : List (Node α)}
    {c : ContextName × List (Node α)} (h : c ∈ (m.setContext name xs).contexts) :
    c.2 = xs ∨ c ∈ m.contexts := by
  unfold setContext at h
  split at h
  · obtain ⟨d, hd, rfl⟩ := List.mem_map.mp h
    split
    · exact .inl rfl
    · exact .inr hd
  · rcases List.mem_append.mp h with h | h
    · exact .inr h
    · rw [List.mem_singleton.mp h]
      exact .inl rfl

theorem Model.setContext_vars (m : Model α) (name : ContextName) (xs : List (Node α)) :
    (m.setContext name xs).vars = m.vars ∧ (m.setContext name xs).ledger = m.ledger := by
  unfold setContext
  split <;> exact ⟨rfl, rfl⟩

theorem Model.register_ok {m m' : Model α} {name : ContextName} {n : Node α}
    (h : Model.register name n m = .ok () m') : m'.vars = m.vars ∧ m'.ledger = m.ledger := by
  unfold Model.register at h
  split at h
  · cases h
  · cases h
    exact m.setContext_vars _ _

namespace World.Sound

/-- A registry was given nodes that were made. -/
theorem setContext {m : Model α} {N : Set (Node α)} (h : World.Sound ⟨m, N⟩)
    (name : ContextName) {xs : List (Node α)} (hxs : ∀ n ∈ xs, n ∈ N) :
    World.Sound ⟨m.setContext name xs, N⟩ where
  coherent := by
    obtain ⟨vars, ledger⟩ := m.setContext_vars name xs
    have h := h.coherent
    rw [World.vars, World.ledger] at h ⊢
    rw [vars, ledger]
    exact h
  registered c hc n hn := by
    rcases Model.mem_setContext hc with rfl | hc
    · exact hxs n hn
    · exact h.registered c hc n hn

theorem register {w : World α} (h : w.Sound) {name : ContextName} {n : Node α} {m : Model α}
    (hn : n ∈ w.nodes) (hm : Model.register name n w.model = .ok () m) :
    World.Sound ⟨m, w.nodes⟩ := by
  unfold Model.register at hm
  split at hm
  · cases hm
  · cases hm
    refine h.setContext name fun k hk => ?_
    rcases List.mem_append.mp hk with hk | hk
    · obtain ⟨c, hc, hk⟩ := Model.exists_of_mem_context hk
      exact h.registered c hc k hk
    · rw [List.mem_singleton.mp hk]
      exact hn

/-! ### Making nodes -/

theorem make {m : Model α} {N : Set (Node α)} (h : World.Sound ⟨m, N⟩) {l : Ledger}
    {n : Node α} (hn : Roster.Gained N m.ledger.nextId n l.nextId) :
    World.Sound ⟨{ m with ledger := l }, gain N n⟩ where
  coherent := h.coherent.gain hn
  registered c hc k hk := subset_gain _ _ (h.registered c hc k hk)

end World.Sound

/-! ### Changing variables -/

theorem Vars.change_change (vars : Vars α) (x : Variable) (f g : VarState α → VarState α) :
    (vars.change x f).change x g = vars.change x fun s => g (f s) := by
  rw [change, change, change, Table.update, Table.update, Table.update, List.map_map]
  refine List.map_congr_left fun e _ => ?_
  by_cases he : e.1 = x.id
  · simp [he]
  · simp [he]

theorem Work.changeVars_ok {f : Vars α → Make α (Vars α)} {m m' : Model α}
    (h : Work.changeVars f m = .ok () m') :
    ∃ vars l, f m.vars m.ledger = .ok vars l ∧ m' = { m with vars := vars, ledger := l } := by
  unfold changeVars at h
  split at h
  · rename_i vars l hf
    cases h
    exact ⟨vars, l, hf, rfl⟩
  · cases h

theorem Work.make_ok {β : Type} {f : Vars α → Make α β} {m m' : Model α} {x : β}
    (h : Work.make f m = .ok x m') :
    ∃ l, f m.vars m.ledger = .ok x l ∧ m' = { m with ledger := l } := by
  unfold make at h
  split at h
  · rename_i y l hf
    cases h
    exact ⟨l, hf, rfl⟩
  · cases h

section

variable [Scalar α]

omit [Scalar α] in
theorem Vars.fix_ok {vars vars' : Vars α} {x : Variable} {l l' : Ledger}
    (h : vars.fix x l = .ok vars' l') :
    (vars.state x).value.isSome = true ∧ l' = l ∧
      vars' = vars.change x fun s => { s with fixed := true } := by
  unfold fix at h
  split at h
  · exact (Outcome.throw_ok.mp h).elim
  · rename_i valued
    obtain ⟨rfl, rfl⟩ := Outcome.pure_ok.mp h
    exact ⟨Option.isSome_iff_ne_none.mpr (by simpa using valued), rfl, rfl⟩

/-- Every change is one of the state of its variable alone, and respects what the state
has to. -/
theorem Change.ok {N : Set (Node α)} {x : Variable} {f : Vars α → Make α (Vars α)}
    (hf : Change N x f) {vars vars' : Vars α} {l l' : Ledger}
    (old : (vars.state x).Respects x N) (h : f vars l = .ok vars' l') :
    l' = l ∧ ∃ g, vars' = vars.change x g ∧ (g (vars.state x)).Respects x N := by
  have valued {v : Value α} (shape : v.shape = (x.rows, x.cols)) (fixed : Bool) :
      VarState.Respects { vars.state x with value := some v, fixed := fixed } x N :=
    ⟨old.attached, fun w hw => Option.some.inj hw ▸ shape, fun _ => rfl⟩
  cases hf with
  | assign d =>
      obtain ⟨v, hv, rfl, rfl⟩ := Vars.assign_ok h
      exact ⟨rfl, _, rfl, valued (Variable.shape_of_accept hv) _⟩
  | fix =>
      obtain ⟨some_value, rfl, rfl⟩ := Vars.fix_ok h
      exact ⟨rfl, _, rfl, old.attached, old.shape, fun _ => some_value⟩
  | fixAt d =>
      obtain ⟨vars₁, l₁, ha, hfix⟩ := Outcome.bind_ok.mp h
      obtain ⟨v, hv, rfl, rfl⟩ := Vars.assign_ok ha
      obtain ⟨-, rfl, rfl⟩ := Vars.fix_ok hfix
      exact ⟨rfl, _, Vars.change_change .., valued (Variable.shape_of_accept hv) true⟩
  | free =>
      obtain ⟨rfl, rfl⟩ := Outcome.pure_ok.mp h
      exact ⟨rfl, _, rfl, old.attached, old.shape, fun held => by cases held⟩
  | sign s =>
      obtain ⟨rfl, rfl⟩ := Outcome.pure_ok.mp h
      exact ⟨rfl, _, rfl, old.attached, old.shape, old.held⟩
  | kind k =>
      obtain ⟨rfl, rfl⟩ := Outcome.pure_ok.mp h
      exact ⟨rfl, _, rfl, old.attached, old.shape, old.held⟩
  | attached items hitems =>
      obtain ⟨rfl, rfl⟩ := Outcome.pure_ok.mp h
      exact ⟨rfl, _, rfl, hitems, old.shape, old.held⟩

omit [Scalar α] in
theorem World.Sound.changeState {m : Model α} {N : Set (Node α)} (h : World.Sound ⟨m, N⟩)
    {x : Variable} (hx : .expr (.var x) ∈ N) {g : VarState α → VarState α}
    (hg : (g (m.vars.state x)).Respects x N) :
    World.Sound ⟨{ m with vars := m.vars.change x g }, N⟩ :=
  ⟨h.coherent.change hx hg, h.registered⟩

theorem World.Sound.change {m m' : Model α} {N : Set (Node α)} (h : World.Sound ⟨m, N⟩)
    {x : Variable} {f : Vars α → Make α (Vars α)} (hx : .expr (.var x) ∈ N) (hf : Change N x f)
    (hm : Work.changeVars f m = .ok () m') : World.Sound ⟨m', N⟩ := by
  obtain ⟨vars, l, hvars, rfl⟩ := Work.changeVars_ok hm
  obtain ⟨rfl, g, rfl, respects⟩ := hf.ok (h.coherent.respects x hx) hvars
  exact h.changeState hx respects

omit [Scalar α] in
theorem World.Sound.attach {m : Model α} {N : Set (Node α)} (h : World.Sound ⟨m, N⟩)
    {x : Variable} (hx : .expr (.var x) ∈ N) {n : Node α} (hn : n ∈ N) :
    World.Sound ⟨{ m with
      vars := m.vars.change x fun s => { s with attached := s.attached ++ [.node n] } }, N⟩ := by
  have old : (m.vars.state x).Respects x N := h.coherent.respects x hx
  refine h.changeState hx (g := fun s => { s with attached := s.attached ++ [.node n] })
    ⟨fun k hk => ?_, old.shape, old.held⟩
  rcases List.mem_append.mp hk with hk | hk
  · exact old.attached k hk
  · cases List.mem_singleton.mp hk
    exact hn

/-! ### Scattering -/

omit [Scalar α] in
theorem Model.expression_ok {m : Model α} {name : ContextName} {i : Id} {e : Expr α}
    (h : m.expression name i = .ok e) : m.find? name i = some (.expr e) := by
  unfold expression at h
  split at h
  · rename_i found
    cases h
    exact found
  · cases h
  · cases h

omit [Scalar α] in
/-- What a registry holds under an identity was made, and has that identity. -/
theorem World.Sound.of_expression {w : World α} (h : w.Sound) {name : ContextName} {i : Id}
    {e : Expr α} (he : w.model.expression name i = .ok e) : .expr e ∈ w.nodes ∧ e.id = i := by
  have found : (w.model.context name).find? (fun n => n.id = i) = some (.expr e) :=
    Model.expression_ok he
  obtain ⟨c, hc, hn⟩ := Model.exists_of_mem_context (List.mem_of_find?_eq_some found)
  have hid := List.find?_some found
  exact ⟨h.registered c hc _ hn, of_decide_eq_true hid⟩

omit [Scalar α] in
theorem Model.resolve_cons_ok {m : Model α} {name : ContextName} {i : Id} {s : Slot}
    {layout : Layout} {places : List (Expr α × Slot)}
    (h : m.resolve name ((i, s) :: layout) = .ok places) :
    ∃ e others, m.find? name i = some (.expr e) ∧ s.width = e.width m.vars ∧
      m.resolve name layout = .ok others ∧ places = (e, s) :: others := by
  obtain ⟨e, he, rest⟩ := Outcome.except_bind_ok.mp h
  dsimp only at rest
  split at rest
  · cases rest
  · rename_i width
    obtain ⟨others, hothers, rfl⟩ := Outcome.except_map_ok.mp rest
    exact ⟨e, others, expression_ok he, not_not.mp width, hothers, rfl⟩

/-- Only variables are written to, and each is assigned its block. -/
theorem Model.writeBlock_ok {solution : Flat α} {e : Expr α} {s : Slot} {m m' : Model α}
    (h : writeBlock solution (e, s) m = .ok () m') :
    ∃ x block d, e = .var x ∧ blockOf m.vars solution e s = .ok block ∧
      block.toInput x = .ok d ∧ Work.changeVars (fun vars => vars.assign x d) m = .ok () m' := by
  obtain ⟨vars, l, hvars, rfl⟩ := Work.changeVars_ok h
  obtain ⟨block, l₁, hblock, written⟩ := Outcome.bind_ok.mp hvars
  obtain ⟨cut, rfl⟩ := ofExcept_ok hblock
  cases e with
  | var x =>
      obtain ⟨d, l₂, hd, assigned⟩ := Outcome.bind_ok.mp written
      obtain ⟨arranged, rfl⟩ := ofExcept_ok hd
      refine ⟨x, block, d, rfl, cut, arranged, ?_⟩
      rw [Work.changeVars, assigned]
  | const c => exact (Outcome.throw_ok.mp written).elim
  | kron i a b => exact (Outcome.throw_ok.mp written).elim
  | stub s => exact (Outcome.throw_ok.mp written).elim

/-- What a scattering that was not refused consists of. -/
theorem Model.loadSolution_ok {name : ContextName} {d : Input α} {layout : Layout}
    {m m' : Model α} (h : loadSolution name d layout m = .ok () m') :
    ∃ solution places, Flat.ofInput d = .ok solution ∧ needed layout ≤ solution.size ∧
      m.resolve name layout = .ok places ∧ places.forM (writeBlock solution) m = .ok () m' := by
  obtain ⟨solution, m₁, hsolution, rest⟩ := Outcome.bind_ok.mp h
  obtain ⟨l, hread, rfl⟩ := Work.make_ok hsolution
  obtain ⟨read, rfl⟩ := ofExcept_ok hread
  split at rest
  · obtain ⟨_, _, thrown, -⟩ := Outcome.bind_ok.mp rest
    exact (Outcome.throw_ok.mp thrown).elim
  · rename_i long
    obtain ⟨m₂, m₃, hm, written⟩ := Outcome.bind_ok.mp rest
    cases hm
    cases hplaces : m.resolve name layout with
    | error f =>
        rw [hplaces] at written
        exact (Outcome.throw_ok.mp written).elim
    | ok places =>
        rw [hplaces] at written
        exact ⟨solution, places, read, not_lt.mp long, rfl, written⟩

namespace World.Sound

omit [Scalar α] in
/-- What a layout places is registered. -/
theorem mem_of_resolve {m : Model α} {N : Set (Node α)} (h : World.Sound ⟨m, N⟩)
    {name : ContextName} {layout : Layout} {places : List (Expr α × Slot)}
    (hp : m.resolve name layout = .ok places) : ∀ p ∈ places, Node.expr p.1 ∈ N := by
  induction layout generalizing places with
  | nil =>
      cases hp
      exact fun p hp => by cases hp
  | cons e layout ih =>
      obtain ⟨d, others, hd, -, hothers, rfl⟩ := Model.resolve_cons_ok hp
      intro p hp
      rcases List.mem_cons.mp hp with rfl | hp
      · obtain ⟨c, hc, hn⟩ := Model.exists_of_mem_context (List.mem_of_find?_eq_some hd)
        exact h.registered c hc _ hn
      · exact ih hothers p hp

theorem writeBlocks {N : Set (Node α)} {solution : Flat α} {places : List (Expr α × Slot)}
    {m m' : Model α} (h : World.Sound ⟨m, N⟩) (hp : ∀ p ∈ places, Node.expr p.1 ∈ N)
    (hm : places.forM (Model.writeBlock solution) m = .ok () m') : World.Sound ⟨m', N⟩ := by
  induction places generalizing m with
  | nil =>
      obtain ⟨-, rfl⟩ := Outcome.pure_ok.mp hm
      exact h
  | cons p places ih =>
      obtain ⟨⟨⟩, m₁, first, rest⟩ := Outcome.bind_ok.mp hm
      obtain ⟨x, block, d, hx, -, -, assigned⟩ := Model.writeBlock_ok first
      have hx : Node.expr (.var x) ∈ N := hx ▸ hp p List.mem_cons_self
      exact ih (h.change hx (.assign d) assigned) (fun q hq => hp q (List.mem_cons_of_mem p hq))
        rest

theorem load {w : World α} (h : w.Sound) {name : ContextName} {d : Input α} {layout : Layout}
    {m : Model α} (hm : Model.loadSolution name d layout w.model = .ok () m) :
    World.Sound ⟨m, w.nodes⟩ := by
  obtain ⟨solution, places, -, -, hplaces, written⟩ := Model.loadSolution_ok hm
  exact World.Sound.writeBlocks (h : World.Sound ⟨w.model, w.nodes⟩) (h.mem_of_resolve hplaces)
    written

end World.Sound

/-! ### New variables -/

/-- What sets attach. -/
def VariableSpec.brought (spec : VariableSpec α) : List (Builder α) :=
  if (spec.sets.getD []).contains "Semidefinite" then [semidefinite] else []

theorem VariableSpec.brought_cases (spec : VariableSpec α) :
    spec.brought = [] ∨ spec.brought = [semidefinite] := by
  unfold brought
  split
  · exact .inr rfl
  · exact .inl rfl

/-- Sets name a kind, and attach the semidefinite constraint at most. -/
theorem VariableSpec.resolveSets_ok {spec : VariableSpec α} {l l' : Ledger} {kind : VarKind}
    {extra : List (Builder α)} (h : spec.resolveSets l = .ok (kind, extra) l') :
    l'.nextId = l.nextId ∧ extra = spec.brought := by
  unfold resolveSets at h
  unfold brought
  cases hsets : spec.sets with
  | none =>
      rw [hsets] at h
      obtain ⟨hk, rfl⟩ := Outcome.pure_ok.mp h
      cases hk
      exact ⟨rfl, rfl⟩
  | some sets =>
      rw [hsets] at h
      obtain ⟨⟨⟩, l₁, hnotice, rest⟩ := Outcome.bind_ok.mp h
      cases hnotice
      split at rest
      · obtain ⟨_, _, thrown, -⟩ := Outcome.bind_ok.mp rest
        exact (Outcome.throw_ok.mp thrown).elim
      · cases hunknown : sets.filter fun s => !knownSets.contains s with
        | nil =>
            rw [hunknown] at rest
            obtain ⟨hk, rfl⟩ := Outcome.pure_ok.mp rest
            exact ⟨rfl, (Prod.mk.inj hk).2.symm⟩
        | cons s unknown =>
            rw [hunknown] at rest
            exact (Outcome.throw_ok.mp rest).elim

theorem VariableSpec.attach_semidefinite_ok {x : Variable} {m m' : Model α}
    (h : attach x semidefinite m = .ok () m') :
    ∃ c l, makeConstraint m.vars .semidefinite (.thing 0 (.expr (.var x))) (.ofInt 0) m.ledger
        = .ok c l ∧
      m' = { m with
        ledger := l
        vars := m.vars.change x fun s =>
          { s with attached := s.attached ++ [.node (.constraint c)] } } := by
  obtain ⟨vars, l', hvars, rfl⟩ := Work.changeVars_ok h
  obtain ⟨item, l₁, hitem, hchange⟩ := Outcome.bind_ok.mp hvars
  obtain ⟨c, l₂, hc, made⟩ := Outcome.bind_ok.mp hitem
  obtain ⟨rfl, rfl⟩ := Outcome.pure_ok.mp made
  obtain ⟨rfl, rfl⟩ := Outcome.pure_ok.mp hchange
  exact ⟨c, l₂, hc, rfl⟩

/-- A declaration enters a variable with the next identity and registers it; the
semidefinite constraint may be attached afterwards. -/
theorem VariableSpec.declare_ok {spec : VariableSpec α} {m m' : Model α} {x : Variable}
    (h : spec.declare [] m = .ok x m') :
    x.id = m.ledger.nextId ∧ ∃ (kind : VarKind) (l : Ledger) (m₁ : Model α),
      l.nextId = m.ledger.nextId + 1 ∧
      Model.register x.home (.expr (.var x)) { m with
        ledger := l, vars := m.vars.push x.id { sign := spec.sign, kind := kind } } = .ok () m₁ ∧
      (m' = m₁ ∨ attach x semidefinite m₁ = .ok () m') := by
  obtain ⟨id, m₁, hid, rest₁⟩ := Outcome.bind_ok.mp h
  obtain ⟨l₁, hfresh, rfl⟩ := Work.make_ok hid
  obtain ⟨rfl, rfl⟩ := freshId_ok hfresh
  obtain ⟨⟨kind, extra⟩, m₂, hsets, rest₂⟩ := Outcome.bind_ok.mp rest₁
  obtain ⟨l₂, hresolve, rfl⟩ := Work.make_ok hsets
  obtain ⟨next, rfl⟩ := resolveSets_ok hresolve
  obtain ⟨shape, m₃, hshape, rest₃⟩ := Outcome.bind_ok.mp rest₂
  obtain ⟨l₃, hnormal, rfl⟩ := Work.make_ok hshape
  obtain ⟨-, rfl⟩ := ofExcept_ok hnormal
  obtain ⟨m₄, m₅, hget, rest₄⟩ := Outcome.bind_ok.mp rest₃
  cases hget
  obtain ⟨⟨⟩, m₆, hmodify, rest₅⟩ := Outcome.bind_ok.mp rest₄
  cases hmodify
  obtain ⟨⟨⟩, m₇, hregister, rest₆⟩ := Outcome.bind_ok.mp rest₅
  obtain ⟨⟨⟩, m₈, hattach, rest₇⟩ := Outcome.bind_ok.mp rest₆
  obtain ⟨rfl, rfl⟩ := Outcome.pure_ok.mp rest₇
  refine ⟨rfl, kind, _, m₇, next, hregister, ?_⟩
  rcases spec.brought_cases with nothing | one
  · rw [nothing] at hattach
    obtain ⟨-, rfl⟩ := Outcome.pure_ok.mp hattach
    exact .inl rfl
  · rw [one] at hattach
    obtain ⟨⟨⟩, m₉, first, done⟩ := Outcome.bind_ok.mp hattach
    obtain ⟨-, rfl⟩ := Outcome.pure_ok.mp done
    exact .inr first

omit [Scalar α] in
/-- A variable that was entered and registered is in the state it was entered with. -/
theorem Model.state_of_register {m m₁ : Model α} {x : Variable} {l : Ledger} {s : VarState α}
    (new : x.id ∉ m.vars.ids) (h : Model.register x.home (.expr (.var x)) { m with
      ledger := l, vars := m.vars.push x.id s } = .ok () m₁) :
    m₁.vars.state x = s ∧ x.id ∈ m₁.vars.ids := by
  have vars : m₁.vars = m.vars.push x.id s := (Model.register_ok h).1
  have found := Table.get?_push_self (Table.get?_eq_none_iff.mpr new) s
  rw [vars, Vars.state, found]
  exact ⟨rfl, Table.mem_ids_of_get? found⟩

namespace World.Sound

omit [Scalar α] in
/-- A variable was entered under the next identity. -/
theorem enter {m : Model α} {N : Set (Node α)} (h : World.Sound ⟨m, N⟩) {x : Variable}
    {l : Ledger} (hid : x.id = m.ledger.nextId) (next : l.nextId = m.ledger.nextId + 1)
    (sign : Sign) (kind : VarKind) : World.Sound ⟨{ m with
      ledger := l, vars := m.vars.push x.id { sign := sign, kind := kind } },
      insert (.expr (.var x)) N⟩ := by
  refine ⟨?_, fun c hc n hn => .inr (h.registered c hc n hn)⟩
  show Coherent _ _ l.nextId
  rw [next]
  exact h.coherent.enroll hid sign kind

theorem declare {w : World α} (h : w.Sound) {spec : VariableSpec α} {x : Variable}
    {m : Model α} (hm : spec.declare [] w.model = .ok x m) :
    World.Sound ⟨m, {n | n = .expr (.var x) ∨ n ∈ w.nodes ∨
      ∃ c, .node (.constraint c) ∈ (m.vars.state x).attached ∧
        (n = .constraint c ∨ n ∈ (Node.constraint c).children)}⟩ := by
  obtain ⟨hid, kind, l, m₁, hl, hregister, attached⟩ := VariableSpec.declare_ok hm
  have sound : World.Sound ⟨w.model, w.nodes⟩ := h
  have entered := sound.enter hid hl spec.sign kind
  have registered : World.Sound ⟨m₁, insert (.expr (.var x)) w.nodes⟩ :=
    entered.register (.inl rfl) hregister
  have new : x.id ∉ w.vars.ids := fun hx => (h.coherent.below _ hx).ne hid
  obtain ⟨state, known⟩ := Model.state_of_register new hregister
  rcases attached with rfl | attached
  · have nodes : {n | n = Node.expr (.var x) ∨ n ∈ w.nodes ∨
        ∃ c, .node (.constraint c) ∈ (m.vars.state x).attached ∧
          (n = .constraint c ∨ n ∈ (Node.constraint c).children)}
        = insert (.expr (.var x)) w.nodes := by
      ext n
      simp [state]
    rw [nodes]
    exact registered
  · obtain ⟨c, l', hc, rfl⟩ := VariableSpec.attach_semidefinite_ok attached
    have hx : Node.expr (.var x) ∈ insert (Node.expr (.var x)) w.nodes := .inl rfl
    have made := registered.make (registered.coherent.roster.gain_constraint
      registered.coherent.pos (Roster.offers_expr hx) (Roster.offers_int _ 0) hc)
    have after := made.attach (subset_gain _ _ hx) (mem_gain _ _)
    have nodes : {n | n = Node.expr (.var x) ∨ n ∈ w.nodes ∨
        ∃ d, .node (.constraint d) ∈ ((m₁.vars.change x fun s =>
          { s with attached := s.attached ++ [.node (.constraint c)] }).state x).attached ∧
          (n = .constraint d ∨ n ∈ (Node.constraint d).children)}
        = gain (insert (.expr (.var x)) w.nodes) (.constraint c) := by
      ext n
      rw [Vars.state_change_self known, state]
      simp [gain]
      tauto
    exact nodes ▸ after

/-- A declaration makes one variable.  If something is attached to it, that is a semidefinite
constraint between the variable and a zero, which are then made as well. -/
theorem node_of_declare {w : World α} (h : w.Sound) {spec : VariableSpec α} {x : Variable}
    {m : Model α} (hm : spec.declare [] w.model = .ok x m) {n : Node α}
    (hn : n ∈ {n | n = .expr (.var x) ∨ n ∈ w.nodes ∨
      ∃ c, .node (.constraint c) ∈ (m.vars.state x).attached ∧
        (n = .constraint c ∨ n ∈ (Node.constraint c).children)}) :
    n = .expr (.var x) ∨ n ∈ w.nodes ∨ ∃ (c : Constraint α) (k : Constant α),
      c.relation = .semidefinite ∧
      k.value = .real (.replicate x.rows x.cols (Scalar.ofInt 0)) ∧
      (n = .constraint c ∨ n = .expr (.const k)) := by
  rcases hn with hn | hn | ⟨c, hc, hn⟩
  · exact .inl hn
  · exact .inr (.inl hn)
  obtain ⟨hid, kind, l, m₁, -, hregister, attached⟩ := VariableSpec.declare_ok hm
  have new : x.id ∉ w.vars.ids := fun hx => (h.coherent.below _ hx).ne hid
  obtain ⟨state, known⟩ := Model.state_of_register new hregister
  rcases attached with rfl | attached
  · rw [state] at hc
    cases hc
  obtain ⟨d, l', hd, rfl⟩ := VariableSpec.attach_semidefinite_ok attached
  rw [Vars.state_change_self known, state] at hc
  cases List.mem_singleton.mp hc
  obtain ⟨lhs, k, rhs, value⟩ := makeConstraint_zero hd
  obtain ⟨-, relation, -⟩ := makeConstraint_ok hd
  rcases hn with rfl | hn
  · exact .inr (.inr ⟨c, k, relation, value, .inl rfl⟩)
  rcases List.mem_cons.mp hn with rfl | hn
  · exact .inl (congrArg Node.expr lhs)
  · rw [List.mem_singleton.mp hn, rhs]
    exact .inr (.inr ⟨c, k, relation, value, .inr rfl⟩)

theorem var_of_declare {w : World α} (h : w.Sound) {spec : VariableSpec α} {x y : Variable}
    {m : Model α} (hm : spec.declare [] w.model = .ok x m)
    (hy : (.expr (.var y) : Node α) ∈ {n | n = .expr (.var x) ∨ n ∈ w.nodes ∨
      ∃ c, .node (.constraint c) ∈ (m.vars.state x).attached ∧
        (n = .constraint c ∨ n ∈ (Node.constraint c).children)}) :
    y = x ∨ .expr (.var y) ∈ w.nodes := by
  rcases h.node_of_declare hm hy with hy | hy | ⟨c, k, -, -, hy | hy⟩
  · cases hy
    exact .inl rfl
  · exact .inr hy
  · cases hy
  · cases hy

end World.Sound

/-! ### All reachable worlds -/

theorem Step.sound {w w' : World α} (h : w.Sound) (step : Step w w') : w'.Sound := by
  have h' : World.Sound ⟨w.model, w.nodes⟩ := h
  cases step with
  | spend l hl => exact ⟨h.coherent.mono hl, h.registered⟩
  | constant d sign c l hc => exact h'.make (h.coherent.roster.gain_const h.coherent.pos hc)
  | kron a b e l ha hb he => exact h'.make (h.coherent.roster.gain_kron h.coherent.pos ha hb he)
  | constraint relation dl dr c l hl hr hc =>
      exact h'.make (h.coherent.roster.gain_constraint h.coherent.pos hl hr hc)
  | declare spec x m hm => exact h.declare hm
  | change x f m hx hf hm => exact h'.change hx hf hm
  | register name n m hn hm => exact h.register hn hm
  | clear name m hm =>
      cases hm
      exact h'.setContext name fun n hn => by cases hn
  | setCurrent name previous m hm =>
      cases hm
      exact ⟨h.coherent, h.registered⟩
  | load name d layout m hm => exact h.load hm

/-- Whatever a session has done, its variables and nodes go together. -/
theorem Reachable.sound {w : World α} (h : Reachable w) : w.Sound := by
  induction h with
  | start => exact .start
  | next _ step ih => exact step.sound ih

/-- Writing blocks makes nothing. -/
theorem Model.ledger_of_writeBlocks {solution : Flat α} {places : List (Expr α × Slot)}
    {m m' : Model α} (h : places.forM (Model.writeBlock solution) m = .ok () m') :
    m'.ledger = m.ledger := by
  induction places generalizing m with
  | nil =>
      obtain ⟨-, rfl⟩ := Outcome.pure_ok.mp h
      rfl
  | cons p places ih =>
      obtain ⟨⟨⟩, m₁, first, rest⟩ := Outcome.bind_ok.mp h
      obtain ⟨x, block, d, -, -, -, assigned⟩ := Model.writeBlock_ok first
      obtain ⟨vars, l, hvars, rfl⟩ := Work.changeVars_ok assigned
      obtain ⟨v, -, rfl, -⟩ := Vars.assign_ok hvars
      exact (ih rest).trans rfl

/-- Identities are never given back. -/
theorem Step.nextId_le {w w' : World α} (h : w.Sound) (step : Step w w') :
    w.ledger.nextId ≤ w'.ledger.nextId := by
  cases step with
  | spend l hl => exact hl
  | constant d sign c l hc => exact (h.coherent.roster.gain_const h.coherent.pos hc).lt.le
  | kron a b e l ha hb he => exact (h.coherent.roster.gain_kron h.coherent.pos ha hb he).lt.le
  | constraint relation dl dr c l hl hr hc =>
      exact (h.coherent.roster.gain_constraint h.coherent.pos hl hr hc).lt.le
  | declare spec x m hm =>
      obtain ⟨-, kind, l, m₁, hl, hregister, attached⟩ := VariableSpec.declare_ok hm
      have registered : m₁.ledger = l := (Model.register_ok hregister).2
      have entered : w.ledger.nextId ≤ m₁.ledger.nextId := by
        rw [registered, hl]
        exact (Int.lt_succ _).le
      rcases attached with rfl | attached
      · exact entered
      · obtain ⟨c, l', hc, rfl⟩ := VariableSpec.attach_semidefinite_ok attached
        obtain ⟨-, -, -, mid, lo, hi, -⟩ := makeConstraint_ok hc
        exact entered.trans (lo.trans_le hi).le
  | change x f m hx hf hm =>
      obtain ⟨vars, l, hvars, rfl⟩ := Work.changeVars_ok hm
      obtain ⟨rfl, -⟩ := hf.ok (h.coherent.respects x hx) hvars
      exact Int.le_refl _
  | register name n m hn hm => exact (congrArg Ledger.nextId (Model.register_ok hm).2).ge
  | clear name m hm =>
      cases hm
      exact (congrArg Ledger.nextId (w.model.setContext_vars name _).2).ge
  | setCurrent name previous m hm =>
      cases hm
      exact Int.le_refl _
  | load name d layout m hm =>
      obtain ⟨solution, places, -, -, -, written⟩ := Model.loadSolution_ok hm
      exact (congrArg Ledger.nextId (Model.ledger_of_writeBlocks written)).ge

omit [Scalar α] in
/-- A variable with nothing attached to it joins the nodes alone. -/
theorem World.nodes_declared {m : Model α} {N : Set (Node α)} {x : Variable}
    (plain : (m.vars.state x).attached = []) :
    {n | n = .expr (.var x) ∨ n ∈ N ∨
      ∃ c, .node (.constraint c) ∈ (m.vars.state x).attached ∧
        (n = .constraint c ∨ n ∈ (Node.constraint c).children)} = insert (.expr (.var x)) N := by
  ext n
  simp [plain]

theorem Reachable.declare_plain {w : World α} (h : Reachable w) {spec : VariableSpec α}
    {x : Variable} {m : Model α} (declared : spec.declare [] w.model = .ok x m)
    (plain : (m.vars.state x).attached = []) :
    Reachable ⟨m, insert (.expr (.var x)) w.nodes⟩ :=
  World.nodes_declared plain ▸ h.next (.declare w spec x m declared)

/-! ### Dimensions -/

omit [Scalar α] in
theorem Variable.checkDimensions_pos {ds : List Int} {r c : Nat}
    (h : (checkDimensions ds : Except (Fault α) (Nat × Nat)) = .ok (r, c)) : 0 < r ∧ 0 < c := by
  unfold checkDimensions at h
  split at h
  · split at h
    · rename_i positive
      cases h
      exact ⟨Int.lt_toNat.mpr positive.1, Int.lt_toNat.mpr positive.2⟩
    · cases h
  · cases h

theorem Variable.normalizeShape_pos {d : Input α} {r c : Nat}
    (h : normalizeShape d = .ok (r, c)) : 0 < r ∧ 0 < c := by
  unfold normalizeShape at h
  split at h
  · exact checkDimensions_pos h
  · cases h

/-- A variable has the shape that was asked for. -/
theorem VariableSpec.declare_shape {spec : VariableSpec α} {m m' : Model α} {x : Variable}
    (h : spec.declare [] m = .ok x m') :
    Variable.normalizeShape spec.shape = .ok (x.rows, x.cols) := by
  obtain ⟨id, m₁, hid, rest₁⟩ := Outcome.bind_ok.mp h
  obtain ⟨sets, m₂, hsets, rest₂⟩ := Outcome.bind_ok.mp rest₁
  obtain ⟨shape, m₃, hshape, rest₃⟩ := Outcome.bind_ok.mp rest₂
  obtain ⟨l, hnormal, rfl⟩ := Work.make_ok hshape
  obtain ⟨normal, rfl⟩ := ofExcept_ok hnormal
  obtain ⟨m₄, m₅, hget, rest₄⟩ := Outcome.bind_ok.mp rest₃
  obtain ⟨⟨⟩, m₆, hmodify, rest₅⟩ := Outcome.bind_ok.mp rest₄
  obtain ⟨⟨⟩, m₇, hregister, rest₆⟩ := Outcome.bind_ok.mp rest₅
  obtain ⟨⟨⟩, m₈, hattach, rest₇⟩ := Outcome.bind_ok.mp rest₆
  obtain ⟨rfl, rfl⟩ := Outcome.pure_ok.mp rest₇
  exact normal

/-- A variable has at least one row and one column. -/
theorem Reachable.positive {w : World α} (h : Reachable w) {x : Variable}
    (hx : .expr (.var x) ∈ w.nodes) : 0 < x.rows ∧ 0 < x.cols := by
  induction h generalizing x with
  | start => exact hx.elim
  | next reachable step ih =>
      have sound := reachable.sound
      have coherent := sound.coherent
      cases step with
      | spend l hl => exact ih hx
      | constant d sign c l hc => exact ih ((coherent.roster.gain_const coherent.pos hc).vars x hx)
      | kron a b e l ha hb he =>
          exact ih ((coherent.roster.gain_kron coherent.pos ha hb he).vars x hx)
      | constraint relation dl dr c l hl hr hc =>
          exact ih ((coherent.roster.gain_constraint coherent.pos hl hr hc).vars x hx)
      | declare spec y m hm =>
          rcases sound.var_of_declare hm hx with rfl | hx
          · exact Variable.normalizeShape_pos (VariableSpec.declare_shape hm)
          · exact ih hx
      | change y f m hy hf hm | register name n m hn hm | clear name m hm
      | setCurrent name previous m hm | load name d layout m hm => exact ih hx

end

/-! ### A cyclic world

A positive variable is declared, a bound on three times the variable is made, and the bound
is attached to the variable, so that each leads to the other. -/

namespace Looped

def x : Variable := ⟨1, 2, 1, .main⟩

def triple : Expr ℚ := .kron 3 (.const ⟨2, .real (.ofRowMajor 1 1 #[3]), .positive⟩) (.var x)

/-- The one is spread over the shape of the other side. -/
def bound : Constraint ℚ :=
  ⟨4, .atLeast, triple, .const ⟨6, .real (.replicate 2 1 1), .positive⟩⟩

def declared : World ℚ where
  model := {
    ledger := { nextId := 2 }
    vars := [(1, { sign := .positive })]
    contexts := [(.main, [.expr (.var x)])] }
  nodes := {.expr (.var x)}

def world : World ℚ where
  model := { declared.model with
    ledger := { nextId := 7 }
    vars := [(1, { sign := .positive, attached := [.node (.constraint bound)] })] }
  nodes := gain (gain declared.nodes (.expr triple)) (.constraint bound)

theorem declared_reachable : Reachable declared := by
  let spec : VariableSpec ℚ := { shape := .ofInt 2, sign := .positive }
  have made : spec.declare [] {} = .ok x declared.model := rfl
  simpa only [declared, insert_empty_eq] using Reachable.start.declare_plain made rfl

theorem world_reachable : Reachable world := by
  have hx : .expr (.var x) ∈ declared.nodes := rfl
  have tripled : Reachable (declared.make { nextId := 4 } (.expr triple)) :=
    declared_reachable.next <| .kron _ (.ofInt 3) (.thing 0 (.expr (.var x))) triple _
      (Roster.offers_int _ 3) (Roster.offers_expr hx) (by with_unfolding_all rfl)
  have bounded := tripled.next <| .constraint _ .atLeast (.thing 0 (.expr triple)) (.ofInt 1)
    bound { nextId := 7 } (Roster.offers_expr (mem_gain _ _)) (Roster.offers_int _ 1)
    (by with_unfolding_all rfl)
  refine bounded.next <| .change _ x _ world.model (subset_gain _ _ (subset_gain _ _ hx))
    (.attached [.node (.constraint bound)] fun n hn => ?_) rfl
  cases List.mem_singleton.mp hn
  exact mem_gain _ _

theorem bound_made : .constraint bound ∈ world.nodes := mem_gain _ _

theorem triple_made : .expr triple ∈ world.nodes := subset_gain _ _ (mem_gain _ _)

theorem var_made : .expr (.var x) ∈ world.nodes := subset_gain _ _ (subset_gain _ _ rfl)

/-- There is one variable. -/
theorem eq_x {y : Variable} (h : .expr (.var y) ∈ world.nodes) : y = x := by
  simpa [world, declared, gain, Node.children, bound, triple] using h

end Looped

end ConicModel
