/-
# The life of a variable

A variable is affine or, while it is fixed, constant.  It has no value at first; what is
stored is a number if the variable is scalar and otherwise a matrix of its shape; and
something stays stored from then on.  Compilation relies on this where it enters a constant
by its value without asking whether there is one.

All that a request can do to values is to store one that was accepted, by an assignment, a
fixing or a loading.  Everything else disturbs no variable.  So the whole of it is carried by
`Ensemble.Sound`, which says in addition that variables are told apart by their identities:
a change is made under an identity, and that no other variable is changed depends on it.
-/
import ConicModel.Proofs.Session.Requests

namespace ConicModel

variable {α : Type}

/-! ## Sound ensembles -/

/-- Variables are told apart by identities that were taken, registries hold variables that
were made, and every variable respects what it has to: a value of its shape, and one at all
if it is fixed. -/
structure Ensemble.Sound (e : Ensemble α) : Prop where
  below : ∀ i ∈ e.model.vars.ids, i < e.model.ledger.nextId
  known : ∀ x ∈ e.made, x.id ∈ e.model.vars.ids
  distinct : ∀ x ∈ e.made, ∀ y ∈ e.made, x.id = y.id → x = y
  registered : ∀ x, e.model.Registers x → x ∈ e.made
  respects : ∀ x ∈ e.made, (e.model.vars.state x).Respects x Set.univ

/-- Where value and fixing are the same, what a variable has to respect is. -/
theorem VarState.Respects.congr {s t : VarState α} {x : Variable} (h : s.Respects x Set.univ)
    (value : t.value = s.value) (fixed : t.fixed = s.fixed) : t.Respects x Set.univ where
  attached _ _ := trivial
  shape v hv := h.shape v (value ▸ hv)
  held hf := by
    rw [value]
    exact h.held (fixed ▸ hf)

namespace Ensemble.Sound

theorem start : Ensemble.Sound ({} : Ensemble α) where
  below i hi := by cases hi
  known x hx := hx.elim
  distinct x hx := hx.elim
  registered x hx := by
    obtain ⟨c, hc, -⟩ := hx
    cases hc
  respects x hx := hx.elim

variable {m m' : Model α} {V : Set Variable}

/-- What is registered is among the variables already. -/
theorem join (h : Ensemble.Sound ⟨m, V⟩) : Ensemble.Sound ⟨m, {x | x ∈ V ∨ m.Registers x}⟩ := by
  have same : {x | x ∈ V ∨ m.Registers x} = V :=
    Set.ext fun x => ⟨fun hx => hx.elim id (h.registered x), .inl⟩
  rwa [same]

/-- Nothing was disturbed and nothing new was registered. -/
theorem undisturbed (h : Ensemble.Sound ⟨m, V⟩) (same : m.Undisturbed m')
    (ids : m'.vars.ids = m.vars.ids) (registers : ∀ y, m'.Registers y → y ∈ V) :
    Ensemble.Sound ⟨m', V⟩ where
  below i hi := (h.below i (ids ▸ hi)).trans_le same.before
  known x hx := by
    show x.id ∈ m'.vars.ids
    exact ids ▸ h.known x hx
  distinct := h.distinct
  registered := registers
  respects x hx := (h.respects x hx).congr (same.value x) (same.fixed x)

/-- One variable has joined, under the identity that was next. -/
theorem enroll (h : Ensemble.Sound ⟨m, V⟩) {x : Variable} (new : x.id = m.ledger.nextId)
    (same : m.Undisturbed m') (later : x.id < m'.ledger.nextId)
    (ids : m'.vars.ids = m.vars.ids ++ [x.id])
    (registers : ∀ y, m'.Registers y → y ∈ V ∨ y = x) :
    Ensemble.Sound ⟨m', {y | y ∈ V ∨ m'.Registers y}⟩ := by
  have absent : x.id ∉ m.vars.ids := fun hx => (h.below _ hx).ne new
  have either : ∀ y ∈ {y | y ∈ V ∨ m'.Registers y}, y ∈ V ∨ y = x :=
    fun y hy => hy.elim .inl (registers y)
  have apart : ∀ y ∈ V, y.id ≠ x.id := fun y hy same => absent (same ▸ h.known y hy)
  have blank : m.vars.state x = {} := by
    rw [Vars.state, Table.get?_eq_none_iff.mpr absent]
    rfl
  constructor
  · intro i hi
    rcases List.mem_append.mp (ids ▸ hi) with hi | hi
    · exact (h.below i hi).trans_le same.before
    · rw [List.mem_singleton.mp hi]
      exact later
  · intro y hy
    show y.id ∈ m'.vars.ids
    rw [ids]
    rcases either y hy with hy | rfl
    · exact List.mem_append_left _ (h.known y hy)
    · exact List.mem_append_right _ (List.mem_singleton_self _)
  · intro y hy z hz hid
    rcases either y hy with hy | rfl
    · rcases either z hz with hz | rfl
      · exact h.distinct y hy z hz hid
      · exact (apart y hy hid).elim
    · rcases either z hz with hz | rfl
      · exact (apart z hz hid.symm).elim
      · rfl
  · exact fun y hy => .inr hy
  · intro y hy
    rcases either y hy with hy | rfl
    · exact (h.respects y hy).congr (same.value y) (same.fixed y)
    · have none : (m.vars.state y).Respects y Set.univ := by
        rw [blank]
        exact ⟨fun _ _ => trivial, fun v hv => (by cases hv), fun held => (by cases held)⟩
      exact none.congr (same.value y) (same.fixed y)

/-- One variable was changed, and respects what it has to. -/
theorem change (h : Ensemble.Sound ⟨m, V⟩) {x : Variable} (hx : x ∈ V)
    {g : VarState α → VarState α} (hg : (g (m.vars.state x)).Respects x Set.univ) {l : Ledger}
    (before : m.ledger.Before l) :
    Ensemble.Sound ⟨{ m with vars := m.vars.change x g, ledger := l }, V⟩ where
  below i hi := (h.below i (Vars.ids_change m.vars x g ▸ hi)).trans_le before
  known y hy := by
    show y.id ∈ (m.vars.change x g).ids
    rw [Vars.ids_change]
    exact h.known y hy
  distinct := h.distinct
  registered := h.registered
  respects y hy := by
    by_cases same : x.id = y.id
    · cases h.distinct x hx y hy same
      rw [Vars.state_change_self (h.known x hx)]
      exact hg
    · rw [Vars.state_change_of_ne m.vars same]
      exact h.respects y hy

end Ensemble.Sound

/-! ## Alterations -/

namespace Alteration

/-- Whether it is the value that is altered, or whether the variable is fixed. -/
def Writes : Alteration α → Prop
  | assign _ | fix | fixAt _ | free => True
  | sign _ | kind _ | attached _ => False

variable [Scalar α] {a : Alteration α} {x : Variable} {vars vars' : Vars α} {l l' : Ledger}

theorem change_of_attached (a : Alteration α) (x : Variable) {N : Set (Node α)}
    (there : ∀ items, a = .attached items → ∀ n, .node n ∈ items → n ∈ N) :
    Change N x fun vars => a.run x vars := by
  cases a with
  | assign d => exact .assign d
  | fix => exact .fix
  | fixAt d => exact .fixAt d
  | free => exact .free
  | sign s => exact .sign s
  | kind k => exact .kind k
  | attached items => exact .attached items (there items rfl)

theorem change (a : Alteration α) (x : Variable) : Change Set.univ x fun vars => a.run x vars :=
  a.change_of_attached x fun _ _ _ _ => trivial

theorem still (a : Alteration α) (x : Variable) (vars : Vars α) : (a.run x vars).Still := by
  cases a with
  | assign d => exact vars.still_assign x d
  | fix => exact vars.still_fix x
  | fixAt d => exact (vars.still_assign x d).bind fun ws => ws.still_fix x
  | free | sign s | kind k | attached items => exact .pure _

theorem advances (a : Alteration α) (x : Variable) (vars : Vars α) : (a.run x vars).Advances :=
  (a.still x vars).advances

/-- A value that is stored stays, or another one takes its place. -/
theorem retains (h : a.run x vars l = .ok vars' l') (y : Variable)
    (valued : (vars.state y).value.isSome = true) : (vars'.state y).value.isSome = true := by
  have assigned {ws : Vars α} {d : Input α} {m : Ledger} (h : vars.assign x d l = .ok ws m) :
      (ws.state y).value.isSome = true := by
    obtain ⟨v, -, -, rfl⟩ := Vars.assign_ok h
    rcases vars.state_change x y (fun s => { s with value := some v }) with same | changed
    · rwa [same]
    · rw [changed]
      rfl
  have fixed {us ws : Vars α} {m m' : Ledger} (valued : (us.state y).value.isSome = true)
      (h : us.fix x m = .ok ws m') : (ws.state y).value.isSome = true := by
    obtain ⟨-, -, rfl⟩ := Vars.fix_ok h
    rcases us.state_change x y (fun s => { s with fixed := true }) with same | changed
    · rwa [same]
    · rwa [changed]
  have others {f : VarState α → VarState α} (keeps : ∀ s, (f s).value = s.value) :
      ((vars.change x f).state y).value.isSome = true := by
    rcases vars.state_change x y f with same | changed
    · rwa [same]
    · rwa [changed, keeps]
  cases a with
  | assign d => exact assigned h
  | fix => exact fixed valued h
  | fixAt d =>
      obtain ⟨ws, m, first, second⟩ := Outcome.bind_ok.mp h
      exact fixed (assigned first) second
  | free | sign s | kind k | attached items =>
      obtain ⟨rfl, -⟩ := Outcome.pure_ok.mp h
      exact others fun _ => rfl

/-- Setting a sign, a kind or the attached list leaves the rest alone. -/
theorem undisturbed {m : Model α} (quiet : ¬a.Writes) (h : a.run x m.vars m.ledger = .ok vars' l') :
    m.Undisturbed { m with vars := vars', ledger := l' } := by
  have before : m.ledger.Before l' := (a.advances x m.vars).ok h
  cases a with
  | assign d | fix | fixAt d | free => exact (quiet trivial).elim
  | sign s | kind k | attached items =>
      obtain ⟨rfl, -⟩ := Outcome.pure_ok.mp h
      exact .change (fun _ => rfl) (fun _ => rfl) before

/-- What is fixed at a value is fixed once the value is assigned, so there is never anything
to take back. -/
theorem fixAt_error {d : Input α} {f : Fault α} (known : x.id ∈ vars.ids)
    (h : vars.fixAt x d l = .error f l') : vars.assign x d l = .error f l' := by
  rcases Outcome.bind_error.mp h with refused | ⟨ws, m, assigned, refused⟩
  · exact refused
  · obtain ⟨v, -, -, rfl⟩ := Vars.assign_ok assigned
    have state : ((vars.change x fun s => { s with value := some v }).state x).value = some v := by
      rw [Vars.state_change_self known]
    unfold Vars.fix at refused
    rw [state, if_neg (by simp)] at refused
    exact (Outcome.pure_error.mp refused).elim

end Alteration

/-! ## Loading -/

namespace Model

/-- Values were stored, in variables of `V` with identities in `I`. -/
structure Stored (V : Set Variable) (I : List Id) (m m' : Model α) : Prop where
  sound : Ensemble.Sound ⟨m, V⟩ → Ensemble.Sound ⟨m', V⟩
  kept : ∀ y, (m.vars.state y).value.isSome = true → (m'.vars.state y).value.isSome = true
  others : ∀ y : Variable, y.id ∉ I → m'.vars.state y = m.vars.state y

instance (V : Set Variable) (I : List Id) : IsPreorder (Model α) (Stored V I) where
  refl _ := ⟨id, fun _ => id, fun _ _ => rfl⟩
  trans _ _ _ h h' := ⟨fun s => h'.sound (h.sound s), fun y s => h'.kept y (h.kept y s),
    fun y hy => (h'.others y hy).trans (h.others y hy)⟩

theorem Stored.spend {V : Set Variable} {I : List Id} {m : Model α} {l : Ledger}
    (before : m.ledger.Before l) : m.Stored V I { m with ledger := l } where
  sound h := h.undisturbed (.of_vars rfl before) rfl h.registered
  kept _ valued := valued
  others _ _ := rfl

variable [Scalar α]

/-- Writing a block takes no identity. -/
theorem still_writing (solution : Flat α) (p : Expr α × Slot) (vars : Vars α) :
    Make.Still (do
      let block ← Make.ofExcept (·) (blockOf vars solution p.1 p.2)
      match p.1 with
      | .var x => vars.assign x (← Make.ofExcept (·) (block.toInput x))
      | _ => throw (Fault.mishap .feature)) := by
  refine Outcome.Keeps.bind (Make.still_ofExcept _ _) fun block => ?_
  split
  · exact (Make.still_ofExcept _ _).bind fun d => Vars.still_assign _ _ d
  · exact .throw _

/-- A block is stored in a variable, or nothing is. -/
theorem stored_writeBlock {V : Set Variable} {I : List Id} {solution : Flat α}
    {p : Expr α × Slot} (hp : ∀ x, p.1 = .var x → x ∈ V ∧ x.id ∈ I) :
    Outcome.Keeps (Stored V I) (writeBlock solution p) := by
  intro m
  cases h : writeBlock solution p m with
  | error f m' =>
      obtain ⟨l, hl, rfl⟩ := Work.changeVars_error h
      exact .spend ((still_writing solution p m.vars).advances.error hl)
  | ok u m' =>
      obtain ⟨x, block, d, hx, -, -, assigned⟩ := writeBlock_ok h
      obtain ⟨made, inside⟩ := hp x hx
      obtain ⟨vars, l, changed, rfl⟩ := Work.changeVars_ok assigned
      have kept := Alteration.retains (a := .assign d) changed
      obtain ⟨v, accepted, rfl, rfl⟩ := Vars.assign_ok changed
      let set (s : VarState α) : VarState α := { s with value := some v }
      refine ⟨fun h => ?_, kept, fun y hy => Vars.state_change_of_ne m.vars ?_ set⟩
      · have old : (m.vars.state x).Respects x Set.univ := h.respects x made
        refine h.change made ⟨old.attached, fun w hw => ?_, fun _ => rfl⟩ (refl_of _ m.ledger)
        cases hw
        exact Variable.shape_of_accept accepted
      · intro same
        exact hy (same ▸ inside)

omit [Scalar α] in
/-- What a layout places is registered, and stands in it under its identity. -/
theorem registered_of_resolve {m : Model α} {name : ContextName} {layout : Layout}
    {places : List (Expr α × Slot)} (h : m.resolve name layout = .ok places) :
    ∀ p ∈ places, (∃ c ∈ m.contexts, Node.expr p.1 ∈ c.2) ∧ p.1.id ∈ layout.ids := by
  induction layout generalizing places with
  | nil =>
      cases h
      exact fun p hp => by cases hp
  | cons entry layout ih =>
      obtain ⟨e, others, found, -, rest, rfl⟩ := resolve_cons_ok h
      intro p hp
      rcases List.mem_cons.mp hp with rfl | hp
      · refine ⟨exists_of_mem_context (List.mem_of_find?_eq_some found), ?_⟩
        have hid := List.find?_some found
        exact List.mem_cons.mpr (.inl (of_decide_eq_true hid))
      · obtain ⟨registered, hid⟩ := ih rest p hp
        exact ⟨registered, List.mem_cons_of_mem _ hid⟩

/-- A loading changes nothing, or it goes through what its layout places. -/
theorem left_loadSolution (name : ContextName) (d : Input α) (layout : Layout) (m : Model α) :
    Outcome.left (loadSolution name d layout m) = m ∨ ∃ solution places,
      m.resolve name layout = .ok places ∧ Outcome.left (loadSolution name d layout m)
        = Outcome.left (places.forM (writeBlock solution) m) := by
  cases h : loadSolution name d layout m with
  | ok u m' =>
      obtain ⟨solution, places, -, -, found, written⟩ := loadSolution_ok h
      exact .inr ⟨solution, places, found, by rw [written]⟩
  | error f m' =>
      rcases loadSolution_error h with same | ⟨solution, places, -, -, found, written⟩
      · exact .inl same
      · exact .inr ⟨solution, places, found, by rw [written]⟩

theorem stored_loadSolution {V : Set Variable} {m : Model α}
    (registered : ∀ x, m.Registers x → x ∈ V) (name : ContextName) (d : Input α)
    (layout : Layout) : m.Stored V layout.ids (Outcome.left (loadSolution name d layout m)) := by
  rcases left_loadSolution name d layout m with same | ⟨solution, places, found, written⟩
  · rw [same]
    exact refl_of _ m
  · rw [written]
    refine Outcome.Keeps.forM (fun p hp => stored_writeBlock fun x hx => ?_) m
    obtain ⟨held, inside⟩ := registered_of_resolve found p hp
    rw [hx] at held inside
    exact ⟨registered x held, inside⟩

end Model

/-! ## All requests -/

/-- Whether it may write the value of a variable, or fix or free it: it alters the variable
itself, or lays it out. -/
def Request.Writes (x : Variable) : Request α → Prop
  | alter y a => y = x ∧ a.Writes
  | load _ _ layout => x.id ∈ layout.ids
  | _ => False

namespace Ensemble

variable [Scalar α] {e : Ensemble α} {r : Request α}

/-- An alteration is made, or identities are used up at most. -/
theorem after_alter (e : Ensemble α) (x : Variable) (a : Alteration α) :
    (∃ vars l, a.run x e.model.vars e.model.ledger = .ok vars l ∧
      (e.after (.alter x a)).model = { e.model with vars := vars, ledger := l }) ∨
    ∃ l, e.model.ledger.Before l ∧
      (e.after (.alter x a)).model = { e.model with ledger := l } := by
  rcases Work.left_changeVars (fun vars => a.run x vars) e.model with ⟨vars, l, made, left⟩ | left
  · exact .inl ⟨vars, l, made, left⟩
  · exact .inr ⟨_, a.advances x e.model.vars e.model.ledger, left⟩

/-- Only an alteration or a loading disturbs variables. -/
theorem undisturbed_after (admitted : e.Admits r) :
    e.model.Undisturbed (e.after r).model ∨ (∃ x a, r = .alter x a ∧ a.Writes ∧ x ∈ e.made) ∨
      ∃ name d layout, r = .load name d layout := by
  have given {m : Model α} (left : (e.after r).model = m) (same : e.model.Undisturbed m) :
      e.model.Undisturbed (e.after r).model := by rwa [left]
  cases r with
  | make f => exact .inl (Work.keeps_make admitted e.model)
  | declare spec builders =>
      have left := Outcome.left_discard (spec.declare builders) e.model
      rcases spec.declare_cases builders e.model with
        ⟨f, l, -, next, refused⟩ | ⟨x, kind, extra, l, -, next, hextra, entered⟩
      · have before : e.model.ledger.Before l := (next ▸ Int.lt_succ _).le
        rw [refused] at left
        exact .inl (given left (.of_vars rfl before))
      · have later : e.model.ledger.nextId < l.nextId := next ▸ Int.lt_succ _
        rw [entered] at left
        exact .inl (given left (trans_of Model.Undisturbed (.enter later.le)
          (VariableSpec.undisturbed_settle (VariableSpec.builders_advance admitted hextra x) _)))
  | alter x a =>
      by_cases writes : a.Writes
      · exact .inr (.inl ⟨x, a, rfl, writes, admitted⟩)
      · rcases e.after_alter x a with ⟨vars, l, made, left⟩ | ⟨l, before, left⟩
        · exact .inl (given left (Alteration.undisturbed writes made))
        · exact .inl (given left (.of_vars rfl before))
  | register name n => exact .inl (Model.undisturbed_register name n e.model)
  | clear name => exact .inl (.setContext ..)
  | setCurrent name =>
      have same : e.model.Undisturbed { e.model with current := name } :=
        .of_vars rfl (refl_of Ledger.Before e.model.ledger)
      exact .inl (given (Outcome.left_discard (Model.setCurrent name) e.model) same)
  | load name d layout => exact .inr (.inr ⟨name, d, layout, rfl⟩)
  | compile n cache =>
      obtain ⟨l, before, left⟩ := Work.left_compile n cache e.model
      exact .inl (given left (.of_vars rfl before))

/-- Whatever is asked and whether it is refused, variables are left sound. -/
theorem Sound.after (h : e.Sound) (admitted : e.Admits r) : (e.after r).Sound := by
  have h : Ensemble.Sound ⟨e.model, e.made⟩ := h
  have spend {l : Ledger} (before : e.model.ledger.Before l) :
      Ensemble.Sound ⟨{ e.model with ledger := l }, e.made⟩ :=
    h.undisturbed (.of_vars rfl before) rfl h.registered
  have given {m : Model α} (hm : Ensemble.Sound ⟨m, e.made⟩)
      (left : Outcome.left (r.run e.model) = m) : (e.after r).Sound := by
    cases left
    exact hm.join
  cases r with
  | make f => exact given (spend (admitted e.model.vars e.model.ledger)) (Work.left_make f e.model)
  | declare spec builders =>
      have left := Outcome.left_discard (spec.declare builders) e.model
      rcases spec.declare_cases builders e.model with
        ⟨f, l, -, next, refused⟩ | ⟨x, kind, extra, l, entrant, next, hextra, entered⟩
      · rw [refused] at left
        exact given (spend (next ▸ Int.lt_succ _).le) left
      · have hid : x.id = e.model.ledger.nextId := (VariableSpec.entrant?_some entrant).1
        have later : e.model.ledger.nextId < l.nextId := next ▸ Int.lt_succ _
        rw [entered] at left
        have advance := VariableSpec.builders_advance admitted hextra x
        have same := VariableSpec.undisturbed_settle advance { e.model with
          ledger := l, vars := e.model.vars.push x.id { sign := spec.sign, kind := kind } }
        have enrolled := VariableSpec.enrolled_settle advance { e.model with
          ledger := l, vars := e.model.vars.push x.id { sign := spec.sign, kind := kind } }
        rw [← left] at same enrolled
        refine h.enroll hid (trans_of Model.Undisturbed (.enter later.le) same)
          ((hid.trans_lt later).trans_le same.before) ?_ fun y hy => ?_
        · exact enrolled.ids.trans (Table.ids_push ..)
        · exact (enrolled.registers y hy).imp_left (h.registered y)
  | alter x a =>
      rcases e.after_alter x a with ⟨vars, l, made, left⟩ | ⟨l, before, left⟩
      · obtain ⟨rfl, g, rfl, respects⟩ := (a.change x).ok (h.respects x admitted) made
        exact given (h.change admitted respects (refl_of _ _)) left
      · exact given (spend before) left
  | register name n =>
      refine Ensemble.Sound.join (h.undisturbed (Model.undisturbed_register name n e.model)
        (congrArg Table.ids (Model.vars_left_register name n e.model)) fun y hy => ?_)
      rcases Model.registers_left_register hy with hy | rfl
      · exact h.registered y hy
      · exact admitted
  | clear name =>
      refine Ensemble.Sound.join (h.undisturbed (.setContext e.model name [])
        (congrArg Table.ids (e.model.setContext_vars _ _).1) fun y hy => ?_)
      rcases Model.registers_setContext hy with hy | hy
      · cases hy
      · exact h.registered y hy
  | setCurrent name =>
      have left := Outcome.left_discard (Model.setCurrent (α := α) name) e.model
      have same : e.model.Undisturbed { e.model with current := name } :=
        .of_vars rfl (refl_of _ e.model.ledger)
      exact given (h.undisturbed same rfl h.registered) left
  | load name d layout =>
      exact ((Model.stored_loadSolution h.registered name d layout).sound h).join
  | compile n cache =>
      obtain ⟨l, before, left⟩ := Work.left_compile n cache e.model
      exact given (spend before) left

theorem Sound.course {e' : Ensemble α} (h : e.Sound) (course : e.Course e') : e'.Sound := by
  induction course with
  | refl => exact h
  | tail _ turn ih =>
      obtain ⟨r, admitted, rfl⟩ := turn
      exact ih.after admitted

/-- What is stored stays, or something else takes its place. -/
theorem Sound.retains_after (h : e.Sound) (admitted : e.Admits r) (y : Variable)
    (valued : (e.model.vars.state y).value.isSome = true) :
    ((e.after r).model.vars.state y).value.isSome = true := by
  rcases undisturbed_after admitted with same | ⟨x, a, rfl, -⟩ | ⟨name, d, layout, rfl⟩
  · rw [same.value]
    exact valued
  · rcases e.after_alter x a with ⟨vars, l, made, left⟩ | ⟨l, -, left⟩
    · rw [left]
      exact Alteration.retains made y valued
    · rw [left]
      exact valued
  · exact (Model.stored_loadSolution h.registered name d layout).kept y valued

theorem Sound.retains_course {e' : Ensemble α} (h : e.Sound) (course : e.Course e') (y : Variable)
    (valued : (e.model.vars.state y).value.isSome = true) :
    (e'.model.vars.state y).value.isSome = true := by
  induction course with
  | refl => exact valued
  | tail before turn ih =>
      obtain ⟨r, admitted, rfl⟩ := turn
      exact (h.course before).retains_after admitted y ih

theorem made_after (e : Ensemble α) (r : Request α) : e.made ⊆ (e.after r).made :=
  fun _ => .inl

theorem Course.made {e' : Ensemble α} (course : e.Course e') : e.made ⊆ e'.made := by
  induction course with
  | refl => exact subset_rfl
  | tail _ turn ih =>
      obtain ⟨r, -, rfl⟩ := turn
      exact ih.trans (made_after _ r)

/-- A declaration that comes to its end gives a variable that is among those made. -/
theorem made_of_declare {spec : VariableSpec α} {builders : List (Builder α)} {x : Variable}
    {m : Model α} (h : spec.declare builders e.model = .ok x m) :
    x ∈ (e.after (.declare spec builders)).made := by
  refine .inr ?_
  have left := Outcome.left_discard (spec.declare builders) e.model
  rw [h] at left
  show (Outcome.left (discard (spec.declare builders) e.model)).Registers x
  rw [left]
  exact VariableSpec.registers_of_declare h

/-- Nothing else is written than by altering a variable or by laying it out. -/
theorem Sound.untouched_after (h : e.Sound) (admitted : e.Admits r) {x : Variable}
    (hx : x ∈ e.made) (other : ¬r.Writes x) :
    ((e.after r).model.vars.state x).value = (e.model.vars.state x).value ∧
      ((e.after r).model.vars.state x).fixed = (e.model.vars.state x).fixed := by
  rcases undisturbed_after admitted with
    same | ⟨y, a, rfl, writes, hy⟩ | ⟨name, d, layout, rfl⟩
  · exact ⟨same.value x, same.fixed x⟩
  · have ne : y.id ≠ x.id := fun same => other ⟨h.distinct y hy x hx same, writes⟩
    have state : (e.after (.alter y a)).model.vars.state x = e.model.vars.state x := by
      rcases e.after_alter y a with ⟨vars, l, made, left⟩ | ⟨l, -, left⟩
      · obtain ⟨rfl, g, rfl, -⟩ := (a.change y).ok (h.respects y hy) made
        rw [left]
        exact Vars.state_change_of_ne e.model.vars ne g
      · rw [left]
    rw [state]
    exact ⟨rfl, rfl⟩
  · have state := (Model.stored_loadSolution h.registered name d layout).others x other
    exact ⟨congrArg VarState.value state, congrArg VarState.fixed state⟩

end Ensemble

/-! ## The life of a variable -/

/-- What can be stored: a number in a scalar variable, a matrix in one of its shape. -/
def Value.Fits (x : Variable) : Value α → Prop
  | number _ => x.rows = 1 ∧ x.cols = 1
  | matrix A => A.on Dense.shape = (x.rows, x.cols)

theorem Value.fits_of_shape {x : Variable} {v : Value α} (h : v.shape = (x.rows, x.cols)) :
    v.Fits x := by
  cases v with
  | matrix A => exact h
  | number z =>
      have one : (Value.number z).shape = (1, 1) := by cases z <;> rfl
      obtain ⟨rows, cols⟩ := Prod.mk.inj (one.symm.trans h)
      exact ⟨rows.symm, cols.symm⟩

variable [Scalar α]

/-- Take any run of requests, refused or not, and a variable that was made in it at any time.
From then on it is affine or constant.  It has no value or one that fits it, and once it has
one it always has.  While it is constant it has one.  A refused alteration, in particular a
refused fixing, changes nothing about any variable: fixing it at a value is refused only where
assigning the value is.  Freeing is never refused and only makes it affine.  No request changes
its value or its curvature but those that alter the variable itself, and a loading with the
variable in its layout. -/
theorem variable_life_cycle {e e' : Ensemble α} (past : Ensemble.Course {} e)
    (later : e.Course e') {x : Variable} (hx : x ∈ e.made) :
    ((Expr.var x).curvature e'.model.vars = .affine ∨
      (Expr.var x).curvature e'.model.vars = .constant) ∧
    (∀ v, (e'.model.vars.state x).value = some v → v.Fits x) ∧
    ((e.model.vars.state x).value.isSome = true → (e'.model.vars.state x).value.isSome = true) ∧
    ((Expr.var x).curvature e'.model.vars = .constant →
      (e'.model.vars.state x).value.isSome = true) ∧
    (∀ a f m, (Request.alter x a).run e'.model = .error f m → m.vars = e'.model.vars) ∧
    (∀ d f m, (Request.alter x (.fixAt d)).run e'.model = .error f m →
      (Request.alter x (.assign d)).run e'.model = .error f m) ∧
    (Request.alter x .free).run e'.model
      = .ok () { e'.model with vars := e'.model.vars.free x } ∧
    (e'.model.vars.free x).state x = { e'.model.vars.state x with fixed := false } ∧
    ∀ r, e'.Admits r → ¬r.Writes x →
      ((e'.after r).model.vars.state x).value = (e'.model.vars.state x).value ∧
      (Expr.var x).curvature (e'.after r).model.vars = (Expr.var x).curvature e'.model.vars := by
  have sound := Ensemble.Sound.start.course past
  have sound' := sound.course later
  have hx' : x ∈ e'.made := later.made hx
  have respects := sound'.respects x hx'
  let freed (s : VarState α) : VarState α := { s with fixed := false }
  refine ⟨?_, fun v hv => Value.fits_of_shape (respects.shape v hv),
    sound.retains_course later x, fun constant => ?_, fun a f m refused => ?_,
    fun d f m refused => ?_, rfl,
    Vars.state_change_self (sound'.known x hx') freed, fun r admitted other => ?_⟩
  · cases held : (e'.model.vars.state x).fixed with
    | true => exact .inr (curvature_var_eq_constant_iff.mpr held)
    | false => exact .inl (VarState.curvature_eq_affine_iff.mpr held)
  · exact respects.held (curvature_var_eq_constant_iff.mp constant)
  · rw [Request.run] at refused
    obtain ⟨l, -, rfl⟩ := Work.changeVars_error refused
    rfl
  · rw [Request.run] at refused
    obtain ⟨l, fixing, rfl⟩ := Work.changeVars_error refused
    have assigning : e'.model.vars.assign x d e'.model.ledger = .error f l :=
      Alteration.fixAt_error (sound'.known x hx') fixing
    rw [Request.run, Work.changeVars, Alteration.run, assigning]
  · obtain ⟨value, fixed⟩ := sound'.untouched_after admitted hx' other
    refine ⟨value, ?_⟩
    show VarState.curvature _ = VarState.curvature _
    rw [VarState.curvature, VarState.curvature, fixed]

/-! ### A column that is fixed

A column is declared.  A second declaration is refused by its builder and leaves its variable
registered.  Then fixing the column is refused for want of a value, and fixing it at a value
is not. -/

namespace Column

def x : Variable := ⟨1, 2, 1, .main⟩

/-- A builder that takes an identity and is refused. -/
def refusing : Builder ℚ := fun _ _ => do
  let _ ← Make.freshId
  throw .kronLeft

def declared : Ensemble ℚ := Ensemble.after {} (.declare { shape := .ofInt 2 } [])

def unfixed : Ensemble ℚ :=
  (declared.after (.declare {} [refusing])).after (.alter x .fix)

def fixed : Ensemble ℚ := unfixed.after (.alter x (.fixAt (.list 0 [.ofInt 1, .ofInt 2])))

theorem x_made : x ∈ declared.made :=
  Ensemble.made_of_declare (e := {}) (m := declared.model) (by with_unfolding_all rfl)

theorem past : Ensemble.Course {} declared := by
  refine .single ⟨.declare { shape := .ofInt 2 } [], ?_, rfl⟩
  intro b hb
  cases hb

theorem later : declared.Course fixed := by
  let refused : Ensemble ℚ := declared.after (.declare {} [refusing])
  have x_kept : x ∈ refused.made := Ensemble.made_after declared _ x_made
  have first : declared.Turn refused := by
    refine ⟨.declare {} [refusing], ?_, rfl⟩
    intro b hb y vars
    rw [List.mem_singleton.mp hb]
    exact Make.advances_freshId.bind fun _ => .throw _
  have second : refused.Turn unfixed := ⟨.alter x .fix, x_kept, rfl⟩
  have third : unfixed.Turn fixed :=
    ⟨.alter x (.fixAt (.list 0 [.ofInt 1, .ofInt 2])), Ensemble.made_after refused _ x_kept, rfl⟩
  exact .tail (.tail (.single first) second) third

end Column

/-- After all this the column is held at its value, and the variable of the refused
declaration has none. -/
theorem column_life_cycle :
    Ensemble.Course {} Column.declared ∧ Column.declared.Course Column.fixed ∧
    Column.x ∈ Column.declared.made ∧
    (∃ m, (Request.alter Column.x .fix).run Column.declared.model = .error .fixUnvalued m) ∧
    Column.fixed.model.vars.ids = [1, 2] ∧
    (Column.fixed.model.vars.state Column.x).fixed = true ∧
    (((Expr.var Column.x).curvature Column.fixed.model.vars = .affine ∨
      (Expr.var Column.x).curvature Column.fixed.model.vars = .constant) ∧
    (∀ v, (Column.fixed.model.vars.state Column.x).value = some v → v.Fits Column.x) ∧
    ((Column.declared.model.vars.state Column.x).value.isSome = true →
      (Column.fixed.model.vars.state Column.x).value.isSome = true) ∧
    ((Expr.var Column.x).curvature Column.fixed.model.vars = .constant →
      (Column.fixed.model.vars.state Column.x).value.isSome = true) ∧
    (∀ a f m, (Request.alter Column.x a).run Column.fixed.model = .error f m →
      m.vars = Column.fixed.model.vars) ∧
    (∀ d f m, (Request.alter Column.x (.fixAt d)).run Column.fixed.model = .error f m →
      (Request.alter Column.x (.assign d)).run Column.fixed.model = .error f m) ∧
    (Request.alter Column.x .free).run Column.fixed.model
      = .ok () { Column.fixed.model with vars := Column.fixed.model.vars.free Column.x } ∧
    (Column.fixed.model.vars.free Column.x).state Column.x
      = { Column.fixed.model.vars.state Column.x with fixed := false } ∧
    ∀ r, Column.fixed.Admits r → ¬r.Writes Column.x →
      ((Column.fixed.after r).model.vars.state Column.x).value
        = (Column.fixed.model.vars.state Column.x).value ∧
      (Expr.var Column.x).curvature (Column.fixed.after r).model.vars
        = (Expr.var Column.x).curvature Column.fixed.model.vars) :=
  ⟨Column.past, Column.later, Column.x_made, ⟨_, by with_unfolding_all rfl⟩,
    by with_unfolding_all rfl, by with_unfolding_all rfl,
    variable_life_cycle Column.past Column.later Column.x_made⟩

end ConicModel
