/-
# Identities

Compilation remembers what it has compiled by identities, and registries find variables by
them.  Both are right only as long as no two things have one identity, and identities are taken
in many places: by every constructor, at its beginning or in its middle, by the constants that
operands become, by the one that is spread over a shape, and by compilation.  Any of these
may be refused after that.

`Annals` are a session's model with all births in it and the caches that were ever filled.  A
`Deed` is what can be asked of the session, told so far that it is known what will be born.
What a deed may speak of are nodes that were born, whether they are still in use or not
(`Annals.Permits`).  Every deed leaves annals sound, refused or not (`Annals.Sound.after`), and
sound annals have the births in the order of their identities, one for each identity that was
taken.
-/
import ConicModel.Proofs.Session.Births

namespace ConicModel

variable {α : Type}

/-! ## Deeds -/

/-- What can be asked of a session. -/
inductive Deed (α : Type) where
  /-- To look at something, or to do anything else that takes no identity. -/
  | look (f : Vars α → Make α Unit)
  | make (g : Making α)
  | declare (spec : VariableSpec α) (drafts : List (Draft α))
  | alter (x : Variable) (a : Alteration α)
  | register (name : ContextName) (n : Node α)
  | clear (name : ContextName)
  | setCurrent (name : ContextName)
  | load (name : ContextName) (d : Input α) (layout : Layout)
  | compile (n : Node α) (cache : Cache (Objective α) (Record α))
  /-- To enter something for an expression by hand. -/
  | putExpr (e : Expr α) (o : Objective α) (cache : Cache (Objective α) (Record α))
  /-- To enter something for a constraint by hand. -/
  | putConstraint (c : Constraint α) (r : Record α) (cache : Cache (Objective α) (Record α))

namespace Deed

variable [Scalar α]

/-- The request that it is to the session. -/
def request : Deed α → Request α
  | look f => .make f
  | make g => .make fun vars => discard (g.run vars)
  | declare spec drafts => .declare spec (drafts.map Draft.builder)
  | alter x a => .alter x a
  | register name n => .register name n
  | clear name => .clear name
  | setCurrent name => .setCurrent name
  | load name d layout => .load name d layout
  | compile n cache => .compile n cache
  | putExpr .. | putConstraint .. => .make fun _ => pure ()

/-- What is born, also if it is refused. -/
def births : Deed α → Model α → List (Birth α)
  | make g => fun m => g.births m.vars m.ledger
  | declare spec drafts => declareBirths spec drafts
  | compile n cache => fun m => compileBirths m.vars n ⟨m.ledger, cache⟩
  | _ => noBirths

/-- The cache that it leaves, if it fills one. -/
def filled? : Deed α → Model α → Option (Cache (Objective α) (Record α))
  | compile n cache, m => some (Outcome.left (compileNode m.vars n ⟨m.ledger, cache⟩)).cache
  | putExpr e o cache, _ =>
    match (cache.putExpr e.id o : Except (Fault α) _) with
    | .ok c => some c
    | .error _ => none
  | putConstraint k r cache, _ =>
    match (cache.putConstraint k.id r : Except (Fault α) _) with
    | .ok c => some c
    | .error _ => none
  | _, _ => none

end Deed

/-! ## Annals -/

/-- A session's model, all births in it, and the caches that were ever filled. -/
structure Annals (α : Type) where
  model : Model α := {}
  births : List (Birth α) := []
  caches : Set (Cache (Objective α) (Record α)) := {{}}

namespace Annals

/-- All nodes that were ever born. -/
def nodes (a : Annals α) : Set (Node α) := born ∅ a.births

/-- What a deed speaks of was born, and it works on a cache that is there. -/
def Permits (a : Annals α) : Deed α → Prop
  | .look f => ∀ vars, (f vars).Still
  | .make g => g.Offered a.nodes
  | .declare _ drafts => ∀ s ∈ drafts, s.Offered a.nodes
  | .alter x c => .expr (.var x) ∈ a.nodes ∧
    ∀ items, c = .attached items → ∀ n, .node n ∈ items → n ∈ a.nodes
  | .register _ n => n ∈ a.nodes
  | .compile n cache => n ∈ a.nodes ∧ cache ∈ a.caches
  | .putExpr e _ cache => .expr e ∈ a.nodes ∧ cache ∈ a.caches
  | .putConstraint c _ cache => .constraint c ∈ a.nodes ∧ cache ∈ a.caches
  | .clear _ | .setCurrent _ | .load .. => True

variable [Scalar α]

/-- What a deed leaves, refused or not. -/
def after (a : Annals α) (d : Deed α) : Annals α where
  model := Outcome.left (d.request.run a.model)
  births := a.births ++ d.births a.model
  caches := {c | c ∈ a.caches ∨ d.filled? a.model = some c}

/-- A deed and what it leaves. -/
def Turn (a a' : Annals α) : Prop := ∃ d, a.Permits d ∧ a' = a.after d

/-- Any number of deeds. -/
abbrev Course : Annals α → Annals α → Prop := Relation.ReflTransGen Turn

theorem nodes_after (a : Annals α) (d : Deed α) :
    (a.after d).nodes = born a.nodes (d.births a.model) := born_append _ _ _

/-! ## Sound annals -/

omit [Scalar α] in
/-- The births are recorded from the first identity to the next one, the model goes with the
nodes, and whatever was entered in a cache was entered for one of them. -/
structure Sound (a : Annals α) : Prop where
  recorded : Recorded 1 a.births a.model.ledger.nextId
  world : World.Sound ⟨a.model, a.nodes⟩
  keyed : ∀ c ∈ a.caches, c.Keyed a.nodes

namespace Sound

variable {a : Annals α} {d : Deed α}

omit [Scalar α] in
theorem start : Sound ({} : Annals α) where
  recorded := .nil rfl
  world := by
    rw [nodes, born_nil]
    exact World.Sound.start
  keyed c hc := by
    rw [Set.mem_singleton_iff.mp hc]
    exact .empty _

/-- What a deed makes is recorded, and the session fits it. -/
theorem deed (h : a.Sound) (permitted : a.Permits d) :
    Recorded a.model.ledger.nextId (d.births a.model) (a.after d).model.ledger.nextId ∧
      World.Sound ⟨(a.after d).model, born a.nodes (d.births a.model)⟩ := by
  have accounted
      (acc : session.Accounts a.nodes d.request.run d.births fun _ => ∅) :
      Recorded a.model.ledger.nextId (d.births a.model) (a.after d).model.ledger.nextId ∧
        World.Sound ⟨(a.after d).model, born a.nodes (d.births a.model)⟩ := by
    obtain ⟨told, fits, -⟩ := acc a.nodes a.model subset_rfl h.world
    exact ⟨told.recorded, fits⟩
  cases d with
  | look f =>
      exact accounted (accounts_workMake fun vars =>
        (permitted vars).accounts fun _ => Set.empty_subset _)
  | make g => exact accounted (accounts_workMake fun vars => (g.accounts vars permitted).discard)
  | declare spec drafts =>
      obtain ⟨recorded, fits, -⟩ := recorded_declare h.world spec permitted
      have left := Outcome.left_discard (spec.declare (drafts.map Draft.builder)) a.model
      rw [← left] at recorded fits
      exact ⟨recorded, fits⟩
  | alter x c => exact accounted (quiet_alter permitted.1 c permitted.2)
  | register name n => exact accounted (quiet_register name permitted)
  | clear name => exact accounted (quiet_clear name)
  | setCurrent name => exact accounted (quiet_setCurrent name).discard
  | load name x layout => exact accounted (quiet_loadSolution name x layout)
  | compile n cache => exact accounted (accounts_workCompile permitted.1 (h.keyed _ permitted.2))
  | putExpr e o cache | putConstraint c r cache =>
      exact accounted (accounts_workMake fun _ =>
        Make.Still.accounts (Outcome.Keeps.pure ()) fun _ => Set.empty_subset _)

/-- What fills a cache fills it for nodes that are there then. -/
theorem filled (h : a.Sound) (permitted : a.Permits d) {c : Cache (Objective α) (Record α)}
    (hc : d.filled? a.model = some c) : c.Keyed (a.after d).nodes := by
  rw [nodes_after]
  cases d with
  | compile n cache =>
      cases hc
      exact keyed_compile h.world permitted.1 (h.keyed _ permitted.2)
  | putExpr e o cache =>
      rw [Deed.filled?] at hc
      split at hc
      · rename_i put
        cases hc
        exact ((h.keyed _ permitted.2).putExpr permitted.1 put).mono (subset_born _ _)
      · cases hc
  | putConstraint k r cache =>
      rw [Deed.filled?] at hc
      split at hc
      · rename_i put
        cases hc
        exact ((h.keyed _ permitted.2).putConstraint permitted.1 put).mono (subset_born _ _)
      · cases hc
  | look f | make g | declare spec drafts | alter x b | register name n | clear name
  | setCurrent name | load name x layout => cases hc

theorem after (h : a.Sound) (permitted : a.Permits d) : (a.after d).Sound := by
  obtain ⟨recorded, fits⟩ := h.deed permitted
  refine ⟨h.recorded.append recorded, ?_, fun c hc => ?_⟩
  · rw [nodes_after]
    exact fits
  · rcases hc with hc | hc
    · exact (h.keyed c hc).mono (nodes_after a d ▸ subset_born _ _)
    · exact h.filled permitted hc

theorem course {a' : Annals α} (h : a.Sound) (course : a.Course a') : a'.Sound := by
  induction course with
  | refl => exact h
  | tail _ turn ih =>
      obtain ⟨d, permitted, rfl⟩ := turn
      exact ih.after permitted

omit [Scalar α] in
/-- Whatever was born is the only thing with its identity. -/
theorem unique (h : a.Sound) {m n : Node α} (hm : m ∈ a.nodes) (hn : n ∈ a.nodes)
    (same : m.id = n.id) : m = n :=
  h.world.coherent.roster.unique m hm n hn same

end Sound

/-- Later births come after earlier ones, and no identity is given back. -/
theorem Course.births {a a' : Annals α} (h : a.Sound) (course : a.Course a') :
    ∃ bs, a'.births = a.births ++ bs ∧
      Consecutive a.model.ledger.nextId bs a'.model.ledger.nextId := by
  induction course with
  | refl => exact ⟨[], (List.append_nil _).symm, rfl⟩
  | @tail b c before turn ih =>
      obtain ⟨d, permitted, rfl⟩ := turn
      obtain ⟨bs, births, consecutive⟩ := ih
      obtain ⟨recorded, -⟩ := (h.course before).deed permitted
      refine ⟨bs ++ d.births b.model, ?_, consecutive.append recorded.consecutive⟩
      rw [← List.append_assoc, ← births]
      rfl

/-! ## Identities at any time -/

/-- What holds of identities at any time. -/
structure Identified (a : Annals α) : Prop where
  /-- Identities were handed out in order, each to one thing. -/
  increasing : a.births.Pairwise fun b c => b.id < c.id
  /-- The identities that were handed out are those from one on and below the next one. -/
  taken : ∀ i, (∃ b ∈ a.births, b.id = i) ↔ 1 ≤ i ∧ i < a.model.ledger.nextId
  not_constant : ∀ b ∈ a.births, b.id ≠ constantKey
  own : ∀ b ∈ a.births, ∀ n, b.node = some n → n.id = b.id
  unique : ∀ m ∈ a.nodes, ∀ n ∈ a.nodes, m.id = n.id → m = n
  /-- Whatever a node is made of was born. -/
  closed : ∀ n ∈ a.nodes, ∀ m ∈ n.children, m ∈ a.nodes
  product : ∀ i x y, .expr (.kron i x y) ∈ a.nodes → x.id < i ∧ y.id < i
  /-- An entry for an expression is that of one node. -/
  exprs : ∀ c ∈ a.caches, ∀ i ∈ c.exprs.ids, ∃ e, .expr e ∈ a.nodes ∧ e.id = i ∧
    ∀ n ∈ a.nodes, n.id = i → n = .expr e
  constraints : ∀ c ∈ a.caches, ∀ i ∈ c.constraints.ids, ∃ k, .constraint k ∈ a.nodes ∧ k.id = i ∧
    ∀ n ∈ a.nodes, n.id = i → n = .constraint k
  registered : ∀ name, ∀ n ∈ a.model.context name, n ∈ a.nodes ∧
    ∀ m ∈ a.nodes, m.id = n.id → m = n
  /-- What is made is born, and nothing on the way to it was refused. -/
  made : ∀ g ns l, a.Permits (.make g) → g.run a.model.vars a.model.ledger = .ok ns l →
    AllBorn (g.births a.model.vars a.model.ledger) ∧ ∀ n ∈ ns, n ∈ (a.after (.make g)).nodes
  declared : ∀ spec drafts x m, a.Permits (.declare spec drafts) →
    spec.declare (drafts.map Draft.builder) a.model = .ok x m →
      AllBorn (declareBirths spec drafts a.model) ∧ x.id = a.model.ledger.nextId ∧
      .expr (.var x) ∈ (a.after (.declare spec drafts)).nodes ∧
      ∀ n, .node n ∈ (m.vars.state x).attached → n ∈ (a.after (.declare spec drafts)).nodes
  compiled : ∀ n cache x q, a.Permits (.compile n cache) →
    compileNode a.model.vars n ⟨a.model.ledger, cache⟩ = .ok x q →
      AllBorn (compileBirths a.model.vars n ⟨a.model.ledger, cache⟩)

theorem Sound.identified {a : Annals α} (h : a.Sound) : a.Identified where
  increasing := h.recorded.consecutive.pairwise
  taken i := by
    constructor
    · rintro ⟨b, hb, rfl⟩
      exact h.recorded.consecutive.bounds hb
    · exact fun ⟨from_one, below⟩ => h.recorded.consecutive.exists_birth from_one below
  not_constant b hb := (zero_lt_one.trans_le (h.recorded.consecutive.bounds hb).1).ne'
  own := h.recorded.id
  unique m hm n hn := h.unique hm hn
  closed := h.world.coherent.roster.closed
  product i x y hk := by
    obtain ⟨b, hb, hk⟩ := hk.resolve_left (Set.notMem_empty _)
    exact h.recorded.later b hb i x y hk
  exprs c hc i hi := by
    obtain ⟨e, he, rfl⟩ := (h.keyed c hc).exprs i hi
    exact ⟨e, he, rfl, fun n hn same => h.unique hn he same⟩
  constraints c hc i hi := by
    obtain ⟨k, hk, rfl⟩ := (h.keyed c hc).constraints i hi
    exact ⟨k, hk, rfl, fun n hn same => h.unique hn hk same⟩
  registered name n hn := by
    obtain ⟨c, hc, held⟩ := Model.exists_of_mem_context hn
    have there := h.world.registered c hc n held
    exact ⟨there, fun m hm same => h.unique hm there same⟩
  made g ns l permitted run := by
    obtain ⟨-, -, given⟩ := g.accounts a.model.vars permitted a.nodes a.model.ledger subset_rfl
      ⟨h.world.coherent.roster, h.world.coherent.pos⟩
    obtain ⟨all, there⟩ := given ns l run
    exact ⟨all, fun n hn => nodes_after a _ ▸ there hn⟩
  declared spec drafts x m permitted run := by
    obtain ⟨-, -, given⟩ := recorded_declare h.world spec permitted
    obtain ⟨all, birth⟩ := given x m run
    have there : .expr (.var x) ∈ (a.after (.declare spec drafts)).nodes :=
      .inr ⟨_, List.mem_append_right _ birth, rfl⟩
    have left : (a.after (.declare spec drafts)).model = m := by
      have left := Outcome.left_discard (spec.declare (drafts.map Draft.builder)) a.model
      rw [run] at left
      exact left
    have after := h.after permitted
    refine ⟨all, after.recorded.id _ (List.mem_append_right _ birth) _ rfl, there, ?_⟩
    have respects := after.world.coherent.respects x there
    rw [World.vars, left] at respects
    exact respects.attached
  compiled n cache x q permitted run := by
    obtain ⟨-, -, given⟩ := accounts_compileNode a.model.vars permitted.1 a.nodes
      ⟨a.model.ledger, cache⟩ subset_rfl ⟨h.world.coherent, h.keyed _ permitted.2⟩
    exact (given x q run).1

end Annals

/-- Take any deeds in a session, refused or not: constructions, with all constants that they make
on the way, operators, declarations with builders, and compilations into caches that were filled
before, among whatever else.  The identities of all that was ever born are told by the list of
births: they are handed out in strictly increasing order, from one on and without a gap below the
next one, so none of them is the constant key, and what comes later never gets one of them again.
No two nodes have the same one, refused and dropped ones included; a product has a larger one than
both of its operands; and whatever stands in a cache or a registry stands there for one node that
was born. -/
theorem identities_of_course [Scalar α] {a a' : Annals α} (past : Annals.Course {} a)
    (later : a.Course a') : a'.Identified ∧
      ∃ bs, a'.births = a.births ++ bs ∧ ∀ b ∈ bs, a.model.ledger.nextId ≤ b.id := by
  have sound := Annals.Sound.start.course past
  obtain ⟨bs, births, consecutive⟩ := later.births sound
  exact ⟨(sound.course later).identified, bs, births, fun b hb => (consecutive.bounds hb).1⟩

/-! ### Eleven births

A positive variable of two rows is declared with the bound `x ≥ 1`, so a constraint, the one, and
the one spread over two rows are born after it.  The product of the variable with a three is
refused once the three is a constant, and with it an identity is lost.  The product with the
operands the other way is made, and is compiled; the sign is made a constraint then, between the
variable and a zero that is spread. -/

namespace Eleven

def x : Variable := ⟨1, 2, 1, .main⟩

def triple : Expr ℚ := .kron 8 (.const ⟨7, .real (.replicate 1 1 3), .positive⟩) (.var x)

/-- The draft of `x ≥ 1`. -/
def bounded : Draft ℚ := fun x _ =>
  .only (.comparison .ge (.thing 0 (.expr (.var x))) (.ofInt 1))

def declaring : Deed ℚ := .declare { shape := .ofInt 2, sign := .positive } [bounded]

def refusing : Deed ℚ := .make (.kron (.thing 0 (.expr (.var x))) (.ofInt 3))

def tripling : Deed ℚ := .make (.kron (.ofInt 3) (.thing 0 (.expr (.var x))))

def declared : Annals ℚ := Annals.after {} declaring

def tripled : Annals ℚ := (declared.after refusing).after tripling

def compiled : Annals ℚ := tripled.after (.compile (.expr triple) {})

theorem x_born : .expr (.var x) ∈ declared.nodes := by
  have first : declared.births[0]? = some ⟨1, some (.expr (.var x))⟩ := by with_unfolding_all rfl
  exact .inr ⟨_, List.mem_of_getElem? first, rfl⟩

theorem triple_born : .expr triple ∈ tripled.nodes := by
  have last : tripled.births[7]? = some ⟨8, some (.expr triple)⟩ := by with_unfolding_all rfl
  exact .inr ⟨_, List.mem_of_getElem? last, rfl⟩

theorem course_tripled : Annals.Course {} tripled := by
  have declares : Annals.Permits {} declaring := by
    intro s hs
    rw [List.mem_singleton.mp hs]
    exact fun y vars => Script.offered_only
      ⟨.inl ⟨0, _, rfl⟩, Roster.offers_expr (.inr (.inl rfl)), Roster.offers_int _ 1⟩
  have refuses : declared.Permits refusing :=
    ⟨Roster.offers_expr x_born, Roster.offers_int _ 3⟩
  have still_born : .expr (.var x) ∈ (declared.after refusing).nodes :=
    Annals.nodes_after declared refusing ▸ subset_born _ _ x_born
  have triples : (declared.after refusing).Permits tripling :=
    ⟨Roster.offers_int _ 3, Roster.offers_expr still_born⟩
  exact .tail (.tail (.single ⟨_, declares, rfl⟩) ⟨_, refuses, rfl⟩) ⟨_, triples, rfl⟩

theorem course_compiled : tripled.Course compiled := by
  have compiles : tripled.Permits (.compile (.expr triple) {}) :=
    ⟨triple_born, .inl (.inl (.inl rfl))⟩
  exact .single ⟨_, compiles, rfl⟩

end Eleven

/-- Only the identity of the refused product was given to nothing, and the entries are those of
the variable, the spread zero, the spread one and the product. -/
theorem eleven_identities_of_course : ∃ a a' : Annals ℚ, Annals.Course {} a ∧ a.Course a' ∧
    a.births.map (fun b => (b.id, b.node.isSome)) = [(1, true), (2, true), (3, true), (4, true),
      (5, true), (6, false), (7, true), (8, true)] ∧
    a'.births.map (fun b => b.id) = [1, 2, 3, 4, 5, 6, 7, 8, 9, 10, 11] ∧
    (∃ c ∈ a'.caches, c.exprs.ids = [1, 11, 4, 8] ∧ c.constraints.ids = [9, 2]) ∧
    a'.Identified ∧ ∃ bs, a'.births = a.births ++ bs ∧ ∀ b ∈ bs, a.model.ledger.nextId ≤ b.id :=
  ⟨Eleven.tripled, Eleven.compiled, Eleven.course_tripled, Eleven.course_compiled,
    by with_unfolding_all rfl, by with_unfolding_all rfl,
    ⟨_, .inr rfl, by with_unfolding_all rfl, by with_unfolding_all rfl⟩,
    identities_of_course Eleven.course_tripled Eleven.course_compiled⟩

end ConicModel
