/-
# Births in a session

What is born while a session works, by the same accounts as before.  The stage is the session's
model now: a model fits the nodes that are there if its variables go with them and its
registries hold none but them (`World.Sound`).

A declaration is the one thing that makes a variable.  It takes an identity first, and its
variable is there before the builders run, so the births of what they make come after its own
(`declareBirths`).  Builders are of the reader's making; a builder is accounted for if it goes
by a draft (`accounts_attach`).  Everything else that can be asked of a session makes nothing,
except that compilation makes the constraints of signs.
-/
import ConicModel.Proofs.Session.Lifecycle
import ConicModel.Proofs.Compile.Births

namespace ConicModel

variable {α β : Type}

/-- A session whose registries and variables go with the nodes that are there. -/
def session : Stage α (Model α) where
  next m := m.ledger.nextId
  Fits N m := World.Sound ⟨m, N⟩

namespace World.Sound

variable {m : Model α} {N : Set (Node α)}

/-- Things were made, and no variable. -/
theorem told (h : World.Sound ⟨m, N⟩) {l : Ledger} {bs : List (Birth α)}
    (told : Told N m.ledger.nextId bs l.nextId) :
    World.Sound ⟨{ m with ledger := l }, born N bs⟩ where
  coherent := told.coherent h.coherent
  registered c hc n hn := subset_born _ _ (h.registered c hc n hn)

/-- No identity was taken. -/
theorem level (h : World.Sound ⟨m, N⟩) {l : Ledger} (level : m.ledger.Level l) :
    World.Sound ⟨{ m with ledger := l }, N⟩ := by
  have nothing : Told N m.ledger.nextId [] l.nextId := by
    rw [level]
    exact .nil N _
  simpa only [born_nil] using h.told nothing

end World.Sound

section

variable {R : Set (Node α)}

theorem accounts_workMake {f : Vars α → Make α β} {bs : Vars α → Ledger → List (Birth α)}
    {gives : β → Set (Node α)} (h : ∀ vars, making.Accounts R (f vars) (bs vars) gives) :
    session.Accounts R (Work.make f) (fun m => bs m.vars m.ledger) gives := by
  intro N m sub fits
  obtain ⟨told, -, given⟩ :=
    h m.vars N m.ledger sub ⟨fits.coherent.roster, fits.coherent.pos⟩
  rw [Work.left_make]
  refine ⟨told, fits.told told, fun x m' made => ?_⟩
  obtain ⟨l, made, -⟩ := Work.make_ok made
  exact given x l made

/-! ## Registries -/

theorem quiet_setContext {N : Set (Node α)} {m : Model α} (fits : World.Sound ⟨m, N⟩)
    (name : ContextName) {xs : List (Node α)} (there : ∀ n ∈ xs, n ∈ N) :
    (m.setContext name xs).ledger.nextId = m.ledger.nextId ∧
      World.Sound ⟨m.setContext name xs, N⟩ :=
  ⟨congrArg Ledger.nextId (m.setContext_vars name xs).2, fits.setContext name there⟩

theorem quiet_register (name : ContextName) {n : Node α} (hn : n ∈ R) :
    session.Accounts R (Model.register name n) noBirths fun _ => ∅ := by
  refine .quiet (fun N m sub fits => ?_) fun _ => Set.empty_subset R
  have fits : World.Sound ⟨m, N⟩ := fits
  rcases Model.left_register name n m with same | added
  · rw [same]
    exact ⟨rfl, fits⟩
  · rw [added]
    refine quiet_setContext fits name fun k hk => ?_
    rcases List.mem_append.mp hk with hk | hk
    · obtain ⟨c, hc, held⟩ := Model.exists_of_mem_context hk
      exact fits.registered c hc k held
    · rw [List.mem_singleton.mp hk]
      exact sub hn

theorem quiet_clear (name : ContextName) :
    session.Accounts R (Model.clear name : Work α Unit) noBirths fun _ => ∅ :=
  .quiet (fun _ _ _ fits => quiet_setContext fits name fun _ hn => by cases hn)
    fun _ => Set.empty_subset R

theorem quiet_setCurrent (name : ContextName) :
    session.Accounts R (Model.setCurrent name : Work α ContextName) noBirths fun _ => ∅ :=
  .quiet (fun _ _ _ fits => ⟨rfl, fits.coherent, fits.registered⟩) fun _ => Set.empty_subset R

end

variable [Scalar α] {R : Set (Node α)}

/-! ## Variables -/

theorem quiet_alter {x : Variable} (hx : .expr (.var x) ∈ R) (a : Alteration α)
    (there : ∀ items, a = .attached items → ∀ n, .node n ∈ items → n ∈ R) :
    session.Accounts R (Work.changeVars fun vars => a.run x vars) noBirths fun _ => ∅ := by
  refine .quiet (fun N m sub fits => ?_) fun _ => Set.empty_subset R
  have fits : World.Sound ⟨m, N⟩ := fits
  rcases Work.left_changeVars (fun vars => a.run x vars) m with ⟨vars, l, made, left⟩ | left
  · have change := a.change_of_attached x fun items same n hn => sub (there items same n hn)
    obtain ⟨rfl, g, rfl, respects⟩ := change.ok (fits.coherent.respects x (sub hx)) made
    rw [left]
    exact ⟨rfl, fits.changeState (sub hx) respects⟩
  · have level := a.still x m.vars m.ledger
    rw [left]
    exact ⟨level, fits.level level⟩

theorem quiet_writeBlock (solution : Flat α) {p : Expr α × Slot} (hp : .expr p.1 ∈ R) :
    session.Accounts R (Model.writeBlock solution p) noBirths fun _ => ∅ := by
  refine .quiet (fun N m sub fits => ?_) fun _ => Set.empty_subset R
  have fits : World.Sound ⟨m, N⟩ := fits
  cases h : Model.writeBlock solution p m with
  | error f m' =>
      obtain ⟨l, hl, rfl⟩ := Work.changeVars_error h
      have level := (Model.still_writing solution p m.vars).error hl
      exact ⟨level, fits.level level⟩
  | ok u m' =>
      obtain ⟨x, block, d, hx, -, -, assigned⟩ := Model.writeBlock_ok h
      obtain ⟨vars, l, changed, rfl⟩ := Work.changeVars_ok assigned
      obtain ⟨v, -, rfl, -⟩ := Vars.assign_ok changed
      exact ⟨rfl, fits.change (hx ▸ sub hp) (.assign d) assigned⟩

/-- What a layout places is there, because it is registered. -/
theorem quiet_loadSolution (name : ContextName) (d : Input α) (layout : Layout) :
    session.Accounts R (Model.loadSolution name d layout) noBirths fun _ => ∅ := by
  refine .quiet (fun N m sub fits => ?_) fun _ => Set.empty_subset R
  have fits : World.Sound ⟨m, N⟩ := fits
  rcases Model.left_loadSolution name d layout m with same | ⟨solution, places, found, written⟩
  · rw [same]
    exact ⟨rfl, fits⟩
  · rw [written]
    obtain ⟨told, fits', -⟩ := Stage.Accounts.quiet_forM
      (fun p hp => quiet_writeBlock solution (fits.mem_of_resolve found p hp)) N m subset_rfl fits
    rw [born_nil] at fits'
    exact ⟨told.consecutive.symm, fits'⟩

/-! ## Declarations -/

/-- What is born while something is attached by a draft. -/
def attachBirths (x : Variable) (s : Draft α) (m : Model α) : List (Birth α) :=
  (s x m.vars).births m.vars m.ledger

theorem accounts_attach {x : Variable} (hx : .expr (.var x) ∈ R) {s : Draft α}
    {R' : Set (Node α)} (sub' : R' ⊆ R) (offered : s.Offered R') :
    session.Accounts R (VariableSpec.attach x s.builder) (attachBirths x s) fun _ => ∅ := by
  intro N m sub fits
  have fits : World.Sound ⟨m, N⟩ := fits
  have old := fits.coherent.respects x (sub hx)
  have there : {n | n ∈ R' ∨ n = .expr (.var x) ∨ .node n ∈ (m.vars.state x).attached} ⊆ N := by
    rintro n (hn | rfl | hn)
    · exact sub (sub' hn)
    · exact sub hx
    · exact old.attached n hn
  obtain ⟨told, -, given⟩ := Script.accounts m.vars (offered x m.vars) N m.ledger there
    ⟨fits.coherent.roster, fits.coherent.pos⟩
  have made := fits.told told
  cases run : (s x m.vars).run m.vars m.ledger with
  | error f l =>
      have refused : VariableSpec.attach x s.builder m = .error f { m with ledger := l } := by
        rw [VariableSpec.attach, Work.changeVars, Draft.builder, Outcome.bind_of_error run]
      rw [run] at told made
      rw [refused]
      exact ⟨told, made, fun u m' h => by cases h⟩
  | ok item l =>
      obtain ⟨all, given⟩ := given item l run
      have attached : VariableSpec.attach x s.builder m = .ok () { m with
          ledger := l
          vars := m.vars.change x fun s => { s with attached := s.attached ++ [item] } } := by
        rw [VariableSpec.attach, Work.changeVars, Draft.builder, Outcome.bind_of_ok run]
        rfl
      rw [run] at told made
      rw [attached]
      refine ⟨told, ?_, fun u m' _ => ⟨all, Set.empty_subset _⟩⟩
      refine made.changeState (subset_born _ _ (sub hx))
        (g := fun s => { s with attached := s.attached ++ [item] })
        ⟨fun n hn => ?_, old.shape, old.held⟩
      rcases List.mem_append.mp hn with hn | hn
      · exact subset_born _ _ (old.attached n hn)
      · exact given (List.mem_singleton.mp hn).symm

/-- What is born after a variable was entered. -/
def settleBirths (x : Variable) (drafts : List (Draft α)) (m : Model α) : List (Birth α) :=
  Outcome.onward (Model.register x.home (.expr (.var x)) m) fun _ =>
    Outcome.eachOnward (fun s : Draft α => VariableSpec.attach x s.builder) (attachBirths x) drafts

theorem accounts_settle {x : Variable} (hx : .expr (.var x) ∈ R) {drafts : List (Draft α)}
    {R' : Set (Node α)} (sub' : R' ⊆ R) (offered : ∀ s ∈ drafts, s.Offered R') :
    session.Accounts R (VariableSpec.settle x (drafts.map Draft.builder)) (settleBirths x drafts)
      fun _ => ∅ := by
  have each : (drafts.map Draft.builder).forM (VariableSpec.attach x)
      = drafts.forM fun s => VariableSpec.attach x s.builder := List.forM_map
  rw [VariableSpec.settle, each]
  refine (quiet_register x.home hx).quiet_bind fun _ => ?_
  refine Stage.Accounts.bind_quiet (.forM fun s hs => ?_) fun _ => .pure (Set.empty_subset _)
  exact accounts_attach (.inl hx) (sub'.trans Set.subset_union_left) (offered s hs)

/-- The drafts of what sets attach. -/
def VariableSpec.broughtDrafts (spec : VariableSpec α) : List (Draft α) :=
  if (spec.sets.getD []).contains "Semidefinite" then [.semidefinite] else []

theorem VariableSpec.map_broughtDrafts (spec : VariableSpec α) :
    spec.broughtDrafts.map Draft.builder = spec.brought := by
  unfold broughtDrafts brought
  split
  · rw [List.map_singleton, Draft.builder_semidefinite]
  · rfl

omit [Scalar α] in
theorem VariableSpec.offered_broughtDrafts (spec : VariableSpec α) (N : Set (Node α)) :
    ∀ s ∈ spec.broughtDrafts, s.Offered N := by
  intro s hs
  unfold broughtDrafts at hs
  split at hs
  · rw [List.mem_singleton.mp hs]
    exact Draft.offered_semidefinite N
  · cases hs

/-- What is born in a declaration: its variable, if the arguments pass their checks, and then
what the drafts make. -/
def declareBirths (spec : VariableSpec α) (drafts : List (Draft α)) (m : Model α) :
    List (Birth α) :=
  ⟨m.ledger.nextId, (Outcome.made? (spec.enter m)).map fun x => .expr (.var x)⟩ ::
    Outcome.onward (spec.enter m) fun x => settleBirths x (drafts ++ spec.broughtDrafts)

/-- What a declaration makes is recorded, refused or not, and the session fits it. -/
theorem recorded_declare {N : Set (Node α)} {m : Model α} (fits : World.Sound ⟨m, N⟩)
    (spec : VariableSpec α) {drafts : List (Draft α)} (offered : ∀ s ∈ drafts, s.Offered N) :
    Recorded m.ledger.nextId (declareBirths spec drafts m)
        (Outcome.left (spec.declare (drafts.map Draft.builder) m)).ledger.nextId ∧
      World.Sound ⟨Outcome.left (spec.declare (drafts.map Draft.builder) m),
        born N (declareBirths spec drafts m)⟩ ∧
      ∀ x m', spec.declare (drafts.map Draft.builder) m = .ok x m' →
        AllBorn (declareBirths spec drafts m) ∧
          ⟨m.ledger.nextId, some (.expr (.var x))⟩ ∈ declareBirths spec drafts m := by
  rw [VariableSpec.declare_eq, ← spec.map_broughtDrafts, ← List.map_append]
  rcases spec.enter_cases m with
    ⟨f, l, -, next, refused⟩ | ⟨x, kind, l, entrant, next, entered⟩
  · rw [declareBirths, Outcome.bind_of_error refused, refused]
    have later : m.ledger.nextId ≤ l.nextId := next ▸ (Int.lt_succ _).le
    refine ⟨.cons (.nil next.symm) fun x hx => (by cases hx), ?_, fun x m' h => (by cases h)⟩
    rw [Outcome.made?, Option.map_none, Outcome.onward, born_cons_none, born_nil]
    exact ⟨fits.coherent.mono later, fits.registered⟩
  · have hid : x.id = m.ledger.nextId := (VariableSpec.entrant?_some entrant).1
    have fits₁ := fits.enter hid next spec.sign kind
    have all_offered : ∀ s ∈ drafts ++ spec.broughtDrafts, s.Offered N := fun s hs =>
      (List.mem_append.mp hs).elim (offered s) (spec.offered_broughtDrafts N s)
    obtain ⟨told, fits', given⟩ := accounts_settle (Set.mem_insert _ N) (Set.subset_insert _ N)
      all_offered _ _ subset_rfl fits₁
    have told : Told (insert (.expr (.var x)) N) l.nextId _ _ := told
    rw [next] at told
    rw [declareBirths, Outcome.bind_of_ok entered, entered]
    refine ⟨told.recorded.cons fun y hy => ?_, ?_, fun y m' run => ?_⟩
    · cases hy
      exact hid
    · rw [Outcome.made?, Option.map_some, born_cons]
      exact fits'
    · obtain ⟨all, -⟩ := given y m' run
      obtain ⟨⟨⟩, m₂, -, rest⟩ := Outcome.bind_ok.mp run
      obtain ⟨⟨⟩, m₃, -, done⟩ := Outcome.bind_ok.mp rest
      obtain ⟨rfl, -⟩ := Outcome.pure_ok.mp done
      exact ⟨all.cons _ _, List.mem_cons_self⟩

/-! ## Compilations -/

theorem accounts_workCompile {n : Node α} (hn : n ∈ R) {cache : Cache (Objective α) (Record α)}
    (keyed : cache.Keyed R) : session.Accounts R (Work.compile n cache)
      (fun m => compileBirths m.vars n ⟨m.ledger, cache⟩) fun _ => ∅ := by
  intro N m sub fits
  have fits : World.Sound ⟨m, N⟩ := fits
  obtain ⟨told, -, given⟩ := accounts_compileNode m.vars hn N ⟨m.ledger, cache⟩ sub
    ⟨fits.coherent, keyed.mono sub⟩
  have made := fits.told told
  cases h : compileNode m.vars n ⟨m.ledger, cache⟩ with
  | ok x q =>
      have compiled : Work.compile n cache m = .ok () { m with ledger := q.ledger } := by
        rw [Work.compile, h]
      rw [h] at told made
      rw [compiled]
      exact ⟨told, made, fun _ _ _ => ⟨(given x q h).1, Set.empty_subset _⟩⟩
  | error f q =>
      have refused : Work.compile n cache m = .error f { m with ledger := q.ledger } := by
        rw [Work.compile, h]
      rw [h] at told made
      rw [refused]
      exact ⟨told, made, fun _ _ run => by cases run⟩

/-- What a compilation leaves in its cache is entered for nodes that are there then. -/
theorem keyed_compile {N : Set (Node α)} {m : Model α} (fits : World.Sound ⟨m, N⟩) {n : Node α}
    (hn : n ∈ N) {cache : Cache (Objective α) (Record α)} (keyed : cache.Keyed N) :
    (Outcome.left (compileNode m.vars n ⟨m.ledger, cache⟩)).cache.Keyed
      (born N (compileBirths m.vars n ⟨m.ledger, cache⟩)) :=
  (accounts_compileNode m.vars hn N ⟨m.ledger, cache⟩ subset_rfl ⟨fits.coherent, keyed⟩).2.1.2

end ConicModel
