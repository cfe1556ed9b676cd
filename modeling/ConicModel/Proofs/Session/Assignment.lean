/-
# Assigning a value

Assigning plain data to a variable succeeds exactly if the variable can hold them.  Then they are
what it evaluates to, entry by entry, and once it is fixed it compiles to a constant entry with
the same elements, column by column.  If the data are refused, nothing has changed, and the
refusal names the shape wherever the shape is wrong, whatever the elements are.

No law of arithmetic is needed here except that zero counts as zero: nothing is computed, only
converted and put in its place.
-/
import Mathlib.Algebra.Order.Ring.Rat
import ConicModel.Proofs.Compile.History
import ConicModel.Proofs.Datum.Acceptance
import ConicModel.Proofs.Solution.RoundTrip

namespace ConicModel

/-! ## Constant columns -/

section

variable {α R : Type}

/-- Where one entry at most is stored in each row, a row has its own. -/
theorem filter_filterMap_range (n k : Nat) (skip : Nat → Bool) (f : Nat → R) :
    ((List.range n).filterMap fun i => if skip i then none else some (i, f i)).filter
        (fun e => e.1 == k)
      = if k < n then if skip k then [] else [(k, f k)] else [] := by
  induction n with
  | zero => rfl
  | succ n ih =>
      rw [List.range_succ, List.filterMap_append, List.filter_append, ih]
      by_cases last : k = n
      · subst last
        cases hf : skip k <;> simp [hf]
      · have same : k < n + 1 ↔ k < n := by omega
        cases hf : skip n <;> simp [hf, same, Ne.symm last]

variable [Entry α]

/-- Row `k` of a column of reals is `x`, stored once unless it is zero. -/
def Coeffs.Stores (A : Coeffs α) (k : Nat) (x : α) : Prop :=
  ∃ S, A = .real S ∧ (S.column 0).filter (fun e => e.1 == k) = if isZero x then [] else [(k, x)]

theorem Coeffs.stores_ofDense {A : Dense α} {k : Nat} (rows : k < A.rows) (cols : A.cols = 1) :
    Coeffs.Stores (.real (.ofDense A)) k (A.get k 0) := by
  refine ⟨_, rfl, ?_⟩
  rw [Sparse.ofDense, Sparse.column_ofColumns _ (cols ▸ Nat.one_pos)]
  refine (filter_filterMap_range A.rows k (fun i => isZero (A.get i 0)) fun i => A.get i 0).trans ?_
  rw [if_pos rows]

theorem Coeffs.stores_zeros (zero : isZero (0 : α) = true) (n k : Nat) :
    Coeffs.Stores (.zeros n 1 : Coeffs α) k 0 := by
  refine ⟨_, rfl, ?_⟩
  rw [Sparse.zeros, Sparse.column_ofColumns _ Nat.one_pos, if_pos zero]
  rfl

/-- The constant entry of a matrix: columns of the real and of the imaginary parts of its
elements, one column of the matrix after the other. -/
structure Part.IsConstant (p : Part α) (r c : Nat) (element : Nat → Nat → Cplx α) : Prop where
  real_shape : p.real.shape = (r * c, 1)
  imag_shape : p.imag.shape = (r * c, 1)
  real : ∀ i < r, ∀ j < c, p.real.Stores (i + j * r) (element i j).re
  imag : ∀ i < r, ∀ j < c, p.imag.Stores (i + j * r) (element i j).im

namespace Dense

variable [Zero R]

theorem get_vec_column (A : Dense R) {i j : Nat} (hi : i < A.rows) (hj : j < A.cols) :
    A.vec.get (i + j * A.rows) 0 = A.get i j := by
  rw [get_vec A (column_index_lt hi hj), Nat.add_mul_mod_self_right, Nat.mod_eq_of_lt hi,
    Nat.add_mul_div_right _ _ (Nat.zero_lt_of_lt hi), Nat.div_eq_of_lt hi, Nat.zero_add]

end Dense

/-- The objective of a constant has one entry, with all its elements. -/
theorem Objective.exists_ofConstant (zero : isZero (0 : α) = true) {A : Numeric Dense α}
    {r c : Nat} (shape : A.on Dense.shape = (r, c)) :
    ∃ p : Part α, ofConstant A = ⟨[(constantKey, p)]⟩ ∧ p.IsConstant r c A.toComplex.get := by
  cases A with
  | real A =>
      cases shape
      have entry (i j : Nat) : (Cplx.ofReal <$> A : Dense (Cplx α)).get i j = .ofReal (A.get i j) :=
        Dense.get_map rfl A i j
      refine ⟨_, rfl, Prod.ext rfl (Sparse.cols_ofDense _), Prod.ext rfl (Coeffs.cols_zeros _ _),
        fun i hi j hj => ?_, fun i hi j hj => ?_⟩
      · rw [Numeric.toComplex, entry]
        exact A.get_vec_column hi hj ▸ Coeffs.stores_ofDense (column_index_lt hi hj) rfl
      · rw [Numeric.toComplex, entry]
        exact Coeffs.stores_zeros zero _ _
  | complex A =>
      cases shape
      have part (f : Cplx α → α) (h0 : f 0 = 0) {i j : Nat} (hi : i < A.rows) (hj : j < A.cols) :
          Coeffs.Stores (.real (.ofDense (A.vec.map f))) (i + j * A.rows) (f (A.get i j)) := by
        rw [← A.get_vec_column hi hj, ← Dense.get_map h0]
        exact Coeffs.stores_ofDense (column_index_lt hi hj) rfl
      exact ⟨_, rfl, Prod.ext rfl (Sparse.cols_ofDense _), Prod.ext rfl (Sparse.cols_ofDense _),
        fun i hi j hj => part Cplx.re rfl hi hj, fun i hi j hj => part Cplx.im rfl hi hj⟩

end

variable {α : Type} [Scalar α]

/-- A variable that is held compiles to its value. -/
theorem compileExpr_of_fixed {vars : Vars α} {x : Variable} {v : Value α}
    (fixed : (vars.state x).fixed = true) (value : (vars.state x).value = some v)
    {p : Pass (Objective α) (Record α)} (new : p.cache.exprs.get? x.id = none) :
    compileExpr vars (.var x) p
      = .ok (.ofConstant v.toMatrix) (p.enterExpr x.id (.ofConstant v.toMatrix)) := by
  have entered : (walkConstant vars (.var x) : Walk α (Objective α) (Record α) _) p
      = .ok (.ofConstant v.toMatrix) (p.enterExpr x.id (.ofConstant v.toMatrix)) := by
    have absent : p.cache.exprs.has x.id = false :=
      Table.has_eq_false_iff.mpr (Table.get?_eq_none_iff.mp new)
    have evaluates : (Expr.var x).evaluate vars = .ok v := by
      rw [Expr.evaluate, value]
    refine Outcome.bind_ok.mpr ⟨v, p, Walk.ofExcept_ok.mpr ⟨evaluates, rfl⟩, ?_⟩
    exact Walk.enterExpr_ok.mpr ⟨absent, rfl, rfl⟩
  obtain ⟨k, hk⟩ := exists_depthBound vars (show 0 < (Expr.var x : Expr α).depth from Nat.one_pos)
  have new : p.cache.exprs.get? (Expr.var x : Expr α).id = none := new
  rw [compileExpr, hk, walkExpr_succ, Walk.run, Walk.unlessHeld_of_none new, walkNew,
    if_pos fixed, entered]

/-! ## Quoting what was refused -/

/-- Nothing is noted, and the only reason to stop is an integer that is too long. -/
def Make.Quiet {β : Type} (m : Make α β) : Prop :=
  ∀ l, (∃ b, m l = .ok b l) ∨ m l = .error .unwritable l

namespace Datum

variable {vars : Vars α}

omit [Scalar α] in
theorem quiet_surveyAll {ds : List (Input α)} (h : ∀ d ∈ ds, (survey vars d).Quiet) :
    (surveyAll vars ds).Quiet := by
  induction ds with
  | nil => exact fun l => .inl ⟨(), by rw [surveyAll]; rfl⟩
  | cons d ds ih =>
      intro l
      rw [surveyAll]
      rcases h d List.mem_cons_self l with ⟨u, hu⟩ | stops
      · rcases ih (fun e he => h e (List.mem_cons_of_mem d he)) l with ⟨w, hw⟩ | stops
        · exact .inl ⟨w, Outcome.bind_ok.mpr ⟨u, l, hu, hw⟩⟩
        · exact .inr (Outcome.bind_error.mpr (.inr ⟨u, l, hu, stops⟩))
      · exact .inr (Outcome.bind_error.mpr (.inl stops))

omit [Scalar α] in
theorem quiet_survey_leaf {d : Input α} (h : (∃ s a, d = .atom s a) ∨ ∃ s k a, d = .element s k a) :
    (survey vars d).Quiet := by
  rcases h with ⟨s, a, rfl⟩ | ⟨s, k, a, rfl⟩
  · intro l
    cases a with
    | int n =>
        rw [survey, Make.writable]
        split
        · exact .inl ⟨(), rfl⟩
        · exact .inr rfl
    | null | bool b | real y | complex z | text t =>
        exact .inl ⟨(), by rw [survey.eq_def]; rfl⟩
  · exact fun l => .inl ⟨(), by rw [survey.eq_def]; rfl⟩

omit [Scalar α] in
theorem Plain.quiet_survey {d : Input α} (plain : d.Plain) : (survey vars d).Quiet := by
  induction plain with
  | atom s a => exact quiet_survey_leaf (.inl ⟨s, a, rfl⟩)
  | element stores => exact quiet_survey_leaf (.inr ⟨_, _, _, rfl⟩)
  | list _ ih =>
      intro l
      rw [survey]
      exact quiet_surveyAll ih l
  | tuple _ ih =>
      intro l
      rw [survey]
      exact quiet_surveyAll ih l
  | array _ _ stores =>
      intro l
      rw [survey]
      refine quiet_surveyAll (fun c hc => ?_) l
      obtain ⟨t, a, rfl, -⟩ := stores c hc
      exact quiet_survey_leaf (.inl ⟨t, a, rfl⟩)

omit [Scalar α] in
/-- Plain data are shown without anything happening. -/
theorem Plain.quiet_shown {d : Input α} (plain : d.Plain) (x : Variable) :
    (survey vars (x.shown d)).Quiet := by
  unfold Variable.shown
  split
  · rename_i g laid
    split
    · exact plain.quiet_survey
    · intro l
      rw [survey]
      exact quiet_surveyAll (fun c hc => quiet_survey_leaf ((plain.lays_of_grid laid).leaves c hc)) l
  · exact plain.quiet_survey

end Datum

/-! ## Refusals -/

namespace Fault

/-- The shape of a value is refused. -/
inductive OfShape : Fault α → Prop
  | number (size : Nat × Nat) : OfShape (.numberForMatrix size)
  | vector (size : Nat × Nat) : OfShape (.vectorForMatrix size)
  | length (size : Nat × Nat) (found : Nat) : OfShape (.vectorLength size found)
  | array (size : Nat × Nat) (found : List Nat) : OfShape (.arrayShape size found)

/-- The elements of a value are refused: they are no numbers, which may be impossible to say for
their length, or they are no real ones. -/
inductive OfElements : Fault α → Prop
  | notNumeric (shown : Datum α String) : OfElements (.valueNotNumeric shown)
  | unwritable : OfElements .unwritable
  | imaginary (sign : Sign) : OfElements (.valueComplex sign)

omit [Scalar α] in
theorem OfShape.not_ofElements {f : Fault α} (h : f.OfShape) : ¬f.OfElements := by
  rintro ⟨⟩ <;> cases h

end Fault

namespace Vars

variable {vars : Vars α} {x : Variable} {d : Input α} {f : Fault α} {l l' : Ledger}

theorem refuse_misfit {shape : List Nat} {r : Refusal} (misfit : x.Misfit shape r)
    (h : vars.refuse x d r l = .error f l') : l' = l ∧ f.OfShape := by
  cases misfit with
  | number | vector | length | array =>
      obtain ⟨rfl, rfl⟩ := Outcome.throw_error.mp h
      exact ⟨rfl, by constructor⟩

theorem refuse_notNumeric (plain : d.Plain) (h : vars.refuse x d .notNumeric l = .error f l') :
    l' = l ∧ (f = .unwritable ∨ ∃ q, f = .valueNotNumeric q) := by
  have quiet : (Datum.survey vars (x.shown d)).Quiet := plain.quiet_shown x
  rcases Outcome.bind_error.mp h with stops | ⟨q, l₁, quoted, thrown⟩
  · rcases Outcome.bind_error.mp stops with stops | ⟨u, l₁, -, written⟩
    · rcases quiet l with ⟨u, done⟩ | quiet
      · cases done.symm.trans stops
      · cases quiet.symm.trans stops
        exact ⟨rfl, .inl rfl⟩
    · exact (Outcome.pure_error.mp written).elim
  · obtain ⟨u, l₂, done, written⟩ := Outcome.bind_ok.mp quoted
    obtain ⟨-, rfl⟩ := Outcome.pure_ok.mp written
    obtain ⟨rfl, rfl⟩ := Outcome.throw_error.mp thrown
    rcases quiet l with ⟨w, quiet⟩ | quiet
    · cases quiet.symm.trans done
      exact ⟨rfl, .inr ⟨q, rfl⟩⟩
    · cases quiet.symm.trans done

/-- Why plain data were refused.  The shape comes first: where it is wrong, the fault is one of
shape, and one of elements is only found where it is right. -/
structure Explains (vars : Vars α) (x : Variable) (d : Input α) (f : Fault α) : Prop where
  shapeless : (∀ shape, d.Shaped shape → Datum.maxDimensions < shape.length) →
    f = .mishap .content
  shape : f.OfShape ↔
    ∃ shape, d.Shaped shape ∧ shape.length ≤ Datum.maxDimensions ∧ ¬x.Takes shape
  elements : f.OfElements ↔ ∃ shape, d.Shaped shape ∧ x.Takes shape
  imaginary : ∀ sign, f = .valueComplex sign → sign = (vars.state x).sign ∧ sign ≠ .complex ∧
    ∃ path a, d.at? path = some a ∧ ¬a.IsReal

theorem Explains.of_misfit {shape : List Nat} (shaped : d.Shaped shape)
    (few : shape.length ≤ Datum.maxDimensions) (misfit : ¬x.Takes shape) (h : f.OfShape) :
    vars.Explains x d f where
  shapeless none := (Nat.not_lt.mpr few (none shape shaped)).elim
  shape := ⟨fun _ => ⟨shape, shaped, few, misfit⟩, fun _ => h⟩
  elements := ⟨fun elements => (h.not_ofElements elements).elim,
    fun ⟨_, shaped', takes⟩ => (misfit (shaped'.unique shaped ▸ takes)).elim⟩
  imaginary _ same := by
    cases same
    cases h

theorem Explains.of_elements {shape : List Nat} (shaped : d.Shaped shape) (takes : x.Takes shape)
    (h : f.OfElements) (imaginary : ∀ sign, f = .valueComplex sign →
      sign = (vars.state x).sign ∧ sign ≠ .complex ∧ ∃ path a, d.at? path = some a ∧ ¬a.IsReal) :
    vars.Explains x d f where
  shapeless none := (Nat.not_lt.mpr takes.few (none shape shaped)).elim
  shape := ⟨fun shape => (shape.not_ofElements h).elim,
    fun ⟨_, shaped', _, misfit⟩ => (misfit (shaped.unique shaped' ▸ takes)).elim⟩
  elements := ⟨fun _ => ⟨shape, shaped, takes⟩, fun _ => h⟩
  imaginary := imaginary

/-- A refused assignment uses nothing up, and says why. -/
theorem assign_refused (zero : isZero (0 : α) = true) (plain : d.Plain)
    (h : vars.assign x d l = .error f l') : l' = l ∧ vars.Explains x d f := by
  obtain ⟨r, refused, said⟩ := assign_error h
  have judged : x.Judges (vars.state x).sign d (.error r) :=
    refused ▸ Variable.judges_accept zero plain
  cases judged with
  | shapeless none =>
      obtain ⟨rfl, rfl⟩ := Outcome.throw_error.mp said
      refine ⟨rfl, fun _ => rfl, ⟨fun h => (by cases h), ?_⟩, ⟨fun h => (by cases h), ?_⟩,
        fun _ h => by cases h⟩
      · rintro ⟨shape, shaped, few, -⟩
        exact (Nat.not_lt.mpr few (none shape shaped)).elim
      · rintro ⟨shape, shaped, takes⟩
        exact (Nat.not_lt.mpr takes.few (none shape shaped)).elim
  | misfit shaped few misfit why =>
      obtain ⟨rfl, ofShape⟩ := refuse_misfit why said
      exact ⟨rfl, .of_misfit shaped few misfit ofShape⟩
  | notNumeric shaped takes found other =>
      obtain ⟨rfl, rfl | ⟨q, rfl⟩⟩ := refuse_notNumeric plain said
      · exact ⟨rfl, .of_elements shaped takes .unwritable fun _ h => by cases h⟩
      · exact ⟨rfl, .of_elements shaped takes (.notNumeric q) fun _ h => by cases h⟩
  | imaginary shaped takes real found imaginary =>
      obtain ⟨rfl, rfl⟩ := Outcome.throw_error.mp said
      refine ⟨rfl, .of_elements shaped takes (.imaginary _) fun sign h => ?_⟩
      cases h
      exact ⟨rfl, real, _, _, found, imaginary⟩

end Vars

/-! ## Assignments -/

/-- Once the variable is fixed, and unless it was entered before, it compiles to a constant with
these elements. -/
def Vars.Compiles (vars : Vars α) (x : Variable) (element : Nat → Nat → Cplx α) : Prop :=
  ∀ l, ∃ fixed, vars.fix x l = .ok fixed l ∧
    ∀ p : Pass (Objective α) (Record α), p.cache.exprs.get? x.id = none →
      ∃ o part q, compileExpr fixed (.var x) p = .ok o q ∧ o.keys = [constantKey] ∧
        o.get? constantKey = some part ∧ part.IsConstant x.rows x.cols element

theorem Vars.compiles_of_value {vars : Vars α} {x : Variable} {v : Value α}
    (zero : isZero (0 : α) = true) (known : x.id ∈ vars.ids)
    (value : (vars.state x).value = some v) (shape : v.shape = (x.rows, x.cols)) :
    vars.Compiles x v.toMatrix.toComplex.get := by
  intro l
  have fixed : (vars.change x fun s => { s with fixed := true }).state x
      = { vars.state x with fixed := true } := state_change_self known _
  refine ⟨vars.change x fun s => { s with fixed := true }, ?_, fun p new => ?_⟩
  · rw [fix, value]
    rfl
  · obtain ⟨part, ho, constant⟩ := Objective.exists_ofConstant zero shape
    refine ⟨_, part, _, compileExpr_of_fixed (v := v) ?_ ?_ new, ?_, ?_, constant⟩
    · rw [fixed]
    · rw [fixed]
      exact value
    · rw [ho]
      rfl
    · rw [ho]
      rfl

/-- An assignment succeeds exactly if the variable can hold the data.  If it does, the value of
the variable is a copy of them and nothing else has changed: it is what the variable evaluates
to, and what it compiles to once it is fixed.  If it does not, nothing has changed. -/
theorem assigned_iff_represented (zero : isZero (0 : α) = true) {m : Model α} {x : Variable}
    (declared : x.id ∈ m.vars.ids) {d : Input α} (plain : d.Plain) :
    ((∃ m', Work.changeVars (fun vars => vars.assign x d) m = .ok () m') ↔
      ∃ shape, d.RepresentedBy x (m.vars.state x).sign shape) ∧
    (∀ m', Work.changeVars (fun vars => vars.assign x d) m = .ok () m' → ∃ v shape,
      d.RepresentedBy x (m.vars.state x).sign shape ∧
      v.Copies x (m.vars.state x).sign d shape ∧
      m' = { m with vars := m.vars.change x fun s => { s with value := some v } } ∧
      m'.vars.state x = { m.vars.state x with value := some v } ∧
      (∀ y : Variable, y.id ≠ x.id → m'.vars.state y = m.vars.state y) ∧
      (Expr.var x).evaluate m'.vars = .ok v ∧
      m'.vars.Compiles x v.toMatrix.toComplex.get) ∧
    ∀ f m', Work.changeVars (fun vars => vars.assign x d) m = .error f m' →
      m' = m ∧ m.vars.Explains x d f := by
  have judged : x.Judges (m.vars.state x).sign d (x.accept (m.vars.state x).sign d) :=
    Variable.judges_accept zero plain
  refine ⟨⟨?_, ?_⟩, ?_, ?_⟩
  · rintro ⟨m', done⟩
    obtain ⟨vars, l, assigned, -⟩ := Work.changeVars_ok done
    obtain ⟨v, accepted, -⟩ := Vars.assign_ok assigned
    rw [accepted] at judged
    cases judged with
    | accepted represented => exact ⟨_, represented⟩
  · rintro ⟨shape, represented⟩
    obtain ⟨v, accepted⟩ := Variable.exists_accept zero plain represented
    refine ⟨{ m with vars := m.vars.change x fun s => { s with value := some v } }, ?_⟩
    have assigned : m.vars.assign x d m.ledger
        = .ok (m.vars.change x fun s => { s with value := some v }) m.ledger := by
      rw [Vars.assign, accepted]
      rfl
    rw [Work.changeVars, assigned]
  · intro m' done
    obtain ⟨vars, l, assigned, rfl⟩ := Work.changeVars_ok done
    obtain ⟨v, accepted, rfl, rfl⟩ := Vars.assign_ok assigned
    rw [accepted] at judged
    let set (s : VarState α) : VarState α := { s with value := some v }
    have state : (m.vars.change x set).state x = { m.vars.state x with value := some v } :=
      Vars.state_change_self declared set
    cases judged with
    | accepted represented copies =>
        refine ⟨v, _, represented, copies, rfl, state,
          fun y other => Vars.state_change_of_ne m.vars other.symm set, ?_, ?_⟩
        · rw [Expr.evaluate, state]
        · refine Vars.compiles_of_value zero ?_ (congrArg VarState.value state) copies.shape_eq
          rw [Vars.ids_change]
          exact declared
  · intro f m' stopped
    obtain ⟨l, refused, rfl⟩ := Work.changeVars_error stopped
    obtain ⟨rfl, explains⟩ := Vars.assign_refused zero plain refused
    exact ⟨rfl, explains⟩

/-! ## A column -/

namespace Assigned

def column : Variable := ⟨1, 2, 1, .main⟩

def model : Model ℚ := { ledger := { nextId := 2 }, vars := [(1, {})] }

/-- A vector with a complex number that is real. -/
def vector : Input ℚ := .list 0 [.atom 0 (.int 3), .atom 0 (.complex ⟨4, 0⟩)]

/-- A vector of the wrong length, and not of numbers. -/
def words : Input ℚ := .list 0 [.atom 0 (.text "a"), .atom 0 .null, .atom 0 (.int 5)]

theorem vector_plain : vector.Plain := by
  refine .list fun d hd => ?_
  obtain rfl | rfl : d = .atom 0 (.int 3) ∨ d = .atom 0 (.complex ⟨4, 0⟩) := by simpa using hd
  all_goals exact .atom ..

theorem words_plain : words.Plain := by
  refine .list fun d hd => ?_
  obtain rfl | rfl | rfl : d = .atom 0 (.text "a") ∨ d = .atom 0 .null ∨ d = .atom 0 (.int 5) := by
    simpa using hd
  all_goals exact .atom ..

/-- The model once the vector is assigned: the imaginary part has gone. -/
def stored : Model ℚ :=
  { model with vars := [(1, { value := some (.matrix (.real (.ofRowMajor 2 1 #[3, 4]))) })] }

/-- The vector is stored, and the words are refused for their number. -/
theorem vector_stored_words_refused :
    (isZero (0 : ℚ) = true ∧ column.id ∈ model.vars.ids ∧ vector.Plain ∧ words.Plain) ∧
    (∃ v shape, v.Copies column .noSign vector shape ∧
      (Expr.var column).evaluate stored.vars = .ok v ∧
      stored.vars.Compiles column v.toMatrix.toComplex.get) ∧
    ∃ f, Work.changeVars (fun vars => vars.assign column words) model = .error f model ∧
      f.OfShape := by
  have declared : column.id ∈ model.vars.ids := List.mem_singleton.mpr rfl
  refine ⟨⟨rfl, declared, vector_plain, words_plain⟩, ?_, ?_⟩
  · obtain ⟨-, accepted, -⟩ := assigned_iff_represented rfl declared vector_plain
    obtain ⟨v, shape, -, copies, -, -, -, value, compiles⟩ :=
      accepted stored (by with_unfolding_all rfl)
    exact ⟨v, shape, copies, value, compiles⟩
  · obtain ⟨-, -, refused⟩ := assigned_iff_represented rfl declared words_plain
    have length : Work.changeVars (fun vars => vars.assign column words) model
        = .error (.vectorLength (2, 1) 3) model := by
      with_unfolding_all rfl
    obtain ⟨-, explains⟩ := refused _ _ length
    obtain ⟨shape, shaped, few, misfit⟩ := explains.shape.mp (.length ..)
    exact ⟨_, length, explains.shape.mpr ⟨shape, shaped, few, misfit⟩⟩

end Assigned

end ConicModel
