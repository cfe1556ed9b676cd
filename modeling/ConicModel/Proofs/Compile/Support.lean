/-
# What an objective is about

A product has a constant on its left, so all that is left to depend on is at the end of the
chain of right operands.  What is compiled of an expression therefore has two keys at most:
that of the constant, and that of the variable at the end of the chain, as long as that one
is free (`Expr.Supports`).  The second one is there whatever its coefficients are.  A product
with a matrix of zeros keeps it, and a product without any entries does.

Shapes go with this.  The rows come from matrices that were made of values, and the entries of
an expression are counted by the shapes of its nodes; that both agree through any nesting is
the induction of `Coherent.settles`.
-/
import ConicModel.Proofs.Compile.Failure
import ConicModel.Proofs.Compile.Nesting
import ConicModel.Proofs.Objective.Arithmetic

namespace ConicModel

variable {α : Type}

/-- The variable at the end of the chain of right operands, if a variable is there. -/
def Expr.tail? : Expr α → Option Variable
  | var x => some x
  | const _ | stub _ => none
  | kron _ _ b => b.tail?

/-- The end of the chain is a node as well. -/
theorem Roster.tail {N : Set (Node α)} {next : Id} (roster : Roster N next) {e : Expr α}
    (he : .expr e ∈ N) {x : Variable} (hx : e.tail? = some x) : .expr (.var x) ∈ N := by
  induction e with
  | var y =>
      cases hx
      exact he
  | const c => cases hx
  | stub s => cases hx
  | kron id a b _ ihb => exact ihb (roster.kron he).2 hx

/-! ## Keys -/

/-- What the keys of an objective say of the expression it was compiled of. -/
inductive Expr.Supports (vars : Vars α) (e : Expr α) (o : Objective α) : Prop where
  | constant (constant : e.curvature vars = .constant) (keys : o.keys = [constantKey])
  | free (x : Variable) (tail : e.tail? = some x) (free : (vars.state x).fixed = false)
      (curvature : e.curvature vars ≠ .constant) (keys : o.keys = [x.id, constantKey])

variable [Scalar α] {vars : Vars α} {N : Set (Node α)} {next : Id}

theorem Coherent.supports (h : Coherent vars N next) {e : Expr α} (he : .expr e ∈ N)
    {o : Objective α} (form : e.form vars = .ok o) : e.Supports vars o := by
  have of_constant {e : Expr α} (he : .expr e ∈ N) (constant : e.curvature vars = .constant)
      {o : Objective α} (form : e.form vars = .ok o) : e.Supports vars o := by
    obtain ⟨v, hv⟩ := h.exists_value he constant
    rw [Expr.form_constant h he constant, Expr.constantForm_ok hv] at form
    cases form
    exact .constant constant (Objective.keys_ofConstant _)
  induction e generalizing o with
  | const c => exact of_constant he rfl form
  | stub s => exact (h.roster.no_stub s he).elim
  | var x =>
      cases fixed : (vars.state x).fixed with
      | true => exact of_constant he (curvature_var_eq_constant_iff.mpr fixed) form
      | false =>
          rw [Expr.form_free fixed] at form
          cases form
          have curved : (Expr.var x : Expr α).curvature vars ≠ .constant := fun constant =>
            Bool.noConfusion (fixed.symm.trans (curvature_var_eq_constant_iff.mp constant))
          exact .free x rfl fixed curved (Objective.keys_ofVariable x _)
  | kron id a b _ ihb =>
      by_cases left : a.curvature vars = .constant
      · by_cases right : b.curvature vars = .constant
        · exact of_constant he (curvature_kron_eq_constant_iff.mpr ⟨left, right⟩) form
        · rw [Expr.form_kron left right] at form
          obtain ⟨child, below, product⟩ := Outcome.except_bind_ok.mp form
          obtain ⟨_, _, ⟨⟩, -, ho⟩ := Expr.product_ok.mp product
          have multiplied := Objective.keys_premultiply (Outcome.mapError_ok.mp ho)
          cases ihb (h.roster.kron he).2 below with
          | constant constant => exact absurd constant right
          | free x tail free _ keys =>
              have curved : (Expr.kron id a b).curvature vars ≠ .constant := fun constant =>
                right (curvature_kron_eq_constant_iff.mp constant).2
              exact .free x tail free curved (multiplied.trans keys)
      · rw [Expr.form_left left] at form
        cases form

namespace Expr.Supports

variable {e : Expr α} {o : Objective α}

omit [Scalar α] in
/-- The entry of the constant is there in any case. -/
theorem constantKey_mem (h : e.Supports vars o) : constantKey ∈ o.keys := by
  cases h with
  | constant _ keys => simp [keys]
  | free x _ _ _ keys => simp [keys]

omit [Scalar α] in
theorem variableIds_eq_nil_iff (h : e.Supports vars o)
    (named : ∀ x, e.tail? = some x → x.id ≠ constantKey) :
    o.variableIds = [] ↔ e.curvature vars = .constant := by
  cases h with
  | constant constant keys => simp [Objective.variableIds, keys, constant]
  | free x tail _ curved keys => simp [Objective.variableIds, keys, curved, named x tail]

omit [Scalar α] in
theorem variableIds_of_tail (h : e.Supports vars o) (curved : e.curvature vars ≠ .constant)
    (named : ∀ x, e.tail? = some x → x.id ≠ constantKey) :
    ∃ x, e.tail? = some x ∧ (vars.state x).fixed = false ∧ o.variableIds = [x.id] := by
  cases h with
  | constant constant => exact absurd constant curved
  | free x tail free _ keys =>
      exact ⟨x, tail, free, by simp [Objective.variableIds, keys, named x tail]⟩

end Expr.Supports

omit [Scalar α] in
/-- An entry of a variable is that of the end of the chain, as wide as that variable is long. -/
theorem Coherent.entry_of_tail (h : Coherent vars N next) {e : Expr α} (he : .expr e ∈ N)
    {o : Objective α} {n : Nat} (supports : e.Supports vars o) (shaped : o.Fits vars N n)
    {key : Id} {p : Part α} (hp : (key, p) ∈ o.entries) (variable_key : key ≠ constantKey) :
    ∃ x, e.tail? = some x ∧ key = x.id ∧ Coeffs.cols p.real = x.rows * x.cols := by
  have held : key ∈ o.keys := Table.mem_ids_of_mem hp
  cases supports with
  | constant _ keys =>
      rw [keys] at held
      exact absurd (List.mem_singleton.mp held) variable_key
  | free x hx free _ keys =>
      rw [keys] at held
      have same : key = x.id := by simpa [variable_key] using held
      -- The entry is of a free variable of this identity, and there is one of it.
      have width := shaped.about (key, p) hp variable_key
      exact ⟨x, hx, same,
        h.oneWidth key _ _ width ⟨x, h.roster.tail he hx, free, same.symm, rfl⟩⟩

/-! ## Differences -/

omit [Scalar α] in
/-- The variables of a sum: those of the left operand and then those that only the right one
has. -/
theorem Objective.variableIds_add [Entry α] {a b o : Objective α} (h : a.add b = .ok o) :
    o.variableIds = a.variableIds ++ b.variableIds.filter fun i => i ∉ a.variableIds := by
  rw [variableIds, keys_add h, List.filter_append, variableIds, variableIds, List.filter_filter,
    List.filter_filter]
  congr 1
  refine List.filter_congr fun i _ => ?_
  by_cases named : i = constantKey <;> simp [named, Bool.and_comm]

/-! ## What is compiled -/

/-- What is compiled of an expression into an empty cache has an entry for the constant, and
one for a variable exactly if the expression is not constant: that of the free variable at the
end of the chain of right operands.  Both parts of every entry have a row for each entry of the
expression, and as many columns as the variable has entries, or one for the constant.  So two
expressions of one shape have a difference, which is about the variables of both. -/
theorem support_of_compiled {w : World α} (reachable : Reachable w) {e : Expr α}
    (made : .expr e ∈ w.nodes) {o : Objective α} {q : Pass (Objective α) (Record α)}
    (compiled : compileExpr w.vars e ⟨w.ledger, {}⟩ = .ok o q) :
    constantKey ∈ o.keys ∧
    (o.variableIds = [] ↔ e.curvature w.vars = .constant) ∧
    (e.curvature w.vars ≠ .constant → ∃ x, e.tail? = some x ∧ (w.vars.state x).fixed = false ∧
      o.variableIds = [x.id]) ∧
    (∀ key p, (key, p) ∈ o.entries →
      Coeffs.rows p.real = e.length ∧ Coeffs.rows p.imag = e.length ∧
      Coeffs.cols p.imag = Coeffs.cols p.real ∧
      (key = constantKey → Coeffs.cols p.real = 1) ∧
      (key ≠ constantKey → ∃ x, e.tail? = some x ∧ key = x.id ∧
        Coeffs.cols p.real = x.rows * x.cols)) ∧
    ∀ (e' : Expr α) (o' : Objective α) (q' : Pass (Objective α) (Record α)),
      .expr e' ∈ w.nodes → e'.shape = e.shape →
      compileExpr w.vars e' ⟨w.ledger, {}⟩ = .ok o' q' →
      ∃ d, o.sub o' = .ok d ∧
        d.variableIds = o.variableIds ++ o'.variableIds.filter fun i => i ∉ o.variableIds := by
  have coherent := reachable.sound.coherent
  have fits {e : Expr α} (made : .expr e ∈ w.nodes) {o : Objective α}
      {q : Pass (Objective α) (Record α)}
      (compiled : compileExpr w.vars e ⟨w.ledger, {}⟩ = .ok o q) :
      e.Supports w.vars o ∧ o.Fits w.vars w.nodes e.length := by
    have form := form_of_compiled reachable made compiled
    exact ⟨coherent.supports made form, coherent.fits_of_form made form⟩
  obtain ⟨supports, shaped⟩ := fits made compiled
  have named (x : Variable) (hx : e.tail? = some x) : x.id ≠ constantKey :=
    coherent.roster.ne_constantKey (coherent.roster.tail made hx)
  refine ⟨supports.constantKey_mem, supports.variableIds_eq_nil_iff named,
    fun curved => supports.variableIds_of_tail curved named, fun key p hp => ?_,
    fun e' o' q' made' shape compiled' => ?_⟩
  · have formed := shaped.formed.parts (key, p) hp
    exact ⟨formed.real_rows, formed.imag_rows, formed.cols, formed.column,
      coherent.entry_of_tail made supports shaped hp⟩
  · obtain ⟨-, shaped'⟩ := fits made' compiled'
    have length : e'.length = e.length := by rw [Expr.length, shape]; rfl
    obtain ⟨d, hd⟩ := Objective.sub_total coherent.oneWidth shaped.formed
      (length ▸ shaped'.formed) shaped.about shaped'.about
    have ids := Objective.variableIds_add hd
    rw [show o'.neg.variableIds = o'.variableIds by
      rw [Objective.variableIds, Objective.keys_neg]; rfl] at ids
    exact ⟨d, hd, ids⟩

/-! ### A product with zeros

Nothing of the variable is left in the product, and still it is about it. -/

namespace Zeroed

def x : Variable := ⟨1, 2, 1, .main⟩

def y : Variable := ⟨2, 4, 1, .main⟩

def product : Expr ℚ := .kron 4 (.const ⟨3, .real (.replicate 2 1 0), .positive⟩) (.var x)

def first : World ℚ where
  model := {
    ledger := { nextId := 2 }
    vars := [(1, {})]
    contexts := [(.main, [.expr (.var x)])] }
  nodes := {.expr (.var x)}

def both : World ℚ where
  model := {
    ledger := { nextId := 3 }
    vars := [(1, {}), (2, {})]
    contexts := [(.main, [.expr (.var x), .expr (.var y)])] }
  nodes := insert (.expr (.var y)) first.nodes

def world : World ℚ := both.make { nextId := 5 } (.expr product)

theorem world_reachable : Reachable world := by
  let column (n : Int) : VariableSpec ℚ := { shape := .ofInt n }
  have hx : (column 2).declare [] {} = .ok x first.model := rfl
  have hy : (column 4).declare [] first.model = .ok y both.model := rfl
  have declared : Reachable first := by
    simpa only [first, insert_empty_eq] using Reachable.start.declare_plain hx rfl
  exact (declared.declare_plain hy rfl).next <| .kron _
    (.array 0 false .real [2, 1] [.atom 0 (.real 0), .atom 0 (.real 0)]) (.thing 0 (.expr (.var x)))
    product { nextId := 5 } (fun s e h => by cases h) (Roster.offers_expr (.inr rfl))
    (by with_unfolding_all rfl)

theorem product_made : .expr product ∈ world.nodes := mem_gain _ _

theorem y_made : .expr (.var y) ∈ world.nodes := subset_gain _ _ (.inl rfl)

end Zeroed

theorem zeroed_support : ∃ o q o' q' d,
    compileExpr Zeroed.world.vars Zeroed.product
      (⟨Zeroed.world.ledger, {}⟩ : Pass (Objective ℚ) (Record ℚ)) = .ok o q ∧
    (∀ e ∈ o.entries, Coeffs.stored e.2.real = 0 ∧ Coeffs.stored e.2.imag = 0) ∧
    (∃ x, Zeroed.product.tail? = some x ∧ o.variableIds = [x.id]) ∧
    compileExpr Zeroed.world.vars (.var Zeroed.y)
      (⟨Zeroed.world.ledger, {}⟩ : Pass (Objective ℚ) (Record ℚ)) = .ok o' q' ∧
    o.sub o' = .ok d ∧ d.variableIds = [1, 2] := by
  obtain ⟨o, q, compiled, zeros⟩ : ∃ o q, compileExpr Zeroed.world.vars Zeroed.product
      (⟨Zeroed.world.ledger, {}⟩ : Pass (Objective ℚ) (Record ℚ)) = .ok o q ∧
      ∀ e ∈ o.entries, Coeffs.stored e.2.real = 0 ∧ Coeffs.stored e.2.imag = 0 := by
    decide +kernel
  obtain ⟨o', q', compiled', keys⟩ : ∃ o' q', compileExpr Zeroed.world.vars (.var Zeroed.y)
      (⟨Zeroed.world.ledger, {}⟩ : Pass (Objective ℚ) (Record ℚ)) = .ok o' q' ∧
      o'.variableIds = [2] := by
    decide +kernel
  obtain ⟨-, -, tail, -, difference⟩ :=
    support_of_compiled Zeroed.world_reachable Zeroed.product_made compiled
  obtain ⟨x, hx, -, ids⟩ := tail (by decide)
  obtain ⟨d, hd, both⟩ := difference (.var Zeroed.y) o' q' Zeroed.y_made rfl compiled'
  refine ⟨o, q, o', q', d, compiled, zeros, ⟨x, hx, ids⟩, compiled', hd, ?_⟩
  cases hx
  rw [both, ids, keys]
  rfl

end ConicModel
