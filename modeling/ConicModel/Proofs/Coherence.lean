/-
# Variables and the nodes around them

What compilation relies on about a state is said here of the states of the variables and
the nodes made so far (`Coherent`): a roster of the nodes, and for every variable among
them

  * an entry in the table, under an identity that was taken;
  * nodes attached to it that are among the nodes;
  * a stored value, if there is one, of the variable's own shape;
  * a value at all, if it is held at one.

Making nodes keeps this (`Coherent.gain`), and so does a change of one variable that
respects it (`Coherent.change`).
-/
import ConicModel.Proofs.Roster
import ConicModel.Proofs.Table
import ConicModel.Assign

namespace ConicModel

variable {α : Type}

/-- Rows and columns of a value; a number is one-by-one. -/
def Value.shape (v : Value α) : Nat × Nat := v.toMatrix.on Dense.shape

/-- What the state of a variable has to respect: its shape and the nodes made so far. -/
structure VarState.Respects (s : VarState α) (x : Variable) (N : Set (Node α)) : Prop where
  attached : ∀ n, .node n ∈ s.attached → n ∈ N
  shape : ∀ v, s.value = some v → v.shape = (x.rows, x.cols)
  held : s.fixed = true → s.value.isSome = true

/-- The states of variables go with the nodes made so far and the next identity. -/
structure Coherent (vars : Vars α) (N : Set (Node α)) (next : Id) : Prop where
  roster : Roster N next
  pos : 1 ≤ next
  below : ∀ i ∈ vars.ids, i < next
  known : ∀ x, .expr (.var x) ∈ N → x.id ∈ vars.ids
  respects : ∀ x, .expr (.var x) ∈ N → (vars.state x).Respects x N

theorem VarState.Respects.mono {s : VarState α} {x : Variable} {N M : Set (Node α)}
    (h : s.Respects x N) (sub : N ⊆ M) : s.Respects x M :=
  { h with attached := fun n hn => sub (h.attached n hn) }

namespace Vars

theorem state_change (vars : Vars α) (x y : Variable) (f : VarState α → VarState α) :
    (vars.change x f).state y = vars.state y ∨ (vars.change x f).state y = f (vars.state y) := by
  rw [state, state, change, Table.get?_update]
  split
  · cases vars.get? y.id with
    | none => exact .inl rfl
    | some s => exact .inr rfl
  · exact .inl rfl

/-- What is entered for an identity stands behind what was there. -/
theorem state_push (vars : Vars α) (i : Id) (s : VarState α) (y : Variable) :
    state (vars.push i s) y = vars.state y ∨
      vars.state y = {} ∧ state (vars.push i s) y = s := by
  rw [state, state, Table.get?_push]
  cases vars.get? y.id with
  | some t => exact .inl rfl
  | none =>
      by_cases here : i = y.id
      · exact .inr ⟨rfl, by rw [if_pos here]; rfl⟩
      · exact .inl (by rw [if_neg here]; rfl)

theorem state_change_self {vars : Vars α} {x : Variable} (known : x.id ∈ vars.ids)
    (f : VarState α → VarState α) : (vars.change x f).state x = f (vars.state x) := by
  obtain ⟨s, hs⟩ := Table.exists_get? known
  rw [state, state, change, Table.get?_update, if_pos rfl, hs]
  rfl

theorem state_change_of_ne (vars : Vars α) {x y : Variable} (ne : x.id ≠ y.id)
    (f : VarState α → VarState α) : (vars.change x f).state y = vars.state y := by
  rw [state, state, change, Table.get?_update, if_neg ne]

theorem ids_change (vars : Vars α) (x : Variable) (f : VarState α → VarState α) :
    (vars.change x f).ids = vars.ids := Table.ids_update ..

/-- A change that keeps a sign keeps all. -/
theorem sign_change (vars : Vars α) (x : Variable) {f : VarState α → VarState α}
    (keeps : ∀ s, (f s).sign = s.sign) (y : Variable) :
    ((vars.change x f).state y).sign = (vars.state y).sign := by
  rcases vars.state_change x y f with h | h
  · rw [h]
  · rw [h, keeps]

end Vars

/-- The sign of an expression comes from those of its variables. -/
theorem Expr.sign_congr {vs ws : Vars α} (same : ∀ y, (vs.state y).sign = (ws.state y).sign)
    (e : Expr α) : e.sign vs = e.sign ws := by
  induction e with
  | var x => exact same x
  | const c | stub s => rfl
  | kron id a b iha ihb => rw [sign, sign, iha, ihb]

namespace Coherent

variable {vars : Vars α} {N : Set (Node α)} {next next' : Id}

theorem mono (h : Coherent vars N next) (le : next ≤ next') : Coherent vars N next' :=
  { h with
    roster := h.roster.mono le
    pos := h.pos.trans le
    below := fun i hi => (h.below i hi).trans_le le }

/-- Making a node changes no variable and makes none. -/
theorem gain (h : Coherent vars N next) {n : Node α} (hn : Roster.Gained N next n next') :
    Coherent vars (gain N n) next' where
  roster := hn.roster
  pos := h.pos.trans hn.lt.le
  below i hi := (h.below i hi).trans hn.lt
  known x hx := h.known x (hn.vars x hx)
  respects x hx := (h.respects x (hn.vars x hx)).mono (subset_gain N n)

/-- A change of one variable. -/
theorem change (h : Coherent vars N next) {x : Variable} (hx : .expr (.var x) ∈ N)
    {f : VarState α → VarState α} (hf : (f (vars.state x)).Respects x N) :
    Coherent (vars.change x f) N next where
  roster := h.roster
  pos := h.pos
  below i hi := h.below i (Vars.ids_change vars x f ▸ hi)
  known y hy := Vars.ids_change vars x f ▸ h.known y hy
  respects y hy := by
    by_cases same : x.id = y.id
    · cases h.roster.expr_unique hx hy same
      rw [Vars.state_change_self (h.known x hx)]
      exact hf
    · rw [Vars.state_change_of_ne vars same]
      exact h.respects y hy

/-- A new variable, with nothing attached to it. -/
theorem enroll (h : Coherent vars N next) {x : Variable} (hid : x.id = next)
    (sign : Sign) (kind : VarKind) :
    Coherent (vars.push x.id { sign := sign, kind := kind }) (insert (.expr (.var x)) N)
      (next + 1) where
  roster := by
    subst hid
    refine (h.roster.mono (Int.lt_succ x.id).le).insert h.pos (Int.lt_succ x.id)
      (fun m hm => (h.roster.lt m hm).ne) ?_ ?_ ?_
    · exact fun m hm => by cases hm
    · exact fun c hc => by cases hc
    · exact fun s hs => by cases hs
  pos := h.pos.trans (Int.lt_succ next).le
  below i hi := by
    rw [Table.ids_push] at hi
    rcases List.mem_append.mp hi with hi | hi
    · exact (h.below i hi).trans (Int.lt_succ next)
    · rw [List.mem_singleton.mp hi, hid]
      exact Int.lt_succ next
  known y hy := by
    rw [Table.ids_push]
    rcases hy with hy | hy
    · cases hy
      exact List.mem_append_right _ (List.mem_singleton.mpr rfl)
    · exact List.mem_append_left _ (h.known y hy)
  respects y hy := by
    have new : x.id ∉ vars.ids := fun hx => (h.below _ hx).ne hid
    rcases hy with hy | hy
    · cases hy
      rw [Vars.state, Table.get?_push_self (Table.get?_eq_none_iff.mpr new)]
      refine ⟨?_, ?_, ?_⟩
      · exact fun n hn => by cases hn
      · exact fun v hv => by cases hv
      · exact fun hf => by cases hf
    · have ne : x.id ≠ y.id := hid ▸ (h.roster.lt _ hy).ne'
      rw [Vars.state, Table.get?_push_of_ne _ ne]
      exact (h.respects y hy).mono (Set.subset_insert _ _)

end Coherent

/-! ## Assigned values -/

section

variable [Scalar α]

theorem Numeric.on_convert {sign : Sign} {p : Dense (Cplx α) → Bool} {A B : Numeric Dense α}
    (h : A.convert sign p = .ok B) : B.on Dense.shape = A.on Dense.shape := by
  unfold Numeric.convert at h
  split at h
  · cases h
    cases A <;> rfl
  · split at h
    · cases h
      rfl
    · split at h
      · cases h
        rfl
      · cases h

/-- What is accepted are the numbers of an array that fits. -/
theorem Variable.accept_ok {x : Variable} {sign : Sign} {d : Input α} {v : Value α}
    (h : x.accept sign d = .ok v) : ∃ a : Numeric NdArray α,
      x.fits a.dims = .ok () ∧ x.store sign (.numbers a) = .ok v := by
  have stored (a : ArrayView α) (h : (do x.fits a.shape; x.store sign a) = Except.ok v) :
      ∃ a : Numeric NdArray α, x.fits a.dims = .ok () ∧ x.store sign (.numbers a) = .ok v := by
    obtain ⟨⟨⟩, fits, store⟩ := Outcome.except_bind_ok.mp h
    cases a with
    | numbers a => exact ⟨a, fits, store⟩
    | texts g => cases store
    | loose g => cases store
  unfold Variable.accept at h
  split at h
  · cases h
  · split at h
    · cases h
    · exact stored _ h

/-- What a variable accepts is stored with the variable's shape. -/
theorem Variable.shape_of_accept {x : Variable} {sign : Sign} {d : Input α} {v : Value α}
    (h : x.accept sign d = .ok v) : v.shape = (x.rows, x.cols) := by
  obtain ⟨a, fits, store⟩ := accept_ok h
  rw [Variable.store] at store
  by_cases dims : a.dims = []
  · rw [if_pos dims] at store
    obtain ⟨z, -, rfl⟩ := Outcome.except_map_ok.mp store
    -- A number fits a scalar variable only.
    have scalar : x.rows = 1 ∧ x.cols = 1 := by
      rw [dims, Variable.fits] at fits
      by_contra no
      rw [if_neg no] at fits
      cases fits
    rw [scalar.1, scalar.2]
    cases z <;> rfl
  · rw [if_neg dims] at store
    obtain ⟨A, hA, rfl⟩ := Outcome.except_map_ok.mp store
    exact (Numeric.on_convert hA).trans (by cases a <;> rfl)

/-- Assigning stores what the variable accepts, and does nothing else. -/
theorem Vars.assign_ok {vars vars' : Vars α} {x : Variable} {d : Input α} {l l' : Ledger}
    (h : vars.assign x d l = .ok vars' l') :
    ∃ v, x.accept (vars.state x).sign d = .ok v ∧ l' = l ∧
      vars' = vars.change x fun s => { s with value := some v } := by
  unfold Vars.assign at h
  cases ha : x.accept (vars.state x).sign d with
  | ok w =>
      rw [ha] at h
      cases h
      exact ⟨w, rfl, rfl, rfl⟩
  | error r =>
      rw [ha] at h
      obtain ⟨v, l₁, hv, -⟩ := Outcome.bind_ok.mp h
      cases r with
      | notNumeric =>
          obtain ⟨q, _, _, thrown⟩ := Outcome.bind_ok.mp hv
          exact (Outcome.throw_ok.mp thrown).elim
      | ragged | numberForMatrix | vectorForMatrix | vectorLength n | arrayShape s | complex =>
          exact (Outcome.throw_ok.mp hv).elim

end

end ConicModel
