/-
# Objectives in a session

Objectives are changed in one way only: an entry is set where there was none.  All else that
is done with them makes new ones.  In a session this is seen through names.  A request that
makes an objective binds one name and leaves the rest of the session as it was, whether it is
refused or not (`Session.Binding`); a request to set an entry that is refused leaves
everything as it was (`Session.Calm`), and one that is not puts the grown objective in all
places of the old one and touches no other.

What objectives keep to on the way, and for which reasons requests are refused, is stated for
everything that the operations make (`MixedObjective.invariant_and_refusals`).
-/
import Mathlib.Algebra.Order.Ring.Rat
import ConicModel.Proofs.Advance
import ConicModel.Proofs.Construction
import ConicModel.Proofs.Exact
import ConicModel.Proofs.Objective.Mixed
import ConicModel.Session.Objectives

namespace ConicModel

variable {α β : Type}

/-! ## Looking up names -/

theorem lookup_filter_ne {γ : Type} {n m : String} (h : m ≠ n) (names : List (String × γ)) :
    (names.filter fun e => e.1 != n).lookup m = names.lookup m := by
  induction names with
  | nil => rfl
  | cons e names ih =>
      rw [List.filter_cons]
      by_cases here : e.1 = n
      · have other : (m == e.1) = false := by simp [here, h]
        rw [if_neg (by simp [here]), List.lookup_cons, other, ih]
      · rw [if_pos (by simp [here]), List.lookup_cons, List.lookup_cons, ih]

theorem lookup_map {γ : Type} (f : γ → γ) (n : String) (names : List (String × γ)) :
    (names.map fun e => (e.1, f e.2)).lookup n = (names.lookup n).map f := by
  induction names with
  | nil => rfl
  | cons e names ih =>
      rw [List.map_cons, List.lookup_cons, List.lookup_cons]
      cases n == e.1 with
      | true => rfl
      | false => exact ih

namespace Session

open Outcome

/-! ## Requests that change nothing -/

/-- Nothing is changed but what numbers things and what was used up in making them. -/
def Calm (s s' : Session α) : Prop :=
  s' = { s with
    model := { s.model with ledger := s'.model.ledger }, nextSerial := s'.nextSerial }

instance : IsPreorder (Session α) Calm where
  refl _ := rfl
  trans s t u hst htu := by
    rw [Calm] at *
    rw [htu, hst]

theorem Calm.names {s s' : Session α} (h : Calm s s') : s'.names = s.names := by
  rw [show s' = _ from h]

theorem calm_numbering (f : StateM Nat β) : Keeps Calm (numbering (α := α) f) := fun _ => rfl

theorem calm_accept (x : Except (Fault α) β) : Keeps Calm (accept x) := by
  cases x with
  | ok x => exact .pure x
  | error f => exact .throw f

theorem calm_named (name : String) : Keeps Calm (named (α := α) name) := by
  refine Keeps.bind (fun _ => rfl) fun s => ?_
  cases s.names.lookup name with
  | some d => exact .pure d
  | none => exact .throw _

theorem calm_make (f : Vars α → Make α β) : Keeps Calm (make f) := by
  intro s
  unfold make work Work.make
  cases f s.model.vars s.model.ledger <;> rfl

/-- What was made in a session was made from its ledger. -/
theorem make_ok {f : Vars α → Make α β} {s s' : Session α} {x : β} (h : make f s = .ok x s') :
    ∃ l, f s.model.vars s.model.ledger = .ok x l := by
  unfold make work Work.make at h
  cases made : f s.model.vars s.model.ledger with
  | ok y l =>
      rw [made] at h
      cases h
      exact ⟨l, rfl⟩
  | error e l =>
      rw [made] at h
      cases h

theorem calm_namedObjective (name : String) : Keeps Calm (namedObjective (α := α) name) := by
  refine (calm_named name).bind fun d => ?_
  split
  · exact .pure _
  · exact .throw _

variable [Scalar α]

theorem calm_eval (t : Term α) : Keeps Calm (eval t) :=
  Keeps.bind (fun _ => rfl) fun _ => (calm_make _).bind fun _ => calm_numbering _

/-! ## Requests that bind a name -/

/-- At most one name was bound, and nothing else was changed. -/
structure Binding (name : Option String) (s s' : Session α) : Prop where
  rest : Calm { s with names := s'.names } s'
  names : ∀ n, name ≠ some n → s'.names.lookup n = s.names.lookup n

instance (name : Option String) : IsPreorder (Session α) (Binding name) where
  refl _ := ⟨rfl, fun _ _ => rfl⟩
  trans s t u hst htu := by
    refine ⟨?_, fun n other => (htu.names n other).trans (hst.names n other)⟩
    have first : t = _ := hst.rest
    have second : u = _ := htu.rest
    rw [first] at second
    rw [Calm]
    exact second

omit [Scalar α] in
theorem Calm.binding {s s' : Session α} (h : Calm s s') (name : Option String) :
    Binding name s s' where
  rest := by
    rw [h.names]
    exact h
  names _ _ := by rw [h.names]

omit [Scalar α] in
theorem binding_bind (name : Option String) (d : Input α) : Keeps (Binding name) (bind name d) := by
  refine Keeps.bind (fun s => (calm_numbering _ s).binding name) fun d => ?_
  refine Keeps.bind (fun s => ?_) fun _ => .pure d
  cases name with
  | none => exact ⟨rfl, fun _ _ => rfl⟩
  | some n =>
      refine ⟨rfl, fun m other => ?_⟩
      have ne : m ≠ n := fun same => other (congrArg some same.symm)
      have unbound : (m == n) = false := beq_false_of_ne ne
      show ((n, d) :: s.names.filter fun e => e.1 != n).lookup m = _
      rw [List.lookup_cons, unbound]
      exact lookup_filter_ne ne s.names

theorem binding_showObjective (name : Option String) (d : Input α) :
    Keeps (Binding name) (showObjective name d) := by
  refine (binding_bind name d).bind fun d => ?_
  split
  · exact .pure _
  · exact .throw _

variable (name : Option String)

theorem binding_objectiveOf (es : List (EntryTerm α)) :
    Keeps (Binding name) (objectiveOf es name) := by
  have entry (e : EntryTerm α) : Keeps Calm (do
      let r ← eval e.real
      let i ← eval e.imag
      pure (e.key, r, i)) :=
    (calm_eval e.real).bind fun _ => (calm_eval e.imag).bind fun _ => .pure _
  refine Keeps.bind (fun s => (Keeps.mapM entry es s).binding name) fun entries => ?_
  exact Keeps.bind (fun s => (calm_make _ s).binding name) fun _ => binding_showObjective name _

theorem binding_constantObjective (t : Term α) :
    Keeps (Binding name) (constantObjective t name) := by
  refine Keeps.bind (fun s => (calm_eval t s).binding name) fun d => ?_
  exact Keeps.bind (fun s => (calm_make _ s).binding name) fun _ => binding_showObjective name _

theorem binding_combine (minus : Bool) (a b : Term α) :
    Keeps (Binding name) (combine minus a b name) := by
  refine Keeps.bind (fun s => (calm_eval a s).binding name) fun x => ?_
  refine Keeps.bind (fun s => (calm_eval b s).binding name) fun y => ?_
  exact Keeps.bind (fun s => (calm_accept _ s).binding name) fun _ => binding_showObjective name _

theorem binding_negate (object : String) : Keeps (Binding name) (negate (α := α) object name) := by
  refine Keeps.bind (fun s => (calm_named object s).binding name) fun d => ?_
  exact Keeps.bind (fun s => (calm_accept _ s).binding name) fun _ => binding_showObjective name _

theorem binding_premultiply (object : String) (matrix : Term α) :
    Keeps (Binding name) (premultiply object matrix name) := by
  refine Keeps.bind (fun s => (calm_namedObjective object s).binding name) fun o => ?_
  refine Keeps.bind (fun s => (calm_eval matrix s).binding name) fun d => ?_
  refine Keeps.bind (fun s => (calm_make _ s).binding name) fun M => ?_
  split
  · exact binding_showObjective name _
  · exact .throw _

/-! ## Setting an entry -/

/-- A key that is taken is refused before anything is made of the parts. -/
theorem setParts_taken {o : MixedObjective α} {key : Id} (held : key ∈ o.keys)
    (real imag : Input α) (l : Ledger) :
    setParts o key real imag l = .error (.objective (.taken key)) l := by
  have taken : o.entries.has key = true := Table.has_iff.mpr held
  unfold setParts
  rw [if_pos taken]
  rfl

/-- Where an entry is set, the objective has grown by it. -/
theorem setParts_ok {o o' : MixedObjective α} {key : Id} {real imag : Input α} {l l' : Ledger}
    (h : setParts o key real imag l = .ok o' l') : ∃ p, o.set key p = .ok o' := by
  unfold setParts at h
  split at h
  · cases h
  · obtain ⟨r, _, -, h⟩ := bind_ok.mp h
    obtain ⟨i, _, -, h⟩ := bind_ok.mp h
    exact ⟨⟨r, i⟩, (ofExcept_ok h).1⟩

variable {object : String} {key : Id} {real imag : Term α} {s s' : Session α} {k : Nat}
  {o : MixedObjective α}

/-- What a request to set an entry of an objective does. -/
theorem objectiveSet_of_bound (bound : s.names.lookup object = some (.thing k (.objective o))) :
    objectiveSet object key real imag s = (do
      let r ← eval real
      let i ← eval imag
      let o' ← make fun _ => setParts o key r i
      mutate (.thing k (.objective o)) (.thing k (.objective o'))
      pure (.objective o'.toObjective) : Op α (Answer α)) s := by
  have found : named object s = .ok (.thing k (.objective o)) s := by
    refine (bind_of_ok (rfl : (get : Op α (Session α)) s = .ok s s) _).trans ?_
    rw [bound]
    rfl
  unfold objectiveSet
  exact bind_of_ok found _

/-- A refused request to set an entry of an objective leaves everything as it was. -/
theorem calm_of_objectiveSet_error {f : Fault α}
    (bound : s.names.lookup object = some (.thing k (.objective o)))
    (h : objectiveSet object key real imag s = .error f s') : Calm s s' := by
  rw [objectiveSet_of_bound bound] at h
  -- After the parts were made nothing is refused.
  have made : Keeps Calm (do
      let r ← eval real
      let i ← eval imag
      make fun _ => setParts o key r i : Op α (MixedObjective α)) :=
    (calm_eval real).bind fun _ => (calm_eval imag).bind fun _ => calm_make _
  refine made.error (e := f) ?_
  obtain h | ⟨r, s₁, hr, h⟩ := bind_error.mp h
  · exact bind_error.mpr (.inl h)
  refine bind_error.mpr (.inr ⟨r, s₁, hr, ?_⟩)
  obtain h | ⟨i, s₂, hi, h⟩ := bind_error.mp h
  · exact bind_error.mpr (.inl h)
  refine bind_error.mpr (.inr ⟨i, s₂, hi, ?_⟩)
  obtain h | ⟨o', s₃, -, h⟩ := bind_error.mp h
  · exact h
  · cases h

/-- Setting an entry puts the grown objective in all places of the old one. -/
theorem objectiveSet_ok {answer : Answer α}
    (bound : s.names.lookup object = some (.thing k (.objective o)))
    (h : objectiveSet object key real imag s = .ok answer s') :
    ∃ p o', o.set key p = .ok o' ∧ ∀ n j u, s.names.lookup n = some (.thing j (.objective u)) →
      s'.names.lookup n = some (.thing j (.objective (if j = k then o' else u))) := by
  rw [objectiveSet_of_bound bound] at h
  obtain ⟨r, s₁, hr, h⟩ := bind_ok.mp h
  obtain ⟨i, s₂, hi, h⟩ := bind_ok.mp h
  obtain ⟨o', s₃, ho, h⟩ := bind_ok.mp h
  obtain ⟨⟨⟩, s₄, grown, h⟩ := bind_ok.mp h
  cases h
  cases grown
  have calm : Calm s s₃ :=
    trans_of Calm ((calm_eval real).ok hr) (trans_of Calm ((calm_eval imag).ok hi)
      ((calm_make _).ok ho))
  obtain ⟨l, made⟩ := make_ok ho
  obtain ⟨p, set⟩ := setParts_ok made
  refine ⟨p, o', set, fun n j u named => ?_⟩
  have names : (s₃.replace (.thing k (.objective o)) (.thing k (.objective o'))).names
      = s.names.map fun e => (e.1, e.2.replace k (.thing k (.objective o'))) := by
    rw [← calm.names]
    rfl
  show (s₃.replace (.thing k (.objective o)) (.thing k (.objective o'))).names.lookup n = _
  rw [names, lookup_map fun d : Input α => d.replace k (.thing k (.objective o')), named,
    Option.map_some, Datum.replace]
  by_cases same : j = k
  · rw [if_pos same, if_pos same, same]
  · rw [if_neg same, if_neg same]

/-! ## What requests leave -/

/-- The requests that make an objective and bind it to a name. -/
inductive Makes : (Option String → Op α (Answer α)) → Prop
  | entries (es : List (EntryTerm α)) : Makes (objectiveOf es)
  | constant (t : Term α) : Makes (constantObjective t)
  | combine (minus : Bool) (a b : Term α) : Makes (combine minus a b)
  | negate (object : String) : Makes (negate object)
  | premultiply (object : String) (matrix : Term α) : Makes (premultiply object matrix)

omit name in
theorem Makes.binding {request : Option String → Op α (Answer α)} (h : Makes request)
    (name : Option String) : Keeps (Binding name) (request name) := by
  cases h with
  | entries es => exact binding_objectiveOf name es
  | constant t => exact binding_constantObjective name t
  | combine minus a b => exact binding_combine name minus a b
  | negate object => exact binding_negate name object
  | premultiply object matrix => exact binding_premultiply name object matrix

/-- What requests in a session do with an objective that a name is bound to. -/
structure Handles (o : MixedObjective α) : Prop where
  /-- A taken key is refused whatever the parts are. -/
  taken : ∀ key ∈ o.keys, ∀ (real imag : Input α) (l : Ledger),
    setParts o key real imag l = .error (.objective (.taken key)) l
  /-- A refused request to set an entry leaves everything as it was. -/
  refused : ∀ {object : String} {key : Id} {real imag : Term α} {s s' : Session α} {k : Nat}
    {f : Fault α}, s.names.lookup object = some (.thing k (.objective o)) →
    objectiveSet object key real imag s = .error f s' → Calm s s'
  /-- One that is not adds an entry at the end, and touches no other objective. -/
  grown : ∀ {object : String} {key : Id} {real imag : Term α} {s s' : Session α} {k : Nat}
    {answer : Answer α}, s.names.lookup object = some (.thing k (.objective o)) →
    objectiveSet object key real imag s = .ok answer s' →
    ∃ p o', o'.entries = o.entries ++ [(key, p)] ∧
      ∀ n j u, s.names.lookup n = some (.thing j (.objective u)) →
        s'.names.lookup n = some (.thing j (.objective (if j = k then o' else u)))

omit name in
theorem handles (o : MixedObjective α) : Handles o where
  taken _ held := setParts_taken held
  refused bound h := calm_of_objectiveSet_error bound h
  grown bound h := by
    obtain ⟨p, o', set, others⟩ := objectiveSet_ok bound h
    exact ⟨p, o', (MixedObjective.set_ok set).1, others⟩

end Session

/-! ## The rules of objectives -/

namespace MixedObjective

variable [Scalar α]

/-- For what reasons an operation on two objectives is refused, and that it is not refused
otherwise. -/
structure Refusals (a b : MixedObjective α) : Prop where
  set : ∀ key p f, a.set key p = .error f ↔ Objective.SetRefusal a.toObjective key p.toPart f
  sum : ∀ minus s t g,
    Datum.add minus (.thing s (.objective a)) (.thing t (.objective b) : Input α)
        = .error (.objective g) ↔ Objective.SumRefusal a.toObjective b.toObjective g
  /-- Without such a reason there is a sum and a difference. -/
  summed : ∀ minus s t, (∀ g, ¬Objective.SumRefusal a.toObjective b.toObjective g) →
    ∃ o, Datum.add minus (.thing s (.objective a)) (.thing t (.objective b) : Input α)
      = .ok (.thing 0 (.objective o))
  /-- A change of sign is never refused, nor are its entries when they are set one by one. -/
  neg : ∃ o, a.neg? = some o ∧ o.keys = a.keys ∧
    o.entries.foldlM (fun o e => o.set e.1 e.2) (empty : MixedObjective α) = .ok o
  product : ∀ M f, a.premultiply M = .error f ↔ ∃ n, a.toObjective.rows = some n ∧
    Coeffs.cols M.toCoeffs ≠ n ∧ f = .premultiply n (Coeffs.shape M.toCoeffs)
  multiplied : ∀ M o, a.premultiply M = .ok o → o.keys = a.keys ∧
    (a.entries ≠ [] → o.toObjective.rows = some (Coeffs.rows M.toCoeffs))

variable {a b : MixedObjective α}

theorem datum_add_error_iff {m k : Nat} (ha : a.toObjective.Uniform m)
    (hb : b.toObjective.Uniform k) (signed : b.Signed) (minus : Bool) (s t : Nat)
    {g : ObjectiveFault} :
    Datum.add minus (.thing s (.objective a)) (.thing t (.objective b) : Input α)
        = .error (.objective g) ↔ Objective.SumRefusal a.toObjective b.toObjective g := by
  obtain ⟨b', right, -, same⟩ := right_of_signed minus signed
  have refusal : Objective.SumRefusal a.toObjective b.toObjective g ↔ a.add b' = .error g := by
    rw [add_error_iff ha (same.uniform hb)]
    exact ⟨same.sumRefusal, same.symm.sumRefusal⟩
  rw [refusal, datum_add, right]
  dsimp only
  cases a.add b' with
  | ok o => exact ⟨fun h => (by cases h), fun h => (by cases h)⟩
  | error f =>
      constructor
      · intro h
        cases h
        rfl
      · intro h
        cases h
        rfl

theorem exists_datum_add {m k : Nat} (ha : a.toObjective.Uniform m)
    (hb : b.toObjective.Uniform k) (signed : b.Signed) (minus : Bool) (s t : Nat)
    (none : ∀ g, ¬Objective.SumRefusal a.toObjective b.toObjective g) :
    ∃ o, Datum.add minus (.thing s (.objective a)) (.thing t (.objective b) : Input α)
      = .ok (.thing 0 (.objective o)) := by
  obtain ⟨b', right, -, same⟩ := right_of_signed minus signed
  rw [datum_add, right]
  cases h : a.add b' with
  | ok o => exact ⟨o, by simp only [h]⟩
  | error f =>
      have why := (add_error_iff ha (same.uniform hb)).mp h
      exact absurd (same.symm.sumRefusal why) (none f)

/-- A product has the rows of the matrix and the keys of the objective. -/
theorem shape_premultiply {n : Nat} {o : MixedObjective α} {M : MixedCoeffs α}
    (ha : a.toObjective.Uniform n) (h : a.premultiply M = .ok o) :
    o.keys = a.keys ∧ (a.entries ≠ [] → o.toObjective.rows = some (Coeffs.rows M.toCoeffs)) := by
  obtain ⟨product, made, same, -⟩ := premultiply_ok ha h
  have keys : product.keys = a.keys :=
    (Objective.keys_premultiply made).trans (keys_toObjective a)
  refine ⟨by rw [← keys_toObjective o, ← same.keys, keys], fun some => ?_⟩
  rw [← same.rows]
  cases rows : product.rows with
  | some m => exact congrArg Option.some ((ha.premultiply made).rows_eq rows)
  | none =>
      have empty : product.keys = [] := by
        rw [Objective.keys, Objective.entries_of_rows rows]
        rfl
      exact absurd (List.map_eq_nil_iff.mp (keys.symm.trans empty)) some

theorem Built.refusals (ha : a.Built) (hb : b.Built) : a.Refusals b := by
  obtain ⟨signed_a, m, uniform_a⟩ := ha.keeps
  obtain ⟨signed_b, k, uniform_b⟩ := hb.keeps
  obtain ⟨o, neg, -, same⟩ := neg?_of_signed signed_a
  exact {
    set := fun _ _ _ => set_error_iff
    sum := fun minus s t _ => datum_add_error_iff uniform_a uniform_b signed_b minus s t
    summed := fun minus s t none => exists_datum_add uniform_a uniform_b signed_b minus s t none
    neg := by
      refine ⟨o, neg, ?_, foldlM_set (same.uniform uniform_a)⟩
      rw [← keys_toObjective o, ← same.keys, keys_toObjective]
    product := fun _ _ => premultiply_error_iff uniform_a
    multiplied := fun _ _ => shape_premultiply uniform_a }

/-- Whatever the operations make keeps to the invariant: keys are distinct, the parts of an
entry have one shape, and all entries have one number of rows.  Operations on it are refused
for the reasons given and for no other.  In a session an objective is changed by setting an
entry that was not there, and by nothing else: that is refused without a trace, and requests
that make objectives leave all other names as they were. -/
theorem invariant_and_refusals (ha : a.Built) (hb : b.Built) :
    (∃ n, a.toObjective.Uniform n) ∧ a.Refusals b ∧ Session.Handles a ∧
      ∀ {request : Option String → Op α (Answer α)}, Session.Makes request →
        ∀ name, Outcome.Keeps (Session.Binding name) (request name) :=
  ⟨ha.keeps.2, ha.refusals hb, Session.handles a, fun h name => h.binding name⟩

end MixedObjective

/-! ## An objective with integers -/

namespace Tallied

/-- Integers for a variable of two entries, and numbers for the constant. -/
def o : MixedObjective ℚ :=
  ⟨[(3, ⟨.words ⟨.whole, .identity 2⟩, .words (.zeros .whole 2 2)⟩),
    (constantKey, ⟨.numbers (.ofDense (.real (.ofRowMajor 2 1 #[1, 2]))), .numbers (.zeros 2 1)⟩)]⟩

/-- The same variable with three entries. -/
def wider : MixedObjective ℚ :=
  ⟨[(3, ⟨.words ⟨.byte, .ofDense (.ofRowMajor 2 3 #[1, 0, 0, 0, 1, 0])⟩,
    .words (.zeros .byte 2 3)⟩)]⟩

theorem o_built : o.Built :=
  .entries (by decide : ∀ e ∈ o.entries, e.2.Signed) (by with_unfolding_all rfl)

theorem wider_built : wider.Built :=
  .entries (by decide : ∀ e ∈ wider.entries, e.2.Signed) (by with_unfolding_all rfl)

/-- Their difference is refused for the columns, and setting the constant once more for the
key although the parts would not fit either. -/
theorem refused_columns_and_key :
    o.Built ∧ wider.Built ∧
      Datum.add true (.thing 1 (.objective o)) (.thing 2 (.objective wider) : Input ℚ)
        = .error (.objective .sumColumns) ∧
      o.set constantKey ⟨.numbers (.zeros 3 1), .numbers (.zeros 2 1)⟩
        = .error (.taken constantKey) := by
  obtain ⟨-, refusals, -, -⟩ := MixedObjective.invariant_and_refusals o_built wider_built
  refine ⟨o_built, wider_built, (refusals.sum true 1 2 _).mpr ?_, (refusals.set _ _ _).mpr ?_⟩
  · refine .columns ?_ (rfl : o.toObjective.get? 3 = some _) rfl ?_
    · intro m n hm hn
      cases hm
      cases hn
      rfl
    · decide +kernel
  · exact .taken (by decide)

end Tallied

end ConicModel
