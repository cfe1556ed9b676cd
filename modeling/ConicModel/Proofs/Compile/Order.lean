/-
# The order of calls

Which call comes to a variable first, and on which detour a product or a constraint is
entered, depends on the order in which the roots are compiled.  What is there at the end
does not.  By `HoldsClosure` there are entries for the closure of the roots, which is the
same set in any order up to the constraints of signs, and by `Pass.Tells` every entry is
the form of its node, in which no order occurs.

The constraints of signs and their zeros have identities of their own in each pass.  They
are matched by their variables (`Matches`), and along that matching the one list of records
is a rearrangement of the other.

That the calls succeed in the other order as well is shown the other way round: a refusal
is due to a faulty node that the roots reach (`Refused.blames`), and the first pass, which
holds that node, could not have been made.
-/
import ConicModel.Proofs.Compile.Blame
import Mathlib.Data.List.Perm.Basic

namespace ConicModel

/-! ## Tables with the same entries under other names -/

/-- Two tables without repetitions have the same items if their identities are matched. -/
theorem Table.items_perm {β : Type} {t u : Table β} (ht : t.ids.Nodup) (hu : u.ids.Nodup)
    {σ : Id → Id} (inj : ∀ i ∈ t.ids, ∀ j ∈ t.ids, σ i = σ j → i = j)
    (onto : ∀ j ∈ u.ids, ∃ i ∈ t.ids, σ i = j)
    (same : ∀ i x, t.get? i = some x → u.get? (σ i) = some x) : t.items.Perm u.items := by
  have renamed : (Table.ids (t.map fun e => (σ e.1, e.2))).Nodup := by
    have ids : Table.ids (t.map fun e => (σ e.1, e.2)) = t.ids.map σ := by
      simp only [Table.ids, List.map_map, Function.comp_def]
    rw [ids]
    exact (List.nodup_map_iff_inj_on ht).mpr inj
  have members (e : Id × β) : e ∈ t.map (fun e => (σ e.1, e.2)) ↔ e ∈ u := by
    constructor
    · intro he
      obtain ⟨d, hd, rfl⟩ := List.mem_map.mp he
      exact mem_of_get? (same d.1 d.2 (get?_of_mem ht hd))
    · intro he
      obtain ⟨i, hi, hσ⟩ := onto e.1 (mem_ids_of_mem he)
      obtain ⟨x, hx⟩ := exists_get? hi
      have found : u.get? e.1 = some x := hσ ▸ same i x hx
      cases found.symm.trans (get?_of_mem hu he)
      exact List.mem_map.mpr ⟨(i, e.2), mem_of_get? hx, by rw [hσ]⟩
  have perm : (t.map fun e => (σ e.1, e.2)).Perm u :=
    (List.perm_ext_iff_of_nodup renamed.of_map hu.of_map).mpr members
  have items : t.items = Table.items (t.map fun e => (σ e.1, e.2)) := by
    simp only [Table.items, List.map_map, Function.comp_def]
  exact items ▸ perm.map _

variable {α : Type} [Scalar α] {κ ρ : Type} [Compiled α κ ρ]

omit [Scalar α] in
/-- Only constraints are attached to variables. -/
def World.AttachesConstraints (w : World α) : Prop :=
  ∀ x, .expr (.var x) ∈ w.nodes → ∀ item ∈ (w.vars.state x).attached,
    ∃ c, item = .node (.constraint c)

theorem Looped.attachesConstraints : world.AttachesConstraints := by
  intro y hy item hitem
  cases eq_x hy
  exact ⟨bound, List.mem_singleton.mp hitem⟩

/-! ## The closure without the signs -/

/-- What is brought in is brought in without the constraints of signs, or is such a
constraint or its zero. -/
theorem Closure.unsigned {vars : Vars α} {N R : Set (Node α)} {S : Signs α} {n : Node α}
    (h : Closure vars S R n) (signs : SignsOf vars N S) :
    Closure vars [] R n ∨ ∃ x c, (x, c) ∈ S ∧ Closure vars [] R (.expr (.var x)) ∧
      (n = .constraint c ∨ n = .expr c.rhs) := by
  induction h with
  | root h => exact .inl (.root h)
  | step _ brings ih =>
      rcases ih with plain | ⟨x, c, hc, hx, rfl | rfl⟩
      · cases brings with
        | lhs c => exact .inl (.step plain (.lhs c))
        | rhs c => exact .inl (.step plain (.rhs c))
        | right h => exact .inl (.step plain (.right h))
        | attached free h => exact .inl (.step plain (.attached free h))
        | sign signed h => exact .inr ⟨_, _, h, plain, .inl rfl⟩
      · cases brings with
        | lhs => exact .inl ((signs x c hc).2.lhs ▸ hx)
        | rhs => exact .inr ⟨x, c, hc, hx, .inr rfl⟩
      · obtain ⟨k, hk, -⟩ := (signs x c hc).2.rhs
        rw [hk] at brings
        cases brings

/-! ## A pass from an empty cache -/

/-- What a pass from an empty cache holds: the closure of the roots, and of each node in it
the form. -/
structure Filled (vars : Vars α) (N : Set (Node α)) (start : Id) (S : Signs α)
    (roots : Set (Node α)) (q : Pass κ ρ) : Prop where
  sub : roots ⊆ N
  below : ∀ n ∈ N, n.id < start
  closure : HoldsClosure vars N start S roots q
  coherent : Coherent vars (joined N S) q.ledger.nextId
  tells : q.Tells vars (joined N S)
  signsOf : SignsOf vars N S
  single : ∀ x c d, (x, c) ∈ S → (x, d) ∈ S → c = d
  zero_fresh : ∀ x c, (x, c) ∈ S → start ≤ c.rhs.id

theorem Filled.of_run {w : World α} (reachable : Reachable w) {roots : List (Node α)}
    (made : ∀ n ∈ roots, n ∈ w.nodes) {q : Pass κ ρ}
    (run : Run (κ := κ) w.vars (.attached (roots.map .node)) ⟨w.ledger, {}⟩ q) :
    ∃ S, Filled w.vars w.nodes w.ledger.nextId S {n | n ∈ roots} q := by
  have listed {n : Node α} : .node n ∈ roots.map Attached.node ↔ n ∈ roots := by
    simp
  obtain ⟨S, brought⟩ := run.delivers w.nodes reachable.sound.coherent
    fun n hn => made n (listed.mp hn)
  have reached : Brought w.vars w.nodes {n | n ∈ roots} ∅ ⟨w.ledger, {}⟩ q S :=
    brought.reroot fun r hr => .root (listed.mp hr)
  exact ⟨S,
    { sub := made
      below := reachable.sound.coherent.roster.lt
      closure := reached.holdsClosure run.grows rfl made fun n hn => run.done n (listed.mpr hn)
      coherent := reached.coherent
      tells := reached.tells (.of_empty _ rfl)
      signsOf := reached.signsOf
      single := reached.single
      zero_fresh := fun x c hc => (reached.made x c hc).zero_fresh }⟩

/-- One call for one node. -/
theorem Filled.of_compileNode {w : World α} (reachable : Reachable w) {n : Node α}
    (made : n ∈ w.nodes) {x : Returned κ ρ} {q : Pass κ ρ}
    (h : compileNode w.vars n ⟨w.ledger, {}⟩ = .ok x q) :
    ∃ S, Filled w.vars w.nodes w.ledger.nextId S {k | k ∈ [n]} q := by
  refine Filled.of_run reachable (fun k hk => ?_) (Run.cons_of_compileNode h .nil).1
  rwa [List.mem_singleton.mp hk]

namespace Filled

variable {vars : Vars α} {N R R' : Set (Node α)} {start : Id} {S S' : Signs α} {q q' : Pass κ ρ}

theorem expr (h : Filled vars N start S R q) {e : Expr α} (he : Closure vars S R (.expr e)) :
    ∃ o, q.cache.exprs.get? e.id = some o ∧ e.form vars = .ok o := by
  have held : q.Holds (Node.expr e).key := (h.closure.entries _).mpr ⟨_, he, rfl⟩
  obtain ⟨o, ho⟩ := Table.exists_get? held
  exact ⟨o, ho, h.tells.form h.coherent (he.mem_joined h.sub h.coherent) ho⟩

theorem constraint (h : Filled vars N start S R q) {c : Constraint α}
    (hc : Closure vars S R (.constraint c)) :
    ∃ r, q.cache.constraints.get? c.id = some r ∧ c.form κ vars = .ok r := by
  have held : q.Holds (Node.constraint c).key := (h.closure.entries _).mpr ⟨_, hc, rfl⟩
  obtain ⟨r, hr⟩ := Table.exists_get? held
  exact ⟨r, hr, h.tells.form_constraint h.coherent (hc.mem_joined h.sub h.coherent) hr⟩

/-- The constraint of a sign is brought in, because its variable is. -/
theorem sign_closure (h : Filled vars N start S R q) {x : Variable} {c : Constraint α}
    (hc : (x, c) ∈ S) : Closure vars S R (.constraint c) :=
  have signs := h.closure.signs x c hc
  .step signs.1 (.sign signs.2.1 hc)

/-- A node of the closure is not faulty, unless something foreign is attached to it. -/
theorem not_faulty_of_attached (h : Filled vars N start S R q) {n : Node α}
    (closure : Closure vars S R n)
    (nodes : ∀ x d, n = .expr (.var x) → (vars.state x).fixed = false →
      .foreign d ∉ (vars.state x).attached) (f : Fault α) : ¬Faulty κ vars n f := by
  intro faulty
  cases faulty with
  | @expr e _ error =>
      obtain ⟨o, -, form⟩ := h.expr closure
      cases form.symm.trans error
  | @constraint c _ error =>
      obtain ⟨r, -, form⟩ := h.constraint closure
      cases form.symm.trans error
  | @foreign x d free mem => exact nodes x d rfl free mem
  | @sign x c _ signed isSignOf error =>
      -- The pass has lowered a constraint of this sign, which has the same form.
      obtain ⟨d, hd, -⟩ := h.closure.signed x closure signed
      obtain ⟨r, -, form⟩ := h.constraint (h.sign_closure hd)
      rw [isSignOf.form_eq (h.signsOf x d hd).2] at error
      cases form.symm.trans error

/-- No node of the closure is faulty. -/
theorem not_faulty {w : World α} (only : w.AttachesConstraints)
    (h : Filled w.vars w.nodes start S R q) {n : Node α} (hn : n ∈ w.nodes)
    (closure : Closure w.vars S R n) (f : Fault α) : ¬Faulty κ w.vars n f := by
  refine h.not_faulty_of_attached closure (fun x d hx _ mem => ?_) f
  subst hx
  obtain ⟨c, hc⟩ := only x hn _ mem
  cases hc

/-! ### Two passes -/

section Two

variable (h : Filled vars N start S R q) (h' : Filled vars N start S' R q')

include h h'

/-- Old expressions have the same entries. -/
theorem expr_kept {i : Id} (old : i < start) {o : κ} (held : q.cache.exprs.get? i = some o) :
    q'.cache.exprs.get? i = some o := by
  obtain ⟨n, hn, key⟩ := (h.closure.entries (.expr i)).mp (Table.mem_ids_of_get? held)
  cases n with
  | constraint c => cases key
  | expr e =>
      cases key
      rcases hn.unsigned h.signsOf with plain | ⟨x, c, hc, -, same | same⟩
      · obtain ⟨o₁, ho₁, form₁⟩ := h.expr hn
        obtain ⟨o₂, ho₂, form₂⟩ := h'.expr (plain.mono (List.nil_subset S'))
        cases held.symm.trans ho₁
        cases form₁.symm.trans form₂
        exact ho₂
      · cases same
      · cases same
        exact absurd (h.zero_fresh x c hc) (not_le.mpr old)

theorem constraint_kept {i : Id} (old : i < start) {r : ρ}
    (held : q.cache.constraints.get? i = some r) : q'.cache.constraints.get? i = some r := by
  obtain ⟨n, hn, key⟩ := (h.closure.entries (.constraint i)).mp (Table.mem_ids_of_get? held)
  cases n with
  | expr e => cases key
  | constraint c =>
      cases key
      rcases hn.unsigned h.signsOf with plain | ⟨x, d, hd, -, same | same⟩
      · obtain ⟨r₁, hr₁, form₁⟩ := h.constraint hn
        obtain ⟨r₂, hr₂, form₂⟩ := h'.constraint (plain.mono (List.nil_subset S'))
        cases held.symm.trans hr₁
        cases form₁.symm.trans form₂
        exact hr₂
      · cases same
        exact absurd (h.closure.signs x c hd).2.2.2 (not_le.mpr old)
      · cases same

/-- A sign that has a constraint in the one pass has one in the other. -/
theorem exists_sign {x : Variable} {c : Constraint α} (hc : (x, c) ∈ S) : ∃ d, (x, d) ∈ S' := by
  obtain ⟨hx, signed, -⟩ := h.closure.signs x c hc
  rcases hx.unsigned h.signsOf with plain | ⟨y, d, hd, -, same | same⟩
  · exact (h'.closure.signed x (plain.mono (List.nil_subset S')) signed).exists
  · cases same
  · obtain ⟨k, hk, -⟩ := (h.signsOf y d hd).2.rhs
    rw [hk] at same
    cases same

/-- The constraints of one sign have the same record in both passes, and their zeros the same
entry. -/
theorem sign_eq {x : Variable} {c d : Constraint α} (hc : (x, c) ∈ S) (hd : (x, d) ∈ S') :
    (∃ r, q.cache.constraints.get? c.id = some r ∧ q'.cache.constraints.get? d.id = some r) ∧
      ∃ o, q.cache.exprs.get? c.rhs.id = some o ∧ q'.cache.exprs.get? d.rhs.id = some o := by
  have left := h.sign_closure hc
  have right := h'.sign_closure hd
  have isSign := (h.signsOf x c hc).2
  have isSign' := (h'.signsOf x d hd).2
  constructor
  · obtain ⟨r, hr, form⟩ := h.constraint left
    obtain ⟨r', hr', form'⟩ := h'.constraint right
    rw [isSign.form_eq isSign'] at form
    cases form.symm.trans form'
    exact ⟨r, hr, hr'⟩
  · obtain ⟨o, ho, form⟩ := h.expr (left.step (.rhs c))
    obtain ⟨o', ho', form'⟩ := h'.expr (right.step (.rhs d))
    rw [isSign.zero_form_eq isSign'] at form
    cases form.symm.trans form'
    exact ⟨o, ho, ho'⟩

end Two

end Filled

/-! ## Records -/

/-- The identities of one constraint in two passes: it was there before, or it is the
constraint of one sign in both. -/
def Matches (start : Id) (S S' : Signs α) (i j : Id) : Prop :=
  (i = j ∧ i < start) ∨ ∃ x c d, (x, c) ∈ S ∧ (x, d) ∈ S' ∧ c.id = i ∧ d.id = j

omit [Scalar α] in
theorem Matches.symm {start : Id} {S S' : Signs α} {i j : Id} (h : Matches start S S' i j) :
    Matches start S' S j i := by
  rcases h with ⟨rfl, old⟩ | ⟨x, c, d, hc, hd, hi, hj⟩
  · exact .inl ⟨rfl, old⟩
  · exact .inr ⟨x, d, c, hd, hc, hj, hi⟩

namespace Filled

variable {vars : Vars α} {N R : Set (Node α)} {start : Id} {S S' : Signs α} {q q' : Pass κ ρ}

/-- The constraint of a sign has a new identity, and no other sign has the constraint. -/
theorem sign_unique (h : Filled vars N start S R q) {x y : Variable} {c d : Constraint α}
    (hc : (x, c) ∈ S) (hd : (y, d) ∈ S) (hid : c.id = d.id) : x = y := by
  cases h.closure.distinct _ _ (h.sign_closure hc) (h.sign_closure hd) hid
  have same : (Expr.var x : Expr α) = .var y :=
    (h.signsOf x c hc).2.lhs.symm.trans (h.signsOf y c hd).2.lhs
  cases same
  rfl

section Two

variable (h : Filled vars N start S R q) (h' : Filled vars N start S' R q')

include h h'

theorem exists_matches {i : Id} (held : i ∈ q.cache.constraints.ids) :
    ∃ j ∈ q'.cache.constraints.ids, Matches start S S' i j := by
  by_cases old : i < start
  · obtain ⟨r, hr⟩ := Table.exists_get? held
    exact ⟨i, Table.mem_ids_of_get? (h.constraint_kept h' old hr), .inl ⟨rfl, old⟩⟩
  obtain ⟨n, hn, key⟩ := (h.closure.entries (.constraint i)).mp held
  cases n with
  | expr e => cases key
  | constraint c =>
      cases key
      rcases h.closure.old c hn with made | ⟨x, hx⟩
      · exact absurd (h.below _ made) old
      · obtain ⟨d, hd⟩ := h.exists_sign h' hx
        obtain ⟨⟨r, -, hr⟩, -⟩ := h.sign_eq h' hx hd
        exact ⟨d.id, Table.mem_ids_of_get? hr, .inr ⟨x, c, d, hx, hd, rfl, rfl⟩⟩

/-- Matched identities have the same record. -/
theorem matches_eq {i j : Id} (m : Matches start S S' i j) {r : ρ}
    (held : q.cache.constraints.get? i = some r) : q'.cache.constraints.get? j = some r := by
  rcases m with ⟨rfl, old⟩ | ⟨x, c, d, hc, hd, rfl, rfl⟩
  · exact h.constraint_kept h' old held
  · obtain ⟨⟨s, hs, hs'⟩, -⟩ := h.sign_eq h' hc hd
    cases held.symm.trans hs
    exact hs'

theorem matches_unique {i j k : Id} (hi : Matches start S S' i k) (hj : Matches start S S' j k) :
    i = j := by
  have fresh {x : Variable} {d : Constraint α} (hd : (x, d) ∈ S') (old : d.id < start) : False :=
    absurd (h'.closure.signs x d hd).2.2.2 (not_le.mpr old)
  rcases hi with ⟨rfl, old⟩ | ⟨x, c, d, hc, hd, rfl, rfl⟩ <;>
    rcases hj with ⟨rfl, old'⟩ | ⟨y, c', d', hc', hd', rfl, hk⟩
  · rfl
  · exact (fresh hd' (hk ▸ old)).elim
  · exact (fresh hd old').elim
  · obtain rfl : y = x := h'.sign_unique hd' hd hk
    rw [h.single y c c' hc hc']

theorem records_perm : q.cache.records.Perm q'.cache.records := by
  rw [h.closure.records, h'.closure.records]
  have total (i : Id) : ∃ j, i ∈ q.cache.constraints.ids → Matches start S S' i j := by
    by_cases hi : i ∈ q.cache.constraints.ids
    · obtain ⟨j, -, hj⟩ := h.exists_matches h' hi
      exact ⟨j, fun _ => hj⟩
    · exact ⟨i, fun hi' => (hi hi').elim⟩
  choose σ hσ using total
  refine Table.items_perm h.closure.constraints_nodup h'.closure.constraints_nodup
    (σ := σ) ?_ ?_ ?_
  · intro i hi j hj same
    exact h.matches_unique h' (hσ i hi) (same ▸ hσ j hj)
  · intro j hj
    obtain ⟨i, hi, m⟩ := h'.exists_matches h hj
    exact ⟨i, hi, h'.matches_unique h (hσ i hi).symm m⟩
  · intro i r held
    exact h.matches_eq h' (hσ i (Table.mem_ids_of_get? held)) held

end Two

end Filled

/-! ## Any order -/

/-- Two passes agree up to the identities that each has made for the constraints of signs. -/
structure Pass.Agree (start : Id) (S S' : Signs α) (q q' : Pass κ ρ) : Prop where
  exprs : ∀ i < start, q.cache.exprs.get? i = q'.cache.exprs.get? i
  constraints : ∀ i < start, q.cache.constraints.get? i = q'.cache.constraints.get? i
  /-- The same signs have constraints. -/
  signs : ∀ x, (∃ c, (x, c) ∈ S) ↔ ∃ d, (x, d) ∈ S'
  /-- The constraints of one sign have one record, and their zeros one entry. -/
  sign_entries : ∀ x c d, (x, c) ∈ S → (x, d) ∈ S' →
    (∃ r, q.cache.constraints.get? c.id = some r ∧ q'.cache.constraints.get? d.id = some r) ∧
      ∃ o, q.cache.exprs.get? c.rhs.id = some o ∧ q'.cache.exprs.get? d.rhs.id = some o
  records : q.cache.records.Perm q'.cache.records

theorem Filled.agree {vars : Vars α} {N R : Set (Node α)} {start : Id} {S S' : Signs α}
    {q q' : Pass κ ρ} (h : Filled vars N start S R q) (h' : Filled vars N start S' R q') :
    q.Agree start S S' q' where
  exprs _ old := Option.ext fun _ => ⟨h.expr_kept h' old, h'.expr_kept h old⟩
  constraints _ old := Option.ext fun _ => ⟨h.constraint_kept h' old, h'.constraint_kept h old⟩
  signs _ := ⟨fun ⟨_, hc⟩ => h.exists_sign h' hc, fun ⟨_, hd⟩ => h'.exists_sign h hd⟩
  sign_entries _ _ _ hc hd := h.sign_eq h' hc hd
  records := h.records_perm h'

/-- Where some roots were compiled, they are compiled in any order. -/
theorem Filled.compileNodes_total {w : World α} (reachable : Reachable w)
    (only : w.AttachesConstraints) {start : Id} {S : Signs α} {q : Pass κ ρ}
    {roots : List (Node α)} (h : Filled w.vars w.nodes start S {n | n ∈ roots} q) :
    ∃ xs q', compileNodes w.vars roots (⟨w.ledger, {}⟩ : Pass κ ρ) = .ok xs q' := by
  cases compiled : compileNodes w.vars roots (⟨w.ledger, {}⟩ : Pass κ ρ) with
  | ok xs q' => exact ⟨xs, q', rfl⟩
  | error f q' =>
      have listed {n : Node α} (hn : .node n ∈ roots.map Attached.node) : n ∈ roots := by
        simpa using hn
      have coherent := reachable.sound.coherent
      rcases (refused_of_compileNodes compiled).blames (N := w.nodes) coherent
        (fun n hn => h.sub (listed hn)) (.of_empty _ rfl) with ⟨-, d, hd⟩ | ⟨n, hn, m, hm, faulty⟩
      · simp at hd
      · have made : m ∈ w.nodes := hm.mem coherent (h.sub (listed hn))
        exact (h.not_faulty only made (hm.closure (listed hn) S) f faulty).elim

/-- If some roots are compiled into an empty cache, then so are they in any other order, and
the two caches agree: the nodes that were there before have the same entries, the
constraints of signs are matched by their variables and have the same records, and the
records of the one pass are those of the other, rearranged. -/
theorem compilation_order_irrelevant {w : World α} (reachable : Reachable w)
    (only : w.AttachesConstraints) {roots roots' : List (Node α)} (perm : roots.Perm roots')
    (made : ∀ n ∈ roots, n ∈ w.nodes) {xs : List (Returned κ ρ)} {q : Pass κ ρ}
    (h : compileNodes w.vars roots ⟨w.ledger, {}⟩ = .ok xs q) :
    ∃ xs' q' S S', compileNodes w.vars roots' ⟨w.ledger, {}⟩ = .ok xs' q' ∧
      HoldsClosure w.vars w.nodes w.ledger.nextId S {n | n ∈ roots} q ∧
      HoldsClosure w.vars w.nodes w.ledger.nextId S' {n | n ∈ roots'} q' ∧
      q.Agree w.ledger.nextId S S' q' := by
  have same : {n | n ∈ roots} = {n | n ∈ roots'} := Set.ext fun n => perm.mem_iff
  obtain ⟨S, first⟩ := Filled.of_run reachable made (run_of_compileNodes h).1
  have first' : Filled w.vars w.nodes w.ledger.nextId S {n | n ∈ roots'} q := same ▸ first
  obtain ⟨xs', q', h'⟩ := first'.compileNodes_total reachable only
  obtain ⟨S', second⟩ := Filled.of_run reachable (fun n hn => made n (perm.mem_iff.mpr hn))
    (run_of_compileNodes h').1
  exact ⟨xs', q', S, S', h', first.closure, second.closure, first'.agree second⟩

/-- In the cyclic world the bound may come before or after the expression that it bounds. -/
theorem looped_order_irrelevant : ∃ xs q,
    compileNodes Looped.world.vars [.constraint Looped.bound, .expr Looped.triple]
        (⟨Looped.world.ledger, {}⟩ : Pass (Objective ℚ) (Record ℚ)) = .ok xs q ∧
      q.cache.records.length = 2 ∧ ∃ xs' q' S S',
        compileNodes Looped.world.vars [.expr Looped.triple, .constraint Looped.bound]
          ⟨Looped.world.ledger, {}⟩ = .ok xs' q' ∧
        HoldsClosure Looped.world.vars Looped.world.nodes Looped.world.ledger.nextId S
          {n | n ∈ [.constraint Looped.bound, .expr Looped.triple]} q ∧
        HoldsClosure Looped.world.vars Looped.world.nodes Looped.world.ledger.nextId S'
          {n | n ∈ [.expr Looped.triple, .constraint Looped.bound]} q' ∧
        q.Agree Looped.world.ledger.nextId S S' q' := by
  obtain ⟨xs, q, compiled, both⟩ : ∃ xs q,
      compileNodes Looped.world.vars [.constraint Looped.bound, .expr Looped.triple]
        (⟨Looped.world.ledger, {}⟩ : Pass (Objective ℚ) (Record ℚ)) = .ok xs q ∧
      q.cache.records.length = 2 := by
    decide +kernel
  refine ⟨xs, q, compiled, both, compilation_order_irrelevant Looped.world_reachable
    Looped.attachesConstraints (List.Perm.swap _ _ _) (fun n hn => ?_) compiled⟩
  rcases List.mem_cons.mp hn with rfl | hn
  · exact Looped.bound_made
  · cases List.mem_singleton.mp hn
    exact Looped.triple_made

end ConicModel
