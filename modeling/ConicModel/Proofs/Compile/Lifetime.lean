/-
# What a cache keeps over its life

A property that no step of a walk breaks (`Maintained`) is preserved by runs; that is a part
of `Brought`.  Here it is followed further: through the walks that are refused, which stop
between two of the steps (`Refused.leaves`), and through the operations of the session
between two calls.

Such a property is relative to the nodes made so far, and the nodes that a session knows are
not all of them.  The constraints of signs are made by walks, and nobody but the cache sees
them; yet an entry of the cache may be that of such a constraint.  So they are carried along
beside the session (`Bench.Made`).  Operations of the session do not mind, because what is
possible among some nodes is possible among more (`Step.widen`).
-/
import ConicModel.Proofs.Compile.Retry

namespace ConicModel

variable {α : Type} [Scalar α] {κ ρ : Type} [Compiled α κ ρ]

/-! ## What a task leaves -/

/-- What lies between two passes, whether or not a task was refused in between: the
constraints `S` were made for signs of free variables, and what walks maintain was
maintained. -/
structure Leaves (vars : Vars α) (N : Set (Node α)) (p q : Pass κ ρ) (S : Signs α) : Prop where
  coherent : Coherent vars (joined N S) q.ledger.nextId
  signs : SignsOf vars N S
  free : ∀ x c, (x, c) ∈ S → (vars.state x).fixed = false
  keeps : ∀ I, Maintained vars I → I N p → I (joined N S) q

namespace Leaves

variable {vars : Vars α} {N : Set (Node α)} {p q s : Pass κ ρ} {S S' : Signs α}

/-- What was done to a pass without making a constraint for a sign. -/
theorem plain (coherent : Coherent vars N q.ledger.nextId)
    (keeps : ∀ I, Maintained vars I → I N p → I N q) : Leaves vars N p q [] where
  coherent := (joined_nil N).symm ▸ coherent
  signs x c h := by cases h
  free x c h := by cases h
  keeps I maintained h := (joined_nil N).symm ▸ keeps I maintained h

theorem refl (coherent : Coherent vars N p.ledger.nextId) : Leaves vars N p p [] :=
  .plain coherent fun _ _ h => h

theorem note (coherent : Coherent vars N p.ledger.nextId) (doubts : List Doubt) :
    Leaves vars N p (p.note doubts) [] :=
  .plain coherent fun _ maintained h => maintained.spend _ h

theorem enterVar (coherent : Coherent vars N p.ledger.nextId) {x : Variable}
    (hx : .expr (.var x) ∈ N) (free : (vars.state x).fixed = false) :
    Leaves vars N p
      (p.enterExpr x.id (Compiled.ofObjective (.ofVariable x (vars.state x).sign))) [] :=
  .plain coherent fun _ maintained h => maintained.free coherent hx free h

theorem of_brought {R : Set (Node α)} {E : Set Variable} (h : Brought vars N R E p q S) :
    Leaves vars N p q S :=
  ⟨h.coherent, h.signsOf,
    fun x c hc => VarState.curvature_eq_affine_iff.mp (h.made x c hc).signed.1, h.keeps⟩

/-- One thing after the other. -/
theorem seq (h : Leaves vars N p q S) (h' : Leaves vars (joined N S) q s S') :
    Leaves vars N p s (S ++ S') where
  coherent := joined_append N S S' ▸ h'.coherent
  signs x c hc := by
    rcases List.mem_append.mp hc with hc | hc
    · exact h.signs x c hc
    · exact ⟨h.signs.var_mem (h'.signs x c hc).1, (h'.signs x c hc).2⟩
  free x c hc := (List.mem_append.mp hc).elim (h.free x c) (h'.free x c)
  keeps I maintained holds :=
    joined_append N S S' ▸ h'.keeps I maintained (h.keeps I maintained holds)

/-- The same where the first has made nothing. -/
theorem after (h : Leaves vars N p q []) (h' : Leaves vars N q s S) : Leaves vars N p s S :=
  h.seq ((joined_nil N).symm ▸ h')

/-- The constraint of a sign is made, and something is done with it. -/
theorem sign {x : Variable} {c : Constraint α} {l : Ledger}
    (coherent : Coherent vars N p.ledger.nextId) (hx : .expr (.var x) ∈ N)
    (free : (vars.state x).fixed = false)
    (made : signConstraint vars (.var x) p.ledger = .ok c l)
    (h : Leaves vars (gain N (.constraint c)) (p.spend l) q S) :
    Leaves vars N p q ((x, c) :: S) where
  coherent := joined_cons N x c S ▸ h.coherent
  signs y d hd := by
    rcases List.mem_cons.mp hd with hd | hd
    · cases hd
      exact ⟨hx, (signConstraint_ok made).1⟩
    · have gained := coherent.roster.gain_sign coherent.pos hx made
      exact ⟨gained.vars y (h.signs y d hd).1, (h.signs y d hd).2⟩
  free y d hd := by
    rcases List.mem_cons.mp hd with hd | hd
    · cases hd
      exact free
    · exact h.free y d hd
  keeps I maintained holds := by
    rw [joined_cons]
    exact h.keeps I maintained (maintained.spend l (maintained.mono (subset_gain N _) holds))

end Leaves

/-! ### Runs and refusals -/

section Tasks

variable {vars : Vars α} {N : Set (Node α)} {p q : Pass κ ρ}

theorem Run.leaves {e : Expr α} {o : κ} (h : Run vars (.expr e o) p q)
    (coherent : Coherent vars N p.ledger.nextId) (he : .expr e ∈ N) :
    ∃ S, Leaves vars N p q S := by
  obtain ⟨S, brought⟩ := h.delivers N coherent (Set.singleton_subset_iff.mpr he)
  exact ⟨S, .of_brought brought⟩

theorem Run.leaves_attached {items : List (Attached α)}
    (h : Run (κ := κ) vars (.attached items) p q) (coherent : Coherent vars N p.ledger.nextId)
    (within : ∀ n, .node n ∈ items → n ∈ N) : ∃ S, Leaves vars N p q S := by
  obtain ⟨S, brought⟩ := h.delivers N coherent within
  exact ⟨S, .of_brought brought⟩

/-- A task that was given up leaves what walks maintain, as far as it came.  Signs are a task
of free variables only. -/
theorem Refused.leaves {task : Task α} {f : Fault α} (h : Refused vars task p f q)
    (coherent : Coherent vars N p.ledger.nextId) (within : task.Within N)
    (opened : ∀ x, task = .sign x → (vars.state x).fixed = false) :
    ∃ S, Leaves vars N p q S := by
  induction h generalizing N with
  | unvalued doubts | left doubts => exact ⟨[], .note coherent doubts⟩
  | foreign => exact ⟨[], .refl coherent⟩
  | sign new free _ ih =>
      have entered := Leaves.enterVar coherent within free
      obtain ⟨S, leaves⟩ := ih coherent within fun y hy => by
        cases hy
        exact free
      exact ⟨S, entered.after leaves⟩
  | @brought x f p q q' new free sign _ ih =>
      have entered := Leaves.enterVar coherent within free
      obtain ⟨S, brought, -⟩ := sign.delivers N coherent within
        (VarState.curvature_eq_affine_iff.mpr free) (Pass.holds_enterExpr.mpr (.inr rfl))
      have attached := (coherent.respects x within).attached
      obtain ⟨S', leaves⟩ := ih brought.coherent (fun n hn => subset_joined N S (attached n hn))
        nofun
      exact ⟨S ++ S', entered.after ((Leaves.of_brought brought).seq leaves)⟩
  | operand doubts _ _ _ _ ih =>
      obtain ⟨S, leaves⟩ := ih coherent (coherent.roster.kron within).2 nofun
      exact ⟨S, (Leaves.note coherent doubts).after leaves⟩
  | product doubts _ _ _ below =>
      obtain ⟨S, leaves⟩ := below.leaves coherent (coherent.roster.kron within).2
      exact ⟨S, (Leaves.note coherent doubts).after leaves⟩
  | lhs _ _ ih => exact ih coherent (coherent.roster.sides within).1 nofun
  | rhs _ lhs _ ih =>
      obtain ⟨hl, hr⟩ := coherent.roster.sides within
      obtain ⟨S, first⟩ := lhs.leaves coherent hl
      obtain ⟨S', second⟩ := ih first.coherent (subset_joined N S hr) nofun
      exact ⟨S ++ S', first.seq second⟩
  | between _ lhs rhs =>
      obtain ⟨hl, hr⟩ := coherent.roster.sides within
      obtain ⟨S, first⟩ := lhs.leaves coherent hl
      obtain ⟨S', second⟩ := rhs.leaves first.coherent (subset_joined N S hr)
      exact ⟨S ++ S', first.seq second⟩
  | @signed x c f l p q yes made _ ih =>
      have gained := coherent.roster.gain_sign coherent.pos within made
      obtain ⟨S, leaves⟩ := ih (coherent.gain gained) (mem_gain N _) nofun
      exact ⟨(x, c) :: S, leaves.sign coherent within (opened x rfl) made⟩
  | @item n items f p q _ ih =>
      refine ih coherent (Node.task_within.mpr (within _ List.mem_cons_self)) fun y hy => ?_
      cases n <;> cases hy
  | @later n items f p q q' first _ ih =>
      obtain ⟨S, done⟩ := first.leaves_attached coherent fun m hm => by
        cases List.mem_singleton.mp hm
        exact within n List.mem_cons_self
      obtain ⟨S', leaves⟩ := ih done.coherent (fun m hm =>
        subset_joined N S (within m (List.mem_cons_of_mem _ hm))) nofun
      exact ⟨S ++ S', done.seq leaves⟩

/-- A call leaves what walks maintain, whether it is refused or not. -/
theorem leaves_of_compileNode {n : Node α} {x : Returned κ ρ}
    (h : compileNode vars n p = .ok x q) (coherent : Coherent vars N p.ledger.nextId)
    (hn : n ∈ N) : ∃ S, Leaves vars N p q S := by
  refine (Run.cons_of_compileNode h .nil).1.leaves_attached coherent fun m hm => ?_
  cases List.mem_singleton.mp hm
  exact hn

theorem leaves_of_refused {n : Node α} {f : Fault α} (h : compileNode vars n p = .error f q)
    (coherent : Coherent vars N p.ledger.nextId) (hn : n ∈ N) : ∃ S, Leaves vars N p q S :=
  (refused_of_compileNode h).leaves coherent (Node.task_within.mpr hn) fun x hx => by
    cases n <;> cases hx

end Tasks

/-! ## Sessions among more nodes -/

section Sessions

omit [Compiled α κ ρ] κ ρ

/-- The world with more nodes than were made in it. -/
def World.widen (w : World α) (E : Set (Node α)) : World α := ⟨w.model, w.nodes ∪ E⟩

theorem Change.mono {N M : Set (Node α)} {x : Variable} {f : Vars α → Make α (Vars α)}
    (h : Change N x f) (sub : N ⊆ M) : Change M x f := by
  cases h with
  | assign d => exact .assign d
  | fix => exact .fix
  | fixAt d => exact .fixAt d
  | free => exact .free
  | sign s => exact .sign s
  | kind k => exact .kind k
  | attached items h => exact .attached items fun n hn => sub (h n hn)

omit [Scalar α] in
theorem World.widen_make (w : World α) (E : Set (Node α)) (l : Ledger) (n : Node α) :
    (w.make l n).widen E = (w.widen E).make l n := by
  have nodes : gain w.nodes n ∪ E = gain (w.nodes ∪ E) n := by
    ext m
    simp only [gain, Set.mem_union, Set.mem_ofPred_eq, or_assoc]
  rw [widen, make, make, nodes]
  rfl

/-- What is possible among some nodes is possible among more. -/
theorem Step.widen {w w' : World α} (h : Step w w') (E : Set (Node α)) :
    Step (w.widen E) (w'.widen E) := by
  have sub : w.nodes ⊆ w.nodes ∪ E := Set.subset_union_left
  cases h with
  | spend l h => exact .spend (w.widen E) l h
  | constant d sign c l h =>
      rw [World.widen_make]
      exact .constant (w.widen E) d sign c l h
  | kron a b e l ha hb h =>
      rw [World.widen_make]
      exact .kron (w.widen E) a b e l (ha.mono sub) (hb.mono sub) h
  | constraint relation dl dr c l hl hr h =>
      rw [World.widen_make]
      exact .constraint (w.widen E) relation dl dr c l (hl.mono sub) (hr.mono sub) h
  | declare spec x m h =>
      have nodes (P : Node α → Prop) : {n | n = .expr (.var x) ∨ n ∈ w.nodes ∨ P n} ∪ E
          = {n | n = .expr (.var x) ∨ n ∈ w.nodes ∪ E ∨ P n} := by
        ext n
        simp only [Set.mem_union, Set.mem_ofPred_eq]
        tauto
      rw [World.widen, World.widen, nodes]
      exact .declare (w.widen E) spec x m h
  | change x f m hx hf h => exact .change (w.widen E) x f m (sub hx) (hf.mono sub) h
  | register name n m hn h => exact .register (w.widen E) name n m (sub hn) h
  | clear name m h => exact .clear (w.widen E) name m h
  | setCurrent name previous m h => exact .setCurrent (w.widen E) name previous m h
  | load name d layout m h => exact .load (w.widen E) name d layout m h

/-- Nodes are never lost. -/
theorem Step.nodes_subset {w w' : World α} (h : Step w w') : w.nodes ⊆ w'.nodes := by
  cases h with
  | spend | change | register | clear | setCurrent | load => exact Set.Subset.refl _
  | constant | kron | constraint => exact subset_gain _ _
  | declare => exact fun n hn => .inr (.inl hn)

end Sessions

/-! ## The life of a cache -/

/-- The nodes of a session and the nodes `E` that calls have made, which are constraints of
signs that variables had at some time, and what those are made of. -/
structure Bench.Made (b : Bench α κ ρ) (E : Set (Node α)) : Prop where
  sound : (b.world.widen E).Sound
  var : ∀ x, .expr (.var x) ∈ E → .expr (.var x) ∈ b.world.nodes
  constraint : ∀ c, .constraint c ∈ E → .constraint c ∈ b.world.nodes ∨
    ∃ (vars : Vars α) (x : Variable), .expr (.var x) ∈ b.world.nodes ∧ c.IsSignOf vars x

namespace Bench.Made

variable {b : Bench α κ ρ} {E : Set (Node α)}

omit [Compiled α κ ρ] in
theorem session {w w' : World α} {cache : Cache κ ρ}
    (h : Bench.Made ⟨w, cache⟩ E) (step : ConicModel.Step w w') :
    Bench.Made ⟨w', cache⟩ E where
  sound := (step.widen E).sound h.sound
  var x hx := step.nodes_subset (h.var x hx)
  constraint c hc := by
    rcases h.constraint c hc with known | ⟨vars, x, hx, isSignOf⟩
    · exact .inl (step.nodes_subset known)
    · exact .inr ⟨vars, x, step.nodes_subset hx, isSignOf⟩

/-- A call may make constraints for the signs of the present state. -/
theorem call (h : b.Made E) {q : Pass κ ρ} {S : Signs α}
    (leaves : Leaves b.world.vars (b.world.nodes ∪ E) b.pass q S) :
    (b.after q).Made (joined (b.world.nodes ∪ E) S) := by
  have known (x : Variable) (hx : .expr (.var x) ∈ b.world.nodes ∪ E) :
      .expr (.var x) ∈ b.world.nodes := hx.elim id (h.var x)
  have sub : b.world.nodes ⊆ joined (b.world.nodes ∪ E) S :=
    Set.subset_union_left.trans (subset_joined _ S)
  have nodes : b.world.nodes ∪ joined (b.world.nodes ∪ E) S = joined (b.world.nodes ∪ E) S :=
    Set.union_eq_self_of_subset_left sub
  refine ⟨⟨?_, fun c hc n hn => ?_⟩, fun x hx => known x (leaves.signs.var_mem hx),
    fun c hc => ?_⟩
  · show Coherent b.world.vars (b.world.nodes ∪ joined (b.world.nodes ∪ E) S) q.ledger.nextId
    exact nodes.symm ▸ leaves.coherent
  · exact .inr (subset_joined _ S (h.sound.registered c hc n hn))
  · rcases leaves.signs.constraint_mem hc with (old | old) | ⟨x, hx, isSignOf⟩
    · exact .inl old
    · exact h.constraint c old
    · exact .inr ⟨_, x, known x hx, isSignOf⟩

end Bench.Made

/-- What no step of a walk breaks, in whatever state, holds of a cache at every moment of its
life if it holds of empty caches. -/
theorem Bench.Arises.keeps {I : Set (Node α) → Pass κ ρ → Prop}
    (maintained : ∀ vars, Maintained vars I)
    (fresh : ∀ N (p : Pass κ ρ), p.cache = {} → I N p) {b : Bench α κ ρ} (h : b.Arises) :
    ∃ E, b.Made E ∧ I (b.world.nodes ∪ E) b.pass := by
  have call {b : Bench α κ ρ} {E : Set (Node α)} {q : Pass κ ρ} {S : Signs α} (made : b.Made E)
      (holds : I (b.world.nodes ∪ E) b.pass)
      (leaves : Leaves b.world.vars (b.world.nodes ∪ E) b.pass q S) :
      ∃ E, (b.after q).Made E ∧ I ((b.after q).world.nodes ∪ E) (b.after q).pass :=
    ⟨_, made.call leaves, (maintained b.world.vars).mono Set.subset_union_right
      (leaves.keeps I (maintained _) holds)⟩
  induction h with
  | @empty w reachable =>
      refine ⟨∅, ⟨?_, fun x hx => hx.elim, fun c hc => hc.elim⟩, fresh _ _ rfl⟩
      rw [World.widen, Set.union_empty]
      exact reachable.sound
  | @session w w' cache before step ih =>
      obtain ⟨E, made, holds⟩ := ih
      refine ⟨E, made.session step, ?_⟩
      exact (maintained w.vars).mono (Set.union_subset_union_left E step.nodes_subset)
        ((maintained w.vars).spend w'.ledger holds)
  | compiled before made h ih =>
      obtain ⟨E, sound, holds⟩ := ih
      obtain ⟨S, leaves⟩ := leaves_of_compileNode h sound.sound.coherent (.inl made)
      exact call sound holds leaves
  | refused before made h ih =>
      obtain ⟨E, sound, holds⟩ := ih
      obtain ⟨S, leaves⟩ := leaves_of_refused h sound.sound.coherent (.inl made)
      exact call sound holds leaves

end ConicModel
