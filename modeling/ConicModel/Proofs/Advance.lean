/-
# Identities are never given back

Whatever is refused has taken identities up to there, and keeps them.  So nothing that
comes later can be mistaken for what was begun and never finished, and this has to be known
of programs that were refused as well as of those that came to their end.

A program *keeps* a relation if the state it leaves, refused or not, is so related to the
state it found (`Outcome.Keeps`).  For a preorder this goes along the text of a program.
Making things keeps the order of the next identities (`Make.Advances`).  What makes nothing,
such as a check or a notice, keeps even the next identity (`Make.Still`).
-/
import Mathlib.Order.Defs.Unbundled
import ConicModel.Proofs.Outcome
import ConicModel.Model

namespace ConicModel

/-! ## What a program leaves -/

namespace Outcome

variable {ε σ β γ : Type}

/-- The state that a program leaves, whether it was refused or not. -/
def left : EStateM.Result ε σ β → σ
  | .ok _ s | .error _ s => s

/-- The state left is related to the one that was found. -/
def Keeps (R : σ → σ → Prop) (p : EStateM ε σ β) : Prop := ∀ s, R s (left (p s))

theorem bind_of_ok {p : EStateM ε σ β} {s t : σ} {b : β} (h : p s = .ok b t)
    (f : β → EStateM ε σ γ) : (p >>= f) s = f b t := by
  show EStateM.bind p f s = f b t
  rw [EStateM.bind, h]

theorem bind_of_error {p : EStateM ε σ β} {s t : σ} {e : ε} (h : p s = .error e t)
    (f : β → EStateM ε σ γ) : (p >>= f) s = .error e t := by
  show EStateM.bind p f s = .error e t
  rw [EStateM.bind, h]

theorem left_map (g : β → γ) (p : EStateM ε σ β) (s : σ) : left ((g <$> p) s) = left (p s) := by
  show left (EStateM.map g p s) = left (p s)
  unfold EStateM.map
  cases p s <;> rfl

theorem left_discard (p : EStateM ε σ β) (s : σ) : left (discard p s) = left (p s) :=
  left_map _ p s

/-- A sequence leaves what its first step leaves, if that is refused, and otherwise what its
second step leaves. -/
theorem left_bind (p : EStateM ε σ β) (f : β → EStateM ε σ γ) (s : σ) :
    (∃ b t, p s = .ok b t ∧ left ((p >>= f) s) = left (f b t)) ∨
      ∃ e t, p s = .error e t ∧ left ((p >>= f) s) = t := by
  show (∃ b t, p s = .ok b t ∧ left (EStateM.bind p f s) = left (f b t)) ∨
    ∃ e t, p s = .error e t ∧ left (EStateM.bind p f s) = t
  unfold EStateM.bind
  cases p s with
  | ok b t => exact .inl ⟨b, t, rfl, rfl⟩
  | error e t => exact .inr ⟨e, t, rfl, rfl⟩

namespace Keeps

variable {R : σ → σ → Prop}

theorem ok {p : EStateM ε σ β} (h : Keeps R p) {s s' : σ} {b : β} (run : p s = .ok b s') :
    R s s' := by
  have kept := h s
  rwa [run] at kept

theorem error {p : EStateM ε σ β} (h : Keeps R p) {s s' : σ} {e : ε}
    (run : p s = .error e s') : R s s' := by
  have kept := h s
  rwa [run] at kept

theorem discard {p : EStateM ε σ β} (hp : Keeps R p) : Keeps R (discard p) := fun s => by
  rw [left_discard]
  exact hp s

variable [IsPreorder σ R]

theorem pure (b : β) : Keeps R (pure b : EStateM ε σ β) := refl_of R

theorem throw (e : ε) : Keeps R (throw e : EStateM ε σ β) := refl_of R

theorem bind {p : EStateM ε σ β} {f : β → EStateM ε σ γ} (hp : Keeps R p)
    (hf : ∀ b, Keeps R (f b)) : Keeps R (p >>= f) := by
  intro s
  rcases left_bind p f s with ⟨b, t, run, h⟩ | ⟨e, t, run, h⟩
  · rw [h]
    exact trans_of R (hp.ok run) (hf b t)
  · rw [h]
    exact hp.error run

theorem map {p : EStateM ε σ β} (g : β → γ) (hp : Keeps R p) : Keeps R (g <$> p) := by
  rw [map_eq_pure_bind]
  exact hp.bind fun b => pure (g b)

theorem mapM {f : β → EStateM ε σ γ} (hf : ∀ b, Keeps R (f b)) (xs : List β) :
    Keeps R (xs.mapM f) := by
  induction xs with
  | nil => exact pure []
  | cons x xs ih =>
      rw [List.mapM_cons]
      exact (hf x).bind fun _ => ih.bind fun _ => pure _

theorem forM {f : β → EStateM ε σ PUnit} {xs : List β} (hf : ∀ x ∈ xs, Keeps R (f x)) :
    Keeps R (xs.forM f) := by
  induction xs with
  | nil => exact fun s => refl_of R s
  | cons x xs ih =>
      exact (hf x List.mem_cons_self).bind fun _ =>
        ih fun y hy => hf y (List.mem_cons_of_mem x hy)

end Keeps

end Outcome

/-! ## Taking identities -/

/-- Nothing was given back between two ledgers. -/
def Ledger.Before (l l' : Ledger) : Prop := l.nextId ≤ l'.nextId

instance : IsPreorder Ledger Ledger.Before where
  refl l := Int.le_refl l.nextId
  trans _ _ _ h h' := Int.le_trans h h'

/-- Nothing was taken between two ledgers. -/
def Ledger.Level (l l' : Ledger) : Prop := l'.nextId = l.nextId

instance : IsPreorder Ledger Ledger.Level where
  refl _ := rfl
  trans _ _ _ h h' := Eq.trans h' h

namespace Make

variable {α β : Type}

/-- Identities are taken at most, also by what is refused. -/
def Advances (f : Make α β) : Prop := Outcome.Keeps Ledger.Before f

/-- No identity is taken, also by what is refused. -/
def Still (f : Make α β) : Prop := Outcome.Keeps Ledger.Level f

theorem Still.advances {f : Make α β} (h : f.Still) : f.Advances := fun l =>
  Int.le_of_eq (h l).symm

theorem advances_freshId : Advances (freshId : Make α Id) := fun l =>
  Int.le_of_lt (Int.lt_succ l.nextId)

/-- What is still takes no identity after what comes before it. -/
theorem next_bind_still {γ : Type} {f : Make α β} {g : β → Make α γ} (h : ∀ x, (g x).Still)
    (l : Ledger) : (Outcome.left ((f >>= g) l)).nextId = (Outcome.left (f l)).nextId := by
  rcases Outcome.left_bind f g l with ⟨x, l₁, run, rest⟩ | ⟨e, l₁, run, stopped⟩
  · rw [rest, run]
    exact h x l₁
  · rw [stopped, run]
    rfl

theorem still_notice (n : Notice) : Still (notice n : Make α Unit) := fun _ => rfl

theorem still_trust (v : Verdict) : Still (trust v : Make α Curvature) := fun _ => rfl

theorem still_ofExcept {ε : Type} (why : ε → Fault α) (r : Except ε β) :
    Still (ofExcept why r) := by
  cases r with
  | ok x => exact .pure x
  | error e => exact .throw (why e)

theorem still_ofOption (why : Fault α) (o : Option β) : Still (ofOption why o) := by
  cases o with
  | none => exact .throw why
  | some x => exact .pure x

theorem advances_ofExcept {ε : Type} (why : ε → Fault α) (r : Except ε β) :
    Advances (ofExcept why r) := (still_ofExcept why r).advances

theorem advances_ofOption (why : Fault α) (o : Option β) : Advances (ofOption why o) :=
  (still_ofOption why o).advances

theorem still_writable (n : Int) : Still (writable n : Make α Unit) := by
  unfold writable
  split
  · exact .pure ()
  · exact .throw Fault.unwritable

end Make

variable {α : Type}

namespace Datum

mutual

theorem still_survey (vars : Vars α) : (d : Input α) → (survey vars d).Still
  | .atom _ a => by
      cases a with
      | int n => exact Make.still_writable n
      | null | bool b | real x | complex z | text s => exact .pure ()
  | .element .. => .pure ()
  | .list _ xs | .tuple _ xs | .array _ _ _ _ xs | .mapping _ _ xs =>
      still_surveyAll vars xs
  | .record _ o _ _ => still_survey vars o
  | .thing _ o => .forM fun d _ => Make.still_notice (.doubt d)
  | .sparse .. => .pure ()

theorem still_surveyAll (vars : Vars α) : (ds : List (Input α)) → (surveyAll vars ds).Still
  | [] => .pure ()
  | d :: ds => (still_survey vars d).bind fun _ => still_surveyAll vars ds

end

theorem still_quote [Scalar α] (vars : Vars α) (d : Input α) : (quote vars d).Still :=
  (still_survey vars d).bind fun _ => .pure _

end Datum

variable [Scalar α]

/-- A constant takes one identity, whether it is refused or not. -/
theorem next_makeConstant (vars : Vars α) (d : Input α) (sign : Option Sign) (l : Ledger) :
    (Outcome.left (makeConstant vars d sign l)).nextId = l.nextId + 1 := by
  refine Make.next_bind_still (fun id => ?_) l
  split
  · exact (Make.still_trust _).bind fun _ => .throw _
  · refine (Make.still_ofOption _ _).bind fun a => ?_
    split
    · exact (Make.still_ofOption _ _).bind fun A => .pure _
    · exact (Datum.still_quote vars d).bind fun _ => .throw _

theorem advances_makeConstant (vars : Vars α) (d : Input α) (sign : Option Sign) :
    (makeConstant vars d sign).Advances := fun l => by
  rw [Ledger.Before, next_makeConstant]
  exact Int.le_of_lt (Int.lt_succ l.nextId)

theorem advances_asExpr (vars : Vars α) (d : Input α) : (asExpr vars d).Advances := by
  unfold asExpr
  split
  · exact .pure _
  all_goals first
    | exact .throw _
    | exact (advances_makeConstant vars _ none).map _

theorem advances_makeKron (vars : Vars α) (a b : Input α) : (makeKron vars a b).Advances := by
  refine (advances_asExpr vars a).bind fun x => (advances_asExpr vars b).bind fun y => ?_
  refine Make.advances_freshId.bind fun id => (Make.still_trust _).advances.bind fun v => ?_
  split
  · exact .pure _
  · exact .throw _

theorem Constant.advances_spread (c : Constant α) (shape : Nat × Nat) :
    (c.spread shape).Advances :=
  Make.advances_freshId.bind fun _ => .pure _

theorem advances_broadcast (l r : Expr α) : (broadcast l r).Advances := by
  have spread (c : Constant α) (shape : Nat × Nat) (f : Constant α → Expr α × Expr α) :
      Make.Advances (do let d ← c.spread shape; pure (f d)) :=
    (c.advances_spread shape).bind fun d => .pure (f d)
  unfold broadcast
  split
  · exact .pure _
  · split
    · split
      · exact spread _ _ _
      · split
        · split
          · exact spread _ _ _
          · exact .throw _
        · exact .throw _
    · split
      · exact spread _ _ _
      · exact .throw _
    · exact .throw _

omit [Scalar α] in
theorem still_checkSides (vars : Vars α) (c : Constraint α) :
    (checkSides vars c).Still := by
  unfold checkSides
  split
  · split
    · exact .throw _
    · exact .pure _
  · split
    · exact .throw _
    · exact .pure _
  · exact .pure _
  · split
    · exact .pure _
    · exact .throw _

theorem advances_makeConstraint (vars : Vars α) (relation : Relation) (l r : Input α) :
    (makeConstraint vars relation l r).Advances := by
  refine Make.advances_freshId.bind fun id => (advances_asExpr vars l).bind fun x =>
    (advances_asExpr vars r).bind fun y => (advances_broadcast x y).bind fun p => ?_
  exact (still_checkSides vars _).advances

namespace Vars

theorem still_refuse (vars : Vars α) (x : Variable) (d : Input α) (r : Refusal) :
    (vars.refuse x d r).Still := by
  cases r with
  | notNumeric => exact (Datum.still_quote vars (x.shown d)).bind fun _ => .throw _
  | ragged | numberForMatrix | vectorForMatrix | vectorLength n | arrayShape s | complex =>
      exact .throw _

theorem still_assign (vars : Vars α) (x : Variable) (d : Input α) :
    (vars.assign x d).Still := by
  unfold assign
  split
  · exact .bind (.pure _) fun _ => .pure _
  · exact (vars.still_refuse x d _).bind fun _ => .pure _

omit [Scalar α] in
theorem still_fix (vars : Vars α) (x : Variable) : (vars.fix x).Still := by
  unfold fix
  split
  · exact .throw _
  · exact .pure _

end Vars

theorem VariableSpec.advances_semidefinite (x : Variable) (vars : Vars α) :
    Make.Advances (semidefinite x vars) :=
  (advances_makeConstraint vars _ _ _).bind fun _ => .pure _

theorem VariableSpec.still_resolveSets (spec : VariableSpec α) :
    spec.resolveSets.Still := by
  unfold resolveSets
  split
  · exact .pure _
  · refine (Make.still_notice _).bind fun _ => ?_
    split
    · dsimp only
      split
      · exact .bind (.throw _) fun _ => .pure _
      · exact .pure _
    · dsimp only
      split
      · exact .bind (.throw _) fun _ => .throw _
      · exact .throw _

/-! ### Comparisons -/

theorem advances_relate (vars : Vars α) (relation : Relation) (l r : Input α) :
    (relate vars relation l r).Advances :=
  (advances_makeConstraint vars relation l r).bind fun _ => .pure _

namespace Datum

mutual

theorem advances_truth : (d : Input α) → (truth d).Advances
  | .atom .. | .element .. | .list .. | .tuple .. | .mapping .. | .record .. => by
      rw [truth]
      exact .pure _
  | .array _ _ _ _ cells => by
      rw [truth]
      exact advances_truthOfOnly cells
  | .sparse .. => by
      rw [truth]
      split
      · exact .pure _
      · exact .throw _
  | .thing _ o => by
      cases o <;> rw [truth]
      · exact .pure _
      · exact .throw _
      · exact .pure _

theorem advances_truthOfOnly : (ds : List (Input α)) → (truthOfOnly ds).Advances
  | [] => by
      rw [truthOfOnly]
      · exact .throw _
      · exact fun d h => by cases h
  | [d] => by
      rw [truthOfOnly]
      exact advances_truth d
  | _ :: _ :: _ => by
      rw [truthOfOnly]
      · exact .throw _
      · exact fun d h => by cases h

end

section

variable {compare : Comparer α} (h : ∀ q a b, (compare q a b).Advances)
include h

theorem advances_compareArrays (q : Question) (a b : Input α) :
    (compareArrays compare q a b).Advances := by
  refine (Make.advances_ofExcept _ _).bind fun p => ?_
  dsimp only
  split
  · exact Make.advances_ofExcept _ _
  · refine (Make.advances_ofExcept _ _).bind fun k => (Make.advances_ofExcept _ _).bind fun ps => ?_
    split
    · refine (Outcome.Keeps.mapM (fun p : Input α × Input α => ?_) _).bind
        fun _ => Make.advances_ofExcept _ _
      exact (h q p.1 p.2).bind fun d => advances_truth d
    · exact .bind (.pure _) fun _ => Make.advances_ofExcept _ _

theorem advances_compareSparse (q : Question) (isTruth : Bool) (A : Coeffs α) (d : Input α) :
    (compareSparse compare q isTruth A d).Advances := by
  unfold compareSparse
  split
  · exact Make.advances_ofExcept _ _
  · exact Make.advances_ofExcept _ _
  · refine (Make.advances_ofOption _ _).bind fun g => ?_
    split
    · split
      · exact .pure _
      · exact .throw _
    · exact (Make.advances_ofExcept _ _).bind fun _ => advances_compareArrays h q _ _

theorem advances_compareMembers (q : Question) (xs ys : List (Input α)) :
    (compareMembers compare q xs ys).Advances := by
  induction xs generalizing ys with
  | nil => cases ys <;> exact .pure _
  | cons x xs ih =>
      cases ys with
      | nil => exact .pure _
      | cons y ys =>
          rw [compareMembers]
          split
          · exact ih ys
          · refine (h _ _ _).bind fun d => (advances_truth d).bind fun b => ?_
            split
            · exact ih ys
            · split
              · exact .pure _
              · exact h _ _ _

theorem advances_sameMapping (other rest : List (Int × Input α)) :
    (sameMapping compare other rest).Advances := by
  induction rest with
  | nil => exact .pure _
  | cons e rest ih =>
      rw [sameMapping]
      split
      · exact .pure _
      · split
        · exact ih
        · refine (h _ _ _).bind fun d => (advances_truth d).bind fun b => ?_
          split
          · exact ih
          · exact .pure _

theorem advances_comparePlain (q : Question) (a b : Input α) :
    (comparePlain compare q a b).Advances := by
  unfold comparePlain
  split
  · split
    · exact .pure _
    · exact advances_compareMembers h _ _ _
  · exact advances_compareMembers h _ _ _
  · split
    · exact .pure _
    · exact (advances_sameMapping h _ _).map _
  · dsimp only
    split
    · exact .bind (.pure _) fun _ => .pure _
    · exact (h _ _ _).bind fun d => (advances_truth d).bind fun _ => .pure _
  · exact (Make.advances_ofExcept _ _).map _
  · exact .pure _
  · exact .throw _

end

theorem advances_compareWithin (vars : Vars α) (n : Nat) (q : Question) (a b : Input α) :
    (compareWithin vars n q a b).Advances := by
  induction n generalizing q a b with
  | zero => exact .throw _
  | succ n ih =>
      unfold compareWithin
      split
      · exact advances_relate vars _ _ _
      · exact advances_relate vars _ _ _
      · exact advances_compareSparse ih _ _ _ _
      · exact advances_compareSparse ih _ _ _ _
      · split
        · exact .pure _
        · split
          · exact .pure _
          · split
            · exact advances_compareArrays ih _ _ _
            · exact advances_comparePlain ih _ _ _

theorem advances_differ (vars : Vars α) (a b : Input α) : (differ vars a b).Advances := by
  refine Outcome.Keeps.bind ?_ fun _ => .pure _
  exact (advances_compareWithin vars _ _ a b).bind fun d => advances_truth d

theorem advances_shiftArrays {shift : Input α → Input α → Make α (Input α)}
    (h : ∀ a b, (shift a b).Advances) (left : Bool) (a b : Input α) :
    (shiftArrays left shift a b).Advances := by
  refine (Make.advances_ofExcept _ _).bind fun p => (Make.advances_ofExcept _ _).bind fun k => ?_
  dsimp only
  split
  · exact (Make.advances_ofExcept _ _).bind fun ps =>
      (Outcome.Keeps.mapM (fun p : Input α × Input α => h p.1 p.2) _).bind
        fun _ => Make.advances_ofExcept _ _
  · exact (Make.advances_ofOption _ _).bind fun k => (Make.advances_ofExcept _ _).bind fun ps =>
      Make.advances_ofExcept _ _

theorem advances_shiftWithin (vars : Vars α) (left : Bool) (n : Nat) (a b : Input α) :
    (shiftWithin vars left n a b).Advances := by
  induction n generalizing a b with
  | zero => exact .throw _
  | succ n ih =>
      unfold shiftWithin
      split
      · split <;> exact advances_relate vars _ _ _
      · split <;> exact advances_relate vars _ _ _
      · exact .throw _
      · exact .throw _
      · split
        · exact advances_shiftArrays ih left _ _
        · split
          · exact (Make.advances_ofExcept _ _).map _
          · exact .throw _

end Datum

theorem advances_makeComparison (vars : Vars α) (op : Comparison) (l r : Input α) :
    (makeComparison vars op l r).Advances := by
  cases op with
  | ge | le | eq => exact Datum.advances_compareWithin vars _ _ l r
  | above | below => exact Datum.advances_shiftWithin vars _ _ l r

theorem advances_signConstraint (vars : Vars α) (e : Expr α) :
    (signConstraint vars e).Advances := by
  unfold signConstraint constraintOfSign
  split
  · exact advances_makeConstraint vars _ _ _
  · exact advances_makeConstraint vars _ _ _
  · exact .throw _

theorem VariableSpec.advances_squareShape (vars : Vars α) (hermitian : Bool) (m n : Input α) :
    (squareShape vars hermitian m n).Advances := by
  refine (Datum.advances_differ vars m _).bind fun different => ?_
  dsimp only
  split
  · exact (Datum.still_quote vars _).advances.bind fun _ => (Datum.still_quote vars _).advances.bind fun _ =>
      .bind (.throw _) fun _ => .pure _
  · exact .pure _

end ConicModel
