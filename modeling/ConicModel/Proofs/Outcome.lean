/-
# Working backward from a result

Making, walking and changing a session are programs with a state that may be refused.
A theorem about such a program starts from what came out of it.  The lemmas here take
a result apart along the text of the program: what came out of a sequence came out of
its second step, run on what the first step left.
-/
import Mathlib.Data.List.Forall2

namespace ConicModel

variable {ε σ β γ : Type}

/-! ## Programs with a state -/

namespace Outcome

theorem bind_ok {x : EStateM ε σ β} {f : β → EStateM ε σ γ} {s s' : σ} {c : γ} :
    (x >>= f) s = .ok c s' ↔ ∃ b t, x s = .ok b t ∧ f b t = .ok c s' := by
  show EStateM.bind x f s = .ok c s' ↔ _
  unfold EStateM.bind
  split
  · rename_i b t hx
    constructor
    · intro h
      exact ⟨b, t, hx, h⟩
    · rintro ⟨b', t', hx', h⟩
      rw [hx] at hx'
      cases hx'
      exact h
  · rename_i e t hx
    constructor
    · intro h
      cases h
    · rintro ⟨b, t', hx', -⟩
      rw [hx] at hx'
      cases hx'

theorem map_ok {f : β → γ} {x : EStateM ε σ β} {s s' : σ} {c : γ} :
    (f <$> x) s = .ok c s' ↔ ∃ b, x s = .ok b s' ∧ f b = c := by
  show EStateM.map f x s = .ok c s' ↔ _
  unfold EStateM.map
  split
  · rename_i b t hx
    constructor
    · intro h
      cases h
      exact ⟨b, hx, rfl⟩
    · rintro ⟨b', hx', rfl⟩
      rw [hx] at hx'
      cases hx'
      rfl
  · rename_i e t hx
    constructor
    · intro h
      cases h
    · rintro ⟨b, hx', -⟩
      rw [hx] at hx'
      cases hx'

theorem pure_ok {b c : β} {s s' : σ} :
    (pure b : EStateM ε σ β) s = .ok c s' ↔ b = c ∧ s = s' := by
  constructor
  · intro h
    cases h
    exact ⟨rfl, rfl⟩
  · rintro ⟨rfl, rfl⟩
    rfl

theorem throw_ok {e : ε} {c : β} {s s' : σ} :
    (throw e : EStateM ε σ β) s = .ok c s' ↔ False :=
  ⟨fun h => (by cases h), False.elim⟩

/-- A sequence is refused in its first step, or in its second. -/
theorem bind_error {x : EStateM ε σ β} {f : β → EStateM ε σ γ} {s s' : σ} {e : ε} :
    (x >>= f) s = .error e s' ↔
      x s = .error e s' ∨ ∃ b t, x s = .ok b t ∧ f b t = .error e s' := by
  show EStateM.bind x f s = .error e s' ↔ _
  unfold EStateM.bind
  split
  · rename_i b t hx
    rw [hx]
    constructor
    · intro h
      exact .inr ⟨b, t, rfl, h⟩
    · rintro (h | ⟨b', t', h', h⟩)
      · cases h
      · cases h'
        exact h
  · rename_i e' t hx
    rw [hx]
    constructor
    · intro h
      cases h
      exact .inl rfl
    · rintro (h | ⟨b, t', h, -⟩)
      · cases h
        rfl
      · cases h

theorem map_error {f : β → γ} {x : EStateM ε σ β} {s s' : σ} {e : ε} :
    (f <$> x) s = .error e s' ↔ x s = .error e s' := by
  show EStateM.map f x s = .error e s' ↔ _
  unfold EStateM.map
  split
  · rename_i b t hx
    rw [hx]
    exact ⟨fun h => (by cases h), fun h => (by cases h)⟩
  · rename_i e' t hx
    rw [hx]
    constructor
    · intro h
      cases h
      rfl
    · intro h
      cases h
      rfl

theorem pure_error {b : β} {s s' : σ} {e : ε} :
    (pure b : EStateM ε σ β) s = .error e s' ↔ False :=
  ⟨fun h => (by cases h), False.elim⟩

theorem throw_error {e e' : ε} {s s' : σ} :
    (throw e : EStateM ε σ β) s = .error e' s' ↔ e = e' ∧ s = s' := by
  constructor
  · intro h
    cases h
    exact ⟨rfl, rfl⟩
  · rintro ⟨rfl, rfl⟩
    rfl

/-- A list is gone through up to the first member that is refused, and what was done for
those before it stays done. -/
theorem forM_error {f : β → EStateM ε σ PUnit} {xs : List β} {s s' : σ} {e : ε}
    (h : xs.forM f s = .error e s') :
    ∃ before x after s₁, xs = before ++ x :: after ∧ before.forM f s = .ok ⟨⟩ s₁ ∧
      f x s₁ = .error e s' := by
  induction xs generalizing s with
  | nil => exact (pure_error.mp h).elim
  | cons x xs ih =>
      rcases bind_error.mp h with here | ⟨⟨⟩, s₁, first, later⟩
      · exact ⟨[], x, xs, s, rfl, rfl, here⟩
      · obtain ⟨before, y, after, s₂, rfl, done, refused⟩ := ih later
        exact ⟨x :: before, y, after, s₂, rfl, bind_ok.mpr ⟨⟨⟩, s₁, first, done⟩, refused⟩

/-- What came out of a program on given data is found by running it. -/
instance decidableOk (r : EStateM.Result ε σ β) (P : β → σ → Prop)
    [∀ x s, Decidable (P x s)] : Decidable (∃ x s, r = .ok x s ∧ P x s) :=
  match r with
  | .ok x s => decidable_of_iff (P x s)
      ⟨fun h => ⟨x, s, rfl, h⟩, fun ⟨_, _, h, holds⟩ => by cases h; exact holds⟩
  | .error _ _ => .isFalse fun ⟨_, _, h, _⟩ => by cases h

end Outcome

/-! ## Results -/

theorem Outcome.except_bind_ok {x : Except ε β} {f : β → Except ε γ} {c : γ} :
    (x >>= f) = .ok c ↔ ∃ b, x = .ok b ∧ f b = .ok c := by
  cases x with
  | error e => exact ⟨fun h => (by cases h), fun ⟨_, h, _⟩ => (by cases h)⟩
  | ok b =>
      constructor
      · intro h
        exact ⟨b, rfl, h⟩
      · rintro ⟨b', hb, h⟩
        cases hb
        exact h

theorem Outcome.except_map_ok {f : β → γ} {x : Except ε β} {c : γ} :
    f <$> x = .ok c ↔ ∃ b, x = .ok b ∧ f b = c := by
  cases x with
  | error e => exact ⟨fun h => (by cases h), fun ⟨_, h, _⟩ => (by cases h)⟩
  | ok b =>
      constructor
      · intro h
        cases h
        exact ⟨b, rfl, rfl⟩
      · rintro ⟨b', hb, rfl⟩
        cases hb
        rfl

theorem Outcome.except_map_error {f : β → γ} {x : Except ε β} {e : ε} :
    f <$> x = .error e ↔ x = .error e := by
  cases x with
  | error e' => exact ⟨fun h => congrArg _ (Except.error.inj h),
      fun h => congrArg _ (Except.error.inj h)⟩
  | ok b => exact ⟨fun h => (by cases h), fun h => (by cases h)⟩

theorem Outcome.except_bind_error {x : Except ε β} {f : β → Except ε γ} {e : ε} :
    (x >>= f) = .error e ↔ x = .error e ∨ ∃ b, x = .ok b ∧ f b = .error e := by
  cases x with
  | error e' =>
      constructor
      · intro h
        cases h
        exact .inl rfl
      · rintro (h | ⟨b, h, -⟩)
        · cases h
          rfl
        · cases h
  | ok b =>
      constructor
      · intro h
        exact .inr ⟨b, rfl, h⟩
      · rintro (h | ⟨b', hb, h⟩)
        · cases h
        · cases hb
          exact h

/-- A result whose fault was put in other words. -/
theorem Outcome.mapError_ok {ε' : Type} {f : ε → ε'} {x : Except ε β} {b : β} :
    x.mapError f = .ok b ↔ x = .ok b := by
  cases x with
  | error e => exact ⟨fun h => (by cases h), fun h => (by cases h)⟩
  | ok c => exact ⟨fun h => congrArg _ (Except.ok.inj h), fun h => congrArg _ (Except.ok.inj h)⟩

theorem Outcome.mapError_error {ε' : Type} {f : ε → ε'} {x : Except ε β} {e' : ε'} :
    x.mapError f = .error e' ↔ ∃ e, x = .error e ∧ f e = e' := by
  cases x with
  | error e =>
      constructor
      · intro h
        cases h
        exact ⟨e, rfl, rfl⟩
      · rintro ⟨d, hd, rfl⟩
        cases hd
        rfl
  | ok b => exact ⟨fun h => (by cases h), fun ⟨_, h, _⟩ => (by cases h)⟩

/-- What came out of all members of a list, member by member. -/
theorem Outcome.forall₂_of_mapM {f : β → Except ε γ} {xs : List β} {ys : List γ}
    (h : xs.mapM f = .ok ys) : List.Forall₂ (fun x y => f x = .ok y) xs ys := by
  induction xs generalizing ys with
  | nil =>
      cases h
      exact .nil
  | cons x xs ih =>
      rw [List.mapM_cons] at h
      obtain ⟨y, hy, h⟩ := except_bind_ok.mp h
      obtain ⟨zs, hzs, h⟩ := except_bind_ok.mp h
      cases h
      exact .cons hy (ih hzs)

/-- A list is refused for one of its members. -/
theorem Outcome.error_of_mapM {f : β → Except ε γ} {xs : List β} {e : ε}
    (h : xs.mapM f = .error e) : ∃ x ∈ xs, f x = .error e := by
  induction xs with
  | nil => cases h
  | cons x xs ih =>
      rw [List.mapM_cons] at h
      rcases except_bind_error.mp h with here | ⟨y, -, h⟩
      · exact ⟨x, List.mem_cons_self, here⟩
      · rcases except_bind_error.mp h with later | ⟨ys, -, h⟩
        · obtain ⟨z, hz, refused⟩ := ih later
          exact ⟨z, List.mem_cons_of_mem x hz, refused⟩
        · cases h

theorem Outcome.exists_of_forall₂ {R : β → γ → Prop} {xs : List β} {ys : List γ}
    (h : List.Forall₂ R xs ys) {y : γ} (hy : y ∈ ys) : ∃ x ∈ xs, R x y := by
  induction h with
  | nil => cases hy
  | cons hxy _ ih =>
      rcases List.mem_cons.mp hy with rfl | hy
      · exact ⟨_, List.mem_cons_self, hxy⟩
      · obtain ⟨x, hx, hR⟩ := ih hy
        exact ⟨x, List.mem_cons_of_mem _ hx, hR⟩

end ConicModel
