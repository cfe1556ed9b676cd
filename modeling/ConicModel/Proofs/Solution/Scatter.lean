/-
# Scattering a solution vector

`Model.offsets_ok` says what a layout is: every identity asked for has one place, as wide
as the variable registered under it.  Scattering a real vector that is long enough for such
a layout is never refused if all that is laid out are variables, and afterwards each of
them holds what its place holds in the vector, while nothing else has changed
(`Model.loadSolution_real`).
-/
import ConicModel.Proofs.Solution.Block
import ConicModel.Proofs.World

namespace ConicModel

variable {α : Type}

namespace Model

/-! ## Layouts -/

/-- Every place is that of something registered, and as wide as that. -/
structure Laid (m : Model α) (name : ContextName) (l : Layout) : Prop where
  nodup : l.ids.Nodup
  place : ∀ i s, (i, s) ∈ l → 0 ≤ s.offset ∧
    ∃ e, m.expression name i = .ok e ∧ s.width = e.width m.vars

theorem placeAll_ok {m : Model α} {name : ContextName} {ids : List Id} {l l' : Layout}
    {offset : Int} (h : m.placeAll name ids l offset = .ok l') (laid : m.Laid name l)
    (h0 : 0 ≤ offset) : m.Laid name l' ∧ ∀ i, i ∈ l'.ids ↔ i ∈ l.ids ∨ i ∈ ids := by
  induction ids generalizing l offset with
  | nil =>
      cases h
      exact ⟨laid, fun i => by simp⟩
  | cons i ids ih =>
      rw [placeAll] at h
      split at h
      · rename_i again
        obtain ⟨laid', keys⟩ := ih h laid h0
        refine ⟨laid', fun j => (keys j).trans ?_⟩
        rw [List.mem_cons]
        constructor
        · rintro (hj | hj)
          · exact .inl hj
          · exact .inr (.inr hj)
        · rintro (hj | rfl | hj)
          · exact .inl hj
          · exact .inl (Table.has_iff.mp again)
          · exact .inr hj
      · rename_i new
        obtain ⟨e, he, rest⟩ := Outcome.except_bind_ok.mp h
        have pushed : m.Laid name (l.push i ⟨offset, e.width m.vars⟩) := by
          refine ⟨?_, fun j s hj => ?_⟩
          · rw [Table.ids_push]
            refine List.nodup_append.mpr ⟨laid.nodup, List.nodup_singleton _, ?_⟩
            rintro j hj k hk rfl
            exact new (Table.has_iff.mpr (List.mem_singleton.mp hk ▸ hj))
          · rcases List.mem_append.mp hj with hj | hj
            · exact laid.place j s hj
            · cases List.mem_singleton.mp hj
              exact ⟨h0, e, he, rfl⟩
        obtain ⟨laid', keys⟩ := ih rest pushed (Int.add_nonneg h0 (Int.natCast_nonneg _))
        refine ⟨laid', fun j => (keys j).trans ?_⟩
        rw [Table.ids_push, List.mem_append, List.mem_singleton, List.mem_cons, or_assoc]

/-- A layout has a place for each identity asked for, and for no other. -/
theorem offsets_ok {m : Model α} {name : ContextName} {ids : List Id} {l : Layout}
    (h : m.offsets name ids = .ok l) : m.Laid name l ∧ ∀ i, i ∈ l.ids ↔ i ∈ ids := by
  have none : m.Laid name [] := ⟨List.nodup_nil, fun i s hi => by cases hi⟩
  obtain ⟨laid, keys⟩ := placeAll_ok h none (Int.le_refl 0)
  refine ⟨laid, fun i => (keys i).trans ?_⟩
  simp [Table.ids]

theorem le_foldl_max (es : List Int) (n : Int) :
    n ≤ es.foldl max n ∧ ∀ e ∈ es, e ≤ es.foldl max n := by
  induction es generalizing n with
  | nil => exact ⟨Int.le_refl n, fun e he => by cases he⟩
  | cons d es ih =>
      obtain ⟨start, others⟩ := ih (max n d)
      refine ⟨(le_max_left n d).trans start, fun e he => ?_⟩
      rcases List.mem_cons.mp he with rfl | he
      · exact (le_max_right n e).trans start
      · exact others e he

/-- No place ends after the length that is needed. -/
theorem end_le_needed {l : Layout} {i : Id} {s : Slot} (h : (i, s) ∈ l) :
    s.offset + s.width ≤ needed l := by
  have listed : s.offset + s.width ∈ l.items.map fun s => s.offset + s.width :=
    List.mem_map.mpr ⟨s, List.mem_map.mpr ⟨(i, s), h, rfl⟩, rfl⟩
  unfold needed
  cases hl : l.items.map fun s => s.offset + s.width with
  | nil =>
      rw [hl] at listed
      cases listed
  | cons e es =>
      rw [hl] at listed
      rcases List.mem_cons.mp listed with he | he
      · rw [he]
        exact (le_foldl_max es e).1
      · exact (le_foldl_max es e).2 _ he

/-! ## Writing one block after the other -/

variable [Scalar α]

/-- What is asked of a place before a variable is written from it. -/
structure Writable (m : Model α) (size : Nat) (x : Variable) (s : Slot) : Prop where
  known : x.id ∈ m.vars.ids
  start : 0 ≤ s.offset
  width : s.width = (Expr.var x).width m.vars
  fits : s.offset + s.width ≤ size

/-- The value of a variable has been replaced by what its place holds in a vector. -/
def Loaded (m m' : Model α) (xs : Array α) (x : Variable) (s : Slot) : Prop :=
  ∃ v, m'.vars.state x = { m.vars.state x with value := some v } ∧
    v.Holds x (s.element xs (x.rows * x.cols) (m.vars.state x).sign)

/-- Writing the blocks of different variables is not refused. -/
theorem writeBlocks_real {xs : Array α} {ps : List (Variable × Slot)} {m : Model α}
    (nodup : (ps.map fun p => p.1.id).Nodup)
    (writable : ∀ p ∈ ps, m.Writable xs.size p.1 p.2) :
    ∃ m', (ps.map fun p => (Expr.var p.1, p.2)).forM (writeBlock (.numbers (.real xs))) m
        = .ok () m' ∧
      (∀ p ∈ ps, m.Loaded m' xs p.1 p.2) ∧
      ∀ y, (∀ p ∈ ps, p.1.id ≠ y.id) → m'.vars.state y = m.vars.state y := by
  induction ps generalizing m with
  | nil => exact ⟨m, rfl, fun p hp => (by cases hp), fun y _ => rfl⟩
  | cons p ps ih =>
      obtain ⟨x, s⟩ := p
      obtain ⟨new, nodup⟩ := List.nodup_cons.mp nodup
      have first := writable (x, s) List.mem_cons_self
      obtain ⟨v, written, holds⟩ := writeBlock_real first.start first.width first.fits
      have others (p : Variable × Slot) (hp : p ∈ ps) : x.id ≠ p.1.id := fun h =>
        new (List.mem_map.mpr ⟨p, hp, h.symm⟩)
      have same (y : Variable) (ne : x.id ≠ y.id) :
          (m.vars.change x fun st => { st with value := some v }).state y = m.vars.state y :=
        Vars.state_change_of_ne _ ne _
      obtain ⟨m', rest, loaded, untouched⟩ := ih nodup
        (m := { m with vars := m.vars.change x fun st => { st with value := some v } })
        fun p hp => by
          have old := writable p (List.mem_cons_of_mem _ hp)
          refine ⟨?_, old.start, old.width.trans ?_, old.fits⟩
          · rw [Vars.ids_change]
            exact old.known
          · rw [Expr.width, Expr.width, Expr.sign, Expr.sign, same _ (others p hp)]
      refine ⟨m', ?_, fun p hp => ?_, fun y hy => ?_⟩
      · exact Outcome.bind_ok.mpr ⟨(), _, written, rest⟩
      · rcases List.mem_cons.mp hp with rfl | hp
        · refine ⟨v, ?_, holds⟩
          rw [untouched x fun p hp => (others p hp).symm]
          exact Vars.state_change_self (x := x) first.known fun st => { st with value := some v }
        · obtain ⟨u, state, holds⟩ := loaded p hp
          rw [same _ (others p hp)] at state holds
          exact ⟨u, state, holds⟩
      · rw [untouched y fun p hp => hy p (List.mem_cons_of_mem _ hp)]
        exact same y (hy (x, s) List.mem_cons_self)

/-! ## Loading -/

omit [Scalar α] in
/-- What a layout places is found again. -/
theorem resolve_of_places {m : Model α} {name : ContextName} {ps : List (Variable × Slot)}
    (registered : ∀ p ∈ ps, m.expression name p.1.id = .ok (.var p.1))
    (width : ∀ p ∈ ps, p.2.width = (Expr.var p.1).width m.vars) :
    m.resolve name (ps.map fun p => (p.1.id, p.2))
      = .ok (ps.map fun p => (Expr.var p.1, p.2)) := by
  induction ps with
  | nil => rfl
  | cons p ps ih =>
      have rest := ih (fun p hp => registered p (List.mem_cons_of_mem _ hp))
        fun p hp => width p (List.mem_cons_of_mem _ hp)
      refine Outcome.except_bind_ok.mpr ⟨.var p.1, registered p List.mem_cons_self, ?_⟩
      have same : ¬p.2.width ≠ (Expr.var p.1).width m.vars :=
        not_not.mpr (width p List.mem_cons_self)
      dsimp only
      rw [if_neg same, rest]
      rfl

omit [Scalar α] in
/-- The places of variables, in the order of the layout. -/
theorem exists_places {m : Model α} {name : ContextName} {l : Layout}
    (vars : ∀ i s, (i, s) ∈ l → ∃ x, m.expression name i = .ok (.var x) ∧ x.id = i ∧
      x.id ∈ m.vars.ids) :
    ∃ ps : List (Variable × Slot), l = ps.map (fun p => (p.1.id, p.2)) ∧
      ∀ p ∈ ps, m.expression name p.1.id = .ok (.var p.1) ∧ p.1.id ∈ m.vars.ids := by
  induction l with
  | nil => exact ⟨[], rfl, fun p hp => by cases hp⟩
  | cons e l ih =>
      obtain ⟨x, hx, hid, known⟩ := vars e.1 e.2 List.mem_cons_self
      obtain ⟨ps, rfl, others⟩ := ih fun i s hi => vars i s (List.mem_cons_of_mem e hi)
      refine ⟨(x, e.2) :: ps, by rw [List.map_cons, hid], fun p hp => ?_⟩
      rcases List.mem_cons.mp hp with rfl | hp
      · exact ⟨hid ▸ hx, known⟩
      · exact others p hp

/-- Loading is writing the blocks, once everything has been looked at. -/
theorem loadSolution_of_writes {m m' : Model α} {name : ContextName} {l : Layout} {d : Input α}
    {solution : Flat α} {places : List (Expr α × Slot)} (read : Flat.ofInput d = .ok solution)
    (long : needed l ≤ solution.size) (resolved : m.resolve name l = .ok places)
    (written : places.forM (writeBlock solution) m = .ok () m') :
    loadSolution name d l m = .ok () m' := by
  have made : (Work.make fun _ => Make.ofExcept (·) (Flat.ofInput d) : Work α (Flat α)) m
      = .ok solution m := by
    rw [read]
    rfl
  refine Outcome.bind_ok.mpr ⟨solution, m, made, ?_⟩
  rw [if_neg (not_lt.mpr long)]
  refine Outcome.bind_ok.mpr ⟨m, m, rfl, ?_⟩
  rw [resolved]
  exact written

/-- A real vector that is long enough is scattered onto the variables of a layout, and
onto nothing else. -/
theorem loadSolution_real {m : Model α} {name : ContextName} {l : Layout}
    (laid : m.Laid name l)
    (vars : ∀ i s, (i, s) ∈ l → ∃ x, m.expression name i = .ok (.var x) ∧ x.id = i ∧
      x.id ∈ m.vars.ids)
    {d : Input α} {xs : Array α} (real : Flat.ofInput d = .ok (.numbers (.real xs)))
    (long : needed l ≤ xs.size) :
    ∃ m', loadSolution name d l m = .ok () m' ∧
      (∀ x s, (x.id, s) ∈ l → m.expression name x.id = .ok (.var x) → m.Loaded m' xs x s) ∧
      ∀ y, y.id ∉ l.ids → m'.vars.state y = m.vars.state y := by
  obtain ⟨ps, rfl, registered⟩ := exists_places vars
  have place {p : Variable × Slot} (hp : p ∈ ps) :
      (p.1.id, p.2) ∈ ps.map fun p => (p.1.id, p.2) := List.mem_map.mpr ⟨p, hp, rfl⟩
  have writable : ∀ p ∈ ps, m.Writable xs.size p.1 p.2 := by
    intro p hp
    obtain ⟨start, e, he, width⟩ := laid.place _ _ (place hp)
    cases he.symm.trans (registered p hp).1
    exact ⟨(registered p hp).2, start, width, (end_le_needed (place hp)).trans long⟩
  have nodup : (ps.map fun p => p.1.id).Nodup := by
    have h := laid.nodup
    rwa [Table.ids, List.map_map] at h
  have resolved := resolve_of_places (fun p hp => (registered p hp).1)
    fun p hp => (writable p hp).width
  obtain ⟨m', written, loaded, untouched⟩ := writeBlocks_real nodup writable
  refine ⟨m', loadSolution_of_writes real long resolved written, fun x s hs hx => ?_,
    fun y hy => ?_⟩
  · obtain ⟨p, hp, same⟩ := List.mem_map.mp hs
    obtain ⟨hid, rfl⟩ := Prod.mk.inj same
    have registered_p := (registered p hp).1
    rw [hid] at registered_p
    cases hx.symm.trans registered_p
    exact loaded p hp
  · refine untouched y fun p hp h => hy ?_
    exact h ▸ Table.mem_ids_of_mem (place hp)

end Model

end ConicModel
