/-
# Nested data as rectangles

Numbers, texts, missing values, arrays of numbers, and sequences of such data, nested to any
depth, are called *plain*.  Plain data have a shape if all members of a sequence have one
(`Datum.Shaped`), and what stands in them is found along a path of indices, from the outermost
sequence inward (`Datum.at?`).

Laying such a datum out is shown to agree with this.  It succeeds if there is a shape, the
cells come in the order of the paths, the last index running fastest, and the kind of the
cells is one of numbers if each of them is a number (`Datum.Lays`).
-/
import Mathlib.Data.List.Forall2
import ConicModel.Datum.Grid
import ConicModel.Proofs.Matrix.Nesting
import ConicModel.Proofs.Outcome

namespace ConicModel

variable {α : Type}

/-! ## Kinds of numbers -/

/-- Whether an array of a kind of numbers can hold an atom. -/
def Kind.Stores (k : Kind) : Atom α → Prop
  | .bool _ => k = .truth
  | .int n => k.holds n = true
  | .real _ => k = .real
  | .complex _ => k = .complex
  | .null | .text _ => False

namespace Atom

/-- A number that an array of numbers can hold. -/
def IsNumeric (a : Atom α) : Prop := a.kind.isNumeric = true

instance (a : Atom α) : Decidable a.IsNumeric := inferInstanceAs (Decidable (_ = true))

/-- There is no imaginary part. -/
def IsReal [Scalar α] : Atom α → Prop
  | .complex z => isZero z.im = true
  | _ => True

instance [Scalar α] (a : Atom α) : Decidable a.IsReal :=
  match a with
  | .complex z => inferInstanceAs (Decidable (isZero z.im = true))
  | .null | .bool _ | .int _ | .real _ | .text _ => .isTrue trivial

end Atom

namespace Kind

theorem isNumeric_of_holds {k : Kind} {n : Int} (h : k.holds n = true) :
    k.isNumeric = true ∧ (Atom.int n : Atom α).IsNumeric := by
  have numeric : (if whole.holds n then whole else if natural.holds n then natural
      else loose).isNumeric = true := by
    cases k with
    | byte =>
        have inside : whole.holds n = true := by
          simp only [holds, bounds, Option.any_some, Bool.and_eq_true, decide_eq_true_eq] at h ⊢
          have low : -Int.pow 2 63 ≤ -Int.pow 2 7 := by decide
          have high : Int.pow 2 7 - 1 ≤ Int.pow 2 63 - 1 := by decide
          exact ⟨Int.le_trans low h.1, Int.le_trans h.2 high⟩
        rw [if_pos inside]
        rfl
    | whole =>
        rw [if_pos h]
        rfl
    | natural =>
        rw [if_pos h]
        split <;> rfl
    | _ => cases h
  refine ⟨?_, numeric⟩
  cases k with
  | text | loose => cases h
  | _ => rfl

/-- What an array of numbers holds is a number. -/
theorem Stores.numeric {k : Kind} {a : Atom α} (h : k.Stores a) :
    k.isNumeric = true ∧ a.IsNumeric := by
  cases a with
  | null | text s => exact h.elim
  | int n => exact isNumeric_of_holds h
  | _ =>
      rw [show k = _ from h]
      exact ⟨rfl, rfl⟩

theorem isNumeric_sup (k l : Kind) : (k.sup l).isNumeric = (k.isNumeric && l.isNumeric) := by
  cases k <;> cases l <;> rfl

theorem sup_eq_complex {k l : Kind} (hk : k.isNumeric = true) (hl : l.isNumeric = true) :
    k.sup l = .complex ↔ k = .complex ∨ l = .complex := by
  revert hk hl
  cases k <;> cases l <;> decide

end Kind

/-! ## Plain data -/

namespace Datum

/-- Numbers, texts, missing values, arrays of numbers, and sequences of such data. -/
inductive Plain : Input α → Prop
  | atom (s : Nat) (a : Atom α) : Plain (.atom s a)
  | element {s : Nat} {k : Kind} {a : Atom α} : k.Stores a → Plain (.element s k a)
  | list {s : Nat} {xs : List (Input α)} : (∀ d ∈ xs, Plain d) → Plain (.list s xs)
  | tuple {s : Nat} {xs : List (Input α)} : (∀ d ∈ xs, Plain d) → Plain (.tuple s xs)
  | array {s : Nat} {rigid : Bool} {k : Kind} {shape : List Nat} {cells : List (Input α)} :
      k.isNumeric = true → cells.length = Grid.volume shape →
      (∀ c ∈ cells, ∃ t a, c = .atom t a ∧ k.Stores a) → Plain (.array s rigid k shape cells)

/-- The shape of a datum.  A sequence has one if its members have one in common; without
members it is a vector of length zero. -/
inductive Shaped : Input α → List Nat → Prop
  | atom (s : Nat) (a : Atom α) : Shaped (.atom s a) []
  | element (s : Nat) (k : Kind) (a : Atom α) : Shaped (.element s k a) []
  | array (s : Nat) (rigid : Bool) (k : Kind) (shape : List Nat) (cells : List (Input α)) :
      Shaped (.array s rigid k shape cells) shape
  | emptyList (s : Nat) : Shaped (.list s []) [0]
  | emptyTuple (s : Nat) : Shaped (.tuple s []) [0]
  | list {s : Nat} {xs : List (Input α)} {shape : List Nat} : xs ≠ [] →
      (∀ d ∈ xs, Shaped d shape) → Shaped (.list s xs) (xs.length :: shape)
  | tuple {s : Nat} {xs : List (Input α)} {shape : List Nat} : xs ≠ [] →
      (∀ d ∈ xs, Shaped d shape) → Shaped (.tuple s xs) (xs.length :: shape)

end Datum

/-- Where the element on a path of indices stands, the last index running fastest. -/
def Grid.place : List Nat → List Nat → Option Nat
  | [], [] => some 0
  | n :: ns, i :: is => if i < n then (place ns is).map (i * volume ns + ·) else none
  | _, _ => none

namespace Datum

mutual

/-- What stands in a datum on a path of indices. -/
def at? : Input α → List Nat → Option (Atom α)
  | atom _ a, [] | element _ _ a, [] => some a
  | array _ _ _ shape cells, path => do
    let c ← cells[(← Grid.place shape path)]?
    pure c.toAtom
  | list _ xs, i :: path | tuple _ xs, i :: path => atMember xs i path
  | _, _ => none

/-- What stands in one of the members of a sequence. -/
def atMember : List (Input α) → Nat → List Nat → Option (Atom α)
  | [], _, _ => none
  | d :: _, 0, path => at? d path
  | _ :: ds, i + 1, path => atMember ds i path

end

end Datum

/-! ## Places -/

namespace Grid

theorem volume_cons (n : Nat) (ns : List Nat) : volume (n :: ns) = n * volume ns := by
  have scaled (ns : List Nat) : ∀ m, ns.foldl (· * ·) m = m * ns.foldl (· * ·) 1 := by
    induction ns with
    | nil => intro m; exact (Nat.mul_one m).symm
    | cons k ns ih =>
        intro m
        rw [List.foldl_cons, List.foldl_cons, ih, ih (1 * k), Nat.one_mul, Nat.mul_assoc]
  rw [volume, List.foldl_cons, scaled, Nat.one_mul, volume]

theorem place_lt {shape path : List Nat} {k : Nat} (h : place shape path = some k) :
    k < volume shape := by
  induction shape generalizing path k with
  | nil =>
      cases path with
      | nil =>
          cases h
          exact Nat.one_pos
      | cons i is => cases h
  | cons n ns ih =>
      cases path with
      | nil => cases h
      | cons i is =>
          rw [place] at h
          split at h
          · rename_i inside
            obtain ⟨m, hm, rfl⟩ := Option.map_eq_some_iff.mp h
            rw [volume_cons]
            exact index_lt inside (ih hm)
          · cases h

/-- There is a path to every place. -/
theorem exists_place {shape : List Nat} {k : Nat} (h : k < volume shape) :
    ∃ path, place shape path = some k := by
  induction shape generalizing k with
  | nil => exact ⟨[], congrArg some (Nat.lt_one_iff.mp h).symm⟩
  | cons n ns ih =>
      rw [volume_cons] at h
      obtain ⟨i, hi, m, hm, rfl⟩ := exists_index h
      obtain ⟨path, hpath⟩ := ih hm
      exact ⟨i :: path, by rw [place, if_pos hi, hpath, Option.map_some]⟩

/-- In rows of one length that stand one after the other, an element is found by its row and
its place in it. -/
theorem getElem?_rows {β γ : Type} {f : β → List γ} {m : Nat} {xs : List β}
    (rows : ∀ x ∈ xs, (f x).length = m) (i : Nat) {k : Nat} (hk : k < m) :
    (xs.flatMap f)[i * m + k]? = xs[i]?.bind fun x => (f x)[k]? := by
  induction xs generalizing i with
  | nil => rfl
  | cons x xs ih =>
      have first : (f x).length = m := rows x List.mem_cons_self
      have rest := ih fun y hy => rows y (List.mem_cons_of_mem x hy)
      rw [List.flatMap_cons]
      cases i with
      | zero =>
          rw [Nat.zero_mul, Nat.zero_add, List.getElem?_append_left (first ▸ hk)]
          rfl
      | succ i =>
          have beyond : (i + 1) * m + k = m + (i * m + k) := by
            rw [Nat.succ_mul]
            omega
          rw [beyond, List.getElem?_append_right (first ▸ Nat.le_add_right ..), first,
            Nat.add_sub_cancel_left, rest i]
          rfl

/-! ## Kinds of cells -/

/-- The kind of the cells is one of numbers if each of them is a number, and is complex if one
of them is not real. -/
structure Suits (kind? : Option Kind) (cells : List (Input α)) : Prop where
  numeric : (kind?.getD .real).isNumeric = true ↔ ∀ c ∈ cells, c.toAtom.IsNumeric
  real : (kind?.getD .real).isNumeric = true → kind?.getD .real ≠ .complex →
    ∀ c ∈ cells, ∀ z, c.toAtom ≠ .complex z

theorem isNumeric_joinKinds (a b : Option Kind) :
    ((joinKinds a b).getD .real).isNumeric
      = ((a.getD .real).isNumeric && (b.getD .real).isNumeric) := by
  cases a with
  | none => cases b <;> rfl
  | some k =>
      cases b with
      | none => exact (Bool.and_true _).symm
      | some l => exact Kind.isNumeric_sup k l

theorem joinKinds_eq_complex {a b : Option Kind} (ha : (a.getD .real).isNumeric = true)
    (hb : (b.getD .real).isNumeric = true) :
    (joinKinds a b).getD .real = .complex ↔
      a.getD .real = .complex ∨ b.getD .real = .complex := by
  cases a with
  | none => cases b <;> simp [joinKinds]
  | some k =>
      cases b with
      | none => simp [joinKinds]
      | some l => exact Kind.sup_eq_complex ha hb

theorem suits_nil : Suits none ([] : List (Input α)) where
  numeric := ⟨fun _ _ hc => (nomatch hc), fun _ => rfl⟩
  real _ _ _ hc := nomatch hc

/-- Cells side by side suit the kind that holds both. -/
theorem Suits.join {a b : Option Kind} {cs ds : List (Input α)} (ha : Suits a cs)
    (hb : Suits b ds) : Suits (joinKinds a b) (cs ++ ds) where
  numeric := by
    rw [isNumeric_joinKinds, Bool.and_eq_true, ha.numeric, hb.numeric, List.forall_mem_append]
  real numeric notComplex := by
    rw [isNumeric_joinKinds, Bool.and_eq_true] at numeric
    rw [Ne, joinKinds_eq_complex numeric.1 numeric.2, not_or] at notComplex
    rw [List.forall_mem_append]
    exact ⟨ha.real numeric.1 notComplex.1, hb.real numeric.2 notComplex.2⟩

theorem Suits.joinAll {gs : List (Grid α)} (h : ∀ g ∈ gs, Suits g.kind? g.cells) :
    Suits ((gs.map (·.kind?)).foldl joinKinds none) (gs.flatMap (·.cells)) := by
  have run (gs : List (Grid α)) : ∀ (k : Option Kind) (cs : List (Input α)), Suits k cs →
      (∀ g ∈ gs, Suits g.kind? g.cells) →
      Suits ((gs.map (·.kind?)).foldl joinKinds k) (cs ++ gs.flatMap (·.cells)) := by
    induction gs with
    | nil =>
        intro k cs first _
        rw [List.flatMap_nil, List.append_nil]
        exact first
    | cons g gs ih =>
        intro k cs first rest
        rw [List.map_cons, List.foldl_cons, List.flatMap_cons, ← List.append_assoc]
        exact ih _ _ (first.join (rest g List.mem_cons_self))
          fun f hf => rest f (List.mem_cons_of_mem g hf)
  exact run gs none [] suits_nil h

end Grid

/-! ## Laying out -/

namespace Datum

/-- A rectangle has the shape of a datum, its elements in order, and a kind that suits
them. -/
structure Lays (d : Input α) (g : Grid α) : Prop where
  shaped : Shaped d g.shape
  length : g.cells.length = Grid.volume g.shape
  leaves : ∀ c ∈ g.cells, (∃ s a, c = .atom s a) ∨ ∃ s k a, c = .element s k a
  at? : ∀ path, d.at? path = (Grid.place g.shape path).bind fun k => g.cells[k]?.map toAtom
  suits : Grid.Suits g.kind? g.cells

/-- What stands in the datum stands in the rectangle. -/
theorem Lays.forall_elements {d : Input α} {g : Grid α} (h : d.Lays g) {p : Atom α → Prop} :
    (∀ path a, d.at? path = some a → p a) ↔ ∀ c ∈ g.cells, p c.toAtom := by
  constructor
  · intro all c hc
    obtain ⟨k, hk, rfl⟩ := List.getElem_of_mem hc
    obtain ⟨path, hpath⟩ := Grid.exists_place (h.length ▸ hk)
    refine all path _ ?_
    rw [h.at?, hpath, Option.bind_some, List.getElem?_eq_getElem hk, Option.map_some]
  · intro all path a ha
    rw [h.at?] at ha
    obtain ⟨k, -, ha⟩ := Option.bind_eq_some_iff.mp ha
    obtain ⟨c, hc, rfl⟩ := Option.map_eq_some_iff.mp ha
    exact all c (List.mem_of_getElem? hc)

theorem spreadAll_eq_some {xs : List (Input α)} {gs : List (Grid α)} :
    spreadAll xs = some gs ↔ List.Forall₂ (fun d g => spread d = some g) xs gs := by
  induction xs generalizing gs with
  | nil =>
      constructor
      · intro h
        cases h
        exact .nil
      · intro h
        cases h
        rfl
  | cons d ds ih =>
      rw [spreadAll]
      constructor
      · intro h
        obtain ⟨g, hg, h⟩ := Option.bind_eq_some_iff.mp h
        obtain ⟨gs, hgs, h⟩ := Option.bind_eq_some_iff.mp h
        cases h
        exact .cons hg (ih.mp hgs)
      · intro h
        cases h with
        | cons hg hgs => simp [hg, ih.mpr hgs]

theorem stack_cons {g h : Grid α} {gs : List (Grid α)} (made : Grid.stack (g :: gs) = some h) :
    (∀ f ∈ g :: gs, f.shape = g.shape) ∧
      h = ⟨((g :: gs).map (·.kind?)).foldl Grid.joinKinds none, (g :: gs).length :: g.shape,
        (g :: gs).flatMap (·.cells)⟩ := by
  rw [Grid.stack] at made
  split at made
  · rename_i same
    cases made
    refine ⟨fun f hf => ?_, rfl⟩
    rcases List.mem_cons.mp hf with rfl | hf
    · rfl
    · simpa using List.all_eq_true.mp same f hf
  · cases made

theorem stack_of_shapes {gs : List (Grid α)} {shape : List Nat} (some_member : gs ≠ [])
    (same : ∀ g ∈ gs, g.shape = shape) :
    ∃ h, Grid.stack gs = some h ∧ h.shape = gs.length :: shape := by
  cases gs with
  | nil => exact (some_member rfl).elim
  | cons g gs =>
      have first : g.shape = shape := same g List.mem_cons_self
      have all : gs.all (fun h => h.shape == g.shape) = true :=
        List.all_eq_true.mpr fun h hh => by
          simpa [first] using same h (List.mem_cons_of_mem g hh)
      refine ⟨_, if_pos all, ?_⟩
      rw [first]

/-- A datum with a shape can be laid out, in that shape. -/
theorem Shaped.exists_spread {d : Input α} {shape : List Nat} (h : Shaped d shape) :
    ∃ g, spread d = some g ∧ g.shape = shape := by
  have members {xs : List (Input α)} {shape : List Nat} (some_member : xs ≠ [])
      (each : ∀ d ∈ xs, ∃ g, spread d = some g ∧ g.shape = shape) :
      ∃ g, (spreadAll xs).bind Grid.stack = some g ∧ g.shape = xs.length :: shape := by
    have laid (xs : List (Input α)) (each : ∀ d ∈ xs, ∃ g, spread d = some g ∧ g.shape = shape) :
        ∃ gs, spreadAll xs = some gs ∧ gs.length = xs.length ∧ ∀ g ∈ gs, g.shape = shape := by
      induction xs with
      | nil => exact ⟨[], rfl, rfl, fun g hg => by cases hg⟩
      | cons d ds ih =>
          obtain ⟨g, hg, shape_g⟩ := each d List.mem_cons_self
          obtain ⟨gs, hgs, length, shapes⟩ := ih fun e he => each e (List.mem_cons_of_mem d he)
          refine ⟨g :: gs, by simp [spreadAll, hg, hgs], by simp [length], fun f hf => ?_⟩
          rcases List.mem_cons.mp hf with rfl | hf
          · exact shape_g
          · exact shapes f hf
    obtain ⟨gs, hgs, length, shapes⟩ := laid xs each
    have some_grid : gs ≠ [] := by
      rintro rfl
      exact some_member (List.eq_nil_of_length_eq_zero length.symm)
    obtain ⟨h, hh, shape_h⟩ := stack_of_shapes some_grid shapes
    exact ⟨h, by rw [hgs]; exact hh, length ▸ shape_h⟩
  induction h with
  | atom s a => exact ⟨_, rfl, rfl⟩
  | element s k a => exact ⟨_, rfl, rfl⟩
  | array s rigid k shape cells => exact ⟨_, rfl, rfl⟩
  | emptyList s => exact ⟨_, rfl, rfl⟩
  | emptyTuple s => exact ⟨_, rfl, rfl⟩
  | list some_member _ ih => exact members some_member ih
  | tuple some_member _ ih => exact members some_member ih

/-- What stands in a member is what stands in its rectangle. -/
theorem atMember_of_lays {xs : List (Input α)} {gs : List (Grid α)}
    (h : List.Forall₂ Lays xs gs) (i : Nat) (path : List Nat) :
    atMember xs i path = gs[i]?.bind fun g =>
      (Grid.place g.shape path).bind fun k => g.cells[k]?.map toAtom := by
  induction h generalizing i with
  | nil => rfl
  | cons first _ ih =>
      cases i with
      | zero => exact first.at? path
      | succ i => exact ih i

theorem lays_of_spreadAll {xs : List (Input α)} {gs : List (Grid α)}
    (each : ∀ e ∈ xs, ∀ {g}, spread e = some g → e.Lays g) (h : spreadAll xs = some gs) :
    List.Forall₂ Lays xs gs := by
  have spreads := spreadAll_eq_some.mp h
  clear h
  induction spreads with
  | nil => exact .nil
  | cons first _ rest =>
      exact .cons (each _ List.mem_cons_self first)
        (rest fun e he => each e (List.mem_cons_of_mem _ he))

section Members

variable {xs : List (Input α)} {gs : List (Grid α)} (laid : List.Forall₂ Lays xs gs)
  {shape : List Nat} (same : ∀ g ∈ gs, g.shape = shape)

include laid same

theorem length_of_members : ∀ g ∈ gs, g.cells.length = Grid.volume shape := by
  intro g hg
  obtain ⟨e, -, lays⟩ := Outcome.exists_of_forall₂ laid hg
  rw [← same g hg]
  exact lays.length

/-- What stands in a member stands in the row of that member. -/
theorem atMember_of_rows (i : Nat) (path : List Nat) : atMember xs i path =
    (Grid.place (gs.length :: shape) (i :: path)).bind fun k =>
      (gs.flatMap (·.cells))[k]?.map toAtom := by
  rw [atMember_of_lays laid, Grid.place]
  split
  · rename_i inside
    rw [Option.bind_map, List.getElem?_eq_getElem inside, Option.bind_some,
      same _ (List.getElem_mem inside)]
    refine Option.bind_congr fun k hk => ?_
    have found := Grid.getElem?_rows (length_of_members laid same) i (Grid.place_lt hk)
    rw [List.getElem?_eq_getElem inside, Option.bind_some] at found
    exact congrArg (Option.map toAtom) found.symm
  · rename_i outside
    rw [List.getElem?_eq_none (Nat.le_of_not_lt outside)]
    rfl

end Members

/-- Members of one shape are laid out side by side. -/
theorem lays_of_members {d : Input α} {xs : List (Input α)} {g : Grid α}
    (empty : xs = [] → Shaped d [0])
    (sequence : ∀ shape, xs ≠ [] → (∀ e ∈ xs, Shaped e shape) → Shaped d (xs.length :: shape))
    (nowhere : d.at? [] = none) (below : ∀ i path, d.at? (i :: path) = atMember xs i path)
    (ih : ∀ e ∈ xs, ∀ {g}, spread e = some g → e.Lays g)
    (h : (spreadAll xs).bind Grid.stack = some g) : d.Lays g := by
  obtain ⟨gs, hgs, stacked⟩ := Option.bind_eq_some_iff.mp h
  have laid := lays_of_spreadAll ih hgs
  cases gs with
  | nil =>
      cases laid
      cases stacked
      refine ⟨empty rfl, rfl, fun _ hc => (nomatch hc), fun path => ?_, Grid.suits_nil⟩
      cases path with
      | nil => exact nowhere
      | cons i path => exact below i path
  | cons first rest =>
      obtain ⟨same, rfl⟩ := stack_cons stacked
      have member (f : Grid α) (hf : f ∈ first :: rest) : ∃ e ∈ xs, e.Lays f :=
        Outcome.exists_of_forall₂ laid hf
      refine ⟨?shaped, ?length, ?leaves, fun path => ?found, ?suits⟩
      case shaped =>
        rw [← laid.length_eq]
        refine sequence first.shape ?_ fun e he => ?_
        · rintro rfl
          cases laid
        · obtain ⟨f, hf, lays⟩ := Outcome.exists_of_forall₂ laid.flip he
          exact same f hf ▸ lays.shaped
      case length =>
        rw [Grid.volume_cons, List.length_flatMap,
          List.map_congr_left (length_of_members laid same), List.map_const',
          List.sum_replicate_nat]
      case leaves =>
        intro c hc
        obtain ⟨f, hf, hc⟩ := List.mem_flatMap.mp hc
        obtain ⟨e, -, lays⟩ := member f hf
        exact lays.leaves c hc
      case found =>
        cases path with
        | nil => exact nowhere
        | cons i path => exact (below i path).trans (atMember_of_rows laid same i path)
      case suits =>
        refine Grid.Suits.joinAll fun f hf => ?_
        obtain ⟨e, -, lays⟩ := member f hf
        exact lays.suits

theorem suits_of_stores {k : Kind} {cells : List (Input α)} (numbers : k.isNumeric = true)
    (h : ∀ c ∈ cells, k.Stores c.toAtom) : Grid.Suits (some k) cells where
  numeric := ⟨fun _ c hc => (h c hc).numeric.2, fun _ => numbers⟩
  real _ notComplex c hc z same := by
    have stores := h c hc
    rw [same] at stores
    exact notComplex stores

/-- Whatever a plain datum is laid out as lays it out. -/
theorem Plain.lays_of_spread {d : Input α} (plain : d.Plain) {g : Grid α}
    (h : spread d = some g) : d.Lays g := by
  induction plain generalizing g with
  | atom s a =>
      cases h
      refine ⟨.atom s a, rfl, ?_, ?_, ?_, ?_⟩
      · exact fun c hc => .inl ⟨s, a, List.mem_singleton.mp hc⟩
      · intro path
        cases path <;> rfl
      · show a.IsNumeric ↔ ∀ c ∈ [Datum.atom s a], c.toAtom.IsNumeric
        rw [List.forall_mem_singleton]
        rfl
      · intro _ notComplex c hc z same
        rw [List.mem_singleton.mp hc] at same
        rw [show a = .complex z from same] at notComplex
        exact notComplex rfl
  | @element s k a stores =>
      cases h
      refine ⟨.element s k a, rfl, ?_, ?_, ?_⟩
      · exact fun c hc => .inr ⟨s, k, a, List.mem_singleton.mp hc⟩
      · intro path
        cases path <;> rfl
      · exact suits_of_stores stores.numeric.1 (List.forall_mem_singleton.mpr stores)
  | list _ ih =>
      refine lays_of_members ?_ (fun _ => .list) rfl (fun _ _ => rfl) (fun e he _ => ih e he) h
      rintro rfl
      exact .emptyList _
  | tuple _ ih =>
      refine lays_of_members ?_ (fun _ => .tuple) rfl (fun _ _ => rfl) (fun e he _ => ih e he) h
      rintro rfl
      exact .emptyTuple _
  | @array s rigid k shape cells numbers full stores =>
      cases h
      refine ⟨.array .., full, ?_, ?_, ?_⟩
      · intro c hc
        obtain ⟨t, a, rfl, -⟩ := stores c hc
        exact .inl ⟨t, a, rfl⟩
      · intro path
        have read (i : Nat) : cells[i]?.map toAtom = cells[i]?.bind fun c => some c.toAtom :=
          Option.map_eq_bind
        simp only [read]
        cases path <;> rfl
      · refine suits_of_stores numbers fun c hc => ?_
        obtain ⟨t, a, rfl, holds⟩ := stores c hc
        exact holds

/-- A datum has one shape only. -/
theorem Shaped.unique {d : Input α} {s t : List Nat} (hs : Shaped d s) (ht : Shaped d t) :
    s = t := by
  obtain ⟨g, hg, rfl⟩ := hs.exists_spread
  obtain ⟨f, hf, rfl⟩ := ht.exists_spread
  cases hg.symm.trans hf
  rfl

/-- Plain data are laid out if they have a shape of not too many dimensions. -/
theorem Plain.grid_eq_some {d : Input α} (plain : d.Plain) {shape : List Nat} :
    (∃ g, d.grid = some g ∧ g.shape = shape) ↔
      Shaped d shape ∧ shape.length ≤ maxDimensions := by
  constructor
  · rintro ⟨g, hg, rfl⟩
    obtain ⟨f, hf, hg⟩ := Option.bind_eq_some_iff.mp hg
    split at hg
    · rename_i few
      cases hg
      exact ⟨(plain.lays_of_spread hf).shaped, few⟩
    · cases hg
  · rintro ⟨shaped, few⟩
    obtain ⟨g, hg, rfl⟩ := shaped.exists_spread
    exact ⟨g, by rw [grid, hg, Option.bind_some, if_pos few], rfl⟩

theorem Plain.lays_of_grid {d : Input α} (plain : d.Plain) {g : Grid α} (h : d.grid = some g) :
    d.Lays g := by
  obtain ⟨f, hf, h⟩ := Option.bind_eq_some_iff.mp h
  split at h
  · cases h
    exact plain.lays_of_spread hf
  · cases h

end Datum

end ConicModel
