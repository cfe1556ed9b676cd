/-
# Which data a variable accepts

A variable takes plain data of a shape that fits (`Variable.Takes`): a number if it is
one-by-one, a vector of its length if it is a column, and a matrix of its own shape.  The
elements have to be numbers, and must have no imaginary part unless the sign is complex.  That
is all (`Datum.RepresentedBy`): such data are accepted, and nothing else is.

The way from a datum to what is stored leads through a rectangle, and from there to a number or
to a matrix.  A number is handled as the one-by-one matrix that it counts as
(`Variable.toMatrix_store`), so what is stored is only looked at once.
-/
import ConicModel.Proofs.Datum.Rectangle
import ConicModel.Proofs.Solution.Atomicity

namespace ConicModel

variable {α : Type}

/-! ## Shapes that fit -/

namespace Variable

/-- The shapes of the data that a variable takes. -/
inductive Takes (x : Variable) : List Nat → Prop
  | number : x.rows = 1 → x.cols = 1 → Takes x []
  | column : x.cols = 1 → Takes x [x.rows]
  | matrix : Takes x [x.rows, x.cols]

/-- What is said of a shape that does not fit. -/
inductive Misfit (x : Variable) : List Nat → Refusal → Prop
  | number : ¬(x.rows = 1 ∧ x.cols = 1) → Misfit x [] .numberForMatrix
  | vector (n : Nat) : x.cols ≠ 1 → Misfit x [n] .vectorForMatrix
  | length {n : Nat} : x.cols = 1 → x.rows ≠ n → Misfit x [n] (.vectorLength n)
  | array {shape : List Nat} : 2 ≤ shape.length → shape ≠ [x.rows, x.cols] →
      Misfit x shape (.arrayShape shape)

/-- The path to an entry in data of a shape that fits. -/
def path : List Nat → Nat → Nat → List Nat
  | [], _, _ => []
  | [_], i, _ => [i]
  | _, i, j => [i, j]

variable {x : Variable} {shape : List Nat}

theorem fits_ok : x.fits shape = .ok () ↔ x.Takes shape := by
  constructor
  · intro h
    match shape with
    | [] =>
        by_cases one : x.rows = 1 ∧ x.cols = 1
        · exact .number one.1 one.2
        · cases (if_neg one).symm.trans h
    | [n] =>
        by_cases column : x.cols = 1
        · by_cases length : x.rows = n
          · exact length ▸ .column column
          · simp [fits, column, length] at h
        · simp [fits, column] at h
    | a :: b :: rest =>
        by_cases same : a :: b :: rest = [x.rows, x.cols]
        · exact same ▸ .matrix
        · cases (if_neg same).symm.trans h
  · rintro (⟨rows, cols⟩ | column | _)
    · exact if_pos ⟨rows, cols⟩
    · simp [fits, column]
    · exact if_pos rfl

theorem fits_error {r : Refusal} (h : x.fits shape = .error r) : x.Misfit shape r := by
  match shape with
  | [] =>
      by_cases one : x.rows = 1 ∧ x.cols = 1
      · cases (if_pos one).symm.trans h
      · cases (if_neg one).symm.trans h
        exact .number one
  | [n] =>
      by_cases column : x.cols = 1
      · by_cases length : x.rows = n
        · simp [fits, column, length] at h
        · simp [fits, column, length] at h
          exact h ▸ .length column length
      · simp [fits, column] at h
        exact h ▸ .vector n column
  | a :: b :: rest =>
      by_cases same : a :: b :: rest = [x.rows, x.cols]
      · cases (if_pos same).symm.trans h
      · cases (if_neg same).symm.trans h
        exact .array (by simp) same

theorem Takes.volume (h : x.Takes shape) : Grid.volume shape = x.rows * x.cols := by
  cases h with
  | number rows cols => rw [rows, cols]; rfl
  | column cols => rw [cols, Grid.volume_cons]; rfl
  | matrix => simp [Grid.volume]

theorem Takes.few (h : x.Takes shape) : shape.length ≤ Datum.maxDimensions := by
  cases h <;> simp [Datum.maxDimensions]

/-- Entries are laid out row by row. -/
theorem Takes.place (h : x.Takes shape) {i j : Nat} (hi : i < x.rows) (hj : j < x.cols) :
    Grid.place shape (path shape i j) = some (i * x.cols + j) := by
  cases h with
  | number rows cols =>
      rw [rows] at hi
      rw [cols] at hj
      rw [Nat.lt_one_iff.mp hi, Nat.lt_one_iff.mp hj, Nat.zero_mul]
      rfl
  | column cols =>
      rw [cols] at hj
      simp [path, Grid.place, hi, cols, Nat.lt_one_iff.mp hj, Grid.volume]
  | matrix => simp [path, Grid.place, hi, hj, Grid.volume]

end Variable

namespace Datum

/-- What stands on the path to an entry is the cell of that entry. -/
theorem Lays.cell {d : Input α} {g : Grid α} (h : d.Lays g) {x : Variable}
    (takes : x.Takes g.shape) {i j : Nat} (hi : i < x.rows) (hj : j < x.cols) :
    ∃ c ∈ g.cells, g.cells[i * x.cols + j]? = some c ∧
      d.at? (Variable.path g.shape i j) = some c.toAtom := by
  have place := takes.place hi hj
  have inside : i * x.cols + j < g.cells.length := h.length ▸ Grid.place_lt place
  refine ⟨_, List.getElem_mem inside, List.getElem?_eq_getElem inside, ?_⟩
  rw [h.at?, place, Option.bind_some, List.getElem?_eq_getElem inside, Option.map_some]

/-- Every cell is that of an entry. -/
theorem Lays.exists_entry {d : Input α} {g : Grid α} (h : d.Lays g) {x : Variable}
    (takes : x.Takes g.shape) {c : Input α} (hc : c ∈ g.cells) :
    ∃ i < x.rows, ∃ j < x.cols, g.cells[i * x.cols + j]? = some c := by
  obtain ⟨k, hk, rfl⟩ := List.getElem_of_mem hc
  have inside : k < x.rows * x.cols := by rwa [← takes.volume, ← h.length]
  obtain ⟨i, hi, j, hj, same⟩ := exists_index inside
  exact ⟨i, hi, j, hj, by rw [← same, List.getElem?_eq_getElem hk]⟩

end Datum

/-! ## What is stored -/

variable [Scalar α]

/-- A number as it is held under a sign: only a complex sign has imaginary parts. -/
def Sign.element (sign : Sign) (z : Cplx α) : Cplx α :=
  if sign = .complex then z else .ofReal z.re

namespace Dense

variable {R S : Type}

theorem all_eq_true [Zero R] {A : Dense R} {p : R → Bool} :
    A.all p = true ↔ ∀ i < A.rows, ∀ j < A.cols, p (A.get i j) = true := by
  constructor
  · intro all i hi j hj
    have inside : i * A.cols + j < A.data.size := A.size_eq ▸ index_lt hi hj
    rw [get, if_pos hj, Array.getD_eq_getD_getElem?, Array.getElem?_eq_getElem inside]
    exact Array.all_eq_true.mp all _ inside
  · intro each
    by_contra fails
    obtain ⟨i, hi, j, hj, fails⟩ := exists_of_all_eq_false (Bool.eq_false_iff.mpr fails)
    exact Bool.eq_false_iff.mp fails (each i hi j hj)

theorem map_replicate (f : R → S) (r c : Nat) (x : R) :
    (replicate r c x).map f = replicate r c (f x) := by
  simp [map, replicate, ofFn, Function.comp_def]

theorem all_replicate_one [Zero R] (p : R → Bool) (x : R) : (replicate 1 1 x).all p = p x := by
  have entry {i j : Nat} (hi : i < 1) (hj : j < 1) : (replicate 1 1 x).get i j = x :=
    get_ofFn _ hi hj
  rw [Bool.eq_iff_iff, all_eq_true]
  exact ⟨fun all => entry Nat.one_pos Nat.one_pos ▸ all 0 Nat.one_pos 0 Nat.one_pos,
    fun h i hi j hj => (entry hi hj).symm ▸ h⟩

end Dense

/-- Converting a number is converting the one-by-one matrix that it counts as. -/
theorem Value.toMatrix_convert_number (sign : Sign) (z : Number α) :
    (toMatrix <$> number <$> z.convert sign fun z : Cplx α => isZero z.im)
      = (number z).toMatrix.convert sign fun A => A.all fun z => isZero z.im := by
  by_cases complex : sign = .complex
  · cases z with
    | real y =>
        change α at y
        have elements : Cplx.ofReal <$> Dense.replicate 1 1 y = Dense.replicate 1 1 (.ofReal y) :=
          Dense.map_replicate Cplx.ofReal 1 1 y
        simp only [Numeric.convert, if_pos complex, toMatrix, Numeric.toComplex, elements]
        rfl
    | complex z =>
        simp only [Numeric.convert, if_pos complex, toMatrix, Numeric.toComplex]
        rfl
  · cases z with
    | real y =>
        simp only [Numeric.convert, if_neg complex, toMatrix]
        rfl
    | complex z =>
        change Cplx α at z
        have elements : Cplx.re <$> Dense.replicate 1 1 z = Dense.replicate 1 1 z.re :=
          Dense.map_replicate Cplx.re 1 1 z
        simp only [Numeric.convert, if_neg complex, toMatrix, Dense.all_replicate_one, elements]
        by_cases real : isZero z.im = true
        · rw [if_pos real, if_pos real]
          rfl
        · rw [if_neg real, if_neg real]
          rfl

namespace Variable

variable {x : Variable} {sign : Sign}

/-- A number that is stored counts as the matrix that would be stored in its place. -/
theorem toMatrix_store {a : Numeric NdArray α} (takes : x.Takes a.dims) :
    Value.toMatrix <$> x.store sign (.numbers a)
      = (x.lay a).convert sign fun A => A.all fun z => isZero z.im := by
  by_cases dims : a.dims = []
  · have laid : x.lay a = (Value.number (single a)).toMatrix := by
      rw [dims] at takes
      cases takes with
      | number rows cols =>
          rw [lay, rows, cols]
          cases a <;> rfl
    rw [store, if_pos dims, laid, Value.toMatrix_convert_number]
  · rw [store, if_neg dims]
    cases (x.lay a).convert sign fun A => A.all fun z => isZero z.im <;> rfl

theorem shape_lay (x : Variable) (a : Numeric NdArray α) :
    (x.lay a).on Dense.shape = (x.rows, x.cols) := by
  cases a <;> rfl

/-- What is stored is a number only if an array without dimensions is assigned. -/
theorem isNumber_of_store {a : Numeric NdArray α} {v : Value α}
    (h : x.store sign (.numbers a) = .ok v) : (∃ z, v = .number z) ↔ a.dims = [] := by
  rw [store] at h
  by_cases dims : a.dims = []
  · rw [if_pos dims] at h
    obtain ⟨z, -, rfl⟩ := Outcome.except_map_ok.mp h
    exact ⟨fun _ => dims, fun _ => ⟨z, rfl⟩⟩
  · rw [if_neg dims] at h
    obtain ⟨A, -, rfl⟩ := Outcome.except_map_ok.mp h
    refine ⟨?_, fun none => (dims none).elim⟩
    rintro ⟨_, number⟩
    cases number

end Variable

/-- Converting for a sign gives complex elements exactly for a complex sign, and each of them as
it is held under that sign. -/
theorem Numeric.convert_ok {sign : Sign} {p : Dense (Cplx α) → Bool} {A B : Numeric Dense α}
    (h : A.convert sign p = .ok B) : (B.isComplex = true ↔ sign = .complex) ∧
      (∀ i j, B.toComplex.get i j = sign.element (A.toComplex.get i j)) ∧
      (sign ≠ .complex → ∀ z, A = .complex z → p z = true) := by
  unfold convert at h
  split at h
  · rename_i complex
    cases h
    refine ⟨⟨fun _ => complex, fun _ => rfl⟩, fun i j => ?_, fun real => (real complex).elim⟩
    rw [Sign.element, if_pos complex, toComplex]
  · rename_i real
    have element (z : Cplx α) : sign.element z = .ofReal z.re := if_neg real
    split at h
    · rename_i y
      cases h
      refine ⟨⟨fun h => (by cases h), fun complex => (real complex).elim⟩, fun i j => ?_,
        fun _ z hz => by cases hz⟩
      have entry : (Cplx.ofReal <$> y : Dense (Cplx α)).get i j = .ofReal (y.get i j) :=
        Dense.get_map rfl y i j
      rw [element, toComplex, entry]
      rfl
    · rename_i z
      split at h
      · rename_i zero
        cases h
        refine ⟨⟨fun h => (by cases h), fun complex => (real complex).elim⟩, fun i j => ?_,
          fun _ w hw => by cases hw; exact zero⟩
        have parts : (Cplx.re <$> z : Dense α).get i j = (z.get i j).re := Dense.get_map rfl z i j
        have entry : (Cplx.ofReal <$> (Cplx.re <$> z : Dense α) : Dense (Cplx α)).get i j
            = .ofReal ((Cplx.re <$> z : Dense α).get i j) := Dense.get_map rfl _ i j
        rw [element, toComplex, entry, parts, toComplex]
      · cases h

/-! ## Elements of a rectangle -/

theorem Atom.isReal_iff (zero : isZero (0 : α) = true) (a : Atom α) :
    a.IsReal ↔ isZero a.toCplx.im = true := by
  cases a with
  | complex z => exact Iff.rfl
  | null | bool b | int n | real y | text s => exact ⟨fun _ => zero, fun _ => trivial⟩

theorem Atom.isReal_of_not_complex {a : Atom α} (h : ∀ z, a ≠ .complex z) : a.IsReal := by
  cases a with
  | complex z => exact (h z rfl).elim
  | null | bool b | int n | real y | text s => trivial

theorem Atom.toCplx_of_not_complex {a : Atom α} (h : ∀ z, a ≠ .complex z) :
    a.toCplx = .ofReal a.toReal := by
  cases a with
  | complex z => exact (h z rfl).elim
  | null | bool b | int n | real y | text s => rfl

namespace ArrayView

theorem shape_ofGrid (g : Grid α) : (ofGrid g).shape = g.shape := by
  unfold ofGrid
  split <;> rfl

/-- The numbers of a rectangle. -/
theorem ofGrid_numbers {g : Grid α} (numeric : g.kind.isNumeric = true) :
    ofGrid g = .numbers (if g.kind = .complex
      then .complex ⟨g.shape, (g.cells.map fun d => d.toAtom.toCplx).toArray⟩
      else .real ⟨g.shape, (g.cells.map fun d => d.toAtom.toReal).toArray⟩) := by
  unfold ofGrid
  split
  · rename_i text
    rw [text] at numeric
    cases numeric
  · rename_i loose
    rw [loose] at numeric
    cases numeric
  · rename_i complex
    rw [if_pos complex]
  · rename_i complex
    rw [if_neg complex]

theorem exists_numbers {g : Grid α} (numeric : g.kind.isNumeric = true) :
    ∃ a, ofGrid g = .numbers a ∧ a.dims = g.shape ∧ (a.isComplex = true ↔ g.kind = .complex) := by
  refine ⟨_, ofGrid_numbers numeric, ?_, ?_⟩
  · split <;> rfl
  · split
    · rename_i complex
      exact ⟨fun _ => complex, fun _ => rfl⟩
    · rename_i complex
      exact ⟨fun h => (by cases h), fun h => (complex h).elim⟩

/-- A rectangle of something else than numbers is none of numbers. -/
theorem ofGrid_others {g : Grid α} (others : ¬g.kind.isNumeric = true) (x : Variable)
    (sign : Sign) : x.store sign (ofGrid g) = .error .notNumeric := by
  cases hk : g.kind with
  | text | loose => rw [ofGrid, hk]; rfl
  | _ => exact (others (by rw [hk]; rfl)).elim

end ArrayView

namespace Datum

/-- The numbers of a rectangle as a matrix. -/
theorem Lays.get_lay {d : Input α} {g : Grid α} (h : d.Lays g) {x : Variable}
    {a : Numeric NdArray α} (numeric : g.kind.isNumeric = true)
    (numbers : ArrayView.ofGrid g = .numbers a) {i j : Nat} (hi : i < x.rows) (hj : j < x.cols)
    {c : Input α} (hc : g.cells[i * x.cols + j]? = some c) :
    (x.lay a).toComplex.get i j = c.toAtom.toCplx := by
  have entry {R : Type} [Zero R] (f : Input α → R) :
      (Dense.ofRowMajor x.rows x.cols (g.cells.map f).toArray).get i j = f c := by
    rw [Dense.ofRowMajor, Dense.get_ofFn _ hi hj]
    simp [hc]
  rw [ArrayView.ofGrid_numbers numeric] at numbers
  by_cases complex : g.kind = .complex
  · rw [if_pos complex] at numbers
    cases numbers
    exact entry fun d => d.toAtom.toCplx
  · rw [if_neg complex] at numbers
    cases numbers
    rw [Atom.toCplx_of_not_complex (h.suits.real numeric complex c (List.mem_of_getElem? hc))]
    refine (Dense.get_map (f := Cplx.ofReal) rfl _ i j).trans ?_
    exact congrArg Cplx.ofReal (entry fun d => d.toAtom.toReal)

/-- Where the numbers of a rectangle are real, or pass for it, so does every cell. -/
theorem Lays.isReal (zero : isZero (0 : α) = true) {d : Input α} {g : Grid α} (h : d.Lays g)
    {x : Variable} (takes : x.Takes g.shape) {a : Numeric NdArray α}
    (numeric : g.kind.isNumeric = true) (numbers : ArrayView.ofGrid g = .numbers a)
    (complex : a.isComplex = true ↔ g.kind = .complex)
    (checked : ∀ z, x.lay a = .complex z → (z.all fun z => isZero z.im) = true) :
    ∀ c ∈ g.cells, c.toAtom.IsReal := by
  intro c hc
  cases a with
  | real a =>
      have plain : g.kind ≠ .complex := fun h => by cases complex.mpr h
      exact Atom.isReal_of_not_complex (h.suits.real numeric plain c hc)
  | complex a =>
      obtain ⟨i, hi, j, hj, cell⟩ := h.exists_entry takes hc
      have zeros := Dense.all_eq_true.mp (checked _ rfl) i hi j hj
      rw [Atom.isReal_iff zero, ← h.get_lay numeric numbers hi hj cell]
      exact zeros

/-- A variable can hold a datum of this shape under a sign. -/
structure RepresentedBy (d : Input α) (x : Variable) (sign : Sign) (shape : List Nat) :
    Prop where
  shaped : d.Shaped shape
  takes : x.Takes shape
  numeric : ∀ path a, d.at? path = some a → a.IsNumeric
  real : sign ≠ .complex → ∀ path a, d.at? path = some a → a.IsReal

end Datum

/-- A value holds the elements of a datum: it has the shape of the variable, elements of the
type that the sign asks for, and every element in its place.  It is a number only if the datum
is one. -/
structure Value.Copies (v : Value α) (x : Variable) (sign : Sign) (d : Input α)
    (shape : List Nat) : Prop where
  shape_eq : v.shape = (x.rows, x.cols)
  isNumber : (∃ z, v = .number z) ↔ shape = []
  isComplex : v.toMatrix.isComplex = true ↔ sign = .complex
  element : ∀ i < x.rows, ∀ j < x.cols, ∃ a, d.at? (Variable.path shape i j) = some a ∧
    v.toMatrix.toComplex.get i j = sign.element a.toCplx

namespace Variable

/-- How a variable answers to a datum, and why. -/
inductive Judges (x : Variable) (sign : Sign) (d : Input α) : Except Refusal (Value α) → Prop
  | shapeless : (∀ shape, d.Shaped shape → Datum.maxDimensions < shape.length) →
      Judges x sign d (.error .ragged)
  | misfit {shape : List Nat} {r : Refusal} : d.Shaped shape →
      shape.length ≤ Datum.maxDimensions → ¬x.Takes shape → x.Misfit shape r →
      Judges x sign d (.error r)
  | notNumeric {shape path : List Nat} {a : Atom α} : d.Shaped shape → x.Takes shape →
      d.at? path = some a → ¬a.IsNumeric → Judges x sign d (.error .notNumeric)
  | imaginary {shape path : List Nat} {a : Atom α} : d.Shaped shape → x.Takes shape →
      sign ≠ .complex → d.at? path = some a → ¬a.IsReal → Judges x sign d (.error .complex)
  | accepted {shape : List Nat} {v : Value α} : d.RepresentedBy x sign shape →
      v.Copies x sign d shape → Judges x sign d (.ok v)

variable {x : Variable} {sign : Sign} {d : Input α} {g : Grid α}

/-- Numbers that fit are judged by their imaginary parts. -/
theorem judges_numbers (zero : isZero (0 : α) = true) (lays : d.Lays g)
    (takes : x.Takes g.shape) (numeric : g.kind.isNumeric = true) :
    x.Judges sign d (x.store sign (.ofGrid g)) := by
  obtain ⟨a, numbers, dims, complex⟩ := ArrayView.exists_numbers numeric
  have same : Value.toMatrix <$> x.store sign (.numbers a)
      = (x.lay a).convert sign fun A => A.all fun z => isZero z.im :=
    toMatrix_store (dims ▸ takes)
  have entry {i j : Nat} (hi : i < x.rows) (hj : j < x.cols) :
      ∃ c : Input α, d.at? (path g.shape i j) = some c.toAtom ∧
        (x.lay a).toComplex.get i j = c.toAtom.toCplx := by
    obtain ⟨c, -, cell, found⟩ := lays.cell takes hi hj
    exact ⟨c, found, lays.get_lay numeric numbers hi hj cell⟩
  rw [numbers]
  cases stored : x.store sign (.numbers a) with
  | ok v =>
      rw [stored] at same
      obtain ⟨isComplex, element, checked⟩ := Numeric.convert_ok same.symm
      have numbers_only := lays.forall_elements.mpr (lays.suits.numeric.mp numeric)
      have real (reals : sign ≠ .complex) := lays.forall_elements.mpr
        (lays.isReal zero takes numeric numbers complex (checked reals))
      refine .accepted ⟨lays.shaped, takes, numbers_only, real⟩
        ⟨?_, dims ▸ isNumber_of_store stored, isComplex, fun i hi j hj => ?_⟩
      · exact (Numeric.on_convert same.symm).trans (x.shape_lay a)
      · obtain ⟨c, found, same⟩ := entry hi hj
        exact ⟨_, found, by rw [element, same]⟩
  | error r =>
      rw [stored] at same
      obtain ⟨rfl, reals, z, hz, fails⟩ := Numeric.convert_error same.symm
      obtain ⟨i, hi, j, hj, imaginary⟩ := Dense.exists_of_all_eq_false fails
      obtain ⟨rows, cols⟩ : z.rows = x.rows ∧ z.cols = x.cols :=
        Prod.mk.inj ((congrArg (Numeric.on Dense.shape) hz).symm.trans (x.shape_lay a))
      rw [rows] at hi
      rw [cols] at hj
      obtain ⟨c, found, same⟩ := entry hi hj
      refine .imaginary lays.shaped takes reals found fun isReal => ?_
      rw [Atom.isReal_iff zero, ← same, hz] at isReal
      exact Bool.eq_false_iff.mp imaginary isReal

/-- A rectangle that fits is judged by its elements. -/
theorem judges_store (zero : isZero (0 : α) = true) (lays : d.Lays g) (takes : x.Takes g.shape) :
    x.Judges sign d (x.store sign (.ofGrid g)) := by
  by_cases numeric : g.kind.isNumeric = true
  · exact judges_numbers zero lays takes numeric
  · rw [ArrayView.ofGrid_others numeric]
    obtain ⟨path, a, found, other⟩ : ∃ path a, d.at? path = some a ∧ ¬a.IsNumeric := by
      by_contra none
      refine numeric (lays.suits.numeric.mpr (lays.forall_elements.mp fun path a found => ?_))
      exact by_contra fun other => none ⟨path, a, found, other⟩
    exact .notNumeric lays.shaped takes found other

/-- Plain data that have no shape are refused before anything else. -/
theorem accept_of_shapeless (plain : d.Plain) (laid : d.grid = none) :
    x.accept sign d = .error .ragged := by
  have shapeless : d.toArray = none := by rw [Datum.toArray, laid]; rfl
  unfold accept
  split
  · cases plain
  · rw [shapeless]

/-- Plain data that are laid out are stored where their shape fits. -/
theorem accept_of_laid (plain : d.Plain) (laid : d.grid = some g) :
    x.accept sign d = (x.fits g.shape).bind fun _ => x.store sign (.ofGrid g) := by
  have array : d.toArray = some (.ofGrid g) := by rw [Datum.toArray, laid]; rfl
  have dense (s t A) : d ≠ .sparse s t A := by
    rintro rfl
    cases plain
  rw [accept_of_array dense array, ArrayView.shape_ofGrid]

/-- Plain data are judged by their shape first and then by their elements. -/
theorem judges_accept (zero : isZero (0 : α) = true) (plain : d.Plain) :
    x.Judges sign d (x.accept sign d) := by
  cases laid : d.grid with
  | none =>
      rw [accept_of_shapeless plain laid]
      refine .shapeless fun shape shaped => Nat.lt_of_not_le fun few => ?_
      obtain ⟨g, hg, -⟩ := plain.grid_eq_some.mpr ⟨shaped, few⟩
      cases laid.symm.trans hg
  | some g =>
      obtain ⟨shaped, few⟩ := plain.grid_eq_some.mp ⟨g, laid, rfl⟩
      rw [accept_of_laid plain laid]
      cases fit : x.fits g.shape with
      | ok u => exact judges_store zero (plain.lays_of_grid laid) (fits_ok.mp fit)
      | error r =>
          refine .misfit shaped few (fun takes => ?_) (fits_error fit)
          cases (fits_ok.mpr takes).symm.trans fit

/-- Data that a variable can hold are accepted. -/
theorem exists_accept (zero : isZero (0 : α) = true) (plain : d.Plain) {shape : List Nat}
    (h : d.RepresentedBy x sign shape) : ∃ v, x.accept sign d = .ok v := by
  generalize answer : x.accept sign d = o
  have judged : x.Judges sign d o := answer ▸ judges_accept zero plain
  cases judged with
  | accepted => exact ⟨_, rfl⟩
  | shapeless none => exact (Nat.not_lt.mpr h.takes.few (none shape h.shaped)).elim
  | misfit shaped few misfit => exact (misfit (shaped.unique h.shaped ▸ h.takes)).elim
  | notNumeric _ _ found other => exact (other (h.numeric _ _ found)).elim
  | imaginary _ _ real found imaginary => exact (imaginary (h.real real _ _ found)).elim

end Variable

end ConicModel
