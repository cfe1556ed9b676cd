/-
# A block of a solution vector

What a variable is given when its block of a real vector is written to it
(`Model.writeBlock_real`): a value of its shape, of which the real parts are the first `n`
elements of the block in column-major order, and the imaginary parts, if the variable is
complex, the `n` elements after them.

The way there leads through arrays of data, because what is written is assigned like any
other value.  `Variable.accept_block` says that such a block is always accepted.
-/
import ConicModel.Proofs.Evaluation
import ConicModel.Solution

namespace ConicModel

/-! ## Elements of arrays -/

theorem getD_extract {R : Type} (xs : Array R) {a b k : Nat} (d : R) (hk : a + k < b)
    (hb : b ≤ xs.size) : (xs.extract a b).getD k d = xs.getD (a + k) d := by
  have inside : k < min b xs.size - a := by omega
  rw [Array.getD_eq_getD_getElem?, Array.getD_eq_getD_getElem?, Array.getElem?_extract,
    if_pos inside]

theorem getD_map {R S : Type} (f : R → S) (xs : Array R) (k : Nat) (d : R) :
    (xs.map f).getD k (f d) = f (xs.getD k d) := by
  rw [Array.getD_eq_getD_getElem?, Array.getD_eq_getD_getElem?, Array.getElem?_map,
    Option.getD_map]

namespace Dense

variable {R : Type} [Zero R]

/-- Laid out row after row, the entries of a matrix are the matrix. -/
theorem get_ofRowMajor_data (A : Dense R) {i j : Nat} (hi : i < A.rows) (hj : j < A.cols) :
    (ofRowMajor A.rows A.cols A.data).get i j = A.get i j := by
  rw [ofRowMajor, get_ofFn _ hi hj, get, if_pos hj]

/-- A matrix filled column by column has its elements in that order. -/
theorem get_vec_ofColumnMajor (r c : Nat) (xs : Array R) {k : Nat} (hk : k < r * c) :
    (ofRowMajor r c (ofColumnMajor r c xs).data).vec.get k 0 = xs.getD k 0 := by
  have hr : 0 < r := Nat.pos_of_ne_zero fun h => by simp [h] at hk
  have hi : k % r < r := Nat.mod_lt k hr
  have hj : k / r < c := Nat.div_lt_of_lt_mul hk
  have matrix := get_ofRowMajor_data (ofColumnMajor r c xs) hi hj
  rw [get_vec _ hk]
  refine matrix.trans ?_
  rw [ofColumnMajor, get_ofFn _ hi hj, Nat.mul_comm, Nat.mod_add_div]

theorem get_vec_map {S : Type} [Zero S] {f : R → S} (h0 : f 0 = 0) (A : Dense R) {k : Nat}
    (hk : k < A.rows * A.cols) : (A.map f).vec.get k 0 = f (A.vec.get k 0) := by
  rw [get_vec A hk, get_vec (A.map f) hk]
  exact get_map h0 A _ _

/-- The only entry of a one-by-one matrix. -/
theorem get_vec_single (y : R) : (replicate 1 1 y).vec.get 0 0 = y := by
  have first : (replicate 1 1 y).get (0 % 1) (0 / 1) = y := get_ofFn _ Nat.one_pos Nat.one_pos
  exact (get_vec (replicate 1 1 y) Nat.one_pos).trans first

end Dense

variable {α : Type} [Scalar α]

/-! ## Arrays as data -/

theorem Datum.toArray_ofReal (a : NdArray α) (ha : a.shape.length ≤ Datum.maxDimensions) :
    (ofNumbers (.real a) : Input α).toArray = some (.numbers (.real a)) := by
  simp only [toArray, grid, ofNumbers, spread, Option.bind_some, if_pos ha, Option.map_some,
    ArrayView.ofGrid, Grid.kind, Option.getD_some, List.map_map]
  rw [show (fun d : Input α => d.toAtom.toReal) ∘ (fun x => Datum.atom 0 (.real x))
    = fun x => x from rfl, List.map_id']

theorem Datum.toArray_ofComplex (a : NdArray (Cplx α))
    (ha : a.shape.length ≤ Datum.maxDimensions) :
    (ofNumbers (.complex a) : Input α).toArray = some (.numbers (.complex a)) := by
  simp only [toArray, grid, ofNumbers, spread, Option.bind_some, if_pos ha, Option.map_some,
    ArrayView.ofGrid, Grid.kind, Option.getD_some, List.map_map]
  rw [show (fun d : Input α => d.toAtom.toCplx) ∘ (fun z => Datum.atom 0 (.complex z))
    = fun z => z from rfl, List.map_id']

/-! ## Blocks as values -/

/-- A value for a variable with the given elements in column-major order. -/
structure Value.Holds (v : Value α) (x : Variable) (element : Nat → Cplx α) : Prop where
  shape : v.shape = (x.rows, x.cols)
  entry : ∀ k < x.rows * x.cols, v.entry k = element k

theorem Value.entry_real_number (y : α) : (Value.number (.real y)).entry 0 = Cplx.ofReal y := by
  refine (Dense.get_vec_map (f := Cplx.ofReal) rfl (.replicate 1 1 y) Nat.one_pos).trans ?_
  rw [Dense.get_vec_single]

theorem Value.entry_complex_number (z : Cplx α) : (Value.number (.complex z)).entry 0 = z :=
  Dense.get_vec_single z

/-- Elements that are complex exactly if the sign asks for it are stored as they are. -/
theorem Numeric.convert_plain {F : Type → Type} [Functor F] {sign : Sign}
    {isReal : F (Cplx α) → Bool} {A : Numeric F α}
    (plain : A.isComplex = true ↔ sign = .complex) : A.convert sign isReal = .ok A := by
  cases A with
  | real x =>
      have real : sign ≠ .complex := fun h => by cases plain.mpr h
      rw [convert, if_neg real]
  | complex z => rw [convert, if_pos (plain.mp rfl), toComplex]

namespace Variable

variable {x : Variable} {sign : Sign}

/-- A datum that is seen as an array is stored if it fits. -/
theorem accept_of_array {d : Input α} {a : ArrayView α} (dense : ∀ s t A, d ≠ .sparse s t A)
    (hd : d.toArray = some a) :
    x.accept sign d = (x.fits a.shape).bind fun _ => x.store sign a := by
  unfold accept
  split
  · exact (dense _ _ _ rfl).elim
  · rw [hd]
    rfl

/-- A datum that is seen as an array of numbers is accepted if it fits. -/
theorem accept_of_toArray {d : Input α} {a : Numeric NdArray α} {v : Value α}
    (dense : ∀ s t A, d ≠ .sparse s t A) (hd : d.toArray = some (.numbers a))
    (fits : x.fits a.dims = .ok ()) (stored : x.store sign (.numbers a) = .ok v) :
    x.accept sign d = .ok v := by
  rw [accept_of_array dense hd]
  show (x.fits a.dims).bind (fun _ => x.store sign (.numbers a)) = _
  rw [fits]
  exact stored

theorem store_number {a : Numeric NdArray α} (dims : a.dims = [])
    (plain : a.isComplex = true ↔ sign = .complex) :
    x.store sign (.numbers a) = .ok (.number (single a)) := by
  have plain : (single a).isComplex = true ↔ sign = .complex := by cases a <;> exact plain
  rw [store, if_pos dims, Numeric.convert_plain plain]
  rfl

theorem store_matrix {a : Numeric NdArray α} (dims : a.dims ≠ [])
    (plain : a.isComplex = true ↔ sign = .complex) :
    x.store sign (.numbers a) = .ok (.matrix (x.lay a)) := by
  have plain : (x.lay a).isComplex = true ↔ sign = .complex := by cases a <;> exact plain
  rw [store, if_neg dims, Numeric.convert_plain plain]
  rfl

/-- A block for a scalar variable is accepted as a number. -/
theorem accept_number (one : x.rows = 1 ∧ x.cols = 1) {ys : Numeric Array α}
    (plain : ys.isComplex = true ↔ sign = .complex) (size : ys.on Array.size = 1) :
    ∃ d v, Flat.toInput x (.numbers ys) = .ok d ∧ x.accept sign d = .ok v ∧
      v.Holds x fun k => ys.toComplex.getD k 0 := by
  have fits : x.fits [] = .ok () := if_pos one
  cases ys with
  | real ys =>
      obtain ⟨y, rfl⟩ := Array.size_eq_one_iff.mp size
      refine ⟨.element 0 .real (.real y), .number (.real y), ?_, ?_, ?_, ?_⟩
      · rw [Flat.toInput, if_pos one]
        rfl
      · exact accept_of_toArray (fun s t A h => by cases h) rfl fits (store_number rfl plain)
      · rw [one.1, one.2]
        rfl
      · intro k hk
        rw [one.1, one.2] at hk
        rw [Nat.lt_one_iff.mp hk, Value.entry_real_number]
        exact (getD_map Cplx.ofReal #[y] 0 0).symm
  | complex zs =>
      obtain ⟨z, rfl⟩ := Array.size_eq_one_iff.mp size
      refine ⟨.element 0 .complex (.complex z), .number (.complex z), ?_, ?_, ?_, ?_⟩
      · rw [Flat.toInput, if_pos one]
        rfl
      · exact accept_of_toArray (fun s t A h => by cases h) rfl fits (store_number rfl plain)
      · rw [one.1, one.2]
        rfl
      · intro k hk
        rw [one.1, one.2] at hk
        rw [Nat.lt_one_iff.mp hk]
        exact Value.entry_complex_number z

/-- A block for any other variable is accepted as a matrix. -/
theorem accept_matrix (many : ¬(x.rows = 1 ∧ x.cols = 1)) {ys : Numeric Array α}
    (plain : ys.isComplex = true ↔ sign = .complex)
    (size : ys.on Array.size = x.rows * x.cols) :
    ∃ d v, Flat.toInput x (.numbers ys) = .ok d ∧ x.accept sign d = .ok v ∧
      v.Holds x fun k => ys.toComplex.getD k 0 := by
  have sized : ¬(Flat.numbers ys).size ≠ x.rows * x.cols := not_not.mpr size
  have fits : x.fits [x.rows, x.cols] = .ok () := if_pos rfl
  have few : [x.rows, x.cols].length ≤ Datum.maxDimensions := by
    show 2 ≤ 64
    decide
  cases ys with
  | real ys =>
      refine ⟨.ofNumbers (.real (Flat.arrange x.rows x.cols ys)), _, ?_,
        accept_of_toArray (fun s t A h => by cases h) (Datum.toArray_ofReal _ few) fits
          (store_matrix (List.cons_ne_nil _ _) plain), rfl, fun k hk => ?_⟩
      · rw [Flat.toInput, if_neg many, if_neg sized]
      · refine (Dense.get_vec_map (f := Cplx.ofReal) rfl _ hk).trans ?_
        refine (congrArg Cplx.ofReal (Dense.get_vec_ofColumnMajor _ _ ys hk)).trans ?_
        exact (getD_map Cplx.ofReal ys k 0).symm
  | complex zs =>
      refine ⟨.ofNumbers (.complex (Flat.arrange x.rows x.cols zs)), _, ?_,
        accept_of_toArray (fun s t A h => by cases h) (Datum.toArray_ofComplex _ few) fits
          (store_matrix (List.cons_ne_nil _ _) plain), rfl, fun k hk => ?_⟩
      · rw [Flat.toInput, if_neg many, if_neg sized]
      · exact Dense.get_vec_ofColumnMajor _ _ zs hk

/-- A block with as many elements as a variable has entries is accepted. -/
theorem accept_block {ys : Numeric Array α} (plain : ys.isComplex = true ↔ sign = .complex)
    (size : ys.on Array.size = x.rows * x.cols) :
    ∃ d v, Flat.toInput x (.numbers ys) = .ok d ∧ x.accept sign d = .ok v ∧
      v.Holds x fun k => ys.toComplex.getD k 0 := by
  by_cases one : x.rows = 1 ∧ x.cols = 1
  · exact accept_number one plain (by rw [size, one.1, one.2])
  · exact accept_matrix one plain size

end Variable

/-! ## Cutting a block out -/

namespace Flat

theorem place_of_le {size : Nat} {i : Int} (h0 : 0 ≤ i) (hi : i ≤ size) :
    place size i = i.toNat := by
  rw [place, if_neg (not_lt.mpr h0)]
  omega

omit [Scalar α] in
theorem slice_real (xs : Array α) {a b : Int} (h0 : 0 ≤ a) (hab : a ≤ b) (hb : b ≤ xs.size) :
    (numbers (.real xs)).slice a b = numbers (.real (xs.extract a.toNat b.toNat)) := by
  have start : place xs.size a = a.toNat := place_of_le h0 (hab.trans hb)
  have stop : place xs.size b = b.toNat := place_of_le (h0.trans hab) hb
  show numbers (.real (xs.extract (place xs.size a) (place xs.size b))) = _
  rw [start, stop]

theorem pair_of_length_eq {β γ : Type} {xs : List β} {ys : List γ}
    (h : xs.length = ys.length) : pair xs ys = some (xs.zip ys) := by
  unfold pair
  split
  · obtain ⟨y, rfl⟩ := List.length_eq_one_iff.mp h.symm
    rfl
  · obtain ⟨x, rfl⟩ := List.length_eq_one_iff.mp h
    rfl
  · rw [if_pos h]

/-- The first half of a block gives the real parts and the second half the imaginary
parts. -/
theorem join_real {n : Nat} {ys : Array α} (size : ys.size = 2 * n) :
    ∃ zs : Array (Cplx α), (numbers (.real ys)).join n = .ok (numbers (.complex zs)) ∧
      zs.size = n ∧ ∀ k < n, zs.getD k 0
        = Cplx.ofReal (ys.getD k 0) + Cplx.I * Cplx.ofReal (ys.getD (n + k) 0) := by
  have length : (ys.map Cplx.ofReal).toList.length = 2 * n := by
    rw [Array.length_toList, Array.size_map, size]
  have halves : ((ys.map Cplx.ofReal).toList.take n).length
      = ((ys.map Cplx.ofReal).toList.drop n).length := by
    rw [List.length_take, List.length_drop, length]
    omega
  refine ⟨((((ys.map Cplx.ofReal).toList.take n).zip ((ys.map Cplx.ofReal).toList.drop n)).map
    fun p => p.1 + Cplx.I * p.2).toArray, ?_, ?_, fun k hk => ?_⟩
  · rw [join]
    simp only [pair_of_length_eq halves]
  · rw [List.size_toArray, List.length_map, List.length_zip, ← halves, List.length_take, length]
    omega
  · have first : k < ys.size := by omega
    have second : n + k < ys.size := by omega
    have cell : (((ys.map Cplx.ofReal).toList.take n).zip
        ((ys.map Cplx.ofReal).toList.drop n))[k]?
          = some (Cplx.ofReal ys[k], Cplx.ofReal ys[n + k]) := by
      rw [List.getElem?_zip_eq_some]
      constructor
      · simp [List.getElem?_take_of_lt hk, first]
      · simp [second]
    simp only [Array.getD_eq_getD_getElem?, List.getElem?_toArray, List.getElem?_map, cell,
      Array.getElem?_eq_getElem first, Array.getElem?_eq_getElem second, Option.map_some,
      Option.getD_some]

end Flat

/-- What a place of a real vector holds for a variable with `n` entries: the real parts,
and after them the imaginary parts if it is complex. -/
def Slot.element (s : Slot) (xs : Array α) (n : Nat) (sign : Sign) (k : Nat) : Cplx α :=
  if sign = .complex then
    Cplx.ofReal (xs.getD (s.offset.toNat + k) 0)
      + Cplx.I * Cplx.ofReal (xs.getD (s.offset.toNat + n + k) 0)
  else Cplx.ofReal (xs.getD (s.offset.toNat + k) 0)

/-- The elements that a place stands for. -/
theorem Flat.slice_place {xs : Array α} {s : Slot} {n : Nat} (h0 : 0 ≤ s.offset)
    (width : s.width = n) (fits : s.offset + s.width ≤ xs.size) :
    ∃ ys : Array α, (numbers (.real xs)).slice s.offset (s.offset + s.width)
        = numbers (.real ys) ∧ ys.size = n ∧
      ∀ k < n, ys.getD k 0 = xs.getD (s.offset.toNat + k) 0 := by
  have stop : (s.offset + s.width).toNat = s.offset.toNat + n := by omega
  have inside : s.offset.toNat + n ≤ xs.size := by omega
  refine ⟨xs.extract s.offset.toNat (s.offset.toNat + n), ?_, ?_, fun k hk => ?_⟩
  · rw [slice_real xs h0 (by omega) fits, stop]
  · rw [Array.size_extract]
    omega
  · exact getD_extract xs 0 (Nat.add_lt_add_left hk _) inside

/-- The block of a variable, as it is cut out of a real vector. -/
theorem Model.blockOf_real {vars : Vars α} {x : Variable} {s : Slot} {xs : Array α}
    (h0 : 0 ≤ s.offset) (width : s.width = (Expr.var x).width vars)
    (fits : s.offset + s.width ≤ xs.size) :
    ∃ ys : Numeric Array α, blockOf vars (.numbers (.real xs)) (.var x) s = .ok (.numbers ys) ∧
      (ys.isComplex = true ↔ (vars.state x).sign = .complex) ∧
      ys.on Array.size = x.rows * x.cols ∧ ∀ k < x.rows * x.cols,
        ys.toComplex.getD k 0 = s.element xs (x.rows * x.cols) (vars.state x).sign k := by
  by_cases hs : (vars.state x).sign = .complex
  · have sign : (Expr.var x).sign vars = .complex := hs
    have both : s.width = (2 * (x.rows * x.cols) : Nat) := by
      rw [width, Expr.width, if_pos sign]
      rfl
    obtain ⟨ys, cut, size, elements⟩ := Flat.slice_place h0 both fits
    obtain ⟨zs, joined, size', parts⟩ := Flat.join_real size
    refine ⟨.complex zs, ?_, ⟨fun _ => hs, fun _ => rfl⟩, size', fun k hk => ?_⟩
    · have joined : (Flat.numbers (.real ys)).join (Expr.var x : Expr α).length = _ := joined
      rw [blockOf, if_pos sign, cut, joined]
    · rw [Slot.element, if_pos hs]
      refine (parts k hk).trans ?_
      rw [elements k (by omega), elements _ (by omega), Nat.add_assoc]
  · have sign : ¬(Expr.var x).sign vars = .complex := hs
    have one : s.width = (x.rows * x.cols : Nat) := by
      rw [width, Expr.width, if_neg sign]
      rfl
    obtain ⟨ys, cut, size, elements⟩ := Flat.slice_place h0 one fits
    refine ⟨.real ys, ?_, ⟨fun h => (by cases h), fun h => (hs h).elim⟩, size, fun k hk => ?_⟩
    · rw [blockOf, if_neg sign, cut]
    · rw [Slot.element, if_neg hs, ← elements k hk]
      exact getD_map Cplx.ofReal ys k 0

/-- Writing the block of a variable stores a value that holds its elements, and changes
nothing else. -/
theorem Model.writeBlock_real {m : Model α} {x : Variable} {s : Slot} {xs : Array α}
    (h0 : 0 ≤ s.offset) (width : s.width = (Expr.var x).width m.vars)
    (fits : s.offset + s.width ≤ xs.size) :
    ∃ v, writeBlock (.numbers (.real xs)) (.var x, s) m
        = .ok () { m with vars := m.vars.change x fun st => { st with value := some v } } ∧
      v.Holds x (s.element xs (x.rows * x.cols) (m.vars.state x).sign) := by
  obtain ⟨ys, block, plain, size, elements⟩ := blockOf_real h0 width fits
  obtain ⟨d, v, arranged, accepted, holds⟩ := Variable.accept_block plain size
  refine ⟨v, ?_, holds.shape, fun k hk => (holds.entry k hk).trans (elements k hk)⟩
  have written : m.vars.assign x d m.ledger
      = .ok (m.vars.change x fun st => { st with value := some v }) m.ledger := by
    rw [Vars.assign, accepted]
    rfl
  have whole : (do
      let block ← Make.ofExcept (·) (blockOf m.vars (.numbers (.real xs)) (.var x) s)
      m.vars.assign x (← Make.ofExcept (·) (block.toInput x)) : Make α (Vars α)) m.ledger
        = .ok (m.vars.change x fun st => { st with value := some v }) m.ledger := by
    refine Outcome.bind_ok.mpr ⟨.numbers ys, m.ledger, by rw [block]; rfl, ?_⟩
    exact Outcome.bind_ok.mpr ⟨d, m.ledger, by rw [arranged]; rfl, written⟩
  rw [writeBlock, Work.changeVars]
  simp only [whole]

end ConicModel
