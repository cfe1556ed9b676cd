/-
# A refused loading

Before it writes anything, loading a solution looks at the length of the vector and at the
whole layout, so a loading that is refused there has changed nothing.  It does not look at
the elements.  Where the elements of a complex vector have imaginary parts, a variable that
is not complex refuses its block, and by then the variables before it have been written.

A refused loading is therefore cut in two at the place that was refused
(`Outcome.forM_error`): what stands before it was written, and nothing behind it was.  Why a
place is refused is a matter of its own block (`Model.writeBlock_error`), and as writing keeps
all signs (`Model.Rewritten`), it can be told from the state before the loading.
-/
import ConicModel.Proofs.Compile.Failure
import ConicModel.Proofs.Solution.Scatter

namespace ConicModel

variable {α : Type}

/-! ## Blocks of any element type -/

namespace Dense

variable {R : Type} [Zero R]

/-- An entry in which a matrix fails a test. -/
theorem exists_of_all_eq_false {A : Dense R} {p : R → Bool} (h : A.all p = false) :
    ∃ i < A.rows, ∃ j < A.cols, p (A.get i j) = false := by
  obtain ⟨k, hk, fails⟩ := Array.all_eq_false.mp h
  have inside : k < A.rows * A.cols := A.size_eq ▸ hk
  have pos : 0 < A.cols := Nat.pos_of_ne_zero fun h => by simp [h] at inside
  refine ⟨k / A.cols, Nat.div_lt_of_lt_mul (Nat.mul_comm .. ▸ inside), k % A.cols,
    Nat.mod_lt k pos, ?_⟩
  rw [get, if_pos (Nat.mod_lt k pos), Nat.div_add_mod', Array.getD_eq_getD_getElem?,
    Array.getElem?_eq_getElem hk]
  exact Bool.eq_false_iff.mpr fails

end Dense

variable [Scalar α]

namespace Flat

/-- The elements that a place stands for. -/
theorem slice_numbers {xs : Numeric Array α} {s : Slot} {n : Nat} (h0 : 0 ≤ s.offset)
    (width : s.width = n) (fits : s.offset + s.width ≤ (numbers xs).size) :
    (numbers xs).slice s.offset (s.offset + s.width)
      = numbers (xs.map fun a => a.extract s.offset.toNat (s.offset.toNat + n)) := by
  have start : place (numbers xs).size s.offset = s.offset.toNat := place_of_le h0 (by omega)
  have stop : place (numbers xs).size (s.offset + s.width) = s.offset.toNat + n := by
    rw [place_of_le (by omega) fits]
    omega
  cases xs with
  | real xs | complex xs =>
      rw [slice, start, stop]
      rfl

/-- A block that is twice as long as a variable is joined. -/
theorem join_numbers {n : Nat} {ys : Numeric Array α} (size : ys.on Array.size = 2 * n) :
    ∃ zs : Array (Cplx α), (numbers ys).join n = .ok (numbers (.complex zs)) ∧ zs.size = n := by
  have halves (zs : Array (Cplx α)) (size : zs.size = 2 * n) :
      pair (zs.toList.take n) (zs.toList.drop n)
        = some ((zs.toList.take n).zip (zs.toList.drop n)) ∧
      (((zs.toList.take n).zip (zs.toList.drop n)).map
        fun p => p.1 + Cplx.I * p.2).toArray.size = n := by
    constructor
    · refine pair_of_length_eq ?_
      rw [List.length_take, List.length_drop, Array.length_toList]
      omega
    · rw [List.size_toArray, List.length_map, List.length_zip, List.length_take,
        List.length_drop, Array.length_toList]
      omega
  cases ys with
  | real ys =>
      obtain ⟨pairs, length⟩ := halves (ys.map Cplx.ofReal) (by rw [Array.size_map]; exact size)
      refine ⟨_, ?_, length⟩
      rw [join]
      simp only [pairs]
  | complex zs =>
      obtain ⟨pairs, length⟩ := halves zs size
      refine ⟨_, ?_, length⟩
      rw [join]
      simp only [pairs]

end Flat

omit [Scalar α] in
theorem Expr.length_le_width (vars : Vars α) (e : Expr α) : e.length ≤ e.width vars := by
  unfold Expr.width
  split <;> omega

namespace Model

/-- A place of the right width has a block, of complex elements if the sign asks for it and
otherwise as it stands in the vector. -/
theorem blockOf_numbers {vars : Vars α} {xs : Numeric Array α} {e : Expr α} {s : Slot}
    (h0 : 0 ≤ s.offset) (width : s.width = e.width vars)
    (fits : s.offset + s.width ≤ (Flat.numbers xs).size) :
    ∃ ys : Numeric Array α, blockOf vars (.numbers xs) e s = .ok (.numbers ys) ∧
      ys.on Array.size = e.length ∧ (e.sign vars = .complex → ys.isComplex = true) ∧
      (e.sign vars ≠ .complex → ys = xs.map fun a =>
        a.extract s.offset.toNat (s.offset.toNat + e.length)) := by
  have size {n : Nat} (both : s.width = n) :
      (xs.map fun a => a.extract s.offset.toNat (s.offset.toNat + n)).on Array.size = n := by
    have inside : s.offset.toNat + n ≤ (Flat.numbers xs).size := by omega
    cases xs with
    | real xs | complex xs =>
        have inside : s.offset.toNat + n ≤ xs.size := inside
        refine Array.size_extract.trans ?_
        omega
  by_cases sign : e.sign vars = .complex
  · have both : s.width = (2 * e.length : Nat) := by rw [width, Expr.width, if_pos sign]
    obtain ⟨zs, joined, length⟩ := Flat.join_numbers (size both)
    refine ⟨.complex zs, ?_, length, fun _ => rfl, fun real => (real sign).elim⟩
    rw [blockOf, if_pos sign, Flat.slice_numbers h0 both fits, joined]
  · have one : s.width = e.length := by rw [width, Expr.width, if_neg sign]
    refine ⟨_, ?_, size one, fun complex => (sign complex).elim, fun _ => rfl⟩
    rw [blockOf, if_neg sign, Flat.slice_numbers h0 one fits]

end Model

/-! ## Why a block is refused -/

theorem Numeric.convert_error {F : Type → Type} [Functor F] {sign : Sign}
    {isReal : F (Cplx α) → Bool} {A : Numeric F α} {r : Refusal}
    (h : A.convert sign isReal = .error r) :
    r = .complex ∧ sign ≠ .complex ∧ ∃ z, A = .complex z ∧ isReal z = false := by
  unfold convert at h
  split at h
  · cases h
  · rename_i sign
    cases A with
    | real x => cases h
    | complex z =>
        dsimp only at h
        split at h
        · cases h
        · rename_i imaginary
          cases h
          exact ⟨rfl, sign, z, rfl, by simpa using imaginary⟩

namespace Variable

variable {x : Variable} {sign : Sign}

theorem accept_eq_store {d : Input α} {a : Numeric NdArray α}
    (dense : ∀ s t A, d ≠ .sparse s t A) (hd : d.toArray = some (.numbers a))
    (fits : x.fits a.dims = .ok ()) : x.accept sign d = x.store sign (.numbers a) := by
  rw [accept_of_array dense hd]
  show (x.fits a.dims).bind (fun _ => x.store sign (.numbers a)) = _
  rw [fits]
  rfl

/-- A complex number is refused for its imaginary part. -/
theorem refused_number (one : x.rows = 1 ∧ x.cols = 1) {zs : Array (Cplx α)}
    (size : zs.size = 1) :
    ∃ d, Flat.toInput x (.numbers (.complex zs)) = .ok d ∧ ∀ r, x.accept sign d = .error r →
      r = .complex ∧ sign ≠ .complex ∧ isZero (zs.getD 0 0).im = false := by
  have fits : x.fits [] = .ok () := if_pos one
  obtain ⟨z, rfl⟩ := Array.size_eq_one_iff.mp size
  refine ⟨.element 0 .complex (.complex z), ?_, fun r h => ?_⟩
  · rw [Flat.toInput, if_pos one]
    rfl
  · have dims : (.complex ⟨[], #[z]⟩ : Numeric NdArray α).dims = [] := rfl
    rw [accept_eq_store (a := .complex ⟨[], #[z]⟩) (fun s t A h => by cases h) rfl fits,
      store, if_pos dims] at h
    obtain ⟨rfl, real, w, hw, imaginary⟩ := Numeric.convert_error (Outcome.except_map_error.mp h)
    cases hw
    exact ⟨rfl, real, imaginary⟩

/-- A complex matrix is refused for the imaginary part of an entry. -/
theorem refused_matrix (many : ¬(x.rows = 1 ∧ x.cols = 1)) {zs : Array (Cplx α)}
    (size : zs.size = x.rows * x.cols) :
    ∃ d, Flat.toInput x (.numbers (.complex zs)) = .ok d ∧ ∀ r, x.accept sign d = .error r →
      r = .complex ∧ sign ≠ .complex ∧
        ∃ k < x.rows * x.cols, isZero (zs.getD k 0).im = false := by
  have sized : ¬(Flat.numbers (.complex zs)).size ≠ x.rows * x.cols := not_not.mpr size
  have fits : x.fits [x.rows, x.cols] = .ok () := if_pos rfl
  have few : [x.rows, x.cols].length ≤ Datum.maxDimensions := by
    show 2 ≤ 64
    decide
  refine ⟨.ofNumbers (.complex (Flat.arrange x.rows x.cols zs)), ?_, fun r h => ?_⟩
  · rw [Flat.toInput, if_neg many, if_neg sized]
  · have dims : (.complex (Flat.arrange x.rows x.cols zs) : Numeric NdArray α).dims ≠ [] :=
      List.cons_ne_nil _ _
    rw [accept_eq_store (fun s t A h => by cases h) (Datum.toArray_ofComplex _ few) fits,
      store, if_neg dims] at h
    obtain ⟨rfl, real, A, hA, imaginary⟩ := Numeric.convert_error (Outcome.except_map_error.mp h)
    cases hA
    obtain ⟨i, hi, j, hj, imaginary⟩ := Dense.exists_of_all_eq_false imaginary
    have hi : i < x.rows := hi
    have hj : j < x.cols := hj
    refine ⟨rfl, real, i + j * x.rows, ?_, ?_⟩
    · calc i + j * x.rows < x.rows + j * x.rows := Nat.add_lt_add_right hi _
        _ = (j + 1) * x.rows := by rw [Nat.succ_mul, Nat.add_comm]
        _ ≤ x.rows * x.cols := by
          rw [Nat.mul_comm x.rows]
          exact Nat.mul_le_mul_right _ hj
    · have entry : (Dense.ofRowMajor x.rows x.cols
          (Dense.ofColumnMajor x.rows x.cols zs).data).get i j = zs.getD (i + j * x.rows) 0 :=
        (Dense.get_ofRowMajor_data (Dense.ofColumnMajor x.rows x.cols zs) hi hj).trans
          (Dense.get_ofFn _ hi hj)
      exact entry ▸ imaginary

/-- A block is only refused for an imaginary part. -/
theorem refused_block {ys : Numeric Array α} (whole : sign = .complex → ys.isComplex = true)
    (size : ys.on Array.size = x.rows * x.cols) :
    ∃ d, Flat.toInput x (.numbers ys) = .ok d ∧ ∀ r, x.accept sign d = .error r →
      r = .complex ∧ sign ≠ .complex ∧ ∃ zs, ys = .complex zs ∧
        ∃ k < x.rows * x.cols, isZero (zs.getD k 0).im = false := by
  cases ys with
  | real ys =>
      have plain : (Numeric.real ys).isComplex = true ↔ sign = .complex :=
        ⟨fun h => (by cases h), whole⟩
      obtain ⟨d, v, arranged, accepted, -⟩ := accept_block plain size
      exact ⟨d, arranged, fun r h => by cases accepted.symm.trans h⟩
  | complex zs =>
      by_cases one : x.rows = 1 ∧ x.cols = 1
      · have single : zs.size = 1 := by
          rw [one.1, one.2] at size
          exact size
        obtain ⟨d, arranged, refused⟩ := refused_number one single
        refine ⟨d, arranged, fun r h => ?_⟩
        obtain ⟨rfl, real, imaginary⟩ := refused r h
        exact ⟨rfl, real, zs, rfl, 0, by rw [one.1, one.2]; exact Nat.one_pos, imaginary⟩
      · obtain ⟨d, arranged, refused⟩ := refused_matrix one size
        refine ⟨d, arranged, fun r h => ?_⟩
        obtain ⟨rfl, real, imaginary⟩ := refused r h
        exact ⟨rfl, real, zs, rfl, imaginary⟩

end Variable

/-- An assignment is refused if the value is not accepted. -/
theorem Vars.assign_error {vars : Vars α} {x : Variable} {d : Input α} {l l' : Ledger}
    {f : Fault α} (h : vars.assign x d l = .error f l') :
    ∃ r, x.accept (vars.state x).sign d = .error r ∧ vars.refuse x d r l = .error f l' := by
  unfold Vars.assign at h
  cases ha : x.accept (vars.state x).sign d with
  | ok v =>
      rw [ha] at h
      cases h
  | error r =>
      rw [ha] at h
      rcases Outcome.bind_error.mp h with h | ⟨v, l₁, -, h⟩
      · exact ⟨r, rfl, h⟩
      · cases h

/-! ## Refused work -/

omit [Scalar α] in
theorem Work.changeVars_error {f : Vars α → Make α (Vars α)} {m m' : Model α} {e : Fault α}
    (h : Work.changeVars f m = .error e m') :
    ∃ l, f m.vars m.ledger = .error e l ∧ m' = { m with ledger := l } := by
  unfold changeVars at h
  split at h
  · cases h
  · rename_i e' l hf
    cases h
    exact ⟨l, hf, rfl⟩

omit [Scalar α] in
theorem Work.make_error {β : Type} {f : Vars α → Make α β} {m m' : Model α} {e : Fault α}
    (h : (Work.make f : Work α β) m = .error e m') :
    ∃ l, f m.vars m.ledger = .error e l ∧ m' = { m with ledger := l } := by
  unfold make at h
  split at h
  · cases h
  · rename_i e' l hf
    cases h
    exact ⟨l, hf, rfl⟩

/-- Why a place cannot be written from a vector: it is that of a variable that is not
complex and has an imaginary part in it, or not that of a variable at all. -/
inductive Unwritable (vars : Vars α) (xs : Numeric Array α) : Expr α × Slot → Fault α → Prop
  | imaginary {x : Variable} {s : Slot} {zs : Array (Cplx α)} {k : Nat}
      (complex : xs = .complex zs) (real : (vars.state x).sign ≠ .complex)
      (inside : k < x.rows * x.cols)
      (imaginary : isZero (zs.getD (s.offset.toNat + k) 0).im = false) :
      Unwritable vars xs (.var x, s) (.valueComplex (vars.state x).sign)
  | noVariable {e : Expr α} {s : Slot} (other : ∀ x, e ≠ .var x) :
      Unwritable vars xs (e, s) (.mishap .feature)

namespace Model

/-- A variable refuses its block for an imaginary part in its place. -/
theorem assign_block_error {m : Model α} {xs ys : Numeric Array α} {x : Variable} {s : Slot}
    (fits : s.offset.toNat + x.rows * x.cols ≤ (Flat.numbers xs).size)
    (size : ys.on Array.size = x.rows * x.cols)
    (whole : (m.vars.state x).sign = .complex → ys.isComplex = true)
    (cut : (m.vars.state x).sign ≠ .complex → ys = xs.map fun a =>
      a.extract s.offset.toNat (s.offset.toNat + x.rows * x.cols))
    {f : Fault α} {l : Ledger}
    (h : (do m.vars.assign x (← Make.ofExcept (·) ((Flat.numbers ys).toInput x)) :
      Make α (Vars α)) m.ledger = .error f l) :
    l = m.ledger ∧ Unwritable m.vars xs (.var x, s) f := by
  obtain ⟨d, arranged, refused⟩ := Variable.refused_block whole size
  rw [arranged] at h
  rcases Outcome.bind_error.mp h with h | ⟨_, _, hd, h⟩
  · cases h
  · cases hd
    obtain ⟨r, rejected, thrown⟩ := Vars.assign_error h
    obtain ⟨rfl, real, zs, rfl, k, hk, imaginary⟩ := refused r rejected
    obtain ⟨rfl, rfl⟩ := Outcome.throw_error.mp thrown
    refine ⟨rfl, ?_⟩
    cases xs with
    | real xs => cases cut real
    | complex ws =>
        cases cut real
        have inside : s.offset.toNat + x.rows * x.cols ≤ ws.size := fits
        rw [getD_extract ws 0 (Nat.add_lt_add_left hk _) inside] at imaginary
        exact .imaginary rfl real hk imaginary

/-- A block that cannot be written changes nothing. -/
theorem writeBlock_error {m m' : Model α} {xs : Numeric Array α} {e : Expr α} {s : Slot}
    {f : Fault α} (h0 : 0 ≤ s.offset) (width : s.width = e.width m.vars)
    (fits : s.offset + s.width ≤ (Flat.numbers xs).size)
    (h : writeBlock (.numbers xs) (e, s) m = .error f m') :
    m' = m ∧ Unwritable m.vars xs (e, s) f := by
  obtain ⟨ys, block, size, whole, cut⟩ := blockOf_numbers h0 width fits
  obtain ⟨l, hl, rfl⟩ := Work.changeVars_error h
  rw [block] at hl
  rcases Outcome.bind_error.mp hl with hl | ⟨_, l₁, hys, hl⟩
  · cases hl
  cases hys
  cases e with
  | var x =>
      have wide : x.rows * x.cols ≤ (Expr.var x).width m.vars :=
        Expr.length_le_width m.vars (.var x)
      have fits : s.offset.toNat + x.rows * x.cols ≤ (Flat.numbers xs).size := by omega
      obtain ⟨rfl, unwritable⟩ := assign_block_error fits size whole cut hl
      exact ⟨rfl, unwritable⟩
  | const c | kron i a b | stub s =>
      obtain ⟨rfl, rfl⟩ := Outcome.throw_error.mp hl
      exact ⟨rfl, .noVariable fun x hx => by cases hx⟩

/-! ## Writing up to a place -/

/-- Some places were written: nothing else has changed, and no sign has. -/
structure Rewritten (m m' : Model α) (places : List (Expr α × Slot)) : Prop where
  sign : ∀ y, (m'.vars.state y).sign = (m.vars.state y).sign
  others : ∀ y : Variable, (∀ p ∈ places, p.1.id ≠ y.id) → m'.vars.state y = m.vars.state y

theorem rewritten_of_writeBlock {m m' : Model α} {solution : Flat α} {p : Expr α × Slot}
    (h : writeBlock solution p m = .ok () m') : m.Rewritten m' [p] := by
  obtain ⟨x, block, d, hx, -, -, assigned⟩ := writeBlock_ok h
  obtain ⟨vars, l, changed, rfl⟩ := Work.changeVars_ok assigned
  obtain ⟨v, -, -, rfl⟩ := Vars.assign_ok changed
  let set (s : VarState α) : VarState α := { s with value := some v }
  refine ⟨Vars.sign_change m.vars x (f := set) fun _ => rfl,
    fun y hy => Vars.state_change_of_ne m.vars ?_ set⟩
  have ne := hy p (List.mem_singleton_self p)
  rwa [hx] at ne

theorem rewritten_of_writeBlocks {m m' : Model α} {solution : Flat α}
    {places : List (Expr α × Slot)} (h : places.forM (writeBlock solution) m = .ok () m') :
    m.Rewritten m' places := by
  induction places generalizing m with
  | nil =>
      obtain ⟨-, rfl⟩ := Outcome.pure_ok.mp h
      exact ⟨fun _ => rfl, fun _ _ => rfl⟩
  | cons p places ih =>
      obtain ⟨⟨⟩, m₁, first, rest⟩ := Outcome.bind_ok.mp h
      have step := rewritten_of_writeBlock first
      have run := ih rest
      refine ⟨fun y => (run.sign y).trans (step.sign y), fun y hy => ?_⟩
      rw [run.others y fun q hq => hy q (List.mem_cons_of_mem p hq)]
      exact step.others y fun q hq => hy q (by simp [List.mem_singleton.mp hq])

omit [Scalar α] in
theorem Rewritten.width {m m' : Model α} {places : List (Expr α × Slot)}
    (h : m.Rewritten m' places) (e : Expr α) : e.width m'.vars = e.width m.vars := by
  rw [Expr.width, Expr.width, Expr.sign_congr h.sign e]

/-- What cannot be written afterwards could not be written before. -/
theorem Rewritten.unwritable {m m' : Model α} {places : List (Expr α × Slot)}
    (h : m.Rewritten m' places) {xs : Numeric Array α} {p : Expr α × Slot} {f : Fault α}
    (no : Unwritable m'.vars xs p f) : Unwritable m.vars xs p f := by
  cases no with
  | imaginary complex real inside imaginary =>
      rw [h.sign] at real ⊢
      exact .imaginary complex real inside imaginary
  | noVariable other => exact .noVariable other

/-! ## Loading -/

omit [Scalar α] in
/-- What is found for a layout has a place in it, of the right width. -/
theorem place_of_resolve {m : Model α} {name : ContextName} {layout : Layout}
    {places : List (Expr α × Slot)} (h : m.resolve name layout = .ok places) :
    ∀ p ∈ places, ∃ i, (i, p.2) ∈ layout ∧ p.2.width = p.1.width m.vars := by
  induction layout generalizing places with
  | nil =>
      cases h
      exact fun p hp => by cases hp
  | cons entry layout ih =>
      obtain ⟨e, others, -, width, rest, rfl⟩ := resolve_cons_ok h
      intro p hp
      rcases List.mem_cons.mp hp with rfl | hp
      · exact ⟨entry.1, List.mem_cons_self, width⟩
      · obtain ⟨i, hi, width⟩ := ih rest p hp
        exact ⟨i, List.mem_cons_of_mem _ hi, width⟩

/-- A loading is refused before anything is written, or while it is. -/
theorem loadSolution_error {name : ContextName} {d : Input α} {layout : Layout}
    {m m' : Model α} {f : Fault α} (h : loadSolution name d layout m = .error f m') :
    m' = m ∨ ∃ solution places, Flat.ofInput d = .ok solution ∧
      needed layout ≤ solution.size ∧ m.resolve name layout = .ok places ∧
      places.forM (writeBlock solution) m = .error f m' := by
  rcases Outcome.bind_error.mp h with unread | ⟨solution, m₁, hsolution, rest⟩
  · obtain ⟨l, hl, rfl⟩ := Work.make_error unread
    obtain ⟨-, -, -, rfl⟩ := ofExcept_error hl
    exact .inl rfl
  obtain ⟨l, hread, rfl⟩ := Work.make_ok hsolution
  obtain ⟨read, rfl⟩ := ofExcept_ok hread
  split at rest
  · rcases Outcome.bind_error.mp rest with short | ⟨_, _, short, -⟩
    · exact .inl (Outcome.throw_error.mp short).2.symm
    · exact (Outcome.throw_ok.mp short).elim
  rename_i long
  rcases Outcome.bind_error.mp rest with no | ⟨m₂, m₃, hm, rest⟩
  · cases no
  cases hm
  cases hplaces : m.resolve name layout with
  | error g =>
      rw [hplaces] at rest
      exact .inl (Outcome.throw_error.mp rest).2.symm
  | ok places =>
      rw [hplaces] at rest
      exact .inr ⟨solution, places, read, not_lt.mp long, rfl, rest⟩

/-- Whatever has happened since a layout was made, a refused loading of a vector of numbers
has changed nothing, unless the fault is in one of the places: a variable that is not complex
has an imaginary part in its place, or what was registered is no variable.  Then the places
before that one have been written, and nothing else has changed. -/
theorem refused_loading_stops_at_place {m₀ m m' : Model α} {name : ContextName} {ids : List Id}
    {layout : Layout} {d : Input α} {xs : Numeric Array α} {f : Fault α}
    (laid : m₀.offsets name ids = .ok layout) (read : Flat.ofInput d = .ok (.numbers xs))
    (refused : loadSolution name d layout m = .error f m') :
    m' = m ∨ ∃ before p after, m.resolve name layout = .ok (before ++ p :: after) ∧
      Unwritable m.vars xs p f ∧ before.forM (writeBlock (.numbers xs)) m = .ok () m' ∧
      ∀ y : Variable, (∀ q ∈ before, q.1.id ≠ y.id) → m'.vars.state y = m.vars.state y := by
  rcases loadSolution_error refused with unchanged | ⟨solution, places, read', long, found, cut⟩
  · exact .inl unchanged
  cases read.symm.trans read'
  obtain ⟨before, p, after, m₁, rfl, written, stopped⟩ := Outcome.forM_error cut
  have rewritten := rewritten_of_writeBlocks written
  obtain ⟨i, hi, width⟩ :=
    place_of_resolve found p (List.mem_append_right before List.mem_cons_self)
  obtain ⟨h0, -⟩ := (offsets_ok laid).1.place i p.2 hi
  obtain ⟨rfl, unwritable⟩ := writeBlock_error h0 (width.trans (by rw [rewritten.width]))
    ((end_le_needed hi).trans long) stopped
  exact .inr ⟨before, p, after, found, rewritten.unwritable unwritable, written,
    rewritten.others⟩

end Model

/-! ### Two numbers of which one is imaginary -/

namespace Freed

/-- One after the other. -/
def layout : Layout := [(1, ⟨0, 1⟩), (2, ⟨1, 1⟩)]

/-- One, and the imaginary unit. -/
def solution : Array (Cplx ℚ) := #[⟨1, 0⟩, ⟨0, 1⟩]

def vector : Input ℚ := .ofNumbers (.complex ⟨[2], solution⟩)

/-- The first variable has taken the one. -/
def halfWritten : Model ℚ :=
  { both.model with vars := [(1, { value := some (.number (.real 1)) }), (2, {})] }

theorem laid : both.model.offsets .main [1, 2] = .ok layout := by
  with_unfolding_all rfl

theorem loading_refused : Model.loadSolution .main vector layout both.model
    = .error (.valueComplex .noSign) halfWritten := by
  with_unfolding_all rfl

end Freed

/-- A refused loading may have changed the value of a variable. -/
theorem both_half_written :
    Reachable Freed.both ∧ Freed.both.model.offsets .main [1, 2] = .ok Freed.layout ∧
    Flat.ofInput Freed.vector = .ok (.numbers (.complex Freed.solution)) ∧
    ∃ f m', Model.loadSolution .main Freed.vector Freed.layout Freed.both.model = .error f m' ∧
      (Freed.both.model.vars.state Freed.y).value = none ∧
      (m'.vars.state Freed.y).value = some (.number (.real 1)) :=
  ⟨Freed.both_reachable, Freed.laid, rfl, _, _, Freed.loading_refused, rfl, rfl⟩

theorem both_loading_stops :
    Freed.both.model.offsets .main [1, 2] = .ok Freed.layout ∧
    Flat.ofInput Freed.vector = .ok (.numbers (.complex Freed.solution)) ∧
    Model.loadSolution .main Freed.vector Freed.layout Freed.both.model
      = .error (.valueComplex .noSign) Freed.halfWritten ∧
    (Freed.halfWritten = Freed.both.model ∨ ∃ before p after,
      Freed.both.model.resolve .main Freed.layout = .ok (before ++ p :: after) ∧
      Unwritable Freed.both.model.vars (.complex Freed.solution) p (.valueComplex .noSign) ∧
      before.forM (Model.writeBlock (.numbers (.complex Freed.solution))) Freed.both.model
        = .ok () Freed.halfWritten ∧
      ∀ y : Variable, (∀ q ∈ before, q.1.id ≠ y.id) →
        Freed.halfWritten.vars.state y = Freed.both.model.vars.state y) :=
  ⟨Freed.laid, rfl, Freed.loading_refused,
    Model.refused_loading_stops_at_place Freed.laid rfl Freed.loading_refused⟩

end ConicModel
