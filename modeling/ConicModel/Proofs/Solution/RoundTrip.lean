/-
# Scattering and gathering

Gathering lists the entries of values in the order of a layout, column by column: the real
parts and, for a complex variable, the imaginary parts after them (`Model.gather`).  It is
what a solver would be handed to start from, and scattering is its inverse.

Places in a row cut a vector into blocks that make it up again (`Slot.Tile.flatten`), and a
block and the value that was written from it are the same list (`Value.Holds.flatten`), so
gathering what was scattered gives the vector back.  The other direction needs no second look
at loading: gathering loses nothing of values that fit (`Model.gather_inj`), and values that
were scattered and those that the vector was gathered from gather to the same vector.
-/
import ConicModel.Proofs.Solution.Tiling
import ConicModel.Proofs.Matrix.Positions

namespace ConicModel

variable {α : Type}

/-! ## Values as lists -/

/-- The place of an entry, column by column. -/
theorem column_index_lt {r c i j : Nat} (hi : i < r) (hj : j < c) : i + j * r < r * c := by
  rw [Nat.add_comm, Nat.mul_comm r]
  exact index_lt hj hi

/-- Part of an array as a list. -/
theorem take_drop_toList {R : Type} (xs : Array R) {o n : Nat} (d : R) (h : o + n ≤ xs.size) :
    (xs.toList.drop o).take n = (List.range n).map fun k => xs.getD (o + k) d := by
  refine List.ext_getElem ?_ fun k hk hk' => ?_
  · rw [List.length_take, List.length_drop, Array.length_toList, List.length_map,
      List.length_range]
    omega
  · have inside : k < n := by simpa using hk'
    have here : o + k < xs.size := by omega
    simp [Array.getD, here]

namespace Value

variable [Entry α]

/-- The entries of a value in column-major order: the real parts and, for a complex variable,
the imaginary parts after them. -/
def flatten (v : Value α) (sign : Sign) : List α :=
  (List.range (v.shape.1 * v.shape.2)).map (fun k => (v.entry k).re) ++
    if sign = .complex then (List.range (v.shape.1 * v.shape.2)).map fun k => (v.entry k).im
    else []

/-- A value that a variable can be given: of its shape, and real unless it is complex. -/
structure Suits (v : Value α) (x : Variable) (sign : Sign) : Prop where
  shape : v.shape = (x.rows, x.cols)
  real : sign ≠ .complex → ∀ k < x.rows * x.cols, (v.entry k).im = 0

variable {v u : Value α} {x : Variable} {sign : Sign}

theorem length_flatten (h : v.shape = (x.rows, x.cols)) :
    (v.flatten sign).length
      = if sign = .complex then 2 * (x.rows * x.cols) else x.rows * x.cols := by
  rw [flatten, List.length_append, List.length_map, List.length_range, h]
  split
  · rw [List.length_map, List.length_range, Nat.two_mul]
  · rfl

/-- An entry by its row and column. -/
theorem get_toComplex (h : v.shape = (x.rows, x.cols)) {i j : Nat} (hi : i < x.rows)
    (hj : j < x.cols) : v.toMatrix.toComplex.get i j = v.entry (i + j * x.rows) := by
  have shape : v.toMatrix.toComplex.shape = (x.rows, x.cols) :=
    (Numeric.shape_toComplex v.toMatrix).trans h
  obtain ⟨rows, cols⟩ := Prod.mk.inj shape
  have inside : i + j * x.rows < v.toMatrix.toComplex.rows * v.toMatrix.toComplex.cols := by
    rw [rows, cols]
    exact column_index_lt hi hj
  obtain ⟨high, low⟩ := (split_index hi).mp (rfl : j * x.rows + i = _)
  rw [entry, Dense.get_vec _ inside, rows, Nat.add_comm i, ← low, ← high]

/-- Values that fit are told apart by their lists. -/
theorem Suits.flatten_inj (hv : v.Suits x sign) (hu : u.Suits x sign)
    (same : v.flatten sign = u.flatten sign) :
    v.toMatrix.toComplex = u.toMatrix.toComplex := by
  rw [flatten, flatten, hv.shape, hu.shape] at same
  obtain ⟨re, im⟩ := List.append_inj same (by simp)
  have entries : ∀ k < x.rows * x.cols, v.entry k = u.entry k := by
    intro k hk
    refine Cplx.ext (List.map_inj_left.mp re k (List.mem_range.mpr hk)) ?_
    by_cases complex : sign = .complex
    · rw [if_pos complex, if_pos complex] at im
      exact List.map_inj_left.mp im k (List.mem_range.mpr hk)
    · rw [hv.real complex k hk, hu.real complex k hk]
  obtain ⟨rows, cols⟩ := Prod.mk.inj ((Numeric.shape_toComplex v.toMatrix).trans hv.shape)
  obtain ⟨rows', cols'⟩ := Prod.mk.inj ((Numeric.shape_toComplex u.toMatrix).trans hu.shape)
  refine Dense.ext_get (rows.trans rows'.symm) (cols.trans cols'.symm) fun i hi j hj => ?_
  rw [rows] at hi
  rw [cols] at hj
  rw [get_toComplex hv.shape hi hj, get_toComplex hu.shape hi hj]
  exact entries _ (column_index_lt hi hj)

end Value

/-! ## Blocks as lists -/

section Blocks

variable [Scalar α] [LawfulEntry α]

/-- The parts of an element. -/
theorem Slot.element_eq_mk (s : Slot) (xs : Array α) (n : Nat) (sign : Sign) (k : Nat) :
    s.element xs n sign k = ⟨xs.getD (s.offset.toNat + k) 0,
      if sign = .complex then xs.getD (s.offset.toNat + n + k) 0 else 0⟩ := by
  unfold Slot.element
  split
  · exact Cplx.re_add_I_mul_im ⟨_, _⟩
  · rfl

variable {v : Value α} {x : Variable} {s : Slot} {xs : Array α} {vars : Vars α}

theorem Value.Holds.suits {sign : Sign}
    (h : v.Holds x (s.element xs (x.rows * x.cols) sign)) : v.Suits x sign where
  shape := h.shape
  real complex k hk := by rw [h.entry k hk, Slot.element_eq_mk, if_neg complex]

/-- What was written from a block is the block. -/
theorem Value.Holds.flatten
    (h : v.Holds x (s.element xs (x.rows * x.cols) (vars.state x).sign)) (h0 : 0 ≤ s.offset)
    (width : s.width = (Expr.var x).width vars) (fits : s.offset + s.width ≤ xs.size) :
    v.flatten (vars.state x).sign = (xs.toList.drop s.offset.toNat).take s.width.toNat := by
  let n := x.rows * x.cols
  have entry : ∀ k < n, v.entry k = s.element xs n (vars.state x).sign k := h.entry
  have re : (List.range n).map (fun k => (v.entry k).re)
      = (List.range n).map fun k => xs.getD (s.offset.toNat + k) 0 := by
    refine List.map_congr_left fun k hk => ?_
    rw [entry k (List.mem_range.mp hk), Slot.element_eq_mk]
  rw [Value.flatten, h.shape]
  by_cases complex : (vars.state x).sign = .complex
  · have both : s.width.toNat = n + n := by
      rw [width, Expr.width, if_pos (show (Expr.var x).sign vars = .complex from complex),
        Nat.two_mul]
      rfl
    have im : (List.range n).map (fun k => (v.entry k).im)
        = (List.range n).map fun k => xs.getD (s.offset.toNat + n + k) 0 := by
      refine List.map_congr_left fun k hk => ?_
      rw [entry k (List.mem_range.mp hk), Slot.element_eq_mk, if_pos complex]
    rw [if_pos complex, re, im, both, List.take_add, List.drop_drop,
      take_drop_toList xs 0 (by omega), take_drop_toList xs 0 (by omega)]
  · have one : s.width.toNat = n := by
      rw [width, Expr.width, if_neg (show ¬(Expr.var x).sign vars = .complex from complex)]
      rfl
    rw [if_neg complex, List.append_nil, re, one, take_drop_toList xs 0 (by omega)]

end Blocks

/-! ## Places in a row -/

/-- The blocks of places in a row make up the part of the vector that they cover. -/
theorem Slot.Tile.flatten {R P : Type} {place : P → Slot} {ps : List P} {start stop : Int}
    (h : Slot.Tile start (ps.map place) stop) (h0 : 0 ≤ start) (xs : List R) :
    (ps.flatMap fun p => (xs.drop (place p).offset.toNat).take (place p).width.toNat)
      = (xs.drop start.toNat).take (stop - start).toNat := by
  induction ps generalizing start with
  | nil =>
      cases h
      simp
  | cons p ps ih =>
      obtain ⟨rfl, width, rest⟩ := h
      have later := rest.start_le
      have all : (stop - (place p).offset).toNat
          = (place p).width.toNat + (stop - ((place p).offset + (place p).width)).toNat := by
        omega
      have next : ((place p).offset + (place p).width).toNat
          = (place p).offset.toNat + (place p).width.toNat := by omega
      rw [List.flatMap_cons, ih rest (by omega), all, List.take_add, List.drop_drop, next]

theorem Slot.Tile.length_flatMap {R P : Type} {place : P → Slot} {f : P → List R}
    {ps : List P} {start stop : Int} (h : Slot.Tile start (ps.map place) stop)
    (lengths : ∀ p ∈ ps, ((f p).length : Int) = (place p).width) :
    start + ((ps.flatMap f).length : Int) = stop := by
  induction ps generalizing start with
  | nil => exact (Int.add_zero start).trans h
  | cons p ps ih =>
      obtain ⟨rfl, -, rest⟩ := h
      have first := lengths p List.mem_cons_self
      have others := ih rest fun q hq => lengths q (List.mem_cons_of_mem p hq)
      rw [List.flatMap_cons, List.length_append]
      omega

/-- Lists of known lengths can be told apart when they are joined. -/
theorem flatMap_inj {P R : Type} {f g : P → List R} {ps : List P}
    (lengths : ∀ p ∈ ps, (f p).length = (g p).length) (same : ps.flatMap f = ps.flatMap g) :
    ∀ p ∈ ps, f p = g p := by
  induction ps with
  | nil => intro p hp; cases hp
  | cons q ps ih =>
      rw [List.flatMap_cons, List.flatMap_cons] at same
      obtain ⟨first, rest⟩ := List.append_inj same (lengths q List.mem_cons_self)
      intro p hp
      rcases List.mem_cons.mp hp with rfl | hp
      · exact first
      · exact ih (fun p hp => lengths p (List.mem_cons_of_mem q hp)) rest p hp

namespace Model

/-! ## Gathering -/

section Gather

variable [Entry α] {m : Model α} {name : ContextName}

/-- The vector in which values stand in the order of a layout. -/
def gather (m : Model α) (name : ContextName) (values : Variable → Option (Value α))
    (l : Layout) : List α :=
  l.flatMap fun p =>
    match m.find? name p.1 with
    | some (.expr (.var x)) => (values x).elim [] fun v => v.flatten (m.vars.state x).sign
    | _ => []

/-- Gathering goes through the variables that are placed. -/
theorem gather_places {ps : List (Variable × Slot)}
    (registered : ∀ p ∈ ps, m.find? name p.1.id = some (.expr (.var p.1)))
    (values : Variable → Option (Value α)) :
    m.gather name values (ps.map fun p => (p.1.id, p.2))
      = ps.flatMap fun p => (values p.1).elim [] fun v => v.flatten (m.vars.state p.1).sign := by
  rw [gather, List.flatMap_map]
  refine List.flatMap_congr fun p hp => ?_
  rw [registered p hp]

variable {ps : List (Variable × Slot)}

/-- A vector is gathered from values that fit. -/
def Fitting (m : Model α) (values : Variable → Option (Value α)) (x : Variable) : Prop :=
  ∃ v, values x = some v ∧ v.Suits x (m.vars.state x).sign

variable {values others : Variable → Option (Value α)}

theorem Fitting.length {x : Variable} (h : m.Fitting values x) :
    ((values x).elim [] fun v => v.flatten (m.vars.state x).sign).length
      = (Expr.var x).width m.vars := by
  obtain ⟨v, hv, fits⟩ := h
  rw [hv, Option.elim_some, Value.length_flatten fits.shape]
  rfl

/-- Of values that fit, gathering loses nothing. -/
theorem gather_inj (registered : ∀ p ∈ ps, m.find? name p.1.id = some (.expr (.var p.1)))
    (fits : ∀ p ∈ ps, m.Fitting values p.1) (fits' : ∀ p ∈ ps, m.Fitting others p.1)
    (same : m.gather name values (ps.map fun p => (p.1.id, p.2))
      = m.gather name others (ps.map fun p => (p.1.id, p.2))) :
    ∀ p ∈ ps, ∃ v u, values p.1 = some v ∧ others p.1 = some u ∧
      v.toMatrix.toComplex = u.toMatrix.toComplex := by
  rw [gather_places registered, gather_places registered] at same
  intro p hp
  have block := flatMap_inj
    (fun q hq => (fits q hq).length.trans (fits' q hq).length.symm) same p hp
  obtain ⟨v, hv, fits⟩ := fits p hp
  obtain ⟨u, hu, fits'⟩ := fits' p hp
  rw [hv, hu] at block
  exact ⟨v, u, hv, hu, fits.flatten_inj fits' block⟩

end Gather

/-! ## What loading leaves alone -/

section Kept

variable [Scalar α] {m m' : Model α} {solution : Flat α}

/-- No registry has changed, and of the variables nothing but their values. -/
structure Kept (m m' : Model α) : Prop where
  contexts : m'.contexts = m.contexts
  state : ∀ y, ∃ value, m'.vars.state y = { m.vars.state y with value := value }

theorem kept_of_writeBlock {p : Expr α × Slot} (h : writeBlock solution p m = .ok () m') :
    m.Kept m' := by
  obtain ⟨x, block, d, -, -, -, assigned⟩ := writeBlock_ok h
  obtain ⟨vars, l, changed, rfl⟩ := Work.changeVars_ok assigned
  obtain ⟨v, -, -, rfl⟩ := Vars.assign_ok changed
  refine ⟨rfl, fun y => ?_⟩
  rcases m.vars.state_change x y (fun s => { s with value := some v }) with same | new
  · exact ⟨_, same⟩
  · exact ⟨_, new⟩

theorem kept_of_writeBlocks {places : List (Expr α × Slot)}
    (h : places.forM (writeBlock solution) m = .ok () m') : m.Kept m' := by
  induction places generalizing m with
  | nil =>
      obtain ⟨-, rfl⟩ := Outcome.pure_ok.mp h
      exact ⟨rfl, fun y => ⟨_, rfl⟩⟩
  | cons p places ih =>
      obtain ⟨⟨⟩, m₁, first, rest⟩ := Outcome.bind_ok.mp h
      have step := kept_of_writeBlock first
      have run := ih rest
      refine ⟨run.contexts.trans step.contexts, fun y => ?_⟩
      obtain ⟨value, before⟩ := step.state y
      obtain ⟨value', after⟩ := run.state y
      exact ⟨value', by rw [after, before]⟩

theorem kept_of_loadSolution {name : ContextName} {d : Input α} {l : Layout}
    (h : loadSolution name d l m = .ok () m') : m.Kept m' := by
  obtain ⟨solution, places, -, -, -, written⟩ := loadSolution_ok h
  exact kept_of_writeBlocks written

omit [Scalar α] in
theorem Kept.sign (h : m.Kept m') (x : Variable) :
    (m'.vars.state x).sign = (m.vars.state x).sign := by
  obtain ⟨value, state⟩ := h.state x
  rw [state]

theorem Kept.gather (h : m.Kept m') (name : ContextName)
    (values : Variable → Option (Value α)) (l : Layout) :
    m'.gather name values l = m.gather name values l := by
  refine List.flatMap_congr fun p _ => ?_
  have registered : m'.find? name p.1 = m.find? name p.1 := by
    rw [Model.find?, Model.context, h.contexts]
    rfl
  rw [registered]
  simp only [h.sign]

end Kept

/-! ## Placed variables -/

theorem foldl_max_le {es : List Int} {start stop : Int} (first : start ≤ stop)
    (rest : ∀ e ∈ es, e ≤ stop) : es.foldl max start ≤ stop := by
  induction es generalizing start with
  | nil => exact first
  | cons e es ih =>
      exact ih (max_le first (rest e List.mem_cons_self))
        fun e' he => rest e' (List.mem_cons_of_mem e he)

/-- No layout needs more elements than it has places for. -/
theorem needed_le_extent {l : Layout} (tile : Slot.Tile 0 l.items (extent l)) :
    needed l ≤ extent l := by
  have ends : ∀ e ∈ l.items.map (fun s => s.offset + s.width), e ≤ extent l := by
    intro e he
    obtain ⟨s, hs, rfl⟩ := List.mem_map.mp he
    exact (tile.bounds s hs).2.2
  unfold needed
  split
  · exact tile.start_le
  · rename_i e es cut
    rw [cut] at ends
    exact foldl_max_le (ends e List.mem_cons_self) fun e' he =>
      ends e' (List.mem_cons_of_mem e he)

/-- The variables of a layout with their places, in its order. -/
structure Places (m : Model α) (name : ContextName) (l : Layout)
    (ps : List (Variable × Slot)) : Prop where
  layout : l = ps.map fun p => (p.1.id, p.2)
  registered : ∀ p ∈ ps, m.find? name p.1.id = some (.expr (.var p.1))
  width : ∀ p ∈ ps, p.2.width = (Expr.var p.1).width m.vars
  tile : Slot.Tile 0 (ps.map (·.2)) (extent l)

variable {w : World α} {m m₀ : Model α} {name : ContextName} {ids : List Id} {l : Layout}

theorem Places.items {ps : List (Variable × Slot)} (h : m.Places name l ps) :
    l.items = ps.map (·.2) := by
  conv_lhs => rw [h.layout, Table.items, List.map_map]
  rfl

theorem Places.mem {ps : List (Variable × Slot)} (h : m.Places name l ps) {p : Variable × Slot}
    (hp : p ∈ ps) : (p.1.id, p.2) ∈ l := by
  rw [h.layout]
  exact List.mem_map.mpr ⟨p, hp, rfl⟩

/-- A variable that is registered under an identity of the layout has its place in it. -/
theorem Places.of_registered {ps : List (Variable × Slot)} (h : m.Places name l ps)
    {x : Variable} {s : Slot} (hs : (x.id, s) ∈ l)
    (hx : m.find? name x.id = some (.expr (.var x))) : (x, s) ∈ ps := by
  rw [h.layout] at hs
  obtain ⟨p, hp, same⟩ := List.mem_map.mp hs
  obtain ⟨hid, rfl⟩ := Prod.mk.inj same
  have found := h.registered p hp
  rw [hid] at found
  cases hx.symm.trans found
  exact hp

theorem expression_of_find? {i : Id} {e : Expr α} (h : m.find? name i = some (.expr e)) :
    m.expression name i = .ok e := by
  rw [expression, h]

/-- A layout is one also after anything else has happened, if what it places is still
registered and has its sign. -/
theorem laid_of_offsets (laid : m₀.offsets name ids = .ok l)
    (still : ∀ i ∈ l.ids, ∃ x, m₀.find? name i = some (.expr (.var x)) ∧
      m.find? name i = some (.expr (.var x)) ∧
      (m.vars.state x).sign = (m₀.vars.state x).sign) : m.Laid name l := by
  obtain ⟨places, -⟩ := offsets_ok laid
  refine ⟨places.nodup, fun i s hs => ?_⟩
  obtain ⟨x, before, now, sign⟩ := still i (Table.mem_ids_of_mem hs)
  obtain ⟨start, e, he, width⟩ := places.place i s hs
  cases (expression_of_find? before).symm.trans he
  refine ⟨start, .var x, expression_of_find? now, width.trans ?_⟩
  rw [Expr.width, Expr.width, Expr.sign, Expr.sign, sign]

theorem exists_places_of_laid (laid : m.Laid name l) (tile : Slot.Tile 0 l.items (extent l))
    (vars : ∀ i s, (i, s) ∈ l → ∃ x, m.expression name i = .ok (.var x) ∧ x.id = i ∧
      x.id ∈ m.vars.ids) : ∃ ps, m.Places name l ps := by
  obtain ⟨ps, hl, registered⟩ := exists_places vars
  refine ⟨ps, hl, fun p hp => expression_ok (registered p hp).1, fun p hp => ?_, ?_⟩
  · obtain ⟨-, e, he, width⟩ := laid.place p.1.id p.2 (hl ▸ List.mem_map.mpr ⟨p, hp, rfl⟩)
    cases he.symm.trans (registered p hp).1
    exact width
  · have items : ps.map (·.2) = l.items := by
      rw [hl, Table.items, List.map_map]
      rfl
    exact items ▸ tile

/-- Registered variables have states. -/
theorem known_of_registered (sound : w.Sound)
    (registered : ∀ i ∈ l.ids, ∃ x, w.model.find? name i = some (.expr (.var x))) :
    ∀ i s, (i, s) ∈ l → ∃ x, w.model.expression name i = .ok (.var x) ∧ x.id = i ∧
      x.id ∈ w.model.vars.ids := by
  intro i s hs
  obtain ⟨x, found⟩ := registered i (Table.mem_ids_of_mem hs)
  obtain ⟨made, hid⟩ := sound.of_expression (expression_of_find? found)
  exact ⟨x, expression_of_find? found, hid, sound.coherent.known x made⟩

section Loading

variable [Scalar α] [LawfulEntry α] {ps : List (Variable × Slot)}

/-- Gathering what was scattered gives back the part of the vector that the layout covers. -/
theorem gather_loaded {m' : Model α} {xs : Array α} (places : m.Places name l ps)
    (long : extent l ≤ xs.size) (loaded : ∀ p ∈ ps, m.Loaded m' xs p.1 p.2) :
    m.gather name (fun x => (m'.vars.state x).value) l = xs.toList.take (extent l).toNat := by
  rw [places.layout, gather_places places.registered]
  have blocks : ∀ p ∈ ps, ((m'.vars.state p.1).value).elim []
        (fun v => v.flatten (m.vars.state p.1).sign)
      = (xs.toList.drop p.2.offset.toNat).take p.2.width.toNat := by
    intro p hp
    obtain ⟨v, state, holds⟩ := loaded p hp
    obtain ⟨start, -, stop⟩ := places.tile.bounds p.2 (List.mem_map.mpr ⟨p, hp, rfl⟩)
    rw [state, Option.elim_some]
    exact holds.flatten start (places.width p hp) (stop.trans long)
  rw [List.flatMap_congr blocks, places.tile.flatten (Int.le_refl 0), ← places.layout]
  simp

omit [LawfulEntry α] in
/-- Values that fit gather to a vector that is as long as the layout. -/
theorem length_gather {values : Variable → Option (Value α)} (places : m.Places name l ps)
    (fits : ∀ p ∈ ps, m.Fitting values p.1) :
    ((m.gather name values l).length : Int) = extent l := by
  have lengths : ∀ p ∈ ps, (((values p.1).elim [] fun v =>
      v.flatten (m.vars.state p.1).sign).length : Int) = p.2.width := by
    intro p hp
    rw [(fits p hp).length, places.width p hp]
  have row := places.tile.length_flatMap lengths
  rw [Int.zero_add] at row
  rw [← row]
  conv_lhs => rw [places.layout, gather_places places.registered]

omit [LawfulEntry α] in
/-- A vector is scattered onto registered variables, and nothing else changes. -/
theorem loadSolution_places {w : World α} (sound : w.Sound) (laid : w.model.Laid name l)
    (places : w.model.Places name l ps) {d : Input α} {xs : Array α}
    (real : Flat.ofInput d = .ok (.numbers (.real xs))) (long : extent l ≤ xs.size) :
    ∃ m', loadSolution name d l w.model = .ok () m' ∧
      (∀ p ∈ ps, w.model.Loaded m' xs p.1 p.2) ∧ w.model.Kept m' ∧
      ∀ y, y.id ∉ l.ids → m'.vars.state y = w.vars.state y := by
  have registered : ∀ i ∈ l.ids, ∃ x, w.model.find? name i = some (.expr (.var x)) := by
    intro i hi
    rw [places.layout, Table.ids, List.map_map] at hi
    obtain ⟨p, hp, rfl⟩ := List.mem_map.mp hi
    exact ⟨p.1, places.registered p hp⟩
  have tile : Slot.Tile 0 l.items (extent l) := places.items ▸ places.tile
  obtain ⟨m', load, loaded, untouched⟩ := loadSolution_real laid
    (known_of_registered sound registered) real ((needed_le_extent tile).trans long)
  refine ⟨m', load, fun p hp => ?_, kept_of_loadSolution load, untouched⟩
  exact loaded p.1 p.2 (places.mem hp) (expression_of_find? (places.registered p hp))

/-- Values that were gathered are restored by scattering. -/
theorem loadSolution_gathered {w : World α} (sound : w.Sound) (laid : w.model.Laid name l)
    (places : w.model.Places name l ps) {u : Variable → Value α}
    (fits : ∀ p ∈ ps, (u p.1).Suits p.1 (w.vars.state p.1).sign) {d : Input α}
    (real : Flat.ofInput d
      = .ok (.numbers (.real (w.model.gather name (fun x => some (u x)) l).toArray))) :
    ∃ m', loadSolution name d l w.model = .ok () m' ∧ ∀ p ∈ ps, ∃ v,
      (m'.vars.state p.1).value = some v ∧
        v.toMatrix.toComplex = (u p.1).toMatrix.toComplex := by
  have fitting : ∀ p ∈ ps, w.model.Fitting (fun x => some (u x)) p.1 :=
    fun p hp => ⟨u p.1, rfl, fits p hp⟩
  have length := length_gather places fitting
  obtain ⟨m', load, loaded, -, -⟩ := loadSolution_places sound laid places real
    (by rw [List.size_toArray, length])
  refine ⟨m', load, fun p hp => ?_⟩
  have held : ∀ p ∈ ps, w.model.Fitting (fun x => (m'.vars.state x).value) p.1 := by
    intro p hp
    obtain ⟨v, state, holds⟩ := loaded p hp
    exact ⟨v, congrArg VarState.value state, holds.suits⟩
  have again := gather_loaded places (by rw [List.size_toArray, length]) loaded
  rw [← length, Int.toNat_natCast, List.take_length] at again
  rw [places.layout] at again
  obtain ⟨v, v', hv, hu, same⟩ := gather_inj places.registered held fitting again p hp
  cases hu
  exact ⟨v, hv, same⟩

/-- Scattering and gathering are inverse.  A vector that is long enough for a layout of
registered variables is never refused; each of them then holds the elements of its place,
which together are the part of the vector that the layout covers, and nothing else has
changed.  And values that are gathered are restored by scattering what was gathered. -/
theorem scatter_gather_inverse {w : World α} (reachable : Reachable w)
    (laid : m₀.offsets name ids = .ok l)
    (still : ∀ i ∈ l.ids, ∃ x, m₀.find? name i = some (.expr (.var x)) ∧
      w.model.find? name i = some (.expr (.var x)) ∧
      (w.vars.state x).sign = (m₀.vars.state x).sign) :
    (∀ d xs, Flat.ofInput d = .ok (.numbers (.real xs)) → extent l ≤ xs.size →
      ∃ m', loadSolution name d l w.model = .ok () m' ∧
        (∀ x s, (x.id, s) ∈ l → w.model.find? name x.id = some (.expr (.var x)) →
          ∃ v, (m'.vars.state x).value = some v ∧ v.shape = (x.rows, x.cols) ∧
            ∀ i < x.rows, ∀ j < x.cols, v.toMatrix.toComplex.get i j =
              ⟨xs.getD (s.offset.toNat + (i + j * x.rows)) 0,
                if (w.vars.state x).sign = .complex then
                  xs.getD (s.offset.toNat + x.rows * x.cols + (i + j * x.rows)) 0
                else 0⟩) ∧
        m'.gather name (fun x => (m'.vars.state x).value) l
          = xs.toList.take (extent l).toNat ∧
        (∀ y, y.id ∉ l.ids → m'.vars.state y = w.vars.state y) ∧
        w.model.Kept m') ∧
    (∀ u : Variable → Value α,
      (∀ x, x.id ∈ l.ids → w.model.find? name x.id = some (.expr (.var x)) →
        (u x).Suits x (w.vars.state x).sign) →
      ∀ d, Flat.ofInput d
          = .ok (.numbers (.real (w.model.gather name (fun x => some (u x)) l).toArray)) →
        ∃ m', loadSolution name d l w.model = .ok () m' ∧
          ∀ x, x.id ∈ l.ids → w.model.find? name x.id = some (.expr (.var x)) →
            ∃ v, (m'.vars.state x).value = some v ∧
              v.toMatrix.toComplex = (u x).toMatrix.toComplex) := by
  have sound := reachable.sound
  have laid' := laid_of_offsets laid still
  obtain ⟨ps, places⟩ := exists_places_of_laid laid' (tile_of_offsets laid)
    (known_of_registered sound fun i hi => by
      obtain ⟨x, -, now, -⟩ := still i hi
      exact ⟨x, now⟩)
  constructor
  · intro d xs real long
    obtain ⟨m', load, loaded, kept, untouched⟩ := loadSolution_places sound laid' places real long
    refine ⟨m', load, fun x s hs hx => ?_, ?_, untouched, kept⟩
    · obtain ⟨v, state, holds⟩ := loaded _ (places.of_registered hs hx)
      refine ⟨v, by rw [state], holds.shape, fun i hi j hj => ?_⟩
      rw [Value.get_toComplex holds.shape hi hj, holds.entry _ (column_index_lt hi hj)]
      exact Slot.element_eq_mk ..
    · rw [kept.gather]
      exact gather_loaded places long loaded
  · intro u fits d real
    obtain ⟨m', load, restored⟩ := loadSolution_gathered sound laid' places
      (fun p hp => fits p.1 (Table.mem_ids_of_mem (places.mem hp)) (places.registered p hp)) real
    refine ⟨m', load, fun x hi hx => ?_⟩
    obtain ⟨s, found⟩ := Table.exists_get? hi
    exact restored _ (places.of_registered (Table.mem_of_get? found) hx)

end Loading

end Model

/-- Every real vector can be handed in. -/
theorem Flat.ofInput_vector [Scalar α] (xs : Array α) :
    Flat.ofInput (.ofNumbers (.real ⟨[xs.size], xs⟩)) = .ok (.numbers (.real xs)) := by
  have few : [xs.size].length ≤ Datum.maxDimensions := by
    show 1 ≤ 64
    decide
  rw [ofInput, Datum.toArray_ofReal ⟨[xs.size], xs⟩ few]
  rfl

namespace Mixed

theorem world_reachable : Reachable world := by
  let column : VariableSpec ℚ := { shape := .ofInt 2 }
  let row : VariableSpec ℚ := { shape := .tuple 0 [.ofInt 1, .ofInt 2], sign := .complex }
  let number : VariableSpec ℚ := { shape := .ofInt 1, sign := .complex }
  let first : Model ℚ :=
    { ledger := { nextId := 2 }, vars := [(1, {})], contexts := [(.main, [.expr (.var x)])] }
  let second : Model ℚ := {
    ledger := { nextId := 3 }
    vars := [(1, {}), (2, { sign := .complex })]
    contexts := [(.main, [.expr (.var x), .expr (.var y)])] }
  have hx : column.declare [] {} = .ok x first := rfl
  have hy : row.declare [] first = .ok y second := by with_unfolding_all rfl
  have hz : number.declare [] second = .ok z world.model := rfl
  have declared := ((Reachable.start.declare_plain hx rfl).declare_plain hy rfl).declare_plain
    hz rfl
  simpa only [world, insert_empty_eq] using declared

/-- Values of the three variables. -/
def values (v : Variable) : Value ℚ :=
  if v = y then .matrix (.complex (.ofRowMajor 1 2 #[⟨1, 2⟩, ⟨3, 4⟩]))
  else if v = x then .matrix (.real (.ofRowMajor 2 1 #[5, 6]))
  else .number (.complex ⟨7, 8⟩)

/-- The complex row first, then the column and the complex number. -/
def places : Layout := [(2, ⟨0, 4⟩), (1, ⟨4, 2⟩), (3, ⟨6, 2⟩)]

theorem placed {i : Id} (hi : i ∈ places.ids) :
    ∃ v, world.model.find? .main i = some (.expr (.var v)) ∧ (v = y ∨ v = x ∨ v = z) := by
  simp only [places, Table.ids, List.map_cons, List.map_nil, List.mem_cons, List.not_mem_nil,
    or_false] at hi
  rcases hi with rfl | rfl | rfl
  · exact ⟨y, rfl, .inl rfl⟩
  · exact ⟨x, rfl, .inr (.inl rfl)⟩
  · exact ⟨z, rfl, .inr (.inr rfl)⟩

theorem values_suit {v : Variable} (hi : v.id ∈ places.ids)
    (hv : world.model.find? .main v.id = some (.expr (.var v))) :
    (values v).Suits v (world.vars.state v).sign := by
  obtain ⟨u, hu, which⟩ := placed hi
  cases hv.symm.trans hu
  rcases which with rfl | rfl | rfl
  · exact ⟨rfl, fun real => absurd rfl real⟩
  · exact ⟨rfl, fun _ => by decide +kernel⟩
  · exact ⟨rfl, fun real => absurd rfl real⟩

end Mixed

/-- A complex row, a column and a complex number are scattered and gathered again. -/
theorem mixed_scatter_gather :
    (∃ m', Model.loadSolution .main (.tuple 0 [.ofInt 1, .ofInt 3, .ofInt 2, .ofInt 4, .ofInt 5,
          .ofInt 6, .ofInt 7, .ofInt 8, .ofInt 9]) Mixed.places Mixed.world.model = .ok () m' ∧
      m'.gather .main (fun v => (m'.vars.state v).value) Mixed.places
        = [1, 3, 2, 4, 5, 6, 7, 8]) ∧
    ∃ m', Model.loadSolution .main (.ofNumbers (.real ⟨[8], #[1, 3, 2, 4, 5, 6, 7, 8]⟩))
        Mixed.places Mixed.world.model = .ok () m' ∧
      ∀ v ∈ [Mixed.x, Mixed.y, Mixed.z], ∃ u, (m'.vars.state v).value = some u ∧
        u.toMatrix.toComplex = (Mixed.values v).toMatrix.toComplex := by
  have laid : Mixed.world.model.offsets .main [2, 1, 2, 3, 1] = .ok Mixed.places := rfl
  have still : ∀ i ∈ Mixed.places.ids, ∃ v,
      Mixed.world.model.find? .main i = some (.expr (.var v)) ∧
        Mixed.world.model.find? .main i = some (.expr (.var v)) ∧
        (Mixed.world.vars.state v).sign = (Mixed.world.model.vars.state v).sign := by
    intro i hi
    obtain ⟨v, found, -⟩ := Mixed.placed hi
    exact ⟨v, found, found, rfl⟩
  obtain ⟨scatter, gather⟩ := Model.scatter_gather_inverse Mixed.world_reachable laid still
  have read : Flat.ofInput (.tuple 0 [.ofInt 1, .ofInt 3, .ofInt 2, .ofInt 4, .ofInt 5,
      .ofInt 6, .ofInt 7, .ofInt 8, .ofInt 9] : Input ℚ)
        = .ok (.numbers (.real #[1, 3, 2, 4, 5, 6, 7, 8, 9])) := by with_unfolding_all rfl
  have gathered : (Mixed.world.model.gather .main (fun v => some (Mixed.values v))
      Mixed.places).toArray = #[1, 3, 2, 4, 5, 6, 7, 8] := by decide +kernel
  constructor
  · obtain ⟨m', load, -, back, -, -⟩ := scatter _ _ read (by decide)
    exact ⟨m', load, back⟩
  · rw [← gathered]
    obtain ⟨m', load, restored⟩ := gather Mixed.values (fun v => Mixed.values_suit) _
      (Flat.ofInput_vector _)
    refine ⟨m', load, fun v hv => ?_⟩
    simp only [List.mem_cons, List.not_mem_nil, or_false] at hv
    rcases hv with rfl | rfl | rfl
    · exact restored Mixed.x (by decide) rfl
    · exact restored Mixed.y (by decide) rfl
    · exact restored Mixed.z (by decide) rfl

end ConicModel
