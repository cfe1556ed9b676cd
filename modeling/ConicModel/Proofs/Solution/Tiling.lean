/-
# A layout tiles the solution vector

The loop that lays variables out keeps a table and the index at which the next place
starts.  Its invariant is that the places of the table follow each other from zero up to
that index (`Slot.Tile`): an identity that has a place leaves both as they are, and any other
adds a place that starts at the index and moves the index to its end.  That a layout has
neither overlaps nor gaps is then a property of places in a row, of which identities know
nothing (`Model.tile_of_offsets`).
-/
import ConicModel.Proofs.Solution.Scatter

namespace ConicModel

/-! ## Places in a row -/

namespace Slot

/-- An index lies within a place. -/
def Covers (s : Slot) (k : Int) : Prop := s.offset ≤ k ∧ k < s.offset + s.width

/-- Places follow each other from one index up to another. -/
def Tile : Int → List Slot → Int → Prop
  | start, [], stop => start = stop
  | start, s :: ss, stop => s.offset = start ∧ 0 ≤ s.width ∧ Tile (start + s.width) ss stop

variable {start middle stop : Int} {ss ts : List Slot}

theorem Tile.append (first : Tile start ss middle) (second : Tile middle ts stop) :
    Tile start (ss ++ ts) stop := by
  induction ss generalizing start with
  | nil =>
      cases first
      exact second
  | cons s ss ih =>
      obtain ⟨offset, width, rest⟩ := first
      exact ⟨offset, width, ih rest⟩

/-- Where the last place ends. -/
theorem Tile.stop_eq (h : Tile start ss stop) : stop = start + (ss.map Slot.width).sum := by
  induction ss generalizing start with
  | nil =>
      cases h
      simp
  | cons s ss ih =>
      obtain ⟨-, -, rest⟩ := h
      rw [ih rest, List.map_cons, List.sum_cons, Int.add_assoc]

theorem Tile.start_le (h : Tile start ss stop) : start ≤ stop := by
  induction ss generalizing start with
  | nil => exact Int.le_of_eq h
  | cons s ss ih =>
      obtain ⟨-, width, rest⟩ := h
      have := ih rest
      omega

theorem Tile.bounds (h : Tile start ss stop) :
    ∀ s ∈ ss, start ≤ s.offset ∧ 0 ≤ s.width ∧ s.offset + s.width ≤ stop := by
  induction ss generalizing start with
  | nil => intro s hs; cases hs
  | cons s ss ih =>
      obtain ⟨rfl, width, rest⟩ := h
      intro t ht
      rcases List.mem_cons.mp ht with rfl | ht
      · exact ⟨Int.le_refl _, width, rest.start_le⟩
      · obtain ⟨first, wide, last⟩ := ih rest t ht
        exact ⟨by omega, wide, last⟩

/-- Each place starts where the one before it ends. -/
theorem Tile.next (h : Tile start ss stop) :
    ss.IsChain fun s t => t.offset = s.offset + s.width := by
  induction ss generalizing start with
  | nil => exact .nil
  | cons s ss ih =>
      obtain ⟨rfl, -, rest⟩ := h
      refine List.isChain_cons.mpr ⟨fun t ht => ?_, ih rest⟩
      cases ss with
      | nil => cases ht
      | cons t' ss =>
          cases ht
          exact rest.1

/-- No index lies within two places. -/
theorem Tile.disjoint (h : Tile start ss stop) :
    ss.Pairwise fun s t => ∀ k, s.Covers k → ¬t.Covers k := by
  induction ss generalizing start with
  | nil => exact .nil
  | cons s ss ih =>
      obtain ⟨rfl, -, rest⟩ := h
      refine List.pairwise_cons.mpr ⟨fun t ht k hs htk => ?_, ih rest⟩
      have later := (rest.bounds t ht).1
      exact absurd (later.trans htk.1) (Int.not_le.mpr hs.2)

/-- Every index between the two ends lies within a place, and no other does. -/
theorem Tile.cover (h : Tile start ss stop) (k : Int) :
    (start ≤ k ∧ k < stop) ↔ ∃ s ∈ ss, s.Covers k := by
  constructor
  · rintro ⟨first, last⟩
    induction ss generalizing start with
    | nil =>
        cases h
        omega
    | cons s ss ih =>
        obtain ⟨rfl, -, rest⟩ := h
        by_cases here : k < s.offset + s.width
        · exact ⟨s, List.mem_cons_self, first, here⟩
        · obtain ⟨t, ht, covers⟩ := ih rest (Int.not_lt.mp here)
          exact ⟨t, List.mem_cons_of_mem s ht, covers⟩
  · rintro ⟨s, hs, first, last⟩
    obtain ⟨left, -, right⟩ := h.bounds s hs
    exact ⟨left.trans first, Int.lt_of_lt_of_le last right⟩

end Slot

namespace Model

variable {α : Type} {m : Model α} {name : ContextName}

/-- The number of elements that a layout has places for. -/
def extent (l : Layout) : Int := (l.items.map Slot.width).sum

/-- The places of a layout follow each other from the start of the vector, without overlaps
and without gaps. -/
structure Tiled (l : Layout) : Prop where
  first : ∀ s ∈ l.items.head?, s.offset = 0
  next : l.items.IsChain fun s t => t.offset = s.offset + s.width
  disjoint : l.items.Pairwise fun s t => ∀ k, s.Covers k → ¬t.Covers k
  cover : ∀ k, (0 ≤ k ∧ k < extent l) ↔ ∃ s ∈ l.items, s.Covers k

theorem Tiled.of_tile {l : Layout} (h : Slot.Tile 0 l.items (extent l)) : Tiled l := by
  refine ⟨fun s hs => ?_, h.next, h.disjoint, h.cover⟩
  cases items : l.items with
  | nil =>
      rw [items] at hs
      cases hs
  | cons t ts =>
      rw [items] at hs h
      cases hs
      exact h.1

/-! ## Identities that come again -/

/-- An identity that has a place can be left out. -/
theorem placeAll_filter {l : Layout} {i : Id} (placed : l.has i = true) (ids : List Id)
    (offset : Int) :
    m.placeAll name (ids.filter fun j => !j == i) l offset = m.placeAll name ids l offset := by
  induction ids generalizing l offset with
  | nil => rfl
  | cons j ids ih =>
      rw [List.filter_cons]
      by_cases same : j = i
      · subst same
        rw [placeAll, if_pos placed]
        simpa using ih placed offset
      · have other : (!j == i) = true := by simpa using same
        rw [if_pos other, placeAll, placeAll]
        split
        · exact ih placed offset
        · cases m.expression name j with
          | error f => rfl
          | ok e =>
              refine ih ?_ _
              rw [Table.has_iff, Table.ids_push]
              exact List.mem_append_left _ (Table.has_iff.mp placed)

theorem placeAll_eraseDups (l : Layout) (offset : Int) : ∀ ids : List Id,
    m.placeAll name ids.eraseDups l offset = m.placeAll name ids l offset
  | [] => rfl
  | i :: ids => by
      have shorter : (ids.filter fun j => !j == i).length < ids.length + 1 :=
        Nat.lt_succ_of_le (List.length_filter_le _ _)
      rw [List.eraseDups_cons, placeAll, placeAll]
      split
      · rename_i placed
        rw [placeAll_eraseDups l offset, placeAll_filter placed]
      · cases m.expression name i with
        | error f => rfl
        | ok e =>
            have placed : (l.push i ⟨offset, e.width m.vars⟩).has i = true := by
              simp [Table.has_iff]
            refine (placeAll_eraseDups _ _ _).trans ?_
            exact placeAll_filter placed ids _
termination_by ids => ids.length

/-! ## The loop -/

/-- The places that the loop adds belong to the identities that had none, in the order in
which they first come, and follow those that were there. -/
theorem placeAll_tile {ids : List Id} (known : ∀ i ∈ ids, ∃ e, m.expression name i = .ok e)
    {l : Layout} {offset : Int} (tile : Slot.Tile 0 l.items offset) :
    ∃ l' stop, m.placeAll name ids l offset = .ok l' ∧ Slot.Tile 0 l'.items stop ∧
      l'.ids = l.ids ++ (ids.filter fun i => !l.has i).eraseDups := by
  induction ids generalizing l offset with
  | nil => exact ⟨l, offset, rfl, tile, by simp⟩
  | cons i ids ih =>
      have rest : ∀ j ∈ ids, ∃ e, m.expression name j = .ok e :=
        fun j hj => known j (List.mem_cons_of_mem i hj)
      by_cases placed : l.has i = true
      · obtain ⟨l', stop, made, tile', keys⟩ := ih rest tile
        refine ⟨l', stop, ?_, tile', ?_⟩
        · rw [placeAll, if_pos placed]
          exact made
        · rw [keys, List.filter_cons, placed]
          rfl
      · obtain ⟨e, he⟩ := known i List.mem_cons_self
        have added : Slot.Tile 0 (l.push i ⟨offset, e.width m.vars⟩).items
            (offset + e.width m.vars) := by
          rw [Table.items, Table.push, List.map_append]
          exact tile.append ⟨rfl, Int.natCast_nonneg _, rfl⟩
        obtain ⟨l', stop, made, tile', keys⟩ := ih rest added
        refine ⟨l', stop, ?_, tile', ?_⟩
        · rw [placeAll, if_neg placed, he]
          exact made
        · have new : (!l.has i) = true := by simpa using placed
          have fewer : (ids.filter fun j => !(l.push i ⟨offset, e.width m.vars⟩).has j)
              = (ids.filter fun j => !l.has j).filter fun j => !j == i := by
            rw [List.filter_filter]
            refine List.filter_congr fun j _ => ?_
            simp only [Table.has, Table.get?_push]
            by_cases same : i = j
            · simp [same]
            · simp [same, Ne.symm same]
          rw [keys, fewer, Table.ids_push, List.filter_cons, if_pos new, List.eraseDups_cons,
            List.append_assoc]
          rfl

/-- The loop is refused only for an identity that it was given. -/
theorem placeAll_error {ids : List Id} {l : Layout} {offset : Int} {f : Fault α}
    (h : m.placeAll name ids l offset = .error f) :
    ∃ i ∈ ids, m.expression name i = .error f := by
  induction ids generalizing l offset with
  | nil => cases h
  | cons i ids ih =>
      rw [placeAll] at h
      split at h
      · obtain ⟨j, hj, he⟩ := ih h
        exact ⟨j, List.mem_cons_of_mem i hj, he⟩
      · cases he : m.expression name i with
        | error g =>
            rw [he] at h
            cases h
            exact ⟨i, List.mem_cons_self, he⟩
        | ok e =>
            rw [he] at h
            obtain ⟨j, hj, he⟩ := ih h
            exact ⟨j, List.mem_cons_of_mem i hj, he⟩

/-- Identities of expressions are laid out, each once. -/
theorem offsets_total {ids : List Id} (known : ∀ i ∈ ids, ∃ e, m.expression name i = .ok e) :
    ∃ l, m.offsets name ids = .ok l ∧ Slot.Tile 0 l.items (extent l) ∧
      l.ids = ids.eraseDups := by
  have start : Slot.Tile 0 (Table.items ([] : Layout)) 0 := rfl
  obtain ⟨l, stop, made, tile, keys⟩ := placeAll_tile known start
  refine ⟨l, made, ?_, ?_⟩
  · have last : stop = extent l := tile.stop_eq.trans (Int.zero_add _)
    exact last ▸ tile
  · rw [keys]
    simp [Table.has, Table.get?, Table.ids]

/-- The places of a layout stand in a row. -/
theorem tile_of_offsets {ids : List Id} {l : Layout} (h : m.offsets name ids = .ok l) :
    Slot.Tile 0 l.items (extent l) := by
  obtain ⟨laid, keys⟩ := offsets_ok h
  have known : ∀ i ∈ ids, ∃ e, m.expression name i = .ok e := by
    intro i hi
    obtain ⟨⟨j, s⟩, hs, rfl⟩ := List.mem_map.mp ((keys i).mpr hi)
    obtain ⟨-, e, he, -⟩ := laid.place j s hs
    exact ⟨e, he⟩
  obtain ⟨l', made, tile, -⟩ := offsets_total known
  cases h.symm.trans made
  exact tile

/-- Where no constraint is asked for, an identity is refused only if nothing is registered
under it. -/
theorem expression_total {i : Id} (placeable : ∀ c, m.find? name i ≠ some (.constraint c)) :
    (∃ e, m.expression name i = .ok e) ∨
      m.find? name i = none ∧ m.expression name i = .error (.unregistered i name) := by
  unfold expression
  cases found : m.find? name i with
  | none => exact .inr ⟨rfl, rfl⟩
  | some n =>
      cases n with
      | expr e => exact .inl ⟨e, rfl⟩
      | constraint c => exact absurd found (placeable c)

theorem offsets_unregistered_iff {ids : List Id}
    (placeable : ∀ i ∈ ids, ∀ c, m.find? name i ≠ some (.constraint c)) :
    (∃ i, m.offsets name ids = .error (.unregistered i name)) ↔
      ∃ i ∈ ids, m.find? name i = none := by
  constructor
  · rintro ⟨i, h⟩
    obtain ⟨j, hj, refused⟩ := placeAll_error h
    rcases expression_total (placeable j hj) with ⟨e, he⟩ | ⟨absent, -⟩
    · cases he.symm.trans refused
    · exact ⟨j, hj, absent⟩
  · rintro ⟨i, hi, absent⟩
    cases h : m.offsets name ids with
    | ok l =>
        obtain ⟨laid, keys⟩ := offsets_ok h
        obtain ⟨⟨j, s⟩, hs, rfl⟩ := List.mem_map.mp ((keys i).mpr hi)
        obtain ⟨-, e, he, -⟩ := laid.place j s hs
        cases absent.symm.trans (expression_ok he)
    | error f =>
        obtain ⟨j, hj, refused⟩ := placeAll_error h
        rcases expression_total (placeable j hj) with ⟨e, he⟩ | ⟨-, fault⟩
        · cases he.symm.trans refused
        · cases fault.symm.trans refused
          exact ⟨j, rfl⟩

/-- Laying out what is registered is refused exactly if one of the identities is not, and
otherwise gives each identity one place, in the order in which they first come, as wide as
what is registered under it.  The places tile the vector, and identities that come again
change nothing. -/
theorem layout_tiles_vector {ids : List Id}
    (placeable : ∀ i ∈ ids, ∀ c, m.find? name i ≠ some (.constraint c)) :
    ((∃ i, m.offsets name ids = .error (.unregistered i name)) ↔
      ∃ i ∈ ids, m.find? name i = none) ∧
    ((∀ i ∈ ids, m.find? name i ≠ none) → ∃ l, m.offsets name ids = .ok l ∧
      l.ids = ids.eraseDups ∧
      (∀ i s, (i, s) ∈ l → ∃ e, m.find? name i = some (.expr e) ∧
        s.width = if e.sign m.vars = .complex then (2 * e.length : Int) else e.length) ∧
      Tiled l) ∧
    m.offsets name ids = m.offsets name ids.eraseDups := by
  refine ⟨offsets_unregistered_iff placeable, fun registered => ?_,
    (placeAll_eraseDups [] 0 ids).symm⟩
  have known : ∀ i ∈ ids, ∃ e, m.expression name i = .ok e := by
    intro i hi
    rcases expression_total (placeable i hi) with known | ⟨absent, -⟩
    · exact known
    · exact absurd absent (registered i hi)
  obtain ⟨l, made, tile, keys⟩ := offsets_total known
  refine ⟨l, made, keys, fun i s hs => ?_, .of_tile tile⟩
  obtain ⟨-, e, he, width⟩ := (offsets_ok made).1.place i s hs
  refine ⟨e, expression_ok he, width.trans ?_⟩
  unfold Expr.width
  split
  · exact Int.natCast_mul 2 e.length
  · rfl

end Model

/-! ## A registry of real and complex variables -/

namespace Mixed

def x : Variable := ⟨1, 2, 1, .main⟩

def y : Variable := ⟨2, 1, 2, .main⟩

def z : Variable := ⟨3, 1, 1, .main⟩

/-- A column, a complex row and a complex number. -/
def world : World ℚ where
  model := {
    ledger := { nextId := 4 }
    vars := [(1, {}), (2, { sign := .complex }), (3, { sign := .complex })]
    contexts := [(.main, [.expr (.var x), .expr (.var y), .expr (.var z)])] }
  nodes := insert (.expr (.var z)) (insert (.expr (.var y)) {.expr (.var x)})

theorem registered {i : Id} (hi : i ∈ ([2, 1, 2, 3, 1] : List Id)) :
    ∃ v, world.model.find? .main i = some (.expr (.var v)) := by
  simp only [List.mem_cons, List.not_mem_nil, or_false] at hi
  rcases hi with rfl | rfl | rfl | rfl | rfl
  · exact ⟨y, rfl⟩
  · exact ⟨x, rfl⟩
  · exact ⟨y, rfl⟩
  · exact ⟨z, rfl⟩
  · exact ⟨x, rfl⟩

end Mixed

/-- Asked for twice, the complex row has one place, and the column starts after it. -/
theorem mixed_layout_tiles : ∃ l,
    Mixed.world.model.offsets .main [2, 1, 2, 3, 1] = .ok l ∧ l.ids = [2, 1, 3] ∧
      l.items.map Slot.offset = [0, 4, 6] ∧ Model.Tiled l := by
  have placeable : ∀ i ∈ ([2, 1, 2, 3, 1] : List Id), ∀ c,
      Mixed.world.model.find? .main i ≠ some (.constraint c) := by
    intro i hi c hc
    obtain ⟨v, hv⟩ := Mixed.registered hi
    cases hv.symm.trans hc
  obtain ⟨-, made, -⟩ := Model.layout_tiles_vector placeable
  obtain ⟨l, hl, keys, -, tiled⟩ := made fun i hi => by
    obtain ⟨v, hv⟩ := Mixed.registered hi
    simp [hv]
  refine ⟨l, hl, keys, ?_, tiled⟩
  cases hl
  rfl

end ConicModel
