/-
# Looking up in tables

A table is a list, and `get?` finds the first entry of an identity.  These lemmas say
what a look-up finds in terms of membership, and what survives when entries are added
at the end, which is the only way the library makes a cache grow.
-/
import Mathlib.Data.List.Nodup
import ConicModel.Table

namespace ConicModel.Table

variable {β γ : Type}

theorem get?_eq_none_iff {t : Table β} {i : Id} : t.get? i = none ↔ i ∉ t.ids := by
  induction t with
  | nil => simp [get?, ids]
  | cons e t ih =>
      rw [get?, ids, List.map_cons, List.mem_cons, not_or]
      split
      · rename_i h
        simp [h]
      · rename_i h
        rw [ih]
        exact ⟨fun ht => ⟨Ne.symm h, ht⟩, fun ht => ht.2⟩

theorem has_iff {t : Table β} {i : Id} : t.has i = true ↔ i ∈ t.ids := by
  rw [has, Option.isSome_iff_ne_none, ne_eq, get?_eq_none_iff, not_not]

theorem has_eq_false_iff {t : Table β} {i : Id} : t.has i = false ↔ i ∉ t.ids := by
  rw [← has_iff, Bool.not_eq_true]

theorem has_cons_of_eq {e : Id × β} {i : Id} (h : e.1 = i) (t : Table β) :
    has (e :: t) i = true := by
  rw [has, get?, if_pos h, Option.isSome_some]

theorem has_cons_of_ne {e : Id × β} {i : Id} (h : e.1 ≠ i) (t : Table β) :
    has (e :: t) i = has t i := by
  rw [has, get?, if_neg h, has]

theorem mem_ids_of_get? {t : Table β} {i : Id} {x : β} (h : t.get? i = some x) : i ∈ t.ids := by
  by_contra hi
  rw [get?_eq_none_iff.mpr hi] at h
  cases h

theorem exists_get? {t : Table β} {i : Id} (h : i ∈ t.ids) : ∃ x, t.get? i = some x :=
  Option.isSome_iff_exists.mp (has_iff.mpr h)

theorem mem_ids_of_mem {t : Table β} {i : Id} {x : β} (h : (i, x) ∈ t) : i ∈ t.ids :=
  List.mem_map.mpr ⟨(i, x), h, rfl⟩

theorem mem_of_get? {t : Table β} {i : Id} {x : β} (h : t.get? i = some x) : (i, x) ∈ t := by
  induction t with
  | nil => cases h
  | cons e t ih =>
      rw [get?] at h
      split at h
      · rename_i he
        cases h
        rw [← he]
        exact List.mem_cons_self
      · exact List.mem_cons_of_mem e (ih h)

/-- In a table without repetitions every entry is found. -/
theorem get?_of_mem {t : Table β} (nodup : t.ids.Nodup) {i : Id} {x : β} (h : (i, x) ∈ t) :
    t.get? i = some x := by
  induction t with
  | nil => cases h
  | cons e t ih =>
      rw [ids, List.map_cons, List.nodup_cons] at nodup
      rcases List.mem_cons.mp h with rfl | h
      · rw [get?, if_pos rfl]
      · have ne : e.1 ≠ i := by
          rintro rfl
          exact nodup.1 (mem_ids_of_mem h)
        rw [get?, if_neg ne]
        exact ih nodup.2 h

theorem get?_filter (keep : Id → Bool) (t : Table β) (i : Id) :
    get? (t.filter fun e => keep e.1) i = if keep i then t.get? i else none := by
  induction t with
  | nil => simp [get?]
  | cons e t ih =>
      rw [List.filter_cons]
      by_cases here : e.1 = i
      · subst here
        by_cases kept : keep e.1 = true
        · simp [kept, get?]
        · simp [kept, ih]
      · by_cases kept : keep e.1 = true
        · simp [kept, get?, here, ih]
        · simp [kept, get?, here, ih]

/-! ## Growing -/

@[simp] theorem ids_append (t u : Table β) : ids (t ++ u) = ids t ++ ids u := List.map_append

/-- An old entry is found in whatever the table has grown to. -/
theorem get?_append_of_some {t : Table β} {i : Id} {x : β} (h : t.get? i = some x)
    (u : Table β) : get? (t ++ u) i = some x := by
  rw [get?_append, h, Option.some_or]

/-- What was just added is found, if nothing was there before. -/
theorem get?_push_self {t : Table β} {i : Id} (h : t.get? i = none) (x : β) :
    (t.push i x).get? i = some x := by
  rw [get?_push, h, if_pos rfl, Option.none_or]

theorem get?_push_of_ne (t : Table β) {i j : Id} (h : i ≠ j) (x : β) :
    (t.push i x).get? j = t.get? j := by
  rw [get?_push, if_neg h, Option.or_none]

/-! ## Carrying entries over -/

/-- The table with every entry carried over. -/
def image (f : β → γ) (t : Table β) : Table γ := t.map fun e => (e.1, f e.2)

theorem get?_image (f : β → γ) (t : Table β) (i : Id) :
    (t.image f).get? i = (t.get? i).map f := by
  induction t with
  | nil => rfl
  | cons e t ih =>
      rw [image, List.map_cons, get?, get?]
      split
      · rfl
      · exact ih

@[simp] theorem ids_image (f : β → γ) (t : Table β) : (t.image f).ids = t.ids := by
  rw [ids, image, List.map_map]
  rfl

@[simp] theorem has_image (f : β → γ) (t : Table β) (i : Id) : (t.image f).has i = t.has i := by
  rw [has, get?_image, Option.isSome_map, has]

theorem image_push (f : β → γ) (t : Table β) (i : Id) (x : β) :
    (t.push i x).image f = (t.image f).push i (f x) := by
  rw [push, image, List.map_append]
  rfl

end ConicModel.Table
