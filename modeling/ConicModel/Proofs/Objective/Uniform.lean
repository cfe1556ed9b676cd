/-
# What is refused, and what every objective keeps to

Whatever an objective was made by, no key comes twice in it, the two parts of an entry have
one shape, and all entries have one number of rows (`Objective.Uniform`).  The checks that
stand for this are made in one place, where an entry is set, and sums and products go through
it for each of their entries.  They are never refused there: operands that keep to the
invariant are refused for what the operation itself compares, or not at all.

  * `Objective.set_error_iff`: the reasons for which an entry is not set, of which the first
    that applies is given;
  * `Objective.ofEntries_of_uniform`: entries that keep to the invariant are set in any order;
  * `Objective.add_error_iff`: a sum fails for its rows, and otherwise for the columns under a
    shared key;
  * `Objective.premultiply_error_iff`: a product fails for the width of the matrix.
-/
import ConicModel.Proofs.Objective.Reading

namespace ConicModel

variable {α : Type}

/-! ## Entries -/

/-- An entry of `n` rows whose two parts have one shape. -/
structure Part.Shaped (n : Nat) (p : Part α) : Prop where
  rows : Coeffs.rows p.real = n
  imag : Coeffs.shape p.imag = Coeffs.shape p.real

namespace Part.Shaped

variable {n : Nat} {p q s : Part α}

theorem of_formed {key : Id} (h : Part.Formed n key p) : p.Shaped n :=
  ⟨h.real_rows, Prod.ext (h.imag_rows.trans h.real_rows.symm) h.cols⟩

variable [Entry α]

/-- Two entries of as many rows have a sum if they have as many columns. -/
theorem add?_eq_none_iff (hp : p.Shaped n) (hq : q.Shaped n) :
    p.add? q = none ↔ Coeffs.cols p.real ≠ Coeffs.cols q.real := by
  have same : Coeffs.shape p.real = Coeffs.shape q.real ↔
      Coeffs.cols p.real = Coeffs.cols q.real :=
    ⟨fun h => (Prod.mk.inj h).2, fun h => Prod.ext (hp.rows.trans hq.rows.symm) h⟩
  rw [Part.add?, Coeffs.add?, Coeffs.add?, hp.imag, hq.imag]
  by_cases cols : Coeffs.cols p.real = Coeffs.cols q.real
  · rw [if_pos (same.mpr cols), if_pos (same.mpr cols)]
    exact ⟨fun h => (by cases h), fun h => absurd cols h⟩
  · rw [if_neg (mt same.mp cols)]
    exact ⟨fun _ => cols, fun _ => rfl⟩

theorem add (hp : p.Shaped n) (sum : p.add? q = some s) : s.Shaped n := by
  obtain ⟨real, imag⟩ := Part.add?_eq_some sum
  obtain ⟨-, -, real_rows, real_cols⟩ := Coeffs.shape_add real
  obtain ⟨-, -, imag_rows, imag_cols⟩ := Coeffs.shape_add imag
  refine ⟨real_rows.trans hp.rows, ?_⟩
  calc Coeffs.shape s.imag = Coeffs.shape p.imag := Prod.ext imag_rows imag_cols
    _ = Coeffs.shape p.real := hp.imag
    _ = Coeffs.shape s.real := Prod.ext real_rows.symm real_cols.symm

end Part.Shaped

namespace Objective

/-! ## The invariant -/

/-- No key comes twice, the parts of an entry have one shape, and all entries have `n`
rows. -/
structure Uniform (n : Nat) (o : Objective α) : Prop where
  keys : o.keys.Nodup
  parts : ∀ e ∈ o.entries, e.2.Shaped n

theorem uniform_empty (n : Nat) : (empty : Objective α).Uniform n :=
  ⟨List.nodup_nil, fun _ he => by cases he⟩

theorem Formed.uniform {n : Nat} {o : Objective α} (h : o.Formed n) : o.Uniform n :=
  ⟨h.keys, fun e he => .of_formed (h.parts e he)⟩

theorem Uniform.rows_eq {n m : Nat} {o : Objective α} (h : o.Uniform n) (hm : o.rows = some m) :
    m = n := by
  obtain ⟨e, he, rfl⟩ := Option.map_eq_some_iff.mp hm
  exact (h.parts e (List.mem_of_mem_head? he)).rows

/-- Without an entry there is nothing to have a number of rows. -/
theorem Uniform.of_rows {n m : Nat} {o : Objective α} (h : o.Uniform n) (none : o.rows = none) :
    o.Uniform m :=
  ⟨h.keys, fun e he => by rw [entries_of_rows none] at he; cases he⟩

/-- The entries set first keep to the invariant by themselves. -/
theorem Uniform.of_append {n : Nat} {es es' : Table (Part α)}
    (h : (⟨es ++ es'⟩ : Objective α).Uniform n) : (⟨es⟩ : Objective α).Uniform n where
  keys := by
    have nodup := h.keys
    rw [Objective.keys, Table.ids_append] at nodup
    exact (List.nodup_append.mp nodup).1
  parts e he := h.parts e (List.mem_append_left es' he)

/-! ## Setting an entry -/

/-- Why an entry is not set.  A key that is taken counts before anything about the parts. -/
inductive SetRefusal (o : Objective α) (key : Id) (p : Part α) : ObjectiveFault → Prop
  | taken : key ∈ o.keys → SetRefusal o key p (.taken key)
  | parts : key ∉ o.keys → Coeffs.shape p.real ≠ Coeffs.shape p.imag →
      SetRefusal o key p (.partsDiffer (Coeffs.shape p.real) (Coeffs.shape p.imag))
  | rows {n : Nat} : key ∉ o.keys → Coeffs.shape p.real = Coeffs.shape p.imag →
      o.rows = some n → Coeffs.rows p.real ≠ n →
      SetRefusal o key p (.rowsDiffer key (Coeffs.rows p.real) n)

section Setting

variable {o : Objective α} {key : Id} {p : Part α}

/-- An entry is set at the end, unless there is a reason not to set it. -/
theorem set_cases (o : Objective α) (key : Id) (p : Part α) :
    (o.set key p = .ok ⟨o.entries.push key p⟩ ∧ key ∉ o.keys ∧
        Coeffs.shape p.real = Coeffs.shape p.imag ∧
        ∀ n, o.rows = some n → Coeffs.rows p.real = n) ∨
      ∃ f, o.set key p = .error f ∧ SetRefusal o key p f := by
  unfold set
  split
  · rename_i held
    exact .inr ⟨_, rfl, .taken (Table.has_iff.mp held)⟩
  · rename_i unheld
    have new : key ∉ o.keys := fun h => unheld (Table.has_iff.mpr h)
    split
    · rename_i differ
      exact .inr ⟨_, rfl, .parts new differ⟩
    · rename_i agree
      have shapes := not_not.mp agree
      split
      · rename_i n hn
        split
        · rename_i rows
          refine .inl ⟨rfl, new, shapes, fun m hm => rows.trans ?_⟩
          exact Option.some.inj (hn.symm.trans hm)
        · rename_i rows
          exact .inr ⟨_, rfl, .rows new shapes hn rows⟩
      · rename_i hn
        exact .inl ⟨rfl, new, shapes, fun m hm => absurd (hn.symm.trans hm) (by simp)⟩

theorem SetRefusal.unique {f g : ObjectiveFault} (hf : SetRefusal o key p f)
    (hg : SetRefusal o key p g) : f = g := by
  cases hf <;> cases hg <;> simp_all

theorem set_error_iff {f : ObjectiveFault} :
    o.set key p = .error f ↔ SetRefusal o key p f := by
  rcases set_cases o key p with ⟨done, new, shapes, rows⟩ | ⟨g, refused, why⟩
  · rw [done]
    refine ⟨fun h => (by cases h), fun h => ?_⟩
    cases h with
    | taken held => exact absurd held new
    | parts _ differ => exact absurd shapes differ
    | rows _ _ hn differ => exact absurd (rows _ hn) differ
  · rw [refused]
    refine ⟨fun h => ?_, fun h => congrArg _ (why.unique h)⟩
    cases h
    exact why

theorem set_of_fits (new : key ∉ o.keys) (shapes : Coeffs.shape p.real = Coeffs.shape p.imag)
    (rows : ∀ n, o.rows = some n → Coeffs.rows p.real = n) :
    o.set key p = .ok ⟨o.entries.push key p⟩ := by
  rcases set_cases o key p with ⟨done, -⟩ | ⟨f, -, why⟩
  · exact done
  · cases why with
    | taken held => exact absurd held new
    | parts _ differ => exact absurd shapes differ
    | rows _ _ hn differ => exact absurd (rows _ hn) differ

theorem Uniform.set {n : Nat} {o' : Objective α} (h : o.Uniform n) (hs : o.set key p = .ok o') :
    ∃ m, o'.Uniform m := by
  rcases set_cases o key p with ⟨done, new, shapes, rows⟩ | ⟨f, refused, -⟩
  · rw [done] at hs
    cases hs
    have keys : (Table.ids (o.entries.push key p)).Nodup := by
      rw [Table.ids_push]
      exact List.nodup_append.mpr ⟨h.keys, List.nodup_singleton _, by
        rintro i hi j hj rfl
        exact new (List.mem_singleton.mp hj ▸ hi)⟩
    refine ⟨Coeffs.rows p.real, keys, fun e he => ?_⟩
    rcases List.mem_append.mp he with he | he
    · -- There is an entry, so the rows were compared.
      cases hm : o.rows with
      | none =>
          rw [entries_of_rows hm] at he
          cases he
      | some m =>
          rw [rows m hm, h.rows_eq hm]
          exact h.parts e he
    · rw [List.mem_singleton.mp he]
      exact ⟨rfl, shapes.symm⟩
  · rw [refused] at hs
    cases hs

end Setting

/-- Entries that keep to the invariant are set, one after the other. -/
theorem ofEntries_of_uniform {n : Nat} {es : Table (Part α)}
    (h : (⟨es⟩ : Objective α).Uniform n) : ofEntries es = .ok ⟨es⟩ := by
  have run (es : Table (Part α)) : ∀ acc : Table (Part α),
      (⟨acc ++ es⟩ : Objective α).Uniform n →
      es.foldlM (fun o e => o.set e.1 e.2) (⟨acc⟩ : Objective α)
        = (.ok ⟨acc ++ es⟩ : Except ObjectiveFault (Objective α)) := by
    induction es with
    | nil =>
        intro acc _
        rw [List.append_nil]
        rfl
    | cons e es ih =>
        intro acc h
        have grown : acc ++ e :: es = acc.push e.1 e.2 ++ es := by
          rw [Table.push, List.append_assoc, List.singleton_append]
        have here : e.2.Shaped n := h.parts e (by simp)
        rw [grown] at h ⊢
        have first : (⟨acc⟩ : Objective α).Uniform n := h.of_append.of_append
        have new : e.1 ∉ (⟨acc⟩ : Objective α).keys := by
          have nodup := h.of_append.keys
          rw [keys, Table.ids_push] at nodup
          intro held
          exact (List.nodup_append.mp nodup).2.2 _ held _ (List.mem_singleton.mpr rfl) rfl
        rw [List.foldlM_cons, set_of_fits new here.imag.symm
          fun m hm => here.rows.trans (first.rows_eq hm).symm]
        exact ih _ h
  exact run es [] h

/-! ## Products -/

variable [Entry α]

section Products

variable {n : Nat} {o o' : Objective α} {M : Coeffs α}

theorem Uniform.scaled (h : o.Uniform n) (M : Coeffs α) :
    (⟨o.entries.map fun e => (e.1, premultiplyEntry M e.1 e.2)⟩ : Objective α).Uniform
      (Coeffs.rows M) where
  keys := by
    have same : Table.ids (o.entries.map fun e => (e.1, premultiplyEntry M e.1 e.2))
        = o.keys := by
      simp only [Table.ids, List.map_map]
      rfl
    rw [Objective.keys, same]
    exact h.keys
  parts e he := by
    obtain ⟨d, hd, rfl⟩ := List.mem_map.mp he
    have cols : Coeffs.cols d.2.imag = Coeffs.cols d.2.real :=
      (Prod.mk.inj (h.parts d hd).imag).2
    obtain ⟨real, imag⟩ := Part.shape_premultiplyEntry M d.1 cols
    exact ⟨(Prod.mk.inj real).1, imag.trans real.symm⟩

/-- A product is refused if there is an entry and the matrix is not as wide as the objective
is high. -/
theorem premultiply_error_iff (h : o.Uniform n) {f : ObjectiveFault} :
    o.premultiply M = .error f ↔
      ∃ m, o.rows = some m ∧ Coeffs.cols M ≠ m ∧ f = .premultiply m (Coeffs.shape M) := by
  unfold premultiply
  cases hm : o.rows with
  | none => exact ⟨fun h => (by cases h), fun ⟨_, h, _⟩ => (by cases h)⟩
  | some m =>
      by_cases wide : Coeffs.cols M = m
      · have done := ofEntries_of_uniform (h.scaled M)
        simp only [if_pos wide, done]
        refine ⟨fun h => (by cases h), fun ⟨k, hk, narrow, _⟩ => ?_⟩
        cases hk
        exact absurd wide narrow
      · simp only [if_neg wide]
        constructor
        · intro h
          cases h
          exact ⟨m, rfl, wide, rfl⟩
        · rintro ⟨k, hk, -, rfl⟩
          cases hk
          rfl

theorem Uniform.premultiply (h : o.Uniform n) (ho : o.premultiply M = .ok o') :
    o'.Uniform (Coeffs.rows M) := by
  have scaled := h.scaled M
  rw [← (premultiply_ok ho).1] at scaled
  exact scaled

end Products

/-! ## Sums -/

/-- Why a sum is refused. -/
inductive SumRefusal (a b : Objective α) : ObjectiveFault → Prop
  | rows {m n : Nat} : a.rows = some m → b.rows = some n → m ≠ n → SumRefusal a b (.sumRows m n)
  | columns {key : Id} {p q : Part α} : (∀ m n, a.rows = some m → b.rows = some n → m = n) →
      a.get? key = some p → b.get? key = some q → Coeffs.cols p.real ≠ Coeffs.cols q.real →
      SumRefusal a b .sumColumns

theorem sumEntry_error {b : Objective α} {key : Id} {p : Part α} {f : ObjectiveFault}
    (h : sumEntry b key p = .error f) :
    ∃ q, b.get? key = some q ∧ p.add? q = none ∧ f = .sumColumns := by
  unfold sumEntry at h
  split at h
  · cases h
  · rename_i q hq
    split at h
    · cases h
    · rename_i none
      cases h
      exact ⟨q, hq, none, rfl⟩

section Sums

variable {n : Nat} {a b o : Objective α}

/-- What is merged and what is left keep to the invariant together. -/
theorem uniform_merged (ha : a.Uniform n) (hb : b.Uniform n) {shared : Table (Part α)}
    (h : List.Forall₂ (fun e s => sumEntry b e.1 e.2 = .ok s) a.entries shared) :
    (⟨shared ++ b.entries.filter fun e => !a.entries.has e.1⟩ : Objective α).Uniform n where
  keys := by
    rw [keys, Table.ids_append, ids_shared h]
    refine List.nodup_append.mpr ⟨ha.keys, hb.keys.sublist (List.filter_sublist.map _), ?_⟩
    -- What is added from the right is new on the left.
    rintro i hi j hj rfl
    obtain ⟨e, he, rfl⟩ := List.mem_map.mp hj
    have new : a.entries.has e.1 = false := by simpa using (List.mem_filter.mp he).2
    exact Table.has_eq_false_iff.mp new hi
  parts e he := by
    rcases List.mem_append.mp he with he | he
    · obtain ⟨d, hd, hde⟩ := Outcome.exists_of_forall₂ h he
      obtain ⟨-, ⟨-, same⟩ | ⟨q, -, sum⟩⟩ := sumEntry_ok hde
      · exact same ▸ ha.parts d hd
      · exact (ha.parts d hd).add sum
    · exact hb.parts e (List.mem_filter.mp he).1

omit [Entry α] in
/-- Objectives that could be added have a number of rows in common. -/
theorem exists_rows {m k : Nat} (ha : a.Uniform m) (hb : b.Uniform k)
    (same : ∀ m n, a.rows = some m → b.rows = some n → m = n) :
    ∃ n, a.Uniform n ∧ b.Uniform n := by
  cases hm : a.rows with
  | none => exact ⟨k, ha.of_rows hm, hb⟩
  | some m' =>
      cases hk : b.rows with
      | none => exact ⟨m, ha, hb.of_rows hk⟩
      | some k' =>
          have := same m' k' hm hk
          rw [ha.rows_eq hm, hb.rows_eq hk] at this
          exact ⟨m, ha, this ▸ hb⟩

theorem rows_same_of_add (h : a.add b = .ok o) :
    ∀ m n, a.rows = some m → b.rows = some n → m = n := by
  intro m n hm hn
  by_contra differ
  rw [add, hm, hn] at h
  simp only [if_neg differ] at h
  cases h

theorem Uniform.add {m k : Nat} (ha : a.Uniform m) (hb : b.Uniform k) (h : a.add b = .ok o) :
    ∃ n, o.Uniform n := by
  obtain ⟨n, ha, hb⟩ := exists_rows ha hb (rows_same_of_add h)
  obtain ⟨-, shared, hshared, entries⟩ := add_ok h
  have merged := uniform_merged ha hb hshared
  rw [← entries] at merged
  exact ⟨n, merged⟩

/-- Merging is refused for columns under a shared key, and nothing else. -/
theorem columns_of_mapM_error (ha : a.Uniform n) (hb : b.Uniform n) {f : ObjectiveFault}
    (h : (a.entries.mapM fun e => sumEntry b e.1 e.2) = .error f) :
    f = .sumColumns ∧ ∃ key p q, a.get? key = some p ∧ b.get? key = some q ∧
      Coeffs.cols p.real ≠ Coeffs.cols q.real := by
  obtain ⟨e, he, refused⟩ := Outcome.error_of_mapM h
  obtain ⟨q, hq, none, rfl⟩ := sumEntry_error refused
  have shaped := hb.parts (e.1, q) (Table.mem_of_get? hq)
  exact ⟨rfl, e.1, e.2, q, Table.get?_of_mem ha.keys he, hq,
    ((ha.parts e he).add?_eq_none_iff shaped).mp none⟩

theorem refusal_of_add_error {m k : Nat} (ha : a.Uniform m) (hb : b.Uniform k)
    {f : ObjectiveFault} (h : a.add b = .error f) : SumRefusal a b f := by
  cases hm : a.rows with
  | none =>
      rw [add, hm] at h
      simp only [entries_of_rows hm, List.nil_append, ofEntries_of_uniform hb] at h
      cases h
  | some m' =>
      cases hk : b.rows with
      | none =>
          rw [add, hm, hk] at h
          simp only [entries_of_rows hk, List.append_nil, ofEntries_of_uniform ha] at h
          cases h
      | some k' =>
          rw [add, hm, hk] at h
          by_cases same : m' = k'
          · have rows : ∀ m n, a.rows = some m → b.rows = some n → m = n := by
              intro i j hi hj
              rw [hm] at hi
              rw [hk] at hj
              cases hi
              cases hj
              exact same
            obtain ⟨n, ha, hb⟩ := exists_rows ha hb rows
            simp only [if_pos same] at h
            rcases Outcome.except_bind_error.mp h with merging | ⟨shared, merged, later⟩
            · obtain ⟨rfl, key, p, q, hp, hq, cols⟩ := columns_of_mapM_error ha hb merging
              exact .columns rows hp hq cols
            · -- What was merged is set without a check failing.
              rw [ofEntries_of_uniform (uniform_merged ha hb (Outcome.forall₂_of_mapM merged))]
                at later
              cases later
          · simp only [if_neg same] at h
            cases h
            exact .rows hm hk same

/-- A sum of objectives is refused for the reasons given, and no other. -/
theorem add_error_iff {m k : Nat} (ha : a.Uniform m) (hb : b.Uniform k) {f : ObjectiveFault} :
    a.add b = .error f ↔ SumRefusal a b f := by
  refine ⟨refusal_of_add_error ha hb, fun why => ?_⟩
  cases h : a.add b with
  | ok o =>
      have same := rows_same_of_add h
      cases why with
      | rows hm hk differ => exact absurd (same _ _ hm hk) differ
      | columns _ hp hq differ =>
          obtain ⟨n, ha, hb⟩ := exists_rows ha hb same
          have none := ((ha.parts _ (Table.mem_of_get? hp)).add?_eq_none_iff
            (hb.parts _ (Table.mem_of_get? hq))).mpr differ
          obtain ⟨new, -⟩ | ⟨p', hp', ⟨alone, -⟩ | ⟨q', s, hq', sum, -⟩⟩ := get?_add h _
          · rw [hp] at new
            cases new
          · rw [hq] at alone
            cases alone
          · cases hp.symm.trans hp'
            cases hq.symm.trans hq'
            rw [none] at sum
            cases sum
  | error g =>
      have found := refusal_of_add_error ha hb h
      cases why with
      | rows hm hk differ =>
          cases found with
          | rows hm' hk' _ =>
              rw [hm] at hm'
              rw [hk] at hk'
              cases hm'
              cases hk'
              rfl
          | columns same => exact absurd (same _ _ hm hk) differ
      | columns same =>
          cases found with
          | rows hm hk differ => exact absurd (same _ _ hm hk) differ
          | columns => rfl

end Sums

end Objective

end ConicModel
