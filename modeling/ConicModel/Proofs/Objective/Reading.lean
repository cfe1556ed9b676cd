/-
# What an objective says

An objective is read at real and imaginary parts of the variables: `o.row re im k` is
row `k` of

    Σ_v (R_v · re v + I_v · im v) + (re c + i · im c),

where `re v` and `im v` list the parts of the entries of `v` column by column.  The
operations on objectives are the operations on these affine maps, over exact scalars:

  * `Objective.row_neg`, `Objective.row_add`, `Objective.row_sub`: row by row;
  * `Objective.row_premultiply`: a matrix times the map, also where a complex matrix
    joins the two parts of the constant and splits them again;
  * `Objective.row_ofVariable`, `Objective.row_ofConstant`: the leaves.

Sums go wrong if a key is there twice and products if an entry has rows of its own,
so the lemmas are about objectives that are `Formed`, and every operation is shown to
keep that.
-/
import ConicModel.Proofs.Matrix.Coeffs
import ConicModel.Proofs.Outcome
import ConicModel.Proofs.Table
import Mathlib.Algebra.BigOperators.Group.List.Basic
import ConicModel.Compile

namespace ConicModel

open Finset

variable {α : Type} [Entry α]

/-! ## One entry -/

namespace Part

/-- A sum of entries is a sum of both parts. -/
theorem add?_eq_some {p q s : Part α} (h : p.add? q = some s) :
    Coeffs.add? p.real q.real = some s.real ∧ Coeffs.add? p.imag q.imag = some s.imag := by
  obtain ⟨real, hreal, rest⟩ := Option.bind_eq_some_iff.mp h
  obtain ⟨imag, himag, hs⟩ := Option.bind_eq_some_iff.mp rest
  cases hs
  exact ⟨hreal, himag⟩

/-- A product has the rows of the matrix and the columns of the entry, also where the two
parts of the constant are joined and split again. -/
theorem shape_premultiplyEntry (M : Coeffs α) (key : Id) {p : Part α}
    (cols : Coeffs.cols p.imag = Coeffs.cols p.real) :
    Coeffs.shape (Objective.premultiplyEntry M key p).real
        = (Coeffs.rows M, Coeffs.cols p.real) ∧
      Coeffs.shape (Objective.premultiplyEntry M key p).imag
        = (Coeffs.rows M, Coeffs.cols p.real) := by
  have plain : Coeffs.shape (p.premultiply M).real = (Coeffs.rows M, Coeffs.cols p.real) ∧
      Coeffs.shape (p.premultiply M).imag = (Coeffs.rows M, Coeffs.cols p.real) :=
    ⟨Prod.ext (Coeffs.rows_mul ..) (Coeffs.cols_mul ..),
      Prod.ext (Coeffs.rows_mul ..) ((Coeffs.cols_mul ..).trans cols)⟩
  cases M with
  | real M => exact plain
  | complex M =>
      rw [Objective.premultiplyEntry]
      split
      · have joined : (M.mul (Coeffs.join p.real p.imag)).cols = Coeffs.cols p.real := by
          rw [Sparse.cols_mul, Coeffs.join, Sparse.cols_add, Coeffs.cols_toComplex]
        exact ⟨Prod.ext rfl ((Sparse.cols_map _ _).trans joined),
          Prod.ext rfl ((Sparse.cols_map _ _).trans joined)⟩
      · exact plain

/-- An entry of `n` rows whose two parts have one shape; the constant is a column. -/
structure Formed (n : Nat) (key : Id) (p : Part α) : Prop where
  real_rows : Coeffs.rows p.real = n
  imag_rows : Coeffs.rows p.imag = n
  cols : Coeffs.cols p.imag = Coeffs.cols p.real
  column : key = constantKey → Coeffs.cols p.real = 1

namespace Formed

variable {n : Nat} {key : Id} {p q : Part α}

omit [Entry α] in
theorem constant_pos (h : Formed n constantKey p) :
    0 < Coeffs.cols p.real ∧ 0 < Coeffs.cols p.imag := by
  rw [h.cols, h.column rfl]
  exact ⟨Nat.one_pos, Nat.one_pos⟩

theorem neg (h : Formed n key p) : Formed n key p.neg where
  real_rows := (Coeffs.rows_neg _).trans h.real_rows
  imag_rows := (Coeffs.rows_neg _).trans h.imag_rows
  cols := by
    rw [Part.neg, Coeffs.cols_neg, Coeffs.cols_neg]
    exact h.cols
  column hkey := (Coeffs.cols_neg _).trans (h.column hkey)

theorem add {s : Part α} (h : Formed n key p) (hs : p.add? q = some s) : Formed n key s := by
  obtain ⟨hreal, himag⟩ := add?_eq_some hs
  obtain ⟨-, -, hrr, hrc⟩ := Coeffs.shape_add hreal
  obtain ⟨-, -, hir, hic⟩ := Coeffs.shape_add himag
  exact ⟨hrr.trans h.real_rows, hir.trans h.imag_rows, by rw [hic, hrc, h.cols],
    fun hkey => hrc.trans (h.column hkey)⟩

/-- A product has the rows of the matrix. -/
theorem premultiply (h : Formed n key p) (M : Coeffs α) :
    Formed (Coeffs.rows M) key (Objective.premultiplyEntry M key p) := by
  obtain ⟨real, imag⟩ := shape_premultiplyEntry M key h.cols
  obtain ⟨real_rows, real_cols⟩ := Prod.mk.inj real
  obtain ⟨imag_rows, imag_cols⟩ := Prod.mk.inj imag
  exact ⟨real_rows, imag_rows, imag_cols.trans real_cols.symm,
    fun hkey => real_cols.trans (h.column hkey)⟩

end Formed

variable [LawfulEntry α]

/-- Row `k` of what an entry says of a variable. -/
def row (p : Part α) (re im : Nat → α) (k : Nat) : Cplx α :=
  Coeffs.times p.real re k + Coeffs.times p.imag im k

/-- Row `k` of the offset that the constant entry gives. -/
def offset (p : Part α) (k : Nat) : Cplx α :=
  Coeffs.entry p.real k 0 + Cplx.I * Coeffs.entry p.imag k 0

/-- Row `k` of an entry under a key. -/
def term (re im : Id → Nat → α) (k : Nat) (key : Id) (p : Part α) : Cplx α :=
  if key = constantKey then p.offset k else p.row (re key) (im key) k

variable {re im : Id → Nat → α}

theorem term_neg (p : Part α) (key : Id) (k : Nat) :
    term re im k key p.neg = -term re im k key p := by
  unfold term
  split
  · rw [offset, offset, neg, Coeffs.entry_neg, Coeffs.entry_neg, mul_neg, neg_add]
  · rw [row, row, neg, Coeffs.times_neg, Coeffs.times_neg, neg_add]

theorem term_add {n : Nat} {key : Id} {p q s : Part α} (hp : Formed n key p)
    (hs : p.add? q = some s) (k : Nat) :
    term re im k key s = term re im k key p + term re im k key q := by
  obtain ⟨hreal, himag⟩ := add?_eq_some hs
  unfold term
  split
  · rename_i hkey
    subst hkey
    obtain ⟨hr, hi⟩ := hp.constant_pos
    rw [offset, offset, offset, Coeffs.entry_add hreal hr, Coeffs.entry_add himag hi, mul_add]
    exact add_add_add_comm ..
  · rw [row, row, row, Coeffs.times_add hreal, Coeffs.times_add himag]
    exact add_add_add_comm ..

/-- A matrix times an entry: of the constant the two parts may be joined first. -/
theorem term_premultiply {n : Nat} {key : Id} {p : Part α} (hp : Formed n key p)
    (M : Coeffs α) (hM : Coeffs.cols M = n) (k : Nat) :
    term re im k key (Objective.premultiplyEntry M key p)
      = ∑ l ∈ range n, Coeffs.entry M k l * term re im l key p := by
  subst hM
  by_cases hkey : key = constantKey
  · subst hkey
    obtain ⟨hr, hi⟩ := hp.constant_pos
    have separate : (p.premultiply M).offset k
        = ∑ l ∈ range (Coeffs.cols M), Coeffs.entry M k l * p.offset l := by
      rw [offset, Part.premultiply, Coeffs.entry_mul M _ hr, Coeffs.entry_mul M _ hi, mul_sum,
        ← sum_add_distrib]
      refine sum_congr rfl fun l _ => ?_
      rw [offset, mul_add, mul_left_comm]
    simp only [term, if_pos]
    cases M with
    | real M => exact separate
    | complex M =>
        have hj : 0 < (Coeffs.join p.real p.imag).cols := by
          rw [Coeffs.join, Sparse.cols_add, Coeffs.cols_toComplex]
          exact hr
        rw [Objective.premultiplyEntry, if_pos rfl, premultiplyJoined, offset,
          Coeffs.entry_parts, Sparse.get_mul _ _ hj]
        refine sum_congr rfl fun l _ => ?_
        rw [Coeffs.get_join _ _ hr, Coeffs.entry_complex]
        rfl
  · have plain : Objective.premultiplyEntry M key p = p.premultiply M := by
      cases M with
      | real M => rfl
      | complex M => rw [Objective.premultiplyEntry, if_neg hkey]
    simp only [plain, term, if_neg hkey, row, premultiply, Coeffs.times_mul, mul_add,
      sum_add_distrib]

end Part

/-! ## Entries set one after the other -/

namespace Objective

omit [Entry α] in
theorem set_ok {o o' : Objective α} {key : Id} {p : Part α} (h : o.set key p = .ok o') :
    key ∉ o.keys ∧ o'.entries = o.entries.push key p := by
  unfold set at h
  split at h
  · cases h
  · rename_i new
    refine ⟨fun hkey => new (Table.has_iff.mpr hkey), ?_⟩
    split at h
    · cases h
    · split at h
      · split at h
        · cases h
          rfl
        · cases h
      · cases h
        rfl

omit [Entry α] in
/-- Where setting is not refused, the entries are the given ones and no key comes twice. -/
theorem ofEntries_ok {es : Table (Part α)} {o : Objective α} (h : ofEntries es = .ok o) :
    o.entries = es ∧ o.keys.Nodup := by
  have run (es : Table (Part α)) : ∀ acc o : Objective α, acc.keys.Nodup →
      es.foldlM (fun o e => o.set e.1 e.2) acc = Except.ok o →
      o.entries = acc.entries ++ es ∧ o.keys.Nodup := by
    induction es with
    | nil =>
        intro acc o nodup h
        cases h
        exact ⟨(List.append_nil _).symm, nodup⟩
    | cons e es ih =>
        intro acc o nodup h
        rw [List.foldlM_cons] at h
        cases hset : acc.set e.1 e.2 with
        | error f =>
            rw [hset] at h
            cases h
        | ok next =>
            rw [hset] at h
            obtain ⟨new, hnext⟩ := set_ok hset
            have nodup' : next.keys.Nodup := by
              rw [keys, hnext, Table.ids_push]
              exact List.nodup_append.mpr ⟨nodup, List.nodup_singleton _, by
                rintro i hi j hj rfl
                exact new (List.mem_singleton.mp hj ▸ hi)⟩
            obtain ⟨entries, keys⟩ := ih next o nodup' h
            refine ⟨?_, keys⟩
            rw [entries, hnext, Table.push, List.append_assoc, List.singleton_append]
  exact run es empty o List.nodup_nil h

/-! ## Objectives -/

/-- An objective of `n` rows: no key comes twice and every entry has its shape. -/
structure Formed (n : Nat) (o : Objective α) : Prop where
  keys : o.keys.Nodup
  parts : ∀ e ∈ o.entries, Part.Formed n e.1 e.2

omit [Entry α] in
theorem Formed.rows_eq {n m : Nat} {o : Objective α} (h : o.Formed n) (hm : o.rows = some m) :
    m = n := by
  obtain ⟨e, he, rfl⟩ := Option.map_eq_some_iff.mp hm
  exact (h.parts e (List.mem_of_mem_head? he)).real_rows

omit [Entry α] in
theorem entries_of_rows {o : Objective α} (h : o.rows = none) : o.entries = [] :=
  List.head?_eq_none_iff.mp (Option.map_eq_none_iff.mp h)

@[simp] theorem keys_neg (o : Objective α) : o.neg.keys = o.keys := by
  simp only [keys, Table.ids, neg, List.map_map]
  rfl

theorem get?_neg (o : Objective α) (key : Id) : o.neg.get? key = (o.get? key).map Part.neg :=
  Table.get?_image Part.neg o.entries key

theorem Formed.neg {n : Nat} {o : Objective α} (h : o.Formed n) : o.neg.Formed n where
  keys := by
    rw [keys_neg]
    exact h.keys
  parts e he := by
    obtain ⟨d, hd, rfl⟩ := List.mem_map.mp he
    exact (h.parts d hd).neg

/-- What a product consists of. -/
theorem premultiply_ok {o o' : Objective α} {M : Coeffs α} (h : o.premultiply M = .ok o') :
    o'.entries = o.entries.map (fun e => (e.1, premultiplyEntry M e.1 e.2)) ∧ o'.keys.Nodup ∧
      ∀ n, o.rows = some n → Coeffs.cols M = n := by
  unfold premultiply at h
  split at h
  · rename_i n hn
    split at h
    · rename_i hcols
      obtain ⟨entries, keys⟩ := ofEntries_ok h
      refine ⟨entries, keys, fun m hm => ?_⟩
      rw [hcols]
      exact Option.some.inj (hn.symm.trans hm)
    · cases h
  · rename_i hn
    cases h
    refine ⟨?_, List.nodup_nil, fun m hm => ?_⟩
    · rw [entries_of_rows hn]
      rfl
    · rw [hn] at hm
      cases hm

theorem keys_premultiply {o o' : Objective α} {M : Coeffs α} (h : o.premultiply M = .ok o') :
    o'.keys = o.keys := by
  simp only [keys, Table.ids, (premultiply_ok h).1, List.map_map]
  rfl

theorem Formed.premultiply {n : Nat} {o o' : Objective α} {M : Coeffs α} (ho : o.Formed n)
    (h : o.premultiply M = .ok o') : o'.Formed (Coeffs.rows M) where
  keys := (premultiply_ok h).2.1
  parts e he := by
    rw [(premultiply_ok h).1] at he
    obtain ⟨d, hd, rfl⟩ := List.mem_map.mp he
    exact (ho.parts d hd).premultiply M

/-! ### Sums -/

theorem sumEntry_ok {b : Objective α} {key : Id} {p : Part α} {e : Id × Part α}
    (h : sumEntry b key p = .ok e) :
    e.1 = key ∧ ((b.get? key = none ∧ e.2 = p) ∨
      ∃ q, b.get? key = some q ∧ p.add? q = some e.2) := by
  unfold sumEntry at h
  split at h
  · rename_i hq
    cases h
    exact ⟨rfl, .inl ⟨hq, rfl⟩⟩
  · rename_i q hq
    split at h
    · rename_i s hs
      cases h
      exact ⟨rfl, .inr ⟨q, hq, hs⟩⟩
    · cases h

/-- The entries of a sum: one for each entry on the left, then those that only the right
one has.  This also covers a sum with an objective that has no entry. -/
theorem add_ok {a b o : Objective α} (h : a.add b = .ok o) :
    o.keys.Nodup ∧ ∃ shared : Table (Part α),
      List.Forall₂ (fun e s => sumEntry b e.1 e.2 = .ok s) a.entries shared ∧
      o.entries = shared ++ b.entries.filter fun e => !a.entries.has e.1 := by
  unfold add at h
  split at h
  · split at h
    · cases hshared : a.entries.mapM fun e => sumEntry b e.1 e.2 with
      | error f =>
          rw [hshared] at h
          cases h
      | ok shared =>
          rw [hshared] at h
          obtain ⟨entries, keys⟩ := ofEntries_ok h
          exact ⟨keys, shared, Outcome.forall₂_of_mapM hshared, entries⟩
    · cases h
  · rename_i none_rows
    obtain ⟨entries, keys⟩ := ofEntries_ok h
    refine ⟨keys, ?_⟩
    cases ha : a.rows with
    | none =>
        -- Nothing is on the left, so all entries on the right are new.
        refine ⟨[], by rw [entries_of_rows ha]; exact .nil, ?_⟩
        rw [entries, entries_of_rows ha]
        exact (List.filter_eq_self.mpr fun _ _ => rfl).symm
    | some m =>
        have hb : b.entries = [] := by
          refine entries_of_rows ?_
          cases hb : b.rows with
          | none => rfl
          | some n => exact absurd hb (none_rows m n ha)
        refine ⟨a.entries, ?_, by rw [entries, hb]; rfl⟩
        refine List.forall₂_same.mpr fun e _ => ?_
        have new : b.get? e.1 = none := by
          rw [get?, hb]
          rfl
        rw [sumEntry, new]

theorem ids_shared {b : Objective α} {as shared : Table (Part α)}
    (h : List.Forall₂ (fun e s => sumEntry b e.1 e.2 = .ok s) as shared) :
    shared.ids = Table.ids as := by
  induction h with
  | nil => rfl
  | cons he _ ih =>
      rw [Table.ids, List.map_cons, (sumEntry_ok he).1]
      exact congrArg _ ih

/-- The keys of a sum are those of its operands. -/
theorem mem_keys_add {a b o : Objective α} (h : a.add b = .ok o) (i : Id) :
    i ∈ o.keys ↔ i ∈ a.keys ∨ i ∈ b.keys := by
  obtain ⟨-, shared, hshared, entries⟩ := add_ok h
  have right : i ∈ Table.ids (b.entries.filter fun e => !a.entries.has e.1) ↔
      i ∈ b.keys ∧ i ∉ a.keys := by
    constructor
    · intro hi
      obtain ⟨e, he, rfl⟩ := List.mem_map.mp hi
      obtain ⟨heb, hea⟩ := List.mem_filter.mp he
      refine ⟨Table.mem_ids_of_mem heb, Table.has_eq_false_iff.mp ?_⟩
      simpa using hea
    · rintro ⟨hb, ha⟩
      obtain ⟨e, he, rfl⟩ := List.mem_map.mp hb
      refine List.mem_map.mpr ⟨e, List.mem_filter.mpr ⟨he, ?_⟩, rfl⟩
      rw [Table.has_eq_false_iff.mpr ha]
      rfl
  rw [keys, entries, Table.ids_append, ids_shared hshared, List.mem_append, right]
  by_cases ha : i ∈ a.keys
  · exact ⟨fun _ => .inl ha, fun _ => .inl ha⟩
  · exact ⟨fun h => h.imp_right And.left, fun h => h.imp_right fun hb => ⟨hb, ha⟩⟩

section Found

variable {a b o : Objective α}

/-- Under a key that the left operand does not have, nothing is merged. -/
theorem get?_shared_none {as shared : Table (Part α)}
    (h : List.Forall₂ (fun e s => sumEntry b e.1 e.2 = .ok s) as shared) {key : Id}
    (new : as.get? key = none) : shared.get? key = none := by
  rw [Table.get?_eq_none_iff, ids_shared h]
  exact Table.get?_eq_none_iff.mp new

theorem get?_shared_some {as shared : Table (Part α)}
    (h : List.Forall₂ (fun e s => sumEntry b e.1 e.2 = .ok s) as shared) {key : Id} {p : Part α}
    (held : as.get? key = some p) :
    ∃ s, sumEntry b key p = .ok (key, s) ∧ shared.get? key = some s := by
  induction h with
  | nil => cases held
  | @cons e s as shared first _ ih =>
      obtain ⟨same, -⟩ := sumEntry_ok first
      rw [Table.get?] at held
      split at held
      · rename_i here
        cases held
        have here' : s.1 = key := same.trans here
        refine ⟨s.2, ?_, by rw [Table.get?, if_pos here']⟩
        rw [← here, first, ← same]
      · rename_i elsewhere
        obtain ⟨t, ht, found⟩ := ih held
        have elsewhere' : s.1 ≠ key := fun h => elsewhere (same ▸ h)
        exact ⟨t, ht, by rw [Table.get?, if_neg elsewhere', found]⟩

/-- What a sum has under a key: what one operand has there, or the sum of both. -/
theorem get?_add (h : a.add b = .ok o) (key : Id) :
    (a.get? key = none ∧ o.get? key = b.get? key) ∨
      ∃ p, a.get? key = some p ∧ ((b.get? key = none ∧ o.get? key = some p) ∨
        ∃ q s, b.get? key = some q ∧ p.add? q = some s ∧ o.get? key = some s) := by
  obtain ⟨-, shared, merged, entries⟩ := add_ok h
  have found : o.get? key
      = (shared.get? key).or (if !a.entries.has key then b.get? key else none) := by
    rw [get?, entries, Table.get?_append, Table.get?_filter fun i => !a.entries.has i]
    rfl
  cases held : a.get? key with
  | none =>
      have new : a.entries.has key = false :=
        Table.has_eq_false_iff.mpr (Table.get?_eq_none_iff.mp held)
      refine .inl ⟨rfl, ?_⟩
      rw [found, get?_shared_none merged held, new]
      rfl
  | some p =>
      obtain ⟨s, sum, there⟩ := get?_shared_some merged held
      rw [there, Option.some_or] at found
      refine .inr ⟨p, rfl, ?_⟩
      obtain ⟨-, ⟨alone, rfl⟩ | ⟨q, other, sum⟩⟩ := sumEntry_ok sum
      · exact .inl ⟨alone, found⟩
      · exact .inr ⟨q, s, other, sum, found⟩

/-- The keys of the left operand in their order, and then those that only the right one
has. -/
theorem keys_add (h : a.add b = .ok o) :
    o.keys = a.keys ++ b.keys.filter fun i => i ∉ a.keys := by
  obtain ⟨-, shared, merged, entries⟩ := add_ok h
  have new : (b.entries.filter fun e => !a.entries.has e.1)
      = b.entries.filter ((fun i => decide (i ∉ a.keys)) ∘ fun e => e.1) := by
    refine List.filter_congr fun e _ => ?_
    rw [Bool.eq_iff_iff, Bool.not_eq_true', Table.has_eq_false_iff, Function.comp_apply,
      decide_eq_true_eq]
    rfl
  rw [keys, entries, Table.ids_append, ids_shared merged, new]
  simp only [keys, Table.ids, List.filter_map]

end Found

/-- An entry of a sum is one of the left operand, to which something may have been added,
or one of the right operand. -/
theorem mem_add {a b o : Objective α} (h : a.add b = .ok o) {e : Id × Part α}
    (he : e ∈ o.entries) :
    (∃ d ∈ a.entries, e.1 = d.1 ∧ (e.2 = d.2 ∨ ∃ q, d.2.add? q = some e.2)) ∨
      e ∈ b.entries := by
  obtain ⟨-, shared, hshared, entries⟩ := add_ok h
  rw [entries] at he
  rcases List.mem_append.mp he with he | he
  · obtain ⟨d, hd, hde⟩ := Outcome.exists_of_forall₂ hshared he
    obtain ⟨hkey, ⟨-, hpart⟩ | ⟨q, -, hsum⟩⟩ := sumEntry_ok hde
    · exact .inl ⟨d, hd, hkey, .inl hpart⟩
    · exact .inl ⟨d, hd, hkey, .inr ⟨q, hsum⟩⟩
  · exact .inr (List.mem_filter.mp he).1

theorem Formed.add {n : Nat} {a b o : Objective α} (ha : a.Formed n) (hb : b.Formed n)
    (h : a.add b = .ok o) : o.Formed n := by
  refine ⟨(add_ok h).1, fun e he => ?_⟩
  rcases mem_add h he with ⟨d, hd, hkey, hpart | ⟨q, hsum⟩⟩ | he
  · rw [hkey, hpart]
    exact ha.parts d hd
  · rw [hkey]
    exact (ha.parts d hd).add hsum
  · exact hb.parts e he

/-! ### What an objective is over -/

/-- Every entry, that of the constant apart, is one of a variable with so many columns. -/
def Over (o : Objective α) (P : Id → Nat → Prop) : Prop :=
  ∀ e ∈ o.entries, e.1 ≠ constantKey → P e.1 (Coeffs.cols e.2.real)

variable {P : Id → Nat → Prop}

omit [Entry α] in
theorem Over.mono {o : Objective α} (h : o.Over P) {Q : Id → Nat → Prop}
    (sub : ∀ i n, P i n → Q i n) : o.Over Q :=
  fun e he hkey => sub _ _ (h e he hkey)

theorem Over.neg {o : Objective α} (h : o.Over P) : o.neg.Over P := by
  intro e he hkey
  obtain ⟨d, hd, rfl⟩ := List.mem_map.mp he
  exact (Coeffs.cols_neg d.2.real).symm ▸ h d hd hkey

theorem Over.premultiply {o o' : Objective α} {M : Coeffs α} (h : o.Over P)
    (ho : o.premultiply M = .ok o') : o'.Over P := by
  intro e he hkey
  rw [(premultiply_ok ho).1] at he
  obtain ⟨d, hd, rfl⟩ := List.mem_map.mp he
  have cols : Coeffs.cols (premultiplyEntry M d.1 d.2).real = Coeffs.cols d.2.real := by
    have plain : Coeffs.cols (d.2.premultiply M).real = Coeffs.cols d.2.real :=
      Coeffs.cols_mul ..
    cases M with
    | real M => exact plain
    | complex M =>
        rw [premultiplyEntry, if_neg hkey]
        exact plain
  exact cols.symm ▸ h d hd hkey

theorem Over.add {a b o : Objective α} (ha : a.Over P) (hb : b.Over P) (h : a.add b = .ok o) :
    o.Over P := by
  intro e he hkey
  rcases mem_add h he with ⟨d, hd, same, hpart | ⟨q, hsum⟩⟩ | he
  · rw [same] at hkey ⊢
    exact hpart ▸ ha d hd hkey
  · rw [same] at hkey ⊢
    obtain ⟨-, -, -, cols⟩ := Coeffs.shape_add (Part.add?_eq_some hsum).1
    exact cols.symm ▸ ha d hd hkey
  · exact hb e he hkey

/-! ### Reading -/

variable [LawfulEntry α]

/-- Row `k` of the affine map, at the given parts of the variables. -/
def row (o : Objective α) (re im : Id → Nat → α) (k : Nat) : Cplx α :=
  (o.entries.map fun e => Part.term re im k e.1 e.2).sum

variable {re im : Id → Nat → α}

theorem row_neg (o : Objective α) (k : Nat) : o.neg.row re im k = -o.row re im k := by
  rw [row, row, neg, List.map_map, List.sum_neg, List.map_map]
  congr 1
  exact List.map_congr_left fun e _ => Part.term_neg e.2 e.1 k

/-- The rows of a product are those of the matrix times the objective. -/
theorem row_premultiply {n : Nat} {o o' : Objective α} {M : Coeffs α} (ho : o.Formed n)
    (h : o.premultiply M = .ok o') (k : Nat) :
    o'.row re im k = ∑ l ∈ range n, Coeffs.entry M k l * o.row re im l := by
  obtain ⟨entries, -, cols⟩ := premultiply_ok h
  rw [row, entries, List.map_map]
  -- Without an entry both sides are zero; otherwise the shapes were compared.
  cases hrows : o.rows with
  | none => simp [row, entries_of_rows hrows]
  | some m =>
      have hM : Coeffs.cols M = n := (cols m hrows).trans (ho.rows_eq hrows)
      have each : ∀ e ∈ o.entries,
          Part.term re im k e.1 (premultiplyEntry M e.1 e.2)
            = ∑ l ∈ range n, Coeffs.entry M k l * Part.term re im l e.1 e.2 :=
        fun e he => Part.term_premultiply (ho.parts e he) M hM k
      rw [show (o.entries.map ((fun e => Part.term re im k e.1 e.2) ∘
          fun e => (e.1, premultiplyEntry M e.1 e.2))) = _ from List.map_congr_left each]
      simp only [row]
      generalize o.entries = es
      induction es with
      | nil => simp
      | cons e es ih =>
          simp only [List.map_cons, List.sum_cons, ih, mul_add, sum_add_distrib]

/-- Entry for entry, what the right operand of a sum has under a key of the left one. -/
theorem sum_shared {n : Nat} {b : Objective α} {as shared : Table (Part α)}
    (h : List.Forall₂ (fun e s => sumEntry b e.1 e.2 = .ok s) as shared)
    (formed : ∀ e ∈ as, Part.Formed n e.1 e.2) (k : Nat) :
    (shared.map fun e => Part.term re im k e.1 e.2).sum
      = (as.map fun e => Part.term re im k e.1 e.2).sum +
        (as.map fun e => (b.get? e.1).elim 0 (Part.term re im k e.1)).sum := by
  induction h with
  | nil => simp
  | @cons e s as shared he _ ih =>
      have first : Part.term re im k s.1 s.2
          = Part.term re im k e.1 e.2 + (b.get? e.1).elim 0 (Part.term re im k e.1) := by
        obtain ⟨hkey, ⟨new, hpart⟩ | ⟨q, old, hsum⟩⟩ := sumEntry_ok he
        · rw [hkey, hpart, new, Option.elim_none, add_zero]
        · rw [hkey, old, Option.elim_some]
          exact Part.term_add (formed e List.mem_cons_self) hsum k
      rw [List.map_cons, List.map_cons, List.map_cons, List.sum_cons, List.sum_cons,
        List.sum_cons, ih fun d hd => formed d (List.mem_cons_of_mem e hd), first]
      exact add_add_add_comm ..

/-- A key counts once if the table has it. -/
theorem sum_once {M : Type} [AddCommMonoid M] {γ : Type} {as : Table γ} (i : Id) (x : M)
    (ha : as.ids.Nodup) :
    (as.map fun e => if i = e.1 then x else 0).sum = if as.has i then x else 0 := by
  induction as with
  | nil => rfl
  | cons e as ih =>
      rw [Table.ids, List.map_cons, List.nodup_cons] at ha
      rw [List.map_cons, List.sum_cons, ih ha.2]
      by_cases he : i = e.1
      · have further : Table.has as i = false := Table.has_eq_false_iff.mpr (he ▸ ha.1)
        rw [if_pos he, further, if_neg Bool.false_ne_true, add_zero,
          Table.has_cons_of_eq he.symm, if_pos rfl]
      · rw [if_neg he, zero_add, Table.has_cons_of_ne (Ne.symm he)]

/-- The entries of a table are those found under the keys of another one, and the
others. -/
theorem sum_found {β M : Type} [AddCommMonoid M] (t : Id → β → M) {γ : Type} {as : Table γ}
    {bs : Table β} (ha : as.ids.Nodup) (hb : bs.ids.Nodup) :
    (as.map fun e => (bs.get? e.1).elim 0 (t e.1)).sum +
        ((bs.filter fun e => !as.has e.1).map fun e => t e.1 e.2).sum
      = (bs.map fun e => t e.1 e.2).sum := by
  induction bs with
  | nil => simp [Table.get?]
  | cons f bs ih =>
      rw [Table.ids, List.map_cons, List.nodup_cons] at hb
      -- What is found under the first key of `bs`, and elsewhere.
      have found (e : Id × γ) : ((Table.get? (f :: bs) e.1).elim 0 (t e.1) : M)
          = (if f.1 = e.1 then t f.1 f.2 else 0) + (Table.get? bs e.1).elim 0 (t e.1) := by
        rw [Table.get?]
        split
        · rename_i hf
          rw [← hf, Table.get?_eq_none_iff.mpr hb.1, Option.elim_some, Option.elim_none,
            add_zero]
        · rw [zero_add]
      simp only [found, List.sum_map_add, sum_once f.1 (t f.1 f.2) ha, List.filter_cons,
        List.map_cons, List.sum_cons]
      rw [← ih hb.2]
      by_cases hf : as.has f.1 = true
      · simp [hf, add_assoc]
      · simp [hf, add_left_comm]

/-- The rows of a sum. -/
theorem row_add {n : Nat} {a b o : Objective α} (ha : a.Formed n) (hb : b.Formed n)
    (h : a.add b = .ok o) (k : Nat) : o.row re im k = a.row re im k + b.row re im k := by
  obtain ⟨-, shared, hshared, entries⟩ := add_ok h
  rw [row, entries, List.map_append, List.sum_append, sum_shared hshared ha.parts, add_assoc]
  congr 1
  exact sum_found (Part.term re im k) ha.keys hb.keys

theorem row_sub {n : Nat} {a b o : Objective α} (ha : a.Formed n) (hb : b.Formed n)
    (h : a.sub b = .ok o) (k : Nat) : o.row re im k = a.row re im k - b.row re im k := by
  rw [row_add ha hb.neg h, row_neg, sub_eq_add_neg]

end Objective

/-! ## The leaves -/

namespace Objective

variable {α : Type} [Scalar α]

@[simp] theorem keys_ofVariable (x : Variable) (sign : Sign) :
    (ofVariable x sign : Objective α).keys = [x.id, constantKey] := rfl

@[simp] theorem keys_ofConstant (A : Numeric Dense α) : (ofConstant A).keys = [constantKey] := by
  cases A <;> rfl

theorem formed_ofVariable {x : Variable} (hx : x.id ≠ constantKey) (sign : Sign) :
    (ofVariable x sign : Objective α).Formed (x.rows * x.cols) where
  keys := by simpa using hx
  parts e he := by
    rcases List.mem_cons.mp he with rfl | he
    · refine ⟨rfl, ?_, ?_, fun hkey => absurd hkey hx⟩
      · show Coeffs.rows (if sign = .complex then _ else _) = _
        split <;> rfl
      · show Coeffs.cols (if sign = .complex then _ else _) = Sparse.cols (Sparse.identity _)
        rw [Sparse.cols_identity]
        split
        · exact (Sparse.cols_map _ _).trans (Sparse.cols_identity _)
        · exact Coeffs.cols_zeros _ _
    · rcases List.mem_singleton.mp he with rfl
      exact ⟨rfl, rfl, rfl, fun _ => Coeffs.cols_zeros _ _⟩

theorem formed_ofConstant (A : Numeric Dense α) {r c : Nat} (hA : A.on Dense.shape = (r, c)) :
    (ofConstant A).Formed (r * c) := by
  have each : ∀ e ∈ (ofConstant A).entries, Part.Formed (r * c) e.1 e.2 := by
    intro e he
    cases A with
    | real A =>
        obtain ⟨rfl, rfl⟩ := Prod.mk.inj hA
        rcases List.mem_singleton.mp he with rfl
        exact ⟨rfl, rfl, (Coeffs.cols_zeros _ _).trans (Sparse.cols_ofDense _).symm,
          fun _ => Sparse.cols_ofDense _⟩
    | complex A =>
        obtain ⟨rfl, rfl⟩ := Prod.mk.inj hA
        rcases List.mem_singleton.mp he with rfl
        exact ⟨rfl, rfl, (Sparse.cols_ofDense _).trans (Sparse.cols_ofDense _).symm,
          fun _ => Sparse.cols_ofDense _⟩
  refine ⟨?_, each⟩
  rw [keys_ofConstant]
  exact List.nodup_singleton _

theorem over_ofVariable {P : Id → Nat → Prop} {x : Variable} (sign : Sign)
    (hx : P x.id (x.rows * x.cols)) : (ofVariable x sign : Objective α).Over P := by
  intro e he hkey
  rcases List.mem_cons.mp he with rfl | he
  · show P x.id (Sparse.cols (Sparse.identity _))
    rw [Sparse.cols_identity]
    exact hx
  · rcases List.mem_singleton.mp he with rfl
    exact (hkey rfl).elim

theorem over_ofConstant (P : Id → Nat → Prop) (A : Numeric Dense α) : (ofConstant A).Over P := by
  intro e he hkey
  have key : e.1 ∈ (ofConstant A).keys := List.mem_map_of_mem he
  rw [keys_ofConstant] at key
  exact (hkey (List.mem_singleton.mp key)).elim

variable [LawfulEntry α] {re im : Id → Nat → α}

/-- A variable reads as its real part and, if it is complex, `i` times its imaginary
part. -/
theorem row_ofVariable {x : Variable} (hx : x.id ≠ constantKey) (sign : Sign) {k : Nat}
    (hk : k < x.rows * x.cols) :
    (ofVariable x sign).row re im k
      = Cplx.ofReal (re x.id k)
        + if sign = .complex then Cplx.I * Cplx.ofReal (im x.id k) else 0 := by
  have offset : Part.offset (⟨.zeros (x.rows * x.cols) 1, .zeros (x.rows * x.cols) 1⟩ : Part α) k
      = 0 := by
    simp [Part.offset]
  simp only [row, ofVariable, List.map_cons, List.map_nil, List.sum_cons, List.sum_nil, Part.term,
    if_neg hx, if_pos, offset, add_zero, Part.row]
  rw [Coeffs.times_identity _ _ hk]
  congr 1
  split
  · exact Coeffs.times_scaled_identity Cplx.I _ _ hk
  · exact Coeffs.times_zeros _ _ _ _

/-- A constant reads as its column-major flattening, whatever the variables are. -/
theorem row_ofConstant (A : Numeric Dense α) {r c : Nat} (hA : A.on Dense.shape = (r, c))
    {k : Nat} (hk : k < r * c) :
    (ofConstant A).row re im k = A.toComplex.vec.get k 0 := by
  cases A with
  | real A =>
      obtain ⟨rfl, rfl⟩ := Prod.mk.inj hA
      have entry : (Sparse.ofDense A.vec).get k 0 = A.vec.get k 0 :=
        Sparse.get_ofDense A.vec hk Nat.one_pos
      show ([Part.offset ⟨.real (Sparse.ofDense A.vec), _⟩ k] : List (Cplx α)).sum = _
      rw [List.sum_singleton, Part.offset, Coeffs.entry_real, entry, Coeffs.entry_zeros, mul_zero,
        add_zero, Dense.get_vec A hk]
      exact ((Dense.get_vec (A.map Cplx.ofReal) hk).trans
        (Dense.get_map Cplx.ofReal_zero A _ _)).symm
  | complex A =>
      obtain ⟨rfl, rfl⟩ := Prod.mk.inj hA
      have re_entry : (Sparse.ofDense (A.vec.map Cplx.re)).get k 0 = (A.vec.get k 0).re := by
        rw [Sparse.get_ofDense _ hk Nat.one_pos]
        exact Dense.get_map (f := Cplx.re) rfl A.vec k 0
      have im_entry : (Sparse.ofDense (A.vec.map Cplx.im)).get k 0 = (A.vec.get k 0).im := by
        rw [Sparse.get_ofDense _ hk Nat.one_pos]
        exact Dense.get_map (f := Cplx.im) rfl A.vec k 0
      show ([Part.offset ⟨.real (Sparse.ofDense (A.vec.map Cplx.re)),
        .real (Sparse.ofDense (A.vec.map Cplx.im))⟩ k] : List (Cplx α)).sum = _
      rw [List.sum_singleton, Part.offset, Coeffs.entry_real, Coeffs.entry_real, re_entry,
        im_entry, Cplx.re_add_I_mul_im]
      rfl

end Objective

end ConicModel
