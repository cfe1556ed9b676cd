/-
# Objectives made by hand

An objective that is put together by hand may have integers in it, and what is made of those
are integers again, computed beside the numbers that stand for them.  None of the checks
looks at elements.  They are about keys and shapes, and in those an objective of integers
does not differ from that of its numbers (`Objective.SameShape`).

So everything that was made by the operations keeps to the invariant of objectives
(`MixedObjective.Built.uniform`), as long as no truth values were put in: those have no sign
that could be changed.
-/
import ConicModel.Proofs.Objective.Uniform
import ConicModel.Objective.Mixed
import ConicModel.Datum.Sum

namespace ConicModel

variable {α : Type}

/-! ## Shapes -/

/-- The shapes of both parts of an entry. -/
def Part.outline (p : Part α) : (Nat × Nat) × (Nat × Nat) :=
  (Coeffs.shape p.real, Coeffs.shape p.imag)

theorem Part.Shaped.of_outline {n : Nat} {p q : Part α} (h : p.Shaped n)
    (same : p.outline = q.outline) : q.Shaped n := by
  obtain ⟨real, imag⟩ := Prod.mk.inj same
  refine ⟨?_, imag ▸ real ▸ h.imag⟩
  exact ((Prod.mk.inj real).1).symm.trans h.rows

namespace Objective

/-- The same keys, and parts of the same shapes under them. -/
def SameShape (o o' : Objective α) : Prop :=
  Table.image Part.outline o.entries = Table.image Part.outline o'.entries

namespace SameShape

variable {a b o o' : Objective α}

theorem symm (h : o.SameShape o') : o'.SameShape o := Eq.symm h

theorem keys (h : o.SameShape o') : o.keys = o'.keys := by
  have ids := congrArg Table.ids h
  rwa [Table.ids_image, Table.ids_image] at ids

theorem get? (h : o.SameShape o') {key : Id} {p : Part α} (hp : o.get? key = some p) :
    ∃ q, o'.get? key = some q ∧ p.outline = q.outline := by
  have found := congrArg (Table.get? · key) h
  simp only [Table.get?_image] at found
  rw [show o.entries.get? key = some p from hp] at found
  obtain ⟨q, hq, same⟩ := Option.map_eq_some_iff.mp found.symm
  exact ⟨q, hq, same.symm⟩

theorem rows (h : o.SameShape o') : o.rows = o'.rows := by
  have read (o : Objective α) :
      o.rows = (Table.image Part.outline o.entries).head?.map fun e => e.2.1.1 := by
    rw [Table.image, List.head?_map, Option.map_map]
    rfl
  rw [read o, read o', show Table.image _ _ = _ from h]

theorem uniform {n : Nat} (h : o.SameShape o') (ho : o.Uniform n) : o'.Uniform n where
  keys := h.keys ▸ ho.keys
  parts e he := by
    have image : (e.1, e.2.outline) ∈ Table.image Part.outline o'.entries :=
      List.mem_map.mpr ⟨e, he, rfl⟩
    rw [show Table.image _ o'.entries = _ from h.symm] at image
    obtain ⟨d, hd, same⟩ := List.mem_map.mp image
    exact (ho.parts d hd).of_outline (Prod.mk.inj same).2

/-- Whether a sum is refused, and why, depends on shapes alone. -/
theorem sumRefusal (h : b.SameShape o) {f : ObjectiveFault} (why : SumRefusal a b f) :
    SumRefusal a o f := by
  cases why with
  | rows hm hk differ => exact .rows hm (h.rows ▸ hk) differ
  | columns same hp hq differ =>
      obtain ⟨q, hq', outline⟩ := h.get? hq
      have cols := (Prod.mk.inj (Prod.mk.inj outline).1).2
      exact .columns (h.rows ▸ same) hp hq' (cols ▸ differ)

end SameShape

end Objective

/-! ## Elements -/

/-- Truth values only go together with each other. -/
theorem Kind.sup_eq_truth {k l : Kind} (h : k.sup l = .truth) : k = .truth := by
  cases k <;> cases l <;> first | rfl | cases h

namespace MixedCoeffs

/-- Numbers.  Truth values are none: they have no sign. -/
def Signed : MixedCoeffs α → Prop
  | words w => w.kind ≠ .truth
  | numbers _ => True

instance (A : MixedCoeffs α) : Decidable A.Signed :=
  match A with
  | words w => inferInstanceAs (Decidable (w.kind ≠ .truth))
  | numbers _ => .isTrue trivial

variable {A B : MixedCoeffs α} {C : Coeffs α} {op : Sparse Int → Sparse Int → Sparse Int}

/-- Integers only come of integers, in the kind above both. -/
theorem wordsOf_combine? {w : Words} (h : wordsOf (Words.combine? op) A B = some w) :
    ∃ u v, A = .words u ∧ B = .words v ∧
      w = .ofUnbounded (u.kind.sup v.kind) (op u.cells v.cells) := by
  obtain ⟨u, hu, h⟩ := Option.bind_eq_some_iff.mp h
  obtain ⟨v, hv, h⟩ := Option.bind_eq_some_iff.mp h
  cases A with
  | numbers A => cases hu
  | words u' =>
      cases B with
      | numbers B => cases hv
      | words v' =>
          cases hu
          cases hv
          have made : (if (u.kind.sup v.kind).isIntegral
              then some (Words.ofUnbounded (u.kind.sup v.kind) (op u.cells v.cells))
              else none) = some w := h
          split at made
          · cases made
            exact ⟨u, v, rfl, rfl, rfl⟩
          · cases made

/-- Where one operand has numbers, the result has. -/
theorem signed_ofResult (hA : A.Signed) :
    (ofResult (wordsOf (Words.combine? op) A B) C).Signed := by
  cases h : wordsOf (Words.combine? op) A B with
  | none => trivial
  | some w =>
      obtain ⟨u, v, rfl, rfl, rfl⟩ := wordsOf_combine? h
      exact fun truth => hA (Kind.sup_eq_truth truth)

variable [Scalar α]

/-- A result has the shape that its numbers have, if the operation on integers has it. -/
theorem shape_ofResult
    (shape : ∀ u v, A = .words u → B = .words v → (op u.cells v.cells).shape = Coeffs.shape C) :
    Coeffs.shape (ofResult (wordsOf (Words.combine? op) A B) C).toCoeffs = Coeffs.shape C := by
  cases h : wordsOf (Words.combine? op) A B with
  | none => rfl
  | some w =>
      obtain ⟨u, v, hu, hv, rfl⟩ := wordsOf_combine? h
      have cut (k : Kind) (A : Sparse Int) : (Words.ofUnbounded k A).cells.cols = A.cols := by
        simp [Sparse.cols, Words.ofUnbounded]
      rw [← shape u v hu hv]
      exact Prod.ext rfl ((Sparse.cols_map _ _).trans (cut _ _))

theorem neg?_of_signed (hA : A.Signed) :
    ∃ B, A.neg? = some B ∧ B.Signed ∧ Coeffs.shape A.toCoeffs = Coeffs.shape B.toCoeffs := by
  cases A with
  | words w =>
      refine ⟨.words ⟨w.kind, w.cells.map fun n => w.kind.wrap (-n)⟩, ?_, hA, Prod.ext rfl ?_⟩
      · rw [neg?, Words.neg?, if_neg hA]
        rfl
      · have cols (A : Sparse Int) (f : Int → α) : (A.map f).cols = A.cols := Sparse.cols_map f A
        exact (cols _ _).trans ((Sparse.cols_map _ _).symm.trans (cols _ _).symm)
  | numbers A =>
      exact ⟨_, rfl, trivial, Prod.ext (Coeffs.rows_neg A).symm (Coeffs.cols_neg A).symm⟩

end MixedCoeffs

/-! ## Parts -/

namespace MixedPart

/-- Both parts have numbers in them. -/
def Signed (p : MixedPart α) : Prop := p.real.Signed ∧ p.imag.Signed

instance (p : MixedPart α) : Decidable p.Signed :=
  inferInstanceAs (Decidable (p.real.Signed ∧ p.imag.Signed))

variable [Scalar α] {p q : MixedPart α}

/-- Integers are added in the shape in which numbers are. -/
theorem outline_ofSum {s : Part α} (sum : p.toPart.add? q.toPart = some s) :
    (ofSum p q s).toPart.outline = s.outline := by
  have each {A B : MixedCoeffs α} {C : Coeffs α}
      (added : Coeffs.add? A.toCoeffs B.toCoeffs = some C) :
      Coeffs.shape (MixedCoeffs.ofResult (MixedCoeffs.wordsOf Words.add? A B) C).toCoeffs
        = Coeffs.shape C := by
    refine MixedCoeffs.shape_ofResult ?_
    rintro v w rfl rfl
    obtain ⟨-, -, rows, cols⟩ := Coeffs.shape_add added
    exact (Prod.ext rows (cols.trans ((Sparse.cols_map _ _).trans (Sparse.cols_add _ _).symm))).symm
  obtain ⟨real, imag⟩ := Part.add?_eq_some sum
  exact Prod.ext (each real) (each imag)

/-- Integers are multiplied in the shape in which numbers are. -/
theorem outline_ofProduct (M : MixedCoeffs α) (key : Id)
    (cols : Coeffs.cols p.toPart.imag = Coeffs.cols p.toPart.real) :
    (ofProduct M p (Objective.premultiplyEntry M.toCoeffs key p.toPart)).toPart.outline
      = (Objective.premultiplyEntry M.toCoeffs key p.toPart).outline := by
  have each {A : MixedCoeffs α} {C : Coeffs α}
      (shape : Coeffs.shape C = (Coeffs.rows M.toCoeffs, Coeffs.cols A.toCoeffs)) :
      Coeffs.shape (MixedCoeffs.ofResult (MixedCoeffs.wordsOf Words.mul? M A) C).toCoeffs
        = Coeffs.shape C := by
    refine MixedCoeffs.shape_ofResult ?_
    rintro v w rfl rfl
    rw [shape]
    exact Prod.ext rfl ((Sparse.cols_mul _ _).trans (Sparse.cols_map _ _).symm)
  obtain ⟨real, imag⟩ := Part.shape_premultiplyEntry M.toCoeffs key cols
  refine Prod.ext (each real) (each (imag.trans ?_))
  rw [← cols]
  rfl

theorem neg?_of_signed (hp : p.Signed) :
    ∃ q, p.neg? = some q ∧ q.Signed ∧ p.toPart.outline = q.toPart.outline := by
  obtain ⟨re, hre, signed_re, shape_re⟩ := MixedCoeffs.neg?_of_signed hp.1
  obtain ⟨im, him, signed_im, shape_im⟩ := MixedCoeffs.neg?_of_signed hp.2
  refine ⟨⟨re, im⟩, ?_, ⟨signed_re, signed_im⟩, Prod.ext shape_re shape_im⟩
  rw [neg?, hre, him]
  rfl

end MixedPart

/-! ## Objectives -/

namespace Objective

/-- A single entry keeps to the invariant if its parts have one shape. -/
theorem uniform_singleton {key : Id} {p : Part α}
    (same : Coeffs.shape p.imag = Coeffs.shape p.real) :
    (⟨[(key, p)]⟩ : Objective α).Uniform (Coeffs.rows p.real) where
  keys := List.nodup_singleton key
  parts e he := by
    rw [List.mem_singleton.mp he]
    exact ⟨rfl, same⟩

theorem uniform_ofColumn [Entry α] (A : Numeric Dense α) :
    ∃ n, (ofColumn A).Uniform n := by
  cases A with
  | real A =>
      exact ⟨_, uniform_singleton
        (Prod.ext rfl ((Coeffs.cols_zeros _ _).trans (Sparse.cols_ofDense A).symm))⟩
  | complex A =>
      exact ⟨_, uniform_singleton (Prod.ext rfl
        ((Sparse.cols_ofDense (A.map Cplx.im)).trans (Sparse.cols_ofDense (A.map Cplx.re)).symm))⟩

end Objective

namespace MixedObjective

/-- There are no truth values in it. -/
def Signed (o : MixedObjective α) : Prop := ∀ e ∈ o.entries, e.2.Signed

variable [Scalar α] {a b c o : MixedObjective α}

@[simp] theorem keys_toObjective (o : MixedObjective α) : o.toObjective.keys = o.keys :=
  Table.ids_image MixedPart.toPart o.entries

theorem get?_toObjective (o : MixedObjective α) (key : Id) :
    o.toObjective.get? key = (o.get? key).map MixedPart.toPart :=
  Table.get?_image MixedPart.toPart o.entries key

omit [Scalar α] in
theorem get?_ofObjective (o : Objective α) (key : Id) :
    (ofObjective o).get? key = (o.get? key).map .ofPart :=
  Table.get?_image MixedPart.ofPart o.entries key

@[simp] theorem toObjective_ofObjective (o : Objective α) : (ofObjective o).toObjective = o := by
  have entries : (ofObjective o).toObjective.entries = o.entries := by
    show (o.entries.map fun e => (e.1, MixedPart.ofPart e.2)).map (fun e => (e.1, e.2.toPart))
      = o.entries
    rw [List.map_map]
    exact List.map_id o.entries
  cases o with
  | mk es => exact congrArg Objective.mk entries

/-! ### Setting -/

theorem toObjective_push (o : MixedObjective α) (key : Id) (p : MixedPart α) :
    (⟨o.entries.push key p⟩ : MixedObjective α).toObjective
      = ⟨o.toObjective.entries.push key p.toPart⟩ :=
  congrArg Objective.mk (Table.image_push MixedPart.toPart o.entries key p)

theorem set_ok {key : Id} {p : MixedPart α} (h : a.set key p = .ok b) :
    b.entries = a.entries.push key p ∧
      a.toObjective.set key p.toPart = .ok b.toObjective := by
  obtain ⟨o, ho, h⟩ := Outcome.except_bind_ok.mp h
  cases h
  refine ⟨rfl, ho.trans (congrArg Except.ok ?_)⟩
  rw [toObjective_push]
  exact congrArg Objective.mk (Objective.set_ok ho).2

theorem set_error_iff {key : Id} {p : MixedPart α} {f : ObjectiveFault} :
    a.set key p = .error f ↔ Objective.SetRefusal a.toObjective key p.toPart f := by
  rw [← Objective.set_error_iff]
  refine Outcome.except_bind_error.trans ⟨fun h => ?_, .inl⟩
  exact h.resolve_right fun ⟨_, _, h⟩ => by cases h

/-- Set one after the other, the entries of an objective that keeps to the invariant make up
that objective. -/
theorem foldlM_set {n : Nat} (h : o.toObjective.Uniform n) :
    o.entries.foldlM (fun o e => o.set e.1 e.2) (empty : MixedObjective α) = .ok o := by
  have run (es : Table (MixedPart α)) : ∀ acc : MixedObjective α,
      es.foldlM (fun o e => o.set e.1 e.2) acc
        = ((Table.image MixedPart.toPart es).foldlM
            (fun (o : Objective α) e => o.set e.1 e.2) acc.toObjective).map
              fun _ => ⟨acc.entries ++ es⟩ := by
    induction es with
    | nil =>
        intro acc
        rw [List.append_nil]
        rfl
    | cons e es ih =>
        intro acc
        rw [List.foldlM_cons, show Table.image MixedPart.toPart (e :: es)
          = (e.1, e.2.toPart) :: Table.image MixedPart.toPart es from rfl, List.foldlM_cons, set]
        cases first : acc.toObjective.set e.1 e.2.toPart with
        | error f => rfl
        | ok next =>
            have pushed : (⟨acc.entries.push e.1 e.2⟩ : MixedObjective α).toObjective = next := by
              rw [toObjective_push]
              exact (congrArg Objective.mk (Objective.set_ok first).2).symm
            have rest := ih ⟨acc.entries.push e.1 e.2⟩
            rw [pushed, Table.push, List.append_assoc, List.singleton_append] at rest
            exact rest
  rw [run]
  exact congrArg (Except.map fun _ => o) (Objective.ofEntries_of_uniform h)

/-! ### Sums -/

theorem add_error_iff {m k : Nat} (ha : a.toObjective.Uniform m) (hb : b.toObjective.Uniform k)
    {f : ObjectiveFault} :
    a.add b = .error f ↔ Objective.SumRefusal a.toObjective b.toObjective f := by
  rw [← Objective.add_error_iff ha hb]
  refine Outcome.except_bind_error.trans ⟨fun h => ?_, .inl⟩
  exact h.resolve_right fun ⟨_, _, h⟩ => by cases h

/-- An entry of a sum is what one operand has or the sum of both, and has their shape. -/
theorem sumEntry_of_add {s : Objective α} (h : a.toObjective.add b.toObjective = .ok s)
    {e : Id × Part α} (he : e ∈ s.entries) :
    (a.sumEntry b e.1 e.2).toPart.outline = e.2.outline ∧
      (a.Signed → b.Signed → (a.sumEntry b e.1 e.2).Signed) := by
  have held : s.get? e.1 = some e.2 := Table.get?_of_mem (Objective.add_ok h).1 he
  have look := Objective.get?_add h e.1
  rw [get?_toObjective, get?_toObjective] at look
  unfold sumEntry
  cases hp : a.get? e.1 with
  | none =>
      cases hq : b.get? e.1 with
      | none => simp_all
      | some q =>
          rw [hp, hq] at look
          rcases look with ⟨-, found⟩ | ⟨_, impossible, -⟩
          · have part : q.toPart = e.2 := Option.some.inj (found.symm.trans held)
            exact ⟨congrArg Part.outline part, fun _ signed => signed _ (Table.mem_of_get? hq)⟩
          · cases impossible
  | some p =>
      cases hq : b.get? e.1 with
      | none =>
          rw [hp, hq] at look
          rcases look with ⟨impossible, -⟩ | ⟨_, hp', ⟨-, found⟩ | ⟨_, _, impossible, -⟩⟩
          · cases impossible
          · cases hp'
            have part : p.toPart = e.2 := Option.some.inj (found.symm.trans held)
            exact ⟨congrArg Part.outline part, fun signed _ => signed _ (Table.mem_of_get? hp)⟩
          · cases impossible
      | some q =>
          rw [hp, hq] at look
          rcases look with ⟨impossible, -⟩ | ⟨_, hp', ⟨impossible, -⟩ | ⟨_, s, hq', sum, found⟩⟩
          · cases impossible
          · cases impossible
          · cases hp'
            cases hq'
            cases held.symm.trans found
            refine ⟨MixedPart.outline_ofSum sum, fun signed _ => ?_⟩
            have := signed _ (Table.mem_of_get? hp)
            exact ⟨MixedCoeffs.signed_ofResult this.1, MixedCoeffs.signed_ofResult this.2⟩

theorem add_ok (h : a.add b = .ok c) :
    ∃ s, a.toObjective.add b.toObjective = .ok s ∧ s.SameShape c.toObjective ∧
      (a.Signed → b.Signed → c.Signed) := by
  obtain ⟨s, hs, h⟩ := Outcome.except_bind_ok.mp h
  cases h
  refine ⟨s, hs, ?_, fun ha hb e he => ?_⟩
  · rw [Objective.SameShape, toObjective, Table.image, Table.image, List.map_map, List.map_map]
    exact List.map_congr_left fun e he => Prod.ext rfl (sumEntry_of_add hs he).1.symm
  · obtain ⟨d, hd, rfl⟩ := List.mem_map.mp he
    exact (sumEntry_of_add hs hd).2 ha hb

/-! ### Changes of sign -/

/-- The sign of numbers can be changed. -/
theorem neg?_of_signed (h : a.Signed) :
    ∃ b, a.neg? = some b ∧ b.Signed ∧ a.toObjective.SameShape b.toObjective := by
  have run (es : Table (MixedPart α)) (h : ∀ e ∈ es, e.2.Signed) :
      ∃ ds : Table (MixedPart α), es.mapM (fun e => e.2.neg?.map fun p => (e.1, p)) = some ds ∧
        (∀ d ∈ ds, d.2.Signed) ∧
        es.map (fun e => (e.1, e.2.toPart.outline))
          = ds.map fun e => (e.1, e.2.toPart.outline) := by
    induction es with
    | nil => exact ⟨[], rfl, fun _ hd => (by cases hd), rfl⟩
    | cons e es ih =>
        obtain ⟨q, hq, signed, outline⟩ := MixedPart.neg?_of_signed (h e List.mem_cons_self)
        obtain ⟨ds, hds, all, same⟩ := ih fun d hd => h d (List.mem_cons_of_mem e hd)
        refine ⟨(e.1, q) :: ds, ?_, ?_, ?_⟩
        · rw [List.mapM_cons, hq, hds]
          rfl
        · rintro d (_ | ⟨_, hd⟩)
          · exact signed
          · exact all d hd
        · rw [List.map_cons, List.map_cons, same, outline]
  obtain ⟨ds, hds, signed, same⟩ := run a.entries h
  refine ⟨⟨ds⟩, ?_, signed, ?_⟩
  · rw [neg?, hds]
    rfl
  · rw [Objective.SameShape, toObjective, toObjective, Table.image, Table.image, List.map_map,
      List.map_map]
    exact same

/-! ### Products -/

theorem premultiply_error_iff {n : Nat} (ha : a.toObjective.Uniform n) {M : MixedCoeffs α}
    {f : ObjectiveFault} :
    a.premultiply M = .error f ↔ ∃ m, a.toObjective.rows = some m ∧
      Coeffs.cols M.toCoeffs ≠ m ∧ f = .premultiply m (Coeffs.shape M.toCoeffs) := by
  rw [← Objective.premultiply_error_iff ha]
  refine Outcome.except_bind_error.trans ⟨fun h => ?_, .inl⟩
  exact h.resolve_right fun ⟨_, _, h⟩ => by cases h

theorem premultiply_ok {n : Nat} (ha : a.toObjective.Uniform n) {M : MixedCoeffs α}
    (h : a.premultiply M = .ok c) :
    ∃ s, a.toObjective.premultiply M.toCoeffs = .ok s ∧ s.SameShape c.toObjective ∧
      (M.Signed → a.Signed → c.Signed) := by
  obtain ⟨s, hs, h⟩ := Outcome.except_bind_ok.mp h
  cases h
  -- What stands under a key of the product comes of what stands under it in the operand.
  have each : ∀ e ∈ s.entries, ∃ p, a.get? e.1 = some p ∧
      e.2 = Objective.premultiplyEntry M.toCoeffs e.1 p.toPart ∧
      Coeffs.cols p.toPart.imag = Coeffs.cols p.toPart.real := by
    intro e he
    rw [(Objective.premultiply_ok hs).1] at he
    obtain ⟨d, hd, rfl⟩ := List.mem_map.mp he
    have held : a.toObjective.get? d.1 = some d.2 := Table.get?_of_mem ha.keys hd
    rw [get?_toObjective] at held
    obtain ⟨p, hp, part⟩ := Option.map_eq_some_iff.mp held
    refine ⟨p, hp, by rw [part], ?_⟩
    rw [part]
    exact (Prod.mk.inj (ha.parts d hd).imag).2
  refine ⟨s, hs, ?_, fun hM signed e he => ?_⟩
  · rw [Objective.SameShape, toObjective, Table.image, Table.image, List.map_map, List.map_map]
    refine List.map_congr_left fun e he => Prod.ext rfl ?_
    obtain ⟨p, hp, part, cols⟩ := each e he
    show e.2.outline = (MixedPart.toPart ((a.get? e.1).elim _ _)).outline
    rw [hp, part]
    exact (MixedPart.outline_ofProduct M e.1 cols).symm
  · obtain ⟨d, hd, rfl⟩ := List.mem_map.mp he
    obtain ⟨p, hp, -, -⟩ := each d hd
    show MixedPart.Signed ((a.get? d.1).elim _ _)
    rw [hp]
    exact ⟨MixedCoeffs.signed_ofResult hM, MixedCoeffs.signed_ofResult hM⟩

/-! ### Whatever the operations make -/

/-- Objectives made by the operations, one after the other, and without truth values.  A sum
or a difference is that of data. -/
inductive Built : MixedObjective α → Prop
  /-- From entries that are set one after the other; none at all make the empty one. -/
  | entries {es : Table (MixedPart α)} {o : MixedObjective α} : (∀ e ∈ es, e.2.Signed) →
      es.foldlM (fun o e => o.set e.1 e.2) (empty : MixedObjective α) = .ok o → Built o
  | set {o o' : MixedObjective α} {key : Id} {p : MixedPart α} : Built o → p.Signed →
      o.set key p = .ok o' → Built o'
  /-- The objective of a constant that consists of numbers. -/
  | constant (A : Numeric Dense α) : Built (ofObjective (.ofColumn A))
  /-- The objective of a constant that consists of integers. -/
  | integers {k : Kind} (A : Dense Int) : k ≠ .truth →
      Built ⟨[(constantKey, ⟨.words ⟨k, .ofDense A⟩, .words (.zeros k A.rows A.cols)⟩)]⟩
  | sum (minus : Bool) {a b c : MixedObjective α} {s t u : Nat} : Built a → Built b →
      Datum.add minus (.thing s (.objective a)) (.thing t (.objective b))
        = .ok (.thing u (.objective c) : Input α) → Built c
  | neg {a b : MixedObjective α} : Built a → a.neg? = some b → Built b
  | premultiply {a b : MixedObjective α} {M : MixedCoeffs α} : Built a → M.Signed →
      a.premultiply M = .ok b → Built b

/-- The sum of two objectives as data. -/
theorem datum_add (minus : Bool) (s t : Nat) (a b : MixedObjective α) :
    Datum.add minus (.thing s (.objective a)) (.thing t (.objective b))
      = match if minus then b.neg? else some b with
        | none => (.error (.mishap .absent) : Except (Fault α) (Input α))
        | some b =>
          match a.add b with
          | .ok o => .ok (.thing 0 (.objective o))
          | .error e => .error (.objective e) := by
  have plain : Datum.add minus (.thing s (.objective a)) (.thing t (.objective b))
      = Datum.addPlain minus (.thing s (.objective a)) (.thing t (.objective b) : Input α) := by
    simp [Datum.add, Datum.addWithin, Datum.isExpr, Datum.isArray]
  exact plain

/-- The right operand of a sum or of a difference, after any change of sign. -/
theorem right_of_signed (minus : Bool) (hb : b.Signed) :
    ∃ b', (if minus then b.neg? else some b) = some b' ∧ b'.Signed ∧
      b.toObjective.SameShape b'.toObjective := by
  cases minus with
  | false => exact ⟨b, rfl, hb, rfl⟩
  | true => exact neg?_of_signed hb

omit [Scalar α] in
theorem signed_ofObjective (o : Objective α) : (ofObjective o).Signed := by
  intro e he
  obtain ⟨d, -, rfl⟩ := List.mem_map.mp he
  exact ⟨trivial, trivial⟩

/-- What is set keeps to the invariant. -/
theorem uniform_of_set {key : Id} {p : MixedPart α} {n : Nat} (ha : a.toObjective.Uniform n)
    (h : a.set key p = .ok b) : ∃ m, b.toObjective.Uniform m :=
  ha.set (set_ok h).2

theorem signed_of_set {key : Id} {p : MixedPart α} (ha : a.Signed) (hp : p.Signed)
    (h : a.set key p = .ok b) : b.Signed := by
  intro e he
  rw [(set_ok h).1] at he
  rcases List.mem_append.mp he with he | he
  · exact ha e he
  · rw [List.mem_singleton.mp he]
    exact hp

theorem uniform_of_entries {es : Table (MixedPart α)} (hes : ∀ e ∈ es, e.2.Signed)
    (h : es.foldlM (fun o e => o.set e.1 e.2) (empty : MixedObjective α) = .ok o) :
    o.Signed ∧ ∃ n, o.toObjective.Uniform n := by
  have run (es : Table (MixedPart α)) : ∀ acc : MixedObjective α,
      acc.Signed → (∃ n, acc.toObjective.Uniform n) → (∀ e ∈ es, e.2.Signed) →
      es.foldlM (fun o e => o.set e.1 e.2) acc = .ok o →
      o.Signed ∧ ∃ n, o.toObjective.Uniform n := by
    induction es with
    | nil =>
        intro acc signed uniform _ h
        cases h
        exact ⟨signed, uniform⟩
    | cons e es ih =>
        intro acc signed ⟨n, uniform⟩ hes h
        rw [List.foldlM_cons] at h
        obtain ⟨next, first, rest⟩ := Outcome.except_bind_ok.mp h
        exact ih next (signed_of_set signed (hes e List.mem_cons_self) first)
          (uniform_of_set uniform first) (fun d hd => hes d (List.mem_cons_of_mem e hd)) rest
  exact run es empty (fun _ he => by cases he) ⟨0, Objective.uniform_empty 0⟩ hes h

namespace Built

/-- Whatever the operations make keeps to the invariant and has no truth values in it. -/
theorem keeps (h : o.Built) : o.Signed ∧ ∃ n, o.toObjective.Uniform n := by
  induction h with
  | entries signed made => exact uniform_of_entries signed made
  | set _ signed made ih =>
      obtain ⟨signed', n, uniform⟩ := ih
      exact ⟨signed_of_set signed' signed made, uniform_of_set uniform made⟩
  | constant A =>
      rw [toObjective_ofObjective]
      exact ⟨signed_ofObjective _, Objective.uniform_ofColumn A⟩
  | integers A number =>
      refine ⟨fun e he => ?_, _, Objective.uniform_singleton ?_⟩
      · rw [List.mem_singleton.mp he]
        exact ⟨number, number⟩
      · have cols (B : Sparse Int) : (B.map (Scalar.ofInt : Int → α)).cols = B.cols :=
          Sparse.cols_map _ B
        refine Prod.ext rfl ((cols _).trans (Eq.trans ?_ (cols _).symm))
        exact (Sparse.cols_zeros _ _).trans (Sparse.cols_ofDense A).symm
  | @sum minus a b c s t u _ _ made iha ihb =>
      obtain ⟨signed_a, m, uniform_a⟩ := iha
      obtain ⟨signed_b, k, uniform_b⟩ := ihb
      obtain ⟨b', right, signed', same⟩ := right_of_signed minus signed_b
      rw [datum_add, right] at made
      cases sum : a.add b' with
      | error f =>
          simp only [sum] at made
          cases made
      | ok d =>
          simp only [sum] at made
          cases made
          obtain ⟨s, hs, shape, signed⟩ := add_ok sum
          obtain ⟨n, uniform⟩ := uniform_a.add (same.uniform uniform_b) hs
          exact ⟨signed signed_a signed', n, shape.uniform uniform⟩
  | neg _ made ih =>
      obtain ⟨signed, n, uniform⟩ := ih
      obtain ⟨b, made', signed', same⟩ := neg?_of_signed signed
      cases made.symm.trans made'
      exact ⟨signed', n, same.uniform uniform⟩
  | premultiply _ number made ih =>
      obtain ⟨signed, n, uniform⟩ := ih
      obtain ⟨s, hs, same, signed'⟩ := premultiply_ok uniform made
      exact ⟨signed' number signed, _, same.uniform (uniform.premultiply hs)⟩

end Built

end MixedObjective

end ConicModel
