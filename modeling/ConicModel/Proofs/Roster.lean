/-
# The nodes of a session

Expressions and constraints are told apart by identity alone: caches and registries
look nowhere else.  That is right because of what construction keeps up, and a roster
says what that is.  `Roster N next` is about all nodes made so far, with the identity
that is next:

  * identities are at least one, so none is the key of the constant, and below `next`;
  * two nodes with one identity are one node;
  * what a node is made of is there as well, and the sides of a constraint have one
    shape.

Stand-ins are left out: they are no variables, constants or products.  Each way to make
a node extends a roster (`Roster.gain_const`, `Roster.gain_kron`,
`Roster.gain_constraint`), whatever of the operands was made on the way.
-/
import ConicModel.Proofs.Construction
import Mathlib.Data.Set.Insert
import ConicModel.Objective

namespace ConicModel

variable {α : Type}

/-- What a node is made of directly. -/
def Node.children : Node α → List (Node α)
  | expr (.kron _ a b) => [expr a, expr b]
  | expr _ => []
  | constraint c => [expr c.lhs, expr c.rhs]

/-- The nodes `N` are all that were made with identities below `next`. -/
structure Roster (N : Set (Node α)) (next : Id) : Prop where
  pos : ∀ n ∈ N, 1 ≤ n.id
  lt : ∀ n ∈ N, n.id < next
  unique : ∀ m ∈ N, ∀ n ∈ N, m.id = n.id → m = n
  closed : ∀ n ∈ N, ∀ m ∈ n.children, m ∈ N
  shapes : ∀ c, .constraint c ∈ N → c.lhs.shape = c.rhs.shape
  no_stub : ∀ s, .expr (.stub s) ∉ N

/-- An operand that is an expression is one of the nodes. -/
def Offers (N : Set (Node α)) (d : Input α) : Prop :=
  ∀ s e, d = .thing s (.expr e) → .expr e ∈ N

theorem Offers.mono {N M : Set (Node α)} {d : Input α} (h : Offers N d) (sub : N ⊆ M) :
    Offers M d :=
  fun s e hde => sub (h s e hde)

/-- The nodes after one more was made, together with what it is made of. -/
def gain (N : Set (Node α)) (n : Node α) : Set (Node α) :=
  {m | m = n ∨ m ∈ n.children ∨ m ∈ N}

theorem subset_gain (N : Set (Node α)) (n : Node α) : N ⊆ gain N n :=
  fun _ h => .inr (.inr h)

theorem mem_gain (N : Set (Node α)) (n : Node α) : n ∈ gain N n := .inl rfl

theorem gain_leaf (N : Set (Node α)) {n : Node α} (leaf : n.children = []) :
    gain N n = insert n N := by
  ext m
  simp [gain, leaf]

theorem gain_two (N : Set (Node α)) {n x y : Node α} (two : n.children = [x, y]) :
    gain N n = insert n (insert y (insert x N)) := by
  ext m
  simp only [gain, two, List.mem_cons, List.not_mem_nil, or_false, Set.mem_ofPred_eq,
    Set.mem_insert_iff]
  tauto

namespace Roster

variable {N : Set (Node α)} {next next' : Id}

theorem empty (next : Id) : Roster (∅ : Set (Node α)) next where
  pos _ h := h.elim
  lt _ h := h.elim
  unique _ h := h.elim
  closed _ h := h.elim
  shapes _ h := h.elim
  no_stub _ h := h

theorem mono (h : Roster N next) (le : next ≤ next') : Roster N next' :=
  { h with lt := fun n hn => (h.lt n hn).trans_le le }

/-- No identity is the key of the constant. -/
theorem ne_constantKey (h : Roster N next) {n : Node α} (hn : n ∈ N) : n.id ≠ constantKey :=
  fun h0 => absurd (h0 ▸ h.pos n hn) (by decide)

theorem kron (h : Roster N next) {i : Id} {a b : Expr α} (hn : .expr (.kron i a b) ∈ N) :
    .expr a ∈ N ∧ .expr b ∈ N :=
  ⟨h.closed _ hn _ List.mem_cons_self,
    h.closed _ hn _ (List.mem_cons_of_mem _ List.mem_cons_self)⟩

theorem sides (h : Roster N next) {c : Constraint α} (hn : .constraint c ∈ N) :
    .expr c.lhs ∈ N ∧ .expr c.rhs ∈ N :=
  ⟨h.closed _ hn _ List.mem_cons_self,
    h.closed _ hn _ (List.mem_cons_of_mem _ List.mem_cons_self)⟩

/-- Two expressions with one identity are one. -/
theorem expr_unique (h : Roster N next) {d e : Expr α} (hd : .expr d ∈ N) (he : .expr e ∈ N)
    (hid : d.id = e.id) : d = e :=
  Node.expr.inj (h.unique _ hd _ he hid)

theorem constraint_unique (h : Roster N next) {c d : Constraint α} (hc : .constraint c ∈ N)
    (hd : .constraint d ∈ N) (hid : c.id = d.id) : c = d :=
  Node.constraint.inj (h.unique _ hc _ hd hid)

/-- One more node, made of nodes that are there, with an identity that is not. -/
theorem insert (h : Roster N next) {n : Node α} (pos : 1 ≤ n.id) (lt : n.id < next)
    (new : ∀ m ∈ N, m.id ≠ n.id) (closed : ∀ m ∈ n.children, m ∈ N)
    (shapes : ∀ c, n = .constraint c → c.lhs.shape = c.rhs.shape)
    (no_stub : ∀ s, n ≠ .expr (.stub s)) : Roster (insert n N) next where
  pos m hm := by
    rcases hm with rfl | hm
    · exact pos
    · exact h.pos m hm
  lt m hm := by
    rcases hm with rfl | hm
    · exact lt
    · exact h.lt m hm
  unique m hm k hk hid := by
    rcases hm with rfl | hm
    · rcases hk with rfl | hk
      · rfl
      · exact absurd hid.symm (new k hk)
    · rcases hk with rfl | hk
      · exact absurd hid (new m hm)
      · exact h.unique m hm k hk hid
  closed m hm k hk := by
    rcases hm with rfl | hm
    · exact .inr (closed k hk)
    · exact .inr (h.closed m hm k hk)
  shapes c hc := by
    rcases hc with hc | hc
    · exact shapes c hc.symm
    · exact h.shapes c hc
  no_stub s hs := by
    rcases hs with hs | hs
    · exact no_stub s hs.symm
    · exact h.no_stub s hs

/-- An operand joins: it was there before, or it is a constant just made. -/
theorem side {d : Input α} {e : Expr α} (h : Roster N next) (hd : Offers N d) (pos : 1 ≤ next)
    (le : next ≤ next') (hs : Side next next' d e) :
    Roster (Insert.insert (.expr e) N) next' := by
  cases hs with
  | given s hde =>
      rw [Set.insert_eq_of_mem (hd s e hde)]
      exact h.mono le
  | new k hk lo_le lt_hi =>
      subst hk
      refine (h.mono le).insert (pos.trans lo_le) lt_hi ?_ (fun m hm => by cases hm)
        (fun c hc => by cases hc) (fun s hs => by cases hs)
      intro m hm hid
      have lt := h.lt m hm
      rw [hid] at lt
      exact absurd lo_le (not_le.mpr lt)

/-! ## Ways to make a node -/

/-- What making a node does to a roster.  No variable is made in this way. -/
structure Gained (N : Set (Node α)) (next : Id) (n : Node α) (next' : Id) : Prop where
  roster : Roster (gain N n) next'
  lt : next < next'
  vars : ∀ x, .expr (.var x) ∈ gain N n → .expr (.var x) ∈ N

theorem var_of_side {d : Input α} {x : Variable} {lo hi : Id} (hd : Offers N d)
    (hs : Side lo hi d (.var x)) : .expr (.var x) ∈ N := by
  cases hs with
  | given s hde => exact hd s _ hde
  | new k hk lo_le lt_hi => cases hk

variable [Scalar α] {vars : Vars α} {l l' : Ledger}

theorem gain_const (h : Roster N l.nextId) (pos : 1 ≤ l.nextId) {d : Input α}
    {sign : Option Sign} {c : Constant α} (hc : makeConstant vars d sign l = .ok c l') :
    Gained N l.nextId (.expr (.const c)) l'.nextId := by
  obtain ⟨rfl, a, A, -, -, rfl⟩ := makeConstant_ok hc
  refine ⟨?_, Int.lt_succ _, ?_⟩
  · rw [gain_leaf N rfl]
    refine (h.mono (Int.lt_succ _).le).insert pos (Int.lt_succ _) (fun m hm => (h.lt m hm).ne)
      ?_ ?_ ?_
    · exact fun m hm => by cases hm
    · exact fun c hc => by cases hc
    · exact fun s hs => by cases hs
  · rintro x (hx | hx | hx)
    · cases hx
    · cases hx
    · exact hx

theorem gain_kron (h : Roster N l.nextId) (pos : 1 ≤ l.nextId) {a b : Input α} {e : Expr α}
    (ha : Offers N a) (hb : Offers N b) (he : makeKron vars a b l = .ok e l') :
    Gained N l.nextId (.expr e) l'.nextId := by
  obtain ⟨mid, id, x, y, rfl, sx, sy, lo_mid, mid_id, id_hi⟩ := makeKron_ok he
  have left : Roster (Insert.insert (.expr x) N) mid := h.side ha pos lo_mid sx
  have right : Roster (Insert.insert (.expr y) (Insert.insert (.expr x) N)) id :=
    left.side (hb.mono (Set.subset_insert _ _)) (pos.trans lo_mid) mid_id sy
  refine ⟨?_, (lo_mid.trans mid_id).trans_lt id_hi, ?_⟩
  · rw [gain_two N (x := .expr x) (y := .expr y) rfl]
    refine (right.mono id_hi.le).insert ((pos.trans lo_mid).trans mid_id) id_hi
      (fun m hm => (right.lt m hm).ne) ?_ ?_ ?_
    · intro m hm
      rcases List.mem_cons.mp hm with rfl | hm
      · exact .inr (.inl rfl)
      · rcases List.mem_singleton.mp hm with rfl
        exact .inl rfl
    · exact fun c hc => by cases hc
    · exact fun s hs => by cases hs
  · rintro z (hz | hz | hz)
    · cases hz
    · rcases List.mem_cons.mp hz with hz | hz
      · cases hz
        exact var_of_side ha sx
      · cases List.mem_singleton.mp hz
        exact var_of_side hb sy
    · exact hz

omit [Scalar α] in
/-- A constraint joins after its sides, though its identity is older than those of sides
made on the way. -/
theorem insert_constraint {c : Constraint α} {M : Set (Node α)} {lo : Id}
    (h : Roster M next) (pos : 1 ≤ lo) (hid : c.id = lo) (lt : lo < next)
    (new : ∀ m ∈ M, m.id ≠ lo) (hl : .expr c.lhs ∈ M) (hr : .expr c.rhs ∈ M)
    (shapes : c.lhs.shape = c.rhs.shape) : Roster (Insert.insert (.constraint c) M) next := by
  have id_eq : (Node.constraint c).id = lo := hid
  refine h.insert (id_eq ▸ pos) (id_eq ▸ lt) (fun m hm => id_eq ▸ new m hm) ?_ ?_ ?_
  · intro m hm
    rcases List.mem_cons.mp hm with rfl | hm
    · exact hl
    · rcases List.mem_singleton.mp hm with rfl
      exact hr
  · intro d hd
    cases hd
    exact shapes
  · exact fun s hs => by cases hs

omit [Scalar α] in
/-- Nothing made after an identity was taken has it. -/
theorem side_ne (h : Roster N next) {lo hi : Id} {d : Input α} {e : Expr α} (hd : Offers N d)
    (hlo : next < lo) (hs : Side lo hi d e) : e.id ≠ next := by
  cases hs with
  | given s hde => exact (h.lt _ (hd s e hde)).ne
  | new k hk lo_le lt_hi =>
      subst hk
      exact (hlo.trans_le lo_le).ne'

theorem gain_constraint (h : Roster N l.nextId) (pos : 1 ≤ l.nextId) {relation : Relation}
    {dl dr : Input α} {c : Constraint α} (hl : Offers N dl) (hr : Offers N dr)
    (hc : makeConstraint vars relation dl dr l = .ok c l') :
    Gained N l.nextId (.constraint c) l'.nextId := by
  obtain ⟨hid, -, shapes, mid, lo_mid, mid_hi, sides⟩ := makeConstraint_ok hc
  have lt : l.nextId < l'.nextId := lo_mid.trans_le mid_hi
  have base : Roster N (l.nextId + 1) := h.mono (Int.le_of_lt (Int.lt_succ _))
  have pos' : 1 ≤ l.nextId + 1 := pos.trans (Int.le_of_lt (Int.lt_succ _))
  have new {x y : Expr α} (hx : x.id ≠ l.nextId) (hy : y.id ≠ l.nextId) :
      ∀ m ∈ (Insert.insert (.expr y) (Insert.insert (.expr x) N) : Set (Node α)),
        m.id ≠ l.nextId := by
    rintro m (rfl | rfl | hm)
    · exact hy
    · exact hx
    · exact (h.lt m hm).ne
  have vars {lo hi lo' hi' : Id} (sl : Side lo hi dl c.lhs) (sr : Side lo' hi' dr c.rhs) :
      ∀ x, Node.expr (.var x) ∈ gain N (.constraint c) → Node.expr (.var x) ∈ N := by
    rintro z (hz | hz | hz)
    · cases hz
    · rcases List.mem_cons.mp hz with hz | hz
      · exact var_of_side hl (Node.expr.inj hz ▸ sl)
      · exact var_of_side hr (Node.expr.inj (List.mem_singleton.mp hz) ▸ sr)
    · exact hz
  rcases sides with ⟨sl, sr⟩ | ⟨sl, sr⟩
  · refine ⟨?_, lt, vars sl sr⟩
    have left := base.side hl pos' lo_mid sl
    have right := left.side (hr.mono (Set.subset_insert _ _)) (pos'.trans lo_mid) mid_hi sr
    rw [gain_two N (x := .expr c.lhs) (y := .expr c.rhs) rfl]
    exact right.insert_constraint pos hid lt
      (new (h.side_ne hl (Int.lt_succ _) sl) (h.side_ne hr lo_mid sr)) (.inr (.inl rfl))
      (.inl rfl) shapes
  · refine ⟨?_, lt, vars sl sr⟩
    have right := base.side hr pos' lo_mid sr
    have left := right.side (hl.mono (Set.subset_insert _ _)) (pos'.trans lo_mid) mid_hi sl
    rw [gain_two N (x := .expr c.lhs) (y := .expr c.rhs) rfl, Set.insert_comm (Node.expr c.rhs)]
    exact left.insert_constraint pos hid lt
      (new (h.side_ne hr (Int.lt_succ _) sr) (h.side_ne hl lo_mid sl)) (.inl rfl)
      (.inr (.inl rfl)) shapes

omit [Scalar α] in
theorem offers_expr {e : Expr α} (he : .expr e ∈ N) : Offers N (.thing 0 (.expr e)) := by
  intro s d hd
  cases hd
  exact he

omit [Scalar α] in
theorem offers_int (N : Set (Node α)) (n : Int) : Offers N (.ofInt n) := by
  intro s d hd
  cases hd

/-- The constraint of a sign, which compilation makes on its way. -/
theorem gain_sign (h : Roster N l.nextId) (pos : 1 ≤ l.nextId) {x : Expr α}
    (hx : .expr x ∈ N) {c : Constraint α} (hc : signConstraint vars x l = .ok c l') :
    Gained N l.nextId (.constraint c) l'.nextId := by
  obtain ⟨relation, -, made⟩ := signConstraint_made hc
  exact h.gain_constraint pos (offers_expr hx) (offers_int N 0) made

end Roster

end ConicModel
