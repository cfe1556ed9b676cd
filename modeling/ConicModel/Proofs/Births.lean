/-
# Births

A node is told apart by its identity, so nothing may ever get an identity a second time, and
this has to be known of nodes that are dropped as soon as they are made: of the operands of a
product that is refused, of a number that is spread over a shape, of the constraint that
compilation makes of a sign.  No state keeps any of them.  So what a program makes is told
beside it: its *births* are the identities it takes, in order, each with the node that got it
or with none if making the node was refused.

`Told N lo bs hi` is what has to hold of births `bs` where the nodes `N` were there: they have
the identities from `lo` on and below `hi`, one each, and every node that was born has the
identity of its birth and is made of nodes that are there.  A program *accounts for* births if
they are told so of every run of it (`Stage.Accounts`).  Like the programs themselves, accounts
are put together along the text, and this is the same on every stage: when something is made,
while something is compiled, and in a session.
-/
import ConicModel.Proofs.Advance
import ConicModel.Proofs.Coherence

namespace ConicModel

variable {α ε σ β γ : Type}

/-- An identity that was taken, and the node that got it unless making the node was refused. -/
structure Birth (α : Type) where
  id : Id
  node : Option (Node α)

/-- Nothing that was made was refused. -/
def AllBorn (bs : List (Birth α)) : Prop := ∀ b ∈ bs, b.node.isSome = true

theorem AllBorn.nil : AllBorn ([] : List (Birth α)) := fun b hb => by cases hb

theorem AllBorn.append {bs cs : List (Birth α)} (h : AllBorn bs) (h' : AllBorn cs) :
    AllBorn (bs ++ cs) :=
  fun b hb => (List.mem_append.mp hb).elim (h b) (h' b)

theorem AllBorn.cons {bs : List (Birth α)} (h : AllBorn bs) (i : Id) (n : Node α) :
    AllBorn (⟨i, some n⟩ :: bs) :=
  fun b hb => (List.mem_cons.mp hb).elim (fun first => first ▸ rfl) (h b)

/-- The nodes `N` and those that were born. -/
def born (N : Set (Node α)) (bs : List (Birth α)) : Set (Node α) :=
  {n | n ∈ N ∨ ∃ b ∈ bs, b.node = some n}

theorem subset_born (N : Set (Node α)) (bs : List (Birth α)) : N ⊆ born N bs := fun _ => .inl

@[simp]
theorem born_nil (N : Set (Node α)) : born N [] = N := by
  ext n
  simp [born]

theorem born_append (N : Set (Node α)) (bs cs : List (Birth α)) :
    born N (bs ++ cs) = born (born N bs) cs := by
  ext n
  simp only [born, List.mem_append, Set.mem_ofPred_eq, or_and_right, exists_or, or_assoc]

theorem born_cons (N : Set (Node α)) (i : Id) (n : Node α) (bs : List (Birth α)) :
    born N (⟨i, some n⟩ :: bs) = born (insert n N) bs := by
  ext m
  simp only [born, List.mem_cons, Set.mem_ofPred_eq, exists_eq_or_imp, Option.some_inj,
    Set.mem_insert_iff]
  tauto

theorem born_cons_none (N : Set (Node α)) (i : Id) (bs : List (Birth α)) :
    born N (⟨i, none⟩ :: bs) = born N bs := by
  ext m
  simp [born]

/-! ## Identities in order -/

/-- There is one birth for each identity from `lo` on and below `hi`, in order. -/
def Consecutive : Id → List (Birth α) → Id → Prop
  | lo, [], hi => lo = hi
  | lo, b :: bs, hi => b.id = lo ∧ Consecutive (lo + 1) bs hi

namespace Consecutive

variable {lo mid hi : Id} {bs cs : List (Birth α)}

theorem append (h : Consecutive lo bs mid) (h' : Consecutive mid cs hi) :
    Consecutive lo (bs ++ cs) hi := by
  induction bs generalizing lo with
  | nil =>
      cases h
      exact h'
  | cons b bs ih => exact ⟨h.1, ih h.2⟩

theorem le (h : Consecutive lo bs hi) : lo ≤ hi := by
  induction bs generalizing lo with
  | nil => exact h.le
  | cons b bs ih => exact (Int.lt_succ lo).le.trans (ih h.2)

theorem bounds (h : Consecutive lo bs hi) {b : Birth α} (hb : b ∈ bs) :
    lo ≤ b.id ∧ b.id < hi := by
  induction bs generalizing lo with
  | nil => cases hb
  | cons c bs ih =>
      have later : lo < lo + 1 := Int.lt_succ lo
      rcases List.mem_cons.mp hb with rfl | hb
      · exact ⟨h.1.ge, h.1.trans_lt (later.trans_le h.2.le)⟩
      · obtain ⟨from_lo, below⟩ := ih h.2 hb
        exact ⟨later.le.trans from_lo, below⟩

theorem pairwise (h : Consecutive lo bs hi) : bs.Pairwise fun b c => b.id < c.id := by
  induction bs generalizing lo with
  | nil => exact .nil
  | cons b bs ih =>
      refine .cons (fun c hc => ?_) (ih h.2)
      rw [h.1]
      exact (Int.lt_succ lo).trans_le (h.2.bounds hc).1

theorem unique (h : Consecutive lo bs hi) {b c : Birth α} (hb : b ∈ bs) (hc : c ∈ bs)
    (same : b.id = c.id) : b = c := by
  induction bs generalizing lo with
  | nil => cases hb
  | cons d bs ih =>
      have later {e : Birth α} (he : e ∈ bs) : d.id ≠ e.id :=
        (List.rel_of_pairwise_cons h.pairwise he).ne
      rcases List.mem_cons.mp hb with first | hb
      · rcases List.mem_cons.mp hc with first' | hc
        · exact first.trans first'.symm
        · exact (later hc (first ▸ same)).elim
      · rcases List.mem_cons.mp hc with first' | hc
        · exact (later hb (first' ▸ same.symm)).elim
        · exact ih h.2 hb hc

/-- No identity is left out. -/
theorem exists_birth (h : Consecutive lo bs hi) {i : Id} (from_lo : lo ≤ i) (below : i < hi) :
    ∃ b ∈ bs, b.id = i := by
  induction bs generalizing lo with
  | nil => exact absurd (h ▸ below) (not_lt.mpr from_lo)
  | cons b bs ih =>
      rcases from_lo.eq_or_lt with rfl | from_lo
      · exact ⟨b, List.mem_cons_self, h.1⟩
      · obtain ⟨c, hc, same⟩ := ih h.2 from_lo
        exact ⟨c, List.mem_cons_of_mem b hc, same⟩

end Consecutive

/-! ## What is told of births -/

/-- A node that was born with the identity `i`, made of nodes in `M`.  No variable and no
stand-in is born in the way that is meant here, and a product is born after its operands. -/
structure Newborn (M : Set (Node α)) (i : Id) (n : Node α) : Prop where
  id : n.id = i
  closed : ∀ m ∈ n.children, m ∈ M
  shapes : ∀ c, n = .constraint c → c.lhs.shape = c.rhs.shape
  no_stub : ∀ s, n ≠ .expr (.stub s)
  no_var : ∀ x, n ≠ .expr (.var x)
  later : ∀ j a b, n = .expr (.kron j a b) → a.id < j ∧ b.id < j

theorem Newborn.mono {M M' : Set (Node α)} {i : Id} {n : Node α} (h : Newborn M i n)
    (sub : M ⊆ M') : Newborn M' i n :=
  { h with closed := fun m hm => sub (h.closed m hm) }

namespace Newborn

variable {M : Set (Node α)} {i : Id}

theorem const {k : Constant α} (hid : k.id = i) : Newborn M i (.expr (.const k)) where
  id := hid
  closed m hm := by cases hm
  shapes c hc := by cases hc
  no_stub s hs := by cases hs
  no_var x hx := by cases hx
  later j a b hk := by cases hk

theorem kron {a b : Expr α} (ha : .expr a ∈ M) (hb : .expr b ∈ M) (la : a.id < i)
    (lb : b.id < i) : Newborn M i (.expr (.kron i a b)) where
  id := rfl
  closed m hm := by
    rcases List.mem_cons.mp hm with rfl | hm
    · exact ha
    · rw [List.mem_singleton.mp hm]
      exact hb
  shapes c hc := by cases hc
  no_stub s hs := by cases hs
  no_var x hx := by cases hx
  later j a b hk := by
    cases hk
    exact ⟨la, lb⟩

theorem constraint {c : Constraint α} (hid : c.id = i) (hl : .expr c.lhs ∈ M)
    (hr : .expr c.rhs ∈ M) (shapes : c.lhs.shape = c.rhs.shape) :
    Newborn M i (.constraint c) where
  id := hid
  closed m hm := by
    rcases List.mem_cons.mp hm with rfl | hm
    · exact hl
    · rw [List.mem_singleton.mp hm]
      exact hr
  shapes d hd := by
    cases hd
    exact shapes
  no_stub s hs := by cases hs
  no_var x hx := by cases hx
  later j a b hk := by cases hk

end Newborn

/-- The births took the identities from `lo` on and below `hi` where the nodes `N` were there. -/
structure Told (N : Set (Node α)) (lo : Id) (bs : List (Birth α)) (hi : Id) : Prop where
  consecutive : Consecutive lo bs hi
  newborn : ∀ b ∈ bs, ∀ n, b.node = some n → Newborn (born N bs) b.id n

namespace Told

variable {N : Set (Node α)} {lo mid hi : Id} {bs cs : List (Birth α)}

theorem nil (N : Set (Node α)) (lo : Id) : Told N lo [] lo :=
  ⟨rfl, fun b hb => by cases hb⟩

theorem append (h : Told N lo bs mid) (h' : Told (born N bs) mid cs hi) :
    Told N lo (bs ++ cs) hi where
  consecutive := h.consecutive.append h'.consecutive
  newborn b hb n hn := by
    rw [born_append]
    rcases List.mem_append.mp hb with hb | hb
    · exact (h.newborn b hb n hn).mono (subset_born _ _)
    · exact h'.newborn b hb n hn

/-- What took its identity first can be the last to be known. -/
theorem cons {o : Option (Node α)} (h : Told N (lo + 1) bs hi)
    (first : ∀ n, o = some n → Newborn (born N bs) lo n) : Told N lo (⟨lo, o⟩ :: bs) hi where
  consecutive := ⟨rfl, h.consecutive⟩
  newborn b hb n hn := by
    have grown : born N bs ⊆ born N (⟨lo, o⟩ :: bs) := fun m hm =>
      hm.imp_right fun ⟨c, hc, hm⟩ => ⟨c, List.mem_cons_of_mem _ hc, hm⟩
    rcases List.mem_cons.mp hb with rfl | hb
    · exact (first n hn).mono grown
    · exact (h.newborn b hb n hn).mono grown

/-- What was born is not among the nodes that were there, and is no other node that was born. -/
theorem roster (h : Told N lo bs hi) (old : Roster N lo) (pos : 1 ≤ lo) :
    Roster (born N bs) hi where
  pos n hn := by
    rcases hn with hn | ⟨b, hb, hn⟩
    · exact old.pos n hn
    · rw [(h.newborn b hb n hn).id]
      exact pos.trans (h.consecutive.bounds hb).1
  lt n hn := by
    rcases hn with hn | ⟨b, hb, hn⟩
    · exact (old.lt n hn).trans_le h.consecutive.le
    · rw [(h.newborn b hb n hn).id]
      exact (h.consecutive.bounds hb).2
  unique := by
    have apart {m n : Node α} (hm : m ∈ N) {b : Birth α} (hb : b ∈ bs) (hn : b.node = some n) :
        m.id < n.id := by
      rw [(h.newborn b hb n hn).id]
      exact (old.lt m hm).trans_le (h.consecutive.bounds hb).1
    rintro m (hm | ⟨b, hb, hm⟩) n (hn | ⟨c, hc, hn⟩) same
    · exact old.unique m hm n hn same
    · exact ((apart hm hc hn).ne same).elim
    · exact ((apart hn hb hm).ne same.symm).elim
    · have one : b = c := h.consecutive.unique hb hc <|
        (h.newborn b hb m hm).id.symm.trans (same.trans (h.newborn c hc n hn).id)
      subst one
      exact Option.some.inj (hm.symm.trans hn)
  closed n hn m hm := by
    rcases hn with hn | ⟨b, hb, hn⟩
    · exact .inl (old.closed n hn m hm)
    · exact (h.newborn b hb n hn).closed m hm
  shapes c hc := by
    rcases hc with hc | ⟨b, hb, hc⟩
    · exact old.shapes c hc
    · exact (h.newborn b hb _ hc).shapes c rfl
  no_stub s hs := by
    rcases hs with hs | ⟨b, hb, hs⟩
    · exact old.no_stub s hs
    · exact (h.newborn b hb _ hs).no_stub s rfl

/-- No variable was born and none has changed. -/
theorem coherent (h : Told N lo bs hi) {vars : Vars α} (old : Coherent vars N lo) :
    Coherent vars (born N bs) hi := by
  have var {x : Variable} (hx : .expr (.var x) ∈ born N bs) : .expr (.var x) ∈ N := by
    rcases hx with hx | ⟨b, hb, hx⟩
    · exact hx
    · exact ((h.newborn b hb _ hx).no_var x rfl).elim
  exact {
    roster := h.roster old.roster old.pos
    pos := old.pos.trans h.consecutive.le
    below := fun i hi => (old.below i hi).trans_le h.consecutive.le
    known := fun x hx => old.known x (var hx)
    respects := fun x hx => (old.respects x (var hx)).mono (subset_born N bs) }

end Told

/-! ## What is recorded for good -/

/-- The births took the identities from `lo` on and below `hi`, whatever was there before. -/
structure Recorded (lo : Id) (bs : List (Birth α)) (hi : Id) : Prop where
  consecutive : Consecutive lo bs hi
  id : ∀ b ∈ bs, ∀ n, b.node = some n → n.id = b.id
  later : ∀ b ∈ bs, ∀ j x y, b.node = some (.expr (.kron j x y)) → x.id < j ∧ y.id < j

theorem Told.recorded {N : Set (Node α)} {lo hi : Id} {bs : List (Birth α)}
    (h : Told N lo bs hi) : Recorded lo bs hi where
  consecutive := h.consecutive
  id b hb n hn := (h.newborn b hb n hn).id
  later b hb j x y hk := (h.newborn b hb _ hk).later j x y rfl

namespace Recorded

variable {lo mid hi : Id} {bs cs : List (Birth α)}

theorem nil (h : lo = hi) : Recorded lo ([] : List (Birth α)) hi :=
  ⟨h, fun b hb => (by cases hb), fun b hb => (by cases hb)⟩

theorem append (h : Recorded lo bs mid) (h' : Recorded mid cs hi) :
    Recorded lo (bs ++ cs) hi where
  consecutive := h.consecutive.append h'.consecutive
  id b hb := (List.mem_append.mp hb).elim (h.id b) (h'.id b)
  later b hb := (List.mem_append.mp hb).elim (h.later b) (h'.later b)

/-- A variable, or nothing, got the first of the identities. -/
theorem cons {o : Option Variable} (h : Recorded (lo + 1) bs hi)
    (first : ∀ x, o = some x → x.id = lo) :
    Recorded lo (⟨lo, o.map fun x => .expr (.var x)⟩ :: bs) hi where
  consecutive := ⟨rfl, h.consecutive⟩
  id b hb n hn := by
    rcases List.mem_cons.mp hb with rfl | hb
    · obtain ⟨x, hx, rfl⟩ := Option.map_eq_some_iff.mp hn
      exact first x hx
    · exact h.id b hb n hn
  later b hb j x y hk := by
    rcases List.mem_cons.mp hb with rfl | hb
    · obtain ⟨z, -, hz⟩ := Option.map_eq_some_iff.mp hk
      cases hz
    · exact h.later b hb j x y hk

end Recorded

/-! ## Accounts -/

/-- States that say which identity is next and what nodes they fit. -/
structure Stage (α σ : Type) where
  next : σ → Id
  Fits : Set (Node α) → σ → Prop

/-- What a program gives, unless it was refused. -/
def Outcome.made? : EStateM.Result ε σ β → Option β
  | .ok x _ => some x
  | .error _ _ => none

theorem Outcome.made?_eq_some {r : EStateM.Result ε σ β} {x : β} :
    made? r = some x ↔ ∃ t, r = .ok x t := by
  cases r with
  | ok y t =>
      constructor
      · intro h
        cases h
        exact ⟨t, rfl⟩
      · rintro ⟨t', h⟩
        cases h
        rfl
  | error e t => exact ⟨fun h => (by cases h), fun ⟨t', h⟩ => (by cases h)⟩

/-- What is born in the rest of a program, if it comes to that. -/
def Outcome.onward (r : EStateM.Result ε σ β) (rest : β → σ → List (Birth α)) :
    List (Birth α) :=
  match r with
  | .ok x t => rest x t
  | .error _ _ => []

/-- What is born while a list is gone through. -/
def Outcome.eachOnward (f : β → EStateM ε σ PUnit) (bs : β → σ → List (Birth α)) :
    List β → σ → List (Birth α)
  | [], _ => []
  | x :: xs, s => bs x s ++ onward (f x s) fun _ t => eachOnward f bs xs t

/-- Nothing is born. -/
abbrev noBirths : σ → List (Birth α) := fun _ => []

namespace Stage

variable {S : Stage α σ} {R : Set (Node α)} {bs : σ → List (Birth α)}

/-- Where the nodes `R` are there the program makes what the births tell, refused or not, and
what it leaves fits the nodes that are there then.  If it is not refused, nothing that it made
was, and what it gives is there. -/
def Accounts (S : Stage α σ) (R : Set (Node α)) (f : EStateM ε σ β) (bs : σ → List (Birth α))
    (gives : β → Set (Node α)) : Prop :=
  ∀ N s, R ⊆ N → S.Fits N s →
    Told N (S.next s) (bs s) (S.next (Outcome.left (f s))) ∧
    S.Fits (born N (bs s)) (Outcome.left (f s)) ∧
    ∀ x t, f s = .ok x t → AllBorn (bs s) ∧ gives x ⊆ born N (bs s)

namespace Accounts

variable {f : EStateM ε σ β} {gives : β → Set (Node α)}

theorem mono (h : S.Accounts R f bs gives) {R' : Set (Node α)} (sub : R ⊆ R') :
    S.Accounts R' f bs gives :=
  fun N s hR => h N s (sub.trans hR)

/-- What has to be there may depend on the state, which it has to fit. -/
theorem of_fits (h : ∀ N s, R ⊆ N → S.Fits N s → ∃ R' ⊆ N, S.Accounts R' f bs gives) :
    S.Accounts R f bs gives := by
  intro N s sub fits
  obtain ⟨R', there, accounts⟩ := h N s sub fits
  exact accounts N s there fits

/-- Nothing was made and nothing is given that was not there. -/
theorem quiet (same : ∀ N s, R ⊆ N → S.Fits N s → S.next (Outcome.left (f s)) = S.next s ∧
    S.Fits N (Outcome.left (f s))) (given : ∀ x, gives x ⊆ R) :
    S.Accounts R f noBirths gives := by
  intro N s sub fits
  obtain ⟨next, fits'⟩ := same N s sub fits
  rw [next, born_nil]
  exact ⟨.nil N _, fits', fun x t _ => ⟨.nil, (given x).trans sub⟩⟩

theorem pure {b : β} (given : gives b ⊆ R) :
    S.Accounts R (Pure.pure b : EStateM ε σ β) noBirths gives := by
  intro N s sub fits
  rw [born_nil]
  refine ⟨.nil N _, fits, fun x t h => ?_⟩
  obtain ⟨rfl, -⟩ := Outcome.pure_ok.mp h
  exact ⟨.nil, given.trans sub⟩

theorem throw (e : ε) : S.Accounts R (throw e : EStateM ε σ β) noBirths gives := by
  intro N s sub fits
  rw [born_nil]
  exact ⟨.nil N _, fits, fun x t h => (Outcome.throw_ok.mp h).elim⟩

/-- The births of the second part come after those of the first, if it comes to that. -/
theorem bind {g : β → EStateM ε σ γ} {cs : β → σ → List (Birth α)} {gives' : γ → Set (Node α)}
    (hf : S.Accounts R f bs gives) (hg : ∀ x, S.Accounts (R ∪ gives x) (g x) (cs x) gives') :
    S.Accounts R (f >>= g) (fun s => bs s ++ Outcome.onward (f s) cs) gives' := by
  intro N s sub fits
  obtain ⟨told, fits', given⟩ := hf N s sub fits
  cases h : f s with
  | ok x t =>
      rw [h] at told fits'
      obtain ⟨all, there⟩ := given x t h
      have there : R ∪ gives x ⊆ born N (bs s) :=
        Set.union_subset (sub.trans (subset_born _ _)) there
      obtain ⟨told', fits'', given'⟩ := hg x _ t there fits'
      rw [Outcome.bind_of_ok h]
      simp only [h, Outcome.onward, born_append]
      exact ⟨told.append told', fits'', fun y u run =>
        (given' y u run).imp_left all.append⟩
  | error e t =>
      rw [h] at told fits'
      rw [Outcome.bind_of_error h]
      simp only [h, Outcome.onward, List.append_nil]
      exact ⟨told, fits', fun y t h => by cases h⟩

/-- What comes first makes nothing. -/
theorem quiet_bind {g : β → EStateM ε σ γ} {cs : β → σ → List (Birth α)}
    {gives' : γ → Set (Node α)} (hf : S.Accounts R f noBirths gives)
    (hg : ∀ x, S.Accounts (R ∪ gives x) (g x) (cs x) gives') :
    S.Accounts R (f >>= g) (fun s => Outcome.onward (f s) cs) gives' :=
  hf.bind hg

/-- What comes after makes nothing. -/
theorem bind_quiet {g : β → EStateM ε σ γ} {gives' : γ → Set (Node α)}
    (hf : S.Accounts R f bs gives)
    (hg : ∀ x, S.Accounts (R ∪ gives x) (g x) noBirths gives') :
    S.Accounts R (f >>= g) bs gives' := by
  have none : (fun s => bs s ++ Outcome.onward (f s) fun _ => noBirths) = bs := by
    funext s
    cases f s <;> exact List.append_nil _
  exact none ▸ hf.bind hg

/-- What was given is given in another form. -/
theorem map (g : β → γ) {gives' : γ → Set (Node α)} (hf : S.Accounts R f bs gives)
    (given : ∀ x, gives' (g x) ⊆ gives x) : S.Accounts R (g <$> f) bs gives' := by
  intro N s sub fits
  obtain ⟨told, fits', given'⟩ := hf N s sub fits
  rw [Outcome.left_map]
  refine ⟨told, fits', fun y t h => ?_⟩
  obtain ⟨x, run, rfl⟩ := Outcome.map_ok.mp h
  exact (given' x t run).imp_right (given x).trans

/-- What is given is dropped. -/
theorem discard (hf : S.Accounts R f bs gives) : S.Accounts R (discard f) bs fun _ => ∅ :=
  hf.map (fun _ => PUnit.unit) fun _ => Set.empty_subset _

theorem forM {f : β → EStateM ε σ PUnit} {bs : β → σ → List (Birth α)} {xs : List β}
    (h : ∀ x ∈ xs, S.Accounts R (f x) (bs x) fun _ => ∅) :
    S.Accounts R (xs.forM f) (Outcome.eachOnward f bs xs) fun _ => ∅ := by
  induction xs with
  | nil => exact .pure (Set.empty_subset R)
  | cons x xs ih =>
      refine (h x List.mem_cons_self).bind fun _ => ?_
      exact (ih fun y hy => h y (List.mem_cons_of_mem x hy)).mono Set.subset_union_left

theorem quiet_forM {f : β → EStateM ε σ PUnit} {xs : List β}
    (h : ∀ x ∈ xs, S.Accounts R (f x) noBirths fun _ => ∅) :
    S.Accounts R (xs.forM f) noBirths fun _ => ∅ := by
  induction xs with
  | nil => exact .pure (Set.empty_subset R)
  | cons x xs ih =>
      refine (h x List.mem_cons_self).bind_quiet fun _ => ?_
      exact (ih fun y hy => h y (List.mem_cons_of_mem x hy)).mono Set.subset_union_left

end Accounts

end Stage

end ConicModel
