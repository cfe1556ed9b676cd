/-
# What registries hold after a run

A declaration registers its variable when the arguments have passed their checks and before
any builder runs.  So what a registry holds does not depend on how requests end, and can be
told from the requests alone: each of them files at most one thing, by adding a node to one
registry or by removing everything from one (`Request.filing?`), and a registry holds what the
filings of the run have made of it (`Ensemble.context_follow`).

A variable that is declared takes the next identity.  That the registry has nothing under it
is what keeps the registration from being refused; therefore the invariant (`Ensemble.Filed`)
says of every node in every registry that its identity was taken, and a node that is
registered by hand must have been made (`Ensemble.Permits`).
-/
import ConicModel.Proofs.Session.Lifecycle

namespace ConicModel

variable {α : Type}

/-! ## Filings -/

/-- What is done to a registry. -/
inductive Filing (α : Type) where
  /-- A node is added to it. -/
  | enter (name : ContextName) (n : Node α)
  /-- Everything is removed from it. -/
  | empty (name : ContextName)

/-- What a registry holds after a filing, its own or that of another one. -/
def Filing.apply (c : ContextName) (held : List (Node α)) : Filing α → List (Node α)
  | enter name n => if name = c then held ++ [n] else held
  | empty name => if name = c then [] else held

/-- What a request files, whether it is refused or not. -/
def Request.filing? [Scalar α] (m : Model α) : Request α → Option (Filing α)
  | declare spec _ => (spec.entrant? m).map fun x => .enter x.home (.expr (.var x))
  | register name n => if (m.find? name n.id).isSome then none else some (.enter name n)
  | clear name => some (.empty name)
  | make _ | alter .. | setCurrent _ | load .. | compile .. => none

namespace Ensemble

variable [Scalar α]

/-- What a list of requests leaves. -/
def follow (e : Ensemble α) (rs : List (Request α)) : Ensemble α := rs.foldl after e

/-- What a list of requests files, in order. -/
def history (e : Ensemble α) : List (Request α) → List (Filing α)
  | [] => []
  | r :: rs => (r.filing? e.model).toList ++ (e.after r).history rs

/-- A request is admitted, and a node that it registers has taken its identity. -/
structure Permits (e : Ensemble α) (r : Request α) : Prop where
  admitted : e.Admits r
  taken : ∀ name n, r = .register name n → n.id < e.model.ledger.nextId

/-- Each of the requests is permitted when its turn comes. -/
def PermitsAll (e : Ensemble α) : List (Request α) → Prop
  | [] => True
  | r :: rs => e.Permits r ∧ (e.after r).PermitsAll rs

end Ensemble

namespace Request

variable [Scalar α] {r : Request α} {m : Model α} {c : ContextName} {n : Node α}

theorem filing?_eq_enter (h : r.filing? m = some (.enter c n)) :
    (∃ spec builders x, r = declare spec builders ∧ spec.entrant? m = some x ∧ x.home = c ∧
      n = .expr (.var x)) ∨ r = register c n := by
  cases r with
  | declare spec builders =>
      obtain ⟨x, entrant, entered⟩ := Option.map_eq_some_iff.mp h
      cases entered
      exact .inl ⟨spec, builders, x, rfl, entrant, rfl, rfl⟩
  | register name k =>
      rw [filing?] at h
      split at h
      · cases h
      · cases h
        exact .inr rfl
  | clear name => cases h
  | make f | alter x a | setCurrent name | load name d layout | compile k cache => cases h

theorem filing?_eq_empty (h : r.filing? m = some (.empty c)) : r = clear c := by
  cases r with
  | declare spec builders =>
      obtain ⟨x, -, entered⟩ := Option.map_eq_some_iff.mp h
      cases entered
  | register name k =>
      rw [filing?] at h
      split at h
      · cases h
      · cases h
  | clear name =>
      cases h
      rfl
  | make f | alter x a | setCurrent name | load name d layout | compile k cache => cases h

end Request

namespace Filing

variable {c : ContextName} {n : Node α} {held : List (Node α)}

theorem mem_apply {f : Filing α} (h : n ∈ f.apply c held) : n ∈ held ∨ f = .enter c n := by
  cases f with
  | enter name k =>
      rw [apply] at h
      split at h
      · rename_i same
        rcases List.mem_append.mp h with h | h
        · exact .inl h
        · rw [same, List.mem_singleton.mp h]
          exact .inr rfl
      · exact .inl h
  | empty name =>
      rw [apply] at h
      split at h
      · cases h
      · exact .inl h

/-- Only what is filed in a registry changes it. -/
theorem of_changed {f : Filing α} (changed : f.apply c held ≠ held) :
    (∃ n, f = .enter c n) ∨ f = .empty c := by
  cases f with
  | enter name n =>
      have same : name = c := by_contra fun other => changed (if_neg other)
      exact .inl ⟨n, same ▸ rfl⟩
  | empty name =>
      have same : name = c := by_contra fun other => changed (if_neg other)
      exact .inr (same ▸ rfl)

theorem mem_foldl {fs : List (Filing α)} (h : n ∈ fs.foldl (apply c) held) :
    n ∈ held ∨ .enter c n ∈ fs := by
  induction fs generalizing held with
  | nil => exact .inl h
  | cons f fs ih =>
      rcases ih h with h | later
      · exact (mem_apply h).imp_right fun here => List.mem_cons.mpr (.inl here.symm)
      · exact .inr (List.mem_cons_of_mem f later)

/-- What a registry holds stays in it until everything is removed from that very registry. -/
theorem mem_apply_of_mem {f : Filing α} (h : n ∈ held) (other : f ≠ .empty c) :
    n ∈ f.apply c held := by
  cases f with
  | enter name k =>
      rw [apply]
      split
      · exact List.mem_append_left _ h
      · exact h
  | empty name =>
      rw [apply, if_neg fun same => other (congrArg empty same)]
      exact h

theorem mem_foldl_of_mem {fs : List (Filing α)} (h : n ∈ held) (other : .empty c ∉ fs) :
    n ∈ fs.foldl (apply c) held := by
  induction fs generalizing held with
  | nil => exact h
  | cons f fs ih =>
      refine ih (mem_apply_of_mem h fun same => ?_) fun later => ?_
      · exact other (List.mem_cons.mpr (.inl same.symm))
      · exact other (List.mem_cons_of_mem f later)

end Filing

/-! ## What one request files -/

namespace Model

variable {m m' m'' : Model α}

/-- Only the contents of the one registry are replaced. -/
theorem context_setContext (m : Model α) (name c : ContextName) (xs : List (Node α)) :
    (m.setContext name xs).context c = if name = c then xs else m.context c := by
  unfold context setContext
  split
  · rename_i entry
    obtain ⟨d, hd, named⟩ := List.any_eq_true.mp entry
    have keys : (fun d : ContextName × List (Node α) => decide (d.1 = c)) ∘
        (fun d => if d.1 = name then (name, xs) else d) = fun d => decide (d.1 = c) := by
      funext d
      by_cases hd : d.1 = name
      · simp [hd]
      · simp [hd]
    rw [List.find?_map, keys]
    cases found : m.contexts.find? fun d => d.1 = c with
    | none =>
        have absent := List.find?_eq_none.mp found d hd
        have other : name ≠ c := fun same => absent (same ▸ named)
        rw [if_neg other]
        rfl
    | some b =>
        have named := List.find?_some found
        obtain rfl : b.1 = c := of_decide_eq_true named
        by_cases same : name = b.1
        · simp [same]
        · simp [same, Ne.symm same]
  · rename_i no_entry
    rw [List.find?_append]
    by_cases same : name = c
    · subst same
      have none : (m.contexts.find? fun d => d.1 = name) = none :=
        List.find?_eq_none.mpr fun d hd named => no_entry (List.any_eq_true.mpr ⟨d, hd, named⟩)
      simp [none]
    · simp [same]

/-- No registry was changed. -/
structure Unfiled (m m' : Model α) : Prop where
  contexts : m'.contexts = m.contexts
  before : m.ledger.Before m'.ledger

instance : IsPreorder (Model α) Unfiled where
  refl m := ⟨rfl, refl_of _ m.ledger⟩
  trans _ _ _ h h' := ⟨h'.contexts.trans h.contexts, trans_of _ h.before h'.before⟩

/-- Registries were changed by one filing, or not at all; what was entered has taken its
identity. -/
structure Files (f : Option (Filing α)) (m m' : Model α) : Prop where
  context : ∀ c, m'.context c = f.elim (m.context c) (·.apply c (m.context c))
  before : m.ledger.Before m'.ledger
  taken : ∀ name n, f = some (.enter name n) → n.id < m'.ledger.nextId

theorem Unfiled.context (h : m.Unfiled m') (c : ContextName) : m'.context c = m.context c := by
  rw [Model.context, h.contexts, Model.context]

theorem Unfiled.files (h : m.Unfiled m') : m.Files none m' where
  context := h.context
  before := h.before
  taken name n entered := by cases entered

namespace Files

variable {f : Option (Filing α)}

theorem prepare (h : m.Unfiled m') (h' : m'.Files f m'') : m.Files f m'' where
  context c := h.context c ▸ h'.context c
  before := trans_of _ h.before h'.before
  taken := h'.taken

theorem settle (h : m.Files f m') (h' : m'.Unfiled m'') : m.Files f m'' where
  context c := (h'.context c).trans (h.context c)
  before := trans_of _ h.before h'.before
  taken name n entered := (h.taken name n entered).trans_le h'.before

theorem enter {n : Node α} (taken : n.id < m.ledger.nextId) (name : ContextName) :
    m.Files (some (.enter name n)) (m.setContext name (m.context name ++ [n])) where
  context c := by
    rw [context_setContext, Option.elim_some, Filing.apply]
    by_cases same : name = c
    · rw [if_pos same, if_pos same, same]
    · rw [if_neg same, if_neg same]
  before := by
    rw [(m.setContext_vars _ _).2]
    exact refl_of _ m.ledger
  taken c k entered := by
    cases entered
    rw [(m.setContext_vars _ _).2]
    exact taken

theorem empty (m : Model α) (name : ContextName) :
    m.Files (some (.empty name)) (m.setContext name []) where
  context c := by
    rw [context_setContext, Option.elim_some, Filing.apply]
  before := by
    rw [(m.setContext_vars _ _).2]
    exact refl_of _ m.ledger
  taken c k entered := by cases entered

end Files

theorem id_of_find? {name : ContextName} {i : Id} {n : Node α} (h : m.find? name i = some n) :
    n.id = i := by
  have found := List.find?_some h
  exact of_decide_eq_true found

/-- What has no entry yet is entered. -/
theorem register_of_none {name : ContextName} {n : Node α} (new : m.find? name n.id = none) :
    register name n m = .ok () (m.setContext name (m.context name ++ [n])) := by
  rw [register, new]
  rfl

end Model

namespace Work

theorem unfiled_changeVars {f : Vars α → Make α (Vars α)} (h : ∀ vars, (f vars).Advances) :
    Outcome.Keeps Model.Unfiled (changeVars f) := by
  intro m
  rcases left_changeVars f m with ⟨vars, l, made, left⟩ | left
  · rw [left]
    exact ⟨rfl, (h m.vars).ok made⟩
  · rw [left]
    exact ⟨rfl, h m.vars m.ledger⟩

end Work

namespace VariableSpec

/-- Whatever becomes of its builders, an entered variable is in its registry. -/
theorem files_settle {x : Variable} {builders : List (Builder α)} {m : Model α}
    (new : m.find? x.home x.id = none) (taken : x.id < m.ledger.nextId) (h : ∀ b ∈ builders, ∀ vars, Make.Advances (b x vars)) :
    m.Files (some (.enter x.home (.expr (.var x)))) (Outcome.left (settle x builders m)) := by
  have attaching : Outcome.Keeps Model.Unfiled (do
      builders.forM (attach x)
      pure x) := by
    refine Outcome.Keeps.bind (.forM fun b hb => ?_) fun _ => .pure x
    exact Work.unfiled_changeVars fun vars => (h b hb vars).bind fun item => .pure _
  rw [settle, Outcome.bind_of_ok (Model.register_of_none (n := .expr (.var x)) new)]
  exact (Model.Files.enter (n := .expr (.var x)) taken x.home).settle (attaching _)

end VariableSpec

/-! ## Runs -/

namespace Ensemble

/-- Variables are sound.  What is registered has taken its identity, and no registry has two
nodes under one. -/
structure Filed (e : Ensemble α) : Prop where
  sound : e.Sound
  below : ∀ c, ∀ n ∈ e.model.context c, n.id < e.model.ledger.nextId
  distinct : ∀ c, ((e.model.context c).map Node.id).Nodup

namespace Filed

variable {e : Ensemble α}

theorem start : Filed ({} : Ensemble α) where
  sound := .start
  below c n hn := by cases hn
  distinct c := List.nodup_nil

theorem find?_eq_some_iff (h : e.Filed) {c : ContextName} {i : Id} {n : Node α} :
    e.model.find? c i = some n ↔ n ∈ e.model.context c ∧ n.id = i := by
  constructor
  · exact fun found =>
      ⟨List.mem_of_find?_eq_some found, Model.id_of_find? found⟩
  · rintro ⟨held, rfl⟩
    cases found : e.model.find? c n.id with
    | none =>
        have absent := List.find?_eq_none.mp found n held
        exact (absent (decide_eq_true rfl)).elim
    | some k =>
        have same : k.id = n.id := Model.id_of_find? found
        rw [List.inj_on_of_nodup_map (h.distinct c) (List.mem_of_find?_eq_some found) held same]

theorem find?_next (h : e.Filed) (c : ContextName) :
    e.model.find? c e.model.ledger.nextId = none :=
  List.find?_eq_none.mpr fun n hn same => (h.below c n hn).ne (of_decide_eq_true same)

variable [Scalar α] {r : Request α}

/-- A permitted request files what it should, however it ends. -/
theorem files (h : e.Filed) (permitted : e.Permits r) :
    e.model.Files (r.filing? e.model) (e.after r).model := by
  have given {f : Option (Filing α)} {m : Model α} (left : Outcome.left (r.run e.model) = m)
      (hm : e.model.Files f m) : e.model.Files f (e.after r).model := by
    cases left
    exact hm
  cases r with
  | make f =>
      have unfiled : e.model.Unfiled { e.model with
          ledger := Outcome.left (f e.model.vars e.model.ledger) } :=
        ⟨rfl, permitted.admitted e.model.vars e.model.ledger⟩
      exact given (Work.left_make f e.model) unfiled.files
  | declare spec builders =>
      have left := Outcome.left_discard (spec.declare builders) e.model
      rcases spec.declare_cases builders e.model with
        ⟨f, l, checks, next, refused⟩ | ⟨x, kind, extra, l, entrant, next, hextra, entered⟩
      · rw [refused] at left
        rw [Request.filing?, checks]
        have unfiled : e.model.Unfiled { e.model with ledger := l } :=
          ⟨rfl, (next ▸ Int.lt_succ _).le⟩
        exact given left unfiled.files
      · rw [entered] at left
        rw [Request.filing?, entrant]
        have hid : x.id = e.model.ledger.nextId := (VariableSpec.entrant?_some entrant).1
        have unfiled : e.model.Unfiled { e.model with
            ledger := l, vars := e.model.vars.push x.id { sign := spec.sign, kind := kind } } :=
          ⟨rfl, (next ▸ Int.lt_succ _).le⟩
        refine given left (.prepare unfiled (VariableSpec.files_settle ?_ ?_ ?_))
        · exact hid ▸ h.find?_next x.home
        · exact hid.trans_lt (next ▸ Int.lt_succ _)
        · exact VariableSpec.builders_advance permitted.admitted hextra x
  | alter x a =>
      have unfiled := Work.unfiled_changeVars (fun vars => a.advances x vars) e.model
      exact given rfl unfiled.files
  | register name n =>
      cases found : e.model.find? name n.id with
      | none =>
          have left : Outcome.left (Model.register name n e.model) = _ :=
            congrArg Outcome.left (Model.register_of_none found)
          rw [Request.filing?, found]
          exact given left (.enter (permitted.taken name n rfl) name)
      | some k =>
          have left : Outcome.left (Model.register name n e.model) = e.model := by
            rw [Model.register, found]
            rfl
          rw [Request.filing?, found]
          exact given left (refl_of Model.Unfiled e.model).files
  | clear name => exact .empty ..
  | setCurrent name =>
      have left := Outcome.left_discard (Model.setCurrent (α := α) name) e.model
      have unfiled : e.model.Unfiled { e.model with current := name } := ⟨rfl, refl_of _ _⟩
      exact given left unfiled.files
  | load name d layout =>
      rcases Model.left_loadSolution name d layout e.model with
        same | ⟨solution, places, -, written⟩
      · exact given same (refl_of Model.Unfiled e.model).files
      · have writing : Outcome.Keeps Model.Unfiled (places.forM (Model.writeBlock solution)) :=
          .forM fun p _ => Work.unfiled_changeVars fun vars =>
            (Model.still_writing solution p vars).advances
        exact given written (writing e.model).files
  | compile n cache =>
      obtain ⟨l, before, left⟩ := Work.left_compile n cache e.model
      have unfiled : e.model.Unfiled { e.model with ledger := l } := ⟨rfl, before⟩
      exact given left unfiled.files

/-- Where something is entered there is nothing under its identity yet. -/
theorem new_of_enters (h : e.Filed) {name : ContextName} {n : Node α}
    (enters : r.filing? e.model = some (.enter name n)) : e.model.find? name n.id = none := by
  rcases Request.filing?_eq_enter enters with
    ⟨spec, builders, x, rfl, entrant, rfl, rfl⟩ | rfl
  · have hid : x.id = e.model.ledger.nextId := (VariableSpec.entrant?_some entrant).1
    show e.model.find? x.home x.id = none
    rw [hid]
    exact h.find?_next x.home
  · rw [Request.filing?] at enters
    split at enters
    · cases enters
    · rename_i new
      exact Option.not_isSome_iff_eq_none.mp new

theorem after (h : e.Filed) (permitted : e.Permits r) : (e.after r).Filed where
  sound := h.sound.after permitted.admitted
  below c n hn := by
    have files := h.files permitted
    rw [files.context] at hn
    cases hf : r.filing? e.model with
    | none =>
        rw [hf] at hn
        exact (h.below c n hn).trans_le files.before
    | some f =>
        rw [hf] at hn
        rcases Filing.mem_apply hn with hn | rfl
        · exact (h.below c n hn).trans_le files.before
        · exact files.taken c n hf
  distinct c := by
    rw [(h.files permitted).context]
    cases hf : r.filing? e.model with
    | none => exact h.distinct c
    | some f =>
        cases f with
        | empty name =>
            rw [Option.elim_some, Filing.apply]
            split
            · exact List.nodup_nil
            · exact h.distinct c
        | enter name n =>
            rw [Option.elim_some, Filing.apply]
            split
            · rename_i same
              subst same
              have new := List.find?_eq_none.mp (h.new_of_enters hf)
              rw [List.map_append, List.nodup_append]
              refine ⟨h.distinct name, List.nodup_singleton _, fun i hi j hj => ?_⟩
              obtain ⟨k, hk, rfl⟩ := List.mem_map.mp hi
              rw [List.mem_singleton.mp hj]
              exact fun same => new k hk (decide_eq_true same)
            · exact h.distinct c

/-- What a registry holds after a run is what the filings have made of what it held before. -/
theorem follow (h : e.Filed) {rs : List (Request α)} (permitted : e.PermitsAll rs) :
    (e.follow rs).Filed ∧ ∀ c, (e.follow rs).model.context c
      = (e.history rs).foldl (Filing.apply c) (e.model.context c) := by
  induction rs generalizing e with
  | nil => exact ⟨h, fun c => rfl⟩
  | cons r rs ih =>
      obtain ⟨first, rest⟩ := permitted
      obtain ⟨filed, held⟩ := ih (h.after first) rest
      refine ⟨filed, fun c => ?_⟩
      rw [history, List.foldl_append]
      refine (held c).trans (congrArg (List.foldl (Filing.apply c) · _) ?_)
      rw [(h.files first).context]
      cases r.filing? e.model <;> rfl

end Filed

/-- Whatever was filed was filed by one of the requests. -/
theorem exists_of_mem_history [Scalar α] {e : Ensemble α} {rs : List (Request α)} {f : Filing α}
    (h : f ∈ e.history rs) : ∃ r ∈ rs, ∃ m, r.filing? m = some f := by
  induction rs generalizing e with
  | nil => cases h
  | cons r rs ih =>
      rcases List.mem_append.mp h with h | h
      · exact ⟨r, List.mem_cons_self, e.model, Option.mem_toList.mp h⟩
      · obtain ⟨s, hs, found⟩ := ih h
        exact ⟨s, List.mem_cons_of_mem r hs, found⟩

end Ensemble

/-! ## The registries of a run -/

namespace Model

theorem lookup_ok_iff {m : Model α} {c : ContextName} {i : Id} {n : Node α} :
    lookup c i m = .ok n m ↔ m.find? c i = some n := by
  unfold lookup
  cases m.find? c i with
  | none => exact ⟨fun h => (by cases h), fun h => (by cases h)⟩
  | some k => exact ⟨fun h => (by cases h; rfl), fun h => (by cases h; rfl)⟩

end Model

variable [Scalar α]

/-- A declaration has entered its variable, though a builder may have been refused. -/
structure Ensemble.Entered (e : Ensemble α) (spec : VariableSpec α) (builders : List (Builder α))
    (x : Variable) : Prop where
  /-- It belongs to the registry that was named, or to the one that was current. -/
  home : x.home = spec.context.getD e.model.current
  new : x ∉ e.made
  made : x ∈ (e.after (.declare spec builders)).made
  result : ∀ y m, spec.declare builders e.model = .ok y m → y = x
  registered : (e.after (.declare spec builders)).model.context x.home
    = e.model.context x.home ++ [.expr (.var x)]
  /-- Nothing else is registered under its identity anywhere. -/
  once : ∀ c, ∀ n ∈ (e.after (.declare spec builders)).model.context c, n.id = x.id →
    c = x.home ∧ n = .expr (.var x)
  /-- It is found until its registry is cleared. -/
  found : ∀ rs, (e.after (.declare spec builders)).PermitsAll rs → .clear x.home ∉ rs →
    ∀ e', (e.after (.declare spec builders)).follow rs = e' →
      Model.lookup x.home x.id e'.model = .ok (.expr (.var x)) e'.model

theorem Ensemble.Filed.entered {e : Ensemble α} (h : e.Filed) {spec : VariableSpec α}
    {builders : List (Builder α)} {x : Variable} (permitted : e.Permits (.declare spec builders))
    (entrant : spec.entrant? e.model = some x) : e.Entered spec builders x := by
  obtain ⟨hid, -, home⟩ := VariableSpec.entrant?_some entrant
  have files := h.files permitted
  rw [Request.filing?, entrant] at files
  have registered : (e.after (.declare spec builders)).model.context x.home
      = e.model.context x.home ++ [.expr (.var x)] :=
    (files.context x.home).trans (if_pos rfl)
  have held : .expr (.var x) ∈ (e.after (.declare spec builders)).model.context x.home :=
    registered ▸ List.mem_append_right _ (List.mem_singleton_self _)
  constructor
  case home => exact home
  case new => exact fun hx => (h.sound.below x.id (h.sound.known x hx)).ne hid
  case made => exact .inr (Model.exists_of_mem_context held)
  case result =>
    intro y m declared
    rcases spec.declare_cases builders e.model with
      ⟨f, l, -, -, refused⟩ | ⟨z, kind, extra, l, entrant', -, -, entered⟩
    · cases refused.symm.trans declared
    · cases entrant.symm.trans entrant'
      rw [entered] at declared
      obtain ⟨⟨⟩, m₁, -, rest⟩ := Outcome.bind_ok.mp declared
      obtain ⟨⟨⟩, m₂, -, done⟩ := Outcome.bind_ok.mp rest
      exact (Outcome.pure_ok.mp done).1.symm
  case registered => exact registered
  case once =>
    intro c n hn same
    rw [files.context] at hn
    change n ∈ Filing.apply c (e.model.context c) (.enter x.home (.expr (.var x))) at hn
    rcases Filing.mem_apply hn with hn | entered
    · exact ((h.below c n hn).ne (same.trans hid)).elim
    · cases entered
      exact ⟨rfl, rfl⟩
  case found =>
    rintro rs later uncleared e' rfl
    obtain ⟨filed, context⟩ := (h.after permitted).follow later
    refine Model.lookup_ok_iff.mpr (filed.find?_eq_some_iff.mpr ⟨?_, rfl⟩)
    rw [context]
    refine Filing.mem_foldl_of_mem held fun emptied => ?_
    obtain ⟨r, hr, m, filing⟩ := Ensemble.exists_of_mem_history emptied
    exact uncleared (Request.filing?_eq_empty filing ▸ hr)

/-- What holds of the registries after a list of requests to an empty session. -/
structure Ensemble.Registries (e : Ensemble α) (rs : List (Request α)) : Prop where
  /-- A registry holds what was entered since it was last emptied, in that order. -/
  context : ∀ c, e.model.context c = (Ensemble.history {} rs).foldl (Filing.apply c) []
  distinct : ∀ c, ((e.model.context c).map Node.id).Nodup
  lookup : ∀ c i n,
    Model.lookup c i e.model = .ok n e.model ↔ n ∈ e.model.context c ∧ n.id = i
  /-- What is held is a variable that was made, or was registered by hand. -/
  origin : ∀ c, ∀ n ∈ e.model.context c,
    (∃ x ∈ e.made, n = .expr (.var x)) ∨ .register c n ∈ rs
  /-- A declaration refused for its arguments registers nothing. -/
  unentered : ∀ spec builders, e.Permits (.declare spec builders) →
    spec.entrant? e.model = none → (∃ f m, spec.declare builders e.model = .error f m) ∧
      ∀ c, (e.after (.declare spec builders)).model.context c = e.model.context c
  entered : ∀ spec builders x, e.Permits (.declare spec builders) →
    spec.entrant? e.model = some x → e.Entered spec builders x
  /-- Registering under an identity that is there is refused, and nothing has changed. -/
  taken : ∀ c n, (∃ k ∈ e.model.context c, k.id = n.id) →
    Model.register c n e.model = .error (.registered n.id c) e.model
  cleared : ∀ c, (e.after (.clear c)).model.context c = []
  /-- A registry is only changed by a declaration into it, by a registration in it, and by
  clearing it. -/
  others : ∀ r c, e.Permits r → (e.after r).model.context c ≠ e.model.context c →
    (∃ spec builders x, r = .declare spec builders ∧ spec.entrant? e.model = some x ∧
      x.home = c) ∨ (∃ n, r = .register c n) ∨ r = .clear c

/-- Take any run of requests from an empty session, refused or not: declarations into registries
they name or into the current one, registrations by hand, clearings, changes of the current
registry, loadings, compilations and whatever else.  No registry ever has two nodes under one
identity; it lists them in the order in which they were entered, and looking an identity up gives
the node with that identity.  A declaration registers its variable once, wherever it ends, unless
it is refused for its arguments, and the variable is found in its own registry until that is
cleared.  And no request changes a registry that it is not about. -/
theorem registries_of_run {rs : List (Request α)} {e : Ensemble α}
    (permitted : Ensemble.PermitsAll {} rs) (run : Ensemble.follow {} rs = e) :
    e.Registries rs := by
  cases run
  obtain ⟨filed, context⟩ := Ensemble.Filed.start.follow permitted
  refine ⟨context, filed.distinct,
    fun c i n => Model.lookup_ok_iff.trans filed.find?_eq_some_iff, fun c n hn => ?_,
    fun spec builders declares checks => ?_, fun spec builders x => filed.entered,
    fun c n present => ?_, fun c => ?_, fun r c permits changed => ?_⟩
  · by_cases variable_held : ∃ x, n = .expr (.var x)
    · obtain ⟨x, rfl⟩ := variable_held
      exact .inl ⟨x, filed.sound.registered x (Model.exists_of_mem_context hn), rfl⟩
    · rw [context] at hn
      have entered := (Filing.mem_foldl hn).resolve_left List.not_mem_nil
      obtain ⟨r, hr, m, filing⟩ := Ensemble.exists_of_mem_history entered
      rcases Request.filing?_eq_enter filing with ⟨spec, builders, x, -, -, -, rfl⟩ | rfl
      · exact (variable_held ⟨x, rfl⟩).elim
      · exact .inr hr
  · constructor
    · rcases spec.declare_cases builders (Ensemble.follow {} rs).model with
        ⟨f, l, -, -, refused⟩ | ⟨x, kind, extra, l, entrant, -⟩
      · exact ⟨f, _, refused⟩
      · cases checks.symm.trans entrant
    · have files := filed.files declares
      rw [Request.filing?, checks] at files
      exact files.context
  · obtain ⟨k, held, same⟩ := present
    rw [Model.register, filed.find?_eq_some_iff.mpr ⟨held, same⟩]
    rfl
  · exact (Model.context_setContext _ c c []).trans (if_pos rfl)
  · rw [(filed.files permits).context] at changed
    cases filing : r.filing? (Ensemble.follow {} rs).model with
    | none => exact (changed (by rw [filing]; rfl)).elim
    | some f =>
        rw [filing, Option.elim_some] at changed
        rcases Filing.of_changed changed with ⟨n, rfl⟩ | rfl
        · rcases Request.filing?_eq_enter filing with
            ⟨spec, builders, x, made, entrant, home, -⟩ | made
          · exact .inl ⟨spec, builders, x, made, entrant, home⟩
          · exact .inr (.inl ⟨n, made⟩)
        · exact .inr (.inr (Request.filing?_eq_empty filing))

/-! ### A variable in two registries

A variable is declared; another registry is made the current one; a declaration enters a
variable there, of which the builder is refused; one more is refused for its arguments; the
variable of the first of the two is registered by hand, and its own registry is cleared. -/

namespace TwoRegistries

def other : ContextName := ⟨"other"⟩

def y : Variable := ⟨2, 1, 1, other⟩

def requests : List (Request ℚ) :=
  [.declare { shape := .ofInt 2 } [], .setCurrent other, .declare {} [Column.refusing],
    .declare { sets := some ["Cone"] } [], .register .main (.expr (.var y)), .clear other]

theorem permitted : Ensemble.PermitsAll {} requests := by
  have plain (e : Ensemble ℚ) (spec : VariableSpec ℚ) : e.Permits (.declare spec []) :=
    ⟨fun b hb => (by cases hb), nofun⟩
  have refusing (e : Ensemble ℚ) : e.Permits (.declare {} [Column.refusing]) := by
    refine ⟨fun b hb z vars => ?_, nofun⟩
    rw [List.mem_singleton.mp hb]
    exact Make.advances_freshId.bind fun _ => .throw _
  have by_hand : (Ensemble.follow {} (requests.take 4)).Permits
      (.register .main (.expr (.var y))) := by
    have contexts : (Ensemble.follow {} (requests.take 3)).model.contexts
        = [(.main, [.expr (.var Column.x)]), (other, [.expr (.var y)])] := by
      with_unfolding_all rfl
    have made : y ∈ (Ensemble.follow {} (requests.take 3)).made := by
      refine .inr ⟨(other, [.expr (.var y)]), ?_, List.mem_singleton_self _⟩
      exact contexts ▸ List.mem_cons_of_mem _ (List.mem_singleton_self _)
    refine ⟨Ensemble.made_after _ _ made, fun name n same => ?_⟩
    cases same
    with_unfolding_all decide
  exact ⟨plain _ _, ⟨trivial, nofun⟩, refusing _, plain _ _, by_hand, ⟨trivial, nofun⟩, trivial⟩

end TwoRegistries

/-- The refused variable is left in the registry in which it was entered by hand. -/
theorem two_registries_of_run : ∃ e : Ensemble ℚ,
    Ensemble.PermitsAll {} TwoRegistries.requests ∧
    Ensemble.follow {} TwoRegistries.requests = e ∧
    Ensemble.history {} TwoRegistries.requests = [.enter .main (.expr (.var Column.x)),
      .enter TwoRegistries.other (.expr (.var TwoRegistries.y)),
      .enter .main (.expr (.var TwoRegistries.y)), .empty TwoRegistries.other] ∧
    e.model.context .main = [.expr (.var Column.x), .expr (.var TwoRegistries.y)] ∧
    e.model.context TwoRegistries.other = [] ∧
    e.model.ledger.nextId = 5 ∧
    e.Registries TwoRegistries.requests :=
  ⟨_, TwoRegistries.permitted, rfl, by with_unfolding_all rfl, by with_unfolding_all rfl,
    by with_unfolding_all rfl, by with_unfolding_all rfl,
    registries_of_run TwoRegistries.permitted rfl⟩

end ConicModel
