import Mathlib.Data.List.Forall2
import ChunkedArray.Error

/-!
# Actions and queries

An action reads and changes a state and may fail; what it changed before a failure stays. A query
with respect to a relation of states keeps its state up to the relation and tells related states
nothing apart, so the outcome of several queries in a row is computed as if each of them saw the
state in which the first one started.
-/

namespace ChunkedArray

/-- Two steps succeed if the first one does and the second one does behind it. -/
theorem bind_eq_ok {ε α β : Type} {x : Except ε α} {f : α → Except ε β} {b : β} :
    x >>= f = .ok b ↔ ∃ a, x = .ok a ∧ f a = .ok b := by
  cases x with
  | error e =>
    constructor
    · intro h
      cases h
    · rintro ⟨_, h, -⟩
      cases h
  | ok a =>
    constructor
    · intro h
      exact ⟨a, rfl, h⟩
    · rintro ⟨_, h, h'⟩
      cases h
      exact h'

/-- A success that is changed was a success. -/
theorem map_eq_ok {α β : Type} {x : Result α} {f : α → β} {b : β} :
    x.map f = .ok b ↔ ∃ a, x = .ok a ∧ f a = b := by
  cases x with
  | error e =>
    constructor
    · intro h
      cases h
    · rintro ⟨_, h, -⟩
      cases h
  | ok a =>
    constructor
    · intro h
      cases h
      exact ⟨a, rfl, rfl⟩
    · rintro ⟨_, h, rfl⟩
      cases h
      rfl

/-- Two results that agree after a change are the same error, or successes that agree after it. -/
theorem cases_of_map_eq {α β γ : Type} {x : Result α} {y : Result β} {f : α → γ} {g : β → γ}
    (h : x.map f = y.map g) :
    (∃ e, x = .error e ∧ y = .error e) ∨ ∃ a b, x = .ok a ∧ y = .ok b ∧ f a = g b := by
  cases x with
  | error e =>
    cases y with
    | error e' =>
      cases h
      exact .inl ⟨e, rfl, rfl⟩
    | ok b => cases h
  | ok a =>
    cases y with
    | error e => cases h
    | ok b => exact .inr ⟨a, b, rfl, rfl, Except.ok.inj h⟩

/-- An error that is renamed is no success. -/
theorem mapError_eq_ok {ε ε' α : Type} {x : Except ε α} {f : ε → ε'} {a : α} :
    x.mapError f = .ok a ↔ x = .ok a := by
  cases x with
  | error e =>
    constructor <;>
    · intro h
      cases h
  | ok b =>
    constructor <;>
    · intro h
      cases h
      rfl

/-- Results for the members of a list, all of them successes. -/
theorem mapM_eq_ok {α β : Type} {f : α → Result β} {g : α → β} {l : List α}
    (h : ∀ a ∈ l, f a = .ok (g a)) : l.mapM f = .ok (l.map g) := by
  induction l with
  | nil => rfl
  | cons a rest ih =>
    rw [List.mapM_cons, h a List.mem_cons_self, ih fun b hb => h b (List.mem_cons_of_mem _ hb)]
    rfl

/-- A result for every member of a list makes a list of results. -/
theorem exists_mapM_eq_ok {α β : Type} {f : α → Result β} {l : List α}
    (h : ∀ a ∈ l, ∃ b, f a = .ok b) : ∃ r, l.mapM f = .ok r := by
  induction l with
  | nil => exact ⟨[], rfl⟩
  | cons a l ih =>
    obtain ⟨b, hb⟩ := h a List.mem_cons_self
    obtain ⟨r, hr⟩ := ih fun a' ha' => h a' (List.mem_cons_of_mem _ ha')
    exact ⟨b :: r, by rw [List.mapM_cons, hb, hr]; rfl⟩

/-- A list of results holds the result of every member at its place. -/
theorem forall₂_of_mapM_eq_ok {α β : Type} {f : α → Result β} {l : List α} {r : List β}
    (h : l.mapM f = .ok r) : List.Forall₂ (fun a b => f a = .ok b) l r := by
  induction l generalizing r with
  | nil =>
    cases h
    exact List.Forall₂.nil
  | cons a l ih =>
    rw [List.mapM_cons, bind_eq_ok] at h
    obtain ⟨b, hb, h⟩ := h
    obtain ⟨rest, hrest, h⟩ := bind_eq_ok.1 h
    cases h
    exact List.Forall₂.cons hb (ih hrest)

/-- Results for the members of a list fail as the first member does that fails. -/
theorem mapM_eq_error_iff {α β : Type} {f : α → Result β} {l : List α} {e : Error} :
    l.mapM f = .error e ↔
      ∃ front a rest, l = front ++ a :: rest ∧ (∀ b ∈ front, ∃ v, f b = .ok v) ∧ f a = .error e := by
  constructor
  · intro h
    -- On the list: the first member fails itself, or it succeeds and the failure lies behind it.
    induction l with
    | nil => cases h
    | cons a l ih =>
      rw [List.mapM_cons] at h
      cases ha : f a with
      | error e' =>
        rw [ha] at h
        cases h
        exact ⟨[], a, l, rfl, List.forall_mem_nil _, ha⟩
      | ok v =>
        rw [ha] at h
        cases hrest : l.mapM f with
        | ok vs =>
          rw [hrest] at h
          cases h
        | error e' =>
          rw [hrest] at h
          cases h
          obtain ⟨front, b, rest, rfl, hfront, hb⟩ := ih hrest
          exact ⟨a :: front, b, rest, rfl, List.forall_mem_cons.2 ⟨⟨v, ha⟩, hfront⟩, hb⟩
  · rintro ⟨front, a, rest, rfl, hfront, ha⟩
    obtain ⟨vs, hvs⟩ := exists_mapM_eq_ok hfront
    rw [List.mapM_append, hvs, List.mapM_cons, ha]
    rfl

/-- An action on a state. -/
abbrev Action (σ α : Type) := ExceptT Error (StateM σ) α

namespace Action

variable {σ α β : Type}

/-- Runs an action: its outcome and the state behind it. -/
def run (act : Action σ α) (s : σ) : Result α × σ :=
  StateT.run (ExceptT.run act) s

/-- The outcome of an action. -/
def outcome (act : Action σ α) (s : σ) : Result α :=
  (run act s).1

@[simp] theorem run_pure (a : α) (s : σ) : run (pure a) s = (.ok a, s) := rfl

@[simp] theorem run_throw (e : Error) (s : σ) :
    run (throw e : Action σ α) s = (.error e, s) := rfl

@[simp] theorem run_get (s : σ) : run (get : Action σ σ) s = (.ok s, s) := rfl

@[simp] theorem run_set (s s' : σ) : run (set s' : Action σ PUnit) s = (.ok ⟨⟩, s') := rfl

@[simp] theorem run_modify (f : σ → σ) (s : σ) :
    run (modify f : Action σ Unit) s = (.ok (), f s) := rfl

@[simp] theorem run_liftM (r : Result α) (s : σ) : run (liftM r : Action σ α) s = (r, s) := by
  cases r <;> rfl

theorem run_bind (x : Action σ α) (f : α → Action σ β) (s : σ) :
    run (x >>= f) s =
      match run x s with
      | (.ok a, s') => run (f a) s'
      | (.error e, s') => (.error e, s') := by
  change run (ExceptT.bind x f) s = _
  simp only [run, ExceptT.run, ExceptT.bind, ExceptT.mk, StateT.run_bind]
  generalize StateT.run x s = r
  obtain ⟨r, s'⟩ := r
  cases r <;> rfl

theorem run_bind_of_ok {x : Action σ α} {f : α → Action σ β} {s s' : σ} {a : α}
    (h : run x s = (.ok a, s')) : run (x >>= f) s = run (f a) s' := by
  rw [run_bind, h]

theorem run_map (f : α → β) (x : Action σ α) (s : σ) :
    run (f <$> x) s = ((run x s).1.map f, (run x s).2) := by
  rw [map_eq_pure_bind, run_bind]
  generalize run x s = r
  obtain ⟨r, s'⟩ := r
  cases r <;> rfl

theorem run_adapt (rename : Error → Error) (x : Action σ α) (s : σ) :
    run (ExceptT.adapt rename x) s = ((run x s).1.mapError rename, (run x s).2) :=
  rfl

/-- An action that succeeds ran its first step with success and its second one behind it. -/
theorem exists_of_run_bind_eq_ok {x : Action σ α} {f : α → Action σ β} {s s' : σ} {b : β}
    (h : run (x >>= f) s = (.ok b, s')) :
    ∃ a s₁, run x s = (.ok a, s₁) ∧ run (f a) s₁ = (.ok b, s') := by
  rw [run_bind] at h
  generalize run x s = r at h ⊢
  obtain ⟨r, s₁⟩ := r
  cases r with
  | error e => cases h
  | ok a => exact ⟨a, s₁, rfl, h⟩

/-- A result that is looked at first is a success if the whole is. -/
theorem run_liftM_bind_eq_ok {r : Result α} {f : α → Action σ β} {s s' : σ} {b : β} :
    run (liftM r >>= f) s = (.ok b, s') ↔ ∃ a, r = .ok a ∧ run (f a) s = (.ok b, s') := by
  rw [run_bind, run_liftM]
  cases r with
  | error e =>
    constructor
    · intro h
      cases h
    · rintro ⟨a, ha, -⟩
      cases ha
  | ok a =>
    constructor
    · exact fun h => ⟨a, rfl, h⟩
    · rintro ⟨a', ha, h⟩
      cases ha
      exact h

@[simp] theorem outcome_pure (a : α) (s : σ) : outcome (pure a) s = .ok a := rfl

@[simp] theorem outcome_throw (e : Error) (s : σ) :
    outcome (throw e : Action σ α) s = .error e := rfl

@[simp] theorem outcome_liftM (r : Result α) (s : σ) :
    outcome (liftM r : Action σ α) s = r := by
  rw [outcome, run_liftM]

/-- A result that is looked at does not depend on the state any more. -/
theorem outcome_bind_liftM (x : Action σ α) (f : α → Result β) (s : σ) :
    outcome (x >>= fun a => liftM (f a)) s = outcome x s >>= f := by
  rw [outcome, outcome, run_bind]
  generalize run x s = r
  obtain ⟨r, s'⟩ := r
  cases r with
  | error e => rfl
  | ok a =>
    dsimp only
    rw [run_liftM]
    rfl

/-! ## Queries -/

/-- An action that keeps the state and cannot tell related states apart. -/
structure IsQuery (R : σ → σ → Prop) (act : Action σ α) : Prop where
  kept : ∀ s, R s (run act s).2
  outcome_eq : ∀ {s s'}, R s s' → outcome act s' = outcome act s

variable {R : σ → σ → Prop}

theorem isQuery_liftM (hrefl : ∀ s, R s s) (r : Result α) :
    IsQuery R (liftM r : Action σ α) := by
  constructor
  · intro s
    rw [run_liftM]
    exact hrefl s
  · intro s s' _
    rw [outcome_liftM, outcome_liftM]

theorem isQuery_pure (hrefl : ∀ s, R s s) (a : α) : IsQuery R (pure a : Action σ α) :=
  ⟨fun s => hrefl s, fun _ => rfl⟩

theorem isQuery_throw (hrefl : ∀ s, R s s) (e : Error) : IsQuery R (throw e : Action σ α) :=
  ⟨fun s => hrefl s, fun _ => rfl⟩

/-- The outcome of a query behind another is the one that it has in front of it. -/
theorem outcome_bind {x : Action σ α} {f : α → Action σ β} (hx : IsQuery R x)
    (hf : ∀ a, IsQuery R (f a)) (s : σ) :
    outcome (x >>= f) s = outcome x s >>= fun a => outcome (f a) s := by
  have hkept := hx.kept s
  rw [outcome, outcome, run_bind]
  generalize run x s = r at hkept ⊢
  obtain ⟨r, s'⟩ := r
  cases r with
  | error e => rfl
  | ok a => exact (hf a).outcome_eq hkept

/-- Queries in a row are a query. -/
theorem IsQuery.bind (htrans : ∀ s s' s'', R s s' → R s' s'' → R s s'') {x : Action σ α}
    {f : α → Action σ β} (hx : IsQuery R x) (hf : ∀ a, IsQuery R (f a)) : IsQuery R (x >>= f) := by
  constructor
  · intro s
    have hkept := hx.kept s
    rw [run_bind]
    generalize run x s = r at hkept ⊢
    obtain ⟨r, s'⟩ := r
    cases r with
    | error e => exact hkept
    | ok a => exact htrans _ _ _ hkept ((hf a).kept s')
  · intro s s' h
    rw [outcome_bind hx hf, outcome_bind hx hf, hx.outcome_eq h]
    cases outcome x s with
    | error e => rfl
    | ok a => exact (hf a).outcome_eq h

/-- A query for every member of a list is a query. -/
theorem IsQuery.mapM {γ : Type} (hrefl : ∀ s, R s s)
    (htrans : ∀ s s' s'', R s s' → R s' s'' → R s s'') {f : γ → Action σ α}
    (hf : ∀ x, IsQuery R (f x)) (l : List γ) : IsQuery R (l.mapM f) := by
  induction l with
  | nil => exact isQuery_pure hrefl []
  | cons x l ih =>
    rw [List.mapM_cons]
    exact (hf x).bind htrans fun a => ih.bind htrans fun rest => isQuery_pure hrefl (a :: rest)

/-- A query for every member of a list, one after the other, is a query. -/
theorem IsQuery.forM {γ : Type} (hrefl : ∀ s, R s s)
    (htrans : ∀ s s' s'', R s s' → R s' s'' → R s s'') {f : γ → Action σ Unit}
    (hf : ∀ x, IsQuery R (f x)) (l : List γ) : IsQuery R (l.forM f) := by
  induction l with
  | nil => exact isQuery_pure hrefl ()
  | cons x l ih => exact (hf x).bind htrans fun _ => ih

/-- A query with respect to equality leaves its state as it is. -/
theorem IsQuery.run_eq {act : Action σ α} (h : IsQuery Eq act) (s : σ) :
    run act s = (outcome act s, s) :=
  Prod.ext rfl (h.kept s).symm

/-! ## Actions under an invariant -/

/-- An action that keeps an invariant; its values and its errors are of the given kinds. -/
def Ends (inv : σ → Prop) (post : α → Prop) (fault : Error → Prop) (act : Action σ α) : Prop :=
  ∀ s, inv s → inv (run act s).2 ∧ (∀ a, (run act s).1 = .ok a → post a) ∧
    ∀ e, (run act s).1 = .error e → fault e

section Ends

variable {inv : σ → Prop} {post : α → Prop} {post' : β → Prop} {fault : Error → Prop}

theorem ends_pure {a : α} (h : post a) : Ends inv post fault (pure a) := by
  refine fun s hs => ⟨hs, fun b hb => ?_, fun e he => ?_⟩
  · cases hb
    exact h
  · cases he

theorem ends_throw {e : Error} (h : fault e) : Ends inv post fault (throw e : Action σ α) := by
  refine fun s hs => ⟨hs, fun b hb => ?_, fun e' he => ?_⟩
  · cases hb
  · cases he
    exact h

theorem ends_get : Ends inv inv fault (get : Action σ σ) := by
  refine fun s hs => ⟨hs, fun b hb => ?_, fun e he => ?_⟩
  · cases hb
    exact hs
  · cases he

/-- A result that is looked at. -/
theorem ends_liftM {r : Result α} (hok : ∀ a, r = .ok a → post a)
    (herror : ∀ e, r = .error e → fault e) : Ends inv post fault (liftM r) := by
  cases r with
  | ok a => exact ends_pure (hok a rfl)
  | error e => exact ends_throw (herror e rfl)

/-- A result that is looked at and known to be a success. -/
theorem ends_result {r : Result α} (h : ∃ a, r = .ok a ∧ post a) : Ends inv post fault (liftM r) := by
  obtain ⟨a, rfl, ha⟩ := h
  exact ends_pure ha

/-- Steps that keep an invariant one by one do so in a row. -/
theorem Ends.bind {x : Action σ α} {f : α → Action σ β} (hx : Ends inv post fault x)
    (hf : ∀ a, post a → Ends inv post' fault (f a)) : Ends inv post' fault (x >>= f) := by
  intro s hs
  obtain ⟨hkept, hok, herror⟩ := hx s hs
  rw [run_bind]
  generalize run x s = r at hkept hok herror ⊢
  obtain ⟨r, s'⟩ := r
  cases r with
  | error e =>
    refine ⟨hkept, fun b hb => ?_, fun e' he => ?_⟩
    · cases hb
    · cases he
      exact herror e rfl
  | ok a => exact hf a (hok a rfl) s' hkept

/-- A value that is changed on the way out. -/
theorem Ends.map {x : Action σ α} (hx : Ends inv post fault x) {f : α → β}
    (hf : ∀ a, post a → post' (f a)) : Ends inv post' fault (f <$> x) := by
  rw [map_eq_pure_bind]
  exact hx.bind fun a ha => ends_pure (hf a ha)

/-- More errors may be allowed. -/
theorem Ends.weaken {fault' : Error → Prop} {x : Action σ α} (hx : Ends inv post fault x)
    (hfault : ∀ e, fault e → fault' e) : Ends inv post fault' x := fun s hs =>
  (hx s hs).imp_right (And.imp_right fun herror e he => hfault e (herror e he))

/-- Errors that are renamed on the way out. -/
theorem Ends.adapt {rename : Error → Error} {x : Action σ α}
    (hx : Ends inv post (fun e => fault (rename e)) x) :
    Ends inv post fault (ExceptT.adapt rename x) := by
  intro s hs
  obtain ⟨hkept, hok, herror⟩ := hx s hs
  rw [run_adapt]
  refine ⟨hkept, fun a ha => ?_, fun e he => ?_⟩
  · exact hok a (mapError_eq_ok.1 ha)
  · dsimp only at he
    cases hrun : (run x s).1 with
    | ok a =>
      rw [hrun] at he
      cases he
    | error e' =>
      rw [hrun] at he
      cases he
      exact herror e' hrun

/-- A query that succeeds does so in all related states. -/
theorem IsQuery.ends (htrans : ∀ s s' s'', R s s' → R s' s'' → R s s'') {x : Action σ α}
    (hx : IsQuery R x) {s : σ} (h : ∃ a, outcome x s = .ok a ∧ post a) :
    Ends (R s) post fault x := by
  obtain ⟨a, ha, hpost⟩ := h
  intro s' hs'
  have houtcome : (run x s').1 = .ok a := (hx.outcome_eq hs').trans ha
  rw [houtcome]
  refine ⟨htrans _ _ _ hs' (hx.kept s'), fun b hb => ?_, fun e he => ?_⟩
  · cases hb
    exact hpost
  · cases he

/-- An action without errors succeeds. -/
theorem Ends.exists_run {x : Action σ α} (h : Ends inv post (fun _ => False) x) {s : σ} (hs : inv s) :
    ∃ a s', run x s = (.ok a, s') ∧ post a ∧ inv s' := by
  obtain ⟨hkept, hok, herror⟩ := h s hs
  cases hrun : (run x s).1 with
  | error e => exact (herror e hrun).elim
  | ok a => exact ⟨a, (run x s).2, Prod.ext hrun rfl, hok a hrun, hkept⟩

end Ends

/-! ## Actions in step -/

/-- Results that are the same error, or two values that are related. -/
inductive Matches (Q : α → β → Prop) : Result α → Result β → Prop where
  | error (e : Error) : Matches Q (.error e) (.error e)
  | ok {a : α} {b : β} (h : Q a b) : Matches Q (.ok a) (.ok b)

theorem matches_eq_iff {x y : Result α} : Matches Eq x y ↔ x = y := by
  constructor
  · intro h
    cases h with
    | error e => rfl
    | ok h => rw [h]
  · rintro rfl
    cases x with
    | error e => exact .error e
    | ok a => exact .ok rfl

/-- Two actions that on related states have matching outcomes and leave related states. -/
def InStep (R : σ → σ → Prop) (Q : α → β → Prop) (x : Action σ α) (y : Action σ β) : Prop :=
  ∀ s s', R s s' → Matches Q (run x s).1 (run y s').1 ∧ R (run x s).2 (run y s').2

section InStep

variable {Q : α → β → Prop} {γ δ : Type} {P : γ → δ → Prop}

theorem inStep_pure {a : α} {b : β} (h : Q a b) : InStep R Q (pure a) (pure b) :=
  fun _ _ hs => ⟨.ok h, hs⟩

theorem inStep_liftM {x : Result α} {y : Result β} (h : Matches Q x y) :
    InStep R Q (liftM x : Action σ α) (liftM y : Action σ β) := by
  intro s s' hs
  rw [run_liftM, run_liftM]
  exact ⟨h, hs⟩

/-- A result that is looked at keeps actions in step. -/
theorem inStep_result (r : Result α) : InStep R Eq (liftM r : Action σ α) (liftM r) :=
  inStep_liftM (matches_eq_iff.2 rfl)

/-- Steps that are in step one by one are so in a row. -/
theorem InStep.bind {x : Action σ α} {y : Action σ β} {f : α → Action σ γ} {g : β → Action σ δ}
    (hxy : InStep R Q x y) (hfg : ∀ a b, Q a b → InStep R P (f a) (g b)) :
    InStep R P (x >>= f) (y >>= g) := by
  intro s s' hs
  obtain ⟨hanswer, hkept⟩ := hxy s s' hs
  rw [run_bind, run_bind]
  generalize run x s = r at hanswer hkept ⊢
  generalize run y s' = r' at hanswer hkept ⊢
  obtain ⟨r, t⟩ := r
  obtain ⟨r', t'⟩ := r'
  cases hanswer with
  | error e => exact ⟨.error e, hkept⟩
  | ok h => exact hfg _ _ h t t' hkept

/-- An action in step with itself gives one value, with which both runs go on. -/
theorem InStep.bind_self {x : Action σ α} {f : α → Action σ γ} {g : α → Action σ δ}
    (hx : InStep R Eq x x) (hfg : ∀ a, InStep R P (f a) (g a)) : InStep R P (x >>= f) (x >>= g) := by
  refine hx.bind ?_
  rintro a _ rfl
  exact hfg a

/-- Both runs go on with the value of a result, or end with its error. -/
theorem inStep_result_bind {r : Result α} {f : α → Action σ γ} {g : α → Action σ δ}
    (hfg : ∀ a, r = .ok a → InStep R P (f a) (g a)) :
    InStep R P (liftM r >>= f) (liftM r >>= g) := by
  cases r with
  | error e =>
    have hend : Matches (fun (_ _ : α) => False) (.error e) (.error e) := .error e
    exact (inStep_liftM hend).bind fun _ _ => False.elim
  | ok a => exact hfg a rfl

/-- Renamed errors of actions in step are the same. -/
theorem InStep.adapt (rename : Error → Error) {x : Action σ α} {y : Action σ β}
    (h : InStep R Q x y) : InStep R Q (ExceptT.adapt rename x) (ExceptT.adapt rename y) := by
  intro s s' hs
  obtain ⟨hanswer, hkept⟩ := h s s' hs
  rw [run_adapt, run_adapt]
  refine ⟨?_, hkept⟩
  dsimp only
  generalize (run x s).1 = r at hanswer ⊢
  generalize (run y s').1 = r' at hanswer ⊢
  cases hanswer with
  | error e => exact .error _
  | ok h => exact .ok h

/-- For every member of a list in step: the values are equal, and have a property that each of them
has. -/
theorem InStep.mapM {Q : α → Prop} {f : γ → Action σ α} {l : List γ}
    (hf : ∀ c ∈ l, InStep R (fun a b => a = b ∧ Q a) (f c) (f c)) :
    InStep R (fun as bs => as = bs ∧ ∀ a ∈ as, Q a) (l.mapM f) (l.mapM f) := by
  induction l with
  | nil => exact inStep_pure ⟨rfl, List.forall_mem_nil _⟩
  | cons c l ih =>
    obtain ⟨hc, hl⟩ := List.forall_mem_cons.1 hf
    rw [List.mapM_cons]
    refine hc.bind ?_
    rintro a _ ⟨rfl, ha⟩
    refine (ih hl).bind ?_
    rintro rest _ ⟨rfl, hrest⟩
    exact inStep_pure ⟨rfl, List.forall_mem_cons.2 ⟨ha, hrest⟩⟩

theorem InStep.forM {f : γ → Action σ Unit} {l : List γ} (hf : ∀ c ∈ l, InStep R Eq (f c) (f c)) :
    InStep R Eq (l.forM f) (l.forM f) := by
  induction l with
  | nil => exact inStep_pure rfl
  | cons c l ih =>
    obtain ⟨hc, hl⟩ := List.forall_mem_cons.1 hf
    exact hc.bind_self fun _ => ih hl

/-- Actions in step with equal values have equal outcomes. -/
theorem InStep.outcome_eq {x y : Action σ α} (h : InStep R Eq x y) {s s' : σ} (hs : R s s') :
    outcome x s = outcome y s' :=
  matches_eq_iff.1 (h s s' hs).1

end InStep

end Action

end ChunkedArray
