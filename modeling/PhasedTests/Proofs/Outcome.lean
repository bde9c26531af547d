import Mathlib.Data.List.Forall2

/-!
# Successful and failed steps

A sequence of steps that may fail succeeds only if each of them does, and fails only as one of them
does.
-/

namespace PhasedTests

variable {ε α β : Type}

instance decideOk : (step : Except ε α) → Decidable (∃ a, step = .ok a)
  | .ok a => isTrue ⟨a, rfl⟩
  | .error _ => isFalse fun ⟨_, hdone⟩ => nomatch hdone

/-- If a step and its continuation succeed together, both of them succeed. -/
theorem ok_of_bind {step : Except ε α} {next : α → Except ε β} {b : β}
    (hdone : (step >>= next) = .ok b) : ∃ a, step = .ok a ∧ next a = .ok b := by
  cases step with
  | error e => cases hdone
  | ok a => exact ⟨a, rfl, hdone⟩

/-- If a step and its continuation fail together, one of them fails. -/
theorem error_of_bind {step : Except ε α} {next : α → Except ε β} {e : ε}
    (hfailed : (step >>= next) = .error e) :
    step = .error e ∨ ∃ a, step = .ok a ∧ next a = .error e := by
  cases step with
  | error e' => exact Or.inl (congrArg Except.error (Except.error.inj hfailed))
  | ok a => exact Or.inr ⟨a, rfl, hfailed⟩

/-- A result that is passed through a function comes from a success. -/
theorem ok_of_map {step : Except ε α} {f : α → β} {b : β} (hdone : step.map f = .ok b) :
    ∃ a, step = .ok a ∧ f a = b := by
  cases step with
  | error e => cases hdone
  | ok a => exact ⟨a, rfl, Except.ok.inj hdone⟩

/-- A result that is passed through a function changes no failure. -/
theorem error_map_iff {step : Except ε α} {f : α → β} {e : ε} :
    step.map f = .error e ↔ step = .error e := by
  cases step <;> simp [Except.map]

/-- A step whose error is renamed succeeds only if the step does. -/
theorem ok_of_mapError {δ : Type} {step : Except ε α} {f : ε → δ} {a : α}
    (hdone : step.mapError f = .ok a) : step = .ok a := by
  cases step with
  | error e => cases hdone
  | ok a' => exact congrArg Except.ok (Except.ok.inj hdone)

/-- Steps over a list succeed together only if the first and all others do. -/
theorem ok_of_mapM_cons {step : α → Except ε β} {item : α} {items : List α} {results : List β}
    (hdone : (item :: items).mapM step = .ok results) :
    ∃ first later, step item = .ok first ∧ items.mapM step = .ok later ∧
      results = first :: later := by
  rw [List.mapM_cons] at hdone
  obtain ⟨first, hfirst, hdone⟩ := ok_of_bind hdone
  obtain ⟨later, hlater, hdone⟩ := ok_of_bind hdone
  exact ⟨first, later, hfirst, hlater, (Except.ok.inj hdone).symm⟩

/-- Steps over a list succeed together only if each of them does. -/
theorem exists_ok_of_mapM {step : α → Except ε β} {items : List α} {results : List β}
    (hdone : items.mapM step = .ok results) {item : α} (hitem : item ∈ items) :
    ∃ result, step item = .ok result := by
  induction items generalizing results with
  | nil => cases hitem
  | cons first rest ih =>
    obtain ⟨result, later, hresult, hlater, -⟩ := ok_of_mapM_cons hdone
    rcases List.mem_cons.mp hitem with rfl | hitem
    · exact ⟨result, hresult⟩
    · exact ih hlater hitem

/-- Steps over a list that agree on it have the same outcome. -/
theorem mapM_congr {step other : α → Except ε β} {items : List α}
    (hsame : ∀ item ∈ items, step item = other item) : items.mapM step = items.mapM other := by
  induction items with
  | nil => rfl
  | cons item items ih =>
    obtain ⟨hfirst, hrest⟩ := List.forall_mem_cons.mp hsame
    rw [List.mapM_cons, List.mapM_cons, hfirst, ih hrest]

/-- Steps over a list succeed exactly when each of them does. -/
theorem mapM_ok_iff {step : α → Except ε β} {items : List α} {results : List β} :
    items.mapM step = .ok results ↔
      List.Forall₂ (fun item result => step item = .ok result) items results := by
  constructor
  · intro hdone
    induction items generalizing results with
    | nil =>
      obtain rfl := Except.ok.inj hdone
      exact .nil
    | cons item items ih =>
      obtain ⟨first, later, hfirst, hlater, rfl⟩ := ok_of_mapM_cons hdone
      exact .cons hfirst (ih hlater)
  · intro hsteps
    induction hsteps with
    | nil => rfl
    | cons hfirst _ ih =>
      rw [List.mapM_cons, hfirst, ih]
      rfl

/-- Steps over a list fail as the first of them that fails. -/
theorem mapM_error_iff {step : α → Except ε β} {items : List α} {e : ε} :
    items.mapM step = .error e ↔ ∃ earlier item later, items = earlier ++ item :: later ∧
      (∀ other ∈ earlier, ∃ result, step other = .ok result) ∧ step item = .error e := by
  constructor
  · intro hfailed
    induction items with
    | nil => cases hfailed
    | cons item items ih =>
      rw [List.mapM_cons] at hfailed
      rcases error_of_bind hfailed with hfirst | ⟨first, hfirst, hfailed⟩
      · exact ⟨[], item, items, rfl, List.forall_mem_nil _, hfirst⟩
      · rcases error_of_bind hfailed with hlater | ⟨later, -, hfailed⟩
        · obtain ⟨earlier, failing, later, rfl, hearlier, hitem⟩ := ih hlater
          exact ⟨item :: earlier, failing, later, rfl,
            List.forall_mem_cons.mpr ⟨⟨first, hfirst⟩, hearlier⟩, hitem⟩
        · cases hfailed
  · rintro ⟨earlier, item, later, rfl, hearlier, hitem⟩
    induction earlier with
    | nil =>
      rw [List.nil_append, List.mapM_cons, hitem]
      rfl
    | cons other earlier ih =>
      obtain ⟨⟨result, hresult⟩, hearlier⟩ := List.forall_mem_cons.mp hearlier
      rw [List.cons_append, List.mapM_cons, hresult, ih hearlier]
      rfl

/-- Steps that all succeed give the list of their results. -/
theorem mapM_ok {step : α → Except ε β} {f : α → β} {items : List α}
    (hstep : ∀ item ∈ items, step item = .ok (f item)) : items.mapM step = .ok (items.map f) := by
  induction items with
  | nil => rfl
  | cons item items ih =>
    rw [List.mapM_cons, hstep item List.mem_cons_self,
      ih (fun item hmem => hstep item (List.mem_cons_of_mem _ hmem))]
    rfl

/-- A fold of steps keeps what each of them keeps. -/
theorem foldlM_ok (Inv : β → Prop) {step : β → α → Except ε β} {items : List α} {start final : β}
    (hdone : items.foldlM step start = .ok final) (hstart : Inv start)
    (hstep : ∀ item ∈ items, ∀ before after, Inv before → step before item = .ok after →
      Inv after) : Inv final := by
  induction items generalizing start with
  | nil =>
    obtain rfl := Except.ok.inj hdone
    exact hstart
  | cons item items ih =>
    rw [List.foldlM_cons] at hdone
    obtain ⟨next, hfirst, hrest⟩ := ok_of_bind hdone
    refine ih hrest (hstep item List.mem_cons_self _ _ hstart hfirst) ?_
    exact fun item hmem => hstep item (List.mem_cons_of_mem _ hmem)

/-! ## Kinds of failures -/

/-- Every failure of a step is of this kind. -/
def FailsOnly (kind : ε → Prop) (step : Except ε α) : Prop :=
  ∀ e, step = .error e → kind e

variable {kind : ε → Prop}

/-- A success does not fail. -/
theorem failsOnly_ok (a : α) : FailsOnly kind (.ok a) :=
  fun _ hfailed => nomatch hfailed

/-- A failure of the kind fails only in this way. -/
theorem failsOnly_error {e : ε} (hkind : kind e) : FailsOnly kind (.error e : Except ε α) :=
  fun _ hfailed => Except.error.inj hfailed ▸ hkind

/-- A step that fails only in one way fails only in ways that this one implies. -/
theorem FailsOnly.imp {other : ε → Prop} {step : Except ε α} (hfails : FailsOnly kind step)
    (himp : ∀ e, kind e → other e) : FailsOnly other step :=
  fun e hfailed => himp e (hfails e hfailed)

/-- A function behind a step adds no failure. -/
theorem FailsOnly.map {step : Except ε α} (hfails : FailsOnly kind step) (f : α → β) :
    FailsOnly kind (step.map f) := by
  cases step with
  | error e => exact failsOnly_error (hfails e rfl)
  | ok a => exact failsOnly_ok (f a)

/-- A step whose error is renamed fails with a new name. -/
theorem failsOnly_mapError {δ : Type} {step : Except δ α} {f : δ → ε} (hkind : ∀ e, kind (f e)) :
    FailsOnly kind (step.mapError f) := by
  cases step with
  | error e => exact failsOnly_error (hkind e)
  | ok a => exact failsOnly_ok a

/-- A step and its continuation fail as one of them does. -/
theorem FailsOnly.bind {step : Except ε α} {next : α → Except ε β} (hfirst : FailsOnly kind step)
    (hnext : ∀ a, step = .ok a → FailsOnly kind (next a)) : FailsOnly kind (step >>= next) := by
  intro e hfailed
  rcases error_of_bind hfailed with hfailed | ⟨a, ha, hfailed⟩
  · exact hfirst e hfailed
  · exact hnext a ha e hfailed

/-- Steps over a list fail as one of them does. -/
theorem failsOnly_mapM {step : α → Except ε β} {items : List α}
    (hstep : ∀ item ∈ items, FailsOnly kind (step item)) : FailsOnly kind (items.mapM step) := by
  induction items with
  | nil => exact failsOnly_ok []
  | cons item items ih =>
    rw [List.mapM_cons]
    refine (hstep item List.mem_cons_self).bind fun first _ => ?_
    refine (ih fun other hmem => hstep other (List.mem_cons_of_mem _ hmem)).bind fun later _ => ?_
    exact failsOnly_ok (first :: later)

/-- A fold of steps fails as one of them does. -/
theorem failsOnly_foldlM {step : β → α → Except ε β} (hstep : ∀ b a, FailsOnly kind (step b a))
    (items : List α) (start : β) : FailsOnly kind (items.foldlM step start) := by
  induction items generalizing start with
  | nil => exact failsOnly_ok start
  | cons item items ih =>
    rw [List.foldlM_cons]
    exact (hstep start item).bind fun next _ => ih next

/-! ## Two runs -/

/-- Two steps fail with the same error, or both of them succeed and their results are related. -/
inductive Agree (R : α → β → Prop) : Except ε α → Except ε β → Prop where
  | ok {a : α} {b : β} (hrelated : R a b) : Agree R (.ok a) (.ok b)
  | error (e : ε) : Agree R (.error e) (.error e)

namespace Agree

variable {γ δ : Type} {R : α → β → Prop} {S : γ → δ → Prop} {first : Except ε α}
  {second : Except ε β}

/-- A step agrees with itself. -/
theorem refl {R : α → α → Prop} (hrefl : ∀ a, R a a) (step : Except ε α) : Agree R step step := by
  cases step with
  | ok a => exact .ok (hrefl a)
  | error e => exact .error e

/-- Steps that agree, with continuations that agree on their results, agree. -/
theorem bind {f : α → Except ε γ} {g : β → Except ε δ} (hagree : Agree R first second)
    (hnext : ∀ a b, first = .ok a → second = .ok b → R a b → Agree S (f a) (g b)) :
    Agree S (first >>= f) (second >>= g) := by
  cases hagree with
  | ok hrelated => exact hnext _ _ rfl rfl hrelated
  | error e => exact .error e

/-- Steps that agree up to one relation agree up to a weaker one. -/
theorem imp {S : α → β → Prop} (hagree : Agree R first second) (himp : ∀ a b, R a b → S a b) :
    Agree S first second := by
  cases hagree with
  | ok hrelated => exact .ok (himp _ _ hrelated)
  | error e => exact .error e

/-- Steps over a list agree if they agree on each of its items. -/
theorem mapM {f : γ → Except ε α} {g : γ → Except ε β} {items : List γ}
    (hagree : ∀ item ∈ items, Agree R (f item) (g item)) :
    Agree (List.Forall₂ R) (items.mapM f) (items.mapM g) := by
  induction items with
  | nil => exact .ok .nil
  | cons item items ih =>
    obtain ⟨hitem, hitems⟩ := List.forall_mem_cons.mp hagree
    rw [List.mapM_cons, List.mapM_cons]
    refine hitem.bind fun a b _ _ hfirst => (ih hitems).bind fun as bs _ _ hlater => ?_
    exact .ok (.cons hfirst hlater)

end Agree

/-- Two steps fail with the same error, or both of them succeed. -/
def FailAlike (first : Except ε α) (second : Except ε β) : Prop :=
  Agree (fun _ _ => True) first second

/-- Two successes fail alike. -/
theorem failAlike_ok (a : α) (b : β) : FailAlike (.ok a : Except ε α) (.ok b) :=
  .ok trivial

/-- A step fails like itself. -/
theorem failAlike_self (step : Except ε α) : FailAlike step step :=
  .refl (fun _ => trivial) step

/-- Steps that agree fail alike. -/
theorem Agree.failAlike {R : α → β → Prop} {first : Except ε α} {second : Except ε β}
    (hagree : Agree R first second) : FailAlike first second :=
  hagree.imp fun _ _ _ => trivial

end PhasedTests
