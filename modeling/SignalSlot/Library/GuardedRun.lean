import Mathlib.Data.List.Basic

/-! Runs of a machine whose step is a partial function of the state and an
action. `none` says that the action is not possible in the state, and a run that
reaches such an action ends there. Only steps that are taken are constrained: a
property of every state goes with a condition on every step that is taken. -/
namespace SignalSlot.GuardedRun

variable {σ α : Type*} {step : σ → α → Option σ}

def run (step : σ → α → Option σ) : σ → List α → Option σ
  | s,[] => some s
  | s,a::rest => do
      let next ← step s a
      run step next rest

def EveryState (step : σ → α → Option σ) (P : σ → Prop) : σ → List α → Prop
  | s,[] => P s
  | s,a::rest => P s ∧ ∀ next, step s a = some next → EveryState step P next rest

def EveryStep (step : σ → α → Option σ) (ok : σ → α → Prop) : σ → List α → Prop
  | _,[] => True
  | s,a::rest => ∀ next, step s a = some next → ok s a ∧ EveryStep step ok next rest

instance decideEveryState (step : σ → α → Option σ) (P : σ → Prop) [DecidablePred P] (s : σ) (as : List α) :
    Decidable (EveryState step P s as) := match as with
  | [] => inferInstanceAs (Decidable (P s))
  | a::rest => match taken : step s a with
    | none => decidable_of_iff (P s) (by simp [EveryState,taken])
    | some next =>
        have := decideEveryState step P next rest
        decidable_of_iff (P s ∧ EveryState step P next rest) (by simp [EveryState,taken])

instance decideEveryStep (step : σ → α → Option σ) (ok : σ → α → Prop)
    [∀ s a, Decidable (ok s a)] (s : σ) (as : List α) : Decidable (EveryStep step ok s as) :=
  match as with
  | [] => inferInstanceAs (Decidable True)
  | a::rest => match taken : step s a with
    | none => decidable_of_iff True (by simp [EveryStep,taken])
    | some next =>
        have := decideEveryStep step ok next rest
        decidable_of_iff (ok s a ∧ EveryStep step ok next rest) (by simp [EveryStep,taken])

theorem runCons {s a rest out} :
    run step s (a::rest) = some out ↔ ∃ next, step s a = some next ∧ run step next rest = some out := by
  simp only [run,bind,Option.bind_eq_some_iff]

theorem runSnoc {s before a} :
    run step s (before ++ [a]) = (run step s before).bind (fun last => step last a) := by
  induction before generalizing s with
  | nil => cases taken : step s a <;> simp [run,taken]
  | cons b rest ih =>
    simp only [List.cons_append,run,bind]
    cases step s b with
    | none => rfl
    | some next => exact ih

theorem everyStateHere {P : σ → Prop} {s as} (h : EveryState step P s as) : P s := by
  cases as with
  | nil => exact h
  | cons a rest => exact h.1

theorem everyStateImp {P Q : σ → Prop} (weaker : ∀ s, P s → Q s) {s as}
    (h : EveryState step P s as) : EveryState step Q s as := by
  induction as generalizing s with
  | nil => exact weaker s h
  | cons a rest ih => exact ⟨weaker s h.1,fun next taken => ih (h.2 next taken)⟩

theorem everyStatePrefix {P : σ → Prop} {s as} :
    EveryState step P s as ↔
      ∀ before after out, as = before ++ after → run step s before = some out → P out := by
  induction as generalizing s with
  | nil =>
    constructor
    · intro here before after out split ran
      obtain ⟨rfl,rfl⟩ := List.append_eq_nil_iff.mp split.symm
      cases Option.some.inj ran
      exact here
    · intro all
      exact all [] [] s rfl rfl
  | cons a rest ih =>
    constructor
    · rintro ⟨here,later⟩ before after out split ran
      cases before with
      | nil => cases Option.some.inj ran; exact here
      | cons b before =>
        obtain ⟨rfl,tailSplit⟩ := List.cons.inj split
        obtain ⟨next,taken,ran⟩ := runCons.mp ran
        exact ih.mp (later next taken) before after out tailSplit ran
    · intro all
      refine ⟨all [] (a::rest) s rfl rfl,fun next taken => ih.mpr ?_⟩
      intro before after out split ran
      exact all (a::before) after out (by rw [split]; rfl) (runCons.mpr ⟨next,taken,ran⟩)

theorem everyStateOfSteps {inv : σ → Prop} {ok : σ → α → Prop}
    (keeps : ∀ s a next, inv s → ok s a → step s a = some next → inv next)
    {s as} (start : inv s) (steps : EveryStep step ok s as) : EveryState step inv s as := by
  induction as generalizing s with
  | nil => exact start
  | cons a rest ih =>
    refine ⟨start,fun next taken => ?_⟩
    obtain ⟨permitted,later⟩ := steps next taken
    exact ih (keeps s a next start permitted taken) later

theorem everyStepImp {ok ok' : σ → α → Prop}
    (weaker : ∀ s a next, step s a = some next → ok s a → ok' s a) {s as}
    (h : EveryStep step ok s as) : EveryStep step ok' s as := by
  induction as generalizing s with
  | nil => trivial
  | cons a rest ih =>
    intro next taken
    obtain ⟨here,later⟩ := h next taken
    exact ⟨weaker s a next taken here,ih later⟩

theorem everyStepTrue (s : σ) (as : List α) : EveryStep step (fun _ _ => True) s as := by
  induction as generalizing s with
  | nil => trivial
  | cons a rest ih => exact fun next _ => ⟨trivial,ih next⟩

theorem everyStateOfInvariant {inv : σ → Prop}
    (keeps : ∀ s a next, inv s → step s a = some next → inv next)
    {s} (start : inv s) (as : List α) : EveryState step inv s as :=
  everyStateOfSteps (fun s a next h _ taken => keeps s a next h taken) start (everyStepTrue s as)

/-- `inv` carries the visible property `P` along permitted steps, and a step that is
not permitted loses `P` at once. -/
theorem everyStateExact {inv P : σ → Prop} {ok : σ → α → Prop}
    (shown : ∀ s, inv s → P s)
    (keeps : ∀ s a next, inv s → ok s a → step s a = some next → inv next)
    (needed : ∀ s a next, inv s → step s a = some next → P next → ok s a)
    {s} (start : inv s) (as : List α) : EveryState step P s as ↔ EveryStep step ok s as := by
  constructor
  · intro h
    induction as generalizing s with
    | nil => trivial
    | cons a rest ih =>
      intro next taken
      have permitted := needed s a next start taken (everyStateHere (h.2 next taken))
      exact ⟨permitted,ih (keeps s a next start permitted taken) (h.2 next taken)⟩
  · intro steps
    exact everyStateImp shown (everyStateOfSteps keeps start steps)

end SignalSlot.GuardedRun
