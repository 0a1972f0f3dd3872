import SignalSlot.Library.GuardedRun

/-! Two machines, one below the other. A step of the lower one is matched by a run of
the upper one, of no step at all when the upper machine does not see it. What holds in
every state of the upper machine then holds in every related state of the lower one. -/
namespace SignalSlot.Simulation
open GuardedRun

variable {σ τ α β : Type*} {upper : σ → α → Option σ} {lower : τ → β → Option τ} {R : σ → τ → Prop}

def Simulates (upper : σ → α → Option σ) (lower : τ → β → Option τ) (R : σ → τ → Prop) : Prop :=
  ∀ s l b next, R s l → lower l b = some next → ∃ as out, run upper s as = some out ∧ R out next

theorem runAppend {s before after} :
    run upper s (before ++ after) = (run upper s before).bind (fun last => run upper last after) := by
  induction before generalizing s with
  | nil => rfl
  | cons a rest ih =>
    simp only [List.cons_append,run,bind]
    cases upper s a with
    | none => rfl
    | some next => exact ih

theorem runSingle {s a next} (taken : upper s a = some next) : run upper s [a] = some next :=
  runCons.mpr ⟨next,taken,rfl⟩

theorem simulatesRun (sim : Simulates upper lower R) {s l bs out} (related : R s l)
    (ran : run lower l bs = some out) : ∃ as last, run upper s as = some last ∧ R last out := by
  induction bs generalizing s l with
  | nil =>
    cases Option.some.inj ran
    exact ⟨[],s,rfl,related⟩
  | cons b rest ih =>
    obtain ⟨next,taken,ran⟩ := runCons.mp ran
    obtain ⟨first,mid,matched,related⟩ := sim s l b next related taken
    obtain ⟨later,last,matched',related⟩ := ih related ran
    refine ⟨first ++ later,last,?_,related⟩
    rw [runAppend,matched]
    exact matched'

theorem everyStateSimulated (sim : Simulates upper lower R) {P : σ → Prop} {Q : τ → Prop}
    (shown : ∀ s l, R s l → P s → Q l) {s l} (related : R s l)
    (every : ∀ as, EveryState upper P s as) (bs : List β) : EveryState lower Q l bs := by
  apply everyStatePrefix.mpr
  intro before after out _ ran
  obtain ⟨as,last,matched,related⟩ := simulatesRun sim related ran
  exact shown last out related (everyStatePrefix.mp (every as) as [] last (List.append_nil as).symm matched)

end SignalSlot.Simulation
