import Mathlib.Data.List.Lex

/-! Stacks of bounded depth, compared from the bottom up. A machine that calls and
returns ends if every step lowers its stack: a call may put anything on top of a
level that it has lowered, and the bound keeps this from going on for ever. -/
namespace SignalSlot.StackOrder

variable {α : Type*} {r : α → α → Prop}

def Below (r : α → α → Prop) (bound : Nat) (a b : List α) : Prop := List.Lex r a b ∧ a.length ≤ bound

theorem emptyAccessible (bound : Nat) : Acc (Below r bound) [] := by
  constructor
  rintro a ⟨less,_⟩
  cases less

theorem belowWellFounded (founded : WellFounded r) (bound : Nat) : WellFounded (Below r bound) := by
  induction bound with
  | zero =>
    refine ⟨fun b => ⟨b,fun a => ?_⟩⟩
    rintro ⟨_,short⟩
    rw [List.length_eq_zero_iff.mp (Nat.le_zero.mp short)]
    exact emptyAccessible 0
  | succ bound deeper =>
    -- The bottom level decides first, and above an equal one there is one level less.
    have levels (x : α) : ∀ rest, Acc (Below r (bound+1)) (x::rest) := by
      induction x using founded.induction with
      | _ x lower =>
        intro rest
        induction rest using deeper.induction with
        | _ rest above =>
          constructor
          rintro a ⟨less,short⟩
          cases less with
          | nil => exact emptyAccessible _
          | rel smaller => exact lower _ smaller _
          | cons less => exact above _ ⟨less,Nat.le_of_succ_le_succ short⟩
    refine ⟨fun b => ?_⟩
    cases b with
    | nil => exact emptyAccessible _
    | cons x rest => exact levels x rest

theorem endsOfStack {σ : Type*} {next : σ → σ → Prop} (founded : WellFounded r) (stack : σ → List α)
    (lowers : ∀ s s', next s' s → List.Lex r (stack s') (stack s)) (bound : Nat) :
    WellFounded (fun s' s => next s' s ∧ (stack s').length ≤ bound) :=
  Subrelation.wf (fun {s' s} taken => ⟨lowers s s' taken.1,taken.2⟩)
    (InvImage.wf stack (belowWellFounded founded bound))

end SignalSlot.StackOrder
