import Mathlib.Data.Set.Finite.Basic
import Mathlib.Order.WellFounded

/-! Who waits for whom, as a relation that changes at one participant at a time. A
cycle can appear only when one that did not wait begins to wait, and without a
cycle finitely many participants do not all wait for each other. -/
namespace SignalSlot.WaitGraph
open Relation

variable {α : Type*} {r r' : α → α → Prop}

def Acyclic (r : α → α → Prop) : Prop := ∀ a, ¬ TransGen r a a

theorem acyclicKept (acyclic : Acyclic r) (old : ∀ a b c, r' a b → r' b c → r a b) : Acyclic r' := by
  have path : ∀ a b, TransGen r' a b → ∀ c, r' b c → TransGen r a b := by
    intro a b walk
    induction walk with
    | single edge => exact fun c next => .single (old _ _ c edge next)
    | tail _ edge ih => exact fun c next => (ih _ edge).tail (old _ _ c edge next)
  intro a cycle
  obtain ⟨c,first,_⟩ := TransGen.head'_iff.mp cycle
  exact acyclic a (path a a cycle c first)

theorem reachFirst {a t : α} (walk : ReflTransGen r a t) :
    ReflTransGen (fun a b => a ≠ t ∧ r a b) a t := by
  induction walk using ReflTransGen.head_induction_on with
  | refl => exact .refl
  | @head a b edge _ ih =>
    by_cases here : a = t
    · subst here
      exact .refl
    · exact .head ⟨here,edge⟩ ih

theorem avoidOrVisit (t : α) {a b : α} (walk : TransGen r a b) :
    TransGen (fun a b => a ≠ t ∧ r a b) a b ∨ ReflTransGen r a t ∧ TransGen r t b := by
  induction walk with
  | @single b edge =>
    by_cases here : a = t
    · subst here
      exact .inr ⟨.refl,.single edge⟩
    · exact .inl (.single ⟨here,edge⟩)
  | @tail b c walk edge ih =>
    rcases ih with avoids | ⟨before,after⟩
    · by_cases here : b = t
      · subst here
        exact .inr ⟨walk.to_reflTransGen,.single edge⟩
      · exact .inl (avoids.tail ⟨here,edge⟩)
    · exact .inr ⟨before,after.tail edge⟩

theorem acyclicOpened {t : α} (acyclic : Acyclic r) (old : ∀ a b, a ≠ t → r' a b → r a b)
    (opens : ∀ b, r' t b → ¬ ReflTransGen r b t) : Acyclic r' := by
  have less : (fun a b => a ≠ t ∧ r' a b) ≤ r := fun a b edge => old a b edge.1 edge.2
  intro a cycle
  rcases avoidOrVisit t cycle with avoids | ⟨before,after⟩
  · exact acyclic a (TransGen.mono less a a avoids)
  · obtain ⟨b,first,back⟩ := TransGen.head'_iff.mp (after.trans_left before)
    exact opens b first (ReflTransGen.mono less b t (reachFirst back))

theorem cycleWaits {t : α} (cycle : TransGen r t t) :
    ∃ among : Set α, t ∈ among ∧ ∀ a ∈ among, ∃ b ∈ among, r a b := by
  refine ⟨{ a | TransGen r t a ∧ TransGen r a t },⟨cycle,cycle⟩,fun a mem => ?_⟩
  obtain ⟨there,onward⟩ := mem
  obtain ⟨b,edge,back⟩ := TransGen.head'_iff.mp onward
  exact ⟨b,⟨there.tail edge,TransGen.trans_right back cycle⟩,edge⟩

theorem acyclicEnds [Finite α] (acyclic : Acyclic r) {among : Set α} (nonempty : among.Nonempty) :
    ∃ a ∈ among, ∀ b ∈ among, ¬ r a b := by
  have irrefl : Std.Irrefl (fun a b => TransGen r b a) := ⟨acyclic⟩
  have trans : IsTrans α (fun a b => TransGen r b a) := ⟨fun _ _ _ ab bc => bc.trans ab⟩
  have founded : WellFounded (fun a b => TransGen r b a) := Finite.wellFounded_of_trans_of_irrefl _
  obtain ⟨a,mem,last⟩ := founded.has_min among nonempty
  exact ⟨a,mem,fun b inside edge => last b inside (.single edge)⟩

end SignalSlot.WaitGraph
