import Mathlib.Data.List.Dedup
import Mathlib.Data.List.Nodup

/-! Interleavings of the programs of any number of threads. A sequence of steps,
each marked with its thread, interleaves the programs if every thread finds its
own program in it, in order and complete. -/
namespace SignalSlot.Interleaving

variable {T α β : Type*} [DecidableEq T]

def ofThread (steps : List (T × α)) (t : T) : List α :=
  steps.filterMap (fun step => if step.1 = t then some step.2 else none)

def Interleaves (threads : T → List α) (steps : List (T × α)) : Prop :=
  ∀ t, ofThread steps t = threads t

def seen (f : α → Option β) (steps : List (T × α)) : List (T × β) :=
  steps.filterMap (fun step => (f step.2).map (fun b => (step.1,b)))

variable {threads : T → List α} {steps : List (T × α)} {f : α → Option β}

theorem seenOfThread (t : T) : ofThread (seen f steps) t = (ofThread steps t).filterMap f := by
  rw [ofThread,seen,ofThread,List.filterMap_filterMap,List.filterMap_filterMap]
  refine List.filterMap_congr (fun step _ => ?_)
  by_cases same : step.1 = t <;> cases image : f step.2 <;> simp [same,image]

theorem seenInterleaves (order : Interleaves threads steps) :
    Interleaves (fun t => (threads t).filterMap f) (seen f steps) := by
  intro t
  rw [seenOfThread,order t]

theorem interleavesMem (order : Interleaves threads steps) {t : T} {a : α} :
    (t,a) ∈ steps ↔ a ∈ threads t := by
  rw [← order t,ofThread,List.mem_filterMap]
  constructor
  · intro mem
    exact ⟨(t,a),mem,by simp⟩
  · rintro ⟨⟨u,b⟩,mem,same⟩
    obtain ⟨rfl,rfl⟩ : u = t ∧ b = a := by simpa using same
    exact mem

theorem interleavesNodup (order : Interleaves threads steps) (distinct : ∀ t, (threads t).Nodup) :
    steps.Nodup := by
  classical
  refine List.nodup_iff_count_le_one.mpr (fun ⟨t,a⟩ => ?_)
  have bound := List.nodup_iff_count_le_one.mp (distinct t) a
  rw [← order t] at bound
  refine Nat.le_trans (Nat.le_of_eq ?_) bound
  clear order bound
  induction steps with
  | nil => rfl
  | cons step rest ih =>
    obtain ⟨u,b⟩ := step
    by_cases same : u = t
    · subst same
      by_cases equal : b = a
      · simp only [ofThread,equal] at ih ⊢
        simpa using ih
      · simpa [ofThread,List.count_cons,equal] using ih
    · simpa [ofThread,List.count_cons,same] using ih

end SignalSlot.Interleaving
