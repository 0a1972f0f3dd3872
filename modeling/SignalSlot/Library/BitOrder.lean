import Mathlib.Data.Nat.Bitwise
import Mathlib.Order.Defs.Unbundled

/-! Numbers compared at their highest differing bit, and the interleaving of two
words. Comparing interleavings needs no interleaving: it is enough to see which
of the two words differs at the higher position. -/
namespace SignalSlot.BitOrder

theorem ltIffTopBit {a b : Nat} :
    a < b ↔ ∃ i, a.testBit i = false ∧ b.testBit i = true ∧ ∀ j, i < j → a.testBit j = b.testBit j := by
  constructor
  · intro less
    have different : a ^^^ b ≠ 0 := fun h => Nat.ne_of_lt less (Nat.xor_eq_zero_iff.mp h)
    obtain ⟨i,top,above⟩ := Nat.exists_most_significant_bit different
    have equal : ∀ j, i < j → a.testBit j = b.testBit j := by
      intro j h
      simpa [Nat.testBit_xor] using above j h
    rw [Nat.testBit_xor] at top
    cases ha : a.testBit i with
    | false => exact ⟨i,ha,by simpa [ha] using top,equal⟩
    | true =>
      have hb : b.testBit i = false := by simpa [ha] using top
      have greater := Nat.lt_of_testBit i hb ha (fun j h => (equal j h).symm)
      omega
  · rintro ⟨i,ha,hb,equal⟩
    exact Nat.lt_of_testBit i ha hb equal

theorem clearAbove {a i j : Nat} (bound : a < 2^i) (above : i ≤ j) : a.testBit j = false :=
  Nat.testBit_lt_two_pow (bound.trans_le (Nat.pow_le_pow_right Nat.two_pos above))

theorem agreeAbove {a c i j : Nat} (bound : a ^^^ c < 2^i) (above : i ≤ j) :
    a.testBit j = c.testBit j := by
  simpa [Nat.testBit_xor] using clearAbove bound above

def lowerTop (x y : Nat) : Prop := x < y ∧ x < x ^^^ y
instance (x y) : Decidable (lowerTop x y) := by unfold lowerTop; infer_instance

theorem lowerTopIff {x y : Nat} : lowerTop x y ↔ ∃ i, y.testBit i = true ∧ x < 2^i := by
  constructor
  · rintro ⟨less,below⟩
    obtain ⟨m,top,above⟩ := Nat.exists_most_significant_bit (n := y) (by omega)
    refine ⟨m,top,Nat.lt_pow_two_of_testBit x (fun j h => ?_)⟩
    have bound : y < 2^(m+1) := Nat.lt_pow_two_of_testBit y (fun i h => above i (by omega))
    rcases Nat.lt_or_eq_of_le h with higher | rfl
    · exact clearAbove (less.trans bound) higher
    · -- With the top bit of `y` set in `x` too, the exclusive or would be smaller than `x`.
      cases hx : x.testBit m with
      | false => rfl
      | true =>
        have smaller : x ^^^ y < x := by
          refine Nat.lt_of_testBit m (by simp [Nat.testBit_xor,hx,top]) hx (fun j h => ?_)
          simp [Nat.testBit_xor,above j h]
        omega
  · rintro ⟨i,top,bound⟩
    have clear : x.testBit i = false := Nat.testBit_lt_two_pow bound
    have left := Nat.ge_two_pow_of_testBit top
    have right := Nat.ge_two_pow_of_testBit (x := x ^^^ y) (i := i) (by simp [Nat.testBit_xor,clear,top])
    exact ⟨by omega,by omega⟩

theorem lowerTopXorComm {a b c d : Nat} (h : lowerTop (a ^^^ c) (b ^^^ d)) :
    lowerTop (c ^^^ a) (d ^^^ b) := by
  rwa [Nat.xor_comm c a,Nat.xor_comm d b]

def interleave : Nat → Nat → Nat → Nat
  | 0,_,_ => 0
  | width+1,a,b => 4*interleave width (a/2) (b/2) + 2*(a%2) + b%2

theorem interleaveLow (width a b i : Nat) :
    (interleave width a b).testBit (2*i) = (decide (i < width) && b.testBit i) := by
  induction width generalizing a b i with
  | zero => simp [interleave]
  | succ width ih =>
    cases i with
    | zero =>
      simp only [interleave,Nat.mul_zero,Nat.testBit_zero,Nat.zero_lt_succ,decide_true,Bool.true_and]
      congr 1
      apply propext
      omega
    | succ i =>
      have shift : interleave (width+1) a b / 2 / 2 = interleave width (a/2) (b/2) := by
        simp only [interleave]; omega
      rw [show 2*(i+1) = 2*i+1+1 by omega,Nat.testBit_succ,Nat.testBit_succ,shift,ih,Nat.testBit_succ]
      simp

theorem interleaveHigh (width a b i : Nat) :
    (interleave width a b).testBit (2*i+1) = (decide (i < width) && a.testBit i) := by
  induction width generalizing a b i with
  | zero => simp [interleave]
  | succ width ih =>
    cases i with
    | zero =>
      rw [Nat.testBit_succ]
      simp only [interleave,Nat.mul_zero,Nat.testBit_zero,Nat.zero_lt_succ,decide_true,Bool.true_and]
      congr 1
      apply propext
      omega
    | succ i =>
      have shift : interleave (width+1) a b / 2 / 2 = interleave width (a/2) (b/2) := by
        simp only [interleave]; omega
      rw [show 2*(i+1)+1 = (2*i+1)+1+1 by omega,Nat.testBit_succ,Nat.testBit_succ,shift,ih,Nat.testBit_succ]
      simp

section Words
variable {width a b c d : Nat}

theorem bitInside (bound : a < 2^width) {i : Nat} (set : a.testBit i = true) : i < width := by
  by_contra outside
  simp [clearAbove bound (Nat.le_of_not_lt outside)] at set

theorem equalInside (bounda : a < 2^width) (boundc : c < 2^width)
    (inside : ∀ i < width, a.testBit i = c.testBit i) : a = c := by
  refine Nat.eq_of_testBit_eq (fun i => ?_)
  rcases Nat.lt_or_ge i width with low | high
  · exact inside i low
  · rw [clearAbove bounda high,clearAbove boundc high]

theorem interleaveAgree {i : Nat} (high : ∀ j, i ≤ 2*j+1 → a.testBit j = c.testBit j)
    (low : ∀ j, i ≤ 2*j → b.testBit j = d.testBit j) (j : Nat) (above : i ≤ j) :
    (interleave width a b).testBit j = (interleave width c d).testBit j := by
  rcases Nat.even_or_odd' j with ⟨k,rfl | rfl⟩
  · rw [interleaveLow,interleaveLow,low k above]
  · rw [interleaveHigh,interleaveHigh,high k above]

theorem interleaveLtLow (hd : d < 2^width) (lower : lowerTop (a ^^^ c) (b ^^^ d)) (less : b < d) :
    interleave width a b < interleave width c d := by
  obtain ⟨j,hb,hdj,equal⟩ := ltIffTopBit.mp less
  obtain ⟨i,set,bound⟩ := lowerTopIff.mp lower
  have inside := bitInside hd hdj
  have order : i ≤ j := by
    by_contra outside
    simp [Nat.testBit_xor,equal i (by omega)] at set
  have agree : ∀ k, j ≤ k → a.testBit k = c.testBit k := fun k h => agreeAbove bound (order.trans h)
  refine Nat.lt_of_testBit (2*j) (by simp [interleaveLow,hb]) (by simp [interleaveLow,hdj,inside]) ?_
  intro k h
  exact interleaveAgree (fun m hm => agree m (by omega)) (fun m hm => equal m (by omega)) k h

theorem interleaveLtHigh (hc : c < 2^width) (higher : ¬ lowerTop (a ^^^ c) (b ^^^ d)) (less : a < c) :
    interleave width a b < interleave width c d := by
  obtain ⟨j,ha,hcj,equal⟩ := ltIffTopBit.mp less
  have inside := bitInside hc hcj
  have bound : a ^^^ c < 2^(j+1) :=
    Nat.lt_pow_two_of_testBit _ (fun i h => by simp [Nat.testBit_xor,equal i (by omega)])
  have agree : ∀ k, j < k → b.testBit k = d.testBit k := by
    intro k h
    by_contra different
    refine higher (lowerTopIff.mpr ⟨k,?_,bound.trans_le (Nat.pow_le_pow_right Nat.two_pos h)⟩)
    rw [Nat.testBit_xor]
    revert different
    cases b.testBit k <;> cases d.testBit k <;> simp
  refine Nat.lt_of_testBit (2*j+1) (by simp [interleaveHigh,ha]) (by simp [interleaveHigh,hcj,inside]) ?_
  intro k h
  exact interleaveAgree (fun m hm => equal m (by omega)) (fun m hm => agree m (by omega)) k h

theorem interleaveInjective (ha : a < 2^width) (hb : b < 2^width) (hc : c < 2^width)
    (hd : d < 2^width) (same : interleave width a b = interleave width c d) : a = c ∧ b = d := by
  refine ⟨equalInside ha hc (fun i inside => ?_),equalInside hb hd (fun i inside => ?_)⟩
  · have bit := congrArg (fun n => Nat.testBit n (2*i+1)) same
    simpa [interleaveHigh,inside] using bit
  · have bit := congrArg (fun n => Nat.testBit n (2*i)) same
    simpa [interleaveLow,inside] using bit

theorem interleaveLtIff (ha : a < 2^width) (hb : b < 2^width) (hc : c < 2^width) (hd : d < 2^width) :
    interleave width a b < interleave width c d ↔
      if lowerTop (a ^^^ c) (b ^^^ d) then b < d else a < c := by
  by_cases lower : lowerTop (a ^^^ c) (b ^^^ d)
  · rw [if_pos lower]
    refine ⟨fun less => ?_,interleaveLtLow hd lower⟩
    rcases Nat.lt_trichotomy b d with h | rfl | h
    · exact h
    · simp [lowerTop] at lower
    · exact absurd less (Nat.lt_asymm (interleaveLtLow hb (lowerTopXorComm lower) h))
  · rw [if_neg lower]
    refine ⟨fun less => ?_,interleaveLtHigh hc lower⟩
    rcases Nat.lt_trichotomy a c with h | rfl | h
    · exact h
    · have equal : b = d := by
        by_contra different
        have positive : b ^^^ d ≠ 0 := fun h => different (Nat.xor_eq_zero_iff.mp h)
        refine lower ⟨?_,?_⟩ <;> simp only [Nat.xor_self,Nat.zero_xor] <;> omega
      exact absurd less (by simp [equal])
    · exact absurd less (Nat.lt_asymm
        (interleaveLtHigh ha (fun h => lower (lowerTopXorComm h)) h))

end Words
end SignalSlot.BitOrder
