import SignalSlot.Library.MultiplicativeGenerator
import Mathlib.Algebra.BigOperators.Intervals
import Mathlib.Tactic.ReduceModChar
import Mathlib.Tactic.NormNum.Prime

/-! The validation run of a benchmark. Every handler call advances one generator, and
after all rounds its state is compared with that of a generator that has been
advanced by the expected number of calls: a checksum of the total. The result of
validationAssert is whether a failure is reported. -/
namespace SignalSlot.Validation
open MultiplicativeGenerator

@[ext] structure Rng where
  state : Nat
  deriving DecidableEq, Repr

def Rng.seeded : Rng := ⟨1⟩

def Rng.call (rng : Rng) : Rng := ⟨next 48271 2147483647 rng.state⟩

def Rng.discard (rng : Rng) (count : Nat) : Rng := Rng.call^[count] rng

variable {w : Nat}

structure Progress (w : Nat) where
  rng : Rng
  count : BitVec w
  deriving DecidableEq, Repr

def round (N : BitVec w) (first second : Nat) (p : Progress w) : Progress w :=
  ⟨(p.rng.discard first).discard second,p.count + N⟩

def rounds (N : BitVec w) (a b : Nat → Nat) : Nat → Progress w
  | 0 => ⟨.seeded,0⟩
  | k+1 => round N (a k) (b k) (rounds N a b k)

def validationAssert (N : BitVec w) (a b : Nat → Nat) : Bool :=
  let done := rounds N a b N.toNat
  decide (done.rng ≠ Rng.seeded.discard done.count.toNat)

theorem discardState (rng : Rng) (count : Nat) :
    (rng.discard count).state = (next 48271 2147483647)^[count] rng.state := by
  induction count generalizing rng with
  | zero => rfl
  | succ count ih => exact ih rng.call

theorem discardDiscard (rng : Rng) (i j : Nat) : (rng.discard i).discard j = rng.discard (i+j) := by
  rw [Rng.discard,Rng.discard,← Function.iterate_add_apply,Nat.add_comm,Rng.discard]

theorem roundsDone (N : BitVec w) (a b : Nat → Nat) (k : Nat) : rounds N a b k =
    ⟨Rng.seeded.discard ((Finset.range k).sum (fun i => a i + b i)),BitVec.ofNat w k * N⟩ := by
  induction k with
  | zero => simp [rounds,Rng.discard]
  | succ k ih =>
    rw [rounds,ih,round,discardDiscard,discardDiscard,Finset.sum_range_succ]
    congr 1
    rw [BitVec.ofNat_add,BitVec.add_mul,BitVec.one_mul]

theorem multiplierOrder : orderOf (48271 : ZMod 2147483647) = 2147483646 := by
  refine orderOf_eq_of_pow_and_pow_div_prime (by decide) (by reduce_mod_char) ?_
  intro q prime divides
  have factors : 2147483646 = 2*3*3*7*11*31*151*331 := by norm_num
  have cases : ((((((q = 2 ∨ q = 3) ∨ q = 3) ∨ q = 7) ∨ q = 11) ∨ q = 31) ∨ q = 151) ∨ q = 331 := by
    rw [factors] at divides
    have equal {r : Nat} (prime' : r.Prime) : q ∣ r ↔ q = r := Nat.prime_dvd_prime_iff_eq prime prime'
    simpa only [prime.dvd_mul,equal Nat.prime_two,equal Nat.prime_three,
      equal (by norm_num : Nat.Prime 7),equal (by norm_num : Nat.Prime 11),
      equal (by norm_num : Nat.Prime 31),equal (by norm_num : Nat.Prime 151),
      equal (by norm_num : Nat.Prime 331)] using divides
  rcases cases with ((((((rfl | rfl) | rfl) | rfl) | rfl) | rfl) | rfl) | rfl <;>
    simp only [Nat.reduceDiv] <;> reduce_mod_char <;> decide

theorem multiplierUnit : IsUnit (48271 : ZMod 2147483647) := by
  refine IsUnit.of_pow_eq_one ?_ (by decide : 2147483646 ≠ 0)
  reduce_mod_char

theorem discardEq (i j : Nat) : Rng.seeded.discard i = Rng.seeded.discard j ↔
    i ≡ j [MOD 2147483646] := by
  have unit : IsUnit ((48271 : Nat) : ZMod 2147483647) := by
    rw [Nat.cast_ofNat]
    exact multiplierUnit
  have states := iterateEq (by decide : 1 < 2147483647) (by simp) unit i j
  rw [Nat.cast_ofNat,multiplierOrder] at states
  rw [Rng.ext_iff,discardState,discardState]
  exact states

theorem noFailureExactly (N : BitVec w) (a b : Nat → Nat) : validationAssert N a b = false ↔
    (Finset.range N.toNat).sum (fun i => a i + b i) ≡ (N * N).toNat [MOD 2147483646] := by
  rw [validationAssert,roundsDone,BitVec.ofNat_toNat,BitVec.setWidth_eq]
  simp only [decide_eq_false_iff_not,not_not,discardEq]

theorem correctAccepted (N : BitVec w) (fits : N.toNat * N.toNat < 2^w) (a b : Nat → Nat)
    (correct : ∀ i < N.toNat, a i = N.toNat ∧ b i = 0) : validationAssert N a b = false := by
  have total : (Finset.range N.toNat).sum (fun i => a i + b i) = N.toNat * N.toNat := by
    rw [Finset.sum_congr rfl (fun i mem => by
      rw [(correct i (Finset.mem_range.mp mem)).1,(correct i (Finset.mem_range.mp mem)).2])]
    simp
  rw [validationAssert,roundsDone,BitVec.ofNat_toNat,BitVec.setWidth_eq,total]
  simp only [BitVec.toNat_mul,Nat.mod_eq_of_lt fits,ne_eq,not_true_eq_false,decide_false]

theorem lateCallAccepted : ¬ ∀ (N : BitVec 64) (a b : Nat → Nat), 1 ≤ N.toNat →
    (validationAssert N a b = false ↔ ∀ i < N.toNat, a i = N.toNat ∧ b i = 0) := by
  intro exactly
  have correct := (exactly 1 (fun _ => 0) (fun _ => 1) (by decide)).mp (by decide) 0 (by decide)
  exact absurd correct.1 (by decide)

end SignalSlot.Validation
