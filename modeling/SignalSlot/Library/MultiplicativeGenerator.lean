import Mathlib.Data.ZMod.Basic
import Mathlib.GroupTheory.OrderOfElement

/-! Multiplicative congruential generators. The states of a generator tell apart the
numbers of calls up to the order of its multiplier, and no more. -/
namespace SignalSlot.MultiplicativeGenerator

variable {multiplier modulus : Nat}

def next (multiplier modulus x : Nat) : Nat := multiplier * x % modulus

theorem iterateCast (k x : Nat) :
    ((next multiplier modulus)^[k] x : ZMod modulus) = (multiplier : ZMod modulus) ^ k * x := by
  induction k generalizing x with
  | zero => simp
  | succ k ih =>
    rw [Function.iterate_succ_apply,ih,next,ZMod.natCast_mod,Nat.cast_mul,pow_succ,mul_assoc]

theorem iterateLt (positive : 0 < modulus) {x : Nat} (reduced : x < modulus) (k : Nat) :
    (next multiplier modulus)^[k] x < modulus := by
  cases k with
  | zero => exact reduced
  | succ k =>
    rw [Function.iterate_succ_apply']
    exact Nat.mod_lt _ positive

theorem iterateEq {x : Nat} (reduced : x < modulus) (seed : IsUnit (x : ZMod modulus))
    (unit : IsUnit (multiplier : ZMod modulus)) (i j : Nat) :
    (next multiplier modulus)^[i] x = (next multiplier modulus)^[j] x ↔
      i ≡ j [MOD orderOf (multiplier : ZMod modulus)] := by
  have positive : 0 < modulus := Nat.zero_lt_of_lt reduced
  have cast : (next multiplier modulus)^[i] x = (next multiplier modulus)^[j] x ↔
      ((next multiplier modulus)^[i] x : ZMod modulus) = ((next multiplier modulus)^[j] x : Nat) := by
    rw [ZMod.natCast_eq_natCast_iff',Nat.mod_eq_of_lt (iterateLt positive reduced i),
      Nat.mod_eq_of_lt (iterateLt positive reduced j)]
  obtain ⟨u,same⟩ := unit
  rw [cast,iterateCast,iterateCast,seed.mul_left_inj,← same,orderOf_units,← pow_eq_pow_iff_modEq,
    ← Units.val_pow_eq_pow_val,← Units.val_pow_eq_pow_val,Units.val_inj]

end SignalSlot.MultiplicativeGenerator
