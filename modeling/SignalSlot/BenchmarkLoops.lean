import SignalSlot.BenchmarkRuns
import Mathlib.Algebra.BigOperators.Group.List.Basic
import Mathlib.Algebra.Order.Ring.Nat
import Mathlib.Algebra.Order.Ring.Rat

/-! The measuring loops of the benchmark methods. A loop is given the readings of its
timer; std::size_t has w bits and wraps around. The counter starts at one, so that what
calculate_score divides by is one more than the number of samples. -/
namespace SignalSlot.Benchmark

variable {w : Nat}

-- `for (; elapsed < limit; ++count)`; no result when the readings do not end the loop.
def measureLoop (update : BitVec w → BitVec w → BitVec w) (limit : BitVec w) :
    BitVec w → BitVec w → List (BitVec w) → Option (BitVec w × BitVec w)
  | count,elapsed,[] => if elapsed < limit then none else some (elapsed,count)
  | count,elapsed,reading::rest =>
      if elapsed < limit then measureLoop update limit (count + 1) (update elapsed reading) rest else none

-- `elapsed += s_timer.count<Timer_u>()` of a timer that every sample resets.
def accumulating (elapsed reading : BitVec w) : BitVec w := elapsed + reading

-- `elapsed = timer.count<Timer_u>()` of a timer that keeps running.
def rereading (_ reading : BitVec w) : BitVec w := reading

section Methods
variable (limit : BitVec w) (readings : List (BitVec w))

def construction : Option (BitVec w × BitVec w) := measureLoop accumulating limit 1 0 readings
def destruction : Option (BitVec w × BitVec w) := measureLoop accumulating limit 1 0 readings
def connection : Option (BitVec w × BitVec w) := measureLoop accumulating limit 1 0 readings
def disconnect : Option (BitVec w × BitVec w) := measureLoop accumulating limit 1 0 readings
def reconnect : Option (BitVec w × BitVec w) := measureLoop accumulating limit 1 0 readings
def emission : Option (BitVec w × BitVec w) := measureLoop accumulating limit 1 0 readings
def combined : Option (BitVec w × BitVec w) := measureLoop rereading limit 1 0 readings
def context : Option (BitVec w × BitVec w) := measureLoop rereading limit 1 0 readings

end Methods

def measured : Method → BitVec w → List (BitVec w) → Option (BitVec w × BitVec w)
  | .construction => construction
  | .destruction => destruction
  | .connection => connection
  | .disconnect => disconnect
  | .reconnect => reconnect
  | .emission => emission
  | .combined => combined
  | .threaded => context

/-! A double as far as the scores need it. -/
inductive ScoreDouble where
  | finite (value : ℚ)
  | infinite
  | undefined
  deriving DecidableEq

def ScoreDouble.add : ScoreDouble → ScoreDouble → ScoreDouble
  | .finite a,.finite b => .finite (a + b)
  | .undefined,_ | _,.undefined => .undefined
  | _,_ => .infinite

def ScoreDouble.divide (sum : ScoreDouble) (size : Nat) : ScoreDouble := match sum with
  | .finite value =>
      if size = 0 then (if value = 0 then .undefined else .infinite) else .finite (value / size)
  | .infinite => .infinite
  | .undefined => .undefined

-- `Timer_u(ticks)` has a signed count of 64 bits.
def timerCount (ticks : BitVec w) : Int := (ticks.setWidth 64).toInt

-- Timer_u counts nanoseconds, Delta_u milliseconds. A count of zero has no quotient.
def calculateScore (N : Nat) (limit count : BitVec w) : Option ScoreDouble :=
  if count = 0 then none
  else if timerCount (limit / count) = 0 then some (if N = 0 then .undefined else .infinite)
  else some (.finite (N / (timerCount (limit / count) / 1000000)))

def scoreOf (m : Method) (N : Nat) (limit : BitVec w) (readings : List (BitVec w)) : Option ScoreDouble := do
  let (elapsed,count) ← measured m limit readings
  calculateScore N elapsed count

section Threaded
variable (N : Nat) (limit : BitVec w) (hardwareConcurrency : Nat) (readings : Nat → List (BitVec w))

def threadedResults : Nat → Option (List ScoreDouble)
  | 0 => some []
  | i+1 => do
      let results ← threadedResults i
      let score ← scoreOf .threaded N limit (readings i)
      some (results ++ [score])

def threaded : Option ScoreDouble := do
  let results ← threadedResults N limit readings (hardwareConcurrency / 2)
  some ((results.foldl ScoreDouble.add (.finite 0)).divide results.length)

end Threaded

/-! The time of the samples: their sum, or the last value of the running timer. -/
def sampled (m : Method) (readings : List (BitVec w)) : Nat := match m with
  | .combined | .threaded => (readings.getLastD 0).toNat
  | _ => (readings.map BitVec.toNat).sum

theorem measureLoopEnds {update : BitVec w → BitVec w → BitVec w} {limit count elapsed : BitVec w}
    {readings : List (BitVec w)} {out : BitVec w × BitVec w}
    (ends : measureLoop update limit count elapsed readings = some out) :
    out.1 = readings.foldl update elapsed ∧ out.2 = count + BitVec.ofNat w readings.length := by
  induction readings generalizing count elapsed with
  | nil =>
    rw [measureLoop] at ends
    split at ends
    · contradiction
    · cases Option.some.inj ends
      exact ⟨rfl,(BitVec.add_zero count).symm⟩
  | cons reading rest ih =>
    rw [measureLoop] at ends
    split at ends
    · obtain ⟨total,counted⟩ := ih ends
      refine ⟨total,?_⟩
      rw [counted,List.length_cons,Nat.add_comm rest.length 1,BitVec.ofNat_add,BitVec.add_assoc]
      rfl
    · contradiction

theorem accumulatedToNat (readings : List (BitVec w)) (elapsed : BitVec w) :
    (readings.foldl accumulating elapsed).toNat =
      (elapsed.toNat + (readings.map BitVec.toNat).sum) % 2^w := by
  induction readings generalizing elapsed with
  | nil => exact (Nat.mod_eq_of_lt elapsed.isLt).symm
  | cons reading rest ih =>
    rw [List.foldl_cons,ih,accumulating,BitVec.toNat_add,List.map_cons,List.sum_cons,Nat.mod_add_mod,
      Nat.add_assoc]

theorem rereadLast (readings : List (BitVec w)) (elapsed : BitVec w) :
    readings.foldl rereading elapsed = readings.getLastD elapsed := by
  induction readings generalizing elapsed with
  | nil => rfl
  | cons reading rest ih => rw [List.foldl_cons,ih,rereading,List.getLastD_cons]

theorem countedWords {update : BitVec w → BitVec w → BitVec w} {limit : BitVec w}
    {readings : List (BitVec w)} {out : BitVec w × BitVec w}
    (ends : measureLoop update limit 1 0 readings = some out) :
    out.1 = readings.foldl update 0 ∧ out.2.toNat = (readings.length + 1) % 2^w := by
  obtain ⟨total,count⟩ := measureLoopEnds ends
  have words : (1 : BitVec w) + BitVec.ofNat w readings.length = BitVec.ofNat w (1 + readings.length) :=
    (BitVec.ofNat_add 1 readings.length).symm
  refine ⟨total,?_⟩
  rw [count,words,BitVec.toNat_ofNat,Nat.add_comm]

theorem measuredWords {m : Method} {limit : BitVec w} {readings : List (BitVec w)}
    {out : BitVec w × BitVec w} (ends : measured m limit readings = some out) :
    out.1.toNat = sampled m readings % 2^w ∧ out.2.toNat = (readings.length + 1) % 2^w := by
  have zero : (0 : BitVec w).toNat = 0 := BitVec.toNat_ofNat 0 w
  cases m with
  | construction | destruction | connection | disconnect | reconnect | emission =>
    obtain ⟨total,count⟩ := countedWords ends
    refine ⟨?_,count⟩
    rw [total,accumulatedToNat,zero,Nat.zero_add]
    rfl
  | combined | threaded =>
    obtain ⟨total,count⟩ := countedWords ends
    refine ⟨?_,count⟩
    rw [total,rereadLast,sampled,Nat.mod_eq_of_lt (BitVec.isLt _)]

/-- What calculate_score is handed is the number of samples, and the mean is the one
over these samples. -/
def TrueSamples (m : Method) (readings : List (BitVec w)) (out : BitVec w × BitVec w) : Prop :=
  out.2.toNat = readings.length ∧ (out.1 / out.2).toNat = sampled m readings / readings.length

theorem countNeverTrue (wide : 0 < w) (m : Method) (limit : BitVec w) (readings : List (BitVec w))
    (out : BitVec w × BitVec w) (ends : measured m limit readings = some out) :
    out.2.toNat = (readings.length + 1) % 2^w ∧ ¬ TrueSamples m readings out := by
  obtain ⟨_,count⟩ := measuredWords ends
  refine ⟨count,?_⟩
  intro ⟨same,_⟩
  rw [count] at same
  have two : 2 ≤ 2^w := Nat.le_self_pow wide.ne' 2
  rcases Nat.lt_or_ge (readings.length + 1) (2^w) with small | large
  · rw [Nat.mod_eq_of_lt small] at same
    omega
  · have bound := Nat.mod_lt (readings.length + 1) (Nat.two_pow_pos w)
    have wrapped : readings.length + 1 = 2^w := by omega
    rw [wrapped,Nat.mod_self] at same
    omega

/-! One sample of five nanoseconds. -/
theorem oneSampleCountedTwice : measured .construction (1 : BitVec 64) [5] = some (5,2) ∧
    ¬ TrueSamples .construction ([5] : List (BitVec 64)) (5,2) := by
  refine ⟨by decide,fun samples => ?_⟩
  exact absurd samples.1 (by decide)

theorem twoSamplesMiscounted : ((3 : BitVec 64).toNat = ([1,4] : List (BitVec 64)).length + 1) ∧
    ¬ TrueSamples .combined ([1,4] : List (BitVec 64)) (4,3) :=
  ⟨by decide,(countNeverTrue (by decide) .combined 3 [1,4] (4,3) (by decide)).2⟩

/-- The sampled time is at least one unit for every sample, and one more. -/
def Covers (m : Method) (readings : List (BitVec w)) : Prop :=
  (readings.length + 1) % 2^w ≠ 0 ∧ (readings.length + 1) % 2^w ≤ sampled m readings % 2^w

def QuotientPositive (m : Method) (limit : BitVec w) (readings : List (BitVec w)) : Prop :=
  ∃ elapsed count, measured m limit readings = some (elapsed,count) ∧ 0 < (elapsed / count).toNat

theorem quotientCovers {m : Method} {limit : BitVec w} {readings : List (BitVec w)}
    (ends : (measured m limit readings).isSome = true) :
    QuotientPositive m limit readings ↔ Covers m readings := by
  obtain ⟨out,ends⟩ := Option.isSome_iff_exists.mp ends
  obtain ⟨total,count⟩ := measuredWords ends
  have positive : 0 < (out.1 / out.2).toNat ↔ Covers m readings := by
    rw [Covers,← total,← count,BitVec.toNat_udiv,Nat.div_pos_iff,Nat.pos_iff_ne_zero]
  rw [← positive,QuotientPositive,ends]
  constructor
  · intro ⟨elapsed,count,same,quotient⟩
    cases Option.some.inj same
    exact quotient
  · exact fun quotient => ⟨out.1,out.2,rfl,quotient⟩

theorem threadedResultsLength {N : Nat} {limit : BitVec w} {readings : Nat → List (BitVec w)} {threads : Nat}
    {results : List ScoreDouble} (ran : threadedResults N limit readings threads = some results) :
    results.length = threads := by
  induction threads generalizing results with
  | zero => cases ran; rfl
  | succ i ih =>
    simp only [threadedResults,bind,Option.bind_eq_some_iff] at ran
    obtain ⟨before,ranBefore,score,_,all⟩ := ran
    cases all
    rw [List.length_append,ih ranBefore,List.length_singleton]

theorem threadedResultsRun {N : Nat} {limit : BitVec w} {readings : Nat → List (BitVec w)} {threads : Nat}
    (quotients : ∀ i < threads, QuotientPositive .threaded limit (readings i)) :
    (threadedResults N limit readings threads).isSome = true := by
  induction threads with
  | zero => rfl
  | succ i ih =>
    obtain ⟨before,ran⟩ := Option.isSome_iff_exists.mp (ih (fun j less => quotients j (by omega)))
    obtain ⟨elapsed,count,ends,positive⟩ := quotients i (Nat.lt_succ_self i)
    have nonzero : count ≠ 0 := by
      intro zero
      rw [zero,BitVec.toNat_udiv] at positive
      simp at positive
    simp only [threadedResults,ran,scoreOf,ends,calculateScore,if_neg nonzero,bind,Option.bind_some]
    split <;> rfl

def ThreadedPositive (N : Nat) (limit : BitVec w) (hardwareConcurrency : Nat)
    (readings : Nat → List (BitVec w)) : Prop :=
  (∀ i < hardwareConcurrency / 2, QuotientPositive .threaded limit (readings i)) ∧
  ∃ results, threadedResults N limit readings (hardwareConcurrency / 2) = some results ∧
    0 < results.length

theorem divisorsPositiveExactly (w : Nat) :
    (∀ (m : Method) (limit : BitVec w) (readings : List (BitVec w)),
      (measured m limit readings).isSome = true →
      (QuotientPositive m limit readings ↔ Covers m readings)) ∧
    ∀ (N : Nat) (limit : BitVec w) (hardwareConcurrency : Nat) (readings : Nat → List (BitVec w)),
      (∀ i < hardwareConcurrency / 2, (measured .threaded limit (readings i)).isSome = true) →
      (ThreadedPositive N limit hardwareConcurrency readings ↔
        2 ≤ hardwareConcurrency ∧ ∀ i < hardwareConcurrency / 2, Covers .threaded (readings i)) := by
  refine ⟨fun m limit readings => quotientCovers,?_⟩
  intro N limit hardwareConcurrency readings ends
  constructor
  · intro ⟨quotients,results,ran,nonempty⟩
    have length := threadedResultsLength ran
    exact ⟨by omega,fun i less => (quotientCovers (ends i less)).mp (quotients i less)⟩
  · intro ⟨two,covers⟩
    have quotients : ∀ i < hardwareConcurrency / 2, QuotientPositive .threaded limit (readings i) :=
      fun i less => (quotientCovers (ends i less)).mpr (covers i less)
    obtain ⟨results,ran⟩ := Option.isSome_iff_exists.mp (threadedResultsRun quotients (N := N))
    have length := threadedResultsLength ran
    exact ⟨quotients,results,ran,by omega⟩

theorem oneNanosecondDividesByZero :
    (measured .construction (1 : BitVec 64) [1]).isSome = true ∧
    ¬ QuotientPositive .construction (1 : BitVec 64) [1] ∧
    scoreOf .construction 2 (1 : BitVec 64) [1] = some .infinite ∧
    threaded 2 (1 : BitVec 64) 1 (fun _ => [5]) = some .undefined := by
  refine ⟨by decide,?_,by decide +kernel,by decide +kernel⟩
  rw [quotientCovers (by decide)]
  exact fun covers => absurd covers.2 (by decide)

def spread (i : Nat) : List (BitVec 64) := if i = 0 then [2,9] else [3,3,8]

theorem longSamplesDivide : QuotientPositive .construction (1 : BitVec 64) [5] ∧
    ThreadedPositive 2 (5 : BitVec 64) 4 spread := by
  have both := divisorsPositiveExactly 64
  refine ⟨(both.1 .construction 1 [5] (by decide)).mpr ⟨by decide,by decide⟩,
    (both.2 2 5 4 spread ?_).mpr ⟨by decide,?_⟩⟩
  · decide
  · unfold Covers
    decide

end SignalSlot.Benchmark
