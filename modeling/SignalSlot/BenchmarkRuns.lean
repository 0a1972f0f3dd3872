import SignalSlot.Library.Subscript
import Mathlib.Algebra.Group.Nat.Defs

/-! The benchmark runs: run_benchmark_class with benchmark calls that may throw, and
the converging passes of run_all_benchmarks that publish the results so far. The
operation is entered into the results before its benchmark call is made. -/
namespace SignalSlot.Benchmark
open Std Subscript

variable {Name Score : Type}

abbrev Records (Name Score : Type) [LinearOrder Name] := TreeMap Name (TreeMap Name (List (Nat × Score)))

inductive Method where
  | construction | destruction | connection | disconnect | reconnect | emission | combined | threaded
  deriving DecidableEq,Repr

def methods : List Method :=
  [.construction,.destruction,.connection,.disconnect,.reconnect,.emission,.combined,.threaded]

def Method.label : Method → String
  | .construction => "[constr]"
  | .destruction => "[destr]"
  | .connection => "conn"
  | .disconnect => "disconn"
  | .reconnect => "reconn"
  | .emission => "emit"
  | .combined => "all"
  | .threaded => "threaded"

structure Literals (Name : Type) where
  text : Name → String
  op : Method → Name
  spelled : ∀ m, text (op m) = m.label

theorem opInjective (names : Literals Name) : Function.Injective names.op := by
  intro m m' same
  have labels : m.label = m'.label := by rw [← names.spelled,← names.spelled,same]
  cases m <;> cases m' <;> first | rfl | contradiction

/- What the benchmarked code does during one call of run_benchmark_class: whether its
initialization returns, the score of each repetition (`none` throws), and what
s_esc_pressed holds after each method. -/
structure Course (Score : Type) where
  initialized : Bool
  measure : Method → Nat → Option Score
  escPressed : Method → Bool

section BestOf

-- `s_best_of_limit` starts at 2 and doubles after every pass. The 64 bits of the source
-- last for 63 passes, the last of which would repeat each method 2 ^ 63 times.
def bestOfLimit (pass : Nat) : Nat := 2 * 2 ^ pass

def runResults (run : Nat → Option Score) : Nat → Option (List Score)
  | 0 => some []
  | i+1 => do
      let results ← runResults run i
      let score ← run i
      some (results ++ [score])

def maxElement [LT Score] [DecidableLT Score] : List Score → Option Score
  | [] => none
  | first::rest => some (rest.foldl (fun largest x => if largest < x then x else largest) first)

def bestOf [LT Score] [DecidableLT Score] (pass : Nat) (run : Nat → Option Score) : Option Score := do
  let results ← runResults run (bestOfLimit pass)
  maxElement results

end BestOf

variable [LinearOrder Name]

structure Outcome (Name Score : Type) [LinearOrder Name] where
  results : Records Name Score
  published : List (Records Name Score)
  escaped : Bool

section Class
variable [LT Score] [DecidableLT Score] (names : Literals Name) (pass N : Nat) (lib : Name)
variable (course : Course Score)

def emplaceBack (results : Records Name Score) (m : Method) (score : Score) : Records Name Score :=
  subscript₂ results lib (names.op m) (fun scores => scores ++ [(N,score)])

def runMethods : List Method → Records Name Score → Outcome Name Score
  | [],results => ⟨results,[],false⟩
  | m::rest,results =>
      let results := subscript₂ results lib (names.op m) id
      match bestOf pass (course.measure m) with
      | none => ⟨results,[],false⟩
      | some score =>
          let results := emplaceBack names N lib results m score
          if course.escPressed m then ⟨results,[results],true⟩
          else
            let later := runMethods rest results
            ⟨later.results,later.published ++ [results],later.escaped⟩

def runBenchmarkClass (results : Records Name Score) : Outcome Name Score :=
  let results := subscript results lib id
  if course.initialized then runMethods names pass N lib course methods results
  else ⟨results,[],false⟩

end Class

/-! run_all_benchmarks calls run_benchmark_class for every size and library, and main
repeats it until the escape key is seen. `published` holds every value that
s_current_results had, the newest first. -/
def doublings (start ending : Nat) : List Nat :=
  ((List.range (ending + 1)).map (fun i => start * 2 ^ i)).takeWhile (fun c => c ≤ ending)

def startTestSize : Nat := 2
def endingTestSize : Nat := 64

def benchmarkCalls (libraries : List Name) : List (Nat × Name) :=
  (doublings startTestSize endingTestSize).flatMap (fun N => libraries.map (fun lib => (N,lib)))

structure Program (Name Score : Type) [LinearOrder Name] where
  pass : Nat
  pending : List (Nat × Name)
  results : Records Name Score
  published : List (Records Name Score)
  escaped : Bool

namespace Program

def currentResults (s : Program Name Score) : Records Name Score := s.published.headD ∅

def initial (libraries : List Name) : Program Name Score := ⟨0,benchmarkCalls libraries,∅,[],false⟩

def ready (libraries : List Name) (s : Program Name Score) : Program Name Score :=
  match s.pending with
  | [] => ⟨s.pass + 1,benchmarkCalls libraries,s.currentResults,s.published,s.escaped⟩
  | _::_ => s

def step [LT Score] [DecidableLT Score] (names : Literals Name) (libraries : List Name)
    (s : Program Name Score) (course : Course Score) : Option (Program Name Score) :=
  if s.escaped then none
  else
    let s := ready libraries s
    match s.pending with
    | [] => none
    | (N,lib)::rest =>
        let out := runBenchmarkClass names s.pass N lib course s.results
        some ⟨s.pass,rest,out.results,out.published ++ s.published,out.escaped⟩

theorem readyPublished (libraries : List Name) (s : Program Name Score) :
    (ready libraries s).published = s.published := by
  unfold ready
  split <;> rfl

theorem stepCases [LT Score] [DecidableLT Score] {names : Literals Name} {libraries : List Name}
    {s next : Program Name Score} {course : Course Score}
    (taken : step names libraries s course = some next) :
    s.escaped = false ∧ ∃ N lib rest out,
      (ready libraries s).pending = (N,lib)::rest ∧
      out = runBenchmarkClass names (ready libraries s).pass N lib course (ready libraries s).results ∧
      next = ⟨(ready libraries s).pass,rest,out.results,out.published ++ s.published,out.escaped⟩ := by
  unfold step at taken
  split at taken
  · contradiction
  · next running =>
    simp only at taken
    split at taken
    · contradiction
    · next N lib rest calls =>
      rw [readyPublished] at taken
      exact ⟨by simpa using running,N,lib,rest,_,calls,rfl,(Option.some.inj taken).symm⟩

end Program
end SignalSlot.Benchmark
