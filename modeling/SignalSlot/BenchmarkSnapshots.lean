import SignalSlot.BenchmarkThrows
import Mathlib.Data.List.Forall2

/-! What s_current_results shows while the benchmarks run. Each method that completes
publishes once, so the n-th value is the first n measurements, whatever throws between
them and whichever pass they belong to. -/
namespace SignalSlot.Benchmark
open Std Subscript GuardedRun

variable {Name Score : Type} [LinearOrder Name]

structure Measurement (Name Score : Type) where
  library : Name
  method : Method
  size : Nat
  score : Score
  deriving DecidableEq,Repr

section Shown
variable (names : Literals Name)

def scoresOf (done : List (Measurement Name Score)) (lib op : Name) : List (Nat × Score) :=
  (done.filter (fun e => e.library = lib ∧ names.op e.method = op)).map (fun e => (e.size,e.score))

/-- The results hold these measurements in this order. An entry without a score is none. -/
def ShowsAll (results : Records Name Score) (done : List (Measurement Name Score)) : Prop :=
  ∀ lib op, (found results lib op).getD [] = scoresOf names done lib op

-- What is done after each of the later measurements.
def growing (done : List (Measurement Name Score)) :
    List (Measurement Name Score) → List (List (Measurement Name Score))
  | [] => []
  | e::later => (done ++ [e])::growing (done ++ [e]) later

end Shown

omit [LinearOrder Name] in
theorem growingAppend (done first later : List (Measurement Name Score)) :
    growing done (first ++ later) = growing done first ++ growing (done ++ first) later := by
  induction first generalizing done with
  | nil => rw [List.append_nil]; rfl
  | cons e rest ih => rw [List.cons_append,growing,growing,ih,List.append_assoc]; rfl

section Steps
variable {names : Literals Name} {results : Records Name Score} {done : List (Measurement Name Score)}

theorem showsNothing : ShowsAll names (∅ : Records Name Score) [] := by
  intro lib op
  simp [found,scoresOf]

theorem showsTouched (shows' : ShowsAll names results done) (lib : Name) :
    ShowsAll names (subscript results lib id) done := by
  intro l op
  rw [foundTouched]
  exact shows' l op

theorem showsEntered (shows' : ShowsAll names results done) (lib op : Name) :
    ShowsAll names (subscript₂ results lib op id) done := by
  intro l o
  rw [← shows']
  rcases Classical.em (l = lib ∧ o = op) with here | other
  · obtain ⟨rfl,rfl⟩ := here
    rw [foundSame]
    rfl
  · rw [foundOther other]

theorem showsRecorded (shows' : ShowsAll names results done) (N : Nat) (lib : Name) (call : Method × Score) :
    ShowsAll names (emplaceBack names N lib results call.1 call.2) (done ++ [⟨lib,call.1,N,call.2⟩]) := by
  intro l op
  rw [scoresOf,List.filter_append,List.map_append,← scoresOf,← shows']
  rcases Classical.em (l = lib ∧ op = names.op call.1) with here | other
  · obtain ⟨rfl,rfl⟩ := here
    rw [emplaceBack,foundSame,Option.getD_some]
    simp only [and_self,decide_true,List.filter_cons_of_pos,List.filter_nil,List.map_cons,List.map_nil]
    rfl
  · rw [emplaceBack,foundOther other]
    have apart : ¬ (lib = l ∧ names.op call.1 = op) := fun same => other ⟨same.1.symm,same.2.symm⟩
    simp [apart]

variable [LT Score] [DecidableLT Score] {pass N : Nat} {lib : Name} {course : Course Score}

def measurements (pass N : Nat) (lib : Name) (course : Course Score) : List (Measurement Name Score) :=
  (completedCalls pass course).map (fun call => ⟨lib,call.1,N,call.2⟩)

/-- The newest stands first in what is published. -/
structure Publishes (names : Literals Name) (out : Outcome Name Score)
    (done later : List (Measurement Name Score)) : Prop where
  results : ShowsAll names out.results (done ++ later)
  published : List.Forall₂ (ShowsAll names) out.published.reverse (growing done later)

theorem methodsPublish (shows' : ShowsAll names results done) (ms : List Method) :
    Publishes names (runMethods names pass N lib course ms results) done
      ((completed pass course ms).map (fun call => ⟨lib,call.1,N,call.2⟩)) := by
  induction ms generalizing results done with
  | nil => exact ⟨by simpa [runMethods,completed] using shows',.nil⟩
  | cons m rest ih =>
    have entered := showsEntered shows' lib (names.op m)
    simp only [runMethods,completed]
    cases ran : bestOf pass (course.measure m) with
    | none => exact ⟨by simpa using entered,.nil⟩
    | some score =>
      have recorded := showsRecorded entered N lib (m,score)
      cases pressed : course.escPressed m with
      | true => exact ⟨recorded,.cons recorded .nil⟩
      | false =>
        obtain ⟨after,shown⟩ := ih recorded
        refine ⟨?_,?_⟩
        · rw [List.append_assoc] at after
          exact after
        · simp only [Bool.false_eq_true,if_false,List.reverse_append,List.reverse_singleton]
          exact .cons recorded shown

theorem classPublishes (shows' : ShowsAll names results done) :
    Publishes names (runBenchmarkClass names pass N lib course results) done
      (measurements pass N lib course) := by
  unfold runBenchmarkClass measurements completedCalls
  split
  · exact methodsPublish (showsTouched shows' lib) methods
  · exact ⟨by simpa using showsTouched shows' lib,.nil⟩

end Steps

/-- A run beside the measurements that it has made. -/
structure Watched (Name Score : Type) [LinearOrder Name] where
  program : Program Name Score
  done : List (Measurement Name Score)

namespace Watched
open Program

variable [LT Score] [DecidableLT Score] {names : Literals Name} {libraries : List Name}

def step (names : Literals Name) (libraries : List Name) (s : Watched Name Score) (course : Course Score) :
    Option (Watched Name Score) := do
  let next ← s.program.step names libraries course
  let (N,lib) ← (ready libraries s.program).pending.head?
  some ⟨next,s.done ++ measurements (ready libraries s.program).pass N lib course⟩

def initial (libraries : List Name) : Watched Name Score := ⟨.initial libraries,[]⟩

def SnapshotsExact (names : Literals Name) (s : Watched Name Score) : Prop :=
  List.Forall₂ (ShowsAll names) s.program.published.reverse (growing [] s.done) ∧
  ShowsAll names s.program.currentResults s.done

structure Inv (names : Literals Name) (s : Watched Name Score) : Prop where
  results : ShowsAll names s.program.results s.done
  published : List.Forall₂ (ShowsAll names) s.program.published.reverse (growing [] s.done)

omit [LT Score] [DecidableLT Score] in
theorem newestShows {s : Watched Name Score} (inv : Inv names s) :
    ShowsAll names s.program.currentResults s.done := by
  have shown := inv.published
  rcases List.eq_nil_or_concat s.done with nothing | more
  · rw [nothing] at shown ⊢
    have unpublished := List.forall₂_nil_right_iff.mp shown
    rw [currentResults,List.reverse_eq_nil_iff.mp unpublished]
    exact showsNothing
  · obtain ⟨before,e,last⟩ := more
    rw [List.concat_eq_append] at last
    rw [last,growingAppend] at shown
    have newest := List.rel_reverse shown
    rw [List.reverse_reverse,List.reverse_append] at newest
    obtain ⟨shows',older,here,_,published⟩ := List.forall₂_cons_right_iff.mp newest
    rw [last,currentResults,published]
    exact here

omit [LT Score] [DecidableLT Score] in
theorem readyShows {s : Watched Name Score} (inv : Inv names s) :
    ShowsAll names (ready libraries s.program).results s.done := by
  unfold ready
  split
  · exact newestShows inv
  · exact inv.results

theorem stepKeeps {s next : Watched Name Score} {course : Course Score} (inv : Inv names s)
    (taken : step names libraries s course = some next) : Inv names next := by
  simp only [step,bind,Option.bind_eq_some_iff] at taken
  obtain ⟨after,program,called,first,last⟩ := taken
  cases Option.some.inj last
  obtain ⟨_,N,lib,rest,out,pending,rfl,rfl⟩ := stepCases program
  rw [pending] at first
  cases Option.some.inj first
  obtain ⟨results,published⟩ :=
    @classPublishes _ _ _ names _ _ _ _ (ready libraries s.program).pass N lib course (readyShows inv)
  refine ⟨results,?_⟩
  rw [List.reverse_append,growingAppend]
  exact List.rel_append inv.published published

end Watched

/-- Whatever throws and whenever the escape key is seen: each value of s_current_results
shows the measurements up to one more than the value before it, and the last shows all. -/
theorem snapshotsExact [LT Score] [DecidableLT Score] (names : Literals Name) (libraries : List Name)
    (courses : List (Course Score)) : EveryState (Watched.step names libraries)
      (Watched.SnapshotsExact names) (Watched.initial libraries) courses :=
  everyStateImp (fun _ inv => ⟨inv.published,Watched.newestShows inv⟩)
    (everyStateOfInvariant (fun _ _ _ inv taken => Watched.stepKeeps inv taken) ⟨showsNothing,.nil⟩ courses)

end SignalSlot.Benchmark
