import SignalSlot.BenchmarkPlotly

/-! Passes without a failure. Every pass adds to the vectors of the passes before it, so
after R of them an operation has R results at each size. -/
namespace SignalSlot.Benchmark
open Subscript GuardedRun

variable {Name Score : Type} [LinearOrder Name]

section Calls
variable [LT Score] [DecidableLT Score] {names : Literals Name} {pass N : Nat} {lib : Name}
variable {course : Course Score}

def Completes (pass : Nat) (course : Course Score) : Prop :=
  course.initialized = true ∧
    ∀ m, (bestOf pass (course.measure m)).isSome = true ∧ course.escPressed m = false

theorem completesAll (completes : Completes pass course) (ms : List Method) :
    (completed pass course ms).map Prod.fst = ms ∧ throwing pass course ms = none := by
  induction ms with
  | nil => exact ⟨rfl,rfl⟩
  | cons m rest ih =>
    obtain ⟨score,ran⟩ := Option.isSome_iff_exists.mp (completes.2 m).1
    simp [completed,throwing,ran,(completes.2 m).2,ih]

theorem methodsPublished (completes : Completes pass course) (m : Method) (rest : List Method)
    (results : Records Name Score) :
    (runMethods names pass N lib course (m::rest) results).published.head? =
      some (runMethods names pass N lib course (m::rest) results).results := by
  induction rest generalizing m results with
  | nil =>
    obtain ⟨score,ran⟩ := Option.isSome_iff_exists.mp (completes.2 m).1
    simp [runMethods,ran,(completes.2 m).2]
  | cons next rest ih =>
    obtain ⟨score,ran⟩ := Option.isSome_iff_exists.mp (completes.2 m).1
    have later := ih next (emplaceBack names N lib (subscript₂ results lib (names.op m) id) m score)
    rw [runMethods]
    simp only [ran,(completes.2 m).2,Bool.false_eq_true,if_false]
    rw [List.head?_append,later]
    rfl

theorem completesPublished (completes : Completes pass course) (results : Records Name Score) :
    (runBenchmarkClass names pass N lib course results).published.head? =
      some (runBenchmarkClass names pass N lib course results).results := by
  unfold runBenchmarkClass
  rw [if_pos completes.1]
  exact methodsPublished completes .construction _ _

theorem completesIntact (completes : Completes pass course) (before : Records Name Score) :
    Intact names N lib before (runBenchmarkClass names pass N lib course before).results
      (completedCalls pass course) := by
  refine (intactExactly before).mpr ⟨fun stops => ?_,fun m stops => ?_⟩
  · rw [completes.1] at stops
    contradiction
  · rw [throwingCall,if_pos completes.1,(completesAll completes methods).2] at stops
    contradiction

end Calls

/-! The sizes that stand under an operation are those of the calls for its library. -/
def sizesOf (results : Records Name Score) (lib op : Name) : List Nat :=
  ((found results lib op).getD []).map Prod.fst

structure Logged (names : Literals Name) (results : Records Name Score) (calls : List (Nat × Name)) : Prop where
  sizes : ∀ lib m, sizesOf results lib (names.op m) =
    (calls.filter (fun call => call.2 = lib)).map Prod.fst
  operations : ∀ lib op, (found results lib op).isSome = true → ∃ m, op = names.op m
  libraries : ∀ lib, lib ∈ results → ∃ N, (N,lib) ∈ calls

section Log
variable [LT Score] [DecidableLT Score] {names : Literals Name} {pass N : Nat} {lib : Name}
variable {course : Course Score} {results : Records Name Score} {calls : List (Nat × Name)}

theorem completesLogged (completes : Completes pass course) (logged : Logged names results calls) :
    Logged names (runBenchmarkClass names pass N lib course results).results (calls ++ [(N,lib)]) := by
  have intact : Intact names N lib results _ _ := completesIntact completes results
  have done : (completedCalls pass course).map Prod.fst = methods := by
    rw [completedCalls,if_pos completes.1,(completesAll completes methods).1]
  constructor
  · intro l m
    have added : m ∈ (completedCalls pass course).map Prod.fst := by
      rw [done]
      cases m <;> decide
    obtain ⟨⟨m',score⟩,mem,rfl⟩ := List.mem_map.mp added
    rw [sizesOf,List.filter_append,List.map_append]
    rcases Classical.em (l = lib) with rfl | other
    · rw [intact.added m' score mem,← logged.sizes l m',Option.getD_some,List.map_append]
      simp [sizesOf]
    · rw [intact.kept l _ (fun _ _ _ same => other same.1),← sizesOf,logged.sizes l m']
      simp [Ne.symm other]
  · intro l op there
    rcases Classical.em (∃ m score, (m,score) ∈ completedCalls pass course ∧
      l = lib ∧ op = names.op m) with ⟨m,_,_,_,same⟩ | other
    · exact ⟨m,same⟩
    · rw [intact.kept l op (fun m score mem same => other ⟨m,score,mem,same⟩)] at there
      exact logged.operations l op there
  · intro l mem
    rcases (intact.libraries l).mp mem with before | ⟨rfl,_⟩
    · obtain ⟨N',earlier⟩ := logged.libraries l before
      exact ⟨N',List.mem_append_left _ earlier⟩
    · exact ⟨N,by simp⟩

end Log

theorem loggedEmpty (names : Literals Name) : Logged names (∅ : Records Name Score) [] := by
  constructor
  · intro lib m
    simp [sizesOf,found]
  · intro lib op there
    simp [found] at there
  · intro lib mem
    simp at mem

namespace Program

structure Passed (names : Literals Name) (libraries : List Name) (s : Program Name Score) : Prop where
  logged : ∃ calls, Logged names s.results calls ∧
    calls ++ s.pending = (List.replicate (s.pass + 1) (benchmarkCalls libraries)).flatten
  current : s.currentResults = s.results

def CompleteStep (libraries : List Name) [LT Score] [DecidableLT Score] (s : Program Name Score)
    (course : Course Score) : Prop := Completes (ready libraries s).pass course

variable {names : Literals Name} {libraries : List Name} {s next : Program Name Score}

theorem passedInitial : Passed names libraries (initial libraries : Program Name Score) :=
  ⟨⟨[],loggedEmpty names,by simp [initial]⟩,rfl⟩

theorem passedReady (passed : Passed names libraries s) : Passed names libraries (ready libraries s) := by
  obtain ⟨⟨calls,logged,all⟩,current⟩ := passed
  unfold ready
  split
  · next finished =>
    rw [finished,List.append_nil] at all
    refine ⟨⟨calls,current ▸ logged,?_⟩,rfl⟩
    rw [all,List.replicate_succ' (n := s.pass + 1),List.flatten_append,List.flatten_singleton]
  · exact ⟨⟨calls,logged,all⟩,current⟩

theorem stepPassed [LT Score] [DecidableLT Score] {course : Course Score}
    (passed : Passed names libraries s) (complete : CompleteStep libraries s course)
    (taken : step names libraries s course = some next) : Passed names libraries next := by
  obtain ⟨⟨calls,logged,all⟩,_⟩ := passedReady passed
  obtain ⟨_,N,lib,rest,out,pending,rfl,rfl⟩ := stepCases taken
  refine ⟨⟨calls ++ [(N,lib)],completesLogged complete logged,?_⟩,?_⟩
  · rw [List.append_assoc,List.singleton_append,← pending]
    exact all
  · have newest : (runBenchmarkClass names (ready libraries s).pass N lib course
        (ready libraries s).results).published.head? = some _ := completesPublished complete _
    rw [currentResults,List.headD_eq_head?_getD,List.head?_append,newest]
    rfl

end Program
end SignalSlot.Benchmark

namespace SignalSlot.Report
open Std (TreeMap)
open Benchmark GuardedRun Subscript

variable {Name : Type} [LinearOrder Name]

theorem callsOfLibrary {libraries : List Name} (nodup : libraries.Nodup) {lib : Name}
    (mem : lib ∈ libraries) :
    ((benchmarkCalls libraries).filter (fun call => call.2 = lib)).map Prod.fst = testSizes := by
  have ofSize : ∀ N : Nat, ((libraries.map (fun l => (N,l))).filter (fun call => call.2 = lib)).map Prod.fst =
      [N] := by
    intro N
    have one : libraries.filter (fun l => l = lib) = [lib] := by
      rw [List.filter_eq,nodup.count,if_pos mem,List.replicate_one]
    rw [List.filter_map,Function.comp_def,one]
    rfl
  rw [benchmarkCalls,List.filter_flatMap,List.map_flatMap]
  simp only [ofSize]
  rfl

theorem passesOfLibrary {libraries : List Name} (nodup : libraries.Nodup) {lib : Name}
    (mem : lib ∈ libraries) (R : Nat) :
    ((List.replicate R (benchmarkCalls libraries)).flatten.filter (fun call => call.2 = lib)).map Prod.fst =
      (List.replicate R testSizes).flatten := by
  rw [List.filter_flatten,List.map_flatten,List.map_replicate,List.map_replicate,callsOfLibrary nodup mem]

section Passes
variable {names : Literals Name} {libraries : List Name} {R : Nat} {results : ClassResults Name}
variable {lib : Name × MethodResults Name}

theorem loggedLibrary (logged : Logged names results (List.replicate R (benchmarkCalls libraries)).flatten)
    (mem : lib ∈ results.toList) : lib.1 ∈ libraries := by
  have here := TreeMap.mem_toList_iff_getElem?_eq_some.mp mem
  obtain ⟨N,called⟩ := logged.libraries lib.1 (by rw [TreeMap.mem_iff_isSome_getElem?,here]; rfl)
  obtain ⟨calls,pass,inPass⟩ := List.mem_flatten.mp called
  rw [List.eq_of_mem_replicate pass,benchmarkCalls,List.mem_flatMap] at inPass
  obtain ⟨_,_,inSize⟩ := inPass
  obtain ⟨l,known,same⟩ := List.mem_map.mp inSize
  exact (Prod.mk.inj same).2 ▸ known

theorem loggedSizes (nodup : libraries.Nodup)
    (logged : Logged names results (List.replicate R (benchmarkCalls libraries)).flatten)
    (mem : lib ∈ results.toList) (m : Method) :
    sizesOf results lib.1 (names.op m) = (List.replicate R testSizes).flatten := by
  rw [logged.sizes,passesOfLibrary nodup (loggedLibrary logged mem)]

theorem loggedEntry (nodup : libraries.Nodup)
    (logged : Logged names results (List.replicate R (benchmarkCalls libraries)).flatten)
    (mem : lib ∈ results.toList) {op} (inside : op ∈ lib.2.toList) :
    op.2.map Prod.fst = (List.replicate R testSizes).flatten := by
  have there : found results lib.1 op.1 = some op.2 := by
    rw [found,TreeMap.mem_toList_iff_getElem?_eq_some.mp mem,Option.bind_some]
    exact TreeMap.mem_toList_iff_getElem?_eq_some.mp inside
  obtain ⟨m,same⟩ := logged.operations lib.1 op.1 (by rw [there]; rfl)
  rw [← loggedSizes nodup logged mem m,sizesOf,← same,there,Option.getD_some]

theorem loggedConnection (nodup : libraries.Nodup) (positive : 1 ≤ R)
    (logged : Logged names results (List.replicate R (benchmarkCalls libraries)).flatten)
    (mem : lib ∈ results.toList) : operations names.text lib.2 ≠ [] := by
  have nonempty : sizesOf results lib.1 (names.op .connection) ≠ [] := by
    rw [loggedSizes nodup logged mem,← Nat.sub_add_cancel positive,List.replicate_succ]
    exact List.append_ne_nil_of_left_ne_nil (by decide) _
  cases there : lib.2[names.op .connection]? with
  | none =>
    rw [sizesOf,found,TreeMap.mem_toList_iff_getElem?_eq_some.mp mem,Option.bind_some,there] at nonempty
    contradiction
  | some vals =>
    have unbracketed : bracketed names.text (names.op .connection) = false := by
      rw [bracketed,names.spelled]
      decide
    refine List.ne_nil_of_mem (a := (names.op .connection,vals)) (List.mem_filter.mpr ⟨?_,?_⟩)
    · exact TreeMap.mem_toList_iff_getElem?_eq_some.mpr there
    · rw [unbracketed]
      rfl

theorem resultsAtSize {vals : List (Nat × ℚ)} (sizes : vals.map Prod.fst = (List.replicate R testSizes).flatten)
    {c : Nat} (size : c ∈ testSizes) : (vals.filter (fun val => val.1 = c)).length = R := by
  have counted : (vals.filter (fun val => val.1 = c)).length = (vals.map Prod.fst).count c := by
    rw [List.count_eq_countP,List.countP_map,List.countP_eq_length_filter]
    rfl
  have once : testSizes.count c = 1 := by rw [List.Nodup.count (by decide),if_pos size]
  rw [counted,sizes,List.count_flatten,List.map_replicate,once,List.sum_replicate,Nat.nsmul_eq_mul,mul_one]

theorem loggedOnePerPass (nodup : libraries.Nodup) (positive : 1 ≤ R)
    (logged : Logged names results (List.replicate R (benchmarkCalls libraries)).flatten)
    (mem : lib ∈ results.toList) : OnePerPass names.text R lib.2 := by
  refine ⟨?_,?_,loggedConnection nodup positive logged mem⟩
  · intro op inside c size
    exact resultsAtSize (loggedEntry nodup logged mem inside) size
  · intro op inside val inVals
    have size := List.mem_map_of_mem (f := Prod.fst) inVals
    rw [loggedEntry nodup logged mem inside] at size
    obtain ⟨sizes,pass,inPass⟩ := List.mem_flatten.mp size
    rwa [List.eq_of_mem_replicate pass] at inPass

end Passes

theorem completePassesOnePerPass (names : Literals Name) {libraries : List Name} (nodup : libraries.Nodup)
    (courses : List (Course ℚ))
    (complete : EveryStep (Program.step names libraries) (Program.CompleteStep libraries)
      (Program.initial libraries) courses) :
    EveryState (Program.step names libraries) (fun s => s.pending = [] →
      ∀ lib ∈ s.currentResults.toList, OnePerPass names.text (s.pass + 1) lib.2)
      (Program.initial libraries) courses := by
  have passed : EveryState (Program.step names libraries) (Program.Passed names libraries)
      (Program.initial libraries) courses :=
    everyStateOfSteps (fun _ _ _ passed complete taken => Program.stepPassed passed complete taken)
      Program.passedInitial complete
  refine everyStateImp (fun s passed finished => ?_) passed
  obtain ⟨⟨calls,logged,all⟩,current⟩ := passed
  rw [finished,List.append_nil] at all
  rw [current]
  exact fun lib mem => loggedOnePerPass nodup (Nat.le_add_left 1 s.pass) (all ▸ logged) mem

theorem firstPassPrintsMeans (names : Literals Name) {libraries : List Name} (nodup : libraries.Nodup)
    (courses : List (Course ℚ))
    (complete : EveryStep (Program.step names libraries) (Program.CompleteStep libraries)
      (Program.initial libraries) courses) :
    EveryState (Program.step names libraries) (fun s => s.pending = [] →
      ∀ lib ∈ s.currentResults.toList, PerSizeMeans names.text lib.2 ↔
        s.pass = 0 ∨ ∀ c ∈ testSizes, sizeSum names.text c lib.2 = 0)
      (Program.initial libraries) courses := by
  refine everyStateImp (fun s passes finished lib mem => ?_)
    (completePassesOnePerPass names nodup courses complete)
  have exactly := perSizeMeansOf (passes finished lib mem) (Nat.le_add_left 1 s.pass)
  rwa [Nat.add_eq_right] at exactly

end SignalSlot.Report
