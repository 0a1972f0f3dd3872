import SignalSlot.BenchmarkRuns
import SignalSlot.Library.GuardedRun
import Mathlib.Order.Nat

/-! A benchmark call that throws: the results keep every score recorded before it,
and gain an entry without a score unless the operation was recorded already. -/
namespace SignalSlot.Benchmark
open Std Subscript GuardedRun

variable {Name Score : Type} [LinearOrder Name]

section Specification
variable [LT Score] [DecidableLT Score] (names : Literals Name) (pass N : Nat) (lib : Name)
variable (course : Course Score)

/-! What such a call should leave: the results of the methods that completed, and
nothing else. -/
def completed : List Method → List (Method × Score)
  | [] => []
  | m::rest => match bestOf pass (course.measure m) with
    | none => []
    | some score => (m,score)::(if course.escPressed m then [] else completed rest)

def throwing : List Method → Option Method
  | [] => none
  | m::rest => match bestOf pass (course.measure m) with
    | none => some m
    | some _ => if course.escPressed m then none else throwing rest

def completedCalls : List (Method × Score) :=
  if course.initialized then completed pass course methods else []

def throwingCall : Option Method := if course.initialized then throwing pass course methods else none

structure Intact (before after : Records Name Score) (done : List (Method × Score)) : Prop where
  added : ∀ m score, (m,score) ∈ done →
    found after lib (names.op m) = some ((found before lib (names.op m)).getD [] ++ [(N,score)])
  kept : ∀ l op, (∀ m score, (m,score) ∈ done → ¬ (l = lib ∧ op = names.op m)) →
    found after l op = found before l op
  libraries : ∀ l, l ∈ after ↔ l ∈ before ∨ (l = lib ∧ done ≠ [])

def ThrowsRecorded (before : Records Name Score) : Prop :=
  (course.initialized = false → lib ∈ before) ∧
  ∀ m ∈ throwingCall pass course, (found before lib (names.op m)).isSome = true
instance (before : Records Name Score) : Decidable (ThrowsRecorded names pass lib course before) := by
  unfold ThrowsRecorded
  infer_instance

end Specification

/-! The completed methods recorded one after the other, without a failure. -/
section Record
variable (names : Literals Name) (N : Nat) (lib : Name)

def record (results : Records Name Score) (call : Method × Score) : Records Name Score :=
  emplaceBack names N lib (subscript₂ results lib (names.op call.1) id) call.1 call.2

variable {names N lib}

theorem recordSame (results : Records Name Score) (call : Method × Score) :
    found (record names N lib results call) lib (names.op call.1) =
      some ((found results lib (names.op call.1)).getD [] ++ [(N,call.2)]) := by
  rw [record,emplaceBack,foundSame,foundSame,Option.getD_some]
  rfl

theorem recordOther (results : Records Name Score) (call : Method × Score) {l op : Name}
    (other : ¬ (l = lib ∧ op = names.op call.1)) :
    found (record names N lib results call) l op = found results l op := by
  rw [record,emplaceBack,foundOther other,foundOther other]

theorem memRecord {results : Records Name Score} {call : Method × Score} {l : Name} :
    l ∈ record names N lib results call ↔ l = lib ∨ l ∈ results := by
  simp only [record,emplaceBack,subscript₂,memSubscript,or_self_left]

theorem recordAllOther {done : List (Method × Score)} {l op : Name}
    (other : ∀ m score, (m,score) ∈ done → ¬ (l = lib ∧ op = names.op m)) (results : Records Name Score) :
    found (done.foldl (record names N lib) results) l op = found results l op := by
  induction done generalizing results with
  | nil => rfl
  | cons call rest ih =>
    rw [List.foldl_cons,ih (fun m score mem => other m score (List.mem_cons_of_mem _ mem))]
    exact recordOther results call (other call.1 call.2 List.mem_cons_self)

theorem recordAllAdded {done : List (Method × Score)} (nodup : (done.map Prod.fst).Nodup)
    {m score} (mem : (m,score) ∈ done) (results : Records Name Score) :
    found (done.foldl (record names N lib) results) lib (names.op m) =
      some ((found results lib (names.op m)).getD [] ++ [(N,score)]) := by
  induction done generalizing results with
  | nil => contradiction
  | cons call rest ih =>
    obtain ⟨fresh,nodupRest⟩ := List.nodup_cons.mp nodup
    have absent : ∀ m' score', (m',score') ∈ rest → m' ≠ call.1 := by
      intro m' score' later same
      exact fresh (same ▸ List.mem_map_of_mem later)
    rw [List.foldl_cons]
    rcases List.mem_cons.mp mem with rfl | later
    · rw [recordAllOther,recordSame]
      intro m' score' later same
      exact absent m' score' later (opInjective names same.2).symm
    · rw [ih nodupRest later,recordOther]
      intro same
      exact absent m score later (opInjective names same.2)

theorem memRecordAll {done : List (Method × Score)} {results : Records Name Score} {l : Name} :
    l ∈ done.foldl (record names N lib) results ↔ l ∈ results ∨ (l = lib ∧ done ≠ []) := by
  induction done generalizing results with
  | nil => simp
  | cons call rest ih =>
    simp only [List.foldl_cons,ih,memRecord]
    constructor
    · intro h
      rcases h with (same | before) | ⟨same,_⟩
      · exact .inr ⟨same,List.cons_ne_nil _ _⟩
      · exact .inl before
      · exact .inr ⟨same,List.cons_ne_nil _ _⟩
    · intro h
      rcases h with before | ⟨same,_⟩
      · exact .inl (.inr before)
      · exact .inl (.inl same)

theorem recordAllIntact {before : Records Name Score} {done : List (Method × Score)}
    (nodup : (done.map Prod.fst).Nodup) (known : lib ∈ before ∨ done ≠ []) :
    Intact names N lib before (done.foldl (record names N lib) (subscript before lib id)) done := by
  refine ⟨?_,?_,?_⟩
  · intro m score mem
    rw [recordAllAdded nodup mem,foundTouched]
  · intro l op other
    rw [recordAllOther other,foundTouched]
  · intro l
    rw [memRecordAll,memSubscript]
    constructor
    · intro h
      rcases h with (rfl | earlier) | added
      · exact known.imp_right (fun some => ⟨rfl,some⟩)
      · exact .inl earlier
      · exact .inr added
    · exact fun h => h.imp_left .inr

theorem intactOfFound {before after full : Records Name Score} {done : List (Method × Score)}
    (same : ∀ l op, found after l op = found full l op) (libs : ∀ l, l ∈ after ↔ l ∈ full)
    (intact : Intact names N lib before full done) : Intact names N lib before after done := by
  refine ⟨?_,?_,?_⟩
  · intro m score mem
    rw [same,intact.added m score mem]
  · intro l op other
    rw [same,intact.kept l op other]
  · intro l
    rw [libs,intact.libraries l]

end Record

section Loop
variable [LT Score] [DecidableLT Score] {names : Literals Name} {pass N : Nat} {lib : Name}
variable {course : Course Score}

theorem completedThrowing (pass : Nat) (course : Course Score) (ms : List Method) :
    (completed pass course ms).map Prod.fst ++ (throwing pass course ms).toList <+: ms := by
  induction ms with
  | nil => exact List.prefix_refl _
  | cons m rest ih =>
    simp only [completed,throwing]
    cases ran : bestOf pass (course.measure m) with
    | none => simp
    | some score => cases pressed : course.escPressed m with
      | true => simp
      | false => simpa using ih

theorem runMethodsResults (ms : List Method) (results : Records Name Score) :
    (runMethods names pass N lib course ms results).results =
      (throwing pass course ms).elim ((completed pass course ms).foldl (record names N lib) results)
        (fun m => subscript₂ ((completed pass course ms).foldl (record names N lib) results)
          lib (names.op m) id) := by
  induction ms generalizing results with
  | nil => rfl
  | cons m rest ih =>
    simp only [runMethods,completed,throwing]
    cases ran : bestOf pass (course.measure m) with
    | none => rfl
    | some score => cases pressed : course.escPressed m with
      | true => rfl
      | false => exact ih _

theorem foldPrefixes {α β : Type} {f : β → α → β} {start out : β} {a : α} {rest : List α} :
    (∃ done, done ≠ [] ∧ done <+: a::rest ∧ out = done.foldl f start) ↔
      out = f start a ∨ ∃ done, done ≠ [] ∧ done <+: rest ∧ out = done.foldl f (f start a) := by
  constructor
  · intro ⟨done,nonempty,within,same⟩
    cases done with
    | nil => contradiction
    | cons b later =>
      obtain ⟨rfl,inRest⟩ := List.cons_prefix_cons.mp within
      cases later with
      | nil => exact .inl same
      | cons next others => exact .inr ⟨next::others,List.cons_ne_nil _ _,inRest,same⟩
  · intro position
    rcases position with same | ⟨done,_,within,same⟩
    · exact ⟨[a],List.cons_ne_nil _ _,by simp,same⟩
    · exact ⟨a::done,List.cons_ne_nil _ _,List.cons_prefix_cons.mpr ⟨rfl,within⟩,same⟩

theorem runMethodsPublished {ms : List Method} {results shown : Records Name Score} :
    shown ∈ (runMethods names pass N lib course ms results).published ↔
      ∃ done, done ≠ [] ∧ done <+: completed pass course ms ∧
        shown = done.foldl (record names N lib) results := by
  induction ms generalizing results with
  | nil => simp [runMethods,completed,List.prefix_nil]
  | cons m rest ih =>
    simp only [runMethods,completed]
    cases ran : bestOf pass (course.measure m) with
    | none => simp [List.prefix_nil]
    | some score =>
      have first : emplaceBack names N lib (subscript₂ results lib (names.op m) id) m score =
          record names N lib results (m,score) := rfl
      simp only [first,foldPrefixes]
      cases pressed : course.escPressed m with
      | true => simp [List.prefix_nil]
      | false => simp [ih,or_comm]

theorem publishedPrefixes {results shown : Records Name Score} :
    shown ∈ (runBenchmarkClass names pass N lib course results).published ↔
      ∃ done, done ≠ [] ∧ done <+: completedCalls pass course ∧
        shown = done.foldl (record names N lib) (subscript results lib id) := by
  unfold runBenchmarkClass completedCalls
  split
  · exact runMethodsPublished
  · simp [List.prefix_nil]

theorem completedNodup {ms : List Method} (nodup : ms.Nodup) :
    ((completed pass course ms).map Prod.fst).Nodup ∧
    ∀ m ∈ throwing pass course ms, ∀ score, (m,score) ∉ completed pass course ms := by
  have both := (completedThrowing pass course ms).sublist.nodup nodup
  obtain ⟨first,_,apart⟩ := List.nodup_append.mp both
  refine ⟨first,?_⟩
  intro m stops score mem
  exact apart m (List.mem_map_of_mem mem) m (Option.mem_toList.mpr stops) rfl

theorem completedOfNotThrowing {m : Method} {rest : List Method}
    (none : throwing pass course (m::rest) = none) : completed pass course (m::rest) ≠ [] := by
  cases ran : bestOf pass (course.measure m) with
  | none => simp [throwing,ran] at none
  | some score => simp [completed,ran]

theorem methodsIntactExactly (before : Records Name Score) :
    Intact names N lib before
      (runMethods names pass N lib course methods (subscript before lib id)).results
      (completed pass course methods) ↔
    ∀ m ∈ throwing pass course methods, (found before lib (names.op m)).isSome = true := by
  obtain ⟨nodup,apart⟩ := @completedNodup _ _ _ pass course methods (by decide)
  rw [runMethodsResults]
  cases stops : throwing pass course methods with
  | none =>
    have some := completedOfNotThrowing stops
    exact ⟨fun _ m impossible => (nomatch impossible),fun _ => recordAllIntact nodup (.inr some)⟩
  | some m =>
    have other : ∀ m' score, (m',score) ∈ completed pass course methods →
        ¬ (lib = lib ∧ names.op m = names.op m') := by
      intro m' score mem same
      rw [← opInjective names same.2] at mem
      exact apart m stops score mem
    have unrecorded := recordAllOther (N := N) other (subscript before lib id)
    rw [foundTouched] at unrecorded
    constructor
    · intro intact m' same
      cases same
      rw [← intact.kept lib (names.op m) other,Option.elim_some,foundSame]
      rfl
    · intro recorded
      obtain ⟨scores,known⟩ := Option.isSome_iff_exists.mp (recorded m rfl)
      refine intactOfFound (foundKnown (unrecorded.trans known)) ?_
        (recordAllIntact nodup (.inl (memOfFound known)))
      intro l
      rw [Option.elim_some,subscript₂,memSubscript,memRecordAll,memSubscript]
      exact ⟨fun h => h.elim (fun same => .inl (.inl same)) id,.inr⟩

theorem intactExactly (before : Records Name Score) :
    Intact names N lib before (runBenchmarkClass names pass N lib course before).results
      (completedCalls pass course) ↔ ThrowsRecorded names pass lib course before := by
  unfold runBenchmarkClass completedCalls ThrowsRecorded throwingCall
  cases course.initialized with
  | true => simpa using methodsIntactExactly before
  | false =>
    constructor
    · intro intact
      have libs := (intact.libraries lib).mp (memSubscript.mpr (.inl rfl))
      exact ⟨fun _ => libs.resolve_right (fun h => h.2 rfl),fun m stops => nomatch stops⟩
    · intro recorded
      have none : (([] : List (Method × Score)).map Prod.fst).Nodup := List.nodup_nil
      exact recordAllIntact none (.inl (recorded.1 rfl))

end Loop
/-! What the report relies on: every recorded operation has a result. -/
def Measured (records : Records Name Score) : Prop :=
  ∀ lib ∈ records.toList, ∀ op ∈ lib.2.toList, op.2 ≠ []

instance (records : Records Name Score) : Decidable (Measured records) := by
  unfold Measured
  infer_instance

theorem measuredFound {records : Records Name Score} :
    Measured records ↔ ∀ l op scores, found records l op = some scores → scores ≠ [] :=
  memEntries (P := fun scores => scores ≠ [])

theorem intactMeasured {names : Literals Name} {N : Nat} {lib : Name} {before after : Records Name Score}
    {done : List (Method × Score)} (measured : Measured before)
    (intact : Intact names N lib before after done) : Measured after := by
  rw [measuredFound] at measured ⊢
  intro l op scores there
  rcases Classical.em (∃ m score, (m,score) ∈ done ∧ l = lib ∧ op = names.op m) with added | other
  · obtain ⟨m,score,mem,rfl,rfl⟩ := added
    rw [intact.added m score mem] at there
    rw [← Option.some.inj there]
    exact List.append_ne_nil_of_right_ne_nil _ (List.cons_ne_nil _ _)
  · refine measured l op scores ((intact.kept l op ?_).symm.trans there)
    intro m score mem same
    exact other ⟨m,score,mem,same⟩

theorem measuredEmpty : Measured (∅ : Records Name Score) := by
  rw [measuredFound]
  intro l op scores there
  simp [found] at there

theorem measuredTouched {records : Records Name Score} (measured : Measured records) (lib : Name) :
    Measured (subscript records lib id) := by
  rw [measuredFound] at measured ⊢
  intro l op scores there
  rw [foundTouched] at there
  exact measured l op scores there

theorem recordMeasured {names : Literals Name} {N : Nat} {lib : Name} {results : Records Name Score}
    (measured : Measured results) (call : Method × Score) : Measured (record names N lib results call) := by
  rw [measuredFound] at measured ⊢
  intro l op scores there
  rcases Classical.em (l = lib ∧ op = names.op call.1) with same | other
  · obtain ⟨rfl,rfl⟩ := same
    rw [recordSame] at there
    rw [← Option.some.inj there]
    exact List.append_ne_nil_of_right_ne_nil _ (List.cons_ne_nil _ _)
  · rw [recordOther results call other] at there
    exact measured l op scores there

theorem recordAllMeasured {names : Literals Name} {N : Nat} {lib : Name} (done : List (Method × Score))
    {results : Records Name Score} (measured : Measured results) :
    Measured (done.foldl (record names N lib) results) := by
  induction done generalizing results with
  | nil => exact measured
  | cons call rest ih => exact ih (recordMeasured measured call)

namespace Program

def MapsMeasured (s : Program Name Score) : Prop :=
  Measured s.results ∧ ∀ shown ∈ s.published, Measured shown
instance (s : Program Name Score) : Decidable (MapsMeasured s) := by
  unfold MapsMeasured
  infer_instance

theorem readyMeasured {libraries : List Name} {s : Program Name Score} (measured : MapsMeasured s) :
    MapsMeasured (ready libraries s) := by
  unfold ready
  split
  · refine ⟨?_,measured.2⟩
    cases shown : s.published with
    | nil =>
      rw [currentResults,shown]
      exact measuredEmpty
    | cons newest older =>
      rw [currentResults,shown]
      exact measured.2 newest (shown ▸ List.mem_cons_self)
  · exact measured

end Program

section Runs
variable [LT Score] [DecidableLT Score] {names : Literals Name} {libraries : List Name}

theorem publishedMeasured {pass N : Nat} {lib : Name} {course : Course Score}
    {results shown : Records Name Score} (measured : Measured results)
    (mem : shown ∈ (runBenchmarkClass names pass N lib course results).published) : Measured shown := by
  obtain ⟨done,_,_,rfl⟩ := publishedPrefixes.mp mem
  exact recordAllMeasured done (measuredTouched measured lib)

namespace Program

def IntactStep (names : Literals Name) (libraries : List Name) (s : Program Name Score)
    (course : Course Score) : Prop :=
  ∀ N lib rest, (ready libraries s).pending = (N,lib)::rest →
    Intact names N lib (ready libraries s).results
      (runBenchmarkClass names (ready libraries s).pass N lib course (ready libraries s).results).results
      (completedCalls (ready libraries s).pass course)

def RecordedStep (names : Literals Name) (libraries : List Name) (s : Program Name Score)
    (course : Course Score) : Prop :=
  ∀ N lib rest, (ready libraries s).pending = (N,lib)::rest →
    ThrowsRecorded names (ready libraries s).pass lib course (ready libraries s).results

theorem stepMeasured {s next : Program Name Score} {course : Course Score} (measured : MapsMeasured s)
    (intact : IntactStep names libraries s course) (taken : step names libraries s course = some next) :
    MapsMeasured next := by
  have here : MapsMeasured (ready libraries s) := readyMeasured measured
  obtain ⟨_,N,lib,rest,out,calls,rfl,rfl⟩ := stepCases taken
  refine ⟨intactMeasured here.1 (intact N lib rest calls),?_⟩
  intro shown mem
  rcases List.mem_append.mp mem with new | old
  · exact publishedMeasured here.1 new
  · exact measured.2 shown old

theorem intactStepExactly (s : Program Name Score) (course : Course Score) :
    IntactStep names libraries s course ↔ RecordedStep names libraries s course :=
  forall_congr' (fun _ => forall_congr' (fun _ => forall_congr' (fun _ =>
    imp_congr_right (fun _ => intactExactly _))))

theorem runMeasured {courses : List (Course Score)} {s : Program Name Score} (measured : MapsMeasured s)
    (intact : EveryStep (step names libraries) (IntactStep names libraries) s courses) :
    EveryState (step names libraries) MapsMeasured s courses :=
  everyStateOfSteps (fun _ _ _ before permitted taken => stepMeasured before permitted taken)
    measured intact

end Program

theorem throwsIntactExactly (names : Literals Name) :
    (∀ (pass N : Nat) (lib : Name) (course : Course Score) (before : Records Name Score),
      Intact names N lib before (runBenchmarkClass names pass N lib course before).results
        (completedCalls pass course) ↔ ThrowsRecorded names pass lib course before) ∧
    ∀ (libraries : List Name) (courses : List (Course Score)),
      EveryStep (Program.step names libraries) (Program.IntactStep names libraries)
          (Program.initial libraries) courses ∧
        EveryState (Program.step names libraries) Program.MapsMeasured (Program.initial libraries) courses ↔
      EveryStep (Program.step names libraries) (Program.RecordedStep names libraries)
        (Program.initial libraries) courses := by
  refine ⟨fun pass N lib course before => intactExactly before,fun libraries courses => ?_⟩
  constructor
  · intro h
    exact everyStepImp (fun s course _ _ => (Program.intactStepExactly s course).mp) h.1
  · intro recorded
    have intact := everyStepImp (fun s course _ _ => (Program.intactStepExactly s course).mpr) recorded
    exact ⟨intact,Program.runMeasured ⟨measuredEmpty,fun _ mem => nomatch mem⟩ intact⟩

end Runs

/-! The first method of the first library throws. -/
def addressedNames : Literals Nat where
  text n := (methods.map Method.label).getD n ""
  op m := methods.idxOf m
  spelled m := by cases m <;> rfl

def throwingCourse : Course Nat := ⟨true,fun _ _ => none,fun _ => false⟩

theorem throwLeavesEmptyOperation :
    ¬ Intact addressedNames 2 100 ∅ (runBenchmarkClass addressedNames 0 2 100 throwingCourse ∅).results
      (completedCalls 0 throwingCourse) ∧
    ¬ EveryState (Program.step addressedNames [100]) Program.MapsMeasured (Program.initial [100])
      [throwingCourse] := by
  constructor
  · intro intact
    exact absurd ((intactExactly _).mp intact) (by decide +kernel)
  · decide +kernel

end SignalSlot.Benchmark
