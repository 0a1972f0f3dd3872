import SignalSlot.BenchmarkReport
import SignalSlot.BenchmarkThrows
import SignalSlot.Library.ListSums
import Mathlib.Algebra.BigOperators.Ring.List
import Mathlib.Tactic.FieldSimp

/-! The plotly report: for each test size and library the results at that size, added up
over the operations and divided by their number. The results of all passes are in the
same vectors and nothing divides by the number of passes. -/
namespace SignalSlot.Report
open Std ListSums Benchmark

variable {Name : Type} (text : Name → String)

def plotlyOperation (c : Nat) (found : ℚ × Nat) (op : Name) (vals : List (Nat × ℚ)) : ℚ × Nat :=
  if bracketed text op then found
  else (vals.foldl (fun sum val => if c = val.1 then sum + val.2 else sum) found.1,found.2 + 1)

abbrev resultsAt (c : Nat) (vals : List (Nat × ℚ)) : ℚ := sumAt Prod.fst Prod.snd c vals

theorem plotlyValues (c : Nat) (vals : List (Nat × ℚ)) (start : ℚ) :
    vals.foldl (fun sum val => if c = val.1 then sum + val.2 else sum) start =
      start + resultsAt c vals := by
  induction vals generalizing start with
  | nil => simp [resultsAt,sumAt]
  | cons val rest ih =>
    rw [List.foldl_cons,ih]
    unfold resultsAt
    rw [sumAtCons]
    split
    · next same => rw [if_pos same.symm,add_assoc]
    · next other => rw [if_neg (fun same => other same.symm),zero_add]

theorem plotlyLoop (text : Name → String) (c : Nat) (entries : List (Name × List (Nat × ℚ)))
    (start : ℚ × Nat) :
    entries.foldl (fun found entry => plotlyOperation text c found entry.1 entry.2) start =
      (start.1 + ((entries.filter (fun entry => !bracketed text entry.1)).map
        (fun entry => resultsAt c entry.2)).sum,
        start.2 + (entries.filter (fun entry => !bracketed text entry.1)).length) := by
  induction entries generalizing start with
  | nil => simp
  | cons entry rest ih =>
    rw [List.foldl_cons,ih,plotlyOperation]
    cases named : bracketed text entry.1 with
    | true => simp [named]
    | false => simp [named,plotlyValues,add_assoc,Nat.add_comm 1]

variable [LinearOrder Name]

def plotlyScore (c : Nat) (results : MethodResults Name) : Double :=
  let found := results.foldl (plotlyOperation text c) (0,0)
  if found.2 = 0 then none else some (found.1 / found.2)

def testSizes : List Nat := doublings startTestSize endingTestSize

structure Plotly (Name : Type) where
  columns : List Name
  rows : List (Nat × List Double)

def outputPlotlyReports (records : ClassResults Name) : Plotly Name :=
  ⟨records.keys,testSizes.map (fun c => (c,records.toList.map (fun lib => plotlyScore text c lib.2)))⟩

def operations (results : MethodResults Name) : List (Name × List (Nat × ℚ)) :=
  results.toList.filter (fun entry => !bracketed text entry.1)

def sizeSum (c : Nat) (results : MethodResults Name) : ℚ :=
  ((operations text results).map (fun entry => resultsAt c entry.2)).sum

structure OnePerPass (R : Nat) (results : MethodResults Name) : Prop where
  each : ∀ op ∈ results.toList, ∀ c ∈ testSizes, (op.2.filter (fun val => val.1 = c)).length = R
  only : ∀ op ∈ results.toList, ∀ val ∈ op.2, val.1 ∈ testSizes
  scored : operations text results ≠ []
instance (R : Nat) (results : MethodResults Name) : Decidable (OnePerPass text R results) :=
  decidable_of_iff
    ((∀ op ∈ results.toList, ∀ c ∈ testSizes, (op.2.filter (fun val => val.1 = c)).length = R) ∧
      (∀ op ∈ results.toList, ∀ val ∈ op.2, val.1 ∈ testSizes) ∧ operations text results ≠ [])
    ⟨fun ⟨each,only,scored⟩ => ⟨each,only,scored⟩,
      fun passes => ⟨passes.each,passes.only,passes.scored⟩⟩

def meanOfMeans (c : Nat) (results : MethodResults Name) : ℚ :=
  ((operations text results).map (fun entry => mean (entry.2.filter (fun val => val.1 = c)))).sum /
    (operations text results).length

structure PerSizeMeans (results : MethodResults Name) : Prop where
  printed : ∀ c ∈ testSizes, plotlyScore text c results = some (meanOfMeans text c results)
  agrees : ∃ values : List ℚ, testSizes.map (fun c => plotlyScore text c results) = values.map some ∧
    (scoreMethods text results).1 =
      some (values.sum / testSizes.length * (operations text results).length)

def repeatResults (k : Nat) (results : MethodResults Name) : MethodResults Name :=
  results.map (fun _ vals => (List.replicate k vals).flatten)

def repeatPasses (k : Nat) (records : ClassResults Name) : ClassResults Name :=
  records.map (fun _ results => repeatResults k results)

def NothingAtAnySize (records : ClassResults Name) : Prop :=
  ∀ lib ∈ records.toList, ∀ c ∈ testSizes, sizeSum text c lib.2 = 0
instance (records : ClassResults Name) : Decidable (NothingAtAnySize text records) := by
  unfold NothingAtAnySize
  infer_instance

section Scores
variable {text} {results : MethodResults Name}

theorem operationsLength (nonempty : operations text results ≠ []) :
    ((operations text results).length : ℚ) ≠ 0 :=
  Nat.cast_ne_zero.mpr (fun none => nonempty (List.eq_nil_of_length_eq_zero none))

theorem plotlyScoreSum (nonempty : operations text results ≠ []) (c : Nat) :
    plotlyScore text c results =
      some (sizeSum text c results / (operations text results).length) := by
  have length := Nat.cast_ne_zero.mp (operationsLength nonempty)
  rw [plotlyScore,TreeMap.foldl_eq_foldl_toList,plotlyLoop,zero_add,Nat.zero_add,← operations,← sizeSum]
  exact if_neg length

variable {R : Nat}

theorem meanOfMeansSum (onePerPass : OnePerPass text R results) {c : Nat} (size : c ∈ testSizes) :
    meanOfMeans text c results =
      sizeSum text c results / R / (operations text results).length := by
  have means : (operations text results).map (fun entry => mean (entry.2.filter (fun val => val.1 = c))) =
      (operations text results).map (fun entry => resultsAt c entry.2 * (R : ℚ)⁻¹) := by
    refine List.map_congr_left (fun entry mem => ?_)
    rw [mean,onePerPass.each entry (List.mem_of_mem_filter mem) c size,div_eq_mul_inv]
    rfl
  rw [meanOfMeans,means,List.sum_map_mul_right,← sizeSum,div_eq_mul_inv (sizeSum text c results)]

theorem resultsLength (onePerPass : OnePerPass text R results) {op} (mem : op ∈ results.toList) :
    op.2.length = testSizes.length * R := by
  have counted := sumByKey Prod.fst (fun _ => 1) (by decide : testSizes.Nodup) (onePerPass.only op mem)
  have perSize : testSizes.map (fun c => sumAt Prod.fst (fun _ => 1) c op.2) =
      testSizes.map (fun _ => R) := by
    refine List.map_congr_left (fun c size => ?_)
    rw [sumAt,List.map_const',List.sum_replicate,onePerPass.each op mem c size,Nat.nsmul_eq_mul,mul_one]
  rw [perSize,List.map_const',List.map_const',List.sum_replicate,List.sum_replicate,
    Nat.nsmul_eq_mul,Nat.nsmul_eq_mul,mul_one] at counted
  exact counted.symm

theorem totalSum (onePerPass : OnePerPass text R results) : total text results =
    (testSizes.map (fun c => sizeSum text c results)).sum / (testSizes.length * R : Nat) := by
  have means : (operations text results).map (fun entry => mean entry.2) =
      (operations text results).map (fun entry =>
        (testSizes.map (fun c => resultsAt c entry.2)).sum * ((testSizes.length * R : Nat) : ℚ)⁻¹) := by
    refine List.map_congr_left (fun entry mem => ?_)
    have inside := List.mem_of_mem_filter mem
    rw [mean,resultsLength onePerPass inside,div_eq_mul_inv,
      ← sumByKey Prod.fst Prod.snd (by decide : testSizes.Nodup) (onePerPass.only entry inside)]
  rw [total,← operations,means,List.sum_map_mul_right,sumSwap,div_eq_mul_inv]
  rfl

theorem scoredOnePerPass (onePerPass : OnePerPass text R results) (positive : 1 ≤ R) :
    Scored text results := by
  intro op mem _ empty
  have length := resultsLength onePerPass mem
  rw [empty,List.length_nil] at length
  have some : 0 < testSizes.length * R := Nat.mul_pos (by decide) positive
  omega

theorem unchangedByDivision {R : Nat} (positive : 1 ≤ R) (x : ℚ) : x / R = x ↔ R = 1 ∨ x = 0 := by
  have nonzero : (R : ℚ) ≠ 0 := Nat.cast_ne_zero.mpr (by omega)
  rw [div_eq_iff nonzero,eq_comm,mul_right_eq_self₀,Nat.cast_eq_one]

theorem meansAgree (onePerPass : OnePerPass text R results) (positive : 1 ≤ R)
    (same : ∀ c ∈ testSizes, sizeSum text c results / R = sizeSum text c results) :
    ∃ values : List ℚ, testSizes.map (fun c => plotlyScore text c results) = values.map some ∧
      (scoreMethods text results).1 =
        some (values.sum / testSizes.length * (operations text results).length) := by
  have nonzero := operationsLength onePerPass.scored
  refine ⟨testSizes.map (fun c => sizeSum text c results / (operations text results).length),?_,?_⟩
  · rw [List.map_map]
    exact List.map_congr_left (fun c _ => plotlyScoreSum onePerPass.scored c)
  · have divided : testSizes.map (fun c => sizeSum text c results) =
        testSizes.map (fun c => sizeSum text c results * (R : ℚ)⁻¹) :=
      List.map_congr_left (fun c size => (same c size).symm.trans (div_eq_mul_inv _ _))
    have inverse : testSizes.map (fun c => sizeSum text c results / (operations text results).length) =
        testSizes.map (fun c => sizeSum text c results * ((operations text results).length : ℚ)⁻¹) :=
      List.map_congr_left (fun c _ => div_eq_mul_inv _ _)
    have sums := congrArg List.sum divided
    rw [List.sum_map_mul_right] at sums
    rw [scoreTotal (scoredOnePerPass onePerPass positive),totalSum onePerPass,inverse,
      List.sum_map_mul_right]
    refine congrArg some ?_
    calc
      _ = (testSizes.map (fun c => sizeSum text c results)).sum * (R : ℚ)⁻¹ / testSizes.length := by
        rw [Nat.cast_mul,← div_eq_mul_inv,div_div,mul_comm (R : ℚ)]
      _ = (testSizes.map (fun c => sizeSum text c results)).sum / testSizes.length := by rw [← sums]
      _ = _ := by field_simp

theorem perSizeMeansOf (onePerPass : OnePerPass text R results) (positive : 1 ≤ R) :
    PerSizeMeans text results ↔ R = 1 ∨ ∀ c ∈ testSizes, sizeSum text c results = 0 := by
  have same : PerSizeMeans text results ↔
      ∀ c ∈ testSizes, sizeSum text c results / R = sizeSum text c results := by
    have nonzero := operationsLength onePerPass.scored
    constructor
    · intro means c size
      have printed := means.printed c size
      rw [plotlyScoreSum onePerPass.scored,meanOfMeansSum onePerPass size] at printed
      exact ((div_left_inj' nonzero).mp (Option.some.inj printed)).symm
    · intro same
      refine ⟨fun c size => ?_,meansAgree onePerPass positive same⟩
      rw [plotlyScoreSum onePerPass.scored,meanOfMeansSum onePerPass size,same c size]
  simp only [same,unchangedByDivision positive,forall_or_left]

end Scores

section Repeated
variable {text} {results : MethodResults Name}

theorem operationsRepeated (k : Nat) : operations text (repeatResults k results) =
    (operations text results).map (fun entry => (entry.1,(List.replicate k entry.2).flatten)) := by
  rw [operations,repeatResults,TreeMap.toList_map,List.filter_map]
  rfl

theorem sizeSumRepeated (k c : Nat) :
    sizeSum text c (repeatResults k results) = k * sizeSum text c results := by
  have repeated : ∀ vals : List (Nat × ℚ), resultsAt c (List.replicate k vals).flatten =
      k * resultsAt c vals := by
    intro vals
    rw [resultsAt,sumAtRepeated,nsmul_eq_mul]
  simp only [sizeSum,operationsRepeated,List.map_map,Function.comp_def,repeated,List.sum_map_mul_left]

theorem repeatedScore (nonempty : operations text results ≠ []) (k c : Nat) :
    plotlyScore text c (repeatResults k results) = plotlyScore text c results ↔
      k = 1 ∨ sizeSum text c results = 0 := by
  have nonzero := operationsLength nonempty
  have nonempty' : operations text (repeatResults k results) ≠ [] := by
    rw [operationsRepeated]
    exact fun none => nonempty (List.map_eq_nil_iff.mp none)
  rw [plotlyScoreSum nonempty,plotlyScoreSum nonempty',sizeSumRepeated,operationsRepeated,List.length_map,
    Option.some_inj,div_left_inj' nonzero,
    mul_left_eq_self₀,Nat.cast_eq_one]

theorem repeatedRows (records : ClassResults Name)
    (nonempty : ∀ lib ∈ records.toList, operations text lib.2 ≠ []) (k : Nat) :
    (outputPlotlyReports text (repeatPasses k records)).rows = (outputPlotlyReports text records).rows ↔
      k = 1 ∨ NothingAtAnySize text records := by
  have scores : (outputPlotlyReports text (repeatPasses k records)).rows =
        (outputPlotlyReports text records).rows ↔
      ∀ c ∈ testSizes, ∀ lib ∈ records.toList, k = 1 ∨ sizeSum text c lib.2 = 0 := by
    simp only [outputPlotlyReports,repeatPasses,TreeMap.toList_map,List.map_map,List.map_inj_left,
      Prod.mk.injEq,true_and,Function.comp_def]
    exact forall₂_congr (fun c _ => forall₂_congr (fun lib mem => repeatedScore (nonempty lib mem) k c))
  rw [scores]
  simp only [forall_or_left]
  exact or_congr_right ⟨fun all lib mem c size => all c size lib mem,
    fun all c size lib mem => all lib mem c size⟩

end Repeated

theorem perSizeMeansExactly (text : Name → String) (R : Nat) (positive : 1 ≤ R) (records : ClassResults Name)
    (passes : ∀ lib ∈ records.toList, OnePerPass text R lib.2) :
    ((∀ lib ∈ records.toList, PerSizeMeans text lib.2) ↔ R = 1 ∨ NothingAtAnySize text records) ∧
    ∀ k, 1 ≤ k →
      ((outputPlotlyReports text (repeatPasses k records)).rows = (outputPlotlyReports text records).rows ↔
        k = 1 ∨ NothingAtAnySize text records) := by
  refine ⟨?_,fun k _ => repeatedRows records (fun lib mem => (passes lib mem).scored) k⟩
  have each := forall₂_congr (fun lib mem => perSizeMeansOf (passes lib mem) positive)
  simpa only [NothingAtAnySize,forall_or_left] using each

/-! Complete passes over one library; every method returns 1. -/
def steadyCourse : Course ℚ := ⟨true,fun _ _ => some 1,fun _ => false⟩

def passResults : Nat → ClassResults Nat
  | 0 => ∅
  | R+1 => (benchmarkCalls [100]).foldl
      (fun results call => (runBenchmarkClass addressedNames R call.1 call.2 steadyCourse results).results)
      (passResults R)

theorem onePassPrintsMeans : (∀ lib ∈ (passResults 1).toList, OnePerPass addressedNames.text 1 lib.2) ∧
    ∀ lib ∈ (passResults 1).toList, PerSizeMeans addressedNames.text lib.2 :=
  ⟨by decide +kernel,
    (perSizeMeansExactly addressedNames.text 1 (Nat.le_refl 1) (passResults 1) (by decide +kernel)).1.mpr
      (.inl rfl)⟩

theorem secondPassAdded : (∀ lib ∈ (passResults 2).toList, OnePerPass addressedNames.text 2 lib.2) ∧
    (¬ ∀ lib ∈ (passResults 2).toList, PerSizeMeans addressedNames.text lib.2) ∧
    (outputPlotlyReports addressedNames.text (repeatPasses 2 (passResults 1))).rows ≠
      (outputPlotlyReports addressedNames.text (passResults 1)).rows := by
  refine ⟨by decide +kernel,fun means => ?_,by decide +kernel⟩
  have printed : ∀ lib ∈ (passResults 2).toList, plotlyScore addressedNames.text startTestSize lib.2 =
      some (meanOfMeans addressedNames.text startTestSize lib.2) :=
    fun lib mem => (means lib mem).printed startTestSize (by decide)
  exact absurd printed (by decide +kernel)

end SignalSlot.Report
