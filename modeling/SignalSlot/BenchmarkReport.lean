import Mathlib.Algebra.BigOperators.Group.List.Basic
import Mathlib.Algebra.Order.Ring.Rat
import Mathlib.Order.Std

/-! The performance table of output_reports, in exact arithmetic: a double is a
rational number or `none`, the value of 0.0 / 0.0. The rows pass through a map that
is keyed by the score, so of several libraries with one score only the last one is
printed. A score that is not a number compares equal with every other one. -/
namespace SignalSlot.Report
open Std (TreeMap LawfulEqCmp)

/- The keys of the maps are addresses of strings, and are ordered as addresses. -/
variable {Name : Type} [LinearOrder Name] (text : Name → String)

abbrev MethodResults (Name : Type) [LinearOrder Name] := TreeMap Name (List (Nat × ℚ))
abbrev ClassResults (Name : Type) [LinearOrder Name] := TreeMap Name (MethodResults Name)

abbrev Double := Option ℚ

abbrev ReportMethodResults (Name : Type) [LinearOrder Name] := TreeMap Name Double
abbrev ReportOrderedResult (Name : Type) [LinearOrder Name] := Name × ReportMethodResults Name

/-- `std::map<double, ReportOrderedResult>`. What is not a number is the key of the only
entry, if of any: no search gets past it. -/
inductive ReportOrderedResults (Name : Type) [LinearOrder Name] where
  | numbers (entries : TreeMap ℚ (ReportOrderedResult Name))
  | notANumber (entry : ReportOrderedResult Name)

namespace ReportOrderedResults

-- `result_order[score] = ...`. The search for what is not a number ends at an entry whose
-- place depends on the library's map; `landing` stands for it.
def store (landing : Nat) (order : ReportOrderedResults Name) (score : Double)
    (entry : ReportOrderedResult Name) : ReportOrderedResults Name := match order with
  | .notANumber _ => .notANumber entry
  | .numbers entries => match score with
    | some score => .numbers (entries.insert score entry)
    | none => match entries.keys[landing % entries.keys.length]? with
      | some key => .numbers (entries.insert key entry)
      | none => .notANumber entry

def toList : ReportOrderedResults Name → List (Double × ReportOrderedResult Name)
  | .numbers entries => entries.toList.map (fun entry => (some entry.1,entry.2))
  | .notANumber entry => [(none,entry)]

end ReportOrderedResults

def Double.add (a b : Double) : Double := do
  let a ← a
  let b ← b
  some (a + b)

def average (vals : List (Nat × ℚ)) : Double :=
  if vals = [] then none else some (vals.foldl (fun sum val => sum + val.2) 0 / vals.length)

def bracketed (op : Name) : Bool := (text op).toList.head? == some '['

def scoreMethod (found : Double × ReportMethodResults Name) (op : Name) (vals : List (Nat × ℚ)) :
    Double × ReportMethodResults Name :=
  (if bracketed text op then found.1 else found.1.add (average vals),found.2.insert op (average vals))

def scoreMethods (results : MethodResults Name) : Double × ReportMethodResults Name :=
  results.foldl (scoreMethod text) (some 0,∅)

section Output
variable (landing : Name → Nat)

def orderLibrary (order : ReportOrderedResults Name) (lib : Name) (results : MethodResults Name) :
    ReportOrderedResults Name :=
  order.store (landing lib) (scoreMethods text results).1 (lib,(scoreMethods text results).2)

def orderResults (records : ClassResults Name) : ReportOrderedResults Name :=
  records.foldl (orderLibrary text landing) (.numbers ∅)

structure Row (Name : Type) where
  libName : Name
  values : List Double
  score : Double

structure Table (Name : Type) where
  header : Option (List Name)
  rows : List (Row Name)

def rowOf (entry : Double × ReportOrderedResult Name) : Row Name :=
  ⟨entry.2.1,entry.2.2.values,entry.1⟩

def outputReports (records : ClassResults Name) : Table Name :=
  let rows := (orderResults text landing records).toList.reverse
  ⟨rows.head?.map (fun entry => entry.2.2.keys),rows.map rowOf⟩

end Output

def Measured (records : ClassResults Name) : Prop :=
  ∀ lib ∈ records.toList, ∀ op ∈ lib.2.toList, op.2 ≠ []
instance (records : ClassResults Name) : Decidable (Measured records) := by
  unfold Measured
  infer_instance

def mean (vals : List (Nat × ℚ)) : ℚ := (vals.map Prod.snd).sum / vals.length

def total (results : MethodResults Name) : ℚ :=
  ((results.toList.filter (fun entry => !bracketed text entry.1)).map (fun entry => mean entry.2)).sum

def Scored (results : MethodResults Name) : Prop :=
  ∀ op ∈ results.toList, bracketed text op.1 = false → op.2 ≠ []
instance (results : MethodResults Name) : Decidable (Scored text results) := by
  unfold Scored
  infer_instance

structure Complete (records : ClassResults Name) (rows : List (Row Name)) : Prop where
  onePerLibrary : (rows.map Row.libName).Perm records.keys
  nonIncreasing : rows.Pairwise (fun above below =>
    ∃ a b, above.score = some a ∧ below.score = some b ∧ b ≤ a)
  scored : ∀ row ∈ rows, ∃ results, records[row.libName]? = some results ∧
    row.score = some (total text results)

def DistinctTotals (records : ClassResults Name) : Prop :=
  ∀ a ∈ records.toList, ∀ b ∈ records.toList, total text a.2 = total text b.2 → a.1 = b.1
instance (records : ClassResults Name) : Decidable (DistinctTotals text records) := by
  unfold DistinctTotals
  infer_instance

/-- Of the libraries that are stored under one key the last one. -/
def LastWith {κ : Type} (key : Name × MethodResults Name → κ) (records : ClassResults Name)
    (lib : Name × MethodResults Name) : Prop :=
  ∀ other ∈ records.toList, key other = key lib → other.1 ≤ lib.1
instance {κ : Type} [DecidableEq κ] (key : Name × MethodResults Name → κ) (records : ClassResults Name)
    (lib : Name × MethodResults Name) : Decidable (LastWith key records lib) := by
  unfold LastWith
  infer_instance

section Scores
variable {text}

theorem averageMean {vals : List (Nat × ℚ)} (nonempty : vals ≠ []) : average vals = some (mean vals) := by
  have sum : ∀ start : ℚ, vals.foldl (fun sum val => sum + val.2) start =
      start + (vals.map Prod.snd).sum := by
    intro start
    clear nonempty
    induction vals generalizing start with
    | nil => simp
    | cons val rest ih => rw [List.foldl_cons,ih,List.map_cons,List.sum_cons,add_assoc]
  rw [average,if_neg nonempty,sum,zero_add,mean]

theorem scoreLoop (entries : List (Name × List (Nat × ℚ)))
    (scored : ∀ entry ∈ entries, bracketed text entry.1 = false → entry.2 ≠ [])
    (start : ℚ) (averages : ReportMethodResults Name) :
    (entries.foldl (fun found entry => scoreMethod text found entry.1 entry.2) (some start,averages)).1 =
      some (start + ((entries.filter (fun entry => !bracketed text entry.1)).map
        (fun entry => mean entry.2)).sum) := by
  induction entries generalizing start averages with
  | nil => simp
  | cons entry rest ih =>
    have later := ih (fun e mem => scored e (List.mem_cons_of_mem _ mem))
    rw [List.foldl_cons,scoreMethod]
    cases named : bracketed text entry.1 with
    | true => simp [named,later]
    | false =>
      have here := averageMean (scored entry List.mem_cons_self named)
      have added : Double.add (some start) (some (mean entry.2)) = some (start + mean entry.2) := rfl
      simp [named,here,added,later,add_assoc]

theorem scoreTotal {results : MethodResults Name} (scored : Scored text results) :
    (scoreMethods text results).1 = some (total text results) := by
  rw [scoreMethods,TreeMap.foldl_eq_foldl_toList,scoreLoop results.toList scored 0 ∅,zero_add,total]

end Scores

/-! A map that is filled from a list keeps for each key the last element of the list. -/
section Fill
variable {α κ β : Type} [LinearOrder κ] (key : α → κ) (value : α → β)

def fill (entries : List α) (map : TreeMap κ β) : TreeMap κ β :=
  entries.foldl (fun map a => map.insert (key a) (value a)) map

variable {key value}

theorem fillLast {entries : List α} {map : TreeMap κ β} {k : κ} {v : β}
    (found : (fill key value entries map)[k]? = some v) :
    (map[k]? = some v ∧ ∀ a ∈ entries, key a ≠ k) ∨
      ∃ before a after, entries = before ++ a::after ∧ key a = k ∧ value a = v ∧
        ∀ b ∈ after, key b ≠ k := by
  induction entries generalizing map with
  | nil => exact .inl ⟨found,fun _ mem => nomatch mem⟩
  | cons a rest ih =>
    rw [fill,List.foldl_cons,← fill] at found
    rcases ih found with ⟨before,later⟩ | ⟨before,b,after,split,same⟩
    · rw [TreeMap.getElem?_insert] at before
      split at before
      · next equal =>
        exact .inr ⟨[],a,rest,rfl,LawfulEqCmp.eq_of_compare equal,Option.some.inj before,later⟩
      · next other =>
        refine .inl ⟨before,fun b mem same => ?_⟩
        rcases List.mem_cons.mp mem with rfl | inRest
        · exact other (by simp [same])
        · exact later b inRest same
    · exact .inr ⟨a::before,b,after,congrArg (List.cons a) split,same⟩

theorem fillFound {entries : List α} {map : TreeMap κ β} {k : κ} {v : β}
    (found : (fill key value entries map)[k]? = some v) :
    map[k]? = some v ∨ ∃ a ∈ entries, key a = k ∧ value a = v := by
  rcases fillLast found with ⟨before,_⟩ | ⟨before,a,after,split,same,held,_⟩
  · exact .inl before
  · exact .inr ⟨a,by rw [split]; exact List.mem_append_right _ List.mem_cons_self,same,held⟩

theorem fillKept {entries : List α} {map : TreeMap κ β} {k : κ}
    (some : map[k]?.isSome = true ∨ ∃ a ∈ entries, key a = k) :
    (fill key value entries map)[k]?.isSome = true := by
  induction entries generalizing map with
  | nil => simpa [fill] using some
  | cons a rest ih =>
    rw [fill,List.foldl_cons,← fill]
    refine ih ?_
    rw [TreeMap.getElem?_insert]
    by_cases equal : key a = k
    · exact .inl (by simp [equal])
    · rcases some with before | ⟨b,mem,same⟩
      · exact .inl (by simpa [equal] using before)
      · rcases List.mem_cons.mp mem with rfl | later
        · exact absurd same equal
        · exact .inr ⟨b,later,same⟩

end Fill

/-! A library keeps its row when it is the last one with its key. -/
section Table
variable {text} {key : Name × MethodResults Name → ℚ} {records : ClassResults Name}

def ordered (text : Name → String) (key : Name × MethodResults Name → ℚ) (records : ClassResults Name) :
    TreeMap ℚ (ReportOrderedResult Name) :=
  fill key (fun entry => (entry.1,(scoreMethods text entry.2).2)) records.toList ∅

theorem rowEntry {entry} (mem : entry ∈ (ordered text key records).toList) :
    ∃ lib ∈ records.toList, LastWith key records lib ∧
      entry = (key lib,lib.1,(scoreMethods text lib.2).2) := by
  obtain ⟨score,lib,averages⟩ := entry
  rcases fillLast (TreeMap.mem_toList_iff_getElem?_eq_some.mp mem) with
    ⟨empty,_⟩ | ⟨before,a,after,split,rfl,value,later⟩
  · simp at empty
  · cases value
    have inside : a ∈ records.toList := by
      rw [split]
      exact List.mem_append_right _ List.mem_cons_self
    refine ⟨a,inside,fun other there same => ?_,rfl⟩
    have increasing := @TreeMap.ordered_keys_toList _ _ _ records _
    rw [split] at there increasing
    rcases List.mem_append.mp there with first | rest
    · exact (compare_lt_iff_lt.mp ((List.pairwise_append.mp increasing).2.2 other first a List.mem_cons_self)).le
    · rcases List.mem_cons.mp rest with rfl | inAfter
      · exact le_refl _
      · exact absurd same (later other inAfter)

theorem lastRow {lib} (mem : lib ∈ records.toList) (last : LastWith key records lib) :
    (key lib,lib.1,(scoreMethods text lib.2).2) ∈ (ordered text key records).toList := by
  have entered : (ordered text key records)[key lib]?.isSome = true :=
    fillKept (.inr ⟨lib,mem,rfl⟩)
  obtain ⟨value,there⟩ := Option.isSome_iff_exists.mp entered
  have row := TreeMap.mem_toList_iff_getElem?_eq_some.mpr there
  obtain ⟨other,inside,lastOther,same⟩ := rowEntry row
  obtain ⟨score,rfl⟩ := Prod.mk.inj same
  have names : other.1 = lib.1 :=
    le_antisymm (last other inside score.symm) (lastOther lib mem score)
  have results := TreeMap.mem_toList_iff_getElem?_eq_some.mp inside
  rw [names,TreeMap.mem_toList_iff_getElem?_eq_some.mp mem] at results
  rw [names,← Option.some.inj results] at row
  exact row

end Table

/-! Scores that are numbers. -/
section Numbers
variable {text} {records : ClassResults Name}

def orderedTotals (text : Name → String) (records : ClassResults Name) : TreeMap ℚ (ReportOrderedResult Name) :=
  ordered text (fun entry => total text entry.2) records

theorem orderFilled (landing : Name → Nat) (scored : ∀ lib ∈ records.toList, Scored text lib.2) :
    orderResults text landing records = .numbers (orderedTotals text records) := by
  have loop : ∀ (libs : List (Name × MethodResults Name)) (entries : TreeMap ℚ (ReportOrderedResult Name)),
      (∀ lib ∈ libs, Scored text lib.2) →
      libs.foldl (fun order lib => orderLibrary text landing order lib.1 lib.2) (.numbers entries) =
        .numbers (fill (fun lib => total text lib.2)
          (fun lib => (lib.1,(scoreMethods text lib.2).2)) libs entries) := by
    intro libs
    induction libs with
    | nil => exact fun _ _ => rfl
    | cons lib rest ih =>
      intro entries known
      have here := @scoreTotal _ _ text _ (known lib List.mem_cons_self)
      rw [List.foldl_cons,orderLibrary,here]
      exact ih _ (fun e mem => known e (List.mem_cons_of_mem _ mem))
  rw [orderResults,TreeMap.foldl_eq_foldl_toList]
  exact loop records.toList ∅ scored

theorem rowLibrary {score lib averages} (mem : (score,lib,averages) ∈ (orderedTotals text records).toList) :
    ∃ results, records[lib]? = some results ∧ score = total text results := by
  obtain ⟨entry,inside,_,same⟩ := rowEntry mem
  cases same
  exact ⟨entry.2,TreeMap.mem_toList_iff_getElem?_eq_some.mp inside,rfl⟩

theorem libraryRow (distinct : DistinctTotals text records) {lib results}
    (found : records[lib]? = some results) :
    ∃ averages, (total text results,lib,averages) ∈ (orderedTotals text records).toList := by
  have mem : (lib,results) ∈ records.toList := TreeMap.mem_toList_iff_getElem?_eq_some.mpr found
  have last : LastWith (fun entry => total text entry.2) records (lib,results) :=
    fun other inside same => (distinct other inside (lib,results) mem same).le
  exact ⟨_,lastRow mem last⟩

theorem orderedScores : (orderedTotals text records).toList.Pairwise (fun a b => a.1 < b.1) :=
  TreeMap.ordered_keys_toList.imp (fun less => compare_lt_iff_lt.mp less)

theorem orderedSame {a b : ℚ × Name × ReportMethodResults Name}
    (memA : a ∈ (orderedTotals text records).toList) (memB : b ∈ (orderedTotals text records).toList)
    (same : a.1 = b.1) : a = b := by
  have foundA := TreeMap.mem_toList_iff_getElem?_eq_some.mp memA
  have foundB := TreeMap.mem_toList_iff_getElem?_eq_some.mp memB
  rw [same,foundB] at foundA
  exact Prod.ext same (Option.some.inj foundA).symm

theorem libraryNamesNodup : ((orderedTotals text records).toList.map (fun entry => entry.2.1)).Nodup := by
  refine List.pairwise_map.mpr (orderedScores.imp_of_mem ?_)
  rintro ⟨a,lib,_⟩ ⟨b,lib',_⟩ memA memB less same
  obtain ⟨ra,foundA,rfl⟩ := rowLibrary memA
  obtain ⟨rb,foundB,rfl⟩ := rowLibrary memB
  simp only at same
  rw [same,foundB] at foundA
  cases Option.some.inj foundA
  exact lt_irrefl _ less

/-- The rows of the table, from the last entry to the first. -/
def rowsOf (entries : TreeMap ℚ (ReportOrderedResult Name)) : List (Row Name) :=
  (ReportOrderedResults.numbers entries).toList.reverse.map rowOf

theorem memRowsOf {entries : TreeMap ℚ (ReportOrderedResult Name)} {row : Row Name} :
    row ∈ rowsOf entries ↔ ∃ entry ∈ entries.toList, row = rowOf (some entry.1,entry.2) := by
  simp only [rowsOf,ReportOrderedResults.toList,List.mem_map,List.mem_reverse]
  constructor
  · rintro ⟨_,⟨entry,mem,rfl⟩,rfl⟩
    exact ⟨entry,mem,rfl⟩
  · rintro ⟨entry,mem,rfl⟩
    exact ⟨_,⟨entry,mem,rfl⟩,rfl⟩

theorem completeOfDistinct (distinct : DistinctTotals text records) :
    Complete text records (rowsOf (orderedTotals text records)) := by
  have names : (rowsOf (orderedTotals text records)).map Row.libName =
      ((orderedTotals text records).toList.map (fun entry => entry.2.1)).reverse := by
    simp only [rowsOf,ReportOrderedResults.toList,List.map_map,List.map_reverse]
    rfl
  refine ⟨?_,?_,?_⟩
  · rw [names]
    refine (List.reverse_perm _).trans ((List.perm_ext_iff_of_nodup libraryNamesNodup
      TreeMap.nodup_keys).mpr (fun lib => ?_))
    rw [TreeMap.mem_keys,TreeMap.mem_iff_isSome_getElem?,Option.isSome_iff_exists,List.mem_map]
    constructor
    · rintro ⟨⟨score,lib',averages⟩,mem,rfl⟩
      obtain ⟨results,found,_⟩ := rowLibrary mem
      exact ⟨results,found⟩
    · rintro ⟨results,found⟩
      obtain ⟨averages,mem⟩ := libraryRow distinct found
      exact ⟨_,mem,rfl⟩
  · refine List.pairwise_map.mpr (List.pairwise_reverse.mpr (List.pairwise_map.mpr ?_))
    exact orderedScores.imp (fun {a b} less => ⟨b.1,a.1,rfl,rfl,less.le⟩)
  · intro row mem
    obtain ⟨⟨score,lib,averages⟩,inside,rfl⟩ := memRowsOf.mp mem
    obtain ⟨results,found,rfl⟩ := rowLibrary inside
    exact ⟨results,found,rfl⟩

theorem distinctOfComplete (complete : Complete text records (rowsOf (orderedTotals text records))) :
    DistinctTotals text records := by
  rintro ⟨a,ra⟩ memA ⟨b,rb⟩ memB same
  have printed : ∀ (lib : Name) (results : MethodResults Name), records[lib]? = some results →
      ∃ averages, (total text results,lib,averages) ∈ (orderedTotals text records).toList := by
    intro lib results found
    have key : lib ∈ records.keys := by
      rw [TreeMap.mem_keys,TreeMap.mem_iff_isSome_getElem?,found]
      rfl
    obtain ⟨row,mem,rfl⟩ := List.mem_map.mp (complete.onePerLibrary.mem_iff.mpr key)
    obtain ⟨⟨score,lib,averages⟩,inside,rfl⟩ := memRowsOf.mp mem
    obtain ⟨results',found',rfl⟩ := rowLibrary inside
    cases Option.some.inj (found'.symm.trans found)
    exact ⟨averages,inside⟩
  obtain ⟨_,rowA⟩ := printed a ra (TreeMap.mem_toList_iff_getElem?_eq_some.mp memA)
  obtain ⟨_,rowB⟩ := printed b rb (TreeMap.mem_toList_iff_getElem?_eq_some.mp memB)
  exact congrArg (fun entry => entry.2.1) (orderedSame rowA rowB same)

end Numbers

theorem rowsCompleteExactly (text : Name → String) (landing : Name → Nat) (records : ClassResults Name)
    (measured : Measured records) :
    Complete text records (outputReports text landing records).rows ↔ DistinctTotals text records := by
  have scored : ∀ lib ∈ records.toList, Scored text lib.2 :=
    fun lib mem op inside _ => measured lib mem op inside
  have rows : (outputReports text landing records).rows = rowsOf (orderedTotals text records) := by
    rw [outputReports,orderFilled landing scored]
    rfl
  rw [rows]
  exact ⟨distinctOfComplete,completeOfDistinct⟩

/-! Libraries 0 and 1 with one operation each and the same mean. -/
def operationText (_ : Nat) : String := "conn"

def tiedRecords : ClassResults Nat :=
  ((∅ : ClassResults Nat).insert 0 (TreeMap.empty.insert 7 [(2,5)])).insert 1
    (TreeMap.empty.insert 7 [(2,4),(4,6)])

theorem tiedLibraryLost : Measured tiedRecords ∧
    ¬ Complete operationText tiedRecords (outputReports operationText (fun _ => 0) tiedRecords).rows := by
  refine ⟨by decide +kernel,fun complete => ?_⟩
  have names : (outputReports operationText (fun _ => 0) tiedRecords).rows.map Row.libName = [1] := by
    decide +kernel
  have keys : tiedRecords.keys = [0,1] := by decide +kernel
  have length := complete.onePerLibrary.length_eq
  rw [names,keys] at length
  contradiction

def untiedRecords : ClassResults Nat := tiedRecords.insert 1 (TreeMap.empty.insert 7 [(2,4),(4,7)])

theorem untiedLibrariesPrinted :
    Complete operationText untiedRecords (outputReports operationText (fun _ => 0) untiedRecords).rows :=
  (rowsCompleteExactly operationText (fun _ => 0) untiedRecords (by decide +kernel)).mpr (by decide +kernel)

end SignalSlot.Report
