import SignalSlot.BenchmarkReport
import SignalSlot.BenchmarkThrows
import SignalSlot.Library.OrderedMaps

/-! The columns of the performance table. The header names the operations of the row
that is printed first, and every row goes over its own map. -/
namespace SignalSlot.Report
open Std (TreeMap)
open Subscript OrderedMaps GuardedRun Benchmark

variable {Name : Type} [LinearOrder Name]

def columnMean (records : ClassResults Name) (lib op : Name) : Option Double :=
  (found records lib op).map (fun vals => if vals = [] then none else some (mean vals))

structure Fits (records : ClassResults Name) (header : List Name) (row : Row Name) : Prop where
  width : row.values.length = header.length
  column : ∀ (i : Nat) value op, row.values[i]? = some value → header[i]? = some op →
    columnMean records row.libName op = some value

def Aligned (records : ClassResults Name) (table : Table Name) : Prop :=
  ∀ row ∈ table.rows, Fits records (table.header.getD []) row

section Definitions
variable (text : Name → String) (landing : Name → Nat) (records : ClassResults Name)

def TableAligned : Prop := Aligned records (outputReports text landing records)

def libraryScore (results : MethodResults Name) : Double :=
  if Scored text results then some (total text results) else none

-- The scores under which these libraries are stored, in increasing order.
def held (libs : List (Name × MethodResults Name)) : List ℚ :=
  (fill (fun lib => total text lib.2) (fun _ => ()) (libs.filter (fun lib => Scored text lib.2))
    (∅ : TreeMap ℚ Unit)).keys

def heldBefore (lib : Name) : List ℚ := held text (records.toList.filter (fun other => other.1 < lib))

/-- The key under which a library is stored: its score, or if that is not a number the one
that its search ends at. Without a number to begin with all of them have one key. -/
def keyOf (lib : Name × MethodResults Name) : Double :=
  if ∀ first ∈ records.toList.head?, Scored text first.2 then
    (libraryScore text lib.2).orElse (fun _ =>
      (heldBefore text records lib.1)[landing lib.1 % (heldBefore text records lib.1).length]?)
  else none

def SameOperations : Prop :=
  ∀ a ∈ records.toList, ∀ b ∈ records.toList, LastWith (keyOf text landing records) records a →
    LastWith (keyOf text landing records) records b → a.2.keys = b.2.keys
instance : Decidable (SameOperations text landing records) := by
  unfold SameOperations
  infer_instance

end Definitions

/-! A library whose score is not a number. -/
section NotANumber
variable {text : Name → String} {landing : Name → Nat}

theorem scoreNotANumber (entries : List (Name × List (Nat × ℚ))) (found : Double × ReportMethodResults Name)
    (missing : found.1 = none ∨ ∃ entry ∈ entries, bracketed text entry.1 = false ∧ entry.2 = []) :
    (entries.foldl (fun found entry => scoreMethod text found entry.1 entry.2) found).1 = none := by
  induction entries generalizing found with
  | nil => simpa using missing
  | cons entry rest ih =>
    rw [List.foldl_cons]
    refine ih _ ?_
    rcases missing with before | ⟨e,mem,named,empty⟩
    · refine .inl ?_
      rw [scoreMethod,before]
      split <;> rfl
    · rcases List.mem_cons.mp mem with rfl | later
      · refine .inl ?_
        cases start : found.1 <;> simp [scoreMethod,named,average,empty,start,Double.add]
      · exact .inr ⟨e,later,named,empty⟩

theorem scoreOfLibrary (results : MethodResults Name) :
    (scoreMethods text results).1 = libraryScore text results := by
  rw [libraryScore]
  split
  · next scored => exact scoreTotal scored
  · next unscored =>
    simp only [Scored,not_forall] at unscored
    obtain ⟨op,mem,named,empty⟩ := unscored
    rw [scoreMethods,TreeMap.foldl_eq_foldl_toList]
    exact scoreNotANumber _ _ (.inr ⟨op,mem,named,not_ne_iff.mp empty⟩)

/-- What a library's row is made of. -/
def resultOf (text : Name → String) (lib : Name × MethodResults Name) : ReportOrderedResult Name :=
  (lib.1,(scoreMethods text lib.2).2)

theorem storesAlone (libs : List (Name × MethodResults Name)) (entry : ReportOrderedResult Name) :
    libs.foldl (fun order lib => orderLibrary text landing order lib.1 lib.2) (.notANumber entry) =
      .notANumber ((libs.getLast?.map (resultOf text)).getD entry) := by
  induction libs generalizing entry with
  | nil => rfl
  | cons lib rest ih =>
    rw [List.foldl_cons,orderLibrary,ReportOrderedResults.store,ih]
    cases rest with
    | nil => rfl
    | cons next rest =>
      rw [List.getLast?_cons_cons,List.getLast?_eq_some_getLast (List.cons_ne_nil next rest)]
      rfl

end NotANumber

/-! The entries of the ordered map. -/
section Stored
variable {text : Name → String} {landing : Name → Nat} {records : ClassResults Name}
  {lib : Name × MethodResults Name} {before after : List (Name × MethodResults Name)}

theorem increasingLibraries (records : ClassResults Name) :
    records.toList.Pairwise (fun a b => a.1 < b.1) :=
  TreeMap.ordered_keys_toList.imp (fun less => compare_lt_iff_lt.mp less)

theorem heldAt (split : records.toList = before ++ lib::after) :
    heldBefore text records lib.1 = held text before := by
  have increasing := increasingLibraries records
  rw [split] at increasing
  obtain ⟨_,later,earlier⟩ := List.pairwise_append.mp increasing
  have first : before.filter (fun other => other.1 < lib.1) = before :=
    List.filter_eq_self.mpr (fun other mem => decide_eq_true (earlier other mem lib List.mem_cons_self))
  have none' : (lib::after).filter (fun other => other.1 < lib.1) = [] := by
    refine List.filter_eq_nil_iff.mpr (fun other mem less => ?_)
    have less := of_decide_eq_true less
    rcases List.mem_cons.mp mem with rfl | later'
    · exact lt_irrefl _ less
    · exact lt_asymm less ((List.pairwise_cons.mp later).1 other later')
  rw [heldBefore,split,List.filter_append,first,none',List.append_nil]

theorem heldScored (scored : Scored text lib.2) {entries : TreeMap ℚ (ReportOrderedResult Name)}
    (keys : entries.keys = held text before) (entry : ReportOrderedResult Name) :
    (entries.insert (total text lib.2) entry).keys = held text (before ++ [lib]) := by
  have last : [lib].filter (fun lib => Scored text lib.2) = [lib] := by simp [scored]
  rw [held,List.filter_append,last,fill,List.foldl_append]
  exact keysInsert keys _ _ _

theorem heldUnscored (unscored : ¬ Scored text lib.2) : held text (before ++ [lib]) = held text before := by
  have last : [lib].filter (fun lib => Scored text lib.2) = [] := by simp [unscored]
  rw [held,List.filter_append,last,List.append_nil,held]

/-- The key of a library, if there is a number to begin with. -/
def keyNumber (text : Name → String) (landing : Name → Nat) (records : ClassResults Name)
    (lib : Name × MethodResults Name) : ℚ := (keyOf text landing records lib).getD 0

theorem keyScored (begins : ∀ first ∈ records.toList.head?, Scored text first.2) (scored : Scored text lib.2) :
    keyOf text landing records lib = some (total text lib.2) := by
  rw [keyOf,if_pos begins,libraryScore,if_pos scored]
  rfl

theorem keyUnscored (begins : ∀ first ∈ records.toList.head?, Scored text first.2)
    (unscored : ¬ Scored text lib.2) (split : records.toList = before ++ lib::after) :
    keyOf text landing records lib = (held text before)[landing lib.1 % (held text before).length]? := by
  rw [keyOf,if_pos begins,libraryScore,if_neg unscored,heldAt split]
  rfl

/-- A number that the search of a library ends at. -/
theorem landsAmong {keys : List ℚ} (some' : keys ≠ []) (n : Nat) :
    ∃ key, keys[n % keys.length]? = some key ∧ key ∈ keys := by
  have bound : n % keys.length < keys.length := Nat.mod_lt n (List.length_pos_iff.mpr some')
  exact ⟨_,List.getElem?_eq_getElem bound,List.getElem_mem bound⟩

theorem storesNumbers (begins : ∀ first ∈ records.toList.head?, Scored text first.2)
    {libs : List (Name × MethodResults Name)} {entries : TreeMap ℚ (ReportOrderedResult Name)}
    (split : records.toList = before ++ libs) (keys : entries.keys = held text before)
    (some' : held text before ≠ []) :
    (∀ lib ∈ libs, (keyOf text landing records lib).isSome = true) ∧
    libs.foldl (fun order lib => orderLibrary text landing order lib.1 lib.2) (.numbers entries) =
      .numbers (fill (keyNumber text landing records) (resultOf text) libs entries) := by
  induction libs generalizing before entries with
  | nil => exact ⟨List.forall_mem_nil _,rfl⟩
  | cons lib rest ih =>
    have split' : records.toList = (before ++ [lib]) ++ rest := by
      rw [split,List.append_assoc,List.singleton_append]
    rw [List.foldl_cons,fill,List.foldl_cons,← fill,orderLibrary,scoreOfLibrary]
    by_cases scored : Scored text lib.2
    · have key : keyOf text landing records lib = some (total text lib.2) := keyScored begins scored
      have grown := heldScored scored keys (resultOf text lib)
      have there : held text (before ++ [lib]) ≠ [] := by
        rw [← grown]
        exact List.ne_nil_of_mem (TreeMap.mem_keys.mpr (TreeMap.mem_insert_self ..))
      obtain ⟨all,stored⟩ := ih split' grown there
      refine ⟨List.forall_mem_cons.mpr ⟨by rw [key]; rfl,all⟩,?_⟩
      rw [libraryScore,if_pos scored,keyNumber,key]
      exact stored
    · obtain ⟨number,at',mem⟩ := landsAmong some' (landing lib.1)
      have key : keyOf text landing records lib = _ := keyUnscored begins scored split
      rw [at'] at key
      rw [← keys] at at' mem
      have same := keysReplace mem (resultOf text lib)
      obtain ⟨all,stored⟩ := ih split' (same.trans (keys.trans (heldUnscored scored).symm))
        (by rwa [heldUnscored scored])
      refine ⟨List.forall_mem_cons.mpr ⟨by rw [key]; rfl,all⟩,?_⟩
      rw [libraryScore,if_neg scored,keyNumber,key,ReportOrderedResults.store]
      simp only [at']
      exact stored

theorem lastLibrary {last} (found : records.toList.getLast? = some last)
    (alone : ∀ lib, keyOf text landing records lib = none) :
    lib ∈ records.toList ∧ LastWith (keyOf text landing records) records lib ↔ lib = last := by
  obtain ⟨before,list⟩ := List.getLast?_eq_some_iff.mp found
  have increasing := increasingLibraries records
  rw [list] at increasing
  have earlier := fun other mem => (List.pairwise_append.mp increasing).2.2 other mem last List.mem_cons_self
  simp only [LastWith,alone,true_implies,list,List.mem_append,List.mem_singleton]
  constructor
  · rintro ⟨mem | rfl,after⟩
    · exact absurd (after last (.inr rfl)) (not_le_of_gt (earlier lib mem))
    · rfl
  · rintro rfl
    refine ⟨.inr rfl,fun other mem => ?_⟩
    rcases mem with mem | rfl
    · exact (earlier other mem).le
    · exact le_refl _

theorem orderNumbers (begins : ∀ first ∈ records.toList.head?, Scored text first.2) :
    (∀ lib ∈ records.toList, keyOf text landing records lib = some (keyNumber text landing records lib)) ∧
    orderResults text landing records = .numbers (ordered text (keyNumber text landing records) records) := by
  have known : ∀ lib, (keyOf text landing records lib).isSome = true →
      keyOf text landing records lib = some (keyNumber text landing records lib) := by
    intro lib some'
    obtain ⟨key,same⟩ := Option.isSome_iff_exists.mp some'
    rw [keyNumber,same,Option.getD_some]
  rw [orderResults,ordered,TreeMap.foldl_eq_foldl_toList]
  cases list : records.toList with
  | nil => exact ⟨List.forall_mem_nil _,rfl⟩
  | cons first rest =>
    have scored : Scored text first.2 := begins first (by rw [list]; rfl)
    have key : keyOf text landing records first = some (total text first.2) := keyScored begins scored
    have keys : (TreeMap.insert ∅ (total text first.2) (resultOf text first)).keys = held text ([] ++ [first]) :=
      heldScored scored rfl (resultOf text first)
    have there : held text ([] ++ [first]) ≠ [] := by
      rw [← keys]
      exact List.ne_nil_of_mem (TreeMap.mem_keys.mpr (TreeMap.mem_insert_self ..))
    obtain ⟨all,stored⟩ := storesNumbers begins list keys there
    refine ⟨List.forall_mem_cons.mpr ⟨known first (by rw [key]; rfl),fun lib mem => known lib (all lib mem)⟩,?_⟩
    rw [List.foldl_cons,fill,List.foldl_cons,← fill,orderLibrary,scoreOfLibrary,libraryScore,if_pos scored,
      keyNumber,key]
    exact stored

theorem orderAlone (fails : ¬ ∀ first ∈ records.toList.head?, Scored text first.2) :
    (∀ lib, keyOf text landing records lib = none) ∧ ∃ last, records.toList.getLast? = some last ∧
      orderResults text landing records = .notANumber (resultOf text last) := by
  refine ⟨fun lib => if_neg fails,?_⟩
  rw [orderResults,TreeMap.foldl_eq_foldl_toList]
  cases list : records.toList with
  | nil => exact absurd (fun first mem => by simp [list] at mem) fails
  | cons first rest =>
    have unscored : ¬ Scored text first.2 := by simpa [list] using fails
    rw [List.foldl_cons,orderLibrary,scoreOfLibrary,libraryScore,if_neg unscored]
    refine ⟨_,List.getLast?_eq_some_getLast (List.cons_ne_nil first rest),?_⟩
    refine (storesAlone rest (resultOf text first)).trans ?_
    cases rest with
    | nil => rfl
    | cons next rest =>
      rw [List.getLast?_eq_some_getLast (List.cons_ne_nil next rest),
        List.getLast_cons (List.cons_ne_nil next rest)]
      rfl

/-- A library is printed if it is the last one with its key. -/
theorem orderEntries {entry : Double × ReportOrderedResult Name} :
    entry ∈ (orderResults text landing records).toList ↔
      ∃ lib ∈ records.toList, LastWith (keyOf text landing records) records lib ∧
        entry = (keyOf text landing records lib,resultOf text lib) := by
  by_cases begins : ∀ first ∈ records.toList.head?, Scored text first.2
  · obtain ⟨known,stored⟩ := @orderNumbers _ _ text landing records begins
    have last : ∀ lib ∈ records.toList, LastWith (keyOf text landing records) records lib ↔
        LastWith (keyNumber text landing records) records lib := by
      intro lib mem
      refine forall_congr' (fun other => forall_congr' (fun there => ?_))
      rw [known lib mem,known other there,Option.some.injEq]
    rw [stored,ReportOrderedResults.toList,List.mem_map]
    constructor
    · rintro ⟨entry,mem,rfl⟩
      obtain ⟨lib,there,final,rfl⟩ := rowEntry mem
      exact ⟨lib,there,(last lib there).mpr final,by rw [known lib there]; rfl⟩
    · rintro ⟨lib,there,final,rfl⟩
      exact ⟨_,lastRow there ((last lib there).mp final),by rw [known lib there]; rfl⟩
  · obtain ⟨alone,last,found,stored⟩ := @orderAlone _ _ text landing records begins
    rw [stored,ReportOrderedResults.toList,List.mem_singleton]
    constructor
    · rintro rfl
      obtain ⟨there,final⟩ := (lastLibrary found alone).mpr rfl
      exact ⟨last,there,final,by rw [alone]⟩
    · rintro ⟨lib,there,final,rfl⟩
      rw [(lastLibrary found alone).mp ⟨there,final⟩,alone]

end Stored

/-! The averages of a library have the keys of its results, in the same order. -/
section Averages
variable {text : Name → String}

theorem fillOwn {κ β γ : Type} [LinearOrder κ] (map : TreeMap κ β) (f : β → γ) :
    (fill Prod.fst (fun entry => f entry.2) map.toList (∅ : TreeMap κ γ)).toList =
      map.toList.map (fun entry => (entry.1,f entry.2)) := by
  have mapped : (map.map (fun _ b => f b)).toList = map.toList.map (fun entry => (entry.1,f entry.2)) :=
    TreeMap.toList_map
  rw [← mapped]
  refine entriesExt (fun k => ?_)
  rw [TreeMap.getElem?_map]
  cases here : map[k]? with
  | none =>
    rw [Option.map_none,Option.eq_none_iff_forall_ne_some]
    intro v there
    rcases fillFound there with empty | ⟨entry,mem,rfl,_⟩
    · simp at empty
    · rw [TreeMap.mem_toList_iff_getElem?_eq_some.mp mem] at here
      contradiction
  | some b =>
    have mem : (k,b) ∈ map.toList := TreeMap.mem_toList_iff_getElem?_eq_some.mpr here
    have entered : (fill Prod.fst (fun entry => f entry.2) map.toList ∅)[k]?.isSome = true :=
      fillKept (.inr ⟨(k,b),mem,rfl⟩)
    obtain ⟨v,there⟩ := Option.isSome_iff_exists.mp entered
    rcases fillFound there with empty | ⟨entry,inside,rfl,rfl⟩
    · simp at empty
    · have same := TreeMap.mem_toList_iff_getElem?_eq_some.mp inside
      rw [here] at same
      rw [there,Option.some.inj same,Option.map_some]

theorem averagesFilled (entries : List (Name × List (Nat × ℚ))) (found : Double × ReportMethodResults Name) :
    (entries.foldl (fun found entry => scoreMethod text found entry.1 entry.2) found).2 =
      fill Prod.fst (fun entry => average entry.2) entries found.2 := by
  induction entries generalizing found with
  | nil => rfl
  | cons entry rest ih =>
    rw [List.foldl_cons,ih]
    rfl

theorem averagesEntries (results : MethodResults Name) :
    (scoreMethods text results).2.toList = results.toList.map (fun op => (op.1,average op.2)) := by
  rw [scoreMethods,TreeMap.foldl_eq_foldl_toList,averagesFilled,fillOwn]

theorem averagesKeys (results : MethodResults Name) : (scoreMethods text results).2.keys = results.keys := by
  rw [← TreeMap.map_fst_toList_eq_keys,averagesEntries,List.map_map,← TreeMap.map_fst_toList_eq_keys]
  rfl

theorem averagesValues (results : MethodResults Name) :
    (scoreMethods text results).2.values = results.toList.map (fun op => average op.2) := by
  rw [valuesColumn,averagesEntries,List.map_map]
  rfl

end Averages

section Rows
variable {text : Name → String} {landing : Name → Nat} {records : ClassResults Name}

theorem columnMeanOf {lib} (mem : lib ∈ records.toList) (op : Name) :
    columnMean records lib.1 op = lib.2[op]?.map average := by
  have averaged : (fun vals => if vals = [] then none else some (mean vals)) = average := by
    funext vals
    split
    · next empty => rw [empty]; rfl
    · next nonempty => exact (averageMean nonempty).symm
  rw [columnMean,found,TreeMap.mem_toList_iff_getElem?_eq_some.mp mem,averaged]
  rfl

def libraryRowOf (text : Name → String) (landing : Name → Nat) (records : ClassResults Name)
    (lib : Name × MethodResults Name) : Row Name :=
  rowOf (keyOf text landing records lib,resultOf text lib)

theorem cells (lib : Name × MethodResults Name) :
    (libraryRowOf text landing records lib).values = lib.2.toList.map (fun op => average op.2) :=
  averagesValues lib.2

theorem ownHeaderFits {lib} (mem : lib ∈ records.toList) :
    Fits records lib.2.keys (libraryRowOf text landing records lib) := by
  have keys : lib.2.keys = lib.2.toList.map Prod.fst := TreeMap.map_fst_toList_eq_keys.symm
  refine ⟨by rw [cells,keys,List.length_map,List.length_map],?_⟩
  intro i value op cell named
  rw [cells,List.getElem?_map,Option.map_eq_some_iff] at cell
  rw [keys,List.getElem?_map,Option.map_eq_some_iff] at named
  obtain ⟨entry,here,rfl⟩ := cell
  obtain ⟨entry',here',rfl⟩ := named
  rw [here] at here'
  cases Option.some.inj here'
  have recorded := TreeMap.mem_toList_iff_getElem?_eq_some.mp (List.mem_of_getElem? here)
  exact (columnMeanOf mem entry.1).trans (congrArg (Option.map average) recorded)

theorem headerOfFits {lib} (mem : lib ∈ records.toList) {header : List Name}
    (increasing : header.Pairwise (fun a b => a < b))
    (fits : Fits records header (libraryRowOf text landing records lib)) : header = lib.2.keys := by
  have own := @ownHeaderFits _ _ text landing records _ mem
  refine increasingExt increasing (increasingKeys lib.2) (fun op inHeader => ?_) ?_
  · obtain ⟨i,bound,here⟩ := List.mem_iff_getElem.mp inHeader
    have cell : i < (libraryRowOf text landing records lib).values.length := by
      rw [fits.width]
      exact bound
    have mean := fits.column i _ op (List.getElem?_eq_getElem cell)
      (by rw [List.getElem?_eq_getElem bound,here])
    obtain ⟨vals,recorded,_⟩ := Option.map_eq_some_iff.mp ((columnMeanOf mem op).symm.trans mean)
    rw [TreeMap.mem_keys,TreeMap.mem_iff_isSome_getElem?,recorded]
    rfl
  · exact (own.width.symm.trans fits.width).le

theorem rowsPrinted {row : Row Name} : row ∈ (outputReports text landing records).rows ↔
    ∃ lib ∈ records.toList, LastWith (keyOf text landing records) records lib ∧
      row = libraryRowOf text landing records lib := by
  simp only [outputReports,List.mem_map,List.mem_reverse,orderEntries]
  constructor
  · rintro ⟨_,⟨lib,mem,last,rfl⟩,rfl⟩
    exact ⟨lib,mem,last,rfl⟩
  · rintro ⟨lib,mem,last,rfl⟩
    exact ⟨_,⟨lib,mem,last,rfl⟩,rfl⟩

theorem headerIncreasing :
    ((outputReports text landing records).header.getD []).Pairwise (fun a b => a < b) := by
  rw [outputReports]
  cases (orderResults text landing records).toList.reverse with
  | nil => exact .nil
  | cons first rest => exact increasingKeys first.2.2

theorem alignedHeader : TableAligned text landing records ↔
    ∀ lib ∈ records.toList, LastWith (keyOf text landing records) records lib →
      (outputReports text landing records).header.getD [] = lib.2.keys := by
  constructor
  · intro aligned lib mem last
    exact headerOfFits mem headerIncreasing (aligned _ (rowsPrinted.mpr ⟨lib,mem,last,rfl⟩))
  · intro same row mem
    obtain ⟨lib,there,last,rfl⟩ := rowsPrinted.mp mem
    rw [same lib there last]
    exact ownHeaderFits there

theorem firstRowHeader {lib} (mem : lib ∈ records.toList)
    (last : LastWith (keyOf text landing records) records lib) :
    ∃ first ∈ records.toList, LastWith (keyOf text landing records) records first ∧
      (outputReports text landing records).header = some first.2.keys := by
  have row := List.mem_reverse.mpr (orderEntries.mpr ⟨lib,mem,last,rfl⟩)
  cases entries : (orderResults text landing records).toList.reverse with
  | nil => rw [entries] at row; contradiction
  | cons top rest =>
    have inside : top ∈ (orderResults text landing records).toList := by
      rw [← List.mem_reverse,entries]
      exact List.mem_cons_self
    obtain ⟨first,there,lastFirst,rfl⟩ := orderEntries.mp inside
    refine ⟨first,there,lastFirst,?_⟩
    simp only [outputReports,entries,List.head?_cons,Option.map_some,resultOf,averagesKeys]

theorem tableAlignedExactly : TableAligned text landing records ↔ SameOperations text landing records := by
  rw [alignedHeader]
  constructor
  · intro header a memA b memB lastA lastB
    exact (header a memA lastA).symm.trans (header b memB lastB)
  · intro same lib mem last
    obtain ⟨first,there,lastFirst,header⟩ := firstRowHeader mem last
    rw [header]
    exact same first there lib mem lastFirst last

instance (text : Name → String) (landing : Name → Nat) (records : ClassResults Name) :
    Decidable (TableAligned text landing records) :=
  decidable_of_iff _ tableAlignedExactly.symm

end Rows

/-! What the display thread can print: every map that a run publishes. -/
section Runs
variable (names : Literals Name) (landing : ClassResults Name → Name → Nat) (libraries : List Name)

def MapsAligned (s : Program Name ℚ) : Prop :=
  ∀ shown ∈ s.published, TableAligned names.text (landing shown) shown

-- The maps of one call: the results before it with the methods that completed so far.
def SameOperationsStep (s : Program Name ℚ) (course : Course ℚ) : Prop :=
  ∀ N lib rest, (s.ready libraries).pending = (N,lib)::rest →
    ∀ done, done ≠ [] → done <+: completedCalls (s.ready libraries).pass course →
      let shown := done.foldl (record names N lib) (subscript (s.ready libraries).results lib id)
      SameOperations names.text (landing shown) shown

instance (s : Program Name ℚ) : Decidable (MapsAligned names landing s) := by
  unfold MapsAligned
  infer_instance

variable {names landing libraries}

theorem stepAligned {s next : Program Name ℚ} {course : Course ℚ} (aligned : MapsAligned names landing s)
    (taken : Program.step names libraries s course = some next) :
    MapsAligned names landing next ↔ SameOperationsStep names landing libraries s course := by
  obtain ⟨_,N,lib,rest,out,calls,rfl,rfl⟩ := Program.stepCases taken
  constructor
  · intro alignedNext N' lib' rest' calls' done nonempty within
    cases calls.symm.trans calls'
    refine tableAlignedExactly.mp (alignedNext _ (List.mem_append_left _ ?_))
    exact publishedPrefixes.mpr ⟨done,nonempty,within,rfl⟩
  · intro operations shown mem
    rcases List.mem_append.mp mem with new | old
    · obtain ⟨done,nonempty,within,rfl⟩ := publishedPrefixes.mp new
      exact tableAlignedExactly.mpr (operations N lib rest calls done nonempty within)
    · exact aligned shown old

end Runs

-- A library all of whose connections threw is printed when it is alone.
example : (outputReports operationText (fun _ => 0) ((∅ : ClassResults Nat).insert 0
    (TreeMap.empty.insert 7 []))).rows.map (fun row => (row.libName,row.values,row.score)) =
      [(0,[none],none)] := by
  decide +kernel

/-! The first library completes, and the escape key ends the run at the first method of
the second one. -/
def escapedCourses : List (Course ℚ) :=
  [⟨true,fun _ _ => some 1,fun _ => false⟩,⟨true,fun _ _ => some 1,fun _ => true⟩]

end SignalSlot.Report
