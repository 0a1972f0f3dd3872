import SignalSlot.TestCommits
import SignalSlot.TestTable
import Mathlib.Algebra.Group.Nat.Defs

/-! The table once more, with the int of the source: the number of descriptions and the
sizes of the labels become 32 bits wide before they are used as bounds of the loops. A
bound that a loop cannot leave without an overflow is a fault of its own. -/
namespace SignalSlot.IntWidths
open Std (TreeMap)
open FeatureTest (Commit TestOutcome TestResults Cell Row Table Rectangular OrderKept ShowsCommits
  commitTestResult orderedFaithful outcomeLabel outcomeTermColor
  firstHeader columnNumbers columnNumbersLength bindOk mapMForall forallRight
  tablePrinted tableAligned alignedRectangular)

inductive Fault where
  | outOfRange | assertionFailed | overflow
  deriving DecidableEq,Repr

def intMax : Int := 2147483647

def toInt (size : Nat) : Int := Int.bmod size 4294967296

-- `width >= label.size()` compares as size_t.
def toSize (width : Int) : Nat := (width % 18446744073709551616).toNat

def checked (value : Int) : Except Fault Int :=
  if -intMax - 1 ≤ value ∧ value ≤ intMax then .ok value else .error .overflow

-- `for (int i(0); i != count; ++i)`: from zero, i meets a negative count only past INT_MAX.
def upTo (count : Int) : Except Fault (List Nat) :=
  if count < 0 then .error .overflow else .ok (List.range count.toNat)

-- `for (int i(0); i <= last; ++i) output << padding;`
def repeated (last : Int) (padding : Char) : Except Fault (List Char) :=
  if last = intMax then .error .overflow else .ok (List.replicate (last + 1).toNat padding)

def outputPadded (label : String) (left right : Int) (padding : Char) : Except Fault String := do
  let before ← repeated left padding
  let after ← repeated right padding
  .ok (String.ofList (before ++ label.toList ++ after))

def outputCentered (label : String) (width : Int) (padding : Char) : Except Fault String :=
  let labelSize := toInt label.length
  if toSize width < label.length then .error .assertionFailed
  else do
    let spare ← checked (width - labelSize)
    let left := spare.tdiv 2
    let right ← checked (spare - left)
    outputPadded label left right padding

def outputLeft (label : String) (width : Int) (padding : Char) : Except Fault String :=
  let labelSize := toInt label.length
  if toSize width < label.length then .error .assertionFailed
  else do
    let right ← checked (width - labelSize)
    outputPadded label 0 right padding

def numberedLine (descriptions : List String) (i : Nat) : Except Fault String := match descriptions[i]? with
  | none => .error .outOfRange
  | some description => .ok (toString (i + 1) ++ ". " ++ description)

def widenColumns : List Int → List TestOutcome → Except Fault (List Int)
  | [],_ => .ok []
  | _::_,[] => .error .outOfRange
  | width::widths,outcome::outcomes => do
      let rest ← widenColumns widths outcomes
      .ok (max width (toInt (outcomeLabel outcome).length)::rest)

def widenAll (widths : Int × List Int) : List (String × List TestOutcome) → Except Fault (Int × List Int)
  | [] => .ok widths
  | (tag,outcomes)::rest => do
      let columns ← widenColumns widths.2 outcomes
      widenAll (max widths.1 (toInt tag.length),columns) rest

def columnWidths (testCount : Nat) (entries : List (String × List TestOutcome)) :
    Except Fault (Int × List Int) :=
  widenAll (toInt firstHeader.length,(columnNumbers testCount).map (fun number => toInt number.length))
    entries

def outputHeader : List String → List Int → Except Fault (List String)
  | number::numbers,width::widths => do
      let cell ← outputCentered number width ' '
      let rest ← outputHeader numbers widths
      .ok (cell::rest)
  | _,_ => .ok []

def outputCells : List Int → List TestOutcome → Except Fault (List Cell)
  | [],_ => .ok []
  | _::_,[] => .error .outOfRange
  | width::widths,outcome::outcomes => do
      let text ← outputCentered (outcomeLabel outcome) width ' '
      let rest ← outputCells widths outcomes
      .ok (⟨outcomeTermColor outcome,text⟩::rest)

def outputRow (widths : Int × List Int) (entry : String × List TestOutcome) : Except Fault Row := do
  let library ← outputLeft entry.1 widths.1 ' '
  let cells ← outputCells widths.2 entry.2
  .ok ⟨library,cells⟩

def outputTestResults (results : TestResults) : Except Fault Table := do
  let testCount := toInt results.descriptions.length
  let indices ← upTo testCount
  let numbered ← indices.mapM (numberedLine results.descriptions)
  let _ ← checked (testCount + 1)
  let widths ← columnWidths testCount.toNat results.outcomes.toList
  let library ← outputLeft firstHeader widths.1 ' '
  let header ← outputHeader (columnNumbers testCount.toNat) widths.2
  let dashes ← (widths.1::widths.2).mapM (fun width => outputLeft "" width '-')
  let rows ← results.outcomes.toList.mapM (outputRow widths)
  .ok ⟨numbered,library::header,dashes,rows⟩

/-! Inside the range of int nothing is lost: what the unbounded table prints, this one
prints too. -/
section Exact
variable {label text : String} {width : Nat} {padding : Char}

theorem toIntWord {n : Nat} (small : n % 4294967296 ≤ 2147483647) : toInt n = (n % 4294967296 : Nat) :=
  Int.bmod_eq_emod_of_lt (by omega)

theorem toIntNegative {n : Nat} (large : 2147483647 < n % 4294967296) : toInt n < 0 := by
  have word : toInt n = (n : Int) % (4294967296 : Nat) - (4294967296 : Nat) := Int.bmod_neg _ _ (by omega)
  omega

theorem toIntSmall {n : Nat} (small : n ≤ 2147483647) : toInt n = n := by
  have same : n % 4294967296 = n := Nat.mod_eq_of_lt (by omega)
  have word := @toIntWord n (by omega)
  omega

theorem headerSize : toInt firstHeader.length = firstHeader.length := toIntSmall (by decide)

theorem toSizeSmall {n : Nat} (small : n ≤ 2147483647) : toSize n = n := by
  rw [toSize]
  omega

theorem checkedInside {value : Int} (low : 0 ≤ value) (high : value ≤ 2147483647) :
    checked value = .ok value := by
  rw [checked,intMax,if_pos]
  omega

theorem repeatedExact {last : Nat} (small : last < 2147483647) :
    repeated last padding = .ok (List.replicate (last + 1) padding) := by
  have next : ((last : Int) + 1).toNat = last + 1 := by omega
  rw [repeated,intMax,if_neg (by omega),next]

theorem paddedExact {left right : Nat} (smallLeft : left < 2147483647) (smallRight : right < 2147483647) :
    outputPadded label left right padding = .ok (FeatureTest.outputPadded label left right padding) := by
  rw [outputPadded,repeatedExact smallLeft,repeatedExact smallRight]
  rfl

theorem leftExact (small : width < 2147483647)
    (printed : FeatureTest.outputLeft label width padding = .ok text) :
    outputLeft label width padding = .ok text := by
  rw [FeatureTest.outputLeft] at printed
  split at printed
  · contradiction
  · rename_i fits
    have spare : (width : Int) - label.length = (width - label.length : Nat) := by omega
    cases Except.ok.inj printed
    simp only [outputLeft]
    rw [toSizeSmall (by omega),if_neg fits,toIntSmall (by omega),spare,checkedInside (by omega) (by omega)]
    exact @paddedExact label padding 0 _ (by omega) (by omega)

theorem centeredExact (small : width < 2147483647)
    (printed : FeatureTest.outputCentered label width padding = .ok text) :
    outputCentered label width padding = .ok text := by
  rw [FeatureTest.outputCentered] at printed
  split at printed
  · contradiction
  · rename_i fits
    have spare : (width : Int) - label.length = (width - label.length : Nat) := by omega
    have right : ((width - label.length : Nat) : Int) - ((width - label.length) / 2 : Nat) =
      (width - label.length - (width - label.length) / 2 : Nat) := by omega
    have left : ((width - label.length : Nat) : Int).tdiv 2 = ((width - label.length) / 2 : Nat) := rfl
    cases Except.ok.inj printed
    simp only [outputCentered]
    rw [toSizeSmall (by omega),if_neg fits,toIntSmall (by omega),spare,checkedInside (by omega) (by omega)]
    simp only [bind,Except.bind,left,right]
    rw [checkedInside (by omega) (by omega)]
    exact paddedExact (by omega) (by omega)

end Exact

def ints (widths : List Nat) : List Int := widths.map (fun (width : Nat) => (width : Int))

theorem labelSmall (outcome : TestOutcome) : (outcomeLabel outcome).length ≤ 7 := by
  cases outcome <;> decide

theorem columnsExact {widths out : List Nat} {outcomes : List TestOutcome}
    (ok : FeatureTest.widenColumns widths outcomes = .ok out) :
    widenColumns (ints widths) outcomes = .ok (ints out) := by
  induction widths generalizing outcomes out with
  | nil =>
    cases ok
    rfl
  | cons width widths ih => cases outcomes with
    | nil => nomatch ok
    | cons outcome outcomes =>
      obtain ⟨rest,later,ok⟩ := bindOk.mp ok
      cases ok
      have small := (labelSmall outcome).trans (by decide : 7 ≤ 2147483647)
      have widest : max (width : Int) (outcomeLabel outcome).length =
        (max width (outcomeLabel outcome).length : Nat) := by omega
      rw [ints,List.map_cons,widenColumns,toIntSmall small,widest]
      exact bindOk.mpr ⟨ints rest,ih later,rfl⟩

theorem allExact {entries : List (String × List TestOutcome)} {widths out : Nat × List Nat}
    (small : ∀ entry ∈ entries, entry.1.length ≤ 2147483647)
    (ok : FeatureTest.widenAll widths entries = .ok out) :
    widenAll (widths.1,ints widths.2) entries = .ok (out.1,ints out.2) := by
  induction entries generalizing widths with
  | nil =>
    cases ok
    rfl
  | cons entry rest ih =>
    obtain ⟨columns,here,later⟩ := bindOk.mp ok
    have widest : max (widths.1 : Int) entry.1.length = (max widths.1 entry.1.length : Nat) := by omega
    rw [widenAll,toIntSmall (small entry List.mem_cons_self),widest]
    exact bindOk.mpr ⟨ints columns,columnsExact here,
      ih (fun entry mem => small entry (List.mem_cons_of_mem _ mem)) later⟩

theorem headerExact {numbers cells : List String} {widths : List Nat}
    (small : ∀ width ∈ widths, width < 2147483647)
    (printed : FeatureTest.outputHeader numbers widths = .ok cells) :
    outputHeader numbers (ints widths) = .ok cells := by
  induction numbers generalizing widths cells with
  | nil =>
    cases printed
    rfl
  | cons number numbers ih => cases widths with
    | nil =>
      cases printed
      rfl
    | cons width widths =>
      obtain ⟨cell,here,printed⟩ := bindOk.mp printed
      obtain ⟨rest,later,printed⟩ := bindOk.mp printed
      cases printed
      obtain ⟨first,others⟩ := List.forall_mem_cons.mp small
      exact bindOk.mpr ⟨cell,centeredExact first here,bindOk.mpr ⟨rest,ih others later,rfl⟩⟩

theorem cellsExact {widths : List Nat} {outcomes : List TestOutcome} {cells}
    (small : ∀ width ∈ widths, width < 2147483647)
    (printed : FeatureTest.outputCells widths outcomes = .ok cells) :
    outputCells (ints widths) outcomes = .ok cells := by
  induction widths generalizing outcomes cells with
  | nil =>
    cases printed
    rfl
  | cons width widths ih => cases outcomes with
    | nil => nomatch printed
    | cons outcome outcomes =>
      obtain ⟨text,here,printed⟩ := bindOk.mp printed
      obtain ⟨rest,later,printed⟩ := bindOk.mp printed
      cases printed
      obtain ⟨first,others⟩ := List.forall_mem_cons.mp small
      exact bindOk.mpr ⟨text,centeredExact first here,bindOk.mpr ⟨rest,ih others later,rfl⟩⟩

theorem rowExact {widths : Nat × List Nat} {entry : String × List TestOutcome} {row : Row}
    (first : widths.1 < 2147483647) (others : ∀ width ∈ widths.2, width < 2147483647)
    (printed : FeatureTest.outputRow widths entry = .ok row) :
    outputRow (widths.1,ints widths.2) entry = .ok row := by
  obtain ⟨library,here,printed⟩ := bindOk.mp printed
  obtain ⟨cells,later,printed⟩ := bindOk.mp printed
  cases printed
  exact bindOk.mpr ⟨library,leftExact first here,bindOk.mpr ⟨cells,cellsExact others later,rfl⟩⟩

theorem mapMTransfer {α α' β ε ε' : Type} {f : α → Except ε β} {g : α' → Except ε' β} {as as' bs}
    (related : List.Forall₂ (fun a a' => ∀ b, f a = .ok b → g a' = .ok b) as as')
    (ok : as.mapM f = .ok bs) : as'.mapM g = .ok bs := by
  induction related generalizing bs with
  | nil =>
    cases ok
    rfl
  | cons here _ ih =>
    rw [List.mapM_cons] at ok
    obtain ⟨b,first,ok⟩ := bindOk.mp ok
    obtain ⟨rest,later,ok⟩ := bindOk.mp ok
    cases ok
    rw [List.mapM_cons]
    exact bindOk.mpr ⟨b,here b first,bindOk.mpr ⟨rest,ih later,rfl⟩⟩

theorem numberedLines {descriptions : List String} {count : Nat} (enough : count ≤ descriptions.length) :
    (List.range count).map (fun i => toString (i + 1) ++ ". " ++ descriptions[i]?.getD "") =
      List.zipWith (fun number description => number ++ ". " ++ description) (columnNumbers count)
        (descriptions.take count) := by
  apply List.ext_getElem
  · simp [columnNumbersLength,enough]
  · intro i here there
    simp only [List.length_map,List.length_range] at here
    have inside := here.trans_le enough
    simp [columnNumbers,inside]

theorem numberedExact {descriptions : List String} {count : Nat} (enough : count ≤ descriptions.length) :
    (List.range count).mapM (numberedLine descriptions) =
      .ok (List.zipWith (fun number description => number ++ ". " ++ description) (columnNumbers count)
        (descriptions.take count)) := by
  rw [← numberedLines enough]
  apply @mapMTransfer _ _ _ Fault _
    (fun i => .ok (toString (i + 1) ++ ". " ++ descriptions[i]?.getD "")) _ (List.range count)
  · rw [List.forall₂_same]
    intro i mem line printed
    have inside := (List.mem_range.mp mem).trans_le enough
    rw [List.getElem?_eq_getElem inside] at printed
    rw [numberedLine,List.getElem?_eq_getElem inside]
    exact printed
  · exact List.mapM_pure

theorem dashesExact {widths : Nat × List Nat} {dashes : List String} (first : widths.1 < 2147483647)
    (others : ∀ width ∈ widths.2, width < 2147483647)
    (printed : (widths.1::widths.2).mapM (fun width => FeatureTest.outputLeft "" width '-') = .ok dashes) :
    ((widths.1 : Int)::ints widths.2).mapM (fun width => outputLeft "" width '-') = .ok dashes := by
  apply mapMTransfer _ printed
  apply List.Forall₂.cons
  · exact fun text here => leftExact first here
  · rw [ints,List.forall₂_map_right_iff,List.forall₂_same]
    exact fun width mem text here => leftExact (others width mem) here

/-! How wide a column gets. -/
section Bounds
variable {bound : Nat}

theorem columnsBelow {widths out : List Nat} {outcomes : List TestOutcome} (wide : 7 ≤ bound)
    (below : ∀ width ∈ widths, width ≤ bound)
    (ok : FeatureTest.widenColumns widths outcomes = .ok out) : ∀ width ∈ out, width ≤ bound := by
  induction widths generalizing outcomes out with
  | nil =>
    cases ok
    exact List.forall_mem_nil _
  | cons width widths ih => cases outcomes with
    | nil => nomatch ok
    | cons outcome outcomes =>
      obtain ⟨rest,later,ok⟩ := bindOk.mp ok
      cases ok
      obtain ⟨first,others⟩ := List.forall_mem_cons.mp below
      exact List.forall_mem_cons.mpr
        ⟨Nat.max_le.mpr ⟨first,(labelSmall outcome).trans wide⟩,ih others later⟩

theorem allBelow {entries : List (String × List TestOutcome)} {widths out : Nat × List Nat}
    (wide : 7 ≤ bound) (tags : ∀ entry ∈ entries, entry.1.length ≤ bound)
    (below : ∀ width ∈ widths.1::widths.2, width ≤ bound)
    (ok : FeatureTest.widenAll widths entries = .ok out) : ∀ width ∈ out.1::out.2, width ≤ bound := by
  induction entries generalizing widths with
  | nil =>
    cases ok
    exact below
  | cons entry rest ih =>
    obtain ⟨columns,here,later⟩ := bindOk.mp ok
    obtain ⟨first,others⟩ := List.forall_mem_cons.mp below
    obtain ⟨tag,tags⟩ := List.forall_mem_cons.mp tags
    apply @ih (max widths.1 entry.1.length,columns) tags
    · exact List.forall_mem_cons.mpr ⟨Nat.max_le.mpr ⟨first,tag⟩,columnsBelow wide others here⟩
    · exact later

theorem numbersBelow {count : Nat} (small : count ≤ 2147483647) :
    ∀ number ∈ columnNumbers count, number.length ≤ 10 := by
  intro number mem
  obtain ⟨i,inside,rfl⟩ := List.mem_map.mp mem
  have less := List.mem_range.mp inside
  exact (Nat.length_repr_le_iff (by omega)).mpr (by omega)

end Bounds

/-- The sizes that int can count with, one more than each of them included. -/
structure FitsInt (results : TestResults) : Prop where
  columns : results.descriptions.length % 4294967296 + 1 ≤ 2147483647
  tags : ∀ entry ∈ results.outcomes.toList, entry.1.length + 1 ≤ 2147483647

def firstColumns (count : Nat) (results : TestResults) : TestResults :=
  ⟨results.descriptions.take count,results.outcomes⟩

theorem numberSizes {count : Nat} (small : count ≤ 2147483647) :
    (columnNumbers count).map (fun number => toInt number.length) =
      ints ((columnNumbers count).map String.length) := by
  rw [ints,List.map_map]
  apply List.map_congr_left
  intro number mem
  exact toIntSmall ((numbersBelow small number mem).trans (by decide))

section Columns
variable {results : TestResults} {count : Nat} {widths : Nat × List Nat}

theorem firstCount (enough : count ≤ results.descriptions.length) :
    (firstColumns count results).descriptions.length = count := List.length_take_of_le enough

theorem widthsNarrow (small : count < 2147483647)
    (tags : ∀ entry ∈ results.outcomes.toList, entry.1.length + 1 ≤ 2147483647)
    (ok : FeatureTest.widenAll (firstHeader.length,(columnNumbers count).map String.length)
      results.outcomes.toList = .ok widths) :
    widths.1 < 2147483647 ∧ ∀ width ∈ widths.2, width < 2147483647 := by
  have start : ∀ width ∈ firstHeader.length::(columnNumbers count).map String.length,
      width ≤ 2147483646 := by
    intro width mem
    rcases List.mem_cons.mp mem with rfl | mem
    · decide
    · obtain ⟨number,inside,rfl⟩ := List.mem_map.mp mem
      exact (numbersBelow (by omega) number inside).trans (by decide)
  have below := allBelow (by decide) (fun entry mem => Nat.le_of_succ_le_succ (tags entry mem)) start ok
  obtain ⟨first,others⟩ := List.forall_mem_cons.mp below
  exact ⟨Nat.lt_succ_of_le first,fun width mem => Nat.lt_succ_of_le (others width mem)⟩

theorem columnWidthsExact (small : count < 2147483647)
    (tags : ∀ entry ∈ results.outcomes.toList, entry.1.length + 1 ≤ 2147483647)
    (ok : FeatureTest.widenAll (firstHeader.length,(columnNumbers count).map String.length)
      results.outcomes.toList = .ok widths) :
    columnWidths count results.outcomes.toList = .ok (widths.1,ints widths.2) := by
  rw [columnWidths,headerSize,numberSizes (Nat.le_of_lt small)]
  exact allExact (fun entry mem => (Nat.le_succ _).trans (tags entry mem)) ok

theorem columnsPrinted {table : Table} (word : toInt results.descriptions.length = count)
    (enough : count ≤ results.descriptions.length) (small : count < 2147483647)
    (tags : ∀ entry ∈ results.outcomes.toList, entry.1.length + 1 ≤ 2147483647)
    (printed : FeatureTest.outputTestResults (firstColumns count results) = .ok table) :
    outputTestResults results = .ok table := by
  obtain ⟨widths,ok,printed⟩ := bindOk.mp printed
  obtain ⟨library,first,printed⟩ := bindOk.mp printed
  obtain ⟨header,numbered,printed⟩ := bindOk.mp printed
  obtain ⟨dashes,dashed,printed⟩ := bindOk.mp printed
  obtain ⟨rows,each,printed⟩ := bindOk.mp printed
  cases printed
  rw [firstCount enough] at numbered
  rw [FeatureTest.columnWidths,firstCount enough] at ok
  obtain ⟨narrow,narrows⟩ := widthsNarrow small tags ok
  have each' : results.outcomes.toList.mapM (outputRow (widths.1,ints widths.2)) = .ok rows :=
    mapMTransfer (List.forall₂_same.mpr fun entry _ row here => rowExact narrow narrows here) each
  have range : upTo count = .ok (List.range count) := if_neg (by omega)
  have room : checked (count + 1) = .ok (count + 1 : Int) := checkedInside (by omega) (by omega)
  rw [firstCount enough,outputTestResults,word,Int.toNat_natCast]
  exact bindOk.mpr ⟨_,range,bindOk.mpr ⟨_,numberedExact enough,bindOk.mpr ⟨_,room,bindOk.mpr
    ⟨_,columnWidthsExact small tags ok,bindOk.mpr ⟨library,leftExact narrow first,bindOk.mpr
      ⟨header,headerExact narrows numbered,bindOk.mpr ⟨dashes,dashesExact narrow narrows dashed,
        bindOk.mpr ⟨rows,each',rfl⟩⟩⟩⟩⟩⟩⟩⟩

/-- What was committed is what the ints show, too. -/
theorem commitsPrinted {commits : List Commit} {category : String}
    (found : (commits.foldl commitTestResult ∅)[category]? = some results) (kept : OrderKept commits)
    (small : results.descriptions.length < 2147483647)
    (tags : ∀ entry ∈ results.outcomes.toList, entry.1.length + 1 ≤ 2147483647) :
    ∃ table, outputTestResults results = .ok table ∧ List.Forall₂
      (ShowsCommits commits category results.descriptions) results.outcomes.toList table.rows := by
  obtain ⟨table,printed,rows⟩ := orderedFaithful kept category results found
  have all : firstColumns results.descriptions.length results = results := by
    rw [firstColumns,List.take_length]
  rw [← all] at printed
  exact ⟨table,columnsPrinted (toIntSmall (by omega)) (Nat.le_refl _) small tags printed,
    rows.imp (fun _ _ row => row.2)⟩

end Columns

/-! Outside of it nothing is printed: a loop or a sum overflows, or a tag does not fit
the width that its own size was taken into. -/
theorem toIntBelow (n : Nat) : toInt n ≤ 2147483647 := by
  rcases Nat.lt_or_ge 2147483647 (n % 4294967296) with large | small
  · have negative := toIntNegative large
    omega
  · rw [toIntWord small]
    omega

theorem checkedFits {value sum : Int} (ok : checked value = .ok sum) : sum = value ∧ value ≤ 2147483647 := by
  rw [checked] at ok
  split at ok
  · rename_i inside
    cases ok
    exact ⟨rfl,inside.2⟩
  · contradiction

theorem repeatedFits {last : Int} {padding : Char} {text} (ok : repeated last padding = .ok text) :
    last ≠ 2147483647 := by
  rw [repeated] at ok
  split at ok
  · contradiction
  · assumption

theorem leftFits {label text : String} {width : Int} {padding : Char} (low : 0 ≤ width)
    (high : width ≤ 2147483647) (ok : outputLeft label width padding = .ok text) :
    (label.length : Int) ≤ width := by
  simp only [outputLeft] at ok
  split at ok
  · contradiction
  · rename_i fits
    rw [toSize] at fits
    omega

theorem dashFits {text : String} {width : Int} {padding : Char}
    (ok : outputLeft "" width padding = .ok text) : width ≠ 2147483647 := by
  simp only [outputLeft] at ok
  split at ok
  · contradiction
  · obtain ⟨right,spare,ok⟩ := bindOk.mp ok
    obtain ⟨before,_,ok⟩ := bindOk.mp ok
    obtain ⟨after,filled,_⟩ := bindOk.mp ok
    have last := repeatedFits filled
    have empty : toInt "".length = 0 := by decide
    rw [(checkedFits spare).1,empty,Int.sub_zero] at last
    exact last

theorem firstBounds {entries : List (String × List TestOutcome)} {first : Int} {columns : List Int} {out}
    (low : 0 ≤ first) (high : first ≤ 2147483647) (ok : widenAll (first,columns) entries = .ok out) :
    0 ≤ out.1 ∧ out.1 ≤ 2147483647 := by
  induction entries generalizing first columns with
  | nil =>
    cases ok
    exact ⟨low,high⟩
  | cons entry rest ih =>
    obtain ⟨columns,_,later⟩ := bindOk.mp ok
    have below := toIntBelow entry.1.length
    exact ih (by omega) (by omega) later

theorem countFits {n : Nat} {indices next} (range : upTo (toInt n) = .ok indices)
    (room : checked (toInt n + 1) = .ok next) : n % 4294967296 + 1 ≤ 2147483647 := by
  rcases Nat.lt_or_ge 2147483647 (n % 4294967296) with large | small
  · rw [upTo,if_pos (toIntNegative large)] at range
    nomatch range
  · have high := (checkedFits room).2
    rw [toIntWord small] at high
    omega

theorem tableFits {results : TestResults} {table : Table} (ok : outputTestResults results = .ok table) :
    FitsInt results := by
  obtain ⟨indices,range,ok⟩ := bindOk.mp ok
  obtain ⟨_,_,ok⟩ := bindOk.mp ok
  obtain ⟨_,room,ok⟩ := bindOk.mp ok
  obtain ⟨widths,widened,ok⟩ := bindOk.mp ok
  obtain ⟨_,_,ok⟩ := bindOk.mp ok
  obtain ⟨_,_,ok⟩ := bindOk.mp ok
  obtain ⟨dashes,dashed,ok⟩ := bindOk.mp ok
  obtain ⟨rows,each,_⟩ := bindOk.mp ok
  have start : 0 ≤ toInt firstHeader.length := by
    rw [headerSize]
    exact Int.natCast_nonneg _
  obtain ⟨low,high⟩ := firstBounds start (toIntBelow _) widened
  have dash : widths.1 ≠ 2147483647 := by
    cases mapMForall dashed with
    | cons first _ => exact dashFits first
  refine ⟨countFits range room,fun entry mem => ?_⟩
  obtain ⟨row,_,printed⟩ := forallRight (mapMForall each).flip entry mem
  obtain ⟨library,tag,_⟩ := bindOk.mp printed
  have fits := leftFits low high tag
  omega

/-! The tag whose size is no int. -/
theorem bindFails {α β : Type} {x : Except Fault α} {f : α → Except Fault β} {a fault} (ok : x = .ok a)
    (later : f a = .error fault) : (x >>= f) = .error fault := by
  rw [ok]
  exact later

theorem longRow {tag : String} (long : tag.length = 2147483648) :
    [(tag,([] : List TestOutcome))].mapM (outputRow ((7 : Nat),[])) = .error .assertionFailed := by
  have assertion : outputLeft tag (7 : Nat) ' ' = .error .assertionFailed := by
    simp only [outputLeft]
    rw [toSizeSmall (by omega),if_pos (by omega)]
  rw [List.mapM_cons,outputRow,assertion]
  rfl

theorem longTagAsserts {tag : String} (long : tag.length = 2147483648) :
    outputTestResults ⟨[],(∅ : TreeMap String (List TestOutcome)).insert tag []⟩ =
      .error .assertionFailed := by
  have word : toInt ([] : List String).length = (0 : Nat) := toIntSmall (by decide)
  have room : checked ((0 : Nat) + 1) = .ok 1 := checkedInside (by omega) (by omega)
  have widened : columnWidths 0 [(tag,[])] = .ok ((7 : Nat),[]) := by
    have negative : toInt tag.length < 0 := toIntNegative (by omega)
    have size : (firstHeader.length : Int) = (7 : Nat) := by decide
    have widest : max ((7 : Nat) : Int) (toInt tag.length) = (7 : Nat) := by omega
    rw [columnWidths,headerSize,size,widenAll,widest]
    rfl
  have header : FeatureTest.outputLeft firstHeader 7 ' ' = .ok " Library " := by decide
  have dashed : FeatureTest.outputLeft "" 7 '-' = .ok "---------" := by decide
  rw [outputTestResults,word]
  exact bindFails rfl (bindFails rfl (bindFails room (bindFails widened (bindFails
    (leftExact (by decide) header) (bindFails rfl (bindFails (bindOk.mpr
      ⟨_,leftExact (by decide) dashed,rfl⟩) (congrArg (fun rows => rows >>= _) (longRow long))))))))

def longTagResults (size : Nat) : TestResults :=
  ⟨[],(∅ : TreeMap String (List TestOutcome)).insert (String.ofList (List.replicate size 'a')) []⟩

theorem tableRectangularExactly (results : TestResults)
    (enough : ∀ entry ∈ results.outcomes.toList, results.descriptions.length ≤ entry.2.length) :
    (∃ table, outputTestResults results = .ok table ∧ Rectangular table) ↔ FitsInt results := by
  constructor
  · intro printed
    obtain ⟨table,ok,_⟩ := printed
    exact tableFits ok
  · intro fits
    have columns := fits.columns
    have fewer := Nat.mod_le results.descriptions.length 4294967296
    have word := @toIntWord results.descriptions.length (by omega)
    have enough' : ∀ entry ∈ (firstColumns (results.descriptions.length % 4294967296) results).outcomes.toList,
        (firstColumns (results.descriptions.length % 4294967296) results).descriptions.length ≤
          entry.2.length := by
      intro entry mem
      rw [firstCount fewer]
      exact fewer.trans (enough entry mem)
    obtain ⟨table,printed,_⟩ := tablePrinted enough'
    obtain ⟨widths,_,aligned⟩ := tableAligned enough' printed
    exact ⟨table,columnsPrinted word fewer columns fits.tags printed,alignedRectangular aligned⟩

theorem longTagUnprinted :
    (∀ entry ∈ (longTagResults 2147483648).outcomes.toList,
      (longTagResults 2147483648).descriptions.length ≤ entry.2.length) ∧
    outputTestResults (longTagResults 2147483648) = .error .assertionFailed ∧
    ¬ ∃ table, outputTestResults (longTagResults 2147483648) = .ok table ∧ Rectangular table := by
  have long : (String.ofList (List.replicate 2147483648 'a')).length = 2147483648 := by
    rw [String.length_ofList,List.length_replicate]
  have fault := longTagAsserts long
  refine ⟨fun _ _ => Nat.zero_le _,fault,?_⟩
  intro printed
  obtain ⟨table,ok,_⟩ := printed
  nomatch fault.symm.trans ok

def twoLibraries : TestResults := ⟨["connect","disconnect"],
  ((∅ : TreeMap String (List TestOutcome)).insert "nano-signal-slot" [.success,.otherFailure]).insert
    "asg" [.notAvailable,.failure]⟩

theorem twoLibrariesPrinted : FitsInt twoLibraries ∧
    ∃ table, outputTestResults twoLibraries = .ok table ∧ Rectangular table := by
  have fits : FitsInt twoLibraries := ⟨by decide,by decide +kernel⟩
  exact ⟨fits,(tableRectangularExactly twoLibraries (by decide +kernel)).mpr fits⟩

end SignalSlot.IntWidths
