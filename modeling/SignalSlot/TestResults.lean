import SignalSlot.Library.Subscript
import Mathlib.Data.List.Forall2
import Mathlib.Order.Nat

/-! The feature tests: what is stored of them, and the table of one category. A
std::string is a String whose characters stand for its bytes. Descriptions and
outcomes are linked by position only, and the table reads both by index. -/
namespace SignalSlot.FeatureTest
open Std Subscript

inductive TestOutcome where
  | success | failure | notAvailable | otherFailure
  deriving DecidableEq,Repr

structure TestResults where
  descriptions : List String
  outcomes : TreeMap String (List TestOutcome)

instance : Inhabited TestResults := ⟨⟨[],∅⟩⟩

abbrev ResultsPerCategory := TreeMap String TestResults

structure Commit where
  category : String
  tag : String
  description : String
  outcome : TestOutcome
  deriving DecidableEq,Repr

def TestResults.add (results : TestResults) (c : Commit) : TestResults :=
  ⟨if c.description ∈ results.descriptions then results.descriptions
    else results.descriptions ++ [c.description],
    subscript results.outcomes c.tag (fun outcomes => outcomes ++ [c.outcome])⟩

def commitTestResult (results : ResultsPerCategory) (c : Commit) : ResultsPerCategory :=
  subscript results c.category (fun results => results.add c)

/-! The printing. An access past the end of a vector and a failed assertion are
different faults. -/
inductive Fault where
  | outOfRange | assertionFailed
  deriving DecidableEq,Repr

def outputPadded (label : String) (left right : Nat) (padding : Char) : String :=
  String.ofList (List.replicate (left + 1) padding ++ label.toList ++ List.replicate (right + 1) padding)

def outputCentered (label : String) (width : Nat) (padding : Char) : Except Fault String :=
  if width < label.length then .error .assertionFailed
  else
    let left := (width - label.length) / 2
    .ok (outputPadded label left (width - label.length - left) padding)

def outputLeft (label : String) (width : Nat) (padding : Char) : Except Fault String :=
  if width < label.length then .error .assertionFailed
  else .ok (outputPadded label 0 (width - label.length) padding)

def outcomeTermColor : TestOutcome → String
  | .otherFailure => "\u001b[31m"
  | .success => "\u001b[32m"
  | .failure => "\u001b[33m"
  | .notAvailable => "\u001b[34m"

def termResetColor : String := "\u001b[39;49m"

def outcomeLabel : TestOutcome → String
  | .success => "**yes**"
  | .failure => "no"
  | .notAvailable => "n/a"
  | .otherFailure => "X"

structure Cell where
  color : String
  text : String
  deriving DecidableEq,Repr

structure Row where
  library : String
  cells : List Cell
  deriving DecidableEq,Repr

/-- The lines of the table; `header` and `dashes` are the texts between the bars. -/
structure Table where
  numbered : List String
  header : List String
  dashes : List String
  rows : List Row
  deriving DecidableEq,Repr

def firstHeader : String := "Library"

-- `widths[i+1]` against `tag_and_outcomes.second[i]`, for the indices below test_count.
def widenColumns : List Nat → List TestOutcome → Except Fault (List Nat)
  | [],_ => .ok []
  | _::_,[] => .error .outOfRange
  | width::widths,outcome::outcomes => do
      let rest ← widenColumns widths outcomes
      .ok (max width (outcomeLabel outcome).length :: rest)

def widenAll (widths : Nat × List Nat) : List (String × List TestOutcome) → Except Fault (Nat × List Nat)
  | [] => .ok widths
  | (tag,outcomes)::rest => do
      let columns ← widenColumns widths.2 outcomes
      widenAll (max widths.1 tag.length,columns) rest

def columnNumbers (testCount : Nat) : List String :=
  (List.range testCount).map (fun i => toString (i + 1))

def columnWidths (results : TestResults) : Except Fault (Nat × List Nat) :=
  widenAll (firstHeader.length,(columnNumbers results.descriptions.length).map String.length)
    results.outcomes.toList

def outputHeader : List String → List Nat → Except Fault (List String)
  | number::numbers,width::widths => do
      let cell ← outputCentered number width ' '
      let rest ← outputHeader numbers widths
      .ok (cell::rest)
  | _,_ => .ok []

def outputCells : List Nat → List TestOutcome → Except Fault (List Cell)
  | [],_ => .ok []
  | _::_,[] => .error .outOfRange
  | width::widths,outcome::outcomes => do
      let text ← outputCentered (outcomeLabel outcome) width ' '
      let rest ← outputCells widths outcomes
      .ok (⟨outcomeTermColor outcome,text⟩::rest)

def outputRow (widths : Nat × List Nat) (entry : String × List TestOutcome) : Except Fault Row := do
  let library ← outputLeft entry.1 widths.1 ' '
  let cells ← outputCells widths.2 entry.2
  .ok ⟨library,cells⟩

-- The widths have no bound; `IntWidths.columnsPrinted` takes the table over to the ints.
def outputTestResults (results : TestResults) : Except Fault Table := do
  let widths ← columnWidths results
  let numbers := columnNumbers results.descriptions.length
  let library ← outputLeft firstHeader widths.1 ' '
  let header ← outputHeader numbers widths.2
  let dashes ← (widths.1::widths.2).mapM (fun width => outputLeft "" width '-')
  let rows ← results.outcomes.toList.mapM (outputRow widths)
  .ok ⟨List.zipWith (fun number description => number ++ ". " ++ description) numbers results.descriptions,
    library::header,dashes,rows⟩

/-! What is printed, once every library has an outcome for every description. -/
structure Shows (width : Nat) (outcome : TestOutcome) (cell : Cell) : Prop where
  colored : cell.color = outcomeTermColor outcome
  labelled : outputCentered (outcomeLabel outcome) width ' ' = .ok cell.text

def Fits (width : Nat) (outcome : TestOutcome) : Prop := (outcomeLabel outcome).length ≤ width

theorem showsOutcome {width width' outcome outcome' cell} (here : Shows width outcome cell)
    (there : Shows width' outcome' cell) : outcome = outcome' := by
  have colors := here.colored.symm.trans there.colored
  cases outcome <;> cases outcome' <;> first | rfl | (simp [outcomeTermColor] at colors)

theorem widenColumnsOk {widths : List Nat} {outcomes : List TestOutcome}
    (enough : widths.length ≤ outcomes.length) :
    ∃ out, widenColumns widths outcomes = .ok out ∧ List.Forall₂ (fun a b => a ≤ b) widths out ∧
      List.Forall₂ Fits out (outcomes.take widths.length) := by
  induction widths generalizing outcomes with
  | nil => exact ⟨[],rfl,.nil,.nil⟩
  | cons width widths ih => cases outcomes with
    | nil => simp at enough
    | cons outcome outcomes =>
      obtain ⟨out,ok,wider,fits⟩ := ih (Nat.le_of_succ_le_succ enough)
      refine ⟨max width (outcomeLabel outcome).length::out,?_,.cons (Nat.le_max_left _ _) wider,
        .cons (Nat.le_max_right _ _) fits⟩
      rw [widenColumns,ok]
      rfl

theorem widenColumnsFault {widths : List Nat} {outcomes : List TestOutcome}
    (short : outcomes.length < widths.length) : widenColumns widths outcomes = .error .outOfRange := by
  induction widths generalizing outcomes with
  | nil => simp at short
  | cons width widths ih => cases outcomes with
    | nil => rfl
    | cons outcome outcomes =>
      rw [widenColumns,ih (Nat.lt_of_succ_lt_succ short)]
      rfl

theorem fitsWider {widths out : List Nat} {outcomes : List TestOutcome}
    (wider : List.Forall₂ (fun a b => a ≤ b) widths out) (fits : List.Forall₂ Fits widths outcomes) :
    List.Forall₂ Fits out outcomes := by
  induction wider generalizing outcomes with
  | nil => exact fits
  | cons less _ ih =>
    cases fits with
    | cons here rest => exact .cons (here.trans less) (ih rest)

theorem widerTrans {as bs cs : List Nat} (first : List.Forall₂ (fun a b => a ≤ b) as bs)
    (second : List.Forall₂ (fun a b => a ≤ b) bs cs) : List.Forall₂ (fun a b => a ≤ b) as cs := by
  induction first generalizing cs with
  | nil => exact second
  | cons less _ ih =>
    cases second with
    | cons less' rest => exact .cons (less.trans less') (ih rest)

theorem widenAllOk {entries : List (String × List TestOutcome)} {widths : Nat × List Nat}
    (enough : ∀ entry ∈ entries, widths.2.length ≤ entry.2.length) :
    ∃ out, widenAll widths entries = .ok out ∧ widths.1 ≤ out.1 ∧
      List.Forall₂ (fun a b => a ≤ b) widths.2 out.2 ∧ ∀ entry ∈ entries,
        entry.1.length ≤ out.1 ∧ List.Forall₂ Fits out.2 (entry.2.take widths.2.length) := by
  induction entries generalizing widths with
  | nil => exact ⟨widths,rfl,Nat.le_refl _,List.forall₂_refl _,fun _ mem => nomatch mem⟩
  | cons entry rest ih =>
    obtain ⟨columns,ok,wider,fits⟩ := widenColumnsOk (enough entry List.mem_cons_self)
    have same := wider.length_eq
    obtain ⟨out,later,first,columnsWider,all⟩ := @ih (max widths.1 entry.1.length,columns)
      (fun e mem => same ▸ enough e (List.mem_cons_of_mem _ mem))
    refine ⟨out,?_,(Nat.le_max_left _ _).trans first,widerTrans wider columnsWider,?_⟩
    · obtain ⟨tag,outcomes⟩ := entry
      rw [widenAll,ok]
      exact later
    · intro e mem
      rcases List.mem_cons.mp mem with rfl | mem
      · exact ⟨(Nat.le_max_right _ _).trans first,fitsWider columnsWider fits⟩
      · rw [same]
        exact all e mem

theorem widenAllFault {entries : List (String × List TestOutcome)} {widths : Nat × List Nat}
    (short : ∃ entry ∈ entries, entry.2.length < widths.2.length) :
    widenAll widths entries = .error .outOfRange := by
  induction entries generalizing widths with
  | nil => simp at short
  | cons entry rest ih =>
    obtain ⟨tag,outcomes⟩ := entry
    rw [widenAll]
    rcases Nat.lt_or_ge outcomes.length widths.2.length with here | enough
    · rw [widenColumnsFault here]
      rfl
    · obtain ⟨columns,ok,wider,_⟩ := widenColumnsOk enough
      rw [ok]
      obtain ⟨e,mem,less⟩ := short
      rcases List.mem_cons.mp mem with rfl | mem
      · exact absurd less (Nat.not_lt_of_ge enough)
      · exact ih ⟨e,mem,wider.length_eq ▸ less⟩

theorem outputCenteredOk {label : String} {width : Nat} (fits : label.length ≤ width) (padding : Char) :
    ∃ text, outputCentered label width padding = .ok text := by
  rw [outputCentered,if_neg (Nat.not_lt_of_ge fits)]
  exact ⟨_,rfl⟩

theorem outputLeftOk {label : String} {width : Nat} (fits : label.length ≤ width) (padding : Char) :
    ∃ text, outputLeft label width padding = .ok text := by
  rw [outputLeft,if_neg (Nat.not_lt_of_ge fits)]
  exact ⟨_,rfl⟩

theorem outputHeaderOk {numbers : List String} {widths : List Nat}
    (fits : List.Forall₂ (fun number width => number.length ≤ width) numbers widths) :
    ∃ cells, outputHeader numbers widths = .ok cells := by
  induction fits with
  | nil => exact ⟨[],rfl⟩
  | cons here _ ih =>
    obtain ⟨cell,printed⟩ := outputCenteredOk here ' '
    obtain ⟨cells,ok⟩ := ih
    rw [outputHeader,printed,ok]
    exact ⟨cell::cells,rfl⟩

theorem outputCellsOk {widths : List Nat} {outcomes : List TestOutcome}
    (fits : List.Forall₂ Fits widths (outcomes.take widths.length)) :
    ∃ cells, outputCells widths outcomes = .ok cells ∧ ∀ (i : Nat) outcome,
      (outcomes.take widths.length)[i]? = some outcome →
      ∃ width cell, cells[i]? = some cell ∧ Shows width outcome cell := by
  induction widths generalizing outcomes with
  | nil => exact ⟨[],rfl,fun i outcome here => by simp at here⟩
  | cons width widths ih => cases outcomes with
    | nil => nomatch fits
    | cons outcome outcomes =>
      cases fits with
      | cons here rest =>
        obtain ⟨text,printed⟩ := outputCenteredOk here ' '
        obtain ⟨cells,ok,shown⟩ := ih rest
        refine ⟨⟨outcomeTermColor outcome,text⟩::cells,?_,?_⟩
        · rw [outputCells,printed,ok]
          rfl
        · intro i o at'
          cases i with
          | zero =>
            cases Option.some.inj at'
            exact ⟨width,_,rfl,rfl,printed⟩
          | succ i => exact shown i o at'

theorem mapMOk {α β : Type} {f : α → Except Fault β} {R : α → β → Prop} {as : List α}
    (each : ∀ a ∈ as, ∃ b, f a = .ok b ∧ R a b) : ∃ bs, as.mapM f = .ok bs ∧ List.Forall₂ R as bs := by
  induction as with
  | nil => exact ⟨[],rfl,.nil⟩
  | cons a rest ih =>
    obtain ⟨b,here,related⟩ := each a List.mem_cons_self
    obtain ⟨bs,later,all⟩ := ih (fun a mem => each a (List.mem_cons_of_mem _ mem))
    refine ⟨b::bs,?_,.cons related all⟩
    rw [List.mapM_cons,here,later]
    rfl

def RowOf (testCount : Nat) (entry : String × List TestOutcome) (row : Row) : Prop :=
  (∃ width, outputLeft entry.1 width ' ' = .ok row.library) ∧
  ∀ (i : Nat) outcome, (entry.2.take testCount)[i]? = some outcome →
    ∃ width cell, row.cells[i]? = some cell ∧ Shows width outcome cell

theorem columnNumbersLength (testCount : Nat) : (columnNumbers testCount).length = testCount := by
  rw [columnNumbers,List.length_map,List.length_range]

/-- The widths dominate every text that is printed with them. -/
theorem columnWidthsOk {results : TestResults}
    (enough : ∀ entry ∈ results.outcomes.toList, results.descriptions.length ≤ entry.2.length) :
    ∃ widths, columnWidths results = .ok widths ∧ widths.2.length = results.descriptions.length ∧
      firstHeader.length ≤ widths.1 ∧
      List.Forall₂ (fun number width => number.length ≤ width)
        (columnNumbers results.descriptions.length) widths.2 ∧
      ∀ entry ∈ results.outcomes.toList, entry.1.length ≤ widths.1 ∧
        List.Forall₂ Fits widths.2 (entry.2.take widths.2.length) := by
  have count : ((columnNumbers results.descriptions.length).map String.length).length =
      results.descriptions.length := by rw [List.length_map,columnNumbersLength]
  obtain ⟨widths,ok,library,columns,fits⟩ := @widenAllOk results.outcomes.toList
    (firstHeader.length,(columnNumbers results.descriptions.length).map String.length)
    (fun entry mem => count.symm ▸ enough entry mem)
  have same := columns.length_eq
  exact ⟨widths,ok,same.symm.trans count,library,List.forall₂_map_left_iff.mp columns,
    fun entry mem => ⟨(fits entry mem).1,same ▸ (fits entry mem).2⟩⟩

theorem tablePrinted {results : TestResults}
    (enough : ∀ entry ∈ results.outcomes.toList, results.descriptions.length ≤ entry.2.length) :
    ∃ table, outputTestResults results = .ok table ∧
      List.Forall₂ (RowOf results.descriptions.length) results.outcomes.toList table.rows := by
  obtain ⟨widths,ok,widthCount,library,columns,fits⟩ := columnWidthsOk enough
  obtain ⟨first,printedFirst⟩ := outputLeftOk library ' '
  obtain ⟨header,printedHeader⟩ := outputHeaderOk columns
  obtain ⟨dashes,printedDashes,_⟩ := @mapMOk _ _ (fun width => outputLeft "" width '-')
    (fun _ _ => True) (widths.1::widths.2) (fun width _ => by
      obtain ⟨text,printed⟩ := @outputLeftOk "" width (by simp) '-'
      exact ⟨text,printed,trivial⟩)
  obtain ⟨rows,printedRows,related⟩ := @mapMOk _ _ (outputRow widths)
    (RowOf results.descriptions.length) results.outcomes.toList (fun entry mem => by
      obtain ⟨tagFits,cellsFit⟩ := fits entry mem
      obtain ⟨text,printedTag⟩ := outputLeftOk tagFits ' '
      obtain ⟨cells,printedCells,shown⟩ := outputCellsOk cellsFit
      rw [outputRow,printedTag,printedCells]
      exact ⟨_,rfl,⟨widths.1,printedTag⟩,widthCount ▸ shown⟩)
  rw [outputTestResults,ok]
  simp only [bind,Except.bind,printedFirst,printedHeader,printedDashes,printedRows]
  exact ⟨_,rfl,related⟩

theorem tableFault {results : TestResults}
    (short : ∃ entry ∈ results.outcomes.toList, entry.2.length < results.descriptions.length) :
    outputTestResults results = .error .outOfRange := by
  have fault := @widenAllFault results.outcomes.toList
    (firstHeader.length,(columnNumbers results.descriptions.length).map String.length) (by
      rw [List.length_map,columnNumbersLength]
      exact short)
  rw [outputTestResults,columnWidths,fault]
  rfl

def renderLine (cells : List String) : String := "|".intercalate cells ++ "\n"

def Cell.render (cell : Cell) : String := cell.color ++ cell.text ++ termResetColor

def Row.render (row : Row) : String := renderLine (row.library::row.cells.map Cell.render)

def Table.render (table : Table) : String :=
  String.join (table.numbered.map (fun line => line ++ "\n")) ++ "\n" ++
    renderLine table.header ++ renderLine table.dashes ++ String.join (table.rows.map Row.render)

end SignalSlot.FeatureTest
