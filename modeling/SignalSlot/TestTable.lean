import SignalSlot.TestResults

/-! The shape of a table: what a line shows, a character for each byte, once the colour
escapes are out of it, and where its bars are. Only the bars between the columns are
separators; one inside a library tag is a character like any other. -/
namespace SignalSlot.FeatureTest

inductive Piece where
  | label (text : String) | bar | escape (code : String)
  deriving DecidableEq,Repr

inductive Glyph where
  | separator | character (c : Char)
  deriving DecidableEq,Repr

def Piece.render : Piece → String
  | .label text => text
  | .bar => "|"
  | .escape code => code

def Piece.visible : Piece → List Glyph
  | .label text => text.toList.map .character
  | .bar => [.separator]
  | .escape _ => []

def renderPieces (line : List Piece) : String := String.join (line.map Piece.render)

def visible (line : List Piece) : List Glyph := line.flatMap Piece.visible

-- The first column stands alone, every other one has a bar before it.
def barred : List (List Piece) → List Piece
  | [] => []
  | library::cells => library ++ cells.flatMap (fun cell => .bar::cell)

def plainLine (texts : List String) : List Piece := barred (texts.map (fun text => [.label text]))

def Cell.pieces (cell : Cell) : List Piece := [.escape cell.color,.label cell.text,.escape termResetColor]

def Row.pieces (row : Row) : List Piece := barred ([.label row.library]::row.cells.map Cell.pieces)

def Table.lines (table : Table) : List (List Piece) :=
  plainLine table.header::plainLine table.dashes::table.rows.map Row.pieces

structure SameShape (line other : List Piece) : Prop where
  length : (visible line).length = (visible other).length
  bars : ∀ i : Nat, (visible line)[i]? = some .separator ↔ (visible other)[i]? = some .separator

def Rectangular (table : Table) : Prop :=
  ∀ line ∈ table.lines, ∀ other ∈ table.lines, SameShape line other

/-! The pieces are what is printed. -/
theorem renderBarred {cells : List (List Piece)} :
    renderPieces (barred cells) = "|".intercalate (cells.map renderPieces) := by
  cases cells with
  | nil => simp [barred,renderPieces]
  | cons library cells =>
    induction cells generalizing library with
    | nil => simp [barred]
    | cons cell rest ih =>
      rw [List.map_cons,List.map_cons,String.intercalate_cons_cons,← List.map_cons,← ih cell]
      simp [barred,renderPieces,String.join_append,Piece.render,String.append_assoc]

theorem renderPlain {texts : List String} :
    renderLine texts = renderPieces (plainLine texts) ++ "\n" := by
  have labels : (texts.map (fun text => [Piece.label text])).map renderPieces = texts := by
    simp [renderPieces,Piece.render,Function.comp_def]
  rw [renderLine,plainLine,renderBarred,labels]

theorem renderCell {cell : Cell} : cell.render = renderPieces cell.pieces := by
  simp [Cell.render,Cell.pieces,renderPieces,Piece.render,String.append_assoc]

theorem renderRow {row : Row} : row.render = renderPieces row.pieces ++ "\n" := by
  have cells : row.cells.map Cell.render = (row.cells.map Cell.pieces).map renderPieces := by
    simp [renderCell,Function.comp_def]
  rw [Row.render,renderLine,Row.pieces,renderBarred,cells]
  simp [renderPieces,Piece.render]

theorem renderTable {table : Table} :
    table.render = String.join (table.numbered.map (fun line => line ++ "\n")) ++ "\n" ++
      String.join (table.lines.map (fun line => renderPieces line ++ "\n")) := by
  have rows : table.rows.map Row.render = table.rows.map (fun row => renderPieces row.pieces ++ "\n") :=
    List.map_congr_left (fun row _ => renderRow)
  simp [Table.render,Table.lines,renderPlain,rows,String.append_assoc,Function.comp_def]

/-! A line as its bars alone: true at a bar, false at any other visible character. -/
def shape (line : List Piece) : List Bool := (visible line).map (fun glyph => glyph = .separator)

def outline : List Nat → List Bool
  | [] => []
  | width::widths => List.replicate width false ++
      widths.flatMap (fun width => true::List.replicate width false)

def Blank (cell : List Piece) (width : Nat) : Prop := shape cell = List.replicate width false

theorem sameShape {line other : List Piece} (same : shape line = shape other) : SameShape line other := by
  have bars : ∀ (i : Nat) (line : List Piece),
      (visible line)[i]? = some .separator ↔ (shape line)[i]? = some true := by
    intro i line
    rw [shape,List.getElem?_map]
    cases (visible line)[i]? <;> simp
  constructor
  · have lengths := congrArg List.length same
    rw [shape,shape,List.length_map,List.length_map] at lengths
    exact lengths
  · intro i
    rw [bars,bars,same]

theorem shapeAppend {line other : List Piece} : shape (line ++ other) = shape line ++ shape other := by
  rw [shape,visible,List.flatMap_append,List.map_append]
  rfl

theorem blankLabel (text : String) : Blank [.label text] text.length := by
  simp [Blank,shape,visible,Piece.visible,Function.comp_def,List.map_const',String.length_toList]

theorem blankCell (cell : Cell) : Blank cell.pieces cell.text.length := by
  simp [Blank,shape,visible,Piece.visible,Cell.pieces,Function.comp_def,List.map_const',
    String.length_toList]

theorem shapeBarred {cells : List (List Piece)} {widths : List Nat} (blank : List.Forall₂ Blank cells widths) :
    shape (barred cells) = outline widths := by
  cases blank with
  | nil => rfl
  | cons library blank =>
    rw [barred,outline,shapeAppend,library]
    congr 1
    induction blank with
    | nil => rfl
    | cons cell _ ih =>
      rw [List.flatMap_cons,List.flatMap_cons,shapeAppend,ih,← cell]
      rfl

theorem shapePlain {texts : List String} : shape (plainLine texts) = outline (texts.map String.length) := by
  apply shapeBarred
  rw [List.forall₂_map_left_iff,List.forall₂_map_right_iff,List.forall₂_same]
  exact fun text _ => blankLabel text

theorem shapeRow {row : Row} :
    shape row.pieces = outline (row.library.length::row.cells.map (fun cell => cell.text.length)) := by
  apply shapeBarred
  refine .cons (blankLabel row.library) ?_
  rw [List.forall₂_map_left_iff,List.forall₂_map_right_iff,List.forall₂_same]
  exact fun cell _ => blankCell cell

/-! Every text that is printed is two characters longer than the width of its column. -/
theorem bindOk {ε α β : Type} {x : Except ε α} {f : α → Except ε β} {b : β} :
    (x >>= f) = .ok b ↔ ∃ a, x = .ok a ∧ f a = .ok b := by
  cases x with
  | error fault => exact ⟨(nomatch ·),fun found => by obtain ⟨a,none,_⟩ := found; nomatch none⟩
  | ok a =>
    constructor
    · exact fun later => ⟨a,rfl,later⟩
    · intro found
      obtain ⟨a',same,later⟩ := found
      cases same
      exact later

theorem mapMForall {ε α β : Type} {f : α → Except ε β} {as bs} (ok : as.mapM f = .ok bs) :
    List.Forall₂ (fun a b => f a = .ok b) as bs := by
  induction as generalizing bs with
  | nil =>
    cases ok
    exact .nil
  | cons a rest ih =>
    rw [List.mapM_cons] at ok
    obtain ⟨b,here,ok⟩ := bindOk.mp ok
    obtain ⟨bs',later,ok⟩ := bindOk.mp ok
    cases ok
    exact .cons here (ih later)

theorem forallRight {α β : Type} {R : α → β → Prop} {as bs} (all : List.Forall₂ R as bs) :
    ∀ b ∈ bs, ∃ a ∈ as, R a b := by
  induction all with
  | nil => exact List.forall_mem_nil _
  | @cons a b as bs here _ ih =>
    intro c mem
    rcases List.mem_cons.mp mem with rfl | mem
    · exact ⟨a,List.mem_cons_self,here⟩
    · obtain ⟨a',mem',related⟩ := ih c mem
      exact ⟨a',List.mem_cons_of_mem _ mem',related⟩

section Lengths
variable {label text : String} {width : Nat} {padding : Char}

theorem paddedLength {left right : Nat} :
    (outputPadded label left right padding).length = left + label.length + right + 2 := by
  rw [outputPadded,String.length_ofList,List.length_append,List.length_append,List.length_replicate,
    List.length_replicate,String.length_toList]
  omega

theorem centeredLength (printed : outputCentered label width padding = .ok text) :
    text.length = width + 2 := by
  rw [outputCentered] at printed
  split at printed
  · contradiction
  · cases Except.ok.inj printed
    rw [paddedLength]
    omega

theorem leftLength (printed : outputLeft label width padding = .ok text) : text.length = width + 2 := by
  rw [outputLeft] at printed
  split at printed
  · contradiction
  · cases Except.ok.inj printed
    rw [paddedLength]
    omega

end Lengths

theorem headerLengths {numbers cells : List String} {widths : List Nat}
    (count : numbers.length = widths.length) (printed : outputHeader numbers widths = .ok cells) :
    cells.map String.length = widths.map (fun width => width + 2) := by
  induction numbers generalizing widths cells with
  | nil =>
    cases List.eq_nil_of_length_eq_zero count.symm
    cases printed
    rfl
  | cons number numbers ih => cases widths with
    | nil => nomatch count
    | cons width widths =>
      obtain ⟨cell,here,printed⟩ := bindOk.mp printed
      obtain ⟨rest,later,printed⟩ := bindOk.mp printed
      cases printed
      rw [List.map_cons,List.map_cons,centeredLength here,ih (Nat.succ.inj count) later]

theorem cellLengths {widths : List Nat} {outcomes : List TestOutcome} {cells}
    (printed : outputCells widths outcomes = .ok cells) :
    cells.map (fun cell => cell.text.length) = widths.map (fun width => width + 2) := by
  induction widths generalizing outcomes cells with
  | nil =>
    cases printed
    rfl
  | cons width widths ih => cases outcomes with
    | nil => nomatch printed
    | cons outcome outcomes =>
      obtain ⟨text,here,printed⟩ := bindOk.mp printed
      obtain ⟨rest,later,printed⟩ := bindOk.mp printed
      cases printed
      rw [List.map_cons,List.map_cons,ih later]
      exact congrArg (fun length => length::_) (centeredLength here)

theorem dashLengths {widths : List Nat} {dashes : List String} {padding : Char}
    (printed : widths.mapM (fun width => outputLeft "" width padding) = .ok dashes) :
    dashes.map String.length = widths.map (fun width => width + 2) := by
  rw [← List.forall₂_eq_eq_eq,List.forall₂_map_left_iff,List.forall₂_map_right_iff]
  exact ((mapMForall printed).imp (fun _ _ here => leftLength here)).flip

theorem columnCount {results : TestResults} {widths}
    (enough : ∀ entry ∈ results.outcomes.toList, results.descriptions.length ≤ entry.2.length)
    (ok : columnWidths results = .ok widths) : widths.2.length = results.descriptions.length := by
  obtain ⟨out,same,count,_⟩ := columnWidthsOk enough
  cases ok.symm.trans same
  exact count

theorem rowLengths {widths : Nat × List Nat} {entry : String × List TestOutcome} {row : Row}
    (printed : outputRow widths entry = .ok row) :
    row.library.length::row.cells.map (fun cell => cell.text.length) =
      (widths.1::widths.2).map (fun width => width + 2) := by
  obtain ⟨library,first,printed⟩ := bindOk.mp printed
  obtain ⟨cells,later,printed⟩ := bindOk.mp printed
  cases printed
  rw [List.map_cons,leftLength first,cellLengths later]

structure Aligned (lengths : List Nat) (table : Table) : Prop where
  header : table.header.map String.length = lengths
  dashes : table.dashes.map String.length = lengths
  rows : ∀ row ∈ table.rows, row.library.length::row.cells.map (fun cell => cell.text.length) = lengths

theorem alignedRectangular {lengths : List Nat} {table : Table} (aligned : Aligned lengths table) :
    Rectangular table := by
  have all : ∀ line ∈ table.lines, shape line = outline lengths := by
    intro line mem
    rcases List.mem_cons.mp mem with rfl | mem
    · rw [shapePlain,aligned.header]
    rcases List.mem_cons.mp mem with rfl | mem
    · rw [shapePlain,aligned.dashes]
    · obtain ⟨row,inside,rfl⟩ := List.mem_map.mp mem
      rw [shapeRow,aligned.rows row inside]
  intro line mem other mem'
  exact sameShape ((all line mem).trans (all other mem').symm)

theorem tableAligned {results : TestResults} {table : Table}
    (enough : ∀ entry ∈ results.outcomes.toList, results.descriptions.length ≤ entry.2.length)
    (printed : outputTestResults results = .ok table) :
    ∃ widths, columnWidths results = .ok widths ∧
      Aligned ((widths.1::widths.2).map (fun width => width + 2)) table := by
  obtain ⟨widths,ok,printed⟩ := bindOk.mp printed
  obtain ⟨library,first,printed⟩ := bindOk.mp printed
  obtain ⟨header,numbered,printed⟩ := bindOk.mp printed
  obtain ⟨dashes,dashed,printed⟩ := bindOk.mp printed
  obtain ⟨rows,each,printed⟩ := bindOk.mp printed
  cases printed
  have count := (columnNumbersLength _).trans (columnCount enough ok).symm
  refine ⟨widths,ok,?_,dashLengths dashed,?_⟩
  · rw [List.map_cons,List.map_cons,leftLength first,headerLengths count numbered]
  · intro row mem
    obtain ⟨entry,_,here⟩ := forallRight (mapMForall each) row mem
    exact rowLengths here

end SignalSlot.FeatureTest
