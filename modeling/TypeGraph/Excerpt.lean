import TypeGraph.Diagnostic
import TypeGraph.Schema.Token
import TypeGraph.Text.Width
/-!
Diagnostics shown in the text they are about: the lines concerned, the places marked under them, and
the messages beside the marks.
-/

namespace TypeGraph.Excerpt

/-- A line of a source. -/
structure Line where
  number : Nat
  text : List Char
  /-- Where the line begins, in bytes. -/
  start : Nat
  /-- Where its line feed stands, or the source ends. -/
  stop : Nat
  deriving DecidableEq, Repr, Inhabited

/-- Where the text of the line ends. -/
def Line.textStop (line : Line) : Nat :=
  line.start + Schema.byteSize line.text

/-- A carriage return before the line feed is not text of the line. -/
def withoutReturn (text : List Char) : List Char :=
  if text.getLast? = some '\r' then text.dropLast else text

def numbered (number start : Nat) : List (List Char) → List Line
  | [] => []
  | [text] => [⟨number, text, start, start + Schema.byteSize text⟩]
  | text :: rest =>
    let stop := start + Schema.byteSize text
    ⟨number, withoutReturn text, start, stop⟩ :: numbered (number + 1) (stop + 1) rest

/-- The lines of a text. A line feed at its end begins no further line. -/
def linesOf (text : String) : List Line :=
  let lines := numbered 1 0 (Text.lines text.toList)
  if 1 < lines.length ∧ (lines.getLast?.map (·.text)) = some [] then lines.dropLast else lines

/-- The line that holds a position; whatever lies behind the text is put on the last line. -/
def lineAt (lines : List Line) (position : Nat) : Line :=
  match lines.find? fun line => line.start ≤ position && position ≤ line.stop with
  | some line => line
  | none => lines.getLast?.getD default

/-- The characters of a line that begin before a position. -/
def before (start position : Nat) : List Char → List Char
  | [] => []
  | c :: cs => if start < position then c :: before (start + c.utf8Size) position cs else []

/-- Characters that change the direction of what follows. -/
def isDirecting (c : Char) : Bool :=
  (0x202A ≤ c.toNat && c.toNat ≤ 0x202E) || (0x2066 ≤ c.toNat && c.toNat ≤ 0x2069)

/-- A character as it is shown: controls by their pictures, tabs as four spaces. -/
def shown (c : Char) : List Char :=
  if c = '\t' then [' ', ' ', ' ', ' ']
  else if c = '\n' then [c]
  else if c.toNat < 0x20 then [Char.ofNat (0x2400 + c.toNat)]
  else if c.toNat = 0x7F then [Char.ofNat 0x2421]
  else if c.toNat = 0x200D then []
  else if isDirecting c then [Char.ofNat 0xFFFD]
  else [c]

/-- How many columns a character takes as it is shown. -/
def columns (c : Char) : Nat :=
  if c = '\t' then 4 else if isDirecting c then 1 else Text.Width.columns c

/-- The column at which a position is shown. -/
def Line.column (line : Line) (position : Nat) : Nat :=
  (before line.start position line.text).foldr (fun c n => columns c + n) 0

/-- A place in a source, with what is said about it. -/
structure Remark where
  span : Span
  primary : Bool
  label : String
  deriving DecidableEq, Repr, Inhabited

/-- A remark on its line, between two columns. -/
structure Mark where
  line : Nat
  first : Nat
  last : Nat
  primary : Bool
  label : String
  deriving DecidableEq, Repr, Inhabited

/-- The part of a span inside a text of `size` bytes; an empty one is widened where there is
room. -/
def clamp (size : Nat) (span : Span) : Span :=
  let start := min span.start size
  let stop := min span.stop size
  if start = stop then ⟨start, min (start + 1) size⟩ else ⟨start, stop⟩

/-- Every mark is at least one column wide, and ends with its line at the latest. -/
def markOf (lines : List Line) (remark : Remark) : Mark :=
  let line := lineAt lines remark.span.start
  let first := line.column remark.span.start
  { line := line.number
    first
    last := max (first + 1) (line.column remark.span.stop)
    primary := remark.primary
    label := remark.label }

/-- Whether two marks touch a common column, the first one taken `padding` columns wider. -/
def overlap (a b : Mark) (padding : Nat) : Bool :=
  (b.first ≤ a.first && a.first < b.last) ||
    (a.first ≤ b.first && b.first < a.last + padding)

def Mark.hasLabel (m : Mark) : Bool :=
  m.label ≠ ""

/-- Whether the label of `m` cannot stand beside it because of a mark further left. -/
def crowded (m left : Mark) : Bool :=
  overlap left m 0 && m.hasLabel &&
    !(left.first = m.first && left.last = m.last && !left.hasLabel)

/-- Whether the label of `left` must stand below that of `m`, which stands in the row `row`. -/
def collides (m left : Mark) (row : Nat) : Bool :=
  overlap left m (left.label.utf8ByteSize + 2) && left.hasLabel &&
    (m.hasLabel || (left.last ≤ m.last && row == 0))

/-- The row of the label of every mark, from right to left, and the number of the lowest row that is
used. Row zero is that of the marks themselves. -/
def labelRows (row lowest : Nat) : List Mark → List (Nat × Mark) × Nat
  | [] => ([], lowest)
  | m :: ms =>
    let here := if row = 0 ∧ ms.any (crowded m) then 1 else row
    let next := if ms.any (collides m · here) then here + 1 else here
    let (rest, lowest) := labelRows next (max lowest next) ms
    ((here, m) :: rest, lowest)

/-- Writes over what stands at a column. -/
def overlay (column : Nat) (text row : List Char) : List Char :=
  let before := row.take column
  before ++ List.replicate (column - before.length) ' ' ++ text ++ row.drop (column + text.length)

abbrev Canvas := List (List Char)

def Canvas.write (canvas : Canvas) (row column : Nat) (text : List Char) : Canvas :=
  canvas.modify row (overlay column text)

/-- The stroke from a mark down to its label. -/
def drawStroke (canvas : Canvas) (row : Nat) (m : Mark) : Canvas :=
  if 0 < row ∧ m.hasLabel then
    (List.range (row + 1)).foldl (fun canvas r => canvas.write r m.first ['|']) canvas
  else canvas

def drawLabel (canvas : Canvas) (row : Nat) (m : Mark) : Canvas :=
  if row = 0 then canvas.write 0 (m.last + 1) m.label.toList
  else canvas.write (row + 1) m.first m.label.toList

def drawMark (canvas : Canvas) (m : Mark) : Canvas :=
  canvas.write 0 m.first (List.replicate (m.last - m.first) (if m.primary then '^' else '-'))

/-- The order of drawing: wide marks first, so that narrow ones stay visible, and among marks of one
width the primary one last. -/
def drawnBefore (a b : Mark) : Bool :=
  let wide := a.last - a.first
  let other := b.last - b.first
  other < wide || (wide == other && (!a.primary || b.primary))

/-- The rows under a line with marks. -/
def rowsUnder (marks : List Mark) : List (List Char) :=
  let sorted := marks.mergeSort fun a b => b.first ≤ a.first
  let (placed, lowest) := labelRows 0 0 sorted
  let canvas : Canvas := List.replicate (if lowest = 0 then 1 else lowest + 2) []
  let canvas := placed.foldl (fun canvas (row, m) => drawStroke canvas row m) canvas
  let canvas := placed.foldl (fun canvas (row, m) => drawLabel canvas row m) canvas
  (sorted.mergeSort drawnBefore).foldl drawMark canvas

def spaces (n : Nat) : String :=
  String.ofList (List.replicate n ' ')

/-- A row without a line number; `width` is that of the numbers. -/
def blankRow (width : Nat) (content : List Char) : String :=
  spaces width ++ " |" ++ if content = [] then "" else " " ++ String.ofList content

def numberedRow (width : Nat) (line : Line) : String :=
  let number := toString line.number
  spaces (width - number.length) ++ number ++ " |" ++
    if line.text = [] then "" else " " ++ String.ofList (line.text.flatMap shown)

/-- What stands between two lines that are shown: a single line itself, dots for several. -/
def gap (width : Nat) (lines : List Line) (above below : Nat) : List String :=
  if below = above + 2 then
    ((lines.find? (·.number == above + 1)).map (numberedRow width)).toList
  else if above + 2 < below then ["..."]
  else []

/-- The marked lines with the rows under them, from the line after `above` on. -/
def markedLines (width : Nat) (all : List Line) (marks : List Mark) :
    Option Nat → List Line → List String
  | _, [] => []
  | above?, line :: rest =>
    let here := marks.filter (·.line == line.number)
    if here = [] then markedLines width all marks above? rest
    else
      above?.elim [] (gap width all · line.number) ++
        numberedRow width line :: (rowsUnder here).map (blankRow width) ++
        markedLines width all marks (some line.number) rest

/-- A source with the remarks on it, the main one first. -/
structure Snippet where
  source : Source
  remarks : List Remark
  deriving DecidableEq, Repr, Inhabited

namespace Snippet

def lines (s : Snippet) : List Line :=
  linesOf s.source.text

def marks (s : Snippet) : List Mark :=
  s.remarks.map (markOf s.lines)

/-- Name, line and column of the main remark, in characters. A position behind the text of its line
counts as one column more than the line has. -/
def location (s : Snippet) : String :=
  let position := (s.remarks.head?.map (·.span.start)).getD 0
  let line := lineAt s.lines position
  let column := (before line.start position line.text).length +
    (if line.textStop < position then 2 else 1)
  s.source.kind.displayName ++ ":" ++ toString line.number ++ ":" ++ toString column

/-- The rows of a snippet under `arrow` and its location. -/
def rows (s : Snippet) (width : Nat) (arrow : String) : List String :=
  (spaces width ++ arrow ++ " " ++ s.location) :: blankRow width [] ::
    markedLines width s.lines s.marks none s.lines

/-- The largest line number that is shown. -/
def lastLine (s : Snippet) : Nat :=
  (s.marks.map (·.line)).foldl max 0

end Snippet

/-- The snippets of a diagnostic about `source`: one for its source, with the related places in it,
and one for each related place in another source that is known. -/
def snippets (sources : List Source) (source : Source) (d : Diagnostic) : List Snippet :=
  let size := source.text.utf8ByteSize
  let own := d.related.filter (·.source == d.source)
  let others := d.related.filter (·.source != d.source)
  { source
    remarks := ⟨clamp size d.span, true, d.message⟩ ::
      own.map fun r => ⟨clamp size r.span, false, r.message⟩ } ::
    others.filterMap fun r => (sources[r.source]?).map fun other =>
      { source := other, remarks := [⟨clamp other.text.utf8ByteSize r.span, false, r.message⟩] }

/-- A text behind `lead`; its further lines begin in the same column. -/
def hanging (lead : String) (text : List Char) : String :=
  lead ++ ("\n" ++ spaces lead.length).intercalate ((Text.lines text).map String.ofList)

def titleRow (d : Diagnostic) : String :=
  hanging (d.severity.label ++ ": ") (d.message.toList.flatMap shown)

def hintRows (width : Nat) (hints : List String) : List String :=
  if hints = [] then []
  else blankRow width [] ::
    hints.map fun hint => hanging (spaces width ++ " = help: ") hint.toList

/-- A diagnostic shown in its source; only its own text where the source is not known. -/
def ofDiagnostic (sources : List Source) (d : Diagnostic) : String :=
  match sources[d.source]? with
  | none => d.text ++ "\n"
  | some source =>
    let snippets := snippets sources source d
    let width := (toString ((snippets.map (·.lastLine)).foldl max 0)).length
    let rows := match snippets with
      | [] => []
      | main :: others =>
        main.rows width "-->" ++ others.flatMap fun s => blankRow width [] :: s.rows width ":::"
    "\n".intercalate (titleRow d :: rows ++ hintRows width d.hints)

/-- Diagnostics one after another. -/
def render (sources : List Source) (ds : List Diagnostic) : String :=
  "\n".intercalate (ds.map (ofDiagnostic sources))

end TypeGraph.Excerpt
