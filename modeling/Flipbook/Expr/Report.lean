import Flipbook.Expr.Fault

/-!
# Expr/Report — faults shown in their source

`Fault.report` prints the wording of a fault and, below it, the source line it points at: the range
is underlined, and a hook from its middle leads to the label.  A fault without a range is its
wording alone.
-/

namespace Flipbook.Expr

/-- The line of a source text around a byte offset. -/
structure SourceLine where
  /-- The number of the line, from 1. -/
  number : Nat
  /-- The byte offset of its first character. -/
  start : Nat
  chars : List Char

namespace SourceLine

/-- The line that holds a byte offset, among lines numbered from `number` that begin at `start`. -/
def findFrom (offset : Nat) : (number start : Nat) → List String → SourceLine
  | number, start, [] => ⟨number, start, []⟩
  | number, start, line :: rest =>
    let stop := start + line.utf8ByteSize
    if offset ≤ stop then ⟨number, start, line.toList⟩
    else findFrom offset (number + 1) (stop + 1) rest

/-- The line of a source text that holds a byte offset. -/
def find (source : String) (offset : Nat) : SourceLine :=
  findFrom offset 1 0 (source.splitOn "\n")

/-- The number of characters of the line that begin before a byte offset. -/
def charsBefore (l : SourceLine) (offset : Nat) : Nat := go l.start l.chars
where
  /-- Counts on from a character at byte `position`. -/
  go (position : Nat) : List Char → Nat
    | [] => 0
    | c :: cs => if position < offset then go (position + c.utf8Size) cs + 1 else 0

end SourceLine

/-- A run of one character. -/
def repeated (n : Nat) (c : Char) : String := String.ofList (List.replicate n c)

/-- The lines below the wording of a fault: a header, the source line, its underline, the label. -/
def excerpt (name source : String) (span : Span) (label : String) : List String :=
  let line := SourceLine.find source span.start
  let indent := line.charsBefore span.start
  let length := line.charsBefore span.stop - indent
  let middle := length / 2
  let number := toString line.number
  let margin := repeated (number.length + 2) ' '
  let underline := repeated middle '─' ++ "┬" ++ repeated (length - middle - 1) '─'
  let hook := "╰" ++ repeated (length + 1 - middle) '─' ++ " " ++ label
  [ margin ++ "╭─[ " ++ name ++ ":" ++ number ++ ":" ++ toString (indent + 1) ++ " ]",
    margin ++ "│",
    " " ++ number ++ " │ " ++ String.ofList line.chars,
    margin ++ "│ " ++ repeated indent ' ' ++ underline,
    margin ++ "│ " ++ repeated (indent + middle) ' ' ++ hook,
    repeated (number.length + 2) '─' ++ "╯" ]

/-- A wording as the first line of a report. -/
def reportHead (message : String) : String := "Error: " ++ message

/-- The report of a fault over a source text that goes by `name`. -/
def Fault.report (f : Fault) (name source : String) : String :=
  match f.span? with
  | none => reportHead f.message
  | some span => "\n".intercalate (reportHead f.message :: excerpt name source span f.label)

/-- The name of a source text that was given none. -/
def defaultSourceName : String := "expression"

end Flipbook.Expr
