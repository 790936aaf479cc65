import OperandOrder.Host.Lines
import OperandOrder.Json.Writer
import OperandOrder.Opportunity
import OperandOrder.Parser
import OperandOrder.Printer

/-!
# Working on a file line by line

Every expression line of a file is read and worked on by itself. `reorderSource` gives the lines
with their operands reordered, `highlightSource` the ranges where that would change something.

A line with errors is never changed, and neither is a line whose tree does not change: its text
stays as it was written. A line that does change is printed anew behind its own indentation.
-/

namespace OperandOrder

/-- **What becomes of a line** when it is reordered. -/
structure ReorderedLine where
  number : Nat
  offset : Nat
  text : String
  changed : Bool
  errors : List ParseError

/-- **What is shown on a line.** -/
structure HighlightedLine where
  number : Nat
  offset : Nat
  ranges : List Span
  errors : List ParseError

namespace SourceLine

/-- A line as it was written. -/
def unchanged (line : SourceLine) (errors : List ParseError) : ReorderedLine :=
  ⟨line.number, line.offset, String.ofList line.text, false, errors⟩

/-- Reorders one line, within a range counted from its start. -/
def reorder (policy : Policy) (range : Span) (line : SourceLine) : ReorderedLine :=
  let parsed := parse (String.ofList line.text)
  if parsed.errors.isEmpty then
    let result := parsed.expr.reorderWithin policy range
    if result.changed then
      let text := String.ofList (Text.indent line.text ++ result.expr.print.toList)
      ⟨line.number, line.offset, text, true, []⟩
    else line.unchanged []
  else line.unchanged parsed.errors

/-- The ranges of one line where reordering would change something. A line with errors is searched
as far as it could be read. -/
def highlight (policy : Policy) (line : SourceLine) : HighlightedLine :=
  let parsed := parse (String.ofList line.text)
  ⟨line.number, line.offset, (parsed.expr.opportunities policy).entries, parsed.errors⟩

end SourceLine

/-- **Reorders every expression line** of a text, within a range of each line. -/
def reorderSource (policy : Policy) (range : Option Span) (source : String) : List ReorderedLine :=
  (Lines.expressionLines source).map (SourceLine.reorder policy (range.getD .everywhere))

/-- **The text after reordering:** the changed lines in place of those that were there. -/
def reorderedText (policy : Policy) (range : Option Span) (source : String) : String :=
  let changed := (reorderSource policy range source).filter (·.changed)
  Lines.replaceLines source (changed.map fun line => (line.number, line.text))

/-- **What is shown on every expression line** of a text. -/
def highlightSource (policy : Policy) (source : String) : List HighlightedLine :=
  (Lines.expressionLines source).map (SourceLine.highlight policy)

/-! ### Documents -/

/-- A span as a document. -/
def Span.document (s : Span) : Json := .object [("start", .number s.start), ("end", .number s.stop)]

/-- The number and the ranges of a line as a document. -/
def HighlightedLine.document (line : HighlightedLine) : Json :=
  .object [("line", .number line.number), ("ranges", .list (line.ranges.map Span.document))]

/-- Lines as one document. -/
def highlightDocument (lines : List HighlightedLine) : Json :=
  .list (lines.map HighlightedLine.document)

end OperandOrder
