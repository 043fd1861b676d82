import CellFormula.Reading.Rules

/-!
# Reading formulas

A text is read with a limit on the levels of texts inside texts. `parseStrict` reports what is
wrong with a text; `parse` never fails, and keeps a text that is no formula as a text node. Before
it does so, `parse` reads the operands of a chain once more with all levels of the limit left to
each of them.
-/

namespace CellFormula

structure ParseOptions where
  known : Registry := .defaults
  limit : Nat := 256

namespace Reading

/-- Reads a text with the given number of levels left, the depths of its scan kept in `α`. -/
def expressionIn (α : Type) [Depth α] (options : ParseOptions) : Nat → Reader
  | 0, _ => .error (.nestingTooDeep options.limit)
  | levels + 1, cs => rules options.known (expressionIn α options levels) (Text.trim cs) α

def expression (options : ParseOptions) : Nat → Reader :=
  expressionIn Int options

theorem expression_succ (options : ParseOptions) (levels : Nat) (cs : List Char) :
    expression options (levels + 1) cs =
      rules options.known (expression options levels) (Text.trim cs) :=
  rfl

/-- A formula without the blanks and the equals sign around it. -/
def strip (cs : List Char) : List Char :=
  match Text.trim cs with
  | '=' :: rest => Text.trim rest
  | rest => rest

end Reading

namespace Formula

open Reading

def parseStrict (options : ParseOptions) (text : String) : Except ReadingError Formula :=
  expression options options.limit (strip text.toList)

def parse (options : ParseOptions) (text : String) : Formula :=
  let cs := strip text.toList
  match expression options options.limit cs with
  | .ok f => f
  | .error _ =>
    if Scan.hasTopLevelOperator cs then
      match Reading.chain (expression options options.limit) cs with
      | .ok f => f
      | .error _ => .text (String.ofList cs)
    else .text (String.ofList cs)

end Formula

end CellFormula
