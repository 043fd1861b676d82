import CellFormula.Formula.Chain
import CellFormula.Number.Numeral
import CellFormula.Reading.Error
import CellFormula.Registry
import CellFormula.Scan.Split
import CellFormula.Scan.Wrapped

/-!
# Rules for reading a trimmed text

The shapes that a text can have overlap, so they are tried in a fixed order and the first that
applies decides. Each rule takes the reader of the texts inside as an argument, `inner`. What
follows a call is ignored.
-/

namespace CellFormula.Reading

open Text Scan

abbrev Reader :=
  List Char → Except ReadingError Formula

def cellNamed (cs : List Char) : Formula :=
  .cell (String.ofList cs)

/-- The word `IF` in any letter case, blanks, and an opening parenthesis. -/
def startsConditional (cs : List Char) : Bool :=
  sameWord (cs.take 2) ['i', 'f'] && (trimStart (cs.drop 2)).head? == some '('

/-- The word `LOOKUP` in any letter case and an opening parenthesis at once. -/
def startsLookup (cs : List Char) : Bool :=
  sameWord (cs.take 7) "lookup(".toList

/-- The text between two equal quotes at the ends; an operator at top level means that the quotes
belong to different operands. -/
def quotedInterior (cs : List Char) (α : Type := Int) [Depth α] : Option (List Char) :=
  match cs with
  | [] => none
  | q :: rest =>
    if Nesting.isQuote q && rest.getLast? == some q && !hasTopLevelOperator cs α then
      some rest.dropLast
    else none

/-- The finite number that a text denotes. -/
def number? (cs : List Char) : Option Binary64 :=
  (Binary64.ofText? cs).filter Binary64.isFinite

def callArguments (keyword : Keyword) (cs : List Char) (α : Type := Int) [Depth α] :
    Except ReadingError (List (List Char)) :=
  match splitCall cs α with
  | some (content, _) => .ok (splitTopLevel ',' content α)
  | none => .error (.unterminated keyword cs)

/-- The operands of a chain. A single operand is read again on its own, unless that is the same text
with its sign. -/
def chain (inner : Reader) (cs : List Char) (α : Type := Int) [Depth α] :
    Except ReadingError Formula :=
  let segments := Segments.ofText cs α
  if segments.operands.length < 2 then
    let single := segments.operands.headD cs
    if single = cs then .error (.noLeftOperand cs) else inner single
  else if segments.operators.length + 1 ≠ segments.operands.length then
    .error (.danglingOperator cs)
  else do
    let operands ← segments.operands.mapM inner
    match Chain.ofPairs operands segments.operators with
    | .ok c => .ok c.toFormula
    | .error cause => .error (.fault cause)

/-- The comparator of a condition and the texts on its two sides: the first spelling in order that
occurs at top level anywhere. -/
def comparison? (cs : List Char) (α : Type := Int) [Depth α] :
    Option (Comparator × List Char × List Char) :=
  Comparator.spellings.findSome? fun (symbol, comparator) =>
    (findTopLevel symbol cs α).map fun (left, right) => (comparator, left, right)

/-- A condition without a comparator compares its value with zero. -/
def condition (inner : Reader) (cs : List Char) (α : Type := Int) [Depth α] :
    Except ReadingError (Comparator × Formula × Formula) :=
  match comparison? cs α with
  | some (comparator, left, right) => do
    let left ← inner left
    let right ← inner right
    .ok (comparator, left, right)
  | none => do
    let left ← inner cs
    .ok (.equal, left, .number (.zero false))

/-- Arguments beyond the third are ignored. -/
def conditional (inner : Reader) (cs : List Char) (α : Type := Int) [Depth α] :
    Except ReadingError Formula := do
  match ← callArguments .conditional cs α with
  | c :: t :: f :: _ =>
    let (comparator, left, right) ← condition inner c α
    let whenTrue ← inner t
    let whenFalse ← inner f
    .ok (.conditional comparator left right whenTrue whenFalse)
  | arguments => .error (.tooFewArguments arguments.length)

def lookup (inner : Reader) (cs : List Char) (α : Type := Int) [Depth α] :
    Except ReadingError Formula := do
  let arguments ← callArguments .lookup cs α
  .ok (.lookup (← arguments.mapM inner))

/-- Grouping parentheses, and failing those a cell with the whole text as its name. -/
def grouping (inner : Reader) (cs : List Char) (α : Type := Int) [Depth α] :
    Except ReadingError Formula :=
  match wrappedInterior .paren cs α with
  | some interior => inner interior
  | none => .ok (if cs.isEmpty then .text "" else cellNamed cs)

/-- A leaf recognised by its own shape. -/
def leaf? (known : Registry) (cs : List Char) (α : Type := Int) [Depth α] : Option Formula :=
  match quotedInterior cs α with
  | some interior => some (.text (String.ofList interior))
  | none =>
    if (wrappedInterior .bracket cs α).isSome then some (cellNamed cs)
    else match number? cs with
      | some value => some (.number value)
      | none =>
        if known.contains (String.ofList cs) || isSpreadsheetName cs || isIdentifier cs then
          some (cellNamed cs)
        else none

/-- The rules in order. -/
def rules (known : Registry) (inner : Reader) (cs : List Char) (α : Type := Int) [Depth α] :
    Except ReadingError Formula :=
  if startsConditional cs then conditional inner cs α
  else if startsLookup cs then lookup inner cs α
  else match leaf? known cs α with
    | some leaf => .ok leaf
    | none => if hasTopLevelOperator cs α then chain inner cs α else grouping inner cs α

end CellFormula.Reading
