import CellFormula.Formula.Basic
import CellFormula.Number.Layout
import CellFormula.Text.Blank

/-!
# The text of a formula

Every chain is written in parentheses. A text is written between double quotes as it is, quotes
inside it included. A call of any function but `lookup` has no text.
-/

namespace CellFormula

/-- How an equality inside a condition is written. -/
inductive EqualitySpelling where
  | single
  | double
  deriving DecidableEq

def EqualitySpelling.symbol : EqualitySpelling → String
  | .single => "="
  | .double => "=="

/-- The symbol of a comparator in formula text. -/
def EqualitySpelling.write (spelling : EqualitySpelling) : Comparator → List Char
  | .equal => spelling.symbol.toList
  | c => c.symbol.toList

/-- The text of a number. -/
def Binary64.toText (x : Binary64) : List Char :=
  Layout.formula.write x

namespace Formula

mutual

def write (spelling : EqualitySpelling) : Formula → List Char
  | .cell name => name.toList
  | .number value => value.toText
  | .text value => '"' :: value.toList ++ ['"']
  | .chain operands operators =>
    '(' :: writeChain spelling (operators.toList operands.length) operands ++ [')']
  | .conditional comparator left right whenTrue whenFalse =>
    "IF(".toList ++ left.write spelling ++ spelling.write comparator ++ right.write spelling ++
      ',' :: whenTrue.write spelling ++ ',' :: whenFalse.write spelling ++ [')']
  | .call name arguments =>
    if name = lookupName then "LOOKUP(".toList ++ writeArguments spelling arguments ++ [')']
    else []

/-- The operands, with an operator before each one but the first. -/
def writeChain (spelling : EqualitySpelling) (operators : List Operator) :
    List Formula → List Char
  | [] => []
  | x :: xs => x.write spelling ++ writeLinks spelling operators xs

def writeLinks (spelling : EqualitySpelling) : List Operator → List Formula → List Char
  | _, [] => []
  | [], x :: xs => x.write spelling ++ writeLinks spelling [] xs
  | op :: ops, x :: xs => op.symbol :: x.write spelling ++ writeLinks spelling ops xs

def writeArguments (spelling : EqualitySpelling) : List Formula → List Char
  | [] => []
  | x :: xs => x.write spelling ++ writeMore spelling xs

def writeMore (spelling : EqualitySpelling) : List Formula → List Char
  | [] => []
  | x :: xs => ',' :: x.write spelling ++ writeMore spelling xs

end

section

variable (spelling : EqualitySpelling)

@[simp] theorem write_cell (name : String) : (cell name).write spelling = name.toList := rfl

@[simp] theorem write_number (x : Binary64) : (number x).write spelling = x.toText := rfl

@[simp] theorem write_text (value : String) :
    (text value).write spelling = '"' :: value.toList ++ ['"'] := rfl

theorem write_chain (operands : List Formula) (operators : Operators) :
    (chain operands operators).write spelling =
      '(' :: writeChain spelling (operators.toList operands.length) operands ++ [')'] := rfl

theorem write_conditional (comparator : Comparator) (left right whenTrue whenFalse : Formula) :
    (conditional comparator left right whenTrue whenFalse).write spelling =
      "IF(".toList ++ left.write spelling ++ spelling.write comparator ++ right.write spelling ++
        ',' :: whenTrue.write spelling ++ ',' :: whenFalse.write spelling ++ [')'] := rfl

theorem write_lookup (arguments : List Formula) : (call lookupName arguments).write spelling =
    "LOOKUP(".toList ++ writeArguments spelling arguments ++ [')'] := rfl

@[simp] theorem writeChain_cons (operators : List Operator) (x : Formula) (xs : List Formula) :
    writeChain spelling operators (x :: xs) =
      x.write spelling ++ writeLinks spelling operators xs := rfl

@[simp] theorem writeLinks_nil (operators : List Operator) :
    writeLinks spelling operators [] = [] := by
  cases operators <;> rfl

@[simp] theorem writeLinks_cons (op : Operator) (operators : List Operator) (x : Formula)
    (xs : List Formula) : writeLinks spelling (op :: operators) (x :: xs) =
      op.symbol :: x.write spelling ++ writeLinks spelling operators xs := rfl

@[simp] theorem writeArguments_nil : writeArguments spelling [] = [] := rfl

@[simp] theorem writeArguments_cons (x : Formula) (xs : List Formula) :
    writeArguments spelling (x :: xs) = x.write spelling ++ writeMore spelling xs := rfl

@[simp] theorem writeMore_nil : writeMore spelling [] = [] := rfl

@[simp] theorem writeMore_cons (x : Formula) (xs : List Formula) :
    writeMore spelling (x :: xs) = ',' :: x.write spelling ++ writeMore spelling xs := rfl

end

def toText (spelling : EqualitySpelling) (f : Formula) : String :=
  String.ofList (f.write spelling)

/-- The preview of several formulas as a sum. -/
def previewAll (fs : List Formula) : String :=
  String.ofList (Text.joined " + ".toList (fs.map (write .single)))

end Formula

end CellFormula
