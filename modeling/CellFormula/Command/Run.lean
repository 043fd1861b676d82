import CellFormula.Command.Invocation
import CellFormula.Record.Document

/-!
# Running an invocation

An invocation maps what was read for it to what it prints and its exit code. A failure is reported
with its causes, the outermost first; several causes are numbered, and the lines of a cause after
its first are indented as far as its text.
-/

namespace CellFormula.Command

structure Outcome where
  code : Nat
  output : String
  errors : String
  deriving DecidableEq

/-- Why an invocation fails. -/
inductive Failure where
  | unreadable (source : Source) (reason : String)
  | notDocument (source : Source) (error : DocumentError)
  | notFormula (text : String) (error : ReadingError)
  | invalidTree (fault : Fault)
  | noSuchName (query : String)

namespace Failure

/-- What is wrong with a document, in words. -/
def documentMessage : DocumentError → String
  | .endOfText => "EOF while parsing a value"
  | .malformed => "expected value"
  | .data fault => fault.located

def headline : Failure → String
  | .unreadable .standardInput _ => "Failed to read from stdin"
  | .unreadable (.file path) _ => s!"Failed to read '{path}'"
  | .notDocument .standardInput _ => "Invalid tree document in stdin"
  | .notDocument (.file path) _ => s!"Invalid tree document in {path}"
  | .notFormula text _ => s!"Failed to parse '{text}'"
  | .invalidTree fault => fault.message
  | .noSuchName query => s!"No reference names match '{query}'"

def causes : Failure → List String
  | .unreadable _ reason => [reason]
  | .notDocument _ error =>
    ["Tree document error: " ++ documentMessage error, documentMessage error]
  | .notFormula _ error => [error.message]
  | .invalidTree _ => []
  | .noSuchName _ => []

/-- A text with the given indentation after every line break. -/
def indentLines (width : Nat) (cs : List Char) : List Char :=
  cs.flatMap fun c => if c = '\n' then '\n' :: List.replicate width ' ' else [c]

def numberedCauses (index : Nat) : List String → List Char
  | [] => []
  | cause :: rest =>
    let number := Nat.toDigits 10 index
    List.replicate (5 - number.length) ' ' ++ number ++ ": ".toList ++
      indentLines 7 cause.toList ++ '\n' :: numberedCauses (index + 1) rest

def causeLines : List String → List Char
  | [] => []
  | [cause] => "\nCaused by:\n    ".toList ++ indentLines 4 cause.toList ++ ['\n']
  | causes => "\nCaused by:\n".toList ++ numberedCauses 0 causes

def report (f : Failure) : String :=
  "Error: " ++ f.headline ++ "\n" ++ String.ofList (causeLines f.causes)

end Failure

namespace Invocation

def versionText : String := "hybrid-formula 0.1.0\n"

def readDocument (source : Source) (content : Except String String) : Except Failure Formula :=
  match content with
  | .error reason => .error (.unreadable source reason)
  | .ok text => (Formula.ofDocument text).mapError (.notDocument source)

def parsed (formula : String) (known : List String) (strict : Bool) : Except Failure Formula :=
  let options : ParseOptions := ⟨Registry.defaults.addAll known, 256⟩
  if strict then (Formula.parseStrict options formula).mapError (.notFormula formula)
  else .ok (Formula.parse options formula)

def analyzed (subject : Subject) (name description : String) (content : Except String String) :
    Except Failure Record := do
  match subject with
  | .formula text =>
    (Record.ofFormula name description text ⟨.defaults, 256⟩).mapError .invalidTree
  | .document source =>
    (Record.ofTree name description (← readDocument source content)).mapError .invalidTree

/-- One line for each default name that contains the query, with its kind. -/
def listing (query : String) : Except Failure String :=
  let registry := Registry.defaults
  match registry.suggest query with
  | [] => .error (.noSuchName query)
  | names => .ok (String.join (names.map fun name =>
      name ++ "\t" ++ (registry.classify name).label ++ "\n"))

/-- What an invocation prints, given the content of its source. -/
def output (content : Except String String) : Invocation → Except Failure String
  | .version => .ok versionText
  | .parse formula known pretty strict => do
    let f ← parsed formula known strict
    .ok ((if pretty then f.toIndentedDocument else f.toDocument) ++ "\n")
  | .generate source doubleEquals => do
    let f ← readDocument source content
    .ok (f.toText (if doubleEquals then .double else .single) ++ "\n")
  | .analyze subject name description => do
    let r ← analyzed subject name description content
    .ok (r.toJson.toIndentedText ++ "\n")
  | .references query => listing query

def run (content : Except String String) (i : Invocation) : Outcome :=
  match i.output content with
  | .ok text => ⟨0, text, ""⟩
  | .error failure => ⟨1, "", failure.report⟩

end Invocation

/-- The exit code of a usage error. -/
def usageErrorCode : Nat := 2

end CellFormula.Command
