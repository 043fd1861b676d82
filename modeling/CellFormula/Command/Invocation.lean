import CellFormula.Command.Arguments

/-!
# Invocations of the command

What a command line asks for. A command line that asks for nothing known, lacks something or gives
too much is a usage error, without further distinction.
-/

namespace CellFormula.Command

/-- Where a tree document comes from. -/
inductive Source where
  | standardInput
  | file (path : String)
  deriving DecidableEq

/-- What is analyzed: a document, or formula text given on the command line. -/
inductive Subject where
  | document (source : Source)
  | formula (text : String)

inductive Invocation where
  | version
  | parse (formula : String) (known : List String) (pretty strict : Bool)
  | generate (source : Source) (doubleEquals : Bool)
  | analyze (subject : Subject) (name description : String)
  | references (query : String)

namespace Invocation

def knownSwitch : Switch := ⟨"known", some 'k', true, true⟩
def prettySwitch : Switch := ⟨"pretty", some 'p', false, false⟩
def strictSwitch : Switch := ⟨"strict", none, false, false⟩
def doubleEqualsSwitch : Switch := ⟨"double-equals", none, false, false⟩
def formulaSwitch : Switch := ⟨"formula", some 'f', true, false⟩
def nameSwitch : Switch := ⟨"name", some 'n', true, false⟩
def descriptionSwitch : Switch := ⟨"description", some 'd', true, false⟩

/-- The arguments of a command that knows the given options. -/
def argumentsOf? (switches : List Switch) (arguments : List String) : Option Arguments :=
  (arguments? switches arguments).filter (·.respects switches)

/-- The source that at most one operand names; a path is not empty. -/
def sourceOf? : List String → Option Source
  | [] => some .standardInput
  | [path] => if path.isEmpty then none else some (.file path)
  | _ => none

def ofParse? (arguments : List String) : Option Invocation := do
  let a ← argumentsOf? [knownSwitch, prettySwitch, strictSwitch] arguments
  match a.operands with
  | [formula] => some (.parse formula (a.values "known") (a.has "pretty") (a.has "strict"))
  | _ => none

def ofGenerate? (arguments : List String) : Option Invocation := do
  let a ← argumentsOf? [doubleEqualsSwitch] arguments
  some (.generate (← sourceOf? a.operands) (a.has "double-equals"))

def ofAnalyze? (arguments : List String) : Option Invocation := do
  let a ← argumentsOf? [formulaSwitch, nameSwitch, descriptionSwitch] arguments
  let name := (a.value? "name").getD "formula"
  let description := (a.value? "description").getD ""
  match a.value? "formula", a.operands with
  | some text, [] => some (.analyze (.formula text) name description)
  | some _, _ => none
  | none, operands => some (.analyze (.document (← sourceOf? operands)) name description)

def ofReferences? (arguments : List String) : Option Invocation := do
  let a ← argumentsOf? [] arguments
  match a.operands with
  | [] => some (.references "")
  | [query] => some (.references query)
  | _ => none

/-- The invocation that a command line describes, if it is well formed. The version is printed as
soon as it is asked for. -/
def ofArguments? : List String → Option Invocation
  | "parse" :: rest => ofParse? rest
  | "generate" :: rest => ofGenerate? rest
  | "analyze" :: rest => ofAnalyze? rest
  | "references" :: rest => ofReferences? rest
  | "refs" :: rest => ofReferences? rest
  | "--version" :: _ => some .version
  | first :: _ => if first.toList.take 2 = ['-', 'V'] then some .version else none
  | [] => none

/-- The source that has to be read before the invocation can run. -/
def input? : Invocation → Option Source
  | .generate source _ => some source
  | .analyze (.document source) _ _ => some source
  | _ => none

end Invocation

end CellFormula.Command
