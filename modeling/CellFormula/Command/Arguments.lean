import CellFormula.Text.Blank

/-!
# Options and operands on a command line

An option has a long name and may have a short one; some take a value, which is given after an
equals sign, attached to the short name, or as the next argument. Short options without a value can
be combined in one argument. A lone hyphen is not an option, and after two hyphens nothing is.
-/

namespace CellFormula.Command

structure Switch where
  long : String
  short : Option Char
  takesValue : Bool
  repeatable : Bool

/-- The arguments of a command: each option that occurs with its value, empty if it takes none, and
the operands. -/
structure Arguments where
  options : List (String × String)
  operands : List String

namespace Arguments

def empty : Arguments :=
  ⟨[], []⟩

def addOperand (text : String) (a : Arguments) : Arguments :=
  { a with operands := text :: a.operands }

/-- The values given for an option. -/
def values (a : Arguments) (name : String) : List String :=
  (a.options.filter (·.1 == name)).map (·.2)

def has (a : Arguments) (name : String) : Bool :=
  !(a.values name).isEmpty

def value? (a : Arguments) (name : String) : Option String :=
  (a.values name).head?

/-- No option that is not repeatable occurs twice. -/
def respects (switches : List Switch) (a : Arguments) : Bool :=
  switches.all fun s => s.repeatable || (a.values s.long).length ≤ 1

end Arguments

/-- Whether an argument can be the value of an option before it. -/
def isValue (argument : String) : Bool :=
  match argument.toList with
  | '-' :: _ :: _ => false
  | _ => true

/-- The options combined in an argument, after its hyphen. The last one may be left to take its
value from the next argument; it is returned apart. -/
def combined? (switches : List Switch) :
    List Char → Option (List (String × String) × Option String)
  | [] => some ([], none)
  | c :: cs => do
    let s ← switches.find? (·.short == some c)
    if !s.takesValue then
      let (options, open?) ← combined? switches cs
      some ((s.long, "") :: options, open?)
    else match cs with
      | [] => some ([], some s.long)
      | '=' :: value => some ([(s.long, String.ofList value)], none)
      | value => some ([(s.long, String.ofList value)], none)

/-- The option of a long argument, after its two hyphens: complete, or left to take its value from
the next argument. -/
def long? (switches : List Switch) (cs : List Char) :
    Option (List (String × String) × Option String) := do
  let name := String.ofList (cs.takeWhile (· != '='))
  let s ← switches.find? (·.long == name)
  match cs.dropWhile (· != '='), s.takesValue with
  | '=' :: value, true => some ([(name, String.ofList value)], none)
  | [], true => some ([], some name)
  | [], false => some ([(name, "")], none)
  | _, _ => none

/-- The options in one argument, if it has the form of an option. -/
def options? (switches : List Switch) (argument : String) :
    Option (Option (List (String × String) × Option String)) :=
  match argument.toList with
  | '-' :: '-' :: cs => some (long? switches cs)
  | '-' :: c :: cs => some (combined? switches (c :: cs))
  | _ => none

/-- The options and operands of a list of arguments, if every option is known and has a value
exactly when it takes one. -/
def arguments? (switches : List Switch) : List String → Option Arguments
  | [] => some .empty
  | "--" :: rest => some ⟨[], rest⟩
  | argument :: rest =>
    match options? switches argument with
    | none => (arguments? switches rest).map (.addOperand argument)
    | some none => none
    | some (some (options, none)) =>
      (arguments? switches rest).map fun a => { a with options := options ++ a.options }
    | some (some (options, some name)) =>
      match rest with
      | [] => none
      | value :: rest =>
        if isValue value then
          (arguments? switches rest).map fun a =>
            { a with options := options ++ (name, value) :: a.options }
        else none

end CellFormula.Command
