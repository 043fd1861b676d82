import CellFormula.Command.Files
import CellFormula.Command.Run

/-!
# The command

Reads what an invocation needs, runs it, and prints. A usage error is told apart from a failure only
by its exit code.
-/

namespace CellFormula.Command

/-- The system's number for an error, which arrives as it is or negated. -/
def codeOf? : IO.Error → Option Nat
  | .noFileOrDirectory _ code _ => some (min code (-code)).toNat
  | .inappropriateType _ code _ => some (min code (-code)).toNat
  | .invalidArgument _ code _ => some (min code (-code)).toNat
  | _ => none

def reasonOf (e : IO.Error) : String :=
  match (codeOf? e).bind FileFault.ofCode? with
  | some fault => fault.message
  | none => toString e

def readSource (source : Source) : IO (Except String String) := do
  try
    match source with
    | .standardInput => return .ok (← (← IO.getStdin).readToEnd)
    | .file path => return .ok (← IO.FS.readFile path)
  catch e => return .error (reasonOf e)

def usageMessage : String :=
  "usage: hybrid-formula parse|generate|analyze|references [ARGUMENTS]"

def execute (arguments : List String) : IO UInt32 := do
  match Invocation.ofArguments? arguments with
  | none =>
    IO.eprintln usageMessage
    return usageErrorCode.toUInt32
  | some invocation =>
    let content ← match invocation.input? with
      | some source => readSource source
      | none => pure (.ok "")
    let outcome := invocation.run content
    IO.print outcome.output
    IO.eprint outcome.errors
    return outcome.code.toUInt32

end CellFormula.Command

def main (arguments : List String) : IO UInt32 :=
  CellFormula.Command.execute arguments
