import CellFormula.Number.Rounding

/-!
# JSON values

Numbers keep apart integers and what was written with a fraction or an exponent. Members of an
object keep their order, and a name may occur more than once.
-/

namespace CellFormula

inductive JsonNumber where
  | integer (value : Int)
  | real (value : Binary64)
  deriving DecidableEq

def JsonNumber.toBinary64 : JsonNumber → Binary64
  | .integer n => .ofInt n
  | .real x => x

inductive Json where
  | null
  | bool (value : Bool)
  | number (value : JsonNumber)
  | string (value : String)
  | array (items : List Json)
  | object (members : List (String × Json))
  deriving Inhabited

namespace Json

/-- Puts a member among those sorted by name, in place of one of the same name. -/
def insertMember (name : String) (value : Json) : List (String × Json) → List (String × Json)
  | [] => [(name, value)]
  | (k, v) :: rest =>
    if name = k then (k, value) :: rest
    else if name < k then (name, value) :: (k, v) :: rest
    else (k, v) :: insertMember name value rest

mutual

/-- The value with the members of every object sorted by name; of equal names the last counts. -/
def sorted : Json → Json
  | .array items => .array (sortedList items)
  | .object members => .object (sortedMembers [] members)
  | j => j

def sortedList : List Json → List Json
  | [] => []
  | j :: js => j.sorted :: sortedList js

def sortedMembers (done : List (String × Json)) : List (String × Json) → List (String × Json)
  | [] => done
  | (k, v) :: rest => sortedMembers (insertMember k v.sorted done) rest

end

end Json

end CellFormula
