import CellFormula.Json.Numeral
import CellFormula.Text.Blank

/-!
# Reading JSON

The reader follows the grammar strictly: no comma after a last item, no control character in a
string, no half of a surrogate pair, and a bound on how deep arrays and objects nest. Reading the
items of an array and the members of an object takes the reader of one item or member as an
argument, so that a document can be decoded while it is read. The loops are bounded by `fuel`, which
exceeds the length of the whole text and so is never used up.
-/

namespace CellFormula.Json

variable {ε : Type}

def hexValue? (c : Char) : Option Nat :=
  if c.isDigit then some (c.toNat - 48)
  else if 'a' ≤ c ∧ c ≤ 'f' then some (c.toNat - 87)
  else if 'A' ≤ c ∧ c ≤ 'F' then some (c.toNat - 55)
  else none

/-- Reads the four digits of a UTF-16 unit. -/
def readUnit : Reader ε Nat := fun cs =>
  if Text.byteLength (cs.take 4) < 4 then .error .endOfText
  else match (cs.take 4).mapM hexValue? with
    | some ds => .ok (ds.foldl (fun n d => 16 * n + d) 0, cs.drop 4)
    | none => .error .malformed

/-- Reads a character given by one unit or by a surrogate pair, after its first escape mark. -/
def readEscapedUnit : Reader ε Char := fun cs => do
  let (n, cs) ← readUnit cs
  if 0xDC00 ≤ n ∧ n ≤ 0xDFFF then .error .malformed
  else if n < 0xD800 ∨ 0xDBFF < n then .ok (Char.ofNat n, cs)
  else
    let ((), cs) ← readWord "\\u".toList cs
    let (m, cs) ← readUnit cs
    if m < 0xDC00 ∨ 0xDFFF < m then .error .malformed
    else .ok (Char.ofNat (0x10000 + 0x400 * (n - 0xD800) + (m - 0xDC00)), cs)

/-- Reads what follows a backslash in a string. -/
def readEscape : Reader ε Char
  | [] => .error .endOfText
  | '"' :: cs => .ok ('"', cs)
  | '\\' :: cs => .ok ('\\', cs)
  | '/' :: cs => .ok ('/', cs)
  | 'b' :: cs => .ok (Char.ofNat 0x8, cs)
  | 'f' :: cs => .ok (Char.ofNat 0xC, cs)
  | 'n' :: cs => .ok ('\n', cs)
  | 'r' :: cs => .ok ('\r', cs)
  | 't' :: cs => .ok ('\t', cs)
  | 'u' :: cs => readEscapedUnit cs
  | _ => .error .malformed

def readChars : Nat → Reader ε (List Char)
  | 0, _ => .error .malformed
  | _ + 1, [] => .error .endOfText
  | fuel + 1, c :: cs =>
    if c = '"' then .ok ([], cs)
    else if c = '\\' then do
      let (d, cs) ← readEscape cs
      let (ds, cs) ← readChars fuel cs
      .ok (d :: ds, cs)
    else if c.toNat < 0x20 then .error .malformed
    else do
      let (ds, cs) ← readChars fuel cs
      .ok (c :: ds, cs)

/-- Reads a string after its opening quote. -/
def readString (fuel : Nat) : Reader ε String := fun cs =>
  (readChars fuel cs).map fun (ds, cs) => (String.ofList ds, cs)

def readMoreItems {α : Type} (item : Reader ε α) : Nat → Reader ε (List α)
  | 0, _ => .error .malformed
  | fuel + 1, cs =>
    match skipBlanks cs with
    | [] => .error .endOfText
    | ']' :: cs => .ok ([], cs)
    | ',' :: cs => do
      let (a, cs) ← item cs
      let (as, cs) ← readMoreItems item fuel cs
      .ok (a :: as, cs)
    | _ => .error .malformed

/-- Reads the items of an array after its opening bracket. -/
def readItems {α : Type} (fuel : Nat) (item : Reader ε α) : Reader ε (List α) := fun cs =>
  match skipBlanks cs with
  | [] => .error .endOfText
  | ']' :: cs => .ok ([], cs)
  | cs => do
    let (a, cs) ← item cs
    let (as, cs) ← readMoreItems item fuel cs
    .ok (a :: as, cs)

/-- Reads the name of a member. -/
def readName (fuel : Nat) : Reader ε String := fun cs =>
  match skipBlanks cs with
  | [] => .error .endOfText
  | '"' :: cs => readString fuel cs
  | _ => .error .malformed

/-- Reads the colon after the name of a member, and then its value. -/
def afterColon {α : Type} (value : Reader ε α) : Reader ε α := fun cs =>
  match skipBlanks cs with
  | [] => .error .endOfText
  | ':' :: cs => value cs
  | _ => .error .malformed

/-- Takes a member into what has been gathered from those before it. It reads on from the name, so
that a name can be refused before its value is looked at. -/
abbrev MemberReader (ε σ : Type) :=
  σ → String → Reader ε σ

def readMoreMembers {σ : Type} (fuel : Nat) (member : MemberReader ε σ) : Nat → σ → Reader ε σ
  | 0, _, _ => .error .malformed
  | left + 1, state, cs =>
    match skipBlanks cs with
    | [] => .error .endOfText
    | '\x7d' :: cs => .ok (state, cs)
    | ',' :: cs => do
      let (name, cs) ← readName fuel cs
      let (state, cs) ← member state name cs
      readMoreMembers fuel member left state cs
    | _ => .error .malformed

/-- Reads the members of an object after its opening brace. -/
def readMembers {σ : Type} (fuel : Nat) (member : MemberReader ε σ) (state : σ) : Reader ε σ :=
  fun cs =>
  match skipBlanks cs with
  | [] => .error .endOfText
  | '\x7d' :: cs => .ok (state, cs)
  | cs => do
    let (name, cs) ← readName fuel cs
    let (state, cs) ← member state name cs
    readMoreMembers fuel member fuel state cs

/-- Gathers members, the latest first. -/
def gather (value : Reader ε Json) : MemberReader ε (List (String × Json)) :=
  fun members name cs => (afterColon value cs).map fun (j, cs) => ((name, j) :: members, cs)

/-- Reads a value, its arrays and objects by the readers given for what follows their opening. -/
def readWith (fuel : Nat) (array object : Reader ε Json) : Reader ε Json := fun cs =>
  match skipBlanks cs with
  | [] => .error .endOfText
  | 'n' :: cs => (readWord "ull".toList cs).map fun (_, cs) => (.null, cs)
  | 't' :: cs => (readWord "rue".toList cs).map fun (_, cs) => (.bool true, cs)
  | 'f' :: cs => (readWord "alse".toList cs).map fun (_, cs) => (.bool false, cs)
  | '-' :: cs => (readUnsigned true cs).map fun (n, cs) => (.number n, cs)
  | '"' :: cs => (readString fuel cs).map fun (s, cs) => (.string s, cs)
  | '[' :: cs => array cs
  | '\x7b' :: cs => object cs
  | c :: cs =>
    if c.isDigit then (readUnsigned false (c :: cs)).map fun (n, cs) => (.number n, cs)
    else .error .malformed

/-- Reads a value in which at most `depth` arrays and objects nest. -/
def read (fuel : Nat) : Nat → Reader ε Json
  | 0 => readWith fuel (fun _ => .error .malformed) (fun _ => .error .malformed)
  | depth + 1 =>
    readWith fuel
      (fun cs => (readItems fuel (read fuel depth) cs).map fun (js, cs) => (.array js, cs))
      (fun cs => (readMembers fuel (gather (read fuel depth)) [] cs).map fun (members, cs) =>
        (.object members.reverse, cs))

/-- Reads a text to its end with a reader that is given its fuel. -/
def readAll {α : Type} (reader : Nat → Reader ε α) (text : String) : Except (ReadError ε) α := do
  let cs := text.toList
  let (a, rest) ← reader (cs.length + 1) cs
  if (skipBlanks rest).isEmpty then .ok a else .error .malformed

/-- How deep arrays and objects may nest in a document. -/
def depthLimit : Nat := 127

end CellFormula.Json
