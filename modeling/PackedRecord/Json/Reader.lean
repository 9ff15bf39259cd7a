import PackedRecord.Json.Lexer

/-!
# Reading JSON

Tokens become a value by way of the arrays and objects that are still open.
After a value the innermost of them goes on with a comma or closes; when none is
open the text has to end.  An object with a name that denotes no text is read to
its end, and its members are lost.
-/

namespace PackedRecord.Json

/-- An array or object that is still open.  What it holds is collected last
first. -/
inductive Open
  /-- An array with the items before the current one. -/
  | array (items : List Json)
  /-- An object with the members before the current one, and its name. -/
  | object (members : List (String × Json)) (name : String)
  /-- An object with a name that denotes no text. -/
  | unpaired

mutual

/-- Reads the tokens from the start of a value on. -/
def readValue (around : List Open) : List Token → Option Json
  | .null :: rest => readEnd around .null rest
  | .bool value :: rest => readEnd around (.bool value) rest
  | .number value :: rest => readEnd around (.number value) rest
  | .string value :: rest => readEnd around (.string value) rest
  | .unpaired :: rest => readEnd around .unpaired rest
  | .openArray :: .closeArray :: rest => readEnd around (.array []) rest
  | .openArray :: rest => readValue (.array [] :: around) rest
  | .openObject :: .closeObject :: rest => readEnd around (.object []) rest
  | .openObject :: .string name :: .colon :: rest =>
      readValue (.object [] name :: around) rest
  | .openObject :: .unpaired :: .colon :: rest =>
      readValue (.unpaired :: around) rest
  | _ => none

/-- Reads the tokens behind a value. -/
def readEnd (around : List Open) (value : Json) : List Token → Option Json
  | [] =>
      match around with
      | [] => some value
      | _ => none
  | .comma :: .string name :: .colon :: rest =>
      match around with
      | .object members current :: outer =>
          readValue (.object ((current, value) :: members) name :: outer) rest
      | .unpaired :: outer => readValue (.unpaired :: outer) rest
      | _ => none
  | .comma :: .unpaired :: .colon :: rest =>
      match around with
      | .object _ _ :: outer => readValue (.unpaired :: outer) rest
      | .unpaired :: outer => readValue (.unpaired :: outer) rest
      | _ => none
  | .comma :: rest =>
      match around with
      | .array items :: outer =>
          readValue (.array (value :: items) :: outer) rest
      | _ => none
  | .closeArray :: rest =>
      match around with
      | .array items :: outer =>
          readEnd outer (.array (value :: items).reverse) rest
      | _ => none
  | .closeObject :: rest =>
      match around with
      | .object members current :: outer =>
          readEnd outer (.object ((current, value) :: members).reverse) rest
      | .unpaired :: outer => readEnd outer .unpaired rest
      | _ => none
  | _ => none

end

def ofText? (text : String) : Option Json := do
  readValue [] (← tokens? text)

end PackedRecord.Json
