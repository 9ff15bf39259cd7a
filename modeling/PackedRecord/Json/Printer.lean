import PackedRecord.Json.Basic

/-!
# JSON text

A JSON value is written without spaces.  In a string the quotation mark, the
backslash and the control characters are escaped, and nothing else.
-/

namespace PackedRecord.Json

def hexDigit (number : Nat) : Char :=
  Nat.digitChar number

def escaped (character : Char) : List Char :=
  if character = '"' then
    ['\\', '"']
  else if character = '\\' then
    ['\\', '\\']
  else if character = '\n' then
    ['\\', 'n']
  else if character = '\r' then
    ['\\', 'r']
  else if character = '\t' then
    ['\\', 't']
  else if character.toNat < 0x20 then
    ['\\', 'u', '0', '0', hexDigit (character.toNat / 16),
      hexDigit (character.toNat % 16)]
  else
    [character]

def quoted (content : String) : String :=
  "\"" ++ String.ofList (content.toList.flatMap escaped) ++ "\""

mutual

def compact : Json → String
  | null => "null"
  | bool true => "true"
  | bool false => "false"
  | number value => value.text
  | string value => quoted value
  | array items => "[" ++ ",".intercalate (compactItems items) ++ "]"
  | object members =>
      "\x7b" ++ ",".intercalate (compactMembers members) ++ "\x7d"
  | unpaired => "\"\\ud800\""

def compactItems : List Json → List String
  | [] => []
  | item :: rest => item.compact :: compactItems rest

def compactMembers : List (String × Json) → List String
  | [] => []
  | (name, value) :: rest =>
      (quoted name ++ ":" ++ value.compact) :: compactMembers rest

end

end PackedRecord.Json
