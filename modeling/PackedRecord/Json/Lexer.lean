import PackedRecord.Json.Basic

/-!
# JSON tokens

A text is read character by character.  Between tokens only the four characters
of JSON white space are skipped.  A string may hold every character but an
unescaped control character.  Two escaped surrogates make one character; a string
with a surrogate outside a pair is read to its end, and denotes no text.  A word
or a number extends as far as its characters do, and is judged when it ends.
-/

namespace PackedRecord.Json

open Text

/-- The smallest pieces of a JSON text. -/
inductive Token
  | openArray
  | closeArray
  | openObject
  | closeObject
  | comma
  | colon
  | null
  | bool (value : Bool)
  | number (value : JsonNumber)
  | string (value : String)
  /-- A string with an unpaired surrogate. -/
  | unpaired
  deriving DecidableEq, Repr

/-- Where in a token the text stands.  Content is collected last character
first. -/
inductive Lexer.Mode
  | between
  | word (letters : List Char)
  | number (characters : List Char)
  | string (content : List Char)
  | escape (content : List Char)
  /-- In the digits of an escaped code unit: how many are missing, and the unit so
  far. -/
  | unit (content : List Char) (missing code : Nat)
  /-- Behind the first half of a surrogate pair. -/
  | pair (content : List Char) (high : Nat)
  /-- Behind the backslash that follows the first half of a pair. -/
  | pairEscape (content : List Char) (high : Nat)
  /-- In the digits of the second half of a pair. -/
  | pairUnit (content : List Char) (high missing code : Nat)
  /-- In a string with an unpaired surrogate. -/
  | broken
  | brokenEscape
  | brokenUnit (missing : Nat)

/-- A text that is being read. -/
structure Lexer where
  mode : Lexer.Mode := .between
  tokens : List Token := []

namespace Lexer

/-- The number that a sequence of digits denotes, with their count. -/
def digitsWithCount? (digits : List Char) : Option (Nat × Nat) :=
  (digits? digits).map fun number => (number, digits.length)

/-- The exponent after its mark: an optional sign and digits. -/
def exponent? : List Char → Option Int
  | '+' :: digits => (digits? digits).map Int.ofNat
  | '-' :: digits => (digits? digits).map fun number => -(number : Int)
  | digits => (digits? digits).map Int.ofNat

def isExponentMark (character : Char) : Bool :=
  character == 'e' || character == 'E'

/-- The number without its sign: digits without a needless leading zero, then
optionally a point with digits, then optionally an exponent. -/
def magnitude? (negative : Bool) (text : List Char) : Option JsonNumber := do
  let whole := text.takeWhile Char.isDigit
  let afterWhole := text.dropWhile Char.isDigit
  let wholeNumber ← digits? whole
  if whole.head? = some '0' ∧ whole.length ≠ 1 then
    none
  else
    match afterWhole with
    | [] =>
        if negative ∧ wholeNumber = 0 then
          return .decimal true 0 0
        else
          return .integer (if negative then -wholeNumber else wholeNumber)
    | '.' :: afterPoint =>
        let fraction := afterPoint.takeWhile Char.isDigit
        let (fractionNumber, count) ← digitsWithCount? fraction
        let significand := wholeNumber * 10 ^ count + fractionNumber
        match afterPoint.dropWhile Char.isDigit with
        | [] => return .decimal negative significand (-count)
        | mark :: exponentText =>
            if isExponentMark mark then
              let exponent ← exponent? exponentText
              return .decimal negative significand (exponent - count)
            else
              none
    | mark :: exponentText =>
        if isExponentMark mark then
          return .decimal negative wholeNumber (← exponent? exponentText)
        else
          none

def number? : List Char → Option JsonNumber
  | '-' :: text => magnitude? true text
  | text => magnitude? false text

def literal? (letters : List Char) : Option Token :=
  if letters = ['n', 'u', 'l', 'l'] then
    some .null
  else if letters = ['t', 'r', 'u', 'e'] then
    some (.bool true)
  else if letters = ['f', 'a', 'l', 's', 'e'] then
    some (.bool false)
  else
    none

def mark? : Char → Option Token
  | '[' => some .openArray
  | ']' => some .closeArray
  | '\x7b' => some .openObject
  | '\x7d' => some .closeObject
  | ',' => some .comma
  | ':' => some .colon
  | _ => none

/-- Whether a character may stand between tokens. -/
def isSpace (character : Char) : Bool :=
  character == ' ' || character == '\t' || character == '\n' || character == '\r'

def isNumberCharacter (character : Char) : Bool :=
  character.isDigit || isExponentMark character || character == '+' ||
    character == '-' || character == '.'

def hexDigit? (character : Char) : Option Nat :=
  if character.isDigit then
    some (character.toNat - '0'.toNat)
  else if 'a' ≤ character ∧ character ≤ 'f' then
    some (character.toNat - 'a'.toNat + 10)
  else if 'A' ≤ character ∧ character ≤ 'F' then
    some (character.toNat - 'A'.toNat + 10)
  else
    none

def escapedCharacter? : Char → Option Char
  | '"' => some '"'
  | '\\' => some '\\'
  | '/' => some '/'
  | 'b' => some '\x08'
  | 'f' => some '\x0c'
  | 'n' => some '\n'
  | 'r' => some '\r'
  | 't' => some '\t'
  | _ => none

def push (lexer : Lexer) (token : Token) : Lexer :=
  { mode := .between, tokens := token :: lexer.tokens }

/-- Reads a character between two tokens. -/
def start (lexer : Lexer) (character : Char) : Option Lexer :=
  if isSpace character then
    some lexer
  else if character = '"' then
    some { lexer with mode := .string [] }
  else if character = '-' ∨ character.isDigit then
    some { lexer with mode := .number [character] }
  else if character.isAlpha then
    some { lexer with mode := .word [character] }
  else
    (mark? character).map lexer.push

/-- Takes up an escaped code unit: a character, or half of a pair. -/
def acceptUnit (lexer : Lexer) (content : List Char) (code : Nat) : Lexer :=
  if 0xD800 ≤ code ∧ code < 0xDC00 then
    { lexer with mode := .pair content code }
  else if 0xDC00 ≤ code ∧ code < 0xE000 then
    { lexer with mode := .broken }
  else
    { lexer with mode := .string (Char.ofNat code :: content) }

/-- Takes up the code unit behind the first half of a pair. -/
def acceptPair (lexer : Lexer) (content : List Char) (high low : Nat) : Lexer :=
  if 0xDC00 ≤ low ∧ low < 0xE000 then
    let code := 0x10000 + (high - 0xD800) * 0x400 + (low - 0xDC00)
    { lexer with mode := .string (Char.ofNat code :: content) }
  else
    { lexer with mode := .broken }

/-- Reads a character of a string with an unpaired surrogate. -/
def stepBroken (lexer : Lexer) (character : Char) : Option Lexer :=
  if character = '"' then
    some (lexer.push .unpaired)
  else if character = '\\' then
    some { lexer with mode := .brokenEscape }
  else if character.toNat < 0x20 then
    none
  else
    some { lexer with mode := .broken }

def step (lexer : Lexer) (character : Char) : Option Lexer :=
  match lexer.mode with
  | .between => lexer.start character
  | .word letters =>
      if character.isAlpha then
        some { lexer with mode := .word (character :: letters) }
      else do
        (lexer.push (← literal? letters.reverse)).start character
  | .number characters =>
      if isNumberCharacter character then
        some { lexer with mode := .number (character :: characters) }
      else do
        (lexer.push (.number (← number? characters.reverse))).start character
  | .string content =>
      if character = '"' then
        some (lexer.push (.string (String.ofList content.reverse)))
      else if character = '\\' then
        some { lexer with mode := .escape content }
      else if character.toNat < 0x20 then
        none
      else
        some { lexer with mode := .string (character :: content) }
  | .escape content =>
      if character = 'u' then
        some { lexer with mode := .unit content 4 0 }
      else do
        let denoted ← escapedCharacter? character
        return { lexer with mode := .string (denoted :: content) }
  | .unit content missing code => do
      let next := 16 * code + (← hexDigit? character)
      if missing ≤ 1 then
        return lexer.acceptUnit content next
      else
        return { lexer with mode := .unit content (missing - 1) next }
  | .pair content high =>
      if character = '\\' then
        some { lexer with mode := .pairEscape content high }
      else
        lexer.stepBroken character
  | .pairEscape content high =>
      if character = 'u' then
        some { lexer with mode := .pairUnit content high 4 0 }
      else do
        let _ ← escapedCharacter? character
        return { lexer with mode := .broken }
  | .pairUnit content high missing code => do
      let next := 16 * code + (← hexDigit? character)
      if missing ≤ 1 then
        return lexer.acceptPair content high next
      else
        return { lexer with mode := .pairUnit content high (missing - 1) next }
  | .broken => lexer.stepBroken character
  | .brokenEscape =>
      if character = 'u' then
        some { lexer with mode := .brokenUnit 4 }
      else do
        let _ ← escapedCharacter? character
        return { lexer with mode := .broken }
  | .brokenUnit missing => do
      let _ ← hexDigit? character
      if missing ≤ 1 then
        return { lexer with mode := .broken }
      else
        return { lexer with mode := .brokenUnit (missing - 1) }

def finish? (lexer : Lexer) : Option (List Token) :=
  match lexer.mode with
  | .between => some lexer.tokens.reverse
  | .word letters => do
      return (lexer.push (← literal? letters.reverse)).tokens.reverse
  | .number characters => do
      return (lexer.push (.number (← number? characters.reverse))).tokens.reverse
  | _ => none

end Lexer

def tokens? (text : String) : Option (List Token) := do
  let lexer ← text.toList.foldlM Lexer.step {}
  lexer.finish?

end PackedRecord.Json
