import PackedRecord.Text.Blank
import PackedRecord.Text.Numeral

/-!
# References to field types

A field declares its type as a scalar, as the name of an enum or composite, or
as an array.  The text of a type is read without ever failing: whatever is
neither a scalar's name nor a well-formed array is the name of a declared type.
-/

namespace PackedRecord

open Text

inductive Primitive
  | u8 | i8 | u16 | i16 | u32 | i32 | u64 | i64 | u128 | i128
  | usize | isize | f32 | f64 | bool | char | str
  deriving DecidableEq, Repr

namespace Primitive

/-- Every scalar type, in the order of declaration. -/
def all : List Primitive :=
  [u8, i8, u16, i16, u32, i32, u64, i64, u128, i128, usize, isize, f32, f64,
    bool, char, str]

def name : Primitive → String
  | u8 => "u8"
  | i8 => "i8"
  | u16 => "u16"
  | i16 => "i16"
  | u32 => "u32"
  | i32 => "i32"
  | u64 => "u64"
  | i64 => "i64"
  | u128 => "u128"
  | i128 => "i128"
  | usize => "usize"
  | isize => "isize"
  | f32 => "f32"
  | f64 => "f64"
  | bool => "bool"
  | char => "char"
  | str => "str"

def ofName? (name : String) : Option Primitive :=
  all.find? fun primitive => primitive.name == name

@[simp]
theorem mem_all (primitive : Primitive) : primitive ∈ all := by
  cases primitive <;> decide

/-- A scalar type is found under its own name. -/
@[simp]
theorem ofName?_name (primitive : Primitive) :
    ofName? primitive.name = some primitive := by
  cases primitive <;> decide

theorem name_of_ofName?
    {text : String} {primitive : Primitive}
    (found : ofName? text = some primitive) :
    primitive.name = text := by
  have matching := List.find?_some found
  simpa using matching

end Primitive

/-- A declared field type. -/
inductive TypeRef
  | primitive (scalar : Primitive)
  | named (name : String)
  | array (element : TypeRef) (length : Nat)
  deriving DecidableEq, Repr

namespace TypeRef

def text : TypeRef → String
  | primitive scalar => scalar.name
  | named name => name
  | array element length => "[" ++ element.text ++ "; " ++ decimal length ++ "]"

/-- What stands between an opening square bracket at the start and a closing one
at the end. -/
def bracketed? : List Char → Option (List Char)
  | '[' :: rest =>
      if rest.getLast? = some ']' then some rest.dropLast else none
  | _ => none

/-- The parts before and after the last occurrence of a separator. -/
def splitLast? (separator : Char) : List Char → Option (List Char × List Char)
  | [] => none
  | first :: rest =>
      match splitLast? separator rest with
      | some (before, after) => some (first :: before, after)
      | none => if first = separator then some ([], rest) else none

/-- The element text and the length of a well-formed array text: brackets around
a text whose last semicolon is followed by a word numeral. -/
def arrayParts? (text : List Char) : Option (List Char × Nat) := do
  let inner ← bracketed? text
  let (element, lengthText) ← splitLast? ';' inner
  let length ← word? (trim lengthText)
  return (element, length)

private theorem length_of_bracketed?
    {text inner : List Char} (found : bracketed? text = some inner) :
    inner.length < text.length := by
  unfold bracketed? at found
  split at found
  · next rest =>
      split at found
      · simp only [Option.some.injEq] at found
        subst found
        simp only [List.length_dropLast, List.length_cons]
        omega
      · cases found
  · cases found

/-- Splitting loses exactly the separator. -/
theorem eq_append_of_splitLast?
    {separator : Char} {text before after : List Char}
    (found : splitLast? separator text = some (before, after)) :
    text = before ++ separator :: after := by
  induction text generalizing before after with
  | nil => cases found
  | cons first rest inductionHypothesis =>
      rw [splitLast?] at found
      split at found
      · next restBefore restAfter restFound =>
          simp only [Option.some.injEq, Prod.mk.injEq] at found
          obtain ⟨rfl, rfl⟩ := found
          simp [inductionHypothesis restFound]
      · split at found
        · next equality =>
            simp only [Option.some.injEq, Prod.mk.injEq] at found
            obtain ⟨rfl, rfl⟩ := found
            simp [equality]
        · cases found

/-- The element of an array text is shorter than the array text. -/
theorem length_of_arrayParts?
    {text element : List Char} {length : Nat}
    (found : arrayParts? text = some (element, length)) :
    element.length < text.length := by
  simp only [arrayParts?, Option.bind_eq_bind, Option.bind_eq_some_iff,
    Option.pure_def, Option.some.injEq, Prod.exists, Prod.mk.injEq] at found
  obtain ⟨inner, innerFound, before, after, split, _, _, rfl, _⟩ := found
  have shorter := length_of_bracketed? innerFound
  rw [eq_append_of_splitLast? split] at shorter
  simp only [List.length_append, List.length_cons] at shorter
  omega

/-- The type that a text denotes.  The text is trimmed at every level. -/
def ofChars (text : List Char) : TypeRef :=
  match found : arrayParts? (trim text) with
  | some (element, length) =>
      have _shorter : element.length < text.length :=
        Nat.lt_of_lt_of_le (length_of_arrayParts? found) (length_trim_le text)
      array (ofChars element) length
  | none =>
      match Primitive.ofName? (String.ofList (trim text)) with
      | some scalar => primitive scalar
      | none => named (String.ofList (trim text))
termination_by text.length

def parse (text : String) : TypeRef :=
  ofChars text.toList

end TypeRef

end PackedRecord
