import PackedRecord.Text.Numeral

/-!
# Identifiers of rendered source

Field names become members and locals of rendered source.  A keyword is
written as a raw identifier.  A local is kept apart from the names that the body
of a procedure uses itself: the buffer, its tail, and the reported lengths.
-/

namespace PackedRecord.Source

open Text

/-- The words that are reserved unless written as raw identifiers. -/
def keywords : List String :=
  ["as", "async", "await", "break", "const", "continue", "dyn", "else", "enum",
    "extern", "false", "fn", "for", "if", "impl", "in", "let", "loop", "match",
    "mod", "move", "mut", "pub", "ref", "return", "static", "struct", "trait",
    "true", "type", "unsafe", "use", "where", "while", "abstract", "become",
    "box", "do", "final", "gen", "macro", "override", "priv", "try", "typeof",
    "unsized", "virtual", "yield"]

/-- The names that cannot be written even as raw identifiers. -/
def unusableNames : List String :=
  ["self", "Self", "super", "crate", "_"]

/-- Whether a name is an ASCII identifier: a letter or underscore, followed by
letters, digits and underscores. -/
def isIdentifier (name : String) : Bool :=
  match name.toList with
  | [] => false
  | first :: rest =>
      (first.isAlpha || first == '_') &&
        rest.all fun character => character.isAlphanum || character == '_'

/-- Whether a field can have this name. -/
def isFieldName (name : String) : Bool :=
  isIdentifier name && !unusableNames.contains name

def isLengthName (name : String) : Bool :=
  match name.toList with
  | 'l' :: 'e' :: 'n' :: '_' :: number => (digits? number).isSome
  | _ => false

/-- A field's name as a member of the record. -/
def memberName (name : String) : String :=
  if keywords.contains name then "r#" ++ name else name

def localName (name : String) : String :=
  if name = "buffer" ∨ name = "rest" ∨ isLengthName name then
    name ++ "_"
  else
    memberName name

end PackedRecord.Source
