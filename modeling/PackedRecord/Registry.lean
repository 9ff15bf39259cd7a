import PackedRecord.Composite
import PackedRecord.TypeRef

/-!
# Declared types

A registry says what the name of a type stands for: an enum, a composite known by
its contract alone, or a composite with its runtime behaviour.  A later
declaration of a name replaces an earlier one.
-/

namespace PackedRecord

/-- An enum without fields, stored as an integer.  Several names may share one
discriminant; the first declared wins. -/
structure EnumDecl where
  name : String
  representation : Primitive
  variants : List (String × Int)
  deriving DecidableEq, Repr

namespace EnumDecl

/-- The first variant with a discriminant. -/
def nameOf? (declaration : EnumDecl) (discriminant : Int) : Option String :=
  (declaration.variants.find? fun variant => variant.2 == discriminant).map
    Prod.fst

/-- The discriminant of the first variant with a name. -/
def valueOf? (declaration : EnumDecl) (name : String) : Option Int :=
  (declaration.variants.find? fun variant => variant.1 == name).map Prod.snd

end EnumDecl

/-- What a declared name stands for. -/
inductive TypeDecl
  | enum (declaration : EnumDecl)
  /-- A composite of which only the contract is known: enough to generate codecs,
  not to run them. -/
  | contractOnly (name : String) (contract : Contract)
  | bound (name : String) (composite : Composite)

namespace TypeDecl

def name : TypeDecl → String
  | enum declaration => declaration.name
  | contractOnly name _ => name
  | bound name _ => name

end TypeDecl

/-- The declared types, latest first. -/
structure Registry where
  declarations : List TypeDecl := []

namespace Registry

def empty : Registry :=
  {}

def declare (registry : Registry) (declaration : TypeDecl) : Registry :=
  { declarations := declaration :: registry.declarations }

/-- What a name stands for: its latest declaration. -/
def get? (registry : Registry) (name : String) : Option TypeDecl :=
  registry.declarations.find? fun declaration => declaration.name == name

def contains (registry : Registry) (name : String) : Bool :=
  (registry.get? name).isSome

@[simp]
theorem get?_empty (name : String) : empty.get? name = none :=
  rfl

/-- A declaration answers for its own name and for no other. -/
@[simp]
theorem get?_declare
    (registry : Registry) (declaration : TypeDecl) (name : String) :
    (registry.declare declaration).get? name =
      if declaration.name = name then
        some declaration
      else
        registry.get? name := by
  by_cases same : declaration.name = name <;>
    simp [declare, get?, same]

/-- What a registry answers is declared under the name asked for. -/
theorem name_of_get?
    {registry : Registry} {name : String} {declaration : TypeDecl}
    (found : registry.get? name = some declaration) :
    declaration.name = name := by
  have matching := List.find?_some found
  simpa using matching

end Registry

end PackedRecord
