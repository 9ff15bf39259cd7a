import PackedRecord.RecordCodec.Nested

/-!
# Catalogs

A catalog compiles records one after another.  Each record that compiles is
declared as a composite, so that later records can nest it; a record that does
not compile only leaves its error behind.
-/

namespace PackedRecord

/-- Compiled records with the types they were compiled against. -/
structure Catalog where
  registry : Registry
  codecs : List RecordCodec := []
  /-- The errors of the records that did not compile, in order. -/
  errors : List GenerateError := []

namespace Catalog

/-- The catalog after an attempt to compile one more record. -/
def add (catalog : Catalog) (schema : Schema) (options : GenerateOptions) :
    Catalog :=
  match RecordCodec.compile schema catalog.registry options with
  | .ok codec =>
      { catalog with
        registry :=
          catalog.registry.declare (.bound schema.name codec.toComposite)
        codecs := catalog.codecs ++ [codec] }
  | .error cause => { catalog with errors := catalog.errors ++ [cause] }

/-- Whether a record would compile against what the catalog holds. -/
def accepts (catalog : Catalog) (schema : Schema)
    (options : GenerateOptions) : Bool :=
  (RecordCodec.compile schema catalog.registry options).isOk

/-- Compiles records in order, starting from some declared types. -/
def compile (registry : Registry) (schemas : List Schema)
    (options : GenerateOptions) : Catalog :=
  schemas.foldl (fun catalog schema => catalog.add schema options)
    { registry }

/-- The first compiled record of a name. -/
def codec? (catalog : Catalog) (name : String) : Option RecordCodec :=
  catalog.codecs.find? fun codec => codec.name == name

def records (catalog : Catalog) : List String :=
  catalog.codecs.map RecordCodec.name

end Catalog

end PackedRecord
