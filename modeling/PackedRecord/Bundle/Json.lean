import PackedRecord.Bundle.Basic
import PackedRecord.Json.Reader

/-!
# Bundles in JSON

A bundle is written with every key present.  It is read from objects with their
keys in any order, or from arrays that hold the values in the order of the keys.
Unknown keys are ignored; a known key may not stand twice, and its value has to
be of the right type.  Only lists, directives and options may be left out.
-/

namespace PackedRecord

namespace Json

/-- Whether a name stands more than once among some members. -/
def isRepeated (name : String) (members : List (String × Json)) : Bool :=
  2 ≤ members.countP fun member => member.1 == name

/-- The values of the given keys, as far as they are present: by name in an
object, by place in an array. -/
def entries? (keys : List String) : Json → Option (List (Option Json))
  | .object members =>
      if keys.any fun key => isRepeated key members then
        none
      else
        some (keys.map fun key => member? key members)
  | .array items =>
      if items.length ≤ keys.length then
        some
          (items.map some ++ List.replicate (keys.length - items.length) none)
      else
        none
  | _ => none

def string? : Json → Option String
  | .string value => some value
  | _ => none

def bool? : Json → Option Bool
  | .bool value => some value
  | _ => none

/-- The items that an array holds, each read in the same way. -/
def list? {item : Type} (read : Json → Option item) :
    Json → Option (List item)
  | .array items => items.mapM read
  | _ => none

def int64? : Json → Option Int64
  | .number (.integer value) =>
      if -2 ^ 63 ≤ value ∧ value < 2 ^ 63 then
        some (Int64.ofInt value)
      else
        none
  | _ => none

/-- A value that is read if it is present, and otherwise the default. -/
def orDefault {value : Type} (default : value) (read : Json → Option value) :
    Option Json → Option value
  | none => some default
  | some json => read json

end Json

namespace VariantDef

def toJson (variant : VariantDef) : Json :=
  .object
    [("name", .string variant.name), ("value", .int variant.value.toInt)]

def ofJson? (json : Json) : Option VariantDef := do
  match ← json.entries? ["name", "value"] with
  | [some name, some value] =>
      return { name := ← name.string?, value := ← value.int64? }
  | _ => none

end VariantDef

namespace EnumDef

def toJson (enum : EnumDef) : Json :=
  .object
    [("name", .string enum.name),
      ("repr", .string enum.representation),
      ("variants", .array (enum.variants.map VariantDef.toJson))]

def ofJson? (json : Json) : Option EnumDef := do
  match ← json.entries? ["name", "repr", "variants"] with
  | [some name, some representation, some variants] =>
      return {
        name := ← name.string?
        representation := ← representation.string?
        variants := ← variants.list? VariantDef.ofJson? }
  | _ => none

end EnumDef

namespace FieldDef

def toJson (field : FieldDef) : Json :=
  .object [("name", .string field.name), ("type", .string field.type)]

def ofJson? (json : Json) : Option FieldDef := do
  match ← json.entries? ["name", "type"] with
  | [some name, some type] =>
      return { name := ← name.string?, type := ← type.string? }
  | _ => none

end FieldDef

namespace RecordDef

def toJson (record : RecordDef) : Json :=
  .object
    [("name", .string record.name),
      ("little_endian", .bool record.littleEndian),
      ("big_endian", .bool record.bigEndian),
      ("fields", .array (record.fields.map FieldDef.toJson))]

/-- Reads a record.  The directives default to false. -/
def ofJson? (json : Json) : Option RecordDef := do
  match ← json.entries? ["name", "little_endian", "big_endian", "fields"] with
  | [some name, littleEndian, bigEndian, some fields] =>
      return {
        name := ← name.string?
        littleEndian := ← Json.orDefault false Json.bool? littleEndian
        bigEndian := ← Json.orDefault false Json.bool? bigEndian
        fields := ← fields.list? FieldDef.ofJson? }
  | _ => none

end RecordDef

namespace Naming

def toJson (naming : Naming) : Json :=
  .object
    [("decode", .string naming.decode), ("encode", .string naming.encode)]

/-- Reads base names.  Each has its default. -/
def ofJson? (json : Json) : Option Naming := do
  match ← json.entries? ["decode", "encode"] with
  | [decode, encode] =>
      let default : Naming := {}
      return {
        decode := ← Json.orDefault default.decode Json.string? decode
        encode := ← Json.orDefault default.encode Json.string? encode }
  | _ => none

end Naming

namespace GenerateOptions

def toJson (options : GenerateOptions) : Json :=
  .object [("naming", options.naming.toJson)]

/-- Reads options.  The naming has its default. -/
def ofJson? (json : Json) : Option GenerateOptions := do
  match ← json.entries? ["naming"] with
  | [naming] => return { naming := ← Json.orDefault {} Naming.ofJson? naming }
  | _ => none

end GenerateOptions

namespace Bundle

def toJson (bundle : Bundle) : Json :=
  .object
    [("enums", .array (bundle.enums.map EnumDef.toJson)),
      ("records", .array (bundle.records.map RecordDef.toJson)),
      ("options", bundle.options.toJson)]

/-- Reads a bundle.  Every part has its default. -/
def ofJson? (json : Json) : Option Bundle := do
  match ← json.entries? ["enums", "records", "options"] with
  | [enums, records, options] =>
      return {
        enums := ← Json.orDefault [] (Json.list? EnumDef.ofJson?) enums
        records := ← Json.orDefault [] (Json.list? RecordDef.ofJson?) records
        options := ← Json.orDefault {} GenerateOptions.ofJson? options }
  | _ => none

def ofText? (text : String) : Option Bundle := do
  Bundle.ofJson? (← Json.ofText? text)

end Bundle

end PackedRecord
