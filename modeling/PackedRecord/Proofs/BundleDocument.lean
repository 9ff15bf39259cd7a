import Mathlib.Data.List.Nodup
import PackedRecord.Bundle.Json
import PackedRecord.Proofs.Compilation

/-!
# Bundles kept as documents

A bundle that is written to JSON is read back as it was.  It also survives what others do
to the document: entries that hold their default may be left out, entries of unknown keys
may be added, and the entries of an object may stand in any order.  Leaving out any other
entry is noticed: no bundle is read, or another one.

A document says which of its entries may be left out.  What becomes of it is a relation
between the document and JSON, and each reader is shown to see no more of that relation
than whether something was lost.
-/

namespace PackedRecord

/-! ## Documents -/

/-- What is written in JSON, with a mark at each entry of an object that may be left
out. -/
inductive Document
  | leaf (value : Json)
  | list (items : List Document)
  /-- The entries of an object: the key, whether it may be left out, and the value. -/
  | fields (entries : List (String × Bool × Document))

namespace Document

def keys (entries : List (String × Bool × Document)) : List String :=
  entries.map Prod.fst

mutual

/-- The document as JSON, with every entry present. -/
def json : Document → Json
  | leaf value => value
  | list items => .array (jsonItems items)
  | fields entries => .object (jsonMembers entries)

def jsonItems : List Document → List Json
  | [] => []
  | item :: rest => item.json :: jsonItems rest

def jsonMembers :
    List (String × Bool × Document) → List (String × Json)
  | [] => []
  | (key, _, value) :: rest => (key, value.json) :: jsonMembers rest

end

mutual

/-- The JSON is the document after entries were left out and entries of unknown keys
added at any depth.  It is whole if each entry that is gone could be left out. -/
inductive Edited : Document → Bool → Json → Prop
  | leaf (value : Json) : Edited (.leaf value) true value
  | list {items : List Document} {whole : Bool} {values : List Json}
      (each : EditedItems items whole values) :
      Edited (.list items) whole (.array values)
  | fields {entries : List (String × Bool × Document)} {whole : Bool}
      {kept members : List (String × Json)} (unknown : List (String × Json))
      (each : EditedEntries entries whole kept)
      (strange : ∀ member ∈ unknown, member.1 ∉ keys entries)
      (order : members.Perm (kept ++ unknown)) :
      Edited (.fields entries) whole (.object members)

inductive EditedItems : List Document → Bool → List Json → Prop
  | nil : EditedItems [] true []
  | cons {item : Document} {rest : List Document} {whole restWhole : Bool}
      {value : Json} {values : List Json}
      (first : Edited item whole value)
      (behind : EditedItems rest restWhole values) :
      EditedItems (item :: rest) (whole && restWhole) (value :: values)

/-- The members are what is left of the entries after such changes. -/
inductive EditedEntries :
    List (String × Bool × Document) → Bool → List (String × Json) → Prop
  | nil : EditedEntries [] true []
  | keep {key : String} {omissible : Bool} {document : Document}
      {rest : List (String × Bool × Document)} {whole restWhole : Bool}
      {value : Json} {members : List (String × Json)}
      (first : Edited document whole value)
      (behind : EditedEntries rest restWhole members) :
      EditedEntries ((key, omissible, document) :: rest) (whole && restWhole)
        ((key, value) :: members)
  | remove {key : String} {omissible : Bool} {document : Document}
      {rest : List (String × Bool × Document)} {restWhole : Bool}
      {members : List (String × Json)}
      (behind : EditedEntries rest restWhole members) :
      EditedEntries ((key, omissible, document) :: rest)
        (omissible && restWhole) members

end

/-- However the document is edited, the reader finds the value in it exactly if it is
whole. -/
def ReadAs {value : Type} (document : Document) (read : Json → Option value)
    (expected : value) : Prop :=
  ∀ whole json,
    document.Edited whole json → (read json = some expected ↔ whole = true)

end Document

/-! ## The documents of bundles -/

def VariantDef.document (variant : VariantDef) : Document :=
  .fields
    [("name", false, .leaf (.string variant.name)),
      ("value", false, .leaf (.int variant.value.toInt))]

def EnumDef.document (enum : EnumDef) : Document :=
  .fields
    [("name", false, .leaf (.string enum.name)),
      ("repr", false, .leaf (.string enum.representation)),
      ("variants", false, .list (enum.variants.map VariantDef.document))]

def FieldDef.document (field : FieldDef) : Document :=
  .fields
    [("name", false, .leaf (.string field.name)),
      ("type", false, .leaf (.string field.type))]

/-- The document of a record.  A directive that is false may be left out. -/
def RecordDef.document (record : RecordDef) : Document :=
  .fields
    [("name", false, .leaf (.string record.name)),
      ("little_endian", !record.littleEndian, .leaf (.bool record.littleEndian)),
      ("big_endian", !record.bigEndian, .leaf (.bool record.bigEndian)),
      ("fields", false, .list (record.fields.map FieldDef.document))]

/-- The document of base names.  Each may be left out if it is the default. -/
def Naming.document (naming : Naming) : Document :=
  .fields
    [("decode", naming.decode == "decode", .leaf (.string naming.decode)),
      ("encode", naming.encode == "encode", .leaf (.string naming.encode))]

/-- The document of options.  The default naming may be left out. -/
def GenerateOptions.document (options : GenerateOptions) : Document :=
  .fields [("naming", options.naming == {}, options.naming.document)]

/-- The document of a bundle.  A list may be left out if it is empty, and so may the
default options. -/
def Bundle.document (bundle : Bundle) : Document :=
  .fields
    [("enums", bundle.enums.isEmpty,
        .list (bundle.enums.map EnumDef.document)),
      ("records", bundle.records.isEmpty,
        .list (bundle.records.map RecordDef.document)),
      ("options", bundle.options == {}, bundle.options.document)]

/-! ## Members of objects -/

namespace Json

variable (key : String)

private theorem isRepeated_eq_filter (members : List (String × Json)) :
    isRepeated key members =
      decide (2 ≤ (members.filter fun member => member.1 == key).length) := by
  rw [isRepeated, List.countP_eq_length_filter]

private theorem member?_eq_filter (members : List (String × Json)) :
    member? key members =
      (members.filter fun member => member.1 == key).head?.map Prod.snd := by
  induction members with
  | nil => rfl
  | cons first rest inductionHypothesis =>
      rw [member?, inductionHypothesis, List.filter_cons]
      by_cases here : first.1 = key
      · simp [here]
      · simp [here]

private theorem member?_eq_none
    {members : List (String × Json)} (absent : key ∉ members.map Prod.fst) :
    member? key members = none := by
  induction members with
  | nil => rfl
  | cons first rest inductionHypothesis =>
      simp only [List.map_cons, List.mem_cons, not_or] at absent
      rw [member?, if_neg (Ne.symm absent.1), inductionHypothesis absent.2]

private theorem length_filter_le_one
    {members : List (String × Json)}
    (distinct : (members.map Prod.fst).Nodup) :
    (members.filter fun member => member.1 == key).length ≤ 1 := by
  have once := List.nodup_iff_count_le_one.mp distinct key
  rwa [List.count_eq_countP, List.countP_map, List.countP_eq_length_filter] at once

/-- Members of other keys do not matter, nor does the order, as long as no key stands
twice. -/
private theorem filter_key_of_perm
    {members kept unknown : List (String × Json)}
    (order : members.Perm (kept ++ unknown))
    (distinct : (kept.map Prod.fst).Nodup)
    (strange : ∀ member ∈ unknown, member.1 ≠ key) :
    (members.filter fun member => member.1 == key) =
      kept.filter fun member => member.1 == key := by
  have others : (unknown.filter fun member => member.1 == key) = [] := by
    simpa using strange
  have permuted := order.filter fun member => member.1 == key
  rw [List.filter_append, others, List.append_nil] at permuted
  have atMostOne := length_filter_le_one key distinct
  generalize (kept.filter fun member => member.1 == key) = left at *
  match left with
  | [] => exact permuted.eq_nil
  | [_] => exact List.perm_singleton.mp permuted
  | _ :: _ :: _ => simp at atMostOne

end Json

/-! ## What an edited document still holds -/

namespace Document

/-- What is left of an entry: its value, edited, or nothing if it was left out. -/
def Left (entry : String × Bool × Document) (whole : Bool) :
    Option Json → Prop
  | none => whole = entry.2.1
  | some value => entry.2.2.Edited whole value

section Left

variable {entry : String × Bool × Document} {whole : Bool}
  {present : Option Json} {value : Type} {read : Json → Option value}
  {expected : value}

/-- An entry that has to be present is read if it is there and whole. -/
theorem Left.bind_iff
    (left : Left entry whole present) (required : entry.2.1 = false)
    (readAs : entry.2.2.ReadAs read expected) :
    present.bind read = some expected ↔ whole = true := by
  cases present with
  | none =>
      have lost : whole = false := left.trans required
      simp [lost]
  | some json => exact readAs whole json left

/-- An entry with a default is read if it is whole, or if it is gone and held the
default. -/
theorem Left.orDefault_iff
    {default : value} (left : Left entry whole present)
    (omissible : entry.2.1 = true ↔ default = expected)
    (readAs : entry.2.2.ReadAs read expected) :
    Json.orDefault default read present = some expected ↔ whole = true := by
  cases present with
  | none =>
      have gone : whole = entry.2.1 := left
      rw [gone, omissible, Json.orDefault, Option.some.injEq]
  | some json => exact readAs whole json left

end Left

private theorem keys_sublist_of_edited
    {entries : List (String × Bool × Document)} {whole : Bool}
    {kept : List (String × Json)} (edited : EditedEntries entries whole kept) :
    (kept.map Prod.fst).Sublist (keys entries) := by
  induction entries generalizing whole kept with
  | nil =>
      cases edited
      exact List.Sublist.refl []
  | cons entry rest inductionHypothesis =>
      cases edited with
      | keep _ behind => exact (inductionHypothesis behind).cons_cons _
      | remove behind => exact (inductionHypothesis behind).cons _

/-- Where each key finds what is left under it, every entry is found, and all together
are whole if each one is. -/
private theorem exists_left_of_edited
    {entries : List (String × Bool × Document)} {whole : Bool}
    {kept : List (String × Json)} (members : List (String × Json))
    (edited : EditedEntries entries whole kept) (distinct : (keys entries).Nodup)
    (found :
      ∀ key ∈ keys entries, Json.member? key members = Json.member? key kept) :
    ∃ wholes,
      List.Forall₂
          (fun entry each => Left entry each (Json.member? entry.1 members))
          entries wholes ∧
        whole = wholes.all id := by
  induction entries generalizing whole kept with
  | nil =>
      cases edited
      exact ⟨[], .nil, rfl⟩
  | cons entry rest inductionHypothesis =>
      obtain ⟨alone, restDistinct⟩ := List.nodup_cons.mp distinct
      obtain ⟨here, further⟩ := List.forall_mem_cons.mp found
      cases edited with
      | keep first behind =>
          have same := inductionHypothesis behind restDistinct fun key member => by
            rw [further key member, Json.member?, if_neg]
            rintro rfl
            exact alone member
          obtain ⟨wholes, each, rfl⟩ := same
          refine ⟨_ :: wholes, .cons ?_ each, rfl⟩
          rw [here, Json.member?, if_pos rfl]
          exact first
      | remove behind =>
          obtain ⟨wholes, each, rfl⟩ :=
            inductionHypothesis behind restDistinct further
          refine ⟨_ :: wholes, .cons ?_ each, rfl⟩
          have gone := fun member =>
            alone ((keys_sublist_of_edited behind).subset member)
          rw [here, Json.member?_eq_none _ gone]
          rfl

/-- The object that a document became answers for every key with what is left under
it. -/
private theorem entries?_of_edited
    {entries : List (String × Bool × Document)} {whole : Bool} {json : Json}
    (edited : (fields entries).Edited whole json)
    (distinct : (keys entries).Nodup) :
    ∃ (present : String → Option Json) (wholes : List Bool),
      json.entries? (keys entries) = some ((keys entries).map present) ∧
        List.Forall₂ (fun entry each => Left entry each (present entry.1))
            entries wholes ∧
          whole = wholes.all id := by
  cases edited with
  | @fields _ _ kept members unknown each strange order =>
      have keptDistinct := (keys_sublist_of_edited each).nodup distinct
      have same : ∀ key ∈ keys entries,
          (members.filter fun member => member.1 == key) =
            kept.filter fun member => member.1 == key := by
        intro key known
        apply Json.filter_key_of_perm key order keptDistinct
        rintro member listed rfl
        exact strange member listed known
      have once :
          ((keys entries).any fun key => Json.isRepeated key members) = false := by
        rw [List.any_eq_false]
        intro key known
        have atMostOne := Json.length_filter_le_one key keptDistinct
        rw [Json.isRepeated_eq_filter, same key known]
        simpa using Nat.lt_succ_of_le atMostOne
      obtain ⟨wholes, left, rfl⟩ :=
        exists_left_of_edited members each distinct fun key known => by
          rw [Json.member?_eq_filter, same key known, ← Json.member?_eq_filter]
      refine ⟨fun key => Json.member? key members, wholes, ?_, left, rfl⟩
      rw [Json.entries?, once, if_neg Bool.false_ne_true]

/-! ## Reading leaves and lists -/

section ReadAs

variable {item : Type} {read : Json → Option item}

private theorem readAs_leaf {value : Json} {expected : item}
    (reads : read value = some expected) :
    (leaf value).ReadAs read expected := by
  intro whole json edited
  cases edited
  simp [reads]

private theorem readAs_list {document : item → Document} {items : List item}
    (each : ∀ one ∈ items, (document one).ReadAs read one) :
    (list (items.map document)).ReadAs (Json.list? read) items := by
  intro whole json edited
  cases edited with
  | @list _ _ values edited =>
      rw [Json.list?, mapM_eq_some_iff]
      induction items generalizing whole values with
      | nil =>
          cases edited
          simp
      | cons one rest inductionHypothesis =>
          obtain ⟨readsOne, readsRest⟩ := List.forall_mem_cons.mp each
          cases edited with
          | cons first behind =>
              rw [List.forall₂_cons, readsOne _ _ first,
                inductionHypothesis readsRest _ behind, Bool.and_eq_true]

end ReadAs

mutual

/-- A document is whole as long as nothing is done to it. -/
private theorem edited_json : ∀ document : Document, document.Edited true document.json
  | leaf value => .leaf value
  | list items => .list (editedItems_json items)
  | fields entries =>
      .fields [] (editedEntries_json entries) (List.forall_mem_nil _)
        (by rw [List.append_nil])

private theorem editedItems_json :
    ∀ items : List Document, EditedItems items true (jsonItems items)
  | [] => .nil
  | item :: rest => .cons (edited_json item) (editedItems_json rest)

private theorem editedEntries_json :
    ∀ entries : List (String × Bool × Document),
      EditedEntries entries true (jsonMembers entries)
  | [] => .nil
  | (_, _, value) :: rest => .keep (edited_json value) (editedEntries_json rest)

end

private theorem jsonItems_map {item : Type} {document : item → Document}
    {toJson : item → Json} (same : ∀ one, (document one).json = toJson one)
    (items : List item) :
    jsonItems (items.map document) = items.map toJson := by
  induction items with
  | nil => rfl
  | cons one rest inductionHypothesis =>
      rw [List.map_cons, jsonItems, same, inductionHypothesis, List.map_cons]

end Document

/-! ## Reading bundles -/

open Document

private theorem readAs_string (content : String) :
    (leaf (.string content)).ReadAs Json.string? content :=
  readAs_leaf rfl

private theorem readAs_bool (value : Bool) :
    (leaf (.bool value)).ReadAs Json.bool? value :=
  readAs_leaf rfl

private theorem readAs_int64 (value : Int64) :
    (leaf (.int value.toInt)).ReadAs Json.int64? value := by
  apply readAs_leaf
  rw [Json.int, Json.int64?, if_pos ⟨value.le_toInt, value.toInt_lt⟩,
    Int64.ofInt_toInt]

namespace VariantDef

variable (variant : VariantDef)

theorem json_document : variant.document.json = variant.toJson :=
  rfl

theorem ofJson?_eq_some_iff {json : Json} {name value : Option Json}
    (entries : json.entries? ["name", "value"] = some [name, value]) :
    ofJson? json = some variant ↔
      name.bind Json.string? = some variant.name ∧
        value.bind Json.int64? = some variant.value := by
  rw [ofJson?, entries]
  cases variant
  cases name <;> cases value <;> simp [Option.bind_eq_some_iff]

theorem readAs_document : variant.document.ReadAs ofJson? variant := by
  intro whole json edited
  obtain ⟨_, _, entries, left, rfl⟩ := entries?_of_edited edited (by simp [keys])
  obtain - | ⟨name, - | ⟨value, - | -⟩⟩ := left
  rw [variant.ofJson?_eq_some_iff entries]
  have readName := name.bind_iff rfl (readAs_string _)
  have readValue := value.bind_iff rfl (readAs_int64 _)
  simpa using and_congr readName readValue

end VariantDef

namespace EnumDef

variable (enum : EnumDef)

theorem json_document : enum.document.json = enum.toJson := by
  rw [document, toJson, json, jsonMembers, jsonMembers, jsonMembers, jsonMembers,
    json, json, json, jsonItems_map VariantDef.json_document]

theorem ofJson?_eq_some_iff {json : Json}
    {name representation variants : Option Json}
    (entries :
      json.entries? ["name", "repr", "variants"] =
        some [name, representation, variants]) :
    ofJson? json = some enum ↔
      name.bind Json.string? = some enum.name ∧
        representation.bind Json.string? = some enum.representation ∧
          variants.bind (Json.list? VariantDef.ofJson?) = some enum.variants := by
  rw [ofJson?, entries]
  cases enum
  cases name <;> cases representation <;> cases variants <;>
    simp [Option.bind_eq_some_iff]

theorem readAs_document : enum.document.ReadAs ofJson? enum := by
  intro whole json edited
  obtain ⟨_, _, entries, left, rfl⟩ := entries?_of_edited edited (by simp [keys])
  obtain - | ⟨name, - | ⟨representation, - | ⟨variants, - | -⟩⟩⟩ := left
  rw [enum.ofJson?_eq_some_iff entries]
  have readName := name.bind_iff rfl (readAs_string _)
  have readRepresentation := representation.bind_iff rfl (readAs_string _)
  have readVariants :=
    variants.bind_iff rfl
      (readAs_list fun variant _ => variant.readAs_document)
  simpa using and_congr readName (and_congr readRepresentation readVariants)

end EnumDef

namespace FieldDef

variable (field : FieldDef)

theorem json_document : field.document.json = field.toJson :=
  rfl

theorem ofJson?_eq_some_iff {json : Json} {name type : Option Json}
    (entries : json.entries? ["name", "type"] = some [name, type]) :
    ofJson? json = some field ↔
      name.bind Json.string? = some field.name ∧
        type.bind Json.string? = some field.type := by
  rw [ofJson?, entries]
  cases field
  cases name <;> cases type <;> simp [Option.bind_eq_some_iff]

theorem readAs_document : field.document.ReadAs ofJson? field := by
  intro whole json edited
  obtain ⟨_, _, entries, left, rfl⟩ := entries?_of_edited edited (by simp [keys])
  obtain - | ⟨name, - | ⟨type, - | -⟩⟩ := left
  rw [field.ofJson?_eq_some_iff entries]
  have readName := name.bind_iff rfl (readAs_string _)
  have readType := type.bind_iff rfl (readAs_string _)
  simpa using and_congr readName readType

end FieldDef

namespace RecordDef

variable (record : RecordDef)

theorem json_document : record.document.json = record.toJson := by
  simp [document, toJson, json, jsonMembers, jsonItems_map FieldDef.json_document]

theorem ofJson?_eq_some_iff {json : Json}
    {name littleEndian bigEndian fields : Option Json}
    (entries :
      json.entries? ["name", "little_endian", "big_endian", "fields"] =
        some [name, littleEndian, bigEndian, fields]) :
    ofJson? json = some record ↔
      name.bind Json.string? = some record.name ∧
        Json.orDefault false Json.bool? littleEndian = some record.littleEndian ∧
          Json.orDefault false Json.bool? bigEndian = some record.bigEndian ∧
            fields.bind (Json.list? FieldDef.ofJson?) = some record.fields := by
  rw [ofJson?, entries]
  cases record
  cases name <;> cases fields <;>
    simp [Option.bind_eq_some_iff, -Bool.exists_bool]

theorem readAs_document : record.document.ReadAs ofJson? record := by
  intro whole json edited
  obtain ⟨_, _, entries, left, rfl⟩ := entries?_of_edited edited (by simp [keys])
  obtain - | ⟨name, - | ⟨little, - | ⟨big, - | ⟨fields, - | -⟩⟩⟩⟩ := left
  rw [record.ofJson?_eq_some_iff entries]
  have readName := name.bind_iff rfl (readAs_string _)
  have unset : ∀ directive : Bool, (!directive) = true ↔ false = directive := by
    decide
  have readLittle := little.orDefault_iff (unset _) (readAs_bool _)
  have readBig := big.orDefault_iff (unset _) (readAs_bool _)
  have readFields :=
    fields.bind_iff rfl (readAs_list fun field _ => field.readAs_document)
  simpa using
    and_congr readName (and_congr readLittle (and_congr readBig readFields))

end RecordDef

namespace Naming

variable (naming : Naming)

theorem json_document : naming.document.json = naming.toJson :=
  rfl

theorem ofJson?_eq_some_iff {json : Json} {decode encode : Option Json}
    (entries : json.entries? ["decode", "encode"] = some [decode, encode]) :
    ofJson? json = some naming ↔
      Json.orDefault "decode" Json.string? decode = some naming.decode ∧
        Json.orDefault "encode" Json.string? encode = some naming.encode := by
  rw [ofJson?, entries]
  cases naming
  simp [Option.bind_eq_some_iff]

theorem readAs_document : naming.document.ReadAs ofJson? naming := by
  intro whole json edited
  obtain ⟨_, _, entries, left, rfl⟩ := entries?_of_edited edited (by simp [keys])
  obtain - | ⟨decode, - | ⟨encode, - | -⟩⟩ := left
  rw [naming.ofJson?_eq_some_iff entries]
  have readDecode :=
    decode.orDefault_iff (beq_iff_eq.trans eq_comm) (readAs_string _)
  have readEncode :=
    encode.orDefault_iff (beq_iff_eq.trans eq_comm) (readAs_string _)
  simpa using and_congr readDecode readEncode

end Naming

namespace GenerateOptions

variable (options : GenerateOptions)

theorem json_document : options.document.json = options.toJson :=
  rfl

theorem ofJson?_eq_some_iff {json : Json} {naming : Option Json}
    (entries : json.entries? ["naming"] = some [naming]) :
    ofJson? json = some options ↔
      Json.orDefault {} Naming.ofJson? naming = some options.naming := by
  rw [ofJson?, entries]
  cases options
  simp [Option.bind_eq_some_iff]

theorem readAs_document : options.document.ReadAs ofJson? options := by
  intro whole json edited
  obtain ⟨_, _, entries, left, rfl⟩ := entries?_of_edited edited (by simp [keys])
  obtain - | ⟨naming, - | -⟩ := left
  rw [options.ofJson?_eq_some_iff entries]
  have readNaming :=
    naming.orDefault_iff (beq_iff_eq.trans eq_comm) options.naming.readAs_document
  simpa using readNaming

end GenerateOptions

namespace Bundle

variable (bundle : Bundle)

theorem json_document : bundle.document.json = bundle.toJson := by
  simp [document, toJson, json, jsonMembers, jsonItems_map EnumDef.json_document,
    jsonItems_map RecordDef.json_document, GenerateOptions.json_document]

theorem ofJson?_eq_some_iff {json : Json} {enums records options : Option Json}
    (entries :
      json.entries? ["enums", "records", "options"] =
        some [enums, records, options]) :
    ofJson? json = some bundle ↔
      Json.orDefault [] (Json.list? EnumDef.ofJson?) enums = some bundle.enums ∧
        Json.orDefault [] (Json.list? RecordDef.ofJson?) records =
            some bundle.records ∧
          Json.orDefault {} GenerateOptions.ofJson? options =
            some bundle.options := by
  rw [ofJson?, entries]
  cases bundle
  simp [Option.bind_eq_some_iff]

theorem readAs_document : bundle.document.ReadAs ofJson? bundle := by
  intro whole json edited
  obtain ⟨_, _, entries, left, rfl⟩ := entries?_of_edited edited (by simp [keys])
  obtain - | ⟨enums, - | ⟨records, - | ⟨options, - | -⟩⟩⟩ := left
  rw [bundle.ofJson?_eq_some_iff entries]
  have readEnums :=
    enums.orDefault_iff (List.isEmpty_iff.trans eq_comm)
      (readAs_list fun enum _ => enum.readAs_document)
  have readRecords :=
    records.orDefault_iff (List.isEmpty_iff.trans eq_comm)
      (readAs_list fun record _ => record.readAs_document)
  have readOptions :=
    options.orDefault_iff (beq_iff_eq.trans eq_comm)
      bundle.options.readAs_document
  simpa using and_congr readEnums (and_congr readRecords readOptions)

/-- A bundle is read back from what it is written as.  After some entries were left out
and unknown ones added, the bundle is still read if all that is gone may be left out, and
otherwise none is read or a different one. -/
theorem read_back_iff_whole :
    bundle.document.json = bundle.toJson ∧
      ofJson? bundle.toJson = some bundle ∧
        ∀ whole json,
          bundle.document.Edited whole json →
            (ofJson? json = some bundle ↔ whole = true) := by
  have readAs := bundle.readAs_document
  refine ⟨bundle.json_document, ?_, readAs⟩
  have unchanged := edited_json bundle.document
  rw [json_document] at unchanged
  exact (readAs _ _ unchanged).mpr rfl

end Bundle

namespace Drawing

/-- A record with one directive. -/
def patch : RecordDef where
  name := "Patch"
  bigEndian := true
  fields := [⟨"tint", "i8"⟩]

/-- A bundle of that record, with one name of its own. -/
def sketch : Bundle where
  records := [patch]
  options := { naming := { encode := "put" } }

/-- The sketch without the enums and the name that is the default, and with a comment.
The members of its record are given. -/
def shortSketch (record : List (String × Json)) : Json :=
  .object
    [("comment", .null),
      ("records", .array [.object record]),
      ("options", .object [("naming", .object [("encode", .string "put")])])]

private theorem edited_shortSketch
    {whole : Bool} {record : List (String × Json)}
    (edited : patch.document.Edited whole (.object record)) :
    sketch.document.Edited whole (shortSketch record) := by
  have put : sketch.options.naming.document.Edited (true && (true && true)) _ :=
    .fields [] (.remove (.keep (.leaf (.string "put")) .nil)) (by simp) (.refl _)
  have options : sketch.options.document.Edited (true && true) _ :=
    .fields [] (.keep put .nil) (by simp) (.refl _)
  have records := Edited.list (.cons edited .nil)
  have short :
      sketch.document.Edited (true && ((whole && true) && (true && true)))
        (shortSketch record) :=
    .fields [("comment", .null)]
      (.remove (.keep records (.keep options .nil)))
      (by simp [keys]) (List.perm_append_singleton _ _).symm
  simpa using short

end Drawing

/-- The short sketch is read as the sketch, with the members of its record in any order,
but not once the directive is gone as well. -/
theorem Bundle.read_back_iff_whole_for_sketch :
    ofJson?
          (Drawing.shortSketch
            [("big_endian", .bool true), ("name", .string "Patch"),
              ("fields", .array [FieldDef.toJson ⟨"tint", "i8"⟩])]) =
        some Drawing.sketch ∧
      ofJson?
          (Drawing.shortSketch
            [("name", .string "Patch"),
              ("fields", .array [FieldDef.toJson ⟨"tint", "i8"⟩])]) ≠
        some Drawing.sketch := by
  obtain ⟨_, _, reads⟩ := read_back_iff_whole Drawing.sketch
  have name := Edited.leaf (.string "Patch")
  have directive := Edited.leaf (.bool true)
  have fields := edited_json (.list [FieldDef.document ⟨"tint", "i8"⟩])
  have permuted :
      Drawing.patch.document.Edited
        (true && (true && (true && (true && true)))) (.object _) :=
    .fields [] (.keep name (.remove (.keep directive (.keep fields .nil))))
      (by simp) (.swap ("name", _) ("big_endian", _) _)
  have damaged :
      Drawing.patch.document.Edited
        (true && (true && (false && (true && true)))) (.object _) :=
    .fields [] (.keep name (.remove (.remove (.keep fields .nil)))) (by simp)
      (.refl _)
  constructor
  · exact (reads _ _ (Drawing.edited_shortSketch permuted)).mpr rfl
  · intro found
    have lost := (reads _ _ (Drawing.edited_shortSketch damaged)).mp found
    exact Bool.false_ne_true lost

end PackedRecord
