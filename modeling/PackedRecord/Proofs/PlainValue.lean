import PackedRecord.Exchange
import PackedRecord.Proofs.ComponentLaw

/-!
# Plain values

On the way through JSON a value loses its shape: a variant becomes text, and a
signed integer that is not negative becomes unsigned.  What is left of a value is
its plain form.  Encoding reads a value only through its integer, its text and
its entries, which the plain form has in common with it; so a record of a catalog
over enums encodes both alike, with the same bytes or the same error.
-/

namespace PackedRecord

namespace Exchange

mutual

/-- What is left of a value that has been through JSON. -/
def plain : Value → Value
  | .unsigned word => .unsigned word
  | .signed word => integerValue word.toInt
  | .variant name => .text name
  | .text content => .text content
  | .bytes content => .bytes content
  | .record entries => .record (plainEntries entries)

def plainEntries : List (String × Value) → List (String × Value)
  | [] => []
  | (name, value) :: rest => (name, plain value) :: plainEntries rest

end

/-! ## Through JSON and back -/

private theorem ofJson_int
    {integer : Int} (least : -2 ^ 63 ≤ integer) (greatest : integer < 2 ^ 64) :
    ofJson (.int integer) = .ok (integerValue integer) := by
  have exact :
      (JsonNumber.integer integer).exactInteger? = some integer := by
    apply if_pos
    unfold JsonNumber.leastInteger JsonNumber.greatestInteger
    omega
  rw [Json.int, ofJson, exact]

theorem byte?_eq_some_iff {item : Json} {byte : UInt8} :
    byte? item = some byte ↔ item = .nat byte.toNat := by
  constructor
  · intro found
    unfold byte? at found
    split at found
    · next value =>
        split at found
        · next small =>
            cases found
            have written : ((UInt8.ofNat value.toNat).toNat : Int) = value := by
              rw [UInt8.toNat_ofNat_of_lt' (by simp only [UInt8.size]; omega)]
              omega
            rw [Json.nat, Json.int, written]
        · cases found
    · cases found
  · rintro rfl
    have small := byte.toNat_lt
    have inRange : 0 ≤ (byte.toNat : Int) ∧ (byte.toNat : Int) ≤ 255 := by
      omega
    rw [Json.nat, Json.int, byte?, if_pos inRange, Int.toNat_natCast,
      UInt8.ofNat_toNat]

theorem mapM_byte?_eq_some_iff {items : List Json} {content : List UInt8} :
    items.mapM byte? = some content ↔
      items = content.map fun byte => .nat byte.toNat := by
  simp only [mapM_eq_some_iff, byte?_eq_some_iff]
  rw [← List.forall₂_eq_eq_eq, List.forall₂_map_right_iff]

mutual

/-- Coming back from JSON never fails, and gives the plain form. -/
theorem ofJson_toJson : ∀ value, ofJson (toJson value) = .ok (plain value)
  | .unsigned word => by
      have small := word.toNat_lt
      have same : integerValue word.toNat = .unsigned word := by
        have nonnegative : 0 ≤ (word.toNat : Int) := Int.natCast_nonneg _
        rw [integerValue, if_pos nonnegative, IntegerType.ofInt_toNat]
      rw [toJson, Json.nat, ofJson_int (by omega) (by omega), same, plain]
  | .signed word => by
      have least := word.le_toInt
      have greatest := word.toInt_lt
      rw [toJson, ofJson_int least (by omega), plain]
  | .variant name => rfl
  | .text content => rfl
  | .bytes content => by
      rw [toJson, ofJson, mapM_byte?_eq_some_iff.mpr rfl, plain]
  | .record entries => by
      rw [toJson, ofJson, ofMembers_toMembers entries, plain]
      rfl

theorem ofMembers_toMembers :
    ∀ entries, ofMembers (toMembers entries) = .ok (plainEntries entries)
  | [] => rfl
  | (name, value) :: rest => by
      rw [toMembers, ofMembers, ofJson_toJson value, ofMembers_toMembers rest,
        plainEntries]
      rfl

end

/-! ## What the plain form keeps -/

private theorem integer?_integerValue
    {integer : Int} (least : -2 ^ 63 ≤ integer) (greatest : integer < 2 ^ 64) :
    (integerValue integer).integer? = some integer := by
  unfold integerValue
  by_cases nonnegative : 0 ≤ integer
  · have residue := IntegerType.toNat_ofInt integer
    rw [if_pos nonnegative, Value.integer?, residue,
      Int.emod_eq_of_lt nonnegative greatest]
  · rw [if_neg nonnegative, Value.integer?,
      Int64.toInt_ofInt_of_le least (by omega)]

private theorem integer?_plain (value : Value) :
    (plain value).integer? = value.integer? := by
  cases value with
  | signed word =>
      have least := word.le_toInt
      have greatest := word.toInt_lt
      exact integer?_integerValue least (by omega)
  | _ => rfl

private theorem text?_plain (value : Value) : (plain value).text? = value.text? := by
  cases value with
  | signed word =>
      rw [plain, integerValue]
      split <;> rfl
  | _ => rfl

private theorem record?_plain (value : Value) :
    (plain value).record? = value.record?.map plainEntries := by
  cases value with
  | signed word =>
      rw [plain, integerValue]
      split <;> rfl
  | _ => rfl

theorem get?_plainEntries (record : Record) (field : String) :
    Record.get? (plainEntries record) field =
      (record.get? field).map plain := by
  induction record with
  | nil => rfl
  | cons entry rest inductionHypothesis =>
      rcases entry with ⟨name, value⟩
      rw [plainEntries, Record.get?, Record.get?, inductionHypothesis]
      split <;> rfl

end Exchange

/-! ## Encoding plain values -/

open Exchange

/-- A composite encodes the plain form of a value as it encodes the value. -/
def Composite.TakesPlain (target : Composite) (operation : Operation) : Prop :=
  ∀ value, target.encode operation (plain value) = target.encode operation value

def RecordCodec.TakesPlain (codec : RecordCodec) (operation : Operation) :
    Prop :=
  ∀ record : Record,
    codec.encode operation (plainEntries record) = codec.encode operation record

private theorem Storage.encodeAt_plain
    {storage : Storage}
    (lawful : storage.Obeys (fun _ => True) Composite.TakesPlain)
    (order : ByteOrder) (field : String) (value : Value) (cursor : Nat) :
    storage.encodeAt order field (plain value) cursor =
      storage.encodeAt order field value cursor := by
  cases storage with
  | integer type =>
      rw [encodeAt, encodeAt, RecordCodec.integerWord, RecordCodec.integerWord,
        integer?_plain]
  | enum declaration underlying =>
      simp only [encodeAt, RecordCodec.discriminant, integer?_plain, text?_plain]
  | composite target operation => rw [encodeAt, encodeAt, lawful value]

private theorem StoredField.encodeFields_plainEntries
    {order : ByteOrder} {fields : List StoredField}
    (lawful :
      ∀ field ∈ fields,
        field.storage.Obeys (fun _ => True) Composite.TakesPlain)
    (record : Record) (cursor : Nat) :
    encodeFields order (plainEntries record) cursor fields =
      encodeFields order record cursor fields := by
  induction fields generalizing cursor with
  | nil => rfl
  | cons field rest inductionHypothesis =>
      have sameField :
          field.encodeAt order (plainEntries record) cursor =
            field.encodeAt order record cursor := by
        unfold StoredField.encodeAt
        rw [get?_plainEntries]
        cases record.get? field.name with
        | none => rfl
        | some value =>
            exact Storage.encodeAt_plain (lawful field List.mem_cons_self) order
              field.name value cursor
      have sameRest :=
        inductionHypothesis fun other member =>
          lawful other (List.mem_cons_of_mem _ member)
      simp only [encodeFields, sameField, sameRest]

namespace RecordCodec

theorem takesPlain_of_compile
    {schema : Schema} {registry : Registry} {options : GenerateOptions}
    {codec : RecordCodec} {operation : Operation}
    (compiled : compile schema registry options = .ok codec)
    (components : codec.ComponentsObey Composite.TakesPlain operation) :
    codec.TakesPlain operation := by
  intro record
  cases serves : codec.variant? operation with
  | none =>
      have answers : codec.generated.pair? operation = none :=
        Option.map_eq_none_iff.mp serves
      simp only [encode, pair, answers]
      rfl
  | some variant =>
      have enums : codec.types.EnumsAre fun _ => True := fun _ _ _ => trivial
      obtain ⟨stored, _, runs, lawful⟩ :=
        lawfulRun_of_compile compiled serves enums components
      funext before
      rw [runs.encode_eq, runs.encode_eq,
        StoredField.encodeFields_plainEntries fun field member =>
          (lawful field member).2]

theorem TakesPlain.toComposite
    {codec : RecordCodec} {operation : Operation}
    (takesPlain : codec.TakesPlain operation) :
    codec.toComposite.TakesPlain operation := by
  intro value
  simp only [RecordCodec.toComposite, encodeValue, record?_plain]
  cases value.record? with
  | some record => exact takesPlain record
  | none => rfl

end RecordCodec

/-- Every record of a catalog over enums encodes plain forms as what they came
from. -/
theorem Catalog.Reached.takesPlain
    {start : Registry} {catalog : Catalog} (onlyEnums : start.OnlyEnums)
    (reached : Reached start catalog) {codec : RecordCodec}
    (member : codec ∈ catalog.codecs) (operation : Operation) :
    codec.TakesPlain operation := by
  have inherits :
      ∀ {schema registry options codec},
        RecordCodec.compile schema registry options = .ok codec →
          ∀ operation,
            codec.ComponentsObey Composite.TakesPlain operation →
              codec.TakesPlain operation ∧
                codec.toComposite.TakesPlain operation := by
    intro schema registry options codec compiled operation components
    have takesPlain := RecordCodec.takesPlain_of_compile compiled components
    exact ⟨takesPlain, takesPlain.toComposite⟩
  exact ((reached.inherited_of_enums inherits onlyEnums).2 codec member
    operation).1

end PackedRecord
