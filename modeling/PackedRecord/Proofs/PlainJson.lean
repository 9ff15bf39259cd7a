import Mathlib.Data.Set.List
import PackedRecord.Proofs.PlainValue

/-!
# JSON that stands for a value

Some JSON stands for a value, and what it stands for is written as it again; so no two
values that come from JSON are written alike.  A value that goes through JSON comes back
in its plain form, and from then on it stays as it is.

What stands for a value, and what the plain form of one is, is said here without the
conversions that are shown to agree with it.
-/

namespace PackedRecord

/-- JSON that stands for a value: an integer that fits a word, a string, an array of
bytes, or an object of such values. -/
inductive Json.Plain : Json → Prop
  | integer {value : Int} (least : -2 ^ 63 ≤ value)
      (greatest : value ≤ 2 ^ 64 - 1) :
      Plain (.number (.integer value))
  | string (content : String) : Plain (.string content)
  | bytes {items : List Json}
      (small :
        ∀ item ∈ items,
          ∃ value : Int,
            0 ≤ value ∧ value ≤ 255 ∧ item = .number (.integer value)) :
      Plain (.array items)
  | object {members : List (String × Json)}
      (each : ∀ member ∈ members, Plain member.2) :
      Plain (.object members)

mutual

/-- At every depth a variant has become a text, and a signed integer that is not
negative has become unsigned. -/
inductive Value.PlainForm : Value → Value → Prop
  | unsigned (word : UInt64) : PlainForm (.unsigned word) (.unsigned word)
  | negative {word : Int64} (below : word.toInt < 0) :
      PlainForm (.signed word) (.signed word)
  | nonnegative {word : Int64} {same : UInt64}
      (equal : (same.toNat : Int) = word.toInt) :
      PlainForm (.signed word) (.unsigned same)
  | variant (name : String) : PlainForm (.variant name) (.text name)
  | text (content : String) : PlainForm (.text content) (.text content)
  | bytes (content : List UInt8) : PlainForm (.bytes content) (.bytes content)
  | record {entries plain : List (String × Value)}
      (each : Value.PlainEntries entries plain) :
      PlainForm (.record entries) (.record plain)

/-- The entries have kept their order and their names, and their values have become
plain. -/
inductive Value.PlainEntries :
    List (String × Value) → List (String × Value) → Prop
  | nil : PlainEntries [] []
  | cons {name : String} {value plain : Value}
      {rest others : List (String × Value)}
      (first : Value.PlainForm value plain)
      (behind : PlainEntries rest others) :
      PlainEntries ((name, value) :: rest) ((name, plain) :: others)

end

namespace Exchange

/-! ## What JSON stands for a value -/

theorem exactInteger?_eq_some_iff {number : JsonNumber} {integer : Int} :
    number.exactInteger? = some integer ↔
      number = .integer integer ∧
        -2 ^ 63 ≤ integer ∧ integer ≤ 2 ^ 64 - 1 := by
  cases number with
  | decimal negative significand exponent =>
      simp [JsonNumber.exactInteger?]
  | integer value =>
      rw [JsonNumber.exactInteger?]
      split
      · next fits =>
          constructor
          · rintro ⟨⟩
            exact ⟨rfl, fits⟩
          · rintro ⟨⟨⟩, _⟩
            rfl
      · next misfits =>
          constructor
          · rintro ⟨⟩
          · rintro ⟨⟨⟩, fits⟩
            exact absurd fits misfits

theorem ofJson_number_eq_ok {number : JsonNumber} {value : Value} :
    ofJson (.number number) = .ok value ↔
      ∃ integer : Int,
        (number = .integer integer ∧
            -2 ^ 63 ≤ integer ∧ integer ≤ 2 ^ 64 - 1) ∧
          integerValue integer = value := by
  simp only [← exactInteger?_eq_some_iff, ofJson]
  cases number.exactInteger? with
  | none => simp
  | some integer => simp

private theorem toJson_integerValue
    {integer : Int} (least : -2 ^ 63 ≤ integer)
    (greatest : integer ≤ 2 ^ 64 - 1) :
    toJson (integerValue integer) = .int integer := by
  unfold integerValue
  by_cases nonnegative : 0 ≤ integer
  · rw [if_pos nonnegative, toJson, Json.nat, IntegerType.toNat_ofInt,
      Int.emod_eq_of_lt nonnegative (by omega)]
  · rw [if_neg nonnegative, toJson,
      Int64.toInt_ofInt_of_le least (by omega)]

mutual

/-- What JSON stands for is written as this JSON again. -/
private theorem toJson_of_ofJson :
    ∀ json {value}, ofJson json = .ok value → toJson value = json
  | .null, _, stands => by cases stands
  | .bool _, _, stands => by cases stands
  | .unpaired, _, stands => by cases stands
  | .number number, value, stands => by
      obtain ⟨integer, ⟨rfl, least, greatest⟩, rfl⟩ :=
        ofJson_number_eq_ok.mp stands
      exact toJson_integerValue least greatest
  | .string content, value, stands => by
      cases stands
      rfl
  | .array items, value, stands => by
      unfold ofJson at stands
      split at stands
      · next content found =>
          cases stands
          rw [toJson, mapM_byte?_eq_some_iff.mp found]
      · cases stands
  | .object members, value, stands => by
      simp only [ofJson, bind_eq_ok, pure_eq_ok] at stands
      obtain ⟨entries, each, rfl⟩ := stands
      rw [toJson, toMembers_of_ofMembers members each]

private theorem toMembers_of_ofMembers :
    ∀ members {entries},
      ofMembers members = .ok entries → toMembers entries = members
  | [], _, stand => by
      cases stand
      rfl
  | (name, json) :: rest, entries, stand => by
      simp only [ofMembers, bind_eq_ok, pure_eq_ok] at stand
      obtain ⟨value, first, others, behind, rfl⟩ := stand
      rw [toMembers, toJson_of_ofJson json first,
        toMembers_of_ofMembers rest behind]

end

private theorem exists_ofMembers
    {members : List (String × Json)}
    (each : ∀ member ∈ members, ∃ value, ofJson member.2 = .ok value) :
    ∃ entries, ofMembers members = .ok entries := by
  induction members with
  | nil => exact ⟨[], rfl⟩
  | cons member rest inductionHypothesis =>
      obtain ⟨value, first⟩ := each member List.mem_cons_self
      obtain ⟨entries, behind⟩ :=
        inductionHypothesis fun later listed =>
          each later (List.mem_cons_of_mem _ listed)
      refine ⟨(member.1, value) :: entries, ?_⟩
      rw [ofMembers, first, behind]
      rfl

private theorem exists_ofJson_of_plain {json : Json} (plain : json.Plain) :
    ∃ value, ofJson json = .ok value := by
  induction plain with
  | integer least greatest =>
      exact ⟨_, ofJson_number_eq_ok.mpr ⟨_, ⟨rfl, least, greatest⟩, rfl⟩⟩
  | string content => exact ⟨.text content, rfl⟩
  | @bytes items small =>
      have written :
          items ∈ Set.range (List.map fun byte : UInt8 => Json.nat byte.toNat) := by
        rw [Set.range_list_map]
        intro item member
        obtain ⟨value, least, greatest, rfl⟩ := small item member
        have stored :
            byte? (.number (.integer value)) =
              some (UInt8.ofNat value.toNat) :=
          if_pos ⟨least, greatest⟩
        exact ⟨_, (byte?_eq_some_iff.mp stored).symm⟩
      obtain ⟨content, rfl⟩ := written
      exact ⟨.bytes content, by rw [ofJson, mapM_byte?_eq_some_iff.mpr rfl]⟩
  | object each inductionHypothesis =>
      obtain ⟨entries, stand⟩ := exists_ofMembers inductionHypothesis
      exact ⟨.record entries, by rw [ofJson, stand]; rfl⟩

mutual

theorem plain_toJson : ∀ value, (toJson value).Plain
  | .unsigned word => by
      have small := word.toNat_lt
      exact .integer (by omega) (by omega)
  | .signed word => by
      have least := word.le_toInt
      have greatest := word.toInt_lt
      exact .integer least (by omega)
  | .variant name => .string name
  | .text content => .string content
  | .bytes content => by
      refine .bytes ?_
      intro item member
      obtain ⟨byte, _, rfl⟩ := List.mem_map.mp member
      have small := byte.toNat_lt
      exact ⟨byte.toNat, by omega, by omega, rfl⟩
  | .record entries => .object (plain_of_mem_toMembers entries)

private theorem plain_of_mem_toMembers :
    ∀ entries, ∀ member ∈ toMembers entries, Json.Plain member.2
  | [], _, absent => by cases absent
  | (name, value) :: rest, member, listed => by
      rcases List.mem_cons.mp listed with rfl | later
      · exact plain_toJson value
      · exact plain_of_mem_toMembers rest member later

end

/-! ## What JSON leaves of a value -/

private theorem plainForm_signed {word : Int64} {other : Value} :
    Value.PlainForm (.signed word) other ↔ other = integerValue word.toInt := by
  have least := word.le_toInt
  have greatest := word.toInt_lt
  unfold integerValue
  by_cases nonnegative : 0 ≤ word.toInt
  · rw [if_pos nonnegative]
    constructor
    · intro form
      cases form with
      | negative below => exact absurd nonnegative (Int.not_le.mpr below)
      | nonnegative equal => rw [← equal, IntegerType.ofInt_toNat]
    · rintro rfl
      refine .nonnegative ?_
      rw [IntegerType.toNat_ofInt, Int.emod_eq_of_lt nonnegative (by omega)]
  · rw [if_neg nonnegative, Int64.ofInt_toInt]
    constructor
    · intro form
      cases form with
      | negative below => rfl
      | nonnegative equal => omega
    · rintro rfl
      exact .negative (Int.not_le.mp nonnegative)

mutual

theorem plainForm_iff :
    ∀ {value other}, value.PlainForm other ↔ other = plain value
  | .unsigned word, _ =>
      ⟨by rintro ⟨⟩; rfl, by rintro rfl; exact .unsigned word⟩
  | .signed word, _ => plainForm_signed
  | .variant name, _ =>
      ⟨by rintro ⟨⟩; rfl, by rintro rfl; exact .variant name⟩
  | .text content, _ =>
      ⟨by rintro ⟨⟩; rfl, by rintro rfl; exact .text content⟩
  | .bytes content, _ =>
      ⟨by rintro ⟨⟩; rfl, by rintro rfl; exact .bytes content⟩
  | .record entries, _ => by
      constructor
      · intro form
        cases form with
        | record each => rw [plain, plainEntries_iff.mp each]
      · rintro rfl
        exact .record (plainEntries_iff.mpr rfl)

theorem plainEntries_iff :
    ∀ {entries others},
      Value.PlainEntries entries others ↔ others = plainEntries entries
  | [], _ => ⟨by rintro ⟨⟩; rfl, by rintro rfl; exact .nil⟩
  | (name, value) :: rest, _ => by
      constructor
      · intro form
        cases form with
        | cons first behind =>
            rw [plainEntries, plainForm_iff.mp first,
              plainEntries_iff.mp behind]
      · rintro rfl
        exact .cons (plainForm_iff.mpr rfl) (plainEntries_iff.mpr rfl)

end

/-! ## There and back -/

/-- JSON stands for a value exactly if it is plain, and is what this value is written
as.  What a value is written as stands for its plain form, which is left as it is from
then on. -/
theorem json_and_values_correspond :
    (∀ json, (∃ value, ofJson json = .ok value) ↔ json.Plain) ∧
      (∀ json value, ofJson json = .ok value → toJson value = json) ∧
        (∀ value : Value, ∃ other, value.PlainForm other) ∧
          (∀ value other,
              ofJson (toJson value) = .ok other ↔ value.PlainForm other) ∧
            ∀ value other : Value,
              value.PlainForm other → ofJson (toJson other) = .ok other := by
  refine ⟨?_, fun json _ => toJson_of_ofJson json, ?_, ?_, ?_⟩
  · intro json
    constructor
    · rintro ⟨value, stands⟩
      rw [← toJson_of_ofJson json stands]
      exact plain_toJson value
    · exact exists_ofJson_of_plain
  · intro value
    exact ⟨plain value, plainForm_iff.mpr rfl⟩
  · intro value other
    rw [ofJson_toJson, plainForm_iff, Except.ok.injEq, eq_comm]
  · intro value other form
    have back := ofJson_toJson value
    rw [← plainForm_iff.mp form] at back
    rw [toJson_of_ofJson _ back, back]

end Exchange

namespace Drawing

/-- The end of a line, with a tint that is a variant, and bytes. -/
def tinted : Value :=
  .record
    [("tint", .variant "red"), ("raw", .bytes [0, 255]),
      ("end", .record [("x", .signed (-3)), ("y", .signed 258)])]

def plainTinted : Value :=
  .record
    [("tint", .text "red"), ("raw", .bytes [0, 255]),
      ("end", .record [("x", .signed (-3)), ("y", .unsigned 258)])]

end Drawing

/-- JSON changes the variant and one of the numbers, at different depths, and only once. -/
theorem Exchange.json_and_values_correspond_for_tinted :
    Drawing.tinted.PlainForm Drawing.plainTinted ∧
      ofJson (toJson Drawing.tinted) = .ok Drawing.plainTinted ∧
        toJson Drawing.plainTinted = toJson Drawing.tinted ∧
          ofJson (toJson Drawing.plainTinted) = .ok Drawing.plainTinted := by
  obtain ⟨_, written, _, back, again⟩ := json_and_values_correspond
  have inner :
      Value.PlainForm (.record [("x", .signed (-3)), ("y", .signed 258)])
        (.record [("x", .signed (-3)), ("y", .unsigned 258)]) :=
    .record (.cons (.negative (by decide)) (.cons (.nonnegative (by decide)) .nil))
  have form : Drawing.tinted.PlainForm Drawing.plainTinted :=
    .record (.cons (.variant "red") (.cons (.bytes _) (.cons inner .nil)))
  have stands := (back _ _).mpr form
  exact ⟨form, stands, written _ _ stands, again _ _ form⟩

end PackedRecord
