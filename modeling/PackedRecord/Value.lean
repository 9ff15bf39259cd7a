/-!
# Values of fields

Decoding yields, and encoding consumes, values whose shape is known only when a
codec runs.  A record is a list of named values; the first entry of a name is
the one that counts.
-/

namespace PackedRecord

inductive Value
  | unsigned (word : UInt64)
  | signed (word : Int64)
  | variant (name : String)
  | text (content : String)
  | bytes (content : List UInt8)
  | record (entries : List (String × Value))
  deriving Repr

abbrev Record :=
  List (String × Value)

namespace Record

/-- The value of a field: that of the first entry under its name. -/
def get? : Record → String → Option Value
  | [], _ => none
  | (name, value) :: rest, field =>
      if name = field then some value else get? rest field

/-- The record with one field set: in place if it is there, else at the end. -/
def set (record : Record) (field : String) (value : Value) : Record :=
  match record with
  | [] => [(field, value)]
  | (name, old) :: rest =>
      if name = field then
        (field, value) :: rest
      else
        (name, old) :: set rest field value

/-- The record with every entry of another one set in turn. -/
def update (record changes : Record) : Record :=
  changes.foldl (fun updated (field, value) => updated.set field value) record

/-- A field that was set has its new value, and the others keep theirs. -/
@[simp]
theorem get?_set
    (record : Record) (field : String) (value : Value) (name : String) :
    (record.set field value).get? name =
      if field = name then some value else record.get? name := by
  induction record with
  | nil => rfl
  | cons entry rest inductionHypothesis =>
      obtain ⟨other, old⟩ := entry
      by_cases here : other = field
      · subst here
        by_cases same : other = name <;> simp [set, get?, same]
      · by_cases first : other = name
        · subst first
          simp [set, get?, here, Ne.symm here]
        · simp [set, get?, here, first, inductionHypothesis]

end Record

namespace Value

def integer? : Value → Option Int
  | unsigned word => some word.toNat
  | signed word => some word.toInt
  | _ => none

/-- The text of a value: a variant's name or text proper. -/
def text? : Value → Option String
  | variant name => some name
  | text content => some content
  | _ => none

def record? : Value → Option Record
  | record entries => some entries
  | _ => none

end Value

end PackedRecord
