import PackedRecord.Bytes.Word
import PackedRecord.Error

/-!
# Writers

A writer changes a buffer in place.  It returns a result or fails, and either way
it leaves a buffer behind: what was written before a failure stays.  A buffer
never grows or shrinks; writers for which this holds are closed under the ways
of putting writers together.
-/

namespace PackedRecord

/-- A computation that writes into a buffer and may fail. -/
abbrev Writer :=
  EStateM CodecError Bytes

namespace Writer

/-- The buffer that a run leaves behind, whether it succeeded or failed. -/
def buffer {result : Type} : EStateM.Result CodecError Bytes result → Bytes
  | .ok _ left => left
  | .error _ left => left

def ofExcept {result : Type} (found : Except CodecError result) :
    Writer result := fun before =>
  match found with
  | .ok value => .ok value before
  | .error cause => .error cause before

/-- A writer that leaves every buffer as long as it was. -/
def KeepsLength {result : Type} (writer : Writer result) : Prop :=
  ∀ before, (buffer (writer before)).length = before.length

section KeepsLength

variable {first second : Type}

theorem KeepsLength.pure (value : first) :
    KeepsLength (Pure.pure value) :=
  fun _ => rfl

theorem KeepsLength.throw (cause : CodecError) :
    KeepsLength (throw cause : Writer first) :=
  fun _ => rfl

theorem KeepsLength.ofExcept (found : Except CodecError first) :
    KeepsLength (Writer.ofExcept found) := by
  intro before
  cases found <;> rfl

theorem KeepsLength.bind
    {writer : Writer first} {next : first → Writer second}
    (writerKeeps : KeepsLength writer)
    (nextKeeps : ∀ value, KeepsLength (next value)) :
    KeepsLength (writer >>= next) := by
  intro before
  have kept := writerKeeps before
  show (buffer (EStateM.bind writer next before)).length = before.length
  unfold EStateM.bind
  cases outcome : writer before with
  | ok value between =>
      rw [outcome] at kept
      exact (nextKeeps value between).trans kept
  | error cause between =>
      rw [outcome] at kept
      exact kept

theorem KeepsLength.foldlM
    {step : second → first → Writer second} {items : List first}
    (stepKeeps : ∀ state, ∀ item ∈ items, KeepsLength (step state item))
    (state : second) :
    KeepsLength (items.foldlM step state) := by
  induction items generalizing state with
  | nil => exact KeepsLength.pure state
  | cons item rest inductionHypothesis =>
      rw [List.foldlM_cons]
      exact KeepsLength.bind
        (stepKeeps state item List.mem_cons_self)
        (inductionHypothesis fun between other member =>
          stepKeeps between other (List.mem_cons_of_mem item member))

end KeepsLength

end Writer

end PackedRecord
