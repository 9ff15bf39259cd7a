import PackedRecord.Proofs.CursorRun

/-!
# Statements and the table of lengths

What statements do to the table of lengths is the same in both directions, and it
alone decides where the next field lies.  `Direction.PassesAll` says what
statements that succeed do to the table, and forgets the values and the bytes.

However far the statements of a procedure have been passed, what comes next is
safe: a field that is touched next lies in the buffer, and an offset that is
evaluated next adds only lengths that are in the table.  The invariant is
`Offset.Follows` of the simulation by the cursor, together with the demand that was
met last.
-/

namespace PackedRecord

/-! ## Adding up offsets -/

namespace Offset

/-- Every length that the offset adds is in the table. -/
def DefinedIn (offset : Offset) (reported : List Nat) : Prop :=
  ∀ length ∈ offset.lengths, length.index < reported.length

/-- The sums that adding up the offset passes through, from its base on. -/
def sums (offset : Offset) (reported : List Nat) : List Nat :=
  (offset.reportedLengths reported).scanl (· + ·) offset.base

/-- The last sum is that of the offset. -/
theorem getLast?_sums (offset : Offset) (reported : List Nat) :
    (offset.sums reported).getLast? = some (offset.sum reported) := by
  rw [sums, List.getLast?_scanl, List.foldl_eq_apply_foldr]
  rfl

private theorem mem_scanl_add {total number : Nat} {numbers : List Nat}
    (member : number ∈ numbers.scanl (· + ·) total) :
    number ≤ total + numbers.sum := by
  induction numbers generalizing total with
  | nil =>
      rw [List.scanl_nil] at member
      rw [List.mem_singleton.mp member]
      exact Nat.le_add_right _ _
  | cons first rest inductionHypothesis =>
      rw [List.scanl_cons] at member
      rw [List.sum_cons]
      rcases List.mem_cons.mp member with rfl | later
      · exact Nat.le_add_right _ _
      · have bound := inductionHypothesis later
        omega

private theorem le_sum_of_mem_sums
    {offset : Offset} {reported : List Nat} {number : Nat}
    (member : number ∈ offset.sums reported) :
    number ≤ offset.sum reported :=
  mem_scanl_add member

private theorem Covers.definedIn
    {offset : Offset} {reported : List Nat}
    (covers : offset.Covers reported.length) :
    offset.DefinedIn reported := by
  intro length member
  rw [covers] at member
  obtain ⟨index, inRange, rfl⟩ := List.mem_map.mp member
  exact List.mem_range.mp inRange

end Offset

/-! ## Statements and the table of lengths -/

namespace PlacedField

/-- The field lies in a buffer of the given length: all of it, or the place where a
composite starts. -/
def LiesIn (field : PlacedField) (reported : List Nat) (available : Nat) :
    Prop :=
  match field.width with
  | .static bytes => field.offset.sum reported + bytes ≤ available
  | .reported _ => field.offset.sum reported ≤ available

private theorem LiesIn.sum_le
    {field : PlacedField} {reported : List Nat} {available : Nat}
    (inside : field.LiesIn reported available) :
    field.offset.sum reported ≤ available := by
  unfold LiesIn at inside
  split at inside <;> omega

/-- What touching the field does to the table of lengths: a composite adds a
length that does not exceed what is left of the buffer. -/
def Extends (field : PlacedField) (available : Nat)
    (before after : List Nat) : Prop :=
  match field.access.length? with
  | none => after = before
  | some _ =>
      ∃ width,
        field.offset.sum before + width ≤ available ∧
          after = before ++ [width]

end PlacedField

def Statement.field? : Statement → Option PlacedField
  | require _ => none
  | read field => some field
  | write field => some field
  | construct _ => none

def Statement.offset? : Statement → Option Offset
  | require size => some size
  | read field => some field.offset
  | write field => some field.offset
  | construct _ => none

namespace Procedure

/-- The field that a procedure touches next, when some statements are left. -/
def nextField? (left : List Statement) : Option PlacedField :=
  left.head?.bind Statement.field?

/-- The offset that a procedure evaluates next, when some statements are left. -/
def nextOffset? (procedure : Procedure) : List Statement → Option Offset
  | [] => some procedure.returns
  | statement :: _ => statement.offset?

/-- Whatever a procedure does next, it stays inside the buffer and adds up only
lengths that were reported, within a bound that no machine word exceeds unless the
buffer or the static size does. -/
structure NextIsSafe (procedure : Procedure) (staticSize : Nat)
    (reported : List Nat) (available : Nat) (left : List Statement) : Prop where
  inside : ∀ field,
    nextField? left = some field → field.LiesIn reported available
  defined : ∀ offset,
    procedure.nextOffset? left = some offset → offset.DefinedIn reported
  bounded : ∀ offset,
    procedure.nextOffset? left = some offset →
      ∀ number ∈ offset.sums reported,
        number ≤ max staticSize (2 * available)
  fits : available < 2 ^ 63 → staticSize < 2 ^ 64 → ∀ offset,
    procedure.nextOffset? left = some offset →
      ∀ number ∈ offset.sums reported, number < 2 ^ 64
  /-- So a machine with words of 64 bits finds the sum. -/
  evaluated : available < 2 ^ 63 → staticSize < 2 ^ 64 → ∀ offset,
    procedure.nextOffset? left = some offset →
      offset.eval reported = offset.sum reported

/-- The sums of an offset stay within any bound that the last of them stays within. -/
theorem NextIsSafe.of_bound
    {procedure : Procedure} {staticSize available : Nat}
    {reported : List Nat} {left : List Statement}
    (inside : ∀ field,
      nextField? left = some field → field.LiesIn reported available)
    (defined : ∀ offset,
      procedure.nextOffset? left = some offset → offset.DefinedIn reported)
    (bound : ∀ offset,
      procedure.nextOffset? left = some offset →
        offset.sum reported ≤ max staticSize (2 * available)) :
    procedure.NextIsSafe staticSize reported available left := by
  have bounded :
      ∀ offset, procedure.nextOffset? left = some offset →
        ∀ number ∈ offset.sums reported,
          number ≤ max staticSize (2 * available) := by
    intro offset next number member
    exact Nat.le_trans (Offset.le_sum_of_mem_sums member) (bound offset next)
  refine ⟨inside, defined, bounded, ?_, ?_⟩
  · intro short small offset next number member
    have within := bounded offset next number member
    omega
  · intro short small offset next
    have within := bound offset next
    apply offset.eval_of_lt
    omega

end Procedure

namespace Direction

/-- What a statement that succeeds does to the table of lengths. -/
def Passes (direction : Direction) (available : Nat)
    (before after : List Nat) : Statement → Prop
  | .require size => size.sum before ≤ available ∧ after = before
  | .read field =>
      if direction = .decode then
        field.Extends available before after
      else
        after = before
  | .write field =>
      if direction = .encode then
        field.Extends available before after
      else
        after = before
  | .construct _ => after = before

/-- What statements that succeed one after another do to the table of lengths. -/
def PassesAll (direction : Direction) (available : Nat) :
    List Nat → List Nat → List Statement → Prop
  | before, after, [] => after = before
  | before, after, statement :: rest =>
      ∃ between,
        direction.Passes available before between statement ∧
          direction.PassesAll available between after rest

private theorem passes_touch
    (direction : Direction) {field : PlacedField} {available : Nat}
    {before after : List Nat} :
    direction.Passes available before after (direction.touch field) ↔
      field.Extends available before after := by
  cases direction <;> simp [Passes, touch]

end Direction

/-- What is evaluated and touched next is defined and lies in the buffer, when the
given statements are left and the procedure returns the given offset. -/
def Offset.Guards (stop : Offset) (reported : List Nat) (available : Nat) :
    List Statement → Prop
  | [] => stop.DefinedIn reported ∧ stop.sum reported ≤ available
  | .require size :: _ =>
      size.DefinedIn reported ∧ size.sum reported ≤ 2 * available
  | .read field :: _ =>
      field.offset.DefinedIn reported ∧ field.LiesIn reported available
  | .write field :: _ =>
      field.offset.DefinedIn reported ∧ field.LiesIn reported available
  | .construct _ :: _ => True

private theorem Offset.guards_touch
    {stop : Offset} {reported : List Nat} {available : Nat}
    {direction : Direction} {field : PlacedField} {rest : List Statement} :
    stop.Guards reported available (direction.touch field :: rest) ↔
      field.offset.DefinedIn reported ∧ field.LiesIn reported available := by
  cases direction <;> exact Iff.rfl

theorem Offset.Guards.nextIsSafe
    {procedure : Procedure} {staticSize available : Nat}
    {reported : List Nat} {left : List Statement}
    (guards : procedure.returns.Guards reported available left) :
    procedure.NextIsSafe staticSize reported available left := by
  have bound :
      ∀ offset, procedure.nextOffset? left = some offset →
        offset.DefinedIn reported ∧ offset.sum reported ≤ 2 * available := by
    intro offset next
    match left, guards with
    | [], ⟨defined, inside⟩ =>
        cases next
        exact ⟨defined, by omega⟩
    | .require size :: _, ⟨defined, inside⟩ =>
        cases next
        exact ⟨defined, inside⟩
    | .read field :: _, ⟨defined, liesIn⟩ =>
        cases next
        have inside := liesIn.sum_le
        exact ⟨defined, by omega⟩
    | .write field :: _, ⟨defined, liesIn⟩ =>
        cases next
        have inside := liesIn.sum_le
        exact ⟨defined, by omega⟩
    | .construct _ :: _, _ => cases next
  refine .of_bound ?_ (fun offset next => (bound offset next).1) ?_
  · intro field next
    match left, guards with
    | .read _ :: _, ⟨_, inside⟩ =>
        cases next
        exact inside
    | .write _ :: _, ⟨_, inside⟩ =>
        cases next
        exact inside
  · intro offset next
    have inside := (bound offset next).2
    omega

/-- Behind the last field nothing is touched, and the table stays as it is. -/
private theorem Direction.guards_closing
    {direction : Direction} {fields : List PlacedField}
    {earlier left : List Statement} {stop : Offset} {available : Nat}
    {lengths reported : List Nat}
    (split : direction.closing fields = earlier ++ left)
    (passed : direction.PassesAll available lengths reported earlier)
    (defined : stop.DefinedIn lengths)
    (inside : stop.sum lengths ≤ available) :
    stop.Guards reported available left := by
  cases direction with
  | encode =>
      obtain ⟨rfl, rfl⟩ := List.append_eq_nil_iff.mp split.symm
      obtain rfl : reported = lengths := passed
      exact ⟨defined, inside⟩
  | decode =>
      rcases List.append_eq_singleton_iff.mp split.symm with
        ⟨rfl, rfl⟩ | ⟨rfl, rfl⟩
      · trivial
      · obtain ⟨_, rfl, rfl⟩ := passed
        exact ⟨defined, inside⟩

/-- However far the statements that touch some placed fields and close a procedure have been
passed, what comes next is guarded. -/
def Direction.GuardsAll (direction : Direction) (fields : List PlacedField)
    (available : Nat) (start : Offset) (placed : List PlacedField)
    (stored : List StoredField) (stop : Offset) : Prop :=
  ∀ ⦃demanded : Offset⦄ ⦃lengths reported : List Nat⦄
    ⦃earlier left : List Statement⦄,
    start.Follows demanded lengths stored →
      demanded.sum lengths ≤ available →
        direction.touchAll demanded placed ++ direction.closing fields =
            earlier ++ left →
          direction.PassesAll available lengths reported earlier →
            stop.Guards reported available left

namespace Direction.GuardsAll

variable {direction : Direction} {fields : List PlacedField} {available : Nat}
  {start stop : Offset} {placed : List PlacedField} {stored : List StoredField}
  {name : String} {access : Access}

private theorem cons_static
    {storage : Storage}
    (behind :
      direction.GuardsAll fields available
        (start.after (.static storage.staticWidth)) placed stored stop)
    (noLength : access.length? = none)
    (takes : access.width = .static storage.staticWidth) :
    direction.GuardsAll fields available start
      ({ name, access, offset := start } :: placed)
      ({ name, storage } :: stored) stop := by
  intro demanded lengths reported earlier left follows room split passed
  have value :
      demanded.sum lengths =
        start.sum lengths +
          (storage.staticWidth + StoredField.staticWidth stored) := by
    rw [follows.sum_demanded, StoredField.staticWidth_cons]
  simp only [touchAll, noLength, List.cons_append] at split
  cases earlier with
  | nil =>
      obtain rfl : reported = lengths := passed
      rw [List.nil_append] at split
      rw [← split, Offset.guards_touch]
      refine ⟨follows.startCovers.definedIn, ?_⟩
      simp only [PlacedField.LiesIn, PlacedField.width, takes]
      omega
  | cons statement earlier =>
      rw [List.cons_append, List.cons.injEq] at split
      obtain ⟨rfl, split⟩ := split
      obtain ⟨between, touched, passed⟩ := passed
      rw [passes_touch] at touched
      simp only [PlacedField.Extends, noLength] at touched
      subst touched
      exact behind follows.past_static room split passed

private theorem cons_composite
    {target : Composite} {operation : Operation}
    (behind :
      direction.GuardsAll fields available
        (start.plus { index := start.lengths.length }) placed stored stop)
    (length : access.length? = some { index := start.lengths.length })
    (takes : access.width = .reported { index := start.lengths.length }) :
    direction.GuardsAll fields available start
      ({ name, access, offset := start } :: placed)
      ({ name, storage := .composite target operation } :: stored) stop := by
  intro demanded lengths reported earlier left follows room split passed
  have value :
      demanded.sum lengths =
        start.sum lengths + StoredField.staticWidth stored := by
    rw [follows.sum_demanded, StoredField.staticWidth_cons,
      Storage.staticWidth, Nat.zero_add]
  rw [follows.startCovers.length_lengths] at length takes behind
  simp only [touchAll, length, List.cons_append] at split
  cases earlier with
  | nil =>
      obtain rfl : reported = lengths := passed
      rw [List.nil_append] at split
      rw [← split, Offset.guards_touch]
      refine ⟨follows.startCovers.definedIn, ?_⟩
      simp only [PlacedField.LiesIn, PlacedField.width, takes]
      omega
  | cons statement earlier =>
      rw [List.cons_append, List.cons.injEq] at split
      obtain ⟨rfl, split⟩ := split
      obtain ⟨between, touched, passed⟩ := passed
      rw [passes_touch] at touched
      simp only [PlacedField.Extends, length] at touched
      obtain ⟨width, inside, rfl⟩ := touched
      have followsNext := follows.past_composite width
      have valueNext := follows.sum_demanded_past_composite width
      cases earlier with
      | nil =>
          -- The demand behind a composite is the only offset that may exceed the
          -- buffer, by no more than the reported length.
          obtain rfl := passed
          rw [List.nil_append] at split
          rw [← split]
          exact ⟨followsNext.demandCovers.definedIn, by omega⟩
      | cons statement earlier =>
          rw [List.cons_append, List.cons.injEq] at split
          obtain ⟨rfl, split⟩ := split
          obtain ⟨_, ⟨met, rfl⟩, passed⟩ := passed
          exact behind followsNext met split passed

end Direction.GuardsAll

theorem Layout.Places.guardsAll
    {types : Registry} {order : ByteOrder} {start stop : Offset}
    {placed : List PlacedField} {stored : List StoredField}
    (places : Layout.Places types order start placed stored stop)
    (direction : Direction) (fields : List PlacedField) (available : Nat) :
    direction.GuardsAll fields available start placed stored stop := by
  induction places with
  | nil start =>
      intro demanded lengths reported earlier left follows room split passed
      have value := follows.sum_demanded
      rw [StoredField.staticWidth_nil] at value
      exact Direction.guards_closing split passed
        follows.startCovers.definedIn (by omega)
  | cons name reaches rest behind =>
      rcases reaches.static_or_composite with
        ⟨_, noLength, takes⟩ | ⟨target, operation, rfl, length, takes⟩
      · rw [takes] at behind
        exact behind.cons_static noLength takes
      · rw [takes] at behind
        exact behind.cons_composite length takes

end PackedRecord
