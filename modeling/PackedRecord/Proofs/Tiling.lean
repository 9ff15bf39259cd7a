import PackedRecord.Proofs.CursorRun

/-!
# Planned fields tile the record

The planner adds up the widths that are known and counts the composites.  What comes
of it is a tiling, whatever the fields are and whatever lengths the composites report:
each field starts where the one before it ends, and the total is where the last one
ends.  A machine adds all this up in its words, so a tiling goes round where the fields
take more bytes than a word can count.  As long as they do not, no field starts before
an earlier one has ended.

The planner's two accumulators are followed by one relation, `Layout.Chain`: a field
stands at the offset that the fields before it lead to, and a composite reports the
length whose number comes next.
-/

namespace PackedRecord

namespace Width

/-- The width in bytes, where it is known without data. -/
def known? : Width → Option Nat
  | static bytes => some bytes
  | reported _ => none

def reported? : Width → Option LengthVar
  | static _ => none
  | reported length => some length

def room (reported : List Nat) : Width → Nat
  | .static bytes => bytes
  | .reported length => length.value reported

end Width

private theorem Access.length?_eq_reported? (access : Access) :
    access.length? = access.width.reported? := by
  cases access <;> rfl

namespace Offset

theorem sum_after (offset : Offset) (width : Width) (reported : List Nat) :
    (offset.after width).sum reported =
      offset.sum reported + width.room reported := by
  cases width with
  | static bytes => exact offset.sum_after_static bytes reported
  | reported length => exact offset.sum_plus length reported

section Past

variable (offset : Offset)

theorem lengths_past (add : Nat → Nat → Nat) (access : Access) :
    (offset.past add access.width).lengths =
      offset.lengths ++ access.length?.toList := by
  cases access with
  | composite name operation length => rfl
  | _ => exact (List.append_nil _).symm

theorem eval_past (width : Width) (reported : List Nat) (bits : Nat) :
    (offset.past (wrappingAdd bits) width).eval reported bits =
      wrappingAdd bits (offset.eval reported bits) (width.room reported) := by
  rw [wrappingAdd_eq_mod, eval_eq_mod, eval_eq_mod, Nat.mod_add_mod,
    ← offset.sum_after width reported]
  cases width with
  | reported length => rfl
  | static bytes =>
      simp only [past, after, sum, reportedLengths, wrappingAdd_eq_mod,
        Nat.mod_add_mod]

/-- Where a known size fits the words, a machine finds the same offset behind it. -/
private theorem past_wrappingAdd {kind : FieldKind} {next bits : Nat}
    (fits : offset.base + kind.staticWidth < 2 ^ bits) :
    offset.past (wrappingAdd bits) (kind.width next) =
      offset.past (· + ·) (kind.width next) := by
  cases kind with
  | composite name contract => rfl
  | _ =>
      simp only [FieldKind.staticWidth] at fits
      simp only [FieldKind.width, FieldKind.staticWidth?, past,
        wrappingAdd_of_lt fits]

end Past

@[simp]
theorem eval_zero (reported : List Nat) (bits : Nat) :
    ({} : Offset).eval reported bits = 0 :=
  ({} : Offset).eval_eq_mod reported bits

/-- An offset needs no more of a table than the lengths that it adds. -/
theorem Covers.eval_take
    {offset : Offset} {count : Nat} (covers : offset.Covers count)
    (reported : List Nat) (bits : Nat) :
    offset.eval (reported.take count) bits = offset.eval reported bits := by
  have sameLengths :
      offset.reportedLengths (reported.take count) =
        offset.reportedLengths reported := by
    apply List.map_congr_left
    intro length member
    rw [covers] at member
    obtain ⟨index, inRange, rfl⟩ := List.mem_map.mp member
    have early : index < count := List.mem_range.mp inRange
    simp only [LengthVar.value, List.getD_eq_getElem?_getD,
      List.getElem?_take_of_lt early]
  rw [eval, eval, sameLengths]

end Offset

namespace PlacedField

def room (field : PlacedField) (reported : List Nat) : Nat :=
  field.width.room reported

def rooms (fields : List PlacedField) (reported : List Nat) : Nat :=
  (fields.map fun field => field.room reported).sum

def lengths (fields : List PlacedField) : List LengthVar :=
  fields.filterMap fun field => field.access.length?

/-- Under a table of lengths the fields lie one behind the other, from a position to
a position and without gaps, as a machine with words of `bits` bits counts. -/
def Tile (bits : Nat) (reported : List Nat) : Nat → List PlacedField → Nat → Prop
  | start, [], stop => start = stop
  | start, field :: rest, stop =>
      field.offset.eval reported bits = start ∧
        Tile bits reported (wrappingAdd bits start (field.room reported)) rest
          stop

@[simp]
theorem rooms_nil (reported : List Nat) : rooms [] reported = 0 :=
  rfl

@[simp]
theorem rooms_cons (field : PlacedField) (rest : List PlacedField)
    (reported : List Nat) :
    rooms (field :: rest) reported = field.room reported + rooms rest reported :=
  List.sum_cons

theorem lengths_cons (field : PlacedField) (rest : List PlacedField) :
    lengths (field :: rest) =
      field.access.length?.toList ++ lengths rest := by
  cases reports : field.access.length? with
  | none => exact List.filterMap_cons_none reports
  | some length => exact List.filterMap_cons_some reports

section Tile

variable {bits : Nat} {reported : List Nat} {start stop : Nat}
  {fields : List PlacedField}

/-- Where the room of some fields fits the words, the next position behind them is found
without going round. -/
theorem Tile.offset_eq
    {earlier later : List PlacedField} {field : PlacedField}
    (tile : Tile bits reported start fields stop)
    (split : fields = earlier ++ field :: later)
    (fits : start + rooms earlier reported < 2 ^ bits) :
    field.offset.eval reported bits = start + rooms earlier reported := by
  subst split
  induction earlier generalizing start with
  | nil => exact tile.1
  | cons first earlier inductionHypothesis =>
      obtain ⟨_, behind⟩ := tile
      rw [rooms_cons, ← Nat.add_assoc] at fits ⊢
      rw [wrappingAdd_of_lt (Nat.lt_of_add_right_lt fits)] at behind
      exact inductionHypothesis fits behind

theorem Tile.stop_eq
    (tile : Tile bits reported start fields stop)
    (fits : start + rooms fields reported < 2 ^ bits) :
    stop = start + rooms fields reported := by
  induction fields generalizing start with
  | nil => exact Eq.symm tile
  | cons first rest inductionHypothesis =>
      obtain ⟨_, behind⟩ := tile
      rw [rooms_cons, ← Nat.add_assoc] at fits ⊢
      rw [wrappingAdd_of_lt (Nat.lt_of_add_right_lt fits)] at behind
      exact inductionHypothesis behind fits

theorem Tile.start_le_offset
    (tile : Tile bits reported start fields stop)
    (fits : start + rooms fields reported < 2 ^ bits) {field : PlacedField}
    (member : field ∈ fields) :
    start ≤ field.offset.eval reported bits := by
  obtain ⟨earlier, later, split⟩ := List.append_of_mem member
  have before : start + rooms earlier reported < 2 ^ bits := by
    simp only [split, rooms, List.map_append, List.sum_append] at fits ⊢
    omega
  rw [tile.offset_eq split before]
  exact Nat.le_add_right _ _

/-- Where all of them fit the words, tiles do not overlap, and no tile starts before an
earlier one. -/
theorem Tile.pairwise
    (tile : Tile bits reported start fields stop)
    (fits : start + rooms fields reported < 2 ^ bits) :
    fields.Pairwise fun first second =>
      first.offset.eval reported bits + first.room reported ≤
        second.offset.eval reported bits := by
  induction fields generalizing start with
  | nil => exact List.Pairwise.nil
  | cons first rest inductionHypothesis =>
      obtain ⟨here, behind⟩ := tile
      rw [rooms_cons, ← Nat.add_assoc] at fits
      rw [wrappingAdd_of_lt (Nat.lt_of_add_right_lt fits)] at behind
      apply List.Pairwise.cons
      · intro second member
        rw [here]
        exact behind.start_le_offset fits member
      · exact inductionHypothesis behind fits

end Tile

end PlacedField

/-! ## The planner's chain -/

namespace Layout

/-- Placed fields form a chain from an offset to an offset: each stands at the offset
that the ones before it lead to, and the length that a composite reports is the next
one. -/
inductive Chain (add : Nat → Nat → Nat) :
    Offset → List PlacedField → Offset → Prop
  | nil (start : Offset) : Chain add start [] start
  | cons {start stop : Offset} {name : String} {access : Access}
      {rest : List PlacedField}
      (numbered :
        ∀ length, access.length? = some length →
          length.index = start.lengths.length)
      (behind : Chain add (start.past add access.width) rest stop) :
      Chain add start ({ name, access, offset := start } :: rest) stop

namespace Chain

variable {add : Nat → Nat → Nat} {start stop : Offset}
  {placed earlier later : List PlacedField}

theorem append
    (chain : Chain add start placed stop) (split : placed = earlier ++ later) :
    ∃ between,
      Chain add start earlier between ∧ Chain add between later stop := by
  subst split
  induction earlier generalizing start with
  | nil => exact ⟨start, .nil start, chain⟩
  | cons field earlier inductionHypothesis =>
      cases chain with
      | cons numbered behind =>
          obtain ⟨between, before, after⟩ := inductionHypothesis behind
          exact ⟨between, .cons numbered before, after⟩

/-- The fields before a field of the chain lead to its offset. -/
private theorem to_field
    {field : PlacedField} (chain : Chain add start placed stop)
    (split : placed = earlier ++ field :: later) :
    Chain add start earlier field.offset := by
  obtain ⟨between, before, after⟩ := chain.append split
  cases after with
  | cons numbered behind => exact before

theorem tile
    {bits : Nat} (chain : Chain (wrappingAdd bits) start placed stop)
    (reported : List Nat) :
    PlacedField.Tile bits reported (start.eval reported bits) placed
      (stop.eval reported bits) := by
  induction chain with
  | nil start => rfl
  | cons numbered behind inductionHypothesis =>
      refine ⟨rfl, ?_⟩
      rw [Offset.eval_past] at inductionHypothesis
      exact inductionHypothesis

theorem lengths_stop (chain : Chain add start placed stop) :
    stop.lengths = start.lengths ++ PlacedField.lengths placed := by
  induction chain with
  | nil start => exact (List.append_nil _).symm
  | cons numbered behind inductionHypothesis =>
      rw [inductionHypothesis, Offset.lengths_past, PlacedField.lengths_cons,
        List.append_assoc]

private theorem covers_after
    {access : Access} {count : Nat} (covers : start.Covers count)
    (numbered :
      ∀ length, access.length? = some length →
        length.index = start.lengths.length) :
    (start.past add access.width).Covers
      (count + access.length?.toList.length) := by
  cases access with
  | composite name operation length =>
      have next : length = { index := count } := by
        rw [← covers.length_lengths, ← numbered length rfl]
      rw [next]
      exact covers.plus
  | _ => exact covers

/-- Counting on from an offset that adds the first lengths of a table, a chain leads
to one that adds as many more as the fields report. -/
theorem covers
    (chain : Chain add start placed stop) {count : Nat}
    (startCovers : start.Covers count) :
    stop.Covers (count + (PlacedField.lengths placed).length) := by
  induction chain generalizing count with
  | nil start => exact startCovers
  | cons numbered behind inductionHypothesis =>
      have counted := inductionHypothesis (covers_after startCovers numbered)
      rw [PlacedField.lengths_cons, List.length_append, ← Nat.add_assoc]
      exact counted

end Chain

end Layout

/-- Nothing is added at the start of a record. -/
theorem Offset.covers_zero : ({} : Offset).Covers 0 :=
  rfl

/-! ## What the planner makes of the kinds -/

def FieldKind.isComposite : FieldKind → Bool
  | composite _ _ => true
  | _ => false

namespace Layout

variable {add : Nat → Nat → Nat} {record : String} {variant : Variant}
  {fields : List ClassifiedField} {start stop : Offset}
  {placed : List PlacedField}

/-- The offsets and widths of fields that are placed from an offset on, and the offset
behind them.  No variant plays a part. -/
def tiling (add : Nat → Nat → Nat) (start : Offset) :
    List ClassifiedField → List (Offset × Width) × Offset
  | [] => ([], start)
  | field :: rest =>
      let width := field.kind.width start.lengths.length
      let (others, stop) := tiling add (start.past add width) rest
      ((start, width) :: others, stop)

private theorem length?_of_access
    {next : Nat} {field : ClassifiedField} {access : Access}
    (accessed : Layout.access record variant next field = .ok access) :
    access.length? =
      if field.kind.isComposite then some { index := next } else none := by
  rw [access.length?_eq_reported?, width_of_access accessed]
  cases field.kind <;> rfl

theorem chain_of_placeFrom
    (done : placeFrom add record variant start fields = .ok (placed, stop)) :
    Chain add start placed stop := by
  induction fields generalizing start placed with
  | nil =>
      cases done
      exact .nil _
  | cons field rest inductionHypothesis =>
      obtain ⟨access, others, accessed, behind, rfl⟩ :=
        placeFrom_cons_eq_ok.mp done
      refine .cons ?_ (inductionHypothesis behind)
      intro length reports
      rw [length?_of_access accessed] at reports
      split at reports <;> cases reports
      rfl

private theorem forall₂_known_of_placeFrom
    (done : placeFrom add record variant start fields = .ok (placed, stop)) :
    List.Forall₂
      (fun (field : ClassifiedField) (place : PlacedField) =>
        place.name = field.name ∧
          place.width.known? = field.kind.staticWidth?)
      fields placed := by
  induction fields generalizing start placed with
  | nil =>
      cases done
      exact List.Forall₂.nil
  | cons field rest inductionHypothesis =>
      obtain ⟨access, others, accessed, behind, rfl⟩ :=
        placeFrom_cons_eq_ok.mp done
      refine List.Forall₂.cons ⟨rfl, ?_⟩ (inductionHypothesis behind)
      rw [PlacedField.width, width_of_access accessed, FieldKind.width]
      cases field.kind.staticWidth? <;> rfl

private theorem length_lengths_of_placeFrom
    (done : placeFrom add record variant start fields = .ok (placed, stop)) :
    (PlacedField.lengths placed).length =
      fields.countP fun field => field.kind.isComposite := by
  induction fields generalizing start placed with
  | nil =>
      cases done
      rfl
  | cons field rest inductionHypothesis =>
      obtain ⟨access, others, accessed, behind, rfl⟩ :=
        placeFrom_cons_eq_ok.mp done
      have counted := inductionHypothesis behind
      rw [PlacedField.lengths_cons, List.length_append, counted,
        length?_of_access accessed, List.countP_cons, Nat.add_comm]
      cases field.kind.isComposite <;> rfl

private theorem tiling_of_placeFrom
    (done : placeFrom add record variant start fields = .ok (placed, stop)) :
    (placed.map fun field => (field.offset, field.width), stop) =
      tiling add start fields := by
  induction fields generalizing start placed with
  | nil =>
      cases done
      rfl
  | cons field rest inductionHypothesis =>
      obtain ⟨access, others, accessed, behind, rfl⟩ :=
        placeFrom_cons_eq_ok.mp done
      have followed := inductionHypothesis behind
      rw [width_of_access accessed] at followed
      rw [tiling, ← followed, List.map_cons, PlacedField.width,
        width_of_access accessed]

/-- Where the known sizes fit the words, a machine places fields as in numbers. -/
private theorem placeFrom_wrappingAdd
    {bits : Nat}
    (fits :
      start.base + (fields.map fun field => field.kind.staticWidth).sum <
        2 ^ bits) :
    placeFrom (wrappingAdd bits) record variant start fields =
      placeFrom (· + ·) record variant start fields := by
  induction fields generalizing start with
  | nil => rfl
  | cons field rest inductionHypothesis =>
      rw [List.map_cons, List.sum_cons, ← Nat.add_assoc] at fits
      rw [placeFrom, placeFrom]
      cases accessed : access record variant start.lengths.length field with
      | error cause => rfl
      | ok reached =>
          have samePlace :
              start.past (wrappingAdd bits) reached.width =
                start.past (· + ·) reached.width := by
            rw [width_of_access accessed]
            exact start.past_wrappingAdd (Nat.lt_of_add_right_lt fits)
          rw [← start.base_past _ start.lengths.length,
            ← width_of_access accessed] at fits
          show
            (placeFrom (wrappingAdd bits) record variant _ rest >>= _) =
              placeFrom (· + ·) record variant _ rest >>= _
          rw [samePlace, inductionHypothesis fits]

/-- Where the known sizes fit the words, a machine plans a layout as in numbers. -/
theorem planWrapping_eq_plan
    {bits : Nat}
    (fits : (fields.map fun field => field.kind.staticWidth).sum < 2 ^ bits) :
    planWrapping bits record fields variant = plan record fields variant := by
  rw [← Nat.zero_add (List.sum _)] at fits
  rw [planWrapping, plan, layOut, layOut, placeFrom_wrappingAdd fits]

/-! ## Tiled layouts -/

structure Arranges (layout : Layout) (fields : List ClassifiedField) : Prop where
  /-- The fields are placed in order, under their names, and with the widths that
  are known. -/
  placed :
    List.Forall₂
      (fun (field : ClassifiedField) (place : PlacedField) =>
        place.name = field.name ∧
          place.width.known? = field.kind.staticWidth?)
      fields layout.fields
  /-- The composites report the lengths with the numbers from one on, in order. -/
  numbered :
    (PlacedField.lengths layout.fields).map LengthVar.number =
      List.range' 1 (fields.countP fun field => field.kind.isComposite)
  /-- The total adds the length of every composite, in order. -/
  total_lengths : layout.total.lengths = PlacedField.lengths layout.fields
  /-- The offset of a field adds the lengths of the composites before it. -/
  offset_lengths :
    ∀ earlier field later,
      layout.fields = earlier ++ field :: later →
        field.offset.lengths = PlacedField.lengths earlier

/-- A layout tiles a record with the given fields, on a machine with words of `bits`
bits. -/
structure Tiles (bits : Nat) (layout : Layout) (fields : List ClassifiedField) :
    Prop extends layout.Arranges fields where
  /-- The offset of a field has its value as soon as the composites before it have
  reported. -/
  offset_settled :
    ∀ earlier field later,
      layout.fields = earlier ++ field :: later →
        ∀ reported,
          field.offset.eval
              (reported.take (PlacedField.lengths earlier).length) bits =
            field.offset.eval reported bits
  /-- From the start of the record to the total each field starts where the one
  before it ends. -/
  tile :
    ∀ reported,
      PlacedField.Tile bits reported 0 layout.fields
        (layout.total.eval reported bits)
  /-- A field starts behind all the bytes of the fields before it, where these fit the
  words. -/
  offset_exact :
    ∀ reported earlier field later,
      layout.fields = earlier ++ field :: later →
        PlacedField.rooms earlier reported < 2 ^ bits →
          field.offset.eval reported bits = PlacedField.rooms earlier reported
  /-- The total counts all the bytes, where these fit the words. -/
  total_exact :
    ∀ reported,
      PlacedField.rooms layout.fields reported < 2 ^ bits →
        layout.total.eval reported bits =
          PlacedField.rooms layout.fields reported
  /-- As far as the fields fit the words, none starts before an earlier one has
  ended. -/
  apart :
    ∀ reported earlier later,
      layout.fields = earlier ++ later →
        PlacedField.rooms earlier reported < 2 ^ bits →
          earlier.Pairwise fun first second =>
            first.offset.eval reported bits + first.room reported ≤
              second.offset.eval reported bits

theorem arranges_of_placeFrom
    (done : placeFrom add record variant {} fields = .ok (placed, stop)) :
    Arranges { record, variant, fields := placed, total := stop } fields := by
  have chain := chain_of_placeFrom done
  have totalLengths := chain.lengths_stop
  rw [List.nil_append] at totalLengths
  refine
    { placed := forall₂_known_of_placeFrom done
      numbered := ?_
      total_lengths := totalLengths
      offset_lengths := ?_ }
  · have counted := chain.covers Offset.covers_zero
    rw [Nat.zero_add, length_lengths_of_placeFrom done] at counted
    rw [← totalLengths, counted, List.map_map, List.range'_eq_map_range]
    apply List.map_congr_left
    intro index _
    exact Nat.add_comm index 1
  · intro earlier field later split
    have lengths := (chain.to_field split).lengths_stop
    rw [List.nil_append] at lengths
    exact lengths

theorem tiles_of_placeFrom
    {bits : Nat}
    (done :
      placeFrom (wrappingAdd bits) record variant {} fields =
        .ok (placed, stop)) :
    Tiles bits { record, variant, fields := placed, total := stop } fields := by
  have chain := chain_of_placeFrom done
  have tile : ∀ reported,
      PlacedField.Tile bits reported 0 placed (stop.eval reported bits) := by
    intro reported
    have tile := chain.tile reported
    rw [Offset.eval_zero] at tile
    exact tile
  refine
    { arranges_of_placeFrom done with
      offset_settled := ?_
      tile := tile
      offset_exact := ?_
      total_exact := ?_
      apart := ?_ }
  · intro earlier field later split reported
    have counted := (chain.to_field split).covers Offset.covers_zero
    rw [Nat.zero_add] at counted
    exact counted.eval_take reported bits
  · intro reported earlier field later split fits
    rw [← Nat.zero_add (PlacedField.rooms _ _)] at fits ⊢
    exact (tile reported).offset_eq split fits
  · intro reported fits
    rw [← Nat.zero_add (PlacedField.rooms _ _)] at fits ⊢
    exact (tile reported).stop_eq fits
  · intro reported earlier later split fits
    obtain ⟨between, before, _⟩ := chain.append split
    have tile := before.tile reported
    rw [Offset.eval_zero] at tile
    rw [← Nat.zero_add (PlacedField.rooms _ _)] at fits
    exact tile.pairwise fits

end Layout

namespace Drawing

/-- The fields of a record with two composites between numbers. -/
def frameFields : List ClassifiedField :=
  [{ name := "dashed", kind := .byte false },
    { name := "start"
      kind := .composite "Point" { littleEndian := true, bigEndian := true } },
    { name := "length", kind := .integer { width := 2, signed := false } },
    { name := "end"
      kind := .composite "Point" { littleEndian := true, bigEndian := true } },
    { name := "colour"
      kind := .enum "Colour" { width := 1, signed := true } }]

/-- The frame as a machine with words of 64 bits plans it. -/
def plannedFrame (order : ByteOrder) : Except GenerateError Layout :=
  Layout.planWrapping 64 "Frame" frameFields { order, suffixed := true }

end Drawing

namespace Layout

end Layout

end PackedRecord
