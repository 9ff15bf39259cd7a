import Mathlib.Data.List.Nodup
import PackedRecord.Proofs.LengthTable
import PackedRecord.Proofs.Tiling

/-!
# Lengths are bound before they are used

An emitted procedure mentions reported lengths in three places: in the offsets, which
come from the planner, in the demands, which the emitter adds up itself, and in the
offset that is returned.  This module shows that the two sums stay in step: whatever a
statement mentions was bound by an earlier one, and a composite's own length comes
into use right behind it.

`Statement.InOrder` says this of statements that follow on others, by recursion on the
statements; the chain of placed fields carries it through the body of a procedure.
-/

namespace PackedRecord

namespace Statement

def bound? (statement : Statement) : Option LengthVar :=
  statement.field?.bind fun field => field.access.length?

def bound (statements : List Statement) : List LengthVar :=
  statements.filterMap bound?

def demand? : Statement → Option Offset
  | require size => some size
  | read _ => none
  | write _ => none
  | construct _ => none

/-- The statement with decoding in the place of encoding. -/
def decoding : Statement → Statement
  | require size => .require size
  | read field => .read field
  | write field => .read field
  | construct fields => .construct fields

/-- A statement is in place between the lengths that are bound before it and the
statements behind it: it mentions none but these lengths, and if it binds one, that
is the next one of the table, and a demand for the known size and all lengths bound
by then follows. -/
structure InPlace (size : Nat) (before : List LengthVar) (statement : Statement)
    (behind : List Statement) : Prop where
  mentions :
    ∀ offset, statement.offset? = some offset → offset.lengths ⊆ before
  binds :
    ∀ length,
      statement.bound? = some length →
        length.index = before.length ∧
          ∃ rest,
            behind =
              .require { base := size, lengths := before ++ [length] } :: rest

/-- Every statement is in place, when the given lengths are bound before the
first. -/
def InOrder (size : Nat) : List LengthVar → List Statement → Prop
  | _, [] => True
  | before, statement :: rest =>
      statement.InPlace size before rest ∧
        InOrder size (before ++ statement.bound?.toList) rest

private theorem bound_eq (statements : List Statement) :
    bound statements =
      PlacedField.lengths (statements.filterMap field?) := by
  unfold bound PlacedField.lengths
  rw [List.filterMap_filterMap]
  rfl

theorem bound_cons (statement : Statement) (rest : List Statement) :
    bound (statement :: rest) = statement.bound?.toList ++ bound rest := by
  cases binds : statement.bound? with
  | none => exact List.filterMap_cons_none binds
  | some length => exact List.filterMap_cons_some binds

theorem InOrder.inPlace
    {size : Nat} {before : List LengthVar} {earlier behind : List Statement}
    {statement : Statement}
    (inOrder : InOrder size before (earlier ++ statement :: behind)) :
    statement.InPlace size (before ++ bound earlier) behind := by
  induction earlier generalizing before with
  | nil =>
      rw [bound, List.filterMap_nil, List.append_nil]
      exact inOrder.1
  | cons first rest inductionHypothesis =>
      have placed := inductionHypothesis inOrder.2
      rw [List.append_assoc, ← bound_cons] at placed
      exact placed

namespace InOrder

variable {size : Nat} {before : List LengthVar} {statement : Statement}
  {rest : List Statement}
  (mentions :
    ∀ offset, statement.offset? = some offset → offset.lengths ⊆ before)
include mentions

theorem cons_of_unbound
    (unbound : statement.bound? = none) (behind : InOrder size before rest) :
    InOrder size before (statement :: rest) := by
  refine ⟨⟨mentions, ?_⟩, ?_⟩
  · intro length binds
    rw [unbound] at binds
    cases binds
  · rw [unbound, Option.toList_none, List.append_nil]
    exact behind

private theorem cons_of_bound
    {length : LengthVar} (binds : statement.bound? = some length)
    (next : length.index = before.length)
    (behind : InOrder size (before ++ [length]) rest) :
    InOrder size before
      (statement ::
        .require { base := size, lengths := before ++ [length] } :: rest) := by
  refine ⟨⟨mentions, ?_⟩, ?_⟩
  · intro other same
    rw [binds] at same
    cases same
    exact ⟨next, rest, rfl⟩
  · rw [binds, Option.toList_some]
    refine cons_of_unbound ?_ rfl behind
    intro offset demanded
    cases demanded
    exact List.Subset.refl _

end InOrder

end Statement

namespace Direction

theorem field?_touch (direction : Direction) (field : PlacedField) :
    (direction.touch field).field? = some field := by
  cases direction <;> rfl

private theorem offset?_touch (direction : Direction) (field : PlacedField) :
    (direction.touch field).offset? = some field.offset := by
  cases direction <;> rfl

private theorem bound?_touch (direction : Direction) (field : PlacedField) :
    (direction.touch field).bound? = field.access.length? := by
  cases direction <;> rfl

private theorem demand?_touch (direction : Direction) (field : PlacedField) :
    (direction.touch field).demand? = none := by
  cases direction <;> rfl

/-! ## The statements that touch fields -/

variable (direction : Direction) (demanded : Offset)
  (fields : List PlacedField)

private theorem filterMap_field?_touchAll :
    (direction.touchAll demanded fields).filterMap Statement.field? =
      fields := by
  induction fields generalizing demanded with
  | nil => rfl
  | cons field rest inductionHypothesis =>
      have touched := direction.field?_touch field
      unfold touchAll
      cases field.access.length? with
      | none =>
          simp only [List.filterMap_cons_some touched, inductionHypothesis]
      | some length =>
          have demand :
              (Statement.require (demanded.plus length)).field? = none :=
            rfl
          simp only [List.filterMap_cons_some touched,
            List.filterMap_cons_none demand, inductionHypothesis]

private theorem filterMap_field?_closing :
    (direction.closing fields).filterMap Statement.field? = [] := by
  cases direction <;> rfl

theorem mem_touchAll
    {statement : Statement}
    (member : statement ∈ direction.touchAll demanded fields) :
    (∃ size, statement = .require size) ∨
      ∃ field, statement = direction.touch field := by
  induction fields generalizing demanded with
  | nil => cases member
  | cons field rest inductionHypothesis =>
      unfold touchAll at member
      cases reports : field.access.length? with
      | none =>
          simp only [reports, List.mem_cons] at member
          rcases member with touches | later
          · exact Or.inr ⟨field, touches⟩
          · exact inductionHypothesis demanded later
      | some length =>
          simp only [reports, List.mem_cons] at member
          rcases member with touches | demands | later
          · exact Or.inr ⟨field, touches⟩
          · exact Or.inl ⟨_, demands⟩
          · exact inductionHypothesis _ later

/-- The last demand covers the lengths of all composites. -/
private theorem getLast?_demands_touchAll :
    (demanded ::
          (direction.touchAll demanded fields).filterMap
            Statement.demand?).getLast? =
      some
        { demanded with
          lengths := demanded.lengths ++ PlacedField.lengths fields } := by
  induction fields generalizing demanded with
  | nil =>
      rw [PlacedField.lengths, List.filterMap_nil, List.append_nil]
      rfl
  | cons field rest inductionHypothesis =>
      have touched := direction.demand?_touch field
      unfold touchAll
      rw [PlacedField.lengths_cons]
      cases field.access.length? with
      | none =>
          simp only [List.filterMap_cons_none touched, inductionHypothesis]
          rfl
      | some length =>
          have demand :
              (Statement.require (demanded.plus length)).demand? =
                some (demanded.plus length) :=
            rfl
          simp only [List.filterMap_cons_none touched]
          rw [List.filterMap_cons_some demand, List.getLast?_cons_cons,
            inductionHypothesis, Offset.plus, List.append_assoc]
          rfl

private theorem filterMap_demand?_closing :
    (direction.closing fields).filterMap Statement.demand? = [] := by
  cases direction <;> rfl

private theorem map_decoding_touchAll :
    (Direction.encode.touchAll demanded fields).map Statement.decoding =
      Direction.decode.touchAll demanded fields := by
  induction fields generalizing demanded with
  | nil => rfl
  | cons field rest inductionHypothesis =>
      unfold touchAll
      cases field.access.length? with
      | none =>
          simp only [List.map_cons, inductionHypothesis]
          rfl
      | some length =>
          simp only [List.map_cons, inductionHypothesis]
          rfl

private theorem inOrder_closing (size : Nat) (before : List LengthVar) :
    Statement.InOrder size before (direction.closing fields) := by
  cases direction with
  | encode => trivial
  | decode =>
      refine .cons_of_unbound ?_ rfl trivial
      intro offset mentioned
      cases mentioned

end Direction

namespace Layout

/-- Along a chain of fields the planner's offsets and the emitter's demands add the
same lengths, namely those bound so far. -/
theorem Chain.inOrder
    {start stop : Offset} {placed : List PlacedField}
    (chain : Chain (· + ·) start placed stop) (direction : Direction) {size : Nat}
    {demanded : Offset} (base : demanded.base = size)
    (inStep : demanded.lengths = start.lengths)
    {closing : List Statement}
    (closes : ∀ before, Statement.InOrder size before closing) :
    Statement.InOrder size start.lengths
      (direction.touchAll demanded placed ++ closing) := by
  induction chain generalizing demanded with
  | nil start => exact closes start.lengths
  | @cons start stop name access rest numbered behind inductionHypothesis =>
      have mentions :
          ∀ offset,
            (direction.touch { name, access, offset := start }).offset? =
                some offset →
              offset.lengths ⊆ start.lengths := by
        intro offset mentioned
        rw [direction.offset?_touch] at mentioned
        cases mentioned
        exact List.Subset.refl _
      have bound := direction.bound?_touch { name, access, offset := start }
      rw [Offset.lengths_past] at inductionHypothesis
      unfold Direction.touchAll
      cases reports : access.length? with
      | none =>
          rw [reports] at bound inductionHypothesis
          rw [Option.toList_none, List.append_nil] at inductionHypothesis
          exact .cons_of_unbound mentions bound
            (inductionHypothesis base inStep)
      | some length =>
          rw [reports] at bound inductionHypothesis
          have grown :
              demanded.plus length =
                { base := size, lengths := start.lengths ++ [length] } := by
            rw [Offset.plus, base, inStep]
          simp only [grown]
          exact .cons_of_bound mentions bound (numbered length reports)
            (inductionHypothesis rfl rfl)

end Layout

/-! ## Emitted procedures -/

/-- A procedure goes through a layout and binds every length before it is used. -/
structure Procedure.GoesThrough (procedure : Procedure) (layout : Layout) :
    Prop where
  /-- First of all the size that is known beforehand is demanded. -/
  opens :
    ∃ rest,
      procedure.body = .require (.constant layout.staticSize) :: rest
  /-- The fields are touched in order, each once. -/
  touches : procedure.body.filterMap Statement.field? = layout.fields
  /-- All fields are touched in the direction of the procedure. -/
  directed :
    ∀ statement ∈ procedure.body, ∀ field,
      statement.field? = some field →
        statement = procedure.direction.touch field
  /-- The composites bind their lengths, and no length is bound twice. -/
  binds : Statement.bound procedure.body = PlacedField.lengths layout.fields
  once : (Statement.bound procedure.body).Nodup
  /-- A statement mentions lengths that earlier statements bind.  If it binds one
  itself, it is the next one of the table, and all lengths bound by then are demanded
  right behind it. -/
  inPlace :
    ∀ earlier statement behind,
      procedure.body = earlier ++ statement :: behind →
        statement.InPlace layout.staticSize (Statement.bound earlier) behind
  /-- A composite's offset does not mention the composite's own length. -/
  apart :
    ∀ statement ∈ procedure.body, ∀ length offset,
      statement.bound? = some length →
        statement.offset? = some offset → length ∉ offset.lengths
  /-- The total is returned.  It mentions lengths that are bound, and it was demanded
  last. -/
  total : procedure.returns = layout.total
  returns : procedure.returns.lengths ⊆ Statement.bound procedure.body
  demands :
    (procedure.body.filterMap Statement.demand?).getLast? =
      some procedure.returns

namespace Layout

variable {record : String} {fields : List ClassifiedField} {variant : Variant}
  {layout : Layout}

theorem chain_of_plan (planned : plan record fields variant = .ok layout) :
    Chain (· + ·) {} layout.fields layout.total := by
  simp only [plan, layOut, bind_eq_ok, pure_eq_ok, Prod.exists] at planned
  obtain ⟨placed, total, done, rfl⟩ := planned
  exact chain_of_placeFrom done

theorem arranges_of_plan (planned : plan record fields variant = .ok layout) :
    layout.Arranges fields := by
  simp only [plan, layOut, bind_eq_ok, pure_eq_ok, Prod.exists] at planned
  obtain ⟨placed, total, done, rfl⟩ := planned
  exact arranges_of_placeFrom done

theorem Arranges.nodup_lengths (arranges : layout.Arranges fields) :
    (PlacedField.lengths layout.fields).Nodup := by
  apply List.Nodup.of_map LengthVar.number
  rw [arranges.numbered]
  exact List.nodup_range'

section Body

variable (layout : Layout) (naming : Naming) (direction : Direction)

theorem filterMap_field?_body :
    (layout.procedure naming direction).body.filterMap Statement.field? =
      layout.fields := by
  have demand :
      (Statement.require (.constant layout.staticSize)).field? = none :=
    rfl
  rw [procedure, List.filterMap_cons_none demand, List.filterMap_append,
    direction.filterMap_field?_touchAll, direction.filterMap_field?_closing,
    List.append_nil]

private theorem touch_of_mem_body
    {statement : Statement} {field : PlacedField}
    (member : statement ∈ (layout.procedure naming direction).body)
    (touches : statement.field? = some field) :
    statement = direction.touch field := by
  rw [procedure, List.mem_cons, List.mem_append] at member
  rcases member with opens | inside | closes
  · rw [opens] at touches
    cases touches
  · rcases direction.mem_touchAll _ _ inside with ⟨_, demands⟩ | ⟨other, same⟩
    · rw [demands] at touches
      cases touches
    · rw [same, direction.field?_touch] at touches
      cases touches
      exact same
  · have none :=
      List.filterMap_eq_nil_iff.mp
        (direction.filterMap_field?_closing layout.fields) statement closes
    rw [none] at touches
    cases touches

private theorem getLast?_demands_body :
    ((layout.procedure naming direction).body.filterMap
          Statement.demand?).getLast? =
      some
        { base := layout.staticSize
          lengths := PlacedField.lengths layout.fields } := by
  have demand :
      (Statement.require (.constant layout.staticSize)).demand? =
        some (.constant layout.staticSize) :=
    rfl
  rw [procedure, List.filterMap_cons_some demand, List.filterMap_append,
    direction.filterMap_demand?_closing, List.append_nil,
    direction.getLast?_demands_touchAll]
  rfl

end Body

theorem procedure_goesThrough
    (planned : plan record fields variant = .ok layout) (naming : Naming)
    (direction : Direction) :
    (layout.procedure naming direction).GoesThrough layout := by
  have chain := chain_of_plan planned
  have arranges := arranges_of_plan planned
  have inOrder :
      Statement.InOrder layout.staticSize []
        (layout.procedure naming direction).body := by
    have base :
        (Offset.constant layout.staticSize).base = layout.staticSize :=
      rfl
    have behind :=
      chain.inOrder direction base rfl
        (direction.inOrder_closing layout.fields layout.staticSize)
    refine .cons_of_unbound ?_ rfl behind
    intro offset demanded
    cases demanded
    exact List.Subset.refl _
  have bound :
      Statement.bound (layout.procedure naming direction).body =
        PlacedField.lengths layout.fields := by
    rw [Statement.bound_eq, layout.filterMap_field?_body]
  have returned :
      (layout.procedure naming direction).returns =
        { base := layout.staticSize
          lengths := PlacedField.lengths layout.fields } := by
    rw [← arranges.total_lengths, procedure, staticSize]
  have inPlace :
      ∀ earlier statement behind,
        (layout.procedure naming direction).body =
            earlier ++ statement :: behind →
          statement.InPlace layout.staticSize (Statement.bound earlier)
            behind := by
    intro earlier statement behind split
    rw [split] at inOrder
    exact inOrder.inPlace
  have once :
      (Statement.bound (layout.procedure naming direction).body).Nodup := by
    rw [bound]
    exact arranges.nodup_lengths
  refine
    { opens := ⟨_, rfl⟩
      touches := layout.filterMap_field?_body naming direction
      directed := ?_
      binds := bound
      once := once
      inPlace := inPlace
      apart := ?_
      total := rfl
      returns := ?_
      demands := ?_ }
  · intro statement member field touches
    exact layout.touch_of_mem_body naming direction member touches
  · intro statement member length offset binds mentioned inside
    obtain ⟨earlier, behind, split⟩ := List.append_of_mem member
    have earlierBinds :=
      (inPlace earlier statement behind split).mentions offset mentioned inside
    rw [split, Statement.bound, List.filterMap_append,
      List.filterMap_cons_some binds] at once
    exact (List.nodup_append.mp once).2.2 length earlierBinds length
      List.mem_cons_self rfl
  · rw [returned, bound]
    exact List.Subset.refl _
  · rw [returned]
    exact layout.getLast?_demands_body naming direction

private theorem construct_not_mem_encode
    (layout : Layout) (naming : Naming) (names : List String) :
    .construct names ∉ (layout.procedure naming .encode).body := by
  intro member
  rw [procedure, List.mem_cons, List.mem_append] at member
  rcases member with opens | inside | closes
  · cases opens
  · rcases Direction.encode.mem_touchAll _ _ inside with ⟨_, demands⟩ | ⟨_, same⟩
    · cases demands
    · cases same
  · cases closes

/-- The procedures of a planned layout go through it, each statement in its place
behind the lengths that it mentions, and decoding is encoding with each step replaced,
closed by the construction of the record. -/
theorem emit_binds_before_use
    (planned : plan record fields variant = .ok layout) (naming : Naming) :
    (∀ direction,
        ((layout.emit naming).procedure direction).GoesThrough layout) ∧
      (layout.emit naming).decode.body =
          (layout.emit naming).encode.body.map Statement.decoding ++
            [.construct (layout.fields.map PlacedField.name)] ∧
        ∀ names, .construct names ∉ (layout.emit naming).encode.body := by
  refine ⟨?_, ?_, ?_⟩
  · intro direction
    rw [procedure_emit]
    exact procedure_goesThrough planned naming direction
  · simp only [emit, procedure, Direction.closing, List.append_nil,
      List.map_cons, Direction.map_decoding_touchAll]
    rfl
  · exact layout.construct_not_mem_encode naming

/-- The procedures of the frame demand four bytes, then these and the first length,
and at last both lengths too. -/
theorem emit_binds_before_use_of_frame :
    ∃ layout,
      plan "Frame" Drawing.frameFields { order := .big, suffixed := true } =
          .ok layout ∧
        ((layout.emit {}).procedure .decode).GoesThrough layout ∧
          (layout.emit {}).encode.body.filterMap Statement.demand? =
              [{ base := 4 }, { base := 4, lengths := [⟨0⟩] },
                { base := 4, lengths := [⟨0⟩, ⟨1⟩] }] ∧
            (layout.emit {}).decode.body =
              (layout.emit {}).encode.body.map Statement.decoding ++
                [.construct ["dashed", "start", "length", "end", "colour"]] := by
  obtain ⟨layout, planned, demands, names⟩ :
      ∃ layout,
        plan "Frame" Drawing.frameFields { order := .big, suffixed := true } =
            .ok layout ∧
          (layout.emit {}).encode.body.filterMap Statement.demand? =
              [{ base := 4 }, { base := 4, lengths := [⟨0⟩] },
                { base := 4, lengths := [⟨0⟩, ⟨1⟩] }] ∧
            layout.fields.map PlacedField.name =
              ["dashed", "start", "length", "end", "colour"] :=
    ⟨_, rfl, rfl, rfl⟩
  obtain ⟨goesThrough, mirrored, _⟩ := emit_binds_before_use planned {}
  rw [names] at mirrored
  exact ⟨layout, planned, goesThrough .decode, demands, mirrored⟩

end Layout

end PackedRecord
