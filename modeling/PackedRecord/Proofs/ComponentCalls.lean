import PackedRecord.Proofs.ComponentLaw
import PackedRecord.Proofs.NestedCalls

/-!
# Calls on components

A procedure calls on enums and composites by name.  For a compiled record every such
call finds what the registry declared under the name, and it asks a composite for the
operation that the composite's contract selects for the variant at hand, whichever
way the procedure runs.

The same is said of runs without looking at a statement: composites that misbehave
under every other operation can take the place of the bound ones, and no run of the
variant tells the difference.
-/

namespace PackedRecord

/-! ## Calls in procedures -/

/-- What a field calls on is bound to the answer of the registry.  A composite is
called with the operation that its contract offers and selects for the variant. -/
def RecordCodec.Binds (codec : RecordCodec) (registry : Registry)
    (variant : Variant) : Access → Prop
  | .integer _ _ => True
  | .byte _ => True
  | .enum typeName _ _ =>
      ∃ declaration,
        registry.get? typeName = some (.enum declaration) ∧
          codec.enum typeName = .ok declaration
  | .composite typeName operation _ =>
      ∃ target,
        registry.get? typeName = some (.bound typeName target) ∧
          (∀ operationName,
            codec.composite typeName operationName = .ok target) ∧
            target.contract.offers operation = true ∧
              target.contract.select variant = some operation

private theorem Layout.Places.exists_reaches
    {types : Registry} {order : ByteOrder} {start stop : Offset}
    {placed : List PlacedField} {stored : List StoredField}
    (places : Layout.Places types order start placed stored stop)
    {field : PlacedField} (member : field ∈ placed) :
    ∃ made ∈ stored, ∃ next,
      field.access.Reaches types order next made.storage := by
  induction places with
  | nil => cases member
  | cons name reaches rest inductionHypothesis =>
      rcases List.mem_cons.mp member with same | later
      · rw [same]
        exact ⟨_, List.mem_cons_self, _, reaches⟩
      · obtain ⟨made, inRest, next, reachesThere⟩ := inductionHypothesis later
        exact ⟨made, List.mem_cons_of_mem _ inRest, next, reachesThere⟩

namespace RecordCodec

section Compiled

variable {schema : Schema} {registry : Registry} {options : GenerateOptions}
  {codec : RecordCodec}

private theorem binds_of_reaches
    (compiled : compile schema registry options = .ok codec)
    {variant : Variant} {order : ByteOrder} {next : Nat} {access : Access}
    {storage : Storage}
    (reaches : access.Reaches codec.types order next storage)
    (boundIn : storage.BoundIn codec.types variant) :
    codec.Binds registry variant access := by
  have bound := boundFrom_of_compile compiled
  cases reaches with
  | integer type => trivial
  | byte signed => trivial
  | @enum declaration underlying found =>
      refine ⟨declaration, bound _ _ found, ?_⟩
      rw [RecordCodec.enum, found]
  | @composite typeName declared target operation found =>
      have named : declared = typeName := Registry.name_of_get? found
      obtain ⟨_, _, _, selected⟩ := boundIn
      rw [named] at found
      refine ⟨target, bound _ _ found, ?_, Contract.offers_of_select selected,
        selected⟩
      intro operationName
      rw [RecordCodec.composite, found]

/-- Every field that a called procedure touches is bound. -/
theorem binds_of_touch
    (compiled : compile schema registry options = .ok codec)
    {operation : Operation} {pair : CodecPair}
    (answers : codec.generated.pair? operation = some pair)
    {direction : Direction} {field : PlacedField}
    (touched : direction.touch field ∈ (pair.procedure direction).body) :
    codec.Binds registry pair.variant field.access := by
  have serves : codec.variant? operation = some pair.variant := by
    rw [variant?, answers]
    rfl
  obtain ⟨planned, placed, stored, total, answersHere, storedFields, places,
    same⟩ := layout_of_compile compiled serves
  cases answers.symm.trans answersHere
  rw [same, Layout.procedure_emit, Layout.touch_mem_body_iff] at touched
  obtain ⟨made, member, next, reaches⟩ := places.exists_reaches touched
  exact binds_of_reaches compiled reaches
    (boundIn_of_compile compiled storedFields made member)

end Compiled

end RecordCodec

/-! ## Composites that are confined to one operation -/

/-- The composite as the contract's selection for a variant makes it: under any other
operation another composite acts in its place. -/
def Composite.confined (target instead : Composite) (variant : Variant) :
    Composite where
  contract := target.contract
  decode operation :=
    if target.contract.select variant = some operation then
      target.decode operation
    else
      instead.decode operation
  encode operation :=
    if target.contract.select variant = some operation then
      target.encode operation
    else
      instead.encode operation
  encode_keepsLength operation value := by
    split
    · exact target.encode_keepsLength operation value
    · exact instead.encode_keepsLength operation value

def TypeDecl.confined (variant : Variant) (instead : String → Composite) :
    TypeDecl → TypeDecl
  | .enum declaration => .enum declaration
  | .contractOnly name contract => .contractOnly name contract
  | .bound name target => .bound name (target.confined (instead name) variant)

def Registry.confined (registry : Registry) (variant : Variant)
    (instead : String → Composite) : Registry where
  declarations :=
    registry.declarations.map (TypeDecl.confined variant instead)

def RecordCodec.confined (codec : RecordCodec) (variant : Variant)
    (instead : String → Composite) : RecordCodec :=
  { codec with types := codec.types.confined variant instead }

private theorem Registry.get?_confined
    (registry : Registry) (variant : Variant) (instead : String → Composite)
    (name : String) :
    (registry.confined variant instead).get? name =
      (registry.get? name).map (TypeDecl.confined variant instead) := by
  have named :
      ((fun declaration : TypeDecl => declaration.name == name) ∘
          TypeDecl.confined variant instead) =
        fun declaration : TypeDecl => declaration.name == name := by
    funext declaration
    cases declaration <;> rfl
  rw [get?, Registry.confined, List.find?_map, named, get?]

/-- The storages take and give the same at every cursor. -/
structure Storage.ActsLike (first second : Storage) : Prop where
  staticWidth_eq : first.staticWidth = second.staticWidth
  decodeAt_eq : ∀ order buffer cursor,
    first.decodeAt order buffer cursor = second.decodeAt order buffer cursor
  encodeAt_eq : ∀ order field value cursor,
    first.encodeAt order field value cursor =
      second.encodeAt order field value cursor

theorem Storage.ActsLike.refl (storage : Storage) : storage.ActsLike storage where
  staticWidth_eq := rfl
  decodeAt_eq _ _ _ := rfl
  encodeAt_eq _ _ _ _ := rfl

namespace Composite

variable {target : Composite} {variant : Variant} {operation : Operation}

private theorem decode_confined
    (selected : target.contract.select variant = some operation)
    (instead : Composite) :
    (target.confined instead variant).decode operation =
      target.decode operation :=
  if_pos selected

private theorem encode_confined
    (selected : target.contract.select variant = some operation)
    (instead : Composite) :
    (target.confined instead variant).encode operation =
      target.encode operation :=
  if_pos selected

/-- Under the selected operation nothing shows that a composite is confined. -/
private theorem actsLike_confined
    (selected : target.contract.select variant = some operation)
    (instead : Composite) :
    (Storage.composite target operation).ActsLike
      (.composite (target.confined instead variant) operation) where
  staticWidth_eq := rfl
  decodeAt_eq order buffer cursor := by
    rw [Storage.decodeAt, Storage.decodeAt, decode_confined selected]
  encodeAt_eq order field value cursor := by
    rw [Storage.encodeAt, Storage.encodeAt, encode_confined selected]

end Composite

/-- The fields have one name, and their storages act alike. -/
def StoredField.ActsLike (first second : StoredField) : Prop :=
  first.name = second.name ∧ first.storage.ActsLike second.storage

namespace StoredField

variable {first second : List StoredField}
  (alike : List.Forall₂ ActsLike first second)
include alike

private theorem staticWidth_of_actsLike : staticWidth first = staticWidth second := by
  induction alike with
  | nil => rfl
  | cons acts _ inductionHypothesis =>
      rw [staticWidth_cons, staticWidth_cons, acts.2.staticWidth_eq,
        inductionHypothesis]

private theorem decodeFields_of_actsLike
    (order : ByteOrder) (buffer : Bytes) (cursor : Nat) :
    decodeFields order buffer cursor first =
      decodeFields order buffer cursor second := by
  induction alike generalizing cursor with
  | nil => rfl
  | cons acts rest inductionHypothesis =>
      have sameWidth := staticWidth_of_actsLike (List.Forall₂.cons acts rest)
      rw [decodeFields, decodeFields, sameWidth, acts.2.decodeAt_eq, acts.1]
      simp only [inductionHypothesis]

private theorem encodeFields_of_actsLike
    (order : ByteOrder) (record : Record) (cursor : Nat) :
    encodeFields order record cursor first =
      encodeFields order record cursor second := by
  induction alike generalizing cursor with
  | nil => rfl
  | @cons field other _ _ acts rest inductionHypothesis =>
      have sameWidth := staticWidth_of_actsLike (List.Forall₂.cons acts rest)
      have sameField :
          field.encodeAt order record cursor =
            other.encodeAt order record cursor := by
        rw [encodeAt, encodeAt, acts.1]
        cases record.get? other.name with
        | none => rfl
        | some value => exact acts.2.encodeAt_eq _ _ _ _
      rw [encodeFields, encodeFields, sameWidth, sameField]
      simp only [inductionHypothesis]

end StoredField

section Confined

variable {types : Registry} {variant : Variant} {order : ByteOrder}
  (instead : String → Composite)

theorem Access.Reaches.confined
    {next : Nat} {access : Access} {storage : Storage}
    (reaches : access.Reaches types order next storage)
    (boundIn : storage.BoundIn types variant) :
    ∃ other,
      access.Reaches (types.confined variant instead) order next other ∧
        storage.ActsLike other := by
  cases reaches with
  | integer type => exact ⟨_, .integer type, .refl _⟩
  | byte signed => exact ⟨_, .byte signed, .refl _⟩
  | enum underlying found =>
      refine ⟨_, .enum underlying ?_, .refl _⟩
      rw [Registry.get?_confined, found]
      rfl
  | @composite typeName declared target operation found =>
      obtain ⟨_, _, _, selected⟩ := boundIn
      have foundConfined :
          (types.confined variant instead).get? typeName =
            some
              (.bound declared (target.confined (instead declared) variant)) := by
        rw [Registry.get?_confined, found]
        rfl
      exact ⟨_, .composite operation foundConfined,
        Composite.actsLike_confined selected (instead declared)⟩

theorem Layout.Places.confined
    {start stop : Offset} {placed : List PlacedField}
    {stored : List StoredField}
    (places : Layout.Places types order start placed stored stop)
    (boundIn : ∀ made ∈ stored, made.storage.BoundIn types variant) :
    ∃ others,
      Layout.Places (types.confined variant instead) order start placed others
          stop ∧
        List.Forall₂ StoredField.ActsLike stored others := by
  induction places with
  | nil start => exact ⟨[], .nil start, .nil⟩
  | cons name reaches rest inductionHypothesis =>
      obtain ⟨other, reachesOther, acts⟩ :=
        reaches.confined instead (boundIn _ List.mem_cons_self)
      obtain ⟨others, placesRest, alike⟩ :=
        inductionHypothesis fun made member =>
          boundIn made (List.mem_cons_of_mem _ member)
      exact ⟨{ name, storage := other } :: others,
        .cons name reachesOther placesRest, .cons ⟨rfl, acts⟩ alike⟩

namespace RecordCodec

variable {schema : Schema} {registry : Registry} {options : GenerateOptions}
  {codec : RecordCodec} {operation : Operation}
  (compiled : compile schema registry options = .ok codec)
  (serves : codec.variant? operation = some variant)
include compiled serves

/-- Whatever the bound composites do under operations that the variant does not
select, the runs of the variant are the same. -/
theorem runs_of_confined :
    (codec.confined variant instead).decode operation =
        codec.decode operation ∧
      (codec.confined variant instead).encode operation =
        codec.encode operation := by
  obtain ⟨pair, placed, stored, total, answers, storedFields, places, same⟩ :=
    layout_of_compile compiled serves
  have boundIn := boundIn_of_compile compiled storedFields
  obtain ⟨others, placesOthers, alike⟩ := places.confined instead boundIn
  rw [same] at answers
  have runs : codec.RunsLike operation variant.order stored :=
    runsLike_of_places answers places
  have answersConfined :
      (codec.confined variant instead).generated.pair? operation = some _ :=
    answers
  have runsConfined :
      (codec.confined variant instead).RunsLike operation variant.order
        others :=
    runsLike_of_places answersConfined placesOthers
  constructor
  · funext buffer
    rw [runsConfined.decode_eq, runs.decode_eq,
      StoredField.decodeFields_of_actsLike alike]
  · funext record before
    rw [runsConfined.encode_eq, runs.encode_eq,
      StoredField.encodeFields_of_actsLike alike]

end RecordCodec

end Confined

end PackedRecord
