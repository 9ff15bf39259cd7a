import PackedRecord.FieldKind

/-!
# What a declared type means

Classification gives a field's type a meaning for the layout, or finds a fault in it.
Both are said here without the order in which classification looks: `TypeRef.Means`
lists what a type can mean, `Field.Faulty` what can be wrong with it.  A type has a
meaning or a fault, classification finds the one or reports the other, and nothing
else has to open it.
-/

namespace PackedRecord

/-- The integers of one to eight bytes. -/
def Primitive.stored : List Primitive :=
  [.u8, .i8, .u16, .i16, .u32, .i32, .u64, .i64]

theorem IntegerType.ofPrimitive?_eq_none_iff {scalar : Primitive} :
    ofPrimitive? scalar = none ↔ scalar ∉ Primitive.stored := by
  cases scalar <;> decide

namespace Contract

/-- A variant finds a pair that it can call: the unsuffixed one, or the one of its own
order. -/
def Usable (contract : Contract) (variant : Variant) : Prop :=
  contract.offers .generic = true ∨
    contract.offers (.ordered variant.order) = true

theorem isSome_select_iff {contract : Contract} {variant : Variant} :
    (contract.select variant).isSome = true ↔ contract.Usable variant := by
  rw [select, List.find?_isSome, preference, Usable]
  cases variant.suffixed <;> simp [or_comm]

theorem serves_iff {contract : Contract} {variants : List Variant} :
    contract.serves variants = true ↔
      ∀ variant ∈ variants, contract.Usable variant := by
  simp only [serves, List.all_eq_true, isSome_select_iff]

end Contract

def TypeDecl.contract? : TypeDecl → Option Contract
  | enum _ => none
  | contractOnly _ contract => some contract
  | bound _ composite => some composite.contract

/-- What a declared type means for the layout of a record with the given variants. -/
inductive TypeRef.Means (registry : Registry) (variants : List Variant) :
    TypeRef → FieldKind → Prop
  | byte {scalar : Primitive} {signed : Bool}
      (stored : IntegerType.ofPrimitive? scalar = some (.byte signed)) :
      Means registry variants (.primitive scalar) (.byte signed)
  | integer {scalar : Primitive} {type : IntegerType}
      (stored : IntegerType.ofPrimitive? scalar = some type)
      (wide : type.width ≠ 1) :
      Means registry variants (.primitive scalar) (.integer type)
  | enum {typeName : String} {declaration : EnumDecl} {underlying : IntegerType}
      (found : registry.get? typeName = some (.enum declaration))
      (stored :
        IntegerType.ofPrimitive? declaration.representation =
          some underlying) :
      Means registry variants (.named typeName) (.enum typeName underlying)
  | composite {typeName : String} {declaration : TypeDecl} {contract : Contract}
      (found : registry.get? typeName = some declaration)
      (offered : declaration.contract? = some contract)
      (usable : ∀ variant ∈ variants, contract.Usable variant) :
      Means registry variants (.named typeName) (.composite typeName contract)

namespace Field

/-- The type of a field has no meaning for the record's variants, for the given
cause. -/
inductive Faulty (record : String) (registry : Registry)
    (variants : List Variant) (field : Field) : GenerateError → Prop
  | array {element : TypeRef} {length : Nat}
      (type : field.type = .array element length) :
      Faulty record registry variants field
        (.unsupportedType record field.name field.type.text)
  | scalar {scalar : Primitive} (type : field.type = .primitive scalar)
      (other : scalar ∉ Primitive.stored) :
      Faulty record registry variants field
        (.unsupportedType record field.name field.type.text)
  | enum {typeName : String} {declaration : EnumDecl}
      (type : field.type = .named typeName)
      (found : registry.get? typeName = some (.enum declaration))
      (other : declaration.representation ∉ Primitive.stored) :
      Faulty record registry variants field
        (.unsupportedType record field.name field.type.text)
  | unknown {typeName : String} (type : field.type = .named typeName)
      (absent : registry.get? typeName = none) :
      Faulty record registry variants field
        (.missingContract record field.name typeName)
  | composite {typeName : String} {declaration : TypeDecl}
      {contract : Contract} {variant : Variant}
      (type : field.type = .named typeName)
      (found : registry.get? typeName = some declaration)
      (offered : declaration.contract? = some contract)
      (member : variant ∈ variants) (unusable : ¬ contract.Usable variant) :
      Faulty record registry variants field
        (.missingContract record field.name typeName)

section Classify

variable {record : String} {registry : Registry} {variants : List Variant}
  {field : Field}

private theorem classify_of_composite
    {typeName : String} {declaration : TypeDecl} {contract : Contract}
    (type : field.type = .named typeName)
    (found : registry.get? typeName = some declaration)
    (offered : declaration.contract? = some contract) :
    field.classify record registry variants =
      if contract.serves variants then
        .ok (.composite typeName contract)
      else
        .error (.missingContract record field.name typeName) := by
  simp only [classify, type, found]
  cases declaration <;> cases offered <;> rfl

theorem classify_of_means
    {kind : FieldKind} (means : field.type.Means registry variants kind) :
    field.classify record registry variants = .ok kind := by
  generalize type : field.type = declared at means
  cases means with
  | byte stored =>
      simp only [classify, type, stored]
      exact if_pos rfl
  | integer stored wide =>
      simp only [classify, type, stored]
      exact if_neg wide
  | enum found stored =>
      simp only [classify, type, found, stored]
  | composite found offered usable =>
      rw [classify_of_composite type found offered]
      exact if_pos (Contract.serves_iff.mpr usable)

private theorem classify_of_faulty
    {cause : GenerateError}
    (faulty : field.Faulty record registry variants cause) :
    field.classify record registry variants = .error cause := by
  cases faulty with
  | array type => simp only [classify, type]
  | scalar type other =>
      have absent := IntegerType.ofPrimitive?_eq_none_iff.mpr other
      simp only [classify, type, absent]
  | enum type found other =>
      have absent := IntegerType.ofPrimitive?_eq_none_iff.mpr other
      simp only [classify, type, found, absent]
  | unknown type absent => simp only [classify, type, absent]
  | composite type found offered member unusable =>
      rw [classify_of_composite type found offered]
      apply if_neg
      intro serves
      exact unusable (Contract.serves_iff.mp serves _ member)

private theorem means_or_faulty (field : Field) (record : String) (registry : Registry)
    (variants : List Variant) :
    (∃ kind, field.type.Means registry variants kind) ∨
      ∃ cause, field.Faulty record registry variants cause := by
  cases type : field.type with
  | array element length => exact Or.inr ⟨_, .array type⟩
  | primitive scalar =>
      cases stored : IntegerType.ofPrimitive? scalar with
      | none =>
          have other := IntegerType.ofPrimitive?_eq_none_iff.mp stored
          exact Or.inr ⟨_, .scalar type other⟩
      | some integer =>
          left
          rcases integer with ⟨width, signed⟩
          by_cases single : width = 1
          · subst single
            exact ⟨_, .byte stored⟩
          · exact ⟨_, .integer stored single⟩
  | named typeName =>
      cases found : registry.get? typeName with
      | none => exact Or.inr ⟨_, .unknown type found⟩
      | some declaration =>
          cases offered : declaration.contract? with
          | none =>
              cases declaration with
              | enum declaration =>
                  cases stored :
                      IntegerType.ofPrimitive? declaration.representation with
                  | none =>
                      have other :=
                        IntegerType.ofPrimitive?_eq_none_iff.mp stored
                      exact Or.inr ⟨_, .enum type found other⟩
                  | some underlying => exact Or.inl ⟨_, .enum found stored⟩
              | contractOnly name contract => cases offered
              | bound name composite => cases offered
          | some contract =>
              by_cases usable : ∀ variant ∈ variants, contract.Usable variant
              · exact Or.inl ⟨_, .composite found offered usable⟩
              · obtain ⟨variant, unserved⟩ := Classical.not_forall.mp usable
                obtain ⟨member, unusable⟩ := Classical.not_imp.mp unserved
                exact Or.inr ⟨_, .composite type found offered member unusable⟩

theorem classify_eq_ok_iff {kind : FieldKind} :
    field.classify record registry variants = .ok kind ↔
      field.type.Means registry variants kind := by
  constructor
  · intro classified
    rcases field.means_or_faulty record registry variants with
      ⟨other, means⟩ | ⟨cause, faulty⟩
    · cases (classify_of_means means).symm.trans classified
      exact means
    · cases (classify_of_faulty faulty).symm.trans classified
  · exact classify_of_means

theorem classify_eq_error_iff {cause : GenerateError} :
    field.classify record registry variants = .error cause ↔
      field.Faulty record registry variants cause := by
  constructor
  · intro refused
    rcases field.means_or_faulty record registry variants with
      ⟨kind, means⟩ | ⟨other, faulty⟩
    · cases (classify_of_means means).symm.trans refused
    · cases (classify_of_faulty faulty).symm.trans refused
      exact faulty
  · exact classify_of_faulty

end Classify

end Field

end PackedRecord
