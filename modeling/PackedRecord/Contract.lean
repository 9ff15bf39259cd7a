import PackedRecord.ByteOrder

/-!
# Contracts of composite types

A composite type decodes and encodes itself.  Its contract says which operations
it offers; a record that nests it selects one of them for each of its own
variants.
-/

namespace PackedRecord

/-- The operations a composite type offers. -/
structure Contract where
  generic : Bool := false
  littleEndian : Bool := false
  bigEndian : Bool := false
  deriving DecidableEq, Repr

namespace Contract

def offers (contract : Contract) : Operation → Bool
  | .generic => contract.generic
  | .ordered .little => contract.littleEndian
  | .ordered .big => contract.bigEndian

def offering (contract : Contract) : Operation → Contract
  | .generic => { contract with generic := true }
  | .ordered .little => { contract with littleEndian := true }
  | .ordered .big => { contract with bigEndian := true }

/-- The contract that offers exactly the listed operations. -/
def ofOperations (operations : List Operation) : Contract :=
  operations.foldl offering {}

/-- The operations a variant would call on a nested composite, best first.  A
suffixed variant prefers the pair of its own order; an unsuffixed one prefers
the unsuffixed pair. -/
def preference (variant : Variant) : List Operation :=
  if variant.suffixed then
    [.ordered variant.order, .generic]
  else
    [.generic, .ordered variant.order]

/-- The operation a variant calls, if the contract offers a usable one. -/
def select (contract : Contract) (variant : Variant) : Option Operation :=
  (preference variant).find? contract.offers

/-- Whether every one of the variants finds an operation in the contract. -/
def serves (contract : Contract) (variants : List Variant) : Bool :=
  variants.all fun variant => (contract.select variant).isSome

@[simp]
theorem offers_offering
    (contract : Contract) (added operation : Operation) :
    (contract.offering added).offers operation =
      (contract.offers operation || decide (operation = added)) := by
  rcases added with _ | _ | _ <;> rcases operation with _ | _ | _ <;>
    simp [offering, offers]

private theorem offers_foldl_offering
    (operations : List Operation) (contract : Contract)
    (operation : Operation) :
    (operations.foldl offering contract).offers operation =
      (contract.offers operation || operations.contains operation) := by
  induction operations generalizing contract with
  | nil => simp
  | cons first rest inductionHypothesis =>
      simp [inductionHypothesis, Bool.or_assoc]

/-- A contract built from operations offers exactly those. -/
@[simp]
theorem offers_ofOperations
    (operations : List Operation) (operation : Operation) :
    (ofOperations operations).offers operation =
      operations.contains operation := by
  rw [ofOperations, offers_foldl_offering]
  rcases operation with _ | _ | _ <;> simp [offers]

/-- What a contract selects, it offers. -/
theorem offers_of_select
    {contract : Contract} {variant : Variant} {operation : Operation}
    (selected : contract.select variant = some operation) :
    contract.offers operation = true :=
  List.find?_some selected

end Contract

end PackedRecord
