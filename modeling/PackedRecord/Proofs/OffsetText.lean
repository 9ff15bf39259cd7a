import PackedRecord.Proofs.ReadableText

/-!
# Offsets read back

An offset is printed as a sum, in rendered source and elsewhere, and the two differ in how
they treat a base of zero.  Both texts are read here as a reader would: cut at the plus
signs, each summand a decimal number or the name of a reported length, and added up, in
the words of a machine or as numbers.  What comes out is the value of the offset there, or
its sum.
-/

namespace PackedRecord

/-! ## Cutting at a separator -/

namespace Text

open String.Slice.Pattern String.Slice.Pattern.Model

section Split

variable {mark : Char} {separator : String}
  (begins : separator.toList.head? = some mark)
include begins

private theorem mem_of_starts_with_separator
    {front behind rest : String} (nonempty : front ≠ "")
    (same : separator ++ rest = front ++ behind) :
    mark ∈ front.toList := by
  have starts : (front ++ behind).toList.head? = some mark := by
    rw [← same]
    exact head?_append_text begins rest
  rw [String.toList_append] at starts
  cases letters : front.toList with
  | nil => exact absurd (String.toList_eq_nil_iff.mp letters) nonempty
  | cons first others =>
      rw [letters, List.cons_append, List.head?_cons, Option.some.injEq]
        at starts
      rw [starts]
      exact List.mem_cons_self

section Block

variable {text : String.Slice} {start stop : text.Pos}
  {before block behind : String} (starts : start.Splits before (block ++ behind))
  (stops : stop.Splits (before ++ block) behind)
include starts stops

omit begins in
private theorem copy_subslice (ordered : start ≤ stop) :
    (text.subslice start stop ordered).toSlice.copy = block := by
  obtain ⟨_, same⟩ :=
    String.Slice.copy_slice_eq_iff_splits.mpr ⟨before, behind, starts, stops⟩
  exact same

/-- The separator does not match inside of a block that is free of its first character. -/
private theorem not_matchesAt_in_block
    (free : Free mark block) {position : text.Pos} (atLeast : start ≤ position)
    (below : position < stop) :
    ¬ MatchesAt separator position := by
  intro matched
  obtain ⟨passed, rest, splits⟩ :=
    ForwardStringSearcher.matchesAt_iff_splits.mp matched
  obtain ⟨skipped, samePassed, _⟩ :=
    (starts.le_iff_exists_eq_append splits).mp atLeast
  obtain ⟨left, nonempty, sameBlock, sameRest⟩ :=
    (splits.lt_iff_exists_eq_append stops).mp below
  rw [samePassed, String.append_assoc, String.append_right_inj] at sameBlock
  have marked := mem_of_starts_with_separator begins nonempty sameRest
  rw [sameBlock, free_append_iff] at free
  exact free.2 marked

private theorem modelSplit_block
    [StrictPatternModel separator] (free : Free mark block)
    (ordered : start ≤ stop) :
    Model.split separator start start (Std.le_refl start) =
      Model.split separator start stop ordered :=
  split_eq_of_not_matchesAt stop ordered fun _ =>
    not_matchesAt_in_block begins starts stops free

end Block

/-- A text of blocks between separators is cut into these blocks, from any position on. -/
private theorem modelSplit_intercalate
    [StrictPatternModel separator] {text : String.Slice} {blocks : List String}
    (nonempty : blocks ≠ []) (free : ∀ block ∈ blocks, Free mark block)
    {start : text.Pos} {before : String}
    (starts : start.Splits before (separator.intercalate blocks)) :
    (Model.split separator start start (Std.le_refl start)).map
        (fun piece => piece.toSlice.copy) =
      blocks := by
  induction blocks generalizing start before with
  | nil => exact absurd rfl nonempty
  | cons block rest inductionHypothesis =>
      have blockFree := free block List.mem_cons_self
      cases rest with
      | nil =>
          rw [String.intercalate_singleton] at starts
          have stops : text.endPos.Splits (before ++ block) "" := by
            rw [← starts.eq_append]
            exact text.splits_endPos
          rw [← String.append_empty (s := block)] at starts
          have ordered : start ≤ text.endPos := start.le_endPos
          rw [modelSplit_block begins starts stops blockFree ordered,
            split_endPos, List.map_cons, List.map_nil,
            copy_subslice starts stops ordered]
      | cons second last =>
          rw [String.intercalate_cons_cons, String.append_assoc] at starts
          have stops := starts.splits_rotateRight
          have next := stops.splits_rotateRight
          have ordered : start ≤ starts.rotateRight :=
            (starts.le_iff_exists_eq_append stops).mpr ⟨block, rfl, rfl⟩
          have matched :
              IsLongestMatchAt separator starts.rotateRight
                stops.rotateRight :=
            ForwardStringSearcher.isLongestMatchAt_iff_splits.mpr
              ⟨_, _, stops, next⟩
          have others :=
            inductionHypothesis (List.cons_ne_nil _ _)
              (fun later member => free later (List.mem_cons_of_mem _ member))
              next
          rw [modelSplit_block begins starts stops blockFree ordered,
            split_eq_of_isLongestMatchAt matched, List.map_cons,
            copy_subslice starts stops ordered, others]

theorem split_intercalate
    {blocks : List String} (nonempty : blocks ≠ [])
    (free : ∀ block ∈ blocks, Free mark block) :
    ((separator.intercalate blocks).split separator).toList.map
        String.Slice.copy =
      blocks := by
  have separates : separator ≠ "" := by
    intro empty
    rw [empty] at begins
    cases begins
  have := ForwardStringSearcher.strictPatternModel separates
  have := ForwardStringSearcher.lawfulToForwardSearcherModel separates
  rw [String.split_eq_split_toSlice,
    String.Slice.toList_split_eq_splitToSubslice,
    toList_splitToSubslice_eq_modelSplit, List.map_map]
  apply modelSplit_intercalate begins nonempty free
  have starts := (separator.intercalate blocks).toSlice.splits_startPos
  rw [String.copy_toSlice] at starts
  exact starts

end Split

end Text

/-! ## Reading a sum -/

namespace Offset

open Text Source

/-- The number that a summand stands for under a table of reported lengths: a decimal
number stands for itself, and `len_` with a number for the length reported in that place,
counted from one.  A length that is not reported counts as zero. -/
def summand? (reported : List Nat) (summand : String) : Option Nat :=
  match summand.toList with
  | 'l' :: 'e' :: 'n' :: '_' :: digits =>
      match digits? digits with
      | some (index + 1) => some (reported.getD index 0)
      | _ => none
  | digits => digits? digits

/-- The numbers that the summands of a text stand for, in order. -/
def summands? (reported : List Nat) (text : String) : Option (List Nat) :=
  ((text.split " + ").toList.map String.Slice.copy).mapM (summand? reported)

/-- The number that a text stands for: that of its summands, added up. -/
def sum? (reported : List Nat) (text : String) : Option Nat :=
  (summands? reported text).map List.sum

/-- The number that a text stands for on a machine with words of `bits` bits, which adds the
summands up as it adds sizes. -/
def eval? (bits : Nat) (reported : List Nat) (text : String) : Option Nat :=
  (summands? reported text).map (wrappingSum bits 0)

section Reading

variable (reported : List Nat)

private theorem summand?_decimal (number : Nat) :
    summand? reported (decimal number) = some number := by
  have noLetter : 'l' ∉ (decimal number).toList := free_letter_decimal number
  unfold summand?
  split
  · next digits named =>
      rw [named] at noLetter
      exact absurd List.mem_cons_self noLetter
  · rw [toList_decimal, digits?_toDigits]

private theorem summand?_name (length : LengthVar) :
    summand? reported length.name = some (length.value reported) := by
  have letters :
      length.name.toList =
        'l' :: 'e' :: 'n' :: '_' :: Nat.toDigits 10 (length.index + 1) := by
    rw [LengthVar.name, String.toList_append, toList_decimal]
    rfl
  unfold summand?
  rw [letters]
  simp only [digits?_toDigits]
  rfl

private theorem mapM_summand?_names (lengths : List LengthVar) :
    (lengths.map LengthVar.name).mapM (summand? reported) =
      some (lengths.map fun length => length.value reported) := by
  rw [mapM_eq_some_iff, List.forall₂_map_left_iff, List.forall₂_map_right_iff,
    List.forall₂_same]
  intro length _
  exact summand?_name reported length

/-- Words between plus signs are read one by one. -/
private theorem summands?_intercalate
    {words : List String} (nonempty : words ≠ [])
    (areWords : ∀ word ∈ words, Word word) :
    summands? reported (" + ".intercalate words) =
      words.mapM (summand? reported) := by
  have begins : " + ".toList.head? = some ' ' := by
    decide
  have free : ∀ word ∈ words, Free ' ' word :=
    fun word member => (areWords word member).free (by decide)
  rw [summands?, split_intercalate begins nonempty free]

/-- An empty text has a summand that stands for nothing. -/
private theorem summands?_empty : summands? reported "" = none := by
  have alone := summands?_intercalate reported (List.cons_ne_nil "" []) (by decide)
  rw [String.intercalate_singleton] at alone
  exact alone

end Reading

/-! ## The texts of an offset -/

/-- The text is read as the summands of the offset; a base of zero may be left out. -/
def IsReadFrom (offset : Offset) (reported : List Nat) (text : String) : Prop :=
  summands? reported text =
      some (offset.base :: offset.reportedLengths reported) ∨
    offset.base = 0 ∧
      summands? reported text = some (offset.reportedLengths reported)

namespace IsReadFrom

variable {offset : Offset} {reported : List Nat} {text : String}
  (read : offset.IsReadFrom reported text)
include read

/-- However the summands are added up, a zero among them must make no difference. -/
private theorem map_summands?
    {addUp : List Nat → Nat}
    (zero : ∀ numbers, addUp (0 :: numbers) = addUp numbers) :
    (summands? reported text).map addUp =
      some (addUp (offset.base :: offset.reportedLengths reported)) := by
  cases read with
  | inl whole => rw [whole, Option.map_some]
  | inr shortened =>
      obtain ⟨noBase, others⟩ := shortened
      rw [others, noBase, zero, Option.map_some]

theorem sum?_eq : sum? reported text = some (offset.sum reported) := by
  have zero : ∀ numbers : List Nat, (0 :: numbers).sum = numbers.sum := by
    intro numbers
    rw [List.sum_cons, Nat.zero_add]
  rw [sum?, read.map_summands? zero, List.sum_cons, sum]

theorem eval?_eq (bits : Nat) :
    eval? bits reported text = some (offset.eval reported bits) := by
  have zero :
      ∀ numbers, wrappingSum bits 0 (0 :: numbers) = wrappingSum bits 0 numbers :=
    fun numbers => wrappingSum_cons 0
  rw [eval?, read.map_summands? zero, wrappingSum_cons, Nat.zero_add, eval]

theorem ne_empty : text ≠ "" := by
  intro empty
  rw [IsReadFrom, empty, summands?_empty] at read
  rcases read with none | ⟨_, none⟩ <;> cases none

end IsReadFrom

section Texts

variable (offset : Offset) (reported : List Nat)

theorem isReadFrom_text : offset.IsReadFrom reported offset.text := by
  left
  rw [text, summands?_intercalate reported (List.cons_ne_nil _ _)
    fun _ => word_of_mem_base_names, mapM_eq_some_iff, List.forall₂_cons,
    ← mapM_eq_some_iff]
  exact ⟨summand?_decimal reported offset.base,
    mapM_summand?_names reported offset.lengths⟩

theorem isReadFrom_sourceText :
    offset.IsReadFrom reported offset.sourceText := by
  by_cases leftOut : offset.base = 0 ∧ offset.lengths ≠ []
  · have named : offset.lengths.map LengthVar.name ≠ [] := by
      simpa using leftOut.2
    refine .inr ⟨leftOut.1, ?_⟩
    rw [sourceText, if_pos leftOut, summands?_intercalate reported named
      fun _ => word_of_mem_names]
    exact mapM_summand?_names reported offset.lengths
  · rw [sourceText, if_neg leftOut]
    exact isReadFrom_text offset reported

end Texts

theorem text_inj {offset other : Offset} (same : offset.text = other.text) :
    offset = other := by
  have begins : " + ".toList.head? = some ' ' := by
    decide
  have free : ∀ (base : Nat) (lengths : List LengthVar),
      ∀ summand ∈ decimal base :: lengths.map LengthVar.name,
        Free ' ' summand :=
    fun _ _ _ member => (word_of_mem_base_names member).free (by decide)
  apply eq_of_base_names
  exact
    intercalate_inj begins (List.cons_ne_nil _ _) (List.cons_ne_nil _ _)
      (free _ _) (free _ _) same

end Offset

end PackedRecord
