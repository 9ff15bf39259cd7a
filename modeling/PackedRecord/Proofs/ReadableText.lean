import PackedRecord.Offset
import PackedRecord.Proofs.Refusals
import PackedRecord.Proofs.RenderedLines

/-!
# Texts that are read back

Rendered source consists of words and of fixed pieces between them.  A piece starts with
a character that no word has, so the words before it can be cut off, and the text is read
from left to right.  This module says how to cut, and which characters the words of
rendered source are made of.
-/

namespace PackedRecord

namespace Text

/-! ## Cutting -/

def Free (mark : Char) (text : String) : Prop :=
  mark ∉ text.toList

instance (mark : Char) (text : String) : Decidable (Free mark text) :=
  inferInstanceAs (Decidable (¬ _))

@[simp]
theorem free_append_iff {mark : Char} {front back : String} :
    Free mark (front ++ back) ↔ Free mark front ∧ Free mark back := by
  simp [Free, not_or]

theorem head?_append_text
    {front : String} {first : Char} (begins : front.toList.head? = some first)
    (back : String) :
    (front ++ back).toList.head? = some first := by
  rw [String.toList_append, List.head?_append, begins, Option.some_or]

/-- What stands before a character for the first time is determined by the whole. -/
theorem cut_at_mark
    {mark : Char} {front other back ending : String} (free : Free mark front)
    (otherFree : Free mark other) (begins : back.toList.head? = some mark)
    (otherBegins : ending.toList.head? = some mark)
    (same : front ++ back = other ++ ending) :
    front = other ∧ back = ending := by
  have noRest :
      ∀ {between rest : List Char},
        (between ++ rest).head? = some mark → mark ∉ between → between = [] := by
    intro between rest starts free
    cases between with
    | nil => rfl
    | cons first others =>
        rw [List.cons_append, List.head?_cons, Option.some.injEq] at starts
        rw [starts] at free
        exact absurd List.mem_cons_self free
  have lists := congrArg String.toList same
  rw [String.toList_append, String.toList_append] at lists
  rcases List.append_eq_append_iff.mp lists with
    ⟨between, longer, rest⟩ | ⟨between, longer, rest⟩
  · rw [rest] at begins
    rw [Free, longer, List.mem_append, not_or] at otherFree
    rw [noRest begins otherFree.2, List.append_nil] at longer
    have sameFront := String.toList_inj.mp longer.symm
    rw [sameFront] at same
    exact ⟨sameFront, (String.append_right_inj other).mp same⟩
  · rw [rest] at otherBegins
    rw [Free, longer, List.mem_append, not_or] at free
    rw [noRest otherBegins free.2, List.append_nil] at longer
    have sameFront := String.toList_inj.mp longer
    rw [sameFront] at same
    exact ⟨sameFront, (String.append_right_inj other).mp same⟩

/-- What stands before a fixed piece can be cut off, if it is free of the piece's first
character. -/
theorem cut_at_piece
    (mark : Char) {front other piece back ending : String}
    (begins : piece.toList.head? = some mark) (free : Free mark front)
    (otherFree : Free mark other)
    (same : front ++ (piece ++ back) = other ++ (piece ++ ending)) :
    front = other ∧ back = ending := by
  obtain ⟨sameFront, rest⟩ :=
    cut_at_mark free otherFree (head?_append_text begins back)
      (head?_append_text begins ending) same
  exact ⟨sameFront, (String.append_right_inj piece).mp rest⟩

/-- Texts that start with one of some pieces start with the same one, if no piece is
the beginning of another. -/
theorem eq_of_pieces
    {pieces : List String}
    (apart :
      ∀ first ∈ pieces, ∀ second ∈ pieces,
        first.toList <+: second.toList → first = second)
    {first second back ending : String} (member : first ∈ pieces)
    (otherMember : second ∈ pieces)
    (same : first ++ back = second ++ ending) :
    first = second ∧ back = ending := by
  have lists := congrArg String.toList same
  rw [String.toList_append, String.toList_append] at lists
  have starts : first.toList <+: second.toList ++ ending.toList := by
    rw [← lists]
    exact List.prefix_append _ _
  have samePiece : first = second := by
    rcases List.prefix_or_prefix_of_prefix starts (List.prefix_append _ _) with
      before | after
    · exact apart first member second otherMember before
    · exact (apart second otherMember first member after).symm
  rw [samePiece] at same
  exact ⟨samePiece, (String.append_right_inj second).mp same⟩

/-- The parts between separators are determined by the whole, if they are free of the
separator's first character. -/
theorem intercalate_inj
    {separator : String} {mark : Char}
    (begins : separator.toList.head? = some mark) {blocks others : List String}
    (nonempty : blocks ≠ []) (otherNonempty : others ≠ [])
    (free : ∀ block ∈ blocks, Free mark block)
    (otherFree : ∀ block ∈ others, Free mark block)
    (same : separator.intercalate blocks = separator.intercalate others) :
    blocks = others := by
  have marked : mark ∈ separator.toList := List.mem_of_mem_head? begins
  induction blocks generalizing others with
  | nil => exact absurd rfl nonempty
  | cons block rest inductionHypothesis =>
      obtain ⟨other, remaining, rfl⟩ := List.exists_cons_of_ne_nil otherNonempty
      have blockFree := free block List.mem_cons_self
      have otherBlockFree := otherFree other List.mem_cons_self
      cases rest with
      | nil =>
          cases remaining with
          | nil => simpa using same
          | cons second last =>
              -- The only block would hold the separator of the others.
              rw [String.intercalate_singleton, String.intercalate_cons_cons]
                at same
              rw [same] at blockFree
              simp only [free_append_iff] at blockFree
              exact absurd marked blockFree.1.2
      | cons second last =>
          cases remaining with
          | nil =>
              rw [String.intercalate_singleton, String.intercalate_cons_cons]
                at same
              rw [← same] at otherBlockFree
              simp only [free_append_iff] at otherBlockFree
              exact absurd marked otherBlockFree.1.2
          | cons another further =>
              rw [String.intercalate_cons_cons, String.intercalate_cons_cons,
                String.append_assoc, String.append_assoc] at same
              obtain ⟨sameBlock, sameRest⟩ :=
                cut_at_piece mark begins blockFree otherBlockFree same
              have sameOthers :=
                inductionHypothesis (List.cons_ne_nil _ _)
                  (List.cons_ne_nil _ _)
                  (fun later member => free later (List.mem_cons_of_mem _ member))
                  (fun later member =>
                    otherFree later (List.mem_cons_of_mem _ member))
                  sameRest
              rw [sameBlock, sameOthers]

theorem free_intercalate
    {mark : Char} {separator : String} (free : Free mark separator)
    {blocks : List String} (blocksFree : ∀ block ∈ blocks, Free mark block) :
    Free mark (separator.intercalate blocks) := by
  induction blocks with
  | nil => simp [Free]
  | cons block rest inductionHypothesis =>
      have here := blocksFree block List.mem_cons_self
      have behind :=
        inductionHypothesis fun later member =>
          blocksFree later (List.mem_cons_of_mem _ member)
      cases rest with
      | nil =>
          rw [String.intercalate_singleton]
          exact here
      | cons second last =>
          rw [String.intercalate_cons_cons, free_append_iff, free_append_iff]
          exact ⟨⟨here, free⟩, behind⟩

private theorem textOfLines_cons (line : String) (rest : List String) :
    Source.textOfLines (line :: rest) =
      line ++ ("\n" ++ Source.textOfLines rest) := by
  apply String.toList_inj.mp
  simp [Source.textOfLines, String.toList_join]

/-- The lines of a text are determined by the text. -/
theorem textOfLines_inj
    {lines others : List String} (free : ∀ line ∈ lines, Free '\n' line)
    (otherFree : ∀ line ∈ others, Free '\n' line)
    (same : Source.textOfLines lines = Source.textOfLines others) :
    lines = others := by
  have notEmpty : ∀ (line : String) (rest : List String),
      Source.textOfLines (line :: rest) ≠ "" := by
    intro line rest empty
    rw [textOfLines_cons] at empty
    simpa using congrArg String.toList empty
  induction lines generalizing others with
  | nil =>
      cases others with
      | nil => rfl
      | cons other remaining => exact absurd same.symm (notEmpty other remaining)
  | cons line rest inductionHypothesis =>
      cases others with
      | nil => exact absurd same (notEmpty line rest)
      | cons other remaining =>
          rw [textOfLines_cons, textOfLines_cons] at same
          obtain ⟨sameLine, sameRest⟩ :=
            cut_at_piece '\n' (by decide) (free line List.mem_cons_self)
              (otherFree other List.mem_cons_self) same
          have sameOthers :=
            inductionHypothesis
              (fun later member => free later (List.mem_cons_of_mem _ member))
              (fun later member => otherFree later (List.mem_cons_of_mem _ member))
              sameRest
          rw [sameLine, sameOthers]

end Text

/-- What is told of items one by one is told of lists of them. -/
theorem map_eq_of_map_eq
    {item line told : Type} {write : item → line} {tell : item → told}
    {legible : item → Prop}
    (reads :
      ∀ one other,
        legible one → legible other → write one = write other →
          tell one = tell other)
    {items others : List item} (each : ∀ one ∈ items, legible one)
    (otherEach : ∀ one ∈ others, legible one)
    (same : items.map write = others.map write) :
    items.map tell = others.map tell := by
  induction items generalizing others with
  | nil =>
      rw [List.map_eq_nil_iff.mp same.symm]
  | cons one rest inductionHypothesis =>
      cases others with
      | nil => cases same
      | cons other remaining =>
          obtain ⟨sameLine, sameRest⟩ := List.cons.inj same
          have first :=
            reads one other (each one List.mem_cons_self)
              (otherEach other List.mem_cons_self) sameLine
          have behind :=
            inductionHypothesis
              (fun later member => each later (List.mem_cons_of_mem _ member))
              (fun later member => otherEach later (List.mem_cons_of_mem _ member))
              sameRest
          rw [List.map_cons, List.map_cons, first, behind]

/-! ## Words -/

namespace Source

open Text

instance (character : Char) : Decidable (Letter character) :=
  inferInstanceAs (Decidable (_ ∧ _ ∨ _ ∧ _ ∨ _))

instance (character : Char) : Decidable (Digit character) :=
  inferInstanceAs (Decidable (_ ∧ _))

/-- A character of an identifier, or the mark of a raw one. -/
def WordCharacter (character : Char) : Prop :=
  Letter character ∨ Digit character ∨ character = '#'

instance (character : Char) : Decidable (WordCharacter character) :=
  inferInstanceAs (Decidable (_ ∨ _ ∨ _))

def Word (text : String) : Prop :=
  ∀ character ∈ text.toList, WordCharacter character

instance (text : String) : Decidable (Word text) :=
  List.decidableBAll WordCharacter text.toList

namespace Word

variable {front back text : String}

theorem append (word : Word front) (other : Word back) : Word (front ++ back) := by
  intro character member
  rw [String.toList_append, List.mem_append] at member
  rcases member with first | second
  · exact word character first
  · exact other character second

theorem free (word : Word text) {mark : Char} (noWord : ¬ WordCharacter mark) :
    Free mark text := by
  intro member
  exact noWord (word mark member)

end Word

theorem cut_word
    (mark : Char) {front other piece back ending : String}
    (begins : piece.toList.head? = some mark) (noWord : ¬ WordCharacter mark)
    (word : Word front) (otherWord : Word other)
    (same : front ++ (piece ++ back) = other ++ (piece ++ ending)) :
    front = other ∧ back = ending :=
  cut_at_piece mark begins (word.free noWord) (otherWord.free noWord) same

private theorem Identifier.letter_or_digit
    {name : String} (named : Identifier name) {character : Char}
    (member : character ∈ name.toList) :
    Letter character ∨ Digit character := by
  obtain ⟨first, rest, spelled, starts, goesOn⟩ := named
  rw [spelled] at member
  rcases List.mem_cons.mp member with rfl | later
  · exact Or.inl starts
  · exact goesOn character later

theorem Identifier.word {name : String} (named : Identifier name) : Word name := by
  intro character member
  rcases named.letter_or_digit member with letter | digit
  · exact Or.inl letter
  · exact Or.inr (Or.inl digit)

private theorem Identifier.free_hash {name : String} (named : Identifier name) :
    Free '#' name := by
  intro member
  have plain := named.letter_or_digit member
  revert plain
  decide

theorem word_decimal (number : Nat) : Word (decimal number) := by
  intro character member
  rw [toList_decimal] at member
  have digit : character.isDigit = true :=
    Nat.isDigit_of_mem_toDigits (by decide) (by decide) member
  have alphanumeric : (character.isAlphanum || character == '_') = true := by
    rw [Char.isAlphanum, digit, Bool.or_true, Bool.true_or]
  rcases letter_or_digit_iff.mp alphanumeric with letter | digit
  · exact Or.inl letter
  · exact Or.inr (Or.inl digit)

theorem word_memberName {name : String} (named : Identifier name) :
    Word (memberName name) := by
  unfold memberName
  split
  · exact Word.append (by decide) named.word
  · exact named.word

theorem word_localName {name : String} (named : Identifier name) :
    Word (localName name) := by
  unfold localName
  split
  · exact named.word.append (by decide)
  · exact word_memberName named

/-- Fields with different names are different members. -/
theorem memberName_inj
    {name other : String} (named : Identifier name)
    (otherNamed : Identifier other) (same : memberName name = memberName other) :
    name = other := by
  have raw : ∀ text : String, ¬ Free '#' ("r#" ++ text) := by
    intro text free
    have marked := (free_append_iff.mp free).1
    revert marked
    decide
  unfold memberName at same
  split at same
  · split at same
    · exact (String.append_right_inj _).mp same
    · have free := otherNamed.free_hash
      rw [← same] at free
      exact absurd free (raw name)
  · split at same
    · have free := named.free_hash
      rw [same] at free
      exact absurd free (raw other)
    · exact same

end Source

/-! ## Offsets -/

namespace Offset

open Text Source

theorem word_length (length : LengthVar) : Word length.name :=
  Word.append (by decide) (word_decimal length.number)

/-- The summands of the offset as rendered source writes them. -/
def summands (offset : Offset) : List String :=
  if offset.base = 0 ∧ offset.lengths ≠ [] then
    offset.lengths.map LengthVar.name
  else
    decimal offset.base :: offset.lengths.map LengthVar.name

theorem sourceText_eq (offset : Offset) :
    offset.sourceText = " + ".intercalate offset.summands := by
  unfold sourceText summands text
  split <;> rfl

theorem word_of_mem_names
    {lengths : List LengthVar} {summand : String}
    (member : summand ∈ lengths.map LengthVar.name) :
    Word summand := by
  obtain ⟨length, _, rfl⟩ := List.mem_map.mp member
  exact word_length length

theorem word_of_mem_base_names
    {base : Nat} {lengths : List LengthVar} {summand : String}
    (member : summand ∈ decimal base :: lengths.map LengthVar.name) :
    Word summand := by
  rcases List.mem_cons.mp member with rfl | later
  · exact word_decimal base
  · exact word_of_mem_names later

private theorem word_of_mem_summands
    {offset : Offset} {summand : String} (member : summand ∈ offset.summands) :
    Word summand := by
  unfold summands at member
  split at member
  · exact word_of_mem_names member
  · exact word_of_mem_base_names member

private theorem summands_ne_nil (offset : Offset) : offset.summands ≠ [] := by
  unfold summands
  split
  · next leftOut => simpa using leftOut.2
  · exact List.cons_ne_nil _ _

theorem decimal_inj {number other : Nat} (same : decimal number = decimal other) :
    number = other := by
  have digits := congrArg (fun text : String => digits? text.toList) same
  simpa using digits

theorem lengthName_inj
    {length other : LengthVar} (same : length.name = other.name) :
    length = other := by
  have numbers := decimal_inj ((String.append_right_inj _).mp same)
  obtain ⟨index⟩ := length
  obtain ⟨otherIndex⟩ := other
  simpa [LengthVar.number] using numbers

theorem free_letter_decimal (number : Nat) : Free 'l' (decimal number) := by
  intro letter
  rw [toList_decimal] at letter
  have digit : 'l'.isDigit = true :=
    Nat.isDigit_of_mem_toDigits (by decide) (by decide) letter
  revert digit
  decide

private theorem decimal_ne_lengthName (number : Nat) (length : LengthVar) :
    decimal number ≠ length.name := by
  intro same
  have free := free_letter_decimal number
  rw [same, LengthVar.name, free_append_iff] at free
  exact absurd free.1 (by decide)

private theorem map_lengthName_ne_decimal_cons
    (lengths : List LengthVar) (number : Nat) (rest : List String) :
    lengths.map LengthVar.name ≠ decimal number :: rest := by
  intro same
  cases lengths with
  | nil => cases same
  | cons length lengths =>
      exact decimal_ne_lengthName number length (List.cons.inj same).1.symm

private theorem map_lengthName_inj
    {lengths others : List LengthVar}
    (same : lengths.map LengthVar.name = others.map LengthVar.name) :
    lengths = others :=
  (List.map_inj_right fun _ _ => lengthName_inj).mp same

theorem eq_of_base_names
    {offset other : Offset}
    (same :
      decimal offset.base :: offset.lengths.map LengthVar.name =
        decimal other.base :: other.lengths.map LengthVar.name) :
    offset = other := by
  obtain ⟨base, lengths⟩ := offset
  obtain ⟨otherBase, others⟩ := other
  obtain ⟨sameBase, sameLengths⟩ := List.cons.inj same
  rw [Offset.mk.injEq]
  exact ⟨decimal_inj sameBase, map_lengthName_inj sameLengths⟩

private theorem summands_inj
    {offset other : Offset} (same : offset.summands = other.summands) :
    offset = other := by
  unfold summands at same
  split at same
  · next leftOut =>
      split at same
      · next otherLeftOut =>
          obtain ⟨base, lengths⟩ := offset
          obtain ⟨otherBase, others⟩ := other
          rw [Offset.mk.injEq]
          exact ⟨leftOut.1.trans otherLeftOut.1.symm, map_lengthName_inj same⟩
      · exact absurd same (map_lengthName_ne_decimal_cons _ _ _)
  · split at same
    · exact absurd same.symm (map_lengthName_ne_decimal_cons _ _ _)
    · exact eq_of_base_names same

/-- Offsets that are written alike are the same. -/
theorem sourceText_inj
    {offset other : Offset} (same : offset.sourceText = other.sourceText) :
    offset = other := by
  have begins : " + ".toList.head? = some ' ' := by
    decide
  rw [sourceText_eq, sourceText_eq] at same
  apply summands_inj
  refine
    intercalate_inj begins offset.summands_ne_nil other.summands_ne_nil ?_ ?_
      same
  · intro summand member
    exact (word_of_mem_summands member).free (by decide)
  · intro summand member
    exact (word_of_mem_summands member).free (by decide)

theorem free_sourceText
    (offset : Offset) {mark : Char} (noWord : ¬ WordCharacter mark)
    (apart : Free mark " + ") :
    Free mark offset.sourceText := by
  rw [sourceText_eq]
  apply free_intercalate apart
  intro summand member
  exact (word_of_mem_summands member).free noWord

end Offset

end PackedRecord
