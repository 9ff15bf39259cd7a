import Mathlib.Data.List.DropRight
import PackedRecord.TypeRef

/-!
# Types and their texts

A type is printed and read back.  Not every type survives: a named type that is called
like a scalar, or like an array, or with a blank at an end, is read as something else.
`TypeRef.Canonical` lists what a type must avoid, and these are exactly the types that
are read back from their texts; reading yields no others, however malformed the text.

The reader is taken apart first: each of its steps is said as what it finds, not as how
it looks.
-/

namespace PackedRecord

open Text

/-! ## Texts without blanks at their ends -/

namespace Text

/-- No blank stands at either end. -/
def Trimmed (text : List Char) : Prop :=
  (∀ first ∈ text.head?, isBlank first = false) ∧
    ∀ last ∈ text.getLast?, isBlank last = false

theorem trimEnd_eq_rdropWhile (text : List Char) :
    trimEnd text = text.rdropWhile isBlank :=
  rfl

theorem trimmed_trim (text : List Char) : Trimmed (trim text) := by
  rw [trim, trimEnd_eq_rdropWhile]
  constructor
  · intro first found
    -- What is left after trimming the end starts like the text before it.
    obtain ⟨dropped, whole⟩ :=
      List.rdropWhile_prefix isBlank (l := trimStart text)
    have starts : (trimStart text).head? = some first := by
      rw [← whole, List.head?_append, Option.mem_def.mp found, Option.some_or]
    have kept := List.head?_dropWhile_not isBlank text
    rw [← trimStart, starts] at kept
    exact kept
  · intro last found
    obtain ⟨nonempty, rfl⟩ := List.mem_getLast?_eq_getLast found
    exact Bool.eq_false_iff.mpr (List.rdropWhile_last_not isBlank _ nonempty)

private theorem trimEnd_of_trimmed {text : List Char} (trimmed : Trimmed text) :
    trimEnd text = text := by
  rw [trimEnd_eq_rdropWhile, List.rdropWhile_eq_self_iff]
  intro nonempty
  have solid := trimmed.2 _ (List.getLast?_eq_getLast_of_ne_nil nonempty)
  simp [solid]

/-- Trimming takes off the blanks around a text without blanks at its ends. -/
theorem trim_of_blanks_around
    {before core after : List Char}
    (blankBefore : ∀ character ∈ before, isBlank character = true)
    (trimmed : Trimmed core)
    (blankAfter : ∀ character ∈ after, isBlank character = true) :
    trim (before ++ (core ++ after)) = core := by
  rw [trim, trimStart, List.dropWhile_append_of_pos blankBefore]
  cases core with
  | nil =>
      rw [List.nil_append, List.dropWhile_eq_nil_iff.mpr blankAfter]
      rfl
  | cons first rest =>
      have solid := trimmed.1 first rfl
      have reversed : ∀ character ∈ after.reverse, isBlank character = true := by
        simpa using blankAfter
      have ends := trimEnd_of_trimmed trimmed
      rw [List.cons_append, List.dropWhile_cons_of_neg (by simp [solid]),
        ← List.cons_append, trimEnd, List.reverse_append,
        List.dropWhile_append_of_pos reversed]
      exact ends

private theorem trim_of_trimmed {text : List Char} (trimmed : Trimmed text) :
    trim text = text := by
  have around :=
    trim_of_blanks_around (List.forall_mem_nil _) trimmed (List.forall_mem_nil _)
  simpa using around

private theorem trim_cons_of_blank
    {first : Char} (blank : isBlank first = true) (text : List Char) :
    trim (first :: text) = trim text := by
  rw [trim, trim, trimStart, trimStart, List.dropWhile_cons_of_pos blank]

private theorem isBlank_of_isDigit {character : Char} (digit : character.isDigit = true) :
    isBlank character = false := by
  have bounds : 48 ≤ character.toNat ∧ character.toNat ≤ 57 := by
    simpa [Char.isDigit, UInt32.le_iff_toNat_le] using digit
  simp only [isBlank, blankRanges, List.any_cons, List.any_nil, Bool.or_false,
    Bool.or_eq_false_iff, Bool.and_eq_false_iff, decide_eq_false_iff_not]
  omega

/-! ## Numerals -/

/-- The text denotes a number below `2 ^ 64`: digits, behind at most one plus sign. -/
def WordNumeral (text : List Char) (number : Nat) : Prop :=
  ∃ digits,
    (text = digits ∨ text = '+' :: digits) ∧ digits ≠ [] ∧
      (∀ character ∈ digits, character.isDigit = true) ∧
        Nat.ofDigitChars 10 digits 0 = number ∧ number < 2 ^ 64

theorem digits?_eq_some_iff {text : List Char} {number : Nat} :
    digits? text = some number ↔
      text ≠ [] ∧ (∀ character ∈ text, character.isDigit = true) ∧
        Nat.ofDigitChars 10 text 0 = number := by
  unfold digits?
  split
  · next both =>
      rw [List.all_eq_true] at both
      rw [Option.some_inj]
      constructor
      · intro reads
        exact ⟨both.1, both.2, reads⟩
      · exact fun facts => facts.2.2
  · next notBoth =>
      rw [List.all_eq_true] at notBoth
      simp only [reduceCtorEq, false_iff]
      rintro ⟨nonempty, allDigits, _⟩
      exact notBoth ⟨nonempty, allDigits⟩

theorem word?_eq_some_iff {text : List Char} {number : Nat} :
    word? text = some number ↔ WordNumeral text number := by
  have read : ∀ digits : List Char,
      (digits? digits).filter (fun number => decide (number < 2 ^ 64)) =
          some number ↔
        digits ≠ [] ∧ (∀ character ∈ digits, character.isDigit = true) ∧
          Nat.ofDigitChars 10 digits 0 = number ∧ number < 2 ^ 64 := by
    intro digits
    rw [Option.filter_eq_some_iff, digits?_eq_some_iff, decide_eq_true_iff]
    grind
  unfold word? WordNumeral
  constructor
  · intro found
    split at found
    · exact ⟨_, Or.inr rfl, (read _).mp found⟩
    · exact ⟨_, Or.inl rfl, (read _).mp found⟩
  · rintro ⟨digits, spelled | spelled, facts⟩
    · subst spelled
      split
      · next rest =>
          -- A digit is no plus sign.
          have plus := facts.2.1 '+' List.mem_cons_self
          exact absurd plus (by decide)
      · exact (read _).mpr facts
    · subst spelled
      exact (read _).mpr facts

end Text

/-! ## The reader's steps -/

theorem Primitive.ofName?_eq_none_iff {name : String} :
    ofName? name = none ↔ ∀ scalar : Primitive, scalar.name ≠ name := by
  simp only [ofName?, List.find?_eq_none, mem_all, forall_const, beq_iff_eq, ne_eq]

namespace TypeRef

theorem bracketed?_eq_some_iff {text inner : List Char} :
    bracketed? text = some inner ↔ text = '[' :: (inner ++ [']']) := by
  unfold bracketed?
  constructor
  · intro found
    split at found
    · next rest =>
        split at found
        · next closes =>
            cases found
            rw [List.dropLast_append_getLast? _ closes]
        · cases found
    · cases found
  · rintro rfl
    simp

theorem splitLast?_eq_none_iff {separator : Char} {text : List Char} :
    splitLast? separator text = none ↔ separator ∉ text := by
  induction text with
  | nil => simp [splitLast?]
  | cons first rest inductionHypothesis =>
      rw [splitLast?, List.mem_cons, not_or, ← inductionHypothesis]
      cases splitLast? separator rest with
      | some parts => simp
      | none => simp [eq_comm]

private theorem not_mem_of_splitLast?
    {separator : Char} {text before after : List Char}
    (found : splitLast? separator text = some (before, after)) :
    separator ∉ after := by
  induction text generalizing before with
  | nil => cases found
  | cons first rest inductionHypothesis =>
      rw [splitLast?] at found
      cases later : splitLast? separator rest with
      | some parts =>
          rw [later] at found
          cases found
          exact inductionHypothesis later
      | none =>
          rw [later] at found
          simp only at found
          split at found <;> cases found
          exact splitLast?_eq_none_iff.mp later

private theorem splitLast?_append
    {separator : Char} (before : List Char) {after : List Char}
    (last : separator ∉ after) :
    splitLast? separator (before ++ separator :: after) =
      some (before, after) := by
  induction before with
  | nil =>
      rw [List.nil_append, splitLast?, splitLast?_eq_none_iff.mpr last]
      exact if_pos rfl
  | cons first rest inductionHypothesis =>
      rw [List.cons_append, splitLast?, inductionHypothesis]

theorem splitLast?_eq_some_iff
    {separator : Char} {text before after : List Char} :
    splitLast? separator text = some (before, after) ↔
      text = before ++ separator :: after ∧ separator ∉ after := by
  constructor
  · intro found
    exact ⟨eq_append_of_splitLast? found, not_mem_of_splitLast? found⟩
  · rintro ⟨rfl, last⟩
    exact splitLast?_append before last

/-- Brackets around an element and a numeral, with a semicolon between them that is
the last one.  Blanks may stand around the numeral. -/
def ArrayText (text element : List Char) (length : Nat) : Prop :=
  ∃ numeral,
    text = '[' :: (element ++ ';' :: numeral ++ [']']) ∧
      ';' ∉ numeral ∧ WordNumeral (trim numeral) length

private theorem ArrayText.length_lt
    {text element : List Char} {length : Nat}
    (isArray : ArrayText text element length) : length < 2 ^ 64 := by
  obtain ⟨_, _, _, _, _, _, _, _, small⟩ := isArray
  exact small

theorem arrayParts?_eq_some_iff
    {text element : List Char} {length : Nat} :
    arrayParts? text = some (element, length) ↔
      ArrayText text element length := by
  simp only [arrayParts?, Option.bind_eq_bind, Option.bind_eq_some_iff,
    Option.pure_def, Option.some.injEq, Prod.exists, Prod.mk.injEq,
    bracketed?_eq_some_iff, splitLast?_eq_some_iff, word?_eq_some_iff, ArrayText]
  constructor
  · rintro ⟨_, rfl, _, numeral, ⟨rfl, last⟩, _, read, rfl, rfl⟩
    exact ⟨numeral, rfl, last, read⟩
  · rintro ⟨numeral, rfl, last, read⟩
    exact ⟨_, rfl, element, numeral, ⟨rfl, last⟩, length, read, rfl, rfl⟩

private theorem ofChars_of_arrayText
    {text element : List Char} {length : Nat}
    (isArray : ArrayText (trim text) element length) :
    ofChars text = array (ofChars element) length := by
  have parts := arrayParts?_eq_some_iff.mpr isArray
  rw [ofChars]
  split
  · next found =>
      cases parts.symm.trans found
      rfl
  · next absent => cases parts.symm.trans absent

private theorem ofChars_of_not_arrayText
    {text : List Char}
    (noArray : ∀ element length, ¬ ArrayText (trim text) element length) :
    ofChars text =
      match Primitive.ofName? (String.ofList (trim text)) with
      | some scalar => primitive scalar
      | none => named (String.ofList (trim text)) := by
  rw [ofChars]
  split
  · next found => exact absurd (arrayParts?_eq_some_iff.mp found) (noArray _ _)
  · rfl

/-! ## Canonical types -/

/-- The named types have no blank at an end, and are called neither like a scalar nor
like an array; the lengths of arrays fit a word. -/
def Canonical : TypeRef → Prop
  | primitive _ => True
  | named name =>
      Trimmed name.toList ∧ (∀ scalar : Primitive, scalar.name ≠ name) ∧
        ∀ element length, ¬ ArrayText name.toList element length
  | array element length => element.Canonical ∧ length < 2 ^ 64

/-- Whatever the text is, a canonical type is read. -/
theorem canonical_ofChars (text : List Char) : (ofChars text).Canonical := by
  by_cases isArray : ∃ element length, ArrayText (trim text) element length
  · obtain ⟨element, length, isArray⟩ := isArray
    have parts := arrayParts?_eq_some_iff.mpr isArray
    have shorter : element.length < text.length :=
      Nat.lt_of_lt_of_le (length_of_arrayParts? parts) (length_trim_le text)
    rw [ofChars_of_arrayText isArray]
    exact ⟨canonical_ofChars element, isArray.length_lt⟩
  · have noArray :
        ∀ element length, ¬ ArrayText (trim text) element length := by
      simpa using isArray
    rw [ofChars_of_not_arrayText noArray]
    cases named : Primitive.ofName? (String.ofList (trim text)) with
    | some scalar => trivial
    | none =>
        refine ⟨?_, Primitive.ofName?_eq_none_iff.mp named, ?_⟩
        · rw [String.toList_ofList]
          exact trimmed_trim text
        · rw [String.toList_ofList]
          exact noArray
termination_by text.length

/-! ## Reading printed types -/

private theorem arrayText_text (element : TypeRef) {length : Nat} (small : length < 2 ^ 64) :
    ArrayText (array element length).text.toList element.text.toList length := by
  have digitsOf : ∀ character ∈ Nat.toDigits 10 length,
      character.isDigit = true :=
    fun _ member => Nat.isDigit_of_mem_toDigits (by decide) (by decide) member
  have solid : Trimmed (Nat.toDigits 10 length) :=
    ⟨fun first found =>
        isBlank_of_isDigit (digitsOf _ (List.mem_of_mem_head? found)),
      fun last found =>
        isBlank_of_isDigit (digitsOf _ (List.mem_of_mem_getLast? found))⟩
  refine ⟨' ' :: Nat.toDigits 10 length, ?_, ?_, ?_⟩
  · simp [text]
  · intro member
    rcases List.mem_cons.mp member with same | inDigits
    · cases same
    · exact absurd (digitsOf _ inDigits) (by decide)
  · rw [trim_cons_of_blank (by decide), trim_of_trimmed solid]
    exact ⟨_, Or.inl rfl, Nat.toDigits_ne_nil, digitsOf,
      Nat.ofDigitChars_ten_toDigits, small⟩

private theorem trimmed_of_arrayText
    {text element : List Char} {length : Nat}
    (isArray : ArrayText text element length) : Trimmed text := by
  obtain ⟨numeral, rfl, _⟩ := isArray
  constructor
  · intro first found
    cases found
    decide
  · intro last found
    rw [← List.cons_append, List.getLast?_append] at found
    cases found
    decide

theorem parse_text_of_canonical
    {type : TypeRef} (canonical : type.Canonical) :
    parse type.text = type := by
  induction type with
  | primitive scalar =>
      have solid : trim scalar.name.toList = scalar.name.toList := by
        cases scalar <;> decide
      have noParts : arrayParts? scalar.name.toList = none := by
        cases scalar <;> decide
      have noArray : ∀ element length,
          ¬ ArrayText (trim scalar.name.toList) element length := by
        intro element length isArray
        rw [solid, ← arrayParts?_eq_some_iff, noParts] at isArray
        cases isArray
      rw [parse, text, ofChars_of_not_arrayText noArray, solid,
        String.ofList_toList, Primitive.ofName?_name]
  | named name =>
      obtain ⟨trimmed, noScalar, noArray⟩ := canonical
      rw [← trim_of_trimmed trimmed] at noArray
      rw [parse, text, ofChars_of_not_arrayText noArray,
        trim_of_trimmed trimmed, String.ofList_toList,
        Primitive.ofName?_eq_none_iff.mpr noScalar]
  | array element length inductionHypothesis =>
      obtain ⟨elementCanonical, small⟩ := canonical
      have isArray := arrayText_text element small
      have whole := trim_of_trimmed (trimmed_of_arrayText isArray)
      rw [← whole] at isArray
      rw [parse, ofChars_of_arrayText isArray, ← parse,
        inductionHypothesis elementCanonical]

/-- Exactly the canonical types are read back from their texts.  Any text is read as a
canonical type, and so as one that reading its own text does not change. -/
theorem parse_text_iff_canonical :
    (∀ type : TypeRef, parse type.text = type ↔ type.Canonical) ∧
      ∀ text : String,
        (parse text).Canonical ∧ parse (parse text).text = parse text := by
  have reads : ∀ text : String, (parse text).Canonical :=
    fun text => canonical_ofChars text.toList
  constructor
  · intro type
    constructor
    · intro same
      rw [← same]
      exact reads type.text
    · exact parse_text_of_canonical
  · intro text
    exact ⟨reads text, parse_text_of_canonical (reads text)⟩

end TypeRef

end PackedRecord
