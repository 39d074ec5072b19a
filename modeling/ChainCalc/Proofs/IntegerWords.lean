import ChainCalc.Proofs.Separation
import ChainCalc.Proofs.Words
import ChainCalc.Sequence
import Mathlib.Algebra.Order.Ring.Int
import Mathlib.Data.List.Forall2

/-!
# Words that are integers

`Denotes word z` says which words are integers and of which value: digits in decimal notation with
an optional sign, within 64 bits. A word that is none has digits in front that are out of range
already, or else a character in a wrong place or no digit at all. Whichever comes first when the
word is read from the left is the cause that is reported (`IntegerError.Explains`).

A sequence is read exactly if all its words are integers, and the first one that is none is reported
if not (`readIntegers_eq_ok_iff`, `readIntegers_eq_error_iff`). Integers in range can be written
down and read back, whatever blanks stand between them (`readSequence_of_runs`).
-/

namespace ChainCalc

/-! ### Integers and their notation -/

def InRange (z : Int) : Prop := -2 ^ 63 ≤ z ∧ z ≤ 2 ^ 63 - 1

/-- What follows the sign of a word, or the whole word if it has none. -/
def afterSign : List Char → List Char
  | '+' :: cs => cs
  | '-' :: cs => cs
  | cs => cs

/-- A number with the sign of a word. -/
def withSign (word : List Char) (n : Nat) : Int := if word.head? = some '-' then -n else n

/-- The number that digits stand for. -/
def magnitude (digits : List Char) : Nat := Nat.ofDigitChars 10 digits 0

/-- The word is an integer in range, made of an optional sign and at least one digit. -/
structure Denotes (word : List Char) (z : Int) : Prop where
  nonempty : afterSign word ≠ []
  digits : ∀ c ∈ afterSign word, c.isDigit
  value : z = withSign word (magnitude (afterSign word))
  inRange : InRange z

/-- The first digits of the word are out of range already, whatever comes behind them. -/
def Overflows (word : List Char) : Prop :=
  ∃ digits, digits <+: afterSign word ∧ (∀ c ∈ digits, c.isDigit) ∧
    ¬ InRange (withSign word (magnitude digits))

/-- The error is why a word is no integer. -/
def IntegerError.Explains (word : List Char) : IntegerError → Prop
  | tooLarge => Overflows word ∧ word.head? ≠ some '-'
  | tooSmall => Overflows word ∧ word.head? = some '-'
  | invalidDigit => ¬ Overflows word

/-- The error is on a word with the given position, which is no integer. -/
structure SequenceError.Reports (e : SequenceError) (position : Nat) (word : List Char) :
    Prop where
  no_integer : ¬ ∃ z, Denotes word z
  word_eq : e.word = String.ofList word
  position_eq : e.position = position
  explains : e.cause.Explains word

theorem IntegerError.Explains.unique {word : List Char} {e e' : IntegerError}
    (h : e.Explains word) (h' : e'.Explains word) : e = e' := by
  cases e <;> cases e' <;> simp_all [Explains]

/-! ### Digit by digit -/

section

variable {bound n : Nat} {overflow : IntegerError} {cs ds : List Char}

theorem le_ofDigitChars (n : Nat) (cs : List Char) : n ≤ Nat.ofDigitChars 10 cs n := by
  induction cs generalizing n with
  | nil => exact Nat.le_refl n
  | cons c cs ih =>
    rw [Nat.ofDigitChars_cons]
    have := ih (10 * n + (c.toNat - '0'.toNat))
    omega

theorem readDigits_of_digits (hcs : ∀ c ∈ cs, c.isDigit)
    (hle : Nat.ofDigitChars 10 cs n ≤ bound) :
    readDigits bound overflow n cs = .ok (Nat.ofDigitChars 10 cs n) := by
  induction cs generalizing n with
  | nil => rfl
  | cons c cs ih =>
    obtain ⟨hc, hcs⟩ := List.forall_mem_cons.1 hcs
    rw [Nat.ofDigitChars_cons] at hle ⊢
    have hnext := (le_ofDigitChars _ cs).trans hle
    rw [readDigits, if_pos hc]
    simp only [if_neg (Nat.not_lt.2 hnext)]
    exact ih hcs hle

theorem readDigits_of_overflow (hds : ds <+: cs) (hdigits : ∀ c ∈ ds, c.isDigit) (hn : n ≤ bound)
    (hlt : bound < Nat.ofDigitChars 10 ds n) : readDigits bound overflow n cs = .error overflow := by
  induction ds generalizing n cs with
  | nil => exact absurd hlt (Nat.not_lt.2 hn)
  | cons c ds ih =>
    obtain ⟨cs, rfl⟩ := hds
    obtain ⟨hc, hdigits⟩ := List.forall_mem_cons.1 hdigits
    rw [Nat.ofDigitChars_cons] at hlt
    rw [List.cons_append, readDigits, if_pos hc]
    by_cases hnext : bound < 10 * n + (c.toNat - '0'.toNat)
    · simp only [if_pos hnext]
    · simp only [if_neg hnext]
      exact ih (List.prefix_append ds cs) hdigits (Nat.not_lt.1 hnext) hlt

/-- A character that is no digit is found if the digits before it are in range. -/
theorem readDigits_of_stray (hstray : ¬ ∀ c ∈ cs, c.isDigit)
    (hfit : ∀ ds, ds <+: cs → (∀ c ∈ ds, c.isDigit) → Nat.ofDigitChars 10 ds n ≤ bound) :
    readDigits bound overflow n cs = .error .invalidDigit := by
  induction cs generalizing n with
  | nil => exact absurd (fun c hc => by cases hc) hstray
  | cons c cs ih =>
    by_cases hc : c.isDigit
    · have hnext : 10 * n + (c.toNat - '0'.toNat) ≤ bound :=
        hfit [c] (by simp) (by simpa using hc)
      rw [readDigits, if_pos hc]
      simp only [if_neg (Nat.not_lt.2 hnext)]
      refine ih (fun hcs => hstray (List.forall_mem_cons.2 ⟨hc, hcs⟩)) fun ds hds hdigits => ?_
      have hlonger := hfit (c :: ds) (List.cons_prefix_cons.2 ⟨rfl, hds⟩)
        (List.forall_mem_cons.2 ⟨hc, hdigits⟩)
      rwa [Nat.ofDigitChars_cons] at hlonger
    · rw [readDigits, if_neg hc]

end

/-! ### One word -/

section

variable {word : List Char} {z : Int}

/-- The greatest number that may follow the sign of a word. -/
def largest (word : List Char) : Nat := if word.head? = some '-' then 2 ^ 63 else 2 ^ 63 - 1

/-- What a greater number is reported as. -/
def overflowOf (word : List Char) : IntegerError :=
  if word.head? = some '-' then .tooSmall else .tooLarge

theorem inRange_withSign_iff {n : Nat} : InRange (withSign word n) ↔ n ≤ largest word := by
  unfold InRange withSign largest
  split <;> omega

theorem readInteger_eq (word : List Char) :
    readInteger word =
      (readMagnitude (largest word) (overflowOf word) (afterSign word)).map (withSign word) := by
  unfold readInteger
  split
  · rename_i cs
    show _ = Except.map _ (readMagnitude (Nat.pow 2 63) .tooSmall cs)
    cases readMagnitude (Nat.pow 2 63) .tooSmall cs <;> rfl
  · rfl
  · rename_i hminus hplus
    have hsign : ¬ word.head? = some '-' := by
      intro h
      obtain ⟨cs, rfl⟩ := List.head?_eq_some_iff.1 h
      exact hminus cs rfl
    have hafter : afterSign word = word := by
      unfold afterSign
      split
      · exact absurd rfl (hplus _)
      · exact absurd rfl (hminus _)
      · rfl
    rw [hafter, largest, overflowOf, if_neg hsign, if_neg hsign]
    congr 1
    funext n
    rw [withSign, if_neg hsign]
    rfl

theorem readMagnitude_of_ne_nil {bound : Nat} {overflow : IntegerError} {cs : List Char}
    (hne : cs ≠ []) : readMagnitude bound overflow cs = readDigits bound overflow 0 cs := by
  obtain ⟨c, cs, rfl⟩ := List.exists_cons_of_ne_nil hne
  rfl

theorem Denotes.readInteger (h : Denotes word z) : readInteger word = .ok z := by
  have hle : magnitude (afterSign word) ≤ largest word := by
    rw [← inRange_withSign_iff, ← h.value]
    exact h.inRange
  rw [readInteger_eq, readMagnitude_of_ne_nil h.nonempty, readDigits_of_digits h.digits hle,
    h.value]
  rfl

theorem Overflows.readInteger (h : Overflows word) :
    readInteger word = .error (overflowOf word) := by
  obtain ⟨ds, hds, hdigits, hout⟩ := h
  rw [inRange_withSign_iff, Nat.not_le] at hout
  have hne : afterSign word ≠ [] := by
    intro hnil
    rw [hnil, List.prefix_nil] at hds
    subst hds
    exact absurd hout (Nat.not_lt_zero _)
  rw [readInteger_eq, readMagnitude_of_ne_nil hne,
    readDigits_of_overflow hds hdigits (Nat.zero_le _) hout]
  rfl

theorem readInteger_of_stray (hfit : ¬ Overflows word) (hnone : ¬ ∃ z, Denotes word z) :
    readInteger word = .error .invalidDigit := by
  rw [readInteger_eq]
  by_cases hnil : afterSign word = []
  · rw [hnil]
    rfl
  · have hprefix : ∀ ds, ds <+: afterSign word → (∀ c ∈ ds, c.isDigit) →
        magnitude ds ≤ largest word := by
      intro ds hds hdigits
      rw [← inRange_withSign_iff]
      by_contra hout
      exact hfit ⟨ds, hds, hdigits, hout⟩
    have hstray : ¬ ∀ c ∈ afterSign word, c.isDigit := by
      intro hdigits
      have hle := hprefix _ List.prefix_rfl hdigits
      exact hnone ⟨_, hnil, hdigits, rfl, inRange_withSign_iff.2 hle⟩
    rw [readMagnitude_of_ne_nil hnil, readDigits_of_stray hstray hprefix]
    rfl

theorem Overflows.explains (h : Overflows word) : (overflowOf word).Explains word := by
  unfold overflowOf
  split
  · exact ⟨h, ‹_›⟩
  · exact ⟨h, ‹_›⟩

/-- A word is an integer, or it is reported why it is none. -/
theorem readInteger_cases (word : List Char) :
    (∃ z, Denotes word z ∧ readInteger word = .ok z) ∨
      ∃ e, (¬ ∃ z, Denotes word z) ∧ e.Explains word ∧ readInteger word = .error e := by
  by_cases hdenotes : ∃ z, Denotes word z
  · obtain ⟨z, hz⟩ := hdenotes
    exact .inl ⟨z, hz, hz.readInteger⟩
  · by_cases hover : Overflows word
    · exact .inr ⟨overflowOf word, hdenotes, hover.explains, hover.readInteger⟩
    · exact .inr ⟨.invalidDigit, hdenotes, hover, readInteger_of_stray hover hdenotes⟩

theorem readInteger_eq_ok_iff : readInteger word = .ok z ↔ Denotes word z := by
  refine ⟨fun h => ?_, Denotes.readInteger⟩
  rcases readInteger_cases word with ⟨z', hz', hread⟩ | ⟨e, -, -, hread⟩
  · obtain rfl : z = z' := Except.ok.inj (h.symm.trans hread)
    exact hz'
  · cases h.symm.trans hread

theorem readInteger_eq_error_iff {e : IntegerError} :
    readInteger word = .error e ↔ (¬ ∃ z, Denotes word z) ∧ e.Explains word := by
  rcases readInteger_cases word with ⟨z, hz, hread⟩ | ⟨e', hnone, hexplains, hread⟩
  · rw [hread]
    refine ⟨fun h => ?_, fun h => absurd ⟨z, hz⟩ h.1⟩
    cases h
  · rw [hread]
    constructor
    · rintro ⟨⟩
      exact ⟨hnone, hexplains⟩
    · intro h
      rw [hexplains.unique h.2]

end

/-! ### Sequences of words -/

section

variable {position : Nat} {ws : List (List Char)} {zs : List Int}

theorem readIntegers_eq_ok_iff :
    readIntegers position ws = .ok zs ↔ List.Forall₂ Denotes ws zs := by
  induction ws generalizing position zs with
  | nil => simp [readIntegers, eq_comm]
  | cons w ws ih =>
    rw [List.forall₂_cons_left_iff, readIntegers]
    simp only [← readInteger_eq_ok_iff, ← @ih (position + 1)]
    rcases readInteger w with e | z
    · simp
    · rcases readIntegers (position + 1) ws with e | rest
      · simp [Except.map]
      · simp [Except.map, eq_comm]

theorem SequenceError.reports_iff {e : SequenceError} {word : List Char} :
    e.Reports position word ↔
      ∃ cause, readInteger word = .error cause ∧ e = ⟨String.ofList word, position, cause⟩ := by
  constructor
  · intro h
    refine ⟨e.cause, readInteger_eq_error_iff.2 ⟨h.no_integer, h.explains⟩, ?_⟩
    rw [← h.word_eq, ← h.position_eq]
  · rintro ⟨cause, hread, rfl⟩
    obtain ⟨hnone, hexplains⟩ := readInteger_eq_error_iff.1 hread
    exact ⟨hnone, rfl, rfl, hexplains⟩

/-- The first word that is no integer is reported. -/
theorem readIntegers_eq_error_iff {e : SequenceError} :
    readIntegers position ws = .error e ↔
      ∃ before w after, ws = before ++ w :: after ∧ (∀ v ∈ before, ∃ z, Denotes v z) ∧
        e.Reports (position + before.length) w := by
  induction ws generalizing position with
  | nil => simp [readIntegers]
  | cons w ws ih =>
    rw [readIntegers]
    rcases hread : readInteger w with cause | z
    · constructor
      · rintro ⟨⟩
        exact ⟨[], w, ws, rfl, by simp, SequenceError.reports_iff.2 ⟨cause, hread, rfl⟩⟩
      · rintro ⟨before, v, after, hws, hbefore, hreports⟩
        obtain ⟨hnone, -⟩ := readInteger_eq_error_iff.1 hread
        cases before with
        | cons u before =>
          obtain ⟨rfl, -⟩ := List.cons.inj hws
          exact absurd (hbefore w List.mem_cons_self) hnone
        | nil =>
          obtain ⟨rfl, -⟩ := List.cons.inj hws
          obtain ⟨cause', hread', rfl⟩ := SequenceError.reports_iff.1 hreports
          obtain rfl : cause = cause' := Except.error.inj (hread.symm.trans hread')
          rfl
    · have hdenotes : Denotes w z := readInteger_eq_ok_iff.1 hread
      have hrest : (readIntegers (position + 1) ws).map (z :: ·) = .error e ↔
          readIntegers (position + 1) ws = .error e := by
        cases readIntegers (position + 1) ws <;> simp [Except.map]
      have hposition : ∀ before : List (List Char),
          position + 1 + before.length = position + (w :: before).length := by
        intro before
        rw [List.length_cons]
        omega
      simp only [hrest, ih, hposition]
      constructor
      · rintro ⟨before, v, after, rfl, hbefore, hreports⟩
        exact ⟨w :: before, v, after, rfl, List.forall_mem_cons.2 ⟨⟨z, hdenotes⟩, hbefore⟩,
          hreports⟩
      · rintro ⟨before, v, after, hws, hbefore, hreports⟩
        cases before with
        | nil =>
          obtain ⟨rfl, -⟩ := List.cons.inj hws
          exact absurd ⟨z, hdenotes⟩ hreports.no_integer
        | cons u before =>
          obtain ⟨rfl, rfl⟩ := List.cons.inj hws
          exact ⟨before, v, after, rfl, (List.forall_mem_cons.1 hbefore).2, hreports⟩

end

/-! ### Writing and reading -/

theorem not_isBlank_of_isDigit {c : Char} (hc : c.isDigit) : ¬ isBlank c := by
  intro hblank
  have hnumeric := isNumeric_of_isSeparator (isSeparator_of_isBlank hblank)
  rw [isNumeric_of_isDigit hc] at hnumeric
  cases hnumeric

theorem sign_or_mem_afterSign {word : List Char} {c : Char} (hc : c ∈ word) :
    c = '+' ∨ c = '-' ∨ c ∈ afterSign word := by
  unfold afterSign
  split
  · rcases List.mem_cons.1 hc with rfl | hc
    · exact .inl rfl
    · exact .inr (.inr hc)
  · rcases List.mem_cons.1 hc with rfl | hc
    · exact .inr (.inl rfl)
    · exact .inr (.inr hc)
  · exact .inr (.inr hc)

theorem Denotes.isWord {word : List Char} {z : Int} (h : Denotes word z) : IsWord word := by
  refine ⟨?_, fun c hc => ?_⟩
  · rintro rfl
    exact h.nonempty rfl
  · rcases sign_or_mem_afterSign hc with rfl | rfl | hc
    · decide
    · decide
    · exact not_isBlank_of_isDigit (h.digits c hc)

theorem afterSign_of_digits {ds : List Char} (hds : ∀ c ∈ ds, c.isDigit) :
    afterSign ds = ds ∧ ds.head? ≠ some '-' := by
  have hhead : ∀ c ∈ ds.head?, c.isDigit := fun c hc => hds c (List.mem_of_head? hc)
  constructor
  · unfold afterSign
    split
    · exact absurd (hhead '+' rfl) (by decide)
    · exact absurd (hhead '-' rfl) (by decide)
    · rfl
  · intro hminus
    exact absurd (hhead '-' hminus) (by decide)

theorem denotes_toString {z : Int} (hz : InRange z) : Denotes (toString z).toList z := by
  have hdigits : ∀ n, ∀ c ∈ Nat.toDigits 10 n, c.isDigit := by
    intro n c hc
    exact Nat.isDigit_of_mem_toDigits (by decide) (by decide) hc
  rw [Int.toString_eq_repr, Int.repr_eq_if]
  split
  · rename_i hnonneg
    obtain ⟨hafter, hsign⟩ := afterSign_of_digits (hdigits z.toNat)
    rw [Nat.toList_repr]
    refine ⟨?_, ?_, ?_, hz⟩
    · rw [hafter]
      exact Nat.toDigits_ne_nil
    · rw [hafter]
      exact hdigits z.toNat
    · rw [hafter, withSign, if_neg hsign, magnitude, Nat.ofDigitChars_ten_toDigits]
      omega
  · rename_i hneg
    rw [String.toList_append, Nat.toList_repr]
    refine ⟨Nat.toDigits_ne_nil, hdigits (-z).toNat, ?_, hz⟩
    show z = -((magnitude (Nat.toDigits 10 (-z).toNat) : Nat) : Int)
    rw [magnitude, Nat.ofDigitChars_ten_toDigits]
    omega

/-- Integers in range are read back from a text with nothing but them and blanks. -/
theorem readSequence_of_runs {cs : List Char} {zs : List Int} (hzs : ∀ z ∈ zs, InRange z)
    (hcs : Runs cs (zs.map fun z => (toString z).toList)) : readSequence cs = .ok zs := by
  rw [readSequence, hcs.words_eq, readIntegers_eq_ok_iff, List.forall₂_map_left_iff,
    List.forall₂_same]
  intro z hz
  exact denotes_toString (hzs z hz)

theorem isWord_of_mem_map_toString {zs : List Int} (hzs : ∀ z ∈ zs, InRange z) :
    ∀ w ∈ zs.map fun z => (toString z).toList, IsWord w := by
  rw [List.forall_mem_map]
  intro z hz
  exact (denotes_toString (hzs z hz)).isWord

/-- A text is a sequence exactly if all its maximal runs of characters that are not blank are
integers. If not, then the first run that is none is reported with its position, counted from 1, and
the cause. Integers in range, written down with a gap between any two, are read as they were. -/
theorem readSequence_reads_integers :
    (∀ cs : List Char, ∃ ws, (∀ ws', Runs cs ws' ↔ ws' = ws) ∧
      (∀ zs, readSequence cs = .ok zs ↔ List.Forall₂ Denotes ws zs) ∧
      ∀ e, readSequence cs = .error e ↔
        ∃ before w after, ws = before ++ w :: after ∧ (∀ v ∈ before, ∃ z, Denotes v z) ∧
          e.Reports (1 + before.length) w) ∧
    ∀ (zs : List Int) (gap : List Char), (∀ z ∈ zs, InRange z) → IsGap gap → gap ≠ [] →
      readSequence (List.intercalate gap (zs.map fun z => (toString z).toList)) = .ok zs := by
  refine ⟨fun cs => ⟨words cs, fun ws' => ?_, fun zs => ?_, fun e => ?_⟩,
    fun zs gap hzs hgap hne => ?_⟩
  · rw [← words_eq_iff, eq_comm]
  · exact readIntegers_eq_ok_iff
  · exact readIntegers_eq_error_iff
  · exact readSequence_of_runs hzs (runs_intercalate hgap hne (isWord_of_mem_map_toString hzs))

/-- The ends of the range, with two kinds of blanks between them. -/
theorem extremes_readSequence_reads_integers :
    readSequence (List.intercalate ['\t', '\u00a0']
      ([-9223372036854775808, 0, 9223372036854775807].map fun z => (toString z).toList)) =
      .ok [-9223372036854775808, 0, 9223372036854775807] := by
  refine readSequence_reads_integers.2 _ _ ?_ ?_ (List.cons_ne_nil _ _)
  · simp [InRange]
  · exact IsGap.iff_all.2 (by decide)

-- the digits of the second word are out of range before its `x` is reached
example : readSequence "-1 9223372036854775808x y".toList =
    .error ⟨"9223372036854775808x", 2, .tooLarge⟩ := by decide

end ChainCalc
