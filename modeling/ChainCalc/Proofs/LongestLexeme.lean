import ChainCalc.Token.Lexer

/-!
# The longest lexeme

A lexeme has a spelling, and it ends where the next character cannot go on with it (`closedBy`).
The longest lexeme at a place is the one that is spelled there and closed by what follows:
`longest?_of_spell` finds it, and `longest?_eq_some` says that nothing else is found.
-/

namespace ChainCalc

/-- What starts a number: a digit, a point, or a minus sign before a digit. -/
def startsNumber (c : Char) (cs : List Char) : Bool :=
  isNumeric c || (c == '-' && cs.head?.any Char.isDigit)

/-- A run of digits and points, or one that starts with a digit and has a minus sign in front. -/
def isNumberText : List Char → Bool
  | [] => false
  | c :: cs => startsNumber c cs && cs.all isNumeric

/-- A letter, then letters and decimal digits. -/
def isNameText : List Char → Bool
  | [] => false
  | c :: cs => isLetter c && cs.all isNameChar

namespace Lexeme

def spell : Lexeme → List Char
  | openParen => ['(']
  | closeParen => [')']
  | number text => text.toList
  | equals => ['=']
  | operator op => [op.sign]
  | symbol name => name.toList
  | comma => [',']

/-- Everything but numbers and names is a token by one character. -/
def isMark : Lexeme → Bool
  | number _ => false
  | symbol _ => false
  | _ => true

/-- The text of a number or a name is one that a number or a name can have. -/
def wellSpelled : Lexeme → Bool
  | number text => isNumberText text.toList
  | symbol name => isNameText name.toList
  | _ => true

/-- Whether the lexeme ends before the character `next`, or before the end of the text. -/
def closedBy : Lexeme → (next : Option Char) → Bool
  | number _, next => !next.any isNumeric
  | symbol _, next => !next.any isNameChar
  | operator .sub, next => !next.any Char.isDigit
  | _, _ => true

end Lexeme

/-! ### Classes of characters -/

theorem le_of_inRanges {n lo hi : Nat} {rest : List (Nat × Nat)}
    (h : inRanges n ((lo, hi) :: rest)) : lo ≤ n := by
  rw [inRanges] at h
  split at h
  · cases h
  · omega

theorem le_toNat_of_isLetter {c : Char} (h : isLetter c) : 0x41 ≤ c.toNat := le_of_inRanges h

theorem isNumeric_of_isDigit {c : Char} (h : c.isDigit) : isNumeric c := by
  simp [isNumeric, h]

theorem isNumeric_of_isLetter {c : Char} (h : isLetter c) : isNumeric c = false := by
  have hge := le_toNat_of_isLetter h
  have hdigit : c.isDigit = false := by
    simp only [Char.isDigit, Bool.and_eq_false_iff, decide_eq_false_iff_not]
    right
    intro hle
    have : c.toNat ≤ 57 := hle
    omega
  have hpoint : c ≠ '.' := by
    rintro rfl
    exact absurd h (by decide)
  simp [isNumeric, hdigit, hpoint]

namespace Lexeme
variable {c : Char} {cs run rest : List Char} {l : Lexeme} {n : Nat}

theorem punctuation?_eq_some_iff : punctuation? c = some l ↔ l.isMark ∧ l.spell = [c] := by
  constructor
  · intro h
    unfold punctuation? Operator.ofSign? at h
    split at h
    case h_5 =>
      split at h <;> cases h <;> exact ⟨rfl, rfl⟩
    all_goals cases h; exact ⟨rfl, rfl⟩
  · rintro ⟨hm, hs⟩
    cases l with
    | number | symbol => cases hm
    | operator op => cases op <;> cases hs <;> rfl
    | openParen | closeParen | equals | comma => cases hs; rfl

theorem punctuation?_eq_none_of_notMem (h : c ∉ ['(', ')', '=', ',', '+', '-', '*', '/', '^']) :
    punctuation? c = none := by
  cases hp : punctuation? c with
  | none => rfl
  | some l =>
    obtain ⟨hm, hs⟩ := punctuation?_eq_some_iff.1 hp
    cases l with
    | number | symbol => cases hm
    | operator op => cases op <;> cases hs <;> exact absurd (by decide) h
    | openParen | closeParen | equals | comma => cases hs; exact absurd (by decide) h

theorem punctuation?_of_isLetter (h : isLetter c) : punctuation? c = none := by
  refine punctuation?_eq_none_of_notMem fun hc => ?_
  simp only [List.mem_cons, List.not_mem_nil, or_false] at hc
  rcases hc with rfl | rfl | rfl | rfl | rfl | rfl | rfl | rfl | rfl <;> exact absurd h (by decide)

/-- A run of characters in a class, ended by one that is not. -/
theorem takeWhile_append_of_closed {p : Char → Bool} (hrun : run.all p)
    (hrest : !rest.head?.any p) : (run ++ rest).takeWhile p = run := by
  rw [List.takeWhile_append_of_pos (List.all_eq_true.1 hrun)]
  cases rest with
  | nil => simp
  | cons d ds => rw [List.takeWhile_cons_of_neg (by simpa using hrest), List.append_nil]

theorem not_any_head?_dropWhile (p : Char → Bool) (cs : List Char) :
    !(cs.dropWhile p).head?.any p := by
  have h := List.head?_dropWhile_not p cs
  cases hd : (cs.dropWhile p).head? with
  | none => rfl
  | some d => simpa [hd] using h

/-- Only the next character matters, and a digit is one that goes on with a number. -/
theorem startsNumber_append (hrun : run.all isNumeric) (hrest : !rest.head?.any isNumeric) :
    startsNumber c (run ++ rest) = startsNumber c run := by
  cases run with
  | cons d ds => rfl
  | nil =>
    cases rest with
    | nil => rfl
    | cons d ds =>
      have hd : d.isDigit = false := by
        by_cases h : d.isDigit
        · simp [isNumeric_of_isDigit h] at hrest
        · simpa using h
      simp [startsNumber, hd]

theorem wellSpelled_of_isMark (hm : l.isMark) : l.wellSpelled := by
  cases l with
  | number | symbol => cases hm
  | openParen | closeParen | equals | operator | comma => rfl

theorem spell_ne_nil (h : l.wellSpelled) : l.spell ≠ [] := by
  intro hs
  cases l with
  | number text | symbol text =>
    replace hs : text.toList = [] := hs
    simp [wellSpelled, hs, isNumberText, isNameText] at h
  | openParen | closeParen | equals | operator | comma => cases hs

/-- Of the marks, only a minus sign can be taken up by what follows it. -/
theorem startsNumber_of_isMark (hm : l.isMark) (hs : l.spell = [c]) :
    startsNumber c cs = !l.closedBy cs.head? := by
  cases l with
  | number | symbol => cases hm
  | operator op =>
    cases op with
    | sub =>
      cases hs
      show cs.head?.any Char.isDigit = !(!cs.head?.any Char.isDigit)
      rw [Bool.not_not]
    | add | mul | div | pow => cases hs; rfl
  | openParen | closeParen | equals | comma => cases hs; rfl

theorem longest?_of_startsNumber (h : startsNumber c cs) :
    longest? c cs = some (number (String.ofList (c :: cs.takeWhile isNumeric)),
      (cs.takeWhile isNumeric).length) :=
  if_pos h

theorem longest?_of_not_startsNumber (h : startsNumber c cs = false) :
    longest? c cs = match punctuation? c with
      | some lexeme => some (lexeme, 0)
      | none =>
        if isLetter c then
          some (symbol (String.ofList (c :: cs.takeWhile isNameChar)),
            (cs.takeWhile isNameChar).length)
        else none :=
  if_neg (Bool.eq_false_iff.1 h)

theorem longest?_of_mark (hm : l.isMark) (hs : l.spell = [c]) (hc : l.closedBy cs.head?) :
    longest? c cs = some (l, 0) := by
  have hstart : startsNumber c cs = false := by rw [startsNumber_of_isMark hm hs, hc]; rfl
  rw [longest?_of_not_startsNumber hstart, punctuation?_eq_some_iff.2 ⟨hm, hs⟩]

theorem longest?_of_isLetter (h : isLetter c) :
    longest? c cs = some (symbol (String.ofList (c :: cs.takeWhile isNameChar)),
      (cs.takeWhile isNameChar).length) := by
  have hminus : c ≠ '-' := by
    rintro rfl
    exact absurd h (by decide)
  have hstart : startsNumber c cs = false := by
    simp [startsNumber, isNumeric_of_isLetter h, hminus]
  rw [longest?_of_not_startsNumber hstart, punctuation?_of_isLetter h]
  exact if_pos h

theorem longest?_of_spell (hs : l.spell = c :: run) (hw : l.wellSpelled)
    (hc : l.closedBy rest.head?) : longest? c (run ++ rest) = some (l, run.length) := by
  cases l with
  | number text =>
    replace hs : text.toList = c :: run := hs
    simp only [wellSpelled, hs, isNumberText, Bool.and_eq_true] at hw
    obtain ⟨hstart, hrun⟩ := hw
    rw [← startsNumber_append hrun hc] at hstart
    rw [longest?_of_startsNumber hstart, takeWhile_append_of_closed hrun hc, ← hs,
      String.ofList_toList]
  | symbol name =>
    replace hs : name.toList = c :: run := hs
    simp only [wellSpelled, hs, isNameText, Bool.and_eq_true] at hw
    obtain ⟨hletter, hrun⟩ := hw
    rw [longest?_of_isLetter hletter, takeWhile_append_of_closed hrun hc, ← hs,
      String.ofList_toList]
  | openParen | closeParen | equals | operator | comma =>
    cases hs
    exact longest?_of_mark rfl rfl hc

theorem longest?_eq_some (h : longest? c cs = some (l, n)) :
    ∃ run rest, cs = run ++ rest ∧ n = run.length ∧ l.spell = c :: run ∧ l.wellSpelled ∧
      l.closedBy rest.head? := by
  by_cases hstart : startsNumber c cs
  · rw [longest?_of_startsNumber hstart] at h
    cases h
    have hclosed := not_any_head?_dropWhile isNumeric cs
    rw [← List.takeWhile_append_dropWhile (p := isNumeric) (l := cs),
      startsNumber_append List.all_takeWhile hclosed] at hstart
    refine ⟨_, _, List.takeWhile_append_dropWhile.symm, rfl, String.toList_ofList, ?_, hclosed⟩
    simp [wellSpelled, isNumberText, hstart]
  · have hstart : startsNumber c cs = false := Bool.eq_false_iff.2 hstart
    rw [longest?_of_not_startsNumber hstart] at h
    split at h
    · rename_i hp
      cases h
      obtain ⟨hm, hs⟩ := punctuation?_eq_some_iff.1 hp
      rw [startsNumber_of_isMark hm hs, Bool.not_eq_false'] at hstart
      exact ⟨[], cs, rfl, rfl, hs, wellSpelled_of_isMark hm, hstart⟩
    · split at h
      · rename_i hletter
        cases h
        refine ⟨_, _, List.takeWhile_append_dropWhile.symm, rfl, String.toList_ofList, ?_,
          not_any_head?_dropWhile isNameChar cs⟩
        simp [wellSpelled, isNameText, hletter]
      · cases h

end Lexeme

end ChainCalc
