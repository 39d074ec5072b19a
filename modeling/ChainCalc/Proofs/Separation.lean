import ChainCalc.Proofs.Spelling

/-!
# Separators and margins

No lexeme reaches across a character that goes on with none. So a scan takes the text before it and
the text from it on each by itself (`Piece.scan_append_of_closesAll`). A separator is such a
character that starts no lexeme either, as every blank character is.

Of a separator that is blank nothing is reported. So the blank margins of a text add no pieces, and
what stands between them is found as far to the right as the left margin is wide
(`Piece.scan_margins`). A separator in the middle of a text splits its tokens in two
(`tokenize_separated`).
-/

namespace ChainCalc

/-! ### Classes of characters that are apart -/

theorem exists_mem_of_inRanges {n : Nat} {rs : List (Nat × Nat)} (h : inRanges n rs) :
    ∃ r ∈ rs, r.1 ≤ n ∧ n ≤ r.2 := by
  induction rs with
  | nil => cases h
  | cons r rs ih =>
    rw [inRanges] at h
    split at h
    · cases h
    · rename_i hlo
      rcases Bool.or_eq_true_iff.1 h with hhi | hrest
      · exact ⟨r, List.mem_cons_self, by omega, of_decide_eq_true hhi⟩
      · obtain ⟨r', hr', hn⟩ := ih hrest
        exact ⟨r', List.mem_cons_of_mem r hr', hn⟩

theorem inRanges_eq_false_of_apart {n : Nat} {rs rs' : List (Nat × Nat)} (h : inRanges n rs)
    (hapart : ∀ r ∈ rs, ∀ r' ∈ rs', r.2 < r'.1 ∨ r'.2 < r.1) : inRanges n rs' = false := by
  refine Bool.eq_false_iff.2 fun h' => ?_
  obtain ⟨r, hr, hn⟩ := exists_mem_of_inRanges h
  obtain ⟨r', hr', hn'⟩ := exists_mem_of_inRanges h'
  have := hapart r hr r' hr'
  omega

theorem isNameChar_of_isBlank {c : Char} (h : isBlank c) : isNameChar c = false := by
  have hletter : isLetter c = false := inRanges_eq_false_of_apart h (by decide +kernel)
  have hdigit : isDecimalDigit c = false := inRanges_eq_false_of_apart h (by decide +kernel)
  rw [isNameChar, hletter, hdigit]
  rfl

theorem isNameChar_of_isDigit {c : Char} (h : c.isDigit) : isNameChar c := by
  simp only [Char.isDigit, Bool.and_eq_true, decide_eq_true_eq] at h
  have hlo : 0x30 ≤ c.toNat := h.1
  have hhi : c.toNat ≤ 0x39 := h.2
  have hdigit : isDecimalDigit c := by
    rw [isDecimalDigit, decimalDigitRanges, inRanges, if_neg (Nat.not_lt.2 hlo)]
    simp [hhi]
  simp [isNameChar, hdigit]

/-! ### Separators -/

/-- A character that neither starts a lexeme nor goes on with one. -/
def isSeparator (c : Char) : Bool :=
  !isNameChar c && c != '.' && (Lexeme.punctuation? c).isNone

theorem isSeparator_iff {c : Char} :
    isSeparator c ↔ isNameChar c = false ∧ c ≠ '.' ∧ Lexeme.punctuation? c = none := by
  simp [isSeparator, and_assoc]

theorem isSeparator_of_isBlank {c : Char} (h : isBlank c) : isSeparator c := by
  refine isSeparator_iff.2 ⟨isNameChar_of_isBlank h, ?_, ?_⟩
  · rintro rfl
    exact absurd h (by decide)
  · refine Lexeme.punctuation?_eq_none_of_notMem fun hc => ?_
    simp only [List.mem_cons, List.not_mem_nil, or_false] at hc
    rcases hc with rfl | rfl | rfl | rfl | rfl | rfl | rfl | rfl | rfl <;>
      exact absurd h (by decide)

theorem isNumeric_of_isSeparator {c : Char} (h : isSeparator c) : isNumeric c = false := by
  obtain ⟨hname, hpoint, -⟩ := isSeparator_iff.1 h
  have hdigit : c.isDigit = false := by
    refine Bool.eq_false_iff.2 fun hd => ?_
    rw [isNameChar_of_isDigit hd] at hname
    cases hname
  simp [isNumeric, hdigit, hpoint]

theorem closesAll_some_iff {c : Char} :
    closesAll (some c) ↔ isNumeric c = false ∧ isNameChar c = false := by
  simp [closesAll]

theorem closesAll_of_isSeparator {c : Char} (h : isSeparator c) : closesAll (some c) :=
  closesAll_some_iff.2 ⟨isNumeric_of_isSeparator h, (isSeparator_iff.1 h).1⟩

theorem takeWhile_append_of_neg {p : Char → Bool} {w : Char} (hw : p w = false)
    (cs rest : List Char) : (cs ++ w :: rest).takeWhile p = cs.takeWhile p := by
  induction cs with
  | nil => simp [hw]
  | cons c cs ih => simp only [List.cons_append, List.takeWhile_cons, ih]

namespace Lexeme

variable {w : Char}

theorem longest?_separator (hw : isSeparator w) (cs : List Char) : longest? w cs = none := by
  obtain ⟨hname, -, hmark⟩ := isSeparator_iff.1 hw
  have hminus : w ≠ '-' := by
    rintro rfl
    cases hmark
  have hstart : startsNumber w cs = false := by
    simp [startsNumber, isNumeric_of_isSeparator hw, hminus]
  have hletter : isLetter w = false := (Bool.or_eq_false_iff.1 hname).1
  rw [longest?_of_not_startsNumber hstart, hmark]
  simp [hletter]

/-- No lexeme reaches across a character that goes on with none. -/
theorem longest?_append_of_closesAll (hw : closesAll (some w)) (c : Char) (cs rest : List Char) :
    longest? c (cs ++ w :: rest) = longest? c cs := by
  obtain ⟨hnumeric, hname⟩ := closesAll_some_iff.1 hw
  have hdigit : w.isDigit = false := (Bool.or_eq_false_iff.1 hnumeric).1
  have hhead : (cs ++ w :: rest).head?.any Char.isDigit = cs.head?.any Char.isDigit := by
    cases cs with
    | nil => simp [hdigit]
    | cons => rfl
  rw [longest?, longest?, hhead, takeWhile_append_of_neg hnumeric, takeWhile_append_of_neg hname]

end Lexeme

namespace Piece

variable {w : Char} {cs lead trail : List Char}

theorem scan_append_of_closesAll (hw : closesAll (some w)) {n : Nat} (hn : n ≤ cs.length)
    (column : Nat) (rest : List Char) :
    scan n column (cs ++ w :: rest) =
      scan n column cs ++ scan 0 (column + cs.length) (w :: rest) := by
  induction cs generalizing n column with
  | nil =>
    obtain rfl : n = 0 := Nat.le_zero.1 hn
    rfl
  | cons c cs ih =>
    have hlength : column + (c :: cs).length = column + 1 + cs.length := by
      rw [List.length_cons]
      omega
    rw [hlength, List.cons_append]
    cases n with
    | succ n => exact ih (Nat.le_of_succ_le_succ hn) (column + 1)
    | zero =>
      rw [scan, scan, Lexeme.longest?_append_of_closesAll hw]
      cases hl : Lexeme.longest? c cs with
      | some p =>
        obtain ⟨l, n⟩ := p
        obtain ⟨run, after, rfl, rfl, -⟩ := Lexeme.longest?_eq_some hl
        simp only [ih (n := run.length) (by simp) (column + 1), List.cons_append]
      | none =>
        simp only [ih (Nat.zero_le _) (column + 1)]
        split <;> rfl

/-- Blank characters are passed over without a report. -/
theorem scan_append_of_blank (hlead : ∀ c ∈ lead, isBlank c) (column : Nat) (cs : List Char) :
    scan 0 column (lead ++ cs) = scan 0 (column + lead.length) cs := by
  induction lead generalizing column with
  | nil => rfl
  | cons c lead ih =>
    obtain ⟨hc, hlead⟩ := List.forall_mem_cons.1 hlead
    rw [List.cons_append, scan, Lexeme.longest?_separator (isSeparator_of_isBlank hc)]
    simp only [hc, if_true, ih hlead, List.length_cons]
    congr 1
    omega

theorem scan_margins (hlead : ∀ c ∈ lead, isBlank c) (htrail : ∀ c ∈ trail, isBlank c)
    (column : Nat) (cs : List Char) :
    scan 0 column (lead ++ cs ++ trail) = (scan 0 column cs).map (shift lead.length) := by
  have hright : scan 0 column (cs ++ trail) = scan 0 column cs := by
    cases trail with
    | nil => rw [List.append_nil]
    | cons w trail =>
      have hw := closesAll_of_isSeparator (isSeparator_of_isBlank (htrail w List.mem_cons_self))
      have hblank := scan_append_of_blank htrail (column + cs.length) []
      rw [List.append_nil] at hblank
      rw [scan_append_of_closesAll hw (Nat.zero_le _), hblank, scan, List.append_nil]
  rw [List.append_assoc, scan_append_of_blank hlead, scan_add, hright]

end Piece

theorem lexemes_append_of_closesAll {w : Char} (hw : closesAll (some w)) (cs rest : List Char) :
    lexemes (cs ++ w :: rest) = lexemes cs ++ lexemes (w :: rest) := by
  rw [lexemes, Piece.scan_append_of_closesAll hw (Nat.zero_le _), List.filterMap_append,
    filterMap_lexeme?_scan, filterMap_lexeme?_scan]

theorem exists_margins (cs : List Char) :
    ∃ trail, cs = cs.takeWhile isBlank ++ trim cs ++ trail ∧ ∀ c ∈ trail, isBlank c := by
  refine ⟨((cs.dropWhile isBlank).reverse.takeWhile isBlank).reverse, ?_, fun c hc => ?_⟩
  · rw [trim, List.append_assoc, ← List.reverse_append, List.takeWhile_append_dropWhile,
      List.reverse_reverse, List.takeWhile_append_dropWhile]
  · exact List.all_eq_true.1 List.all_takeWhile c (List.mem_reverse.1 hc)

/-! ### Two texts with a separator between them -/

/-- The token, `k` columns further right. -/
def Token.indent (k : Nat) (t : Token) : Token := { t with column := t.column + k }

theorem token?_shift (k : Nat) (p : Piece) :
    (p.shift k).token? = p.token?.map (Token.indent k) := by
  cases p <;> rfl

theorem filterMap_token?_shift (k : Nat) (ps : List Piece) :
    (ps.map (Piece.shift k)).filterMap Piece.token? =
      (ps.filterMap Piece.token?).map (Token.indent k) := by
  have htoken : Piece.token? ∘ Piece.shift k = fun p => p.token?.map (Token.indent k) :=
    funext (token?_shift k)
  rw [List.filterMap_map, List.map_filterMap, htoken]

/-- Of a separator there is one report at most, and behind it the scan starts anew. -/
theorem Piece.scan_separator {w : Char} (hw : isSeparator w) (column : Nat)
    (cs rest : List Char) :
    scan 0 column (cs ++ w :: rest) =
      scan 0 column cs ++ ((if isBlank w then [] else [stray w (column + cs.length)]) ++
        (scan 0 column rest).map (shift (cs.length + 1))) := by
  rw [scan_append_of_closesAll (closesAll_of_isSeparator hw) (Nat.zero_le _), scan,
    Lexeme.longest?_separator hw, ← scan_add]
  by_cases hblank : isBlank w
  · simp [hblank, Nat.add_assoc]
  · simp [hblank, Nat.add_assoc]

/-- A character that is blank, or that no lexeme starts with or goes on with, splits a text: the
tokens are those of the two parts, and those of the second stand behind the first. -/
theorem tokenize_separated (before after : String) {w : Char}
    (hw : isBlank w ∨ isLetter w = false ∧ isDecimalDigit w = false ∧ w ≠ '.' ∧
      w ∉ ['(', ')', '=', ',', '+', '-', '*', '/', '^']) :
    tokenize (before ++ String.singleton w ++ after) =
      tokenize before ++ (tokenize after).map (Token.indent (before.length + 1)) := by
  have hseparator : isSeparator w := by
    rcases hw with hblank | ⟨hletter, hdigit, hpoint, hmark⟩
    · exact isSeparator_of_isBlank hblank
    · exact isSeparator_iff.2 ⟨by simp [isNameChar, hletter, hdigit], hpoint,
        Lexeme.punctuation?_eq_none_of_notMem hmark⟩
  have htext : (before ++ String.singleton w ++ after).toList =
      before.toList ++ w :: after.toList := by simp
  have hreport : (if isBlank w then [] else [Piece.stray w (1 + before.toList.length)]).filterMap
      Piece.token? = [] := by
    split <;> rfl
  rw [tokenize, pieces, htext, Piece.scan_separator hseparator, List.filterMap_append,
    List.filterMap_append, hreport, filterMap_token?_shift, List.nil_append, String.length_toList]
  rfl

/-- A minus sign is cut off from its number, and so is a name from the digits of another script. -/
theorem cut_tokenize_separated :
    isBlank '€' = false ∧ isLetter '€' = false ∧ isDecimalDigit '€' = false ∧
      tokenize ("é٣-" ++ String.singleton '€' ++ "5.٣x") =
        tokenize "é٣-" ++ (tokenize "5.٣x").map (Token.indent 4) ∧
      tokenize ("é٣-" ++ String.singleton '€' ++ "5.٣x") =
        [⟨.symbol "é٣", 1⟩, ⟨.operator .sub, 3⟩, ⟨.number "5.", 5⟩, ⟨.symbol "x", 8⟩] := by
  have hletter : isLetter '€' = false := by decide +kernel
  have hdigit : isDecimalDigit '€' = false := by decide +kernel
  have hsplit := tokenize_separated "é٣-" "5.٣x" (.inr ⟨hletter, hdigit, by decide, by decide⟩)
  exact ⟨by decide, hletter, hdigit, hsplit, by decide +kernel⟩

end ChainCalc
