import ChainCalc.Proofs.Frame
import ChainCalc.Proofs.Separation
import ChainCalc.Session

/-!
# The tokens tile the text

`Tiling start cs tokens` says what the tokens of the characters `cs` are, without a scan: they stand
one behind the other, each has the spelling of its kind and is found at its column, none can be made
longer, and a character that no token takes up is one that no token starts with. The first character
is at the column `start`.

A scan gives such tokens, and there are no others (`tiling_iff`): at each column either a lexeme can
start, and then one has to, and it is the longest (`Tiling.exists_eq_cons`), or none can
(`tiling_cons_of_longest?_none`). A report is made of each token, and of each character between the
tokens that is not blank (`stray_mem_scan_iff`).
-/

namespace ChainCalc

/-! ### What starts a lexeme -/

namespace Lexeme

variable {c : Char} {cs : List Char} {l : Lexeme}

/-- A number is `[0-9.]+` or `-[0-9][0-9.]*`, and a name is a letter before letters and decimal
digits. -/
def Matches : Lexeme → Prop
  | number text =>
    (text.toList ≠ [] ∧ ∀ c ∈ text.toList, c.isDigit ∨ c = '.') ∨
      ∃ d ds, text.toList = '-' :: d :: ds ∧ d.isDigit ∧ ∀ c ∈ ds, c.isDigit ∨ c = '.'
  | symbol name =>
    ∃ c cs, name.toList = c :: cs ∧ isLetter c ∧ ∀ d ∈ cs, isLetter d ∨ isDecimalDigit d
  | openParen | closeParen | equals | operator _ | comma => True

theorem isNumberText_iff :
    isNumberText cs ↔ (cs ≠ [] ∧ ∀ c ∈ cs, c.isDigit ∨ c = '.') ∨
      ∃ d ds, cs = '-' :: d :: ds ∧ d.isDigit ∧ ∀ c ∈ ds, c.isDigit ∨ c = '.' := by
  have hnumeric : ∀ c, isNumeric c ↔ c.isDigit ∨ c = '.' := by simp [isNumeric]
  rcases cs with _ | ⟨c, cs⟩
  · simp [isNumberText]
  · simp only [isNumberText, startsNumber, Bool.and_eq_true, Bool.or_eq_true, hnumeric,
      List.all_eq_true, beq_iff_eq]
    constructor
    · rintro ⟨hc | ⟨rfl, hd⟩, hall⟩
      · exact .inl ⟨by simp, by simpa using ⟨hc, hall⟩⟩
      · rcases cs with _ | ⟨d, ds⟩
        · simp at hd
        · exact .inr ⟨d, ds, rfl, by simpa using hd, fun c hc => hall c (by simp [hc])⟩
    · rintro (⟨-, hall⟩ | ⟨d, ds, hcs, hd, hall⟩)
      · exact ⟨.inl (hall c (by simp)), fun d hd => hall d (by simp [hd])⟩
      · obtain ⟨rfl, rfl⟩ := List.cons.inj hcs
        exact ⟨.inr ⟨rfl, by simpa using hd⟩, by simpa [hd] using hall⟩

theorem isNameText_iff :
    isNameText cs ↔
      ∃ d ds, cs = d :: ds ∧ isLetter d ∧ ∀ e ∈ ds, isLetter e ∨ isDecimalDigit e := by
  rcases cs with _ | ⟨c, cs⟩
  · simp [isNameText]
  · simp only [isNameText, isNameChar, Bool.and_eq_true, List.all_eq_true, Bool.or_eq_true]
    constructor
    · intro h
      exact ⟨c, cs, rfl, h⟩
    · rintro ⟨d, ds, hcs, h⟩
      obtain ⟨rfl, rfl⟩ := List.cons.inj hcs
      exact h

theorem wellSpelled_iff : l.wellSpelled ↔ l.Matches := by
  rcases l with _ | _ | text | _ | _ | name | _
  case number => exact isNumberText_iff
  case symbol => exact isNameText_iff
  all_goals simp [wellSpelled, Matches]

/-- Some lexeme starts with the character. -/
def Starts (c : Char) : Prop := ∃ l : Lexeme, l.Matches ∧ l.spell.head? = some c

theorem of_longest?_eq_none (h : longest? c cs = none) :
    isNumeric c = false ∧ punctuation? c = none ∧ isLetter c = false := by
  have hstart : startsNumber c cs = false := by
    refine Bool.eq_false_iff.2 fun hstart => ?_
    simp [longest?_of_startsNumber hstart] at h
  have hletter : isLetter c = false := by
    refine Bool.eq_false_iff.2 fun hletter => ?_
    simp [longest?_of_isLetter hletter] at h
  rw [longest?_of_not_startsNumber hstart] at h
  refine ⟨(Bool.or_eq_false_iff.1 hstart).1, ?_, hletter⟩
  rcases hp : punctuation? c with _ | l
  · rfl
  · simp [hp] at h

/-- Whether a lexeme starts at a character shows on the character alone. -/
theorem longest?_eq_none_iff : longest? c cs = none ↔ ¬ Starts c := by
  constructor
  · rintro hnone ⟨l, hl, hs⟩
    obtain ⟨run, hs⟩ := List.head?_eq_some_iff.1 hs
    obtain ⟨hnumeric, hmark, hletter⟩ := of_longest?_eq_none hnone
    by_cases hm : l.isMark
    · rcases run with _ | ⟨d, run⟩
      · simp [punctuation?_eq_some_iff.2 ⟨hm, hs⟩] at hmark
      · rcases l <;> simp_all [spell, isMark]
    · rcases l with _ | _ | text | _ | _ | name | _
      case number =>
        rcases hl with ⟨-, hall⟩ | ⟨d, ds, htext, -⟩
        · rcases hall c (by simp [show text.toList = c :: run from hs]) with hc | rfl
          · simp [isNumeric_of_isDigit hc] at hnumeric
          · simp [isNumeric] at hnumeric
        · -- a minus sign is a lexeme by itself
          obtain ⟨rfl, -⟩ := List.cons.inj (htext.symm.trans hs)
          simp [punctuation?, Operator.ofSign?] at hmark
      case symbol =>
        obtain ⟨d, ds, hname, hd, -⟩ := hl
        obtain ⟨rfl, -⟩ := List.cons.inj (hname.symm.trans hs)
        simp [hd] at hletter
      all_goals simp [isMark] at hm
  · intro hstarts
    rcases hl : longest? c cs with _ | ⟨l, n⟩
    · rfl
    · obtain ⟨run, rest, -, -, hs, hw, -⟩ := longest?_eq_some hl
      exact absurd ⟨l, wellSpelled_iff.1 hw, by simp [hs]⟩ hstarts

end Lexeme

/-! ### Tilings -/

namespace Token

/-- The token takes up the column. -/
def Covers (t : Token) (column : Nat) : Prop :=
  t.column ≤ column ∧ column < t.column + t.lexeme.spell.length

/-- The token is found in `cs` at its column, is spelled like a lexeme of its kind, and the
character behind it does not go on with it. -/
def Fits (start : Nat) (cs : List Char) (t : Token) : Prop :=
  ∃ before after, cs = before ++ (t.lexeme.spell ++ after) ∧ t.column = start + before.length ∧
    t.lexeme.Matches ∧ t.lexeme.closedBy after.head?

variable {start k : Nat} {c : Char} {cs : List Char} {t : Token} {l : Lexeme}

theorem Fits.covers (h : t.Fits start cs) : t.Covers t.column := by
  obtain ⟨before, after, -, -, hm, -⟩ := h
  have hne := List.length_pos_iff.2 (Lexeme.spell_ne_nil (Lexeme.wellSpelled_iff.2 hm))
  exact ⟨Nat.le_refl _, by omega⟩

theorem Fits.start_le (h : t.Fits start cs) : start ≤ t.column := by
  obtain ⟨before, after, -, hcolumn, -⟩ := h
  omega

theorem not_fits_nil : ¬ t.Fits start [] := by
  rintro ⟨before, after, hcs, -, hm, -⟩
  have hnil := List.append_eq_nil_iff.1 (List.append_eq_nil_iff.1 hcs.symm).2
  exact Lexeme.spell_ne_nil (Lexeme.wellSpelled_iff.2 hm) hnil.1

theorem fits_drop_iff (start : Nat) (hk : k ≤ cs.length) :
    t.Fits (start + k) (cs.drop k) ↔ t.Fits start cs ∧ start + k ≤ t.column := by
  constructor
  · rintro ⟨before, after, hcs, hcolumn, hfit⟩
    refine ⟨⟨cs.take k ++ before, after, ?_, ?_, hfit⟩, by omega⟩
    · rw [List.append_assoc, ← hcs, List.take_append_drop]
    · rw [List.length_append, List.length_take]
      omega
  · rintro ⟨⟨before, after, hcs, hcolumn, hfit⟩, hle⟩
    refine ⟨before.drop k, after, ?_, ?_, hfit⟩
    · rw [hcs, List.drop_append_of_le_length (by omega)]
    · rw [List.length_drop]
      omega

/-- Only the longest lexeme fits where it starts. -/
theorem fits_start_iff : (⟨l, start⟩ : Token).Fits start (c :: cs) ↔
    ∃ n, Lexeme.longest? c cs = some (l, n) := by
  constructor
  · rintro ⟨before, after, hcs, hcolumn, hm, hclosed⟩
    obtain rfl : before = [] := by simpa using hcolumn
    have hw := Lexeme.wellSpelled_iff.2 hm
    rcases hs : l.spell with _ | ⟨d, run⟩
    · exact absurd hs (Lexeme.spell_ne_nil hw)
    · simp only [hs, List.nil_append, List.cons_append, List.cons.injEq] at hcs
      obtain ⟨rfl, rfl⟩ := hcs
      exact ⟨run.length, Lexeme.longest?_of_spell hs hw hclosed⟩
  · rintro ⟨n, hl⟩
    obtain ⟨run, rest, rfl, -, hs, hw, hclosed⟩ := Lexeme.longest?_eq_some hl
    exact ⟨[], rest, by simp [hs], rfl, Lexeme.wellSpelled_iff.1 hw, hclosed⟩

end Token

structure Tiling (start : Nat) (cs : List Char) (tokens : List Token) : Prop where
  increasing : tokens.Pairwise (·.column < ·.column)
  disjoint : tokens.Pairwise fun t u => ∀ column, t.Covers column → ¬ u.Covers column
  fits : ∀ t ∈ tokens, t.Fits start cs
  gaps : ∀ i c, cs[i]? = some c → (∀ t ∈ tokens, ¬ t.Covers (start + i)) →
    isBlank c ∨ ¬ Lexeme.Starts c

section
variable {start n : Nat} {c : Char} {cs : List Char} {tokens : List Token} {l : Lexeme}

theorem tiling_nil_iff : Tiling start [] tokens ↔ tokens = [] := by
  constructor
  · intro h
    exact List.eq_nil_iff_forall_not_mem.2 fun t ht => Token.not_fits_nil (h.fits t ht)
  · rintro rfl
    exact ⟨.nil, .nil, by simp, by simp⟩

theorem tiling_cons_of_longest?_none (h : Lexeme.longest? c cs = none) :
    Tiling start (c :: cs) tokens ↔ Tiling (start + 1) cs tokens := by
  have hdrop : ∀ t : Token,
      t.Fits (start + 1) cs ↔ t.Fits start (c :: cs) ∧ start + 1 ≤ t.column := by
    intro t
    have hone : 1 ≤ (c :: cs).length := by simp
    exact Token.fits_drop_iff start hone
  constructor
  · rintro ⟨hincreasing, hdisjoint, hfits, hgaps⟩
    refine ⟨hincreasing, hdisjoint, fun t ht => (hdrop t).2 ⟨hfits t ht, ?_⟩, fun i d hd hi => ?_⟩
    · -- no token fits at the first column
      have hstart := (hfits t ht).start_le
      rcases Nat.lt_or_eq_of_le hstart with hlt | rfl
      · exact hlt
      · obtain ⟨n, hl⟩ := Token.fits_start_iff.1 (hfits t ht)
        simp [h] at hl
    · have hcolumn : start + (i + 1) = start + 1 + i := by omega
      exact hgaps (i + 1) d hd (by rwa [hcolumn])
  · rintro ⟨hincreasing, hdisjoint, hfits, hgaps⟩
    refine ⟨hincreasing, hdisjoint, fun t ht => ((hdrop t).1 (hfits t ht)).1, fun i d hd hi => ?_⟩
    rcases i with _ | i
    · obtain rfl : c = d := by simpa using hd
      exact .inr (Lexeme.longest?_eq_none_iff.1 h)
    · have hcolumn : start + (i + 1) = start + 1 + i := by omega
      exact hgaps i d (by simpa using hd) (by rwa [hcolumn] at hi)

theorem covers_of_longest? (start column : Nat) (h : Lexeme.longest? c cs = some (l, n)) :
    (⟨l, start⟩ : Token).Covers column ↔ start ≤ column ∧ column < start + 1 + n := by
  obtain ⟨run, rest, -, rfl, hs, -⟩ := Lexeme.longest?_eq_some h
  simp only [Token.Covers, hs, List.length_cons]
  omega

theorem fits_of_longest? (start : Nat) (h : Lexeme.longest? c cs = some (l, n)) (t : Token) :
    t.Fits (start + 1 + n) (cs.drop n) ↔ t.Fits start (c :: cs) ∧ start + 1 + n ≤ t.column := by
  obtain ⟨run, rest, rfl, rfl, -⟩ := Lexeme.longest?_eq_some h
  have hlength : run.length + 1 ≤ (c :: (run ++ rest)).length := by simp
  have hdrop := Token.fits_drop_iff (t := t) start hlength
  rwa [List.drop_succ_cons, ← Nat.add_assoc, Nat.add_right_comm] at hdrop

/-- Where a lexeme can start, there is a token, since the character may not be left out. -/
theorem Tiling.exists_eq_cons (h : Tiling start (c :: cs) tokens)
    (hl : Lexeme.longest? c cs = some (l, n)) : ∃ rest, tokens = ⟨l, start⟩ :: rest := by
  have hstarts : ¬ (isBlank c ∨ ¬ Lexeme.Starts c) := by
    rintro (hblank | hstarts)
    · simp [Lexeme.longest?_separator (isSeparator_of_isBlank hblank)] at hl
    · simp [Lexeme.longest?_eq_none_iff.2 hstarts] at hl
  have hcovered : ¬ ∀ t ∈ tokens, ¬ t.Covers start := fun hnone =>
    hstarts (h.gaps 0 c rfl hnone)
  rcases tokens with _ | ⟨⟨m, column⟩, rest⟩
  · simp at hcovered
  · -- a token behind the first one would not cover the first column
    have hbehind := (List.pairwise_cons.1 h.increasing).1
    have hfirst := h.fits ⟨m, column⟩ List.mem_cons_self
    have hle := hfirst.start_le
    have hcolumn : column = start := by
      refine Nat.le_antisymm (Nat.not_lt.1 fun hlt => hcovered fun t ht => ?_) hle
      rintro ⟨hcolumn, -⟩
      rcases List.mem_cons.1 ht with rfl | ht
      · exact absurd hlt (Nat.not_lt.2 hcolumn)
      · have := hbehind t ht
        omega
    subst hcolumn
    obtain ⟨k, hk⟩ := Token.fits_start_iff.1 hfirst
    obtain ⟨rfl, -⟩ : l = m ∧ n = k := by simpa [hl] using hk
    exact ⟨rest, rfl⟩

theorem Tiling.behind_first {rest : List Token} (hl : Lexeme.longest? c cs = some (l, n))
    (h : Tiling start (c :: cs) (⟨l, start⟩ :: rest)) :
    Tiling (start + 1 + n) (cs.drop n) rest := by
  have hcovers := fun column => covers_of_longest? start column hl
  obtain ⟨hapart, hdisjoint⟩ := List.pairwise_cons.1 h.disjoint
  have hbehind : ∀ t ∈ rest, start + 1 + n ≤ t.column := by
    intro t ht
    have hfit := h.fits t (List.mem_cons_of_mem _ ht)
    have hnot : ¬ (⟨l, start⟩ : Token).Covers t.column := fun hc =>
      hapart t ht t.column hc hfit.covers
    have := hfit.start_le
    rw [hcovers] at hnot
    omega
  refine ⟨(List.pairwise_cons.1 h.increasing).2, hdisjoint, fun t ht => ?_, fun i d hd hi => ?_⟩
  · exact (fits_of_longest? start hl t).2 ⟨h.fits t (List.mem_cons_of_mem _ ht), hbehind t ht⟩
  · have hcolumn : start + (n + i + 1) = start + 1 + n + i := by omega
    refine h.gaps (n + i + 1) d (by simpa using hd) (List.forall_mem_cons.2 ⟨?_, ?_⟩)
    · rw [hcovers]
      omega
    · rwa [hcolumn]

theorem Tiling.put_first {rest : List Token} (hl : Lexeme.longest? c cs = some (l, n))
    (h : Tiling (start + 1 + n) (cs.drop n) rest) :
    Tiling start (c :: cs) (⟨l, start⟩ :: rest) := by
  have hcovers := fun column => covers_of_longest? start column hl
  have hbehind : ∀ t ∈ rest, start + 1 + n ≤ t.column := fun t ht => (h.fits t ht).start_le
  refine ⟨List.pairwise_cons.2 ⟨fun t ht => ?_, h.increasing⟩,
    List.pairwise_cons.2 ⟨fun t ht column hc hcovered => ?_, h.disjoint⟩,
    List.forall_mem_cons.2 ⟨Token.fits_start_iff.2 ⟨n, hl⟩, fun t ht => ?_⟩, fun i d hd hi => ?_⟩
  · have := hbehind t ht
    show start < t.column
    omega
  · have := hbehind t ht
    have := (hcovers column).1 hc
    have := hcovered.1
    omega
  · exact ((fits_of_longest? start hl t).1 (h.fits t ht)).1
  · -- a character that the first token leaves out is behind it
    obtain ⟨hfirst, hrest⟩ := List.forall_mem_cons.1 hi
    rw [hcovers] at hfirst
    obtain ⟨j, rfl⟩ : ∃ j, i = n + j + 1 := ⟨i - n - 1, by omega⟩
    have hcolumn : start + (n + j + 1) = start + 1 + n + j := by omega
    rw [hcolumn] at hrest
    exact h.gaps j d (by simpa using hd) hrest

end

/-! ### Scans -/

namespace Piece

/-- A scan passes a character that starts no lexeme, or takes a whole lexeme. -/
@[elab_as_elim]
theorem scan_induction {motive : Nat → List Char → Prop} (nil : ∀ start, motive start [])
    (pass : ∀ start c cs, Lexeme.longest? c cs = none → motive (start + 1) cs →
      motive start (c :: cs))
    (take : ∀ start c cs l n, Lexeme.longest? c cs = some (l, n) →
      motive (start + 1 + n) (cs.drop n) → motive start (c :: cs))
    (start : Nat) (cs : List Char) : motive start cs := by
  match cs with
  | [] => exact nil start
  | c :: cs =>
    rcases h : Lexeme.longest? c cs with _ | ⟨l, n⟩
    · exact pass start c cs h (scan_induction nil pass take (start + 1) cs)
    · have : (cs.drop n).length < cs.length + 1 := by
        rw [List.length_drop]
        omega
      exact take start c cs l n h (scan_induction nil pass take (start + 1 + n) (cs.drop n))
termination_by cs.length

theorem scan_of_longest?_none {c : Char} {cs : List Char} (column : Nat)
    (h : Lexeme.longest? c cs = none) :
    scan 0 column (c :: cs) =
      (if isBlank c then [] else [stray c column]) ++ scan 0 (column + 1) cs := by
  rw [scan, h]
  by_cases hblank : isBlank c
  · simp [hblank]
  · simp [hblank]

def column : Piece → Nat
  | token t => t.column
  | stray _ column => column

variable {start : Nat} {cs : List Char}

theorem start_le_of_mem_scan {p : Piece} (h : p ∈ scan 0 start cs) : start ≤ p.column := by
  induction start, cs using scan_induction with
  | nil start => simp [scan] at h
  | pass start c cs hl ih =>
    rw [scan_of_longest?_none start hl, List.mem_append] at h
    rcases h with h | h
    · split at h
      · simp at h
      · obtain rfl := List.mem_singleton.1 h
        exact Nat.le_refl start
    · have := ih h
      omega
  | take start c cs l n hl ih =>
    rw [scan_of_longest? start hl, List.mem_cons] at h
    rcases h with rfl | h
    · exact Nat.le_refl start
    · have := ih h
      omega

theorem scan_increasing (start : Nat) (cs : List Char) :
    (scan 0 start cs).Pairwise (·.column < ·.column) := by
  induction start, cs using scan_induction with
  | nil start => exact .nil
  | pass start c cs hl ih =>
    rw [scan_of_longest?_none start hl]
    split
    · exact ih
    · exact List.pairwise_cons.2 ⟨fun p hp => start_le_of_mem_scan hp, ih⟩
  | take start c cs l n hl ih =>
    rw [scan_of_longest? start hl]
    refine List.pairwise_cons.2 ⟨fun p hp => ?_, ih⟩
    have := start_le_of_mem_scan hp
    show start < p.column
    omega

end Piece

theorem tiling_iff {start : Nat} {cs : List Char} {tokens : List Token} :
    Tiling start cs tokens ↔ tokens = (Piece.scan 0 start cs).filterMap Piece.token? := by
  induction start, cs using Piece.scan_induction generalizing tokens with
  | nil start => exact tiling_nil_iff
  | pass start c cs hl ih =>
    have hreport : (if isBlank c then [] else [Piece.stray c start]).filterMap Piece.token? =
        [] := by
      split <;> rfl
    rw [tiling_cons_of_longest?_none hl, ih, Piece.scan_of_longest?_none start hl,
      List.filterMap_append, hreport, List.nil_append]
  | take start c cs l n hl ih =>
    have hfirst : (Piece.token ⟨l, start⟩).token? = some ⟨l, start⟩ := rfl
    rw [Piece.scan_of_longest? start hl, List.filterMap_cons_some hfirst]
    constructor
    · intro h
      obtain ⟨rest, rfl⟩ := h.exists_eq_cons hl
      rw [ih.1 (h.behind_first hl)]
    · rintro rfl
      exact (ih.2 rfl).put_first hl

/-- The strays are the characters between the tokens that are not blank. -/
theorem stray_mem_scan_iff {start : Nat} {cs : List Char} {d : Char} {column : Nat} :
    .stray d column ∈ Piece.scan 0 start cs ↔
      ∃ i, column = start + i ∧ cs[i]? = some d ∧ isBlank d = false ∧
        ∀ t, .token t ∈ Piece.scan 0 start cs → ¬ t.Covers column := by
  induction start, cs using Piece.scan_induction with
  | nil start => simp [Piece.scan]
  | pass start c cs hl ih =>
    have hreport : ∀ p, p ∈ (if isBlank c then [] else [Piece.stray c start]) ↔
        isBlank c = false ∧ p = .stray c start := by
      intro p
      split <;> simp_all
    simp only [Piece.scan_of_longest?_none start hl, List.mem_append, hreport]
    constructor
    · rintro (⟨hblank, hp⟩ | hp)
      · obtain ⟨rfl, rfl⟩ := Piece.stray.inj hp
        refine ⟨0, rfl, rfl, hblank, fun t ht hcovers => ?_⟩
        have hbehind := Piece.start_le_of_mem_scan (ht.resolve_left (by simp))
        exact absurd hcovers.1 (Nat.not_le.2 hbehind)
      · obtain ⟨i, rfl, hd, hblank, hfree⟩ := ih.1 hp
        exact ⟨i + 1, by omega, hd, hblank, fun t ht => hfree t (ht.resolve_left (by simp))⟩
    · rintro ⟨i, rfl, hd, hblank, hfree⟩
      rcases i with _ | i
      · obtain rfl : c = d := by simpa using hd
        exact .inl ⟨hblank, rfl⟩
      · exact .inr (ih.2 ⟨i, by omega, by simpa using hd, hblank, fun t ht => hfree t (.inr ht)⟩)
  | take start c cs l n hl ih =>
    simp only [Piece.scan_of_longest? start hl, List.mem_cons, reduceCtorEq, false_or]
    constructor
    · intro hp
      obtain ⟨i, rfl, hd, hblank, hfree⟩ := ih.1 hp
      refine ⟨n + i + 1, by omega, by simpa using hd, hblank, fun t ht => ?_⟩
      rcases ht with ht | ht
      · obtain rfl := Piece.token.inj ht
        rw [covers_of_longest? _ _ hl]
        omega
      · exact hfree t ht
    · rintro ⟨i, rfl, hd, hblank, hfree⟩
      -- the characters of the first lexeme are covered, so the stray one is behind them
      have hfirst := hfree ⟨l, start⟩ (.inl rfl)
      rw [covers_of_longest? _ _ hl] at hfirst
      obtain ⟨j, rfl⟩ : ∃ j, i = n + j + 1 := ⟨i - n - 1, by omega⟩
      exact ih.2 ⟨j, by omega, by simpa using hd, hblank, fun t ht => hfree t (.inr ht)⟩

/-! ### Reports -/

/-- The events that a scan of the text makes. -/
def Event.ofText : Event → Bool
  | lexed .. | skipped .. => true
  | parsed .. | assigned .. | declared .. | calling .. | selected .. => false

/-- The events of scans among those so far. -/
def Machine.scanned (m : Machine) : List Event := m.trace.filter Event.ofText

namespace Term

open EvalM

theorem keeps_scanned_callRule (limit budget : Nat) (name : String) (f : Closure)
    (xs : List Float) (scope : Variables) :
    Keeps Machine.scanned (callRule limit budget name f xs scope) := by
  induction budget generalizing name f xs scope with
  | zero => exact .throw _
  | succ budget ih =>
    have hbody : Keeps Machine.scanned (f.body.demand (f.body.eval limit budget)) := by
      refine keeps_demand fun hbody => ?_
      rw [eval_eq_evalWith]
      exact keeps_evalWith ih f.body (fun _ _ _ _ => rfl) hbody
    intro m
    exact hbody (m.enter name xs scope)

/-- Running a term scans nothing. -/
theorem keeps_scanned (limit budget : Nat) (t : Term) :
    Keeps Machine.scanned (t.eval limit budget) := by
  rw [eval_eq_evalWith]
  by_cases ht : t.isDeclaration
  · obtain ⟨name, params, body, rfl⟩ := exists_eq_declare ht
    intro m
    rfl
  · exact keeps_evalWith (keeps_scanned_callRule limit budget) t (fun _ _ _ _ => rfl) ht

end Term

theorem Evaluator.filter_ofText_events (e : Evaluator) (env : Environment) (t : Term) :
    (e.evaluate env t).events.filter Event.ofText = [] := by
  have hkeeps := t.keeps_scanned e.limit (e.limit - e.depth) ⟨env.vars, env.functions, e.depth, []⟩
  show (List.reverse _).filter Event.ofText = []
  rw [List.filter_reverse, List.reverse_eq_nil_iff]
  exact hkeeps

/-- A statement reports the pieces of its text, and nothing else about it. -/
theorem Session.filter_ofText_events (s : Session) (source : String) :
    (s.run source).events.filter Event.ofText = (pieces source).map Event.ofPiece := by
  have hscan : ((pieces source).map Event.ofPiece).filter Event.ofText =
      (pieces source).map Event.ofPiece := by
    refine List.filter_eq_self.2 fun e he => ?_
    obtain ⟨p, -, rfl⟩ := List.mem_map.1 he
    cases p <;> rfl
  rw [run]
  split
  · exact hscan
  · rename_i term _
    have hrest := s.evaluator.filter_ofText_events s.environment term
    rw [List.filter_append, hscan, List.filter_cons_of_neg (by simp [Event.ofText]), hrest,
      List.append_nil]

/-- The tokens of a text are the only ones that tile it. Each of them is reported, and so is each
character between them that is not blank, in the order of the text and with its column. -/
theorem tokenize_is_unique_tiling (source : String) :
    (∀ tokens, Tiling 1 source.toList tokens ↔ tokens = tokenize source) ∧
      (∀ s : Session, (s.run source).events.filter Event.ofText =
        (pieces source).map Event.ofPiece) ∧
      (pieces source).Pairwise (·.column < ·.column) ∧
      (∀ t, .token t ∈ pieces source ↔ t ∈ tokenize source) ∧
      ∀ c column, .stray c column ∈ pieces source ↔
        1 ≤ column ∧ source.toList[column - 1]? = some c ∧ isBlank c = false ∧
          ∀ t ∈ tokenize source, ¬ t.Covers column := by
  have htoken : ∀ t, .token t ∈ pieces source ↔ t ∈ tokenize source := by
    intro t
    rw [tokenize, List.mem_filterMap]
    constructor
    · intro ht
      exact ⟨.token t, ht, rfl⟩
    · rintro ⟨p | _, hp, ht⟩
      · obtain rfl := Option.some.inj ht
        exact hp
      · cases ht
  refine ⟨fun tokens => tiling_iff, fun s => s.filter_ofText_events source,
    Piece.scan_increasing 1 source.toList, htoken, fun c column => ?_⟩
  rw [pieces, stray_mem_scan_iff]
  constructor
  · rintro ⟨i, rfl, hc, hblank, hfree⟩
    have hi : 1 + i - 1 = i := by omega
    exact ⟨by omega, by rw [hi]; exact hc, hblank, fun t ht => hfree t ((htoken t).2 ht)⟩
  · rintro ⟨hone, hc, hblank, hfree⟩
    exact ⟨column - 1, by omega, hc, hblank, fun t ht => hfree t ((htoken t).1 ht)⟩

end ChainCalc
