import ChainCalc.Proofs.InputSource
import ChainCalc.Proofs.IntegerWords
import ChainCalc.Proofs.OrderPattern

/-!
# Peeks of peeks

What `peek` prints is text that it can read: integers in range with a space between any two, a line
for each sequence. A peek is its own best peek, so the lines come out as they went in. Only an empty
line, which is printed for a sequence without any value from zero on, is blank and gets lost
(`Report.peek_output_stable`).

`peekLines_cases` says what becomes of the lines that are not blank: each one up to the first that
is no sequence has its peek.
-/

namespace ChainCalc

/-! ### Values of a peek -/

section

variable {values : List Int}

theorem mem_of_mem_bestPeek {x : Int} (hx : x ∈ bestPeek values) : x ∈ values := by
  obtain ⟨positions, -, hbest⟩ := Peek.exists_picks_bestPeek values
  rw [hbest] at hx
  obtain ⟨p, -, rfl⟩ := List.mem_map.1 hx
  exact List.get_mem values p

theorem bestPeek_bestPeek (values : List Int) : bestPeek (bestPeek values) = bestPeek values :=
  bestPeek_eq_self_iff.2 ⟨bestPeek_increasing values, fun _ => nonneg_of_mem_bestPeek⟩

theorem bestPeek_eq_nil_iff : bestPeek values = [] ↔ ∀ x ∈ values, x < 0 := by
  constructor
  · intro hnil x hx
    obtain ⟨positions, hpicks, hbest⟩ := Peek.exists_picks_bestPeek values
    obtain rfl : positions = [] := List.map_eq_nil_iff.1 (hbest.symm.trans hnil)
    obtain ⟨i, rfl⟩ := List.mem_iff_get.1 hx
    cases hpicks with
    | none hnone =>
      have := hnone i (Nat.zero_le _)
      omega
  · intro hneg
    refine List.eq_nil_iff_forall_not_mem.2 fun x hx => ?_
    have hnonneg := nonneg_of_mem_bestPeek hx
    have := hneg x (mem_of_mem_bestPeek hx)
    omega

theorem inRange_of_readSequence {cs : List Char} (h : readSequence cs = .ok values) :
    ∀ z ∈ values, InRange z := by
  have hdenotes := readIntegers_eq_ok_iff.1 h
  generalize words cs = ws at hdenotes
  clear h
  induction hdenotes with
  | nil => simp
  | cons hz _ ih => exact List.forall_mem_cons.2 ⟨hz.inRange, ih⟩

end

namespace Report

/-! ### Printed lines -/

/-- The line that is printed for a peek. -/
def peekText (peek : List Int) : String := " ".intercalate (peek.map toString)

section

variable {peek : List Int}

theorem toList_peekText (peek : List Int) :
    (peekText peek).toList = List.intercalate [' '] (peek.map fun z => (toString z).toList) := by
  rw [peekText, String.toList_intercalate, List.map_map]
  rfl

theorem runs_peekText (hpeek : ∀ z ∈ peek, InRange z) :
    Runs (peekText peek).toList (peek.map fun z => (toString z).toList) := by
  rw [toList_peekText]
  exact runs_intercalate (.singleton (by decide)) (List.cons_ne_nil _ _)
    (isWord_of_mem_map_toString hpeek)

theorem readSequence_peekText (hpeek : ∀ z ∈ peek, InRange z) :
    readSequence (peekText peek).toList = .ok peek :=
  readSequence_of_runs hpeek (runs_peekText hpeek)

theorem isGap_peekText_iff (hpeek : ∀ z ∈ peek, InRange z) :
    IsGap (peekText peek).toList ↔ peek = [] := by
  rw [← words_eq_nil_iff, (runs_peekText hpeek).words_eq, List.map_eq_nil_iff]

theorem peekText_eq_empty_iff (hpeek : ∀ z ∈ peek, InRange z) : peekText peek = "" ↔ peek = [] := by
  constructor
  · intro hempty
    rw [← isGap_peekText_iff hpeek, hempty]
    exact .nil
  · rintro rfl
    rfl

theorem notMem_peekText (hpeek : ∀ z ∈ peek, InRange z) {c : Char} (hc : isBlank c)
    (hne : c ≠ ' ') : c ∉ (peekText peek).toList := by
  rw [toList_peekText]
  intro hmem
  have hgap := mem_gap_of_mem_intercalate (isWord_of_mem_map_toString hpeek) hc hmem
  exact hne (List.mem_singleton.1 hgap)

theorem toList_ofLines (texts : List String) :
    (ofLines texts).toList = unlines (texts.map String.toList) := by
  simp [ofLines, unlines, String.toList_join, List.flatMap_map]

/-- Each peek is printed on a line of its own. -/
theorem lines_ofLines_peekText {peeks : List (List Int)}
    (hpeeks : ∀ peek ∈ peeks, ∀ z ∈ peek, InRange z) :
    lines (ofLines (peeks.map peekText)).toList = (peeks.map peekText).map String.toList := by
  rw [toList_ofLines]
  refine lines_unlines ?_
  rw [List.forall_mem_map, List.forall_mem_map]
  intro peek hpeek
  have hrange := hpeeks peek hpeek
  exact ⟨notMem_peekText hrange (by decide) (by decide),
    notMem_peekText hrange (by decide) (by decide)⟩

end

/-! ### Lines one after the other -/

/-- The lines of a text that are not blank. -/
def nonblankLines (script : String) : List (List Char) :=
  (lines script.toList).filter (¬ ·.all isBlank)

/-- The lines are sequences, in this order. -/
def ReadAs (ls : List (List Char)) (sequences : List (List Int)) : Prop :=
  List.Forall₂ (fun line values => readSequence line = .ok values) ls sequences

/-- Either all lines that are not blank are sequences, and there is a peek for each; or there are
peeks for those before the first that is none. -/
theorem peekLines_cases (ls : List (List Char)) :
    (∃ sequences, ReadAs (ls.filter (¬ ·.all isBlank)) sequences ∧
        peekLines ls = (sequences.map bestPeek, none)) ∨
      ∃ before line after sequences e,
        ls.filter (¬ ·.all isBlank) = before ++ line :: after ∧ ReadAs before sequences ∧
        readSequence line = .error e ∧ peekLines ls = (sequences.map bestPeek, some e) := by
  induction ls with
  | nil => exact .inl ⟨[], .nil, rfl⟩
  | cons line ls ih =>
    by_cases hblank : line.all isBlank
    · rw [peekLines, if_pos hblank, List.filter_cons_of_neg (by simpa using hblank)]
      exact ih
    · rw [peekLines, if_neg hblank, List.filter_cons_of_pos (by simpa using hblank)]
      rcases hread : readSequence line with e | values
      · exact .inr ⟨[], line, _, [], e, rfl, .nil, hread, rfl⟩
      · rcases ih with ⟨sequences, hreads, hpeeks⟩ |
          ⟨before, bad, after, sequences, e, hls, hreads, hbad, hpeeks⟩
        · refine .inl ⟨values :: sequences, .cons hread hreads, ?_⟩
          rw [hpeeks]
          rfl
        · refine .inr ⟨line :: before, bad, after, values :: sequences, e, ?_, .cons hread hreads,
            hbad, ?_⟩
          · rw [hls, List.cons_append]
          · rw [hpeeks]
            rfl

theorem ReadAs.inRange {ls : List (List Char)} {sequences : List (List Int)}
    (h : ReadAs ls sequences) : ∀ values ∈ sequences, ∀ z ∈ values, InRange z := by
  induction h with
  | nil => simp
  | cons hread _ ih => exact List.forall_mem_cons.2 ⟨inRange_of_readSequence hread, ih⟩

/-- Peeks that are read again are printed again, but for the empty ones. -/
theorem peekLines_peekText {peeks : List (List Int)} (hself : ∀ peek ∈ peeks, bestPeek peek = peek)
    (hrange : ∀ peek ∈ peeks, ∀ z ∈ peek, InRange z) :
    peekLines ((peeks.map peekText).map String.toList) = (peeks.filter (· ≠ []), none) := by
  induction peeks with
  | nil => rfl
  | cons peek peeks ih =>
    obtain ⟨hpeek, hself⟩ := List.forall_mem_cons.1 hself
    obtain ⟨hz, hrange⟩ := List.forall_mem_cons.1 hrange
    have hblank : (peekText peek).toList.all isBlank ↔ peek = [] := by
      rw [← IsGap.iff_all, isGap_peekText_iff hz]
    rw [List.map_cons, List.map_cons, peekLines, ih hself hrange]
    by_cases hnil : peek = []
    · rw [if_pos (hblank.2 hnil), List.filter_cons_of_neg (by simpa using hnil)]
    · rw [if_neg (mt hblank.1 hnil), List.filter_cons_of_pos (by simpa using hnil),
        readSequence_peekText hz]
      simp only [hpeek]

theorem filter_map_peekText {peeks : List (List Int)}
    (hrange : ∀ peek ∈ peeks, ∀ z ∈ peek, InRange z) :
    (peeks.map peekText).filter (· ≠ "") = (peeks.filter (· ≠ [])).map peekText := by
  rw [List.filter_map]
  congr 1
  refine List.filter_congr fun peek hpeek => ?_
  exact decide_eq_decide.2 (not_congr (peekText_eq_empty_iff (hrange peek hpeek)))

theorem peek_of_peekLines {script : String} {peeks : List (List Int)}
    {failure : Option SequenceError}
    (h : peekLines (lines script.toList) = (peeks, failure)) :
    peek script = ofOutcome (peeks.map peekText) (failure.map SequenceError.message) := by
  rw [peek, h]
  rfl

/-- What is printed for peeks is printed again when it is read, without its empty lines. -/
theorem peek_ofLines_peekText {peeks : List (List Int)}
    (hself : ∀ peek ∈ peeks, bestPeek peek = peek)
    (hrange : ∀ peek ∈ peeks, ∀ z ∈ peek, InRange z) :
    peek (ofLines (peeks.map peekText)) =
      ⟨0, ofLines ((peeks.map peekText).filter (· ≠ "")), ""⟩ := by
  have hpeeks := peekLines_peekText hself hrange
  rw [← lines_ofLines_peekText hrange] at hpeeks
  rw [filter_map_peekText hrange]
  exact peek_of_peekLines hpeeks

/-- If all lines that are not blank are sequences, then their peeks are printed, each on a line. The
output can be given to the command again, and comes out without its empty lines, which are those of
sequences with negative values only. If some line is no sequence, then the peeks of the lines before
the first such line are printed, and the error is reported. -/
theorem peek_output_stable (script : String) :
    ((peek script).code = 0 → ∃ sequences, ReadAs (nonblankLines script) sequences ∧
      let texts := sequences.map fun values => peekText (bestPeek values)
      peek script = ⟨0, ofLines texts, ""⟩ ∧
        lines (peek script).output.toList = texts.map String.toList ∧
        peek (peek script).output = ⟨0, ofLines (texts.filter (· ≠ "")), ""⟩ ∧
        ∀ values ∈ sequences, peekText (bestPeek values) = "" ↔ ∀ x ∈ values, x < 0) ∧
    ((peek script).code ≠ 0 → ∃ before line after sequences e,
      nonblankLines script = before ++ line :: after ∧ ReadAs before sequences ∧
        readSequence line = .error e ∧
        peek script = ⟨1, ofLines (sequences.map fun values => peekText (bestPeek values)),
          ofLines [e.message]⟩) := by
  rcases peekLines_cases (lines script.toList) with ⟨sequences, hreads, hpeeks⟩ |
    ⟨before, line, after, sequences, e, hls, hreads, hbad, hpeeks⟩
  · have hfirst := peek_of_peekLines hpeeks
    refine ⟨fun _ => ⟨sequences, hreads, ?_⟩, fun hcode => absurd (congrArg code hfirst) hcode⟩
    have hself : ∀ peek ∈ sequences.map bestPeek, bestPeek peek = peek := by
      rw [List.forall_mem_map]
      exact fun values _ => bestPeek_bestPeek values
    have hrange : ∀ peek ∈ sequences.map bestPeek, ∀ z ∈ peek, InRange z := by
      rw [List.forall_mem_map]
      exact fun values hvalues z hz => hreads.inRange values hvalues z (mem_of_mem_bestPeek hz)
    have htexts : sequences.map (fun values => peekText (bestPeek values)) =
        (sequences.map bestPeek).map peekText := by
      rw [List.map_map]
      rfl
    intro texts
    rw [hfirst, show texts = (sequences.map bestPeek).map peekText from htexts]
    refine ⟨rfl, lines_ofLines_peekText hrange, peek_ofLines_peekText hself hrange, ?_⟩
    intro values hvalues
    rw [peekText_eq_empty_iff (hrange _ (List.mem_map_of_mem hvalues)), bestPeek_eq_nil_iff]
  · have hfirst := peek_of_peekLines hpeeks
    refine ⟨fun hcode => ?_, fun _ => ⟨before, line, after, sequences, e, hls, hreads, hbad, ?_⟩⟩
    · rw [hfirst] at hcode
      cases hcode
    · rw [hfirst, List.map_map]
      rfl

/-- The second sequence has negative values only, and its empty line is gone when the output is read
again. In the other script the second sequence has a word that is no integer. -/
theorem negatives_peek_output_stable :
    (peek "5 3 9\r\n\t\n-4 -2\n+7").output = "3 9\n\n7\n" ∧
      (∃ texts, ofLines texts = "3 9\n\n7\n" ∧
        peek "3 9\n\n7\n" = ⟨0, ofLines (texts.filter (· ≠ "")), ""⟩) ∧
      ∃ before line after e, nonblankLines "5 3 9\n\n4 x\n7" = before ++ line :: after ∧
        readSequence line = .error e ∧
        (peek "5 3 9\n\n4 x\n7").errors = ofLines [e.message] := by
  have hfirst : (peek "5 3 9\r\n\t\n-4 -2\n+7").output = "3 9\n\n7\n" := by decide
  obtain ⟨sequences, -, hprinted, -, hsecond, -⟩ :=
    (peek_output_stable "5 3 9\r\n\t\n-4 -2\n+7").1 (by decide)
  obtain ⟨before, line, after, _, e, hls, -, hbad, hfailed⟩ :=
    (peek_output_stable "5 3 9\n\n4 x\n7").2 (by decide)
  rw [hfirst] at hsecond
  refine ⟨hfirst, ⟨_, ?_, hsecond⟩, before, line, after, e, hls, hbad, ?_⟩
  · rw [← hfirst, hprinted]
  · rw [hfailed]

end Report

end ChainCalc
