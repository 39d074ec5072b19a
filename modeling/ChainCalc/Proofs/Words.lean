import ChainCalc.Text.Blank

/-!
# Words and the gaps between them

`Runs cs ws` says of a text which its maximal runs of characters are that are not blank, and not how
to find them: the text is made of gaps and words, each word ends at a blank or at the end of the
text, and what is behind it is made in the same way. A text has exactly one such list of words, and
it is `words` (`words_eq_iff`).

What the gaps are does not matter. They can grow at both ends (`Runs.gap_append`,
`Runs.append_blank`) and anything blank will do between two words (`runs_intercalate`).
-/

namespace ChainCalc

/-- Characters that are blank, if there are any. -/
def IsGap (cs : List Char) : Prop := ∀ c ∈ cs, isBlank c

/-- At least one character, and none that is blank. -/
structure IsWord (cs : List Char) : Prop where
  ne_nil : cs ≠ []
  not_blank : ∀ c ∈ cs, ¬ isBlank c

/-- The words are all the maximal runs of characters that are not blank, in order. -/
inductive Runs : List Char → List (List Char) → Prop
  | gap {gap : List Char} (hgap : IsGap gap) : Runs gap []
  | word {gap w rest : List Char} {ws : List (List Char)} (hgap : IsGap gap) (hw : IsWord w)
      (hend : ∀ c ∈ rest.head?, isBlank c) (hrest : Runs rest ws) :
      Runs (gap ++ w ++ rest) (w :: ws)

section

variable {c : Char} {cs gap w rest : List Char} {ws : List (List Char)}

namespace IsGap

theorem iff_all : IsGap cs ↔ cs.all isBlank := List.all_eq_true.symm

theorem nil : IsGap [] := by
  intro c hc
  cases hc

theorem append {other : List Char} (hgap : IsGap gap) (hother : IsGap other) :
    IsGap (gap ++ other) := by
  intro c hc
  rcases List.mem_append.1 hc with hc | hc
  · exact hgap c hc
  · exact hother c hc

theorem singleton (hc : isBlank c) : IsGap [c] := by
  intro d hd
  rw [List.mem_singleton.1 hd]
  exact hc

theorem head? (hgap : IsGap gap) : ∀ c ∈ gap.head?, isBlank c := by
  intro c hc
  exact hgap c (List.mem_of_head? hc)

end IsGap

theorem IsWord.singleton (hc : ¬ isBlank c) : IsWord [c] := by
  refine ⟨List.cons_ne_nil c [], fun d hd => ?_⟩
  rw [List.mem_singleton.1 hd]
  exact hc

theorem IsWord.cons (hc : ¬ isBlank c) (hw : IsWord w) : IsWord (c :: w) :=
  ⟨List.cons_ne_nil c w, List.forall_mem_cons.2 ⟨hc, hw.not_blank⟩⟩

namespace Runs

theorem gap_append (h : Runs cs ws) (hgap : IsGap gap) : Runs (gap ++ cs) ws := by
  cases h with
  | gap hcs => exact .gap (hgap.append hcs)
  | word hinner hw hend hrest =>
    rw [← List.append_assoc, ← List.append_assoc]
    exact .word (hgap.append hinner) hw hend hrest

theorem append_blank (h : Runs cs ws) (hc : isBlank c) : Runs (cs ++ [c]) ws := by
  induction h with
  | gap hcs => exact .gap (hcs.append (.singleton hc))
  | @word gap w rest ws hgap hw hend hrest ih =>
    rw [List.append_assoc]
    refine .word hgap hw ?_ ih
    cases rest with
    | nil => exact (IsGap.singleton hc).head?
    | cons d rest => exact hend

theorem word_append (hw : IsWord w) (hend : ∀ c ∈ rest.head?, isBlank c) (h : Runs rest ws) :
    Runs (w ++ rest) (w :: ws) := by
  have hruns := Runs.word .nil hw hend h
  exact hruns

/-- A character that is not blank goes to the word that starts behind it. -/
theorem cons (hc : ¬ isBlank c) (hnext : ¬ ∀ d ∈ cs.head?, isBlank d) (h : Runs cs (w :: ws)) :
    Runs (c :: cs) ((c :: w) :: ws) := by
  cases h with
  | @word gap _ rest _ hgap hw hend hrest =>
    cases gap with
    | nil => exact word_append (hw.cons hc) hend hrest
    | cons d gap =>
      refine absurd ?_ hnext
      rintro _ ⟨⟩
      exact hgap d List.mem_cons_self

end Runs

/-! ### The words of a text -/

theorem words_of_blank (hc : isBlank c) : words (c :: cs) = words cs := by
  unfold words
  rw [if_pos hc]
  cases cs <;> rfl

theorem words_of_end (hc : ¬ isBlank c) (hend : ∀ d ∈ cs.head?, isBlank d) :
    words (c :: cs) = [c] :: words cs := by
  rw [words.eq_def]
  simp only [if_neg hc]
  split
  · rename_i d _ _ _ hwords
    rw [if_pos (hend d rfl), hwords]
  · rfl

theorem words_of_next {d : Char} (hc : ¬ isBlank c) (hd : ¬ isBlank d)
    (h : words (d :: cs) = w :: ws) : words (c :: d :: cs) = (c :: w) :: ws := by
  rw [words.eq_def]
  simp only [if_neg hc, h, if_neg hd]

theorem words_gap_append (hgap : IsGap gap) : words (gap ++ cs) = words cs := by
  induction gap with
  | nil => rfl
  | cons c gap ih =>
    obtain ⟨hc, hgap⟩ := List.forall_mem_cons.1 hgap
    rw [List.cons_append, words_of_blank hc, ih hgap]

theorem words_word_append (hw : IsWord w) (hend : ∀ c ∈ rest.head?, isBlank c) :
    words (w ++ rest) = w :: words rest := by
  obtain ⟨hne, hnot⟩ := hw
  induction w with
  | nil => exact absurd rfl hne
  | cons c w ih =>
    obtain ⟨hc, hnot⟩ := List.forall_mem_cons.1 hnot
    cases w with
    | nil => exact words_of_end hc hend
    | cons d w =>
      have hd := hnot d List.mem_cons_self
      exact words_of_next hc hd (ih (List.cons_ne_nil d w) hnot)

theorem Runs.words_eq (h : Runs cs ws) : words cs = ws := by
  induction h with
  | @gap gap hgap =>
    rw [← List.append_nil gap, words_gap_append hgap]
    rfl
  | word hgap hw hend hrest ih =>
    rw [List.append_assoc, words_gap_append hgap, words_word_append hw hend, ih]

theorem exists_runs (cs : List Char) : ∃ ws, Runs cs ws := by
  induction cs with
  | nil => exact ⟨[], .gap .nil⟩
  | cons c cs ih =>
    obtain ⟨ws, h⟩ := ih
    by_cases hc : isBlank c
    · exact ⟨ws, h.gap_append (.singleton hc)⟩
    · by_cases hend : ∀ d ∈ cs.head?, isBlank d
      · exact ⟨[c] :: ws, .word_append (.singleton hc) hend h⟩
      · cases ws with
        | nil =>
          cases h with
          | gap hcs => exact absurd hcs.head? hend
        | cons w ws => exact ⟨(c :: w) :: ws, h.cons hc hend⟩

theorem words_eq_iff : words cs = ws ↔ Runs cs ws := by
  constructor
  · rintro rfl
    obtain ⟨ws, h⟩ := exists_runs cs
    rwa [h.words_eq]
  · exact Runs.words_eq

theorem words_eq_nil_iff : words cs = [] ↔ IsGap cs := by
  rw [words_eq_iff]
  constructor
  · intro h
    cases h with
    | gap hgap => exact hgap
  · exact .gap

theorem words_append_blank (hc : isBlank c) (cs : List Char) : words (cs ++ [c]) = words cs :=
  ((words_eq_iff.1 rfl).append_blank hc).words_eq

/-- Words with a gap between any two. -/
theorem runs_intercalate (hgap : IsGap gap) (hne : gap ≠ []) (hws : ∀ w ∈ ws, IsWord w) :
    Runs (List.intercalate gap ws) ws := by
  induction ws with
  | nil => exact .gap .nil
  | cons w ws ih =>
    obtain ⟨hw, hws⟩ := List.forall_mem_cons.1 hws
    by_cases hlast : ws = []
    · subst hlast
      have hruns := Runs.word_append hw (by simp) (.gap .nil)
      rw [List.append_nil] at hruns
      rwa [List.intercalate_singleton]
    · have hend : ∀ c ∈ (gap ++ List.intercalate gap ws).head?, isBlank c := by
        obtain ⟨d, gap, rfl⟩ := List.exists_cons_of_ne_nil hne
        exact hgap.head?
      rw [List.intercalate_cons_of_ne_nil hlast, List.append_assoc]
      exact .word_append hw hend ((ih hws).gap_append hgap)

theorem mem_gap_of_mem_intercalate (hws : ∀ w ∈ ws, IsWord w) (hc : isBlank c)
    (hmem : c ∈ List.intercalate gap ws) : c ∈ gap := by
  induction ws with
  | nil => cases hmem
  | cons w ws ih =>
    obtain ⟨hw, hws⟩ := List.forall_mem_cons.1 hws
    by_cases hlast : ws = []
    · rw [hlast, List.intercalate_singleton] at hmem
      exact absurd hc (hw.not_blank c hmem)
    · rw [List.intercalate_cons_of_ne_nil hlast, List.mem_append, List.mem_append] at hmem
      rcases hmem with (hmem | hmem) | hmem
      · exact absurd hc (hw.not_blank c hmem)
      · exact hmem
      · exact ih hws hmem

end

end ChainCalc
