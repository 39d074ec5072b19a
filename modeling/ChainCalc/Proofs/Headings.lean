import ChainCalc.Proofs.Grammar

/-!
# Where the headings of a statement end

A statement is any number of headings, each with a `=` at its end, and an expression behind them. A
heading has only parameters and the `=`, and an expression has no `=`. So a lexeme that can be
neither stands in the expression, and all headings are before it (`statement_append_iff`).
-/

namespace ChainCalc.Grammar

variable {hs ls : List Lexeme} {f : Term → Term} {l : Lexeme} {t : Term}

/-- Headings one after the other, and what they make of the expression behind them. -/
inductive Headings : List Lexeme → (Term → Term) → Prop
  | nil : Headings [] id
  | assign (name : String) {hs : List Lexeme} {f : Term → Term} (h : Headings hs f) :
      Headings (.symbol name :: .equals :: hs) fun t => .assign name (f t)
  | declare (name : String) {ps hs : List Lexeme} {f : Term → Term} (hps : ∀ p ∈ ps, IsParameter p)
      (h : Headings hs f) :
      Headings (.symbol name :: .openParen :: (ps ++ .equals :: hs))
        fun t => .declare name (ps.filterMap name?) (f t)

theorem statement_iff :
    Statement ls t ↔
      ∃ hs f es e, ls = hs ++ es ∧ Headings hs f ∧ Expression es e ∧ f e = t := by
  constructor
  · intro h
    induction h with
    | expression h => exact ⟨[], id, _, _, rfl, .nil, h, rfl⟩
    | assign name _ ih =>
      obtain ⟨hs, f, es, e, rfl, hhs, he, rfl⟩ := ih
      exact ⟨_, _, es, e, rfl, .assign name hhs, he, rfl⟩
    | declare name hps _ ih =>
      obtain ⟨hs, f, es, e, rfl, hhs, he, rfl⟩ := ih
      exact ⟨_, _, es, e, by simp, .declare name hps hhs, he, rfl⟩
  · rintro ⟨hs, f, es, e, rfl, hhs, he, rfl⟩
    induction hhs with
    | nil => exact .expression he
    | assign name _ ih => exact .assign name ih
    | declare name hps _ ih =>
      simp only [List.cons_append, List.append_assoc]
      exact .declare name hps ih

namespace Headings

theorem of_mem (h : Headings hs f) (hl : l ∈ hs) : IsParameter l ∨ l = .equals := by
  induction h with
  | nil => cases hl
  | assign name _ ih =>
    simp only [List.mem_cons] at hl
    rcases hl with rfl | rfl | hl
    · exact .inl (.inl ⟨name, rfl⟩)
    · exact .inr rfl
    · exact ih hl
  | declare name hps _ ih =>
    simp only [List.mem_cons, List.mem_append] at hl
    rcases hl with rfl | rfl | hl | rfl | hl
    · exact .inl (.inl ⟨name, rfl⟩)
    · exact .inl (.inr (.inr (.inl rfl)))
    · exact .inl (hps l hl)
    · exact .inr rfl
    · exact ih hl

theorem eq_nil_or_getLast? (h : Headings hs f) : hs = [] ∨ hs.getLast? = some .equals := by
  induction h with
  | nil => exact .inl rfl
  | assign name _ ih =>
    rcases ih with rfl | ih
    · exact .inr rfl
    · exact .inr (by simp [List.getLast?_cons, ih])
  | declare name hps _ ih =>
    rcases ih with rfl | ih
    · exact .inr (by simp [List.getLast?_cons, List.getLast?_append])
    · exact .inr (by simp [List.getLast?_cons, List.getLast?_append, ih])

end Headings

theorem statement_append_iff {pre post : List Lexeme} (hl : ¬ IsParameter l) (hne : l ≠ .equals) :
    Statement (pre ++ l :: post) t ↔
      ∃ hs f es e, pre = hs ++ es ∧ Headings hs f ∧ Expression (es ++ l :: post) e ∧ f e = t := by
  rw [statement_iff]
  constructor
  · rintro ⟨hs, f, es, e, hsplit, hhs, he, rfl⟩
    rcases List.append_eq_append_iff.1 hsplit with ⟨ms, rfl, hms⟩ | ⟨ms, rfl, hms⟩
    · cases ms with
      | nil =>
        rw [List.append_nil] at hhs
        exact ⟨pre, f, [], e, (List.append_nil pre).symm, hhs, hms ▸ he, rfl⟩
      | cons m ms =>
        -- the lexeme itself would be in a heading
        obtain ⟨rfl, -⟩ := List.cons.inj hms
        rcases hhs.of_mem (List.mem_append_right pre List.mem_cons_self) with h | h
        · exact absurd h hl
        · exact absurd h hne
    · exact ⟨hs, f, ms, e, rfl, hhs, hms ▸ he, rfl⟩
  · rintro ⟨hs, f, es, e, rfl, hhs, he, rfl⟩
    exact ⟨hs, f, es ++ l :: post, e, by simp, hhs, he, rfl⟩

end ChainCalc.Grammar
