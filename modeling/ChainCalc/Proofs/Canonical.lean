import ChainCalc.Proofs.Grammar
import ChainCalc.Proofs.LongestLexeme

/-!
# Canonical terms

The terms that a text can spell: numbers and names have texts that a scan gives, a chain has at
least two operands and as many operators as it needs, and assignments and declarations stand only
outside the expression. All that stands in a canonical term is canonical
(`Term.CanonicalStatement.part`), and whatever well-spelled lexemes derive is.
-/

namespace ChainCalc

namespace Term

inductive CanonicalExpression : Term → Prop
  | number {text : String} (h : isNumberText text.toList) : CanonicalExpression (.number text)
  | var {name : String} (h : isNameText name.toList) : CanonicalExpression (.var name)
  | call {name : String} {arguments : List Term} (h : isNameText name.toList)
      (hs : ∀ t ∈ arguments, CanonicalExpression t) : CanonicalExpression (.call name arguments)
  | chain {operands : List Term} {operators : List Operator} (htwo : 2 ≤ operands.length)
      (hlength : operators.length + 1 = operands.length)
      (hs : ∀ t ∈ operands, CanonicalExpression t) :
      CanonicalExpression (.chain operands operators)

inductive CanonicalStatement : Term → Prop
  | assign {name : String} {value : Term} (hname : isNameText name.toList)
      (h : CanonicalStatement value) : CanonicalStatement (.assign name value)
  | declare {name : String} {params : List String} {body : Term} (hname : isNameText name.toList)
      (hparams : ∀ p ∈ params, isNameText p.toList) (h : CanonicalStatement body) :
      CanonicalStatement (.declare name params body)
  | expression {t : Term} (h : CanonicalExpression t) : CanonicalStatement t

/-! ### Parts of a canonical term -/

/-- The term `u` stands somewhere in a term, bodies of declarations included. -/
inductive Part (u : Term) : Term → Prop
  | whole : Part u u
  | argument (f : String) {arguments : List Term} {t : Term} (ht : t ∈ arguments) (h : Part u t) :
      Part u (call f arguments)
  | value (name : String) {value : Term} (h : Part u value) : Part u (assign name value)
  | body (name : String) (params : List String) {body : Term} (h : Part u body) :
      Part u (declare name params body)
  | operand (operators : List Operator) {operands : List Term} {t : Term} (ht : t ∈ operands)
      (h : Part u t) : Part u (chain operands operators)

/-- Neither an assignment nor a declaration. -/
def isExpression : Term → Bool
  | assign .. | declare .. => false
  | number _ | var _ | call .. | chain .. => true

namespace CanonicalExpression

variable {t u : Term}

theorem isExpression (h : t.CanonicalExpression) : t.isExpression := by
  cases h <;> rfl

theorem part (h : t.CanonicalExpression) (hu : u.Part t) : u.CanonicalExpression := by
  induction hu with
  | whole => exact h
  | argument f ht _ ih =>
    cases h with
    | call _ hs => exact ih (hs _ ht)
  | operand operators ht _ ih =>
    cases h with
    | chain _ _ hs => exact ih (hs _ ht)
  | value | body => cases h

theorem wellFormedChain {operands : List Term} {operators : List Operator}
    (h : (Term.chain operands operators).CanonicalExpression) :
    Term.wellFormedChain operands operators := by
  cases h with
  | chain htwo hlength _ =>
    have hne : operands ≠ [] := List.ne_nil_of_length_pos (by omega)
    simp [Term.wellFormedChain, hne, hlength]

end CanonicalExpression

/-- What stands in a canonical term is canonical. -/
theorem CanonicalStatement.part {t u : Term} (h : t.CanonicalStatement) (hu : u.Part t) :
    u.CanonicalStatement := by
  induction hu with
  | whole => exact h
  | value name _ ih =>
    cases h with
    | assign _ hvalue => exact ih hvalue
    | expression h => cases h
  | body name params _ ih =>
    cases h with
    | declare _ _ hbody => exact ih hbody
    | expression h => cases h
  | argument f ht hu ih =>
    cases h with
    | expression h => exact .expression (h.part (.argument f ht hu))
  | operand operators ht hu ih =>
    cases h with
    | expression h => exact .expression (h.part (.operand operators ht hu))

/-- Assignments and declarations are the only statements that are no expressions. -/
theorem CanonicalStatement.expression_of_isExpression {t : Term} (h : t.CanonicalStatement)
    (ht : t.isExpression) : t.CanonicalExpression := by
  cases h with
  | assign | declare => cases ht
  | expression h => exact h

end Term

namespace Grammar

open Term

/-- A negative number without its minus sign is a number. -/
theorem isNumberText_of_minus {digits : List Char} (h : isNumberText ('-' :: digits)) :
    isNumberText digits := by
  simp only [isNumberText, Bool.and_eq_true] at h
  obtain ⟨hstart, hdigits⟩ := h
  cases digits with
  | nil => exact absurd hstart (by decide)
  | cons d ds =>
    have hd : isNumeric d := List.all_eq_true.1 hdigits d (by simp)
    have hds : ds.all isNumeric := by simpa [hd] using hdigits
    simp [isNumberText, startsNumber, hd, hds]

mutual

theorem Operand.canonical {ls : List Lexeme} {t : Term} :
    Operand ls t → (∀ l ∈ ls, l.wellSpelled) → CanonicalExpression t
  | .number text, hw => .number (hw (.number text) (by simp))
  | .var name, hw => .var (hw (.symbol name) (by simp))
  | .callNone name, hw => .call (hw (.symbol name) (by simp)) (by simp)
  | .call name h, hw =>
    .call (hw (.symbol name) (by simp)) (h.canonical fun l hl => hw l (by simp [hl]))
  | .group h, hw => h.canonical fun l hl => hw l (by simp [hl])

theorem Tail.canonical {ls : List Lexeme} {rest : List (Operator × Term)} :
    Tail ls rest → (∀ l ∈ ls, l.wellSpelled) → ∀ t ∈ rest.map Prod.snd, CanonicalExpression t
  | .nil, _ => by simp
  | .link op h hs, hw =>
    List.forall_mem_cons.2 ⟨h.canonical fun l hl => hw l (by simp [hl]),
      hs.canonical fun l hl => hw l (by simp [hl])⟩
  | .minus digits hs, hw => by
    have hminus : isNumberText ('-' :: digits) := by
      simpa [Lexeme.wellSpelled] using hw (.number (String.ofList ('-' :: digits))) (by simp)
    have hnumber : CanonicalExpression (.number (String.ofList digits)) :=
      .number (by simpa using isNumberText_of_minus hminus)
    exact List.forall_mem_cons.2 ⟨hnumber, hs.canonical fun l hl => hw l (by simp [hl])⟩

theorem Expression.canonical {ls : List Lexeme} {t : Term} :
    Expression ls t → (∀ l ∈ ls, l.wellSpelled) → CanonicalExpression t
  | .lone h, hw => h.canonical hw
  | .chain h hs hne, hw => by
    have hlength := List.length_pos_iff.2 hne
    refine .chain (by simp only [List.length_cons, List.length_map]; omega) (by simp) ?_
    exact List.forall_mem_cons.2 ⟨h.canonical fun l hl => hw l (by simp [hl]),
      hs.canonical fun l hl => hw l (by simp [hl])⟩

theorem Arguments.canonical {ls : List Lexeme} {ts : List Term} :
    Arguments ls ts → (∀ l ∈ ls, l.wellSpelled) → ∀ t ∈ ts, CanonicalExpression t
  | .last h, hw => by simpa using h.canonical hw
  | .cons h hs, hw =>
    List.forall_mem_cons.2 ⟨h.canonical fun l hl => hw l (by simp [hl]),
      hs.canonical fun l hl => hw l (by simp [hl])⟩

end

theorem Statement.canonical {ls : List Lexeme} {t : Term} (h : Statement ls t)
    (hw : ∀ l ∈ ls, l.wellSpelled) : CanonicalStatement t := by
  induction h with
  | assign name h ih =>
    exact .assign (hw (.symbol name) (by simp)) (ih fun l hl => hw l (by simp [hl]))
  | @declare name ps ls t hps h ih =>
    refine .declare (hw (.symbol name) (by simp)) ?_ (ih fun l hl => hw l (by simp [hl]))
    intro p hp
    obtain ⟨l, hl, hname⟩ := List.mem_filterMap.1 hp
    cases l with
    | symbol x =>
      cases hname
      exact hw (.symbol p) (by simp [hl])
    | openParen | closeParen | number | equals | operator | comma => cases hname
  | expression h => exact .expression (h.canonical hw)

end Grammar

end ChainCalc
