import ChainCalc.Proofs.Canonical
import ChainCalc.Proofs.Frame
import ChainCalc.Proofs.Headings
import ChainCalc.Proofs.OutermostChain
import ChainCalc.Proofs.StatementGrammar

/-!
# Parentheses around the start of a chain

As a chain is computed from left to right, its first operands may be put in parentheses. For terms
this is `Term.evalWith_groupFirst`: a run of the links is the run of the first ones, then that of
the others. For tokens it is `expression_group`: after the group the reader is where it was without
the parentheses, except that its outermost chain has one operand in place of several, and the moves
of a reader do not depend on that.
-/

namespace ChainCalc

open EvalM Grammar Term

namespace Term

variable {rule : CallRule} {operands : List Term} {operators : List Operator}

/-- The chain with its first `k` operands in parentheses. -/
def groupFirst (k : Nat) (operands : List Term) (operators : List Operator) : Term :=
  .chain (.chain (operands.take k) (operators.take (k - 1)) :: operands.drop k)
    (operators.drop (k - 1))

theorem linksWith_append {ts : List Term} (h : operators.length = ts.length) (us : List Term)
    (more : List Operator) (x : Float) :
    linksWith rule x (ts ++ us) (operators ++ more) =
      linksWith rule x ts operators >>= fun y => linksWith rule y us more := by
  induction ts generalizing operators x with
  | nil =>
    obtain rfl := List.length_eq_zero_iff.1 h
    show linksWith rule x us more = pure x >>= fun y => linksWith rule y us more
    rw [pure_bind]
  | cons t ts ih =>
    cases operators with
    | nil => cases h
    | cons op operators =>
      simp only [List.cons_append, linksWith, bind_assoc, ih (Nat.succ.inj h)]

section Chain

variable {t : Term} {ts : List Term} (hwell : wellFormedChain (t :: ts) operators)
include hwell

theorem evalWith_chain :
    (chain (t :: ts) operators).evalWith rule =
      t.demand (t.evalWith rule) >>= fun x => linksWith rule x ts operators >>= fun y =>
        pure (some y) := by
  rw [evalWith, if_pos hwell]

theorem demand_chain :
    (chain (t :: ts) operators).demand ((chain (t :: ts) operators).evalWith rule) =
      t.demand (t.evalWith rule) >>= fun x => linksWith rule x ts operators := by
  have hvalue : (chain (t :: ts) operators).hasValue := rfl
  rw [demand, if_pos hvalue, evalWith_chain hwell]
  simp only [bind_assoc, pure_bind, bind_pure]

end Chain

theorem evalWith_groupFirst (rule : CallRule) {k : Nat} (hwell : wellFormedChain operands operators)
    (hk : 1 ≤ k) (hle : k ≤ operands.length) :
    (groupFirst k operands operators).evalWith rule = (chain operands operators).evalWith rule := by
  cases operands with
  | nil => cases hwell
  | cons t ts =>
    obtain ⟨j, rfl⟩ : ∃ j, k = j + 1 := ⟨k - 1, by omega⟩
    have hlength : operators.length = ts.length := by simpa [wellFormedChain] using hwell
    have hfirst : wellFormedChain (t :: ts.take j) (operators.take j) := by
      simp [wellFormedChain, hlength]
    have hrest : wellFormedChain (chain (t :: ts.take j) (operators.take j) :: ts.drop j)
        (operators.drop j) := by
      simp [wellFormedChain, hlength]
    have hlinks : ∀ x, linksWith rule x ts operators =
        linksWith rule x (ts.take j) (operators.take j) >>= fun y =>
          linksWith rule y (ts.drop j) (operators.drop j) := by
      intro x
      have htake : (operators.take j).length = (ts.take j).length := by simp [hlength]
      rw [← linksWith_append htake, List.take_append_drop, List.take_append_drop]
    show (chain (chain (t :: ts.take j) (operators.take j) :: ts.drop j)
      (operators.drop j)).evalWith rule = _
    rw [evalWith_chain hrest, evalWith_chain hwell, demand_chain hfirst]
    simp only [hlinks, bind_assoc]

end Term

namespace Links

/-- A group of the links so far stands for them. -/
def Grouped (base l l' : Links) : Prop :=
  ∃ more, l = ⟨base.first, more ++ base.rest⟩ ∧ l' = ⟨base.term, more⟩

theorem grouped_self (base : Links) : Grouped base base ⟨base.term, []⟩ := ⟨[], rfl, rfl⟩

theorem extends_grouped (base : Links) : Extends (Grouped base) := by
  rintro _ _ ⟨more, rfl, rfl⟩ op t
  exact ⟨(op, t) :: more, rfl, rfl⟩

theorem term_of_ne_nil {l : Links} (h : l.rest ≠ []) :
    l.term = .chain (l.first :: l.rest.reverse.map Prod.snd) (l.rest.reverse.map Prod.fst) := by
  have hterm := term_reverse (t := l.first) (mt List.reverse_eq_nil_iff.1 h)
  rwa [List.reverse_reverse] at hterm

theorem Grouped.evalWith_eq {base l l' : Links} (h : Grouped base l l') (rule : CallRule) :
    l'.term.evalWith rule = l.term.evalWith rule := by
  obtain ⟨more, rfl, rfl⟩ := h
  by_cases hbase : base.rest = []
  · -- a group of one operand is the operand
    rw [hbase, List.append_nil, show base.term = base.first by rw [term, hbase]]
  by_cases hmore : more = []
  · subst hmore
    rfl
  · have hfull : more ++ base.rest ≠ [] := List.append_ne_nil_of_left_ne_nil hmore _
    have hwell : wellFormedChain (base.first :: (more ++ base.rest).reverse.map Prod.snd)
        ((more ++ base.rest).reverse.map Prod.fst) := by
      simp [wellFormedChain]
    have hle : base.rest.length + 1 ≤
        (base.first :: (more ++ base.rest).reverse.map Prod.snd).length := by
      simp
    have hgroup := evalWith_groupFirst rule hwell (Nat.le_add_left 1 _) hle
    rw [term_of_ne_nil (l := ⟨base.term, more⟩) hmore, term_of_ne_nil hbase,
      term_of_ne_nil (l := ⟨base.first, more ++ base.rest⟩) hfull, ← hgroup, groupFirst]
    simp

end Links

/-! ### Tokens in parentheses -/

/-- What goes on with a chain after an operand: an operator, or a number with a minus sign. -/
def Lexeme.ContinuesChain : Lexeme → Prop
  | operator _ => True
  | number text => text.toList.head? = some '-'
  | _ => False

theorem Lexeme.ContinuesChain.cases {l : Lexeme} (h : l.ContinuesChain) :
    (∃ op, l = .operator op) ∨ ∃ digits, l = .number (String.ofList ('-' :: digits)) := by
  cases l with
  | operator op => exact .inl ⟨op, rfl⟩
  | number text =>
    have hhead : text.toList.head? = some '-' := h
    obtain ⟨digits, hdigits⟩ := List.head?_eq_some_iff.1 hhead
    exact .inr ⟨digits, by rw [← hdigits, String.ofList_toList]⟩
  | openParen | closeParen | equals | symbol | comma => exact h.elim

namespace Reader

variable {place : Place} {base : Links} {token : Token} {s : Reader}

/-- After the group the reader goes on as after the links in it. -/
theorem Step.grouped (hl : place.links? = some base) (hc : token.lexeme.ContinuesChain)
    (h : Step ⟨[], place⟩ token s) :
    ∃ s', Step ⟨[], .operator ⟨base.term, []⟩⟩ token s' ∧ s.Alike (Links.Grouped base) s' := by
  obtain ⟨lexeme, column⟩ := token
  have hbase := Links.grouped_self base
  rcases hc.cases with ⟨op, rfl⟩ | ⟨digits, rfl⟩
  · cases h.unique (.operator [] op column hl)
    exact ⟨_, .operator [] op column rfl, .operand (.outermost hbase op column)⟩
  · cases h.unique (.minus [] digits column hl)
    have hpush := Links.extends_grouped base _ _ hbase .sub (.number (String.ofList digits))
    exact ⟨_, .minus [] digits column rfl, .operator (.outermost hpush)⟩

end Reader

namespace Grammar

variable {l : Lexeme} {ls ms : List Lexeme} {t u : Term}

theorem Statement.expression_of_isExpression (h : Statement ls t) (ht : t.isExpression) :
    Expression ls t := by
  cases h with
  | assign | declare => cases ht
  | expression h => exact h

/-- A heading would have to end in the expression, which has no `=`. -/
theorem Statement.expression_of_append (h : Statement (ls ++ l :: ms) u) (hls : Expression ls t)
    (hl : l.ContinuesChain) : Expression (ls ++ l :: ms) u := by
  have hparameter : ¬ IsParameter l := by
    rcases hl.cases with ⟨op, rfl⟩ | ⟨digits, rfl⟩ <;> simp [IsParameter]
  have hequals : l ≠ .equals := by
    rcases hl.cases with ⟨op, rfl⟩ | ⟨digits, rfl⟩ <;> simp
  obtain ⟨hs, f, es, e, rfl, hhs, he, rfl⟩ := (statement_append_iff hparameter hequals).1 h
  rcases hhs.eq_nil_or_getLast? with rfl | hlast
  · cases hhs
    exact he
  · have hmem : .equals ∈ hs ++ es := List.mem_append_left es (List.mem_of_getLast? hlast)
    exact absurd hmem hls.equals_notMem

end Grammar

theorem expression_group {pre after : List Token} {token : Token} {t u : Term}
    (hpre : Expression (pre.map Token.lexeme) t) (hc : token.lexeme.ContinuesChain)
    (h : Expression ((pre ++ token :: after).map Token.lexeme) u) (openColumn closeColumn : Nat) :
    ∃ base l l', Links.Grouped base l l' ∧ l.term = u ∧
      Expression ((⟨.openParen, openColumn⟩ :: pre ++ ⟨.closeParen, closeColumn⟩ ::
        token :: after).map Token.lexeme) l'.term := by
  -- without parentheses, the reader is at the outermost chain when it gets to the token
  obtain ⟨place, base, hrun, hbase, rfl⟩ := hpre.run rfl []
  obtain ⟨r, hwhole, hdone⟩ := expression_iff_run.1 h
  obtain ⟨r₁, hstart, hrest⟩ := hwhole.exists_of_append
  obtain rfl := hrun.unique hstart
  cases hrest with
  | cons hstep hrest =>
    obtain ⟨s, hstep', hs⟩ := hstep.grouped hbase hc
    obtain ⟨r', hrest', hr'⟩ := hrest.alike (Links.extends_grouped base) hs
    obtain ⟨l, l', hl, rfl, hdone'⟩ := hr'.done (Links.extends_grouped base) hdone
    -- with them it is there again after the group
    obtain ⟨place', links, hinner, hlinks, hterm⟩ := hpre.run rfl [⟨.group openColumn, .first⟩]
    have hclose := Reader.Step.closeGroup [] .first openColumn closeColumn hlinks
    rw [hterm] at hclose
    have hgrouped := Reader.Run.cons (.group [] .first openColumn)
      (hinner.append (.cons hclose (.cons hstep' hrest')))
    exact ⟨base, l, l', hl, rfl, expression_iff_run.2 ⟨r', hgrouped, hdone'⟩⟩

namespace Evaluator

theorem evaluate_congr {t u : Term} (h : ∀ rule, t.evalWith rule = u.evalWith rule)
    (e : Evaluator) (env : Environment) : e.evaluate env t = e.evaluate env u := by
  simp only [evaluate, eval_eq_evalWith, h]

/-- To compute from left to right is to compute with the first operands in parentheses, however many
they are. So parentheses around an expression that a chain starts with change neither what is
accepted nor what it does. -/
theorem evaluate_grouped :
    (∀ (e : Evaluator) (env : Environment) (k : Nat) (operands : List Term)
      (operators : List Operator), wellFormedChain operands operators →
        1 ≤ k → k ≤ operands.length →
        e.evaluate env (groupFirst k operands operators) =
          e.evaluate env (.chain operands operators)) ∧
    ∀ (pre after : List Token) (token : Token) (openColumn closeColumn : Nat) (t u : Term),
      parse pre = .ok t → t.isExpression → token.lexeme.ContinuesChain →
      parse (pre ++ token :: after) = .ok u →
      ∃ v, parse (⟨.openParen, openColumn⟩ :: pre ++ ⟨.closeParen, closeColumn⟩ ::
          token :: after) = .ok v ∧
        ∀ (e : Evaluator) (env : Environment), e.evaluate env v = e.evaluate env u := by
  constructor
  · intro e env k operands operators hwell hk hle
    exact evaluate_congr (fun rule => evalWith_groupFirst rule hwell hk hle) e env
  · intro pre after token openColumn closeColumn t u hpre ht hc h
    have hexpr := (parse_eq_ok_iff.1 hpre).expression_of_isExpression ht
    have hwhole := parse_eq_ok_iff.1 h
    rw [List.map_append, List.map_cons] at hwhole
    have hflat : Expression ((pre ++ token :: after).map Token.lexeme) u := by
      rw [List.map_append, List.map_cons]
      exact hwhole.expression_of_append hexpr hc
    obtain ⟨base, l, l', hl, rfl, hgroup⟩ := expression_group hexpr hc hflat openColumn closeColumn
    exact ⟨l'.term, parse_eq_ok_iff.2 (.expression hgroup), evaluate_congr hl.evalWith_eq⟩

/-- A chain that sets `y`, then reads it and a `z` that may have no value, and the tokens of
`(x + 2.5) -0.5 * 4.5`. -/
theorem sum_evaluate_grouped :
    let operands : List Term := [.assign "y" (.number "2.5"), .var "y", .var "z"]
    let grouped : Term := .chain [.chain (operands.take 2) [.add], .var "z"] [.mul]
    let pre : List Token := [⟨.symbol "x", 1⟩, ⟨.operator .add, 3⟩, ⟨.number "2.5", 5⟩]
    let after : List Token := [⟨.operator .mul, 14⟩, ⟨.number "4.5", 16⟩]
    let flat : Term :=
      .chain [.var "x", .number "2.5", .number "0.5", .number "4.5"] [.add, .sub, .mul]
    (∀ env, evaluate {} env grouped = evaluate {} env (.chain operands [.add, .mul])) ∧
    (evaluate {} (Environment.setVariable {} "z" 0.5) grouped).outcome =
      .ok (some ((2.5 + 2.5) * 0.5)) ∧
    (evaluate {} {} grouped).outcome = .error (.unknownVariable "z") ∧
    parse (pre ++ ⟨.number "-0.5", 9⟩ :: after) = .ok flat ∧
    ∃ v, parse (⟨.openParen, 1⟩ :: pre ++ ⟨.closeParen, 8⟩ :: ⟨.number "-0.5", 9⟩ :: after) =
        .ok v ∧
      (∀ (e : Evaluator) (env : Environment), e.evaluate env v = e.evaluate env flat) ∧
      (evaluate {} (Environment.setVariable {} "x" 1.5) v).outcome =
        .ok (some ((1.5 + 2.5 - 0.5) * 4.5)) := by
  intro operands grouped pre after flat
  have hpre : parse pre = .ok (.chain [.var "x", .number "2.5"] [.add]) :=
    parse_eq_ok_iff.2 (.expression (.chain (.var "x") (.link .add (.number "2.5") .nil) (by simp)))
  have hflat : parse (pre ++ ⟨.number "-0.5", 9⟩ :: after) = .ok flat :=
    parse_eq_ok_iff.2 (.expression (.chain (.var "x")
      (.link .add (.number "2.5") (.minus ['0', '.', '5'] (.link .mul (.number "4.5") .nil)))
      (by simp)))
  obtain ⟨hterms, htokens⟩ := evaluate_grouped
  obtain ⟨v, hv, hsame⟩ := htokens pre after ⟨.number "-0.5", 9⟩ 1 8 _ _ hpre rfl rfl hflat
  have hgrouped : ∀ env, evaluate {} env grouped = evaluate {} env (.chain operands [.add, .mul]) :=
    fun env => hterms {} env 2 operands [.add, .mul] rfl (by decide) (by decide)
  refine ⟨hgrouped, ?_, ?_, hflat, v, hv, hsame, ?_⟩
  · rw [hgrouped]
    rfl
  · rw [hgrouped]
    rfl
  · rw [hsame]
    rfl

end Evaluator

end ChainCalc
