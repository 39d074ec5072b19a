import ChainCalc.Proofs.ReaderStep

/-!
# The outermost chain may be another one

A reader only ever adds to the chains that it has read: no move depends on what the operands are. So
two readers that are alike except for the links of their outermost chain make the same moves.
`R` says which links may stand for each other, and is to be kept when both get the same link more
(`Links.Extends`). Then it ties the two chains together at the end (`Reader.Run.alike`).
-/

namespace ChainCalc

/-- Links that may stand for each other still may after the same further link. -/
def Links.Extends (R : Links → Links → Prop) : Prop :=
  ∀ l l', R l l' → ∀ op t, R (l.push op t) (l'.push op t)

section Alike

variable (R : Links → Links → Prop)

/-- The same is due inside of the same frames, except that the outermost chain is another one. -/
inductive Due.Alike : List Frame → Due → List Frame → Due → Prop
  | outermost {l l' : Links} (h : R l l') (op : Operator) (column : Nat) :
      Alike [] (.after l op column) [] (.after l' op column)
  | inside {fs fs' : List Frame} {d d' : Due} (opening : Opening) (h : Alike fs d fs' d')
      (due : Due) : Alike (⟨opening, d⟩ :: fs) due (⟨opening, d'⟩ :: fs') due

/-- The same chain is read inside of the same frames, except that the outermost one is another. -/
inductive Links.Alike : List Frame → Links → List Frame → Links → Prop
  | outermost {l l' : Links} (h : R l l') : Alike [] l [] l'
  | inside {fs fs' : List Frame} {d d' : Due} (opening : Opening) (h : Due.Alike R fs d fs' d')
      (l : Links) : Alike (⟨opening, d⟩ :: fs) l (⟨opening, d'⟩ :: fs') l

inductive Reader.Alike : Reader → Reader → Prop
  | operand {fs fs' : List Frame} {d d' : Due} (h : Due.Alike R fs d fs' d') :
      Alike ⟨fs, .operand d⟩ ⟨fs', .operand d'⟩
  | name {fs fs' : List Frame} {d d' : Due} (h : Due.Alike R fs d fs' d') (x : String)
      (column : Nat) : Alike ⟨fs, .name d x column⟩ ⟨fs', .name d' x column⟩
  | operator {fs fs' : List Frame} {l l' : Links} (h : Links.Alike R fs l fs' l') :
      Alike ⟨fs, .operator l⟩ ⟨fs', .operator l'⟩

end Alike

variable {R : Links → Links → Prop} {fs fs' : List Frame} {l l' : Links} {d d' : Due}

theorem Due.Alike.fill (hR : Links.Extends R) (h : Due.Alike R fs d fs' d') (t : Term) :
    Links.Alike R fs (d.fill t) fs' (d'.fill t) := by
  cases h with
  | outermost h op => exact .outermost (hR _ _ h op t)
  | inside opening h => exact .inside opening h _

theorem Links.Alike.push (hR : Links.Extends R) (h : Links.Alike R fs l fs' l') (op : Operator)
    (t : Term) : Links.Alike R fs (l.push op t) fs' (l'.push op t) := by
  cases h with
  | outermost h => exact .outermost (hR _ _ h op t)
  | inside opening h => exact .inside opening h _

theorem Links.Alike.after (h : Links.Alike R fs l fs' l') (op : Operator) (column : Nat) :
    Due.Alike R fs (.after l op column) fs' (.after l' op column) := by
  cases h with
  | outermost h => exact .outermost h op column
  | inside opening h => exact .inside opening h _

namespace Reader

variable {r r' s : Reader} {token : Token} {tokens : List Token} {place : Place} {t : Term}

theorem Alike.links (hR : Links.Extends R) (h : Alike R ⟨fs, place⟩ r')
    (hl : place.links? = some l) :
    ∃ fs' place' l', r' = ⟨fs', place'⟩ ∧ place'.links? = some l' ∧ Links.Alike R fs l fs' l' := by
  cases h with
  | operand => cases hl
  | operator h => exact ⟨_, _, _, rfl, rfl, Option.some.inj hl ▸ h⟩
  | name h x => exact ⟨_, _, _, rfl, rfl, Option.some.inj hl ▸ h.fill hR (.var x)⟩

theorem Step.alike (hR : Links.Extends R) (h : Step r token s) (hr : r.Alike R r') :
    ∃ s', Step r' token s' ∧ s.Alike R s' := by
  cases h with
  | number frames due text column =>
    cases hr with
    | operand h => exact ⟨_, .number .., .operator (h.fill hR _)⟩
  | name frames due x column =>
    cases hr with
    | operand h => exact ⟨_, .name .., .name h x column⟩
  | group frames due column =>
    cases hr with
    | operand h => exact ⟨_, .group .., .operand (.inside _ h .first)⟩
  | call frames due x nameColumn column =>
    cases hr with
    | name h => exact ⟨_, .call .., .operand (.inside _ h .first)⟩
  | noArguments frames due x nameColumn column =>
    cases hr with
    | operand h =>
      cases h with
      | inside _ h => exact ⟨_, .noArguments .., .operator (h.fill hR _)⟩
  | operator frames op column hl =>
    obtain ⟨fs', place', l', rfl, hl', h⟩ := hr.links hR hl
    exact ⟨_, .operator fs' op column hl', .operand (h.after op column)⟩
  | minus frames digits column hl =>
    obtain ⟨fs', place', l', rfl, hl', h⟩ := hr.links hR hl
    exact ⟨_, .minus fs' digits column hl', .operator (h.push hR _ _)⟩
  | closeGroup frames due openColumn column hl =>
    obtain ⟨fs', place', l', rfl, hl', h⟩ := hr.links hR hl
    cases h with
    | inside _ h => exact ⟨_, .closeGroup _ _ openColumn column hl', .operator (h.fill hR _)⟩
  | closeCall frames due x arguments nameColumn column hl =>
    obtain ⟨fs', place', l', rfl, hl', h⟩ := hr.links hR hl
    cases h with
    | inside _ h =>
      exact ⟨_, .closeCall _ _ x arguments nameColumn column hl', .operator (h.fill hR _)⟩
  | comma frames due x arguments nameColumn column hl =>
    obtain ⟨fs', place', l', rfl, hl', h⟩ := hr.links hR hl
    cases h with
    | inside _ h =>
      exact ⟨_, .comma _ _ x arguments nameColumn column hl', .operand (.inside _ h .first)⟩

theorem Run.alike (hR : Links.Extends R) (h : Run r tokens s) (hr : r.Alike R r') :
    ∃ s', Run r' tokens s' ∧ s.Alike R s' := by
  induction h generalizing r' with
  | nil => exact ⟨r', .nil r', hr⟩
  | cons hstep _ ih =>
    obtain ⟨r₁, hstep', hr₁⟩ := hstep.alike hR hr
    obtain ⟨s', hrun', hs'⟩ := ih hr₁
    exact ⟨s', .cons hstep' hrun', hs'⟩

theorem Alike.done (hR : Links.Extends R) (h : r.Alike R r') (hdone : r.Done t) :
    ∃ l l', R l l' ∧ l.term = t ∧ r'.Done l'.term := by
  obtain ⟨fs, place⟩ := r
  obtain ⟨hnil, l, hl, rfl⟩ := hdone
  obtain ⟨fs', place', l', rfl, hl', h⟩ := h.links hR hl
  cases hnil
  cases h with
  | outermost h => exact ⟨l, l', h, rfl, rfl, l', hl', rfl⟩

end Reader

end ChainCalc
