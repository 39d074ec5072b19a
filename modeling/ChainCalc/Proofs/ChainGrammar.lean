import ChainCalc.Proofs.Grammar
import ChainCalc.Proofs.ReaderStep

/-!
# Reading a chain is deriving an expression

Soundness goes by what a reader has read. `Reader.Reads r ls`: the lexemes `ls` bring a reader from
the start to `r`, so that each part of `r` (the links, what is due, the frames) is spelled by its
own stretch of `ls`. A step adds its lexeme to the innermost stretch, or closes a frame and hands
the stretch of the whole construct to the place outside (`Reads.step`).

Completeness goes by the derivation: the lexemes of an operand move any reader where an operand is
due to the place after it, with the frames as they were (`Operand.run`).
-/

namespace ChainCalc

open Grammar

/-! ### What has been read -/

namespace Links
variable {l : Links} {ls ms : List Lexeme} {t : Term}

theorem term_reverse {rest : List (Operator × Term)} (hne : rest ≠ []) :
    Links.term ⟨t, rest.reverse⟩ = .chain (t :: rest.map Prod.snd) (rest.map Prod.fst) := by
  rw [Links.term]
  split
  · exact absurd (List.reverse_eq_nil_iff.1 ‹_›) hne
  · simp

/-- The first operand and the links after it are spelled by `ls`. -/
def Reads (l : Links) (ls : List Lexeme) : Prop :=
  ∃ ms ns, ls = ms ++ ns ∧ Operand ms l.first ∧ Tail ns l.rest.reverse

theorem Reads.first (h : Operand ls t) : Reads ⟨t, []⟩ ls :=
  ⟨ls, [], (List.append_nil ls).symm, h, .nil⟩

theorem Reads.push (h : l.Reads ls) (op : Operator) (ht : Operand ms t) :
    (l.push op t).Reads (ls ++ .operator op :: ms) := by
  obtain ⟨ks, ns, rfl, hfirst, hrest⟩ := h
  refine ⟨ks, ns ++ .operator op :: ms, by simp, hfirst, ?_⟩
  have hlast : Tail (.operator op :: ms) [(op, t)] := by
    simpa using Tail.link op ht .nil
  simpa [Links.push] using hrest.append hlast

theorem Reads.minus (h : l.Reads ls) (digits : List Char) :
    (l.push .sub (.number (String.ofList digits))).Reads
      (ls ++ [.number (String.ofList ('-' :: digits))]) := by
  obtain ⟨ks, ns, rfl, hfirst, hrest⟩ := h
  refine ⟨ks, ns ++ [.number (String.ofList ('-' :: digits))], by simp, hfirst, ?_⟩
  simpa [Links.push] using hrest.append (.minus digits .nil)

theorem Reads.expression (h : l.Reads ls) : Expression ls l.term := by
  obtain ⟨ms, ns, rfl, hfirst, hrest⟩ := h
  match l, hfirst, hrest with
  | ⟨t, []⟩, hfirst, hrest =>
    cases hrest
    simpa [Links.term] using Expression.lone hfirst
  | ⟨t, link :: rest⟩, hfirst, hrest => exact .chain hfirst hrest (by simp)

end Links

namespace Due
variable {due : Due} {ls ms : List Lexeme} {t : Term}

/-- What stands before the operand that is due is spelled by `ls`. -/
def Reads : Due → List Lexeme → Prop
  | first, ls => ls = []
  | after links op _, ls => ∃ ms, ls = ms ++ [.operator op] ∧ links.Reads ms

theorem Reads.fill (h : due.Reads ls) (ht : Operand ms t) : (due.fill t).Reads (ls ++ ms) := by
  match due, h with
  | first, h =>
    cases h
    exact .first ht
  | after links op _, ⟨ks, h, hlinks⟩ =>
    subst h
    simpa [Due.fill] using hlinks.push op ht

end Due

/-- Arguments with a comma after each, latest first. -/
inductive Grammar.Given : List Lexeme → List Term → Prop
  | nil : Given [] []
  | snoc {ls ms : List Lexeme} {ts : List Term} {t : Term} (hs : Given ls ts)
      (h : Expression ms t) : Given (ls ++ (ms ++ [.comma])) (t :: ts)

theorem Grammar.Given.append {ls ms : List Lexeme} {ts us : List Term} (h : Given ls ts)
    (hm : Arguments ms us) : Arguments (ls ++ ms) (ts.reverse ++ us) := by
  induction h generalizing ms us with
  | nil => exact hm
  | snoc _ h ih => simpa using ih (.cons h hm)

/-- The opening and the arguments that are complete are spelled by `ls`. -/
def Opening.Reads : Opening → List Lexeme → Prop
  | group _, ls => ls = [.openParen]
  | call name _ arguments, ls =>
    ∃ ms, ls = .symbol name :: .openParen :: ms ∧ Given ms arguments

/-- The frames are spelled by `ls`, from the outermost to the innermost. -/
inductive Frame.ReadAll : List Frame → List Lexeme → Prop
  | nil : ReadAll [] []
  | cons {frames : List Frame} {ls ms ns : List Lexeme} {opening : Opening} {due : Due}
      (hs : ReadAll frames ls) (hd : due.Reads ms) (ho : opening.Reads ns) :
      ReadAll (⟨opening, due⟩ :: frames) (ls ++ (ms ++ ns))

def Place.Reads : Place → List Lexeme → Prop
  | operand due, ls => due.Reads ls
  | name due x _, ls => ∃ ms, ls = ms ++ [.symbol x] ∧ due.Reads ms
  | operator links, ls => links.Reads ls

theorem Place.Reads.links {place : Place} {links : Links} {ls : List Lexeme} (h : place.Reads ls)
    (hp : place.links? = some links) : links.Reads ls := by
  match place, h with
  | operator _, h => cases hp; exact h
  | name due x _, ⟨ms, hms, hd⟩ =>
    cases hp
    exact hms ▸ hd.fill (.var x)

namespace Reader
variable {r r' : Reader} {token : Token} {tokens rest : List Token} {ls : List Lexeme} {t : Term}

def Reads (r : Reader) (ls : List Lexeme) : Prop :=
  ∃ ms ns, ls = ms ++ ns ∧ Frame.ReadAll r.frames ms ∧ r.place.Reads ns

theorem reads_start : start.Reads [] := ⟨[], [], rfl, .nil, rfl⟩

/-- Closing the innermost frame: its construct, spelled by `ks`, is the operand that was due. -/
theorem Reads.close {frames : List Frame} {due : Due} {ms ns ks : List Lexeme}
    (hf : Frame.ReadAll frames ms) (hd : due.Reads ns) (ht : Operand ks t) :
    Reads ⟨frames, .operator (due.fill t)⟩ (ms ++ (ns ++ ks)) :=
  ⟨ms, ns ++ ks, rfl, hf, hd.fill ht⟩

theorem Reads.step (h : r.Reads ls) (hs : Step r token r') : r'.Reads (ls ++ [token.lexeme]) := by
  obtain ⟨ms, ns, rfl, hf, hp⟩ := h
  cases hs with
  | number frames due text => exact ⟨ms, _, by simp, hf, Due.Reads.fill hp (.number text)⟩
  | name frames due x => exact ⟨ms, _, by simp, hf, ns, rfl, hp⟩
  | group frames due => exact ⟨_, [], by simp, .cons hf hp rfl, rfl⟩
  | call frames due x =>
    obtain ⟨ks, rfl, hd⟩ := hp
    exact ⟨_, [], by simp, .cons hf hd ⟨[], rfl, .nil⟩, rfl⟩
  | noArguments frames due x =>
    cases hp
    cases hf with
    | cons hf hd ho =>
      obtain ⟨ks, rfl, hg⟩ := ho
      cases hg
      simpa using Reads.close hf hd (.callNone x)
  | operator frames op _ hl => exact ⟨ms, _, by simp, hf, ns, rfl, hp.links hl⟩
  | minus frames digits _ hl => exact ⟨ms, _, by simp, hf, (hp.links hl).minus digits⟩
  | closeGroup frames due _ _ hl =>
    cases hf with
    | cons hf hd ho =>
      cases ho
      simpa using Reads.close hf hd (.group (hp.links hl).expression)
  | closeCall frames due x arguments _ _ hl =>
    cases hf with
    | cons hf hd ho =>
      obtain ⟨ks, rfl, hg⟩ := ho
      have harguments := hg.append (.last (hp.links hl).expression)
      simpa using Reads.close hf hd (.call x harguments)
  | comma frames due x arguments _ _ hl =>
    cases hf with
    | cons hf hd ho =>
      obtain ⟨ks, rfl, hg⟩ := ho
      exact ⟨_, [], by simp, .cons hf hd ⟨_, rfl, .snoc hg (hp.links hl).expression⟩, rfl⟩

theorem Reads.run (h : r.Reads ls) (hs : Run r tokens r') :
    r'.Reads (ls ++ tokens.map Token.lexeme) := by
  induction hs generalizing ls with
  | nil => simpa using h
  | cons hstep _ ih => simpa using ih (h.step hstep)

theorem Reads.done (h : r.Reads ls) (hd : r.Done t) : Expression ls t := by
  obtain ⟨ms, ns, rfl, hf, hp⟩ := h
  obtain ⟨hnil, links, hl, rfl⟩ := hd
  rw [hnil] at hf
  cases hf
  exact (hp.links hl).expression

end Reader

/-! ### What a derivation makes a reader do -/

theorem Token.exists_map_lexeme (ls : List Lexeme) :
    ∃ tokens : List Token, tokens.map Token.lexeme = ls :=
  ⟨ls.map (Token.mk · 1), by rw [List.map_map]; exact List.map_id ls⟩

theorem Token.eq_cons_of_map_lexeme {tokens : List Token} {l : Lexeme} {ls : List Lexeme}
    (h : tokens.map Token.lexeme = l :: ls) :
    ∃ column rest, tokens = ⟨l, column⟩ :: rest ∧ rest.map Token.lexeme = ls := by
  obtain ⟨⟨lexeme, column⟩, rest, rfl, rfl, hrest⟩ := List.map_eq_cons_iff.1 h
  exact ⟨column, rest, rfl, hrest⟩

theorem Token.eq_singleton_of_map_lexeme {tokens : List Token} {l : Lexeme}
    (h : tokens.map Token.lexeme = [l]) : ∃ column, tokens = [⟨l, column⟩] := by
  obtain ⟨column, rest, rfl, hrest⟩ := Token.eq_cons_of_map_lexeme h
  exact ⟨column, by rw [List.map_eq_nil_iff.1 hrest]⟩

namespace Grammar

open Reader

mutual

theorem Operand.run {ls : List Lexeme} {t : Term} :
    Operand ls t → ∀ {tokens : List Token}, tokens.map Token.lexeme = ls → ∀ frames due,
      ∃ place, Run ⟨frames, .operand due⟩ tokens ⟨frames, place⟩ ∧
        place.links? = some (due.fill t)
  | .number text, tokens, hts, frames, due => by
    obtain ⟨column, rfl⟩ := Token.eq_singleton_of_map_lexeme hts
    exact ⟨_, .single (.number ..), rfl⟩
  | .var x, tokens, hts, frames, due => by
    obtain ⟨column, rfl⟩ := Token.eq_singleton_of_map_lexeme hts
    exact ⟨_, .single (.name ..), rfl⟩
  | .callNone x, tokens, hts, frames, due => by
    obtain ⟨column, _, rfl, hopen⟩ := Token.eq_cons_of_map_lexeme hts
    obtain ⟨openColumn, _, rfl, hclose⟩ := Token.eq_cons_of_map_lexeme hopen
    obtain ⟨closeColumn, rfl⟩ := Token.eq_singleton_of_map_lexeme hclose
    exact ⟨_, .cons (.name ..) (.cons (.call ..) (.single (.noArguments ..))), rfl⟩
  | .call x h, tokens, hts, frames, due => by
    obtain ⟨column, _, rfl, hopen⟩ := Token.eq_cons_of_map_lexeme hts
    obtain ⟨openColumn, _, rfl, hbody⟩ := Token.eq_cons_of_map_lexeme hopen
    obtain ⟨inner, _, rfl, hinner, hclose⟩ := List.map_eq_append_iff.1 hbody
    obtain ⟨closeColumn, rfl⟩ := Token.eq_singleton_of_map_lexeme hclose
    obtain ⟨place, given, links, hrun, hl, harguments⟩ := h.run hinner frames due x column []
    have hstep := Step.closeCall frames due x given column closeColumn hl
    rw [harguments] at hstep
    exact ⟨_, .cons (.name ..) (.cons (.call ..) (hrun.append (.single hstep))), rfl⟩
  | .group h, tokens, hts, frames, due => by
    obtain ⟨openColumn, _, rfl, hbody⟩ := Token.eq_cons_of_map_lexeme hts
    obtain ⟨inner, _, rfl, hinner, hclose⟩ := List.map_eq_append_iff.1 hbody
    obtain ⟨closeColumn, rfl⟩ := Token.eq_singleton_of_map_lexeme hclose
    obtain ⟨place, links, hrun, hl, rfl⟩ := h.run hinner (⟨.group openColumn, due⟩ :: frames)
    exact ⟨_, .cons (.group ..) (hrun.append (.single (.closeGroup _ _ _ _ hl))), rfl⟩

theorem Tail.run {ls : List Lexeme} {more : List (Operator × Term)} :
    Tail ls more → ∀ {tokens : List Token}, tokens.map Token.lexeme = ls → ∀ frames place links,
      place.links? = some links →
        ∃ place', Run ⟨frames, place⟩ tokens ⟨frames, place'⟩ ∧
          place'.links? = some ⟨links.first, more.reverse ++ links.rest⟩
  | .nil, tokens, hts, frames, place, links, hl => by
    rw [List.map_eq_nil_iff.1 hts]
    exact ⟨place, .nil _, hl⟩
  | .link op h hs, tokens, hts, frames, place, links, hl => by
    obtain ⟨column, _, rfl, hmore⟩ := Token.eq_cons_of_map_lexeme hts
    obtain ⟨operand, tail, rfl, hoperand, htail⟩ := List.map_eq_append_iff.1 hmore
    obtain ⟨place₁, hrun₁, hl₁⟩ := h.run hoperand frames (.after links op column)
    obtain ⟨place₂, hrun₂, hl₂⟩ := hs.run htail frames place₁ _ hl₁
    refine ⟨place₂, .cons (.operator _ _ _ hl) (hrun₁.append hrun₂), ?_⟩
    simpa [Due.fill, Links.push] using hl₂
  | .minus digits hs, tokens, hts, frames, place, links, hl => by
    obtain ⟨column, rest, rfl, hrest⟩ := Token.eq_cons_of_map_lexeme hts
    obtain ⟨place₁, hrun, hl₁⟩ := hs.run hrest frames (.operator _) _ rfl
    refine ⟨place₁, .cons (.minus _ digits _ hl) hrun, ?_⟩
    simpa [Links.push] using hl₁

theorem Expression.run {ls : List Lexeme} {t : Term} :
    Expression ls t → ∀ {tokens : List Token}, tokens.map Token.lexeme = ls → ∀ frames,
      ∃ place links, Run ⟨frames, .operand .first⟩ tokens ⟨frames, place⟩ ∧
        place.links? = some links ∧ links.term = t
  | .lone h, tokens, hts, frames => by
    obtain ⟨place, hrun, hl⟩ := h.run hts frames .first
    exact ⟨place, _, hrun, hl, rfl⟩
  | .chain h hs hne, tokens, hts, frames => by
    obtain ⟨operand, tail, rfl, hoperand, htail⟩ := List.map_eq_append_iff.1 hts
    obtain ⟨place₁, hrun₁, hl₁⟩ := h.run hoperand frames .first
    obtain ⟨place₂, hrun₂, hl₂⟩ := hs.run htail frames place₁ _ hl₁
    refine ⟨place₂, _, hrun₁.append hrun₂, hl₂, ?_⟩
    simpa [Due.fill] using Links.term_reverse hne

/-- The arguments go to the frame of their call, after those already `given`. -/
theorem Arguments.run {ls : List Lexeme} {ts : List Term} :
    Arguments ls ts → ∀ {tokens : List Token}, tokens.map Token.lexeme = ls →
      ∀ frames due x column given, ∃ place given' links,
        Run ⟨⟨.call x column given, due⟩ :: frames, .operand .first⟩ tokens
          ⟨⟨.call x column given', due⟩ :: frames, place⟩ ∧
        place.links? = some links ∧ (links.term :: given').reverse = given.reverse ++ ts
  | .last h, tokens, hts, frames, due, x, column, given => by
    obtain ⟨place, links, hrun, hl, rfl⟩ := h.run hts (⟨.call x column given, due⟩ :: frames)
    exact ⟨place, given, links, hrun, hl, by simp⟩
  | .cons h hs, tokens, hts, frames, due, x, column, given => by
    obtain ⟨first, _, rfl, hfirst, hcomma⟩ := List.map_eq_append_iff.1 hts
    obtain ⟨commaColumn, rest, rfl, hrest⟩ := Token.eq_cons_of_map_lexeme hcomma
    obtain ⟨place, links, hrun, hl, rfl⟩ := h.run hfirst (⟨.call x column given, due⟩ :: frames)
    obtain ⟨place', given', links', hrun', hl', hts'⟩ :=
      hs.run hrest frames due x column (links.term :: given)
    refine ⟨place', given', links', hrun.append (.cons (.comma _ _ _ _ _ _ hl) hrun'), hl', ?_⟩
    simpa using hts'

end

end Grammar

/-- An expression is what brings a reader from the start to an end. -/
theorem Grammar.expression_iff_run {tokens : List Token} {t : Term} :
    Expression (tokens.map Token.lexeme) t ↔ ∃ r, Reader.Run .start tokens r ∧ r.Done t := by
  constructor
  · intro h
    obtain ⟨place, links, hrun, hl, rfl⟩ := h.run rfl []
    exact ⟨_, hrun, rfl, links, hl, rfl⟩
  · rintro ⟨r, hrun, hdone⟩
    exact (Reader.reads_start.run hrun).done hdone

/-- Reading a chain takes an expression, and stops where a chain may end. -/
theorem readChain_eq_ok_iff {column : Nat} {tokens rest : List Token} {t : Term} :
    readChain column tokens = .ok (t, rest) ↔
      ∃ read, tokens = read ++ rest ∧ Expression (read.map Token.lexeme) t ∧ Reader.Ends rest := by
  rw [readChain, Reader.read_eq_ok_iff]
  constructor
  · rintro ⟨read, r, rfl, hrun, hdone, hends⟩
    exact ⟨read, rfl, expression_iff_run.2 ⟨r, hrun, hdone⟩, hends⟩
  · rintro ⟨read, rfl, hexpr, hends⟩
    obtain ⟨r, hrun, hdone⟩ := expression_iff_run.1 hexpr
    exact ⟨read, r, rfl, hrun, hdone, hends⟩

end ChainCalc
