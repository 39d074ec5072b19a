import ChainCalc.Command.Report
import ChainCalc.Proofs.ScriptComposition
import ChainCalc.Proofs.Words
import Mathlib.Data.List.Forall2

/-!
# Where the input comes from

Standard input is taken apart into lines and put together again, so a command does not see the text
that was given: every line has a line feed now, and a carriage return in front of one is gone. When
the command splits it into lines, a further one can go (`forall₂_lines_unlines`).

These are blanks at the ends of lines. A script trims its lines and a sequence is made of words, so
neither can tell (`Session.runLines_congr`, `Report.peekLines_congr`), and all sources of a text lead
to the same report (`Command.run_eq_of_holds`).
-/

namespace ChainCalc

/-! ### Lines written down again -/

section

variable {l : List Char} {ls : List (List Char)}

theorem newline_notMem_of_mem_lines {cs : List Char} (hl : l ∈ lines cs) : '\n' ∉ l := by
  induction cs using lines_induction with
  | last cs hcs =>
    by_cases hne : cs = []
    · subst hne
      cases hl
    · rw [lines_of_notMem hcs hne, List.mem_singleton] at hl
      rwa [hl]
  | ended first rest hfirst ih =>
    obtain ⟨l', hlines, hl'⟩ := exists_lines_ended hfirst rest
    rw [hlines] at hl
    rcases List.mem_cons.1 hl with rfl | hl
    · rcases hl' with rfl | rfl
      · exact hfirst
      · exact fun h => hfirst (List.mem_append_left _ h)
    · exact ih hl

/-- Lines that are ended by line feeds are found again, but a carriage return may be lost. -/
theorem forall₂_lines_unlines (hls : ∀ l ∈ ls, '\n' ∉ l) :
    List.Forall₂ (fun l l' => l = l' ∨ l = l' ++ ['\r']) ls (lines (unlines ls)) := by
  induction ls with
  | nil => exact .nil
  | cons l ls ih =>
    obtain ⟨hl, hls⟩ := List.forall_mem_cons.1 hls
    have htext : unlines (l :: ls) = l ++ '\n' :: unlines ls := by simp [unlines]
    obtain ⟨l', hlines, hl'⟩ := exists_lines_ended hl (unlines ls)
    rw [htext, hlines]
    exact .cons hl' (ih hls)

theorem lines_unlines (hls : ∀ l ∈ ls, '\n' ∉ l ∧ '\r' ∉ l) : lines (unlines ls) = ls := by
  have hlines := forall₂_lines_unlines fun l hl => (hls l hl).1
  generalize lines (unlines ls) = found at hlines
  induction hlines with
  | nil => rfl
  | cons hl _ ih =>
    obtain ⟨⟨-, hreturn⟩, hls⟩ := List.forall_mem_cons.1 hls
    rw [ih hls]
    rcases hl with rfl | rfl
    · rfl
    · simp at hreturn

end

/-! ### What a command makes of lines -/

theorem Session.runLines_congr (s : Session) (number : Nat) {ls ls' : List (List Char)}
    (h : List.Forall₂ (fun l l' => trim l = trim l') ls ls') :
    s.runLines number ls = s.runLines number ls' := by
  induction h generalizing s number with
  | nil => rfl
  | @cons l l' ls ls' hl _ ih =>
    rw [runLines_cons, s.runLines_cons number l', s.runLines_trim number hl]
    simp only [ih]

theorem Report.peekLines_congr {ls ls' : List (List Char)}
    (h : List.Forall₂ (fun l l' => words l = words l') ls ls') : peekLines ls = peekLines ls' := by
  induction h with
  | nil => rfl
  | @cons l l' ls ls' hl _ ih =>
    have hblank : l.all isBlank = l'.all isBlank := by
      rw [Bool.eq_iff_iff, ← IsGap.iff_all, ← IsGap.iff_all, ← words_eq_nil_iff,
        ← words_eq_nil_iff, hl]
    simp only [peekLines, readSequence, hblank, hl, ih]

/-! ### Sources of one text -/

/-- The lines of one text are those of the other, but for carriage returns at their ends. -/
def SameLines (cs cs' : List Char) : Prop :=
  List.Forall₂ (fun l l' => l = l' ∨ l = l' ++ ['\r']) (lines cs) (lines cs')

namespace SameLines

theorem refl (cs : List Char) : SameLines cs cs :=
  List.forall₂_same.2 fun _ _ => .inl rfl

theorem unlines_lines (cs : List Char) : SameLines cs (unlines (lines cs)) :=
  forall₂_lines_unlines fun _ hl => newline_notMem_of_mem_lines hl

variable {s s' : String}

theorem eval_eq (h : SameLines s.toList s'.toList) (printAll : Bool) (limit : Nat) :
    Report.eval s printAll limit = Report.eval s' printAll limit := by
  have hrun : (Session.new limit).runScript s = (Session.new limit).runScript s' := by
    refine Session.runLines_congr _ _ (h.imp fun l l' hl => ?_)
    rcases hl with rfl | rfl
    · rfl
    · exact trim_append_blank (by decide) l'
  simp only [Report.eval, hrun]

theorem peek_eq (h : SameLines s.toList s'.toList) : Report.peek s = Report.peek s' := by
  have hlines : Report.peekLines (lines s.toList) = Report.peekLines (lines s'.toList) := by
    refine Report.peekLines_congr (h.imp fun l l' hl => ?_)
    rcases hl with rfl | rfl
    · rfl
    · exact words_append_blank (by decide) l'
  simp only [Report.peek, hlines]

end SameLines

theorem decodeText_toUTF8 (s : String) : decodeText s.toUTF8 = .ok s := by
  have hvalid : String.fromUTF8? s.toUTF8 = some s := dif_pos s.isValidUTF8
  rw [decodeText, hvalid]

namespace Source

/-- The text is what a source has to offer, in UTF-8 where bytes are read. -/
def Holds (around : Surroundings) (s : String) : Source → Prop
  | text contents => contents = s
  | file path => around.file path = .ok s.toUTF8
  | standardInput => around.standardInput = s.toUTF8

variable {around : Surroundings} {s : String} {source : Source}

theorem Holds.exists_read (h : source.Holds around s) :
    ∃ s', source.read around = .ok s' ∧ SameLines s.toList s'.toList := by
  cases source with
  | text contents => exact ⟨contents, rfl, h ▸ .refl _⟩
  | file path =>
    have hfile : around.file path = .ok s.toUTF8 := h
    refine ⟨s, ?_, .refl _⟩
    rw [read, hfile]
    simp only [Except.bind, decodeText_toUTF8, Except.mapError]
  | standardInput =>
    have hbytes : around.standardInput = s.toUTF8 := h
    refine ⟨String.ofList (unlines (lines s.toList)), ?_, ?_⟩
    · rw [read, hbytes, decodeText_toUTF8]
    · rw [String.toList_ofList]
      exact .unlines_lines _

end Source

namespace Command

variable {around around' : Surroundings} {source source' : Source}

theorem run_eval_of_holds {s : String} (h : source.Holds around s) (printAll : Bool)
    (limit : Nat) : (eval source printAll limit).run around = .eval s printAll limit := by
  obtain ⟨s', hread, hlines⟩ := h.exists_read
  rw [hlines.eval_eq, run, hread]

theorem run_peek_of_holds {s : String} (h : source.Holds around s) :
    (peek source).run around = .peek s := by
  obtain ⟨s', hread, hlines⟩ := h.exists_read
  rw [hlines.peek_eq, run, hread]

/-- A command prints the same, complains of the same and has the same exit code wherever its text
comes from. -/
theorem run_eq_of_holds (s : String) (h : source.Holds around s) (h' : source'.Holds around' s) :
    (∀ printAll limit,
      (eval source printAll limit).run around = (eval source' printAll limit).run around') ∧
      (peek source).run around = (peek source').run around' := by
  refine ⟨fun printAll limit => ?_, ?_⟩
  · rw [run_eval_of_holds h, run_eval_of_holds h']
  · rw [run_peek_of_holds h, run_peek_of_holds h']

/-- Carriage returns stand doubled before a line feed, alone in front of a statement and at the end
of the text. Standard input loses one of them and gains a line feed. -/
theorem returns_run_eq_of_holds :
    let s := "x = 2\r\r\n\rx + y\r"
    let around : Surroundings := ⟨s.toUTF8, fun _ => .ok s.toUTF8⟩
    Source.standardInput.read around = .ok "x = 2\r\n\rx + y\r\n" ∧
      (∀ printAll limit, (eval .standardInput printAll limit).run around =
        (eval (.text s) printAll limit).run around) ∧
      (peek .standardInput).run around = (peek (.file "script")).run around := by
  intro s around
  have hinput : Source.standardInput.Holds around s := rfl
  have htext : (Source.text s).Holds around s := rfl
  have hfile : (Source.file "script").Holds around s := rfl
  refine ⟨?_, (run_eq_of_holds s hinput htext).1, (run_eq_of_holds s hinput hfile).2⟩
  rw [Source.read, decodeText_toUTF8]
  decide

end Command

end ChainCalc
