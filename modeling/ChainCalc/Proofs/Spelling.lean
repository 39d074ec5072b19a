import ChainCalc.Proofs.LongestLexeme

/-!
# The lexemes of a text

A scan goes from lexeme to lexeme (`Piece.scan_of_longest?`), and the columns only come along
(`Piece.scan_add`). So a text is read piece by piece wherever its pieces are closed: `Spells cs ls`
says that `cs` gives the lexemes `ls` before anything that closes them all.
-/

namespace ChainCalc

namespace Piece
variable {c : Char} {cs : List Char} {l : Lexeme} {n : Nat}

/-- The characters that belong to the last token are passed over. -/
theorem scan_covered (n column : Nat) (cs : List Char) :
    scan n column cs = scan 0 (column + n) (cs.drop n) := by
  induction cs generalizing n column with
  | nil => simp [scan]
  | cons c cs ih =>
    cases n with
    | zero => rfl
    | succ n => rw [scan, ih, List.drop_succ_cons, Nat.add_right_comm, Nat.add_assoc]

theorem scan_of_longest? (column : Nat) (h : Lexeme.longest? c cs = some (l, n)) :
    scan 0 column (c :: cs) = token ⟨l, column⟩ :: scan 0 (column + 1 + n) (cs.drop n) := by
  rw [scan, h, ← scan_covered]

/-- The piece, `k` columns further on. -/
def shift (k : Nat) : Piece → Piece
  | token t => token { t with column := t.column + k }
  | stray c column => stray c (column + k)

theorem scan_add (n column k : Nat) (cs : List Char) :
    scan n (column + k) cs = (scan n column cs).map (shift k) := by
  induction cs generalizing n column with
  | nil => rfl
  | cons c cs ih =>
    cases n with
    | succ n => rw [scan, scan, Nat.add_right_comm, ih]
    | zero =>
      rw [scan, scan]
      split
      · rw [Nat.add_right_comm, ih, List.map_cons, shift]
      · split
        · rw [Nat.add_right_comm, ih]
        · rw [Nat.add_right_comm, ih, List.map_cons, shift]

theorem wellSpelled_of_mem_scan {t : Token} {column : Nat} (h : token t ∈ scan n column cs) :
    t.lexeme.wellSpelled := by
  induction cs generalizing n column with
  | nil => cases h
  | cons c cs ih =>
    cases n with
    | succ n => exact ih h
    | zero =>
      rw [scan] at h
      split at h
      · rename_i l n hl
        rcases List.mem_cons.1 h with ht | h
        · obtain ⟨run, rest, -, -, -, hw, -⟩ := Lexeme.longest?_eq_some hl
          cases ht
          exact hw
        · exact ih h
      · split at h
        · exact ih h
        · rcases List.mem_cons.1 h with ht | h
          · cases ht
          · exact ih h

theorem column_lt_of_mem_scan {t : Token} {column : Nat} (h : token t ∈ scan n column cs) :
    t.column < column + cs.length := by
  induction cs generalizing n column with
  | nil => cases h
  | cons c cs ih =>
    have hnext : ∀ {n : Nat}, token t ∈ scan n (column + 1) cs →
        t.column < column + (c :: cs).length := by
      intro n h
      have := ih h
      rw [List.length_cons]
      omega
    cases n with
    | succ n => exact hnext h
    | zero =>
      rw [scan] at h
      split at h
      · rcases List.mem_cons.1 h with ht | h
        · cases ht
          exact Nat.lt_add_of_pos_right (Nat.succ_pos _)
        · exact hnext h
      · split at h
        · exact hnext h
        · rcases List.mem_cons.1 h with ht | h
          · cases ht
          · exact hnext h

def lexeme? (p : Piece) : Option Lexeme := p.token?.map Token.lexeme

theorem lexeme?_shift (k : Nat) (p : Piece) : (p.shift k).lexeme? = p.lexeme? := by
  cases p <;> rfl

end Piece

/-- The lexemes of a text, without their columns. -/
def lexemes (cs : List Char) : List Lexeme := (Piece.scan 0 1 cs).filterMap Piece.lexeme?

section
variable {c : Char} {cs rest : List Char} {l : Lexeme} {n : Nat}

theorem filterMap_lexeme?_scan (column : Nat) (cs : List Char) :
    (Piece.scan 0 column cs).filterMap Piece.lexeme? = lexemes cs := by
  have hzero : ∀ column, (Piece.scan 0 column cs).filterMap Piece.lexeme? =
      (Piece.scan 0 0 cs).filterMap Piece.lexeme? := by
    intro column
    rw [← Nat.zero_add column, Piece.scan_add, List.filterMap_map]
    exact congrArg (List.filterMap · _) (funext (Piece.lexeme?_shift column))
  exact (hzero column).trans (hzero 1).symm

theorem map_lexeme_tokenize (source : String) :
    (tokenize source).map Token.lexeme = lexemes source.toList := by
  rw [tokenize, pieces, List.map_filterMap]
  rfl

theorem lexemes_of_longest? (h : Lexeme.longest? c cs = some (l, n)) :
    lexemes (c :: cs) = l :: lexemes (cs.drop n) := by
  rw [lexemes, Piece.scan_of_longest? 1 h, ← filterMap_lexeme?_scan (1 + 1 + n)]
  rfl

/-- A character that starts no lexeme leaves no trace. -/
theorem lexemes_of_longest?_none (h : Lexeme.longest? c cs = none) :
    lexemes (c :: cs) = lexemes cs := by
  rw [lexemes, Piece.scan, h, ← filterMap_lexeme?_scan (1 + 1)]
  dsimp only
  split <;> rfl

theorem wellSpelled_of_mem_lexemes (h : l ∈ lexemes cs) : l.wellSpelled := by
  obtain ⟨p, hp, hl⟩ := List.mem_filterMap.1 h
  cases p with
  | token t => cases hl; exact Piece.wellSpelled_of_mem_scan hp
  | stray => cases hl

/-- A lexeme that is closed is read as itself. -/
theorem lexemes_spell_append (hw : l.wellSpelled) (hc : l.closedBy rest.head?) :
    lexemes (l.spell ++ rest) = l :: lexemes rest := by
  cases hs : l.spell with
  | nil => exact absurd hs (Lexeme.spell_ne_nil hw)
  | cons c run =>
    rw [List.cons_append, lexemes_of_longest? (Lexeme.longest?_of_spell hs hw hc), List.drop_left]

end

/-- The character goes on with no lexeme. -/
def closesAll (next : Option Char) : Bool := next.all fun c => !isNumeric c && !isNameChar c

theorem closedBy_of_closesAll {next : Option Char} (h : closesAll next) (l : Lexeme) :
    l.closedBy next := by
  have hnumeric : next.any isNumeric = false := by
    cases next <;> simp_all [closesAll]
  have hname : next.any isNameChar = false := by
    cases next <;> simp_all [closesAll]
  have hdigit : next.any Char.isDigit = false := by
    cases next <;> simp_all [closesAll, isNumeric]
  cases l with
  | number => simp [Lexeme.closedBy, hnumeric]
  | symbol => simp [Lexeme.closedBy, hname]
  | operator op =>
    cases op with
    | sub => simp [Lexeme.closedBy, hdigit]
    | add | mul | div | pow => rfl
  | openParen | closeParen | equals | comma => rfl

/-- The characters give the lexemes, before anything that closes every lexeme. -/
def Spells (cs : List Char) (ls : List Lexeme) : Prop :=
  ∀ rest, closesAll rest.head? → lexemes (cs ++ rest) = ls ++ lexemes rest

namespace Spells
variable {cs ds : List Char} {ls ms : List Lexeme} {l : Lexeme}

theorem lexeme (hw : l.wellSpelled) : Spells l.spell [l] := fun _ hrest =>
  lexemes_spell_append hw (closedBy_of_closesAll hrest l)

theorem append (h : Spells cs ls) (hd : Spells ds ms) (hclose : closesAll ds.head?) :
    Spells (cs ++ ds) (ls ++ ms) := by
  intro rest hrest
  have hnext : closesAll (ds ++ rest).head? := by
    cases ds with
    | nil => exact hrest
    | cons d ds => exact hclose
  rw [List.append_assoc, h (ds ++ rest) hnext, hd rest hrest, List.append_assoc]

/-- A parenthesis, a comma or `=` stands for itself, whatever follows. -/
theorem mark (hm : ∀ next, l.closedBy next) (hw : l.wellSpelled) (h : Spells cs ls) :
    Spells (l.spell ++ cs) (l :: ls) := by
  intro rest hrest
  rw [List.append_assoc, lexemes_spell_append hw (hm _), h rest hrest, List.cons_append]

theorem blank (h : Spells cs ls) : Spells (' ' :: cs) ls := by
  intro rest hrest
  rw [List.cons_append, lexemes_of_longest?_none rfl, h rest hrest]

theorem nil : Spells [] [] := fun _ _ => rfl

/-- At the end of the text. -/
theorem lexemes_eq (h : Spells cs ls) : lexemes cs = ls := by
  have hend := h [] rfl
  rwa [List.append_nil, show lexemes [] = [] from rfl, List.append_nil] at hend

end Spells

end ChainCalc
