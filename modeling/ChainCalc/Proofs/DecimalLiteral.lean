import ChainCalc.Proofs.Frame

/-!
# Literals among the texts of floats

Floats are commonly written with a sign, with an exponent, or by a name if they are not finite
(`FloatText`). A literal is less than that: after at most one minus sign there are digits, and a
point before, among or after them (`Number.IsDecimal`). These are exactly the texts of floats that
are left when only digits and points may follow the sign, so the characters alone rule out all other
forms (`Number.floatText_of_isLiteral`, `Number.isLiteral_of_floatText`). Exactly the literals have
a value.
-/

namespace ChainCalc

/-! ### The notation of floats -/

/-- Digits, of which there may be none. -/
def IsDigits (cs : List Char) : Prop := ∀ c ∈ cs, c.isDigit

namespace FloatText

inductive Sign : List Char → Prop
  | absent : Sign []
  | plus : Sign ['+']
  | minus : Sign ['-']

/-- Digits and at most one point. On one side of the point there may be none. -/
inductive Mantissa : List Char → Prop
  | whole {ds : List Char} (hds : IsDigits ds) (hne : ds ≠ []) : Mantissa ds
  | beforePoint {ds fs : List Char} (hds : IsDigits ds) (hne : ds ≠ []) (hfs : IsDigits fs) :
      Mantissa (ds ++ '.' :: fs)
  | afterPoint {ds fs : List Char} (hds : IsDigits ds) (hfs : IsDigits fs) (hne : fs ≠ []) :
      Mantissa (ds ++ '.' :: fs)

inductive Exponent : List Char → Prop
  | absent : Exponent []
  | present {c : Char} {sign ds : List Char} (hc : c.toLower = 'e') (hsign : Sign sign)
      (hds : IsDigits ds) (hne : ds ≠ []) : Exponent (c :: (sign ++ ds))

end FloatText

open FloatText

/-- The texts of floats. Letters may be of either case. -/
inductive FloatText : List Char → Prop
  | special {sign name : List Char} (hsign : Sign sign)
      (hname : name.map Char.toLower ∈ ["inf".toList, "infinity".toList, "nan".toList]) :
      FloatText (sign ++ name)
  | number {sign mantissa exponent : List Char} (hsign : Sign sign) (hmantissa : Mantissa mantissa)
      (hexponent : Exponent exponent) : FloatText (sign ++ (mantissa ++ exponent))

namespace Number

/-- A text without the minus sign in front, if there is one. -/
def unsigned : List Char → List Char
  | '-' :: cs => cs
  | cs => cs

/-- There is something after the sign, and it has digits and points only. -/
def isPlain (cs : List Char) : Bool := !(unsigned cs).isEmpty && (unsigned cs).all isNumeric

/-- At most one minus sign, and then digits with at most one point among them. -/
def IsDecimal (cs : List Char) : Prop :=
  ∃ sign ds, cs = sign ++ ds ∧ (sign = [] ∨ sign = ['-']) ∧ (∀ c ∈ ds, c.isDigit ∨ c = '.') ∧
    (∃ c ∈ ds, c.isDigit) ∧ ds.count '.' ≤ 1

/-! ### Characters of a plain text -/

section

variable {c : Char} {cs ds sign : List Char}

theorem isNumeric_iff : isNumeric c ↔ c.isDigit ∨ c = '.' := by
  simp [isNumeric]

theorem toLower_of_isNumeric (h : isNumeric c) : c.toLower = c := by
  rcases isNumeric_iff.1 h with h | rfl
  · have hle : c.val ≤ 57 := by
      simp only [Char.isDigit, Bool.and_eq_true, decide_eq_true_eq] at h
      exact h.2
    refine dif_neg ?_
    rintro ⟨hge, -⟩
    exact absurd (UInt32.le_trans hge hle) (by decide)
  · rfl

theorem exists_sign (cs : List Char) :
    ∃ sign, cs = sign ++ unsigned cs ∧ (sign = [] ∨ sign = ['-']) := by
  fun_cases unsigned cs with
  | case1 cs => exact ⟨['-'], rfl, .inr rfl⟩
  | case2 => exact ⟨[], rfl, .inl rfl⟩

theorem unsigned_append (hsign : sign = [] ∨ sign = ['-']) (hds : ∀ c ∈ ds, isNumeric c) :
    unsigned (sign ++ ds) = ds := by
  rcases hsign with rfl | rfl
  · fun_cases unsigned ds with
    | case1 cs => cases hds '-' List.mem_cons_self
    | case2 => rfl
  · rfl

theorem isPlain_iff : isPlain cs ↔ unsigned cs ≠ [] ∧ ∀ c ∈ unsigned cs, isNumeric c := by
  simp [isPlain]

theorem isNumeric_or_eq_minus_of_isPlain (h : isPlain cs) (hc : c ∈ cs) :
    isNumeric c ∨ c = '-' := by
  obtain ⟨sign, hcs, hsign⟩ := exists_sign cs
  obtain ⟨-, hall⟩ := isPlain_iff.1 h
  rw [hcs] at hc
  rcases List.mem_append.1 hc with hc | hc
  · rcases hsign with rfl | rfl
    · cases hc
    · exact .inr (List.mem_singleton.1 hc)
  · exact .inl (hall c hc)

/-- A plain text has no letters, so neither names nor exponents. -/
theorem toLower_ne_of_isPlain (h : isPlain cs) (hc : c ∈ cs) {d : Char}
    (hd : ¬ isNumeric d) (hminus : d ≠ '-') : c.toLower ≠ d := by
  rintro rfl
  rcases isNumeric_or_eq_minus_of_isPlain h hc with hc | rfl
  · rw [toLower_of_isNumeric hc] at hd
    exact hd hc
  · exact hminus rfl

end

/-! ### Literals -/

theorem read_ok_iff_isLiteral {text : String} :
    (∃ x, read text = .ok x) ↔ isLiteral (unsigned text.toList) := by
  have hread : (∃ x, read text = .ok x) ↔ (read? text).isSome := by
    unfold read
    cases read? text <;> simp
  rw [hread, read?]
  generalize text.toList = cs
  fun_cases unsigned cs with
  | case1 cs => simp
  | case2 cs hcs =>
    split
    · exact absurd rfl (hcs _)
    · simp

theorem read_eq_numberFormat_iff {text : String} :
    read text = .error (.numberFormat text) ↔ ¬ ∃ x, read text = .ok x := by
  constructor
  · rintro herror ⟨x, hx⟩
    rw [herror] at hx
    cases hx
  · intro hnone
    cases hread : read text with
    | ok x => exact absurd ⟨x, hread⟩ hnone
    | error e => rw [read_eq_error hread]

theorem isLiteral_iff_mem {ds : List Char} : isLiteral ds ↔
    (∀ c ∈ ds, c.isDigit ∨ c = '.') ∧ (∃ c ∈ ds, c.isDigit) ∧ ds.count '.' ≤ 1 := by
  simp [isLiteral, isNumeric, and_assoc]

theorem isDecimal_iff_isLiteral {cs : List Char} : IsDecimal cs ↔ isLiteral (unsigned cs) := by
  constructor
  · rintro ⟨sign, ds, rfl, hsign, hds, ⟨d, hd, hdigit⟩, hcount⟩
    have hnumeric : ∀ c ∈ ds, isNumeric c := fun c hc => isNumeric_iff.2 (hds c hc)
    rw [unsigned_append hsign hnumeric, isLiteral_iff_mem]
    exact ⟨hds, ⟨d, hd, hdigit⟩, hcount⟩
  · intro h
    obtain ⟨sign, hcs, hsign⟩ := exists_sign cs
    exact ⟨sign, unsigned cs, hcs, hsign, isLiteral_iff_mem.1 h⟩

theorem point_notMem_of_isDigits {ds : List Char} (hds : IsDigits ds) : '.' ∉ ds := by
  intro hmem
  cases hds '.' hmem

theorem isLiteral_of_point {ds fs : List Char} (hds : IsDigits ds) (hfs : IsDigits fs)
    (hne : ds ++ fs ≠ []) : isLiteral (ds ++ '.' :: fs) := by
  obtain ⟨d, hd⟩ := List.exists_mem_of_ne_nil _ hne
  have hdigits : IsDigits (ds ++ fs) := List.forall_mem_append.2 ⟨hds, hfs⟩
  have hmem : ∀ {c : Char}, c ∈ ds ++ '.' :: fs ↔ c ∈ ds ++ fs ∨ c = '.' := by
    intro c
    simp only [List.mem_append, List.mem_cons]
    grind
  have hcount : (ds ++ '.' :: fs).count '.' = 1 := by
    rw [List.count_append, List.count_cons_self,
      List.count_eq_zero.2 (point_notMem_of_isDigits hds),
      List.count_eq_zero.2 (point_notMem_of_isDigits hfs)]
  refine isLiteral_iff_mem.2 ⟨fun c hc => ?_, ⟨d, hmem.2 (.inl hd), hdigits d hd⟩, ?_⟩
  · exact (hmem.1 hc).imp_left (hdigits c)
  · exact Nat.le_of_eq hcount

theorem isLiteral_of_mantissa {ds : List Char} (h : Mantissa ds) : isLiteral ds := by
  cases h with
  | whole hds hne =>
    obtain ⟨d, hd⟩ := List.exists_mem_of_ne_nil ds hne
    refine isLiteral_iff_mem.2 ⟨fun c hc => .inl (hds c hc), ⟨d, hd, hds d hd⟩, ?_⟩
    rw [List.count_eq_zero.2 (point_notMem_of_isDigits hds)]
    exact Nat.zero_le 1
  | beforePoint hds hne hfs =>
    exact isLiteral_of_point hds hfs (List.append_ne_nil_of_left_ne_nil hne _)
  | afterPoint hds hfs hne =>
    exact isLiteral_of_point hds hfs (List.append_ne_nil_of_right_ne_nil _ hne)

theorem mantissa_of_isLiteral {ds : List Char} (h : isLiteral ds) : Mantissa ds := by
  obtain ⟨hds, ⟨d, hd, hdigit⟩, hcount⟩ := isLiteral_iff_mem.1 h
  have hdigits : ∀ cs ⊆ ds, '.' ∉ cs → IsDigits cs := by
    intro cs hcs hpoint c hc
    rcases hds c (hcs hc) with hdigit | rfl
    · exact hdigit
    · exact absurd hc hpoint
  by_cases hpoint : '.' ∈ ds
  · obtain ⟨ws, fs, rfl, hws⟩ := List.eq_append_cons_of_mem hpoint
    have hfs : '.' ∉ fs := by
      rw [List.count_append, List.count_cons_self] at hcount
      exact List.count_eq_zero.1 (by omega)
    have hleft := hdigits ws (List.subset_append_left _ _) hws
    have hright := hdigits fs (fun c hc => List.mem_append_right _ (List.mem_cons_of_mem _ hc)) hfs
    -- the digit that there must be is on one of the two sides
    rcases List.mem_append.1 hd with hd | hd
    · exact .beforePoint hleft (List.ne_nil_of_mem hd) hright
    · rcases List.mem_cons.1 hd with rfl | hd
      · cases hdigit
      · exact .afterPoint hleft hright (List.ne_nil_of_mem hd)
  · exact .whole (hdigits ds (List.Subset.refl ds) hpoint) (List.ne_nil_of_mem hd)

/-! ### What the characters rule out -/

theorem floatText_of_isLiteral {cs : List Char} (h : isLiteral (unsigned cs)) :
    isPlain cs ∧ FloatText cs := by
  obtain ⟨sign, hcs, hsign⟩ := exists_sign cs
  obtain ⟨hall, ⟨d, hd, -⟩, -⟩ := isLiteral_iff_mem.1 h
  refine ⟨isPlain_iff.2 ⟨List.ne_nil_of_mem hd, fun c hc => isNumeric_iff.2 (hall c hc)⟩, ?_⟩
  have hsign' : Sign sign := by
    rcases hsign with rfl | rfl
    · exact .absent
    · exact .minus
  have hfloat := FloatText.number hsign' (mantissa_of_isLiteral h) .absent
  rwa [List.append_nil, ← hcs] at hfloat

theorem isLiteral_of_floatText {cs : List Char} (hplain : isPlain cs) (h : FloatText cs) :
    isLiteral (unsigned cs) := by
  cases h with
  | @special sign name hsign hname =>
    -- each of the names has an `n` in it
    have hletter : ∀ lower ∈ ["inf".toList, "infinity".toList, "nan".toList], 'n' ∈ lower := by
      decide
    obtain ⟨c, hc, hlower⟩ := List.mem_map.1 (hletter _ hname)
    exact absurd hlower (toLower_ne_of_isPlain hplain (List.mem_append_right sign hc) (by decide)
      (by decide))
  | @number sign mantissa exponent hsign hmantissa hexponent =>
    cases hexponent with
    | present hc =>
      refine absurd hc (toLower_ne_of_isPlain hplain ?_ (by decide) (by decide))
      simp
    | absent =>
      have hsign' : sign = [] ∨ sign = ['-'] := by
        cases hsign with
        | absent => exact .inl rfl
        | minus => exact .inr rfl
        | plus =>
          rcases isNumeric_or_eq_minus_of_isPlain hplain List.mem_cons_self with hplus | hplus <;>
            cases hplus
      have hliteral := isLiteral_of_mantissa hmantissa
      have hnumeric : ∀ c ∈ mantissa, isNumeric c := fun c hc =>
        isNumeric_iff.2 ((isLiteral_iff_mem.1 hliteral).1 c hc)
      rwa [List.append_nil, unsigned_append hsign' hnumeric]

/-- Exactly the decimals have a value, and any other text is reported as it stands. Among the texts
of floats, which may have exponents and names, the decimals are those with digits and points only
after at most one minus sign. -/
theorem read_accepts_decimals (text : String) :
    ((∃ x, read text = .ok x) ↔ IsDecimal text.toList) ∧
      (read text = .error (.numberFormat text) ↔ ¬ IsDecimal text.toList) ∧
      (IsDecimal text.toList ↔ isPlain text.toList ∧ FloatText text.toList) := by
  have hok : (∃ x, read text = .ok x) ↔ IsDecimal text.toList :=
    read_ok_iff_isLiteral.trans isDecimal_iff_isLiteral.symm
  refine ⟨hok, ?_, ?_⟩
  · rw [← hok]
    exact read_eq_numberFormat_iff
  · rw [isDecimal_iff_isLiteral]
    exact ⟨floatText_of_isLiteral, fun h => isLiteral_of_floatText h.1 h.2⟩

end Number

end ChainCalc
