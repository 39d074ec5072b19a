import ChainCalc.Proofs.MaximalPeek

/-!
# A peek in rounds

`bestPeek` counts what is above each value once and then passes over the candidates once.
`Peek.rounds` looks at all remaining values for each pick instead: those above the threshold are
numbered, the least in the order of preference is taken, and only what stands behind it remains.
What is above a value is counted anew in every round, among the remaining values only, but these are
the end of the sequence, so the counts are the same (`Candidate.ofValues_drop`). Both pick the same
values (`bestPeek_eq_rounds`).
-/

namespace ChainCalc

namespace Peek

/-- The first of the least elements: it is given up only for one that comes before it. -/
def least? {α : Type} (before : α → α → Bool) : List α → Option α
  | [] => none
  | x :: xs => some (xs.foldl (fun best y => if before y best then y else best) x)

/-- A value at an index, with the number of distinct greater values behind it. -/
def numbered (values : List Int) : Int × Nat → Nat × Candidate
  | (value, index) =>
    (index, ⟨value, ((values.drop (index + 1)).filter (value < ·)).toFinset.card⟩)

/-- More distinct greater values come first, then the smaller value, then the smaller index. -/
def before : Nat × Candidate → Nat × Candidate → Bool
  | (i, a), (j, b) =>
    b.above < a.above || (b.above == a.above &&
      (a.value < b.value || (a.value == b.value && i < j)))

/-- The index of the next value to pick. -/
def next? (values : List Int) (threshold : Int) : Option Nat :=
  (least? before ((values.zipIdx.filter (threshold < ·.1)).map (numbered values))).map Prod.fst

/-- Picks values above `threshold`, a round for each. -/
def rounds (threshold : Int) (remaining : List Int) : List Int :=
  match next? remaining threshold with
  | none => []
  | some index =>
    if h : index < remaining.length then
      remaining[index] :: rounds remaining[index] (remaining.drop (index + 1))
    else []
termination_by remaining.length
decreasing_by
  rw [List.length_drop]
  omega

section
variable {α : Type} {before : α → α → Bool} {a : α}

theorem foldl_least {best : α} {xs : List α} (hmem : a ∈ best :: xs)
    (hfirst : ∀ x ∈ best :: xs, x = a ∨ before a x ∧ ¬ before x a) :
    xs.foldl (fun best y => if before y best then y else best) best = a := by
  induction xs generalizing best with
  | nil => exact (List.mem_singleton.1 hmem).symm
  | cons y ys ih =>
    obtain ⟨hbest, hy, hys⟩ : _ ∧ _ ∧ _ := by simpa only [List.forall_mem_cons] using hfirst
    rw [List.foldl_cons]
    refine ih ?_ (List.forall_mem_cons.2 ⟨?_, hys⟩)
    · rcases List.mem_cons.1 hmem with rfl | hmem
      · -- `y` does not come before `a`, or is `a`
        rcases hy with rfl | ⟨-, hnot⟩
        · simp
        · simp [hnot]
      · rcases List.mem_cons.1 hmem with rfl | hmem
        · rcases hbest with rfl | ⟨hbefore, -⟩
          · simp
          · simp [hbefore]
        · exact List.mem_cons_of_mem _ hmem
    · split
      · exact hy
      · exact hbest

theorem least?_eq_some {xs : List α} (hmem : a ∈ xs)
    (hfirst : ∀ x ∈ xs, x = a ∨ before a x ∧ ¬ before x a) : least? before xs = some a := by
  cases xs with
  | nil => cases hmem
  | cons x xs => exact congrArg some (foldl_least hmem hfirst)

end

variable {values : List Int} {threshold : Int} {p q : Fin values.length}

theorem numbered_get (p : Fin values.length) :
    numbered values (values.get p, p) = (p.val, Candidate.ofPosition values p) := by
  simp only [numbered, List.toFinset_filter, decide_eq_true_eq, ← distinctAbove_eq_card]
  rfl

theorem before_iff_precedes :
    before (p.val, Candidate.ofPosition values p) (q.val, Candidate.ofPosition values q) ↔
      Precedes values p q := by
  simp only [before, Bool.or_eq_true, Bool.and_eq_true, beq_iff_eq, decide_eq_true_eq]
  exact Iff.rfl

/-- What is compared in a round. -/
theorem mem_map_numbered_iff {x : Nat × Candidate} :
    x ∈ (values.zipIdx.filter (threshold < ·.1)).map (numbered values) ↔
      ∃ i : Fin values.length, threshold < values.get i ∧
        x = (i.val, Candidate.ofPosition values i) := by
  rw [List.mem_map]
  constructor
  · rintro ⟨⟨value, index⟩, hmem, rfl⟩
    rw [List.mem_filter, List.mk_mem_zipIdx_iff_getElem?, List.getElem?_eq_some_iff] at hmem
    obtain ⟨⟨hlt, rfl⟩, habove⟩ := hmem
    exact ⟨⟨index, hlt⟩, of_decide_eq_true habove, numbered_get ⟨index, hlt⟩⟩
  · rintro ⟨i, habove, rfl⟩
    refine ⟨(values.get i, i), List.mem_filter.2 ⟨?_, decide_eq_true habove⟩, numbered_get i⟩
    exact List.mk_mem_zipIdx_iff_getElem?.2 (List.getElem?_eq_getElem i.isLt)

theorem next?_eq_none (h : ∀ i : Fin values.length, values.get i ≤ threshold) :
    next? values threshold = none := by
  have hnil : (values.zipIdx.filter (threshold < ·.1)).map (numbered values) = [] := by
    refine List.eq_nil_iff_forall_not_mem.2 fun x hx => ?_
    obtain ⟨i, habove, -⟩ := mem_map_numbered_iff.1 hx
    exact absurd habove (Int.not_lt.2 (h i))
  rw [next?, hnil]
  rfl

theorem next?_eq_some (habove : threshold < values.get p)
    (hbest : ∀ i, threshold < values.get i → i ≠ p → Precedes values p i) :
    next? values threshold = some p.val := by
  have hleast : least? before ((values.zipIdx.filter (threshold < ·.1)).map (numbered values)) =
      some (p.val, Candidate.ofPosition values p) := by
    refine least?_eq_some (mem_map_numbered_iff.2 ⟨p, habove, rfl⟩) fun x hx => ?_
    obtain ⟨i, hi, rfl⟩ := mem_map_numbered_iff.1 hx
    by_cases hip : i = p
    · exact .inl (by rw [hip])
    · have hprecedes := hbest i hi hip
      exact .inr ⟨before_iff_precedes.2 hprecedes, mt before_iff_precedes.1 hprecedes.asymm⟩
  rw [next?, hleast]
  rfl

theorem rounds_of_next?_eq_some (h : next? values threshold = some p.val) :
    rounds threshold values =
      values.get p :: rounds (values.get p) (values.drop (p + 1)) := by
  rw [rounds, h]
  exact dif_pos p.isLt

end Peek

theorem Candidate.ofValues_drop (values : List Int) (n : Nat) :
    ofValues (values.drop n) = (ofValues values).drop n := by
  induction values generalizing n with
  | nil => simp [ofValues]
  | cons x xs ih =>
    cases n with
    | zero => rfl
    | succ n => exact ih n

/-- The induction is on the number of values that are left. -/
theorem Peek.pick_ofValues (threshold : Int) (values : List Int) :
    Candidate.pick threshold (Candidate.ofValues values) = rounds threshold values := by
  rcases pick_drop_cases values 0 threshold with ⟨hnil, hnone⟩ | ⟨p, -, habove, hpick, hbest⟩
  · rw [rounds, next?_eq_none fun i => hnone i (Nat.zero_le _)]
    exact hnil
  · have hrest := pick_ofValues (values.get p) (values.drop (p + 1))
    rw [Candidate.ofValues_drop] at hrest
    rw [rounds_of_next?_eq_some (next?_eq_some habove fun i => hbest i (Nat.zero_le _)), ← hrest]
    exact hpick
termination_by values.length
decreasing_by
  have := p.isLt
  rw [List.length_drop]
  omega

/-- Passing over the candidates once picks what the rounds pick. -/
theorem bestPeek_eq_rounds (values : List Int) : bestPeek values = Peek.rounds (-1) values :=
  Peek.pick_ofValues (-1) values

end ChainCalc
