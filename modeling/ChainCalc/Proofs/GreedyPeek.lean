import ChainCalc.Proofs.MaximalPeek
import Mathlib.Data.Fintype.Basic

/-!
# The only greedy selection

`Peek.Greedy values positions` says of positions in the whole sequence which ones a peek has to
pick: each time the best one of those that may follow the pick before, until there are none. The
order of preference never leaves two positions undecided, so at most one list of positions is greedy
(`Peek.Picks.unique`), and the best peek is what stands there (`bestPeek_eq_iff_greedy`).

On an increasing sequence the number of greater values behind a position falls from each position to
the next. So nothing is passed over, and the peeks are exactly the sequences that are left as they
are (`bestPeek_is_projection`).
-/

namespace ChainCalc

namespace Peek

variable {values : List Int} {start : Nat} {threshold : Int} {last : Option (Fin values.length)}
  {p q : Fin values.length} {positions : List (Fin values.length)}

/-! ### Greedy positions -/

/-- The number of distinct values after a position that are greater than the value there. -/
def greaterAfter (values : List Int) (q : Fin values.length) : Nat :=
  (((Finset.univ.filter (q < ·)).image values.get).filter (values.get q < ·)).card

/-- The position may follow the last pick: it is after it and its value is greater. Before the first
pick any position may follow, and the value has to be greater than `-1`. -/
def MayFollow (values : List Int) :
    (last : Option (Fin values.length)) → (q : Fin values.length) → Prop
  | none, q => -1 < values.get q
  | some p, q => p < q ∧ values.get p < values.get q

/-- Of all positions that may follow the last pick, `p` has the most distinct greater values behind
it; of several such it has the smallest value, and of several with that value it is the first. -/
structure IsNext (values : List Int) (last : Option (Fin values.length))
    (p : Fin values.length) : Prop where
  mayFollow : MayFollow values last p
  best : ∀ q, MayFollow values last q → q ≠ p →
    greaterAfter values q < greaterAfter values p ∨
      greaterAfter values q = greaterAfter values p ∧ values.get p < values.get q ∨
      greaterAfter values q = greaterAfter values p ∧ values.get q = values.get p ∧ p < q

/-- Each position is the next one after those before it, and no further one may follow. -/
structure Greedy (values : List Int) (positions : List (Fin values.length)) : Prop where
  increasing : positions.Pairwise (· < ·)
  next : ∀ before p after, positions = before ++ p :: after → IsNext values before.getLast? p
  stop : ∀ q, ¬ MayFollow values positions.getLast? q

/-! ### The rule of the selection, position by position -/

theorem above_ofPosition (values : List Int) (q : Fin values.length) :
    (Candidate.ofPosition values q).above = greaterAfter values q := by
  have hafter : (values.drop (q + 1)).toFinset = (Finset.univ.filter (q < ·)).image values.get := by
    ext x
    simp [mem_drop_succ_iff]
  rw [Candidate.ofPosition, greaterAfter, distinctAbove_eq_card, hafter]

theorem precedes_iff : Precedes values p q ↔
    greaterAfter values q < greaterAfter values p ∨
      greaterAfter values q = greaterAfter values p ∧ values.get p < values.get q ∨
      greaterAfter values q = greaterAfter values p ∧ values.get q = values.get p ∧ p < q := by
  simp only [Precedes, above_ofPosition]
  omega

/-- Where the next pick is looked for. -/
def startAfter (last : Option (Fin values.length)) : Nat := last.elim 0 (· + 1)

/-- What the next pick has to exceed. -/
def thresholdAfter (last : Option (Fin values.length)) : Int := last.elim (-1) values.get

theorem mayFollow_iff :
    MayFollow values last q ↔ startAfter last ≤ q ∧ thresholdAfter last < values.get q := by
  cases last with
  | none => simp [MayFollow, startAfter, thresholdAfter]
  | some p => exact Iff.rfl

theorem picks_nil_iff :
    Picks values (startAfter last) (thresholdAfter last) [] ↔ ∀ q, ¬ MayFollow values last q := by
  simp only [mayFollow_iff, not_and, not_lt]
  constructor
  · intro h
    cases h with
    | none h => exact h
  · exact .none

theorem picks_cons_iff :
    Picks values (startAfter last) (thresholdAfter last) (p :: positions) ↔
      IsNext values last p ∧
        Picks values (startAfter (some p)) (thresholdAfter (some p)) positions := by
  constructor
  · intro h
    cases h with
    | pick p hstart habove hbest hs =>
      refine ⟨⟨mayFollow_iff.2 ⟨hstart, habove⟩, fun q hq hne => ?_⟩, hs⟩
      obtain ⟨hq, hlt⟩ := mayFollow_iff.1 hq
      exact precedes_iff.1 (hbest q hq hlt hne)
  · rintro ⟨hnext, hs⟩
    obtain ⟨hstart, habove⟩ := mayFollow_iff.1 hnext.mayFollow
    refine .pick p hstart habove (fun q hq hlt hne => ?_) hs
    exact precedes_iff.2 (hnext.best q (mayFollow_iff.2 ⟨hq, hlt⟩) hne)

/-- The rule, taken apart into single picks. -/
theorem picks_iff :
    Picks values (startAfter last) (thresholdAfter last) positions ↔
      (∀ before p after, positions = before ++ p :: after →
        IsNext values (before.getLast?.or last) p) ∧
      ∀ q, ¬ MayFollow values (positions.getLast?.or last) q := by
  -- the last pick moves along the positions, and is the given one only before the first of them
  induction positions generalizing last with
  | nil => simp [picks_nil_iff]
  | cons p positions ih =>
    have hlast : ∀ before : List (Fin values.length),
        (p :: before).getLast?.or last = before.getLast?.or (some p) := by
      intro before
      cases before <;> simp [List.getLast?_cons]
    rw [picks_cons_iff, ih, hlast]
    constructor
    · rintro ⟨hnext, hrest, hstop⟩
      refine ⟨fun before q after h => ?_, hstop⟩
      rcases List.cons_eq_append_iff.1 h with ⟨rfl, hq⟩ | ⟨before, rfl, hbehind⟩
      · obtain ⟨rfl, -⟩ := List.cons.inj hq
        exact hnext
      · rw [hlast]
        exact hrest before q after hbehind
    · rintro ⟨hsplit, hstop⟩
      refine ⟨hsplit [] p positions rfl, fun before q after h => ?_, hstop⟩
      rw [← hlast]
      exact hsplit (p :: before) q after (congrArg (p :: ·) h)

theorem greedy_iff : Greedy values positions ↔ Picks values 0 (-1) positions := by
  have hpicks : Picks values 0 (-1) positions ↔ _ := @picks_iff values none positions
  simp only [Option.or_none] at hpicks
  constructor
  · intro h
    exact hpicks.2 ⟨h.next, h.stop⟩
  · intro h
    obtain ⟨hnext, hstop⟩ := hpicks.1 h
    exact ⟨h.positions_increasing, hnext, hstop⟩

theorem Picks.unique {other : List (Fin values.length)} (h : Picks values start threshold positions)
    (h' : Picks values start threshold other) : positions = other := by
  induction h generalizing other with
  | none hnone =>
    cases h' with
    | none => rfl
    | pick p hstart habove => exact absurd habove (not_lt.2 (hnone p hstart))
  | pick p hstart habove hbest hs ih =>
    cases h' with
    | none hnone => exact absurd habove (not_lt.2 (hnone p hstart))
    | pick q hstart' habove' hbest' hs' =>
      by_cases hpq : q = p
      · subst hpq
        rw [ih hs']
      · -- both could be picked, so each of them would come before the other
        have hfirst := hbest q hstart' habove' hpq
        exact absurd (hbest' p hstart habove (Ne.symm hpq)) hfirst.asymm

theorem exists_picks_bestPeek (values : List Int) :
    ∃ positions, Picks values 0 (-1) positions ∧ bestPeek values = positions.map values.get :=
  exists_picks values 0 (-1)

end Peek

/-- The best peek is the list of the values at greedy positions, and no other list is. -/
theorem bestPeek_eq_iff_greedy (values result : List Int) :
    bestPeek values = result ↔
      ∃ positions : List (Fin values.length),
        Peek.Greedy values positions ∧ positions.map values.get = result := by
  obtain ⟨positions, hpicks, hbest⟩ := Peek.exists_picks_bestPeek values
  rw [hbest]
  constructor
  · rintro rfl
    exact ⟨positions, Peek.greedy_iff.2 hpicks, rfl⟩
  · rintro ⟨other, hother, rfl⟩
    rw [hpicks.unique (Peek.greedy_iff.1 hother)]

-- after `3`, there is one greater value behind `6` and one behind `5`, and the smaller is picked
example : bestPeek [3, 6, 5, -2, 5, 9] = [3, 5, 9] := by decide

/-! ### Sequences that are peeks -/

theorem bestPeek_increasing (values : List Int) : (bestPeek values).Pairwise (· < ·) := by
  obtain ⟨positions, hpicks, hbest⟩ := Peek.exists_picks_bestPeek values
  rw [hbest]
  exact hpicks.values_increasing

theorem nonneg_of_mem_bestPeek {values : List Int} {x : Int} (hx : x ∈ bestPeek values) :
    0 ≤ x := by
  obtain ⟨positions, hpicks, hbest⟩ := Peek.exists_picks_bestPeek values
  rw [hbest] at hx
  obtain ⟨p, hp, rfl⟩ := List.mem_map.1 hx
  have := (hpicks.of_mem hp).2
  omega

namespace Candidate

theorem exists_of_mem_ofValues {values : List Int} {c : Candidate} (hc : c ∈ ofValues values) :
    ∃ y ys, y :: ys <:+ values ∧ c = ⟨y, distinctAbove y ys⟩ := by
  induction values with
  | nil => cases hc
  | cons x xs ih =>
    rcases List.mem_cons.1 hc with rfl | hc
    · exact ⟨x, xs, List.suffix_refl _, rfl⟩
    · obtain ⟨y, ys, hsuffix, rfl⟩ := ih hc
      exact ⟨y, ys, hsuffix.trans (List.suffix_cons x xs), rfl⟩

/-- Ahead of greater values only, a value has more greater values behind it than any of them. -/
theorem beats_of_forall_lt {x : Int} {xs : List Int} (hx : ∀ y ∈ xs, x < y) {c : Candidate}
    (hc : c ∈ ofValues xs) : beats ⟨x, distinctAbove x xs⟩ c := by
  obtain ⟨y, ys, hsuffix, rfl⟩ := exists_of_mem_ofValues hc
  have hy : y ∈ xs := hsuffix.subset List.mem_cons_self
  have hys : ∀ z ∈ ys, z ∈ xs := fun z hz => hsuffix.subset (List.mem_cons_of_mem y hz)
  exact beats_iff.2 (.inl (distinctAbove_lt (hx y hy) hy hys))

/-- On an increasing sequence each value is picked in turn. -/
theorem pick_of_increasing {threshold : Int} {values : List Int} (h : values.Pairwise (· < ·))
    (habove : ∀ x ∈ values, threshold < x) : pick threshold (ofValues values) = values := by
  induction values generalizing threshold with
  | nil => rfl
  | cons x xs ih =>
    obtain ⟨hx, hxs⟩ := List.pairwise_cons.1 h
    have hpick : threshold < x ∧ ∀ c ∈ ofValues xs, threshold < c.value →
        beats ⟨x, distinctAbove x xs⟩ c :=
      ⟨habove x List.mem_cons_self, fun c hc _ => beats_of_forall_lt hx hc⟩
    rw [ofValues, pick_cons, if_pos hpick, ih hxs hx]

end Candidate

theorem bestPeek_eq_self_iff {values : List Int} :
    bestPeek values = values ↔ values.Pairwise (· < ·) ∧ ∀ x ∈ values, 0 ≤ x := by
  constructor
  · intro h
    rw [← h]
    exact ⟨bestPeek_increasing values, fun x => nonneg_of_mem_bestPeek⟩
  · rintro ⟨hincreasing, hnonneg⟩
    refine Candidate.pick_of_increasing hincreasing fun x hx => ?_
    have := hnonneg x hx
    omega

/-- A sequence is its own best peek exactly if it is strictly increasing and has no negative value.
Every peek is such a sequence, so selecting from a peek gives the peek again. -/
theorem bestPeek_is_projection :
    (∀ values, bestPeek values = values ↔
        values.Pairwise (· < ·) ∧ ∀ x ∈ values, 0 ≤ x) ∧
      ∀ values, bestPeek (bestPeek values) = bestPeek values := by
  refine ⟨fun values => bestPeek_eq_self_iff, fun values => bestPeek_eq_self_iff.2 ?_⟩
  exact ⟨bestPeek_increasing values, fun x => nonneg_of_mem_bestPeek⟩

end ChainCalc
