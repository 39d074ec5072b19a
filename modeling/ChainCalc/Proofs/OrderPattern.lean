import ChainCalc.Proofs.GreedyPeek
import Mathlib

/-!
# Only the order of values matters to a peek

A peek compares values with each other and with `-1`, and does nothing else with them. So it keeps
up with every renaming of the values that respects the order and the sign (`Candidate.pick_map`).

Negative values take no part at all: none is ever picked, and none counts as greater than a value
that may be picked. Hence a peek can be taken of the values from zero on alone
(`bestPeek_filter_nonneg`), and the order of these is all that it depends on
(`bestPeek_depends_on_order`).
-/

namespace ChainCalc

section

variable {bound x : Int} {g : Int → Int} {s : Set Int}

/-- What is not above a bound is not counted, if the bound is below what has to be exceeded. -/
theorem distinctAbove_filter (hx : bound ≤ x) (ys : List Int) :
    distinctAbove x (ys.filter (bound < ·)) = distinctAbove x ys := by
  rw [distinctAbove_eq_card, distinctAbove_eq_card]
  congr 1
  ext y
  simp only [Finset.mem_filter, List.mem_toFinset, List.mem_filter, decide_eq_true_eq, and_assoc]
  refine and_congr_right fun _ => ?_
  omega

theorem distinctAbove_map (hg : StrictMonoOn g s) (hx : x ∈ s) {ys : List Int}
    (hys : ∀ y ∈ ys, y ∈ s) : distinctAbove (g x) (ys.map g) = distinctAbove x ys := by
  have himage : (ys.map g).toFinset.filter (g x < ·) = (ys.toFinset.filter (x < ·)).image g := by
    ext z
    simp only [Finset.mem_filter, List.mem_toFinset, List.mem_map, Finset.mem_image]
    constructor
    · rintro ⟨⟨y, hy, rfl⟩, hlt⟩
      exact ⟨y, ⟨hy, (hg.lt_iff_lt hx (hys y hy)).1 hlt⟩, rfl⟩
    · rintro ⟨y, ⟨hy, hlt⟩, rfl⟩
      exact ⟨⟨y, hy, rfl⟩, hg hx (hys y hy) hlt⟩
  rw [distinctAbove_eq_card, distinctAbove_eq_card, himage]
  refine Finset.card_image_of_injOn (hg.injOn.mono ?_)
  intro y hy
  have hmem := Finset.mem_filter.1 hy
  exact hys y (List.mem_toFinset.1 hmem.1)

end

namespace Candidate

variable {bound threshold threshold' : Int} {g : Int → Int} {s : Set Int}

/-! ### Values that are left out -/

theorem ofValues_filter (bound : Int) (values : List Int) :
    ofValues (values.filter (bound < ·)) = (ofValues values).filter (bound < ·.value) := by
  induction values with
  | nil => rfl
  | cons x xs ih =>
    by_cases hx : bound < x
    · simp [ofValues, hx, ih, distinctAbove_filter hx.le]
    · simp [ofValues, hx, ih]

/-- Candidates below the threshold can be left out. The bound stays where it is while the threshold
grows. -/
theorem pick_filter (hbound : bound ≤ threshold) (cs : List Candidate) :
    pick threshold (cs.filter (bound < ·.value)) = pick threshold cs := by
  induction cs generalizing threshold with
  | nil => rfl
  | cons a cs ih =>
    by_cases ha : bound < a.value
    · have hbeats : (∀ b ∈ cs.filter (bound < ·.value), threshold < b.value → a.beats b) ↔
          ∀ b ∈ cs, threshold < b.value → a.beats b := by
        simp only [List.mem_filter, decide_eq_true_eq]
        constructor
        · intro h b hb hlt
          exact h b ⟨hb, by omega⟩ hlt
        · intro h b hb hlt
          exact h b hb.1 hlt
      rw [List.filter_cons_of_pos (by simpa using ha), pick_cons, pick_cons, ih hbound, ih ha.le]
      simp only [hbeats]
    · have hskip : ¬ threshold < a.value := by omega
      rw [List.filter_cons_of_neg (by simpa using ha), pick_cons, if_neg fun h => hskip h.1,
        ih hbound]

/-! ### Values that are renamed -/

/-- The candidate with another value in the same place. -/
def map (g : Int → Int) (c : Candidate) : Candidate := ⟨g c.value, c.above⟩

theorem value_mem_of_mem_ofValues {values : List Int} {c : Candidate} (hc : c ∈ ofValues values) :
    c.value ∈ values := by
  obtain ⟨y, ys, hsuffix, rfl⟩ := exists_of_mem_ofValues hc
  exact hsuffix.subset List.mem_cons_self

theorem ofValues_map (hg : StrictMonoOn g s) {values : List Int} (hvalues : ∀ x ∈ values, x ∈ s) :
    ofValues (values.map g) = (ofValues values).map (map g) := by
  induction values with
  | nil => rfl
  | cons x xs ih =>
    obtain ⟨hx, hxs⟩ := List.forall_mem_cons.1 hvalues
    simp only [List.map_cons, ofValues, ih hxs, distinctAbove_map hg hx hxs, map]

theorem beats_map (hg : StrictMonoOn g s) {a b : Candidate} (ha : a.value ∈ s)
    (hb : b.value ∈ s) : (a.map g).beats (b.map g) ↔ a.beats b := by
  simp only [beats_iff, map, hg.le_iff_le ha hb]

/-- The same candidates are picked, whatever their values are called. The two thresholds have to
separate them alike; after a pick they are a value and its new name. -/
theorem pick_map (hg : StrictMonoOn g s) {cs : List Candidate} (hcs : ∀ c ∈ cs, c.value ∈ s)
    (hthreshold : ∀ c ∈ cs, threshold' < g c.value ↔ threshold < c.value) :
    pick threshold' (cs.map (map g)) = (pick threshold cs).map g := by
  induction cs generalizing threshold threshold' with
  | nil => rfl
  | cons a cs ih =>
    obtain ⟨ha, hcs⟩ := List.forall_mem_cons.1 hcs
    obtain ⟨habove, hthreshold⟩ := List.forall_mem_cons.1 hthreshold
    have hbeats : (∀ b ∈ cs.map (map g), threshold' < b.value → (a.map g).beats b) ↔
        ∀ b ∈ cs, threshold < b.value → a.beats b := by
      rw [List.forall_mem_map]
      refine forall₂_congr fun b hb => ?_
      rw [beats_map hg ha (hcs b hb)]
      exact imp_congr_left (hthreshold b hb)
    have hnext : ∀ c ∈ cs, g a.value < g c.value ↔ a.value < c.value := by
      intro c hc
      exact hg.lt_iff_lt ha (hcs c hc)
    have hpick : (threshold' < (a.map g).value ∧
          ∀ b ∈ cs.map (map g), threshold' < b.value → (a.map g).beats b) ↔
        threshold < a.value ∧ ∀ b ∈ cs, threshold < b.value → a.beats b :=
      and_congr habove hbeats
    rw [List.map_cons, pick_cons, pick_cons, if_congr hpick rfl rfl, apply_ite (List.map g),
      List.map_cons, ← ih hcs hthreshold, ← ih hcs hnext]
    rfl

end Candidate

/-! ### The whole selection -/

section

variable {values other : List Int}

theorem bestPeek_filter_nonneg (values : List Int) :
    bestPeek (values.filter (0 ≤ ·)) = bestPeek values := by
  have hnonneg : values.filter (0 ≤ ·) = values.filter (-1 < ·) := by
    refine List.filter_congr fun x _ => ?_
    rw [decide_eq_decide]
    omega
  rw [hnonneg, bestPeek, Candidate.ofValues_filter, Candidate.pick_filter le_rfl]
  rfl

theorem bestPeek_eq_of_filter_nonneg (h : values.filter (0 ≤ ·) = other.filter (0 ≤ ·)) :
    bestPeek values = bestPeek other := by
  rw [← bestPeek_filter_nonneg values, h, bestPeek_filter_nonneg]

theorem bestPeek_map {g : Int → Int} (hg : StrictMonoOn g {x | x ∈ values ∧ 0 ≤ x})
    (hsign : ∀ x ∈ values, 0 ≤ g x ↔ 0 ≤ x) :
    bestPeek (values.map g) = (bestPeek values).map g := by
  have hfilter : (values.map g).filter (0 ≤ ·) = (values.filter (0 ≤ ·)).map g := by
    rw [List.filter_map]
    congr 1
    refine List.filter_congr fun x hx => ?_
    exact decide_eq_decide.2 (hsign x hx)
  have hmem : ∀ x ∈ values.filter (0 ≤ ·), x ∈ {x | x ∈ values ∧ 0 ≤ x} := by
    intro x hx
    simpa using hx
  rw [← bestPeek_filter_nonneg (values.map g), hfilter, ← bestPeek_filter_nonneg values, bestPeek,
    Candidate.ofValues_map hg hmem]
  refine Candidate.pick_map hg (fun c hc => hmem _ (Candidate.value_mem_of_mem_ofValues hc)) ?_
  intro c hc
  obtain ⟨hvalue, hpos⟩ := hmem _ (Candidate.value_mem_of_mem_ofValues hc)
  have hname := (hsign c.value hvalue).2 hpos
  omega

end

/-- A renaming of the values that keeps their signs, and the order of those that are not negative,
renames the best peek. What is left when some positions with negative values are deleted has the
same best peek. -/
theorem bestPeek_depends_on_order (values : List Int) :
    (∀ g : Int → Int, StrictMonoOn g {x | x ∈ values ∧ 0 ≤ x} →
        (∀ x ∈ values, 0 ≤ g x ↔ 0 ≤ x) →
        bestPeek (values.map g) = (bestPeek values).map g) ∧
      ∀ deleted : Finset (Fin values.length), (∀ p ∈ deleted, values.get p < 0) →
        bestPeek (((List.finRange values.length).filter (· ∉ deleted)).map values.get) =
          bestPeek values := by
  refine ⟨fun g hg hsign => bestPeek_map hg hsign, fun deleted hdeleted => ?_⟩
  refine bestPeek_eq_of_filter_nonneg ?_
  have hkept : (List.finRange values.length).filter (fun p => 0 ≤ values.get p && p ∉ deleted) =
      (List.finRange values.length).filter (0 ≤ values.get ·) := by
    refine List.filter_congr fun p _ => ?_
    by_cases hp : p ∈ deleted
    · have hneg : ¬ 0 ≤ values.get p := not_le.2 (hdeleted p hp)
      rw [decide_eq_false hneg, Bool.false_and]
    · simp [hp]
  calc
    (((List.finRange values.length).filter (· ∉ deleted)).map values.get).filter (0 ≤ ·)
    _ = ((List.finRange values.length).filter (0 ≤ values.get ·)).map values.get := by
      rw [List.filter_map, List.filter_filter]
      exact congrArg (List.map values.get) hkept
    _ = ((List.finRange values.length).map values.get).filter (0 ≤ ·) := by
      rw [List.filter_map]
      rfl
    _ = values.filter (0 ≤ ·) := by rw [List.map_get_finRange]

/-- After `4`, the values `6` and `5` are tied, and the smaller one is picked. So it is with other
names for the values, and when `-2` is deleted. -/
theorem tied_bestPeek_depends_on_order :
    bestPeek ([4, -2, 6, 5, 9].map (3 * · + 1)) = [4, 5, 9].map (3 * · + 1) ∧
      bestPeek [4, 6, 5, 9] = [4, 5, 9] := by
  obtain ⟨hmap, hdelete⟩ := bestPeek_depends_on_order [4, -2, 6, 5, 9]
  have hbest : bestPeek [4, -2, 6, 5, 9] = [4, 5, 9] := by decide
  have hkept : ((List.finRange 5).filter (· ∉ ({1} : Finset (Fin 5)))).map
      [4, -2, 6, 5, 9].get = [4, 6, 5, 9] := by decide
  rw [hbest] at hmap hdelete
  refine ⟨hmap (3 * · + 1) ?_ ?_, ?_⟩
  · intro x _ y _ hxy
    show 3 * x + 1 < 3 * y + 1
    omega
  · intro x _
    show 0 ≤ 3 * x + 1 ↔ 0 ≤ x
    omega
  · rw [← hkept]
    exact hdelete {1} (by decide)

end ChainCalc
