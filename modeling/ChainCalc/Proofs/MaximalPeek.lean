import ChainCalc.Proofs.PeekChoice
import Mathlib.Data.Finset.Card

/-!
# A peek cannot be extended

No value that a peek passes over fits between the picked ones. Suppose that a value is passed over
before a pick, and is above the threshold and at most the picked value. All that is greater than the
picked value and behind it is also greater than the passed one and behind that; and if the two
differ, so is the picked value itself (`distinctAbove_lt`). So the passed one came first in the
order of preference (`Peek.not_precedes_of_le`) and was to be picked.
-/

namespace ChainCalc

theorem distinctAbove_eq_card (x : Int) (ys : List Int) :
    distinctAbove x ys = (ys.toFinset.filter (x < ·)).card := by
  induction ys with
  | nil => rfl
  | cons y ys ih =>
    rw [distinctAbove, ih, List.toFinset_cons, Finset.filter_insert]
    by_cases hxy : x < y
    · by_cases hy : y ∈ ys
      · have hmem : y ∈ ys.toFinset.filter (x < ·) := by simp [hy, hxy]
        simp [hxy, hy, Finset.insert_eq_of_mem hmem]
      · have hmem : y ∉ ys.toFinset.filter (x < ·) := by simp [hy]
        simp [hxy, hy, Finset.card_insert_of_notMem hmem]
    · simp [hxy]

section

variable {x y : Int} {xs ys : List Int}

theorem distinctAbove_le (hxy : x ≤ y) (hsub : ∀ z ∈ ys, z ∈ xs) :
    distinctAbove y ys ≤ distinctAbove x xs := by
  rw [distinctAbove_eq_card, distinctAbove_eq_card]
  refine Finset.card_le_card fun z hz => ?_
  simp only [Finset.mem_filter, List.mem_toFinset] at hz ⊢
  exact ⟨hsub z hz.1, hxy.trans_lt hz.2⟩

/-- The greater value counts for the smaller one, and not for itself. -/
theorem distinctAbove_lt (hxy : x < y) (hy : y ∈ xs) (hsub : ∀ z ∈ ys, z ∈ xs) :
    distinctAbove y ys < distinctAbove x xs := by
  rw [distinctAbove_eq_card, distinctAbove_eq_card]
  refine Finset.card_lt_card ⟨fun z hz => ?_, fun h => ?_⟩
  · simp only [Finset.mem_filter, List.mem_toFinset] at hz ⊢
    exact ⟨hsub z hz.1, hxy.trans hz.2⟩
  · have hself := h (Finset.mem_filter.2 ⟨List.mem_toFinset.2 hy, hxy⟩)
    exact absurd (Finset.mem_filter.1 hself).2 (lt_irrefl y)

end

namespace Peek

variable {values : List Int} {start : Nat} {threshold : Int} {p q : Fin values.length}
  {positions : List (Fin values.length)}

/-- An earlier value that is not greater is preferred. -/
theorem not_precedes_of_le (hqp : q < p) (hle : values.get q ≤ values.get p) :
    ¬ Precedes values p q := by
  have hsub : ∀ z ∈ values.drop (p + 1), z ∈ values.drop (q + 1) := by
    intro z hz
    exact (List.drop_sublist_drop_left values (by omega)).subset hz
  have hmem : values.get p ∈ values.drop (q + 1) := mem_drop_succ_iff.2 ⟨p, hqp, rfl⟩
  rcases hle.lt_or_eq with hlt | heq
  · have := distinctAbove_lt hlt hmem hsub
    simp only [Precedes, Candidate.ofPosition]
    omega
  · have := distinctAbove_le hle hsub
    simp only [Precedes, Candidate.ofPosition]
    omega

namespace Picks

theorem of_mem (h : Picks values start threshold positions) (hp : p ∈ positions) :
    start ≤ p ∧ threshold < values.get p := by
  induction h with
  | none => cases hp
  | pick q hstart habove hbest hs ih =>
    rcases List.mem_cons.1 hp with rfl | hp
    · exact ⟨hstart, habove⟩
    · have := ih hp
      omega

theorem positions_increasing (h : Picks values start threshold positions) :
    positions.Pairwise (· < ·) := by
  induction h with
  | none => exact .nil
  | pick q hstart habove hbest hs ih =>
    exact .cons (fun i hi => (hs.of_mem hi).1) ih

theorem values_increasing (h : Picks values start threshold positions) :
    (positions.map values.get).Pairwise (· < ·) := by
  rw [List.pairwise_map]
  induction h with
  | none => exact .nil
  | pick q hstart habove hbest hs ih =>
    exact .cons (fun i hi => (hs.of_mem hi).2) ih

/-- Nothing that is passed over before the first pick fits below it. -/
theorem before_first (h : Picks values start threshold positions) :
    ∀ p ∈ positions.head?, ∀ i, start ≤ i.val → i < p →
      ¬ (threshold < values.get i ∧ values.get i ≤ values.get p) := by
  cases h with
  | none => simp
  | pick q hstart habove hbest hs =>
    rintro p ⟨⟩ i hi hip ⟨hlt, hle⟩
    exact not_precedes_of_le hip hle (hbest i hi hlt (Fin.ne_of_lt hip))

theorem between (h : Picks values start threshold positions) :
    positions.IsChain fun p q =>
      ∀ i, p < i → i < q → ¬ (values.get p < values.get i ∧ values.get i ≤ values.get q) := by
  induction h with
  | none => exact .nil
  | pick q hstart habove hbest hs ih =>
    have hnext := hs.before_first
    cases hs with
    | none => exact .singleton q
    | pick r => exact List.isChain_cons_cons.2 ⟨hnext r rfl, ih⟩

theorem after_last (h : Picks values start threshold positions) :
    ∀ p ∈ positions.getLast?, ∀ i, p < i → ¬ values.get p < values.get i := by
  induction h with
  | none => simp
  | pick q hstart habove hbest hs ih =>
    cases hs with
    | none hnone =>
      rintro p ⟨⟩ i hi
      exact not_lt.2 (hnone i hi)
    | pick r => rwa [List.getLast?_cons_cons]

end Picks

/-- The values at the positions are a strictly increasing selection of values that are not negative,
and no value that is passed over could be put in. -/
structure Maximal (values : List Int) (positions : List (Fin values.length)) : Prop where
  positions_increasing : positions.Pairwise (· < ·)
  values_increasing : (positions.map values.get).Pairwise (· < ·)
  nonneg : ∀ p ∈ positions, 0 ≤ values.get p
  before_first : ∀ p ∈ positions.head?, ∀ i < p, ¬ (0 ≤ values.get i ∧ values.get i ≤ values.get p)
  between : positions.IsChain fun p q =>
    ∀ i, p < i → i < q → ¬ (values.get p < values.get i ∧ values.get i ≤ values.get q)
  after_last : ∀ p ∈ positions.getLast?, ∀ i, p < i → ¬ values.get p < values.get i
  all_negative : positions = [] → ∀ x ∈ values, x < 0

end Peek

/-- The best peek of a sequence is a selection that cannot be extended. -/
theorem bestPeek_maximal (values : List Int) :
    ∃ positions, bestPeek values = positions.map values.get ∧ Peek.Maximal values positions := by
  obtain ⟨positions, hpicks, hmap⟩ := Peek.exists_picks values 0 (-1)
  have hnonneg : ∀ x : Int, -1 < x ↔ 0 ≤ x := by omega
  refine ⟨positions, hmap, ?_⟩
  constructor
  case positions_increasing => exact hpicks.positions_increasing
  case values_increasing => exact hpicks.values_increasing
  case nonneg => exact fun p hp => (hnonneg _).1 (hpicks.of_mem hp).2
  case before_first =>
    intro p hp i hi
    rw [← hnonneg]
    exact hpicks.before_first p hp i (Nat.zero_le _) hi
  case between => exact hpicks.between
  case after_last => exact hpicks.after_last
  case all_negative =>
    rintro rfl x hx
    obtain ⟨i, rfl⟩ := List.mem_iff_get.1 hx
    cases hpicks with
    | none h =>
      have := h i (Nat.zero_le _)
      omega

end ChainCalc
