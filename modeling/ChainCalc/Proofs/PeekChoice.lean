import ChainCalc.Peek

/-!
# Which positions a peek picks

`Peek.Picks values start threshold positions` is the rule of the selection, said without a way to
carry it out: of the positions from `start` on with a value above `threshold`, the first of
`positions` comes before all others in the order `Peek.Precedes`, and the rest are picked after it
and above its value. There is nothing above the threshold when no positions are left.

The selection looks at each candidate once and picks it if no later one is better. A candidate that
it passes over is worse than a later one, and so than the one picked in the end
(`Candidate.pick_cases`). Hence it follows the rule (`exists_picks`).
-/

namespace ChainCalc

namespace Candidate

variable {a b c : Candidate} {threshold : Int}

theorem beats_iff :
    a.beats b ↔ b.above < a.above ∨ b.above = a.above ∧ a.value ≤ b.value := by
  simp [beats]

theorem beats_trans (hab : a.beats b) (hbc : b.beats c) : a.beats c := by
  rw [beats_iff] at *
  omega

theorem beats_of_not_beats (h : ¬ a.beats b) : b.beats a := by
  rw [beats_iff] at *
  omega

/-- Whether a candidate is picked at once. -/
theorem pick_cons (threshold : Int) (a : Candidate) (cs : List Candidate) :
    pick threshold (a :: cs) =
      if threshold < a.value ∧ ∀ b ∈ cs, threshold < b.value → a.beats b then
        a.value :: pick a.value cs
      else pick threshold cs := by
  have hall : (cs.all fun b => b.value ≤ threshold || a.beats b) ↔
      ∀ b ∈ cs, threshold < b.value → a.beats b := by
    simp only [List.all_eq_true, Bool.or_eq_true, decide_eq_true_eq, ← Int.not_lt,
      Decidable.imp_iff_not_or]
  rw [pick]
  simp only [Bool.and_eq_true, decide_eq_true_eq, hall]

/-- Either nothing is above the threshold, or the candidate is picked that beats all others, and of
these the first one. -/
theorem pick_cases (threshold : Int) (cs : List Candidate) :
    (pick threshold cs = [] ∧ ∀ c ∈ cs, c.value ≤ threshold) ∨
      ∃ (p : Nat) (c : Candidate), cs[p]? = some c ∧ threshold < c.value ∧
        pick threshold cs = c.value :: pick c.value (cs.drop (p + 1)) ∧
        ∀ (i : Nat) b, cs[i]? = some b → threshold < b.value →
          (i < p → ¬ b.beats c) ∧ (p < i → c.beats b) := by
  induction cs with
  | nil => exact .inl ⟨rfl, by simp⟩
  | cons a cs ih =>
    rw [pick_cons]
    split
    · rename_i hpick
      obtain ⟨habove, hbeats⟩ := hpick
      refine .inr ⟨0, a, rfl, habove, rfl, fun i b hb hlt => ⟨by omega, fun hi => ?_⟩⟩
      rw [List.getElem?_cons, if_neg (by omega)] at hb
      exact hbeats b (List.mem_of_getElem? hb) hlt
    · rename_i hskip
      rcases ih with ⟨hnil, hnone⟩ | ⟨p, c, hc, habove, hpick, hbest⟩
      · refine .inl ⟨hnil, List.forall_mem_cons.2 ⟨?_, hnone⟩⟩
        refine Int.not_lt.1 fun ha => hskip ⟨ha, fun b hb hlt => ?_⟩
        exact absurd hlt (Int.not_lt.2 (hnone b hb))
      · refine .inr ⟨p + 1, c, hc, habove, hpick, fun i b hb hlt => ?_⟩
        cases i with
        | succ i =>
          have := hbest i b hb hlt
          exact ⟨fun hi => this.1 (by omega), fun hi => this.2 (by omega)⟩
        | zero =>
          obtain rfl : a = b := Option.some.inj hb
          refine ⟨fun _ hac => hskip ⟨hlt, fun b hb hlt => ?_⟩, fun hi => by omega⟩
          -- if `a` beat `c` it would beat all that `c` beats, and so be picked itself
          obtain ⟨j, hj⟩ := List.getElem?_of_mem hb
          obtain ⟨hearlier, hlater⟩ := hbest j b hj hlt
          rcases Nat.lt_trichotomy j p with hjp | rfl | hjp
          · exact beats_trans hac (beats_of_not_beats (hearlier hjp))
          · obtain rfl : c = b := Option.some.inj (hc.symm.trans hj)
            exact hac
          · exact beats_trans hac (hlater hjp)

/-- The candidate at a position. -/
def ofPosition (values : List Int) (p : Fin values.length) : Candidate :=
  ⟨values.get p, distinctAbove (values.get p) (values.drop (p + 1))⟩

@[simp]
theorem value_ofPosition (values : List Int) (p : Fin values.length) :
    (ofPosition values p).value = values.get p := rfl

theorem getElem?_ofValues (values : List Int) (p : Fin values.length) :
    (ofValues values)[p.val]? = some (ofPosition values p) := by
  induction values with
  | nil => exact p.elim0
  | cons x xs ih =>
    cases p using Fin.cases with
    | zero => rfl
    | succ p => exact ih p

theorem length_ofValues (values : List Int) : (ofValues values).length = values.length := by
  induction values with
  | nil => rfl
  | cons x xs ih => exact congrArg (· + 1) ih

end Candidate

namespace Peek

variable {values : List Int}

open Candidate (ofPosition)

theorem mem_drop_succ_iff {q : Fin values.length} {x : Int} :
    x ∈ values.drop (q + 1) ↔ ∃ i, q < i ∧ values.get i = x := by
  rw [List.mem_iff_getElem?]
  simp only [List.getElem?_drop]
  constructor
  · rintro ⟨k, hk⟩
    obtain ⟨hlt, hx⟩ := List.getElem?_eq_some_iff.1 hk
    have hlater : q.val < q + 1 + k := by omega
    exact ⟨⟨q + 1 + k, hlt⟩, hlater, hx⟩
  · rintro ⟨i, hi, rfl⟩
    refine ⟨i - (q + 1), ?_⟩
    rw [Nat.add_sub_cancel' hi]
    exact List.getElem?_eq_getElem i.isLt

/-- The order in which positions are preferred: more distinct greater values behind, then the
smaller value, then the earlier position. -/
def Precedes (values : List Int) (p q : Fin values.length) : Prop :=
  (ofPosition values q).above < (ofPosition values p).above ∨
    (ofPosition values q).above = (ofPosition values p).above ∧
      (values.get p < values.get q ∨ values.get p = values.get q ∧ p < q)

theorem Precedes.asymm {p q : Fin values.length} (h : Precedes values p q) :
    ¬ Precedes values q p := by
  simp only [Precedes] at h ⊢
  omega

theorem precedes_of_beats {p q : Fin values.length} (hpq : p < q)
    (h : (ofPosition values p).beats (ofPosition values q)) : Precedes values p q := by
  simp only [Candidate.beats_iff, Candidate.value_ofPosition] at h
  simp only [Precedes, hpq, and_true]
  omega

theorem precedes_of_not_beats {p q : Fin values.length}
    (h : ¬ (ofPosition values q).beats (ofPosition values p)) : Precedes values p q := by
  simp only [Candidate.beats_iff, Candidate.value_ofPosition] at h
  simp only [Precedes]
  omega

/-- The rule of the selection, from a position on and above a threshold. -/
inductive Picks (values : List Int) : Nat → Int → List (Fin values.length) → Prop
  | none {start : Nat} {threshold : Int}
      (h : ∀ i : Fin values.length, start ≤ i → values.get i ≤ threshold) :
      Picks values start threshold []
  | pick {start : Nat} {threshold : Int} (p : Fin values.length)
      {positions : List (Fin values.length)}
      (hstart : start ≤ p) (habove : threshold < values.get p)
      (hbest : ∀ i : Fin values.length, start ≤ i → threshold < values.get i → i ≠ p →
        Precedes values p i)
      (hs : Picks values (p + 1) (values.get p) positions) :
      Picks values start threshold (p :: positions)

/-- One pick from a position on. -/
theorem pick_drop_cases (values : List Int) (start : Nat) (threshold : Int) :
    (Candidate.pick threshold ((Candidate.ofValues values).drop start) = [] ∧
        ∀ i : Fin values.length, start ≤ i → values.get i ≤ threshold) ∨
      ∃ p : Fin values.length, start ≤ p ∧ threshold < values.get p ∧
        Candidate.pick threshold ((Candidate.ofValues values).drop start) =
          values.get p ::
            Candidate.pick (values.get p) ((Candidate.ofValues values).drop (p + 1)) ∧
        ∀ i : Fin values.length, start ≤ i → threshold < values.get i → i ≠ p →
          Precedes values p i := by
  have hdrop : ∀ i : Fin values.length, start ≤ i →
      ((Candidate.ofValues values).drop start)[i - start]? = some (ofPosition values i) := by
    intro i hi
    rw [List.getElem?_drop, Nat.add_sub_cancel' hi, Candidate.getElem?_ofValues]
  rcases Candidate.pick_cases threshold ((Candidate.ofValues values).drop start) with
    ⟨hnil, hnone⟩ | ⟨k, c, hc, habove, hpick, hbest⟩
  · exact .inl ⟨hnil, fun i hi => hnone _ (List.mem_of_getElem? (hdrop i hi))⟩
  · have hlt : start + k < values.length := by
      rw [List.getElem?_drop] at hc
      obtain ⟨hlt, -⟩ := List.getElem?_eq_some_iff.1 hc
      rwa [Candidate.length_ofValues] at hlt
    obtain ⟨p, hp⟩ : ∃ p : Fin values.length, p.val = start + k := ⟨⟨_, hlt⟩, rfl⟩
    have hk : k = p - start := by omega
    obtain rfl : c = ofPosition values p := by
      rw [hk, hdrop p (by omega)] at hc
      exact (Option.some.inj hc).symm
    refine .inr ⟨p, by omega, habove, ?_, fun i hi hlt hne => ?_⟩
    · rw [hpick, List.drop_drop]
      have hnext : start + (k + 1) = p + 1 := by omega
      rw [hnext]
      rfl
    · obtain ⟨hearlier, hlater⟩ := hbest (i - start) _ (hdrop i hi) hlt
      rcases Nat.lt_or_gt_of_ne (Fin.val_ne_of_ne hne) with hip | hip
      · exact precedes_of_not_beats (hearlier (by omega))
      · exact precedes_of_beats hip (hlater (by omega))

/-- The selection follows the rule. The induction is on the number of values that are left. -/
theorem exists_picks (values : List Int) (start : Nat) (threshold : Int) :
    ∃ positions, Picks values start threshold positions ∧
      Candidate.pick threshold ((Candidate.ofValues values).drop start) =
        positions.map values.get := by
  rcases pick_drop_cases values start threshold with ⟨hnil, hnone⟩ | ⟨p, hp, habove, hpick, hbest⟩
  · exact ⟨[], .none hnone, hnil⟩
  · obtain ⟨positions, hpicks, hmap⟩ := exists_picks values (p + 1) (values.get p)
    refine ⟨p :: positions, .pick p hp habove hbest hpicks, ?_⟩
    rw [hpick, hmap, List.map_cons]
termination_by values.length - start

end Peek

end ChainCalc
