import FrontEnd.Number.Shortest
import Mathlib.Algebra.Order.Field.Rat
import Mathlib.Algebra.Order.Field.Basic
import Mathlib.Order.Monotone.Basic
import Mathlib.Tactic.FieldSimp
import Mathlib.Tactic.Linarith
import Mathlib.Tactic.LinearCombination
import Mathlib.Tactic.NormNum
import Mathlib.Tactic.Positivity
import Mathlib.Tactic.Ring

/-!
The basins of the finite numbers cover the line without overlap: where one ends the next begins,
and the point between them belongs to the one with the even significand. So a decimal lies in one
basin at most. Seventeen digits always lead into the basin, so the shortest decimal of a number
lies in it.
-/

set_option autoImplicit false

namespace FrontEnd.Number

/-- The number that a decimal writes. -/
def Decimal.value (d : Decimal) : ℚ := d.digits * (10 : ℚ) ^ d.exponent

namespace Binary64

theorem power_pos {base : Nat} (h : 0 < base) (exponent : Int) : 0 < power base exponent :=
  Nat.pow_pos h

theorem power_natCast (base k : Nat) : power base k = base ^ k := rfl

/-- Powers with exponents of either sign, moved up by `k`. -/
theorem power_mul (base : Nat) {exponent : Int} {k : Nat} (h : 0 ≤ exponent + k) :
    power base exponent * base ^ k = power base (-exponent) * base ^ (exponent + k).toNat := by
  change base ^ exponent.toNat * base ^ k = base ^ (-exponent).toNat * base ^ (exponent + k).toNat
  rw [← Nat.pow_add, ← Nat.pow_add]
  congr 1
  omega

theorem power_mul_add (base : Nat) {exponent : Int} {j k n : Nat} (h : exponent + j + k = n) :
    power base exponent * (base ^ j * base ^ k) = power base (-exponent) * base ^ n := by
  have hn : (exponent + ((j + k : Nat) : Int)).toNat = n := by omega
  rw [← Nat.pow_add, power_mul base (by omega), hn]

theorem power_two_le {exponent : Int} (k : Nat) (h : exponent ≤ 3 * k) :
    power 2 exponent ≤ 10 ^ k :=
  calc
    power 2 exponent ≤ 2 ^ (3 * k) := Nat.pow_le_pow_right (by decide) (by omega)
    _ = (2 ^ 3) ^ k := Nat.pow_mul ..
    _ ≤ 10 ^ k := Nat.pow_le_pow_left (by decide) k

theorem ten_pow_pos (k : Nat) : 0 < 10 ^ k := Nat.pow_pos (by decide)

theorem zpow_eq (exponent : Int) :
    (10 : ℚ) ^ exponent = power 10 exponent / power 10 (-exponent) := by
  have hp : (power 10 (-exponent) : ℚ) ≠ 0 :=
    Nat.cast_ne_zero.2 (Nat.pos_iff_ne_zero.1 (power_pos (by decide) _))
  rw [eq_div_iff hp]
  change (10 : ℚ) ^ exponent * ((10 ^ (-exponent).toNat : Nat) : ℚ)
    = ((10 ^ exponent.toNat : Nat) : ℚ)
  rw [Nat.cast_pow, Nat.cast_pow, ← zpow_natCast, ← zpow_natCast, Nat.cast_ofNat,
    ← zpow_add₀ (by norm_num)]
  congr 1
  omega

/-! ### Ends of basins -/

/-- The significand of the finite number with the given magnitude. -/
def significand (n : Nat) : Nat :=
  if n / exponentUnit = 0 then n % exponentUnit else exponentUnit + n % exponentUnit

/-- The power of two that scales the significand, from the least one on. -/
def scale (n : Nat) : Nat := n / exponentUnit - 1

/-- The lower end of a basin, in quarters of the least unit. -/
def lowEnd (n : Nat) : Nat :=
  (4 * significand n - if significand n = exponentUnit ∧ 0 < scale n then 1 else 2) * 2 ^ scale n

def highEnd (n : Nat) : Nat := (4 * significand n + 2) * 2 ^ scale n

theorem parts_eq (x : Binary64) :
    x.parts = (significand x.magnitude, (scale x.magnitude : Int) - 1074) := by
  unfold parts significand scale
  dsimp only
  generalize x.magnitude / exponentUnit = e
  split
  · rename_i h
    simp [h]
  · rename_i h
    simp only [Prod.mk.injEq, true_and]
    omega

/-- The next magnitude has the next significand, or a power of two on the next scale. -/
theorem succ_cases (n : Nat) :
    (significand (n + 1) = significand n + 1 ∧ scale (n + 1) = scale n ∧
        ¬ (significand (n + 1) = exponentUnit ∧ 0 < scale (n + 1))) ∨
      (significand n = 2 * exponentUnit - 1 ∧ significand (n + 1) = exponentUnit ∧
        scale (n + 1) = scale n + 1) := by
  unfold significand scale exponentUnit
  split <;> split <;> omega

theorem highEnd_eq (n : Nat) : highEnd n = lowEnd (n + 1) := by
  unfold highEnd lowEnd
  rcases succ_cases n with ⟨hs, hk, hp⟩ | ⟨hs, hs', hk⟩
  · rw [if_neg hp, hs, hk]
    congr 1
  · rw [hs, hs', hk, Nat.pow_succ, if_pos ⟨rfl, Nat.succ_pos _⟩]
    simp only [exponentUnit]
    omega

theorem lowEnd_lt (n : Nat) : lowEnd n < highEnd n := by
  unfold lowEnd highEnd
  refine Nat.mul_lt_mul_of_pos_right ?_ (Nat.two_pow_pos _)
  split <;> omega

theorem strictMono_lowEnd : StrictMono lowEnd :=
  strictMono_nat_of_lt_succ fun n => highEnd_eq n ▸ lowEnd_lt n

/-- Neighbours do not both have even significands. -/
theorem significand_parity (n : Nat) (h : significand n % 2 = 0) : significand (n + 1) % 2 ≠ 0 := by
  rcases succ_cases n with ⟨hs, -⟩ | ⟨hs, -⟩
  · omega
  · simp only [exponentUnit] at hs
    omega

/-! ### Basins on the line -/

/-- A point of the line, in quarters of the least unit, is in the basin of a magnitude. -/
def Within (n : Nat) (r : ℚ) : Prop :=
  if significand n % 2 = 0 then lowEnd n ≤ r ∧ r ≤ highEnd n else lowEnd n < r ∧ r < highEnd n

theorem Within.ends {n : Nat} {r : ℚ} (h : Within n r) : lowEnd n ≤ r ∧ r ≤ highEnd n := by
  unfold Within at h
  split at h
  · exact h
  · exact ⟨h.1.le, h.2.le⟩

/-- A point at an end of a basin is in it only if the significand is even. -/
theorem Within.even {n : Nat} {r : ℚ} (h : Within n r) (he : r = lowEnd n ∨ r = highEnd n) :
    significand n % 2 = 0 := by
  by_contra hn
  rw [Within, if_neg hn] at h
  rcases he with rfl | rfl
  · exact lt_irrefl _ h.1
  · exact lt_irrefl _ h.2

theorem not_within_of_lt {n n' : Nat} {r : ℚ} (hlt : n < n') (h : Within n r) :
    ¬ Within n' r := by
  intro h'
  have hstep : lowEnd (n + 1) ≤ lowEnd n' := strictMono_lowEnd.monotone hlt
  have hhigh : r ≤ lowEnd (n + 1) := by
    rw [← highEnd_eq]
    exact h.ends.2
  have hcast : (lowEnd (n + 1) : ℚ) ≤ lowEnd n' := Nat.cast_le.2 hstep
  have hr : r = lowEnd (n + 1) := le_antisymm hhigh (hcast.trans h'.ends.1)
  have hr' : r = lowEnd n' := le_antisymm (hhigh.trans hcast) h'.ends.1
  have hn : n + 1 = n' := strictMono_lowEnd.injective (Nat.cast_injective (hr.symm.trans hr'))
  have he := h.even (.inr (by rw [hr, highEnd_eq]))
  have he' := h'.even (.inl hr')
  rw [← hn] at he'
  exact significand_parity n he he'

/-- No point is in two basins. -/
theorem Within.unique {n n' : Nat} {r : ℚ} (h : Within n r) (h' : Within n' r) : n = n' := by
  rcases Nat.lt_trichotomy n n' with hlt | heq | hlt
  · exact absurd h' (not_within_of_lt hlt h)
  · exact heq
  · exact absurd h (not_within_of_lt hlt h')

/-! ### Decimals in a basin -/

theorem basin_eq (x : Binary64) : x.basin =
    { low := 4 * significand x.magnitude -
        if significand x.magnitude = exponentUnit ∧ 0 < scale x.magnitude then 1 else 2
      value := 4 * significand x.magnitude
      high := 4 * significand x.magnitude + 2
      closed := significand x.magnitude % 2 = 0
      unit := (scale x.magnitude : Int) - 1076 } := by
  unfold basin
  rw [parts_eq]
  have hk : (-1074 < (scale x.magnitude : Int) - 1074) ↔ 0 < scale x.magnitude := by omega
  simp only [hk, Bool.and_eq_true, decide_eq_true_eq, Basin.mk.injEq, true_and]
  omega

/-- The quarters of the least unit in a whole. -/
@[irreducible] def quarters : Nat := 2 ^ 1076

theorem quarters_pos : 0 < quarters := by
  unfold quarters
  positivity

theorem power_mul_quarters {unit : Int} {k : Nat} (h : unit = (k : Int) - 1076) :
    power 2 unit * quarters = power 2 (-unit) * 2 ^ k := by
  have hk : (unit + (1076 : Nat)).toNat = k := by omega
  rw [← hk]
  unfold quarters
  exact power_mul 2 (by omega)

/-- The decimal grid has the line on another scale. -/
theorem exists_scale {b : Basin} {k : Nat} (hb : b.unit = (k : Int) - 1076) (d : Decimal) :
    ∃ c : ℚ, 0 < c ∧ (∀ a, (b.scaled d.exponent a : ℚ) = ((a * 2 ^ k : Nat) : ℚ) * c) ∧
      ((d.digits * b.step d.exponent : Nat) : ℚ) = quarters * d.value * c := by
  have hten : (0 : ℚ) < power 10 (-d.exponent) := Nat.cast_pos.2 (power_pos (by decide) _)
  have htwo : (0 : ℚ) < power 2 (-b.unit) := Nat.cast_pos.2 (power_pos (by decide) _)
  have hone : (0 : ℚ) < quarters := Nat.cast_pos.2 quarters_pos
  have hmul : (power 2 b.unit : ℚ) * quarters = power 2 (-b.unit) * 2 ^ k := by
    exact_mod_cast power_mul_quarters hb
  refine ⟨power 2 (-b.unit) * power 10 (-d.exponent) / quarters, by positivity, ?_, ?_⟩
  · intro a
    rw [Basin.scaled, mul_div_assoc', eq_div_iff (by positivity)]
    push_cast
    linear_combination (a : ℚ) * power 10 (-d.exponent) * hmul
  · rw [Basin.step, Decimal.value, zpow_eq, mul_div_assoc', eq_div_iff (by positivity)]
    push_cast
    field_simp

/-- A decimal is in the basin of a number exactly if it is within its ends. -/
theorem contains_iff (x : Binary64) (d : Decimal) :
    x.basin.contains d ↔ Within x.magnitude (quarters * d.value) := by
  have hb := basin_eq x
  obtain ⟨c, hc, hs, hp⟩ := exists_scale (b := x.basin) (k := scale x.magnitude) (by rw [hb]) d
  have hlow : (x.basin.scaled d.exponent x.basin.low : ℚ) = lowEnd x.magnitude * c := by
    rw [hs, hb, lowEnd]
  have hhigh : (x.basin.scaled d.exponent x.basin.high : ℚ) = highEnd x.magnitude * c := by
    rw [hs, hb, highEnd]
  have hclosed : x.basin.closed = decide (significand x.magnitude % 2 = 0) := by rw [hb]
  unfold Basin.contains Within
  rw [hclosed]
  by_cases he : significand x.magnitude % 2 = 0
  · simp only [he, decide_true, if_true, Bool.and_eq_true, decide_eq_true_eq]
    rw [← Nat.cast_le (α := ℚ), ← Nat.cast_le (α := ℚ), hlow, hhigh, hp,
      mul_le_mul_iff_of_pos_right hc, mul_le_mul_iff_of_pos_right hc]
  · simp only [he, decide_false, Bool.false_eq_true, if_false, Bool.and_eq_true, decide_eq_true_eq]
    rw [← Nat.cast_lt (α := ℚ), ← Nat.cast_lt (α := ℚ), hlow, hhigh, hp,
      mul_lt_mul_iff_of_pos_right hc, mul_lt_mul_iff_of_pos_right hc]

/-! ### Seventeen digits -/

section

variable {b : Basin}

theorem contains_of_lt {d : Decimal}
    (hl : b.scaled d.exponent b.low < d.digits * b.step d.exponent)
    (hh : d.digits * b.step d.exponent < b.scaled d.exponent b.high) : b.contains d := by
  unfold Basin.contains
  dsimp only
  split
  · simp only [Bool.and_eq_true, decide_eq_true_eq]
    omega
  · simp only [Bool.and_eq_true, decide_eq_true_eq]
    omega

/-- The leading digit of a number stands before the place of its point. -/
theorem pow_le_of_pointPlace (hv : 0 < b.value) (hu : -1076 ≤ b.unit) :
    ∃ n : Nat, b.pointPlace = (n : Int) - 399 ∧
      10 ^ n * power 2 (-b.unit) ≤ b.value * power 2 b.unit * 10 ^ 400 := by
  have hscaled : b.scaled (-400) b.value = b.value * power 2 b.unit * 10 ^ 400 := by
    rw [Basin.scaled, Int.neg_neg]
    exact congrArg _ (power_natCast 10 400)
  have hstep : b.step (-400) = power 2 (-b.unit) := Nat.mul_one _
  unfold Basin.pointPlace
  dsimp only
  rw [hscaled, hstep]
  have hsmall : power 2 (-b.unit) ≤ b.value * power 2 b.unit * 10 ^ 400 := by
    have htwo : power 2 (-b.unit) ≤ 10 ^ 400 := power_two_le 400 (by omega)
    have hpos : 0 < b.value * power 2 b.unit := Nat.mul_pos hv (power_pos (by decide) _)
    exact htwo.trans (Nat.le_mul_of_pos_left _ hpos)
  generalize b.value * power 2 b.unit * 10 ^ 400 = v at *
  have hfixed : 0 < v / power 2 (-b.unit) := Nat.div_pos hsmall (power_pos (by decide) _)
  have hlen := Nat.length_toDigits_pos (b := 10) (n := v / power 2 (-b.unit))
  refine ⟨(Nat.toDigits 10 (v / power 2 (-b.unit))).length - 1, by omega, ?_⟩
  have hpow : 10 ^ ((Nat.toDigits 10 (v / power 2 (-b.unit))).length - 1) ≤
      v / power 2 (-b.unit) := by
    by_contra hlt
    by_cases hone : (Nat.toDigits 10 (v / power 2 (-b.unit))).length = 1
    · rw [hone] at hlt
      omega
    · have hle := (Nat.length_toDigits_le_iff (by decide) (by omega)).2 (Nat.not_le.1 hlt)
      omega
  exact (Nat.mul_le_mul_right _ hpow).trans (Nat.div_mul_le_self _ _)

/-- A step of the grid with seventeen digits is shorter than a basin. -/
theorem step_lt {below : Nat} (hv : 0 < b.value) (hu : -1076 ≤ b.unit)
    (hs : b.value < (below + 2) * 10 ^ 16) : b.step (b.pointPlace - 17) <
      (below + 2) * (power 2 b.unit * power 10 (-(b.pointPlace - 17))) := by
  obtain ⟨n, hn, hle⟩ := pow_le_of_pointPlace hv hu
  have he : b.pointPlace - 17 + (16 : Nat) + (400 : Nat) = n := by omega
  have hmul := power_mul_add 10 he
  have hlarge := ten_pow_pos 400
  have hfine := power_pos (by decide : 0 < 2) b.unit
  have hdown := power_pos (by decide : 0 < 10) (-(b.pointPlace - 17))
  unfold Basin.step
  generalize 10 ^ 400 = large at *
  generalize power 10 (b.pointPlace - 17) = up at *
  generalize power 10 (-(b.pointPlace - 17)) = down at *
  have hlt : power 2 (-b.unit) * up * (10 ^ 16 * large) <
      (below + 2) * (power 2 b.unit * down) * (10 ^ 16 * large) :=
    calc
      power 2 (-b.unit) * up * (10 ^ 16 * large)
        = 10 ^ n * power 2 (-b.unit) * down := by rw [Nat.mul_assoc, hmul]; ring
      _ ≤ b.value * power 2 b.unit * large * down := Nat.mul_le_mul_right _ hle
      _ = b.value * (power 2 b.unit * large * down) := by ring
      _ < (below + 2) * 10 ^ 16 * (power 2 b.unit * large * down) :=
        Nat.mul_lt_mul_of_pos_right hs (by positivity)
      _ = (below + 2) * (power 2 b.unit * down) * (10 ^ 16 * large) := by ring
  exact Nat.lt_of_mul_lt_mul_right hlt

/-- Of the two decimals around a number, one is in its basin. -/
theorem nearest?_ne_none (below : Nat) (hlow : b.low + below = b.value)
    (hhigh : b.high = b.value + 2) (hv : 0 < b.value) (hu : -1076 ≤ b.unit)
    (hs : b.value < (below + 2) * 10 ^ 16) : b.nearest? 17 ≠ none := by
  have hstep := step_lt hv hu hs
  have hscaled (a : Nat) : b.scaled (b.pointPlace - 17) a =
      a * (power 2 b.unit * power 10 (-(b.pointPlace - 17))) := Nat.mul_assoc _ _ _
  have hstart : b.scaled (b.pointPlace - 17) b.value = b.scaled (b.pointPlace - 17) b.low +
      below * (power 2 b.unit * power 10 (-(b.pointPlace - 17))) := by
    rw [hscaled, hscaled, ← hlow, Nat.add_mul]
  have hstop : b.scaled (b.pointPlace - 17) b.high = b.scaled (b.pointPlace - 17) b.value +
      2 * (power 2 b.unit * power 10 (-(b.pointPlace - 17))) := by
    rw [hscaled, hscaled, hhigh, Nat.add_mul]
  have hfine : 0 < power 2 b.unit * power 10 (-(b.pointPlace - 17)) :=
    Nat.mul_pos (power_pos (by decide) _) (power_pos (by decide) _)
  have hpos : 0 < b.step (b.pointPlace - 17) :=
    Nat.mul_pos (power_pos (by decide) _) (power_pos (by decide) _)
  have hmod := Nat.mod_lt (b.scaled (b.pointPlace - 17) b.value) hpos
  have hdiv := Nat.div_add_mod' (b.scaled (b.pointPlace - 17) b.value)
    (b.step (b.pointPlace - 17))
  rw [Nat.add_mul] at hstep
  intro hnone
  have hneither : ¬ b.contains ⟨b.scaled (b.pointPlace - 17) b.value / b.step (b.pointPlace - 17),
        b.pointPlace - 17⟩ ∧
      ¬ b.contains ⟨b.scaled (b.pointPlace - 17) b.value / b.step (b.pointPlace - 17) + 1,
        b.pointPlace - 17⟩ := by
    unfold Basin.nearest? at hnone
    dsimp only [Nat.cast_ofNat] at hnone
    split at hnone <;> simp_all
  by_cases hnear : b.scaled (b.pointPlace - 17) b.value % b.step (b.pointPlace - 17) <
      below * (power 2 b.unit * power 10 (-(b.pointPlace - 17)))
  · refine hneither.1 (contains_of_lt ?_ ?_) <;> dsimp only <;> omega
  · refine hneither.2 (contains_of_lt ?_ ?_) <;> dsimp only <;> rw [Nat.succ_mul] <;> omega

theorem contains_of_nearest? {count : Nat} {d : Decimal} (h : b.nearest? count = some d) :
    b.contains d := by
  unfold Basin.nearest? at h
  exact List.find?_some h

end

/-- The shortest decimal of a number that is not zero is in its basin. -/
theorem shortest_within {x : Binary64} (h : x.isZero = false) :
    Within x.magnitude (quarters * x.shortest.value) := by
  have hn : x.magnitude ≠ 0 := by simpa [isZero] using h
  have hpos : 0 < significand x.magnitude := by
    unfold significand exponentUnit
    split <;> omega
  have hlt : significand x.magnitude < 2 * exponentUnit := by
    unfold significand exponentUnit
    split <;> omega
  have hnear : x.basin.nearest? 17 ≠ none := by
    unfold exponentUnit at hlt
    rw [basin_eq]
    by_cases hp : significand x.magnitude = exponentUnit ∧ 0 < scale x.magnitude
    · have hunit := hp.1
      unfold exponentUnit at hunit
      refine nearest?_ne_none 1 ?_ rfl ?_ ?_ ?_ <;> simp only [hp, true_and, if_true] <;> omega
    · refine nearest?_ne_none 2 ?_ rfl ?_ ?_ ?_ <;> simp only [hp, if_false] <;> omega
  rw [← contains_iff]
  unfold shortest
  cases hs : (List.range' 1 17).findSome? x.basin.nearest? with
  | none => exact absurd (List.findSome?_eq_none_iff.1 hs 17 (by decide)) hnear
  | some d =>
    obtain ⟨count, -, hd⟩ := List.exists_of_findSome?_eq_some hs
    exact contains_of_nearest? hd

end Binary64

end FrontEnd.Number
