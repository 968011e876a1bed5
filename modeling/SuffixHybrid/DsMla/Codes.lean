import Mathlib.Algebra.Order.Field.Power
import Mathlib.Data.Nat.Bitwise
import Mathlib.Data.Nat.SuccPred
import Mathlib.Order.Interval.Set.Monotone
import Mathlib.Order.WithBot
import Mathlib.Tactic.IntervalCases
import SuffixHybrid.Lib.Nearest
import SuffixHybrid.Lib.Run

/-!
# The e4m3 and e2m1 codes

A code is a sign bit over the code of a magnitude, and the magnitudes increase with their codes
(`SignMagnitude`). An encoder that sets the sign bit and the code of the nearest magnitude is correct rounding
on the signed values (`SignMagnitude.rounding`). The e4m3 encoder has one path for the subnormals and one for
each power of two, on which the grid is uniform; a carry leads to the first code of the next
(`f32ToE4m3_spec`). The e2m1 encoder tries all magnitudes (`f32ToE2m1_spec`).
-/

namespace SuffixHybrid.DsMla
open Lib

/-- A finite `f32`, over exact rationals. -/
structure Num where
  neg : Bool
  mag : ℚ
  nonneg : 0 ≤ mag

namespace Num

/-- The value. -/
def val (x : Num) : ℚ := if x.neg then -x.mag else x.mag

/-- The sign bit that the encoders set. -/
def sign (bit : ℕ) (x : Num) : ℕ := if x.val < 0 ∨ x.val = 0 ∧ x.neg then bit else 0

end Num

/-! ## The codes -/

/-- The magnitude of an exponent and a mantissa. -/
def e4m3Mag (exp man : ℕ) : ℚ :=
  if exp = 0 then man * 2 ^ (-9 : ℤ) else (man + 8) * 2 ^ ((exp : ℤ) - 7 - 3)

lemma e4m3Mag_nonneg (exp man : ℕ) : 0 ≤ e4m3Mag exp man := by
  unfold e4m3Mag
  split <;> positivity

/-- `e4m3_to_f32`; NaN has no value. -/
def e4m3ToF32 (b : ℕ) : Option Num :=
  if b &&& 0x7F = 0x7F then none
  else
    let exp := (b >>> 3) &&& 0xF
    let man := b &&& 0x7
    some ⟨b &&& 0x80 ≠ 0, e4m3Mag exp man, e4m3Mag_nonneg exp man⟩

/-- `MAGS`. -/
def MAGS : List ℚ := [0, 1 / 2, 1, 3 / 2, 2, 3, 4, 6]

lemma mags_nonneg (i : ℕ) : 0 ≤ MAGS.getD i 0 := by
  have h : ∀ m ∈ MAGS, 0 ≤ m := by norm_num [MAGS]
  rw [List.getD_eq_getElem?_getD]
  cases he : MAGS[i]? with
  | none => exact le_rfl
  | some m => exact h m (List.mem_of_getElem? he)

/-- `e2m1_to_f32`. -/
def e2m1ToF32 (c : ℕ) : Num := ⟨c &&& 8 ≠ 0, MAGS.getD (c &&& 7) 0, mags_nonneg _⟩

/-- One magnitude in the loop of `f32_to_e2m1`. -/
def tryMag (a : ℚ) (best : ℕ × WithTop ℚ) (p : ℚ × ℕ) : ℕ × WithTop ℚ :=
  let e : WithTop ℚ := (|a - p.1| : ℚ)
  if e < best.2 ∨ e = best.2 ∧ p.2 % 2 = 0 then (p.2, e) else best

/-- `f32_to_e2m1`. -/
def f32ToE2m1 (x : Num) : ℕ := x.sign 8 ||| (MAGS.zipIdx.foldl (tryMag x.mag) (0, ⊤)).1

/-- `as u8` of a float, which saturates. -/
def asU8 (z : ℤ) : ℕ := min z.toNat 255

/-- The exponent search of `f32_to_e4m3`, with `fuel` for its steps. -/
def exponentFrom (a : ℚ) : ℕ → ℤ → ℤ
  | 0, e => e
  | fuel + 1, e => if (2 : ℚ) ^ (e + 1) ≤ a then exponentFrom a fuel (e + 1) else e

/-- `f32_to_e4m3`, without the test for NaN. -/
def f32ToE4m3 (x : Num) : ℕ :=
  let a := x.mag
  let sign := x.sign 0x80
  if a = 0 then sign
  else if a ≥ 448 then sign ||| 0x7E
  else if a < 2 ^ (-6 : ℤ) then sign ||| asU8 (F64.nearestEven (a / 2 ^ (-9 : ℤ)))
  else
    let e := exponentFrom a 15 (-6)
    let exp := ((e + 7) % 2 ^ 8).toNat
    let frac := a / 2 ^ e - 1
    let man := asU8 (F64.nearestEven (frac * 8))
    let (exp, man) := if man = 8 then (exp + 1, 0) else (exp, man)
    sign ||| exp <<< 3 ||| man

/-! ## Correct rounding -/

/-- An encoder rounds to the nearest value with a code, ties to the even code, and saturates; it is monotone and
keeps the codes of decoded values. -/
structure CorrectRounding (enc : Num → ℕ) (dec : ℕ → Option Num) (codes : ℕ) (top : ℚ) : Prop where
  nearest : ∀ x, enc x < codes ∧ ∃ v, dec (enc x) = some v ∧ v.neg = x.neg ∧
    ∀ c < codes, ∀ w, dec c = some w → |x.val - v.val| ≤ |x.val - w.val| ∧
      (|x.val - w.val| = |x.val - v.val| → w.val = v.val ∨ Even (enc x))
  saturates : ∀ x, top ≤ x.mag → ∃ v, dec (enc x) = some v ∧ v.neg = x.neg ∧ v.mag = top
  mono : ∀ x y v w, dec (enc x) = some v → dec (enc y) = some w → x.val ≤ y.val → v.val ≤ w.val
  keeps : ∀ c < codes, ∀ v, dec c = some v → enc v = c

lemma Num.sign_eq (bit : ℕ) (x : Num) : x.sign bit = if x.neg then bit else 0 := by
  obtain ⟨neg, mag, hmag⟩ := x
  cases neg with
  | false => simp [Num.sign, Num.val, hmag.not_gt]
  | true =>
    have h : -mag < 0 ∨ -mag = 0 := by
      rw [neg_lt_zero, neg_eq_zero]
      exact (hmag.eq_or_lt).symm.imp_right Eq.symm
    simp only [Num.sign, Num.val, if_true, and_true]
    exact if_pos h

lemma Num.abs_val (x : Num) : |x.val| = x.mag := by
  rw [Num.val]
  split
  · rw [abs_neg, abs_of_nonneg x.nonneg]
  · exact abs_of_nonneg x.nonneg

lemma Num.val_of_false {x : Num} (h : x.neg = false) : x.val = x.mag := by simp [Num.val, h]

lemma Num.val_of_true {x : Num} (h : x.neg = true) : x.val = -x.mag := by simp [Num.val, h]

lemma Num.val_eq_zero {x : Num} (h : x.mag = 0) : x.val = 0 := by simp [Num.val, h]

lemma Num.abs_val_sub {x y : Num} (h : x.neg = y.neg) : |x.val - y.val| = |x.mag - y.mag| := by
  rw [Num.val, Num.val, h]
  split
  · rw [neg_sub_neg, abs_sub_comm]
  · rfl

/-- Values of different signs are as far apart as their magnitudes together. -/
lemma Num.abs_val_sub_of_ne {x y : Num} (h : x.neg ≠ y.neg) : |x.val - y.val| = x.mag + y.mag := by
  have hx := x.nonneg
  have hy := y.nonneg
  cases hxn : x.neg with
  | false =>
    rw [hxn] at h
    rw [val_of_false hxn, val_of_true (by simpa using h), sub_neg_eq_add, abs_of_nonneg (by linarith)]
  | true =>
    rw [hxn] at h
    rw [val_of_true hxn, val_of_false (by simpa using h), abs_of_nonpos (by linarith)]
    ring

/-- The codes are a sign bit over the codes of the magnitudes. -/
structure SignMagnitude (dec : ℕ → Option Num) (g : ℕ → ℚ) (n bit : ℕ) : Prop where
  mono : StrictMonoOn g (Set.Iic n)
  zero : g 0 = 0
  lt_bit : n < bit
  even : Even bit
  decode : ∀ neg : Bool, ∀ k ≤ n, ∃ v, dec ((if neg then bit else 0) + k) = some v ∧ v.neg = neg ∧ v.mag = g k
  code : ∀ c < 2 * bit, ∀ w, dec c = some w → ∃ k ≤ n, c = (if w.neg then bit else 0) + k ∧ w.mag = g k

namespace SignMagnitude
variable {enc : Num → ℕ} {dec : ℕ → Option Num} {g : ℕ → ℚ} {n bit : ℕ}

/-- The code of the nearest magnitude under the sign of the value is the code of the nearest value. -/
theorem rounding (h : SignMagnitude dec g n bit)
    (henc : ∀ x, ∃ k, NearestEven g n x.mag k ∧ enc x = (if x.neg then bit else 0) + k) :
    CorrectRounding enc dec (2 * bit) (g n) := by
  have hdec (x : Num) : ∃ k v, NearestEven g n x.mag k ∧ enc x = (if x.neg then bit else 0) + k ∧
      dec (enc x) = some v ∧ v.neg = x.neg ∧ v.mag = g k := by
    obtain ⟨k, hk, he⟩ := henc x
    obtain ⟨v, hv, hneg, hmag⟩ := h.decode x.neg k hk.le
    exact ⟨k, v, hk, he, he ▸ hv, hneg, hmag⟩
  constructor
  case nearest =>
    intro x
    obtain ⟨k, v, hk, he, hv, hneg, hmag⟩ := hdec x
    have hlt := h.lt_bit
    have hkn := hk.le
    refine ⟨?_, v, hv, hneg, fun c hc w hw => ?_⟩
    · rw [he]
      split <;> omega
    obtain ⟨j, hj, -, hwmag⟩ := h.code c hc w hw
    have hvk : |x.val - v.val| = |x.mag - g k| := by rw [Num.abs_val_sub hneg.symm, hmag]
    have hwj : |x.mag - g j| ≤ |x.val - w.val| := by
      rw [← hwmag, ← x.abs_val, ← w.abs_val]
      exact abs_abs_sub_abs_le _ _
    have hnear := hk.nearest j hj
    refine ⟨by linarith, fun htie => ?_⟩
    obtain rfl | heven := hk.even j hj (by linarith)
    case inr =>
      right
      rw [he]
      split
      · exact h.even.add heven
      · rwa [Nat.zero_add]
    left
    by_cases hsign : x.neg = w.neg
    · rw [Num.val, Num.val, hneg, ← hsign, hwmag, hmag]
    · -- a tie across zero is a tie of zeros
      rw [Num.abs_val_sub_of_ne hsign, hvk, hwmag] at htie
      have hx := x.nonneg
      have hw0 := w.nonneg
      have hzero : g j = 0 := by
        obtain hle | hle := le_total x.mag (g j)
        · rw [abs_of_nonpos (by linarith)] at htie
          have hx0 : x.mag = g 0 := by
            rw [h.zero]
            linarith
          rw [hx0] at hk
          rw [hk.unique h.mono (.self h.mono (Nat.zero_le n)), h.zero]
        · rw [abs_of_nonneg (by linarith)] at htie
          linarith
      rw [Num.val_eq_zero (hwmag.trans hzero), Num.val_eq_zero (hmag.trans hzero)]
  case saturates =>
    intro x hx
    obtain ⟨k, v, hk, he, hv, hneg, hmag⟩ := hdec x
    refine ⟨v, hv, hneg, ?_⟩
    rw [hmag, hk.unique h.mono (.last h.mono hx)]
  case mono =>
    intro x y v w hv hw hxy
    obtain ⟨k, v', hk, -, hv', hvneg, hvmag⟩ := hdec x
    obtain ⟨j, w', hj, -, hw', hwneg, hwmag⟩ := hdec y
    obtain rfl := Option.some.inj (hv'.symm.trans hv)
    obtain rfl := Option.some.inj (hw'.symm.trans hw)
    have hpoint {i l : ℕ} (hil : i ≤ l) (hl : l ≤ n) : g i ≤ g l :=
      h.mono.monotoneOn (hil.trans hl) hl hil
    have hzero {z : Num} {i : ℕ} (hi : NearestEven g n z.mag i) (hz : z.mag = 0) : g i = 0 := by
      rw [hz, ← h.zero] at hi
      rw [hi.unique h.mono (.self h.mono (Nat.zero_le n)), h.zero]
    have hx := x.nonneg
    have hy := y.nonneg
    have hv0 := v'.nonneg
    have hw0 := w'.nonneg
    cases hxn : x.neg with
    | false =>
      rw [Num.val_of_false hxn] at hxy
      rw [Num.val_of_false (hvneg.trans hxn), hvmag]
      cases hyn : y.neg with
      | false =>
        rw [Num.val_of_false hyn] at hxy
        rw [Num.val_of_false (hwneg.trans hyn), hwmag]
        exact hpoint (hk.mono h.mono hxy hj) hj.le
      | true =>
        rw [Num.val_of_true hyn] at hxy
        rw [hzero hk (by linarith), Num.val_eq_zero (hwmag.trans (hzero hj (by linarith)))]
    | true =>
      rw [Num.val_of_true hxn] at hxy
      rw [Num.val_of_true (hvneg.trans hxn)]
      cases hyn : y.neg with
      | false =>
        rw [Num.val_of_false (hwneg.trans hyn)]
        linarith
      | true =>
        rw [Num.val_of_true hyn] at hxy
        rw [Num.val_of_true (hwneg.trans hyn), neg_le_neg_iff, hvmag, hwmag]
        exact hpoint (hj.mono h.mono (by linarith) hk) hk.le
  case keeps =>
    intro c hc v hv
    obtain ⟨k, hk, hcode, hmag⟩ := h.code c hc v hv
    obtain ⟨k', hk', he⟩ := henc v
    rw [hmag] at hk'
    rw [he, hcode, hk'.unique h.mono (.self h.mono hk)]

end SignMagnitude

/-! ## e4m3 -/

/-- The magnitude of a code. -/
def e4m3Grid (k : ℕ) : ℚ := e4m3Mag (k / 8) (k % 8)

/-- From a power of two to the next the grid is uniform, the ends included. -/
lemma e4m3Grid_normal {exp m : ℕ} (hexp : 1 ≤ exp) (hm : m ≤ 8) :
    e4m3Grid (exp * 8 + m) = (8 + m) * 2 ^ ((exp : ℤ) - 10) := by
  have hsub : (exp : ℤ) - 7 - 3 = exp - 10 := by omega
  obtain hlt | rfl := hm.lt_or_eq
  · have hdiv : (exp * 8 + m) / 8 = exp := by omega
    have hmod : (exp * 8 + m) % 8 = m := by omega
    rw [e4m3Grid, hdiv, hmod, e4m3Mag, if_neg (by omega), hsub, add_comm (m : ℚ)]
  · have hdiv : (exp * 8 + 8) / 8 = exp + 1 := by omega
    have hmod : (exp * 8 + 8) % 8 = 0 := by omega
    have hsucc : ((exp + 1 : ℕ) : ℤ) - 7 - 3 = exp - 10 + 1 := by omega
    rw [e4m3Grid, hdiv, hmod, e4m3Mag, if_neg (by omega), hsucc, zpow_add_one₀ two_ne_zero]
    push_cast
    ring

/-- So it is below the first power of two. -/
lemma e4m3Grid_subnormal {m : ℕ} (hm : m ≤ 8) : e4m3Grid (0 + m) = (0 + m) * 2 ^ (-9 : ℤ) := by
  rw [Nat.zero_add, zero_add]
  obtain hlt | rfl := hm.lt_or_eq
  · rw [e4m3Grid, Nat.div_eq_of_lt hlt, Nat.mod_eq_of_lt hlt, e4m3Mag, if_pos rfl]
  · norm_num [e4m3Grid, e4m3Mag]

lemma e4m3Grid_values : e4m3Grid 1 = 2 ^ (-9 : ℤ) ∧ e4m3Grid 2 = 2 * 2 ^ (-9 : ℤ) ∧ e4m3Grid 126 = 448 := by
  norm_num [e4m3Grid, e4m3Mag]

/-- The grid increases. -/
lemma e4m3Grid_lt_succ (k : ℕ) : e4m3Grid k < e4m3Grid (k + 1) := by
  obtain ⟨exp, m, hm, rfl⟩ : ∃ exp m, m < 8 ∧ k = exp * 8 + m :=
    ⟨k / 8, k % 8, Nat.mod_lt k (by decide), (Nat.div_add_mod' k 8).symm⟩
  obtain rfl | hexp := Nat.eq_zero_or_pos exp
  · have hunit : (0 : ℚ) < 2 ^ (-9 : ℤ) := zpow_pos two_pos _
    rw [Nat.zero_mul, add_assoc, e4m3Grid_subnormal hm.le, e4m3Grid_subnormal hm]
    push_cast
    linarith
  · have hunit : (0 : ℚ) < 2 ^ ((exp : ℤ) - 10) := zpow_pos two_pos _
    rw [add_assoc, e4m3Grid_normal hexp hm.le, e4m3Grid_normal hexp hm]
    push_cast
    linarith

lemma e4m3_bits : ∀ b < 256, b &&& 0x7F = b % 128 ∧ b >>> 3 &&& 0xF = b % 128 / 8 ∧
    b &&& 0x7 = b % 128 % 8 ∧ (b &&& 0x80 ≠ 0 ↔ 128 ≤ b) := by
  intro b hb
  have hlow (n : ℕ) : b &&& (2 ^ n - 1) = b % 2 ^ n := Nat.and_two_pow_sub_one_eq_mod b n
  have hexp : b >>> 3 &&& (2 ^ 4 - 1) = b >>> 3 % 2 ^ 4 := Nat.and_two_pow_sub_one_eq_mod _ 4
  have hsign : b &&& 2 ^ 7 = 2 ^ 7 * (b / 2 ^ 7 % 2) := by
    rw [Nat.and_two_pow, Nat.toNat_testBit, mul_comm]
  rw [Nat.shiftRight_eq_div_pow] at hexp ⊢
  have h7 := hlow 7
  have h3 := hlow 3
  norm_num at h7 h3 hexp hsign ⊢
  omega

/-- A code that is not NaN. -/
lemma e4m3ToF32_eq (neg : Bool) {k : ℕ} (hk : k ≤ 126) :
    ∃ v, e4m3ToF32 ((if neg then 128 else 0) + k) = some v ∧ v.neg = neg ∧ v.mag = e4m3Grid k := by
  obtain ⟨hlow, hexp, hman, hsign⟩ := e4m3_bits ((if neg then 128 else 0) + k) (by split <;> omega)
  have hmod : ((if neg then 128 else 0) + k) % 128 = k := by split <;> omega
  have hneg : (128 ≤ (if neg then 128 else 0) + k) ↔ neg = true := by
    cases neg
    · simp only [Bool.false_eq_true, if_false, iff_false]
      omega
    · simp
  rw [hmod] at hlow hexp hman
  refine ⟨_, if_neg (by omega), ?_, ?_⟩
  · simp only [hsign, hneg, Bool.decide_eq_true]
  · simp only [hexp, hman, e4m3Grid]

lemma e4m3_signMagnitude : SignMagnitude e4m3ToF32 e4m3Grid 126 128 where
  mono := by
    exact strictMonoOn_Iic_of_lt_succ fun k _ => e4m3Grid_lt_succ k
  zero := by norm_num [e4m3Grid, e4m3Mag]
  lt_bit := by decide
  even := by decide
  decode neg k hk := e4m3ToF32_eq neg hk
  code c hc w hw := by
    have hne : c &&& 0x7F ≠ 0x7F := by
      intro he
      rw [e4m3ToF32, if_pos he] at hw
      cases hw
    have hmod : c % 128 ≤ 126 := by
      have hlow := (e4m3_bits c hc).1
      omega
    obtain ⟨v, hv, hneg, hmag⟩ := e4m3ToF32_eq (decide (128 ≤ c)) hmod
    have hcode : (if decide (128 ≤ c) then 128 else 0) + c % 128 = c := by
      by_cases h : 128 ≤ c <;> simp [h] <;> omega
    rw [hcode, hw] at hv
    cases hv
    exact ⟨c % 128, hmod, by rw [hneg, hcode], hmag⟩

/-- The exponent search ends with the exponent of its value. -/
lemma exponentFrom_spec {a : ℚ} (fuel : ℕ) {e : ℤ} (hlo : 2 ^ e ≤ a) (hhi : a < 2 ^ (e + fuel)) :
    e ≤ exponentFrom a fuel e ∧ 2 ^ exponentFrom a fuel e ≤ a ∧ a < 2 ^ (exponentFrom a fuel e + 1) := by
  induction fuel generalizing e with
  | zero =>
    rw [Int.natCast_zero, add_zero] at hhi
    exact absurd hlo hhi.not_ge
  | succ fuel ih =>
    rw [exponentFrom]
    split
    case isTrue h =>
      have hhi' : a < 2 ^ (e + 1 + fuel) := by
        rwa [add_assoc, add_comm 1, ← Nat.cast_succ]
      obtain ⟨hle, hlow, hhigh⟩ := ih h hhi'
      exact ⟨by omega, hlow, hhigh⟩
    case isFalse h => exact ⟨le_rfl, hlo, not_le.mp h⟩

lemma e4m3_or : ∀ s ∈ [0, 128], ∀ k < 128, s ||| k = s + k := by
  decide

/-- The fields of a code do not overlap. -/
lemma e4m3_pack : ∀ s ∈ [0, 128], ∀ exp < 16, ∀ man < 8, s ||| exp <<< 3 ||| man = s + (exp * 8 + man) := by
  decide

/-- The code of the nearest magnitude of a normal value, the carry included. -/
lemma e4m3_normal {a : ℚ} {e : ℤ} (he : -6 ≤ e) (hlow : 2 ^ e ≤ a) (hhigh : a < 2 ^ (e + 1)) (hmax : a < 448) :
    ∃ exp man : ℕ, (exp : ℤ) = e + 7 ∧ (F64.nearestEven ((a / 2 ^ e - 1) * 8)).toNat = man ∧ man ≤ 8 ∧
      NearestEven e4m3Grid 126 a (exp * 8 + man) := by
  have hpow : (0 : ℚ) < 2 ^ e := zpow_pos two_pos e
  have he8 : e ≤ 8 := by
    have hlt : (2 : ℚ) ^ e < 2 ^ (9 : ℤ) := hlow.trans_lt (hmax.trans (by norm_num))
    have := (zpow_lt_zpow_iff_right₀ (by norm_num)).mp hlt
    omega
  obtain ⟨exp, hexp⟩ := Int.eq_ofNat_of_zero_le (show 0 ≤ e + 7 by omega)
  have hunit : (exp : ℤ) - 10 = e - 3 := by omega
  have hu : (2 : ℚ) ^ (e - 3) = 2 ^ e / 8 := by
    rw [zpow_sub₀ two_ne_zero]
    norm_num
  have h0 : 0 ≤ (a / 2 ^ e - 1) * 8 := by
    have := (one_le_div₀ hpow).mpr hlow
    linarith
  have h8 : (a / 2 ^ e - 1) * 8 < 8 := by
    rw [zpow_add_one₀ two_ne_zero, mul_comm] at hhigh
    have := (div_lt_iff₀ hpow).mpr hhigh
    linarith
  -- in the last stretch only six steps are left to the largest code
  obtain ⟨w, hw8, hw, htw⟩ : ∃ w : ℕ, w ≤ 8 ∧ exp * 8 + w ≤ 126 ∧ (a / 2 ^ e - 1) * 8 < w := by
    obtain rfl | hlt := he8.eq_or_lt
    · refine ⟨6, by decide, by omega, ?_⟩
      norm_num
      linarith
    · exact ⟨8, le_rfl, by omega, by exact_mod_cast h8⟩
  obtain ⟨hman, hnear⟩ := nearestEven_uniform e4m3_signMagnitude.mono (zpow_pos two_pos (e - 3))
    (show Even (exp * 8) from (show Even 8 by decide).mul_left exp) hw
    (fun m hm => by rw [e4m3Grid_normal (by omega) (hm.trans hw8), hunit]) h0 htw
  have ha : (8 + (a / 2 ^ e - 1) * 8) * 2 ^ (e - 3) = a := by
    rw [hu]
    field_simp
    ring
  rw [ha] at hnear
  exact ⟨exp, _, hexp.symm, rfl, hman.trans hw8, hnear⟩

/-- The e4m3 encoder finds the nearest magnitude. -/
theorem f32ToE4m3_spec (x : Num) : ∃ k, NearestEven e4m3Grid 126 x.mag k ∧
    f32ToE4m3 x = (if x.neg then 128 else 0) + k := by
  have hmono := e4m3_signMagnitude.mono
  unfold f32ToE4m3
  simp only [Num.sign_eq]
  generalize hs : (if x.neg then 128 else 0) = s
  have hmem : s ∈ [0, 128] := by
    rw [← hs]
    cases x.neg <;> decide
  split
  case isTrue h0 =>
    refine ⟨0, ?_, rfl⟩
    rw [h0, ← e4m3_signMagnitude.zero]
    exact .self hmono (by decide)
  split
  case isTrue hmax =>
    refine ⟨126, .last hmono (by rwa [e4m3Grid_values.2.2]), e4m3_or s hmem 126 (by decide)⟩
  split
  case isTrue hsub =>
    -- the subnormal path, up to the first power of two
    have hu : (0 : ℚ) < 2 ^ (-9 : ℤ) := by norm_num
    have ht : x.mag / 2 ^ (-9 : ℤ) < (8 : ℕ) := by
      rw [div_lt_iff₀ hu]
      exact hsub.trans_eq (by norm_num)
    obtain ⟨hman, hnear⟩ := nearestEven_uniform hmono hu Even.zero (show 0 + 8 ≤ 126 by decide)
      (fun m hm => e4m3Grid_subnormal hm) (div_nonneg x.nonneg hu.le) ht
    rw [zero_add, div_mul_cancel₀ _ hu.ne', Nat.zero_add] at hnear
    refine ⟨_, hnear, ?_⟩
    rw [asU8, min_eq_left (by omega)]
    exact e4m3_or s hmem _ (by omega)
  case isFalse _ hmax hsub =>
    have hlow : (2 : ℚ) ^ (-6 : ℤ) ≤ x.mag := not_lt.mp hsub
    have hhigh : x.mag < 448 := not_le.mp hmax
    obtain ⟨he, hpow, hnext⟩ := exponentFrom_spec 15 hlow (hhigh.trans (by norm_num))
    obtain ⟨exp, man, hexp, hround, hman, hnear⟩ := e4m3_normal he hpow hnext hhigh
    refine ⟨_, hnear, ?_⟩
    have hle := hnear.le
    have hexp8 : ((exponentFrom x.mag 15 (-6) + 7) % 2 ^ 8).toNat = exp := by omega
    have hman8 : asU8 (F64.nearestEven ((x.mag / 2 ^ exponentFrom x.mag 15 (-6) - 1) * 8)) = man := by
      rw [asU8, hround]
      exact min_eq_left (by omega)
    rw [hexp8, hman8]
    split
    case isTrue hcarry =>
      subst hcarry
      rw [e4m3_pack s hmem (exp + 1) (by omega) 0 (by decide)]
      omega
    case isFalse hne => exact e4m3_pack s hmem exp (by omega) man (by omega)

/-! ## e2m1 -/

/-- The magnitude of a code. -/
def e2m1Grid (k : ℕ) : ℚ := MAGS.getD k 0

lemma e2m1_bits : ∀ neg : Bool, ∀ k ≤ 7, (if neg then 8 else 0) ||| k = (if neg then 8 else 0) + k ∧
    ((if neg then 8 else 0) + k) &&& 7 = k ∧ (((if neg then 8 else 0) + k) &&& 8 ≠ 0 ↔ neg = true) := by
  decide

lemma e2m1_signMagnitude : SignMagnitude (fun c => some (e2m1ToF32 c)) e2m1Grid 7 8 where
  mono := by
    exact strictMonoOn_Iic_of_lt_succ fun k (hk : k < 7) => by
      interval_cases k <;> norm_num [e2m1Grid, MAGS, Order.succ_eq_add_one]
  zero := rfl
  lt_bit := by decide
  even := by decide
  decode neg k hk := by
    obtain ⟨-, hmag, hneg⟩ := e2m1_bits neg k hk
    refine ⟨_, rfl, ?_, ?_⟩
    · simp only [e2m1ToF32, hneg, Bool.decide_eq_true]
    · simp only [e2m1ToF32, hmag, e2m1Grid]
  code c hc w hw := by
    cases hw
    have hbits : ∀ c < 16, c = (if decide (c &&& 8 ≠ 0) then 8 else 0) + (c &&& 7) ∧ c &&& 7 ≤ 7 := by decide
    exact ⟨c &&& 7, (hbits c hc).2, (hbits c hc).1, rfl⟩

/-- After `i` magnitudes: a nearest one of them, and an even one if one of the nearest is even. -/
structure Argmin (a : ℚ) (i : ℕ) (best : ℕ × WithTop ℚ) : Prop where
  lt : best.1 < i
  err : best.2 = (|a - e2m1Grid best.1| : ℚ)
  nearest : ∀ j < i, |a - e2m1Grid best.1| ≤ |a - e2m1Grid j|
  even : ∀ j < i, |a - e2m1Grid j| = |a - e2m1Grid best.1| → Even j → Even best.1

lemma Argmin.first (a : ℚ) : Argmin a 1 (tryMag a (0, ⊤) (e2m1Grid 0, 0)) := by
  rw [tryMag]
  dsimp only
  rw [if_pos (.inl (WithTop.coe_lt_top _))]
  refine ⟨Nat.one_pos, rfl, fun j hj => ?_, fun j hj _ heven => ?_⟩
  · rw [Nat.lt_one_iff.mp hj]
  · exact Even.zero

/-- One magnitude more. -/
lemma Argmin.step {a : ℚ} {i : ℕ} {best : ℕ × WithTop ℚ} (h : Argmin a i best) :
    Argmin a (i + 1) (tryMag a best (e2m1Grid i, i)) := by
  unfold tryMag
  simp only [h.err, WithTop.coe_lt_coe, WithTop.coe_eq_coe]
  split
  case isTrue hnew =>
    have hle : |a - e2m1Grid i| ≤ |a - e2m1Grid best.1| := hnew.elim le_of_lt fun he => he.1.le
    refine ⟨Nat.lt_succ_self i, rfl, fun j hj => ?_, fun j hj he heven => ?_⟩
    · obtain hlt | rfl := Nat.lt_succ_iff_lt_or_eq.mp hj
      · exact hle.trans (h.nearest j hlt)
      · exact le_rfl
    · obtain hlt | rfl := Nat.lt_succ_iff_lt_or_eq.mp hj
      · obtain hlt' | ⟨-, h2⟩ := hnew
        · exact absurd he (hlt'.trans_le (h.nearest j hlt)).ne'
        · exact Nat.even_iff.mpr h2
      · exact heven
  case isFalse hold =>
    obtain ⟨hge, hodd⟩ := not_or.mp hold
    refine ⟨h.lt.trans (Nat.lt_succ_self i), h.err, fun j hj => ?_, fun j hj he heven => ?_⟩
    · obtain hlt | rfl := Nat.lt_succ_iff_lt_or_eq.mp hj
      · exact h.nearest j hlt
      · exact not_lt.mp hge
    · obtain hlt | rfl := Nat.lt_succ_iff_lt_or_eq.mp hj
      · exact h.even j hlt he heven
      · exact absurd ⟨he, Nat.even_iff.mp heven⟩ hodd

/-- The loop ends with the nearest of all magnitudes, the even one on a tie. -/
lemma tryMag_nearest (a : ℚ) : NearestEven e2m1Grid 7 a (MAGS.zipIdx.foldl (tryMag a) (0, ⊤)).1 := by
  have hloop := foldl_zipIdx_inv (P := fun i best => i = 0 ∧ best = (0, ⊤) ∨ Argmin a i best)
    (f := tryMag a) (l := MAGS) (k := 0) (.inl ⟨rfl, rfl⟩) fun i m best hm hP => by
      have hgrid : m = e2m1Grid i := by rw [e2m1Grid, List.getD_eq_getElem?_getD, hm, Option.getD_some]
      rw [Nat.zero_add] at hP ⊢
      right
      obtain ⟨rfl, rfl⟩ | harg := hP
      · exact hgrid ▸ Argmin.first a
      · exact hgrid ▸ harg.step
  obtain ⟨h0, -⟩ | harg := hloop
  · cases h0
  have hlen : 0 + MAGS.length = 8 := rfl
  rw [hlen] at harg
  have hle := Nat.le_of_lt_succ harg.lt
  have hnear (j : ℕ) (hj : j ≤ 7) := harg.nearest j (Nat.lt_succ_of_le hj)
  refine ⟨hle, hnear, fun j hj he => ?_⟩
  -- two nearest magnitudes are neighbours, so one of them is even
  by_cases heven : Even j
  · exact .inr (harg.even j (Nat.lt_succ_of_le hj) he heven)
  · obtain hlt | heq | hlt := lt_trichotomy j (MAGS.zipIdx.foldl (tryMag a) (0, ⊤)).1
    · right
      rw [eq_succ_of_tie e2m1_signMagnitude.mono (fun i hi => he.trans_le (hnear i hi)) hlt hle he,
        Nat.even_add_one]
      exact heven
    · exact .inl heq
    · right
      rw [eq_succ_of_tie e2m1_signMagnitude.mono hnear hlt hj he.symm, Nat.even_add_one, not_not] at heven
      exact heven

/-- The e2m1 encoder finds the nearest magnitude. -/
theorem f32ToE2m1_spec (x : Num) : ∃ k, NearestEven e2m1Grid 7 x.mag k ∧
    f32ToE2m1 x = (if x.neg then 8 else 0) + k := by
  have hnear := tryMag_nearest x.mag
  refine ⟨_, hnear, ?_⟩
  rw [f32ToE2m1, Num.sign_eq]
  exact (e2m1_bits x.neg _ hnear.le).1

/-- Both encoders round correctly. -/
theorem encoders_correct : CorrectRounding f32ToE4m3 e4m3ToF32 256 448 ∧
    CorrectRounding f32ToE2m1 (fun c => some (e2m1ToF32 c)) 16 6 := by
  have h4 := e4m3_signMagnitude.rounding f32ToE4m3_spec
  have h2 := e2m1_signMagnitude.rounding f32ToE2m1_spec
  rw [e4m3Grid_values.2.2] at h4
  exact ⟨h4, h2⟩

end SuffixHybrid.DsMla
