import SuffixHybrid.Decider.Json
import SuffixHybrid.Lib.Decimal
import SuffixHybrid.Lib.Rounding

/-!
# Numbers as Python writes them

A number of a JSON text is a literal, and is an integer or a float by its shape. The JSON crate keeps an
integer that a machine word cannot hold as it is written, and reads any other number into the word or the
`f64` next to it; Python reads the same `f64` and has integers of any size. Both write a float from its
shortest digits: `Display` and `LowerExp` of Rust place them (`display`, `lowerExp`), and Python has one
layout for both forms (`floatRepr`). The number the program prints is the one Python does
(`pythonNumber_repr`).
-/

namespace SuffixHybrid.Decider

open Lib Lib.F64

/-! ## Literals -/

inductive ExponentSign where
  | none
  | plus
  | minus

/-- The exponent of a literal. -/
structure Exponent where
  mark : Char
  sign : ExponentSign
  digits : List ℕ

/-- A number as it stands in a JSON text. -/
structure Literal where
  neg : Bool
  int : ℕ
  frac : Option (List ℕ)
  exp : Option Exponent

/-- An `f64` that is not a NaN, by its sign and the magnitude it would have if exponents had no bound. -/
structure Double where
  neg : Bool
  mag : ℚ
deriving DecidableEq

/-- The magnitude is in the range of binary64. -/
def Double.Finite (x : Double) : Prop := x.mag < 2 ^ 1024

instance (x : Double) : Decidable x.Finite := inferInstanceAs (Decidable (x.mag < 2 ^ 1024))

def digitsText (ds : List ℕ) : String := String.ofList (ds.map Nat.digitChar)

def signText (neg : Bool) : String := if neg then "-" else ""

def Exponent.text (e : Exponent) : String :=
  e.mark.toString ++ (match e.sign with | .none => "" | .plus => "+" | .minus => "-") ++ digitsText e.digits

def Exponent.value (e : Exponent) : ℤ :=
  match e.sign with
  | .minus => -(Nat.ofDigits 10 e.digits.reverse : ℕ)
  | _ => (Nat.ofDigits 10 e.digits.reverse : ℕ)

namespace Literal

/-- The literal as it is written. -/
def written (n : Literal) : String :=
  signText n.neg ++ toString n.int ++ (n.frac.elim "" fun ds => "." ++ digitsText ds) ++ n.exp.elim "" Exponent.text

def isFloat (n : Literal) : Bool := n.frac.isSome || n.exp.isSome

/-- The value of a literal without fraction and exponent. -/
def integer (n : Literal) : ℤ := if n.neg then -n.int else n.int

/-- The magnitude of what is written. -/
def magnitude (n : Literal) : ℚ :=
  ((n.int * 10 ^ (n.frac.getD []).length + Nat.ofDigits 10 (n.frac.getD []).reverse : ℕ) : ℚ) *
    10 ^ ((n.exp.elim 0 Exponent.value) - (n.frac.getD []).length)

/-- The nearest `f64`; `-0` is the integer zero, and has no sign. -/
def toDouble (n : Literal) : Double := ⟨n.neg && (n.isFloat || n.int ≠ 0), roundBinary64 n.magnitude⟩

/-- `u64` holds the literal, or `i64` if it has a minus sign. -/
def isWord (n : Literal) : Bool :=
  !n.isFloat && if n.neg then n.int ≤ 2 ^ 63 else n.int < 2 ^ 64

end Literal

/-! ## The text of the program -/

/-- What is taken from the libraries: the text of a string, and the shortest digits of a positive `f64`. -/
class Printer where
  quote : String → String
  shortest : ℚ → Decimal

section
variable [Printer]

/-- The digits of an `f64`; zero has the digit zero before its point. -/
def Double.digits (x : Double) : Decimal := if x.mag = 0 then ⟨[0], 1⟩ else Printer.shortest x.mag

/-- `digits_to_dec_str`: the digits around the point, and zeros where it is outside of them. -/
def digitsToDec (d : Decimal) : String :=
  if d.point ≤ 0 then "0." ++ digitsText (List.replicate (-d.point).toNat 0 ++ d.digits)
  else if d.point < d.digits.length then
    digitsText (d.digits.take d.point.toNat) ++ "." ++ digitsText (d.digits.drop d.point.toNat)
  else digitsText (d.digits ++ List.replicate (d.point - d.digits.length).toNat 0)

/-- `value.to_string()`. -/
def display (x : Double) : String := signText x.neg ++ digitsToDec x.digits

/-- `digits_to_exp_str`, the mantissa and the exponent. -/
def lowerExp (x : Double) : String × ℤ :=
  (signText x.neg ++ digitsText (x.digits.digits.take 1) ++
    (if 1 < x.digits.digits.length then "." ++ digitsText (x.digits.digits.drop 1) else ""), x.digits.point - 1)

instance : Serde Literal where
  F64 := Double
  quote := Printer.quote
  text n := if n.isWord then toString n.integer else n.written
  isF64 n := n.isFloat && decide n.toDouble.Finite
  asF64 n := if n.toDouble.Finite then some n.toDouble else none
  isZero x := x.mag = 0
  isExtreme x := x.mag < roundBinary64 (10 ^ (-4 : ℤ)) || roundBinary64 (10 ^ (16 : ℤ)) ≤ x.mag
  display := display
  lowerExp := lowerExp

end

/-! ## The text of Python -/

/-- What `json.loads` makes of a number. -/
inductive PyNumber where
  | int (z : ℤ)
  | float (x : Double)
deriving DecidableEq

/-- `parse_int` or `parse_float`. -/
def Literal.toPy (n : Literal) : PyNumber := if n.isFloat then .float n.toDouble else .int n.integer

/-- The digit at a place of the digits, zero beside them. -/
def digitAt (ds : List ℕ) (i : ℤ) : ℕ := if 0 ≤ i then ds.getD i.toNat 0 else 0

/-- The digits from one place up to another. -/
def places (ds : List ℕ) (start stop : ℤ) : List ℕ :=
  (List.range (stop - start).toNat).map fun (k : ℕ) => digitAt ds (start + k)

/-- The digits up to `stop` with the point before the place `point`, and at least one digit before it; a
point that would end the text is left out. -/
def layout (ds : List ℕ) (point stop : ℤ) : String :=
  digitsText (places ds (if point ≤ 0 then point - 1 else 0) point) ++
    if point < stop then "." ++ digitsText (places ds point stop) else ""

/-- `%+.02d`. -/
def exponentRepr (exp : ℤ) : String :=
  (if exp < 0 then "-" else "+") ++ String.ofList (List.replicate (2 - (toString exp.natAbs).length) '0') ++
    toString exp.natAbs

section
variable [Printer]

/-- `float.__repr__`: the exponent form if the point is far from the digits. -/
def floatRepr (x : Double) : String :=
  signText x.neg ++
    if x.digits.point ≤ -4 ∨ 16 < x.digits.point then
      layout x.digits.digits 1 (max x.digits.digits.length 1) ++ "e" ++ exponentRepr (x.digits.point - 1)
    else layout x.digits.digits x.digits.point (max x.digits.digits.length (x.digits.point + 1))

/-- `int.__repr__` or `float.__repr__`. -/
def PyNumber.text : PyNumber → String
  | .int z => toString z
  | .float x => floatRepr x

end

/-! ## The two layouts -/

@[simp] lemma digitsText_append (ds es : List ℕ) : digitsText (ds ++ es) = digitsText ds ++ digitsText es := by
  rw [digitsText, List.map_append, String.ofList_append]
  rfl

@[simp] lemma digitsText_nil : digitsText [] = "" := rfl

lemma point_not_mem_digitsText (ds : List ℕ) : '.' ∉ (digitsText ds).toList := by
  rw [digitsText, String.toList_ofList, List.mem_map]
  rintro ⟨i, _, hi⟩
  exact Nat.digitChar_ne '.' rfl hi

lemma point_not_mem_signText (neg : Bool) : '.' ∉ (signText neg).toList := by
  cases neg <;> decide

@[simp] lemma length_places (ds : List ℕ) (i j : ℤ) : (places ds i j).length = (j - i).toNat := by
  simp [places]

/-- Places are read one range after the other. -/
lemma places_append (ds : List ℕ) {i j k : ℤ} (hij : i ≤ j) (hjk : j ≤ k) :
    places ds i k = places ds i j ++ places ds j k := by
  have hlen : (k - i).toNat = (j - i).toNat + (k - j).toNat := by omega
  rw [places, hlen, List.range_add, List.map_append, List.map_map]
  congr 1
  rw [places]
  apply List.map_congr_left
  intro m _
  simp only [Function.comp_apply]
  congr 1
  omega

/-- There are zeros before the digits. -/
lemma places_of_nonpos (ds : List ℕ) {i j : ℤ} (h : j ≤ 0) :
    places ds i j = List.replicate (j - i).toNat 0 := by
  rw [List.eq_replicate_iff]
  refine ⟨length_places ds i j, fun d hd => ?_⟩
  obtain ⟨k, hk, rfl⟩ := List.mem_map.mp hd
  rw [List.mem_range] at hk
  exact if_neg (by omega)

/-- There are zeros after the digits. -/
lemma places_of_length_le (ds : List ℕ) {i j : ℤ} (h : ds.length ≤ i) :
    places ds i j = List.replicate (j - i).toNat 0 := by
  rw [List.eq_replicate_iff]
  refine ⟨length_places ds i j, fun d hd => ?_⟩
  obtain ⟨k, _, rfl⟩ := List.mem_map.mp hd
  rw [digitAt, if_pos (by omega), List.getD_eq_getElem?_getD, List.getElem?_eq_none (by omega)]
  rfl

/-- The places of the digits are the digits. -/
lemma places_length (ds : List ℕ) : places ds 0 ds.length = ds := by
  apply List.ext_getElem
  · simp
  · intro k hk hk'
    simp [places, digitAt, List.getElem?_eq_getElem hk']

lemma places_take (ds : List ℕ) {j : ℤ} (h0 : 0 ≤ j) (h : j ≤ ds.length) :
    places ds 0 j = ds.take j.toNat := by
  have hsplit := places_append ds h0 h
  rw [places_length] at hsplit
  conv_rhs => rw [hsplit]
  rw [List.take_left' (by simp)]

lemma places_drop (ds : List ℕ) {j : ℤ} (h0 : 0 ≤ j) (h : j ≤ ds.length) :
    places ds j ds.length = ds.drop j.toNat := by
  have hsplit := places_append ds h0 h
  rw [places_length] at hsplit
  conv_rhs => rw [hsplit]
  rw [List.drop_left' (by simp)]

/-- `digits_to_dec_str` leaves the point out only of integers; with the fraction put back it is the layout
with a digit after the point. -/
lemma digitsToDec_layout {d : Decimal} (h : d.digits ≠ []) :
    (if '.' ∈ (digitsToDec d).toList then digitsToDec d else digitsToDec d ++ ".0") =
      layout d.digits d.point (max d.digits.length (d.point + 1)) := by
  have hlen : 0 < d.digits.length := List.length_pos_iff.mpr h
  have hstop : d.point < max (d.digits.length : ℤ) (d.point + 1) := by omega
  unfold digitsToDec layout
  rw [if_pos hstop]
  by_cases hneg : d.point ≤ 0
  · have hmax : max (d.digits.length : ℤ) (d.point + 1) = d.digits.length := by omega
    have hone : (d.point - (d.point - 1)).toNat = 1 := by omega
    rw [if_pos hneg, if_pos hneg, hmax, places_of_nonpos _ hneg, hone,
      places_append _ hneg (Int.natCast_nonneg _), places_of_nonpos _ le_rfl, places_length, zero_sub]
    rw [if_pos (by simp)]
    rw [← String.append_assoc]
    rfl
  · rw [if_neg hneg, if_neg hneg]
    by_cases hin : d.point < d.digits.length
    · have hmax : max (d.digits.length : ℤ) (d.point + 1) = d.digits.length := by omega
      rw [if_pos hin, hmax, places_take _ (by omega) hin.le, places_drop _ (by omega) hin.le]
      rw [if_pos (by simp), String.append_assoc]
    · have hmax : max (d.digits.length : ℤ) (d.point + 1) = d.point + 1 := by omega
      have hone : (d.point + 1 - d.point).toNat = 1 := by omega
      rw [if_neg hin, hmax, places_append _ (Int.natCast_nonneg _) (not_lt.mp hin), places_length,
        places_of_length_le _ le_rfl, places_of_length_le _ (not_lt.mp hin), hone]
      rw [if_neg (point_not_mem_digitsText _)]
      rfl

/-- The mantissa is the layout with the point after the first digit. -/
lemma lowerExp_layout {d : Decimal} (h : d.digits ≠ []) :
    digitsText (d.digits.take 1) ++ (if 1 < d.digits.length then "." ++ digitsText (d.digits.drop 1) else "") =
      layout d.digits 1 (max d.digits.length 1) := by
  have hlen : 0 < d.digits.length := List.length_pos_iff.mpr h
  have hmax : max (d.digits.length : ℤ) 1 = d.digits.length := by omega
  have hiff : (1 < (d.digits.length : ℤ)) = (1 < d.digits.length) := by
    rw [Nat.one_lt_cast]
  unfold layout
  simp only [hmax, hiff]
  rw [if_neg (show ¬(1 : ℤ) ≤ 0 by decide), places_take _ (by decide) (by omega),
    places_drop _ (by decide) (by omega)]
  rfl

/-! ## The same text -/

lemma exponentText_eq (exp : ℤ) : exponentText exp = exponentRepr exp := by
  have hsign : (if 0 ≤ exp then "+" else "-") = if exp < 0 then "-" else "+" := by
    split_ifs <;> first | rfl | omega
  have hone : (toString exp.natAbs).length ≤ 1 ↔ exp.natAbs < 10 :=
    Nat.length_repr_le_iff Nat.one_pos
  have hpos : 0 < (toString exp.natAbs).length := Nat.length_repr_pos
  unfold exponentText exponentRepr
  rw [hsign]
  congr 2
  by_cases hlt : exp.natAbs < 10
  · have hpad : 2 - (toString exp.natAbs).length = 1 := by omega
    rw [if_pos hlt, hpad]
    rfl
  · have hpad : 2 - (toString exp.natAbs).length = 0 := by omega
    rw [if_neg hlt, hpad]
    rfl

/-- An integer of any size keeps its digits. -/
lemma text_integer [Printer] {n : Literal} (h : n.isFloat = false) : Serde.text n = toString n.integer := by
  show (if n.isWord then toString n.integer else n.written) = toString n.integer
  split
  case isTrue => rfl
  case isFalse hword =>
    obtain ⟨neg, int, frac, exp⟩ := n
    obtain ⟨rfl, rfl⟩ : frac = none ∧ exp = none := by
      simpa [Literal.isFloat] using h
    cases neg with
    | false =>
      show "" ++ Nat.repr int ++ "" ++ "" = Nat.repr int
      rw [String.append_empty, String.append_empty, String.empty_append]
    | true =>
      obtain ⟨int, rfl⟩ : ∃ k, int = k + 1 := ⟨int - 1, by
        simp [Literal.isWord, Literal.isFloat] at hword
        omega⟩
      show "-" ++ Nat.repr (int + 1) ++ "" ++ "" = "-" ++ Nat.repr (int + 1)
      rw [String.append_empty, String.append_empty]

/-- What Python needs to know of the digits of an `f64`. -/
def Double.Printed [Printer] (x : Double) : Prop :=
  x.mag ≠ 0 → (Printer.shortest x.mag).Shortest roundBinary64 x.mag

section
variable [Printer]

lemma Double.digits_ne_nil {x : Double} (h : x.Printed) : x.digits.digits ≠ [] := by
  unfold Double.digits
  split
  case isTrue => exact List.cons_ne_nil _ _
  case isFalse hmag => exact (h hmag).ne_nil

/-- The thresholds of the program are those of Python. -/
lemma isExtreme_iff {x : Double} (h : x.Printed) :
    (x.mag ≠ 0 ∧ (x.mag < roundBinary64 (10 ^ (-4 : ℤ)) ∨ roundBinary64 (10 ^ (16 : ℤ)) ≤ x.mag)) ↔
      x.digits.point ≤ -4 ∨ 16 < x.digits.point := by
  unfold Double.digits
  by_cases hmag : x.mag = 0
  · rw [if_pos hmag]
    simp [hmag]
  · have hmono : ∀ p q : ℚ, 0 ≤ p → p ≤ q → roundBinary64 p ≤ roundBinary64 q := fun _ _ => roundBinary64_mono
    have hsmall := (h hmag).lt_iff hmono (j := -4) (by with_unfolding_all decide)
    have hlarge := (h hmag).lt_iff hmono (j := 16) (by with_unfolding_all decide)
    have hnot : roundBinary64 (10 ^ (16 : ℤ)) ≤ x.mag ↔ 16 < (Printer.shortest x.mag).point := by
      rw [← not_lt, hlarge, not_le]
    rw [if_neg hmag, hsmall, hnot]
    exact and_iff_right hmag

/-- A float is printed as Python prints it. -/
lemma pythonFloat_repr {n : Literal} (hf : n.isFloat) (hfin : n.toDouble.Finite) (h : n.toDouble.Printed) :
    pythonNumber n = floatRepr n.toDouble := by
  have hfloat : Serde.isF64 n = true := by
    show (n.isFloat && decide n.toDouble.Finite) = true
    rw [hf, decide_eq_true hfin]
    rfl
  have hvalue : Serde.asF64 n = some n.toDouble := if_pos hfin
  unfold pythonNumber
  rw [hfloat, hvalue]
  generalize n.toDouble = x at h
  have hne := Double.digits_ne_nil h
  have hcond : (!Serde.isZero (N := Literal) x && Serde.isExtreme (N := Literal) x) = true ↔
      x.digits.point ≤ -4 ∨ 16 < x.digits.point := by
    rw [← isExtreme_iff h]
    show (!decide (x.mag = 0) && (decide (x.mag < _) || decide (_ ≤ x.mag))) = true ↔ _
    simp
  dsimp only
  unfold floatRepr
  by_cases hfar : x.digits.point ≤ -4 ∨ 16 < x.digits.point
  · rw [if_pos (hcond.mpr hfar), if_pos hfar, exponentText_eq, ← lowerExp_layout hne]
    show signText x.neg ++ _ ++ _ ++ "e" ++ exponentRepr _ = _
    simp only [String.append_assoc]
    rfl
  · rw [if_neg (hcond.not.mpr hfar), if_neg hfar, ← digitsToDec_layout hne]
    show (if (signText x.neg ++ digitsToDec x.digits).toList.contains '.' then _ else _) = _
    have hpoint : (signText x.neg ++ digitsToDec x.digits).toList.contains '.' = true ↔
        '.' ∈ (digitsToDec x.digits).toList := by
      rw [List.contains_iff_mem, String.toList_append, List.mem_append]
      exact or_iff_right (point_not_mem_signText x.neg)
    by_cases hdot : '.' ∈ (digitsToDec x.digits).toList
    · rw [if_pos (hpoint.mpr hdot), if_pos hdot]
      rfl
    · rw [if_neg (hpoint.not.mpr hdot), if_neg hdot, ← String.append_assoc]
      rfl

/-- A number is printed as Python prints what it reads. -/
theorem pythonNumber_repr {n : Literal} (hfin : n.isFloat → n.toDouble.Finite)
    (h : n.isFloat → n.toDouble.Printed) : pythonNumber n = n.toPy.text := by
  unfold Literal.toPy
  split
  case isTrue hf => exact pythonFloat_repr hf (hfin hf) (h hf)
  case isFalse hf =>
    rw [Bool.not_eq_true] at hf
    have hnot : Serde.isF64 n = false := by
      show (n.isFloat && _) = false
      rw [hf]
      rfl
    unfold pythonNumber
    rw [hnot]
    exact text_integer hf

end

end SuffixHybrid.Decider
