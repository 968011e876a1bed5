import Mathlib.Data.List.DropRight
import SuffixHybrid.Lib.Rounding

/-!
# Python's text functions

A `str` is a list of characters. The properties of characters beyond ASCII come from the Unicode version of the
interpreter (`Unicode`). `float` reads the literals of the language reference, rounds to the nearest binary64
value and overflows to infinity. A decimal number below 2^53 is read exactly (`float_digits`), and a text
without a minus sign is no negative number (`float_nonneg`).
-/

namespace Lib

/-- The character database of an interpreter, which extends the ASCII one. -/
class Unicode where
  isSpace : Char → Bool
  upper : Char → List Char
  digit : Char → Option ℕ
  isSpace_ascii : ∀ c, c.toNat < 128 → (isSpace c = true ↔ c.toNat ∈ [9, 10, 11, 12, 13, 28, 29, 30, 31, 32])
  upper_ascii : ∀ c, c.toNat < 128 → upper c = [c.toUpper]
  upper_minus : ∀ c, '-' ∈ upper c → c = '-'
  digit_ascii : ∀ c, c.toNat < 128 → digit c = if c.isDigit then some (c.toNat - '0'.toNat) else none

/-- No letter becomes a dash. -/
lemma toUpper_ne_dash {c : Char} (h : c.toUpper = '-') : c = '-' := by
  by_cases hlow : c.val ≥ 'a'.val ∧ c.val ≤ 'z'.val
  · have hup : c.toUpper = ⟨c.val + ('A'.val - 'a'.val), _⟩ := dif_pos hlow
    have hval := congrArg (·.val.toNat) (hup.symm.trans h)
    obtain ⟨hlo, hhi⟩ := hlow
    rw [ge_iff_le, UInt32.le_iff_toNat_le] at hlo
    rw [UInt32.le_iff_toNat_le] at hhi
    simp only [UInt32.toNat_add] at hval
    have h1 : 'a'.val.toNat = 97 := rfl
    have h2 : 'z'.val.toNat = 122 := rfl
    have h3 : ('A'.val - 'a'.val).toNat = 2 ^ 32 - 32 := rfl
    have h4 : '-'.val.toNat = 45 := rfl
    omega
  · have hup : c.toUpper = c := dif_neg hlow
    exact hup.symm.trans h

/-- The database with no character beyond ASCII. -/
@[reducible] def Unicode.ascii : Unicode where
  isSpace c := [9, 10, 11, 12, 13, 28, 29, 30, 31, 32].contains c.toNat
  upper c := [c.toUpper]
  digit c := if c.isDigit then some (c.toNat - '0'.toNat) else none
  isSpace_ascii _ _ := List.contains_iff_mem
  upper_ascii _ _ := rfl
  upper_minus _ h := toUpper_ne_dash (List.mem_singleton.mp h).symm
  digit_ascii _ _ := rfl

namespace Text

/-! ## Floats -/

/-- The value of a `float`. -/
inductive Fl where
  | nan
  | inf (neg : Bool)
  | fin (q : ℚ)

/-- The nearest float. -/
def Fl.ofRat (q : ℚ) : Fl :=
  let r := F64.roundBinary64 q
  if 2 ^ 1024 ≤ |r| then .inf (r < 0) else .fin r

/-- `-x`. -/
def Fl.neg : Fl → Fl
  | nan => nan
  | inf neg => inf !neg
  | fin q => fin (-q)

/-- `x * n` for a positive integer. -/
def Fl.mulNat (n : ℕ) : Fl → Fl
  | nan => nan
  | inf neg => inf neg
  | fin q => ofRat (q * n)

/-- `int(x)`, which raises for NaN and the infinities. -/
def Fl.toInt : Fl → Option ℤ
  | fin q => some (if 0 ≤ q then ⌊q⌋ else ⌈q⌉)
  | _ => none

/-- The float of a number below 2^53 is the number itself. -/
lemma ofRat_natCast {n : ℕ} (h : n < 2 ^ 53) : Fl.ofRat n = .fin n := by
  rw [Fl.ofRat, F64.roundBinary64_natCast h]
  refine if_neg (not_le.mpr ?_)
  rw [abs_of_nonneg (Nat.cast_nonneg n)]
  have hlt : (n : ℚ) < 2 ^ 53 := by exact_mod_cast h
  exact hlt.trans (pow_lt_pow_right₀ (by norm_num) (by norm_num))

/-- A float that is no negative number. -/
def Fl.Nonneg : Fl → Prop
  | fin q => 0 ≤ q
  | _ => True

lemma Fl.ofRat_nonneg {q : ℚ} (h : 0 ≤ q) : (Fl.ofRat q).Nonneg := by
  rw [Fl.ofRat]
  split
  · trivial
  · exact F64.roundBinary64_nonneg h

lemma Fl.Nonneg.mulNat {f : Fl} (h : f.Nonneg) (n : ℕ) : (f.mulNat n).Nonneg := by
  cases f with
  | nan => trivial
  | inf neg => trivial
  | fin q => exact Fl.ofRat_nonneg (mul_nonneg h (Nat.cast_nonneg n))

lemma Fl.Nonneg.toInt {f : Fl} (h : f.Nonneg) {z : ℤ} (hz : f.toInt = some z) : 0 ≤ z := by
  cases f with
  | nan => cases hz
  | inf neg => cases hz
  | fin q =>
    have hq : 0 ≤ q := h
    rw [Fl.toInt, if_pos hq] at hz
    cases hz
    exact Int.floor_nonneg.mpr hq

/-! ## Digits -/

/-- The number with these decimal digits. -/
def decimal (ds : List ℕ) : ℕ := ds.foldl (fun v d => 10 * v + d) 0

lemma decimal_toDigits (n : ℕ) : decimal ((Nat.toDigits 10 n).map fun c => c.toNat - '0'.toNat) = n := by
  rw [decimal, List.foldl_map, ← Nat.ofDigitChars_eq_foldl]
  exact Nat.ofDigitChars_ten_toDigits

lemma isDigit_ascii {c : Char} (h : c.isDigit = true) : c.toNat < 128 := by
  rw [Char.isDigit, Bool.and_eq_true, decide_eq_true_eq, decide_eq_true_eq] at h
  have hle : c.val.toNat ≤ '9'.val.toNat := h.2
  exact hle.trans_lt (by decide)

/-! ## Strings -/

variable [Unicode]

/-- `s.strip()`. -/
def strip (s : List Char) : List Char := (s.dropWhile Unicode.isSpace).rdropWhile Unicode.isSpace

/-- `s.upper()`. -/
def upper (s : List Char) : List Char := s.flatMap Unicode.upper

/-- `s.removesuffix(c)`. -/
def removeSuffix (c : Char) (s : List Char) : List Char := if s.getLast? = some c then s.dropLast else s

/-- `s.partition(c)`; the second component says whether `c` is in `s`. -/
def partition (c : Char) (s : List Char) : List Char × Bool × List Char :=
  (s.takeWhile (· ≠ c), s.contains c, (s.dropWhile (· ≠ c)).tail)

omit [Unicode] in
lemma partition_append {c : Char} {x : List Char} (h : c ∉ x) (y : List Char) :
    partition c (x ++ c :: y) = (x, true, y) := by
  have hall (d : Char) (hd : d ∈ x) : decide (d ≠ c) = true := decide_eq_true (by rintro rfl; exact h hd)
  simp only [partition, List.takeWhile_append_of_pos hall, List.dropWhile_append_of_pos hall]
  simp

omit [Unicode] in
/-- No piece contains the character that a text is split at. -/
lemma notMem_of_mem_splitOn {c : Char} {s w : List Char} (h : w ∈ s.splitOn c) : c ∉ w := by
  induction s generalizing w with
  | nil =>
    rw [List.splitOn_nil, List.mem_singleton] at h
    rw [h]
    exact List.not_mem_nil
  | cons d s ih =>
    rw [List.splitOn_cons_eq_if_modifyHead] at h
    split at h
    case isTrue =>
      obtain rfl | h := List.mem_cons.mp h
      · exact List.not_mem_nil
      · exact ih h
    case isFalse hd =>
      obtain ⟨v, vs, hvs⟩ := List.exists_cons_of_ne_nil (List.splitOn_ne_nil c s)
      rw [hvs, List.modifyHead_cons] at h
      obtain rfl | h := List.mem_cons.mp h
      · rw [List.mem_cons, not_or]
        exact ⟨fun he => hd (beq_iff_eq.mpr he.symm), ih (hvs ▸ List.mem_cons_self)⟩
      · exact ih (hvs ▸ List.mem_cons_of_mem v h)

/-! ## `float` -/

/-- `digit (["_"] digit)*`. -/
def digitPart : List Char → Option (List ℕ)
  | [] => none
  | [c] => (Unicode.digit c).map fun d => [d]
  | c :: '_' :: s => (Unicode.digit c).bind fun d => (digitPart s).map (d :: ·)
  | c :: s => (Unicode.digit c).bind fun d => (digitPart s).map (d :: ·)

/-- `digitPart` where it may be missing. -/
def optDigitPart : List Char → Option (List ℕ)
  | [] => some []
  | s => digitPart s

/-- `[digitpart] "." digitpart | digitpart ["."]`: the digits, and how many are behind the point. -/
def mantissa (s : List Char) : Option (List ℕ × ℕ) :=
  match partition '.' s with
  | (int, false, _) => (digitPart int).map fun ds => (ds, 0)
  | ([], true, frac) => (digitPart frac).map fun fs => (fs, fs.length)
  | (int, true, frac) => (digitPart int).bind fun ds => (optDigitPart frac).map fun fs => (ds ++ fs, fs.length)

/-- `[sign] digitpart`. -/
def signedDigits : List Char → Option ℤ
  | '-' :: s => (digitPart s).map fun ds => -(decimal ds : ℤ)
  | '+' :: s => (digitPart s).map fun ds => (decimal ds : ℤ)
  | s => (digitPart s).map fun ds => (decimal ds : ℤ)

/-- `number [exponent]`. -/
def number (s : List Char) : Option ℚ :=
  let isE (c : Char) : Bool := c = 'e' ∨ c = 'E'
  (mantissa (s.takeWhile fun c => !isE c)).bind fun (ds, point) =>
    match s.dropWhile fun c => !isE c with
    | [] => some ((decimal ds : ℚ) * 10 ^ (-(point : ℤ)))
    | _ :: exp => (signedDigits exp).map fun e => (decimal ds : ℚ) * 10 ^ (e - (point : ℤ))

/-- A float without its sign. -/
def absFloat (s : List Char) : Option Fl :=
  if s.map Char.toUpper ∈ ["INF".toList, "INFINITY".toList] then some (.inf false)
  else if s.map Char.toUpper = "NAN".toList then some .nan
  else (number s).map Fl.ofRat

/-- `float(s)`; `none` is the `ValueError`. -/
def float (s : List Char) : Option Fl :=
  match strip s with
  | '-' :: t => (absFloat t).map Fl.neg
  | '+' :: t => absFloat t
  | t => absFloat t

/-! ## Blanks -/

lemma mem_of_mem_strip {c : Char} {s : List Char} (h : c ∈ strip s) : c ∈ s :=
  (List.dropWhile_suffix _).subset ((List.rdropWhile_prefix _ _).subset h)

/-- A text without blanks at its ends stays as it is. -/
lemma strip_eq_self {s : List Char} (hhead : ∀ c ∈ s.head?, Unicode.isSpace c = false)
    (hlast : ∀ c ∈ s.getLast?, Unicode.isSpace c = false) : strip s = s := by
  cases s with
  | nil => rfl
  | cons c s =>
    rw [strip, List.dropWhile_cons_of_neg (by rw [hhead c rfl]; decide), List.rdropWhile_eq_self_iff]
    intro hne
    rw [hlast _ (List.getLast?_eq_some_getLast hne)]
    decide

/-- What is stripped has no blanks at its ends. -/
lemma strip_ends (s : List Char) : (∀ c ∈ (strip s).head?, Unicode.isSpace c = false) ∧
    ∀ c ∈ (strip s).getLast?, Unicode.isSpace c = false := by
  constructor
  · intro c hc
    have hpre : strip s <+: s.dropWhile Unicode.isSpace := List.rdropWhile_prefix _ _
    obtain ⟨t, ht⟩ := hpre
    cases hstrip : strip s with
    | nil =>
      rw [hstrip] at hc
      cases hc
    | cons d u =>
      rw [hstrip] at hc ht
      cases hc
      have hne : s.dropWhile Unicode.isSpace ≠ [] := by
        rw [← ht]
        exact List.cons_ne_nil _ _
      have hnot := List.head_dropWhile_not Unicode.isSpace hne
      simp only [← ht, List.cons_append, List.head_cons] at hnot
      exact hnot
  · intro c hc
    have hne : strip s ≠ [] := by
      rintro hnil
      rw [hnil] at hc
      cases hc
    rw [List.getLast?_eq_some_getLast hne] at hc
    cases hc
    exact Bool.eq_false_iff.mpr (List.rdropWhile_last_not _ _ hne)

lemma strip_strip (s : List Char) : strip (strip s) = strip s := strip_eq_self (strip_ends s).1 (strip_ends s).2

/-! ## Decimal texts -/

lemma isSpace_digit {c : Char} (h : c.isDigit = true) : Unicode.isSpace c = false := by
  rw [Bool.eq_false_iff, ne_eq, Unicode.isSpace_ascii c (isDigit_ascii h)]
  rw [Char.isDigit, Bool.and_eq_true, decide_eq_true_eq, decide_eq_true_eq] at h
  have hge : '0'.val.toNat ≤ c.val.toNat := h.1
  have h0 : '0'.val.toNat = 48 := rfl
  have hc : c.toNat = c.val.toNat := rfl
  simp only [List.mem_cons, List.not_mem_nil, or_false]
  omega

/-- A text of decimal digits is a digit part. -/
lemma digitPart_digits {s : List Char} (hne : s ≠ []) (h : ∀ c ∈ s, c.isDigit = true) :
    digitPart s = some (s.map fun c => c.toNat - '0'.toNat) := by
  have hdigit (c : Char) (hc : c.isDigit = true) : Unicode.digit c = some (c.toNat - '0'.toNat) := by
    rw [Unicode.digit_ascii c (isDigit_ascii hc), if_pos hc]
  induction s using digitPart.induct with
  | case1 => exact absurd rfl hne
  | case2 c =>
    rw [digitPart, hdigit c (h c List.mem_cons_self)]
    rfl
  | case3 c s ih => exact absurd (h '_' (by simp)) (by decide)
  | case4 c s hs hus ih =>
    rw [digitPart, hdigit c (h c List.mem_cons_self), ih hs fun d hd => h d (List.mem_cons_of_mem _ hd)]
    · rfl
    · exact hs
    · exact hus

/-- The digits of a number are read as the nearest float. -/
lemma float_digits (n : ℕ) : float (Nat.toDigits 10 n) = some (Fl.ofRat n) := by
  have hdigit (c : Char) (hc : c ∈ Nat.toDigits 10 n) : c.isDigit = true :=
    Nat.isDigit_of_mem_toDigits (by decide) (by decide) hc
  have hne : Nat.toDigits 10 n ≠ [] := Nat.toDigits_ne_nil
  have hdec := decimal_toDigits n
  generalize Nat.toDigits 10 n = s at *
  obtain ⟨c, t, rfl⟩ := List.exists_cons_of_ne_nil hne
  have hc := hdigit c List.mem_cons_self
  have hstrip : strip (c :: t) = c :: t := by
    refine strip_eq_self (fun d hd => isSpace_digit (hdigit d (List.mem_of_mem_head? hd))) fun d hd => ?_
    exact isSpace_digit (hdigit d (List.mem_of_mem_getLast? hd))
  have hother {d e : Char} (hd : d ∈ c :: t) (he : e.isDigit = false) : d ≠ e := by
    rintro rfl
    rw [hdigit d hd] at he
    cases he
  have hmant : mantissa (c :: t) = some ((c :: t).map fun c => c.toNat - '0'.toNat, 0) := by
    have hdot : (c :: t).contains '.' = false := by
      rw [List.contains_eq_mem, decide_eq_false_iff_not]
      exact fun h => hother h (by decide) rfl
    have hall : (c :: t).takeWhile (· ≠ '.') = c :: t := by
      rw [List.takeWhile_eq_self_iff]
      exact fun d hd => decide_eq_true (hother hd (by decide))
    simp only [mantissa, partition, hdot, hall, digitPart_digits hne hdigit, Option.map_some]
  have hnumber : number (c :: t) = some (n : ℚ) := by
    have hE (d : Char) (hd : d ∈ c :: t) : (!decide (d = 'e' ∨ d = 'E')) = true := by
      simp [hother hd (show 'e'.isDigit = false by decide), hother hd (show 'E'.isDigit = false by decide)]
    have htake : (c :: t).takeWhile (fun c => !decide (c = 'e' ∨ c = 'E')) = c :: t :=
      List.takeWhile_eq_self_iff.mpr hE
    have hdrop : (c :: t).dropWhile (fun c => !decide (c = 'e' ∨ c = 'E')) = [] :=
      List.dropWhile_eq_nil_iff.mpr hE
    simp only [number, htake, hdrop, hmant, Option.bind_some, hdec]
    simp
  have hI : c.toUpper = c := by
    refine dif_neg fun h => ?_
    rw [Char.isDigit, Bool.and_eq_true, decide_eq_true_eq, decide_eq_true_eq] at hc
    have hlow : 'a'.val.toNat ≤ c.val.toNat := h.1
    have hhigh : c.val.toNat ≤ '9'.val.toNat := hc.2
    exact absurd (hlow.trans hhigh) (by decide)
  have habs : absFloat (c :: t) = some (Fl.ofRat n) := by
    rw [absFloat, if_neg, if_neg, hnumber, Option.map_some]
    · rw [List.map_cons, hI]
      intro he
      exact hother List.mem_cons_self (by decide) (List.cons.inj he).1
    · rw [List.map_cons, hI]
      intro he
      obtain he | he := List.mem_pair.mp he
      · exact hother List.mem_cons_self (by decide) (List.cons.inj he).1
      · exact hother List.mem_cons_self (by decide) (List.cons.inj he).1
  rw [float, hstrip]
  split
  case h_1 t' he =>
    cases he
    exact absurd hc (by decide)
  case h_2 t' he =>
    cases he
    exact absurd hc (by decide)
  case h_3 => exact habs

/-! ## Signs -/

lemma number_nonneg {s : List Char} {q : ℚ} (h : number s = some q) : 0 ≤ q := by
  have hpow (n : ℕ) (e : ℤ) : (0 : ℚ) ≤ n * 10 ^ e := mul_nonneg (Nat.cast_nonneg n) (zpow_nonneg (by norm_num) e)
  obtain ⟨⟨ds, point⟩, -, hq⟩ := Option.bind_eq_some_iff.mp h
  dsimp only at hq
  split at hq
  · cases hq
    exact hpow _ _
  · obtain ⟨e, -, rfl⟩ := Option.map_eq_some_iff.mp hq
    exact hpow _ _

/-- A text without a minus sign is no negative number. -/
lemma float_nonneg {s : List Char} (hs : '-' ∉ s) {f : Fl} (h : float s = some f) : f.Nonneg := by
  have habs (t : List Char) (ht : absFloat t = some f) : f.Nonneg := by
    rw [absFloat] at ht
    split at ht
    · cases ht
      trivial
    split at ht
    · cases ht
      trivial
    · obtain ⟨q, hq, rfl⟩ := Option.map_eq_some_iff.mp ht
      exact Fl.ofRat_nonneg (number_nonneg hq)
  rw [float] at h
  split at h
  case h_1 t he =>
    refine absurd (mem_of_mem_strip ?_) hs
    rw [he]
    exact List.mem_cons_self
  case h_2 t _ => exact habs t h
  case h_3 => exact habs _ h

end Text
end Lib
