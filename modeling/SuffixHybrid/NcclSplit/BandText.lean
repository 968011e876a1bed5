import Mathlib.Data.Int.Order.Basic
import Mathlib.Data.String.Basic
import Mathlib.Tactic.IntervalCases
import SuffixHybrid.Lib.Except
import SuffixHybrid.Lib.Text
import SuffixHybrid.NcclSplit.Autotune

/-!
# The text of the bands

`bands_str` prints a band with its bounds in the largest units that divide them, and `parse_bands` reads it back
(`parseBands_bandsStr`). What `parse_bands` accepts it sorts and checks, so every accepted text gives bands that
it reads back (`parseBands_inv`). A negative bound prints a dash that the reader takes for the one between the
bounds (`negative_bound_unread`).
-/

namespace SuffixHybrid.NcclSplit
open Lib Text

/-- A band: from its lower bound up to its upper one, and its spec. -/
abbrev Band := ℤ × ℤ × String

/-- What `parse_bands` raises. -/
inductive BandError where
  | noFloat (s : List Char)
  | noInt
  | bad (item : List Char)
  | empty (item : List Char)
  | badSpec (spec : List Char)
  | overlapping (a b : Band)
deriving DecidableEq

/-- The factor of a unit. -/
def unitOf : Option Char → Option ℕ
  | some 'K' => some (2 ^ 10)
  | some 'M' => some (2 ^ 20)
  | some 'G' => some (2 ^ 30)
  | _ => none

/-- `HAR_SPECS`. -/
def HAR_SPECS : List String := ["har", "har1", "har2"]

/-- `fmt_size` of any integer. -/
def fmtInt (n : ℤ) : String :=
  if n ≥ INF then "inf"
  else if n ≠ 0 ∧ n % 2 ^ 30 = 0 then s!"{n / 2 ^ 30}G"
  else if n ≠ 0 ∧ n % 2 ^ 20 = 0 then s!"{n / 2 ^ 20}M"
  else if n ≠ 0 ∧ n % 2 ^ 10 = 0 then s!"{n / 2 ^ 10}K"
  else toString n

/-- `bands_str`. -/
def bandsStr (bands : List Band) : String :=
  String.intercalate "," (bands.map fun b => s!"{fmtInt b.1}-{fmtInt b.2.1}:{b.2.2}")

/-- The order of the tuples. -/
def bandLe (a b : Band) : Bool :=
  if a.1 ≠ b.1 then a.1 < b.1 else if a.2.1 ≠ b.2.1 then a.2.1 < b.2.1 else a.2.2 ≤ b.2.2

section
variable [Unicode]

/-- The unit at the end of a size, and what is before it. -/
def splitUnit (s : List Char) : List Char × ℕ :=
  match unitOf s.getLast? with
  | some u => (s.dropLast, u)
  | none => (s, 1)

/-- `parse_size`. -/
def parseSize (s : List Char) : Except BandError ℤ :=
  let s := removeSuffix 'I' (removeSuffix 'B' (upper (strip s)))
  if s = "INF".toList then .ok INF
  else
    match float (splitUnit s).1 with
    | none => .error (.noFloat (splitUnit s).1)
    | some x =>
      match (x.mulNat (splitUnit s).2).toInt with
      | none => .error .noInt
      | some n => .ok n

/-- `spec_env`. -/
def specEnv (spec : List Char) : Option (List (String × String)) :=
  if spec = "default".toList ∨ String.ofList spec ∈ HAR_SPECS then some []
  else
    let (algo, _, proto) := partition '/' spec
    if strip algo = [] then none
    else
      let protoEnv := if strip proto = [] then [] else [("NCCL_PROTO", String.ofList (strip proto))]
      some (("NCCL_ALGO", String.ofList (strip algo)) :: protoEnv)

/-- One item of `parse_bands`. -/
def parseBand (item : List Char) : Except BandError Band :=
  let (rng, _, spec) := partition ':' item
  let (lo, dash, hi) := partition '-' rng
  if dash = false ∨ strip spec = [] then .error (.bad item)
  else do
    let lo ← parseSize lo
    let hi ← parseSize hi
    if lo ≥ hi then .error (.empty item)
    else
      match specEnv (strip spec) with
      | none => .error (.badSpec (strip spec))
      | some _ => .ok (lo, hi, String.ofList (strip spec))

/-- The items of a text, without the empty ones. -/
def bandItems (text : String) : List (List Char) := ((text.toList.splitOn ',').map strip).filter (· ≠ [])

/-- `parse_bands`. -/
def parseBands (text : String) : Except BandError (List Band) := do
  let bands ← (bandItems text).mapM parseBand
  let bands := bands.mergeSort bandLe
  match (bands.zip bands.tail).find? fun p => p.1.2.1 > p.2.1 with
  | some (a, b) => .error (.overlapping a b)
  | none => .ok bands

end

/-! ## What is printed -/

/-- The characters of a printed bound. -/
def sizeChars : List Char := "0123456789KMGinf".toList

lemma isDigit_mem {c : Char} (h : c.isDigit = true) : c ∈ "0123456789".toList := by
  obtain ⟨hlo, hhi⟩ := Char.isDigit_iff_toNat.mp h
  change 48 ≤ c.toNat at hlo
  change c.toNat ≤ 57 at hhi
  rw [← Char.ofNat_toNat c]
  interval_cases c.toNat <;> decide

lemma unitOf_eq_some {c : Char} {u : ℕ} (h : unitOf (some c) = some u) : c ∈ ['K', 'M', 'G'] ∧ 0 < u := by
  unfold unitOf at h
  split at h
  case h_1 he => cases he; cases h; decide
  case h_2 he => cases he; cases h; decide
  case h_3 he => cases he; cases h; decide
  case h_4 => cases h

/-- The suffix of a size: none, or a unit. -/
def Suffix (s : List Char) (u : ℕ) : Prop := s = [] ∧ u = 1 ∨ ∃ c, s = [c] ∧ unitOf (some c) = some u

/-- A number is printed as a multiple of a unit. -/
lemma fmtInt_natCast {n : ℕ} (h : n < INF) : ∃ k u s, k * u = n ∧ (fmtInt n).toList = Nat.toDigits 10 k ++ s ∧
    Suffix s u := by
  have hlt : ¬(n : ℤ) ≥ INF := by exact_mod_cast h.not_ge
  have hprint (k : ℕ) : (toString (k : ℤ)).toList = Nat.toDigits 10 k := Nat.toList_repr
  have hunit (u : ℕ) (c : Char) (hc : unitOf (some c) = some u) {v : ℤ} (hv : v = u) (hmod : (n : ℤ) % v = 0) :
      ∃ k u s, k * u = n ∧ (toString ((n : ℤ) / v) ++ String.singleton c).toList = Nat.toDigits 10 k ++ s ∧
        Suffix s u := by
    subst hv
    refine ⟨n / u, u, [c], Nat.div_mul_cancel ?_, ?_, .inr ⟨c, rfl, hc⟩⟩
    · exact_mod_cast Int.dvd_of_emod_eq_zero hmod
    · rw [String.toList_append, String.toList_singleton, ← hprint, Int.natCast_div]
  rw [fmtInt, if_neg hlt]
  split_ifs with hG hM hK
  · exact hunit (2 ^ 30) 'G' rfl (by norm_num) hG.2
  · exact hunit (2 ^ 20) 'M' rfl (by norm_num) hM.2
  · exact hunit (2 ^ 10) 'K' rfl (by norm_num) hK.2
  · exact ⟨n, 1, [], mul_one n, by rw [hprint, List.append_nil], .inl ⟨rfl, rfl⟩⟩

/-- A bound that the printed text gives back. -/
def Readable (n : ℤ) : Prop := 0 ≤ n ∧ n < 2 ^ 53 ∨ n = INF

lemma mem_fmtInt {n : ℤ} (h : Readable n) : ∀ c ∈ (fmtInt n).toList, c ∈ sizeChars := by
  obtain ⟨hpos, hlt⟩ | rfl := h
  · lift n to ℕ using hpos
    have hinf : n < INF := by
      rw [INF]
      omega
    obtain ⟨k, u, s, -, hprint, hs⟩ := fmtInt_natCast hinf
    rw [hprint]
    intro c hc
    obtain hc | hc := List.mem_append.mp hc
    · exact (show "0123456789".toList ⊆ sizeChars by decide)
        (isDigit_mem (Nat.isDigit_of_mem_toDigits (by decide) (by decide) hc))
    · obtain ⟨rfl, -⟩ | ⟨d, rfl, hd⟩ := hs
      · cases hc
      · rw [List.mem_singleton.mp hc]
        exact (show ['K', 'M', 'G'] ⊆ sizeChars by decide) (unitOf_eq_some hd).1
  · rw [fmtInt, if_pos le_rfl]
    exact fun c hc => (show "inf".toList ⊆ sizeChars by decide) hc

lemma notMem_fmtInt {n : ℤ} (h : Readable n) {c : Char} (hc : c ∉ sizeChars) : c ∉ (fmtInt n).toList :=
  fun hmem => hc (mem_fmtInt h c hmem)

/-- What `bands_str` prints of a band. -/
def bandText (b : Band) : List Char := (fmtInt b.1).toList ++ '-' :: ((fmtInt b.2.1).toList ++ ':' :: b.2.2.toList)

lemma toList_bandsStr (bands : List Band) : (bandsStr bands).toList = [','].intercalate (bands.map bandText) := by
  rw [bandsStr, String.toList_intercalate, List.map_map]
  congr 1
  refine List.map_congr_left ?_
  intro b _
  change (fmtInt b.1 ++ "-" ++ fmtInt b.2.1 ++ ":" ++ b.2.2).toList = _
  simp [bandText]

/-! ## The order of the bands -/

/-- The bands in order, none empty and no two with a common size. -/
structure Ordered (bands : List Band) : Prop where
  sorted : bands.Pairwise fun a b => a.1 ≤ b.1
  lt : ∀ b ∈ bands, b.1 < b.2.1
  disjoint : bands.Pairwise fun a b => ∀ n, a.1 ≤ n → n < a.2.1 → b.1 ≤ n → b.2.1 ≤ n

lemma Ordered.apart {bands : List Band} (h : Ordered bands) : bands.Pairwise fun a b => a.2.1 ≤ b.1 := by
  refine ((List.pairwise_and_iff.mpr ⟨h.sorted, h.disjoint⟩).imp_of_mem ?_)
  rintro a b ha hb ⟨hle, hdis⟩
  by_contra hlt
  exact (h.lt b hb).not_ge (hdis b.1 hle (not_le.mp hlt) le_rfl)

lemma bandLe_iff {a b : Band} : bandLe a b = true ↔
    a.1 < b.1 ∨ a.1 = b.1 ∧ (a.2.1 < b.2.1 ∨ a.2.1 = b.2.1 ∧ a.2.2 ≤ b.2.2) := by
  unfold bandLe
  split_ifs with h1 h2
  · simp only [decide_eq_true_eq, h1, false_and, or_false]
  · push Not at h1
    simp [h1, h2]
  · push Not at h1 h2
    simp [h1, h2]

lemma bandLe_trans (a b c : Band) (hab : bandLe a b = true) (hbc : bandLe b c = true) : bandLe a c = true := by
  rw [bandLe_iff] at *
  obtain hab | ⟨hab, hab' | ⟨hab', hs⟩⟩ := hab <;> obtain hbc | ⟨hbc, hbc' | ⟨hbc', ht⟩⟩ := hbc
  case inr.inr.inr.inr => exact .inr ⟨hab.trans hbc, .inr ⟨hab'.trans hbc', hs.trans ht⟩⟩
  all_goals omega

lemma bandLe_total (a b : Band) : (bandLe a b || bandLe b a) = true := by
  rw [Bool.or_eq_true, bandLe_iff, bandLe_iff]
  obtain h1 | h1 | h1 := lt_trichotomy a.1 b.1
  · exact .inl (.inl h1)
  · obtain h2 | h2 | h2 := lt_trichotomy a.2.1 b.2.1
    · exact .inl (.inr ⟨h1, .inl h2⟩)
    · exact (le_total a.2.2 b.2.2).imp (fun h => .inr ⟨h1, .inr ⟨h2, h⟩⟩) fun h =>
        .inr ⟨h1.symm, .inr ⟨h2.symm, h⟩⟩
    · exact .inr (.inr ⟨h1.symm, .inl h2⟩)
  · exact .inr (.inl h1)

/-- In a sorted list it is enough to compare neighbours. -/
lemma apart_of_isChain {bands : List Band} (hsorted : bands.Pairwise fun a b => a.1 ≤ b.1)
    (hchain : bands.IsChain fun a b => a.2.1 ≤ b.1) : bands.Pairwise fun a b => a.2.1 ≤ b.1 := by
  induction bands with
  | nil => exact .nil
  | cons a bands ih =>
    refine List.pairwise_cons.mpr ⟨?_, ih hsorted.of_cons hchain.tail⟩
    cases bands with
    | nil =>
      intro c hc
      cases hc
    | cons b bands =>
      have hab := (List.isChain_cons_cons.mp hchain).1
      intro c hc
      obtain rfl | hc := List.mem_cons.mp hc
      · exact hab
      · exact hab.trans ((List.pairwise_cons.mp hsorted.of_cons).1 c hc)

lemma forall_zip_tail {α : Type} {R : α → α → Prop} {l : List α} :
    (∀ p ∈ l.zip l.tail, R p.1 p.2) ↔ l.IsChain R := by
  induction l with
  | nil => simp
  | cons a l ih =>
    cases l with
    | nil => simp
    | cons b l =>
      rw [List.isChain_cons_cons, ← ih, List.tail_cons, List.tail_cons, List.zip_cons_cons, List.forall_mem_cons]

section
variable [Unicode]

lemma isSpace_sizeChar {c : Char} (h : c ∈ '-' :: sizeChars) : Unicode.isSpace c = false := by
  have hascii : ∀ c ∈ '-' :: sizeChars, c.toNat < 128 ∧ c.toNat ∉ [9, 10, 11, 12, 13, 28, 29, 30, 31, 32] := by
    unfold sizeChars
    simp
  obtain ⟨hlt, hno⟩ := hascii c h
  rw [Bool.eq_false_iff, ne_eq, Unicode.isSpace_ascii c hlt]
  exact hno

lemma strip_sizeChars {s : List Char} (h : ∀ c ∈ s, c ∈ sizeChars) : strip s = s :=
  strip_eq_self (fun c hc => isSpace_sizeChar (List.mem_cons_of_mem _ (h c (List.mem_of_mem_head? hc))))
    fun c hc => isSpace_sizeChar (List.mem_cons_of_mem _ (h c (List.mem_of_mem_getLast? hc)))

lemma upper_eq_self {s : List Char} (h : ∀ c ∈ s, c ∈ "0123456789KMG".toList) : upper s = s := by
  have hup : ∀ c ∈ "0123456789KMG".toList, c.toNat < 128 ∧ c.toUpper = c := by simp
  induction s with
  | nil => rfl
  | cons c s ih =>
    obtain ⟨hlt, hc⟩ := hup c (h c List.mem_cons_self)
    rw [upper, List.flatMap_cons, Unicode.upper_ascii c hlt, hc]
    exact congrArg (c :: ·) (ih fun d hd => h d (List.mem_cons_of_mem _ hd))

/-- A size is read as its digits times its unit. -/
lemma parseSize_eq {t s : List Char} {u : ℕ} (hne : t ≠ []) (ht : ∀ c ∈ t, c.isDigit = true) (hs : Suffix s u)
    {x : Fl} (hx : float t = some x) {n : ℤ} (hn : (x.mulNat u).toInt = some n) : parseSize (t ++ s) = .ok n := by
  have hmem : ∀ c ∈ t ++ s, c ∈ "0123456789KMG".toList := by
    intro c hc
    obtain hc | hc := List.mem_append.mp hc
    · exact (show "0123456789".toList ⊆ "0123456789KMG".toList by decide) (isDigit_mem (ht c hc))
    · obtain ⟨rfl, -⟩ | ⟨d, rfl, hd⟩ := hs
      · cases hc
      · rw [List.mem_singleton.mp hc]
        exact (show ['K', 'M', 'G'] ⊆ "0123456789KMG".toList by decide) (unitOf_eq_some hd).1
  have hstrip : strip (t ++ s) = t ++ s := strip_sizeChars fun c hc =>
    (show "0123456789KMG".toList ⊆ sizeChars by decide) (hmem c hc)
  have hsuffix (d : Char) (hd : d ∉ "0123456789KMG".toList) : removeSuffix d (t ++ s) = t ++ s :=
    if_neg fun he => hd (hmem d (List.mem_of_mem_getLast? he))
  have hinf : t ++ s ≠ "INF".toList := by
    intro he
    have hI : 'I' ∈ t ++ s := by
      rw [he]
      decide
    exact absurd (hmem _ hI) (by decide)
  have hunit : splitUnit (t ++ s) = (t, u) := by
    rw [splitUnit]
    obtain ⟨rfl, rfl⟩ | ⟨d, rfl, hd⟩ := hs
    · have hnone : unitOf t.getLast? = none := by
        rw [List.getLast?_eq_some_getLast hne, Option.eq_none_iff_forall_not_mem]
        intro v hv
        have hdigit : ∀ c ∈ "0123456789".toList, c ∉ ['K', 'M', 'G'] := by simp
        exact hdigit _ (isDigit_mem (ht _ (List.getLast_mem hne))) (unitOf_eq_some hv).1
      rw [List.append_nil, hnone]
    · rw [List.getLast?_concat, hd, List.dropLast_concat]
  rw [parseSize, hstrip, upper_eq_self hmem, hsuffix 'B' (by decide), hsuffix 'I' (by decide), if_neg hinf, hunit, hx]
  dsimp only
  rw [hn]

lemma parseSize_digits {k u : ℕ} {s : List Char} (hs : Suffix s u) (hlt : k * u < 2 ^ 53) :
    parseSize (Nat.toDigits 10 k ++ s) = .ok (k * u : ℕ) := by
  have hpos : 0 < u := by
    obtain ⟨-, rfl⟩ | ⟨c, -, hc⟩ := hs
    · exact Nat.one_pos
    · exact (unitOf_eq_some hc).2
  have hk : k < 2 ^ 53 := (Nat.le_mul_of_pos_right k hpos).trans_lt hlt
  have hmul : ((Fl.fin k).mulNat u).toInt = some ((k * u : ℕ) : ℤ) := by
    rw [Fl.mulNat, ← Nat.cast_mul, ofRat_natCast hlt, Fl.toInt, if_pos (Nat.cast_nonneg _), Int.floor_natCast]
  refine parseSize_eq Nat.toDigits_ne_nil (fun c => Nat.isDigit_of_mem_toDigits (by decide) (by decide)) hs ?_ hmul
  rw [float_digits, ofRat_natCast hk]

/-- A printed bound is read back. -/
lemma parseSize_fmtInt {n : ℤ} (h : Readable n) : parseSize (fmtInt n).toList = .ok n := by
  obtain ⟨hpos, hlt⟩ | rfl := h
  · lift n to ℕ using hpos
    have hinf : n < INF := by
      rw [INF]
      omega
    obtain ⟨k, u, s, rfl, hprint, hs⟩ := fmtInt_natCast hinf
    rw [hprint]
    exact parseSize_digits hs (by exact_mod_cast hlt)
  · have hascii : ∀ c ∈ "inf".toList, Unicode.upper c = [c.toUpper] := fun c hc =>
      Unicode.upper_ascii c ((show ∀ c ∈ "inf".toList, c.toNat < 128 by simp) c hc)
    have hup : upper "inf".toList = "INF".toList := by
      rw [upper, List.flatMap_congr hascii]
      decide
    have hinf : "inf".toList ⊆ sizeChars := by decide
    rw [fmtInt, if_pos le_rfl, parseSize, strip_sizeChars hinf, hup]
    rfl

/-- A spec that the printed text gives back. -/
def SpecOk (spec : String) : Prop := ',' ∉ spec.toList ∧ strip spec.toList = spec.toList ∧ (specEnv spec.toList).isSome

/-- A band whose parts the printed text gives back. -/
structure Printable (b : Band) : Prop where
  lo : Readable b.1
  hi : Readable b.2.1
  lt : b.1 < b.2.1
  spec : SpecOk b.2.2

namespace Printable
variable {b : Band}

lemma spec_ne (h : Printable b) : b.2.2.toList ≠ [] := by
  intro hnil
  have hsome := h.spec.2.2
  rw [hnil, specEnv, if_neg (by decide)] at hsome
  exact Bool.false_ne_true hsome

lemma comma (h : Printable b) : ',' ∉ bandText b := by
  rw [bandText]
  simp only [List.mem_append, List.mem_cons, not_or]
  exact ⟨notMem_fmtInt h.lo (by decide), by decide, notMem_fmtInt h.hi (by decide), by decide, h.spec.1⟩

lemma strip_bandText (h : Printable b) : strip (bandText b) = bandText b := by
  refine strip_eq_self (fun c hc => ?_) fun c hc => ?_
  · rw [bandText, List.head?_append, Option.mem_def, Option.or_eq_some_iff] at hc
    obtain hc | ⟨-, hc⟩ := hc
    · exact isSpace_sizeChar (List.mem_cons_of_mem _ (mem_fmtInt h.lo c (List.mem_of_mem_head? hc)))
    · cases hc
      exact isSpace_sizeChar List.mem_cons_self
  · have hends := strip_ends b.2.2.toList
    rw [h.spec.2.1] at hends
    rw [bandText, List.getLast?_append_of_ne_nil _ (List.cons_ne_nil _ _),
      List.getLast?_cons_of_ne_nil (List.append_ne_nil_of_right_ne_nil _ (List.cons_ne_nil _ _)),
      List.getLast?_append_of_ne_nil _ (List.cons_ne_nil _ _), List.getLast?_cons_of_ne_nil h.spec_ne] at hc
    exact hends.2 c hc

lemma parseBand_bandText (h : Printable b) : parseBand (bandText b) = .ok b := by
  have hcolon : ':' ∉ (fmtInt b.1).toList ++ '-' :: (fmtInt b.2.1).toList := by
    simp only [List.mem_append, List.mem_cons, not_or]
    exact ⟨notMem_fmtInt h.lo (by decide), by decide, notMem_fmtInt h.hi (by decide)⟩
  have hitem : partition ':' (bandText b) = ((fmtInt b.1).toList ++ '-' :: (fmtInt b.2.1).toList, true, b.2.2.toList) := by
    rw [← partition_append hcolon, bandText, List.append_assoc, List.cons_append]
  rw [parseBand, hitem]
  dsimp only
  rw [partition_append (notMem_fmtInt h.lo (by decide))]
  dsimp only
  rw [h.spec.2.1, if_neg (by simp [h.spec_ne]), parseSize_fmtInt h.lo, parseSize_fmtInt h.hi]
  change (if b.1 ≥ b.2.1 then _ else _) = _
  obtain ⟨env, henv⟩ := Option.isSome_iff_exists.mp h.spec.2.2
  rw [if_neg h.lt.not_ge, henv]
  dsimp only
  rw [String.ofList_toList]

end Printable

lemma bandItems_bandsStr {bands : List Band} (hprint : ∀ b ∈ bands, Printable b) :
    bandItems (bandsStr bands) = bands.map bandText := by
  rw [bandItems, toList_bandsStr]
  cases bands with
  | nil => rfl
  | cons b bands =>
    rw [List.splitOn_intercalate _ _ (by simp)]
    · have hstrip : ((b :: bands).map bandText).map strip = (b :: bands).map bandText := by
        rw [List.map_map]
        exact List.map_congr_left fun b hb => (hprint b hb).strip_bandText
      rw [hstrip, List.filter_eq_self]
      rintro t ht
      obtain ⟨b, -, rfl⟩ := List.mem_map.mp ht
      rw [bandText]
      simp
    · rintro t ht
      obtain ⟨b, hb, rfl⟩ := List.mem_map.mp ht
      exact (hprint b hb).comma

/-- What `parse_bands` accepts. -/
lemma parseBands_eq_ok {text : String} {bands : List Band} : parseBands text = .ok bands ↔
    ∃ bs, (bandItems text).mapM parseBand = .ok bs ∧ bs.mergeSort bandLe = bands ∧
      bands.IsChain fun a b => a.2.1 ≤ b.1 := by
  have hnone (l : List Band) : ((l.zip l.tail).find? fun p => p.1.2.1 > p.2.1) = none ↔
      l.IsChain fun a b => a.2.1 ≤ b.1 := by
    rw [List.find?_eq_none, ← forall_zip_tail]
    refine forall₂_congr fun p _ => ?_
    rw [decide_eq_true_eq, not_lt]
  rw [parseBands, bind_eq_ok]
  refine exists_congr fun bs => and_congr_right' ?_
  dsimp only
  split
  case h_1 a b hsome =>
    refine ⟨nofun, ?_⟩
    rintro ⟨rfl, hchain⟩
    rw [(hnone _).mpr hchain] at hsome
    cases hsome
  case h_2 hfind =>
    constructor
    · intro h
      cases h
      exact ⟨rfl, (hnone _).mp hfind⟩
    · rintro ⟨rfl, -⟩
      rfl

lemma parseBands_bandsStr {bands : List Band} (h : Ordered bands) (hprint : ∀ b ∈ bands, Printable b) :
    parseBands (bandsStr bands) = .ok bands := by
  refine parseBands_eq_ok.mpr ⟨bands, ?_, List.mergeSort_of_pairwise (h.apart.imp_of_mem ?_), h.apart.isChain⟩
  · rw [bandItems_bandsStr hprint, mapM_eq_ok, List.forall₂_map_left_iff, List.forall₂_same]
    exact fun b hb => (hprint b hb).parseBand_bandText
  · intro a b ha _ hle
    exact bandLe_iff.mpr (.inl ((h.lt a ha).trans_le hle))

/-- A text without a dash is no negative size. -/
lemma parseSize_nonneg {s : List Char} (hs : '-' ∉ s) {n : ℤ} (h : parseSize s = .ok n) : 0 ≤ n := by
  have hsuffix {c : Char} {t : List Char} (ht : '-' ∉ t) : '-' ∉ removeSuffix c t := by
    rw [removeSuffix]
    split
    · exact fun h => ht (List.dropLast_subset _ h)
    · exact ht
  have hup : '-' ∉ upper (strip s) := by
    intro hmem
    obtain ⟨c, hc, hdash⟩ := List.mem_flatMap.mp hmem
    rw [Unicode.upper_minus c hdash] at hc
    exact hs (mem_of_mem_strip hc)
  have hdash := hsuffix (c := 'I') (hsuffix (c := 'B') hup)
  rw [parseSize] at h
  generalize removeSuffix 'I' (removeSuffix 'B' (upper (strip s))) = t at h hdash
  have hbody : '-' ∉ (splitUnit t).1 := by
    rw [splitUnit]
    split
    · exact fun h => hdash (List.dropLast_subset _ h)
    · exact hdash
  split at h
  case isTrue =>
    cases h
    exact Int.natCast_nonneg _
  case isFalse =>
    split at h
    case h_1 => cases h
    case h_2 x hx =>
      split at h
      case h_1 => cases h
      case h_2 m hm =>
        cases h
        exact ((float_nonneg hbody hx).mulNat _).toInt hm

/-- What is known of a band that `parse_bands` has read. -/
structure Read (b : Band) : Prop where
  nonneg : 0 ≤ b.1
  lt : b.1 < b.2.1
  spec : SpecOk b.2.2

lemma parseBand_read {item : List Char} (hitem : ',' ∉ item) {b : Band} (h : parseBand item = .ok b) : Read b := by
  rw [parseBand] at h
  dsimp only at h
  split at h
  case isTrue => cases h
  case isFalse =>
    obtain ⟨lo, hlo, h⟩ := bind_eq_ok.mp h
    obtain ⟨hi, hhi, h⟩ := bind_eq_ok.mp h
    split at h
    case isTrue => cases h
    case isFalse hlt =>
      split at h
      case h_1 => cases h
      case h_2 env henv =>
        cases h
        refine ⟨parseSize_nonneg ?_ hlo, not_le.mp hlt, ?_, ?_, ?_⟩
        · exact fun hmem => absurd (List.mem_takeWhile_imp hmem) (by decide)
        · rw [String.toList_ofList]
          exact fun hmem => hitem ((List.dropWhile_suffix _).subset (List.mem_of_mem_tail (mem_of_mem_strip hmem)))
        · rw [String.toList_ofList, strip_strip]
        · rw [String.toList_ofList, henv]
          rfl

/-- The bands that `parse_bands` returns. -/
lemma parseBands_inv {text : String} {bands : List Band} (h : parseBands text = .ok bands) :
    Ordered bands ∧ ∀ b ∈ bands, Read b := by
  obtain ⟨bs, hread, rfl, hchain⟩ := parseBands_eq_ok.mp h
  have hall : ∀ b ∈ bs.mergeSort bandLe, Read b := by
    intro b hb
    rw [(List.mergeSort_perm bs bandLe).mem_iff] at hb
    obtain ⟨item, hitem, hb⟩ := exists_of_mem_mapM hread hb
    obtain ⟨t, ht, rfl⟩ := List.mem_map.mp (List.mem_of_mem_filter hitem)
    exact parseBand_read (fun h => notMem_of_mem_splitOn ht (mem_of_mem_strip h)) hb
  have hsorted := List.pairwise_mergeSort bandLe_trans bandLe_total bs
  generalize bs.mergeSort bandLe = bands at *
  have hle : bands.Pairwise fun a b => a.1 ≤ b.1 := by
    refine hsorted.imp fun {a b} hab => ?_
    have := bandLe_iff.mp hab
    omega
  refine ⟨⟨hle, fun b hb => (hall b hb).lt, (apart_of_isChain hle hchain).imp fun {a b} hab => ?_⟩, hall⟩
  intro n _ hn hb
  exact absurd hn (hab.trans hb).not_gt

/-- The bands of a list and of a text survive printing and reading. -/
theorem bands_round_trip :
    (∀ bands, Ordered bands → (∀ b ∈ bands, Readable b.1 ∧ Readable b.2.1 ∧ SpecOk b.2.2) →
      parseBands (bandsStr bands) = .ok bands) ∧
    ∀ text bands, parseBands text = .ok bands → Ordered bands ∧
      ((∀ b ∈ bands, (b.1 < 2 ^ 53 ∨ b.1 = INF) ∧ (b.2.1 < 2 ^ 53 ∨ b.2.1 = INF)) →
        parseBands (bandsStr bands) = .ok bands) := by
  have hprint (bands) (h : Ordered bands)
      (hread : ∀ b ∈ bands, Readable b.1 ∧ Readable b.2.1 ∧ SpecOk b.2.2) : parseBands (bandsStr bands) = .ok bands :=
    parseBands_bandsStr h fun b hb => ⟨(hread b hb).1, (hread b hb).2.1, h.lt b hb, (hread b hb).2.2⟩
  refine ⟨hprint, ?_⟩
  intro text bands htext
  obtain ⟨hord, hread⟩ := parseBands_inv htext
  refine ⟨hord, fun hbound => hprint bands hord fun b hb => ?_⟩
  obtain ⟨hlo, hhi⟩ := hbound b hb
  have hpos := (hread b hb).nonneg
  exact ⟨hlo.imp_left fun h => ⟨hpos, h⟩, hhi.imp_left fun h => ⟨hpos.trans (hord.lt b hb).le, h⟩, (hread b hb).spec⟩

end

/-- Two bands with a gap between them, one with a colon in its spec. -/
theorem bands_round_trip_tree :
    let bands : List Band := [(0, 1536, "allreduce:tree/LL"), (2 ^ 14, INF, "default")]
    @parseBands Unicode.ascii (bandsStr bands) = .ok bands := by
  intro bands
  let _ := Unicode.ascii
  have hord : Ordered bands := by
    refine ⟨by decide, by decide, List.pairwise_pair.mpr ?_⟩
    intro n _ hn hb
    exact absurd (hn.trans_le (by decide)) hb.not_gt
  have hread : ∀ b ∈ bands, Readable b.1 ∧ Readable b.2.1 ∧ SpecOk b.2.2 := by
    refine List.forall_mem_cons.mpr ⟨⟨?_, ?_, ?_⟩, List.forall_mem_singleton.mpr ⟨?_, .inr rfl, ?_⟩⟩
    · exact .inl (by decide)
    · exact .inl (by decide)
    · exact ⟨by decide, by decide, by decide⟩
    · exact .inl (by decide)
    · exact ⟨by decide, by decide, by decide⟩
  exact (bands_round_trip.2 _ bands (bands_round_trip.1 bands hord hread)).2 (by decide)

/-- A band with a negative lower bound is not read back. -/
theorem negative_bound_unread :
    let bands : List Band := [(-5, 10, "default")]
    Ordered bands ∧ (∀ b ∈ bands, b.1 < 2 ^ 53 ∧ b.2.1 < 2 ^ 53 ∧ @SpecOk Unicode.ascii b.2.2) ∧
      @parseBands Unicode.ascii (bandsStr bands) = .error (.noFloat []) := by
  have hord : Ordered [(-5, 10, "default")] := ⟨by decide, by decide, List.pairwise_singleton _ _⟩
  have hitems : @bandItems Unicode.ascii (bandsStr [(-5, 10, "default")]) = ["-5-10:default".toList] := by decide
  have hband : @parseBand Unicode.ascii "-5-10:default".toList = .error (.noFloat []) := rfl
  have hparse : @parseBands Unicode.ascii (bandsStr [(-5, 10, "default")]) = .error (.noFloat []) := by
    unfold parseBands
    rw [hitems, List.mapM_cons, hband]
    rfl
  have hspec : @SpecOk Unicode.ascii "default" := ⟨by decide, by decide, by decide⟩
  exact ⟨hord, List.forall_mem_singleton.mpr ⟨by decide, by decide, hspec⟩, hparse⟩

end SuffixHybrid.NcclSplit
