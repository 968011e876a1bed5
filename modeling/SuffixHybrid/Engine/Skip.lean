import Mathlib.Algebra.Order.Field.Basic
import Mathlib.Data.Rat.Cast.Order
import SuffixHybrid.Engine.Basic
import SuffixHybrid.Engine.Naive

/-!
# The dominance skip

`Engine::run` leaves the n-gram scan out where the draft of the cache wins against every n-gram of the right
length. `draftAlways` scans whenever n-grams are on. In exact arithmetic both give the same drafts and the same
counters.
-/

namespace SuffixHybrid
open Lib

namespace Engine

section Always
variable [F64]

/-- The n-gram lookup of a row, not skipped. -/
def lookupAlways (e : Engine) (context : List Token) (cap : ℕ) : Option (List Token × ℚ) :=
  if e.useNgram = true then ngram context e.ngramMin e.ngramMax cap e.ngramWindow else some ([], 0)

/-- The draft of a row by score times length, ties to the draft of the cache. -/
def choose (e : Engine) (suffix : List Token) (score : ℚ) (matched : ℕ) (ng : List Token) (ngScore : ℚ) :
    List Token × Engine :=
  if !suffix.isEmpty ∧ F64.mul score (F64.ofNat suffix.length) ≥ F64.mul ngScore (F64.ofNat ng.length) then
    (suffix, { e with
      suffixProposals := e.suffixProposals + 1
      matchSum := e.matchSum + matched
      proposed := e.proposed + suffix.length })
  else
    (ng, { e with
      ngramProposals := e.ngramProposals + if ng.isEmpty then 0 else 1
      proposed := e.proposed + ng.length })

/-- The draft of a row where the scan is not skipped. -/
def draftAlways (e : Engine) (context sampled : List Token) : Option (List Token × Engine) :=
  let cap := min e.k (e.maxModelLen - context.length)
  if sampled.isEmpty = true ∨ cap = 0 then some ([], e)
  else do
    let (suffix, score, matched) ← e.cache.speculate context cap
    let (ng, ngScore) ← e.lookupAlways context cap
    some (e.choose suffix score matched ng ngScore)

/-- The draft loop where no scan is skipped. -/
def draftsAlways : List (List Token × List Token) → Engine → Option (List (List Token) × Engine)
  | [], e => some ([], e)
  | (context, sampled) :: rest, e => do
    let (toks, e) ← e.draftAlways context sampled
    let (result, e) ← draftsAlways rest e
    some (toks :: result, e)

lemma draft_eq_choose (e : Engine) (context sampled : List Token) :
    e.draft context sampled =
      (let cap := min e.k (e.maxModelLen - context.length)
      if sampled.isEmpty = true ∨ cap = 0 then some ([], e)
      else do
        let (suffix, score, matched) ← e.cache.speculate context cap
        let (ng, ngScore) ← e.lookupNgram context suffix score cap
        some (e.choose suffix score matched ng ngScore)) := by
  unfold draft choose
  dsimp only
  split
  · rfl
  · refine congrArg _ (funext fun r => congrArg _ (funext fun r' => ?_))
    split
    · rfl
    · rfl

end Always

/-! ## The ceiling -/

/-- The score of an order grows with the order. -/
lemma score_le {n m : ℕ} (h : n ≤ m) : (n : ℚ) / (n + 1 : ℕ) ≤ (m : ℚ) / (m + 1 : ℕ) := by
  have hn : (0 : ℚ) < (n + 1 : ℕ) := Nat.cast_pos.mpr n.succ_pos
  have hm : (0 : ℚ) < (m + 1 : ℕ) := Nat.cast_pos.mpr m.succ_pos
  rw [div_le_div_iff₀ hn hm, ← Nat.cast_mul, ← Nat.cast_mul, Nat.cast_le, Nat.mul_succ, Nat.mul_succ,
    Nat.mul_comm m n]
  exact Nat.add_le_add_left h _

/-- What `ngram` gives: an order within the bounds and at most `cap` tokens. -/
lemma naive_bounds (context : List Token) (lo hi cap window : ℕ) :
    (@naive F64.exact context lo hi cap window).1.length ≤ cap ∧
      ∃ n ≤ hi, (@naive F64.exact context lo hi cap window).2 = (n : ℚ) / (n + 1 : ℕ) := by
  have hzero : ∃ n ≤ hi, (0 : ℚ) = (n : ℚ) / (n + 1 : ℕ) := ⟨0, Nat.zero_le hi, by rw [Nat.cast_zero, zero_div]⟩
  by_cases hcap : cap = 0
  · unfold naive
    rw [if_pos hcap]
    exact ⟨Nat.zero_le _, hzero⟩
  · rw [@naive_eq F64.exact _ _ _ _ _ hcap]
    cases hpick : longestOf context window
        (List.range' lo (min hi (context.length - 1) + 1 - lo)).reverse with
    | none => exact ⟨Nat.zero_le _, hzero⟩
    | some p =>
      have hdesc : (List.range' lo (min hi (context.length - 1) + 1 - lo)).reverse.Pairwise (· > ·) :=
        List.pairwise_reverse.mpr List.pairwise_lt_range'
      obtain ⟨hmem, _, _⟩ := (longestOf_eq_some hdesc).mp hpick
      have hn := List.mem_range'_1.mp (List.mem_reverse.mp hmem)
      refine ⟨?_, p.1, by omega, rfl⟩
      unfold continuation
      rw [List.length_take]
      omega

/-- No n-gram beats the ceiling. -/
lemma naive_le_ceiling (context : List Token) (lo hi cap window : ℕ) :
    (@naive F64.exact context lo hi cap window).2 * ((@naive F64.exact context lo hi cap window).1.length : ℚ) ≤
      (hi : ℚ) / (hi + 1 : ℕ) * cap := by
  obtain ⟨hlen, n, hn, hscore⟩ := naive_bounds context lo hi cap window
  have hhi : (0 : ℚ) ≤ (hi : ℚ) / (hi + 1 : ℕ) := div_nonneg (Nat.cast_nonneg _) (Nat.cast_nonneg _)
  rw [hscore]
  exact mul_le_mul (score_le hn) (Nat.cast_le.mpr hlen) (Nat.cast_nonneg _) hhi

/-- A draft that reaches the ceiling is not empty, and wins with and without n-gram. -/
lemma choose_of_dominated {e : Engine} (hmax : 1 ≤ e.ngramMax) {cap : ℕ} (hcap : cap ≠ 0) {suffix ng : List Token}
    {score ngScore : ℚ} (matched : ℕ)
    (hdom : (e.ngramMax : ℚ) / (e.ngramMax + 1 : ℕ) * cap ≤ score * suffix.length)
    (hng : ngScore * ng.length ≤ (e.ngramMax : ℚ) / (e.ngramMax + 1 : ℕ) * cap) :
    @choose F64.exact e suffix score matched [] 0 = @choose F64.exact e suffix score matched ng ngScore := by
  have hpos : (0 : ℚ) < (e.ngramMax : ℚ) / (e.ngramMax + 1 : ℕ) * cap :=
    mul_pos (div_pos (Nat.cast_pos.mpr hmax) (Nat.cast_pos.mpr e.ngramMax.succ_pos))
      (Nat.cast_pos.mpr (Nat.pos_of_ne_zero hcap))
  have hne : (!suffix.isEmpty) = true := by
    cases suffix with
    | nil =>
      rw [List.length_nil, Nat.cast_zero, mul_zero] at hdom
      exact absurd hdom (not_le.mpr hpos)
    | cons a l => rfl
  have hwin : (0 : ℚ) * (([] : List Token).length : ℚ) ≤ score * suffix.length := by
    rw [zero_mul]
    exact hpos.le.trans hdom
  have hwin' : ngScore * ng.length ≤ score * suffix.length := hng.trans hdom
  unfold choose
  exact (if_pos ⟨hne, hwin⟩).trans (if_pos ⟨hne, hwin'⟩).symm

/-- A row. -/
lemma draft_eq_always {e : Engine} (hmin : 1 ≤ e.ngramMin) (hle : e.ngramMin ≤ e.ngramMax)
    (context sampled : List Token) :
    @draft F64.exact e context sampled = @draftAlways F64.exact e context sampled := by
  rw [@draft_eq_choose F64.exact]
  unfold draftAlways
  dsimp only
  split
  case isTrue => rfl
  case isFalse hcap =>
    refine congrArg _ (funext fun ⟨suffix, score, matched⟩ => ?_)
    dsimp only
    have hcap : min e.k (e.maxModelLen - context.length) ≠ 0 := fun h => hcap (.inr h)
    by_cases hlook : e.useNgram = true ∧ score * (suffix.length : ℚ) <
        (e.ngramMax : ℚ) / (e.ngramMax + 1 : ℕ) * (min e.k (e.maxModelLen - context.length) : ℕ)
    · have hsame : @lookupNgram F64.exact e context suffix score (min e.k (e.maxModelLen - context.length)) =
          @lookupAlways F64.exact e context (min e.k (e.maxModelLen - context.length)) :=
        (if_pos hlook).trans (if_pos hlook.1).symm
      rw [hsame]
    · have hskip : @lookupNgram F64.exact e context suffix score (min e.k (e.maxModelLen - context.length)) =
          some ([], 0) := if_neg hlook
      rw [hskip]
      unfold lookupAlways
      by_cases huse : e.useNgram = true
      · rw [if_pos huse, @ngram_eq_naive F64.exact context _ hmin]
        refine congrArg some (choose_of_dominated (hmin.trans hle) hcap matched ?_ ?_)
        · exact not_lt.mp fun hlt => hlook ⟨huse, hlt⟩
        · exact naive_le_ceiling _ _ _ _ _
      · rw [if_neg huse]

/-- A draft leaves the settings. -/
lemma draft_settings [F64] {e e' : Engine} {context sampled toks : List Token}
    (h : e.draft context sampled = some (toks, e')) : e'.ngramMin = e.ngramMin ∧ e'.ngramMax = e.ngramMax := by
  rw [draft_eq_choose] at h
  dsimp only at h
  split at h
  · cases h
    exact ⟨rfl, rfl⟩
  · simp only [Option.bind_eq_bind, Option.bind_eq_some_iff] at h
    obtain ⟨_, _, _, _, h⟩ := h
    rw [choose] at h
    split at h
    · cases h
      exact ⟨rfl, rfl⟩
    · cases h
      exact ⟨rfl, rfl⟩

/-- In exact arithmetic the skip changes neither the draft of a row nor the counters, and so none of a batch. -/
theorem drafts_eq_always {e : Engine} (hmin : 1 ≤ e.ngramMin) (hle : e.ngramMin ≤ e.ngramMax) :
    (∀ context sampled, @draft F64.exact e context sampled = @draftAlways F64.exact e context sampled) ∧
    ∀ rows, @drafts F64.exact rows e = @draftsAlways F64.exact rows e := by
  refine ⟨draft_eq_always hmin hle, fun rows => ?_⟩
  induction rows generalizing e with
  | nil => rfl
  | cons row rows ih =>
    unfold drafts draftsAlways
    dsimp only
    rw [← draft_eq_always hmin hle]
    cases h : @draft F64.exact e row.1 row.2 with
    | none => rfl
    | some r =>
      obtain ⟨hmin', hmax'⟩ := @draft_settings F64.exact _ _ _ _ _ h
      simp only [Option.bind_eq_bind, Option.bind_some]
      rw [ih (by rw [hmin']; exact hmin) (by rw [hmin', hmax']; exact hle)]

theorem drafts_eq_always_new : ∃ e, Engine.new ⟨4, 64, 256, 4096, 16, 16, 1, 2, 0, false, by decide, by decide⟩ {} 8 64 =
      .ok e ∧ @drafts F64.exact [([1, 2, 3, 4, 1, 2, 3, 4], [4])] e =
      @draftsAlways F64.exact [([1, 2, 3, 4, 1, 2, 3, 4], [4])] e :=
  ⟨_, rfl, (drafts_eq_always (by decide) (by decide)).2 _⟩

end Engine
end SuffixHybrid
