import SuffixHybrid.Cache.Basic

/-!
# In-request n-gram lookup

`ngram` of `src/engine.rs`: the continuation of the latest earlier occurrence of the longest n-gram,
with `lo ≤ n ≤ hi`, that ends the context. One backward pass over the distances `q` records for each
order the first, hence latest, position that matches. `ngram_total` shows that no access is out of
bounds and that the continuation has at most `cap` tokens.
-/

namespace SuffixHybrid
open Lib

namespace Engine

/-- Length of the common suffix of the context and the context without its last `q` tokens. The
first argument counts the tokens that are left up to the bound of the loop. -/
def commonSuffix (context : List Token) (q : ℕ) : ℕ → ℕ → Option ℕ
  | 0, l => some l
  | left + 1, l =>
    if q + l < context.length then do
      let a ← context[context.length - 1 - q - l]?
      let b ← context[context.length - 1 - l]?
      if a = b then commonSuffix context q left (l + 1) else some l
    else some l

/-- Record the position of the orders that match at distance `q` for the first time. -/
def mark (len lo q : ℕ) : List ℕ → List (Option ℕ) → Option (List (Option ℕ))
  | [], latest => some latest
  | n :: ns, latest => do
    match ← latest[n - lo]? with
    | some _ => mark len lo q ns latest
    | none =>
      let pos ← (checkedSub len n).bind fun d => checkedSub d q
      mark len lo q ns (latest.set (n - lo) (some pos))

/-- The pass over the distances; it stops when the longest order is found. -/
def scan (context : List Token) (lo hi : ℕ) : List ℕ → List (Option ℕ) → Option (List (Option ℕ))
  | [], latest => some latest
  | q :: qs, latest => do
    let l ← commonSuffix context q hi 0
    let latest ← mark context.length lo q (List.range' lo (min l hi + 1 - lo)) latest
    if (← latest[hi - lo]?).isSome then some latest else scan context lo hi qs latest

/-- The continuation of the first recorded order of a list of orders, with its score. -/
def pickOrder [F64] (context : List Token) (lo cap : ℕ) (latest : List (Option ℕ)) :
    List ℕ → Option (List Token × ℚ)
  | [] => some ([], 0)
  | n :: ns => do
    match ← latest[n - lo]? with
    | none => pickOrder context lo cap latest ns
    | some pos =>
      let toks ← slice context (pos + n) (min (pos + n + cap) context.length)
      some (toks, F64.div (F64.ofNat n) (F64.ofNat (n + 1)))

/-- `engine::ngram`: the continuation and its score, `n / (n + 1)` for an n-gram of order `n`. -/
def ngram [F64] (context : List Token) (lo hi cap window : ℕ) : Option (List Token × ℚ) :=
  if cap = 0 then some ([], 0)
  else
    let hi := min hi (context.length - 1)
    if hi < lo then some ([], 0)
    else do
      let qMax := if window = 0 then context.length else min window context.length
      let latest ← scan context lo hi (List.range' 1 (qMax - 1)) (List.replicate (hi - lo + 1) none)
      pickOrder context lo cap latest (List.range' lo (hi + 1 - lo)).reverse

lemma commonSuffix_total {context : List Token} {q l : ℕ} (left : ℕ) (h : q + l ≤ context.length) :
    ∃ l', commonSuffix context q left l = some l' ∧ q + l' ≤ context.length := by
  induction left generalizing l with
  | zero => exact ⟨l, rfl, h⟩
  | succ left ih =>
    unfold commonSuffix
    split
    case isFalse => exact ⟨l, rfl, h⟩
    case isTrue hlt =>
      rw [List.getElem?_eq_getElem (show context.length - 1 - q - l < _ by omega),
        List.getElem?_eq_getElem (show context.length - 1 - l < _ by omega)]
      simp only [Option.bind_eq_bind, Option.bind_some]
      split
      · exact ih (by omega)
      · exact ⟨l, rfl, h⟩

/-- The table of positions: one slot for each order, a recorded occurrence lies in the context. -/
def Table (len lo hi : ℕ) (latest : List (Option ℕ)) : Prop :=
  latest.length = hi - lo + 1 ∧ ∀ k pos, latest[k]? = some (some pos) → pos + (k + lo) ≤ len

lemma mark_total {len lo hi q : ℕ} (ns : List ℕ) (hns : ∀ n ∈ ns, lo ≤ n ∧ n ≤ hi ∧ q + n ≤ len)
    {latest : List (Option ℕ)} (h : Table len lo hi latest) :
    ∃ latest', mark len lo q ns latest = some latest' ∧ Table len lo hi latest' := by
  induction ns generalizing latest with
  | nil => exact ⟨latest, rfl, h⟩
  | cons n ns ih =>
    obtain ⟨hlo, hhi, hq⟩ := hns n (by simp)
    have hrest : ∀ n ∈ ns, lo ≤ n ∧ n ≤ hi ∧ q + n ≤ len := fun m hm => hns m (by simp [hm])
    have hidx : n - lo < latest.length := by have := h.1; omega
    unfold mark
    rw [List.getElem?_eq_getElem hidx]
    simp only [Option.bind_eq_bind, Option.bind_some]
    split
    · exact ih hrest h
    · rw [checkedSub_of_le (by omega), Option.bind_some, checkedSub_of_le (by omega),
        Option.bind_some]
      apply ih hrest
      refine ⟨by simpa using h.1, fun k pos hk => ?_⟩
      rw [List.getElem?_set] at hk
      split at hk
      · simp only [Option.some.injEq] at hk
        omega
      · exact h.2 k pos hk

lemma scan_total {context : List Token} {lo hi : ℕ} {qs : List ℕ} (hlohi : lo ≤ hi)
    (hqs : ∀ q ∈ qs, q ≤ context.length) {latest : List (Option ℕ)}
    (h : Table context.length lo hi latest) :
    ∃ latest', scan context lo hi qs latest = some latest' ∧
      Table context.length lo hi latest' := by
  induction qs generalizing latest with
  | nil => exact ⟨latest, rfl, h⟩
  | cons q qs ih =>
    obtain ⟨l, hl, hql⟩ := commonSuffix_total hi (show q + 0 ≤ _ from hqs q (by simp))
    obtain ⟨latest1, hm, h1⟩ := mark_total (q := q) (List.range' lo (min l hi + 1 - lo))
      (fun n hn => by have := List.mem_range'_1.mp hn; omega) h
    have hidx : hi - lo < latest1.length := by have := h1.1; omega
    simp only [scan, hl, hm, List.getElem?_eq_getElem hidx, Option.bind_eq_bind, Option.bind_some]
    split
    · exact ⟨latest1, rfl, h1⟩
    · exact ih (fun q' hq' => hqs q' (by simp [hq'])) h1

lemma pickOrder_total [F64] {context : List Token} {lo hi cap : ℕ} {latest : List (Option ℕ)}
    (h : Table context.length lo hi latest) {ns : List ℕ} (hns : ∀ n ∈ ns, lo ≤ n ∧ n ≤ hi) :
    ∃ toks score, pickOrder context lo cap latest ns = some (toks, score) ∧ toks.length ≤ cap := by
  induction ns with
  | nil => exact ⟨[], 0, rfl, by simp⟩
  | cons n ns ih =>
    obtain ⟨hlo, hhi⟩ := hns n (by simp)
    have hidx : n - lo < latest.length := by have := h.1; omega
    unfold pickOrder
    rw [List.getElem?_eq_getElem hidx]
    simp only [Option.bind_eq_bind, Option.bind_some]
    split
    · exact ih fun m hm => hns m (by simp [hm])
    case h_2 pos hpos =>
      have hle := h.2 (n - lo) pos (by rw [List.getElem?_eq_getElem hidx, hpos])
      rw [slice_of_le (by omega) (by omega), Option.bind_some]
      refine ⟨_, _, rfl, ?_⟩
      rw [List.length_take]
      omega

/-- The lookup ends, with at most `cap` tokens. -/
theorem ngram_total [F64] (context : List Token) (lo hi cap window : ℕ) :
    ∃ toks score, ngram context lo hi cap window = some (toks, score) ∧ toks.length ≤ cap := by
  unfold ngram
  split
  case isTrue => exact ⟨[], 0, rfl, by simp⟩
  case isFalse =>
    dsimp only
    split
    case isTrue => exact ⟨[], 0, rfl, by simp⟩
    case isFalse hlt =>
      have hqs : ∀ q ∈ List.range' 1
          ((if window = 0 then context.length else min window context.length) - 1),
          q ≤ context.length := by
        intro q hq
        have := List.mem_range'_1.mp hq
        split at this <;> omega
      have htable : Table context.length lo (min hi (context.length - 1))
          (List.replicate (min hi (context.length - 1) - lo + 1) none) :=
        ⟨by simp, fun k pos hk => by simp [List.getElem?_replicate] at hk⟩
      obtain ⟨latest, hs, h⟩ := scan_total (by omega) hqs htable
      rw [hs]
      simp only [Option.bind_eq_bind, Option.bind_some]
      apply pickOrder_total h
      intro n hn
      have := List.mem_range'_1.mp (List.mem_reverse.mp hn)
      omega

end Engine
end SuffixHybrid
