import SuffixHybrid.Engine.Ngram
import SuffixHybrid.Lib.Suffix

/-!
# The n-gram lookup is the naive search

The naive search goes through the orders from the longest to the shortest, and for each through the positions
from the last to the first. The lookup passes over the distances once: the first distance at which an order
matches is its latest occurrence, and once the longest order has matched no other counts.
-/

namespace SuffixHybrid
open Lib

namespace Engine

/-! ## The naive search -/

/-- The last `n` tokens occur at `pos` too, at a distance of at least 1 and within the window. -/
def Occurs (context : List Token) (window n pos : ℕ) : Prop :=
  pos + n < context.length ∧ (context.drop pos).take n = context.drop (context.length - n) ∧
    (0 < window → context.length - n - pos < window)

instance (context : List Token) (window n pos : ℕ) : Decidable (Occurs context window n pos) :=
  inferInstanceAs (Decidable (_ ∧ _))

/-- The latest occurrence. -/
def latestAt (context : List Token) (window n : ℕ) : Option ℕ :=
  (List.range context.length).reverse.find? fun pos => Occurs context window n pos

/-- The longest of some orders, tried one after the other, that occurs. -/
def longestOf (context : List Token) (window : ℕ) : List ℕ → Option (ℕ × ℕ)
  | [] => none
  | n :: ns =>
    match latestAt context window n with
    | some pos => some (n, pos)
    | none => longestOf context window ns

/-- The naive search. -/
def naive [F64] (context : List Token) (lo hi cap window : ℕ) : List Token × ℚ :=
  if cap = 0 then ([], 0)
  else
    let hi := min hi (context.length - 1)
    match longestOf context window (List.range' lo (hi + 1 - lo)).reverse with
    | some (n, pos) => ((context.drop (pos + n)).take (min (pos + n + cap) context.length - (pos + n)),
      F64.div (F64.ofNat n) (F64.ofNat (n + 1)))
    | none => ([], 0)

/-- The last number of a range with a property. -/
lemma find?_reverse_range {p : ℕ → Bool} {n i : ℕ} :
    (List.range n).reverse.find? p = some i ↔ i < n ∧ p i = true ∧ ∀ j < n, p j = true → j ≤ i := by
  induction n with
  | zero => exact ⟨fun h => (nomatch h), fun h => absurd h.1 (Nat.not_lt_zero i)⟩
  | succ n ih =>
    rw [List.range_succ, List.reverse_append, List.reverse_singleton, List.singleton_append, List.find?_cons]
    cases hp : p n with
    | true =>
      dsimp only
      constructor
      · intro e
        rw [← Option.some.inj e]
        exact ⟨Nat.lt_succ_self n, hp, fun j hj _ => Nat.le_of_lt_succ hj⟩
      · rintro ⟨hi, _, hlast⟩
        have := hlast n (Nat.lt_succ_self n) hp
        rw [show i = n by omega]
    | false =>
      dsimp only
      rw [ih]
      constructor
      · rintro ⟨hi, hpi, hlast⟩
        refine ⟨by omega, hpi, fun j hj hpj => ?_⟩
        obtain hj | e := Nat.lt_succ_iff_lt_or_eq.mp hj
        · exact hlast j hj hpj
        · rw [e] at hpj
          cases hp.symm.trans hpj
      · rintro ⟨hi, hpi, hlast⟩
        obtain hi | e := Nat.lt_succ_iff_lt_or_eq.mp hi
        · exact ⟨hi, hpi, fun j hj => hlast j (by omega)⟩
        · rw [e] at hpi
          cases hp.symm.trans hpi

lemma latestAt_eq_some {context : List Token} {window n pos : ℕ} :
    latestAt context window n = some pos ↔
      Occurs context window n pos ∧ ∀ pos', Occurs context window n pos' → pos' ≤ pos := by
  rw [latestAt, find?_reverse_range]
  simp only [decide_eq_true_eq]
  constructor
  · rintro ⟨_, hocc, hlast⟩
    exact ⟨hocc, fun pos' h => hlast pos' (by have := h.1; omega) h⟩
  · rintro ⟨hocc, hlast⟩
    exact ⟨by have := hocc.1; omega, hocc, fun j _ h => hlast j h⟩

lemma latestAt_eq_none {context : List Token} {window n : ℕ} :
    latestAt context window n = none ↔ ∀ pos, ¬Occurs context window n pos := by
  rw [latestAt, List.find?_eq_none]
  simp only [List.mem_reverse, List.mem_range, decide_eq_true_eq]
  exact ⟨fun h pos hocc => h pos (by have := hocc.1; omega) hocc, fun h pos _ => h pos⟩

/-! ## Distances -/

/-- The last `n` tokens match at distance `q`. -/
def Hits (context : List Token) (n q : ℕ) : Prop :=
  n + q ≤ context.length ∧ context.rtake n = (context.take (context.length - q)).rtake n

lemma occurs_iff {context : List Token} {window n pos : ℕ} :
    Occurs context window n pos ↔
      ∃ q, 1 ≤ q ∧ (0 < window → q < window) ∧ Hits context n q ∧ pos = context.length - n - q := by
  have key : ∀ q, n + q ≤ context.length → pos = context.length - n - q →
      ((context.drop pos).take n = context.drop (context.length - n) ↔
        context.rtake n = (context.take (context.length - q)).rtake n) := by
    intro q hq e
    have h1 : context.length - q - n = pos := by omega
    have h2 : context.length - q - pos = n := by omega
    rw [List.rtake, List.rtake, List.length_take_of_le (Nat.sub_le _ _), List.drop_take, h1, h2]
    exact eq_comm
  constructor
  · rintro ⟨hlt, hsame, hwin⟩
    have e : pos = context.length - n - (context.length - n - pos) := by omega
    exact ⟨context.length - n - pos, by omega, hwin, ⟨by omega, (key _ (by omega) e).mp hsame⟩, e⟩
  · rintro ⟨q, hq, hwin, ⟨hle, hsame⟩, e⟩
    refine ⟨by omega, (key q hle e).mpr hsame, fun hw => ?_⟩
    have := hwin hw
    omega

/-- The loop finds the common suffix up to its bound. -/
lemma commonSuffix_eq_min {context : List Token} {q : ℕ} (hq : q ≤ context.length) (left l : ℕ)
    (hl : l + q ≤ context.length) (h : context.rtake l = (context.take (context.length - q)).rtake l) :
    commonSuffix context q left l =
      some (min (left + l) (Lib.commonSuffix context (context.take (context.length - q)))) := by
  have hlen : (context.take (context.length - q)).length = context.length - q :=
    List.length_take_of_le (Nat.sub_le _ _)
  have hle : l ≤ Lib.commonSuffix context (context.take (context.length - q)) :=
    le_commonSuffix (by omega) (by omega) h
  induction left generalizing l with
  | zero => rw [commonSuffix, Nat.zero_add, Nat.min_eq_left hle]
  | succ left ih =>
    unfold commonSuffix
    split
    case isFalse hend =>
      have hright := commonSuffix_le_right context (context.take (context.length - q))
      rw [Nat.min_eq_right (by omega)]
      congr 1
      omega
    case isTrue hlt =>
      have ha : context.length - 1 - q - l < context.length := by omega
      have hb : context.length - 1 - l < context.length := by omega
      rw [List.getElem?_eq_getElem ha, List.getElem?_eq_getElem hb]
      simp only [Option.bind_eq_bind, Option.bind_some]
      have hfull := rtake_succ (l := context) (k := l) (by omega)
      have hcut := rtake_succ (l := context.take (context.length - q)) (k := l) (by omega)
      have hcutidx : (context.take (context.length - q)).length - l - 1 <
          (context.take (context.length - q)).length := by omega
      have hget : (context.take (context.length - q))[(context.take (context.length - q)).length - l - 1] =
          context[context.length - 1 - q - l] := by
        rw [List.getElem_take]
        congr 1
        omega
      have hfullidx : context.length - l - 1 < context.length := by omega
      have hget' : context[context.length - l - 1] = context[context.length - 1 - l] := by
        congr 1
        omega
      rw [hget] at hcut
      rw [hget'] at hfull
      split
      case isTrue heq =>
        have hsame : context.rtake (l + 1) = (context.take (context.length - q)).rtake (l + 1) := by
          rw [hfull, hcut, h, heq]
        have hle' := le_commonSuffix (by omega) (by omega) hsame
        rw [ih (l + 1) (by omega) hsame hle', Nat.add_right_comm, Nat.add_assoc]
      case isFalse hne =>
        have hstop : Lib.commonSuffix context (context.take (context.length - q)) = l := by
          refine commonSuffix_eq (by omega) (by omega) h fun _ _ h' => ?_
          rw [hfull, hcut] at h'
          exact hne (List.cons.inj h').1.symm
        rw [hstop, Nat.min_eq_right (by omega)]

/-- At a distance the lookup finds the orders that match. -/
lemma commonSuffix_hits {context : List Token} {q : ℕ} (hq : q ≤ context.length) (hi : ℕ) :
    ∃ l, commonSuffix context q hi 0 = some l ∧ ∀ n ≤ hi, n ≤ l ↔ Hits context n q := by
  have hlen : (context.take (context.length - q)).length = context.length - q :=
    List.length_take_of_le (Nat.sub_le _ _)
  refine ⟨_, commonSuffix_eq_min hq hi 0 (by omega) ?_, fun n hn => ?_⟩
  · rw [List.rtake_zero, List.rtake_zero]
  · have hright := commonSuffix_le_right context (context.take (context.length - q))
    have hleft := commonSuffix_le_left context (context.take (context.length - q))
    rw [Nat.add_zero, Nat.le_min, and_iff_right hn]
    constructor
    · intro hle
      exact ⟨by omega, rtake_eq_of_le hleft hright (rtake_commonSuffix _ _) hle⟩
    · rintro ⟨hle, hsame⟩
      exact le_commonSuffix (by omega) (by omega) hsame

/-! ## The table -/

/-- What the table says of an order after the distances below `q`. -/
def Found (context : List Token) (q n : ℕ) : Option ℕ → Prop
  | none => ∀ d, 1 ≤ d → d < q → ¬Hits context n d
  | some pos => ∃ d, 1 ≤ d ∧ d < q ∧ Hits context n d ∧ pos = context.length - n - d ∧
      ∀ d', 1 ≤ d' → d' < d → ¬Hits context n d'

/-- The table after the distances below `q`. -/
def Filled (context : List Token) (lo hi q : ℕ) (latest : List (Option ℕ)) : Prop :=
  ∀ n, lo ≤ n → n ≤ hi → ∃ o, latest[n - lo]? = some o ∧ Found context q n o

/-- An order that does not match, or has matched before, stays. -/
lemma Found.stay {context : List Token} {q n : ℕ} {o : Option ℕ} (h : Found context q n o)
    (hn : o = none → ¬Hits context n q) : Found context (q + 1) n o := by
  cases o with
  | none =>
    intro d hd hlt
    obtain hlt | rfl := Nat.lt_succ_iff_lt_or_eq.mp hlt
    · exact h d hd hlt
    · exact hn rfl
  | some pos =>
    obtain ⟨d, hd, hlt, hrest⟩ := h
    exact ⟨d, hd, by omega, hrest⟩

/-- An order that matches for the first time. -/
lemma Found.first {context : List Token} {q n : ℕ} (hq : 1 ≤ q) (h : Found context q n none)
    (hits : Hits context n q) : Found context (q + 1) n (some (context.length - n - q)) :=
  ⟨q, hq, Nat.lt_succ_self q, hits, rfl, h⟩

/-- What `mark` writes: the position of the orders that it is given and that have none. -/
lemma mark_spec {len lo hi q : ℕ} (ns : List ℕ) (hns : ∀ n ∈ ns, lo ≤ n ∧ n ≤ hi ∧ n + q ≤ len)
    {latest : List (Option ℕ)} (hlen : latest.length = hi - lo + 1) :
    ∃ latest', mark len lo q ns latest = some latest' ∧ latest'.length = hi - lo + 1 ∧
      ∀ n, lo ≤ n → n ≤ hi → latest'[n - lo]? =
        latest[n - lo]?.map fun o => if n ∈ ns then o.or (some (len - n - q)) else o := by
  induction ns generalizing latest with
  | nil =>
    refine ⟨latest, rfl, hlen, fun n _ _ => ?_⟩
    simp only [List.not_mem_nil, if_false, Option.map_id']
  | cons n0 ns ih =>
    obtain ⟨hlo, hhi, hq⟩ := hns n0 List.mem_cons_self
    have hrest : ∀ n ∈ ns, lo ≤ n ∧ n ≤ hi ∧ n + q ≤ len := fun n hn => hns n (List.mem_cons_of_mem _ hn)
    have hidx : n0 - lo < latest.length := by omega
    unfold mark
    rw [List.getElem?_eq_getElem hidx]
    simp only [Option.bind_eq_bind, Option.bind_some]
    split
    case h_1 pos hpos =>
      obtain ⟨latest', hm, hlen', h⟩ := ih hrest hlen
      refine ⟨latest', hm, hlen', fun n hn hn' => ?_⟩
      rw [h n hn hn']
      by_cases e : n = n0
      · subst e
        rw [List.getElem?_eq_getElem hidx, hpos]
        simp only [Option.map_some, Option.some_or, ite_self]
      · simp only [List.mem_cons, e, false_or]
    case h_2 hnone =>
      rw [checkedSub_of_le (by omega), Option.bind_some, checkedSub_of_le (by omega), Option.bind_some]
      have hset : (latest.set (n0 - lo) (some (len - n0 - q))).length = hi - lo + 1 := by
        rw [List.length_set]
        exact hlen
      obtain ⟨latest', hm, hlen', h⟩ := ih hrest hset
      refine ⟨latest', hm, hlen', fun n hn hn' => ?_⟩
      rw [h n hn hn']
      by_cases e : n = n0
      · subst e
        rw [List.getElem?_set_self hidx, List.getElem?_eq_getElem hidx, hnone]
        simp only [Option.map_some, List.mem_cons_self, if_true, Option.some_or, Option.none_or, ite_self]
      · rw [List.getElem?_set_ne (by omega)]
        simp only [List.mem_cons, e, false_or]

/-- A distance brings the table up to date. -/
lemma mark_filled {context : List Token} {lo hi q l : ℕ} (hlohi : lo ≤ hi) (hq : 1 ≤ q)
    (hl : ∀ n ≤ hi, n ≤ l ↔ Hits context n q) {latest : List (Option ℕ)}
    (hlen : latest.length = hi - lo + 1) (h : Filled context lo hi q latest) :
    ∃ latest', mark context.length lo q (List.range' lo (min l hi + 1 - lo)) latest = some latest' ∧
      latest'.length = hi - lo + 1 ∧ Filled context lo hi (q + 1) latest' := by
  have hmem : ∀ n, n ∈ List.range' lo (min l hi + 1 - lo) ↔ lo ≤ n ∧ n ≤ l ∧ n ≤ hi := fun n => by
    rw [List.mem_range'_1]
    omega
  have hfits : ∀ n ∈ List.range' lo (min l hi + 1 - lo), lo ≤ n ∧ n ≤ hi ∧ n + q ≤ context.length :=
    fun n hn => by
      obtain ⟨hlo, hnl, hhi⟩ := (hmem n).mp hn
      exact ⟨hlo, hhi, ((hl n hhi).mp hnl).1⟩
  obtain ⟨latest', hm, hlen', hspec⟩ := mark_spec _ hfits hlen
  refine ⟨latest', hm, hlen', fun n hlo hhi => ?_⟩
  obtain ⟨o, ho, hfound⟩ := h n hlo hhi
  rw [hspec n hlo hhi, ho]
  refine ⟨_, rfl, ?_⟩
  dsimp only
  by_cases hhits : Hits context n q
  · rw [if_pos ((hmem n).mpr ⟨hlo, (hl n hhi).mpr hhits, hhi⟩)]
    cases o with
    | none => exact hfound.first hq hhits
    | some pos => exact hfound.stay fun e => by cases e
  · rw [if_neg fun hn => hhits ((hl n hhi).mp ((hmem n).mp hn).2.1)]
    exact hfound.stay fun _ => hhits

/-- The pass ends at the last distance, or when the longest order has matched. -/
lemma scan_filled {context : List Token} {lo hi : ℕ} (hlohi : lo ≤ hi) (m q : ℕ) (hq : 1 ≤ q)
    (hm : q + m ≤ context.length + 1) {latest : List (Option ℕ)} (hlen : latest.length = hi - lo + 1)
    (h : Filled context lo hi q latest) :
    ∃ latest' q', scan context lo hi (List.range' q m) latest = some latest' ∧ Filled context lo hi q' latest' ∧
      (q' = q + m ∨ q' ≤ q + m ∧ ∃ pos, latest'[hi - lo]? = some (some pos)) := by
  induction m generalizing q latest with
  | zero => exact ⟨latest, q, rfl, h, .inl rfl⟩
  | succ m ih =>
    obtain ⟨l, hl, hhits⟩ := commonSuffix_hits (show q ≤ context.length by omega) hi
    obtain ⟨latest', hmark, hlen', h'⟩ := mark_filled hlohi hq hhits hlen h
    have hidx : hi - lo < latest'.length := by omega
    rw [List.range'_succ]
    simp only [scan, hl, hmark, List.getElem?_eq_getElem hidx, Option.bind_eq_bind, Option.bind_some]
    split
    case isTrue hsome =>
      obtain ⟨pos, hpos⟩ := Option.isSome_iff_exists.mp hsome
      exact ⟨latest', q + 1, rfl, h', .inr ⟨by omega, pos, by rw [List.getElem?_eq_getElem hidx, hpos]⟩⟩
    case isFalse =>
      obtain ⟨latest'', q', hs, hf, hor⟩ := ih (q + 1) (by omega) (by omega) hlen' h'
      refine ⟨latest'', q', hs, hf, ?_⟩
      rwa [show q + 1 + m = q + (m + 1) by omega] at hor

/-! ## The result -/

/-- The distances of the window. -/
def reach (context : List Token) (window : ℕ) : ℕ :=
  if window = 0 then context.length else min window context.length

lemma reach_iff {context : List Token} {window n d : ℕ} (hn : 1 ≤ n) (h : Hits context n d) :
    d < reach context window ↔ (0 < window → d < window) := by
  have := h.1
  rw [reach]
  split
  · omega
  · omega

/-- An order that has matched within the window: its latest occurrence. -/
lemma Found.latestAt_some {context : List Token} {window q n pos : ℕ} (hn : 1 ≤ n)
    (hq : q ≤ max (reach context window) 1) (h : Found context q n (some pos)) :
    latestAt context window n = some pos := by
  obtain ⟨d, hd, hlt, hits, e, hfirst⟩ := h
  rw [latestAt_eq_some, occurs_iff]
  refine ⟨⟨d, hd, (reach_iff hn hits).mp (by omega), hits, e⟩, fun pos' hocc => ?_⟩
  obtain ⟨d', hd', _, hits', e'⟩ := occurs_iff.mp hocc
  have hge : d ≤ d' := Nat.le_of_not_lt fun hlt' => hfirst d' hd' hlt' hits'
  omega

/-- After all distances of the window the table has the latest occurrences. -/
lemma Found.latestAt_eq {context : List Token} {window n : ℕ} {o : Option ℕ} (hn : 1 ≤ n)
    (h : Found context (max (reach context window) 1) n o) : latestAt context window n = o := by
  cases o with
  | some pos => exact h.latestAt_some hn (Nat.le_refl _)
  | none =>
    refine latestAt_eq_none.mpr fun pos hocc => ?_
    obtain ⟨d, hd, hwin, hits, _⟩ := occurs_iff.mp hocc
    have := (reach_iff hn hits).mpr hwin
    exact h d hd (by omega) hits

/-- The continuation behind an occurrence, with the score of the order. -/
def continuation [F64] (context : List Token) (cap : ℕ) : Option (ℕ × ℕ) → List Token × ℚ
  | some (n, pos) => ((context.drop (pos + n)).take (min (pos + n + cap) context.length - (pos + n)),
    F64.div (F64.ofNat n) (F64.ofNat (n + 1)))
  | none => ([], 0)

lemma naive_eq [F64] {context : List Token} {lo hi cap window : ℕ} (hcap : cap ≠ 0) :
    naive context lo hi cap window = continuation context cap (longestOf context window
      (List.range' lo (min hi (context.length - 1) + 1 - lo)).reverse) := by
  rw [naive, if_neg hcap]
  rfl

lemma slice_continuation {context : List Token} {window n pos cap : ℕ} (h : Occurs context window n pos) :
    slice context (pos + n) (min (pos + n + cap) context.length) =
      some ((context.drop (pos + n)).take (min (pos + n + cap) context.length - (pos + n))) := by
  have := h.1
  exact slice_of_le (by omega) (Nat.min_le_right _ _)

lemma pickOrder_eq [F64] {context : List Token} {lo cap window : ℕ} {latest : List (Option ℕ)} (ns : List ℕ)
    (h : ∀ n ∈ ns, latest[n - lo]? = some (latestAt context window n)) :
    pickOrder context lo cap latest ns = some (continuation context cap (longestOf context window ns)) := by
  induction ns with
  | nil => rfl
  | cons n ns ih =>
    rw [pickOrder, longestOf, h n List.mem_cons_self]
    simp only [Option.bind_eq_bind, Option.bind_some]
    cases hpos : latestAt context window n with
    | none => exact ih fun m hm => h m (List.mem_cons_of_mem _ hm)
    | some pos =>
      dsimp only
      rw [slice_continuation (latestAt_eq_some.mp hpos).1]
      rfl

/-- When the longest order has matched, the others do not count. -/
lemma pickOrder_longest [F64] {context : List Token} {lo hi cap window pos : ℕ} {latest : List (Option ℕ)}
    (hlohi : lo ≤ hi) (h : latest[hi - lo]? = some (some pos)) (hpos : latestAt context window hi = some pos) :
    pickOrder context lo cap latest (List.range' lo (hi + 1 - lo)).reverse =
      some (continuation context cap (longestOf context window (List.range' lo (hi + 1 - lo)).reverse)) := by
  have e : (List.range' lo (hi + 1 - lo)).reverse = hi :: (List.range' lo (hi - lo)).reverse := by
    rw [show hi + 1 - lo = hi - lo + 1 by omega, List.range'_1_concat, List.reverse_append,
      List.reverse_singleton, List.singleton_append, show lo + (hi - lo) = hi by omega]
  rw [e, pickOrder, longestOf, h, hpos]
  simp only [Option.bind_eq_bind, Option.bind_some]
  rw [slice_continuation (latestAt_eq_some.mp hpos).1]
  rfl

/-- The lookup is the naive search. -/
theorem ngram_eq_naive [F64] (context : List Token) {lo : ℕ} (hlo : 1 ≤ lo) (hi cap window : ℕ) :
    ngram context lo hi cap window = some (naive context lo hi cap window) := by
  unfold ngram
  by_cases hcap : cap = 0
  · rw [if_pos hcap, naive, if_pos hcap]
  · rw [if_neg hcap, naive_eq hcap]
    dsimp only
    by_cases hlt : min hi (context.length - 1) < lo
    · rw [if_pos hlt, show min hi (context.length - 1) + 1 - lo = 0 by omega]
      rfl
    · rw [if_neg hlt]
      have hlohi : lo ≤ min hi (context.length - 1) := Nat.le_of_not_lt hlt
      have hreach : reach context window ≤ context.length := by
        rw [reach]
        split
        · exact Nat.le_refl _
        · exact Nat.min_le_right _ _
      have hempty : Filled context lo (min hi (context.length - 1)) 1
          (List.replicate (min hi (context.length - 1) - lo + 1) none) := fun n hn hn' => by
        refine ⟨none, ?_, fun d hd hd' => absurd hd' (Nat.not_lt.mpr hd)⟩
        rw [List.getElem?_replicate, if_pos (by omega)]
      obtain ⟨latest, q, hscan, hfilled, hor⟩ := scan_filled hlohi (reach context window - 1) 1 (Nat.le_refl 1)
        (by omega) List.length_replicate hempty
      have hscan' : scan context lo (min hi (context.length - 1)) (List.range' 1
          ((if window = 0 then context.length else min window context.length) - 1))
          (List.replicate (min hi (context.length - 1) - lo + 1) none) = some latest := hscan
      rw [hscan']
      simp only [Option.bind_eq_bind, Option.bind_some]
      obtain rfl | ⟨hq, pos, hpos⟩ := hor
      · refine pickOrder_eq _ fun n hn => ?_
        have hn := List.mem_range'_1.mp (List.mem_reverse.mp hn)
        obtain ⟨o, ho, hfound⟩ := hfilled n hn.1 (by omega)
        rw [show 1 + (reach context window - 1) = max (reach context window) 1 by omega] at hfound
        rw [ho, hfound.latestAt_eq (by omega)]
      · obtain ⟨o, ho, hfound⟩ := hfilled _ hlohi (Nat.le_refl _)
        cases Option.some.inj (hpos.symm.trans ho)
        exact pickOrder_longest hlohi hpos (hfound.latestAt_some (by omega) (by omega))

/-- The naive search takes the longest order that occurs, at its latest position. -/
lemma longestOf_eq_some {context : List Token} {window n pos : ℕ} {ns : List ℕ}
    (hns : ns.Pairwise (· > ·)) : longestOf context window ns = some (n, pos) ↔
      n ∈ ns ∧ latestAt context window n = some pos ∧ ∀ n' ∈ ns, n < n' → latestAt context window n' = none := by
  induction ns with
  | nil => exact ⟨fun h => (nomatch h), fun h => absurd h.1 List.not_mem_nil⟩
  | cons m ns ih =>
    obtain ⟨hm, hns⟩ := List.pairwise_cons.mp hns
    rw [longestOf]
    cases hpos : latestAt context window m with
    | some pos' =>
      dsimp only
      constructor
      · intro e
        cases e
        refine ⟨List.mem_cons_self, hpos, fun n' hn' hlt => ?_⟩
        obtain rfl | hn' := List.mem_cons.mp hn'
        · exact absurd hlt (Nat.lt_irrefl _)
        · exact absurd hlt (Nat.not_lt.mpr (hm n' hn').le)
      · rintro ⟨hmem, hn, hlong⟩
        obtain rfl | hmem := List.mem_cons.mp hmem
        · rw [hpos] at hn
          rw [Option.some.inj hn]
        · rw [hlong m List.mem_cons_self (hm n hmem)] at hpos
          cases hpos
    | none =>
      dsimp only
      rw [ih hns]
      constructor
      · rintro ⟨hmem, hn, hlong⟩
        refine ⟨List.mem_cons_of_mem _ hmem, hn, fun n' hn' hlt => ?_⟩
        obtain rfl | hn' := List.mem_cons.mp hn'
        · exact hpos
        · exact hlong n' hn' hlt
      · rintro ⟨hmem, hn, hlong⟩
        obtain rfl | hmem := List.mem_cons.mp hmem
        · cases hpos.symm.trans hn
        · exact ⟨hmem, hn, fun n' hn' => hlong n' (List.mem_cons_of_mem _ hn')⟩

lemma longestOf_eq_none {context : List Token} {window : ℕ} {ns : List ℕ} :
    longestOf context window ns = none ↔ ∀ n ∈ ns, latestAt context window n = none := by
  induction ns with
  | nil => exact ⟨fun _ _ h => absurd h List.not_mem_nil, fun _ => rfl⟩
  | cons m ns ih =>
    rw [longestOf, List.forall_mem_cons]
    cases hpos : latestAt context window m with
    | some pos => exact ⟨fun h => (nomatch h), fun h => (nomatch h.1)⟩
    | none => exact ih.trans (and_iff_right rfl).symm

/-- The lookup equals the naive search: it gives the continuation of the latest occurrence of the longest order
that occurs, which has a token at least, and nothing where no order occurs. -/
theorem ngram_spec [F64] (context : List Token) {lo : ℕ} (hlo : 1 ≤ lo) (hi cap window : ℕ) :
    ngram context lo hi cap window = some (naive context lo hi cap window) ∧
    (∀ n pos, cap ≠ 0 → lo ≤ n → n ≤ min hi (context.length - 1) → Occurs context window n pos →
      (∀ n', n < n' → n' ≤ min hi (context.length - 1) → ∀ pos', ¬Occurs context window n' pos') →
      (∀ pos', Occurs context window n pos' → pos' ≤ pos) →
      naive context lo hi cap window =
          ((context.drop (pos + n)).take (min (pos + n + cap) context.length - (pos + n)),
            F64.div (F64.ofNat n) (F64.ofNat (n + 1))) ∧
        (naive context lo hi cap window).1 ≠ []) ∧
    ((cap = 0 ∨ ∀ n, lo ≤ n → n ≤ min hi (context.length - 1) → ∀ pos, ¬Occurs context window n pos) →
      naive context lo hi cap window = ([], 0)) := by
  have hmem : ∀ n, n ∈ (List.range' lo (min hi (context.length - 1) + 1 - lo)).reverse ↔
      lo ≤ n ∧ n ≤ min hi (context.length - 1) := fun n => by
    rw [List.mem_reverse, List.mem_range'_1]
    omega
  refine ⟨ngram_eq_naive context hlo hi cap window, fun n pos hcap hn hn' hocc hlong hlast => ?_, fun h => ?_⟩
  · have hdesc : (List.range' lo (min hi (context.length - 1) + 1 - lo)).reverse.Pairwise (· > ·) :=
      List.pairwise_reverse.mpr List.pairwise_lt_range'
    have hpick := (longestOf_eq_some hdesc).mpr ⟨(hmem n).mpr ⟨hn, hn'⟩, latestAt_eq_some.mpr ⟨hocc, hlast⟩,
      fun n' hm hlt => latestAt_eq_none.mpr (hlong n' hlt ((hmem n').mp hm).2)⟩
    rw [naive_eq hcap, hpick]
    refine ⟨rfl, fun e => ?_⟩
    have hlen := congrArg List.length e
    rw [continuation, List.length_take, List.length_drop, List.length_nil] at hlen
    have := hocc.1
    omega
  · obtain rfl | hnone := h
    · rw [naive, if_pos rfl]
    · by_cases hcap : cap = 0
      · rw [naive, if_pos hcap]
      · rw [naive_eq hcap, longestOf_eq_none.mpr fun n hn =>
          latestAt_eq_none.mpr (hnone n ((hmem n).mp hn).1 ((hmem n).mp hn).2)]
        rfl

/-- A tail that overlaps its earlier occurrence is found at the distance of the period. -/
theorem ngram_overlap : ngram [1, 2, 1, 2, 1, 2] 2 4 3 3 =
    some ([1, 2], F64.div (F64.ofNat 4) (F64.ofNat 5)) := by
  have hlo : 1 ≤ 2 := by decide
  obtain ⟨heq, _⟩ := ngram_spec [1, 2, 1, 2, 1, 2] hlo 4 3 3
  rw [heq, naive_eq (by decide), show longestOf [1, 2, 1, 2, 1, 2] 3 _ = some (4, 0) from by decide]
  rfl

end Engine
end SuffixHybrid
