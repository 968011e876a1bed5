import Mathlib.Algebra.Order.Field.Basic
import SuffixHybrid.Cache.Speculate
import SuffixHybrid.Lib.Best

/-!
# What a lookup is for

The declarative reading of `Cache.speculate`. The matches of a window are the recent entries of its last
n-gram with the longest common suffix; the draft takes, among the matches that agree with it so far, the next
token of the highest rank. The order in which the counts of a step are visited is a parameter here.
-/

namespace SuffixHybrid
open Lib

namespace Cache

/-! ## The lookup, with the counts in any order -/

/-- A counted token: its count and its latest end. -/
abbrev Item := Sigma fun _ : Token => ℕ × ℕ × ℕ

/-- The most frequent token, with the counts visited in some order. -/
def topCountIn (o : HashOrder Item) (counts : Map Token (ℕ × ℕ × ℕ)) : Option (Token × ℕ) :=
  (topmost ranksBelow (o.order counts.entries) none).map fun e => (e.1, e.2.1)

/-- The continuation loop, with an order for every step. -/
def followIn [F64] (o : ℕ → HashOrder Item) (c : Cache) :
    ℕ → ℕ → List (ℕ × ℕ) → ℚ → Option (List Token × ℚ)
  | 0, _, _, score => some ([], score)
  | left + 1, step, ends, score => do
    match topCountIn (o step) (← c.tally step ends ∅) with
    | none => some ([], score)
    | some (tok, support) =>
      if support < c.cfg.support then some ([], score)
      else do
        let score := F64.mul score (F64.div (F64.ofNat support) (F64.ofNat ends.length))
        let (rest, score) ← followIn o c left (step + 1) (← c.retain step tok ends) score
        some (tok :: rest, score)

/-- `Cache::speculate`, with an order for every step. -/
def speculateIn [F64] (o : ℕ → HashOrder Item) (c : Cache) (context : List Token)
    (maxTokens : ℕ) : Option (List Token × ℚ × ℕ) := do
  let window ← sliceFrom context (context.length - c.cfg.depth)
  if maxTokens = 0 ∨ window.length < c.cfg.n then some ([], 0, 0)
  else
    let key ← sliceFrom window (window.length - c.cfg.n)
    match c.index.lookup key with
    | none => some ([], 0, 0)
    | some bucket => do
      let (best, ends) ← c.bestEnds window (bucket.reverse.take c.cfg.candidates) (0, [])
      let (result, score) ← followIn o c (specCap c.cfg maxTokens best) 0 ends 1
      some (result, if result.isEmpty then 0 else score, best)

/-! ## Matches -/

/-- `sequences[id]`. -/
def seq (c : Cache) (id : ℕ) : List Token := (c.sequences.lookup id).getD []

/-- How much of the window an entry has in front of its end. -/
def common (c : Cache) (window : List Token) (e : ℕ × ℕ) : ℕ :=
  commonSuffix window ((c.seq e.1).take (e.2 + c.cfg.n))

/-- The last entries of a bucket, the latest first. -/
def recent (c : Cache) (bucket : List (ℕ × ℕ)) : List (ℕ × ℕ) :=
  bucket.reverse.take c.cfg.candidates

/-- The length of the longest match. -/
def longest (c : Cache) (window : List Token) (bucket : List (ℕ × ℕ)) : ℕ :=
  peak (c.common window) (c.recent bucket)

/-- The entries with the longest match. -/
def matchSet (c : Cache) (window : List Token) (bucket : List (ℕ × ℕ)) : List (ℕ × ℕ) :=
  peaks (c.common window) (c.recent bucket)

/-! ## Drafts -/

/-- The entries that agree with a draft. -/
def agreeing (c : Cache) (entries : List (ℕ × ℕ)) (draft : List Token) : List (ℕ × ℕ) :=
  entries.filter fun e => draft <+: (c.seq e.1).drop (e.2 + c.cfg.n)

/-- The token of an entry behind `k` others. -/
def tokenOf (c : Cache) (k : ℕ) (e : ℕ × ℕ) : Option Token := (c.seq e.1)[e.2 + c.cfg.n + k]?

/-- The entries that a token follows. -/
def followers (c : Cache) (entries : List (ℕ × ℕ)) (k : ℕ) (tok : Token) : List (ℕ × ℕ) :=
  entries.filter fun e => c.tokenOf k e = some tok

/-- A token follows `count` of the entries, the latest of them `e`. -/
structure Follows (c : Cache) (entries : List (ℕ × ℕ)) (k : ℕ) (tok : Token) (count : ℕ)
    (e : ℕ × ℕ) : Prop where
  count : count = (c.followers entries k tok).length
  mem : e ∈ c.followers entries k tok
  latest : ∀ e' ∈ c.followers entries k tok, toLex e' ≤ toLex e

/-- The order of tokens: by count, then by latest entry, then by token. -/
def rank (tok : Token) (count : ℕ) (e : ℕ × ℕ) : ℕ ×ₗ (ℕ ×ₗ ℕ) ×ₗ Token :=
  toLex (count, toLex (toLex e, tok))

/-- The next token of a draft, with its count: the one of the highest rank. -/
def Wins (c : Cache) (entries : List (ℕ × ℕ)) (k : ℕ) (tok : Token) (count : ℕ) : Prop :=
  ∃ e, c.Follows entries k tok count e ∧ ∀ tok' count' e', c.Follows entries k tok' count' e' →
    rank tok' count' e' ≤ rank tok count e

/-- The draft after the tokens so far, with at most `left` more. -/
inductive Draft (c : Cache) (entries : List (ℕ × ℕ)) : ℕ → List Token → List Token → Prop
  | full {draft : List Token} : Draft c entries 0 draft []
  | ended {left : ℕ} {draft : List Token} :
    (∀ e ∈ c.agreeing entries draft, c.tokenOf draft.length e = none) →
    Draft c entries (left + 1) draft []
  | rare {left : ℕ} {draft : List Token} {tok : Token} {count : ℕ} :
    c.Wins (c.agreeing entries draft) draft.length tok count →
    count < c.cfg.support →
    Draft c entries (left + 1) draft []
  | next {left : ℕ} {draft rest : List Token} {tok : Token} {count : ℕ} :
    c.Wins (c.agreeing entries draft) draft.length tok count →
    c.cfg.support ≤ count →
    Draft c entries left (draft ++ [tok]) rest →
    Draft c entries (left + 1) draft (tok :: rest)

/-- The running product of the shares of the entries that go on with the draft. -/
def shares [F64] (c : Cache) (entries : List (ℕ × ℕ)) (score : ℚ) (draft : List Token) :
    List Token → ℚ
  | [] => score
  | tok :: rest => shares c entries (F64.mul score (F64.div
      (F64.ofNat (c.agreeing entries (draft ++ [tok])).length)
      (F64.ofNat (c.agreeing entries draft).length))) (draft ++ [tok]) rest

/-! ## The candidate loop -/

/-- Extending a match stops at the longest common suffix. -/
lemma extendMatch_eq {seq window : List Token} {e : ℕ} (he : e ≤ seq.length) (left matched : ℕ)
    (hw : left + matched = window.length) (hle : matched ≤ e)
    (hsame : window.rtake matched = (seq.take e).rtake matched) :
    extendMatch seq window e left matched = some (commonSuffix window (seq.take e)) := by
  have hlen : (seq.take e).length = e := List.length_take_of_le he
  induction left generalizing matched with
  | zero =>
    rw [extendMatch, commonSuffix_eq (by omega) (by omega) hsame fun h => absurd h (by omega)]
  | succ left ih =>
    unfold extendMatch
    split
    case isFalse hlt =>
      rw [commonSuffix_eq (by omega) (by omega) hsame fun _ h => absurd h (by omega)]
    case isTrue hlt =>
      have hs : e - matched - 1 < seq.length := by omega
      have hv : window.length - matched - 1 < window.length := by omega
      have hwin := rtake_succ (l := window) (k := matched) (by omega)
      have hseq := rtake_succ (l := seq.take e) (k := matched) (by omega)
      have hidx : (seq.take e).length - matched - 1 < (seq.take e).length := by omega
      have hget : (seq.take e)[(seq.take e).length - matched - 1] =
          seq[e - matched - 1] := by
        rw [List.getElem_take]
        congr 2
        omega
      rw [hget] at hseq
      rw [List.getElem?_eq_getElem hs, List.getElem?_eq_getElem hv]
      simp only [Option.bind_eq_bind, Option.bind_some]
      split
      case isTrue heq =>
        refine ih (matched + 1) (by omega) (by omega) ?_
        rw [hwin, hseq, hsame, heq]
      case isFalse hne =>
        rw [commonSuffix_eq (by omega) (by omega) hsame]
        intro _ _ h
        rw [hwin, hseq] at h
        exact hne (List.cons.inj h).1.symm

/-- An entry whose n-gram ends the window, in a live sequence. -/
structure Ends (c : Cache) (window : List Token) (e : ℕ × ℕ) : Prop where
  live : c.sequences.lookup e.1 = some (c.seq e.1)
  le : e.2 + c.cfg.n ≤ (c.seq e.1).length
  same : window.rtake c.cfg.n = ((c.seq e.1).take (e.2 + c.cfg.n)).rtake c.cfg.n

/-- The end of an entry. -/
def endOf (c : Cache) (e : ℕ × ℕ) : ℕ × ℕ := (e.1, e.2 + c.cfg.n)

lemma keepBest_peaks {α : Type} (f : α → ℕ) (g : α → ℕ × ℕ) (l : List α) (a : α) :
    keepBest (f a) (g a) (peak f l, (peaks f l).map g) =
      (peak f (l ++ [a]), (peaks f (l ++ [a])).map g) := by
  rw [peaks_concat, peak_concat, keepBest]
  obtain hlt | hle := Nat.lt_or_ge (peak f l) (f a)
  · have hn : ¬ f a < peak f l := by omega
    simp only [gt_iff_lt, hlt, if_true, if_neg hn, List.nil_append, max_eq_right hlt.le,
      List.map_cons, List.map_nil]
  · have hn : ¬ peak f l < f a := by omega
    simp only [gt_iff_lt, hn, if_false, max_eq_left hle, List.map_append]
    obtain heq | hlt := Nat.eq_or_lt_of_le hle
    · rw [if_pos heq, if_neg (by omega)]
      rfl
    · rw [if_neg (by omega), if_pos hlt, List.map_nil, List.append_nil]

/-- The candidate loop finds the longest matches. -/
lemma bestEnds_eq {c : Cache} {window : List Token} (hn : c.cfg.n ≤ window.length)
    (seen rest : List (ℕ × ℕ)) (h : ∀ e ∈ rest, c.Ends window e) :
    c.bestEnds window rest
        (peak (c.common window) seen, (peaks (c.common window) seen).map c.endOf) =
      some (peak (c.common window) (seen ++ rest),
        (peaks (c.common window) (seen ++ rest)).map c.endOf) := by
  induction rest generalizing seen with
  | nil => rw [bestEnds, List.append_nil]
  | cons e rest ih =>
    obtain ⟨hlive, hle, hsame⟩ := h e List.mem_cons_self
    have hm := extendMatch_eq hle (window.length - c.cfg.n) c.cfg.n (by omega) (by omega) hsame
    have hk := keepBest_peaks (c.common window) c.endOf seen e
    have hrest := ih (seen ++ [e]) fun e' he => h e' (List.mem_cons_of_mem _ he)
    rw [List.append_assoc, List.singleton_append] at hrest
    simp only [bestEnds, hlive, hm, Option.bind_eq_bind, Option.bind_some]
    rw [← hrest, ← hk]
    rfl

/-! ## The counts of a step -/

lemma toLex_endOf_lt (c : Cache) {a b : ℕ × ℕ} :
    toLex (c.endOf a) < toLex (c.endOf b) ↔ toLex a < toLex b := by
  simp only [Prod.Lex.toLex_lt_toLex, endOf, Nat.add_lt_add_iff_right]

lemma tokenAt_endOf {c : Cache} {e : ℕ × ℕ} (h : c.sequences.lookup e.1 = some (c.seq e.1))
    (k : ℕ) : c.tokenAt k (c.endOf e) = some (c.tokenOf k e) := by
  simp only [tokenAt, endOf, h, Option.map_some, tokenOf]

lemma followers_concat_self {c : Cache} {k : ℕ} {tok : Token} {e : ℕ × ℕ}
    (h : c.tokenOf k e = some tok) (entries : List (ℕ × ℕ)) :
    c.followers (entries ++ [e]) k tok = c.followers entries k tok ++ [e] := by
  simp only [followers, List.filter_append, List.filter_cons, List.filter_nil, h, decide_true, if_true]

lemma followers_concat_ne {c : Cache} {k : ℕ} {tok : Token} {e : ℕ × ℕ}
    (h : c.tokenOf k e ≠ some tok) (entries : List (ℕ × ℕ)) :
    c.followers (entries ++ [e]) k tok = c.followers entries k tok := by
  simp only [followers, List.filter_append, List.filter_cons, List.filter_nil, decide_eq_false h,
    Bool.false_eq_true, if_false, List.append_nil]

/-- The counts of the entries seen so far. -/
structure Tallied (c : Cache) (k : ℕ) (seen : List (ℕ × ℕ)) (counts : Map Token (ℕ × ℕ × ℕ)) :
    Prop where
  absent : ∀ tok, counts.lookup tok = none → c.followers seen k tok = []
  present : ∀ tok item, counts.lookup tok = some item →
    ∃ e, item.2 = c.endOf e ∧ c.Follows seen k tok item.1 e

lemma Tallied.empty (c : Cache) (k : ℕ) : c.Tallied k [] ∅ where
  absent _ _ := rfl
  present tok item h := by
    rw [AList.lookup_empty] at h
    cases h

/-- An entry that ends counts for no token. -/
lemma Tallied.skip {c : Cache} {k : ℕ} {seen : List (ℕ × ℕ)} {counts : Map Token (ℕ × ℕ × ℕ)}
    (h : c.Tallied k seen counts) {e : ℕ × ℕ} (he : c.tokenOf k e = none) :
    c.Tallied k (seen ++ [e]) counts := by
  have hfoll (tok : Token) : c.followers (seen ++ [e]) k tok = c.followers seen k tok :=
    followers_concat_ne (fun h => by rw [he] at h; cases h) seen
  constructor
  case absent =>
    intro tok hnone
    rw [hfoll]
    exact h.absent tok hnone
  case present =>
    intro tok item hsome
    obtain ⟨e0, he0, hf⟩ := h.present tok item hsome
    refine ⟨e0, he0, ?_⟩
    constructor
    case count => rw [hfoll]; exact hf.count
    case mem => rw [hfoll]; exact hf.mem
    case latest => rw [hfoll]; exact hf.latest

/-- The first entry of a token, and one more. -/
lemma Follows.first {c : Cache} {k : ℕ} {seen : List (ℕ × ℕ)} {tok : Token} {e : ℕ × ℕ}
    (he : c.tokenOf k e = some tok) (h : c.followers seen k tok = []) :
    c.Follows (seen ++ [e]) k tok 1 e := by
  have hfoll : c.followers (seen ++ [e]) k tok = [e] := by
    rw [followers_concat_self he, h, List.nil_append]
  constructor
  case count => rw [hfoll]; rfl
  case mem => rw [hfoll]; exact List.mem_singleton.mpr rfl
  case latest =>
    rw [hfoll]
    intro e' he'
    rw [List.mem_singleton.mp he']

lemma Follows.more {c : Cache} {k : ℕ} {seen : List (ℕ × ℕ)} {tok : Token} {count : ℕ}
    {e e0 : ℕ × ℕ} (h : c.Follows seen k tok count e0) (he : c.tokenOf k e = some tok) :
    c.Follows (seen ++ [e]) k tok (count + 1) (if toLex e0 < toLex e then e else e0) := by
  have hfoll := followers_concat_self he seen
  constructor
  case count => rw [hfoll, List.length_append, h.count]; rfl
  case mem =>
    rw [hfoll]
    split
    · exact List.mem_append_right _ (List.mem_singleton.mpr rfl)
    · exact List.mem_append_left _ h.mem
  case latest =>
    rw [hfoll]
    intro e' he'
    obtain he' | he' := List.mem_append.mp he'
    · have hle := h.latest e' he'
      split
      case isTrue hlt => exact hle.trans hlt.le
      case isFalse => exact hle
    · rw [List.mem_singleton.mp he']
      split
      case isTrue => exact le_rfl
      case isFalse hlt => exact not_lt.mp hlt

/-- An entry counts for the token that follows it. -/
lemma Tallied.put {c : Cache} {k : ℕ} {seen : List (ℕ × ℕ)} {counts : Map Token (ℕ × ℕ × ℕ)}
    (h : c.Tallied k seen counts) {e : ℕ × ℕ} {tok : Token} (he : c.tokenOf k e = some tok) :
    c.Tallied k (seen ++ [e]) (counts.put tok
      (countUp (c.endOf e) ((counts.lookup tok).getD (0, c.endOf e)))) := by
  have hne {tok' : Token} (hn : tok' ≠ tok) :
      c.followers (seen ++ [e]) k tok' = c.followers seen k tok' :=
    followers_concat_ne (fun h => hn (Option.some.inj (h.symm.trans he))) seen
  constructor
  case absent =>
    intro tok' hnone
    rw [Map.lookup_put] at hnone
    split at hnone
    case isTrue => cases hnone
    case isFalse hn =>
      rw [hne hn]
      exact h.absent tok' hnone
  case present =>
    intro tok' item hsome
    rw [Map.lookup_put] at hsome
    split at hsome
    case isFalse hn =>
      obtain ⟨e0, he0, hf⟩ := h.present tok' item hsome
      refine ⟨e0, he0, ?_⟩
      constructor
      case count => rw [hne hn]; exact hf.count
      case mem => rw [hne hn]; exact hf.mem
      case latest => rw [hne hn]; exact hf.latest
    case isTrue heq =>
      subst heq
      cases hl : counts.lookup tok' with
      | none =>
        rw [hl] at hsome
        cases hsome
        refine ⟨e, ?_, .first he (h.absent tok' hl)⟩
        simp only [countUp, Option.getD_none, ite_self]
      | some item0 =>
        obtain ⟨e0, he0, hf⟩ := h.present tok' item0 hl
        rw [hl] at hsome
        cases hsome
        refine ⟨_, ?_, hf.more he⟩
        simp only [countUp, Option.getD_some, he0, gt_iff_lt, toLex_endOf_lt]
        split
        · rfl
        · rfl

/-- The counts of a step. -/
lemma tally_eq {c : Cache} {k : ℕ} (entries : List (ℕ × ℕ))
    (hlive : ∀ e ∈ entries, c.sequences.lookup e.1 = some (c.seq e.1)) :
    ∃ counts, c.tally k (entries.map c.endOf) ∅ = some counts ∧ c.Tallied k entries counts := by
  suffices hall : ∀ (rest seen : List (ℕ × ℕ)) (counts : Map Token (ℕ × ℕ × ℕ)),
      (∀ e ∈ rest, c.sequences.lookup e.1 = some (c.seq e.1)) → c.Tallied k seen counts →
      ∃ counts', c.tally k (rest.map c.endOf) counts = some counts' ∧
        c.Tallied k (seen ++ rest) counts' from hall entries [] ∅ hlive (.empty c k)
  intro rest
  induction rest with
  | nil => exact fun seen counts _ h => ⟨counts, rfl, by rwa [List.append_nil]⟩
  | cons e rest ih =>
    intro seen counts hrest h
    have htok := tokenAt_endOf (hrest e List.mem_cons_self) k
    have htail : ∀ e' ∈ rest, c.sequences.lookup e'.1 = some (c.seq e'.1) :=
      fun e' he' => hrest e' (List.mem_cons_of_mem _ he')
    rw [List.append_cons]
    cases ht : c.tokenOf k e with
    | none =>
      obtain ⟨counts', htally, h'⟩ := ih (seen ++ [e]) counts htail (h.skip ht)
      refine ⟨counts', ?_, h'⟩
      simp only [List.map_cons, tally, htok, ht, Option.bind_eq_bind, Option.bind_some]
      exact htally
    | some tok =>
      obtain ⟨counts', htally, h'⟩ := ih (seen ++ [e]) _ htail (h.put ht)
      refine ⟨counts', ?_, h'⟩
      simp only [List.map_cons, tally, htok, ht, Option.bind_eq_bind, Option.bind_some]
      exact htally

end Cache
end SuffixHybrid
