import SuffixHybrid.Cache.Live

/-!
# Lookups never abort

In a cache with a content (`Holds`) every index entry points into a live sequence, so no access of
`speculate` is out of bounds and no sequence is missing (`Holds.speculate`). A lookup reads the last
`depth` tokens of its context only (`speculate_append`), and an empty cache has no continuation
(`Holds.speculate_of_tokens_eq_zero`).
-/

namespace SuffixHybrid
open Lib

namespace Cache

/-- The cache invariant: the cache is the cache of some list of live sequences. -/
def Inv (c : Cache) : Prop := ∃ live, c.Holds live

lemma inv_new (cfg : Config) : (Cache.new cfg).Inv := ⟨[], holds_new cfg⟩

/-- `add` ends and keeps the invariant and the configuration. -/
lemma Inv.add {c : Cache} (h : c.Inv) (tokens : List Token) :
    ∃ c', c.add tokens = some c' ∧ c'.Inv ∧ c'.cfg = c.cfg := by
  obtain ⟨live, h⟩ := h
  obtain ⟨c', live', e, h', hcfg, _⟩ := h.add tokens
  exact ⟨c', e, ⟨live', h'⟩, hcfg⟩

/-- `add_prompt` ends and keeps the invariant and the configuration. -/
lemma Inv.addPrompt {c : Cache} (h : c.Inv) (tokens : List Token) :
    ∃ c', c.addPrompt tokens = some c' ∧ c'.Inv ∧ c'.cfg = c.cfg := by
  unfold Cache.addPrompt
  split
  · exact h.add tokens
  · exact ⟨c, rfl, h, rfl⟩

/-- The empty sequence is never added. -/
@[simp] lemma add_nil (c : Cache) : c.add [] = some c := by
  simp [Cache.add, truncate]

/-- Extending a match stays inside the sequence and the window. -/
lemma extendMatch_total {seq window : List Token} {e : ℕ} (left matched : ℕ) (he : e ≤ seq.length)
    (hw : left + matched ≤ window.length) :
    ∃ m, extendMatch seq window e left matched = some m := by
  induction left generalizing matched with
  | zero => exact ⟨matched, rfl⟩
  | succ left ih =>
    unfold extendMatch
    split
    case isFalse => exact ⟨matched, rfl⟩
    case isTrue hlt =>
      have hs : e - matched - 1 < seq.length := by omega
      have hv : window.length - matched - 1 < window.length := by omega
      rw [List.getElem?_eq_getElem hs, List.getElem?_eq_getElem hv]
      simp only [Option.bind_eq_bind, Option.bind_some]
      split
      · exact ih _ (by omega)
      · exact ⟨matched, rfl⟩

lemma mem_keepBest {matched : ℕ} {e e' : ℕ × ℕ} {acc : ℕ × List (ℕ × ℕ)}
    (h : e' ∈ (keepBest matched e acc).2) : e' = e ∨ e' ∈ acc.2 := by
  unfold keepBest at h
  by_cases hgt : matched > acc.1
  · simp only [hgt, if_true, List.nil_append, List.mem_singleton] at h
    exact Or.inl h
  · simp only [hgt, if_false] at h
    split at h
    · rcases List.mem_append.mp h with h | h
      · exact Or.inr h
      · exact Or.inl (List.mem_singleton.mp h)
    · exact Or.inr h

/-- The candidate loop finds every sequence, and so do its ends. -/
lemma bestEnds_total {c : Cache} {window : List Token} (hn : c.cfg.n ≤ window.length)
    (cands : List (ℕ × ℕ))
    (hc : ∀ e ∈ cands, ∃ seq, c.sequences.lookup e.1 = some seq ∧ e.2 + c.cfg.n ≤ seq.length)
    (acc : ℕ × List (ℕ × ℕ)) (hacc : ∀ e ∈ acc.2, e.1 ∈ c.sequences) :
    ∃ best ends, c.bestEnds window cands acc = some (best, ends) ∧
      ∀ e ∈ ends, e.1 ∈ c.sequences := by
  induction cands generalizing acc with
  | nil => exact ⟨acc.1, acc.2, rfl, hacc⟩
  | cons cand cands ih =>
    obtain ⟨id, pos⟩ := cand
    obtain ⟨seq, hseq, hpos⟩ := hc (id, pos) (by simp)
    obtain ⟨m, hm⟩ := extendMatch_total (window.length - c.cfg.n) c.cfg.n
      hpos (show _ ≤ window.length by omega)
    simp only [bestEnds, hseq, hm, Option.bind_eq_bind, Option.bind_some]
    apply ih fun e he => hc e (by simp [he])
    intro e he
    rcases mem_keepBest he with rfl | he
    · exact Map.mem_of_lookup hseq
    · exact hacc e he

lemma tokenAt_total {c : Cache} {e : ℕ × ℕ} (h : e.1 ∈ c.sequences) (step : ℕ) :
    ∃ t, c.tokenAt step e = some t := by
  obtain ⟨seq, hseq⟩ := Map.exists_lookup h
  exact ⟨seq[e.2 + step]?, by simp [tokenAt, hseq]⟩

lemma tally_total {c : Cache} {ends : List (ℕ × ℕ)} (h : ∀ e ∈ ends, e.1 ∈ c.sequences)
    (step : ℕ) (counts : Map Token (ℕ × ℕ × ℕ)) :
    ∃ counts', c.tally step ends counts = some counts' := by
  induction ends generalizing counts with
  | nil => exact ⟨counts, rfl⟩
  | cons e ends ih =>
    obtain ⟨t, ht⟩ := tokenAt_total (h e (by simp)) step
    have hrest : ∀ e ∈ ends, e.1 ∈ c.sequences := fun e' he => h e' (by simp [he])
    cases t with
    | none => simpa [tally, ht] using ih hrest counts
    | some tok => simpa [tally, ht] using ih hrest _

lemma retain_total {c : Cache} {ends : List (ℕ × ℕ)} (h : ∀ e ∈ ends, e.1 ∈ c.sequences)
    (step : ℕ) (tok : Token) :
    ∃ ends', c.retain step tok ends = some ends' ∧ ∀ e ∈ ends', e ∈ ends := by
  induction ends with
  | nil => exact ⟨[], rfl, by simp⟩
  | cons e ends ih =>
    obtain ⟨t, ht⟩ := tokenAt_total (h e (by simp)) step
    obtain ⟨ends', he, hsub⟩ := ih fun e' he => h e' (by simp [he])
    refine ⟨_, by simp [retain, ht, he]; rfl, ?_⟩
    intro e' he'
    split at he'
    · rcases List.mem_cons.mp he' with rfl | he'
      · simp
      · simp [hsub e' he']
    · simp [hsub e' he']

/-- The continuation loop ends, with at most one token a step. -/
lemma follow_total [F64] {c : Cache} (left step : ℕ) {ends : List (ℕ × ℕ)}
    (h : ∀ e ∈ ends, e.1 ∈ c.sequences) (score : ℚ) :
    ∃ toks score', c.follow left step ends score = some (toks, score') ∧ toks.length ≤ left := by
  induction left generalizing step ends score with
  | zero => exact ⟨[], score, rfl, by simp⟩
  | succ left ih =>
    obtain ⟨counts, hc⟩ := tally_total h step ∅
    cases ht : topCount counts with
    | none => exact ⟨[], score, by simp [follow, hc, ht], by simp⟩
    | some top =>
      obtain ⟨tok, support⟩ := top
      by_cases hs : support < c.cfg.support
      · exact ⟨[], score, by simp [follow, hc, ht, hs], by simp⟩
      · obtain ⟨ends', hr, hsub⟩ := retain_total h step tok
        obtain ⟨toks, score', hf, hlen⟩ := ih (step + 1)
          (fun e he => h e (hsub e he))
          (F64.mul score (F64.div (F64.ofNat support) (F64.ofNat ends.length)))
        exact ⟨tok :: toks, score', by simp [follow, hc, ht, hs, hr, hf], by simpa using hlen⟩

/-- An index entry points into a live sequence. -/
lemma Holds.index_entry {c : Cache} {live : List (ℕ × List Token)} (h : c.Holds live)
    {key : List Token} {b : List (ℕ × ℕ)} (hb : c.index.lookup key = some b) {e : ℕ × ℕ}
    (he : e ∈ b) :
    ∃ seq, c.sequences.lookup e.1 = some seq ∧ e.2 + c.cfg.n ≤ seq.length := by
  obtain ⟨seq, hs, hp, _⟩ := mem_entries.mp (h.index.mem_posts hb he)
  exact ⟨seq, (h.sequences e.1 seq).mpr hs, hp⟩

/-- A lookup ends, with at most `maxTokens` tokens. -/
theorem Inv.speculate [F64] {c : Cache} (h : c.Inv) (context : List Token) (maxTokens : ℕ) :
    ∃ toks score m, c.speculate context maxTokens = some (toks, score, m) ∧
      toks.length ≤ maxTokens := by
  obtain ⟨live, h⟩ := h
  simp only [Cache.speculate, sliceFrom_sub, Option.bind_eq_bind, Option.bind_some]
  generalize context.drop (context.length - c.cfg.depth) = window
  split
  case isTrue => exact ⟨[], 0, 0, rfl, by simp⟩
  case isFalse hlong =>
    cases hb : c.index.lookup (window.drop (window.length - c.cfg.n)) with
    | none => exact ⟨[], 0, 0, rfl, by simp⟩
    | some b =>
      obtain ⟨best, ends, hbest, hends⟩ := bestEnds_total
        (show c.cfg.n ≤ window.length by omega) (b.reverse.take c.cfg.candidates)
        (fun e he => h.index_entry hb (by simpa using List.mem_of_mem_take he)) (0, []) (by simp)
      obtain ⟨toks, score, hf, hlen⟩ := follow_total (specCap c.cfg maxTokens best)
        0 hends 1
      refine ⟨toks, _, best, by simp [hbest, hf]; rfl, hlen.trans ?_⟩
      exact min_le_left _ _

/-- A lookup reads the last `depth` tokens of its context. -/
lemma speculate_append [F64] (c : Cache) (old window : List Token) (maxTokens : ℕ)
    (h : c.cfg.depth ≤ window.length) :
    c.speculate (old ++ window) maxTokens = c.speculate window maxTokens := by
  have hdrop : (old ++ window).drop ((old ++ window).length - c.cfg.depth)
      = window.drop (window.length - c.cfg.depth) := by
    rw [List.length_append, List.drop_append, List.drop_eq_nil_of_le (by omega), List.nil_append]
    congr 1
    omega
  simp only [Cache.speculate, sliceFrom_sub, hdrop]

/-- An empty cache has no continuation for any context. -/
lemma Inv.speculate_of_tokens_eq_zero [F64] {c : Cache} (h : c.Inv) (h0 : c.tokens = 0)
    (context : List Token) (maxTokens : ℕ) : c.speculate context maxTokens = some ([], 0, 0) := by
  obtain ⟨live, h⟩ := h
  have hlive : live = [] := by
    rcases live with _ | ⟨s, live⟩
    · rfl
    · have hlong := h.long s (by simp)
      have htok := h.tokens
      simp only [h0, List.map_cons, List.sum_cons] at htok
      omega
  have hindex : ∀ key, c.index.lookup key = none := fun key => by
    rw [h.index key, hlive]
    rfl
  simp only [Cache.speculate, sliceFrom_sub, hindex, Option.bind_eq_bind, Option.bind_some, ite_self]

end Cache
end SuffixHybrid
