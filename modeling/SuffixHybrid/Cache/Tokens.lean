import SuffixHybrid.Cache.Speculate

/-!
# The tokens of a cache

The cache invents no tokens: what it stores are tokens of its inputs (`Within.add`), and a continuation
only has stored tokens (`Within.speculate`).
-/

namespace SuffixHybrid
open Lib

namespace Cache

/-- Every stored token has a property. -/
def Within (c : Cache) (V : Token → Prop) : Prop :=
  ∀ id seq, c.sequences.lookup id = some seq → ∀ tok ∈ seq, V tok

lemma within_new (cfg : Config) (V : Token → Prop) : (Cache.new cfg).Within V := by
  intro id seq h
  simp [Cache.new] at h

/-! ## Adding -/

lemma Within.evict {c c' : Cache} {V : Token → Prop} (h : c.Within V) (he : c.evict = some c') :
    c'.Within V := by
  unfold Cache.evict at he
  split at he
  · cases he
    exact h
  · simp only [Option.bind_eq_bind, Option.bind_eq_some_iff] at he
    obtain ⟨seq, _, tokens, _, heq⟩ := he
    cases heq
    intro id seq hlookup
    rw [Map.lookup_erase_eq] at hlookup
    split at hlookup
    · cases hlookup
    · exact h id seq hlookup

lemma Within.makeRoom {c c' : Cache} {V : Token → Prop} (h : c.Within V) {len rounds : ℕ}
    (hm : makeRoom len rounds c = some c') : c'.Within V := by
  induction rounds generalizing c with
  | zero =>
    unfold Cache.makeRoom at hm
    split at hm
    · cases hm
    · cases hm
      exact h
  | succ rounds ih =>
    unfold Cache.makeRoom at hm
    split at hm
    · obtain ⟨c1, he, hrest⟩ := Option.bind_eq_some_iff.mp hm
      exact ih (h.evict he) hrest
    · cases hm
      exact h

lemma Within.push {c : Cache} {V : Token → Prop} (h : c.Within V) {tokens : List Token}
    (htokens : ∀ tok ∈ tokens, V tok) : (c.push tokens).Within V := by
  intro id seq hlookup
  simp only [Cache.push, Map.lookup_put] at hlookup
  split at hlookup
  · cases hlookup
    exact htokens
  · exact h id seq hlookup

lemma mem_of_mem_truncate {cfg : Config} {tokens : List Token} {tok : Token}
    (h : tok ∈ truncate cfg tokens) : tok ∈ tokens := by
  unfold truncate at h
  split at h
  · exact List.mem_of_mem_drop h
  · exact h

/-- `add` stores tokens of its input. -/
lemma Within.add {c c' : Cache} {V : Token → Prop} (h : c.Within V) {tokens : List Token}
    (htokens : ∀ tok ∈ tokens, V tok) (ha : c.add tokens = some c') : c'.Within V := by
  unfold Cache.add at ha
  split at ha
  · cases ha
    exact h
  · dsimp only at ha
    split at ha
    · cases ha
      exact h
    · obtain ⟨c1, hroom, rfl⟩ := Option.map_eq_some_iff.mp ha
      exact (h.makeRoom hroom).push fun tok htok => htokens tok (mem_of_mem_truncate htok)

lemma Within.run_add {c c' : Cache} {V : Token → Prop} (h : c.Within V) {inputs : List (List Token)}
    (hinputs : ∀ tokens ∈ inputs, ∀ tok ∈ tokens, V tok) (hr : run Cache.add c inputs = some c') :
    c'.Within V := by
  induction inputs generalizing c with
  | nil =>
    cases hr
    exact h
  | cons tokens inputs ih =>
    rw [run_cons, Option.bind_eq_some_iff] at hr
    obtain ⟨c1, hadd, hrest⟩ := hr
    exact ih (h.add (hinputs tokens (by simp)) hadd)
      (fun input hin => hinputs input (List.mem_cons_of_mem _ hin)) hrest

/-! ## Lookups -/

lemma Within.tokenAt {c : Cache} {V : Token → Prop} (h : c.Within V) {step : ℕ} {e : ℕ × ℕ}
    {tok : Token} (ht : c.tokenAt step e = some (some tok)) : V tok := by
  obtain ⟨seq, hseq, hget⟩ := Option.map_eq_some_iff.mp ht
  exact h e.1 seq hseq tok (List.mem_of_getElem? hget)

/-- The counted tokens are stored tokens. -/
lemma Within.tally {c : Cache} {V : Token → Prop} (h : c.Within V) {step : ℕ} {ends : List (ℕ × ℕ)}
    {counts counts' : Map Token (ℕ × ℕ × ℕ)} (hcounts : ∀ tok ∈ counts, V tok)
    (ht : c.tally step ends counts = some counts') : ∀ tok ∈ counts', V tok := by
  induction ends generalizing counts with
  | nil =>
    cases ht
    exact hcounts
  | cons e ends ih =>
    simp only [Cache.tally, Option.bind_eq_bind, Option.bind_eq_some_iff] at ht
    obtain ⟨t, htok, ht⟩ := ht
    cases t with
    | none => exact ih hcounts ht
    | some tok =>
      refine ih (fun tok' htok' => ?_) ht
      rw [Map.mem_put] at htok'
      rcases htok' with rfl | htok'
      · exact h.tokenAt htok
      · exact hcounts tok' htok'

lemma foldl_pick_mem {β : Type} {pick : Option β → β → Option β}
    (hpick : ∀ best e, pick best e = some e ∨ pick best e = best) (l : List β) {best : Option β} {b : β}
    (h : l.foldl pick best = some b) : b ∈ l ∨ best = some b := by
  induction l generalizing best with
  | nil => exact Or.inr h
  | cons e l ih =>
    rcases ih h with hmem | hbest
    · exact Or.inl (List.mem_cons_of_mem e hmem)
    · rcases hpick best e with he | he
      · rw [he, Option.some.injEq] at hbest
        exact Or.inl (hbest ▸ List.mem_cons_self)
      · exact Or.inr (he ▸ hbest)

/-- The most frequent token has been counted. -/
lemma mem_of_topCount {counts : Map Token (ℕ × ℕ × ℕ)} {tok : Token} {support : ℕ}
    (h : topCount counts = some (tok, support)) : tok ∈ counts := by
  obtain ⟨e, he, heq⟩ := Option.map_eq_some_iff.mp h
  have hpick (best : Option (Sigma fun _ : Token => ℕ × ℕ × ℕ)) (e : Sigma fun _ : Token => ℕ × ℕ × ℕ) :
      (if best.all (ranksBelow · e) then some e else best) = some e ∨
        (if best.all (ranksBelow · e) then some e else best) = best := by
    split
    · exact Or.inl rfl
    · exact Or.inr rfl
  rcases foldl_pick_mem hpick _ he with hmem | hnone
  · rw [← (Prod.mk.inj heq).1, AList.mem_keys]
    exact List.mem_map_of_mem hmem
  · cases hnone

/-- The continuation loop yields stored tokens. -/
lemma Within.follow [F64] {c : Cache} {V : Token → Prop} (h : c.Within V) {left step : ℕ}
    {ends : List (ℕ × ℕ)} {score score' : ℚ} {toks : List Token}
    (hf : c.follow left step ends score = some (toks, score')) : ∀ tok ∈ toks, V tok := by
  induction left generalizing step ends score score' toks with
  | zero =>
    cases hf
    simp
  | succ left ih =>
    simp only [Cache.follow, Option.bind_eq_bind, Option.bind_eq_some_iff] at hf
    obtain ⟨counts, hcounts, hf⟩ := hf
    split at hf
    case h_1 =>
      cases hf
      simp
    case h_2 tok support htop =>
      split at hf
      case isTrue =>
        cases hf
        simp
      case isFalse =>
        simp only [Option.bind_eq_some_iff, Prod.exists, Option.some.injEq, Prod.mk.injEq] at hf
        obtain ⟨ends', _, rest, score'', hrest, rfl, _⟩ := hf
        intro tok' htok'
        rcases List.mem_cons.mp htok' with rfl | hmem
        · exact h.tally (by simp) hcounts _ (mem_of_topCount htop)
        · exact ih hrest tok' hmem

/-- A continuation has stored tokens only. -/
theorem Within.speculate [F64] {c : Cache} {V : Token → Prop} (h : c.Within V) {context : List Token}
    {maxTokens : ℕ} {toks : List Token} {score : ℚ} {m : ℕ}
    (hs : c.speculate context maxTokens = some (toks, score, m)) : ∀ tok ∈ toks, V tok := by
  simp only [Cache.speculate, Option.bind_eq_bind, Option.bind_eq_some_iff] at hs
  obtain ⟨window, _, hs⟩ := hs
  split at hs
  · cases hs
    simp
  · obtain ⟨key, _, hs⟩ := Option.bind_eq_some_iff.mp hs
    split at hs
    · cases hs
      simp
    · simp only [Option.bind_eq_some_iff, Prod.exists, Option.some.injEq, Prod.mk.injEq] at hs
      obtain ⟨best, ends, _, result, score', hf, rfl, _⟩ := hs
      exact h.follow hf

end Cache
end SuffixHybrid
