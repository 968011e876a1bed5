import Mathlib.Data.List.ReduceOption
import SuffixHybrid.Cache.Speculate
import SuffixHybrid.Engine.Basic
import SuffixHybrid.Mixer.Agree

/-!
# The rows of an engine

A call hands every old context on: a row of the batch takes it over, or the cache gets it. `sources`
lists the places of the contexts that the rows take. They are distinct, because a context leaves the
pool with the row that takes it (`Pooled`), and what is not among them is donated, in order
(`rows_conserved`). Where the boundary windows do not deceive, the new contexts are the rows.
-/

namespace SuffixHybrid
open Lib

namespace Engine

/-! ## The windows -/

lemma zip_all_beq {a b : List Token} (h : a.length = b.length) :
    ((a.zip b).all fun (x, y) => x == y) = (a == b) := by
  induction a generalizing b with
  | nil =>
    cases b with
    | nil => rfl
    | cons y b => cases h
  | cons x a ih =>
    cases b with
    | nil => cases h
    | cons y b => simp [ih (Nat.succ.inj h)]

/-- The windows test of the engine is the boundary test of the mixer on a context that is not empty. -/
lemma prefixOfRow_eq {n : ℕ} {row v : List Token} (hn : n ≤ row.length) :
    prefixOfRow n row v = (!v.isEmpty && boundaryMatches v (row.take n)) := by
  have hlen : (row.take n).length = n := List.length_take_of_le hn
  unfold prefixOfRow boundaryMatches
  dsimp only
  rw [hlen]
  by_cases hempty : v.length = 0
  · rw [List.length_eq_zero_iff.mp hempty]
    simp
  · have hne : v.isEmpty = false := by
      rw [List.isEmpty_eq_false_iff]
      exact fun h => hempty (by rw [h, List.length_nil])
    by_cases hlong : v.length > n
    · simp [hlong, hne]
    · rw [if_neg (by omega), if_neg hlong, hne, List.all_append]
      -- both windows of the row lie in its first `n` tokens
      have hfirst : (row.take n).take (min 64 v.length) = row.take (min 64 v.length) := by
        rw [List.take_take, Nat.min_eq_left (by omega)]
      have hlast : ((row.take n).drop (v.length - min 64 v.length)).take (min 64 v.length)
          = (row.drop (v.length - min 64 v.length)).take (min 64 v.length) := by
        rw [List.drop_take, List.take_take, Nat.min_eq_left (by omega)]
      rw [zip_all_beq (by simp; omega), zip_all_beq (by simp; omega), hfirst, hlast]
      rfl

/-- A context of at most 128 tokens that passes the windows test is a prefix of the row. -/
lemma prefix_of_prefixOfRow {n : ℕ} {row v : List Token} (hn : n ≤ row.length)
    (hlen : v.length ≤ 128) (h : prefixOfRow n row v = true) : v <+: row.take n := by
  rw [prefixOfRow_eq hn, Bool.and_eq_true] at h
  exact List.isPrefixOf_iff_prefix.mp (boundaryMatches_short hlen h.2)

lemma length_le_of_prefixOfRow {n : ℕ} {row v : List Token} (h : prefixOfRow n row v = true) :
    v.length ≤ n := by
  unfold prefixOfRow at h
  dsimp only at h
  split at h
  · cases h
  · omega

/-! ## The pool -/

/-- A row takes a context that is in the pool and passes its windows test. -/
lemma matched_spec {old : Pool} {i n j : ℕ} {row : List Token} (h : matched old i n row = some j) :
    ∃ v, old[j]? = some (some v) ∧ prefixOfRow n row v = true := by
  unfold matched at h
  split at h
  case isTrue hsame =>
    cases h
    obtain ⟨v, hv, hpre⟩ := (Option.any_eq_true _ _).mp hsame
    exact ⟨v, Option.join_eq_some_iff.mp hv, hpre⟩
  case isFalse =>
    obtain ⟨hj, hany, _⟩ := List.findIdx?_eq_some_iff_getElem.mp h
    obtain ⟨v, hv, hpre⟩ := (Option.any_eq_true _ _).mp hany
    exact ⟨v, by rw [List.getElem?_eq_getElem hj, hv], hpre⟩

/-- The places of the old contexts that the rows take, from row `i` on. -/
def sources : ℕ → List (ℕ × List Token) → Pool → List (Option ℕ)
  | _, [], _ => []
  | i, (n, row) :: rest, old =>
    matched old i n row :: sources (i + 1) rest (taken old (matched old i n row))

/-- The context of a row whose source is known. -/
def Extended (old : Pool) (n : ℕ) (row : List Token) (source : Option ℕ) (context : List Token) :
    Prop :=
  match source with
  | none => context = row.take n
  | some j => ∃ v, old[j]? = some (some v) ∧ prefixOfRow n row v = true ∧
      context = v ++ (row.take n).drop v.length

lemma getElem?_taken {old : Pool} {source : Option ℕ} {j : ℕ} {v : List Token} :
    (taken old source)[j]? = some (some v) ↔ old[j]? = some (some v) ∧ source ≠ some j := by
  cases source with
  | none => simp [taken]
  | some k =>
    rw [taken, List.getElem?_set]
    by_cases hk : k = j
    · subst hk
      rw [if_pos rfl]
      split <;> simp
    · simp [hk]

/-- The rows take contexts from the pool only. -/
lemma of_mem_sources {i : ℕ} {batch : List (ℕ × List Token)} {old : Pool} {j : ℕ}
    (h : some j ∈ sources i batch old) : ∃ v, old[j]? = some (some v) := by
  induction batch generalizing i old with
  | nil => simp [sources] at h
  | cons e batch ih =>
    obtain ⟨n, row⟩ := e
    rw [sources, List.mem_cons] at h
    rcases h with hfirst | hrest
    · obtain ⟨v, hv, _⟩ := matched_spec hfirst.symm
      exact ⟨v, hv⟩
    · obtain ⟨v, hv⟩ := ih hrest
      exact ⟨v, (getElem?_taken.mp hv).1⟩

/-- No context is taken twice. -/
lemma nodup_sources (i : ℕ) (batch : List (ℕ × List Token)) (old : Pool) :
    (sources i batch old).reduceOption.Nodup := by
  induction batch generalizing i old with
  | nil => exact List.nodup_nil
  | cons e batch ih =>
    obtain ⟨n, row⟩ := e
    have hrest := ih (i + 1) (taken old (matched old i n row))
    rw [sources]
    cases hm : matched old i n row with
    | none =>
      rw [List.reduceOption_cons_of_none]
      rwa [hm] at hrest
    | some j =>
      rw [hm] at hrest
      rw [List.reduceOption_cons_of_some, List.nodup_cons]
      refine ⟨fun hmem => ?_, hrest⟩
      -- the row has taken the context at `j` out of the pool
      obtain ⟨v, hv⟩ := of_mem_sources (List.reduceOption_mem_iff.mp hmem)
      exact (getElem?_taken.mp hv).2 rfl

/-- What the matching loop makes of a pool. -/
structure Pooled (i : ℕ) (batch : List (ℕ × List Token)) (old : Pool)
    (contexts : List (List Token)) (left : Pool) : Prop where
  length : contexts.length = batch.length
  left_length : left.length = old.length
  left : ∀ (j : ℕ) (v : List Token),
    left[j]? = some (some v) ↔ old[j]? = some (some v) ∧ some j ∉ sources i batch old
  extended : ∀ (r n : ℕ) (row : List Token), batch[r]? = some (n, row) → ∃ source context,
    (sources i batch old)[r]? = some source ∧ contexts[r]? = some context ∧
    Extended old n row source context

lemma context_spec {old : Pool} {i n : ℕ} {row : List Token} :
    ∃ current, context old i n row = some current ∧
      Extended old n row (matched old i n row) current := by
  cases hm : matched old i n row with
  | none =>
    refine ⟨row.take n, ?_, rfl⟩
    simp [context, hm]
  | some j =>
    obtain ⟨v, hv, hpre⟩ := matched_spec hm
    have hle := length_le_of_prefixOfRow hpre
    refine ⟨v ++ (row.take n).drop v.length, ?_, v, hv, hpre, rfl⟩
    simp only [context, hm, Option.bind_some, hv, Option.join_some, Option.getD_some,
      checkedSub_of_le hle, Option.bind_eq_bind, List.drop_take]

/-- The matching loop ends. -/
lemma track_spec (batch : List (ℕ × List Token)) (i : ℕ) (old : Pool) :
    ∃ contexts left, track i batch old = some (contexts, left) ∧ Pooled i batch old contexts left := by
  induction batch generalizing i old with
  | nil =>
    refine ⟨[], old, rfl, ?_⟩
    exact {
      length := rfl
      left_length := rfl
      left := by simp [sources]
      extended := by simp }
  | cons e batch ih =>
    obtain ⟨n, row⟩ := e
    obtain ⟨current, hcurrent, hext⟩ : ∃ current, context old i n row = some current ∧
        Extended old n row (matched old i n row) current := context_spec
    obtain ⟨contexts, left, htrack, hp⟩ := ih (i + 1) (taken old (matched old i n row))
    refine ⟨current :: contexts, left, by simp [track, hcurrent, htrack], ?_⟩
    exact {
      length := by rw [List.length_cons, List.length_cons, hp.length]
      left_length := by
        rw [hp.left_length]
        cases matched old i n row <;> simp [taken]
      left := fun j v => by
        rw [hp.left, getElem?_taken, sources, List.mem_cons, not_or, and_assoc, ne_comm]
      extended := fun r n' row' hr => by
        cases r with
        | zero =>
          obtain ⟨rfl, rfl⟩ : n = n' ∧ row = row' := by simpa using hr
          exact ⟨_, current, rfl, rfl, hext⟩
        | succ r =>
          obtain ⟨source, context, hs, hc, hext'⟩ := hp.extended r n' row' (by simpa using hr)
          refine ⟨source, context, by simpa [sources] using hs, by simpa using hc, ?_⟩
          cases source with
          | none => exact hext'
          | some j =>
            obtain ⟨v, hv, hpre, rfl⟩ := hext'
            exact ⟨v, (getElem?_taken.mp hv).1, hpre, rfl⟩ }

/-! ## The drafts -/

/-- A draft fits the budget of its row and moves the counters only. -/
lemma draft_spec [F64] {e : Engine} (hinv : e.cache.Inv) (context sampled : List Token) :
    ∃ toks proposed suffixProposals ngramProposals matchSum,
      e.draft context sampled
        = some (toks, { e with proposed, suffixProposals, ngramProposals, matchSum }) ∧
      toks.length ≤ min e.k (e.maxModelLen - context.length) ∧ (sampled = [] → toks = []) := by
  unfold draft
  dsimp only
  split
  case isTrue => exact ⟨[], _, _, _, _, rfl, by simp, fun _ => rfl⟩
  case isFalse hgo =>
    obtain ⟨suffix, score, matched, hspec, hsuffix⟩ :=
      hinv.speculate context (min e.k (e.maxModelLen - context.length))
    have hngram : ∃ ng ngScore, e.lookupNgram context suffix score
        (min e.k (e.maxModelLen - context.length)) = some (ng, ngScore) ∧
        ng.length ≤ min e.k (e.maxModelLen - context.length) := by
      unfold lookupNgram
      dsimp only
      split
      · exact ngram_total context e.ngramMin e.ngramMax _ e.ngramWindow
      · exact ⟨[], 0, rfl, by simp⟩
    obtain ⟨ng, ngScore, hlookup, hng⟩ := hngram
    have hsampled : sampled ≠ [] := fun h => hgo (Or.inl (by rw [h]; rfl))
    simp only [hspec, hlookup, Option.bind_eq_bind, Option.bind_some]
    split
    · exact ⟨suffix, _, _, _, _, rfl, hsuffix, fun h => absurd h hsampled⟩
    · exact ⟨ng, _, _, _, _, rfl, hng, fun h => absurd h hsampled⟩

/-- The draft loop ends, with one draft a row. -/
lemma drafts_spec [F64] (rows : List (List Token × List Token)) {e : Engine} (hinv : e.cache.Inv) :
    ∃ result proposed suffixProposals ngramProposals matchSum,
      drafts rows e
        = some (result, { e with proposed, suffixProposals, ngramProposals, matchSum }) ∧
      List.Forall₂ (fun toks row => toks.length ≤ min e.k (e.maxModelLen - row.1.length) ∧
        (row.2 = [] → toks = [])) result rows := by
  induction rows generalizing e with
  | nil => exact ⟨[], _, _, _, _, rfl, .nil⟩
  | cons row rows ih =>
    obtain ⟨context, sampled⟩ := row
    obtain ⟨toks, p, sp, np, ms, hdraft, hrow⟩ := draft_spec hinv context sampled
    obtain ⟨result, p', sp', np', ms', hrest, hrows⟩ := ih
      (e := { e with proposed := p, suffixProposals := sp, ngramProposals := np, matchSum := ms }) hinv
    exact ⟨toks :: result, p', sp', np', ms', by simp [drafts, hdraft, hrest], .cons hrow hrows⟩

/-! ## The call -/

/-- The sources of the rows of a call. -/
def callSources (e : Engine) (size : ℕ) (counts : List ℤ) (tokens : Grid) : List (Option ℕ) :=
  sources 0 (batch size counts tokens) (e.rows.map some)

/-- The old contexts that no row of a call takes. -/
def leftover (e : Engine) (size : ℕ) (counts : List ℤ) (tokens : Grid) : List (List Token) :=
  (e.rows.zipIdx.filter fun r => some r.2 ∉ e.callSources size counts tokens).map Prod.fst

/-- The windows test of a batch holds for true prefixes only. -/
def WindowsSound (e : Engine) (size : ℕ) (counts : List ℤ) (tokens : Grid) : Prop :=
  ∀ v ∈ e.rows, ∀ r ∈ batch size counts tokens, prefixOfRow r.1 r.2 v = true → v <+: r.2.take r.1

/-- What a call does with the contexts: those that a row takes over are taken over once, and the others
are added to the cache. -/
structure Conserves (e : Engine) (sampled : List (List Token)) (counts : List ℤ) (tokens : Grid)
    (drafts : List (List Token)) (e' : Engine) : Prop where
  once : (e.callSources sampled.length counts tokens).reduceOption.Nodup
  old : ∀ j, some j ∈ e.callSources sampled.length counts tokens → j < e.rows.length
  added : Lib.run Cache.add e.cache (e.leftover sampled.length counts tokens) = some e'.cache
  rows_length : e'.rows.length = sampled.length
  drafts_length : drafts.length = sampled.length
  row : ∀ (i : ℕ) (toks : List Token) (n : ℤ) (row : List Token), sampled[i]? = some toks →
    counts[i]? = some n → tokens.rows[i]? = some row → ∃ source context draft,
      (e.callSources sampled.length counts tokens)[i]? = some source ∧
      e'.rows[i]? = some context ∧ drafts[i]? = some draft ∧
      Extended (e.rows.map some) n.toNat row source context ∧ context.length = n.toNat ∧
      (e.WindowsSound sampled.length counts tokens → context = row.take n.toNat) ∧
      draft.length ≤ min e.k (e.maxModelLen - n.toNat) ∧ (toks = [] → draft = [])

/-- The pool that a call leaves holds the contexts that no row takes. -/
lemma Pooled.reduceOption {e : Engine} {size : ℕ} {counts : List ℤ} {tokens : Grid}
    {contexts : List (List Token)} {left : Pool}
    (h : Pooled 0 (batch size counts tokens) (e.rows.map some) contexts left) :
    left.reduceOption = e.leftover size counts tokens := by
  have hleft : left = e.rows.zipIdx.map fun r =>
      if some r.2 ∉ e.callSources size counts tokens then some r.1 else none := by
    apply List.ext_getElem?
    intro j
    rw [List.getElem?_map, List.getElem?_zipIdx, Nat.zero_add, Option.map_map]
    have hlen : left.length = e.rows.length := by rw [h.left_length, List.length_map]
    cases hj : e.rows[j]? with
    | none =>
      rw [List.getElem?_eq_none_iff] at hj
      rw [Option.map_none, List.getElem?_eq_none_iff, hlen]
      exact hj
    | some v =>
      have hold : (e.rows.map some)[j]? = some (some v) := by rw [List.getElem?_map, hj]; rfl
      rw [Option.map_some, Function.comp_apply]
      dsimp only
      split
      case isTrue hfree => exact (h.left j v).mpr ⟨hold, hfree⟩
      case isFalse hmem =>
        have hlt : j < left.length := hlen ▸ (List.getElem?_eq_some_iff.mp hj).1
        rw [List.getElem?_eq_getElem hlt]
        congr 1
        cases hw : left[j] with
        | none => rfl
        | some w =>
          have hfree := ((h.left j w).mp (by rw [List.getElem?_eq_getElem hlt, hw])).2
          exact absurd hfree hmem
  rw [hleft, List.reduceOption, List.filterMap_map, leftover, ← List.filterMap_eq_map,
    List.filterMap_filter]
  congr 1
  funext r
  by_cases hr : some r.2 ∈ e.callSources size counts tokens <;> simp [hr]

/-- The outcome of a call: an exception without effect, or drafts with every context handed on. -/
def Conserving (e : Engine) (sampled : List (List Token)) (counts : List ℤ) (tokens : Grid) :
    Outcome → Prop
  | (.error _, e') => e' = e
  | (.ok drafts, e') => e.Conserves sampled counts tokens drafts e' ∧ e'.cache.Inv

/-- The context of a row is as long as its count says. Where the windows are sound it is the row. -/
lemma Extended.length {old : Pool} {n : ℕ} {row : List Token} {source : Option ℕ}
    {context : List Token} (h : Extended old n row source context) (hn : n ≤ row.length) :
    context.length = n := by
  cases source with
  | none =>
    rw [show context = row.take n from h, List.length_take_of_le hn]
  | some j =>
    obtain ⟨v, _, hpre, rfl⟩ := h
    have hle := length_le_of_prefixOfRow hpre
    simp only [List.length_append, List.length_drop, List.length_take]
    omega

lemma Extended.eq_take {old : Pool} {n : ℕ} {row : List Token} {source : Option ℕ}
    {context : List Token} (h : Extended old n row source context)
    (hsound : ∀ v, some v ∈ old → prefixOfRow n row v = true → v <+: row.take n) :
    context = row.take n := by
  cases source with
  | none => exact h
  | some j =>
    obtain ⟨v, hv, hpre, rfl⟩ := h
    obtain ⟨rest, hrest⟩ := hsound v (List.mem_of_getElem? hv) hpre
    rw [← hrest, List.drop_left]

lemma run_conserving [F64] {e : Engine} (hinv : e.cache.Inv) (sampled : List (List Token))
    (counts : List ℤ) (tokens : Grid) :
    ∃ out, e.run sampled counts tokens = some out ∧ e.Conserving sampled counts tokens out := by
  unfold run
  dsimp only
  split
  case isTrue => exact ⟨_, rfl, rfl⟩
  case isFalse hdims =>
    split
    case isTrue => exact ⟨_, rfl, rfl⟩
    case isFalse hcounts =>
      simp only [badDimensions, Bool.or_eq_true, decide_eq_true_eq, not_or, not_lt] at hdims
      obtain ⟨contexts, left, htrack, hp⟩ :=
        track_spec (batch sampled.length counts tokens) 0 (e.rows.map some)
      have hadd (c : Cache) (seq : List Token) (h : c.Inv) :
          ∃ c', Cache.add c seq = some c' ∧ c'.Inv := by
        obtain ⟨c', hadd, hc', _⟩ := h.add seq
        exact ⟨c', hadd, hc'⟩
      obtain ⟨cache, hadds, hcinv⟩ := run_total hadd hinv left.reduceOption
      obtain ⟨result, p, sp, np, ms, hdrafts, hresult⟩ :=
        drafts_spec (contexts.zip sampled) (e := { e with cache }) hcinv
      simp only [htrack, hadds, hdrafts, Option.bind_eq_bind, Option.bind_some]
      refine ⟨_, rfl, ?_, hcinv⟩
      have hbatch : (batch sampled.length counts tokens).length = sampled.length := by
        simp only [batch, List.length_zip, List.length_map, List.length_take]
        omega
      exact {
        once := nodup_sources _ _ _
        old := fun j hj => by
          obtain ⟨v, hv⟩ := of_mem_sources hj
          have hlt := (List.getElem?_eq_some_iff.mp hv).1
          rwa [List.length_map] at hlt
        added := by
          rw [← hp.reduceOption]
          exact hadds
        rows_length := hp.length.trans hbatch
        drafts_length := by
          rw [hresult.length_eq, List.length_zip, hp.length, hbatch, Nat.min_self]
        row := fun i toks n row hs hn hrow => by
          have hi := (List.getElem?_eq_some_iff.mp hs).1
          have hmem : (batch sampled.length counts tokens)[i]? = some (n.toNat, row) := by
            rw [batch, List.getElem?_zip_eq_some, List.getElem?_map, List.getElem?_take_of_lt hi, hn]
            exact ⟨rfl, hrow⟩
          have hle : n.toNat ≤ row.length := by
            have hin : n ∈ counts.take sampled.length :=
              List.mem_of_getElem? (by rw [List.getElem?_take_of_lt hi, hn])
            have hgood : ¬ e.badCount tokens n = true := fun hbad =>
              hcounts (List.any_eq_true.mpr ⟨n, hin, hbad⟩)
            simp only [badCount, Bool.or_eq_true, decide_eq_true_eq, not_or, not_lt] at hgood
            rw [tokens.rect row (List.mem_of_getElem? hrow)]
            exact hgood.1.2
          obtain ⟨source, context, hsource, hcontext, hext⟩ := hp.extended i _ row hmem
          have hclen := hext.length hle
          have hd : i < result.length := by
            rw [hresult.length_eq, List.length_zip, hp.length, hbatch, Nat.min_self]
            exact hi
          refine ⟨source, context, result[i], hsource, hcontext, List.getElem?_eq_getElem hd, hext, hclen,
            fun hsound => hext.eq_take fun v hv => ?_, ?_⟩
          · obtain ⟨v', hv', heq⟩ := List.mem_map.mp hv
            cases heq
            exact hsound v hv' _ (List.mem_of_getElem? hmem)
          · have hpair : (contexts.zip sampled)[i]? = some (context, toks) :=
              List.getElem?_zip_eq_some.mpr ⟨hcontext, hs⟩
            have hzip : (result[i], context, toks) ∈ result.zip (contexts.zip sampled) :=
              List.mem_of_getElem? (List.getElem?_zip_eq_some.mpr ⟨List.getElem?_eq_getElem hd, hpair⟩)
            have hdraft := List.forall₂_zip hresult hzip
            rwa [hclen] at hdraft }

/-! ## Reachable engines -/

/-- An operation on an engine or on its shared cache. -/
inductive Op where
  | propose (sampled : List (List Token)) (counts : CountArray) (tokens : TokenArray)
  | addSequence (tokens : List Token)
  | addPrompt (tokens : List Token)

/-- The engine after an operation. -/
def op [F64] (e : Engine) : Op → Option Engine
  | .propose sampled counts tokens => (e.propose sampled counts tokens).map Prod.snd
  | .addSequence tokens => (e.cache.add tokens).map fun cache => { e with cache }
  | .addPrompt tokens => (e.cache.addPrompt tokens).map fun cache => { e with cache }

/-- The engines that operations lead to from a new one. -/
def Reachable [F64] (e : Engine) : Prop :=
  ∃ cfg env numSpeculativeTokens maxModelLen e0 ops,
    Engine.new cfg env numSpeculativeTokens maxModelLen = .ok e0 ∧ Lib.run op e0 ops = some e

/-- Every operation keeps the invariant of the cache. -/
lemma op_inv [F64] {e e' : Engine} (h : e.cache.Inv) {operation : Op}
    (hop : e.op operation = some e') : e'.cache.Inv := by
  cases operation with
  | addSequence tokens =>
    obtain ⟨c, hc, hcinv, _⟩ := h.add tokens
    rw [op, hc] at hop
    cases hop
    exact hcinv
  | addPrompt tokens =>
    obtain ⟨c, hc, hcinv, _⟩ := h.addPrompt tokens
    rw [op, hc] at hop
    cases hop
    exact hcinv
  | propose sampled counts tokens =>
    obtain ⟨⟨r, t⟩, hpropose, rfl⟩ := Option.map_eq_some_iff.mp hop
    unfold propose at hpropose
    split at hpropose
    case h_1 =>
      cases hpropose
      exact h
    case h_2 cs _ =>
      split at hpropose
      case h_1 =>
        cases hpropose
        exact h
      case h_2 grid _ =>
        obtain ⟨out, hrun, hcons⟩ := run_conserving h sampled cs grid
        rw [hpropose] at hrun
        cases hrun
        cases r with
        | error err =>
          rw [show t = e from hcons]
          exact h
        | ok drafts => exact hcons.2

lemma Reachable.inv [F64] {e : Engine} (h : Reachable e) : e.cache.Inv := by
  obtain ⟨cfg, env, n, maxModelLen, e0, ops, hnew, hrun⟩ := h
  refine run_inv (fun _ _ _ hinv hop => op_inv hinv hop) ?_ hrun
  unfold Engine.new at hnew
  split at hnew
  · cases hnew
  · rw [← Except.ok.inj hnew]
    exact Cache.inv_new cfg

/-- Every call on an engine ends, without effect or with every old context handed on. A context of at most
128 tokens that passes the windows test is a prefix of the row. -/
theorem rows_conserved [F64] :
    (∀ e : Engine, Reachable e → e.cache.Inv) ∧
      (∀ e : Engine, e.cache.Inv → ∀ sampled counts tokens, ∃ out,
        e.run sampled counts tokens = some out ∧ e.Conserving sampled counts tokens out) ∧
      ∀ (n : ℕ) (row v : List Token), n ≤ row.length → v.length ≤ 128 →
        prefixOfRow n row v = true → v <+: row.take n :=
  ⟨fun _ h => h.inv, fun _ h sampled counts tokens => run_conserving h sampled counts tokens,
    fun _ _ _ hn hlen h => prefix_of_prefixOfRow hn hlen h⟩

/-- An engine that keeps two contexts. -/
def twoRows : Engine where
  cache := Cache.new Config.default
  rows := [[1, 2, 3], [4, 5]]
  k := 2
  maxModelLen := 8
  maxRows := 4
  ngramMin := 1
  ngramMax := 4
  ngramWindow := 0
  useNgram := true
  calls := 1
  proposed := 0
  suffixProposals := 0
  ngramProposals := 0
  matchSum := 0

/-- A batch of which the first row continues the second context and the second row is new. -/
theorem rows_conserved_swap :
    ∃ out, twoRows.run [[5], [7]] [3, 2] ⟨4, [[4, 5, 4, 0], [6, 7, 0, 0]], by decide⟩ = some out ∧
      twoRows.Conserving [[5], [7]] [3, 2] ⟨4, [[4, 5, 4, 0], [6, 7, 0, 0]], by decide⟩ out :=
  rows_conserved.2.1 twoRows (Cache.inv_new Config.default) [[5], [7]] [3, 2]
    ⟨4, [[4, 5, 4, 0], [6, 7, 0, 0]], by decide⟩

example : twoRows.callSources 2 [3, 2] ⟨4, [[4, 5, 4, 0], [6, 7, 0, 0]], by decide⟩
    = [some 1, none] := by decide

example : twoRows.leftover 2 [3, 2] ⟨4, [[4, 5, 4, 0], [6, 7, 0, 0]], by decide⟩ = [[1, 2, 3]] := by
  decide

end Engine
end SuffixHybrid
