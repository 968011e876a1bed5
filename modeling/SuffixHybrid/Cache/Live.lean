import SuffixHybrid.Cache.Basic
import SuffixHybrid.Lib.Suffix

/-!
# The live sequences of a cache

The abstract content of a cache is the list of its live sequences with their ids, oldest first.
`Holds c live` connects a cache with its content: `fifo`, `sequences`, `tokens` and the n-gram index
are all determined by it. Eviction drops the first live sequence (`Holds.evict`), the last part of
`add` appends one (`Holds.push`), and `add` as a whole keeps the longest suffix of its inputs that
meets the budgets (`Holds.add`). `Cache.content_of_run` is the result for a whole run.
-/

namespace SuffixHybrid
open Lib

/-- The budgets of a cache, on the live sequences. -/
def Config.Fits (cfg : Config) (seqs : List (List Token)) : Prop :=
  seqs.length ≤ cfg.sequences ∧ (seqs.map List.length).sum ≤ cfg.tokens

instance (cfg : Config) : DecidablePred cfg.Fits := fun _ => inferInstanceAs (Decidable (_ ∧ _))

/-- What a cache retains of an input: its truncation, if that is longer than an n-gram. -/
def Config.accepted (cfg : Config) (tokens : List Token) : List (List Token) :=
  if cfg.n < (Cache.truncate cfg tokens).length then [Cache.truncate cfg tokens] else []

lemma Config.fits_nil (cfg : Config) : cfg.Fits [] := by
  simp [Fits]

lemma Config.Fits.left {cfg : Config} {s r : List (List Token)} (h : cfg.Fits (s ++ r)) :
    cfg.Fits s := by
  simp only [Fits, List.length_append, List.map_append, List.sum_append] at h ⊢
  omega

lemma Config.Fits.tail {cfg : Config} {a : List Token} {s : List (List Token)}
    (h : cfg.Fits (a :: s)) : cfg.Fits s := by
  simp only [Fits, List.length_cons, List.map_cons, List.sum_cons] at h ⊢
  omega

namespace Cache

lemma truncate_length (cfg : Config) (tokens : List Token) :
    (truncate cfg tokens).length ≤ cfg.tokens := by
  unfold truncate
  split
  · rw [List.length_drop]
    omega
  · omega

/-- The index entries of the live sequences, in the order of posting. -/
def entries (n : ℕ) (live : List (ℕ × List Token)) : List (List Token × (ℕ × ℕ)) :=
  live.flatMap fun s => grams n s.1 s.2

/-- The cache has exactly these live sequences, oldest first. -/
structure Holds (c : Cache) (live : List (ℕ × List Token)) : Prop where
  fifo : c.fifo = live.map Prod.fst
  sequences : ∀ id seq, c.sequences.lookup id = some seq ↔ (id, seq) ∈ live
  tokens : c.tokens = (live.map fun s => s.2.length).sum
  index : Indexes c.cfg.positions c.index (entries c.cfg.n live)
  increasing : (live.map Prod.fst).Pairwise (· < ·)
  fresh : ∀ s ∈ live, s.1 < c.next
  long : ∀ s ∈ live, c.cfg.n < s.2.length
  fits : c.cfg.Fits (live.map Prod.snd)

lemma mem_grams {n id : ℕ} {tokens key : List Token} {e : ℕ × ℕ} :
    (key, e) ∈ grams n id tokens ↔
      e.1 = id ∧ e.2 + n ≤ tokens.length ∧ window n tokens e.2 = key := by
  obtain ⟨i, pos⟩ := e
  simp only [grams, List.mem_map, Prod.mk.injEq, Prod.exists]
  constructor
  · rintro ⟨k, p, hp, rfl, rfl, rfl⟩
    obtain ⟨hlt, hk⟩ := List.mem_zipIdx' hp
    simp only [windows, List.length_map, List.length_range] at hlt
    refine ⟨rfl, by omega, ?_⟩
    rw [hk]
    simp [windows]
  · rintro ⟨rfl, hp, rfl⟩
    refine ⟨window n tokens pos, pos, ?_, rfl, rfl, rfl⟩
    rw [List.mem_zipIdx_iff_getElem?]
    simp [windows, List.getElem?_range (show pos < tokens.length + 1 - n by omega)]

lemma mem_entries {n : ℕ} {live : List (ℕ × List Token)} {key : List Token} {e : ℕ × ℕ} :
    (key, e) ∈ entries n live ↔
      ∃ seq, (e.1, seq) ∈ live ∧ e.2 + n ≤ seq.length ∧ window n seq e.2 = key := by
  simp only [entries, List.mem_flatMap, mem_grams]
  constructor
  · rintro ⟨⟨id, seq⟩, hs, hid, hp, hk⟩
    exact ⟨seq, by rwa [hid], hp, hk⟩
  · rintro ⟨seq, hs, hp, hk⟩
    exact ⟨(e.1, seq), hs, rfl, hp, hk⟩

lemma entries_cons (n : ℕ) (s : ℕ × List Token) (live : List (ℕ × List Token)) :
    entries n (s :: live) = grams n s.1 s.2 ++ entries n live := by
  simp [entries]

lemma entries_concat (n : ℕ) (live : List (ℕ × List Token)) (s : ℕ × List Token) :
    entries n (live ++ [s]) = entries n live ++ grams n s.1 s.2 := by
  simp [entries]

/-- A new cache is empty. -/
lemma holds_new (cfg : Config) : (Cache.new cfg).Holds [] where
  fifo := rfl
  sequences id seq := by simp [new]
  tokens := rfl
  index := indexes_empty _
  increasing := List.Pairwise.nil
  fresh := by simp
  long := by simp
  fits := cfg.fits_nil

/-- Eviction with a live sequence at the front. -/
lemma evict_of_cons {c : Cache} {id : ℕ} {fifo : List ℕ} {seq : List Token}
    (hfifo : c.fifo = id :: fifo) (hseq : c.sequences.lookup id = some seq)
    (hle : seq.length ≤ c.tokens) :
    c.evict = some { c with
      fifo
      sequences := c.sequences.erase id
      tokens := c.tokens - seq.length
      index := (windows c.cfg.n seq).foldl (purge fun e => e.1 == id) c.index } := by
  simp [evict, hfifo, hseq, hle]

/-- Eviction drops the oldest live sequence. -/
lemma Holds.evict {c : Cache} {s : ℕ × List Token} {live : List (ℕ × List Token)}
    (h : c.Holds (s :: live)) :
    ∃ c', c.evict = some c' ∧ c'.Holds live ∧ c'.cfg = c.cfg ∧ c'.next = c.next := by
  obtain ⟨id, seq⟩ := s
  have hfifo : c.fifo = id :: live.map Prod.fst := h.fifo
  have hseq : c.sequences.lookup id = some seq := (h.sequences id seq).mpr (by simp)
  have htok : c.tokens = seq.length + (live.map fun s => s.2.length).sum := h.tokens
  obtain ⟨hhead, htail⟩ := List.pairwise_cons.mp h.increasing
  -- the ids of the other live sequences are larger than the evicted one
  have hne : ∀ s ∈ live, s.1 ≠ id := fun s hs => by
    have hlt : id < s.1 := hhead s.1 (List.mem_map_of_mem hs)
    omega
  refine ⟨_, evict_of_cons hfifo hseq (by omega), ?_, rfl, rfl⟩
  exact {
    fifo := rfl
    sequences := fun i q => by
      rw [Map.lookup_erase_eq]
      by_cases hi : i = id
      · subst hi
        simp only [if_true, reduceCtorEq, false_iff]
        exact fun hm => hne _ hm rfl
      · simp [hi, h.sequences]
    tokens := by simp [htok]
    index := by
      have hix := h.index
      rw [entries_cons] at hix
      refine hix.purge c.cfg.positions_pos ?_ ?_ ?_
      · rintro ⟨key, e⟩ he
        simp [(mem_grams.mp he).1]
      · rintro ⟨key, e⟩ he
        obtain ⟨q, hq, _⟩ := mem_entries.mp he
        simpa using hne _ hq
      · rintro ⟨key, e⟩ he
        obtain ⟨_, hp, hk⟩ := mem_grams.mp he
        exact mem_windows.mpr ⟨e.2, hp, hk⟩
    increasing := htail
    fresh := fun s hs => h.fresh s (by simp [hs])
    long := fun s hs => h.long s (by simp [hs])
    fits := h.fits.tail }

/-- The last part of `add` appends a live sequence. -/
lemma Holds.push {c : Cache} {live : List (ℕ × List Token)} (h : c.Holds live)
    {tokens : List Token} (hlong : c.cfg.n < tokens.length)
    (hfits : c.cfg.Fits (live.map Prod.snd ++ [tokens])) :
    (c.push tokens).Holds (live ++ [(c.next, tokens)]) where
  fifo := by simp [Cache.push, h.fifo]
  sequences id seq := by
    have hnext : ∀ q, (c.next, q) ∉ live := fun q hq => absurd (h.fresh _ hq) (by simp)
    simp only [Cache.push, Map.lookup_put, List.mem_append, List.mem_singleton, Prod.mk.injEq]
    by_cases hi : id = c.next
    · subst hi
      simp [hnext, eq_comm]
    · simp [hi, h.sequences]
  tokens := by simp [Cache.push, h.tokens]
  index := by
    rw [entries_concat]
    exact h.index.foldl_post c.cfg.positions_pos _
  increasing := by
    rw [List.map_append, List.pairwise_append]
    refine ⟨h.increasing, by simp, ?_⟩
    intro i hi j hj
    obtain ⟨s, hs, rfl⟩ := List.mem_map.mp hi
    have hj' : j = c.next := by simpa using hj
    exact hj' ▸ h.fresh s hs
  fresh s hs := by
    rcases List.mem_append.mp hs with hs | hs
    · exact Nat.lt_succ_of_lt (h.fresh s hs)
    · rw [List.mem_singleton.mp hs]
      exact Nat.lt_succ_self _
  long s hs := by
    rcases List.mem_append.mp hs with hs | hs
    · exact h.long s hs
    · rw [List.mem_singleton.mp hs]
      exact hlong
  fits := by simpa [Cache.push] using hfits

lemma Holds.full_iff {c : Cache} {live : List (ℕ × List Token)} (h : c.Holds live)
    (tokens : List Token) :
    c.Full tokens.length ↔ ¬ c.cfg.Fits (live.map Prod.snd ++ [tokens]) := by
  have hf : c.fifo.length = live.length := by simp [h.fifo]
  have ht : c.tokens = ((live.map Prod.snd).map List.length).sum := by
    rw [h.tokens, List.map_map]
    rfl
  simp only [Full, Config.Fits, hf, ht, List.length_append, List.length_map, List.map_append,
    List.sum_append, List.length_singleton, List.map_singleton, List.sum_singleton]
  omega

/-- The eviction loop ends with the longest suffix of the live sequences that leaves room. -/
lemma Holds.makeRoom {c : Cache} {live : List (ℕ × List Token)} (h : c.Holds live)
    {tokens : List Token} (hone : c.cfg.Fits [tokens]) :
    ∃ c' kept, c.makeRoom tokens.length live.length = some c' ∧ c'.Holds kept ∧
      c'.cfg = c.cfg ∧ c'.next = c.next ∧
      kept.map Prod.snd ++ [tokens] = trim c.cfg.Fits (live.map Prod.snd ++ [tokens]) ∧
      c.cfg.Fits (kept.map Prod.snd ++ [tokens]) := by
  induction live generalizing c with
  | nil =>
    have hroom : ¬ c.Full tokens.length := fun hf => (h.full_iff tokens).mp hf hone
    refine ⟨c, [], by simp [Cache.makeRoom, hroom], h, rfl, rfl, ?_, hone⟩
    exact (trim_of_holds (l := [tokens]) hone).symm
  | cons s live ih =>
    by_cases hf : c.Full tokens.length
    · have hnot := (h.full_iff tokens).mp hf
      obtain ⟨c1, e1, h1, hcfg1, hnext1⟩ := h.evict
      obtain ⟨c2, kept, e2, h2, hcfg2, hnext2, htrim, hfits⟩ := ih h1 (hcfg1 ▸ hone)
      rw [hcfg1] at htrim hfits hcfg2
      refine ⟨c2, kept, ?_, h2, hcfg2, hnext2.trans hnext1, ?_, hfits⟩
      · simp [Cache.makeRoom, hf, e1, e2]
      · rw [htrim]
        simp only [List.map_cons, List.cons_append] at hnot ⊢
        rw [trim, if_neg hnot]
    · have hfits := not_not.mp (mt (h.full_iff tokens).mpr hf)
      refine ⟨c, s :: live, by simp [Cache.makeRoom, hf], h, rfl, rfl, ?_, hfits⟩
      exact (trim_of_holds hfits).symm

/-- `add` keeps the longest suffix of the live sequences and its input that meets the budgets. -/
lemma Holds.add {c : Cache} {live : List (ℕ × List Token)} (h : c.Holds live)
    (tokens : List Token) :
    ∃ c' live', c.add tokens = some c' ∧ c'.Holds live' ∧ c'.cfg = c.cfg ∧
      live'.map Prod.snd =
        trim c.cfg.Fits (live.map Prod.snd ++ c.cfg.accepted tokens) := by
  have hlen := truncate_length c.cfg tokens
  by_cases hoff : c.cfg.sequences = 0 ∨ c.cfg.tokens ≤ c.cfg.n
  · -- a disabled cache stays empty: no single sequence meets the budgets
    refine ⟨c, live, by simp [Cache.add, hoff], h, rfl, ?_⟩
    rcases hoff with h0 | hn
    · have hnil : live = [] := by
        have := h.fits.1
        simp only [h0, List.length_map] at this
        exact List.eq_nil_of_length_eq_zero (by omega)
      subst hnil
      unfold Config.accepted
      split
      · simp [trim, Config.Fits, h0]
      · rfl
    · rw [Config.accepted, if_neg (by omega), List.append_nil, trim_of_holds h.fits]
  · by_cases hshort : (truncate c.cfg tokens).length ≤ c.cfg.n
    · refine ⟨c, live, by simp [Cache.add, hoff, hshort], h, rfl, ?_⟩
      rw [Config.accepted, if_neg (by omega), List.append_nil, trim_of_holds h.fits]
    · have hone : c.cfg.Fits [truncate c.cfg tokens] := by
        simp only [Config.Fits, List.length_singleton, List.map_singleton, List.sum_singleton]
        omega
      obtain ⟨c1, kept, e1, h1, hcfg, hnext, htrim, hfits⟩ := h.makeRoom hone
      have hfifo : c.fifo.length = live.length := by simp [h.fifo]
      have hlong : c1.cfg.n < (truncate c.cfg tokens).length := by rw [hcfg]; omega
      refine ⟨c1.push (truncate c.cfg tokens), _, ?_, h1.push hlong (hcfg ▸ hfits), hcfg, ?_⟩
      · simp [Cache.add, hoff, hshort, hfifo, e1]
      · rw [Config.accepted, if_pos (by omega), List.map_append, ← htrim]
        rfl

/-- A run of `add` calls ends, with the longest suffix of the accepted inputs as its content. -/
theorem content_of_run (cfg : Config) (inputs : List (List Token)) :
    ∃ c live, run Cache.add (Cache.new cfg) inputs = some c ∧ c.Holds live ∧ c.cfg = cfg ∧
      live.map Prod.snd = trim cfg.Fits (inputs.flatMap cfg.accepted) := by
  suffices hrun : ∀ (inputs : List (List Token)) (past : List (List Token)) (c : Cache)
      (live : List (ℕ × List Token)), c.Holds live → c.cfg = cfg →
      live.map Prod.snd = trim cfg.Fits past →
      ∃ c' live', run Cache.add c inputs = some c' ∧ c'.Holds live' ∧ c'.cfg = cfg ∧
        live'.map Prod.snd = trim cfg.Fits (past ++ inputs.flatMap cfg.accepted) from
    hrun inputs [] (Cache.new cfg) [] (holds_new cfg) rfl rfl
  intro inputs
  induction inputs with
  | nil =>
    intro past c live h hcfg hlive
    exact ⟨c, live, rfl, h, hcfg, by simpa using hlive⟩
  | cons tokens inputs ih =>
    intro past c live h hcfg hlive
    obtain ⟨c1, live1, e1, h1, hcfg1, hlive1⟩ := h.add tokens
    rw [hcfg, hlive, trim_append cfg.fits_nil fun _ _ => Config.Fits.left] at hlive1
    obtain ⟨c2, live2, e2, h2, hcfg2, hlive2⟩ :=
      ih (past ++ cfg.accepted tokens) c1 live1 h1 (hcfg1.trans hcfg) hlive1
    refine ⟨c2, live2, by simp [e1, e2], h2, hcfg2, ?_⟩
    simpa using hlive2

/-- The positions of an n-gram in a sequence, in increasing order. -/
def positionsOf (n : ℕ) (key seq : List Token) : List ℕ :=
  (List.range (seq.length + 1 - n)).filter fun pos => window n seq pos = key

/-- The live occurrences of an n-gram: the sequences in the order of `fifo`, the positions of each
in increasing order. -/
def occurrences (c : Cache) (key : List Token) : List (ℕ × ℕ) :=
  c.fifo.flatMap fun id =>
    (positionsOf c.cfg.n key ((c.sequences.lookup id).getD [])).map fun pos => (id, pos)

lemma postings_grams (n id : ℕ) (seq key : List Token) :
    postings (grams n id seq) key = (positionsOf n key seq).map fun pos => (id, pos) := by
  have hg : grams n id seq =
      (List.range (seq.length + 1 - n)).map fun pos => (window n seq pos, (id, pos)) := by
    apply List.ext_getElem
    · simp [grams, windows]
    · intro i _ _
      simp [grams, windows]
  simp only [postings, hg, List.filter_map, List.map_map, positionsOf]
  rfl

lemma Holds.occurrences_eq {c : Cache} {live : List (ℕ × List Token)} (h : c.Holds live)
    (key : List Token) : c.occurrences key = postings (entries c.cfg.n live) key := by
  rw [entries, postings_flatMap, occurrences, h.fifo, List.flatMap_map]
  apply List.flatMap_congr
  intro s hs
  rw [postings_grams, (h.sequences s.1 s.2).mpr hs]
  rfl

/-- The occurrences are listed in the order of their ids and positions. -/
lemma Holds.occurrences_sorted {c : Cache} {live : List (ℕ × List Token)} (h : c.Holds live)
    (key : List Token) : (c.occurrences key).Pairwise fun a b => toLex a < toLex b := by
  have hinc : c.fifo.Pairwise (· < ·) := h.fifo ▸ h.increasing
  rw [occurrences, List.pairwise_flatMap]
  constructor
  · intro id _
    rw [List.pairwise_map]
    refine List.Pairwise.imp ?_ (List.pairwise_lt_range.filter _)
    intro p q hpq
    exact Prod.Lex.toLex_lt_toLex.mpr (Or.inr ⟨rfl, hpq⟩)
  · refine hinc.imp ?_
    intro i j hij a ha b hb
    obtain ⟨p, _, rfl⟩ := List.mem_map.mp ha
    obtain ⟨q, _, rfl⟩ := List.mem_map.mp hb
    exact Prod.Lex.toLex_lt_toLex.mpr (Or.inl hij)

/-- The cache is a function of its live sequences: after every run of `add` calls they are the
longest suffix of the accepted inputs within the budgets, `sequences`, `fifo` and `tokens` agree
with them, and the bucket of an n-gram holds exactly its most recent live occurrences. -/
theorem add_run_index (cfg : Config) (inputs : List (List Token)) :
    ∃ c, run Cache.add (Cache.new cfg) inputs = some c ∧
      (∃ live, IsLongestSuffix cfg.Fits live (inputs.flatMap cfg.accepted) ∧
        c.fifo.map (c.sequences.lookup ·) = live.map some ∧
        c.tokens = (live.map List.length).sum) ∧
      (∀ id, id ∈ c.sequences ↔ id ∈ c.fifo) ∧
      ∀ key, (c.occurrences key).Pairwise (fun a b => toLex a < toLex b) ∧
        c.index.lookup key =
          if c.occurrences key = [] then none else some ((c.occurrences key).rtake cfg.positions) := by
  obtain ⟨c, live, hrun, h, hcfg, hlive⟩ := content_of_run cfg inputs
  refine ⟨c, hrun, ⟨live.map Prod.snd, ?_, ?_, ?_⟩, ?_, fun key => ⟨h.occurrences_sorted key, ?_⟩⟩
  · rw [hlive]
    exact trim_longest cfg.fits_nil _
  · rw [h.fifo, List.map_map, List.map_map]
    exact List.map_congr_left fun s hs => (h.sequences s.1 s.2).mpr hs
  · rw [h.tokens, List.map_map]
    rfl
  · intro id
    rw [h.fifo, List.mem_map]
    constructor
    · intro hid
      obtain ⟨seq, hseq⟩ := Map.exists_lookup hid
      exact ⟨(id, seq), (h.sequences id seq).mp hseq, rfl⟩
    · rintro ⟨s, hs, rfl⟩
      exact Map.mem_of_lookup ((h.sequences s.1 s.2).mpr hs)
  · rw [h.index key, bucket, h.occurrences_eq, hcfg]
    simp [List.isEmpty_iff]

end Cache
end SuffixHybrid
