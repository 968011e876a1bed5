import Mathlib.Algebra.Order.BigOperators.Group.List
import Mathlib.Data.List.GetD
import Mathlib.Data.List.Infix
import Mathlib.Tactic.Linarith

/-!
# Packing and scheduling

A run draws the examples in shuffled epochs, packs each batch into micro-batches and trains the tokens that the
masks name, but not the first token of a segment. The draws run through one permutation of the examples after the
other (`schedule_blocks`), packing keeps the order and loses nothing (`groups_flatten`), and the trained tokens of
a batch are as many as the norm counts (`targets_norm`).
-/

namespace SuffixHybrid.Sft.Packing

/-! ## Epochs -/

/-- The examples left of an epoch, and the number of shuffles so far. -/
structure Draws where
  order : List ℕ
  epochs : ℕ

section Schedule
variable (shuffle : ℕ → List ℕ → List ℕ) (n : ℕ)

/-- A new epoch when none is left. -/
def refill (s : Draws) : Draws :=
  if s.order = [] then ⟨shuffle s.epochs (List.range n), s.epochs + 1⟩ else s

/-- `order.pop()`, which takes the last one. -/
def draw (s : Draws) : Option (ℕ × Draws) :=
  (refill shuffle n s).order.getLast?.map fun i =>
    (i, { refill shuffle n s with order := (refill shuffle n s).order.dropLast })

/-- The `k` draws that are missing in a batch. -/
def batch : ℕ → Draws → Option (List ℕ × Draws)
  | 0, s => some ([], s)
  | k + 1, s => do
    let (i, s) ← draw shuffle n s
    let (b, s) ← batch k s
    some (i :: b, s)

/-- The batches of `steps` steps. -/
def batches (batchSize : ℕ) : ℕ → Draws → Option (List (List ℕ) × Draws)
  | 0, s => some ([], s)
  | steps + 1, s => do
    let (b, s) ← batch shuffle n batchSize s
    let (bs, s) ← batches batchSize steps s
    some (b :: bs, s)

/-- `schedule`, where `shuffle e` is the outcome of the `e`-th shuffle. -/
def schedule (steps batchSize : ℕ) : Option (List (List ℕ)) :=
  (batches shuffle n batchSize steps ⟨[], 0⟩).map Prod.fst

/-- The draws of the epochs from one to another. -/
def epochs (a b : ℕ) : List ℕ := (List.range' a (b - a)).flatMap fun e => (shuffle e (List.range n)).reverse

/-- The draws `out` lead from a state to another one. -/
structure Drawn (s : Draws) (out : List ℕ) (s' : Draws) : Prop where
  le : s.epochs ≤ s'.epochs
  order : s.order.reverse ++ epochs shuffle n s.epochs s'.epochs = out ++ s'.order.reverse

variable {shuffle n} {s s' s'' : Draws} {out out' : List ℕ}

@[simp] lemma epochs_self (a : ℕ) : epochs shuffle n a a = [] := by
  rw [epochs, Nat.sub_self]
  rfl

lemma epochs_append {a b c : ℕ} (hab : a ≤ b) (hbc : b ≤ c) :
    epochs shuffle n a b ++ epochs shuffle n b c = epochs shuffle n a c := by
  have hsplit : List.range' a (b - a) ++ List.range' b (c - b) = List.range' a (c - a) := by
    have h := @List.range'_append a (b - a) (c - b) 1
    rwa [Nat.one_mul, Nat.add_sub_cancel' hab, Nat.add_comm, Nat.sub_add_sub_cancel hbc hab] at h
  rw [epochs, epochs, ← List.flatMap_append, hsplit, epochs]

lemma Drawn.refl (s : Draws) : Drawn shuffle n s [] s :=
  ⟨le_rfl, by rw [epochs_self, List.append_nil, List.nil_append]⟩

lemma Drawn.trans (h : Drawn shuffle n s out s') (h' : Drawn shuffle n s' out' s'') :
    Drawn shuffle n s (out ++ out') s'' where
  le := h.le.trans h'.le
  order := by
    rw [← epochs_append h.le h'.le, ← List.append_assoc, h.order, List.append_assoc, h'.order, List.append_assoc]

section Perm
variable (hshuffle : ∀ e l, (shuffle e l).Perm l) (hn : 0 < n)
include hshuffle hn

/-- A draw succeeds, and takes the next one of the epochs. -/
lemma draw_spec (s : Draws) : ∃ i s', draw shuffle n s = some (i, s') ∧ Drawn shuffle n s [i] s' := by
  have hlast : ∀ l : List ℕ, l ≠ [] → ∃ i, l.getLast? = some i ∧ l.reverse = i :: l.dropLast.reverse := fun l hl =>
    ⟨l.getLast hl, List.getLast?_eq_some_getLast hl, by
      conv_lhs => rw [← List.dropLast_concat_getLast hl, List.reverse_append]
      rfl⟩
  unfold draw
  by_cases hs : s.order = []
  · have hne : shuffle s.epochs (List.range n) ≠ [] := by
      rw [← List.length_pos_iff, (hshuffle _ _).length_eq, List.length_range]
      exact hn
    obtain ⟨i, hi, hrev⟩ := hlast _ hne
    simp only [refill, if_pos hs, hi]
    refine ⟨i, _, rfl, Nat.le_succ _, ?_⟩
    rw [hs, epochs, Nat.add_sub_cancel_left]
    simpa using hrev
  · obtain ⟨i, hi, hrev⟩ := hlast _ hs
    simp only [refill, if_neg hs, hi]
    refine ⟨i, _, rfl, le_rfl, ?_⟩
    rw [epochs_self, List.append_nil, hrev]
    rfl

lemma batch_spec (k : ℕ) (s : Draws) :
    ∃ b s', batch shuffle n k s = some (b, s') ∧ b.length = k ∧ Drawn shuffle n s b s' := by
  induction k generalizing s with
  | zero => exact ⟨[], s, rfl, rfl, .refl s⟩
  | succ k ih =>
    obtain ⟨i, s₁, hdraw, hi⟩ := draw_spec hshuffle hn s
    obtain ⟨b, s₂, hbatch, hlen, hb⟩ := ih s₁
    refine ⟨i :: b, s₂, ?_, ?_, hi.trans hb⟩
    · rw [batch, hdraw]
      simp only [Option.bind_eq_bind, Option.bind_some, hbatch]
    · rw [List.length_cons, hlen]

lemma batches_spec (batchSize steps : ℕ) (s : Draws) :
    ∃ bs s', batches shuffle n batchSize steps s = some (bs, s') ∧ bs.length = steps ∧
      (∀ b ∈ bs, b.length = batchSize) ∧ Drawn shuffle n s bs.flatten s' := by
  induction steps generalizing s with
  | zero => exact ⟨[], s, rfl, rfl, List.forall_mem_nil _, .refl s⟩
  | succ steps ih =>
    obtain ⟨b, s₁, hbatch, hlen, hb⟩ := batch_spec hshuffle hn batchSize s
    obtain ⟨bs, s₂, hbatches, hlens, hall, hbs⟩ := ih s₁
    refine ⟨b :: bs, s₂, ?_, ?_, ?_, hb.trans hbs⟩
    · rw [batches, hbatch]
      simp only [Option.bind_eq_bind, Option.bind_some, hbatches]
    · rw [List.length_cons, hlens]
    · intro b' hb'
      obtain rfl | hb' := List.mem_cons.mp hb'
      · exact hlen
      · exact hall b' hb'

end Perm

/-- A block of lists of one length is one of the lists. -/
lemma block_mem {l : List (List ℕ)} (hl : ∀ b ∈ l, b.length = n) (i : ℕ) :
    (l.flatten.drop (i * n)).take n = [] ∨ (l.flatten.drop (i * n)).take n ∈ l := by
  induction l generalizing i with
  | nil => exact .inl (by rw [List.flatten_nil, List.drop_nil, List.take_nil])
  | cons b l ih =>
    have hb := hl b List.mem_cons_self
    cases i with
    | zero =>
      refine .inr ?_
      rw [Nat.zero_mul, List.drop_zero, List.flatten_cons, List.take_left' hb]
      exact List.mem_cons_self
    | succ i =>
      have hdrop : (b :: l).flatten.drop ((i + 1) * n) = l.flatten.drop (i * n) := by
        rw [List.flatten_cons, Nat.succ_mul, Nat.add_comm, ← List.drop_drop, List.drop_left' hb]
      rw [hdrop]
      obtain h | h := ih (fun b' hb' => hl b' (List.mem_cons_of_mem b hb')) i
      · exact .inl h
      · exact .inr (List.mem_cons_of_mem b h)

/-- The batches have their sizes, and the draws cut into blocks of `n` are permutations, the last one of which may
end early. -/
theorem schedule_spec (hshuffle : ∀ e l, (shuffle e l).Perm l) (hn : 0 < n) (steps batchSize : ℕ) :
    ∃ bs, schedule shuffle n steps batchSize = some bs ∧ bs.length = steps ∧ (∀ b ∈ bs, b.length = batchSize) ∧
      ∀ i, ∃ p : List ℕ, p.Perm (List.range n) ∧ (bs.flatten.drop (i * n)).take n <+: p := by
  obtain ⟨bs, s', hbs, hlen, hall, hdrawn⟩ := batches_spec hshuffle hn batchSize steps ⟨[], 0⟩
  refine ⟨bs, by rw [schedule, hbs, Option.map_some], hlen, hall, fun i => ?_⟩
  have hpre : bs.flatten <+: epochs shuffle n 0 s'.epochs := ⟨s'.order.reverse, hdrawn.order.symm⟩
  have hblock := (hpre.drop (i * n)).take n
  have hperm : ∀ e, (shuffle e (List.range n)).reverse.Perm (List.range n) := fun e =>
    (List.reverse_perm _).trans (hshuffle e _)
  rw [epochs, List.flatMap_def] at hblock
  have hlens : ∀ b ∈ (List.range' 0 (s'.epochs - 0)).map fun e => (shuffle e (List.range n)).reverse, b.length = n := by
    intro b hb
    obtain ⟨e, -, rfl⟩ := List.mem_map.mp hb
    rw [(hperm e).length_eq, List.length_range]
  obtain hnil | hmem := block_mem hlens i
  · rw [hnil] at hblock
    exact ⟨List.range n, .refl _, hblock.trans List.nil_prefix⟩
  · obtain ⟨e, -, he⟩ := List.mem_map.mp hmem
    exact ⟨_, he ▸ hperm e, hblock⟩

end Schedule

/-! ## Micro-batches -/

/-- The tokens and the mask of an example. -/
abbrev Example := List ℕ × List ℕ

/-- What `encode` returns, of at most so many tokens: a masked prompt and a trained completion, none of them
empty. -/
structure Encoded (maxTokens : ℕ) (ex : Example) : Prop where
  split : ∃ p c, 0 < p ∧ 0 < c ∧ ex.1.length = p + c ∧ ex.2 = List.replicate p 0 ++ List.replicate c 1
  fits : ex.1.length ≤ maxTokens

/-- The tokens of some examples. -/
def tokens (exs : List Example) : ℕ := (exs.map fun ex => ex.1.length).sum

/-- One step of the loop: an example that does not fit any more starts a new micro-batch. -/
def packStep (maxTokens : ℕ) (s : List (List Example) × List Example) (ex : Example) :
    List (List Example) × List Example :=
  if s.2 ≠ [] ∧ maxTokens < tokens s.2 + ex.1.length then (s.1 ++ [s.2], [ex]) else (s.1, s.2 ++ [ex])

/-- The examples by micro-batch. -/
def groups (maxTokens : ℕ) (exs : List Example) : List (List Example) :=
  let s := exs.foldl (packStep maxTokens) ([], [])
  if s.2 = [] then s.1 else s.1 ++ [s.2]

/-- A micro-batch. -/
structure Micro where
  ids : List ℕ
  mask : List ℕ
  segLens : List ℕ

/-- The micro-batch of a group. -/
def micro (exs : List Example) : Micro where
  ids := exs.flatMap Prod.fst
  mask := exs.flatMap Prod.snd
  segLens := exs.map fun ex => ex.1.length

/-- `pack`. -/
def pack (maxTokens : ℕ) (exs : List Example) : List Micro := (groups maxTokens exs).map micro

section Pack
variable {maxTokens : ℕ} {exs : List Example}

/-- What the loop has done with the examples so far. -/
structure PackInv (maxTokens : ℕ) (exs : List Example) (s : List (List Example) × List Example) : Prop where
  flatten : s.1.flatten ++ s.2 = exs
  closed : ∀ g ∈ s.1, g ≠ [] ∧ tokens g ≤ maxTokens
  current : tokens s.2 ≤ maxTokens

lemma PackInv.step {s : List (List Example) × List Example} (h : PackInv maxTokens exs s) {ex : Example}
    (hex : ex.1.length ≤ maxTokens) : PackInv maxTokens (exs ++ [ex]) (packStep maxTokens s ex) := by
  unfold packStep
  split_ifs with hfull
  · refine ⟨?_, fun g hg => ?_, ?_⟩
    · rw [List.flatten_append, List.flatten_singleton, h.flatten]
    · obtain hg | hg := List.mem_append.mp hg
      · exact h.closed g hg
      · rw [List.mem_singleton.mp hg]
        exact ⟨hfull.1, h.current⟩
    · simpa [tokens] using hex
  · refine ⟨?_, h.closed, ?_⟩
    · rw [← List.append_assoc, h.flatten]
    · have hsum : tokens (s.2 ++ [ex]) = tokens s.2 + ex.1.length := by simp [tokens]
      rw [hsum]
      by_cases hnil : s.2 = []
      · rw [hnil]
        simpa [tokens] using hex
      · exact not_lt.mp fun hlt => hfull ⟨hnil, hlt⟩

lemma packInv_foldl (hexs : ∀ ex ∈ exs, ex.1.length ≤ maxTokens) :
    PackInv maxTokens exs (exs.foldl (packStep maxTokens) ([], [])) := by
  induction exs using List.reverseRecOn with
  | nil => exact ⟨rfl, List.forall_mem_nil _, Nat.zero_le _⟩
  | append_singleton exs ex ih =>
    rw [List.foldl_append]
    refine (ih fun ex' hex' => hexs ex' (List.mem_append_left _ hex')).step ?_
    exact hexs ex (List.mem_append_right _ List.mem_cons_self)

/-- The groups are the examples in order, each of some examples that fit. -/
theorem groups_spec (hexs : ∀ ex ∈ exs, ex.1.length ≤ maxTokens) :
    (groups maxTokens exs).flatten = exs ∧ ∀ g ∈ groups maxTokens exs, g ≠ [] ∧ tokens g ≤ maxTokens := by
  have h := packInv_foldl hexs
  unfold groups
  simp only
  split_ifs with hnil
  · have hflat := h.flatten
    rw [hnil, List.append_nil] at hflat
    exact ⟨hflat, h.closed⟩
  · refine ⟨?_, fun g hg => ?_⟩
    · rw [List.flatten_append, List.flatten_singleton, h.flatten]
    · obtain hg | hg := List.mem_append.mp hg
      · exact h.closed g hg
      · rw [List.mem_singleton.mp hg]
        exact ⟨hnil, h.current⟩

end Pack

/-! ## Rows -/

/-- The segments, one after the other. -/
def segments : ℕ → List ℕ → List (ℕ × ℕ)
  | _, [] => []
  | off, n :: lens => (off, off + n) :: segments (off + n) lens

/-- `m[s] = False`. -/
def dropStart (m : List Bool) (s : ℕ × ℕ) : Option (List Bool) :=
  if s.1 < m.length then some (m.set s.1 false) else none

/-- `batch_rows`: the segments, the hidden rows and the predicted tokens. -/
def batchRows (segLens mask : List ℕ) : Option (List (ℕ × ℕ) × List ℤ × List ℕ) := do
  let segs := segments 0 segLens
  let m ← segs.foldlM dropStart (mask.map fun b => decide (b ≠ 0))
  let tgt := (List.range m.length).filter fun i => m.getD i false
  some (segs, tgt.map fun i => (i : ℤ) - 1, tgt)

/-- The predicted tokens of a micro-batch. -/
def targets (m : Micro) : ℕ := ((batchRows m.segLens m.mask).map fun r => r.2.2.length).getD 0

/-- The norm of a step. -/
def norm (exs : List Example) : ℕ := (exs.map fun ex => ex.2.tail.sum).sum

/-- The predicted tokens of a group of examples are the trained ones but for the first token of a segment, each
predicted from the row before it, and there are some. -/
structure Trains (exs : List Example) (segs : List (ℕ × ℕ)) (rows : List ℤ) (tgt : List ℕ) : Prop where
  segments : List.Forall₂ (fun seg ex => ((micro exs).ids.drop seg.1).take (seg.2 - seg.1) = ex.1) segs exs
  sorted : tgt.Pairwise (· < ·)
  mem : ∀ p, p ∈ tgt ↔ ∃ seg ∈ segs, seg.1 < p ∧ p < seg.2 ∧ (micro exs).mask.getD p 0 = 1
  before : rows = tgt.map fun p => (p : ℤ) - 1
  ne_nil : tgt ≠ []

/-- A list of masks without the first token of each. -/
def dropped (ms : List (List Bool)) : List Bool := (ms.map fun m => false :: m.tail).flatten

section Rows
variable {ms : List (List Bool)} {off : ℕ}

lemma le_segments {lens : List ℕ} {seg : ℕ × ℕ} (h : seg ∈ segments off lens) : off ≤ seg.1 := by
  induction lens generalizing off with
  | nil => cases h
  | cons n lens ih =>
    obtain rfl | h := List.mem_cons.mp h
    · exact le_rfl
    · exact (Nat.le_add_right off n).trans (ih h)

lemma foldlM_dropStart (hms : ∀ m ∈ ms, m ≠ []) (pre : List Bool) :
    (segments pre.length (ms.map List.length)).foldlM dropStart (pre ++ ms.flatten) = some (pre ++ dropped ms) := by
  induction ms generalizing pre with
  | nil => rfl
  | cons m ms ih =>
    obtain ⟨a, m, rfl⟩ := List.exists_cons_of_ne_nil (hms m List.mem_cons_self)
    have hset : dropStart (pre ++ ((a :: m) :: ms).flatten) (pre.length, pre.length + (a :: m).length) =
        some ((pre ++ false :: m) ++ ms.flatten) := by
      rw [dropStart, if_pos, List.set_append_right _ _ le_rfl, Nat.sub_self, List.flatten_cons, List.append_assoc]
      · rfl
      · rw [List.length_append, List.flatten_cons, List.length_append, List.length_cons]
        omega
    have ih := ih (fun m' hm' => hms m' (List.mem_cons_of_mem _ hm')) (pre ++ false :: m)
    rw [List.length_append, List.length_cons] at ih
    rw [List.map_cons, segments, List.foldlM_cons, hset, Option.bind_eq_bind, Option.bind_some, List.length_cons, ih,
      List.append_assoc]
    rfl

/-- What is left of the masks is inside of the segments. -/
lemma dropped_getD (off : ℕ) (hms : ∀ m ∈ ms, m ≠ []) (p : ℕ) :
    off ≤ p ∧ (dropped ms).getD (p - off) false = true ↔
      ∃ seg ∈ segments off (ms.map List.length), seg.1 < p ∧ p < seg.2 ∧ ms.flatten.getD (p - off) false = true := by
  induction ms generalizing off with
  | nil => simp [dropped, segments]
  | cons m ms ih =>
    obtain ⟨a, m, rfl⟩ := List.exists_cons_of_ne_nil (hms m List.mem_cons_self)
    have hdrop : dropped ((a :: m) :: ms) = (false :: m) ++ dropped ms := rfl
    rw [List.map_cons, segments, List.exists_mem_cons_iff, hdrop, List.flatten_cons]
    obtain hlt | hge := Nat.lt_or_ge p (off + (a :: m).length)
    · have hlater : ¬∃ seg ∈ segments (off + (a :: m).length) (ms.map List.length), seg.1 < p ∧ p < seg.2 ∧
          ((a :: m) ++ ms.flatten).getD (p - off) false = true := by
        rintro ⟨seg, hseg, hlo, -⟩
        have hle := le_segments hseg
        omega
      rw [or_iff_left hlater]
      simp only [List.length_cons] at hlt
      obtain hlo | rfl | hhi := Nat.lt_trichotomy p off
      · exact iff_of_false (fun h => by omega) fun h => by omega
      · rw [Nat.sub_self]
        exact iff_of_false (fun h => by simp at h) fun h => by omega
      · have hpos : p - off = (p - off - 1) + 1 := by omega
        rw [List.getD_append _ _ _ _ (by rw [List.length_cons]; omega),
          List.getD_append _ _ _ _ (by rw [List.length_cons]; omega), hpos, List.getD_cons_succ, List.getD_cons_succ]
        simp only [List.length_cons, hhi, hhi.le, true_and]
        exact ⟨fun h => ⟨hlt, h⟩, fun h => h.2⟩
    · have hrest : p - off - (a :: m).length = p - (off + (a :: m).length) := by omega
      rw [List.getD_append_right _ _ _ _ (by simp only [List.length_cons] at hge ⊢; omega),
        List.getD_append_right _ _ _ _ (by omega), List.length_cons, ← List.length_cons (a := a), hrest]
      have hfirst : ¬(off < p ∧ p < off + (a :: m).length ∧
          ms.flatten.getD (p - (off + (a :: m).length)) false = true) := fun h => by omega
      rw [or_iff_right hfirst, ← ih _ fun m' hm' => hms m' (List.mem_cons_of_mem _ hm')]
      exact and_congr_left fun _ => ⟨fun _ => hge, fun _ => by omega⟩

/-- The set positions of a mask. -/
lemma length_filter_getD (m : List Bool) :
    ((List.range m.length).filter fun i => m.getD i false).length = m.count true := by
  induction m using List.reverseRecOn with
  | nil => rfl
  | append_singleton m a ih =>
    have hold : (List.range m.length).filter (fun i => (m ++ [a]).getD i false) =
        (List.range m.length).filter fun i => m.getD i false :=
      List.filter_congr fun i hi => by rw [List.getD_append _ _ _ _ (List.mem_range.mp hi)]
    rw [List.length_append, List.length_singleton, List.range_succ, List.filter_append, List.length_append, hold, ih,
      List.count_append]
    congr 1
    cases a <;> simp

lemma count_dropped (ms : List (List Bool)) : (dropped ms).count true = (ms.map fun m => m.tail.count true).sum := by
  rw [dropped, List.count_flatten, List.map_map]
  congr 1

end Rows

section Groups
variable {maxTokens : ℕ} {exs : List Example}

/-- A mask as booleans. -/
def bools (mask : List ℕ) : List Bool := mask.map fun b => decide (b ≠ 0)

section Example
variable {ex : Example} (h : Encoded maxTokens ex)
include h

lemma Encoded.length_eq : ex.2.length = ex.1.length := by
  obtain ⟨p, c, -, -, hlen, hmask⟩ := h.split
  rw [hmask, hlen, List.length_append, List.length_replicate, List.length_replicate]

lemma Encoded.ne_nil : bools ex.2 ≠ [] := by
  obtain ⟨p, c, hp, -, hlen, -⟩ := h.split
  rw [← List.length_pos_iff, bools, List.length_map, h.length_eq, hlen]
  omega

lemma Encoded.bit {b : ℕ} (hb : b ∈ ex.2) : b = 0 ∨ b = 1 := by
  obtain ⟨p, c, -, -, -, hmask⟩ := h.split
  rw [hmask] at hb
  obtain hb | hb := List.mem_append.mp hb
  · exact .inl (List.eq_of_mem_replicate hb)
  · exact .inr (List.eq_of_mem_replicate hb)

/-- The completion is trained. -/
lemma Encoded.trained : (bools ex.2).tail.count true = ex.2.tail.sum ∧ 0 < ex.2.tail.sum := by
  obtain ⟨p, c, hp, hc, -, hmask⟩ := h.split
  obtain ⟨p, rfl⟩ := Nat.exists_eq_add_one.mpr hp
  rw [hmask, List.replicate_succ]
  constructor
  · simp [bools, List.count_replicate]
  · simpa using hc

end Example

lemma bools_getD {l : List ℕ} (hl : ∀ b ∈ l, b = 0 ∨ b = 1) (p : ℕ) :
    (bools l).getD p false = true ↔ l.getD p 0 = 1 := by
  obtain hlt | hge := Nat.lt_or_ge p l.length
  · have hget : (bools l).getD p false = decide (l[p] ≠ 0) := by
      rw [List.getD_eq_getElem _ _ (by rwa [bools, List.length_map])]
      exact List.getElem_map _
    rw [hget, List.getD_eq_getElem _ _ hlt, decide_eq_true_iff]
    have hbit := hl _ (List.getElem_mem hlt)
    omega
  · rw [List.getD_eq_default _ _ hge, List.getD_eq_default _ _ (by rwa [bools, List.length_map])]
    simp

lemma bools_flatMap (exs : List Example) : bools (exs.flatMap Prod.snd) = (exs.map fun ex => bools ex.2).flatten := by
  rw [bools, List.map_flatMap, List.flatMap_def]
  rfl

/-- The segments hold the examples. -/
lemma forall₂_segments (pre : List ℕ) (exs : List Example) :
    List.Forall₂ (fun seg ex => ((pre ++ exs.flatMap Prod.fst).drop seg.1).take (seg.2 - seg.1) = ex.1)
      (segments pre.length (exs.map fun ex => ex.1.length)) exs := by
  induction exs generalizing pre with
  | nil => exact .nil
  | cons ex exs ih =>
    rw [List.map_cons, segments, List.flatMap_cons]
    refine .cons ?_ ?_
    · rw [List.drop_left, Nat.add_sub_cancel_left, List.take_left]
    · rw [← List.append_assoc, ← List.length_append]
      exact ih (pre ++ ex.1)

/-- What `batch_rows` yields for a group. -/
theorem batchRows_spec (hexs : ∀ ex ∈ exs, Encoded maxTokens ex) (hne : exs ≠ []) :
    ∃ segs rows tgt, batchRows (micro exs).segLens (micro exs).mask = some (segs, rows, tgt) ∧
      Trains exs segs rows tgt ∧ tgt.length = norm exs := by
  have hms : ∀ m ∈ exs.map fun ex => bools ex.2, m ≠ [] := by
    intro m hm
    obtain ⟨ex, hex, rfl⟩ := List.mem_map.mp hm
    exact (hexs ex hex).ne_nil
  have hlens : (exs.map fun ex => bools ex.2).map List.length = (micro exs).segLens := by
    rw [List.map_map]
    refine List.map_congr_left fun ex hex => ?_
    rw [Function.comp_apply, bools, List.length_map, (hexs ex hex).length_eq]
  have hfold := foldlM_dropStart hms []
  rw [hlens, List.nil_append, List.nil_append, List.length_nil, ← bools_flatMap] at hfold
  have hrun : batchRows (micro exs).segLens (micro exs).mask = some (segments 0 (micro exs).segLens,
      ((List.range (dropped (exs.map fun ex => bools ex.2)).length).filter fun i =>
        (dropped (exs.map fun ex => bools ex.2)).getD i false).map fun i => (i : ℤ) - 1,
      (List.range (dropped (exs.map fun ex => bools ex.2)).length).filter fun i =>
        (dropped (exs.map fun ex => bools ex.2)).getD i false) := by
    rw [batchRows]
    change (segments 0 (micro exs).segLens).foldlM dropStart (bools (exs.flatMap Prod.snd)) >>= _ = _
    rw [hfold]
    rfl
  have hcount : (dropped (exs.map fun ex => bools ex.2)).count true = norm exs := by
    rw [count_dropped, List.map_map, norm]
    congr 1
    exact List.map_congr_left fun ex hex => (hexs ex hex).trained.1
  refine ⟨_, _, _, hrun, ⟨forall₂_segments [] exs, ?_, fun p => ?_, rfl, ?_⟩, ?_⟩
  · exact List.pairwise_lt_range.filter _
  · have hbits : ∀ b ∈ (micro exs).mask, b = 0 ∨ b = 1 := fun b hb => by
      obtain ⟨ex, hex, hb⟩ := List.mem_flatMap.mp hb
      exact (hexs ex hex).bit hb
    have hmem := dropped_getD 0 hms p
    rw [hlens, ← bools_flatMap, Nat.sub_zero, and_iff_right (Nat.zero_le p)] at hmem
    rw [List.mem_filter, List.mem_range, and_iff_right_of_imp, hmem]
    · simp only [← bools_getD hbits]
      rfl
    · intro h
      by_contra hge
      rw [List.getD_eq_default _ _ (not_lt.mp hge)] at h
      cases h
  · obtain ⟨ex, hex⟩ := List.exists_mem_of_ne_nil exs hne
    rw [← List.length_pos_iff, length_filter_getD, hcount]
    have hle : ex.2.tail.sum ≤ norm exs := List.single_le_sum (fun _ _ => Nat.zero_le _) _ (List.mem_map_of_mem hex)
    exact (hexs ex hex).trained.2.trans_le hle
  · rw [length_filter_getD, hcount]

/-- A batch is split into micro-batches that fit and are trained, and the norm counts the predicted tokens. -/
structure Packed (maxTokens : ℕ) (exs : List Example) : Prop where
  groups : ∃ gs : List (List Example), gs.flatten = exs ∧ pack maxTokens exs = gs.map micro ∧
    ∀ g ∈ gs, tokens g ≤ maxTokens ∧ ∃ segs rows tgt,
      batchRows (micro g).segLens (micro g).mask = some (segs, rows, tgt) ∧ Trains g segs rows tgt
  norm : ((pack maxTokens exs).map targets).sum = norm exs

theorem packed (hexs : ∀ ex ∈ exs, Encoded maxTokens ex) : Packed maxTokens exs := by
  obtain ⟨hflat, hgroups⟩ := groups_spec fun ex hex => (hexs ex hex).fits
  have hin : ∀ g ∈ groups maxTokens exs, ∀ ex ∈ g, Encoded maxTokens ex := fun g hg ex hex =>
    hexs ex (hflat ▸ List.mem_flatten_of_mem hg hex)
  refine ⟨⟨groups maxTokens exs, hflat, rfl, fun g hg => ⟨(hgroups g hg).2, ?_⟩⟩, ?_⟩
  · obtain ⟨segs, rows, tgt, hrun, htrains, -⟩ := batchRows_spec (hin g hg) (hgroups g hg).1
    exact ⟨segs, rows, tgt, hrun, htrains⟩
  · have htargets : ∀ g ∈ groups maxTokens exs, targets (micro g) = norm g := fun g hg => by
      obtain ⟨segs, rows, tgt, hrun, -, hlen⟩ := batchRows_spec (hin g hg) (hgroups g hg).1
      rw [targets, hrun]
      exact hlen
    have hmap : (pack maxTokens exs).map targets = (groups maxTokens exs).map norm := by
      rw [pack, List.map_map]
      exact List.map_congr_left htargets
    rw [hmap]
    conv_rhs => rw [← hflat, norm, List.map_flatten, List.sum_flatten, List.map_map]
    rfl

end Groups

lemma exists_mapM {data : List Example} {b : List ℕ} (hb : ∀ i ∈ b, i < data.length) :
    ∃ exs, b.mapM (fun i => data[i]?) = some exs ∧ ∀ ex ∈ exs, ex ∈ data := by
  induction b with
  | nil => exact ⟨[], rfl, List.forall_mem_nil _⟩
  | cons i b ih =>
    obtain ⟨exs, hexs, hmem⟩ := ih fun j hj => hb j (List.mem_cons_of_mem i hj)
    have hi := hb i List.mem_cons_self
    refine ⟨data[i] :: exs, ?_, List.forall_mem_cons.mpr ⟨List.getElem_mem hi, hmem⟩⟩
    rw [List.mapM_cons, hexs, List.getElem?_eq_getElem hi]
    rfl

/-- A run of `steps` steps: the draws are epochs of the examples, and each batch is trained as it is counted. -/
theorem train_spec {maxTokens : ℕ} (data : List Example) (hdata : ∀ ex ∈ data, Encoded maxTokens ex)
    (hne : data ≠ []) {shuffle : ℕ → List ℕ → List ℕ} (hshuffle : ∀ e l, (shuffle e l).Perm l) (steps batchSize : ℕ) :
    ∃ bs, schedule shuffle data.length steps batchSize = some bs ∧
      (bs.length = steps ∧ (∀ b ∈ bs, b.length = batchSize) ∧ ∀ i, ∃ p : List ℕ,
        p.Perm (List.range data.length) ∧ (bs.flatten.drop (i * data.length)).take data.length <+: p) ∧
      ∀ b ∈ bs, ∃ exs, b.mapM (fun i => data[i]?) = some exs ∧ Packed maxTokens exs := by
  have hpos := List.length_pos_iff.mpr hne
  obtain ⟨bs, hbs, hlen, hsize, hblocks⟩ := schedule_spec hshuffle hpos steps batchSize
  refine ⟨bs, hbs, ⟨hlen, hsize, hblocks⟩, fun b hb => ?_⟩
  have hlt : ∀ i ∈ b, i < data.length := fun i hi => by
    -- the block of the draw is the prefix of a permutation
    obtain ⟨k, hk, rfl⟩ := List.mem_iff_getElem.mp (List.mem_flatten_of_mem hb hi)
    obtain ⟨p, hp, hpre⟩ := hblocks (k / data.length)
    have hdiv := Nat.div_add_mod' k data.length
    have hmod := Nat.mod_lt k hpos
    have hmem : bs.flatten[k] ∈ (bs.flatten.drop (k / data.length * data.length)).take data.length := by
      refine List.mem_iff_getElem?.mpr ⟨k % data.length, ?_⟩
      rw [List.getElem?_take_of_lt hmod, List.getElem?_drop, hdiv, List.getElem?_eq_getElem]
    exact List.mem_range.mp (hp.mem_iff.mp (hpre.subset hmem))
  obtain ⟨exs, hexs, hmem⟩ := exists_mapM hlt
  exact ⟨exs, hexs, packed fun ex hex => hdata ex (hmem ex hex)⟩

/-- Two steps on one example of two tokens. -/
theorem train_spec_pair :
    ∃ bs, schedule (fun _ l => l) 1 2 1 = some bs ∧
      (bs.length = 2 ∧ (∀ b ∈ bs, b.length = 1) ∧ ∀ i, ∃ p : List ℕ,
        p.Perm (List.range 1) ∧ (bs.flatten.drop (i * 1)).take 1 <+: p) ∧
      ∀ b ∈ bs, ∃ exs, b.mapM (fun i => [(([7, 8], [0, 1]) : Example)][i]?) = some exs ∧ Packed 4 exs :=
  train_spec [([7, 8], [0, 1])] (fun ex hex => by
    rw [List.mem_singleton.mp hex]
    exact ⟨⟨1, 1, by decide, by decide, rfl, rfl⟩, by decide⟩) (List.cons_ne_nil _ _) (fun _ l => .refl l) 2 1

end SuffixHybrid.Sft.Packing
