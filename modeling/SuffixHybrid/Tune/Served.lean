import Mathlib.Data.List.GetD
import SuffixHybrid.Lib.Prefix
import SuffixHybrid.Tune.Chain

/-!
# The replay measures the served chain

The served chain drafts freely: it is fed the true token once, then its own predictions. Fed the true
tokens instead, it predicts the same up to its first miss, so the leading correct depths of the replay
are the prefix on which the served chain agrees with the window. A row of the batch is shown nothing
but rows of its own window up to it, so the rest of the batch does not matter.
-/

namespace SuffixHybrid.Chain
open Lib

variable {H KV : Type} {b t : ℕ}

/-! ## The served chain -/

/-- The free-running chain of `n` more steps: fed the token `x`, then its own predictions, shown `keys`
and its own keys. -/
def Drafter.greedy (D : Drafter H KV) (keys : List KV) : ℕ → H → ℤ → ℤ → List KV → List ℤ
  | 0, _, _, _, _ => []
  | n + 1, h, x, q, own =>
    let own := own ++ [D.kv h x q]
    let r := D.out h x q (keys ++ own)
    r.1 :: D.greedy keys n r.2 r.1 (q + 1) own

/-- The keys of depth 1 at the rows up to `p`. -/
def Window.keys [Zero H] (D : Drafter H KV) (w : Window H) (p : ℕ) : List KV :=
  (List.range (p + 1)).map fun c => D.kv (w.h.getD c 0) (w.tok.getD (c + 1) 0) (w.pos.getD c 0)

/-- Depth 1 at row `p`. -/
def Window.first [Zero H] (D : Drafter H KV) (w : Window H) (p : ℕ) : ℤ × H :=
  D.out (w.h.getD p 0) (w.tok.getD (p + 1) 0) (w.pos.getD p 0) (w.keys D p)

/-- The `k` tokens served from the anchor `p`. -/
def Window.served [Zero H] (D : Drafter H KV) (w : Window H) (p : ℕ) : ℕ → List ℤ
  | 0 => []
  | k + 1 =>
    let r := w.first D p
    r.1 :: D.greedy (w.keys D p) k r.2 r.1 (w.pos.getD p 0 + 1) []

lemma Drafter.length_greedy (D : Drafter H KV) (keys : List KV) (n : ℕ) (h : H) (x q : ℤ)
    (own : List KV) : (D.greedy keys n h x q own).length = n := by
  induction n generalizing h x q own with
  | zero => rfl
  | succ n ih => simp [greedy, ih]

lemma Window.length_served [Zero H] (D : Drafter H KV) (w : Window H) (p k : ℕ) :
    (w.served D p k).length = k := by
  cases k with
  | zero => rfl
  | succ k => simp [served, Drafter.length_greedy]

/-! ## Teacher forcing -/

/-- The same chain fed the labels: which of its predictions are right. -/
def Drafter.forced (D : Drafter H KV) (keys : List KV) :
    List ℤ → H → ℤ → ℤ → List KV → List Bool
  | [], _, _, _, _ => []
  | y :: ys, h, x, q, own =>
    let own := own ++ [D.kv h x q]
    let r := D.out h x q (keys ++ own)
    (r.1 == y) :: D.forced keys ys r.2 y (q + 1) own

/-- The number of leading `true`s, as `cumprod` counts it. -/
def leading (l : List Bool) : ℕ := (cumprod 1 (l.map Bool.toNat)).sum

lemma sum_cumprod_zero (l : List ℕ) : (cumprod 0 l).sum = 0 := by
  induction l with
  | nil => rfl
  | cons x l ih => simpa [cumprod] using ih

lemma leading_true (l : List Bool) : leading (true :: l) = leading l + 1 := by
  simp [leading, cumprod, Nat.add_comm]

lemma leading_false (l : List Bool) : leading (false :: l) = 0 := by
  simp [leading, cumprod, sum_cumprod_zero]

/-- Teacher forcing and free running agree up to the first miss. -/
lemma Drafter.leading_forced (D : Drafter H KV) (keys : List KV) (ys : List ℤ) (h : H) (x q : ℤ)
    (own : List KV) :
    leading (D.forced keys ys h x q own) = lcp (D.greedy keys ys.length h x q own) ys := by
  induction ys generalizing h x q own with
  | nil => rfl
  | cons y ys ih =>
    simp only [forced, List.length_cons, greedy, lcp]
    by_cases hy : (D.out h x q (keys ++ (own ++ [D.kv h x q]))).1 = y
    · rw [beq_iff_eq.2 hy, leading_true, ih, if_pos hy, hy]
    · rw [beq_eq_false_iff_ne.2 hy, leading_false, if_neg hy]

/-! ## One depth of the loop -/

/-- The keys and values of depth `j`. -/
def Loop.keyed (D : Drafter H KV) (B : Batch H b t) (s : Loop H KV b t) (j : ℕ) :
    Fin b → Fin t → KV :=
  fun i c => D.kv (view s.h i c) (shift B.tok j i c) (B.pos i c + ((j : ℤ) - 1))

/-- What row `p` of window `i` computes at depth `j`. -/
def Loop.result (D : Drafter H KV) (B : Batch H b t) (s : Loop H KV b t) (j : ℕ) (i : Fin b)
    (p : Fin t) : ℤ × H :=
  D.out (view s.h i p) (shift B.tok j i p) (B.pos i p + ((j : ℤ) - 1))
    (WindowAttention.visible ⟨s.attn.kv ++ [s.keyed D B j]⟩ i p)

lemma Loop.depth_kv (D : Drafter H KV) (B : Batch H b t) (s : Loop H KV b t) (j : ℕ) :
    (s.depth D B j).attn.kv = s.attn.kv ++ [s.keyed D B j] := by
  simp only [depth, Drafter.step, WindowAttention.call, List.append_cancel_left_eq, List.cons.injEq,
    and_true]
  funext i c
  simp [view, keyed]

/-- What the flattened step computes at a row. -/
lemma Loop.step_eq_result (D : Drafter H KV) (B : Batch H b t) (s : Loop H KV b t) (j : ℕ) (i : Fin b)
    (p : Fin t) :
    ((D.step s.h (flat (shift B.tok j)) (flat fun i c => B.pos i c + ((j : ℤ) - 1)) s.attn).1
        (finProdFinEquiv (i, p)),
      (D.step s.h (flat (shift B.tok j)) (flat fun i c => B.pos i c + ((j : ℤ) - 1)) s.attn).2.1
        (finProdFinEquiv (i, p))) = s.result D B j i p := by
  have hkv := s.depth_kv D B j
  simp only [depth, Drafter.step, WindowAttention.call] at hkv
  simp only [Drafter.step, WindowAttention.call, flat_apply, hkv]
  rfl

lemma Loop.depth_h (D : Drafter H KV) (B : Batch H b t) (s : Loop H KV b t) (j : ℕ) (i : Fin b)
    (p : Fin t) : view (s.depth D B j).h i p = (s.result D B j i p).2 :=
  congrArg Prod.snd (s.step_eq_result D B j i p)

lemma Loop.depth_correct (D : Drafter H KV) (B : Batch H b t) (s : Loop H KV b t) (j : ℕ) :
    (s.depth D B j).correct =
      s.correct ++ [fun i p => (s.result D B j i p).1 == shift B.tok (j + 1) i p] := by
  simp only [depth, List.append_cancel_left_eq, List.cons.injEq, and_true]
  funext i p
  rw [← s.step_eq_result D B j i p]
  rfl

lemma Loop.depth_pred1 (D : Drafter H KV) (B : Batch H b t) (s : Loop H KV b t) (j : ℕ) :
    (s.depth D B j).pred1 = some (s.pred1.getD fun i p => (s.result D B j i p).1) := by
  simp only [← s.step_eq_result D B j]
  rfl

/-! ## The loop -/

/-- The labels of row `p` from depth `j` on. -/
def labels (B : Batch H b t) (i : Fin b) (p : Fin t) (j n : ℕ) : List ℤ :=
  (List.range' j n).map fun j => shift B.tok (j + 1) i p

/-- What row `p` is shown of the keys `k1` of depth 1. -/
def causal (k1 : Fin b → Fin t → KV) (i : Fin b) (p : Fin t) : List KV :=
  ((List.finRange t).filter fun c => c ≤ p).map (k1 i)

/-- The depths after the first are the forced chain of every row. -/
lemma Loop.correct_foldl (D : Drafter H KV) (B : Batch H b t) (i : Fin b) (p : Fin t) (n : ℕ) :
    ∀ {j : ℕ} {s : Loop H KV b t} {k1 : Fin b → Fin t → KV} {extra}, s.attn.kv = k1 :: extra →
      (((List.range' j n).foldl (depth D B) s).correct.map fun c => c i p) =
        (s.correct.map fun c => c i p) ++
          D.forced (causal k1 i p) (labels B i p j n) (view s.h i p) (shift B.tok j i p)
            (B.pos i p + ((j : ℤ) - 1)) (extra.map fun k => k i p) := by
  induction n with
  | zero => simp [labels, Drafter.forced]
  | succ n ih =>
    intro j s k1 extra hkv
    have hkv' : (s.depth D B j).attn.kv = k1 :: (extra ++ [s.keyed D B j]) := by
      rw [depth_kv, hkv, List.cons_append]
    have hres : s.result D B j i p = D.out (view s.h i p) (shift B.tok j i p)
        (B.pos i p + ((j : ℤ) - 1)) (causal k1 i p ++ ((extra.map fun k => k i p) ++
          [D.kv (view s.h i p) (shift B.tok j i p) (B.pos i p + ((j : ℤ) - 1))])) := by
      simp [result, hkv, WindowAttention.visible, causal, keyed]
    have hpos : B.pos i p + (((j + 1 : ℕ) : ℤ) - 1) = B.pos i p + ((j : ℤ) - 1) + 1 := by
      push_cast
      omega
    rw [List.range'_succ, List.foldl_cons, ih hkv', depth_correct, depth_h, hpos]
    simp only [labels, List.range'_succ, List.map_cons, Drafter.forced, List.map_append, List.map_nil,
      List.append_assoc, List.singleton_append, hres]
    rfl

/-- The predictions of depth 1 are kept. -/
lemma Loop.pred1_foldl (D : Drafter H KV) (B : Batch H b t) (l : List ℕ) {s : Loop H KV b t}
    {x : Fin b → Fin t → ℤ} (h : s.pred1 = some x) : (l.foldl (depth D B) s).pred1 = some x := by
  induction l generalizing s with
  | nil => exact h
  | cons j l ih =>
    apply ih
    rw [depth_pred1, h, Option.getD_some]

/-- The replay of `k + 1` depths at a row: depth 1, then the forced chain. -/
lemma chainReplay_succ {D : Drafter H KV} {B : Batch H b t} {k : ℕ} {rep : Replay b t}
    (hrep : chainReplay D B (k + 1) = some rep) (i : Fin b) (p : Fin t) :
    let first := (Loop.init B).result D B 1 i p
    rep.pred1 i p = first.1 ∧
      (rep.correct.map fun c => c i p) = (first.1 == shift B.tok 2 i p) ::
        D.forced (causal ((Loop.init B).keyed D B 1) i p) (labels B i p 2 k) first.2
          (shift B.tok 2 i p) (B.pos i p + 1) [] := by
  intro first
  simp only [chainReplay, List.range'_succ, List.foldl_cons] at hrep
  rw [Loop.pred1_foldl D B _ ((Loop.init B).depth_pred1 D B 1), Option.map_some,
    Option.some.injEq] at hrep
  subst hrep
  refine ⟨rfl, ?_⟩
  have hkv : ((Loop.init B).depth D B 1).attn.kv = [(Loop.init B).keyed D B 1] := by
    rw [Loop.depth_kv]
    rfl
  show ((List.foldl (Loop.depth D B) _ _).correct.map fun c => c i p) = _
  rw [Loop.correct_foldl D B i p k hkv, Loop.depth_correct, Loop.depth_h]
  simp [Loop.init, first]

/-! ## Padding -/

lemma length_le_width {W : List (Window H)} {w : Window H} (h : w ∈ W) : w.tok.length ≤ width W := by
  induction h with
  | head W => exact le_max_left _ _
  | tail w' _ ih => exact le_trans ih (le_max_right _ _)

/-- Shifting padded windows is reading on in them. -/
lemma shift_collate [Zero H] {W : List (Window H)} {B : Batch H W.length (width W)}
    (hB : collate W = some B) (j : ℕ) (i : Fin W.length) (p : Fin (width W)) :
    shift B.tok j i p = (W.get i).tok.getD (p + j) 0 := by
  rw [collate] at hB
  split at hB
  · cases hB
  · obtain rfl := Option.some.inj hB
    have hw := length_le_width (List.get_mem W i)
    rw [shift]
    split
    · rfl
    · next h => rw [List.getD_eq_default _ _ (by omega)]

lemma filter_le_range (m n : ℕ) :
    ((List.range (m + 1 + n)).filter fun c => c ≤ m) = List.range (m + 1) := by
  rw [List.range_add, List.filter_append, List.filter_eq_self.2, List.filter_eq_nil_iff.2,
    List.append_nil]
  · intro c hc
    obtain ⟨l, -, rfl⟩ := List.mem_map.1 hc
    simp only [decide_eq_true_eq]
    omega
  · intro c hc
    rw [List.mem_range] at hc
    simp only [decide_eq_true_eq]
    omega

/-- The columns up to `p`, by their numbers. -/
lemma map_filter_finRange {α : Type} {f : Fin t → α} {g : ℕ → α} (p : Fin t)
    (h : ∀ c : Fin t, c ≤ p → f c = g c) :
    ((List.finRange t).filter fun c => c ≤ p).map f = (List.range (p + 1)).map g := by
  have hfg : ((List.finRange t).filter fun c => c ≤ p).map f =
      ((List.finRange t).filter fun c => c ≤ p).map (g ∘ Fin.val) := by
    apply List.map_congr_left
    intro c hc
    exact h c (by simpa using List.of_mem_filter hc)
  have hrange : List.range t = List.range (p + 1 + (t - (p + 1))) := by
    rw [Nat.add_sub_cancel' p.2]
  rw [hfg, ← List.map_map, ← filter_le_range p (t - (p + 1)), ← hrange,
    ← List.map_coe_finRange_eq_range, List.filter_map]
  rfl

/-! ## The replay and the served chain -/

section
variable [Zero H] {D : Drafter H KV} {W : List (Window H)} {B : Batch H W.length (width W)} {k : ℕ}
  {rep : Replay W.length (width W)}

/-- A real row has the hidden state and the position of its window. -/
lemma collate_row (hB : collate W = some B) (i : Fin W.length) {c : Fin (width W)}
    (hc : c.1 < (W.get i).tok.length) :
    B.h i c = (W.get i).h.getD c 0 ∧ B.pos i c = (W.get i).pos.getD c 0 := by
  rw [collate] at hB
  split at hB
  · cases hB
  · obtain rfl := Option.some.inj hB
    exact ⟨rfl, if_pos hc⟩

/-- Row `p` of a real window at depth 1. -/
lemma result_collate (hB : collate W = some B) (i : Fin W.length) {p : Fin (width W)}
    (hp : p.1 < (W.get i).tok.length) :
    causal ((Loop.init B).keyed D B 1) i p = (W.get i).keys D p ∧
      (Loop.init B).result D B 1 i p = (W.get i).first D p := by
  have hrow : ∀ c : Fin (width W), c ≤ p → view (flat B.h) i c = (W.get i).h.getD c 0 ∧
      B.pos i c + (((1 : ℕ) : ℤ) - 1) = (W.get i).pos.getD c 0 := by
    intro c hc
    rw [Nat.cast_one, sub_self, add_zero, view_flat]
    exact collate_row hB i (lt_of_le_of_lt hc hp)
  have hkeys : causal ((Loop.init B).keyed D B 1) i p = (W.get i).keys D p := by
    apply map_filter_finRange
    intro c hc
    rw [Loop.keyed, Loop.init, (hrow c hc).1, (hrow c hc).2, shift_collate hB]
  refine ⟨hkeys, ?_⟩
  have hvis : WindowAttention.visible ⟨(Loop.init B).attn.kv ++ [(Loop.init B).keyed D B 1]⟩ i p =
      causal ((Loop.init B).keyed D B 1) i p := by
    simp [Loop.init, WindowAttention.visible, causal]
  rw [Loop.result, hvis, hkeys, Loop.init, (hrow p le_rfl).1, (hrow p le_rfl).2, shift_collate hB,
    Window.first]

/-- A full anchor has all its labels in the window. -/
lemma full_iff (hB : collate W = some B) (hrep : chainReplay D B k = some rep) (i : Fin W.length)
    (p : Fin (width W)) : rep.full i p = true ↔
      (W.get i).anchor.getD p false = true ∧ p.1 + k + 1 < (W.get i).tok.length := by
  obtain ⟨pred1, -, rfl⟩ := Option.map_eq_some_iff.1 hrep
  rw [collate] at hB
  split at hB
  · cases hB
  · obtain rfl := Option.some.inj hB
    simp

/-- Depth 1 of a real row. -/
lemma pred1_eq (hB : collate W = some B) (hrep : chainReplay D B k = some rep) (i : Fin W.length)
    {p : Fin (width W)} (hp : p.1 < (W.get i).tok.length) :
    rep.pred1 i p = ((W.get i).first D p).1 := by
  cases k with
  | zero => cases hrep
  | succ k => rw [(chainReplay_succ hrep i p).1, (result_collate hB i hp).2]

/-- The labels of a full anchor are the next tokens of its window. -/
lemma labels_collate (hB : collate W = some B) (i : Fin W.length) (p : Fin (width W)) (j n : ℕ)
    (h : p.1 + j + n < (W.get i).tok.length) :
    labels B i p j n = ((W.get i).tok.drop (p + j + 1)).take n := by
  apply List.ext_getElem
  · simp only [labels, List.length_map, List.length_range', List.length_take, List.length_drop]
    omega
  · intro m hm hm'
    simp only [labels, List.length_map, List.length_range'] at hm
    simp only [labels, List.getElem_map, List.getElem_range', shift_collate hB, List.getElem_take,
      List.getElem_drop]
    rw [List.getD_eq_getElem _ _ (by omega)]
    congr 1
    omega

/-- The leading correct depths of a full anchor are those the served chain gets right. -/
lemma run_eq_lcp (hB : collate W = some B) (hrep : chainReplay D B k = some rep) (i : Fin W.length)
    (p : Fin (width W)) (hfull : rep.full i p = true) :
    rep.run i p = lcp ((W.get i).served D p k) ((W.get i).tok.drop (p + 2)) := by
  obtain ⟨-, hlen⟩ := (full_iff hB hrep i p).1 hfull
  cases k with
  | zero => cases hrep
  | succ k =>
    obtain ⟨hkeys, hfirst⟩ := result_collate (D := D) hB i (p := p) (by omega)
    have hcorrect := (chainReplay_succ hrep i p).2
    have hpos := (collate_row hB i (c := p) (by omega)).2
    have hlabel : shift B.tok 2 i p = (W.get i).tok[p.1 + 2] := by
      rw [shift_collate hB, List.getD_eq_getElem]
    have hrun : rep.run i p = leading (rep.correct.map fun c => c i p) := by
      rw [Replay.run, leading, List.map_map]
      rfl
    rw [hrun, hcorrect, hkeys, hfirst, hpos, hlabel, labels_collate hB i p 2 k (by omega),
      List.drop_eq_getElem_cons (i := p.1 + 2) (by omega), Window.served]
    simp only [lcp]
    by_cases hy : ((W.get i).first D p).1 = (W.get i).tok[p.1 + 2]
    · have hk : (((W.get i).tok.drop (p + 2 + 1)).take k).length = k := by
        rw [List.length_take, List.length_drop]
        omega
      rw [beq_iff_eq.2 hy, leading_true, Drafter.leading_forced, hk, ← hy, if_pos rfl,
        lcp_take_right (Drafter.length_greedy D _ k _ _ _ _).le]
    · rw [beq_eq_false_iff_ne.2 hy, leading_false, if_neg hy]

end

/-! ## What the replay depends on -/

/-- Two windows agree on their first `n` positions. -/
structure Window.Upto (n : ℕ) (w w' : Window H) : Prop where
  h : w.h.take n = w'.h.take n
  tok : w.tok.take n = w'.tok.take n
  pos : w.pos.take n = w'.pos.take n
  anchor : w.anchor.take n = w'.anchor.take n

lemma getD_of_take {α : Type} {l l' : List α} {n : ℕ} (h : l.take n = l'.take n) {c : ℕ} (hc : c < n)
    (a : α) : l.getD c a = l'.getD c a := by
  have hget := congrArg (fun m => m[c]?.getD a) h
  simpa [List.getElem?_take, hc] using hget

lemma lt_length_of_take {α : Type} {l l' : List α} {n : ℕ} (h : l.take n = l'.take n) {c : ℕ}
    (hc : c < n) : c < l.length ↔ c < l'.length := by
  have hlen := congrArg List.length h
  simp only [List.length_take] at hlen
  omega

section
variable [Zero H] {w w' : Window H} {n p : ℕ}

lemma Window.Upto.keys_eq (u : w.Upto n w') (D : Drafter H KV) (h : p + 2 ≤ n) :
    w.keys D p = w'.keys D p := by
  apply List.map_congr_left
  intro c hc
  rw [List.mem_range] at hc
  rw [getD_of_take u.h (by omega), getD_of_take u.tok (by omega), getD_of_take u.pos (by omega)]

lemma Window.Upto.first_eq (u : w.Upto n w') (D : Drafter H KV) (h : p + 2 ≤ n) :
    w.first D p = w'.first D p := by
  rw [first, first, u.keys_eq D h, getD_of_take u.h (by omega), getD_of_take u.tok (by omega),
    getD_of_take u.pos (by omega)]

lemma Window.Upto.served_eq (u : w.Upto n w') (D : Drafter H KV) (h : p + 2 ≤ n) (k : ℕ) :
    w.served D p k = w'.served D p k := by
  cases k with
  | zero => rfl
  | succ k =>
    rw [served, served, u.first_eq D h, u.keys_eq D h, getD_of_take u.pos (c := p) (by omega)]

/-- What the served chain gets right depends on the window up to its last label. -/
lemma Window.Upto.lcp_eq {k : ℕ} (u : w.Upto (p + k + 2) w') (D : Drafter H KV) :
    lcp (w.served D p k) (w.tok.drop (p + 2)) = lcp (w'.served D p k) (w'.tok.drop (p + 2)) := by
  have hn : p + k + 2 - (p + 2) = k := by omega
  have htok : (w.tok.drop (p + 2)).take k = (w'.tok.drop (p + 2)).take k := by
    rw [← hn, ← List.drop_take, ← List.drop_take, u.tok]
  have hle : ∀ v : Window H, (v.served D p k).length ≤ k := fun v => (v.length_served D p k).le
  rw [← lcp_take_right (hle w), ← lcp_take_right (hle w'), htok, u.served_eq D (by omega)]

end

/-! ## The accepted sum -/

/-- The accepted sum of the bucket of a tag. -/
def Stats.accepted {T : Type} [DecidableEq T] (s : Stats T) (tag : T) : ℕ :=
  ((s.buckets.lookup tag).map Bucket.accepted).getD 0

lemma Bucket.accepted_feed (rep : Replay b t) (served : Option (Fin b → Fin t → ℤ)) (i : Fin b)
    (u : Bucket) :
    (u.feed rep served i).accepted = u.accepted + ∑ p, if rep.full i p then rep.run i p else 0 := by
  cases served <;> rfl

/-- `Stats.add` adds the leading correct depths of the full anchors to the buckets of their tags. -/
lemma Stats.accepted_add {T : Type} [DecidableEq T] (s : Stats T) (rep : Replay b t) (tags : Fin b → T)
    (served : Option (Fin b → Fin t → ℤ)) (tag : T) :
    (s.add rep tags served).accepted tag = s.accepted tag +
      ∑ i, if tags i = tag then ∑ p, if rep.full i p then rep.run i p else 0 else 0 := by
  rw [← List.sum_ofFn, List.ofFn_eq_map]
  obtain ⟨k, m⟩ := s
  simp only [add, accepted]
  induction List.finRange b generalizing m with
  | nil => simp
  | cons i l ih =>
    rw [List.foldl_cons, ih, List.map_cons, List.sum_cons, ← add_assoc]
    congr 1
    by_cases h : tags i = tag
    · subst h
      cases m.lookup (tags i) <;> simp [Bucket.accepted_feed]
    · simp [h, Map.lookup_put_ne _ _ (Ne.symm h)]

/-! ## The replay measures the served acceptance -/

/-- The count at a full anchor is the length of the longest prefix on which the free-running chain
agrees with the window's tokens, and that is what the gate adds up. Neither the count nor the
predictions of depth 1 at real rows depend on the rest of the batch, its padding, or the window beyond
the last label. -/
theorem accepted_eq_served [Zero H] (D : Drafter H KV) {W : List (Window H)} {k : ℕ}
    {B : Batch H W.length (width W)} {rep : Replay W.length (width W)} (hB : collate W = some B)
    (hrep : chainReplay D B k = some rep) :
    (∀ i p, rep.full i p = true →
      rep.run i p = lcp ((W.get i).served D p k) ((W.get i).tok.drop (p + 2))) ∧
    (∀ {T : Type} [DecidableEq T] (s : Stats T) (tags : Fin W.length → T)
      (served : Option (Fin W.length → Fin (width W) → ℤ)) (tag : T),
      (s.add rep tags served).accepted tag = s.accepted tag +
        ∑ i, if tags i = tag then ∑ p : Fin (width W), if rep.full i p then
          lcp ((W.get i).served D p k) ((W.get i).tok.drop (p + 2)) else 0 else 0) ∧
    ∀ {W' : List (Window H)} {B' : Batch H W'.length (width W')}
      {rep' : Replay W'.length (width W')}, collate W' = some B' → chainReplay D B' k = some rep' →
      ∀ (i : Fin W.length) (i' : Fin W'.length) (p : Fin (width W)) (p' : Fin (width W')),
        p.1 = p'.1 → (W.get i).Upto (p + k + 2) (W'.get i') →
        rep.full i p = rep'.full i' p' ∧ (rep.full i p = true → rep.run i p = rep'.run i' p') ∧
        (p.1 < (W.get i).tok.length → rep.pred1 i p = rep'.pred1 i' p') := by
  refine ⟨run_eq_lcp hB hrep, ?_, ?_⟩
  · intro T _ s tags served tag
    rw [Stats.accepted_add]
    have hrow : ∀ i, (∑ p, if rep.full i p then rep.run i p else 0) =
        ∑ p : Fin (width W), if rep.full i p then
          lcp ((W.get i).served D p k) ((W.get i).tok.drop (p + 2)) else 0 := by
      intro i
      apply Finset.sum_congr rfl
      intro p _
      split
      · next h => exact run_eq_lcp hB hrep i p h
      · rfl
    simp only [hrow]
  · intro W' B' rep' hB' hrep' i i' p p' hp u
    have hfull : rep.full i p = rep'.full i' p' := by
      rw [Bool.eq_iff_iff, full_iff hB hrep, full_iff hB' hrep', ← hp,
        getD_of_take u.anchor (by omega), lt_length_of_take u.tok (by omega)]
    refine ⟨hfull, ?_, ?_⟩
    · intro h
      rw [run_eq_lcp hB hrep i p h, run_eq_lcp hB' hrep' i' p' (hfull ▸ h), ← hp, u.lcp_eq D]
    · intro h
      have h' : p'.1 < (W'.get i').tok.length := by
        rwa [← hp, ← lt_length_of_take u.tok (by omega)]
      rw [pred1_eq hB hrep i h, pred1_eq hB' hrep' i' h', ← hp, u.first_eq D (by omega)]

/-- A drafter that adds the number of keys it is shown to its token. -/
def adder : Drafter ℤ ℤ where
  kv := fun h x q => h + x + q
  out := fun h x _ vis => (x + vis.length, h + 1)

/-- Two windows, of which the second is padded. -/
def windows : List (Window ℤ) :=
  [⟨[3, 1, 4, 1, 5], [5, 6, 7, 9, 0], [10, 11, 12, 13, 14], [true, true, true, true, true],
    rfl, rfl, rfl⟩,
   ⟨[9, 2], [6, 7], [40, 41], [true, false], rfl, rfl, rfl⟩]

/-- The adder gets one of two depths right at the second anchor. -/
theorem accepted_eq_served_windows :
    ∃ B rep, collate windows = some B ∧ chainReplay adder B 2 = some rep ∧
      ∃ i p, i.1 = 0 ∧ p.1 = 1 ∧ rep.full i p = true ∧ rep.run i p = 1 := by
  let i : Fin windows.length := ⟨0, by decide⟩
  let p : Fin (width windows) := ⟨1, by decide⟩
  obtain ⟨B, hB⟩ : ∃ B, collate windows = some B := ⟨_, rfl⟩
  obtain ⟨rep, hrep⟩ : ∃ rep, chainReplay adder B 2 = some rep := ⟨_, rfl⟩
  have hfull : rep.full i p = true := (full_iff hB hrep i p).2 (by decide)
  refine ⟨B, rep, hB, hrep, i, p, rfl, rfl, hfull, ?_⟩
  exact ((accepted_eq_served adder hB hrep).1 i p hfull).trans (by decide)

end SuffixHybrid.Chain
