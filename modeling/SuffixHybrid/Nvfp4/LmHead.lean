import Mathlib.Algebra.BigOperators.Group.Finset.Basic
import Mathlib.Algebra.Order.Field.Rat
import Mathlib.Tactic.NormNum
import SuffixHybrid.Lib.Best
import SuffixHybrid.Lib.Top

/-!
# The NVFP4 head

The quantised product screens the vocabulary, and the best positions of each row are computed again from the
stock weights. All others keep the screen's values, and nothing keeps these below the recomputed ones: the best
position of a returned row is a recomputed one exactly if each other position has a recomputed one ahead of it
(`logitsNvfp4_greedy`). Then it is the stock head's, if that one is recomputed at all.
-/

namespace SuffixHybrid.Nvfp4

open Lib

/-- The number of positions that are recomputed. -/
def rescore : ℕ := 64

section Head
variable {R Q : Type} [Field R] [LinearOrder R]

/-- The largest scale times the largest code. -/
def fp4Range : R := ((448 * 6 : ℕ) : R)

/-- The largest magnitude of the batch, at least `1e-12`. -/
def amax (x : ℕ → ℕ → R) (m k : ℕ) : R :=
  max ((List.range m).foldl (fun b r => (List.range k).foldl (fun b i => max b |x r i|) b) 0)
    (1 / ((10 ^ 12 : ℕ) : R))

/-- One position of the head: products and sum, and the cast to the type of the weights. -/
def stock (cast : R → R) (w : ℕ → ℕ → R) (k : ℕ) (x : ℕ → R) (j : ℕ) : R :=
  cast (∑ i ∈ Finset.range k, w j i * x i)

/-- The recomputed values of a row. -/
def exactRows (cast : R → R) (w : ℕ → ℕ → R) (k : ℕ) (top : List ℕ) (x : ℕ → R) : List R :=
  top.map fun j => stock cast w k x j

/-- `out.scatter_(1, top, exact)`, for one row. -/
def scatter (row : ℕ → R) (top : List ℕ) (vals : List R) : ℕ → R :=
  (top.zip vals).foldl (fun row p => Function.update row p.1 p.2) row

/-- The scaled output of the GEMM, which is stored in the type `cast` casts to. -/
def screen (cast : R → R) (quant : (ℕ → ℕ → R) → R → Q) (gemm : Q → R → ℕ → ℕ → R) (gW : R) (x : ℕ → ℕ → R)
    (m k : ℕ) (r j : ℕ) : R :=
  cast (gemm (quant x (fp4Range / amax x m k)) (1 / gW) r j * (amax x m k / fp4Range))

/-- The positions that are recomputed, `topk` being the library's choice of the largest. -/
def candidates (topk : ℕ → ℕ → (ℕ → R) → List ℕ) (n : ℕ) (row : ℕ → R) : List ℕ := topk (min rescore n) n row

/-- The returned matrix, for a head of `n` positions and a batch of `m` rows of length `k`. -/
def logitsNvfp4 (cast : R → R) (quant : (ℕ → ℕ → R) → R → Q) (gemm : Q → R → ℕ → ℕ → R)
    (topk : ℕ → ℕ → (ℕ → R) → List ℕ) (w : ℕ → ℕ → R) (gW : R) (x : ℕ → ℕ → R) (m n k : ℕ) (r : ℕ) : ℕ → R :=
  let out := screen cast quant gemm gW x m k r
  let top := candidates topk n out
  scatter out top (exactRows cast w k top (x r))

/-- The best positions of the screen hold the stock logits and the others the screen's. The best position of the
row is one of these, and the stock head's best position if that is. -/
structure SeesStock (n : ℕ) (top : List ℕ) (scr stk out : ℕ → R) : Prop where
  best : Top (min rescore n) (Finset.range n) scr top
  exact : ∀ j ∈ top, out j = stk j
  tail : ∀ j < n, j ∉ top → out j = scr j
  greedy : ∀ a ∈ (List.range n).argmax out, a ∈ top
  agree : ∀ a ∈ (List.range n).argmax out, ∀ s ∈ (List.range n).argmax stk, s ∈ top → a = s

/-- Each position of the tail has a recomputed one whose stock logit is above its screen value, or as high at a
smaller position. -/
def TailBehind (n : ℕ) (top : List ℕ) (scr stk : ℕ → R) : Prop :=
  ∀ t < n, t ∉ top → ∃ c ∈ top, scr t < stk c ∨ scr t = stk c ∧ c < t

variable {top : List ℕ} {n : ℕ} {scr stk out : ℕ → R}

omit [Field R] [LinearOrder R] in
/-- The scattered values are at their positions, and the rest of the row is left. -/
lemma scatter_map (row f : ℕ → R) (top : List ℕ) (j : ℕ) :
    scatter row top (top.map f) j = if j ∈ top then f j else row j := by
  induction top generalizing row with
  | nil => rfl
  | cons c top ih =>
    have hstep : scatter row (c :: top) ((c :: top).map f) = scatter (Function.update row c (f c)) top (top.map f) := rfl
    rw [hstep, ih]
    by_cases hj : j ∈ top
    · rw [if_pos hj, if_pos (List.mem_cons_of_mem c hj)]
    · rw [if_neg hj]
      obtain rfl | hne := eq_or_ne j c
      · rw [Function.update_self, if_pos List.mem_cons_self]
      · rw [Function.update_of_ne hne, if_neg]
        intro h
        obtain h | h := List.mem_cons.mp h
        · exact hne h
        · exact hj h

omit [Field R] in
/-- A vocabulary that is recomputed whole has no tail. -/
lemma tailBehind_of_le (htop : Top (min rescore n) (Finset.range n) scr top) (hn : n ≤ rescore) :
    TailBehind n top scr stk := by
  intro t ht htk
  refine absurd (htop.mem_of_card_le ?_ (Finset.mem_range.mpr ht)) htk
  rw [Finset.card_range]
  exact le_min hn le_rfl

omit [Field R] in
/-- A row with the stock logits at the best positions of the screen. -/
lemma seesStock_iff (htop : Top (min rescore n) (Finset.range n) scr top)
    (hout : ∀ j, out j = if j ∈ top then stk j else scr j) :
    SeesStock n top scr stk out ↔ TailBehind n top scr stk := by
  have hin : ∀ j ∈ top, out j = stk j := fun j hj => by rw [hout, if_pos hj]
  have htail : ∀ j, j ∉ top → out j = scr j := fun j hj => by rw [hout, if_neg hj]
  have hiff : (∀ a ∈ (List.range n).argmax out, a ∈ top) ↔ TailBehind n top scr stk := by
    rw [argmax_mem_iff]
    refine forall₃_congr fun t _ htk => ⟨?_, ?_⟩
    · rintro ⟨c, -, hc, hahead⟩
      rw [Ahead, htail t htk, hin c hc] at hahead
      exact ⟨c, hc, hahead⟩
    · rintro ⟨c, hc, hahead⟩
      refine ⟨c, Finset.mem_range.mp (htop.mem c hc), hc, ?_⟩
      rwa [Ahead, htail t htk, hin c hc]
  constructor
  · exact fun h => hiff.mp h.greedy
  · intro h
    have hgreedy := hiff.mpr h
    refine ⟨htop, hin, fun j _ => htail j, hgreedy, fun a ha s hs hst => ?_⟩
    exact argmax_eq_of_mem (fun j _ => hin j) ha (hgreedy a ha) hs hst

/-- The greedy pick of each row is a recomputed position, and the stock pick if that one is recomputed, exactly if
the tail of each row is behind the recomputed positions. -/
theorem logitsNvfp4_greedy (cast : R → R) (quant : (ℕ → ℕ → R) → R → Q) (gemm : Q → R → ℕ → ℕ → R)
    (topk : ℕ → ℕ → (ℕ → R) → List ℕ) (htopk : ∀ k n row, Top k (Finset.range n) row (topk k n row))
    (w : ℕ → ℕ → R) (gW : R) (x : ℕ → ℕ → R) (m n k : ℕ) :
    let scr := screen cast quant gemm gW x m k
    let stk := fun r => stock cast w k (x r)
    let top := fun r => candidates topk n (scr r)
    (∀ r < m, SeesStock n (top r) (scr r) (stk r) (logitsNvfp4 cast quant gemm topk w gW x m n k r)) ↔
      ∀ r < m, TailBehind n (top r) (scr r) (stk r) :=
  forall₂_congr fun _ _ => seesStock_iff (htopk _ _ _) (scatter_map _ _ _)

end Head

/-! ## A screen with a high tail -/

/-- A head with one logit above zero, the first. -/
def firstOnly (j i : ℕ) : ℚ := if j = 0 ∧ i = 0 then 1 / 2 else 0

/-- A batch of unit vectors. -/
def unitRow (_ i : ℕ) : ℚ := if i = 0 then 1 else 0

/-- A product of `2` at the first positions and `1` at the others, before it is scaled. -/
def highTail (_ : Unit) (_ : ℚ) (_ j : ℕ) : ℚ := if j < rescore then 2 * fp4Range else fp4Range

/-- The library's choice, by a sort. -/
def sortTopk (k n : ℕ) (row : ℕ → ℚ) : List ℕ := largest row n k

theorem logitsNvfp4_greedy_small :
    SeesStock 2 (candidates sortTopk 2 (screen id (fun _ _ => ()) highTail 1 unitRow 1 64 0))
      (screen id (fun _ _ => ()) highTail 1 unitRow 1 64 0) (stock id firstOnly 64 (unitRow 0))
      (logitsNvfp4 id (fun _ _ => ()) highTail sortTopk firstOnly 1 unitRow 1 2 64 0) :=
  (logitsNvfp4_greedy id (fun _ _ => ()) highTail sortTopk (fun k n row => top_largest row n k) firstOnly 1 unitRow
    1 2 64).mpr (fun _ _ => tailBehind_of_le (top_largest _ _ _) (by decide)) 0 Nat.zero_lt_one

lemma amax_unitRow : amax unitRow 1 64 = 1 := by decide +kernel

lemma screen_highTail (r j : ℕ) :
    screen id (fun _ _ => ()) highTail 1 unitRow 1 64 r j = if j < rescore then 2 else 1 := by
  have hne : (fp4Range : ℚ) ≠ 0 := by decide
  rw [screen, amax_unitRow, id_eq, highTail]
  split_ifs
  · rw [mul_assoc, mul_one_div_cancel hne, mul_one]
  · exact mul_one_div_cancel hne

lemma stock_firstOnly (r j : ℕ) : stock id firstOnly 64 (unitRow r) j = if j = 0 then 1 / 2 else 0 := by
  rw [stock, id_eq, Finset.sum_eq_single 0]
  · simp only [firstOnly, unitRow, and_true, if_true, mul_one]
  · intro i _ hi
    rw [unitRow, if_neg hi, mul_zero]
  · intro h
    exact absurd (Finset.mem_range.mpr (by decide)) h

/-- The pick is a position of the tail, although the stock pick is recomputed. -/
theorem tail_wins :
    let scr := screen id (fun _ _ => ()) highTail 1 unitRow 1 64 0
    let top := candidates sortTopk 96 scr
    let out := logitsNvfp4 id (fun _ _ => ()) highTail sortTopk firstOnly 1 unitRow 1 96 64 0
    (64 ∈ (List.range 96).argmax out ∧ 64 ∉ top) ∧
      0 ∈ (List.range 96).argmax (stock id firstOnly 64 (unitRow 0)) ∧ 0 ∈ top := by
  intro scr top out
  have hscr : ∀ j, scr j = if j < rescore then 2 else 1 := screen_highTail 0
  have htop : ∀ j, j ∈ top ↔ j < rescore := fun j => by
    have h : Top rescore (Finset.range 96) scr top := top_largest scr 96 rescore
    have hcard : ((Finset.range 96).filter (· < rescore)).card = rescore := by decide
    rw [h.mem_iff (fun i _ hi j _ hj => ?_) hcard, Finset.mem_filter, Finset.mem_range, and_iff_right_iff_imp]
    · intro hj
      exact hj.trans (by decide)
    · rw [hscr, hscr, if_pos hi, if_neg hj]
      norm_num
  have hout : ∀ j, out j = if j < rescore then (if j = 0 then 1 / 2 else 0) else 1 := fun j => by
    have h := scatter_map scr (stock id firstOnly 64 (unitRow 0)) top j
    rw [stock_firstOnly, hscr] at h
    refine h.trans ?_
    by_cases hj : j < rescore
    · rw [if_pos ((htop j).mpr hj), if_pos hj]
    · rw [if_neg fun hm => hj ((htop j).mp hm), if_neg hj, if_neg hj]
  have hle : ∀ j, out j ≤ 1 ∧ (out j = 1 → rescore ≤ j) := fun j => by
    rw [hout]
    split_ifs with hj h0
    · norm_num
    · norm_num
    · exact ⟨le_rfl, fun _ => not_lt.mp hj⟩
  have h64 : out 64 = 1 := by rw [hout, if_neg (by decide)]
  refine ⟨⟨mem_argmax_range.mpr ⟨by decide, ?_, ?_⟩, ?_⟩, mem_argmax_range.mpr ⟨by decide, ?_, ?_⟩, ?_⟩
  · exact fun b _ => h64 ▸ (hle b).1
  · exact fun b _ hb => (hle b).2 (hb.trans h64)
  · exact fun h => absurd ((htop 64).mp h) (by decide)
  · intro b _
    rw [stock_firstOnly, stock_firstOnly, if_pos rfl]
    split_ifs <;> norm_num
  · exact fun b _ _ => Nat.zero_le b
  · exact (htop 0).mpr (by decide)

end SuffixHybrid.Nvfp4
