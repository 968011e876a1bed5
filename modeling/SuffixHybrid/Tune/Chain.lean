import Mathlib.Data.List.FinRange
import Mathlib.Data.Fin.Tuple.Basic
import Mathlib.Logic.Equiv.Fin.Basic
import Mathlib.Algebra.BigOperators.Group.Finset.Basic
import Mathlib.Algebra.BigOperators.Fin
import Mathlib.Algebra.Module.Defs
import Mathlib.Algebra.Field.Defs
import SuffixHybrid.Lib.Map

/-!
# The replay of the draft chain

A batch of windows is padded to one width and replayed for all of its anchors at once: depth `j` feeds
row `p` the token `x_{p+j}` of the window and the hidden state depth `j - 1` left there. The rows are
flattened for the drafter and taken apart again by the attention, which shows a row the keys of depth
1 at the rows up to it and the later keys of the row itself. The drafter is any function of what a row
is fed and shown. `Stats.add` counts the leading correct depths of the anchors that have all labels.
-/

namespace SuffixHybrid.Chain
open Lib

variable {H KV : Type} {b t : ℕ}

/-! ## Rows -/

/-- `x.reshape(b * t)`. -/
def flat {α : Type} (x : Fin b → Fin t → α) : Fin (b * t) → α :=
  fun n => x (finProdFinEquiv.symm n).1 (finProdFinEquiv.symm n).2

/-- `x.view(b, t)`. -/
def view {α : Type} (x : Fin (b * t) → α) : Fin b → Fin t → α :=
  fun i c => x (finProdFinEquiv (i, c))

@[simp] lemma view_flat {α : Type} (x : Fin b → Fin t → α) : view (flat x) = x := by
  funext i c
  simp [view, flat]

@[simp] lemma flat_apply {α : Type} (x : Fin b → Fin t → α) (i : Fin b) (c : Fin t) :
    flat x (finProdFinEquiv (i, c)) = x i c := by
  simp [flat]

/-- `_shift(x, j)`: the column `p + j` at column `p`, padded with zeros. -/
def shift (x : Fin b → Fin t → ℤ) (j : ℕ) : Fin b → Fin t → ℤ :=
  fun i p => if h : p.1 + j < t then x i ⟨p.1 + j, h⟩ else 0

/-! ## The drafter and the attention -/

/-- A drafter: the key and value of a row from its hidden state, token and position, and from these and
the keys and values it is shown, its prediction and its next hidden state. -/
structure Drafter (H KV : Type) where
  kv : H → ℤ → ℤ → KV
  out : H → ℤ → ℤ → List KV → ℤ × H

/-- `WindowAttention`: the keys and values of every depth so far. -/
structure WindowAttention (KV : Type) (b t : ℕ) where
  kv : List (Fin b → Fin t → KV)

/-- What row `p` of window `i` is shown: `tril` of the keys of depth 1, then its own of each later
depth. -/
def WindowAttention.visible (attn : WindowAttention KV b t) (i : Fin b) (p : Fin t) : List KV :=
  match attn.kv with
  | [] => []
  | k1 :: extra => ((List.finRange t).filter fun c => c ≤ p).map (k1 i) ++ extra.map fun k => k i p

/-- `WindowAttention.__call__`: keep the keys of this depth and show every row what it sees. -/
def WindowAttention.call (attn : WindowAttention KV b t) (k : Fin (b * t) → KV) :
    (Fin (b * t) → List KV) × WindowAttention KV b t :=
  let attn : WindowAttention KV b t := ⟨attn.kv ++ [view k]⟩
  (flat attn.visible, attn)

/-- The weight of a score: a masked one is minus infinity and weighs nothing. -/
def weight {S K : Type} [Zero K] (exp : S → K) (s : Option S) : K := s.elim 0 exp

/-- The softmax of the scores of a row applied to their values. -/
def attend {S K M : Type} [DivisionRing K] [AddCommGroup M] [Module K M] (exp : S → K)
    (row : List (Option S × M)) : M :=
  (row.map fun e => (weight exp e.1 / (row.map fun e => weight exp e.1).sum) • e.2).sum

/-- The scored row of the query of row `p`, as `masked_fill` and the chain keys leave it. -/
def WindowAttention.scored {S M Q E : Type} (attn : WindowAttention (E × M) b t) (score : Q → E → S)
    (q : Q) (i : Fin b) (p : Fin t) : List (Option S × M) :=
  match attn.kv with
  | [] => []
  | k1 :: extra =>
    ((List.finRange t).map fun c => (if c ≤ p then some (score q (k1 i c).1) else none, (k1 i c).2))
      ++ extra.map fun k => (some (score q (k i p).1), (k i p).2)

/-- Masked entries leave a sum of weighted terms as it is. -/
lemma sum_filter_weight {S K M : Type} [DivisionRing K] [AddCommGroup M] [Module K M] (exp : S → K)
    (z : K) (row : List (Option S × M)) :
    (row.map fun e => (weight exp e.1 / z) • e.2).sum =
      ((row.filter fun e => e.1.isSome).map fun e => (weight exp e.1 / z) • e.2).sum := by
  induction row with
  | nil => rfl
  | cons e row ih =>
    obtain ⟨s, v⟩ := e
    cases s with
    | none => simpa [weight] using ih
    | some s => simp [ih]

/-- Attention over a row with masked entries is attention over the others. -/
lemma attend_filter {S K M : Type} [DivisionRing K] [AddCommGroup M] [Module K M] (exp : S → K)
    (row : List (Option S × M)) : attend exp (row.filter fun e => e.1.isSome) = attend exp row := by
  have hz := sum_filter_weight exp (1 : K) (row.map fun e => (e.1, (1 : K)))
  simp only [List.map_map, List.filter_map, Function.comp_def, div_one, smul_eq_mul, mul_one] at hz
  rw [attend, attend, ← hz, ← sum_filter_weight]

/-- The unmasked scores of a row are those of what is visible to it. -/
lemma WindowAttention.filter_scored {S M Q E : Type} (attn : WindowAttention (E × M) b t)
    (score : Q → E → S) (q : Q) (i : Fin b) (p : Fin t) :
    ((attn.scored score q i p).filter fun e => e.1.isSome) =
      (attn.visible i p).map fun e => (some (score q e.1), e.2) := by
  obtain ⟨kv⟩ := attn
  cases kv with
  | nil => rfl
  | cons k1 extra =>
    have hcausal : ∀ l : List (Fin t),
        ((l.map fun c => (if c ≤ p then some (score q (k1 i c).1) else none, (k1 i c).2)).filter
          fun e => e.1.isSome) =
        ((l.filter fun c => c ≤ p).map (k1 i)).map fun e => (some (score q e.1), e.2) := by
      intro l
      induction l with
      | nil => rfl
      | cons c l ih => by_cases h : c ≤ p <;> simp [h, ih]
    have hown : ((extra.map fun k => (some (score q (k i p).1), (k i p).2)).filter
        fun e => e.1.isSome) = extra.map fun k => (some (score q (k i p).1), (k i p).2) := by
      rw [List.filter_eq_self]
      intro e he
      obtain ⟨k, -, rfl⟩ := List.mem_map.1 he
      rfl
    rw [scored, visible, List.filter_append, hcausal, hown]
    simp

/-- The arithmetic of the attention sees of a row exactly what is visible to it. -/
lemma WindowAttention.attend_scored {S K M Q E : Type} [DivisionRing K] [AddCommGroup M] [Module K M]
    (attn : WindowAttention (E × M) b t) (exp : S → K) (score : Q → E → S) (q : Q) (i : Fin b)
    (p : Fin t) :
    attend exp (attn.scored score q i p) =
      attend exp ((attn.visible i p).map fun e => (some (score q e.1), e.2)) := by
  rw [← attend_filter, filter_scored]

/-- `fam.step` and the argmax of its logits: the predictions and the next hidden states. -/
def Drafter.step (D : Drafter H KV) (h : Fin (b * t) → H) (tok pos : Fin (b * t) → ℤ)
    (attn : WindowAttention KV b t) :
    (Fin (b * t) → ℤ) × (Fin (b * t) → H) × WindowAttention KV b t :=
  let r := attn.call fun n => D.kv (h n) (tok n) (pos n)
  let o := fun n => D.out (h n) (tok n) (pos n) (r.1 n)
  (fun n => (o n).1, fun n => (o n).2, r.2)

/-! ## Windows -/

/-- A window: for each of its positions the hidden state, the token, the absolute position and whether
it is an anchor. -/
structure Window (H : Type) where
  h : List H
  tok : List ℤ
  pos : List ℤ
  anchor : List Bool
  h_length : h.length = tok.length
  pos_length : pos.length = tok.length
  anchor_length : anchor.length = tok.length

/-- A batch of `b` windows padded to `t` columns. -/
structure Batch (H : Type) (b t : ℕ) where
  h : Fin b → Fin t → H
  tok : Fin b → Fin t → ℤ
  pos : Fin b → Fin t → ℤ
  anchor : Fin b → Fin t → Bool
  lens : Fin b → ℕ

/-- The widest window. -/
def width (W : List (Window H)) : ℕ := W.foldr (fun w t => max w.tok.length t) 0

/-- The position of column `c`: of the window, then counted on from its last one (zero when it has
none). -/
def Window.posAt (w : Window H) (c : ℕ) : ℤ :=
  if c < w.tok.length then w.pos.getD c 0
  else w.pos.getLastD 0 + 1 + ((c - w.tok.length : ℕ) : ℤ)

/-- `collate`: pad the windows on the right. It fails when there is no column to pad to. -/
def collate [Zero H] (W : List (Window H)) : Option (Batch H W.length (width W)) :=
  if width W = 0 then none
  else some {
    h := fun i c => (W.get i).h.getD c 0
    tok := fun i c => (W.get i).tok.getD c 0
    pos := fun i c => (W.get i).posAt c
    anchor := fun i c => (W.get i).anchor.getD c false
    lens := fun i => (W.get i).tok.length }

/-! ## The replay -/

/-- What `chain_replay` returns. -/
structure Replay (b t : ℕ) where
  correct : List (Fin b → Fin t → Bool)
  full : Fin b → Fin t → Bool
  pred1 : Fin b → Fin t → ℤ

/-- The variables of the loop of `chain_replay`. -/
structure Loop (H KV : Type) (b t : ℕ) where
  attn : WindowAttention KV b t
  h : Fin (b * t) → H
  correct : List (Fin b → Fin t → Bool)
  pred1 : Option (Fin b → Fin t → ℤ)

/-- One depth of the loop. -/
def Loop.depth (D : Drafter H KV) (B : Batch H b t) (s : Loop H KV b t) (j : ℕ) : Loop H KV b t :=
  let r := D.step s.h (flat (shift B.tok j)) (flat fun i c => B.pos i c + ((j : ℤ) - 1)) s.attn
  let pred := view r.1
  { attn := r.2.2
    h := r.2.1
    correct := s.correct ++ [fun i c => pred i c == shift B.tok (j + 1) i c]
    pred1 := some (s.pred1.getD pred) }

/-- The loop before depth 1. -/
def Loop.init (B : Batch H b t) : Loop H KV b t := ⟨⟨[]⟩, flat B.h, [], none⟩

/-- `chain_replay`. It fails when there is no depth to stack. -/
def chainReplay (D : Drafter H KV) (B : Batch H b t) (k : ℕ) : Option (Replay b t) :=
  let s := (List.range' 1 k).foldl (Loop.depth D B) (Loop.init B)
  s.pred1.map fun pred1 =>
    { correct := s.correct
      full := fun i c => B.anchor i c && decide (c.1 + k + 1 < B.lens i)
      pred1 := pred1 }

/-! ## The statistics of the gate -/

/-- `torch.cumprod` of a column, from the product so far. -/
def cumprod : ℕ → List ℕ → List ℕ
  | _, [] => []
  | a, x :: xs => a * x :: cumprod (a * x) xs

/-- `run`: the leading correct depths of a row. -/
def Replay.run (rep : Replay b t) (i : Fin b) (p : Fin t) : ℕ :=
  (cumprod 1 (rep.correct.map fun c => (c i p).toNat)).sum

/-- A bucket: anchors, accepted sum, depth-1 correct, parity hits, parity n. -/
structure Bucket where
  anchors : ℕ
  accepted : ℕ
  depth1 : ℕ
  hits : ℕ
  parity : ℕ
  deriving DecidableEq, Repr

/-- `Stats`: the buckets by tag. -/
structure Stats (T : Type) where
  k : ℕ
  buckets : Map T Bucket

/-- `Stats(k)`. -/
def Stats.init {T : Type} (k : ℕ) : Stats T := ⟨k, ∅⟩

/-- The columns `f` selects. -/
def count (f : Fin t → Bool) : ℕ := ∑ c, (f c).toNat

/-- A bucket with the anchors of window `i`. -/
def Bucket.feed (rep : Replay b t) (served : Option (Fin b → Fin t → ℤ)) (i : Fin b) (u : Bucket) :
    Bucket :=
  let f := rep.full i
  let u := { u with
    anchors := u.anchors + count f
    accepted := u.accepted + ∑ c, if f c then rep.run i c else 0
    depth1 := u.depth1 + count fun c => f c && (rep.correct.head?.any fun x => x i c) }
  match served with
  | none => u
  | some s =>
    let m := fun c => f c && decide (0 ≤ s i c)
    { u with
      hits := u.hits + count fun c => m c && rep.pred1 i c == s i c
      parity := u.parity + count m }

/-- `Stats.add`: the windows in order, each into the bucket of its tag. -/
def Stats.add {T : Type} [DecidableEq T] (s : Stats T) (rep : Replay b t) (tags : Fin b → T)
    (served : Option (Fin b → Fin t → ℤ)) : Stats T :=
  { s with buckets := (List.finRange b).foldl (fun m i =>
      m.put (tags i) (((m.lookup (tags i)).getD ⟨0, 0, 0, 0, 0⟩).feed rep served i)) s.buckets }

end SuffixHybrid.Chain
