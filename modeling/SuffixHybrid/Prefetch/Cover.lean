import SuffixHybrid.Lib.Span
import SuffixHybrid.Prefetch.Recorder

/-!
# What the prefetch rows cover

`rows_for` shrinks a span to the addresses on 16 bytes in it and cuts these from the front (`Cut`). The rows of the
spans follow each other, in the order of the spans (`rowsFor_cut`): together they fit in the budget, and as long as
16 bytes of it are left a span loses less than `MIN_BYTES` at its end.
-/

namespace SuffixHybrid.Prefetch

/-- The first address on 16 bytes in a span. -/
def Span.first (span : Span) : ℤ := -(-span.1 / ALIGN) * ALIGN

/-- The last address on 16 bytes in a span, or its end. -/
def Span.past (span : Span) : ℤ := (span.1 + span.2) / ALIGN * ALIGN

/-- The addresses of a row. -/
def addresses (row : Span) : ℤ × ℤ × Unit := (row.1, row.1 + row.2, ())

/-- The bytes of the rows. -/
def total (rows : List Span) : ℤ := (rows.map Prod.snd).sum

/-- The row is aligned and not longer than a chunk. -/
def Piece (chunk : ℤ) (row : Span) : Prop := ALIGN ∣ row.1 ∧ ALIGN ∣ row.2 ∧ 0 < row.2 ∧ row.2 ≤ chunk

/-- The rows cut a span from its first aligned address, one after the other. -/
structure Cut (chunk : ℤ) (span : Span) (rows : List Span) : Prop where
  piece : ∀ r ∈ rows, Piece chunk r
  inside : ∀ r ∈ rows, InSpan r span
  disjoint : rows.Pairwise fun r r' => r.1 + r.2 ≤ r'.1
  consecutive : Lib.Span span.first (span.first + total rows) (rows.map addresses)

/-- The rows leave less than `MIN_BYTES` at the end of the span, and they leave out a span that is smaller. -/
def Covered (span : Span) (rows : List Span) : Prop :=
  if MIN_BYTES ≤ span.past - span.first then span.past - MIN_BYTES < span.first + total rows else rows = []

@[simp] lemma total_nil : total [] = 0 := rfl

@[simp] lemma total_cons (r : Span) (rows : List Span) : total (r :: rows) = r.2 + total rows := by
  simp [total]

@[simp] lemma total_append (rows rows' : List Span) : total (rows ++ rows') = total rows + total rows' := by
  simp [total]

lemma Span.first_dvd (span : Span) : ALIGN ∣ span.first := ⟨_, mul_comm _ _⟩

lemma Span.past_dvd (span : Span) : ALIGN ∣ span.past := ⟨_, mul_comm _ _⟩

lemma Span.le_first (span : Span) : span.1 ≤ span.first := by
  change span.1 ≤ -(-span.1 / 16) * 16
  omega

lemma Span.past_le (span : Span) : span.past ≤ span.1 + span.2 := by
  change (span.1 + span.2) / 16 * 16 ≤ span.1 + span.2
  omega

variable {chunk a b left left' : ℤ} {rows : List Span}

/-- The size of a piece: aligned, not empty, and within the chunk, the span and the budget. -/
lemma size_spec (hchunk : 0 < chunk) (hdvd : ALIGN ∣ chunk) (hab : ALIGN ∣ b - a)
    (hgo : MIN_BYTES ≤ b - a ∧ ALIGN ≤ left) :
    ∃ size, min chunk (min (b - a) (left / ALIGN * ALIGN)) = size ∧
      ALIGN ∣ size ∧ 0 < size ∧ size ≤ chunk ∧ size ≤ b - a ∧ size ≤ left := by
  have hmin : (4096 : ℤ) ≤ b - a := hgo.1
  have hleft : (16 : ℤ) ≤ left := hgo.2
  have hdvd : (16 : ℤ) ∣ chunk := hdvd
  have hab : (16 : ℤ) ∣ b - a := hab
  refine ⟨_, rfl, ?_⟩
  change (16 : ℤ) ∣ min chunk (min (b - a) (left / 16 * 16)) ∧ 0 < min chunk (min (b - a) (left / 16 * 16)) ∧
    min chunk (min (b - a) (left / 16 * 16)) ≤ chunk ∧ min chunk (min (b - a) (left / 16 * 16)) ≤ b - a ∧
    min chunk (min (b - a) (left / 16 * 16)) ≤ left
  omega

/-- A run of the loop: its rows are pieces that follow each other from `a`, they come off the budget, and where the
budget lasts the loop ends close to `b`. -/
structure Run (chunk b a left : ℤ) (rows : List Span) (left' : ℤ) : Prop where
  piece : ∀ r ∈ rows, Piece chunk r
  bounds : ∀ r ∈ rows, a ≤ r.1 ∧ r.1 + r.2 ≤ b
  disjoint : rows.Pairwise fun r r' => r.1 + r.2 ≤ r'.1
  consecutive : Lib.Span a (a + total rows) (rows.map addresses)
  spent : left' = left - total rows
  kept : min left 0 ≤ left'
  ended : ALIGN ≤ left' → b - (a + total rows) < MIN_BYTES
  skipped : b - a < MIN_BYTES → rows = []

/-- The loop is left without a piece. -/
lemma Run.nil (hgo : ¬(MIN_BYTES ≤ b - a ∧ ALIGN ≤ left)) : Run chunk b a left [] left where
  piece := List.forall_mem_nil _
  bounds := List.forall_mem_nil _
  disjoint := .nil
  consecutive := by
    rw [total_nil, add_zero]
    exact .nil a
  spent := by rw [total_nil, sub_zero]
  kept := min_le_left _ _
  ended := fun hleft => by
    rw [total_nil, add_zero]
    exact not_le.mp fun hmin => hgo ⟨hmin, hleft⟩
  skipped := fun _ => rfl

/-- A piece in front of a run. -/
lemma Run.cons {size : ℤ} (h : Run chunk b (a + size) (left - size) rows left') (ha : ALIGN ∣ a) (hdvd : ALIGN ∣ size)
    (hpos : 0 < size) (hchunk : size ≤ chunk) (hb : size ≤ b - a) (hleft : size ≤ left)
    (hmin : MIN_BYTES ≤ b - a) : Run chunk b a left ((a, size) :: rows) left' where
  piece := List.forall_mem_cons.mpr ⟨⟨ha, hdvd, hpos, hchunk⟩, h.piece⟩
  bounds := List.forall_mem_cons.mpr
    ⟨⟨le_rfl, by change a + size ≤ b; omega⟩, fun r hr => ⟨by have := (h.bounds r hr).1; omega, (h.bounds r hr).2⟩⟩
  disjoint := List.pairwise_cons.mpr ⟨fun r hr => (h.bounds r hr).1, h.disjoint⟩
  consecutive := by
    rw [total_cons, ← add_assoc]
    exact .cons (lt_add_of_pos_right a hpos) h.consecutive
  spent := by
    rw [total_cons, h.spent]
    exact sub_sub _ _ _
  kept := by
    have hkept := h.kept
    omega
  ended := fun hend => by
    rw [total_cons, ← add_assoc]
    exact h.ended hend
  skipped := fun hskip => absurd hmin hskip.not_ge

/-- Every end of the loop is the end of a run, by induction on the fuel. -/
lemma pieces_run (hchunk : 0 < chunk) (hdvd : ALIGN ∣ chunk) {fuel : ℕ} (ha : ALIGN ∣ a) (hb : ALIGN ∣ b)
    (hrun : pieces chunk b fuel a left = some (rows, left')) : Run chunk b a left rows left' := by
  induction fuel generalizing a left rows with
  | zero =>
    rw [pieces] at hrun
    split_ifs at hrun with hgo
    obtain ⟨rfl, rfl⟩ := Prod.mk.inj (Option.some.inj hrun)
    exact .nil hgo
  | succ fuel ih =>
    rw [pieces] at hrun
    split_ifs at hrun with hgo
    · obtain ⟨size, hsize, hsdvd, hpos, hle, hin, hbudget⟩ := size_spec hchunk hdvd (Int.dvd_sub hb ha) hgo
      rw [hsize] at hrun
      obtain ⟨⟨rest, last⟩, hrest, heq⟩ := Option.map_eq_some_iff.mp hrun
      obtain ⟨rfl, rfl⟩ := Prod.mk.inj heq
      exact (ih (Int.dvd_add ha hsdvd) hrest).cons ha hsdvd hpos hle hin hbudget hgo.1
    · obtain ⟨rfl, rfl⟩ := Prod.mk.inj (Option.some.inj hrun)
      exact .nil hgo

/-- A run over the aligned addresses of a span cuts it. -/
lemma Run.cut {span : Span} (h : Run chunk span.past span.first left rows left') : Cut chunk span rows where
  piece := h.piece
  inside := fun r hr =>
    ⟨(h.piece r hr).2.2.1, span.le_first.trans (h.bounds r hr).1, (h.bounds r hr).2.trans span.past_le⟩
  disjoint := h.disjoint
  consecutive := h.consecutive

lemma Run.covered {span : Span} (h : Run chunk span.past span.first left rows left') (hleft : ALIGN ≤ left') :
    Covered span rows := by
  unfold Covered
  split_ifs with hmin
  · have hend := h.ended hleft
    omega
  · exact h.skipped (not_le.mp hmin)

/-- A span that comes after the end of the budget. -/
lemma Cut.nil (chunk : ℤ) (span : Span) : Cut chunk span [] where
  piece := List.forall_mem_nil _
  inside := List.forall_mem_nil _
  disjoint := .nil
  consecutive := by
    rw [total_nil, add_zero]
    exact .nil _

lemma forall₂_cut_nil (chunk : ℤ) (spans : List Span) : List.Forall₂ (Cut chunk) spans (spans.map fun _ => []) := by
  induction spans with
  | nil => exact .nil
  | cons span spans ih => exact .cons (.nil chunk span) ih

/-- The rows are the cuts of the spans in their order, within the budget. Where 16 bytes of the budget are left, every
span is covered. -/
theorem rowsFor_cut (hchunk : 0 < chunk) (hdvd : ALIGN ∣ chunk) (spans : List Span) (budget : ℤ) :
    ∃ cuts : List (List Span), rowsFor chunk spans budget = some cuts.flatten ∧
      List.Forall₂ (Cut chunk) spans cuts ∧ total cuts.flatten ≤ max budget 0 ∧
      (ALIGN ≤ budget - total cuts.flatten → List.Forall₂ Covered spans cuts) := by
  induction spans generalizing budget with
  | nil => exact ⟨[], rfl, .nil, le_max_right _ _, fun _ => .nil⟩
  | cons span spans ih =>
    obtain ⟨rows, left, hpieces, -⟩ := @pieces_spec chunk span.first span.past budget hchunk budget.toNat le_rfl
    have hrun := pieces_run hchunk hdvd span.first_dvd span.past_dvd hpieces
    have hspent := hrun.spent
    have hkept := hrun.kept
    have hfor : rowsFor chunk (span :: spans) budget =
        if left < ALIGN then some rows else (rowsFor chunk spans left).map (rows ++ ·) := by
      change (pieces chunk span.past budget.toNat span.first budget).bind _ = _
      rw [hpieces]
      rfl
    rw [hfor]
    split_ifs with hleft
    · have hflat : (rows :: spans.map fun _ => ([] : List Span)).flatten = rows := by simp
      refine ⟨rows :: spans.map fun _ => [], by rw [hflat], .cons hrun.cut (forall₂_cut_nil chunk spans), ?_, ?_⟩
      · rw [hflat]
        omega
      · rw [hflat]
        intro hbudget
        omega
    · obtain ⟨cuts, hcuts, hcut, htotal, hcovered⟩ := ih left
      refine ⟨rows :: cuts, by rw [hcuts]; rfl, .cons hrun.cut hcut, ?_, ?_⟩
      · rw [List.flatten_cons, total_append]
        have hleft : ¬left < 16 := hleft
        omega
      · rw [List.flatten_cons, total_append]
        intro hbudget
        have hrest : ALIGN ≤ left - total cuts.flatten := by omega
        exact .cons (hrun.covered (not_lt.mp hleft)) (hcovered hrest)

/-- Two spans of which the second is cut by the budget. -/
theorem rowsFor_cut_two : ∃ cuts : List (List Span), rowsFor CHUNK [(1000, 300000), (7340032, 65536)] 320000 =
      some cuts.flatten ∧ List.Forall₂ (Cut CHUNK) [(1000, 300000), (7340032, 65536)] cuts ∧
      total cuts.flatten ≤ max 320000 0 ∧
      (ALIGN ≤ 320000 - total cuts.flatten → List.Forall₂ Covered [(1000, 300000), (7340032, 65536)] cuts) :=
  rowsFor_cut (by decide) (by decide) [(1000, 300000), (7340032, 65536)] 320000

/-- No rows are more than a negative budget, and what is left of a budget may be too little for a row. -/
theorem rowsFor_at_the_budget :
    (∃ rows, rowsFor CHUNK [(0, 8192)] (-1) = some rows ∧ ¬total rows ≤ -1) ∧
      ∃ rows, rowsFor CHUNK [(0, 8192)] 100 = some rows ∧ total rows < 100 ∧
        MIN_BYTES ≤ Span.past (0, 8192) - Span.first (0, 8192) ∧ ¬Covered (0, 8192) rows :=
  ⟨⟨[], rfl, by decide⟩, [(0, 96)], rfl, by decide, by decide, fun h => by
    rw [Covered, if_pos (by decide)] at h
    exact absurd h (by decide)⟩

end SuffixHybrid.Prefetch
