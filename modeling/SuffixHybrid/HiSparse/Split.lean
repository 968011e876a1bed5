import SuffixHybrid.HiSparse.Residency

/-!
# Split residency

Where the union of a request's rows does not fit the shared memory of a block, the leader resolves the
rows of every request in passes of `passRows` rows. Pass `p` is the launch with the ids of the rows of
other passes replaced by `-1`. Each pass writes outputs of its own; those of its rows are merged into the
outputs of the first pass, and the swap lists of all passes are copied.
-/

namespace SuffixHybrid.HiSparse

/-! ## The passes -/

/-- `residency_smem_bytes`. -/
def smemBytes (unionRows hot : ℕ) : ℕ := 4 * (2 * (unionRows + 1) + 3 * ((hot + 31) / 32) + 7) + 2 * hot

/-- `residency_pass_rows`: the most rows, up to `rows`, whose union fits. -/
def residencyPassRows (rows topK hot available : ℕ) : ℕ :=
  ((List.range' 1 rows).reverse.find? fun r => smemBytes (r * topK) hot ≤ available).getD 0

/-- `-(-rows // pass_rows)`. -/
def passCount (rows passRows : ℕ) : ℕ := (rows + passRows - 1) / passRows

/-- A row whose id differs from that of the row before it. -/
def start (ids : List ℤ) (i : ℕ) : Bool := i == 0 || ids[i]? != ids[i - 1]?

/-- `cummax` of the starts: the first row of the run of a row. -/
def first (ids : List ℤ) : ℕ → ℕ
  | 0 => 0
  | i + 1 => max (first ids i) (if start ids (i + 1) then i + 1 else 0)

/-- `residency_passes`. -/
def residencyPass (ids : List ℤ) (passRows passes i : ℕ) : ℕ :=
  min ((i - first ids i) / passRows) (passes - 1)

/-- The launch of pass `p`. -/
def Launch.pass (L : Launch) (passRows passes p : ℕ) : Launch :=
  { L with requestIds := L.requestIds.mapIdx fun i id =>
      if residencyPass L.requestIds passRows passes i = p then id else -1 }

/-- The merged outputs, and the outputs of every pass, of which the swap lists are copied. -/
structure Merged where
  attn : ℕ → ℕ → ℤ
  valid : ℕ → ℤ
  states : List Out

/-- The first pass writes to the outputs of the caller, the rows of a later one are merged into them. -/
def Merged.merge (passOf : ℕ → ℕ) (m : Merged) (p : ℕ) (o : Out) : Merged :=
  if p = 0 then ⟨o.attn, o.valid, [o]⟩
  else
    { attn := fun row => if passOf row = p then o.attn row else m.attn row
      valid := fun row => if passOf row = p then o.valid row else m.valid row
      states := m.states ++ [o] }

/-- `_resolve_residency` with the valid counts, in `passes` passes. -/
def Launch.resolvePasses (L : Launch) (passRows passes : ℕ) (s : Store) : Option (Merged × Store) :=
  (List.range passes).foldlM (fun (acc : Merged × Store) p => do
    let (o, s) ← (L.pass passRows passes p).resolve acc.2
    some (acc.1.merge (residencyPass L.requestIds passRows passes) p o, s))
    (⟨Out.empty.attn, Out.empty.valid, []⟩, s)

/-- The resolution of a runtime that starts with `rows` rows a request: in one pass where the whole union
fits, else in passes. -/
def Launch.resolveResidency (L : Launch) (rows passRows : ℕ) (s : Store) : Option (Merged × Store) :=
  if rows ≤ passRows then (L.resolve s).map fun r => (⟨r.1.attn, r.1.valid, [r.1]⟩, r.2)
  else L.resolvePasses passRows (passCount rows passRows) s

/-- The rows of a request. -/
def Launch.rowsOf (L : Launch) (id : ℤ) : List ℕ :=
  (List.range L.requestIds.length).filter fun row => L.requestIds[row]? == some id

/-- The swap list of some rows, as it is copied: host rows with the device rows they go to. -/
def Out.swaps (o : Out) (topK : ℕ) (rows : List ℕ) : List (ℤ × ℤ) :=
  rows.flatMap fun row => (List.range (o.swapCnt row).toNat).map fun i =>
    (o.swapHost (row * topK + i), o.swapDev (row * topK + i))

/-- What `_swap_rows` copies for some rows. -/
def Merged.swaps (m : Merged) (topK : ℕ) (rows : List ℕ) : List (ℤ × ℤ) :=
  m.states.flatMap fun o => o.swaps topK rows

/-! ## The first row of a run -/

section
variable {ids : List ℤ} {i j k : ℕ}

lemma first_le (ids : List ℤ) (i : ℕ) : first ids i ≤ i := by
  induction i with
  | zero => exact Nat.le_refl 0
  | succ i ih =>
    rw [first]
    split <;> omega

/-- Behind its first row a run does not start again. -/
lemma not_start_of_first_lt (hlo : first ids i < j) (hhi : j ≤ i) : start ids j = false := by
  induction i with
  | zero => omega
  | succ i ih =>
    rw [first] at hlo
    cases hstart : start ids (i + 1) with
    | true =>
      rw [hstart, if_pos rfl] at hlo
      omega
    | false =>
      rw [hstart, if_neg Bool.false_ne_true] at hlo
      obtain hle | rfl := Nat.le_succ_iff.mp hhi
      · exact ih (by omega) hle
      · exact hstart

lemma eq_of_not_start (h : start ids (i + 1) = false) : ids[i + 1]? = ids[i]? := by
  simpa [start] using h

/-- The rows from the first one on have the same id. -/
lemma getElem?_first (hlo : first ids i ≤ j) (hhi : j ≤ i) : ids[j]? = ids[first ids i]? := by
  induction j with
  | zero => rw [Nat.le_zero.mp hlo]
  | succ j ih =>
    obtain hlt | heq := Nat.lt_or_eq_of_le hlo
    · rw [eq_of_not_start (not_start_of_first_lt hlt hhi), ih (by omega) (by omega)]
    · rw [heq]

/-- Rows with one id all between have one first row. -/
lemma first_eq_of_same (hij : i ≤ j) (h : ∀ k, i ≤ k → k ≤ j → ids[k]? = ids[i]?) :
    first ids j = first ids i := by
  induction j with
  | zero => rw [Nat.le_zero.mp hij]
  | succ j ih =>
    obtain hle | rfl := Nat.le_succ_iff.mp hij
    · have hstart : start ids (j + 1) = false := by
        simp [start, h (j + 1) (by omega) (Nat.le_refl _), h j hle (Nat.le_succ j)]
      rw [first, hstart, if_neg Bool.false_ne_true, Nat.max_zero]
      exact ih hle fun k hlo hhi => h k hlo (by omega)
    · rfl

end

end SuffixHybrid.HiSparse
