import SuffixHybrid.Cache.Speculate
import SuffixHybrid.Lib.Prefix
import SuffixHybrid.Mixer.Basic

/-!
# Row classifiers

Every entry point hands the row loop a classifier that compares the tracked context of a request
with the authoritative row by some test `same` (`Decide.Compares`): exactly, or at the boundary
windows only. With such a classifier a row is `classified` and its context afterwards is
`contextAfter`, which is as long as the row and, under the exact test, is the row.
-/

namespace SuffixHybrid
open Lib

/-- The total form of `classify`. -/
def classified (same : List Token → List Token → Bool) (row : List Token) :
    Option (List Token) → Continuity × List Token
  | none => (.fresh, row)
  | some t => if same t row then (.continuing, row.drop t.length) else (.reset, row)

/-- The test accepts no context that is longer than the row. -/
def Bounded (same : List Token → List Token → Bool) : Prop :=
  ∀ {t row}, same t row = true → t.length ≤ row.length

lemma classify_eq {same : List Token → List Token → Bool} (hs : Bounded same) (row : List Token)
    (tracked : Option (List Token)) :
    classify same row tracked = some (classified same row tracked) := by
  cases tracked with
  | none => rfl
  | some t =>
    by_cases h : same t row = true
    · simp [classify, classified, h, hs h]
    · simp [classify, classified, h]

/-- A classifier compares the tracked contexts with the rows of a batch. -/
structure Decide.Compares (d : Decide) (same : List Token → List Token → Bool)
    (rows : List (List Token)) : Prop where
  bounded : Bounded same
  eq : ∀ {i row}, rows[i]? = some row → ∀ tracked, d i tracked = some (classified same row tracked)

lemma bounded_startsWith : Bounded startsWith := fun h =>
  (List.isPrefixOf_iff_prefix.mp h).length_le

lemma bounded_boundaryMatches : Bounded boundaryMatches := by
  intro t row h
  unfold boundaryMatches at h
  by_contra hlt
  simp [Nat.not_le.mp hlt] at h

/-- The list API compares exactly. -/
lemma compares_contexts (contexts : List (List Token)) :
    (decideContexts contexts).Compares startsWith contexts where
  bounded := bounded_startsWith
  eq := fun hrow tracked => by
    simp [decideContexts, hrow, classify_eq bounded_startsWith]

/-- The rows that counts cut out of a matrix. -/
def cutRows (rows : List (List Token)) (counts : List ℤ) : List (List Token) :=
  List.zipWith (fun row count => row.take count.toNat) rows counts

lemma cutRows_eq_some {rows : List (List Token)} {counts : List ℤ} {i : ℕ} {row : List Token}
    (h : (cutRows rows counts)[i]? = some row) :
    ∃ r c, rows[i]? = some r ∧ counts[i]? = some c ∧ row = r.take c.toNat := by
  simp only [cutRows, List.getElem?_zipWith] at h
  split at h
  · rename_i r c hr hc
    exact ⟨r, c, hr, hc, (Option.some.inj h).symm⟩
  · exact absurd h (by simp)

/-- A copied matrix is compared exactly. -/
lemma compares_rows (rows : List (List Token)) (counts : List ℤ) :
    (decideRows rows counts).Compares startsWith (cutRows rows counts) where
  bounded := bounded_startsWith
  eq := fun hrow tracked => by
    obtain ⟨r, c, hr, hc, rfl⟩ := cutRows_eq_some hrow
    simp [decideRows, hr, hc, classify_eq bounded_startsWith]

/-- A contiguous `int64` matrix is compared at its boundary windows. -/
lemma compares_flat {grid : Grid} {counts : List ℤ} (hc : ∀ c ∈ counts, c.toNat ≤ grid.ncols) :
    (decideFlat grid.rows.flatten grid.ncols counts).Compares boundaryMatches
      (cutRows grid.rows counts) where
  bounded := bounded_boundaryMatches
  eq := fun hrow tracked => by
    obtain ⟨r, c, hr, hci, rfl⟩ := cutRows_eq_some hrow
    have hslice := slice_flatten grid.rect hr (hc c (List.mem_of_getElem? hci))
    simp [decideFlat, hci, hslice, classify_eq bounded_boundaryMatches]

/-- The context of a request after its row. -/
def contextAfter (same : List Token → List Token → Bool) (row : List Token) :
    Option Previous → List Token
  | none => row
  | some p => if same p.context row then p.context ++ row.drop p.context.length else row

lemma contextAfter_length {same : List Token → List Token → Bool} (hs : Bounded same)
    (row : List Token) (slot : Option Previous) : (contextAfter same row slot).length = row.length := by
  cases slot with
  | none => rfl
  | some p =>
    by_cases h : same p.context row = true
    · have hle := hs h
      simp only [contextAfter, h, if_true, List.length_append, List.length_drop]
      omega
    · simp [contextAfter, h]

/-- The exact test leaves the authoritative row. -/
lemma contextAfter_startsWith (row : List Token) (slot : Option Previous) :
    contextAfter startsWith row slot = row := by
  cases slot with
  | none => rfl
  | some p =>
    by_cases h : startsWith p.context row = true
    · obtain ⟨rest, rfl⟩ := List.isPrefixOf_iff_prefix.mp h
      simp [contextAfter, startsWith]
    · simp [contextAfter, h]

/-- The row extends the context its request is tracked with. -/
def continues (same : List Token → List Token → Bool) (row : List Token)
    (slot : Option Previous) : Bool :=
  slot.any fun p => same p.context row

end SuffixHybrid

/-!
## Rows of the legacy split

A legacy row keeps its native draft but at most one token (`keptPrefix`), looks up the context and
the kept tokens but the last, and splices the tail it finds to the native draft. `splice_eq` is the
closed form of the splice, with the exact length of the native prefix as its count. Under the cache
invariant no access is out of bounds: `legacyRow_spec` says that the row ends, which draft it
publishes and what it leaves behind.
-/

namespace SuffixHybrid
open Lib

namespace HybridMixer

/-! ## The kept prefix -/

lemma keptPrefix_le (continuing : Bool) (budget cap : ℕ) : keptPrefix continuing budget cap ≤ cap := by
  unfold keptPrefix
  split
  · simp only
    split
    · exact le_rfl
    · omega
  · exact le_rfl

/-- A row keeps its whole native draft, or all of it but one token. -/
lemma keptPrefix_ge (continuing : Bool) (budget cap : ℕ) :
    cap - 1 ≤ keptPrefix continuing budget cap := by
  unfold keptPrefix
  split
  · simp only
    split
    · exact Nat.sub_le _ _
    · omega
  · exact Nat.sub_le _ _

lemma keptPrefix_pos {continuing : Bool} {budget cap : ℕ} (h : 0 < cap) :
    0 < keptPrefix continuing budget cap := by
  unfold keptPrefix
  split
  · simp only
    split
    · exact h
    · omega
  · exact h

lemma rowCap_le_k (s : HybridMixer) (contextLen : ℕ) (native : List Token) :
    s.rowCap contextLen native ≤ s.k := by
  unfold rowCap
  omega

lemma rowCap_le_length (s : HybridMixer) (contextLen : ℕ) (native : List Token) :
    s.rowCap contextLen native ≤ native.length := by
  unfold rowCap
  omega

/-! ## Splicing a tail -/

/-- The leading native tokens of a draft, counted on from a common prefix. -/
lemma leadingNative_eq {draft native : List Token} {count left : ℕ}
    (hdraft : draft.length = count + left) :
    leadingNative draft native left count
      = some (count + lcp (draft.drop count) (native.drop count)) := by
  induction left generalizing count with
  | zero =>
    rw [List.drop_eq_nil_of_le (by omega : draft.length ≤ count), lcp_nil_left]
    rfl
  | succ left ih =>
    unfold leadingNative
    have hd : count < draft.length := by omega
    split
    case isTrue hn =>
      rw [List.getElem?_eq_getElem hd, List.getElem?_eq_getElem hn,
        List.drop_eq_getElem_cons hd, List.drop_eq_getElem_cons hn]
      simp only [Option.bind_eq_bind, Option.bind_some, lcp]
      split
      · rw [ih (by omega)]
        congr 1
        omega
      · rfl
    case isFalse hn =>
      rw [List.drop_eq_nil_of_le (by omega : native.length ≤ count)]
      simp

/-- The draft of a row with a suffix tail: the tail replaces the native draft from the last kept
token on, or it extends the kept prefix. -/
def spliced (native tail : List Token) (cap kept : ℕ) (gate : Option ℚ) : List Token :=
  if gateOpen gate then (native.take (kept - 1) ++ tail).take cap
  else native.take kept ++ tail.take (cap - kept)

/-- A tail reaches the end of the kept prefix. -/
lemma spliced_length {native tail : List Token} {cap kept : ℕ} (gate : Option ℚ) (htail : tail ≠ [])
    (hle : kept ≤ cap) (hpos : 0 < kept) (hcap : cap ≤ native.length) :
    (spliced native tail cap kept gate).length ≤ cap ∧
      kept ≤ (spliced native tail cap kept gate).length := by
  have htl : 0 < tail.length := List.length_pos_iff.mpr htail
  unfold spliced
  split <;> simp only [List.length_take, List.length_append] <;> omega

/-- The draft repeats the native draft on the kept tokens but the last. -/
lemma spliced_take {native : List Token} (tail : List Token) {cap kept : ℕ} (gate : Option ℚ)
    (hle : kept ≤ cap) (hcap : cap ≤ native.length) :
    (spliced native tail cap kept gate).take (kept - 1) = native.take (kept - 1) := by
  unfold spliced
  split
  · rw [List.take_take, Nat.min_eq_left (by omega), List.take_append_of_le_length (by simp; omega),
      List.take_take, Nat.min_self]
  · rw [List.take_append_of_le_length (by simp; omega), List.take_take, Nat.min_eq_left (by omega)]

/-- The branches of `splice`, cut to the cap. -/
lemma splice_draft {native tail : List Token} {cap kept : ℕ} (gate : Option ℚ) (htail : tail ≠ [])
    (hle : kept ≤ cap) (hpos : 0 < kept) (hcap : cap ≤ native.length) :
    (if kept > kept - 1 ∧ tail.length ≥ kept - (kept - 1) ∧ gateOpen gate = true then
        (native.take kept).take (kept - 1) ++ tail
      else native.take kept ++ tail.take (cap - (native.take kept).length)).take cap
      = spliced native tail cap kept gate := by
  have htl : 0 < tail.length := List.length_pos_iff.mpr htail
  have hk : (native.take kept).length = kept := by simp; omega
  unfold spliced
  rw [hk]
  split
  case isTrue h => rw [if_pos h.2.2, List.take_take, Nat.min_eq_left (by omega)]
  case isFalse h =>
    rw [if_neg fun hg => h ⟨by omega, by omega, hg⟩, List.take_of_length_le]
    simp only [List.length_append, List.length_take]
    omega

/-- The closed form of `splice`: the count is exact. -/
lemma splice_eq {native tail : List Token} {cap kept : ℕ} (gate : Option ℚ) (htail : tail ≠ [])
    (hle : kept ≤ cap) (hpos : 0 < kept) (hcap : cap ≤ native.length) :
    splice native tail cap kept gate =
      some (spliced native tail cap kept gate, lcp (spliced native tail cap kept gate) native,
        decide (lcp (spliced native tail cap kept gate) native
          < (spliced native tail cap kept gate).length)) := by
  obtain ⟨hlen, hkept⟩ := spliced_length gate htail hle hpos hcap
  have htake := spliced_take tail gate hle hcap
  have hdraft := splice_draft gate htail hle hpos hcap
  simp only [splice, sliceTo_of_le (show kept ≤ native.length by omega), Option.bind_eq_bind,
    Option.bind_some]
  generalize (if kept > kept - 1 ∧ tail.length ≥ kept - (kept - 1) ∧ gateOpen gate = true then
      (native.take kept).take (kept - 1) ++ tail
    else native.take kept ++ tail.take (cap - (native.take kept).length)) = combined at hdraft ⊢
  generalize spliced native tail cap kept gate = draft at hlen hkept htake hdraft ⊢
  have hkeep : min combined.length cap = draft.length := by
    rw [← hdraft, List.length_take, Nat.min_comm]
  have hcut : combined.take draft.length = draft := by
    rw [← hkeep, Nat.min_comm, ← List.take_eq_take_min, hdraft]
  have hcount : min (kept - 1) draft.length = kept - 1 := by omega
  -- the draft and the native draft share their first `kept - 1` tokens
  have hlcp : kept - 1 + lcp (draft.drop (kept - 1)) (native.drop (kept - 1)) = lcp draft native := by
    conv_rhs => rw [← List.take_append_drop (kept - 1) draft, ← List.take_append_drop (kept - 1) native,
      htake, lcp_append_append, List.length_take_of_le (by omega)]
  rw [hkeep, hcut, hcount, leadingNative_eq (by omega), hlcp]
  rfl

/-! ## The row -/

/-- The budget of a row, from the cache of its lookup. -/
def rowBudget [F64] (s : HybridMixer) (cache : Cache) (estimate : Option ℚ) (cap : ℕ) : ℕ :=
  if cache.tokens > 0 then min (s.pick estimate) cap else cap

/-- The estimate of a row that continues its slot. -/
def rowEstimate (same : List Token → List Token → Bool) (row : List Token)
    (slot : Option Previous) : Option ℚ :=
  if continues same row slot then slot.map (·.acceptEstimate) else none

/-- The native tokens that a legacy row keeps. -/
def rowKept [F64] (s : HybridMixer) (same : List Token → List Token → Bool) (row : List Token)
    (slot : Option Previous) (cache : Cache) (cap : ℕ) : ℕ :=
  keptPrefix (continues same row slot) (s.rowBudget cache (rowEstimate same row slot) cap) cap

/-- The draft of a legacy row with the tail of its lookup. -/
def legacyDraft (continuing : Bool) (native tail : List Token) (cap kept : ℕ) (gate : Option ℚ) :
    List Token :=
  if continuing = false ∨ tail = [] then native.take cap else spliced native tail cap kept gate

/-- The request record of a proposal. -/
structure Proposed (p : Previous) (ctx base draft : List Token) : Prop where
  context : p.context = ctx
  native : p.native = lcp draft base
  length : p.length = draft.length
  hadSuffix : p.hadSuffix = decide (lcp draft base < draft.length)

/-- What a legacy row does with the cache and the tail of its lookup. -/
structure LegacyRow [F64] (s : HybridMixer) (same : List Token → List Token → Bool)
    (row : List Token) (id : ReqId) (native : List Token) (cache : Cache) (tail draft : List Token)
    (s' : HybridMixer) : Prop where
  reset : ∃ slot, s.takeReset (classified same row ((s.previous.lookup id).map (·.context))).1
    (s.previous.lookup id) = some (cache, slot)
  lookup : ∃ score m,
    cache.speculate (contextAfter same row (s.previous.lookup id) ++ (native.take
        (s.rowKept same row (s.previous.lookup id) cache (s.rowCap row.length native) - 1)))
      (s.rowCap row.length native) = some (tail, score, m)
  draft_eq : draft = legacyDraft (continues same row (s.previous.lookup id)) native tail
    (s.rowCap row.length native)
    (s.rowKept same row (s.previous.lookup id) cache (s.rowCap row.length native))
    ((s.previous.lookup id).bind (·.suffixEstimate))
  after : ∃ p, Proposed p (contextAfter same row (s.previous.lookup id)) native draft ∧
    p.suffixEstimate = (if continues same row (s.previous.lookup id) then
      (s.previous.lookup id).bind (·.suffixEstimate) else none) ∧
    s' = { s with
      cache
      previous := s.previous.put id p
      nativeProposed := s.nativeProposed + lcp draft native
      suffixProposed := s.suffixProposed + (draft.length - lcp draft native)
      lastNative := s.lastNative ++ [lcp draft native]
      decisions := s.decisions + 1 }

/-- A row that resets no slot looks up in the cache as it is. -/
lemma LegacyRow.cache_eq [F64] {s s' : HybridMixer} {same : List Token → List Token → Bool}
    {row native tail draft : List Token} {id : ReqId} {cache : Cache}
    (h : LegacyRow s same row id native cache tail draft s')
    (hsame : ∀ p, s.previous.lookup id = some p → same p.context row = true) : cache = s.cache := by
  obtain ⟨slot, hreset⟩ := h.reset
  cases hslot : s.previous.lookup id with
  | none =>
    simp only [hslot, Option.map_none, classified, takeReset, Option.some.injEq,
      Prod.mk.injEq] at hreset
    exact hreset.1.symm
  | some p =>
    simp only [hslot, Option.map_some, classified, hsame p hslot, if_true, takeReset,
      Option.some.injEq, Prod.mk.injEq] at hreset
    exact hreset.1.symm

/-- A lookup key may miss a part of its context that is out of reach of the lookup. -/
lemma speculate_window [F64] (c : Cache) {old key : List Token}
    (h : old = [] ∨ c.cfg.depth ≤ key.length) (maxTokens : ℕ) :
    c.speculate key maxTokens = c.speculate (old ++ key) maxTokens := by
  rcases h with rfl | h
  · rfl
  · exact (Cache.speculate_append c old key maxTokens h).symm

/-- The key of a continuing row stands for its whole context. -/
lemma lookupKey_continuing [F64] (c : Cache) (p : Previous) (delta native : List Token)
    (kept : ℕ) (h : kept - 1 ≤ native.length) (maxTokens : ℕ) :
    ∃ key, lookupKey c.cfg.depth .continuing (some p) delta native kept = some key ∧
      c.speculate key maxTokens
        = c.speculate (p.context ++ delta ++ (native.take (kept - 1))) maxTokens := by
  simp only [lookupKey, sliceFrom_sub, sliceTo_of_le h, Option.bind_eq_bind, Option.bind_some]
  refine ⟨_, rfl, ?_⟩
  by_cases hd : c.cfg.depth ≤ delta.length
  · have hzero : min (c.cfg.depth - delta.length) p.context.length = 0 := by omega
    rw [hzero, Nat.sub_zero, List.drop_length, List.nil_append]
    have hsplit : p.context ++ delta ++ (native.take (kept - 1))
        = (p.context ++ delta.take (delta.length - c.cfg.depth)) ++
          (delta.drop (delta.length - c.cfg.depth) ++ (native.take (kept - 1))) := by
      rw [List.append_assoc, List.append_assoc, ← List.append_assoc (delta.take _),
        List.take_append_drop]
    rw [hsplit]
    apply speculate_window
    right
    simp only [List.length_append, List.length_drop]
    omega
  · rw [show delta.length - c.cfg.depth = 0 by omega, List.drop_zero]
    generalize hk : p.context.length - min (c.cfg.depth - delta.length) p.context.length = k
    have hsplit : p.context ++ delta ++ (native.take (kept - 1))
        = p.context.take k ++ (p.context.drop k ++ delta ++ (native.take (kept - 1))) := by
      rw [← List.append_assoc, ← List.append_assoc, List.take_append_drop]
    rw [hsplit]
    apply speculate_window
    by_cases hc : p.context.length ≤ c.cfg.depth - delta.length
    · left
      rw [show k = 0 by omega, List.take_zero]
    · right
      simp only [List.length_append, List.length_drop]
      omega

/-- The key of a new row stands for its whole context. -/
lemma lookupKey_new [F64] (c : Cache) {continuity : Continuity} (hc : continuity ≠ .continuing)
    (slot : Option Previous) (delta native : List Token) (kept : ℕ)
    (h : kept - 1 ≤ native.length) (maxTokens : ℕ) :
    ∃ key, lookupKey c.cfg.depth continuity slot delta native kept = some key ∧
      c.speculate key maxTokens = c.speculate (delta ++ (native.take (kept - 1))) maxTokens := by
  have htail : lookupKey c.cfg.depth continuity slot delta native kept
      = some ([] ++ delta.drop (delta.length - c.cfg.depth) ++ (native.take (kept - 1))) := by
    cases continuity with
    | continuing => exact absurd rfl hc
    | fresh | reset =>
      simp only [lookupKey, sliceFrom_sub, sliceTo_of_le h, Option.bind_eq_bind, Option.bind_some]
  refine ⟨_, htail, ?_⟩
  rw [List.nil_append]
  have hsplit : delta ++ (native.take (kept - 1))
      = delta.take (delta.length - c.cfg.depth) ++
        (delta.drop (delta.length - c.cfg.depth) ++ (native.take (kept - 1))) := by
    rw [← List.append_assoc, List.take_append_drop]
  rw [hsplit]
  apply speculate_window
  by_cases hd : delta.length ≤ c.cfg.depth
  · left
    rw [show delta.length - c.cfg.depth = 0 by omega, List.take_zero]
  · right
    simp only [List.length_append, List.length_drop]
    omega

/-- The proposal of a legacy row with its exact native count. -/
lemma legacyDraft_eq {native tail : List Token} {cap : ℕ} (continuing : Bool) (budget : ℕ)
    (gate : Option ℚ) (hcap : cap ≤ native.length) (htail : tail.length ≤ cap) :
    (if tail.isEmpty || !continuing then (sliceTo native cap).map fun d => (d, cap, false)
      else splice native tail cap (keptPrefix continuing budget cap) gate) =
    some (legacyDraft continuing native tail cap (keptPrefix continuing budget cap) gate,
      lcp (legacyDraft continuing native tail cap (keptPrefix continuing budget cap) gate) native,
      decide (lcp (legacyDraft continuing native tail cap (keptPrefix continuing budget cap) gate)
          native
        < (legacyDraft continuing native tail cap (keptPrefix continuing budget cap) gate).length)) := by
  by_cases hnew : continuing = false ∨ tail = []
  · have hcond : (tail.isEmpty || !continuing) = true := by
      rcases hnew with rfl | rfl <;> simp
    simp [legacyDraft, hnew, hcond, lcp_take hcap, hcap]
  · obtain ⟨hcont, hne⟩ := not_or.mp hnew
    have hcond : ¬ (tail.isEmpty || !continuing) = true := by
      simp [hne, hcont]
    have hpos : 0 < cap := (List.length_pos_iff.mpr hne).trans_le htail
    rw [if_neg hcond, legacyDraft, if_neg hnew]
    exact splice_eq gate hne (keptPrefix_le _ _ _) (keptPrefix_pos hpos) hcap

/-- A row that continues its slot appends to the context and keeps both estimates. -/
lemma closeRow_continuing [F64] (s : HybridMixer) (cache : Cache) (p : Previous)
    (delta : List Token) (estimate : ℚ) (budget : ℕ) (out : List Token × ℕ × Bool) :
    s.closeRow cache .continuing (some p) delta (some estimate) budget out = some (cache, { p with
      context := p.context ++ delta
      native := out.2.1
      length := out.1.length
      arm := budget
      hadSuffix := out.2.2 }) := by
  simp [closeRow]

/-- A row that resets its emptied slot starts over. -/
lemma closeRow_reset [F64] (s : HybridMixer) (cache : Cache) (p : Previous) (delta : List Token)
    (budget : ℕ) (out : List Token × ℕ × Bool) :
    s.closeRow cache .reset (some { p with context := [] }) delta none budget out
      = some (cache, { p with
        context := delta
        native := out.2.1
        length := out.1.length
        arm := budget
        acceptEstimate := F64.ofNat s.initial
        suffixEstimate := none
        hadSuffix := out.2.2 }) := by
  simp [closeRow]

/-- A legacy row, put together from its steps. -/
lemma legacyRow_of_steps [F64] {s : HybridMixer} {decide : Decide} {i : ℕ} {id : ReqId}
    {native : List Token} {continuity : Continuity} {delta : List Token} {cache : Cache}
    {slot : Option Previous} (len : ℕ) (estimate : Option ℚ) (continuing : Bool) {key : List Token}
    {tail : List Token} {score : ℚ} {m : ℕ} {p : ℕ → List Token × ℕ × Bool → Previous}
    (hdecide : decide i ((s.previous.lookup id).map (·.context)) = some (continuity, delta))
    (hreset : s.takeReset continuity (s.previous.lookup id) = some (cache, slot))
    (hlen : contextLen continuity slot delta = len)
    (hestimate : (if continuity = .continuing then slot.map (·.acceptEstimate) else none) = estimate)
    (hcontinuing : (slot.isSome && continuity != .reset) = continuing)
    (hfresh : (slot.isNone || continuity == .reset) = !continuing)
    (hkey : lookupKey cache.cfg.depth continuity slot delta native
      (keptPrefix continuing (s.rowBudget cache estimate (s.rowCap len native))
        (s.rowCap len native)) = some key)
    (hlookup : cache.speculate key (s.rowCap len native) = some (tail, score, m))
    (htail : tail.length ≤ s.rowCap len native)
    (hclose : ∀ budget out,
      s.closeRow cache continuity slot delta estimate budget out = some (cache, p budget out))
    {draft : List Token} (hdraft : draft = legacyDraft continuing native tail (s.rowCap len native)
      (keptPrefix continuing (s.rowBudget cache estimate (s.rowCap len native))
        (s.rowCap len native)) (slot.bind (·.suffixEstimate))) :
    s.legacyRow decide i id native = some (draft, { s with
      cache
      previous := s.previous.put id (p (s.rowBudget cache estimate (s.rowCap len native))
        (draft, lcp draft native, Decidable.decide (lcp draft native < draft.length)))
      nativeProposed := s.nativeProposed + lcp draft native
      suffixProposed := s.suffixProposed + (draft.length - lcp draft native)
      lastNative := s.lastNative ++ [lcp draft native]
      decisions := s.decisions + 1 }) := by
  have hout := legacyDraft_eq continuing (s.rowBudget cache estimate (s.rowCap len native))
    (slot.bind (·.suffixEstimate)) (rowCap_le_length s len native) htail
  rw [← hdraft] at hout
  simp only [rowBudget] at hkey hout ⊢
  simp only [legacyRow, hdecide, hreset, hlen, hestimate, hcontinuing, hfresh, Option.bind_eq_bind,
    Option.bind_some, hkey, hlookup]
  by_cases hnative : (tail.isEmpty || !continuing) = true
  · rw [if_pos hnative] at hout
    simp only [if_pos hnative, hout, Option.bind_some, hclose]
  · rw [if_neg hnative] at hout
    simp only [if_neg hnative, hout, Option.bind_some, hclose]

/-- A legacy row ends and publishes the draft of its lookup. -/
theorem legacyRow_spec [F64] {s : HybridMixer} (hinv : s.cache.Inv) {decide : Decide}
    {same : List Token → List Token → Bool} {rows : List (List Token)}
    (hd : decide.Compares same rows) {i : ℕ} {row : List Token} (hrow : rows[i]? = some row)
    (id : ReqId) (native : List Token) :
    ∃ cache tail draft s', s.legacyRow decide i id native = some (draft, s') ∧ cache.Inv ∧
      cache.cfg = s.cache.cfg ∧ LegacyRow s same row id native cache tail draft s' := by
  have hdecide := hd.eq hrow ((s.previous.lookup id).map (·.context))
  have hcap := rowCap_le_length s row.length native
  cases hslot : s.previous.lookup id with
  | none =>
    have hclass : classified same row ((s.previous.lookup id).map (·.context)) = (.fresh, row) := by
      rw [hslot]
      rfl
    have hreset : s.takeReset .fresh (s.previous.lookup id) = some (s.cache, none) := by
      rw [hslot]
      rfl
    obtain ⟨key, hkey, hwin⟩ := lookupKey_new s.cache (show Continuity.fresh ≠ .continuing by simp)
      none row native
      (keptPrefix false (s.rowBudget s.cache none (s.rowCap row.length native))
        (s.rowCap row.length native))
      ((Nat.sub_le _ _).trans ((keptPrefix_le _ _ _).trans hcap)) (s.rowCap row.length native)
    obtain ⟨tail, score, m, hlookup, htail⟩ := hinv.speculate key (s.rowCap row.length native)
    have hall := legacyRow_of_steps row.length none false (hdecide.trans (congrArg some hclass))
      hreset rfl rfl rfl rfl hkey hlookup htail (fun _ _ => rfl) rfl
    refine ⟨s.cache, tail, _, _, hall, hinv, rfl, ?_⟩
    exact {
      reset := ⟨none, by rw [hclass]; exact hreset⟩
      lookup := ⟨score, m, by rw [hslot]; exact hwin.symm.trans hlookup⟩
      draft_eq := by rw [hslot]; rfl
      after := by
        rw [hslot]
        refine ⟨_, ?_, ?_, rfl⟩
        · exact ⟨rfl, rfl, rfl, rfl⟩
        · rfl }
  | some p =>
    by_cases hsame : same p.context row = true
    · have hclass : classified same row ((s.previous.lookup id).map (·.context))
          = (.continuing, row.drop p.context.length) := by
        simp [hslot, classified, hsame]
      have hreset : s.takeReset .continuing (s.previous.lookup id) = some (s.cache, some p) := by
        rw [hslot]
        rfl
      have hlen : contextLen .continuing (some p) (row.drop p.context.length) = row.length := by
        have hle := hd.bounded hsame
        simp only [contextLen, List.length_drop]
        omega
      have hcontinues : continues same row (some p) = true := by simp [continues, hsame]
      have hafter : contextAfter same row (some p)
          = p.context ++ row.drop p.context.length := by simp [contextAfter, hsame]
      obtain ⟨key, hkey, hwin⟩ := lookupKey_continuing s.cache p (row.drop p.context.length)
        native (keptPrefix true
          (s.rowBudget s.cache (some p.acceptEstimate) (s.rowCap row.length native))
          (s.rowCap row.length native))
        ((Nat.sub_le _ _).trans ((keptPrefix_le _ _ _).trans hcap)) (s.rowCap row.length native)
      obtain ⟨tail, score, m, hlookup, htail⟩ := hinv.speculate key (s.rowCap row.length native)
      have hall := legacyRow_of_steps row.length (some p.acceptEstimate) true
        (hdecide.trans (congrArg some hclass)) hreset hlen rfl rfl rfl hkey hlookup htail
        (s.closeRow_continuing s.cache p _ _) rfl
      have hkept : s.rowKept same row (some p) s.cache (s.rowCap row.length native)
          = keptPrefix true (s.rowBudget s.cache (some p.acceptEstimate) (s.rowCap row.length native))
            (s.rowCap row.length native) := by
        simp [rowKept, rowEstimate, hcontinues]
      refine ⟨s.cache, tail, _, _, hall, hinv, rfl, ?_⟩
      exact {
        reset := ⟨some p, by rw [hclass]; exact hreset⟩
        lookup := ⟨score, m, by rw [hslot, hafter, hkept]; exact hwin.symm.trans hlookup⟩
        draft_eq := by rw [hslot, hcontinues, hkept]
        after := by
          rw [hslot, hafter, hcontinues]
          refine ⟨_, ?_, ?_, rfl⟩
          · exact ⟨rfl, rfl, rfl, rfl⟩
          · rfl }
    · obtain ⟨cache, hadd, hcinv, hcfg⟩ := hinv.add p.context
      have hclass : classified same row ((s.previous.lookup id).map (·.context)) = (.reset, row) := by
        simp [hslot, classified, hsame]
      have hreset : s.takeReset .reset (s.previous.lookup id)
          = some (cache, some { p with context := [] }) := by
        simp [hslot, takeReset, hadd]
      have hcontinues : continues same row (some p) = false := by simp [continues, hsame]
      have hafter : contextAfter same row (some p) = row := by simp [contextAfter, hsame]
      obtain ⟨key, hkey, hwin⟩ := lookupKey_new cache (show Continuity.reset ≠ .continuing by simp)
        (some { p with context := [] }) row native (keptPrefix false
          (s.rowBudget cache none (s.rowCap row.length native)) (s.rowCap row.length native))
        ((Nat.sub_le _ _).trans ((keptPrefix_le _ _ _).trans hcap)) (s.rowCap row.length native)
      obtain ⟨tail, score, m, hlookup, htail⟩ := hcinv.speculate key (s.rowCap row.length native)
      have hall := legacyRow_of_steps row.length none false (hdecide.trans (congrArg some hclass))
        hreset rfl rfl rfl rfl hkey hlookup
        htail (s.closeRow_reset cache p row) rfl
      have hkept : s.rowKept same row (some p) cache (s.rowCap row.length native)
          = keptPrefix false (s.rowBudget cache none (s.rowCap row.length native))
            (s.rowCap row.length native) := by
        simp [rowKept, rowEstimate, hcontinues]
      refine ⟨cache, tail, _, _, hall, hcinv, hcfg, ?_⟩
      exact {
        reset := ⟨_, by rw [hclass]; exact hreset⟩
        lookup := ⟨score, m, by rw [hslot, hafter, hkept]; exact hwin.symm.trans hlookup⟩
        draft_eq := by rw [hslot, hcontinues, hkept]; rfl
        after := by
          rw [hslot, hafter, hcontinues]
          refine ⟨_, ?_, ?_, rfl⟩
          · exact ⟨rfl, rfl, rfl, rfl⟩
          · rfl }

end HybridMixer
end SuffixHybrid
