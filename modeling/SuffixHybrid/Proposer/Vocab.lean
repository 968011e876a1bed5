import SuffixHybrid.Cache.Tokens
import SuffixHybrid.Proposer.Row

/-!
# The published tokens

Everything the proposer publishes was read: a draft token is a stored token of the cache, the first
token of a mirror, or the zero of the packing. `Closed` follows a property of tokens through mirrors,
donations and lookups, over every operation and also over calls that raise (`no_invented_tokens`).
-/

namespace SuffixHybrid
open Lib

namespace V2SuffixProposer

/-! ## What is read -/

/-- The buffer rows that the row loop reads, cut to their lengths: those before the first bad row. -/
def consultedRows (s : V2SuffixProposer) (tokens : Grid) : List Entry → List (List Token)
  | [] => []
  | e :: rest =>
    if s.outOfBounds tokens e then []
    else
      match tokens.rows[e.index]? with
      | none => []
      | some buffer => buffer.take e.total.toNat :: s.consultedRows tokens rest

/-- The token sequences that an operation reads. -/
def opInputs (s : V2SuffixProposer) : Op → List (List Token)
  | .propose b =>
    match b.read with
    | .error _ => []
    | .ok (indices, tokens, totals) =>
      if indices.length < b.requestIds.length then []
      else s.consultedRows tokens (entries b.requestIds indices totals)
  | .clearWidths => []
  | .addSequence tokens => [tokens]
  | .addPrompt tokens => if s.cache.cfg.prompts then [tokens] else []

/-- The bounds are all that the state contributes to the rows that are read. -/
lemma consultedRows_congr {s t : V2SuffixProposer} (tokens : Grid)
    (h : s.maxModelLen = t.maxModelLen) (batch : List Entry) :
    s.consultedRows tokens batch = t.consultedRows tokens batch := by
  induction batch with
  | nil => rfl
  | cons e batch ih =>
    rw [consultedRows, consultedRows, outOfBounds, outOfBounds, h, ih]

/-- The tokens that an operation reads have a property. -/
def ReadsWithin (V : Token → Prop) (s : V2SuffixProposer) (operation : Op) : Prop :=
  ∀ seq ∈ s.opInputs operation, ∀ tok ∈ seq, V tok

/-! ## The rows -/

/-- The tokens of the mirrors and of the cache have a property, and the published widths fit the
budget. -/
structure Closed (V : Token → Prop) (s : V2SuffixProposer) : Prop where
  inv : s.cache.Inv
  cache : s.cache.Within V
  mirror : ∀ id row, s.mirror.lookup id = some row → ∀ tok ∈ row, V tok
  widths : ∀ id w, s.widths.lookup id = some w → w ≤ s.k

/-- What a row publishes. -/
structure RowWithin (V : Token → Prop) (k : ℕ) (uniformK : Bool) (out : SuffixRowOut) : Prop where
  tokens : ∀ tok ∈ out.tokens, V tok
  length_le : out.tokens.length ≤ k
  width_le : out.width ≤ k
  uniform : uniformK = true → out.width = k
  ragged : uniformK = false → out.width = out.tokens.length

lemma mem_mirrored {s : V2SuffixProposer} {rid : ReqId} {total : ℕ} {buffer : List Token}
    {tok : Token} (h : tok ∈ s.mirrored rid total buffer) :
    (∃ row, s.mirror.lookup rid = some row ∧ tok ∈ row) ∨ tok ∈ buffer.take total := by
  unfold mirrored at h
  cases hrow : s.mirror.lookup rid with
  | none =>
    rw [hrow] at h
    exact Or.inr h
  | some t =>
    rw [hrow] at h
    dsimp only at h
    split at h
    case isTrue hcont =>
      rw [cont, hrow, Option.any_some] at hcont
      rcases List.mem_append.mp h with hold | hnew
      · exact Or.inl ⟨t, rfl, hold⟩
      · rw [← List.drop_take] at hnew
        exact Or.inr (List.mem_of_mem_drop hnew)
    case isFalse => exact Or.inr h

section rows
variable {V : Token → Prop} {s : V2SuffixProposer}

lemma Closed.mirrored (h : Closed V s) {rid : ReqId} {total : ℕ} {buffer : List Token}
    (hb : ∀ tok ∈ buffer.take total, V tok) : ∀ tok ∈ s.mirrored rid total buffer, V tok := by
  intro tok htok
  rcases mem_mirrored htok with ⟨row, hrow, hmem⟩ | hnew
  · exact h.mirror rid row hrow tok hmem
  · exact hb tok hnew

lemma mem_of_mem_found {suffix : List Token} {tok : Token} (h : tok ∈ s.found suffix) :
    tok ∈ suffix := by
  unfold found at h
  split at h
  · exact List.mem_of_mem_take h
  · cases h

variable [F64]

/-- A published draft consists of looked up tokens and, under the uniform mode, of the first token of
the mirror. -/
lemma Closed.rowOut (h : Closed V s) (h0 : V 0) {rid : ReqId} {total : ℕ} {buffer suffix : List Token}
    (hb : ∀ tok ∈ buffer.take total, V tok) (hsuffix : ∀ tok ∈ suffix, V tok)
    (hle : suffix.length ≤ s.k) :
    RowWithin V s.k s.uniformK (s.rowOut rid total buffer suffix) := by
  have hfound : ∀ tok ∈ s.suffixOf rid total buffer suffix, V tok := by
    intro tok htok
    have hin := (s.narrowed_prefix _ _).1.subset htok
    exact hsuffix tok (mem_of_mem_found hin)
  have hlen := s.suffixOf_length_le rid total buffer hle
  have hpad : V ((s.mirrored rid total buffer).headD 0) := by
    cases hm : s.mirrored rid total buffer with
    | nil => exact h0
    | cons tok row =>
      have hmem : tok ∈ s.mirrored rid total buffer := by simp [hm]
      exact h.mirrored hb tok hmem
  unfold V2SuffixProposer.rowOut publish
  split
  case isTrue hu =>
    exact {
      tokens := fun tok htok => by
        rcases List.mem_append.mp htok with hin | hrep
        · exact hfound tok hin
        · rw [List.eq_of_mem_replicate hrep]
          exact hpad
      length_le := by
        rw [List.length_append, List.length_replicate]
        omega
      width_le := le_rfl
      uniform := fun _ => rfl
      ragged := fun hr => absurd (hu.symm.trans hr) (by simp) }
  case isFalse hu =>
    exact {
      tokens := hfound
      length_le := hlen
      width_le := hlen
      uniform := fun hu' => absurd hu' hu
      ragged := fun _ => rfl }

/-- A row publishes tokens with the property and keeps it. -/
lemma Closed.row (h : Closed V s) (h0 : V 0) (rid : ReqId) (total : ℕ) {buffer : List Token}
    (hb : ∀ tok ∈ buffer.take total, V tok) :
    ∃ out s', s.row rid total buffer = some (out, s') ∧ RowWithin V s.k s.uniformK out ∧
      Closed V s' ∧ s'.k = s.k ∧ s'.uniformK = s.uniformK ∧ s'.maxModelLen = s.maxModelLen := by
  obtain ⟨suffix, score, matched, hspec, hle, hrow⟩ := row_spec h.inv rid total buffer
  have hout : RowWithin V s.k s.uniformK (s.rowOut rid total buffer suffix) :=
    h.rowOut h0 hb (h.cache.speculate hspec) hle
  refine ⟨_, _, hrow, hout, ?_, rfl, rfl, rfl⟩
  exact {
    inv := h.inv
    cache := h.cache
    mirror := fun id row hlookup => by
      simp only [afterRow, Map.lookup_put] at hlookup
      split at hlookup
      · cases hlookup
        exact h.mirrored hb
      · exact h.mirror id row hlookup
    widths := fun id w hlookup => by
      simp only [afterRow, Map.lookup_put] at hlookup
      split at hlookup
      · cases hlookup
        exact hout.width_le
      · exact h.widths id w hlookup }

lemma Closed.rows (h : Closed V s) (h0 : V 0) (tokens : Grid) (batch : List Entry)
    (hread : ∀ seq ∈ s.consultedRows tokens batch, ∀ tok ∈ seq, V tok) :
    ∃ r s', V2SuffixProposer.rows tokens batch s = some (r, s') ∧ Closed V s' ∧ s'.k = s.k ∧
      s'.uniformK = s.uniformK ∧
      ∀ outs, r = .ok outs → outs.length = batch.length ∧
        ∀ out ∈ outs, RowWithin V s.k s.uniformK out := by
  induction batch generalizing s with
  | nil =>
    refine ⟨_, s, rfl, h, rfl, rfl, fun outs houts => ?_⟩
    cases houts
    simp
  | cons e batch ih =>
    simp only [V2SuffixProposer.rows]
    by_cases hbad : s.outOfBounds tokens e = true
    · rw [if_pos hbad]
      exact ⟨_, s, rfl, h, rfl, rfl, nofun⟩
    · rw [consultedRows, if_neg hbad] at hread
      rw [if_neg hbad]
      cases hbuffer : tokens.rows[e.index]? with
      | none => exact ⟨_, s, rfl, h, rfl, rfl, nofun⟩
      | some buffer =>
        rw [hbuffer] at hread
        obtain ⟨out, s1, hrow, hout, h1, hk, hu, hm⟩ :=
          h.row h0 e.rid e.total.toNat (hread _ List.mem_cons_self)
        rw [← consultedRows_congr tokens hm] at hread
        obtain ⟨r, s2, hrest, h2, hk2, hu2, houts⟩ :=
          ih h1 fun seq hseq => hread seq (List.mem_cons_of_mem _ hseq)
        simp only [hrow, hrest, Option.bind_eq_bind, Option.bind_some]
        refine ⟨_, s2, rfl, h2, hk2.trans hk, hu2.trans hu, fun outs hr => ?_⟩
        cases r with
        | error e => cases hr
        | ok outs' =>
          cases hr
          obtain ⟨hlen, hall⟩ := houts outs' rfl
          refine ⟨by simp [hlen], fun out' hmem => ?_⟩
          rcases List.mem_cons.mp hmem with rfl | hmem
          · exact hout
          · have hin := hall out' hmem
            rwa [hk, hu] at hin

end rows

/-! ## Calls -/

lemma mem_donated {s : V2SuffixProposer} {rids : List ReqId} {row : List Token}
    (h : row ∈ s.donated rids) : ∃ rid, s.mirror.lookup rid = some row := by
  obtain ⟨hmem, _⟩ := List.mem_filter.mp h
  obtain ⟨rid, _, hrow⟩ := List.mem_filterMap.mp hmem
  exact ⟨rid, hrow⟩

/-- A departed request feeds the cache with its mirror. -/
lemma Closed.depart {V : Token → Prop} {s : V2SuffixProposer} (h : Closed V s) (o : HashOrder ReqId)
    (ids : List ReqId) :
    ∃ s', s.depart o ids = some s' ∧ Closed V s' ∧ s'.k = s.k ∧ s'.uniformK = s.uniformK ∧
      s'.maxModelLen = s.maxModelLen := by
  obtain ⟨cache, mirror, widths, gate, ingested, hdepart, hc, _, hfed, _, hm, hw, _⟩ :=
    depart_spec h.inv o ids
  refine ⟨_, hdepart, ?_, rfl, rfl, rfl⟩
  exact {
    inv := hc
    cache := h.cache.run_add (fun row hrow => by
      obtain ⟨rid, hlookup⟩ := mem_donated hrow
      exact h.mirror rid row hlookup) hfed
    mirror := fun id row hlookup => by
      rw [hm] at hlookup
      split at hlookup
      · exact h.mirror id row hlookup
      · cases hlookup
    widths := fun id w hlookup => by
      rw [hw] at hlookup
      split at hlookup
      · cases hlookup
      · exact h.widths id w hlookup }

/-- The packed drafts: one row of `k` tokens for each request, with the property, and zeros beyond the
published width in the ragged mode. -/
structure PackedWithin (V : Token → Prop) (k : ℕ) (uniformK : Bool) (n : ℕ) (p : Packed) : Prop where
  drafts_length : p.drafts.length = n
  widths_length : p.widths.length = n
  row_length : ∀ row ∈ p.drafts, row.length = k
  tokens : ∀ row ∈ p.drafts, ∀ tok ∈ row, V tok
  width_le : ∀ w ∈ p.widths, w ≤ k
  uniform : uniformK = true → ∀ w ∈ p.widths, w = k
  ragged : uniformK = false → ∀ (i : ℕ) (row : List Token) (w : ℕ), p.drafts[i]? = some row →
    p.widths[i]? = some w → ∀ tok ∈ row.drop w, tok = 0

lemma RowWithin.pack {V : Token → Prop} {k : ℕ} {uniformK : Bool} {out : SuffixRowOut}
    (h : RowWithin V k uniformK out) (h0 : V 0) :
    (pack k out).length = k ∧ (∀ tok ∈ pack k out, V tok) ∧
      (uniformK = false → ∀ tok ∈ (pack k out).drop out.width, tok = 0) := by
  have hpack : V2SuffixProposer.pack k out
      = out.tokens ++ List.replicate (k - out.tokens.length) 0 := by
    rw [V2SuffixProposer.pack, List.take_of_length_le h.length_le]
  have hlen := h.length_le
  refine ⟨?_, fun tok htok => ?_, fun hr tok htok => ?_⟩
  · rw [hpack, List.length_append, List.length_replicate]
    omega
  · rw [hpack] at htok
    rcases List.mem_append.mp htok with hin | hzero
    · exact h.tokens tok hin
    · rw [List.eq_of_mem_replicate hzero]
      exact h0
  · rw [hpack, h.ragged hr, List.drop_left] at htok
    exact List.eq_of_mem_replicate htok

lemma packedWithin_packed {V : Token → Prop} (h0 : V 0) {k : ℕ} {uniformK : Bool}
    {outs : List SuffixRowOut} (h : ∀ out ∈ outs, RowWithin V k uniformK out) :
    PackedWithin V k uniformK outs.length
      { drafts := outs.map (pack k), widths := outs.map (·.width) } where
  drafts_length := by simp
  widths_length := by simp
  row_length := fun row hrow => by
    obtain ⟨out, hout, rfl⟩ := List.mem_map.mp hrow
    exact ((h out hout).pack h0).1
  tokens := fun row hrow => by
    obtain ⟨out, hout, rfl⟩ := List.mem_map.mp hrow
    exact ((h out hout).pack h0).2.1
  width_le := fun w hw => by
    obtain ⟨out, hout, rfl⟩ := List.mem_map.mp hw
    exact (h out hout).width_le
  uniform := fun hu w hw => by
    obtain ⟨out, hout, rfl⟩ := List.mem_map.mp hw
    exact (h out hout).uniform hu
  ragged := fun hr i row w hrow hw => by
    rw [List.getElem?_map] at hrow hw
    obtain ⟨out, hout, rfl⟩ := Option.map_eq_some_iff.mp hrow
    rw [hout, Option.map_some] at hw
    cases hw
    exact ((h out (List.mem_of_getElem? hout)).pack h0).2.2 hr

lemma entries_length {b : Batch} {indices : List ℕ} {tokens : Grid} {totals : List ℤ}
    (h : b.read = .ok (indices, tokens, totals)) :
    (entries b.requestIds indices totals).length = b.requestIds.length := by
  unfold Batch.read at h
  split at h
  case h_1 => cases h
  case h_2 totals' _ =>
    split at h
    case isTrue => cases h
    case isFalse htotals =>
      split at h
      case h_1 => cases h
      case h_2 idx _ =>
        split at h
        case isTrue => cases h
        case isFalse hidx =>
          have hargs : (idx.map fun x => (max x 0).toNat) = indices ∧ totals' = totals := by
            split at h <;> cases h <;> exact ⟨rfl, rfl⟩
          rw [entries, List.length_map, List.length_zip, List.length_zip, ← hargs.1, ← hargs.2,
            List.length_map]
          omega

section calls
variable [F64] {V : Token → Prop} {s : V2SuffixProposer}

/-- A call publishes tokens with the property and keeps it, also when it raises. -/
lemma Closed.propose (h : Closed V s) (h0 : V 0) (b : Batch) (hreads : ReadsWithin V s (.propose b)) :
    ∃ out, s.proposeSuffixOnly b = some out ∧ Closed V out.2 ∧ out.2.k = s.k ∧
      out.2.uniformK = s.uniformK ∧
      ∀ p, out.1 = .ok p → PackedWithin V s.k s.uniformK b.requestIds.length p := by
  unfold proposeSuffixOnly
  cases hread : b.read with
  | error e => exact ⟨_, rfl, h, rfl, rfl, fun _ hp => by cases hp⟩
  | ok args =>
    obtain ⟨indices, tokens, totals⟩ := args
    simp only [ReadsWithin, opInputs, hread] at hreads
    simp only [V2SuffixProposer.run]
    split
    case isTrue => exact ⟨_, rfl, h, rfl, rfl, fun _ hp => by cases hp⟩
    case isFalse hdim =>
      rw [if_neg hdim] at hreads
      obtain ⟨s1, hs1, h1, hk1, hu1, hm1⟩ := h.depart b.o b.requestIds
      rw [← consultedRows_congr tokens hm1] at hreads
      obtain ⟨r, s2, hs2, h2, hk2, hu2, houts⟩ := h1.rows h0 tokens _ hreads
      have hk := hk2.trans hk1
      have hu := hu2.trans hu1
      simp only [hs1, hs2, Option.bind_eq_bind, Option.bind_some]
      cases r with
      | error e => exact ⟨_, rfl, h2, hk, hu, fun _ hp => by cases hp⟩
      | ok outs =>
        obtain ⟨hlen, hall⟩ := houts outs rfl
        rw [entries_length hread] at hlen
        refine ⟨_, rfl, ⟨h2.inv, h2.cache, h2.mirror, h2.widths⟩, hk, hu, fun p hp => ?_⟩
        cases hp
        rw [← hlen, hk]
        rw [hk1, hu1] at hall
        exact packedWithin_packed h0 hall

/-- Every operation keeps the property. -/
lemma Closed.step (h : Closed V s) (h0 : V 0) (operation : Op) (hreads : ReadsWithin V s operation) :
    ∃ s', s.op operation = some s' ∧ Closed V s' ∧ s'.k = s.k ∧ s'.uniformK = s.uniformK := by
  cases operation with
  | propose b =>
    obtain ⟨out, hout, h', hk, hu, _⟩ := h.propose h0 b hreads
    exact ⟨out.2, by rw [op, hout, Option.map_some], h', hk, hu⟩
  | clearWidths =>
    obtain ⟨widths, gate, hcleared, hw, _⟩ := clearWidths_spec s
    refine ⟨_, congrArg some hcleared, ⟨h.inv, h.cache, h.mirror, fun id w hlookup => ?_⟩, rfl, rfl⟩
    rw [hw] at hlookup
    obtain ⟨_, _, rfl⟩ := Option.map_eq_some_iff.mp hlookup
    exact Nat.zero_le _
  | addSequence tokens =>
    obtain ⟨cache, hcache, hc, _⟩ := h.inv.add tokens
    have hwithin := h.cache.add (hreads tokens (by simp [opInputs])) hcache
    exact ⟨{ s with cache }, by rw [op, hcache, Option.map_some], ⟨hc, hwithin, h.mirror, h.widths⟩, rfl, rfl⟩
  | addPrompt tokens =>
    obtain ⟨cache, hcache, hc, _⟩ := h.inv.addPrompt tokens
    have hwithin : cache.Within V := by
      unfold Cache.addPrompt at hcache
      split at hcache
      case isTrue hp => exact h.cache.add (hreads tokens (by simp [opInputs, hp])) hcache
      case isFalse =>
        cases hcache
        exact h.cache
    exact ⟨{ s with cache }, by rw [op, hcache, Option.map_some], ⟨hc, hwithin, h.mirror, h.widths⟩, rfl, rfl⟩

end calls

lemma closed_new {V : Token → Prop} {cfg : Config} {k maxModelLen minLen : ℕ} {uniformK widthGate : Bool}
    {s : V2SuffixProposer} (hs : new cfg k maxModelLen minLen uniformK widthGate = .ok s) :
    Closed V s ∧ s.k = k ∧ s.uniformK = uniformK := by
  unfold V2SuffixProposer.new at hs
  split at hs
  case isFalse => cases hs
  case isTrue =>
    obtain rfl := Except.ok.inj hs
    exact ⟨⟨Cache.inv_new cfg, Cache.within_new cfg V, by simp [empty], by simp [empty]⟩, rfl, rfl⟩

/-- The published widths of a reachable proposer fit its budget. -/
lemma Reachable.closed [F64] {s : V2SuffixProposer} (h : Reachable s) : Closed (fun _ => True) s := by
  obtain ⟨cfg, k, maxModelLen, minLen, uniformK, widthGate, s0, ops, hnew, hrun⟩ := h
  have hstep (s : V2SuffixProposer) (operation : Op) (s' : V2SuffixProposer)
      (h : Closed (fun _ => True) s) (hop : op s operation = some s') : Closed (fun _ => True) s' := by
    obtain ⟨s1, hop1, h1, _⟩ := h.step trivial operation fun _ _ _ _ => trivial
    obtain rfl : s1 = s' := Option.some.inj (hop1.symm.trans hop)
    exact h1
  exact run_inv hstep (closed_new hnew).1 hrun

/-- A proposer is run over any operations: batches of which requests arrive, stay, leave and are reset,
calls that raise, retractions and warm starts, in either mode, with or without the gate. If the tokens
that the operations read have a property that zero has, then so do the tokens of every packed draft. The
published widths are at most `k`, and `k` in the uniform mode; in the ragged mode the packed rows are
zero beyond them. -/
theorem no_invented_tokens [F64] {V : Token → Prop} (h0 : V 0) {cfg : Config}
    {k maxModelLen minLen : ℕ} {uniformK widthGate : Bool} {s : V2SuffixProposer}
    (hs : new cfg k maxModelLen minLen uniformK widthGate = .ok s) {ops : List Op}
    (hreads : Lib.Along op (ReadsWithin V) s ops) :
    ∃ s', Lib.run op s ops = some s' ∧ (∀ id w, s'.widths.lookup id = some w → w ≤ k) ∧
      ∀ b, ReadsWithin V s' (.propose b) → ∃ out, s'.proposeSuffixOnly b = some out ∧
        ∀ p, out.1 = .ok p → PackedWithin V k uniformK b.requestIds.length p := by
  have hstep (s : V2SuffixProposer) (operation : Op) (h : Closed V s ∧ s.k = k ∧ s.uniformK = uniformK)
      (hin : ReadsWithin V s operation) : ∃ s', op s operation = some s' ∧
        Closed V s' ∧ s'.k = k ∧ s'.uniformK = uniformK := by
    obtain ⟨s1, h1, hc, hk, hu⟩ := h.1.step h0 operation hin
    exact ⟨s1, h1, hc, hk.trans h.2.1, hu.trans h.2.2⟩
  obtain ⟨s', hrun, h, hk, hu⟩ := Lib.Along.total hstep (closed_new hs) hreads
  refine ⟨s', hrun, fun id w hlookup => hk ▸ h.widths id w hlookup, fun b hb => ?_⟩
  obtain ⟨out, hout, _, _, _, hp⟩ := h.propose h0 b hb
  rw [hk, hu] at hp
  exact ⟨out, hout, hp⟩

/-- A batch of two requests. -/
def twoRows (total : ℤ) (second : List Token) (h : second.length = 9) : Batch where
  o := HashOrder.stored ReqId
  requestIds := ["a", "b"]
  indices := some [0, 1]
  totals := some [total, 9]
  tokens := .i64 true ⟨9, [[1, 2, 3, 4, 5, 6, 7, 8, 9], second], by simp [h]⟩

/-- A warm start and two requests, of which the second one is reset and then leaves, a call that raises
and a retraction. -/
def departingOps : List Op :=
  [.addSequence [1, 2, 3, 4, 5, 6, 7, 8, 9], .propose (twoRows 2 [1, 2, 3, 4, 5, 6, 7, 8, 9] rfl),
    .propose (twoRows 3 [9, 8, 7, 6, 5, 4, 3, 2, 1] rfl), .propose (oneRow 10), .clearWidths,
    .propose (oneRow 4)]

/-- A vocabulary of ten tokens. -/
def vocabulary (tok : Token) : Prop := 0 ≤ tok ∧ tok < 10

instance (tok : Token) : Decidable (vocabulary tok) := inferInstanceAs (Decidable (_ ∧ _))

instance (s : V2SuffixProposer) (operation : Op) : Decidable (ReadsWithin vocabulary s operation) :=
  inferInstanceAs (Decidable (∀ _ ∈ _, _))

/-- In the uniform mode, the drafts of the run stay in the vocabulary. -/
theorem no_invented_tokens_departing :
    ∃ s', Lib.run op (empty (Config.ofN 1 (by decide)) 3 100 1 true true (by decide)) departingOps
        = some s' ∧ ∃ out, s'.proposeSuffixOnly (oneRow 5) = some out ∧
      ∀ p, out.1 = .ok p → PackedWithin vocabulary 3 true 1 p := by
  have hreads : Lib.Along op (ReadsWithin vocabulary)
      (empty (Config.ofN 1 (by decide)) 3 100 1 true true (by decide)) departingOps := by
    decide +kernel
  obtain ⟨s', hrun, _, hb⟩ := no_invented_tokens (show vocabulary 0 by decide)
    (show new (Config.ofN 1 (by decide)) 3 100 1 true true = .ok _ from rfl) hreads
  have hone : ReadsWithin vocabulary s' (.propose (oneRow 5)) := by
    intro seq hseq
    have hread : seq ∈ s'.consultedRows ⟨9, [[1, 2, 3, 4, 5, 6, 7, 8, 9]], by decide⟩ [⟨"a", 0, 5⟩] := hseq
    rw [consultedRows] at hread
    split at hread
    · cases hread
    · obtain rfl := List.mem_singleton.mp hread
      decide
  obtain ⟨out, hout, hp⟩ := hb (oneRow 5) hone
  exact ⟨s', hrun, out, hout, hp⟩

end V2SuffixProposer
end SuffixHybrid
