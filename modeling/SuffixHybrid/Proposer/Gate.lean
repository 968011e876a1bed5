import SuffixHybrid.Proposer.Row

/-!
# The width gate

Two proposers that differ in the width gate only are run over the same operations, in the ragged mode.
The gate reads the lookups and the growth of the mirrors but nothing reads the gate except the cut of
the published suffix, so the mirrors and the caches stay equal (`Paired`), and every gated draft begins
the ungated one (`gate_shortens`).
-/

namespace SuffixHybrid
open Lib

namespace V2SuffixProposer

/-- A gated and an ungated proposer with equal mirrors and caches, whose published widths are zero for
the same requests. -/
structure Paired (k : ℕ) (s t : V2SuffixProposer) : Prop where
  inv : s.cache.Inv
  cache : s.cache = t.cache
  mirror : s.mirror = t.mirror
  budget : s.k = k ∧ t.k = k
  maxModelLen : s.maxModelLen = t.maxModelLen
  minLen : s.minLen = t.minLen
  ingested : s.ingested = t.ingested
  ragged : s.uniformK = false ∧ t.uniformK = false
  ungated : t.widthGate = false
  widths : ∀ id, (s.widths.lookup id).map (0 < ·) = (t.widths.lookup id).map (0 < ·)

/-- The gated draft of a row begins the ungated one. -/
structure Narrows (k : ℕ) (out out' : SuffixRowOut) : Prop where
  tokens : out.tokens <+: out'.tokens
  empty : out.tokens = [] ↔ out'.tokens = []
  width : out.width = out.tokens.length
  width' : out'.width = out'.tokens.length
  length_le : out'.tokens.length ≤ k

section paired
variable {k : ℕ} {s t : V2SuffixProposer}

lemma Paired.departRow (h : Paired k s t) (rid : ReqId) :
    ∃ s' t', departRow s rid = some s' ∧ departRow t rid = some t' ∧ Paired k s' t' := by
  have herase (id : ReqId) : ((s.widths.erase rid).lookup id).map (0 < ·)
      = ((t.widths.erase rid).lookup id).map (0 < ·) := by
    rw [Map.lookup_erase_eq, Map.lookup_erase_eq]
    split
    · rfl
    · exact h.widths id
  unfold V2SuffixProposer.departRow
  rw [← h.mirror]
  cases s.mirror.lookup rid with
  | none => exact ⟨s, t, rfl, rfl, h⟩
  | some row =>
    dsimp only
    split
    case isTrue =>
      obtain ⟨cache, hadd, hc, _⟩ := h.inv.add row
      rw [← h.cache, hadd]
      exact ⟨_, _, rfl, rfl, hc, rfl, by rw [h.mirror], h.budget, h.maxModelLen, h.minLen,
        by rw [h.ingested], h.ragged, h.ungated, herase⟩
    case isFalse =>
      exact ⟨_, _, rfl, rfl, h.inv, h.cache, by rw [h.mirror], h.budget, h.maxModelLen, h.minLen, h.ingested,
        h.ragged, h.ungated, herase⟩

lemma Paired.depart (h : Paired k s t) (o : HashOrder ReqId) (ids : List ReqId) :
    ∃ s' t', s.depart o ids = some s' ∧ t.depart o ids = some t' ∧ Paired k s' t' := by
  have hgone : t.gone o ids = s.gone o ids := by rw [gone, gone, h.mirror]
  unfold V2SuffixProposer.depart
  rw [hgone]
  exact run_rel (fun _ _ rid h => h.departRow rid) h _

lemma Paired.bounds (h : Paired k s t) (tokens : Grid) (e : Entry) :
    t.outOfBounds tokens e = s.outOfBounds tokens e := by
  rw [outOfBounds, outOfBounds, h.maxModelLen]

variable [F64]

/-- A row of both proposers looks up the same suffix. -/
lemma Paired.row (h : Paired k s t) (rid : ReqId) (total : ℕ) (buffer : List Token) :
    ∃ out out' s' t', s.row rid total buffer = some (out, s') ∧
      t.row rid total buffer = some (out', t') ∧ Narrows k out out' ∧ Paired k s' t' := by
  obtain ⟨suffix, score, matched, hspec, hle, hrow⟩ := row_spec h.inv rid total buffer
  obtain ⟨suffix', score', matched', hspec', _, hrow'⟩ :=
    row_spec (h.cache ▸ h.inv) rid total buffer
  have hmirrored : t.mirrored rid total buffer = s.mirrored rid total buffer := by
    unfold mirrored cont
    rw [h.mirror]
  rw [← h.cache, h.budget.2, ← h.budget.1, hmirrored, hspec] at hspec'
  cases hspec'
  have hfound : t.found suffix = s.found suffix := by
    simp only [found, h.minLen, h.budget.1, h.budget.2]
  have hplain : t.suffixOf rid total buffer suffix = s.found suffix := by
    rw [suffixOf, narrowed, h.ungated, hfound]
    simp
  obtain ⟨hpre, hnil⟩ := s.narrowed_prefix (s.trained rid total buffer) (s.found suffix)
  have hout : (s.rowOut rid total buffer suffix).width
      = (s.suffixOf rid total buffer suffix).length := by
    simp [rowOut, publish, h.ragged.1]
  have hout' : (t.rowOut rid total buffer suffix).width = (s.found suffix).length := by
    simp [rowOut, publish, h.ragged.2, hplain]
  refine ⟨_, _, _, _, hrow, hrow', ?_, ?_⟩
  · exact {
      tokens := by
        simp only [rowOut, publish, h.ragged.1, h.ragged.2, hplain]
        exact hpre
      empty := by
        simp only [rowOut, publish, h.ragged.1, h.ragged.2, hplain]
        exact hnil
      width := by simp [rowOut, publish, h.ragged.1]
      width' := by simp [rowOut, publish, h.ragged.2]
      length_le := by
        simp only [rowOut, publish, h.ragged.2, hplain]
        rw [← h.budget.1]
        exact s.found_length_le hle }
  · exact {
      inv := h.inv
      cache := h.cache
      mirror := by simp only [afterRow, hmirrored, h.mirror]
      budget := h.budget
      maxModelLen := h.maxModelLen
      minLen := h.minLen
      ingested := h.ingested
      ragged := h.ragged
      ungated := h.ungated
      widths := fun id => by
        simp only [afterRow, Map.lookup_put, hout, hout']
        split
        · have hpos : 0 < (s.suffixOf rid total buffer suffix).length ↔
              0 < (s.found suffix).length := by
            rw [List.length_pos_iff, List.length_pos_iff]
            exact not_congr hnil
          simp only [Option.map_some, hpos]
        · exact h.widths id }

/-- What two row loops return: the same exception, or drafts of which the ones begin the others. -/
def Outs (k : ℕ) : Except Raised (List SuffixRowOut) → Except Raised (List SuffixRowOut) → Prop
  | .error e, .error e' => e = e'
  | .ok outs, .ok outs' => List.Forall₂ (Narrows k) outs outs'
  | _, _ => False

lemma Paired.rows (h : Paired k s t) (tokens : Grid) (batch : List Entry) :
    ∃ r r' s' t', rows tokens batch s = some (r, s') ∧ rows tokens batch t = some (r', t') ∧
      Outs k r r' ∧ Paired k s' t' := by
  induction batch generalizing s t with
  | nil => exact ⟨_, _, s, t, rfl, rfl, .nil, h⟩
  | cons e batch ih =>
    simp only [V2SuffixProposer.rows, h.bounds]
    by_cases hbad : s.outOfBounds tokens e = true
    · rw [if_pos hbad, if_pos hbad]
      exact ⟨_, _, s, t, rfl, rfl, rfl, h⟩
    · rw [if_neg hbad, if_neg hbad]
      cases hbuffer : tokens.rows[e.index]? with
      | none => exact ⟨_, _, s, t, rfl, rfl, rfl, h⟩
      | some buffer =>
        obtain ⟨out, out', s1, t1, hs, ht, hnarrow, h1⟩ := h.row e.rid e.total.toNat buffer
        obtain ⟨r, r', s2, t2, hrs, hrt, houts, h2⟩ := ih h1
        simp only [hs, ht, hrs, hrt, Option.bind_eq_bind, Option.bind_some]
        refine ⟨_, _, s2, t2, rfl, rfl, ?_, h2⟩
        cases r with
        | error e =>
          cases r' with
          | error e' => exact houts
          | ok outs' => exact houts
        | ok outs =>
          cases r' with
          | error e' => exact houts
          | ok outs' => exact .cons hnarrow houts

end paired

/-! ## Calls -/

/-- The published drafts, cut to their widths. -/
def Packed.published (p : Packed) : List (List Token) := List.zipWith List.take p.widths p.drafts

/-- The packed drafts of the outcome of `run`. -/
def packed (k : ℕ) (outs : List SuffixRowOut) : Packed :=
  { drafts := outs.map (pack k), widths := outs.map (·.width) }

lemma published_packed {k : ℕ} {outs : List SuffixRowOut}
    (h : ∀ out ∈ outs, out.width = out.tokens.length ∧ out.tokens.length ≤ k) :
    (packed k outs).published = outs.map (·.tokens) := by
  rw [Packed.published, packed, List.zipWith_map, List.zipWith_self]
  apply List.map_congr_left
  intro out hout
  obtain ⟨hwidth, hle⟩ := h out hout
  rw [hwidth, pack, List.take_of_length_le hle, List.take_left]

/-- The gated outcome shortens the ungated one. -/
def Shortens (k : ℕ) : Outcome → Outcome → Prop
  | (.error e, _), (.error e', _) => e = e'
  | (.ok p, _), (.ok q, _) => List.Forall₂ (· <+: ·) p.published q.published ∧
      List.Forall₂ (fun w w' => (w = 0 ↔ w' = 0) ∧ (w ≠ 0 → 1 ≤ w ∧ w ≤ k)) p.widths q.widths
  | _, _ => False

lemma Outs.shortens {k k₁ k₂ : ℕ} {r r' : Except Raised (List SuffixRowOut)} (h : Outs k r r')
    (h₁ : k₁ = k) (h₂ : k₂ = k) (s' t' : V2SuffixProposer) :
    Shortens k (r.map (packed k₁), s') (r'.map (packed k₂), t') := by
  rw [h₁, h₂]
  cases r with
  | error e =>
    cases r' with
    | error e' => exact h
    | ok outs' => exact h
  | ok outs =>
    cases r' with
    | error e' => exact h
    | ok outs' =>
      have hrel : List.Forall₂ (Narrows k) outs outs' := h
      have hleft : ∀ out ∈ outs, out.width = out.tokens.length ∧ out.tokens.length ≤ k :=
        ((List.forall₂_and_left _ _).mp (hrel.imp fun _ _ hn =>
          ⟨⟨hn.width, hn.tokens.length_le.trans hn.length_le⟩, hn⟩)).1
      have hright : ∀ out ∈ outs', out.width = out.tokens.length ∧ out.tokens.length ≤ k :=
        ((List.forall₂_and_left _ _).mp (hrel.flip.imp fun _ _ hn =>
          ⟨⟨hn.width', hn.length_le⟩, hn⟩)).1
      refine ⟨?_, ?_⟩
      · rw [published_packed hleft, published_packed hright, List.forall₂_map_left_iff,
          List.forall₂_map_right_iff]
        exact hrel.imp fun _ _ hn => hn.tokens
      · rw [packed, packed, List.forall₂_map_left_iff, List.forall₂_map_right_iff]
        refine hrel.imp fun out out' hn => ?_
        have hle := hn.tokens.length_le.trans hn.length_le
        have hzero : out.tokens.length = 0 ↔ out'.tokens.length = 0 := by
          rw [List.length_eq_zero_iff, List.length_eq_zero_iff, hn.empty]
        rw [hn.width, hn.width']
        exact ⟨hzero, fun hne => ⟨Nat.pos_of_ne_zero hne, hle⟩⟩

section calls
variable [F64] {k : ℕ} {s t : V2SuffixProposer}

/-- A batch call on both proposers. -/
lemma Paired.propose (h : Paired k s t) (b : Batch) :
    ∃ out out', s.proposeSuffixOnly b = some out ∧ t.proposeSuffixOnly b = some out' ∧
      Shortens k out out' ∧ Paired k out.2 out'.2 := by
  unfold proposeSuffixOnly
  cases b.read with
  | error e => exact ⟨_, _, rfl, rfl, rfl, h⟩
  | ok args =>
    obtain ⟨indices, tokens, totals⟩ := args
    simp only [V2SuffixProposer.run]
    split
    case isTrue => exact ⟨_, _, rfl, rfl, rfl, h⟩
    case isFalse =>
      obtain ⟨s0, t0, hs0, ht0, h0⟩ := h.depart b.o b.requestIds
      obtain ⟨r, r', s1, t1, hs1, ht1, houts, h1⟩ :=
        h0.rows tokens (entries b.requestIds indices totals)
      simp only [hs0, ht0, hs1, ht1, Option.bind_eq_bind, Option.bind_some]
      cases r with
      | error e =>
        cases r' with
        | error e' => exact ⟨_, _, rfl, rfl, houts, h1⟩
        | ok outs' => exact absurd houts id
      | ok outs =>
        cases r' with
        | error e' => exact absurd houts id
        | ok outs' =>
          refine ⟨_, _, rfl, rfl, ?_, ?_⟩
          · exact houts.shortens h1.budget.1 h1.budget.2 _ _
          · exact ⟨h1.inv, h1.cache, h1.mirror, h1.budget, h1.maxModelLen, h1.minLen, h1.ingested, h1.ragged,
              h1.ungated, h1.widths⟩

/-- Every operation keeps the two proposers paired. -/
lemma Paired.step (h : Paired k s t) (operation : Op) :
    ∃ s' t', s.op operation = some s' ∧ t.op operation = some t' ∧ Paired k s' t' := by
  have hadd {cache : Cache} (hc : cache.Inv) : Paired k { s with cache } { t with cache } :=
    ⟨hc, rfl, h.mirror, h.budget, h.maxModelLen, h.minLen, h.ingested, h.ragged, h.ungated, h.widths⟩
  cases operation with
  | propose b =>
    obtain ⟨out, out', hs, ht, _, h'⟩ := h.propose b
    exact ⟨out.2, out'.2, by simp [op, hs], by simp [op, ht], h'⟩
  | clearWidths =>
    obtain ⟨widths, gate, hs, hw, _⟩ := clearWidths_spec s
    obtain ⟨widths', gate', ht, hw', _⟩ := clearWidths_spec t
    refine ⟨_, _, congrArg some hs, congrArg some ht, h.inv, h.cache, h.mirror, h.budget, h.maxModelLen,
      h.minLen, h.ingested, h.ragged, h.ungated, fun id => ?_⟩
    have hid := congrArg (Option.map fun _ => False) (h.widths id)
    simpa [hw, hw', Function.comp_def] using hid
  | addSequence tokens =>
    obtain ⟨cache, hcache, hc, _⟩ := h.inv.add tokens
    exact ⟨_, _, by simp only [op, hcache, Option.map_some], by
      simp only [op, ← h.cache, hcache, Option.map_some], hadd hc⟩
  | addPrompt tokens =>
    obtain ⟨cache, hcache, hc, _⟩ := h.inv.addPrompt tokens
    exact ⟨_, _, by simp only [op, hcache, Option.map_some], by
      simp only [op, ← h.cache, hcache, Option.map_some], hadd hc⟩

end calls

/-- Two new proposers that differ in the gate only are run over the same operations, in the ragged mode:
batches, warm starts and retractions. Their mirrors, caches and ingestion counts stay equal, and every
call publishes gated drafts that begin the ungated ones, of width zero for the same rows. -/
theorem gate_shortens [F64] {cfg : Config} {k maxModelLen minLen : ℕ} {s t : V2SuffixProposer}
    (hs : new cfg k maxModelLen minLen false true = .ok s)
    (ht : new cfg k maxModelLen minLen false false = .ok t) (ops : List Op) :
    ∃ s' t', Lib.run op s ops = some s' ∧ Lib.run op t ops = some t' ∧
      s'.mirror = t'.mirror ∧ s'.cache = t'.cache ∧ s'.ingested = t'.ingested ∧
      (∀ id, (s'.widths.lookup id).map (0 < ·) = (t'.widths.lookup id).map (0 < ·)) ∧
      ∀ b, ∃ out out', s'.proposeSuffixOnly b = some out ∧ t'.proposeSuffixOnly b = some out' ∧
        Shortens k out out' ∧ out.2.mirror = out'.2.mirror ∧ out.2.cache = out'.2.cache ∧
        out.2.ingested = out'.2.ingested := by
  have hpaired : Paired k s t := by
    unfold V2SuffixProposer.new at hs ht
    split at hs
    case isFalse => cases hs
    case isTrue hargs =>
      rw [dif_pos hargs] at ht
      obtain rfl := Except.ok.inj hs
      obtain rfl := Except.ok.inj ht
      exact ⟨Cache.inv_new cfg, rfl, rfl, ⟨rfl, rfl⟩, rfl, rfl, rfl, ⟨rfl, rfl⟩, rfl, fun _ => rfl⟩
  obtain ⟨s', t', hrs, hrt, h⟩ := run_rel (fun _ _ operation h => h.step operation) hpaired ops
  refine ⟨s', t', hrs, hrt, h.mirror, h.cache, h.ingested, h.widths, fun b => ?_⟩
  obtain ⟨out, out', ho, ho', hshort, h'⟩ := h.propose b
  exact ⟨out, out', ho, ho', hshort, h'.mirror, h'.cache, h'.ingested⟩

/-- A request that grows by one token a step, so that none of its drafts is accepted. -/
def rejectedOps : List Op :=
  [.addSequence [1, 2, 3, 4, 5, 6, 7, 8, 9], .propose (oneRow 2), .propose (oneRow 3)]

/-- The gate cuts the third draft of the rejected request from three tokens to two. -/
theorem gate_shortens_rejected :
    ∃ s' t', Lib.run op (empty (Config.ofN 1 (by decide)) 3 100 1 false true (by decide)) rejectedOps
        = some s' ∧
      Lib.run op (empty (Config.ofN 1 (by decide)) 3 100 1 false false (by decide)) rejectedOps
        = some t' ∧ s'.mirror = t'.mirror ∧ s'.cache = t'.cache ∧ s'.ingested = t'.ingested ∧
      ∃ out out', s'.proposeSuffixOnly (oneRow 4) = some out ∧
        t'.proposeSuffixOnly (oneRow 4) = some out' ∧ Shortens 3 out out' := by
  obtain ⟨s', t', hs, ht, hm, hc, hi, _, hb⟩ := gate_shortens
    (show new (Config.ofN 1 (by decide)) 3 100 1 false true = .ok _ from rfl)
    (show new (Config.ofN 1 (by decide)) 3 100 1 false false = .ok _ from rfl) rejectedOps
  obtain ⟨out, out', ho, ho', hshort, _⟩ := hb (oneRow 4)
  exact ⟨s', t', hs, ht, hm, hc, hi, out, out', ho, ho', hshort⟩

example : ((Lib.run op (empty (Config.ofN 1 (by decide)) 3 100 1 false true (by decide))
    rejectedOps).bind fun s => (s.proposeSuffixOnly (oneRow 4)).map fun out =>
      out.1.toOption) = some (some ⟨[[5, 6, 0]], [2]⟩) := by with_unfolding_all decide

end V2SuffixProposer
end SuffixHybrid
