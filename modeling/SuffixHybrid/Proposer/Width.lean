import SuffixHybrid.Lib.Rounding
import SuffixHybrid.Proposer.Tables

/-!
# Full acceptance and the width gate

The estimate of a gate is to creep up when the engine takes every published draft: the tokens behind the
gate were never verified. The row loop puts it to the published width and one. A row whose cached
continuation is short publishes less than its gate lets through, and when that little is accepted the
gate narrows (`gate_keeps_iff`). The last width of a gate is the published width of its request
(`Gated`), whatever the run.
-/

namespace SuffixHybrid
open Lib

namespace V2SuffixProposer

/-! ## Properties of every row -/

/-- `P` holds of every row that a row loop takes, at the proposer that takes it. -/
def EachRow [F64] (P : V2SuffixProposer → Entry → List Token → Prop) (tokens : Grid) :
    List Entry → V2SuffixProposer → Prop
  | [], _ => True
  | e :: batch, s => s.outOfBounds tokens e = false → ∀ buffer, tokens.rows[e.index]? = some buffer →
      P s e buffer ∧
        ∀ out s', s.row e.rid e.total.toNat buffer = some (out, s') → EachRow P tokens batch s'

/-- `P` holds of every row of an operation. -/
def AtRows [F64] (P : V2SuffixProposer → Entry → List Token → Prop) (s : V2SuffixProposer)
    (operation : Op) : Prop :=
  ∀ b, operation = .propose b → ∀ indices tokens totals, b.read = .ok (indices, tokens, totals) →
    b.requestIds.length ≤ indices.length → ∀ s1, s.depart b.o b.requestIds = some s1 →
    EachRow P tokens (entries b.requestIds indices totals) s1

/-- Two properties that agree under an invariant of the rows. -/
lemma EachRow.iff [F64] {P Q : V2SuffixProposer → Entry → List Token → Prop}
    {I : V2SuffixProposer → Prop} (hiff : ∀ s e buffer, I s → (P s e buffer ↔ Q s e buffer))
    (hrow : ∀ s rid total buffer out s', I s → s.row rid total buffer = some (out, s') → I s')
    (tokens : Grid) (batch : List Entry) {s : V2SuffixProposer} (h : I s) :
    EachRow P tokens batch s ↔ EachRow Q tokens batch s := by
  induction batch generalizing s with
  | nil => exact Iff.rfl
  | cons e batch ih =>
    refine forall_congr' fun _ => forall₂_congr fun buffer _ => ?_
    refine and_congr (hiff s e buffer h) (forall₂_congr fun out s' => ?_)
    exact imp_congr_right fun hout => ih (hrow s _ _ buffer out s' h hout)

/-! ## The tables with the gate on -/

/-- A proposer with the gate on: the last width of a gate is the published width of its request. -/
structure Gated (s : V2SuffixProposer) : Prop where
  cache : s.cache.Inv
  on : s.widthGate = true
  k_le : s.k ≤ 64
  last : ∀ id, (s.gate.lookup id).map (·.lastWidth) = s.widths.lookup id
  width_le : ∀ id w, s.widths.lookup id = some w → w ≤ s.k

lemma gated_empty (cfg : Config) {k : ℕ} (maxModelLen minLen : ℕ) (uniformK : Bool) (hk : 0 < k)
    (hk' : k ≤ 64) : (empty cfg k maxModelLen minLen uniformK true hk).Gated where
  cache := Cache.inv_new cfg
  on := rfl
  k_le := hk'
  last := fun id => by simp [empty]
  width_le := fun id w hw => by simp [empty] at hw

lemma Gated.depart {s s' : V2SuffixProposer} (h : s.Gated) {o : HashOrder ReqId} {ids : List ReqId}
    (hdepart : s.depart o ids = some s') : s'.Gated := by
  obtain ⟨cache, mirror, widths, gate, ingested, hrun, hc, _, _, _, _, hw, hg⟩ :=
    depart_spec h.cache o ids
  rw [hdepart] at hrun
  cases hrun
  refine ⟨hc, h.on, h.k_le, fun id => ?_, fun id w hlookup => ?_⟩
  · rw [hw, hg]
    split
    · rfl
    · exact h.last id
  · rw [hw] at hlookup
    split at hlookup
    · cases hlookup
    · exact h.width_le id w hlookup

section rows
variable [F64] {s s' : V2SuffixProposer}

/-- A row records the width that it publishes. -/
lemma rowOut_width_eq (s : V2SuffixProposer) (rid : ReqId) (total : ℕ) (buffer suffix : List Token) :
    (s.rowOut rid total buffer suffix).width
      = if s.uniformK then s.k else (s.suffixOf rid total buffer suffix).length := by
  unfold rowOut publish
  split <;> rfl

lemma Gated.afterRow (h : s.Gated) (rid : ReqId) (total : ℕ) (buffer : List Token)
    {suffix : List Token} (hle : suffix.length ≤ s.k) :
    (s.afterRow rid total buffer suffix).Gated where
  cache := h.cache
  on := h.on
  k_le := h.k_le
  last := fun id => by
    simp only [V2SuffixProposer.afterRow, h.on, if_true, Map.lookup_put, rowOut_width_eq]
    split
    · rfl
    · exact h.last id
  width_le := fun id w hw => by
    simp only [V2SuffixProposer.afterRow, Map.lookup_put, rowOut_width_eq] at hw ⊢
    split at hw
    case isTrue =>
      have hsuffix := s.suffixOf_length_le rid total buffer hle
      rw [← Option.some.inj hw]
      split
      · exact le_rfl
      · exact hsuffix
    case isFalse => exact h.width_le id w hw

lemma Gated.row (h : s.Gated) {rid : ReqId} {total : ℕ} {buffer : List Token} {out : SuffixRowOut}
    (hrow : s.row rid total buffer = some (out, s')) : s'.Gated := by
  obtain ⟨suffix, score, matched, _, hle, hrow'⟩ := row_spec h.cache rid total buffer
  rw [hrow] at hrow'
  cases hrow'
  exact h.afterRow rid total buffer hle

lemma RowSteps.gated {tokens : Grid} {batch : List Entry} {r : Except Raised (List SuffixRowOut)}
    (hsteps : RowSteps tokens batch s r s') (h : s.Gated) : s'.Gated := by
  induction hsteps with
  | nil | bounds _ | index _ => exact h
  | @row s s' e batch buffer suffix score matched r _ _ _ hle _ ih =>
    exact ih (h.afterRow e.rid e.total.toNat buffer hle)

/-- Every operation keeps the gates at the published widths. -/
lemma Gated.op (h : s.Gated) {operation : Op} (hop : s.op operation = some s') : s'.Gated := by
  cases operation with
  | propose b =>
    obtain ⟨out, hout, hexit⟩ := call_exit h.cache b
    rw [V2SuffixProposer.op, hout] at hop
    cases hop
    cases hexit with
    | rejected _ => exact h
    | failed _ _ hdepart hsteps => exact hsteps.gated (h.depart hdepart)
    | finished _ _ hdepart hsteps =>
      have hgated := hsteps.gated (h.depart hdepart)
      exact ⟨hgated.cache, hgated.on, hgated.k_le, hgated.last, hgated.width_le⟩
  | clearWidths =>
    cases hop
    obtain ⟨widths, gate, hcleared, hw, hg⟩ := clearWidths_spec s
    rw [hcleared]
    refine ⟨h.cache, h.on, h.k_le, fun id => ?_, fun id w hlookup => ?_⟩
    · rw [hw, hg, ← h.last]
      split
      case isTrue => cases s.gate.lookup id <;> rfl
      case isFalse hid =>
        have hnone := AList.lookup_eq_none.mpr hid
        rw [← h.last] at hnone
        rw [Option.map_eq_none_iff.mp hnone]
        rfl
    · rw [hw] at hlookup
      obtain ⟨_, _, rfl⟩ := Option.map_eq_some_iff.mp hlookup
      exact Nat.zero_le _
  | addSequence tokens =>
    obtain ⟨cache, hadd, hc, _⟩ := h.cache.add tokens
    rw [V2SuffixProposer.op, hadd] at hop
    cases hop
    exact ⟨hc, h.on, h.k_le, h.last, h.width_le⟩
  | addPrompt tokens =>
    obtain ⟨cache, hadd, hc, _⟩ := h.cache.addPrompt tokens
    rw [V2SuffixProposer.op, hadd] at hop
    cases hop
    exact ⟨hc, h.on, h.k_le, h.last, h.width_le⟩

end rows

/-! ## Full acceptance -/

/-- A row continues its mirror and has grown past the whole of its last published width. -/
structure GrowsPast (s : V2SuffixProposer) (e : Entry) (buffer : List Token) (w : ℕ) : Prop where
  pos : 0 < w
  published : s.widths.lookup e.rid = some w
  cont : s.cont e.rid e.total.toNat buffer = true
  grown : ∃ t, s.mirror.lookup e.rid = some t ∧ t.length + w + 1 ≤ e.total.toNat

/-- The row lowers no estimate, as far as it counts, if its last draft was accepted in full. -/
def KeepsEstimate [F64] (s : V2SuffixProposer) (e : Entry) (buffer : List Token) : Prop :=
  ∀ w g, GrowsPast s e buffer w → s.gate.lookup e.rid = some g →
    ∃ out s' g', s.row e.rid e.total.toNat buffer = some (out, s') ∧
      s'.gate.lookup e.rid = some g' ∧ min g.ewma s.k ≤ g'.ewma

/-- If the last draft of the row was accepted in full, it was at most one token shorter than the gate of
the row let through. -/
def FillsGate (s : V2SuffixProposer) (e : Entry) (buffer : List Token) : Prop :=
  ∀ w g, GrowsPast s e buffer w → s.gate.lookup e.rid = some g → s.gateWidth (some g) ≤ w + 1

/-- The gate of a row against a width. -/
lemma gateWidth_le_iff (s : V2SuffixProposer) (g : GateRow) {n : ℕ} (hn : 0 < n) :
    s.gateWidth (some g) ≤ n ↔ min g.ewma s.k ≤ n := by
  have hceil : F64.ceilUsize g.ewma ≤ n ↔ g.ewma ≤ n := by
    rw [F64.ceilUsize, Int.toNat_le, Int.ceil_le]
    norm_cast
  have hone : 1 ≤ n := hn
  rw [gateWidth, max_le_iff, and_iff_right hone, min_le_iff, min_le_iff, hceil, Nat.cast_le]

/-- A full acceptance puts the estimate to the published width and one. -/
lemma Gated.ewma_of_growsPast [F64] {s : V2SuffixProposer} (h : s.Gated) {e : Entry}
    {buffer : List Token} {w : ℕ} (hgrows : GrowsPast s e buffer w) {g : GateRow}
    (hg : s.gate.lookup e.rid = some g) :
    ∃ out s' g', s.row e.rid e.total.toNat buffer = some (out, s') ∧
      s'.gate.lookup e.rid = some g' ∧ g'.ewma = F64.ofNat (w + 1) := by
  obtain ⟨suffix, score, matched, _, _, hrow⟩ := row_spec h.cache e.rid e.total.toNat buffer
  obtain ⟨t, ht, hlong⟩ := hgrows.grown
  have hlast : g.lastWidth = w := by
    have hwidth := h.last e.rid
    rw [hg, hgrows.published] at hwidth
    exact Option.some.inj hwidth
  have htrained : s.trained e.rid e.total.toNat buffer
      = some { g with ewma := F64.ofNat (w + 1) } := by
    have hpos := hgrows.pos
    have hdelta : e.total.toNat - t.length ≥ 1 := by omega
    have hall : min (e.total.toNat - t.length - 1) w ≥ w := by omega
    simp [trained, hg, ht, train, hgrows.cont, hlast, hpos, hdelta, hall]
  refine ⟨_, _, s.recorded (s.trained e.rid e.total.toNat buffer)
    (s.suffixOf e.rid e.total.toNat buffer suffix).length, hrow, ?_, ?_⟩
  · simp only [V2SuffixProposer.afterRow, h.on, if_true, Map.lookup_put_self]
  · rw [htrained]
    rfl

/-- A row of a gated proposer keeps its estimate exactly if its last draft filled its gate. -/
lemma Gated.keepsEstimate_iff {s : V2SuffixProposer} (h : s.Gated) (e : Entry) (buffer : List Token) :
    s.KeepsEstimate e buffer ↔ s.FillsGate e buffer := by
  have hiff (w : ℕ) (g : GateRow) (hgrows : GrowsPast s e buffer w) :
      s.gateWidth (some g) ≤ w + 1 ↔ min g.ewma s.k ≤ F64.ofNat (w + 1) := by
    have hle := h.width_le e.rid w hgrows.published
    have hk := h.k_le
    have hexact : F64.ofNat (w + 1) = ((w + 1 : ℕ) : ℚ) := F64.ofNat_of_lt (by omega)
    rw [hexact, s.gateWidth_le_iff g (Nat.succ_pos w)]
  constructor
  · intro hkeeps w g hgrows hg
    obtain ⟨out, s', g', hrow, hg', hle⟩ := hkeeps w g hgrows hg
    obtain ⟨_, _, _, hrow', hg'', hewma⟩ := h.ewma_of_growsPast hgrows hg
    rw [hrow] at hrow'
    cases hrow'
    rw [hg'] at hg''
    cases hg''
    rw [hewma] at hle
    exact (hiff w g hgrows).mpr hle
  · intro hfills w g hgrows hg
    obtain ⟨out, s', g', hrow, hg', hewma⟩ := h.ewma_of_growsPast hgrows hg
    refine ⟨out, s', g', hrow, hg', ?_⟩
    rw [hewma]
    exact (hiff w g hgrows).mp (hfills w g hgrows hg)

/-- In a run of a new gated proposer every row whose last draft was accepted in full keeps its estimate,
exactly if every such draft was at most one token shorter than the gate of its row let through. -/
theorem gate_keeps_iff {cfg : Config} {k maxModelLen minLen : ℕ} {uniformK : Bool}
    {s : V2SuffixProposer} (hs : new cfg k maxModelLen minLen uniformK true = .ok s) (ops : List Op) :
    Lib.Along op (AtRows KeepsEstimate) s ops ↔ Lib.Along op (AtRows FillsGate) s ops := by
  have hgated : s.Gated := by
    unfold V2SuffixProposer.new at hs
    split at hs
    case isFalse => cases hs
    case isTrue hargs =>
      obtain rfl := Except.ok.inj hs
      exact gated_empty cfg maxModelLen minLen uniformK _ hargs.1.2
  refine Lib.Along.iff_of_inv (fun t operation ht => ⟨?_, fun _ t' hop => ht.op hop⟩) hgated ops
  refine forall₂_congr fun b _ => ?_
  refine forall_congr' fun indices => forall₂_congr fun tokens totals => ?_
  refine forall₂_congr fun _ _ => forall₂_congr fun s1 hdepart => ?_
  exact EachRow.iff (fun s e buffer h => h.keepsEstimate_iff e buffer)
    (fun s rid total buffer out s' h hrow => h.row hrow) tokens _ (ht.depart hdepart)

/-- A cached continuation of one token for a request with a gate of three. -/
def shortMatchOps : List Op := [.addSequence [1, 2, 3, 4, 5, 6], .propose (oneRow 5)]

/-- The run of the short continuation. -/
theorem gate_keeps_iff_short :
    Lib.Along op (AtRows KeepsEstimate)
        (empty (Config.ofN 1 Nat.one_pos) 3 100 1 false true three_pos) shortMatchOps ↔
      Lib.Along op (AtRows FillsGate)
        (empty (Config.ofN 1 Nat.one_pos) 3 100 1 false true three_pos) shortMatchOps :=
  gate_keeps_iff (show new (Config.ofN 1 Nat.one_pos) 3 100 1 false true
    = .ok (empty (Config.ofN 1 Nat.one_pos) 3 100 1 false true three_pos) from rfl) shortMatchOps

/-- The cache continues the request by one token only. The engine accepts it, and the estimate drops from
three to two. -/
theorem full_acceptance_narrows :
    ∃ s p s', Reachable s ∧ s.widthGate = true ∧
      s.proposeSuffixOnly (oneRow 7) = some (.ok p, s') ∧
      GrowsPast s ⟨"a", 0, 7⟩ [1, 2, 3, 4, 5, 6, 7, 8, 9] 1 ∧
      ∃ g g', s.gate.lookup "a" = some g ∧ s'.gate.lookup "a" = some g' ∧
        ¬ min g.ewma s.k ≤ g'.ewma := by
  have hview : ((Lib.run op (empty (Config.ofN 1 Nat.one_pos) 3 100 1 false true three_pos)
      shortMatchOps).bind fun s => (s.proposeSuffixOnly (oneRow 7)).map fun out =>
        (s.k, s.widthGate && out.1.toOption.isSome && s.cont "a" 7 [1, 2, 3, 4, 5, 6, 7, 8, 9],
          ((s.widths.lookup "a").any fun w : ℕ => w = 1) &&
            (s.mirror.lookup "a").any fun t : List Token => t = [1, 2, 3, 4, 5],
          ((s.gate.lookup "a").any fun g : GateRow => g.ewma = 3) &&
            (out.2.gate.lookup "a").any fun g : GateRow => g.ewma = 2))
      = some (3, true, true, true) := by
    with_unfolding_all decide
  obtain ⟨s, hrun, hout⟩ := Option.bind_eq_some_iff.mp hview
  obtain ⟨⟨r, s'⟩, hcall, heq⟩ := Option.map_eq_some_iff.mp hout
  simp only [Prod.mk.injEq, Bool.and_eq_true, Option.any_eq_true, decide_eq_true_eq] at heq
  obtain ⟨hk, ⟨⟨hon, hok⟩, hcont⟩, ⟨⟨_, hwidth, rfl⟩, _, hmirror, rfl⟩, ⟨g, hg, hthree⟩, g', hg', htwo⟩ :=
    heq
  have hnew : new (Config.ofN 1 Nat.one_pos) 3 100 1 false true
    = .ok (empty (Config.ofN 1 Nat.one_pos) 3 100 1 false true three_pos) := rfl
  cases r with
  | error e => cases hok
  | ok p =>
    refine ⟨s, p, s', ⟨_, _, _, _, _, _, _, shortMatchOps, hnew, hrun⟩, hon, hcall, ?_, g, g', hg, hg', ?_⟩
    · exact ⟨Nat.one_pos, hwidth, hcont, _, hmirror, by decide⟩
    · rw [hthree, htwo, hk]
      norm_num

end V2SuffixProposer
end SuffixHybrid
