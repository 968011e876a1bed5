import SuffixHybrid.Proposer.Row

/-!
# Calls that raise

A batch call donates the requests that left before it looks at a row, and it checks the bounds of a row
after it has run the rows before it. A call that raises therefore leaves the proposer as it was exactly
if there was nothing to do up to the bad row: no request left, and every row before it is `Idle`
(`call_atomic_iff`). What a row does is never undone by the rows after it (`Grows`).
-/

namespace SuffixHybrid
open Lib

namespace V2SuffixProposer

/-- The width that a row without a suffix publishes. -/
def quiet (s : V2SuffixProposer) : ℕ := if s.uniformK then s.k else 0

/-- A row that changes nothing: its request is mirrored as it stands and was published without a suffix,
the cache knows no continuation, and the gate has recorded as much. -/
structure Idle [F64] (s : V2SuffixProposer) (rid : ReqId) (total : ℕ) (buffer : List Token) : Prop where
  tracked : (s.mirror.lookup rid).map List.length = some total
  cont : s.cont rid total buffer = true
  misses : ∀ t suffix score matched, s.mirror.lookup rid = some t →
    s.cache.speculate t s.k = some (suffix, score, matched) → s.found suffix = []
  width : s.widths.lookup rid = some s.quiet
  gate : s.widthGate = true → (s.gate.lookup rid).map (·.lastWidth) = some s.quiet

/-- The rows before the first bad one are idle. -/
def Idles [F64] (s : V2SuffixProposer) (tokens : Grid) : List Entry → Prop
  | [] => True
  | e :: rest =>
    if s.outOfBounds tokens e then True
    else
      match tokens.rows[e.index]? with
      | none => True
      | some buffer => s.Idle e.rid e.total.toNat buffer ∧ s.Idles tokens rest

/-- A call that raises has nothing to do: its arguments are rejected, or no request left and the rows
before the bad one are idle. -/
def Untouched [F64] (s : V2SuffixProposer) (b : Batch) : Prop :=
  match b.read with
  | .error _ => True
  | .ok (indices, tokens, totals) =>
    indices.length < b.requestIds.length ∨
      (∀ id ∈ s.mirror, id ∈ b.requestIds) ∧ s.Idles tokens (entries b.requestIds indices totals)

/-! ## What rows do for good -/

/-- The marks of a row that later rows leave. Where no row hits, a request without a suffix keeps the
width of one, and where no row resets, no mirror becomes shorter. -/
structure Grows (s s' : V2SuffixProposer) : Prop where
  cache : s'.cache = s.cache
  quiet : s'.quiet = s.quiet
  hits : s.hits ≤ s'.hits
  resets : s.resets ≤ s'.resets
  mirror : s'.resets = s.resets → ∀ id t, s.mirror.lookup id = some t →
    ∃ t', s'.mirror.lookup id = some t' ∧ t.length ≤ t'.length
  widths : s'.hits = s.hits → ∀ id, s.widths.lookup id = some s.quiet →
    s'.widths.lookup id = some s.quiet
  gate : s'.hits = s.hits → ∀ id, (s.gate.lookup id).map (·.lastWidth) = some s.quiet →
    (s'.gate.lookup id).map (·.lastWidth) = some s.quiet

@[refl] lemma Grows.refl (s : V2SuffixProposer) : Grows s s :=
  ⟨rfl, rfl, le_rfl, le_rfl, fun _ _ t h => ⟨t, h, le_rfl⟩, fun _ _ h => h, fun _ _ h => h⟩

lemma Grows.trans {s t u : V2SuffixProposer} (h : Grows s t) (h' : Grows t u) : Grows s u where
  cache := h'.cache.trans h.cache
  quiet := h'.quiet.trans h.quiet
  hits := h.hits.trans h'.hits
  resets := h.resets.trans h'.resets
  mirror := fun heq id row hrow => by
    have hle := h.resets
    have hle' := h'.resets
    obtain ⟨row1, hrow1, hlen⟩ := h.mirror (by omega) id row hrow
    obtain ⟨row2, hrow2, hlen'⟩ := h'.mirror (by omega) id row1 hrow1
    exact ⟨row2, hrow2, hlen.trans hlen'⟩
  widths := fun heq id hw => by
    have hle := h.hits
    have hle' := h'.hits
    have hw1 := h.widths (by omega) id hw
    rw [← h.quiet] at hw1 ⊢
    exact h'.widths (by omega) id hw1
  gate := fun heq id hg => by
    have hle := h.hits
    have hle' := h'.hits
    have hg1 := h.gate (by omega) id hg
    rw [← h.quiet] at hg1 ⊢
    exact h'.gate (by omega) id hg1

section rows
variable {s : V2SuffixProposer} {rid : ReqId} {total : ℕ} {buffer suffix : List Token}

lemma length_mirrored (hbuffer : total ≤ buffer.length) :
    (s.mirrored rid total buffer).length = total := by
  unfold mirrored
  split
  case h_1 t hrow =>
    split
    case isTrue hcont =>
      rw [cont, hrow, Option.any_some] at hcont
      have hle := continues_length hcont
      rw [List.length_append, List.length_take, List.length_drop]
      omega
    case isFalse =>
      rw [List.length_take]
      omega
  case h_2 =>
    rw [List.length_take]
    omega

lemma mirrored_of_tracked {t : List Token} (ht : s.mirror.lookup rid = some t)
    (hcont : s.cont rid total buffer = true) (hlen : t.length = total) :
    s.mirrored rid total buffer = t := by
  unfold mirrored
  rw [ht]
  dsimp only
  rw [if_pos hcont, hlen, Nat.sub_self, List.take_zero, List.append_nil]

variable [F64]

/-- The width of a row without a suffix. -/
lemma rowOut_width (h : s.suffixOf rid total buffer suffix = []) :
    (s.rowOut rid total buffer suffix).width = s.quiet := by
  unfold rowOut publish V2SuffixProposer.quiet
  rw [h]
  split <;> rfl

lemma recorded_lastWidth (g : Option GateRow) : (s.recorded g 0).lastWidth = s.quiet := rfl

/-- A row that counts no hit has no suffix. -/
lemma suffixOf_eq_nil (h : (s.afterRow rid total buffer suffix).hits = s.hits) :
    s.suffixOf rid total buffer suffix = [] := by
  by_contra hne
  have hpos := List.length_pos_of_ne_nil hne
  simp only [afterRow, if_pos hpos] at h
  omega

/-- A row leaves its marks. -/
lemma grows_afterRow : Grows s (s.afterRow rid total buffer suffix) where
  cache := rfl
  quiet := rfl
  hits := Nat.le_add_right _ _
  resets := Nat.le_add_right _ _
  mirror := fun heq id t ht => by
    have hkept : ((s.mirror.lookup rid).isSome && !s.cont rid total buffer) = false := by
      by_contra hreset
      rw [Bool.not_eq_false] at hreset
      simp only [afterRow, hreset, if_true] at heq
      omega
    simp only [afterRow, Map.lookup_put]
    split
    case isTrue hid =>
      subst hid
      rw [ht, Option.isSome_some, Bool.true_and, Bool.not_eq_false'] at hkept
      refine ⟨_, rfl, ?_⟩
      unfold mirrored
      rw [ht]
      dsimp only
      rw [if_pos hkept, List.length_append]
      omega
    case isFalse => exact ⟨t, ht, le_rfl⟩
  widths := fun heq id hw => by
    simp only [afterRow, Map.lookup_put]
    split
    case isTrue => rw [rowOut_width (suffixOf_eq_nil heq)]
    case isFalse => exact hw
  gate := fun heq id hg => by
    simp only [afterRow]
    split
    case isTrue =>
      rw [Map.lookup_put]
      split
      case isTrue => rw [suffixOf_eq_nil heq, Option.map_some, List.length_nil, recorded_lastWidth]
      case isFalse => exact hg
    case isFalse => exact hg

/-- An idle row leaves the proposer as it is. -/
lemma Idle.afterRow (h : s.Idle rid total buffer) {score : ℚ} {matched : ℕ}
    (hspec : s.cache.speculate (s.mirrored rid total buffer) s.k = some (suffix, score, matched)) :
    s.afterRow rid total buffer suffix = s := by
  obtain ⟨t, ht, hlen⟩ := Option.map_eq_some_iff.mp h.tracked
  have hmirrored := mirrored_of_tracked ht h.cont hlen
  have hsuffix : s.suffixOf rid total buffer suffix = [] := by
    rw [suffixOf, (s.narrowed_prefix _ _).2]
    rw [hmirrored] at hspec
    exact h.misses t suffix score matched ht hspec
  have hgate : (if s.widthGate then s.gate.put rid (s.recorded (s.trained rid total buffer) 0)
      else s.gate) = s.gate := by
    split
    case isTrue hon =>
      obtain ⟨g, hg, hlast⟩ := Option.map_eq_some_iff.mp (h.gate hon)
      -- the mirror has not grown, so there is no feedback
      have htrain : train (s.cont rid total buffer) (some total) total g = g := by
        unfold train
        split
        · simp
        · rfl
      have hsame : s.recorded (s.trained rid total buffer) 0 = g := by
        rw [trained, hg, ht, Option.map_some, Option.map_some, hlen, htrain]
        calc s.recorded (some g) 0 = ⟨g.ewma, s.quiet⟩ := rfl
          _ = g := by rw [← hlast]
      rw [hsame]
      exact Map.put_of_lookup hg
    case isFalse => rfl
  rw [V2SuffixProposer.afterRow, rowOut_width hsuffix, hsuffix, hmirrored, Map.put_of_lookup ht,
    Map.put_of_lookup h.width, List.length_nil, hgate, h.cont]
  simp

/-- A row whose marks were there before is idle. -/
lemma idle_of_grows (h : Grows (s.afterRow rid total buffer suffix) s) {score : ℚ} {matched : ℕ}
    (hspec : s.cache.speculate (s.mirrored rid total buffer) s.k = some (suffix, score, matched))
    (hbuffer : total ≤ buffer.length) : s.Idle rid total buffer := by
  have hhits := le_antisymm h.hits (Nat.le_add_right _ _)
  have hresets := le_antisymm h.resets (Nat.le_add_right _ _)
  have hsuffix := suffixOf_eq_nil hhits
  obtain ⟨t, ht, hlen⟩ := h.mirror hresets.symm rid (s.mirrored rid total buffer)
    (by rw [afterRow, Map.lookup_put_self])
  rw [length_mirrored hbuffer] at hlen
  have hcont : s.cont rid total buffer = true := by
    by_contra hreset
    rw [Bool.not_eq_true] at hreset
    simp only [afterRow, ht, hreset, Option.isSome_some, Bool.not_false, Bool.and_true, if_true]
      at hresets
    omega
  have hle : t.length ≤ total := by
    have hproof := hcont
    rw [V2SuffixProposer.cont, ht, Option.any_some] at hproof
    exact continues_length hproof
  have htotal := le_antisymm hle hlen
  exact {
    tracked := by rw [ht, Option.map_some, htotal]
    cont := hcont
    misses := fun t' suffix' score' matched' ht' hspec' => by
      obtain rfl := Option.some.inj (ht.symm.trans ht')
      rw [mirrored_of_tracked ht hcont htotal, hspec'] at hspec
      cases hspec
      exact (s.narrowed_prefix _ _).2.mp hsuffix
    width := by
      apply h.widths hhits.symm
      rw [afterRow, Map.lookup_put_self, rowOut_width hsuffix]
      rfl
    gate := fun hon => by
      apply h.gate hhits.symm
      rw [afterRow, if_pos hon, Map.lookup_put_self, hsuffix]
      rfl }

/-- The row loop ends. It leaves its marks, and the mirrors of the other requests. -/
lemma rows_grows (hinv : s.cache.Inv) (tokens : Grid) (batch : List Entry) :
    ∃ r s', rows tokens batch s = some (r, s') ∧ Grows s s' ∧
      ∀ id, id ∉ batch.map (·.rid) → s'.mirror.lookup id = s.mirror.lookup id := by
  induction batch generalizing s with
  | nil => exact ⟨_, s, rfl, .refl s, fun _ _ => rfl⟩
  | cons e batch ih =>
    rw [rows]
    by_cases hbad : s.outOfBounds tokens e = true
    · rw [if_pos hbad]
      exact ⟨_, s, rfl, .refl s, fun _ _ => rfl⟩
    · rw [if_neg hbad]
      cases tokens.rows[e.index]? with
      | none => exact ⟨_, s, rfl, .refl s, fun _ _ => rfl⟩
      | some buffer =>
        obtain ⟨suffix, score, matched, _, _, hrow⟩ := row_spec hinv e.rid e.total.toNat buffer
        obtain ⟨r, s', hrest, hgrows, hframe⟩ :=
          ih (s := s.afterRow e.rid e.total.toNat buffer suffix) hinv
        simp only [hrow, hrest, Option.bind_eq_bind, Option.bind_some]
        refine ⟨_, s', rfl, grows_afterRow.trans hgrows, fun id hid => ?_⟩
        rw [List.map_cons, List.mem_cons, not_or] at hid
        rw [hframe id hid.2, afterRow]
        exact Map.lookup_put_ne _ _ hid.1

/-- A row loop that raises leaves the proposer as it is exactly if the rows before the bad one are
idle. -/
lemma rows_atomic_iff (hinv : s.cache.Inv) {tokens : Grid} {batch : List Entry} {e : Raised}
    {s' : V2SuffixProposer} (h : rows tokens batch s = some (.error e, s')) :
    s' = s ↔ s.Idles tokens batch := by
  induction batch generalizing e with
  | nil => cases h
  | cons entry batch ih =>
    rw [rows] at h
    rw [Idles]
    by_cases hbad : s.outOfBounds tokens entry = true
    · rw [if_pos hbad] at h ⊢
      cases h
      exact iff_of_true rfl trivial
    · rw [if_neg hbad] at h ⊢
      cases hbuffer : tokens.rows[entry.index]? with
      | none =>
        rw [hbuffer] at h
        cases h
        exact iff_of_true rfl trivial
      | some buffer =>
        obtain ⟨suffix, score, matched, hspec, _, hrow⟩ :=
          row_spec hinv entry.rid entry.total.toNat buffer
        obtain ⟨r, s1, hrest, hgrows, _⟩ :=
          rows_grows (s := s.afterRow entry.rid entry.total.toNat buffer suffix) hinv tokens batch
        simp only [hbuffer, hrow, hrest, Option.bind_eq_bind, Option.bind_some, Option.some.injEq,
          Prod.mk.injEq] at h
        obtain ⟨hr, rfl⟩ := h
        obtain rfl : r = .error e := by
          cases r with
          | error e' => exact hr
          | ok outs => cases hr
        have hfits : entry.total.toNat ≤ buffer.length := by
          rw [tokens.rect buffer (List.mem_of_getElem? hbuffer)]
          simp only [outOfBounds, Bool.or_eq_true, decide_eq_true_eq, not_or] at hbad
          omega
        dsimp only
        constructor
        · intro hsame
          rw [hsame] at hgrows
          have hidle := idle_of_grows hgrows hspec hfits
          rw [hidle.afterRow hspec] at hrest
          exact ⟨hidle, (ih hrest).mp hsame⟩
        · rintro ⟨hidle, hidles⟩
          rw [hidle.afterRow hspec] at hrest
          exact (ih hrest).mpr hidles

end rows

/-! ## Calls -/

section calls
variable [F64] {s : V2SuffixProposer}

/-- A call keeps the index of the cache. -/
lemma proposeSuffixOnly_inv (hinv : s.cache.Inv) (b : Batch) :
    ∃ out, s.proposeSuffixOnly b = some out ∧ out.2.cache.Inv := by
  unfold proposeSuffixOnly
  cases b.read with
  | error e => exact ⟨_, rfl, hinv⟩
  | ok args =>
    obtain ⟨indices, tokens, totals⟩ := args
    simp only [run]
    split
    case isTrue => exact ⟨_, rfl, hinv⟩
    case isFalse =>
      obtain ⟨cache, mirror, widths, gate, ingested, hdepart, hc, _⟩ :=
        depart_spec hinv b.o b.requestIds
      obtain ⟨r, s', hrows, hgrows, _⟩ := rows_grows
        (s := { s with cache, mirror, widths, gate, ingested }) hc tokens
        (entries b.requestIds indices totals)
      have hc' : s'.cache.Inv := hgrows.cache ▸ hc
      simp only [hdepart, hrows, Option.bind_eq_bind, Option.bind_some]
      cases r with
      | error e => exact ⟨_, rfl, hc'⟩
      | ok outs => exact ⟨_, rfl, hc'⟩

/-- Every operation ends and keeps the cache. -/
lemma op_total (hinv : s.cache.Inv) (operation : Op) :
    ∃ s', s.op operation = some s' ∧ s'.cache.Inv := by
  cases operation with
  | propose b =>
    obtain ⟨out, hout, hc⟩ := proposeSuffixOnly_inv hinv b
    exact ⟨out.2, by rw [op, hout, Option.map_some], hc⟩
  | clearWidths =>
    obtain ⟨widths, gate, hcleared, _⟩ := clearWidths_spec s
    exact ⟨_, congrArg some hcleared, hinv⟩
  | addSequence tokens =>
    obtain ⟨cache, hcache, hc, _⟩ := hinv.add tokens
    exact ⟨{ s with cache }, by rw [op, hcache, Option.map_some], hc⟩
  | addPrompt tokens =>
    obtain ⟨cache, hcache, hc, _⟩ := hinv.addPrompt tokens
    exact ⟨{ s with cache }, by rw [op, hcache, Option.map_some], hc⟩

lemma Reachable.inv (h : Reachable s) : s.cache.Inv := by
  obtain ⟨cfg, k, maxModelLen, minLen, uniformK, widthGate, s0, ops, hnew, hrun⟩ := h
  have h0 : s0.cache.Inv := by
    unfold new at hnew
    split at hnew
    · cases hnew
      exact Cache.inv_new cfg
    · cases hnew
  obtain ⟨s', hrun', hinv⟩ := run_total (fun s operation hs => op_total hs operation) h0 ops
  obtain rfl : s' = s := Option.some.inj (hrun'.symm.trans hrun)
  exact hinv

end calls

lemma mem_rids_entries {ids : List ReqId} {indices : List ℕ} {totals : List ℤ} {id : ReqId}
    (h : id ∈ (entries ids indices totals).map (·.rid)) : id ∈ ids := by
  rw [entries, List.map_map] at h
  obtain ⟨⟨rid, args⟩, hmem, rfl⟩ := List.mem_map.mp h
  exact (List.of_mem_zip hmem).1

/-- A call that raises on a reachable proposer leaves it exactly as it was if and only if the arguments
were rejected before the work began, or no mirrored request left and the rows before the bad one are
idle. -/
theorem call_atomic_iff [F64] {s s' : V2SuffixProposer} (hs : Reachable s) {b : Batch} {e : Raised}
    (h : s.proposeSuffixOnly b = some (.error e, s')) : s' = s ↔ s.Untouched b := by
  unfold proposeSuffixOnly at h
  unfold Untouched
  cases hread : b.read with
  | error e' =>
    rw [hread] at h
    cases h
    exact iff_of_true rfl trivial
  | ok args =>
    obtain ⟨indices, tokens, totals⟩ := args
    simp only [hread, run] at h
    dsimp only
    by_cases hdim : indices.length < b.requestIds.length
    · rw [if_pos hdim] at h
      cases h
      exact iff_of_true rfl (Or.inl hdim)
    · rw [if_neg hdim] at h
      rw [or_iff_right hdim]
      obtain ⟨cache, mirror, widths, gate, ingested, hdepart, hc, _, _, _, hm, _⟩ :=
        depart_spec hs.inv b.o b.requestIds
      obtain ⟨r, s1, hrows, hgrows, hframe⟩ := rows_grows
        (s := { s with cache, mirror, widths, gate, ingested }) hc tokens
        (entries b.requestIds indices totals)
      simp only [hdepart, hrows, Option.bind_eq_bind, Option.bind_some] at h
      obtain ⟨rfl, rfl⟩ : r = .error e ∧ s1 = s' := by
        cases r with
        | error e' =>
          cases h
          exact ⟨rfl, rfl⟩
        | ok outs => cases h
      by_cases hleft : ∀ id ∈ s.mirror, id ∈ b.requestIds
      · have hgone : s.gone b.o b.requestIds = [] := by
          apply List.eq_nil_iff_forall_not_mem.mpr
          intro id hid
          exact (mem_gone.mp hid).2 (hleft id (mem_gone.mp hid).1)
        have hstay : s.depart b.o b.requestIds = some s := by rw [depart, hgone, run_nil]
        rw [hstay, Option.some.injEq] at hdepart
        rw [← hdepart] at hrows
        rw [and_iff_right hleft]
        exact rows_atomic_iff hs.inv hrows
      · refine iff_of_false (fun hsame => ?_) (fun hidle => hleft hidle.1)
        push Not at hleft
        obtain ⟨id, hid, habsent⟩ := hleft
        have hlost := hframe id fun hmem => habsent (mem_rids_entries hmem)
        rw [hsame] at hlost
        simp only [hm, if_neg habsent] at hlost
        exact AList.lookup_eq_none.mp hlost hid

lemma three_pos : 0 < 3 := Nat.succ_pos 2

lemma nine_columns : ∀ row ∈ [[1, 2, 3, 4, 5, 6, 7, 8, (9 : Token)]], row.length = 9 := by decide

/-- A proposer that has published one request without a suffix. -/
def watched (row : List Token) : V2SuffixProposer :=
  { empty (Config.ofN 1 Nat.one_pos) 3 100 1 false false three_pos with
    mirror := (∅ : Map ReqId (List Token)).put "a" row
    widths := (∅ : Map ReqId ℕ).put "a" 0
    steps := 1 }

/-- A batch of two requests, of which the second one exceeds the token buffer. -/
def secondBad (first : ReqId) : Batch where
  o := HashOrder.stored ReqId
  requestIds := [first, "b"]
  indices := some [0, 0]
  totals := some [2, 10]
  tokens := .i64 true ⟨9, [[1, 2, 3, 4, 5, 6, 7, 8, 9]], nine_columns⟩

/-- The row before the bad one repeats the step before, so the call leaves the proposer as it is. -/
theorem call_atomic_iff_watched :
    ∃ e s', (watched [1, 2]).proposeSuffixOnly (secondBad "a") = some (.error e, s') ∧
      s' = watched [1, 2] := by
  have hreach : Reachable (watched [1, 2]) :=
    ⟨_, _, _, _, _, _, _, [.propose (oneRow 2)],
      show new (Config.ofN 1 (by decide)) 3 100 1 false false = .ok _ from rfl, rfl⟩
  have hidle : (watched [1, 2]).Idle "a" 2 [1, 2, 3, 4, 5, 6, 7, 8, 9] := {
    tracked := rfl
    cont := rfl
    misses := fun t suffix score matched ht hspec => by
      cases ht
      cases hspec
      rfl
    width := rfl
    gate := nofun }
  have herr : ∃ e s', (watched [1, 2]).proposeSuffixOnly (secondBad "a") = some (.error e, s') :=
    ⟨_, _, rfl⟩
  obtain ⟨e, s', h⟩ := herr
  refine ⟨e, s', h, (call_atomic_iff hreach h).mpr (Or.inr ⟨?_, hidle, trivial⟩)⟩
  decide

/-- A request has left when another one is rejected: its history is donated and forgotten, although the
call raises. -/
theorem raising_call_departs : ¬ ∀ (s s' : V2SuffixProposer) (b : Batch) (e : Raised), Reachable s →
    s.proposeSuffixOnly b = some (.error e, s') → s' = s := by
  intro hatomic
  have hreach : Reachable (watched [1, 2, 3, 4, 5, 6, 7, 8, 9]) :=
    ⟨_, _, _, _, _, _, _, [.propose (oneRow 9)],
      show new (Config.ofN 1 (by decide)) 3 100 1 false false = .ok _ from rfl, rfl⟩
  obtain ⟨⟨r, s'⟩, hout, _⟩ := proposeSuffixOnly_inv hreach.inv (secondBad "c")
  have hcall : ((watched [1, 2, 3, 4, 5, 6, 7, 8, 9]).proposeSuffixOnly (secondBad "c")).map
      (fun out => (out.1.toOption.isSome, out.2.ingested)) = some (false, 1) := by
    with_unfolding_all decide
  rw [hout, Option.map_some, Option.some.injEq, Prod.mk.injEq] at hcall
  cases r with
  | ok p => cases hcall.1
  | error e =>
    rw [hatomic _ _ _ _ hreach hout] at hcall
    have hnone : (watched [1, 2, 3, 4, 5, 6, 7, 8, 9]).ingested = 0 := rfl
    exact absurd (hnone.symm.trans hcall.2) (by decide)

end V2SuffixProposer
end SuffixHybrid
