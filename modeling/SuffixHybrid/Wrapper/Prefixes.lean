import SuffixHybrid.Wrapper.Authority

/-!
# The mirror and the authoritative rows

Along a run whose absorbs extend the mirror only from windows that reach as far as the counts (`Calm`), the
mirror rows are prefixes of the authoritative rows, and what the mixes read of a request never shrinks. The
mixer never resets a request that it tracks, and it donates the histories of departed requests only
(`mirror_keeps_prefixes`). A count that is copied a step later than its window does reach beyond the tokens
in the window, and the mirror takes in the padding behind them (`late_count_misread`).
-/

namespace SuffixHybrid
open Lib

namespace Device

/-- What the mix of the fast body adds to the cache. -/
def adds [F64] (cfg : WrapSettings) (d : Device) (x : Tick) : Option (List (List Token)) :=
  let s := d.drained cfg x
  s.mixer.callAdds x.order x.ids (.numpy (.i64 (s.mirrorCounts x.ids)) (.i64 true (s.mirrorGrid x.ids)))
    (d.step x).native (some (s.fastFeedback cfg (d.step x)))

/-- After every absorb and every enqueue of the step, the mirror rows are prefixes of the authoritative
rows. The mix continues every request of the batch that the mixer tracks, and the cache is fed with the
contexts of tracked requests that have left the batch only. -/
structure KeepsPrefixes [F64] (a : Authority) (cfg : WrapSettings) (d : Device) (x : Tick) : Prop where
  prepared : d.stages cfg x = true → ∀ id row, (d.prepared cfg x).mirror.lookup id = some row →
    a.Mirrors d.time id row
  drained : d.stages cfg x = true → ∀ id row, (d.drained cfg x).mirror.lookup id = some row →
    a.Mirrors d.time id row
  continues : d.MixesFast cfg x → ∀ id ∈ x.ids, ∀ p,
    (d.drained cfg x).mixer.previous.lookup id = some p →
      classify boundaryMatches ((d.drained cfg x).mirrorRow id) (some p.context)
        = some (.continuing, ((d.drained cfg x).mirrorRow id).drop p.context.length)
  donates : d.MixesFast cfg x → ∃ adds, d.adds cfg x = some adds ∧ ∀ seq ∈ adds, seq ≠ [] →
    ∃ id p, id ∉ x.ids ∧ (d.drained cfg x).mixer.previous.lookup id = some p ∧ seq = p.context

/-- The contexts that a run of steps hands to the mixer for a request that is in every batch never
shrink. -/
def ContextsGrow [F64] (cfg : WrapSettings) (start : Device) (xs : List Tick) : Prop :=
  ∀ before x between y after d d', xs = before ++ x :: between ++ y :: after →
    run (next cfg) start before = some d → run (next cfg) start (before ++ x :: between) = some d' →
    d.MixesFast cfg x → d'.MixesFast cfg y → ∀ id ∈ x.ids, (∀ z ∈ between, id ∈ z.ids) → id ∈ y.ids →
      (d.drained cfg x).mirrorRow id <+: (d'.drained cfg y).mirrorRow id

section
variable {cfg : WrapSettings} {K : ℕ} {a : Authority} {d : Device} {x : Tick} {id : ReqId}

lemma drained_mixer (cfg : WrapSettings) (d : Device) (x : Tick) :
    (d.drained cfg x).mixer = d.wrapper.mixer :=
  (Wrapper.shared_eq ((Wrapper.shared_drain cfg _ _).trans (Wrapper.shared_prepare cfg _ _))).1

/-- The mixer is not ahead of the mirror rows that a mix reads. -/
lemma Hands.tracked (hands : Hands a cfg d x) (h : d.Mirrored cfg K a)
    (hfallback : d.wrapper.fallback = false) (hid : id ∈ x.ids) {p : Previous}
    (hp : (d.drained cfg x).mixer.previous.lookup id = some p) :
    p.context <+: (d.drained cfg x).mirrorRow id := by
  rw [drained_mixer] at hp
  obtain ⟨hctx, hle⟩ := h.tracked hfallback id p hp
  exact hands.advances id hid p.context hctx hle

/-- The mirror rows that a mix leaves are those that it has read. -/
lemma mirrorRow_of_lookup {s : Wrapper} {row : List Token} (hrow : s.mirror.lookup id = some row) :
    s.mirrorRow id = row := by
  rw [Wrapper.mirrorRow, hrow, Option.getD_some]

/-- The rows that a mix reads are not behind the mirror. -/
lemma Hands.advances_mirrorRow (hands : Hands a cfg d x) (h : d.Mirrored cfg K a) (hid : id ∈ x.ids) :
    d.wrapper.mirrorRow id <+: (d.drained cfg x).mirrorRow id := by
  cases hrow : d.wrapper.mirror.lookup id with
  | none =>
    rw [Wrapper.mirrorRow, hrow]
    exact List.nil_prefix
  | some row =>
    rw [mirrorRow_of_lookup hrow]
    refine hands.advances id hid row (h.rows id row hrow) fun row' hrow' => ?_
    rw [hrow] at hrow'
    exact (congrArg List.length (Option.some.inj hrow')).le

section mix
variable [F64]

/-- A step that leaves the fast body in use keeps the mixer, or it is a mix of the mirror rows. -/
lemma propose_mixer (hc : cfg.OnCuda) {out : StepOut} (h : d.wrapper.propose cfg (d.step x) = some out)
    (hfallback : out.state.fallback = false) : d.wrapper.fallback = false ∧
      (out.state.mixer = d.wrapper.mixer ∨ d.stages cfg x = true ∧
        ∃ drafts, (d.drained cfg x).fastMix cfg (d.step x) = some (.ok drafts, out.state.mixer)) := by
  unfold Wrapper.propose at h
  split at h
  case isFalse htries =>
    rw [(Wrapper.syncOrNative_frame h).2] at hfallback
    exact absurd (by rw [Wrapper.triesFast, hfallback]; rfl) htries
  case isTrue htries =>
    have hfast : d.wrapper.fallback = false := by
      simp only [Wrapper.triesFast, Bool.and_eq_true, Bool.not_eq_true'] at htries
      exact htries.1
    refine ⟨hfast, ?_⟩
    split at h
    case h_1 => cases h
    case h_2 body hbody =>
      split at h
      case h_2 =>
        obtain ⟨o, ho, rfl⟩ := Option.map_eq_some_iff.mp h
        rw [(Wrapper.syncOrNative_frame ho).2] at hfallback
        cases hfallback
      case h_1 draft hdraft =>
        cases h
        have hmixer : (d.prepared cfg x).mixer = d.wrapper.mixer :=
          (Wrapper.shared_eq (Wrapper.shared_prepare cfg d.wrapper (d.step x))).1
        have hskip (s : Wrapper) : (s.skip cfg (d.step x)).state.mixer = s.mixer := rfl
        cases Wrapper.fastBody_exit hc (fun _ => rfl) hbody with
        | frozen _ hout => exact Or.inl (by rw [hout, hskip])
        | skipped _ _ hout => exact Or.inl (by rw [hout, hskip]; exact hmixer)
        | mixed hfreezes _ hmix =>
          refine Or.inr ⟨?_, Wrapper.mixAndPublish_ok hmix hdraft⟩
          rw [stages, hc.owner_true, htries, hfreezes]
          rfl

/-- A mix of the mirror rows donates the contexts of departed requests and tracks the mirror rows. -/
lemma Hands.mixed (hands : Hands a cfg d x) (h : d.Mirrored cfg K a)
    (hfallback : d.wrapper.fallback = false) {drafts : Draft} {m : HybridMixer}
    (hmix : (d.drained cfg x).fastMix cfg (d.step x) = some (.ok drafts, m)) :
    (∃ adds, d.adds cfg x = some adds ∧ ∀ seq ∈ adds, seq ≠ [] → ∃ id p, id ∉ x.ids ∧
      (d.drained cfg x).mixer.previous.lookup id = some p ∧ seq = p.context) ∧
      ∀ id p, m.previous.lookup id = some p → id ∈ x.ids ∧
        p.context = (d.drained cfg x).mirrorRow id := by
  have hinv : (d.drained cfg x).mixer.Inv := by
    rw [drained_mixer]
    exact h.mixer
  rw [Wrapper.fastMix, step_ids] at hmix
  have hcall : (d.drained cfg x).mixer.call x.order x.ids (.numpy
      (.i64 ((d.drained cfg x).mirrorCounts x.ids)) (.i64 true ((d.drained cfg x).mirrorGrid x.ids)))
      (d.step x).native (some ((d.drained cfg x).fastFeedback cfg (d.step x))) = some (.ok drafts, m) :=
    hmix
  obtain ⟨hadds, htracks⟩ := HybridMixer.call_extended hinv hcall fun i id row p hid hrow hp => by
      rw [Wrapper.rows_mirror, List.getElem?_map, hid, Option.map_some] at hrow
      cases hrow
      exact hands.tracked h hfallback (List.mem_of_getElem? hid) hp
  refine ⟨hadds, fun id p hp => ?_⟩
  obtain ⟨i, hid, hrow⟩ := htracks id p hp
  rw [Wrapper.rows_mirror, List.getElem?_map, hid, Option.map_some] at hrow
  exact ⟨List.mem_of_getElem? hid, (Option.some.inj hrow).symm⟩

end mix

/-- What a map by position does not depend on. -/
lemma map_mapIdx {α β γ : Type} {f : ℕ → α → β} {g : β → γ} {g' : α → γ} (h : ∀ i a, g (f i a) = g' a)
    (l : List α) : (l.mapIdx f).map g = l.map g' := by
  apply List.ext_getElem?
  intro i
  simp only [List.getElem?_map, List.getElem?_mapIdx, Option.map_map]
  cases l[i]? with
  | none => rfl
  | some e => exact congrArg some (h i e)

/-- The copies of a step are those of its batch. -/
lemma enqueue_ids (cfg : WrapSettings) (d : Device) (x : Tick) :
    (d.enqueue cfg x).map (·.id) = x.ids := by
  apply map_mapIdx
  exact fun _ _ => rfl

lemma arrive_ids (d : Device) (x : Tick) : (d.arrive x).map (·.id) = d.copies.map (·.id) := by
  apply map_mapIdx
  exact fun _ _ => rfl

/-! ## The invariant along a run -/

/-- The copies that a legacy step leaves under way are those of its batch. -/
lemma Hands.staged (hands : Hands a cfg d x) (hc : cfg.Async) (h : d.Mirrored cfg K a)
    (hx : d.Faithful a x) (hcalm : d.Calm cfg x) (hstages : d.stages cfg x = true) {s : Wrapper}
    (hkept : s.kept = (d.drained cfg x).kept) : (d.advance cfg x s).Staged := by
  obtain ⟨hmirror, _, hpending⟩ := Wrapper.kept_eq hkept
  have hdrained : d.drained cfg x = d.prepared cfg x := Wrapper.drain_legacy hc.legacy _ _
  rw [advance, if_pos hstages]
  exact {
    pending := by
      dsimp only
      rw [hpending, hdrained, Device.prepared, (Wrapper.prepare_kept hc.cuda _ _).2, step_ids, enqueue_ids]
      rfl
    nodup := by
      dsimp only
      rw [enqueue_ids]
      exact hx.nodup
    copied := fun id row hrow => by
      dsimp only at hrow ⊢
      rw [enqueue_ids]
      exact hands.drained id row (hmirror ▸ hrow)
    starts := fun c hcopy => by
      obtain ⟨i, hi, rfl⟩ := List.mem_mapIdx.mp hcopy
      obtain ⟨row', hrow', _⟩ := prepared_row hc h hx hcalm hstages
        (List.mem_map_of_mem (List.getElem_mem hi))
      refine ⟨row', by rw [hmirror, hdrained]; exact hrow', ?_⟩
      simp only [Copy.land, hrow', Option.getD_some] }

/-- A step of the divergence split leaves nothing under way. -/
lemma drained_upToDate (hc : cfg.OnCuda) (hdiverge : cfg.splitDiverge = true) (h : d.Mirrored cfg K a)
    (hx : d.Faithful a x) (hpace : d.Paced K a x) (hands : Hands a cfg d x)
    (hfallback : d.wrapper.fallback = false) (hstages : d.stages cfg x = true) {s : Wrapper}
    (hkept : s.kept = (d.drained cfg x).kept) : (d.advance cfg x s).UpToDate K a := by
  obtain ⟨hmirror, hw, hpending⟩ := Wrapper.kept_eq hkept
  have habsorb (s : Wrapper) (b : Staging) :
      (s.absorbPending b).pending = none ∧ (s.absorbPending b).w = s.w := by
    unfold Wrapper.absorbPending
    cases hpending : s.pending with
    | none => exact ⟨hpending, rfl⟩
    | some ids => exact ⟨rfl, rfl⟩
  have hdrained : (d.drained cfg x).pending = none ∧ (d.drained cfg x).w = (d.prepared cfg x).w := by
    rw [drained, Wrapper.drain, if_pos hdiverge]
    exact habsorb _ _
  rw [advance, if_pos hstages]
  exact {
    pending := by
      dsimp only
      rw [hpending]
      exact hdrained.1
    window := by
      dsimp only
      rw [hw, hdrained.2, prepared, (Wrapper.prepare_kept hc.cuda _ _).1]
      have hk : (d.step x).k = K := hpace.width
      have hwide := (h.diverge hdiverge).window
      split
      case isTrue => rw [hk]; omega
      case isFalse => exact hwide
    rows := fun _ id row hrow => by
      dsimp only at hrow ⊢
      rw [hmirror] at hrow
      have hid := hands.drained id row hrow
      rw [drained_row hc hdiverge h hx hpace hfallback hid] at hrow
      split at hrow
      case isTrue => cases hrow
      case isFalse =>
        cases hrow
        rw [Nat.add_sub_cancel, hx.length_row hid le_rfl] }

/-- The invariant after a step that absorbs and enqueues. -/
lemma Mirrored.staged [F64] (hc : cfg.OnCuda) (h : d.Mirrored cfg K a) (hx : d.Faithful a x)
    (hpace : cfg.splitDiverge = true → d.Paced K a x) (hcalm : d.Calm cfg x)
    (hstages : d.stages cfg x = true) {out : StepOut}
    (hout : d.wrapper.propose cfg (d.step x) = some out) :
    (d.advance cfg x out.state).Mirrored cfg K a := by
  have hkept := propose_kept hc hout
  rw [if_pos hstages] at hkept
  have hmirror := (Wrapper.kept_eq hkept).1
  have hfallback := fallback_of_stages hstages
  have hands := hands hc h hx hpace hcalm hstages
  have hrow (id : ReqId) (row : List Token) (hrow : out.state.mirror.lookup id = some row) :
      id ∈ x.ids ∧ (d.drained cfg x).mirrorRow id = row := by
    rw [hmirror] at hrow
    exact ⟨hands.drained id row hrow, mirrorRow_of_lookup hrow⟩
  refine {
    enqueued := ?_
    legacy := fun hsplit => hands.staged ⟨hc, hsplit⟩ h hx hcalm hstages hkept
    diverge := fun hsplit => drained_upToDate hc hsplit h hx (hpace hsplit) hands hfallback hstages hkept
    rows := fun id row hlookup => ?_
    landed := fun c hcopy row hland howner => ?_
    mixer := ?_
    tracked := fun hout' id p hp => ?_ } <;>
    rw [advance, if_pos hstages] at *
  · exact Nat.le_succ _
  · obtain ⟨hid, hsame⟩ := hrow id row hlookup
    rw [← hsame]
    exact (hands.mirrors id hid).mono (Nat.le_succ _)
  · obtain ⟨i, hi, rfl⟩ := List.mem_mapIdx.mp hcopy
    rcases land_windowRow hland with hnone | hnow
    · rcases hnone with hnone | hnone <;> cases hnone
    · subst hnow
      exact ⟨d.time, le_rfl, Nat.lt_succ_self _, hx.shows _ _ howner⟩
  · exact Wrapper.propose_inv h.mixer hout
  · obtain ⟨_, hmixer | ⟨_, drafts, hmix⟩⟩ := propose_mixer hc hout hout'
    · -- the mixer is as before, and the new mirror row is not behind the old one
      dsimp only at hp
      rw [hmixer] at hp
      obtain ⟨hctx, hle⟩ := h.tracked hfallback id p hp
      refine ⟨hctx.mono (Nat.le_succ _), fun row hlookup => ?_⟩
      obtain ⟨hid, hsame⟩ := hrow id row hlookup
      rw [← hsame]
      exact (hands.advances id hid p.context hctx hle).length_le
    · obtain ⟨hid, hctx⟩ := (hands.mixed h hfallback hmix).2 id p hp
      refine ⟨by rw [hctx]; exact (hands.mirrors id hid).mono (Nat.le_succ _), fun row hlookup => ?_⟩
      rw [hctx, (hrow id row hlookup).2]

/-- The invariant after any other step. -/
lemma Mirrored.unstaged [F64] (hc : cfg.OnCuda) (h : d.Mirrored cfg K a) (hx : d.Faithful a x)
    (hstages : d.stages cfg x ≠ true) {out : StepOut}
    (hout : d.wrapper.propose cfg (d.step x) = some out) :
    (d.advance cfg x out.state).Mirrored cfg K a := by
  have hkept := propose_kept hc hout
  rw [if_neg hstages] at hkept
  obtain ⟨hmirror, hw, hpending⟩ := Wrapper.kept_eq hkept
  have hcopy (c : Copy) (hc' : c ∈ d.arrive x) :
      ∃ (i : ℕ) (c₀ : Copy), c₀ ∈ d.copies ∧ c = c₀.land x.mem (x.arrives i) := by
    obtain ⟨i, hi, rfl⟩ := List.mem_mapIdx.mp hc'
    exact ⟨i, _, List.getElem_mem hi, rfl⟩
  rw [advance, if_neg hstages]
  exact {
    enqueued := h.enqueued.trans (Nat.le_succ _)
    legacy := fun hsplit => {
      pending := by
        dsimp only
        rw [hpending, arrive_ids]
        exact (h.legacy hsplit).pending
      nodup := by
        dsimp only
        rw [arrive_ids]
        exact (h.legacy hsplit).nodup
      copied := fun id row hid => by
        dsimp only at hid ⊢
        rw [arrive_ids]
        exact (h.legacy hsplit).copied id row (hmirror ▸ hid)
      starts := fun c hc' => by
        obtain ⟨i, c₀, hc₀, rfl⟩ := hcopy c hc'
        obtain ⟨row, hrow, hstart⟩ := (h.legacy hsplit).starts c₀ hc₀
        exact ⟨row, by rw [hmirror]; exact hrow, hstart⟩ }
    diverge := fun hsplit => {
      pending := by
        dsimp only
        rw [hpending]
        exact (h.diverge hsplit).pending
      window := by
        dsimp only
        rw [hw]
        exact (h.diverge hsplit).window
      rows := fun hfallback => by
        -- as long as the fast body runs, every step of this split absorbs and enqueues
        have hfast := (propose_mixer hc hout hfallback).1
        exact absurd (stages_of_diverge hc hsplit hfast) hstages }
    rows := fun id row hid => (h.rows id row (hmirror ▸ hid)).mono (Nat.le_succ _)
    landed := fun c hc' row hland howner => by
      obtain ⟨i, c₀, hc₀, rfl⟩ := hcopy c hc'
      obtain ⟨u, hle, hu, hshows⟩ := h.shows hx hc₀ hland howner
      exact ⟨u, hle, Nat.lt_succ_of_le hu, hshows⟩
    mixer := Wrapper.propose_inv h.mixer hout
    tracked := fun hfallback id p hp => by
      obtain ⟨hfast, hmixer | ⟨hstages', _⟩⟩ := propose_mixer hc hout hfallback
      · dsimp only at hp
        rw [hmixer] at hp
        obtain ⟨hctx, hle⟩ := h.tracked hfast id p hp
        exact ⟨hctx.mono (Nat.le_succ _), fun row hid => hle row (hmirror ▸ hid)⟩
      · exact absurd hstages' hstages }

/-- A step keeps the invariant. -/
lemma Mirrored.next [F64] (hc : cfg.OnCuda) (h : d.Mirrored cfg K a) (hx : d.Faithful a x)
    (hpace : cfg.splitDiverge = true → d.Paced K a x) (hcalm : d.Calm cfg x) {d' : Device}
    (hnext : d.next cfg x = some d') : d'.Mirrored cfg K a := by
  obtain ⟨out, hout, rfl⟩ := Option.map_eq_some_iff.mp hnext
  by_cases hstages : d.stages cfg x = true
  · exact h.staged hc hx hpace hcalm hstages hout
  · exact h.unstaged hc hx hstages hout

/-- The mirror row of a request that is in the batch does not shrink. -/
lemma mirrorRow_grows [F64] (hc : cfg.OnCuda) (h : d.Mirrored cfg K a) (hx : d.Faithful a x)
    (hpace : cfg.splitDiverge = true → d.Paced K a x) (hcalm : d.Calm cfg x) {d' : Device}
    (hnext : d.next cfg x = some d') (hid : id ∈ x.ids) :
    d.wrapper.mirrorRow id <+: d'.wrapper.mirrorRow id := by
  obtain ⟨out, hout, rfl⟩ := Option.map_eq_some_iff.mp hnext
  have hkept := propose_kept hc hout
  have hsame {s : Wrapper} (h : out.state.mirror = s.mirror) : out.state.mirrorRow id = s.mirrorRow id := by
    rw [Wrapper.mirrorRow, h, Wrapper.mirrorRow]
  rw [advance_wrapper]
  by_cases hstages : d.stages cfg x = true
  · rw [if_pos hstages] at hkept
    rw [hsame (Wrapper.kept_eq hkept).1]
    exact (hands hc h hx hpace hcalm hstages).advances_mirrorRow h hid
  · rw [if_neg hstages] at hkept
    rw [hsame (Wrapper.kept_eq hkept).1]

/-- A step keeps its mirror rows prefixes. -/
lemma Mirrored.keepsPrefixes [F64] (hc : cfg.OnCuda) (h : d.Mirrored cfg K a) (hx : d.Faithful a x)
    (hpace : cfg.splitDiverge = true → d.Paced K a x) (hcalm : d.Calm cfg x) :
    d.KeepsPrefixes a cfg x where
  prepared := fun hstages => (hands hc h hx hpace hcalm hstages).prepared
  drained := fun hstages id row hrow => by
    have hands := hands hc h hx hpace hcalm hstages
    rw [← mirrorRow_of_lookup hrow]
    exact hands.mirrors id (hands.drained id row hrow)
  continues := fun hmixes id hid p hp => by
    have hpre := (hands hc h hx hpace hcalm hmixes.1).tracked h (fallback_of_stages hmixes.1) hid hp
    have hsame : boundaryMatches p.context ((d.drained cfg x).mirrorRow id) = true :=
      boundaryMatches_of_startsWith (List.isPrefixOf_iff_prefix.mpr hpre)
    rw [classify_eq bounded_boundaryMatches, classified, hsame]
    rfl
  donates := fun hmixes => by
    have hinv : (d.drained cfg x).mixer.Inv := by
      rw [drained_mixer]
      exact h.mixer
    obtain ⟨⟨r, m⟩, hmix, _⟩ := HybridMixer.call_atomic hinv x.order x.ids (.numpy
      (.i64 ((d.drained cfg x).mirrorCounts x.ids)) (.i64 true ((d.drained cfg x).mirrorGrid x.ids)))
      (d.step x).native (some ((d.drained cfg x).fastFeedback cfg (d.step x)))
    cases r with
    | error e =>
      refine ⟨[], ?_, by simp⟩
      simp only [adds, HybridMixer.callAdds, hmix]
    | ok drafts =>
      have hfast : (d.drained cfg x).fastMix cfg (d.step x) = some (.ok drafts, m) := by
        rw [Wrapper.fastMix, step_ids]
        exact hmix
      exact ((hands hc h hx hpace hcalm hmixes.1).mixed h (fallback_of_stages hmixes.1) hfast).1

end

lemma mirrored_start [F64] (cfg : WrapSettings) {K : ℕ} (a : Authority) {m : HybridMixer}
    (hm : HybridMixer.Reachable m) (hnew : m.previous = ∅) {k : ℕ} (hk : k = 0 ∨ k = K) :
    (start m k).Mirrored cfg K a where
  enqueued := le_rfl
  legacy := fun _ => {
    pending := rfl
    nodup := List.nodup_nil
    copied := fun id row hrow => by simp [start, Wrapper.start] at hrow
    starts := fun c hc => by simp [start] at hc }
  diverge := fun _ => {
    pending := rfl
    window := by
      simp only [start, Wrapper.start]
      split <;> omega
    rows := fun _ id row hrow => by simp [start, Wrapper.start] at hrow }
  rows := fun id row hrow => by simp [start, Wrapper.start] at hrow
  landed := fun c hc => by simp [start] at hc
  mixer := hm.inv
  tracked := fun _ id p hp => by simp [start, Wrapper.start, hnew] at hp

/-- In every run of the fast path on CUDA around a mixer that tracks nothing yet, with drafts of `K` tokens,
whose steps find append-only rows that grow by at most `K + 1` tokens and are calm, every step keeps the
mirror rows prefixes of the authoritative rows, and the contexts that are handed to the mixer for a request
that stays never shrink. -/
theorem mirror_keeps_prefixes [F64] {cfg : WrapSettings} (hc : cfg.OnCuda) {m : HybridMixer}
    (hm : HybridMixer.Reachable m) (hnew : m.previous = ∅) {k K : ℕ} (hk : k = 0 ∨ k = K) (a : Authority)
    {xs : List Tick} (h : Along (next cfg)
      (fun d x => d.Faithful a x ∧ d.Paced K a x ∧ d.Calm cfg x) (start m k) xs) :
    Along (next cfg) (KeepsPrefixes a cfg) (start m k) xs ∧ ContextsGrow cfg (start m k) xs := by
  have hstep (d : Device) (x : Tick) (d' : Device) (hd : d.Mirrored cfg K a)
      (hx : d.Faithful a x ∧ d.Paced K a x ∧ d.Calm cfg x) (hnext : d.next cfg x = some d') :
      d'.Mirrored cfg K a :=
    hd.next hc hx.1 (fun _ => hx.2.1) hx.2.2 hnext
  have hstart := mirrored_start cfg a hm hnew hk
  refine ⟨Along.imp (fun d x hd hx => ⟨hd.keepsPrefixes hc hx.1 (fun _ => hx.2.1) hx.2.2,
    fun d' => hstep d x d' hd hx⟩) hstart h, ?_⟩
  rintro before x between y after d d' rfl hd hd' hmixes hmixes' id hid hbetween hid'
  obtain ⟨hfirst, hlast⟩ := Along.append.mp h
  obtain ⟨⟨hy, hpace', hcalm'⟩, _⟩ := hlast d' hd'
  obtain ⟨hbefore, hrest⟩ := Along.append.mp hfirst
  obtain ⟨hx, halong⟩ := hrest d hd
  have hmirrored : d.Mirrored cfg K a := Along.inv hstep hstart hbefore hd
  rw [run_append, hd, Option.bind_some, run_cons, Option.bind_eq_some_iff] at hd'
  obtain ⟨d₁, hnext, hrun⟩ := hd'
  -- the row that the first of the two mixes reads stays in the mirror behind it
  have hd₁ : d₁.Mirrored cfg K a ∧ (d.drained cfg x).mirrorRow id <+: d₁.wrapper.mirrorRow id := by
    refine ⟨hstep d x d₁ hmirrored hx hnext, ?_⟩
    obtain ⟨out, hout, rfl⟩ := Option.map_eq_some_iff.mp hnext
    have hkept := propose_kept hc hout
    rw [if_pos hmixes.1] at hkept
    rw [advance_wrapper, Wrapper.mirrorRow, Wrapper.mirrorRow, (Wrapper.kept_eq hkept).1]
  have hgrows (d₂ : Device) (z : Tick) (d₃ : Device)
      (hd₂ : d₂.Mirrored cfg K a ∧ (d.drained cfg x).mirrorRow id <+: d₂.wrapper.mirrorRow id)
      (hz : (d₂.Faithful a z ∧ d₂.Paced K a z ∧ d₂.Calm cfg z) ∧ id ∈ z.ids)
      (hnext : d₂.next cfg z = some d₃) :
      d₃.Mirrored cfg K a ∧ (d.drained cfg x).mirrorRow id <+: d₃.wrapper.mirrorRow id := by
    obtain ⟨hd₂, hpre⟩ := hd₂
    obtain ⟨⟨hz, hpace, hcalm⟩, hid⟩ := hz
    exact ⟨hstep d₂ z d₃ hd₂ ⟨hz, hpace, hcalm⟩ hnext,
      hpre.trans (mirrorRow_grows hc hd₂ hz (fun _ => hpace) hcalm hnext hid)⟩
  have hstays : Along (next cfg) (fun _ z => id ∈ z.ids) d₁ between :=
    Along.of_forall fun _ z hz => hbetween z hz
  obtain ⟨hmirrored', hpre⟩ := Along.inv hgrows hd₁ ((halong d₁ hnext).and hstays) hrun
  exact hpre.trans ((hands hc hmirrored' hy (fun _ => hpace') hcalm' hmixes'.1).advances_mirrorRow
    hmirrored' hid')

/-! ## Prompt copies -/

/-- The copies have arrived, and have found the same row of their requests. -/
def Settled (d : Device) : Prop :=
  ∀ c ∈ d.copies, ∃ row, c.windowRow = some row ∧ c.countRow = some row ∧ row.owner = some c.id

/-- A copy that has arrived stays as it is. -/
lemma land_of_landed {mem : ℕ → DevRow} {arrives : Bool × Bool} {c : Copy} {window count : DevRow}
    (hwindow : c.windowRow = some window) (hcount : c.countRow = some count) : c.land mem arrives = c := by
  cases c
  dsimp only at hwindow hcount
  subst hwindow hcount
  simp [Copy.land]

/-- Copies that arrive within their steps are calm. -/
lemma calm_of_within [F64] {cfg : WrapSettings} {m : HybridMixer} {k : ℕ} {a : Authority} {xs : List Tick}
    (h : Along (next cfg) (fun d x => d.Faithful a x ∧ ∀ i, x.within i = (true, true)) (start m k) xs) :
    Along (next cfg) (fun d x => d.Calm cfg x) (start m k) xs := by
  have hstep (d : Device) (x : Tick) (hd : d.Settled)
      (hx : d.Faithful a x ∧ ∀ i, x.within i = (true, true)) :
      d.Calm cfg x ∧ ∀ d', d.next cfg x = some d' → d'.Settled := by
    obtain ⟨hx, hwithin⟩ := hx
    constructor
    · intro _ _ c hc _ window count hwindow hcount _ _
      obtain ⟨c₀, hc₀, rfl⟩ := List.mem_map.mp hc
      obtain ⟨row, hw, hn, howner⟩ := hd c₀ hc₀
      rw [land_of_landed hw hn] at hwindow hcount ⊢
      rw [hw] at hwindow
      rw [hn] at hcount
      cases hwindow
      cases hcount
      exact ⟨howner, le_rfl⟩
    · intro d' hd' c hc
      obtain ⟨out, _, rfl⟩ := Option.map_eq_some_iff.mp hd'
      unfold advance at hc
      split at hc
      case isTrue =>
        obtain ⟨i, hi, rfl⟩ := List.mem_mapIdx.mp hc
        rw [hwithin]
        exact ⟨x.mem x.batch[i].slot, rfl, rfl, hx.owned _ (List.getElem_mem hi)⟩
      case isFalse =>
        obtain ⟨i, hi, rfl⟩ := List.mem_mapIdx.mp hc
        obtain ⟨row, hw, hn, howner⟩ := hd d.copies[i] (List.getElem_mem hi)
        rw [land_of_landed hw hn]
        exact ⟨row, hw, hn, howner⟩
  exact Along.imp hstep (fun c hc => by simp [start] at hc) h

/-- The time goes on. -/
lemma next_time [F64] {cfg : WrapSettings} {d d' : Device} {x : Tick} (h : d.next cfg x = some d') :
    d'.time = d.time + 1 := by
  obtain ⟨out, _, rfl⟩ := Option.map_eq_some_iff.mp h
  unfold advance
  split <;> rfl

/-- A request to which every step appends two tokens. -/
def growing : Authority where
  tokens id := if id = "a" then [4, 5, 7, 8, 3, 6, 2, 9, 1, 1] else []
  total u id := if id = "a" then 2 + 2 * min u 4 else 0
  mono id u v huv := by
    dsimp only
    split
    · omega
    · exact le_rfl

/-- A step with the growing request alone, in a row that is padded with zeros. The copies of the window and
of the count arrive within it, or not before the next one. -/
def growingStep (u : ℕ) (within : Bool × Bool) : Tick where
  k := 2
  ncols := 10
  batch := [{ id := "a", slot := 0, native := [9, 9], sampled := 1, rejected := 0 }]
  order := HashOrder.stored ReqId
  mem j := if j = 0 then ⟨some "a", (growing.row u "a").takeD 10 0, growing.total u "a"⟩
    else ⟨none, List.replicate 10 0, 0⟩
  arrives := fun _ => (false, false)
  within := fun _ => within
  sampledArrives := fun _ => true
  rejectedArrives := fun _ => true
  grown := ⟨fun _ _ => 0, fun _ => 0, fun _ => 0, fun _ => 0⟩
  native_length := fun r hr => by
    cases List.mem_singleton.mp hr
    rfl
  tokens_length := fun r hr => by
    cases List.mem_singleton.mp hr
    exact List.takeD_length _ _ _

/-- The steps of the growing request find its rows. -/
lemma faithful_growing {d : Device} {u : ℕ} (htime : d.time = u) (within : Bool × Bool) :
    d.Faithful growing (growingStep u within) where
  nodup := List.nodup_singleton _
  owned := fun r hr => by
    cases List.mem_singleton.mp hr
    rfl
  shows := fun j id howner => by
    subst htime
    by_cases hj : j = 0
    · subst hj
      obtain rfl : "a" = id := Option.some.inj howner
      have htotal : growing.total d.time "a" ≤ 10 := by
        simp only [growing, if_true]
        omega
      have hlen : (growing.row d.time "a").length = growing.total d.time "a" :=
        List.length_take_of_le htotal
      exact {
        total := rfl
        fits := htotal.trans (List.takeD_length _ _ _).ge
        live := by
          show ((growing.row d.time "a").takeD 10 0).take (growing.total d.time "a") = _
          rw [← hlen]
          exact Wrapper.take_takeD (hlen.trans_le htotal) 0 }
    · have hnone : (growingStep d.time within).mem j = ⟨none, List.replicate 10 0, 0⟩ := if_neg hj
      rw [hnone] at howner
      cases howner

lemma paced_growing {d : Device} (u : ℕ) (within : Bool × Bool) :
    d.Paced 2 growing (growingStep u within) where
  width := rfl
  grows := fun id row _ => by
    simp only [growing]
    split <;> omega

/-- The growing request from the first step on. -/
def growingSteps (within : Bool × Bool) (n : ℕ) : List Tick :=
  (List.range' 0 n).map fun u => growingStep u within

lemma along_growing [F64] (cfg : WrapSettings) (m : HybridMixer) (k : ℕ) (within : Bool × Bool) (n : ℕ) :
    Along (next cfg) (fun d x => d.Faithful growing x ∧ d.Paced 2 growing x) (start m k)
      (growingSteps within n) := by
  have hfrom (u : ℕ) (d : Device) (htime : d.time = u) :
      Along (next cfg) (fun d x => d.Faithful growing x ∧ d.Paced 2 growing x) d
        ((List.range' u n).map fun u => growingStep u within) := by
    induction n generalizing u d with
    | zero => trivial
    | succ n ih =>
      rw [List.range'_succ, List.map_cons]
      exact ⟨⟨faithful_growing htime within, paced_growing u within⟩,
        fun d' hd' => ih (u + 1) d' (by rw [next_time hd', htime])⟩
  exact hfrom 0 (start m k) rfl

/-- The copies of the growing request are calm if they arrive in time. -/
lemma calm_growing [F64] (cfg : WrapSettings) (m : HybridMixer) (k n : ℕ) :
    Along (next cfg) (fun d x => d.Calm cfg x) (start m k) (growingSteps (true, true) n) := by
  have hfaithful : Along (next cfg) (fun d x => d.Faithful growing x) (start m k)
      (growingSteps (true, true) n) :=
    Along.mono (fun d x hx => hx.1) (along_growing cfg m k (true, true) n)
  exact calm_of_within (hfaithful.and (Along.of_forall fun d x hx i => by
    obtain ⟨u, _, rfl⟩ := List.mem_map.mp hx
    rfl))

/-- The mirror follows a growing request whose copies arrive in time. -/
theorem mirror_keeps_prefixes_prompt :
    Along (next alone) (KeepsPrefixes growing alone) (start Wrapper.emptyMixer 2)
      (growingSteps (true, true) 3) ∧
    ContextsGrow alone (start Wrapper.emptyMixer 2) (growingSteps (true, true) 3) := by
  refine mirror_keeps_prefixes alone_async.toOnCuda Wrapper.emptyMixer_reachable rfl (K := 2) (Or.inr rfl)
    growing (Along.mono ?_ ((along_growing alone Wrapper.emptyMixer 2 (true, true) 3).and
      (calm_growing alone Wrapper.emptyMixer 2 3)))
  exact fun d x hx => ⟨hx.1.1, hx.1.2, hx.2⟩

/-- A count that is copied a step later than its window extends the mirror by the padding. -/
theorem late_count_misread :
    Along (next alone) (fun d x => d.Faithful growing x ∧ d.Paced 2 growing x)
      (start Wrapper.emptyMixer 2) (growingSteps (true, false) 2) ∧
    ¬ Along (next alone) (KeepsPrefixes growing alone) (start Wrapper.emptyMixer 2)
      (growingSteps (true, false) 2) := by
  refine ⟨along_growing alone Wrapper.emptyMixer 2 (true, false) 2, fun h => ?_⟩
  have hview : (run (next alone) (start Wrapper.emptyMixer 2) (growingSteps (true, false) 1)).map
      (fun d => (d.stages alone (growingStep 1 (true, false)),
        (d.prepared alone (growingStep 1 (true, false))).mirror.lookup "a"))
      = some (true, some [4, 5, 0, 0]) := by decide
  obtain ⟨d, hd, heq⟩ := Option.map_eq_some_iff.mp hview
  obtain ⟨hstages, hrow⟩ := Prod.mk.inj heq
  have hlast : d.KeepsPrefixes growing alone (growingStep 1 (true, false)) :=
    (show Along _ _ _ (growingSteps (true, false) 1 ++ [growingStep 1 (true, false)]) from h).last hd
  obtain ⟨hpre, _⟩ := Authority.mirrors_iff.mp (hlast.prepared hstages "a" _ hrow)
  exact absurd hpre (by decide)

end Device
end SuffixHybrid
