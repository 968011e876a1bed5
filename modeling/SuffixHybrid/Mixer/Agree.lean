import SuffixHybrid.Mixer.Contract

/-!
# Lists and matrices agree

The same batches can be handed to `mix` as lists of contexts or to `mixNumpy` as counts and a token
matrix in one of three layouts. A contiguous `int64` matrix is compared at its boundary windows only;
where that test holds for true prefixes only (`Batch.Sound`), both entry points take every mixer to
the same state with the same drafts (`call_agree`), and so do whole runs (`runs_agree`).
-/

namespace SuffixHybrid
open Lib

/-- The boundary windows of a context of at most 128 tokens cover it. -/
lemma boundaryMatches_short {t row : List Token} (hlen : t.length ≤ 128)
    (h : boundaryMatches t row = true) : startsWith t row = true := by
  have hle := bounded_boundaryMatches h
  unfold boundaryMatches at h
  dsimp only at h
  rw [if_neg (not_lt.mpr hle), Bool.and_eq_true, beq_iff_eq, beq_iff_eq] at h
  obtain ⟨hhead, htail⟩ := h
  generalize hw : min 64 t.length = w at hhead htail
  have hmid : t.length - w ≤ w := by omega
  have htake : t.take (t.length - w) = row.take (t.length - w) := by
    have h2 := congrArg (List.take (t.length - w)) hhead
    rwa [List.take_take, List.take_take, Nat.min_eq_left hmid] at h2
  have heq : t = row.take t.length := by
    calc t = t.take (t.length - w) ++ t.drop (t.length - w) := (List.take_append_drop _ _).symm
      _ = row.take (t.length - w) ++ (row.drop (t.length - w)).take w := by rw [htake, htail]
      _ = row.take t.length := by
        rw [← List.take_add]
        congr 1
        omega
  rw [startsWith, List.isPrefixOf_iff_prefix, heq]
  exact List.take_prefix _ _

/-- The boundary windows of a true prefix agree. -/
lemma boundaryMatches_of_startsWith {t row : List Token} (h : startsWith t row = true) :
    boundaryMatches t row = true := by
  obtain ⟨rest, rfl⟩ := List.isPrefixOf_iff_prefix.mp h
  have hlen : ¬ (t ++ rest).length < t.length := by simp
  unfold boundaryMatches
  dsimp only
  rw [if_neg hlen, Bool.and_eq_true, beq_iff_eq, beq_iff_eq]
  refine ⟨(List.take_append_of_le_length (by omega)).symm, ?_⟩
  rw [List.drop_append_of_le_length (by omega), List.take_append_of_le_length (by simp; omega),
    List.take_of_length_le (by simp; omega)]

/-- The memory layouts of a token matrix. -/
inductive Layout where
  | contiguous
  | strided
  | int32

/-- A token matrix in a layout. -/
def Layout.tokens (grid : Grid) : Layout → TokenArray
  | .contiguous => .i64 true grid
  | .strided => .i64 false grid
  | .int32 => .i32 grid

/-- A batch for either entry point: counts that fit a token matrix in some layout, and the other
arguments. -/
structure Batch where
  o : HashOrder ReqId
  ids : List ReqId
  counts : CountArray
  values : List ℤ
  layout : Layout
  grid : Grid
  natives : List (List Token)
  accepted : Option (List ℤ)
  read : counts.read ids.length = .ok values
  rows_le : ids.length ≤ grid.rows.length
  values_le : ∀ c ∈ values, 0 ≤ c ∧ c.toNat ≤ grid.ncols

namespace Batch

/-- The full contexts of a batch. -/
def contexts (b : Batch) : List (List Token) := cutRows b.grid.rows b.values

/-- The batch as an argument of `mix`. -/
def lists (b : Batch) : Source := .lists b.contexts

/-- The batch as an argument of `mixNumpy`. -/
def numpy (b : Batch) : Source := .numpy b.counts (b.layout.tokens b.grid)

lemma values_length (b : Batch) : b.values.length = b.ids.length := by
  have hread := b.read
  cases hc : b.counts with
  | i64 counts | i32 counts =>
    simp only [hc, CountArray.read] at hread
    split at hread
    · simp at hread
    · rename_i hlen
      rw [← Except.ok.inj hread, List.length_take_of_le (by omega)]
  | other => simp [hc, CountArray.read] at hread

lemma contexts_length (b : Batch) : b.contexts.length = b.ids.length := by
  have hrows := b.rows_le
  rw [contexts, cutRows, List.length_zipWith, b.values_length]
  omega

/-- The bounds that `mixNumpy` checks are the bounds that `mix` checks. -/
lemma fits_iff (b : Batch) (maxModelLen : ℕ) :
    b.grid.fits maxModelLen b.ids.length b.values = true ↔
      ∀ ctx ∈ b.contexts, ctx.length ≤ maxModelLen := by
  have hrows := b.rows_le
  have hval := b.values_length
  simp only [Grid.fits, Bool.not_eq_true', Bool.or_eq_false_iff, decide_eq_false_iff_not,
    List.any_eq_false, Bool.or_eq_true, decide_eq_true_eq, not_or, not_lt]
  constructor
  · rintro ⟨_, h⟩ ctx hctx
    obtain ⟨i, hi⟩ := List.getElem?_of_mem hctx
    obtain ⟨r, c, _, hc, rfl⟩ := cutRows_eq_some hi
    have hle := (h c (List.mem_of_getElem? hc)).2
    rw [List.length_take]
    omega
  · intro h
    refine ⟨hrows, fun c hc => ?_⟩
    obtain ⟨h0, hcols⟩ := b.values_le c hc
    refine ⟨⟨h0, hcols⟩, ?_⟩
    obtain ⟨i, hi⟩ := List.getElem?_of_mem hc
    have hlt := (List.getElem?_eq_some_iff.mp hi).1
    have hr : b.grid.rows[i]? = some b.grid.rows[i] := List.getElem?_eq_getElem (by omega)
    have hctx : b.contexts[i]? = some (b.grid.rows[i].take c.toNat) := by
      simp [contexts, cutRows, List.getElem?_zipWith, hr, hi]
    have hrect := b.grid.rect _ (List.mem_of_getElem? hr)
    have hle := h _ (List.mem_of_getElem? hctx)
    rwa [List.length_take_of_le (by omega)] at hle

/-- The row test of the batch holds for true prefixes only, on a mixer. -/
def Sound (b : Batch) (s : HybridMixer) : Prop :=
  ∀ (i : ℕ) (id : ReqId) (row : List Token) (p : Previous), b.ids[i]? = some id →
    b.contexts[i]? = some row → s.previous.lookup id = some p →
    b.numpy.same p.context row = true → p.context <+: row

/-- Rows of at most 128 tokens are compared exactly. -/
lemma sound_of_short {b : Batch} (h : ∀ row ∈ b.contexts, row.length ≤ 128) (s : HybridMixer) :
    b.Sound s := by
  intro i id row p _ hrow _ hsame
  have hstarts : startsWith p.context row = true := by
    cases hl : b.layout <;> simp only [numpy, hl, Layout.tokens, Source.same] at hsame
    · have hle := bounded_boundaryMatches hsame
      exact boundaryMatches_short (hle.trans (h row (List.mem_of_getElem? hrow))) hsame
    · exact hsame
    · exact hsame
  exact List.isPrefixOf_iff_prefix.mp hstarts

end Batch

namespace HybridMixer

/-! ## One call -/

section rows
variable [F64] {d d' : Decide} {accepted : Option (List ℤ)} {same : List Token → List Token → Bool}
  {rows : List (List Token)} {i : ℕ} {s s' : HybridMixer} {batch : List (ReqId × List Token)}
  {drafts : List (List Token)}

/-- A row asks its classifier once, about the tracked context of its request. -/
lemma row_congr {id : ReqId} (h : d i ((s.previous.lookup id).map (·.context))
    = d' i ((s.previous.lookup id).map (·.context))) (native : List Token) :
    s.row d accepted i id native = s.row d' accepted i id native := by
  unfold HybridMixer.row
  split
  · simp only [divergeRow, h]
  · simp only [legacyRow, h]

/-- Classifiers that agree on the tracked contexts of a batch lead to the same rows. -/
lemma Steps.congr (hsteps : Steps d accepted same rows i s batch drafts s')
    (hnodup : (batch.map Prod.fst).Nodup)
    (h : ∀ (j : ℕ) (id : ReqId) (native : List Token), batch[j]? = some (id, native) →
      d (i + j) ((s.previous.lookup id).map (·.context))
        = d' (i + j) ((s.previous.lookup id).map (·.context))) :
    HybridMixer.rows d' accepted i batch s = some (drafts, s') := by
  induction hsteps with
  | nil => rfl
  | @cons i s t s' id native draft row batch drafts _ hrow hstep _ ih =>
    rw [List.map_cons, List.nodup_cons] at hnodup
    have hrow' : s.row d accepted (i + 0) id native = s.row d' accepted (i + 0) id native :=
      row_congr (h 0 id native rfl) native
    rw [Nat.add_zero, hrow] at hrow'
    obtain ⟨q, hq, _⟩ := hstep.previous
    have hrest := ih hnodup.2 (by
      intro j id' native' hj
      have hmem : id' ∈ batch.map Prod.fst := List.mem_map_of_mem (List.mem_of_getElem? hj)
      have hne : id' ≠ id := fun heq => hnodup.1 (heq ▸ hmem)
      rw [hq, Map.lookup_put_ne _ _ hne]
      have hj' := h (j + 1) id' native' hj
      rwa [show i + (j + 1) = i + 1 + j by omega] at hj')
    simp [HybridMixer.rows, ← hrow', hrest]

end rows

/-- Classifiers that agree on the tracked contexts of a batch lead to the same call. -/
lemma mixCore_congr [F64] {s : HybridMixer} (hinv : s.Inv) (o : HashOrder ReqId) {ids : List ReqId}
    {natives : List (List Token)} {accepted : Option (List ℤ)} {rows : List (List Token)}
    (hargs : s.Admissible ids natives accepted rows) {d d' : Decide}
    {same : List Token → List Token → Bool} (hd : d.Compares same rows)
    (h : ∀ (i : ℕ) (id : ReqId), ids[i]? = some id →
      d i ((s.previous.lookup id).map (·.context)) = d' i ((s.previous.lookup id).map (·.context))) :
    s.mixCore o ids natives accepted d = s.mixCore o ids natives accepted d' := by
  obtain ⟨s0, drafts, s1, hstart, hmix, hsteps⟩ := mixCore_spec hinv o hargs hd
  obtain ⟨s0', hstart', _, _, _, _, _, _, hslots⟩ := start_spec hinv o hargs.nodup accepted
  obtain rfl : s0 = s0' := Option.some.inj (hstart.symm.trans hstart')
  have hfst : (ids.zip natives).map Prod.fst = ids := List.map_fst_zip hargs.natives_length.ge
  have hrows : HybridMixer.rows d' accepted 0 (ids.zip natives) s0 = some (drafts, s1) :=
    hsteps.congr (by rw [hfst]; exact hargs.nodup) (by
    intro j id native hj
    obtain ⟨hid, _⟩ := List.getElem?_zip_eq_some.mp hj
    have hctx : (s0.previous.lookup id).map (·.context)
        = (s.previous.lookup id).map (·.context) := by
      rw [hslots, if_pos (List.mem_of_getElem? hid), Option.map_map]
      congr 1
      funext p
      exact (gradeAt_fields _ _).1
    rw [Nat.zero_add, hctx]
    exact h j id hid)
  rw [hmix]
  obtain ⟨s2, hdep, rfl⟩ := Option.map_eq_some_iff.mp hstart
  simp [mixCore, hdep, hrows]

/-- Two outcomes agree: the same mixer, and the same drafts or an exception each. -/
def Agree (out out' : Outcome) : Prop :=
  out.2 = out'.2 ∧ (out.1 = out'.1 ∨ out.1.isOk = false ∧ out'.1.isOk = false)

/-- What a call leaves behind: each request is tracked with its authoritative row. -/
def Tracks (b : Batch) (out : Outcome) : Prop :=
  out.1.isOk = true → ∀ (i : ℕ) (id : ReqId) (row : List Token), b.ids[i]? = some id →
    b.contexts[i]? = some row → ∃ p, out.2.previous.lookup id = some p ∧ p.context = row

lemma numpy_compares (b : Batch) :
    (b.numpy.classifier b.ids.length).Compares b.numpy.same b.contexts := by
  have hc : Source.counts b.ids.length b.counts = b.values := by simp [Source.counts, b.read]
  have hle : ∀ c ∈ b.values, c.toNat ≤ b.grid.ncols := fun c hmem => (b.values_le c hmem).2
  cases hl : b.layout <;>
    simp only [Batch.numpy, hl, Layout.tokens, Source.classifier, Source.same, hc, Batch.contexts]
  · exact compares_flat hle
  · exact compares_rows _ _
  · exact compares_rows _ _

lemma same_of_startsWith {b : Batch} {t row : List Token} (h : startsWith t row = true) :
    b.numpy.same t row = true := by
  cases hl : b.layout <;> simp only [Batch.numpy, hl, Layout.tokens, Source.same]
  · exact boundaryMatches_of_startsWith h
  · exact h
  · exact h

/-- Both classifiers answer alike about the tracked contexts. -/
lemma classifiers_agree {s : HybridMixer} {b : Batch} (hb : b.Sound s) (i : ℕ) (id : ReqId) (hid : b.ids[i]? = some id) :
    b.lists.classifier b.ids.length i ((s.previous.lookup id).map (·.context))
      = b.numpy.classifier b.ids.length i ((s.previous.lookup id).map (·.context)) := by
  have hi : i < b.contexts.length := by
    rw [b.contexts_length]
    exact (List.getElem?_eq_some_iff.mp hid).1
  have hrow := List.getElem?_eq_getElem hi
  have hlists : b.lists.classifier b.ids.length = decideContexts b.contexts := rfl
  rw [hlists, (compares_contexts b.contexts).eq hrow, (numpy_compares b).eq hrow]
  cases hp : s.previous.lookup id with
  | none => rfl
  | some p =>
    have hsame : startsWith p.context b.contexts[i] = b.numpy.same p.context b.contexts[i] := by
      rw [Bool.eq_iff_iff]
      refine ⟨same_of_startsWith, fun h => ?_⟩
      exact List.isPrefixOf_iff_prefix.mpr (hb i id _ p hid hrow hp h)
    simp only [Option.map_some, classified, hsame]

section call
variable [F64] {s : HybridMixer} {b : Batch}

/-- The bounds check of `mixNumpy` behind `validate`. -/
lemma numpy_call (hval : s.validate b.ids b.natives b.accepted = .ok ()) :
    s.call b.o b.ids b.numpy b.natives b.accepted =
      if b.grid.fits s.maxModelLen b.ids.length b.values = true then
        (s.mixCore b.o b.ids b.natives b.accepted (b.numpy.classifier b.ids.length)).map
          fun (drafts, s) => (.ok drafts, s)
      else some (.error (.valueError "invalid row bounds"), s) := by
  have hc : Source.counts b.ids.length b.counts = b.values := by simp [Source.counts, b.read]
  have htokens : (b.layout.tokens b.grid).decide s.maxModelLen b.ids.length b.values
      = if b.grid.fits s.maxModelLen b.ids.length b.values = true then
          .ok (b.numpy.classifier b.ids.length)
        else .error (.valueError "invalid row bounds") := by
    cases hl : b.layout <;>
      simp [Batch.numpy, hl, Layout.tokens, TokenArray.decide, Source.classifier, hc]
  have hdec : s.numpyDecide b.ids b.counts (b.layout.tokens b.grid) b.natives b.accepted
      = (b.layout.tokens b.grid).decide s.maxModelLen b.ids.length b.values := by
    rw [numpyDecide, hval]
    simp only [b.read]
    rfl
  rw [htokens] at hdec
  by_cases hfits : b.grid.fits s.maxModelLen b.ids.length b.values = true
  · rw [if_pos hfits] at hdec ⊢
    simp only [call, Batch.numpy, mixNumpy]
    rw [hdec]
    rfl
  · rw [if_neg hfits] at hdec ⊢
    simp only [call, Batch.numpy, mixNumpy]
    rw [hdec]

/-- The bounds check of `mix` behind `validate`. -/
lemma lists_call (hval : s.validate b.ids b.natives b.accepted = .ok ()) :
    s.call b.o b.ids b.lists b.natives b.accepted =
      if b.grid.fits s.maxModelLen b.ids.length b.values = true then
        (s.mixCore b.o b.ids b.natives b.accepted (b.lists.classifier b.ids.length)).map
          fun (drafts, s) => (.ok drafts, s)
      else some (.error invalidBatch, s) := by
  have hbad : (b.contexts.length ≠ b.ids.length ∨
      (b.contexts.any fun c => c.length > s.maxModelLen) = true) ↔
      ¬ b.grid.fits s.maxModelLen b.ids.length b.values = true := by
    rw [b.fits_iff]
    simp [b.contexts_length]
  simp only [call, Batch.lists, mix, hval, Source.classifier]
  by_cases hfits : b.grid.fits s.maxModelLen b.ids.length b.values = true
  · rw [if_pos hfits, if_neg fun h => hbad.mp h hfits]
  · rw [if_neg hfits, if_pos (hbad.mpr hfits)]

/-- The same batch through both entry points. -/
lemma call_agree (hinv : s.Inv) (hb : b.Sound s) :
    ∃ out out', s.call b.o b.ids b.lists b.natives b.accepted = some out ∧
      s.call b.o b.ids b.numpy b.natives b.accepted = some out' ∧ Agree out out' ∧
      Tracks b out ∧ out.2.Inv := by
  cases hval : s.validate b.ids b.natives b.accepted with
  | error e =>
    have hdec : s.numpyDecide b.ids b.counts (b.layout.tokens b.grid) b.natives b.accepted
        = .error e := by
      rw [numpyDecide, hval]
      rfl
    refine ⟨(.error e, s), (.error e, s), ?_, ?_, ⟨rfl, Or.inl rfl⟩, ?_, hinv⟩
    · simp [call, Batch.lists, mix, hval]
    · simp [call, Batch.numpy, mixNumpy, hdec]
    · intro hok
      cases hok
  | ok u =>
    rw [lists_call hval, numpy_call hval]
    by_cases hfits : b.grid.fits s.maxModelLen b.ids.length b.values = true
    · have hacc : s.Accepts b.o b.ids b.lists b.natives b.accepted := {
        compares := compares_contexts b.contexts
        args := validate_ok hval b.contexts_length.ge ((b.fits_iff _).mp hfits)
        eq := by rw [lists_call hval, if_pos hfits] }
      obtain ⟨drafts, s', hcall, _, hinv', _, _, hrows⟩ := hacc.rows hinv
      have hmix := hcall
      rw [hacc.eq] at hmix
      rw [if_pos hfits, if_pos hfits, ← mixCore_congr hinv b.o hacc.args hacc.compares
        (classifiers_agree hb), hmix]
      refine ⟨_, _, rfl, rfl, ⟨rfl, Or.inl rfl⟩, fun _ i id row hid hrow => ?_, hinv'⟩
      have hn : i < b.natives.length := by
        rw [hacc.args.natives_length]
        exact (List.getElem?_eq_some_iff.mp hid).1
      obtain ⟨draft, t, _, _, hcallRow⟩ :=
        hrows i id _ row hid (List.getElem?_eq_getElem hn) hrow
      obtain ⟨t', _, hstep, hafter⟩ := hcallRow.step
      obtain ⟨p, hp, hprop, _⟩ := hstep.previous
      refine ⟨p, by rw [hafter, hp, Map.lookup_put_self], ?_⟩
      rw [hprop.context]
      exact contextAfter_startsWith row _
    · rw [if_neg hfits, if_neg hfits]
      refine ⟨_, _, rfl, rfl, ⟨rfl, Or.inr ⟨rfl, rfl⟩⟩, ?_, hinv⟩
      intro hok
      cases hok

end call

/-! ## Runs -/

/-- The outcomes of a run, with the arguments of one entry point. -/
def trace [F64] (feed : Batch → Source) : HybridMixer → List Batch → Option (List Outcome)
  | _, [] => some []
  | s, b :: batches => do
    let out ← s.call b.o b.ids (feed b) b.natives b.accepted
    let outs ← trace feed out.2 batches
    some (out :: outs)

/-- The row tests of a run of `mixNumpy` calls hold for true prefixes only. -/
def SoundAlong [F64] : HybridMixer → List Batch → Prop
  | _, [] => True
  | s, b :: batches => b.Sound s ∧
    ∀ out, s.call b.o b.ids b.numpy b.natives b.accepted = some out → SoundAlong out.2 batches

/-- From one mixer, a run of `mix` calls and the run of `mixNumpy` calls over the same batches agree
at every step, and each request is tracked with its authoritative row. The boundary test can only
fail for contexts of more than 128 tokens. -/
theorem runs_agree [F64] {s : HybridMixer} (hinv : s.Inv) {batches : List Batch}
    (hsound : SoundAlong s batches) :
    (∃ outs outs', trace Batch.lists s batches = some outs ∧
      trace Batch.numpy s batches = some outs' ∧ List.Forall₂ Agree outs outs' ∧
      List.Forall₂ Tracks batches outs) ∧
    ∀ t row : List Token, t.length ≤ 128 → boundaryMatches t row = true → t <+: row := by
  refine ⟨?_, fun t row hlen h => List.isPrefixOf_iff_prefix.mp (boundaryMatches_short hlen h)⟩
  induction batches generalizing s with
  | nil => exact ⟨[], [], rfl, rfl, .nil, .nil⟩
  | cons b batches ih =>
    obtain ⟨out, out', hlists, hnumpy, hagree, htracks, hinv'⟩ := call_agree hinv hsound.1
    have hrest := hsound.2 out' hnumpy
    rw [← hagree.1] at hrest
    obtain ⟨outs, outs', h1, h2, h3, h4⟩ := ih hinv' hrest
    refine ⟨out :: outs, out' :: outs', ?_, ?_, .cons hagree h3, .cons htracks h4⟩
    · simp [trace, hlists, h1]
    · rw [hagree.1] at h2
      simp [trace, hnumpy, h2]

/-- Runs over short rows are sound. -/
lemma soundAlong_of_short [F64] {batches : List Batch}
    (h : ∀ b ∈ batches, ∀ row ∈ b.contexts, row.length ≤ 128) (s : HybridMixer) :
    SoundAlong s batches := by
  induction batches generalizing s with
  | nil => exact True.intro
  | cons b batches ih =>
    exact ⟨Batch.sound_of_short (h b (by simp)) s,
      fun out _ => ih (fun b' hb' => h b' (by simp [hb'])) out.2⟩

/-- One request, growing by two tokens. -/
def growingBatch (values : List ℤ) (hlen : values.length = 1) (hc : ∀ c ∈ values, 0 ≤ c ∧ c.toNat ≤ 4) :
    Batch where
  o := HashOrder.stored ReqId
  ids := ["a"]
  counts := .i64 values
  values
  layout := .contiguous
  grid := ⟨4, [[1, 2, 3, 4]], by decide⟩
  natives := [[9, 9]]
  accepted := none
  read := by simp [CountArray.read, hlen, List.take_of_length_le hlen.le]
  rows_le := by decide
  values_le := hc

/-- Both entry points agree while a request grows. -/
theorem runs_agree_growing :
    ∃ outs outs', trace Batch.lists (empty Config.default {} 2 100 (by decide))
        [growingBatch [2] rfl (by decide), growingBatch [4] rfl (by decide)] = some outs ∧
      trace Batch.numpy (empty Config.default {} 2 100 (by decide))
        [growingBatch [2] rfl (by decide), growingBatch [4] rfl (by decide)] = some outs' ∧
      List.Forall₂ Agree outs outs' ∧
      List.Forall₂ Tracks
        [growingBatch [2] rfl (by decide), growingBatch [4] rfl (by decide)] outs :=
  (runs_agree (inv_empty Config.default {} 2 100 (by decide))
    (soundAlong_of_short (by decide) _)).1

end HybridMixer
end SuffixHybrid
