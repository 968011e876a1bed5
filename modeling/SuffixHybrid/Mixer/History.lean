import SuffixHybrid.Mixer.Agree

/-!
# The histories that a mixer donates

A session is a stretch of calls over which a request stays in the batch and its context only grows.
`ended` lists the final contexts of the sessions that end between two batches, by departure or by a
reset, from the batches alone. The mixer donates histories at four places of the source; `log` records
every sequence that they hand to `Cache.add`, next to those that are added from outside. Along a run
the two agree up to empty sequences (`histories_conserved`).
-/

namespace SuffixHybrid
open Lib

/-! ## Sessions -/

/-- The requests of a batch with their contexts. -/
abbrev Roster := List (ReqId × List Token)

namespace Roster

/-- The final contexts of the requests that are missing from the next batch. -/
def departed (last next : Roster) : List (List Token) :=
  (last.filter fun e => e.1 ∉ next.map Prod.fst).map Prod.snd

/-- The final contexts of the requests whose context in the next batch does not extend them. -/
def reset (last next : Roster) : List (List Token) :=
  next.filterMap fun e => (last.lookup e.1).filter fun ctx => !ctx.isPrefixOf e.2

/-- The final contexts of the sessions that end between two batches. -/
def ended (last next : Roster) : List (List Token) := last.departed next ++ last.reset next

/-- The final contexts of the sessions that end along a run of batches. -/
def endedAlong : Roster → List Roster → List (List Token)
  | _, [] => []
  | last, next :: rest => last.ended next ++ endedAlong next rest

/-- The last batch of a run. -/
def after : Roster → List Roster → Roster
  | last, [] => last
  | _, next :: rest => after next rest

@[simp] lemma endedAlong_nil (last : Roster) : last.endedAlong [] = [] := rfl

@[simp] lemma endedAlong_cons (last next : Roster) (rest : List Roster) :
    last.endedAlong (next :: rest) = last.ended next ++ next.endedAlong rest := rfl

lemma endedAlong_append (last : Roster) (rosters later : List Roster) :
    last.endedAlong (rosters ++ later)
      = last.endedAlong rosters ++ (last.after rosters).endedAlong later := by
  induction rosters generalizing last with
  | nil => rfl
  | cons next rosters ih => rw [List.cons_append, endedAlong_cons, ih, endedAlong_cons,
      List.append_assoc, after]

lemma after_append (last : Roster) (rosters later : List Roster) :
    last.after (rosters ++ later) = (last.after rosters).after later := by
  induction rosters generalizing last with
  | nil => rfl
  | cons next rosters ih => exact ih next

lemma lookup_zip {ids : List ReqId} (hids : ids.Nodup) {rows : List (List Token)} {i : ℕ} {id : ReqId}
    {row : List Token} (hid : ids[i]? = some id) (hrow : rows[i]? = some row) :
    (ids.zip rows).lookup id = some row := by
  induction ids generalizing rows i with
  | nil => simp at hid
  | cons id' ids ih =>
    cases rows with
    | nil => simp at hrow
    | cons row' rows =>
      obtain ⟨hnew, hrest⟩ := List.nodup_cons.mp hids
      cases i with
      | zero =>
        obtain rfl : id' = id := by simpa using hid
        obtain rfl : row' = row := by simpa using hrow
        simp
      | succ i =>
        have hmem : id ∈ ids := List.mem_of_getElem? (by simpa using hid)
        have hne : (id == id') = false := by simpa using fun h : id = id' => hnew (h ▸ hmem)
        rw [List.zip_cons_cons, List.lookup_cons, hne]
        exact ih hrest (by simpa using hid) (by simpa using hrow)

lemma lookup_zip_of_notMem {ids : List ReqId} {rows : List (List Token)} {id : ReqId}
    (h : id ∉ ids) : (ids.zip rows).lookup id = none := by
  rw [List.lookup_eq_none_iff]
  intro e he
  have hmem : e.1 ∈ ids := (List.of_mem_zip he).1
  simpa using fun heq : id = e.1 => h (heq ▸ hmem)

lemma lookup_of_mem {last : Roster} (h : (last.map Prod.fst).Nodup) {e : ReqId × List Token}
    (he : e ∈ last) : last.lookup e.1 = some e.2 := by
  have hzip : last = (last.map Prod.fst).zip (last.map Prod.snd) := List.zip_of_prod rfl rfl
  obtain ⟨i, hi⟩ := List.getElem?_of_mem he
  rw [hzip]
  exact lookup_zip h (i := i) (by simp [hi]) (by simp [hi])

/-- The departed contexts, read off the requests. -/
lemma departed_eq {last : Roster} (h : (last.map Prod.fst).Nodup) (next : Roster) :
    last.departed next = ((last.map Prod.fst).filter (· ∉ next.map Prod.fst)).map
      fun id => (last.lookup id).getD [] := by
  rw [departed, List.filter_map, List.map_map]
  apply List.map_congr_left
  intro e he
  simp [lookup_of_mem h (List.mem_of_mem_filter he)]

end Roster

namespace HybridMixer

/-! ## What the mixer adds -/

/-- Who adds a sequence to the cache. -/
inductive Origin where
  | mixer
  | caller
  deriving DecidableEq

/-- The sequences that `takeReset` adds. -/
def takeResetAdds (continuity : Continuity) (slot : Option Previous) : List (List Token) :=
  match continuity, slot with
  | .reset, some p => [p.context]
  | _, _ => []

/-- The sequences that `closeRow` and `openRow` add for the slot of a row. -/
def slotAdds (continuity : Continuity) (slot : Option Previous) : List (List Token) :=
  match slot with
  | some p => if continuity = .continuing then [] else [p.context]
  | none => []

/-- The sequences that a row adds, in their order. -/
def rowAdds (s : HybridMixer) (decide : Decide) (i : ℕ) (id : ReqId) : Option (List (List Token)) := do
  let slot := s.previous.lookup id
  let (continuity, _) ← decide i (slot.map (·.context))
  if s.env.diverge then some (slotAdds continuity slot)
  else do
    let (_, rest) ← s.takeReset continuity slot
    some (takeResetAdds continuity slot ++ slotAdds continuity rest)

/-- The sequences that the row loop adds, from row `i` on. -/
def rowsAdds [F64] (decide : Decide) (accepted : Option (List ℤ)) :
    ℕ → List (ReqId × List Token) → HybridMixer → Option (List (List Token))
  | _, [], _ => some []
  | i, (id, native) :: rest, s => do
    let now ← s.rowAdds decide i id
    let (_, s) ← s.row decide accepted i id native
    let later ← rowsAdds decide accepted (i + 1) rest s
    some (now ++ later)

/-- The sequences that a call adds: the departed histories, then those of the row loop. A rejected
call adds nothing. -/
def callAdds [F64] (o : HashOrder ReqId) (s : HybridMixer) (ids : List ReqId) (src : Source)
    (natives : List (List Token)) (accepted : Option (List ℤ)) : Option (List (List Token)) :=
  match s.call o ids src natives accepted with
  | some (.ok _, _) => do
    let s0 ← s.start o ids accepted
    let later ← rowsAdds (src.classifier ids.length) accepted 0 (ids.zip natives) s0
    some ((s.feedback ids accepted).donated o ids ++ later)
  | _ => some []

/-- The sequences that an operation adds, with their origin. -/
def opAdds [F64] (s : HybridMixer) : Op → Option (List (Origin × List Token))
  | .call o ids src natives accepted =>
    (s.callAdds o ids src natives accepted).map fun adds => adds.map fun seq => (.mixer, seq)
  | .addSequence tokens => some [(.caller, tokens)]
  | .addPrompt tokens => some (if s.cache.cfg.prompts then [(.caller, tokens)] else [])

/-- Every sequence that a run hands to `Cache.add`, in order. -/
def log [F64] : HybridMixer → List Op → Option (List (Origin × List Token))
  | _, [] => some []
  | s, operation :: ops => do
    let now ← s.opAdds operation
    let s ← s.op operation
    let later ← log s ops
    some (now ++ later)

/-- The batch of an operation, if it is an accepted call. Over a run, the batches are collected. -/
def opRoster [F64] (s : HybridMixer) : Op → List Roster
  | .call o ids src natives accepted =>
    match s.call o ids src natives accepted with
    | some (.ok _, _) => [ids.zip (src.rows ids.length)]
    | _ => []
  | _ => []

/-- The sequences of a log that the mixer has added, less the empty ones. -/
def donations (entries : List (Origin × List Token)) : List (List Token) :=
  (entries.filter fun e => e.1 = .mixer ∧ e.2 ≠ []).map Prod.snd

/-! ## What a row adds -/

/-- The context that a row resets. -/
def resetContext (same : List Token → List Token → Bool) (row : List Token) :
    Option Previous → List (List Token)
  | none => []
  | some p => if same p.context row then [] else [p.context]

/-- A sequence log without its empty entries. -/
def nonempty (adds : List (List Token)) : List (List Token) := adds.filter (· ≠ [])

@[simp] lemma nonempty_nil : nonempty [] = [] := rfl

lemma nonempty_append (adds later : List (List Token)) :
    nonempty (adds ++ later) = nonempty adds ++ nonempty later := List.filter_append _ _

lemma slotAdds_classified (same : List Token → List Token → Bool) (row : List Token)
    (slot : Option Previous) :
    slotAdds (classified same row (slot.map (·.context))).1 slot = resetContext same row slot := by
  cases slot with
  | none => rfl
  | some p =>
    cases hsame : same p.context row with
    | true => simp [slotAdds, classified, resetContext, hsame]
    | false => simp [slotAdds, classified, resetContext, hsame]

lemma takeResetAdds_classified (same : List Token → List Token → Bool) (row : List Token)
    (slot : Option Previous) :
    takeResetAdds (classified same row (slot.map (·.context))).1 slot = resetContext same row slot := by
  cases slot with
  | none => rfl
  | some p =>
    cases hsame : same p.context row with
    | true => simp [takeResetAdds, classified, resetContext, hsame]
    | false => simp [takeResetAdds, classified, resetContext, hsame]

/-- `takeReset` feeds the cache with what it adds, and leaves nothing to add. -/
lemma takeReset_adds {s : HybridMixer} {continuity : Continuity} {slot rest : Option Previous}
    {cache : Cache} (hfresh : slot.isSome = true → continuity ≠ .fresh)
    (h : s.takeReset continuity slot = some (cache, rest)) :
    run Cache.add s.cache (takeResetAdds continuity slot) = some cache ∧
      ∀ seq ∈ slotAdds continuity rest, seq = [] := by
  cases slot with
  | none =>
    cases continuity <;> · cases h; exact ⟨rfl, by simp [slotAdds]⟩
  | some p =>
    cases continuity with
    | fresh => exact absurd rfl (hfresh rfl)
    | continuing =>
      cases h
      exact ⟨rfl, by simp [slotAdds]⟩
    | reset =>
      obtain ⟨c, hadd, heq⟩ := Option.map_eq_some_iff.mp h
      cases heq
      exact ⟨by simp [takeResetAdds, hadd], by simp [slotAdds]⟩

/-- `openRow` feeds the cache with what it adds. -/
lemma openRow_adds [F64] {s opened : HybridMixer} {continuity : Continuity} {slot : Option Previous}
    {delta : List Token} {accepted : ℤ} {p : Previous}
    (h : s.openRow continuity slot delta accepted = some (opened, p)) :
    run Cache.add s.cache (slotAdds continuity slot) = some opened.cache := by
  cases slot with
  | none =>
    cases h
    rfl
  | some q =>
    by_cases hcont : continuity = .continuing
    · obtain ⟨wins, observed, hres⟩ := s.resolve_total q.div accepted delta
      simp only [openRow, hcont, if_true, hres, Option.bind_eq_bind, Option.bind_some,
        Option.some.injEq, Prod.mk.injEq] at h
      simp only [slotAdds, hcont, if_true, run_nil, ← h.1]
    · simp only [openRow, hcont, if_false, Option.bind_eq_bind] at h
      obtain ⟨c, hadd, heq⟩ := Option.bind_eq_some_iff.mp h
      cases heq
      simp [slotAdds, hcont, hadd]

/-- Empty sequences leave the cache as it is. -/
lemma run_add_empty {adds : List (List Token)} (h : ∀ seq ∈ adds, seq = []) (c : Cache) :
    run Cache.add c adds = some c := by
  induction adds with
  | nil => rfl
  | cons seq adds ih =>
    rw [run_cons, h seq (by simp), Cache.add_nil, Option.bind_some]
    exact ih fun seq' hseq => h seq' (List.mem_cons_of_mem _ hseq)

lemma nonempty_of_empty {adds : List (List Token)} (h : ∀ seq ∈ adds, seq = []) :
    nonempty adds = [] := by
  rw [nonempty, List.filter_eq_nil_iff]
  exact fun seq hseq => by simpa using h seq hseq

/-- A row feeds the cache with what it adds: up to empty sequences, the context that it resets. -/
lemma row_adds [F64] {s t : HybridMixer} (hinv : s.cache.Inv) {decide : Decide}
    {same : List Token → List Token → Bool} {rows : List (List Token)}
    (hd : decide.Compares same rows) {i : ℕ} {row : List Token} (hrow : rows[i]? = some row)
    {accepted : Option (List ℤ)} (ha : ∀ v, accepted = some v → i < v.length) {id : ReqId}
    {native draft : List Token} (h : s.row decide accepted i id native = some (draft, t)) :
    ∃ adds, s.rowAdds decide i id = some adds ∧ run Cache.add s.cache adds = some t.cache ∧
      nonempty adds = nonempty (resetContext same row (s.previous.lookup id)) := by
  have hdecide := hd.eq hrow ((s.previous.lookup id).map (·.context))
  by_cases hdiv : s.env.diverge = true
  · rw [row_diverge hdiv ha] at h
    obtain ⟨cache, wins, observed, cand, bucket, draft', t', hrun, _, _, hspec⟩ :=
      divergeRow_spec hinv hd hrow id native (feedbackAt accepted i)
    rw [h] at hrun
    cases hrun
    obtain ⟨p, hopen⟩ := hspec.opens
    obtain ⟨q, hits, published, proposed, _, _, rfl⟩ := hspec.after
    have hfed := openRow_adds hopen
    rw [slotAdds_classified] at hfed
    refine ⟨_, ?_, hfed, rfl⟩
    simp only [rowAdds, hdecide, Option.bind_eq_bind, Option.bind_some, hdiv, if_true,
      slotAdds_classified]
  · rw [row_legacy hdiv] at h
    obtain ⟨cache, tail, draft', t', hrun, _, _, hspec⟩ := legacyRow_spec hinv hd hrow id native
    rw [h] at hrun
    cases hrun
    obtain ⟨rest, hreset⟩ := hspec.reset
    obtain ⟨q, _, _, rfl⟩ := hspec.after
    have hfresh : (s.previous.lookup id).isSome = true →
        (classified same row ((s.previous.lookup id).map (·.context))).1 ≠ .fresh := by
      intro hsome
      cases hslot : s.previous.lookup id with
      | none => simp [hslot] at hsome
      | some p => cases hsame : same p.context row <;> simp [classified, hsame]
    obtain ⟨hfed, hempty⟩ := takeReset_adds hfresh hreset
    refine ⟨takeResetAdds (classified same row ((s.previous.lookup id).map (·.context))).1
      (s.previous.lookup id) ++ slotAdds (classified same row
        ((s.previous.lookup id).map (·.context))).1 rest, ?_, ?_, ?_⟩
    · simp only [rowAdds, hdecide, Option.bind_eq_bind, Option.bind_some, hdiv, if_false, hreset,
        Bool.false_eq_true]
    · rw [run_append, hfed, Option.bind_some]
      exact run_add_empty hempty cache
    · rw [nonempty_append, nonempty_of_empty hempty, List.append_nil, takeResetAdds_classified]

/-- The contexts that the rows of a batch reset, on the slots of a mixer. -/
def resetContexts (same : List Token → List Token → Bool) (s : HybridMixer) (batch : Roster) :
    List (List Token) :=
  batch.flatMap fun e => resetContext same e.2 (s.previous.lookup e.1)

/-- Slots of other requests do not matter. -/
lemma resetContexts_congr {same : List Token → List Token → Bool} {s t : HybridMixer} {batch : Roster}
    (h : ∀ id ∈ batch.map Prod.fst, s.previous.lookup id = t.previous.lookup id) :
    resetContexts same s batch = resetContexts same t batch := by
  apply List.flatMap_congr
  intro e he
  rw [h e.1 (List.mem_map_of_mem he)]

/-- The row loop feeds the cache with what it adds: up to empty sequences, the contexts that its rows
reset. -/
lemma Steps.adds [F64] {decide : Decide} {accepted : Option (List ℤ)}
    {same : List Token → List Token → Bool} {rows : List (List Token)} {i : ℕ} {s s' : HybridMixer}
    {batch : List (ReqId × List Token)} {drafts : List (List Token)}
    (h : Steps decide accepted same rows i s batch drafts s') (hinv : s.cache.Inv)
    (hd : decide.Compares same rows) (hnodup : (batch.map Prod.fst).Nodup)
    (ha : ∀ v, accepted = some v → i + batch.length ≤ v.length) :
    ∃ adds, rowsAdds decide accepted i batch s = some adds ∧
      run Cache.add s.cache adds = some s'.cache ∧
      nonempty adds
        = nonempty (resetContexts same s ((batch.map Prod.fst).zip (rows.drop i))) := by
  induction h with
  | nil => exact ⟨[], rfl, rfl, rfl⟩
  | @cons i s t s' id native draft row batch drafts hrow hrun hstep _ ih =>
    rw [List.map_cons, List.nodup_cons] at hnodup
    obtain ⟨now, hnow, hfed, hreset⟩ := row_adds hinv hd hrow
      (fun v hv => by have := ha v hv; rw [List.length_cons] at this; omega) hrun
    obtain ⟨later, hlater, hfed', hresets⟩ := ih hstep.cache hnodup.2 (fun v hv => by
      have := ha v hv
      rw [List.length_cons] at this
      omega)
    refine ⟨now ++ later, by simp [rowsAdds, hnow, hrun, hlater], ?_, ?_⟩
    · rw [run_append, hfed, Option.bind_some, hfed']
    · obtain ⟨p, hp, _⟩ := hstep.previous
      have hsame : resetContexts same t ((batch.map Prod.fst).zip (rows.drop (i + 1)))
          = resetContexts same s ((batch.map Prod.fst).zip (rows.drop (i + 1))) := by
        apply resetContexts_congr
        intro id' hid'
        obtain ⟨e, he, rfl⟩ := List.mem_map.mp hid'
        have hmem : e.1 ∈ batch.map Prod.fst := (List.of_mem_zip he).1
        have hne : e.1 ≠ id := fun heq => hnodup.1 (show id ∈ batch.map Prod.fst from heq ▸ hmem)
        rw [hp, Map.lookup_put_ne _ _ hne]
      have hdrop : rows.drop i = row :: rows.drop (i + 1) := by
        obtain ⟨hi, rfl⟩ := List.getElem?_eq_some_iff.mp hrow
        exact List.drop_eq_getElem_cons hi
      rw [nonempty_append, hreset, hresets, hsame, hdrop, List.map_cons, List.zip_cons_cons,
        ← nonempty_append]
      rfl

/-! ## Calls -/

/-- The mixer tracks the requests of a batch with their contexts. -/
structure Tracking (s : HybridMixer) (last : Roster) : Prop where
  nodup : (last.map Prod.fst).Nodup
  lookup : ∀ id, (s.previous.lookup id).map (·.context) = last.lookup id

/-- A row that passes for a continuation of its tracked context does extend it. -/
def Extends (s : HybridMixer) (ids : List ReqId) (src : Source) : Prop :=
  ∀ (i : ℕ) (id : ReqId) (row : List Token) (p : Previous), ids[i]? = some id →
    (src.rows ids.length)[i]? = some row → s.previous.lookup id = some p →
    src.same p.context row = true → p.context <+: row

/-- Full contexts are compared exactly. -/
lemma extends_lists (s : HybridMixer) (ids : List ReqId) (contexts : List (List Token)) :
    s.Extends ids (.lists contexts) :=
  fun _ _ _ _ _ _ _ hsame => List.isPrefixOf_iff_prefix.mp hsame

lemma same_of_isPrefixOf (src : Source) {t row : List Token} (h : t.isPrefixOf row = true) :
    src.same t row = true := by
  cases src with
  | lists contexts => exact h
  | numpy counts tokens =>
    cases tokens with
    | i64 contiguous grid =>
      cases contiguous with
      | true => exact boundaryMatches_of_startsWith h
      | false => exact h
    | i32 grid => exact h
    | other => exact h

/-- The tracked requests of a mixer, in the order of its map. -/
lemma Tracking.keys_perm {s : HybridMixer} {last : Roster} (h : s.Tracking last) :
    s.previous.keys.Perm (last.map Prod.fst) := by
  rw [List.perm_ext_iff_of_nodup s.previous.keys_nodup h.nodup]
  intro id
  rw [← AList.mem_keys, ← AList.lookup_isSome, ← Option.isSome_map (f := (·.context)), h.lookup]
  constructor
  · intro hsome
    obtain ⟨ctx, hctx⟩ := Option.isSome_iff_exists.mp hsome
    obtain ⟨l₁, l₂, rfl, _⟩ := List.lookup_eq_some_iff.mp hctx
    simp
  · intro hmem
    obtain ⟨e, he, rfl⟩ := List.mem_map.mp hmem
    simp [Roster.lookup_of_mem h.nodup he]

/-- The departure pass donates the departed contexts. -/
lemma Tracking.donated_perm [F64] {s : HybridMixer} {last : Roster} (h : s.Tracking last)
    (o : HashOrder ReqId) {ids : List ReqId} (hids : ids.Nodup) (accepted : Option (List ℤ))
    {rows : List (List Token)} (hlen : ids.length ≤ rows.length) :
    ((s.feedback ids accepted).donated o ids).Perm (last.departed (ids.zip rows)) := by
  have hkeys := (feedback_same s ids accepted).keys
  have hctx (id : ReqId) : (((s.feedback ids accepted).previous.lookup id).map (·.context)).getD []
      = (last.lookup id).getD [] := by
    rw [feedback_lookup s hids, Option.map_map, ← h.lookup]
    congr 2
    funext p
    exact (gradeAt_fields _ _).1
  rw [donated, Roster.departed_eq h.nodup, List.map_fst_zip hlen, gone, hkeys]
  simp only [hctx]
  exact (((o.perm _).trans h.keys_perm).filter _).map _

/-- The rows of a call reset the contexts that they do not extend. -/
lemma Tracking.reset_eq {s t : HybridMixer} {last : Roster} (h : s.Tracking last) {ids : List ReqId}
    {src : Source} (hext : s.Extends ids src)
    (hslots : ∀ id ∈ ids, (t.previous.lookup id).map (·.context)
      = (s.previous.lookup id).map (·.context)) :
    resetContexts src.same t (ids.zip (src.rows ids.length))
      = last.reset (ids.zip (src.rows ids.length)) := by
  rw [resetContexts, Roster.reset, List.filterMap_eq_flatMap_toList]
  apply List.flatMap_congr
  rintro ⟨id, row⟩ he
  obtain ⟨i, hi⟩ := List.getElem?_of_mem he
  obtain ⟨hid, hrow⟩ := List.getElem?_zip_eq_some.mp hi
  have hslot := (hslots id (List.mem_of_getElem? hid)).trans (h.lookup id)
  cases ht : t.previous.lookup id with
  | none =>
    rw [ht, Option.map_none] at hslot
    simp [resetContext, ← hslot]
  | some p =>
    rw [ht, Option.map_some] at hslot
    have hs := (hslots id (List.mem_of_getElem? hid)).symm
    rw [ht, Option.map_some] at hs
    obtain ⟨q, hq, hctx⟩ := Option.map_eq_some_iff.mp hs
    have hsame : src.same p.context row = p.context.isPrefixOf row := by
      rw [Bool.eq_iff_iff]
      refine ⟨fun hsame => ?_, same_of_isPrefixOf src⟩
      rw [List.isPrefixOf_iff_prefix, ← hctx]
      exact hext i id row q hid hrow hq (by rw [hctx]; exact hsame)
    cases hp : p.context.isPrefixOf row <;> simp [resetContext, hsame, ← hslot, hp, Option.filter]

/-- A row that extends its tracked context leaves itself as the context. -/
lemma contextAfter_of_extends {same : List Token → List Token → Bool} {row : List Token}
    {slot : Option Previous}
    (h : ∀ p, slot = some p → same p.context row = true → p.context <+: row) :
    contextAfter same row slot = row := by
  cases slot with
  | none => rfl
  | some p =>
    cases hsame : same p.context row with
    | false => simp [contextAfter, hsame]
    | true =>
      obtain ⟨delta, hdelta⟩ := h p rfl hsame
      simp [contextAfter, ← hdelta]

/-- An accepted call feeds the cache with what it adds, which are the sessions that end, and tracks its
batch. -/
theorem Accepts.adds [F64] {o : HashOrder ReqId} {s : HybridMixer} {ids : List ReqId} {src : Source}
    {natives : List (List Token)} {accepted : Option (List ℤ)} {last : Roster}
    (h : s.Accepts o ids src natives accepted) (hinv : s.Inv) (htrack : s.Tracking last)
    (hext : s.Extends ids src) :
    ∃ drafts s' adds, s.call o ids src natives accepted = some (.ok drafts, s') ∧ s'.Inv ∧
      s.callAdds o ids src natives accepted = some adds ∧
      run Cache.add s.cache adds = some s'.cache ∧
      (nonempty adds).Perm (nonempty (last.ended (ids.zip (src.rows ids.length)))) ∧
      s'.Tracking (ids.zip (src.rows ids.length)) := by
  obtain ⟨drafts, s', hcall, _, hinv', _, hkeys, hrows⟩ := h.rows hinv
  obtain ⟨s0, drafts', s1, hstart, hmix, hsteps⟩ := mixCore_spec hinv o h.args h.compares
  obtain ⟨s0', hstart', hinv0, _, _, _, _, hfed, hslots⟩ := start_spec hinv o h.args.nodup accepted
  obtain rfl : s0 = s0' := Option.some.inj (hstart.symm.trans hstart')
  have hfst : (ids.zip natives).map Prod.fst = ids := List.map_fst_zip h.args.natives_length.ge
  have hzip : (ids.zip natives).length = ids.length := by
    rw [List.length_zip, h.args.natives_length, Nat.min_self]
  have hcache : s'.cache = s1.cache := by
    rw [h.eq, hmix] at hcall
    cases hcall
    rfl
  obtain ⟨later, hlater, hfed', hreset⟩ := hsteps.adds hinv0.cache h.compares
    (by rw [hfst]; exact h.args.nodup) (fun v hv => by
      rw [hzip, Nat.zero_add, h.args.accepted_length v hv])
  rw [hfst, List.drop_zero, htrack.reset_eq hext (fun id hid => ?_)] at hreset
  · refine ⟨drafts, s', (s.feedback ids accepted).donated o ids ++ later, hcall, hinv', ?_, ?_, ?_, ?_⟩
    · simp [callAdds, hcall, hstart, hlater]
    · rw [run_append, hfed, Option.bind_some, hfed', hcache]
    · rw [Roster.ended, nonempty_append, nonempty_append, hreset]
      exact ((htrack.donated_perm o h.args.nodup accepted h.args.rows_length).filter _).append_right _
    · refine ⟨by rw [List.map_fst_zip h.args.rows_length]; exact h.args.nodup, fun id => ?_⟩
      by_cases hid : id ∈ ids
      · obtain ⟨i, hi⟩ := List.getElem?_of_mem hid
        have hlt := (List.getElem?_eq_some_iff.mp hi).1
        have hn := List.getElem?_eq_getElem (hlt.trans_eq h.args.natives_length.symm)
        have hr := List.getElem?_eq_getElem (hlt.trans_le h.args.rows_length)
        obtain ⟨draft, t, _, _, hrow⟩ := hrows i id _ _ hi hn hr
        obtain ⟨t', _, hstep, hafter⟩ := hrow.step
        obtain ⟨p, hp, hprop, _⟩ := hstep.previous
        rw [hafter, hp, Map.lookup_put_self, Option.map_some, Roster.lookup_zip h.args.nodup hi hr,
          hprop.context, contextAfter_of_extends]
        intro q hq hsame
        rw [hrow.slot] at hq
        obtain ⟨q', hq', rfl⟩ := Option.map_eq_some_iff.mp hq
        rw [(gradeAt_fields _ _).1] at hsame ⊢
        exact hext i id _ q' hi hr hq' hsame
      · have hnone : s'.previous.lookup id = none :=
          AList.lookup_eq_none.mpr fun hmem => hid ((hkeys id).mp hmem)
        rw [hnone, Roster.lookup_zip_of_notMem hid, Option.map_none]
  · rw [hslots, if_pos hid, Option.map_map]
    congr 1
    funext p
    exact (gradeAt_fields _ _).1

/-- The contexts that a mixer tracks, as a batch. -/
lemma exists_tracking (s : HybridMixer) : ∃ last, s.Tracking last := by
  have hlen : s.previous.keys.length
      ≤ (s.previous.keys.map fun id => ((s.previous.lookup id).map (·.context)).getD []).length := by
    rw [List.length_map]
  refine ⟨s.previous.keys.zip
    (s.previous.keys.map fun id => ((s.previous.lookup id).map (·.context)).getD []), ?_, fun id => ?_⟩
  · rw [List.map_fst_zip hlen]
    exact s.previous.keys_nodup
  · by_cases hid : id ∈ s.previous.keys
    · obtain ⟨i, hi⟩ := List.getElem?_of_mem hid
      obtain ⟨p, hp⟩ := Map.exists_lookup (AList.mem_keys.mpr hid)
      have hctx : (s.previous.keys.map fun id => ((s.previous.lookup id).map (·.context)).getD [])[i]?
          = some p.context := by
        simp [hi, hp]
      rw [Roster.lookup_zip s.previous.keys_nodup hi hctx, hp]
      rfl
    · rw [Roster.lookup_zip_of_notMem hid,
        AList.lookup_eq_none.mpr fun hmem => hid (AList.mem_keys.mp hmem)]
      rfl

/-- A call whose rows all extend their tracked contexts donates the contexts of departed requests only,
and tracks its rows. -/
theorem call_extended [F64] {o : HashOrder ReqId} {s s' : HybridMixer} {ids : List ReqId} {src : Source}
    {natives drafts : List (List Token)} {accepted : Option (List ℤ)} (hinv : s.Inv)
    (hcall : s.call o ids src natives accepted = some (.ok drafts, s'))
    (hrows : ∀ (i : ℕ) (id : ReqId) (row : List Token) (p : Previous), ids[i]? = some id →
      (src.rows ids.length)[i]? = some row → s.previous.lookup id = some p → p.context <+: row) :
    (∃ adds, s.callAdds o ids src natives accepted = some adds ∧ ∀ seq ∈ adds, seq ≠ [] →
      ∃ id p, id ∉ ids ∧ s.previous.lookup id = some p ∧ seq = p.context) ∧
      ∀ id p, s'.previous.lookup id = some p →
        ∃ i : ℕ, ids[i]? = some id ∧ (src.rows ids.length)[i]? = some p.context := by
  obtain ⟨hacc, _⟩ := call_ok_spec hinv hcall
  obtain ⟨last, hlast⟩ := s.exists_tracking
  obtain ⟨drafts', t, adds, hcall', _, hadds, _, hperm, htrack⟩ := hacc.adds hinv hlast
    fun i id row p hid hrow hp _ => hrows i id row p hid hrow hp
  rw [hcall] at hcall'
  cases hcall'
  have hlookup {batch : Roster} {id : ReqId} {ctx : List Token} (h : batch.lookup id = some ctx) :
      (id, ctx) ∈ batch := by
    obtain ⟨l₁, l₂, rfl, _⟩ := List.lookup_eq_some_iff.mp h
    simp
  refine ⟨⟨adds, hadds, fun seq hseq hne => ?_⟩, fun id p hp => ?_⟩
  · -- a donated context is a departed one, since no row resets its request
    have hmem : seq ∈ nonempty (last.ended (ids.zip (src.rows ids.length))) :=
      hperm.mem_iff.mp (List.mem_filter.mpr ⟨hseq, by simpa using hne⟩)
    rcases List.mem_append.mp (List.mem_of_mem_filter hmem) with hdeparted | hreset
    · obtain ⟨⟨id, ctx⟩, he, rfl⟩ := List.mem_map.mp hdeparted
      obtain ⟨hin, hout⟩ := List.mem_filter.mp he
      rw [List.map_fst_zip hacc.args.rows_length] at hout
      have hctx := hlast.lookup id
      rw [Roster.lookup_of_mem hlast.nodup hin] at hctx
      obtain ⟨p, hp, hpc⟩ := Option.map_eq_some_iff.mp hctx
      exact ⟨id, p, by simpa using hout, hp, hpc.symm⟩
    · obtain ⟨⟨id, row⟩, he, hfilter⟩ := List.mem_filterMap.mp hreset
      obtain ⟨hfound, hshort⟩ := Option.filter_eq_some_iff.mp hfilter
      obtain ⟨i, hi⟩ := List.getElem?_of_mem he
      obtain ⟨hid, hrow⟩ := List.getElem?_zip_eq_some.mp hi
      have hctx := hlast.lookup id
      rw [hfound] at hctx
      obtain ⟨p, hp, rfl⟩ := Option.map_eq_some_iff.mp hctx
      simp [List.isPrefixOf_iff_prefix.mpr (hrows i id row p hid hrow hp)] at hshort
  · have hctx := htrack.lookup id
    rw [hp, Option.map_some] at hctx
    obtain ⟨i, hi⟩ := List.getElem?_of_mem (hlookup hctx.symm)
    exact ⟨i, List.getElem?_zip_eq_some.mp hi⟩

/-! ## Runs -/

/-- In an accepted call, a row that passes for a continuation of its tracked context extends it. -/
def ContextsExtend [F64] (s : HybridMixer) : Op → Prop
  | .call o ids src natives accepted =>
    s.Accepts o ids src natives accepted → s.Extends ids src
  | _ => True

lemma donations_append (entries later : List (Origin × List Token)) :
    donations (entries ++ later) = donations entries ++ donations later := by
  simp [donations]

lemma donations_mixer (adds : List (List Token)) :
    donations (adds.map fun seq => (.mixer, seq)) = nonempty adds := by
  simp [donations, nonempty, List.filter_map, Function.comp_def]

/-- An operation feeds the cache with what it adds. The mixer's part are the sessions that end. -/
lemma Tracking.step [F64] {s : HybridMixer} {last : Roster} (h : s.Tracking last) (hinv : s.Inv)
    {operation : Op} (hext : s.ContextsExtend operation) :
    ∃ s' entries, s.op operation = some s' ∧ s'.Inv ∧ s.opAdds operation = some entries ∧
      run Cache.add s.cache (entries.map Prod.snd) = some s'.cache ∧
      (donations entries).Perm (nonempty (last.endedAlong (s.opRoster operation))) ∧
      s'.Tracking (last.after (s.opRoster operation)) := by
  cases operation with
  | call o ids src natives accepted =>
    rcases call_cases o s ids src natives accepted with ⟨e, he⟩ | hacc
    · refine ⟨s, [], by simp [HybridMixer.op, he], hinv, by simp [opAdds, callAdds, he], rfl, ?_, ?_⟩
      · simp [opRoster, he, donations]
      · simpa [opRoster, he, Roster.after] using h
    · obtain ⟨drafts, s', adds, hcall, hinv', hadds, hfed, hperm, htrack⟩ :=
        hacc.adds hinv h (hext hacc)
      refine ⟨s', adds.map fun seq => (.mixer, seq), by simp [HybridMixer.op, hcall], hinv',
        by simp [opAdds, hadds], ?_, ?_, ?_⟩
      · simpa [Function.comp_def] using hfed
      · rw [donations_mixer]
        simpa [opRoster, hcall] using hperm
      · simpa [opRoster, hcall, Roster.after] using htrack
  | addSequence tokens =>
    obtain ⟨cache, hadd, hcinv, _⟩ := hinv.cache.add tokens
    exact ⟨{ s with cache }, [(.caller, tokens)], by simp [HybridMixer.op, hadd],
      ⟨hcinv, hinv.previous⟩, rfl, by simp [hadd], .rfl, ⟨h.nodup, h.lookup⟩⟩
  | addPrompt tokens =>
    obtain ⟨cache, hadd, hcinv, _⟩ := hinv.cache.add tokens
    cases hprompts : s.cache.cfg.prompts with
    | true =>
      exact ⟨{ s with cache }, [(.caller, tokens)],
        by simp [HybridMixer.op, Cache.addPrompt, hprompts, hadd], ⟨hcinv, hinv.previous⟩,
        by simp [opAdds, hprompts], by simp [hadd], .rfl, ⟨h.nodup, h.lookup⟩⟩
    | false =>
      exact ⟨s, [], by simp [HybridMixer.op, Cache.addPrompt, hprompts], hinv,
        by simp [opAdds, hprompts], rfl, .rfl, h⟩

/-- A run feeds the cache with its log. -/
lemma Tracking.along [F64] {s : HybridMixer} {last : Roster} (h : s.Tracking last) (hinv : s.Inv)
    {ops : List Op} (hext : Lib.Along op ContextsExtend s ops) :
    ∃ s' entries, run op s ops = some s' ∧ log s ops = some entries ∧
      run Cache.add s.cache (entries.map Prod.snd) = some s'.cache ∧
      (donations entries).Perm (nonempty (last.endedAlong (collect op opRoster s ops))) ∧
      s'.Tracking (last.after (collect op opRoster s ops)) := by
  induction ops generalizing s last with
  | nil => exact ⟨s, [], rfl, rfl, rfl, .rfl, h⟩
  | cons operation ops ih =>
    obtain ⟨s1, now, hop, hinv1, hnow, hfed, hperm, htrack⟩ := h.step hinv hext.1
    obtain ⟨s2, entries, hrun, hlog, hfed', hperm', htrack'⟩ := ih htrack hinv1 (hext.2 s1 hop)
    refine ⟨s2, now ++ entries, by simp [hop, hrun], by simp [log, hnow, hop, hlog], ?_, ?_, ?_⟩
    · rw [List.map_append, run_append, hfed, Option.bind_some, hfed']
    · rw [donations_append, collect_cons opRoster hop, Roster.endedAlong_append, nonempty_append]
      exact hperm.append hperm'
    · rw [collect_cons opRoster hop, Roster.after_append]
      exact htrack'

/-- Along a run whose contexts extend the tracked ones, the cache is fed with exactly what the log says.
Up to empty sequences the mixer's part of it are the final contexts of the sessions that ended, each
once, and after the run the mixer tracks the last batch. -/
theorem histories_conserved [F64] {cfg : Config} {env : MixerEnv} {k maxModelLen : ℕ}
    {s : HybridMixer} (hnew : HybridMixer.new cfg env k maxModelLen = .ok s) {ops : List Op}
    (hext : Lib.Along op ContextsExtend s ops) :
    ∃ s' entries, run op s ops = some s' ∧ log s ops = some entries ∧
      run Cache.add s.cache (entries.map Prod.snd) = some s'.cache ∧
      (donations entries).Perm
        ((Roster.endedAlong [] (collect op opRoster s ops)).filter (· ≠ [])) ∧
      ∀ id, (s'.previous.lookup id).map (·.context)
        = (Roster.after [] (collect op opRoster s ops)).lookup id := by
  have htrack : s.Tracking [] := by
    refine ⟨List.nodup_nil, fun id => ?_⟩
    unfold HybridMixer.new at hnew
    split at hnew
    · rw [← Except.ok.inj hnew]
      simp [empty]
    · simp at hnew
  obtain ⟨s', entries, hrun, hlog, hfed, hperm, htrack'⟩ := htrack.along (inv_new hnew) hext
  exact ⟨s', entries, hrun, hlog, hfed, hperm, htrack'.lookup⟩

/-- Two requests come, one leaves, and the other starts over. -/
def departAndReset : List Op :=
  [.call (HashOrder.stored ReqId) ["a", "b"] (.lists [[1, 2, 3], [4, 5]]) [[7], [7]] none,
    .call (HashOrder.stored ReqId) ["a"] (.lists [[1, 2, 3, 4]]) [[7]] (some [0]),
    .call (HashOrder.stored ReqId) ["a"] (.lists [[9]]) [[7]] none]

/-- The run donates the history of the request that left and the one of the request that was reset. -/
theorem histories_conserved_departAndReset :
    ∃ s' entries,
      run op (empty Config.default {} 2 100 (by decide)) departAndReset = some s' ∧
      log (empty Config.default {} 2 100 (by decide)) departAndReset = some entries ∧
      run Cache.add (Cache.new Config.default) (entries.map Prod.snd) = some s'.cache ∧
      (donations entries).Perm ((Roster.endedAlong []
        (collect op opRoster (empty Config.default {} 2 100 (by decide)) departAndReset)).filter
          (· ≠ [])) ∧
      ∀ id, (s'.previous.lookup id).map (·.context) = (Roster.after []
        (collect op opRoster (empty Config.default {} 2 100 (by decide)) departAndReset)).lookup id := by
  have hnew : HybridMixer.new Config.default {} 2 100
      = .ok (empty Config.default {} 2 100 (by decide)) := rfl
  refine histories_conserved hnew ?_
  have hlists (s : HybridMixer) (operation : Op) (hop : operation ∈ departAndReset) :
      s.ContextsExtend operation := by
    simp only [departAndReset, List.mem_cons, List.not_mem_nil, or_false] at hop
    rcases hop with rfl | rfl | rfl <;> exact fun _ => extends_lists _ _ _
  exact Along.of_forall hlists

example : Roster.endedAlong [] [[("a", [1, 2, 3]), ("b", [4, 5])], [("a", [1, 2, 3, 4])], [("a", [9])]]
    = [[4, 5], [1, 2, 3, 4]] := by decide

end HybridMixer
end SuffixHybrid
