import SuffixHybrid.Capture.Store

/-!
# The windows of a store

The rows that a request has open are a `Strand`: rising counters of the request and, where every request's rows
have consecutive positions (`E`), with consecutive positions. Windows are cut off its front, and only the `k + 1`
label rows of a window stay open, so no row is an anchor of two windows (`Windows`).
-/

namespace SuffixHybrid.Capture
open Lib

variable {H R : Type} {E : Prop} {captured captured' : ℕ → Option (R × Row H)} {rid : R}
variable {rows : List ℕ} {next : ℤ}

/-! ## Strands -/

/-- Rising counters of a request; with consecutive positions, the next one being `next`. -/
structure Strand (E : Prop) (captured : ℕ → Option (R × Row H)) (rid : R) (rows : List ℕ) (next : ℤ) : Prop where
  sorted : rows.Pairwise (· < ·)
  own : ∀ c ∈ rows, ∃ row, captured c = some (rid, row)
  pos : E → ∀ (t c : ℕ) row, rows[t]? = some c → captured c = some (rid, row) →
    row.pos = next - (rows.length : ℤ) + (t : ℤ)

namespace Strand

lemma nil (E : Prop) (captured : ℕ → Option (R × Row H)) (rid : R) (next : ℤ) : Strand E captured rid [] next :=
  ⟨.nil, fun c hc => absurd hc List.not_mem_nil, fun _ t c row h => by cases h⟩

lemma nodup (h : Strand E captured rid rows next) : rows.Nodup := h.sorted.imp Nat.ne_of_lt

lemma take (h : Strand E captured rid rows next) (n : ℕ) :
    Strand E captured rid (rows.take n) (next - rows.length + (rows.take n).length) where
  sorted := h.sorted.sublist (List.take_sublist _ _)
  own c hc := h.own c (List.take_subset _ _ hc)
  pos hE t c row ht hrow := by
    have hsome : rows[t]? = some c := by
      rw [List.getElem?_take] at ht
      split at ht
      · exact ht
      · cases ht
    have hpos := h.pos hE t c row hsome hrow
    omega

lemma drop (h : Strand E captured rid rows next) (n : ℕ) : Strand E captured rid (rows.drop n) next where
  sorted := h.sorted.sublist (List.drop_sublist _ _)
  own c hc := h.own c (List.drop_subset _ _ hc)
  pos hE t c row ht hrow := by
    rw [List.getElem?_drop] at ht
    have hlt := (List.getElem?_eq_some_iff.mp ht).1
    have hpos := h.pos hE (n + t) c row ht hrow
    rw [List.length_drop]
    omega

/-- Counters behind the others that go on with the positions. -/
lemma append (h : Strand E captured rid rows next) {c0 n : ℕ} (hlt : ∀ c ∈ rows, c < c0)
    (hnew : ∀ t < n, ∃ row, captured (c0 + t) = some (rid, row) ∧ (E → row.pos = next + (t : ℤ))) :
    Strand E captured rid (rows ++ List.range' c0 n) (next + n) where
  sorted := by
    refine List.pairwise_append.mpr ⟨h.sorted, List.pairwise_lt_range', fun c hc c' hc' => ?_⟩
    have := hlt c hc
    rw [List.mem_range'_1] at hc'
    omega
  own c hc := by
    obtain hc | hc := List.mem_append.mp hc
    · exact h.own c hc
    · rw [List.mem_range'_1] at hc
      obtain ⟨row, hrow, -⟩ := hnew (c - c0) (by omega)
      rw [Nat.add_sub_cancel' hc.1] at hrow
      exact ⟨row, hrow⟩
  pos hE t c row ht hrow := by
    rw [List.length_append, List.length_range']
    rw [List.getElem?_append] at ht
    split at ht
    case isTrue =>
      have hpos := h.pos hE t c row ht hrow
      omega
    case isFalse hge =>
      have hn := (List.getElem?_eq_some_iff.mp ht).1
      rw [List.length_range'] at hn
      rw [List.getElem?_range' hn] at ht
      cases ht
      obtain ⟨row', hrow', hpos⟩ := hnew _ hn
      rw [Nat.one_mul, hrow'] at hrow
      cases hrow
      have := hpos hE
      omega

/-- What is captured later changes nothing. -/
lemma congr (h : Strand E captured rid rows next) (hsame : ∀ c ∈ rows, captured' c = captured c) :
    Strand E captured' rid rows next where
  sorted := h.sorted
  own c hc := by
    rw [hsame c hc]
    exact h.own c hc
  pos hE t c row ht hrow := by
    rw [hsame c (List.mem_iff_getElem?.mpr ⟨t, ht⟩)] at hrow
    exact h.pos hE t c row ht hrow

end Strand

/-! ## Windows -/

/-- The anchors of a window: all rows but the last `k + 1`. -/
def anchors (cfg : Config R) (w : Window R) : List ℕ := w.rows.take (w.rows.length - (cfg.k + 1))

/-- Every window is a strand, and no row is an anchor twice. -/
structure Emitted (E : Prop) (cfg : Config R) (captured : ℕ → Option (R × Row H)) (emitted : List (Window R)) :
    Prop where
  strand : ∀ w ∈ emitted, ∃ next, Strand E captured w.rid w.rows next
  nodup : (emitted.flatMap (anchors cfg)).Nodup

variable [DecidableEq R] {cfg : Config R} {emitted : List (Window R)}

omit [DecidableEq R] in
lemma anchors_subset (w : Window R) : anchors cfg w ⊆ w.rows := List.take_subset _ _

/-- What an emission does. -/
lemma emit_eq (cfg : Config R) (s : State H R) (rid : R) (rows : List ℕ) (plen : ℤ) (final : Bool) :
    ∃ ws train held, State.emit cfg s rid rows plen final = { s with
      emitted := s.emitted ++ ws
      train := train
      held := held } ∧ ∀ w ∈ ws, ws = [w] ∧ w.rid = rid ∧ w.rows = rows := by
  rw [State.emit]
  by_cases hshort : rows.length < (if final then cfg.least else cfg.L)
  · rw [if_pos hshort]
    exact ⟨[], s.train, s.held, by rw [List.append_nil], fun w hw => absurd hw List.not_mem_nil⟩
  · rw [if_neg hshort]
    have hw (w : Window R) (hw : w ∈ [(⟨rows, plen, rid⟩ : Window R)]) :
        [(⟨rows, plen, rid⟩ : Window R)] = [w] ∧ w.rid = rid ∧ w.rows = rows := by
      obtain rfl := List.mem_singleton.mp hw
      exact ⟨rfl, rfl, rfl⟩
    dsimp only
    split
    · exact ⟨_, _, _, rfl, hw⟩
    · exact ⟨_, _, _, rfl, hw⟩

/-- An emission of a full window. -/
lemma emit_full (cfg : Config R) (s : State H R) (rid : R) (plen : ℤ) {rows : List ℕ} (h : cfg.L ≤ rows.length) :
    ∃ train held, State.emit cfg s rid (rows.take cfg.L) plen false = { s with
      emitted := s.emitted ++ [⟨rows.take cfg.L, plen, rid⟩]
      train := train
      held := held } := by
  have hlen : ¬(rows.take cfg.L).length < (if false = true then cfg.least else cfg.L) := by
    rw [if_neg Bool.false_ne_true, List.length_take]
    omega
  rw [State.emit, if_neg hlen]
  dsimp only
  split
  · exact ⟨_, _, rfl⟩
  · exact ⟨_, _, rfl⟩

omit [DecidableEq R] in
/-- A window more whose rows are open. -/
lemma Emitted.concat (h : Emitted E cfg captured emitted) {w : Window R} (hw : Strand E captured w.rid w.rows next)
    (hopen : ∀ c ∈ w.rows, c ∉ emitted.flatMap (anchors cfg)) : Emitted E cfg captured (emitted ++ [w]) where
  strand w' hw' := by
    obtain hw' | hw' := List.mem_append.mp hw'
    · exact h.strand w' hw'
    · obtain rfl := List.mem_singleton.mp hw'
      exact ⟨next, hw⟩
  nodup := by
    rw [List.flatMap_append, List.flatMap_singleton]
    refine List.nodup_append.mpr ⟨h.nodup, hw.nodup.sublist (List.take_sublist _ _), fun c hc c' hc' he => ?_⟩
    exact hopen c' (anchors_subset w hc') (he ▸ hc)

/-- The loop over the full windows: what it emits is cut off the rows, and what it leaves is open. -/
lemma emitFull_spec (E : Prop) (captured : ℕ → Option (R × Row H)) (cfg : Config R) (s : State H R) (rid : R) (plen : ℤ) (rows : List ℕ) :
    ∃ ws train held, (State.emitFull cfg s rid plen rows).1 = { s with
      emitted := s.emitted ++ ws
      train := train
      held := held } ∧ (∀ w ∈ ws, w.rid = rid ∧ w.rows ⊆ rows) ∧ (State.emitFull cfg s rid plen rows).2 ⊆ rows ∧
      ∀ next, Emitted E cfg captured s.emitted → Strand E captured rid rows next →
        (∀ c ∈ rows, c ∉ s.emitted.flatMap (anchors cfg)) → Emitted E cfg captured (s.emitted ++ ws) ∧
          Strand E captured rid (State.emitFull cfg s rid plen rows).2 next ∧
          ∀ c ∈ (State.emitFull cfg s rid plen rows).2, c ∉ (s.emitted ++ ws).flatMap (anchors cfg) := by
  induction s, rows using State.emitFull.induct cfg rid plen with
  | case1 s rows hfull ih =>
    rw [State.emitFull, if_pos hfull]
    obtain ⟨train0, held0, hemit⟩ := emit_full cfg s rid plen hfull
    obtain ⟨ws, train, held, heq, hws, hsub, hkeep⟩ := ih
    rw [hemit] at heq hkeep hsub ⊢
    have hdrop := List.drop_subset (cfg.L - (cfg.k + 1)) rows
    refine ⟨⟨rows.take cfg.L, plen, rid⟩ :: ws, train, held, ?_, fun w hw => ?_, fun c hc => hdrop (hsub hc), ?_⟩
    · rw [heq, List.append_assoc]
      rfl
    · obtain rfl | hw := List.mem_cons.mp hw
      · exact ⟨rfl, List.take_subset _ _⟩
      · exact ⟨(hws w hw).1, fun c hc => hdrop ((hws w hw).2 hc)⟩
    · intro next hem hst hopen
      have hstrand := hst.take cfg.L
      have hem' := hem.concat (w := ⟨rows.take cfg.L, plen, rid⟩) hstrand
        fun c hc => hopen c (List.take_subset _ _ hc)
      -- the rows that stay are behind the anchors of the window
      have hopen' : ∀ c ∈ rows.drop (cfg.L - (cfg.k + 1)),
          c ∉ (s.emitted ++ [(⟨rows.take cfg.L, plen, rid⟩ : Window R)]).flatMap (anchors cfg) := by
        intro c hc hmem
        rw [List.flatMap_append, List.flatMap_singleton] at hmem
        obtain hmem | hmem := List.mem_append.mp hmem
        · exact hopen c (hdrop hc) hmem
        · rw [anchors, List.length_take, min_eq_left hfull, List.take_take] at hmem
          have hmin : min (cfg.L - (cfg.k + 1)) cfg.L = cfg.L - (cfg.k + 1) := by omega
          rw [hmin] at hmem
          have hsplit := hst.nodup
          rw [← List.take_append_drop (cfg.L - (cfg.k + 1)) rows] at hsplit
          exact (List.nodup_append.mp hsplit).2.2 c hmem c hc rfl
      have h := hkeep next hem' (hst.drop _) hopen'
      rwa [List.append_assoc] at h
  | case2 s rows hshort =>
    rw [State.emitFull, if_neg hshort]
    refine ⟨[], s.train, s.held, by rw [List.append_nil], fun w hw => absurd hw List.not_mem_nil,
      List.Subset.refl _, ?_⟩
    intro next hem hst hopen
    rw [List.append_nil]
    exact ⟨hem, hst, hopen⟩

/-! ## Requests -/

/-- The windows that are emitted and the rows that are open, below a counter. -/
structure Windows (E : Prop) (cfg : Config R) (captured : ℕ → Option (R × Row H)) (bound : ℕ) (reqs : Map R Req)
    (emitted : List (Window R)) : Prop where
  sound : Emitted E cfg captured emitted
  emitted_lt : ∀ w ∈ emitted, ∀ c ∈ w.rows, c < bound
  req : ∀ rid r, reqs.lookup rid = some r → ∃ next, r.nextPos = some next ∧ Strand E captured rid r.rows next
  req_lt : ∀ rid r, reqs.lookup rid = some r → ∀ c ∈ r.rows, c < bound
  fresh : ∀ rid r, reqs.lookup rid = some r → ∀ c ∈ r.rows, c ∉ emitted.flatMap (anchors cfg)

namespace Windows
variable {bound bound' : ℕ} {reqs reqs' : Map R Req}

lemma mono (h : Windows E cfg captured bound reqs emitted) (hle : bound ≤ bound') :
    Windows E cfg captured bound' reqs emitted where
  sound := h.sound
  emitted_lt w hw c hc := Nat.lt_of_lt_of_le (h.emitted_lt w hw c hc) hle
  req := h.req
  req_lt rid r hr c hc := Nat.lt_of_lt_of_le (h.req_lt rid r hr c hc) hle
  fresh := h.fresh

/-- What is captured from the bound on changes nothing. -/
lemma congr (h : Windows E cfg captured bound reqs emitted) (hsame : ∀ c < bound, captured' c = captured c) :
    Windows E cfg captured' bound reqs emitted where
  sound :=
    { strand := fun w hw => by
        obtain ⟨next, hst⟩ := h.sound.strand w hw
        exact ⟨next, hst.congr fun c hc => hsame c (h.emitted_lt w hw c hc)⟩
      nodup := h.sound.nodup }
  emitted_lt := h.emitted_lt
  req rid r hr := by
    obtain ⟨next, hnext, hst⟩ := h.req rid r hr
    exact ⟨next, hnext, hst.congr fun c hc => hsame c (h.req_lt rid r hr c hc)⟩
  req_lt := h.req_lt
  fresh := h.fresh

/-- One request emits windows, and its own rows change. -/
lemma update (h : Windows E cfg captured bound reqs emitted) (rid : R) {ws : List (Window R)}
    (hem : Emitted E cfg captured (emitted ++ ws)) (hws : ∀ w ∈ ws, w.rid = rid ∧ ∀ c ∈ w.rows, c < bound)
    (hother : ∀ rid', rid' ≠ rid → reqs'.lookup rid' = reqs.lookup rid')
    (hself : ∀ r, reqs'.lookup rid = some r → (∃ next, r.nextPos = some next ∧ Strand E captured rid r.rows next) ∧
      ∀ c ∈ r.rows, c < bound ∧ c ∉ (emitted ++ ws).flatMap (anchors cfg)) :
    Windows E cfg captured bound reqs' (emitted ++ ws) where
  sound := hem
  emitted_lt w hw c hc := by
    obtain hw | hw := List.mem_append.mp hw
    · exact h.emitted_lt w hw c hc
    · exact (hws w hw).2 c hc
  req rid' r hr := by
    by_cases he : rid' = rid
    · subst he
      exact (hself r hr).1
    · exact h.req rid' r (hother rid' he ▸ hr)
  req_lt rid' r hr c hc := by
    by_cases he : rid' = rid
    · subst he
      exact ((hself r hr).2 c hc).1
    · exact h.req_lt rid' r (hother rid' he ▸ hr) c hc
  fresh rid' r hr c hc := by
    by_cases he : rid' = rid
    · subst he
      exact ((hself r hr).2 c hc).2
    · rw [hother rid' he] at hr
      rw [List.flatMap_append, List.mem_append, not_or]
      refine ⟨h.fresh rid' r hr c hc, fun hmem => ?_⟩
      -- the counter is one of both requests
      obtain ⟨w, hw, hcw⟩ := List.mem_flatMap.mp hmem
      obtain ⟨next, -, hst⟩ := h.req rid' r hr
      obtain ⟨next', hst'⟩ := hem.strand w (List.mem_append_right _ hw)
      obtain ⟨row, hrow⟩ := hst.own c hc
      obtain ⟨row', hrow'⟩ := hst'.own c (anchors_subset w hcw)
      rw [hrow, (hws w hw).1] at hrow'
      cases hrow'
      exact he rfl

/-- The rows of a request are emitted at last. -/
lemma emit (h : Windows E cfg captured bound reqs emitted) {r : Req} (hr : reqs.lookup rid = some r)
    {ws : List (Window R)} (hws : ∀ w ∈ ws, ws = [w] ∧ w.rid = rid ∧ w.rows = r.rows) :
    Emitted E cfg captured (emitted ++ ws) ∧ ∀ w ∈ ws, w.rid = rid ∧ ∀ c ∈ w.rows, c < bound := by
  refine ⟨?_, fun w hw => ⟨(hws w hw).2.1, fun c hc => h.req_lt rid r hr c ((hws w hw).2.2 ▸ hc)⟩⟩
  cases ws with
  | nil =>
    rw [List.append_nil]
    exact h.sound
  | cons w ws =>
    obtain ⟨heq, hrid, hrows⟩ := hws w List.mem_cons_self
    rw [heq]
    obtain ⟨next, -, hst⟩ := h.req rid r hr
    have hw : Strand E captured w.rid w.rows next := by
      rw [hrid, hrows]
      exact hst
    refine h.sound.concat hw fun c hc => ?_
    rw [hrows] at hc
    exact h.fresh rid r hr c hc

/-- The rows of a request go on, and its full windows are emitted. -/
lemma emitFull (h : Windows E cfg captured bound reqs emitted) {s : State H R} (ws : List (Window R))
    {first : ℤ} {c0 n : ℕ} (hs : s.emitted = emitted ++ ws) (hem : Emitted E cfg captured (emitted ++ ws))
    (hws : ∀ w ∈ ws, w.rid = rid ∧ ∀ c ∈ w.rows, c < bound) (hst : Strand E captured rid rows first)
    (hrows : ∀ c ∈ rows, c < bound ∧ c ∉ (emitted ++ ws).flatMap (anchors cfg)) (hle : bound ≤ c0)
    (hnew : ∀ t < n, ∃ row, captured (c0 + t) = some (rid, row) ∧ (E → row.pos = first + (t : ℤ))) (plen : ℤ) :
    ∃ ws' train held, (State.emitFull cfg s rid plen (rows ++ List.range' c0 n)).1 = { s with
      emitted := emitted ++ ws'
      train := train
      held := held } ∧ ∀ plen', Windows E cfg captured (c0 + n)
        (reqs.put rid ⟨(State.emitFull cfg s rid plen (rows ++ List.range' c0 n)).2, some (first + n), plen'⟩)
        (emitted ++ ws') := by
  obtain ⟨ws', train, held, heq, hws', hsub, hkeep⟩ :=
    emitFull_spec E captured cfg s rid plen (rows ++ List.range' c0 n)
  rw [hs, List.append_assoc] at heq hkeep
  have hlt : ∀ c ∈ rows ++ List.range' c0 n, c < c0 + n := by
    intro c hc
    obtain hc | hc := List.mem_append.mp hc
    · have := (hrows c hc).1
      omega
    · rw [List.mem_range'_1] at hc
      exact hc.2
  have hopen : ∀ c ∈ rows ++ List.range' c0 n, c ∉ (emitted ++ ws).flatMap (anchors cfg) := by
    intro c hc hmem
    obtain hc | hc := List.mem_append.mp hc
    · exact (hrows c hc).2 hmem
    · -- a new counter is above those that are emitted
      rw [List.mem_range'_1] at hc
      obtain ⟨w, hw, hcw⟩ := List.mem_flatMap.mp hmem
      have hcw := anchors_subset w hcw
      obtain hw | hw := List.mem_append.mp hw
      · have := h.emitted_lt w hw c hcw
        omega
      · have := (hws w hw).2 c hcw
        omega
  obtain ⟨hem', hst', hopen'⟩ := hkeep (first + n) hem
    (hst.append (fun c hc => Nat.lt_of_lt_of_le (hrows c hc).1 hle) hnew) hopen
  refine ⟨ws ++ ws', train, held, heq, fun plen' => ?_⟩
  refine (h.mono (Nat.le_trans hle (Nat.le_add_right c0 n))).update rid hem' (fun w hw => ?_) (fun rid' hne => ?_) fun r hr => ?_
  · obtain hw | hw := List.mem_append.mp hw
    · exact ⟨(hws w hw).1, fun c hc => by have := (hws w hw).2 c hc; omega⟩
    · exact ⟨(hws' w hw).1, fun c hc => hlt c ((hws' w hw).2 hc)⟩
  · exact Map.lookup_put_ne reqs _ hne
  · rw [Map.lookup_put_self] at hr
    cases hr
    exact ⟨⟨_, rfl, hst'⟩, fun c hc => ⟨hlt c (hsub hc), hopen' c hc⟩⟩

/-- `_append`. -/
lemma append {s : State H R} (h : Windows E cfg captured bound s.reqs s.emitted) {c0 n : ℕ} (hle : bound ≤ c0)
    (hnew : ∀ t < n, ∃ row, captured (c0 + t) = some (rid, row) ∧
      (E → row.pos = s.arena.pos (c0 % s.arena.cap) + (t : ℤ))) (plen : ℤ) :
    ∃ reqs' ws train held, State.append cfg s rid plen c0 n = { s with
      reqs := reqs'
      emitted := s.emitted ++ ws
      train := train
      held := held } ∧ Windows E cfg captured (c0 + n) reqs' (s.emitted ++ ws) := by
  have hnil (r : ℤ) (ws : List (Window R)) : ∀ c ∈ (⟨[], none, r⟩ : Req).rows,
      c < bound ∧ c ∉ (s.emitted ++ ws).flatMap (anchors cfg) := fun c hc => absurd hc List.not_mem_nil
  rw [State.append]
  cases hlook : s.reqs.lookup rid with
  | none =>
    obtain ⟨ws, train, held, heq, hw⟩ := h.emitFull (s := s) [] (List.append_nil _).symm
      (by rw [List.append_nil]; exact h.sound) (fun w hw => absurd hw List.not_mem_nil)
      (Strand.nil E captured rid _) (hnil plen []) hle hnew plen
    dsimp only
    rw [heq]
    exact ⟨_, ws, train, held, rfl, hw plen⟩
  | some r =>
    by_cases hgap : r.nextPos ≠ some (s.arena.pos (c0 % s.arena.cap))
    · -- a gap: the rows are emitted, and new ones are begun
      obtain ⟨ws0, train0, held0, hemit, hws0⟩ := emit_eq cfg s rid r.rows r.plen true
      obtain ⟨hem0, hws0⟩ := h.emit hlook hws0
      obtain ⟨ws, train, held, heq, hw⟩ := h.emitFull (s := State.emit cfg s rid r.rows r.plen true) ws0
        (by rw [hemit]) hem0 hws0 (Strand.nil E captured rid _) (hnil plen ws0) hle hnew plen
      dsimp only
      rw [if_pos hgap]
      dsimp only
      rw [hemit] at heq hw ⊢
      rw [heq]
      exact ⟨_, ws, train, held, rfl, hw plen⟩
    · obtain ⟨next, hnext, hst⟩ := h.req rid r hlook
      rw [not_not, hnext] at hgap
      cases hgap
      obtain ⟨ws, train, held, heq, hw⟩ := h.emitFull (s := s) [] (List.append_nil _).symm
        (by rw [List.append_nil]; exact h.sound) (fun w hw => absurd hw List.not_mem_nil) hst
        (fun c hc => ⟨h.req_lt rid r hlook c hc, by rw [List.append_nil]; exact h.fresh rid r hlook c hc⟩)
        hle hnew r.plen
      dsimp only
      rw [if_neg (not_not.mpr hnext)]
      dsimp only
      rw [heq]
      exact ⟨_, ws, train, held, rfl, hw r.plen⟩

/-- A request is taken out. -/
lemma erase {s : State H R} (h : Windows E cfg captured bound s.reqs s.emitted) {r : Req}
    (hr : s.reqs.lookup rid = some r) :
    ∃ ws train held, State.emit cfg { s with reqs := s.reqs.erase rid } rid r.rows r.plen true = { s with
      reqs := s.reqs.erase rid
      emitted := s.emitted ++ ws
      train := train
      held := held } ∧ Windows E cfg captured bound (s.reqs.erase rid) (s.emitted ++ ws) := by
  obtain ⟨ws, train, held, heq, hws⟩ := emit_eq cfg { s with reqs := s.reqs.erase rid } rid r.rows r.plen true
  obtain ⟨hem, hws⟩ := h.emit hr hws
  refine ⟨ws, train, held, heq, h.update rid hem hws (fun rid' hne => AList.lookup_erase_ne hne) fun r' hr' => ?_⟩
  rw [AList.lookup_erase] at hr'
  cases hr'

/-- `depart`. -/
lemma depart {s : State H R} (h : Windows E cfg captured bound s.reqs s.emitted) (liveIds : List R) :
    ∃ reqs' ws train held, State.depart cfg s liveIds = { s with
      reqs := reqs'
      emitted := s.emitted ++ ws
      train := train
      held := held } ∧ Windows E cfg captured bound reqs' (s.emitted ++ ws) := by
  rw [State.depart]
  generalize s.reqs.keys.reverse.filter _ = rids
  induction rids generalizing s with
  | nil =>
    refine ⟨s.reqs, [], s.train, s.held, ?_, ?_⟩
    · rw [List.append_nil]
      rfl
    · rw [List.append_nil]
      exact h
  | cons rid rids ih =>
    rw [List.foldl_cons]
    cases hr : s.reqs.lookup rid with
    | none => exact ih h
    | some r =>
      obtain ⟨ws, train, held, heq, hw⟩ := h.erase hr
      dsimp only
      rw [heq]
      obtain ⟨reqs', ws', train', held', heq', hw'⟩ := ih (s := { s with
        reqs := s.reqs.erase rid
        emitted := s.emitted ++ ws
        train := train
        held := held }) hw
      rw [heq']
      refine ⟨reqs', ws ++ ws', train', held', ?_, ?_⟩
      · rw [List.append_assoc]
      · rw [← List.append_assoc]
        exact hw'

end Windows

end SuffixHybrid.Capture
