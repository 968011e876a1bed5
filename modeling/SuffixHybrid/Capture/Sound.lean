import SuffixHybrid.Capture.Staged

/-!
# The windows never mix rows

In every run the stretches that are reserved lie in the ring one after the other, and no counter that is alive is
covered again. Where each slot is flushed before the next `absorb`, in the order of `enqueue`, a window lists rising
counters of one request, no row is an anchor twice, and `materialize` gives the rows that were captured, or nothing.
-/

namespace SuffixHybrid.Capture
open Lib

variable {H R : Type} [DecidableEq R] {E : Prop} {cfg : Config R} {s : State H R}

/-! ## The ring in every run -/

/-- The arena's counters and the stretches that are reserved. -/
def State.ring (s : State H R) : ℕ × ℕ × List (ℕ × ℕ) := (s.arena.cap, s.arena.written, s.reserved)

lemma ring_emit (cfg : Config R) (s : State H R) (rid : R) (rows : List ℕ) (plen : ℤ) (final : Bool) :
    (State.emit cfg s rid rows plen final).ring = s.ring := by
  obtain ⟨ws, train, held, heq, -⟩ := emit_eq cfg s rid rows plen final
  rw [heq]
  rfl

lemma ring_emitFull (cfg : Config R) (s : State H R) (rid : R) (plen : ℤ) (rows : List ℕ) :
    (State.emitFull cfg s rid plen rows).1.ring = s.ring := by
  induction s, rows using State.emitFull.induct cfg rid plen with
  | case1 s rows hfull ih =>
    rw [State.emitFull, if_pos hfull, ih]
    exact ring_emit _ _ _ _ _ _
  | case2 s rows hshort => rw [State.emitFull, if_neg hshort]

lemma ring_append (cfg : Config R) (s : State H R) (rid : R) (plen : ℤ) (c0 n : ℕ) :
    (State.append cfg s rid plen c0 n).ring = s.ring := by
  rw [State.append]
  cases s.reqs.lookup rid with
  | none => exact ring_emitFull _ _ _ _ _
  | some r =>
    dsimp only
    split
    · exact (ring_emitFull _ _ _ _ _).trans (ring_emit _ _ _ _ _ _)
    · exact ring_emitFull _ _ _ _ _

lemma ring_joinEntry (cfg : Config R) (slot : Slot H R) (s : State H R) (p : Entry R × ℕ) :
    (State.joinEntry cfg slot s p).ring = s.ring := by
  rw [State.joinEntry]
  dsimp only
  split
  · rfl
  · rw [ring_append]
    split
    · rfl
    · rfl

lemma ring_join (cfg : Config R) (s : State H R) (i : Bool) (rest : List Bool) :
    (s.join cfg i rest).ring = s.ring := by
  rw [State.join]
  dsimp only
  split
  · exact foldl_view State.ring (ring_joinEntry cfg _) _ _
  · rfl

lemma ring_absorbFrom (cfg : Config R) (l : List Bool) (s : State H R) :
    (State.absorbFrom cfg l s).ring = s.ring := by
  induction l generalizing s with
  | nil => rfl
  | cons i rest ih =>
    rw [State.absorbFrom]
    split
    · rfl
    · exact (ih _).trans (ring_join _ _ _ _)

lemma ring_copy (s : State H R) (c : Copy) : (s.copy c).ring = s.ring := by
  rw [State.copy]
  cases c.field <;> rfl

lemma ring_flush (cfg : Config R) (s : State H R) (i : Bool) : (s.flush cfg i).ring = s.ring := by
  rw [State.flush]
  split
  · exact foldl_view State.ring ring_copy _ _
  · rfl

lemma ring_depart (cfg : Config R) (s : State H R) (liveIds : List R) : (s.depart cfg liveIds).ring = s.ring := by
  refine foldl_view State.ring (fun s rid => ?_) _ _
  split
  · rfl
  · exact ring_emit _ _ _ _ _ _

/-- A step reserves at most a stretch behind the others. -/
lemma step_reserved {s' : State H R} {op : State.Op H R} (h : Reserved s.arena.cap s.arena.written s.reserved)
    (hstep : State.step cfg s op = some s') : Reserved s'.arena.cap s'.arena.written s'.reserved := by
  have hkeep (hring : s'.ring = s.ring) : Reserved s'.arena.cap s'.arena.written s'.reserved := by
    rw [State.ring, State.ring, Prod.mk.injEq, Prod.mk.injEq] at hring
    rw [hring.1, hring.2.1, hring.2.2]
    exact h
  cases op with
  | enqueue b =>
    cases hstep
    obtain heq | ⟨i, entries, src, start, total, -, -, hle, hfits, heq⟩ := enqueue_cases cfg s b
    · rw [heq]
      exact h
    · rw [heq]
      exact h.concat hle hfits
  | drafts i d =>
    cases hstep
    exact hkeep rfl
  | flush i =>
    cases hstep
    exact hkeep (ring_flush cfg s i)
  | complete =>
    rw [State.step] at hstep
    split at hstep
    · cases hstep
    · cases hstep
      exact hkeep (ring_copy _ _)
  | absorb =>
    cases hstep
    exact hkeep (ring_absorbFrom cfg _ s)
  | depart liveIds =>
    cases hstep
    exact hkeep (ring_depart cfg s liveIds)

/-- Without a stretch that splits over the end of the ring, no counter that is alive is covered again. -/
lemma Reserved.alive_ne (h : Reserved s.arena.cap s.arena.written s.reserved) {c : ℕ} (halive : s.arena.Alive c)
    {r : ℕ × ℕ} (hr : r ∈ s.reserved) (hlt : c < r.1) {i : ℕ} (hi : i < r.2) :
    (r.1 + i) % s.arena.cap ≠ c % s.arena.cap := by
  have hle := h.le r hr
  exact halive.mod_ne (by omega) (by omega)

/-! ## Disciplined runs -/

/-- A slot is flushed in its turn, and nothing is absorbed before. -/
def State.Disciplined (s : State H R) : State.Op H R → Prop
  | .enqueue b => ∀ j < b.reqIds.length, 0 ≤ b.numRejected j
  | .flush i => s.staged.head? = some i
  | .absorb => s.staged = []
  | _ => True

instance (s : State H R) : ∀ op, Decidable (s.Disciplined op)
  | .enqueue b => inferInstanceAs (Decidable (∀ j < b.reqIds.length, 0 ≤ b.numRejected j))
  | .flush i => inferInstanceAs (Decidable (s.staged.head? = some i))
  | .absorb => inferInstanceAs (Decidable (s.staged = []))
  | .drafts _ _ => isTrue trivial
  | .complete => isTrue trivial
  | .depart _ => isTrue trivial

/-- The rows of every request that is staged have consecutive positions. -/
def State.Op.Steady : State.Op H R → Prop
  | .enqueue b => b.Steady
  | _ => True

instance : ∀ op : State.Op H R, Decidable op.Steady
  | .enqueue b => inferInstanceAs (Decidable b.Steady)
  | .flush _ => isTrue trivial
  | .absorb => isTrue trivial
  | .drafts _ _ => isTrue trivial
  | .complete => isTrue trivial
  | .depart _ => isTrue trivial

/-- What holds in every state of a disciplined run. -/
def Inv (E : Prop) (cfg : Config R) (s : State H R) : Prop := Base E cfg s ∧ ∃ fin issued, Stream cfg s fin issued

lemma inv_init (E : Prop) (cfg : Config R) (cap : ℕ) (mem : Slot H R) : Inv E cfg (State.init cap mem) := by
  refine ⟨⟨⟨?_, ?_, .nil⟩, fun c hc => absurd rfl hc,
    (by decide : ([] ++ [false, true]).Nodup), ?_, .nil, fun c hc => absurd rfl hc, 0, Nat.le_refl 0, ?_, ?_⟩,
    [], [], ⟨rfl, ?_, fun c hc => absurd rfl hc⟩, ?_, ?_, fun i _ => rfl, fun _ => rfl, rfl⟩
  all_goals try exact fun i hi => absurd hi List.not_mem_nil
  refine ⟨⟨fun w hw => absurd hw List.not_mem_nil, .nil⟩, fun w hw => absurd hw List.not_mem_nil, ?_, ?_, ?_⟩
  all_goals
    intro rid r hr
    cases hr

/-- A step of a disciplined run. -/
lemma step_inv {s' : State H R} {op : State.Op H R} (h : Inv E cfg s) (hdisc : s.Disciplined op) (hE : E → op.Steady)
    (hstep : State.step cfg s op = some s') : Inv E cfg s' := by
  obtain ⟨hb, fin, issued, hs⟩ := h
  cases op with
  | enqueue b =>
    cases hstep
    obtain ⟨hb', hs'⟩ := hs.enqueue hb b hdisc hE
    exact ⟨hb', fin, issued, hs'⟩
  | drafts i d =>
    cases hstep
    obtain ⟨hb', hs'⟩ := hs.enqueueDrafts hb i d
    exact ⟨hb', fin, issued, hs'⟩
  | flush i =>
    cases hstep
    obtain ⟨fin', issued', hb', hs'⟩ := hs.flush hb hdisc
    exact ⟨hb', fin', issued', hs'⟩
  | complete =>
    rw [State.step] at hstep
    split at hstep
    · cases hstep
    · rename_i c copies hcopies
      cases hstep
      obtain ⟨fin', issued', hb', hs'⟩ := hs.complete hb hcopies
      exact ⟨hb', fin', issued', hs'⟩
  | absorb =>
    cases hstep
    obtain ⟨fin', issued', hb', hs'⟩ := absorbFrom_spec hs hb hdisc rfl
    exact ⟨hb', fin', issued', hs'⟩
  | depart liveIds =>
    cases hstep
    obtain ⟨bound, hbound, hstart, hw⟩ := hb.windows
    obtain ⟨reqs, ws, train, held, heq, hw'⟩ := hw.depart liveIds
    rw [heq]
    exact ⟨⟨hb.1, hb.2, hb.3, hb.4, hb.5, hb.6, bound, hbound, hstart, hw'⟩, fin, issued,
      ⟨hs.landing.1, hs.landing.2, hs.landing.3⟩, hs.2, hs.3, hs.4, hs.5,
      hs.pending.congr rfl rfl rfl rfl rfl fun _ _ => rfl⟩

/-! ## Windows -/

/-- A sample is what was captured for the rows of the window. -/
def Exact (s : State H R) (w : Window R) (d : State.Sample H R) : Prop :=
  ∃ rows : List (Row H), w.rows.map s.captured = rows.map (fun row => some (w.rid, row)) ∧
    d = ⟨rows.map Row.h, rows.map Row.tok, rows.map Row.pos, w.rows.map s.drafted,
      rows.map (fun row => row.pos ≥ w.plen - 1), w.rid⟩

/-- Rows of a request that are captured, and in the arena. -/
lemma exact_rows {rid : R} {l : List ℕ} (hl : ∀ c ∈ l, ∃ row, s.captured c = some (rid, row) ∧
    s.arena.h (c % s.arena.cap) = row.h ∧ s.arena.tok (c % s.arena.cap) = row.tok ∧
    s.arena.pos (c % s.arena.cap) = row.pos ∧ s.arena.d1 (c % s.arena.cap) = s.drafted c) :
    ∃ rows : List (Row H), l.map s.captured = rows.map (fun row => some (rid, row)) ∧
      (l.map (· % s.arena.cap)).map s.arena.h = rows.map Row.h ∧
      (l.map (· % s.arena.cap)).map s.arena.tok = rows.map Row.tok ∧
      (l.map (· % s.arena.cap)).map s.arena.pos = rows.map Row.pos ∧
      (l.map (· % s.arena.cap)).map s.arena.d1 = l.map s.drafted := by
  induction l with
  | nil => exact ⟨[], rfl, rfl, rfl, rfl, rfl⟩
  | cons c l ih =>
    obtain ⟨row, hcap, hh, htok, hpos, hd⟩ := hl c List.mem_cons_self
    obtain ⟨rows, hcaps, hhs, htoks, hposs, hds⟩ := ih fun c' hc' => hl c' (List.mem_cons_of_mem c hc')
    refine ⟨row :: rows, ?_, ?_, ?_, ?_, ?_⟩
    · rw [List.map_cons, List.map_cons, hcap, hcaps]
    · rw [List.map_cons, List.map_cons, List.map_cons, hh, hhs]
    · rw [List.map_cons, List.map_cons, List.map_cons, htok, htoks]
    · rw [List.map_cons, List.map_cons, List.map_cons, hpos, hposs]
    · rw [List.map_cons, List.map_cons, List.map_cons, hd, hds]

/-- `materialize` of a window that was emitted. -/
lemma Inv.materialize (h : Inv E cfg s) {w : Window R} (hw : w ∈ s.emitted) :
    s.materialize w = none ∨ ∃ d, s.materialize w = some d ∧ Exact s w d := by
  obtain ⟨hb, fin, issued, hs⟩ := h
  obtain ⟨bound, hbound, hstart, hwin⟩ := hb.windows
  obtain ⟨next, hst⟩ := hwin.sound.strand w hw
  rw [State.materialize]
  split
  case isFalse => exact .inl rfl
  case isTrue halive =>
    right
    have hrows : ∀ c ∈ w.rows, ∃ row, s.captured c = some (w.rid, row) ∧
        s.arena.h (c % s.arena.cap) = row.h ∧ s.arena.tok (c % s.arena.cap) = row.tok ∧
        s.arena.pos (c % s.arena.cap) = row.pos ∧ s.arena.d1 (c % s.arena.cap) = s.drafted c := by
      intro c hc
      obtain ⟨row, hrow⟩ := hst.own c hc
      have hne : s.captured c ≠ none := by
        rw [hrow]
        exact nofun
      -- the first row of the window is the oldest
      have hfirst : w.rows.headD 0 ≤ c := by
        have hsorted := hst.sorted
        cases hlist : w.rows with
        | nil => exact Nat.zero_le c
        | cons c0 l =>
          rw [hlist] at hc hsorted
          obtain rfl | hc := List.mem_cons.mp hc
          · exact Nat.le_refl c
          · exact Nat.le_of_lt ((List.pairwise_cons.mp hsorted).1 c hc)
      have hc' := halive.of_le hfirst
      have hlt := hwin.emitted_lt w hw c hc
      obtain ⟨j, hj, hcov⟩ | ⟨-, hholds⟩ := hs.landing.landed c hne
      · have hmem : j ∈ s.inflight := by
          rw [hs.landing.inflight]
          exact List.mem_append_right _ hj
        have := hstart j hmem
        have := hcov.1
        omega
      · obtain ⟨hh, htok, hpos⟩ := hholds w.rid row hrow hc'
        exact ⟨row, hrow, hh, htok, hpos, hb.drafted c hne hc'⟩
    obtain ⟨rows, hcaps, hh, htok, hpos, hd⟩ := exact_rows hrows
    have hanchor := congrArg (List.map fun p => decide (p ≥ w.plen - 1)) hpos
    rw [List.map_map, List.map_map (l := rows)] at hanchor
    refine ⟨_, rfl, rows, hcaps, ?_⟩
    rw [hh, htok, hpos, hd]
    exact congrArg (State.Sample.mk _ _ _ _ · _) hanchor

/-- In every run reservations are contiguous, and what is alive is not covered by a later one. Where every slot that
is staged is flushed once, in its turn and before the next `absorb`, a window lists rising counters of one request,
no row is an anchor of two windows, and `materialize` gives what was captured or nothing; where the rows of a request
have consecutive positions in every batch, those of a window have, too. -/
theorem windows_sound {cap : ℕ} {mem : Slot H R} {ops : List (State.Op H R)}
    (hrun : run (State.step cfg) (State.init cap mem) ops = some s) :
    (Reserved s.arena.cap s.arena.written s.reserved ∧ ∀ c, s.arena.Alive c → ∀ r ∈ s.reserved, c < r.1 →
      ∀ i < r.2, (r.1 + i) % s.arena.cap ≠ c % s.arena.cap) ∧
    (Along (State.step cfg) State.Disciplined (State.init cap mem) ops →
      (s.emitted.flatMap (anchors cfg)).Nodup ∧ ∀ w ∈ s.emitted, w.rows.Pairwise (· < ·) ∧
        (∀ c ∈ w.rows, ∃ row, s.captured c = some (w.rid, row)) ∧
        (s.materialize w = none ∨ ∃ d, s.materialize w = some d ∧ Exact s w d) ∧
        ((∀ op ∈ ops, op.Steady) → ∃ p : ℤ, ∀ (t c : ℕ) row, w.rows[t]? = some c →
          s.captured c = some (w.rid, row) → row.pos = p + (t : ℤ))) := by
  have hring : Reserved s.arena.cap s.arena.written s.reserved := by
    refine @run_inv _ _ _ (fun s => Reserved s.arena.cap s.arena.written s.reserved) (fun _ _ _ h => step_reserved h)
      _ _ ?_ _ hrun
    exact ⟨fun r hr => absurd hr List.not_mem_nil, fun r hr => absurd hr List.not_mem_nil, .nil⟩
  refine ⟨⟨hring, fun c halive r hr hlt i hi => hring.alive_ne halive hr hlt hi⟩, fun hdisc => ?_⟩
  -- the positions are followed where every batch has consecutive ones
  have hsteady : Along (State.step cfg) (fun _ op => (∀ op ∈ ops, op.Steady) → op.Steady) (State.init cap mem) ops :=
    Along.of_forall fun _ op hop hall => hall op hop
  have hinv : Inv (∀ op ∈ ops, op.Steady) cfg s :=
    Along.inv (fun s op s' hinv hop => step_inv hinv hop.1 hop.2) (inv_init _ cfg cap mem) (hdisc.and hsteady) hrun
  obtain ⟨bound, hbound, hstart, hwin⟩ := hinv.1.windows
  refine ⟨hwin.sound.nodup, fun w hw => ?_⟩
  obtain ⟨next, hst⟩ := hwin.sound.strand w hw
  exact ⟨hst.sorted, hst.own, hinv.materialize hw, fun hall => ⟨next - w.rows.length, hst.pos hall⟩⟩

/-! ## Runs -/

/-- A store with windows of one anchor. -/
def tiny : Config Bool where
  k := 0
  window := 1
  ctx := 0
  minRows := 0
  maxRows := 8
  cuda := true
  selected := fun _ => true
  heldout := fun _ => false
  window_pos := Nat.one_pos

/-- Memory full of zeros. -/
def blank : Slot ℤ Bool :=
  ⟨fun _ => 0, fun _ => 0, fun _ => 0, fun _ => 0, fun _ => 0, fun _ => 0, fun _ => 0, none, [], 0, 0⟩

/-- A step of some requests with two rows each. -/
def two (reqIds : List Bool) (h : ℤ) (positions : ℕ → ℤ) (rejected : ℤ) : Batch ℤ Bool :=
  ⟨reqIds, fun i => 2 * i, fun _ => 0, fun _ => 0, fun p => h + p, fun p => p, positions, fun _ => rejected⟩

/-- `flush`, and all the copies. -/
def flushed (i : Bool) : List (State.Op ℤ Bool) := .flush i :: List.replicate 6 .complete

/-- A step of one request that is flushed and absorbed. -/
def turn (h p : ℤ) : List (State.Op ℤ Bool) :=
  .enqueue (two [false] h (fun q => p + q) 0) :: flushed true ++ [.absorb]

/-- Three steps over a ring of five rows: the last one leaves out the rest of the ring. -/
def ringState : Option (State ℤ Bool) := run (State.step tiny) (State.init 5 blank) (turn 10 0 ++ turn 20 2 ++ turn 30 4)

lemma ringState_isSome : ringState.isSome := by with_unfolding_all decide

theorem windows_sound_ring :
    ringState.map (fun s => (s.reserved, s.emitted.map Window.rows)) =
      some ([(0, 2), (2, 2), (5, 2)], [[0, 1], [1, 2], [2, 3], [3, 5], [5, 6]]) ∧
    (5 + 1) % 5 ≠ 3 % 5 ∧ [(0 : ℕ), 1, 2, 3, 5].Nodup := by
  have h := windows_sound (Option.some_get ringState_isSome).symm
  have halive : (ringState.get ringState_isSome).arena.Alive 3 := by with_unfolding_all decide
  have hmem : (5, 2) ∈ (ringState.get ringState_isSome).reserved := by with_unfolding_all decide
  have hcap : (ringState.get ringState_isSome).arena.cap = 5 := by with_unfolding_all decide
  have hanchors : (ringState.get ringState_isSome).emitted.flatMap (anchors tiny) = [0, 1, 2, 3, 5] := by
    with_unfolding_all decide
  have hne := h.1.2 3 halive (5, 2) hmem (by decide) 1 (by decide)
  have hnodup := (h.2 (by with_unfolding_all decide)).1
  rw [hcap] at hne
  rw [hanchors] at hnodup
  exact ⟨by with_unfolding_all decide, hne, hnodup⟩

/-- What was captured for the rows of a window (the request, the hidden state and the position), and what
`materialize` gives. -/
structure Shown where
  captured : List (Option (Bool × ℤ × ℤ))
  materialized : Option (List ℤ)
deriving DecidableEq

def shown (s : State ℤ Bool) : List Shown :=
  s.emitted.map fun w => ⟨w.rows.map fun c => (s.captured c).map fun r => (r.1, r.2.h, r.2.pos),
    (s.materialize w).map fun d => d.h⟩

/-- Rows that were never flushed are what the arena had before; rows that were flushed out of turn are overwritten; a
negative number of rejected rows takes in the rows of another request; and positions need not be consecutive. -/
theorem unflushed_window_stale :
    (run (State.step tiny) (State.init 4 blank) [.enqueue (two [false] 10 (fun p => p) 0), .absorb]).map shown =
      some [⟨[some (false, 10, 0), some (false, 11, 1)], some [0, 0]⟩] ∧
    (run (State.step tiny) (State.init 2 blank) ([.enqueue (two [false] 10 (fun p => p) 0),
      .enqueue (two [false] 20 (fun p => 2 + p) 0)] ++ flushed false ++ flushed true ++ [.absorb])).map shown =
      some [⟨[some (false, 20, 2), some (false, 21, 3)], some [10, 11]⟩] ∧
    ((run (State.step tiny) (State.init 4 blank) ([.enqueue (two [false, true] 10 (fun p => p) (-1))] ++ flushed true ++
      [.absorb])).map shown).bind (·[1]?) = some ⟨[some (false, 11, 1), some (true, 12, 2)], some [11, 12]⟩ ∧
    (run (State.step tiny) (State.init 4 blank) ([.enqueue (two [false] 10 (fun _ => 5) 0)] ++ flushed true ++
      [.absorb])).map shown = some [⟨[some (false, 10, 5), some (false, 11, 5)], some [10, 11]⟩] := by
  refine ⟨?_, ?_, ?_, ?_⟩
  all_goals with_unfolding_all decide

end SuffixHybrid.Capture
