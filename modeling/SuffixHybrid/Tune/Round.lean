import Mathlib.Algebra.Order.Ring.Rat
import SuffixHybrid.Lib.History
import SuffixHybrid.Tune.Plan

/-!
# What a promotion installs

A decision is about the feeds since the gate was reset: nothing else but a rollback lies between
(`Round`), and a promotion follows a decision at once. `measured_along` shows this of every run. That a
round is closed before anything else happens (`Closed`) holds of the runs in which the last batch of a
round has an alive window and enough memory; `lost_round` is a run in which it has not.
-/

namespace SuffixHybrid.Tuner
open Lib

variable {W P F : Type}

/-! ## Rounds -/

/-- What may happen inside a round. -/
def Event.quiet : Event W P F → Prop
  | .fedLive _ _ | .fedCand _ _ | .rolledBack => True
  | _ => False

/-- The windows over which the live adapter was replayed. -/
def liveWindows (es : List (Event W P F)) : List W :=
  es.flatMap fun
    | .fedLive _ ws => ws
    | _ => []

/-- The windows over which the candidate was replayed. -/
def candWindows (es : List (Event W P F)) : List W :=
  es.flatMap fun
    | .fedCand _ ws => ws
    | _ => []

/-- What the `Stats` of the live adapter count. -/
def liveSums (c : Config W P F) (es : List (Event W P F)) : ℕ × ℕ :=
  es.foldl (fun st e => match e with
    | .fedLive p ws => addStats c p ws st
    | _ => st) (0, 0)

/-- What the `Stats` of the candidate count. -/
def candSums (c : Config W P F) (es : List (Event W P F)) : ℕ × ℕ :=
  es.foldl (fun st e => match e with
    | .fedCand p ws => addStats c p ws st
    | _ => st) (0, 0)

/-- The events behind a reset of the gate over the windows `q`, with one candidate `p`: no optimizer
step and no promotion, both adapters over the same windows, each of them once. -/
structure Round (q : List W) (mid : List (Event W P F)) (p : P) : Prop where
  quiet : ∀ e ∈ mid, e.quiet
  same : liveWindows mid = candWindows mid
  once : (liveWindows mid).Nodup
  held : ∀ w ∈ liveWindows mid, w ∈ q
  cand : ∀ p' ws, .fedCand p' ws ∈ mid → p' = p

/-- A decision over `n` anchors with gain `g` about the candidate `p`, by the feeds of its round. -/
def Decision [Sub F] (c : Config W P F) (pre : List (Event W P F)) (n : ℕ) (g : F) (p : P) : Prop :=
  ∃ start q mid, pre = start ++ .opened q :: mid ∧ Round q mid p ∧ (∃ ws, .fedCand p ws ∈ mid) ∧
    n = (liveSums c mid).1 ∧
    g = c.mean (candSums c mid).1 (candSums c mid).2 - c.mean (liveSums c mid).1 (liveSums c mid).2

/-- What the past of a decision and of a promotion is. -/
def Measured [Sub F] [LE F] (c : Config W P F) (pre : List (Event W P F)) : Event W P F → Prop
  | .decided n g ok => (∃ p, Decision c pre n g p) ∧ (ok = true ↔ c.minAnchors ≤ n ∧ c.margin ≤ g)
  | .promoted p => .rolledBack ∉ pre ∧ ∃ pre' n g, pre = pre' ++ [.decided n g true] ∧
      Decision c pre' n g p ∧ c.minAnchors ≤ n ∧ c.margin ≤ g
  | _ => True

/-! ## The open round -/

/-- The round whose windows `rest` are still to come, as the gate and the log have it. -/
def Going (c : Config W P F) (s : State W P) (rest : List W) (L : List (Event W P F)) : Prop :=
  ∃ start q mid seen, L = start ++ .opened q :: mid ∧ q.Nodup ∧ q = seen ++ rest ∧
    (liveWindows mid).Sublist seen ∧ (∀ e ∈ mid, e.quiet) ∧ liveWindows mid = candWindows mid ∧
    (∀ p' ws, .fedCand p' ws ∈ mid → p' = c.serving s.params) ∧
    s.liveStats = liveSums c mid ∧ s.candStats = candSums c mid

/-- What `Going` looks at. -/
lemma Going.congr {c : Config W P F} {s s' : State W P} {rest : List W} {L : List (Event W P F)}
    (h : Going c s rest L) (hp : s'.params = s.params) (hl : s'.liveStats = s.liveStats)
    (hc : s'.candStats = s.candStats) : Going c s' rest L := by
  rw [Going, hp, hl, hc]
  exact h

/-- Windows that leave the queue. -/
lemma Going.drop {c : Config W P F} {s : State W P} {recs rest : List W} {L : List (Event W P F)}
    (h : Going c s (recs ++ rest) L) : Going c s rest L := by
  obtain ⟨start, q, mid, seen, hL, hnd, rfl, hsub, hrest⟩ := h
  refine ⟨start, _, mid, seen ++ recs, hL, hnd, by rw [List.append_assoc], ?_, hrest⟩
  exact hsub.trans (List.sublist_append_left seen recs)

/-- A new round. -/
lemma Going.start (c : Config W P F) (e : Env W P) (s : State W P) (L : List (Event W P F)) :
    Going c (openRound c e s) (openRound c e s).queue (L ++ [.opened (openRound c e s).queue]) := by
  refine ⟨L, _, [], [], rfl, ?_, rfl, List.nil_sublist _, by simp, rfl, by simp, rfl, rfl⟩
  rw [openRound, lastWindows]
  split <;> exact e.held.2.sublist (List.drop_sublist ..)

/-- A rollback inside a round. -/
lemma Going.rollback {c : Config W P F} {s : State W P} {rest : List W} {L : List (Event W P F)}
    (h : Going c s rest L) : Going c s rest (L ++ [.rolledBack]) := by
  obtain ⟨start, q, mid, seen, rfl, hnd, hq, hsub, hquiet, hsame, hcand, hl, hc⟩ := h
  refine ⟨start, q, mid ++ [.rolledBack], seen, by simp, hnd, hq, ?_, ?_, ?_, ?_, ?_, ?_⟩
  · simpa [liveWindows] using hsub
  · intro e he
    rw [List.mem_append, List.mem_singleton] at he
    obtain he | rfl := he
    · exact hquiet e he
    · trivial
  · simpa [liveWindows, candWindows] using hsame
  · intro p' ws h
    exact hcand p' ws (by simpa using h)
  · simpa [liveSums] using hl
  · simpa [candSums] using hc

/-- The feed of the alive windows among those that left the queue. -/
lemma Going.fed {c : Config W P F} {s : State W P} {recs rest ws : List W}
    {L : List (Event W P F)} (h : Going c s (recs ++ rest) L) (hws : ws.Sublist recs) :
    Going c (feed c ws s) rest (L ++ [.fedLive s.live ws, .fedCand (c.serving s.params) ws]) := by
  obtain ⟨start, q, mid, seen, rfl, hnd, rfl, hsub, hquiet, hsame, hcand, hl, hc⟩ := h
  refine ⟨start, _, mid ++ [.fedLive s.live ws, .fedCand (c.serving s.params) ws], seen ++ recs,
    by simp, hnd, by rw [List.append_assoc], ?_, ?_, ?_, ?_, ?_, ?_⟩
  · simpa [liveWindows] using hsub.append hws
  · intro e he
    rw [List.mem_append] at he
    obtain he | he := he
    · exact hquiet e he
    · rw [List.mem_pair] at he
      obtain rfl | rfl := he <;> trivial
  · simpa [liveWindows, candWindows] using hsame
  · intro p' ws' h
    rw [List.mem_append, List.mem_pair] at h
    obtain h | h | h := h
    · exact hcand p' ws' h
    · cases h
    · exact (Event.fedCand.inj h).1
  · simp [Tuner.feed, liveSums, List.foldl_append, hl]
  · simp [Tuner.feed, candSums, List.foldl_append, hc]

lemma batch_cases (e : Env W P) (recs : List W) (op : List W → Plan W) :
    batch e recs op = .none ∧ recs.filter e.alive = [] ∨
      batch e recs op = op (recs.filter e.alive) ∧ recs.filter e.alive ≠ [] := by
  rw [batch]
  split <;> simp_all

/-- What leaves the queue and what stays. -/
lemma take_append_pop (s : State W P) :
    s.queue.take s.windowsPerMicro ++ (pop s).queue = s.queue := by
  have hdrop : (pop s).queue = s.queue.drop s.windowsPerMicro := by
    rw [pop, List.length_take]
    obtain h | h := Nat.le_total s.windowsPerMicro s.queue.length
    · rw [Nat.min_eq_left h]
    · rw [Nat.min_eq_right h, List.drop_length, List.drop_of_length_le h]
  rw [hdrop, List.take_append_drop]

section
variable [Sub F]

/-- The decision at the end of a round. -/
lemma Going.decision {c : Config W P F} {s : State W P} {recs rest ws : List W}
    {L : List (Event W P F)} (h : Going c s (recs ++ rest) L) (hws : ws.Sublist recs) :
    Decision c (L ++ [.fedLive s.live ws, .fedCand (c.serving s.params) ws])
      (feed c ws s).liveStats.1 (gain c (feed c ws s)) (c.serving s.params) := by
  obtain ⟨start, q, mid, seen, hL, hnd, rfl, hsub, hquiet, hsame, hcand, hl, hc⟩ := h.fed hws
  refine ⟨start, _, mid, hL, ⟨hquiet, hsame, ?_, ?_, hcand⟩, ⟨ws, ?_⟩, by rw [hl], by rw [gain, hl, hc]⟩
  · exact (hnd.sublist (List.sublist_append_left seen rest)).sublist hsub
  · exact fun w hw => List.mem_append_left _ (hsub.subset hw)
  · have hlast := congrArg List.getLast? hL
    cases mid with
    | nil => simp at hlast
    | cons e mid =>
      refine List.mem_of_getLast? ?_
      simpa using hlast.symm

variable [LE F]

/-! ## Every run -/

/-- What the log and the state of a run have in common. -/
structure Inv (c : Config W P F) (s : State W P) (L : List (Event W P F)) : Prop where
  hist : History (Measured c) L
  back : .rolledBack ∈ L → s.rolledBack = true
  going : s.queue ≠ [] → Going c s s.queue L

/-- What a plan says about the queue. -/
structure Planned (c : Config W P F) (e : Env W P) (p : Option (Plan W)) (s : State W P)
    (L : List (Event W P F)) : Prop where
  inv : Inv c s L
  train : ∀ ws, p = some (.train ws) → s.queue = []
  eval : ∀ ws last, p = some (.eval ws last) → ∃ recs, Going c s (recs ++ s.queue) L ∧
    ws = recs.filter e.alive ∧ last = s.queue.isEmpty

lemma plan_inv (c : Config W P F) (e : Env W P) (fuel look : ℕ) {s : State W P}
    {L : List (Event W P F)} (h : Inv c s L) :
    Planned c e (plan c e fuel look s).1 (plan c e fuel look s).2.1 (L ++ (plan c e fuel look s).2.2) := by
  induction fuel generalizing look s L with
  | zero =>
    rw [plan, List.append_nil]
    exact ⟨h, by simp, by simp⟩
  | succ fuel ih =>
    rw [plan]
    split
    case isTrue =>
      rw [List.append_nil]
      exact ⟨h, by simp, by simp⟩
    case isFalse =>
    split
    case h_1 w rest hq =>
      have hgoing := h.going (by simp [hq])
      have hpop : Going c (pop s) (s.queue.take s.windowsPerMicro ++ (pop s).queue) L := by
        rw [take_append_pop]
        exact hgoing.congr rfl rfl rfl
      rw [List.append_nil]
      refine ⟨⟨h.hist, h.back, fun _ => hpop.drop⟩, ?_, ?_⟩
      · intro ws hws
        obtain ⟨hb, -⟩ | ⟨hb, -⟩ := batch_cases e (s.queue.take s.windowsPerMicro)
          fun ws => .eval ws (pop s).queue.isEmpty
        · simp [hb] at hws
        · simp [hb] at hws
      · intro ws last hws
        obtain ⟨hb, -⟩ | ⟨hb, -⟩ := batch_cases e (s.queue.take s.windowsPerMicro)
          fun ws => .eval ws (pop s).queue.isEmpty
        · simp [hb] at hws
        · simp only [hb, Option.some.injEq, Plan.eval.injEq] at hws
          exact ⟨_, hpop, hws.1.symm, hws.2.symm⟩
    case h_2 hq =>
      split
      case isTrue =>
        rw [List.append_cons]
        refine ih (look + 1) ⟨h.hist.snoc trivial, ?_, fun _ => Going.start c e s L⟩
        intro hback
        exact h.back (by simpa using hback)
      case isFalse =>
        split
        case isTrue =>
          rw [List.append_nil]
          refine ⟨h, fun _ _ => hq, ?_⟩
          intro ws last hws
          obtain ⟨hb, -⟩ | ⟨hb, -⟩ := batch_cases e
            (e.sample e.train (min s.windowsPerMicro e.train.length)) Plan.train
          · simp [hb] at hws
          · simp [hb] at hws
        case isFalse =>
          rw [List.append_nil]
          exact ⟨h, by simp, by simp⟩

variable [DecidableLE F]

/-- The decision and the promotion keep the log measured. -/
lemma close_inv {c : Config W P F} {s : State W P} {L : List (Event W P F)} (h : Inv c s L)
    (hd : Decision c L s.liveStats.1 (gain c s) (c.serving s.params)) (hq : s.queue = []) :
    Inv c (close c s).1 (L ++ (close c s).2) := by
  have hok : decideGate c s = true ↔ c.minAnchors ≤ s.liveStats.1 ∧ c.margin ≤ gain c s := by
    rw [decideGate, decide_eq_true_iff]
  have hdec : Measured c L (.decided s.liveStats.1 (gain c s) (decideGate c s)) := ⟨⟨_, hd⟩, hok⟩
  have hist := h.hist.snoc hdec
  rw [close]
  split
  case isTrue hpro =>
    simp only [Bool.and_eq_true, Bool.not_eq_true'] at hpro
    obtain ⟨⟨htrue, hback⟩, -⟩ := hpro
    rw [htrue] at hist ⊢
    have hnot : Event.rolledBack ∉ L ++ [.decided s.liveStats.1 (gain c s) true] := by
      intro hmem
      rw [List.mem_append, List.mem_singleton] at hmem
      obtain hmem | hmem := hmem
      · rw [h.back hmem] at hback
        cases hback
      · cases hmem
    rw [List.append_cons]
    refine ⟨hist.snoc ⟨hnot, L, _, _, rfl, hd, hok.mp htrue⟩, fun hmem => ?_, fun hne => absurd hq hne⟩
    exact absurd (by simpa using hmem) hnot
  case isFalse =>
    refine ⟨hist, fun hmem => h.back ?_, fun hne => absurd hq hne⟩
    simpa using hmem

/-- The op keeps the log measured. -/
lemma exec_inv {c : Config W P F} {e : Env W P} {s : State W P} {L : List (Event W P F)} {p : Plan W}
    (h : Planned c e (some p) s L) : Inv c (exec c e s p).1 (L ++ (exec c e s p).2) := by
  cases p with
  | none =>
    rw [exec, List.append_nil]
    exact h.inv
  | rollback =>
    refine ⟨h.inv.hist.snoc trivial, fun _ => rfl, fun hne => ?_⟩
    exact (h.inv.going hne).rollback.congr rfl rfl rfl
  | train ws =>
    have hq := h.train ws rfl
    rw [exec]
    split
    case isFalse =>
      rw [List.append_nil]
      exact h.inv
    case isTrue =>
      have hlog (es : List (Event W P F)) (hes : ∀ e ∈ es, e = .trained ws ∨ ∃ p, e = .stepped p) :
          History (Measured c) (L ++ es) ∧ (.rolledBack ∈ L ++ es → s.rolledBack = true) := by
        refine ⟨h.inv.hist.append fun e he pre => ?_, fun hmem => h.inv.back ?_⟩
        · obtain rfl | ⟨p, rfl⟩ := hes e he <;> trivial
        · rw [List.mem_append] at hmem
          refine hmem.resolve_right fun he => ?_
          obtain he | ⟨p, he⟩ := hes _ he <;> cases he
      simp only [train]
      split
      · obtain ⟨hist, hback⟩ := hlog [.trained ws] (by simp)
        exact ⟨hist, hback, fun hne => absurd hq hne⟩
      · split
        · obtain ⟨hist, hback⟩ := hlog [.trained ws, .stepped e.stepped] (by simp)
          exact ⟨hist, hback, fun hne => absurd hq hne⟩
        · obtain ⟨hist, hback⟩ := hlog [.trained ws] (by simp)
          exact ⟨hist, hback, fun hne => absurd hq hne⟩
  | eval ws last =>
    obtain ⟨recs, hgoing, rfl, rfl⟩ := h.eval ws last rfl
    rw [exec]
    split
    case isFalse =>
      rw [List.append_nil]
      exact h.inv
    case isTrue =>
      have hws : (recs.filter e.alive).Sublist recs := List.filter_sublist
      have hfed : Inv c (feed c (recs.filter e.alive) s) (L ++ [.fedLive s.live (recs.filter e.alive),
          .fedCand (c.serving s.params) (recs.filter e.alive)]) := by
        refine ⟨h.inv.hist.append ?_, fun hmem => h.inv.back ?_, fun _ => hgoing.fed hws⟩
        · intro e' he' pre
          rw [List.mem_pair] at he'
          obtain rfl | rfl := he' <;> trivial
        · simpa using hmem
      dsimp only
      split
      case isTrue hlast =>
        rw [← List.append_assoc]
        exact close_inv hfed (hgoing.decision hws) (List.isEmpty_iff.mp hlast)
      case isFalse => exact hfed

lemma step_inv {c : Config W P F} {e : Env W P} {s : State W P} {L : List (Event W P F)}
    (h : Inv c s L) : Inv c (step c e s).1 (L ++ (step c e s).2) := by
  rw [step]
  split
  case isTrue =>
    rw [List.append_nil]
    exact h
  case isFalse =>
    have hplan := plan_inv c e c.recursionLimit 0 h
    generalize plan c e c.recursionLimit 0 s = res at hplan
    obtain ⟨p, s', es⟩ := res
    cases p with
    | none => exact ⟨hplan.inv.hist, hplan.inv.back, fun hne => (hplan.inv.going hne).congr rfl rfl rfl⟩
    | some p =>
      dsimp only
      rw [← List.append_assoc]
      exact exec_inv hplan

end

/-! ## Closed rounds -/

/-- The last round of a log has no decision yet. -/
def isOpen (L : List (Event W P F)) : Bool :=
  L.foldl (fun b e => match e with
    | .opened _ => true
    | .decided _ _ _ => false
    | _ => b) false

/-- No round is open at a training step or when a round opens. -/
def Closed (pre : List (Event W P F)) : Event W P F → Prop
  | .opened _ | .trained _ | .stepped _ => isOpen pre = false
  | _ => True

/-- The rollback file is seen at a look. -/
def sees (c : Config W P F) (e : Env W P) (s : State W P) (look : ℕ) : Bool :=
  c.hasRollbackFile && !s.rolledBack && e.rollback look

/-- The windows of the round of a step: those of the queue, or those of a new round. -/
def current (c : Config W P F) (e : Env W P) (s : State W P) : List W :=
  match s.queue with
  | [] => lastWindows c.evalWindows e.held.1
  | w :: ws => w :: ws

/-- A step that does not lose its round: a round opens with a window, and the step that takes the last
windows of a round finds one of them alive and enough memory. -/
structure Closing (c : Config W P F) (s : State W P) (e : Env W P) : Prop where
  opens : sees c e s 0 = false → s.queue = [] → due c e s →
    lastWindows c.evalWindows e.held.1 ≠ []
  last : sees c e s 0 = false → (s.queue = [] → due c e s ∧ sees c e s 1 = false) →
    (current c e s).length ≤ s.windowsPerMicro → (∃ w ∈ current c e s, e.alive w = true) ∧ e.memOk = true

/-- An open round still has windows in the queue, or the tuner is off. -/
structure Tidy (s : State W P) (L : List (Event W P F)) : Prop where
  hist : History Closed L
  rest : isOpen L = true → s.queue ≠ [] ∨ s.disabled = true

@[simp] lemma isOpen_snoc (L : List (Event W P F)) (e : Event W P F) :
    isOpen (L ++ [e]) = match e with
      | .opened _ => true
      | .decided _ _ _ => false
      | _ => isOpen L := by
  rw [isOpen, List.foldl_append]
  cases e <;> rfl

lemma isOpen_append (L es : List (Event W P F)) (h : ∀ e ∈ es, e.quiet ∨ ∃ p, e = .promoted p) :
    isOpen (L ++ es) = isOpen L := by
  induction es generalizing L with
  | nil => rw [List.append_nil]
  | cons e es ih =>
    rw [List.append_cons, ih (L ++ [e]) fun e' he' => h e' (List.mem_cons_of_mem _ he'), isOpen_snoc]
    obtain hq | ⟨p, rfl⟩ := h e List.mem_cons_self
    · cases e <;> first | rfl | exact hq.elim
    · rfl

/-- Entries that neither open nor decide nor train. -/
lemma Tidy.quiet {s s' : State W P} {L es : List (Event W P F)} (h : Tidy s L)
    (hes : ∀ e ∈ es, e.quiet ∨ ∃ p, e = .promoted p) (hs : s'.queue = s.queue)
    (hd : s'.disabled = s.disabled) : Tidy s' (L ++ es) where
  hist := by
    refine h.hist.append fun e he pre => ?_
    obtain hq | ⟨p, rfl⟩ := hes e he
    · cases e <;> trivial
    · trivial
  rest hopen := by
    rw [isOpen_append L es hes] at hopen
    rw [hs, hd]
    exact h.rest hopen

/-- The end of a round. -/
lemma close_tidy [Sub F] [LE F] [DecidableLE F] {c : Config W P F} {s : State W P}
    {L : List (Event W P F)} (h : History Closed L) : Tidy (close c s).1 (L ++ (close c s).2) := by
  have hdec : Tidy s (L ++ [.decided s.liveStats.1 (gain c s) (decideGate c s)]) := by
    refine ⟨h.snoc trivial, fun hopen => ?_⟩
    simp at hopen
  rw [close]
  split
  case isTrue =>
    rw [List.append_cons]
    exact hdec.quiet (by simp) rfl rfl
  case isFalse => exact hdec

section
variable [Sub F] [LE F] [DecidableLE F]

/-- A step that takes windows from the queue: they are not the last ones, or the round ends. -/
lemma pop_tidy {c : Config W P F} {e : Env W P} {s : State W P} {L : List (Event W P F)}
    (h : History Closed L) (hlast : s.queue.length ≤ s.windowsPerMicro →
      (∃ w ∈ s.queue, e.alive w = true) ∧ e.memOk = true) :
    let op := batch e (s.queue.take s.windowsPerMicro) fun ws => .eval ws (pop s).queue.isEmpty
    Tidy (exec c e (pop s) op).1 (L ++ (exec c e (pop s) op).2) := by
  intro op
  have hfeeds (ws : List W) : History Closed
      (L ++ [.fedLive (pop s).live ws, .fedCand (c.serving (pop s).params) ws]) := by
    refine h.append fun e he pre => ?_
    rw [List.mem_pair] at he
    obtain rfl | rfl := he <;> trivial
  by_cases hrest : (pop s).queue = []
  case pos =>
    have htake : s.queue.take s.windowsPerMicro = s.queue := by
      have happ := take_append_pop s
      rwa [hrest, List.append_nil] at happ
    obtain ⟨⟨w, hw, halive⟩, hmem⟩ := hlast (List.take_eq_self_iff s.queue |>.mp htake)
    have hfilter : s.queue.filter e.alive ≠ [] :=
      List.ne_nil_of_mem (List.mem_filter.mpr ⟨hw, halive⟩)
    have hop : op = .eval (s.queue.filter e.alive) true := by
      obtain ⟨-, hnil⟩ | ⟨hb, -⟩ := batch_cases e (s.queue.take s.windowsPerMicro)
        fun ws => .eval ws (pop s).queue.isEmpty
      · rw [htake] at hnil
        exact absurd hnil hfilter
      · rw [show op = _ from hb, htake, hrest]
        rfl
    rw [hop, exec, if_pos hmem]
    dsimp only
    rw [if_pos rfl, ← List.append_assoc]
    exact close_tidy (hfeeds _)
  case neg =>
    have htidy : Tidy (pop s) L := ⟨h, fun _ => .inl hrest⟩
    obtain ⟨hb, -⟩ | ⟨hb, -⟩ := batch_cases e (s.queue.take s.windowsPerMicro)
      fun ws => .eval ws (pop s).queue.isEmpty
    · rw [show op = _ from hb, exec, List.append_nil]
      exact htidy
    · rw [show op = _ from hb, exec]
      split
      case isFalse =>
        rw [List.append_nil]
        exact htidy
      case isTrue =>
        have hne : (pop s).queue.isEmpty = false := by simpa using hrest
        simp only [hne, Bool.false_eq_true, if_false]
        exact ⟨hfeeds _, fun _ => .inl hrest⟩

lemma train_tidy {c : Config W P F} {e : Env W P} {s : State W P} {L : List (Event W P F)}
    {recs : List W} (h : Tidy s L) (hclosed : isOpen L = false) :
    Tidy (exec c e s (batch e recs .train)).1 (L ++ (exec c e s (batch e recs .train)).2) := by
  have htrained (ws : List W) : History Closed (L ++ [.trained ws]) ∧
      isOpen (L ++ [.trained ws]) = false := by
    refine ⟨h.hist.snoc hclosed, ?_⟩
    rwa [isOpen_snoc]
  obtain ⟨hb, -⟩ | ⟨hb, -⟩ := batch_cases e recs Plan.train
  · rw [hb, exec, List.append_nil]
    exact h
  rw [hb, exec]
  split
  case isFalse =>
    rw [List.append_nil]
    exact h
  case isTrue =>
    obtain ⟨hist, hopen⟩ := htrained (recs.filter e.alive)
    have habsurd : ∀ {p : Prop}, isOpen (L ++ [.trained (recs.filter e.alive)]) = true → p := by
      intro p hp
      rw [hopen] at hp
      cases hp
    simp only [train]
    split
    · exact ⟨hist, fun hp => habsurd hp⟩
    · split
      · rw [List.append_cons]
        refine ⟨hist.snoc hopen, fun hp => habsurd ?_⟩
        rwa [isOpen_snoc] at hp
      · exact ⟨hist, fun hp => habsurd hp⟩

omit [Sub F] [LE F] [DecidableLE F] in
lemma plan_rollback {c : Config W P F} {e : Env W P} {s : State W P} {look : ℕ}
    (h : sees c e s look = true) (fuel : ℕ) :
    plan c e (fuel + 1) look s = (some .rollback, s, []) := by
  rw [plan]
  exact if_pos h

omit [Sub F] [LE F] [DecidableLE F] in
lemma plan_queue {c : Config W P F} {e : Env W P} {s : State W P} {look : ℕ}
    (h : sees c e s look = false) (hq : s.queue ≠ []) (fuel : ℕ) :
    plan c e (fuel + 1) look s =
      (some (batch e (s.queue.take s.windowsPerMicro) fun ws => .eval ws (pop s).queue.isEmpty),
        pop s, []) := by
  rw [sees] at h
  rw [plan, h]
  split
  · contradiction
  · split
    · rfl
    · contradiction

omit [Sub F] [LE F] [DecidableLE F] in
lemma plan_due {c : Config W P F} {e : Env W P} {s : State W P} {look : ℕ}
    (h : sees c e s look = false) (hq : s.queue = []) (hd : due c e s) (fuel : ℕ) :
    plan c e (fuel + 1) look s =
      ((plan c e fuel (look + 1) (openRound c e s)).1, (plan c e fuel (look + 1) (openRound c e s)).2.1,
        .opened (openRound c e s).queue :: (plan c e fuel (look + 1) (openRound c e s)).2.2) := by
  rw [sees] at h
  rw [plan, h, hq]
  simp [hd]

omit [Sub F] [LE F] [DecidableLE F] in
lemma plan_rest {c : Config W P F} {e : Env W P} {s : State W P} {look : ℕ}
    (h : sees c e s look = false) (hq : s.queue = []) (hd : ¬ due c e s) (fuel : ℕ) :
    plan c e (fuel + 1) look s = (some .none, s, []) ∨ ∃ recs,
      plan c e (fuel + 1) look s = (some (batch e recs .train), s, []) := by
  rw [sees] at h
  rw [plan, h, hq]
  by_cases ht : c.minTrainWindows ≤ e.train.length
  · refine .inr ⟨e.sample e.train (min s.windowsPerMicro e.train.length), ?_⟩
    simp only [Bool.false_eq_true, if_false, if_neg hd, if_pos ht]
  · exact .inl (by simp only [Bool.false_eq_true, if_false, if_neg hd, if_neg ht])

lemma step_tidy {c : Config W P F} {e : Env W P} {s : State W P} {L : List (Event W P F)}
    (h : Tidy s L) (hc : s.disabled = false → Closing c s e) :
    Tidy (step c e s).1 (L ++ (step c e s).2) := by
  rw [step]
  split
  case isTrue =>
    rw [List.append_nil]
    exact h
  case isFalse hdis =>
  rw [Bool.not_eq_true] at hdis
  have hcl := hc hdis
  cases c.recursionLimit with
  | zero =>
    rw [plan, List.append_nil]
    exact ⟨h.hist, fun _ => .inr rfl⟩
  | succ fuel =>
  by_cases hsee : sees c e s 0 = true
  case pos =>
    rw [plan_rollback hsee]
    exact h.quiet (by simp [exec, Event.quiet]) rfl rfl
  case neg =>
  rw [Bool.not_eq_true] at hsee
  by_cases hq : s.queue = []
  case neg =>
    rw [plan_queue hsee hq]
    refine pop_tidy h.hist fun hlen => ?_
    have hcur : current c e s = s.queue := by
      rw [current]
      split
      · contradiction
      · exact (by assumption : s.queue = _).symm
    rw [← hcur] at hlen ⊢
    exact hcl.last hsee (fun hnil => absurd hnil hq) hlen
  case pos =>
  have hclosed : isOpen L = false := by
    by_contra hopen
    rw [Bool.not_eq_false] at hopen
    obtain hne | hd := h.rest hopen
    · exact hne hq
    · rw [hdis] at hd
      cases hd
  by_cases hdue : due c e s
  case neg =>
    obtain hp | ⟨recs, hp⟩ := plan_rest hsee hq hdue fuel
    · rw [hp]
      dsimp only
      rw [exec, List.append_nil, List.append_nil]
      exact h
    · rw [hp]
      exact train_tidy h hclosed
  case pos =>
  have hne : (openRound c e s).queue ≠ [] := hcl.opens hsee hq hdue
  have hist : History Closed (L ++ [.opened (openRound c e s).queue]) := h.hist.snoc hclosed
  rw [plan_due hsee hq hdue]
  dsimp only
  cases fuel with
  | zero =>
    rw [plan]
    exact ⟨hist, fun _ => .inr rfl⟩
  | succ fuel =>
  by_cases hsee1 : sees c e s 1 = true
  case pos =>
    have hroll : sees c e (openRound c e s) (0 + 1) = true := hsee1
    rw [plan_rollback hroll]
    have htidy : Tidy (openRound c e s) (L ++ [.opened (openRound c e s).queue]) :=
      ⟨hist, fun _ => .inl hne⟩
    have hquiet : ∀ e ∈ [(.rolledBack : Event W P F)], e.quiet ∨ ∃ p, e = .promoted p := by
      simp [Event.quiet]
    have hback : Tidy { openRound c e s with live := c.zeroed, rolledBack := true } _ :=
      htidy.quiet hquiet rfl rfl
    rw [List.append_assoc] at hback
    exact hback
  case neg =>
    rw [Bool.not_eq_true] at hsee1
    have hpop : sees c e (openRound c e s) (0 + 1) = false := hsee1
    rw [plan_queue hpop hne]
    dsimp only
    rw [List.cons_append, List.nil_append, List.append_cons]
    refine pop_tidy hist fun hlen => ?_
    have hcur : current c e s = (openRound c e s).queue := by
      rw [current, hq]
      rfl
    rw [← hcur] at hlen ⊢
    exact hcl.last hsee (fun _ => ⟨hdue, hsee1⟩) hlen

lemma run_next (c : Config W P F) (s : State W P) (es : List (Env W P)) :
    ∃ s', run (next c) s es = some s' := by
  have hstep : ∀ s e, True → ∃ s', next c s e = some s' ∧ True := fun s e _ => ⟨_, rfl, trivial⟩
  obtain ⟨s', hs', -⟩ := run_total hstep trivial es
  exact ⟨s', hs'⟩

/-- Every decision of a run is about the windows of its own round, and a promotion installs what its
decision measured. -/
theorem measured_along (c : Config W P F) (params live : P) (es : List (Env W P)) :
    History (Measured c) (log c (.init params live) es) := by
  obtain ⟨s', hs'⟩ := run_next c (.init params live) es
  have hinit : Inv c (.init params live) ([] : List (Event W P F)) :=
    ⟨.nil, by simp, fun hne => absurd rfl hne⟩
  have hstep : ∀ (s : State W P) (e : Env W P) (s' : State W P) (l : List (Event W P F)),
      Inv c s l → True → next c s e = some s' → Inv c s' (l ++ (step c e s).2) := by
    intro s e s' l h _ hs'
    rw [← Option.some.inj hs']
    exact step_inv h
  have h := collect_inv hstep hinit (Along.of_forall fun _ _ _ => trivial) hs'
  rw [List.nil_append] at h
  exact h.hist

/-- In a run that loses no round, each is closed by its decision before anything else happens. -/
theorem rounds_closed (c : Config W P F) (params live : P) (es : List (Env W P))
    (h : Along (next c) (fun s e => s.disabled = false → Closing c s e) (.init params live) es) :
    History (Measured c) (log c (.init params live) es) ∧
      History Closed (log c (.init params live) es) := by
  refine ⟨measured_along c params live es, ?_⟩
  obtain ⟨s', hs'⟩ := run_next c (.init params live) es
  have hinit : Tidy (.init params live) ([] : List (Event W P F)) := ⟨.nil, by simp [isOpen]⟩
  have hstep : ∀ (s : State W P) (e : Env W P) (s' : State W P) (l : List (Event W P F)),
      Tidy s l → (s.disabled = false → Closing c s e) → next c s e = some s' →
      Tidy s' (l ++ (step c e s).2) := by
    intro s e s' l h hc hs'
    rw [← Option.some.inj hs']
    exact step_tidy h hc
  have htidy := collect_inv hstep hinit h hs'
  rw [List.nil_append] at htidy
  exact htidy.hist

end

/-! ## A lost round -/

/-- A small configuration: an evaluation after each optimizer step. -/
def small : Config ℕ ℕ ℚ where
  evalEvery := 1
  evalWindows := 64
  minEvalWindows := 1
  minTrainWindows := 1
  accum := 1
  maxWindows := 1
  minAnchors := 1
  margin := 0
  shadow := false
  hasRollbackFile := true
  recursionLimit := 1000
  serving := id
  anchors := fun _ _ => 1
  accepted := fun _ _ => 1
  mean := fun n acc => acc / max n 1
  zeroed := 0

/-- Two held-out windows and one training window, all of them alive. -/
def room (memOk : Bool) : Env ℕ ℕ where
  held := ⟨[1, 2], by decide⟩
  train := [10]
  alive _ := true
  rollback _ := false
  memOk := memOk
  sample ws n := ws.take n
  stepped := 7
  fit := 1

theorem rounds_closed_room :
    History (Measured small) (log small (.init 5 5) [room true, room true]) ∧
      History Closed (log small (.init 5 5) [room true, room true]) := by
  refine rounds_closed small 5 5 [room true, room true] ⟨fun _ => ⟨?_, ?_⟩, fun s' hs' => ?_⟩
  · intro _ _ h
    exact absurd h (by decide)
  · intro _ h
    exact absurd (h rfl).1 (by decide)
  · rw [← Option.some.inj hs']
    refine ⟨fun _ => ⟨?_, ?_⟩, fun _ _ => trivial⟩
    · exact fun _ _ _ => by decide
    · exact fun _ _ _ => ⟨⟨1, by decide, rfl⟩, rfl⟩

/-- The memory check refuses the last batch of a round: no decision is made, and training goes on. -/
theorem lost_round : ¬ ∀ (es : List (Env ℕ ℕ)), History Closed (log small (.init 5 5) es) := by
  intro h
  have hclosed := h [room true, room true, room false, room true]
    [.trained [10], .stepped 7, .opened [1, 2], .fedLive 5 [1], .fedCand 7 [1]] (.trained [10])
    [.stepped 7] rfl
  have hopen : true = false := hclosed
  cases hopen

end SuffixHybrid.Tuner
