import Mathlib.Data.List.Chain
import SuffixHybrid.Gdn.Defer

/-!
# The deferred commit refines the slots of vLLM's contract

Over a run of steps the outputs and slot 0 are those of the stock kernel, and around a block boundary all
slots of the step are. Away from one, slot 1 holds the inputs of the step's other tokens, and the next step
rebuilds from them the state that the stock kernel reads.
-/

namespace SuffixHybrid.Gdn
open Lib

namespace Program
variable {S : Shape} {W O : Type} (D : Program S W O)

/-! ## A step -/

/-- The window of a request: distinct slots, none of them NULL. -/
structure Window : Prop where
  pos : ∀ t < S.WIN, 0 < D.slot t
  inj : ∀ t < S.WIN, ∀ t' < S.WIN, D.slot t = D.slot t' → t = t'

/-- The state after the first tokens of a step. -/
def after (p : Step S W) (h : State S W) : ℕ → State S W
  | 0 => h
  | t + 1 => D.update (after p h t) (p.x t).raw

/-- The outputs of the first tokens of a step. -/
def outputs (p : Step S W) (h : State S W) (i : ℕ) : List O :=
  (List.range i).map fun t => D.output (D.after p h (t + 1)) (p.x t)

lemma outputs_succ (p : Step S W) (h : State S W) (i : ℕ) :
    D.outputs p h (i + 1) = D.outputs p h i ++ [D.output (D.after p h (i + 1)) (p.x i)] := by
  simp only [outputs, List.range_succ, List.map_append, List.map_cons, List.map_nil]

/-- What the loop of the stock kernel has done after `i` tokens. -/
structure StockLoop (p : Step S W) (h : State S W) (i : ℕ) (r : State S W × Mem W × List O) :
    Prop where
  state : r.1 = D.after p h i
  outs : r.2.2 = D.outputs p h i
  tiles : ∀ t < i, D.tile r.2.1 (D.slot t) = D.after p h (t + 1)

variable {D}

lemma StockLoop.step (w : D.Window) {p : Step S W} {h : State S W} {i : ℕ}
    {r : State S W × Mem W × List O} (hi : i < S.WIN) (hr : D.StockLoop p h i r) :
    D.StockLoop p h (i + 1) (D.stockToken p r i) where
  state := congrArg (D.update · (p.x i).raw) hr.state
  outs := by
    rw [outputs_succ, ← hr.outs, after, ← hr.state]
    rfl
  tiles t ht := by
    obtain rfl | hlt := Nat.eq_or_lt_of_le (Nat.le_of_lt_succ ht)
    · rw [after, ← hr.state]
      exact D.tile_store _ _ _
    · rw [← hr.tiles t hlt]
      refine D.tile_store_ne _ (fun e => ?_) _
      exact absurd (w.inj t (by omega) i hi e) (by omega)

/-- A step of the stock kernel. -/
theorem stock_spec (w : D.Window) {p : Step S W} (hn : p.n ≤ S.WIN) (m : Mem W) :
    (D.stock m p).2 = D.outputs p (D.tile m (D.slot (p.acc - 1))) p.n ∧
      ∀ t < p.n, D.tile (D.stock m p).1 (D.slot t) =
        D.after p (D.tile m (D.slot (p.acc - 1))) (t + 1) := by
  have h := foldl_range_inv
    (P := D.StockLoop p (D.tile m (D.slot (p.acc - 1)))) (f := D.stockToken p) (m := p.n)
    (s := (D.tile m (D.slot (p.acc - 1)), m, [])) ⟨rfl, rfl, fun t ht => absurd ht t.not_lt_zero⟩
    fun i r hi hr => hr.step w (by omega)
  exact ⟨h.outs, h.tiles⟩

variable (D) in
/-- What the second loop of the kernel has done after `i` tokens. -/
structure Loop (p : Step S W) (h : State S W) (i : ℕ) (r : Regs S W O) : Prop where
  state : r.h = D.after p h i
  outs : r.outs = D.outputs p h i
  head : 0 < i → D.tile r.mem (D.slot 0) = D.after p h 1
  tiles : D.inZone p.c → ∀ t < i, D.tile r.mem (D.slot t) = D.after p h (t + 1)
  records : ¬ D.inZone p.c → ∀ t, 1 ≤ t → t < i → D.inputs r.mem t = (p.x t).raw ∧ t ∈ r.kept

lemma Loop.zero (p : Step S W) (m : Mem W) (h : State S W) : D.Loop p h 0 ⟨h, m, [], []⟩ where
  state := rfl
  outs := rfl
  head hi := absurd hi (lt_irrefl 0)
  tiles _ t ht := absurd ht t.not_lt_zero
  records _ t _ ht := absurd ht t.not_lt_zero

/-- Token 0 goes to slot 0. -/
lemma Loop.first (w : D.Window) {p : Step S W} {h : State S W} (hw : 0 < S.WIN) {r : Regs S W O}
    (hr : D.Loop p h 0 r) : D.Loop p h 1 (D.token p r 0) := by
  have hst : D.update r.h (p.x 0).raw = D.after p h 1 := congrArg (D.update · (p.x 0).raw) hr.state
  have hpos := w.pos 0 hw
  constructor
  case state => exact hst
  case outs =>
    rw [outputs_succ, ← hr.outs, ← hst]
    rfl
  case head =>
    intro _
    simp only [token, if_true, if_pos hpos, tile_store, hst]
  case tiles =>
    intro _ t ht
    obtain rfl : t = 0 := by omega
    simp only [token, if_true, if_pos hpos, tile_store, hst]
  case records => exact fun _ t h1 ht => absurd ht (by omega)

/-- A later token goes to its slot in a zone, and to its record elsewhere. -/
lemma Loop.next (w : D.Window) {p : Step S W} {h : State S W} {i : ℕ} (hi : 1 ≤ i)
    (hw : i < S.WIN) {r : Regs S W O} (hr : D.Loop p h i r) :
    D.Loop p h (i + 1) (D.token p r i) := by
  have hst : D.update r.h (p.x i).raw = D.after p h (i + 1) :=
    congrArg (D.update · (p.x i).raw) hr.state
  have h0 : i ≠ 0 := by omega
  have hpos := w.pos i hw
  have hpos1 := w.pos 1 (by omega)
  have hne {t : ℕ} (ht : t < i) : D.slot t ≠ D.slot i := fun e => by
    have := w.inj t (by omega) i hw e
    omega
  have houts : r.outs ++ [D.output (D.update r.h (p.x i).raw) (p.x i)] = D.outputs p h (i + 1) := by
    rw [outputs_succ, hr.outs, hst]
  cases hz : D.inZone p.c with
  | true =>
    have e : D.token p r i = ⟨D.after p h (i + 1), r.mem.store (D.slot i) D.base
        (D.after p h (i + 1)), D.outputs p h (i + 1), r.kept⟩ := by
      simp only [token, if_neg h0, hz, hst, ← houts, Bool.true_and, Bool.not_true, Bool.false_and,
        decide_eq_true hpos, if_true, Bool.false_eq_true, if_false]
    rw [e]
    constructor
    case state => rfl
    case outs => rfl
    case head => exact fun _ => (D.tile_store_ne _ (hne (by omega)) _).trans (hr.head (by omega))
    case tiles =>
      intro _ t ht
      obtain rfl | hlt := Nat.eq_or_lt_of_le (Nat.le_of_lt_succ ht)
      · exact D.tile_store _ _ _
      · exact (D.tile_store_ne _ (hne hlt) _).trans (hr.tiles hz t hlt)
    case records => exact fun hn => absurd hz hn
  | false =>
    have e : D.token p r i = ⟨D.after p h (i + 1), D.record r.mem i (p.x i).raw,
        D.outputs p h (i + 1), r.kept ++ [i]⟩ := by
      simp only [token, if_neg h0, hz, hst, ← houts, Bool.false_and, Bool.not_false, Bool.true_and,
        decide_eq_true hpos1, if_true, Bool.false_eq_true, if_false]
    have h01 : D.slot 0 ≠ D.slot 1 := fun e => absurd (w.inj 0 (by omega) 1 (by omega) e) (by omega)
    rw [e]
    constructor
    case state => rfl
    case outs => rfl
    case head => exact fun _ => (D.tile_record_ne _ _ _ h01).trans (hr.head (by omega))
    case tiles => exact fun hn => absurd (hz.symm.trans hn) Bool.false_ne_true
    case records =>
      intro hn t h1 ht
      obtain rfl | hlt := Nat.eq_or_lt_of_le (Nat.le_of_lt_succ ht)
      · exact ⟨D.inputs_record _ _ _, List.mem_append_right _ (List.mem_singleton.mpr rfl)⟩
      · obtain ⟨hin, hk⟩ := hr.records hn t h1 hlt
        rw [D.inputs_record_ne _ _ hi h1 (by omega)]
        exact ⟨hin, List.mem_append_left _ hk⟩

variable (D) in
/-- The state a step starts its tokens from. -/
def start (m : Mem W) (p : Step S W) : State S W :=
  (D.replays p).foldl (fun h t => D.update h (D.inputs m t))
    (D.tile m (if D.deferred p then D.slot 0 else D.slot (p.acc - 1)))

/-- A step of the kernel. -/
theorem step_spec (w : D.Window) {p : Step S W} (h1 : 1 ≤ p.n) (hn : p.n ≤ S.WIN)
    (ha : 1 ≤ p.acc) (haw : p.acc ≤ S.WIN) (m : Mem W) :
    (D.step m p).replayed = D.replays p ∧
      D.Loop p (D.start m p) p.n
        ⟨D.after p (D.start m p) p.n, (D.step m p).mem, (D.step m p).outs,
          (D.step m p).recorded⟩ := by
  have hread : ¬ (if D.deferred p then D.slot 0 else D.slot (p.acc - 1)) ≤ 0 := by
    split
    · exact not_le.mpr (w.pos 0 (by omega))
    · exact not_le.mpr (w.pos _ (by omega))
  have hone : ¬ (D.deferred p && decide (D.slot 1 ≤ 0)) = true := by
    intro e
    obtain ⟨hd, hs⟩ := Bool.and_eq_true_iff.mp e
    have hacc : 2 ≤ p.acc := of_decide_eq_true (Bool.and_eq_true_iff.mp hd).1
    exact absurd (of_decide_eq_true hs) (not_le.mpr (w.pos 1 (by omega)))
  have e : D.step m p =
      let r := (List.range p.n).foldl (D.token p) ⟨D.start m p, m, [], []⟩
      ⟨r.mem, r.outs, D.replays p, r.kept⟩ := by
    rw [step, if_neg (by omega)]
    simp only [if_neg hread, if_neg hone, foldl_range_masked hn]
    rfl
  have hloop := foldl_range_inv (P := D.Loop p (D.start m p)) (f := D.token p) (m := p.n)
    (Loop.zero p m (D.start m p)) fun i r hi hr => by
      cases i with
      | zero => exact hr.first w (by omega)
      | succ i => exact hr.next w (by omega) (by omega)
  rw [e]
  refine ⟨rfl, ?_⟩
  rw [← hloop.state]
  exact hloop

lemma token_outside {p : Step S W} {r : Regs S W O} {i : ℕ} (hi : i < S.WIN) {s : ℤ} {o : ℕ}
    (h : o < D.base ∨ D.base + S.BV * S.K ≤ o) : (D.token p r i).mem s o = r.mem s o := by
  have hstore (t : ℕ) (f : State S W) : r.mem.store (D.slot t) D.base f s o = r.mem s o :=
    Mem.store_outside _ _ _ le_rfl le_rfl h
  by_cases h0 : i = 0
  · simp only [token, if_pos h0]
    split
    · exact hstore 0 _
    · rfl
  · simp only [token, if_neg h0]
    cases D.inZone p.c with
    | true =>
      simp only [Bool.true_and, Bool.not_true, Bool.false_and, Bool.false_eq_true, if_false]
      split
      · exact hstore i _
      · rfl
    | false =>
      simp only [Bool.false_and, Bool.not_false, Bool.true_and, Bool.false_eq_true, if_false]
      split
      · exact D.record_outside _ _ (by omega) hi h
      · rfl

/-- A program writes its own tile only. -/
theorem step_outside (m : Mem W) (p : Step S W) {s : ℤ} {o : ℕ}
    (h : o < D.base ∨ D.base + S.BV * S.K ≤ o) : (D.step m p).mem s o = m s o := by
  simp only [step]
  generalize (if D.deferred p then D.slot 0 else D.slot (p.acc - 1)) = read
  split
  · rfl
  split
  · rfl
  split
  · rfl
  refine foldl_range_inv (P := fun _ (r : Regs S W O) => r.mem s o = m s o) rfl fun i r hi hr => ?_
  split
  · exact (token_outside hi h).trans hr
  · exact hr

@[simp] lemma run_concat (m : Mem W) (ps : List (Step S W)) (p : Step S W) :
    D.run m (ps ++ [p]) = (D.step (D.run m ps) p).mem := by
  simp only [run, List.foldl_append, List.foldl_cons, List.foldl_nil]

@[simp] lemma stockRun_concat (m : Mem W) (ps : List (Step S W)) (p : Step S W) :
    D.stockRun m (ps ++ [p]) = (D.stock (D.stockRun m ps) p).1 := by
  simp only [stockRun, List.foldl_append, List.foldl_cons, List.foldl_nil]

/-! ## Boundaries -/

variable (D) in
/-- A multiple of the zone lies among the positions `c + 1 .. c + 2 WIN`. -/
def Boundary (c : ℤ) : Prop := ∃ i : ℤ, c < i * D.zone ∧ i * D.zone ≤ c + 2 * S.WIN

lemma inZone_iff {c : ℤ} (hc : 0 ≤ c) : D.inZone c ↔ D.Boundary c := by
  unfold inZone Boundary
  obtain h0 | hpos := Nat.eq_zero_or_pos D.zone
  · have hn : ¬ c < 0 := by omega
    simp only [h0, lt_irrefl, if_false, decide_eq_true_eq, Int.natCast_zero, Int.mul_zero]
    exact ⟨fun h => absurd h hn, fun ⟨_, h, _⟩ => absurd h hn⟩
  · have hz : (0 : ℤ) < D.zone := Int.natCast_pos.mpr hpos
    rw [if_pos hpos, decide_eq_true_eq, Int.tdiv_eq_ediv_of_nonneg hc,
      Int.tdiv_eq_ediv_of_nonneg (by omega)]
    constructor
    · intro h
      exact ⟨_, (Int.ediv_lt_iff_lt_mul hz).mp h, Int.ediv_mul_le _ (by omega)⟩
    · intro ⟨i, hlo, hhi⟩
      exact lt_of_lt_of_le ((Int.ediv_lt_iff_lt_mul hz).mpr hlo)
        ((Int.le_ediv_iff_mul_le hz).mpr hhi)

/-! ## Runs -/

/-- A step after another: it has accepted some of its tokens. -/
structure Follows (p q : Step S W) : Prop where
  accepted : 1 ≤ q.acc ∧ q.acc ≤ p.n
  computed : q.c = p.c + q.acc

/-- The steps of a request: one token is accepted before the first. -/
structure Valid (ps : List (Step S W)) : Prop where
  length : ∀ p ∈ ps, 1 ≤ p.n ∧ p.n ≤ S.WIN
  computed : ∀ p ∈ ps, 0 ≤ p.c
  first : ∀ p ∈ ps.head?, p.acc = 1
  chain : ps.IsChain Follows

variable (D) in
/-- The stock memory and the kernel's after a step. -/
structure Agree (p : Step S W) (mS mD : Mem W) : Prop where
  head : D.tile mD (D.slot 0) = D.tile mS (D.slot 0)
  tiles : D.inZone p.c → ∀ t < p.n, D.tile mD (D.slot t) = D.tile mS (D.slot t)
  records : ¬ D.inZone p.c → ∀ t, 1 ≤ t → t < p.n → D.inputs mD t = (p.x t).raw
  chain : ∀ t, t + 1 < p.n → D.tile mS (D.slot (t + 1)) =
    D.update (D.tile mS (D.slot t)) (p.x (t + 1)).raw

/-- From one state both kernels make the same outputs, and agree behind the step. -/
lemma Agree.of_start (w : D.Window) {p : Step S W} (h1 : 1 ≤ p.n) (hn : p.n ≤ S.WIN)
    (ha : 1 ≤ p.acc) (haw : p.acc ≤ S.WIN) {mS mD : Mem W}
    (h : D.start mD p = D.tile mS (D.slot (p.acc - 1))) :
    (D.step mD p).outs = (D.stock mS p).2 ∧ D.Agree p (D.stock mS p).1 (D.step mD p).mem := by
  obtain ⟨-, hloop⟩ := step_spec w h1 hn ha haw mD
  obtain ⟨houts, htiles⟩ := stock_spec w hn mS
  rw [← h] at houts htiles
  refine ⟨hloop.outs.trans houts.symm, ?_⟩
  constructor
  case head => exact (hloop.head h1).trans (htiles 0 h1).symm
  case tiles => exact fun hz t ht => (hloop.tiles hz t ht).trans (htiles t ht).symm
  case records => exact fun hz t ht htn => (hloop.records hz t ht htn).1
  case chain =>
    intro t ht
    rw [htiles t (by omega), htiles (t + 1) ht]
    rfl

lemma replays_of_deferred {p : Step S W} (hd : D.deferred p) (haw : p.acc ≤ S.WIN) :
    D.replays p = List.range' 1 (p.acc - 1) := by
  have hacc : 2 ≤ p.acc := of_decide_eq_true (Bool.and_eq_true_iff.mp hd).1
  have e : List.range' 1 (S.WIN - 1) = List.range' 1 (p.acc - 1) ++
      List.range' p.acc (S.WIN - p.acc) := by
    have h := List.range'_append_1 (s := 1) (m := p.acc - 1) (n := S.WIN - p.acc)
    rw [show 1 + (p.acc - 1) = p.acc by omega,
      show p.acc - 1 + (S.WIN - p.acc) = S.WIN - 1 by omega] at h
    exact h.symm
  rw [replays, e, List.filter_append, List.filter_eq_self.mpr, List.filter_eq_nil_iff.mpr,
    List.append_nil]
  · intro t ht
    have := (List.mem_range'_1.mp ht).1
    simp only [Bool.and_eq_true, decide_eq_true_eq]
    omega
  · intro t ht
    have := (List.mem_range'_1.mp ht).2
    simp only [hd, Bool.true_and, decide_eq_true_eq]
    omega

lemma replays_of_not_deferred {p : Step S W} (hd : ¬ D.deferred p) : D.replays p = [] := by
  rw [replays, List.filter_eq_nil_iff]
  intro t _ h
  exact hd (Bool.and_eq_true_iff.mp h).1

/-- The zone of the step before, recomputed from what was accepted. -/
lemma Follows.c_sub_acc {q p : Step S W} (hf : Follows q p) : p.c - p.acc = q.c := by
  rw [hf.computed, Int.add_sub_cancel]

lemma Follows.not_inZone {q p : Step S W} (hf : Follows q p) (hd : D.deferred p) :
    ¬ D.inZone q.c := by
  have hprev := (Bool.and_eq_true_iff.mp hd).2
  rw [hf.c_sub_acc] at hprev
  intro e
  rw [e] at hprev
  exact Bool.noConfusion hprev

/-- The step after one that agrees starts from the state that the stock kernel reads. -/
lemma Agree.start {q p : Step S W} {mS mD : Mem W} (h : D.Agree q mS mD) (hf : Follows q p)
    (haw : p.acc ≤ S.WIN) : D.start mD p = D.tile mS (D.slot (p.acc - 1)) := by
  obtain ⟨ha, han⟩ := hf.accepted
  cases hd : D.deferred p with
  | false =>
    rw [Program.start, replays_of_not_deferred (by rw [hd]; exact Bool.false_ne_true), hd]
    change D.tile mD (D.slot (p.acc - 1)) = _
    -- without a replay the step before was in a zone, or only its token 0 is accepted
    by_cases hz : D.inZone q.c
    · exact h.tiles hz _ (by omega)
    · have h1 : ¬ 2 ≤ p.acc := by
        intro h2
        rw [deferred, hf.c_sub_acc, decide_eq_true h2, Bool.eq_false_iff.mpr hz] at hd
        exact absurd hd Bool.noConfusion
      rw [show p.acc - 1 = 0 by omega]
      exact h.head
  | true =>
    have hz : ¬ D.inZone q.c := hf.not_inZone hd
    rw [Program.start, replays_of_deferred hd haw, hd]
    have hrep := foldl_range'_inv (P := fun t h => h = D.tile mS (D.slot (t - 1)))
      (f := fun h t => D.update h (D.inputs mD t)) (p.acc - 1) (a := 1) h.head
      fun t h' ht hlt e => by
        obtain ⟨t, rfl⟩ := Nat.exists_eq_add_of_le' ht
        rw [e, h.records hz _ ht (by omega)]
        exact (h.chain t (by omega)).symm
    rw [show 1 + (p.acc - 1) - 1 = p.acc - 1 by omega] at hrep
    exact hrep

lemma Valid.acc {ps : List (Step S W)} (v : Valid ps) {pre post : List (Step S W)} {p : Step S W}
    (e : ps = pre ++ p :: post) : 1 ≤ p.acc ∧ p.acc ≤ S.WIN := by
  obtain rfl | ⟨pre, q, rfl⟩ := pre.eq_nil_or_concat'
  · subst e
    have h1 : p.acc = 1 := v.first p rfl
    have hl := v.length p (List.mem_append_right _ List.mem_cons_self)
    omega
  · rw [List.append_assoc] at e
    subst e
    have hf := (List.isChain_append_cons_cons.mp v.chain).2.1.accepted
    have hl := (v.length q (List.mem_append_right _ List.mem_cons_self)).2
    omega

lemma Valid.follows {ps : List (Step S W)} (v : Valid ps) {pre post : List (Step S W)}
    {q p : Step S W} (e : ps = pre ++ q :: p :: post) : Follows q p := by
  subst e
  exact (List.isChain_append_cons_cons.mp v.chain).2.1

lemma Valid.length_of {ps : List (Step S W)} (v : Valid ps) {pre post : List (Step S W)}
    {p : Step S W} (e : ps = pre ++ p :: post) : 1 ≤ p.n ∧ p.n ≤ S.WIN := by
  subst e
  exact v.length p (List.mem_append_right _ List.mem_cons_self)

/-- Behind every step of a run the memories agree. -/
lemma run_agree (w : D.Window) {ps : List (Step S W)} (v : Valid ps) {mS mD : Mem W}
    (h0 : D.tile mD (D.slot 0) = D.tile mS (D.slot 0)) (pre : List (Step S W)) :
    ∀ {q : Step S W} {post : List (Step S W)}, ps = pre ++ q :: post →
      D.start (D.run mD pre) q = D.tile (D.stockRun mS pre) (D.slot (q.acc - 1)) ∧
        D.Agree q (D.stock (D.stockRun mS pre) q).1 (D.step (D.run mD pre) q).mem := by
  induction pre using List.reverseRecOn with
  | nil =>
    intro q post e
    have hq : q.acc = 1 := by
      subst e
      exact v.first q rfl
    obtain ⟨ha, haw⟩ := v.acc e
    obtain ⟨h1, hn⟩ := v.length_of e
    have hd : ¬ D.deferred q := by
      intro hd
      have h2 : 2 ≤ q.acc := of_decide_eq_true (Bool.and_eq_true_iff.mp hd).1
      omega
    have hst : D.start mD q = D.tile mS (D.slot (q.acc - 1)) := by
      rw [start, replays_of_not_deferred hd, if_neg hd, hq]
      exact h0
    exact ⟨hst, (Agree.of_start w h1 hn ha haw hst).2⟩
  | append_singleton pre q ih =>
    intro p post e
    obtain ⟨ha, haw⟩ := v.acc e
    obtain ⟨h1, hn⟩ := v.length_of e
    rw [List.append_assoc] at e
    have hst := (ih e).2.start (v.follows e) haw
    rw [stockRun_concat, run_concat]
    exact ⟨hst, (Agree.of_start w h1 hn ha haw hst).2⟩

variable (D) in
/-- A step of a run refines the stock step: its outputs; slot 0; all slots of the tokens around a boundary,
so that a copy of slot 0, or of another slot there, reads the stock state; and a record is replayed only if
the step just before wrote it, with the inputs of its token. -/
structure Refined (mS mD : Mem W) (pre : List (Step S W)) (p : Step S W) : Prop where
  outs : (D.step (D.run mD pre) p).outs = (D.stock (D.stockRun mS pre) p).2
  head : D.tile (D.step (D.run mD pre) p).mem (D.slot 0) =
    D.tile (D.stock (D.stockRun mS pre) p).1 (D.slot 0)
  tiles : D.Boundary p.c → ∀ t < p.n, D.tile (D.step (D.run mD pre) p).mem (D.slot t) =
    D.tile (D.stock (D.stockRun mS pre) p).1 (D.slot t)
  copies : ∀ t < p.n, (t ≠ 0 → D.Boundary p.c) →
    D.tile (D.step (D.run mD pre) p).mem (D.slot t) =
      D.tile (D.stock (D.stockRun mS pre) p).1 (D.slot t)
  replayed : ∀ t ∈ (D.step (D.run mD pre) p).replayed, ∃ pre' q, pre = pre' ++ [q] ∧
    t ∈ (D.step (D.run mD pre') q).recorded ∧ D.inputs (D.run mD pre) t = (q.x t).raw

/-- The deferred commit refines the slot contract, at every step of every run. -/
theorem refined (w : D.Window) {ps : List (Step S W)} (v : Valid ps) {mS mD : Mem W}
    (h0 : D.tile mD (D.slot 0) = D.tile mS (D.slot 0)) {pre post : List (Step S W)} {p : Step S W}
    (e : ps = pre ++ p :: post) : D.Refined mS mD pre p := by
  obtain ⟨ha, haw⟩ := v.acc e
  obtain ⟨h1, hn⟩ := v.length_of e
  obtain ⟨hst, hag⟩ := run_agree w v h0 pre e
  have hc : 0 ≤ p.c := by
    subst e
    exact v.computed p (List.mem_append_right _ List.mem_cons_self)
  have htiles : D.Boundary p.c → ∀ t < p.n, D.tile (D.step (D.run mD pre) p).mem (D.slot t) =
      D.tile (D.stock (D.stockRun mS pre) p).1 (D.slot t) :=
    fun hb => hag.tiles ((inZone_iff hc).mpr hb)
  constructor
  case outs => exact (Agree.of_start w h1 hn ha haw hst).1
  case head => exact hag.head
  case tiles => exact htiles
  case copies =>
    intro t ht hb
    by_cases h0 : t = 0
    · rw [h0]
      exact hag.head
    · exact htiles (hb h0) t ht
  case replayed =>
    intro t ht
    rw [(step_spec w h1 hn ha haw _).1] at ht
    obtain ⟨hmem, hmask⟩ := List.mem_filter.mp ht
    obtain ⟨hd, hlt⟩ := Bool.and_eq_true_iff.mp hmask
    have ht1 := (List.mem_range'_1.mp hmem).1
    have hta : t < p.acc := of_decide_eq_true hlt
    obtain rfl | ⟨pre', q, rfl⟩ := pre.eq_nil_or_concat'
    · have hacc : p.acc = 1 := by
        subst e
        exact v.first p rfl
      omega
    refine ⟨pre', q, rfl, ?_⟩
    rw [List.append_assoc] at e
    have hf := v.follows e
    have hz : ¬ D.inZone q.c := hf.not_inZone hd
    obtain ⟨ha', haw'⟩ := v.acc e
    obtain ⟨h1', hn'⟩ := v.length_of e
    have hloop := (step_spec w h1' hn' ha' haw' (D.run mD pre')).2
    obtain ⟨hin, hk⟩ := hloop.records hz t ht1 (lt_of_lt_of_le hta hf.accepted.2)
    rw [run_concat]
    exact ⟨hk, hin⟩

/-- Two steps of a request: three tokens away from a boundary, of which the second step has accepted all. -/
theorem refined_replay :
    let S : Shape := ⟨16, 8, 3, by decide⟩
    let D : Program S ℕ ℕ := ⟨fun t => t + 1, 0, 64, fun h r => fun i => h i + r.a, fun h _ => h 0⟩
    let x (n : ℕ) : ℕ → Token S ℕ := fun t => ⟨fun _ => 0, ⟨fun _ => t, fun _ => t, n + t, t⟩⟩
    let m : Mem ℕ := fun _ _ => 0
    D.Refined m m [⟨13, 3, 1, x 5⟩] ⟨15, 2, 3, x 9⟩ := by
  intro S D x m
  have hw : D.Window := by
    constructor
    case pos => exact fun t _ => by simp only [D]; omega
    case inj => exact fun t _ t' _ e => by simp only [D] at e; omega
  have hv : Valid [(⟨13, 3, 1, x 5⟩ : Step S ℕ), ⟨15, 2, 3, x 9⟩] := by
    constructor
    case length => simp only [S, List.forall_mem_cons]; decide
    case computed => simp only [S, List.forall_mem_cons, Step.c]; decide
    case first =>
      intro p hp
      cases hp
      rfl
    case chain => exact .cons_cons ⟨by decide, by decide⟩ (.singleton _)
  have hsplit : [(⟨13, 3, 1, x 5⟩ : Step S ℕ), ⟨15, 2, 3, x 9⟩] = [⟨13, 3, 1, x 5⟩] ++ ⟨15, 2, 3, x 9⟩ :: [] := rfl
  exact refined hw hv rfl hsplit

end Program

end SuffixHybrid.Gdn
