import Mathlib.Algebra.BigOperators.Intervals
import Mathlib.Algebra.Order.BigOperators.Group.Finset
import SuffixHybrid.HostAr.Safe

/-!
# Progress

No run gets stuck: as long as some rank is in one of the first launches, such a rank has a step other than a poll that
misses (`Script.exists_step`). Every such step makes what is left of these launches smaller, so that each run can go on
until all ranks have left them (`Script.exists_run`).
-/

namespace SuffixHybrid.HostAr

/-- No flag line is read. -/
def Event.free {V : Type} : Event V → Bool
  | .poll _ _ _ _ => false
  | .miss _ _ _ _ => false
  | _ => true

lemma Event.allows_of_free {V : Type} {ev : Event V} (h : ev.free) (s : State V) : s.Allows ev := by
  cases ev with
  | poll par ph j w => cases h
  | miss par ph j w => cases h
  | tau => exact trivial
  | load a => exact trivial
  | store a x e => exact trivial
  | publish par ph w => exact trivial

lemma Event.ne_miss_of_free {V : Type} {ev : Event V} (h : ev.free) (par ph j w : ℕ) : ev ≠ .miss par ph j w := by
  rintro rfl
  cases h

namespace Script
variable {S : Script} {V : Type} {s : State V} {c p : ℕ → ℕ} {r c₀ p₀ : ℕ} {R : Rank}

/-! ## No deadlock -/

/-- Some block has not arrived and is not done, unless all are done. -/
lemma RankInv.exists_free (h : S.RankInv r R c₀ p₀) (hg : S.Gather r R c₀)
    (hdone : ¬ ∀ b < (S.call R.launch).grid r, (R.block b).pc = .done) :
    ∃ b < (S.call R.launch).grid r, (R.block b).pc ≠ .done ∧ ¬ S.Waits R.launch c₀ (R.block b).pc := by
  by_contra hnone
  have hcases (b : ℕ) (hb : b < (S.call R.launch).grid r) :
      (R.block b).pc = .done ∨ S.Waits R.launch c₀ (R.block b).pc := by
    by_contra hnot
    exact hnone ⟨b, hb, fun h => hnot (.inl h), fun h => hnot (.inr h)⟩
  have hfree : ∃ b < (S.call R.launch).grid r, ¬ S.Waits R.launch c₀ (R.block b).pc := by
    by_contra hall
    have hsome := hg.some
    rw [waiting, Finset.filter_true_of_mem fun b hb => by_contra fun hb' => hall ⟨b, Finset.mem_range.mp hb, hb'⟩,
      Finset.card_range] at hsome
    exact Nat.lt_irrefl _ hsome
  obtain ⟨b, hb, hfree⟩ := hfree
  have hat := hg.toward b hb
  rw [(hcases b hb).resolve_right hfree] at hat
  refine hdone fun b' hb' => (hcases b' hb').resolve_right fun hwait => ?_
  obtain ⟨rnd, ph, hpc, heq⟩ := eq_wait_of_waits hwait
  have hval := h.valid b' hb'
  rw [hpc] at hval
  exact Nat.ne_of_lt (lt_edge hval.1 hval.2) (heq.trans hat.symm)

/-- While the blocks gather, one of them has a step. -/
lemma RankInv.gather_step (h : S.RankInv r R c₀ p₀) (hg : S.Gather r R c₀) (x : ℕ → V) :
    ∃ ev R', S.RankStep r R (ev : Event V) R' ∧ ev.free := by
  by_cases hdone : ∀ b < (S.call R.launch).grid r, (R.block b).pc = .done
  · exact ⟨_, _, .launch hdone, rfl⟩
  obtain ⟨b, hb, hnot, hfree⟩ := h.exists_free hg hdone
  have hat := hg.toward b hb
  have hval := h.valid b hb
  cases hpc : (R.block b).pc with
  | start => exact ⟨_, _, .start hb hpc, rfl⟩
  | work rnd part todo =>
    rw [hpc] at hval
    cases todo with
    | nil =>
      rcases Nat.lt_or_eq_of_le hval.2.1 with hpart | hpart
      · by_cases hlast : R.arr part = (S.call R.launch).grid r - 1
        · exact ⟨_, _, .last hb hpc hpart hlast, rfl⟩
        · exact ⟨_, _, .arrive hb hpc hpart hlast, rfl⟩
      · exact ⟨_, _, .next hb hpc hpart, rfl⟩
    | cons op todo =>
      have hpc' : (R.block b).pc = .work rnd part ([] ++ op :: todo) := hpc
      cases op with
      | load a => exact ⟨_, _, .load hb hpc', rfl⟩
      | store a => exact ⟨.store a x _, _, .store hb hpc', rfl⟩
  | wait rnd ph =>
    rw [hpc] at hat hval hfree
    have hkey := hat.resolve_left hfree
    obtain ⟨f, hf, hline⟩ := h.go ph
    have hle := S.key_le R.launch rnd (ph + 1)
    have heq := hline.eq (.of_round hval.1 hval.2) trivial (hkey ▸ lt_key_succ hval.2) fun e' _ hlt => by omega
    rw [heq] at hf
    exact ⟨_, _, .pass hb hpc (hf.trans (h.epoch_eq hb (by rw [hpc]; nofun) rnd).symm), rfl⟩
  | lead rnd ph stage =>
    rw [hpc] at hat
    exact hat.elim
  | done => exact absurd hpc hnot

/-- Before it polls, and once it has seen all lines, the leader has a step. -/
lemma RankInv.lead_step {b rnd ph : ℕ} {stage : Stage} (hb : b < (S.call R.launch).grid r)
    (hpc : (R.block b).pc = .lead rnd ph stage) (hstage : ∀ seen, stage = .polling seen → ∀ j < S.world, j ∈ seen) :
    ∃ ev R', S.RankStep r R (ev : Event V) R' ∧ ev.free := by
  cases stage with
  | elected => exact ⟨_, _, .clear hb hpc, rfl⟩
  | cleared => exact ⟨_, _, .count hb hpc, rfl⟩
  | counted => exact ⟨_, _, .publish hb hpc, rfl⟩
  | polling seen => exact ⟨_, _, .release hb hpc (hstage seen rfl), rfl⟩

/-- The flag line of a rank that has published has the epoch. -/
lemma Inv.flag_eq (hinv : S.Inv s c p) (hr : r < S.world) {b rnd ph j : ℕ} {seen : List ℕ} (hj : j < S.world)
    (hb : b < (S.call (s.rank r).launch).grid r) (hpc : ((s.rank r).block b).pc = .lead rnd ph (.polling seen))
    (hlt : 2 * S.epoch (s.rank r).launch rnd + ph < p j) :
    s.flag (((s.rank r).block b).epoch rnd % 2) ph j = ((s.rank r).block b).epoch rnd := by
  have hrank := hinv.rank r hr
  obtain ⟨_, hrnd, hph, hc, hp⟩ := hrank.lead hb hpc
  rw [if_pos (show (Stage.polling seen).HasPublished from trivial)] at hp
  have hle := S.key_le (s.rank r).launch rnd (ph + 1)
  have hjr := hinv.cross j hj r hr
  have hpj := (hinv.rank j hj).le_add
  rw [hrank.epoch_eq hb (by rw [hpc]; nofun), Nat.mod_mod_of_dvd _ (by decide)]
  obtain ⟨f, hf, hline⟩ := hinv.flag j hj (S.epoch (s.rank r).launch rnd % 2) ph
  rw [hf, hline.eq (.of_round hrnd hph) rfl hlt fun e' hpar hlt' => by omega]

/-- A rank that has not published the barrier it is at has a step of its own. -/
lemma Inv.own_step (hinv : S.Inv s c p) (hr : r < S.world) (heq : p r = c r) (x : ℕ → V) :
    ∃ ev R, S.RankStep r (s.rank r) (ev : Event V) R ∧ ev.free := by
  have hrank := hinv.rank r hr
  generalize hc : c r = c₀ at hrank heq
  generalize hp : p r = p₀ at hrank heq
  cases hrank.mode with
  | gather hg => exact hrank.gather_step hg x
  | @lead b rnd ph stage hl =>
    obtain ⟨_, hrnd, hph, _⟩ := hrank.lead hl.lt hl.pc
    refine RankInv.lead_step hl.lt hl.pc ?_
    rintro seen rfl
    rw [if_pos (show (Stage.polling seen).HasPublished from trivial)] at heq
    exact absurd heq (Nat.ne_of_gt (lt_key_succ hph))

/-- A rank that has published polls. -/
lemma RankInv.polls (h : S.RankInv r R c₀ p₀) (hne : p₀ ≠ c₀) :
    ∃ b rnd ph seen, b < (S.call R.launch).grid r ∧ (R.block b).pc = .lead rnd ph (.polling seen) := by
  cases h.mode with
  | gather hg => exact absurd rfl hne
  | @lead b rnd ph stage hl =>
    cases stage with
    | polling seen => exact ⟨b, rnd, ph, seen, hl.lt, hl.pc⟩
    | elected => exact absurd rfl hne
    | cleared => exact absurd rfl hne
    | counted => exact absurd rfl hne

/-- The runs do not get stuck: the ranks in the first launches have a step that is not a poll that misses. -/
theorem exists_step [Nonempty V] (hsound : S.Sound) (hfresh : S.Fresh) (h : S.Reachable s) {L : ℕ}
    (hL : ∃ r < S.world, (s.rank r).launch ≤ L) : ∃ r < S.world, (s.rank r).launch ≤ L ∧ ∃ ev R,
      S.RankStep r (s.rank r) (ev : Event V) R ∧ s.Allows ev ∧ ∀ par ph j w, ev ≠ .miss par ph j w := by
  obtain ⟨c, p, hinv, _⟩ := h.inv hsound hfresh
  have x : ℕ → V := fun _ => Classical.choice inferInstance
  -- the rank that is furthest behind
  obtain ⟨r, hrmem, hmin⟩ := Finset.exists_min_image ((Finset.range S.world).filter fun r => (s.rank r).launch ≤ L) c
    (by obtain ⟨r, hr, hle⟩ := hL; exact ⟨r, Finset.mem_filter.mpr ⟨Finset.mem_range.mpr hr, hle⟩⟩)
  rw [Finset.mem_filter, Finset.mem_range] at hrmem
  obtain ⟨hr, hle⟩ := hrmem
  have hfree {i : ℕ} (hi : i < S.world) (hile : (s.rank i).launch ≤ L) (heq : p i = c i) :
      ∃ r < S.world, (s.rank r).launch ≤ L ∧ ∃ ev R,
        S.RankStep r (s.rank r) (ev : Event V) R ∧ s.Allows ev ∧ ∀ par ph j w, ev ≠ .miss par ph j w := by
    obtain ⟨ev, R, hstep, hev⟩ := hinv.own_step hi heq x
    exact ⟨i, hi, hile, ev, R, hstep, Event.allows_of_free hev s, Event.ne_miss_of_free hev⟩
  by_cases heq : p r = c r
  · exact hfree hr hle heq
  have hrank := hinv.rank r hr
  obtain ⟨b, rnd, ph, seen, hb, hpc⟩ := hrank.polls heq
  obtain ⟨_, hrnd, hph, hc, _⟩ := hrank.lead hb hpc
  by_cases hall : ∀ j < S.world, j ∈ seen
  · exact ⟨r, hr, hle, _, _, .release hb hpc hall, trivial, nofun⟩
  obtain ⟨j, hj, hseen⟩ : ∃ j < S.world, j ∉ seen := by
    by_contra hnone
    exact hall fun j hj => by_contra fun hseen => hnone ⟨j, hj, hseen⟩
  by_cases hlt : 2 * S.epoch (s.rank r).launch rnd + ph < p j
  · exact ⟨r, hr, hle, _, _, .poll hb hpc hj hseen, hinv.flag_eq hr hj hb hpc hlt, nofun⟩
  -- the rank of the line is at the same barrier, and has not published it
  have hrj := hinv.cross r hr j hj
  have hjj := hinv.cross j hj j hj
  have hjle : (s.rank j).launch ≤ L := by
    by_contra hgt
    have hedge := (hinv.rank j hj).edge_le (hsound.grid j hj _)
    have hmono : S.edge ((s.rank r).launch + 1) ≤ S.edge (s.rank j).launch := edge_mono (by omega)
    have := lt_edge hrnd hph
    omega
  have hcj := hmin j (Finset.mem_filter.mpr ⟨Finset.mem_range.mpr hj, hjle⟩)
  exact hfree hj hjle (by omega)

/-! ## What is left -/

/-- A bound on the steps of a block in a part, up to the next one. -/
def cost (S : Script) (l r b rnd part : ℕ) : ℕ := (S.ops l r rnd part b).length + S.world + 8

/-- What is left of a launch behind a part. -/
def tail (S : Script) (l r b rnd part : ℕ) : ℕ :=
  ∑ q ∈ Finset.Ico (part + 1) ((S.call l).width + 1), S.cost l r b rnd q +
    ∑ i ∈ Finset.Ico (rnd + 1) (S.call l).rounds, ∑ q ∈ Finset.Ico 0 ((S.call l).width + 1), S.cost l r b i q

/-- The steps that are left to a leader at its barrier. -/
def stageLeft (S : Script) : Stage → ℕ
  | .elected => S.world + 5
  | .cleared => S.world + 4
  | .counted => S.world + 3
  | .polling seen => ((Finset.range S.world).filter fun j => j ∉ seen).card + 1

/-- What is left of a launch for a block. -/
def left (S : Script) (l r b : ℕ) : PC → ℕ
  | .start => ∑ i ∈ Finset.Ico 0 (S.call l).rounds, ∑ q ∈ Finset.Ico 0 ((S.call l).width + 1), S.cost l r b i q + 1
  | .work rnd part todo => todo.length + S.world + 7 + S.tail l r b rnd part
  | .wait rnd ph => S.tail l r b rnd ph + 1
  | .lead rnd ph stage => S.stageLeft stage + S.tail l r b rnd ph
  | .done => 0

/-- What is left of the launches up to `L` for a rank. -/
def rankLeft (S : Script) (L r : ℕ) (R : Rank) : ℕ :=
  if R.launch ≤ L then
    ∑ b ∈ Finset.range ((S.call R.launch).grid r), S.left R.launch r b (R.block b).pc +
      ∑ l ∈ Finset.Ico (R.launch + 1) (L + 1), (∑ b ∈ Finset.range ((S.call l).grid r), S.left l r b .start + 1) + 1
  else 0

variable {l b rnd ph : ℕ}

lemma tail_part {part : ℕ} (hpart : part < (S.call l).width) :
    S.tail l r b rnd part = S.cost l r b rnd (part + 1) + S.tail l r b rnd (part + 1) := by
  rw [tail, tail, Finset.sum_eq_sum_Ico_succ_bot (Nat.succ_lt_succ hpart), Nat.add_assoc]

lemma tail_round : S.tail l r b rnd (S.call l).width =
    ∑ i ∈ Finset.Ico (rnd + 1) (S.call l).rounds, ∑ q ∈ Finset.Ico 0 ((S.call l).width + 1), S.cost l r b i q := by
  rw [tail, Finset.Ico_self, Finset.sum_empty, Nat.zero_add]

/-- The rounds from one on are its first part and what is behind. -/
lemma sum_rounds (hrnd : rnd < (S.call l).rounds) :
    ∑ i ∈ Finset.Ico rnd (S.call l).rounds, ∑ q ∈ Finset.Ico 0 ((S.call l).width + 1), S.cost l r b i q =
      S.cost l r b rnd 0 + S.tail l r b rnd 0 := by
  rw [Finset.sum_eq_sum_Ico_succ_bot hrnd, Finset.sum_eq_sum_Ico_succ_bot (Nat.succ_pos _), Nat.add_assoc, tail]

/-- A block at the start of a part. -/
lemma left_work (rnd part : ℕ) :
    S.left l r b (.work rnd part (S.ops l r rnd part b)) < S.cost l r b rnd part + S.tail l r b rnd part := by
  rw [left, cost]
  omega

lemma tail_lt (rnd part : ℕ) (hpart : part < (S.call l).width) :
    S.left l r b (S.behind l r rnd part b) < S.tail l r b rnd part := by
  rw [tail_part hpart]
  exact left_work rnd (part + 1)

lemma left_first : S.left l r b (S.first l r b) < S.left l r b .start := by
  rw [first, left]
  split
  · rename_i hrounds
    rw [sum_rounds hrounds]
    exact (left_work 0 0).trans (Nat.lt_succ_self _)
  · exact Nat.succ_pos _

lemma left_following (rnd : ℕ) :
    S.left l r b (S.following l r rnd b) < S.left l r b (.work rnd (S.call l).width []) := by
  rw [following, left, tail_round]
  split
  · rename_i hnext
    have := S.left_work (l := l) (r := r) (b := b) (rnd + 1) 0
    rw [sum_rounds hnext]
    omega
  · rw [left]
    omega

/-- Seeing one more line leaves fewer. -/
lemma unseen_lt {seen : List ℕ} {j : ℕ} (hj : j < S.world) (hseen : j ∉ seen) :
    S.stageLeft (.polling (j :: seen)) < S.stageLeft (.polling seen) := by
  refine Nat.succ_lt_succ (Finset.card_lt_card (Finset.ssubset_iff_subset_ne.mpr ⟨fun i hi => ?_, fun heq => ?_⟩))
  · rw [Finset.mem_filter] at hi ⊢
    exact ⟨hi.1, fun hi' => hi.2 (List.mem_cons_of_mem _ hi')⟩
  · have hmem : j ∈ (Finset.range S.world).filter fun i => i ∉ seen :=
      Finset.mem_filter.mpr ⟨Finset.mem_range.mpr hj, hseen⟩
    rw [← heq, Finset.mem_filter] at hmem
    exact hmem.2 List.mem_cons_self

lemma unseen_le : S.stageLeft (.polling []) ≤ S.world + 1 := by
  refine Nat.succ_le_succ ((Finset.card_filter_le _ _).trans ?_)
  rw [Finset.card_range]

variable {R' : Rank} {ev : Event V}

/-- A step starts a launch, or leaves less to one block. -/
lemma RankStep.left_lt (h : S.RankStep r R ev R') (hmiss : ∀ par ph j w, ev ≠ .miss par ph j w)
    (hvalid : ∀ b < (S.call R.launch).grid r, S.Valid R.launch r b (R.block b).pc) :
    R' = { R with launch := R.launch + 1, block := fun _ => ⟨0, .start⟩ } ∨
      R'.launch = R.launch ∧ ∃ b < (S.call R.launch).grid r, ∃ B, R'.block = Function.update R.block b B ∧
        S.left R.launch r b B.pc < S.left R.launch r b (R.block b).pc := by
  cases h with
  | launch hdone => exact .inl rfl
  | @start b hb hpc =>
    refine .inr ⟨rfl, b, hb, _, rfl, ?_⟩
    rw [hpc]
    exact left_first
  | @load b rnd part a todo todo' hb hpc =>
    refine .inr ⟨rfl, b, hb, _, rfl, ?_⟩
    simp only [hpc, left, List.length_append, List.length_cons]
    omega
  | @store b rnd part a x todo todo' hb hpc =>
    refine .inr ⟨rfl, b, hb, _, rfl, ?_⟩
    simp only [hpc, left, List.length_append, List.length_cons]
    omega
  | @next b rnd part hb hpc hpart =>
    subst hpart
    refine .inr ⟨rfl, b, hb, _, rfl, ?_⟩
    rw [hpc]
    exact left_following rnd
  | @arrive b rnd ph hb hpc hph hold =>
    refine .inr ⟨rfl, b, hb, _, rfl, ?_⟩
    simp only [hpc, left]
    omega
  | @last b rnd ph hb hpc hph hold =>
    refine .inr ⟨rfl, b, hb, _, rfl, ?_⟩
    simp only [hpc, left, stageLeft]
    omega
  | @clear b rnd ph hb hpc =>
    refine .inr ⟨rfl, b, hb, _, rfl, ?_⟩
    simp only [hpc, left, stageLeft]
    omega
  | @count b rnd ph hb hpc =>
    refine .inr ⟨rfl, b, hb, _, rfl, ?_⟩
    simp only [hpc, left, stageLeft]
    omega
  | @publish b rnd ph hb hpc =>
    refine .inr ⟨rfl, b, hb, _, rfl, ?_⟩
    have := S.unseen_le
    rw [hpc, left, left]
    change S.stageLeft (.polling []) + _ < S.world + 3 + _
    omega
  | @poll b rnd ph seen j hb hpc hj hseen =>
    refine .inr ⟨rfl, b, hb, _, rfl, ?_⟩
    rw [hpc]
    exact Nat.add_lt_add_right (unseen_lt hj hseen) _
  | miss hb hpc hj hseen hw => exact absurd rfl (hmiss _ _ _ _)
  | @release b rnd ph seen hb hpc hall =>
    refine .inr ⟨rfl, b, hb, _, rfl, ?_⟩
    have hval := hvalid b hb
    rw [hpc] at hval ⊢
    exact (tail_lt rnd ph hval.2).trans_le (Nat.le_add_left _ _)
  | @pass b rnd ph hb hpc hgo =>
    refine .inr ⟨rfl, b, hb, _, rfl, ?_⟩
    have hval := hvalid b hb
    rw [hpc] at hval ⊢
    exact (tail_lt rnd ph hval.2).trans_le (Nat.le_succ _)

/-- What is left of the first launches gets less. -/
lemma RankStep.rankLeft_lt (h : S.RankStep r R ev R') (hmiss : ∀ par ph j w, ev ≠ .miss par ph j w)
    (hvalid : ∀ b < (S.call R.launch).grid r, S.Valid R.launch r b (R.block b).pc) {L : ℕ} (hL : R.launch ≤ L) :
    S.rankLeft L r R' < S.rankLeft L r R := by
  rcases h.left_lt hmiss hvalid with rfl | ⟨hlaunch, b, hb, B, hblock, hlt⟩
  · rw [rankLeft, rankLeft, if_pos hL]
    split
    · rename_i hle
      change ∑ b ∈ Finset.range ((S.call (R.launch + 1)).grid r), S.left (R.launch + 1) r b .start +
        ∑ l ∈ Finset.Ico (R.launch + 1 + 1) (L + 1), _ + 1 < _
      rw [Finset.sum_eq_sum_Ico_succ_bot (show R.launch + 1 < L + 1 from Nat.lt_succ_of_le hle)]
      omega
    · exact Nat.succ_pos _
  · rw [rankLeft, rankLeft, hlaunch, if_pos hL, if_pos hL]
    refine Nat.succ_lt_succ (Nat.add_lt_add_right ?_ _)
    refine Finset.sum_lt_sum (fun b' _ => ?_) ⟨b, Finset.mem_range.mpr hb, ?_⟩
    · by_cases heq : b' = b
      · subst heq
        rw [hblock, Function.update_self]
        exact Nat.le_of_lt hlt
      · rw [hblock, Function.update_of_ne heq]
    · rw [hblock, Function.update_self]
      exact hlt

/-- Every run can go on until all ranks have left the first launches. -/
theorem exists_run [Nonempty V] (hsound : S.Sound) (hfresh : S.Fresh) (h : S.Reachable s) (L : ℕ) :
    ∃ s' : State V, Relation.ReflTransGen S.Step s s' ∧ ∀ r < S.world, L < (s'.rank r).launch := by
  induction hn : ∑ r ∈ Finset.range S.world, S.rankLeft L r (s.rank r) using Nat.strong_induction_on generalizing s with
  | h n ih =>
    by_cases hL : ∃ r < S.world, (s.rank r).launch ≤ L
    · obtain ⟨r, hr, hle, ev, R, hstep, hev, hmiss⟩ := exists_step hsound hfresh h hL
      have hvalid : ∀ b < (S.call (s.rank r).launch).grid r, S.Valid (s.rank r).launch r b ((s.rank r).block b).pc := by
        obtain ⟨c, p, hinv, _⟩ := h.inv hsound hfresh
        exact (hinv.rank r hr).valid
      have hnext : S.Step s (s.apply r R ev) := .mk hr hstep hev
      have hreach : S.Reachable (s.apply r R ev) := by
        obtain ⟨mem, hrun⟩ := h
        exact ⟨mem, hrun.tail hnext⟩
      have hlt : ∑ i ∈ Finset.range S.world, S.rankLeft L i ((s.apply r R ev).rank i) < n := by
        rw [← hn, apply_rank]
        refine Finset.sum_lt_sum (fun i _ => ?_) ⟨r, Finset.mem_range.mpr hr, ?_⟩
        · by_cases heq : i = r
          · subst heq
            rw [Function.update_self]
            exact Nat.le_of_lt (hstep.rankLeft_lt hmiss hvalid hle)
          · rw [Function.update_of_ne heq]
        · rw [Function.update_self]
          exact hstep.rankLeft_lt hmiss hvalid hle
      obtain ⟨s', hrun, hall⟩ := ih _ hlt hreach rfl
      exact ⟨s', .head hnext hrun, hall⟩
    · exact ⟨s, .refl, fun r hr => not_le.mp fun hle => hL ⟨r, hr, hle⟩⟩

end Script
end SuffixHybrid.HostAr
