import SuffixHybrid.HostAr.Barrier

/-!
# What a step of a rank does

`RankInv.step`: every step keeps the invariant of the rank, and a `Turn` says what becomes of the two numbers. They stay,
but for the step that publishes and the one that releases. A block leaves a barrier only when the rank has passed it: the
go word has no epoch before its release.
-/

namespace SuffixHybrid.HostAr

/-- The part that a block is in, and the accesses it has left. -/
def PC.doing : PC → Option (ℕ × ℕ × List Op)
  | .work rnd part todo => some (rnd, part, todo)
  | .wait rnd ph => some (rnd, ph, [])
  | .lead rnd ph _ => some (rnd, ph, [])
  | _ => none

namespace Script
variable (S : Script) {V : Type} (r : ℕ) (R : Rank)

/-- What a step makes of the block that takes it, in launch `l`. -/
inductive Goes (l b : ℕ) (B : Block) : Event V → PC → Prop where
  | work {ev rnd part} : Goes l b B ev (.work rnd part (S.ops l r rnd part b))
  | done {ev} : Goes l b B ev .done
  | load {a rnd part todo todo'} (hpc : B.pc = .work rnd part (todo ++ .load a :: todo')) :
    Goes l b B (.load a) (.work rnd part (todo ++ todo'))
  | store {a x rnd part todo todo'} (hpc : B.pc = .work rnd part (todo ++ .store a :: todo')) :
    Goes l b B (.store a x (S.epoch l rnd)) (.work rnd part (todo ++ todo'))
  | wait {ev rnd ph} (hpc : B.pc = .work rnd ph []) : Goes l b B ev (.wait rnd ph)
  | elect {ev rnd ph} (hpc : B.pc = .work rnd ph []) : Goes l b B ev (.lead rnd ph .elected)
  | lead {ev rnd ph stage stage'} (hpc : B.pc = .lead rnd ph stage) (hseen : ∀ seen, stage' = .polling seen → seen = []) :
    Goes l b B ev (.lead rnd ph stage')
  | poll {rnd ph seen j} (hpc : B.pc = .lead rnd ph (.polling seen)) :
    Goes l b B (.poll (B.epoch rnd % 2) ph j (B.epoch rnd)) (.lead rnd ph (.polling (j :: seen)))

/-- What a step makes of the two numbers. -/
inductive Turn : Event V → ℕ → ℕ → ℕ → ℕ → Prop where
  | quiet {ev c p} (hev : ∀ par ph w, ev ≠ .publish par ph w) : Turn ev c p c p
  | publish {b rnd ph} (hb : b < (S.call R.launch).grid r) (hpc : (R.block b).pc = .lead rnd ph .counted)
      (hrnd : rnd < (S.call R.launch).rounds) (hph : ph < (S.call R.launch).width) :
    Turn (.publish (S.epoch R.launch rnd % 2) ph (S.epoch R.launch rnd % 2 ^ 32))
      (2 * S.epoch R.launch rnd + ph) (2 * S.epoch R.launch rnd + ph)
      (2 * S.epoch R.launch rnd + ph) (S.key R.launch rnd (ph + 1))
  | release {b rnd ph seen} (hb : b < (S.call R.launch).grid r) (hpc : (R.block b).pc = .lead rnd ph (.polling seen))
      (hrnd : rnd < (S.call R.launch).rounds) (hph : ph < (S.call R.launch).width) (hall : ∀ j < S.world, j ∈ seen) :
    Turn .tau (2 * S.epoch R.launch rnd + ph) (S.key R.launch rnd (ph + 1))
      (S.key R.launch rnd (ph + 1)) (S.key R.launch rnd (ph + 1))

variable {S r R} {R' : Rank} {ev : Event V} {c p b rnd ph : ℕ} {stage : Stage}

/-! ## The block that takes a step -/

/-- A step starts a launch, or is one of a block. -/
lemma RankStep.goes (h : S.RankStep r R ev R') :
    R' = { R with launch := R.launch + 1, block := fun _ => ⟨0, .start⟩ } ∨
      R'.launch = R.launch ∧ ∃ b B, R'.block = Function.update R.block b B ∧
        S.Goes r R.launch b (R.block b) ev B.pc := by
  cases h with
  | launch hdone => exact .inl rfl
  | start hb hpc =>
    refine .inr ⟨rfl, _, _, rfl, ?_⟩
    rw [first]
    split
    · exact .work
    · exact .done
  | load hb hpc => exact .inr ⟨rfl, _, _, rfl, .load hpc⟩
  | store hb hpc => exact .inr ⟨rfl, _, _, rfl, .store hpc⟩
  | next hb hpc hpart =>
    refine .inr ⟨rfl, _, _, rfl, ?_⟩
    rw [following]
    split
    · exact .work
    · exact .done
  | arrive hb hpc hph hold => exact .inr ⟨rfl, _, _, rfl, .wait hpc⟩
  | last hb hpc hph hold => exact .inr ⟨rfl, _, _, rfl, .elect hpc⟩
  | clear hb hpc => exact .inr ⟨rfl, _, _, rfl, .lead hpc nofun⟩
  | count hb hpc => exact .inr ⟨rfl, _, _, rfl, .lead hpc nofun⟩
  | publish hb hpc => exact .inr ⟨rfl, _, _, rfl, .lead hpc fun _ hseen => (Stage.polling.inj hseen).symm⟩
  | poll hb hpc hj hseen => exact .inr ⟨rfl, _, _, rfl, .poll hpc⟩
  | miss hb hpc hj hseen hw => exact .inr ⟨rfl, _, _, rfl, .lead hpc fun _ hseen => (Stage.polling.inj hseen).symm⟩
  | release hb hpc hall => exact .inr ⟨rfl, _, _, rfl, .work⟩
  | pass hb hpc hgo => exact .inr ⟨rfl, _, _, rfl, .work⟩

/-- A store is one of the accesses that a block has left. -/
lemma RankStep.store_inv {a : Access} {x : ℕ → V} {e : ℕ} (h : S.RankStep r R (.store a x e) R') :
    ∃ b rnd part todo, b < (S.call R.launch).grid r ∧ (R.block b).pc = .work rnd part todo ∧ .store a ∈ todo ∧
      e = S.epoch R.launch rnd := by
  cases h with
  | store hb hpc => exact ⟨_, _, _, _, hb, hpc, List.mem_append_right _ List.mem_cons_self, rfl⟩

lemma RankStep.poll_lt {par j w : ℕ} (h : S.RankStep r R (.poll par ph j w : Event V) R') : j < S.world := by
  cases h with
  | poll hb hpc hj hseen => exact hj

/-- A store of a part is left of it, or was not left before, or is the one that is done. -/
lemma RankStep.doing (h : S.RankStep r R ev R') {part : ℕ} {todo : List Op} {a : Access}
    (hd : (R'.block b).pc.doing = some (rnd, part, todo)) (ha : .store a ∈ S.ops R'.launch r rnd part b) :
    .store a ∈ todo ∨ R'.launch = R.launch ∧ ∃ todo', (R.block b).pc.doing = some (rnd, part, todo') ∧
      (.store a ∈ todo' → .store a ∈ todo ∨ ∃ x, ev = .store a x (S.epoch R.launch rnd)) := by
  rcases h.goes with rfl | ⟨hlaunch, b', B, hblock, hgoes⟩
  · cases hd
  · rw [hlaunch] at ha
    by_cases hb : b = b'
    · subst hb
      rw [hblock, Function.update_self] at hd
      obtain ⟨ctr0, pc⟩ := B
      cases hgoes with
      | work =>
        cases hd
        exact .inl ha
      | done => cases hd
      | @load a' _ _ left right hpc =>
        cases hd
        refine .inr ⟨hlaunch, left ++ .load a' :: right, by rw [hpc]; rfl, fun hmem => .inl ?_⟩
        rw [List.mem_append, List.mem_cons] at hmem
        rw [List.mem_append]
        exact hmem.imp_right fun hmem => hmem.resolve_left nofun
      | @store a' _ _ _ left right hpc =>
        cases hd
        refine .inr ⟨hlaunch, left ++ .store a' :: right, by rw [hpc]; rfl, fun hmem => ?_⟩
        rw [List.mem_append, List.mem_cons] at hmem
        rcases hmem with hmem | hmem | hmem
        · exact .inl (List.mem_append_left _ hmem)
        · obtain rfl := Op.store.inj hmem
          exact .inr ⟨_, rfl⟩
        · exact .inl (List.mem_append_right _ hmem)
      | wait hpc =>
        cases hd
        exact .inr ⟨hlaunch, [], by rw [hpc]; rfl, .inl⟩
      | elect hpc =>
        cases hd
        exact .inr ⟨hlaunch, [], by rw [hpc]; rfl, .inl⟩
      | lead hpc hseen =>
        cases hd
        exact .inr ⟨hlaunch, [], by rw [hpc]; rfl, .inl⟩
      | poll hpc =>
        cases hd
        exact .inr ⟨hlaunch, [], by rw [hpc]; rfl, .inl⟩
    · rw [hblock, Function.update_of_ne hb] at hd
      exact .inr ⟨hlaunch, todo, hd, .inl⟩

/-- A flag line that a leader has seen was seen before, or is polled now. -/
lemma RankStep.polling (h : S.RankStep r R ev R') {seen : List ℕ} {j : ℕ}
    (hpc : (R'.block b).pc = .lead rnd ph (.polling seen)) (hj : j ∈ seen) :
    R'.launch = R.launch ∧ ∃ seen', (R.block b).pc = .lead rnd ph (.polling seen') ∧
      (j ∈ seen' ∨ ev = .poll ((R.block b).epoch rnd % 2) ph j ((R.block b).epoch rnd)) := by
  rcases h.goes with rfl | ⟨hlaunch, b', B, hblock, hgoes⟩
  · cases hpc
  · refine ⟨hlaunch, ?_⟩
    by_cases hb : b = b'
    · subst hb
      rw [hblock, Function.update_self] at hpc
      rw [hpc] at hgoes
      cases hgoes with
      | lead _ hseen =>
        rw [hseen _ rfl] at hj
        cases hj
      | @poll _ _ seen' _ hpc' =>
        rcases List.mem_cons.mp hj with rfl | hj
        · exact ⟨seen', hpc', .inr rfl⟩
        · exact ⟨seen', hpc', .inl hj⟩
    · rw [hblock, Function.update_of_ne hb] at hpc
      exact ⟨seen, hpc, .inl hj⟩

/-- When a block leads, all blocks have done their part. -/
lemma Lead.doing (h : S.Lead r R b rnd ph stage) {b' : ℕ} (hb' : b' < (S.call R.launch).grid r) :
    (R.block b').pc.doing = some (rnd, ph, []) := by
  by_cases heq : b' = b
  · rw [heq, h.pc]
    rfl
  · rw [h.others b' hb' heq]
    rfl

namespace RankInv

/-! ## Where a block is -/

/-- A block reads `epoch` off its own `ctr0`. -/
lemma epoch_eq (h : S.RankInv r R c p) (hb : b < (S.call R.launch).grid r) (hpc : (R.block b).pc ≠ .start) (rnd : ℕ) :
    (R.block b).epoch rnd = S.epoch R.launch rnd % 2 ^ 32 := by
  rw [Block.epoch, h.ctr0 b hb hpc, Nat.mod_add_mod, epoch, Nat.add_assoc]

/-- While a block is not at a barrier, the blocks gather. -/
lemma gather (h : S.RankInv r R c p) (hb : b < (S.call R.launch).grid r)
    (hlead : ∀ rnd ph stage, (R.block b).pc ≠ .lead rnd ph stage) (hwait : ∀ rnd ph, (R.block b).pc ≠ .wait rnd ph) :
    S.Gather r R c ∧ p = c := by
  cases h.mode with
  | gather hg => exact ⟨hg, rfl⟩
  | @lead b' rnd ph stage hl =>
    by_cases heq : b = b'
    · subst heq
      exact absurd hl.pc (hlead _ _ _)
    · exact absurd (hl.others b hb heq) (hwait _ _)

lemma gather_work (h : S.RankInv r R c p) (hb : b < (S.call R.launch).grid r) {part : ℕ} {todo : List Op}
    (hpc : (R.block b).pc = .work rnd part todo) :
    S.Gather r R c ∧ p = c ∧ S.key R.launch rnd part = c ∧ S.Valid R.launch r b (.work rnd part todo) := by
  obtain ⟨hg, hp⟩ := h.gather hb (fun _ _ _ => by rw [hpc]; nofun) fun _ _ => by rw [hpc]; nofun
  have hat := hg.toward b hb
  have hval := h.valid b hb
  rw [hpc] at hat hval
  exact ⟨hg, hp, hat, hval⟩

/-- When a block leads, the others wait for it. -/
lemma lead (h : S.RankInv r R c p) (hb : b < (S.call R.launch).grid r) (hpc : (R.block b).pc = .lead rnd ph stage) :
    S.Lead r R b rnd ph stage ∧ rnd < (S.call R.launch).rounds ∧ ph < (S.call R.launch).width ∧
      c = 2 * S.epoch R.launch rnd + ph ∧
      p = if stage.HasPublished then S.key R.launch rnd (ph + 1) else 2 * S.epoch R.launch rnd + ph := by
  have hval := h.valid b hb
  rw [hpc] at hval
  cases h.mode with
  | gather hg =>
    have hat := hg.toward b hb
    rw [hpc] at hat
    exact hat.elim
  | @lead b' rnd' ph' stage' hl =>
    by_cases heq : b = b'
    · subst heq
      obtain ⟨rfl, rfl, rfl⟩ := PC.lead.inj (hpc.symm.trans hl.pc)
      exact ⟨hl, hval.1, hval.2, rfl, rfl⟩
    · have := hl.others b hb heq
      rw [hpc] at this
      cases this

/-- A block that finds its epoch in the go word has been released. -/
lemma released (h : S.RankInv r R c p) (hfresh : S.Fresh) (hb : b < (S.call R.launch).grid r)
    (hpc : (R.block b).pc = .wait rnd ph) (hgo : R.go ph = (R.block b).epoch rnd) :
    S.Gather r R c ∧ p = c ∧ S.key R.launch rnd (ph + 1) = c ∧ 2 * S.epoch R.launch rnd + ph ≠ c := by
  have hval := h.valid b hb
  rw [hpc] at hval
  obtain ⟨hrnd, hph⟩ := hval
  have hne : 2 * S.epoch R.launch rnd + ph ≠ c := by
    rintro rfl
    obtain ⟨f, hf, hline⟩ := h.go ph
    rw [h.epoch_eq hb (by rw [hpc]; nofun), hf] at hgo
    exact hline.ne hfresh (.of_round hrnd hph) (fun _ _ => trivial) hgo
  cases h.mode with
  | gather hg =>
    have hat := hg.toward b hb
    rw [hpc] at hat
    exact ⟨hg, rfl, hat.resolve_left hne, hne⟩
  | @lead b' rnd' ph' stage' hl =>
    by_cases heq : b = b'
    · subst heq
      have := hl.pc
      rw [hpc] at this
      cases this
    · have := hl.others b hb heq
      rw [hpc] at this
      obtain ⟨rfl, rfl⟩ := PC.wait.inj this
      exact absurd rfl hne

/-- A rank is at the start or the end of its launch, or at a barrier of it. -/
lemma place (h : S.RankInv r R c p) (hgrid : 0 < (S.call R.launch).grid r) : S.edge R.launch = c ∨
    S.edge (R.launch + 1) = c ∨ ∃ rnd part, rnd < (S.call R.launch).rounds ∧ S.key R.launch rnd part = c := by
  cases h.mode with
  | gather hg =>
    have hat := hg.toward 0 hgrid
    have hval := h.valid 0 hgrid
    cases hpc : (R.block 0).pc with
    | start =>
      rw [hpc] at hat
      exact .inl hat
    | work rnd part todo =>
      rw [hpc] at hat hval
      exact .inr (.inr ⟨rnd, part, hval.1, hat⟩)
    | wait rnd ph =>
      rw [hpc] at hat hval
      rcases hat with hat | hat
      · exact .inr (.inr ⟨rnd, ph, hval.1, (key_of_lt hval.2).trans hat⟩)
      · exact .inr (.inr ⟨rnd, ph + 1, hval.1, hat⟩)
    | lead rnd ph stage =>
      rw [hpc] at hat
      exact hat.elim
    | done =>
      rw [hpc] at hat
      exact .inr (.inl hat)
  | @lead b rnd ph stage hl =>
    obtain ⟨_, hrnd, hph, _, _⟩ := h.lead hl.lt hl.pc
    exact .inr (.inr ⟨rnd, ph, hrnd, key_of_lt hph⟩)

lemma position (h : S.RankInv r R c p) (hgrid : 0 < (S.call R.launch).grid r) : S.Position p := by
  cases h.mode with
  | gather hg =>
    rcases h.place hgrid with rfl | rfl | ⟨rnd, part, hrnd, rfl⟩
    · exact position_edge _
    · exact position_edge _
    · exact position_key hrnd
  | lead hl =>
    obtain ⟨_, hrnd, hph, _, _⟩ := h.lead hl.lt hl.pc
    rw [← key_of_lt hph]
    split
    · exact position_key hrnd
    · exact position_key hrnd

lemma edge_le (h : S.RankInv r R c p) (hgrid : 0 < (S.call R.launch).grid r) : S.edge R.launch ≤ c := by
  rcases h.place hgrid with rfl | rfl | ⟨rnd, part, _, rfl⟩
  · exact Nat.le_refl _
  · exact edge_mono (Nat.le_succ _)
  · exact Script.edge_le

/-- A rank has published the barrier that it is at, or not. -/
lemma le_add (h : S.RankInv r R c p) : p ≤ c + 2 := by
  cases h.mode with
  | gather hg => exact Nat.le_add_right _ _
  | @lead b rnd ph stage hl =>
    have := S.key_le R.launch rnd (ph + 1)
    split <;> omega

/-- A block is in a round of the launch. -/
lemma rnd_lt (h : S.RankInv r R c p) (hb : b < (S.call R.launch).grid r) {part : ℕ} {todo : List Op}
    (hd : (R.block b).pc.doing = some (rnd, part, todo)) : rnd < (S.call R.launch).rounds := by
  have hval := h.valid b hb
  cases hpc : (R.block b).pc with
  | start =>
    rw [hpc] at hd
    cases hd
  | work rnd' part' todo' =>
    rw [hpc] at hd hval
    cases hd
    exact hval.1
  | wait rnd' ph =>
    rw [hpc] at hd hval
    cases hd
    exact hval.1
  | lead rnd' ph stage =>
    rw [hpc] at hd hval
    cases hd
    exact hval.1
  | done =>
    rw [hpc] at hd
    cases hd

/-! ## Steps -/

/-- A block goes on without arriving. -/
lemma update (h : S.RankInv r R c p) (hg : S.Gather r R c ∧ p = c) {B : Block}
    (hold : ¬ S.Waits R.launch c (R.block b).pc) (htoward : S.Toward R.launch c B.pc)
    (hnew : ¬ S.Waits R.launch c B.pc) (hvalid : S.Valid R.launch r b B.pc)
    (hctr0 : B.pc ≠ .start → B.ctr0 = S.before R.launch % 2 ^ 32) :
    S.RankInv r { R with block := Function.update R.block b B } c p := by
  obtain ⟨hg, rfl⟩ := hg
  refine ⟨.gather (hg.update hold htoward hnew), fun b' hb' => ?_, fun b' hb' => ?_, h.go⟩
  · by_cases heq : b' = b
    · subst heq
      simp only [Function.update_self]
      exact hvalid
    · simp only [Function.update_of_ne heq]
      exact h.valid b' hb'
  · by_cases heq : b' = b
    · subst heq
      simp only [Function.update_self]
      exact hctr0
    · simp only [Function.update_of_ne heq]
      exact h.ctr0 b' hb'

/-- A block goes to or from a barrier. -/
lemma move (h : S.RankInv r R c p) (pc : PC) (hpc : (R.block b).pc ≠ .start) (hb : b < (S.call R.launch).grid r)
    (hvalid : S.Valid R.launch r b pc) {c' p' : ℕ} (hmode : S.Mode r R' c' p')
    (hgo : ∀ ph, ∃ f, R'.go ph = f % 2 ^ 32 ∧ S.Line (fun _ => True) ph c' f) (hlaunch : R'.launch = R.launch)
    (hblock : R'.block = (R.move b pc).block) : S.RankInv r R' c' p' := by
  refine ⟨hmode, fun b' hb' => ?_, fun b' hb' => ?_, hgo⟩
  · rw [hlaunch] at hb' ⊢
    rw [hblock]
    by_cases heq : b' = b
    · subst heq
      simp only [Rank.move, Function.update_self]
      exact hvalid
    · simp only [Rank.move, Function.update_of_ne heq]
      exact h.valid b' hb'
  · rw [hlaunch] at hb' ⊢
    rw [hblock]
    by_cases heq : b' = b
    · subst heq
      simp only [Rank.move, Function.update_self]
      exact fun _ => h.ctr0 b' hb hpc
    · simp only [Rank.move, Function.update_of_ne heq]
      exact h.ctr0 b' hb'

/-- A block that has read `ctr` starts its first part. -/
lemma start (h : S.RankInv r R c p) (hb : b < (S.call R.launch).grid r) (hpc : (R.block b).pc = .start) :
    S.RankInv r { R with block := Function.update R.block b ⟨R.ctr, S.first R.launch r b⟩ } c p := by
  have hg := h.gather hb (fun _ _ _ => by rw [hpc]; nofun) fun _ _ => by rw [hpc]; nofun
  have hat := hg.1.toward b hb
  rw [hpc] at hat
  obtain rfl : S.edge R.launch = c := hat
  have hctr : R.ctr = S.before R.launch % 2 ^ 32 := by
    have hctr := hg.1.ctr
    split at hctr
    · rename_i hedge
      rw [hctr, show S.before R.launch = S.before (R.launch + 1) by rw [edge, edge] at hedge; omega]
    · exact hctr
  have hold : ¬ S.Waits R.launch (S.edge R.launch) (R.block b).pc := by
    rw [hpc]
    exact id
  rw [first]
  split
  · rename_i hrounds
    exact h.update hg hold (key_zero _) id ⟨hrounds, Nat.zero_le _, fun _ hop => hop⟩ fun _ => hctr
  · rename_i hrounds
    exact h.update hg hold (edge_empty hrounds).symm id trivial fun _ => hctr

/-- An access of a block. -/
lemma access (h : S.RankInv r R c p) (hb : b < (S.call R.launch).grid r) {part : ℕ} {todo todo' : List Op} {op : Op}
    (hpc : (R.block b).pc = .work rnd part (todo ++ op :: todo')) :
    S.RankInv r (R.move b (.work rnd part (todo ++ todo'))) c p := by
  obtain ⟨hg, hp, hkey, hrnd, hpart, hops⟩ := h.gather_work hb hpc
  refine h.update ⟨hg, hp⟩ (by rw [hpc]; exact id) hkey id ⟨hrnd, hpart, fun op' hop' => hops op' ?_⟩ fun _ =>
    h.ctr0 b hb (by rw [hpc]; nofun)
  rw [List.mem_append] at hop' ⊢
  exact hop'.imp_right (List.mem_cons_of_mem _)

/-- The end of a round. -/
lemma next (h : S.RankInv r R c p) (hb : b < (S.call R.launch).grid r) {todo : List Op}
    (hpc : (R.block b).pc = .work rnd (S.call R.launch).width todo) :
    S.RankInv r (R.move b (S.following R.launch r rnd b)) c p := by
  obtain ⟨hg, hp, hkey, hrnd, _⟩ := h.gather_work hb hpc
  have hctr0 := h.ctr0 b hb (by rw [hpc]; nofun)
  have hold : ¬ S.Waits R.launch c (R.block b).pc := by
    rw [hpc]
    exact id
  rw [following]
  split
  · rename_i hnext
    exact h.update ⟨hg, hp⟩ hold ((key_next _ _).trans hkey) id ⟨hnext, Nat.zero_le _, fun _ hop => hop⟩ fun _ => hctr0
  · exact h.update ⟨hg, hp⟩ hold ((key_end (by omega)).trans hkey) id trivial fun _ => hctr0

/-- A block leaves the barrier. -/
lemma pass (h : S.RankInv r R c p) (hfresh : S.Fresh) (hb : b < (S.call R.launch).grid r)
    (hpc : (R.block b).pc = .wait rnd ph) (hgo : R.go ph = (R.block b).epoch rnd) :
    S.RankInv r (R.move b (S.behind R.launch r rnd ph b)) c p := by
  obtain ⟨hg, hp, hkey, hne⟩ := h.released hfresh hb hpc hgo
  have hval := h.valid b hb
  rw [hpc] at hval
  exact h.update ⟨hg, hp⟩ (by rw [hpc]; exact hne) hkey id ⟨hval.1, hval.2, fun _ hop => hop⟩ fun _ =>
    h.ctr0 b hb (by rw [hpc]; nofun)

/-- A block arrives at the barrier. -/
lemma arrive (h : S.RankInv r R c p) (hb : b < (S.call R.launch).grid r) {todo : List Op}
    (hpc : (R.block b).pc = .work rnd ph todo) (hph : ph < (S.call R.launch).width)
    (hold : R.arr ph ≠ (S.call R.launch).grid r - 1) :
    S.RankInv r { R.move b (.wait rnd ph) with arr := Function.update R.arr ph (R.arr ph + 1) } c p := by
  obtain ⟨hg, rfl, hkey, hrnd, _⟩ := h.gather_work hb hpc
  rw [key_of_lt hph] at hkey
  subst hkey
  exact h.move (.wait rnd ph) (by rw [hpc]; nofun) hb ⟨hrnd, hph⟩ (.gather (hg.arrive hph hb hpc hold)) h.go rfl rfl

/-- The last block arrives, and leads. -/
lemma last (h : S.RankInv r R c p) (hb : b < (S.call R.launch).grid r) {todo : List Op}
    (hpc : (R.block b).pc = .work rnd ph todo) (hph : ph < (S.call R.launch).width)
    (hold : R.arr ph = (S.call R.launch).grid r - 1) :
    S.RankInv r { R.move b (.lead rnd ph .elected) with arr := Function.update R.arr ph (R.arr ph + 1) } c p := by
  obtain ⟨hg, rfl, hkey, hrnd, _⟩ := h.gather_work hb hpc
  rw [key_of_lt hph] at hkey
  subst hkey
  exact h.move (.lead rnd ph .elected) (by rw [hpc]; nofun) hb ⟨hrnd, hph⟩
    (.lead (hg.last h.valid hrnd hph hb hpc hold)) h.go rfl rfl

/-- The leader goes to its next stage. -/
lemma advance (h : S.RankInv r R c p) (hb : b < (S.call R.launch).grid r) (hpc : (R.block b).pc = .lead rnd ph stage)
    {stage' : Stage} (hlead : S.Lead r R' b rnd ph stage') (hlaunch : R'.launch = R.launch) (hgo : R'.go = R.go)
    (hblock : R'.block = (R.move b (.lead rnd ph stage')).block) :
    S.RankInv r R' c
      (if stage'.HasPublished then S.key R.launch rnd (ph + 1) else 2 * S.epoch R.launch rnd + ph) := by
  obtain ⟨_, hrnd, hph, rfl, _⟩ := h.lead hb hpc
  have hmode := Mode.lead hlead
  rw [hlaunch] at hmode
  refine h.move (.lead rnd ph stage') (by rw [hpc]; nofun) hb ⟨hrnd, hph⟩ hmode ?_ hlaunch hblock
  rw [hgo]
  exact h.go

/-- The leader writes the go word. -/
lemma release (h : S.RankInv r R c p) (hgrid : 0 < (S.call R.launch).grid r) (hb : b < (S.call R.launch).grid r)
    {seen : List ℕ} (hpc : (R.block b).pc = .lead rnd ph (.polling seen)) :
    S.RankInv r { R.move b (S.behind R.launch r rnd ph b) with
      go := Function.update R.go ph ((R.block b).epoch rnd) } (S.key R.launch rnd (ph + 1))
      (S.key R.launch rnd (ph + 1)) := by
  obtain ⟨hl, hrnd, hph, rfl, _⟩ := h.lead hb hpc
  refine h.move (S.behind R.launch r rnd ph b) (by rw [hpc]; nofun) hb ⟨hrnd, hph, fun _ hop => hop⟩
    (.gather (hl.release hgrid hph (fun _ => rfl) trivial)) (fun ph' => ?_) rfl rfl
  change ∃ f, Function.update R.go ph ((R.block b).epoch rnd) ph' = _ ∧ _
  by_cases heq : ph' = ph
  · subst heq
    rw [Function.update_self]
    exact ⟨_, h.epoch_eq hb (by rw [hpc]; nofun) rnd, .write hrnd hph trivial⟩
  · rw [Function.update_of_ne heq]
    obtain ⟨f, hf, hline⟩ := h.go ph'
    exact ⟨f, hf, hline.keep hrnd hph fun heq' => absurd heq' heq⟩

/-- The next launch starts. -/
lemma launch (h : S.RankInv r R c p) (hgrid : ∀ l, 0 < (S.call l).grid r)
    (hdone : ∀ b < (S.call R.launch).grid r, (R.block b).pc = .done) :
    S.RankInv r { R with launch := R.launch + 1, block := fun _ => ⟨0, .start⟩ } c p := by
  obtain ⟨hg, rfl⟩ := h.gather (hgrid _) (fun _ _ _ => by rw [hdone _ (hgrid _)]; nofun) fun _ _ => by
    rw [hdone _ (hgrid _)]; nofun
  exact ⟨.gather (hg.launch hgrid hdone), fun _ _ => trivial, fun _ _ hne => absurd rfl hne, h.go⟩

/-- Every step keeps the invariant of its rank. -/
theorem step (h : S.RankInv r R c p) (hfresh : S.Fresh) (hgrid : ∀ l, 0 < (S.call l).grid r)
    (hstep : S.RankStep r R ev R') : ∃ c' p', S.RankInv r R' c' p' ∧ S.Turn r R ev c p c' p' := by
  cases hstep with
  | launch hdone => exact ⟨c, p, h.launch hgrid hdone, .quiet nofun⟩
  | start hb hpc => exact ⟨c, p, h.start hb hpc, .quiet nofun⟩
  | load hb hpc => exact ⟨c, p, h.access hb hpc, .quiet nofun⟩
  | store hb hpc => exact ⟨c, p, h.access hb hpc, .quiet nofun⟩
  | next hb hpc hpart =>
    subst hpart
    exact ⟨c, p, h.next hb hpc, .quiet nofun⟩
  | arrive hb hpc hph hold => exact ⟨c, p, h.arrive hb hpc hph hold, .quiet nofun⟩
  | last hb hpc hph hold => exact ⟨c, p, h.last hb hpc hph hold, .quiet nofun⟩
  | @clear b rnd ph hb hpc =>
    obtain ⟨hl, hrnd, hph, rfl, rfl⟩ := h.lead hb hpc
    refine ⟨_, _, h.advance hb hpc (hl.update rfl rfl (fun ph' => ?_) hl.ctr) rfl rfl rfl, .quiet nofun⟩
    change Function.update R.arr ph 0 ph' = if ph' = ph then 0 else 0
    rw [ite_self]
    by_cases heq : ph' = ph
    · subst heq
      exact Function.update_self _ _ _
    · rw [Function.update_of_ne heq, hl.arr ph', if_neg heq]
  | @count b rnd ph hb hpc =>
    obtain ⟨hl, hrnd, hph, rfl, rfl⟩ := h.lead hb hpc
    refine ⟨_, _, h.advance hb hpc (hl.update rfl rfl hl.arr ?_) rfl rfl rfl, .quiet nofun⟩
    have hctr := hl.ctr
    rw [if_neg fun hcount => hcount.2] at hctr
    change (if (S.call R.launch).Final rnd ph then _ else R.ctr) = _
    split
    · rename_i hfinal
      rw [if_pos ⟨hfinal, trivial⟩, h.ctr0 b hb (by rw [hpc]; nofun), Nat.mod_add_mod, before_succ]
    · rename_i hfinal
      rw [if_neg fun hcount => hfinal hcount.1]
      exact hctr
  | @publish b rnd ph hb hpc =>
    obtain ⟨hl, hrnd, hph, rfl, rfl⟩ := h.lead hb hpc
    have hlead : S.Lead r (R.move b (.lead rnd ph (.polling []))) b rnd ph (.polling []) := hl.same (fun _ => rfl) Iff.rfl
    have hmod : S.epoch R.launch rnd % 2 ^ 32 % 2 = S.epoch R.launch rnd % 2 := Nat.mod_mod_of_dvd _ (by decide)
    rw [h.epoch_eq hb (by rw [hpc]; nofun), hmod]
    exact ⟨_, _, h.advance hb hpc hlead rfl rfl rfl, .publish hb hpc hrnd hph⟩
  | @poll b rnd ph seen j hb hpc hj hseen =>
    obtain ⟨hl, hrnd, hph, rfl, rfl⟩ := h.lead hb hpc
    exact ⟨_, _, h.advance hb hpc (hl.same (fun _ => rfl) Iff.rfl) rfl rfl rfl, .quiet nofun⟩
  | miss hb hpc hj hseen hw =>
    obtain ⟨hl, hrnd, hph, rfl, rfl⟩ := h.lead hb hpc
    exact ⟨_, _, h.advance hb hpc (hl.same (fun _ => rfl) Iff.rfl) rfl rfl rfl, .quiet nofun⟩
  | @release b rnd ph seen hb hpc hall =>
    obtain ⟨hl, hrnd, hph, rfl, rfl⟩ := h.lead hb hpc
    exact ⟨_, _, h.release (hgrid _) hb hpc, .release hb hpc hrnd hph hall⟩
  | pass hb hpc hgo => exact ⟨c, p, h.pass hfresh hb hpc hgo, .quiet nofun⟩

end RankInv

end Script
end SuffixHybrid.HostAr
