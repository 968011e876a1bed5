import SuffixHybrid.HostAr.Turn

/-!
# The barriers across all ranks

`Script.Inv` ties the ranks together: a flag line has the last epoch that its rank has published, and no rank is at a
barrier ahead of what some rank has published. So a rank is at most one barrier ahead of the others, and a poll finds its
epoch if and only if the rank of the line has published it. `Script.Kept` is about the slots: what a rank has stored in a
round stays there until all ranks have left the next round of the other parity.
-/

namespace SuffixHybrid.HostAr

/-- All bytes of an access have been stored in a round. -/
def State.Marked {V : Type} (s : State V) (a : Access) (e : ℕ) : Prop :=
  ∀ i, a.addr ≤ i → i < a.addr + a.size → (s.mem i).2 = e

/-- Two accesses have no byte in common. -/
def Access.Apart (a a' : Access) : Prop := a.addr + a.size ≤ a'.addr ∨ a'.addr + a'.size ≤ a.addr

namespace Script
variable (S : Script) {V : Type} (s : State V) (c p : ℕ → ℕ)

/-- The stores of a run. -/
def Stores (a : Access) : Prop := ∃ l, ∃ r < S.world, ∃ rnd < (S.call l).rounds, ∃ part, ∃ b < (S.call l).grid r,
  .store a ∈ S.ops l r rnd part b

/-- What the blocks do between the barriers. A part stores in the slots of its rank and of the parity of its epoch, a load
reads a word that some block has stored before the barrier, and slots have no bytes in common. -/
structure Sound : Prop where
  grid : ∀ r < S.world, ∀ l, 0 < (S.call l).grid r
  store : ∀ l, ∀ r < S.world, ∀ rnd < (S.call l).rounds, ∀ part, ∀ b < (S.call l).grid r, ∀ a,
    .store a ∈ S.ops l r rnd part b →
      part < (S.call l).width ∧ a.slot = ⟨decide (part = 1), S.epoch l rnd % 2, r⟩
  load : ∀ l, ∀ r < S.world, ∀ rnd < (S.call l).rounds, ∀ part, ∀ b < (S.call l).grid r, ∀ a,
    .load a ∈ S.ops l r rnd part b → ∃ ph, part = ph + 1 ∧ ∃ j < S.world, ∃ b' < (S.call l).grid j, ∃ a',
      .store a' ∈ S.ops l j rnd ph b' ∧ a'.addr = a.addr ∧ a'.size = a.size
  apart : ∀ a a', S.Stores a → S.Stores a' → a.slot ≠ a'.slot → a.Apart a'

/-- The ranks and their flag lines. -/
structure Inv : Prop where
  rank : ∀ r < S.world, S.RankInv r (s.rank r) (c r) (p r)
  flag : ∀ r < S.world, ∀ par ph, ∃ f, s.flag par ph r = f % 2 ^ 32 ∧ S.Line (fun e => e % 2 = par) ph (p r) f
  cross : ∀ r < S.world, ∀ j < S.world, c r ≤ p j
  seen : ∀ r < S.world, ∀ b < (S.call (s.rank r).launch).grid r, ∀ rnd ph seen,
    ((s.rank r).block b).pc = .lead rnd ph (.polling seen) → ∀ j ∈ seen, 2 * S.epoch (s.rank r).launch rnd + ph < p j

/-- The stores that are done, of the parts behind and of those in work. -/
structure Kept : Prop where
  stored : ∀ j < S.world, ∀ l, ∀ rnd < (S.call l).rounds, ∀ part, ∀ b < (S.call l).grid j, ∀ a,
    .store a ∈ S.ops l j rnd part b → 2 * S.epoch l rnd + part < p j → c j < 2 * (S.epoch l rnd + 2) + part →
      s.Marked a (S.epoch l rnd)
  doing : ∀ r < S.world, ∀ b < (S.call (s.rank r).launch).grid r, ∀ rnd part todo,
    ((s.rank r).block b).pc.doing = some (rnd, part, todo) → 2 * S.epoch (s.rank r).launch rnd + part = c r →
      ∀ a, .store a ∈ S.ops (s.rank r).launch r rnd part b → .store a ∈ todo ∨ s.Marked a (S.epoch (s.rank r).launch rnd)

variable {S s c p} {r : ℕ} {R : Rank} {ev : Event V}

/-! ## Events -/

lemma apply_rank : (s.apply r R ev).rank = Function.update s.rank r R := by
  cases ev <;> rfl

/-- The bytes of a word stay marked, as long as no other epoch stores to one of them. -/
lemma apply_marked {a : Access} {e : ℕ} (h : s.Marked a e) (hev : ∀ a' x e', ev = .store a' x e' → e' = e ∨ a.Apart a') :
    (s.apply r R ev).Marked a e := by
  cases ev with
  | store a' x e' =>
    intro i hlo hhi
    change (if a'.addr ≤ i ∧ i < a'.addr + a'.size then (x (i - a'.addr), e') else s.mem i).2 = e
    rcases hev a' x e' rfl with rfl | hapart
    · split
      · rfl
      · exact h i hlo hhi
    · rw [if_neg (by rcases hapart with hapart | hapart <;> omega)]
      exact h i hlo hhi
  | tau => exact h
  | load a' => exact h
  | publish par ph w => exact h
  | poll par ph j w => exact h
  | miss par ph j w => exact h

lemma marked_store (a : Access) (x : ℕ → V) (e : ℕ) : (s.apply r R (.store a x e)).Marked a e := by
  intro i hlo hhi
  change (if a.addr ≤ i ∧ i < a.addr + a.size then (x (i - a.addr), e) else s.mem i).2 = e
  rw [if_pos ⟨hlo, hhi⟩]

lemma apply_flag (h : ∀ par ph w, ev ≠ .publish par ph w) : (s.apply r R ev).flag = s.flag := by
  cases ev with
  | publish par ph w => exact absurd rfl (h par ph w)
  | tau => rfl
  | load a => rfl
  | store a x e => rfl
  | poll par ph j w => rfl
  | miss par ph j w => rfl

/-! ## Turns -/

namespace Turn
variable {c₀ p₀ c₁ p₁ : ℕ}

/-- The numbers only grow. -/
lemma le (h : S.Turn r R ev c₀ p₀ c₁ p₁) : c₀ ≤ c₁ ∧ p₀ ≤ p₁ := by
  cases h with
  | quiet _ => exact ⟨Nat.le_refl _, Nat.le_refl _⟩
  | publish hb hpc hrnd hph => exact ⟨Nat.le_refl _, Nat.le_of_lt (lt_key_succ hph)⟩
  | release hb hpc hrnd hph hall => exact ⟨Nat.le_of_lt (lt_key_succ hph), Nat.le_refl _⟩

end Turn

/-! ## The ranks -/

namespace Inv
variable (hinv : S.Inv s c p) (hsound : S.Sound) (hfresh : S.Fresh) (hr : r < S.world)
include hinv hr

/-- A leader that finds its epoch in a flag line polls behind the publication. -/
lemma poll (hfresh : S.Fresh) {j b rnd ph : ℕ} {stage : Stage} (hj : j < S.world)
    (hb : b < (S.call (s.rank r).launch).grid r) (hpc : ((s.rank r).block b).pc = .lead rnd ph stage)
    (hflag : s.flag (((s.rank r).block b).epoch rnd % 2) ph j = ((s.rank r).block b).epoch rnd) :
    2 * S.epoch (s.rank r).launch rnd + ph < p j := by
  have hrank := hinv.rank r hr
  obtain ⟨_, hrnd, hph, hc, _⟩ := hrank.lead hb hpc
  refine Nat.lt_of_le_of_ne (hc ▸ hinv.cross r hr j hj) fun heq => ?_
  rw [hrank.epoch_eq hb (by rw [hpc]; nofun), Nat.mod_mod_of_dvd _ (by decide)] at hflag
  obtain ⟨f, hf, hline⟩ := hinv.flag j hj (S.epoch (s.rank r).launch rnd % 2) ph
  rw [← heq] at hline
  rw [hf] at hflag
  exact hline.ne hfresh (.of_round hrnd hph) (fun _ h => h) hflag

/-- A rank is at most at the next barrier of each other rank. -/
lemma cross_turn (hsound : S.Sound) {c₁ p₁ : ℕ} (hturn : S.Turn r (s.rank r) ev (c r) (p r) c₁ p₁) :
    ∀ i < S.world, ∀ j < S.world, Function.update c r c₁ i ≤ Function.update p r p₁ j := by
  have hp (j : ℕ) : p j ≤ Function.update p r p₁ j := by
    by_cases hj : j = r
    · subst hj
      rw [Function.update_self]
      exact hturn.le.2
    · rw [Function.update_of_ne hj]
  intro i hi j hj
  by_cases hir : i = r
  · subst hir
    rw [Function.update_self]
    refine le_trans ?_ (hp j)
    generalize hc : c i = c₀ at hturn
    generalize hp : p i = p₀ at hturn
    cases hturn with
    | quiet _ => exact hc ▸ hinv.cross i hi j hj
    | publish hb hpc hrnd hph => exact hc ▸ hinv.cross i hi j hj
    | release hb hpc hrnd hph hall =>
      have hpos := (hinv.rank j hj).position (hsound.grid j hj _)
      exact key_succ_le hrnd hph hpos (hinv.seen i hi _ hb _ _ _ hpc j (hall j hj))
  · rw [Function.update_of_ne hir]
    exact (hinv.cross i hi j hj).trans (hp j)

/-- The flag lines, after a step. -/
lemma flag_turn {c₁ p₁ : ℕ} (hturn : S.Turn r (s.rank r) ev (c r) (p r) c₁ p₁) {j : ℕ} (hj : j < S.world)
    (par ph : ℕ) : ∃ f, (s.apply r R ev).flag par ph j = f % 2 ^ 32 ∧
      S.Line (fun e => e % 2 = par) ph (Function.update p r p₁ j) f := by
  obtain ⟨f, hf, hline⟩ := hinv.flag j hj par ph
  by_cases hjr : j = r
  · subst hjr
    rw [Function.update_self]
    generalize hc : c j = c₀ at hturn
    generalize hp : p j = p₀ at hturn hline
    cases hturn with
    | quiet hev => exact ⟨f, by rw [apply_flag hev]; exact hf, hline⟩
    | release hb hpc hrnd hph hall => exact ⟨f, hf, hline⟩
    | @publish b rnd ph' hb hpc hrnd hph =>
      change ∃ f, Function.update s.flag _ (Function.update (s.flag _) ph' (Function.update _ j _)) par ph j = _ ∧ _
      by_cases hpar : par = S.epoch (s.rank j).launch rnd % 2
      · subst hpar
        rw [Function.update_self]
        by_cases heq : ph = ph'
        · subst heq
          rw [Function.update_self, Function.update_self]
          exact ⟨_, rfl, .write hrnd hph rfl⟩
        · rw [Function.update_of_ne heq]
          exact ⟨f, hf, hline.keep hrnd hph fun h => absurd h heq⟩
      · rw [Function.update_of_ne hpar]
        exact ⟨f, hf, hline.keep hrnd hph fun _ h => hpar h.symm⟩
  · rw [Function.update_of_ne hjr]
    refine ⟨f, ?_, hline⟩
    rw [← hf]
    cases ev with
    | publish par' ph' w =>
      change Function.update s.flag par' (Function.update (s.flag par') ph' (Function.update _ r w)) par ph j = _
      by_cases hpar : par = par'
      · subst hpar
        rw [Function.update_self]
        by_cases heq : ph = ph'
        · subst heq
          rw [Function.update_self, Function.update_of_ne hjr]
        · rw [Function.update_of_ne heq]
      · rw [Function.update_of_ne hpar]
    | tau => rfl
    | load a => rfl
    | store a x e => rfl
    | poll par' ph' j' w => rfl
    | miss par' ph' j' w => rfl

/-- The lines that the leaders have seen, after a step. -/
lemma seen_turn (hfresh : S.Fresh) {c₁ p₁ : ℕ} (hturn : S.Turn r (s.rank r) ev (c r) (p r) c₁ p₁)
    (hstep : S.RankStep r (s.rank r) ev R) (hev : s.Allows ev) {i b rnd ph j : ℕ} {seen : List ℕ} (hi : i < S.world)
    (hb : b < (S.call ((s.apply r R ev).rank i).launch).grid i)
    (hpc : (((s.apply r R ev).rank i).block b).pc = .lead rnd ph (.polling seen)) (hj : j ∈ seen) :
    2 * S.epoch ((s.apply r R ev).rank i).launch rnd + ph < Function.update p r p₁ j := by
  have hp : p j ≤ Function.update p r p₁ j := by
    by_cases hj : j = r
    · subst hj
      rw [Function.update_self]
      exact hturn.le.2
    · rw [Function.update_of_ne hj]
  refine lt_of_lt_of_le ?_ hp
  rw [apply_rank] at hb hpc ⊢
  by_cases hir : i = r
  · subst hir
    rw [Function.update_self] at hb hpc ⊢
    obtain ⟨hlaunch, seen', hpc', hj⟩ := hstep.polling hpc hj
    rw [hlaunch] at hb ⊢
    rcases hj with hj | rfl
    · exact hinv.seen i hi b hb rnd ph seen' hpc' j hj
    · exact hinv.poll hi hfresh hstep.poll_lt hb hpc' hev
  · rw [Function.update_of_ne hir] at hb hpc ⊢
    exact hinv.seen i hi b hb rnd ph seen hpc j hj

/-- Every step keeps the ranks together. -/
theorem step (hsound : S.Sound) (hfresh : S.Fresh) {c₁ p₁ : ℕ} (hrank : S.RankInv r R c₁ p₁)
    (hturn : S.Turn r (s.rank r) ev (c r) (p r) c₁ p₁) (hstep : S.RankStep r (s.rank r) ev R) (hev : s.Allows ev) :
    S.Inv (s.apply r R ev) (Function.update c r c₁) (Function.update p r p₁) where
  rank i hi := by
    rw [apply_rank]
    by_cases hir : i = r
    · subst hir
      simp only [Function.update_self]
      exact hrank
    · simp only [Function.update_of_ne hir]
      exact hinv.rank i hi
  flag _ hj par ph := hinv.flag_turn hr hturn hj par ph
  cross := hinv.cross_turn hr hsound hturn
  seen _ hi _ hb _ _ _ hpc _ hj := hinv.seen_turn hr hfresh hturn hstep hev hi hb hpc hj

/-- A store goes to the slot of the barrier that its rank is at. -/
lemma store (hsound : S.Sound) {a : Access} {x : ℕ → V} {e : ℕ}
    (hstep : S.RankStep r (s.rank r) (.store a x e) R) : S.Stores a ∧ ∃ rnd part, rnd < (S.call (s.rank r).launch).rounds ∧ part < (S.call (s.rank r).launch).width ∧
      e = S.epoch (s.rank r).launch rnd ∧ c r = 2 * e + part ∧ p r = c r ∧
      a.slot = ⟨decide (part = 1), e % 2, r⟩ := by
  obtain ⟨b, rnd, part, todo, hb, hpc, ha, rfl⟩ := hstep.store_inv
  obtain ⟨_, hp, hkey, hrnd, _, hops⟩ := (hinv.rank r hr).gather_work hb hpc
  obtain ⟨hpart, hslot⟩ := hsound.store _ r hr rnd hrnd part b hb a (hops _ ha)
  rw [key_of_lt hpart] at hkey
  exact ⟨⟨_, r, hr, rnd, hrnd, part, b, hb, hops _ ha⟩, rnd, part, hrnd, hpart, rfl, hkey.symm, hp, hslot⟩

end Inv

/-! ## The slots -/

/-- Two stores to one slot are of one part, and of epochs of one parity. -/
lemma slot_inj {part part' e e' r r' : ℕ} (hpart : part < 2) (hpart' : part' < 2)
    (h : (⟨decide (part = 1), e % 2, r⟩ : Slot) = ⟨decide (part' = 1), e' % 2, r'⟩) :
    part = part' ∧ e % 2 = e' % 2 ∧ r = r' := by
  obtain ⟨hred, hpar, hrank⟩ := Slot.mk.inj h
  rw [decide_eq_decide] at hred
  exact ⟨by omega, hpar, hrank⟩

namespace Kept
variable (hkept : S.Kept s c p) (hinv : S.Inv s c p) (hsound : S.Sound) (hr : r < S.world)
include hkept hinv hsound hr

/-- No step overwrites what is stored and still to be read. -/
lemma stored_step (hstep : S.RankStep r (s.rank r) ev R) {j l rnd part b : ℕ} {a : Access} (hj : j < S.world)
    (hrnd : rnd < (S.call l).rounds) (hb : b < (S.call l).grid j) (ha : .store a ∈ S.ops l j rnd part b)
    (hp : 2 * S.epoch l rnd + part < p j) (hc : c j < 2 * (S.epoch l rnd + 2) + part) :
    (s.apply r R ev).Marked a (S.epoch l rnd) := by
  refine apply_marked (hkept.stored j hj l rnd hrnd part b hb a ha hp hc) ?_
  rintro a' x e rfl
  obtain ⟨hstores, rnd', part', _, hpart', _, hce, hpc, hslot'⟩ := hinv.store hr hsound hstep
  obtain ⟨hpart, hslot⟩ := hsound.store l j hj rnd hrnd part b hb a ha
  refine .inr (hsound.apart a a' ⟨l, j, hj, rnd, hrnd, part, b, hb, ha⟩ hstores fun heq => ?_)
  rw [hslot', hslot] at heq
  obtain ⟨rfl, hpar, rfl⟩ := slot_inj (hpart.trans_le (Call.width_le _)) (hpart'.trans_le (Call.width_le _)) heq
  omega

/-- What is stored of the parts behind, after a step. -/
lemma stored_turn {c₁ p₁ : ℕ} (hturn : S.Turn r (s.rank r) ev (c r) (p r) c₁ p₁)
    (hstep : S.RankStep r (s.rank r) ev R) {l rnd part b : ℕ} {a : Access} (hrnd : rnd < (S.call l).rounds)
    (hb : b < (S.call l).grid r) (ha : .store a ∈ S.ops l r rnd part b) (hp : 2 * S.epoch l rnd + part < p₁)
    (hc : c₁ < 2 * (S.epoch l rnd + 2) + part) : (s.apply r R ev).Marked a (S.epoch l rnd) := by
  have hold (hp : 2 * S.epoch l rnd + part < p r) : (s.apply r R ev).Marked a (S.epoch l rnd) :=
    hkept.stored_step hinv hsound hr hstep hr hrnd hb ha hp (hturn.le.1.trans_lt hc)
  generalize hcr : c r = c₀ at hturn
  generalize hpr : p r = p₀ at hturn hold
  cases hturn with
  | quiet _ => exact hold hp
  | release hb' hpc hrnd' hph hall => exact hold hp
  | @publish b' rnd' ph' hb' hpc hrnd' hph =>
    have hpart := (hsound.store l r hr rnd hrnd part b hb a ha).1
    rcases (lt_key_succ_iff hrnd' hph (.of_round hrnd hpart)).mp hp with hp | ⟨he, rfl⟩
    · exact hold hp
    -- the stores of the part that is published
    · obtain ⟨rfl, rfl⟩ := epoch_inj hrnd hrnd' he
      obtain ⟨hlead, _⟩ := (hinv.rank r hr).lead hb' hpc
      rcases hkept.doing r hr b hb rnd part [] (hlead.doing hb) hcr.symm a ha with hleft | hmark
      · cases hleft
      · exact hmark

/-- What is stored of the parts in work, after a step. -/
lemma doing_turn {c₁ p₁ : ℕ} (hturn : S.Turn r (s.rank r) ev (c r) (p r) c₁ p₁)
    (hstep : S.RankStep r (s.rank r) ev R) {rnd part b : ℕ} {todo : List Op} {a : Access}
    (hb : b < (S.call R.launch).grid r) (hd : (R.block b).pc.doing = some (rnd, part, todo))
    (hat : 2 * S.epoch R.launch rnd + part = c₁) (ha : .store a ∈ S.ops R.launch r rnd part b) :
    .store a ∈ todo ∨ (s.apply r R ev).Marked a (S.epoch R.launch rnd) := by
  rcases hstep.doing hd ha with hleft | ⟨hlaunch, todo', hd', hdone⟩
  · exact .inl hleft
  rw [hlaunch] at hb hat ha ⊢
  have hrank := hinv.rank r hr
  have hc : 2 * S.epoch (s.rank r).launch rnd + part = c r := by
    generalize c r = c₀ at hturn
    generalize p r = p₀ at hturn
    cases hturn with
    | quiet _ => exact hat
    | publish hb' hpc hrnd hph => exact hat
    | release hb' hpc hrnd hph hall =>
      obtain ⟨hlead, _⟩ := hrank.lead hb' hpc
      rw [hlead.doing hb] at hd'
      cases hd'
      exact absurd hat (Nat.ne_of_lt (lt_key_succ hph))
  rcases hkept.doing r hr b hb rnd part todo' hd' hc a ha with hmem | hmark
  · rcases hdone hmem with hmem | ⟨x, rfl⟩
    · exact .inl hmem
    · exact .inr (marked_store a x _)
  -- the blocks of the rank store at one barrier
  · refine .inr (apply_marked hmark ?_)
    rintro a' x e rfl
    obtain ⟨_, rnd', part', _, hpart', _, hce, _, _⟩ := hinv.store hr hsound hstep
    have hpart := (hsound.store _ r hr rnd (hrank.rnd_lt hb hd') part b hb a ha).1
    have hwidth := (S.call (s.rank r).launch).width_le
    exact .inl (by omega)

/-- The slots, after a step. -/
theorem step {c₁ p₁ : ℕ} (hturn : S.Turn r (s.rank r) ev (c r) (p r) c₁ p₁) (hstep : S.RankStep r (s.rank r) ev R) :
    S.Kept (s.apply r R ev) (Function.update c r c₁) (Function.update p r p₁) where
  stored j hj l rnd hrnd part b hb a ha hp hc := by
    by_cases hjr : j = r
    · subst hjr
      rw [Function.update_self] at hp hc
      exact hkept.stored_turn hinv hsound hr hturn hstep hrnd hb ha hp hc
    · rw [Function.update_of_ne hjr] at hp hc
      exact hkept.stored_step hinv hsound hr hstep hj hrnd hb ha hp hc
  doing i hi b hb rnd part todo hd hat a ha := by
    rw [apply_rank] at hb hd hat ha ⊢
    by_cases hir : i = r
    · subst hir
      rw [Function.update_self] at hb hd hat ha ⊢
      rw [Function.update_self] at hat
      exact hkept.doing_turn hinv hsound hr hturn hstep hb hd hat ha
    · rw [Function.update_of_ne hir] at hb hd hat ha ⊢
      rw [Function.update_of_ne hir] at hat
      -- the slots of another rank
      refine (hkept.doing i hi b hb rnd part todo hd hat a ha).imp id fun hmark => apply_marked hmark ?_
      rintro a' x e rfl
      have hrnd := (hinv.rank i hi).rnd_lt hb hd
      obtain ⟨hstores, _, _, _, hpart', _, _, _, hslot'⟩ := hinv.store hr hsound hstep
      obtain ⟨hpart, hslot⟩ := hsound.store _ i hi rnd hrnd part b hb a ha
      refine .inr (hsound.apart a a' ⟨_, i, hi, rnd, hrnd, part, b, hb, ha⟩ hstores fun heq => ?_)
      rw [hslot', hslot] at heq
      exact hir (slot_inj (hpart.trans_le (Call.width_le _)) (hpart'.trans_le (Call.width_le _)) heq).2.2

end Kept

end Script
end SuffixHybrid.HostAr

/-!
## The runs of the collectives

`Script.Safe` is what the barriers are for. In every state of every run, a block is behind a barrier only when all blocks of
all ranks have arrived at it, each load that a block has left finds a word of its own epoch, and all blocks of a launch have
read the same `ctr0`.
-/

namespace SuffixHybrid.HostAr

namespace Script
variable {S : Script} {V : Type} {s : State V} {c p : ℕ → ℕ} {r c₀ p₀ : ℕ} {R : Rank}

/-! ## All states -/

lemma rankInv_init (hgrid : ∀ l, 0 < (S.call l).grid r) :
    S.RankInv r ⟨0, fun _ => ⟨0, .start⟩, 0, fun _ => 0, fun _ => 0⟩ (S.edge 0) (S.edge 0) := by
  have hzero : S.waiting r ⟨0, fun _ => ⟨0, .start⟩, 0, fun _ => 0, fun _ => 0⟩ (S.edge 0) = 0 := by
    rw [waiting, Finset.card_eq_zero, Finset.filter_eq_empty_iff]
    exact fun _ _ => id
  have hbefore : S.before 0 = 0 := Finset.sum_range_zero _
  refine ⟨.gather ⟨fun _ _ => rfl, ?_, fun ph => ?_, ?_⟩, fun _ _ => trivial, fun _ _ h => absurd rfl h,
    fun ph => ⟨0, rfl, .zero⟩⟩
  · rw [hzero]
    exact hgrid 0
  · rw [hzero, ite_self]
  · change 0 = S.before (if S.edge 0 = S.edge 1 then 1 else 0) % 2 ^ 32
    split
    · rename_i hedge
      rw [edge, edge, hbefore] at hedge
      rw [show S.before 1 = 0 by omega, Nat.zero_mod]
    · rw [hbefore, Nat.zero_mod]

lemma inv_init (hsound : S.Sound) (mem : ℕ → V) :
    S.Inv (init mem) (fun _ => S.edge 0) (fun _ => S.edge 0) where
  rank r hr := rankInv_init (hsound.grid r hr)
  flag _ _ _ _ := ⟨0, rfl, .zero⟩
  cross _ _ _ _ := Nat.le_refl _
  seen _ _ _ _ _ _ _ hpc := by cases hpc

lemma kept_init (mem : ℕ → V) : S.Kept (init mem) (fun _ => S.edge 0) (fun _ => S.edge 0) where
  stored _ _ l rnd _ part _ _ _ _ hp := by
    rw [edge, epoch, before, before, Finset.sum_range_zero] at hp
    omega
  doing _ _ _ _ _ _ _ hd := by cases hd

/-- The invariants hold in all states of a run. -/
theorem Reachable.inv (hsound : S.Sound) (hfresh : S.Fresh) (h : S.Reachable s) :
    ∃ c p, S.Inv s c p ∧ S.Kept s c p := by
  obtain ⟨mem, hrun⟩ := h
  induction hrun with
  | refl => exact ⟨_, _, inv_init hsound mem, kept_init mem⟩
  | tail _ hstep ih =>
    obtain ⟨c, p, hinv, hkept⟩ := ih
    cases hstep with
    | mk hr hstep hev =>
      obtain ⟨c₁, p₁, hrank, hturn⟩ := (hinv.rank _ hr).step hfresh (hsound.grid _ hr) hstep
      exact ⟨_, _, hinv.step hr hsound hfresh hrank hturn hstep hev, hkept.step hinv hsound hr hturn hstep⟩

/-! ## Barriers -/

/-- The number of the next barrier that a block is to arrive at. -/
def next (S : Script) (l : ℕ) : PC → ℕ
  | .start => S.edge l
  | .work rnd part _ => S.key l rnd part
  | .wait rnd ph => S.key l rnd (ph + 1)
  | .lead rnd ph _ => S.key l rnd (ph + 1)
  | .done => S.edge (l + 1)

/-- What the barriers are for. -/
structure Safe (S : Script) (s : State V) : Prop where
  barrier : ∀ r < S.world, ∀ b < (S.call (s.rank r).launch).grid r, ∀ rnd ph todo,
    ((s.rank r).block b).pc = .work rnd (ph + 1) todo → ∀ j < S.world, ∀ b' < (S.call (s.rank j).launch).grid j,
      2 * S.epoch (s.rank r).launch rnd + ph < S.next (s.rank j).launch ((s.rank j).block b').pc
  load : ∀ r < S.world, ∀ b < (S.call (s.rank r).launch).grid r, ∀ rnd part todo,
    ((s.rank r).block b).pc = .work rnd part todo → ∀ a, .load a ∈ todo → s.Marked a (S.epoch (s.rank r).launch rnd)
  ctr0 : ∀ r < S.world, ∀ b < (S.call (s.rank r).launch).grid r, ((s.rank r).block b).pc ≠ .start →
    ((s.rank r).block b).ctr0 = S.before (s.rank r).launch % 2 ^ 32

/-- A rank publishes a barrier when all of its blocks have arrived. -/
lemma RankInv.le_next (h : S.RankInv r R c₀ p₀) {b : ℕ} (hb : b < (S.call R.launch).grid r) :
    p₀ ≤ S.next R.launch (R.block b).pc := by
  cases h.mode with
  | gather hg =>
    have hat := hg.toward b hb
    have hval := h.valid b hb
    cases hpc : (R.block b).pc with
    | start =>
      rw [hpc] at hat
      exact Nat.le_of_eq hat.symm
    | work rnd part todo =>
      rw [hpc] at hat
      exact Nat.le_of_eq hat.symm
    | wait rnd ph =>
      rw [hpc] at hat hval
      rcases hat with hat | hat
      · exact hat ▸ Nat.le_of_lt (lt_key_succ hval.2)
      · exact Nat.le_of_eq hat.symm
    | lead rnd ph stage =>
      rw [hpc] at hat
      exact hat.elim
    | done =>
      rw [hpc] at hat
      exact Nat.le_of_eq hat.symm
  | @lead b' rnd ph stage hl =>
    obtain ⟨_, _, hph, _⟩ := h.lead hl.lt hl.pc
    have hnext : S.next R.launch (R.block b).pc = S.key R.launch rnd (ph + 1) := by
      by_cases heq : b = b'
      · rw [heq, hl.pc]
        rfl
      · rw [hl.others b hb heq]
        rfl
    rw [hnext]
    split
    · exact Nat.le_refl _
    · exact Nat.le_of_lt (lt_key_succ hph)

/-- A rank behind a barrier has found it published by all ranks, and no rank is two barriers ahead of it. -/
lemma Inv.behind (hinv : S.Inv s c p) (hr : r < S.world) {b rnd ph : ℕ} {todo : List Op}
    (hb : b < (S.call (s.rank r).launch).grid r) (hpc : ((s.rank r).block b).pc = .work rnd (ph + 1) todo) {j : ℕ}
    (hj : j < S.world) : 2 * S.epoch (s.rank r).launch rnd + ph < p j ∧ c j < 2 * (S.epoch (s.rank r).launch rnd + 2) := by
  obtain ⟨_, hp, hkey, _, hpart, _⟩ := (hinv.rank r hr).gather_work hb hpc
  have hrj := hinv.cross r hr j hj
  have hjr := hinv.cross j hj r hr
  have hlt : _ < S.key (s.rank r).launch rnd (ph + 1) := lt_key_succ hpart
  have hle := S.key_le (s.rank r).launch rnd (ph + 1)
  omega

/-- Every load finds what its rank has stored in the round of the load. -/
lemma Inv.marked (hinv : S.Inv s c p) (hkept : S.Kept s c p) (hsound : S.Sound) (hr : r < S.world) {b rnd part : ℕ}
    {todo : List Op} (hb : b < (S.call (s.rank r).launch).grid r) (hpc : ((s.rank r).block b).pc = .work rnd part todo)
    {a : Access} (ha : .load a ∈ todo) : s.Marked a (S.epoch (s.rank r).launch rnd) := by
  obtain ⟨_, _, _, hrnd, _, hops⟩ := (hinv.rank r hr).gather_work hb hpc
  obtain ⟨ph, rfl, j, hj, b', hb', a', ha', haddr, hsize⟩ := hsound.load _ r hr rnd hrnd part b hb a (hops _ ha)
  obtain ⟨hp, hc⟩ := hinv.behind hr hb hpc hj
  have hmark := hkept.stored j hj _ rnd hrnd ph b' hb' a' ha' hp (hc.trans_le (Nat.le_add_right _ _))
  rw [State.Marked, haddr, hsize] at hmark
  exact hmark

/-- The barriers do what they are for, in all states of all runs. -/
theorem Reachable.holds (hsound : S.Sound) (hfresh : S.Fresh) (h : S.Reachable s) : S.Safe s := by
  obtain ⟨c, p, hinv, hkept⟩ := h.inv hsound hfresh
  refine ⟨fun r hr b hb rnd ph todo hpc j hj b' hb' => ?_, fun r hr b hb rnd part todo hpc a ha => ?_,
    fun r hr => (hinv.rank r hr).ctr0⟩
  · exact (hinv.behind hr hb hpc hj).1.trans_le ((hinv.rank j hj).le_next hb')
  · exact hinv.marked hkept hsound hr hb hpc ha

end Script
end SuffixHybrid.HostAr
