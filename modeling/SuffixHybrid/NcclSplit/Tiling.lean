import Mathlib.Order.Lattice.Nat
import SuffixHybrid.Lib.Span
import SuffixHybrid.NcclSplit.Bands

/-!
# The bands tile the size axis

`buildBands_tiling`: the bands of increasing sizes run from 0 to `INF` without gap or overlap, and each
measured size is in a band of its winner. The loop over the winners carries the lower end of the next
band, which is never above the next size (`bandsFrom_tiles`); the clamp of `_cross` keeps it there. The
last band ends at `INF`, so it leaves out a size of `INF` bytes (`buildBands_inf`).
-/

namespace SuffixHybrid.NcclSplit
open Lib
variable {F : Type} [LinearOrder F]

/-! ## The winner -/

/-- A timed spec is the smaller one of itself and the others. -/
def Least (l : List (F × String)) (p : F × String) : Prop :=
  p ∈ l ∧ ∀ q ∈ l, p.1 < q.1 ∨ p.1 = q.1 ∧ ¬ q.2 < p.2

lemma Least.smaller {l : List (F × String)} {p : F × String} (h : Least l p) (q : F × String) :
    Least (l ++ [q]) (smaller p q) := by
  obtain ⟨hmem, hle⟩ := h
  rw [NcclSplit.smaller]
  split
  case isTrue hlt =>
    refine ⟨List.mem_append_right _ List.mem_cons_self, fun r hr => ?_⟩
    obtain hr | hr := List.mem_append.mp hr
    · obtain hpr | ⟨hpr, hname⟩ := hle r hr
      · obtain hq | ⟨hq, -⟩ := hlt
        · exact .inl (hq.trans hpr)
        · exact .inl (hq ▸ hpr)
      · obtain hq | ⟨hq, hname'⟩ := hlt
        · exact .inl (hpr ▸ hq)
        · exact .inr ⟨hq.trans hpr, fun hrq => hname (String.lt_trans hrq hname')⟩
    · rw [List.mem_singleton.mp hr]
      exact .inr ⟨rfl, String.lt_irrefl _⟩
  case isFalse hge =>
    refine ⟨List.mem_append_left _ hmem, fun r hr => ?_⟩
    obtain hr | hr := List.mem_append.mp hr
    · exact hle r hr
    · rw [List.mem_singleton.mp hr]
      rw [not_or, not_and] at hge
      obtain hlt | heq := (not_lt.mp hge.1).lt_or_eq
      · exact .inl hlt
      · exact .inr ⟨heq, hge.2 heq.symm⟩

lemma least_foldl (l l' : List (F × String)) {p : F × String} (h : Least l p) :
    Least (l ++ l') (l'.foldl smaller p) := by
  induction l' generalizing l p with
  | nil => rwa [List.append_nil]
  | cons q l' ih =>
    have hstep := ih (l ++ [q]) (h.smaller q)
    rwa [List.append_assoc] at hstep

variable [OrderTop F]

/-- The fastest candidate, when there is one. -/
lemma fastest_least {candidates : List String} {c : String} (hc : c ∈ candidates)
    (hd : c ≠ "default") (T : String → ℕ → F) (i : ℕ) :
    Least ((candidates.filter (· ≠ "default")).map fun c => (T c i, c)) (fastest candidates T i) := by
  rw [fastest]
  split
  case h_1 hnil =>
    have hmem : c ∈ candidates.filter (· ≠ "default") := List.mem_filter.mpr ⟨hc, by simp [hd]⟩
    rw [List.map_eq_nil_iff.mp hnil] at hmem
    cases hmem
  case h_2 p rest hlist =>
    rw [hlist]
    exact least_foldl [p] rest ⟨List.mem_cons_self, fun q hq => by
      rw [List.mem_singleton.mp hq]
      exact .inr ⟨rfl, String.lt_irrefl _⟩⟩

variable [One F] [Mul F] [Sub F]

/-- A candidate has a finite time that beats the stock communicator by more than the margin. -/
def Beats (T : String → ℕ → F) (margin : F) (i : ℕ) (c : String) : Prop :=
  c ≠ "default" ∧ T "default" i ≠ ⊤ ∧ T c i ≠ ⊤ ∧ T c i < T "default" i * (1 - margin)

/-- The winner of a size: the fastest candidate that beats the stock communicator, by name on a tie. -/
structure IsWinner (candidates : List String) (T : String → ℕ → F) (margin : F)
    (i : ℕ) (w : String) : Prop where
  stock : (¬ ∃ c ∈ candidates, Beats T margin i c) → w = "default"
  beats : (∃ c ∈ candidates, Beats T margin i c) → w ∈ candidates ∧ Beats T margin i w
  fastest : w ≠ "default" → ∀ c ∈ candidates, c ≠ "default" →
    T w i < T c i ∨ T w i = T c i ∧ ¬ c < w

/-- `winner` is the winner. -/
lemma isWinner_winner (candidates : List String) (T : String → ℕ → F) (margin : F) (i : ℕ) :
    IsWinner candidates T margin i (winner candidates T margin i) := by
  by_cases hcand : ∃ c ∈ candidates, c ≠ "default"
  case neg =>
    have hlist : candidates.filter (· ≠ "default") = [] := by
      rw [List.filter_eq_nil_iff]
      rintro c hc hd
      exact hcand ⟨c, hc, by simpa using hd⟩
    have hfast : fastest candidates T i = (⊤, "default") := by
      rw [fastest, hlist]
      rfl
    have hw : winner candidates T margin i = "default" := by
      simp only [winner, hfast, ite_self]
    refine ⟨fun _ => hw, ?_, fun h => absurd hw h⟩
    rintro ⟨c, hc, hb⟩
    exact absurd ⟨c, hc, hb.1⟩ hcand
  case pos =>
    obtain ⟨c₀, hc₀, hd₀⟩ := hcand
    obtain ⟨hmem, hle⟩ := fastest_least hc₀ hd₀ T i
    obtain ⟨c, hc, hp⟩ := List.mem_map.mp hmem
    obtain ⟨hc, hcd⟩ := List.mem_filter.mp hc
    have hfast (c' : String) (hc' : c' ∈ candidates) (hd' : c' ≠ "default") :
        T c i < T c' i ∨ T c i = T c' i ∧ ¬ c' < c := by
      rw [← hp] at hle
      exact hle _ (List.mem_map.mpr ⟨c', List.mem_filter.mpr ⟨hc', by simpa using hd'⟩, rfl⟩)
    have hwin : winner candidates T margin i =
        if T "default" i ≠ ⊤ ∧ T c i < T "default" i * (1 - margin) then c else "default" := by
      simp only [winner, ← hp]
      split <;> split <;> simp_all
    have hd : c ≠ "default" := by simpa using hcd
    rw [hwin]
    split
    case isTrue h =>
      have hb : Beats T margin i c := ⟨hd, h.1, ne_top_of_lt h.2, h.2⟩
      refine ⟨fun hno => ?_, fun _ => ⟨hc, hb⟩, fun _ => hfast⟩
      exact absurd ⟨c, hc, hb⟩ hno
    case isFalse h =>
      refine ⟨fun _ => rfl, ?_, fun hne => absurd rfl hne⟩
      rintro ⟨c', hc', hd', hbase, -, hlt⟩
      refine absurd ⟨hbase, ?_⟩ h
      obtain hcc | ⟨hcc, -⟩ := hfast c' hc' hd'
      · exact hcc.trans hlt
      · rwa [hcc]

/-! ## The tiling -/

/-- The clamp keeps a crossover above the smaller size and at most at the larger one. -/
lemma cross_bounds (mid : ℕ → ℕ → ℕ) {a b : ℕ} (h : a < b) : a < cross mid a b ∧ cross mid a b ≤ b := by
  rw [cross]
  omega

/-- What the bands of the winners from a lower end on are. -/
structure Tiles (lo : ℕ) (wins : List (ℕ × String)) (bands : List (ℕ × ℕ × String)) : Prop where
  span : Span lo INF bands
  differ : bands.IsChain fun p q => p.2.2 ≠ q.2.2
  first : ∀ win ∈ wins.head?, ∃ p ∈ bands.head?, win.1 < p.2.1 ∧ p.2.2 = win.2
  covered : ∀ win ∈ wins, ∃ p ∈ bands, p.1 ≤ win.1 ∧ win.1 < p.2.1 ∧ p.2.2 = win.2

/-- The loop over the winners of increasing sizes. -/
theorem bandsFrom_tiles (mid : ℕ → ℕ → ℕ) {wins : List (ℕ × String)} (hne : wins ≠ [])
    (hinc : wins.Pairwise fun v w => v.1 < w.1) (hinf : ∀ win ∈ wins, win.1 < INF) (lo : ℕ)
    (hlo : ∀ win ∈ wins.head?, lo ≤ win.1) : Tiles lo wins (bandsFrom mid lo wins) := by
  induction wins generalizing lo with
  | nil => exact absurd rfl hne
  | cons win wins ih =>
    obtain ⟨a, w⟩ := win
    have hloa : lo ≤ a := hlo (a, w) rfl
    have hainf : a < INF := hinf (a, w) List.mem_cons_self
    cases wins with
    | nil =>
      have hcov : ∃ p ∈ [(lo, INF, w)], p.1 ≤ a ∧ a < p.2.1 ∧ p.2.2 = w :=
        ⟨_, List.mem_cons_self, hloa, hainf, rfl⟩
      rw [bandsFrom]
      exact ⟨.cons (hloa.trans_lt hainf) (.nil _), .singleton _, by simp [hainf], by simpa using hcov⟩
    | cons win' rest =>
      obtain ⟨b, w'⟩ := win'
      obtain ⟨hab, hinc'⟩ := List.pairwise_cons.mp hinc
      have hlt : a < b := hab (b, w') List.mem_cons_self
      have hinf' : ∀ win ∈ (b, w') :: rest, win.1 < INF :=
        fun win hwin => hinf win (List.mem_cons_of_mem _ hwin)
      rw [bandsFrom]
      split
      case isTrue heq =>
        -- the size joins the band of the next one, which is the first
        subst heq
        have hlob : lo ≤ b := hloa.trans hlt.le
        obtain ⟨hspan, hdiff, hfirst, hcov⟩ :=
          ih (List.cons_ne_nil _ _) hinc' hinf' lo (by simpa using hlob)
        obtain ⟨p, hp, hbp, hpw⟩ := hfirst (b, w') rfl
        have hap : a < p.2.1 := hlt.trans hbp
        refine ⟨hspan, hdiff, ?_, fun win hwin => ?_⟩
        · rintro _ ⟨⟩
          exact ⟨p, hp, hap, hpw⟩
        · obtain rfl | hwin := List.mem_cons.mp hwin
          · refine ⟨p, List.mem_of_mem_head? hp, ?_, hap, hpw⟩
            rw [hspan.head p hp]
            exact hloa
          · exact hcov win hwin
      case isFalse hne' =>
        obtain ⟨hacross, hcrossb⟩ := cross_bounds mid hlt
        obtain ⟨hspan, hdiff, hfirst, hcov⟩ := ih (List.cons_ne_nil _ _) hinc' hinf'
          (cross mid a b) (by simpa using hcrossb)
        refine ⟨.cons (hloa.trans_lt hacross) hspan, ?_, ?_, fun win hwin => ?_⟩
        · rw [List.isChain_cons]
          refine ⟨fun q hq heq => hne' ?_, hdiff⟩
          obtain ⟨p, hp, -, hpw⟩ := hfirst (b, w') rfl
          have hpq : p = q := Option.some.inj (hp.symm.trans hq)
          calc w' = p.2.2 := hpw.symm
            _ = q.2.2 := by rw [hpq]
            _ = w := heq.symm
        · rintro _ ⟨⟩
          exact ⟨_, rfl, hacross, rfl⟩
        · obtain rfl | hwin := List.mem_cons.mp hwin
          · exact ⟨_, List.mem_cons_self, hloa, hacross, rfl⟩
          · obtain ⟨p, hp, hin⟩ := hcov win hwin
            exact ⟨p, List.mem_cons_of_mem _ hp, hin⟩

/-- The bands tile the axis from 0 to `INF`, each measured size in a band of its winner. -/
structure Tiling (sizes : List ℕ) (candidates : List String) (T : String → ℕ → F) (margin : F)
    (bands : List (ℕ × ℕ × String)) : Prop where
  starts : bands.head?.map (fun p => p.1) = some 0
  ends : bands.getLast?.map (fun p => p.2.1) = some INF
  nonempty : ∀ p ∈ bands, p.1 < p.2.1
  adjacent : bands.IsChain fun p q => p.2.1 = q.1
  differ : bands.IsChain fun p q => p.2.2 ≠ q.2.2
  measured : ∀ i s, sizes[i]? = some s →
    ∃ p ∈ bands, p.1 ≤ s ∧ s < p.2.1 ∧ IsWinner candidates T margin i p.2.2

/-- The bands of increasing sizes below `INF` tile the axis. -/
theorem buildBands_tiling (mid : ℕ → ℕ → ℕ) (sizes : List ℕ) (candidates : List String)
    (T : String → ℕ → F) (margin : F) (hne : sizes ≠ []) (hinc : sizes.Pairwise (· < ·))
    (hinf : ∀ s ∈ sizes, s < INF) :
    Tiling sizes candidates T margin (buildBands mid sizes candidates T margin) := by
  generalize hwins : (sizes.mapIdx fun i s => (s, winner candidates T margin i)) = wins
  have hsizes : wins.map Prod.fst = sizes := by
    rw [← hwins]
    exact List.ext_getElem (by simp) (by simp)
  have hwne : wins ≠ [] := by
    rintro rfl
    exact hne hsizes.symm
  have hwinc : wins.Pairwise fun v w => v.1 < w.1 := by
    rwa [← hsizes, List.pairwise_map] at hinc
  have hwinf : ∀ win ∈ wins, win.1 < INF := by
    intro win hwin
    exact hinf _ (hsizes ▸ List.mem_map_of_mem hwin)
  obtain ⟨hspan, hdiff, hfirst, hcov⟩ := bandsFrom_tiles mid hwne hwinc hwinf 0 (by simp)
  rw [buildBands, hwins]
  obtain ⟨p, hp⟩ : ∃ p, (bandsFrom mid 0 wins).head? = some p := by
    obtain ⟨win, hwin⟩ := Option.isSome_iff_exists.mp (List.isSome_head?.mpr hwne)
    obtain ⟨p, hp, -⟩ := hfirst win hwin
    exact ⟨p, hp⟩
  obtain ⟨q, hq⟩ : ∃ q, (bandsFrom mid 0 wins).getLast? = some q := by
    rw [← Option.isSome_iff_exists, List.getLast?_isSome]
    intro hnil
    rw [hnil] at hp
    cases hp
  refine ⟨?_, ?_, fun p hp => (hspan.bounds hp).2.1, hspan.isChain, hdiff, fun i s hi => ?_⟩
  · rw [hp, Option.map_some, hspan.head p hp]
  · rw [hq, Option.map_some, hspan.last q hq]
  · have hwin : (s, winner candidates T margin i) ∈ wins := by
      obtain ⟨hlt, rfl⟩ := List.getElem?_eq_some_iff.mp hi
      rw [← hwins, List.mem_mapIdx]
      exact ⟨i, hlt, rfl⟩
    obtain ⟨p, hp, hlo, hhi, hw⟩ := hcov _ hwin
    refine ⟨p, hp, hlo, hhi, ?_⟩
    rw [hw]
    exact isWinner_winner candidates T margin i

/-- A table of one candidate that is twice as fast at the second of three sizes. -/
lemma buildBands_tiling_three :
    Tiling [100, 300, 500] ["default", "ring"] (fun c i => if c = "ring" ∧ i = 1 then 5 else 10)
      (0 : ℕ∞) [(0, 101, "default"), (101, 301, "ring"), (301, INF, "default")] :=
  buildBands_tiling (fun _ _ => 0) [100, 300, 500] ["default", "ring"] _ 0 (by decide) (by decide)
    (by decide)

/-- A size of `INF` bytes is in no band. -/
theorem buildBands_inf :
    ¬ Tiling [INF] ["default"] (fun _ _ => (1 : ℕ∞)) 0
      (buildBands (fun _ _ => 0) [INF] ["default"] (fun _ _ => (1 : ℕ∞)) 0) := by
  intro h
  obtain ⟨p, hp, hlo, hhi, -⟩ := h.measured 0 INF rfl
  rw [List.mem_singleton.mp hp] at hhi
  exact lt_irrefl _ hhi

end SuffixHybrid.NcclSplit
