import SuffixHybrid.Proposer.Width

/-!
# The model length

The engine and the mixer cut their drafts to the room that the model length leaves. The suffix-only
proposer looks up `k` tokens, wherever its row stands: a row near the model length publishes what the
cache knows. `fits_model_iff` says that the drafts of a call stay within the model length exactly if no
cached continuation reaches past it.
-/

namespace SuffixHybrid
open Lib

namespace V2SuffixProposer

section bound
variable [F64]

/-- The widest suffix that a row publishes, whatever the cache knows. -/
def reach (s : V2SuffixProposer) (e : Entry) (buffer : List Token) : ℕ :=
  if s.widthGate then s.gateWidth (s.trained e.rid e.total.toNat buffer) else s.k

/-- The cached continuation of a row, cut to what the row may publish, ends within the model length. -/
def HasRoom (s : V2SuffixProposer) (e : Entry) (buffer : List Token) : Prop :=
  ∀ suffix score matched,
    s.cache.speculate (s.mirrored e.rid e.total.toNat buffer) s.k = some (suffix, score, matched) →
    suffix.length < s.minLen ∨
      e.total.toNat + min suffix.length (s.reach e buffer) ≤ s.maxModelLen

/-- The width of a ragged row, from the length of its cached continuation. -/
lemma rowOut_width_ragged {s : V2SuffixProposer} (hragged : s.uniformK = false) (e : Entry)
    (buffer : List Token) {suffix : List Token} (hle : suffix.length ≤ s.k) :
    (s.rowOut e.rid e.total.toNat buffer suffix).width
      = if suffix.length < s.minLen then 0 else min suffix.length (s.reach e buffer) := by
  have hfound : (s.found suffix).length = if suffix.length < s.minLen then 0 else suffix.length := by
    unfold found
    by_cases hshort : suffix.length < s.minLen
    · rw [if_neg fun h => absurd h.2 (not_le.mpr hshort), if_pos hshort, List.length_nil]
    · rw [if_neg hshort]
      cases suffix with
      | nil => simp
      | cons tok suffix =>
        rw [if_pos ⟨List.cons_ne_nil _ _, not_lt.mp hshort⟩, List.length_take, min_eq_left hle,
          min_self]
  rw [rowOut_width_eq, hragged, if_neg Bool.false_ne_true, suffixOf, narrowed]
  by_cases hon : s.widthGate = true
  · rw [reach, if_pos hon]
    split
    case isTrue hcut =>
      rw [List.length_take, hfound]
      split
      · exact Nat.min_zero _
      · exact min_comm _ _
    case isFalse hwide =>
      have hge := not_lt.mp fun hlt => hwide ⟨hon, hlt⟩
      rw [hfound] at hge ⊢
      split
      · rfl
      · rename_i hlong
        rw [if_neg hlong] at hge
        rw [min_eq_left hge]
  · rw [if_neg fun h => hon h.1, hfound, reach, if_neg hon, min_eq_left hle]

/-- One row that is in bounds. -/
lemma fits_iff_hasRoom {s : V2SuffixProposer} (hragged : s.uniformK = false) {tokens : Grid} {e : Entry}
    (hin : s.outOfBounds tokens e = false) {buffer suffix : List Token} {score : ℚ} {matched : ℕ}
    (hspec : s.cache.speculate (s.mirrored e.rid e.total.toNat buffer) s.k
      = some (suffix, score, matched)) (hle : suffix.length ≤ s.k) :
    e.total + (s.rowOut e.rid e.total.toNat buffer suffix).width ≤ s.maxModelLen ↔
      s.HasRoom e buffer := by
  simp only [outOfBounds, Bool.or_eq_false_iff, decide_eq_false_iff_not, not_lt] at hin
  obtain ⟨⟨hpos, _⟩, hmax⟩ := hin
  have htotal : (e.total.toNat : ℤ) = e.total := Int.toNat_of_nonneg hpos
  rw [rowOut_width_ragged hragged e buffer hle]
  constructor
  · intro hfits suffix' score' matched' hspec'
    rw [hspec] at hspec'
    cases hspec'
    by_cases hshort : suffix.length < s.minLen
    · exact Or.inl hshort
    · rw [if_neg hshort] at hfits
      exact Or.inr (by omega)
  · intro hroom
    rcases hroom suffix score matched hspec with hshort | hfits
    · rw [if_pos hshort]
      omega
    · split <;> omega

/-- A row loop that ends. -/
lemma RowSteps.fits_iff {tokens : Grid} {batch : List Entry} {s s' : V2SuffixProposer}
    {outs : List SuffixRowOut} (h : RowSteps tokens batch s (.ok outs) s') (hinv : s.cache.Inv)
    (hragged : s.uniformK = false) {maxModelLen : ℕ} (hmax : s.maxModelLen = maxModelLen) :
    List.Forall₂ (fun (e : Entry) (out : SuffixRowOut) => e.total + out.width ≤ maxModelLen) batch outs ↔
      EachRow HasRoom tokens batch s := by
  generalize hr : Except.ok outs = r at h
  induction h generalizing outs with
  | nil =>
    cases hr
    exact iff_of_true .nil trivial
  | bounds _ | index _ => cases hr
  | @row s s' e batch buffer suffix score matched r hgood hbuffer hspec hle _ ih =>
    cases r with
    | error _ => cases hr
    | ok outs' =>
      cases hr
      have hin : s.outOfBounds tokens e = false := Bool.eq_false_iff.mpr hgood
      have hrest := ih hinv hragged hmax rfl
      obtain ⟨_, _, _, hspec', _, hrow⟩ := row_spec hinv e.rid e.total.toNat buffer
      rw [hspec] at hspec'
      cases hspec'
      rw [List.forall₂_cons, ← hmax, fits_iff_hasRoom hragged hin hspec hle, hmax, hrest]
      constructor
      · rintro ⟨hroom, heach⟩ _ buffer' hbuffer'
        rw [hbuffer] at hbuffer'
        cases hbuffer'
        refine ⟨hroom, fun out t hrow' => ?_⟩
        rw [hrow] at hrow'
        cases hrow'
        exact heach
      · intro heach
        obtain ⟨hroom, hnext⟩ := heach hin buffer hbuffer
        exact ⟨hroom, hnext _ _ hrow⟩

/-- A ragged call that returns drafts keeps every row within the model length exactly if the cached
continuation of every row does. -/
theorem fits_model_iff {s s' : V2SuffixProposer} (hs : Reachable s) (hragged : s.uniformK = false)
    {b : Batch} {p : Packed} (hcall : s.proposeSuffixOnly b = some (.ok p, s')) {indices : List ℕ}
    {tokens : Grid} {totals : List ℤ} (hread : b.read = .ok (indices, tokens, totals)) :
    List.Forall₂ (fun (e : Entry) (w : ℕ) => e.total + w ≤ s.maxModelLen)
        (entries b.requestIds indices totals) p.widths ↔
      ∀ s1, s.depart b.o b.requestIds = some s1 →
        EachRow HasRoom tokens (entries b.requestIds indices totals) s1 := by
  obtain ⟨out, hout, hexit⟩ := call_exit hs.inv b
  obtain rfl : out = (.ok p, s') := Option.some.inj (hout.symm.trans hcall)
  cases hexit with
  | finished hread' _ hdepart hsteps =>
    rw [hread] at hread'
    cases hread'
    obtain ⟨cache, mirror, widths, gate, ingested, hdepart', hc, _⟩ :=
      depart_spec hs.inv b.o b.requestIds
    rw [hdepart] at hdepart'
    cases hdepart'
    have hloop := hsteps.fits_iff hc hragged rfl
    rw [List.forall₂_map_right_iff, hloop, hdepart]
    constructor
    · rintro heach s1 hs1
      cases hs1
      exact heach
    · exact fun heach => heach _ rfl

end bound

/-- A request that has two tokens of room to the model length. -/
theorem fits_model_iff_room :
    ∃ (s s' : V2SuffixProposer) (p : Packed), Reachable s ∧
      s.proposeSuffixOnly (oneRow 5) = some (.ok p, s') ∧
      (List.Forall₂ (fun (e : Entry) (w : ℕ) => e.total + w ≤ s.maxModelLen)
          (entries ["a"] [0] [5]) p.widths ↔
        ∀ s1, s.depart (oneRow 5).o ["a"] = some s1 →
          EachRow HasRoom ⟨9, [[1, 2, 3, 4, 5, 6, 7, 8, 9]], nine_columns⟩ (entries ["a"] [0] [5]) s1) := by
  have hview : ((Lib.run op (empty (Config.ofN 1 Nat.one_pos) 3 7 1 false false three_pos)
      [.addSequence [1, 2, 3, 4, 5, 6, 7]]).bind fun s => (s.proposeSuffixOnly (oneRow 5)).map fun out =>
        (s.uniformK, out.1.toOption.isSome)) = some (false, true) := by
    with_unfolding_all decide
  obtain ⟨s, hrun, hout⟩ := Option.bind_eq_some_iff.mp hview
  obtain ⟨⟨r, s'⟩, hcall, heq⟩ := Option.map_eq_some_iff.mp hout
  obtain ⟨hragged, hok⟩ := Prod.mk.inj heq
  have hnew : new (Config.ofN 1 Nat.one_pos) 3 7 1 false false
    = .ok (empty (Config.ofN 1 Nat.one_pos) 3 7 1 false false three_pos) := rfl
  have hs : Reachable s := ⟨_, _, _, _, _, _, _, _, hnew, hrun⟩
  cases r with
  | error e => cases hok
  | ok p => exact ⟨s, s', p, hs, hcall, fits_model_iff hs hragged hcall rfl⟩

/-- A request at the model length of five gets a draft of three tokens. -/
theorem draft_past_model :
    ∃ (s s' : V2SuffixProposer) (p : Packed), Reachable s ∧ s.uniformK = false ∧ s.maxModelLen = 5 ∧
      s.proposeSuffixOnly (oneRow 5) = some (.ok p, s') ∧ p = ⟨[[6, 7, 8]], [3]⟩ ∧
      ¬ List.Forall₂ (fun (e : Entry) (w : ℕ) => e.total + w ≤ s.maxModelLen)
        (entries ["a"] [0] [5]) p.widths := by
  have hview : ((Lib.run op (empty (Config.ofN 1 Nat.one_pos) 3 5 1 false false three_pos)
      [.addSequence [1, 2, 3, 4, 5, 6, 7, 8, 9]]).bind fun s =>
        (s.proposeSuffixOnly (oneRow 5)).map fun out => (s.uniformK, s.maxModelLen, out.1.toOption))
      = some (false, 5, some ⟨[[6, 7, 8]], [3]⟩) := by
    with_unfolding_all decide
  obtain ⟨s, hrun, hout⟩ := Option.bind_eq_some_iff.mp hview
  obtain ⟨⟨r, s'⟩, hcall, heq⟩ := Option.map_eq_some_iff.mp hout
  simp only [Prod.mk.injEq] at heq
  obtain ⟨hragged, hmax, hp⟩ := heq
  have hnew : new (Config.ofN 1 Nat.one_pos) 3 5 1 false false
    = .ok (empty (Config.ofN 1 Nat.one_pos) 3 5 1 false false three_pos) := rfl
  cases r with
  | error e => cases hp
  | ok p =>
    obtain rfl := Option.some.inj hp
    refine ⟨s, s', _, ⟨_, _, _, _, _, _, _, _, hnew, hrun⟩, hragged, hmax, hcall, rfl, ?_⟩
    rw [hmax]
    decide

end V2SuffixProposer
end SuffixHybrid
