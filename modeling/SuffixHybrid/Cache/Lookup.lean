import SuffixHybrid.Cache.Spec

/-!
# A lookup meets its declarative reading

In a cache that a run of `add` calls leaves, `Cache.speculate` returns the draft, the score and the match
length of the declarative reading, whatever the order of the counts.
-/

namespace SuffixHybrid
open Lib

namespace Cache

/-! ## The token of the highest rank -/

lemma ranksBelow_iff (a b : Item) :
    ranksBelow a b = true ↔ rank a.1 a.2.1 a.2.2 < rank b.1 b.2.1 b.2.2 := by
  simp only [ranksBelow, rank, Prod.Lex.toLex_lt_toLex, Bool.or_eq_true, Bool.and_eq_true,
    decide_eq_true_eq, toLex_inj, Prod.ext_iff, and_or_left, or_assoc, and_assoc]

lemma rank_endOf_le (c : Cache) {tok tok' : Token} {count count' : ℕ} {e e' : ℕ × ℕ} :
    rank tok' count' (c.endOf e') ≤ rank tok count (c.endOf e) ↔
      rank tok' count' e' ≤ rank tok count e := by
  simp only [rank, Prod.Lex.toLex_le_toLex, Prod.Lex.toLex_lt_toLex, endOf, toLex_inj, Prod.ext_iff,
    Nat.add_lt_add_iff_right, Nat.add_right_cancel_iff]

/-- A token has one count and one latest entry. -/
lemma Follows.unique {c : Cache} {k : ℕ} {entries : List (ℕ × ℕ)} {tok : Token} {count count' : ℕ}
    {e e' : ℕ × ℕ} (h : c.Follows entries k tok count e) (h' : c.Follows entries k tok count' e') :
    count' = count ∧ e' = e := by
  refine ⟨h'.count.trans h.count.symm, ?_⟩
  have hle := le_antisymm (h.latest e' h'.mem) (h'.latest e h.mem)
  exact toLex.injective hle

/-- One token wins. -/
lemma Wins.unique {c : Cache} {k : ℕ} {entries : List (ℕ × ℕ)} {tok tok' : Token}
    {count count' : ℕ} (h : c.Wins entries k tok count) (h' : c.Wins entries k tok' count') :
    tok' = tok ∧ count' = count := by
  obtain ⟨e, hf, hmax⟩ := h
  obtain ⟨e', hf', hmax'⟩ := h'
  have heq := le_antisymm (hmax tok' count' e' hf') (hmax' tok count e hf)
  have hpair := toLex.injective heq
  have hcount : count' = count := congrArg Prod.fst hpair
  have htok : tok' = tok := congrArg (fun p => (ofLex p.2).2) hpair
  exact ⟨htok, hcount⟩

/-- In any order the loop over the counts finds the token that wins, or none where no entry goes on. -/
lemma topCountIn_spec {c : Cache} {k : ℕ} {entries : List (ℕ × ℕ)}
    {counts : Map Token (ℕ × ℕ × ℕ)} (h : c.Tallied k entries counts) (o : HashOrder Item) :
    (topCountIn o counts = none ∧ ∀ e ∈ entries, c.tokenOf k e = none) ∨
      ∃ tok count, topCountIn o counts = some (tok, count) ∧ c.Wins entries k tok count := by
  cases ht : topmost ranksBelow (o.order counts.entries) none with
  | none =>
    have hnil : counts.entries = [] := by
      refine List.eq_nil_iff_forall_not_mem.mpr fun x hx => ?_
      have hmem := o.mem_order.mpr hx
      rw [topmost_none_iff.mp ht] at hmem
      cases hmem
    refine .inl ⟨by rw [topCountIn, ht]; rfl, fun _ he => ?_⟩
    cases htok : c.tokenOf k _ with
    | none => rfl
    | some tok =>
      have habs : c.followers entries k tok = [] := h.absent tok (by
        rw [AList.lookup_eq_none]
        intro hmem
        have hkeys : tok ∈ counts.entries.keys := hmem
        rw [hnil] at hkeys
        cases hkeys)
      have hmem : _ ∈ c.followers entries k tok :=
        List.mem_filter.mpr ⟨he, decide_eq_true htok⟩
      rw [habs] at hmem
      cases hmem
  | some x =>
    obtain ⟨tok, item⟩ := x
    obtain ⟨hmem, hmax⟩ := topmost_spec ranksBelow_iff ht
    have hlook : counts.lookup tok = some item :=
      AList.mem_lookup_iff.mpr (o.mem_order.mp hmem)
    obtain ⟨e, he, hf⟩ := h.present tok item hlook
    refine .inr ⟨tok, item.1, by rw [topCountIn, ht]; rfl, e, hf, fun tok' count' e' hf' => ?_⟩
    cases hl : counts.lookup tok' with
    | none =>
      have hmem' := hf'.mem
      rw [h.absent tok' hl] at hmem'
      cases hmem'
    | some item' =>
      obtain ⟨e0, he0, hf0⟩ := h.present tok' item' hl
      obtain ⟨rfl, rfl⟩ := hf0.unique hf'
      have hle := hmax ⟨tok', item'⟩ (o.mem_order.mpr (AList.mem_lookup_iff.mp hl))
      rw [he, he0] at hle
      exact c.rank_endOf_le.mp hle

/-! ## The continuation loop -/

lemma retain_eq {c : Cache} {k : ℕ} (tok : Token) (entries : List (ℕ × ℕ))
    (hlive : ∀ e ∈ entries, c.sequences.lookup e.1 = some (c.seq e.1)) :
    c.retain k tok (entries.map c.endOf) = some ((c.followers entries k tok).map c.endOf) := by
  induction entries with
  | nil => rfl
  | cons e entries ih =>
    have htok := tokenAt_endOf (hlive e List.mem_cons_self) k
    have hrest := ih fun e' he' => hlive e' (List.mem_cons_of_mem _ he')
    simp only [List.map_cons, retain, htok, hrest, Option.bind_eq_bind, Option.bind_some, followers,
      List.filter_cons, decide_eq_true_eq]
    split
    · rfl
    · rfl

lemma concat_prefix_iff {draft l : List Token} {tok : Token} :
    draft ++ [tok] <+: l ↔ draft <+: l ∧ l[draft.length]? = some tok := by
  constructor
  · rintro ⟨t, rfl⟩
    refine ⟨⟨[tok] ++ t, by rw [List.append_assoc]⟩, ?_⟩
    rw [List.append_assoc, List.getElem?_append_right le_rfl, Nat.sub_self]
    rfl
  · rintro ⟨⟨t, rfl⟩, h⟩
    rw [List.getElem?_append_right le_rfl, Nat.sub_self] at h
    cases t with
    | nil => cases h
    | cons a t =>
      cases h
      exact ⟨t, by rw [List.append_assoc]; rfl⟩

/-- The entries that agree with one more token. -/
lemma agreeing_concat (c : Cache) (entries : List (ℕ × ℕ)) (draft : List Token) (tok : Token) :
    c.agreeing entries (draft ++ [tok]) =
      c.followers (c.agreeing entries draft) draft.length tok := by
  rw [followers, agreeing, agreeing, List.filter_filter]
  refine List.filter_congr fun e _ => ?_
  rw [← Bool.decide_and, decide_eq_decide, concat_prefix_iff, tokenOf, List.getElem?_drop, and_comm]

lemma agreeing_nil (c : Cache) (entries : List (ℕ × ℕ)) : c.agreeing entries [] = entries :=
  List.filter_eq_self.mpr fun _ _ => decide_eq_true List.nil_prefix

/-- In any order the continuation loop draws the draft. -/
lemma followIn_spec [F64] (o : ℕ → HashOrder Item) {c : Cache} {entries : List (ℕ × ℕ)}
    (hlive : ∀ e ∈ entries, c.sequences.lookup e.1 = some (c.seq e.1)) (left : ℕ)
    (draft : List Token) (score : ℚ) :
    ∃ rest, followIn o c left draft.length ((c.agreeing entries draft).map c.endOf) score =
        some (rest, c.shares entries score draft rest) ∧ c.Draft entries left draft rest := by
  induction left generalizing draft score with
  | zero => exact ⟨[], rfl, .full⟩
  | succ left ih =>
    have hlive' : ∀ e ∈ c.agreeing entries draft,
        c.sequences.lookup e.1 = some (c.seq e.1) := fun e he => hlive e (List.mem_filter.mp he).1
    obtain ⟨counts, htally, hcounts⟩ := tally_eq (k := draft.length) _ hlive'
    obtain ⟨hnone, hend⟩ | ⟨tok, count, hsome, hwins⟩ := topCountIn_spec hcounts (o draft.length)
    · refine ⟨[], ?_, .ended hend⟩
      simp only [followIn, htally, hnone, Option.bind_eq_bind, Option.bind_some, shares]
    · obtain hfew | hmany := Nat.lt_or_ge count c.cfg.support
      · refine ⟨[], ?_, .rare hwins hfew⟩
        simp only [followIn, htally, hsome, Option.bind_eq_bind, Option.bind_some, if_pos hfew, shares]
      · have hcount : count = (c.agreeing entries (draft ++ [tok])).length := by
          obtain ⟨e, hf, -⟩ := hwins
          rw [agreeing_concat]
          exact hf.count
        subst hcount
        have hretain := retain_eq (k := draft.length) tok _ hlive'
        rw [← agreeing_concat] at hretain
        obtain ⟨rest, hfollow, hdraft⟩ := ih (draft ++ [tok]) (F64.mul score (F64.div
          (F64.ofNat (c.agreeing entries (draft ++ [tok])).length)
          (F64.ofNat (c.agreeing entries draft).length)))
        rw [List.length_append] at hfollow
        refine ⟨tok :: rest, ?_, .next hwins hmany hdraft⟩
        simp only [followIn, htally, hsome, Option.bind_eq_bind, Option.bind_some,
          if_neg (Nat.not_lt.mpr hmany), hretain, List.length_map, shares]
        rw [List.length_singleton] at hfollow
        rw [hfollow]
        rfl

/-- The draft is determined. -/
lemma Draft.unique {c : Cache} {entries : List (ℕ × ℕ)} {left : ℕ} {draft rest rest' : List Token}
    (h : c.Draft entries left draft rest) (h' : c.Draft entries left draft rest') : rest' = rest := by
  induction h generalizing rest' with
  | full =>
    cases h'
    rfl
  | ended hend =>
    cases h' with
    | ended => rfl
    | rare => rfl
    | next hwins =>
      obtain ⟨e, hf, -⟩ := hwins
      obtain ⟨he, htok⟩ := List.mem_filter.mp hf.mem
      rw [hend e he, decide_eq_true_eq] at htok
      cases htok
  | rare hwins hfew =>
    cases h' with
    | ended => rfl
    | rare => rfl
    | next hwins' hmany =>
      obtain ⟨-, rfl⟩ := hwins.unique hwins'
      omega
  | next hwins hmany _ ih =>
    cases h' with
    | ended hend =>
      obtain ⟨e, hf, -⟩ := hwins
      obtain ⟨he, htok⟩ := List.mem_filter.mp hf.mem
      rw [hend e he, decide_eq_true_eq] at htok
      cases htok
    | rare hwins' hfew =>
      obtain ⟨-, rfl⟩ := hwins.unique hwins'
      omega
    | next hwins' _ hrest =>
      obtain ⟨rfl, -⟩ := hwins.unique hwins'
      rw [ih hrest]

/-! ## The score -/

lemma agreeing_append_sublist (c : Cache) (entries : List (ℕ × ℕ)) (draft rest : List Token) :
    (c.agreeing entries (draft ++ rest)).Sublist (c.agreeing entries draft) := by
  have h : c.agreeing entries (draft ++ rest) =
      (c.agreeing entries draft).filter fun e =>
        draft ++ rest <+: (c.seq e.1).drop (e.2 + c.cfg.n) := by
    rw [agreeing, agreeing, List.filter_filter]
    refine List.filter_congr fun _ _ => ?_
    rw [← Bool.decide_and, decide_eq_decide]
    exact ⟨fun h => ⟨h, (List.prefix_append draft rest).trans h⟩, fun h => h.1⟩
  rw [h]
  exact List.filter_sublist

/-- Over exact rationals the shares multiply up to the share of the whole draft. -/
lemma shares_exact (c : Cache) (entries : List (ℕ × ℕ)) (score : ℚ) (draft rest : List Token)
    (h : 0 < (c.agreeing entries (draft ++ rest)).length) :
    @shares F64.exact c entries score draft rest =
      score * ((c.agreeing entries (draft ++ rest)).length / (c.agreeing entries draft).length) := by
  have hpos (draft : List Token) (h : 0 < (c.agreeing entries (draft ++ rest)).length) :
      ((c.agreeing entries draft).length : ℚ) ≠ 0 := by
    have hle := (c.agreeing_append_sublist entries draft rest).length_le
    exact Nat.cast_ne_zero.mpr (by omega)
  induction rest generalizing score draft with
  | nil =>
    have hne := hpos draft h
    rw [List.append_nil, div_self hne, mul_one]
    rfl
  | cons tok rest ih =>
    have hne := hpos draft h
    rw [List.append_cons] at h ⊢
    have hle := (c.agreeing_append_sublist entries (draft ++ [tok]) rest).length_le
    have hne' : ((c.agreeing entries (draft ++ [tok])).length : ℚ) ≠ 0 :=
      Nat.cast_ne_zero.mpr (by omega)
    have hrest := ih (score * ((c.agreeing entries (draft ++ [tok])).length /
      (c.agreeing entries draft).length)) (draft ++ [tok]) h fun d hd => by
        have hle := (c.agreeing_append_sublist entries d rest).length_le
        exact Nat.cast_ne_zero.mpr (by omega)
    refine hrest.trans ?_
    rw [mul_assoc, div_mul_div_comm, mul_comm ((c.agreeing entries (draft ++ [tok])).length : ℚ),
      mul_div_mul_right _ _ hne']

/-- Some entry agrees with a draft that has a token. -/
lemma Draft.agreeing_ne_nil {c : Cache} {entries : List (ℕ × ℕ)} {left : ℕ}
    {draft rest : List Token} (h : c.Draft entries left draft rest)
    (hne : c.agreeing entries draft ≠ []) : c.agreeing entries (draft ++ rest) ≠ [] := by
  induction h with
  | full => rwa [List.append_nil]
  | ended => rwa [List.append_nil]
  | rare => rwa [List.append_nil]
  | next hwins _ _ ih =>
    rw [List.append_cons]
    refine ih ?_
    obtain ⟨e, hf, -⟩ := hwins
    rw [agreeing_concat]
    exact List.ne_nil_of_mem hf.mem

/-! ## The lookup -/

/-- No token is asked for, the window is shorter than an n-gram, or its last n-gram has no bucket. -/
def Misses (c : Cache) (window : List Token) (maxTokens : ℕ) : Prop :=
  maxTokens = 0 ∨ window.length < c.cfg.n ∨ c.index.lookup (window.rtake c.cfg.n) = none

/-- What a lookup is to return: draft, score and match length. -/
inductive Spec [F64] (c : Cache) (window : List Token) (maxTokens : ℕ) :
    List Token → ℚ → ℕ → Prop
  | nothing :
    c.Misses window maxTokens →
    Spec c window maxTokens [] 0 0
  | found {bucket : List (ℕ × ℕ)} {draft : List Token} :
    ¬ c.Misses window maxTokens →
    c.index.lookup (window.rtake c.cfg.n) = some bucket →
    c.Draft (c.matchSet window bucket) (min maxTokens (F64.toUsize
      (max 0 (F64.add (F64.mul c.cfg.factor (F64.ofNat (c.longest window bucket)))
        c.cfg.offset)))) [] draft →
    Spec c window maxTokens draft
      (if draft.isEmpty then 0 else c.shares (c.matchSet window bucket) 1 [] draft)
      (c.longest window bucket)

lemma Spec.unique [F64] {c : Cache} {window : List Token} {maxTokens : ℕ} {draft draft' : List Token}
    {score score' : ℚ} {best best' : ℕ} (h : c.Spec window maxTokens draft score best)
    (h' : c.Spec window maxTokens draft' score' best') :
    draft' = draft ∧ score' = score ∧ best' = best := by
  cases h with
  | nothing hm =>
    cases h' with
    | nothing => exact ⟨rfl, rfl, rfl⟩
    | found hn => exact absurd hm hn
  | found hn hb hd =>
    cases h' with
    | nothing hm => exact absurd hm hn
    | found _ hb' hd' =>
      obtain rfl := Option.some.inj (hb.symm.trans hb')
      obtain rfl := hd.unique hd'
      exact ⟨rfl, rfl, rfl⟩

lemma follow_eq [F64] (c : Cache) (left step : ℕ) (ends : List (ℕ × ℕ)) (score : ℚ) :
    c.follow left step ends score = followIn (fun _ => .stored Item) c left step ends score := by
  induction left generalizing step ends score with
  | zero => rfl
  | succ left ih =>
    simp only [follow, followIn, ih]
    rfl

lemma speculate_eq [F64] (c : Cache) (context : List Token) (maxTokens : ℕ) :
    c.speculate context maxTokens =
      speculateIn (fun _ => .stored Item) c context maxTokens := by
  rw [Cache.speculate]
  simp only [follow_eq]
  rfl

/-- An index entry of the last n-gram of the window ends with it. -/
lemma Holds.ends {c : Cache} {live : List (ℕ × List Token)} (h : c.Holds live)
    {window : List Token} {b : List (ℕ × ℕ)}
    (hb : c.index.lookup (window.rtake c.cfg.n) = some b) {e : ℕ × ℕ} (he : e ∈ b) :
    c.Ends window e := by
  obtain ⟨seq, hs, hp, hkey⟩ := mem_entries.mp (h.index.mem_posts hb he)
  have hlook := (h.sequences e.1 seq).mpr hs
  have hseq : c.seq e.1 = seq := by rw [Cache.seq, hlook]; rfl
  constructor
  case live => rw [hlook, hseq]
  case le => rwa [hseq]
  case same =>
    rw [hseq, ← hkey, List.rtake, List.length_take_of_le hp, Nat.add_sub_cancel, List.drop_take,
      Nat.add_sub_cancel_left]
    rfl

/-- In any order of the counts a lookup returns what it is to return. -/
lemma Holds.speculateIn_spec [F64] {c : Cache} {live : List (ℕ × List Token)} (h : c.Holds live)
    (o : ℕ → HashOrder Item) (context : List Token) (maxTokens : ℕ) :
    ∃ draft score best, speculateIn o c context maxTokens = some (draft, score, best) ∧
      c.Spec (context.rtake c.cfg.depth) maxTokens draft score best := by
  simp only [speculateIn, sliceFrom_sub, Option.bind_eq_bind, Option.bind_some]
  change ∃ draft score best, _ ∧
    c.Spec (context.drop (context.length - c.cfg.depth)) maxTokens draft score best
  generalize context.drop (context.length - c.cfg.depth) = window
  split
  case isTrue hm =>
    refine ⟨[], 0, 0, rfl, .nothing ?_⟩
    obtain hm | hm := hm
    · exact .inl hm
    · exact .inr (.inl hm)
  case isFalse hm =>
    cases hb : c.index.lookup (window.drop (window.length - c.cfg.n)) with
    | none => exact ⟨[], 0, 0, rfl, .nothing (.inr (.inr hb))⟩
    | some bucket =>
      have hn : c.cfg.n ≤ window.length := by omega
      have hrecent : ∀ e ∈ c.recent bucket, c.Ends window e := fun e he =>
        h.ends hb (List.mem_reverse.mp (List.mem_of_mem_take he))
      have hbest := bestEnds_eq hn [] (c.recent bucket) hrecent
      rw [List.nil_append] at hbest
      have hlive : ∀ e ∈ c.matchSet window bucket,
          c.sequences.lookup e.1 = some (c.seq e.1) := fun e he =>
        (hrecent e (List.mem_filter.mp he).1).live
      obtain ⟨rest, hfollow, hdraft⟩ := followIn_spec o hlive
        (specCap c.cfg maxTokens (c.longest window bucket)) [] 1
      rw [agreeing_nil] at hfollow
      have hmiss : ¬ c.Misses window maxTokens := by
        rintro (h0 | hlt | hnone)
        · exact hm (.inl h0)
        · exact hm (.inr hlt)
        · have hsome := hb.symm.trans hnone
          cases hsome
      refine ⟨rest, _, _, ?_, .found hmiss hb hdraft⟩
      have hbest' : c.bestEnds window (bucket.reverse.take c.cfg.candidates) (0, []) =
          some (c.longest window bucket, (c.matchSet window bucket).map c.endOf) := hbest
      simp only [hbest', Option.bind_some]
      have hfollow' : followIn o c (specCap c.cfg maxTokens (c.longest window bucket)) 0
          ((c.matchSet window bucket).map c.endOf) 1 =
          some (rest, c.shares (c.matchSet window bucket) 1 [] rest) := hfollow
      rw [hfollow']
      rfl

/-! ## What is returned is in the cache -/

lemma infix_of_suffix_prefix {s p a b : List Token} (hs : s <:+ a) (hp : p <+: b) :
    s ++ p <:+: a ++ b := by
  obtain ⟨t, rfl⟩ := hs
  obtain ⟨u, rfl⟩ := hp
  exact ⟨t, u, by simp only [List.append_assoc]⟩

/-- A match that agrees with a draft has the window's last tokens and then the draft. -/
lemma infix_of_match {c : Cache} {window draft : List Token} {bucket : List (ℕ × ℕ)} {e : ℕ × ℕ}
    (he : e ∈ c.agreeing (c.matchSet window bucket) draft) :
    window.rtake (c.longest window bucket) ++ draft <:+: c.seq e.1 := by
  obtain ⟨hmatch, hagree⟩ := List.mem_filter.mp he
  have hlong : c.common window e = c.longest window bucket :=
    of_decide_eq_true (List.mem_filter.mp hmatch).2
  have hsame := rtake_commonSuffix window ((c.seq e.1).take (e.2 + c.cfg.n))
  change window.rtake (c.common window e) = _ at hsame
  rw [hlong] at hsame
  rw [hsame, ← List.take_append_drop (e.2 + c.cfg.n) (c.seq e.1)]
  refine infix_of_suffix_prefix ?_ (of_decide_eq_true hagree)
  rw [List.take_append_drop]
  exact List.drop_suffix _ _

/-- No match, no draft. -/
lemma Draft.of_nil {c : Cache} {left : ℕ} {draft rest : List Token}
    (h : c.Draft [] left draft rest) : rest = [] := by
  cases h with
  | full => rfl
  | ended => rfl
  | rare => rfl
  | next hwins =>
    obtain ⟨e, hf, -⟩ := hwins
    cases (List.mem_filter.mp (List.mem_filter.mp hf.mem).1).1

lemma Holds.bucket_ne_nil {c : Cache} {live : List (ℕ × List Token)} (h : c.Holds live)
    {key : List Token} {b : List (ℕ × ℕ)} (hb : c.index.lookup key = some b) : b ≠ [] := by
  have hpos := c.cfg.positions_pos
  rw [h.index key, bucket] at hb
  split at hb
  case isTrue => cases hb
  case isFalse hne =>
    cases hb
    intro hnil
    have hlen := congrArg List.length hnil
    have hpost : (postings (entries c.cfg.n live) key).length ≠ 0 := fun h0 =>
      hne (List.isEmpty_iff.mpr (List.eq_nil_of_length_eq_zero h0))
    simp only [List.rtake, List.length_drop, List.length_nil] at hlen
    omega

/-- A live sequence holds the window's last tokens and then the draft. -/
lemma Holds.spec_infix [F64] {c : Cache} {live : List (ℕ × List Token)} (h : c.Holds live)
    {window : List Token} {maxTokens : ℕ} {draft : List Token} {score : ℚ} {best : ℕ}
    (hs : c.Spec window maxTokens draft score best) (hm : ¬ c.Misses window maxTokens) :
    ∃ id seq, c.sequences.lookup id = some seq ∧ window.rtake best ++ draft <:+: seq := by
  cases hs with
  | nothing hmiss => exact absurd hmiss hm
  | @found bucket _ _ hb hd =>
    cases hset : c.matchSet window bucket with
    | nil =>
      have hrecent : c.recent bucket = [] := by
        by_contra hne
        exact peaks_ne_nil (c.common window) hne hset
      have hlong : c.longest window bucket = 0 := by rw [longest, hrecent]; rfl
      rw [hset] at hd
      obtain ⟨e, he⟩ := List.exists_mem_of_ne_nil _ (h.bucket_ne_nil hb)
      refine ⟨e.1, _, (h.ends hb he).live, ?_⟩
      rw [hlong, hd.of_nil, List.rtake_zero]
      exact List.nil_infix
    | cons e0 es =>
      have hne : c.agreeing (c.matchSet window bucket) ([] ++ draft) ≠ [] := by
        refine hd.agreeing_ne_nil ?_
        rw [agreeing_nil, hset]
        exact List.cons_ne_nil e0 es
      obtain ⟨e, he⟩ := List.exists_mem_of_ne_nil _ hne
      have hrecent := (List.mem_filter.mp (List.mem_filter.mp he).1).1
      have hmem : e ∈ bucket := List.mem_reverse.mp (List.mem_of_mem_take hrecent)
      exact ⟨e.1, _, (h.ends hb hmem).live, infix_of_match he⟩

/-- Over exact rationals the score is the share of the matches that go on with the whole draft. -/
lemma Spec.score_exact {c : Cache} {window : List Token} {maxTokens : ℕ} {draft : List Token}
    {score : ℚ} {best : ℕ} (h : @Spec F64.exact c window maxTokens draft score best)
    (hne : draft ≠ []) :
    ∃ bucket, c.index.lookup (window.rtake c.cfg.n) = some bucket ∧
      score = (c.agreeing (c.matchSet window bucket) draft).length /
        (c.matchSet window bucket).length ∧ 0 < score ∧ score ≤ 1 := by
  cases h with
  | nothing => exact absurd rfl hne
  | @found bucket _ _ hb hd =>
    have hset : c.agreeing (c.matchSet window bucket) [] ≠ [] := by
      rw [agreeing_nil]
      intro hnil
      rw [hnil] at hd
      exact hne hd.of_nil
    have hpos : 0 < (c.agreeing (c.matchSet window bucket) ([] ++ draft)).length :=
      List.length_pos_of_ne_nil (hd.agreeing_ne_nil hset)
    have hle := (c.agreeing_append_sublist (c.matchSet window bucket) [] draft).length_le
    have hscore := c.shares_exact (c.matchSet window bucket) 1 [] draft hpos
    rw [agreeing_nil, List.nil_append] at hle
    rw [one_mul, agreeing_nil, List.nil_append] at hscore
    rw [List.nil_append] at hpos
    have hposM : (0 : ℚ) < (c.matchSet window bucket).length :=
      Nat.cast_pos.mpr (Nat.lt_of_lt_of_le hpos hle)
    have hif : (if draft.isEmpty then (0 : ℚ) else
        @shares F64.exact c (c.matchSet window bucket) 1 [] draft) =
        (c.agreeing (c.matchSet window bucket) draft).length /
          (c.matchSet window bucket).length := by
      rw [if_neg (by rw [List.isEmpty_iff]; exact hne), hscore]
    refine ⟨bucket, hb, hif, ?_, ?_⟩
    · rw [hif]
      exact div_pos (Nat.cast_pos.mpr hpos) hposM
    · rw [hif]
      exact (div_le_one hposM).mpr (Nat.cast_le.mpr hle)

/-- After every run of `add` calls, `speculate` returns what its declarative reading says, and nothing else
meets that reading; so does the lookup that visits the counts in any other order. Some live sequence holds
the matched tokens and then the draft. -/
theorem speculate_spec [F : F64] (cfg : Config) (inputs : List (List Token))
    (context : List Token) (maxTokens : ℕ) :
    ∃ c draft score best, run Cache.add (Cache.new cfg) inputs = some c ∧ c.cfg = cfg ∧
      c.speculate context maxTokens = some (draft, score, best) ∧
      c.Spec (context.rtake cfg.depth) maxTokens draft score best ∧
      (∀ draft' score' best', c.Spec (context.rtake cfg.depth) maxTokens draft' score' best' →
        draft' = draft ∧ score' = score ∧ best' = best) ∧
      (∀ o, speculateIn o c context maxTokens = some (draft, score, best)) ∧
      (¬ c.Misses (context.rtake cfg.depth) maxTokens → ∃ id seq,
        c.sequences.lookup id = some seq ∧
          (context.rtake cfg.depth).rtake best ++ draft <:+: seq) ∧
      (F = F64.exact → draft ≠ [] → ∃ bucket,
        c.index.lookup ((context.rtake cfg.depth).rtake cfg.n) = some bucket ∧
          score = (c.agreeing (c.matchSet (context.rtake cfg.depth) bucket) draft).length /
            (c.matchSet (context.rtake cfg.depth) bucket).length ∧ 0 < score ∧ score ≤ 1) := by
  obtain ⟨c, live, hrun, h, rfl, -⟩ := content_of_run cfg inputs
  obtain ⟨draft, score, best, hspec, hs⟩ :=
    h.speculateIn_spec (fun _ => .stored Item) context maxTokens
  refine ⟨c, draft, score, best, hrun, rfl, (speculate_eq c context maxTokens).trans hspec, hs,
    fun _ _ _ h' => hs.unique h', fun o => ?_, fun hm => h.spec_infix hs hm, ?_⟩
  · obtain ⟨draft', score', best', hspec', hs'⟩ := h.speculateIn_spec o context maxTokens
    obtain ⟨rfl, rfl, rfl⟩ := hs.unique hs'
    exact hspec'
  · rintro rfl hne
    exact hs.score_exact hne

end Cache
end SuffixHybrid
