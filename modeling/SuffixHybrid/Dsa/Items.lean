import Mathlib.Data.Finset.Prod
import Mathlib.Data.List.Range
import SuffixHybrid.Lib.Grid
import SuffixHybrid.Lib.Ticket
import SuffixHybrid.Lib.Word

/-!
# Items of an indexer block

A block of `dsa_logits` takes the tiles of its range in items: a tile, the first row that is left in it, and the rows
that read the same page as that one. The loop over the items ends, and each row that is active in a tile is a member of
one item of the tile (`itemLoop_serves`). Sets of rows are ascending lists.
-/

namespace SuffixHybrid.DsaIndexer
open Lib

/-- The arguments of a launch of `dsa_logits`, with what `dsa_indexer_logits_cuda` checks of them. The block table is
taken by row and entry. -/
structure Args where
  rows : ℕ
  group : ℕ
  slices : ℕ
  nCols : ℕ
  splits : ℕ
  minTiles : ℕ
  btDiv : ℕ
  paged : Bool
  hasLo : Bool
  lo : ℕ → ℤ
  hi : ℕ → ℤ
  bt : ℕ → ℤ → ℤ
  group_pos : 0 < group
  slices_pos : 0 < slices
  warps : group * slices ≤ 12
  splits_pos : 0 < splits
  btDiv_pos : 0 < btDiv

/-- A key: a page and a place in it. -/
abbrev Token := ℤ × ℤ

/-- An item of the block from `row0` on, with the rows that were left before it and those that are served behind it. -/
structure Item where
  k : ℕ
  lead : ℕ
  rem : List ℕ
  mem : List ℕ
  served : List ℕ

namespace Args
variable (A : Args)

/-- `window`. -/
def window (row : ℕ) : ℕ × ℕ :=
  if A.rows ≤ row then (0, 0)
  else
    let h := if A.hi row < 0 then 0 else if A.nCols < (A.hi row).toNat then A.nCols else (A.hi row).toNat
    let l := if A.hasLo then A.lo row else 0
    (if l < 0 then 0 else l.toNat, h)

/-- `active`. -/
def active (row0 k : ℕ) : List ℕ := (List.range A.group).filter fun j =>
  let w := A.window (row0 + j)
  w.1 < w.2 ∧ w.1 < (k + 1) * 64 ∧ k * 64 < w.2

/-- `page`. -/
def page (row0 j k : ℕ) : ℤ := if A.paged then A.bt ((row0 + j) / A.btDiv) k else k

/-- The item of the rows that are left in a tile, if there are any. -/
def itemOf (row0 k : ℕ) (served rem : List ℕ) : Option Item :=
  match rem with
  | [] => none
  | lead :: _ =>
    let mem := rem.filter fun j => A.page row0 j k = A.page row0 lead k
    some ⟨k, lead, rem, mem, served ++ mem⟩

/-- `next_item`. -/
def nextItem (row0 k : ℕ) (served : List ℕ) (k1 : ℕ) : Option Item :=
  match A.itemOf row0 k served (if k < k1 then (A.active row0 k).filter (· ∉ served) else []) with
  | some it => some it
  | none => (List.range' (k + 1) (k1 - (k + 1))).findSome? fun k => A.itemOf row0 k [] (A.active row0 k)

/-- A stage of shared memory. -/
abbrev Stage := ℕ → Token

/-- `issue`. -/
def issue (row0 : ℕ) (it : Item) (dst : Stage) : Stage := fun i =>
  if A.paged ∨ it.k * 64 + i < A.nCols then (A.page row0 it.lead it.k, i) else dst i

/-- The loop over the items, which loads the next one before it reads the stage of this one. The result has each item
with the stage that it reads. -/
def itemLoop (row0 k1 : ℕ) : ℕ → Item → Bool → (Bool → Stage) → Option (List (Item × Stage))
  | 0, _, _, _ => none
  | fuel + 1, it, st, smem =>
    match A.nextItem row0 it.k it.served k1 with
    | none => some [(it, smem st)]
    | some nxt =>
      let smem' := Function.update smem (!st) (A.issue row0 nxt (smem (!st)))
      (itemLoop row0 k1 fuel nxt (!st) smem').map ((it, smem' st) :: ·)

/-! ## What is left -/

/-- A row is left in a tile behind the served ones. -/
def Left (row0 k : ℕ) (served : List ℕ) (k1 k' j : ℕ) : Prop :=
  k ≤ k' ∧ k' < k1 ∧ j ∈ A.active row0 k' ∧ (k' = k → j ∉ served)

variable {A} {row0 k k1 : ℕ} {served : List ℕ}

lemma nodup_active : (A.active row0 k).Nodup := List.nodup_range.filter _

lemma itemOf_eq_some {rem : List ℕ} {it : Item} (h : A.itemOf row0 k served rem = some it) :
    it.k = k ∧ it.rem = rem ∧ it.lead ∈ rem ∧ it.mem = rem.filter (fun j => A.page row0 j k = A.page row0 it.lead k) ∧
      it.served = served ++ it.mem := by
  cases rem with
  | nil => cases h
  | cons lead rest =>
    obtain rfl := Option.some.inj h
    exact ⟨rfl, rfl, List.mem_cons_self, rfl, rfl⟩

lemma itemOf_eq_none {rem : List ℕ} : A.itemOf row0 k served rem = none ↔ rem = [] := by
  cases rem with
  | nil => exact ⟨fun _ => rfl, fun _ => rfl⟩
  | cons lead rest => exact ⟨nofun, nofun⟩

/-- The members of an item are active rows with the page of its leader, which is one of them. -/
structure Ok (A : Args) (row0 : ℕ) (it : Item) : Prop where
  rem : ∀ j ∈ it.rem, j ∈ A.active row0 it.k
  lead : it.lead ∈ it.mem
  pages : ∀ j ∈ it.mem, j ∈ it.rem ∧ A.page row0 j it.k = A.page row0 it.lead it.k
  nodup : it.mem.Nodup
  served : ∀ j ∈ it.mem, j ∈ it.served

/-- An item serves rows that are left, and what is left behind it is the rest. -/
structure Serves (A : Args) (row0 k : ℕ) (served : List ℕ) (k1 : ℕ) (it : Item) : Prop where
  ok : A.Ok row0 it
  rest : ∀ k' j, A.Left row0 k served k1 k' j ↔ k' = it.k ∧ j ∈ it.mem ∨ A.Left row0 it.k it.served k1 k' j

lemma serves_of_itemOf {rem : List ℕ} {it : Item} {k' : ℕ} {before : List ℕ} (h : A.itemOf row0 k' before rem = some it)
    (hnodup : rem.Nodup) (hrem : ∀ j, j ∈ rem ↔ A.Left row0 k served k1 k' j)
    (hbefore : ∀ k'' j, A.Left row0 k served k1 k'' j ↔ A.Left row0 k' before k1 k'' j) :
    A.Serves row0 k served k1 it := by
  obtain ⟨rfl, rfl, hlead, hmem, hserved⟩ := itemOf_eq_some h
  have hiff : ∀ j, j ∈ it.mem ↔ j ∈ it.rem ∧ A.page row0 j it.k = A.page row0 it.lead it.k := fun j => by
    rw [hmem, List.mem_filter, decide_eq_true_eq]
  refine ⟨⟨fun j hj => ((hrem j).mp hj).2.2.1, (hiff _).mpr ⟨hlead, rfl⟩, fun j hj => (hiff j).mp hj,
    hmem ▸ hnodup.filter _, fun j hj => hserved ▸ List.mem_append_right _ hj⟩, fun k'' j => ?_⟩
  rw [hbefore, hserved]
  constructor
  · intro hleft
    by_cases hin : k'' = it.k ∧ j ∈ it.mem
    · exact .inl hin
    · refine .inr ⟨hleft.1, hleft.2.1, hleft.2.2.1, fun hk => ?_⟩
      rw [List.mem_append]
      rintro (hb | hm)
      · exact hleft.2.2.2 hk hb
      · exact hin ⟨hk, hm⟩
  · rintro (⟨rfl, hj⟩ | hleft)
    · exact (hbefore _ _).mp ((hrem j).mp ((hiff j).mp hj).1)
    · exact ⟨hleft.1, hleft.2.1, hleft.2.2.1, fun hk hb => hleft.2.2.2 hk (List.mem_append_left _ hb)⟩

/-- A tile behind the first one that has an item comes behind it. -/
lemma mem_before {before after : List ℕ} {k' k'' : ℕ} (hlist : List.range' (k + 1) (k1 - (k + 1)) = before ++ k' :: after)
    (hlo : k < k'') (hlt : k'' < k') : k'' ∈ before := by
  have hsorted := List.pairwise_lt_range' (s := k + 1) (n := k1 - (k + 1))
  have hin : k' ∈ List.range' (k + 1) (k1 - (k + 1)) := by
    rw [hlist]
    exact List.mem_append_right _ List.mem_cons_self
  have hmem : k'' ∈ List.range' (k + 1) (k1 - (k + 1)) := by
    rw [List.mem_range'_1] at hin ⊢
    omega
  rw [hlist] at hmem hsorted
  obtain hbefore | hafter := List.mem_append.mp hmem
  · exact hbefore
  · obtain rfl | hafter := List.mem_cons.mp hafter
    · exact absurd hlt (Nat.lt_irrefl _)
    · have hlate := (List.pairwise_cons.mp (List.pairwise_append.mp hsorted).2.1).1 k'' hafter
      exact absurd hlate hlt.asymm

variable (A row0 k k1 served) in
/-- The next item serves what is left; there is none if nothing is. -/
lemma nextItem_spec : match A.nextItem row0 k served k1 with
    | some it => A.Serves row0 k served k1 it
    | none => ∀ k' j, ¬A.Left row0 k served k1 k' j := by
  have hhere : ∀ j, (j ∈ if k < k1 then (A.active row0 k).filter (· ∉ served) else []) ↔ A.Left row0 k served k1 k j :=
    fun j => by
      split_ifs with hk
      · simp [Left, hk]
      · simp [Left, hk]
  rw [nextItem]
  cases hfirst : A.itemOf row0 k served (if k < k1 then (A.active row0 k).filter (· ∉ served) else []) with
  | some it =>
    refine serves_of_itemOf hfirst ?_ hhere fun _ _ => Iff.rfl
    split_ifs
    · exact nodup_active.filter _
    · exact List.nodup_nil
  | none =>
    have hnone : ∀ j, ¬A.Left row0 k served k1 k j := fun j hj => by
      rw [← hhere, itemOf_eq_none.mp hfirst] at hj
      cases hj
    dsimp only
    cases hfind : (List.range' (k + 1) (k1 - (k + 1))).findSome? fun k => A.itemOf row0 k [] (A.active row0 k) with
    | none =>
      intro k' j hleft
      obtain rfl | hlt := hleft.1.eq_or_lt
      · exact hnone j hleft
      · have hin : k' ∈ List.range' (k + 1) (k1 - (k + 1)) := by
          have := hleft.2.1
          rw [List.mem_range'_1]
          omega
        have hempty := itemOf_eq_none.mp (List.findSome?_eq_none_iff.mp hfind k' hin)
        have hj := hleft.2.2.1
        rw [hempty] at hj
        cases hj
    | some it =>
      obtain ⟨before, k', after, hlist, hit, hempty⟩ := List.findSome?_eq_some_iff.mp hfind
      have hk' : k < k' ∧ k' < k1 := by
        have hin : k' ∈ List.range' (k + 1) (k1 - (k + 1)) := by
          rw [hlist]
          exact List.mem_append_right _ List.mem_cons_self
        rw [List.mem_range'_1] at hin
        omega
      have hskip : ∀ k'' j, A.Left row0 k served k1 k'' j → k' ≤ k'' := fun k'' j hleft => by
        by_contra hlt
        obtain rfl | hk := hleft.1.eq_or_lt
        · exact hnone j hleft
        · have hj := hleft.2.2.1
          rw [itemOf_eq_none.mp (hempty k'' (mem_before hlist hk (not_le.mp hlt)))] at hj
          cases hj
      refine serves_of_itemOf hit nodup_active (fun j => ?_) fun k'' j => ?_
      · refine ⟨fun hj => ⟨hk'.1.le, hk'.2, hj, fun h => absurd h hk'.1.ne'⟩, fun h => h.2.2.1⟩
      · refine ⟨fun h => ⟨hskip k'' j h, h.2.1, h.2.2.1, fun _ => List.not_mem_nil⟩, fun h => ?_⟩
        exact ⟨hk'.1.le.trans h.1, h.2.1, h.2.2.1, fun hk => absurd (hk ▸ h.1) (not_le.mpr hk'.1)⟩

/-! ## The loop -/

instance (row0 k : ℕ) (served : List ℕ) (k1 k' j : ℕ) : Decidable (A.Left row0 k served k1 k' j) :=
  inferInstanceAs (Decidable (_ ∧ _ ∧ _ ∧ _))

/-- The rows that are left in all tiles. -/
def left (A : Args) (row0 k : ℕ) (served : List ℕ) (k1 : ℕ) : Finset (ℕ × ℕ) :=
  (Finset.range k1 ×ˢ Finset.range A.group).filter fun p => A.Left row0 k served k1 p.1 p.2

lemma mem_left {p : ℕ × ℕ} : p ∈ A.left row0 k served k1 ↔ A.Left row0 k served k1 p.1 p.2 := by
  rw [left, Finset.mem_filter, Finset.mem_product, Finset.mem_range, Finset.mem_range]
  refine ⟨fun h => h.2, fun h => ⟨⟨h.2.1, ?_⟩, h⟩⟩
  exact List.mem_range.mp (List.mem_of_mem_filter h.2.2.1)

lemma card_left_le : (A.left row0 k served k1).card ≤ k1 * A.group := by
  refine (Finset.card_filter_le _ _).trans ?_
  rw [Finset.card_product, Finset.card_range, Finset.card_range]

/-- Less is left behind an item. -/
lemma Serves.card_lt {it : Item} (h : A.Serves row0 k served k1 it) :
    (A.left row0 it.k it.served k1).card < (A.left row0 k served k1).card := by
  refine Finset.card_lt_card (Finset.ssubset_iff_of_subset (fun p hp => ?_) |>.mpr ⟨(it.k, it.lead), ?_, fun hlead => ?_⟩)
  · exact mem_left.mpr ((h.rest _ _).mpr (.inr (mem_left.mp hp)))
  · exact mem_left.mpr ((h.rest _ _).mpr (.inl ⟨rfl, h.ok.lead⟩))
  · exact (mem_left.mp hlead).2.2.2 rfl (h.ok.served _ h.ok.lead)

/-- The stage has the page of the leader. -/
def Staged (A : Args) (row0 : ℕ) (it : Item) (stage : Stage) : Prop :=
  ∀ i : ℕ, A.paged ∨ it.k * 64 + i < A.nCols → stage i = (A.page row0 it.lead it.k, (i : ℤ))

lemma staged_issue (it : Item) (dst : Stage) : A.Staged row0 it (A.issue row0 it dst) := fun _ h => if_pos h

/-- The items of a run and their stages: what is left is served once. -/
structure Serving (A : Args) (row0 k1 : ℕ) (it : Item) (trace : List (Item × Stage)) : Prop where
  left : ∀ k' j, (∃ e ∈ trace, e.1.k = k' ∧ j ∈ e.1.mem) ↔
    k' = it.k ∧ j ∈ it.mem ∨ A.Left row0 it.k it.served k1 k' j
  once : trace.Pairwise fun e e' => e.1.k = e'.1.k → ∀ j ∈ e.1.mem, j ∉ e'.1.mem
  ok : ∀ e ∈ trace, A.Ok row0 e.1 ∧ A.Staged row0 e.1 e.2

/-- The loop ends and serves all that is left. -/
lemma itemLoop_serves (fuel : ℕ) {it : Item} (hok : A.Ok row0 it) {st : Bool} {smem : Bool → Stage}
    (hst : A.Staged row0 it (smem st)) (hfuel : (A.left row0 it.k it.served k1).card < fuel) :
    ∃ trace, A.itemLoop row0 k1 fuel it st smem = some trace ∧ A.Serving row0 k1 it trace := by
  induction fuel generalizing it st smem with
  | zero => exact absurd hfuel (Nat.not_lt_zero _)
  | succ fuel ih =>
    have hspec := A.nextItem_spec row0 it.k k1 it.served
    rw [itemLoop]
    cases hnext : A.nextItem row0 it.k it.served k1 with
    | none =>
      rw [hnext] at hspec
      refine ⟨_, rfl, fun k' j => ?_, List.pairwise_singleton _ _, fun e he => ?_⟩
      · simp only [List.mem_singleton, exists_eq_left, hspec k' j, or_false, eq_comm]
      · rw [List.mem_singleton.mp he]
        exact ⟨hok, hst⟩
    | some nxt =>
      rw [hnext] at hspec
      have hne : st ≠ !st := by cases st <;> decide
      have hnext : A.Staged row0 nxt (Function.update smem (!st) (A.issue row0 nxt (smem (!st))) (!st)) := by
        rw [Function.update_self]
        exact staged_issue nxt _
      obtain ⟨trace, hrun, hserving⟩ := ih hspec.ok hnext (by have := hspec.card_lt; omega)
      have hrest : ∀ k' j, (∃ e ∈ trace, e.1.k = k' ∧ j ∈ e.1.mem) ↔ A.Left row0 it.k it.served k1 k' j := fun k' j =>
        (hserving.left k' j).trans (hspec.rest k' j).symm
      refine ⟨_, by dsimp only; rw [hrun, Option.map_some], fun k' j => ?_, ?_, fun e he => ?_⟩
      · rw [← hrest]
        simp only [List.mem_cons, exists_eq_or_imp, eq_comm]
      · refine List.pairwise_cons.mpr ⟨fun e he hk j hj hj' => ?_, hserving.once⟩
        exact ((hrest it.k j).mp ⟨e, he, hk.symm, hj'⟩).2.2.2 rfl (hok.served j hj)
      · obtain rfl | he := List.mem_cons.mp he
        · refine ⟨hok, ?_⟩
          rw [Function.update_of_ne hne]
          exact hst
        · exact hserving.ok e he

end Args
end SuffixHybrid.DsaIndexer
