import SuffixHybrid.Wrapper.Async

/-!
# The mirror after an absorb and an enqueue

Request by request, an absorb keeps a mirror row, drops it or extends it from the staged window
(`absorbed`), and an enqueue forgets the requests that left and seeds those that are missing
(`lookup_prepare`).
-/

namespace SuffixHybrid
open Lib

namespace Wrapper

/-- What an absorb makes of a mirror row. -/
def absorbed (w count : ℕ) (tail : ℕ → Token) (row : List Token) : Option (List Token) :=
  if count ≤ row.length then if count = 0 then none else some row
  else if w < count - row.length then none
  else some (row ++ (List.range (count - row.length)).map tail)

/-- An absorb drops the row, keeps it, or extends it within the window. -/
lemma absorbed_cases (w count : ℕ) (tail : ℕ → Token) (row : List Token) :
    (absorbed w count tail row = none ∧ (count = 0 ∨ row.length + w < count)) ∨
      (absorbed w count tail row = some row ∧ count ≠ 0 ∧ count ≤ row.length) ∨
      row.length < count ∧ count ≤ row.length + w := by
  unfold absorbed
  split
  case isTrue hkept =>
    split
    case isTrue hzero => exact Or.inl ⟨rfl, Or.inl hzero⟩
    case isFalse hne => exact Or.inr (Or.inl ⟨rfl, hne, hkept⟩)
  case isFalse hlonger =>
    split
    case isTrue hover => exact Or.inl ⟨rfl, Or.inr (by omega)⟩
    case isFalse hwithin => exact Or.inr (Or.inr ⟨by omega, by omega⟩)

lemma lookup_absorbRow (w : ℕ) (mirror : Map ReqId (List Token)) (id id' : ReqId) (count : ℕ)
    (tail : ℕ → Token) : (absorbRow w mirror id count tail).lookup id'
      = if id' = id then (mirror.lookup id).bind (absorbed w count tail) else mirror.lookup id' := by
  unfold absorbRow
  cases hrow : mirror.lookup id with
  | none =>
    dsimp only
    split
    case isTrue heq => rw [heq, hrow, Option.bind_none]
    case isFalse => rfl
  | some row =>
    have hkeep : mirror.lookup id' = if id' = id then some row else mirror.lookup id' := by
      split
      case isTrue heq => rw [heq, hrow]
      case isFalse => rfl
    dsimp only
    rw [Option.bind_some, absorbed]
    split
    case isTrue =>
      split
      case isTrue => exact Map.lookup_erase_eq mirror id id'
      case isFalse => exact hkeep
    case isFalse =>
      split
      case isTrue => exact Map.lookup_erase_eq mirror id id'
      case isFalse => exact Map.lookup_put mirror id id' _

/-- The requests whose copies are absorbed are distinct, so each is absorbed once. -/
lemma lookup_absorb {w : ℕ} {count : ℕ → ℕ} {tail : ℕ → ℕ → Token} {ids : List ReqId}
    (hids : ids.Nodup) (k : ℕ) (mirror : Map ReqId (List Token)) (id : ReqId) :
    ((ids.zipIdx k).foldl (fun m e => absorbRow w m e.1 (count e.2) (tail e.2)) mirror).lookup id
      = if id ∈ ids then (mirror.lookup id).bind
          (absorbed w (count (k + ids.idxOf id)) (tail (k + ids.idxOf id)))
        else mirror.lookup id := by
  induction ids generalizing k mirror with
  | nil => simp
  | cons id' ids ih =>
    obtain ⟨hnew, hrest⟩ := List.nodup_cons.mp hids
    rw [List.zipIdx_cons, List.foldl_cons, ih hrest, lookup_absorbRow]
    by_cases hid : id = id'
    · subst hid
      simp [hnew]
    · have hindex : (id' :: ids).idxOf id = ids.idxOf id + 1 := List.idxOf_cons_ne ids (Ne.symm hid)
      simp only [hid, if_false, List.mem_cons, false_or, hindex, Nat.add_assoc, Nat.add_comm 1]

/-- The mirror after an absorb. -/
lemma lookup_absorbPending {s : Wrapper} (hids : (s.pending.getD []).Nodup) (b : Staging) (id : ReqId) :
    (s.absorbPending b).mirror.lookup id = if id ∈ s.pending.getD [] then (s.mirror.lookup id).bind
      (absorbed s.w (b.count ((s.pending.getD []).idxOf id)) (b.tail ((s.pending.getD []).idxOf id)))
    else s.mirror.lookup id := by
  unfold absorbPending
  cases hpending : s.pending with
  | none => simp
  | some ids =>
    rw [hpending, Option.getD_some] at hids
    simp only [Option.getD_some, lookup_absorb hids 0 s.mirror id, Nat.zero_add]

/-! ## Enqueuing -/

lemma lookup_foldl_forget (gone : List ReqId) (s : Wrapper) (id : ReqId) :
    (gone.foldl forget s).mirror.lookup id = if id ∈ gone then none else s.mirror.lookup id := by
  induction gone generalizing s with
  | nil => simp
  | cons id' gone ih =>
    rw [List.foldl_cons, ih]
    simp only [forget, Map.lookup_erase_eq, List.mem_cons]
    by_cases hid : id = id' <;> by_cases hmem : id ∈ gone <;> simp [hid, hmem]

/-- Forgotten requests leave the mirror, and nothing else that the copies depend on. -/
lemma foldl_forget_w (gone : List ReqId) (s : Wrapper) : (gone.foldl forget s).w = s.w :=
  foldl_view (f := forget) (·.w) (fun _ _ => rfl) gone s

lemma lookup_foldl_seedRow (batch : List BatchRow) (mirror : Map ReqId (List Token)) (id : ReqId) :
    (batch.foldl seedRow mirror).lookup id = (mirror.lookup id).or
      ((batch.find? fun r => r.id = id).map fun r => r.tokens.take r.total) := by
  induction batch generalizing mirror with
  | nil => simp
  | cons r batch ih =>
    rw [List.foldl_cons, ih, List.find?_cons]
    by_cases hid : r.id = id
    · subst hid
      have hseeded : (seedRow mirror r).lookup r.id
          = some ((mirror.lookup r.id).getD (r.tokens.take r.total)) := by
        unfold seedRow
        split
        case isTrue hmem =>
          obtain ⟨row, hrow⟩ := Map.exists_lookup hmem
          rw [hrow, Option.getD_some]
        case isFalse hmem =>
          rw [Map.lookup_put_self, AList.lookup_eq_none.mpr hmem, Option.getD_none]
      rw [hseeded]
      cases mirror.lookup r.id <;> simp
    · have hother : (seedRow mirror r).lookup id = mirror.lookup id := by
        unfold seedRow
        split
        case isTrue => rfl
        case isFalse => exact Map.lookup_put_ne mirror _ (Ne.symm hid)
      simp [hother, hid]

/-- The mirror after the absorb and the enqueue of a step. -/
lemma lookup_prepare {cfg : WrapSettings} (hcuda : cfg.cuda = true) (s : Wrapper) (t : Step)
    (id : ReqId) : (s.prepare cfg t).mirror.lookup id = if id ∈ t.ids then
      ((s.absorbPending t.onEntry).mirror.lookup id).or
        ((t.batch.find? fun r => r.id = id).map fun r => r.tokens.take r.total) else none := by
  have hmirror : (s.prepare cfg t).mirror = t.batch.foldl seedRow
      (((s.absorbPending t.onEntry).mirror.keys.filter fun id => id ∉ t.ids).foldl forget
        (s.absorbPending t.onEntry)).mirror := by
    rw [prepare, hcuda]
    rfl
  rw [hmirror, lookup_foldl_seedRow, lookup_foldl_forget]
  by_cases hid : id ∈ t.ids
  · simp [hid]
  · have hnone : t.batch.find? (fun r => r.id = id) = none := by
      rw [List.find?_eq_none]
      intro r hr heq
      exact hid (List.mem_map.mpr ⟨r, hr, by simpa using heq⟩)
    rw [if_neg hid, hnone, Option.map_none, Option.or_none]
    by_cases hmem : id ∈ (s.absorbPending t.onEntry).mirror
    · simp [hid, AList.mem_keys.mp hmem]
    · simp [AList.lookup_eq_none.mpr hmem]

/-- The width of the windows and the requests whose copies are under way after the absorb and the enqueue
of a step. -/
lemma prepare_kept {cfg : WrapSettings} (hcuda : cfg.cuda = true) (s : Wrapper) (t : Step) :
    (s.prepare cfg t).w = (if s.w = 0 then max t.k 1 + 2 else s.w) ∧
      (s.prepare cfg t).pending = some t.ids := by
  have habsorb : (s.absorbPending t.onEntry).w = s.w := by
    unfold absorbPending
    split <;> rfl
  have hprepare : (s.prepare cfg t).w = (if (((s.absorbPending t.onEntry).mirror.keys.filter
      fun id => id ∉ t.ids).foldl forget (s.absorbPending t.onEntry)).w = 0 then max t.k 1 + 2
      else (((s.absorbPending t.onEntry).mirror.keys.filter
        fun id => id ∉ t.ids).foldl forget (s.absorbPending t.onEntry)).w) := by
    rw [prepare, hcuda]
    rfl
  refine ⟨by rw [hprepare, foldl_forget_w, habsorb], ?_⟩
  rw [prepare, hcuda]
  rfl

/-! ## Prefixes of a history -/

/-- A window of a row that shows a history continues a mirror row that is a prefix of that history. -/
lemma absorbed_window {w count total : ℕ} {row tokens history : List Token} (old : ℕ → Token)
    (hrow : row <+: history) (hlive : tokens.take total <+: history) (htotal : total ≤ tokens.length)
    (hlt : row.length < count) (hcount : count ≤ total) (hw : count ≤ row.length + w) :
    absorbed w count (fun c => (windowSlice w tokens row.length)[c]?.getD (old c)) row
      = some (tokens.take count) := by
  have hstart : tokens.take row.length = row := by
    have hpre : tokens.take row.length <+: history :=
      (List.take_prefix_take_left (hlt.le.trans hcount)).trans hlive
    have hlen : (tokens.take row.length).length = row.length := List.length_take_of_le (by omega)
    exact (List.prefix_of_prefix_length_le hpre hrow hlen.le).eq_of_length hlen
  have htail : (List.range (count - row.length)).map
      (fun c => (windowSlice w tokens row.length)[c]?.getD (old c))
        = (tokens.drop row.length).take (count - row.length) := by
    apply List.ext_getElem?
    intro c
    by_cases hc : c < count - row.length
    · have hin : row.length + c < tokens.length := by omega
      have hwindow : c < w := by omega
      simp [windowSlice, hc, hwindow, hin]
    · simp [hc]
  rw [absorbed, if_neg (by omega), if_neg (by omega), htail]
  congr 1
  calc row ++ (tokens.drop row.length).take (count - row.length)
      = tokens.take row.length ++ (tokens.drop row.length).take (count - row.length) := by rw [hstart]
    _ = tokens.take (row.length + (count - row.length)) := List.take_add.symm
    _ = tokens.take count := by rw [Nat.add_sub_cancel' hlt.le]

/-! ## The rows of a mix -/

/-- The padding of a row is cut off by its length. -/
lemma take_takeD {α : Type} {l : List α} {n : ℕ} (h : l.length ≤ n) (a : α) :
    (l.takeD n a).take l.length = l := by
  induction l generalizing n with
  | nil => simp
  | cons b l ih =>
    cases n with
    | zero => simp at h
    | succ n => simpa using ih (Nat.le_of_succ_le_succ h)

/-- The matrix that the fast body hands to the mixer holds the mirror rows. -/
lemma rows_mirror (s : Wrapper) (ids : List ReqId) :
    (Source.numpy (.i64 (s.mirrorCounts ids)) (.i64 true (s.mirrorGrid ids))).rows ids.length
      = ids.map s.mirrorRow := by
  cases ids with
  | nil => rfl
  | cons id ids =>
    have hmax (l : List ReqId) (m : ℕ) : m ≤ l.foldl (fun m id => max m (s.mirrorRow id).length) m ∧
        ∀ id ∈ l, (s.mirrorRow id).length ≤ l.foldl (fun m id => max m (s.mirrorRow id).length) m := by
      induction l generalizing m with
      | nil => simp
      | cons id l ih =>
        obtain ⟨hle, hall⟩ := ih (max m (s.mirrorRow id).length)
        refine ⟨(le_max_left _ _).trans hle, fun id' hid' => ?_⟩
        rcases List.mem_cons.mp hid' with rfl | hmem
        · exact (le_max_right _ _).trans hle
        · exact hall id' hmem
    obtain ⟨_, hfits⟩ := hmax (id :: ids) 0
    have hcounts : Source.counts (id :: ids).length (.i64 (s.mirrorCounts (id :: ids)))
        = (id :: ids).map fun id => ((s.mirrorRow id).length : ℤ) := by
      simp [Source.counts, CountArray.read, mirrorCounts]
    rw [Source.rows, hcounts, cutRows]
    apply List.ext_getElem?
    intro i
    rw [List.getElem?_zipWith]
    simp only [mirrorGrid, List.isEmpty_cons, Bool.false_eq_true, if_false, List.getElem?_map,
      Option.map_map]
    cases hid : (id :: ids)[i]? with
    | none => rfl
    | some id' =>
      have hle := hfits id' (List.mem_of_getElem? hid)
      simp only [Option.map_some, Function.comp_apply, Int.toNat_natCast]
      congr 1
      exact take_takeD (hle.trans (le_max_left _ 1)) 0

end Wrapper
end SuffixHybrid
