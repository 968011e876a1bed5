import Mathlib.Data.List.Induction
import SuffixHybrid.Prefetch.Recorder

/-!
# Tables and stable keys

After a flush the windows of the stable keys should have their tables, and all other tables only zero rows. A
table that was zeroed stays registered, so a key that becomes known later and shares the window does not get it
back, and a window that waits for its table gets it also when its key has turned unstable. `Meets` excludes both,
and then the tables follow the stable keys in every run (`tables_follow`).
-/

namespace SuffixHybrid.Prefetch.Recorder

/-! ## Statements -/

/-- A stable key has the window in its schedule. -/
def Scheduled (s : Recorder) (sg : Sig) : Prop := ∃ k sch, s.schedules k = some sch ∧ k ∉ s.unstable ∧ sg ∈ sch

/-- What the tables should be. -/
structure Good (s : Recorder) : Prop where
  window : ∀ sg, s.Scheduled sg → s.windowRows sg ≠ [] →
    ∃ tab, s.tables sg = some tab ∧ tab.rows = makeTable (s.windowRows sg)
  dead : ∀ sg tab, s.tables sg = some tab → ¬s.Scheduled sg → ∀ r ∈ tab.rows, r.2 = 0
  memory : ∀ sg tab, s.tables sg = some tab → ∀ r ∈ tab.rows, r.2 ≠ 0 →
    ∃ ts, tab.tensors = some ts ∧ ∃ t ∈ ts, ∃ sp, t.span = some sp ∧ InSpan r sp

/-- A record that makes a key known names no window with a table that only unstable keys have, and a record that
makes a key unstable leaves no window that waits for its table without a stable key. -/
def Meets (s : Recorder) : Event → Prop
  | .post _ => ∀ cur, s.cur = some cur → cur.recording = true → s.off = false →
    match s.schedules cur.key with
    | none => ∀ sg ∈ cur.sigs s.device, s.tables sg ≠ none → s.Scheduled sg
    | some old => old ≠ cur.sigs s.device → ∀ sg ∈ old, s.tables sg = none → s.windowRows sg ≠ [] →
      ∃ k sch, s.schedules k = some sch ∧ k ∉ s.unstable ∧ k ≠ cur.key ∧ sg ∈ sch
  | _ => True

/-- The condition along a run. -/
def AllMeet : Recorder → List Event → Prop
  | _, [] => True
  | s, e :: evs => Meets s e ∧ AllMeet (s.step e) evs

/-! ## Signatures -/

variable {s : Recorder} {sg : Sig}

lemma mem_sigOf {device : ℕ} {ts : List Tensor} {sp : Span} (h : sp ∈ sigOf device ts) :
    ∃ t ∈ ts, t.span = some sp := by
  induction ts using List.reverseRecOn with
  | nil => cases h
  | append_singleton ts t ih =>
    rw [sigOf, List.foldl_append, List.foldl_cons, List.foldl_nil] at h
    have hold : sp ∈ sigOf device ts → ∃ t' ∈ ts ++ [t], t'.span = some sp := fun h => by
      obtain ⟨t', ht', hsp⟩ := ih h
      exact ⟨t', List.mem_append_left _ ht', hsp⟩
    split at h
    case h_1 sp' heq =>
      split_ifs at h with hmem
      · exact hold h
      · obtain h | h := List.mem_append.mp h
        · exact hold h
        · refine ⟨t, List.mem_append_right _ List.mem_cons_self, ?_⟩
          rw [List.mem_singleton.mp h]
          split_ifs at heq
          exact heq
    case h_2 => exact hold h

lemma exists_keepWindows (s : Recorder) (wins : List (List Tensor)) :
    ∃ keep, wins.foldl keepWindow s = { s with keep := keep } ∧
      (∀ sg ts, keep sg = some ts → s.keep sg = some ts ∨ sigOf s.device ts = sg) ∧
      (∀ sg, s.keep sg ≠ none → keep sg ≠ none) ∧ ∀ w ∈ wins, keep (sigOf s.device w) ≠ none := by
  induction wins generalizing s with
  | nil => exact ⟨s.keep, rfl, fun _ _ h => .inl h, fun _ h => h, List.forall_mem_nil _⟩
  | cons w wins ih =>
    obtain ⟨keep₁, heq₁, hsig₁, hold₁, hnew₁⟩ : ∃ keep₁, s.keepWindow w = { s with keep := keep₁ } ∧
        (∀ sg ts, keep₁ sg = some ts → s.keep sg = some ts ∨ sigOf s.device ts = sg) ∧
        (∀ sg, s.keep sg ≠ none → keep₁ sg ≠ none) ∧ keep₁ (sigOf s.device w) ≠ none := by
      unfold keepWindow
      split_ifs with hnone
      · refine ⟨_, rfl, fun sg ts h => ?_, fun sg h => ?_, ?_⟩
        · obtain rfl | hne := eq_or_ne sg (sigOf s.device w)
          · rw [Function.update_self] at h
            exact .inr (Option.some.inj h ▸ rfl)
          · rw [Function.update_of_ne hne] at h
            exact .inl h
        · obtain rfl | hne := eq_or_ne sg (sigOf s.device w)
          · rw [Function.update_self]
            exact Option.some_ne_none w
          · rwa [Function.update_of_ne hne]
        · rw [Function.update_self]
          exact Option.some_ne_none w
      · refine ⟨s.keep, rfl, fun _ _ h => .inl h, fun _ h => h, fun h => hnone ?_⟩
        rw [h]
        rfl
    obtain ⟨keep, heq, hsig, hold, hnew⟩ := ih { s with keep := keep₁ }
    refine ⟨keep, ?_, fun sg ts h => ?_, fun sg h => hold sg (hold₁ sg h), ?_⟩
    · rw [List.foldl_cons, heq₁, heq]
    · exact (hsig sg ts h).elim (hsig₁ sg ts) .inr
    · exact List.forall_mem_cons.mpr ⟨hold _ hnew₁, hnew⟩

/-! ## Invariants -/

/-- The tables and the lists of what is deferred. -/
structure Inv (s : Recorder) : Prop where
  known : ∀ k sch, s.schedules k = some sch → k ∈ s.known
  unstable : ∀ k ∈ s.unstable, s.schedules k ≠ none
  window : ∀ sg, s.Scheduled sg → s.windowRows sg ≠ [] → sg ∈ s.pending ∨
    sg ∉ s.zero ∧ ∃ tab, s.tables sg = some tab ∧ tab.rows = makeTable (s.windowRows sg)
  dead : ∀ sg tab, s.tables sg = some tab → ¬s.Scheduled sg → sg ∈ s.zero ∨ ∀ r ∈ tab.rows, r.2 = 0
  pending : ∀ sg ∈ s.pending, s.tables sg = none ∧ (s.Scheduled sg ∨ s.windowRows sg = [])
  zero : ∀ sg ∈ s.zero, s.tables sg ≠ none ∧ ¬s.Scheduled sg

/-- The tensors of a table are those of its signature, and its rows are of their memory. -/
structure Kept (s : Recorder) : Prop where
  keep : ∀ sg ts, s.keep sg = some ts → sigOf s.device ts = sg
  pending : ∀ sg ∈ s.pending, s.keep sg ≠ none
  table : ∀ sg tab, s.tables sg = some tab → (∃ ts, tab.tensors = some ts ∧ sigOf s.device ts = sg) ∧
    ∀ r ∈ tab.rows, r.2 ≠ 0 → ∃ sp ∈ sg, InSpan r sp

lemma mem_live (h : ∀ k sch, s.schedules k = some sch → k ∈ s.known) : sg ∈ s.live ↔ s.Scheduled sg := by
  rw [live, List.mem_flatMap]
  constructor
  · rintro ⟨k, hk, hsg⟩
    obtain ⟨-, hk⟩ := List.mem_filter.mp hk
    cases hsch : s.schedules k with
    | none =>
      rw [hsch] at hsg
      cases hsg
    | some sch =>
      rw [hsch] at hsg
      exact ⟨k, sch, hsch, by simpa using hk, hsg⟩
  · rintro ⟨k, sch, hsch, hk, hsg⟩
    refine ⟨k, List.mem_filter.mpr ⟨h k sch hsch, by simpa using hk⟩, ?_⟩
    rwa [hsch]

/-! ## Flushes -/

lemma windowRows_mem {r : Span} (h : r ∈ s.windowRows sg) : ∃ sp ∈ sg, InSpan r sp := by
  obtain ⟨rows, hrows, hin⟩ := @rowsFor_inside CHUNK (by decide) sg s.budget
  rw [windowRows, hrows] at h
  exact hin r h

/-- A signature without a table gets one, if it has rows. -/
lemma tables_build (s : Recorder) (l : List Sig) :
    ∃ built, ∃ tables : Sig → Option Table, l.foldl build s = { s with built := built, tables := tables } ∧
      ∀ sg, tables sg = if s.tables sg = none ∧ sg ∈ l ∧ s.windowRows sg ≠ [] then
        some ⟨makeTable (s.windowRows sg), s.keep sg⟩ else s.tables sg := by
  induction l generalizing s with
  | nil => exact ⟨s.built, s.tables, rfl, fun sg => by simp⟩
  | cons a l ih =>
    obtain ⟨built₁, tables₁, heq₁, htab₁⟩ : ∃ built₁, ∃ tables₁ : Sig → Option Table,
        s.build a = { s with built := built₁, tables := tables₁ } ∧
        ∀ sg, tables₁ sg = if s.tables sg = none ∧ sg = a ∧ s.windowRows sg ≠ [] then
          some ⟨makeTable (s.windowRows sg), s.keep sg⟩ else s.tables sg := by
      unfold build
      split_ifs with hbuild
      · refine ⟨_, _, rfl, fun sg => ?_⟩
        obtain rfl | hne := eq_or_ne sg a
        · rw [Function.update_self, if_pos ⟨by simpa using hbuild.1, rfl, hbuild.2⟩]
        · rw [Function.update_of_ne hne, if_neg fun h => hne h.2.1]
      · refine ⟨s.built, s.tables, rfl, fun sg => ?_⟩
        rw [if_neg]
        rintro ⟨hnone, rfl, hrows⟩
        exact hbuild ⟨by rw [hnone]; rfl, hrows⟩
    obtain ⟨built, tables, heq, htab⟩ := ih { s with built := built₁, tables := tables₁ }
    refine ⟨built, tables, by rw [List.foldl_cons, heq₁, heq], fun sg => ?_⟩
    have hrows : windowRows { s with built := built₁, tables := tables₁ } sg = s.windowRows sg := rfl
    rw [htab, hrows]
    simp only [htab₁, List.mem_cons]
    by_cases ha : s.tables sg = none ∧ sg = a ∧ s.windowRows sg ≠ []
    · rw [if_pos ha, if_neg fun h => Option.some_ne_none _ h.1, if_pos ⟨ha.1, .inl ha.2.1, ha.2.2⟩]
    · rw [if_neg ha]
      by_cases hl : s.tables sg = none ∧ sg ∈ l ∧ s.windowRows sg ≠ []
      · rw [if_pos hl, if_pos ⟨hl.1, .inr hl.2.1, hl.2.2⟩]
      · rw [if_neg hl, if_neg]
        rintro ⟨hnone, hmem | hmem, hne⟩
        · exact ha ⟨hnone, hmem, hne⟩
        · exact hl ⟨hnone, hmem, hne⟩

/-- What a flush does. -/
lemma exists_flush (s : Recorder) :
    ∃ built, ∃ tables : Sig → Option Table, s.flushDeferred false =
      { s with built := built, tables := tables, pending := [], zero := [] } ∧
      ∀ sg, tables sg = if s.tables sg = none ∧ sg ∈ s.pending ∧ s.windowRows sg ≠ [] then
        some ⟨makeTable (s.windowRows sg), s.keep sg⟩
        else (s.tables sg).map fun t => if sg ∈ s.zero then Table.zeroed t else t := by
  obtain ⟨built, tables, heq, htab⟩ := tables_build { s with
    tables := fun sg => (s.tables sg).map fun t => if s.zero.contains sg then Table.zeroed t else t
    zero := [] } s.pending
  refine ⟨built, tables, ?_, fun sg => ?_⟩
  · rw [flushDeferred, if_neg Bool.false_ne_true]
    simp only [heq]
  · simp only [htab, Option.map_eq_none_iff, List.contains_iff_mem]
    rfl

/-- Rows and schedules do not depend on the tables. -/
lemma Inv.flush (h : Inv s) : Inv (s.flushDeferred false) := by
  obtain ⟨built, tables, heq, htab⟩ := exists_flush s
  rw [heq]
  refine ⟨h.known, h.unstable, fun sg hsg hrows => .inr ⟨List.not_mem_nil, ?_⟩, fun sg tab ht hsg => .inr ?_,
    List.forall_mem_nil _, List.forall_mem_nil _⟩
  · have hsg : s.Scheduled sg := hsg
    have hrows : s.windowRows sg ≠ [] := hrows
    simp only [htab]
    obtain hp | ⟨hz, tab, ht, hr⟩ := h.window sg hsg hrows
    · exact ⟨_, if_pos ⟨(h.pending sg hp).1, hp, hrows⟩, rfl⟩
    · refine ⟨tab, ?_, hr⟩
      rw [if_neg fun hc => Option.some_ne_none _ (ht.symm.trans hc.1), ht, Option.map_some, if_neg hz]
  · have hsg : ¬s.Scheduled sg := hsg
    simp only [htab] at ht
    split_ifs at ht with hc hz
    · obtain hp | hp := (h.pending sg hc.2.1).2
      · exact absurd hp hsg
      · exact absurd hp hc.2.2
    · obtain ⟨t, -, rfl⟩ := Option.map_eq_some_iff.mp ht
      intro r hr
      obtain ⟨r', -, rfl⟩ := List.mem_map.mp hr
      rfl
    · rw [Option.map_id'] at ht
      exact (h.dead sg tab ht hsg).resolve_left hz

lemma Kept.flush (h : Kept s) : Kept (s.flushDeferred false) := by
  obtain ⟨built, tables, heq, htab⟩ := exists_flush s
  rw [heq]
  refine ⟨h.keep, List.forall_mem_nil _, fun sg tab ht => ?_⟩
  simp only [htab] at ht
  split_ifs at ht with hc hz
  · obtain rfl := Option.some.inj ht
    obtain ⟨ts, hts⟩ := Option.ne_none_iff_exists'.mp (h.pending sg hc.2.1)
    refine ⟨⟨ts, hts, h.keep sg ts hts⟩, fun r hr hne => ?_⟩
    obtain hr | hr := List.mem_append.mp hr
    · exact windowRows_mem hr
    · exact absurd (congrArg Prod.snd (List.eq_of_mem_replicate hr)) hne
  · obtain ⟨t, hold, rfl⟩ := Option.map_eq_some_iff.mp ht
    refine ⟨(h.table sg t hold).1, fun r hr hne => ?_⟩
    obtain ⟨r', -, rfl⟩ := List.mem_map.mp hr
    exact absurd rfl hne
  · rw [Option.map_id'] at ht
    exact h.table sg tab ht

/-! ## Records -/

/-- The condition on a record, for the signatures of its windows. -/
def RecordOk (s : Recorder) (key : Key) (got : List Sig) : Prop :=
  match s.schedules key with
  | none => ∀ sg ∈ got, s.tables sg ≠ none → s.Scheduled sg
  | some old => old ≠ got → ∀ sg ∈ old, s.tables sg = none → s.windowRows sg ≠ [] →
    ∃ k sch, s.schedules k = some sch ∧ k ∉ s.unstable ∧ k ≠ key ∧ sg ∈ sch

variable {key : Key} {got : List Sig}

/-- A key becomes known. -/
lemma Inv.learn (h : Inv s) (hnew : s.schedules key = none)
    (hok : ∀ sg ∈ got, s.tables sg ≠ none → s.Scheduled sg) :
    Inv { s with
      known := s.known ++ [key]
      schedules := Function.update s.schedules key (some got)
      pending := s.pending ++ got.filter fun sg => (s.tables sg).isNone } := by
  have hkey : key ∉ s.unstable := fun hk => h.unstable key hk hnew
  have hiff : ∀ sg, (∃ k sch, Function.update s.schedules key (some got) k = some sch ∧ k ∉ s.unstable ∧ sg ∈ sch) ↔
      s.Scheduled sg ∨ sg ∈ got := fun sg => by
    constructor
    · rintro ⟨k, sch, hsch, hk, hsg⟩
      obtain rfl | hne := eq_or_ne k key
      · rw [Function.update_self] at hsch
        exact .inr (Option.some.inj hsch ▸ hsg)
      · rw [Function.update_of_ne hne] at hsch
        exact .inl ⟨k, sch, hsch, hk, hsg⟩
    · rintro (⟨k, sch, hsch, hk, hsg⟩ | hsg)
      · refine ⟨k, sch, ?_, hk, hsg⟩
        rw [Function.update_of_ne, hsch]
        rintro rfl
        rw [hnew] at hsch
        cases hsch
      · exact ⟨key, got, Function.update_self _ _ _, hkey, hsg⟩
  refine ⟨fun k sch hsch => ?_, fun k hk => ?_, fun sg hsg hrows => ?_, fun sg tab ht hsg => ?_, fun sg hsg => ?_,
    fun sg hsg => ?_⟩
  · obtain rfl | hne := eq_or_ne k key
    · exact List.mem_append_right _ List.mem_cons_self
    · exact List.mem_append_left _ (h.known k sch ((Function.update_of_ne hne _ _).symm.trans hsch))
  · obtain rfl | hne := eq_or_ne k key
    · exact absurd hk hkey
    · exact fun hn => h.unstable k hk ((Function.update_of_ne hne _ _).symm.trans hn)
  · obtain hold | hgot := (hiff sg).mp hsg
    · exact (h.window sg hold hrows).imp (List.mem_append_left _) fun hw => hw
    · by_cases hnone : s.tables sg = none
      · refine .inl (List.mem_append_right _ (List.mem_filter.mpr ⟨hgot, ?_⟩))
        exact Option.isNone_iff_eq_none.mpr hnone
      · exact (h.window sg (hok sg hgot hnone) hrows).imp (List.mem_append_left _) fun hw => hw
  · exact h.dead sg tab ht fun hold => hsg ((hiff sg).mpr (.inl hold))
  · obtain hsg | hsg := List.mem_append.mp hsg
    · obtain ⟨hnone, hp⟩ := h.pending sg hsg
      exact ⟨hnone, hp.imp (fun hold => (hiff sg).mpr (.inl hold)) fun hw => hw⟩
    · obtain ⟨hgot, hnone⟩ := List.mem_filter.mp hsg
      exact ⟨Option.isNone_iff_eq_none.mp hnone, .inl ((hiff sg).mpr (.inr hgot))⟩
  · obtain ⟨hsome, hdead⟩ := h.zero sg hsg
    refine ⟨hsome, fun hnow => ?_⟩
    obtain hold | hgot := (hiff sg).mp hnow
    · exact hdead hold
    · exact hdead (hok sg hgot hsome)

/-- A key turns unstable. -/
lemma Inv.unlearn (h : Inv s) {old : List Sig} (hold : s.schedules key = some old)
    (hok : ∀ sg ∈ old, s.tables sg = none → s.windowRows sg ≠ [] →
      ∃ k sch, s.schedules k = some sch ∧ k ∉ s.unstable ∧ k ≠ key ∧ sg ∈ sch) :
    let s' := { s with unstable := s.unstable ++ [key] }
    Inv { s' with zero := s'.zero ++ old.filter fun sg => (s'.tables sg).isSome && !s'.live.contains sg } := by
  intro s'
  have hdown : ∀ sg, s'.Scheduled sg → s.Scheduled sg := by
    rintro sg ⟨k, sch, hsch, hk, hsg⟩
    exact ⟨k, sch, hsch, fun hmem => hk (List.mem_append_left _ hmem), hsg⟩
  have hup : ∀ sg, s.Scheduled sg → s'.Scheduled sg ∨ sg ∈ old := by
    rintro sg ⟨k, sch, hsch, hk, hsg⟩
    obtain rfl | hne := eq_or_ne k key
    · rw [hold] at hsch
      exact .inr (Option.some.inj hsch ▸ hsg)
    · refine .inl ⟨k, sch, hsch, fun hmem => ?_, hsg⟩
      obtain hmem | hmem := List.mem_append.mp hmem
      · exact hk hmem
      · exact hne (List.mem_singleton.mp hmem)
  have hlive : ∀ sg, sg ∈ s'.live ↔ s'.Scheduled sg := fun sg => mem_live h.known
  have hzero : ∀ sg, sg ∈ old.filter (fun sg => (s'.tables sg).isSome && !s'.live.contains sg) ↔
      sg ∈ old ∧ s.tables sg ≠ none ∧ ¬s'.Scheduled sg := fun sg => by
    rw [List.mem_filter, Bool.and_eq_true, Option.isSome_iff_ne_none, Bool.not_eq_true', ← Bool.not_eq_true,
      List.contains_iff_mem, hlive]
  refine ⟨h.known, fun k hk => ?_, fun sg hsg hrows => ?_, fun sg tab ht hsg => ?_, fun sg hsg => ?_, fun sg hsg => ?_⟩
  · obtain hk | hk := List.mem_append.mp hk
    · exact h.unstable k hk
    · rw [List.mem_singleton.mp hk, hold]
      exact Option.some_ne_none old
  · obtain hp | ⟨hz, htab⟩ := h.window sg (hdown sg hsg) hrows
    · exact .inl hp
    · refine .inr ⟨fun hmem => ?_, htab⟩
      obtain hmem | hmem := List.mem_append.mp hmem
      · exact hz hmem
      · exact ((hzero sg).mp hmem).2.2 hsg
  · by_cases hbefore : s.Scheduled sg
    · obtain hnow | hmem := hup sg hbefore
      · exact absurd hnow hsg
      · refine .inl (List.mem_append_right _ ((hzero sg).mpr ⟨hmem, ?_, hsg⟩))
        rw [show s.tables sg = some tab from ht]
        exact Option.some_ne_none tab
    · exact (h.dead sg tab ht hbefore).imp (List.mem_append_left _) fun hd => hd
  · obtain ⟨hnone, hp⟩ := h.pending sg hsg
    refine ⟨hnone, ?_⟩
    obtain hbefore | hrows := hp
    · obtain hnow | hmem := hup sg hbefore
      · exact .inl hnow
      · by_cases hrows : s.windowRows sg = []
        · exact .inr hrows
        · obtain ⟨k, sch, hsch, hk, hne, hin⟩ := hok sg hmem hnone hrows
          refine .inl ⟨k, sch, hsch, fun hmem => ?_, hin⟩
          obtain hmem | hmem := List.mem_append.mp hmem
          · exact hk hmem
          · exact hne (List.mem_singleton.mp hmem)
    · exact .inr hrows
  · obtain hsg | hsg := List.mem_append.mp hsg
    · obtain ⟨hsome, hdead⟩ := h.zero sg hsg
      exact ⟨hsome, fun hnow => hdead (hdown sg hnow)⟩
    · exact ((hzero sg).mp hsg).2

lemma Inv.record (h : Inv s) (hok : RecordOk s key got) : Inv (s.record key got) := by
  unfold Recorder.record
  unfold RecordOk at hok
  split
  case h_1 hnone =>
    rw [hnone] at hok
    exact h.learn hnone hok
  case h_2 old hold =>
    rw [hold] at hok
    split_ifs with heq
    · exact h
    · exact h.unlearn hold (hok heq)

lemma Kept.record (h : Kept s) (hgot : ∀ sg ∈ got, s.keep sg ≠ none) : Kept (s.record key got) := by
  unfold Recorder.record
  split
  case h_1 =>
    refine ⟨h.keep, fun sg hsg => ?_, h.table⟩
    obtain hsg | hsg := List.mem_append.mp hsg
    · exact h.pending sg hsg
    · exact hgot sg (List.mem_filter.mp hsg).1
  case h_2 =>
    split_ifs
    · exact h
    · exact ⟨h.keep, h.pending, h.table⟩

/-! ## Runs -/

/-- The invariant does not read the current record. -/
lemma Inv.withCur (h : Inv s) (cur : Option Cur) : Inv { s with cur := cur } :=
  ⟨h.known, h.unstable, h.window, h.dead, h.pending, h.zero⟩

lemma Kept.withCur (h : Kept s) (cur : Option Cur) : Kept { s with cur := cur } := ⟨h.keep, h.pending, h.table⟩

/-- What holds while the recorder is not disabled. -/
def Sound (s : Recorder) : Prop := s.off = false → Inv s ∧ Kept s

lemma off_flush (s : Recorder) (capturing : Bool) : (s.flushDeferred capturing).off = s.off := by
  cases capturing
  · obtain ⟨built, tables, heq, -⟩ := exists_flush s
    rw [heq]
  · rfl

lemma Sound.flush (h : Sound s) (capturing : Bool) : Sound (s.flushDeferred capturing) := by
  intro hoff
  rw [off_flush] at hoff
  cases capturing
  · exact ⟨(h hoff).1.flush, (h hoff).2.flush⟩
  · exact h hoff

lemma Sound.withCur (h : Sound s) (cur : Option Cur) : Sound { s with cur := cur } := fun hoff =>
  ⟨(h hoff).1.withCur cur, (h hoff).2.withCur cur⟩

lemma off_record (s : Recorder) (key : Key) (got : List Sig) : (s.record key got).off = s.off := by
  unfold Recorder.record
  split
  · rfl
  · split_ifs <;> rfl

/-- The end of a forward. -/
lemma Sound.rootPost (h : Sound s) {capturing : Bool} (hok : Meets s (.post capturing)) :
    Sound (s.rootPost capturing) := by
  unfold Recorder.rootPost
  split
  case h_1 => exact h.withCur none
  case h_2 cur hcur =>
    dsimp only
    split_ifs with hskip
    · exact h.withCur none
    · refine Sound.flush (fun hoff => ?_) capturing
      obtain ⟨keep, heq, hsig, hold, hnew⟩ := exists_keepWindows { s with cur := none } cur.windows
      rw [heq, off_record] at hoff
      obtain ⟨hinv, hkept⟩ := h hoff
      rw [heq]
      have hrec : cur.recording = true := by
        by_contra hno
        exact hskip (.inr hno)
      refine ⟨Inv.record ?_ ?_, Kept.record ?_ fun sg hsg => ?_⟩
      · exact ⟨hinv.known, hinv.unstable, hinv.window, hinv.dead, hinv.pending, hinv.zero⟩
      · exact hok cur hcur hrec hoff
      · refine ⟨fun sg ts hts => ?_, fun sg hsg => hold sg (hkept.pending sg hsg), hkept.table⟩
        exact (hsig sg ts hts).elim (hkept.keep sg ts) fun e => e
      · obtain ⟨w, hw, rfl⟩ := List.mem_map.mp hsg
        exact hnew w hw

lemma Sound.step (h : Sound s) {e : Event} (hok : Meets s e) : Sound (s.step e) := by
  cases e with
  | pre root toks capturing =>
    have hflush := h.flush capturing
    simp only [Recorder.step, rootPre]
    split
    · exact hflush.withCur none
    · split_ifs
      · exact hflush.withCur none
      · exact hflush.withCur _
  | collect ts =>
    simp only [Recorder.step, collect]
    split
    · exact h
    · split_ifs
      · exact h.withCur _
      · exact h
  | ar =>
    simp only [Recorder.step, onAr]
    split
    · exact h
    · split_ifs <;> exact h.withCur _
  | post capturing => exact h.rootPost hok
  | disable =>
    simp only [Recorder.step, disable]
    split_ifs
    · exact h
    · intro hoff
      cases hoff

lemma sound_init (budget : ℤ) (device : ℕ) : Sound (init budget device) := by
  have hnone : ∀ sg, ¬(init budget device).Scheduled sg := by
    rintro sg ⟨k, sch, hsch, -⟩
    cases hsch
  refine fun _ => ⟨⟨fun k sch h => ?_, List.forall_mem_nil _, fun sg h => absurd h (hnone sg), fun sg tab h => ?_,
    List.forall_mem_nil _, List.forall_mem_nil _⟩, fun sg ts h => ?_, List.forall_mem_nil _, fun sg tab h => ?_⟩ <;>
    cases h

lemma Sound.run {evs : List Event} (h : Sound s) (hok : AllMeet s evs) : Sound (s.run evs) := by
  induction evs generalizing s with
  | nil => exact h
  | cons e evs ih => exact ih (h.step hok.1) hok.2

/-! ## What the tables are -/

/-- The invariants say what they should where nothing is deferred. -/
lemma Sound.good (h : Sound s) (hoff : s.off = false) (hpending : s.pending = []) (hzero : s.zero = []) : Good s := by
  obtain ⟨hinv, hkept⟩ := h hoff
  refine ⟨fun sg hsg hrows => ?_, fun sg tab ht hsg => ?_, fun sg tab ht r hr hne => ?_⟩
  · obtain hp | ⟨-, htab⟩ := hinv.window sg hsg hrows
    · rw [hpending] at hp
      cases hp
    · exact htab
  · refine (hinv.dead sg tab ht hsg).resolve_left fun hz => ?_
    rw [hzero] at hz
    cases hz
  · obtain ⟨⟨ts, hts, hsig⟩, hin⟩ := hkept.table sg tab ht
    obtain ⟨sp, hsp, hin⟩ := hin r hr hne
    obtain ⟨t, ht, hspan⟩ := mem_sigOf (hsig ▸ hsp)
    exact ⟨ts, hts, t, ht, sp, hspan, hin⟩

/-- Nothing is deferred behind a flush outside of a capture. -/
lemma flush_settled (s : Recorder) : (s.flushDeferred false).pending = [] ∧ (s.flushDeferred false).zero = [] := by
  obtain ⟨built, tables, heq, -⟩ := exists_flush s
  rw [heq]
  exact ⟨rfl, rfl⟩

/-- An event inside of a forward. -/
def InForward : Event → Prop
  | .collect _ => True
  | .ar => True
  | _ => False

/-- An all-reduce. -/
def isAr : Event → Bool
  | .ar => true
  | _ => false

/-- Inside of a forward the plan stays, and the closed windows count the all-reduces. -/
lemma run_forward {cur : Cur} {mids : List Event} (hcur : s.cur = some cur) (hmids : ∀ e ∈ mids, InForward e) :
    ∃ cur', s.run mids = { s with cur := some cur' } ∧ cur'.key = cur.key ∧ cur'.plan = cur.plan ∧
      cur'.closed.length = cur.closed.length + mids.countP isAr := by
  induction mids generalizing s cur with
  | nil => exact ⟨cur, by rw [← hcur]; rfl, rfl, rfl, rfl⟩
  | cons e mids ih =>
    have hmids' := fun e' he' => hmids e' (List.mem_cons_of_mem e he')
    obtain ⟨cur₁, heq₁, hkey₁, hplan₁, hlen₁⟩ : ∃ cur₁, s.step e = { s with cur := some cur₁ } ∧ cur₁.key = cur.key ∧
        cur₁.plan = cur.plan ∧ cur₁.closed.length = cur.closed.length + if isAr e then 1 else 0 := by
      cases e with
      | collect ts =>
        change ∃ cur₁, s.collect ts = _ ∧ _ ∧ _ ∧ _ = cur.closed.length + 0
        simp only [collect, hcur]
        split_ifs
        · exact ⟨_, rfl, rfl, rfl, rfl⟩
        · exact ⟨cur, by rw [← hcur], rfl, rfl, rfl⟩
      | ar =>
        refine ⟨{ cur with closed := cur.closed ++ [cur.last], last := [] }, ?_, rfl, rfl, by simp [isAr]⟩
        simp only [Recorder.step, onAr, hcur]
        split_ifs <;> rfl
      | pre => exact absurd (hmids _ List.mem_cons_self) id
      | post => exact absurd (hmids _ List.mem_cons_self) id
      | disable => exact absurd (hmids _ List.mem_cons_self) id
    obtain ⟨cur', heq, hkey, hplan, hlen⟩ := @ih { s with cur := some cur₁ } cur₁ rfl hmids'
    refine ⟨cur', ?_, hkey.trans hkey₁, hplan.trans hplan₁, ?_⟩
    · change (s.step e).run mids = _
      rw [heq₁, heq]
    · rw [hlen, hlen₁, List.countP_cons]
      omega

/-- The rows for an all-reduce are those of the window that the key has in its place. -/
lemma onAr_rows (s : Recorder) (root n : ℕ) (capturing : Bool) {mids : List Event} (hmids : ∀ e ∈ mids, InForward e)
    {rows : List Span} (hrows : ((s.rootPre root (some n) capturing).run mids).onAr.2 = some rows) :
    ∃ sch sg tab, ((s.rootPre root (some n) capturing).run mids).schedules (root, n) = some sch ∧
      sch[mids.countP isAr]? = some sg ∧ ((s.rootPre root (some n) capturing).run mids).tables sg = some tab ∧
      rows = tab.rows := by
  have hpre : ∃ s₁ : Recorder, s.rootPre root (some n) capturing = { s₁ with cur := none } ∨
      ∃ recording, s.rootPre root (some n) capturing =
        { s₁ with cur := some ⟨(root, n), s₁.schedules (root, n), [], [], recording⟩ } := by
    refine ⟨s.flushDeferred capturing, ?_⟩
    simp only [rootPre]
    split_ifs
    · exact .inl rfl
    · exact .inr ⟨_, rfl⟩
  obtain ⟨s₁, hpre | ⟨recording, hpre⟩⟩ := hpre
  · -- without a record there are no rows
    rw [hpre] at hrows
    have hnone : ∀ mids : List Event, (∀ e ∈ mids, InForward e) →
        run { s₁ with cur := none } mids = { s₁ with cur := none } := fun mids hmids => by
      induction mids with
      | nil => rfl
      | cons e mids ih =>
        have ih := ih fun e' he' => hmids e' (List.mem_cons_of_mem e he')
        cases e with
        | collect => exact ih
        | ar => exact ih
        | pre => exact absurd (hmids _ List.mem_cons_self) id
        | post => exact absurd (hmids _ List.mem_cons_self) id
        | disable => exact absurd (hmids _ List.mem_cons_self) id
    rw [hnone mids hmids] at hrows
    cases hrows
  · rw [hpre] at hrows ⊢
    obtain ⟨cur', heq, -, hplan, hlen⟩ := @run_forward
      { s₁ with cur := some ⟨(root, n), s₁.schedules (root, n), [], [], recording⟩ } _ mids rfl hmids
    rw [heq] at hrows ⊢
    simp only [onAr] at hrows
    split_ifs at hrows
    simp only [Option.bind_eq_bind, Option.bind_eq_some_iff, Option.some.injEq] at hrows
    obtain ⟨sch, hsch, sg, hsg, tab, htab, rfl⟩ := hrows
    refine ⟨sch, sg, tab, hplan.symm.trans hsch, ?_, htab, rfl⟩
    rwa [hlen, List.length_nil, Nat.zero_add] at hsg

/-- In a run whose records meet the condition, the tables follow the stable keys wherever nothing is deferred, and an
all-reduce gets the rows of its own window. -/
theorem tables_follow (budget : ℤ) (device : ℕ) {evs : List Event} (hok : AllMeet (init budget device) evs) :
    let s := (init budget device).run evs
    (s.off = false → s.pending = [] → s.zero = [] → Good s) ∧
      ∀ root n capturing mids rows, (∀ e ∈ mids, InForward e) →
        let s' := (s.rootPre root (some n) capturing).run mids
        s'.onAr.2 = some rows → ∃ sch sg tab, s'.schedules (root, n) = some sch ∧
          sch[mids.countP isAr]? = some sg ∧ s'.tables sg = some tab ∧ rows = tab.rows := by
  intro s
  refine ⟨fun hoff hpending hzero => ?_, fun root n capturing mids rows hmids hrows => ?_⟩
  · exact ((sound_init budget device).run hok).good hoff hpending hzero
  · exact onAr_rows s root n capturing hmids hrows

/-- A tensor of one page. -/
def sharedWindow : Tensor := ⟨0, [1024], [1], 4, 65536, 65536, 4096⟩

/-- The window is learned for `(1, 6)`, which turns unstable inside of a capture, and is learned again for `(1, 7)`. -/
def relearned : List Event :=
  [.pre 1 (some 6) false, .ar, .collect [sharedWindow], .post false,
    .pre 1 (some 6) true, .ar, .post true,
    .pre 1 (some 7) false, .ar, .collect [sharedWindow], .post false]

/-- A run with a capture of an unchanged schedule. -/
theorem tables_follow_captured :
    let evs : List Event := [.pre 1 (some 6) false, .ar, .collect [sharedWindow], .post false,
      .pre 1 (some 6) true, .ar, .collect [sharedWindow], .post true, .pre 1 none false]
    AllMeet (init 4096 0) evs ∧ ((init 4096 0).run evs).Scheduled [(65536, 4096)] ∧ Good ((init 4096 0).run evs) := by
  intro evs
  have hok : AllMeet (init 4096 0) evs := by
    refine ⟨trivial, trivial, trivial, ?_, trivial, trivial, trivial, ?_, trivial, trivial⟩
    · rintro cur hcur - -
      obtain rfl := Option.some.inj hcur
      exact fun sg _ h => absurd rfl h
    · rintro cur hcur - -
      obtain rfl := Option.some.inj hcur
      exact fun h => absurd (by decide) h
  refine ⟨hok, ⟨(1, 6), [[(65536, 4096)]], by decide, by decide, List.mem_cons_self⟩, ?_⟩
  exact (tables_follow 4096 0 hok).1 (by decide) (by decide) (by decide)

/-- The table of a stable key's window has only zero rows. -/
theorem relearned_stays_zero :
    let s := (init 4096 0).run relearned
    s.off = false ∧ s.pending = [] ∧ s.zero = [] ∧ s.Scheduled [(65536, 4096)] ∧ ¬Good s := by
  intro s
  have hsg : s.Scheduled [(65536, 4096)] :=
    ⟨(1, 7), [[(65536, 4096)]], by decide, by decide, List.mem_cons_self⟩
  refine ⟨by decide, by decide, by decide, hsg, fun h => ?_⟩
  obtain ⟨tab, htab, hrows⟩ := h.window _ hsg (by decide)
  have hzero : s.tables [(65536, 4096)] =
      some ⟨(65536, 0) :: List.replicate 15 (0, 0), some [sharedWindow]⟩ := by decide
  rw [hzero] at htab
  obtain rfl := Option.some.inj htab
  revert hrows
  decide

end SuffixHybrid.Prefetch.Recorder
