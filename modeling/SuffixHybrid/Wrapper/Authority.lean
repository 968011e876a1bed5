import SuffixHybrid.Mixer.History
import SuffixHybrid.Wrapper.Mirror
import SuffixHybrid.Wrapper.Positions

/-!
# The rows of the mirror

A request has an authoritative row, to which the engine only appends, and a mirror row, which is to be a
prefix of it. The mirror row is seeded from the authoritative row and extended from a staged window up to a
staged count. In the legacy split the two copies are those of an earlier step, and the extended row is a
prefix if they have met the same row (`prepared_row`). Under the divergence split they are those of the
step itself, and what the mix reads is the authoritative row (`drained_row`). `Hands` is what the two modes
have in common.
-/

namespace SuffixHybrid
open Lib

/-! ## The authoritative rows -/

/-- The authoritative rows: all tokens of a request, and how many of them there are in a step. -/
structure Authority where
  tokens : ReqId → List Token
  total : ℕ → ReqId → ℕ
  mono : ∀ id, Monotone fun u => total u id

namespace Authority

/-- The row of a request in a step. -/
def row (a : Authority) (u : ℕ) (id : ReqId) : List Token := (a.tokens id).take (a.total u id)

/-- The first tokens of the row of a request in a step. -/
def Mirrors (a : Authority) (u : ℕ) (id : ReqId) (row : List Token) : Prop :=
  ∃ n ≤ a.total u id, row = (a.tokens id).take n

section
variable {a : Authority} {u v : ℕ} {id : ReqId} {row row' : List Token}

lemma mirrors_iff : a.Mirrors u id row ↔ row <+: a.tokens id ∧ row.length ≤ a.total u id := by
  constructor
  · rintro ⟨n, hn, rfl⟩
    exact ⟨List.take_prefix _ _, (List.length_take_le _ _).trans hn⟩
  · rintro ⟨hpre, hlen⟩
    exact ⟨row.length, hlen, List.prefix_iff_eq_take.mp hpre⟩

/-- Rows grow. -/
lemma Mirrors.mono (h : a.Mirrors u id row) (huv : u ≤ v) : a.Mirrors v id row := by
  obtain ⟨n, hn, hrow⟩ := h
  exact ⟨n, hn.trans (a.mono id huv), hrow⟩

/-- Of two prefixes of a row, the shorter one is a prefix of the longer one. -/
lemma Mirrors.isPrefix (h : a.Mirrors u id row) (h' : a.Mirrors v id row')
    (hlen : row.length ≤ row'.length) : row <+: row' :=
  List.prefix_of_prefix_length_le (mirrors_iff.mp h).1 (mirrors_iff.mp h').1 hlen

/-- A prefix of a row is one of the whole row. -/
lemma Mirrors.isPrefix_row (h : a.Mirrors u id row) : row <+: a.row u id := by
  obtain ⟨n, hn, rfl⟩ := h
  exact List.take_prefix_take_left hn

lemma mirrors_row (a : Authority) (u : ℕ) (id : ReqId) : a.Mirrors u id (a.row u id) :=
  ⟨_, le_rfl, rfl⟩

end
end Authority

/-- A row of the device holds the row of a request in a step. -/
structure DevRow.Shows (r : DevRow) (a : Authority) (u : ℕ) (id : ReqId) : Prop where
  total : r.total = a.total u id
  fits : r.total ≤ r.tokens.length
  live : r.live = a.row u id

namespace Device

/-- The step finds the authoritative rows on the device: those of the batch in their slots, and in a slot
that belongs to a request the row of that request. -/
structure Faithful (a : Authority) (d : Device) (x : Tick) : Prop where
  nodup : x.ids.Nodup
  owned : ∀ r ∈ x.batch, (x.mem r.slot).owner = some r.id
  shows : ∀ j id, (x.mem j).owner = some id → (x.mem j).Shows a d.time id

/-- The drafts are `K` wide, and no mirrored request has more than `K` drafts and one token anew since the
last step. -/
structure Paced (K : ℕ) (a : Authority) (d : Device) (x : Tick) : Prop where
  width : x.k = K
  grows : ∀ id row, d.wrapper.mirror.lookup id = some row →
    a.total d.time id ≤ a.total (d.time - 1) id + (K + 1)

/-- Wherever the absorb of a step of the legacy split extends the mirror row of a request of the batch, the
copy of the window has found the row of that request, with as many tokens as the copy of the count has
found. -/
def Calm (cfg : WrapSettings) (d : Device) (x : Tick) : Prop :=
  cfg.splitDiverge = false → d.stages cfg x = true → ∀ c ∈ d.synchronized x, c.id ∈ x.ids →
    ∀ window count, c.windowRow = some window → c.countRow = some count →
      c.start < count.total → count.total ≤ c.start + d.wrapper.w →
        window.owner = some c.id ∧ count.total ≤ window.total

/-- The absorb drops the mirror row of a copy: the staged count is zero, or beyond the window. -/
def Drops (d : Device) (c : Copy) (count : DevRow) : Prop :=
  count.total = 0 ∨ c.start + d.wrapper.w < count.total

/-! ## The invariant -/

/-- In the legacy split the copies under way are those of the mirrored requests, from the ends of their
mirror rows. -/
structure Staged (d : Device) : Prop where
  pending : d.wrapper.pending.getD [] = d.copies.map (·.id)
  nodup : (d.copies.map (·.id)).Nodup
  copied : ∀ id row, d.wrapper.mirror.lookup id = some row → id ∈ d.copies.map (·.id)
  starts : ∀ c ∈ d.copies, ∃ row, d.wrapper.mirror.lookup c.id = some row ∧ c.start = row.length

/-- Under the divergence split nothing is under way, the window is wide enough for a step, and the mirror
rows are those of the last step. -/
structure UpToDate (K : ℕ) (a : Authority) (d : Device) : Prop where
  pending : d.wrapper.pending = none
  window : d.wrapper.w = 0 ∨ K + 1 ≤ d.wrapper.w
  rows : d.wrapper.fallback = false → ∀ id row, d.wrapper.mirror.lookup id = some row →
    a.total (d.time - 1) id ≤ row.length

/-- The mirror rows, the rows that the copies have found and, as long as the fast body runs, the contexts
of the mixer are prefixes of the authoritative rows, and the mixer is not ahead of the mirror. -/
structure Mirrored (cfg : WrapSettings) (K : ℕ) (a : Authority) (d : Device) : Prop where
  enqueued : d.enqueued ≤ d.time
  legacy : cfg.splitDiverge = false → d.Staged
  diverge : cfg.splitDiverge = true → d.UpToDate K a
  rows : ∀ id row, d.wrapper.mirror.lookup id = some row → a.Mirrors d.time id row
  landed : ∀ c ∈ d.copies, ∀ row, c.windowRow = some row ∨ c.countRow = some row →
    row.owner = some c.id → ∃ u, d.enqueued ≤ u ∧ u < d.time ∧ row.Shows a u c.id
  mixer : d.wrapper.mixer.Inv
  tracked : d.wrapper.fallback = false → ∀ id p, d.wrapper.mixer.previous.lookup id = some p →
    a.Mirrors d.time id p.context ∧
      ∀ row, d.wrapper.mirror.lookup id = some row → p.context.length ≤ row.length

section rows
variable {cfg : WrapSettings} {K : ℕ} {a : Authority} {d : Device} {x : Tick} {id : ReqId}

lemma step_ids (d : Device) (x : Tick) : (d.step x).ids = x.ids := by
  simp [Step.ids, step, Tick.ids]

/-- What a copy has found when it arrives. -/
lemma land_windowRow {mem : ℕ → DevRow} {arrives : Bool × Bool} {c : Copy} {row : DevRow}
    (h : (c.land mem arrives).windowRow = some row ∨ (c.land mem arrives).countRow = some row) :
    (c.windowRow = some row ∨ c.countRow = some row) ∨ row = mem c.slot := by
  have hget (o : Option DevRow) (b : Bool)
      (h : (if b then some (o.getD (mem c.slot)) else o) = some row) : o = some row ∨ row = mem c.slot := by
    split at h
    case isTrue =>
      cases o with
      | none => exact Or.inr (Option.some.inj h).symm
      | some row' => exact Or.inl h
    case isFalse => exact Or.inl h
  rcases h with hwindow | hcount
  · rcases hget c.windowRow arrives.1 hwindow with hold | hnow
    · exact Or.inl (Or.inl hold)
    · exact Or.inr hnow
  · rcases hget c.countRow arrives.2 hcount with hold | hnow
    · exact Or.inl (Or.inr hold)
    · exact Or.inr hnow

/-- A row that a copy has found after its arrival shows its request. -/
lemma Mirrored.shows (h : d.Mirrored cfg K a) (hx : d.Faithful a x) {c : Copy} (hc : c ∈ d.copies)
    {arrives : Bool × Bool} {row : DevRow}
    (hrow : (c.land x.mem arrives).windowRow = some row ∨ (c.land x.mem arrives).countRow = some row)
    (howner : row.owner = some c.id) : ∃ u, d.enqueued ≤ u ∧ u ≤ d.time ∧ row.Shows a u c.id := by
  rcases land_windowRow hrow with hold | hnow
  · obtain ⟨u, hle, hlt, hshows⟩ := h.landed c hc row hold howner
    exact ⟨u, hle, hlt.le, hshows⟩
  · subst hnow
    exact ⟨d.time, h.enqueued, le_rfl, hx.shows c.slot c.id howner⟩

/-- The position of a copy in the staging buffers. -/
lemma getElem?_idxOf (hnodup : (d.copies.map (·.id)).Nodup) {c : Copy} (hc : c ∈ d.copies) :
    d.copies[(d.copies.map (·.id)).idxOf c.id]? = some c := by
  obtain ⟨i, hi, rfl⟩ := List.getElem_of_mem hc
  have hlen : i < (d.copies.map (·.id)).length := by rwa [List.length_map]
  have hindex := hnodup.idxOf_getElem i hlen
  rw [List.getElem_map] at hindex
  rw [hindex, List.getElem?_eq_getElem hi]

/-- What an absorb makes of the mirror row of a request, copy by copy. -/
lemma Staged.lookup_onEntry (h : d.Staged) {row : List Token} (hrow : d.wrapper.mirror.lookup id = some row) :
    ∃ c ∈ d.synchronized x, ∃ window count, c.id = id ∧ c.start = row.length ∧
      c.windowRow = some window ∧ c.countRow = some count ∧
      (d.wrapper.absorbPending (d.onEntry x)).mirror.lookup id
        = Wrapper.absorbed d.wrapper.w count.total
          (fun k => (windowSlice d.wrapper.w window.tokens row.length)[k]?.getD
            (d.buffers.tail ((d.copies.map (·.id)).idxOf id) k)) row := by
  obtain ⟨c, hc, rfl⟩ := List.mem_map.mp (h.copied id row hrow)
  obtain ⟨row', hrow', hstart⟩ := h.starts c hc
  obtain rfl : row = row' := Option.some.inj (hrow.symm.trans hrow')
  have hsync : (d.synchronized x)[(d.copies.map (·.id)).idxOf c.id]? = some (c.land x.mem (true, true)) := by
    rw [synchronized, List.getElem?_map, getElem?_idxOf h.nodup hc, Option.map_some]
  refine ⟨c.land x.mem (true, true), List.mem_map_of_mem hc, c.windowRow.getD (x.mem c.slot),
    c.countRow.getD (x.mem c.slot), rfl, hstart, rfl, rfl, ?_⟩
  rw [Wrapper.lookup_absorbPending (by rw [h.pending]; exact h.nodup), h.pending,
    if_pos (List.mem_map_of_mem hc), hrow, Option.bind_some, onEntry]
  simp only [hsync]
  congr 1
  funext k
  rw [← hstart]
  rfl

/-- The seed of a request is its row. -/
lemma find?_seed (hx : d.Faithful a x) (hid : id ∈ x.ids) :
    ((d.step x).batch.find? fun r => r.id = id).map (fun r => r.tokens.take r.total)
      = some (a.row d.time id) := by
  obtain ⟨r, hr, rfl⟩ := List.mem_map.mp hid
  have hsome : ((d.step x).batch.find? fun r' => r'.id = r.id).isSome := by
    rw [List.find?_isSome]
    exact ⟨_, List.mem_map_of_mem hr, by simp⟩
  obtain ⟨b, hb⟩ := Option.isSome_iff_exists.mp hsome
  obtain ⟨r', hr', rfl⟩ := List.mem_map.mp (List.mem_of_find?_eq_some hb)
  have heq : r'.id = r.id := by simpa using List.find?_some hb
  rw [hb, Option.map_some]
  have hshows := hx.shows r'.slot r'.id (hx.owned r' hr')
  rw [← heq, ← hshows.live]
  rfl

/-- The tokens of a request of the batch are as many as the device says. -/
lemma Faithful.length_row (hx : d.Faithful a x) (hid : id ∈ x.ids) {u : ℕ} (hu : u ≤ d.time) :
    (a.row u id).length = a.total u id := by
  obtain ⟨r, hr, rfl⟩ := List.mem_map.mp hid
  have hshows := hx.shows r.slot r.id (hx.owned r hr)
  have hlen : (a.row d.time r.id).length = a.total d.time r.id := by
    rw [← hshows.live, ← hshows.total]
    exact List.length_take_of_le hshows.fits
  have htokens : a.total d.time r.id ≤ (a.tokens r.id).length := by
    rw [← hlen]
    exact List.length_take_le' _ _
  exact List.length_take_of_le ((a.mono r.id hu).trans htokens)

/-- How the mirror row of a request of the batch comes about: it is seeded, or the absorb has kept it or
extended it up to the staged count. -/
inductive Refreshed (a : Authority) (d : Device) (x : Tick) (id : ReqId) : List Token → Prop
  | seeded : (∀ c ∈ d.synchronized x, c.id = id → ∀ count, c.countRow = some count → d.Drops c count) →
      Refreshed a d x id (a.row d.time id)
  | absorbed {row row' : List Token} {c : Copy} {count : DevRow} :
      d.wrapper.mirror.lookup id = some row → c ∈ d.synchronized x → c.id = id → c.start = row.length →
      c.countRow = some count → ¬ d.Drops c count → row'.length = max row.length count.total →
      Refreshed a d x id row'

/-- A request has one copy. -/
lemma Staged.copy_unique (h : d.Staged) {c c' : Copy} (hc : c ∈ d.synchronized x)
    (hc' : c' ∈ d.synchronized x) (hid : c.id = c'.id) : c = c' := by
  have hnodup : ((d.synchronized x).map (·.id)).Nodup := by
    rw [synchronized, List.map_map]
    exact h.nodup
  exact List.inj_on_of_nodup_map hnodup hc hc' hid

/-- A mirror row is extended from a window that shows at least the tokens counted. -/
lemma extended_row (hc : cfg.Async) (h : d.Mirrored cfg K a) (hx : d.Faithful a x) (hcalm : d.Calm cfg x)
    (hstages : d.stages cfg x = true) {row : List Token} {c : Copy} {window count : DevRow}
    (old : ℕ → Token) (hrow : d.wrapper.mirror.lookup c.id = some row) (hcopy : c ∈ d.synchronized x)
    (hid : c.id ∈ x.ids) (hstart : c.start = row.length) (hwindow : c.windowRow = some window)
    (hcount : c.countRow = some count) (hlt : row.length < count.total)
    (hle : count.total ≤ row.length + d.wrapper.w) :
    ∃ row', Wrapper.absorbed d.wrapper.w count.total
        (fun k => (windowSlice d.wrapper.w window.tokens row.length)[k]?.getD (old k)) row = some row' ∧
      a.Mirrors d.time c.id row' ∧ row'.length = count.total := by
  obtain ⟨howner, hshown⟩ := hcalm hc.legacy hstages c hcopy hid window count hwindow hcount
    (by rwa [hstart]) (by rwa [hstart])
  obtain ⟨c', hc', rfl⟩ := List.mem_map.mp hcopy
  obtain ⟨u, _, hu, hshows⟩ := h.shows hx hc' (Or.inl hwindow) howner
  have hlive : window.tokens.take window.total <+: a.tokens c'.id := by
    rw [show window.tokens.take window.total = a.row u c'.id from hshows.live]
    exact List.take_prefix _ _
  have htotal : window.total ≤ a.total d.time c'.id := by
    rw [hshows.total]
    exact a.mono _ hu
  have hlen : (window.tokens.take count.total).length = count.total :=
    List.length_take_of_le (hshown.trans hshows.fits)
  rw [Wrapper.absorbed_window old (Authority.mirrors_iff.mp (h.rows _ row hrow)).1 hlive hshows.fits
    hlt hshown hle]
  refine ⟨_, rfl, Authority.mirrors_iff.mpr ⟨(List.take_prefix_take_left hshown).trans hlive, ?_⟩, hlen⟩
  rw [hlen]
  exact hshown.trans htotal

/-- The mirror row of a request of the batch after the absorb and the enqueue of a step. -/
lemma prepared_row (hc : cfg.Async) (h : d.Mirrored cfg K a) (hx : d.Faithful a x) (hcalm : d.Calm cfg x)
    (hstages : d.stages cfg x = true) (hid : id ∈ x.ids) :
    ∃ row', (d.prepared cfg x).mirror.lookup id = some row' ∧ a.Mirrors d.time id row' ∧
      Refreshed a d x id row' := by
  have hs := h.legacy hc.legacy
  rw [prepared, Wrapper.lookup_prepare hc.cuda, step_ids, if_pos hid, find?_seed hx hid]
  have hseeded (hdrops : ∀ c ∈ d.synchronized x, c.id = id → ∀ count, c.countRow = some count →
      d.Drops c count) : ∃ row', ((none : Option (List Token)).or (some (a.row d.time id))) = some row' ∧
        a.Mirrors d.time id row' ∧ Refreshed a d x id row' :=
    ⟨_, rfl, a.mirrors_row d.time id, .seeded hdrops⟩
  cases hrow : d.wrapper.mirror.lookup id with
  | none =>
    have hnone : (d.wrapper.absorbPending (d.onEntry x)).mirror.lookup id = none := by
      rw [Wrapper.lookup_absorbPending (by rw [hs.pending]; exact hs.nodup), hrow]
      split <;> rfl
    rw [show (d.step x).onEntry = d.onEntry x from rfl, hnone]
    refine hseeded fun c hcopy hcid => ?_
    obtain ⟨c₀, hc₀, rfl⟩ := List.mem_map.mp hcopy
    obtain ⟨row, hrow', _⟩ := hs.starts c₀ hc₀
    rw [show c₀.id = id from hcid, hrow] at hrow'
    cases hrow'
  | some row =>
    obtain ⟨c, hcopy, window, count, hcid, hstart, hwindow, hcount, hlookup⟩ :=
      hs.lookup_onEntry (x := x) hrow
    rw [show (d.step x).onEntry = d.onEntry x from rfl, hlookup]
    rcases Wrapper.absorbed_cases d.wrapper.w count.total
      (fun k => (windowSlice d.wrapper.w window.tokens row.length)[k]?.getD
        (d.buffers.tail ((d.copies.map (·.id)).idxOf id) k)) row with
      ⟨heq, hdrops⟩ | ⟨heq, hne, hle⟩ | ⟨hlt, hle⟩
    · rw [heq]
      refine hseeded fun c' hcopy' hcid' count' hcount' => ?_
      obtain rfl : c = c' := hs.copy_unique hcopy hcopy' (hcid.trans hcid'.symm)
      obtain rfl : count = count' := Option.some.inj (hcount.symm.trans hcount')
      rwa [Drops, hstart]
    · rw [heq]
      have hkeeps : ¬ d.Drops c count := by
        rintro (hzero | hover)
        · exact hne hzero
        · omega
      exact ⟨row, rfl, h.rows id row hrow,
        .absorbed hrow hcopy hcid hstart hcount hkeeps (max_eq_left hle).symm⟩
    · subst hcid
      obtain ⟨row', heq, hmirrors, hlen⟩ :=
        extended_row hc h hx hcalm hstages _ hrow hcopy hid hstart hwindow hcount hlt hle
      have hkeeps : ¬ d.Drops c count := by
        rintro (hzero | hover) <;> omega
      rw [heq]
      refine ⟨row', rfl, hmirrors, .absorbed hrow hcopy rfl hstart hcount hkeeps ?_⟩
      rw [hlen, max_eq_right hlt.le]

/-- A prefix of the row that is not ahead of the mirror is a prefix of the refreshed mirror row. -/
lemma Refreshed.extends {row' ctx : List Token} (h : Refreshed a d x id row')
    (hrow' : a.Mirrors d.time id row') (hctx : a.Mirrors d.time id ctx)
    (hle : ∀ row, d.wrapper.mirror.lookup id = some row → ctx.length ≤ row.length) : ctx <+: row' := by
  cases h with
  | seeded _ => exact hctx.isPrefix_row
  | absorbed hrow _ _ _ _ _ hlen =>
    apply hctx.isPrefix hrow'
    rw [hlen]
    exact (hle _ hrow).trans (le_max_left _ _)

/-! ## The divergence split -/

/-- The divergence split never freezes. -/
lemma stages_of_diverge (hc : cfg.OnCuda) (hdiverge : cfg.splitDiverge = true)
    (hfallback : d.wrapper.fallback = false) : d.stages cfg x = true := by
  simp [stages, hc.owner_true, Wrapper.triesFast, hfallback, step, Wrapper.freezes, Wrapper.frozen, hdiverge]

lemma fallback_of_stages (hstages : d.stages cfg x = true) : d.wrapper.fallback = false := by
  simp only [stages, Wrapper.triesFast, Bool.and_eq_true, Bool.not_eq_true'] at hstages
  exact hstages.1.2.1

/-- With nothing under way, an enqueue leaves mirror rows from which the window reaches the end of the
authoritative row. -/
lemma UpToDate.prepared_row (hc : cfg.OnCuda) (h : d.Mirrored cfg K a) (hd : d.UpToDate K a)
    (hx : d.Faithful a x) (hpace : d.Paced K a x) (hfallback : d.wrapper.fallback = false)
    (hid : id ∈ x.ids) : ∃ row, (d.prepared cfg x).mirror.lookup id = some row ∧
      a.Mirrors d.time id row ∧ a.total d.time id ≤ row.length + (d.prepared cfg x).w := by
  have habsorb : d.wrapper.absorbPending (d.step x).onEntry = d.wrapper := by
    rw [Wrapper.absorbPending, hd.pending]
  have hw : K + 1 ≤ (d.prepared cfg x).w := by
    rw [prepared, (Wrapper.prepare_kept hc.cuda _ _).1]
    have hk : (d.step x).k = K := hpace.width
    rcases hd.window with hzero | hwide
    · rw [if_pos hzero, hk]
      omega
    · rw [if_neg (by omega)]
      exact hwide
  rw [prepared, Wrapper.lookup_prepare hc.cuda, step_ids, if_pos hid, find?_seed hx hid, habsorb]
  cases hrow : d.wrapper.mirror.lookup id with
  | none =>
    refine ⟨_, rfl, a.mirrors_row d.time id, ?_⟩
    rw [hx.length_row hid le_rfl]
    exact Nat.le_add_right _ _
  | some row =>
    have hold := hd.rows hfallback id row hrow
    have hnew := hpace.grows id row hrow
    refine ⟨row, rfl, h.rows id row hrow, ?_⟩
    change K + 1 ≤ (d.wrapper.prepare cfg (d.step x)).w at hw
    omega

/-- The position of a request in the batch. -/
lemma getElem?_batch (hx : d.Faithful a x) (hid : id ∈ x.ids) :
    ∃ r, x.batch[x.ids.idxOf id]? = some r ∧ r.id = id := by
  obtain ⟨i, hi, rfl⟩ := List.getElem_of_mem hid
  have hlen : i < x.batch.length := by rwa [Tick.ids, List.length_map] at hi
  refine ⟨x.batch[i], ?_, by simp [Tick.ids]⟩
  rw [hx.nodup.idxOf_getElem i hi, List.getElem?_eq_getElem hlen]

/-- The divergence split waits for the copies of the step itself, so the mix reads the authoritative rows.
An empty row leaves the mirror. -/
lemma drained_row (hc : cfg.OnCuda) (hdiverge : cfg.splitDiverge = true) (h : d.Mirrored cfg K a)
    (hx : d.Faithful a x) (hpace : d.Paced K a x) (hfallback : d.wrapper.fallback = false)
    (hid : id ∈ x.ids) : (d.drained cfg x).mirror.lookup id
      = if a.total d.time id = 0 then none else some (a.row d.time id) := by
  obtain ⟨row, hrow, hmirrors, hreach⟩ :=
    (h.diverge hdiverge).prepared_row hc h hx hpace hfallback hid
  obtain ⟨hpre, hle⟩ := Authority.mirrors_iff.mp hmirrors
  have hpending : (d.prepared cfg x).pending.getD [] = x.ids := by
    rw [prepared, (Wrapper.prepare_kept hc.cuda _ _).2, step_ids]
    rfl
  obtain ⟨r, hr, rfl⟩ := getElem?_batch hx hid
  have hshows := hx.shows r.slot r.id (hx.owned r (List.mem_of_getElem? hr))
  have hbatch : (d.step x).batch[x.ids.idxOf r.id]? = some {
      id := r.id, tokens := (x.mem r.slot).tokens, total := (x.mem r.slot).total, native := r.native,
      sampled := r.sampled, rejected := r.rejected, greedy := r.greedy } := by
    simp [step, hr]
  rw [drained, Wrapper.drain, if_pos hdiverge,
    Wrapper.lookup_absorbPending (by rw [hpending]; exact hx.nodup), hpending, if_pos hid, hrow,
    Option.bind_some]
  have hcount : ((d.prepared cfg x).staged (d.step x) (d.step x).onEntry).count (x.ids.idxOf r.id)
      = a.total d.time r.id := by
    rw [← hshows.total]
    simp [Wrapper.staged, hbatch]
  have htail : ((d.prepared cfg x).staged (d.step x) (d.step x).onEntry).tail (x.ids.idxOf r.id)
      = fun k => (windowSlice (d.prepared cfg x).w (x.mem r.slot).tokens row.length)[k]?.getD
        ((d.step x).onEntry.tail (x.ids.idxOf r.id) k) := by
    funext k
    simp [Wrapper.staged, hbatch, hrow]
  rw [hcount, htail]
  by_cases hkept : a.total d.time r.id ≤ row.length
  · rw [Wrapper.absorbed, if_pos hkept]
    have hsame : row = a.row d.time r.id := by
      apply hmirrors.isPrefix_row.eq_of_length
      rw [hx.length_row hid le_rfl]
      exact le_antisymm hle hkept
    rw [hsame]
  · rw [if_neg (by omega), Wrapper.absorbed_window _ hpre
      (hshows.live ▸ List.take_prefix _ _ : (x.mem r.slot).live <+: a.tokens r.id) hshows.fits
      (by omega) hshows.total.ge (by omega), ← hshows.total]
    exact congrArg some hshows.live

/-! ## What a step hands to the mixer -/

/-- The mirror rows before and after the mix of a step are prefixes, and the mix reads rows that are not
behind the old ones. -/
structure Hands (a : Authority) (cfg : WrapSettings) (d : Device) (x : Tick) : Prop where
  prepared : ∀ id row, (d.prepared cfg x).mirror.lookup id = some row → a.Mirrors d.time id row
  drained : ∀ id row, (d.drained cfg x).mirror.lookup id = some row → id ∈ x.ids
  mirrors : ∀ id ∈ x.ids, a.Mirrors d.time id ((d.drained cfg x).mirrorRow id)
  advances : ∀ id ∈ x.ids, ∀ ctx, a.Mirrors d.time id ctx →
    (∀ row, d.wrapper.mirror.lookup id = some row → ctx.length ≤ row.length) →
      ctx <+: (d.drained cfg x).mirrorRow id

/-- The mirror rows after an enqueue are those of the batch. -/
lemma mem_ids_of_prepared (hc : cfg.OnCuda) {row : List Token}
    (hrow : (d.prepared cfg x).mirror.lookup id = some row) : id ∈ x.ids := by
  by_contra hnot
  rw [prepared, Wrapper.lookup_prepare hc.cuda, step_ids, if_neg hnot] at hrow
  cases hrow

lemma hands (hc : cfg.OnCuda) (h : d.Mirrored cfg K a) (hx : d.Faithful a x)
    (hpace : cfg.splitDiverge = true → d.Paced K a x) (hcalm : d.Calm cfg x)
    (hstages : d.stages cfg x = true) : Hands a cfg d x := by
  cases hsplit : cfg.splitDiverge with
  | false =>
    have hdrained : d.drained cfg x = d.prepared cfg x := Wrapper.drain_legacy hsplit _ _
    have hrow (id : ReqId) (hid : id ∈ x.ids) := prepared_row ⟨hc, hsplit⟩ h hx hcalm hstages hid
    exact {
      prepared := fun id row hlookup => by
        obtain ⟨row', hrow', hmirrors, _⟩ := hrow id (mem_ids_of_prepared hc hlookup)
        rw [hlookup] at hrow'
        cases hrow'
        exact hmirrors
      drained := fun id row hlookup => mem_ids_of_prepared hc (hdrained ▸ hlookup)
      mirrors := fun id hid => by
        obtain ⟨row', hrow', hmirrors, _⟩ := hrow id hid
        rw [hdrained, Wrapper.mirrorRow, hrow', Option.getD_some]
        exact hmirrors
      advances := fun id hid ctx hctx hle => by
        obtain ⟨row', hrow', hmirrors, hrefreshed⟩ := hrow id hid
        rw [hdrained, Wrapper.mirrorRow, hrow', Option.getD_some]
        exact hrefreshed.extends hmirrors hctx hle }
  | true =>
    have hfallback := fallback_of_stages hstages
    have hrow (id : ReqId) (hid : id ∈ x.ids) : (d.drained cfg x).mirrorRow id = a.row d.time id := by
      rw [Wrapper.mirrorRow, drained_row hc hsplit h hx (hpace hsplit) hfallback hid]
      split
      case isTrue hzero => rw [Authority.row, hzero, List.take_zero, Option.getD_none]
      case isFalse => rfl
    exact {
      prepared := fun id row hlookup => by
        obtain ⟨row', hrow', hmirrors, _⟩ := (h.diverge hsplit).prepared_row hc h hx (hpace hsplit)
          hfallback (mem_ids_of_prepared hc hlookup)
        rw [hlookup] at hrow'
        cases hrow'
        exact hmirrors
      drained := fun id row hlookup => by
        by_contra hnot
        have hpending : (d.prepared cfg x).pending.getD [] = x.ids := by
          rw [prepared, (Wrapper.prepare_kept hc.cuda _ _).2, step_ids]
          rfl
        rw [drained, Wrapper.drain, if_pos hsplit,
          Wrapper.lookup_absorbPending (by rw [hpending]; exact hx.nodup), hpending, if_neg hnot]
          at hlookup
        exact hnot (mem_ids_of_prepared hc hlookup)
      mirrors := fun id hid => by
        rw [hrow id hid]
        exact a.mirrors_row d.time id
      advances := fun id hid ctx hctx _ => by
        rw [hrow id hid]
        exact hctx.isPrefix_row }

end rows
end Device
end SuffixHybrid
