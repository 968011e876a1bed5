import SuffixHybrid.MoeRoute.Hooks

/-!
# Stale routing

The hooks look for a pending job where a layer defers and where a sort gets other ids. A layer whose router
does not defer passes between: its sort takes the job of an earlier layer, or it runs without a sort. The
layers are routed on their own top-k, and a job left over stops the next layer, exactly if no such layer
meets a pending job.
-/

namespace SuffixHybrid.MoeRoute
variable {maxM : ℕ}

/-! ## What the hooks are for -/

/-- A tensor of a sort holds what the router of layer `i` wrote; one that no router returned is the caller's. -/
def Content.Of (i : ℕ) (how : How) (r : Ref) : Content → Prop
  | .rows ps => ∀ p ∈ ps, p = some (i, how)
  | .own j => j = i
  | .given => r = .other

/-- A sort of layer `i` was computed from what its router produced: by the fused kernel, by the deferred call,
which ran once, or by the stock router. The list holds the layers whose deferred call ran. -/
inductive Served (i : ℕ) (c : SortCall) : List ℕ → Source → Prop
  | fused : Served i c [] (.fused i)
  | deferred {ids weights : Content} :
    ids.Of i .deferred c.ids →
    weights.Of i .deferred c.weights →
    Served i c [i] (.stock ids weights)
  | stock {ids weights : Content} :
    ids.Of i .stock c.ids →
    weights.Of i .stock c.weights →
    Served i c [] (.stock ids weights)

/-- A layer is routed on its own top-k: so is a sort that returns; a job that is still pending makes the layer
raise; and a fused quant is of the layer's own hidden states and sorted ids. -/
structure Routed (maxM : ℕ) (s : St) (i : ℕ) (l : Layer) : Prop where
  sort : ∀ src, (layer maxM s i l).2.sorted = some src →
    ∃ c r, l.sort = some c ∧ (layer maxM s i l).1.ran = s.ran ++ r ∧ Served i c r src
  pending : s.jobs.isSome → (layer maxM s i l).2.err.isSome
  quant : ∀ e, (layer maxM s i l).2.quant = some e → e.layer = i ∧
    ∃ c q, l.sort = some c ∧ l.quant = some q ∧ q.sortedIds = c.addr ∧
      q.input.ptr = l.router.hidden.ptr ∧ q.input.shape = l.router.hidden.shape ∧
      q.input.stride = l.router.hidden.stride ∧ q.input.dtype = l.router.hidden.dtype

/-- A sort that takes a job raises all the same. -/
def SortCall.raises (c : SortCall) (job : Job) (rows : ℕ) : Bool :=
  if fusable job rows .shared c then c.fails else c.callFails || c.fails

/-- A layer that meets a pending job defers, or its stock router raises, or its sort gets ids outside the
shared pair or raises. -/
def Clear (maxM : ℕ) (s : St) (l : Layer) : Prop :=
  ∀ job, s.jobs = some job → l.router.defers maxM ∨ l.router.fails ∨
    ∃ c, l.sort = some c ∧ (c.ids = .other ∨ l.router.own ∨ c.raises job l.router.rows)

/-! ## Sort -/

lemma onShared_iff {r : Ref} {home : Home} :
    r.onShared home = true ↔ r = .router ∧ home = .shared := by
  simp only [Ref.onShared, Bool.and_eq_true, decide_eq_true_eq]

/-- What the router of a layer leaves to its sort, where no job was pending: its own job, or its tensors. -/
inductive Ready (i : ℕ) (l : Layer) (home : Home) (s : St) : Prop
  | job :
    s.jobs = some ⟨i, l.router.logits, l.router.hidden, l.router.rows⟩ →
    home = .shared →
    Ready i l home s
  | stock :
    s.jobs = none →
    (content s i l.router.rows home .router).Of i .stock .router →
    Ready i l home s

lemma content_of {s : St} {i rows : ℕ} {home : Home} {how : How}
    (h : (content s i rows home .router).Of i how .router) (r : Ref) :
    (content s i rows home r).Of i how r := by
  cases r with
  | router => exact h
  | other => rfl

lemma content_write (s : St) (i rows : ℕ) (how : How) :
    (content (s.write rows i how) i rows .shared .router).Of i how .router := by
  intro p hp
  obtain ⟨r, hr, rfl⟩ := List.mem_map.mp hp
  exact if_pos (List.mem_range.mp hr)

lemma Ready.of_routing {s s' : St} {i : ℕ} {l : Layer} {home : Home} (hs : s.jobs = none)
    (h : computeRouting maxM s i l.router = (.ok home, s')) :
    Ready i l home s' ∧ s'.ran = s.ran := by
  unfold computeRouting at h
  cases hd : l.router.defers maxM with
  | true =>
    simp only [hd, if_true, defer, hs, Option.isSome_none, Bool.false_eq_true, if_false,
      Prod.mk.injEq, Except.ok.injEq] at h
    obtain ⟨rfl, rfl⟩ := h
    exact ⟨.job rfl rfl, rfl⟩
  | false =>
    simp only [hd, Bool.false_eq_true, if_false] at h
    split at h
    · cases h
    split at h
    · cases h
      exact ⟨.stock hs rfl, rfl⟩
    · cases h
      exact ⟨.stock hs (content_write _ _ _ _), rfl⟩

lemma origSort_ok {s s' : St} {i rows : ℕ} {home : Home} {c : SortCall} {src : Source}
    (h : origSort s i rows home c = (.ok src, s')) :
    src = .stock (content s i rows home c.ids) (content s i rows home c.weights) ∧ s' = s := by
  unfold origSort at h
  split at h
  · cases h
  · cases h
    exact ⟨rfl, rfl⟩

/-- A sort that returns, where no job of another layer is pending. -/
lemma Ready.served {s s' : St} {i : ℕ} {l : Layer} {home : Home} {c : SortCall} {src : Source}
    (hr : Ready i l home s) (h : moeSorting s i l.router.rows home c = (.ok src, s')) :
    ∃ r, s'.ran = s.ran ++ r ∧ Served i c r src ∧
      (s'.quant = none ∨ s'.quant = some ⟨c.addr, l.router.hidden, i⟩) := by
  unfold moeSorting at h
  cases hr with
  | job hj hhome =>
    subst hhome
    cases hsh : c.ids.onShared .shared with
    | false =>
      simp only [hsh, Bool.false_eq_true, if_false, hj, Option.isSome_some, if_true] at h
      cases h
    | true =>
      simp only [hsh, if_true, hj, Option.isSome_none, Bool.false_eq_true, if_false] at h
      split at h
      · unfold route at h
        split at h
        · cases h
        · cases h
          exact ⟨[], (List.append_nil _).symm, .fused, .inr rfl⟩
      split at h
      · cases h
      · obtain ⟨rfl, rfl⟩ := origSort_ok h
        have hc := content_write { s with quant := none, jobs := none } i l.router.rows .deferred
        exact ⟨[i], rfl, .deferred (content_of hc _) (content_of hc _), .inl rfl⟩
  | stock hj hc =>
    simp only [hj, ite_self, Option.isSome_none, Bool.false_eq_true, if_false] at h
    obtain ⟨rfl, rfl⟩ := origSort_ok h
    exact ⟨[], (List.append_nil _).symm, .stock (content_of hc _) (content_of hc _), .inl rfl⟩

lemma quantMoeSort_some {s : St} {q : QuantCall} {e : Entry}
    (h : (quantMoeSort s q).1 = some e) :
    s.quant = some e ∧ e.key = q.sortedIds ∧ e.hidden.ptr = q.input.ptr ∧
      e.hidden.shape = q.input.shape ∧ e.hidden.stride = q.input.stride ∧
      e.hidden.dtype = q.input.dtype := by
  unfold quantMoeSort at h
  split at h
  · cases h
  rename_i e' he
  split at h
  · rename_i hk
    dsimp only at h
    split at h
    · rename_i hok
      cases h
      simp only [Bool.and_eq_true, decide_eq_true_eq] at hok
      exact ⟨he, hk, hok.1.1.1.2, hok.1.1.2, hok.1.2, hok.2⟩
    · cases h
  · cases h

lemma quantMoeSort_ran (s : St) (q : QuantCall) : (quantMoeSort s q).2.ran = s.ran := by
  unfold quantMoeSort
  split
  · rfl
  split
  · rfl
  · rfl

/-! ## A layer -/

lemma layer_error {s s' : St} {i : ℕ} {l : Layer} {e : Err}
    (h : computeRouting maxM s i l.router = (.error e, s')) :
    layer maxM s i l = (s', ⟨some e, none, none⟩) := by
  unfold layer
  rw [h]

lemma layer_ok {s s' : St} {i : ℕ} {l : Layer} {home : Home}
    (h : computeRouting maxM s i l.router = (.ok home, s')) :
    layer maxM s i l = fusedMoe s' i l home := by
  unfold layer
  rw [h]

/-- A sort that returns, behind the router of its layer. -/
lemma fusedMoe_sorted {s : St} {i : ℕ} {l : Layer} {home : Home} {src : Source}
    (h : (fusedMoe s i l home).2.sorted = some src) :
    ∃ c s', l.sort = some c ∧ moeSorting s i l.router.rows home c = (.ok src, s') ∧
      (fusedMoe s i l home).1.ran = s'.ran := by
  cases hc : l.sort with
  | none =>
    simp only [fusedMoe, hc] at h
    cases h
  | some c =>
    obtain ⟨out, hout⟩ : ∃ out, moeSorting s i l.router.rows home c = out := ⟨_, rfl⟩
    obtain ⟨res, s'⟩ := out
    cases res with
    | error e =>
      simp only [fusedMoe, hc, hout] at h
      cases h
    | ok src' =>
      cases hq : l.quant with
      | none =>
        simp only [fusedMoe, hc, hout, hq, Option.some.injEq] at h ⊢
        exact ⟨c, s', rfl, by rw [hout, h], rfl⟩
      | some q =>
        simp only [fusedMoe, hc, hout, hq, Option.some.injEq] at h ⊢
        exact ⟨c, s', rfl, by rw [hout, h], quantMoeSort_ran s' q⟩

/-- A quant that returns a fused result, behind a sort that returns. -/
lemma fusedMoe_quant {s : St} {i : ℕ} {l : Layer} {home : Home} {e : Entry}
    (h : (fusedMoe s i l home).2.quant = some e) :
    ∃ c src s' q, l.sort = some c ∧ moeSorting s i l.router.rows home c = (.ok src, s') ∧
      l.quant = some q ∧ (quantMoeSort s' q).1 = some e := by
  cases hc : l.sort with
  | none =>
    simp only [fusedMoe, hc] at h
    cases h
  | some c =>
    obtain ⟨out, hout⟩ : ∃ out, moeSorting s i l.router.rows home c = out := ⟨_, rfl⟩
    obtain ⟨res, s'⟩ := out
    cases res with
    | error e =>
      simp only [fusedMoe, hc, hout] at h
      cases h
    | ok src =>
      cases hq : l.quant with
      | none =>
        simp only [fusedMoe, hc, hout, hq] at h
        cases h
      | some q =>
        simp only [fusedMoe, hc, hout, hq] at h
        exact ⟨c, src, s', q, rfl, hout, rfl, h⟩

/-- A layer without a pending job is routed on its own top-k. -/
lemma Routed.of_none {s : St} {i : ℕ} {l : Layer} (hs : s.jobs = none) : Routed maxM s i l := by
  obtain ⟨out, hout⟩ : ∃ out, computeRouting maxM s i l.router = out := ⟨_, rfl⟩
  obtain ⟨res, s1⟩ := out
  cases res with
  | error e =>
    constructor
    case sort => exact fun src h => by rw [layer_error hout] at h; cases h
    case pending => exact fun h => by rw [hs] at h; cases h
    case quant => exact fun e h => by rw [layer_error hout] at h; cases h
  | ok home =>
    obtain ⟨hready, hran⟩ := Ready.of_routing hs hout
    constructor
    case sort =>
      intro src h
      rw [layer_ok hout] at h ⊢
      obtain ⟨c, s', hc, hsort, hran'⟩ := fusedMoe_sorted h
      obtain ⟨r, hr, hserved, -⟩ := hready.served hsort
      exact ⟨c, r, hc, by rw [hran', hr, hran], hserved⟩
    case pending => exact fun h => by rw [hs] at h; cases h
    case quant =>
      intro e h
      rw [layer_ok hout] at h
      obtain ⟨c, src, s', q, hc, hsort, hq, hsome⟩ := fusedMoe_quant h
      obtain ⟨-, -, -, hquant⟩ := hready.served hsort
      obtain ⟨he, hk, hptr, hshape, hstride, hdtype⟩ := quantMoeSort_some hsome
      obtain hn | hn := hquant
      · rw [hn] at he
        cases he
      · rw [hn] at he
        cases he
        exact ⟨rfl, c, q, hc, hq, hk.symm, hptr.symm, hshape.symm, hstride.symm, hdtype.symm⟩

/-- A layer that raises has no sort that returns and no quant. -/
lemma layer_of_err {s : St} {i : ℕ} {l : Layer} (h : (layer maxM s i l).2.err.isSome) :
    (layer maxM s i l).2.sorted = none ∧ (layer maxM s i l).2.quant = none := by
  obtain ⟨out, hout⟩ : ∃ out, computeRouting maxM s i l.router = out := ⟨_, rfl⟩
  obtain ⟨res, s1⟩ := out
  cases res with
  | error e =>
    rw [layer_error hout]
    exact ⟨rfl, rfl⟩
  | ok home =>
    rw [layer_ok hout] at h ⊢
    unfold fusedMoe at h ⊢
    split at h
    · cases h
    split at h
    · exact ⟨rfl, rfl⟩
    split at h
    · cases h
    · cases h

lemma fusedMoe_err_iff {s : St} {i : ℕ} {l : Layer} {home : Home} :
    (fusedMoe s i l home).2.err.isSome ↔
      ∃ c, l.sort = some c ∧ ∃ e, (moeSorting s i l.router.rows home c).1 = .error e := by
  cases hc : l.sort with
  | none =>
    simp only [fusedMoe, hc]
    exact ⟨fun h => (by cases h), fun ⟨c, h, _⟩ => (by cases h)⟩
  | some c =>
    obtain ⟨out, hout⟩ : ∃ out, moeSorting s i l.router.rows home c = out := ⟨_, rfl⟩
    obtain ⟨res, s'⟩ := out
    cases res with
    | error e =>
      simp only [fusedMoe, hc, hout]
      exact ⟨fun _ => ⟨c, rfl, e, by rw [hout]⟩, fun _ => rfl⟩
    | ok src =>
      have herr : (fusedMoe s i l home).2.err = none := by
        cases hq : l.quant with
        | none => simp only [fusedMoe, hc, hout, hq]
        | some q => simp only [fusedMoe, hc, hout, hq]
      rw [herr]
      refine ⟨fun h => (by cases h), fun ⟨c', h, e, he⟩ => ?_⟩
      cases h
      rw [hout] at he
      cases he

/-- A sort that meets a pending job raises on other ids, and where what it calls for the job does. -/
lemma moeSorting_error_iff {s : St} {job : Job} (hs : s.jobs = some job) (i rows : ℕ) (home : Home)
    (c : SortCall) : (∃ e, (moeSorting s i rows home c).1 = .error e) ↔
      c.ids = .other ∨ home = .own ∨ c.raises job rows := by
  unfold moeSorting
  cases hsh : c.ids.onShared home with
  | false =>
    simp only [Bool.false_eq_true, if_false, hs, Option.isSome_some, if_true]
    refine iff_of_true ⟨_, rfl⟩ ?_
    cases hids : c.ids with
    | other => exact .inl rfl
    | router =>
      cases home with
      | own => exact .inr (.inl rfl)
      | shared =>
        rw [hids] at hsh
        cases hsh
  | true =>
    obtain ⟨hids, rfl⟩ := onShared_iff.mp hsh
    simp only [if_true, hs, Option.isSome_none, Bool.false_eq_true, if_false, hids,
      SortCall.raises, reduceCtorEq, false_or]
    cases fusable job rows .shared c with
    | true =>
      cases hf : c.fails with
      | true => exact iff_of_true ⟨.call, by simp only [if_true, route, hf]⟩ rfl
      | false =>
        simp only [if_true, route, hf, Bool.false_eq_true, if_false, iff_false]
        rintro ⟨e, h⟩
        cases h
    | false =>
      cases hcf : c.callFails with
      | true => exact iff_of_true ⟨.call, by simp only [Bool.false_eq_true, if_false, if_true]⟩ rfl
      | false =>
        cases hf : c.fails with
        | true =>
          refine iff_of_true ⟨.call, ?_⟩ rfl
          simp only [Bool.false_eq_true, if_false, origSort, hf, if_true]
        | false =>
          simp only [Bool.false_eq_true, if_false, origSort, hf, Bool.or_false, iff_false]
          rintro ⟨e, h⟩
          cases h

/-- Where a layer that meets a pending job raises. -/
lemma err_iff {s : St} {job : Job} (hs : s.jobs = some job) (i : ℕ) (l : Layer) :
    (layer maxM s i l).2.err.isSome ↔ l.router.defers maxM ∨ l.router.fails ∨
      ∃ c, l.sort = some c ∧ (c.ids = .other ∨ l.router.own ∨ c.raises job l.router.rows) := by
  cases hd : l.router.defers maxM with
  | true =>
    have hout : computeRouting maxM s i l.router = (.error .neverReached, s) := by
      unfold computeRouting
      simp only [hd, if_true, defer, hs, Option.isSome_some]
    rw [layer_error hout]
    exact iff_of_true rfl (.inl rfl)
  | false =>
    cases hf : l.router.fails with
    | true =>
      have hout : computeRouting maxM s i l.router = (.error .call, s) := by
        unfold computeRouting
        simp only [hd, Bool.false_eq_true, if_false, hf, if_true]
      rw [layer_error hout]
      exact iff_of_true rfl (.inr (.inl rfl))
    | false =>
      simp only [Bool.false_eq_true, false_or]
      cases ho : l.router.own with
      | true =>
        have hout : computeRouting maxM s i l.router = (.ok .own, s) := by
          unfold computeRouting
          simp only [hd, Bool.false_eq_true, if_false, hf, ho, if_true]
        rw [layer_ok hout, fusedMoe_err_iff]
        simp only [moeSorting_error_iff hs, true_or]
      | false =>
        have hout : computeRouting maxM s i l.router =
            (.ok .shared, s.write l.router.rows i .stock) := by
          unfold computeRouting
          simp only [hd, Bool.false_eq_true, if_false, hf, ho]
        have hw : (s.write l.router.rows i .stock).jobs = some job := hs
        rw [layer_ok hout, fusedMoe_err_iff]
        simp only [moeSorting_error_iff hw, reduceCtorEq, Bool.false_eq_true]

/-- A layer is routed on its own top-k if and only if it is clear of a pending job. -/
lemma Routed.iff_clear (s : St) (i : ℕ) (l : Layer) : Routed maxM s i l ↔ Clear maxM s l := by
  constructor
  · intro h job hs
    refine (err_iff hs i l).mp (h.pending ?_)
    rw [hs]
    rfl
  · intro h
    cases hs : s.jobs with
    | none => exact .of_none hs
    | some job =>
      have herr := (err_iff hs i l).mpr (h job hs)
      obtain ⟨hsorted, hquant⟩ := layer_of_err herr
      constructor
      case sort => exact fun src e => by rw [hsorted] at e; cases e
      case pending => exact fun _ => herr
      case quant => exact fun e he => by rw [hquant] at he; cases he

/-- A job that the sort of its layer does not take is pending in the next. -/
theorem jobs_of_unconsumed {s : St} {i : ℕ} {l : Layer} (hs : s.jobs = none)
    (hd : l.router.defers maxM) (hc : ∀ c, l.sort = some c → c.ids = .other) :
    (layer maxM s i l).1.jobs =
      some ⟨i, l.router.logits, l.router.hidden, l.router.rows⟩ := by
  have hout : computeRouting maxM s i l.router = (.ok .shared, { s with
      quant := none, jobs := some ⟨i, l.router.logits, l.router.hidden, l.router.rows⟩ }) := by
    unfold computeRouting
    simp only [hd, if_true, defer, hs, Option.isSome_none, Bool.false_eq_true, if_false]
  rw [layer_ok hout]
  cases hsort : l.sort with
  | none => simp only [fusedMoe, hsort]
  | some c =>
    have hsh : c.ids.onShared .shared = false := by
      rw [hc c hsort]
      rfl
    simp only [fusedMoe, hsort, moeSorting, hsh, Bool.false_eq_true, if_false, Option.isSome_some,
      if_true]

/-! ## Sequences of layers -/

/-- In a sequence of layers every one is routed on its own top-k, if and only if every one that meets a
pending job defers itself, or raises in its stock router or its sort. -/
theorem routed_iff (maxM : ℕ) (ls : List Layer) :
    (∀ pre l post, ls = pre ++ l :: post →
      Routed maxM (run maxM .init 0 pre) pre.length l) ↔
    ∀ pre l post, ls = pre ++ l :: post → Clear maxM (run maxM .init 0 pre) l := by
  constructor
  · exact fun h pre l post e => (Routed.iff_clear _ _ _).mp (h pre l post e)
  · exact fun h pre l post e => (Routed.iff_clear _ _ _).mpr (h pre l post e)

/-- A layer that defers, and whose experts never come to the sort. Then a layer with a router that does not
defer, and a sort that takes the job: it is routed on the first layer's top-k. -/
theorem stale_routed :
    let hidden : Tensor := ⟨1, [4, 512], [512, 1], .bfloat16, true⟩
    let logits : Tensor := ⟨2, [4, 513], [513, 1], .bfloat16, true⟩
    let router : Router := ⟨1, true, true, false, false, false, 10⟩
    let sort : SortCall :=
      ⟨.router, .router, 513, 32, 0, false, false, false, false, false, true, 7, false, false⟩
    let a : Layer := ⟨⟨router, hidden, logits, none, true, false, false⟩, none, none⟩
    let b : Layer := ⟨⟨{ router with capture := true }, { hidden with ptr := 3 },
      { logits with ptr := 4 }, none, true, false, false⟩, some sort, none⟩
    (layer 160 (run 160 .init 0 [a]) 1 b).2.sorted = some (.fused 0) ∧
      ¬ Routed 160 (run 160 .init 0 [a]) 1 b := by
  intro hidden logits router sort a b
  have ha : a.router.defers 160 = true := by with_unfolding_all decide
  have hb : b.router.defers 160 = false := by with_unfolding_all decide
  have hrouta : computeRouting 160 .init 0 a.router =
      (.ok .shared, { St.init with jobs := some ⟨0, logits, hidden, 4⟩ }) := by
    unfold computeRouting
    rw [if_pos ha]
    rfl
  have hroutb : computeRouting 160 { St.init with jobs := some ⟨0, logits, hidden, 4⟩ } 1 b.router =
      (.ok .shared, { St.init with jobs := some ⟨0, logits, hidden, 4⟩ }.write 4 1 .stock) := by
    unfold computeRouting
    rw [if_neg (by rw [hb]; exact Bool.false_ne_true)]
    rfl
  have hsorted : (layer 160 (run 160 .init 0 [a]) 1 b).2.sorted = some (.fused 0) := by
    rw [run_cons, run_nil, layer_ok hrouta]
    change (layer 160 { St.init with jobs := some ⟨0, logits, hidden, 4⟩ } 1 b).2.sorted = _
    rw [layer_ok hroutb]
    rfl
  refine ⟨hsorted, fun h => ?_⟩
  obtain ⟨c, r, -, -, hserved⟩ := h.sort _ hsorted
  cases hserved

end SuffixHybrid.MoeRoute
