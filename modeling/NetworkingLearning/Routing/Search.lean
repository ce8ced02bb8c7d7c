import NetworkingLearning.Paths.Settle
import NetworkingLearning.Routing.LinkState

/-!
# The search of one node is a settling search (`linkstate.cpp:73-116`, `linkstate.cpp:164-179`)

`SearchInv` ties the variables of `build_forwarding_table` to the abstract search of
`Paths/Settle.lean`: the settled set is `visited`, the label of a node is its entry in `recordDist`
or else in `distanceToRoot`, the predecessors are `prevs`. `INT_MAX` is the label of the nodes not
reached.

The abstract search knows nothing of maps or of `int`. So there are two things to show of a pass:
that no entry is missing that is dereferenced, and that its sums are the true ones. The second needs
that they stay within `INT_MAX` (`SumsFit`), which is not checked by the source.

* `getIdxOfMinCost_spec`: the scan returns an entry of least distance, in whatever order the map is
  iterated. Which of several it returns does not matter for what follows.
* `foldlM_relaxNei`: the loop over `cur->neibours`, pointwise.
* `searchStep_spec`: one pass of the main loop is one settling step, and dereferences nothing that
  is missing, if its sums stay within `INT_MAX` (`SumsFit`). A sum of exactly `INT_MAX` is a tie
  with the nodes not reached; it may leave a predecessor at one of them, which nothing reads.
* `search_spec`: the loop ends after as many passes as there are nodes, with every node visited.
-/

namespace NetworkingLearning.Routing.LinkState

open NetworkingLearning.Machine NetworkingLearning.Paths

/-! ## The scan for the minimum -/

theorem minStep_cases (best : ℤ × ℤ) (e : Σ _ : ℤ, ℤ) :
    (minStep best e = best ∨ minStep best e = (e.2, e.1)) ∧ (minStep best e).1 ≤ best.1 ∧
      (minStep best e).1 ≤ e.2 := by
  unfold minStep
  split
  · rename_i h
    exact ⟨Or.inr rfl, h.le, le_refl _⟩
  · split
    · rename_i h1 h2
      split
      · exact ⟨Or.inr (by rw [h2]), le_refl _, h2.ge⟩
      · exact ⟨Or.inl rfl, le_refl _, h2.ge⟩
    · rename_i h1 h2
      exact ⟨Or.inl rfl, le_refl _, by omega⟩

theorem foldl_minStep (l : Entries) (best : ℤ × ℤ) :
    (l.foldl minStep best = best ∨ ∃ e ∈ l, l.foldl minStep best = (e.2, e.1)) ∧
      (l.foldl minStep best).1 ≤ best.1 ∧ ∀ e ∈ l, (l.foldl minStep best).1 ≤ e.2 := by
  induction l generalizing best with
  | nil => exact ⟨Or.inl rfl, le_refl _, fun e he => absurd he List.not_mem_nil⟩
  | cons x l ih =>
    obtain ⟨hc, hb, hx⟩ := minStep_cases best x
    obtain ⟨hr, hle, hall⟩ := ih (minStep best x)
    rw [List.foldl_cons]
    refine ⟨?_, hle.trans hb, fun e he => ?_⟩
    · rcases hr with hr | ⟨e, he, hr⟩
      · rcases hc with hc | hc
        · exact Or.inl (by rw [hr, hc])
        · exact Or.inr ⟨x, List.mem_cons_self, by rw [hr, hc]⟩
      · exact Or.inr ⟨e, List.mem_cons_of_mem x he, hr⟩
    · rcases List.mem_cons.mp he with rfl | he
      · exact hle.trans hx
      · exact hall e he

/-- **The scan returns the key of a least entry**, whatever the order of the entries. -/
theorem getIdxOfMinCost_spec {l : Entries} (hne : l ≠ []) (hle : ∀ e ∈ l, e.2 ≤ intMax) :
    ∃ e ∈ l, getIdxOfMinCost l = e.1 ∧ ∀ e' ∈ l, e.2 ≤ e'.2 := by
  obtain ⟨x, l, rfl⟩ := List.exists_cons_of_ne_nil hne
  -- the first entry is always taken: it is below `INT_MAX`, or ties with it while `ret` is `-1`
  have hfirst : minStep (intMax, -1) x = (x.2, x.1) := by
    have := hle x List.mem_cons_self
    unfold minStep
    split
    · rfl
    · rename_i h
      have he : x.2 = intMax := le_antisymm this (not_lt.mp h)
      simp [he]
  have hres : ∃ e ∈ x :: l, (x :: l).foldl minStep (intMax, -1) = (e.2, e.1) := by
    rw [List.foldl_cons, hfirst]
    rcases (foldl_minStep l (x.2, x.1)).1 with h | ⟨e, he, h⟩
    · exact ⟨x, List.mem_cons_self, h⟩
    · exact ⟨e, List.mem_cons_of_mem x he, h⟩
  obtain ⟨e, he, hr⟩ := hres
  have hmin := (foldl_minStep (x :: l) (intMax, -1)).2.2
  rw [hr] at hmin
  exact ⟨e, he, by rw [getIdxOfMinCost, hr], hmin⟩

/-! ## The loop over the neighbours -/

/-- What relaxing `nei` does to the queue and the predecessors, when nothing is missing. On a tie
without a predecessor `(*prevs)[nei]` inserts one; of that entry nothing is said. -/
theorem relaxNei_spec {cur : Node} (curId : ℤ) {dist : ℤ} {visited : List ℤ} {q : IntMap ℤ}
    (p : IntMap ℤ) {nei old w : ℤ} (hv : nei ∉ visited) (hq : q.lookup nei = some old)
    (hw : cur.links.edges.lookup nei = some w) (hadd : addInt dist w = dist + w) :
    ∃ q' p', relaxNei cur curId dist visited (q, p) nei = some (q', p') ∧
      (∀ v, q'.lookup v = if v = nei then some (min old (dist + w)) else q.lookup v) ∧
      (∀ v, (v = nei → dist + w = old → v ∈ p) → p'.lookup v =
        if v = nei ∧ (dist + w < old ∨ (dist + w = old ∧ curId < valueAt p nei)) then some curId
        else p.lookup v) := by
  have hq' : ∀ v, (q.insert nei (dist + w)).lookup v = if v = nei then some (dist + w)
      else q.lookup v := by
    intro v
    split
    · rename_i h
      rw [h, AList.lookup_insert]
    · rename_i h
      exact AList.lookup_insert_ne h
  have hp' : ∀ (p : IntMap ℤ) v, (p.insert nei curId).lookup v = if v = nei then some curId
      else p.lookup v := by
    intro p v
    split
    · rename_i h
      rw [h, AList.lookup_insert]
    · rename_i h
      exact AList.lookup_insert_ne h
  have hsame : ∀ v, q.lookup v = if v = nei then some old else q.lookup v := by
    intro v
    split
    · rename_i h
      rw [h, hq]
    · rfl
  have htouch : ∀ v, (v = nei → v ∈ p) → (touch p nei).lookup v = p.lookup v := by
    intro v hmem
    by_cases h : v = nei
    · rw [touch_of_mem (h ▸ hmem h)]
    · exact lookup_touch_ne h
  unfold relaxNei
  simp only [if_neg hv, hq, hw, Option.bind_eq_bind, Option.bind_some, hadd, valueAt_touch]
  rcases lt_trichotomy (dist + w) old with h | h | h
  · refine ⟨_, _, if_pos h, fun v => ?_, fun v _ => ?_⟩
    · rw [hq', min_eq_right h.le]
    · simp only [hp', h, true_or, and_true]
  · rw [if_neg h.not_lt, if_pos h]
    by_cases hc : curId < valueAt p nei
    · refine ⟨_, _, if_pos hc, fun v => ?_, fun v hmem => ?_⟩
      · rw [hq', min_eq_right h.le]
      · simp only [hp', h, hc, lt_irrefl, and_true, or_true, htouch v fun e => hmem e h]
    · refine ⟨_, _, if_neg hc, fun v => ?_, fun v hmem => ?_⟩
      · rw [min_eq_left h.ge]
        exact hsame v
      · simp [h, hc, htouch v fun e => hmem e h]
  · rw [if_neg (not_lt.mpr h.le), if_neg h.ne']
    refine ⟨_, _, rfl, fun v => ?_, fun v _ => ?_⟩
    · rw [min_eq_left h.le]
      exact hsame v
    · simp [not_lt.mpr h.le, h.ne']

/-- **The loop over `cur->neibours`**: every unvisited neighbour in the list is relaxed once. -/
theorem foldlM_relaxNei (cur : Node) (curId dist : ℤ) (visited : List ℤ) (w : ℤ → ℤ) :
    ∀ (ns : List ℤ), ns.Nodup → ∀ (q p : IntMap ℤ),
      (∀ v ∈ ns, cur.links.edges.lookup v = some (w v)) →
      (∀ v ∈ ns, v ∉ visited → addInt dist (w v) = dist + w v) →
      (∀ v ∈ ns, v ∉ visited → v ∈ q) →
      ∃ q' p', ns.foldlM (relaxNei cur curId dist visited) (q, p) = some (q', p') ∧
        (∀ v, q'.lookup v =
          if v ∈ ns ∧ v ∉ visited then (q.lookup v).map (min · (dist + w v)) else q.lookup v) ∧
        (∀ v, (v ∈ ns → v ∉ visited → dist + w v = valueAt q v → v ∈ p) → p'.lookup v =
          if v ∈ ns ∧ v ∉ visited ∧ (dist + w v < valueAt q v ∨
              (dist + w v = valueAt q v ∧ curId < valueAt p v))
          then some curId else p.lookup v) := by
  intro ns
  induction ns with
  | nil =>
    intro _ q p _ _ _
    exact ⟨q, p, rfl, fun v => by simp, fun v _ => by simp⟩
  | cons nei ns ih =>
    intro hn q p hw hadd hq
    obtain ⟨hnot, hn⟩ := List.nodup_cons.mp hn
    have hw' : ∀ v ∈ ns, cur.links.edges.lookup v = some (w v) :=
      fun v h => hw v (List.mem_cons_of_mem _ h)
    have hadd' : ∀ v ∈ ns, v ∉ visited → addInt dist (w v) = dist + w v :=
      fun v h => hadd v (List.mem_cons_of_mem _ h)
    rw [List.foldlM_cons]
    by_cases hv : nei ∈ visited
    · have h1 : relaxNei cur curId dist visited (q, p) nei = some (q, p) := by
        simp [relaxNei, hv]
      obtain ⟨q', p', hf, hq', hp'⟩ := ih hn q p hw' hadd' fun v h =>
        hq v (List.mem_cons_of_mem _ h)
      refine ⟨q', p', by rw [h1]; exact hf, fun v => ?_, fun v hmem => ?_⟩
      · rw [hq']
        by_cases e : v = nei
        · subst e
          simp [hv]
        · simp [e]
      · rw [hp' v fun h => hmem (List.mem_cons_of_mem _ h)]
        by_cases e : v = nei
        · subst e
          simp [hv]
        · simp [e]
    · obtain ⟨old, hold⟩ := lookup_of_mem (hq nei List.mem_cons_self hv)
      have hval : valueAt q nei = old := valueAt_of_lookup hold
      obtain ⟨q1, p1, h1, hq1, hp1⟩ := relaxNei_spec curId p hv hold
        (hw nei List.mem_cons_self) (hadd nei List.mem_cons_self hv)
      have hqe : ∀ v, v ≠ nei → q1.lookup v = q.lookup v := fun v e => by simp [hq1, e]
      have hpe : ∀ v, v ≠ nei → p1.lookup v = p.lookup v := fun v e => by
        rw [hp1 v fun h => absurd h e, if_neg fun h => e h.1]
      have hmem1 : ∀ v ∈ ns, v ≠ nei := fun v h e => hnot (e ▸ h)
      obtain ⟨q', p', hf, hq', hp'⟩ := ih hn q1 p1 hw' hadd' fun v h hvv => by
        rw [← AList.lookup_isSome, hqe v (hmem1 v h), AList.lookup_isSome]
        exact hq v (List.mem_cons_of_mem _ h) hvv
      refine ⟨q', p', by rw [h1]; exact hf, fun v => ?_, fun v hmem => ?_⟩
      · rw [hq']
        by_cases e : v = nei
        · subst e
          simp [hnot, hv, hq1, hold]
        · simp [e, hqe v e]
      · by_cases e : v = nei
        · subst e
          rw [hp' v fun h => absurd h hnot, if_neg fun h => hnot h.1,
            hp1 v fun _ ht => hmem List.mem_cons_self hv (by rw [hval, ht])]
          simp [hv, hval]
        · have hv1 : valueAt q1 v = valueAt q v := by rw [valueAt, hqe v e, valueAt]
          have hv2 : valueAt p1 v = valueAt p v := by rw [valueAt, hpe v e, valueAt]
          rw [hp' v fun h hvv ht => ?_, hv1, hv2, hpe v e]
          · simp [e]
          · rw [hv1] at ht
            rw [← AList.lookup_isSome, hpe v e, AList.lookup_isSome]
            exact hmem (List.mem_cons_of_mem _ h) hvv ht

/-! ## The invariant of the main loop -/

/-- The node the scan picks. -/
def scanned (ord : IterOrder (ℤ × ℕ)) (this : ℤ) (st : Search) : ℤ :=
  getIdxOfMinCost (ord.order (this, st.visited.length) st.distanceToRoot.entries)

/-- The label of a node: its recorded distance, or else its entry in the queue. -/
def label (st : Search) (v : ℤ) : ℤ :=
  ((st.recordDist.lookup v).or (st.distanceToRoot.lookup v)).getD intMax

theorem label_of_record {st : Search} {v d : ℤ} (h : st.recordDist.lookup v = some d) :
    label st v = d := by
  simp [label, h]

theorem label_of_queue {st : Search} {v : ℤ} (h : st.recordDist.lookup v = none) :
    label st v = (st.distanceToRoot.lookup v).getD intMax := by
  simp [label, h]

/-- The search of `this` in the topology `T`. -/
structure SearchInv (T : Topology) (this : ℤ) (st : Search) : Prop where
  nodup : st.visited.Nodup
  visited : ∀ v ∈ st.visited, v ∈ T.nodes
  queue : ∀ v, v ∈ st.distanceToRoot ↔ v ∈ T.nodes ∧ v ∉ st.visited
  record : ∀ v, v ∈ st.recordDist ↔ v ∈ st.visited
  settling : Settling T.price intMax this {v | v ∈ st.visited} (label st)
    (fun v => st.prevs.lookup v)
  unreached : ∀ v ∈ st.visited, label st v = intMax →
    st.prevs.lookup v = some (-1) ∧ st.forwardingTable.lookup v = some (-1)
  prev_self : st.prevs.lookup this = some (-1)
  prev_mem : ∀ v ∈ st.prevs, v ∈ T.nodes
  hop_self : st.forwardingTable.lookup this = some this

section Step

variable {T : Topology} {this : ℤ} {st : Search}

theorem SearchInv.lookup_record (hI : SearchInv T this st) {v : ℤ} (hv : v ∈ st.visited) :
    st.recordDist.lookup v = some (label st v) := by
  obtain ⟨d, hd⟩ := lookup_of_mem ((hI.record v).mpr hv)
  simp [label, hd]

theorem SearchInv.record_none (hI : SearchInv T this st) {v : ℤ} (hn : v ∉ st.visited) :
    st.recordDist.lookup v = none :=
  AList.lookup_eq_none.mpr fun h => hn ((hI.record v).mp h)

theorem SearchInv.lookup_queue (hI : SearchInv T this st) {v : ℤ} (hv : v ∈ T.nodes)
    (hn : v ∉ st.visited) : st.distanceToRoot.lookup v = some (label st v) := by
  obtain ⟨d, hd⟩ := lookup_of_mem ((hI.queue v).mpr ⟨hv, hn⟩)
  simp [label, hd, hI.record_none hn]

theorem SearchInv.label_outside (hI : SearchInv T this st) {v : ℤ} (hv : v ∉ T.nodes) :
    label st v = intMax := by
  have hq : st.distanceToRoot.lookup v = none :=
    AList.lookup_eq_none.mpr fun h => hv ((hI.queue v).mp h).1
  simp [label, hq, hI.record_none fun h => hv (hI.visited v h)]

/-- While fewer nodes are visited than there are, the queue is not empty. -/
theorem SearchInv.queue_ne_nil (hI : SearchInv T this st)
    (hlt : st.visited.length < T.nodes.card) : st.distanceToRoot.entries ≠ [] := by
  have hex : ∃ v ∈ T.nodes, v ∉ st.visited := by
    by_contra hall
    push Not at hall
    have hsub : T.nodes ⊆ st.visited.toFinset := fun v hv => List.mem_toFinset.mpr (hall v hv)
    have := Finset.card_le_card hsub
    have := List.toFinset_card_le st.visited
    omega
  obtain ⟨v, hv, hn⟩ := hex
  intro he
  have hmem := AList.mem_lookup_iff.mp (Option.mem_def.mpr (hI.lookup_queue hv hn))
  rw [he] at hmem
  exact absurd hmem List.not_mem_nil

/-- Once as many nodes are visited as there are, all are. -/
theorem SearchInv.visited_all (hI : SearchInv T this st)
    (hle : T.nodes.card ≤ st.visited.length) : ∀ v ∈ T.nodes, v ∈ st.visited := by
  intro v hv
  have hsub : st.visited.toFinset ⊆ T.nodes := fun x hx => hI.visited x (List.mem_toFinset.mp hx)
  have heq := Finset.eq_of_subset_of_card_le hsub
    (by rw [List.toFinset_card_of_nodup hI.nodup]; exact hle)
  rw [← heq] at hv
  exact List.mem_toFinset.mp hv

/-- The node the scan picks is unvisited and has a least label. -/
theorem SearchInv.least (hI : SearchInv T this st) (ord : IterOrder (ℤ × ℕ))
    (hlt : st.visited.length < T.nodes.card) :
    ∃ u, scanned ord this st = u ∧ u ∈ T.nodes ∧ u ∉ st.visited ∧
      ∀ v, v ∉ st.visited → label st u ≤ label st v := by
  have hperm := ord.perm (this, st.visited.length) st.distanceToRoot.entries
  have hval : ∀ e ∈ st.distanceToRoot.entries, e.1 ∈ T.nodes ∧ e.1 ∉ st.visited ∧
      e.2 = label st e.1 := by
    intro e he
    have hl : st.distanceToRoot.lookup e.1 = some e.2 := AList.mem_lookup_iff.mpr he
    have hm : e.1 ∈ st.distanceToRoot := AList.lookup_isSome.mp (by rw [hl]; rfl)
    obtain ⟨hT, hn⟩ := (hI.queue e.1).mp hm
    rw [hI.lookup_queue hT hn] at hl
    exact ⟨hT, hn, (Option.some.inj hl).symm⟩
  obtain ⟨e, he, hidx, hmin⟩ := getIdxOfMinCost_spec
    (l := ord.order (this, st.visited.length) st.distanceToRoot.entries)
    (fun h => hI.queue_ne_nil hlt (List.perm_nil.mp (h ▸ hperm.symm)))
    (fun e he => by
      rw [(hval e (hperm.mem_iff.mp he)).2.2]
      exact hI.settling.le_top e.1)
  obtain ⟨hT, hn, hd⟩ := hval e (hperm.mem_iff.mp he)
  refine ⟨e.1, hidx, hT, hn, fun v hv => ?_⟩
  by_cases hvT : v ∈ T.nodes
  · have hmem := AList.mem_lookup_iff.mp (Option.mem_def.mpr (hI.lookup_queue hvT hv))
    rw [← hd]
    exact hmin _ (hperm.mem_iff.mpr hmem)
  · rw [hI.label_outside hvT]
    exact hI.settling.le_top e.1

variable {graph : IntMap Node} (hR : Refines nodeClass graph T)

/-- A visited node keeps its label, its predecessor and its entry in the forwarding table. -/
theorem SearchInv.settle_top (hI : SearchInv T this st) {u : ℤ} (huT : u ∈ T.nodes)
    (hu : u ∉ st.visited) (hleast : ∀ v, v ∉ st.visited → label st u ≤ label st v)
    (htop : label st u = intMax) :
    SearchInv T this
      { distanceToRoot := st.distanceToRoot.erase u
        recordDist := st.recordDist.insert u (label st u)
        prevs := st.prevs.insert u (-1)
        visited := u :: st.visited
        forwardingTable := st.forwardingTable.insert u (-1) } := by
  have hlab : ∀ v, label
      { distanceToRoot := st.distanceToRoot.erase u
        recordDist := st.recordDist.insert u (label st u)
        prevs := st.prevs.insert u (-1)
        visited := u :: st.visited
        forwardingTable := st.forwardingTable.insert u (-1) } v = label st v := by
    intro v
    by_cases h : v = u
    · subst h
      simp [label]
    · simp [label, AList.lookup_insert_ne h, AList.lookup_erase_ne h]
  have hne : u ≠ this := by
    rintro rfl
    rw [hI.settling.root] at htop
    exact absurd htop (by decide)
  constructor
  · exact List.nodup_cons.mpr ⟨hu, hI.nodup⟩
  · exact List.forall_mem_cons.mpr ⟨huT, hI.visited⟩
  · intro v
    simp only [AList.mem_erase, hI.queue, List.mem_cons, not_or]
    tauto
  · intro v
    simp only [AList.mem_insert, hI.record, List.mem_cons]
  · refine (hI.settling.step T.positive hu hleast).congr (fun v => by simp) (fun v => ?_)
      fun v hv hlt => ?_
    · rw [hlab, settleLabel_settled (Or.inr (Or.inr htop))]
    · rw [settleLabel_settled (Or.inr (Or.inr htop))] at hlt
      have h : v ≠ u := by
        rintro rfl
        exact absurd htop hlt.ne
      rw [settlePred_settled (Or.inr (Or.inr htop)), AList.lookup_insert_ne h]
  · intro v hv hl
    rw [hlab] at hl
    by_cases h : v = u
    · subst h
      simp
    · simp only [AList.lookup_insert_ne h]
      exact hI.unreached v ((List.mem_cons.mp hv).resolve_left h) hl
  · simp only [AList.lookup_insert_ne hne.symm]
    exact hI.prev_self
  · intro v hv
    rcases (AList.mem_insert _).mp hv with rfl | hv
    · exact huT
    · exact hI.prev_mem v hv
  · simp only [AList.lookup_insert_ne hne.symm]
    exact hI.hop_self

/-- What the loop over the neighbours of `u` leaves, as the relaxation of the links of `u`. -/
structure RelaxedFrom (T : Topology) (this : ℤ) (st : Search) (u : ℤ) (q' p' : IntMap ℤ) :
    Prop where
  queue : ∀ v, v ∈ q' ↔ v ∈ st.distanceToRoot.erase u
  labels : ∀ v, v ∉ u :: st.visited → (q'.lookup v).getD intMax =
    settleLabel T.price intMax {v | v ∈ st.visited} (label st) u v
  prevs : ∀ v, v ≠ this → settleLabel T.price intMax {v | v ∈ st.visited} (label st) u v < intMax →
    p'.lookup v =
      settlePred T.price intMax {v | v ∈ st.visited} (label st) (fun v => st.prevs.lookup v) u v
  keep : ∀ v, v ∈ u :: st.visited ∨ v = this → p'.lookup v = st.prevs.lookup v
  mem : ∀ v ∈ p', v ∈ st.prevs ∨ v ∈ T.nodes

/-- An unvisited node is relaxed by a reached one. -/
theorem not_frozen {u v : ℤ} (htop : label st u ≠ intMax) (hv : v ∉ u :: st.visited) :
    ¬ (v ∈ {v | v ∈ st.visited} ∨ v = u ∨ label st u = intMax) := by
  simp only [List.mem_cons, not_or] at hv
  simp only [Set.mem_ofPred_eq, not_or]
  exact ⟨hv.2, hv.1, htop⟩

/-- The sums of the pass that visits `u` are within `int`. -/
def SumsFit (T : Topology) (st : Search) (u : ℤ) : Prop :=
  label st u ≠ intMax → ∀ v w, v ∉ u :: st.visited → T.price u v = some w →
    label st u + w ≤ intMax

/-- A sum the loop computes is the cost of a simple path, and below `INT_MAX` if the sum of all
links is. -/
theorem SearchInv.sumsFit (hI : SearchInv T this st) (hsum : T.costSum < intMax)
    (hthis : this ∈ T.nodes) (u : ℤ) : SumsFit T st u := fun htop _ _ hv hw =>
  (lt_of_le_of_lt (hI.settling.add_le_linkSum T.positive T.symmetric T.within hthis
    (not_frozen htop hv) hw) hsum).le

/-- No relaxation is as good as the entry of the root. -/
theorem SearchInv.root_lt (hI : SearchInv T this st) {u w : ℤ} (hw : T.price u this = some w) :
    label st this < label st u + w := by
  have hpos := T.positive u this w hw
  have hnn := hI.settling.nonneg u
  rw [hI.settling.root]
  omega

/-- On a tie below `INT_MAX` there is a predecessor, and `(*prevs)[nei]` reads it. -/
theorem SearchInv.tie_pred (hI : SearchInv T this st) {u v w : ℤ} (hw : T.price u v = some w)
    (hlt : label st u + w < intMax) (he : label st u + w = label st v) :
    ∃ p, st.prevs.lookup v = some p := by
  have hne : v ≠ this := by
    rintro rfl
    exact absurd he (hI.root_lt hw).ne'
  obtain ⟨p, hp, -⟩ := hI.settling.pred v hne (he ▸ hlt)
  exact ⟨p, hp⟩

include hR in
/-- **The loop over the neighbours of a reached node**, in terms of its links: the entry of an
unvisited neighbour is relaxed, and nothing else changes. -/
theorem SearchInv.links_relaxed (hI : SearchInv T this st) {u : ℤ} (hfit : SumsFit T st u)
    (htop : label st u ≠ intMax) {cur : Node} (hcur : graph.lookup u = some cur) :
    ∃ q' p', cur.links.neibours.foldlM (relaxNei cur u (label st u) (u :: st.visited))
        (st.distanceToRoot.erase u, st.prevs) = some (q', p') ∧
      (∀ v w, T.price u v = some w → v ∉ u :: st.visited →
        q'.lookup v = some (min (label st v) (label st u + w)) ∧
        ((label st u + w = label st v → v ∈ st.prevs) →
          p'.lookup v = if label st u + w < label st v ∨
              (label st u + w = label st v ∧ u < valueAt st.prevs v)
            then some u else st.prevs.lookup v)) ∧
      ∀ v, T.price u v = none ∨ v ∈ u :: st.visited →
        q'.lookup v = (st.distanceToRoot.erase u).lookup v ∧
          p'.lookup v = st.prevs.lookup v := by
  have hmem : ∀ v, v ∈ cur.links.neibours ↔ ∃ w, T.price u v = some w := fun v =>
    hR.mem_neibours_iff (C := nodeClass) hcur
  let w : ℤ → ℤ := fun v => (T.price u v).getD 0
  have hprice : ∀ v ∈ cur.links.neibours, T.price u v = some (w v) := by
    intro v hv
    obtain ⟨a, ha⟩ := (hmem v).mp hv
    simp [w, ha]
  have hq : ∀ v ∈ cur.links.neibours, v ∉ u :: st.visited →
      (st.distanceToRoot.erase u).lookup v = some (label st v) := by
    intro v hv hn
    simp only [List.mem_cons, not_or] at hn
    rw [AList.lookup_erase_ne hn.1, hI.lookup_queue (T.within u v _ (hprice v hv)).2 hn.2]
  have hpos : ∀ v ∈ cur.links.neibours, 0 < w v := fun v hv => T.positive u v _ (hprice v hv)
  have hnn := hI.settling.nonneg u
  obtain ⟨q', p', hf, hq', hp'⟩ := foldlM_relaxNei cur u (label st u) (u :: st.visited) w
    cur.links.neibours cur.links.nodup (st.distanceToRoot.erase u) st.prevs
    (fun v hv => by rw [← hprice v hv]; exact hR.lookup_edges (C := nodeClass) hcur v)
    (fun v hv hn => addInt_of_le (by have := hpos v hv; omega) (hfit htop v _ hn (hprice v hv)))
    (fun v hv hn => AList.lookup_isSome.mp (by rw [hq v hv hn]; rfl))
  refine ⟨q', p', hf, fun v a ha hn => ?_, fun v hv => ?_⟩
  · have hv : v ∈ cur.links.neibours := (hmem v).mpr ⟨a, ha⟩
    have hval : valueAt (st.distanceToRoot.erase u) v = label st v :=
      valueAt_of_lookup (hq v hv hn)
    obtain rfl : w v = a := Option.some.inj ((hprice v hv).symm.trans ha)
    refine ⟨by simp [hq', hv, hn, hq v hv hn], fun htie => ?_⟩
    rw [hp' v fun _ _ he => htie (he.trans hval)]
    simp only [hv, hn, hval, not_false_eq_true, true_and]
  · have hno : ¬ (v ∈ cur.links.neibours ∧ v ∉ u :: st.visited) := by
      rintro ⟨hns, hn⟩
      rcases hv with hv | hv
      · exact absurd ((hprice v hns).symm.trans hv) (by simp)
      · exact hn hv
    rw [hq', if_neg hno, hp' v fun hns hn => absurd ⟨hns, hn⟩ hno,
      if_neg fun h => hno ⟨h.1, h.2.1⟩]
    exact ⟨rfl, rfl⟩

include hR in
/-- The loop over the neighbours of a reached node is a settling step. -/
theorem SearchInv.relaxed (hI : SearchInv T this st) {u : ℤ} (hfit : SumsFit T st u)
    (htop : label st u ≠ intMax) {cur : Node} (hcur : graph.lookup u = some cur) :
    ∃ q' p', cur.links.neibours.foldlM (relaxNei cur u (label st u) (u :: st.visited))
        (st.distanceToRoot.erase u, st.prevs) = some (q', p') ∧ RelaxedFrom T this st u q' p' := by
  obtain ⟨q', p', hf, hlink, hother⟩ := hI.links_relaxed hR hfit htop hcur
  have hkeep : ∀ v, v ∈ u :: st.visited ∨ v = this → p'.lookup v = st.prevs.lookup v := by
    rintro v (hv | rfl)
    · exact (hother v (Or.inr hv)).2
    · by_cases hn : v ∈ u :: st.visited
      · exact (hother v (Or.inr hn)).2
      · cases hw : T.price u v with
        | none => exact (hother v (Or.inl hw)).2
        | some w =>
          have hroot := hI.root_lt hw
          rw [(hlink v w hw hn).2 fun he => absurd he hroot.ne', if_neg]
          rintro (hlt | ⟨he, -⟩) <;> omega
  refine ⟨q', p', hf, fun v => ?_, fun v hn => ?_, fun v hvs hlt => ?_, hkeep, fun v hmem => ?_⟩
  · rw [← AList.lookup_isSome, ← AList.lookup_isSome]
    by_cases hn : v ∈ u :: st.visited
    · rw [(hother v (Or.inr hn)).1]
    · cases hw : T.price u v with
      | none => rw [(hother v (Or.inl hw)).1]
      | some w =>
        have hn' := hn
        simp only [List.mem_cons, not_or] at hn'
        rw [(hlink v w hw hn).1, AList.lookup_erase_ne hn'.1,
          hI.lookup_queue (T.within u v w hw).2 hn'.2]
        exact ⟨fun _ => rfl, fun _ => rfl⟩
  · cases hw : T.price u v with
    | none =>
      simp only [List.mem_cons, not_or] at hn
      rw [settleLabel_none hw, (hother v (Or.inl hw)).1, AList.lookup_erase_ne hn.1]
      exact (label_of_queue (hI.record_none hn.2)).symm
    | some w =>
      rw [settleLabel_link (not_frozen htop hn) hw, (hlink v w hw hn).1, Option.getD_some]
  · by_cases hn : v ∈ u :: st.visited
    · rw [hkeep v (Or.inl hn), settlePred_settled]
      exact (List.mem_cons.mp hn).symm.imp id Or.inl
    · cases hw : T.price u v with
      | none =>
        rw [(hother v (Or.inl hw)).2]
        simp only [settlePred, hw]
      | some w =>
        rw [settleLabel_link (not_frozen htop hn) hw] at hlt
        have htie : label st u + w = label st v → ∃ p, st.prevs.lookup v = some p := fun e =>
          hI.tie_pred hw (by omega) e
        rw [(hlink v w hw hn).2 fun e =>
          AList.lookup_isSome.mp (Option.isSome_iff_exists.mpr (htie e))]
        simp only [settlePred, hw, if_neg (not_frozen htop hn)]
        refine if_congr (or_congr Iff.rfl (and_congr_right fun he => ?_)) rfl rfl
        obtain ⟨p, hp⟩ := htie he
        rw [valueAt_of_lookup hp, hp]
        simp
  · cases hw : T.price u v with
    | none =>
      rw [← AList.lookup_isSome, (hother v (Or.inl hw)).2, AList.lookup_isSome] at hmem
      exact Or.inl hmem
    | some w => exact Or.inr (T.within u v w hw).2

/-- Settling a reached node, once its links are relaxed. -/
theorem SearchInv.settle_reached (hI : SearchInv T this st) {u : ℤ} (huT : u ∈ T.nodes)
    (hu : u ∉ st.visited) (hleast : ∀ v, v ∉ st.visited → label st u ≤ label st v)
    (htop : label st u ≠ intMax) {q' p' : IntMap ℤ} (hr : RelaxedFrom T this st u q' p') :
    SearchInv T this
      { distanceToRoot := q'
        recordDist := st.recordDist.insert u (label st u)
        prevs := p'
        visited := u :: st.visited
        forwardingTable := st.forwardingTable } := by
  have hlab : ∀ v, label
      { distanceToRoot := q'
        recordDist := st.recordDist.insert u (label st u)
        prevs := p'
        visited := u :: st.visited
        forwardingTable := st.forwardingTable } v =
      settleLabel T.price intMax {v | v ∈ st.visited} (label st) u v := by
    intro v
    by_cases hvu : v = u
    · subst hvu
      rw [settleLabel_settled (Or.inr (Or.inl rfl))]
      simp [label]
    · by_cases hvis : v ∈ st.visited
      · have hvS : v ∈ {v | v ∈ st.visited} := hvis
        rw [settleLabel_settled (Or.inl hvS)]
        exact label_of_record (by rw [AList.lookup_insert_ne hvu, hI.lookup_record hvis])
      · rw [label_of_queue (by rw [AList.lookup_insert_ne hvu]; exact hI.record_none hvis)]
        exact hr.labels v (by simp [hvu, hvis])
  constructor
  · exact List.nodup_cons.mpr ⟨hu, hI.nodup⟩
  · exact List.forall_mem_cons.mpr ⟨huT, hI.visited⟩
  · intro v
    simp only [hr.queue, AList.mem_erase, hI.queue, List.mem_cons, not_or]
    tauto
  · intro v
    simp only [AList.mem_insert, hI.record, List.mem_cons]
  · exact (hI.settling.step T.positive hu hleast).congr (fun v => by simp) hlab
      fun v hvs hlt => hr.prevs v hvs hlt
  · intro v hv hl
    rw [hlab, settleLabel_settled ((List.mem_cons.mp hv).symm.imp id Or.inl)] at hl
    rw [hr.keep v (Or.inl hv)]
    rcases List.mem_cons.mp hv with rfl | hv
    · exact absurd hl htop
    · exact hI.unreached v hv hl
  · rw [hr.keep this (Or.inr rfl)]
    exact hI.prev_self
  · exact fun v hv => (hr.mem v hv).elim (hI.prev_mem v) id
  · exact hI.hop_self

include hR in
/-- **One pass of the main loop** visits the node of the scan and keeps the invariant. -/
theorem searchStep_spec (ord : IterOrder (ℤ × ℕ)) (hI : SearchInv T this st)
    (hlt : st.visited.length < T.nodes.card) (hfit : SumsFit T st (scanned ord this st)) :
    ∃ st', searchStep ord graph this st = some st' ∧ SearchInv T this st' ∧
      st'.visited = scanned ord this st :: st.visited := by
  obtain ⟨u, hidx, huT, hu, hleast⟩ := hI.least ord hlt
  rw [hidx] at hfit ⊢
  have hq : st.distanceToRoot.lookup u = some (label st u) := hI.lookup_queue huT hu
  rw [searchStep, show getIdxOfMinCost _ = u from hidx]
  unfold visit
  simp only [if_neg hu, hq, Option.bind_eq_bind, Option.bind_some]
  by_cases htop : label st u = intMax
  · rw [if_pos htop]
    exact ⟨_, rfl, hI.settle_top huT hu hleast htop, rfl⟩
  · rw [if_neg htop]
    obtain ⟨cur, hcur⟩ := hR.exists_lookup huT
    obtain ⟨q', p', hf, hr⟩ := hI.relaxed hR hfit htop hcur
    refine ⟨_, ?_, hI.settle_reached huT hu hleast htop hr, rfl⟩
    rw [hcur]
    simp only [Option.bind_some, hf]

/-- No pass of the search of `s` in the topology overflows. -/
def BoundedAt (T : Topology) (s : ℤ) : Prop :=
  ∀ st, SearchInv T s st → ∀ u, u ∉ st.visited →
    (∀ v, v ∉ st.visited → label st u ≤ label st v) → SumsFit T st u

/-- No pass of a search in the topology overflows. -/
def Bounded (T : Topology) : Prop := ∀ s ∈ T.nodes, BoundedAt T s

theorem bounded_of_costSum (hsum : T.costSum < intMax) : Bounded T :=
  fun _ hs _ hI u _ _ => hI.sumsFit hsum hs u

include hR in
/-- **The main loop ends with every node visited**, if no pass overflows. -/
theorem search_spec (ord : IterOrder (ℤ × ℕ)) (hkeys : graph.keys.length = T.nodes.card)
    (hB : BoundedAt T this) :
    ∀ (fuel : ℕ) (st : Search), SearchInv T this st →
      T.nodes.card ≤ st.visited.length + fuel →
      ∃ st', search ord graph this fuel st = some st' ∧ SearchInv T this st' ∧
        ∀ v ∈ T.nodes, v ∈ st'.visited := by
  intro fuel
  induction fuel with
  | zero =>
    intro st hI hle
    have hn : ¬ st.visited.length < graph.keys.length := by omega
    exact ⟨st, by rw [search, if_neg hn], hI, hI.visited_all (by omega)⟩
  | succ fuel ih =>
    intro st hI hle
    by_cases hlt : st.visited.length < graph.keys.length
    · obtain ⟨u, hu, -, huv, hleast⟩ := hI.least ord (by omega)
      obtain ⟨st1, h1, hI1, hvis⟩ := searchStep_spec hR ord hI (by omega)
        (hu ▸ hB st hI u huv hleast)
      obtain ⟨st', h', hI', hall⟩ := ih st1 hI1 (by rw [hvis, List.length_cons]; omega)
      refine ⟨st', ?_, hI', hall⟩
      rw [search, if_pos hlt]
      simp only [h1, Option.bind_some, h']
    · exact ⟨st, by rw [search, if_neg hlt], hI, hI.visited_all (by omega)⟩

end Step

end NetworkingLearning.Routing.LinkState
