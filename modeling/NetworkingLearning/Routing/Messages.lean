import NetworkingLearning.Routing.Sums

/-!
# Printing messages (`linkstate.cpp:270-300`, `distvec.cpp:227-256`)

`print_messages` uses the two ids of a line as they come. For nodes of the graph every table has the
entries it reads. For others there is no entry: `totalDistance[a]` and `graph[a]` insert a null
pointer, which is followed (`linkstate.cpp:278-279`, `distvec.cpp:234-236`); a missing distance to
`b` is inserted as `0`, so the destination counts as reached, and `next_hops` sets out for a node
that is not there.

Both programs go through the file line by line; what they share of that is `section Lines`. `Ready`
is a router after a build: every entry for two of its nodes is there and right, which printing
leaves so.

* `Topology.Answers` says what the right report of a message is: the cost and the hops of a shortest
  path, or that there is none.

Results:
* `LinkState.Ready.printMessages_iff`, `DistanceVector.Ready.printMessages_iff`: after a build the
  messages are printed, with the right cost or as unreachable, exactly if all their ids are nodes of
  the graph.
-/

namespace NetworkingLearning.Routing

open NetworkingLearning.Machine NetworkingLearning.Paths

/-- Both ids of a message are nodes. -/
def Topology.Knows (T : Topology) (m : Message) : Prop := m.src ∈ T.nodes ∧ m.dst ∈ T.nodes

/-- A report with a cost gives the least one of a path between two nodes; one without is about a
pair that has no path, or is not a pair of nodes. -/
def Topology.Answers (T : Topology) (r : Report) : Prop :=
  match r.route with
  | some (cost, _) => T.Knows r.message ∧ IsDist T.price r.message.src r.message.dst cost
  | none => ¬ (T.Knows r.message ∧ Reachable T.price r.message.src r.message.dst)

section Lines

variable {σ : Type} {T : Topology} {print : σ × List Report → Message → Option (σ × List Report)}
  (Good : σ → Prop)

/-- If every message between nodes is reported, so is every list of them. -/
theorem foldlM_reports
    (hprint : ∀ s reports m, Good s → T.Knows m → ∃ s' route,
      print (s, reports) m = some (s', reports ++ [⟨m, route⟩]) ∧ Good s' ∧ T.Answers ⟨m, route⟩) :
    ∀ (messages : List Message) (s : σ) (reports : List Report), Good s →
      (∀ m ∈ messages, T.Knows m) →
      ∃ s' new, messages.foldlM print (s, reports) = some (s', reports ++ new) ∧
        new.map Report.message = messages ∧ ∀ r ∈ new, T.Answers r := by
  intro messages
  induction messages with
  | nil =>
    intro s reports _ _
    exact ⟨s, [], by rw [List.append_nil]; rfl, rfl, fun r hr => absurd hr List.not_mem_nil⟩
  | cons m messages ih =>
    intro s reports hs hall
    obtain ⟨hm, hall⟩ := List.forall_mem_cons.mp hall
    obtain ⟨s1, route, h1, hs1, hok⟩ := hprint s reports m hs hm
    obtain ⟨s', new, h', hmap, hnew⟩ := ih s1 (reports ++ [⟨m, route⟩]) hs1 hall
    refine ⟨s', ⟨m, route⟩ :: new, ?_, by rw [List.map_cons, hmap],
      List.forall_mem_cons.mpr ⟨hok, hnew⟩⟩
    rw [List.foldlM_cons, h1, Option.bind_eq_bind, Option.bind_some, h', List.append_assoc]
    rfl

/-- If only messages between nodes are reported, a list that is reported has no others. -/
theorem foldlM_knows
    (hprint : ∀ s reports m st, Good s → print (s, reports) m = some st → T.Knows m ∧ Good st.1) :
    ∀ (messages : List Message) (st st' : σ × List Report), Good st.1 →
      messages.foldlM print st = some st' → (∀ m ∈ messages, T.Knows m) ∧ Good st'.1 := by
  intro messages
  induction messages with
  | nil =>
    intro st st' hs h
    obtain rfl := Option.some.inj h
    exact ⟨fun m hm => absurd hm List.not_mem_nil, hs⟩
  | cons m messages ih =>
    intro st st' hs h
    rw [List.foldlM_cons] at h
    obtain ⟨st1, h1, h⟩ := Option.bind_eq_some_iff.mp h
    obtain ⟨hm, hs1⟩ := hprint st.1 st.2 m st1 hs h1
    obtain ⟨hall, hs'⟩ := ih st1 st' hs1 h
    exact ⟨List.forall_mem_cons.mpr ⟨hm, hall⟩, hs'⟩

/-- **A list of messages is printed** exactly if all of them are between nodes. -/
theorem foldlM_iff (print : ℕ → σ × List Report → Message → Option (σ × List Report))
    (hknows : ∀ fuel s reports m st, Good s → print fuel (s, reports) m = some st →
      T.Knows m ∧ Good st.1)
    (hprint : ∃ fuel, ∀ s reports m, Good s → T.Knows m → ∃ s' route,
      print fuel (s, reports) m = some (s', reports ++ [⟨m, route⟩]) ∧ Good s' ∧
        T.Answers ⟨m, route⟩)
    {s : σ} (hs : Good s) (messages : List Message) :
    (∃ fuel st, messages.foldlM (print fuel) (s, []) = some st ∧
      st.2.map Report.message = messages ∧ ∀ r ∈ st.2, T.Answers r) ↔
        ∀ m ∈ messages, T.Knows m := by
  constructor
  · rintro ⟨fuel, st, hst, -⟩
    exact (foldlM_knows Good (hknows fuel) messages _ st hs hst).1
  · intro hall
    obtain ⟨fuel, hprint⟩ := hprint
    obtain ⟨s', new, hf, hmap, hok⟩ := foldlM_reports Good hprint messages s [] hs hall
    exact ⟨fuel, (s', new), hf, hmap, hok⟩

end Lines

namespace LinkState

/-! ## The link-state router -/

/-- The router after a build: the tables of every node are those of the topology. -/
structure Ready (T : Topology) (ls : LinkState) : Prop where
  wf : Wf T ls
  recorded : ∀ s ∈ T.nodes, Recorded T ls s

section Ready

variable {T : Topology} {ls : LinkState} {m : Message}

theorem Ready.kept {ls' : LinkState} (h : Ready T ls) (hk : Kept ls ls') : Ready T ls' := by
  refine ⟨h.wf.kept hk, fun s hs => ?_⟩
  obtain ⟨n, record, prevs, hn, hrec, hpr, hS⟩ := h.recorded s hs
  exact ⟨n, record, prevs, by rw [hk.graph, hn], by rw [hk.total, hrec], by rw [hk.prev, hpr], hS⟩

/-- Printing a row changes nothing. -/
theorem Ready.printStep_kept (h : Ready T ls) {rows : List Row} {i j : ℤ}
    {st : LinkState × List Row} (hj : j ∈ T.nodes)
    (hst : printStep (ls, rows) (i, j) = some st) : Kept ls st.1 := by
  obtain ⟨n, hn, hst⟩ := Option.bind_eq_some_iff.mp hst
  obtain ⟨next, -, hst⟩ := Option.bind_eq_some_iff.mp hst
  obtain ⟨dist, hdist, hst⟩ := Option.bind_eq_some_iff.mp hst
  have hi := (h.wf.refines.nodes i).mp (AList.lookup_isSome.mp (by rw [hn]; rfl))
  obtain ⟨_, record, _, -, hrec, -, hS, -⟩ := h.recorded i hi
  obtain rfl := Option.some.inj (hdist.symm.trans hrec)
  have hkept := kept_touch hdist ((hS.mem_record j).mpr hj)
  simp only at hst
  split at hst <;> obtain rfl := Option.some.inj hst <;> exact hkept

theorem Ready.printTable {ls' : LinkState} {rows : List Row} (h : Ready T ls)
    (hp : printTable ls = some (ls', rows)) : Ready T ls' := by
  have hrun : ∀ (ps : List (ℤ × ℤ)) (st st' : LinkState × List Row), (∀ p ∈ ps, p.2 ∈ T.nodes) →
      Ready T st.1 → ps.foldlM printStep st = some st' → Ready T st'.1 := by
    intro ps
    induction ps with
    | nil =>
      intro st st' _ hst hf
      exact Option.some.inj hf ▸ hst
    | cons p ps ih =>
      intro st st' hps hst hf
      obtain ⟨hj, hps⟩ := List.forall_mem_cons.mp hps
      rw [List.foldlM_cons] at hf
      obtain ⟨st1, h1, hf⟩ := Option.bind_eq_some_iff.mp hf
      exact ih st1 st' hps (hst.kept (hst.printStep_kept hj h1)) hf
  have hps : ∀ p ∈ allPairs ls.graph, p.2 ∈ T.nodes := fun p hp =>
    (h.wf.refines.nodes p.2).mp (mem_allPairs.mp hp).2
  exact hrun (allPairs ls.graph) (ls, []) (ls', rows) hps h hp

/-- **A message between nodes is reported.** -/
theorem Ready.printMessage_spec (h : Ready T ls) (hfin : ∀ s ∈ T.nodes, T.Finite s)
    (hm : T.Knows m) {fuel : ℕ} (hfuel : T.nodes.card ≤ fuel) (reports : List Report) :
    ∃ ls' route, printMessage fuel (ls, reports) m = some (ls', reports ++ [⟨m, route⟩]) ∧
      Ready T ls' ∧ T.Answers ⟨m, route⟩ := by
  obtain ⟨hs, ht⟩ := hm
  obtain ⟨n, record, prevs, -, hrec, hprev, hS, -⟩ := h.recorded m.src hs
  have hmem := (hS.mem_record m.dst).mpr ht
  obtain ⟨d, hd⟩ := lookup_of_mem hmem
  have hlab : (record.lookup m.dst).getD intMax = d := by rw [hd, Option.getD_some]
  have hroot := hS.rooted
  have hready := h.kept (kept_touch hrec hmem)
  unfold printMessage
  simp only [hrec, Option.bind_eq_bind, Option.bind_some, touch_of_mem hmem, valueAt_of_lookup hd]
  by_cases htop : d = intMax
  · rw [touch_of_mem hmem] at hready
    refine ⟨_, none, by rw [if_neg (not_not.mpr htop)], hready, ?_⟩
    rintro ⟨-, hr⟩
    obtain ⟨e, he⟩ := hr.exists_isDist T.positive
    obtain ⟨l, hl⟩ := he.attained
    have hle : (record.lookup m.dst).getD intMax ≤ e := hroot.labelling.le_walk T.positive hl
    have hlt : e < intMax := hfin m.src hs m.dst e he
    omega
  · have hlt : (record.lookup m.dst).getD intMax < intMax :=
      lt_of_le_of_ne (hroot.labelling.le_top m.dst) (hlab ▸ htop)
    obtain ⟨k, l, hc, hlen, l', hl', -⟩ := (hroot.tight T.positive T.symmetric).chain_within
      T.positive hroot.labelling.root (hroot.nonneg T.positive (by decide)) T.within ht hlt
    rw [touch_of_mem hmem] at hready
    have hhops : nextHops { ls with totalDistance := ls.totalDistance.insert m.src record } fuel
        m.src m.dst = some (l' ++ [m.src]) := nextHops_eq hprev hc hl' (hlen.trans hfuel)
    refine ⟨_, some (d, printedHops (l' ++ [m.src])), ?_, hready, ⟨hs, ht⟩, ?_⟩
    · rw [if_pos htop, hhops]
      rfl
    · have hdist := hroot.labelling.isDist T.positive hlt
      rwa [hlab] at hdist

/-- **A message that is reported is one between nodes**: an unknown source has no distances, and
an unknown destination has no predecessor. -/
theorem Ready.printMessage_knows (h : Ready T ls) {fuel : ℕ} {reports : List Report}
    {st : LinkState × List Report} (hst : printMessage fuel (ls, reports) m = some st) :
    T.Knows m ∧ Ready T st.1 := by
  obtain ⟨dist, hdist, hst⟩ := Option.bind_eq_some_iff.mp hst
  have hs := h.wf.totals m.src (AList.lookup_isSome.mp (by rw [hdist]; rfl))
  obtain ⟨_, record, prevs, -, hrec, hprev, hS, -⟩ := h.recorded m.src hs
  obtain rfl := Option.some.inj (hdist.symm.trans hrec)
  simp only at hst
  have ht : m.dst ∈ T.nodes := by
    by_contra ht
    have hnone : dist.lookup m.dst = none :=
      AList.lookup_eq_none.mpr fun hm => ht ((hS.mem_record m.dst).mp hm)
    have hpnone : prevs.lookup m.dst = none :=
      AList.lookup_eq_none.mpr fun hm => ht (hS.mem_prevs m.dst hm)
    have hne : m.dst ≠ m.src := fun e => ht (e ▸ hs)
    have hval : valueAt (touch dist m.dst) m.dst = 0 := by
      rw [valueAt_touch, valueAt, hnone, Option.getD_none]
    rw [if_pos (by rw [hval]; decide)] at hst
    obtain ⟨hops, hhops, -⟩ := Option.bind_eq_some_iff.mp hst
    unfold nextHops at hhops
    simp only [hprev, Option.bind_eq_bind, Option.bind_some] at hhops
    cases fuel <;> simp [hopsLoop, hne, hpnone] at hhops
  have hkept := kept_touch hdist ((hS.mem_record m.dst).mpr ht)
  refine ⟨⟨hs, ht⟩, h.kept ?_⟩
  split at hst
  · obtain ⟨hops, -, hst⟩ := Option.bind_eq_some_iff.mp hst
    exact Option.some.inj hst ▸ hkept
  · exact Option.some.inj hst ▸ hkept

/-- Printing messages changes nothing. -/
theorem Ready.printMessages_knows (h : Ready T ls) {fuel : ℕ} {messages : List Message}
    {st : LinkState × List Report} (hst : printMessages fuel ls messages = some st) :
    (∀ m ∈ messages, T.Knows m) ∧ Ready T st.1 :=
  foldlM_knows (Ready T) (fun _ _ _ _ hr hp => hr.printMessage_knows hp) messages _ st h hst

/-- **The messages are printed exactly if all ids are nodes.** -/
theorem Ready.printMessages_iff (h : Ready T ls) (hfin : ∀ s ∈ T.nodes, T.Finite s)
    (messages : List Message) :
    (∃ fuel st, printMessages fuel ls messages = some st ∧
      st.2.map Report.message = messages ∧ ∀ r ∈ st.2, T.Answers r) ↔
        ∀ m ∈ messages, T.Knows m :=
  foldlM_iff (Ready T) printMessage (fun _ _ _ _ _ hr hp => hr.printMessage_knows hp)
    ⟨T.nodes.card, fun _ reports _ hr hm => hr.printMessage_spec hfin hm (le_refl _) reports⟩ h
    messages

end Ready

end LinkState

namespace DistanceVector

/-! ## The distance-vector router -/

/-- The router after a build: nobody has anything to send. -/
structure Ready (T : Topology) (dv : DistanceVector) : Prop where
  wf : Wf T dv.graph
  quiet : ∀ u n w, T.price u n = some w → ¬ Fresh dv.graph n

section Hops

variable {T : Topology} {t : ℤ}

/-- Following the next hops reads forwarding tables, and changes nothing else. -/
theorem hopsLoop_keeps : ∀ (fuel : ℕ) (g : IntMap Node) (v : ℤ) (r : IntMap Node × List ℤ),
    Wf T g → hopsLoop t fuel g v = some r → Wf T r.1 ∧ Fresh r.1 = Fresh g := by
  intro fuel
  induction fuel with
  | zero =>
    intro g v r _ hr
    exact absurd hr (by simp [hopsLoop])
  | succ fuel ih =>
    intro g v r hW hr
    obtain ⟨n, hn, hr⟩ := Option.bind_eq_some_iff.mp hr
    obtain ⟨m, -, hr⟩ := Option.bind_eq_some_iff.mp hr
    obtain ⟨hW', -, hfresh⟩ := hW.touchHop hn t
    split at hr
    · obtain ⟨r', hr', he⟩ := Option.bind_eq_some_iff.mp hr
      obtain rfl := Option.some.inj he
      obtain ⟨hWr, hfr⟩ := ih _ _ r' hW' hr'
      exact ⟨hWr, hfr.trans hfresh⟩
    · obtain rfl := Option.some.inj hr
      exact ⟨hW', hfresh⟩

/-- **Next hops never lead to a node that is not there**: whatever the forwarding tables say, the
walk is at a null pointer or goes on. -/
theorem hopsLoop_unknown : ∀ (fuel : ℕ) (g : IntMap Node) (v : ℤ),
    (∀ k n, g.lookup k = some n → n.id = k) → t ∉ g → hopsLoop t fuel g v = none := by
  intro fuel
  induction fuel with
  | zero => exact fun _ _ _ _ => rfl
  | succ fuel ih =>
    intro g v hids ht
    refine Option.eq_none_iff_forall_ne_some.mpr fun r hr => ?_
    obtain ⟨n, hn, hr⟩ := Option.bind_eq_some_iff.mp hr
    obtain ⟨m, hm, hr⟩ := Option.bind_eq_some_iff.mp hr
    have hids' : ∀ k m, (g.insert v (n.touchHop t)).lookup k = some m → m.id = k := by
      intro k m hm
      by_cases hk : k = v
      · subst hk
        rw [AList.lookup_insert] at hm
        exact Option.some.inj hm ▸ hids k n hn
      · rw [AList.lookup_insert_ne hk] at hm
        exact hids k m hm
    have ht' : t ∉ g.insert v (n.touchHop t) := by
      rw [AList.mem_insert, not_or]
      refine ⟨?_, ht⟩
      rintro rfl
      exact ht (AList.lookup_isSome.mp (by rw [hn]; rfl))
    have hid : m.id = valueAt (n.touchHop t).forwardingTable t := hids' _ m hm
    split at hr
    · obtain ⟨r', hr', -⟩ := Option.bind_eq_some_iff.mp hr
      have hnone := ih (g.insert v (n.touchHop t)) (valueAt (n.touchHop t).forwardingTable t)
        hids' ht'
      exact absurd (hnone.symm.trans hr') (by simp)
    · rename_i hmt
      have hmem : valueAt (n.touchHop t).forwardingTable t ∈ g.insert v (n.touchHop t) :=
        AList.lookup_isSome.mp (Option.isSome_iff_exists.mpr ⟨m, hm⟩)
      rw [← hid, not_not.mp hmt] at hmem
      exact ht' hmem

end Hops

section Ready

variable {T : Topology} {dv : DistanceVector} {m : Message}

theorem Ready.congr {g : IntMap Node} (h : Ready T dv)
    (hl : ∀ u, g.lookup u = dv.graph.lookup u) : Ready T ⟨g⟩ := by
  refine ⟨h.wf.congr hl, fun u n w hw => ?_⟩
  rw [Fresh, hl]
  exact h.quiet u n w hw

theorem Ready.printTable {dv' : DistanceVector} {rows : List Row} (h : Ready T dv)
    (hp : printTable dv = some (dv', rows)) : Ready T dv' := by
  obtain ⟨dv1, rows1, hp1, hW, hfresh, -⟩ := printTable_spec h.wf
  rw [hp] at hp1
  obtain ⟨rfl, -⟩ := Prod.mk.inj (Option.some.inj hp1)
  exact ⟨hW, hfresh ▸ h.quiet⟩

/-- Reading a distance that is there. -/
theorem Ready.lookup_touch (h : Ready T dv) {n : Node} (hn : dv.graph.lookup m.src = some n)
    (ht : m.dst ∈ T.nodes) (u : ℤ) : (dv.graph.insert m.src { n with
        distanceToThatNode := touch n.distanceToThatNode m.dst }).lookup u =
      dv.graph.lookup u := by
  rw [touch_of_mem (((h.wf.node m.src n hn).keys m.dst).mpr ht)]
  by_cases hu : u = m.src
  · rw [hu, AList.lookup_insert, hn]
  · rw [AList.lookup_insert_ne hu]

/-- `next_hops` ends for a node that is reached, also for the source itself. -/
theorem Ready.nextHops_ends (h : Ready T dv) {g : IntMap Node} {s t : ℤ}
    (hg : ∀ u, g.lookup u = dv.graph.lookup u) (hs : s ∈ T.nodes) (ht : t ∈ T.nodes)
    (hlt : labels dv.graph s t < intMax) {fuel : ℕ} (hfuel : T.nodes.card ≤ fuel) :
    ∃ g' l, nextHops ⟨g⟩ fuel s t = some (⟨g'⟩, l) ∧ ∀ u, g'.lookup u = dv.graph.lookup u := by
  by_cases hst : s = t
  · subst hst
    obtain ⟨n, hn⟩ := h.wf.refines.exists_lookup hs
    obtain ⟨fuel, rfl⟩ : ∃ f, fuel = f + 1 :=
      ⟨fuel - 1, by have := Finset.card_pos.mpr ⟨s, hs⟩; omega⟩
    have hself : (g.insert s n).lookup s = some n := AList.lookup_insert _
    have hstep := hopsLoop_step fuel (by rw [hg, hn]) (h.wf.node s n hn).hop_self hself
    rw [if_neg (not_not.mpr (h.wf.node s n hn).id)] at hstep
    refine ⟨g.insert s n, [n.id], by rw [nextHops, hstep]; rfl, fun u => ?_⟩
    by_cases hu : u = s
    · rw [hu, hself, hn]
    · rw [AList.lookup_insert_ne hu, hg]
  · have hL := h.wf.labelling h.quiet ht
    have hT := h.wf.exchanging.tight h.quiet t
    have hnn : ∀ v, 0 ≤ labels dv.graph v t := by
      intro v
      by_cases hv : labels dv.graph v t < intMax
      · exact h.wf.exchanging.nonneg T.positive hv
      · have h0 : 0 ≤ intMax := by decide
        omega
    obtain ⟨k, l, hc, hlen, -⟩ :=
      hT.chain_within T.positive hL.root hnn T.within hs hlt
    obtain ⟨g', hg', hl'⟩ := hopsLoop_spec h.wf hT l hg hc hst hlt fuel (hlen.trans hfuel)
    exact ⟨g', l, by rw [nextHops, hg']; rfl, hl'⟩

/-- **A message between nodes is reported.** -/
theorem Ready.printMessage_spec (h : Ready T dv) (hfin : ∀ s ∈ T.nodes, T.Finite s)
    (hm : T.Knows m) {fuel : ℕ} (hfuel : T.nodes.card ≤ fuel) (reports : List Report) :
    ∃ dv' route, printMessage fuel (dv, reports) m = some (dv', reports ++ [⟨m, route⟩]) ∧
      Ready T dv' ∧ T.Answers ⟨m, route⟩ := by
  obtain ⟨hs, ht⟩ := hm
  obtain ⟨n, hn⟩ := h.wf.refines.exists_lookup hs
  have hok := h.wf.node m.src n hn
  have hd := h.wf.lookup_distance hn ht
  have hl := fun u => h.lookup_touch hn ht u
  have hL := h.wf.labelling h.quiet ht
  have hval : valueAt (touch n.distanceToThatNode m.dst) m.dst = labels dv.graph m.src m.dst := by
    rw [touch_of_mem ((hok.keys m.dst).mpr ht), valueAt_of_lookup hd]
  unfold printMessage
  simp only [hn, Option.bind_eq_bind, Option.bind_some, hval]
  by_cases htop : labels dv.graph m.src m.dst = intMax
  · refine ⟨_, none, by rw [if_neg fun hc => hc.1 htop], h.congr hl, ?_⟩
    rintro ⟨-, hr⟩
    obtain ⟨e, he⟩ := hr.exists_isDist T.positive
    obtain ⟨l, hwalk⟩ := (he.symm T.symmetric).attained
    have hle : labels dv.graph m.src m.dst ≤ e := hL.le_walk T.positive hwalk
    have hlt : e < intMax := hfin m.src hs m.dst e he
    omega
  · have hlt := lt_of_le_of_ne (hL.le_top m.src) htop
    have h0 := h.wf.exchanging.nonneg T.positive hlt
    obtain ⟨g', l, hhops, hl'⟩ := h.nextHops_ends hl hs ht hlt hfuel
    refine ⟨⟨g'⟩, some (labels dv.graph m.src m.dst, l), ?_, h.congr hl', ⟨hs, ht⟩, ?_⟩
    · rw [if_pos ⟨htop, h0⟩, hhops]
      rfl
    · exact (hL.isDist T.positive hlt).symm T.symmetric

/-- **A message that is reported is one between nodes.** -/
theorem Ready.printMessage_knows (h : Ready T dv) {fuel : ℕ} {reports : List Report}
    {st : DistanceVector × List Report} (hst : printMessage fuel (dv, reports) m = some st) :
    T.Knows m ∧ Ready T st.1 := by
  obtain ⟨n, hn, hst⟩ := Option.bind_eq_some_iff.mp hst
  have hs := (h.wf.refines.nodes m.src).mp (AList.lookup_isSome.mp (by rw [hn]; rfl))
  have hok := h.wf.node m.src n hn
  simp only at hst
  have ht : m.dst ∈ T.nodes := by
    by_contra ht
    have hnone : n.distanceToThatNode.lookup m.dst = none :=
      AList.lookup_eq_none.mpr fun hm => ht ((hok.keys m.dst).mp hm)
    have hval : valueAt (touch n.distanceToThatNode m.dst) m.dst = 0 := by
      rw [valueAt_touch, valueAt, hnone, Option.getD_none]
    rw [if_pos (by rw [hval]; decide)] at hst
    obtain ⟨r, hr, -⟩ := Option.bind_eq_some_iff.mp hst
    obtain ⟨r', hr', -⟩ := Option.bind_eq_some_iff.mp hr
    rw [hopsLoop_unknown] at hr'
    · exact absurd hr' (by simp)
    · intro k a ha
      by_cases hk : k = m.src
      · subst hk
        rw [AList.lookup_insert] at ha
        exact Option.some.inj ha ▸ hok.id
      · rw [AList.lookup_insert_ne hk] at ha
        exact (h.wf.node k a ha).id
    · rw [AList.mem_insert, not_or]
      exact ⟨fun e => ht (e ▸ hs), fun hm => ht ((h.wf.refines.nodes m.dst).mp hm)⟩
  have hready := h.congr fun u => h.lookup_touch hn ht u
  refine ⟨⟨hs, ht⟩, ?_⟩
  split at hst
  · obtain ⟨r, hr, hst⟩ := Option.bind_eq_some_iff.mp hst
    obtain ⟨r', hr', he⟩ := Option.bind_eq_some_iff.mp hr
    obtain ⟨hW, hfresh⟩ := hopsLoop_keeps _ _ _ r' hready.wf hr'
    obtain rfl := Option.some.inj he
    obtain rfl := Option.some.inj hst
    exact ⟨hW, hfresh ▸ hready.quiet⟩
  · exact Option.some.inj hst ▸ hready

/-- Printing messages keeps the router as it is. -/
theorem Ready.printMessages_knows (h : Ready T dv) {fuel : ℕ} {messages : List Message}
    {st : DistanceVector × List Report} (hst : printMessages fuel dv messages = some st) :
    (∀ m ∈ messages, T.Knows m) ∧ Ready T st.1 :=
  foldlM_knows (Ready T) (fun _ _ _ _ hr hp => hr.printMessage_knows hp) messages _ st h hst

/-- **The messages are printed exactly if all ids are nodes.** -/
theorem Ready.printMessages_iff (h : Ready T dv) (hfin : ∀ s ∈ T.nodes, T.Finite s)
    (messages : List Message) :
    (∃ fuel st, printMessages fuel dv messages = some st ∧
      st.2.map Report.message = messages ∧ ∀ r ∈ st.2, T.Answers r) ↔
        ∀ m ∈ messages, T.Knows m :=
  foldlM_iff (Ready T) printMessage (fun _ _ _ _ _ hr hp => hr.printMessage_knows hp)
    ⟨T.nodes.card, fun _ reports _ hr hm => hr.printMessage_spec hfin hm (le_refl _) reports⟩ h
    messages

end Ready

end DistanceVector

end NetworkingLearning.Routing
