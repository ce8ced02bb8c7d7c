import NetworkingLearning.Routing.Rounds

/-!
# The tables of the distance-vector router (`distvec.cpp:129-287`)

The invariant `Wf` holds after every line, every `build_nodes_forwarding_tables` and every printed
table (`Reach.wf`): a line resets all distances but neither the forwarding tables nor the flags
(`distvec.cpp:258-266`, `distvec.cpp:80-85`), so what matters is that no finite distance is left
without a fresh next hop, and that of two linked nodes both are flagged. Printing inserts entries
into the forwarding tables (`distvec.cpp:214`), none of them where a distance is finite.

When the exchange has ended, the labels are a `Labelling` for every destination, and the next hops
are tight. Following them is a chain, now towards the root and not away from it; so `next_hops` is
loop-free by the same lemma as the paths of the other program.

Results:
* `distanceToThatNode_shortest`: when the exchange has ended, every distance is the shortest one,
  `INT_MAX` exactly when there is none.
* `nextHops_loopFree`: `next_hops` ends, along current links, without visiting a node twice, at the
  price of the distance.
-/

namespace NetworkingLearning.Routing.DistanceVector

open NetworkingLearning.Machine NetworkingLearning.Paths

/-! ## Lines -/

/-- The inner loop of `initial_all_dist`: `INT_MAX` everywhere but at the node itself. -/
theorem initialDist_spec (i : ℤ) : ∀ (keys : List ℤ) (n : Node),
    ∃ dist, n.initialDist keys i = { n with
        distanceToThatNode := dist
        beUpdated := n.beUpdated || keys.any (· ≠ i) } ∧
      ∀ x, dist.lookup x =
        if x ∈ keys ∧ x ≠ i then some intMax else n.distanceToThatNode.lookup x := by
  intro keys
  induction keys with
  | nil =>
    intro n
    exact ⟨n.distanceToThatNode, by simp [Node.initialDist], fun x => by simp⟩
  | cons k keys ih =>
    intro n
    by_cases hk : i = k
    · obtain ⟨dist, hd, hl⟩ := ih n
      refine ⟨dist, ?_, fun x => ?_⟩
      · subst hk
        simp only [Node.initialDist, List.foldl_cons, ne_eq, not_true_eq_false, if_false] at hd ⊢
        rw [hd]
        simp
      · rw [hl]
        by_cases hx : x = k
        · simp [hx, hk]
        · simp [hx]
    · obtain ⟨dist, hd, hl⟩ := ih (n.initialDistanceOfNode k)
      refine ⟨dist, ?_, fun x => ?_⟩
      · have hk' : k ≠ i := fun e => hk e.symm
        simp only [Node.initialDist, List.foldl_cons, ne_eq, hk, not_false_eq_true, if_true]
          at hd ⊢
        rw [hd]
        simp [Node.initialDistanceOfNode, hk']
      · rw [hl]
        by_cases hx : x = k
        · subst hx
          have hk' : x ≠ i := fun e => hk e.symm
          simp [Node.initialDistanceOfNode, hk']
        · simp [hx, Node.initialDistanceOfNode, AList.lookup_insert_ne hx]

@[simp] theorem lookup_initialAllDist (graph : IntMap Node) (u : ℤ) :
    (initialAllDist graph).lookup u =
      (graph.lookup u).map (Node.initialDist (sortedKeys graph) u) := by
  unfold initialAllDist
  rw [lookup_foldl_modify _ u (sortedKeys graph) (nodup_sortedKeys graph)]
  split
  · rfl
  · rename_i hu
    rw [AList.lookup_eq_none.mpr fun h => hu (mem_sortedKeys.mpr h), Option.map_none]

/-- What a node keeps while its line is read, before the distances are reset. -/
structure NodeRaw (nodes : Finset ℤ) (u : ℤ) (n : Node) : Prop where
  id : n.id = u
  keys : ∀ x, x ∈ n.distanceToThatNode → x ∈ nodes
  self : n.distanceToThatNode.lookup u = some 0
  hops : ∀ x f, n.forwardingTable.lookup x = some f → f = 0 ∨ f ∈ nodes
  hop_self : n.forwardingTable.lookup u = some u
  queue : n.updatesFromNei = []

theorem nodeRaw_buildEnd {nodes : Finset ℤ} {graph : IntMap Node} {node nei dist : ℤ}
    (hnode : node ∈ nodes) (h : ∀ k n, graph.lookup k = some n → NodeRaw nodes k n) :
    ∀ k n, (buildEnd nodeClass graph node nei dist).lookup k = some n → NodeRaw nodes k n := by
  refine buildEnd_induction nodeClass ⟨rfl, fun x hx => ?_, AList.lookup_insert _,
    fun x f hf => ?_, AList.lookup_insert _, rfl⟩ (fun n hn => ?_) (fun n hn => ?_) h
  · rcases (AList.mem_insert _).mp hx with rfl | hx
    · exact hnode
    · exact absurd hx (AList.notMem_empty _)
  · by_cases hx : x = node
    · subst hx
      rw [show (nodeClass.new x).forwardingTable = (∅ : IntMap ℤ).insert x x from rfl,
        AList.lookup_insert] at hf
      exact Or.inr (Option.some.inj hf ▸ hnode)
    · rw [show (nodeClass.new node).forwardingTable = (∅ : IntMap ℤ).insert node node from rfl,
        AList.lookup_insert_ne hx] at hf
      exact absurd hf (by simp)
  · exact ⟨hn.id, hn.keys, hn.self, hn.hops, hn.hop_self, hn.queue⟩
  · exact ⟨hn.id, hn.keys, hn.self, hn.hops, hn.hop_self, hn.queue⟩

section Line

variable {T : Topology} {graph : IntMap Node}

section Reset

variable (hR : Refines nodeClass graph T)
  (hraw : ∀ k n, graph.lookup k = some n → NodeRaw T.nodes k n) {u : ℤ} {n' : Node}
  (hn' : (initialAllDist graph).lookup u = some n')

include hR

theorem refines_reset : Refines nodeClass (initialAllDist graph) T := by
  refine hR.congr fun u => ?_
  rw [lookup_initialAllDist]
  cases graph.lookup u with
  | none => rfl
  | some n =>
    obtain ⟨dist, hd, -⟩ := initialDist_spec u (sortedKeys graph) n
    rw [Option.map_some, hd]
    rfl

include hraw hn'

/-- A node after the reset, and the one it comes from. -/
theorem reset_node : ∃ n dist, NodeRaw T.nodes u n ∧ u ∈ T.nodes ∧
    n' = { n with
      distanceToThatNode := dist
      beUpdated := n.beUpdated || (sortedKeys graph).any (· ≠ u) } ∧
    ∀ x, dist.lookup x = if x = u then some 0 else if x ∈ T.nodes then some intMax else none := by
  rw [lookup_initialAllDist] at hn'
  obtain ⟨n, hn, rfl⟩ := Option.map_eq_some_iff.mp hn'
  obtain ⟨dist, hd, hl⟩ := initialDist_spec u (sortedKeys graph) n
  have hr := hraw u n hn
  refine ⟨n, dist, hr, (hR.nodes u).mp (AList.lookup_isSome.mp (by rw [hn]; rfl)), hd,
    fun x => ?_⟩
  simp only [hl, mem_sortedKeys, hR.nodes]
  by_cases hx : x = u
  · subst hx
    simp [hr.self]
  · by_cases hxT : x ∈ T.nodes
    · simp [hx, hxT]
    · have : n.distanceToThatNode.lookup x = none :=
        AList.lookup_eq_none.mpr fun h => hxT (hr.keys x h)
      simp [hx, hxT, this]

theorem label_reset (x : ℤ) : n'.label x = if x = u then 0 else intMax := by
  obtain ⟨n, dist, -, -, rfl, hd⟩ := reset_node hR hraw hn'
  rw [Node.label, hd]
  split
  · rfl
  · split <;> rfl

theorem nodeOk_reset : NodeOk T u n' := by
  have hlab := label_reset hR hraw hn'
  obtain ⟨n, dist, hr, hu, rfl, hd⟩ := reset_node hR hraw hn'
  refine ⟨hr.id, fun x => ?_, ?_, fun x d hxd => ?_, fun x hxu hlt => ?_, hr.hops, hr.hop_self⟩
  · rw [← AList.lookup_isSome, hd]
    by_cases hx : x = u
    · simp [hx, hu]
    · by_cases hxT : x ∈ T.nodes <;> simp [hx, hxT]
  · rw [hd, if_pos rfl]
  · rw [hd] at hxd
    have h0 : (0 : ℤ) ≤ intMax := by decide
    split at hxd
    · exact Option.some.inj hxd ▸ ⟨le_refl 0, h0⟩
    · split at hxd
      · exact Option.some.inj hxd ▸ ⟨h0, le_refl _⟩
      · exact absurd hxd (by simp)
  · rw [hlab, if_neg hxu] at hlt
    exact absurd hlt (lt_irrefl _)

omit hn'

/-- The only finite distances are those of the nodes to themselves. -/
theorem labels_reset (u x : ℤ) : labels (initialAllDist graph) u x = intMax ∨
    (u = x ∧ labels (initialAllDist graph) u x = 0) := by
  cases hu : (initialAllDist graph).lookup u with
  | none => exact Or.inl (by rw [labels, hu]; rfl)
  | some n' =>
    rw [labels_of_lookup hu, label_reset hR hraw hu x]
    split
    · rename_i hx
      exact Or.inr ⟨hx.symm, rfl⟩
    · exact Or.inl rfl

theorem labels_reset_self {x : ℤ} (hx : x ∈ T.nodes) : labels (initialAllDist graph) x x = 0 := by
  obtain ⟨n', hn'⟩ := (refines_reset hR).exists_lookup hx
  rw [labels_of_lookup hn', label_reset hR hraw hn' x, if_pos rfl]

/-- No link has been looked at yet. -/
theorem stepped_reset : Stepped T.price intMax T.nodes 0 (labels (initialAllDist graph)) := by
  constructor
  · intro u x hlt
    rcases labels_reset hR hraw u x with h | ⟨rfl, h⟩
    · exact absurd h hlt.ne
    · exact ⟨[], by rw [h]; exact Walk.nil u, le_refl _⟩
  · intro u x hx l d hl hk
    cases hl with
    | nil => exact (labels_reset_self hR hraw hx).le
    | cons => exact absurd hk (by simp)

/-- Of two linked nodes both are flagged: each is reset at the other. -/
theorem fresh_reset {u n w : ℤ} (hw : T.price u n = some w) (hun : u ≠ n) :
    Fresh (initialAllDist graph) n := by
  obtain ⟨huT, hnT⟩ := T.within u n w hw
  obtain ⟨n', hn'⟩ := (refines_reset hR).exists_lookup hnT
  obtain ⟨n0, _, -, -, he, -⟩ := reset_node hR hraw hn'
  refine ⟨n', hn', ?_⟩
  rw [he]
  simp only [Bool.or_eq_true, List.any_eq_true, decide_eq_true_eq]
  exact Or.inr ⟨u, mem_sortedKeys.mpr ((hR.nodes u).mpr huT), hun⟩

/-- **After a line** only the distances of the nodes to themselves are finite, and of two linked
nodes both are flagged, whatever the forwarding tables still hold. -/
theorem Wf.reset : Wf T (initialAllDist graph) where
  refines := refines_reset hR
  node _ _ hn' := nodeOk_reset hR hraw hn'
  queue u n' hn' := by
    obtain ⟨n, dist, hr, -, rfl, -⟩ := reset_node hR hraw hn'
    exact hr.queue
  exchanging := by
    have hL := labels_reset hR hraw
    refine Exchanging.init (fun x hx => ?_) (fun u x => ?_) (fun u x hlt => ?_)
      (fun u n w hw hn => ?_) T.positive
    · exact labels_reset_self hR hraw hx
    · rcases hL u x with h | ⟨-, h⟩ <;> rw [h]
      decide
    · rcases hL u x with h | h
      · rw [h] at hlt
        exact absurd hlt (lt_irrefl _)
      · exact h
    · by_contra hun
      exact hn (fresh_reset hR hraw hw hun)
  steps := ⟨0, stepped_reset hR hraw⟩

end Reset

theorem Wf.init : Wf Topology.empty init.graph :=
  ⟨Refines.empty, fun u n hn => absurd hn (by simp),
    fun u n hn => absurd hn (by simp),
    Exchanging.init (fun x hx => absurd hx (Finset.notMem_empty x))
      (fun u x => by simp [labels])
      (fun u x hlt => absurd hlt (by simp [labels]))
      (fun u n w hw => absurd hw (by simp)) Topology.empty.positive,
    0, fun u x hlt => absurd hlt (by simp [labels]),
    fun u x hx => absurd hx (Finset.notMem_empty x)⟩

/-- What the lines of a node's links leave of it. -/
theorem Wf.raw (h : Wf T graph) (node1 node2 dist : ℤ) :
    ∀ k n, (buildGraph nodeClass graph node1 node2 dist).lookup k = some n →
      NodeRaw (T.line node1 node2 dist).nodes k n := by
  have hmono : ∀ v, v ∈ T.nodes → v ∈ (T.line node1 node2 dist).nodes := fun v hv => by
    simp [Topology.line, hv]
  refine nodeRaw_buildEnd (by simp [Topology.line])
    (nodeRaw_buildEnd (by simp [Topology.line]) fun k n hn => ?_)
  have hok := h.node k n hn
  exact ⟨hok.id, fun x hx => hmono x ((hok.keys x).mp hx), hok.self,
    fun x f hf => (hok.hops x f hf).imp id (hmono f), hok.hop_self, h.queue k n hn⟩

theorem Wf.line (h : Wf T graph) (node1 node2 dist : ℤ) :
    Wf (T.line node1 node2 dist) (initialAllDist (buildGraph nodeClass graph node1 node2 dist)) :=
  Wf.reset (h.refines.line node1 node2 dist) (h.raw node1 node2 dist)

end Line

/-! ## Printing -/

section Print

variable {T : Topology} {graph : IntMap Node}

/-- A node whose forwarding table was read at `j`. -/
def Node.touchHop (n : Node) (j : ℤ) : Node :=
  { n with forwardingTable := touch n.forwardingTable j }

theorem NodeOk.touchHop {u : ℤ} {n : Node} (h : NodeOk T u n) (j : ℤ) :
    NodeOk T u (n.touchHop j) := by
  refine ⟨h.id, h.keys, h.self, h.range, fun x hxu hlt => ?_, fun x f hf => ?_,
    lookup_touch h.hop_self j⟩
  · obtain ⟨f, hf⟩ := lookup_of_mem (h.hop x hxu hlt)
    exact AList.lookup_isSome.mp (Option.isSome_iff_exists.mpr ⟨f, lookup_touch hf j⟩)
  · rcases touch_cases hf with h0 | hf
    · exact Or.inl h0
    · exact h.hops x f hf

/-- **Reading a forwarding table** may insert an entry, and changes nothing else. -/
theorem Wf.touchHop (h : Wf T graph) {i : ℤ} {n : Node} (hn : graph.lookup i = some n) (j : ℤ) :
    Wf T (graph.insert i (n.touchHop j)) ∧
      labels (graph.insert i (n.touchHop j)) = labels graph ∧
      Fresh (graph.insert i (n.touchHop j)) = Fresh graph := by
  have hself : (graph.insert i (n.touchHop j)).lookup i = some (n.touchHop j) :=
    AList.lookup_insert _
  have hother : ∀ u, u ≠ i → (graph.insert i (n.touchHop j)).lookup u = graph.lookup u :=
    fun u hu => AList.lookup_insert_ne hu
  have hlab : labels (graph.insert i (n.touchHop j)) = labels graph := by
    funext u x
    by_cases hu : u = i
    · subst hu
      rw [labels_of_lookup hself, labels_of_lookup hn]
      rfl
    · rw [labels, labels, hother u hu]
  have hfresh : Fresh (graph.insert i (n.touchHop j)) = Fresh graph := by
    funext u
    by_cases hu : u = i
    · subst hu
      simp [Fresh, hn, Node.touchHop]
    · rw [Fresh, Fresh, hother u hu]
  refine ⟨⟨h.refines.congr fun u => ?_, fun u m hm => ?_, fun u m hm => ?_, ?_, hlab ▸ h.steps⟩,
    hlab, hfresh⟩
  · by_cases hu : u = i
    · subst hu
      rw [hself, hn]
      rfl
    · rw [hother u hu]
  · by_cases hu : u = i
    · subst hu
      exact Option.some.inj (hself.symm.trans hm) ▸ (h.node u n hn).touchHop j
    · exact h.node u m (by rw [← hother u hu, hm])
  · by_cases hu : u = i
    · subst hu
      exact Option.some.inj (hself.symm.trans hm) ▸ h.queue u n hn
    · exact h.queue u m (by rw [← hother u hu, hm])
  · rw [hfresh, hlab]
    refine h.exchanging.extend fun u x f hf => ?_
    by_cases hu : u = i
    · subst hu
      rw [hops_of_lookup hn] at hf
      rw [hops_of_lookup hself]
      exact lookup_touch hf j
    · rw [hops, hother u hu]
      exact hf

/-- One row of `print_results`: a forwarding entry may be inserted, where the distance is
`INT_MAX`; the distances stay. -/
theorem printStep_spec (h : Wf T graph) (rows : List Row) {i j : ℤ} (hi : i ∈ T.nodes)
    (hj : j ∈ T.nodes) :
    ∃ graph' rows', printStep (graph, rows) (i, j) = some (graph', rows') ∧ Wf T graph' ∧
      labels graph' = labels graph ∧ Fresh graph' = Fresh graph ∧
      rows'.map Row.entry = rows.map Row.entry ++
        (if labels graph i j < intMax then [(i, j, labels graph i j)] else []) := by
  obtain ⟨n, hn⟩ := h.refines.exists_lookup hi
  have hok := h.node i n hn
  have hd := hok.lookup_label hj
  obtain ⟨h0, hm⟩ := hok.range j _ hd
  obtain ⟨hW, hlab, hfresh⟩ := h.touchHop hn j
  have hstep : printStep (graph, rows) (i, j) = some (graph.insert i (n.touchHop j),
      if n.label j ≠ intMax ∧ n.label j ≥ 0
      then rows ++ [⟨i, j, valueAt (n.touchHop j).forwardingTable j, n.label j⟩] else rows) := by
    unfold printStep
    simp only [hn, touch_of_mem ((hok.keys j).mpr hj), valueAt_of_lookup hd, Option.bind_eq_bind,
      Option.bind_some]
    split <;> rfl
  refine ⟨_, _, hstep, hW, hlab, hfresh, ?_⟩
  rw [labels_of_lookup hn j]
  by_cases hlt : n.label j < intMax
  · rw [if_pos ⟨hlt.ne, h0⟩, if_pos hlt, List.map_append]
    rfl
  · rw [if_neg fun hc => hlt (lt_of_le_of_ne hm hc.1), if_neg hlt, List.append_nil]

theorem foldlM_printStep : ∀ (ps : List (ℤ × ℤ)) (graph : IntMap Node) (rows : List Row),
    Wf T graph → (∀ p ∈ ps, p.1 ∈ T.nodes ∧ p.2 ∈ T.nodes) →
      ∃ graph' rows', ps.foldlM printStep (graph, rows) = some (graph', rows') ∧ Wf T graph' ∧
        labels graph' = labels graph ∧ Fresh graph' = Fresh graph ∧
        rows'.map Row.entry = rows.map Row.entry ++ ps.flatMap fun p =>
          if labels graph p.1 p.2 < intMax then [(p.1, p.2, labels graph p.1 p.2)] else [] := by
  intro ps
  induction ps with
  | nil =>
    intro graph rows h _
    exact ⟨graph, rows, rfl, h, rfl, rfl, by simp⟩
  | cons p ps ih =>
    intro graph rows h hps
    obtain ⟨hi, hj⟩ := hps p List.mem_cons_self
    obtain ⟨graph1, rows1, h1, hW1, hl1, hf1, hr1⟩ := printStep_spec h rows hi hj
    obtain ⟨graph', rows', h', hW', hl', hf', hr'⟩ := ih graph1 rows1 hW1 fun q hq =>
      hps q (List.mem_cons_of_mem p hq)
    refine ⟨graph', rows', by rw [List.foldlM_cons, h1]; exact h', hW', hl'.trans hl1,
      hf'.trans hf1, ?_⟩
    rw [hr', hr1, List.flatMap_cons, List.append_assoc]
    simp only [hl1]

/-- **The table part of `print_results`**: a row for every pair with a finite distance. -/
theorem printTable_spec {dv : DistanceVector} (h : Wf T dv.graph) :
    ∃ dv' rows, printTable dv = some (dv', rows) ∧ Wf T dv'.graph ∧
      Fresh dv'.graph = Fresh dv.graph ∧
      rows.map Row.entry = (allPairs dv.graph).flatMap fun p =>
        if labels dv.graph p.1 p.2 < intMax then [(p.1, p.2, labels dv.graph p.1 p.2)] else [] := by
  have hmem : ∀ p ∈ allPairs dv.graph, p.1 ∈ T.nodes ∧ p.2 ∈ T.nodes := by
    intro p hp
    obtain ⟨hi, hj⟩ := mem_allPairs.mp hp
    exact ⟨(h.refines.nodes p.1).mp hi, (h.refines.nodes p.2).mp hj⟩
  obtain ⟨graph', rows, hf, hW, -, hfresh, hr⟩ :=
    foldlM_printStep (allPairs dv.graph) dv.graph [] h hmem
  refine ⟨⟨graph'⟩, rows, ?_, hW, hfresh, by simpa using hr⟩
  unfold printTable
  simp only [hf, Option.bind_eq_bind, Option.bind_some]

end Print

/-! ## Shortest distances -/

section Tables

variable {T : Topology} {dv dv' : DistanceVector} {ord : IterOrder (ℕ × ℤ × ℕ)} {fuel : ℕ}

/-- A build that ends leaves no node with a link flagged. -/
theorem Wf.build (h : Wf T dv.graph) (hB : Bounded T)
    (hb : buildNodesForwardingTables ord fuel dv = some dv') :
    Wf T dv'.graph ∧ ∀ u n w, T.price u n = some w → ¬ Fresh dv'.graph n := by
  obtain ⟨graph', he, rfl⟩ := Option.map_eq_some_iff.mp hb
  exact exchange_spec ord hB fuel 0 dv.graph graph' h he

/-- A build ends. -/
theorem Wf.build_ends (h : Wf T dv.graph) (ord : IterOrder (ℕ × ℤ × ℕ))
    (hB : Bounded T) :
    ∃ fuel dv', buildNodesForwardingTables ord fuel dv = some dv' := by
  obtain ⟨fuel, graph', he⟩ :=
    exchange_ends ord hB (graphWeight T dv.graph) 0 dv.graph h (le_refl _)
  exact ⟨fuel, ⟨graph'⟩, by rw [buildNodesForwardingTables, he]; rfl⟩

theorem Reach.wf (h : Reach T dv) : Wf T dv.graph := by
  induction h with
  | init => exact Wf.init
  | line _ node1 node2 dist _ _ ih => exact ih.line node1 node2 dist
  | build _ ord fuel hsum hb ih => exact (ih.build (bounded_of_costSum hsum) hb).1
  | print _ hp ih =>
    obtain ⟨dv'', rows', hp', hW, -⟩ := printTable_spec ih
    rw [hp] at hp'
    obtain ⟨rfl, -⟩ := Prod.mk.inj (Option.some.inj hp')
    exact hW

/-- The labels after a build, for one destination. -/
theorem Wf.labelling (h : Wf T dv'.graph)
    (hquiet : ∀ u n w, T.price u n = some w → ¬ Fresh dv'.graph n) {x : ℤ} (hx : x ∈ T.nodes) :
    Labelling T.price intMax x fun u => labels dv'.graph u x :=
  h.exchanging.labelling hquiet T.symmetric hx

theorem Wf.lookup_distance {graph : IntMap Node} (h : Wf T graph) {u x : ℤ} {n : Node}
    (hn : graph.lookup u = some n) (hx : x ∈ T.nodes) :
    n.distanceToThatNode.lookup x = some (labels graph u x) := by
  rw [labels_of_lookup hn]
  exact (h.node u n hn).lookup_label hx

end Tables

/-- **Distance-vector shortest paths**: when `build_nodes_forwarding_tables` has left its loop,
every distance is the shortest one, and `INT_MAX` exactly when there is no path. -/
theorem distanceToThatNode_shortest {T : Topology} {dv dv' : DistanceVector}
    {ord : IterOrder (ℕ × ℤ × ℕ)} {fuel : ℕ} (h : Reach T dv) (hsum : 2 * T.costSum < intMax)
    (hb : buildNodesForwardingTables ord fuel dv = some dv') :
    ∀ u ∈ dv'.graph, ∀ x ∈ dv'.graph, ∃ n d, dv'.graph.lookup u = some n ∧
      n.distanceToThatNode.lookup x = some d ∧
      (Reachable T.price u x → IsDist T.price u x d) ∧
      (d = intMax ↔ ¬ Reachable T.price u x) := by
  obtain ⟨hW, hquiet⟩ := h.wf.build (bounded_of_costSum hsum) hb
  intro u hu x hx
  have huT := (hW.refines.nodes u).mp hu
  have hxT := (hW.refines.nodes x).mp hx
  obtain ⟨n, hn⟩ := lookup_of_mem hu
  have hL := hW.labelling hquiet hxT
  have hlt : T.costSum < intMax := by
    have : 0 ≤ T.costSum := linkSum_nonneg T.positive T.nodes
    omega
  have htop := hL.eq_top_iff (v := u) T.positive T.symmetric T.within hxT hlt
  have hiff : labels dv'.graph u x = intMax ↔ ¬ Reachable T.price u x :=
    htop.trans (not_congr (reachable_comm T.symmetric))
  refine ⟨n, labels dv'.graph u x, hn, hW.lookup_distance hn hxT, fun hr => ?_, hiff⟩
  have hfin : labels dv'.graph u x < intMax :=
    lt_of_le_of_ne (hL.le_top u) fun e => hiff.mp e hr
  exact (hL.isDist T.positive hfin).symm T.symmetric

/-- The router of the line `1 - 2 - 3`, with its tables built. -/
def lineRouter : DistanceVector :=
  (buildNodesForwardingTables (IterOrder.listed _) 10
    ((init.buildLine 1 2 5).buildLine 2 3 1)).getD init

theorem distanceToThatNode_shortest_line :
    ∃ n d, lineRouter.graph.lookup 1 = some n ∧ n.distanceToThatNode.lookup 3 = some d ∧
      (Reachable ((Topology.empty.line 1 2 5).line 2 3 1).price 1 3 →
        IsDist ((Topology.empty.line 1 2 5).line 2 3 1).price 1 3 d) ∧
      (d = intMax ↔ ¬ Reachable ((Topology.empty.line 1 2 5).line 2 3 1).price 1 3) :=
  distanceToThatNode_shortest
    (.line (.line .init 1 2 5 (by decide) (by decide)) 2 3 1 (by decide) (by decide))
    (by decide +kernel) (eq_some_getD (by decide +kernel))
    1 (by decide +kernel) 3 (by decide +kernel)

/-! ## Hop by hop -/

section Hops

variable {T : Topology} {graph : IntMap Node} {t : ℤ}

/-- One pass of the loop, where the entry for the destination is there. -/
theorem hopsLoop_step {g : IntMap Node} {v u : ℤ} {n m : Node} (fuel : ℕ)
    (hn : g.lookup v = some n) (hf : n.forwardingTable.lookup t = some u)
    (hm : (g.insert v n).lookup u = some m) :
    hopsLoop t (fuel + 1) g v =
      if m.id ≠ t then (hopsLoop t fuel (g.insert v n) u).bind fun r => some (r.1, n.id :: r.2)
      else some (g.insert v n, [n.id]) := by
  have hmem : t ∈ n.forwardingTable := AList.lookup_isSome.mp (by rw [hf]; rfl)
  have hnode : ({ n with forwardingTable := touch n.forwardingTable t } : Node) = n := by
    rw [touch_of_mem hmem]
  have hnext : u = valueAt (touch n.forwardingTable t) t := by
    rw [touch_of_mem hmem, valueAt_of_lookup hf]
  subst hnext
  rw [hopsLoop]
  simp only [hn, hnode, hm, Option.bind_eq_bind, Option.bind_some]

/-- `next_hops` follows the next hops for `t`, and inserts nothing. -/
theorem hopsLoop_spec (hW : Wf T graph)
    (hT : Tight T.price intMax t (fun u => labels graph u t) fun u => hops graph u t) :
    ∀ (l : List ℤ) {k : ℕ} {v : ℤ} {g : IntMap Node}, (∀ u, g.lookup u = graph.lookup u) →
      chain (fun u => hops graph u t) t k v = some l → v ≠ t → labels graph v t < intMax →
      ∀ fuel, l.length ≤ fuel → ∃ g', hopsLoop t fuel g v = some (g', l) ∧
        ∀ u, g'.lookup u = graph.lookup u := by
  intro l
  induction l with
  | nil =>
    intro k v g _ hc hv _
    obtain ⟨_, _, _, -, -, hl, -⟩ := chain_cons hv hc
    exact absurd hl (by simp)
  | cons y l ih =>
    intro k v g hg hc hv hlt fuel hfuel
    obtain ⟨k', u, l', -, hP, hl, hc'⟩ := chain_cons hv hc
    obtain ⟨rfl, rfl⟩ := List.cons.inj hl
    obtain ⟨u', w, hP', hw, -, -, hlu⟩ := hT.lt T.positive hv hlt
    obtain rfl := Option.some.inj (hP.symm.trans hP')
    obtain ⟨n, hn⟩ := hW.refines.exists_lookup (T.within y u w hw).1
    obtain ⟨m, hm⟩ := hW.refines.exists_lookup (T.within y u w hw).2
    have hf : n.forwardingTable.lookup t = some u := by rw [← hops_of_lookup hn, hP]
    have hg' : ∀ x, (g.insert y n).lookup x = graph.lookup x := by
      intro x
      by_cases hx : x = y
      · rw [hx, AList.lookup_insert, hn]
      · rw [AList.lookup_insert_ne hx, hg]
    obtain ⟨fuel, rfl⟩ : ∃ f, fuel = f + 1 :=
      ⟨fuel - 1, by rw [List.length_cons] at hfuel; omega⟩
    have hstep := hopsLoop_step fuel (by rw [hg, hn]) hf (m := m) (by rw [hg', hm])
    rw [(hW.node u m hm).id, (hW.node y n hn).id] at hstep
    by_cases hut : u = t
    · subst hut
      rw [chain_root] at hc'
      obtain rfl := Option.some.inj hc'
      exact ⟨g.insert y n, by rw [hstep, if_neg (not_not.mpr rfl)], hg'⟩
    · obtain ⟨g', h', hl'⟩ := ih hg' hc' hut hlu fuel
        (by rw [List.length_cons] at hfuel; omega)
      exact ⟨g', by rw [hstep, if_pos hut, h']; rfl, hl'⟩

end Hops

/-- **Loop-free routing**: after a build, for a pair with a finite distance, `next_hops` ends; with
the destination added, the nodes it visits are a path of current links without repetition whose
cost is the distance, and each hands on by its own forwarding table. -/
theorem nextHops_loopFree {T : Topology} {dv dv' : DistanceVector}
    {ord : IterOrder (ℕ × ℤ × ℕ)} {fuel : ℕ} {s t d : ℤ} {n : Node} (h : Reach T dv)
    (hsum : 2 * T.costSum < intMax) (hb : buildNodesForwardingTables ord fuel dv = some dv')
    (hs : dv'.graph.lookup s = some n) (ht : t ∈ dv'.graph) (hst : s ≠ t)
    (hd : n.distanceToThatNode.lookup t = some d) (hfin : d ≠ intMax) :
    ∃ hopList l, (∀ fuel', dv'.graph.keys.length ≤ fuel' →
        ∃ dv'', nextHops dv' fuel' s t = some (dv'', hopList)) ∧
      hopList ++ [t] = s :: l ∧ Walk T.price s l t d ∧ (s :: l).Nodup ∧
      (hopList ++ [t]).IsChain fun a b =>
        ∃ m, dv'.graph.lookup a = some m ∧ m.forwardingTable.lookup t = some b := by
  obtain ⟨hW, hquiet⟩ := h.wf.build (bounded_of_costSum hsum) hb
  have htT := (hW.refines.nodes t).mp ht
  have hsT := (hW.refines.nodes s).mp (AList.lookup_isSome.mp (by rw [hs]; rfl))
  obtain rfl : labels dv'.graph s t = d :=
    Option.some.inj ((hW.lookup_distance hs htT).symm.trans hd)
  have hL := hW.labelling hquiet htT
  have hlt : labels dv'.graph s t < intMax := lt_of_le_of_ne (hL.le_top s) hfin
  have hT := hW.exchanging.tight hquiet t
  have hnn : ∀ v, 0 ≤ labels dv'.graph v t := by
    intro v
    by_cases hv : labels dv'.graph v t < intMax
    · exact hW.exchanging.nonneg T.positive hv
    · have h0 : 0 ≤ intMax := by decide
      omega
  obtain ⟨k, l, hc, hlen, l', hl', hnodup, hwalk⟩ :=
    hT.chain_within T.positive hL.root hnn T.within hsT hlt
  refine ⟨l, l', fun fuel' hfuel => ?_, hl', hwalk, hnodup, ?_⟩
  · have hcard : dv'.graph.keys.length = T.nodes.card := by
      rw [← hW.refines.nodesOf_eq, nodesOf, List.toFinset_card_of_nodup dv'.graph.keys_nodup]
    obtain ⟨g', hg', -⟩ := hopsLoop_spec hW hT l (fun _ => rfl) hc hst hlt fuel' (by omega)
    exact ⟨⟨g'⟩, by rw [nextHops, hg']; rfl⟩
  · refine (chain_isChain hc).imp fun a b hab => ?_
    obtain ⟨m, hm, hf⟩ := Option.bind_eq_some_iff.mp hab
    exact ⟨m, hm, hf⟩

/-- The path from `1` to `3` costs `6`. -/
theorem nextHops_loopFree_line :
    ∃ hopList l, (∀ fuel', lineRouter.graph.keys.length ≤ fuel' →
        ∃ dv'', nextHops lineRouter fuel' 1 3 = some (dv'', hopList)) ∧
      hopList ++ [3] = 1 :: l ∧
      Walk ((Topology.empty.line 1 2 5).line 2 3 1).price 1 l 3 6 ∧ (1 :: l).Nodup ∧
      (hopList ++ [3]).IsChain fun a b =>
        ∃ m, lineRouter.graph.lookup a = some m ∧ m.forwardingTable.lookup 3 = some b :=
  nextHops_loopFree (n := (lineRouter.graph.lookup 1).getD (Node.new 1))
    (.line (.line .init 1 2 5 (by decide) (by decide)) 2 3 1 (by decide) (by decide))
    (by decide +kernel) (eq_some_getD (by decide +kernel)) (eq_some_getD (by decide +kernel))
    (by decide +kernel) (by decide) (by decide +kernel) (by decide)

end NetworkingLearning.Routing.DistanceVector
