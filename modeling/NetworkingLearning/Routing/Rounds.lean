import NetworkingLearning.Paths.Exchange
import NetworkingLearning.Routing.Vectors

/-!
# The rounds of `build_nodes_forwarding_tables` (`distvec.cpp:187-205`)

One pass of `while (1)` is a `Round` of `Paths/Exchange.lean`: first every flagged node sends its
distances, then every node takes what it was sent. Updates happen one node after another, but a node
reads only its own state and its queue, so the pass is a synchronous one.

* `Wf` is the invariant between two passes: the queues are empty, the nodes are `NodeOk`, and their
  labels and next hops are `Exchanging`. A node that is not flagged has told its neighbours all it
  knows.
* The loop has two exits (`distvec.cpp:197` and `distvec.cpp:202`): nobody has sent anything, or
  nobody has changed. A flag that is set for a node without neighbours does not count.
* That the loop ends is shown by the weight of the graph, which falls with every pass that changes a
  node; how many passes it takes is in `Passes`.

Results:
* `foldlM_sendStep`, `foldlM_updateStep`: the two loops of a pass, node by node.
* `pass_spec`: a pass whose sums are within `int` (`SumsFit`) keeps the invariant `Wf`. When the
  loop ends, no node with a link is flagged; when it goes on, the weight of the graph has fallen.
* `exchange_spec`: the loop ends, by one of its two exits, with no node with a link flagged.
-/

namespace NetworkingLearning.Routing.DistanceVector

open NetworkingLearning.Machine NetworkingLearning.Paths

/-- `graph[u]->distanceToThatNode[x]`, `INT_MAX` for a missing entry. -/
def labels (graph : IntMap Node) (u x : ℤ) : ℤ :=
  ((graph.lookup u).map fun n => n.label x).getD intMax

/-- `graph[u]->forwarding_table[x]`. -/
def hops (graph : IntMap Node) (u x : ℤ) : Option ℤ :=
  (graph.lookup u).bind fun n => n.forwardingTable.lookup x

/-- `graph[u]->be_updated`. -/
def Fresh (graph : IntMap Node) (u : ℤ) : Prop :=
  ∃ n, graph.lookup u = some n ∧ n.beUpdated = true

/-- What lines, passes and prints keep. -/
structure Wf (T : Topology) (graph : IntMap Node) : Prop where
  refines : Refines nodeClass graph T
  node : ∀ u n, graph.lookup u = some n → NodeOk T u n
  queue : ∀ u n, graph.lookup u = some n → n.updatesFromNei = []
  exchanging : Exchanging T.price intMax T.nodes (labels graph) (hops graph) (Fresh graph)
  steps : ∃ k, Stepped T.price intMax T.nodes k (labels graph)

theorem labels_of_lookup {graph : IntMap Node} {u : ℤ} {n : Node} (h : graph.lookup u = some n)
    (x : ℤ) : labels graph u x = n.label x := by
  simp [labels, h]

theorem hops_of_lookup {graph : IntMap Node} {u : ℤ} {n : Node} (h : graph.lookup u = some n)
    (x : ℤ) : hops graph u x = n.forwardingTable.lookup x := by
  simp [hops, h]

section Congr

variable {T : Topology} {graph graph' : IntMap Node}

theorem labels_congr (hl : ∀ u, graph'.lookup u = graph.lookup u) :
    labels graph' = labels graph := by
  funext u x
  rw [labels, labels, hl]

/-- Only what the nodes hold matters. -/
theorem Wf.congr (h : Wf T graph) (hl : ∀ u, graph'.lookup u = graph.lookup u) : Wf T graph' := by
  have h1 : labels graph' = labels graph := labels_congr hl
  have h2 : hops graph' = hops graph := by
    funext u x
    rw [hops, hops, hl]
  have h3 : Fresh graph' = Fresh graph := by
    funext u
    rw [Fresh, Fresh, hl]
  refine ⟨h.refines.congr fun u => by rw [hl], fun u n hn => h.node u n (by rw [← hl, hn]),
    fun u n hn => h.queue u n (by rw [← hl, hn]), ?_, h1 ▸ h.steps⟩
  rw [h1, h2, h3]
  exact h.exchanging

end Congr

/-! ## Sending -/

/-- A node with more updates in its queue. -/
def Node.push (msgs : List (ℤ × IntMap ℤ)) (n : Node) : Node :=
  { n with updatesFromNei := n.updatesFromNei ++ msgs }

/-- What the nodes `ks` send to `u`. -/
def inbox (graph : IntMap Node) (ks : List ℤ) (u : ℤ) : List (ℤ × IntMap ℤ) :=
  ks.filterMap fun k => (graph.lookup k).bind fun n =>
    if n.beUpdated = true ∧ u ∈ n.links.neibours then some (n.id, n.distanceToThatNode) else none

@[simp] theorem map_push_nil (o : Option Node) : o.map (Node.push []) = o := by
  cases o <;> simp [Node.push]

@[simp] theorem map_push_push (o : Option Node) (a b : List (ℤ × IntMap ℤ)) :
    (o.map (Node.push a)).map (Node.push b) = o.map (Node.push (a ++ b)) := by
  cases o <;> simp [Node.push]

section Send

variable {graph graph' : IntMap Node}

/-- Queues do not matter for what is sent. -/
theorem inbox_congr {f : ℤ → List (ℤ × IntMap ℤ)}
    (hl : ∀ u, graph'.lookup u = (graph.lookup u).map (Node.push (f u))) (ks : List ℤ) (u : ℤ) :
    inbox graph' ks u = inbox graph ks u := by
  unfold inbox
  refine List.filterMap_congr fun k _ => ?_
  rw [hl]
  cases graph.lookup k <;> rfl

theorem foldlM_pushUpdate (msg : ℤ × IntMap ℤ) : ∀ (ns : List ℤ), ns.Nodup →
    ∀ graph : IntMap Node, (∀ v ∈ ns, v ∈ graph) →
      ∃ graph', ns.foldlM (pushUpdate msg) graph = some graph' ∧
        ∀ u, graph'.lookup u = (graph.lookup u).map (Node.push (if u ∈ ns then [msg] else [])) := by
  intro ns
  induction ns with
  | nil =>
    intro _ graph _
    exact ⟨graph, rfl, fun u => by simp⟩
  | cons v ns ih =>
    intro hn graph hmem
    obtain ⟨hv, hn⟩ := List.nodup_cons.mp hn
    obtain ⟨n, hl⟩ := lookup_of_mem (hmem v List.mem_cons_self)
    have h1 : pushUpdate msg graph v = some (graph.insert v (n.push [msg])) := by
      unfold pushUpdate
      simp only [hl, Option.bind_eq_bind, Option.bind_some]
      rfl
    obtain ⟨graph', h', hl'⟩ := ih hn (graph.insert v (n.push [msg])) fun x hx =>
      (AList.mem_insert _).mpr (Or.inr (hmem x (List.mem_cons_of_mem v hx)))
    refine ⟨graph', by rw [List.foldlM_cons, h1]; exact h', fun u => ?_⟩
    rw [hl']
    by_cases hu : u = v
    · subst hu
      simp only [AList.lookup_insert, hv, hl, if_false, List.mem_cons, true_or, if_true,
        Option.map_some]
      simp [Node.push]
    · simp only [AList.lookup_insert_ne hu, List.mem_cons, hu, false_or]

/-- `send_update`. -/
theorem sendUpdate_spec {k : ℤ} {n : Node} (hn : graph.lookup k = some n)
    (hnei : ∀ v ∈ n.links.neibours, v ∈ graph) :
    ∃ graph' b, sendUpdate graph k = some (graph', b) ∧
      (∀ u, graph'.lookup u = (graph.lookup u).map (Node.push (inbox graph [k] u))) ∧
      (b = false → n.beUpdated = true → n.links.neibours = []) := by
  unfold sendUpdate
  simp only [hn, Option.bind_eq_bind, Option.bind_some]
  by_cases hb : n.beUpdated = true
  · rw [if_pos hb]
    obtain ⟨graph', h', hl'⟩ := foldlM_pushUpdate (n.id, n.distanceToThatNode) n.links.neibours
      n.links.nodup graph hnei
    refine ⟨graph', _, by rw [h', Option.bind_some], fun u => ?_, fun h _ => ?_⟩
    · rw [hl']
      by_cases hu : u ∈ n.links.neibours <;> simp [inbox, hn, hb, hu]
    · simpa using h
  · rw [if_neg hb]
    refine ⟨graph, false, rfl, fun u => ?_, fun _ h => absurd h hb⟩
    simp [inbox, hn, hb]

/-- **The first loop of a pass**: every node gets the vectors of its flagged neighbours. The count
is `0` only if no flagged node has a neighbour. -/
theorem foldlM_sendStep : ∀ (ks : List ℤ) (graph : IntMap Node) (count : ℕ),
    (∀ k ∈ ks, k ∈ graph) →
    (∀ k n, graph.lookup k = some n → ∀ v ∈ n.links.neibours, v ∈ graph) →
      ∃ graph' count', ks.foldlM sendStep (graph, count) = some (graph', count') ∧
        (∀ u, graph'.lookup u = (graph.lookup u).map (Node.push (inbox graph ks u))) ∧
        (count' = 0 → count = 0 ∧ ∀ k ∈ ks, ∀ n, graph.lookup k = some n → n.beUpdated = true →
          n.links.neibours = []) := by
  intro ks
  induction ks with
  | nil =>
    intro graph count _ _
    refine ⟨graph, count, rfl, fun u => by simp [inbox], fun h => ⟨h, ?_⟩⟩
    exact fun k hk => absurd hk List.not_mem_nil
  | cons k ks ih =>
    intro graph count hks hnei
    obtain ⟨n, hn⟩ := lookup_of_mem (hks k List.mem_cons_self)
    obtain ⟨graph1, b, h1, hl1, hb⟩ := sendUpdate_spec hn (hnei k n hn)
    have hmem1 : ∀ v, v ∈ graph1 ↔ v ∈ graph := fun v => by
      rw [← AList.lookup_isSome, hl1, Option.isSome_map, AList.lookup_isSome]
    have hstep : sendStep (graph, count) k = some (graph1, if b then count + 1 else count) := by
      unfold sendStep
      simp only [h1, Option.bind_eq_bind, Option.bind_some]
    obtain ⟨graph', count', h', hl', hc'⟩ := ih graph1 (if b then count + 1 else count)
      (fun x hx => (hmem1 x).mpr (hks x (List.mem_cons_of_mem k hx)))
      (fun x m hm v hv => by
        rw [hl1] at hm
        obtain ⟨m0, hm0, rfl⟩ := Option.map_eq_some_iff.mp hm
        exact (hmem1 v).mpr (hnei x m0 hm0 v hv))
    refine ⟨graph', count', by rw [List.foldlM_cons, hstep]; exact h', fun u => ?_, fun h0 => ?_⟩
    · rw [hl', hl1, map_push_push, inbox_congr hl1]
      have happ : inbox graph (k :: ks) u = inbox graph [k] u ++ inbox graph ks u := by
        rw [inbox, ← List.singleton_append, List.filterMap_append]
        rfl
      rw [happ]
    · obtain ⟨hcount, hall⟩ := hc' h0
      have hb0 : b = false := by
        cases b
        · rfl
        · simp at hcount
      refine ⟨by simpa [hb0] using hcount, fun x hx m hm hfl => ?_⟩
      rcases List.mem_cons.mp hx with rfl | hx
      · obtain rfl := Option.some.inj (hn.symm.trans hm)
        exact hb hb0 hfl
      · exact hall x hx (m.push (inbox graph [k] x)) (by rw [hl1, hm]; rfl) hfl

theorem mem_inbox {ks : List ℤ} {u : ℤ} {msg : ℤ × IntMap ℤ} :
    msg ∈ inbox graph ks u ↔ ∃ k ∈ ks, ∃ n, graph.lookup k = some n ∧ n.beUpdated = true ∧
      u ∈ n.links.neibours ∧ msg = (n.id, n.distanceToThatNode) := by
  unfold inbox
  rw [List.mem_filterMap]
  refine exists_congr fun k => and_congr_right fun _ => ?_
  cases graph.lookup k with
  | none => simp
  | some n =>
    simp only [Option.bind_some, Option.ite_none_right_eq_some, Option.some.injEq, exists_eq_left']
    rw [and_assoc]
    exact and_congr_right fun _ => and_congr_right fun _ => eq_comm

end Send

/-! ## Updating -/

/-- A node after `update_distance_and_forwarding_table` has left it as `st` says. -/
def updated (st : Node × Bool) : Node := { st.1 with updatesFromNei := [], beUpdated := st.2 }

/-- **The second loop of a pass**: every node takes its queue. The count is `0` only if no node has
changed, and positive only if one has. -/
theorem foldlM_updateStep {T : Topology} (ord : IterOrder (ℕ × ℤ × ℕ)) (round : ℕ) :
    ∀ (ks : List ℤ), ks.Nodup → ∀ (graph : IntMap Node) (count : ℕ),
    (∀ k ∈ ks, k ∈ graph) →
    (∀ k ∈ ks, ∀ n, graph.lookup k = some n →
      NodeOk T k n ∧ ∀ msg ∈ n.updatesFromNei, MsgOk T n.links msg) →
      ∃ graph' count', ks.foldlM (updateStep ord round) (graph, count) = some (graph', count') ∧
        (∀ u, u ∉ ks → graph'.lookup u = graph.lookup u) ∧
        (∀ u ∈ ks, ∀ n, graph.lookup u = some n → ∃ st, graph'.lookup u = some (updated st) ∧
          Took T u (fun x m d => ∃ msg ∈ n.updatesFromNei, Offer n.links msg x m d)
            (n, false) st) ∧
        (count' = 0 ↔ count = 0 ∧ ∀ u ∈ ks, ¬ Fresh graph' u) := by
  intro ks
  induction ks with
  | nil =>
    intro _ graph count _ _
    exact ⟨graph, count, rfl, fun _ _ => rfl, fun u hu => absurd hu List.not_mem_nil,
      by simp⟩
  | cons k ks ih =>
    intro hnd graph count hks hok
    obtain ⟨hk, hnd⟩ := List.nodup_cons.mp hnd
    obtain ⟨n, hn⟩ := lookup_of_mem (hks k List.mem_cons_self)
    obtain ⟨hnok, hmsgs⟩ := hok k List.mem_cons_self n hn
    obtain ⟨st, hst, ht⟩ := update_spec ord round hnok hmsgs
    have hstep : updateStep ord round (graph, count) k =
        some (graph.insert k (updated st), if st.2 then count + 1 else count) := by
      unfold updateStep
      simp only [hn, hst, Option.bind_eq_bind, Option.bind_some]
      rfl
    have hne : ∀ x ∈ ks, x ≠ k := fun x hx e => hk (e ▸ hx)
    have hlk : ∀ x ∈ ks, (graph.insert k (updated st)).lookup x = graph.lookup x := fun x hx =>
      AList.lookup_insert_ne (hne x hx)
    obtain ⟨graph', count', h', hout, hin, hc⟩ := ih hnd (graph.insert k (updated st))
      (if st.2 then count + 1 else count)
      (fun x hx => (AList.mem_insert _).mpr (Or.inr (hks x (List.mem_cons_of_mem k hx))))
      (fun x hx m hm => hok x (List.mem_cons_of_mem k hx) m (by rw [← hlk x hx, hm]))
    have hk' : graph'.lookup k = some (updated st) := by
      rw [hout k hk, AList.lookup_insert]
    refine ⟨graph', count', by rw [List.foldlM_cons, hstep]; exact h', fun u hu => ?_,
      fun u hu m hm => ?_, ?_⟩
    · simp only [List.mem_cons, not_or] at hu
      rw [hout u hu.2, AList.lookup_insert_ne hu.1]
    · rcases List.mem_cons.mp hu with rfl | hu
      · obtain rfl := Option.some.inj (hn.symm.trans hm)
        exact ⟨st, hk', ht⟩
      · exact hin u hu m (by rw [hlk u hu, hm])
    · have hfr : ¬ Fresh graph' k ↔ st.2 = false := by
        simp [Fresh, hk', updated]
      rw [hc, List.forall_mem_cons, hfr]
      cases st.2 <;> simp

/-! ## One pass -/

section Pass

variable {T : Topology} {graph : IntMap Node}

/-- The weight of a graph: what a pass that goes on lowers. -/
def graphWeight (T : Topology) (graph : IntMap Node) : ℕ :=
  ∑ u ∈ T.nodes, ((graph.lookup u).map (weight T)).getD 0

/-- Links join nodes of the graph. -/
theorem Wf.neibours_mem (h : Wf T graph) {k v : ℤ} {n : Node} (hn : graph.lookup k = some n)
    (hv : v ∈ n.links.neibours) : v ∈ graph := by
  obtain ⟨w, hw⟩ := (h.refines.mem_neibours_iff (C := nodeClass) hn).mp hv
  exact (h.refines.nodes v).mpr (T.within k v w hw).2

/-- The sums of a pass are within `int`. -/
structure SumsFit (T : Topology) (graph : IntMap Node) : Prop where
  costs : ∀ u v w, T.price u v = some w → w ≤ intMax
  sums : ∀ u n w x, T.price u n = some w → Fresh graph n → labels graph n x < intMax →
    w < intMax → w + labels graph n x ≤ intMax

/-- No pass of an exchange in the topology overflows. -/
def Bounded (T : Topology) : Prop := ∀ graph, Wf T graph → SumsFit T graph

/-- No sum exceeds twice the sum of all links. -/
theorem bounded_of_costSum (hsum : 2 * T.costSum < intMax) : Bounded T := by
  intro graph h
  have hnn : 0 ≤ T.costSum := linkSum_nonneg T.positive T.nodes
  have hprice : ∀ u v w, T.price u v = some w → w ≤ T.costSum := fun u v w hw =>
    price_le_linkSum T.positive T.symmetric T.within hw
  refine ⟨fun u v w hw => ?_, fun u n w x hw _ hlt _ => ?_⟩
  · have := hprice u v w hw
    omega
  · have h1 := hprice u n w hw
    have h2 := h.exchanging.le_linkSum T.positive T.symmetric T.within (T.within u n w hw).2 hlt
    unfold Topology.costSum at h1 hsum
    omega

/-- A vector that was sent is one its receiver may use. -/
theorem Wf.msgOk (h : Wf T graph) (hfit : SumsFit T graph) {u : ℤ} {n : Node}
    (hn : graph.lookup u = some n) {ks : List ℤ} {msg : ℤ × IntMap ℤ}
    (hmsg : msg ∈ inbox graph ks u) : MsgOk T n.links msg := by
  obtain ⟨k, -, m, hm, hfl, hu, rfl⟩ := mem_inbox.mp hmsg
  have hmok := h.node k m hm
  obtain rfl := hmok.id
  obtain ⟨w, hw⟩ := (h.refines.mem_neibours_iff (C := nodeClass) hm).mp hu
  have hk : m.id ∈ T.nodes := (T.within m.id u w hw).1
  have hw0 := T.positive m.id u w hw
  rw [T.symmetric m.id u] at hw
  refine ⟨hk, ⟨w, ?_, hw0, hfit.costs u m.id w hw, fun x g hg hlt hwlt => ?_⟩, fun x g hg => ?_⟩
  · rw [← hw]
    exact h.refines.lookup_edges (C := nodeClass) hn m.id
  · have hg' : labels graph m.id x = g := by
      rw [labels_of_lookup hm, Node.label_of_lookup hg]
    rw [← hg']
    exact hfit.sums u m.id w x hw ⟨m, hm, hfl⟩ (by rw [hg']; exact hlt) hwlt
  · exact ⟨(hmok.keys x).mp (AList.lookup_isSome.mp (by rw [hg]; rfl)), hmok.range x g hg⟩

/-- What a pass that sends does to the nodes: each takes what it was sent. -/
structure Passed (T : Topology) (graph graph' : IntMap Node) : Prop where
  node : ∀ u n, graph.lookup u = some n → ∃ st, graph'.lookup u = some (updated st) ∧
    Took T u (fun x m d => ∃ msg ∈ inbox graph (sortedKeys graph) u, Offer n.links msg x m d)
      (n.push (inbox graph (sortedKeys graph) u), false) st
  none : ∀ u, graph.lookup u = none → graph'.lookup u = none

section Passed

variable {graph' : IntMap Node}

/-- The nodes after a pass are those before it. -/
theorem Passed.back (hP : Passed T graph graph') {u : ℤ} {n' : Node}
    (hn' : graph'.lookup u = some n') : ∃ n st, graph.lookup u = some n ∧ n' = updated st ∧
      Took T u (fun x m d => ∃ msg ∈ inbox graph (sortedKeys graph) u, Offer n.links msg x m d)
        (n.push (inbox graph (sortedKeys graph) u), false) st := by
  cases hn : graph.lookup u with
  | none =>
    rw [hP.none u hn] at hn'
    exact absurd hn' (by simp)
  | some n =>
    obtain ⟨st, hst, ht⟩ := hP.node u n hn
    exact ⟨n, st, rfl, Option.some.inj (hn'.symm.trans hst), ht⟩

/-- A change comes from the vector of a neighbour. -/
theorem Passed.taken (h : Wf T graph) (hP : Passed T graph graph') (u x : ℤ) :
    (labels graph' u x = labels graph u x ∧
        (labels graph u x < intMax → hops graph' u x = hops graph u x)) ∨
      ∃ n w, T.price u n = some w ∧ labels graph n x < intMax ∧ hops graph' u x = some n ∧
        labels graph' u x = w + labels graph n x ∧ labels graph' u x ≤ labels graph u x := by
  cases hn : graph.lookup u with
  | none => exact Or.inl ⟨by rw [labels, labels, hn, hP.none u hn],
      fun _ => by rw [hops, hops, hn, hP.none u hn]⟩
  | some n =>
    obtain ⟨st, hst, ht⟩ := hP.node u n hn
    rw [labels_of_lookup hn, labels_of_lookup hst, hops_of_lookup hn, hops_of_lookup hst]
    rcases ht.taken x with hsame | ⟨m, d, ⟨msg, hmsg, rfl, w, g, hw, hg, hlt, rfl⟩, -, hF, hL, hle⟩
    · exact Or.inl hsame
    · obtain ⟨k, -, m, hm, -, -, rfl⟩ := mem_inbox.mp hmsg
      obtain rfl := (h.node k m hm).id
      have hg' : labels graph m.id x = g := by
        rw [labels_of_lookup hm, Node.label_of_lookup hg]
      refine Or.inr ⟨m.id, w, ?_, by rw [hg']; exact hlt, hF, by rw [hg']; exact hL, hle⟩
      rw [← hw]
      exact (h.refines.lookup_edges (C := nodeClass) hn m.id).symm

/-- The vector of a flagged neighbour was looked at. -/
theorem Passed.offered (h : Wf T graph) (hP : Passed T graph graph') {u n w x : ℤ}
    (hfresh : Fresh graph n) (hw : T.price u n = some w) (hlt : labels graph n x < intMax) :
    labels graph' u x ≤ w + labels graph n x ∧ (labels graph' u x < intMax →
      labels graph' u x = w + labels graph n x → ∃ f, hops graph' u x = some f ∧ f ≤ n) := by
  obtain ⟨m, hm, hfl⟩ := hfresh
  obtain ⟨a, ha⟩ := h.refines.exists_lookup (T.within u n w hw).1
  obtain ⟨st, hst, ht⟩ := hP.node u a ha
  have hmem : (m.id, m.distanceToThatNode) ∈ inbox graph (sortedKeys graph) u := by
    refine mem_inbox.mpr ⟨n, mem_sortedKeys.mpr (AList.lookup_isSome.mp (by rw [hm]; rfl)), m, hm,
      hfl, ?_, rfl⟩
    exact (h.refines.mem_neibours_iff (C := nodeClass) hm).mpr
      ⟨w, by rw [← T.symmetric u n]; exact hw⟩
  have hL : labels graph n x = m.label x := labels_of_lookup hm x
  rw [hL] at hlt
  have hg : m.distanceToThatNode.lookup x = some (m.label x) := by
    cases hg : m.distanceToThatNode.lookup x with
    | none => simp [Node.label, hg] at hlt
    | some g => rw [Node.label_of_lookup hg]
  obtain ⟨hle, hleast⟩ := ht.offered x n (w + m.label x) ⟨_, hmem, (h.node n m hm).id.symm, w,
    m.label x, by rw [← hw]; exact h.refines.lookup_edges (C := nodeClass) ha n, hg, hlt, rfl⟩
  rw [labels_of_lookup hst, hops_of_lookup hst, hL]
  exact ⟨hle, hleast⟩

/-- **A pass is a round.** -/
theorem Passed.round (h : Wf T graph) (hP : Passed T graph graph') :
    Round T.price intMax (labels graph) (hops graph) (Fresh graph)
      (labels graph') (hops graph') (Fresh graph') := by
  refine ⟨hP.taken h, fun u n w x hfresh hw hlt => hP.offered h hfresh hw hlt,
    fun u x f hL hf => ?_, fun u hfr x => ?_⟩
  · cases hn : graph.lookup u with
    | none =>
      rw [hops, hn] at hf
      exact absurd hf (by simp)
    | some n =>
      obtain ⟨st, hst, ht⟩ := hP.node u n hn
      rw [labels_of_lookup hn, labels_of_lookup hst] at hL
      rw [hops_of_lookup hn] at hf
      rw [hops_of_lookup hst]
      exact ht.older x f hL hf
  · cases hn : graph.lookup u with
    | none => rw [labels, labels, hn, hP.none u hn]
    | some n =>
      obtain ⟨st, hst, ht⟩ := hP.node u n hn
      rw [labels_of_lookup hn, labels_of_lookup hst]
      rcases ht.progress with ⟨-, -, hL⟩ | ⟨hb, -⟩
      · exact hL x
      · exact absurd ⟨updated st, hst, hb⟩ hfr

theorem Passed.wf (h : Wf T graph) (hP : Passed T graph graph') : Wf T graph' := by
  obtain ⟨k, hk⟩ := h.steps
  refine ⟨h.refines.congr fun u => ?_, fun u n' hn' => ?_, fun u n' hn' => ?_,
    h.exchanging.round T.positive (hP.round h),
    k + 1, hk.round h.exchanging T.positive (hP.round h)⟩
  · cases hn : graph.lookup u with
    | none => rw [hP.none u hn]
    | some n =>
      obtain ⟨st, hst, ht⟩ := hP.node u n hn
      rw [hst]
      exact congrArg some ht.links
  · obtain ⟨n, st, -, rfl, ht⟩ := hP.back hn'
    have hok := ht.ok
    exact ⟨hok.id, hok.keys, hok.self, hok.range, hok.hop, hok.hops, hok.hop_self⟩
  · obtain ⟨n, st, -, rfl, -⟩ := hP.back hn'
    rfl

/-- **A pass that changes a node** lowers its weight, and raises none. -/
theorem Passed.weight_lt (h : Wf T graph) (hP : Passed T graph graph') {u : ℤ}
    (hfresh : Fresh graph' u) : graphWeight T graph' < graphWeight T graph := by
  have hle : ∀ v n st, Took T v (fun x m d => ∃ msg ∈ inbox graph (sortedKeys graph) v,
      Offer n.links msg x m d) (n.push (inbox graph (sortedKeys graph) v), false) st →
      weight T (updated st) ≤ weight T n ∧
        (st.2 = true → weight T (updated st) < weight T n) := by
    intro v n st ht
    rcases ht.progress with ⟨hb, hw, -⟩ | ⟨-, hlt⟩
    · exact ⟨hw.le, fun hb' => absurd (hb.symm.trans hb') (by simp)⟩
    · exact ⟨hlt.le, fun _ => hlt⟩
  obtain ⟨n', hn', hfl⟩ := hfresh
  obtain ⟨n, st, hn, rfl, ht⟩ := hP.back hn'
  have huT : u ∈ T.nodes := (h.refines.nodes u).mp (AList.lookup_isSome.mp (by rw [hn]; rfl))
  refine Finset.sum_lt_sum (fun v _ => ?_) ⟨u, huT, ?_⟩
  · cases hv : graph.lookup v with
    | none => rw [hP.none v hv]
    | some m =>
      obtain ⟨sv, hsv, htv⟩ := hP.node v m hv
      rw [hsv]
      exact (hle v m sv htv).1
  · rw [hn, hn']
    exact (hle u n st ht).2 hfl

end Passed

/-- The first `break`: if nobody sends anything, no node with a link is flagged. -/
theorem Wf.unsent (h : Wf T graph) (hall : ∀ k ∈ sortedKeys graph, ∀ n, graph.lookup k = some n →
    n.beUpdated = true → n.links.neibours = []) :
    (∀ u, inbox graph (sortedKeys graph) u = []) ∧
      ∀ u n w, T.price u n = some w → ¬ Fresh graph n := by
  constructor
  · intro u
    rw [List.eq_nil_iff_forall_not_mem]
    intro msg hmsg
    obtain ⟨k, hk, n, hn, hfl, hu, -⟩ := mem_inbox.mp hmsg
    rw [hall k hk n hn hfl] at hu
    exact absurd hu List.not_mem_nil
  · rintro u n w hw ⟨m, hm, hfl⟩
    have hnei := (h.refines.mem_neibours_iff (C := nodeClass) hm (v := u)).mpr
      ⟨w, by rw [← T.symmetric u n]; exact hw⟩
    have hmem : n ∈ graph := AList.lookup_isSome.mp (by rw [hm]; rfl)
    have hnil : (nodeClass.links m).neibours = [] := hall n (mem_sortedKeys.mpr hmem) m hm hfl
    rw [hnil] at hnei
    exact absurd hnei List.not_mem_nil

/-- **The second loop of a pass** after the first, and its count. -/
theorem Wf.passed (h : Wf T graph) (hfit : SumsFit T graph)
    (ord : IterOrder (ℕ × ℤ × ℕ)) (round : ℕ) {graph1 : IntMap Node}
    (hl1 : ∀ u, graph1.lookup u =
      (graph.lookup u).map (Node.push (inbox graph (sortedKeys graph) u))) :
    ∃ graph' count, (sortedKeys graph1).foldlM (updateStep ord round) (graph1, 0) =
        some (graph', count) ∧ Passed T graph graph' ∧
      (count = 0 ↔ ∀ u ∈ graph, ¬ Fresh graph' u) := by
  have hmem1 : ∀ k, k ∈ sortedKeys graph1 ↔ k ∈ graph := fun k => by
    rw [mem_sortedKeys, ← AList.lookup_isSome, hl1, Option.isSome_map, AList.lookup_isSome]
  have hqueue : ∀ u n, graph.lookup u = some n →
      (n.push (inbox graph (sortedKeys graph) u)).updatesFromNei =
        inbox graph (sortedKeys graph) u := fun u n hn => by
    simp [Node.push, h.queue u n hn]
  obtain ⟨graph', count, h2, hout, hin, hc⟩ := foldlM_updateStep (T := T) ord round
    (sortedKeys graph1) (nodup_sortedKeys graph1) graph1 0 (fun k hk => mem_sortedKeys.mp hk)
    (fun k _ n hn => by
      rw [hl1] at hn
      obtain ⟨m, hm, rfl⟩ := Option.map_eq_some_iff.mp hn
      have hok := h.node k m hm
      refine ⟨⟨hok.id, hok.keys, hok.self, hok.range, hok.hop, hok.hops, hok.hop_self⟩,
        fun msg hmsg => ?_⟩
      rw [hqueue k m hm] at hmsg
      exact h.msgOk hfit hm hmsg)
  refine ⟨graph', count, h2, ⟨fun u n hn => ?_, fun u hu => ?_⟩, ?_⟩
  · obtain ⟨st, hst, ht⟩ := hin u ((hmem1 u).mpr (AList.lookup_isSome.mp (by rw [hn]; rfl)))
      (n.push (inbox graph (sortedKeys graph) u)) (by rw [hl1, hn]; rfl)
    rw [hqueue u n hn] at ht
    exact ⟨st, hst, ht⟩
  · have hu1 : u ∉ sortedKeys graph1 := fun hm => AList.lookup_eq_none.mp hu ((hmem1 u).mp hm)
    rw [hout u hu1, hl1, hu, Option.map_none]
  · rw [hc]
    simp only [hmem1, true_and]

/-- A pass that changes no flag changes no distance. -/
theorem Passed.labels_eq (h : Wf T graph) {graph' : IntMap Node} (hP : Passed T graph graph')
    (hquiet : ∀ u ∈ graph, ¬ Fresh graph' u) : labels graph' = labels graph := by
  funext u x
  refine (hP.round h).quiet u (fun hfr => ?_) x
  have ⟨n', hn', _⟩ := hfr
  obtain ⟨n, -, hn, -⟩ := hP.back hn'
  exact hquiet u (AList.lookup_isSome.mp (by rw [hn]; rfl)) hfr

/-- **One pass of `while (1)`**, if its sums fit. -/
theorem pass_spec (ord : IterOrder (ℕ × ℤ × ℕ)) (round : ℕ) (h : Wf T graph)
    (hfit : SumsFit T graph) :
    ∃ graph' b, pass ord round graph = some (graph', b) ∧ Wf T graph' ∧
      (b = false → (∀ u n w, T.price u n = some w → ¬ Fresh graph' n) ∧
        labels graph' = labels graph) ∧
      (b = true → graphWeight T graph' < graphWeight T graph ∧ Passed T graph graph') := by
  obtain ⟨graph1, sent, h1, hl1, hs1⟩ := foldlM_sendStep (sortedKeys graph) graph 0
    (fun k hk => mem_sortedKeys.mp hk) fun k n hn v hv => h.neibours_mem hn hv
  unfold pass
  simp only [h1, Option.bind_eq_bind, Option.bind_some]
  by_cases hsent : sent = 0
  · obtain ⟨hnone, hquiet⟩ := h.unsent (hs1 hsent).2
    have hsame : ∀ u, graph1.lookup u = graph.lookup u := fun u => by
      rw [hl1, hnone, map_push_nil]
    refine ⟨graph1, false, by rw [if_pos hsent], h.congr hsame,
      fun _ => ⟨fun u n w hw => ?_, labels_congr hsame⟩, fun hb => absurd hb (by simp)⟩
    rw [Fresh, hsame]
    exact hquiet u n w hw
  · obtain ⟨graph', count, h2, hP, hc⟩ := h.passed hfit ord round hl1
    refine ⟨graph', decide (count ≠ 0), ?_, hP.wf h, fun hb => ?_, fun hb => ?_⟩
    · rw [if_neg hsent]
      simp only [h2, Option.bind_some]
    · have hcount : count = 0 := by simpa using hb
      have hquiet := hc.mp hcount
      exact ⟨fun u n w hw => hquiet n ((h.refines.nodes n).mpr (T.within u n w hw).2),
        hP.labels_eq h hquiet⟩
    · have hcount : ¬ count = 0 := by simpa using hb
      rw [hc] at hcount
      push Not at hcount
      obtain ⟨u, -, hfresh⟩ := hcount
      exact ⟨hP.weight_lt h hfresh, hP⟩

end Pass

/-! ## The loop -/

section Loop

variable {T : Topology}

/-- More fuel does not change an exchange that ends. -/
theorem exchange_fuel (ord : IterOrder (ℕ × ℤ × ℕ)) : ∀ {fuel round : ℕ}
    {graph graph' : IntMap Node}, exchange ord fuel round graph = some graph' →
      ∀ {fuel' : ℕ}, fuel ≤ fuel' → exchange ord fuel' round graph = some graph' := by
  intro fuel
  induction fuel with
  | zero =>
    intro round graph graph' h
    exact absurd h (by simp [exchange])
  | succ fuel ih =>
    intro round graph graph' h fuel' hle
    obtain ⟨fuel', rfl⟩ : ∃ f, fuel' = f + 1 := ⟨fuel' - 1, by omega⟩
    obtain ⟨r, hp, hr⟩ := Option.bind_eq_some_iff.mp h
    simp only [exchange, hp, Option.bind_eq_bind, Option.bind_some]
    split
    · rename_i hb
      rw [if_pos hb] at hr
      exact ih hr (by omega)
    · rename_i hb
      rw [if_neg hb] at hr
      exact hr

/-- **Whenever the loop ends**, no node with a link is flagged. -/
theorem exchange_spec (ord : IterOrder (ℕ × ℤ × ℕ)) (hB : Bounded T) :
    ∀ (fuel round : ℕ) (graph graph' : IntMap Node), Wf T graph →
      exchange ord fuel round graph = some graph' →
      Wf T graph' ∧ ∀ u n w, T.price u n = some w → ¬ Fresh graph' n := by
  intro fuel
  induction fuel with
  | zero =>
    intro round graph graph' _ he
    exact absurd he (by simp [exchange])
  | succ fuel ih =>
    intro round graph graph' h he
    obtain ⟨graph1, b, h1, hW1, hquiet, -⟩ := pass_spec ord round h (hB graph h)
    simp only [exchange, h1, Option.bind_eq_bind, Option.bind_some] at he
    cases b with
    | true => exact ih (round + 1) graph1 graph' hW1 he
    | false =>
      obtain rfl : graph1 = graph' := by simpa using he
      exact ⟨hW1, (hquiet rfl).1⟩

/-- **The loop ends**, since every pass that goes on lowers the weight of the graph. -/
theorem exchange_ends (ord : IterOrder (ℕ × ℤ × ℕ)) (hB : Bounded T) :
    ∀ (bound round : ℕ) (graph : IntMap Node), Wf T graph → graphWeight T graph ≤ bound →
      ∃ fuel graph', exchange ord fuel round graph = some graph' := by
  intro bound
  induction bound with
  | zero =>
    intro round graph h hle
    obtain ⟨graph1, b, h1, -, -, hlt⟩ := pass_spec ord round h (hB graph h)
    cases b with
    | true =>
      have := (hlt rfl).1
      omega
    | false =>
      exact ⟨1, graph1, by simp [exchange, h1]⟩
  | succ bound ih =>
    intro round graph h hle
    obtain ⟨graph1, b, h1, hW1, -, hlt⟩ := pass_spec ord round h (hB graph h)
    cases b with
    | true =>
      have := (hlt rfl).1
      obtain ⟨fuel, graph', h'⟩ := ih (round + 1) graph1 hW1 (by omega)
      exact ⟨fuel + 1, graph', by simp [exchange, h1, h']⟩
    | false =>
      exact ⟨1, graph1, by simp [exchange, h1]⟩

end Loop

end NetworkingLearning.Routing.DistanceVector
