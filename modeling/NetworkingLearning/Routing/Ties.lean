import Mathlib.Order.Bounds.Basic
import NetworkingLearning.Routing.LinkStateTables
import NetworkingLearning.Routing.DistanceVectorTables

/-!
# Which of several shortest paths the tables keep (`linkstate.cpp:101-115`, `distvec.cpp:107-117`)

Both programs compare candidates with `<` while they relax, and break a tie towards the smaller id
(`linkstate.cpp:110`, `distvec.cpp:112-116`). What they end with is the smallest of all candidates,
so the tables are determined by the topology: neither the order of `neibours`, nor that of the maps,
nor what the tables held before shows in them.

The candidates are named without the programs: `tightNeis` are the neighbours on a shortest path
that come before a node, seen from a root, and `tightNexts` those that come next, seen from a node.

Results:
* `LinkState.prev_least`: the predecessor of every node is the smallest neighbour on a shortest
  path, and the forwarding entry is the first hop of that chain.
* `DistanceVector.next_least`: the next hop of a node is its smallest neighbour on a shortest path.
* `DistanceVector.exchange_breaks`: the exchange these tables come from ends, and leaves no update
  in a queue.
-/

namespace NetworkingLearning.Routing

open NetworkingLearning.Machine NetworkingLearning.Paths

namespace LinkState

/-- The neighbours of `t` that account for the distance of `t`. -/
def tightNeis (graph : IntMap Node) (dist : IntMap ℤ) (t : ℤ) : Set ℤ :=
  {u | ∃ w a d, priceOf nodeClass graph t u = some w ∧ dist.lookup u = some a ∧
    dist.lookup t = some d ∧ a + w = d}

/-- `(*prevOfThatNode[s])[t]`. -/
def predecessor (ls : LinkState) (s t : ℤ) : Option ℤ :=
  (ls.prevOfThatNode.lookup s).bind fun prevs => prevs.lookup t

/-- `graph[s]->forwarding_table[t]`. -/
def firstHopOf (ls : LinkState) (s t : ℤ) : Option ℤ :=
  (ls.graph.lookup s).bind fun n => n.forwardingHop t

section Searched

variable {T : Topology} {s t : ℤ} {fwd record prevs : IntMap ℤ}
  (hS : Searched T s record prevs)

include hS

theorem Searched.lookup_record {v : ℤ} (hv : v ∈ T.nodes) :
    record.lookup v = some ((record.lookup v).getD intMax) :=
  eq_some_getD (AList.lookup_isSome.mpr ((hS.mem_record v).mpr hv))

/-- The label of a node is finite exactly if the node is reached. -/
theorem Searched.lt_iff (hs : s ∈ T.nodes) (hsum : T.costSum < intMax) :
    (record.lookup t).getD intMax < intMax ↔ Reachable T.price s t := by
  have hL := hS.rooted.labelling
  have htop := hL.eq_top_iff (v := t) T.positive T.symmetric T.within hs hsum
  have hle := hL.le_top t
  rw [lt_iff_le_and_ne, and_iff_right hle, Ne, htop, not_not]

/-- What accounts for a distance is a neighbour on a shortest path. -/
theorem Searched.mem_tightNeis_iff {graph : IntMap Node} (hR : Refines nodeClass graph T)
    (ht : t ∈ T.nodes) (hlt : (record.lookup t).getD intMax < intMax) (u : ℤ) :
    u ∈ tightNeis graph record t ↔ IsPred T.price s t u := by
  have hL := hS.rooted.labelling
  have hdist := hL.isDist T.positive hlt
  have hrec := hS.lookup_record ht
  constructor
  · rintro ⟨w, a, d, hw, ha, hd, rfl⟩
    rw [hR.price, T.symmetric] at hw
    have hw0 := T.positive u t w hw
    rw [hd, Option.getD_some] at hdist hlt
    have hu := hL.isDist (v := u) T.positive
    simp only [ha, Option.getD_some] at hu
    exact ⟨a, w, hu (by omega), hw, hdist⟩
  · rintro ⟨a, w, ha, hw, hd⟩
    have hw0 := T.positive u t w hw
    obtain ⟨l, hl⟩ := ha.attained
    have hle := hL.le_walk T.positive hl
    have hda := hdist.unique hd
    have hu : (record.lookup u).getD intMax = a := (hL.isDist T.positive (by omega)).unique ha
    have hrecu := hS.lookup_record (T.within u t w hw).1
    rw [hu] at hrecu
    rw [hda] at hrec
    exact ⟨w, a, a + w, by rw [hR.price, T.symmetric, hw], hrecu, hrec, rfl⟩

/-- The chain of a reached node other than the root ends, and stays within the nodes. -/
theorem Searched.chain (hts : t ≠ s) (ht : t ∈ T.nodes)
    (hlt : (record.lookup t).getD intMax < intMax) :
    ∃ k l x, chain (fun v => prevs.lookup v) s k t = some (l ++ [x]) ∧
      ∀ v ∈ l ++ [x], v ∈ T.nodes ∧ (record.lookup v).getD intMax < intMax := by
  have hroot := hS.rooted
  obtain ⟨k, l, hc, -, l', hl', -, hwalk⟩ :=
    (hroot.tight T.positive T.symmetric).chain_within T.positive hroot.labelling.root
      (hroot.nonneg T.positive (by decide)) T.within ht hlt
  obtain ⟨_, u, l0, -, -, rfl, -⟩ := chain_cons hts hc
  obtain ⟨l1, x, hx⟩ := List.eq_nil_or_concat (t :: l0) |>.resolve_left (List.cons_ne_nil t l0)
  rw [List.concat_eq_append] at hx
  refine ⟨k, l1, x, hx ▸ hc, fun v hv => ?_⟩
  rw [← hx] at hv
  obtain ⟨pre, post, hsplit⟩ := List.append_of_mem hv
  have hsplit' : (t :: l0) ++ [s] = pre ++ v :: (post ++ [s]) := by
    rw [hsplit, List.append_assoc, List.cons_append]
  obtain ⟨_, -, -, hv'⟩ := hroot.chain_dist T.positive pre hc hlt hsplit'
  exact ⟨hwalk.mem_of_within T.within ht v (by rw [← hl']; exact List.mem_append_left _ hv), hv'⟩

/-- The predecessor of a reached node is the least neighbour that accounts for its distance. -/
theorem Searched.least {graph : IntMap Node} (hR : Refines nodeClass graph T) (hts : t ≠ s)
    (ht : t ∈ T.nodes) (hlt : (record.lookup t).getD intMax < intMax) :
    ∃ p, prevs.lookup t = some p ∧ IsLeast (tightNeis graph record t) p := by
  obtain ⟨p, hp, hpred, hmin⟩ := hS.rooted.pred t hts hlt
  exact ⟨p, hp, (hS.mem_tightNeis_iff hR ht hlt p).mpr hpred,
    fun u hu => hmin u ((hS.mem_tightNeis_iff hR ht hlt u).mp hu)⟩

/-- The predecessors are determined by the topology. -/
theorem Searched.prev_eq {record2 prevs2 : IntMap ℤ} (hS2 : Searched T s record2 prevs2)
    (hts : t ≠ s) (hlt : (record.lookup t).getD intMax < intMax)
    (hlt2 : (record2.lookup t).getD intMax < intMax) : prevs2.lookup t = prevs.lookup t := by
  obtain ⟨p, hp, hleast⟩ := hS.rooted.pred t hts hlt
  obtain ⟨p2, hp2, hleast2⟩ := hS2.rooted.pred t hts hlt2
  rw [hp, hp2, hleast.unique hleast2]

end Searched

section Canonical

variable {T : Topology} {ls ls' ls2 ls2' : LinkState} {ord ord2 : IterOrder (ℤ × ℕ)} {s t : ℤ}

/-- The tables of a pair of nodes after a build. -/
theorem Reach.tables (h : Reach T ls) (hsum : T.costSum < intMax)
    (hb : buildNodesForwardingTables ord ls = some ls') (hs : s ∈ T.nodes) (ht : t ∈ T.nodes)
    (hts : t ≠ s) : ∃ n dist prevs, ls'.graph.lookup s = some n ∧
      ls'.totalDistance.lookup s = some dist ∧ ls'.prevOfThatNode.lookup s = some prevs ∧
      Searched T s dist prevs ∧
      (Reachable T.price s t → ∃ k l x, chain (fun v => prevs.lookup v) s k t = some (l ++ [x]) ∧
        (∀ v ∈ l ++ [x], v ∈ T.nodes ∧ Reachable T.price s v) ∧ n.forwardingHop t = some x) ∧
      (¬ Reachable T.price s t → prevs.lookup t = some (-1) ∧ n.forwardingHop t = some (-1)) := by
  obtain ⟨n, dist, prevs, hn, hdist, hprevs, hS, htab⟩ :=
    (h.wf.build (bounded_of_costSum hsum) hb).2 s hs
  have htab := htab h.nonnegIds
  have hrec := hS.lookup_record ht
  have hiff := fun v => hS.lt_iff (t := v) hs hsum
  refine ⟨n, dist, prevs, hn, hdist, hprevs, hS, fun hr => ?_, fun hr => ?_⟩
  · have hlt := (hiff t).mpr hr
    obtain ⟨k, l, x, hc, hmem⟩ := hS.chain hts ht hlt
    exact ⟨k, l, x, hc, fun v hv => ⟨(hmem v hv).1, (hiff v).mp (hmem v hv).2⟩,
      htab.hop t ht (by rw [valueAt_of_lookup hrec]; exact hlt) k l x hc⟩
  · have htop : (dist.lookup t).getD intMax = intMax :=
      le_antisymm (hS.rooted.labelling.le_top t) (not_lt.mp fun hlt => hr ((hiff t).mp hlt))
    rw [htop] at hrec
    exact ⟨hS.unreached t ht hrec, htab.unreached t ht hrec⟩

/-- **The tables are determined by the topology.** -/
theorem Reach.tables_eq (h : Reach T ls) (h2 : Reach T ls2) (hsum : T.costSum < intMax)
    (hb : buildNodesForwardingTables ord ls = some ls')
    (hb2 : buildNodesForwardingTables ord2 ls2 = some ls2') (hs : s ∈ T.nodes) (ht : t ∈ T.nodes)
    (hts : t ≠ s) :
    predecessor ls2' s t = predecessor ls' s t ∧ firstHopOf ls2' s t = firstHopOf ls' s t := by
  obtain ⟨n, dist, prevs, hn, -, hprevs, hS, hreach, hunreach⟩ := h.tables hsum hb hs ht hts
  obtain ⟨n2, dist2, prevs2, hn2, -, hprevs2, hS2, hreach2, hunreach2⟩ :=
    h2.tables hsum hb2 hs ht hts
  have heq : ∀ v, v ≠ s → Reachable T.price s v → prevs2.lookup v = prevs.lookup v :=
    fun v hv hr => hS.prev_eq hS2 hv ((hS.lt_iff hs hsum).mpr hr) ((hS2.lt_iff hs hsum).mpr hr)
  simp only [predecessor, firstHopOf, hn, hn2, hprevs, hprevs2, Option.bind_some]
  by_cases hr : Reachable T.price s t
  · obtain ⟨k, l, x, hc, hmem, hx⟩ := hreach hr
    obtain ⟨k2, l2, x2, hc2, -, hx2⟩ := hreach2 hr
    -- both chains run through the same predecessors
    have hc' := chain_congr hc fun v hv hvs => heq v hvs (hmem v hv).2
    have hlast := List.append_inj' (chain_unique hc' hc2) rfl
    exact ⟨heq t hts hr, by rw [hx, hx2, List.singleton_inj.mp hlast.2]⟩
  · rw [(hunreach hr).1, (hunreach hr).2, (hunreach2 hr).1, (hunreach2 hr).2]
    exact ⟨rfl, rfl⟩

end Canonical

/-- **Canonical tie-breaking**: after a build the predecessor of a reached node is the least
neighbour that accounts for its distance, and the forwarding entry is the node after the root on
the chain of predecessors; at a node not reached both are `-1`. Any other history of lines and
builds with the same topology, and any other iteration order, gives the same tables. -/
theorem prev_least {T : Topology} {ls : LinkState} (h : Reach T ls) (ord : IterOrder (ℤ × ℕ))
    (hsum : T.costSum < intMax) :
    ∃ ls', buildNodesForwardingTables ord ls = some ls' ∧
      ∀ s ∈ ls'.graph, ∀ t ∈ ls'.graph, s ≠ t →
        (∃ n dist prevs, ls'.graph.lookup s = some n ∧ ls'.totalDistance.lookup s = some dist ∧
          ls'.prevOfThatNode.lookup s = some prevs ∧
          (Reachable T.price s t →
            (∃ p, prevs.lookup t = some p ∧ IsLeast (tightNeis ls'.graph dist t) p) ∧
            ∃ k l x, chain (fun v => prevs.lookup v) s k t = some (l ++ [x]) ∧
              n.forwardingHop t = some x) ∧
          (¬ Reachable T.price s t →
            prevs.lookup t = some (-1) ∧ n.forwardingHop t = some (-1))) ∧
        ∀ ls2 ls2' ord2, Reach T ls2 → buildNodesForwardingTables ord2 ls2 = some ls2' →
          predecessor ls2' s t = predecessor ls' s t ∧
            firstHopOf ls2' s t = firstHopOf ls' s t := by
  obtain ⟨ls', hb, hW, -⟩ := buildNodesForwardingTables_spec ord h.wf (bounded_of_costSum hsum)
  refine ⟨ls', hb, fun s hs t ht hst => ?_⟩
  have hsT := (hW.refines.nodes s).mp hs
  have htT := (hW.refines.nodes t).mp ht
  obtain ⟨n, dist, prevs, hn, hdist, hprevs, hS, hreach, hunreach⟩ :=
    h.tables hsum hb hsT htT hst.symm
  refine ⟨⟨n, dist, prevs, hn, hdist, hprevs, fun hr => ?_, hunreach⟩,
    fun ls2 ls2' ord2 h2 hb2 => h.tables_eq h2 hsum hb hb2 hsT htT hst.symm⟩
  obtain ⟨k, l, x, hc, -, hx⟩ := hreach hr
  exact ⟨hS.least hW.refines hst.symm htT ((hS.lt_iff hsT hsum).mpr hr), k, l, x, hc, hx⟩

/-- Two ways of the same cost from `1` to `4`. -/
theorem prev_least_square :
    ∃ ls', buildNodesForwardingTables (IterOrder.listed _)
        ((((init.buildLine 1 3 1).buildLine 1 2 1).buildLine 3 4 1).buildLine 2 4 1) = some ls' ∧
      ∀ s ∈ ls'.graph, ∀ t ∈ ls'.graph, s ≠ t →
        (∃ n dist prevs, ls'.graph.lookup s = some n ∧ ls'.totalDistance.lookup s = some dist ∧
          ls'.prevOfThatNode.lookup s = some prevs ∧
          (Reachable ((((Topology.empty.line 1 3 1).line 1 2 1).line 3 4 1).line 2 4 1).price s t →
            (∃ p, prevs.lookup t = some p ∧ IsLeast (tightNeis ls'.graph dist t) p) ∧
            ∃ k l x, chain (fun v => prevs.lookup v) s k t = some (l ++ [x]) ∧
              n.forwardingHop t = some x) ∧
          (¬ Reachable ((((Topology.empty.line 1 3 1).line 1 2 1).line 3 4 1).line 2 4 1).price
              s t →
            prevs.lookup t = some (-1) ∧ n.forwardingHop t = some (-1))) ∧
        ∀ ls2 ls2' ord2,
          Reach ((((Topology.empty.line 1 3 1).line 1 2 1).line 3 4 1).line 2 4 1) ls2 →
          buildNodesForwardingTables ord2 ls2 = some ls2' →
          predecessor ls2' s t = predecessor ls' s t ∧
            firstHopOf ls2' s t = firstHopOf ls' s t :=
  prev_least (.line (.line (.line (.line .init 1 3 1 (by decide) (by decide)) 1 2 1 (by decide)
    (by decide)) 3 4 1 (by decide) (by decide)) 2 4 1 (by decide) (by decide))
    (IterOrder.listed _) (by decide +kernel)

end LinkState

namespace DistanceVector

/-- `graph[u]->distanceToThatNode[x]`. -/
def distanceAt (graph : IntMap Node) (u x : ℤ) : Option ℤ :=
  (graph.lookup u).bind fun n => n.distanceToThatNode.lookup x

/-- The neighbours of `u` that account for its distance to `x`. -/
def tightNexts (graph : IntMap Node) (u x : ℤ) : Set ℤ :=
  {v | ∃ w a d, priceOf nodeClass graph u v = some w ∧ distanceAt graph v x = some a ∧
    distanceAt graph u x = some d ∧ w + a = d}

section Quiet

variable {T : Topology} {graph graph2 : IntMap Node} {u x : ℤ}

theorem Wf.distanceAt_eq (h : Wf T graph) (hu : u ∈ T.nodes) (hx : x ∈ T.nodes) :
    distanceAt graph u x = some (labels graph u x) := by
  obtain ⟨n, hn⟩ := h.refines.exists_lookup hu
  have hd : n.distanceToThatNode.lookup x = some (labels graph u x) :=
    h.lookup_distance hn hx
  rw [distanceAt, hn, Option.bind_some, hd]

theorem Wf.mem_tightNexts_iff (h : Wf T graph) (hu : u ∈ T.nodes) (hx : x ∈ T.nodes) (v : ℤ) :
    v ∈ tightNexts graph u x ↔
      ∃ w, T.price u v = some w ∧ labels graph u x = w + labels graph v x := by
  have hd := h.distanceAt_eq hu hx
  constructor
  · rintro ⟨w, a, d, hw, ha, hd', rfl⟩
    rw [h.refines.price] at hw
    have hv := h.distanceAt_eq (T.within u v w hw).2 hx
    rw [ha] at hv
    rw [hd'] at hd
    exact ⟨w, hw, by rw [← Option.some.inj hv, Option.some.inj hd]⟩
  · rintro ⟨w, hw, he⟩
    exact ⟨w, labels graph v x, labels graph u x, by rw [h.refines.price, hw],
      h.distanceAt_eq (T.within u v w hw).2 hx, hd, he.symm⟩

/-- When nobody has anything to send, the next hop is the least neighbour that accounts for the
distance. -/
theorem Wf.next_isLeast (h : Wf T graph)
    (hquiet : ∀ u n w, T.price u n = some w → ¬ Fresh graph n) (hu : u ∈ T.nodes)
    (hx : x ∈ T.nodes) (hux : u ≠ x) (hlt : labels graph u x < intMax) :
    ∃ f, hops graph u x = some f ∧ IsLeast (tightNexts graph u x) f := by
  obtain ⟨f, w, hf, hw, he⟩ := h.exchanging.tight hquiet x u hux hlt
  refine ⟨f, hf, (h.mem_tightNexts_iff hu hx f).mpr ⟨w, hw, he⟩, fun v hv => ?_⟩
  obtain ⟨w', hw', he'⟩ := (h.mem_tightNexts_iff hu hx v).mp hv
  exact h.exchanging.least_next hquiet hux hlt hf hw' he'

/-- **The distances are determined by the topology**, and so are the next hops. -/
theorem Wf.next_eq (h : Wf T graph) (h2 : Wf T graph2)
    (hquiet : ∀ u n w, T.price u n = some w → ¬ Fresh graph n)
    (hquiet2 : ∀ u n w, T.price u n = some w → ¬ Fresh graph2 n) (hsum : T.costSum < intMax)
    (hu : u ∈ T.nodes) (hx : x ∈ T.nodes) (hux : u ≠ x) (hlt : labels graph u x < intMax) :
    hops graph2 u x = hops graph u x := by
  have hL : ∀ v, labels graph2 v x = labels graph v x := fun v =>
    (h2.exchanging.labelling hquiet2 T.symmetric hx).unique
      (h.exchanging.labelling hquiet T.symmetric hx) T.positive T.symmetric T.within hx hsum v
  have hset : tightNexts graph2 u x = tightNexts graph u x := by
    ext v
    rw [h2.mem_tightNexts_iff hu hx, h.mem_tightNexts_iff hu hx, hL, hL]
  obtain ⟨f, hf, hleast⟩ := h.next_isLeast hquiet hu hx hux hlt
  obtain ⟨f2, hf2, hleast2⟩ := h2.next_isLeast hquiet2 hu hx hux (by rw [hL]; exact hlt)
  rw [hset] at hleast2
  rw [hf, hf2, hleast.unique hleast2]

end Quiet

/-- **Canonical tie-breaking**: when a build ends, the next hop of a node with a finite distance is
its least neighbour that accounts for the distance. Any other history of lines, builds and prints
with the same topology, and any other iteration order, gives the same next hop. -/
theorem next_least {T : Topology} {dv dv' : DistanceVector} {ord : IterOrder (ℕ × ℤ × ℕ)}
    {fuel : ℕ} (h : Reach T dv) (hsum : 2 * T.costSum < intMax)
    (hb : buildNodesForwardingTables ord fuel dv = some dv') :
    ∀ u ∈ dv'.graph, ∀ x ∈ dv'.graph, u ≠ x →
      ∀ d, distanceAt dv'.graph u x = some d → d ≠ intMax →
        (∃ f, hops dv'.graph u x = some f ∧ IsLeast (tightNexts dv'.graph u x) f) ∧
        ∀ dv2 dv2' ord2 fuel2, Reach T dv2 →
          buildNodesForwardingTables ord2 fuel2 dv2 = some dv2' →
          hops dv2'.graph u x = hops dv'.graph u x := by
  obtain ⟨hW, hquiet⟩ := h.wf.build (bounded_of_costSum hsum) hb
  intro u hu x hx hux d hd hfin
  have huT := (hW.refines.nodes u).mp hu
  have hxT := (hW.refines.nodes x).mp hx
  have hlt : labels dv'.graph u x < intMax := by
    rw [hW.distanceAt_eq huT hxT, Option.some.injEq] at hd
    exact lt_of_le_of_ne (hW.exchanging.le_top u x) (hd ▸ hfin)
  refine ⟨hW.next_isLeast hquiet huT hxT hux hlt, fun dv2 dv2' ord2 fuel2 h2 hb2 => ?_⟩
  obtain ⟨hW2, hquiet2⟩ := h2.wf.build (bounded_of_costSum hsum) hb2
  have hnn : 0 ≤ T.costSum := linkSum_nonneg T.positive T.nodes
  exact hW.next_eq hW2 hquiet hquiet2 (by omega) huT hxT hux hlt

/-- The router of two ways of the same cost from `1` to `4`, with its tables built. -/
def squareRouter : DistanceVector :=
  (buildNodesForwardingTables (IterOrder.listed _) 10
    ((((init.buildLine 1 3 1).buildLine 1 2 1).buildLine 3 4 1).buildLine 2 4 1)).getD init

theorem next_least_square :
    (∃ f, hops squareRouter.graph 1 4 = some f ∧ IsLeast (tightNexts squareRouter.graph 1 4) f) ∧
      ∀ dv2 dv2' ord2 fuel2,
        Reach ((((Topology.empty.line 1 3 1).line 1 2 1).line 3 4 1).line 2 4 1) dv2 →
        buildNodesForwardingTables ord2 fuel2 dv2 = some dv2' →
        hops dv2'.graph 1 4 = hops squareRouter.graph 1 4 :=
  next_least (.line (.line (.line (.line .init 1 3 1 (by decide) (by decide)) 1 2 1 (by decide)
    (by decide)) 3 4 1 (by decide) (by decide)) 2 4 1 (by decide) (by decide))
    (by decide +kernel) (eq_some_getD (by decide +kernel)) 1 (by decide +kernel) 4
    (by decide +kernel) (by decide) 2 (by decide +kernel) (by decide)

/-- **The exchange terminates**: enough passes of `while (1)` reach one of its two breaks, and then
no node has an update in its queue. -/
theorem exchange_breaks {T : Topology} {dv : DistanceVector} (h : Reach T dv)
    (ord : IterOrder (ℕ × ℤ × ℕ)) (hsum : 2 * T.costSum < intMax) :
    ∃ fuel dv', (∀ fuel', fuel ≤ fuel' → buildNodesForwardingTables ord fuel' dv = some dv') ∧
      ∀ u n, dv'.graph.lookup u = some n → n.updatesFromNei = [] := by
  obtain ⟨fuel, dv', hb⟩ := h.wf.build_ends ord (bounded_of_costSum hsum)
  obtain ⟨hW, -⟩ := h.wf.build (bounded_of_costSum hsum) hb
  obtain ⟨graph', he, rfl⟩ := Option.map_eq_some_iff.mp hb
  refine ⟨fuel, ⟨graph'⟩, fun fuel' hle => ?_, hW.queue⟩
  rw [buildNodesForwardingTables, exchange_fuel ord he hle, Option.map_some]

/-- A self-link, an isolated node and two ways of the same cost. -/
theorem exchange_breaks_square :
    ∃ fuel dv', (∀ fuel', fuel ≤ fuel' →
        buildNodesForwardingTables (IterOrder.listed _) fuel'
          (((((init.buildLine 1 3 1).buildLine 1 2 1).buildLine 3 4 1).buildLine 2 4 1).buildLine
            5 5 7) = some dv') ∧
      ∀ u n, dv'.graph.lookup u = some n → n.updatesFromNei = [] :=
  exchange_breaks (.line (.line (.line (.line (.line .init 1 3 1 (by decide) (by decide)) 1 2 1
    (by decide) (by decide)) 3 4 1 (by decide) (by decide)) 2 4 1 (by decide) (by decide)) 5 5 7
    (by decide) (by decide)) (IterOrder.listed _) (by decide +kernel)

end DistanceVector

end NetworkingLearning.Routing
