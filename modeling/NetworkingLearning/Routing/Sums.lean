import NetworkingLearning.Routing.LinkStateTables
import NetworkingLearning.Routing.DistanceVectorTables

/-!
# The sums of a build (`linkstate.cpp:108-113`, `distvec.cpp:103-110`)

A search adds the distance of the node it visits to the cost of each link to a node not visited
(`linkstate.cpp:109`); a node of the exchange adds the cost of a link to each distance its neighbour
has sent (`distvec.cpp:107`). Neither program guards these additions beyond the two tests for
`INT_MAX` (`linkstate.cpp:93`, `distvec.cpp:106`), which doubles as the mark of a node not reached,
and nothing bounds a cost but the range of `int`.

* `LinkState.buildAdds` and `DistanceVector.exchangeAdds` list the operands of the additions of a
  build. They follow the run of the build and add nothing themselves.
* A build is `Fine` if all its sums are within `int` and it leaves no reached node at `INT_MAX`.
* `SearchFits` and `ExchangeFits` are the conditions on the topology. The exchange has sums that the
  search has not: it also adds along links that lead back, and to distances that are not final.

Results:
* `LinkState.fine_iff`: the build is fine exactly if, from every root, the distance of the nearer
  end of every link plus its cost is within `int`, and every distance is below `INT_MAX`.
* `DistanceVector.fine_iff`: the same for the exchange after a line, where the sums are those of the
  least prices within any number of links, and run back along the link a distance came by.
-/

namespace NetworkingLearning.Routing

open NetworkingLearning.Machine NetworkingLearning.Paths

/-- Every shortest distance from `s` is below `INT_MAX`. -/
def Topology.Finite (T : Topology) (s : ℤ) : Prop := ∀ t d, IsDist T.price s t d → d < intMax

namespace LinkState

/-! ## The link-state build -/

/-- The operands of `dist + cur->get_edge_cost(nei)` in the pass that visits `curId`. -/
def visitAdds (graph : IntMap Node) (curId : ℤ) (st : Search) : List (ℤ × ℤ) :=
  match st.distanceToRoot.lookup curId, graph.lookup curId with
  | some dist, some cur =>
    if dist = intMax then []
    else (cur.links.neibours.filter (· ∉ curId :: st.visited)).map fun nei =>
      (dist, valueAt cur.links.edges nei)
  | _, _ => []

/-- Those of the whole loop `while (visited.size() < graph.size())`. -/
def searchAdds (ord : IterOrder (ℤ × ℕ)) (graph : IntMap Node) (this : ℤ) :
    ℕ → Search → List (ℤ × ℤ)
  | 0, _ => []
  | fuel + 1, st =>
    if st.visited.length < graph.keys.length then
      visitAdds graph (scanned ord this st) st ++
        (searchStep ord graph this st).elim [] (searchAdds ord graph this fuel)
    else []

/-- Those of `build_forwarding_table` for the nodes in the list. -/
def nodesAdds (ord : IterOrder (ℤ × ℕ)) : List ℤ → LinkState → List (ℤ × ℤ)
  | [], _ => []
  | k :: ks, ls =>
    ((ls.graph.lookup k).elim [] fun node =>
      searchAdds ord ls.graph node.id ls.graph.keys.length (searchInit ls.graph node)) ++
    (buildNode ord ls k).elim [] (nodesAdds ord ks)

/-- Those of `build_nodes_forwarding_tables`. -/
def buildAdds (ord : IterOrder (ℤ × ℕ)) (ls : LinkState) : List (ℤ × ℤ) :=
  nodesAdds ord (sortedKeys ls.graph) ls

/-- From `s`, the distance of the nearer end of every link plus its cost is within `int`. -/
def LinksFit (T : Topology) (s : ℤ) : Prop :=
  ∀ u v w a b, u ≠ v → T.price u v = some w → IsDist T.price s u a → IsDist T.price s v b →
    a ≤ b → a < intMax → a + w ≤ intMax

/-- The topology is one the link-state program can search. -/
def SearchFits (T : Topology) : Prop := ∀ s ∈ T.nodes, LinksFit T s ∧ T.Finite s

/-- A build whose sums are within `int` and which leaves no reached node at `INT_MAX`. -/
structure Fine (T : Topology) (ord : IterOrder (ℤ × ℕ)) (ls : LinkState) : Prop where
  sums : ∀ p ∈ buildAdds ord ls, p.1 + p.2 ≤ intMax
  finite : ∃ ls', buildNodesForwardingTables ord ls = some ls' ∧
    ∀ s ∈ T.nodes, ∀ t, Reachable T.price s t → distances ls' s t ≠ intMax

section Search

variable {T : Topology} {graph : IntMap Node} {this : ℤ} {st : Search}
  (hR : Refines nodeClass graph T)

include hR

/-- The sums of a pass fit if the operands listed for it do. -/
theorem SearchInv.visitAdds_iff (hI : SearchInv T this st) {u : ℤ} (huT : u ∈ T.nodes)
    (hu : u ∉ st.visited) :
    (∀ p ∈ visitAdds graph u st, p.1 + p.2 ≤ intMax) ↔ SumsFit T st u := by
  obtain ⟨cur, hcur⟩ := hR.exists_lookup huT
  unfold visitAdds SumsFit
  simp only [hI.lookup_queue huT hu, hcur]
  by_cases htop : label st u = intMax
  · simp [htop]
  · have hedge : ∀ v, cur.links.edges.lookup v = T.price u v :=
      hR.lookup_edges (C := nodeClass) hcur
    rw [if_neg htop]
    constructor
    · intro h _ v w hv hw
      have hmem : v ∈ cur.links.neibours :=
        (hR.mem_neibours_iff (C := nodeClass) hcur).mpr ⟨w, hw⟩
      have hval : valueAt cur.links.edges v = w :=
        valueAt_of_lookup ((hedge v).trans hw)
      rw [← hval]
      exact h _ (List.mem_map_of_mem (List.mem_filter.mpr ⟨hmem, by simpa using hv⟩))
    · intro h p hp
      obtain ⟨v, hv, rfl⟩ := List.mem_map.mp hp
      obtain ⟨hmem, hv⟩ := List.mem_filter.mp hv
      obtain ⟨w, hw⟩ := (hR.mem_neibours_iff (C := nodeClass) hcur).mp hmem
      rw [valueAt_of_lookup ((hedge v).trans hw)]
      exact h htop v w (by simpa using hv) hw

omit hR in
/-- What a pass adds is the distance of the nearer end of a link and its cost. -/
theorem boundedAt_of_linksFit {s : ℤ} (h : LinksFit T s) : BoundedAt T s := by
  intro st hI u hu hleast htop v w hv hw
  simp only [List.mem_cons, not_or] at hv
  have hlt : label st u < intMax := lt_of_le_of_ne (hI.settling.le_top u) htop
  have ha := hI.settling.isDist_least T.positive hleast hlt
  obtain ⟨l, hl⟩ := ha.attained
  have hreach : Reachable T.price s v := ⟨_, _, hl.snoc hw⟩
  obtain ⟨b, hb⟩ := hreach.exists_isDist T.positive
  have hab := hI.settling.least_le T.positive hleast hv.2 hb
  exact h u v w _ b (Ne.symm hv.1) hw ha hb hab hlt

variable (ord : IterOrder (ℤ × ℕ)) (hkeys : graph.keys.length = T.nodes.card)

include hkeys

/-- No sum of a bounded search overflows. -/
theorem searchAdds_le (hB : BoundedAt T this) : ∀ (fuel : ℕ) (st : Search),
    SearchInv T this st → ∀ p ∈ searchAdds ord graph this fuel st, p.1 + p.2 ≤ intMax := by
  intro fuel
  induction fuel with
  | zero => exact fun _ _ p hp => absurd hp List.not_mem_nil
  | succ fuel ih =>
    intro st hI p hp
    unfold searchAdds at hp
    split at hp
    · rename_i hlt
      obtain ⟨u, hu, huT, huv, hleast⟩ := hI.least ord (by omega)
      have hfit := hB st hI u huv hleast
      obtain ⟨st1, h1, hI1, -⟩ := searchStep_spec hR ord hI (by omega) (hu ▸ hfit)
      rw [h1, hu] at hp
      rcases List.mem_append.mp hp with hp | hp
      · exact (hI.visitAdds_iff hR huT huv).mpr hfit p hp
      · exact ih st1 hI1 p hp
    · exact absurd hp List.not_mem_nil

/-- **A search whose sums fit has met every link from its nearer end.** -/
theorem linksFit_of_adds : ∀ (fuel : ℕ) (st : Search), SearchInv T this st →
    T.nodes.card ≤ st.visited.length + fuel →
    (∀ p ∈ searchAdds ord graph this fuel st, p.1 + p.2 ≤ intMax) →
      ∀ u v w a b, u ≠ v → u ∉ st.visited → v ∉ st.visited → T.price u v = some w →
        IsDist T.price this u a → IsDist T.price this v b → a ≤ b → a < intMax →
        a + w ≤ intMax := by
  intro fuel
  induction fuel with
  | zero =>
    intro st hI hle _ u v w a b _ hu _ hw
    exact absurd (hI.visited_all (by omega) u (T.within u v w hw).1) hu
  | succ fuel ih =>
    intro st hI hle hadds u v w a b huv hu hv hw ha hb hab hlt
    by_cases hlen : st.visited.length < T.nodes.card
    · obtain ⟨c, hc, hcT, hcv, hleast⟩ := hI.least ord hlen
      rw [searchAdds, if_pos (by omega), hc, List.forall_mem_append] at hadds
      have hfit := (hI.visitAdds_iff hR hcT hcv).mp hadds.1
      obtain ⟨st1, h1, hI1, hvis⟩ := searchStep_spec hR ord hI hlen (hc ▸ hfit)
      have hdist : ∀ x d, x ∉ st.visited → IsDist T.price this x d → label st c ≤ d :=
        fun x d hx hd => hI.settling.least_le T.positive hleast hx hd
      have hca := hdist u a hu ha
      have hlabel := hI.settling.isDist_least T.positive hleast (by omega)
      by_cases hcu : c = u
      · subst hcu
        rw [← hlabel.unique ha]
        exact hfit (by omega) v w (by simp [hv, Ne.symm huv]) hw
      · by_cases hcv' : c = v
        · subst hcv'
          -- the other end is visited first only if it is as near
          obtain rfl : a = b := by
            have := hlabel.unique hb
            omega
          rw [← hlabel.unique hb]
          exact hfit (by omega) u w (by simp [hu, huv]) (by rw [T.symmetric, hw])
        · rw [h1] at hadds
          have hnot : ∀ x, x ≠ c → x ∉ st.visited → x ∉ st1.visited := fun x hx hxv => by
            rw [hvis, hc]
            simp [hx, hxv]
          exact ih st1 hI1 (by rw [hvis, List.length_cons]; omega) hadds.2 u v w a b huv
            (hnot u (Ne.symm hcu) hu) (hnot v (Ne.symm hcv') hv) hw ha hb hab hlt
    · exact absurd (hI.visited_all (by omega) u (T.within u v w hw).1) hu

end Search

section Build

variable {T : Topology} {ls : LinkState} (ord : IterOrder (ℤ × ℕ))

theorem nodesAdds_le (hB : Bounded T) : ∀ (ks : List ℤ) (ls : LinkState), Wf T ls →
    (∀ k ∈ ks, k ∈ T.nodes) → ∀ p ∈ nodesAdds ord ks ls, p.1 + p.2 ≤ intMax := by
  intro ks
  induction ks with
  | nil => exact fun _ _ _ p hp => absurd hp List.not_mem_nil
  | cons k ks ih =>
    intro ls hW hks
    have hk := hks k List.mem_cons_self
    obtain ⟨n, hn⟩ := hW.refines.exists_lookup hk
    obtain ⟨rfl, hself⟩ := hW.node k n hn
    obtain ⟨ls1, h1, hW1, -⟩ := buildNode_spec ord hW (hB n.id hk) hk
    rw [nodesAdds, hn, h1, List.forall_mem_append]
    exact ⟨searchAdds_le hW.refines ord (keys_length hW.refines) (hB n.id hk) _ _
      (SearchInv.init hW.refines hk hself),
      ih ls1 hW1 fun x hx => hks x (List.mem_cons_of_mem _ hx)⟩

theorem linksFit_of_nodesAdds : ∀ (ks : List ℤ) (ls : LinkState), Wf T ls →
    (∀ k ∈ ks, k ∈ T.nodes) → (∀ p ∈ nodesAdds ord ks ls, p.1 + p.2 ≤ intMax) →
      ∀ k ∈ ks, LinksFit T k := by
  intro ks
  induction ks with
  | nil => exact fun _ _ _ _ k hk => absurd hk List.not_mem_nil
  | cons k ks ih =>
    intro ls hW hks hadds
    have hk := hks k List.mem_cons_self
    obtain ⟨n, hn⟩ := hW.refines.exists_lookup hk
    obtain ⟨rfl, hself⟩ := hW.node k n hn
    have hkeys := keys_length hW.refines
    rw [nodesAdds, hn, List.forall_mem_append] at hadds
    have hfit : LinksFit T n.id := fun u v w a b huv =>
      linksFit_of_adds hW.refines ord hkeys _ _ (SearchInv.init hW.refines hk hself)
        (by simp [searchInit, hkeys]) hadds.1 u v w a b huv List.not_mem_nil List.not_mem_nil
    obtain ⟨ls1, h1, hW1, -⟩ := buildNode_spec ord hW (boundedAt_of_linksFit hfit) hk
    rw [h1] at hadds
    exact List.forall_mem_cons.mpr ⟨hfit,
      ih ls1 hW1 (fun x hx => hks x (List.mem_cons_of_mem _ hx)) hadds.2⟩

/-- The recorded distance is the label of the search. -/
theorem Recorded.distances_eq {s : ℤ} (h : Recorded T ls s) :
    ∃ record prevs, Searched T s record prevs ∧
      ∀ t, distances ls s t = (record.lookup t).getD intMax := by
  obtain ⟨_, record, prevs, -, hrec, -, hS, -⟩ := h
  exact ⟨record, prevs, hS, fun t => by rw [distances, hrec, Option.bind_some]⟩

theorem bounded_of_fits (h : SearchFits T) : Bounded T := fun s hs =>
  boundedAt_of_linksFit (h s hs).1

/-- **The link-state build is fine exactly if the topology fits.** -/
theorem fine_iff (hW : Wf T ls) : Fine T ord ls ↔ SearchFits T := by
  have hkeys : ∀ k, k ∈ sortedKeys ls.graph ↔ k ∈ T.nodes := fun k =>
    mem_sortedKeys.trans (hW.refines.nodes k)
  constructor
  · rintro ⟨hsums, ls', hb, hfin⟩
    have hfit := linksFit_of_nodesAdds ord (sortedKeys ls.graph) ls hW
      (fun k hk => (hkeys k).mp hk) hsums
    have hB : Bounded T := fun s hs => boundedAt_of_linksFit (hfit s ((hkeys s).mpr hs))
    obtain ⟨hW', hT⟩ := hW.build hB hb
    refine fun s hs => ⟨hfit s ((hkeys s).mpr hs), fun t d hd => ?_⟩
    obtain ⟨record, prevs, hS, heq⟩ := (hT s hs).distances_eq
    have hne := hfin s hs t hd.reachable
    rw [heq] at hne
    have hL := hS.rooted.labelling
    have hlt := lt_of_le_of_ne (hL.le_top t) hne
    exact (hL.isDist T.positive hlt).unique hd ▸ hlt
  · intro hfits
    obtain ⟨ls', hb, -, hT⟩ := buildNodesForwardingTables_spec ord hW (bounded_of_fits hfits)
    refine ⟨nodesAdds_le ord (bounded_of_fits hfits) _ ls hW fun k hk => (hkeys k).mp hk, ls', hb,
      fun s hs t hr => ?_⟩
    obtain ⟨record, prevs, hS, heq⟩ := (hT s hs).distances_eq
    obtain ⟨d, hd⟩ := hr.exists_isDist T.positive
    obtain ⟨l, hl⟩ := hd.attained
    rw [heq]
    exact ((hS.rooted.labelling.le_walk T.positive hl).trans_lt ((hfits s hs).2 t d hd)).ne

end Build

end LinkState

namespace DistanceVector

/-! ## The distance-vector build -/

/-- The operands of `nei_edge + given_dist` in `update_distance_and_forwarding_table`. -/
def Node.updateAdds (n : Node) : List (ℤ × ℤ) :=
  n.updatesFromNei.flatMap fun msg =>
    (msg.2.entries.filter fun e =>
        ¬ (valueAt n.links.edges msg.1 = intMax ∨ e.2 = intMax)).map fun e =>
      (valueAt n.links.edges msg.1, e.2)

/-- Those of one pass of `while (1)`. -/
def passAdds (graph : IntMap Node) : List (ℤ × ℤ) :=
  ((sortedKeys graph).foldlM sendStep (graph, 0)).elim [] fun sent =>
    if sent.2 = 0 then []
    else (sortedKeys sent.1).flatMap fun k => (sent.1.lookup k).elim [] Node.updateAdds

/-- Those of the loop `while (1)`. -/
def exchangeAdds (ord : IterOrder (ℕ × ℤ × ℕ)) : ℕ → ℕ → IntMap Node → List (ℤ × ℤ)
  | 0, _, _ => []
  | fuel + 1, round, graph =>
    passAdds graph ++ (pass ord round graph).elim [] fun r =>
      if r.2 then exchangeAdds ord fuel (round + 1) r.1 else []

/-- The cost of every link plus the least price from its far end within any number of links is
within `int`, where neither is `INT_MAX`. -/
def StepsFit (T : Topology) : Prop :=
  ∀ k u n x w d, T.price u n = some w → w < intMax → IsDistIn T.price k n x d → d < intMax →
    w + d ≤ intMax

/-- The topology is one the distance-vector program can exchange. -/
def ExchangeFits (T : Topology) : Prop := StepsFit T ∧ ∀ s ∈ T.nodes, T.Finite s

/-- A build whose sums are within `int` and which leaves no reached node at `INT_MAX`. -/
structure Fine (T : Topology) (ord : IterOrder (ℕ × ℤ × ℕ)) (dv : DistanceVector) : Prop where
  sums : ∀ fuel, ∀ p ∈ exchangeAdds ord fuel 0 dv.graph, p.1 + p.2 ≤ intMax
  finite : ∃ fuel dv', buildNodesForwardingTables ord fuel dv = some dv' ∧
    ∀ u ∈ T.nodes, ∀ x, Reachable T.price u x → labels dv'.graph u x ≠ intMax

/-- No cost is above `INT_MAX`. -/
def CostsFit (T : Topology) : Prop := ∀ u v w, T.price u v = some w → w ≤ intMax

section Pass

variable {T : Topology} {graph : IntMap Node}

theorem Wf.mem_of_label (h : Wf T graph) {u x : ℤ} (hlt : labels graph u x < intMax) :
    x ∈ T.nodes := by
  cases hu : graph.lookup u with
  | none =>
    rw [labels, hu] at hlt
    exact absurd hlt (lt_irrefl _)
  | some n =>
    rw [labels_of_lookup hu, Node.label] at hlt
    refine ((h.node u n hu).keys x).mp (AList.lookup_isSome.mp ?_)
    cases hx : n.distanceToThatNode.lookup x with
    | none =>
      rw [hx] at hlt
      exact absurd hlt (lt_irrefl _)
    | some _ => rfl

/-- What a node adds is what it was sent. -/
theorem Wf.mem_updateAdds (h : Wf T graph) {u : ℤ} {m : Node} (hm : graph.lookup u = some m)
    {p : ℤ × ℤ} : p ∈ (m.push (inbox graph (sortedKeys graph) u)).updateAdds ↔
      ∃ n x, T.price u n = some p.1 ∧ p.1 ≠ intMax ∧ Fresh graph n ∧ labels graph n x = p.2 ∧
        p.2 < intMax := by
  have hqueue : (m.push (inbox graph (sortedKeys graph) u)).updatesFromNei =
      inbox graph (sortedKeys graph) u := by
    simp [Node.push, h.queue u m hm]
  have hedge : ∀ n w, T.price u n = some w → valueAt m.links.edges n = w := fun n w hw =>
    valueAt_of_lookup ((h.refines.lookup_edges (C := nodeClass) hm n).trans hw)
  unfold Node.updateAdds
  rw [hqueue, List.mem_flatMap]
  constructor
  · rintro ⟨msg, hmsg, hp⟩
    obtain ⟨e, he, rfl⟩ := List.mem_map.mp hp
    obtain ⟨he, hne⟩ := List.mem_filter.mp he
    obtain ⟨n, -, a, ha, hfl, hu, rfl⟩ := mem_inbox.mp hmsg
    obtain rfl := (h.node n a ha).id
    obtain ⟨w, hw⟩ := (h.refines.mem_neibours_iff (C := nodeClass) ha).mp hu
    rw [T.symmetric] at hw
    have hlab : labels graph a.id e.1 = e.2 := by
      rw [labels_of_lookup ha, Node.label_of_lookup (AList.mem_lookup_iff.mpr he)]
    have hval : valueAt (m.push (inbox graph (sortedKeys graph) u)).links.edges a.id = w :=
      hedge a.id w hw
    simp only [hval, decide_eq_true_eq, not_or] at hne ⊢
    have hle := h.exchanging.le_top a.id e.1
    rw [hlab] at hle
    exact ⟨a.id, e.1, hw, hne.1, ⟨a, ha, hfl⟩, hlab, lt_of_le_of_ne hle hne.2⟩
  · rintro ⟨n, x, hw, hne, ⟨a, ha, hfl⟩, hlab, hlt⟩
    have hid := (h.node n a ha).id
    have hmem : u ∈ a.links.neibours :=
      (h.refines.mem_neibours_iff (C := nodeClass) ha).mpr ⟨p.1, by rw [T.symmetric, hw]⟩
    have hx : a.distanceToThatNode.lookup x = some p.2 := by
      rw [h.lookup_distance ha (h.mem_of_label (hlab ▸ hlt)), hlab]
    have hval : valueAt (m.push (inbox graph (sortedKeys graph) u)).links.edges a.id = p.1 := by
      rw [hid]
      exact hedge n p.1 hw
    refine ⟨(a.id, a.distanceToThatNode), mem_inbox.mpr ⟨n, mem_sortedKeys.mpr
      (AList.lookup_isSome.mp (by rw [ha]; rfl)), a, ha, hfl, hmem, rfl⟩, ?_⟩
    refine List.mem_map.mpr ⟨⟨x, p.2⟩, List.mem_filter.mpr ⟨AList.mem_lookup_iff.mp hx, ?_⟩, ?_⟩
    · simp [hval, hne, hlt.ne]
    · rw [hval]

/-- **The sums of a pass fit** if the operands listed for it do. -/
theorem Wf.passAdds_iff (h : Wf T graph) (hcost : CostsFit T) :
    (∀ p ∈ passAdds graph, p.1 + p.2 ≤ intMax) ↔ SumsFit T graph := by
  obtain ⟨graph1, sent, h1, hl1, hs1⟩ := foldlM_sendStep (sortedKeys graph) graph 0
    (fun k hk => mem_sortedKeys.mp hk) fun k n hn v hv => h.neibours_mem hn hv
  unfold passAdds
  rw [h1, Option.elim_some]
  by_cases hsent : sent = 0
  · obtain ⟨-, hquiet⟩ := h.unsent (hs1 hsent).2
    rw [if_pos hsent]
    exact iff_of_true (fun p hp => absurd hp List.not_mem_nil)
      ⟨hcost, fun u n w x hw hfr => absurd hfr (hquiet u n w hw)⟩
  · have hmem : ∀ p, (p ∈ (sortedKeys graph1).flatMap fun k =>
        (graph1.lookup k).elim [] Node.updateAdds) ↔ ∃ u n x, T.price u n = some p.1 ∧
          p.1 ≠ intMax ∧ Fresh graph n ∧ labels graph n x = p.2 ∧ p.2 < intMax := by
      intro p
      rw [List.mem_flatMap]
      constructor
      · rintro ⟨u, -, hp⟩
        rw [hl1] at hp
        cases hu : graph.lookup u with
        | none =>
          rw [hu] at hp
          exact absurd hp List.not_mem_nil
        | some m =>
          rw [hu] at hp
          exact ⟨u, (h.mem_updateAdds hu).mp hp⟩
      · rintro ⟨u, n, x, hw, hp⟩
        obtain ⟨m, hm⟩ := h.refines.exists_lookup (T.within u n p.1 hw).1
        have hu1 : graph1.lookup u = some (m.push (inbox graph (sortedKeys graph) u)) := by
          rw [hl1, hm]
          rfl
        refine ⟨u, mem_sortedKeys.mpr (AList.lookup_isSome.mp (by rw [hu1]; rfl)), ?_⟩
        rw [hu1]
        exact (h.mem_updateAdds hm).mpr ⟨n, x, hw, hp⟩
    rw [if_neg hsent]
    constructor
    · intro hp
      exact ⟨hcost, fun u n w x hw hfr hlt hwlt =>
        hp (w, labels graph n x) ((hmem _).mpr ⟨u, n, x, hw, hwlt.ne, hfr, rfl, hlt⟩)⟩
    · intro hfit p hp
      obtain ⟨u, n, x, hw, hne, hfr, hlab, hlt⟩ := (hmem p).mp hp
      rw [← hlab]
      exact hfit.sums u n p.1 x hw hfr (hlab ▸ hlt) (lt_of_le_of_ne (hcost u n p.1 hw) hne)

/-- A pass adds the least prices within as many links as there were passes. -/
theorem bounded_of_stepsFit (hcost : CostsFit T) (h : StepsFit T) : Bounded T := by
  intro graph hW
  obtain ⟨k, hk⟩ := hW.steps
  exact ⟨hcost, fun u n w x hw _ hlt hwlt =>
    h k u n x w _ hw hwlt (hk.isDistIn (hW.mem_of_label hlt) hlt) hlt⟩

/-- No sum of a bounded exchange overflows. -/
theorem exchangeAdds_le (ord : IterOrder (ℕ × ℤ × ℕ)) (hcost : CostsFit T) (hB : Bounded T) :
    ∀ (fuel round : ℕ) (graph : IntMap Node), Wf T graph →
      ∀ p ∈ exchangeAdds ord fuel round graph, p.1 + p.2 ≤ intMax := by
  intro fuel
  induction fuel with
  | zero => exact fun _ _ _ p hp => absurd hp List.not_mem_nil
  | succ fuel ih =>
    intro round graph h
    obtain ⟨graph1, b, h1, hW1, -⟩ := pass_spec ord round h (hB graph h)
    rw [exchangeAdds, h1, List.forall_mem_append]
    refine ⟨(h.passAdds_iff hcost).mpr (hB graph h), ?_⟩
    cases b with
    | true => exact ih (round + 1) graph1 hW1
    | false => exact fun p hp => absurd hp List.not_mem_nil

/-- A node has its distances still to send, or the sums they would give fit. -/
def Covered (T : Topology) (graph : IntMap Node) : Prop :=
  ∀ u n w x, T.price u n = some w → w < intMax → labels graph n x < intMax →
    Fresh graph n ∨ w + labels graph n x ≤ intMax

/-- When the exchange has ended, a distance is the least price within any further number of
links. -/
theorem Wf.isDistIn_final (h : Wf T graph)
    (hquiet : ∀ u n w, T.price u n = some w → ¬ Fresh graph n) {k : ℕ}
    (hk : Stepped T.price intMax T.nodes k (labels graph)) {k' : ℕ} (hkk : k ≤ k') {n x d : ℤ}
    (hx : x ∈ T.nodes) (hlt : labels graph n x < intMax) (hd : IsDistIn T.price k' n x d) :
    labels graph n x = d := by
  have hL : Labelling T.price intMax x fun u => labels graph u x :=
    h.exchanging.labelling hquiet T.symmetric hx
  obtain ⟨l, hl, -⟩ := hd.attained
  obtain ⟨l', -, hl'⟩ := hl.reverse T.symmetric
  obtain ⟨l0, hl0, hlen⟩ := hk.attained n x hlt
  exact le_antisymm (hL.le_walk T.positive hl') (hd.le l0 _ hl0 (hlen.trans hkk))

/-- **An exchange whose sums fit, and which reaches every node, has met every least price** within
the number of links it had looked at, and within more. -/
theorem stepsFit_of_adds (ord : IterOrder (ℕ × ℤ × ℕ)) (hcost : CostsFit T) :
    ∀ (fuel round k : ℕ) (graph graph' : IntMap Node), Wf T graph →
      Stepped T.price intMax T.nodes k (labels graph) → Covered T graph →
      (∀ p ∈ exchangeAdds ord fuel round graph, p.1 + p.2 ≤ intMax) →
      exchange ord fuel round graph = some graph' →
      (∀ u ∈ T.nodes, ∀ x, Reachable T.price u x → labels graph' u x ≠ intMax) →
      ∀ k' u n x w d, k ≤ k' → T.price u n = some w → w < intMax → IsDistIn T.price k' n x d →
        d < intMax → w + d ≤ intMax := by
  intro fuel
  induction fuel with
  | zero =>
    intro round k graph graph' _ _ _ _ he
    exact absurd he (by simp [exchange])
  | succ fuel ih =>
    intro round k graph graph' h hk hcov hadds he hfin k' u n x w d hkk hw hwlt hd hdlt
    rw [exchangeAdds, List.forall_mem_append] at hadds
    have hfit := (h.passAdds_iff hcost).mp hadds.1
    have hall : ∀ u n w x, T.price u n = some w → w < intMax → labels graph n x < intMax →
        w + labels graph n x ≤ intMax := fun u n w x hw hwlt hlt =>
      (hcov u n w x hw hwlt hlt).elim (fun hfr => hfit.sums u n w x hw hfr hlt hwlt) id
    obtain ⟨l, hl, -⟩ := hd.attained
    have hnT := (T.within u n w hw).2
    have hxT := hl.end_mem T.within hnT
    rcases hkk.eq_or_lt with rfl | hkk
    · have hlab := hk.eq_of_isDistIn hxT hd hdlt
      rw [← hlab]
      exact hall u n w x hw hwlt (hlab ▸ hdlt)
    · obtain ⟨graph1, b, h1, hW1, hquiet, hgo⟩ := pass_spec ord round h hfit
      rw [h1] at hadds
      simp only [exchange, h1, Option.bind_eq_bind, Option.bind_some] at he
      cases b with
      | true =>
        have hP := (hgo rfl).2
        have hround := hP.round h
        refine ih (round + 1) (k + 1) graph1 graph' hW1
          (hk.round h.exchanging T.positive hround) (fun u n w x hw hwlt hlt => ?_) hadds.2 he
          hfin k' u n x w d hkk hw hwlt hd hdlt
        by_cases hfr : Fresh graph1 n
        · exact Or.inl hfr
        · rw [hround.quiet n hfr] at hlt ⊢
          exact Or.inr (hall u n w x hw hwlt hlt)
      | false =>
        obtain ⟨hq, hsame⟩ := hquiet rfl
        obtain rfl : graph1 = graph' := by simpa using he
        have hne := hfin n hnT x ⟨l, d, hl⟩
        have hlt := lt_of_le_of_ne (hW1.exchanging.le_top n x) hne
        have hlab := hW1.isDistIn_final hq (hsame ▸ hk) hkk.le hxT hlt hd
        rw [← hlab, hsame]
        exact hall u n w x hw hwlt (hsame ▸ hlt)

end Pass

section Build

variable {T : Topology} {dv : DistanceVector} (ord : IterOrder (ℕ × ℤ × ℕ))

/-- **The distance-vector build is fine** if the topology fits. -/
theorem fine_of_fits (hW : Wf T dv.graph) (hcost : CostsFit T) (h : ExchangeFits T) :
    Fine T ord dv := by
  have hB := bounded_of_stepsFit hcost h.1
  obtain ⟨fuel, dv', hb⟩ := hW.build_ends ord hB
  obtain ⟨hW', hquiet⟩ := hW.build hB hb
  refine ⟨fun fuel => exchangeAdds_le ord hcost hB fuel 0 dv.graph hW, fuel, dv', hb,
    fun u hu x hr => ?_⟩
  obtain ⟨d, hd⟩ := hr.exists_isDist T.positive
  obtain ⟨l, hl⟩ := hd.attained
  obtain ⟨l', -, hl'⟩ := hl.reverse T.symmetric
  have hx := hl.end_mem T.within hu
  exact (((hW'.labelling hquiet hx).le_walk T.positive hl').trans_lt (h.2 u hu x d hd)).ne

/-- **After a line** it is fine only if the topology fits. -/
theorem Fine.fits (hW : Wf T dv.graph) (hcost : CostsFit T)
    (hk : Stepped T.price intMax T.nodes 0 (labels dv.graph)) (hcov : Covered T dv.graph)
    (h : Fine T ord dv) : ExchangeFits T := by
  obtain ⟨hsums, fuel, dv', hb, hfin⟩ := h
  obtain ⟨graph', he, rfl⟩ := Option.map_eq_some_iff.mp hb
  have hsteps : StepsFit T := fun k u n x w d =>
    stepsFit_of_adds ord hcost fuel 0 0 dv.graph graph' hW hk hcov (hsums fuel) he hfin k u n x w d
      (Nat.zero_le k)
  refine ⟨hsteps, fun s hs t d hd => ?_⟩
  obtain ⟨hW', hquiet⟩ := hW.build (bounded_of_stepsFit hcost hsteps) hb
  have hlt := lt_of_le_of_ne (hW'.exchanging.le_top s t) (hfin s hs t hd.reachable)
  have hL := hW'.labelling hquiet (hW'.mem_of_label hlt)
  exact ((hL.isDist T.positive hlt).symm T.symmetric).unique hd ▸ hlt

end Build

end DistanceVector

end NetworkingLearning.Routing
