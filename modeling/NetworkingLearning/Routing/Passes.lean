import NetworkingLearning.Routing.Phases

/-!
# How many passes an exchange takes (`distvec.cpp:187-205`)

`while (1)` in `build_nodes_forwarding_tables` has no bound of its own. After one pass less than
there are nodes every distance is final, and every next hop is the least of those that lead there:
whatever is sent then is stale (`Node.Stale`), and the next pass is the last.

The bound is that of `Paths/Exchange.lean`: after `k` rounds every label is the least price of a
walk of at most `k` links, and a shortest path has fewer links than there are nodes. It needs that
the sums fit, as an offer that has wrapped below `0` is better than any distance.

Results:
* `Wf.pass_stale`: a pass in which all offers are stale changes no node, and ends the loop.
* `exchange_rounds`: from any point of a run the loop ends within as many passes as there are nodes,
  whatever the order in which the maps are iterated.
-/

namespace NetworkingLearning.Routing.DistanceVector

open NetworkingLearning.Machine NetworkingLearning.Paths

/-! ## Stale offers -/

/-- An offer a node takes nothing from. -/
def Node.Stale (n : Node) (x m d : ℤ) : Prop :=
  n.label x ≤ d ∧ (n.label x = d → ∃ f, n.forwardingTable.lookup x = some f ∧ f ≤ m)

/-- A loop whose body changes nothing. -/
theorem foldlM_same {σ α : Type} {f : σ → α → Option σ} {s : σ} {l : List α}
    (h : ∀ a ∈ l, f s a = some s) : l.foldlM f s = some s := by
  induction l with
  | nil => rfl
  | cons a l ih =>
    obtain ⟨ha, h⟩ := List.forall_mem_cons.mp h
    rw [List.foldlM_cons, ha]
    exact ih h

section Update

variable {T : Topology} {u : ℤ} (ord : IterOrder (ℕ × ℤ × ℕ)) (round : ℕ)

/-- A stale entry. -/
theorem takeEntry_stale {st : Node × Bool} {nei w x given : ℤ} (h : NodeOk T u st.1)
    (hx : x ∈ T.nodes) (hw : st.1.links.edges.lookup nei = some w) (hw0 : 0 < w) (hg0 : 0 ≤ given)
    (hsum : given < intMax → w < intMax → w + given ≤ intMax) (hle : given ≤ intMax)
    (hwle : w ≤ intMax) (hstale : given < intMax → st.1.Stale x nei (w + given)) :
    takeEntry nei st ⟨x, given⟩ = some st := by
  have hL := h.lookup_label hx
  unfold takeEntry
  simp only [hw, Option.bind_eq_bind, Option.bind_some]
  by_cases htop : w = intMax ∨ given = intMax
  · rw [if_pos htop]
  · rw [not_or] at htop
    have hglt := lt_of_le_of_ne hle htop.2
    obtain ⟨hleast, htie⟩ := hstale hglt
    have hadd : addInt w given = w + given :=
      addInt_of_le (by omega) (hsum hglt (lt_of_le_of_ne hwle htop.1))
    rw [if_neg (not_or.mpr htop)]
    simp only [hadd, touch_of_mem ((h.keys x).mpr hx), valueAt_of_lookup hL]
    rw [if_neg (not_lt.mpr hleast)]
    by_cases heq : st.1.label x = w + given
    · obtain ⟨f, hf, hfn⟩ := htie heq
      have hmem : x ∈ st.1.forwardingTable := AList.lookup_isSome.mp (by rw [hf]; rfl)
      rw [if_pos heq]
      simp only [touch_of_mem hmem, valueAt_of_lookup hf]
      rw [if_neg (not_lt.mpr hfn)]
    · rw [if_neg heq]

/-- A node that is sent nothing but stale offers stays as it is. -/
theorem update_stale {n : Node} (h : NodeOk T u n)
    (hmsgs : ∀ msg ∈ n.updatesFromNei, MsgOk T n.links msg)
    (hstale : ∀ msg ∈ n.updatesFromNei, ∀ x m d, Offer n.links msg x m d → n.Stale x m d) :
    ∃ n', n.update ord round = some (n', false) := by
  have hvector : ∀ msg ∈ n.updatesFromNei.zipIdx,
      takeVector ord round (n, false) msg = some (n, false) := by
    intro msg hm
    have hmsg : msg.1 ∈ n.updatesFromNei := by
      rw [List.mem_iff_getElem?]
      exact ⟨msg.2, List.mk_mem_zipIdx_iff_getElem?.mp hm⟩
    obtain ⟨w, hw, hw0, hwm, hsum⟩ := (hmsgs _ hmsg).edge
    refine foldlM_same fun e he => ?_
    have hlook : msg.1.2.lookup e.1 = some e.2 :=
      AList.mem_lookup_iff.mpr ((ord.perm (round, n.id, msg.2) msg.1.2.entries).mem_iff.mp he)
    obtain ⟨hx, hg0, hgm⟩ := (hmsgs _ hmsg).range e.1 e.2 hlook
    exact takeEntry_stale h hx hw hw0 hg0 (hsum e.1 e.2 hlook) hgm hwm fun hlt =>
      hstale _ hmsg e.1 msg.1.1 _ ⟨rfl, w, e.2, hw, hlook, hlt, rfl⟩
  exact ⟨_, by unfold Node.update; rw [foldlM_same hvector]; rfl⟩

/-- If no node changes, the count of the second loop stays `0`. -/
theorem foldlM_updateStep_same : ∀ (ks : List ℤ), ks.Nodup → ∀ graph : IntMap Node,
    (∀ k ∈ ks, ∃ n n', graph.lookup k = some n ∧ n.update ord round = some (n', false)) →
      ∃ graph', ks.foldlM (updateStep ord round) (graph, 0) = some (graph', 0) := by
  intro ks
  induction ks with
  | nil => exact fun _ graph _ => ⟨graph, rfl⟩
  | cons k ks ih =>
    intro hnd graph hall
    obtain ⟨hk, hnd⟩ := List.nodup_cons.mp hnd
    obtain ⟨⟨n, n', hn, hupdate⟩, hall⟩ := List.forall_mem_cons.mp hall
    obtain ⟨graph', h'⟩ := ih hnd (graph.insert k n') fun x hx => by
      rw [AList.lookup_insert_ne (show x ≠ k from fun e => hk (e ▸ hx))]
      exact hall x hx
    refine ⟨graph', ?_⟩
    have hstep : updateStep ord round (graph, 0) k = some (graph.insert k n', 0) := by
      unfold updateStep
      simp only [hn, hupdate, Option.bind_eq_bind, Option.bind_some]
      rfl
    rw [List.foldlM_cons, hstep]
    exact h'

end Update

section Pass

variable {T : Topology} {graph : IntMap Node}

/-- **A pass with nothing but stale offers** is the last one. -/
theorem Wf.pass_stale (h : Wf T graph) (hfit : SumsFit T graph) (ord : IterOrder (ℕ × ℤ × ℕ))
    (round : ℕ) (hstale : ∀ u n w x, Fresh graph n → T.price u n = some w →
      labels graph n x < intMax → labels graph u x ≤ w + labels graph n x ∧
        (labels graph u x = w + labels graph n x → ∃ f, hops graph u x = some f ∧ f ≤ n)) :
    ∃ graph', pass ord round graph = some (graph', false) := by
  obtain ⟨graph1, sent, h1, hl1, -⟩ := foldlM_sendStep (sortedKeys graph) graph 0
    (fun k hk => mem_sortedKeys.mp hk) fun k n hn v hv => h.neibours_mem hn hv
  have hupdate : ∀ k ∈ sortedKeys graph1, ∃ n n', graph1.lookup k = some n ∧
      n.update ord round = some (n', false) := by
    intro u hu
    obtain ⟨m, hm⟩ := lookup_of_mem (mem_sortedKeys.mp hu)
    rw [hl1] at hm
    obtain ⟨n, hn, rfl⟩ := Option.map_eq_some_iff.mp hm
    have hok := h.node u n hn
    have hqueue : (n.push (inbox graph (sortedKeys graph) u)).updatesFromNei =
        inbox graph (sortedKeys graph) u := by
      simp [Node.push, h.queue u n hn]
    have hokpush : NodeOk T u (n.push (inbox graph (sortedKeys graph) u)) :=
      ⟨hok.id, hok.keys, hok.self, hok.range, hok.hop, hok.hops, hok.hop_self⟩
    obtain ⟨n', hn'⟩ := update_stale ord round hokpush
      (fun msg hmsg => h.msgOk hfit hn (hqueue ▸ hmsg)) (fun msg hmsg x m d hoff => by
        obtain ⟨k, -, a, ha, hfl, -, rfl⟩ := mem_inbox.mp (hqueue ▸ hmsg)
        obtain rfl := (h.node k a ha).id
        obtain ⟨rfl, w, g, hw, hg, hlt, rfl⟩ := hoff
        have hlab : labels graph a.id x = g := by
          rw [labels_of_lookup ha, Node.label_of_lookup hg]
        have hprice : T.price u a.id = some w := by
          rw [← hw]
          exact (h.refines.lookup_edges (C := nodeClass) hn a.id).symm
        have hoffer := hstale u a.id w x ⟨a, ha, hfl⟩ hprice (hlab ▸ hlt)
        rw [hlab, labels_of_lookup hn, hops_of_lookup hn] at hoffer
        exact hoffer)
    exact ⟨_, n', by rw [hl1, hn]; rfl, hn'⟩
  obtain ⟨graph2, h2⟩ := foldlM_updateStep_same ord round (sortedKeys graph1)
    (nodup_sortedKeys graph1) graph1 hupdate
  unfold pass
  simp only [h1, Option.bind_eq_bind, Option.bind_some]
  by_cases hsent : sent = 0
  · exact ⟨graph1, if_pos hsent⟩
  · rw [if_neg hsent, h2]
    exact ⟨graph2, rfl⟩

/-- **One pass less than there are nodes** leaves only stale offers. -/
theorem Wf.stale (h : Wf T graph) (hfin : ∀ s ∈ T.nodes, T.Finite s) {k : ℕ}
    (hk : Stepped T.price intMax T.nodes k (labels graph))
    (hties : TiesTaken T.price intMax k (labels graph) (hops graph))
    (hcard : T.nodes.card ≤ k + 1) {u n w x : ℤ} (hw : T.price u n = some w)
    (hlt : labels graph n x < intMax) :
    labels graph u x ≤ w + labels graph n x ∧ (labels graph u x = w + labels graph n x →
      ∃ f, hops graph u x = some f ∧ f ≤ n) := by
  have ⟨hu, hn⟩ := T.within u n w hw
  have hw0 := T.positive u n w hw
  have h0 := h.exchanging.nonneg T.positive hlt
  have hx := h.mem_of_label hlt
  obtain ⟨l, hl, -⟩ := hk.attained n x hlt
  obtain ⟨d, hd⟩ := Reachable.exists_isDist T.positive ⟨_, _, Walk.cons hw hl⟩
  obtain ⟨l', hl', hnodup, hmem⟩ := hd.exists_simple T.positive T.within hu
  have hlen := length_le_card hnodup hmem
  rw [List.length_cons] at hlen
  have hle := hk.le u x hx l' d hl' (by omega)
  have htop := hle.trans_lt (hfin u hu x d hd)
  refine ⟨hle.trans (hd.le _ _ (Walk.cons hw hl)), fun htie => ?_⟩
  have hux : u ≠ x := by
    rintro rfl
    have := h.exchanging.root u hu
    omega
  exact hties.least hk T.positive T.within hcard hw hux htop htie

end Pass

/-! ## The loop -/

section Loop

variable {T : Topology}

/-- The loop after `k` passes. -/
theorem exchange_left (ord : IterOrder (ℕ × ℤ × ℕ)) (hB : Bounded T)
    (hfin : ∀ s ∈ T.nodes, T.Finite s) : ∀ (left k round : ℕ) (graph : IntMap Node),
      Wf T graph → Stepped T.price intMax T.nodes k (labels graph) →
      TiesTaken T.price intMax k (labels graph) (hops graph) → T.nodes.card ≤ k + 1 + left →
      ∃ graph', exchange ord (left + 1) round graph = some graph' := by
  intro left
  induction left with
  | zero =>
    intro k round graph h hk hties hcard
    obtain ⟨graph', h1⟩ := h.pass_stale (hB graph h) ord round fun u n w x _ hw hlt =>
      h.stale hfin hk hties hcard hw hlt
    exact ⟨graph', by simp [exchange, h1]⟩
  | succ left ih =>
    intro k round graph h hk hties hcard
    obtain ⟨graph1, b, h1, hW1, -, hgo⟩ := pass_spec ord round h (hB graph h)
    cases b with
    | false => exact ⟨graph1, by simp [exchange, h1]⟩
    | true =>
      have hround := (hgo rfl).2.round h
      obtain ⟨graph', h'⟩ := ih (k + 1) (round + 1) graph1 hW1
        (hk.round h.exchanging T.positive hround)
        (TiesTaken.round hk h.exchanging T.positive T.within hround) (by omega)
      refine ⟨graph', ?_⟩
      rw [exchange]
      simp [h1, h']

end Loop

/-- As many passes as there are nodes are enough, or one if there are none. -/
theorem Ran.exchange_ends {T : Topology} {b : Bool} {dv : DistanceVector} (h : Ran T b dv)
    (hfits : ExchangeFits T) (ord : IterOrder (ℕ × ℤ × ℕ)) :
    ∃ graph', exchange ord (max 1 T.nodes.card) 0 dv.graph = some graph' := by
  obtain ⟨hW, hcost, hbuilt, hstart⟩ := h.inv
  have hB := bounded_of_stepsFit hcost hfits.1
  obtain ⟨left, hleft⟩ : ∃ left, max 1 T.nodes.card = left + 1 :=
    ⟨max 1 T.nodes.card - 1, by omega⟩
  rw [hleft]
  cases b with
  | false =>
    exact exchange_left ord hB hfits.2 left 0 0 dv.graph hW (hstart rfl).1
      (fun _ _ _ _ _ _ _ _ _ _ hlen => absurd hlen (Nat.not_lt_zero _)) (by omega)
  | true =>
    obtain ⟨-, hready⟩ := hbuilt rfl
    obtain ⟨graph', h1⟩ := hW.pass_stale (hB dv.graph hW) ord 0 fun u n w x hfr hw _ =>
      absurd hfr (hready.quiet u n w hw)
    exact ⟨graph', by simp [exchange, h1]⟩

theorem Ran.build_within {T : Topology} {b : Bool} {dv : DistanceVector} (h : Ran T b dv)
    (hfits : ExchangeFits T) (ord : IterOrder (ℕ × ℤ × ℕ)) : ∃ dv', ∀ fuel,
      max 1 T.nodes.card ≤ fuel → buildNodesForwardingTables ord fuel dv = some dv' := by
  obtain ⟨graph', he⟩ := h.exchange_ends hfits ord
  refine ⟨⟨graph'⟩, fun fuel hle => ?_⟩
  rw [buildNodesForwardingTables, exchange_fuel ord he hle]
  rfl

/-- **The exchange takes at most as many passes as there are nodes**, at every point of a run of
the distance-vector program whose topology fits and in whatever order the maps are iterated: the
build ends, and more passes would leave its result as it is. -/
theorem exchange_rounds {T : Topology} {b : Bool} {dv : DistanceVector} (h : Ran T b dv)
    (hfits : ExchangeFits T) (ord : IterOrder (ℕ × ℤ × ℕ)) :
    ∃ dv', Ran T true dv' ∧ ∀ fuel, max 1 T.nodes.card ≤ fuel →
      buildNodesForwardingTables ord fuel dv = some dv' := by
  obtain ⟨dv', hb⟩ := h.build_within hfits ord
  exact ⟨dv', h.build ord _ hfits (hb _ (le_refl _)), hb⟩

/-- A path of two links: three passes are enough. -/
theorem exchange_rounds_line :
    ∃ dv', Ran ((Topology.empty.line 1 2 5).line 2 3 1) true dv' ∧ ∀ fuel,
      max 1 ((Topology.empty.line 1 2 5).line 2 3 1).nodes.card ≤ fuel →
        buildNodesForwardingTables (IterOrder.listed _) fuel
          ((init.buildLine 1 2 5).buildLine 2 3 1) = some dv' :=
  exchange_rounds (.line (.line .init 1 2 5 (by decide)) 2 3 1 (by decide))
    (exchangeFits_of_costSum (by decide)) _

end NetworkingLearning.Routing.DistanceVector
