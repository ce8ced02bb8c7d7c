import NetworkingLearning.Routing.Search

/-!
# The tables of the link-state router (`linkstate.cpp:73-149`, `linkstate.cpp:244-314`)

What `build_forwarding_table` leaves behind for one node (`TableOf`), and for all nodes after
`build_nodes_forwarding_tables` (`Tabled`). The first hop of a forwarding table is the last node of
the chain of predecessors (`linkstate.cpp:144`), so what `Paths/Labelling.lean` says of chains
carries over to the tables, and that the chain ends is what ends that loop and the one of
`next_hops`.

* `Wf` holds after every line and every build: the graph is that of a topology, and the table of
  every node has an entry for itself. An entry of an earlier build may be left for a node that has
  been cut off since; the search overwrites it with `-1`.
* All results are for every iteration order of the maps, a new one in every build.

Results:
* `buildForwardingTable_spec`: the search and the forwarding loop of a node end, and leave a
  `TableOf`.
* `totalDistance_shortest`: after `build_nodes_forwarding_tables` the entry of `totalDistance` for a
  pair of nodes is the shortest distance, `INT_MAX` exactly when there is none.
* `nextHops_path`: `next_hops` ends, what `print_messages` prints of it is a shortest path, and
  every step of it is the forwarding entry of the node it leaves.
-/

namespace NetworkingLearning.Routing.LinkState

open NetworkingLearning.Machine NetworkingLearning.Paths

/-! ## The state before the search -/

theorem lookup_foldl_insert {α : Type} (a : α) (v : ℤ) : ∀ (ks : List ℤ) (m : IntMap α),
    (ks.foldl (fun d k => d.insert k a) m).lookup v = if v ∈ ks then some a else m.lookup v := by
  intro ks
  induction ks with
  | nil => simp
  | cons k ks ih =>
    intro m
    rw [List.foldl_cons, ih]
    by_cases hv : v ∈ ks
    · simp [hv]
    · by_cases h : v = k
      · subst h
        simp
      · simp [hv, h, AList.lookup_insert_ne h]

section Init

variable {T : Topology} {graph : IntMap Node} {this : Node}

theorem lookup_searchInit (hR : Refines nodeClass graph T) (hthis : this.id ∈ T.nodes) (v : ℤ) :
    (searchInit graph this).distanceToRoot.lookup v =
      if v ∈ T.nodes then some (if v = this.id then 0 else intMax) else none := by
  unfold searchInit
  simp only
  by_cases h : v = this.id
  · subst h
    simp [hthis]
  · rw [AList.lookup_insert_ne h, lookup_foldl_insert]
    simp [hR.nodes, h]

theorem label_searchInit (hR : Refines nodeClass graph T) (hthis : this.id ∈ T.nodes) (v : ℤ) :
    label (searchInit graph this) v = if v = this.id then 0 else intMax := by
  rw [label_of_queue (by simp [searchInit]), lookup_searchInit hR hthis]
  split
  · rfl
  · rename_i hv
    have h : v ≠ this.id := fun e => hv (e ▸ hthis)
    simp [h]

theorem SearchInv.init (hR : Refines nodeClass graph T) (hthis : this.id ∈ T.nodes)
    (hself : this.forwardingTable.lookup this.id = some this.id) :
    SearchInv T this.id (searchInit graph this) := by
  constructor
  · exact List.nodup_nil
  · exact fun v hv => absurd hv List.not_mem_nil
  · intro v
    rw [← AList.lookup_isSome, lookup_searchInit hR hthis]
    by_cases hv : v ∈ T.nodes <;> simp [hv, searchInit]
  · intro v
    simp [searchInit]
  · refine (Settling.init (by decide) _).congr (fun v => ?_) (label_searchInit hR hthis)
      fun _ _ _ => rfl
    simp [searchInit]
  · exact fun v hv => absurd hv List.not_mem_nil
  · exact AList.lookup_insert _
  · intro v hv
    rcases (AList.mem_insert _).mp hv with rfl | hv
    · exact hthis
    · exact absurd hv (AList.notMem_empty _)
  · exact hself

end Init

/-! ## The forwarding loop -/

/-- The first hop is the last node of the chain of predecessors. -/
theorem firstHop_eq {prevs : IntMap ℤ} {s x : ℤ} : ∀ (l : List ℤ) {k fuel : ℕ} {v : ℤ},
    chain (fun v => prevs.lookup v) s k v = some (l ++ [x]) → l.length ≤ fuel →
      firstHop prevs s fuel v = some x := by
  intro l
  induction l with
  | nil =>
    intro k fuel v h _
    have hv : v ≠ s := by
      rintro rfl
      simp at h
    obtain ⟨k', u, l', -, hP, hl, hc⟩ := chain_cons hv h
    simp only [List.nil_append, List.cons.injEq] at hl
    obtain ⟨rfl, rfl⟩ := hl
    have hu : u = s := by
      by_contra hu
      obtain ⟨_, _, _, -, -, hnil, -⟩ := chain_cons hu hc
      exact absurd hnil (by simp)
    unfold firstHop
    simp only [hP, hu, if_true]
  | cons y l ih =>
    intro k fuel v h hle
    have hv : v ≠ s := by
      rintro rfl
      simp at h
    obtain ⟨k', u, l', -, hP, hl, hc⟩ := chain_cons hv h
    simp only [List.cons_append, List.cons.injEq] at hl
    obtain ⟨rfl, rfl⟩ := hl
    have hu : u ≠ s := by
      rintro rfl
      simp at hc
    obtain ⟨fuel, rfl⟩ : ∃ f, fuel = f + 1 :=
      ⟨fuel - 1, by rw [List.length_cons] at hle; omega⟩
    unfold firstHop
    simp only [hP, hu, if_false]
    exact ih hc (by rw [List.length_cons] at hle; omega)

/-- The forwarding loop writes the first hop of every destination with a predecessor, and
`(*prevs)[…]` inserts nothing when every node has an entry. -/
theorem foldlM_forwardStep {s : ℤ} {n : ℕ} (prevs : IntMap ℤ) (hop : ℤ → ℤ) :
    ∀ (ks : List ℤ) (fwd : IntMap ℤ), (∀ v ∈ ks, v ∈ prevs) →
      (∀ v ∈ ks, v ≠ s → valueAt prevs v ≠ -1 → firstHop prevs s n v = some (hop v)) →
      ∃ fwd', ks.foldlM (forwardStep s n) (prevs, fwd) = some (prevs, fwd') ∧
        ∀ v, fwd'.lookup v =
          if v ∈ ks ∧ v ≠ s ∧ valueAt prevs v ≠ -1 then some (hop v) else fwd.lookup v := by
  intro ks
  induction ks with
  | nil =>
    intro fwd _ _
    exact ⟨fwd, rfl, fun v => by simp⟩
  | cons k ks ih =>
    intro fwd hmem hhop
    have hmem' : ∀ v ∈ ks, v ∈ prevs := fun v h => hmem v (List.mem_cons_of_mem _ h)
    have hhop' : ∀ v ∈ ks, v ≠ s → valueAt prevs v ≠ -1 → firstHop prevs s n v = some (hop v) :=
      fun v h => hhop v (List.mem_cons_of_mem _ h)
    have hk := hmem k List.mem_cons_self
    rw [List.foldlM_cons]
    by_cases hc : k ≠ s ∧ valueAt prevs k ≠ -1
    · have h1 : forwardStep s n (prevs, fwd) k = some (prevs, fwd.insert k (hop k)) := by
        have hn : prevs.lookup k ≠ none := fun e => AList.lookup_eq_none.mp e hk
        unfold forwardStep
        simp only [hc.1, if_false, touch_of_mem hk, hc.2, hn, or_self,
          hhop k List.mem_cons_self hc.1 hc.2, Option.bind_eq_bind, Option.bind_some]
      obtain ⟨fwd', hf, hl⟩ := ih (fwd.insert k (hop k)) hmem' hhop'
      refine ⟨fwd', by rw [h1]; exact hf, fun v => ?_⟩
      rw [hl]
      by_cases hv : v = k
      · subst hv
        simp [hc]
      · simp [hv, AList.lookup_insert_ne hv]
    · have h1 : forwardStep s n (prevs, fwd) k = some (prevs, fwd) := by
        unfold forwardStep
        by_cases hks : k = s
        · rw [if_pos hks]
        · have hv : valueAt prevs k = -1 := by
            by_contra h
            exact hc ⟨hks, h⟩
          simp only [hks, if_false, touch_of_mem hk, hv, true_or, if_true]
      obtain ⟨fwd', hf, hl⟩ := ih fwd hmem' hhop'
      refine ⟨fwd', by rw [h1]; exact hf, fun v => ?_⟩
      rw [hl]
      by_cases hv : v = k
      · subst hv
        simp [hc]
      · simp [hv]

/-! ## The tables of one node -/

/-- The distances and predecessors of the node `s`. -/
structure Searched (T : Topology) (s : ℤ) (record prevs : IntMap ℤ) : Prop where
  rooted : Rooted T.price intMax s (fun v => (record.lookup v).getD intMax)
    (fun v => prevs.lookup v)
  mem_record : ∀ v, v ∈ record ↔ v ∈ T.nodes
  mem_prevs : ∀ v ∈ prevs, v ∈ T.nodes
  unreached : ∀ v ∈ T.nodes, record.lookup v = some intMax → prevs.lookup v = some (-1)

/-- The distances, predecessors and first hops of the node `s`. -/
structure TableOf (T : Topology) (s : ℤ) (fwd record prevs : IntMap ℤ) : Prop where
  rooted : Rooted T.price intMax s (fun v => (record.lookup v).getD intMax)
    (fun v => prevs.lookup v)
  mem_record : ∀ v ∈ T.nodes, v ∈ record
  unreached : ∀ v ∈ T.nodes, record.lookup v = some intMax → fwd.lookup v = some (-1)
  hop_self : fwd.lookup s = some s
  hop : ∀ v ∈ T.nodes, valueAt record v < intMax → ∀ k l x,
    chain (fun v => prevs.lookup v) s k v = some (l ++ [x]) → fwd.lookup v = some x

/-! ### After the search -/

section Searched

variable {T : Topology} {s : ℤ} {st : Search} (hI : SearchInv T s st)
  (hall : ∀ v ∈ T.nodes, v ∈ st.visited)

include hI hall

theorem SearchInv.label_eq_record (v : ℤ) :
    label st v = (st.recordDist.lookup v).getD intMax := by
  by_cases hv : v ∈ T.nodes
  · rw [hI.lookup_record (hall v hv), Option.getD_some]
  · have hn : v ∉ st.recordDist := fun h => hv (hI.visited v ((hI.record v).mp h))
    rw [hI.label_outside hv, AList.lookup_eq_none.mpr hn, Option.getD_none]

/-- The labels and predecessors are those of a search that has settled every node. -/
theorem SearchInv.rooted :
    Rooted T.price intMax s (label st) (fun v => st.prevs.lookup v) :=
  ⟨hI.settling.labelling T.within hall, fun _ hv hlt =>
    hI.settling.isLeastPred T.positive T.within hall hv hlt⟩

theorem SearchInv.searched : Searched T s st.recordDist st.prevs := by
  refine ⟨?_, fun v => ⟨fun h => hI.visited v ((hI.record v).mp h),
    fun h => (hI.record v).mpr (hall v h)⟩, hI.prev_mem, fun v hv hrec => ?_⟩
  · rw [← funext (hI.label_eq_record hall)]
    exact hI.rooted hall
  · exact (hI.unreached v (hall v hv) (label_of_record hrec)).1

/-- Every node has a predecessor, `-1` at the nodes not reached. -/
theorem SearchInv.prev_spec {v : ℤ} (hv : v ∈ T.nodes) (hvs : v ≠ s) :
    v ∈ st.prevs ∧ (valueAt st.prevs v ≠ -1 → label st v < intMax) := by
  rcases lt_or_eq_of_le (hI.settling.le_top v) with hlt | htop
  · obtain ⟨u, w, hP, -⟩ := (hI.rooted hall).step T.positive hvs hlt
    exact ⟨AList.lookup_isSome.mp (by rw [hP]; rfl), fun _ => hlt⟩
  · have hP := (hI.unreached v (hall v hv) htop).1
    exact ⟨AList.lookup_isSome.mp (by rw [hP]; rfl), fun h => absurd (valueAt_of_lookup hP) h⟩

/-- The predecessor of a reached node is a node. -/
theorem SearchInv.prev_ne (hnn : T.NonnegIds) {v : ℤ} (hvs : v ≠ s) (hlt : label st v < intMax) :
    valueAt st.prevs v ≠ -1 := by
  obtain ⟨u, w, hP, -, hw, -, -⟩ := (hI.rooted hall).step T.positive hvs hlt
  have hu := hnn u (T.within u v w hw).1
  rw [valueAt_of_lookup hP]
  omega

/-- The chain of a reached node ends, and its last node is the first hop. -/
theorem SearchInv.firstHop_spec {v : ℤ} (hv : v ∈ T.nodes) (hvs : v ≠ s)
    (hlt : label st v < intMax) :
    ∃ x, firstHop st.prevs s T.nodes.card v = some x ∧
      ∀ k l y, chain (fun v => st.prevs.lookup v) s k v = some (l ++ [y]) → y = x := by
  have hroot := hI.rooted hall
  obtain ⟨k, l, hc, hlen, -⟩ := (hroot.tight T.positive T.symmetric).chain_within T.positive
    hroot.labelling.root (hroot.nonneg T.positive (by decide)) T.within hv hlt
  obtain ⟨_, u, l', -, -, rfl, -⟩ := chain_cons hvs hc
  obtain ⟨l0, x, h⟩ := List.eq_nil_or_concat (v :: l') |>.resolve_left (List.cons_ne_nil v l')
  rw [h, List.concat_eq_append] at hc hlen
  rw [List.length_append, List.length_singleton] at hlen
  refine ⟨x, firstHop_eq l0 hc (by omega), fun k' l1 y hc' => ?_⟩
  have heq := chain_unique hc' hc
  exact (List.append_inj' heq rfl).2 |> List.singleton_inj.mp

/-- **The forwarding loop** ends and, unless a node has the id `-1`, leaves the table. -/
theorem SearchInv.forwarded (ks : List ℤ) (hks : ∀ v, v ∈ ks ↔ v ∈ T.nodes) :
    ∃ fwd, ks.foldlM (forwardStep s T.nodes.card) (st.prevs, st.forwardingTable) =
        some (st.prevs, fwd) ∧ fwd.lookup s = some s ∧
      (T.NonnegIds → TableOf T s fwd st.recordDist st.prevs) := by
  have hprev := fun {v : ℤ} (hv : v ∈ T.nodes) (hvs : v ≠ s) => hI.prev_spec hall hv hvs
  obtain ⟨fwd, hf, hfl⟩ := foldlM_forwardStep (s := s) (n := T.nodes.card) st.prevs
    (fun v => (firstHop st.prevs s T.nodes.card v).getD 0) ks st.forwardingTable
    (fun v hv => by
      by_cases hvs : v = s
      · exact AList.lookup_isSome.mp (by rw [hvs, hI.prev_self]; rfl)
      · exact (hprev ((hks v).mp hv) hvs).1)
    (fun v hv hvs hne => by
      have hvT := (hks v).mp hv
      obtain ⟨x, hx, -⟩ := hI.firstHop_spec hall hvT hvs ((hprev hvT hvs).2 hne)
      rw [hx, Option.getD_some])
  have hself : fwd.lookup s = some s := by
    rw [hfl, if_neg fun h => h.2.1 rfl]
    exact hI.hop_self
  have hsearched := hI.searched hall
  refine ⟨fwd, hf, hself, fun hnn => ⟨hsearched.rooted, fun v hv => (hsearched.mem_record v).mpr hv,
    fun v hv hrec => ?_, hself, fun v hv hrec k l x hc => ?_⟩⟩
  · have htop : label st v = intMax := label_of_record hrec
    have hvs : v ≠ s := by
      rintro rfl
      rw [hI.settling.root] at htop
      exact absurd htop (by decide)
    have hne : ¬ (v ∈ ks ∧ v ≠ s ∧ valueAt st.prevs v ≠ -1) := fun h =>
      absurd ((hprev hv hvs).2 h.2.2) (by omega)
    rw [hfl, if_neg hne]
    exact (hI.unreached v (hall v hv) htop).2
  · have hlt : label st v < intMax := by
      obtain ⟨d, hd⟩ := lookup_of_mem ((hI.record v).mpr (hall v hv))
      rw [valueAt_of_lookup hd] at hrec
      rw [label_of_record hd]
      exact hrec
    have hvs : v ≠ s := by
      rintro rfl
      simp at hc
    obtain ⟨y, hy, hlast⟩ := hI.firstHop_spec hall hv hvs hlt
    rw [hfl, if_pos ⟨(hks v).mpr hv, hvs, hI.prev_ne hall hnn hvs hlt⟩, hy, Option.getD_some,
      hlast k l x hc]

end Searched

section Node

variable {T : Topology} {graph : IntMap Node} {this : Node}

theorem keys_length (hR : Refines nodeClass graph T) : graph.keys.length = T.nodes.card := by
  rw [← hR.nodesOf_eq, nodesOf, List.toFinset_card_of_nodup graph.keys_nodup]

/-- **`build_forwarding_table` ends and leaves the tables of its node.** -/
theorem buildForwardingTable_spec (hR : Refines nodeClass graph T) (hB : BoundedAt T this.id)
    (hthis : this.id ∈ T.nodes) (ord : IterOrder (ℤ × ℕ))
    (hself : this.forwardingTable.lookup this.id = some this.id) :
    ∃ fwd record prevs, buildForwardingTable ord graph this =
        some ({ this with forwardingTable := fwd }, record, prevs) ∧
      fwd.lookup this.id = some this.id ∧ Searched T this.id record prevs ∧
      (T.NonnegIds → TableOf T this.id fwd record prevs) := by
  have hkeys := keys_length hR
  obtain ⟨st, hst, hI, hall⟩ := search_spec hR ord hkeys hB graph.keys.length
    (searchInit graph this) (SearchInv.init hR hthis hself) (by simp [searchInit, hkeys])
  obtain ⟨fwd, hf, hfs, hT⟩ := hI.forwarded hall (sortedKeys graph) fun v =>
    mem_sortedKeys.trans (hR.nodes v)
  refine ⟨fwd, st.recordDist, st.prevs, ?_, hfs, hI.searched hall, hT⟩
  unfold buildForwardingTable
  rw [hkeys] at hst ⊢
  simp only [hst, hf, Option.bind_eq_bind, Option.bind_some]

end Node

/-! ## The tables of all nodes -/

/-- What lines and builds keep. -/
structure Wf (T : Topology) (ls : LinkState) : Prop where
  refines : Refines nodeClass ls.graph T
  node : ∀ k n, ls.graph.lookup k = some n → n.id = k ∧ n.forwardingTable.lookup k = some k
  totals : ∀ s ∈ ls.totalDistance, s ∈ T.nodes

/-- The tables of the node `s` are those of the topology. -/
def Tabled (T : Topology) (ls : LinkState) (s : ℤ) : Prop :=
  ∃ n record prevs, ls.graph.lookup s = some n ∧ ls.totalDistance.lookup s = some record ∧
    ls.prevOfThatNode.lookup s = some prevs ∧ TableOf T s n.forwardingTable record prevs

/-- The distances and predecessors of the node `s` are those of the topology; so are its first hops
if no id is negative. -/
def Recorded (T : Topology) (ls : LinkState) (s : ℤ) : Prop :=
  ∃ n record prevs, ls.graph.lookup s = some n ∧ ls.totalDistance.lookup s = some record ∧
    ls.prevOfThatNode.lookup s = some prevs ∧ Searched T s record prevs ∧
    (T.NonnegIds → TableOf T s n.forwardingTable record prevs)

section Build

variable {T : Topology} {ls : LinkState}

theorem Recorded.tabled {s : ℤ} (h : Recorded T ls s) (hnn : T.NonnegIds) : Tabled T ls s := by
  obtain ⟨n, record, prevs, hn, hrec, hpr, -, htab⟩ := h
  exact ⟨n, record, prevs, hn, hrec, hpr, htab hnn⟩

/-- One end of a line keeps the ids and the entry of every node for itself. -/
theorem node_buildEnd {graph : IntMap Node} {node nei dist : ℤ}
    (h : ∀ k n, graph.lookup k = some n → n.id = k ∧ n.forwardingTable.lookup k = some k) :
    ∀ k n, (buildEnd nodeClass graph node nei dist).lookup k = some n →
      n.id = k ∧ n.forwardingTable.lookup k = some k :=
  buildEnd_induction nodeClass (p := fun k n => n.id = k ∧ n.forwardingTable.lookup k = some k)
    ⟨rfl, AList.lookup_insert _⟩ (fun _ hn => hn) (fun _ hn => hn) h

theorem Wf.init : Wf Topology.empty init :=
  ⟨Refines.empty, fun k n hn => absurd hn (by simp),
    fun s hs => absurd hs (AList.notMem_empty s)⟩

theorem Wf.line (hW : Wf T ls) (node1 node2 dist : ℤ) :
    Wf (T.line node1 node2 dist) (ls.buildLine node1 node2 dist) where
  refines := hW.refines.line node1 node2 dist
  node := node_buildEnd (node_buildEnd hW.node)
  totals s hs := Finset.mem_insert_of_mem (Finset.mem_insert_of_mem (hW.totals s hs))

/-- **Building the table of one node** keeps the topology and the tables of the others. -/
theorem buildNode_spec (ord : IterOrder (ℤ × ℕ)) (hW : Wf T ls) {k : ℤ} (hB : BoundedAt T k)
    (hk : k ∈ T.nodes) :
    ∃ ls', buildNode ord ls k = some ls' ∧ Wf T ls' ∧ Recorded T ls' k ∧
      ∀ s, s ≠ k → Recorded T ls s → Recorded T ls' s := by
  obtain ⟨n, hn⟩ := hW.refines.exists_lookup hk
  obtain ⟨rfl, hself⟩ := hW.node k n hn
  obtain ⟨fwd, record, prevs, hb, hfwd, hT⟩ := buildForwardingTable_spec hW.refines hB hk ord hself
  have hstep : buildNode ord ls n.id = some
      { graph := ls.graph.insert n.id { n with forwardingTable := fwd }
        totalDistance := ls.totalDistance.insert n.id record
        prevOfThatNode := ls.prevOfThatNode.insert n.id prevs } := by
    unfold buildNode
    simp only [hn, hb, Option.bind_eq_bind, Option.bind_some]
  refine ⟨_, hstep, ⟨hW.refines.congr fun u => ?_, fun k' n' hn' => ?_, fun s hs => ?_⟩, ?_,
    fun s hs hTs => ?_⟩
  · by_cases hu : u = n.id
    · subst hu
      simp only [AList.lookup_insert, hn]
      rfl
    · rw [AList.lookup_insert_ne hu]
  · by_cases hk' : k' = n.id
    · subst hk'
      simp only [AList.lookup_insert, Option.some.injEq] at hn'
      subst hn'
      exact ⟨rfl, hfwd⟩
    · simp only [AList.lookup_insert_ne hk'] at hn'
      exact hW.node k' n' hn'
  · rcases (AList.mem_insert _).mp hs with rfl | hs
    · exact hk
    · exact hW.totals s hs
  · exact ⟨_, record, prevs, AList.lookup_insert _, AList.lookup_insert _,
      AList.lookup_insert _, hT⟩
  · obtain ⟨n', record', prevs', h1, h2, h3, h4⟩ := hTs
    exact ⟨n', record', prevs', by rw [← h1]; exact AList.lookup_insert_ne hs,
      by rw [← h2]; exact AList.lookup_insert_ne hs,
      by rw [← h3]; exact AList.lookup_insert_ne hs, h4⟩

theorem foldlM_buildNode (ord : IterOrder (ℤ × ℕ)) (hB : Bounded T) :
    ∀ (ks : List ℤ) (ls : LinkState), Wf T ls → (∀ k ∈ ks, k ∈ T.nodes) →
      ∃ ls', ks.foldlM (buildNode ord) ls = some ls' ∧ Wf T ls' ∧
        ∀ s, s ∈ ks ∨ Recorded T ls s → Recorded T ls' s := by
  intro ks
  induction ks with
  | nil =>
    intro ls hW _
    exact ⟨ls, rfl, hW, fun s hs => hs.resolve_left List.not_mem_nil⟩
  | cons k ks ih =>
    intro ls hW hmem
    obtain ⟨ls1, h1, hW1, hk, hkeep⟩ := buildNode_spec ord hW (hB k (hmem k List.mem_cons_self))
      (hmem k List.mem_cons_self)
    obtain ⟨ls', h', hW', hT'⟩ := ih ls1 hW1 fun x hx => hmem x (List.mem_cons_of_mem _ hx)
    refine ⟨ls', by rw [List.foldlM_cons, h1]; exact h', hW', fun s hs => ?_⟩
    by_cases hsk : s = k
    · exact hT' s (Or.inr (hsk ▸ hk))
    · refine hT' s (hs.imp (fun h => (List.mem_cons.mp h).resolve_left hsk) (hkeep s hsk))

/-- **`build_nodes_forwarding_tables` ends and leaves the tables of every node.** -/
theorem buildNodesForwardingTables_spec (ord : IterOrder (ℤ × ℕ)) (hW : Wf T ls)
    (hB : Bounded T) :
    ∃ ls', buildNodesForwardingTables ord ls = some ls' ∧ Wf T ls' ∧
      ∀ s ∈ T.nodes, Recorded T ls' s := by
  obtain ⟨ls', h, hW', hT⟩ := foldlM_buildNode ord hB (sortedKeys ls.graph) ls hW
    fun k hk => (hW.refines.nodes k).mp (mem_sortedKeys.mp hk)
  exact ⟨ls', h, hW', fun s hs =>
    hT s (Or.inl (mem_sortedKeys.mpr ((hW.refines.nodes s).mpr hs)))⟩

/-- The tables after a build that ends. -/
theorem Wf.build {ls' : LinkState} {ord : IterOrder (ℤ × ℕ)} (hW : Wf T ls) (hB : Bounded T)
    (hb : buildNodesForwardingTables ord ls = some ls') :
    Wf T ls' ∧ ∀ s ∈ T.nodes, Recorded T ls' s := by
  obtain ⟨ls'', hb', h⟩ := buildNodesForwardingTables_spec ord hW hB
  rw [hb] at hb'
  obtain rfl := Option.some.inj hb'
  exact h

theorem Reach.wf (h : Reach T ls) : Wf T ls := by
  induction h with
  | init => exact Wf.init
  | line _ node1 node2 dist _ _ ih => exact ih.line node1 node2 dist
  | build _ ord hsum hb ih => exact (ih.build (bounded_of_costSum hsum) hb).1

theorem Reach.nonnegIds (h : Reach T ls) : T.NonnegIds := by
  induction h with
  | init => exact fun v hv => absurd hv (Finset.notMem_empty v)
  | line _ _ _ dist h1 h2 ih => exact ih.line dist h1 h2
  | build _ _ _ _ ih => exact ih

/-- The tables after a build. -/
theorem Reach.tabled {ls' : LinkState} {ord : IterOrder (ℤ × ℕ)} (h : Reach T ls)
    (hsum : T.costSum < intMax) (hb : buildNodesForwardingTables ord ls = some ls') :
    Wf T ls' ∧ ∀ s ∈ T.nodes, Tabled T ls' s := by
  obtain ⟨hW, hT⟩ := h.wf.build (bounded_of_costSum hsum) hb
  exact ⟨hW, fun s hs => (hT s hs).tabled h.nonnegIds⟩

end Build

/-! ## Shortest distances and paths -/

section Paths

variable {T : Topology} {s t : ℤ} {fwd record prevs : IntMap ℤ}

/-- The recorded distance is the shortest one, or `INT_MAX` when there is none. -/
theorem TableOf.isDist (hT : TableOf T s fwd record prevs) (hs : s ∈ T.nodes)
    (hsum : T.costSum < intMax) {d : ℤ} (hd : record.lookup t = some d) :
    (Reachable T.price s t → IsDist T.price s t d) ∧ (¬ Reachable T.price s t → d = intMax) := by
  have hL := hT.rooted.labelling
  have htop := hL.eq_top_iff (v := t) T.positive T.symmetric T.within hs hsum
  have hle := hL.le_top t
  simp only [hd, Option.getD_some] at htop hle
  constructor
  · intro hr
    have h := hL.isDist (v := t) T.positive
    simp only [hd, Option.getD_some] at h
    exact h (lt_of_le_of_ne hle fun e => htop.mp e hr)
  · exact htop.mpr

/-- Every node has a forwarding entry, and it is `-1` exactly at the nodes not reached. -/
theorem TableOf.hop_iff (htab : TableOf T s fwd record prevs) (hnn : T.NonnegIds)
    (hs : 0 ≤ s) (ht : t ∈ T.nodes) {d : ℤ} (hd : record.lookup t = some d) :
    ∃ hop, fwd.lookup t = some hop ∧ (hop ≠ -1 ↔ d < intMax) := by
  have hlab : (record.lookup t).getD intMax = d := by rw [hd, Option.getD_some]
  rcases lt_or_eq_of_le (htab.rooted.labelling.le_top t) with hlt | htop
  · have hlt' := hlt
    rw [hlab] at hlt'
    by_cases hts : t = s
    · subst hts
      exact ⟨t, htab.hop_self, iff_of_true (by omega) hlt'⟩
    · obtain ⟨k, l, hc, -, l', hl', -, hwalk⟩ :=
        (htab.rooted.tight T.positive T.symmetric).chain_within T.positive
          htab.rooted.labelling.root (htab.rooted.nonneg T.positive (by decide)) T.within ht hlt
      obtain ⟨_, u, l0, -, -, rfl, -⟩ := chain_cons hts hc
      obtain ⟨l1, x, hx⟩ := List.eq_nil_or_concat (t :: l0) |>.resolve_left (List.cons_ne_nil t l0)
      rw [List.concat_eq_append] at hx
      rw [hx] at hc hl'
      have := hnn x (hwalk.mem_of_within T.within ht x (by rw [← hl']; simp))
      exact ⟨x, htab.hop t ht (by rw [valueAt_of_lookup hd]; exact hlt') k l1 x hc,
        iff_of_true (by omega) hlt'⟩
  · rw [hlab] at htop
    exact ⟨-1, htab.unreached t ht (by rw [hd, htop]), iff_of_false (by simp) (by omega)⟩

/-- **A node on the chain of `t` forwards to the one before it**: the chain of `t` rooted at the
node ends there. -/
theorem TableOf.forwards {ls : LinkState} (hT : ∀ s ∈ T.nodes, Tabled T ls s)
    (htab : TableOf T s fwd record prevs) (ht : t ∈ T.nodes)
    (hlt : (record.lookup t).getD intMax < intMax) {k : ℕ} {l pre post : List ℤ}
    (hc : chain (fun v => prevs.lookup v) s k t = some l) {a b : ℤ} (haT : a ∈ T.nodes)
    (hsplit : l ++ [s] = pre ++ b :: a :: post) :
    ∃ n, ls.graph.lookup a = some n ∧ n.forwardingHop t = some b := by
  have hR := htab.rooted
  have hsplit' : l ++ [s] = (pre ++ [b]) ++ a :: post := by rw [hsplit]; simp
  obtain ⟨e, he, hLe, ha⟩ := hR.chain_dist T.positive _ hc hlt hsplit'
  obtain ⟨n, recorda, prevsa, hn, -, -, htaba⟩ := hT a haT
  obtain ⟨k', hk'⟩ := hR.chain_past T.positive htaba.rooted _ hc hlt hsplit'
  refine ⟨n, hn, htaba.hop t ht ?_ k' pre b hk'⟩
  obtain ⟨d, hd⟩ := lookup_of_mem (htaba.mem_record t ht)
  obtain ⟨_, hwe⟩ := he.attained
  have hle := htaba.rooted.labelling.le_walk T.positive hwe
  have := (hR.labelling.isDist T.positive ha).nonneg T.positive
  rw [valueAt_of_lookup hd]
  simp only [hd, Option.getD_some] at hle
  omega

/-- `next_hops` collects the chain of predecessors. -/
theorem hopsLoop_eq : ∀ {fuel : ℕ} {v : ℤ} {l : List ℤ},
    chain (fun v => prevs.lookup v) s fuel v = some l →
      ∃ r, hopsLoop prevs s fuel v = some r ∧ l ++ [s] = v :: r := by
  intro fuel
  induction fuel with
  | zero =>
    intro v l h
    have hv : v = s := by
      by_contra hv
      simp [chain, hv] at h
    rw [hv, chain_root] at h
    exact ⟨[], by simp [hopsLoop, hv], by rw [hv, ← Option.some.inj h]; rfl⟩
  | succ fuel ih =>
    intro v l h
    by_cases hv : v = s
    · rw [hv, chain_root] at h
      exact ⟨[], by simp [hopsLoop, hv], by rw [hv, ← Option.some.inj h]; rfl⟩
    · obtain ⟨k, u, l', hk, hP, rfl, hc⟩ := chain_cons hv h
      obtain rfl : fuel = k := by omega
      obtain ⟨r, hr, hl⟩ := ih hc
      exact ⟨u :: r, by simp [hopsLoop, hv, hP, hr], by rw [List.cons_append, hl]⟩

end Paths

/-- `next_hops` returns the chain without its first node, and its root. -/
theorem nextHops_eq {ls : LinkState} {s t : ℤ} {prevs : IntMap ℤ} {k : ℕ} {l r : List ℤ}
    (hprev : ls.prevOfThatNode.lookup s = some prevs)
    (hc : chain (fun v => prevs.lookup v) s k t = some l) (hl : l ++ [s] = t :: r) {fuel : ℕ}
    (hfuel : l.length ≤ fuel) : nextHops ls fuel s t = some (r ++ [s]) := by
  obtain ⟨r', hr, hlr⟩ := hopsLoop_eq (chain_fuel hc hfuel)
  rw [hl] at hlr
  obtain rfl : r = r' := (List.cons.inj hlr).2
  unfold nextHops
  simp only [hprev, hr, Option.bind_eq_bind, Option.bind_some]

/-! ## Printing -/

/-- `(*totalDistance[s])[t]`, `INT_MAX` for a missing entry. -/
def distances (ls : LinkState) (s t : ℤ) : ℤ :=
  ((ls.totalDistance.lookup s).bind fun dist => dist.lookup t).getD intMax

section Print

variable {T : Topology} {ls : LinkState}

/-- Maps that read alike. -/
structure Kept (ls ls' : LinkState) : Prop where
  graph : ls'.graph = ls.graph
  total : ∀ s, ls'.totalDistance.lookup s = ls.totalDistance.lookup s
  prev : ls'.prevOfThatNode = ls.prevOfThatNode

theorem Wf.kept {ls' : LinkState} (hW : Wf T ls) (h : Kept ls ls') : Wf T ls' := by
  refine ⟨h.graph ▸ hW.refines, by rw [h.graph]; exact hW.node, fun s hs => hW.totals s ?_⟩
  rw [← AList.lookup_isSome, ← h.total, AList.lookup_isSome]
  exact hs

/-- Reading `(*totalDistance[i])[j]` where the entry is there. -/
theorem kept_touch {i j : ℤ} {dist : IntMap ℤ} (hdist : ls.totalDistance.lookup i = some dist)
    (hj : j ∈ dist) :
    Kept ls { ls with totalDistance := ls.totalDistance.insert i (touch dist j) } := by
  refine ⟨rfl, fun s => ?_, rfl⟩
  rw [touch_of_mem hj]
  by_cases hs : s = i
  · rw [hs, AList.lookup_insert, hdist]
  · rw [AList.lookup_insert_ne hs]

/-- One row of `print_results`, which changes nothing; the next hop is `-1` exactly where the
distance is `INT_MAX`. -/
theorem printStep_spec (hW : Wf T ls) (hids : T.NonnegIds) (rows : List Row) {i j : ℤ}
    (hT : Tabled T ls i) (hj : j ∈ T.nodes) :
    ∃ ls' rows', printStep (ls, rows) (i, j) = some (ls', rows') ∧ Kept ls ls' ∧
      rows'.map Row.entry = rows.map Row.entry ++
        (if distances ls i j < intMax then [(i, j, distances ls i j)] else []) := by
  obtain ⟨n, record, prevs, hn, hrec, -, htab⟩ := hT
  have hmem := htab.mem_record j hj
  obtain ⟨d, hd⟩ := lookup_of_mem hmem
  have hdist : distances ls i j = d := by simp [distances, hrec, hd]
  have hle : d ≤ intMax := by
    have := htab.rooted.labelling.le_top j
    simpa only [hd, Option.getD_some] using this
  have hnn : 0 ≤ i := hids i ((hW.refines.nodes i).mp
    (AList.lookup_isSome.mp (by rw [hn]; rfl)))
  obtain ⟨hop, hhop, hiff⟩ := htab.hop_iff hids hnn hj hd
  have hstep : printStep (ls, rows) (i, j) =
      some ({ ls with totalDistance := ls.totalDistance.insert i (touch record j) },
        if hop ≠ -1 then rows ++ [⟨i, j, hop, d⟩] else rows) := by
    unfold printStep
    simp only [hn, Node.forwardingHop, hhop, hrec, touch_of_mem hmem, valueAt_of_lookup hd,
      Option.bind_eq_bind, Option.bind_some]
    split <;> rfl
  refine ⟨_, _, hstep, kept_touch hrec hmem, ?_⟩
  rw [hdist]
  by_cases hlt : d < intMax
  · rw [if_pos (hiff.mpr hlt), if_pos hlt, List.map_append]
    rfl
  · rw [if_neg (fun h => hlt (hiff.mp h)), if_neg hlt, List.append_nil]

theorem foldlM_printStep (hids : T.NonnegIds) : ∀ (ps : List (ℤ × ℤ)) (ls : LinkState)
    (rows : List Row), Wf T ls → (∀ p ∈ ps, Tabled T ls p.1 ∧ p.2 ∈ T.nodes) →
      ∃ ls' rows', ps.foldlM printStep (ls, rows) = some (ls', rows') ∧ Wf T ls' ∧
        rows'.map Row.entry = rows.map Row.entry ++ ps.flatMap fun p =>
          if distances ls p.1 p.2 < intMax then [(p.1, p.2, distances ls p.1 p.2)] else [] := by
  intro ps
  induction ps with
  | nil =>
    intro ls rows hW _
    exact ⟨ls, rows, rfl, hW, by simp⟩
  | cons p ps ih =>
    intro ls rows hW hps
    obtain ⟨hT, hj⟩ := hps p List.mem_cons_self
    obtain ⟨ls1, rows1, h1, hk1, hr1⟩ := printStep_spec hW hids rows hT hj
    have hT1 : ∀ s, Tabled T ls s → Tabled T ls1 s := by
      rintro s ⟨n, record, prevs, hn, hrec, hpr, htab⟩
      exact ⟨n, record, prevs, by rw [hk1.graph, hn], by rw [hk1.total, hrec],
        by rw [hk1.prev, hpr], htab⟩
    have hd1 : distances ls1 = distances ls := by
      funext s t
      rw [distances, distances, hk1.total]
    obtain ⟨ls', rows', h', hW', hr'⟩ := ih ls1 rows1 (hW.kept hk1) fun q hq =>
      ⟨hT1 q.1 (hps q (List.mem_cons_of_mem p hq)).1, (hps q (List.mem_cons_of_mem p hq)).2⟩
    refine ⟨ls', rows', by rw [List.foldlM_cons, h1]; exact h', hW', ?_⟩
    rw [hr', hr1, List.flatMap_cons, List.append_assoc, hd1]

/-- **The table part of `print_results`**: a row for every pair with a finite distance. -/
theorem printTable_spec (hW : Wf T ls) (hids : T.NonnegIds) (hT : ∀ s ∈ T.nodes, Tabled T ls s) :
    ∃ ls' rows, printTable ls = some (ls', rows) ∧ Wf T ls' ∧
      rows.map Row.entry = (allPairs ls.graph).flatMap fun p =>
        if distances ls p.1 p.2 < intMax then [(p.1, p.2, distances ls p.1 p.2)] else [] := by
  have hmem : ∀ p ∈ allPairs ls.graph, Tabled T ls p.1 ∧ p.2 ∈ T.nodes := by
    intro p hp
    obtain ⟨hi, hj⟩ := mem_allPairs.mp hp
    exact ⟨hT p.1 ((hW.refines.nodes p.1).mp hi), (hW.refines.nodes p.2).mp hj⟩
  obtain ⟨ls', rows, hf, hW', hr⟩ := foldlM_printStep hids (allPairs ls.graph) ls [] hW hmem
  exact ⟨ls', rows, hf, hW', by simpa using hr⟩

end Print

/-- **Link-state shortest paths**: `build_nodes_forwarding_tables` ends, and the entry of
`totalDistance` for every pair of nodes is the shortest distance, `INT_MAX` if there is none. -/
theorem totalDistance_shortest {T : Topology} {ls : LinkState} (h : Reach T ls)
    (ord : IterOrder (ℤ × ℕ)) (hsum : T.costSum < intMax) :
    ∃ ls', buildNodesForwardingTables ord ls = some ls' ∧
      ∀ s ∈ ls'.graph, ∀ t ∈ ls'.graph, ∃ dist d, ls'.totalDistance.lookup s = some dist ∧
        dist.lookup t = some d ∧ (Reachable T.price s t → IsDist T.price s t d) ∧
        (¬ Reachable T.price s t → d = intMax) := by
  obtain ⟨ls', hb, hW, hT⟩ := buildNodesForwardingTables_spec ord h.wf (bounded_of_costSum hsum)
  refine ⟨ls', hb, fun s hs t ht => ?_⟩
  have hsT := (hW.refines.nodes s).mp hs
  obtain ⟨n, record, prevs, -, hdist, -, htab⟩ := (hT s hsT).tabled h.nonnegIds
  obtain ⟨d, hd⟩ := lookup_of_mem (htab.mem_record t ((hW.refines.nodes t).mp ht))
  exact ⟨record, d, hdist, hd, htab.isDist hsT hsum hd⟩

/-- Three nodes, of which the link between two costs more than the way past the other one. -/
def triangle : Topology := ((Topology.empty.line 1 2 5).line 2 3 1).line 1 3 9

theorem totalDistance_shortest_triangle :
    ∃ ls' dist, buildNodesForwardingTables (IterOrder.listed _)
        (((init.buildLine 1 2 5).buildLine 2 3 1).buildLine 1 3 9) = some ls' ∧
      ls'.totalDistance.lookup 1 = some dist ∧ dist.lookup 3 = some 6 ∧
      IsDist triangle.price 1 3 6 := by
  have hreach : Reach triangle (((init.buildLine 1 2 5).buildLine 2 3 1).buildLine 1 3 9) :=
    .line (.line (.line .init 1 2 5 (by decide) (by decide)) 2 3 1 (by decide) (by decide)) 1 3 9
      (by decide) (by decide)
  obtain ⟨ls', hb, h⟩ := totalDistance_shortest hreach (IterOrder.listed _) (by decide +kernel)
  -- the entry of the table, evaluated
  have hentry : (buildNodesForwardingTables (IterOrder.listed _)
      (((init.buildLine 1 2 5).buildLine 2 3 1).buildLine 1 3 9)).map (fun ls =>
        (decide (1 ∈ ls.graph ∧ 3 ∈ ls.graph),
          (ls.totalDistance.lookup 1).bind fun dist => dist.lookup 3)) = some (true, some 6) := by
    decide +kernel
  rw [hb, Option.map_some, Option.some.injEq, Prod.mk.injEq, decide_eq_true_eq] at hentry
  obtain ⟨⟨h1, h3⟩, hentry⟩ := hentry
  obtain ⟨dist, d, hdist, hd, hshort, -⟩ := h 1 h1 3 h3
  rw [hdist, Option.bind_some, hd, Option.some.injEq] at hentry
  subst hentry
  exact ⟨ls', dist, hb, hdist, hd, hshort
    ⟨[2, 3], 6, Walk.cons (w := 5) (d := 1) (by decide) (Walk.single (by decide))⟩⟩

/-- **The path the source computes is the path the tables forward along**: for a pair with a finite
distance `next_hops` ends; printed backwards it is a path of current links, of that distance,
without repetition; and each node on it forwards to the next one. -/
theorem nextHops_path {T : Topology} {ls ls' : LinkState} {ord : IterOrder (ℤ × ℕ)} {s t d : ℤ}
    {dist : IntMap ℤ} (h : Reach T ls) (hsum : T.costSum < intMax)
    (hb : buildNodesForwardingTables ord ls = some ls') (hs : s ∈ ls'.graph) (ht : t ∈ ls'.graph)
    (hdist : ls'.totalDistance.lookup s = some dist) (hd : dist.lookup t = some d)
    (hfin : d ≠ intMax) :
    ∃ hops l, (∀ fuel, ls'.graph.keys.length ≤ fuel → nextHops ls' fuel s t = some hops) ∧
      printedHops hops ++ [t] = s :: l ∧ Walk T.price s l t d ∧ (s :: l).Nodup ∧
      (printedHops hops ++ [t]).IsChain fun a b =>
        ∃ n, ls'.graph.lookup a = some n ∧ n.forwardingHop t = some b := by
  obtain ⟨hW, hT⟩ := h.tabled hsum hb
  have hsT := (hW.refines.nodes s).mp hs
  have htT := (hW.refines.nodes t).mp ht
  obtain ⟨n, record, prevs, -, hdist', hprev, htab⟩ := hT s hsT
  obtain rfl : dist = record := Option.some.inj (hdist.symm.trans hdist')
  have hR := htab.rooted
  have hlab : (dist.lookup t).getD intMax = d := by rw [hd, Option.getD_some]
  have hlt : (dist.lookup t).getD intMax < intMax := by
    have := hR.labelling.le_top t
    simp only [hd, Option.getD_some] at this ⊢
    exact lt_of_le_of_ne this hfin
  obtain ⟨k, l, hc, hlen, l', hl', hnodup, hwalk⟩ :=
    (hR.tight T.positive T.symmetric).chain_within T.positive hR.labelling.root
      (hR.nonneg T.positive (by decide)) T.within htT hlt
  rw [hlab] at hwalk
  obtain ⟨l'', hrev, hwalk'⟩ := hwalk.reverse T.symmetric
  have hprint : printedHops (l' ++ [s]) ++ [t] = s :: l'' := by
    rw [printedHops, List.dropLast_concat, ← List.reverse_cons, hrev, List.reverse_reverse]
  refine ⟨l' ++ [s], l'', fun fuel hfuel => ?_, hprint, hwalk', ?_, ?_⟩
  · exact nextHops_eq hprev hc hl'
      (hlen.trans ((keys_length hW.refines).symm.le.trans hfuel))
  · rw [hrev] at hnodup
    exact List.nodup_reverse.mp hnodup
  · have he : printedHops (l' ++ [s]) ++ [t] = (l ++ [s]).reverse := by
      rw [hl', hprint, hrev, List.reverse_reverse]
    rw [he, List.isChain_reverse, List.isChain_iff_forall_rel_of_append_cons_cons]
    intro b a pre post hsplit
    refine htab.forwards hT htT hlt hc (hwalk.mem_of_within T.within htT a ?_) hsplit
    rw [← hl', hsplit]
    simp

/-- The router of the line `1 - 2 - 3`, with its tables built. -/
def lineRouter : LinkState :=
  (buildNodesForwardingTables (IterOrder.listed _)
    ((init.buildLine 1 2 5).buildLine 2 3 1)).getD init

/-- The path from `1` to `3` costs `6`. -/
theorem nextHops_path_line :
    ∃ hops l, (∀ fuel, lineRouter.graph.keys.length ≤ fuel →
        nextHops lineRouter fuel 1 3 = some hops) ∧
      printedHops hops ++ [3] = 1 :: l ∧
      Walk ((Topology.empty.line 1 2 5).line 2 3 1).price 1 l 3 6 ∧ (1 :: l).Nodup ∧
      (printedHops hops ++ [3]).IsChain fun a b =>
        ∃ n, lineRouter.graph.lookup a = some n ∧ n.forwardingHop 3 = some b :=
  nextHops_path
    (.line (.line .init 1 2 5 (by decide) (by decide)) 2 3 1 (by decide) (by decide))
    (by decide +kernel) (eq_some_getD (by decide +kernel)) (by decide +kernel)
    (by decide +kernel) (eq_some_getD (a := ∅) (by decide +kernel)) (by decide +kernel) (by decide)

end NetworkingLearning.Routing.LinkState
