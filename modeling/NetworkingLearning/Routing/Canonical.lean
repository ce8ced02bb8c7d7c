import NetworkingLearning.Paths.Canonical
import NetworkingLearning.Routing.Phases
import NetworkingLearning.Routing.Programs
import NetworkingLearning.Routing.Ties

/-!
# What a topology makes the programs print (`linkstate.cpp:252-314`, `distvec.cpp:207-287`)

A table and a report are determined by the topology alone. The link-state program follows the
predecessors of the destination (`linkstate.cpp:307-311`), the distance-vector program the next hops
of the source (`distvec.cpp:282-285`): both are the least neighbours on a shortest path, and both
walks are a `trail`, rooted at the source in one program and at the destination in the other.

* `Topology.table`, `Topology.report` take the first hop and the hops of a pair as parameters:
  `hopFrom`, `hopsFrom` are those of the link-state program, `hopTo`, `hopsTo` those of the
  distance-vector program.
* A message from a node to itself has no hops in the first program and one in the second:
  `hops.end() - 2` stands before the list of a single node, so that its loop is not entered, and `do
  … while` looks at the destination when it has left the source.

Results:
* `LinkState.Ready.printTable_eq`, `LinkState.Ready.printMessages_eq`, and the same of
  `DistanceVector`: after a build a program prints what the topology says.
* `routes_reversed`: the route of a pair in one program is the route of the reversed pair in the
  other one, backwards.
* `Topology.table_untied`, `Topology.report_untied`: without ties both programs print the same.
-/

namespace NetworkingLearning.Routing

open NetworkingLearning.Machine NetworkingLearning.Paths

/-! ## Tables and reports of a topology -/

namespace Topology

variable {T : Topology}

/-- The shortest distance, `INT_MAX` where there is no path. -/
noncomputable def dist (T : Topology) (s t : ℤ) : ℤ := distOr T.price intMax s t

/-- The nodes from `t` back to `s`, each the least predecessor of the one before, without `s`. -/
noncomputable def trail (T : Topology) (s t : ℤ) : List ℤ :=
  Paths.trail T.price s T.nodes.card t

/-- The first hop from `s` to `t` along the predecessors of `t`. -/
noncomputable def hopFrom (T : Topology) (s t : ℤ) : ℤ :=
  if s = t then s else (T.trail s t).getLastD 0

/-- The nodes before `t` on that route. -/
noncomputable def hopsFrom (T : Topology) (s t : ℤ) : List ℤ :=
  if s = t then [] else s :: (T.trail s t).tail.reverse

/-- The next hop of `s` to `t`. -/
noncomputable def hopTo (T : Topology) (s t : ℤ) : ℤ :=
  if s = t then s else (leastPred T.price t s).getD 0

/-- The nodes before `t` that the next hops lead to. -/
noncomputable def hopsTo (T : Topology) (s t : ℤ) : List ℤ := if s = t then [s] else T.trail t s

/-- The rows of a pair: one if there is a path. -/
noncomputable def row (T : Topology) (hop : ℤ → ℤ → ℤ) (p : ℤ × ℤ) : List Row :=
  if T.dist p.1 p.2 < intMax then [⟨p.1, p.2, hop p.1 p.2, T.dist p.1 p.2⟩] else []

/-- The table of a topology. -/
noncomputable def table (T : Topology) (hop : ℤ → ℤ → ℤ) : List Row := T.pairs.flatMap (T.row hop)

/-- The report of a message. -/
noncomputable def report (T : Topology) (hops : ℤ → ℤ → List ℤ) (m : Message) : Report :=
  ⟨m, if T.dist m.src m.dst < intMax then
    some (T.dist m.src m.dst, hops m.src m.dst) else none⟩

/-- The topology has room for its distances below `INT_MAX`. -/
def AllFinite (T : Topology) : Prop := ∀ s ∈ T.nodes, T.Finite s

theorem dist_comm (T : Topology) (s t : ℤ) : T.dist s t = T.dist t s := distOr_comm T.symmetric s t

theorem dist_lt (hfin : T.AllFinite) {s t : ℤ} (hs : s ∈ T.nodes) (hr : Reachable T.price s t) :
    T.dist s t < intMax := by
  obtain ⟨d, hd⟩ := hr.exists_isDist T.positive
  have heq : T.dist s t = d := hd.distOr_eq
  exact heq.trans_lt (hfin s hs t d hd)

/-- The trail of a pair with a path. -/
theorem trail_spec (hfin : T.AllFinite) {s t : ℤ} (hs : s ∈ T.nodes) (ht : t ∈ T.nodes)
    (hlt : T.dist s t < intMax) :
    chain (leastPred T.price s) s T.nodes.card t = some (T.trail s t) ∧
      (T.trail s t).length ≤ T.nodes.card ∧ ∃ l, T.trail s t ++ [s] = t :: l ∧ (t :: l).Nodup ∧
        Walk T.price t l s (T.dist s t) :=
  Paths.trail_spec T.positive T.symmetric T.within (hfin s hs) ht hlt (le_refl _)

/-- A trail between two nodes begins with the one it is followed from. -/
theorem trail_cons (hfin : T.AllFinite) {s t : ℤ} (hs : s ∈ T.nodes) (ht : t ∈ T.nodes)
    (hlt : T.dist s t < intMax) (hst : s ≠ t) : ∃ l, T.trail s t = t :: l := by
  obtain ⟨hc, -⟩ := T.trail_spec hfin hs ht hlt
  obtain ⟨_, _, l, -, -, hl, -⟩ := chain_cons hst.symm hc
  exact ⟨l, hl⟩

end Topology

/-! ## Printing in a loop -/

/-- A loop that prints something for every element prints all of it. -/
theorem foldlM_prints {σ α β : Type} (Good : σ → Prop) (Ok : α → Prop)
    (print : σ × List β → α → Option (σ × List β)) (g : α → List β)
    (hprint : ∀ s out a, Good s → Ok a → ∃ s', print (s, out) a = some (s', out ++ g a) ∧ Good s') :
    ∀ (as : List α) (s : σ) (out : List β), Good s → (∀ a ∈ as, Ok a) →
      ∃ s', as.foldlM print (s, out) = some (s', out ++ as.flatMap g) ∧ Good s' := by
  intro as
  induction as with
  | nil => exact fun s out hs _ => ⟨s, by simp, hs⟩
  | cons a as ih =>
    intro s out hs hok
    obtain ⟨ha, hok⟩ := List.forall_mem_cons.mp hok
    obtain ⟨s1, h1, hs1⟩ := hprint s out a hs ha
    obtain ⟨s', h', hs'⟩ := ih s1 (out ++ g a) hs1 hok
    refine ⟨s', ?_, hs'⟩
    rw [List.foldlM_cons, h1, Option.bind_eq_bind, Option.bind_some, h', List.flatMap_cons,
      List.append_assoc]

namespace LinkState

section Ready

variable {T : Topology} {ls : LinkState}

/-- The chain of predecessors of a reached node. -/
theorem Ready.chained (h : Ready T ls) (hfin : T.AllFinite) {s t : ℤ} (hs : s ∈ T.nodes)
    (ht : t ∈ T.nodes) (hlt : T.dist s t < intMax) : ∃ prevs k,
      ls.prevOfThatNode.lookup s = some prevs ∧
      chain (fun v => prevs.lookup v) s k t = some (T.trail s t) := by
  obtain ⟨n, record, prevs, -, -, hprev, hS, -⟩ := h.recorded s hs
  have hR := hS.rooted
  have hlab := hR.distOr_eq (v := t) T.positive (hfin s hs t)
  have hlt' : (record.lookup t).getD intMax < intMax := hlab.trans_lt hlt
  obtain ⟨k, l, hc, hlen, -⟩ := (hR.tight T.positive T.symmetric).chain_within T.positive
    hR.labelling.root (hR.nonneg T.positive (by decide)) T.within ht hlt'
  exact ⟨prevs, k, hprev, by rw [Topology.trail, hR.trail_eq T.positive hc hlt' hlen, hc]⟩

/-- **The hops of a message** are those of the topology. -/
theorem Ready.nextHops_eq (h : Ready T ls) (hfin : T.AllFinite) {s t : ℤ} (hs : s ∈ T.nodes)
    (ht : t ∈ T.nodes) (hlt : T.dist s t < intMax) {fuel : ℕ} (hfuel : T.nodes.card ≤ fuel) :
    ∃ hops, nextHops ls fuel s t = some hops ∧ printedHops hops = T.hopsFrom s t := by
  obtain ⟨prevs, k, hprev, hc⟩ := h.chained hfin hs ht hlt
  obtain ⟨-, hlen, l, hl, -⟩ := T.trail_spec hfin hs ht hlt
  refine ⟨l ++ [s], LinkState.nextHops_eq hprev hc hl (hlen.trans hfuel), ?_⟩
  rw [printedHops, List.dropLast_concat]
  by_cases hst : s = t
  · subst hst
    rw [chain_root] at hc
    rw [← Option.some.inj hc] at hl
    rw [(List.cons.inj hl).2.symm, Topology.hopsFrom, if_pos rfl, List.reverse_nil]
  · obtain ⟨l0, hl0⟩ := T.trail_cons hfin hs ht hlt hst
    rw [hl0, List.cons_append] at hl
    rw [← (List.cons.inj hl).2, Topology.hopsFrom, if_neg hst, hl0, List.reverse_append,
      List.tail_cons]
    rfl

/-- What the tables of a node say. -/
theorem Ready.canonical (h : Ready T ls) (hids : T.NonnegIds) (hfin : T.AllFinite) {s t : ℤ}
    (hs : s ∈ T.nodes) (ht : t ∈ T.nodes) : ∃ n record hop, ls.graph.lookup s = some n ∧
      ls.totalDistance.lookup s = some record ∧ record.lookup t = some (T.dist s t) ∧
      n.forwardingHop t = some hop ∧ (hop ≠ -1 ↔ T.dist s t < intMax) ∧
      (T.dist s t < intMax → hop = T.hopFrom s t) := by
  obtain ⟨n, record, prevs, hn, hrec, hprev, hS, htab⟩ := h.recorded s hs
  have htab := htab hids
  have hlook : record.lookup t = some (T.dist s t) := by
    rw [hS.lookup_record ht]
    exact congrArg some (hS.rooted.distOr_eq (v := t) T.positive (hfin s hs t))
  obtain ⟨hop, hhop, hiff⟩ := htab.hop_iff hids (hids s hs) ht hlook
  refine ⟨n, record, hop, hn, hrec, hlook, hhop, hiff, fun hlt => ?_⟩
  refine Option.some.inj (hhop.symm.trans ?_)
  by_cases hst : s = t
  · subst hst
    rw [Topology.hopFrom, if_pos rfl]
    exact htab.hop_self
  · obtain ⟨prevs', k, hprev', hc⟩ := h.chained hfin hs ht hlt
    obtain rfl := Option.some.inj (hprev.symm.trans hprev')
    obtain ⟨l0, hl0⟩ := T.trail_cons hfin hs ht hlt hst
    obtain ⟨l, x, hx⟩ := (List.eq_nil_or_concat (T.trail s t)).resolve_left
      (by rw [hl0]; exact List.cons_ne_nil t l0)
    rw [List.concat_eq_append] at hx
    rw [Topology.hopFrom, if_neg hst, hx, List.getLastD_concat]
    exact htab.hop t ht (by rw [valueAt_of_lookup hlook]; exact hlt) k l x (hx ▸ hc)

/-- **A row** is the one of the topology. -/
theorem Ready.printStep_eq (h : Ready T ls) (hids : T.NonnegIds) (hfin : T.AllFinite)
    (rows : List Row) {p : ℤ × ℤ} (hp : p.1 ∈ T.nodes ∧ p.2 ∈ T.nodes) :
    ∃ ls', printStep (ls, rows) p = some (ls', rows ++ T.row T.hopFrom p) ∧ Ready T ls' := by
  obtain ⟨i, j⟩ := p
  obtain ⟨hi, hj⟩ := hp
  obtain ⟨n, record, hop, hn, hrec, hlook, hhop, hiff, heq⟩ := h.canonical hids hfin hi hj
  have hmem : j ∈ record := AList.lookup_isSome.mp (by rw [hlook]; rfl)
  refine ⟨_, ?_, h.kept (kept_touch hrec hmem)⟩
  unfold printStep
  simp only [hn, hrec, hhop, touch_of_mem hmem, valueAt_of_lookup hlook, Option.bind_eq_bind,
    Option.bind_some, Topology.row]
  by_cases hlt : T.dist i j < intMax
  · rw [if_pos (hiff.mpr hlt), if_pos hlt, heq hlt]
  · rw [if_neg (fun hne => hlt (hiff.mp hne)), if_neg hlt, List.append_nil]

/-- **The table** is that of the topology. -/
theorem Ready.printTable_eq (h : Ready T ls) (hids : T.NonnegIds) (hfin : T.AllFinite) :
    ∃ ls', LinkState.printTable ls = some (ls', T.table T.hopFrom) ∧ Ready T ls' := by
  have hpairs : ∀ p ∈ allPairs ls.graph, p.1 ∈ T.nodes ∧ p.2 ∈ T.nodes := fun p hp => by
    obtain ⟨hi, hj⟩ := mem_allPairs.mp hp
    exact ⟨(h.wf.refines.nodes p.1).mp hi, (h.wf.refines.nodes p.2).mp hj⟩
  obtain ⟨ls', hp, hready⟩ := foldlM_prints (Ready T) (fun p => p.1 ∈ T.nodes ∧ p.2 ∈ T.nodes)
    printStep (T.row T.hopFrom) (fun _ rows _ hr hp => hr.printStep_eq hids hfin rows hp)
    (allPairs ls.graph) ls [] h hpairs
  refine ⟨ls', ?_, hready⟩
  rw [LinkState.printTable, hp, h.wf.refines.allPairs_eq]
  rfl

/-- **A message** is reported as the topology says. -/
theorem Ready.printMessage_eq (h : Ready T ls) (hfin : T.AllFinite) {fuel : ℕ}
    (hfuel : T.nodes.card ≤ fuel) (reports : List Report) {m : Message} (hm : T.Knows m) :
    ∃ ls', printMessage fuel (ls, reports) m = some (ls', reports ++ [T.report T.hopsFrom m]) ∧
      Ready T ls' := by
  obtain ⟨hs, ht⟩ := hm
  obtain ⟨n, record, prevs, -, hrec, -, hS, -⟩ := h.recorded m.src hs
  have hlook : record.lookup m.dst = some (T.dist m.src m.dst) := by
    rw [hS.lookup_record ht]
    exact congrArg some (hS.rooted.distOr_eq (v := m.dst) T.positive (hfin m.src hs m.dst))
  have hmem : m.dst ∈ record := AList.lookup_isSome.mp (by rw [hlook]; rfl)
  have hready := h.kept (kept_touch hrec hmem)
  have hle : T.dist m.src m.dst ≤ intMax := by
    have := hS.rooted.labelling.le_top m.dst
    rwa [hlook, Option.getD_some] at this
  refine ⟨_, ?_, hready⟩
  unfold printMessage
  simp only [hrec, Option.bind_eq_bind, Option.bind_some, touch_of_mem hmem,
    valueAt_of_lookup hlook, Topology.report]
  rw [touch_of_mem hmem] at hready
  by_cases hlt : T.dist m.src m.dst < intMax
  · obtain ⟨hops, hhops, heq⟩ := hready.nextHops_eq hfin hs ht hlt hfuel
    rw [if_pos hlt.ne, if_pos hlt, hhops, Option.bind_some, heq]
  · rw [if_neg (not_not.mpr (le_antisymm hle (not_lt.mp hlt))), if_neg hlt]

/-- **The messages** are reported as the topology says. -/
theorem Ready.printMessages_eq (h : Ready T ls) (hfin : T.AllFinite) {fuel : ℕ}
    (hfuel : T.nodes.card ≤ fuel) {messages : List Message} (hk : ∀ m ∈ messages, T.Knows m) :
    ∃ ls', printMessages fuel ls messages = some (ls', messages.map (T.report T.hopsFrom)) ∧
      Ready T ls' := by
  obtain ⟨ls', hp, hready⟩ := foldlM_prints (Ready T) T.Knows (printMessage fuel)
    (fun m => [T.report T.hopsFrom m]) (fun _ reports _ hr hm => hr.printMessage_eq hfin hfuel
      reports hm) messages ls [] h hk
  refine ⟨ls', ?_, hready⟩
  rw [printMessages, hp, List.nil_append, List.map_eq_flatMap]

end Ready

end LinkState

namespace DistanceVector

section Ready

variable {T : Topology} {dv : DistanceVector}

/-- The distances and next hops for a destination are shortest distances with least predecessors,
rooted at the destination. -/
theorem Ready.rooted (h : Ready T dv) {x : ℤ} (hx : x ∈ T.nodes) :
    Rooted T.price intMax x (fun u => labels dv.graph u x) fun u => hops dv.graph u x where
  labelling := h.wf.labelling h.quiet hx
  pred u hux hlt := by
    have hL := h.wf.labelling h.quiet hx
    obtain ⟨f, w, hf, hw, he⟩ := h.wf.exchanging.tight h.quiet x u hux hlt
    have he : labels dv.graph u x = w + labels dv.graph f x := he
    have hlt : labels dv.graph u x < intMax := hlt
    have hw0 := T.positive u f w hw
    have hud := hL.isDist T.positive hlt
    have hfd := hL.isDist (v := f) T.positive (by omega)
    refine ⟨f, hf, ⟨labels dv.graph f x, w, hfd, by rw [T.symmetric, hw], ?_⟩, fun u' hu' => ?_⟩
    · rwa [he, add_comm] at hud
    · obtain ⟨a, w', ha, hw', hau⟩ := hu'
      have hw0' := T.positive u' u w' hw'
      obtain ⟨l, hl⟩ := ha.attained
      have hle : labels dv.graph u' x ≤ a := hL.le_walk T.positive hl
      have hsum : labels dv.graph u x = a + w' := hud.unique hau
      have hau' : labels dv.graph u' x = a :=
        (hL.isDist (v := u') T.positive (by omega)).unique ha
      exact h.wf.exchanging.least_next h.quiet hux hlt hf (by rw [T.symmetric, hw']) (by omega)

theorem Ready.labels_eq (h : Ready T dv) (hfin : T.AllFinite) {u x : ℤ} (hx : x ∈ T.nodes) :
    labels dv.graph u x = T.dist u x := by
  rw [T.dist_comm]
  exact (h.rooted hx).distOr_eq T.positive (hfin x hx u)

theorem Ready.hops_eq (h : Ready T dv) (hfin : T.AllFinite) {u x : ℤ} (hx : x ∈ T.nodes)
    (hux : u ≠ x) (hlt : T.dist u x < intMax) : hops dv.graph u x = some (T.hopTo u x) := by
  have hlt' : labels dv.graph u x < intMax := (h.labels_eq hfin hx).trans_lt hlt
  obtain ⟨f, hf, hleast⟩ := (h.rooted hx).pred u hux hlt'
  rw [hf, Topology.hopTo, if_neg hux, hleast.leastPred_eq, Option.getD_some]

/-- **A row** is the one of the topology. -/
theorem Ready.printStep_eq (h : Ready T dv) (hfin : T.AllFinite) (rows : List Row) {p : ℤ × ℤ}
    (hp : p.1 ∈ T.nodes ∧ p.2 ∈ T.nodes) :
    ∃ graph', printStep (dv.graph, rows) p = some (graph', rows ++ T.row T.hopTo p) ∧
      Ready T ⟨graph'⟩ := by
  obtain ⟨i, j⟩ := p
  obtain ⟨hi, hj⟩ := hp
  obtain ⟨n, hn⟩ := h.wf.refines.exists_lookup hi
  have hok := h.wf.node i n hn
  have hd := h.wf.lookup_distance hn hj
  obtain ⟨h0, hm⟩ := hok.range j _ hd
  obtain ⟨hW, -, hfresh⟩ := h.wf.touchHop hn j
  refine ⟨_, ?_, hW, hfresh ▸ h.quiet⟩
  have hlab := h.labels_eq hfin (u := i) hj
  rw [hlab] at hd h0 hm
  unfold printStep
  simp only [hn, touch_of_mem ((hok.keys j).mpr hj), valueAt_of_lookup hd, Option.bind_eq_bind,
    Option.bind_some, Topology.row]
  by_cases hlt : T.dist i j < intMax
  · have hhop : n.forwardingTable.lookup j = some (T.hopTo i j) := by
      by_cases hij : i = j
      · subst hij
        rw [Topology.hopTo, if_pos rfl]
        exact hok.hop_self
      · rw [← hops_of_lookup hn, h.hops_eq hfin hj hij hlt]
    rw [if_pos ⟨hlt.ne, h0⟩, if_pos hlt, valueAt_of_lookup (Routing.lookup_touch hhop j)]
    rfl
  · rw [if_neg fun hc => hlt (lt_of_le_of_ne hm hc.1), if_neg hlt, List.append_nil]
    rfl

/-- **The table** is that of the topology. -/
theorem Ready.printTable_eq (h : Ready T dv) (hfin : T.AllFinite) :
    ∃ dv', DistanceVector.printTable dv = some (dv', T.table T.hopTo) ∧ Ready T dv' := by
  have hpairs : ∀ p ∈ allPairs dv.graph, p.1 ∈ T.nodes ∧ p.2 ∈ T.nodes := fun p hp => by
    obtain ⟨hi, hj⟩ := mem_allPairs.mp hp
    exact ⟨(h.wf.refines.nodes p.1).mp hi, (h.wf.refines.nodes p.2).mp hj⟩
  obtain ⟨graph', hp, hready⟩ := foldlM_prints (fun g => Ready T ⟨g⟩)
    (fun p => p.1 ∈ T.nodes ∧ p.2 ∈ T.nodes) printStep (T.row T.hopTo)
    (fun _ rows _ hr hp => hr.printStep_eq hfin rows hp) (allPairs dv.graph) dv.graph [] h hpairs
  refine ⟨⟨graph'⟩, ?_, hready⟩
  rw [DistanceVector.printTable, hp, h.wf.refines.allPairs_eq]
  rfl

/-- **The hops of a message** are those of the topology. -/
theorem Ready.nextHops_eq (h : Ready T dv) (hfin : T.AllFinite) {g : IntMap Node} {s t : ℤ}
    (hg : ∀ u, g.lookup u = dv.graph.lookup u) (hs : s ∈ T.nodes) (ht : t ∈ T.nodes)
    (hlt : T.dist s t < intMax) {fuel : ℕ} (hfuel : T.nodes.card ≤ fuel) :
    ∃ g', nextHops ⟨g⟩ fuel s t = some (⟨g'⟩, T.hopsTo s t) ∧
      ∀ u, g'.lookup u = dv.graph.lookup u := by
  have hlt' : labels dv.graph s t < intMax := (h.labels_eq hfin ht).trans_lt hlt
  obtain ⟨g', l, hn, hl'⟩ := h.nextHops_ends hg hs ht hlt' hfuel
  refine ⟨g', ?_, hl'⟩
  suffices l = T.hopsTo s t by rw [hn, this]
  by_cases hst : s = t
  · -- the walk looks at the source before it asks whether it is there
    subst hst
    obtain ⟨n, hns⟩ := h.wf.refines.exists_lookup hs
    have hid := (h.wf.node s n hns).id
    obtain ⟨fuel, rfl⟩ : ∃ f, fuel = f + 1 :=
      ⟨fuel - 1, by have := Finset.card_pos.mpr ⟨s, hs⟩; omega⟩
    have hstep := hopsLoop_step fuel (by rw [hg, hns]) (h.wf.node s n hns).hop_self
      (AList.lookup_insert g)
    rw [if_neg (not_not.mpr hid), hid] at hstep
    rw [nextHops, hstep] at hn
    rw [Topology.hopsTo, if_pos rfl, ← (Prod.mk.inj (Option.some.inj hn)).2]
  · have hL := h.wf.labelling h.quiet ht
    have hT := h.wf.exchanging.tight h.quiet t
    obtain ⟨k, l', hc, hlen, -⟩ := hT.chain_within T.positive hL.root
      ((h.rooted ht).nonneg T.positive (by decide)) T.within hs hlt'
    obtain ⟨g'', hg'', -⟩ := hopsLoop_spec h.wf hT l' hg hc hst hlt' fuel (hlen.trans hfuel)
    rw [nextHops, hg''] at hn
    rw [Topology.hopsTo, if_neg hst, Topology.trail,
      (h.rooted ht).trail_eq T.positive hc hlt' hlen, ← (Prod.mk.inj (Option.some.inj hn)).2]

/-- **A message** is reported as the topology says. -/
theorem Ready.printMessage_eq (h : Ready T dv) (hfin : T.AllFinite) {fuel : ℕ}
    (hfuel : T.nodes.card ≤ fuel) (reports : List Report) {m : Message} (hm : T.Knows m) :
    ∃ dv', printMessage fuel (dv, reports) m = some (dv', reports ++ [T.report T.hopsTo m]) ∧
      Ready T dv' := by
  obtain ⟨hs, ht⟩ := hm
  obtain ⟨n, hn⟩ := h.wf.refines.exists_lookup hs
  have hok := h.wf.node m.src n hn
  have hd := h.wf.lookup_distance hn ht
  have hl := fun u => h.lookup_touch hn ht u
  have hval : valueAt (touch n.distanceToThatNode m.dst) m.dst = T.dist m.src m.dst := by
    rw [touch_of_mem ((hok.keys m.dst).mpr ht), valueAt_of_lookup hd, h.labels_eq hfin ht]
  obtain ⟨h0, hle⟩ := hok.range m.dst _ hd
  rw [h.labels_eq hfin ht] at h0 hle
  unfold printMessage
  simp only [hn, Option.bind_eq_bind, Option.bind_some, hval, Topology.report]
  by_cases hlt : T.dist m.src m.dst < intMax
  · obtain ⟨g', hhops, hl'⟩ := h.nextHops_eq hfin hl hs ht hlt hfuel
    refine ⟨⟨g'⟩, ?_, h.congr hl'⟩
    rw [if_pos ⟨hlt.ne, h0⟩, if_pos hlt, hhops]
    rfl
  · exact ⟨_, by rw [if_neg fun hc => hlt (lt_of_le_of_ne hle hc.1), if_neg hlt], h.congr hl⟩

/-- **The messages** are reported as the topology says. -/
theorem Ready.printMessages_eq (h : Ready T dv) (hfin : T.AllFinite) {fuel : ℕ}
    (hfuel : T.nodes.card ≤ fuel) {messages : List Message} (hk : ∀ m ∈ messages, T.Knows m) :
    ∃ dv', printMessages fuel dv messages = some (dv', messages.map (T.report T.hopsTo)) ∧
      Ready T dv' := by
  obtain ⟨dv', hp, hready⟩ := foldlM_prints (Ready T) T.Knows (printMessage fuel)
    (fun m => [T.report T.hopsTo m]) (fun _ reports _ hr hm => hr.printMessage_eq hfin hfuel
      reports hm) messages dv [] h hk
  refine ⟨dv', ?_, hready⟩
  rw [printMessages, hp, List.nil_append, List.map_eq_flatMap]

end Ready

end DistanceVector

/-! ## The two programs' routes -/

section Routes

variable {T : Topology} {s t : ℤ}

/-- **Routes are reversed**: the route of a pair in the link-state program, its destination
included, is the route of the reversed pair in the distance-vector program backwards. -/
theorem Topology.hopsFrom_reverse (hfin : T.AllFinite) (hs : s ∈ T.nodes) (ht : t ∈ T.nodes)
    (hlt : T.dist s t < intMax) (hst : s ≠ t) :
    T.hopsFrom s t ++ [t] = (T.hopsTo t s ++ [s]).reverse := by
  obtain ⟨l, hl⟩ := T.trail_cons hfin hs ht hlt hst
  rw [hopsFrom, if_neg hst, hopsTo, if_neg hst.symm, hl]
  simp

section Untied

variable (hfin : T.AllFinite) (hunt : Untied T.price) (hs : s ∈ T.nodes) (ht : t ∈ T.nodes)
  (hlt : T.dist s t < intMax) (hst : s ≠ t)

include hfin hunt hs ht hlt

theorem Topology.trail_untied : (T.trail s t ++ [s]).reverse = T.trail t s ++ [t] :=
  trail_reverse T.positive T.symmetric T.within hunt (hfin s hs) ht hlt (le_refl _)

include hst

/-- Without ties the two routes of a pair are the same. -/
theorem Topology.hopsFrom_untied : T.hopsFrom s t = T.hopsTo s t := by
  have hcat := T.hopsFrom_reverse hfin hs ht hlt hst
  rw [hopsTo, if_neg hst.symm, T.trail_untied hfin hunt hs ht hlt] at hcat
  rw [List.append_cancel_right hcat, hopsTo, if_neg hst]

/-- So are the two first hops. -/
theorem Topology.hopFrom_untied : T.hopFrom s t = T.hopTo s t := by
  have hlt' : T.dist t s < intMax := T.dist_comm s t ▸ hlt
  obtain ⟨hc, -⟩ := T.trail_spec hfin ht hs hlt'
  obtain ⟨_, u, l, -, hu, hl, hc'⟩ := chain_cons hst hc
  obtain ⟨r, hr⟩ := chain_head hc'
  have hrev : T.trail s t = r.reverse ++ [u] := by
    have hcat := T.trail_untied hfin hunt hs ht hlt
    rw [hl, List.cons_append, hr, List.reverse_concat] at hcat
    rw [← List.reverse_reverse (T.trail s t), (List.cons.inj hcat).2, List.reverse_cons]
  rw [hopFrom, if_neg hst, hrev, List.getLastD_concat, hopTo, if_neg hst, hu, Option.getD_some]

end Untied

/-- **Without ties the tables are the same.** -/
theorem Topology.table_untied (hfin : T.AllFinite) (hunt : Untied T.price) :
    T.table T.hopFrom = T.table T.hopTo := by
  refine List.flatMap_congr fun p hp => ?_
  obtain ⟨i, hi, hp⟩ := List.mem_flatMap.mp hp
  obtain ⟨j, hj, rfl⟩ := List.mem_map.mp hp
  unfold row
  split_ifs with hlt
  · by_cases hij : i = j
    · rw [hopFrom, hopTo, if_pos hij, if_pos hij]
    · rw [T.hopFrom_untied hfin hunt ((Finset.mem_sort _).mp hi) ((Finset.mem_sort _).mp hj) hlt
        hij]
  · rfl

/-- **Without ties the reports are the same**, but for messages from a node to itself. -/
theorem Topology.report_untied (hfin : T.AllFinite) (hunt : Untied T.price) {m : Message}
    (hm : T.Knows m) (hne : m.src ≠ m.dst) : T.report T.hopsFrom m = T.report T.hopsTo m := by
  unfold report
  split_ifs with hlt
  · rw [T.hopsFrom_untied hfin hunt hm.1 hm.2 hlt hne]
  · rfl

end Routes

/-- **What one program prints from `s` to `t`, the other prints from `t` to `s`, backwards**: after
builds of the same topology, for any two nodes with a path between them. -/
theorem routes_reversed {T : Topology} {ls : LinkState} {dv : DistanceVector}
    (hls : LinkState.Ran T true ls) (hdv : DistanceVector.Ran T true dv) {s t : ℤ}
    (hs : s ∈ T.nodes) (ht : t ∈ T.nodes) (hst : s ≠ t) (hr : Reachable T.price s t) {fuel : ℕ}
    (hfuel : T.nodes.card ≤ fuel) :
    ∃ hops hops' dv', LinkState.nextHops ls fuel s t = some hops ∧
      DistanceVector.nextHops dv fuel t s = some (dv', hops') ∧
      LinkState.printedHops hops ++ [t] = (hops' ++ [s]).reverse := by
  obtain ⟨hfits, hready⟩ := hls.inv.2 rfl
  obtain ⟨-, hready'⟩ := hdv.inv.2.2.1 rfl
  have hfin : T.AllFinite := fun x hx => (hfits x hx).2
  have hlt := T.dist_lt hfin hs hr
  have hlt' : T.dist t s < intMax := T.dist_comm s t ▸ hlt
  obtain ⟨hops, hhops, hprinted⟩ := hready.nextHops_eq hfin hs ht hlt hfuel
  obtain ⟨g', hhops', -⟩ := hready'.nextHops_eq hfin (fun _ => rfl) ht hs hlt' hfuel
  refine ⟨hops, T.hopsTo t s, ⟨g'⟩, hhops, hhops', ?_⟩
  rw [hprinted]
  exact T.hopsFrom_reverse hfin hs ht hlt hst

/-- The route along a path of two links, and back. -/
theorem routes_reversed_line :
    ∃ hops hops' dv', LinkState.nextHops LinkState.lineRouter 3 1 3 = some hops ∧
      DistanceVector.nextHops DistanceVector.lineRouter 3 3 1 = some (dv', hops') ∧
      LinkState.printedHops hops ++ [3] = (hops' ++ [1]).reverse :=
  routes_reversed (T := (Topology.empty.line 1 2 5).line 2 3 1)
    (.build (.line (.line .init 1 2 5 (by decide)) 2 3 1 (by decide)) (IterOrder.listed _)
      (LinkState.searchFits_of_costSum (by decide +kernel)) (eq_some_getD (by decide +kernel)))
    (.build (.line (.line .init 1 2 5 (by decide)) 2 3 1 (by decide)) (IterOrder.listed _) 10
      (DistanceVector.exchangeFits_of_costSum (by decide +kernel))
      (eq_some_getD (by decide +kernel)))
    (by decide) (by decide) (by decide)
    ⟨[2, 3], 6, Walk.cons (w := 5) (d := 1) (by decide) (Walk.single (by decide))⟩ (by decide)

end NetworkingLearning.Routing
