import NetworkingLearning.Routing.Messages

/-!
# Both programs through their phases (`linkstate.cpp:317-356`, `distvec.cpp:290-329`)

A run (`Ran`) reads lines, builds, and prints tables and messages after a build. The ids are any
integers and the costs any that fit an `int`. What an `int` sum does beyond its range is undefined,
so a run builds only topologies whose sums fit; `sums_fit_iff` says that nothing less will do.

* Lines, builds and printing come in any order that the loops of `main` allow, and in others too: a
  build after several lines, and printing more than once. The flag of a run says whether the last
  thing was a build.
* The distance-vector program opens the message file only for graphs of eight nodes or more
  (`distvec.cpp:221`).

Results:
* `sums_fit_iff`: in either program the next build of a run computes no sum beyond `INT_MAX`, and
  leaves no reached node at `INT_MAX`, exactly if its topology fits.
* `messages_iff`: in either program, messages are printed after a build, each with its cost or as
  unreachable, exactly if all their ids are nodes of the graph.
* `results_iff`: the distance-vector program prints messages only for graphs of eight nodes or more.
-/

namespace NetworkingLearning.Routing

open NetworkingLearning.Machine NetworkingLearning.Paths

namespace LinkState

/-- `Ran T built ls`: the router `ls` and the topology of its lines; `built` if no line has come
since the last build. -/
inductive Ran : Topology → Bool → LinkState → Prop
  | init : Ran Topology.empty false init
  | line {T : Topology} {b : Bool} {ls : LinkState} (h : Ran T b ls) (node1 node2 dist : ℤ)
      (hdist : dist ≤ intMax) :
      Ran (T.line node1 node2 dist) false (ls.buildLine node1 node2 dist)
  | build {T : Topology} {b : Bool} {ls ls' : LinkState} (h : Ran T b ls) (ord : IterOrder (ℤ × ℕ))
      (hfits : SearchFits T) (hb : buildNodesForwardingTables ord ls = some ls') : Ran T true ls'
  | table {T : Topology} {ls ls' : LinkState} {rows : List Row} (h : Ran T true ls)
      (hp : printTable ls = some (ls', rows)) : Ran T true ls'
  | messages {T : Topology} {ls ls' : LinkState} {fuel : ℕ} {messages : List Message}
      {reports : List Report} (h : Ran T true ls)
      (hp : printMessages fuel ls messages = some (ls', reports)) : Ran T true ls'

section Ran

variable {T : Topology} {b : Bool} {ls : LinkState}

/-- What a run keeps. -/
theorem Ran.inv (h : Ran T b ls) : Wf T ls ∧ (b = true → SearchFits T ∧ Ready T ls) := by
  induction h with
  | init => exact ⟨Wf.init, fun h => absurd h (by simp)⟩
  | line _ node1 node2 dist _ ih =>
    exact ⟨ih.1.line node1 node2 dist, fun h => absurd h (by simp)⟩
  | build _ ord hfits hb ih =>
    obtain ⟨hW, hT⟩ := ih.1.build (bounded_of_fits hfits) hb
    exact ⟨hW, fun _ => ⟨hfits, hW, hT⟩⟩
  | table _ hp ih =>
    obtain ⟨hfits, hready⟩ := ih.2 rfl
    exact ⟨(hready.printTable hp).wf, fun _ => ⟨hfits, hready.printTable hp⟩⟩
  | messages _ hp ih =>
    obtain ⟨hfits, hready⟩ := ih.2 rfl
    have hready' := (hready.printMessages_knows hp).2
    exact ⟨hready'.wf, fun _ => ⟨hfits, hready'⟩⟩

/-- Where the sum of all links is below half of `INT_MAX`, the topology fits. -/
theorem searchFits_of_costSum (hsum : 2 * T.costSum < intMax) : SearchFits T := by
  have hnn : 0 ≤ T.costSum := linkSum_nonneg T.positive T.nodes
  have hdist : ∀ s ∈ T.nodes, ∀ t d, IsDist T.price s t d → d ≤ T.costSum := by
    intro s hs t d hd
    obtain ⟨l, hl⟩ := hd.attained
    obtain ⟨l', d', hl', hle⟩ := hl.exists_le_linkSum T.positive T.symmetric T.within hs
    exact (hd.le l' d' hl').trans hle
  refine fun s hs => ⟨fun u v w a b _ hw ha _ _ _ => ?_, fun t d hd => ?_⟩
  · have h1 := hdist s hs u a ha
    have h2 : w ≤ T.costSum := price_le_linkSum T.positive T.symmetric T.within hw
    omega
  · have := hdist s hs t d hd
    omega

end Ran

end LinkState

namespace DistanceVector

/-- `Ran T built dv`: the router `dv` and the topology of its lines; `built` if no line has come
since the last build. -/
inductive Ran : Topology → Bool → DistanceVector → Prop
  | init : Ran Topology.empty false init
  | line {T : Topology} {b : Bool} {dv : DistanceVector} (h : Ran T b dv) (node1 node2 dist : ℤ)
      (hdist : dist ≤ intMax) :
      Ran (T.line node1 node2 dist) false (dv.buildLine node1 node2 dist)
  | build {T : Topology} {b : Bool} {dv dv' : DistanceVector} (h : Ran T b dv)
      (ord : IterOrder (ℕ × ℤ × ℕ)) (fuel : ℕ) (hfits : ExchangeFits T)
      (hb : buildNodesForwardingTables ord fuel dv = some dv') : Ran T true dv'
  | table {T : Topology} {dv dv' : DistanceVector} {rows : List Row} (h : Ran T true dv)
      (hp : printTable dv = some (dv', rows)) : Ran T true dv'
  | messages {T : Topology} {dv dv' : DistanceVector} {fuel : ℕ} {messages : List Message}
      {reports : List Report} (h : Ran T true dv)
      (hp : printMessages fuel dv messages = some (dv', reports)) : Ran T true dv'

section Ran

variable {T : Topology} {b : Bool} {dv : DistanceVector}

theorem CostsFit.line (h : CostsFit T) {node1 node2 dist : ℤ} (hdist : dist ≤ intMax) :
    CostsFit (T.line node1 node2 dist) := by
  intro u v w hw
  rcases linePrice_eq_some hw with ⟨-, -, rfl⟩ | hw
  · exact hdist
  · exact h u v w hw

/-- After a line no node has heard of another, and of two linked ones both have to send. -/
theorem Wf.line_start {graph : IntMap Node} (h : Wf T graph) (node1 node2 dist : ℤ) :
    Stepped (T.line node1 node2 dist).price intMax (T.line node1 node2 dist).nodes 0
        (labels (initialAllDist (buildGraph nodeClass graph node1 node2 dist))) ∧
      Covered (T.line node1 node2 dist)
        (initialAllDist (buildGraph nodeClass graph node1 node2 dist)) := by
  have hR := h.refines.line node1 node2 dist
  have hraw := h.raw node1 node2 dist
  refine ⟨stepped_reset hR hraw, fun u n w x hw hwlt hlt => ?_⟩
  by_cases hun : u = n
  · subst hun
    rcases labels_reset hR hraw u x with htop | ⟨rfl, h0⟩
    · exact absurd htop hlt.ne
    · exact Or.inr (by omega)
  · exact Or.inl (fresh_reset hR hraw hw hun)

/-- What a run keeps. -/
theorem Ran.inv (h : Ran T b dv) : Wf T dv.graph ∧ CostsFit T ∧
    (b = true → ExchangeFits T ∧ Ready T dv) ∧
    (b = false → Stepped T.price intMax T.nodes 0 (labels dv.graph) ∧ Covered T dv.graph) := by
  induction h with
  | init =>
    refine ⟨Wf.init, fun u v w hw => absurd hw (by simp),
      fun h => absurd h (by simp), fun _ => ⟨⟨fun u x hlt => ?_, fun u x hx => ?_⟩, ?_⟩⟩
    · exact absurd hlt (by simp [labels])
    · exact absurd hx (Finset.notMem_empty x)
    · exact fun u n w x hw => absurd hw (by simp)
  | line _ node1 node2 dist hdist ih =>
    obtain ⟨hW, hcost, -⟩ := ih
    exact ⟨hW.line node1 node2 dist, hcost.line hdist, fun h => absurd h (by simp),
      fun _ => hW.line_start node1 node2 dist⟩
  | build _ ord fuel hfits hb ih =>
    obtain ⟨hW, hcost, -⟩ := ih
    obtain ⟨hW', hquiet⟩ := hW.build (bounded_of_stepsFit hcost hfits.1) hb
    exact ⟨hW', hcost, fun _ => ⟨hfits, hW', hquiet⟩, fun h => absurd h (by simp)⟩
  | table _ hp ih =>
    obtain ⟨-, hcost, hready, -⟩ := ih
    obtain ⟨hfits, hready⟩ := hready rfl
    exact ⟨(hready.printTable hp).wf, hcost, fun _ => ⟨hfits, hready.printTable hp⟩,
      fun h => absurd h (by simp)⟩
  | messages _ hp ih =>
    obtain ⟨-, hcost, hready, -⟩ := ih
    obtain ⟨hfits, hready⟩ := hready rfl
    have hready' := (hready.printMessages_knows hp).2
    exact ⟨hready'.wf, hcost, fun _ => ⟨hfits, hready'⟩, fun h => absurd h (by simp)⟩

/-- Where the sum of all links is below half of `INT_MAX`, the topology fits. -/
theorem exchangeFits_of_costSum (hsum : 2 * T.costSum < intMax) : ExchangeFits T := by
  refine ⟨fun k u n x w d hw _ hd _ => ?_,
    fun s hs => (LinkState.searchFits_of_costSum hsum s hs).2⟩
  have h1 : w ≤ T.costSum := price_le_linkSum T.positive T.symmetric T.within hw
  have h2 : d ≤ T.costSum :=
    hd.le_linkSum T.positive T.symmetric T.within (T.within u n w hw).2
  omega

end Ran

end DistanceVector

/-! ## Sums -/

/-- **Path costs overflow exactly where the topology does not fit**: at every point of a run of
either program, the next build computes no sum beyond `INT_MAX` and leaves no reached node at
`INT_MAX` if and only if its topology fits. -/
theorem sums_fit_iff {T U : Topology} {b b' : Bool} {ls : LinkState} {dv : DistanceVector}
    (hls : LinkState.Ran T b ls) (hdv : DistanceVector.Ran U b' dv) (ordL : IterOrder (ℤ × ℕ))
    (ordD : IterOrder (ℕ × ℤ × ℕ)) :
    (LinkState.Fine T ordL ls ↔ LinkState.SearchFits T) ∧
      (DistanceVector.Fine U ordD dv ↔ DistanceVector.ExchangeFits U) := by
  obtain ⟨hW, hcost, hbuilt, hstart⟩ := hdv.inv
  refine ⟨LinkState.fine_iff ordL hls.inv.1, fun hfine => ?_,
    DistanceVector.fine_of_fits ordD hW hcost⟩
  cases b' with
  | true => exact (hbuilt rfl).1
  | false => exact hfine.fits ordD hW hcost (hstart rfl).1 (hstart rfl).2

/-- A path of two links is fine for the link-state program, and a single link of more than half of
`INT_MAX` is not for the other one. -/
theorem sums_fit_iff_lines :
    LinkState.Fine ((Topology.empty.line 1 2 5).line 2 3 1) (IterOrder.listed _)
        ((LinkState.init.buildLine 1 2 5).buildLine 2 3 1) ∧
      ¬ DistanceVector.Fine (Topology.empty.line 1 2 1073741824) (IterOrder.listed _)
        (DistanceVector.init.buildLine 1 2 1073741824) := by
  obtain ⟨hsearch, hexchange⟩ := sums_fit_iff
    (.line (.line .init 1 2 5 (by decide)) 2 3 1 (by decide))
    (.line .init 1 2 1073741824 (by decide)) (IterOrder.listed _) (IterOrder.listed _)
  refine ⟨hsearch.mpr (LinkState.searchFits_of_costSum (by decide +kernel)), fun hfine => ?_⟩
  obtain ⟨hsteps, -⟩ := hexchange.mp hfine
  -- from `1` to `2` and back
  have hback : IsDistIn (Topology.empty.line 1 2 1073741824).price 1 2 1 1073741824 := by
    refine ⟨⟨[1], Walk.single rfl, le_rfl⟩, fun l d' hwalk hlen => ?_⟩
    cases hwalk with
    | cons hw h =>
      cases h with
      | nil => rw [← Option.some.inj hw, add_zero]
      | cons _ _ => exact absurd hlen (by simp)
  exact absurd (hsteps 1 1 2 1 _ _ rfl (by decide) hback (by decide)) (by decide)

/-- **Sums beyond `INT_MAX`**: in the link-state program on a path of two links, in the
distance-vector program already back along a single link. -/
theorem sums_overflow :
    (∃ p ∈ LinkState.buildAdds (IterOrder.listed _)
        ((LinkState.init.buildLine 1 2 2147483646).buildLine 2 3 2), intMax < p.1 + p.2) ∧
      ∃ p ∈ DistanceVector.exchangeAdds (IterOrder.listed _) 3 0
        (DistanceVector.init.buildLine 1 2 2147483646).graph, intMax < p.1 + p.2 := by
  decide +kernel

/-! ## Messages -/

/-- **Messages are printed exactly between nodes of the graph**: after a build of either program,
the messages of a file are all printed, with the least cost or as unreachable, if and only if both
ids of each are nodes.

`Ran` has builds of topologies that fit only, and to fit is more than that no sum is beyond
`INT_MAX`: a distance of exactly `INT_MAX` is none that is reached to either program. So a build
whose one fault is such a distance, which is without an overflow, is left out here; the messages to
that node are printed as unreachable. -/
theorem messages_iff {T U : Topology} {ls : LinkState} {dv : DistanceVector}
    (hls : LinkState.Ran T true ls) (hdv : DistanceVector.Ran U true dv)
    (messages : List Message) :
    ((∃ fuel st, LinkState.printMessages fuel ls messages = some st ∧
        st.2.map Report.message = messages ∧ ∀ r ∈ st.2, T.Answers r) ↔
      ∀ m ∈ messages, T.Knows m) ∧
    ((∃ fuel st, DistanceVector.printMessages fuel dv messages = some st ∧
        st.2.map Report.message = messages ∧ ∀ r ∈ st.2, U.Answers r) ↔
      ∀ m ∈ messages, U.Knows m) := by
  obtain ⟨hfits, hready⟩ := hls.inv.2 rfl
  obtain ⟨hfits', hready'⟩ := hdv.inv.2.2.1 rfl
  exact ⟨hready.printMessages_iff (fun s hs => (hfits s hs).2) messages,
    hready'.printMessages_iff hfits'.2 messages⟩

/-- A message along a path of two links, and one back. -/
theorem messages_iff_line :
    (∃ fuel st, LinkState.printMessages fuel LinkState.lineRouter [⟨1, 3, []⟩, ⟨3, 1, []⟩] =
        some st ∧ st.2.map Report.message = [⟨1, 3, []⟩, ⟨3, 1, []⟩] ∧
        ∀ r ∈ st.2, ((Topology.empty.line 1 2 5).line 2 3 1).Answers r) ∧
    (∃ fuel st, DistanceVector.printMessages fuel DistanceVector.lineRouter
        [⟨1, 3, []⟩, ⟨3, 1, []⟩] = some st ∧
        st.2.map Report.message = [⟨1, 3, []⟩, ⟨3, 1, []⟩] ∧
        ∀ r ∈ st.2, ((Topology.empty.line 1 2 5).line 2 3 1).Answers r) := by
  have hls : LinkState.Ran ((Topology.empty.line 1 2 5).line 2 3 1) true LinkState.lineRouter :=
    .build (.line (.line .init 1 2 5 (by decide)) 2 3 1 (by decide)) (IterOrder.listed _)
      (LinkState.searchFits_of_costSum (by decide +kernel)) (eq_some_getD (by decide +kernel))
  have hdv : DistanceVector.Ran ((Topology.empty.line 1 2 5).line 2 3 1) true
      DistanceVector.lineRouter :=
    .build (.line (.line .init 1 2 5 (by decide)) 2 3 1 (by decide)) (IterOrder.listed _) 10
      (DistanceVector.exchangeFits_of_costSum (by decide +kernel))
      (eq_some_getD (by decide +kernel))
  have hknows : ∀ m ∈ [(⟨1, 3, []⟩ : Message), ⟨3, 1, []⟩],
      ((Topology.empty.line 1 2 5).line 2 3 1).Knows m := by
    unfold Topology.Knows
    decide
  obtain ⟨hls, hdv⟩ := messages_iff hls hdv [⟨1, 3, []⟩, ⟨3, 1, []⟩]
  exact ⟨hls.mpr hknows, hdv.mpr hknows⟩

/-- The router of the sample's topology file, with its tables built. -/
def LinkState.sampleRouter : LinkState :=
  (LinkState.buildNodesForwardingTables (IterOrder.listed _) (LinkState.init.buildLine 1 2 8)).getD
    LinkState.init

theorem LinkState.sampleRouter_ran :
    LinkState.Ran (Topology.empty.line 1 2 8) true LinkState.sampleRouter :=
  .build (.line .init 1 2 8 (by decide)) (IterOrder.listed _)
    (LinkState.searchFits_of_costSum (by decide +kernel)) (eq_some_getD (by decide +kernel))

/-- The same for the other program. -/
def DistanceVector.sampleRouter : DistanceVector :=
  (DistanceVector.buildNodesForwardingTables (IterOrder.listed _) 10
    (DistanceVector.init.buildLine 1 2 8)).getD DistanceVector.init

/-- **A message to a node that is not there yet** is never printed: in the sample the node `9`
comes with a change, after the first messages to it. -/
theorem messages_break :
    (∀ fuel, LinkState.printMessages fuel LinkState.sampleRouter
        [⟨1, 9, ["here", "is", "a", "message"]⟩] = none) ∧
      ∀ fuel, DistanceVector.printMessages fuel DistanceVector.sampleRouter
        [⟨1, 9, ["here", "is", "a", "message"]⟩] = none := by
  have hls := LinkState.sampleRouter_ran
  have hdv : DistanceVector.Ran (Topology.empty.line 1 2 8) true DistanceVector.sampleRouter :=
    .build (.line .init 1 2 8 (by decide)) (IterOrder.listed _) 10
      (DistanceVector.exchangeFits_of_costSum (by decide +kernel))
      (eq_some_getD (by decide +kernel))
  have hunknown : ¬ ∀ m ∈ [(⟨1, 9, ["here", "is", "a", "message"]⟩ : Message)],
      (Topology.empty.line 1 2 8).Knows m := fun h =>
    absurd (h _ List.mem_cons_self).2 (by decide)
  constructor
  · exact fun fuel => Option.eq_none_iff_forall_ne_some.mpr fun st hst =>
      hunknown ((hls.inv.2 rfl).2.printMessages_knows hst).1
  · exact fun fuel => Option.eq_none_iff_forall_ne_some.mpr fun st hst =>
      hunknown ((hdv.inv.2.2.1 rfl).2.printMessages_knows hst).1

/-! ## Results of a phase -/

/-- A report but for its hops. -/
def Report.answer (r : Report) : Message × Option ℤ := (r.message, r.route.map Prod.fst)

/-- One report for each message, in order, each as the topology has it. -/
structure Topology.Reported (T : Topology) (messages : List Message) (reports : List Report) :
    Prop where
  messages : reports.map Report.message = messages
  answers : ∀ r ∈ reports, T.Answers r

section Results

variable {T : Topology} {messages : List Message} {reports reports' : List Report}

theorem Topology.Answers.unique {r r' : Report} (h : T.Answers r) (h' : T.Answers r')
    (hm : r.message = r'.message) : r.answer = r'.answer := by
  have hclash : ∀ {m : Message} {p : ℤ × List ℤ}, T.Answers ⟨m, some p⟩ →
      ¬ T.Answers ⟨m, none⟩ := fun hs hn => by
    obtain ⟨l, hl⟩ := hs.2.attained
    exact hn ⟨hs.1, l, _, hl⟩
  obtain ⟨m, route⟩ := r
  obtain ⟨m', route'⟩ := r'
  obtain rfl : m = m' := hm
  cases route with
  | none =>
    cases route' with
    | none => rfl
    | some p => exact absurd h (hclash h')
  | some p =>
    cases route' with
    | none => exact absurd h' (hclash h)
    | some p' =>
      have hcost : p.1 = p'.1 := h.2.unique h'.2
      simp only [Report.answer, Option.map_some, hcost]

/-- **The topology decides what is reported**, up to the hops. -/
theorem Topology.Reported.unique (h : T.Reported messages reports)
    (h' : T.Reported messages reports') :
    reports.map Report.answer = reports'.map Report.answer := by
  obtain ⟨hm, ha⟩ := h
  obtain ⟨hm', ha'⟩ := h'
  induction reports generalizing messages reports' with
  | nil =>
    obtain rfl := List.map_eq_nil_iff.mp (hm'.trans hm.symm)
    rfl
  | cons r reports ih =>
    subst hm
    obtain ⟨r', rest, rfl, hr, hrest⟩ := List.map_eq_cons_iff.mp hm'
    rw [List.map_cons, List.map_cons,
      (ha r List.mem_cons_self).unique (ha' r' List.mem_cons_self) hr.symm,
      ih rfl (fun x hx => ha x (List.mem_cons_of_mem r hx)) hrest
        fun x hx => ha' x (List.mem_cons_of_mem r' hx)]

/-- **The link-state program** prints its table and reports every message between nodes. -/
theorem LinkState.Ran.printResults {ls : LinkState} (h : LinkState.Ran T true ls)
    (hids : T.NonnegIds) (hk : ∀ m ∈ messages, T.Knows m) :
    ∃ fuel ls' rows reports, LinkState.printResults fuel ls messages = some (ls', rows, reports) ∧
      T.Reported messages reports := by
  obtain ⟨hfits, hready⟩ := h.inv.2 rfl
  obtain ⟨ls₁, rows, htable, -⟩ := LinkState.printTable_spec hready.wf hids
    fun s hs => (hready.recorded s hs).tabled hids
  obtain ⟨fuel, st, hst, hmap, hans⟩ := ((hready.printTable htable).printMessages_iff
    (fun s hs => (hfits s hs).2) messages).mpr hk
  refine ⟨fuel, st.1, rows, st.2, ?_, hmap, hans⟩
  simp only [LinkState.printResults, htable, hst, Option.bind_eq_bind, Option.bind_some]

/-- `graph.size()`. -/
theorem DistanceVector.Ready.size {dv : DistanceVector} (h : DistanceVector.Ready T dv) :
    dv.graph.keys.length = T.nodes.card := by
  rw [← h.wf.refines.nodesOf_eq, nodesOf, List.toFinset_card_of_nodup dv.graph.keys_nodup]

/-- What `print_results` of the distance-vector program does after its table. -/
theorem DistanceVector.Ready.printResults {dv : DistanceVector} (h : DistanceVector.Ready T dv) :
    ∃ dv₁ rows, DistanceVector.Ready T dv₁ ∧
      ∀ fuel messages, DistanceVector.printResults fuel dv messages =
        if 8 ≤ T.nodes.card then
          (DistanceVector.printMessages fuel dv₁ messages).map fun st => (st.1, rows, st.2)
        else some (dv₁, rows, []) := by
  obtain ⟨dv₁, rows, htable, -⟩ := DistanceVector.printTable_spec h.wf
  have hready := h.printTable htable
  refine ⟨dv₁, rows, hready, fun fuel messages => ?_⟩
  simp only [DistanceVector.printResults, htable, Option.bind_eq_bind, Option.bind_some,
    hready.size]
  split_ifs
  · cases DistanceVector.printMessages fuel dv₁ messages <;> rfl
  · rfl

end Results

/-- **The distance-vector program reports the messages of a phase exactly if its graph has eight
nodes or more**, or if there are none: for messages between nodes, at every point of a run after a
build. The link-state program reports them for every graph. -/
theorem results_iff {T : Topology} {dv : DistanceVector} (hdv : DistanceVector.Ran T true dv)
    (messages : List Message) (hk : ∀ m ∈ messages, T.Knows m) :
    (∃ fuel dv' rows reports,
      DistanceVector.printResults fuel dv messages = some (dv', rows, reports) ∧
      T.Reported messages reports ∧
      ∀ ls, LinkState.Ran T true ls → T.NonnegIds → ∃ fuelL ls' rowsL reportsL,
        LinkState.printResults fuelL ls messages = some (ls', rowsL, reportsL) ∧
        reports.map Report.answer = reportsL.map Report.answer) ↔
      8 ≤ T.nodes.card ∨ messages = [] := by
  obtain ⟨hfits, hready⟩ := hdv.inv.2.2.1 rfl
  obtain ⟨dv₁, rows, hready₁, hprint⟩ := hready.printResults
  -- what is reported is what the other program reports
  have hagree : ∀ reports, T.Reported messages reports →
      ∀ ls, LinkState.Ran T true ls → T.NonnegIds → ∃ fuelL ls' rowsL reportsL,
        LinkState.printResults fuelL ls messages = some (ls', rowsL, reportsL) ∧
        reports.map Report.answer = reportsL.map Report.answer := by
    intro reports hrep ls hls hids
    obtain ⟨fuelL, ls', rowsL, reportsL, hL, hrepL⟩ := hls.printResults hids hk
    exact ⟨fuelL, ls', rowsL, reportsL, hL, hrep.unique hrepL⟩
  constructor
  · rintro ⟨fuel, dv', rows', reports, hres, hrep, -⟩
    by_cases hsize : 8 ≤ T.nodes.card
    · exact Or.inl hsize
    · rw [hprint, if_neg hsize] at hres
      obtain ⟨-, hpair⟩ := Prod.mk.inj (Option.some.inj hres)
      obtain ⟨-, rfl⟩ := Prod.mk.inj hpair
      exact Or.inr hrep.messages.symm
  · intro hcond
    by_cases hsize : 8 ≤ T.nodes.card
    · obtain ⟨fuel, st, hst, hmap, hans⟩ :=
        (hready₁.printMessages_iff hfits.2 messages).mpr hk
      refine ⟨fuel, st.1, rows, st.2, ?_, ⟨hmap, hans⟩, hagree st.2 ⟨hmap, hans⟩⟩
      rw [hprint, if_pos hsize, hst]
      rfl
    · obtain rfl := hcond.resolve_left hsize
      have hrep : T.Reported [] [] := ⟨rfl, fun r hr => absurd hr List.not_mem_nil⟩
      exact ⟨0, dv₁, rows, [], by rw [hprint, if_neg hsize], hrep, hagree [] hrep⟩

/-- A node and seven neighbours. -/
def DistanceVector.starRouter : DistanceVector :=
  (DistanceVector.buildNodesForwardingTables (IterOrder.listed _) 10
    ([(1, 2, 8), (1, 3, 1), (1, 4, 1), (1, 5, 2), (1, 6, 1), (1, 7, 1), (1, 8, 1)].foldl
      (fun dv l => dv.buildLine l.1 l.2.1 l.2.2) DistanceVector.init)).getD DistanceVector.init

/-- The topology of the star. -/
def starTopology : Topology :=
  Topology.ofLines [(1, 2, 8), (1, 3, 1), (1, 4, 1), (1, 5, 2), (1, 6, 1), (1, 7, 1), (1, 8, 1)]

/-- A message in a graph of eight nodes is reported. -/
theorem results_iff_star :
    ∃ fuel dv' rows reports, DistanceVector.printResults fuel DistanceVector.starRouter
        [⟨2, 5, ["hello"]⟩] = some (dv', rows, reports) ∧
      starTopology.Reported [⟨2, 5, ["hello"]⟩] reports := by
  have hrun : DistanceVector.Ran starTopology true DistanceVector.starRouter :=
    .build (.line (.line (.line (.line (.line (.line (.line .init 1 2 8 (by decide)) 1 3 1
      (by decide)) 1 4 1 (by decide)) 1 5 2 (by decide)) 1 6 1 (by decide)) 1 7 1 (by decide))
      1 8 1 (by decide)) (IterOrder.listed _) 10
      (DistanceVector.exchangeFits_of_costSum (by decide +kernel))
      (eq_some_getD (by decide +kernel))
  obtain ⟨fuel, dv', rows, reports, hres, hrep, -⟩ := (results_iff hrun [⟨2, 5, ["hello"]⟩] (by
    intro m hm
    obtain rfl := List.mem_singleton.mp hm
    exact ⟨by decide, by decide⟩)).mpr (Or.inl (by decide))
  exact ⟨fuel, dv', rows, reports, hres, hrep⟩

/-- **A message that is not reported**: the graph of the sample's topology file has two nodes, and a
message from one to the other is left out. -/
theorem results_missing :
    (∀ m ∈ [(⟨1, 2, ["hello"]⟩ : Message)], (Topology.empty.line 1 2 8).Knows m) ∧
      DistanceVector.Ran (Topology.empty.line 1 2 8) true DistanceVector.sampleRouter ∧
      ∀ fuel, ∃ dv' rows, DistanceVector.printResults fuel DistanceVector.sampleRouter
        [⟨1, 2, ["hello"]⟩] = some (dv', rows, []) := by
  have hrun : DistanceVector.Ran (Topology.empty.line 1 2 8) true DistanceVector.sampleRouter :=
    .build (.line .init 1 2 8 (by decide)) (IterOrder.listed _) 10
      (DistanceVector.exchangeFits_of_costSum (by decide +kernel))
      (eq_some_getD (by decide +kernel))
  refine ⟨fun m hm => ?_, hrun, fun fuel => ?_⟩
  · obtain rfl := List.mem_singleton.mp hm
    exact ⟨by decide, by decide⟩
  · obtain ⟨dv₁, rows, -, hprint⟩ := (hrun.inv.2.2.1 rfl).2.printResults
    exact ⟨dv₁, rows, (hprint _ _).trans (if_neg (by decide))⟩

end NetworkingLearning.Routing
