import NetworkingLearning.Machine.Words
import NetworkingLearning.Routing.Graph

/-!
# The distance-vector router (`distvec.cpp:18-288`)

Model of `Distance_Vector`. Every node keeps its distances and sends them to its neighbours in
rounds, as long as its `be_updated` flag is set.

* `Node.new`, `Node.initialDistanceOfNode` and `initialAllDist`: `distvec.cpp:30-35`,
  `distvec.cpp:80-85` and `distvec.cpp:258-266`. `buildLine` is `build_graph` of three numbers:
  `buildGraph`, and then all distances are reset.
* `sendUpdate` (`distvec.cpp:87-96`) appends to the queue of every neighbour. `Node.update`
  (`distvec.cpp:98-123`) goes through the queue: `takeVector` is one update, `takeEntry` one entry
  of it.
* `pass` is one round of `while (1)` and `exchange` the loop (`distvec.cpp:187-205`).
* `printTable` is the first part of `print_results` (`distvec.cpp:207-220`), `printMessages` is
  `print_messages` (`distvec.cpp:227-256`) of lines that are taken apart, and `nextHops` is
  `next_hops` (`distvec.cpp:279-287`).
* `Reach` are the states that lines, builds and printing lead to, in any order.

Conventions:
* As in `LinkState.lean`, `none` stands for undefined behaviour or for a loop whose fuel is spent.
* `send_update` reaches its neighbours through `graph[…]`, which would insert a null pointer for a
  missing key and then follow it: `none` here.
* The vectors in `updates_from_nei` are the only `unordered_map`s that are iterated
  (`distvec.cpp:103`); an iteration is named by the round, the node and the position in
  `updates_from_nei`.
* `distanceToThatNode[…]` and `forwarding_table[…]` insert `0` for a missing key, also where they
  are only read; `touch` is that. So printing changes the state, and returns it.
* Nodes are never removed from the graph, and `initial_all_dist` resets the distances after every
  line, but neither the forwarding tables nor the flags.

Out of scope: `initial_two_node_dist`, which nothing calls, the copy constructor of a node, which
nothing uses, and what goes to the terminal.
-/

namespace NetworkingLearning.Routing

open NetworkingLearning.Machine NetworkingLearning.Paths

/-- `Distance_Vector::Node`. -/
structure DistanceVector.Node where
  id : ℤ
  links : Links
  forwardingTable : IntMap ℤ
  distanceToThatNode : IntMap ℤ
  updatesFromNei : List (ℤ × IntMap ℤ)
  beUpdated : Bool

/-- `Distance_Vector`. -/
structure DistanceVector where
  graph : IntMap DistanceVector.Node

namespace DistanceVector

/-- `Node(int id)`. -/
def Node.new (id : ℤ) : Node where
  id := id
  links := Links.empty
  forwardingTable := (∅ : IntMap ℤ).insert id id
  distanceToThatNode := (∅ : IntMap ℤ).insert id 0
  updatesFromNei := []
  beUpdated := true

/-- The node operations `build_graph` uses. -/
def nodeClass : NodeClass Node where
  new := Node.new
  removeNei k n := { n with links := n.links.removeNei k }
  addOrUpdateNei k w n := { n with beUpdated := true, links := n.links.addOrUpdateNei k w }
  links := Node.links
  links_new _ := rfl
  links_removeNei _ _ := rfl
  links_addOrUpdateNei _ _ _ := rfl

/-- `Distance_Vector dv`. -/
def init : DistanceVector := ⟨∅⟩

@[simp] theorem init_graph : init.graph = ∅ := rfl

/-! ## `build_graph` -/

/-- `initial_distance_of_node`. -/
def Node.initialDistanceOfNode (n : Node) (nodeId : ℤ) : Node :=
  { n with beUpdated := true, distanceToThatNode := n.distanceToThatNode.insert nodeId intMax }

/-- The inner loop of `initial_all_dist` for the node with key `i`. -/
def Node.initialDist (keys : List ℤ) (i : ℤ) (n : Node) : Node :=
  keys.foldl (fun n j => if i ≠ j then n.initialDistanceOfNode j else n) n

/-- `initial_all_dist`. -/
def initialAllDist (graph : IntMap Node) : IntMap Node :=
  (sortedKeys graph).foldl (fun g i => modify g i (Node.initialDist (sortedKeys graph) i)) graph

/-- `build_graph`. Its argument `incremental` changes nothing. -/
def buildLine (dv : DistanceVector) (node1 node2 dist : ℤ) : DistanceVector :=
  ⟨initialAllDist (buildGraph nodeClass dv.graph node1 node2 dist)⟩

/-! ## `build_nodes_forwarding_tables` -/

/-- `graph[nei]->updates_from_nei.push_back(…)`. -/
def pushUpdate (msg : ℤ × IntMap ℤ) (graph : IntMap Node) (nei : ℤ) : Option (IntMap Node) := do
  let n ← graph.lookup nei
  some (graph.insert nei { n with updatesFromNei := n.updatesFromNei ++ [msg] })

/-- `send_update` of the node with key `k`. -/
def sendUpdate (graph : IntMap Node) (k : ℤ) : Option (IntMap Node × Bool) := do
  let n ← graph.lookup k
  if n.beUpdated then do
    let graph ← n.links.neibours.foldlM (pushUpdate (n.id, n.distanceToThatNode)) graph
    some (graph, decide (n.links.neibours.length ≠ 0))
  else some (graph, false)

/-- The inner loop body of `update_distance_and_forwarding_table`: one entry of the vector of
`nei`, on the node and `is_changed`. -/
def takeEntry (nei : ℤ) (st : Node × Bool) (e : Σ _ : ℤ, ℤ) : Option (Node × Bool) := do
  let neiEdge ← st.1.links.edges.lookup nei
  if neiEdge = intMax ∨ e.2 = intMax then some st
  else
    let newDist := addInt neiEdge e.2
    let dist := touch st.1.distanceToThatNode e.1
    if valueAt dist e.1 > newDist then
      some ({ st.1 with
        distanceToThatNode := dist.insert e.1 newDist
        forwardingTable := st.1.forwardingTable.insert e.1 nei }, true)
    else if valueAt dist e.1 = newDist then
      let fwd := touch st.1.forwardingTable e.1
      if valueAt fwd e.1 > nei then
        some ({ st.1 with
          distanceToThatNode := dist
          forwardingTable := fwd.insert e.1 nei }, true)
      else some ({ st.1 with distanceToThatNode := dist, forwardingTable := fwd }, st.2)
    else some ({ st.1 with distanceToThatNode := dist }, st.2)

/-- The outer loop body: the vector `msg.1`, at position `msg.2` of `updates_from_nei`. -/
def takeVector (ord : IterOrder (ℕ × ℤ × ℕ)) (round : ℕ) (st : Node × Bool)
    (msg : (ℤ × IntMap ℤ) × ℕ) : Option (Node × Bool) :=
  (ord.order (round, st.1.id, msg.2) msg.1.2.entries).foldlM (takeEntry msg.1.1) st

/-- `update_distance_and_forwarding_table`. -/
def Node.update (ord : IterOrder (ℕ × ℤ × ℕ)) (round : ℕ) (n : Node) : Option (Node × Bool) := do
  let st ← n.updatesFromNei.zipIdx.foldlM (takeVector ord round) (n, false)
  some ({ st.1 with updatesFromNei := [], beUpdated := st.2 }, st.2)

/-- The body of the first loop of a round, on the graph and `count`. -/
def sendStep (st : IntMap Node × ℕ) (k : ℤ) : Option (IntMap Node × ℕ) := do
  let r ← sendUpdate st.1 k
  some (r.1, if r.2 then st.2 + 1 else st.2)

/-- The body of the second loop of a round. -/
def updateStep (ord : IterOrder (ℕ × ℤ × ℕ)) (round : ℕ) (st : IntMap Node × ℕ) (k : ℤ) :
    Option (IntMap Node × ℕ) := do
  let n ← st.1.lookup k
  let r ← n.update ord round
  some (st.1.insert k r.1, if r.2 then st.2 + 1 else st.2)

/-- The body of `while (1)`, and whether the loop goes on: both `break`s give `false`. -/
def pass (ord : IterOrder (ℕ × ℤ × ℕ)) (round : ℕ) (graph : IntMap Node) :
    Option (IntMap Node × Bool) := do
  let sent ← (sortedKeys graph).foldlM sendStep (graph, 0)
  if sent.2 = 0 then some (sent.1, false)
  else do
    let updated ← (sortedKeys sent.1).foldlM (updateStep ord round) (sent.1, 0)
    some (updated.1, decide (updated.2 ≠ 0))

/-- The loop `while (1)`. -/
def exchange (ord : IterOrder (ℕ × ℤ × ℕ)) : ℕ → ℕ → IntMap Node → Option (IntMap Node)
  | 0, _, _ => none
  | fuel + 1, round, graph => do
    let r ← pass ord round graph
    if r.2 then exchange ord fuel (round + 1) r.1 else some r.1

/-- `build_nodes_forwarding_tables`. -/
def buildNodesForwardingTables (ord : IterOrder (ℕ × ℤ × ℕ)) (fuel : ℕ) (dv : DistanceVector) :
    Option DistanceVector :=
  (exchange ord fuel 0 dv.graph).map DistanceVector.mk

/-! ## Printing -/

/-- The body of the two loops of `print_results`, with the rows printed so far. -/
def printStep (st : IntMap Node × List Row) (ij : ℤ × ℤ) : Option (IntMap Node × List Row) := do
  let n ← st.1.lookup ij.1
  let dist := touch n.distanceToThatNode ij.2
  let fwd := touch n.forwardingTable ij.2
  let graph := st.1.insert ij.1 { n with distanceToThatNode := dist, forwardingTable := fwd }
  let cost := valueAt dist ij.2
  if cost ≠ intMax ∧ cost ≥ 0 then
    some (graph, st.2 ++ [⟨ij.1, ij.2, valueAt fwd ij.2, cost⟩])
  else some (graph, st.2)

/-- The table part of `print_results`. -/
def printTable (dv : DistanceVector) : Option (DistanceVector × List Row) := do
  let st ← (allPairs dv.graph).foldlM printStep (dv.graph, [])
  some (⟨st.1⟩, st.2)

/-- The loop of `next_hops`, from the node `curr`. -/
def hopsLoop (dst : ℤ) : ℕ → IntMap Node → ℤ → Option (IntMap Node × List ℤ)
  | 0, _, _ => none
  | fuel + 1, graph, curr => do
    let n ← graph.lookup curr
    let fwd := touch n.forwardingTable dst
    let graph := graph.insert curr { n with forwardingTable := fwd }
    let next := valueAt fwd dst
    let m ← graph.lookup next
    if m.id ≠ dst then do
      let r ← hopsLoop dst fuel graph next
      some (r.1, n.id :: r.2)
    else some (graph, [n.id])

/-- `next_hops(from, to)`. -/
def nextHops (dv : DistanceVector) (fuel : ℕ) (src dst : ℤ) : Option (DistanceVector × List ℤ) := do
  let r ← hopsLoop dst fuel dv.graph src
  some (⟨r.1⟩, r.2)

/-- The loop body of `print_messages`, with the reports printed so far. -/
def printMessage (fuel : ℕ) (st : DistanceVector × List Report) (m : Message) :
    Option (DistanceVector × List Report) := do
  let fromNode ← st.1.graph.lookup m.src
  let distance := touch fromNode.distanceToThatNode m.dst
  let dv : DistanceVector :=
    ⟨st.1.graph.insert m.src { fromNode with distanceToThatNode := distance }⟩
  let dist := valueAt distance m.dst
  if dist ≠ intMax ∧ dist ≥ 0 then do
    let r ← nextHops dv fuel m.src m.dst
    some (r.1, st.2 ++ [⟨m, some (dist, r.2)⟩])
  else some (dv, st.2 ++ [⟨m, none⟩])

/-- `print_messages`. -/
def printMessages (fuel : ℕ) (dv : DistanceVector) (messages : List Message) :
    Option (DistanceVector × List Report) :=
  messages.foldlM (printMessage fuel) (dv, [])

/-- `print_results`: the rows and the reports it prints. -/
def printResults (fuel : ℕ) (dv : DistanceVector) (messages : List Message) :
    Option (DistanceVector × List Row × List Report) := do
  let table ← printTable dv
  if table.1.graph.keys.length ≥ 8 then do
    let r ← printMessages fuel table.1 messages
    some (r.1, table.2, r.2)
  else some (table.1, table.2, [])

/-! ## Histories -/

/-- `Reach T dv`: the router `dv` after lines, table builds and printed tables, and the topology
the lines describe. The ids of the lines are not negative, and twice the sum of all link costs is
below `INT_MAX` at every build. -/
inductive Reach : Topology → DistanceVector → Prop
  | init : Reach Topology.empty init
  | line {T : Topology} {dv : DistanceVector} (h : Reach T dv) (node1 node2 dist : ℤ)
      (h1 : 0 ≤ node1) (h2 : 0 ≤ node2) :
      Reach (T.line node1 node2 dist) (dv.buildLine node1 node2 dist)
  | build {T : Topology} {dv dv' : DistanceVector} (h : Reach T dv)
      (ord : IterOrder (ℕ × ℤ × ℕ)) (fuel : ℕ) (hsum : 2 * T.costSum < intMax)
      (hb : buildNodesForwardingTables ord fuel dv = some dv') : Reach T dv'
  | print {T : Topology} {dv dv' : DistanceVector} {rows : List Row} (h : Reach T dv)
      (hp : printTable dv = some (dv', rows)) : Reach T dv'

end DistanceVector

end NetworkingLearning.Routing
