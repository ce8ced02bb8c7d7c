import NetworkingLearning.Machine.Words
import NetworkingLearning.Routing.Graph

/-!
# The link-state router (`linkstate.cpp:17-315`)

Model of `Link_State`. Every node runs its own search over the whole graph and the router keeps, for
each root, the distances (`totalDistance`) and the predecessors (`prevOfThatNode`).

* `buildForwardingTable` (`linkstate.cpp:73-149`) is made of the search (`searchInit`, `search`; a
  pass of its loop is `searchStep`, and the loop over the neighbours `relaxNei`) and of the loop
  that fills the table (`forwardStep`; `firstHop` is the loop inside of it). `getIdxOfMinCost` is
  `linkstate.cpp:164-179`.
* `buildNodesForwardingTables` (`linkstate.cpp:244-250`) builds the tables of all nodes.
* `printTable` is the first part of `print_results` (`linkstate.cpp:252-265`), `printMessages` is
  `print_messages` (`linkstate.cpp:270-300`) of lines that are taken apart, and `nextHops` is
  `next_hops` (`linkstate.cpp:303-314`).
* `Reach` are the states that lines, builds and printing lead to, in any order.

Conventions:
* A result `none` stands for undefined behaviour of the source: a dereferenced `end()` or null
  pointer. A loop runs on `fuel`; `none` also stands for a loop that has not ended when the fuel is
  spent. That neither happens is part of the results about these functions.
* `distanceToRoot` is the only `unordered_map` that is iterated (`linkstate.cpp:167`); the
  `IterOrder` names an iteration by the root and the number of nodes visited before it.
* `visited` is a `set<int>`, of which only membership and size are used: a list without repetition.
* `dist + cost` is `addInt`: two's complement, where C++ leaves overflow undefined. `Sums` says when
  there is none.

Out of scope: what is never freed (the maps of an earlier build), and what goes to the terminal. How
a line of a file is taken apart is in `Splitting`, and `main` in `Programs` and `Files`.
-/

namespace NetworkingLearning.Routing

open NetworkingLearning.Machine NetworkingLearning.Paths

/-- `Link_State::Node`. -/
structure LinkState.Node where
  id : ℤ
  links : Links
  forwardingTable : IntMap ℤ

/-- `Link_State`. The two tables hold a pointer for each root, which `totalDistance[k]` and
`prevOfThatNode[k]` overwrite. -/
structure LinkState where
  graph : IntMap LinkState.Node
  prevOfThatNode : IntMap (IntMap ℤ)
  totalDistance : IntMap (IntMap ℤ)

namespace LinkState

/-- `Node(int id)`. -/
def Node.new (id : ℤ) : Node := ⟨id, Links.empty, (∅ : IntMap ℤ).insert id id⟩

/-- The node operations `build_graph` uses. -/
def nodeClass : NodeClass Node where
  new := Node.new
  removeNei k n := { n with links := n.links.removeNei k }
  addOrUpdateNei k w n := { n with links := n.links.addOrUpdateNei k w }
  links := Node.links
  links_new _ := rfl
  links_removeNei _ _ := rfl
  links_addOrUpdateNei _ _ _ := rfl

/-- `Link_State ls`. -/
def init : LinkState := ⟨∅, ∅, ∅⟩

@[simp] theorem init_graph : init.graph = ∅ := rfl

/-- `build_graph`. -/
def buildLine (ls : LinkState) (node1 node2 dist : ℤ) : LinkState :=
  { ls with graph := buildGraph nodeClass ls.graph node1 node2 dist }

/-! ## `build_forwarding_table` -/

/-- The loop body of `get_idx_of_min_cost` on `(min, ret)`. -/
def minStep (best : ℤ × ℤ) (e : Σ _ : ℤ, ℤ) : ℤ × ℤ :=
  if e.2 < best.1 then (e.2, e.1)
  else if e.2 = best.1 then
    (if best.2 = -1 ∨ e.1 < best.2 then (best.1, e.1) else best)
  else best

/-- `get_idx_of_min_cost`, on the entries in the order they are iterated. -/
def getIdxOfMinCost (map : Entries) : ℤ := (map.foldl minStep (intMax, -1)).2

/-- The local variables of the search. -/
structure Search where
  distanceToRoot : IntMap ℤ
  recordDist : IntMap ℤ
  prevs : IntMap ℤ
  visited : List ℤ
  forwardingTable : IntMap ℤ

/-- The loop over `cur->neibours`, one neighbour, on `(*distanceToRoot, *prevs)`. -/
def relaxNei (cur : Node) (curId dist : ℤ) (visited : List ℤ) (st : IntMap ℤ × IntMap ℤ)
    (nei : ℤ) : Option (IntMap ℤ × IntMap ℤ) :=
  if nei ∈ visited then some st
  else do
    let oldDist ← st.1.lookup nei
    let cost ← cur.links.edges.lookup nei
    let newDist := addInt dist cost
    if newDist < oldDist then
      some (st.1.insert nei newDist, st.2.insert nei curId)
    else if newDist = oldDist then
      -- `(*prevs)[nei]` is read here, and inserted when missing
      let prevs := touch st.2 nei
      if curId < valueAt prevs nei then some (st.1.insert nei newDist, prevs.insert nei curId)
      else some (st.1, prevs)
    else some st

/-- The body of `while (visited.size() < graph.size())` after the scan has picked `cur_id`. -/
def visit (graph : IntMap Node) (curId : ℤ) (st : Search) : Option Search := do
  let visited := if curId ∈ st.visited then st.visited else curId :: st.visited
  let dist ← st.distanceToRoot.lookup curId
  let recordDist := st.recordDist.insert curId dist
  if dist = intMax then
    some { distanceToRoot := st.distanceToRoot.erase curId
           recordDist := recordDist
           prevs := st.prevs.insert curId (-1)
           visited := visited
           forwardingTable := st.forwardingTable.insert curId (-1) }
  else do
    let cur ← graph.lookup curId
    let r ← cur.links.neibours.foldlM (relaxNei cur curId dist visited)
      (st.distanceToRoot.erase curId, st.prevs)
    some { distanceToRoot := r.1
           recordDist := recordDist
           prevs := r.2
           visited := visited
           forwardingTable := st.forwardingTable }

/-- The body of `while (visited.size() < graph.size())`. -/
def searchStep (ord : IterOrder (ℤ × ℕ)) (graph : IntMap Node) (this : ℤ) (st : Search) :
    Option Search :=
  visit graph (getIdxOfMinCost (ord.order (this, st.visited.length) st.distanceToRoot.entries)) st

/-- The loop `while (visited.size() < graph.size())`. -/
def search (ord : IterOrder (ℤ × ℕ)) (graph : IntMap Node) (this : ℤ) :
    ℕ → Search → Option Search
  | fuel, st =>
    if st.visited.length < graph.keys.length then
      match fuel with
      | 0 => none
      | fuel + 1 => (searchStep ord graph this st).bind (search ord graph this fuel)
    else some st

/-- The state before the loop. -/
def searchInit (graph : IntMap Node) (this : Node) : Search where
  distanceToRoot :=
    ((sortedKeys graph).foldl (fun (d : IntMap ℤ) k => d.insert k intMax) ∅).insert this.id 0
  recordDist := ∅
  prevs := (∅ : IntMap ℤ).insert this.id (-1)
  visited := []
  forwardingTable := this.forwardingTable

/-- `for (int p = prevs[next]; p != this->id; next = p, p = prevs[p]);`, the last `next`. -/
def firstHop (prevs : IntMap ℤ) (this : ℤ) : ℕ → ℤ → Option ℤ
  | fuel, next =>
    match prevs.lookup next with
    | none => none
    | some p =>
      if p = this then some next
      else
        match fuel with
        | 0 => none
        | fuel + 1 => firstHop prevs this fuel p

/-- The body of the last loop of `build_forwarding_table`, on `(*prevs, forwarding_table)`. -/
def forwardStep (this : ℤ) (fuel : ℕ) (st : IntMap ℤ × IntMap ℤ) (dest : ℤ) :
    Option (IntMap ℤ × IntMap ℤ) :=
  if dest = this then some st
  else
    let prevs := touch st.1 dest
    if valueAt prevs dest = -1 ∨ st.1.lookup dest = none then some (prevs, st.2)
    else do
      let next ← firstHop prevs this fuel dest
      some (prevs, st.2.insert dest next)

/-- `Node::build_forwarding_table`: the node afterwards, `recordDist` and `prevs`. -/
def buildForwardingTable (ord : IterOrder (ℤ × ℕ)) (graph : IntMap Node) (this : Node) :
    Option (Node × IntMap ℤ × IntMap ℤ) := do
  let n := graph.keys.length
  let st ← search ord graph this.id n (searchInit graph this)
  let r ← (sortedKeys graph).foldlM (forwardStep this.id n) (st.prevs, st.forwardingTable)
  some ({ this with forwardingTable := r.2 }, st.recordDist, r.1)

/-- The loop body of `build_nodes_forwarding_tables`. -/
def buildNode (ord : IterOrder (ℤ × ℕ)) (ls : LinkState) (k : ℤ) : Option LinkState := do
  let node ← ls.graph.lookup k
  let r ← buildForwardingTable ord ls.graph node
  some { graph := ls.graph.insert k r.1
         totalDistance := ls.totalDistance.insert node.id r.2.1
         prevOfThatNode := ls.prevOfThatNode.insert node.id r.2.2 }

/-- `build_nodes_forwarding_tables`. -/
def buildNodesForwardingTables (ord : IterOrder (ℤ × ℕ)) (ls : LinkState) : Option LinkState :=
  (sortedKeys ls.graph).foldlM (buildNode ord) ls

/-! ## Printing -/

/-- `Node::forwarding_hop`. -/
def Node.forwardingHop (n : Node) (destId : ℤ) : Option ℤ := n.forwardingTable.lookup destId

/-- The body of the two loops of `print_results`, with the rows printed so far. -/
def printStep (st : LinkState × List Row) (ij : ℤ × ℤ) : Option (LinkState × List Row) := do
  let node ← st.1.graph.lookup ij.1
  let next ← node.forwardingHop ij.2
  let dist ← st.1.totalDistance.lookup ij.1
  let dist := touch dist ij.2
  let ls := { st.1 with totalDistance := st.1.totalDistance.insert ij.1 dist }
  if next ≠ -1 then some (ls, st.2 ++ [⟨ij.1, ij.2, next, valueAt dist ij.2⟩])
  else some (ls, st.2)

/-- The table part of `print_results`. -/
def printTable (ls : LinkState) : Option (LinkState × List Row) :=
  (allPairs ls.graph).foldlM printStep (ls, [])

/-- The loop of `next_hops`. -/
def hopsLoop (prevs : IntMap ℤ) (src : ℤ) : ℕ → ℤ → Option (List ℤ)
  | fuel, curr =>
    if curr = src then some []
    else
      match prevs.lookup curr with
      | none => none
      | some prev =>
        match fuel with
        | 0 => none
        | fuel + 1 => (hopsLoop prevs src fuel prev).map (prev :: ·)

/-- `next_hops(from, to)`. -/
def nextHops (ls : LinkState) (fuel : ℕ) (src dst : ℤ) : Option (List ℤ) := do
  let prevs ← ls.prevOfThatNode.lookup src
  let result ← hopsLoop prevs src fuel dst
  some (result ++ [src])

/-- The hops `print_messages` prints: `next_hops` backwards from the last but one element. -/
def printedHops (hops : List ℤ) : List ℤ := hops.dropLast.reverse

/-- The loop body of `print_messages`, with the reports printed so far. -/
def printMessage (fuel : ℕ) (st : LinkState × List Report) (m : Message) :
    Option (LinkState × List Report) := do
  let distance ← st.1.totalDistance.lookup m.src
  let distance := touch distance m.dst
  let ls := { st.1 with totalDistance := st.1.totalDistance.insert m.src distance }
  let dist := valueAt distance m.dst
  if dist ≠ intMax then do
    let hops ← nextHops ls fuel m.src m.dst
    some (ls, st.2 ++ [⟨m, some (dist, printedHops hops)⟩])
  else some (ls, st.2 ++ [⟨m, none⟩])

/-- `print_messages`. -/
def printMessages (fuel : ℕ) (ls : LinkState) (messages : List Message) :
    Option (LinkState × List Report) :=
  messages.foldlM (printMessage fuel) (ls, [])

/-- `print_results`: the rows and the reports it prints. -/
def printResults (fuel : ℕ) (ls : LinkState) (messages : List Message) :
    Option (LinkState × List Row × List Report) := do
  let table ← printTable ls
  let r ← printMessages fuel table.1 messages
  some (r.1, table.2, r.2)

/-! ## Histories -/

/-- `Reach T ls`: the router `ls` after lines and table builds, and the topology the lines
describe. The ids of the lines are not negative, and the sum of all link costs is below `INT_MAX`
at every build. -/
inductive Reach : Topology → LinkState → Prop
  | init : Reach Topology.empty init
  | line {T : Topology} {ls : LinkState} (h : Reach T ls) (node1 node2 dist : ℤ)
      (h1 : 0 ≤ node1) (h2 : 0 ≤ node2) :
      Reach (T.line node1 node2 dist) (ls.buildLine node1 node2 dist)
  | build {T : Topology} {ls ls' : LinkState} (h : Reach T ls) (ord : IterOrder (ℤ × ℕ))
      (hsum : T.costSum < intMax) (hb : buildNodesForwardingTables ord ls = some ls') :
      Reach T ls'

end LinkState

end NetworkingLearning.Routing
