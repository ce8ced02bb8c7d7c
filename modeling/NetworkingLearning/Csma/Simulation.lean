import Mathlib.Algebra.GroupWithZero.Nat
import Mathlib.Data.Prod.Lex
import Mathlib.Data.Rat.Defs
import NetworkingLearning.Heaps.Heapq

/-!
# The CSMA simulation (`csma.py:7-155`)

Model of the classes `Node` (`csma.py:7-51`) and `CSMA` (`csma.py:54-155`), method by method and
under their names.

* `new`, `reset`, `collide`, `sentPacket` with `resetR`, `permuteR` and `randBackOff`: the methods
  of a node (`csma.py:8-51`). `key` is what `__lt__` compares (`csma.py:17-18`).
* `construct` and `reinitialize`: `__init__` (`csma.py:55-67`) and `_reinitialize`
  (`csma.py:69-87`).
* `simulate` (`csma.py:98-140`): `prepare` is its first lines, `simulateLoop` the loop and `finish`
  what is booked after it.
* `settle`, `branch` and `act` are the three parts of an iteration: the activity before is booked
  and the minimum read (`csma.py:105-115`), the next activity is chosen, and started
  (`csma.py:116-132`). `collideLoop` is the loop over the nodes that collide (`csma.py:122-127`).
* `getUtil`, `getIdleFraction` and `getTotalCollisions` (`csma.py:142-146`, `csma.py:154-155`). The
  report that is made of them is in `Reports`.

Conventions:
* Python's integers are integers. A node is an object that one list holds once, so the nodes are a
  list of values, and what changes a node changes its entry. The root that `heapreplace` gets is
  such an entry, changed before (`replaceRoot`).
* The draws of `randint` are given as a list, used from the front. A function that draws returns
  what is left. `Error.draws` is no exception of the program: it says that the list has run out or
  has a number that `randint` does not return. `randint(0, r)` with a negative `r` is a
  `ValueError`.
* An exception ends the program or leaves a model that is not used any more; its state is not kept.
* The loop of `simulate` runs on fuel; `Error.fuel` says that it has not ended. The loop over the
  nodes that collide needs none beyond one for each draw, since each turn of it draws.
* Quotients are exact. The program divides integers with `/`, which rounds to a float.

Out of scope: `name`, which nothing reads; `R` as anything but a tuple (the assertion of `__init__`
is in `Configs`); and the distribution of the draws, about which no result is: all of them are for
every sequence of draws.
-/

namespace NetworkingLearning.Csma

open NetworkingLearning.Heaps

/-- Why there is no result. -/
inductive Error
  | indexError
  | valueError
  | draws
  | fuel
  deriving DecidableEq

/-- What is left to draw. -/
abbrev Draws := List ℤ

/-- `randint(0, r)`. -/
def randint (r : ℤ) (draws : Draws) : Except Error (ℤ × Draws) :=
  if r < 0 then .error .valueError
  else
    match draws with
    | [] => .error .draws
    | d :: draws => if 0 ≤ d ∧ d ≤ r then .ok (d, draws) else .error .draws

/-! ## Nodes -/

/-- `Node`. -/
structure Node where
  id : ℤ
  rList : List ℤ
  rId : ℕ
  collCeil : ℤ
  numColls : ℕ
  numTrans : ℕ
  countDownVal : ℤ
  deriving DecidableEq

namespace Node

/-- What `__lt__` compares. -/
def key (node : Node) : ℤ ×ₗ ℤ := toLex (node.countDownVal, node.id)

/-- `r_val`. -/
def rVal (node : Node) : Except Error ℤ :=
  match node.rList[node.rId]? with
  | some r => .ok r
  | none => .error .indexError

/-- `has_timeout`. -/
def hasTimeout (node : Node) : Bool := decide (node.countDownVal < 1)

@[simp] theorem hasTimeout_iff (node : Node) : node.hasTimeout = true ↔ node.countDownVal < 1 :=
  decide_eq_true_iff

/-- `_reset_r`. -/
def resetR (R : Option (List ℤ)) (node : Node) : Node :=
  { node with rList := R.getD node.rList, rId := 0 }

/-- `_permute_r`. -/
def permuteR (node : Node) : Node :=
  { node with rId := if (node.rId : ℤ) + 1 > node.collCeil then 0 else node.rId + 1 }

/-- `_rand_back_off`. -/
def randBackOff (node : Node) (draws : Draws) : Except Error (Node × Draws) := do
  let r ← node.rVal
  let (d, draws) ← randint r draws
  return ({ node with countDownVal := d }, draws)

/-- `Node(idx, R, M)`. -/
def new (R : List ℤ) (M : ℤ) (idx : ℤ) (draws : Draws) : Except Error (Node × Draws) :=
  randBackOff ⟨idx, R, 0, M, 0, 0, 0⟩ draws

/-- `reset`. -/
def reset (R : Option (List ℤ)) (node : Node) (draws : Draws) : Except Error (Node × Draws) :=
  randBackOff { resetR R node with numColls := 0, numTrans := 0 } draws

/-- `collide`. -/
def collide (node : Node) (draws : Draws) : Except Error (Node × Draws) :=
  randBackOff (permuteR { node with numColls := node.numColls + 1 }) draws

/-- `sent_packet`. -/
def sentPacket (node : Node) (draws : Draws) : Except Error (Node × Draws) :=
  randBackOff { node with numTrans := node.numTrans + 1 } draws

/-- `node.count_down_val -= t`. -/
def countDown (t : ℤ) (node : Node) : Node :=
  { node with countDownVal := node.countDownVal - t }

end Node

/-! ## Models -/

/-- What `CSMA` reads of its `config`. -/
structure Config where
  N : ℤ
  L : ℤ
  R : List ℤ
  M : ℤ
  T : ℤ

/-- `CSMA`. -/
structure CSMA where
  numNodes : ℤ
  packetLen : ℤ
  rList : List ℤ
  collCeil : ℤ
  tolTime : ℤ
  nodes : List Node
  sendingTime : ℤ
  idleTime : ℤ
  collTime : ℤ
  deriving DecidableEq

/-- `range(a, b)`. -/
def range (a b : ℤ) : List ℤ := (List.range (b - a).toNat).map fun (i : ℕ) => a + (i : ℤ)

/-- `nodes[:N]`. -/
def sliceTo (nodes : List Node) (N : ℤ) : List Node :=
  if 0 ≤ N then nodes.take N.toNat else nodes.take (nodes.length + N).toNat

/-- A function that draws, on one entry after another. -/
def mapDraws {β : Type} (f : β → Draws → Except Error (Node × Draws)) :
    List β → Draws → Except Error (List Node × Draws)
  | [], draws => .ok ([], draws)
  | x :: xs, draws => do
    let (node, draws) ← f x draws
    let (nodes, draws) ← mapDraws f xs draws
    return (node :: nodes, draws)

/-- `CSMA(config)`. -/
def construct (config : Config) (draws : Draws) : Except Error (CSMA × Draws) := do
  let (nodes, draws) ← mapDraws (Node.new config.R config.M) (range 0 config.N) draws
  return (⟨config.N, config.L, config.R, config.M, config.T, heapify Node.key nodes, 0, 0, 0⟩,
    draws)

/-- `_reinitialize`. -/
def reinitialize (N L : Option ℤ) (R : Option (List ℤ)) (c : CSMA) (draws : Draws) :
    Except Error (CSMA × Draws) := do
  let kept :=
    match N with
    | some N => if N < c.numNodes then sliceTo c.nodes N else c.nodes
    | none => c.nodes
  let rList := R.getD c.rList
  let (kept, draws) ← mapDraws (Node.reset R) kept draws
  let (added, draws) ← mapDraws (Node.new rList c.collCeil)
    (match N with
    | some N => range c.numNodes N
    | none => []) draws
  return ({ c with
    numNodes := N.getD c.numNodes
    packetLen := L.getD c.packetLen
    rList := rList
    nodes := heapify Node.key (kept ++ added)
    sendingTime := 0
    idleTime := 0
    collTime := 0 }, draws)

/-- `min_candidate`. -/
def minCandidate (nodes : List Node) : Except Error Node :=
  match nodes with
  | node :: _ => .ok node
  | [] => .error .indexError

/-- `heapreplace` of the root by what has become of it. -/
def replaceRoot (nodes : List Node) (node : Node) : Except Error (List Node) :=
  match heapreplace Node.key nodes node with
  | some (_, nodes) => .ok nodes
  | none => .error .indexError

/-! ## An iteration of `simulate` -/

/-- The variables of `simulate`, and what is left to draw. -/
structure Run where
  csma : CSMA
  time : ℤ
  occupiedFlag : Bool
  nextIdleTime : ℤ
  draws : Draws
  deriving DecidableEq

/-- What the activity before has taken is booked. -/
def book (s : Run) : Except Error Run :=
  if s.occupiedFlag then do
    let node ← minCandidate s.csma.nodes
    let (node, draws) ← node.sentPacket s.draws
    let nodes ← replaceRoot s.csma.nodes node
    return { s with
      csma := { s.csma with
        sendingTime := s.csma.sendingTime + s.csma.packetLen
        nodes := nodes }
      occupiedFlag := false
      draws := draws }
  else if s.nextIdleTime > 0 then
    .ok { s with csma := { s.csma with
      idleTime := s.csma.idleTime + s.nextIdleTime
      nodes := s.csma.nodes.map (Node.countDown s.nextIdleTime) } }
  else .ok s

/-- The first part: up to where the minimum is read. -/
def settle (s : Run) : Except Error Run := do
  let s ← book s
  let node ← minCandidate s.csma.nodes
  return { s with nextIdleTime := node.countDownVal }

/-- The three activities. -/
inductive Branch
  | idle
  | collision
  | transmission
  deriving DecidableEq

/-- The second part: the activity that the first nodes of the list call for. -/
def branch (s : Run) : Except Error Branch :=
  if s.nextIdleTime > 0 then .ok .idle
  else
    match s.csma.nodes[1]? with
    | none => .error .indexError
    | some node =>
      if node.hasTimeout then .ok .collision
      else
        match s.csma.nodes[2]? with
        | none => .error .indexError
        | some node => .ok (if node.hasTimeout then .collision else .transmission)

/-- The loop over the nodes that collide: the nodes, and `timeout_again`. -/
def collideLoop : ℕ → List Node → List Node → Draws →
    Except Error (List Node × List Node × Draws)
  | fuel, nodes, timeoutAgain, draws => do
    let node ← minCandidate nodes
    if node.hasTimeout then
      match fuel with
      | 0 => .error .fuel
      | fuel + 1 => do
        let (node, draws) ← node.collide draws
        if node.hasTimeout then
          match heappop Node.key (nodes.set 0 node) with
          | some (node, nodes) => collideLoop fuel nodes (timeoutAgain ++ [node]) draws
          | none => .error .indexError
        else do
          let nodes ← replaceRoot (nodes.set 0 node) node
          collideLoop fuel nodes timeoutAgain draws
    else return (nodes, timeoutAgain, draws)

/-- The third part: the activity starts. -/
def act (s : Run) : Branch → Except Error Run
  | .idle => .ok { s with time := s.time + s.nextIdleTime }
  | .collision => do
    let (nodes, timeoutAgain, draws) ←
      collideLoop (s.draws.length + 1) s.csma.nodes [] s.draws
    return { s with
      csma := { s.csma with
        collTime := s.csma.collTime + 1
        nodes := timeoutAgain.foldl (heappush Node.key) nodes }
      time := s.time + 1
      draws := draws }
  | .transmission =>
    .ok { s with time := s.time + s.csma.packetLen, occupiedFlag := true }

/-- An iteration. -/
def iteration (s : Run) : Except Error Run := do
  let s ← settle s
  let b ← branch s
  act s b

/-! ## `simulate` -/

/-- The loop. -/
def simulateLoop : ℕ → Run → Except Error Run
  | fuel, s =>
    if s.time < s.csma.tolTime then
      match fuel with
      | 0 => .error .fuel
      | fuel + 1 => do
        let s ← iteration s
        simulateLoop fuel s
    else .ok s

/-- After the loop: what is booked of an activity that is not over at `tol_time`. -/
def finish (s : Run) : CSMA :=
  if s.occupiedFlag then
    { s.csma with
      sendingTime :=
        s.csma.sendingTime + (s.csma.tolTime - (s.time - s.csma.packetLen)) }
  else if s.nextIdleTime > 0 then
    { s.csma with
      idleTime := s.csma.idleTime + (s.csma.tolTime - (s.time - s.nextIdleTime)) }
  else s.csma

/-- The reinitialisation at the start of `simulate`, if it is asked for. -/
def prepare (N L : Option ℤ) (R : Option (List ℤ)) (c : CSMA) (draws : Draws) :
    Except Error (CSMA × Draws) :=
  if N.isSome ∨ L.isSome ∨ R.isSome then reinitialize N L R c draws else .ok (c, draws)

/-- The variables of `simulate` before its loop. -/
def Run.start (c : CSMA) (draws : Draws) : Run := ⟨c, 0, false, 0, draws⟩

@[simp] theorem Run.start_csma (c : CSMA) (draws : Draws) : (Run.start c draws).csma = c := rfl

@[simp] theorem Run.start_time (c : CSMA) (draws : Draws) : (Run.start c draws).time = 0 := rfl

@[simp] theorem Run.start_occupiedFlag (c : CSMA) (draws : Draws) :
    (Run.start c draws).occupiedFlag = false := rfl

/-- `simulate`. -/
def simulate (fuel : ℕ) (N L : Option ℤ) (R : Option (List ℤ)) (c : CSMA) (draws : Draws) :
    Except Error (CSMA × Draws) := do
  let (c, draws) ← prepare N L R c draws
  let s ← simulateLoop fuel (Run.start c draws)
  return (finish s, s.draws)

/-- `CSMA(config).simulate()`. -/
def constructAndSimulate (fuel : ℕ) (config : Config) (draws : Draws) :
    Except Error (CSMA × Draws) := do
  let (c, draws) ← construct config draws
  simulate fuel none none none c draws

/-- `get_util`, before the quotient is rounded. -/
def getUtil (c : CSMA) : ℚ := c.sendingTime / c.tolTime

/-- `get_idle_fraction`, before the quotient is rounded. -/
def getIdleFraction (c : CSMA) : ℚ := c.idleTime / c.tolTime

/-- `get_total_collisions`. -/
def getTotalCollisions (c : CSMA) : ℕ := (c.nodes.map Node.numColls).sum

end NetworkingLearning.Csma
