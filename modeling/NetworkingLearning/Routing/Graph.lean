import Mathlib.Data.List.AList
import Mathlib.Data.List.Sort
import NetworkingLearning.Paths.Walk

/-!
# The graph both routers build (`linkstate.cpp`, `distvec.cpp`)

Model of `build_graph` (`linkstate.cpp:187-228`, `distvec.cpp:129-171`). `Link_State` and
`Distance_Vector` each keep `map<int, Node*> graph` and build it line by line. What a node knows of
its links is the same in both programs: `vector<int> neibours` and `unordered_map<int, int> edges`,
changed by `remove_nei` and `add_or_updateNei` (`linkstate.cpp:43-62`, `distvec.cpp:50-70`). That
part is `Links` here; the rest of a node differs, so the graph is generic in the node type
(`NodeClass`).

* A map keyed by `int` is an `AList` over `ℤ` (`IntMap`). `std::map` iterates in key order
  (`sortedKeys`). An `unordered_map` iterates in an order of its own, which `IterOrder` leaves open:
  any permutation of the entries, chosen anew at every iteration.
* `find(k)->second` is `lookup`, with `none` for a dereferenced `end()`; `m[k]` is `touch` (the
  default `0` is inserted when `k` is missing) followed by the value.
* `buildGraph` is the body of `build_graph` after `str_split` and `stoi`: the line's three numbers.
  The two blocks of the source, one for each end of the link, are `buildEnd`.
* A `Node*` is only ever reached through `graph`, so nodes are values in the map.
* A line of a printed table is a `Row`; its source is the node whose table it stands in (the
  programs print the other three columns). A line of the message file is a `Message`, and what is
  printed for it a `Report`.

`Topology` is the abstract side: a set of nodes and a symmetric positive price of the pairs that are
linked. The structure has these facts as fields, so that no later result asks for them again.

Results:
* `Topology`: nodes and priced undirected links, with the facts every sequence of lines keeps.
* `Refines.line`: `buildGraph` does to the graph what `Topology.line` says, for every node type (the
  last line about a pair of nodes decides its link).
-/

namespace NetworkingLearning.Routing

open NetworkingLearning.Paths

/-- `map<int, α>` or `unordered_map<int, α>`. -/
abbrev IntMap (α : Type) := AList (fun _ : ℤ => α)

/-- The keys in the order a `std::map` iterates. -/
def sortedKeys {α : Type} (m : IntMap α) : List ℤ := m.keys.insertionSort (· ≤ ·)

/-- `m[k]` on a map of `int`: a missing key is inserted with the value `0`. -/
def touch (m : IntMap ℤ) (k : ℤ) : IntMap ℤ :=
  match m.lookup k with
  | some _ => m
  | none => m.insert k 0

/-- The value `m[k]` reads. -/
def valueAt (m : IntMap ℤ) (k : ℤ) : ℤ := (m.lookup k).getD 0

/-- The value at `k` changed in place, when there is one. -/
def modify {α : Type} (m : IntMap α) (k : ℤ) (f : α → α) : IntMap α :=
  match m.lookup k with
  | some a => m.insert k (f a)
  | none => m

/-- The entries of a map of `int`, in some order. -/
abbrev Entries := List (Σ _ : ℤ, ℤ)

/-- The order an `unordered_map` is iterated in: at every iteration (named by a `κ`) some
permutation of its entries. -/
structure IterOrder (κ : Type) where
  order : κ → Entries → Entries
  perm : ∀ k l, (order k l).Perm l

/-- A line of a printed table. -/
structure Row where
  source : ℤ
  dest : ℤ
  next : ℤ
  cost : ℤ
  deriving DecidableEq

/-- A row without its next hop. -/
def Row.entry (r : Row) : ℤ × ℤ × ℤ := (r.source, r.dest, r.cost)

/-- A line of the message file: its ids and the words after them, as they are printed. -/
structure Message where
  src : ℤ
  dst : ℤ
  words : List String
  deriving DecidableEq

/-- What is printed for a message: the cost and the hops of its route, `none` for a destination
that is reported as unreachable. -/
structure Report where
  message : Message
  route : Option (ℤ × List ℤ)
  deriving DecidableEq

/-- The line `fprintf` writes for a report. -/
def Report.text (r : Report) : String :=
  let head := s!"from {r.message.src} to {r.message.dst} cost "
  let route := match r.route with
    | some (cost, hops) => s!"{cost} hops " ++ String.join (hops.map fun h => s!"{h} ")
    | none => "infinite hops unreachable "
  head ++ route ++ "message" ++ String.join (r.message.words.map fun w => s!" {w}")

/-- The pairs two nested loops over `graph` go through. -/
def allPairs {N : Type} (graph : IntMap N) : List (ℤ × ℤ) :=
  (sortedKeys graph).flatMap fun i => (sortedKeys graph).map fun j => (i, j)

/-- Every map iterated as its entries are listed. -/
def IterOrder.listed (κ : Type) : IterOrder κ := ⟨fun _ l => l, fun _ l => List.Perm.refl l⟩

/-! ## Links of one node -/

/-- The links of a node. `neibours` lists every key of `edges` once and nothing else: both
operations that change them keep it so. -/
structure Links where
  neibours : List ℤ
  edges : IntMap ℤ
  nodup : neibours.Nodup
  mem_iff : ∀ k, k ∈ neibours ↔ k ∈ edges

/-- A node without links. -/
def Links.empty : Links := ⟨[], ∅, List.nodup_nil, fun _ => by simp⟩

/-- `remove_nei`. -/
def Links.removeNei (n : Links) (neiId : ℤ) : Links :=
  if neiId ∈ n.edges then
    { neibours := n.neibours.erase neiId
      edges := n.edges.erase neiId
      nodup := n.nodup.erase neiId
      mem_iff := fun k => by rw [n.nodup.mem_erase_iff, AList.mem_erase, n.mem_iff] }
  else n

/-- `add_or_updateNei`. -/
def Links.addOrUpdateNei (n : Links) (neiId edgeCost : ℤ) : Links :=
  if h : neiId ∈ n.edges then
    { n with
      edges := n.edges.insert neiId edgeCost
      mem_iff := fun k => by
        rw [n.mem_iff, AList.mem_insert]
        exact ⟨Or.inr, fun hk => hk.elim (fun e => e ▸ h) id⟩ }
  else
    { neibours := n.neibours ++ [neiId]
      edges := n.edges.insert neiId edgeCost
      nodup := by
        rw [List.nodup_append]
        refine ⟨n.nodup, List.nodup_singleton _, fun a ha b hb e => h ?_⟩
        rw [← n.mem_iff, ← List.mem_singleton.mp hb, ← e]
        exact ha
      mem_iff := fun k => by
        rw [List.mem_append, List.mem_singleton, n.mem_iff, AList.mem_insert, or_comm] }

@[simp] theorem Links.lookup_removeNei (n : Links) (neiId k : ℤ) :
    (n.removeNei neiId).edges.lookup k = if k = neiId then none else n.edges.lookup k := by
  unfold Links.removeNei
  split
  · split
    · rename_i hk
      rw [hk, AList.lookup_erase]
    · rename_i hk
      exact AList.lookup_erase_ne hk
  · rename_i hn
    split
    · rename_i hk
      rw [hk]
      exact AList.lookup_eq_none.mpr hn
    · rfl

@[simp] theorem Links.lookup_addOrUpdateNei (n : Links) (neiId edgeCost k : ℤ) :
    (n.addOrUpdateNei neiId edgeCost).edges.lookup k =
      if k = neiId then some edgeCost else n.edges.lookup k := by
  have h : (n.addOrUpdateNei neiId edgeCost).edges = n.edges.insert neiId edgeCost := by
    unfold Links.addOrUpdateNei
    split <;> rfl
  rw [h]
  split
  · rename_i hk
    rw [hk, AList.lookup_insert]
  · rename_i hk
    exact AList.lookup_insert_ne hk

/-! ## One line of the graph -/

section Build

variable {N : Type}

/-- What the two node classes offer to `build_graph`. -/
structure NodeClass (N : Type) where
  new : ℤ → N
  removeNei : ℤ → N → N
  addOrUpdateNei : ℤ → ℤ → N → N
  links : N → Links
  links_new : ∀ k, links (new k) = Links.empty
  links_removeNei : ∀ k n, links (removeNei k n) = (links n).removeNei k
  links_addOrUpdateNei : ∀ k w n,
    links (addOrUpdateNei k w n) = (links n).addOrUpdateNei k w

variable (C : NodeClass N)

/-- One of the two blocks of `build_graph`: the end `node` of the line, with the other end
`nei`. -/
def buildEnd (graph : IntMap N) (node nei dist : ℤ) : IntMap N :=
  match graph.lookup node with
  | some n =>
    if dist > 0 then graph.insert node (C.addOrUpdateNei nei dist n)
    else graph.insert node (C.removeNei nei n)
  | none =>
    let n := C.new node
    if dist > 0 then (graph.insert node n).insert node (C.addOrUpdateNei nei dist n)
    else graph.insert node n

/-- `build_graph` on the numbers of its line. -/
def buildGraph (graph : IntMap N) (node1 node2 dist : ℤ) : IntMap N :=
  buildEnd C (buildEnd C graph node1 node2 dist) node2 node1 dist

/-- The price of the link from `u` to `v`: `graph[u]->edges[v]`. -/
def priceOf (graph : IntMap N) (u v : ℤ) : Option ℤ :=
  (graph.lookup u).bind fun n => (C.links n).edges.lookup v

/-- The ids in the graph. -/
def nodesOf (graph : IntMap N) : Finset ℤ := graph.keys.toFinset

@[simp] theorem mem_nodesOf {graph : IntMap N} {u : ℤ} : u ∈ nodesOf graph ↔ u ∈ graph := by
  simp [nodesOf, AList.mem_keys]

@[simp] theorem mem_buildEnd {graph : IntMap N} {node nei dist u : ℤ} :
    u ∈ buildEnd C graph node nei dist ↔ u = node ∨ u ∈ graph := by
  unfold buildEnd
  cases graph.lookup node <;> simp only <;> split <;> simp

/-- The link an end gets from a line. -/
theorem priceOf_buildEnd (graph : IntMap N) (node nei dist u v : ℤ) :
    priceOf C (buildEnd C graph node nei dist) u v =
      if u = node ∧ v = nei then (if 0 < dist then some dist else none)
      else priceOf C graph u v := by
  by_cases hu : u = node
  · subst hu
    unfold buildEnd priceOf
    cases h : graph.lookup u with
    | some n =>
      by_cases hd : 0 < dist
      · simp [hd, C.links_addOrUpdateNei]
      · simp [hd, C.links_removeNei]
    | none =>
      by_cases hd : 0 < dist
      · simp [hd, C.links_addOrUpdateNei, C.links_new, Links.empty]
      · simp [hd, C.links_new, Links.empty]
  · have hl : (buildEnd C graph node nei dist).lookup u = graph.lookup u := by
      unfold buildEnd
      cases graph.lookup node <;> simp only <;> split <;> simp [AList.lookup_insert_ne hu]
    simp [priceOf, hl, hu]

/-- What a new node has and the node operations keep holds of every node after one end of a
line. -/
theorem buildEnd_induction {p : ℤ → N → Prop} {graph : IntMap N} {node nei dist : ℤ}
    (hnew : p node (C.new node)) (hadd : ∀ n, p node n → p node (C.addOrUpdateNei nei dist n))
    (hrem : ∀ n, p node n → p node (C.removeNei nei n))
    (h : ∀ k n, graph.lookup k = some n → p k n) :
    ∀ k n, (buildEnd C graph node nei dist).lookup k = some n → p k n := by
  intro k n hn
  by_cases hk : k = node
  · subst hk
    unfold buildEnd at hn
    cases hl : graph.lookup k with
    | some n0 =>
      have hp := h k n0 hl
      by_cases hd : dist > 0 <;> simp only [hl, hd, if_true, if_false, AList.lookup_insert,
        Option.some.injEq] at hn <;> subst hn
      · exact hadd n0 hp
      · exact hrem n0 hp
    | none =>
      by_cases hd : dist > 0 <;> simp only [hl, hd, if_true, if_false, AList.lookup_insert,
        Option.some.injEq] at hn <;> subst hn
      · exact hadd _ hnew
      · exact hnew
  · refine h k n ?_
    rw [← hn]
    unfold buildEnd
    cases graph.lookup node <;> simp only <;> split <;> simp [AList.lookup_insert_ne hk]

@[simp] theorem mem_buildGraph {graph : IntMap N} {node1 node2 dist u : ℤ} :
    u ∈ buildGraph C graph node1 node2 dist ↔ u = node1 ∨ u = node2 ∨ u ∈ graph := by
  unfold buildGraph
  rw [mem_buildEnd, mem_buildEnd]
  tauto

/-- **A line decides the link between its two nodes**, in both directions, and no other. -/
theorem priceOf_buildGraph (graph : IntMap N) (node1 node2 dist u v : ℤ) :
    priceOf C (buildGraph C graph node1 node2 dist) u v =
      if (u = node1 ∧ v = node2) ∨ (u = node2 ∧ v = node1) then
        (if 0 < dist then some dist else none)
      else priceOf C graph u v := by
  unfold buildGraph
  rw [priceOf_buildEnd, priceOf_buildEnd]
  by_cases h1 : u = node1 ∧ v = node2 <;> by_cases h2 : u = node2 ∧ v = node1 <;> simp [h1, h2]

end Build

/-! ## Topologies -/

/-- Nodes and priced undirected links. -/
structure Topology where
  nodes : Finset ℤ
  price : ℤ → ℤ → Option ℤ
  positive : Positive price
  symmetric : Symmetric price
  within : Within price nodes

/-- No nodes, no links. -/
def Topology.empty : Topology where
  nodes := ∅
  price _ _ := none
  positive _ _ _ h := absurd h (by simp)
  symmetric _ _ := rfl
  within _ _ _ h := absurd h (by simp)

@[simp] theorem Topology.empty_nodes : Topology.empty.nodes = ∅ := rfl

@[simp] theorem Topology.empty_price (u v : ℤ) : Topology.empty.price u v = none := rfl

/-- The prices after a line: the pair the line names gets `dist`, or no link when `dist ≤ 0`. -/
def linePrice (price : ℤ → ℤ → Option ℤ) (node1 node2 dist u v : ℤ) : Option ℤ :=
  if (u = node1 ∧ v = node2) ∨ (u = node2 ∧ v = node1) then
    (if 0 < dist then some dist else none)
  else price u v

/-- Where a price after a line comes from. -/
theorem linePrice_eq_some {price : ℤ → ℤ → Option ℤ} {node1 node2 dist u v w : ℤ}
    (h : linePrice price node1 node2 dist u v = some w) :
    (((u = node1 ∧ v = node2) ∨ (u = node2 ∧ v = node1)) ∧ 0 < dist ∧ w = dist) ∨
      price u v = some w := by
  unfold linePrice at h
  split at h
  · rename_i hp
    split at h
    · rename_i hd
      exact Or.inl ⟨hp, hd, (Option.some.inj h).symm⟩
    · exact absurd h (by simp)
  · exact Or.inr h

/-- What a line means: both nodes exist, and the link between them has price `dist`, or is gone
when `dist ≤ 0`. -/
def Topology.line (T : Topology) (node1 node2 dist : ℤ) : Topology where
  nodes := insert node1 (insert node2 T.nodes)
  price := linePrice T.price node1 node2 dist
  positive u v w h := by
    rcases linePrice_eq_some h with ⟨-, hd, rfl⟩ | h
    · exact hd
    · exact T.positive u v w h
  symmetric u v := by
    have e : ((u = node1 ∧ v = node2) ∨ (u = node2 ∧ v = node1)) ↔
        ((v = node1 ∧ u = node2) ∨ (v = node2 ∧ u = node1)) := by tauto
    simp only [linePrice, e, T.symmetric u v]
  within u v w h := by
    simp only [Finset.mem_insert]
    rcases linePrice_eq_some h with ⟨hp, -⟩ | h
    · tauto
    · have := T.within u v w h
      tauto

/-- No id is negative. -/
def Topology.NonnegIds (T : Topology) : Prop := ∀ v ∈ T.nodes, 0 ≤ v

theorem Topology.NonnegIds.line {T : Topology} (h : T.NonnegIds) {node1 node2 : ℤ} (dist : ℤ)
    (h1 : 0 ≤ node1) (h2 : 0 ≤ node2) : (T.line node1 node2 dist).NonnegIds := by
  intro v hv
  simp only [Topology.line, Finset.mem_insert] at hv
  rcases hv with rfl | rfl | hv
  · exact h1
  · exact h2
  · exact h v hv

/-- The lines `(u, v, c)` in order, from the empty topology. -/
def Topology.ofLines (lines : List (ℤ × ℤ × ℤ)) : Topology :=
  lines.foldl (fun T l => T.line l.1 l.2.1 l.2.2) Topology.empty

/-- The sum of all link costs, each link once. -/
def Topology.costSum (T : Topology) : ℤ := linkSum T.price T.nodes

/-- The graph has the nodes and the links of the topology. -/
structure Refines {N : Type} (C : NodeClass N) (graph : IntMap N) (T : Topology) : Prop where
  nodes : ∀ u, u ∈ graph ↔ u ∈ T.nodes
  price : ∀ u v, priceOf C graph u v = T.price u v

section Refine

variable {N : Type} {C : NodeClass N} {graph : IntMap N} {T : Topology}

theorem Refines.empty : Refines C ∅ Topology.empty :=
  ⟨fun u => by simp, fun u v => by simp [priceOf]⟩

/-- **`build_graph` is `Topology.line`.** -/
theorem Refines.line (h : Refines C graph T) (node1 node2 dist : ℤ) :
    Refines C (buildGraph C graph node1 node2 dist) (T.line node1 node2 dist) := by
  constructor
  · intro u
    rw [mem_buildGraph, h.nodes]
    simp [Topology.line]
  · intro u v
    rw [priceOf_buildGraph, h.price]
    rfl

theorem Refines.nodesOf_eq (h : Refines C graph T) : nodesOf graph = T.nodes := by
  ext u
  rw [mem_nodesOf, h.nodes]

/-- The neighbours a node lists are the ends of its links. -/
theorem Refines.mem_neibours_iff (h : Refines C graph T) {u v : ℤ} {n : N}
    (hn : graph.lookup u = some n) : v ∈ (C.links n).neibours ↔ ∃ w, T.price u v = some w := by
  rw [(C.links n).mem_iff, ← AList.lookup_isSome, Option.isSome_iff_exists, ← h.price u v]
  simp [priceOf, hn]

theorem Refines.lookup_edges (h : Refines C graph T) {u : ℤ} {n : N}
    (hn : graph.lookup u = some n) (v : ℤ) : (C.links n).edges.lookup v = T.price u v := by
  rw [← h.price u v]
  simp [priceOf, hn]

/-- A change of nodes that keeps their links keeps the topology. -/
theorem Refines.congr (h : Refines C graph T) {graph' : IntMap N}
    (hl : ∀ u, (graph'.lookup u).map C.links = (graph.lookup u).map C.links) :
    Refines C graph' T := by
  constructor
  · intro u
    rw [← h.nodes u, ← AList.lookup_isSome, ← AList.lookup_isSome,
      ← Option.isSome_map (f := C.links), hl u, Option.isSome_map]
  · intro u v
    rw [← h.price u v]
    have := hl u
    unfold priceOf
    cases h1 : graph'.lookup u <;> cases h2 : graph.lookup u <;> simp_all

end Refine

/-! ## Maps -/

theorem eq_some_getD {α : Type} {o : Option α} {a : α} (h : o.isSome = true) :
    o = some (o.getD a) := by
  obtain ⟨b, rfl⟩ := Option.isSome_iff_exists.mp h
  rfl

@[simp] theorem mem_sortedKeys {α : Type} {m : IntMap α} {k : ℤ} : k ∈ sortedKeys m ↔ k ∈ m := by
  rw [sortedKeys, List.mem_insertionSort, AList.mem_keys]

theorem mem_allPairs {N : Type} {graph : IntMap N} {p : ℤ × ℤ} :
    p ∈ allPairs graph ↔ p.1 ∈ graph ∧ p.2 ∈ graph := by
  obtain ⟨i, j⟩ := p
  simp [allPairs]

theorem nodup_sortedKeys {α : Type} (m : IntMap α) : (sortedKeys m).Nodup :=
  (List.perm_insertionSort _ _).nodup_iff.mpr m.keys_nodup

theorem lookup_of_mem {α : Type} {m : IntMap α} {k : ℤ} (h : k ∈ m) : ∃ a, m.lookup k = some a :=
  Option.isSome_iff_exists.mp (AList.lookup_isSome.mpr h)

/-- Every router of the lines has its record. -/
theorem Refines.exists_lookup {N : Type} {C : NodeClass N} {graph : IntMap N} {T : Topology}
    (h : Refines C graph T) {u : ℤ} (hu : u ∈ T.nodes) : ∃ n, graph.lookup u = some n :=
  lookup_of_mem ((h.nodes u).mpr hu)

theorem lookup_modify {α : Type} (m : IntMap α) (k v : ℤ) (f : α → α) :
    (modify m k f).lookup v = if v = k then (m.lookup v).map f else m.lookup v := by
  unfold modify
  by_cases h : v = k
  · subst h
    cases hm : m.lookup v <;> simp [hm]
  · cases m.lookup k <;> simp [h, AList.lookup_insert_ne h]

/-- Changing every listed key in place. -/
theorem lookup_foldl_modify {α : Type} (f : ℤ → α → α) (v : ℤ) : ∀ (ks : List ℤ), ks.Nodup →
    ∀ m : IntMap α, (ks.foldl (fun m k => modify m k (f k)) m).lookup v =
      if v ∈ ks then (m.lookup v).map (f v) else m.lookup v := by
  intro ks
  induction ks with
  | nil => simp
  | cons k ks ih =>
    intro hn m
    obtain ⟨hk, hn⟩ := List.nodup_cons.mp hn
    rw [List.foldl_cons, ih hn, lookup_modify]
    by_cases h : v = k
    · subst h
      simp [hk]
    · simp [h]

@[simp] theorem touch_of_mem {m : IntMap ℤ} {k : ℤ} (h : k ∈ m) : touch m k = m := by
  obtain ⟨a, ha⟩ := lookup_of_mem h
  simp [touch, ha]

theorem valueAt_of_lookup {m : IntMap ℤ} {k a : ℤ} (h : m.lookup k = some a) :
    valueAt m k = a := by
  simp [valueAt, h]

theorem lookup_touch_ne {m : IntMap ℤ} {k x : ℤ} (h : x ≠ k) :
    (touch m k).lookup x = m.lookup x := by
  unfold touch
  split
  · rfl
  · exact AList.lookup_insert_ne h

theorem lookup_touch {m : IntMap ℤ} {x f : ℤ} (h : m.lookup x = some f) (j : ℤ) :
    (touch m j).lookup x = some f := by
  unfold touch
  cases hj : m.lookup j with
  | some _ => exact h
  | none =>
    have hx : x ≠ j := by
      rintro rfl
      exact absurd (h.symm.trans hj) (by simp)
    simp only [AList.lookup_insert_ne hx, h]

/-- What `touch` inserts is `0`. -/
theorem touch_cases {m : IntMap ℤ} {j x f : ℤ} (h : (touch m j).lookup x = some f) :
    f = 0 ∨ m.lookup x = some f := by
  unfold touch at h
  cases hj : m.lookup j with
  | some _ =>
    rw [hj] at h
    exact Or.inr h
  | none =>
    rw [hj] at h
    by_cases hx : x = j
    · subst hx
      simp only [AList.lookup_insert, Option.some.injEq] at h
      exact Or.inl h.symm
    · simp only [AList.lookup_insert_ne hx] at h
      exact Or.inr h

/-- What `m[k]` inserts reads as what was read before. -/
@[simp] theorem valueAt_touch (m : IntMap ℤ) (k x : ℤ) : valueAt (touch m k) x = valueAt m x := by
  by_cases h : x = k
  · subst h
    unfold touch
    split
    · rfl
    · rename_i hm
      simp [valueAt, hm]
  · rw [valueAt, lookup_touch_ne h, valueAt]

end NetworkingLearning.Routing
