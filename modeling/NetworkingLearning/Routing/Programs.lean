import Mathlib.Data.Finset.Sort
import Mathlib.Data.Int.ConditionallyCompleteOrder
import NetworkingLearning.Routing.LinkStateTables
import NetworkingLearning.Routing.DistanceVectorTables

/-!
# The two programs side by side (`linkstate.cpp:317-356`, `distvec.cpp:290-329`)

`main` of either program reads the topology file line by line, builds and prints its tables, and
then does the same after every line of the changes file. A file is the list of its lines, each of
them three numbers.

* `print_results` also prints the messages of a third file. For messages between nodes of the graph
  this reads entries that are there and changes nothing, so the tables do not depend on it; it is
  left out. `Files` has `main` with all its files, and `Reported` shows that the tables in what it
  writes are the ones here.
* What a program prints for a phase is its list of `Row`s.
* `lastLine` is the last line of a list about a pair of ids, whichever end it names first. It
  decides whether the two are linked, and at which cost (`Replays`).

Results:
* `links_replayed`: the graph of either program after any lines.
* `Topology.IsTable`, `Topology.rows`: the distances of a topology and the rows they give, the
  meaning both programs have in common.
* `same_tables`: fed with the same files, both programs end and print the same rows up to the next
  hop, in every phase.
-/

namespace NetworkingLearning.Routing

open NetworkingLearning.Machine NetworkingLearning.Paths

/-- The numbers `u v c` of a line. -/
abbrev Line := ℤ × ℤ × ℤ

/-! ## The programs -/

namespace LinkState

/-- One phase of `main`. -/
def phase (ord : IterOrder (ℤ × ℕ)) (ls : LinkState) : Option (LinkState × List Row) := do
  let ls ← buildNodesForwardingTables ord ls
  printTable ls

/-- The loop of `main` over the changes file, from its `i`-th phase on. -/
def changes (ord : ℕ → IterOrder (ℤ × ℕ)) : ℕ → LinkState → List Line → Option (List (List Row))
  | _, _, [] => some []
  | i, ls, l :: lines => do
    let r ← phase (ord i) (ls.buildLine l.1 l.2.1 l.2.2)
    let tables ← changes ord (i + 1) r.1 lines
    some (r.2 :: tables)

/-- `main`: the tables it prints. -/
def main (ord : ℕ → IterOrder (ℤ × ℕ)) (topofile changesfile : List Line) :
    Option (List (List Row)) := do
  let r ← phase (ord 0) (topofile.foldl (fun ls l => ls.buildLine l.1 l.2.1 l.2.2) init)
  let tables ← changes ord 1 r.1 changesfile
  some (r.2 :: tables)

end LinkState

namespace DistanceVector

/-- One phase of `main`. -/
def phase (ord : IterOrder (ℕ × ℤ × ℕ)) (fuel : ℕ) (dv : DistanceVector) :
    Option (DistanceVector × List Row) := do
  let dv ← buildNodesForwardingTables ord fuel dv
  printTable dv

/-- The loop of `main` over the changes file, from its `i`-th phase on. -/
def changes (ord : ℕ → IterOrder (ℕ × ℤ × ℕ)) (fuel : ℕ) :
    ℕ → DistanceVector → List Line → Option (List (List Row))
  | _, _, [] => some []
  | i, dv, l :: lines => do
    let r ← phase (ord i) fuel (dv.buildLine l.1 l.2.1 l.2.2)
    let tables ← changes ord fuel (i + 1) r.1 lines
    some (r.2 :: tables)

/-- `main`: the tables it prints. -/
def main (ord : ℕ → IterOrder (ℕ × ℤ × ℕ)) (fuel : ℕ) (topofile changesfile : List Line) :
    Option (List (List Row)) := do
  let r ← phase (ord 0) fuel (topofile.foldl (fun dv l => dv.buildLine l.1 l.2.1 l.2.2) init)
  let tables ← changes ord fuel 1 r.1 changesfile
  some (r.2 :: tables)

end DistanceVector

/-! ## The graph after any lines -/

/-- The line is about the link between `u` and `v`, in either order. -/
def Line.Mentions (l : Line) (u v : ℤ) : Prop := (l.1 = u ∧ l.2.1 = v) ∨ (l.1 = v ∧ l.2.1 = u)

instance (l : Line) (u v : ℤ) : Decidable (l.Mentions u v) :=
  inferInstanceAs (Decidable ((l.1 = u ∧ l.2.1 = v) ∨ (l.1 = v ∧ l.2.1 = u)))

/-- The last line about the link between `u` and `v`. -/
def lastLine (lines : List Line) (u v : ℤ) : Option Line :=
  (lines.filter fun l => l.Mentions u v).getLast?

/-- The graph holds the ids of the lines, and for every link what its last line says; `neibours` of
a node lists the keys of its `edges`, each once. -/
structure Replays {N : Type} (C : NodeClass N) (graph : IntMap N) (lines : List Line) : Prop where
  nodes : ∀ u, u ∈ graph ↔ ∃ l ∈ lines, u = l.1 ∨ u = l.2.1
  edges : ∀ u v w, (∃ n, graph.lookup u = some n ∧ (C.links n).edges.lookup v = some w) ↔
    0 < w ∧ ∃ l, lastLine lines u v = some l ∧ l.2.2 = w
  symmetric : ∀ u v w, (∃ n, graph.lookup u = some n ∧ (C.links n).edges.lookup v = some w) →
    ∃ n, graph.lookup v = some n ∧ (C.links n).edges.lookup u = some w
  neibours : ∀ u n, graph.lookup u = some n → (C.links n).neibours.Nodup ∧
    ∀ v, v ∈ (C.links n).neibours ↔ v ∈ (C.links n).edges

section Lines

variable {lines : List Line} {l : Line} {u v w : ℤ}

@[simp] theorem Topology.ofLines_append (lines : List Line) (l : Line) :
    Topology.ofLines (lines ++ [l]) = (Topology.ofLines lines).line l.1 l.2.1 l.2.2 := by
  rw [Topology.ofLines, List.foldl_append]
  rfl

@[simp] theorem lastLine_append (lines : List Line) (l : Line) (u v : ℤ) :
    lastLine (lines ++ [l]) u v = if l.Mentions u v then some l else lastLine lines u v := by
  rw [lastLine, List.filter_append]
  by_cases h : l.Mentions u v
  · rw [if_pos h, List.filter_cons_of_pos (by simpa using h), List.getLast?_append]
    rfl
  · rw [if_neg h, List.filter_cons_of_neg (by simpa using h), List.filter_nil, List.append_nil,
      lastLine]

theorem Topology.mem_ofLines (lines : List Line) (u : ℤ) :
    u ∈ (Topology.ofLines lines).nodes ↔ ∃ l ∈ lines, u = l.1 ∨ u = l.2.1 := by
  induction lines using List.reverseRecOn with
  | nil => simp [Topology.ofLines]
  | append_singleton lines l ih =>
    have hline : u ∈ ((Topology.ofLines lines).line l.1 l.2.1 l.2.2).nodes ↔
        u = l.1 ∨ u = l.2.1 ∨ u ∈ (Topology.ofLines lines).nodes := by
      simp only [Topology.line, Finset.mem_insert]
    rw [Topology.ofLines_append, hline, ih]
    constructor
    · rintro (h | h | ⟨l', hl', h⟩)
      · exact ⟨l, by simp, Or.inl h⟩
      · exact ⟨l, by simp, Or.inr h⟩
      · exact ⟨l', List.mem_append_left _ hl', h⟩
    · rintro ⟨l', hl', h⟩
      rcases List.mem_append.mp hl' with hl' | hl'
      · exact Or.inr (Or.inr ⟨l', hl', h⟩)
      · obtain rfl := List.mem_singleton.mp hl'
        exact h.imp_right Or.inl

/-- **The last line about a link decides it.** -/
theorem Topology.price_ofLines (lines : List Line) (u v w : ℤ) :
    (Topology.ofLines lines).price u v = some w ↔
      0 < w ∧ ∃ l, lastLine lines u v = some l ∧ l.2.2 = w := by
  induction lines using List.reverseRecOn with
  | nil => simp [Topology.ofLines, lastLine]
  | append_singleton lines l ih =>
    have hpair : (u = l.1 ∧ v = l.2.1) ∨ (u = l.2.1 ∧ v = l.1) ↔ l.Mentions u v := by
      unfold Line.Mentions
      tauto
    have hprice : ((Topology.ofLines lines).line l.1 l.2.1 l.2.2).price u v =
        if l.Mentions u v then (if 0 < l.2.2 then some l.2.2 else none)
        else (Topology.ofLines lines).price u v := by
      simp only [Topology.line, linePrice, hpair]
    rw [Topology.ofLines_append, hprice, lastLine_append]
    by_cases h : l.Mentions u v
    · rw [if_pos h, if_pos h]
      constructor
      · intro hw
        split at hw
        · rename_i hpos
          obtain rfl := Option.some.inj hw
          exact ⟨hpos, l, rfl, rfl⟩
        · cases hw
      · rintro ⟨hpos, l', hl', rfl⟩
        obtain rfl := Option.some.inj hl'
        exact if_pos hpos
    · rw [if_neg h, if_neg h]
      exact ih

/-- A graph with the topology of the lines. -/
theorem Refines.replays {N : Type} {C : NodeClass N} {graph : IntMap N}
    (h : Refines C graph (Topology.ofLines lines)) : Replays C graph lines := by
  have hprice : ∀ u v w, (∃ n, graph.lookup u = some n ∧ (C.links n).edges.lookup v = some w) ↔
      (Topology.ofLines lines).price u v = some w := by
    intro u v w
    rw [← h.price u v, priceOf, Option.bind_eq_some_iff]
  refine ⟨fun u => ?_, fun u v w => ?_, fun u v w hw => ?_, fun u n _ => ?_⟩
  · rw [h.nodes, Topology.mem_ofLines]
  · rw [hprice, Topology.price_ofLines]
  · rw [hprice] at hw ⊢
    rw [← hw]
    exact (Topology.ofLines lines).symmetric v u
  · exact ⟨(C.links n).nodup, (C.links n).mem_iff⟩

end Lines

/-! ## What a phase means -/

namespace Topology

/-- `D` gives the shortest distances of the topology, `INT_MAX` where there is no path. -/
def IsTable (T : Topology) (D : ℤ → ℤ → ℤ) : Prop :=
  ∀ s ∈ T.nodes, ∀ t ∈ T.nodes, (Reachable T.price s t → IsDist T.price s t (D s t)) ∧
    (¬ Reachable T.price s t → D s t = intMax)

/-- The pairs of nodes in the order both programs go through them. -/
def pairs (T : Topology) : List (ℤ × ℤ) :=
  T.nodes.sort.flatMap fun i => T.nodes.sort.map fun j => (i, j)

/-- Source, destination and distance of the pairs with a finite distance. -/
def rows (T : Topology) (D : ℤ → ℤ → ℤ) : List (ℤ × ℤ × ℤ) :=
  T.pairs.flatMap fun p => if D p.1 p.2 < intMax then [(p.1, p.2, D p.1 p.2)] else []

variable {T : Topology} {D D' : ℤ → ℤ → ℤ}

theorem IsTable.unique (h : T.IsTable D) (h' : T.IsTable D') {s t : ℤ} (hs : s ∈ T.nodes)
    (ht : t ∈ T.nodes) : D s t = D' s t := by
  obtain ⟨hr, hn⟩ := h s hs t ht
  obtain ⟨hr', hn'⟩ := h' s hs t ht
  by_cases hreach : Reachable T.price s t
  · exact (hr hreach).unique (hr' hreach)
  · rw [hn hreach, hn' hreach]

/-- A topology has one list of rows. -/
theorem IsTable.rows_eq (h : T.IsTable D) (h' : T.IsTable D') : T.rows D = T.rows D' := by
  unfold rows
  refine List.flatMap_congr fun p hp => ?_
  obtain ⟨i, hi, hp⟩ := List.mem_flatMap.mp hp
  obtain ⟨j, hj, rfl⟩ := List.mem_map.mp hp
  rw [h.unique h' ((Finset.mem_sort _).mp hi) ((Finset.mem_sort _).mp hj)]

end Topology

theorem Refines.sortedKeys_eq {N : Type} {C : NodeClass N} {graph : IntMap N} {T : Topology}
    (h : Refines C graph T) : sortedKeys graph = T.nodes.sort := by
  have hset : (sortedKeys graph).toFinset = T.nodes := by
    ext u
    rw [List.mem_toFinset, mem_sortedKeys, h.nodes]
  rw [← hset]
  exact ((List.toFinset_sort (· ≤ ·) (nodup_sortedKeys graph)).mpr
    (List.pairwise_insertionSort _ _)).symm

theorem Refines.allPairs_eq {N : Type} {C : NodeClass N} {graph : IntMap N} {T : Topology}
    (h : Refines C graph T) : allPairs graph = T.pairs := by
  rw [allPairs, Topology.pairs, h.sortedKeys_eq]

/-! ## The runs of both programs -/

/-- What the tables of the phases after `T` are: for every line of the changes file the rows of
the topology it leads to. -/
inductive TablesOf : Topology → List Line → List (List Row) → Prop
  | nil (T : Topology) : TablesOf T [] []
  | cons {T : Topology} {l : Line} {lines : List Line} {rows : List Row}
      {tables : List (List Row)} {D : ℤ → ℤ → ℤ} (hD : (T.line l.1 l.2.1 l.2.2).IsTable D)
      (hrows : rows.map Row.entry = (T.line l.1 l.2.1 l.2.2).rows D)
      (h : TablesOf (T.line l.1 l.2.1 l.2.2) lines tables) :
      TablesOf T (l :: lines) (rows :: tables)

/-- The tables of the phases are determined up to the next hop. -/
theorem TablesOf.unique {T : Topology} {lines : List Line} {tables tables' : List (List Row)}
    (h : TablesOf T lines tables) (h' : TablesOf T lines tables') :
    tables.map (List.map Row.entry) = tables'.map (List.map Row.entry) := by
  induction h generalizing tables' with
  | nil =>
    cases h'
    rfl
  | cons hD hrows _ ih =>
    cases h' with
    | cons hD' hrows' h' =>
      rw [List.map_cons, List.map_cons, hrows, hrows', hD.rows_eq hD', ih h']

/-- The ids of the lines are not negative. -/
def IdsOk (lines : List Line) : Prop := ∀ l ∈ lines, 0 ≤ l.1 ∧ 0 ≤ l.2.1

theorem Topology.NonnegIds.foldl_line : ∀ (lines : List Line) {T : Topology}, T.NonnegIds →
    IdsOk lines → (lines.foldl (fun T l => T.line l.1 l.2.1 l.2.2) T).NonnegIds := by
  intro lines
  induction lines with
  | nil => exact fun hT _ => hT
  | cons l lines ih =>
    intro T hT hids
    obtain ⟨h1, h2⟩ := hids l List.mem_cons_self
    exact ih (hT.line l.2.2 h1 h2) fun x hx => hids x (List.mem_cons_of_mem l hx)

/-- Twice the sum of the costs stays below `INT_MAX` in every phase after `T`. -/
def SumsOk : Topology → List Line → Prop
  | _, [] => True
  | T, l :: lines =>
    2 * (T.line l.1 l.2.1 l.2.2).costSum < intMax ∧ SumsOk (T.line l.1 l.2.1 l.2.2) lines

namespace LinkState

variable {T : Topology} {ls : LinkState}

theorem isTable_distances (hT : ∀ s ∈ T.nodes, Tabled T ls s) (hsum : T.costSum < intMax) :
    T.IsTable (distances ls) := by
  intro s hs t ht
  obtain ⟨n, record, prevs, -, hrec, -, htab⟩ := hT s hs
  obtain ⟨d, hd⟩ := lookup_of_mem (htab.mem_record t ht)
  rw [show distances ls s t = d by simp [distances, hrec, hd]]
  exact htab.isDist hs hsum hd

theorem phase_spec (ord : IterOrder (ℤ × ℕ)) (hW : Wf T ls) (hids : T.NonnegIds)
    (hsum : T.costSum < intMax) :
    ∃ ls' rows D, phase ord ls = some (ls', rows) ∧ Wf T ls' ∧ T.IsTable D ∧
      rows.map Row.entry = T.rows D := by
  obtain ⟨ls1, h1, hW1, hT⟩ := buildNodesForwardingTables_spec ord hW (bounded_of_costSum hsum)
  have hT1 : ∀ s ∈ T.nodes, Tabled T ls1 s := fun s hs => (hT s hs).tabled hids
  obtain ⟨ls', rows, h', hW', hr⟩ := printTable_spec hW1 hids hT1
  refine ⟨ls', rows, distances ls1, ?_, hW', isTable_distances hT1 hsum, ?_⟩
  · unfold phase
    simp only [h1, h', Option.bind_eq_bind, Option.bind_some]
  · rw [hr, hW1.refines.allPairs_eq]
    rfl

theorem Wf.foldl_line : ∀ (lines : List Line) {T : Topology} {ls : LinkState}, Wf T ls →
    Wf (lines.foldl (fun T l => T.line l.1 l.2.1 l.2.2) T)
      (lines.foldl (fun ls l => ls.buildLine l.1 l.2.1 l.2.2) ls) := by
  intro lines
  induction lines with
  | nil => exact fun hW => hW
  | cons l lines ih =>
    intro T ls hW
    exact ih (hW.line l.1 l.2.1 l.2.2)

theorem changes_spec (ord : ℕ → IterOrder (ℤ × ℕ)) : ∀ (lines : List Line) {T : Topology}
    {ls : LinkState} (i : ℕ), Wf T ls → T.NonnegIds → IdsOk lines → SumsOk T lines →
      ∃ tables, changes ord i ls lines = some tables ∧ TablesOf T lines tables := by
  intro lines
  induction lines with
  | nil => exact fun i _ _ _ _ => ⟨[], rfl, TablesOf.nil _⟩
  | cons l lines ih =>
    rintro T ls i hW hT hids ⟨hsum, hsums⟩
    obtain ⟨h1, h2⟩ := hids l List.mem_cons_self
    have hT' := hT.line l.2.2 h1 h2
    have hnn : 0 ≤ (T.line l.1 l.2.1 l.2.2).costSum := linkSum_nonneg (Topology.positive _) _
    obtain ⟨ls', rows, D, hp, hW', hD, hr⟩ :=
      phase_spec (ord i) (hW.line l.1 l.2.1 l.2.2) hT' (by omega)
    obtain ⟨tables, ht, hTab⟩ :=
      ih (i + 1) hW' hT' (fun x hx => hids x (List.mem_cons_of_mem l hx)) hsums
    refine ⟨rows :: tables, ?_, TablesOf.cons hD hr hTab⟩
    unfold changes
    simp only [hp, ht, Option.bind_eq_bind, Option.bind_some]

end LinkState

namespace DistanceVector

variable {T : Topology} {dv : DistanceVector}

theorem Wf.isTable (hW : Wf T dv.graph)
    (hquiet : ∀ u n w, T.price u n = some w → ¬ Fresh dv.graph n) (hsum : T.costSum < intMax) :
    T.IsTable (labels dv.graph) := by
  intro u _ x hx
  have hL := hW.labelling hquiet hx
  have htop := hL.eq_top_iff (v := u) T.positive T.symmetric T.within hx hsum
  have hback := reachable_comm T.symmetric (s := x) (t := u)
  constructor
  · intro hr
    have hfin : labels dv.graph u x < intMax :=
      lt_of_le_of_ne (hL.le_top u) fun e => htop.mp e (hback.mpr hr)
    exact (hL.isDist T.positive hfin).symm T.symmetric
  · exact fun hn => htop.mpr fun hr => hn (hback.mp hr)

theorem phase_spec (ord : IterOrder (ℕ × ℤ × ℕ)) (hW : Wf T dv.graph)
    (hsum : 2 * T.costSum < intMax) :
    ∃ fuel dv' rows D, (∀ fuel', fuel ≤ fuel' → phase ord fuel' dv = some (dv', rows)) ∧
      Wf T dv'.graph ∧ T.IsTable D ∧ rows.map Row.entry = T.rows D := by
  obtain ⟨fuel, dv1, h1⟩ := hW.build_ends ord (bounded_of_costSum hsum)
  obtain ⟨hW1, hquiet⟩ := hW.build (bounded_of_costSum hsum) h1
  obtain ⟨dv', rows, hp, hW', -, hr⟩ := printTable_spec hW1
  have hnn : 0 ≤ T.costSum := linkSum_nonneg T.positive T.nodes
  refine ⟨fuel, dv', rows, labels dv1.graph, fun fuel' hle => ?_, hW',
    hW1.isTable hquiet (by omega), ?_⟩
  · obtain ⟨graph', he, rfl⟩ := Option.map_eq_some_iff.mp h1
    unfold phase
    simp only [buildNodesForwardingTables, exchange_fuel ord he hle, Option.map_some,
      Option.bind_eq_bind, Option.bind_some, hp]
  · rw [hr, hW1.refines.allPairs_eq]
    rfl

theorem Wf.foldl_line : ∀ (lines : List Line) {T : Topology} {dv : DistanceVector},
    Wf T dv.graph → Wf (lines.foldl (fun T l => T.line l.1 l.2.1 l.2.2) T)
      (lines.foldl (fun dv l => dv.buildLine l.1 l.2.1 l.2.2) dv).graph := by
  intro lines
  induction lines with
  | nil => exact fun hW => hW
  | cons l lines ih =>
    intro T dv hW
    have hW' : Wf (T.line l.1 l.2.1 l.2.2) (dv.buildLine l.1 l.2.1 l.2.2).graph :=
      hW.line l.1 l.2.1 l.2.2
    exact ih hW'

theorem changes_spec (ord : ℕ → IterOrder (ℕ × ℤ × ℕ)) : ∀ (lines : List Line) {T : Topology}
    {dv : DistanceVector} (i : ℕ), Wf T dv.graph → SumsOk T lines →
      ∃ fuel tables, (∀ fuel', fuel ≤ fuel' → changes ord fuel' i dv lines = some tables) ∧
        TablesOf T lines tables := by
  intro lines
  induction lines with
  | nil => exact fun i _ _ => ⟨0, [], fun _ _ => rfl, TablesOf.nil _⟩
  | cons l lines ih =>
    rintro T dv i hW ⟨hsum, hsums⟩
    have hline : Wf (T.line l.1 l.2.1 l.2.2) (dv.buildLine l.1 l.2.1 l.2.2).graph :=
      hW.line l.1 l.2.1 l.2.2
    obtain ⟨fuel, dv', rows, D, hp, hW', hD, hr⟩ := phase_spec (ord i) hline hsum
    obtain ⟨fuel1, tables, ht, hT⟩ := ih (i + 1) hW' hsums
    refine ⟨max fuel fuel1, rows :: tables, fun fuel' hle => ?_, TablesOf.cons hD hr hT⟩
    unfold changes
    simp only [hp fuel' (by omega), ht fuel' (by omega), Option.bind_eq_bind, Option.bind_some]

end DistanceVector

/-- **`build_graph` replays the last line about every link**, in both programs: after any lines the
graph has the ids they mention, the link between two of them is there exactly if its last line has
a positive cost, with that cost and in both directions, and the lists of neighbours are those of
the links. -/
theorem links_replayed (lines : List Line) :
    Replays LinkState.nodeClass
        (lines.foldl (fun ls l => ls.buildLine l.1 l.2.1 l.2.2) LinkState.init).graph lines ∧
      Replays DistanceVector.nodeClass
        (lines.foldl (fun dv l => dv.buildLine l.1 l.2.1 l.2.2) DistanceVector.init).graph lines :=
  ⟨(LinkState.Wf.foldl_line lines LinkState.Wf.init).refines.replays,
    (DistanceVector.Wf.foldl_line lines DistanceVector.Wf.init).refines.replays⟩

/-- A link that is changed, one that is removed, and a link of a node to itself. -/
example : (lastLine [(1, 2, 5), (2, 3, 1), (2, 1, 7), (3, 2, -1), (4, 4, 2)] 1 2,
    lastLine [(1, 2, 5), (2, 3, 1), (2, 1, 7), (3, 2, -1), (4, 4, 2)] 4 4) =
    (some (2, 1, 7), some (4, 4, 2)) := by decide

/-- **Both programs report the same tables**: for every topology file and changes file with ids
that are not negative and sums of costs below half of `INT_MAX` in every phase, in whatever order
the programs iterate their maps, both end, and in every phase print the same rows up to the next
hop. -/
theorem same_tables (ordL : ℕ → IterOrder (ℤ × ℕ)) (ordD : ℕ → IterOrder (ℕ × ℤ × ℕ))
    (topofile changesfile : List Line) (hids : IdsOk (topofile ++ changesfile))
    (hsum : 2 * (Topology.ofLines topofile).costSum < intMax)
    (hsums : SumsOk (Topology.ofLines topofile) changesfile) :
    ∃ fuel tablesL tablesD, LinkState.main ordL topofile changesfile = some tablesL ∧
      DistanceVector.main ordD fuel topofile changesfile = some tablesD ∧
      tablesL.length = changesfile.length + 1 ∧
      tablesL.map (List.map Row.entry) = tablesD.map (List.map Row.entry) := by
  have hidsT : IdsOk topofile := fun l hl => hids l (List.mem_append_left _ hl)
  have hidsC : IdsOk changesfile := fun l hl => hids l (List.mem_append_right _ hl)
  have hnn : 0 ≤ (Topology.ofLines topofile).costSum := linkSum_nonneg (Topology.positive _) _
  have hsumL : (Topology.ofLines topofile).costSum < intMax := by omega
  have hnodes : (Topology.ofLines topofile).NonnegIds :=
    Topology.NonnegIds.foldl_line topofile (fun v hv => absurd hv (Finset.notMem_empty v)) hidsT
  obtain ⟨ls', rowsL, DL, hpL, hWL, hDL, hrL⟩ := LinkState.phase_spec (ordL 0)
    (LinkState.Wf.foldl_line topofile LinkState.Wf.init) hnodes hsumL
  obtain ⟨tabL, htL, hTL⟩ := LinkState.changes_spec ordL changesfile 1 hWL hnodes hidsC hsums
  obtain ⟨fuel, dv', rowsD, DD, hpD, hWD, hDD, hrD⟩ := DistanceVector.phase_spec (ordD 0)
    (DistanceVector.Wf.foldl_line topofile DistanceVector.Wf.init) hsum
  obtain ⟨fuel1, tabD, htD, hTD⟩ :=
    DistanceVector.changes_spec ordD changesfile 1 hWD hsums
  refine ⟨max fuel fuel1, rowsL :: tabL, rowsD :: tabD, ?_, ?_, ?_, ?_⟩
  · unfold LinkState.main
    simp only [hpL, htL, Option.bind_eq_bind, Option.bind_some]
  · unfold DistanceVector.main
    simp only [hpD _ (le_max_left fuel fuel1), htD _ (le_max_right fuel fuel1),
      Option.bind_eq_bind, Option.bind_some]
  · have hlen : ∀ {T : Topology} {lines : List Line} {tables : List (List Row)},
        TablesOf T lines tables → tables.length = lines.length := by
      intro T lines tables h
      induction h with
      | nil => rfl
      | cons _ _ _ ih => rw [List.length_cons, List.length_cons, ih]
    rw [List.length_cons, hlen hTL]
  · rw [List.map_cons, List.map_cons, hrL, hrD, hDL.rows_eq hDD, hTL.unique hTD]

/-- A link that the changes file removes again. -/
theorem same_tables_removed :
    ∃ fuel tablesL tablesD,
      LinkState.main (fun _ => IterOrder.listed _) [(1, 2, 5)] [(2, 1, -999)] = some tablesL ∧
      DistanceVector.main (fun _ => IterOrder.listed _) fuel [(1, 2, 5)] [(2, 1, -999)] =
        some tablesD ∧ tablesL.length = 2 ∧
      tablesL.map (List.map Row.entry) = tablesD.map (List.map Row.entry) :=
  same_tables (fun _ => IterOrder.listed _) (fun _ => IterOrder.listed _) [(1, 2, 5)]
    [(2, 1, -999)] (by unfold IdsOk; decide) (by decide +kernel)
    ⟨by decide +kernel, trivial⟩

end NetworkingLearning.Routing
