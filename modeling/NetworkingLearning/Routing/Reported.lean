import NetworkingLearning.Routing.Outputs

/-!
# The tables in what is written (`linkstate.cpp`, `distvec.cpp`)

`Programs` has `main` of either program without its message file: the tables that
`build_nodes_forwarding_tables` and `print_results` make, phase by phase (`linkstate.cpp:317-356`,
`distvec.cpp:290-330`). `Files` has all that `main` writes to `output.txt`. Here the first is found
in the second. What a phase writes is `resultsText` of its table and its reports, and the tables are
those of the programs without messages: `print_messages` reads entries that the build has made, and
leaves the next build what it would have found.

* This is so while the topologies of all phases fit, as `Outputs` has it for every output. After a
  sum beyond `INT_MAX` the tables are no longer those of the topology.

Results:
* `LinkState.main_eq`, `DistanceVector.main_eq`: the tables of the programs without messages are
  those of the topologies on the way.
* `LinkState.output_main`, `DistanceVector.output_main`: they are the tables in what is written.
* `outputs_tables`: so the two outputs have, phase by phase, the same rows up to the next hop.
-/

namespace NetworkingLearning.Routing

open NetworkingLearning.Machine NetworkingLearning.Paths NetworkingLearning.Text

/-- The text of every phase: its table, and its reports. -/
def phasesText (tables : List (List Row)) (reports : List (List Report)) : String :=
  String.join (List.zipWith resultsText tables reports)

/-- The tables are those of `main` for the lines of the files, and are what is written, with reports
behind each of them. -/
def TablesIn (main : List Line → List Line → Option (List (List Row)))
    (topofile changesfile : Str) (tables : List (List Row)) (out : String) : Prop :=
  ∃ topo changes reports, ReadsLines (getlines topofile) topo ∧
    ReadsLines (getlines changesfile) changes ∧ main topo changes = some tables ∧
    reports.length = tables.length ∧ out = phasesText tables reports

section Tables

/-- The rows of a table up to the next hop are those of the distances. -/
theorem Topology.table_entry (T : Topology) (hop : ℤ → ℤ → ℤ) :
    (T.table hop).map Row.entry = T.rows T.dist := by
  rw [table, List.map_flatMap, rows]
  refine List.flatMap_congr fun p _ => ?_
  unfold row
  split_ifs <;> rfl

theorem phasesText_map {α : Type} (f : α → List Row) (g : α → List Report) (l : List α) :
    phasesText (l.map f) (l.map g) = String.join (l.map fun a => resultsText (f a) (g a)) := by
  rw [phasesText, List.zipWith_map, List.zipWith_self]

end Tables

namespace LinkState

variable {T : Topology} {ls : LinkState} {b : Bool} {fuel : ℕ} {out : String}
  {topofile messagefile changesfile : Str}

/-- One phase. -/
theorem Ran.phase_eq (h : Ran T b ls) (hfits : SearchFits T) (hids : T.NonnegIds)
    (ord : IterOrder (ℤ × ℕ)) :
    ∃ ls', phase ord ls = some (ls', T.table T.hopFrom) ∧ Ran T true ls' := by
  obtain ⟨ls1, hb, -⟩ := buildNodesForwardingTables_spec ord h.inv.1 (bounded_of_fits hfits)
  have hran := h.build ord hfits hb
  obtain ⟨hfits1, hready⟩ := hran.inv.2 rfl
  obtain ⟨ls', htable, -⟩ := hready.printTable_eq hids fun s hs => (hfits1 s hs).2
  refine ⟨ls', ?_, hran.table htable⟩
  unfold phase
  simp only [hb, htable, Option.bind_eq_bind, Option.bind_some]

/-- The phases of the changes file. -/
theorem Ran.changes_eq (ord : ℕ → IterOrder (ℤ × ℕ)) {lines : List Str} {changes : List Line}
    (hreads : ReadsLines lines changes) {i : ℕ} (h : Ran T b ls)
    (hfits : ∀ U ∈ T.after changes, SearchFits U ∧ U.NonnegIds) :
    LinkState.changes ord i ls changes =
      some ((T.after changes).map fun U => U.table U.hopFrom) := by
  induction hreads generalizing T ls b i with
  | nil => rfl
  | @cons line l lines changes hl _ ih =>
    obtain ⟨⟨hfit, hids⟩, hfits⟩ := List.forall_mem_cons.mp hfits
    obtain ⟨ls', hphase, hran⟩ :=
      (h.line l.1 l.2.1 l.2.2 (readLine_le hl)).phase_eq hfit hids (ord i)
    rw [LinkState.changes, hphase, Option.bind_eq_bind, Option.bind_some, ih hran hfits]
    rfl

/-- **The tables of the program without messages** are those of the topologies on the way. -/
theorem main_eq (ord : ℕ → IterOrder (ℤ × ℕ)) {topo changes : List Line}
    (htopo : ReadsLines (getlines topofile) topo)
    (hchanges : ReadsLines (getlines changesfile) changes)
    (hfits : FilesFit (fun U => SearchFits U ∧ U.NonnegIds) topofile changesfile) :
    main ord topo changes =
      some ((Topology.phases topo changes).map fun U => U.table U.hopFrom) := by
  obtain ⟨⟨hfit, hids⟩, hfits⟩ := List.forall_mem_cons.mp (hfits topo changes htopo hchanges)
  obtain ⟨b, h⟩ := (phased ord 0 noLines).foldl_line ⟨false, .init⟩ htopo
  obtain ⟨ls', hphase, hran⟩ := h.phase_eq hfit hids (ord 0)
  rw [main, hphase, Option.bind_eq_bind, Option.bind_some, hran.changes_eq ord hchanges hfits]
  rfl

/-- **They are the tables in what is written.** -/
theorem output_main (ord : ℕ → IterOrder (ℤ × ℕ))
    (hfits : FilesFit (fun U => SearchFits U ∧ U.NonnegIds) topofile changesfile)
    (hfuel : 2 * ((getlines topofile).length + (getlines changesfile).length) < fuel)
    (h : output ord fuel topofile messagefile changesfile = some out) :
    ∃ topo changes, ReadsLines (getlines topofile) topo ∧
      ReadsLines (getlines changesfile) changes ∧
      TablesIn (main ord) topofile changesfile
        ((Topology.phases topo changes).map fun U => U.table U.hopFrom) out := by
  obtain ⟨topo, changes, texts, htopo, hchanges, htexts, rfl⟩ :=
    ((phased ord fuel messagefile).mainText_iff ⟨false, .init⟩ (fueled hfits hfuel)).mp h
  obtain ⟨messages, -, rfl⟩ := forall₂_results.mp htexts
  refine ⟨topo, changes, htopo, hchanges, topo, changes,
    (Topology.phases topo changes).map fun U => messages.map (U.report U.hopsFrom), htopo, hchanges,
    main_eq ord htopo hchanges hfits, ?_, ?_⟩
  · rw [List.length_map, List.length_map]
  · rw [phasesText_map]
    rfl

end LinkState

namespace DistanceVector

variable {T : Topology} {dv : DistanceVector} {b : Bool} {fuel : ℕ} {out : String}
  {topofile messagefile changesfile : Str}

/-- One phase. -/
theorem Ran.phase_eq (h : Ran T b dv) (hfits : ExchangeFits T) (hfuel : max 1 T.nodes.card ≤ fuel)
    (ord : IterOrder (ℕ × ℤ × ℕ)) :
    ∃ dv', phase ord fuel dv = some (dv', T.table T.hopTo) ∧ Ran T true dv' := by
  obtain ⟨dv1, hb⟩ := h.build_within hfits ord
  have hran := h.build ord fuel hfits (hb fuel hfuel)
  obtain ⟨hfits1, hready⟩ := hran.inv.2.2.1 rfl
  obtain ⟨dv', htable, -⟩ := hready.printTable_eq hfits1.2
  refine ⟨dv', ?_, hran.table htable⟩
  unfold phase
  simp only [hb fuel hfuel, htable, Option.bind_eq_bind, Option.bind_some]

/-- The phases of the changes file. -/
theorem Ran.changes_eq (ord : ℕ → IterOrder (ℕ × ℤ × ℕ)) {lines : List Str} {changes : List Line}
    (hreads : ReadsLines lines changes) {i : ℕ} (h : Ran T b dv)
    (hfits : ∀ U ∈ T.after changes, ExchangeFits U ∧ max 1 U.nodes.card ≤ fuel) :
    DistanceVector.changes ord fuel i dv changes =
      some ((T.after changes).map fun U => U.table U.hopTo) := by
  induction hreads generalizing T dv b i with
  | nil => rfl
  | @cons line l lines changes hl _ ih =>
    obtain ⟨⟨hfit, hfuel⟩, hfits⟩ := List.forall_mem_cons.mp hfits
    obtain ⟨dv', hphase, hran⟩ :=
      (h.line l.1 l.2.1 l.2.2 (readLine_le hl)).phase_eq hfit hfuel (ord i)
    rw [DistanceVector.changes, hphase, Option.bind_eq_bind, Option.bind_some, ih hran hfits]
    rfl

/-- **The tables of the program without messages** are those of the topologies on the way. -/
theorem main_eq (ord : ℕ → IterOrder (ℕ × ℤ × ℕ)) {topo changes : List Line}
    (htopo : ReadsLines (getlines topofile) topo)
    (hchanges : ReadsLines (getlines changesfile) changes)
    (hfits : FilesFit (fun U => ExchangeFits U ∧ max 1 U.nodes.card ≤ fuel) topofile changesfile) :
    main ord fuel topo changes =
      some ((Topology.phases topo changes).map fun U => U.table U.hopTo) := by
  obtain ⟨⟨hfit, hfuel⟩, hfits⟩ := List.forall_mem_cons.mp (hfits topo changes htopo hchanges)
  obtain ⟨b, h⟩ := (phased ord 0 noLines).foldl_line ⟨false, .init⟩ htopo
  obtain ⟨dv', hphase, hran⟩ := h.phase_eq hfit hfuel (ord 0)
  rw [main, hphase, Option.bind_eq_bind, Option.bind_some, hran.changes_eq ord hchanges hfits]
  rfl

/-- **They are the tables in what is written.** -/
theorem output_main (ord : ℕ → IterOrder (ℕ × ℤ × ℕ))
    (hfits : FilesFit ExchangeFits topofile changesfile)
    (hfuel : 2 * ((getlines topofile).length + (getlines changesfile).length) < fuel)
    (h : output ord fuel topofile messagefile changesfile = some out) :
    ∃ topo changes, ReadsLines (getlines topofile) topo ∧
      ReadsLines (getlines changesfile) changes ∧
      TablesIn (main ord fuel) topofile changesfile
        ((Topology.phases topo changes).map fun U => U.table U.hopTo) out := by
  obtain ⟨topo, changes, texts, htopo, hchanges, htexts, rfl⟩ :=
    ((phased ord fuel messagefile).mainText_iff ⟨false, .init⟩ (hfits.fueled hfuel)).mp h
  obtain ⟨messages, -, rfl⟩ := forall₂_writes.mp htexts
  refine ⟨topo, changes, htopo, hchanges, topo, changes,
    (Topology.phases topo changes).map fun U =>
      if 8 ≤ U.nodes.card then messages.map (U.report U.hopsTo) else [], htopo, hchanges,
    main_eq ord htopo hchanges (hfits.fueled hfuel), ?_, ?_⟩
  · rw [List.length_map, List.length_map]
  · rw [phasesText_map]
    rfl

end DistanceVector

section Outputs

variable {topofile messagefile changesfile : Str} {fuel : ℕ} {outL outD : String}
  {ordL : ℕ → IterOrder (ℤ × ℕ)} {ordD : ℕ → IterOrder (ℕ × ℤ × ℕ)}

/-- **The two outputs have the same rows** up to the next hop, phase by phase, whatever ties there
are and whatever messages are reported behind them. -/
theorem outputs_tables (hfits : FilesFit Topology.Fits topofile changesfile)
    (hfuel : 2 * ((getlines topofile).length + (getlines changesfile).length) < fuel)
    (hL : LinkState.output ordL fuel topofile messagefile changesfile = some outL)
    (hD : DistanceVector.output ordD fuel topofile messagefile changesfile = some outD) :
    ∃ tablesL tablesD, TablesIn (LinkState.main ordL) topofile changesfile tablesL outL ∧
      TablesIn (DistanceVector.main ordD fuel) topofile changesfile tablesD outD ∧
      tablesL.map (List.map Row.entry) = tablesD.map (List.map Row.entry) := by
  obtain ⟨topo, changes, htopo, hchanges, hTL⟩ := LinkState.output_main ordL hfits.searchFits
    hfuel hL
  obtain ⟨topo', changes', htopo', hchanges', hTD⟩ := DistanceVector.output_main ordD
    hfits.exchangeFits hfuel hD
  obtain rfl := htopo'.unique htopo
  obtain rfl := hchanges'.unique hchanges
  refine ⟨_, _, hTL, hTD, ?_⟩
  rw [List.map_map, List.map_map]
  refine List.map_congr_left fun U _ => ?_
  rw [Function.comp_apply, Function.comp_apply, U.table_entry, U.table_entry]

end Outputs

/-- Two ways from the first node to the last, of which one program takes one and one the other. -/
def fiveNodes : Str := ⟨ascii "1 2 1\n2 4 1\n4 5 1\n1 3 2\n3 5 1\n", by decide⟩

theorem fits_fiveNodes : FilesFit Topology.Fits fiveNodes noLines := by
  have hreads : ReadsLines (getlines fiveNodes)
      [(1, 2, 1), (2, 4, 1), (4, 5, 1), (1, 3, 2), (3, 5, 1)] :=
    List.Forall₂.cons (by decide) (List.Forall₂.cons (by decide) (List.Forall₂.cons (by decide)
      (List.Forall₂.cons (by decide) (List.Forall₂.cons (by decide) List.Forall₂.nil))))
  exact .of_reads hreads reads_noLines (List.forall_mem_singleton.mpr
    (Topology.fits_of_costSum (by decide +kernel) (by decide)))

/-- What is written there, with the next hops from the first node to the last and back. -/
def fiveNodesText (there back : String) : String :=
  "1 1 0\n2 2 1\n3 3 2\n4 2 2\n5 " ++ there ++ " 3\n1 1 1\n2 2 0\n3 1 3\n4 4 1\n5 4 2\n" ++
    "1 1 2\n2 1 3\n3 3 0\n4 5 2\n5 5 1\n1 2 2\n2 2 1\n3 5 2\n4 4 0\n5 5 1\n1 " ++ back ++
    " 3\n2 4 2\n3 3 1\n4 4 1\n5 5 0\n"

theorem outputs_tables_fiveNodes : ∃ tablesL tablesD,
    TablesIn (LinkState.main fun _ => IterOrder.listed _) fiveNodes noLines tablesL
      (fiveNodesText "3" "4") ∧
    TablesIn (DistanceVector.main (fun _ => IterOrder.listed _) 12) fiveNodes noLines tablesD
      (fiveNodesText "2" "3") ∧
    tablesL.map (List.map Row.entry) = tablesD.map (List.map Row.entry) :=
  have hL : LinkState.output (fun _ => IterOrder.listed _) 12 fiveNodes noLines noLines =
      some (fiveNodesText "3" "4") := by decide +kernel
  have hD : DistanceVector.output (fun _ => IterOrder.listed _) 12 fiveNodes noLines noLines =
      some (fiveNodesText "2" "3") := by decide +kernel
  outputs_tables fits_fiveNodes (by decide) hL hD

end NetworkingLearning.Routing
