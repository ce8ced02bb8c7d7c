import NetworkingLearning.Routing.Files

/-!
# What the two programs write (`linkstate.cpp:317-356`, `distvec.cpp:290-329`)

Both programs write a text for the topology of the topology file and one for the topology after
every change, which depends on nothing else: not on the order in which a map is iterated, nor on the
tables of the phases before.

* `LinkState.textOf` and `DistanceVector.textOf` are that text: the table of a topology, and the
  reports of the messages. The second leaves the reports out below eight nodes (`distvec.cpp:221`).
* `FilesFit` is the condition that the topology of every phase fits the program, so that no sum of a
  build leaves `int`. In the link-state program no id is negative either: `-1` is its mark for a
  missing hop (`linkstate.cpp:94-95`, `linkstate.cpp:142`, `linkstate.cpp:259`). Both hold where the
  ids are not negative and twice the sum of the costs is below `INT_MAX`
  (`Topology.fits_of_costSum`).
* A message that cannot be printed ends the first program in its first phase, and the second in the
  first phase with eight nodes or more.

Results:
* `LinkState.output_iff`, `DistanceVector.output_exact`: when a program ends, and all it has
  written.
* `outputs_agree`: on the same files both write the same, if there are no ties.
* `output_lines`: the order of the lines, and lines that are replaced later, make no difference.
* `output_changes`: the last phase writes what a program does that is given all lines at once.
-/

namespace NetworkingLearning.Routing

open NetworkingLearning.Machine NetworkingLearning.Paths NetworkingLearning.Text

/-- What is written for a topology: its table, and a report for every line of the message file. -/
def Topology.Results (T : Topology) (hop : ℤ → ℤ → ℤ) (hops : ℤ → ℤ → List ℤ) (messagefile : Str)
    (text : String) : Prop :=
  ∃ messages, Reads (getlines messagefile) messages ∧ (∀ m ∈ messages, T.Knows m) ∧
    text = resultsText (T.table hop) (messages.map (T.report hops))

namespace LinkState

section Phase

variable {T : Topology} {ls : LinkState} {fuel : ℕ} {messagefile : Str}

/-- **What `print_results` writes** after a build. -/
theorem Ran.printText_iff (h : Ran T true ls) (hids : T.NonnegIds) (hfuel : T.nodes.card ≤ fuel)
    {text : String} : (∃ ls', printText fuel messagefile ls = some (ls', text)) ↔
      T.Results T.hopFrom T.hopsFrom messagefile text := by
  obtain ⟨hfits, hready⟩ := h.inv.2 rfl
  have hfin : T.AllFinite := fun s hs => (hfits s hs).2
  obtain ⟨ls1, htable, hready1⟩ := hready.printTable_eq hids hfin
  unfold printText
  simp only [htable, Option.bind_eq_bind, Option.bind_some]
  constructor
  · rintro ⟨ls', hp⟩
    obtain ⟨r, hr, hp⟩ := Option.bind_eq_some_iff.mp hp
    obtain ⟨-, rfl⟩ := Prod.mk.inj (Option.some.inj hp)
    obtain ⟨messages, hreads, hm⟩ := printFile_reads.mp hr
    have hknows := (hready1.printMessages_knows hm).1
    obtain ⟨ls2, hm', -⟩ := hready1.printMessages_eq hfin hfuel hknows
    obtain rfl := Option.some.inj (hm'.symm.trans hm)
    exact ⟨messages, hreads, hknows, rfl⟩
  · rintro ⟨messages, hreads, hknows, rfl⟩
    obtain ⟨ls2, hm, -⟩ := hready1.printMessages_eq hfin hfuel hknows
    exact ⟨ls2, by rw [printFile_reads.mpr ⟨messages, hreads, hm⟩]; rfl⟩

theorem Ran.printText (h : Ran T true ls) {r : LinkState × String}
    (hp : printText fuel messagefile ls = some r) : Ran T true r.1 := by
  obtain ⟨table, htable, hp⟩ := Option.bind_eq_some_iff.mp hp
  obtain ⟨st, hst, hp⟩ := Option.bind_eq_some_iff.mp hp
  obtain ⟨messages, -, hm⟩ := printFile_reads.mp hst
  rw [← Option.some.inj hp]
  exact (h.table htable).messages hm

/-- The link-state program in phases. -/
theorem phased (ord : ℕ → IterOrder (ℤ × ℕ)) (fuel : ℕ) (messagefile : Str) :
    Phased (fun ls l => ls.buildLine l.1 l.2.1 l.2.2) (phaseText ord fuel messagefile)
      (fun T ls => ∃ b, Ran T b ls)
      (fun T => SearchFits T ∧ T.NonnegIds ∧ T.nodes.card ≤ fuel)
      (fun T => T.Results T.hopFrom T.hopsFrom messagefile) where
  line := fun T ls l ⟨_, hran⟩ hle => ⟨false, hran.line l.1 l.2.1 l.2.2 hle⟩
  keeps := by
    rintro i T ls r ⟨b, hran⟩ ⟨hfits, -, -⟩ hr
    obtain ⟨ls1, hb, hp⟩ := Option.bind_eq_some_iff.mp hr
    exact ⟨true, (hran.build (ord i) hfits hb).printText hp⟩
  writes := by
    rintro i T ls text ⟨b, hran⟩ ⟨hfits, hids, hfuel⟩
    obtain ⟨ls1, hb, -⟩ :=
      buildNodesForwardingTables_spec (ord i) hran.inv.1 (bounded_of_fits hfits)
    rw [← (hran.build (ord i) hfits hb).printText_iff hids hfuel]
    unfold phaseText
    simp only [hb, Option.bind_eq_bind, Option.bind_some]

end Phase

end LinkState

namespace DistanceVector

section Phase

variable {T : Topology} {dv : DistanceVector} {fuel : ℕ} {messagefile : Str}

/-- What is written for a topology: reports only if it has eight nodes. -/
def Writes (messagefile : Str) (T : Topology) (text : String) : Prop :=
  if 8 ≤ T.nodes.card then T.Results T.hopTo T.hopsTo messagefile text
  else text = resultsText (T.table T.hopTo) []

/-- **What `print_results` writes** after a build. -/
theorem Ran.printText_iff (h : Ran T true dv) (hfuel : T.nodes.card ≤ fuel)
    {text : String} : (∃ dv', printText fuel messagefile dv = some (dv', text)) ↔
      Writes messagefile T text := by
  obtain ⟨hfits, hready⟩ := h.inv.2.2.1 rfl
  have hfin : T.AllFinite := hfits.2
  obtain ⟨dv1, htable, hready1⟩ := hready.printTable_eq hfin
  unfold printText Writes
  simp only [htable, Option.bind_eq_bind, Option.bind_some, hready1.size]
  by_cases hsize : 8 ≤ T.nodes.card
  · rw [if_pos hsize, if_pos hsize]
    constructor
    · rintro ⟨dv', hp⟩
      obtain ⟨r, hr, hp⟩ := Option.bind_eq_some_iff.mp hp
      obtain ⟨-, rfl⟩ := Prod.mk.inj (Option.some.inj hp)
      obtain ⟨messages, hreads, hm⟩ := printFile_reads.mp hr
      have hknows := (hready1.printMessages_knows hm).1
      obtain ⟨dv2, hm', -⟩ := hready1.printMessages_eq hfin hfuel hknows
      obtain rfl := Option.some.inj (hm'.symm.trans hm)
      exact ⟨messages, hreads, hknows, rfl⟩
    · rintro ⟨messages, hreads, hknows, rfl⟩
      obtain ⟨dv2, hm, -⟩ := hready1.printMessages_eq hfin hfuel hknows
      exact ⟨dv2, by rw [printFile_reads.mpr ⟨messages, hreads, hm⟩]; rfl⟩
  · rw [if_neg hsize, if_neg hsize]
    constructor
    · rintro ⟨dv', hp⟩
      exact (Prod.mk.inj (Option.some.inj hp)).2.symm
    · rintro rfl
      exact ⟨dv1, rfl⟩

theorem Ran.printText (h : Ran T true dv) {r : DistanceVector × String}
    (hp : printText fuel messagefile dv = some r) : Ran T true r.1 := by
  obtain ⟨table, htable, hp⟩ := Option.bind_eq_some_iff.mp hp
  split at hp
  · obtain ⟨st, hst, hp⟩ := Option.bind_eq_some_iff.mp hp
    obtain ⟨messages, -, hm⟩ := printFile_reads.mp hst
    rw [← Option.some.inj hp]
    exact (h.table htable).messages hm
  · rw [← Option.some.inj hp]
    exact h.table htable

/-- The distance-vector program in phases. -/
theorem phased (ord : ℕ → IterOrder (ℕ × ℤ × ℕ)) (fuel : ℕ) (messagefile : Str) :
    Phased (fun dv l => dv.buildLine l.1 l.2.1 l.2.2) (phaseText ord fuel messagefile)
      (fun T dv => ∃ b, Ran T b dv) (fun T => ExchangeFits T ∧ max 1 T.nodes.card ≤ fuel)
      (Writes messagefile) where
  line := fun T dv l ⟨_, hran⟩ hle => ⟨false, hran.line l.1 l.2.1 l.2.2 hle⟩
  keeps := by
    rintro i T dv r ⟨b, hran⟩ ⟨hfits, -⟩ hr
    obtain ⟨dv1, hb, hp⟩ := Option.bind_eq_some_iff.mp hr
    exact ⟨true, (hran.build (ord i) fuel hfits hb).printText hp⟩
  writes := by
    rintro i T dv text ⟨b, hran⟩ ⟨hfits, hfuel⟩
    obtain ⟨dv1, hb⟩ := hran.build_within hfits (ord i)
    rw [← (hran.build (ord i) fuel hfits (hb fuel hfuel)).printText_iff
      (le_of_max_le_right hfuel)]
    unfold phaseText
    simp only [hb fuel hfuel, Option.bind_eq_bind, Option.bind_some]

end Phase

end DistanceVector

/-! ## The topologies of the phases -/

section Phases

variable {T U : Topology} {topo changes : List Line}

theorem Topology.card_line (T : Topology) (l : Line) :
    (T.line l.1 l.2.1 l.2.2).nodes.card ≤ T.nodes.card + 2 :=
  (Finset.card_insert_le _ _).trans (Nat.succ_le_succ (Finset.card_insert_le _ _))

/-- Nodes stay, and there are at most two more for each line. -/
theorem Topology.after_nodes (hU : U ∈ T.after changes) :
    T.nodes ⊆ U.nodes ∧ U.nodes.card ≤ T.nodes.card + 2 * changes.length := by
  induction changes generalizing T with
  | nil => exact absurd hU List.not_mem_nil
  | cons l changes ih =>
    have hsub : T.nodes ⊆ (T.line l.1 l.2.1 l.2.2).nodes := fun v hv => by
      simp [Topology.line, hv]
    have hcard := T.card_line l
    rw [List.length_cons]
    rcases List.mem_cons.mp hU with rfl | hU
    · exact ⟨hsub, by omega⟩
    · obtain ⟨hsub', hcard'⟩ := ih hU
      exact ⟨hsub.trans hsub', by omega⟩

theorem Topology.card_ofLines (topo : List Line) :
    (Topology.ofLines topo).nodes.card ≤ 2 * topo.length := by
  induction topo using List.reverseRecOn with
  | nil => rfl
  | append_singleton topo l ih =>
    have hcard := (Topology.ofLines topo).card_line l
    rw [Topology.ofLines_append, List.length_append, List.length_singleton]
    omega

/-- The topologies of the phases have at most two nodes for each line, and the first nodes. -/
theorem Topology.phases_nodes (hU : U ∈ Topology.phases topo changes) :
    (Topology.ofLines topo).nodes ⊆ U.nodes ∧
      U.nodes.card ≤ 2 * (topo.length + changes.length) := by
  have hcard := Topology.card_ofLines topo
  rcases List.mem_cons.mp hU with rfl | hU
  · exact ⟨Finset.Subset.refl _, by omega⟩
  · obtain ⟨hsub, hcard'⟩ := Topology.after_nodes hU
    exact ⟨hsub, by omega⟩

/-- The last phase has the topology of all lines. -/
theorem Topology.phases_last (topo changes : List Line) : ∃ before,
    Topology.phases topo changes = before ++ [Topology.ofLines (topo ++ changes)] := by
  induction changes generalizing topo with
  | nil => exact ⟨[], by rw [List.append_nil]; rfl⟩
  | cons l changes ih =>
    obtain ⟨before, h⟩ := ih (topo ++ [l])
    refine ⟨Topology.ofLines topo :: before, ?_⟩
    rw [List.append_assoc, List.singleton_append] at h
    rw [List.cons_append, ← h, phases, phases, Topology.ofLines_append]
    rfl

/-- Nodes and prices make a topology. -/
theorem Topology.ext {T U : Topology} (hnodes : T.nodes = U.nodes) (hprice : T.price = U.price) :
    T = U := by
  cases T
  cases U
  obtain rfl : _ = _ := hnodes
  obtain rfl : _ = _ := hprice
  rfl

/-- **The last lines decide**: lines that mention the same ids, and the last of which about each
pair of ids give the same link, describe the same topology. -/
theorem Topology.ofLines_eq {topo' : List Line}
    (hids : ∀ u, (∃ l ∈ topo, u = l.1 ∨ u = l.2.1) ↔ ∃ l ∈ topo', u = l.1 ∨ u = l.2.1)
    (hlast : ∀ u v w, 0 < w → ((∃ l, lastLine topo u v = some l ∧ l.2.2 = w) ↔
      ∃ l, lastLine topo' u v = some l ∧ l.2.2 = w)) :
    Topology.ofLines topo = Topology.ofLines topo' := by
  refine Topology.ext (Finset.ext fun u => ?_) (funext fun u => funext fun v =>
    Option.ext fun w => ?_)
  · rw [Topology.mem_ofLines, Topology.mem_ofLines, hids]
  · show _ = some w ↔ _ = some w
    rw [Topology.price_ofLines, Topology.price_ofLines]
    exact and_congr_right fun hw => hlast u v w hw

end Phases

/-! ## The texts -/

/-- The topologies the files lead to are as `Fit` says. -/
def FilesFit (Fit : Topology → Prop) (topofile changesfile : Str) : Prop :=
  ∀ topo changes, ReadsLines (getlines topofile) topo → ReadsLines (getlines changesfile) changes →
    ∀ U ∈ Topology.phases topo changes, Fit U

section Texts

variable {topofile messagefile changesfile : Str} {fuel : ℕ} {out : String}

/-- There is fuel for every phase if there is more than two for each line. -/
theorem FilesFit.fueled {Fit : Topology → Prop} (h : FilesFit Fit topofile changesfile)
    (hfuel : 2 * ((getlines topofile).length + (getlines changesfile).length) < fuel) :
    FilesFit (fun U => Fit U ∧ max 1 U.nodes.card ≤ fuel) topofile changesfile := by
  intro topo changes htopo hchanges U hU
  have hcard := (Topology.phases_nodes hU).2
  have h1 := htopo.length_eq
  have h2 := hchanges.length_eq
  exact ⟨h topo changes htopo hchanges U hU, by omega⟩

/-- What the link-state program needs, with its fuel. -/
theorem LinkState.fueled
    (hfits : FilesFit (fun U => SearchFits U ∧ U.NonnegIds) topofile changesfile)
    (hfuel : 2 * ((getlines topofile).length + (getlines changesfile).length) < fuel) :
    FilesFit (fun U => SearchFits U ∧ U.NonnegIds ∧ U.nodes.card ≤ fuel) topofile changesfile := by
  intro topo changes htopo hchanges U hU
  obtain ⟨⟨hfit, hids⟩, hcard⟩ := hfits.fueled hfuel topo changes htopo hchanges U hU
  exact ⟨hfit, hids, le_of_max_le_right hcard⟩

end Texts

/-! ## The texts of all phases -/

section Phases

variable {messagefile : Str} {messages : List Message} {Us : List Topology} {texts : List String}

theorem Reads.unique {lines : List Str} {messages' : List Message} (h : Reads lines messages)
    (h' : Reads lines messages') : messages = messages' := by
  induction h generalizing messages' with
  | nil => exact (List.forall₂_nil_left_iff.mp h').symm
  | cons hm _ ih =>
    obtain ⟨m', rest, hm', hrest, rfl⟩ := List.forall₂_cons_left_iff.mp h'
    rw [Option.some.inj (hm.symm.trans hm'), ih hrest]

theorem ReadsLines.unique {lines : List Str} {ls ls' : List Line} (h : ReadsLines lines ls)
    (h' : ReadsLines lines ls') : ls = ls' := by
  induction h generalizing ls' with
  | nil => exact (List.forall₂_nil_left_iff.mp h').symm
  | cons hl _ ih =>
    obtain ⟨l', rest, hl', hrest, rfl⟩ := List.forall₂_cons_left_iff.mp h'
    rw [Option.some.inj (hl.symm.trans hl'), ih hrest]

/-- A file has at most one list of messages. -/
theorem exists_messages (messagefile : Str) : ∃ messages, ∀ messages',
    Reads (getlines messagefile) messages' → messages' = messages := by
  by_cases h : ∃ messages, Reads (getlines messagefile) messages
  · obtain ⟨messages, hreads⟩ := h
    exact ⟨messages, fun _ hreads' => hreads'.unique hreads⟩
  · exact ⟨[], fun messages' hreads => absurd ⟨messages', hreads⟩ h⟩

/-- What holds of each element and determines the other one. -/
theorem forall₂_and_eq {α β : Type} {P : α → Prop} {f : α → β} {l : List α} {u : List β} :
    List.Forall₂ (fun a b => P a ∧ b = f a) l u ↔ (∀ a ∈ l, P a) ∧ u = l.map f := by
  have hmap : ∀ {l : List α} {u : List β}, List.Forall₂ (fun a b => b = f a) l u ↔ u = l.map f := by
    intro l
    induction l with
    | nil => exact List.forall₂_nil_left_iff
    | cons a l ih =>
      intro u
      rw [List.forall₂_cons_left_iff, List.map_cons]
      constructor
      · rintro ⟨b, u, rfl, hu, rfl⟩
        rw [ih.mp hu]
      · rintro rfl
        exact ⟨f a, l.map f, rfl, ih.mpr rfl, rfl⟩
  rw [List.forall₂_and_left, hmap]

/-- What the link-state program writes for a topology. -/
noncomputable def LinkState.textOf (messages : List Message) (U : Topology) : String :=
  resultsText (U.table U.hopFrom) (messages.map (U.report U.hopsFrom))

/-- What the distance-vector program writes for a topology. -/
noncomputable def DistanceVector.textOf (messages : List Message) (U : Topology) : String :=
  resultsText (U.table U.hopTo)
    (if 8 ≤ U.nodes.card then messages.map (U.report U.hopsTo) else [])

theorem LinkState.forall₂_results :
    List.Forall₂ (fun U => U.Results U.hopFrom U.hopsFrom messagefile) Us texts ↔
      ∃ messages, (∀ U ∈ Us, Reads (getlines messagefile) messages ∧ ∀ m ∈ messages, U.Knows m) ∧
        texts = Us.map (LinkState.textOf messages) := by
  constructor
  · intro h
    obtain ⟨messages, honly⟩ := exists_messages messagefile
    refine ⟨messages, forall₂_and_eq.mp (h.imp ?_)⟩
    rintro U text ⟨messages', hreads, hknows, rfl⟩
    obtain rfl := honly messages' hreads
    exact ⟨⟨hreads, hknows⟩, rfl⟩
  · rintro ⟨messages, h⟩
    refine (forall₂_and_eq.mpr h).imp ?_
    rintro U text ⟨⟨hreads, hknows⟩, rfl⟩
    exact ⟨messages, hreads, hknows, rfl⟩

theorem DistanceVector.forall₂_writes :
    List.Forall₂ (DistanceVector.Writes messagefile) Us texts ↔
      ∃ messages, (∀ U ∈ Us, 8 ≤ U.nodes.card →
          Reads (getlines messagefile) messages ∧ ∀ m ∈ messages, U.Knows m) ∧
        texts = Us.map (DistanceVector.textOf messages) := by
  constructor
  · intro h
    obtain ⟨messages, honly⟩ := exists_messages messagefile
    refine ⟨messages, forall₂_and_eq.mp (h.imp fun U text hw => ?_)⟩
    unfold Writes at hw
    unfold DistanceVector.textOf
    split_ifs at hw ⊢ with hsize
    · obtain ⟨messages', hreads, hknows, rfl⟩ := hw
      obtain rfl := honly messages' hreads
      exact ⟨fun _ => ⟨hreads, hknows⟩, rfl⟩
    · exact ⟨fun hge => absurd hge hsize, hw⟩
  · rintro ⟨messages, h⟩
    refine (forall₂_and_eq.mpr h).imp fun U text hw => ?_
    unfold DistanceVector.textOf at hw
    unfold Writes
    split_ifs at hw ⊢ with hsize
    · obtain ⟨hreads, hknows⟩ := hw.1 hsize
      exact ⟨messages, hreads, hknows, hw.2⟩
    · exact hw.2

end Phases

/-! ## Small files -/

/-- Two nodes and one link. -/
def twoNodes : Str := ⟨ascii "1 2 8\n", by decide⟩

/-- The same link, its ends exchanged and with a cost that is replaced. -/
def twoNodesAgain : Str := ⟨ascii "2 1 5\n2 1 8", by decide⟩

/-- The three nodes in one file. -/
def threeNodes : Str := ⟨ascii "1 2 8\n2 3 4\n", by decide⟩

/-- Eight nodes, of which the first two are linked. -/
def eightNodes : Str := ⟨ascii "1 2 8\n3 4 -999\n5 6 -999\n7 8 -999\n", by decide⟩

/-- Another cost of that link. -/
def otherCost : Str := ⟨ascii "2 1 5", by decide⟩

/-- A message. -/
def helloFile : Str := ⟨ascii "2 1 hello you\n", by decide⟩

/-- Two messages, one of them to a node that is not linked. -/
def farFile : Str := ⟨ascii "2 1 hello you\n1 3 far\n", by decide⟩

/-- No lines. -/
def noLines : Str := ⟨[], by decide⟩

section Files

theorem reads_twoNodes : ReadsLines (getlines twoNodes) [(1, 2, 8)] :=
  List.Forall₂.cons (by decide) List.Forall₂.nil

theorem reads_twoNodesAgain : ReadsLines (getlines twoNodesAgain) [(2, 1, 5), (2, 1, 8)] :=
  List.Forall₂.cons (by decide) (List.Forall₂.cons (by decide) List.Forall₂.nil)

theorem reads_eightNodes : ReadsLines (getlines eightNodes)
    [(1, 2, 8), (3, 4, -999), (5, 6, -999), (7, 8, -999)] :=
  List.Forall₂.cons (by decide) (List.Forall₂.cons (by decide) (List.Forall₂.cons (by decide)
    (List.Forall₂.cons (by decide) List.Forall₂.nil)))

theorem reads_otherCost : ReadsLines (getlines otherCost) [(2, 1, 5)] :=
  List.Forall₂.cons (by decide) List.Forall₂.nil

theorem reads_helloFile : Reads (getlines helloFile) [⟨2, 1, ["hello", "you"]⟩] :=
  List.Forall₂.cons (by decide) List.Forall₂.nil

theorem reads_noLines : ReadsLines (getlines noLines) [] := List.Forall₂.nil

theorem FilesFit.of_reads {Fit : Topology → Prop} {topofile changesfile : Str}
    {topo changes : List Line} (htopo : ReadsLines (getlines topofile) topo)
    (hchanges : ReadsLines (getlines changesfile) changes)
    (h : ∀ U ∈ Topology.phases topo changes, Fit U) : FilesFit Fit topofile changesfile := by
  intro topo' changes' htopo' hchanges'
  obtain rfl := htopo'.unique htopo
  obtain rfl := hchanges'.unique hchanges
  exact h

/-- What both programs need of a topology. -/
def Topology.Fits (U : Topology) : Prop :=
  LinkState.SearchFits U ∧ DistanceVector.ExchangeFits U ∧ U.NonnegIds

theorem FilesFit.searchFits {topofile changesfile : Str}
    (h : FilesFit Topology.Fits topofile changesfile) :
    FilesFit (fun U => LinkState.SearchFits U ∧ U.NonnegIds) topofile changesfile :=
  fun topo changes htopo hchanges U hU =>
    ⟨(h topo changes htopo hchanges U hU).1, (h topo changes htopo hchanges U hU).2.2⟩

theorem FilesFit.exchangeFits {topofile changesfile : Str}
    (h : FilesFit Topology.Fits topofile changesfile) :
    FilesFit DistanceVector.ExchangeFits topofile changesfile :=
  fun topo changes htopo hchanges U hU => (h topo changes htopo hchanges U hU).2.1

theorem Topology.fits_of_costSum {U : Topology} (hsum : 2 * U.costSum < intMax)
    (hids : ∀ s ∈ U.nodes, 0 ≤ s) : U.Fits :=
  ⟨LinkState.searchFits_of_costSum hsum, DistanceVector.exchangeFits_of_costSum hsum, hids⟩

theorem fits_twoNodes : FilesFit Topology.Fits twoNodes noLines :=
  .of_reads reads_twoNodes reads_noLines (List.forall_mem_singleton.mpr
    (Topology.fits_of_costSum (by decide) (by decide)))

theorem fits_eightNodes : FilesFit Topology.Fits eightNodes otherCost :=
  .of_reads reads_eightNodes reads_otherCost (List.forall_mem_cons.mpr
    ⟨Topology.fits_of_costSum (by decide +kernel) (by decide),
      List.forall_mem_singleton.mpr (Topology.fits_of_costSum (by decide +kernel) (by decide))⟩)

theorem fits_twoNodesAgain : FilesFit Topology.Fits twoNodesAgain noLines :=
  .of_reads reads_twoNodesAgain reads_noLines (List.forall_mem_singleton.mpr
    (Topology.fits_of_costSum (by decide) (by decide)))

end Files

/-! ## Every output -/

/-- **What the link-state program writes**, whatever the order in which the maps are iterated: it
ends exactly if all lines of the files are numbers and messages between nodes of the first
topology, and then has written the tables and reports of the topologies on the way. -/
theorem LinkState.output_iff (ord : ℕ → IterOrder (ℤ × ℕ)) {fuel : ℕ}
    {topofile messagefile changesfile : Str}
    (hfits : FilesFit (fun U => SearchFits U ∧ U.NonnegIds) topofile changesfile)
    (hfuel : 2 * ((getlines topofile).length + (getlines changesfile).length) < fuel)
    (out : String) :
    LinkState.output ord fuel topofile messagefile changesfile = some out ↔
      ∃ topo messages changes, ReadsLines (getlines topofile) topo ∧
        Reads (getlines messagefile) messages ∧ ReadsLines (getlines changesfile) changes ∧
        (∀ m ∈ messages, (Topology.ofLines topo).Knows m) ∧
        out = String.join ((Topology.phases topo changes).map (LinkState.textOf messages)) := by
  rw [LinkState.output, (LinkState.phased ord fuel messagefile).mainText_iff ⟨false, .init⟩
    (LinkState.fueled hfits hfuel)]
  simp only [LinkState.forall₂_results]
  constructor
  · rintro ⟨topo, changes, _, htopo, hchanges, ⟨messages, hall, rfl⟩, rfl⟩
    obtain ⟨hreads, hknows⟩ := hall _ List.mem_cons_self
    exact ⟨topo, messages, changes, htopo, hreads, hchanges, hknows, rfl⟩
  · rintro ⟨topo, messages, changes, htopo, hreads, hchanges, hknows, rfl⟩
    refine ⟨topo, changes, _, htopo, hchanges, ⟨messages, fun U hU => ⟨hreads, fun m hm => ?_⟩,
      rfl⟩, rfl⟩
    have hsub := (Topology.phases_nodes hU).1
    exact ⟨hsub (hknows m hm).1, hsub (hknows m hm).2⟩

/-- A message from the second node to the first. -/
theorem LinkState.output_iff_twoNodes :
    ∃ topo messages changes, ReadsLines (getlines twoNodes) topo ∧
      Reads (getlines helloFile) messages ∧ ReadsLines (getlines noLines) changes ∧
      (∀ m ∈ messages, (Topology.ofLines topo).Knows m) ∧
      "1 1 0\n2 2 8\n1 1 8\n2 2 0\nfrom 2 to 1 cost 8 hops 2 message hello you\n" =
        String.join ((Topology.phases topo changes).map (LinkState.textOf messages)) := by
  have hout : LinkState.output (fun _ => IterOrder.listed _) 10 twoNodes helloFile noLines =
      some "1 1 0\n2 2 8\n1 1 8\n2 2 0\nfrom 2 to 1 cost 8 hops 2 message hello you\n" := by
    decide +kernel
  refine (LinkState.output_iff _ (fun topo changes htopo hchanges U hU => ?_) (by decide) _).mp hout
  obtain ⟨hsearch, -, hids⟩ := fits_twoNodes topo changes htopo hchanges U hU
  exact ⟨hsearch, hids⟩

/-- **What the distance-vector program writes.** It looks at the message file in the phases with
eight nodes or more, so there the messages have to be between nodes. -/
theorem DistanceVector.output_exact (ord : ℕ → IterOrder (ℕ × ℤ × ℕ)) {fuel : ℕ}
    {topofile messagefile changesfile : Str} (hfits : FilesFit ExchangeFits topofile changesfile)
    (hfuel : 2 * ((getlines topofile).length + (getlines changesfile).length) < fuel)
    (out : String) :
    DistanceVector.output ord fuel topofile messagefile changesfile = some out ↔
      ∃ topo messages changes, ReadsLines (getlines topofile) topo ∧
        ReadsLines (getlines changesfile) changes ∧
        (∀ U ∈ Topology.phases topo changes, 8 ≤ U.nodes.card →
          Reads (getlines messagefile) messages ∧ ∀ m ∈ messages, U.Knows m) ∧
        out =
          String.join ((Topology.phases topo changes).map (DistanceVector.textOf messages)) := by
  rw [DistanceVector.output, (DistanceVector.phased ord fuel messagefile).mainText_iff
    ⟨false, .init⟩ (hfits.fueled hfuel)]
  simp only [DistanceVector.forall₂_writes]
  constructor
  · rintro ⟨topo, changes, _, htopo, hchanges, ⟨messages, hall, rfl⟩, rfl⟩
    exact ⟨topo, messages, changes, htopo, hchanges, hall, rfl⟩
  · rintro ⟨topo, messages, changes, htopo, hchanges, hall, rfl⟩
    exact ⟨topo, changes, _, htopo, hchanges, ⟨messages, hall, rfl⟩, rfl⟩

/-- Eight nodes, so that there are reports, in two phases. -/
theorem DistanceVector.output_exact_eightNodes :
    ∃ topo messages changes, ReadsLines (getlines eightNodes) topo ∧
      ReadsLines (getlines otherCost) changes ∧
      (∀ U ∈ Topology.phases topo changes, 8 ≤ U.nodes.card →
        Reads (getlines farFile) messages ∧ ∀ m ∈ messages, U.Knows m) ∧
      "1 1 0\n2 2 8\n1 1 8\n2 2 0\n3 3 0\n4 4 0\n5 5 0\n6 6 0\n7 7 0\n8 8 0\n" ++
        "from 2 to 1 cost 8 hops 2 message hello you\n" ++
        "from 1 to 3 cost infinite hops unreachable message far\n" ++
        "1 1 0\n2 2 5\n1 1 5\n2 2 0\n3 3 0\n4 4 0\n5 5 0\n6 6 0\n7 7 0\n8 8 0\n" ++
        "from 2 to 1 cost 5 hops 2 message hello you\n" ++
        "from 1 to 3 cost infinite hops unreachable message far\n" =
        String.join ((Topology.phases topo changes).map (DistanceVector.textOf messages)) :=
  (DistanceVector.output_exact (fun _ => IterOrder.listed _) fits_eightNodes.exchangeFits
    (show 2 * _ < 12 by decide) _).mp (by decide +kernel)

/-! ## Two outputs compared -/

section Compared

variable {topofile messagefile changesfile : Str}

theorem forall₂_congr_mem {α β : Type} {R S : α → β → Prop} {l : List α} {u : List β}
    (h : ∀ a ∈ l, ∀ b, R a b ↔ S a b) : List.Forall₂ R l u ↔ List.Forall₂ S l u := by
  induction l generalizing u with
  | nil => rw [List.forall₂_nil_left_iff, List.forall₂_nil_left_iff]
  | cons a l ih =>
    obtain ⟨ha, h⟩ := List.forall_mem_cons.mp h
    simp only [List.forall₂_cons_left_iff, ha, ih h]

theorem exists_last_of_forall₂ {α β : Type} {R : α → β → Prop} {l : List α} {a : α} {u : List β}
    (h : List.Forall₂ R (l ++ [a]) u) : ∃ before b, u = before ++ [b] ∧ R a b := by
  induction l generalizing u with
  | nil =>
    obtain ⟨b, rest, hb, hrest, rfl⟩ := List.forall₂_cons_left_iff.mp h
    obtain rfl := List.forall₂_nil_left_iff.mp hrest
    exact ⟨[], b, rfl, hb⟩
  | cons _ l ih =>
    obtain ⟨c, rest, -, hrest, rfl⟩ := List.forall₂_cons_left_iff.mp h
    obtain ⟨before, b, rfl, hb⟩ := ih hrest
    exact ⟨c :: before, b, rfl, hb⟩

section Phased

variable {σ σ' : Type} {buildLine : σ → Line → σ} {phase : ℕ → σ → Option (σ × String)}
  {buildLine' : σ' → Line → σ'} {phase' : ℕ → σ' → Option (σ' × String)}
  {Good : Topology → σ → Prop} {Good' : Topology → σ' → Prop} {Fit Fit' : Topology → Prop}
  {Text Text' : Topology → String → Prop} {s : σ} {s' : σ'}
  (hP : Phased buildLine phase Good Fit Text) (hP' : Phased buildLine' phase' Good' Fit' Text')
  (hs : Good Topology.empty s) (hs' : Good' Topology.empty s')

include hP hP' hs hs'

/-- Programs that write the same for every topology write the same. -/
theorem Phased.agree (hfit : FilesFit Fit topofile changesfile)
    (hfit' : FilesFit Fit' topofile changesfile)
    (hagree : FilesFit (fun U => ∀ text, Text U text ↔ Text' U text) topofile changesfile) :
    mainText buildLine phase s topofile changesfile =
      mainText buildLine' phase' s' topofile changesfile := by
  refine Option.ext fun out => ?_
  show _ = some out ↔ _ = some out
  rw [hP.mainText_iff hs hfit, hP'.mainText_iff hs' hfit']
  refine exists_congr fun topo => exists_congr fun changes => exists_congr fun texts =>
    and_congr_right fun htopo => and_congr_right fun hchanges => and_congr_left fun _ => ?_
  exact forall₂_congr_mem (hagree topo changes htopo hchanges)

omit hP' hs' in
theorem Phased.mainText_of_reads {topo : List Line} (hreads : ReadsLines (getlines topofile) topo)
    (hfit : FilesFit Fit topofile changesfile) {out : String} :
    mainText buildLine phase s topofile changesfile = some out ↔ ∃ changes texts,
      ReadsLines (getlines changesfile) changes ∧
      List.Forall₂ Text (Topology.phases topo changes) texts ∧ out = String.join texts := by
  rw [hP.mainText_iff hs hfit]
  constructor
  · rintro ⟨topo', changes, texts, htopo, h⟩
    obtain rfl := htopo.unique hreads
    exact ⟨changes, texts, h⟩
  · rintro ⟨changes, texts, h⟩
    exact ⟨topo, changes, texts, hreads, h⟩

variable {allfile nofile : Str} {topo topo' changes : List Line}

/-- Topology files of one topology are the same to a program. -/
theorem Phased.lines (hText : Text' = Text) {topofile' : Str}
    (hfit : FilesFit Fit topofile changesfile) (hfit' : FilesFit Fit' topofile' changesfile)
    (hreads : ReadsLines (getlines topofile) topo) (hreads' : ReadsLines (getlines topofile') topo')
    (heq : Topology.ofLines topo = Topology.ofLines topo') :
    mainText buildLine phase s topofile changesfile =
      mainText buildLine' phase' s' topofile' changesfile := by
  subst hText
  refine Option.ext fun out => ?_
  show _ = some out ↔ _ = some out
  rw [hP.mainText_of_reads hs hreads hfit, hP'.mainText_of_reads hs' hreads' hfit']
  simp only [Topology.phases, heq]

/-- The last phase of a program is the only one of a program that starts with all lines. -/
theorem Phased.last (hText : Text' = Text) (hfit : FilesFit Fit topofile changesfile)
    (hfit' : FilesFit Fit' allfile nofile) (hreads : ReadsLines (getlines topofile) topo)
    (hchanges : ReadsLines (getlines changesfile) changes)
    (hall : ReadsLines (getlines allfile) (topo ++ changes)) (hno : getlines nofile = [])
    {out : String} (h : mainText buildLine phase s topofile changesfile = some out) :
    ∃ before last, out = before ++ last ∧
      mainText buildLine' phase' s' allfile nofile = some last := by
  subst hText
  obtain ⟨changes', texts, hchanges', htexts, rfl⟩ := (hP.mainText_of_reads hs hreads hfit).mp h
  obtain rfl := hchanges'.unique hchanges
  obtain ⟨before, hbefore⟩ := Topology.phases_last topo changes'
  rw [hbefore] at htexts
  obtain ⟨pre, last, rfl, hlast⟩ := exists_last_of_forall₂ htexts
  refine ⟨String.join pre, last, by simp, ?_⟩
  refine (hP'.mainText_of_reads hs' hall hfit').mpr ⟨[], [last], ?_, ?_, by simp⟩
  · rw [hno]
    exact List.Forall₂.nil
  · exact List.Forall₂.cons hlast List.Forall₂.nil

end Phased

/-- For messages that are not from a node to itself both programs write the same. -/
theorem results_untied {U : Topology} (hfin : U.AllFinite) (hunt : Untied U.price)
    (hself : ∀ messages, Reads (getlines messagefile) messages → ∀ m ∈ messages, m.src ≠ m.dst)
    (hsize : getlines messagefile = [] ∨ 8 ≤ U.nodes.card) (text : String) :
    U.Results U.hopFrom U.hopsFrom messagefile text ↔
      DistanceVector.Writes messagefile U text := by
  have htable := U.table_untied hfin hunt
  have hsame : U.Results U.hopFrom U.hopsFrom messagefile text ↔
      U.Results U.hopTo U.hopsTo messagefile text := by
    unfold Topology.Results
    refine exists_congr fun messages => and_congr_right fun hreads =>
      and_congr_right fun hknows => ?_
    have hreports : messages.map (U.report U.hopsFrom) = messages.map (U.report U.hopsTo) :=
      List.map_congr_left fun m hm => U.report_untied hfin hunt (hknows m hm)
        (hself messages hreads m hm)
    rw [htable, hreports]
  unfold DistanceVector.Writes
  by_cases h8 : 8 ≤ U.nodes.card
  · rw [if_pos h8, hsame]
  · rw [if_neg h8, ← htable]
    unfold Topology.Results
    rw [hsize.resolve_right h8]
    constructor
    · rintro ⟨messages, hreads, -, rfl⟩
      obtain rfl := List.forall₂_nil_left_iff.mp hreads
      rfl
    · rintro rfl
      exact ⟨[], List.Forall₂.nil, fun m hm => absurd hm List.not_mem_nil, rfl⟩

end Compared

section Outputs

variable {topofile messagefile changesfile : Str} {fuel fuel' : ℕ}
  {ordL ordL' : ℕ → IterOrder (ℤ × ℕ)} {ordD ordD' : ℕ → IterOrder (ℕ × ℤ × ℕ)}

theorem LinkState.fit (hfits : FilesFit Topology.Fits topofile changesfile)
    (hfuel : 2 * ((getlines topofile).length + (getlines changesfile).length) < fuel) :
    FilesFit (fun U => SearchFits U ∧ U.NonnegIds ∧ U.nodes.card ≤ fuel) topofile changesfile :=
  LinkState.fueled hfits.searchFits hfuel

theorem DistanceVector.fit (hfits : FilesFit Topology.Fits topofile changesfile)
    (hfuel : 2 * ((getlines topofile).length + (getlines changesfile).length) < fuel) :
    FilesFit (fun U => ExchangeFits U ∧ max 1 U.nodes.card ≤ fuel) topofile changesfile :=
  hfits.exchangeFits.fueled hfuel

/-- **Both programs write the same** on the same files, if no node of any phase has two
predecessors on shortest paths, no message is from a node to itself, and there are eight nodes from
the start or no messages. -/
theorem outputs_agree (hfits : FilesFit Topology.Fits topofile changesfile)
    (hunt : FilesFit (fun U => Untied U.price) topofile changesfile)
    (hself : ∀ messages, Reads (getlines messagefile) messages → ∀ m ∈ messages, m.src ≠ m.dst)
    (hsize : getlines messagefile = [] ∨ ∀ topo, ReadsLines (getlines topofile) topo →
      8 ≤ (Topology.ofLines topo).nodes.card)
    (hfuel : 2 * ((getlines topofile).length + (getlines changesfile).length) < fuel) :
    LinkState.output ordL fuel topofile messagefile changesfile =
      DistanceVector.output ordD fuel topofile messagefile changesfile := by
  refine (LinkState.phased ordL fuel messagefile).agree
    (DistanceVector.phased ordD fuel messagefile) ⟨false, .init⟩ ⟨false, .init⟩
    (LinkState.fit hfits hfuel) (DistanceVector.fit hfits hfuel)
    fun topo changes htopo hchanges U hU => ?_
  obtain ⟨-, hfit, -⟩ := hfits topo changes htopo hchanges U hU
  refine results_untied hfit.2 (hunt topo changes htopo hchanges U hU) hself
    (hsize.imp_right fun h8 => ?_)
  exact (h8 topo htopo).trans (Finset.card_le_card (Topology.phases_nodes hU).1)

/-- Of lines of which all but those of one link remove it. -/
theorem Topology.price_oneLink {topo : List Line} {u t w : ℤ}
    (htopo : ∀ l ∈ topo, 0 < l.2.2 → (l.1 = 1 ∧ l.2.1 = 2) ∨ (l.1 = 2 ∧ l.2.1 = 1))
    (h : (Topology.ofLines topo).price u t = some w) : (u = 1 ∧ t = 2) ∨ (u = 2 ∧ t = 1) := by
  obtain ⟨hw, l, hl, rfl⟩ := (Topology.price_ofLines topo u t w).mp h
  obtain ⟨hmem, hmentions⟩ := List.mem_filter.mp (List.mem_of_getLast? hl)
  have hlink := htopo l hmem hw
  have hends := of_decide_eq_true hmentions
  unfold Line.Mentions at hends
  omega

theorem untied_oneLink {topo : List Line}
    (htopo : ∀ l ∈ topo, 0 < l.2.2 → (l.1 = 1 ∧ l.2.1 = 2) ∨ (l.1 = 2 ∧ l.2.1 = 1)) :
    Untied (Topology.ofLines topo).price := by
  rintro s t u u' ⟨_, w, _, hw, -⟩ ⟨_, w', _, hw', -⟩
  have h1 := Topology.price_oneLink htopo hw
  have h2 := Topology.price_oneLink htopo hw'
  omega

/-- Eight nodes without a tie, and a message. -/
theorem outputs_agree_eightNodes :
    LinkState.output (fun _ => IterOrder.listed _) 12 eightNodes helloFile otherCost =
      DistanceVector.output (fun _ => IterOrder.listed _) 12 eightNodes helloFile otherCost := by
  have hunt : FilesFit (fun U => Untied U.price) eightNodes otherCost :=
    .of_reads reads_eightNodes reads_otherCost (List.forall_mem_cons.mpr
      ⟨untied_oneLink (by decide), List.forall_mem_singleton.mpr (@untied_oneLink
        [(1, 2, 8), (3, 4, -999), (5, 6, -999), (7, 8, -999), (2, 1, 5)] (by decide))⟩)
  refine outputs_agree fits_eightNodes hunt (fun messages hreads => ?_)
    (Or.inr fun topo hreads => ?_) (by decide)
  · obtain rfl := hreads.unique reads_helloFile
    decide
  · obtain rfl := hreads.unique reads_eightNodes
    decide +kernel

/-- **The order of the lines makes no difference** to either program, nor do lines that a later one
replaces or the order in which maps are iterated: the outputs are the same for any two topology
files which mention the same ids, and the last lines of which about each pair of ids agree. -/
theorem output_lines {topofile' : Str} {topo topo' : List Line}
    (hreads : ReadsLines (getlines topofile) topo) (hreads' : ReadsLines (getlines topofile') topo')
    (hids : ∀ u, (∃ l ∈ topo, u = l.1 ∨ u = l.2.1) ↔ ∃ l ∈ topo', u = l.1 ∨ u = l.2.1)
    (hlast : ∀ u v w, 0 < w → ((∃ l, lastLine topo u v = some l ∧ l.2.2 = w) ↔
      ∃ l, lastLine topo' u v = some l ∧ l.2.2 = w))
    (hfits : FilesFit Topology.Fits topofile changesfile)
    (hfits' : FilesFit Topology.Fits topofile' changesfile)
    (hfuel : 2 * ((getlines topofile).length + (getlines changesfile).length) < fuel)
    (hfuel' : 2 * ((getlines topofile').length + (getlines changesfile).length) < fuel') :
    LinkState.output ordL fuel topofile messagefile changesfile =
        LinkState.output ordL' fuel' topofile' messagefile changesfile ∧
      DistanceVector.output ordD fuel topofile messagefile changesfile =
        DistanceVector.output ordD' fuel' topofile' messagefile changesfile := by
  have heq := Topology.ofLines_eq hids hlast
  exact ⟨(LinkState.phased ordL fuel messagefile).lines (LinkState.phased ordL' fuel' messagefile)
      ⟨false, .init⟩ ⟨false, .init⟩ rfl (LinkState.fit hfits hfuel) (LinkState.fit hfits' hfuel')
      hreads hreads' heq,
    (DistanceVector.phased ordD fuel messagefile).lines
      (DistanceVector.phased ordD' fuel' messagefile) ⟨false, .init⟩ ⟨false, .init⟩ rfl
      (DistanceVector.fit hfits hfuel) (DistanceVector.fit hfits' hfuel') hreads hreads' heq⟩

/-- A link that is described once, and one that is described again from its other end. -/
theorem output_lines_twoNodes :
    LinkState.output (fun _ => IterOrder.listed _) 10 twoNodes helloFile noLines =
        LinkState.output (fun _ => IterOrder.listed _) 12 twoNodesAgain helloFile noLines ∧
      DistanceVector.output (fun _ => IterOrder.listed _) 10 twoNodes helloFile noLines =
        DistanceVector.output (fun _ => IterOrder.listed _) 12 twoNodesAgain helloFile noLines := by
  refine output_lines reads_twoNodes reads_twoNodesAgain (fun u => ?_) (fun u v w _ => ?_)
    fits_twoNodes fits_twoNodesAgain (by decide) (by decide)
  · simp [or_comm]
  · by_cases h : (1 = u ∧ 2 = v) ∨ (1 = v ∧ 2 = u)
    · have h' : (2 = u ∧ 1 = v) ∨ (2 = v ∧ 1 = u) := h.symm.imp And.symm And.symm
      simp [lastLine, Line.Mentions, h, h']
    · have h' : ¬ ((2 = u ∧ 1 = v) ∨ (2 = v ∧ 1 = u)) := fun h' =>
        h (h'.symm.imp And.symm And.symm)
      simp [lastLine, Line.Mentions, h, h']

end Outputs

end NetworkingLearning.Routing
