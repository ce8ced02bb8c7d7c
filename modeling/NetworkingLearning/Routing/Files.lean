import NetworkingLearning.Routing.Splitting
import NetworkingLearning.Routing.Passes
import NetworkingLearning.Routing.Canonical
import NetworkingLearning.Text.Lines

/-!
# From the files to `output.txt` (`linkstate.cpp:317-356`, `distvec.cpp:290-329`)

`main` reads the topology file, then builds and prints; after every line of the changes file it
builds and prints again. A phase reads the message file from its start, as `print_messages` opens it
every time. What the two programs have in common is `section Main`, with a line and a phase as
parameters; `LinkState.output` and `DistanceVector.output` are `main` of either program.

* The text is what is written to `output.txt`: `Row.text` and `Report.text` are the formats of
  `fprintf`. It is there only if the program ends: where `stoi` throws or a null pointer is followed
  there is none.
* `fuel` is for the loops that have no bound of their own; more of it changes nothing.
* `Topology.phases` are the topologies on the way: that of the topology file, and that after each
  change.

Results:
* `topology_written`: both programs read a file of printed lines as these lines.
* `Phased.mainText_iff`: a program of this kind writes the texts of its phases, one for every
  topology on the way, exactly if all lines are numbers and every phase has a text.

Out of scope: the number of arguments and what goes to the terminal; a file that cannot be opened,
from which `getline` reads nothing, as from an empty one; and an output file that is left unfinished
by a program that does not end.
-/

namespace NetworkingLearning.Routing

open NetworkingLearning.Machine NetworkingLearning.Paths NetworkingLearning.Text

/-! ## The text of a phase -/

/-- The line `fprintf` writes for a row. -/
def Row.text (r : Row) : String := s!"{r.dest} {r.next} {r.cost}"

/-- What `print_results` writes. -/
def resultsText (rows : List Row) (reports : List Report) : String :=
  String.join (rows.map fun r => r.text ++ "\n") ++
    String.join (reports.map fun r => r.text ++ "\n")

/-! ## The loops of `main` -/

section Main

variable {σ : Type} (buildLine : σ → Line → σ) (phase : ℕ → σ → Option (σ × String))

/-- The loop over the topology file. -/
def readTopology (s : σ) (lines : List Str) : Option σ :=
  lines.foldlM (fun s line => do
    let l ← readLine line
    some (buildLine s l)) s

/-- The loop over the changes file, from the `i`-th phase on. -/
def changesText : ℕ → σ → List Str → Option String
  | _, _, [] => some ""
  | i, s, line :: lines => do
    let l ← readLine line
    let r ← phase i (buildLine s l)
    let texts ← changesText (i + 1) r.1 lines
    some (r.2 ++ texts)

/-- `main`, started with `s`. -/
def mainText (s : σ) (topofile changesfile : Str) : Option String := do
  let s ← readTopology buildLine s (getlines topofile)
  let r ← phase 0 s
  let texts ← changesText buildLine phase 1 r.1 (getlines changesfile)
  some (r.2 ++ texts)

end Main

namespace LinkState

/-- `print_results`, with what it writes. -/
def printText (fuel : ℕ) (messagefile : Str) (ls : LinkState) : Option (LinkState × String) := do
  let table ← printTable ls
  let r ← printFile fuel table.1 (getlines messagefile)
  some (r.1, resultsText table.2 r.2)

/-- One phase of `main`. -/
def phaseText (ord : ℕ → IterOrder (ℤ × ℕ)) (fuel : ℕ) (messagefile : Str) (i : ℕ)
    (ls : LinkState) : Option (LinkState × String) := do
  let ls ← buildNodesForwardingTables (ord i) ls
  printText fuel messagefile ls

/-- `main`: what it writes. -/
def output (ord : ℕ → IterOrder (ℤ × ℕ)) (fuel : ℕ) (topofile messagefile changesfile : Str) :
    Option String :=
  mainText (fun ls l => ls.buildLine l.1 l.2.1 l.2.2) (phaseText ord fuel messagefile) init
    topofile changesfile

end LinkState

namespace DistanceVector

/-- `print_results`, with what it writes. -/
def printText (fuel : ℕ) (messagefile : Str) (dv : DistanceVector) :
    Option (DistanceVector × String) := do
  let table ← printTable dv
  if table.1.graph.keys.length ≥ 8 then do
    let r ← printFile fuel table.1 (getlines messagefile)
    some (r.1, resultsText table.2 r.2)
  else some (table.1, resultsText table.2 [])

/-- One phase of `main`. -/
def phaseText (ord : ℕ → IterOrder (ℕ × ℤ × ℕ)) (fuel : ℕ) (messagefile : Str) (i : ℕ)
    (dv : DistanceVector) : Option (DistanceVector × String) := do
  let dv ← buildNodesForwardingTables (ord i) fuel dv
  printText fuel messagefile dv

/-- `main`: what it writes. -/
def output (ord : ℕ → IterOrder (ℕ × ℤ × ℕ)) (fuel : ℕ) (topofile messagefile changesfile : Str) :
    Option String :=
  mainText (fun dv l => dv.buildLine l.1 l.2.1 l.2.2) (phaseText ord fuel messagefile) init
    topofile changesfile

end DistanceVector

/-! ## What is written -/

/-- The lines are read as the numbers. -/
def ReadsLines (lines : List Str) (ls : List Line) : Prop :=
  List.Forall₂ (fun line l => readLine line = some l) lines ls

/-- The topologies after each further line. -/
def Topology.after : Topology → List Line → List Topology
  | _, [] => []
  | T, l :: lines => T.line l.1 l.2.1 l.2.2 :: (T.line l.1 l.2.1 l.2.2).after lines

/-- The topologies of the phases. -/
def Topology.phases (topo changes : List Line) : List Topology :=
  Topology.ofLines topo :: (Topology.ofLines topo).after changes

section Main

variable {σ : Type} {buildLine : σ → Line → σ} {phase : ℕ → σ → Option (σ × String)}

theorem readLine_le {line : Str} {l : Line} (h : readLine line = some l) : l.2.2 ≤ intMax := by
  obtain ⟨splitted, -, h⟩ := Option.bind_eq_some_iff.mp h
  obtain ⟨node1, -, h⟩ := Option.bind_eq_some_iff.mp h
  obtain ⟨node2, -, h⟩ := Option.bind_eq_some_iff.mp h
  obtain ⟨dist, hdist, h⟩ := Option.bind_eq_some_iff.mp h
  obtain rfl := Option.some.inj h
  obtain ⟨piece, -, hdist⟩ := Option.bind_eq_some_iff.mp hdist
  simp only [stoi] at hdist
  split_ifs at hdist with h0 hrange
  obtain rfl := Option.some.inj hdist
  show (strtol piece).1 ≤ intMax
  unfold intMax
  omega

theorem readTopology_iff : ∀ {lines : List Str} {s s' : σ},
    readTopology buildLine s lines = some s' ↔
      ∃ topo, ReadsLines lines topo ∧ s' = topo.foldl buildLine s := by
  intro lines
  induction lines with
  | nil =>
    intro s s'
    constructor
    · exact fun h => ⟨[], List.Forall₂.nil, (Option.some.inj h).symm⟩
    · rintro ⟨topo, hreads, rfl⟩
      obtain rfl := List.forall₂_nil_left_iff.mp hreads
      rfl
  | cons line lines ih =>
    intro s s'
    rw [readTopology, List.foldlM_cons]
    constructor
    · intro h
      obtain ⟨s1, hs1, h⟩ := Option.bind_eq_some_iff.mp h
      obtain ⟨l, hl, hs1⟩ := Option.bind_eq_some_iff.mp hs1
      obtain rfl := Option.some.inj hs1
      obtain ⟨topo, hreads, rfl⟩ := ih.mp h
      exact ⟨l :: topo, List.Forall₂.cons hl hreads, rfl⟩
    · rintro ⟨topo, hreads, rfl⟩
      obtain ⟨l, topo, hl, htopo, rfl⟩ := List.forall₂_cons_left_iff.mp hreads
      rw [hl]
      exact ih.mpr ⟨topo, htopo, rfl⟩

theorem changesText_reads : ∀ {lines : List Str} {i : ℕ} {s : σ} {out : String},
    changesText buildLine phase i s lines = some out → ∃ changes, ReadsLines lines changes := by
  intro lines
  induction lines with
  | nil => exact fun _ => ⟨[], List.Forall₂.nil⟩
  | cons line lines ih =>
    intro i s out h
    obtain ⟨l, hl, h⟩ := Option.bind_eq_some_iff.mp h
    obtain ⟨r, -, h⟩ := Option.bind_eq_some_iff.mp h
    obtain ⟨texts, htexts, -⟩ := Option.bind_eq_some_iff.mp h
    obtain ⟨changes, hreads⟩ := ih htexts
    exact ⟨l :: changes, List.Forall₂.cons hl hreads⟩

/-- What a program of this kind keeps: `Good` of a topology and a state, through lines, and through
phases of topologies that are `Fit`. What a phase writes is what `Writes` tells. -/
structure Phased (buildLine : σ → Line → σ) (phase : ℕ → σ → Option (σ × String))
    (Good : Topology → σ → Prop) (Fit : Topology → Prop) (Writes : Topology → String → Prop) :
    Prop where
  line : ∀ T s l, Good T s → l.2.2 ≤ intMax →
    Good (T.line l.1 l.2.1 l.2.2) (buildLine s l)
  keeps : ∀ i T s r, Good T s → Fit T → phase i s = some r → Good T r.1
  writes : ∀ i T s text, Good T s → Fit T → ((∃ s', phase i s = some (s', text)) ↔ Writes T text)

variable {Good : Topology → σ → Prop} {Fit : Topology → Prop} {Writes : Topology → String → Prop}

theorem Phased.foldl_line (hP : Phased buildLine phase Good Fit Writes) :
    ∀ {lines : List Str} {topo : List Line} {T : Topology} {s : σ}, Good T s →
      ReadsLines lines topo → Good (topo.foldl (fun T l => T.line l.1 l.2.1 l.2.2) T)
        (topo.foldl buildLine s) := by
  intro lines topo T s hs hreads
  induction hreads generalizing T s with
  | nil => exact hs
  | cons hl _ ih => exact ih (hP.line T s _ hs (readLine_le hl))

/-- **The phases of the changes file.** -/
theorem Phased.changesText_iff (hP : Phased buildLine phase Good Fit Writes) :
    ∀ {lines : List Str} {changes : List Line} {T : Topology} {s : σ} {i : ℕ} {out : String},
      Good T s → ReadsLines lines changes → (∀ U ∈ T.after changes, Fit U) →
      (changesText buildLine phase i s lines = some out ↔
        ∃ texts, List.Forall₂ Writes (T.after changes) texts ∧ out = String.join texts) := by
  intro lines changes T s i out hs hreads hfit
  induction hreads generalizing T s i out with
  | nil =>
    constructor
    · exact fun h => ⟨[], List.Forall₂.nil, (Option.some.inj h).symm⟩
    · rintro ⟨texts, hwrites, rfl⟩
      obtain rfl := List.forall₂_nil_left_iff.mp hwrites
      rfl
  | @cons line l lines changes hl _ ih =>
    obtain ⟨hfit1, hfit⟩ := List.forall_mem_cons.mp hfit
    have hs1 := hP.line T s l hs (readLine_le hl)
    have hwrites := hP.writes i (T.line l.1 l.2.1 l.2.2) (buildLine s l)
    rw [changesText, hl, Option.bind_eq_bind, Option.bind_some]
    constructor
    · intro h
      obtain ⟨r, hr, h⟩ := Option.bind_eq_some_iff.mp h
      obtain ⟨rest, hrest, h⟩ := Option.bind_eq_some_iff.mp h
      obtain rfl := Option.some.inj h
      obtain ⟨texts, htexts, rfl⟩ := (ih (hP.keeps i _ _ r hs1 hfit1 hr) hfit).mp hrest
      exact ⟨r.2 :: texts, List.Forall₂.cons ((hwrites r.2 hs1 hfit1).mp ⟨r.1, hr⟩) htexts,
        (String.join_cons ..).symm⟩
    · rintro ⟨texts, htexts, rfl⟩
      obtain ⟨text, rest, htext, hrest, rfl⟩ := List.forall₂_cons_left_iff.mp htexts
      obtain ⟨s', hr⟩ := (hwrites text hs1 hfit1).mpr htext
      have hrest := (ih (i := i + 1) (hP.keeps i _ _ _ hs1 hfit1 hr) hfit).mpr ⟨rest, hrest, rfl⟩
      rw [hr, Option.bind_eq_bind, Option.bind_some, hrest, String.join_cons]
      rfl

/-- **What a program of this kind writes**: a text for every topology on the way. -/
theorem Phased.mainText_iff (hP : Phased buildLine phase Good Fit Writes) {s : σ}
    (hs : Good Topology.empty s) {topofile changesfile : Str}
    (hfit : ∀ topo changes, ReadsLines (getlines topofile) topo →
      ReadsLines (getlines changesfile) changes → ∀ U ∈ Topology.phases topo changes, Fit U)
    {out : String} :
    mainText buildLine phase s topofile changesfile = some out ↔ ∃ topo changes texts,
      ReadsLines (getlines topofile) topo ∧ ReadsLines (getlines changesfile) changes ∧
      List.Forall₂ Writes (Topology.phases topo changes) texts ∧ out = String.join texts := by
  constructor
  · intro h
    obtain ⟨s1, hs1, h⟩ := Option.bind_eq_some_iff.mp h
    obtain ⟨r, hr, h⟩ := Option.bind_eq_some_iff.mp h
    obtain ⟨rest, hrest, h⟩ := Option.bind_eq_some_iff.mp h
    obtain rfl := Option.some.inj h
    obtain ⟨topo, htopo, rfl⟩ := readTopology_iff.mp hs1
    obtain ⟨changes, hchanges⟩ := changesText_reads hrest
    have hgood := hP.foldl_line hs htopo
    obtain ⟨hfit0, hfit⟩ := List.forall_mem_cons.mp (hfit topo changes htopo hchanges)
    obtain ⟨texts, htexts, rfl⟩ :=
      (hP.changesText_iff (hP.keeps 0 _ _ r hgood hfit0 hr) hchanges hfit).mp hrest
    exact ⟨topo, changes, r.2 :: texts, htopo, hchanges,
      List.Forall₂.cons ((hP.writes 0 _ _ r.2 hgood hfit0).mp ⟨r.1, hr⟩) htexts,
      (String.join_cons ..).symm⟩
  · rintro ⟨topo, changes, texts, htopo, hchanges, htexts, rfl⟩
    obtain ⟨text, rest, htext, hrest, rfl⟩ := List.forall₂_cons_left_iff.mp htexts
    have hgood := hP.foldl_line hs htopo
    obtain ⟨hfit0, hfit⟩ := List.forall_mem_cons.mp (hfit topo changes htopo hchanges)
    obtain ⟨s', hr⟩ := (hP.writes 0 _ _ text hgood hfit0).mpr htext
    have hrest := (hP.changesText_iff (i := 1) (hP.keeps 0 _ _ _ hgood hfit0 hr) hchanges
      hfit).mpr ⟨rest, hrest, rfl⟩
    rw [mainText, readTopology_iff.mpr ⟨topo, htopo, rfl⟩, Option.bind_eq_bind, Option.bind_some,
      hr, Option.bind_eq_bind, Option.bind_some, hrest, String.join_cons]
    rfl

end Main

/-! ## A file that was written -/

/-- A line as it is written with `%d %d %d`. -/
def Line.bytes (l : Line) : List UInt8 :=
  printInt l.1 ++ 32 :: (printInt l.2.1 ++ 32 :: printInt l.2.2)

/-- The numbers of a line are `int`s. -/
def Line.IsInt (l : Line) : Prop :=
  (-2 ^ 31 ≤ l.1 ∧ l.1 < 2 ^ 31) ∧ (-2 ^ 31 ≤ l.2.1 ∧ l.2.1 < 2 ^ 31) ∧
    (-2 ^ 31 ≤ l.2.2 ∧ l.2.2 < 2 ^ 31)

instance (l : Line) : Decidable l.IsInt := inferInstanceAs (Decidable (_ ∧ _ ∧ _))

section Written

variable {file : Str} {lines : List Str} {topo : List Line}

theorem lf_notMem_bytes (l : Line) : 10 ∉ l.bytes := by
  have hint : ∀ v, 10 ∉ printInt v := fun v h => by
    rcases mem_printInt h with h | h
    · exact absurd h (by decide)
    · exact absurd h (by decide)
  simp [Line.bytes, hint]

/-- The line is the one that is written for the numbers. -/
def Line.Written (s : Str) (l : Line) : Prop := s.chars = l.bytes ∧ l.IsInt

/-- **A written file is read.** -/
theorem readsLines_written (hlines : List.Forall₂ Line.Written lines topo)
    (hfile : file.chars = unlines lines ∨ file.chars ++ [10] = unlines lines) :
    ReadsLines (getlines file) topo := by
  have hall : ∀ s ∈ lines, 10 ∉ s.chars ∧ s.chars ≠ [] := by
    clear hfile
    induction hlines with
    | nil => exact fun s hs => absurd hs List.not_mem_nil
    | cons h _ ih =>
      refine List.forall_mem_cons.mpr ⟨?_, ih⟩
      rw [h.1]
      exact ⟨lf_notMem_bytes _, by simp [Line.bytes]⟩
  rw [getlines_written hall hfile]
  exact hlines.imp fun s l ⟨hs, h1, h2, h3⟩ => readLine_printInt h1 h2 h3 hs

end Written

/-- **Both programs read a topology file as it was written**: any links between any `int`s, one a
line, with or without a line feed at the end. -/
theorem topology_written {file : Str} {lines : List Str} {topo : List Line}
    (hlines : List.Forall₂ Line.Written lines topo)
    (hfile : file.chars = unlines lines ∨ file.chars ++ [10] = unlines lines) :
    readTopology (fun ls l => LinkState.buildLine ls l.1 l.2.1 l.2.2) LinkState.init
        (getlines file) =
        some (topo.foldl (fun ls l => LinkState.buildLine ls l.1 l.2.1 l.2.2) LinkState.init) ∧
      readTopology (fun dv l => DistanceVector.buildLine dv l.1 l.2.1 l.2.2) DistanceVector.init
        (getlines file) =
        some (topo.foldl (fun dv l => DistanceVector.buildLine dv l.1 l.2.1 l.2.2)
          DistanceVector.init) := by
  have hreads := readsLines_written hlines hfile
  exact ⟨readTopology_iff.mpr ⟨topo, hreads, rfl⟩, readTopology_iff.mpr ⟨topo, hreads, rfl⟩⟩

/-- A line as it is written. -/
def lineOf (l : Line) (h : l.bytes.length < npos) : Str := ⟨l.bytes, h⟩

/-- A new link, one with a negative id, and one that is removed, without a line feed at the end. -/
def threeLines : Str := ⟨ascii "1 2 8\n-1 2 5\n2 1 -999", by decide⟩

theorem topology_written_threeLines :
    readTopology (fun ls l => LinkState.buildLine ls l.1 l.2.1 l.2.2) LinkState.init
        (getlines threeLines) = some (((LinkState.init.buildLine 1 2 8).buildLine
          (-1) 2 5).buildLine 2 1 (-999)) ∧
      readTopology (fun dv l => DistanceVector.buildLine dv l.1 l.2.1 l.2.2) DistanceVector.init
        (getlines threeLines) = some (((DistanceVector.init.buildLine 1 2 8).buildLine
          (-1) 2 5).buildLine 2 1 (-999)) := by
  have hlines : List.Forall₂ Line.Written [lineOf (1, 2, 8) (by decide),
      lineOf (-1, 2, 5) (by decide), lineOf (2, 1, -999) (by decide)]
      [(1, 2, 8), (-1, 2, 5), (2, 1, -999)] :=
    List.Forall₂.cons ⟨rfl, by decide⟩ (List.Forall₂.cons ⟨rfl, by decide⟩
      (List.Forall₂.cons ⟨rfl, by decide⟩ List.Forall₂.nil))
  exact topology_written hlines (Or.inr (by decide))

end NetworkingLearning.Routing
