import NetworkingLearning.Csma.Counts
import NetworkingLearning.Csma.Slotted

/-!
# The report (`csma.py:142-177`)

Model of `create_report` (`csma.py:157-177`) with `var_trans` and `var_coll` (`csma.py:148-152`). It
is called on whatever `simulate` has returned, and `simulate` without arguments does not reset the
times of the model: a second call adds to those of the first, and `tol_time` stays what it is.

* The order of what is done matters where it fails. `get_util` divides by `tol_time` before the file
  is opened; `pvariance` of no nodes raises when three lines are written (`createReport`).
* The numbers of the report are exact here. The program rounds them to floats, and those to the
  digits that it prints.
* `Accumulated k` models have been simulated `k` times since they were constructed or reinitialised.
* With fewer than three nodes the branch of a transmission reads behind the list (`csma.py:118`).
  `Silent` is the invariant of the runs that never come to it.

Results:
* `report_slotted`: the report of a run is that of the channel, slot by slot.
* `simulate_credited`: `simulate` adds to the times, and does not read them.
* `report_accumulated`: what is reported after several calls.
* `few_nodes_silent`: with fewer than three nodes nothing is sent.

Out of scope: what is printed to the terminal (`csma.py:158-165`), which is the same numbers again,
and a file that cannot be opened.
-/

namespace NetworkingLearning.Csma

open NetworkingLearning.Heaps NetworkingLearning.Machine
open scoped List

/-! ## `create_report` -/

/-- `pvariance`; `none` is a `StatisticsError`. -/
def pvariance (data : List ℕ) : Option ℚ :=
  if data = [] then none
  else
    let mean : ℚ := data.sum / data.length
    some ((data.map fun x : ℕ => ((x : ℚ) - mean) ^ 2).sum / data.length)

/-- `var_trans`. -/
def varTrans (c : CSMA) : Option ℚ := pvariance (c.nodes.map Node.numTrans)

/-- `var_coll`. -/
def varColl (c : CSMA) : Option ℚ := pvariance (c.nodes.map Node.numColls)

/-- A line of the report: its text, and the number behind it. -/
structure ReportLine where
  text : String
  value : ℚ
  deriving DecidableEq

/-- The lines in front of the variances. -/
def headLines (c : CSMA) : List ReportLine :=
  [⟨"Channel utilization (in percentage): ", getUtil c⟩,
    ⟨"Channel idle fraction (in percentage): ", getIdleFraction c⟩,
    ⟨"Total number of collisions: ", getTotalCollisions c⟩]

/-- The line with `var_trans`. -/
def varTransLine (v : ℚ) : ReportLine :=
  ⟨"Variance in number of successful transmissions (across all nodes): ", v⟩

/-- The line with `var_coll`. -/
def varCollLine (v : ℚ) : ReportLine :=
  ⟨"Variance in number of collisions (across all nodes): ", v⟩

/-- The exceptions of `create_report`. -/
inductive ReportError
  | zeroDivisionError
  | statisticsError
  deriving DecidableEq

/-- What a call of `create_report` leaves: the lines of the file, if it has been opened, and the
exception that it ends with, if there is one. -/
structure Report where
  file : Option (List ReportLine)
  exception : Option ReportError
  deriving DecidableEq

/-- `create_report`. The first quotient is taken before the file is opened. -/
def createReport (c : CSMA) : Report :=
  if c.tolTime = 0 then ⟨none, some .zeroDivisionError⟩
  else
    match varTrans c with
    | none => ⟨some (headLines c), some .statisticsError⟩
    | some vt =>
      match varColl c with
      | none => ⟨some (headLines c ++ [varTransLine vt]), some .statisticsError⟩
      | some vc => ⟨some (headLines c ++ [varTransLine vt, varCollLine vc]), none⟩

section Report

variable {c : CSMA} {x : Slotted} {config : Config} {draws draws' : Draws} {fuel : ℕ}
  {data data' : List ℕ}

/-- The order of the data does not matter. -/
theorem pvariance_perm (h : data ~ data') : pvariance data = pvariance data' := by
  have hnil : data = [] ↔ data' = [] :=
    ⟨fun hd => List.nil_perm.mp (hd ▸ h), fun hd => List.perm_nil.mp (hd ▸ h)⟩
  unfold pvariance
  simp only [hnil, h.sum_eq, h.length_eq, (h.map _).sum_eq]

/-- The report of a channel. -/
def Slotted.report (T : ℤ) (x : Slotted) : Report :=
  createReport ⟨0, 0, [], 0, T, x.nodes, x.sending, x.idle, x.coll⟩

/-- Models with the same numbers have the same report. -/
theorem SameNumbers.report (h : SameNumbers c x) : createReport c = x.report c.tolTime := by
  obtain ⟨htrans, hcolls⟩ : c.nodes.map Node.numTrans ~ x.nodes.map Node.numTrans ∧
      c.nodes.map Node.numColls ~ x.nodes.map Node.numColls := by
    have ht := h.nodes.map fun n : ℤ × ℕ × ℕ × ℕ => n.2.2.2
    have hc := h.nodes.map fun n : ℤ × ℕ × ℕ × ℕ => n.2.2.1
    rw [List.map_map, List.map_map] at ht hc
    exact ⟨ht, hc⟩
  unfold Slotted.report createReport headLines
  simp only [varTrans, varColl, getUtil, getIdleFraction, getTotalCollisions, h.sending, h.idle,
    pvariance_perm htrans, pvariance_perm hcolls, hcolls.sum_eq]

end Report

/-! ## Several calls -/

section Credited

variable (a i k : ℤ)

/-- A model with more time on its books. -/
def CSMA.credited (c : CSMA) : CSMA :=
  { c with
    sendingTime := c.sendingTime + a
    idleTime := c.idleTime + i
    collTime := c.collTime + k }

/-- A state with more time on its books. -/
def Run.credited (s : Run) : Run := { s with csma := s.csma.credited a i k }

@[simp] theorem book_credited (s : Run) :
    book (s.credited a i k) = Run.credited a i k <$> book s := by
  unfold book
  show (if s.occupiedFlag then _ else if s.nextIdleTime > 0 then _ else _) = _
  split_ifs
  · simp only [map_bind, map_pure, Run.credited, CSMA.credited, add_right_comm]
  · simp only [Functor.map, Except.map, Run.credited, CSMA.credited, add_right_comm]
  · rfl

@[simp] theorem settle_credited (s : Run) :
    settle (s.credited a i k) = Run.credited a i k <$> settle s := by
  unfold settle
  rw [book_credited, bind_map_left, map_bind]
  simp only [map_bind, map_pure]
  rfl

@[simp] theorem act_credited (s : Run) (b : Branch) :
    act (s.credited a i k) b = Run.credited a i k <$> act s b := by
  cases b with
  | idle => rfl
  | collision =>
    simp only [act, Run.credited, CSMA.credited, map_bind, map_pure, add_right_comm]
  | transmission => rfl

/-- **An iteration** adds to the times, and does not read them. -/
theorem iteration_credited (s : Run) :
    iteration (s.credited a i k) = Run.credited a i k <$> iteration s := by
  unfold iteration
  rw [settle_credited, bind_map_left, map_bind]
  simp only [act_credited, map_bind]
  rfl

theorem simulateLoop_credited (fuel : ℕ) (s : Run) :
    simulateLoop fuel (s.credited a i k) = Run.credited a i k <$> simulateLoop fuel s := by
  induction fuel generalizing s with
  | zero =>
    unfold simulateLoop
    show (if s.time < s.csma.tolTime then _ else _) = _
    split_ifs <;> rfl
  | succ fuel ih =>
    unfold simulateLoop
    show (if s.time < s.csma.tolTime then _ else _) = _
    split_ifs
    · show iteration (s.credited a i k) >>= simulateLoop fuel =
        Run.credited a i k <$> (iteration s >>= simulateLoop fuel)
      rw [iteration_credited, bind_map_left, map_bind]
      simp only [ih]
    · rfl

@[simp] theorem finish_credited (s : Run) :
    finish (s.credited a i k) = (finish s).credited a i k := by
  unfold finish
  show (if s.occupiedFlag then _ else if s.nextIdleTime > 0 then _ else _) = _
  split_ifs
  · simp only [Run.credited, CSMA.credited, add_right_comm]
  · simp only [Run.credited, CSMA.credited, add_right_comm]
  · rfl

/-- **`simulate`** without arguments adds to the times, and does not read them. -/
theorem simulate_credited (fuel : ℕ) (c : CSMA) (draws : Draws) :
    simulate fuel none none none (c.credited a i k) draws =
      (fun p => (p.1.credited a i k, p.2)) <$> simulate fuel none none none c draws := by
  have hstart : Run.start (c.credited a i k) draws = (Run.start c draws).credited a i k := rfl
  have hloop : ∀ c : CSMA, simulate fuel none none none c draws =
      (fun s => (finish s, s.draws)) <$> simulateLoop fuel (Run.start c draws) := fun c => by
    rw [map_eq_pure_bind]
    rfl
  rw [hloop, hloop, hstart, simulateLoop_credited, Functor.map_map, Functor.map_map]
  simp only [finish_credited]
  rfl

end Credited

section Calls

variable {N L : Option ℤ} {R : Option (List ℤ)} {c c' : CSMA} {draws draws' : Draws}
  {fuel k : ℕ} {s : Run}

@[simp] theorem finish_packetLen (s : Run) : (finish s).packetLen = s.csma.packetLen := by
  unfold finish
  split_ifs <;> rfl

/-- The times of a call on a model whose times are `0`, or that it reinitialises. -/
theorem times_simulate (hfresh : N = none → L = none → R = none → Fresh c)
    (hL : 0 ≤ L.getD c.packetLen) (hT : 0 ≤ c.tolTime)
    (h : simulate fuel N L R c draws = .ok (c', draws')) :
    c'.packetLen = L.getD c.packetLen ∧ c'.tolTime = c.tolTime ∧ 0 ≤ c'.sendingTime ∧
      0 ≤ c'.idleTime ∧ 0 ≤ c'.collTime ∧
      c'.sendingTime + c'.idleTime + c'.collTime = c.tolTime := by
  obtain ⟨⟨c₁, draws₁⟩, hprep, h⟩ := bind_ok.mp h
  obtain ⟨s, hloop, h⟩ := bind_ok.mp h
  obtain ⟨rfl, -⟩ := Prod.mk.inj (Except.ok.inj h)
  obtain ⟨hf, hL', hT'⟩ := prepare_spec hfresh hprep
  obtain ⟨hbook, htime⟩ := booked_simulateLoop (by omega) fuel _ s
    (booked_start hf (by omega) draws₁) hloop
  obtain ⟨h1, h2, h3, h4, h5⟩ := booked_finish hbook htime
  exact ⟨(finish_packetLen s).trans (hbook.packetLen.trans hL'), h1.trans hT', h2, h3, h4,
    h5.trans hT'⟩

/-- **The report of a run** is that of the channel slot by slot, on the same draws. -/
theorem report_slotted {config : Config} (hN : 3 ≤ config.N) (hL : 1 ≤ config.L)
    (hT : 0 ≤ config.T) (h : constructAndSimulate fuel config draws = .ok (c, draws')) :
    ∃ x, slotted config draws = .ok x ∧ x.draws = draws' ∧
      createReport c = x.report config.T := by
  obtain ⟨nodes, draws₁, x, hnodes, hslots, hdraws, hsame⟩ := slots_of_simulate h hN hL hT
  obtain ⟨⟨c₀, draws₀⟩, hcon, h⟩ := bind_ok.mp h
  obtain ⟨hfresh, -, hlen, htol⟩ := construct_spec hcon
  have hlen₀ : 0 ≤ c₀.packetLen := by omega
  have htime := (times_simulate (L := none) (fun _ _ _ => hfresh) hlen₀ (by omega) h).2.1
  exact ⟨x, bind_ok.mpr ⟨_, hnodes, hslots⟩, hdraws, htol ▸ htime ▸ hsame.report⟩

/-- A packet of two units of time in a run of three. -/
theorem report_slotted_threeNodes : ∃ c x,
    constructAndSimulate 3 ⟨3, 2, [3], 0, 3⟩ [0, 1, 3, 3] = .ok (c, []) ∧
      slotted ⟨3, 2, [3], 0, 3⟩ [0, 1, 3, 3] = .ok x ∧ x.sending = 2 ∧
      createReport c = x.report 3 := by
  have hrun : constructAndSimulate 3 ⟨3, 2, [3], 0, 3⟩ [0, 1, 3, 3] = .ok (⟨3, 2, [3], 0, 3,
      [⟨1, [3], 0, 0, 0, 0, 1⟩, ⟨0, [3], 0, 0, 0, 1, 3⟩, ⟨2, [3], 0, 0, 0, 0, 3⟩], 2, 1, 0⟩, []) :=
    rfl
  obtain ⟨x, hslots, -, hreport⟩ := report_slotted (by decide) (by decide) (by decide) hrun
  have hsending : (slotted ⟨3, 2, [3], 0, 3⟩ [0, 1, 3, 3]).map Slotted.sending = .ok 2 := rfl
  rw [hslots] at hsending
  exact ⟨_, x, hrun, hslots, Except.ok.inj hsending, hreport⟩

/-- **A call on any model** adds `tol_time` to its times. -/
theorem times_again (hL : 0 ≤ c.packetLen) (hT : 0 ≤ c.tolTime)
    (h : simulate fuel none none none c draws = .ok (c', draws')) :
    c'.packetLen = c.packetLen ∧ c'.tolTime = c.tolTime ∧ c.sendingTime ≤ c'.sendingTime ∧
      c.idleTime ≤ c'.idleTime ∧ c.collTime ≤ c'.collTime ∧
      c'.sendingTime + c'.idleTime + c'.collTime =
        c.sendingTime + c.idleTime + c.collTime + c.tolTime := by
  -- the same call on the model without the times that it has on its books
  have hzero : simulate fuel none none none
      (c.credited (-c.sendingTime) (-c.idleTime) (-c.collTime)) draws =
        .ok (c'.credited (-c.sendingTime) (-c.idleTime) (-c.collTime), draws') := by
    rw [simulate_credited, h]
    rfl
  have hfresh : Fresh (c.credited (-c.sendingTime) (-c.idleTime) (-c.collTime)) :=
    ⟨add_neg_cancel _, add_neg_cancel _, add_neg_cancel _⟩
  obtain ⟨h1, h2, h3, h4, h5, h6⟩ := times_simulate (L := none) (fun _ _ _ => hfresh) hL hT
    hzero
  simp only [CSMA.credited, Option.getD_none] at h1 h2 h3 h4 h5 h6
  exact ⟨h1, h2, by omega, by omega, by omega, by omega⟩

/-- The models that have been simulated a number of times since they were constructed or
reinitialised. -/
inductive Accumulated : ℕ → CSMA → Prop
  | new {config : Config} {draws draws' : Draws} {c : CSMA} (hL : 0 ≤ config.L)
      (hT : 0 ≤ config.T) (h : construct config draws = .ok (c, draws')) : Accumulated 0 c
  | again {k fuel : ℕ} {draws draws' : Draws} {c c' : CSMA} (hc : Accumulated k c)
      (h : simulate fuel none none none c draws = .ok (c', draws')) : Accumulated (k + 1) c'
  | anew {k fuel : ℕ} {N L : Option ℤ} {R : Option (List ℤ)} {draws draws' : Draws}
      {c c' : CSMA} (hc : Accumulated k c) (hargs : N.isSome ∨ L.isSome ∨ R.isSome)
      (hL : ∀ l ∈ L, 0 ≤ l) (h : simulate fuel N L R c draws = .ok (c', draws')) :
      Accumulated 1 c'

/-- **The times of all calls** add up. -/
theorem Accumulated.times (h : Accumulated k c) :
    0 ≤ c.packetLen ∧ 0 ≤ c.tolTime ∧ 0 ≤ c.sendingTime ∧ 0 ≤ c.idleTime ∧ 0 ≤ c.collTime ∧
      c.sendingTime + c.idleTime + c.collTime = k * c.tolTime := by
  induction h with
  | new hL hT h =>
    obtain ⟨⟨h1, h2, h3⟩, -, h4, h5⟩ := construct_spec h
    refine ⟨h4 ▸ hL, h5 ▸ hT, h1.ge, h2.ge, h3.ge, ?_⟩
    rw [h1, h2, h3, Nat.cast_zero, zero_mul]
    rfl
  | again hc h ih =>
    obtain ⟨hL, hT, h1, h2, h3, h4⟩ := ih
    obtain ⟨h5, h6, h7, h8, h9, h10⟩ := times_again hL hT h
    refine ⟨h5 ▸ hL, h6 ▸ hT, h1.trans h7, h2.trans h8, h3.trans h9, ?_⟩
    rw [h10, h4, h6, Nat.cast_add, Nat.cast_one, add_mul, one_mul]
  | @anew k fuel N L R draws draws' c c' hc hargs hL h ih =>
    have hlen : 0 ≤ L.getD c.packetLen := by
      cases L with
      | none => exact ih.1
      | some l => exact hL l rfl
    obtain ⟨h5, h6, h7, h8, h9, h10⟩ := times_simulate
      (fun hN hL hR => absurd hargs (by simp [hN, hL, hR])) hlen ih.2.1 h
    refine ⟨h5 ▸ hlen, h6 ▸ ih.2.1, h7, h8, h9, ?_⟩
    rw [h10, h6, Nat.cast_one, one_mul]

end Calls

section Few

variable {s s' : Run} {b : Branch} {config : Config} {draws draws' : Draws} {c : CSMA} {fuel : ℕ}
  {N : ℤ}

/-- The third node of the list is looked at before anything is sent, and the second one before a
collision. -/
theorem branch_few (h : branch s = .ok b) (hlen : s.csma.nodes.length ≤ 2) :
    b ≠ .transmission ∧ (s.csma.nodes.length ≤ 1 → b = .idle) := by
  have h2 : s.csma.nodes[2]? = none := List.getElem?_eq_none hlen
  unfold branch at h
  rw [h2] at h
  split_ifs at h with hidle
  · obtain rfl := Except.ok.inj h
    exact ⟨by decide, fun _ => rfl⟩
  · split at h
    · exact nomatch h
    · rename_i node hnode
      refine ⟨?_, fun h1 => ?_⟩
      · split_ifs at h
        · obtain rfl := Except.ok.inj h
          decide
      · rw [List.getElem?_eq_none h1] at hnode
        exact nomatch hnode

/-- Nothing has been sent, and with a single node there was no collision. -/
structure Silent (N : ℤ) (s : Run) : Prop where
  head : HeadOk s
  numNodes : s.csma.numNodes = N
  free : s.occupiedFlag = false
  sending : s.csma.sendingTime = 0
  trans : totalTrans s.csma.nodes = 0
  coll : N ≤ 1 → s.csma.collTime = 0 ∧ getTotalCollisions s.csma = 0

/-- **An iteration** does not break the silence. -/
theorem silent_iteration (hfew : N ≤ 2) (h : Silent N s) (hs : iteration s = .ok s') :
    Silent N s' := by
  obtain ⟨hhead, hnum, hfree, hsend, htrans, hcoll⟩ := h
  obtain ⟨hhead', hN⟩ := headOk_iteration hhead hs
  obtain ⟨htrans', hsend', -⟩ := iteration_counts hhead hs
  rw [hfree] at htrans' hsend'
  obtain ⟨s₂, b, hsettle, hb, hact⟩ := iteration_cases hs
  have hset := (nodesOk_settle hhead hsettle).1
  have hlen := hset.length
  obtain ⟨s₁, node, hbook, -, rfl⟩ := settle_cases hsettle
  have hN₁ := (book_frame hbook).2.2.1
  have hcoll₁ : s₁.csma.collTime = s.csma.collTime ∧
      getTotalCollisions s₁.csma = getTotalCollisions s.csma := by
    rcases book_cases hbook with ⟨hocc, -⟩ | ⟨-, -, rfl⟩ | ⟨-, -, rfl⟩
    · exact absurd hocc (by simp [hfree])
    · refine ⟨rfl, ?_⟩
      unfold getTotalCollisions
      rw [List.map_map]
      rfl
    · exact ⟨rfl, rfl⟩
  simp only at hlen
  obtain ⟨hsends, hsingle⟩ := branch_few hb (by simp only; omega)
  refine ⟨hhead', hN.trans hnum, ?_, ?_, ?_, fun h1 => ?_⟩
  · rcases act_cases hact with ⟨-, rfl⟩ | ⟨-, nodes, again, draws, -, rfl⟩ | ⟨hf, -⟩
    · exact hset.free
    · exact hset.free
    · exact absurd hf hsends
  · rw [hsend', hsend]
    rfl
  · rw [htrans', htrans]
    rfl
  · obtain rfl := hsingle (by simp only; omega)
    obtain ⟨h0, h0'⟩ := hcoll h1
    rcases act_cases hact with ⟨-, rfl⟩ | ⟨hf, -⟩ | ⟨hf, -⟩
    · exact ⟨hcoll₁.1.trans h0, hcoll₁.2.trans h0'⟩
    · exact absurd hf (by decide)
    · exact absurd hf (by decide)

/-- A run with two nodes at most. -/
theorem silent_simulateLoop (hfew : N ≤ 2) (h : Silent N s)
    (hs : simulateLoop fuel s = .ok s') : Silent N s' := by
  obtain ⟨hrun, -⟩ := loopFrom_simulateLoop fuel s (Runs.start rfl) hs
  refine hrun.invariant ?_ ?_
  · rintro _ rfl
    exact h
  · rintro s s' hs ⟨-, hit⟩
    exact silent_iteration hfew hs hit

/-- What is booked after the loop is no sending. -/
theorem Silent.finish (h : Silent N s) :
    (finish s).sendingTime = 0 ∧ totalTrans (finish s).nodes = 0 ∧
      (N ≤ 1 → (finish s).collTime = 0 ∧ getTotalCollisions (finish s) = 0) := by
  obtain ⟨-, -, hfree, hsend, htrans, hcoll⟩ := h
  unfold Csma.finish
  rw [if_neg (by simp [hfree])]
  split_ifs <;> exact ⟨hsend, htrans, hcoll⟩

theorem iteration_ne_nil (hfree : s.occupiedFlag = false) (hs : iteration s = .ok s') :
    s.csma.nodes ≠ [] := by
  obtain ⟨s₂, b, hsettle, -, -⟩ := iteration_cases hs
  obtain ⟨s₁, node, hbook, hnode, -⟩ := settle_cases hsettle
  obtain ⟨rest, hrest⟩ := minCandidate_ok hnode
  rcases book_cases hbook with ⟨hocc, -⟩ | ⟨-, -, rfl⟩ | ⟨-, -, rfl⟩
  · exact absurd hocc (by simp [hfree])
  · intro hnil
    simp [hnil] at hrest
  · exact hrest ▸ List.cons_ne_nil node rest

/-- A list of nodes that are new. -/
theorem counts_construct (h : construct config draws = .ok (c, draws')) :
    NodesOk c.nodes ∧ c.nodes.length = config.N.toNat ∧ totalTrans c.nodes = 0 ∧
      getTotalCollisions c = 0 := by
  obtain ⟨⟨nodes, draws₁⟩, hmap, h⟩ := bind_ok.mp h
  obtain ⟨rfl, -⟩ := Prod.mk.inj (Except.ok.inj h)
  have hall := mapDraws_spec
    (P := fun n => 0 ≤ n.countDownVal ∧ n.numTrans = 0 ∧ n.numColls = 0)
    (fun _ _ _ _ hn => ⟨randBackOff_nonneg hn, by
      obtain ⟨r, d, -, -, -, -, rfl⟩ := randBackOff_spec hn
      exact ⟨rfl, rfl⟩⟩) _ _ _ _ hmap
  obtain ⟨hlen, hnodes⟩ := hall
  have hperm : heapify Node.key nodes ~ nodes := heapify_perm nodes
  rw [range_length, sub_zero] at hlen
  refine ⟨nodesOk_heapify fun n hn => (hnodes n hn).1, hperm.length_eq.trans hlen, ?_, ?_⟩
  · exact (totalTrans_perm hperm).trans (totalTrans_eq_zero fun n hn => (hnodes n hn).2.1)
  · refine (hperm.map Node.numColls).sum_eq.trans (List.sum_eq_zero fun k hk => ?_)
    obtain ⟨n, hn, rfl⟩ := List.mem_map.mp hk
    exact (hnodes n hn).2.2

/-- **With fewer than three nodes nothing is sent**, whatever is drawn: where the run returns, the
whole time was spent idle and in collisions, and with a single node it was spent idle. -/
theorem few_nodes_silent (hN : config.N ≤ 2) (hL : 0 ≤ config.L) (hT : 0 ≤ config.T)
    (h : constructAndSimulate fuel config draws = .ok (c, draws')) :
    c.sendingTime = 0 ∧ totalTrans c.nodes = 0 ∧ c.idleTime + c.collTime = config.T ∧
      (config.N ≤ 1 → c.idleTime = config.T ∧ getTotalCollisions c = 0) := by
  obtain ⟨⟨c₀, draws₀⟩, hcon, h⟩ := bind_ok.mp h
  obtain ⟨hfresh, hnum, hlen, htol⟩ := construct_spec hcon
  obtain ⟨hnodes, hcount, htrans, hcolls⟩ := counts_construct hcon
  obtain ⟨-, -, -, -, -, hsum⟩ := times_simulate (fun _ _ _ => hfresh) (hlen ▸ hL) (htol ▸ hT) h
  obtain ⟨⟨c₁, draws₁⟩, hprep, h⟩ := bind_ok.mp h
  obtain ⟨rfl, rfl⟩ := Prod.mk.inj (Except.ok.inj hprep)
  obtain ⟨s, hloop, h⟩ := bind_ok.mp h
  obtain ⟨rfl, rfl⟩ := Prod.mk.inj (Except.ok.inj h)
  have hquiet : (finish s).sendingTime = 0 ∧ totalTrans (finish s).nodes = 0 ∧
      (config.N ≤ 1 → (finish s).collTime = 0 ∧ getTotalCollisions (finish s) = 0) := by
    rcases lt_or_ge config.N 0 with hneg | hpos
    · -- without nodes there is nothing but the start
      have hnil : (Run.start c₀ draws₀).csma.nodes = [] := List.length_eq_zero_iff.mp (by
        rw [Run.start_csma]
        omega)
      rcases simulateLoop_cases hloop with ⟨-, rfl⟩ | ⟨-, fuel', s₁, -, hit, -⟩
      · exact ⟨hfresh.1, htrans, fun _ => ⟨hfresh.2.2, hcolls⟩⟩
      · exact absurd hnil (iteration_ne_nil rfl hit)
    · have hstart : Silent config.N (Run.start c₀ draws₀) :=
        ⟨⟨hnodes, by rw [Run.start_csma]; omega, fun _ n hn => hnodes.nonneg n hn⟩,
          hnum, rfl, hfresh.1, htrans, fun _ => ⟨hfresh.2.2, hcolls⟩⟩
      exact (silent_simulateLoop hN hstart hloop).finish
  obtain ⟨hsend, htrans', hsingle⟩ := hquiet
  refine ⟨hsend, htrans', by omega, fun h1 => ?_⟩
  obtain ⟨hcoll, hcolls'⟩ := hsingle h1
  exact ⟨by omega, hcolls'⟩

end Few

/-- Two nodes that collide, and then wait to the end. -/
theorem few_nodes_silent_collision : ∃ c,
    constructAndSimulate 2 ⟨2, 1, [3], 0, 2⟩ [0, 0, 3, 3] = .ok (c, []) ∧
      c.sendingTime = 0 ∧ c.collTime = 1 ∧ getTotalCollisions c = 2 := by
  have hrun : constructAndSimulate 2 ⟨2, 1, [3], 0, 2⟩ [0, 0, 3, 3] = .ok (_, []) := rfl
  exact ⟨_, hrun, (few_nodes_silent (by decide) (by decide) (by decide) hrun).1, rfl, rfl⟩

end NetworkingLearning.Csma
