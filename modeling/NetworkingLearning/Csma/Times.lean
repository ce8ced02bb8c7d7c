import Mathlib.Algebra.Order.Field.Rat
import Mathlib.Tactic.Positivity
import NetworkingLearning.Csma.Simulation
import NetworkingLearning.Machine.Runs

/-!
# Conservation of time (`csma.py:98-140`)

`simulate` advances `time` when an activity starts and books it when it is over, one iteration later
(`csma.py:105-113`), or in part after the loop (`csma.py:135-138`). A collision alone is booked at
once (`csma.py:119-120`).

`Booked` says that what is booked and what is `pending` make up `time`, and that the pending
activity started before `tol_time`. Then what is booked after the loop is not negative, and the
three times are `tol_time` in the end.

* `LoopFrom` are the states at the head of the loop, as a run of the transition system whose step is
  an iteration. Results about the loop are about these, and `loopFrom_simulateLoop` and its converse
  connect them to the loop on fuel.
* `Fresh` models are those with the three times at `0`: those that are constructed or reinitialised.

Results:
* `loopFrom_simulateLoop`, `LoopFrom.simulateLoop`: the loop and the states at its head.
* `booked_iteration`: an iteration keeps `Booked`.
* `times_add_up`: the three times are the whole time, and none of them is negative.
-/

namespace NetworkingLearning.Csma

open NetworkingLearning.Heaps NetworkingLearning.Machine

section Steps

variable {s s' s₁ : Run} {b : Branch}

/-- What `book` does. -/
theorem book_cases (h : book s = .ok s') :
    (s.occupiedFlag = true ∧ ∃ root node draws nodes,
      minCandidate s.csma.nodes = .ok root ∧ root.sentPacket s.draws = .ok (node, draws) ∧
      replaceRoot s.csma.nodes node = .ok nodes ∧
      s' = { s with
        csma := { s.csma with
          sendingTime := s.csma.sendingTime + s.csma.packetLen
          nodes := nodes }
        occupiedFlag := false
        draws := draws }) ∨
    (s.occupiedFlag = false ∧ 0 < s.nextIdleTime ∧
      s' = { s with csma := { s.csma with
        idleTime := s.csma.idleTime + s.nextIdleTime
        nodes := s.csma.nodes.map (Node.countDown s.nextIdleTime) } }) ∨
    (s.occupiedFlag = false ∧ s.nextIdleTime ≤ 0 ∧ s' = s) := by
  unfold book at h
  split_ifs at h with hocc hidle
  · obtain ⟨root, hroot, h⟩ := bind_ok.mp h
    obtain ⟨⟨node, draws⟩, hsent, h⟩ := bind_ok.mp h
    obtain ⟨nodes, hnodes, h⟩ := bind_ok.mp h
    exact Or.inl ⟨hocc, root, node, draws, nodes, hroot, hsent, hnodes, (Except.ok.inj h).symm⟩
  · exact Or.inr (Or.inl ⟨by simpa using hocc, hidle, (Except.ok.inj h).symm⟩)
  · exact Or.inr (Or.inr ⟨by simpa using hocc, not_lt.mp hidle, (Except.ok.inj h).symm⟩)

/-- What `settle` adds. -/
theorem settle_cases (h : settle s = .ok s') :
    ∃ s₁ node, book s = .ok s₁ ∧ minCandidate s₁.csma.nodes = .ok node ∧
      s' = { s₁ with nextIdleTime := node.countDownVal } := by
  obtain ⟨s₁, hbook, h⟩ := bind_ok.mp h
  obtain ⟨node, hnode, h⟩ := bind_ok.mp h
  exact ⟨s₁, node, hbook, hnode, (Except.ok.inj h).symm⟩

/-- What `act` does. -/
theorem act_cases (h : act s b = .ok s') :
    (b = .idle ∧ s' = { s with time := s.time + s.nextIdleTime }) ∨
    (b = .collision ∧ ∃ nodes timeoutAgain draws,
      collideLoop (s.draws.length + 1) s.csma.nodes [] s.draws =
        .ok (nodes, timeoutAgain, draws) ∧
      s' = { s with
        csma := { s.csma with
          collTime := s.csma.collTime + 1
          nodes := timeoutAgain.foldl (heappush Node.key) nodes }
        time := s.time + 1
        draws := draws }) ∨
    (b = .transmission ∧
      s' = { s with time := s.time + s.csma.packetLen, occupiedFlag := true }) := by
  cases b with
  | idle => exact Or.inl ⟨rfl, (Except.ok.inj h).symm⟩
  | collision =>
    obtain ⟨⟨nodes, timeoutAgain, draws⟩, hloop, h⟩ := bind_ok.mp h
    exact Or.inr (Or.inl ⟨rfl, nodes, timeoutAgain, draws, hloop, (Except.ok.inj h).symm⟩)
  | transmission => exact Or.inr (Or.inr ⟨rfl, (Except.ok.inj h).symm⟩)

/-- The parts of an iteration. -/
theorem iteration_cases (h : iteration s = .ok s') :
    ∃ s₁ b, settle s = .ok s₁ ∧ branch s₁ = .ok b ∧ act s₁ b = .ok s' := by
  obtain ⟨s₁, hs, h⟩ := bind_ok.mp h
  obtain ⟨b, hb, h⟩ := bind_ok.mp h
  exact ⟨s₁, b, hs, hb, h⟩

theorem iteration_eq (hs : settle s = .ok s₁) (hb : branch s₁ = .ok b) :
    iteration s = act s₁ b := by
  rw [iteration, hs]
  exact congrArg (· >>= act s₁) hb

/-- The branch is idle exactly if time is skipped. -/
theorem branch_idle (h : branch s = .ok b) : b = .idle ↔ 0 < s.nextIdleTime := by
  unfold branch at h
  split_ifs at h with hidle
  · exact ⟨fun _ => hidle, fun _ => (Except.ok.inj h).symm⟩
  · refine ⟨fun hb => ?_, fun h => absurd h hidle⟩
    subst hb
    split at h
    · exact absurd h (by simp)
    · split_ifs at h
      · exact absurd h (by simp)
      · split at h
        · exact absurd h (by simp)
        · split_ifs at h <;> exact absurd h (by simp)

/-- What booking leaves as it is. -/
theorem book_frame (h : book s = .ok s') :
    s'.csma.packetLen = s.csma.packetLen ∧ s'.csma.tolTime = s.csma.tolTime ∧
      s'.csma.numNodes = s.csma.numNodes ∧ s'.time = s.time := by
  rcases book_cases h with ⟨-, root, n, draws, nodes, -, -, -, rfl⟩ | ⟨-, -, rfl⟩ | ⟨-, -, rfl⟩ <;>
    exact ⟨rfl, rfl, rfl, rfl⟩

/-- What an iteration leaves as it is. -/
theorem iteration_frame (h : iteration s = .ok s') :
    s'.csma.packetLen = s.csma.packetLen ∧ s'.csma.tolTime = s.csma.tolTime ∧
      s'.csma.numNodes = s.csma.numNodes := by
  obtain ⟨s₂, b, hsettle, -, hact⟩ := iteration_cases h
  obtain ⟨s₁, node, hbook, -, rfl⟩ := settle_cases hsettle
  obtain ⟨h1, h2, h3, -⟩ := book_frame hbook
  rcases act_cases hact with ⟨-, rfl⟩ | ⟨-, nodes, again, draws, -, rfl⟩ | ⟨-, rfl⟩ <;>
    exact ⟨h1, h2, h3⟩

/-- Booking takes no time. -/
theorem settle_time (h : settle s = .ok s') : s'.time = s.time := by
  obtain ⟨s₁, node, hbook, -, rfl⟩ := settle_cases h
  exact (book_frame hbook).2.2.2

/-- **An iteration takes time.** -/
theorem iteration_time (hL : 1 ≤ s.csma.packetLen) (h : iteration s = .ok s') :
    s.time + 1 ≤ s'.time := by
  have hlen := (iteration_frame h).1
  obtain ⟨s₁, b, hsettle, hb, hact⟩ := iteration_cases h
  have htime := settle_time hsettle
  have hidle := branch_idle hb
  rcases act_cases hact with ⟨rfl, rfl⟩ | ⟨-, nodes, again, draws, -, rfl⟩ | ⟨-, rfl⟩
  · have := hidle.mp rfl
    simp only
    omega
  · simp only
    omega
  · simp only at hlen ⊢
    omega

end Steps

/-! ## The states of a loop -/

/-- The states at the head of the loop, from `s₀` on. -/
def LoopFrom (s₀ : Run) : Run → Prop :=
  Runs (fun s => s = s₀) fun s s' => s.time < s.csma.tolTime ∧ iteration s = .ok s'

section Loop

variable {s₀ s s' : Run} {fuel : ℕ}

/-- The loop returns one of its states, or goes on to it. -/
theorem simulateLoop_cases (h : simulateLoop fuel s = .ok s') :
    (s.csma.tolTime ≤ s.time ∧ s' = s) ∨ (s.time < s.csma.tolTime ∧ ∃ fuel' s₁,
      fuel = fuel' + 1 ∧ iteration s = .ok s₁ ∧ simulateLoop fuel' s₁ = .ok s') := by
  unfold simulateLoop at h
  split_ifs at h with hlt
  · cases fuel with
    | zero => exact nomatch h
    | succ fuel =>
      obtain ⟨s₁, hs, h⟩ := bind_ok.mp h
      exact Or.inr ⟨hlt, fuel, s₁, rfl, hs, h⟩
  · exact Or.inl ⟨not_lt.mp hlt, (Except.ok.inj h).symm⟩

/-- **The loop returns a state that it reaches**, not before `tol_time`. -/
theorem loopFrom_simulateLoop : ∀ (fuel : ℕ) (s : Run), LoopFrom s₀ s →
    simulateLoop fuel s = .ok s' → LoopFrom s₀ s' ∧ s'.csma.tolTime ≤ s'.time := by
  intro fuel
  induction fuel using Nat.strongRecOn with
  | ind fuel ih =>
    intro s h hs
    rcases simulateLoop_cases hs with ⟨hle, rfl⟩ | ⟨hlt, fuel', s₁, rfl, hit, hs⟩
    · exact ⟨h, hle⟩
    · exact ih fuel' (Nat.lt_succ_self fuel') s₁ (h.next ⟨hlt, hit⟩) hs

/-- **From each state that the loop reaches it comes to the same end.** -/
theorem LoopFrom.simulateLoop (h : LoopFrom s₀ s) (hs : simulateLoop fuel s₀ = .ok s') :
    ∃ fuel', Csma.simulateLoop fuel' s = .ok s' := by
  induction h with
  | start heq => exact ⟨fuel, heq ▸ hs⟩
  | next _ hstep ih =>
    obtain ⟨fuel', hs⟩ := ih
    obtain ⟨hlt, hit⟩ := hstep
    rcases simulateLoop_cases hs with ⟨hle, -⟩ | ⟨-, fuel', s₁, rfl, hit', hs⟩
    · exact absurd hlt (not_lt.mpr hle)
    · obtain rfl := Except.ok.inj (hit.symm.trans hit')
      exact ⟨fuel', hs⟩

end Loop

/-! ## Booked time -/

/-- The activity that is not booked yet. -/
def Run.pending (s : Run) : ℤ :=
  if s.occupiedFlag then s.csma.packetLen else max s.nextIdleTime 0

@[simp] theorem Run.pending_occupied {s : Run} (h : s.occupiedFlag = true) :
    s.pending = s.csma.packetLen := if_pos h

@[simp] theorem Run.pending_free {s : Run} (h : s.occupiedFlag = false) :
    s.pending = max s.nextIdleTime 0 := by
  rw [Run.pending, h]
  rfl

@[simp] theorem Run.pending_start (c : CSMA) (draws : Draws) : (Run.start c draws).pending = 0 :=
  rfl

/-- The time spent is booked or pending. -/
structure Booked (L T : ℤ) (s : Run) : Prop where
  packetLen : s.csma.packetLen = L
  tolTime : s.csma.tolTime = T
  sending : 0 ≤ s.csma.sendingTime
  idle : 0 ≤ s.csma.idleTime
  coll : 0 ≤ s.csma.collTime
  time : s.csma.sendingTime + s.csma.idleTime + s.csma.collTime + s.pending = s.time
  started : s.time - s.pending ≤ T

section Booked

variable {L T : ℤ} {s s' : Run}

/-- Booking takes all that is pending. -/
theorem booked_book (hL : 0 ≤ L) (h : Booked L T s) (hb : book s = .ok s') :
    s'.csma.packetLen = L ∧ s'.csma.tolTime = T ∧ 0 ≤ s'.csma.sendingTime ∧
      0 ≤ s'.csma.idleTime ∧ 0 ≤ s'.csma.collTime ∧ s'.occupiedFlag = false ∧
      s'.csma.sendingTime + s'.csma.idleTime + s'.csma.collTime = s'.time ∧
      s'.time = s.time := by
  have htime := h.time
  have hsend := h.sending
  have hidle' := h.idle
  have hlen := h.packetLen
  unfold Run.pending at htime
  rcases book_cases hb with ⟨hocc, root, node, draws, nodes, -, -, -, rfl⟩ |
    ⟨hocc, hidle, rfl⟩ | ⟨hocc, hidle, rfl⟩
  · rw [if_pos hocc] at htime
    exact ⟨h.packetLen, h.tolTime, by simp only; omega, h.idle, h.coll, rfl,
      by simp only; omega, rfl⟩
  · rw [hocc, if_neg (by simp), max_eq_left hidle.le] at htime
    exact ⟨h.packetLen, h.tolTime, h.sending, by simp only; omega, h.coll, hocc,
      by simp only; omega, rfl⟩
  · rw [hocc, if_neg (by simp), max_eq_right hidle] at htime
    exact ⟨h.packetLen, h.tolTime, h.sending, h.idle, h.coll, hocc, by omega, rfl⟩

/-- **An iteration keeps the books.** -/
theorem booked_iteration (hL : 0 ≤ L) (h : Booked L T s) (hT : s.time < T)
    (hs : iteration s = .ok s') : Booked L T s' := by
  obtain ⟨s₂, b, hsettle, hb, hact⟩ := iteration_cases hs
  obtain ⟨s₁, node, hbook, -, rfl⟩ := settle_cases hsettle
  obtain ⟨h1, h2, h3, h4, h5, hocc, hsum, htime⟩ := booked_book hL h hbook
  have hidle := branch_idle hb
  simp only at hidle
  rcases act_cases hact with ⟨rfl, rfl⟩ | ⟨rfl, nodes, again, draws, -, rfl⟩ | ⟨rfl, rfl⟩
  · have hpos := hidle.mp rfl
    refine ⟨h1, h2, h3, h4, h5, ?_, ?_⟩
    all_goals
      simp only [hocc, Run.pending_free, max_eq_left hpos.le]
      omega
  · have hle : node.countDownVal ≤ 0 := not_lt.mp fun hpos => Branch.noConfusion (hidle.mpr hpos)
    refine ⟨h1, h2, h3, h4, by simp only; omega, ?_, ?_⟩
    all_goals
      simp only [hocc, Run.pending_free, max_eq_right hle]
      omega
  · refine ⟨h1, h2, h3, h4, h5, ?_, ?_⟩
    all_goals
      simp only [Run.pending_occupied]
      omega

/-- The whole loop. -/
theorem booked_simulateLoop (hL : 0 ≤ L) (fuel : ℕ) (s s' : Run) (h : Booked L T s)
    (hs : simulateLoop fuel s = .ok s') : Booked L T s' ∧ T ≤ s'.time := by
  obtain ⟨hrun, hend⟩ := loopFrom_simulateLoop fuel s (Runs.start rfl) hs
  have hb : Booked L T s' := by
    refine hrun.invariant ?_ ?_
    · rintro _ rfl
      exact h
    · rintro s s' hb ⟨hlt, hit⟩
      exact booked_iteration hL hb (hb.tolTime ▸ hlt) hit
  exact ⟨hb, hb.tolTime ▸ hend⟩

/-- What is booked after the loop. -/
theorem booked_finish (h : Booked L T s) (hT : T ≤ s.time) :
    (finish s).tolTime = T ∧ 0 ≤ (finish s).sendingTime ∧ 0 ≤ (finish s).idleTime ∧
      0 ≤ (finish s).collTime ∧
      (finish s).sendingTime + (finish s).idleTime + (finish s).collTime = T := by
  obtain ⟨h1, h2, h3, h4, h5, htime, hstart⟩ := h
  unfold Run.pending at htime hstart
  unfold finish
  split_ifs at htime hstart ⊢ with hocc hidle
  · refine ⟨h2, ?_, h4, h5, ?_⟩ <;> simp only <;> omega
  · rw [max_eq_left hidle.le] at htime hstart
    refine ⟨h2, h3, ?_, h5, ?_⟩ <;> simp only <;> omega
  · rw [max_eq_right (not_lt.mp hidle)] at htime hstart
    exact ⟨h2, h3, h4, h5, by omega⟩

end Booked

/-! ## A whole run -/

/-- The three times of a model are `0`, as they are when it is constructed or reinitialised. -/
def Fresh (c : CSMA) : Prop := c.sendingTime = 0 ∧ c.idleTime = 0 ∧ c.collTime = 0

section Run

variable {N L : Option ℤ} {R : Option (List ℤ)} {c c' : CSMA} {config : Config}
  {draws draws' : Draws}

theorem construct_spec (h : construct config draws = .ok (c, draws')) :
    Fresh c ∧ c.numNodes = config.N ∧ c.packetLen = config.L ∧ c.tolTime = config.T := by
  obtain ⟨⟨nodes, draws₁⟩, -, h⟩ := bind_ok.mp h
  obtain ⟨rfl, -⟩ := Prod.mk.inj (Except.ok.inj h)
  exact ⟨⟨rfl, rfl, rfl⟩, rfl, rfl, rfl⟩

theorem reinitialize_spec (h : reinitialize N L R c draws = .ok (c', draws')) :
    Fresh c' ∧ c'.numNodes = N.getD c.numNodes ∧ c'.packetLen = L.getD c.packetLen ∧
      c'.tolTime = c.tolTime := by
  obtain ⟨⟨kept, draws₁⟩, -, h⟩ := bind_ok.mp h
  obtain ⟨⟨added, draws₂⟩, -, h⟩ := bind_ok.mp h
  obtain ⟨rfl, -⟩ := Prod.mk.inj (Except.ok.inj h)
  exact ⟨⟨rfl, rfl, rfl⟩, rfl, rfl, rfl⟩

theorem prepare_spec (hfresh : N = none → L = none → R = none → Fresh c)
    (h : prepare N L R c draws = .ok (c', draws')) :
    Fresh c' ∧ c'.packetLen = L.getD c.packetLen ∧ c'.tolTime = c.tolTime := by
  unfold prepare at h
  split_ifs at h with hgiven
  · obtain ⟨hf, -, hL, hT⟩ := reinitialize_spec h
    exact ⟨hf, hL, hT⟩
  · obtain ⟨rfl, -⟩ := Prod.mk.inj (Except.ok.inj h)
    simp only [not_or, Bool.not_eq_true, Option.isSome_eq_false_iff, Option.isNone_iff_eq_none]
      at hgiven
    obtain ⟨rfl, rfl, rfl⟩ := hgiven
    exact ⟨hfresh rfl rfl rfl, rfl, rfl⟩

theorem booked_start (hf : Fresh c) (hT : 0 ≤ c.tolTime) (draws : Draws) :
    Booked c.packetLen c.tolTime (Run.start c draws) := by
  obtain ⟨h1, h2, h3⟩ := hf
  refine ⟨rfl, rfl, h1.ge, h2.ge, h3.ge, ?_, ?_⟩
  · simp [h1, h2, h3]
  · simpa using hT

/-- A part of a whole, as a fraction. -/
theorem fraction_mem {a t : ℤ} (h0 : 0 ≤ a) (hle : a ≤ t) (ht : 1 ≤ t) :
    (0 : ℚ) ≤ a / t ∧ (a / t : ℚ) ≤ 1 := by
  have ht' : (0 : ℚ) < t := by exact_mod_cast ht
  refine ⟨div_nonneg (by exact_mod_cast h0) ht'.le, ?_⟩
  rw [div_le_one ht']
  exact_mod_cast hle

/-- **Conservation of time**: where `simulate` returns, on a model whose times are `0` or that it
reinitialises, the times spent sending, idle and in collisions make up `tol_time`. -/
theorem times_add_up (c : CSMA) (N L : Option ℤ) (R : Option (List ℤ)) (draws : Draws)
    (hfresh : N = none → L = none → R = none → Fresh c) (hL : 1 ≤ L.getD c.packetLen)
    (hT : 1 ≤ c.tolTime) (fuel : ℕ) (c' : CSMA) (draws' : Draws)
    (h : simulate fuel N L R c draws = .ok (c', draws')) :
    (0 ≤ c'.sendingTime ∧ 0 ≤ c'.idleTime ∧ 0 ≤ c'.collTime) ∧
      c'.sendingTime + c'.idleTime + c'.collTime = c.tolTime ∧
      (0 ≤ getUtil c' ∧ getUtil c' ≤ 1) ∧
      (0 ≤ getIdleFraction c' ∧ getIdleFraction c' ≤ 1) := by
  obtain ⟨⟨c₁, draws₁⟩, hprep, h⟩ := bind_ok.mp h
  obtain ⟨s, hloop, h⟩ := bind_ok.mp h
  obtain ⟨rfl, -⟩ := Prod.mk.inj (Except.ok.inj h)
  obtain ⟨hf, hL', hT'⟩ := prepare_spec hfresh hprep
  obtain ⟨hbook, htime⟩ := booked_simulateLoop (by omega) fuel _ s
    (booked_start hf (by omega) draws₁) hloop
  obtain ⟨h1, h2, h3, h4, h5⟩ := booked_finish hbook htime
  refine ⟨⟨h2, h3, h4⟩, by omega, ?_, ?_⟩
  · exact fraction_mem h2 (by omega) (by omega)
  · exact fraction_mem h3 (by omega) (by omega)

end Run

/-- Three nodes with countdowns `0`, `1` and `3`. -/
def threeNodes : CSMA :=
  ⟨3, 2, [3], 0, 3, [⟨0, [3], 0, 0, 0, 0, 0⟩, ⟨1, [3], 0, 0, 0, 0, 1⟩, ⟨2, [3], 0, 0, 0, 0, 3⟩],
    0, 0, 0⟩

theorem times_add_up_threeNodes : ∃ p, simulate 3 none none none threeNodes [3] = .ok p ∧
    p.1.sendingTime + p.1.idleTime + p.1.collTime = 3 :=
  ⟨_, rfl, (times_add_up threeNodes none none none [3] (fun _ _ _ => ⟨rfl, rfl, rfl⟩) (by decide)
    (by decide) 3 _ _ rfl).2.1⟩

end NetworkingLearning.Csma
