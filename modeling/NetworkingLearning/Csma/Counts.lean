import Mathlib.Tactic.Ring
import NetworkingLearning.Csma.Slots

/-!
# Which transmissions are counted (`csma.py:104-140`)

`sent_packet` is called in the iteration after the one in which the transmission starts
(`csma.py:105-109`). There is such an iteration if the transmission is over before `tol_time`. One
that ends at `tol_time` itself is over when the loop ends: its time is booked like that of a
transmission that is cut off (`csma.py:134-136`), and the node does not count it.

* `starts` are the times at which a transmission starts, iteration by iteration; `ended` says how
  many of them are over at `T`. Neither looks at the counts of the nodes.
* `totalTrans` is the sum of `num_trans`, of which the counts of one node are a part.
* `FreshModel` are the models that are constructed or reinitialised: their counts are `0`.

Results:
* `iteration_counts`: what an iteration counts is what is pending before it.
* `transmissions_counted_iff`: the nodes count every transmission that is over if and only if none
  starts at `tol_time - packet_len`.
-/

namespace NetworkingLearning.Csma

open NetworkingLearning.Heaps NetworkingLearning.Machine
open scoped List

/-- The transmissions that the nodes have counted. -/
def totalTrans (nodes : List Node) : ℕ := (nodes.map Node.numTrans).sum

/-- When a transmission starts in the iteration from `s`. -/
def startsAt (s : Run) : List ℤ :=
  match settle s with
  | .ok s₁ =>
    match branch s₁ with
    | .ok .transmission => [s.time]
    | _ => []
  | .error _ => []

/-- When the transmissions of the loop start. -/
def starts : ℕ → Run → List ℤ
  | 0, _ => []
  | fuel + 1, s =>
    if s.time < s.csma.tolTime then
      startsAt s ++
        match iteration s with
        | .ok s' => starts fuel s'
        | .error _ => []
    else []

/-- How many transmissions are over at `T`. -/
def ended (L T : ℤ) (starts : List ℤ) : ℕ := starts.countP fun t => t + L ≤ T

section Iteration

variable {s s' s₁ : Run} {b : Branch} {nodes nodes' l : List Node}

theorem totalTrans_perm (h : nodes ~ nodes') : totalTrans nodes = totalTrans nodes' :=
  (h.map Node.numTrans).sum_eq

@[simp] theorem totalTrans_cons (node : Node) (nodes : List Node) :
    totalTrans (node :: nodes) = node.numTrans + totalTrans nodes := by
  rw [totalTrans, List.map_cons, List.sum_cons]
  rfl

theorem totalTrans_handled (h : List.Forall₂ Handled nodes l) :
    totalTrans l = totalTrans nodes := by
  induction h with
  | nil => rfl
  | cons hn _ ih =>
    rw [totalTrans_cons, totalTrans_cons, ih]
    rcases hn with ⟨-, r, d, -, -, -, rfl⟩ | ⟨-, rfl⟩ <;> rfl

theorem startsAt_eq (hs : settle s = .ok s₁) (hb : branch s₁ = .ok b) :
    startsAt s = if b = .transmission then [s.time] else [] := by
  unfold startsAt
  rw [hs]
  simp only [hb]
  cases b <;> rfl

/-- **Booking** counts the transmission that is over. -/
theorem book_counts (h : NodesOk s.csma.nodes) (hb : book s = .ok s') :
    totalTrans s'.csma.nodes =
      totalTrans s.csma.nodes + (if s.occupiedFlag then 1 else 0) ∧
    s'.csma.sendingTime =
      s.csma.sendingTime + (if s.occupiedFlag then s.csma.packetLen else 0) := by
  rcases book_cases hb with ⟨hocc, root, node, draws, nodes, hroot, hsent, hnodes, rfl⟩ |
    ⟨hocc, -, rfl⟩ | ⟨hocc, -, rfl⟩
  · obtain ⟨rest, hrest⟩ := minCandidate_ok hroot
    obtain ⟨r, d, -, -, -, -, hnode⟩ := randBackOff_spec hsent
    rw [hrest] at h hnodes
    obtain ⟨-, hperm⟩ := replaceRoot_spec (h.set_root root).1 hnodes
    have hcount : node.numTrans = root.numTrans + 1 := congrArg Node.numTrans hnode
    rw [if_pos hocc, if_pos hocc, hrest, totalTrans_perm hperm, totalTrans_cons, totalTrans_cons,
      hcount]
    exact ⟨by omega, rfl⟩
  · rw [hocc, if_neg (by simp), if_neg (by simp), add_zero, add_zero]
    refine ⟨?_, rfl⟩
    rw [totalTrans, totalTrans, List.map_map]
    rfl
  · rw [hocc, if_neg (by simp), if_neg (by simp)]
    exact ⟨rfl, (add_zero _).symm⟩

/-- **An iteration** counts the transmission before it, and starts one or none. -/
theorem iteration_counts (h : HeadOk s) (hs : iteration s = .ok s') :
    totalTrans s'.csma.nodes =
      totalTrans s.csma.nodes + (if s.occupiedFlag then 1 else 0) ∧
    s'.csma.sendingTime =
      s.csma.sendingTime + (if s.occupiedFlag then s.csma.packetLen else 0) ∧
    startsAt s = (if s'.occupiedFlag then [s.time] else []) ∧
    (s'.occupiedFlag = true → s'.time = s.time + s.csma.packetLen) := by
  obtain ⟨s₁, b, hsettle, hb, hact⟩ := iteration_cases hs
  have hset := (nodesOk_settle h hsettle).1
  have hfree := hset.free
  have htime := settle_time hsettle
  have hstart := startsAt_eq hsettle hb
  obtain ⟨s₀, node, hbook, -, rfl⟩ := settle_cases hsettle
  obtain ⟨htrans, hsend⟩ := book_counts h.nodes hbook
  have hlen := (book_frame hbook).1
  rcases act_cases hact with ⟨rfl, rfl⟩ | ⟨rfl, nodes, again, draws, hloop, rfl⟩ | ⟨rfl, rfl⟩
  · rw [hfree]
    exact ⟨htrans, hsend, hstart, fun hf => absurd hf (by simp)⟩
  · obtain ⟨l, hl, hperm⟩ := slot_handled hset.nodes hloop
    rw [hfree]
    refine ⟨?_, hsend, hstart, fun hf => absurd hf (by simp)⟩
    exact (totalTrans_perm hperm).symm.trans ((totalTrans_handled hl).trans htrans)
  · refine ⟨htrans, hsend, hstart, fun _ => ?_⟩
    simp only at htime ⊢
    rw [htime, hlen]

end Iteration

/-! ## The loop -/

section Loop

variable {s s' s₀ : Run} {L T : ℤ}

/-- A transmission that is over at `T` but that no node has counted yet. -/
def Run.uncounted (T : ℤ) (s : Run) : ℕ := if s.occupiedFlag = true ∧ s.time ≤ T then 1 else 0

@[simp] theorem ended_append (L T : ℤ) (xs ys : List ℤ) :
    ended L T (xs ++ ys) = ended L T xs + ended L T ys :=
  List.countP_append

theorem starts_next {fuel : ℕ} (hlt : s.time < s.csma.tolTime) (hs : iteration s = .ok s') :
    starts (fuel + 1) s = startsAt s ++ starts fuel s' := by
  rw [starts, if_pos hlt, hs]

theorem starts_end (fuel : ℕ) (hle : s.csma.tolTime ≤ s.time) : starts fuel s = [] := by
  cases fuel with
  | zero => rfl
  | succ fuel => rw [starts, if_neg (not_lt.mpr hle)]

/-- The transmission that an iteration starts is counted only later. -/
theorem ended_startsAt (h : HeadOk s) (hL : s.csma.packetLen = L) (hs : iteration s = .ok s') :
    ended L T (startsAt s) = s'.uncounted T := by
  obtain ⟨-, -, hstart, htime⟩ := iteration_counts h hs
  rw [hstart, Run.uncounted]
  by_cases hocc : s'.occupiedFlag = true
  · rw [if_pos hocc, htime hocc, hL, ended, List.countP_singleton]
    simp [hocc]
  · rw [if_neg hocc, if_neg (not_and_of_not_left _ hocc)]
    rfl

/-- **The loop** counts the transmissions that are over, but for one that is not counted yet. -/
theorem counts_simulateLoop : ∀ (fuel : ℕ) (s : Run), HeadOk s → s.csma.packetLen = L →
    s.csma.tolTime = T → simulateLoop fuel s = .ok s' →
    totalTrans s'.csma.nodes + s'.uncounted T =
      totalTrans s.csma.nodes + s.uncounted T + ended L T (starts fuel s) ∧
    s'.csma.sendingTime - L * totalTrans s'.csma.nodes =
      s.csma.sendingTime - L * totalTrans s.csma.nodes := by
  intro fuel
  induction fuel using Nat.strongRecOn with
  | ind fuel ih =>
    intro s h hL hT hs
    rcases simulateLoop_cases hs with ⟨hle, rfl⟩ | ⟨hlt, fuel', s₁, rfl, hit, hs⟩
    · rw [starts_end fuel hle]
      exact ⟨rfl, rfl⟩
    · have hnext := ih fuel' (Nat.lt_succ_self fuel') s₁
      obtain ⟨hL₁, hT₁, -⟩ := iteration_frame hit
      obtain ⟨htrans, hsend, -⟩ := iteration_counts h hit
      obtain ⟨h1, h2⟩ := hnext (headOk_iteration h hit).1 (hL₁.trans hL) (hT₁.trans hT) hs
      have hpending : s.uncounted T = if s.occupiedFlag then 1 else 0 := by
        have hle : s.time ≤ T := hT ▸ hlt.le
        simp only [Run.uncounted, hle, and_true]
      rw [h2, starts_next hlt hit, ended_append, ended_startsAt h hL hit, hpending, htrans, hsend]
      refine ⟨by omega, ?_⟩
      split_ifs
      · rw [hL]
        push_cast
        ring
      · rw [add_zero, add_zero]

/-- No transmission of the loop from `s₀` is over at `tol_time` itself. -/
def NoneEndsLast (s₀ : Run) : Prop :=
  ∀ s s₁, LoopFrom s₀ s → s.time < s.csma.tolTime → settle s = .ok s₁ →
    branch s₁ = .ok .transmission → s.time + s.csma.packetLen ≠ s.csma.tolTime

/-- **The loop ends with a transmission that no node counts** if and only if one starts that is over
at `tol_time`. -/
theorem uncounted_iff {fuel : ℕ} (h : HeadOk s₀) (hfree : s₀.occupiedFlag = false)
    (hs : simulateLoop fuel s₀ = .ok s') :
    s'.uncounted s'.csma.tolTime = 0 ↔ NoneEndsLast s₀ := by
  obtain ⟨hlast, hend⟩ := loopFrom_simulateLoop fuel s₀ (Runs.start rfl) hs
  rw [Run.uncounted]
  constructor
  · -- such a transmission is the last activity of the loop
    intro hcount s s₁ hrun hlt hset hb heq
    have hit : iteration s = .ok { s₁ with
        time := s₁.time + s₁.csma.packetLen, occupiedFlag := true } := iteration_eq hset hb
    obtain ⟨fuel', hs⟩ := hrun.simulateLoop hs
    rcases simulateLoop_cases hs with ⟨hle, -⟩ | ⟨-, fuel', s₂, -, hit', hs⟩
    · exact absurd hlt (not_lt.mpr hle)
    · obtain rfl := Except.ok.inj (hit.symm.trans hit')
      have hframe := iteration_frame hit
      have htime := settle_time hset
      simp only at hframe
      rcases simulateLoop_cases hs with ⟨-, rfl⟩ | ⟨hlt', -⟩
      · refine absurd hcount ?_
        rw [if_pos ⟨rfl, by simp only; omega⟩]
        exact Nat.one_ne_zero
      · simp only at hlt'
        omega
  · intro hno
    refine if_neg ?_
    rintro ⟨hocc, hle⟩
    rcases hlast with heq | ⟨hrun, hlt, hit⟩
    · exact absurd (heq ▸ hocc) (by simp [hfree])
    · rename_i s
      obtain ⟨s₁, b, hset, hb, hact⟩ := iteration_cases hit
      have hfree₁ := (nodesOk_settle (headOk_loopFrom h hrun).1 hset).1.free
      have hframe := iteration_frame hit
      have htime := settle_time hset
      rcases act_cases hact with ⟨-, rfl⟩ | ⟨-, nodes, again, draws, -, rfl⟩ | ⟨rfl, rfl⟩
      · exact absurd hocc (by simp [hfree₁])
      · exact absurd hocc (by simp [hfree₁])
      · refine hno s s₁ hrun hlt hset hb ?_
        simp only at hend hle hframe
        omega

end Loop

/-! ## A whole run -/

/-- A model that has not simulated anything since it was constructed or reinitialised. -/
inductive FreshModel : CSMA → Prop
  | construct {config : Config} {draws draws' : Draws} {c : CSMA} (hN : 3 ≤ config.N)
      (h : construct config draws = .ok (c, draws')) : FreshModel c
  | reinitialize {N L : Option ℤ} {R : Option (List ℤ)} {draws draws' : Draws} {c c' : CSMA}
      (hc : Reached c) (hN : ∀ n ∈ N, 3 ≤ n)
      (h : reinitialize N L R c draws = .ok (c', draws')) : FreshModel c'

section Run

variable {c c' : CSMA} {draws draws' : Draws} {nodes : List Node} {s : Run} {L T : ℤ}

theorem totalTrans_eq_zero (h : ∀ n ∈ nodes, n.numTrans = 0) : totalTrans nodes = 0 := by
  refine List.sum_eq_zero fun k hk => ?_
  obtain ⟨n, hn, rfl⟩ := List.mem_map.mp hk
  exact h n hn

theorem randBackOff_numTrans {node node' : Node}
    (h : node.randBackOff draws = .ok (node', draws')) (h0 : node.numTrans = 0) :
    node'.numTrans = 0 := by
  obtain ⟨r, d, -, -, -, -, rfl⟩ := randBackOff_spec h
  exact h0

/-- Where a model begins. -/
theorem FreshModel.spec (h : FreshModel c) :
    ModelOk c ∧ Fresh c ∧ totalTrans c.nodes = 0 := by
  cases h with
  | construct hN h =>
    refine ⟨modelOk_construct hN h, (construct_spec h).1, ?_⟩
    obtain ⟨⟨nodes, draws₁⟩, hmap, h⟩ := bind_ok.mp h
    obtain ⟨rfl, -⟩ := Prod.mk.inj (Except.ok.inj h)
    obtain ⟨-, hzero⟩ := mapDraws_spec (fun _ _ _ _ h => randBackOff_numTrans h rfl) _ _ _ _ hmap
    exact (totalTrans_perm (heapify_perm nodes)).trans (totalTrans_eq_zero hzero)
  | reinitialize hc hN h =>
    have hok := modelOk_reinitialize hc.modelOk hN h
    refine ⟨hok, (reinitialize_spec h).1, ?_⟩
    obtain ⟨⟨kept, draws₁⟩, hkept, h⟩ := bind_ok.mp h
    obtain ⟨⟨added, draws₂⟩, hadded, h⟩ := bind_ok.mp h
    obtain ⟨rfl, -⟩ := Prod.mk.inj (Except.ok.inj h)
    obtain ⟨-, hz₁⟩ := mapDraws_spec (fun _ _ _ _ h => randBackOff_numTrans h rfl) _ _ _ _ hkept
    obtain ⟨-, hz₂⟩ := mapDraws_spec (fun _ _ _ _ h => randBackOff_numTrans h rfl) _ _ _ _ hadded
    refine (totalTrans_perm (heapify_perm (kept ++ added))).trans (totalTrans_eq_zero ?_)
    exact fun n hn => (List.mem_append.mp hn).elim (hz₁ n) (hz₂ n)

/-- The time that is booked after the loop for a transmission that no node counts. -/
theorem sending_finish (hL : 1 ≤ L) (h : Booked L T s) (hT : T ≤ s.time)
    (hsend : s.csma.sendingTime - L * totalTrans s.csma.nodes = 0) :
    (0 ≤ (finish s).sendingTime - L * totalTrans (finish s).nodes ∧
      (finish s).sendingTime - L * totalTrans (finish s).nodes < L) ↔ s.uncounted T = 0 := by
  have hlen := h.packetLen
  have htol := h.tolTime
  have hstart := h.started
  rw [(finish_nodes s).1]
  unfold Run.pending at hstart
  by_cases hocc : s.occupiedFlag = true
  · have hfin : (finish s).sendingTime =
        s.csma.sendingTime + (s.csma.tolTime - (s.time - s.csma.packetLen)) := by
      rw [finish, if_pos hocc]
    rw [if_pos hocc] at hstart
    rw [hfin, Run.uncounted]
    by_cases hle : s.time ≤ T
    · rw [if_pos ⟨hocc, hle⟩]
      constructor <;> omega
    · rw [if_neg (not_and_of_not_right _ hle)]
      constructor <;> omega
  · have hfin : (finish s).sendingTime = s.csma.sendingTime := by
      rw [finish, if_neg hocc]
      split_ifs <;> rfl
    rw [hfin, Run.uncounted, if_neg (not_and_of_not_left _ hocc)]
    constructor <;> omega

end Run

/-- **Exactly when every transmission that is over is counted**, in a call of `simulate` that
returns and that starts on a fresh model or makes it one: none is over at `tol_time` itself. -/
theorem transmissions_counted_iff (c c₀ c' : CSMA) (N L : Option ℤ) (R : Option (List ℤ))
    (draws draws₀ draws' : Draws) (fuel : ℕ)
    (hprep : prepare N L R c draws = .ok (c₀, draws₀)) (hc : FreshModel c₀)
    (hL : 1 ≤ c₀.packetLen) (hT : 1 ≤ c₀.tolTime)
    (h : simulate fuel N L R c draws = .ok (c', draws')) :
    (totalTrans c'.nodes = ended c₀.packetLen c₀.tolTime (starts fuel (Run.start c₀ draws₀)) ↔
      NoneEndsLast (Run.start c₀ draws₀)) ∧
    ((0 ≤ c'.sendingTime - c₀.packetLen * totalTrans c'.nodes ∧
        c'.sendingTime - c₀.packetLen * totalTrans c'.nodes < c₀.packetLen) ↔
      NoneEndsLast (Run.start c₀ draws₀)) := by
  obtain ⟨hok, hfresh, hzero⟩ := hc.spec
  obtain ⟨p, hp, h⟩ := bind_ok.mp h
  obtain rfl : (c₀, draws₀) = p := Except.ok.inj (hprep.symm.trans hp)
  obtain ⟨s, hloop, hfin⟩ := bind_ok.mp h
  obtain ⟨rfl, -⟩ := Prod.mk.inj (Except.ok.inj hfin)
  obtain ⟨hbook, htime⟩ := booked_simulateLoop (by omega) fuel _ s
    (booked_start hfresh (by omega) draws₀) hloop
  obtain ⟨hcount, hsend⟩ := counts_simulateLoop fuel (Run.start c₀ draws₀) (headOk_start hok)
    rfl rfl hloop
  have hlast := uncounted_iff (headOk_start hok) rfl hloop
  have hstart : (Run.start c₀ draws₀).csma = c₀ := rfl
  have hnone : (Run.start c₀ draws₀).uncounted c₀.tolTime = 0 :=
    if_neg fun hf => absurd hf.1 (by simp)
  rw [hbook.tolTime] at hlast
  rw [hstart, hnone, hzero] at hcount
  rw [hstart, hzero, hfresh.1] at hsend
  rw [← hlast]
  refine ⟨?_, sending_finish hL hbook htime (by simpa using hsend)⟩
  rw [(finish_nodes s).1]
  omega

/-- Of `threeNodes` the first sends from `0` to `2`, and `tol_time` is `3`. -/
theorem transmissions_counted_iff_threeNodes : NoneEndsLast (Run.start threeNodes [3]) := by
  have hcon : construct ⟨3, 2, [3], 0, 3⟩ [0, 1, 3] = .ok (threeNodes, []) := rfl
  obtain ⟨p, hp⟩ : ∃ p, simulate 3 none none none threeNodes [3] = .ok p := ⟨_, rfl⟩
  have hcount : totalTrans p.1.nodes = ended 2 3 (starts 3 (Run.start threeNodes [3])) := by
    obtain rfl := Except.ok.inj hp
    rfl
  exact (transmissions_counted_iff threeNodes threeNodes p.1 none none none [3] [3] p.2 3 rfl
    (.construct (by decide) hcon) (by decide) (by decide) hp).1.mp hcount

/-- The same nodes with a `tol_time` of `2`: the transmission is over, and not counted. -/
theorem transmission_not_counted : ∃ c c' : CSMA,
    construct ⟨3, 2, [3], 0, 2⟩ [0, 1, 3] = .ok (c, []) ∧
    simulate 1 none none none c [] = .ok (c', []) ∧
    ended 2 2 (starts 1 (Run.start c [])) = 1 ∧ totalTrans c'.nodes = 0 ∧
    c'.sendingTime - 2 * totalTrans c'.nodes = 2 :=
  ⟨_, _, rfl, rfl, rfl, rfl, rfl⟩

end NetworkingLearning.Csma
