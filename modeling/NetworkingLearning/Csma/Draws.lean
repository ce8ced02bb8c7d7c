import NetworkingLearning.Csma.Slots
import NetworkingLearning.Machine.Inputs

/-!
# How many draws `simulate` takes (`csma.py:36-51`, `csma.py:98-140`)

Draws come in a list, and `Error.draws` says that it has run out or has a number that `randint` does
not return. Here each function is given a number of draws that are enough for it (`Takes`), so that
of a list which is long enough `Error.draws` says the second.

Every function that draws has a lemma of its own, and those of the functions that call it use it: a
node draws once, a list of nodes once each, and so on to a whole run. A node that draws `0` again in
a slot with a collision is put aside, so it does not draw a second time.

Results:
* `takes_collideLoop`: in a slot with a collision each node that has timed out draws once.
* `takes_iteration`: in an iteration each node draws once at most, and the one that has sent once
  more.
* `takes_constructAndSimulate`: the draws of a whole run.
-/

namespace NetworkingLearning.Csma

open NetworkingLearning.Heaps NetworkingLearning.Machine
open scoped List

instance : Reader ℤ Run := ⟨Run.draws, fun more s => { s with draws := s.draws ++ more }⟩

section Nodes

variable {node : Node} {draws : Draws} {r d : ℤ}

theorem randint_cons (r d : ℤ) (draws : Draws) : randint r (d :: draws) =
    if r < 0 then .error .valueError
    else if 0 ≤ d ∧ d ≤ r then .ok (d, draws) else .error .draws := rfl

/-- A draw in the range of `randint`. -/
theorem randBackOff_of_mem (hr : node.rVal = .ok r) (h0 : 0 ≤ d) (hle : d ≤ r) (draws : Draws) :
    node.randBackOff (d :: draws) = .ok ({ node with countDownVal := d }, draws) := by
  refine bind_ok.mpr ⟨r, hr, bind_ok.mpr ⟨(d, draws), ?_, rfl⟩⟩
  rw [randint_cons, if_neg (by omega), if_pos ⟨h0, hle⟩]

/-- What is made of the first draw does not depend on the others. -/
theorem randBackOff_cons_error {e : Error} (he : node.randBackOff (d :: draws) = .error e)
    (draws' : Draws) : node.randBackOff (d :: draws') = .error e := by
  rcases bind_error.mp he with hr | ⟨r, hr, he⟩
  · exact bind_error.mpr (Or.inl hr)
  refine bind_error.mpr (Or.inr ⟨r, hr, bind_error.mpr (Or.inl ?_)⟩)
  rcases bind_error.mp he with hd | ⟨p, -, hp⟩
  · rw [randint_cons] at hd ⊢
    split_ifs at hd ⊢
    · exact congrArg Except.error (Except.error.inj hd)
    · exact congrArg Except.error (Except.error.inj hd)
  · exact nomatch hp

theorem takes_randBackOff (node : Node) (draws : Draws) :
    Takes Error.draws 1 node.randBackOff draws where
  ok t ht := by
    obtain ⟨node', draws'⟩ := t
    obtain ⟨r, d, hr, h0, hle, rfl, rfl⟩ := randBackOff_spec ht
    exact ⟨le_refl _, fun more => randBackOff_of_mem hr h0 hle (draws' ++ more)⟩
  refuses he hn more := by
    cases draws with
    | nil => exact absurd hn (Nat.not_succ_le_zero 0)
    | cons d draws => exact randBackOff_cons_error he _

/-- One draw for each entry. -/
theorem takes_mapDraws {β : Type} {f : β → Draws → Except Error (Node × Draws)}
    (hf : ∀ x draws, Takes Error.draws 1 (f x) draws) :
    ∀ (xs : List β) (draws : Draws), Takes Error.draws xs.length (mapDraws f xs) draws := by
  intro xs
  induction xs with
  | nil =>
    exact fun draws => Takes.ret (k := fun draws => ([], draws)) rfl fun _ => rfl
  | cons x xs ih =>
    intro draws
    have hstep : ∀ p : Node × Draws, Takes Error.draws xs.length (fun p : Node × Draws =>
        mapDraws f xs p.2 >>= fun q => .ok (p.1 :: q.1, q.2)) p := fun p => by
      have h : Takes Error.draws (xs.length + 0) (fun draws => mapDraws f xs draws >>=
          fun q => .ok (p.1 :: q.1, q.2)) p.2 := (ih p.2).bind fun q _ =>
        Takes.ret (k := fun q : List Node × Draws => (p.1 :: q.1, q.2)) rfl fun _ => rfl
      exact ⟨h.ok, h.refuses⟩
    exact ((hf x draws).bind fun p _ => hstep p).mono (by rw [List.length_cons]; omega)

theorem takes_construct (config : Config) (draws : Draws) :
    Takes Error.draws config.N.toNat (construct config) draws := by
  have h : Takes Error.draws ((range 0 config.N).length + 0) (construct config) draws :=
    (takes_mapDraws (fun i draws => takes_randBackOff _ draws) _ draws).bind fun q _ =>
      Takes.ret (k := fun q : List Node × Draws => (CSMA.mk config.N config.L config.R config.M
        config.T (heapify Node.key q.1) 0 0 0, q.2)) rfl fun _ => rfl
  rw [range_length] at h
  exact h.mono (by omega)

end Nodes

/-! ## The loop over the nodes that collide -/

section Collision

variable {root : Node} {rest nodes again : List Node} {draws : Draws}

theorem timeouts_perm {nodes nodes' : List Node} (h : nodes ~ nodes') :
    timeouts nodes = timeouts nodes' :=
  h.countP_eq _

/-- A turn of the loop takes one draw, and one of the fuel. -/
theorem collideLoop_turn_length (h : NodesOk (root :: rest)) (hroot : root.countDownVal = 0)
    (again : List Node) (node : Node) (hnode : 0 ≤ node.countDownVal) :
    ∃ nodes again', NodesOk nodes ∧
      ((node.countDownVal = 0 ∧ nodes ~ rest) ∨ (node.countDownVal ≠ 0 ∧ nodes ~ node :: rest)) ∧
      ∀ draws draws', root.collide draws = .ok (node, draws') →
        collideLoop (draws.length + 1) (root :: rest) again draws =
          collideLoop (draws'.length + 1) nodes again' draws' := by
  obtain ⟨nodes, again', hok, hcase, hturn⟩ := collideLoop_turn h hroot again node hnode
  refine ⟨nodes, again', hok, ?_, fun draws draws' hcoll => ?_⟩
  · exact hcase.imp (fun h => ⟨h.1, h.2.1⟩) fun h => ⟨h.1, h.2.1⟩
  · obtain ⟨r, d, -, -, -, hdraws, -⟩ := randBackOff_spec hcoll
    rw [hturn _ draws draws' hcoll, hdraws]
    rfl

/-- The nodes that have timed out, of which a turn of the loop leaves one less. -/
theorem timeouts_turn {node : Node} (hroot : root.countDownVal = 0)
    (h : (node.countDownVal = 0 ∧ nodes ~ rest) ∨
      (node.countDownVal ≠ 0 ∧ nodes ~ node :: rest)) :
    timeouts (root :: rest) = timeouts nodes + 1 := by
  rw [timeouts_cons, if_pos hroot]
  rcases h with ⟨-, hperm⟩ | ⟨hne, hperm⟩
  · rw [timeouts_perm hperm]
  · rw [timeouts_perm hperm, timeouts_cons, if_neg hne]

/-- One draw for each node that has timed out. -/
theorem takes_collideLoop : ∀ (k : ℕ) (nodes again : List Node) (draws : Draws), NodesOk nodes →
    timeouts nodes = k →
    Takes Error.draws k (fun draws => collideLoop (draws.length + 1) nodes again draws) draws := by
  intro k
  induction k using Nat.strongRecOn with
  | ind k ih =>
    intro nodes again draws h hk
    cases nodes with
    | nil => exact ⟨fun t ht => (nomatch ht), fun he => (nomatch he)⟩
    | cons root rest =>
      by_cases hroot : root.countDownVal = 0
      · have hcoll := takes_randBackOff
          { root with numColls := root.numColls + 1 }.permuteR draws
        cases hc : root.collide draws with
        | ok p =>
          obtain ⟨node, draws'⟩ := p
          obtain ⟨nodes, again', hok, hcase, hturn⟩ := collideLoop_turn_length h hroot
            again node (randBackOff_nonneg hc)
          have hto := timeouts_turn hroot hcase
          have hrest := ih (timeouts nodes) (by omega) nodes again' draws' hok rfl
          obtain ⟨hlen, hmore⟩ := hcoll.ok _ hc
          have hlen' : draws.length ≤ draws'.length + 1 := hlen
          constructor
          · intro t ht
            rw [hturn draws draws' hc] at ht
            obtain ⟨hlen₁, hmore₁⟩ := hrest.ok t ht
            exact ⟨by simp only [Reader.left] at hlen₁ ⊢; omega,
              fun more => (hturn _ _ (hmore more)).trans (hmore₁ more)⟩
          · intro he hn more
            rw [hturn draws draws' hc] at he
            exact (hturn _ _ (hmore more)).trans
              (hrest.refuses he (by simp only [Reader.left] at hn ⊢; omega) more)
        | error e =>
          have hto : timeouts (root :: rest) ≠ 0 := by
            rw [timeouts_cons, if_pos hroot]
            exact Nat.succ_ne_zero _
          have herr : ∀ draws, root.collide draws = .error e →
              collideLoop (draws.length + 1) (root :: rest) again draws = .error e :=
            fun draws he => collideLoop_error hroot draws.length again he
          constructor
          · exact fun t ht => nomatch (herr draws hc).symm.trans ht
          · intro he hn more
            obtain rfl := Except.error.inj ((herr draws hc).symm.trans he)
            exact herr (draws ++ more)
              (hcoll.refuses hc (by simp only [Reader.left] at hn ⊢; omega) more)
      · have hdone : Takes Error.draws 0 (fun draws : Draws => .ok (root :: rest, again, draws))
            draws := Takes.ret rfl fun _ => rfl
        have hloop : Takes Error.draws 0 (fun draws : Draws =>
            collideLoop (draws.length + 1) (root :: rest) again draws) draws :=
          hdone.congr (collideLoop_done h hroot _ _ _) fun _ => collideLoop_done h hroot _ _ _
        exact hloop.mono (Nat.zero_le k)

end Collision

/-! ## A run -/

/-- What `book` makes of a state whose transmission is over. -/
def Run.sent (s : Run) (rest : List Node) (p : Node × Draws) : Run :=
  { s with
    csma := { s.csma with
      sendingTime := s.csma.sendingTime + s.csma.packetLen
      nodes := siftup Node.key 0 (p.1 :: rest) }
    occupiedFlag := false
    draws := p.2 }

/-- What `act` makes of a state with a collision. -/
def Run.collided (s : Run) (p : List Node × List Node × Draws) : Run :=
  { s with
    csma := { s.csma with
      collTime := s.csma.collTime + 1
      nodes := p.2.1.foldl (heappush Node.key) p.1 }
    time := s.time + 1
    draws := p.2.2 }

section Runs

variable {s : Run} {b : Branch} {root : Node} {rest : List Node}

theorem book_occupied (hocc : s.occupiedFlag = true) (hnodes : s.csma.nodes = root :: rest) :
    book s = root.sentPacket s.draws >>= fun p => .ok (s.sent rest p) := by
  unfold book
  rw [if_pos hocc, hnodes]
  rfl

/-- What `book` makes of a state without a transmission. -/
theorem book_free (hocc : ¬s.occupiedFlag = true) :
    book s = .ok (if s.nextIdleTime > 0 then
      { s with csma := { s.csma with
        idleTime := s.csma.idleTime + s.nextIdleTime
        nodes := s.csma.nodes.map (Node.countDown s.nextIdleTime) } } else s) := by
  unfold book
  rw [if_neg hocc]
  split_ifs <;> rfl

/-- One draw to book a transmission. -/
theorem takes_book (hnodes : s.csma.nodes = root :: rest) : Takes Error.draws 1 book s := by
  by_cases hocc : s.occupiedFlag = true
  · have hsent : Takes Error.draws 1 (fun r : Run => root.sentPacket r.draws) s :=
      (takes_randBackOff _ s.draws).comap rfl fun _ => rfl
    have h : Takes Error.draws (1 + 0) (fun r : Run => root.sentPacket r.draws >>= fun p =>
        .ok (s.sent rest p)) s := hsent.bind fun p _ => Takes.ret rfl fun _ => rfl
    exact h.congr (book_occupied hocc hnodes) fun more =>
      book_occupied (s := Reader.feed more s) hocc hnodes
  · have h : Takes Error.draws 0 (fun s : Run => .ok (if s.nextIdleTime > 0 then
        { s with csma := { s.csma with
          idleTime := s.csma.idleTime + s.nextIdleTime
          nodes := s.csma.nodes.map (Node.countDown s.nextIdleTime) } } else s)) s :=
      Takes.ret (by split_ifs <;> rfl) fun more => by
        by_cases hidle : s.nextIdleTime > 0
        · rw [if_pos hidle]
          exact if_pos hidle
        · rw [if_neg hidle]
          exact if_neg hidle
    exact (h.congr (book_free hocc) fun more =>
      book_free (s := Reader.feed more s) hocc).mono (Nat.zero_le 1)

/-- One draw for each node, to start an activity. -/
theorem takes_act (h : NodesOk s.csma.nodes) (b : Branch) :
    Takes Error.draws s.csma.nodes.length (fun s => act s b) s := by
  cases b with
  | idle => exact (Takes.ret (k := fun s : Run => { s with time := s.time + s.nextIdleTime }) rfl
      fun _ => rfl).mono (Nat.zero_le _)
  | transmission => exact (Takes.ret (k := fun s : Run =>
      { s with time := s.time + s.csma.packetLen, occupiedFlag := true }) rfl
      fun _ => rfl).mono (Nat.zero_le _)
  | collision =>
    have hloop : Takes Error.draws (timeouts s.csma.nodes) (fun r : Run =>
        collideLoop (r.draws.length + 1) s.csma.nodes [] r.draws) s :=
      (takes_collideLoop _ s.csma.nodes [] s.draws h rfl).comap rfl fun _ => rfl
    have hact : Takes Error.draws (timeouts s.csma.nodes + 0) (fun r : Run =>
        collideLoop (r.draws.length + 1) s.csma.nodes [] r.draws >>= fun p =>
          .ok (s.collided p)) s := hloop.bind fun p _ => Takes.ret rfl fun _ => rfl
    have hle : timeouts s.csma.nodes ≤ s.csma.nodes.length := List.countP_le_length
    exact (hact.congr rfl fun _ => rfl).mono (by omega)

/-- An iteration. -/
theorem takes_iteration (h : HeadOk s) (h3 : 3 ≤ s.csma.numNodes) :
    Takes Error.draws (s.csma.numNodes.toNat + 1) iteration s := by
  have hlen := h.length
  obtain ⟨root, rest, hnodes⟩ : ∃ root rest, s.csma.nodes = root :: rest :=
    List.exists_cons_of_length_pos (by omega)
  have hsettle : Takes Error.draws (1 + 0) settle s := (takes_book hnodes).bind fun s₁ _ =>
    Takes.lift (x := fun s : Run => minCandidate s.csma.nodes)
      (k := fun node s => .ok { s with nextIdleTime := node.countDownVal }) (fun _ => rfl)
      fun node _ => Takes.ret (k := fun s : Run => { s with nextIdleTime := node.countDownVal }) rfl
        fun _ => rfl
  have hact : ∀ s₁, settle s = .ok s₁ →
      Takes Error.draws s.csma.numNodes.toNat (fun s => branch s >>= fun b => act s b) s₁ := by
    intro s₁ hs
    obtain ⟨hset, hN⟩ := nodesOk_settle h hs
    have hlen₁ := hset.length
    have hn : s₁.csma.nodes.length = s.csma.numNodes.toNat := by omega
    exact Takes.lift (fun _ => rfl) fun b _ => hn ▸ takes_act hset.nodes b
  exact (hsettle.bind hact).mono (by omega)

/-- The whole loop. -/
theorem takes_simulateLoop : ∀ (fuel : ℕ) (s : Run), HeadOk s → 3 ≤ s.csma.numNodes →
    Takes Error.draws (fuel * (s.csma.numNodes.toNat + 1)) (simulateLoop fuel) s := by
  have hend : ∀ (fuel : ℕ) (s : Run), ¬s.time < s.csma.tolTime →
      simulateLoop fuel s = .ok s := fun fuel s hlt => by
    unfold simulateLoop
    exact if_neg hlt
  have hdone : ∀ s : Run, Takes Error.draws 0 (fun s : Run => .ok s) s := fun s =>
    Takes.ret rfl fun _ => rfl
  intro fuel
  induction fuel with
  | zero =>
    intro s h h3
    by_cases hlt : s.time < s.csma.tolTime
    · have hzero : simulateLoop 0 s = .error .fuel := if_pos hlt
      constructor
      · intro t ht
        cases hzero.symm.trans ht
      · intro he
        cases hzero.symm.trans he
    · rw [Nat.zero_mul]
      exact (hdone s).congr (hend 0 s hlt) fun more => hend 0 (Reader.feed more s) hlt
  | succ fuel ih =>
    intro s h h3
    by_cases hlt : s.time < s.csma.tolTime
    · have hstep : Takes Error.draws ((s.csma.numNodes.toNat + 1) +
          fuel * (s.csma.numNodes.toNat + 1)) (fun s => iteration s >>= simulateLoop fuel) s :=
        (takes_iteration h h3).bind fun s' hs => by
          obtain ⟨h', hN⟩ := headOk_iteration h hs
          exact hN ▸ ih s' h' (hN.symm ▸ h3)
      have heq : ∀ s : Run, s.time < s.csma.tolTime →
          simulateLoop (fuel + 1) s = iteration s >>= simulateLoop fuel := fun s hlt => by
        rw [simulateLoop, if_pos hlt]
      exact (hstep.congr (heq s hlt) fun more => heq (Reader.feed more s) hlt).mono
        (by rw [Nat.succ_mul]; omega)
    · exact ((hdone s).congr (hend _ s hlt) fun more => hend _ (Reader.feed more s) hlt).mono
        (Nat.zero_le _)

end Runs

/-- **The whole run.** -/
theorem takes_constructAndSimulate (fuel : ℕ) (config : Config) (hN : 3 ≤ config.N)
    (draws : Draws) :
    Takes Error.draws (config.N.toNat + fuel * (config.N.toNat + 1))
      (constructAndSimulate fuel config) draws := by
  refine ((takes_construct config draws).bind fun p hp => ?_).mono (le_refl _)
  obtain ⟨c, draws'⟩ := p
  have hok := modelOk_construct hN hp
  have hnum : c.numNodes = config.N := (construct_spec hp).2.1
  have hloop : Takes Error.draws (fuel * (config.N.toNat + 1) + 0)
      (fun draws : Draws => simulateLoop fuel (Run.start c draws) >>= fun s =>
        .ok (finish s, s.draws)) draws' := by
    have h := (takes_simulateLoop fuel (Run.start c draws') (headOk_start hok)
      (by rw [show (Run.start c draws').csma = c from rfl, hnum]; exact hN)).comap
      (r := draws') (k := Run.start c) rfl fun _ => rfl
    rw [show (Run.start c draws').csma = c from rfl, hnum] at h
    exact h.bind fun s _ => Takes.ret (k := fun s : Run => (finish s, s.draws)) rfl fun _ => rfl
  exact ⟨hloop.ok, hloop.refuses⟩

end NetworkingLearning.Csma
