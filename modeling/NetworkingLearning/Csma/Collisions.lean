import NetworkingLearning.Csma.Times

/-!
# Detection of collisions (`csma.py:115-132`)

`simulate` looks at three nodes of the heap: the root, and its two children (`csma.py:115-118`).
That is enough as long as the heap order by countdown and id holds whenever the minimum is read, and
no countdown is negative. Then a root with a countdown of `0` has company exactly if one of its
children has `0` too.

Both are kept although a node is given another countdown in its place in the heap (`sent_packet`,
`collide`), and although all are counted down at once (`csma.py:112-113`): the first happens at the
root only and is followed by `heapreplace` or `heappop`, the second changes no comparison.

* `NodesOk` is the invariant of the nodes, `HeadOk` that of a state at the head of the loop: there
  the countdowns may have to be lowered first, by no more than the least of them.
* `Reached` are the models that constructors and calls of `simulate` lead to, in any order and with
  any arguments that leave three nodes; `LoopHead` the states at the head of any such call.

Results:
* `collideLoop_turn`, `collideLoop_spec`: the loop over the nodes that collide, and one turn of it.
* `nodesOk_settle`, `headOk_act`: an iteration keeps the heap order and the countdowns.
* `headOk_runs`: every state that the loop of `simulate` reaches has them.
* `detection_exact`: the branch taken is that of the number of nodes with countdown `0`, and the
  time skipped is the least countdown.
-/

namespace NetworkingLearning.Csma

open NetworkingLearning.Heaps NetworkingLearning.Machine

/-! ## Draws -/

section Draws

variable {node node' : Node} {draws draws' : Draws} {r d : ℤ}

/-- What `randint` returns is the first draw, and in its range. -/
theorem randint_spec (h : randint r draws = .ok (d, draws')) :
    0 ≤ d ∧ d ≤ r ∧ draws = d :: draws' := by
  unfold randint at h
  split_ifs at h
  split at h
  · exact nomatch h
  · split_ifs at h with hd
    obtain ⟨rfl, rfl⟩ := Prod.mk.inj (Except.ok.inj h)
    exact ⟨hd.1, hd.2, rfl⟩

/-- A new back-off changes the countdown alone, to the first draw. -/
theorem randBackOff_spec (h : node.randBackOff draws = .ok (node', draws')) :
    ∃ r d, node.rVal = .ok r ∧ 0 ≤ d ∧ d ≤ r ∧ draws = d :: draws' ∧
      node' = { node with countDownVal := d } := by
  obtain ⟨r, hr, h⟩ := bind_ok.mp h
  obtain ⟨⟨d, draws₁⟩, hd, h⟩ := bind_ok.mp h
  obtain ⟨rfl, rfl⟩ := Prod.mk.inj (Except.ok.inj h)
  obtain ⟨h0, hle, hdraws⟩ := randint_spec hd
  exact ⟨r, d, hr, h0, hle, hdraws, rfl⟩

theorem randBackOff_nonneg (h : node.randBackOff draws = .ok (node', draws')) :
    0 ≤ node'.countDownVal := by
  obtain ⟨r, d, -, hd, -, -, rfl⟩ := randBackOff_spec h
  exact hd

/-- Nodes that are drawn for, one after another, each from its entry. -/
theorem mapDraws_forall₂ {β : Type} {f : β → Draws → Except Error (Node × Draws)}
    {P : β → Node → Prop} (hf : ∀ x draws node draws', f x draws = .ok (node, draws') → P x node) :
    ∀ (xs : List β) (draws : Draws) (nodes : List Node) (draws' : Draws),
      mapDraws f xs draws = .ok (nodes, draws') → List.Forall₂ P xs nodes := by
  intro xs
  induction xs with
  | nil =>
    intro draws nodes draws' h
    obtain ⟨rfl, -⟩ := Prod.mk.inj (Except.ok.inj h)
    exact List.Forall₂.nil
  | cons x xs ih =>
    intro draws nodes draws' h
    obtain ⟨⟨node, draws₁⟩, hx, h⟩ := bind_ok.mp h
    obtain ⟨⟨rest, draws₂⟩, hxs, h⟩ := bind_ok.mp h
    obtain ⟨rfl, -⟩ := Prod.mk.inj (Except.ok.inj h)
    exact List.Forall₂.cons (hf x draws node draws₁ hx) (ih draws₁ rest draws₂ hxs)

/-- What holds of every node that is drawn for holds of all. -/
theorem mapDraws_spec {β : Type} {f : β → Draws → Except Error (Node × Draws)} {P : Node → Prop}
    (hf : ∀ x draws node draws', f x draws = .ok (node, draws') → P node)
    (xs : List β) (draws : Draws) (nodes : List Node) (draws' : Draws)
    (h : mapDraws f xs draws = .ok (nodes, draws')) :
    nodes.length = xs.length ∧ ∀ node ∈ nodes, P node := by
  have hall := mapDraws_forall₂ (P := fun _ node => P node) hf xs draws nodes draws' h
  refine ⟨hall.length_eq.symm, ?_⟩
  clear h
  induction hall with
  | nil => exact fun _ hn => absurd hn List.not_mem_nil
  | cons hnode _ ih => exact List.forall_mem_cons.mpr ⟨hnode, ih⟩

end Draws

/-! ## The nodes of a model -/

/-- A list of nodes in heap order without a negative countdown. -/
structure NodesOk (nodes : List Node) : Prop where
  heap : IsHeap Node.key nodes
  nonneg : ∀ node ∈ nodes, 0 ≤ node.countDownVal

section Nodes

variable {nodes nodes' rest : List Node} {root node : Node} {t : ℤ}

theorem nodesOk_heapify (h : ∀ node ∈ nodes, 0 ≤ node.countDownVal) :
    NodesOk (heapify Node.key nodes) :=
  ⟨heapify_isHeap nodes, fun n hn => h n ((heapify_perm nodes).mem_iff.mp hn)⟩

/-- The order by countdown and id does not change when all are counted down. -/
theorem key_countDown (t : ℤ) (a b : Node) (h : a.key ≤ b.key) :
    (a.countDown t).key ≤ (b.countDown t).key := by
  unfold Node.key at h ⊢
  rw [Prod.Lex.toLex_le_toLex] at h ⊢
  simp only [Node.countDown] at h ⊢
  omega

theorem countDownVal_le {a b : Node} (h : a.key ≤ b.key) : a.countDownVal ≤ b.countDownVal := by
  unfold Node.key at h
  rw [Prod.Lex.toLex_le_toLex] at h
  simp only at h
  omega

/-- **The root has the least countdown.** -/
theorem NodesOk.root_le (h : NodesOk (root :: rest)) (hn : node ∈ root :: rest) :
    root.countDownVal ≤ node.countDownVal := by
  obtain ⟨k, hk, rfl⟩ := List.getElem_of_mem hn
  have hle := h.heap.root_le k
  rw [keyAt_of_lt hk, keyAt_of_lt (Nat.zero_lt_succ _)] at hle
  exact countDownVal_le (WithTop.coe_le_coe.mp hle)

/-- **The least countdown but for the root** is at one of its children. -/
theorem NodesOk.child_le {a b c : Node} (h : NodesOk (a :: b :: c :: rest))
    (hn : node ∈ b :: c :: rest) :
    b.countDownVal ≤ node.countDownVal ∨ c.countDownVal ≤ node.countDownVal := by
  obtain ⟨k, hk, rfl⟩ := List.getElem_of_mem hn
  have hk' : k + 1 < (a :: b :: c :: rest).length := Nat.succ_lt_succ hk
  have h1 : keyAt Node.key (a :: b :: c :: rest) 1 = b.key := rfl
  have h2 : keyAt Node.key (a :: b :: c :: rest) 2 = c.key := rfl
  have hkey : keyAt Node.key (a :: b :: c :: rest) (k + 1) = ((b :: c :: rest)[k]).key :=
    keyAt_of_lt hk'
  have hle := h.heap.child_le (Nat.zero_lt_succ k)
  rw [h1, h2, hkey, WithTop.coe_le_coe, WithTop.coe_le_coe] at hle
  exact hle.imp countDownVal_le countDownVal_le

/-- All are counted down, by no more than the least countdown. -/
theorem NodesOk.map_countDown (h : NodesOk nodes) (ht : ∀ node ∈ nodes, t ≤ node.countDownVal) :
    NodesOk (nodes.map (Node.countDown t)) := by
  refine ⟨h.heap.map (key_countDown t), fun n hn => ?_⟩
  obtain ⟨n', hn', rfl⟩ := List.mem_map.mp hn
  have := ht n' hn'
  simp only [Node.countDown]
  omega

theorem minCandidate_ok (h : minCandidate nodes = .ok root) : ∃ rest, nodes = root :: rest := by
  cases nodes with
  | nil => exact nomatch h
  | cons a rest =>
    obtain rfl := Except.ok.inj h
    exact ⟨rest, rfl⟩

theorem replaceRoot_spec (h : HeapFrom Node.key 1 (root :: rest))
    (hr : replaceRoot (root :: rest) node = .ok nodes') :
    IsHeap Node.key nodes' ∧ nodes'.Perm (node :: rest) := by
  obtain ⟨l', hl', hheap, hperm⟩ := heapreplace_spec h node
  rw [replaceRoot, hl'] at hr
  obtain rfl := Except.ok.inj hr
  exact ⟨hheap, hperm⟩

/-- **The root is exchanged.** -/
theorem NodesOk.replaceRoot (h : HeapFrom Node.key 1 (root :: rest))
    (hpos : ∀ n ∈ rest, 0 ≤ n.countDownVal) (hnode : 0 ≤ node.countDownVal)
    (hr : replaceRoot (root :: rest) node = .ok nodes') :
    NodesOk nodes' ∧ nodes'.length = rest.length + 1 := by
  obtain ⟨hheap, hperm⟩ := replaceRoot_spec h hr
  refine ⟨⟨hheap, fun n hn => ?_⟩, hperm.length_eq⟩
  rcases List.mem_cons.mp (hperm.mem_iff.mp hn) with rfl | hn
  · exact hnode
  · exact hpos n hn

end Nodes

/-! ## A slot with a collision -/

section Collision

variable {nodes nodes' again again' : List Node} {draws draws' : Draws}

/-- The heap order but for the root, which the other nodes of the list do not depend on. -/
theorem NodesOk.set_root {root rest} (h : NodesOk (root :: rest)) (node : Node) :
    HeapFrom Node.key 1 (node :: rest) ∧ ∀ n ∈ rest, 0 ≤ n.countDownVal :=
  ⟨(HeapFrom.mono h.heap (Nat.zero_le 1)).root node,
    fun n hn => h.nonneg n (List.mem_cons_of_mem root hn)⟩

/-- **A turn of the loop**, for a root that has timed out: where it draws `0` again it is put aside,
and otherwise it comes to another place in the heap. -/
theorem collideLoop_turn {root rest} (h : NodesOk (root :: rest)) (hroot : root.countDownVal = 0)
    (again : List Node) (node : Node) (hnode : 0 ≤ node.countDownVal) :
    ∃ nodes again', NodesOk nodes ∧
      ((node.countDownVal = 0 ∧ nodes.Perm rest ∧ again' = again ++ [node]) ∨
        (node.countDownVal ≠ 0 ∧ nodes.Perm (node :: rest) ∧ again' = again)) ∧
      ∀ fuel draws draws', root.collide draws = .ok (node, draws') →
        collideLoop (fuel + 1) (root :: rest) again draws =
          collideLoop fuel nodes again' draws' := by
  obtain ⟨hheap, hrest⟩ := h.set_root node
  have hto : root.hasTimeout = true := by simp [hroot]
  by_cases h0 : node.countDownVal = 0
  · obtain ⟨nodes, hpop, hheap', hperm⟩ := heappop_spec hheap
    refine ⟨nodes, again ++ [node], ⟨hheap', fun n hn => hrest n (hperm.mem_iff.mp hn)⟩,
      Or.inl ⟨h0, hperm, rfl⟩, fun fuel draws draws' hcoll => ?_⟩
    rw [collideLoop]
    show (if root.hasTimeout = true then _ else _) = _
    rw [if_pos hto, hcoll]
    show (if node.hasTimeout = true then _ else _) = _
    rw [if_pos (by simp [h0]), List.set_cons_zero, hpop]
  · obtain ⟨nodes, hrep, hheap', hperm⟩ := heapreplace_spec hheap node
    have hrep' : replaceRoot (node :: rest) node = .ok nodes := by
      rw [replaceRoot, hrep]
    refine ⟨nodes, again, (NodesOk.replaceRoot hheap hrest hnode hrep').1,
      Or.inr ⟨h0, hperm, rfl⟩, fun fuel draws draws' hcoll => ?_⟩
    rw [collideLoop]
    show (if root.hasTimeout = true then _ else _) = _
    rw [if_pos hto, hcoll]
    show (if node.hasTimeout = true then _ else _) = _
    rw [if_neg (by simp; omega), List.set_cons_zero, hrep']
    rfl

/-- The loop ends where the root has not timed out. -/
theorem collideLoop_done {root rest} (h : NodesOk (root :: rest)) (hroot : root.countDownVal ≠ 0)
    (fuel : ℕ) (again : List Node) (draws : Draws) :
    collideLoop fuel (root :: rest) again draws = .ok (root :: rest, again, draws) := by
  have h0 := h.nonneg root List.mem_cons_self
  have hto : ¬root.hasTimeout := by
    rw [Node.hasTimeout_iff]
    omega
  unfold collideLoop
  exact if_neg hto

/-- A draw that fails ends it too. -/
theorem collideLoop_error {root : Node} {rest : List Node} {e : Error}
    (hroot : root.countDownVal = 0) (fuel : ℕ) (again : List Node)
    (he : root.collide draws = .error e) :
    collideLoop (fuel + 1) (root :: rest) again draws = .error e := by
  rw [collideLoop]
  show (if root.hasTimeout = true then _ else _) = _
  rw [if_pos (by simp [hroot]), he]
  rfl

/-- What a loop that ends has done first. -/
theorem collideLoop_cases {fuel : ℕ} (h : NodesOk nodes)
    (hl : collideLoop fuel nodes again draws = .ok (nodes', again', draws')) :
    ∃ root rest, nodes = root :: rest ∧
      ((root.countDownVal ≠ 0 ∧ nodes' = nodes ∧ again' = again) ∨
        (root.countDownVal = 0 ∧ ∃ fuel₁ node draws₁ nodes₁ again₁, fuel = fuel₁ + 1 ∧
          root.collide draws = .ok (node, draws₁) ∧ NodesOk nodes₁ ∧
          ((node.countDownVal = 0 ∧ nodes₁.Perm rest ∧ again₁ = again ++ [node]) ∨
            (node.countDownVal ≠ 0 ∧ nodes₁.Perm (node :: rest) ∧ again₁ = again)) ∧
          collideLoop fuel₁ nodes₁ again₁ draws₁ = .ok (nodes', again', draws'))) := by
  cases nodes with
  | nil =>
    unfold collideLoop at hl
    exact nomatch hl
  | cons root rest =>
    refine ⟨root, rest, rfl, ?_⟩
    by_cases hroot : root.countDownVal = 0
    · refine Or.inr ⟨hroot, ?_⟩
      cases fuel with
      | zero =>
        rw [collideLoop] at hl
        have hfuel : (.error .fuel : Except Error (List Node × List Node × Draws)) =
            .ok (nodes', again', draws') := by
          rw [← hl]
          exact (if_pos (by simp [hroot])).symm
        exact nomatch hfuel
      | succ fuel =>
        cases hc : root.collide draws with
        | error e => exact nomatch (collideLoop_error hroot fuel again hc).symm.trans hl
        | ok p =>
          obtain ⟨node, draws₁⟩ := p
          obtain ⟨nodes₁, again₁, hok, hcase, hturn⟩ := collideLoop_turn h hroot again node
            (randBackOff_nonneg hc)
          exact ⟨fuel, node, draws₁, nodes₁, again₁, rfl, rfl, hok, hcase,
            (hturn fuel draws draws₁ hc).symm.trans hl⟩
    · obtain ⟨rfl, heq⟩ := Prod.mk.inj
        (Except.ok.inj ((collideLoop_done h hroot fuel again draws).symm.trans hl))
      obtain ⟨rfl, -⟩ := Prod.mk.inj heq
      exact Or.inl ⟨hroot, rfl, rfl⟩

/-- **The loop over the nodes that collide** keeps the heap, and loses no node. -/
theorem collideLoop_spec : ∀ (fuel : ℕ) (nodes again : List Node) (draws : Draws),
    NodesOk nodes → (∀ n ∈ again, 0 ≤ n.countDownVal) →
    collideLoop fuel nodes again draws = .ok (nodes', again', draws') →
    NodesOk nodes' ∧ (∀ n ∈ again', 0 ≤ n.countDownVal) ∧
      nodes'.length + again'.length = nodes.length + again.length := by
  intro fuel
  induction fuel using Nat.strongRecOn with
  | ind fuel ih =>
    intro nodes again draws h ha hl
    obtain ⟨root, rest, rfl, ⟨-, rfl, rfl⟩ |
      ⟨-, fuel₁, node, draws₁, nodes₁, again₁, rfl, hcoll, hok, hcase, hl⟩⟩ :=
        collideLoop_cases h hl
    · exact ⟨h, ha, rfl⟩
    · have ha₁ : ∀ n ∈ again₁, 0 ≤ n.countDownVal := by
        rcases hcase with ⟨-, -, rfl⟩ | ⟨-, -, rfl⟩
        · intro n hn
          rcases List.mem_append.mp hn with hn | hn
          · exact ha n hn
          · obtain rfl := List.mem_singleton.mp hn
            exact randBackOff_nonneg hcoll
        · exact ha
      obtain ⟨h1, h2, h3⟩ := ih fuel₁ (Nat.lt_succ_self fuel₁) nodes₁ again₁ draws₁ hok ha₁ hl
      refine ⟨h1, h2, ?_⟩
      rcases hcase with ⟨-, hperm, rfl⟩ | ⟨-, hperm, rfl⟩
      · have hlen := hperm.length_eq
        simp only [List.length_append, List.length_cons, List.length_nil] at h3 ⊢
        omega
      · rw [h3, hperm.length_eq]
        rfl

/-- The nodes put aside go back. -/
theorem nodesOk_foldl_heappush : ∀ (again nodes : List Node), NodesOk nodes →
    (∀ n ∈ again, 0 ≤ n.countDownVal) →
    NodesOk (again.foldl (heappush Node.key) nodes) ∧
      (again.foldl (heappush Node.key) nodes).length = nodes.length + again.length := by
  intro again
  induction again with
  | nil => exact fun nodes h _ => ⟨h, rfl⟩
  | cons n again ih =>
    intro nodes h ha
    have hperm : (heappush Node.key nodes n).Perm (n :: nodes) := heappush_perm nodes n
    obtain ⟨h1, h2⟩ := ih (heappush Node.key nodes n)
      ⟨heappush_isHeap h.heap n, fun x hx => by
        rcases List.mem_cons.mp (hperm.mem_iff.mp hx) with rfl | hx
        · exact ha _ List.mem_cons_self
        · exact h.nonneg x hx⟩ fun x hx => ha x (List.mem_cons_of_mem n hx)
    rw [List.foldl_cons]
    refine ⟨h1, ?_⟩
    have hlen := hperm.length_eq
    simp only [List.length_cons] at hlen ⊢
    omega

end Collision

/-! ## An iteration -/

/-- At the head of the loop: the heap, and time that is skipped but not counted down yet. -/
structure HeadOk (s : Run) : Prop where
  nodes : NodesOk s.csma.nodes
  length : (s.csma.nodes.length : ℤ) = s.csma.numNodes
  idle : s.occupiedFlag = false → ∀ n ∈ s.csma.nodes, s.nextIdleTime ≤ n.countDownVal

/-- Where the minimum has been read. -/
structure Settled (s : Run) : Prop where
  nodes : NodesOk s.csma.nodes
  length : (s.csma.nodes.length : ℤ) = s.csma.numNodes
  free : s.occupiedFlag = false
  root : ∃ root rest, s.csma.nodes = root :: rest ∧ s.nextIdleTime = root.countDownVal

section Iteration

variable {s s' : Run} {b : Branch}

/-- **Booking** keeps the heap order. -/
theorem nodesOk_book (h : HeadOk s) (hb : book s = .ok s') :
    NodesOk s'.csma.nodes ∧ (s'.csma.nodes.length : ℤ) = s'.csma.numNodes ∧
      s'.occupiedFlag = false := by
  have hlen := h.length
  rcases book_cases hb with ⟨hocc, root, node, draws, nodes, hroot, hsent, hnodes, rfl⟩ |
    ⟨hocc, hidle, rfl⟩ | ⟨hocc, -, rfl⟩
  · obtain ⟨rest, hrest⟩ := minCandidate_ok hroot
    have hok := h.nodes
    rw [hrest] at hok hnodes hlen
    obtain ⟨hok', hlen'⟩ := NodesOk.replaceRoot (hok.set_root root).1 (hok.set_root root).2
      (randBackOff_nonneg hsent) hnodes
    simp only [List.length_cons] at hlen
    exact ⟨hok', by simp only; omega, rfl⟩
  · refine ⟨h.nodes.map_countDown (h.idle hocc), ?_, hocc⟩
    simp only [List.length_map]
    exact hlen
  · exact ⟨h.nodes, hlen, hocc⟩

/-- **Up to where the minimum is read.** -/
theorem nodesOk_settle (h : HeadOk s) (hs : settle s = .ok s') :
    Settled s' ∧ s'.csma.numNodes = s.csma.numNodes := by
  obtain ⟨s₁, node, hb, hnode, rfl⟩ := settle_cases hs
  obtain ⟨hok, hlen, hfree⟩ := nodesOk_book h hb
  obtain ⟨rest, hrest⟩ := minCandidate_ok hnode
  exact ⟨⟨hok, hlen, hfree, node, rest, hrest, rfl⟩, (book_frame hb).2.2.1⟩

/-- **The activity that starts** keeps the heap order. -/
theorem headOk_act (h : Settled s) (hb : branch s = .ok b) (ha : act s b = .ok s') :
    HeadOk s' ∧ s'.csma.numNodes = s.csma.numNodes := by
  have hok := h.nodes
  have hlen := h.length
  obtain ⟨root, rest, hnodes, hidle⟩ := h.root
  have hmin : ∀ n ∈ s.csma.nodes, s.nextIdleTime ≤ n.countDownVal := fun n hn => by
    rw [hnodes] at hok hn
    rw [hidle]
    exact hok.root_le hn
  rcases act_cases ha with ⟨rfl, rfl⟩ | ⟨rfl, nodes, again, draws, hloop, rfl⟩ | ⟨rfl, rfl⟩
  · exact ⟨⟨hok, hlen, fun _ => hmin⟩, rfl⟩
  · obtain ⟨h1, h2, h3⟩ := collideLoop_spec _ _ _ _ hok
      (fun _ hn => absurd hn List.not_mem_nil) hloop
    obtain ⟨h4, h5⟩ := nodesOk_foldl_heappush again nodes h1 h2
    have hle : s.nextIdleTime ≤ 0 :=
      not_lt.mp fun hpos => Branch.noConfusion ((branch_idle hb).mpr hpos)
    simp only [List.length_nil, add_zero] at h3
    refine ⟨⟨h4, ?_, fun _ n hn => hle.trans (h4.nonneg n hn)⟩, rfl⟩
    simp only
    omega
  · exact ⟨⟨hok, hlen, fun hf => absurd hf (by simp)⟩, rfl⟩

/-- **An iteration.** -/
theorem headOk_iteration (h : HeadOk s) (hs : iteration s = .ok s') :
    HeadOk s' ∧ s'.csma.numNodes = s.csma.numNodes := by
  obtain ⟨s₁, b, hsettle, hb, hact⟩ := iteration_cases hs
  obtain ⟨h1, hN⟩ := nodesOk_settle h hsettle
  obtain ⟨h2, hN'⟩ := headOk_act h1 hb hact
  exact ⟨h2, hN'.trans hN⟩

end Iteration

/-! ## The models and the states of the loop -/

/-- The models that a constructor and calls of `simulate` lead to, with three nodes at least. -/
inductive Reached : CSMA → Prop
  | construct {config : Config} {draws draws' : Draws} {c : CSMA} (hN : 3 ≤ config.N)
      (h : construct config draws = .ok (c, draws')) : Reached c
  | simulate {N L : Option ℤ} {R : Option (List ℤ)} {draws draws' : Draws} {c c' : CSMA}
      {fuel : ℕ} (hc : Reached c) (hN : ∀ n ∈ N, 3 ≤ n)
      (h : simulate fuel N L R c draws = .ok (c', draws')) : Reached c'

/-- The states at the head of the loop of `simulate`, in any call on such a model. -/
def LoopHead : Run → Prop :=
  Runs (fun s => ∃ c N L R draws c' draws', Reached c ∧ (∀ n ∈ N, 3 ≤ n) ∧
      prepare N L R c draws = .ok (c', draws') ∧ s = Run.start c' draws')
    fun s s' => s.time < s.csma.tolTime ∧ iteration s = .ok s'

/-- The nodes of a model between two calls. -/
structure ModelOk (c : CSMA) : Prop where
  nodes : NodesOk c.nodes
  length : (c.nodes.length : ℤ) = c.numNodes
  three : 3 ≤ c.numNodes

section Models

variable {N L : Option ℤ} {R : Option (List ℤ)} {c c' : CSMA} {config : Config}
  {draws draws' : Draws} {s s' : Run}

@[simp] theorem range_length (a b : ℤ) : (range a b).length = (b - a).toNat := by
  rw [range, List.length_map, List.length_range]

theorem modelOk_construct (hN : 3 ≤ config.N) (h : construct config draws = .ok (c, draws')) :
    ModelOk c := by
  obtain ⟨⟨nodes, draws₁⟩, hmap, h⟩ := bind_ok.mp h
  obtain ⟨rfl, -⟩ := Prod.mk.inj (Except.ok.inj h)
  obtain ⟨hlen, hpos⟩ := mapDraws_spec (fun _ _ _ _ h => randBackOff_nonneg h) _ _ _ _ hmap
  rw [range_length] at hlen
  refine ⟨nodesOk_heapify hpos, ?_, hN⟩
  simp only [(heapify_perm nodes).length_eq]
  omega

/-- The number of nodes that are kept. -/
theorem kept_length (h : (c.nodes.length : ℤ) = c.numNodes) {n : ℤ} (hn : 3 ≤ n) :
    (((if n < c.numNodes then sliceTo c.nodes n else c.nodes).length : ℤ)) =
      min n c.numNodes := by
  split_ifs with hlt
  · rw [sliceTo, if_pos (by omega), List.length_take]
    omega
  · omega

theorem modelOk_reinitialize (hc : ModelOk c) (hN : ∀ n ∈ N, 3 ≤ n)
    (h : reinitialize N L R c draws = .ok (c', draws')) : ModelOk c' := by
  obtain ⟨⟨kept, draws₁⟩, hkept, h⟩ := bind_ok.mp h
  obtain ⟨⟨added, draws₂⟩, hadded, h⟩ := bind_ok.mp h
  obtain ⟨rfl, -⟩ := Prod.mk.inj (Except.ok.inj h)
  obtain ⟨hl1, hp1⟩ := mapDraws_spec (fun _ _ _ _ h => randBackOff_nonneg h) _ _ _ _ hkept
  obtain ⟨hl2, hp2⟩ := mapDraws_spec (fun _ _ _ _ h => randBackOff_nonneg h) _ _ _ _ hadded
  have hpos : ∀ n ∈ kept ++ added, 0 ≤ n.countDownVal := fun n hn =>
    (List.mem_append.mp hn).elim (hp1 n) (hp2 n)
  have hlen := hc.length
  have hthree := hc.three
  have hperm : (heapify Node.key (kept ++ added)).Perm (kept ++ added) := heapify_perm _
  refine ⟨nodesOk_heapify hpos, ?_, ?_⟩
  · simp only [hperm.length_eq, List.length_append]
    cases N with
    | none =>
      simp only [Option.getD_none, List.length_nil] at hl1 hl2 ⊢
      omega
    | some n =>
      have hk := kept_length hlen (hN n rfl)
      simp only [Option.getD_some, range_length] at hl1 hl2 hk ⊢
      omega
  · cases N with
    | none => exact hthree
    | some n => exact hN n rfl

theorem modelOk_prepare (hc : ModelOk c) (hN : ∀ n ∈ N, 3 ≤ n)
    (h : prepare N L R c draws = .ok (c', draws')) : ModelOk c' := by
  unfold prepare at h
  split_ifs at h
  · exact modelOk_reinitialize hc hN h
  · obtain ⟨rfl, -⟩ := Prod.mk.inj (Except.ok.inj h)
    exact hc

theorem headOk_start (hc : ModelOk c) : HeadOk (Run.start c draws) :=
  ⟨hc.nodes, hc.length, fun _ n hn => hc.nodes.nonneg n hn⟩

/-- The states of a loop. -/
theorem headOk_loopFrom {s₀ : Run} (h : HeadOk s₀) (hrun : LoopFrom s₀ s) :
    HeadOk s ∧ s.csma.numNodes = s₀.csma.numNodes := by
  refine Runs.invariant (I := fun s => HeadOk s ∧ s.csma.numNodes = s₀.csma.numNodes) ?_ ?_ hrun
  · rintro _ rfl
    exact ⟨h, rfl⟩
  · rintro s s' ⟨hok, hN⟩ ⟨-, hit⟩
    obtain ⟨hok', hN'⟩ := headOk_iteration hok hit
    exact ⟨hok', hN'.trans hN⟩

/-- What is booked after the loop leaves the nodes alone. -/
theorem finish_nodes (s : Run) :
    (finish s).nodes = s.csma.nodes ∧ (finish s).numNodes = s.csma.numNodes := by
  unfold finish
  split_ifs <;> exact ⟨rfl, rfl⟩

/-- **Every model** has its nodes in heap order. -/
theorem Reached.modelOk (h : Reached c) : ModelOk c := by
  induction h with
  | construct hN h => exact modelOk_construct hN h
  | simulate hc hN h ih =>
    obtain ⟨⟨c₁, draws₁⟩, hprep, h⟩ := bind_ok.mp h
    obtain ⟨s, hloop, h⟩ := bind_ok.mp h
    obtain ⟨rfl, -⟩ := Prod.mk.inj (Except.ok.inj h)
    have hok := modelOk_prepare ih hN hprep
    obtain ⟨hhead, hnum⟩ := headOk_loopFrom (headOk_start hok)
      (loopFrom_simulateLoop _ _ (Runs.start rfl) hloop).1
    obtain ⟨h1, h2⟩ := finish_nodes s
    refine ⟨h1 ▸ hhead.nodes, by rw [h1, h2, hhead.length], ?_⟩
    rw [h2, hnum]
    exact hok.three

/-- **Every state at the head of the loop** has its nodes in heap order. -/
theorem headOk_runs (h : LoopHead s) : HeadOk s ∧ 3 ≤ s.csma.numNodes := by
  refine Runs.invariant (I := fun s => HeadOk s ∧ 3 ≤ s.csma.numNodes) ?_ ?_ h
  · rintro s ⟨c, N, L, R, draws, c', draws', hc, hN, hprep, rfl⟩
    have hok := modelOk_prepare hc.modelOk hN hprep
    exact ⟨headOk_start hok, hok.three⟩
  · rintro s s' ⟨hok, h3⟩ ⟨-, hit⟩
    obtain ⟨hok', hN⟩ := headOk_iteration hok hit
    exact ⟨hok', hN.symm ▸ h3⟩

end Models

/-! ## The branch -/

/-- How many nodes have timed out. -/
def timeouts (nodes : List Node) : ℕ := nodes.countP fun n => n.countDownVal = 0

section Branch

variable {s : Run} {root a b : Node} {rest : List Node}

@[simp] theorem timeouts_cons (root : Node) (rest : List Node) :
    timeouts (root :: rest) = timeouts rest + if root.countDownVal = 0 then 1 else 0 := by
  rw [timeouts, List.countP_cons]
  simp [timeouts]

/-- Without a node that has timed out at the root's children there is none but the root. -/
theorem timeouts_rest (h : NodesOk (root :: a :: b :: rest)) (ha : a.countDownVal ≠ 0)
    (hb : b.countDownVal ≠ 0) : timeouts (a :: b :: rest) = 0 := by
  refine List.countP_eq_zero.mpr fun n hn => ?_
  have ha0 := h.nonneg a (by simp)
  have hb0 := h.nonneg b (by simp)
  have hle := h.child_le hn
  simp only [decide_eq_true_eq]
  omega

/-- **The first three nodes** tell how many have timed out. -/
theorem branch_spec (h : NodesOk (root :: a :: b :: rest))
    (hs : s.csma.nodes = root :: a :: b :: rest) (hidle : s.nextIdleTime = root.countDownVal) :
    (branch s = .ok .idle ∧ timeouts s.csma.nodes = 0) ∨
    (branch s = .ok .collision ∧ 2 ≤ timeouts s.csma.nodes) ∨
    (branch s = .ok .transmission ∧ timeouts s.csma.nodes = 1) := by
  have h0 := h.nonneg root List.mem_cons_self
  have ha := h.nonneg a (by simp)
  have hb := h.nonneg b (by simp)
  unfold branch
  rw [hs, hidle]
  split_ifs with hpos
  · refine Or.inl ⟨rfl, List.countP_eq_zero.mpr fun n hn => ?_⟩
    have := h.root_le hn
    simp only [decide_eq_true_eq]
    omega
  · have hroot : root.countDownVal = 0 := by omega
    refine Or.inr ?_
    simp only [List.getElem?_cons_succ, List.getElem?_cons_zero, Node.hasTimeout_iff]
    rw [timeouts_cons, if_pos hroot]
    by_cases ha0 : a.countDownVal = 0
    · rw [if_pos (by omega), timeouts_cons, if_pos ha0]
      exact Or.inl ⟨rfl, by omega⟩
    · rw [if_neg (by omega)]
      by_cases hb0 : b.countDownVal = 0
      · rw [if_pos (by omega), timeouts_cons, timeouts_cons, if_pos hb0]
        exact Or.inl ⟨rfl, by omega⟩
      · rw [if_neg (by omega), timeouts_rest h ha0 hb0]
        exact Or.inr ⟨rfl, rfl⟩

/-- **The branch** is that of the number of nodes that have timed out. -/
theorem branch_exact (h : Settled s) (h3 : 3 ≤ s.csma.numNodes) :
    ∃ b, branch s = .ok b ∧ (b = .collision ↔ 2 ≤ timeouts s.csma.nodes) ∧
      (b = .transmission ↔ timeouts s.csma.nodes = 1) ∧
      (b = .idle ↔ timeouts s.csma.nodes = 0) := by
  have hok := h.nodes
  have hlen := h.length
  obtain ⟨root, rest, hnodes, hidle⟩ := h.root
  obtain ⟨a, b, rest', rfl⟩ : ∃ a b rest', rest = a :: b :: rest' := by
    rw [hnodes, List.length_cons] at hlen
    match rest with
    | [] => simp at hlen; omega
    | [a] => simp at hlen; omega
    | a :: b :: rest' => exact ⟨a, b, rest', rfl⟩
  rcases branch_spec (hnodes ▸ hok) hnodes hidle with ⟨hb, ht⟩ | ⟨hb, ht⟩ | ⟨hb, ht⟩
  · refine ⟨.idle, hb, ?_, ?_, ?_⟩ <;> simp [ht]
  · refine ⟨.collision, hb, ?_, ?_, ?_⟩ <;> simp <;> omega
  · refine ⟨.transmission, hb, ?_, ?_, ?_⟩ <;> simp [ht]

end Branch

/-- **Collisions are detected exactly**, in every iteration that `simulate` reaches: where the
minimum is read, the nodes are in heap order and no countdown is negative; a collision is found if
and only if two nodes or more have timed out, a transmission starts if and only if one has, and the
channel is idle if and only if none has, for the least countdown of all nodes. -/
theorem detection_exact (s s₁ : Run) (h : LoopHead s) (hs : settle s = .ok s₁) :
    IsHeap Node.key s₁.csma.nodes ∧ (∀ n ∈ s₁.csma.nodes, 0 ≤ n.countDownVal) ∧
    ∃ b, branch s₁ = .ok b ∧
      (b = .collision ↔ 2 ≤ timeouts s₁.csma.nodes) ∧
      (b = .transmission ↔ timeouts s₁.csma.nodes = 1) ∧
      (b = .idle ↔ timeouts s₁.csma.nodes = 0) ∧
      (b = .idle → act s₁ b = .ok { s₁ with time := s₁.time + s₁.nextIdleTime } ∧
        (∃ n ∈ s₁.csma.nodes, n.countDownVal = s₁.nextIdleTime) ∧
        ∀ n ∈ s₁.csma.nodes, s₁.nextIdleTime ≤ n.countDownVal) := by
  obtain ⟨hhead, h3⟩ := headOk_runs h
  obtain ⟨hset, hN⟩ := nodesOk_settle hhead hs
  have hok := hset.nodes
  obtain ⟨root, rest, hnodes, hidle⟩ := hset.root
  have hmin : (∃ n ∈ s₁.csma.nodes, n.countDownVal = s₁.nextIdleTime) ∧
      ∀ n ∈ s₁.csma.nodes, s₁.nextIdleTime ≤ n.countDownVal := by
    rw [hnodes] at hok ⊢
    rw [hidle]
    exact ⟨⟨root, List.mem_cons_self, rfl⟩, fun n hn => hok.root_le hn⟩
  obtain ⟨b, hb, hcoll, htrans, hnone⟩ := branch_exact hset (hN ▸ h3)
  exact ⟨hok.heap, hok.nonneg, b, hb, hcoll, htrans, hnone, fun hf => ⟨hf ▸ rfl, hmin⟩⟩

/-- A slot where two of three nodes have timed out. -/
def twoTimeouts : CSMA :=
  ⟨3, 2, [3], 0, 3, [⟨0, [3], 0, 0, 0, 0, 0⟩, ⟨1, [3], 0, 0, 0, 0, 0⟩, ⟨2, [3], 0, 0, 0, 0, 3⟩],
    0, 0, 0⟩

theorem detection_exact_twoTimeouts :
    LoopHead (Run.start twoTimeouts []) ∧ timeouts twoTimeouts.nodes = 2 ∧
      branch (Run.start twoTimeouts []) = .ok .collision := by
  have hcon : construct ⟨3, 2, [3], 0, 3⟩ [0, 0, 3] = .ok (twoTimeouts, []) := rfl
  have hc : Reached twoTimeouts := .construct (by decide) hcon
  have hhead : LoopHead (Run.start twoTimeouts []) :=
    Runs.start ⟨twoTimeouts, none, none, none, [], twoTimeouts, [], hc, by simp, rfl, rfl⟩
  have htwo : timeouts twoTimeouts.nodes = 2 := by decide
  obtain ⟨-, -, b, hb, hcoll, -⟩ := detection_exact _ (Run.start twoTimeouts []) hhead rfl
  rw [hcoll.mpr htwo.ge] at hb
  exact ⟨hhead, htwo, hb⟩

end NetworkingLearning.Csma
