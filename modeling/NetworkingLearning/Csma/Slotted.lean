import NetworkingLearning.Csma.Draws

/-!
# The channel, slot by slot (`csma.py:98-140`)

What `simulate` is for: a number of nodes contend for a channel, slot after slot. Here (`slotted`)
the nodes stand in the order of their ids, all of them are looked at in every slot, and each slot is
booked when it is over. `simulate` skips the slots in which nothing happens, and has its nodes in a
heap. This model is not translated from the source: only the nodes, and what a collision and a
packet make of them, are those of `Simulation`.

* A slot goes to a packet on the channel, to nobody, to a node that starts to send, or to a
  collision (`slot`, `contend`).
* A packet that is over is counted, and a new countdown drawn, at the start of the next slot. So
  nothing is drawn for a packet that ends with the last slot, as in `simulate`.
* `Tracks` ties the two together: the same nodes in another order, and the time that `simulate` has
  skipped counted down slot by slot.

The heap does not decide who draws when: of the nodes that collide the root is the one with the
least id, and one that has drawn is behind the others (`collideLoop_inOrder`).

Results:
* `collideLoop_inOrder`: the nodes that collide draw in the order of their ids.
* `slots_idle`, `slots_sending`: slots in which nothing happens.
* `tracks_iteration`: an iteration of `simulate`, slot by slot.
* `slots_of_simulate`: a whole run of `simulate`, slot by slot.
* `simulate_slotted`: the two come to the same numbers, on the same draws.
-/

namespace NetworkingLearning.Csma

open NetworkingLearning.Heaps NetworkingLearning.Machine
open scoped List

/-- A channel. -/
structure Slotted where
  nodes : List Node
  /-- What is left of the packet on the channel. -/
  left : Option ℕ
  draws : Draws
  sending : ℤ
  idle : ℤ
  coll : ℤ
  deriving DecidableEq

/-- What the nodes that have timed out do, in their order. -/
def pass (f : Node → Draws → Except Error (Node × Draws)) :
    List Node → Draws → Except Error (List Node × Draws) :=
  mapDraws fun node draws => if node.countDownVal = 0 then f node draws else .ok (node, draws)

/-- A slot that is not taken by a packet that was on the channel before. -/
def contend (L : ℤ) (x : Slotted) : Except Error Slotted :=
  match timeouts x.nodes with
  | 0 => .ok { x with nodes := x.nodes.map (Node.countDown 1), idle := x.idle + 1 }
  | 1 => .ok { x with left := some (L - 1).toNat, sending := x.sending + 1 }
  | _ => do
    let (nodes, draws) ← pass Node.collide x.nodes x.draws
    return { x with nodes := nodes, draws := draws, coll := x.coll + 1 }

/-- A slot. -/
def slot (L : ℤ) (x : Slotted) : Except Error Slotted :=
  match x.left with
  | some (n + 1) => .ok { x with left := some n, sending := x.sending + 1 }
  | some 0 => do
    let (nodes, draws) ← pass Node.sentPacket x.nodes x.draws
    contend L { x with nodes := nodes, left := none, draws := draws }
  | none => contend L x

/-- A number of slots. -/
def slots (L : ℤ) : ℕ → Slotted → Except Error Slotted
  | 0, x => .ok x
  | n + 1, x => slot L x >>= slots L n

/-- All slots of a configuration. -/
def slotted (config : Config) (draws : Draws) : Except Error Slotted := do
  let (nodes, draws) ← mapDraws (Node.new config.R config.M) (range 0 config.N) draws
  slots config.L config.T.toNat ⟨nodes, none, draws, 0, 0, 0⟩

/-! ## In the order of the ids -/

section Pass

variable {nodes nodes' again again' l z z' rest : List Node} {draws draws' : Draws}
  {root node : Node} {f : Node → Draws → Except Error (Node × Draws)}

/-- The nodes that have timed out. -/
def timedOut (nodes : List Node) : List Node := nodes.filter fun n => n.countDownVal = 0

/-- The other nodes. -/
def waiting (nodes : List Node) : List Node := nodes.filter fun n => ¬ n.countDownVal = 0

theorem timedOut_cons_of_eq (h : root.countDownVal = 0) (rest : List Node) :
    timedOut (root :: rest) = root :: timedOut rest := List.filter_cons_of_pos (by simpa using h)

theorem timedOut_cons_of_ne (h : root.countDownVal ≠ 0) (rest : List Node) :
    timedOut (root :: rest) = timedOut rest := List.filter_cons_of_neg (by simpa using h)

theorem waiting_cons_of_eq (h : root.countDownVal = 0) (rest : List Node) :
    waiting (root :: rest) = waiting rest := List.filter_cons_of_neg (by simpa using h)

theorem waiting_cons_of_ne (h : root.countDownVal ≠ 0) (rest : List Node) :
    waiting (root :: rest) = root :: waiting rest := List.filter_cons_of_pos (by simpa using h)

@[simp] theorem length_timedOut (nodes : List Node) : (timedOut nodes).length = timeouts nodes :=
  List.countP_eq_length_filter.symm

theorem timedOut_perm (h : nodes ~ nodes') : timedOut nodes ~ timedOut nodes' := h.filter _

theorem waiting_perm (h : nodes ~ nodes') : waiting nodes ~ waiting nodes' := h.filter _

theorem waiting_append_timedOut (nodes : List Node) : waiting nodes ++ timedOut nodes ~ nodes := by
  induction nodes with
  | nil => exact List.Perm.refl _
  | cons n nodes ih =>
    by_cases hn : n.countDownVal = 0
    · rw [waiting_cons_of_eq hn, timedOut_cons_of_eq hn]
      exact List.perm_middle.trans (ih.cons n)
    · rw [waiting_cons_of_ne hn, timedOut_cons_of_ne hn]
      exact ih.cons n

/-- **The root is the first** in the order by countdown and id. -/
theorem NodesOk.root_key_le (h : NodesOk (root :: rest)) (hn : node ∈ root :: rest) :
    root.key ≤ node.key := by
  obtain ⟨k, hk, rfl⟩ := List.getElem_of_mem hn
  have hle := h.heap.root_le k
  rw [keyAt_of_lt hk, keyAt_of_lt (Nat.zero_lt_succ _)] at hle
  exact WithTop.coe_le_coe.mp hle

/-- In the order of the ids. -/
def InOrderOfIds (nodes : List Node) : Prop := (nodes.map Node.id).Pairwise (· < ·)

theorem InOrderOfIds.filter {p : Node → Bool} (h : InOrderOfIds nodes) :
    InOrderOfIds (nodes.filter p) :=
  h.sublist (List.filter_sublist.map Node.id)

/-- A root that has timed out is the first of the nodes that have. -/
theorem timedOut_eq_cons (h : NodesOk (root :: rest)) (hroot : root.countDownVal = 0)
    (hz : z ~ timedOut (root :: rest)) (hids : InOrderOfIds z) :
    ∃ z₁, z = root :: z₁ ∧ z₁ ~ timedOut rest := by
  rw [timedOut_cons_of_eq hroot] at hz
  have hmem : root ∈ z := hz.mem_iff.mpr List.mem_cons_self
  cases z with
  | nil => exact absurd hmem List.not_mem_nil
  | cons a z =>
    have ha : a ∈ root :: timedOut rest := hz.mem_iff.mp List.mem_cons_self
    have heq : a = root := by
      rcases List.mem_cons.mp hmem with heq | hlater
      · exact heq.symm
      · -- the ids of the list tell that `a` is before the root
        have hlt := (List.pairwise_cons.mp hids).1 _ (List.mem_map_of_mem hlater)
        rcases List.mem_cons.mp ha with heq | ha
        · exact heq
        · obtain ⟨harest, hzero⟩ := List.mem_filter.mp ha
          have hle := h.root_key_le (List.mem_cons_of_mem root harest)
          unfold Node.key at hle
          rw [Prod.Lex.toLex_le_toLex] at hle
          simp only [decide_eq_true_eq] at hzero hle
          omega
    subst heq
    exact ⟨z, rfl, (List.perm_cons a).mp hz⟩

theorem mapDraws_cons {β : Type} (f : β → Draws → Except Error (Node × Draws)) (x : β)
    (xs : List β) (draws : Draws) : mapDraws f (x :: xs) draws = (do
      let (node, draws) ← f x draws
      let (nodes, draws) ← mapDraws f xs draws
      return (node :: nodes, draws)) := rfl

/-- **The nodes that collide draw in the order of their ids**, whether they are put aside or not. -/
theorem collideLoop_inOrder : ∀ (fuel : ℕ) (nodes again z : List Node) (draws : Draws),
    NodesOk nodes → z ~ timedOut nodes → InOrderOfIds z →
    collideLoop fuel nodes again draws = .ok (nodes', again', draws') →
    ∃ z', mapDraws Node.collide z draws = .ok (z', draws') ∧
      nodes' ++ again' ~ waiting nodes ++ z' ++ again := by
  intro fuel
  induction fuel using Nat.strongRecOn with
  | ind fuel ih =>
    intro nodes again z draws h hz hids hl
    obtain ⟨root, rest, rfl, ⟨hne, -, -⟩ |
      ⟨h0, fuel₁, node, draws₁, nodes₁, again₁, rfl, hcoll, hok, hcase, hl⟩⟩ :=
        collideLoop_cases h hl
    · have hnone : timedOut (root :: rest) = [] := by
        refine List.filter_eq_nil_iff.mpr fun n hn => ?_
        have hle := h.root_le hn
        have hpos := h.nonneg root List.mem_cons_self
        simp only [decide_eq_true_eq]
        omega
      have hall := waiting_append_timedOut (root :: rest)
      rw [hnone, List.append_nil] at hall
      rw [hnone] at hz
      obtain rfl := hz.eq_nil
      rw [collideLoop_done h hne] at hl
      obtain ⟨rfl, heq⟩ := Prod.mk.inj (Except.ok.inj hl)
      obtain ⟨rfl, rfl⟩ := Prod.mk.inj heq
      refine ⟨[], rfl, ?_⟩
      rw [List.append_nil]
      exact hall.symm.append_right _
    · obtain ⟨z₁, rfl, hz₁⟩ := timedOut_eq_cons h h0 hz hids
      have hids₁ : InOrderOfIds z₁ := (List.pairwise_cons.mp hids).2
      have hsame : timedOut nodes₁ ~ timedOut rest := by
        rcases hcase with ⟨-, hperm, -⟩ | ⟨hne, hperm, -⟩
        · exact timedOut_perm hperm
        · exact (timedOut_perm hperm).trans (by rw [timedOut_cons_of_ne hne])
      obtain ⟨z₁', hmap, hp⟩ := ih fuel₁ (Nat.lt_succ_self fuel₁) nodes₁ again₁ z₁ draws₁ hok
        (hz₁.trans hsame.symm) hids₁ hl
      refine ⟨node :: z₁', ?_, ?_⟩
      · rw [mapDraws_cons, hcoll]
        exact bind_ok.mpr ⟨_, rfl, bind_ok.mpr ⟨_, hmap, rfl⟩⟩
      · rw [waiting_cons_of_eq h0]
        refine hp.trans ?_
        rcases hcase with ⟨-, hperm, rfl⟩ | ⟨hne, hperm, rfl⟩
        · calc waiting nodes₁ ++ z₁' ++ (again ++ [node])
              ~ waiting rest ++ z₁' ++ (again ++ [node]) :=
                ((waiting_perm hperm).append_right _).append_right _
            _ ~ waiting rest ++ z₁' ++ (node :: again) :=
                (List.perm_append_singleton node again).append_left _
            _ ~ waiting rest ++ (node :: z₁') ++ again := by
                rw [List.append_assoc, List.append_assoc]
                exact List.perm_middle.append_left _
        · calc waiting nodes₁ ++ z₁' ++ again₁
              ~ node :: waiting rest ++ z₁' ++ again₁ := by
                rw [← waiting_cons_of_ne hne]
                exact ((waiting_perm hperm).append_right _).append_right _
            _ ~ waiting rest ++ (node :: z₁') ++ again₁ :=
                List.perm_middle.symm.append_right _

/-- **A pass over all nodes** is one over those that have timed out. -/
theorem pass_of_timedOut (hf : ∀ {n n' : Node} {d d' : Draws}, f n d = .ok (n', d') → n'.id = n.id)
    (h : mapDraws f (timedOut l) draws = .ok (z', draws')) :
    ∃ l', pass f l draws = .ok (l', draws') ∧ l' ~ waiting l ++ z' ∧
      l'.map Node.id = l.map Node.id := by
  induction l generalizing draws z' with
  | nil =>
    obtain ⟨rfl, rfl⟩ := Prod.mk.inj (Except.ok.inj h)
    exact ⟨[], rfl, List.Perm.refl _, rfl⟩
  | cons n l ih =>
    unfold pass at ih ⊢
    rw [mapDraws_cons]
    by_cases hn : n.countDownVal = 0
    · rw [timedOut_cons_of_eq hn, mapDraws_cons] at h
      obtain ⟨⟨n', draws₁⟩, hstep, h⟩ := bind_ok.mp h
      obtain ⟨⟨z₁', draws₂⟩, hmap, h⟩ := bind_ok.mp h
      obtain ⟨rfl, rfl⟩ := Prod.mk.inj (Except.ok.inj h)
      obtain ⟨l', hpass, hperm, hids⟩ := ih hmap
      refine ⟨n' :: l', ?_, ?_, ?_⟩
      · rw [if_pos hn, hstep]
        exact bind_ok.mpr ⟨_, rfl, bind_ok.mpr ⟨_, hpass, rfl⟩⟩
      · rw [waiting_cons_of_eq hn]
        exact (hperm.cons n').trans List.perm_middle.symm
      · rw [List.map_cons, List.map_cons, hids, hf hstep]
    · rw [timedOut_cons_of_ne hn] at h
      obtain ⟨l', hpass, hperm, hids⟩ := ih h
      refine ⟨n :: l', ?_, ?_, ?_⟩
      · rw [if_neg hn]
        exact bind_ok.mpr ⟨_, rfl, bind_ok.mpr ⟨_, hpass, rfl⟩⟩
      · rw [waiting_cons_of_ne hn]
        exact hperm.cons n
      · rw [List.map_cons, List.map_cons, hids]

end Pass

/-! ## Slots in which nothing happens -/

section Slots

variable {L : ℤ} {x y : Slotted} {k n : ℕ}

theorem slots_add (L : ℤ) (m n : ℕ) (x : Slotted) :
    slots L (m + n) x = slots L m x >>= slots L n := by
  induction m generalizing x with
  | zero =>
    rw [Nat.zero_add]
    rfl
  | succ m ih =>
    rw [Nat.succ_add, slots, slots]
    cases slot L x with
    | error e => rfl
    | ok y => exact ih y

@[simp] theorem countDown_countDown (a b : ℤ) (node : Node) :
    (node.countDown a).countDown b = node.countDown (a + b) := by
  simp only [Node.countDown, Node.mk.injEq, true_and]
  omega

@[simp] theorem map_countDown_zero (nodes : List Node) : nodes.map (Node.countDown 0) = nodes := by
  have hid : Node.countDown 0 = id := by
    funext node
    simp [Node.countDown]
  rw [hid, List.map_id]

/-- **Slots before a node times out** only count down. -/
theorem slots_idle (hleft : x.left = none) (hk : ∀ node ∈ x.nodes, (k : ℤ) ≤ node.countDownVal) :
    slots L k x = .ok { x with nodes := x.nodes.map (Node.countDown k), idle := x.idle + k } := by
  induction k generalizing x with
  | zero =>
    rw [Nat.cast_zero, map_countDown_zero, add_zero]
    rfl
  | succ k ih =>
    have hnone : timeouts x.nodes = 0 := by
      refine List.countP_eq_zero.mpr fun node hn => ?_
      have hpos := hk node hn
      simp only [decide_eq_true_eq]
      omega
    have hslot : slot L x =
        .ok { x with nodes := x.nodes.map (Node.countDown 1), idle := x.idle + 1 } := by
      simp only [slot, hleft, contend, hnone]
    have hrest := ih (x := { x with nodes := x.nodes.map (Node.countDown 1), idle := x.idle + 1 })
      hleft fun node hn => by
        obtain ⟨node', hn', rfl⟩ := List.mem_map.mp hn
        have hpos := hk node' hn'
        simp only [Node.countDown]
        omega
    have htwo : (x.nodes.map (Node.countDown 1)).map (Node.countDown k) =
        x.nodes.map (Node.countDown (k + 1 : ℕ)) := by
      rw [List.map_map]
      refine List.map_congr_left fun node _ => ?_
      rw [Function.comp_apply, countDown_countDown, Nat.cast_succ, add_comm]
    have hidle : x.idle + 1 + k = x.idle + (k + 1 : ℕ) := by omega
    rw [slots, hslot]
    refine hrest.trans ?_
    simp only [htwo, hidle]

/-- **Slots of a packet** that is on the channel. -/
theorem slots_sending (hleft : x.left = some n) (hk : k ≤ n) :
    slots L k x = .ok { x with left := some (n - k), sending := x.sending + k } := by
  induction k generalizing x n with
  | zero =>
    rw [Nat.sub_zero, ← hleft, Nat.cast_zero, add_zero]
    rfl
  | succ k ih =>
    obtain ⟨m, rfl⟩ : ∃ m, n = m + 1 := ⟨n - 1, by omega⟩
    have hslot : slot L x = .ok { x with left := some m, sending := x.sending + 1 } := by
      simp only [slot, hleft]
    have hrest := ih (x := { x with left := some m, sending := x.sending + 1 }) rfl
      (Nat.le_of_succ_le_succ hk)
    have hsending : x.sending + 1 + k = x.sending + (k + 1 : ℕ) := by omega
    rw [slots, hslot]
    refine hrest.trans ?_
    simp only [hsending, Nat.add_sub_add_right]

end Slots

/-! ## An iteration, slot by slot -/

/-- The channel after `k` slots of the activity that is pending in `s`. -/
structure Tracks (s : Run) (k : ℕ) (x : Slotted) : Prop where
  draws : x.draws = s.draws
  coll : x.coll = s.csma.collTime
  ids : InOrderOfIds x.nodes
  channel : (s.occupiedFlag = true ∧ x.left = some (s.csma.packetLen.toNat - k) ∧
      x.nodes ~ s.csma.nodes ∧ timeouts s.csma.nodes = 1 ∧
      x.sending = s.csma.sendingTime + k ∧ x.idle = s.csma.idleTime) ∨
    (s.occupiedFlag = false ∧ x.left = none ∧
      x.nodes ~ s.csma.nodes.map (Node.countDown k) ∧
      x.sending = s.csma.sendingTime ∧ x.idle = s.csma.idleTime + k)

section Iteration

variable {s s' : Run} {x : Slotted} {b : Branch}

theorem sentPacket_id {node node' : Node} {draws draws' : Draws}
    (h : node.sentPacket draws = .ok (node', draws')) : node'.id = node.id := by
  obtain ⟨r, d, -, -, -, -, rfl⟩ := randBackOff_spec h
  rfl

theorem collide_id {node node' : Node} {draws draws' : Draws}
    (h : node.collide draws = .ok (node', draws')) : node'.id = node.id := by
  obtain ⟨r, d, -, -, -, -, rfl⟩ := randBackOff_spec h
  rfl

/-- One node that has timed out is the root. -/
theorem timedOut_eq_root {root : Node} {rest : List Node} (h : NodesOk (root :: rest))
    (hone : timeouts (root :: rest) = 1) :
    timedOut (root :: rest) = [root] ∧ waiting (root :: rest) ~ rest := by
  have hroot : root.countDownVal = 0 := by
    by_contra hne
    have hnone : timeouts (root :: rest) = 0 := by
      refine List.countP_eq_zero.mpr fun n hn => ?_
      have hle := h.root_le hn
      have hpos := h.nonneg root List.mem_cons_self
      simp only [decide_eq_true_eq]
      omega
    omega
  rw [timeouts_cons, if_pos hroot] at hone
  have hnil : timedOut rest = [] :=
    List.eq_nil_of_length_eq_zero ((length_timedOut rest).trans (by omega))
  have hall := waiting_append_timedOut rest
  rw [hnil, List.append_nil] at hall
  rw [timedOut_cons_of_eq hroot, waiting_cons_of_eq hroot, hnil]
  exact ⟨rfl, hall⟩

/-- **What is pending is booked** at the start of a slot. -/
theorem tracks_settle (hhead : HeadOk s) (hL : 0 ≤ s.csma.packetLen)
    (h : Tracks s s.pending.toNat x) (hs : settle s = .ok s') :
    ∃ y, slot s.csma.packetLen x = slot s.csma.packetLen y ∧ y.left = none ∧ Tracks s' 0 y := by
  obtain ⟨s₁, node₁, hbook, -, rfl⟩ := settle_cases hs
  obtain ⟨hdraws, hcoll, hids, hchannel⟩ := h
  rcases book_cases hbook with ⟨hocc, root, node, draws, nodes, hroot, hsent, hnodes, rfl⟩ |
    ⟨hocc, hidle, rfl⟩ | ⟨hocc, hidle, rfl⟩
  · obtain ⟨-, hleft, hperm, hone, hsending, hidle⟩ | ⟨hfree, -⟩ := hchannel
    · obtain ⟨rest, hrest⟩ := minCandidate_ok hroot
      have hok := hhead.nodes
      rw [hrest] at hok hnodes hperm hone
      obtain ⟨hroots, hwait⟩ := timedOut_eq_root hok hone
      have hone' : timedOut x.nodes = [root] := by
        have hp := timedOut_perm hperm
        rw [hroots] at hp
        exact hp.eq_singleton
      have hmap : mapDraws Node.sentPacket (timedOut x.nodes) x.draws = .ok ([node], draws) := by
        rw [hone', hdraws, mapDraws_cons, hsent]
        rfl
      obtain ⟨l, hpass, hl, hidsl⟩ := pass_of_timedOut sentPacket_id hmap
      have hpend : s.pending = s.csma.packetLen := if_pos hocc
      rw [hpend, Nat.sub_self] at hleft
      rw [hpend] at hsending
      refine ⟨{ x with nodes := l, left := none, draws := draws }, ?_, rfl, rfl, hcoll, ?_,
        Or.inr ⟨rfl, rfl, ?_, ?_, ?_⟩⟩
      · simp only [slot, hleft, hpass]
        rfl
      · rw [InOrderOfIds, hidsl]
        exact hids
      · simp only [Nat.cast_zero, map_countDown_zero]
        calc l ~ waiting x.nodes ++ [node] := hl
          _ ~ rest ++ [node] := ((waiting_perm hperm).trans hwait).append_right _
          _ ~ node :: rest := List.perm_append_singleton node rest
          _ ~ nodes := (replaceRoot_spec (hok.set_root root).1 hnodes).2.symm
      · simp only
        omega
      · simp only [Nat.cast_zero, add_zero]
        exact hidle
    · exact absurd hocc (by simp [hfree])
  · obtain ⟨hbusy, -⟩ | ⟨-, hleft, hperm, hsending, hidle'⟩ := hchannel
    · exact absurd hocc (by simp [hbusy])
    · have hpend : s.pending = s.nextIdleTime := by
        rw [Run.pending_free hocc, max_eq_left hidle.le]
      have hcast : ((s.nextIdleTime.toNat : ℕ) : ℤ) = s.nextIdleTime := Int.toNat_of_nonneg hidle.le
      rw [hpend, hcast] at hperm hidle'
      refine ⟨x, rfl, hleft, hdraws, hcoll, hids, Or.inr ⟨hocc, hleft, ?_, hsending, ?_⟩⟩
      · simp only [Nat.cast_zero, map_countDown_zero]
        exact hperm
      · simp only [Nat.cast_zero, add_zero]
        exact hidle'
  · obtain ⟨hbusy, -⟩ | ⟨-, hleft, hperm, hsending, hidle'⟩ := hchannel
    · exact absurd hocc (by simp [hbusy])
    · have hpend : s₁.pending = 0 := by
        rw [Run.pending_free hocc, max_eq_right hidle]
      rw [hpend, Int.toNat_zero] at hperm hidle'
      exact ⟨x, rfl, hleft, hdraws, hcoll, hids, Or.inr ⟨hocc, hleft, hperm, hsending, hidle'⟩⟩

/-- **A collision** is a slot of its own. -/
theorem tracks_collision (h : Settled s) (htwo : 2 ≤ timeouts s.csma.nodes)
    (hleft : x.left = none) (hx : Tracks s 0 x) (ha : act s .collision = .ok s') :
    ∃ y, slot s.csma.packetLen x = .ok y ∧ Tracks s' 0 y := by
  obtain ⟨hdraws, hcoll, hids, ⟨hbusy, -⟩ | ⟨hfree, -, hperm, hsending, hidle'⟩⟩ := hx
  · exact absurd h.free (by simp [hbusy])
  rw [Nat.cast_zero, map_countDown_zero] at hperm
  rcases act_cases ha with ⟨hf, -⟩ | ⟨-, nodes, again, draws, hloop, rfl⟩ | ⟨hf, -⟩
  · exact absurd hf (by decide)
  · obtain ⟨z', hmap, hp⟩ := collideLoop_inOrder _ _ _ (timedOut x.nodes) _ h.nodes
      (timedOut_perm hperm) hids.filter hloop
    obtain ⟨l, hpass, hl, hidsl⟩ := pass_of_timedOut collide_id hmap
    have hslot : slot s.csma.packetLen x =
        .ok { x with nodes := l, draws := draws, coll := x.coll + 1 } := by
      obtain ⟨n, hn⟩ : ∃ n, timeouts x.nodes = n + 2 :=
        ⟨timeouts x.nodes - 2, by rw [timeouts_perm hperm]; omega⟩
      simp only [slot, hleft, contend, hn, hdraws, hpass]
      rfl
    refine ⟨_, hslot, rfl, congrArg (· + 1) hcoll, ?_, Or.inr ⟨hfree, hleft, ?_, hsending, hidle'⟩⟩
    · rw [InOrderOfIds, hidsl]
      exact hids
    · simp only [Nat.cast_zero, map_countDown_zero]
      rw [List.append_nil] at hp
      calc l ~ waiting x.nodes ++ z' := hl
        _ ~ waiting s.csma.nodes ++ z' := (waiting_perm hperm).append_right _
        _ ~ nodes ++ again := hp.symm
        _ ~ again.foldl (heappush Node.key) nodes := (foldl_heappush_perm again nodes).symm
  · exact absurd hf (by decide)

/-- **The activity that starts**, up to any of its slots. -/
theorem tracks_act (h : Settled s) (h3 : 3 ≤ s.csma.numNodes) (hL : 1 ≤ s.csma.packetLen)
    (hleft : x.left = none) (hx : Tracks s 0 x) (hb : branch s = .ok b) (ha : act s b = .ok s')
    {k : ℕ} (hk : 1 ≤ k) (hle : s.time + k ≤ s'.time) :
    ∃ y j, slots s.csma.packetLen k x = .ok y ∧ Tracks s' j y ∧
      (j : ℤ) = s'.pending - (s'.time - (s.time + k)) := by
  obtain ⟨b', hb', hcoll, htrans, -⟩ := branch_exact h h3
  obtain rfl := Except.ok.inj (hb.symm.trans hb')
  have hidle := branch_idle hb
  obtain ⟨root, rest, hnodes, hroot⟩ := h.root
  rcases act_cases ha with ⟨rfl, rfl⟩ | ⟨rfl, nodes, again, draws, hloop, rfl⟩ | ⟨rfl, rfl⟩
  · obtain ⟨hdraws, hc, hids, ⟨hbusy, -⟩ | ⟨hfree, -, hperm, hsending, hidle'⟩⟩ := hx
    · exact absurd h.free (by simp [hbusy])
    rw [Nat.cast_zero, map_countDown_zero] at hperm
    rw [Nat.cast_zero, add_zero] at hidle'
    have hpos := hidle.mp rfl
    have hmin : ∀ n ∈ x.nodes, (k : ℤ) ≤ n.countDownVal := fun n hn => by
      have hok := h.nodes
      rw [hperm.mem_iff, hnodes] at hn
      rw [hnodes] at hok
      have := hok.root_le hn
      simp only at hle
      omega
    refine ⟨_, k, slots_idle hleft hmin, ⟨hdraws, hc, ?_, Or.inr ⟨hfree, hleft, hperm.map _,
      hsending, ?_⟩⟩, ?_⟩
    · have hsame : (x.nodes.map (Node.countDown k)).map Node.id = x.nodes.map Node.id := by
        rw [List.map_map]
        rfl
      rw [InOrderOfIds, hsame]
      exact hids
    · simp only [hidle']
    · simp only [h.free, Run.pending_free, max_eq_left hpos.le]
      omega
  · have hnot : s.nextIdleTime ≤ 0 := not_lt.mp fun hpos => Branch.noConfusion (hidle.mpr hpos)
    obtain ⟨y, hslot, hy⟩ := tracks_collision h (hcoll.mp rfl) hleft hx ha
    have hone : k = 1 := by
      simp only at hle
      omega
    subst hone
    refine ⟨y, 0, ?_, hy, ?_⟩
    · rw [slots, hslot]
      rfl
    · simp only [h.free, Run.pending_free, max_eq_right hnot]
      omega
  · obtain ⟨hdraws, hc, hids, ⟨hbusy, -⟩ | ⟨-, -, hperm, hsending, hidle'⟩⟩ := hx
    · exact absurd h.free (by simp [hbusy])
    rw [Nat.cast_zero, map_countDown_zero] at hperm
    rw [Nat.cast_zero, add_zero] at hidle'
    have hone := htrans.mp rfl
    simp only at hle
    obtain ⟨j, rfl⟩ := Nat.exists_eq_add_of_le' hk
    have hfirst : slot s.csma.packetLen x = .ok { x with
        left := some (s.csma.packetLen - 1).toNat, sending := x.sending + 1 } := by
      have hone' : timeouts x.nodes = 1 := (timeouts_perm hperm).trans hone
      simp only [slot, hleft, contend, hone']
    have hrun : slots s.csma.packetLen (j + 1) x = .ok { x with
        left := some ((s.csma.packetLen - 1).toNat - j), sending := x.sending + 1 + j } := by
      rw [slots, hfirst]
      exact slots_sending rfl (by omega)
    refine ⟨_, j + 1, hrun, ⟨hdraws, hc, hids, Or.inl ⟨rfl, ?_, hperm, hone, ?_, hidle'⟩⟩, ?_⟩
    · simp only [Option.some.injEq]
      omega
    · simp only [hsending]
      omega
    · simp only [Run.pending_occupied]
      omega

/-- **An iteration of `simulate`**, slot by slot. -/
theorem tracks_iteration (hhead : HeadOk s) (h3 : 3 ≤ s.csma.numNodes) (hL : 1 ≤ s.csma.packetLen)
    (h : Tracks s s.pending.toNat x) (hs : iteration s = .ok s') {k : ℕ} (hk : 1 ≤ k)
    (hle : s.time + k ≤ s'.time) :
    ∃ y j, slots s.csma.packetLen k x = .ok y ∧ Tracks s' j y ∧
      (j : ℤ) = s'.pending - (s'.time - (s.time + k)) := by
  obtain ⟨s₁, b, hsettle, hb, hact⟩ := iteration_cases hs
  obtain ⟨y, hslot, hleft, hy⟩ := tracks_settle hhead (by omega) h hsettle
  obtain ⟨hset, hN⟩ := nodesOk_settle hhead hsettle
  have htime := settle_time hsettle
  have hlen : s₁.csma.packetLen = s.csma.packetLen := by
    obtain ⟨s₂, node, hbook, -, rfl⟩ := settle_cases hsettle
    exact (book_frame hbook).1
  rw [← hlen] at hL hslot ⊢
  rw [← htime] at hle ⊢
  obtain ⟨z, j, hz, htracks, hj⟩ := tracks_act hset (hN ▸ h3) hL hleft hy hb hact hk hle
  refine ⟨z, j, ?_, htracks, hj⟩
  obtain ⟨n, rfl⟩ := Nat.exists_eq_add_of_le' hk
  rw [slots, hslot]
  exact hz

end Iteration

/-! ## A whole run -/

/-- What is counted of a node. -/
def Node.counts (node : Node) : ℤ × ℕ × ℕ × ℕ :=
  (node.id, node.rId, node.numColls, node.numTrans)

/-- The numbers of a model are those of a channel. -/
structure SameNumbers (c : CSMA) (x : Slotted) : Prop where
  sending : c.sendingTime = x.sending
  idle : c.idleTime = x.idle
  coll : c.collTime = x.coll
  nodes : c.nodes.map Node.counts ~ x.nodes.map Node.counts

section Loop

variable {s s' : Run} {x : Slotted} {fuel j : ℕ} {T : ℤ}

/-- **The end of the loop**, within an activity or at its end. -/
theorem tracks_finish (h : Tracks s j x) (hT : s.csma.tolTime ≤ s.time)
    (hj : (j : ℤ) = s.pending - (s.time - s.csma.tolTime)) : SameNumbers (finish s) x := by
  obtain ⟨-, hcoll, -, hchannel⟩ := h
  have hnodes : ∀ t : ℤ, (s.csma.nodes.map (Node.countDown t)).map Node.counts =
      s.csma.nodes.map Node.counts := fun t => by
    rw [List.map_map]
    rfl
  unfold Run.pending at hj
  unfold finish
  rcases hchannel with ⟨hocc, -, hperm, -, hsending, hidle⟩ | ⟨hfree, -, hperm, hsending, hidle⟩
  · rw [if_pos hocc] at hj ⊢
    exact ⟨by simp only; omega, hidle.symm, hcoll.symm, (hperm.map _).symm⟩
  · have hcounts := hperm.map Node.counts
    rw [hnodes] at hcounts
    rw [hfree, if_neg (by simp)] at hj ⊢
    split_ifs with hpos
    · rw [max_eq_left hpos.le] at hj
      exact ⟨hsending.symm, by simp only; omega, hcoll.symm, hcounts.symm⟩
    · rw [max_eq_right (not_lt.mp hpos)] at hj
      exact ⟨hsending.symm, by omega, hcoll.symm, hcounts.symm⟩

/-- **The loop of `simulate`**, slot by slot. -/
theorem tracks_simulateLoop (hhead : HeadOk s) (h3 : 3 ≤ s.csma.numNodes)
    (hL : 1 ≤ s.csma.packetLen) (hT : s.csma.tolTime = T) (htime : s.time ≤ T)
    (h : Tracks s s.pending.toNat x) (hpend : 0 ≤ s.pending)
    (hs : simulateLoop fuel s = .ok s') :
    ∃ y, slots s.csma.packetLen (T - s.time).toNat x = .ok y ∧ y.draws = s'.draws ∧
      SameNumbers (finish s') y := by
  induction fuel using Nat.strongRecOn generalizing s x with
  | ind fuel ih =>
    rcases simulateLoop_cases hs with ⟨hle, rfl⟩ | ⟨hlt, fuel', s₁, rfl, hit, hs⟩
    · have hzero : (T - s'.time).toNat = 0 := by omega
      rw [hzero]
      exact ⟨x, rfl, h.draws, tracks_finish h hle (by omega)⟩
    · obtain ⟨hlen, hT₁, hN⟩ := iteration_frame hit
      obtain ⟨hhead₁, -⟩ := headOk_iteration hhead hit
      have hstep := iteration_time hL hit
      rcases le_or_gt s₁.time T with hmore | hlast
      · -- the activity is over before the end
        obtain ⟨y, j, hy, htracks, hj⟩ := tracks_iteration hhead h3 hL h hit
          (k := (s₁.time - s.time).toNat) (by omega) (by omega)
        have hj' : s₁.pending.toNat = j := by omega
        obtain ⟨z, hz, hdraws, hsame⟩ := ih fuel' (Nat.lt_succ_self fuel') hhead₁ (by omega)
          (by omega) (by omega) hmore (hj' ▸ htracks) (by omega) hs
        have hsum : (T - s.time).toNat = (s₁.time - s.time).toNat + (T - s₁.time).toNat := by
          omega
        refine ⟨z, ?_, hdraws, hsame⟩
        rw [hsum, slots_add, hy, ← hlen]
        exact hz
      · -- it is cut off
        obtain ⟨y, j, hy, htracks, hj⟩ := tracks_iteration hhead h3 hL h hit
          (k := (T - s.time).toNat) (by omega) (by omega)
        rcases simulateLoop_cases hs with ⟨hle, rfl⟩ | ⟨hlt', -⟩
        · exact ⟨y, hy, htracks.draws, tracks_finish htracks hle (by omega)⟩
        · omega

end Loop

section Configurations

variable {config : Config} {draws draws' : Draws} {c : CSMA} {fuel : ℕ}

theorem inOrderOfIds_new {nodes : List Node}
    (h : mapDraws (Node.new config.R config.M) (range 0 config.N) draws = .ok (nodes, draws')) :
    InOrderOfIds nodes := by
  have hids : nodes.map Node.id = range 0 config.N := by
    have hall := mapDraws_forall₂ (P := fun i node => node.id = i)
      (fun i d node d' hnode => by
        obtain ⟨r, v, -, -, -, -, rfl⟩ := randBackOff_spec hnode
        rfl) _ _ _ _ h
    have hmap := map_eq_of_forall₂ (f := id) (g := Node.id) hall
    rwa [List.map_id] at hmap
  rw [InOrderOfIds, hids, range, List.pairwise_map]
  refine List.pairwise_lt_range.imp ?_
  omega

/-- The slots of a constructed model that is simulated. -/
theorem slots_of_simulate (h : constructAndSimulate fuel config draws = .ok (c, draws'))
    (hN : 3 ≤ config.N) (hL : 1 ≤ config.L) (hT : 0 ≤ config.T) :
    ∃ nodes draws₁ x,
      mapDraws (Node.new config.R config.M) (range 0 config.N) draws = .ok (nodes, draws₁) ∧
      slots config.L config.T.toNat ⟨nodes, none, draws₁, 0, 0, 0⟩ = .ok x ∧
      x.draws = draws' ∧ SameNumbers c x := by
  obtain ⟨⟨c₀, draws₁⟩, hcon, h⟩ := bind_ok.mp h
  obtain ⟨⟨c₁, draws₂⟩, hprep, h⟩ := bind_ok.mp h
  obtain ⟨rfl, rfl⟩ := Prod.mk.inj (Except.ok.inj hprep)
  obtain ⟨s, hloop, h⟩ := bind_ok.mp h
  obtain ⟨rfl, rfl⟩ := Prod.mk.inj (Except.ok.inj h)
  have hok := modelOk_construct hN hcon
  obtain ⟨⟨nodes, draws₃⟩, hnodes, hcon⟩ := bind_ok.mp hcon
  obtain ⟨rfl, rfl⟩ := Prod.mk.inj (Except.ok.inj hcon)
  have hids := inOrderOfIds_new hnodes
  have hperm : heapify Node.key nodes ~ nodes := heapify_perm nodes
  have hstart : Tracks (Run.start ⟨config.N, config.L, config.R, config.M, config.T,
      heapify Node.key nodes, 0, 0, 0⟩ draws₃) 0 ⟨nodes, none, draws₃, 0, 0, 0⟩ := by
    refine ⟨rfl, rfl, hids, Or.inr ⟨rfl, rfl, ?_, rfl, rfl⟩⟩
    rw [Nat.cast_zero, map_countDown_zero]
    exact hperm.symm
  obtain ⟨y, hy, hdraws, hsame⟩ := tracks_simulateLoop (headOk_start hok) hN hL rfl hT hstart
    le_rfl hloop
  simp only [Run.start_csma, Run.start_time, sub_zero] at hy
  exact ⟨nodes, draws₃, y, hnodes, hy, hdraws, hsame⟩

/-- **`simulate` is the channel slot by slot**: where a constructed model is simulated and
`simulate` returns, the slots up to `T` come to the same times, the same counts of every node, and
the same draws. -/
theorem simulate_slotted (hN : 3 ≤ config.N) (hL : 1 ≤ config.L) (hT : 0 ≤ config.T)
    (h : constructAndSimulate fuel config draws = .ok (c, draws')) :
    ∃ x, slotted config draws = .ok x ∧ x.draws = draws' ∧ SameNumbers c x := by
  obtain ⟨nodes, draws₁, x, hnodes, hslots, hdraws, hsame⟩ := slots_of_simulate h hN hL hT
  exact ⟨x, bind_ok.mpr ⟨_, hnodes, hslots⟩, hdraws, hsame⟩

end Configurations

/-- Three nodes, two of which collide in the first slot. The first of these draws `0` again, and
sends in the two slots that are left. -/
theorem simulate_slotted_collision : ∃ c x,
    constructAndSimulate 3 ⟨3, 2, [3], 0, 3⟩ [0, 0, 3, 0, 3] = .ok (c, []) ∧
      slotted ⟨3, 2, [3], 0, 3⟩ [0, 0, 3, 0, 3] = .ok x ∧ SameNumbers c x ∧
      c.collTime = 1 ∧ x.sending = 2 := by
  have hrun : constructAndSimulate 3 ⟨3, 2, [3], 0, 3⟩ [0, 0, 3, 0, 3] = .ok (_, []) := rfl
  obtain ⟨x, hx, -, hsame⟩ := simulate_slotted (by decide) (by decide) (by decide) hrun
  exact ⟨_, x, hrun, hx, hsame, rfl, hsame.sending.symm⟩

end NetworkingLearning.Csma
