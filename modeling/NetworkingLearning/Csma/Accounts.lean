import NetworkingLearning.Csma.Counts
import NetworkingLearning.Csma.Residue
import NetworkingLearning.Csma.Slotted

/-!
# Accounts of a run (`csma.py:36-51`, `csma.py:98-155`)

What the numbers of a model have to do with each other, with the draws, and with those of a longer
run. It is read off the channel slot by slot, and holds of `simulate` because that comes to the same
numbers (`slots_of_simulate`). Each account is an invariant of a slot.

* `Kept` are the accounts of a channel: its draws, and its collisions.
* `Node.Staged` says that the stage of a node is that of its collisions. `permuteR` goes round, so
  the stage is a residue.
* `Later` compares a channel with itself some slots on.

Results:
* `slot_cases`: what a slot can do.
* `kept_slots`: the accounts, over a number of slots.
* `draws_accounted`: every draw is for a node that is new, has collided, or has sent; and in a slot
  with a collision two nodes or more collide, none of them twice.
* `stages_exact`: the stage of a node is the number of its collisions, modulo that of the stages.
* `simulate_longer`: a longer run takes nothing back.
-/

namespace NetworkingLearning.Csma

open NetworkingLearning.Heaps NetworkingLearning.Machine
open scoped List

/-! ## What a slot can do -/

section Pass

variable {nodes nodes' : List Node} {node node' : Node} {draws draws' : Draws}
  {f : Node → Draws → Except Error (Node × Draws)} {P : Node → Node → Prop}

/-- The draws that are taken on one entry after another. -/
theorem mapDraws_taken {β : Type} {f : β → Draws → Except Error (Node × Draws)} {g : β → ℕ}
    (hf : ∀ {x n d d'}, f x d = .ok (n, d') → ∃ taken, taken.length = g x ∧ d = taken ++ d')
    {xs : List β} (h : mapDraws f xs draws = .ok (nodes', draws')) :
    ∃ taken, taken.length = (xs.map g).sum ∧ draws = taken ++ draws' := by
  induction xs generalizing draws nodes' with
  | nil =>
    obtain ⟨rfl, rfl⟩ := Prod.mk.inj (Except.ok.inj h)
    exact ⟨[], rfl, rfl⟩
  | cons x xs ih =>
    rw [mapDraws_cons] at h
    obtain ⟨⟨n, draws₁⟩, hn, h⟩ := bind_ok.mp h
    obtain ⟨⟨rest, draws₂⟩, hrest, h⟩ := bind_ok.mp h
    obtain ⟨rfl, rfl⟩ := Prod.mk.inj (Except.ok.inj h)
    obtain ⟨first, hfirst, rfl⟩ := hf hn
    obtain ⟨taken, hlen, rfl⟩ := ih hrest
    refine ⟨first ++ taken, ?_, (List.append_assoc first taken draws₂).symm⟩
    rw [List.length_append, hfirst, hlen, List.map_cons, List.sum_cons]

theorem sum_timeouts (nodes : List Node) :
    (nodes.map fun n => if n.countDownVal = 0 then 1 else 0).sum = timeouts nodes := by
  induction nodes with
  | nil => rfl
  | cons n nodes ih => rw [List.map_cons, List.sum_cons, ih, timeouts_cons, Nat.add_comm]

/-- **A pass** takes a draw for each node that has timed out, and leaves the others. -/
theorem pass_spec (hf : ∀ {n n' : Node} {d d' : Draws}, f n d = .ok (n', d') →
      (∃ v, d = v :: d') ∧ P n n') (h : pass f nodes draws = .ok (nodes', draws')) :
    (∃ taken, taken.length = timeouts nodes ∧ draws = taken ++ draws') ∧
      List.Forall₂ (fun n n' => (n.countDownVal = 0 ∧ P n n') ∨ (n.countDownVal ≠ 0 ∧ n' = n))
        nodes nodes' := by
  constructor
  · rw [← sum_timeouts]
    refine mapDraws_taken (fun {n _ _ _} hn => ?_) h
    split_ifs at hn ⊢
    · obtain ⟨⟨v, rfl⟩, -⟩ := hf hn
      exact ⟨[v], rfl, rfl⟩
    · obtain ⟨rfl, rfl⟩ := Prod.mk.inj (Except.ok.inj hn)
      exact ⟨[], rfl, rfl⟩
  · refine mapDraws_forall₂ (fun n _ _ _ hn => ?_) _ _ _ _ h
    split_ifs at hn with h0
    · exact Or.inl ⟨h0, (hf hn).2⟩
    · exact Or.inr ⟨h0, (Prod.mk.inj (Except.ok.inj hn)).1.symm⟩

/-- What the start of a slot makes of a node that has sent. -/
def HasSent (node node' : Node) : Prop :=
  (node.countDownVal = 0 ∧
    ∃ d, node' = { node with numTrans := node.numTrans + 1, countDownVal := d }) ∨
  (node.countDownVal ≠ 0 ∧ node' = node)

theorem pass_collide (h : pass Node.collide nodes draws = .ok (nodes', draws')) :
    (∃ taken, taken.length = timeouts nodes ∧ draws = taken ++ draws') ∧
      List.Forall₂ Handled nodes nodes' := by
  have hcollide : ∀ {n n' : Node} {d d' : Draws}, n.collide d = .ok (n', d') →
      (∃ v, d = v :: d') ∧ Collided n n' := fun hn => by
    obtain ⟨r, v, -, -, -, hd, -⟩ := randBackOff_spec hn
    exact ⟨⟨v, hd⟩, collide_spec hn⟩
  exact pass_spec (f := Node.collide) hcollide h

theorem pass_sentPacket (h : pass Node.sentPacket nodes draws = .ok (nodes', draws')) :
    (∃ taken, taken.length = timeouts nodes ∧ draws = taken ++ draws') ∧
      List.Forall₂ HasSent nodes nodes' := by
  have hsent : ∀ {n n' : Node} {d d' : Draws}, n.sentPacket d = .ok (n', d') →
      (∃ v, d = v :: d') ∧
        ∃ v, n' = { n with numTrans := n.numTrans + 1, countDownVal := v } := fun hn => by
    obtain ⟨r, v, -, -, -, hd, hnode⟩ := randBackOff_spec hn
    exact ⟨⟨v, hd⟩, v, hnode⟩
  exact pass_spec (f := Node.sentPacket) hsent h

/-- The nodes that have sent are counted once more, and no collision is. -/
theorem hasSent_counts (h : List.Forall₂ HasSent nodes nodes') :
    totalTrans nodes' = totalTrans nodes + timeouts nodes ∧
      (nodes'.map Node.numColls).sum = (nodes.map Node.numColls).sum := by
  induction h with
  | nil => exact ⟨rfl, rfl⟩
  | cons hn _ ih =>
    rw [totalTrans_cons, totalTrans_cons, timeouts_cons, ih.1, List.map_cons, List.map_cons,
      List.sum_cons, List.sum_cons, ih.2]
    rcases hn with ⟨h0, d, rfl⟩ | ⟨hne, rfl⟩
    · rw [if_pos h0]
      exact ⟨by simp only; omega, rfl⟩
    · rw [if_neg hne]
      exact ⟨by omega, rfl⟩

end Pass

section Cases

variable {L : ℤ} {x y : Slotted} {k : ℕ}

/-- A slot that no packet takes. -/
theorem contend_cases (h : contend L x = .ok y) :
    (timeouts x.nodes = 0 ∧
      y = { x with nodes := x.nodes.map (Node.countDown 1), idle := x.idle + 1 }) ∨
    (timeouts x.nodes = 1 ∧
      y = { x with left := some (L - 1).toNat, sending := x.sending + 1 }) ∨
    (2 ≤ timeouts x.nodes ∧ ∃ nodes draws taken, taken.length = timeouts x.nodes ∧
      x.draws = taken ++ draws ∧ List.Forall₂ Handled x.nodes nodes ∧
      y = { x with nodes := nodes, draws := draws, coll := x.coll + 1 }) := by
  unfold contend at h
  split at h
  · exact Or.inl ⟨‹_›, (Except.ok.inj h).symm⟩
  · exact Or.inr (Or.inl ⟨‹_›, (Except.ok.inj h).symm⟩)
  · rename_i hzero hone
    obtain ⟨⟨nodes, draws⟩, hpass, h⟩ := bind_ok.mp h
    obtain ⟨⟨taken, hlen, hdraws⟩, hall⟩ := pass_collide hpass
    exact Or.inr (Or.inr ⟨(Nat.two_le_iff _).mpr ⟨hzero, hone⟩, nodes, draws, taken, hlen, hdraws,
      hall, (Except.ok.inj h).symm⟩)

/-- **What a slot can do**: the packet on the channel goes on, or the nodes contend, once the one
that has sent is done. -/
theorem slot_cases (h : slot L x = .ok y) :
    (∃ n, x.left = some (n + 1) ∧ y = { x with left := some n, sending := x.sending + 1 }) ∨
    (∃ nodes draws taken, taken.length = timeouts x.nodes ∧ x.draws = taken ++ draws ∧
      List.Forall₂ HasSent x.nodes nodes ∧
      contend L { x with nodes := nodes, left := none, draws := draws } = .ok y) ∨
    contend L x = .ok y := by
  unfold slot at h
  split at h
  · exact Or.inl ⟨_, ‹_›, (Except.ok.inj h).symm⟩
  · obtain ⟨⟨nodes, draws⟩, hpass, h⟩ := bind_ok.mp h
    obtain ⟨⟨taken, hlen, hdraws⟩, hall⟩ := pass_sentPacket hpass
    exact Or.inr (Or.inl ⟨nodes, draws, taken, hlen, hdraws, hall, h⟩)
  · exact Or.inr (Or.inr h)

/-- What every slot preserves holds after any number of them. -/
theorem slots_invariant {I : Slotted → Prop}
    (hstep : ∀ {x y : Slotted}, I x → slot L x = .ok y → I y) (hx : I x)
    (h : slots L k x = .ok y) : I y := by
  induction k generalizing x with
  | zero =>
    obtain rfl := Except.ok.inj h
    exact hx
  | succ k ih =>
    obtain ⟨x₁, hslot, h⟩ := bind_ok.mp h
    exact ih (hstep hx hslot) h

end Cases

/-! ## The accounts -/

/-- The accounts of a channel with `N` nodes, for which there were `d` draws. -/
structure Kept (N d : ℕ) (x : Slotted) : Prop where
  length : x.nodes.length = N
  draws : d = x.draws.length + (x.nodes.map Node.numColls).sum + totalTrans x.nodes
  least : 2 * x.coll ≤ ((x.nodes.map Node.numColls).sum : ℕ)
  most : ((x.nodes.map Node.numColls).sum : ℕ) ≤ N * x.coll

/-- A node whose stage is that of its collisions. -/
structure Node.Staged (M : ℤ) (node : Node) : Prop where
  ceil : node.collCeil = M
  stage : (node.rId : ℤ) = node.numColls % (M + 1)

section Slots

variable {M L : ℤ} {N d k : ℕ} {x y : Slotted} {node node' : Node} {nodes nodes' : List Node}

theorem kept_contend (h : Kept N d x) (hs : contend L x = .ok y) : Kept N d y := by
  obtain ⟨hlength, hdraws, hleast, hmost⟩ := h
  rcases contend_cases hs with ⟨-, rfl⟩ | ⟨-, rfl⟩ |
    ⟨htwo, nodes, draws, taken, hlen, htaken, hall, rfl⟩
  · have hcolls : (x.nodes.map (Node.countDown 1)).map Node.numColls =
        x.nodes.map Node.numColls := by
      rw [List.map_map]
      rfl
    have htrans : totalTrans (x.nodes.map (Node.countDown 1)) = totalTrans x.nodes := by
      rw [totalTrans, List.map_map]
      rfl
    exact ⟨(List.length_map _).trans hlength, by simp only [hcolls, htrans, hdraws],
      by simpa only [hcolls] using hleast, by simpa only [hcolls] using hmost⟩
  · exact ⟨hlength, hdraws, hleast, hmost⟩
  · have hcolls := handled_numColls hall
    have htrans := totalTrans_handled hall
    have hle : timeouts x.nodes ≤ N := hlength ▸ List.countP_le_length
    rw [htaken, List.length_append, hlen] at hdraws
    refine ⟨hall.length_eq.symm.trans hlength, ?_, ?_, ?_⟩
    · simp only [hcolls, htrans]
      omega
    · simp only [hcolls, Nat.cast_add]
      omega
    · simp only [hcolls, Nat.cast_add]
      rw [mul_add, mul_one]
      omega

/-- **A slot** keeps the accounts. -/
theorem kept_slot (h : Kept N d x) (hs : slot L x = .ok y) : Kept N d y := by
  rcases slot_cases hs with ⟨n, -, rfl⟩ |
    ⟨nodes, draws, taken, hlen, htaken, hall, hs⟩ | hs
  · exact ⟨h.length, h.draws, h.least, h.most⟩
  · obtain ⟨hlength, hdraws, hleast, hmost⟩ := h
    obtain ⟨htrans, hcolls⟩ := hasSent_counts hall
    rw [htaken, List.length_append, hlen] at hdraws
    refine kept_contend ⟨hall.length_eq.symm.trans hlength, ?_, ?_, ?_⟩ hs
    · simp only [hcolls, htrans]
      omega
    · simpa only [hcolls] using hleast
    · simpa only [hcolls] using hmost
  · exact kept_contend h hs

theorem kept_slots (h : Kept N d x) (hs : slots L k x = .ok y) : Kept N d y :=
  slots_invariant kept_slot h hs

/-- **The next stage** of a node that has collided. -/
theorem Node.Staged.handled (hM : 0 ≤ M) (h : node.Staged M) (hn : Handled node node') :
    node'.Staged M := by
  rcases hn with ⟨-, r, v, -, -, -, rfl⟩ | ⟨-, rfl⟩
  · obtain ⟨hceil, hstage⟩ := h
    refine ⟨hceil, ?_⟩
    have hlt := Int.emod_lt_of_pos (node.numColls : ℤ) (show 0 < M + 1 by omega)
    have hpos := Int.emod_nonneg (node.numColls : ℤ) (show M + 1 ≠ 0 by omega)
    simp only [Node.permuteR, Nat.cast_succ, hceil]
    rw [← Int.emod_add_emod, ← hstage]
    split_ifs with hwrap
    · have hend : (node.rId : ℤ) + 1 = M + 1 := by omega
      rw [hend, Int.emod_self]
      rfl
    · rw [Int.emod_eq_of_lt (by omega) (by omega)]
      exact Nat.cast_succ _
  · exact h

theorem Node.Staged.hasSent (h : node.Staged M) (hn : HasSent node node') : node'.Staged M := by
  rcases hn with ⟨-, d, rfl⟩ | ⟨-, rfl⟩
  · exact ⟨h.ceil, h.stage⟩
  · exact h

theorem forall_of_forall₂ {P : Node → Prop} {Q : Node → Node → Prop}
    (hP : ∀ {n n' : Node}, P n → Q n n' → P n') (h : List.Forall₂ Q nodes nodes')
    (hall : ∀ n ∈ nodes, P n) : ∀ n ∈ nodes', P n := fun n' hn' => by
  obtain ⟨n, hn, hQ⟩ := exists_of_forall₂ h n' hn'
  exact hP (hall n hn) hQ

theorem staged_contend (hM : 0 ≤ M) (h : ∀ n ∈ x.nodes, n.Staged M) (hs : contend L x = .ok y) :
    ∀ n ∈ y.nodes, n.Staged M := by
  rcases contend_cases hs with ⟨-, rfl⟩ | ⟨-, rfl⟩ | ⟨-, nodes, draws, taken, -, -, hall, rfl⟩
  · intro n hn
    obtain ⟨n', hn', rfl⟩ := List.mem_map.mp hn
    exact ⟨(h n' hn').ceil, (h n' hn').stage⟩
  · exact h
  · exact forall_of_forall₂ (Node.Staged.handled hM) hall h

/-- **A slot** keeps the stages. -/
theorem staged_slot (hM : 0 ≤ M) (h : ∀ n ∈ x.nodes, n.Staged M) (hs : slot L x = .ok y) :
    ∀ n ∈ y.nodes, n.Staged M := by
  rcases slot_cases hs with ⟨n, -, rfl⟩ | ⟨nodes, draws, taken, -, -, hall, hs⟩ | hs
  · exact h
  · exact staged_contend hM (forall_of_forall₂ Node.Staged.hasSent hall h) hs
  · exact staged_contend hM h hs

end Slots

/-! ## A longer run -/

/-- A node that is counted as often, or more. -/
structure Node.Later (node node' : Node) : Prop where
  id : node'.id = node.id
  numColls : node.numColls ≤ node'.numColls
  numTrans : node.numTrans ≤ node'.numTrans

/-- A channel after more slots. -/
structure Later (x y : Slotted) : Prop where
  nodes : ∀ node ∈ x.nodes, ∃ node' ∈ y.nodes, node.Later node'
  draws : ∃ taken, x.draws = taken ++ y.draws
  sending : x.sending ≤ y.sending
  idle : x.idle ≤ y.idle
  coll : x.coll ≤ y.coll

section Later

variable {L : ℤ} {k : ℕ} {x y z : Slotted} {node node' : Node} {nodes nodes' : List Node}

theorem Node.Later.refl (node : Node) : node.Later node := ⟨rfl, le_rfl, le_rfl⟩

theorem Node.Later.trans {node'' : Node} (h : node.Later node') (h' : node'.Later node'') :
    node.Later node'' :=
  ⟨h'.id.trans h.id, h.numColls.trans h'.numColls, h.numTrans.trans h'.numTrans⟩

theorem Node.Later.of_counts {n n' : Node} (h : n.Later n') (heq : n.counts = node.counts)
    (heq' : n'.counts = node'.counts) : node.Later node' := by
  simp only [Node.counts, Prod.mk.injEq] at heq heq'
  obtain ⟨hid, hcolls, htrans⟩ := h
  exact ⟨by omega, by omega, by omega⟩

theorem Handled.later (h : Handled node node') : node.Later node' := by
  rcases h with ⟨-, r, d, -, -, -, rfl⟩ | ⟨-, rfl⟩
  · exact ⟨rfl, Nat.le_succ _, le_rfl⟩
  · exact .refl _

theorem HasSent.later (h : HasSent node node') : node.Later node' := by
  rcases h with ⟨-, d, rfl⟩ | ⟨-, rfl⟩
  · exact ⟨rfl, le_rfl, Nat.le_succ _⟩
  · exact .refl _

theorem exists_later {P : Node → Node → Prop} (h : List.Forall₂ P nodes nodes')
    (hP : ∀ {n n' : Node}, P n n' → n.Later n') :
    ∀ node ∈ nodes, ∃ node' ∈ nodes', node.Later node' := fun node hn => by
  obtain ⟨node', hn', hP'⟩ := exists_of_forall₂ h.flip node hn
  exact ⟨node', hn', hP hP'⟩

theorem Later.refl (x : Slotted) : Later x x :=
  ⟨fun n hn => ⟨n, hn, .refl n⟩, ⟨[], rfl⟩, le_rfl, le_rfl, le_rfl⟩

theorem Later.trans (h : Later x y) (h' : Later y z) : Later x z := by
  obtain ⟨taken, hx⟩ := h.draws
  obtain ⟨taken', hy⟩ := h'.draws
  refine ⟨fun n hn => ?_, ⟨taken ++ taken', by rw [hx, hy, List.append_assoc]⟩,
    h.sending.trans h'.sending, h.idle.trans h'.idle, h.coll.trans h'.coll⟩
  obtain ⟨n', hn', hlater⟩ := h.nodes n hn
  obtain ⟨n'', hn'', hlater'⟩ := h'.nodes n' hn'
  exact ⟨n'', hn'', hlater.trans hlater'⟩

theorem later_contend (hs : contend L x = .ok y) : Later x y := by
  rcases contend_cases hs with ⟨-, rfl⟩ | ⟨-, rfl⟩ |
    ⟨-, nodes, draws, taken, -, htaken, hall, rfl⟩
  · exact ⟨fun n hn => ⟨n.countDown 1, List.mem_map_of_mem hn, rfl, le_rfl, le_rfl⟩, ⟨[], rfl⟩,
      le_rfl, by simp only; omega, le_rfl⟩
  · exact ⟨fun n hn => ⟨n, hn, .refl n⟩, ⟨[], rfl⟩, by simp only; omega, le_rfl, le_rfl⟩
  · exact ⟨exists_later hall Handled.later, ⟨taken, htaken⟩, le_rfl, le_rfl,
      by simp only; omega⟩

/-- **A slot** takes nothing back. -/
theorem later_slot (hs : slot L x = .ok y) : Later x y := by
  rcases slot_cases hs with ⟨n, -, rfl⟩ | ⟨nodes, draws, taken, -, htaken, hall, hs⟩ | hs
  · exact ⟨fun n hn => ⟨n, hn, .refl n⟩, ⟨[], rfl⟩, by simp only; omega, le_rfl, le_rfl⟩
  · have hsent : Later x { x with nodes := nodes, left := none, draws := draws } :=
      ⟨exists_later hall HasSent.later, ⟨taken, htaken⟩, le_rfl, le_rfl, le_rfl⟩
    exact hsent.trans (later_contend hs)
  · exact later_contend hs

theorem later_slots (hs : slots L k x = .ok y) : Later x y :=
  slots_invariant (I := Later x) (fun h hs => h.trans (later_slot hs)) (.refl x) hs

end Later

/-! ## What holds of `simulate` -/

section Runs

variable {config : Config} {draws draws' : Draws} {c : CSMA} {x : Slotted} {fuel : ℕ}
  {node : Node} {nodes : List Node}

theorem SameNumbers.exists_counts (h : SameNumbers c x) (hn : node ∈ c.nodes) :
    ∃ n ∈ x.nodes, n.counts = node.counts :=
  List.mem_map.mp (h.nodes.mem_iff.mp (List.mem_map_of_mem hn))

theorem SameNumbers.totals (h : SameNumbers c x) :
    getTotalCollisions c = (x.nodes.map Node.numColls).sum ∧
      totalTrans c.nodes = totalTrans x.nodes := by
  have hcolls := h.nodes.map fun t => t.2.2.1
  have htrans := h.nodes.map fun t => t.2.2.2
  rw [List.map_map, List.map_map] at hcolls htrans
  exact ⟨hcolls.sum_eq, htrans.sum_eq⟩

/-- **Where the accounts begin**: one draw for each node. -/
theorem kept_new
    (h : mapDraws (Node.new config.R config.M) (range 0 config.N) draws = .ok (nodes, draws')) :
    draws.length = draws'.length + config.N.toNat ∧
      Kept config.N.toNat draws'.length ⟨nodes, none, draws', 0, 0, 0⟩ ∧
      ∀ n ∈ nodes, n.Staged config.M := by
  have hall := mapDraws_forall₂ (P := fun i n => ∃ w, n = ⟨i, config.R, 0, config.M, 0, 0, w⟩)
    (fun i _ _ _ hn => by
      obtain ⟨r, v, -, -, -, -, hnode⟩ := randBackOff_spec hn
      exact ⟨v, hnode⟩) _ _ _ _ h
  have hzero : ∀ n ∈ nodes, n.numColls = 0 ∧ n.numTrans = 0 ∧ n.Staged config.M := fun n hn => by
    obtain ⟨i, -, w, rfl⟩ := exists_of_forall₂ hall n hn
    exact ⟨rfl, rfl, rfl, by simp only [Nat.cast_zero, Int.zero_emod]⟩
  obtain ⟨taken, hlen, hdraws⟩ := mapDraws_taken (g := fun _ => 1) (fun hn => by
    obtain ⟨r, v, -, -, -, hd, -⟩ := randBackOff_spec hn
    exact ⟨[v], rfl, hd⟩) h
  have hcolls : (nodes.map Node.numColls).sum = 0 := List.sum_eq_zero fun k hk => by
    obtain ⟨n, hn, rfl⟩ := List.mem_map.mp hk
    exact (hzero n hn).1
  have hlength := hall.length_eq
  rw [range_length] at hlength
  rw [List.map_const', List.sum_replicate, range_length] at hlen
  refine ⟨?_, ⟨hlength.symm.trans (by simp), ?_, ?_, ?_⟩, fun n hn => (hzero n hn).2.2⟩
  · rw [hdraws, List.length_append, hlen]
    simp [Nat.add_comm]
  · simp only [hcolls, totalTrans_eq_zero fun n hn => (hzero n hn).2.1]
    rfl
  · simp only [hcolls]
    decide
  · simp only [hcolls]
    simp

/-- **Every draw is accounted for**: it is that of a node that is new, has collided, or has sent.
And in each slot with a collision two or more of the nodes collide, and each of them once. -/
theorem draws_accounted (hN : 3 ≤ config.N) (hL : 1 ≤ config.L) (hT : 0 ≤ config.T)
    (h : constructAndSimulate fuel config draws = .ok (c, draws')) :
    (draws.length : ℤ) =
        draws'.length + config.N + getTotalCollisions c + totalTrans c.nodes ∧
      2 * c.collTime ≤ getTotalCollisions c ∧
      getTotalCollisions c ≤ config.N * c.collTime := by
  obtain ⟨nodes, draws₁, x, hnodes, hslots, rfl, hsame⟩ := slots_of_simulate h hN hL hT
  obtain ⟨hlen, hkept, -⟩ := kept_new hnodes
  obtain ⟨-, hdraws, hleast, hmost⟩ := kept_slots hkept hslots
  obtain ⟨hcolls, htrans⟩ := hsame.totals
  have hcoll := hsame.coll
  have hcast : (config.N.toNat : ℤ) = config.N := Int.toNat_of_nonneg (by omega)
  rw [hcolls, htrans, hcoll]
  rw [hcast] at hmost
  exact ⟨by omega, hleast, hmost⟩

/-- Of five draws three are for new nodes, and two for the nodes that collide in the first slot. -/
theorem draws_accounted_collision : ∃ c,
    constructAndSimulate 3 ⟨3, 2, [3], 0, 3⟩ [0, 0, 3, 0, 3] = .ok (c, []) ∧
      (5 : ℤ) = 0 + 3 + getTotalCollisions c + totalTrans c.nodes ∧ c.collTime = 1 := by
  have hrun : constructAndSimulate 3 ⟨3, 2, [3], 0, 3⟩ [0, 0, 3, 0, 3] = .ok (_, []) := rfl
  exact ⟨_, hrun, (draws_accounted (by decide) (by decide) (by decide) hrun).1, rfl⟩

/-- **The stage of every node** is the number of its collisions, modulo that of the stages. -/
theorem stages_exact (hN : 3 ≤ config.N) (hL : 1 ≤ config.L) (hM : 0 ≤ config.M)
    (hT : 0 ≤ config.T) (h : constructAndSimulate fuel config draws = .ok (c, draws')) :
    ∀ node ∈ c.nodes, (node.rId : ℤ) = node.numColls % (config.M + 1) := by
  obtain ⟨nodes, draws₁, x, hnodes, hslots, -, hsame⟩ := slots_of_simulate h hN hL hT
  obtain ⟨-, -, hstaged⟩ := kept_new hnodes
  have hall := slots_invariant (I := fun x => ∀ n ∈ x.nodes, n.Staged config.M) (staged_slot hM)
    hstaged hslots
  intro node hnode
  obtain ⟨n, hn, hcounts⟩ := hsame.exists_counts hnode
  have hstage := (hall n hn).stage
  unfold Node.counts at hcounts
  simp only [Prod.mk.injEq] at hcounts
  obtain ⟨-, hstages, hcolls, -⟩ := hcounts
  rwa [hstages, hcolls] at hstage

/-- The two nodes that collide in the first slot are on the second of two stages. -/
theorem stages_exact_collision : ∃ c,
    constructAndSimulate 3 ⟨3, 2, [3, 3], 1, 3⟩ [0, 0, 3, 0, 3] = .ok (c, []) ∧
      getTotalCollisions c = 2 ∧ ∀ node ∈ c.nodes, (node.rId : ℤ) = node.numColls % 2 := by
  have hrun : constructAndSimulate 3 ⟨3, 2, [3, 3], 1, 3⟩ [0, 0, 3, 0, 3] = .ok (_, []) := rfl
  exact ⟨_, hrun, rfl, stages_exact (by decide) (by decide) (by decide) (by decide) hrun⟩

/-- **A longer run takes nothing back**: of two runs on the same draws that differ in `T` alone, the
one with the greater `T` has taken the same draws first, and has every time and every count of the
other at least. -/
theorem simulate_longer {T : ℤ} {fuel' : ℕ} {c' : CSMA} {draws'' : Draws} (hN : 3 ≤ config.N)
    (hL : 1 ≤ config.L) (hT : 0 ≤ config.T) (hle : config.T ≤ T)
    (h : constructAndSimulate fuel config draws = .ok (c, draws'))
    (h' : constructAndSimulate fuel' { config with T := T } draws = .ok (c', draws'')) :
    (∃ taken, draws' = taken ++ draws'') ∧ c.sendingTime ≤ c'.sendingTime ∧
      c.idleTime ≤ c'.idleTime ∧ c.collTime ≤ c'.collTime ∧
      ∀ node ∈ c.nodes, ∃ node' ∈ c'.nodes, node.Later node' := by
  obtain ⟨nodes, draws₁, x, hnodes, hslots, rfl, hsame⟩ := slots_of_simulate h hN hL hT
  obtain ⟨nodes', draws₁', y, hnodes', hslots', rfl, hsame'⟩ :=
    slots_of_simulate h' hN hL (hT.trans hle)
  obtain ⟨rfl, rfl⟩ := Prod.mk.inj (Except.ok.inj (hnodes.symm.trans hnodes'))
  have hsum : T.toNat = config.T.toNat + (T - config.T).toNat := by omega
  simp only at hslots'
  rw [hsum, slots_add, hslots] at hslots'
  obtain ⟨hlater, hdraws, hsending, hidle, hcoll⟩ := later_slots hslots'
  refine ⟨hdraws, ?_, ?_, ?_, fun node hnode => ?_⟩
  · rwa [hsame.sending, hsame'.sending]
  · rwa [hsame.idle, hsame'.idle]
  · rwa [hsame.coll, hsame'.coll]
  · obtain ⟨n, hn, hcounts⟩ := hsame.exists_counts hnode
    obtain ⟨n', hn', hlate⟩ := hlater n hn
    obtain ⟨node', hnode', hcounts'⟩ :=
      List.mem_map.mp (hsame'.nodes.mem_iff.mpr (List.mem_map_of_mem hn'))
    exact ⟨node', hnode', hlate.of_counts hcounts hcounts'.symm⟩

/-- The first slot is one with a collision. A longer run has two slots of a packet after it. -/
theorem simulate_longer_collision : ∃ c c',
    constructAndSimulate 1 ⟨3, 2, [3], 0, 1⟩ [0, 0, 3, 0, 3] = .ok (c, []) ∧
      constructAndSimulate 3 ⟨3, 2, [3], 0, 3⟩ [0, 0, 3, 0, 3] = .ok (c', []) ∧
      c.sendingTime ≤ c'.sendingTime ∧ c'.sendingTime = 2 := by
  have hrun : constructAndSimulate 1 ⟨3, 2, [3], 0, 1⟩ [0, 0, 3, 0, 3] = .ok (_, []) := rfl
  have hrun' : constructAndSimulate 3 ⟨3, 2, [3], 0, 3⟩ [0, 0, 3, 0, 3] = .ok (_, []) := rfl
  obtain ⟨-, hsending, -⟩ := simulate_longer (T := 3) (by decide) (by decide) (by decide)
    (by decide) hrun hrun'
  exact ⟨_, _, hrun, hrun', hsending, rfl⟩

end Runs

end NetworkingLearning.Csma
