import Mathlib.Data.List.Perm.Basic
import NetworkingLearning.Csma.Collisions

/-!
# A slot with a collision (`csma.py:118-129`)

The loop over the nodes that collide changes the root in its place. A node that has drawn another
countdown than `0` goes down the heap and is not looked at again; one that has drawn `0` is put
aside, and pushed back when the loop is over. So a node is on the list with a countdown of `0` only
as long as its turn has not come, and what is left to do is `Handled` of the nodes on the list: that
is what the induction carries, and neither the draws nor the places in the heap matter for it.

* `Collided` is what a collision makes of a node: a collision more, the next stage, and a countdown
  within the bound of that stage.
* `Handled` is what the slot makes of a node: a collision if it has timed out, and nothing
  otherwise.

Results:
* `collideLoop_handled`: the loop and the list it leaves, node by node.
* `slot_once`: a slot with a collision treats every node exactly once.
-/

namespace NetworkingLearning.Csma

open NetworkingLearning.Heaps NetworkingLearning.Machine
open scoped List

/-- What a collision makes of a node: it is counted, the stage is the next one, and the countdown a
draw within the bound of that stage. -/
def Collided (node node' : Node) : Prop :=
  ∃ r d, node.permuteR.rVal = .ok r ∧ 0 ≤ d ∧ d ≤ r ∧
    node' = { node.permuteR with numColls := node.numColls + 1, countDownVal := d }

/-- What a slot makes of a node: a collision if it has timed out, and nothing otherwise. -/
def Handled (node node' : Node) : Prop :=
  (node.countDownVal = 0 ∧ Collided node node') ∨ (node.countDownVal ≠ 0 ∧ node' = node)

section Handled

variable {node node' : Node} {nodes nodes' again again' l : List Node} {draws draws' : Draws}

theorem collide_spec (h : node.collide draws = .ok (node', draws')) : Collided node node' := by
  obtain ⟨r, d, hr, h0, hle, -, rfl⟩ := randBackOff_spec h
  exact ⟨r, d, hr, h0, hle, rfl⟩

theorem Handled.id (h : Handled node node') : node'.id = node.id := by
  rcases h with ⟨-, r, d, -, -, -, rfl⟩ | ⟨-, rfl⟩ <;> rfl

/-- A node that has not timed out stays as it is. -/
theorem Handled.eq_of_ne (h : Handled node node') (hne : node.countDownVal ≠ 0) :
    node' = node := by
  rcases h with ⟨h0, -⟩ | ⟨-, h⟩
  · exact absurd h0 hne
  · exact h

/-- Nodes of which the first has not timed out stay as they are. -/
theorem handled_refl {root : Node} {rest : List Node} (h : NodesOk (root :: rest))
    (hroot : root.countDownVal ≠ 0) : List.Forall₂ Handled (root :: rest) (root :: rest) := by
  refine List.forall₂_same.mpr fun n hn => Or.inr ⟨?_, rfl⟩
  have hle := h.root_le hn
  have h0 := h.nonneg root List.mem_cons_self
  omega

/-- The same nodes in another order. -/
theorem handled_perm (hp : nodes ~ nodes') (h : List.Forall₂ Handled nodes' l) :
    ∃ l', List.Forall₂ Handled nodes l' ∧ l' ~ l :=
  List.perm_comp_forall₂ hp h

/-- What every entry keeps is the same list. -/
theorem map_eq_of_forall₂ {α β γ : Type} {f : α → γ} {g : β → γ} {xs : List α} {ys : List β}
    (h : List.Forall₂ (fun x y => g y = f x) xs ys) : ys.map g = xs.map f := by
  have heq : List.Forall₂ Eq (ys.map g) (xs.map f) :=
    List.forall₂_map_left_iff.mpr (List.forall₂_map_right_iff.mpr h.flip)
  rwa [List.forall₂_eq_eq_eq] at heq

theorem handled_ids (h : List.Forall₂ Handled nodes l) :
    l.map Node.id = nodes.map Node.id :=
  map_eq_of_forall₂ (h.imp fun _ _ hn => hn.id)

/-- The collisions of all nodes together. -/
theorem handled_numColls (h : List.Forall₂ Handled nodes l) :
    (l.map Node.numColls).sum = (nodes.map Node.numColls).sum + timeouts nodes := by
  induction h with
  | nil => rfl
  | cons hn _ ih =>
    rw [List.map_cons, List.sum_cons, ih, List.map_cons, List.sum_cons, timeouts_cons]
    rcases hn with ⟨h0, r, d, -, -, -, rfl⟩ | ⟨hne, rfl⟩
    · rw [if_pos h0]
      simp only
      omega
    · rw [if_neg hne]
      omega

/-- **The loop over the nodes that collide**: every node of the list comes out handled, on the list
or put aside. -/
theorem collideLoop_handled : ∀ (fuel : ℕ) (nodes again : List Node) (draws : Draws),
    NodesOk nodes → collideLoop fuel nodes again draws = .ok (nodes', again', draws') →
    ∃ l, List.Forall₂ Handled nodes l ∧ l ++ again ~ nodes' ++ again' := by
  intro fuel
  induction fuel using Nat.strongRecOn with
  | ind fuel ih =>
    intro nodes again draws h hl
    obtain ⟨root, rest, rfl, ⟨hne, rfl, rfl⟩ |
      ⟨h0, fuel₁, node, draws₁, nodes₁, again₁, rfl, hcoll, hok, hcase, hl⟩⟩ :=
        collideLoop_cases h hl
    · exact ⟨root :: rest, handled_refl h hne, List.Perm.refl _⟩
    · have hhand : Handled root node := Or.inl ⟨h0, collide_spec hcoll⟩
      obtain ⟨l₁, hl₁, hp₁⟩ := ih fuel₁ (Nat.lt_succ_self fuel₁) nodes₁ again₁ draws₁ hok hl
      rcases hcase with ⟨-, hperm, rfl⟩ | ⟨hne, hperm, rfl⟩
      · obtain ⟨l₂, hl₂, hp₂⟩ := handled_perm hperm.symm hl₁
        refine ⟨node :: l₂, List.Forall₂.cons hhand hl₂, ?_⟩
        calc node :: l₂ ++ again ~ l₂ ++ again ++ [node] :=
              (List.perm_append_singleton node (l₂ ++ again)).symm
          _ = l₂ ++ (again ++ [node]) := List.append_assoc l₂ again [node]
          _ ~ l₁ ++ (again ++ [node]) := hp₂.append_right _
          _ ~ nodes' ++ again' := hp₁
      · -- the turn of the node does not come again
        obtain ⟨l₂, hl₂, hp₂⟩ := handled_perm hperm.symm hl₁
        obtain ⟨node', l₃, hnode', hl₃, rfl⟩ := List.forall₂_cons_left_iff.mp hl₂
        obtain rfl := hnode'.eq_of_ne hne
        exact ⟨node' :: l₃, List.Forall₂.cons hhand hl₃, (hp₂.append_right _).trans hp₁⟩

/-- The nodes put aside go back, all of them. -/
theorem foldl_heappush_perm : ∀ again nodes : List Node,
    again.foldl (heappush Node.key) nodes ~ nodes ++ again := by
  intro again
  induction again with
  | nil => exact fun nodes => (List.append_nil nodes).symm ▸ List.Perm.refl nodes
  | cons n again ih =>
    intro nodes
    calc again.foldl (heappush Node.key) (heappush Node.key nodes n)
          ~ heappush Node.key nodes n ++ again := ih _
      _ ~ n :: nodes ++ again := (heappush_perm nodes n).append_right _
      _ ~ nodes ++ n :: again := List.perm_middle.symm

/-- **The nodes after a slot** are those before it, each of them handled. -/
theorem slot_handled (h : NodesOk nodes) {fuel : ℕ}
    (hl : collideLoop fuel nodes [] draws = .ok (nodes', again', draws')) :
    ∃ l, List.Forall₂ Handled nodes l ∧ l ~ again'.foldl (heappush Node.key) nodes' := by
  obtain ⟨l, hhand, hp⟩ := collideLoop_handled fuel nodes [] draws h hl
  rw [List.append_nil] at hp
  exact ⟨l, hhand, hp.trans (foldl_heappush_perm again' nodes').symm⟩

end Handled

/-- **A slot with a collision treats every node once**, in every iteration that `simulate` reaches
and whatever is drawn: each node whose countdown was `0` has one more collision, is on the next
stage and has drawn a countdown within its bound; the others are as they were. The nodes are the
same and in heap order again. The slot is counted once, and so are the collisions, two or more, of
its nodes. -/
theorem slot_once (s s₁ s₂ : Run) (h : LoopHead s) (hs : settle s = .ok s₁)
    (hb : branch s₁ = .ok .collision) (ha : act s₁ .collision = .ok s₂) :
    (∃ l, List.Forall₂ Handled s₁.csma.nodes l ∧ l ~ s₂.csma.nodes) ∧
    s₁.csma.nodes.map Node.id ~ s₂.csma.nodes.map Node.id ∧
    IsHeap Node.key s₂.csma.nodes ∧ (∀ n ∈ s₂.csma.nodes, 0 ≤ n.countDownVal) ∧
    s₂.csma.collTime = s₁.csma.collTime + 1 ∧
    2 ≤ timeouts s₁.csma.nodes ∧
    getTotalCollisions s₂.csma = getTotalCollisions s₁.csma + timeouts s₁.csma.nodes := by
  obtain ⟨hhead, h3⟩ := headOk_runs h
  obtain ⟨hset, hN⟩ := nodesOk_settle hhead hs
  obtain ⟨b, hb', hcoll, -⟩ := branch_exact hset (hN ▸ h3)
  obtain rfl : Branch.collision = b := Except.ok.inj (hb.symm.trans hb')
  obtain ⟨hhead₂, -⟩ := headOk_act hset hb ha
  rcases act_cases ha with ⟨hf, -⟩ | ⟨-, nodes, again, draws, hloop, rfl⟩ | ⟨hf, -⟩
  · exact absurd hf (by decide)
  · obtain ⟨l, hl, hperm⟩ := slot_handled hset.nodes hloop
    refine ⟨⟨l, hl, hperm⟩, ?_, hhead₂.nodes.heap, hhead₂.nodes.nonneg, rfl, hcoll.mp rfl, ?_⟩
    · rw [← handled_ids hl]
      exact hperm.map Node.id
    · rw [getTotalCollisions, getTotalCollisions, ← handled_numColls hl]
      exact (hperm.map Node.numColls).sum_eq.symm
  · exact absurd hf (by decide)

/-- Of `twoTimeouts`, the first node draws `0` again. -/
theorem slot_once_twoTimeouts : ∃ s₂, act (Run.start twoTimeouts [0, 3]) .collision = .ok s₂ ∧
    getTotalCollisions s₂.csma = 0 + 2 := by
  have hcon : construct ⟨3, 2, [3], 0, 3⟩ [0, 0, 3, 0, 3] = .ok (twoTimeouts, [0, 3]) := rfl
  have hc : Reached twoTimeouts := .construct (by decide) hcon
  have hhead : LoopHead (Run.start twoTimeouts [0, 3]) :=
    Runs.start ⟨twoTimeouts, none, none, none, [0, 3], twoTimeouts, [0, 3], hc, by simp, rfl, rfl⟩
  exact ⟨_, rfl, (slot_once _ (Run.start twoTimeouts [0, 3]) _ hhead rfl rfl rfl).2.2.2.2.2.2⟩

end NetworkingLearning.Csma
