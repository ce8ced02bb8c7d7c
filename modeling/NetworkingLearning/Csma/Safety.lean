import Mathlib.Data.List.Infix
import NetworkingLearning.Csma.Draws

/-!
# The list of nodes runs empty (`csma.py:118-129`)

In a slot with a collision, a node that draws `0` again is taken off the list until the slot is over
(`csma.py:125`), and the loop goes on to read the root of what is left (`csma.py:122`). Where every
node has timed out and every node draws `0` again nothing is left, and `self.nodes[0]` is an
`IndexError`. This can come about with any number of nodes.

Nothing else fails: the first three nodes are there in every other place, and no stage is beyond the
list of the bounds (`Node.StageOk`). So `Sound` is an invariant as long as no slot has draws that
leave no node (`Empties`).

* The draws are any that `randint` returns, and as many as a run takes at most (`Drawn`). That way
  an exception is never one of the model, for want of draws.
* A run comes to its end after `T` iterations at most, since each of them takes time.

Results:
* `collideLoop_failure`: the loop over the nodes that collide fails on the draws that leave no node,
  and on no other.
* `runs_to_completion_iff`: `simulate` returns if and only if no slot has such draws.

Out of scope: fewer than three nodes, for which `simulate` reads behind the list as soon as a single
node has timed out. What is left of those runs is in `Reports`.
-/

namespace NetworkingLearning.Csma

open NetworkingLearning.Heaps NetworkingLearning.Machine
open scoped List

/-! ## Stages -/

/-- The stage of a node, and every stage it can come to, has a bound that is not negative. -/
structure Node.StageOk (node : Node) : Prop where
  stage : node.rId < node.rList.length
  ceil : node.collCeil < node.rList.length
  bounds : ∀ r ∈ node.rList, 0 ≤ r

section Stages

variable {node node' : Node} {draws draws' : Draws} {e : Error}

theorem Node.StageOk.rVal (h : node.StageOk) : ∃ r, node.rVal = .ok r ∧ 0 ≤ r := by
  have hstage := h.stage
  refine ⟨node.rList[node.rId], ?_, h.bounds _ (List.getElem_mem hstage)⟩
  rw [Node.rVal, List.getElem?_eq_getElem hstage]

/-- **The next stage is on the list** again. -/
theorem Node.StageOk.permuteR (h : node.StageOk) : node.permuteR.StageOk := by
  refine ⟨?_, h.ceil, h.bounds⟩
  have hceil := h.ceil
  have hstage := h.stage
  simp only [Node.permuteR]
  split_ifs with hwrap <;> omega

/-- A node as it is constructed. -/
theorem stageOk_new {R : List ℤ} {M : ℤ} (hM : M + 1 ≤ R.length) (hR : ∀ r ∈ R, 1 ≤ r)
    (hne : R ≠ []) (idx : ℤ) : (⟨idx, R, 0, M, 0, 0, 0⟩ : Node).StageOk :=
  ⟨List.length_pos_of_ne_nil hne, Int.lt_of_add_one_le hM,
    fun r hr => (hR r hr).trans' Int.one_pos.le⟩

theorem stageOk_randBackOff (hb : node.randBackOff draws = .ok (node', draws'))
    (h : node.StageOk) : node'.StageOk := by
  obtain ⟨r, d, -, -, -, -, rfl⟩ := randBackOff_spec hb
  exact ⟨h.stage, h.ceil, h.bounds⟩

/-- Only the draws can be at fault. -/
theorem randBackOff_error (he : node.randBackOff draws = .error e) (h : node.StageOk) :
    e = .draws := by
  obtain ⟨r, hr, h0⟩ := h.rVal
  rcases bind_error.mp he with he | ⟨r', hr', he⟩
  · exact nomatch hr.symm.trans he
  · obtain rfl := Except.ok.inj (hr.symm.trans hr')
    rcases bind_error.mp he with he | ⟨p, -, hp⟩
    · cases draws with
      | nil =>
        rw [randint, if_neg (by omega)] at he
        exact (Except.error.inj he).symm
      | cons d draws =>
        rw [randint_cons, if_neg (by omega)] at he
        split_ifs at he
        exact (Except.error.inj he).symm
    · exact nomatch hp

theorem mapDraws_error {β : Type} {f : β → Draws → Except Error (Node × Draws)}
    (hf : ∀ x draws e, f x draws = .error e → e = .draws) :
    ∀ (xs : List β) (draws : Draws) (e : Error), mapDraws f xs draws = .error e → e = .draws := by
  intro xs
  induction xs with
  | nil => exact fun draws e he => nomatch he
  | cons x xs ih =>
    intro draws e he
    rcases bind_error.mp he with he | ⟨p, -, he⟩
    · exact hf x draws e he
    rcases bind_error.mp he with he | ⟨q, -, he⟩
    · exact ih _ e he
    · exact nomatch he

end Stages

/-! ## The slots that leave no node -/

/-- Every node has timed out and draws `0` again. -/
def Empties (nodes : List Node) (draws : Draws) : Prop :=
  (∀ n ∈ nodes, n.countDownVal = 0) ∧ List.replicate nodes.length 0 <+: draws

section Slots

variable {root : Node} {rest nodes nodes' again : List Node} {draws : Draws} {d : ℤ}

theorem empties_nil (draws : Draws) : Empties [] draws :=
  ⟨fun _ hn => absurd hn List.not_mem_nil, List.nil_prefix⟩

theorem empties_cons : Empties (root :: rest) (d :: draws) ↔
    root.countDownVal = 0 ∧ d = 0 ∧ Empties rest draws := by
  unfold Empties
  rw [List.forall_mem_cons, List.length_cons, List.replicate_succ, List.cons_prefix_cons]
  constructor
  · rintro ⟨⟨h0, hall⟩, hd, hpre⟩
    exact ⟨h0, hd.symm, hall, hpre⟩
  · rintro ⟨h0, hd, hall, hpre⟩
    exact ⟨⟨h0, hall⟩, hd.symm, hpre⟩

theorem Empties.draws_eq (h : Empties (root :: rest) draws) : ∃ draws', draws = 0 :: draws' := by
  obtain ⟨draws', rfl⟩ := h.2
  exact ⟨_, rfl⟩

theorem empties_perm (h : nodes ~ nodes') : Empties nodes draws ↔ Empties nodes' draws := by
  unfold Empties
  rw [h.length_eq]
  exact and_congr_left fun _ => forall_congr' fun n => imp_congr_left h.mem_iff

theorem Empties.timeouts_eq (h : Empties nodes draws) : timeouts nodes = nodes.length :=
  List.countP_eq_length.mpr fun n hn => decide_eq_true (h.1 n hn)

/-- **The loop over the nodes that collide** fails where it leaves no node, and otherwise only for
want of draws. -/
theorem collideLoop_failure : ∀ (k : ℕ) (nodes again : List Node) (draws : Draws), NodesOk nodes →
    (∀ n ∈ nodes, n.StageOk) → timeouts nodes = k →
    (collideLoop (draws.length + 1) nodes again draws = .error .indexError ↔
      Empties nodes draws) ∧
    ∀ e, collideLoop (draws.length + 1) nodes again draws = .error e →
      e = .draws ∨ e = .indexError := by
  intro k
  induction k using Nat.strongRecOn with
  | ind k ih =>
    intro nodes again draws h hstage hk
    cases nodes with
    | nil =>
      have herr : collideLoop (draws.length + 1) [] again draws = .error .indexError := rfl
      exact ⟨⟨fun _ => empties_nil draws, fun _ => herr⟩,
        fun e he => Or.inr (Except.error.inj (he.symm.trans herr))⟩
    | cons root rest =>
      by_cases hroot : root.countDownVal = 0
      · have hnext : ({ root with numColls := root.numColls + 1 } : Node).permuteR.StageOk :=
          Node.StageOk.permuteR ⟨(hstage root List.mem_cons_self).stage,
            (hstage root List.mem_cons_self).ceil, (hstage root List.mem_cons_self).bounds⟩
        cases hc : root.collide draws with
        | error e =>
          obtain rfl := randBackOff_error hc hnext
          have herr : collideLoop (draws.length + 1) (root :: rest) again draws = .error .draws :=
            collideLoop_error hroot _ again hc
          refine ⟨⟨fun he => (nomatch herr.symm.trans he), fun hemp => ?_⟩,
            fun e he => Or.inl (Except.error.inj (he.symm.trans herr))⟩
          -- `0` is a draw that the node accepts
          obtain ⟨draws', rfl⟩ := hemp.draws_eq
          obtain ⟨r, hr, h0⟩ := hnext.rVal
          exact nomatch hc.symm.trans (randBackOff_of_mem hr (le_refl 0) h0 draws')
        | ok p =>
          obtain ⟨node, draws'⟩ := p
          obtain ⟨r, d, -, h0, -, rfl, hnode⟩ := randBackOff_spec hc
          have hd : node.countDownVal = d := congrArg Node.countDownVal hnode
          obtain ⟨nodes, again', hok, hcase, hturn⟩ := collideLoop_turn_length h hroot
            again node (randBackOff_nonneg hc)
          have hlt := timeouts_turn hroot hcase
          have hstage' : ∀ n ∈ nodes, n.StageOk := fun n hn => by
            rcases hcase with ⟨-, hperm⟩ | ⟨-, hperm⟩
            · exact hstage n (List.mem_cons_of_mem root (hperm.mem_iff.mp hn))
            · rcases List.mem_cons.mp (hperm.mem_iff.mp hn) with rfl | hn
              · exact stageOk_randBackOff hc hnext
              · exact hstage n (List.mem_cons_of_mem root hn)
          have hemp : Empties (root :: rest) (d :: draws') ↔ Empties nodes draws' := by
            rw [empties_cons]
            rcases hcase with ⟨h0, hperm⟩ | ⟨hne, hperm⟩
            · rw [empties_perm hperm]
              exact ⟨fun h => h.2.2, fun h => ⟨hroot, hd ▸ h0, h⟩⟩
            · refine ⟨fun h => absurd (hd.trans h.2.1) hne, fun h => absurd ?_ hne⟩
              exact h.1 node (hperm.mem_iff.mpr List.mem_cons_self)
          rw [hturn _ _ hc, hemp]
          exact ih (timeouts nodes) (by omega) nodes again' draws' hok hstage' rfl
      · have hdone := collideLoop_done h hroot (draws.length + 1) again draws
        refine ⟨⟨fun he => (nomatch hdone.symm.trans he), fun hemp => ?_⟩,
          fun e he => (nomatch hdone.symm.trans he)⟩
        exact absurd (hemp.1 root List.mem_cons_self) hroot

/-- The nodes of a slot stay on their lists of bounds. -/
theorem stageOk_handled {l : List Node} (h : List.Forall₂ Handled nodes l) :
    (∀ n ∈ nodes, n.StageOk) → ∀ n ∈ l, n.StageOk := by
  induction h with
  | nil => exact fun h => h
  | cons hn _ ih =>
    intro h
    rw [List.forall_mem_cons] at h ⊢
    refine ⟨?_, ih h.2⟩
    rcases hn with ⟨-, r, d, -, -, -, rfl⟩ | ⟨-, rfl⟩
    · exact ⟨h.1.permuteR.stage, h.1.permuteR.ceil, h.1.permuteR.bounds⟩
    · exact h.1

end Slots

/-! ## An iteration -/

/-- At the head of the loop: nothing but the draws of a slot can go wrong. -/
structure Sound (s : Run) : Prop where
  head : HeadOk s
  three : 3 ≤ s.csma.numNodes
  packetLen : 1 ≤ s.csma.packetLen
  stages : ∀ n ∈ s.csma.nodes, n.StageOk

section Iteration

variable {s s' s₁ : Run} {e : Error}

theorem stageOk_book (hstage : ∀ n ∈ s.csma.nodes, n.StageOk) (h : NodesOk s.csma.nodes)
    (hb : book s = .ok s') : ∀ n ∈ s'.csma.nodes, n.StageOk := by
  rcases book_cases hb with ⟨-, root, node, draws, nodes, hroot, hsent, hnodes, rfl⟩ |
    ⟨-, -, rfl⟩ | ⟨-, -, rfl⟩
  · obtain ⟨rest, hrest⟩ := minCandidate_ok hroot
    rw [hrest] at h hstage hnodes
    obtain ⟨-, hperm⟩ := replaceRoot_spec (h.set_root root).1 hnodes
    intro n hn
    rcases List.mem_cons.mp (hperm.mem_iff.mp hn) with rfl | hn
    · have hr := hstage root List.mem_cons_self
      exact stageOk_randBackOff hsent ⟨hr.stage, hr.ceil, hr.bounds⟩
    · exact hstage n (List.mem_cons_of_mem root hn)
  · intro n hn
    obtain ⟨n', hn', rfl⟩ := List.mem_map.mp hn
    exact ⟨(hstage n' hn').stage, (hstage n' hn').ceil, (hstage n' hn').bounds⟩
  · exact hstage

theorem stageOk_settle (h : Sound s) (hs : settle s = .ok s') :
    ∀ n ∈ s'.csma.nodes, n.StageOk := by
  obtain ⟨s₁, node, hb, -, rfl⟩ := settle_cases hs
  have hstage := stageOk_book h.stages h.head.nodes hb
  exact hstage

/-- **An iteration keeps the nodes on their lists.** -/
theorem sound_iteration (h : Sound s) (hs : iteration s = .ok s') : Sound s' := by
  obtain ⟨hhead, hN⟩ := headOk_iteration h.head hs
  refine ⟨hhead, hN.symm ▸ h.three, (iteration_frame hs).1.symm ▸ h.packetLen, ?_⟩
  obtain ⟨s₁, b, hsettle, -, hact⟩ := iteration_cases hs
  have hstage := stageOk_settle h hsettle
  have hset := (nodesOk_settle h.head hsettle).1
  rcases act_cases hact with ⟨-, rfl⟩ | ⟨-, nodes, again, draws, hloop, rfl⟩ | ⟨-, rfl⟩
  · exact hstage
  · obtain ⟨l, hl, hperm⟩ := slot_handled hset.nodes hloop
    exact fun n hn => stageOk_handled hl hstage n (hperm.mem_iff.mpr hn)
  · exact hstage

/-- **Up to where the minimum is read** only the draws can be at fault. -/
theorem settle_error (h : Sound s) (he : settle s = .error e) : e = .draws := by
  have hlen := h.head.length
  have hthree := h.three
  obtain ⟨root, rest, hnodes⟩ : ∃ root rest, s.csma.nodes = root :: rest :=
    List.exists_cons_of_length_pos (by omega)
  have hroot := h.stages root (hnodes ▸ List.mem_cons_self)
  rcases bind_error.mp he with he | ⟨s₁, hb, he⟩
  · by_cases hocc : s.occupiedFlag = true
    · rw [book_occupied hocc hnodes] at he
      rcases bind_error.mp he with he | ⟨p, -, he⟩
      · exact randBackOff_error he ⟨hroot.stage, hroot.ceil, hroot.bounds⟩
      · exact nomatch he
    · exact nomatch (book_free hocc).symm.trans he
  · obtain ⟨-, hlen₁, -⟩ := nodesOk_book h.head hb
    obtain ⟨n, rest₁, hnodes₁⟩ : ∃ n rest₁, s₁.csma.nodes = n :: rest₁ := by
      refine List.exists_cons_of_length_pos ?_
      have hN := (book_frame hb).2.2.1
      omega
    rw [hnodes₁] at he
    exact nomatch he

/-- **An iteration fails** on the draws of a slot that leave no node, and otherwise only for want of
draws. -/
theorem iteration_failure (h : Sound s) :
    (iteration s = .error .indexError ↔
      ∃ s₁, settle s = .ok s₁ ∧ Empties s₁.csma.nodes s₁.draws) ∧
    ∀ e, iteration s = .error e → e = .draws ∨ e = .indexError := by
  cases hs : settle s with
  | error e =>
    obtain rfl := settle_error h hs
    have herr : iteration s = .error .draws := bind_error.mpr (Or.inl hs)
    refine ⟨⟨fun he => (nomatch herr.symm.trans he), fun ⟨s₁, hs₁, _⟩ => (nomatch hs₁)⟩,
      fun e he => Or.inl (Except.error.inj (he.symm.trans herr))⟩
  | ok s₁ =>
    obtain ⟨hset, hN⟩ := nodesOk_settle h.head hs
    obtain ⟨b, hb, hcoll, -⟩ := branch_exact hset (hN.symm ▸ h.three)
    rw [iteration_eq hs hb]
    by_cases hbc : b = .collision
    · subst hbc
      obtain ⟨hfail, hother⟩ := collideLoop_failure _ s₁.csma.nodes [] s₁.draws hset.nodes
        (stageOk_settle h hs) rfl
      have hact : ∀ e, act s₁ .collision = .error e ↔
          collideLoop (s₁.draws.length + 1) s₁.csma.nodes [] s₁.draws = .error e := fun e => by
        refine bind_error.trans ⟨fun he => ?_, Or.inl⟩
        rcases he with he | ⟨p, -, he⟩
        · exact he
        · exact nomatch he
      rw [hact, hfail]
      refine ⟨⟨fun hemp => ⟨s₁, rfl, hemp⟩, ?_⟩, fun e he => hother e ((hact e).mp he)⟩
      rintro ⟨s₂, hs₂, hemp⟩
      obtain rfl := Except.ok.inj hs₂
      exact hemp
    · -- the other activities only start, and not all nodes have timed out
      obtain ⟨s', hact⟩ : ∃ s', act s₁ b = .ok s' := by
        cases b with
        | idle => exact ⟨_, rfl⟩
        | collision => exact absurd rfl hbc
        | transmission => exact ⟨_, rfl⟩
      rw [hact]
      refine ⟨⟨fun he => (nomatch he), ?_⟩, fun e he => (nomatch he)⟩
      rintro ⟨s₂, hs₂, hemp⟩
      obtain rfl := Except.ok.inj hs₂
      have hlen := hset.length
      have hthree := h.three
      refine absurd (hcoll.mpr ?_) hbc
      rw [hemp.timeouts_eq]
      omega

end Iteration

/-! ## A whole run -/

/-- The states at the head of the loop in `CSMA(config).simulate()` on these draws. -/
def HeadOf (config : Config) (draws : Draws) (s : Run) : Prop :=
  ∃ c draws', construct config draws = .ok (c, draws') ∧ LoopFrom (Run.start c draws') s

/-- Draws for a whole run: as many as it takes at most, none of which `randint` does not return. -/
structure Drawn (config : Config) (draws : Draws) : Prop where
  enough : config.N.toNat + config.T.toNat * (config.N.toNat + 1) ≤ draws.length
  accepted : ∃ more, constructAndSimulate config.T.toNat config (draws ++ more) ≠ .error .draws

/-- No slot of `CSMA(config).simulate()` on these draws leaves no node. -/
def NeverEmpties (config : Config) (draws : Draws) : Prop :=
  ∀ s s₁, HeadOf config draws s → s.time < s.csma.tolTime → settle s = .ok s₁ →
    ¬Empties s₁.csma.nodes s₁.draws

section Run

variable {config : Config} {draws draws' : Draws} {c : CSMA} {s s₀ : Run} {e : Error}

/-- A model as it is constructed. -/
theorem sound_construct (hN : 3 ≤ config.N) (hL : 1 ≤ config.L)
    (hM : config.M + 1 ≤ config.R.length) (hR : ∀ r ∈ config.R, 1 ≤ r) (hne : config.R ≠ [])
    (h : construct config draws = .ok (c, draws')) : Sound (Run.start c draws') := by
  have hok := modelOk_construct hN h
  obtain ⟨⟨nodes, draws₁⟩, hmap, h⟩ := bind_ok.mp h
  obtain ⟨rfl, -⟩ := Prod.mk.inj (Except.ok.inj h)
  obtain ⟨-, hstage⟩ := mapDraws_spec (fun i _ _ _ hb => stageOk_randBackOff hb
    (stageOk_new hM hR hne i)) _ _ _ _ hmap
  exact ⟨headOk_start hok, hok.three, hL,
    fun n hn => hstage n ((heapify_perm nodes).mem_iff.mp hn)⟩

/-- Without a bound no node can be constructed. -/
theorem construct_bounds (hN : 3 ≤ config.N) (h : construct config draws = .ok (c, draws')) :
    config.R ≠ [] := by
  obtain ⟨⟨nodes, draws₁⟩, hmap, -⟩ := bind_ok.mp h
  obtain ⟨i, is, his⟩ : ∃ i is, range 0 config.N = i :: is :=
    List.exists_cons_of_length_pos (by rw [range_length]; omega)
  rw [his] at hmap
  obtain ⟨⟨node, draws₂⟩, hnew, -⟩ := bind_ok.mp hmap
  obtain ⟨r, d, hr, -⟩ := randBackOff_spec hnew
  intro hnil
  rw [hnil] at hr
  exact nomatch hr

/-- **The loop fails** in a slot that leaves no node, and otherwise only for want of draws. -/
theorem simulateLoop_failure : ∀ (fuel : ℕ) (s : Run), LoopFrom s₀ s → Sound s →
    s.csma.tolTime ≤ s.time + fuel → simulateLoop fuel s = .error e →
    e = .draws ∨ ∃ s' s₁, LoopFrom s₀ s' ∧ s'.time < s'.csma.tolTime ∧ settle s' = .ok s₁ ∧
      Empties s₁.csma.nodes s₁.draws := by
  intro fuel
  induction fuel with
  | zero =>
    intro s _ _ hfuel he
    rw [simulateLoop, if_neg (by simpa using hfuel)] at he
    cases he
  | succ fuel ih =>
    intro s hrun h hfuel he
    rw [simulateLoop] at he
    split_ifs at he with hlt
    rcases bind_error.mp he with he | ⟨s', hs', he⟩
    · obtain ⟨hindex, hother⟩ := iteration_failure h
      rcases hother e he with rfl | rfl
      · exact Or.inl rfl
      · obtain ⟨s₁, hs₁, hemp⟩ := hindex.mp he
        exact Or.inr ⟨s, s₁, hrun, hlt, hs₁, hemp⟩
    · have htime := iteration_time h.packetLen hs'
      have htol := (iteration_frame hs').2.1
      exact ih s' (hrun.next ⟨hlt, hs'⟩) (sound_iteration h hs') (by push_cast at hfuel; omega) he

theorem sound_loopFrom (h : Sound s₀) (hrun : LoopFrom s₀ s) : Sound s := by
  refine hrun.invariant (I := Sound) ?_ ?_
  · rintro s rfl
    exact h
  · rintro s s' hs ⟨-, hit⟩
    exact sound_iteration hs hit

/-- In a run that ends, no slot leaves no node. -/
theorem not_empties_of_ok {fuel : ℕ} {s' s₁ : Run} (h : Sound s₀)
    (hloop : simulateLoop fuel s₀ = .ok s') (hrun : LoopFrom s₀ s)
    (hlt : s.time < s.csma.tolTime) (hs : settle s = .ok s₁) :
    ¬Empties s₁.csma.nodes s₁.draws := by
  intro hemp
  have hfail := (iteration_failure (sound_loopFrom h hrun)).1.mpr ⟨s₁, hs, hemp⟩
  obtain ⟨fuel', hloop⟩ := hrun.simulateLoop hloop
  rcases simulateLoop_cases hloop with ⟨hle, -⟩ | ⟨-, fuel', s₂, -, hit, -⟩
  · exact absurd hlt (not_lt.mpr hle)
  · exact nomatch hfail.symm.trans hit

/-- Where no slot leaves no node, a run fails only for want of draws. -/
theorem error_of_not_empties (hN : 3 ≤ config.N) (hL : 1 ≤ config.L)
    (hM : config.M + 1 ≤ config.R.length) (hR : ∀ r ∈ config.R, 1 ≤ r) (hne : config.R ≠ [])
    (hno : NeverEmpties config draws)
    (he : constructAndSimulate config.T.toNat config draws = .error e) : e = .draws := by
  rcases bind_error.mp he with he | ⟨⟨c, draws'⟩, hcon, he⟩
  · rcases bind_error.mp he with he | ⟨q, -, he⟩
    · exact mapDraws_error (fun i draws e he => randBackOff_error he (stageOk_new hM hR hne i))
        _ _ e he
    · exact nomatch he
  · have hT : c.tolTime = config.T := (construct_spec hcon).2.2.2
    have hfuel : (Run.start c draws').csma.tolTime ≤
        (Run.start c draws').time + config.T.toNat := by
      show c.tolTime ≤ 0 + (config.T.toNat : ℤ)
      omega
    have hsim : simulateLoop config.T.toNat (Run.start c draws') >>=
        (fun s => .ok (finish s, s.draws)) = .error e := he
    rcases bind_error.mp hsim with he | ⟨q, -, he⟩
    · rcases simulateLoop_failure _ _ (Runs.start rfl) (sound_construct hN hL hM hR hne hcon) hfuel
        he with he | ⟨s, s₁, hrun, hlt, hs, hemp⟩
      · exact he
      · exact absurd hemp (hno s s₁ ⟨c, draws', hcon, hrun⟩ hlt hs)
    · exact nomatch he

end Run

/-- **Exactly when `simulate` returns**, for any draws: there is a bound, and in no slot that the
run comes to has every node timed out while the next draws are `0` for each of them. -/
theorem runs_to_completion_iff (config : Config) (draws : Draws) (hN : 3 ≤ config.N)
    (hL : 1 ≤ config.L) (hM : config.M + 1 ≤ config.R.length) (hR : ∀ r ∈ config.R, 1 ≤ r)
    (hdraws : Drawn config draws) :
    (∃ p, constructAndSimulate config.T.toNat config draws = .ok p) ↔
      config.R ≠ [] ∧ NeverEmpties config draws := by
  constructor
  · rintro ⟨p, hp⟩
    obtain ⟨⟨c, draws'⟩, hcon, hsim⟩ := bind_ok.mp hp
    have hne := construct_bounds hN hcon
    obtain ⟨s', hloop, -⟩ := bind_ok.mp (show simulateLoop config.T.toNat (Run.start c draws') >>=
      (fun s => .ok (finish s, s.draws)) = .ok p from hsim)
    refine ⟨hne, ?_⟩
    rintro s s₁ ⟨c₁, draws₁, hcon₁, hrun⟩ hlt hs
    obtain ⟨rfl, rfl⟩ := Prod.mk.inj (Except.ok.inj (hcon.symm.trans hcon₁))
    exact not_empties_of_ok (sound_construct hN hL hM hR hne hcon) hloop hrun hlt hs
  · rintro ⟨hne, hno⟩
    cases hres : constructAndSimulate config.T.toNat config draws with
    | ok p => exact ⟨p, rfl⟩
    | error e =>
      -- there are draws enough, and so one of them would be refused
      obtain rfl := error_of_not_empties hN hL hM hR hne hno hres
      obtain ⟨more, hmore⟩ := hdraws.accepted
      exact absurd ((takes_constructAndSimulate _ config hN draws).refuses hres hdraws.enough more)
        hmore

/-- Three nodes, one stage and one unit of time. -/
def oneSlot : Config := ⟨3, 1, [1], 0, 1⟩

theorem runs_to_completion_iff_oneSlot : NeverEmpties oneSlot [0, 0, 0, 0, 1, 1, 1] := by
  obtain ⟨p, hp⟩ : ∃ p, constructAndSimulate 1 oneSlot [0, 0, 0, 0, 1, 1, 1] = .ok p := ⟨_, rfl⟩
  refine ((runs_to_completion_iff oneSlot [0, 0, 0, 0, 1, 1, 1] (by decide) (by decide) (by decide)
    (by decide) ⟨by decide, [], fun he => ?_⟩).mp ⟨p, hp⟩).2
  exact nomatch hp.symm.trans he

/-- All three nodes time out in the first slot, and all of them draw `0` again. -/
theorem runs_off_nodes : 3 ≤ oneSlot.N ∧ 1 ≤ oneSlot.L ∧ 1 ≤ oneSlot.T ∧
    oneSlot.M + 1 ≤ oneSlot.R.length ∧ (∀ r ∈ oneSlot.R, 1 ≤ r) ∧
    Drawn oneSlot [0, 0, 0, 0, 0, 0, 0] ∧
    constructAndSimulate oneSlot.T.toNat oneSlot [0, 0, 0, 0, 0, 0, 0] = .error .indexError := by
  have hrun : constructAndSimulate oneSlot.T.toNat oneSlot [0, 0, 0, 0, 0, 0, 0] =
      .error .indexError := rfl
  refine ⟨by decide, by decide, by decide, by decide, by decide, ⟨by decide, [], fun he => ?_⟩,
    hrun⟩
  exact nomatch hrun.symm.trans he

end NetworkingLearning.Csma
