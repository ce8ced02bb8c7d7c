import NetworkingLearning.Csma.Slots

/-!
# Models that are used again (`csma.py:69-87`)

`simulate` with arguments reinitialises the model first. Nodes that are added get the numbers from
`num_nodes` on (`csma.py:81-82`), as if those in the list had the numbers below. But a list that is
cut (`csma.py:70-71`) is cut in heap order, as the run before has left it: the ids that are kept are
any, and with the next nodes that are added some may be there twice. The rest of a node is renewed
in either case (`csma.py:78-79`).

* `InOrder` models have the first ids, in any order. `Clean` ones are as a constructor would leave
  them, for the numbers that the model has now.
* `CutInOrder` is the condition on a call: where the list is cut, the nodes that come first in it
  are those with the first ids.
* `Called` are the sequences of calls, with any arguments and any draws, and the reinitialisations
  among them.

Results:
* `tag_iteration`: no iteration changes an id, or a list of bounds.
* `clean_iff`: what a reinitialisation makes of a model whose ids are in order.
* `no_residue_iff`: in a whole sequence of calls, every reinitialisation leaves a model as a
  constructor would, exactly if every list that is cut is cut to the nodes with the first ids.
-/

namespace NetworkingLearning.Csma

open NetworkingLearning.Heaps NetworkingLearning.Machine
open scoped List

/-! ## Ranges -/

section Ranges

variable {a b c i : ℤ}

theorem mem_range : i ∈ range a b ↔ a ≤ i ∧ i < b := by
  unfold range
  rw [List.mem_map]
  constructor
  · rintro ⟨k, hk, rfl⟩
    rw [List.mem_range] at hk
    omega
  · rintro ⟨ha, hb⟩
    exact ⟨(i - a).toNat, List.mem_range.mpr (by omega), by omega⟩

theorem nodup_range (a b : ℤ) : (range a b).Nodup :=
  List.Nodup.map (fun _ _ h => Int.ofNat_inj.mp (add_left_cancel h)) List.nodup_range

/-- A range in two parts. -/
theorem range_append (hab : a ≤ b) (hbc : b ≤ c) : range a b ++ range b c ~ range a c := by
  refine (List.perm_ext_iff_of_nodup ?_ (nodup_range a c)).mpr fun i => ?_
  · refine (nodup_range a b).append (nodup_range b c) fun i h1 h2 => ?_
    have h1 := mem_range.mp h1
    have h2 := mem_range.mp h2
    omega
  · rw [List.mem_append, mem_range, mem_range, mem_range]
    omega

end Ranges

/-! ## A run keeps the ids -/

/-- What no iteration changes of a node. -/
def Node.tag (node : Node) : ℤ × List ℤ := (node.id, node.rList)

section Tags

variable {node node' : Node} {nodes l : List Node} {draws draws' : Draws} {s s' s₀ : Run}

theorem tag_randBackOff (h : node.randBackOff draws = .ok (node', draws')) :
    node'.tag = node.tag := by
  obtain ⟨r, d, -, -, -, -, rfl⟩ := randBackOff_spec h
  rfl

theorem Handled.tag (h : Handled node node') : node'.tag = node.tag := by
  rcases h with ⟨-, r, d, -, -, -, rfl⟩ | ⟨-, rfl⟩ <;> rfl

theorem handled_tags (h : List.Forall₂ Handled nodes l) :
    l.map Node.tag = nodes.map Node.tag :=
  map_eq_of_forall₂ (h.imp fun _ _ hn => hn.tag)

theorem tag_book (h : NodesOk s.csma.nodes) (hb : book s = .ok s') :
    s'.csma.nodes.map Node.tag ~ s.csma.nodes.map Node.tag ∧ s'.csma.rList = s.csma.rList := by
  rcases book_cases hb with ⟨-, root, node, draws, nodes, hroot, hsent, hnodes, rfl⟩ |
    ⟨-, -, rfl⟩ | ⟨-, -, rfl⟩
  · obtain ⟨rest, hrest⟩ := minCandidate_ok hroot
    rw [hrest] at h hnodes ⊢
    obtain ⟨-, hperm⟩ := replaceRoot_spec (h.set_root root).1 hnodes
    refine ⟨(hperm.map Node.tag).trans ?_, rfl⟩
    rw [List.map_cons, List.map_cons, tag_randBackOff hsent]
    exact List.Perm.refl _
  · refine ⟨?_, rfl⟩
    simp only [List.map_map]
    exact List.Perm.refl _
  · exact ⟨List.Perm.refl _, rfl⟩

/-- **No iteration changes an id, or a list of bounds.** -/
theorem tag_iteration (h : HeadOk s) (hs : iteration s = .ok s') :
    s'.csma.nodes.map Node.tag ~ s.csma.nodes.map Node.tag ∧ s'.csma.rList = s.csma.rList := by
  obtain ⟨s₂, b, hsettle, -, hact⟩ := iteration_cases hs
  obtain ⟨s₁, node, hbook, -, rfl⟩ := settle_cases hsettle
  have hset := (nodesOk_settle h hsettle).1
  have htag := tag_book h.nodes hbook
  rcases act_cases hact with ⟨-, rfl⟩ | ⟨-, nodes, again, draws, hloop, rfl⟩ | ⟨-, rfl⟩
  · exact htag
  · obtain ⟨l, hl, hperm⟩ := slot_handled hset.nodes hloop
    refine ⟨(hperm.map Node.tag).symm.trans ?_, htag.2⟩
    rw [handled_tags hl]
    exact htag.1
  · exact htag

/-- The states of a loop. -/
theorem tag_loopFrom (h : HeadOk s₀) (hrun : LoopFrom s₀ s) :
    s.csma.nodes.map Node.tag ~ s₀.csma.nodes.map Node.tag ∧ s.csma.rList = s₀.csma.rList := by
  refine (Runs.invariant (I := fun s => HeadOk s ∧
    s.csma.nodes.map Node.tag ~ s₀.csma.nodes.map Node.tag ∧ s.csma.rList = s₀.csma.rList)
    ?_ ?_ hrun).2
  · rintro _ rfl
    exact ⟨h, List.Perm.refl _, rfl⟩
  · rintro s s' ⟨hok, hperm, hlist⟩ ⟨-, hit⟩
    obtain ⟨hperm', hlist'⟩ := tag_iteration hok hit
    exact ⟨(headOk_iteration hok hit).1, hperm'.trans hperm, hlist'.trans hlist⟩

end Tags

/-! ## Models in order -/

/-- A model whose nodes have the first ids and the bounds of the model. -/
structure InOrder (c : CSMA) : Prop where
  nodes : NodesOk c.nodes
  length : (c.nodes.length : ℤ) = c.numNodes
  ids : c.nodes.map Node.id ~ range 0 c.numNodes
  bounds : ∀ n ∈ c.nodes, n.rList = c.rList

/-- A node as it is constructed, for the bounds of the model. -/
structure Renewed (R : List ℤ) (node : Node) : Prop where
  numColls : node.numColls = 0
  numTrans : node.numTrans = 0
  stage : node.rId = 0
  bounds : node.rList = R
  countDown : ∃ r, R[0]? = some r ∧ 0 ≤ node.countDownVal ∧ node.countDownVal ≤ r

/-- A model as it is constructed. -/
structure Clean (c : CSMA) : Prop where
  length : (c.nodes.length : ℤ) = c.numNodes
  ids : c.nodes.map Node.id ~ range 0 c.numNodes
  nodes : ∀ n ∈ c.nodes, Renewed c.rList n
  times : Fresh c
  heap : IsHeap Node.key c.nodes

section Models

variable {node node' : Node} {draws draws' : Draws} {R : Option (List ℤ)} {N L : Option ℤ}
  {c c' : CSMA} {config : Config} {s : Run} {fuel : ℕ}

theorem rVal_zero (node : Node) {r : ℤ} (h0 : node.rId = 0) (h : node.rVal = .ok r) :
    node.rList[0]? = some r := by
  unfold Node.rVal at h
  rw [h0] at h
  split at h
  · rename_i r' hr
    obtain rfl := Except.ok.inj h
    exact hr
  · exact nomatch h

theorem new_spec {R : List ℤ} {M i : ℤ} (h : Node.new R M i draws = .ok (node, draws')) :
    node.id = i ∧ Renewed R node := by
  obtain ⟨r, d, hr, h0, hle, -, rfl⟩ := randBackOff_spec h
  have hbound : R[0]? = some r := rVal_zero ⟨i, R, 0, M, 0, 0, 0⟩ rfl hr
  exact ⟨rfl, rfl, rfl, rfl, rfl, r, hbound, h0, hle⟩

theorem reset_spec (node : Node) (h : node.reset R draws = .ok (node', draws')) :
    node'.id = node.id ∧ Renewed (R.getD node.rList) node' := by
  obtain ⟨r, d, hr, h0, hle, -, rfl⟩ := randBackOff_spec h
  have hbound : (R.getD node.rList)[0]? = some r :=
    rVal_zero { node.resetR R with numColls := 0, numTrans := 0 } rfl hr
  exact ⟨rfl, rfl, rfl, rfl, rfl, r, hbound, h0, hle⟩

/-- The nodes that a reinitialisation keeps. -/
def keptNodes (c : CSMA) (N : Option ℤ) : List Node :=
  match N with
  | some N => if N < c.numNodes then sliceTo c.nodes N else c.nodes
  | none => c.nodes

/-- The ids of the nodes that it adds. -/
def addedIds (c : CSMA) (N : Option ℤ) : List ℤ :=
  match N with
  | some N => range c.numNodes N
  | none => []

theorem exists_of_forall₂ {α β : Type} {P : α → β → Prop} {xs : List α} {ys : List β}
    (h : List.Forall₂ P xs ys) : ∀ y ∈ ys, ∃ x ∈ xs, P x y := by
  induction h with
  | nil => exact fun y hy => absurd hy List.not_mem_nil
  | cons hxy _ ih =>
    refine List.forall_mem_cons.mpr ⟨⟨_, List.mem_cons_self, hxy⟩, fun y hy => ?_⟩
    obtain ⟨x, hx, h⟩ := ih y hy
    exact ⟨x, List.mem_cons_of_mem _ hx, h⟩

/-- What a reinitialisation makes of the nodes, one by one. -/
theorem reinitialize_cases (h : reinitialize N L R c draws = .ok (c', draws')) :
    ∃ kept added, c'.nodes = heapify Node.key (kept ++ added) ∧ c'.rList = R.getD c.rList ∧
      List.Forall₂ (fun n n' => n'.id = n.id ∧ Renewed (R.getD n.rList) n')
        (keptNodes c N) kept ∧
      List.Forall₂ (fun i n' => n'.id = i ∧ Renewed (R.getD c.rList) n') (addedIds c N) added := by
  obtain ⟨⟨kept, draws₁⟩, hkept, h⟩ := bind_ok.mp h
  obtain ⟨⟨added, draws₂⟩, hadded, h⟩ := bind_ok.mp h
  obtain ⟨rfl, -⟩ := Prod.mk.inj (Except.ok.inj h)
  exact ⟨kept, added, rfl, rfl,
    mapDraws_forall₂ (fun n _ _ _ h => reset_spec n h) _ _ _ _ hkept,
    mapDraws_forall₂ (fun i _ _ _ h => new_spec (i := i) h) _ _ _ _ hadded⟩

/-- **The ids of a reinitialised model** are those that are kept and those that are added. -/
theorem reinitialize_ids (h : reinitialize N L R c draws = .ok (c', draws')) :
    c'.nodes.map Node.id ~ (keptNodes c N).map Node.id ++ addedIds c N := by
  obtain ⟨kept, added, hnodes, -, hkept, hadded⟩ := reinitialize_cases h
  rw [hnodes]
  refine ((heapify_perm _).map Node.id).trans ?_
  rw [List.map_append, map_eq_of_forall₂ (List.Forall₂.imp (fun _ _ h => h.1) hkept),
    map_eq_of_forall₂ (f := id) (List.Forall₂.imp (fun _ _ h => h.1) hadded), List.map_id]

/-- **Every node of a reinitialised model is renewed.** -/
theorem reinitialize_renewed (hb : ∀ n ∈ keptNodes c N, n.rList = c.rList)
    (h : reinitialize N L R c draws = .ok (c', draws')) : ∀ n ∈ c'.nodes, Renewed c'.rList n := by
  obtain ⟨kept, added, hnodes, hlist, hkept, hadded⟩ := reinitialize_cases h
  intro n hn
  rw [hnodes] at hn
  rw [hlist]
  rcases List.mem_append.mp ((heapify_perm _).mem_iff.mp hn) with hn | hn
  · obtain ⟨n₀, hn₀, -, hr⟩ := exists_of_forall₂ hkept n hn
    rwa [hb n₀ hn₀] at hr
  · obtain ⟨i, -, -, hr⟩ := exists_of_forall₂ hadded n hn
    exact hr

theorem mem_of_mem_keptNodes (h : node ∈ keptNodes c N) : node ∈ c.nodes := by
  unfold keptNodes at h
  split at h
  · split_ifs at h
    · unfold sliceTo at h
      split_ifs at h <;> exact List.mem_of_mem_take h
    · exact h
  · exact h

/-- The condition on a reinitialisation: where the list of nodes is cut, the nodes that come first
in it are those with the first ids. No number of nodes is negative. -/
def CutInOrder (c : CSMA) (N : Option ℤ) : Prop :=
  0 ≤ c.numNodes ∧ ∀ n ∈ N, 0 ≤ n ∧
    (n < c.numNodes → ∀ node ∈ c.nodes.take n.toNat, node.id < n)

/-- A list that is cut, of a model in order. -/
theorem ids_cut_iff {n : ℤ} (hc : InOrder c) (hn : 0 ≤ n) (hlt : n < c.numNodes) :
    (keptNodes c (some n)).map Node.id ++ addedIds c (some n) ~ range 0 n ↔
      ∀ node ∈ c.nodes.take n.toNat, node.id < n := by
  have hlen := hc.length
  have hkept : keptNodes c (some n) = c.nodes.take n.toNat := by
    simp only [keptNodes, if_pos hlt, sliceTo, if_pos hn]
  have hadded : addedIds c (some n) = [] := List.length_eq_zero_iff.mp (by
    rw [addedIds, range_length]
    omega)
  have htake : ((c.nodes.take n.toNat).map Node.id).Sublist (c.nodes.map Node.id) :=
    (List.take_sublist _ _).map Node.id
  rw [hkept, hadded, List.append_nil]
  constructor
  · intro hperm node hnode
    exact (mem_range.mp (hperm.mem_iff.mp (List.mem_map_of_mem hnode))).2
  · intro hcut
    -- different ids below `n`, as many as there are
    have hnodup : ((c.nodes.take n.toNat).map Node.id).Nodup :=
      (hc.ids.nodup_iff.mpr (nodup_range 0 _)).sublist htake
    have hsub : (c.nodes.take n.toNat).map Node.id ⊆ range 0 n := by
      intro i hi
      obtain ⟨node, hnode, rfl⟩ := List.mem_map.mp hi
      have hlow := mem_range.mp (hc.ids.mem_iff.mp (htake.subset hi))
      exact mem_range.mpr ⟨hlow.1, hcut node hnode⟩
    refine (List.subperm_of_subset hnodup hsub).perm_of_length_le ?_
    rw [range_length, List.length_map, List.length_take]
    omega

/-- A list to which nodes are added. -/
theorem ids_grown {n : ℤ} (hc : InOrder c) (hle : c.numNodes ≤ n) :
    (keptNodes c (some n)).map Node.id ++ addedIds c (some n) ~ range 0 n := by
  have hlen := hc.length
  have hkept : keptNodes c (some n) = c.nodes := by simp only [keptNodes, if_neg (not_lt.mpr hle)]
  rw [hkept]
  exact (hc.ids.append_right _).trans (range_append (by omega) hle)

/-- **Which ids are kept and added** of a model in order: the first ones exactly if the list is cut
in order. -/
theorem ids_iff (hc : InOrder c) :
    (0 ≤ N.getD c.numNodes ∧
      (keptNodes c N).map Node.id ++ addedIds c N ~ range 0 (N.getD c.numNodes)) ↔
      CutInOrder c N := by
  have hlen := hc.length
  have h0 : 0 ≤ c.numNodes := by omega
  cases N with
  | none =>
    simp only [keptNodes, addedIds, Option.getD_none, List.append_nil]
    exact ⟨fun _ => ⟨h0, fun n hn => nomatch hn⟩, fun _ => ⟨h0, hc.ids⟩⟩
  | some n =>
    simp only [Option.getD_some, CutInOrder, Option.mem_def, Option.some.injEq, forall_eq', h0,
      true_and]
    refine and_congr_right fun hn => ?_
    rcases lt_or_ge n c.numNodes with hlt | hle
    · rw [ids_cut_iff hc hn hlt]
      exact ⟨fun hcut _ => hcut, fun hcut => hcut hlt⟩
    · exact iff_of_true (ids_grown hc hle) fun hlt => absurd hlt (not_lt.mpr hle)

/-- A clean model is in order. -/
theorem Clean.inOrder (h : Clean c) : InOrder c := by
  refine ⟨⟨h.heap, fun n hn => ?_⟩, h.length, h.ids, fun n hn => (h.nodes n hn).bounds⟩
  obtain ⟨r, -, h0, -⟩ := (h.nodes n hn).countDown
  exact h0

/-- With a negative number of nodes there is nothing to be clean. -/
theorem not_clean_of_neg (hneg : c.numNodes < 0)
    (h : reinitialize N L R c draws = .ok (c', draws')) : ¬ Clean c' := by
  intro hclean
  have hlen := hclean.length
  have hids := (reinitialize_ids h).length_eq
  rw [(reinitialize_spec h).2.1] at hlen
  rw [List.length_map, List.length_append, List.length_map] at hids
  cases N with
  | none =>
    simp only [Option.getD_none] at hlen
    omega
  | some n =>
    simp only [Option.getD_some, addedIds, range_length] at hlen hids
    omega

/-- **A reinitialisation leaves a clean model** exactly if it cuts in order, from a model in
order. -/
theorem clean_iff (hc : 0 ≤ c.numNodes → InOrder c)
    (h : reinitialize N L R c draws = .ok (c', draws')) : Clean c' ↔ CutInOrder c N := by
  obtain ⟨hfresh, hnum, -⟩ := reinitialize_spec h
  obtain ⟨kept, added, hnodes, -⟩ := reinitialize_cases h
  have hids := reinitialize_ids h
  rcases lt_or_ge c.numNodes 0 with hneg | h0
  · exact iff_of_false (not_clean_of_neg hneg h) fun hcut => absurd hcut.1 (not_le.mpr hneg)
  rw [← ids_iff (hc h0)]
  constructor
  · intro hclean
    have hlen := hclean.length
    rw [hnum] at hlen
    exact ⟨by omega, hids.symm.trans (hnum ▸ hclean.ids)⟩
  · rintro ⟨hpos, hperm⟩
    have hlen := (hids.trans hperm).length_eq
    rw [List.length_map, range_length] at hlen
    refine ⟨by rw [hnum]; omega, hnum ▸ hids.trans hperm, ?_, hfresh,
      hnodes ▸ heapify_isHeap _⟩
    exact reinitialize_renewed (fun n hn => (hc h0).bounds n (mem_of_mem_keptNodes hn)) h

theorem inOrder_construct (hN : 0 ≤ config.N) (h : construct config draws = .ok (c, draws')) :
    InOrder c := by
  obtain ⟨⟨nodes, draws₁⟩, hmap, h⟩ := bind_ok.mp h
  obtain ⟨rfl, -⟩ := Prod.mk.inj (Except.ok.inj h)
  have hall : List.Forall₂ (fun i n => n.id = i ∧ Renewed config.R n) (range 0 config.N) nodes :=
    mapDraws_forall₂ (fun i _ _ _ h => new_spec (i := i) h) _ _ _ _ hmap
  have hperm : heapify Node.key nodes ~ nodes := heapify_perm nodes
  have hids : nodes.map Node.id = range 0 config.N := by
    rw [map_eq_of_forall₂ (f := id) (List.Forall₂.imp (fun _ _ h => h.1) hall), List.map_id]
  have hnew : ∀ n ∈ nodes, Renewed config.R n := fun n hn => by
    obtain ⟨i, -, -, hr⟩ := exists_of_forall₂ hall n hn
    exact hr
  have hlen := congrArg List.length hids
  rw [List.length_map, range_length] at hlen
  refine ⟨nodesOk_heapify fun n hn => ?_, ?_, (hperm.map Node.id).trans (hids ▸ List.Perm.refl _),
    fun n hn => (hnew n (hperm.mem_iff.mp hn)).bounds⟩
  · obtain ⟨r, -, h0, -⟩ := (hnew n hn).countDown
    exact h0
  · simp only [hperm.length_eq]
    omega

/-- **A run leaves a model in order.** -/
theorem InOrder.simulateLoop (hc : InOrder c)
    (h : Csma.simulateLoop fuel (Run.start c draws) = .ok s) : InOrder (finish s) := by
  have hstart : HeadOk (Run.start c draws) :=
    ⟨hc.nodes, hc.length, fun _ n hn => hc.nodes.nonneg n hn⟩
  have hrun := (loopFrom_simulateLoop fuel _ (Runs.start rfl) h).1
  obtain ⟨hhead, hnum⟩ := headOk_loopFrom hstart hrun
  obtain ⟨htag, hlist⟩ := tag_loopFrom hstart hrun
  obtain ⟨hnodes, hnum'⟩ := finish_nodes s
  have hlist' : (finish s).rList = s.csma.rList := by
    unfold finish
    split_ifs <;> rfl
  have hids : s.csma.nodes.map Node.id ~ c.nodes.map Node.id := by
    have hfst := htag.map Prod.fst
    rw [List.map_map, List.map_map] at hfst
    exact hfst
  refine ⟨hnodes ▸ hhead.nodes, by rw [hnodes, hnum', hhead.length], ?_, fun n hn => ?_⟩
  · rw [hnodes, hnum', hnum]
    exact hids.trans hc.ids
  · rw [hlist', hlist]
    have hmem : n.tag ∈ c.nodes.map Node.tag :=
      htag.mem_iff.mp (List.mem_map_of_mem (hnodes ▸ hn))
    obtain ⟨n₀, hn₀, htag₀⟩ := List.mem_map.mp hmem
    exact (congrArg Prod.snd htag₀).symm.trans (hc.bounds n₀ hn₀)

/-- A call without arguments. -/
theorem simulate_again (h : simulate fuel none none none c draws = .ok (c', draws')) :
    ∃ s, simulateLoop fuel (Run.start c draws) = .ok s ∧ c' = finish s := by
  obtain ⟨⟨c₁, draws₁⟩, hprep, h⟩ := bind_ok.mp h
  obtain ⟨rfl, rfl⟩ := Prod.mk.inj (Except.ok.inj hprep)
  obtain ⟨s, hloop, h⟩ := bind_ok.mp h
  exact ⟨s, hloop, (Prod.mk.inj (Except.ok.inj h)).1.symm⟩

theorem InOrder.simulate (hc : InOrder c)
    (h : simulate fuel none none none c draws = .ok (c', draws')) : InOrder c' := by
  obtain ⟨s, hloop, rfl⟩ := simulate_again h
  exact hc.simulateLoop hloop

theorem numNodes_simulate (h : simulate fuel none none none c draws = .ok (c', draws')) :
    c'.numNodes = c.numNodes := by
  obtain ⟨s, hloop, rfl⟩ := simulate_again h
  rw [(finish_nodes s).2]
  refine Runs.invariant (I := fun s => s.csma.numNodes = c.numNodes) ?_ ?_
    (loopFrom_simulateLoop fuel _ (Runs.start rfl) hloop).1
  · rintro _ rfl
    rfl
  · exact fun s s' hnum h => (iteration_frame h.2).2.2.trans hnum

end Models

/-! ## Sequences of calls -/

/-- A reinitialisation: the model before it, the number of nodes asked for, and the model after. -/
structure Reinit where
  before : CSMA
  N : Option ℤ
  after : CSMA
  deriving DecidableEq

/-- A model that the constructor and a sequence of calls of `simulate` leave, with the
reinitialisations among them. Every call has draws of its own. -/
inductive Called : List Reinit → CSMA → Prop
  | new {config : Config} {draws draws' : Draws} {c : CSMA}
      (h : construct config draws = .ok (c, draws')) : Called [] c
  | again {rs : List Reinit} {fuel : ℕ} {draws draws' : Draws} {c c' : CSMA} (hc : Called rs c)
      (h : simulate fuel none none none c draws = .ok (c', draws')) : Called rs c'
  | anew {rs : List Reinit} {fuel : ℕ} {N L : Option ℤ} {R : Option (List ℤ)}
      {draws draws₁ draws' : Draws} {c c₁ c' : CSMA} (hc : Called rs c)
      (hargs : N.isSome ∨ L.isSome ∨ R.isSome)
      (hre : reinitialize N L R c draws = .ok (c₁, draws₁))
      (h : simulate fuel N L R c draws = .ok (c', draws')) : Called (rs ++ [⟨c, N, c₁⟩]) c'

section Calls

variable {rs : List Reinit} {c c₁ c' : CSMA} {N L : Option ℤ} {R : Option (List ℤ)} {fuel : ℕ}
  {draws draws₁ draws' : Draws}

/-- A call with arguments, in its two parts. -/
theorem simulate_anew (hargs : N.isSome ∨ L.isSome ∨ R.isSome)
    (hre : reinitialize N L R c draws = .ok (c₁, draws₁))
    (h : simulate fuel N L R c draws = .ok (c', draws')) :
    simulate fuel none none none c₁ draws₁ = .ok (c', draws') := by
  obtain ⟨⟨c₂, draws₂⟩, hprep, h⟩ := bind_ok.mp h
  rw [prepare, if_pos hargs, hre] at hprep
  obtain ⟨rfl, rfl⟩ := Prod.mk.inj (Except.ok.inj hprep)
  exact h

/-- A list of reinitialisations, one longer. -/
theorem all_clean_iff (hc : (∀ r ∈ rs, Clean r.after) → 0 ≤ c.numNodes → InOrder c)
    (hrs : (∀ r ∈ rs, Clean r.after) ↔ ∀ r ∈ rs, CutInOrder r.before r.N)
    (hre : reinitialize N L R c draws = .ok (c₁, draws₁)) :
    (∀ r ∈ rs ++ [⟨c, N, c₁⟩], Clean r.after) ↔
      ∀ r ∈ rs ++ [⟨c, N, c₁⟩], CutInOrder r.before r.N := by
  rw [List.forall_mem_append, List.forall_mem_append, List.forall_mem_singleton,
    List.forall_mem_singleton, ← hrs]
  exact and_congr_right fun hclean => clean_iff (hc hclean) hre

/-- **What a sequence of calls keeps**: after clean reinitialisations the model is in order. -/
theorem Called.spec (h : Called rs c) :
    ((∀ r ∈ rs, Clean r.after) ↔ ∀ r ∈ rs, CutInOrder r.before r.N) ∧
      ((∀ r ∈ rs, Clean r.after) → 0 ≤ c.numNodes → InOrder c) := by
  induction h with
  | @new config draws draws' c h =>
    refine ⟨by simp only [List.not_mem_nil, false_implies, implies_true], fun _ h0 => ?_⟩
    refine inOrder_construct ?_ h
    obtain ⟨⟨nodes, draws₁⟩, -, h⟩ := bind_ok.mp h
    obtain ⟨rfl, -⟩ := Prod.mk.inj (Except.ok.inj h)
    exact h0
  | again _ h ih =>
    refine ⟨ih.1, fun hclean h0 => (ih.2 hclean ?_).simulate h⟩
    rwa [numNodes_simulate h] at h0
  | anew _ hargs hre h ih =>
    refine ⟨all_clean_iff ih.2 ih.1 hre, fun hclean _ => ?_⟩
    have hlast := hclean _ (List.mem_append_right _ List.mem_cons_self)
    exact hlast.inOrder.simulate (simulate_anew hargs hre h)

/-- **A sequence of calls leaves no residue** exactly if every list of nodes that is cut starts
with the nodes that have the first ids. -/
theorem no_residue_iff (hc : Called rs c) (h : reinitialize N L R c draws = .ok (c₁, draws₁)) :
    (∀ r ∈ rs ++ [⟨c, N, c₁⟩], Clean r.after) ↔
      ∀ r ∈ rs ++ [⟨c, N, c₁⟩], CutInOrder r.before r.N :=
  all_clean_iff hc.spec.2 hc.spec.1 h

/-- A fourth node for `threeNodes`. -/
theorem no_residue_iff_threeNodes :
    ∃ p, reinitialize (some 4) none none threeNodes [0, 1, 2, 3] = .ok p ∧ Clean p.1 := by
  have hcon : construct ⟨3, 2, [3], 0, 3⟩ [0, 1, 3] = .ok (threeNodes, []) := rfl
  obtain ⟨p, hre⟩ : ∃ p, reinitialize (some 4) none none threeNodes [0, 1, 2, 3] = .ok p :=
    ⟨_, rfl⟩
  have hcut : CutInOrder threeNodes (some 4) := by
    refine ⟨by decide, fun n hn => ?_⟩
    obtain rfl := Option.some.inj hn
    exact ⟨by decide, fun hlt => absurd hlt (by decide)⟩
  refine ⟨p, hre, (no_residue_iff (.new hcon) hre).mpr (fun r hr => ?_) ⟨threeNodes, some 4, p.1⟩
    List.mem_cons_self⟩
  obtain rfl := List.mem_singleton.mp hr
  exact hcut

/-- Of four nodes the last one has the shortest countdown. It is the first in heap order, and kept
when three are asked for. -/
theorem residue_left : ¬ ∀ rs c, Called rs c → ∀ r ∈ rs, Clean r.after := by
  intro hall
  obtain ⟨⟨c, draws⟩, hcon⟩ : ∃ p, construct ⟨4, 1, [3], 0, 1⟩ [3, 3, 3, 0] = .ok p := ⟨_, rfl⟩
  obtain ⟨⟨c₁, draws₁⟩, hre⟩ : ∃ p, reinitialize (some 3) none none c [2, 2, 2] = .ok p := by
    obtain ⟨rfl, -⟩ := Prod.mk.inj (Except.ok.inj hcon)
    exact ⟨_, rfl⟩
  obtain ⟨⟨c', draws'⟩, hsim⟩ : ∃ p, simulate 1 (some 3) none none c [2, 2, 2] = .ok p := by
    obtain ⟨rfl, -⟩ := Prod.mk.inj (Except.ok.inj hcon)
    exact ⟨_, rfl⟩
  have hclean : Clean c₁ := hall _ _ (.anew (.new hcon) (by decide) hre hsim) ⟨c, some 3, c₁⟩
    List.mem_cons_self
  have hmem : 3 ∈ c₁.nodes.map Node.id ∧ c₁.numNodes = 3 := by
    obtain ⟨rfl, -⟩ := Prod.mk.inj (Except.ok.inj hcon)
    obtain ⟨rfl, -⟩ := Prod.mk.inj (Except.ok.inj hre)
    exact ⟨by decide, rfl⟩
  have hlt := (mem_range.mp (hclean.ids.mem_iff.mp hmem.1)).2
  exact absurd hmem.2 hlt.ne'

end Calls

end NetworkingLearning.Csma
