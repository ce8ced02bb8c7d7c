import NetworkingLearning.Routing.DistanceVector

/-!
# How a node takes the vectors of its neighbours (`distvec.cpp:98-123`)

`update_distance_and_forwarding_table`, for one node. `Took` relates the node before and after any
number of offers `(destination, sender, distance)`: what it keeps, what it takes, and that every
change makes progress. Runs of the two nested loops compose it (`Took.trans`), so the order of the
vectors and of their entries plays no part.

* `NodeOk` is the invariant of a node: it has a distance for every node of the graph, none of them
  negative and its own `0`, and a next hop for every distance below `INT_MAX`.
* The comparison (`distvec.cpp:108`) would insert a missing distance as `0`. All destinations that
  are offered are nodes of the graph, so none is missing.

Results:
* `takeEntry_spec`: one entry, under the node invariant `NodeOk`; the sum is within `int`.
* `update_spec`: the whole of `update_distance_and_forwarding_table`, which clears
  `updates_from_nei` and leaves `be_updated` set only if the node made progress. Progress is
  measured by `weight`, a number: distances first, then next hops.
-/

namespace NetworkingLearning.Routing.DistanceVector

open NetworkingLearning.Machine NetworkingLearning.Paths

/-- The distance of a node, `INT_MAX` for a missing entry. -/
def Node.label (n : Node) (x : ℤ) : ℤ := (n.distanceToThatNode.lookup x).getD intMax

@[simp] theorem Node.label_of_lookup {n : Node} {x d : ℤ}
    (h : n.distanceToThatNode.lookup x = some d) : n.label x = d := by
  rw [Node.label, h, Option.getD_some]

/-- What the node with key `u` keeps, in the topology `T`. -/
structure NodeOk (T : Topology) (u : ℤ) (n : Node) : Prop where
  id : n.id = u
  keys : ∀ x, x ∈ n.distanceToThatNode ↔ x ∈ T.nodes
  self : n.distanceToThatNode.lookup u = some 0
  range : ∀ x d, n.distanceToThatNode.lookup x = some d → 0 ≤ d ∧ d ≤ intMax
  hop : ∀ x, x ≠ u → n.label x < intMax → x ∈ n.forwardingTable
  hops : ∀ x f, n.forwardingTable.lookup x = some f → f = 0 ∨ f ∈ T.nodes
  hop_self : n.forwardingTable.lookup u = some u

section Weight

variable (T : Topology)

/-- The number of next hops that are less than `f`. -/
def hopRank (f : ℤ) : ℕ := ((insert 0 T.nodes).filter (· < f)).card

/-- The weight of one entry. -/
def entryWeight (n : Node) (x : ℤ) : ℕ :=
  (n.label x).toNat * (T.nodes.card + 2) + hopRank T (valueAt n.forwardingTable x)

/-- The weight of a node: what an update lowers. -/
def weight (n : Node) : ℕ := ∑ x ∈ T.nodes, entryWeight T n x

variable {T}

theorem hopRank_le (f : ℤ) : hopRank T f ≤ T.nodes.card + 1 :=
  (Finset.card_filter_le _ _).trans (Finset.card_insert_le 0 T.nodes)

/-- A smaller next hop ranks lower. -/
theorem hopRank_lt {k f : ℤ} (hk : k ∈ T.nodes) (h : k < f) : hopRank T k < hopRank T f := by
  refine Finset.card_lt_card ⟨fun x hx => ?_, fun hsub => ?_⟩
  · obtain ⟨hx, hlt⟩ := Finset.mem_filter.mp hx
    exact Finset.mem_filter.mpr ⟨hx, hlt.trans h⟩
  · have hmem := hsub (Finset.mem_filter.mpr ⟨Finset.mem_insert_of_mem hk, h⟩)
    exact lt_irrefl k (Finset.mem_filter.mp hmem).2

/-- Only what the entries read as matters. -/
theorem weight_congr {n n' : Node} (h : ∀ y, n'.label y = n.label y ∧
    valueAt n'.forwardingTable y = valueAt n.forwardingTable y) : weight T n' = weight T n := by
  refine Finset.sum_congr rfl fun y _ => ?_
  rw [entryWeight, (h y).1, (h y).2, entryWeight]

/-- Lowering one entry lowers the weight. -/
theorem weight_lt {n n' : Node} {x : ℤ} (hx : x ∈ T.nodes)
    (hlt : entryWeight T n' x < entryWeight T n x)
    (hother : ∀ y, y ≠ x → n'.label y = n.label y ∧
      n'.forwardingTable.lookup y = n.forwardingTable.lookup y) : weight T n' < weight T n := by
  refine Finset.sum_lt_sum (fun y _ => ?_) ⟨x, hx, hlt⟩
  by_cases hy : y = x
  · exact hy ▸ hlt.le
  · obtain ⟨h1, h2⟩ := hother y hy
    unfold entryWeight valueAt
    rw [h1, h2]

end Weight

/-- `Took T u Off st st'`: the node `u` and its `is_changed` flag before and after it has looked at
the offers `Off x n d` (from the sender `n`, of the distance `d` to `x`). An offer of `INT_MAX`, or
more, may change the next hop of a node that is not reached, which nothing reads. -/
structure Took (T : Topology) (u : ℤ) (Off : ℤ → ℤ → ℤ → Prop) (st st' : Node × Bool) : Prop where
  links : st'.1.links = st.1.links
  ok : NodeOk T u st'.1
  taken : ∀ x, (st'.1.label x = st.1.label x ∧ (st.1.label x < intMax →
      st'.1.forwardingTable.lookup x = st.1.forwardingTable.lookup x)) ∨
    ∃ n d, Off x n d ∧ d < intMax ∧ st'.1.forwardingTable.lookup x = some n ∧
      st'.1.label x = d ∧ st'.1.label x ≤ st.1.label x
  offered : ∀ x n d, Off x n d → st'.1.label x ≤ d ∧ (st'.1.label x < intMax →
    st'.1.label x = d → ∃ f, st'.1.forwardingTable.lookup x = some f ∧ f ≤ n)
  older : ∀ x f, st'.1.label x = st.1.label x → st.1.forwardingTable.lookup x = some f →
    ∃ f', st'.1.forwardingTable.lookup x = some f' ∧ f' ≤ f
  progress : (st'.2 = st.2 ∧ weight T st'.1 = weight T st.1 ∧
      ∀ x, st'.1.label x = st.1.label x) ∨
    (st'.2 = true ∧ weight T st'.1 < weight T st.1)

section Took

variable {T : Topology} {u : ℤ} {Off Off' : ℤ → ℤ → ℤ → Prop} {st st' st'' : Node × Bool}

theorem Took.mono (h : Took T u Off st st') (x : ℤ) : st'.1.label x ≤ st.1.label x := by
  rcases h.taken x with ⟨h, -⟩ | ⟨_, _, -, -, -, -, h⟩
  · exact h.le
  · exact h

theorem Took.refl (hok : NodeOk T u st.1) (hoff : ∀ x n d, ¬ Off x n d) : Took T u Off st st where
  links := rfl
  ok := hok
  taken _ := Or.inl ⟨rfl, fun _ => rfl⟩
  offered x n d h := absurd h (hoff x n d)
  older _ f _ h := ⟨f, h, le_refl f⟩
  progress := Or.inl ⟨rfl, rfl, fun _ => rfl⟩

theorem Took.trans (h : Took T u Off st st') (h' : Took T u Off' st' st'') :
    Took T u (fun x n d => Off x n d ∨ Off' x n d) st st'' where
  links := h'.links.trans h.links
  ok := h'.ok
  taken x := by
    rcases h'.taken x with ⟨hL, hF⟩ | ⟨n, d, ho, hd, hF, hL, hle⟩
    · rcases h.taken x with ⟨hL1, hF1⟩ | ⟨n, d, ho, hd, hF1, hL1, hle⟩
      · exact Or.inl ⟨hL.trans hL1, fun hlt => (hF (hL1 ▸ hlt)).trans (hF1 hlt)⟩
      · exact Or.inr ⟨n, d, Or.inl ho, hd, (hF (hL1 ▸ hd)).trans hF1, hL.trans hL1, hL ▸ hle⟩
    · exact Or.inr ⟨n, d, Or.inr ho, hd, hF, hL, hle.trans (h.mono x)⟩
  offered x n d ho := by
    rcases ho with ho | ho
    · obtain ⟨hle, hleast⟩ := h.offered x n d ho
      have hm := h'.mono x
      refine ⟨hm.trans hle, fun hlt he => ?_⟩
      obtain ⟨f, hf, hfn⟩ := hleast (by omega) (by omega)
      obtain ⟨f', hf', hff⟩ := h'.older x f (by omega) hf
      exact ⟨f', hf', hff.trans hfn⟩
    · exact h'.offered x n d ho
  older x f hL hf := by
    have hm := h.mono x
    have hm' := h'.mono x
    obtain ⟨f', hf', hff⟩ := h.older x f (by omega) hf
    obtain ⟨f'', hf'', hff'⟩ := h'.older x f' (by omega) hf'
    exact ⟨f'', hf'', hff'.trans hff⟩
  progress := by
    rcases h.progress with ⟨hb, hw, hL⟩ | ⟨hb, hw⟩
    · rcases h'.progress with ⟨hb', hw', hL'⟩ | ⟨hb', hw'⟩
      · exact Or.inl ⟨hb'.trans hb, hw'.trans hw, fun x => (hL' x).trans (hL x)⟩
      · exact Or.inr ⟨hb', hw'.trans_eq hw⟩
    · rcases h'.progress with ⟨hb', hw', -⟩ | ⟨hb', hw'⟩
      · exact Or.inr ⟨hb'.trans hb, hw'.trans_lt hw⟩
      · exact Or.inr ⟨hb', hw'.trans hw⟩

theorem Took.congr (h : Took T u Off st st') (hoff : ∀ x n d, Off x n d ↔ Off' x n d) :
    Took T u Off' st st' := by
  obtain rfl : Off = Off' := funext fun x => funext fun n => funext fun d => propext (hoff x n d)
  exact h

/-- A loop takes what its passes take. -/
theorem foldlM_took {α : Type} (f : Node × Bool → α → Option (Node × Bool)) (links : Links)
    (Off : α → ℤ → ℤ → ℤ → Prop) : ∀ (l : List α),
      (∀ a ∈ l, ∀ st : Node × Bool, NodeOk T u st.1 → st.1.links = links →
        ∃ st', f st a = some st' ∧ Took T u (Off a) st st') →
      ∀ st : Node × Bool, NodeOk T u st.1 → st.1.links = links →
        ∃ st', l.foldlM f st = some st' ∧ Took T u (fun x n d => ∃ a ∈ l, Off a x n d) st st' := by
  intro l
  induction l with
  | nil =>
    intro _ st hok _
    refine ⟨st, rfl, Took.refl hok fun x n d => ?_⟩
    rintro ⟨a, ha, -⟩
    exact absurd ha List.not_mem_nil
  | cons a l ih =>
    intro hstep st hok hl
    obtain ⟨st1, h1, ht1⟩ := hstep a List.mem_cons_self st hok hl
    obtain ⟨st', h', ht'⟩ := ih (fun b hb => hstep b (List.mem_cons_of_mem a hb)) st1 ht1.ok
      (ht1.links.trans hl)
    refine ⟨st', by rw [List.foldlM_cons, h1]; exact h', (ht1.trans ht').congr fun x n d => ?_⟩
    simp only [List.mem_cons, exists_eq_or_imp]

end Took

/-! ## One entry -/

section Entry

variable {T : Topology} {u : ℤ} {st : Node × Bool} {nei w x given : ℤ}

theorem NodeOk.lookup_label {n : Node} (h : NodeOk T u n) (hx : x ∈ T.nodes) :
    n.distanceToThatNode.lookup x = some (n.label x) := by
  obtain ⟨d, hd⟩ := lookup_of_mem ((h.keys x).mpr hx)
  rw [hd, Node.label_of_lookup hd]

/-- The node with the distances `dist` and the next hop `nei` for `x`. -/
def Node.set (n : Node) (dist : IntMap ℤ) (x nei : ℤ) : Node :=
  { n with distanceToThatNode := dist, forwardingTable := n.forwardingTable.insert x nei }

/-- The new distances hold `d` for `x` and are the old ones elsewhere. -/
def SetsTo (n : Node) (dist : IntMap ℤ) (x d : ℤ) : Prop :=
  ∀ y, dist.lookup y = if y = x then some d else n.distanceToThatNode.lookup y

section Set

variable {n : Node} {dist : IntMap ℤ} {d : ℤ}

theorem setsTo_insert : SetsTo n (n.distanceToThatNode.insert x d) x d := by
  intro y
  split
  · rename_i hy
    rw [hy, AList.lookup_insert]
  · rename_i hy
    exact AList.lookup_insert_ne hy

theorem setsTo_self (h : n.distanceToThatNode.lookup x = some d) :
    SetsTo n n.distanceToThatNode x d := by
  intro y
  split
  · rename_i hy
    rw [hy, h]
  · rfl

theorem SetsTo.label (h : SetsTo n dist x d) : (n.set dist x nei).label x = d := by
  simp [Node.label, Node.set, h x]

@[simp] theorem Node.set_hop : (n.set dist x nei).forwardingTable.lookup x = some nei :=
  AList.lookup_insert _

theorem SetsTo.other (h : SetsTo n dist x d) (nei : ℤ) : ∀ y, y ≠ x →
    (n.set dist x nei).label y = n.label y ∧
      (n.set dist x nei).forwardingTable.lookup y = n.forwardingTable.lookup y :=
  fun y hy => ⟨by simp [Node.label, Node.set, h y, hy], AList.lookup_insert_ne hy⟩

theorem NodeOk.set (h : NodeOk T u n) (hx : x ∈ T.nodes) (hxu : x ≠ u) (hnei : nei ∈ T.nodes)
    (h0 : 0 ≤ d) (hd : d < intMax) (hdist : SetsTo n dist x d) :
    NodeOk T u (n.set dist x nei) where
  id := h.id
  keys y := by
    rw [← h.keys y, ← AList.lookup_isSome, ← AList.lookup_isSome]
    by_cases hy : y = x
    · subst hy
      obtain ⟨e, he⟩ := lookup_of_mem ((h.keys y).mpr hx)
      simp [Node.set, hdist y, he]
    · simp [Node.set, hdist y, hy]
  self := by
    simp only [Node.set, hdist u, hxu.symm, if_false]
    exact h.self
  range y e hy := by
    simp only [Node.set, hdist y] at hy
    split at hy
    · exact Option.some.inj hy ▸ ⟨h0, hd.le⟩
    · exact h.range y e hy
  hop y hyu hlt := by
    by_cases hy : y = x
    · exact AList.lookup_isSome.mp (by rw [hy, Node.set_hop]; rfl)
    · obtain ⟨hlabel, hhop⟩ := hdist.other nei y hy
      rw [hlabel] at hlt
      rw [← AList.lookup_isSome, hhop, AList.lookup_isSome]
      exact h.hop y hyu hlt
  hops y f hf := by
    by_cases hy : y = x
    · subst hy
      rw [Node.set_hop] at hf
      exact Or.inr (Option.some.inj hf ▸ hnei)
    · rw [(hdist.other nei y hy).2] at hf
      exact h.hops y f hf
  hop_self := by
    rw [(hdist.other nei u hxu.symm).2]
    exact h.hop_self

/-- The distance weighs more than any next hop. -/
theorem SetsTo.entryWeight_lt (hdist : SetsTo n dist x d) (hnei : nei ∈ T.nodes) (h0 : 0 ≤ d)
    (hbetter : d < n.label x ∨ (d = n.label x ∧ nei < valueAt n.forwardingTable x)) :
    entryWeight T (n.set dist x nei) x < entryWeight T n x := by
  have hrank := hopRank_le (T := T) nei
  unfold entryWeight
  rw [hdist.label, valueAt_of_lookup Node.set_hop]
  rcases hbetter with hb | ⟨hb, hf⟩
  · have h1 : d.toNat + 1 ≤ (n.label x).toNat := by omega
    have h2 := Nat.mul_le_mul_right (T.nodes.card + 2) h1
    rw [Nat.add_mul, one_mul] at h2
    omega
  · have := hopRank_lt hnei hf
    rw [hb]
    omega

end Set

/-- Taking an offer for `x`: a smaller distance, or an equal one from a smaller sender. -/
theorem Took.take (h : NodeOk T u st.1) (hx : x ∈ T.nodes) (hxu : x ≠ u) (hnei : nei ∈ T.nodes)
    {d : ℤ} (h0 : 0 ≤ d) (hd : d < intMax)
    (hbetter : d < st.1.label x ∨ (d = st.1.label x ∧ nei < valueAt st.1.forwardingTable x))
    {dist : IntMap ℤ} (hdist : SetsTo st.1 dist x d) :
    Took T u (fun y n e => y = x ∧ n = nei ∧ e = d) st (st.1.set dist x nei, true) := by
  have hle : d ≤ st.1.label x := by omega
  have hx' : (st.1.set dist x nei).label x = d := hdist.label
  have hne := hdist.other nei
  constructor
  · rfl
  · exact h.set hx hxu hnei h0 hd hdist
  · intro y
    by_cases hy : y = x
    · subst hy
      exact Or.inr ⟨nei, d, ⟨rfl, rfl, rfl⟩, hd, Node.set_hop, hx', hx'.le.trans hle⟩
    · exact Or.inl ⟨(hne y hy).1, fun _ => (hne y hy).2⟩
  · rintro y n e ⟨rfl, rfl, rfl⟩
    exact ⟨hx'.le, fun _ _ => ⟨n, Node.set_hop, le_refl n⟩⟩
  · intro y f hL hf
    by_cases hy : y = x
    · subst hy
      simp only [hx'] at hL
      rcases hbetter with hb | ⟨-, hb⟩
      · omega
      · rw [valueAt_of_lookup hf] at hb
        exact ⟨nei, Node.set_hop, hb.le⟩
    · exact ⟨f, by rw [(hne y hy).2, hf], le_refl f⟩
  · exact Or.inr ⟨rfl, weight_lt hx (hdist.entryWeight_lt hnei h0 hbetter) hne⟩

/-- Leaving an offer for `x`. -/
theorem Took.leave (h : NodeOk T u st.1) {d : ℤ} (hle : st.1.label x ≤ d)
    (hleast : st.1.label x < intMax → st.1.label x = d →
      ∃ f, st.1.forwardingTable.lookup x = some f ∧ f ≤ nei) :
    Took T u (fun y n e => y = x ∧ n = nei ∧ e = d) st st where
  links := rfl
  ok := h
  taken _ := Or.inl ⟨rfl, fun _ => rfl⟩
  offered := by
    rintro y n e ⟨rfl, rfl, rfl⟩
    exact ⟨hle, hleast⟩
  older _ f _ hf := ⟨f, hf, le_refl f⟩
  progress := Or.inl ⟨rfl, rfl, fun _ => rfl⟩

/-- The node with another forwarding table. -/
def Node.rehop (n : Node) (fwd : IntMap ℤ) : Node := { n with forwardingTable := fwd }

/-- An offer of `INT_MAX` for a node that is not reached changes its next hop at most, to a smaller
one. -/
theorem Took.unreached (h : NodeOk T u st.1) (hx : x ∈ T.nodes) (htop : st.1.label x = intMax)
    {fwd : IntMap ℤ} {b : Bool}
    (hother : ∀ y, y ≠ x → fwd.lookup y = st.1.forwardingTable.lookup y)
    (hvalue : ∀ f, fwd.lookup x = some f → f = 0 ∨ f ∈ T.nodes)
    (holder : ∀ f, st.1.forwardingTable.lookup x = some f → ∃ f', fwd.lookup x = some f' ∧ f' ≤ f)
    (hprogress : (b = st.2 ∧ valueAt fwd x = valueAt st.1.forwardingTable x) ∨
      (b = true ∧ hopRank T (valueAt fwd x) < hopRank T (valueAt st.1.forwardingTable x))) :
    Took T u (fun y n e => y = x ∧ n = nei ∧ e = intMax) st (st.1.rehop fwd, b) := by
  have hlab : ∀ y, (st.1.rehop fwd).label y = st.1.label y := fun _ => rfl
  constructor
  · rfl
  · refine ⟨h.id, h.keys, h.self, h.range, fun y hyu hlt => ?_, fun y f hf => ?_, ?_⟩
    · have hyx : y ≠ x := by
        rintro rfl
        rw [hlab, htop] at hlt
        exact absurd hlt (lt_irrefl _)
      have hmem := h.hop y hyu hlt
      rw [← AList.lookup_isSome] at hmem ⊢
      rw [Node.rehop, hother y hyx]
      exact hmem
    · by_cases hyx : y = x
      · exact hvalue f (hyx ▸ hf)
      · exact h.hops y f ((hother y hyx).symm.trans hf)
    · have hux : u ≠ x := by
        rintro rfl
        rw [Node.label_of_lookup h.self] at htop
        exact absurd htop (by decide)
      exact (hother u hux).trans h.hop_self
  · intro y
    refine Or.inl ⟨hlab y, fun hlt => hother y ?_⟩
    rintro rfl
    exact absurd htop hlt.ne
  · rintro y n e ⟨rfl, rfl, rfl⟩
    exact ⟨htop.le, fun hlt _ => absurd htop hlt.ne⟩
  · intro y f _ hf
    by_cases hyx : y = x
    · exact hyx ▸ holder f (hyx ▸ hf)
    · exact ⟨f, (hother y hyx).trans hf, le_refl f⟩
  · rcases hprogress with ⟨hb, hv⟩ | ⟨hb, hv⟩
    · refine Or.inl ⟨hb, weight_congr fun y => ⟨rfl, ?_⟩, hlab⟩
      by_cases hyx : y = x
      · exact hyx ▸ hv
      · rw [valueAt, Node.rehop, hother y hyx, valueAt]
    · refine Or.inr ⟨hb, weight_lt hx ?_ fun y hyx => ⟨rfl, hother y hyx⟩⟩
      unfold entryWeight
      rw [hlab]
      exact Nat.add_lt_add_left hv _

/-- No offer for the node itself is as good as its own entry. -/
theorem NodeOk.ne_self (h : NodeOk T u st.1) (hpos : 0 < st.1.label x) : x ≠ u := by
  rintro rfl
  rw [Node.label_of_lookup h.self] at hpos
  exact lt_irrefl 0 hpos

/-- An entry whose sum is below `INT_MAX`. -/
theorem takeEntry_lt (h : NodeOk T u st.1) (hx : x ∈ T.nodes) (hnei : nei ∈ T.nodes)
    (hw : st.1.links.edges.lookup nei = some w) (hw0 : 0 < w) (hg0 : 0 ≤ given)
    (hd : w + given < intMax) :
    ∃ st', takeEntry nei st ⟨x, given⟩ = some st' ∧
      Took T u (fun y n d => y = x ∧ n = nei ∧ d = w + given) st st' := by
  have hd0 : 0 ≤ w + given := by omega
  have hL := h.lookup_label hx
  have hadd : addInt w given = w + given := addInt_of_le (by omega) hd.le
  unfold takeEntry
  simp only [hw, Option.bind_eq_bind, Option.bind_some]
  rw [if_neg (by omega)]
  simp only [hadd, touch_of_mem ((h.keys x).mpr hx), valueAt_of_lookup hL]
  by_cases hgt : st.1.label x > w + given
  · rw [if_pos hgt]
    have hxu : x ≠ u := h.ne_self (by omega)
    exact ⟨_, rfl, Took.take h hx hxu hnei hd0 hd (Or.inl hgt) setsTo_insert⟩
  · rw [if_neg hgt]
    by_cases heq : st.1.label x = w + given
    · have hxu : x ≠ u := h.ne_self (by omega)
      have hmem := h.hop x hxu (by omega)
      obtain ⟨f, hf⟩ := lookup_of_mem hmem
      rw [if_pos heq]
      simp only [touch_of_mem hmem, valueAt_of_lookup hf]
      by_cases hfn : f > nei
      · rw [if_pos hfn]
        have hbetter : w + given = st.1.label x ∧ nei < valueAt st.1.forwardingTable x :=
          ⟨heq.symm, by rw [valueAt_of_lookup hf]; exact hfn⟩
        exact ⟨_, rfl, Took.take h hx hxu hnei hd0 hd (Or.inr hbetter)
          (setsTo_self (heq ▸ hL))⟩
      · rw [if_neg hfn]
        exact ⟨st, rfl, Took.leave h heq.le fun _ _ => ⟨f, hf, not_lt.mp hfn⟩⟩
    · rw [if_neg heq]
      exact ⟨st, rfl, Took.leave h (not_lt.mp hgt) fun _ e => absurd e heq⟩

/-- An entry whose sum is `INT_MAX`: a tie with the nodes not reached. -/
theorem takeEntry_top (h : NodeOk T u st.1) (hx : x ∈ T.nodes) (hnei : nei ∈ T.nodes)
    (hw : st.1.links.edges.lookup nei = some w) (hwm : w < intMax) (hgm : given < intMax)
    (hd : w + given = intMax) :
    ∃ st', takeEntry nei st ⟨x, given⟩ = some st' ∧
      Took T u (fun y n d => y = x ∧ n = nei ∧ d = intMax) st st' := by
  have hL := h.lookup_label hx
  obtain ⟨-, hle⟩ := h.range x _ hL
  have hadd : addInt w given = intMax := by
    rw [addInt_of_le (hd ▸ by decide) hd.le, hd]
  unfold takeEntry
  simp only [hw, Option.bind_eq_bind, Option.bind_some]
  rw [if_neg (by omega)]
  simp only [hadd, touch_of_mem ((h.keys x).mpr hx), valueAt_of_lookup hL, valueAt_touch]
  rw [if_neg (not_lt.mpr hle)]
  by_cases htop : st.1.label x = intMax
  · rw [if_pos htop]
    have hother : ∀ y, y ≠ x →
        (touch st.1.forwardingTable x).lookup y = st.1.forwardingTable.lookup y :=
      fun y hy => lookup_touch_ne hy
    by_cases hgt : valueAt st.1.forwardingTable x > nei
    · rw [if_pos hgt]
      refine ⟨_, rfl, Took.unreached h hx htop (fun y hy => ?_) (fun f hf => ?_) (fun f hf => ?_)
        (Or.inr ⟨rfl, ?_⟩)⟩
      · rw [AList.lookup_insert_ne hy, hother y hy]
      · rw [AList.lookup_insert] at hf
        exact Or.inr (Option.some.inj hf ▸ hnei)
      · rw [valueAt_of_lookup hf] at hgt
        exact ⟨nei, AList.lookup_insert _, hgt.le⟩
      · rw [valueAt_of_lookup (AList.lookup_insert _)]
        exact hopRank_lt hnei hgt
    · rw [if_neg hgt]
      refine ⟨_, rfl, Took.unreached h hx htop hother (fun f hf => ?_) (fun f hf => ?_)
        (Or.inl ⟨rfl, valueAt_touch _ x x⟩)⟩
      · rcases touch_cases hf with h0 | hf
        · exact Or.inl h0
        · exact h.hops x f hf
      · exact ⟨f, lookup_touch hf x, le_refl f⟩
  · rw [if_neg htop]
    exact ⟨st, rfl, Took.leave h hle fun _ e => absurd e htop⟩

/-- **One entry of the vector of `nei`.** -/
theorem takeEntry_spec (h : NodeOk T u st.1) (hx : x ∈ T.nodes) (hnei : nei ∈ T.nodes)
    (hw : st.1.links.edges.lookup nei = some w) (hw0 : 0 < w) (hwm : w ≤ intMax)
    (hg0 : 0 ≤ given) (hgm : given ≤ intMax)
    (hsum : given < intMax → w < intMax → w + given ≤ intMax) :
    ∃ st', takeEntry nei st ⟨x, given⟩ = some st' ∧
      Took T u (fun y n d => y = x ∧ n = nei ∧ given < intMax ∧ d = w + given) st st' := by
  have hskip : w = intMax ∨ given = intMax → takeEntry nei st ⟨x, given⟩ = some st := fun hm => by
    unfold takeEntry
    simp only [hw, Option.bind_eq_bind, Option.bind_some]
    rw [if_pos hm]
  rcases lt_or_eq_of_le hgm with hlt | hg
  · have hoff : ∀ y n d, (y = x ∧ n = nei ∧ d = w + given) ↔
        (y = x ∧ n = nei ∧ given < intMax ∧ d = w + given) := fun y n d => by
      simp only [hlt, true_and]
    rcases lt_or_eq_of_le hwm with hwlt | hwtop
    · rcases lt_or_eq_of_le (hsum hlt hwlt) with hd | hd
      · obtain ⟨st', h1, ht⟩ := takeEntry_lt h hx hnei hw hw0 hg0 hd
        exact ⟨st', h1, ht.congr hoff⟩
      · obtain ⟨st', h1, ht⟩ := takeEntry_top h hx hnei hw hwlt hlt hd
        exact ⟨st', h1, ht.congr fun y n d => by rw [← hoff, hd]⟩
    · have hle := (h.range x _ (h.lookup_label hx)).2
      exact ⟨st, hskip (Or.inl hwtop),
        (Took.leave h (by omega) fun hl he => by omega).congr hoff⟩
  · refine ⟨st, hskip (Or.inr hg), Took.refl h ?_⟩
    rintro y n d ⟨-, -, hlt, -⟩
    omega

end Entry

/-! ## All vectors -/

/-- The vector `msg` is one the node `u` may add a link cost to. -/
structure MsgOk (T : Topology) (links : Links) (msg : ℤ × IntMap ℤ) : Prop where
  sender : msg.1 ∈ T.nodes
  edge : ∃ w, links.edges.lookup msg.1 = some w ∧ 0 < w ∧ w ≤ intMax ∧
    ∀ x g, msg.2.lookup x = some g → g < intMax → w < intMax → w + g ≤ intMax
  range : ∀ x g, msg.2.lookup x = some g → x ∈ T.nodes ∧ 0 ≤ g ∧ g ≤ intMax

/-- What the vector `msg` offers along the link to its sender. -/
def Offer (links : Links) (msg : ℤ × IntMap ℤ) (x n d : ℤ) : Prop :=
  n = msg.1 ∧ ∃ w g, links.edges.lookup n = some w ∧ msg.2.lookup x = some g ∧ g < intMax ∧
    d = w + g

section Update

variable {T : Topology} {u : ℤ} (ord : IterOrder (ℕ × ℤ × ℕ)) (round : ℕ)

/-- **One vector**, in whatever order its entries are looked at. -/
theorem takeVector_spec {st : Node × Bool} {msg : (ℤ × IntMap ℤ) × ℕ} (h : NodeOk T u st.1)
    (hmsg : MsgOk T st.1.links msg.1) :
    ∃ st', takeVector ord round st msg = some st' ∧ Took T u (Offer st.1.links msg.1) st st' := by
  obtain ⟨w, hw, hw0, hwm, hsum⟩ := hmsg.edge
  have hperm := ord.perm (round, st.1.id, msg.2) msg.1.2.entries
  have hmem : ∀ e : Σ _ : ℤ, ℤ, e ∈ ord.order (round, st.1.id, msg.2) msg.1.2.entries ↔
      msg.1.2.lookup e.1 = some e.2 := fun e =>
    hperm.mem_iff.trans (AList.mem_lookup_iff (s := msg.1.2)).symm
  obtain ⟨st', hf, ht⟩ := foldlM_took (takeEntry msg.1.1) st.1.links
    (fun e y n d => y = e.1 ∧ n = msg.1.1 ∧ e.2 < intMax ∧ d = w + e.2)
    (ord.order (round, st.1.id, msg.2) msg.1.2.entries)
    (fun e he s hs hl => by
      obtain ⟨hx, hg0, hgm⟩ := hmsg.range e.1 e.2 ((hmem e).mp he)
      exact takeEntry_spec hs hx hmsg.sender (by rw [hl]; exact hw) hw0 hwm hg0 hgm
        (hsum e.1 e.2 ((hmem e).mp he)))
    st h rfl
  refine ⟨st', hf, ht.congr fun x n d => ?_⟩
  constructor
  · rintro ⟨e, he, rfl, rfl, hlt, rfl⟩
    exact ⟨rfl, w, e.2, hw, (hmem e).mp he, hlt, rfl⟩
  · rintro ⟨rfl, w', g, hw', hg, hlt, rfl⟩
    obtain rfl := Option.some.inj (hw.symm.trans hw')
    exact ⟨⟨x, g⟩, (hmem ⟨x, g⟩).mpr hg, rfl, rfl, hlt, rfl⟩

/-- **`update_distance_and_forwarding_table`.** -/
theorem update_spec {n : Node} (h : NodeOk T u n)
    (hmsgs : ∀ msg ∈ n.updatesFromNei, MsgOk T n.links msg) :
    ∃ st', n.update ord round =
        some ({ st'.1 with updatesFromNei := [], beUpdated := st'.2 }, st'.2) ∧
      Took T u (fun x m d => ∃ msg ∈ n.updatesFromNei, Offer n.links msg x m d) (n, false) st' := by
  have hfst : ∀ msg, (∃ i, (msg, i) ∈ n.updatesFromNei.zipIdx) ↔ msg ∈ n.updatesFromNei := by
    intro msg
    rw [List.mem_iff_getElem?]
    exact exists_congr fun i => List.mk_mem_zipIdx_iff_getElem?
  obtain ⟨st', hf, ht⟩ := foldlM_took (takeVector ord round) n.links
    (fun msg => Offer n.links msg.1) n.updatesFromNei.zipIdx
    (fun msg hm s hs hl => by
      have hok := hmsgs msg.1 ((hfst msg.1).mp ⟨msg.2, hm⟩)
      rw [← hl] at hok ⊢
      exact takeVector_spec ord round hs hok)
    (n, false) h rfl
  refine ⟨st', by unfold Node.update; simp only [hf, Option.bind_eq_bind, Option.bind_some],
    ht.congr fun x m d => ?_⟩
  constructor
  · rintro ⟨⟨msg, i⟩, hm, ho⟩
    exact ⟨msg, (hfst msg).mp ⟨i, hm⟩, ho⟩
  · rintro ⟨msg, hm, ho⟩
    obtain ⟨i, hi⟩ := (hfst msg).mpr hm
    exact ⟨(msg, i), hi, ho⟩

end Update

end NetworkingLearning.Routing.DistanceVector
