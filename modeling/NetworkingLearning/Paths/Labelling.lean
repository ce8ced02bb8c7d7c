import NetworkingLearning.Paths.Walk

/-!
# Labellings: what a relaxation algorithm computes

A relaxation algorithm keeps a label `L v` for every vertex, with a number `top` for "no path
known". `Labelling c top s L` is the state such an algorithm stops in: the root has label `0`,
every label below `top` is the price of a walk, and no link out of a labelled vertex can improve a
label. It does not say in which order labels were settled, so it fits a label-setting algorithm
and a synchronous exchange alike.

Results:
* `Labelling.isDist`, `Labelling.eq_top_iff`: labels are the shortest distances, `top` exactly at
  the unreachable vertices, once the sum of all links is below `top`.
* `chain_spec`: following predecessors that account for the label exactly (`Tight`) ends at the
  root, repeats no vertex and walks at the price of the label.
* `IsLeastPred`: the least predecessor on a shortest path. `IsLeastPred.past` says that it does not
  depend on the root, as long as the root is moved along a shortest path; `chain_past` lifts this
  to whole chains.
-/

namespace NetworkingLearning.Paths

variable {V : Type*} {c : V → V → Option ℤ} {top : ℤ} {s t u v x : V} {L : V → ℤ}

/-- The final state of a relaxation algorithm with root `s`. -/
structure Labelling (c : V → V → Option ℤ) (top : ℤ) (s : V) (L : V → ℤ) : Prop where
  root : L s = 0
  le_top : ∀ v, L v ≤ top
  attained : ∀ v, L v < top → ∃ l, Walk c s l v (L v)
  relaxed : ∀ u v w, c u v = some w → L u < top → L v ≤ L u + w

/-- No walk undercuts the labels at its ends. -/
theorem Labelling.le_add_walk (hL : Labelling c top s L) (hp : Positive c) {l : List V} {d : ℤ}
    (h : Walk c u l v d) : L v ≤ L u + d := by
  induction h with
  | nil => exact (add_zero _).ge
  | @cons u x v w l d hw h ih =>
    have hd := h.nonneg hp
    have hw0 := hp _ _ _ hw
    by_cases hu : L u < top
    · have := hL.relaxed u x w hw hu
      omega
    · have := hL.le_top v
      omega

theorem Labelling.le_walk (hL : Labelling c top s L) (hp : Positive c) {l : List V} {d : ℤ}
    (h : Walk c s l v d) : L v ≤ d := by
  have := hL.le_add_walk hp h
  rwa [hL.root, zero_add] at this

/-- **A label below `top` is the shortest distance.** -/
theorem Labelling.isDist (hL : Labelling c top s L) (hp : Positive c) (hv : L v < top) :
    IsDist c s v (L v) :=
  ⟨hL.attained v hv, fun _ _ h => hL.le_walk hp h⟩

/-- **The label `top` marks exactly the unreachable vertices**, when the sum of all links is
below it. -/
theorem Labelling.eq_top_iff [LinearOrder V] (hL : Labelling c top s L) (hp : Positive c)
    (hs : Symmetric c) {U : Finset V} (hU : Within c U) (hsU : s ∈ U) (hsum : linkSum c U < top) :
    L v = top ↔ ¬ Reachable c s v := by
  constructor
  · rintro hv ⟨l, d, h⟩
    obtain ⟨l', d', h', hle⟩ := h.exists_le_linkSum hp hs hU hsU
    have := hL.le_walk hp h'
    omega
  · intro hn
    by_contra hv
    have hlt : L v < top := lt_of_le_of_ne (hL.le_top v) hv
    obtain ⟨l, hl⟩ := hL.attained v hlt
    exact hn ⟨l, L v, hl⟩

/-- Two labellings of one graph from one root agree. -/
theorem Labelling.unique [LinearOrder V] {L' : V → ℤ} (hL : Labelling c top s L)
    (hL' : Labelling c top s L') (hp : Positive c) (hs : Symmetric c) {U : Finset V}
    (hU : Within c U) (hsU : s ∈ U) (hsum : linkSum c U < top) (v : V) : L v = L' v := by
  by_cases hr : Reachable c s v
  · have h1 : L v < top := lt_of_le_of_ne (hL.le_top v) fun e =>
      (hL.eq_top_iff hp hs hU hsU hsum).mp e hr
    have h2 : L' v < top := lt_of_le_of_ne (hL'.le_top v) fun e =>
      (hL'.eq_top_iff hp hs hU hsU hsum).mp e hr
    exact (hL.isDist hp h1).unique (hL'.isDist hp h2)
  · rw [(hL.eq_top_iff hp hs hU hsU hsum).mpr hr, (hL'.eq_top_iff hp hs hU hsU hsum).mpr hr]

/-! ## Following predecessors -/

/-- The vertices met when `P` is followed from `v` until the root, the root left out; `none` when
`P` has no value on the way or the root is not met within `fuel` steps. -/
def chain [DecidableEq V] (P : V → Option V) (root : V) : ℕ → V → Option (List V)
  | 0, v => if v = root then some [] else none
  | fuel + 1, v =>
    if v = root then some [] else
      match P v with
      | none => none
      | some u => (chain P root fuel u).map (v :: ·)

/-- Every labelled vertex but the root has a predecessor that accounts for its label. -/
def Tight (c : V → V → Option ℤ) (top : ℤ) (root : V) (L : V → ℤ) (P : V → Option V) : Prop :=
  ∀ v, v ≠ root → L v < top → ∃ u w, P v = some u ∧ c v u = some w ∧ L v = w + L u

variable {P : V → Option V}

theorem Tight.lt (hT : Tight c top s L P) (hp : Positive c) (hv : v ≠ s) (hlt : L v < top) :
    ∃ u w, P v = some u ∧ c v u = some w ∧ L v = w + L u ∧ L u < L v ∧ L u < top := by
  obtain ⟨u, w, hP, hw, hL⟩ := hT v hv hlt
  have := hp _ _ _ hw
  exact ⟨u, w, hP, hw, hL, by omega, by omega⟩

section Chain

variable [DecidableEq V]

@[simp] theorem chain_root (P : V → Option V) (root : V) (fuel : ℕ) :
    chain P root fuel root = some [] := by
  cases fuel <;> simp [chain]

theorem chain_step {root : V} {fuel : ℕ} (hv : v ≠ root) (hP : P v = some u) :
    chain P root (fuel + 1) v = (chain P root fuel u).map (v :: ·) := by
  simp [chain, hv, hP]

/-- What a chain from a vertex other than the root begins with. -/
theorem chain_cons {root : V} {fuel : ℕ} {l : List V} (hv : v ≠ root)
    (h : chain P root fuel v = some l) :
    ∃ k u l', fuel = k + 1 ∧ P v = some u ∧ l = v :: l' ∧ chain P root k u = some l' := by
  cases fuel with
  | zero => simp [chain, hv] at h
  | succ k =>
    cases hP : P v with
    | none => simp [chain, hv, hP] at h
    | some u =>
      rw [chain_step hv hP] at h
      obtain ⟨l', hl', rfl⟩ := Option.map_eq_some_iff.mp h
      exact ⟨k, u, l', rfl, rfl, rfl, hl'⟩

/-- A chain with its root begins with the vertex it is followed from. -/
theorem chain_head {root : V} {fuel : ℕ} {l : List V} (h : chain P root fuel v = some l) :
    ∃ l', l ++ [root] = v :: l' := by
  by_cases hv : v = root
  · rw [hv, chain_root] at h
    obtain rfl := Option.some.inj h
    exact ⟨[], by rw [hv]; rfl⟩
  · obtain ⟨_, _, l', -, -, rfl, -⟩ := chain_cons hv h
    exact ⟨l' ++ [root], rfl⟩

/-- A chain in which something stands before `x` makes at least one step. -/
theorem chain_longer {root x y : V} {fuel : ℕ} {l pre post : List V}
    (h : chain P root fuel v = some l) (hl : l ++ [root] = (y :: pre) ++ x :: post) :
    v ≠ root ∧ ∃ k u l', P v = some u ∧ l = v :: l' ∧ chain P root k u = some l' := by
  have hv : v ≠ root := by
    rintro rfl
    rw [chain_root] at h
    obtain rfl := Option.some.inj h
    have := congrArg List.length hl
    simp at this
  obtain ⟨k, u, l', -, hP, hl', hc⟩ := chain_cons hv h
  exact ⟨hv, k, u, l', hP, hl', hc⟩

/-- A chain needs no more fuel than it is long. -/
theorem chain_fuel {root : V} : ∀ {fuel : ℕ} {v : V} {l : List V},
    chain P root fuel v = some l → ∀ {fuel' : ℕ}, l.length ≤ fuel' →
      chain P root fuel' v = some l := by
  intro fuel
  induction fuel with
  | zero =>
    intro v l h fuel' _
    by_cases hv : v = root
    · rw [hv, chain_root] at h ⊢
      exact h
    · simp [chain, hv] at h
  | succ fuel ih =>
    intro v l h fuel' hle
    by_cases hv : v = root
    · rw [hv, chain_root] at h ⊢
      exact h
    · obtain ⟨k, u, l', hk, hP, rfl, hl'⟩ := chain_cons hv h
      obtain rfl : fuel = k := by omega
      obtain ⟨k', rfl⟩ : ∃ k', fuel' = k' + 1 :=
        ⟨fuel' - 1, by rw [List.length_cons] at hle; omega⟩
      rw [chain_step hv hP, ih hl' (by rw [List.length_cons] at hle; omega)]
      rfl

theorem chain_unique {root : V} {fuel fuel' : ℕ} {l l' : List V}
    (h : chain P root fuel v = some l) (h' : chain P root fuel' v = some l') : l = l' := by
  have h1 := chain_fuel h (le_max_left l.length l'.length)
  have h2 := chain_fuel h' (le_max_right l.length l'.length)
  exact Option.some.inj (h1.symm.trans h2)

/-- A chain is determined by the predecessors of its vertices. -/
theorem chain_congr {root : V} {P' : V → Option V} : ∀ {k : ℕ} {v : V} {l : List V},
    chain P root k v = some l → (∀ x ∈ l, x ≠ root → P' x = P x) →
      chain P' root k v = some l := by
  intro k
  induction k with
  | zero => exact fun h _ => h
  | succ k ih =>
    intro v l h hP'
    by_cases hv : v = root
    · rw [hv, chain_root] at h ⊢
      exact h
    · obtain ⟨k', u, l', hk, hP, rfl, hc⟩ := chain_cons hv h
      obtain rfl : k = k' := by omega
      have hPv : P' v = some u := (hP' v List.mem_cons_self hv).trans hP
      rw [chain_step hv hPv, ih hc fun x hx => hP' x (List.mem_cons_of_mem v hx)]
      rfl

/-- Along a chain every vertex hands on to the next one. -/
theorem chain_isChain {root : V} : ∀ {k : ℕ} {v : V} {l : List V},
    chain P root k v = some l → (l ++ [root]).IsChain fun a b => P a = some b := by
  intro k
  induction k with
  | zero =>
    intro v l h
    have hv : v = root := by
      by_contra hv
      simp [chain, hv] at h
    rw [hv, chain_root] at h
    obtain rfl := Option.some.inj h
    exact List.isChain_singleton _
  | succ k ih =>
    intro v l h
    by_cases hv : v = root
    · rw [hv, chain_root] at h
      obtain rfl := Option.some.inj h
      exact List.isChain_singleton _
    · obtain ⟨k', u, l', hk, hP, rfl, hc⟩ := chain_cons hv h
      obtain rfl : k = k' := by omega
      have hl := ih hc
      obtain ⟨l'', hl''⟩ := chain_head hc
      rw [List.cons_append, hl'', List.isChain_cons_cons, ← hl'']
      exact ⟨hP, hl⟩

/-- **Tight predecessors lead to the root** within as many steps as the label, along distinct
vertices, at the price of the label. -/
theorem chain_spec {root : V} (hT : Tight c top root L P) (hp : Positive c) (h0 : L root = 0)
    (hnn : ∀ v, 0 ≤ L v) : ∀ (fuel : ℕ) (v : V), L v < top → L v ≤ fuel →
      ∃ l, chain P root fuel v = some l ∧ (l ++ [root]).Pairwise (fun a b => L b < L a) ∧
        (∀ x ∈ l, x ≠ root) ∧ ∃ l', l ++ [root] = v :: l' ∧ Walk c v l' root (L v) := by
  intro fuel
  induction fuel with
  | zero =>
    intro v hlt hle
    have hv : v = root := by
      by_contra hv
      obtain ⟨u, w, -, hw, hL, -⟩ := hT.lt hp hv hlt
      have := hp _ _ _ hw
      have := hnn u
      omega
    subst hv
    refine ⟨[], chain_root P v 0, List.pairwise_singleton _ _, by simp, [], rfl, ?_⟩
    rw [h0]
    exact Walk.nil v
  | succ fuel ih =>
    intro v hlt hle
    by_cases hv : v = root
    · subst hv
      refine ⟨[], chain_root P v _, List.pairwise_singleton _ _, by simp, [], rfl, ?_⟩
      rw [h0]
      exact Walk.nil v
    · obtain ⟨u, w, hP, hw, hL, hlu, htop⟩ := hT.lt hp hv hlt
      obtain ⟨l, hl, hpw, hne, l', hl', hwalk⟩ := ih u htop (by omega)
      refine ⟨v :: l, by rw [chain_step hv hP, hl]; rfl, ?_, ?_, l ++ [root], rfl, ?_⟩
      · rw [List.cons_append, List.pairwise_cons]
        refine ⟨fun b hb => ?_, hpw⟩
        rw [hl'] at hb hpw
        rcases List.mem_cons.mp hb with rfl | hb
        · exact hlu
        · exact lt_trans (List.rel_of_pairwise_cons hpw hb) hlu
      · intro x hx
        rcases List.mem_cons.mp hx with rfl | hx
        · exact hv
        · exact hne x hx
      · rw [hl', hL]
        exact Walk.cons hw hwalk

/-- The same within a finite set of vertices: at most as many steps as there are vertices. -/
theorem Tight.chain_within {root : V} (hT : Tight c top root L P) (hp : Positive c)
    (h0 : L root = 0) (hnn : ∀ v, 0 ≤ L v) {U : Finset V} (hU : Within c U) (hv : v ∈ U)
    (hlt : L v < top) :
    ∃ k l, chain P root k v = some l ∧ l.length ≤ U.card ∧
      ∃ l', l ++ [root] = v :: l' ∧ (v :: l').Nodup ∧ Walk c v l' root (L v) := by
  have hle : L v ≤ ((L v).toNat : ℤ) := Int.self_le_toNat _
  obtain ⟨l, hl, hpw, -, l', hl', hwalk⟩ := chain_spec hT hp h0 hnn (L v).toNat v hlt hle
  have hnodup : (l ++ [root]).Nodup := by
    refine hpw.imp fun {a b} h e => ?_
    rw [e] at h
    exact lt_irrefl _ h
  have hmem : ∀ x ∈ l, x ∈ U := fun x hx =>
    hwalk.mem_of_within hU hv x (by rw [← hl']; exact List.mem_append_left _ hx)
  refine ⟨_, l, hl, ?_, l', hl', hl' ▸ hnodup, hwalk⟩
  rw [← List.toFinset_card_of_nodup (List.nodup_append.mp hnodup).1]
  exact Finset.card_le_card fun x hx => hmem x (List.mem_toFinset.mp hx)

end Chain

/-! ## The least predecessor -/

/-- `u` is the last vertex before `t` on some shortest path from `s`. -/
def IsPred (c : V → V → Option ℤ) (s t u : V) : Prop :=
  ∃ a w, IsDist c s u a ∧ c u t = some w ∧ IsDist c s t (a + w)

/-- `u` is the least such vertex. -/
def IsLeastPred [LE V] (c : V → V → Option ℤ) (s t u : V) : Prop :=
  IsPred c s t u ∧ ∀ u', IsPred c s t u' → u ≤ u'

/-- A predecessor seen from `x` is a predecessor seen from `s`, when `x` lies on a shortest path
from `s` to `t`. -/
theorem IsPred.past {a b : ℤ} (ha : IsDist c s x a) (hb : IsDist c x t b)
    (hab : IsDist c s t (a + b)) (h : IsPred c x t u) : IsPred c s t u := by
  obtain ⟨e, w, he, hw, ht⟩ := h
  have hbe : b = e + w := hb.unique ht
  obtain ⟨_, hla⟩ := ha.attained
  obtain ⟨_, hle⟩ := he.attained
  have hu : IsDist c s u (a + e) := by
    refine ⟨⟨_, hla.append hle⟩, fun l d' hl => ?_⟩
    have := hab.le _ _ (hl.snoc hw)
    omega
  exact ⟨a + e, w, hu, hw, by rw [hbe, ← add_assoc] at hab; exact hab⟩

/-- **The least predecessor does not depend on the root**: seen from a vertex `x` of a shortest
path that reaches the least predecessor `u` of `t` through `x`, it is again `u`. -/
theorem IsLeastPred.past [LE V] {a e : ℤ} (ha : IsDist c s x a) (he : IsDist c x u e)
    (hae : IsDist c s u (a + e)) (h : IsLeastPred c s t u) : IsLeastPred c x t u := by
  obtain ⟨⟨a', w, ha', hw, ht⟩, hmin⟩ := h
  obtain rfl := ha'.unique hae
  obtain ⟨_, hla⟩ := ha.attained
  obtain ⟨_, hle⟩ := he.attained
  have hb : IsDist c x t (e + w) := by
    refine ⟨⟨_, hle.snoc hw⟩, fun l d' hl => ?_⟩
    have := ht.le _ _ (hla.append hl)
    omega
  refine ⟨⟨e, w, he, hw, hb⟩, fun u' hu' => hmin u' ?_⟩
  exact hu'.past ha hb (by rw [← add_assoc]; exact ht)

theorem IsLeastPred.unique {W : Type*} [PartialOrder W] {c : W → W → Option ℤ} {s t u u' : W}
    (h : IsLeastPred c s t u) (h' : IsLeastPred c s t u') : u = u' :=
  le_antisymm (h.2 u' h'.1) (h'.2 u h.1)

/-- Shortest distances from `s` with the least predecessors. -/
structure Rooted [LE V] (c : V → V → Option ℤ) (top : ℤ) (s : V) (L : V → ℤ) (P : V → Option V) :
    Prop where
  labelling : Labelling c top s L
  pred : ∀ v, v ≠ s → L v < top → ∃ u, P v = some u ∧ IsLeastPred c s v u

section Rooted

variable [LE V]

/-- The label of a least predecessor accounts for the label. -/
theorem Rooted.step (hR : Rooted c top s L P) (hp : Positive c) (hv : v ≠ s) (hlt : L v < top) :
    ∃ u w, P v = some u ∧ IsLeastPred c s v u ∧ c u v = some w ∧ L v = L u + w ∧ L u < top := by
  obtain ⟨u, hP, hlp⟩ := hR.pred v hv hlt
  obtain ⟨a, w, ha, hw, hav⟩ := hlp.1
  have hw0 := hp _ _ _ hw
  have hLv : L v = a + w := (hR.labelling.isDist hp hlt).unique hav
  obtain ⟨l, hl⟩ := ha.attained
  have hle : L u ≤ a := hR.labelling.le_walk hp hl
  have hLu : L u = a := (hR.labelling.isDist hp (by omega)).unique ha
  exact ⟨u, w, hP, hlp, hw, by rw [hLv, hLu], by omega⟩

theorem Rooted.tight (hR : Rooted c top s L P) (hp : Positive c) (hs : Symmetric c) :
    Tight c top s L P := by
  intro v hv hlt
  obtain ⟨u, w, hP, -, hw, hL, -⟩ := hR.step hp hv hlt
  exact ⟨u, w, hP, by rw [hs v u]; exact hw, by rw [hL, add_comm]⟩

theorem Rooted.nonneg (hR : Rooted c top s L P) (hp : Positive c) (htop : 0 ≤ top) (v : V) :
    0 ≤ L v := by
  by_cases hv : L v < top
  · exact (hR.labelling.isDist hp hv).nonneg hp
  · omega

variable [DecidableEq V]

/-- A vertex on the chain of `v` lies on a shortest path to `v`. -/
theorem Rooted.chain_dist (hR : Rooted c top s L P) (hp : Positive c) {x : V} {post : List V} :
    ∀ (pre : List V) {fuel : ℕ} {v : V} {l : List V}, chain P s fuel v = some l → L v < top →
      l ++ [s] = pre ++ x :: post → ∃ e, IsDist c x v e ∧ L v = L x + e ∧ L x < top := by
  intro pre
  induction pre with
  | nil =>
    intro fuel v l h hlt hl
    obtain ⟨l', hl'⟩ := chain_head h
    obtain rfl : v = x := by
      rw [hl', List.nil_append, List.cons.injEq] at hl
      exact hl.1
    exact ⟨0, isDist_self hp v, (add_zero _).symm, hlt⟩
  | cons y pre ih =>
    intro fuel v l h hlt hl
    obtain ⟨hv, k, u, l', hP, rfl, hl'⟩ := chain_longer h hl
    obtain ⟨u', w, hP', -, hw, hL, hlu⟩ := hR.step hp hv hlt
    obtain rfl : u = u' := Option.some.inj (hP.symm.trans hP')
    simp only [List.cons_append, List.cons.injEq] at hl
    obtain ⟨e, he, hLe, hlx⟩ := ih hl' hlu hl.2
    obtain ⟨_, hwe⟩ := he.attained
    refine ⟨e + w, ⟨⟨_, hwe.snoc hw⟩, fun l d hd => ?_⟩, by omega, hlx⟩
    have := hR.labelling.le_add_walk hp hd
    omega

end Rooted

section Past

variable {W : Type*} [PartialOrder W] {c : W → W → Option ℤ} {s a u v : W} {L L' : W → ℤ}
  {P P' : W → Option W}

/-- The predecessor of `v` is the same from `s` and from a vertex `a` on the way to it. -/
theorem Rooted.pred_past (hR : Rooted c top s L P) (hp : Positive c) (hR' : Rooted c top a L' P')
    (hv : v ≠ s) (hlt : L v < top) (hP : P v = some u) {e : ℤ} (ha : L a < top)
    (he : IsDist c a u e) (hLu : L u = L a + e) : v ≠ a ∧ P' v = some u := by
  obtain ⟨u', w, hP', hlp, hw, hL, hlu⟩ := hR.step hp hv hlt
  obtain rfl : u = u' := Option.some.inj (hP.symm.trans hP')
  have hw0 := hp _ _ _ hw
  have he0 := he.nonneg hp
  have hva : v ≠ a := by
    rintro rfl
    omega
  have hda : IsDist c s a (L a) := hR.labelling.isDist hp ha
  have hpast : IsLeastPred c a v u :=
    hlp.past hda he (by rw [← hLu]; exact hR.labelling.isDist hp hlu)
  have hL' : L' v < top := by
    obtain ⟨_, hwe⟩ := he.attained
    have := hR'.labelling.le_walk hp (hwe.snoc hw)
    have := hda.nonneg hp
    omega
  obtain ⟨x, hx, hlx⟩ := hR'.pred v hva hL'
  exact ⟨hva, by rw [hx, hlx.unique hpast]⟩

/-- **The chain does not depend on the root**: rooted at a vertex `a` of the chain of `v`, the
chain of `v` is the part before `a`. -/
theorem Rooted.chain_past [DecidableEq W] {post : List W} (hR : Rooted c top s L P)
    (hp : Positive c) (hR' : Rooted c top a L' P') :
    ∀ (pre : List W) {fuel : ℕ} {v : W} {l : List W}, chain P s fuel v = some l → L v < top →
      l ++ [s] = pre ++ a :: post → ∃ k, chain P' a k v = some pre := by
  intro pre
  induction pre with
  | nil =>
    intro fuel v l h hlt hl
    obtain ⟨l', hl'⟩ := chain_head h
    obtain rfl : v = a := by
      rw [hl', List.nil_append, List.cons.injEq] at hl
      exact hl.1
    exact ⟨0, chain_root P' v 0⟩
  | cons y pre ih =>
    intro fuel v l h hlt hl
    obtain ⟨hv, k, u, l', hP, rfl, hl'⟩ := chain_longer h hl
    simp only [List.cons_append, List.cons.injEq] at hl
    obtain ⟨rfl, hl⟩ := hl
    have hlu : L u < top := by
      obtain ⟨u', w, hP', -, -, -, hlu⟩ := hR.step hp hv hlt
      exact Option.some.inj (hP.symm.trans hP') ▸ hlu
    obtain ⟨e, he, hLu, ha⟩ := hR.chain_dist hp pre hl' hlu hl
    obtain ⟨hva, hP'⟩ := hR.pred_past hp hR' hv hlt hP ha he hLu
    obtain ⟨k', hk'⟩ := ih hl' hlu hl
    exact ⟨k' + 1, by rw [chain_step hva hP', hk']; rfl⟩

end Past

end NetworkingLearning.Paths
