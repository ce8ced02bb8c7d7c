import Mathlib.Data.Finset.Max
import NetworkingLearning.Paths.Labelling

/-!
# The shortest paths that least predecessors choose

Shortest distances and least predecessors are functions of the graph alone: `distOr`, with `top`
where there is no path, and `leastPred`. `trail c s n t` follows the least predecessors of `t` back
to the root `s`, which it leaves out.

Read forwards a trail is the route of a vertex whose next vertex is the least; read backwards, that
of a root whose predecessors are. Each pair of vertices has two trails, one rooted at either end.

Results:
* `rooted_leastPred`: in a finite graph `distOr` and `leastPred` are `Rooted`.
* `Rooted.distOr_eq`, `Rooted.trail_eq`: whatever is `Rooted` has these distances and trails.
* `trail_spec`: a trail is a shortest walk without repetition.
* `trail_reverse`: where no vertex has two predecessors on shortest paths, the trail of one root is
  the trail of the other backwards.
-/

namespace NetworkingLearning.Paths

variable {V : Type*} {c : V → V → Option ℤ} {top : ℤ} {s t u v : V} {L : V → ℤ} {P : V → Option V}

open Classical in
/-- The shortest distance, `top` where there is no path. -/
noncomputable def distOr (c : V → V → Option ℤ) (top : ℤ) (s t : V) : ℤ :=
  if h : ∃ d, IsDist c s t d then h.choose else top

theorem IsDist.distOr_eq {d : ℤ} (h : IsDist c s t d) : distOr c top s t = d := by
  have hex : ∃ d, IsDist c s t d := ⟨d, h⟩
  rw [distOr, dif_pos hex]
  exact hex.choose_spec.unique h

theorem distOr_of_not (h : ¬ Reachable c s t) : distOr c top s t = top :=
  dif_neg fun ⟨_, hd⟩ => h hd.reachable

/-- A distance below `top` is a distance. -/
theorem isDist_of_lt (h : distOr c top s t < top) : IsDist c s t (distOr c top s t) := by
  by_cases hex : ∃ d, IsDist c s t d
  · obtain ⟨d, hd⟩ := hex
    rwa [hd.distOr_eq]
  · rw [distOr, dif_neg hex] at h
    exact absurd h (lt_irrefl top)

theorem distOr_comm (hs : Symmetric c) (s t : V) : distOr c top s t = distOr c top t s := by
  by_cases hex : ∃ d, IsDist c s t d
  · obtain ⟨d, hd⟩ := hex
    rw [hd.distOr_eq, (hd.symm hs).distOr_eq]
  · have hex' : ¬ ∃ d, IsDist c t s d := fun ⟨d, hd⟩ => hex ⟨d, hd.symm hs⟩
    rw [distOr, dif_neg hex, distOr, dif_neg hex']

open Classical in
/-- The least vertex before `t` on a shortest path from `s`. -/
noncomputable def leastPred [LE V] (c : V → V → Option ℤ) (s t : V) : Option V :=
  if h : ∃ u, IsLeastPred c s t u then some h.choose else none

theorem IsLeastPred.leastPred_eq {V : Type*} [PartialOrder V] {c : V → V → Option ℤ} {s t u : V}
    (h : IsLeastPred c s t u) : leastPred c s t = some u := by
  have hex : ∃ u, IsLeastPred c s t u := ⟨u, h⟩
  rw [leastPred, dif_pos hex, hex.choose_spec.unique h]

/-- The vertices from `t` back to the root `s`, the root left out. -/
noncomputable def trail [LE V] [DecidableEq V] (c : V → V → Option ℤ) (s : V) (n : ℕ) (t : V) :
    List V :=
  (chain (leastPred c s) s n t).getD []

/-! ## Predecessors -/

/-- The last link of a walk. -/
theorem Walk.exists_last {l : List V} {d : ℤ} (h : Walk c s l t d) (hl : l ≠ []) :
    ∃ l' u a w, Walk c s l' u a ∧ c u t = some w ∧ d = a + w := by
  induction h with
  | nil => exact absurd rfl hl
  | @cons s v t w l d hw h ih =>
    cases h with
    | nil => exact ⟨[], s, 0, w, Walk.nil s, hw, add_comm w 0⟩
    | cons hw' h' =>
      obtain ⟨l', u, a, w', hl', hlast, he⟩ := ih (List.cons_ne_nil _ _)
      exact ⟨v :: l', u, w + a, w', Walk.cons hw hl', hlast, by rw [he, add_assoc]⟩

/-- A reached vertex has a vertex before it on a shortest path. -/
theorem IsDist.exists_isPred {d : ℤ} (h : IsDist c s t d) (hts : t ≠ s) : ∃ u, IsPred c s t u := by
  obtain ⟨l, hl⟩ := h.attained
  have hne : l ≠ [] := by
    rintro rfl
    cases hl
    exact hts rfl
  obtain ⟨l', u, a, w, hwalk, hw, rfl⟩ := hl.exists_last hne
  refine ⟨u, a, w, ⟨⟨l', hwalk⟩, fun l'' d' hl'' => ?_⟩, hw, h⟩
  have := h.le _ _ (hl''.snoc hw)
  omega

/-- In a finite graph it has a least one. -/
theorem IsDist.exists_isLeastPred [LinearOrder V] {U : Finset V} (hU : Within c U) {d : ℤ}
    (h : IsDist c s t d) (hts : t ≠ s) : ∃ u, IsLeastPred c s t u := by
  classical
  obtain ⟨u, hu⟩ := h.exists_isPred hts
  have hmem : ∀ v, IsPred c s t v → v ∈ U.filter fun v => IsPred c s t v :=
    fun v hv => Finset.mem_filter.mpr ⟨(hU v t _ hv.choose_spec.choose_spec.2.1).1, hv⟩
  obtain ⟨v, hv, hmin⟩ :=
    (U.filter fun v => IsPred c s t v).exists_min_image id ⟨u, hmem u hu⟩
  exact ⟨v, (Finset.mem_filter.mp hv).2, fun u' hu' => hmin u' (hmem u' hu')⟩

/-! ## Trails -/

section Rooted

variable [LinearOrder V]

/-- Labels that agree with the distances. -/
theorem Rooted.distOr_eq (hR : Rooted c top s L P) (hp : Positive c)
    (hfin : ∀ d, IsDist c s v d → d < top) : L v = distOr c top s v := by
  rcases lt_or_eq_of_le (hR.labelling.le_top v) with hlt | htop
  · exact (hR.labelling.isDist hp hlt).distOr_eq.symm
  · rw [htop]
    refine (distOr_of_not fun hr => ?_).symm
    obtain ⟨d, hd⟩ := hr.exists_isDist hp
    obtain ⟨l, hl⟩ := hd.attained
    have := hR.labelling.le_walk hp hl
    have := hfin d hd
    omega

theorem Rooted.leastPred_eq (hR : Rooted c top s L P) (hv : v ≠ s) (hlt : L v < top) :
    P v = leastPred c s v := by
  obtain ⟨u, hP, hleast⟩ := hR.pred v hv hlt
  rw [hP, hleast.leastPred_eq]

/-- The chains of whatever is `Rooted` are those of the least predecessors. -/
theorem Rooted.chain_eq (hR : Rooted c top s L P) (hp : Positive c) {k : ℕ} {l : List V}
    (hc : chain P s k v = some l) (hlt : L v < top) : chain (leastPred c s) s k v = some l := by
  refine chain_congr hc fun x hx hxs => (hR.leastPred_eq hxs ?_).symm
  obtain ⟨pre, post, hsplit⟩ := List.append_of_mem hx
  have hsplit' : l ++ [s] = pre ++ x :: (post ++ [s]) := by
    rw [hsplit, List.append_assoc, List.cons_append]
  obtain ⟨_, -, -, hx'⟩ := hR.chain_dist hp pre hc hlt hsplit'
  exact hx'

theorem Rooted.trail_eq (hR : Rooted c top s L P) (hp : Positive c) {k n : ℕ} {l : List V}
    (hc : chain P s k v = some l) (hlt : L v < top) (hn : l.length ≤ n) : trail c s n v = l := by
  rw [trail, chain_fuel (hR.chain_eq hp hc hlt) hn, Option.getD_some]

variable {U : Finset V}

/-- **Distances and least predecessors** of a finite graph are `Rooted`, if `top` is above all
distances. -/
theorem rooted_leastPred (hp : Positive c) (hU : Within c U)
    (hfin : ∀ v d, IsDist c s v d → d < top) :
    Rooted c top s (distOr c top s) (leastPred c s) where
  labelling := by
    refine ⟨(isDist_self hp s).distOr_eq, fun v => ?_, fun v hv => (isDist_of_lt hv).attained,
      fun u v w hw hu => ?_⟩
    · by_cases hex : ∃ d, IsDist c s v d
      · obtain ⟨d, hd⟩ := hex
        rw [hd.distOr_eq]
        exact (hfin v d hd).le
      · exact (dif_neg hex).le
    · obtain ⟨l, hl⟩ := (isDist_of_lt hu).attained
      obtain ⟨d, hd⟩ := Reachable.exists_isDist hp ⟨_, _, hl.snoc hw⟩
      rw [hd.distOr_eq]
      exact hd.le _ _ (hl.snoc hw)
  pred v hv hlt := by
    obtain ⟨u, hu⟩ := (isDist_of_lt hlt).exists_isLeastPred hU hv
    exact ⟨u, hu.leastPred_eq, hu⟩

variable (hp : Positive c) (hs : Symmetric c) (hU : Within c U)
  (hfin : ∀ v d, IsDist c s v d → d < top)

include hp hs hU hfin

/-- **A trail is a shortest walk** back to the root, without repetition. -/
theorem trail_spec (ht : t ∈ U) (hlt : distOr c top s t < top) {n : ℕ} (hn : U.card ≤ n) :
    chain (leastPred c s) s n t = some (trail c s n t) ∧ (trail c s n t).length ≤ U.card ∧
      ∃ l, trail c s n t ++ [s] = t :: l ∧ (t :: l).Nodup ∧ Walk c t l s (distOr c top s t) := by
  have hR := rooted_leastPred hp hU hfin
  have htop : 0 < top := hfin s 0 (isDist_self hp s)
  obtain ⟨k, l, hc, hlen, l', hl', hnodup, hwalk⟩ :=
    (hR.tight hp hs).chain_within hp hR.labelling.root (hR.nonneg hp htop.le) hU ht hlt
  have heq := hR.trail_eq hp hc hlt (hlen.trans hn)
  rw [heq]
  exact ⟨chain_fuel hc (hlen.trans hn), hlen, l', hl', hnodup, hwalk⟩

end Rooted

/-! ## Both ends -/

/-- No vertex has two predecessors on shortest paths. -/
def Untied (c : V → V → Option ℤ) : Prop := ∀ s t u u', IsPred c s t u → IsPred c s t u' → u = u'

/-- A list in which every vertex hands on to the next one is a chain. -/
theorem chain_of_isChain [DecidableEq V] {root : V} : ∀ {l l' : List V} {v : V},
    (l ++ [root]).IsChain (fun a b => P a = some b) → (∀ x ∈ l, x ≠ root) →
      l ++ [root] = v :: l' → chain P root l.length v = some l := by
  intro l
  induction l with
  | nil =>
    intro l' v _ _ hl
    obtain ⟨rfl, -⟩ := List.cons.inj hl
    exact chain_root P root 0
  | cons x l ih =>
    intro l' v hchain hne hl
    obtain ⟨rfl, rfl⟩ := List.cons.inj hl
    have hx := hne x List.mem_cons_self
    obtain ⟨u, l', hu⟩ : ∃ u l', l ++ [root] = u :: l' :=
      List.exists_cons_of_ne_nil (List.concat_ne_nil root l)
    rw [List.cons_append, hu, List.isChain_cons_cons] at hchain
    rw [List.length_cons, chain_step hx hchain.1,
      ih (hu ▸ hchain.2) (fun y hy => hne y (List.mem_cons_of_mem x hy)) hu]
    rfl

/-- The root is not on a chain. -/
theorem chain_ne_root [DecidableEq V] {root : V} : ∀ {k : ℕ} {v : V} {l : List V},
    chain P root k v = some l → ∀ x ∈ l, x ≠ root := by
  intro k
  induction k with
  | zero =>
    intro v l h x hx
    unfold chain at h
    split at h
    · exact absurd (Option.some.inj h ▸ hx) List.not_mem_nil
    · exact absurd h (by simp)
  | succ k ih =>
    intro v l h x hx
    by_cases hv : v = root
    · rw [hv, chain_root] at h
      exact absurd (Option.some.inj h ▸ hx) List.not_mem_nil
    · obtain ⟨k', u, l', hk, -, rfl, hc⟩ := chain_cons hv h
      obtain rfl : k = k' := by omega
      rcases List.mem_cons.mp hx with rfl | hx
      · exact hv
      · exact ih hc x hx

section Reverse

variable [LinearOrder V] {U : Finset V} (hp : Positive c) (hs : Symmetric c) (hU : Within c U)

include hp hs

/-- A vertex of a trail is a predecessor, seen from the other end. -/
theorem Rooted.isPred_reverse (hR : Rooted c top s L P) {k : ℕ} {l pre post : List V} {a b : V}
    (hc : chain P s k t = some l) (hlt : L t < top) (hl : l ++ [s] = pre ++ a :: b :: post) :
    IsPred c t b a := by
  have hstep := List.isChain_iff_forall_rel_of_append_cons_cons.mp (chain_isChain hc) hl
  have hl' : l ++ [s] = (pre ++ [a]) ++ b :: post := by
    rw [hl, List.append_assoc, List.singleton_append]
  obtain ⟨e, he, hLe, ha⟩ := hR.chain_dist hp pre hc hlt hl
  obtain ⟨e', he', hLe', -⟩ := hR.chain_dist hp (pre ++ [a]) hc hlt hl'
  have hmem : a ∈ l := by
    have := congrArg List.dropLast hl
    rw [List.dropLast_concat] at this
    rw [this]
    simp
  have has := chain_ne_root hc a hmem
  obtain ⟨b', w, hb', -, hw, hL, -⟩ := hR.step hp has ha
  obtain rfl := Option.some.inj (hstep.symm.trans hb')
  refine ⟨e, w, he.symm hs, by rw [hs]; exact hw, ?_⟩
  have hsum : e' = e + w := by omega
  exact hsum ▸ he'.symm hs

include hU

/-- **Without ties the two trails of a pair are each other backwards.** -/
theorem trail_reverse (hunt : Untied c) (hfin : ∀ v d, IsDist c s v d → d < top)
    (ht : t ∈ U) (hlt : distOr c top s t < top) {n : ℕ} (hn : U.card ≤ n) :
    (trail c s n t ++ [s]).reverse = trail c t n s ++ [t] := by
  obtain ⟨hc, hlen, l, hl, hnodup, -⟩ := trail_spec hp hs hU hfin ht hlt hn
  have hR : Rooted c top s _ _ := rooted_leastPred hp hU hfin
  have hrev : (trail c s n t ++ [s]).reverse = l.reverse ++ [t] := by
    rw [hl, List.reverse_cons]
  have hchain : (l.reverse ++ [t]).IsChain fun a b => leastPred c t a = some b := by
    rw [← hrev, List.isChain_reverse, List.isChain_iff_forall_rel_of_append_cons_cons]
    intro a b pre post hsplit
    have hpred := hR.isPred_reverse hp hs hc hlt hsplit
    exact IsLeastPred.leastPred_eq ⟨hpred, fun u hu => (hunt t b a u hpred hu).le⟩
  have hne : ∀ x ∈ l.reverse, x ≠ t := by
    rintro x hx rfl
    exact (List.nodup_cons.mp hnodup).1 (List.mem_reverse.mp hx)
  have hhead : l.reverse ++ [t] = s :: (trail c s n t).reverse := by
    rw [← hrev, List.reverse_append]
    rfl
  have hlen' : l.reverse.length ≤ n := by
    have := congrArg List.length hl
    simp only [List.length_append, List.length_cons, List.length_nil] at this
    rw [List.length_reverse]
    omega
  rw [hrev, trail, chain_fuel (chain_of_isChain hchain hne hhead) hlen', Option.getD_some]

end Reverse

end NetworkingLearning.Paths
