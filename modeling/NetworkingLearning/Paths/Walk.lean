import Mathlib.Algebra.Order.BigOperators.Group.Finset
import Mathlib.Algebra.Order.Ring.Int
import Mathlib.Data.Finset.Prod
import Mathlib.Tactic.Linarith

/-!
# Priced walks, shortest distances and the sum of all links

A graph is a partial price `c : V → V → Option ℤ`: `c u v = some w` is a link from `u` to `v` of
price `w`. A walk is given by its start, the list of the vertices after it, its end and its total
price. Nothing here knows of routers or tables. The vertices are of any type; an order of them is
used only to count each undirected link once.

* `Positive` and `Symmetric` are properties of a price, and hypotheses where they are needed.
* `Within` says that all links are between vertices of a finite set. Only the bound by the sum of
  all links needs it.

Results:
* `Walk.exists_simple`: with positive prices every walk costs at least some simple walk with the
  same ends.
* `Walk.le_linkSum`: a simple walk costs at most the sum of all links, each undirected link counted
  once. It is what keeps every shortest distance below a machine bound.
* `IsDist`: the least price of a walk, which is unique (`IsDist.unique`).
-/

namespace NetworkingLearning.Paths

variable {V : Type*}

/-- `Walk c s l t d`: from `s` through the vertices `l`, in order, to `t`, at total price `d`. -/
inductive Walk (c : V → V → Option ℤ) : V → List V → V → ℤ → Prop
  | nil (u : V) : Walk c u [] u 0
  | cons {u v t : V} {w : ℤ} {l : List V} {d : ℤ} (hw : c u v = some w) (h : Walk c v l t d) :
      Walk c u (v :: l) t (w + d)

/-- Every link has a positive price. -/
def Positive (c : V → V → Option ℤ) : Prop := ∀ u v w, c u v = some w → 0 < w

/-- A link is the same in both directions. -/
def Symmetric (c : V → V → Option ℤ) : Prop := ∀ u v, c u v = c v u

/-- Every link joins two vertices of `U`. -/
def Within (c : V → V → Option ℤ) (U : Finset V) : Prop :=
  ∀ u v w, c u v = some w → u ∈ U ∧ v ∈ U

variable {c : V → V → Option ℤ} {s t u v : V} {l l' : List V} {d d' w : ℤ}

theorem Walk.single (hw : c u v = some w) : Walk c u [v] v w := by
  have h := Walk.cons hw (Walk.nil v)
  rwa [add_zero] at h

theorem Walk.append (h : Walk c s l u d) (h' : Walk c u l' t d') :
    Walk c s (l ++ l') t (d + d') := by
  induction h with
  | nil => rwa [zero_add, List.nil_append]
  | cons hw _ ih =>
    rw [add_assoc]
    exact Walk.cons hw (ih h')

theorem Walk.snoc (h : Walk c s l u d) (hw : c u v = some w) : Walk c s (l ++ [v]) v (d + w) :=
  h.append (Walk.single hw)

/-- A walk read backwards. -/
theorem Walk.reverse (hs : Symmetric c) (h : Walk c s l t d) :
    ∃ l', s :: l = (t :: l').reverse ∧ Walk c t l' s d := by
  induction h with
  | nil u => exact ⟨[], rfl, Walk.nil u⟩
  | @cons u v t w l d hw _ ih =>
    obtain ⟨l', hl, hr⟩ := ih
    refine ⟨l' ++ [u], ?_, ?_⟩
    · rw [hl, ← List.cons_append, List.reverse_append, List.reverse_singleton,
        List.singleton_append]
    · rw [add_comm]
      exact hr.snoc (by rw [hs v u]; exact hw)

theorem Walk.nonneg (hp : Positive c) (h : Walk c s l t d) : 0 ≤ d := by
  induction h with
  | nil => exact le_refl _
  | cons hw _ ih =>
    have := hp _ _ _ hw
    omega

theorem Walk.mem_within {U : Finset V} (hU : Within c U) (h : Walk c s l t d) :
    ∀ x ∈ l, x ∈ U := by
  induction h with
  | nil => exact fun x hx => absurd hx List.not_mem_nil
  | cons hw _ ih =>
    intro x hx
    rcases List.mem_cons.mp hx with rfl | hx
    · exact (hU _ _ _ hw).2
    · exact ih x hx

/-! ## Simple walks -/

/-- From any of its vertices on, a walk is a walk that costs no more. -/
theorem Walk.suffix (hp : Positive c) (h : Walk c s l t d) (hu : u ∈ s :: l) :
    ∃ l' d', Walk c u l' t d' ∧ (u :: l').Sublist (s :: l) ∧ d' ≤ d := by
  induction h with
  | nil x =>
    rw [List.mem_singleton] at hu
    subst hu
    exact ⟨[], 0, Walk.nil u, List.Sublist.refl _, le_refl _⟩
  | @cons x v t w l d hw h ih =>
    rcases List.mem_cons.mp hu with rfl | hu
    · exact ⟨v :: l, w + d, Walk.cons hw h, List.Sublist.refl _, le_refl _⟩
    · obtain ⟨l', d', h', hsub, hle⟩ := ih hu
      have := hp _ _ _ hw
      exact ⟨l', d', h', hsub.cons x, by omega⟩

/-- **Every walk costs at least some simple walk** with the same ends, which is not longer. -/
theorem Walk.exists_simple (hp : Positive c) (h : Walk c s l t d) :
    ∃ l' d', Walk c s l' t d' ∧ (s :: l').Nodup ∧ d' ≤ d ∧ l'.length ≤ l.length := by
  induction h with
  | nil u => exact ⟨[], 0, Walk.nil u, List.nodup_singleton u, le_refl _, le_refl _⟩
  | @cons u v t w l d hw _ ih =>
    obtain ⟨l', d', h', hn, hle, hlen⟩ := ih
    have hw0 := hp _ _ _ hw
    by_cases hu : u ∈ v :: l'
    · obtain ⟨l'', d'', h'', hsub, hle'⟩ := h'.suffix hp hu
      have hlen' := hsub.length_le
      simp only [List.length_cons] at hlen' ⊢
      exact ⟨l'', d'', h'', hn.sublist hsub, by omega, by omega⟩
    · exact ⟨v :: l', w + d', Walk.cons hw h', List.nodup_cons.mpr ⟨hu, hn⟩, by omega,
        Nat.succ_le_succ hlen⟩

/-! ## The sum of all links -/

/-- The sum of the prices of all links between vertices of `U`, each undirected link once. -/
def linkSum [LinearOrder V] (c : V → V → Option ℤ) (U : Finset V) : ℤ :=
  ∑ p ∈ (U ×ˢ U).filter (fun p => p.1 ≤ p.2), (c p.1 p.2).getD 0

theorem price_nonneg (hp : Positive c) (u v : V) : 0 ≤ (c u v).getD 0 := by
  cases h : c u v with
  | none => exact le_refl _
  | some w => exact (hp _ _ _ h).le

variable [LinearOrder V]

theorem linkSum_nonneg (hp : Positive c) (U : Finset V) : 0 ≤ linkSum c U :=
  Finset.sum_nonneg fun p _ => price_nonneg hp p.1 p.2

/-- Dropping a vertex from `U` drops at least any one link at it from the sum. -/
theorem linkSum_erase (hp : Positive c) (hs : Symmetric c) {U : Finset V} (hu : u ∈ U)
    (hv : v ∈ U) (hw : c u v = some w) : w + linkSum c (U.erase u) ≤ linkSum c U := by
  -- the link as the ordered pair under which the sum counts it
  let e : V × V := (min u v, max u v)
  have hce : (c e.1 e.2).getD 0 = w := by
    rcases le_total u v with h | h
    · simp only [e, min_eq_left h, max_eq_right h, hw, Option.getD_some]
    · simp only [e, min_eq_right h, max_eq_left h, hs v u, hw, Option.getD_some]
  have heU : e ∈ (U ×ˢ U).filter (fun p => p.1 ≤ p.2) := by
    rcases le_total u v with h | h <;> simp [e, h, hu, hv]
  have hnot : e ∉ ((U.erase u) ×ˢ (U.erase u)).filter (fun p => p.1 ≤ p.2) := by
    rcases le_total u v with h | h <;> simp [e, h]
  have hsub : insert e (((U.erase u) ×ˢ (U.erase u)).filter (fun p => p.1 ≤ p.2)) ⊆
      (U ×ˢ U).filter (fun p => p.1 ≤ p.2) := by
    intro p hq
    rcases Finset.mem_insert.mp hq with rfl | hq
    · exact heU
    · simp only [Finset.mem_filter, Finset.mem_product, Finset.mem_erase] at hq ⊢
      exact ⟨⟨hq.1.1.2, hq.1.2.2⟩, hq.2⟩
  calc w + linkSum c (U.erase u)
      = ∑ p ∈ insert e (((U.erase u) ×ˢ (U.erase u)).filter (fun p => p.1 ≤ p.2)),
          (c p.1 p.2).getD 0 := by
        rw [Finset.sum_insert hnot, hce, linkSum]
    _ ≤ linkSum c U :=
        Finset.sum_le_sum_of_subset_of_nonneg hsub fun p _ _ => price_nonneg hp p.1 p.2

theorem price_le_linkSum (hp : Positive c) (hs : Symmetric c) {U : Finset V} (hU : Within c U)
    (hw : c u v = some w) : w ≤ linkSum c U := by
  obtain ⟨hu, hv⟩ := hU u v w hw
  have := linkSum_erase hp hs hu hv hw
  have := linkSum_nonneg hp (U.erase u)
  omega

/-- **A simple walk costs at most the sum of all links.** -/
theorem Walk.le_linkSum (hp : Positive c) (hs : Symmetric c) {U : Finset V} (h : Walk c s l t d)
    (hn : (s :: l).Nodup) (hU : ∀ x ∈ s :: l, x ∈ U) : d ≤ linkSum c U := by
  induction h generalizing U with
  | nil => exact linkSum_nonneg hp U
  | @cons u v t w l d hw _ ih =>
    obtain ⟨hu, hn'⟩ := List.nodup_cons.mp hn
    have hmem : ∀ x ∈ v :: l, x ∈ U.erase u := fun x hx =>
      Finset.mem_erase.mpr ⟨fun e => hu (e ▸ hx), hU x (List.mem_cons_of_mem _ hx)⟩
    have hle := ih hn' hmem
    have huU : u ∈ U := hU u List.mem_cons_self
    have hvU : v ∈ U := hU v (List.mem_cons_of_mem _ List.mem_cons_self)
    have := linkSum_erase hp hs huU hvU hw
    omega

omit [LinearOrder V] in
/-- The vertices of a walk that starts in `U`. -/
theorem Walk.mem_of_within {U : Finset V} (hU : Within c U) (h : Walk c s l t d) (hs : s ∈ U) :
    ∀ x ∈ s :: l, x ∈ U := by
  intro x hx
  rcases List.mem_cons.mp hx with rfl | hx
  · exact hs
  · exact h.mem_within hU x hx

omit [LinearOrder V] in
/-- A walk that starts in `U` ends there. -/
theorem Walk.end_mem {U : Finset V} (hU : Within c U) (h : Walk c s l t d) (hs : s ∈ U) :
    t ∈ U := by
  induction h with
  | nil => exact hs
  | cons hw _ ih => exact ih (hU _ _ _ hw).2

/-- Whatever is reachable is reachable within the sum of all links. -/
theorem Walk.exists_le_linkSum (hp : Positive c) (hs : Symmetric c) {U : Finset V}
    (hU : Within c U) (h : Walk c s l t d) (hsU : s ∈ U) :
    ∃ l' d', Walk c s l' t d' ∧ d' ≤ linkSum c U := by
  obtain ⟨l', d', h', hn, -, -⟩ := h.exists_simple hp
  exact ⟨l', d', h', h'.le_linkSum hp hs hn (h'.mem_of_within hU hsU)⟩

/-! ## Shortest distances -/

omit [LinearOrder V]

/-- `d` is the least price of a walk from `s` to `t`. -/
structure IsDist (c : V → V → Option ℤ) (s t : V) (d : ℤ) : Prop where
  attained : ∃ l, Walk c s l t d
  le : ∀ l d', Walk c s l t d' → d ≤ d'

/-- Some walk leads from `s` to `t`. -/
def Reachable (c : V → V → Option ℤ) (s t : V) : Prop := ∃ l d, Walk c s l t d

theorem reachable_comm (hs : Symmetric c) : Reachable c s t ↔ Reachable c t s := by
  constructor
  all_goals
    rintro ⟨l, d, h⟩
    obtain ⟨l', -, h'⟩ := h.reverse hs
    exact ⟨l', d, h'⟩

theorem IsDist.unique (h : IsDist c s t d) (h' : IsDist c s t d') : d = d' :=
  le_antisymm (h.le _ _ h'.attained.choose_spec) (h'.le _ _ h.attained.choose_spec)

theorem IsDist.symm (hs : Symmetric c) (h : IsDist c s t d) : IsDist c t s d := by
  constructor
  · obtain ⟨l, hl⟩ := h.attained
    obtain ⟨l', -, hl'⟩ := hl.reverse hs
    exact ⟨l', hl'⟩
  · intro l d' hw
    obtain ⟨l', -, hl'⟩ := hw.reverse hs
    exact h.le l' d' hl'

theorem isDist_self (hp : Positive c) (s : V) : IsDist c s s 0 :=
  ⟨⟨[], Walk.nil s⟩, fun _ _ h => h.nonneg hp⟩

theorem IsDist.nonneg (hp : Positive c) (h : IsDist c s t d) : 0 ≤ d :=
  h.attained.choose_spec.nonneg hp

/-- Whatever is reachable has a shortest distance. -/
theorem Reachable.exists_isDist (hp : Positive c) (h : Reachable c s t) : ∃ d, IsDist c s t d := by
  classical
  obtain ⟨l, d, hl⟩ := h
  have hnat : ∀ {l d}, Walk c s l t d → ∃ l, Walk c s l t (d.toNat : ℤ) := fun {l d} hl =>
    ⟨l, by rwa [Int.toNat_of_nonneg (hl.nonneg hp)]⟩
  have hex : ∃ n : ℕ, ∃ l, Walk c s l t n := ⟨d.toNat, hnat hl⟩
  refine ⟨Nat.find hex, Nat.find_spec hex, fun l' d' hl' => ?_⟩
  have hle := Nat.find_min' hex (hnat hl')
  have h0 := hl'.nonneg hp
  omega

theorem IsDist.reachable (h : IsDist c s t d) : Reachable c s t := by
  obtain ⟨l, hl⟩ := h.attained
  exact ⟨l, d, hl⟩

end NetworkingLearning.Paths
