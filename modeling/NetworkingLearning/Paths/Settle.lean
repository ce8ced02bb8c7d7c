import NetworkingLearning.Paths.Labelling

/-!
# Settling vertices in order of their label

The label-setting search, without its data structures: `S` is the set of settled vertices, `L` the
labels, `P` the predecessors. One step (`settleLabel`, `settlePred`) settles an unsettled vertex of
least label and relaxes its links to the vertices still unsettled; a vertex with label `top` is
settled too, and relaxes nothing. A tie between two predecessors goes to the smaller one.

Results:
* `Settling.step`: the invariant survives a step. That settled labels are final is not part of it:
  it follows from `mono`, since a later vertex has no smaller label.
* `Settling.isDist_least`, `Settling.least_le`: the vertex being settled has its shortest distance
  for a label, and no unsettled vertex is nearer.
* `Settling.labelling`, `Settling.isLeastPred`: when every vertex is settled, the labels are a
  `Labelling` and every predecessor is the least one on a shortest path.
* `Settling.add_le_linkSum`: no sum a step computes exceeds the sum of all links.
-/

namespace NetworkingLearning.Paths

variable {V : Type*} [LinearOrder V]

open Classical in
/-- The labels after settling `u`. -/
noncomputable def settleLabel (c : V → V → Option ℤ) (top : ℤ) (S : Set V) (L : V → ℤ) (u v : V) :
    ℤ :=
  match c u v with
  | some w => if v ∈ S ∨ v = u ∨ L u = top then L v else min (L v) (L u + w)
  | none => L v

open Classical in
/-- The predecessors after settling `u`. -/
noncomputable def settlePred (c : V → V → Option ℤ) (top : ℤ) (S : Set V) (L : V → ℤ)
    (P : V → Option V) (u v : V) : Option V :=
  match c u v with
  | some w =>
    if v ∈ S ∨ v = u ∨ L u = top then P v
    else if L u + w < L v ∨ (L u + w = L v ∧ ∀ p, P v = some p → u < p) then some u
    else P v
  | none => P v

/-- `u` is settled and reaches `v` at `v`'s label. -/
def Offers (c : V → V → Option ℤ) (S : Set V) (L : V → ℤ) (u v : V) : Prop :=
  u ∈ S ∧ ∃ w, c u v = some w ∧ L v = L u + w

/-- The search invariant. -/
structure Settling (c : V → V → Option ℤ) (top : ℤ) (s : V) (S : Set V) (L : V → ℤ)
    (P : V → Option V) : Prop where
  root : L s = 0
  nonneg : ∀ v, 0 ≤ L v
  le_top : ∀ v, L v ≤ top
  attained : ∀ v, L v < top →
    ∃ l, Walk c s l v (L v) ∧ (s :: l).Nodup ∧ ∀ x ∈ s :: l, x = v ∨ x ∈ S
  mono : ∀ u ∈ S, ∀ v, v ∉ S → L u ≤ L v
  relaxed : ∀ u ∈ S, ∀ v w, c u v = some w → L u < top → L v ≤ L u + w
  pred : ∀ v, v ≠ s → L v < top →
    ∃ u, P v = some u ∧ Offers c S L u v ∧ ∀ u', Offers c S L u' v → u ≤ u'

/-- The predecessor of `v` is the least vertex that offers its label. -/
def LeastOffer (c : V → V → Option ℤ) (S : Set V) (L : V → ℤ) (P : V → Option V) (v : V) : Prop :=
  ∃ u, P v = some u ∧ Offers c S L u v ∧ ∀ u', Offers c S L u' v → u ≤ u'

variable {c : V → V → Option ℤ} {top : ℤ} {s u v : V} {S : Set V} {L : V → ℤ} {P : V → Option V}

/-- Before the first step: label `0` at the root, `top` elsewhere. -/
theorem Settling.init (htop : 0 < top) (P : V → Option V) :
    Settling c top s ∅ (fun v => if v = s then 0 else top) P where
  root := if_pos rfl
  nonneg v := by
    by_cases h : v = s
    · simp [h]
    · simp [h, htop.le]
  le_top v := by
    by_cases h : v = s
    · simp [h, htop.le]
    · simp [h]
  attained v hv := by
    have h : v = s := by
      by_contra h
      simp [h] at hv
    subst h
    refine ⟨[], ?_, List.nodup_singleton v, fun x hx => Or.inl (List.mem_singleton.mp hx)⟩
    rw [if_pos rfl]
    exact Walk.nil v
  mono _ h := absurd h (Set.notMem_empty _)
  relaxed _ h := absurd h (Set.notMem_empty _)
  pred v hv hlt := by simp [hv] at hlt

/-- Only the predecessors of labelled vertices other than the root matter. -/
theorem Settling.congr (hI : Settling c top s S L P) {S' : Set V} {L' : V → ℤ}
    {P' : V → Option V} (hS : ∀ v, v ∈ S' ↔ v ∈ S) (hL : ∀ v, L' v = L v)
    (hP : ∀ v, v ≠ s → L v < top → P' v = P v) : Settling c top s S' L' P' := by
  obtain rfl : S' = S := Set.ext hS
  obtain rfl : L' = L := funext hL
  refine ⟨hI.root, hI.nonneg, hI.le_top, hI.attained, hI.mono, hI.relaxed, fun v hv hlt => ?_⟩
  rw [hP v hv hlt]
  exact hI.pred v hv hlt

section Step

theorem settleLabel_settled (hv : v ∈ S ∨ v = u ∨ L u = top) :
    settleLabel c top S L u v = L v := by
  unfold settleLabel
  cases c u v with
  | none => rfl
  | some w => exact if_pos hv

theorem settlePred_settled (hv : v ∈ S ∨ v = u ∨ L u = top) :
    settlePred c top S L P u v = P v := by
  unfold settlePred
  cases c u v with
  | none => rfl
  | some w => exact if_pos hv

theorem settleLabel_link {w : ℤ} (hv : ¬ (v ∈ S ∨ v = u ∨ L u = top)) (hw : c u v = some w) :
    settleLabel c top S L u v = min (L v) (L u + w) := by
  simp only [settleLabel, hw, if_neg hv]

theorem settleLabel_none (hw : c u v = none) : settleLabel c top S L u v = L v := by
  simp only [settleLabel, hw]

theorem settleLabel_le (v : V) : settleLabel c top S L u v ≤ L v := by
  by_cases hv : v ∈ S ∨ v = u ∨ L u = top
  · exact (settleLabel_settled hv).le
  · cases hw : c u v with
    | none => exact (settleLabel_none hw).le
    | some w =>
      rw [settleLabel_link hv hw]
      exact min_le_left _ _

/-- A label is kept, or improved along the link from `u`. -/
theorem settleLabel_cases (v : V) : settleLabel c top S L u v = L v ∨
    (∃ w, c u v = some w ∧ ¬ (v ∈ S ∨ v = u ∨ L u = top) ∧ L u + w < L v ∧
      settleLabel c top S L u v = L u + w) := by
  by_cases hv : v ∈ S ∨ v = u ∨ L u = top
  · exact Or.inl (settleLabel_settled hv)
  · cases hw : c u v with
    | none => exact Or.inl (settleLabel_none hw)
    | some w =>
      rw [settleLabel_link hv hw]
      rcases le_or_gt (L v) (L u + w) with h | h
      · exact Or.inl (min_eq_left h)
      · exact Or.inr ⟨w, rfl, hv, h, min_eq_right h.le⟩

variable (hI : Settling c top s S L P) (hp : Positive c) (hu : u ∉ S)
  (hleast : ∀ v, v ∉ S → L u ≤ L v)

include hI in
/-- The simple path to an unsettled vertex through a link of the vertex being settled. -/
theorem Settling.extend {w : ℤ} (hv : ¬ (v ∈ S ∨ v = u ∨ L u = top)) (hw : c u v = some w) :
    ∃ l, Walk c s l v (L u + w) ∧ (s :: l).Nodup ∧ ∀ x ∈ s :: l, x = v ∨ x ∈ insert u S := by
  push Not at hv
  obtain ⟨hvS, hvu, htop⟩ := hv
  obtain ⟨l, hl, hn, hmem⟩ := hI.attained u (lt_of_le_of_ne (hI.le_top u) htop)
  refine ⟨l ++ [v], hl.snoc hw, ?_, ?_⟩
  · rw [← List.cons_append, List.nodup_append]
    refine ⟨hn, List.nodup_singleton v, fun a ha b hb e => ?_⟩
    rw [List.mem_singleton.mp hb] at e
    rcases hmem a ha with h | h
    · exact hvu (e ▸ h)
    · exact hvS (e ▸ h)
  · intro x hx
    rw [← List.cons_append, List.mem_append, List.mem_singleton] at hx
    rcases hx with hx | hx
    · exact Or.inr ((hmem x hx).imp id id)
    · exact Or.inl hx

include hI hp in
/-- **No sum a step computes exceeds the sum of all links.** -/
theorem Settling.add_le_linkSum (hs : Symmetric c) {U : Finset V} (hU : Within c U) (hsU : s ∈ U)
    {w : ℤ} (hv : ¬ (v ∈ S ∨ v = u ∨ L u = top)) (hw : c u v = some w) :
    L u + w ≤ linkSum c U := by
  obtain ⟨l, hl, hn, -⟩ := hI.extend hv hw
  exact hl.le_linkSum hp hs hn (hl.mem_of_within hU hsU)

omit hI in
/-- A settled vertex, and the one being settled, keep their label. -/
theorem settleLabel_of_mem (hv : v ∈ insert u S) : settleLabel c top S L u v = L v :=
  settleLabel_settled (hv.elim (fun h => Or.inr (Or.inl h)) Or.inl)

omit hI in
/-- A settled vertex offers what it offered before, where the label stays. -/
theorem offers_insert_iff {u' : V} (hu' : u' ∈ S) (hL : settleLabel c top S L u v = L v) :
    Offers c (insert u S) (settleLabel c top S L u) u' v ↔ Offers c S L u' v := by
  have h : settleLabel c top S L u u' = L u' := settleLabel_settled (Or.inl hu')
  unfold Offers
  rw [h, hL]
  exact and_congr ⟨fun _ => hu', fun _ => Set.mem_insert_of_mem u hu'⟩ Iff.rfl

omit hI in
/-- What the vertex being settled offers. -/
theorem offers_insert_self_iff :
    Offers c (insert u S) (settleLabel c top S L u) u v ↔
      ∃ w, c u v = some w ∧ settleLabel c top S L u v = L u + w := by
  have h : settleLabel c top S L u u = L u := settleLabel_settled (Or.inr (Or.inl rfl))
  unfold Offers
  rw [h]
  exact and_iff_right (Set.mem_insert u S)

include hI in
/-- A vertex that keeps its label and gets no offer from `u` keeps its least predecessor. -/
theorem Settling.pred_keep (hvs : v ≠ s) (hlt : L v < top)
    (hL : settleLabel c top S L u v = L v) (hP : settlePred c top S L P u v = P v)
    (hno : ¬ Offers c (insert u S) (settleLabel c top S L u) u v) :
    LeastOffer c (insert u S) (settleLabel c top S L u) (settlePred c top S L P u) v := by
  obtain ⟨p, hp, hO, hmin⟩ := hI.pred v hvs hlt
  refine ⟨p, hP.trans hp, (offers_insert_iff hO.1 hL).mpr hO, fun u' hO' => ?_⟩
  rcases hO'.1 with rfl | hu'
  · exact absurd hO' hno
  · exact hmin u' ((offers_insert_iff hu' hL).mp hO')

include hI hp hu in
/-- A vertex that is settled, or would be relaxed by an unreached one, gets no offer from `u`: its
label is not above that of `u`. -/
theorem Settling.pred_frozen (hvs : v ≠ s) (hlt : settleLabel c top S L u v < top)
    (hv : v ∈ S ∨ v = u ∨ L u = top) :
    LeastOffer c (insert u S) (settleLabel c top S L u) (settlePred c top S L P u) v := by
  have hL := settleLabel_settled (c := c) hv
  rw [hL] at hlt
  refine hI.pred_keep hvs hlt hL (settlePred_settled hv) fun hO => ?_
  obtain ⟨w, hw, h⟩ := offers_insert_self_iff.mp hO
  rw [hL] at h
  have := hp _ _ _ hw
  rcases hv with hv | rfl | hv
  · have := hI.mono v hv u hu
    omega
  · omega
  · omega

include hI in
theorem Settling.pred_unlinked (hvs : v ≠ s) (hlt : settleLabel c top S L u v < top)
    (hw : c u v = none) :
    LeastOffer c (insert u S) (settleLabel c top S L u) (settlePred c top S L P u) v := by
  have hL : settleLabel c top S L u v = L v := settleLabel_none hw
  rw [hL] at hlt
  refine hI.pred_keep hvs hlt hL (by simp only [settlePred, hw]) fun hO => ?_
  obtain ⟨w, hw', -⟩ := offers_insert_self_iff.mp hO
  rw [hw] at hw'
  exact absurd hw' (by simp)

section Relaxed

variable {w : ℤ} (hv : ¬ (v ∈ S ∨ v = u ∨ L u = top)) (hw : c u v = some w)

include hI hp hv hw in
/-- A strictly better path: `u` alone offers it. -/
theorem Settling.pred_better (hlt : settleLabel c top S L u v < top) (h : L u + w < L v) :
    LeastOffer c (insert u S) (settleLabel c top S L u) (settlePred c top S L P u) v := by
  have hL : settleLabel c top S L u v = L u + w := by
    rw [settleLabel_link hv hw, min_eq_right h.le]
  have hP : settlePred c top S L P u v = some u := by
    simp only [settlePred, hw, if_neg hv, if_pos (Or.inl h)]
  rw [hL] at hlt
  refine ⟨u, hP, offers_insert_self_iff.mpr ⟨w, hw, hL⟩, fun u' hO => ?_⟩
  rcases hO.1 with rfl | hu'
  · exact le_refl _
  · obtain ⟨-, w', hw', he⟩ := hO
    rw [hL, settleLabel_of_mem (Set.mem_insert_of_mem u hu')] at he
    have := hp _ _ _ hw'
    have := hI.relaxed u' hu' v w' hw' (by omega)
    omega

include hI hv hw in
/-- A tie: the smaller of `u` and the old predecessor. -/
theorem Settling.pred_tie (hvs : v ≠ s) (hlt : settleLabel c top S L u v < top)
    (h : L u + w = L v) :
    LeastOffer c (insert u S) (settleLabel c top S L u) (settlePred c top S L P u) v := by
  have hL : settleLabel c top S L u v = L v := by
    rw [settleLabel_link hv hw, min_eq_left h.ge]
  rw [hL] at hlt
  obtain ⟨p, hPv, hO, hmin⟩ := hI.pred v hvs hlt
  have hmin' : ∀ u', Offers c (insert u S) (settleLabel c top S L u) u' v →
      u' = u ∨ p ≤ u' := by
    intro u' hO'
    rcases hO'.1 with rfl | hu'
    · exact Or.inl rfl
    · exact Or.inr (hmin u' ((offers_insert_iff hu' hL).mp hO'))
  by_cases hup : u < p
  · have hP : settlePred c top S L P u v = some u := by
      simp only [settlePred, hw, if_neg hv]
      refine if_pos (Or.inr ⟨h, fun q hq => ?_⟩)
      rw [hPv] at hq
      exact Option.some.inj hq ▸ hup
    refine ⟨u, hP, offers_insert_self_iff.mpr ⟨w, hw, by rw [hL, h]⟩, fun u' hO' => ?_⟩
    rcases hmin' u' hO' with rfl | hle
    · exact le_refl _
    · exact hup.le.trans hle
  · have hP : settlePred c top S L P u v = some p := by
      simp only [settlePred, hw, if_neg hv]
      rw [if_neg, hPv]
      rintro (h' | ⟨-, h'⟩)
      · omega
      · exact hup (h' p hPv)
    refine ⟨p, hP, (offers_insert_iff (u := u) hO.1 hL).mpr hO, fun u' hO' => ?_⟩
    rcases hmin' u' hO' with rfl | hle
    · exact not_lt.mp hup
    · exact hle

include hI hv hw in
theorem Settling.pred_worse (hvs : v ≠ s) (hlt : settleLabel c top S L u v < top)
    (h : L v < L u + w) :
    LeastOffer c (insert u S) (settleLabel c top S L u) (settlePred c top S L P u) v := by
  have hL : settleLabel c top S L u v = L v := by
    rw [settleLabel_link hv hw, min_eq_left h.le]
  have hP : settlePred c top S L P u v = P v := by
    simp only [settlePred, hw, if_neg hv]
    exact if_neg fun h' => by omega
  rw [hL] at hlt
  refine hI.pred_keep hvs hlt hL hP fun hO => ?_
  obtain ⟨w', hw', he⟩ := offers_insert_self_iff.mp hO
  rw [hw] at hw'
  obtain rfl := Option.some.inj hw'
  omega

end Relaxed

include hI in
theorem Settling.step_attained (hlt : settleLabel c top S L u v < top) :
    ∃ l, Walk c s l v (settleLabel c top S L u v) ∧ (s :: l).Nodup ∧
      ∀ x ∈ s :: l, x = v ∨ x ∈ insert u S := by
  rcases (settleLabel_cases v : settleLabel c top S L u v = L v ∨ _) with h | h
  · rw [h] at hlt ⊢
    obtain ⟨l, hl, hn, hmem⟩ := hI.attained v hlt
    exact ⟨l, hl, hn, fun x hx => (hmem x hx).imp id fun h => Set.mem_insert_of_mem u h⟩
  · obtain ⟨w, hw, hfree, -, h⟩ := h
    rw [h]
    exact hI.extend hfree hw

include hI hp hu hleast in
/-- A settled vertex stays below the others: a link costs something. -/
theorem Settling.step_mono {u' : V} (hu' : u' ∈ insert u S) (hv : v ∉ insert u S) :
    settleLabel c top S L u u' ≤ settleLabel c top S L u v := by
  rw [settleLabel_of_mem hu']
  have hvS : v ∉ S := fun h => hv (Set.mem_insert_of_mem u h)
  have hle : L u' ≤ L v ∧ L u' ≤ L u := by
    rcases hu' with rfl | hu'
    · exact ⟨hleast v hvS, le_refl _⟩
    · exact ⟨hI.mono u' hu' v hvS, hI.mono u' hu' u hu⟩
  rcases (settleLabel_cases v : settleLabel c top S L u v = L v ∨ _) with h | h
  · rw [h]
    exact hle.1
  · obtain ⟨w, hw, -, -, h⟩ := h
    have := hp _ _ _ hw
    omega

include hI hp hu in
theorem Settling.step_relaxed {u' : V} (hu' : u' ∈ insert u S) {w : ℤ} (hw : c u' v = some w)
    (hlt : settleLabel c top S L u u' < top) :
    settleLabel c top S L u v ≤ settleLabel c top S L u u' + w := by
  rw [settleLabel_of_mem hu'] at hlt ⊢
  rcases hu' with rfl | hu'
  · have hw0 := hp _ _ _ hw
    by_cases hv : v ∈ S ∨ v = u' ∨ L u' = top
    · rw [settleLabel_settled hv]
      rcases hv with hv | rfl | hv
      · have := hI.mono v hv u' hu
        omega
      · omega
      · omega
    · rw [settleLabel_link hv hw]
      exact min_le_right _ _
  · exact (settleLabel_le v).trans (hI.relaxed u' hu' v w hw hlt)

include hI hp hu hleast in
/-- **One step keeps the invariant.** -/
theorem Settling.step :
    Settling c top s (insert u S) (settleLabel c top S L u) (settlePred c top S L P u) where
  root := by
    have h0 : settleLabel c top S L u s ≤ 0 := (settleLabel_le s).trans hI.root.le
    rcases (settleLabel_cases s : settleLabel c top S L u s = L s ∨ _) with h | h
    · rw [h, hI.root]
    · obtain ⟨w, hw, -, hlt, -⟩ := h
      have := hp _ _ _ hw
      have := hI.nonneg u
      rw [hI.root] at hlt
      omega
  nonneg v := by
    rcases (settleLabel_cases v : settleLabel c top S L u v = L v ∨ _) with h | h
    · rw [h]
      exact hI.nonneg v
    · obtain ⟨w, hw, -, -, h⟩ := h
      have := hp _ _ _ hw
      have := hI.nonneg u
      omega
  le_top v := (settleLabel_le v).trans (hI.le_top v)
  attained _ hlt := hI.step_attained hlt
  mono _ hu' _ hv := hI.step_mono hp hu hleast hu' hv
  relaxed _ hu' _ _ hw hlt := hI.step_relaxed hp hu hu' hw hlt
  pred v hvs hlt := by
    by_cases hv : v ∈ S ∨ v = u ∨ L u = top
    · exact hI.pred_frozen hp hu hvs hlt hv
    · cases hw : c u v with
      | none => exact hI.pred_unlinked hvs hlt hw
      | some w =>
        rcases lt_trichotomy (L u + w) (L v) with h | h | h
        · exact hI.pred_better hp hv hw hlt h
        · exact hI.pred_tie hv hw hvs hlt h
        · exact hI.pred_worse hv hw hvs hlt h

include hI hp hleast in
/-- While `u` is a least unsettled vertex, a walk that undercuts the label at its end costs at least
the label of `u`. -/
theorem Settling.le_or_le_walk {x : V} {l : List V} {d : ℤ} (h : Walk c x l v d) :
    L v ≤ L x + d ∨ L u ≤ L x + d := by
  induction h with
  | nil => exact Or.inl (add_zero _).ge
  | @cons x y v w l d hw h ih =>
    have hd := h.nonneg hp
    have hw0 := hp _ _ _ hw
    by_cases hx : x ∈ S
    · by_cases hlt : L x < top
      · have hle := hI.relaxed x hx y w hw hlt
        exact ih.imp (fun h => by omega) fun h => by omega
      · have := hI.le_top v
        exact Or.inl (by omega)
    · have := hleast x hx
      exact Or.inr (by omega)

include hI hp hleast in
/-- No unsettled vertex is nearer than `u`. -/
theorem Settling.least_le (hv : v ∉ S) {b : ℤ} (hb : IsDist c s v b) : L u ≤ b := by
  obtain ⟨l, hl⟩ := hb.attained
  have hle := hleast v hv
  have h := hI.le_or_le_walk hp hleast hl
  rw [hI.root, zero_add] at h
  rcases h with h | h
  · exact hle.trans h
  · exact h

include hI hp hleast in
/-- **The label of a vertex is final when it is settled.** -/
theorem Settling.isDist_least (hlt : L u < top) : IsDist c s u (L u) := by
  obtain ⟨l, hl, -⟩ := hI.attained u hlt
  refine ⟨⟨l, hl⟩, fun l' d' hl' => ?_⟩
  have h := hI.le_or_le_walk hp hleast hl'
  rw [hI.root, zero_add] at h
  exact h.elim id id

end Step

/-! ## When every vertex is settled -/

/-- **The labels are the final state of a relaxation algorithm.** -/
theorem Settling.labelling (hI : Settling c top s S L P) {U : Finset V} (hU : Within c U)
    (hall : ∀ v ∈ U, v ∈ S) : Labelling c top s L where
  root := hI.root
  le_top := hI.le_top
  attained v hv := by
    obtain ⟨l, hl, -⟩ := hI.attained v hv
    exact ⟨l, hl⟩
  relaxed u v w hw hlt := hI.relaxed u (hall u (hU u v w hw).1) v w hw hlt

/-- **Every predecessor is the least one on a shortest path.** -/
theorem Settling.isLeastPred (hI : Settling c top s S L P) (hp : Positive c) {U : Finset V}
    (hU : Within c U) (hall : ∀ v ∈ U, v ∈ S) (hvs : v ≠ s) (hlt : L v < top) :
    ∃ u, P v = some u ∧ IsLeastPred c s v u := by
  have hL := hI.labelling hU hall
  obtain ⟨u, hP, ⟨-, w, hw, he⟩, hmin⟩ := hI.pred v hvs hlt
  have hw0 := hp _ _ _ hw
  have hdv := hL.isDist hp hlt
  refine ⟨u, hP, ⟨L u, w, hL.isDist hp (by omega), hw, he ▸ hdv⟩, ?_⟩
  rintro u' ⟨a, w', ha, hw', hd⟩
  have hw0' := hp _ _ _ hw'
  have hLv : L v = a + w' := hdv.unique hd
  obtain ⟨l, hl⟩ := ha.attained
  have hle : L u' ≤ a := hL.le_walk hp hl
  have hLu : L u' = a := (hL.isDist hp (by omega)).unique ha
  exact hmin u' ⟨hall u' (hU u' v w' hw').1, w', hw', by rw [hLv, hLu]⟩

end NetworkingLearning.Paths
