import NetworkingLearning.Paths.Labelling

/-!
# Exchanging distance vectors in rounds

Every vertex `u` keeps a label `L u x` and a next vertex `F u x` for every destination `x`. In a
round the vertices that are `fresh` send all their labels to their neighbours, and everyone takes
what improves on its own; of equal offers the smallest sender wins. `Round` says what a round may
do, without saying in which order offers are looked at.

Results:
* `Exchanging.round`: a round keeps the invariant. Its heart is `Descent`: every label is the price
  of a simple walk on which no vertex is labelled above the rest of the walk, so a label that went
  around a circle would not have been taken. It bounds the labels (`Exchanging.le_linkSum`) at any
  time, not only in the end.
* `Stepped.round`: after `k` rounds the labels are the least prices of walks of at most `k` links.
* `Stepped.isDist`, `TiesTaken.least`: one round less than there are vertices finds all distances,
  and for each the least of the next vertices.
* `Exchanging.labelling`, `Exchanging.tight`, `Exchanging.least_next`: when no neighbour is fresh,
  the labels are a `Labelling` for every destination, the next vertices account for them, and each
  is the smallest that does.
-/

namespace NetworkingLearning.Paths

variable {V : Type*}

/-- A simple walk on which no vertex is labelled above the rest of the walk. -/
inductive Descent (c : V → V → Option ℤ) (L : V → ℤ) : V → List V → V → ℤ → Prop
  | nil (x : V) (h : L x ≤ 0) : Descent c L x [] x 0
  | cons {u v x : V} {w d : ℤ} {l : List V} (hw : c u v = some w) (h : Descent c L v l x d)
      (hle : L u ≤ w + d) (hnot : u ∉ v :: l) : Descent c L u (v :: l) x (w + d)

section Descent

variable {c : V → V → Option ℤ} {L L' : V → ℤ} {u v x : V} {l : List V} {d : ℤ}

theorem Descent.walk (h : Descent c L u l x d) : Walk c u l x d := by
  induction h with
  | nil x _ => exact Walk.nil x
  | cons hw _ _ _ ih => exact Walk.cons hw ih

theorem Descent.nodup (h : Descent c L u l x d) : (u :: l).Nodup := by
  induction h with
  | nil x _ => exact List.nodup_singleton x
  | cons _ _ _ hnot ih => exact List.nodup_cons.mpr ⟨hnot, ih⟩

/-- No vertex of the walk is labelled above the whole price. -/
theorem Descent.le_of_mem (h : Descent c L u l x d) (hp : Positive c) (hv : v ∈ u :: l) :
    L v ≤ d := by
  induction h with
  | nil x h =>
    rw [List.mem_singleton.mp hv]
    exact h
  | cons hw _ hle _ ih =>
    rcases List.mem_cons.mp hv with rfl | hv
    · exact hle
    · have := hp _ _ _ hw
      have := ih hv
      omega

/-- Labels only fall. -/
theorem Descent.mono (h : Descent c L u l x d) (hL : ∀ v, L' v ≤ L v) : Descent c L' u l x d := by
  induction h with
  | nil x h => exact Descent.nil x ((hL x).trans h)
  | @cons u _ _ _ _ _ hw _ hle hnot ih => exact Descent.cons hw ih ((hL u).trans hle) hnot

end Descent

variable [LinearOrder V]

/-- The exchange invariant. -/
structure Exchanging (c : V → V → Option ℤ) (top : ℤ) (U : Finset V) (L : V → V → ℤ)
    (F : V → V → Option V) (fresh : V → Prop) : Prop where
  root : ∀ x ∈ U, L x x = 0
  le_top : ∀ u x, L u x ≤ top
  descent : ∀ u x, L u x < top → ∃ l, Descent c (fun v => L v x) u l x (L u x)
  settled : ∀ u n w x, c u n = some w → ¬ fresh n → L u x ≤ w + L n x
  next : ∀ u x, u ≠ x → L u x < top → ∃ n w, F u x = some n ∧ c u n = some w ∧ w + L n x ≤ L u x
  least : ∀ u x f n w, u ≠ x → L u x < top → F u x = some f → ¬ fresh n → c u n = some w →
    L u x = w + L n x → f ≤ n

/-- What a round may do: `L`, `F`, `fresh` before it, `L'`, `F'`, `fresh'` after it. Nothing is said
of the next vertex where the label is `top`. -/
structure Round (c : V → V → Option ℤ) (top : ℤ) (L : V → V → ℤ) (F : V → V → Option V)
    (fresh : V → Prop) (L' : V → V → ℤ) (F' : V → V → Option V) (fresh' : V → Prop) : Prop where
  taken : ∀ u x, (L' u x = L u x ∧ (L u x < top → F' u x = F u x)) ∨
    ∃ n w, c u n = some w ∧ L n x < top ∧ F' u x = some n ∧ L' u x = w + L n x ∧ L' u x ≤ L u x
  offered : ∀ u n w x, fresh n → c u n = some w → L n x < top →
    L' u x ≤ w + L n x ∧
      (L' u x < top → L' u x = w + L n x → ∃ f, F' u x = some f ∧ f ≤ n)
  older : ∀ u x f, L' u x = L u x → F u x = some f → ∃ f', F' u x = some f' ∧ f' ≤ f
  quiet : ∀ n, ¬ fresh' n → ∀ x, L' n x = L n x

variable {c : V → V → Option ℤ} {top : ℤ} {U : Finset V} {L L' : V → V → ℤ}
  {F F' : V → V → Option V} {fresh fresh' : V → Prop}

/-- No labels but those of the destinations for themselves; of two linked vertices none is done. -/
theorem Exchanging.init (hroot : ∀ x ∈ U, L x x = 0) (hle : ∀ u x, L u x ≤ top)
    (htop : ∀ u x, L u x < top → u = x ∧ L u x = 0)
    (hfresh : ∀ u n w, c u n = some w → ¬ fresh n → u = n) (hp : Positive c) :
    Exchanging c top U L F fresh where
  root := hroot
  le_top := hle
  descent u x hlt := by
    obtain ⟨rfl, h0⟩ := htop u x hlt
    refine ⟨[], ?_⟩
    rw [h0]
    exact Descent.nil u h0.le
  settled u n w x hw hn := by
    obtain rfl := hfresh u n w hw hn
    have := hp _ _ _ hw
    omega
  next u x hux hlt := absurd (htop u x hlt).1 hux
  least u x _ _ _ hux hlt := absurd (htop u x hlt).1 hux

/-- Only the next vertices that are there matter. -/
theorem Exchanging.extend (hE : Exchanging c top U L F fresh)
    (hF : ∀ u x f, F u x = some f → F' u x = some f) : Exchanging c top U L F' fresh where
  root := hE.root
  le_top := hE.le_top
  descent := hE.descent
  settled := hE.settled
  next u x hux hlt := by
    obtain ⟨n, w, hn, hw⟩ := hE.next u x hux hlt
    exact ⟨n, w, hF u x n hn, hw⟩
  least u x f n w hux hlt hf := by
    obtain ⟨f0, _, hf0, -⟩ := hE.next u x hux hlt
    obtain rfl := Option.some.inj ((hF u x f0 hf0).symm.trans hf)
    exact hE.least u x f0 n w hux hlt hf0

theorem Round.mono (hR : Round c top L F fresh L' F' fresh') (u x : V) : L' u x ≤ L u x := by
  rcases hR.taken u x with ⟨h, -⟩ | ⟨_, _, -, -, -, -, h⟩
  · exact h.le
  · exact h

section Invariant

variable (hE : Exchanging c top U L F fresh) (hp : Positive c)

include hE hp

theorem Exchanging.nonneg {u x : V} (hlt : L u x < top) : 0 ≤ L u x := by
  obtain ⟨l, hl⟩ := hE.descent u x hlt
  exact hl.walk.nonneg hp

/-- **A label below `top` is at most the sum of all links**, at any time. -/
theorem Exchanging.le_linkSum (hs : Symmetric c) (hU : Within c U) {u x : V} (hu : u ∈ U)
    (hlt : L u x < top) : L u x ≤ linkSum c U := by
  obtain ⟨l, hl⟩ := hE.descent u x hlt
  exact hl.walk.le_linkSum hp hs hl.nodup (hl.walk.mem_of_within hU hu)

/-- **A round keeps the invariant.** -/
theorem Exchanging.round (hR : Round c top L F fresh L' F' fresh') :
    Exchanging c top U L' F' fresh' := by
  have hmono := hR.mono
  constructor
  · intro x hx
    rcases hR.taken x x with ⟨h, -⟩ | ⟨n, w, hw, hlt, -, h, hle⟩
    · rw [h, hE.root x hx]
    · have := hp _ _ _ hw
      have := hE.nonneg hp hlt
      rw [hE.root x hx] at hle
      omega
  · exact fun u x => (hmono u x).trans (hE.le_top u x)
  · intro u x hlt
    rcases hR.taken u x with ⟨h, -⟩ | ⟨n, w, hw, hn, -, h, hle⟩
    · rw [h] at hlt ⊢
      obtain ⟨l, hl⟩ := hE.descent u x hlt
      exact ⟨l, hl.mono fun v => hmono v x⟩
    · obtain ⟨l, hl⟩ := hE.descent n x hn
      have hw0 := hp _ _ _ hw
      rw [h]
      -- a walk back through `u` would be labelled below what it offers
      refine ⟨n :: l, Descent.cons hw (hl.mono fun v => hmono v x) h.le fun hu => ?_⟩
      have := hl.le_of_mem hp hu
      omega
  · intro u n w x hw hn
    rw [hR.quiet n hn]
    by_cases hf : fresh n
    · rcases lt_or_eq_of_le (hE.le_top n x) with hlt | htop
      · exact (hR.offered u n w x hf hw hlt).1
      · have := hE.le_top u x
        have := hmono u x
        have := hp _ _ _ hw
        omega
    · exact (hmono u x).trans (hE.settled u n w x hw hf)
  · intro u x hux hlt
    rcases hR.taken u x with ⟨h, hF⟩ | ⟨n, w, hw, -, hF, h, -⟩
    · rw [h] at hlt
      obtain ⟨n, w, hn, hw, hle⟩ := hE.next u x hux hlt
      have := hmono n x
      exact ⟨n, w, by rw [hF hlt, hn], hw, by omega⟩
    · have := hmono n x
      exact ⟨n, w, hF, hw, by omega⟩
  · intro u x f n w hux hlt hF hn hw he
    have hw0 := hp _ _ _ hw
    rw [hR.quiet n hn] at he
    by_cases hf : fresh n
    · obtain ⟨f', hF', hle⟩ := (hR.offered u n w x hf hw (by omega)).2 hlt he
      rw [hF] at hF'
      exact Option.some.inj hF' ▸ hle
    · -- the sender said this before: the label stood and its next vertex was small enough
      have hL : L' u x = L u x := by
        have := hE.settled u n w x hw hf
        have := hmono u x
        omega
      rw [hL] at hlt he
      obtain ⟨f0, _, hf0, -⟩ := hE.next u x hux hlt
      obtain ⟨f', hF', hle⟩ := hR.older u x f0 hL hf0
      rw [hF] at hF'
      obtain rfl := Option.some.inj hF'
      exact hle.trans (hE.least u x f0 n w hux hlt hf0 hf hw he)

end Invariant

/-! ## Rounds and links -/

/-- `d` is the least price of a walk of at most `k` links from `u` to `x`. -/
structure IsDistIn (c : V → V → Option ℤ) (k : ℕ) (u x : V) (d : ℤ) : Prop where
  attained : ∃ l, Walk c u l x d ∧ l.length ≤ k
  le : ∀ l d', Walk c u l x d' → l.length ≤ k → d ≤ d'

/-- The labels after `k` rounds: least prices of walks of at most `k` links. -/
structure Stepped (c : V → V → Option ℤ) (top : ℤ) (U : Finset V) (k : ℕ) (L : V → V → ℤ) :
    Prop where
  attained : ∀ u x, L u x < top → ∃ l, Walk c u l x (L u x) ∧ l.length ≤ k
  le : ∀ u, ∀ x ∈ U, ∀ l d, Walk c u l x d → l.length ≤ k → L u x ≤ d

omit [LinearOrder V] in
theorem IsDistIn.unique {k : ℕ} {u x : V} {d d' : ℤ} (h : IsDistIn c k u x d)
    (h' : IsDistIn c k u x d') : d = d' := by
  obtain ⟨l, hl, hk⟩ := h.attained
  obtain ⟨l', hl', hk'⟩ := h'.attained
  exact le_antisymm (h.le _ _ hl' hk') (h'.le _ _ hl hk)

/-- A least price within any number of links is at most the sum of all links. -/
theorem IsDistIn.le_linkSum {k : ℕ} {u x : V} {d : ℤ} (h : IsDistIn c k u x d) (hp : Positive c)
    (hs : Symmetric c) (hU : Within c U) (hu : u ∈ U) : d ≤ linkSum c U := by
  obtain ⟨l, hl, hk⟩ := h.attained
  obtain ⟨l', d', hl', hn, -, hlen⟩ := hl.exists_simple hp
  exact (h.le l' d' hl' (hlen.trans hk)).trans
    (hl'.le_linkSum hp hs hn (hl'.mem_of_within hU hu))

omit [LinearOrder V] in
/-- A label below `top` is the least price within its number of links, and the other way round. -/
theorem Stepped.isDistIn {k : ℕ} {u x : V} (h : Stepped c top U k L) (hx : x ∈ U)
    (hlt : L u x < top) : IsDistIn c k u x (L u x) :=
  ⟨h.attained u x hlt, fun l d' hl hk => h.le u x hx l d' hl hk⟩

omit [LinearOrder V] in
theorem Stepped.eq_of_isDistIn {k : ℕ} {u x : V} {d : ℤ} (h : Stepped c top U k L) (hx : x ∈ U)
    (hd : IsDistIn c k u x d) (hlt : d < top) : L u x = d := by
  obtain ⟨l, hl, hk⟩ := hd.attained
  exact (h.isDistIn hx ((h.le u x hx l d hl hk).trans_lt hlt)).unique hd

/-- **A round looks one link further.** -/
theorem Stepped.round {k : ℕ} (h : Stepped c top U k L) (hE : Exchanging c top U L F fresh)
    (hp : Positive c) (hR : Round c top L F fresh L' F' fresh') : Stepped c top U (k + 1) L' := by
  constructor
  · intro u x hlt
    rcases hR.taken u x with ⟨he, -⟩ | ⟨n, w, hw, hn, -, he, -⟩
    · rw [he] at hlt ⊢
      obtain ⟨l, hl, hk⟩ := h.attained u x hlt
      exact ⟨l, hl, hk.trans (Nat.le_succ k)⟩
    · obtain ⟨l, hl, hk⟩ := h.attained n x hn
      rw [he]
      exact ⟨n :: l, Walk.cons hw hl, Nat.succ_le_succ hk⟩
  · intro u x hx l d hl hk
    cases hl with
    | nil =>
      rw [← hE.root u hx]
      exact hR.mono u u
    | @cons _ v _ w l d hw hl =>
      have hle := h.le v x hx l d hl (Nat.le_of_succ_le_succ hk)
      have hmono := hR.mono u x
      by_cases hf : fresh v
      · rcases lt_or_eq_of_le (hE.le_top v x) with hlt | htop
        · have := (hR.offered u v w x hf hw hlt).1
          omega
        · have := hE.le_top u x
          have := hp _ _ _ hw
          omega
      · have := hE.settled u v w x hw hf
        omega

/-! ## How many rounds -/

/-- After `k` rounds, a neighbour that accounts for a label by a walk of less than `k` links has
been compared with the next vertex. -/
def TiesTaken (c : V → V → Option ℤ) (top : ℤ) (k : ℕ) (L : V → V → ℤ) (F : V → V → Option V) :
    Prop :=
  ∀ u n w x l, c u n = some w → u ≠ x → L u x < top → L u x = w + L n x →
    Walk c n l x (L n x) → l.length < k → ∃ f, F u x = some f ∧ f ≤ n

/-- **A round takes the ties** with the labels before it. -/
theorem Round.tie (hE : Exchanging c top U L F fresh) (hp : Positive c)
    (hR : Round c top L F fresh L' F' fresh') {u n x : V} {w : ℤ} (hw : c u n = some w)
    (hux : u ≠ x) (hlt : L' u x < top) (he : L' u x = w + L n x) :
    ∃ f, F' u x = some f ∧ f ≤ n := by
  have hw0 := hp _ _ _ hw
  by_cases hf : fresh n
  · exact (hR.offered u n w x hf hw (by omega)).2 hlt he
  · have hL : L' u x = L u x := by
      have := hE.settled u n w x hw hf
      have := hR.mono u x
      omega
    rw [hL] at hlt he
    obtain ⟨f, _, hf0, -⟩ := hE.next u x hux hlt
    obtain ⟨f', hF', hle⟩ := hR.older u x f hL hf0
    exact ⟨f', hF', hle.trans (hE.least u x f n w hux hlt hf0 hf hw he)⟩

theorem TiesTaken.round {k : ℕ} (hk : Stepped c top U k L) (hE : Exchanging c top U L F fresh)
    (hp : Positive c) (hU : Within c U) (hR : Round c top L F fresh L' F' fresh') :
    TiesTaken c top (k + 1) L' F' := by
  intro u n w x l hw hux hlt he hl hlen
  -- a walk of at most `k` links was known before the round
  have hx : x ∈ U := hl.end_mem hU (hU u n w hw).2
  have hle := hk.le n x hx l _ hl (Nat.le_of_lt_succ hlen)
  have hn : L' n x = L n x := le_antisymm (hR.mono n x) hle
  exact hR.tie hE hp hw hux hlt (hn ▸ he)

omit [LinearOrder V] in
/-- A list without repetition is not longer than the set it is from. -/
theorem length_le_card {l : List V} (hnodup : l.Nodup) (hmem : ∀ v ∈ l, v ∈ U) :
    l.length ≤ U.card := by
  classical
  rw [← List.toFinset_card_of_nodup hnodup]
  exact Finset.card_le_card fun v hv => hmem v (List.mem_toFinset.mp hv)

section Card

variable {k : ℕ} (hk : Stepped c top U k L) (hp : Positive c) (hU : Within c U)

include hp hU

omit [LinearOrder V] in
/-- A shortest walk passes each vertex at most once. -/
theorem IsDist.exists_simple {u x : V} {d : ℤ} (h : IsDist c u x d) (hu : u ∈ U) :
    ∃ l, Walk c u l x d ∧ (u :: l).Nodup ∧ ∀ v ∈ u :: l, v ∈ U := by
  obtain ⟨l, hl⟩ := h.attained
  obtain ⟨l', d', hl', hnodup, hle, -⟩ := hl.exists_simple hp
  obtain rfl : d = d' := le_antisymm (h.le _ _ hl') hle
  exact ⟨l', hl', hnodup, hl'.mem_of_within hU hu⟩

include hk

omit [LinearOrder V] in
/-- **One round less than there are vertices** finds all distances. -/
theorem Stepped.isDist (hcard : U.card ≤ k + 1) {u x : V} (hu : u ∈ U) (hlt : L u x < top) :
    IsDist c u x (L u x) := by
  obtain ⟨l, hl, -⟩ := hk.attained u x hlt
  obtain ⟨d, hd⟩ := Reachable.exists_isDist hp ⟨l, _, hl⟩
  obtain ⟨l', hl', hnodup, hmem⟩ := hd.exists_simple hp hU hu
  have hlen := length_le_card hnodup hmem
  rw [List.length_cons] at hlen
  have hle := hk.le u x (hl.end_mem hU hu) l' d hl' (by omega)
  exact (le_antisymm hle (hd.le _ _ hl)) ▸ hd

/-- **Then all ties are taken.** -/
theorem TiesTaken.least (hties : TiesTaken c top k L F) (hcard : U.card ≤ k + 1) {u n x : V}
    {w : ℤ} (hw : c u n = some w) (hux : u ≠ x) (hlt : L u x < top) (he : L u x = w + L n x) :
    ∃ f, F u x = some f ∧ f ≤ n := by
  have hw0 := hp _ _ _ hw
  have ⟨hu, hn⟩ := hU u n w hw
  have hud := hk.isDist hp hU hcard hu hlt
  have hnd := hk.isDist hp hU hcard (x := x) hn (by omega)
  obtain ⟨l, hl, hnodup, hmem⟩ := hnd.exists_simple hp hU hn
  refine hties u n w x l hw hux hlt he hl ?_
  -- the walk leaves `u` out, which is further away
  have hul : u ∉ n :: l := fun hul => by
    obtain ⟨l', d', hl', -, hle⟩ := hl.suffix hp hul
    have := hud.le l' d' hl'
    omega
  have hlen := length_le_card (List.nodup_cons.mpr ⟨hul, hnodup⟩)
    (List.forall_mem_cons.mpr ⟨hu, hmem⟩)
  simp only [List.length_cons] at hlen
  omega

end Card

/-! ## When no neighbour is fresh -/

section Quiet

variable (hE : Exchanging c top U L F fresh) (hquiet : ∀ u n w, c u n = some w → ¬ fresh n)

include hE hquiet

/-- **The labels for a destination are the final state of a relaxation algorithm.** -/
theorem Exchanging.labelling (hs : Symmetric c) {x : V} (hx : x ∈ U) :
    Labelling c top x (fun u => L u x) where
  root := hE.root x hx
  le_top u := hE.le_top u x
  attained u hlt := by
    obtain ⟨l, hl⟩ := hE.descent u x hlt
    obtain ⟨l', -, hl'⟩ := hl.walk.reverse hs
    exact ⟨l', hl'⟩
  relaxed u v w hw _ := by
    rw [hs u v] at hw
    have := hE.settled v u w x hw (hquiet v u w hw)
    omega

/-- **The next vertices account for the labels.** -/
theorem Exchanging.tight (x : V) : Tight c top x (fun u => L u x) (fun u => F u x) := by
  intro u hux hlt
  obtain ⟨n, w, hF, hw, hle⟩ := hE.next u x hux hlt
  exact ⟨n, w, hF, hw, le_antisymm (hE.settled u n w x hw (hquiet u n w hw)) hle⟩

/-- **Each next vertex is the smallest that accounts for the label.** -/
theorem Exchanging.least_next {u x f n : V} {w : ℤ} (hux : u ≠ x) (hlt : L u x < top)
    (hF : F u x = some f) (hw : c u n = some w) (he : L u x = w + L n x) : f ≤ n :=
  hE.least u x f n w hux hlt hF (hquiet u n w hw) hw he

end Quiet

end NetworkingLearning.Paths
