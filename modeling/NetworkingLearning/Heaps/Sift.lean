import Mathlib.Data.List.Basic
import Mathlib.Data.List.Perm.Basic
import Mathlib.Order.WithBot

/-!
# Binary heaps in a list: the two sifts

A list in level order, the children of `k` at `2 * k + 1` and `2 * k + 2`. Entries are compared by a
key in a linear order. `keyAt` is the key at an index, and `⊤` past the end, so that a heap is
stated without bounds.

The sifts are those of Python's `heapq` (`_siftdown` and `_siftup` of its documentation and source).
`siftup` moves an entry down to a leaf along the smaller children, whatever its key is, and
`siftdown` moves it up again from there. The library moves a hole and writes the entry last; the
list at the end is the one that swapping gives.

* `HeapFrom key k` is the order from index `k` on, which `heapify` extends downwards.
* `UpOrder` and `DownOrder` are the loop invariants: the order but for the entry that is moved,
  whose parent and children are in order with each other.

Results:
* `siftdown_heapFrom`, `siftup_heapFrom`: what the sifts do to the order.
* `siftdown_perm`, `siftup_perm`: they move entries only.
-/

namespace NetworkingLearning.Heaps

/-- The parent of an index. -/
def parent (k : ℕ) : ℕ := (k - 1) / 2

theorem parent_lt {k : ℕ} (hk : 0 < k) : parent k < k := by
  unfold parent
  omega

theorem parent_eq_iff {k p : ℕ} (hk : 0 < k) : parent k = p ↔ k = 2 * p + 1 ∨ k = 2 * p + 2 := by
  unfold parent
  omega

/-- The indices of the subtree of `s`. -/
inductive Under (s : ℕ) : ℕ → Prop
  | root : Under s s
  | child {k : ℕ} (hk : 0 < k) (h : Under s (parent k)) : Under s k

theorem Under.le {s k : ℕ} (h : Under s k) : s ≤ k := by
  induction h with
  | root => exact le_refl s
  | child hk _ ih => exact ih.trans (parent_lt hk).le

theorem Under.parent {s k : ℕ} (h : Under s k) (hne : s < k) :
    Under s (parent k) ∧ s ≤ parent k := by
  cases h with
  | root => exact absurd hne (lt_irrefl s)
  | child _ h => exact ⟨h, h.le⟩

variable {α κ : Type*} (key : α → κ)

/-- The key at an index, `⊤` past the end. -/
def keyAt (l : List α) (k : ℕ) : WithTop κ := (l[k]?).elim ⊤ fun a => (key a : WithTop κ)

/-- The entries at `i` and `j` change places. -/
def swap (l : List α) (i j : ℕ) : List α :=
  match l[i]?, l[j]? with
  | some a, some b => (l.set i b).set j a
  | _, _ => l

section Keys

variable {key} {l : List α} {i j k : ℕ}

theorem keyAt_of_le (h : l.length ≤ k) : keyAt key l k = ⊤ := by
  rw [keyAt, List.getElem?_eq_none h]
  rfl

theorem keyAt_of_lt (h : k < l.length) : keyAt key l k = (key l[k] : WithTop κ) := by
  rw [keyAt, List.getElem?_eq_getElem h]
  rfl

theorem swap_perm (l : List α) (i j : ℕ) : (swap l i j).Perm l := by
  unfold swap
  split
  · rename_i a b ha hb
    obtain ⟨hi, rfl⟩ := List.getElem?_eq_some_iff.mp ha
    obtain ⟨hj, rfl⟩ := List.getElem?_eq_some_iff.mp hb
    exact List.set_set_perm hi hj
  · exact List.Perm.refl l

@[simp] theorem swap_length (l : List α) (i j : ℕ) : (swap l i j).length = l.length :=
  (swap_perm l i j).length_eq

/-- **The keys after a swap.** -/
theorem keyAt_swap (hi : i < l.length) (hj : j < l.length) (k : ℕ) :
    keyAt key (swap l i j) k =
      if k = i then keyAt key l j else if k = j then keyAt key l i else keyAt key l k := by
  have hs : swap l i j = (l.set i l[j]).set j l[i] := by
    rw [swap, List.getElem?_eq_getElem hi, List.getElem?_eq_getElem hj]
  rw [hs]
  simp only [keyAt, List.getElem?_set, List.length_set]
  by_cases hkj : j = k
  · subst hkj
    by_cases hij : j = i
    · subst hij
      simp [hj]
    · simp [hij, hi, hj]
  · by_cases hki : i = k
    · subst hki
      simp [hkj, hi, hj]
    · simp [hkj, hki, Ne.symm hkj, Ne.symm hki]

theorem keyAt_append_left (hk : k < l.length) (l₂ : List α) :
    keyAt key (l ++ l₂) k = keyAt key l k := by
  rw [keyAt, keyAt, List.getElem?_append_left hk]

end Keys

variable [LinearOrder κ]

/-- Entries whose parent is `s` or after it are not before their parent. -/
def HeapFrom (s : ℕ) (l : List α) : Prop :=
  ∀ k, 0 < k → s ≤ parent k → keyAt key l (parent k) ≤ keyAt key l k

/-- The heap order. -/
def IsHeap (l : List α) : Prop := HeapFrom key 0 l

theorem HeapFrom.mono {key : α → κ} {l : List α} {s i : ℕ} (h : HeapFrom key s l) (hs : s ≤ i) :
    HeapFrom key i l := fun k hk hp => h k hk (hs.trans hp)

/-! ## Moving up -/

/-- `_siftdown`: the entry at `pos` moves up, as far as `startpos`, past those after it. -/
def siftdown (startpos : ℕ) : ℕ → ℕ → List α → List α
  | 0, _, l => l
  | fuel + 1, pos, l =>
    if startpos < pos ∧ keyAt key l pos < keyAt key l (parent pos) then
      siftdown startpos fuel (parent pos) (swap l pos (parent pos))
    else l

/-- What `_siftdown` needs: the entry at `pos` alone may be before its parent, and its children
are not before that. -/
structure UpOrder (s pos : ℕ) (l : List α) : Prop where
  under : Under s pos
  lt : pos < l.length
  except : ∀ k, 0 < k → s ≤ parent k → k ≠ pos → keyAt key l (parent k) ≤ keyAt key l k
  grand : s < pos → ∀ k, 0 < k → parent k = pos → keyAt key l (parent pos) ≤ keyAt key l k

section Up

variable {key} {l : List α} {s pos : ℕ}

/-- One pass of the loop. -/
theorem UpOrder.move (h : UpOrder key s pos l) (hs : s < pos)
    (hlt : keyAt key l pos < keyAt key l (parent pos)) :
    UpOrder key s (parent pos) (swap l pos (parent pos)) := by
  obtain ⟨hunder, hle⟩ := h.under.parent hs
  have hp := parent_lt (Nat.zero_lt_of_lt hs)
  have hpl := hp.trans h.lt
  refine ⟨hunder, by rwa [swap_length], fun k hk hsk hne => ?_, fun hsp k hk hkp => ?_⟩
  · rw [keyAt_swap h.lt hpl, keyAt_swap h.lt hpl]
    have hkp := parent_lt hk
    by_cases hkpos : k = pos
    · subst hkpos
      rw [if_neg hp.ne, if_pos rfl, if_pos rfl]
      exact hlt.le
    · rw [if_neg hkpos, if_neg hne]
      split_ifs with h1 h2
      · exact h.grand hs k hk h1
      · rw [← h2] at hlt
        exact hlt.le.trans (h.except k hk hsk hkpos)
      · exact h.except k hk hsk hkpos
  · have hpp := parent_lt (Nat.zero_lt_of_lt hsp)
    have hup := h.except (parent pos) (Nat.zero_lt_of_lt hsp) (hunder.parent hsp).2 hp.ne
    rw [keyAt_swap h.lt hpl, keyAt_swap h.lt hpl, if_neg (hpp.trans hp).ne, if_neg hpp.ne]
    by_cases hkpos : k = pos
    · rwa [if_pos hkpos]
    · have hkne : k ≠ parent pos := fun he => by
        have := parent_lt hk
        omega
      rw [if_neg hkpos, if_neg hkne]
      exact hup.trans (hkp ▸ h.except k hk (hkp ▸ hle) hkpos)

/-- The end of the loop. -/
theorem UpOrder.finish (h : UpOrder key s pos l)
    (hstop : s < pos → keyAt key l (parent pos) ≤ keyAt key l pos) : HeapFrom key s l := by
  intro k hk hsk
  by_cases hkpos : k = pos
  · subst hkpos
    exact hstop (hsk.trans_lt (parent_lt hk))
  · exact h.except k hk hsk hkpos

/-- **`_siftdown` restores the order** of the subtrees from `startpos` on. -/
theorem siftdown_heapFrom : ∀ (fuel pos : ℕ) (l : List α), UpOrder key s pos l → pos ≤ fuel →
    HeapFrom key s (siftdown key s fuel pos l) := by
  intro fuel
  induction fuel with
  | zero => exact fun pos l h hle => h.finish fun hs => absurd hs (by omega)
  | succ fuel ih =>
    intro pos l h hle
    rw [siftdown]
    split_ifs with hc
    · have hp := parent_lt (Nat.zero_lt_of_lt hc.1)
      exact ih _ _ (h.move hc.1 hc.2) (by omega)
    · exact h.finish fun hs => not_lt.mp fun hlt => hc ⟨hs, hlt⟩

theorem siftdown_perm : ∀ (fuel pos : ℕ) (l : List α), (siftdown key s fuel pos l).Perm l := by
  intro fuel
  induction fuel with
  | zero => exact fun pos l => List.Perm.refl l
  | succ fuel ih =>
    intro pos l
    rw [siftdown]
    split_ifs
    · exact (ih _ _).trans (swap_perm l _ _)
    · exact List.Perm.refl l

end Up

/-! ## Moving down -/

/-- The smaller child of `pos`, the right one if they are equal. -/
def childpos (l : List α) (pos : ℕ) : ℕ :=
  if 2 * pos + 2 < l.length ∧ ¬ keyAt key l (2 * pos + 1) < keyAt key l (2 * pos + 2) then
    2 * pos + 2
  else 2 * pos + 1

/-- The loop of `_siftup`: the smaller children move up, down to a leaf. -/
def siftupLoop : ℕ → ℕ → List α → ℕ × List α
  | 0, pos, l => (pos, l)
  | fuel + 1, pos, l =>
    if 2 * pos + 1 < l.length then
      siftupLoop fuel (childpos key l pos) (swap l pos (childpos key l pos))
    else (pos, l)

/-- `_siftup`. -/
def siftup (pos : ℕ) (l : List α) : List α :=
  let r := siftupLoop key l.length pos l
  siftdown key pos r.1 r.1 r.2

/-- What the loop of `_siftup` needs: the pairs with `pos` may be out of order, but for those of its
parent and its children. -/
structure DownOrder (s pos : ℕ) (l : List α) : Prop where
  under : Under s pos
  lt : pos < l.length
  except : ∀ k, 0 < k → s ≤ parent k → k ≠ pos → parent k ≠ pos →
    keyAt key l (parent k) ≤ keyAt key l k
  grand : s < pos → ∀ k, 0 < k → parent k = pos → keyAt key l (parent pos) ≤ keyAt key l k

section Down

variable {key} {l : List α} {s pos : ℕ}

theorem childpos_spec (key : α → κ) (h : 2 * pos + 1 < l.length) :
    parent (childpos key l pos) = pos ∧ pos < childpos key l pos ∧
      childpos key l pos < l.length ∧
      ∀ k, 0 < k → parent k = pos → keyAt key l (childpos key l pos) ≤ keyAt key l k := by
  unfold childpos
  split_ifs with hc
  · refine ⟨(parent_eq_iff (by omega)).mpr (Or.inr rfl), by omega, hc.1, fun k hk hkp => ?_⟩
    rcases (parent_eq_iff hk).mp hkp with rfl | rfl
    · exact not_lt.mp hc.2
    · exact le_refl _
  · refine ⟨(parent_eq_iff (by omega)).mpr (Or.inl rfl), by omega, h, fun k hk hkp => ?_⟩
    rcases (parent_eq_iff hk).mp hkp with rfl | rfl
    · exact le_refl _
    · by_cases hr : 2 * pos + 2 < l.length
      · exact (not_not.mp fun hn => hc ⟨hr, hn⟩).le
      · rw [keyAt_of_le (by omega : l.length ≤ 2 * pos + 2)]
        exact le_top

/-- One pass of the loop. -/
theorem DownOrder.move (h : DownOrder key s pos l) (hc : 2 * pos + 1 < l.length) :
    DownOrder key s (childpos key l pos) (swap l pos (childpos key l pos)) := by
  obtain ⟨hcp, hlt, hcl, hmin⟩ := childpos_spec key hc
  generalize childpos key l pos = c at hcp hlt hcl hmin
  have hc0 : 0 < c := by omega
  refine ⟨Under.child hc0 (hcp.symm ▸ h.under), by rwa [swap_length], fun k hk hsk hne hkp => ?_,
    fun _ k hk hkp => ?_⟩
  · have hklt := parent_lt hk
    rw [keyAt_swap h.lt hcl, keyAt_swap h.lt hcl, if_neg hkp, if_neg hne]
    split_ifs with h1 h2 h2
    · omega
    · exact hmin k hk h1
    · subst h2
      exact h.grand (hsk.trans_lt hklt) c hc0 hcp
    · exact h.except k hk hsk h2 h1
  · have hklt := parent_lt hk
    rw [keyAt_swap h.lt hcl, keyAt_swap h.lt hcl, hcp, if_pos rfl, if_neg (by omega),
      if_neg (by omega), ← hkp]
    exact h.except k hk (by have := h.under.le; omega) (by omega) (by omega)

/-- At a leaf. -/
theorem DownOrder.leaf (h : DownOrder key s pos l) (hc : l.length ≤ 2 * pos + 1) :
    UpOrder key s pos l := by
  have htop : ∀ k, 0 < k → parent k = pos → keyAt key l k = ⊤ := fun k hk hkp => by
    rcases (parent_eq_iff hk).mp hkp with rfl | rfl <;> exact keyAt_of_le (by omega)
  refine ⟨h.under, h.lt, fun k hk hsk hne => ?_, fun _ k hk hkp => ?_⟩
  · by_cases hkp : parent k = pos
    · rw [htop k hk hkp]
      exact le_top
    · exact h.except k hk hsk hne hkp
  · rw [htop k hk hkp]
    exact le_top

/-- The loop ends at a leaf. -/
theorem siftupLoop_spec : ∀ (fuel pos : ℕ) (l : List α), DownOrder key s pos l →
    l.length ≤ pos + fuel →
    UpOrder key s (siftupLoop key fuel pos l).1 (siftupLoop key fuel pos l).2 := by
  intro fuel
  induction fuel with
  | zero => exact fun pos l h hle => absurd h.lt (by omega)
  | succ fuel ih =>
    intro pos l h hle
    rw [siftupLoop]
    split_ifs with hc
    · have hlt := (childpos_spec key hc).2.1
      exact ih _ _ (h.move hc) (by rw [swap_length]; omega)
    · exact h.leaf (by omega)

theorem siftupLoop_perm : ∀ (fuel pos : ℕ) (l : List α), (siftupLoop key fuel pos l).2.Perm l := by
  intro fuel
  induction fuel with
  | zero => exact fun pos l => List.Perm.refl l
  | succ fuel ih =>
    intro pos l
    rw [siftupLoop]
    split_ifs
    · exact (ih _ _).trans (swap_perm l _ _)
    · exact List.Perm.refl l

theorem siftup_perm (pos : ℕ) (l : List α) : (siftup key pos l).Perm l :=
  (siftdown_perm _ _ _).trans (siftupLoop_perm _ _ _)

/-- **`_siftup` restores the order** of the subtree of `s`, if those after it have it. -/
theorem siftup_heapFrom (h : HeapFrom key (s + 1) l) (hs : s < l.length) :
    HeapFrom key s (siftup key s l) := by
  refine siftdown_heapFrom _ _ _ (siftupLoop_spec _ _ _ ⟨Under.root, hs, ?_, ?_⟩ (by omega))
    (le_refl _)
  · exact fun k hk hsk _ hkp => h k hk (by omega)
  · exact fun hlt => absurd hlt (lt_irrefl s)

end Down

/-! ## What the order says -/

section Order

variable {key} {l : List α}

/-- **The root is first.** -/
theorem IsHeap.root_le (h : IsHeap key l) (k : ℕ) : keyAt key l 0 ≤ keyAt key l k := by
  induction k using Nat.strongRecOn with
  | ind k ih =>
    rcases Nat.eq_zero_or_pos k with rfl | hk
    · exact le_refl _
    · exact (ih _ (parent_lt hk)).trans (h k hk (Nat.zero_le _))

/-- **One of the root's children is second.** -/
theorem IsHeap.child_le (h : IsHeap key l) {k : ℕ} (hk : 0 < k) :
    keyAt key l 1 ≤ keyAt key l k ∨ keyAt key l 2 ≤ keyAt key l k := by
  induction k using Nat.strongRecOn with
  | ind k ih =>
    rcases Nat.eq_zero_or_pos (parent k) with hp | hp
    · rcases (parent_eq_iff hk).mp hp with rfl | rfl
      · exact Or.inl (le_refl _)
      · exact Or.inr (le_refl _)
    · have hup := h k hk (Nat.zero_le _)
      exact (ih _ (parent_lt hk) hp).imp (fun h1 => h1.trans hup) fun h2 => h2.trans hup

end Order

end NetworkingLearning.Heaps
