import NetworkingLearning.Heaps.Sift

/-!
# The operations of `heapq`

Python's `heapify`, `heappush`, `heappop` and `heapreplace` on a list, by the sifts and with the
cases of the library: `heappop` of one entry leaves nothing to sift, `heapreplace` returns the root
that was there before. An operation that raises `IndexError` on an empty list is `none` there.

`heappop` and `heapreplace` are specified from `HeapFrom key 1`, the order but for the root: the
entry there may have been given another key before. A program that changes an entry in its place and
then calls them is covered by that.

Results:
* `heapify_isHeap`, `heappush_isHeap`, `heappop_spec`, `heapreplace_spec`: each operation
  establishes or restores the order.
* `heapify_perm`, `heappush_perm`: which entries the list has then.
-/

namespace NetworkingLearning.Heaps

variable {α κ : Type*} [LinearOrder κ] (key : α → κ)

/-- `heapify`: `_siftup` at each index with a child, the last one first. -/
def heapify (l : List α) : List α :=
  (List.range (l.length / 2)).foldr (fun i l => siftup key i l) l

/-- `heappush`. -/
def heappush (l : List α) (item : α) : List α :=
  siftdown key 0 l.length l.length (l ++ [item])

/-- `heapreplace`: the root, and the list with `item` in its place. -/
def heapreplace (l : List α) (item : α) : Option (α × List α) :=
  match l with
  | [] => none
  | returnitem :: rest => some (returnitem, siftup key 0 (item :: rest))

/-- `heappop`: the root, and the list with the last entry in its place. -/
def heappop (l : List α) : Option (α × List α) :=
  match l.getLast? with
  | none => none
  | some lastelt =>
    match l.dropLast with
    | [] => some (lastelt, [])
    | returnitem :: rest => some (returnitem, siftup key 0 (lastelt :: rest))

section Operations

variable {key} {l l' rest : List α} {a b item : α} {s : ℕ}

theorem heapify_perm (l : List α) : (heapify key l).Perm l := by
  have hall : ∀ is : List ℕ, (is.foldr (fun i l => siftup key i l) l).Perm l := by
    intro is
    induction is with
    | nil => exact List.Perm.refl l
    | cons i is ih => exact (siftup_perm i _).trans ih
  exact hall _

/-- Entries without a child are in order. -/
theorem heapFrom_half (l : List α) : HeapFrom key (l.length / 2) l := by
  intro k hk hp
  have hle : l.length ≤ k := by
    unfold parent at hp
    omega
  rw [keyAt_of_le hle]
  exact le_top

/-- `_siftup` at the indices below `n`, one after another. -/
theorem foldr_siftup_isHeap : ∀ (n : ℕ) (l : List α), n ≤ l.length → HeapFrom key n l →
    IsHeap key ((List.range n).foldr (fun i l => siftup key i l) l) := by
  intro n
  induction n with
  | zero => exact fun l _ h => h
  | succ n ih =>
    intro l hle h
    rw [List.range_succ, List.foldr_append]
    have hlen : (siftup key n l).length = l.length := (siftup_perm n l).length_eq
    exact ih (siftup key n l) (by omega) (siftup_heapFrom h (by omega))

/-- **`heapify` establishes the heap order.** -/
theorem heapify_isHeap (l : List α) : IsHeap key (heapify key l) :=
  foldr_siftup_isHeap _ l (Nat.div_le_self _ _) (heapFrom_half l)

theorem heappush_perm (l : List α) (item : α) : (heappush key l item).Perm (item :: l) :=
  (siftdown_perm _ _ _).trans (List.perm_append_singleton item l)

theorem under_zero (k : ℕ) : Under 0 k := by
  induction k using Nat.strongRecOn with
  | ind k ih =>
    rcases Nat.eq_zero_or_pos k with rfl | hk
    · exact Under.root
    · exact Under.child hk (ih _ (parent_lt hk))

/-- **`heappush` keeps the heap order.** -/
theorem heappush_isHeap (h : IsHeap key l) (item : α) : IsHeap key (heappush key l item) := by
  refine siftdown_heapFrom _ _ _ ⟨under_zero _, ?_, fun k hk _ hne => ?_, fun _ k hk hkp => ?_⟩
    (le_refl _)
  · rw [List.length_append]
    exact Nat.lt_succ_self _
  · by_cases hlt : k < l.length
    · rw [keyAt_append_left hlt, keyAt_append_left ((parent_lt hk).trans hlt)]
      exact h k hk (Nat.zero_le _)
    · rw [keyAt_of_le (show (l ++ [item]).length ≤ k by
        rw [List.length_append, List.length_singleton]
        omega)]
      exact le_top
  · have hlt := parent_lt hk
    rw [keyAt_of_le (show (l ++ [item]).length ≤ k by
      rw [List.length_append, List.length_singleton]
      omega)]
    exact le_top

/-- A change of all entries that keeps their order keeps the order of the heap. -/
theorem HeapFrom.map (h : HeapFrom key s l) {f : α → α}
    (hf : ∀ a b, key a ≤ key b → key (f a) ≤ key (f b)) : HeapFrom key s (l.map f) := by
  have hmap : ∀ j (hj : j < l.length),
      keyAt key (l.map f) j = (key (f l[j]) : WithTop κ) := fun j hj => by
    rw [keyAt_of_lt (show j < (l.map f).length by rwa [List.length_map]), List.getElem_map]
  intro k hk hp
  by_cases hlt : k < l.length
  · have hle := h k hk hp
    rw [keyAt_of_lt hlt, keyAt_of_lt ((parent_lt hk).trans hlt), WithTop.coe_le_coe] at hle
    rw [hmap k hlt, hmap _ ((parent_lt hk).trans hlt), WithTop.coe_le_coe]
    exact hf _ _ hle
  · rw [keyAt_of_le (show (l.map f).length ≤ k by rw [List.length_map]; exact not_lt.mp hlt)]
    exact le_top

/-- The root does not matter for the order of the rest. -/
theorem HeapFrom.root (h : HeapFrom key 1 (a :: rest)) (b : α) : HeapFrom key 1 (b :: rest) := by
  intro k hk hp
  have hk' := h k hk hp
  obtain ⟨p, hpar⟩ : ∃ p, parent k = p + 1 := ⟨parent k - 1, by omega⟩
  obtain ⟨j, rfl⟩ : ∃ j, k = j + 1 := ⟨k - 1, by omega⟩
  rw [hpar] at hk' ⊢
  exact hk'

/-- Without the last entry the order remains. -/
theorem HeapFrom.dropLast (h : HeapFrom key s l) : HeapFrom key s l.dropLast := by
  intro k hk hp
  by_cases hlt : k < l.dropLast.length
  · have hcut : ∀ j < l.dropLast.length, keyAt key l.dropLast j = keyAt key l j := fun j hj => by
      rw [keyAt, keyAt, List.getElem?_dropLast, if_pos]
      rwa [List.length_dropLast] at hj
    rw [hcut k hlt, hcut _ ((parent_lt hk).trans hlt)]
    exact h k hk hp
  · rw [keyAt_of_le (not_lt.mp hlt)]
    exact le_top

/-- **`heapreplace` restores the heap order**, and the root is exchanged. -/
theorem heapreplace_spec (h : HeapFrom key 1 (a :: rest)) (item : α) :
    ∃ l', heapreplace key (a :: rest) item = some (a, l') ∧ IsHeap key l' ∧
      l'.Perm (item :: rest) :=
  ⟨_, rfl, siftup_heapFrom (h.root item) (Nat.zero_lt_succ _), siftup_perm 0 _⟩

/-- **`heappop` restores the heap order**, and the root is gone. -/
theorem heappop_spec (h : HeapFrom key 1 (a :: rest)) :
    ∃ l', heappop key (a :: rest) = some (a, l') ∧ IsHeap key l' ∧ l'.Perm rest := by
  rcases List.eq_nil_or_concat rest with rfl | ⟨init, lastelt, rfl⟩
  · refine ⟨[], rfl, fun k hk _ => ?_, List.Perm.refl _⟩
    rw [keyAt_of_le (show ([] : List α).length ≤ k from Nat.zero_le k)]
    exact le_top
  · have hinit : HeapFrom key 1 (a :: init) := by
      have := h.dropLast
      rwa [List.concat_eq_append, ← List.cons_append, List.dropLast_concat] at this
    refine ⟨siftup key 0 (lastelt :: init), ?_,
      siftup_heapFrom (hinit.root lastelt) (Nat.zero_lt_succ _), ?_⟩
    · rw [heappop, List.concat_eq_append, ← List.cons_append, List.getLast?_concat,
        List.dropLast_concat]
    · rw [List.concat_eq_append]
      exact (siftup_perm 0 _).trans (List.perm_append_singleton lastelt init).symm

end Operations

end NetworkingLearning.Heaps
