import Mathlib.Data.List.Count
import NetworkingLearning.Text.Decimal
import NetworkingLearning.Text.Search

/-!
# Strings (`std::string`)

The operations of a `std::string` with places in it. Its size is a `size_t` other than `npos`, which
stands for a place that there is not: `Str` has this as a field. `substr` has no result where it
throws `out_of_range`, and `stoi` none where it throws `invalid_argument` or `out_of_range`.

* `findFirstOf` is `find_first_of` of one symbol, from a place on.
* `printStr` is what `%s` prints of `c_str()`: the string up to its first zero.

Results:
* `findFirstOf_of_eq`, `findFirstOf_of_notMem`: what a search from a place on finds.
* `mem_splitOn`, `length_splitOn`: the pieces of a list are free of its separator, and there is one
  more of them.
* `stoi_printInt`: a printed `int` is read back.
* `printStr_pieces_iff`: printed behind a separator each they are the list again, exactly if there
  is no zero in it.
-/

namespace NetworkingLearning.Text

open NetworkingLearning.Machine

/-- `string::npos`. -/
def npos : ℕ := 2 ^ 64 - 1

/-- `std::string`. -/
structure Str where
  chars : List UInt8
  size_lt : chars.length < npos

/-- `find_first_of` with one symbol, from a place on. -/
def findFirstOf (s : Str) (c : UInt8) (pos : ℕ) : ℕ :=
  match find [c] (s.chars.drop pos) with
  | some i => pos + i
  | none => npos

/-- `substr`. -/
def substr (s : Str) (pos len : ℕ) : Option (List UInt8) :=
  if pos > s.chars.length then none else some ((s.chars.drop pos).take len)

/-- `std::stoi`, without a result where it throws. -/
def stoi (s : List UInt8) : Option ℤ :=
  let (v, read) := strtol s
  if read = 0 then none
  else if v < -2 ^ 31 ∨ 2 ^ 31 ≤ v then none
  else some v

/-- `%s` of a `c_str`: the bytes before the first zero. -/
def printStr (s : List UInt8) : List UInt8 := s.takeWhile (· != 0)

/-- Bytes as a `String` of the first characters. -/
def ofBytes (s : List UInt8) : String := String.ofList (s.map fun b => Char.ofNat b.toNat)

section Places

variable {s : Str} {c : UInt8} {pos : ℕ} {front rest : List UInt8}

/-- The rest has no such symbol. -/
theorem findFirstOf_of_notMem (h : c ∉ s.chars.drop pos) : findFirstOf s c pos = npos := by
  have hnone : find [c] (s.chars.drop pos) = none := by
    rw [find_eq_none_iff, List.singleton_infix_iff]
    exact h
  rw [findFirstOf, hnone]

/-- The rest starts with a piece that has no such symbol, which follows it. -/
theorem findFirstOf_of_eq (hfront : c ∉ front) (h : s.chars.drop pos = front ++ c :: rest) :
    findFirstOf s c pos = pos + front.length := by
  have hfound : find [c] (s.chars.drop pos) = some front.length := by
    rw [h]
    refine (find_append_iff (List.cons_ne_nil c [])).mpr ?_
    rw [List.dropLast_singleton, List.append_nil, List.singleton_infix_iff]
    exact hfront
  rw [findFirstOf, hfound]

end Places

/-! ## Pieces -/

section Pieces

variable {α : Type*} [BEq α] [LawfulBEq α] {c : α}

/-- Induction over the pieces of a list: the last one has no separator behind it. -/
theorem pieces_induction (c : α) {P : List α → Prop} (last : ∀ xs, c ∉ xs → P xs)
    (next : ∀ front rest, c ∉ front → P rest → P (front ++ c :: rest)) (xs : List α) : P xs := by
  induction hn : xs.length using Nat.strong_induction_on generalizing xs with
  | _ n ih =>
    by_cases h : c ∈ xs
    · obtain ⟨front, rest, rfl, hfront⟩ := List.eq_append_cons_of_mem h
      refine next front rest hfront (ih rest.length ?_ rest rfl)
      rw [List.length_append, List.length_cons] at hn
      omega
    · exact last xs h

/-- No piece has the separator in it. -/
theorem mem_splitOn (xs : List α) : ∀ w ∈ xs.splitOn c, c ∉ w := by
  induction xs using pieces_induction c with
  | last xs h =>
    rw [List.splitOn_eq_singleton h]
    exact List.forall_mem_singleton.mpr h
  | next front rest hfront ih =>
    rw [List.splitOn_append_cons_self_of_not_mem hfront]
    exact List.forall_mem_cons.mpr ⟨hfront, ih⟩

/-- There is one piece more than there are separators. -/
theorem length_splitOn (xs : List α) : (xs.splitOn c).length = xs.count c + 1 := by
  induction xs using pieces_induction c with
  | last xs h => rw [List.splitOn_eq_singleton h, List.count_eq_zero_of_not_mem h]; rfl
  | next front rest hfront ih =>
    rw [List.splitOn_append_cons_self_of_not_mem hfront, List.length_cons, ih, List.count_append,
      List.count_eq_zero_of_not_mem hfront, List.count_cons_self, Nat.zero_add]

end Pieces

section Printed

variable {s : List UInt8} {c : UInt8} {v : ℤ}

/-- A printed `int` is read back. -/
theorem stoi_printInt (h : -2 ^ 31 ≤ v) (h' : v < 2 ^ 31) : stoi (printInt v) = some v := by
  have hread : strtol (printInt v ++ []) = _ :=
    strtol_printInt (by omega) (by omega) (fun b hb => absurd hb (by simp))
  rw [List.append_nil] at hread
  have hne : (printInt v).length ≠ 0 := by
    rw [Ne, List.length_eq_zero_iff]
    exact printInt_ne_nil v
  simp only [stoi, hread]
  rw [if_neg hne, if_neg (by omega)]

/-- There is no space in it. -/
theorem space_notMem_printInt (v : ℤ) : 32 ∉ printInt v := by
  intro h
  rcases mem_printInt h with h | h
  · exact absurd h (by decide)
  · exact absurd h (by decide)

theorem printStr_of_notMem (h : 0 ∉ s) : printStr s = s :=
  List.takeWhile_eq_self_iff.mpr (all_ne_of_notMem h)

/-- A zero cuts off what follows. -/
theorem printStr_append (h : 0 ∉ s) (rest : List UInt8) : printStr (s ++ 0 :: rest) = s := by
  rw [printStr, List.takeWhile_append_of_pos (all_ne_of_notMem h),
    List.takeWhile_cons_of_neg (by decide), List.append_nil]

/-- **The pieces that are printed** behind a separator each are the list again exactly if there is
no zero in it. -/
theorem printStr_pieces_iff (hc : c ≠ 0) (s : List UInt8) :
    (s.splitOn c).flatMap (fun w => c :: printStr w) = c :: s ↔ 0 ∉ s := by
  induction s using pieces_induction c with
  | last s h =>
    rw [List.splitOn_eq_singleton h, List.flatMap_singleton, List.cons_inj_right]
    exact List.takeWhile_eq_self_iff.trans (by simp [List.forall_mem_ne'])
  | next front rest hfront ih =>
    rw [List.splitOn_append_cons_self_of_not_mem hfront, List.flatMap_cons, List.cons_append,
      List.cons_inj_right]
    by_cases hzero : 0 ∈ front
    · obtain ⟨s, t, rfl, hs⟩ := List.eq_append_cons_of_mem hzero
      obtain ⟨w, ws, hw⟩ := List.exists_cons_of_ne_nil (List.splitOn_ne_nil c rest)
      refine ⟨fun h => absurd ?_ hc, fun h => absurd (List.mem_append_left _ hzero) h⟩
      rw [printStr_append hs, List.append_assoc, List.append_cancel_left_eq, hw] at h
      exact (List.cons.inj h).1
    · rw [printStr_of_notMem hzero, List.append_cancel_left_eq, ih]
      simp only [List.mem_append, List.mem_cons, not_or]
      exact ⟨fun h => ⟨hzero, hc.symm, h⟩, fun h => h.2.2⟩

@[simp] theorem ascii_ofBytes (s : List UInt8) : ascii (ofBytes s) = s := by
  have hbyte : ∀ b : UInt8, UInt8.ofNat (Char.ofNat b.toNat).toNat = b := by
    intro b
    have hlt := b.toNat_lt
    have hvalid : b.toNat.isValidChar := Or.inl (by omega)
    have hnat : (Char.ofNat b.toNat).toNat = b.toNat := by
      unfold Char.ofNat
      rw [dif_pos hvalid]
      rfl
    rw [hnat, UInt8.ofNat_toNat]
  rw [ascii, ofBytes, String.toList_ofList, List.map_map]
  exact (List.map_congr_left fun b _ => hbyte b).trans (List.map_id s)

theorem ofBytes_injective : Function.Injective ofBytes :=
  Function.LeftInverse.injective ascii_ofBytes

@[simp] theorem ofBytes_append (s t : List UInt8) : ofBytes (s ++ t) = ofBytes s ++ ofBytes t := by
  rw [ofBytes, List.map_append, String.ofList_append]
  rfl

end Printed

end NetworkingLearning.Text
