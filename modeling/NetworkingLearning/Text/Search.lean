import Mathlib.Data.List.Infix
import Mathlib.Data.List.DropRight
import Mathlib.Algebra.Order.Ring.Nat

/-!
# Searching a list for another

`find` is the place of the first occurrence of a pattern, as `strstr`, `strchr` and `find_first_of`
have it; `token` the next piece of a list between two separators, as `strtok` does. Both are of
lists over any type with decidable equality, and name no string.

A search is specified from both sides: where it finds, there is an occurrence and none before it,
and where it does not, there is none. What is needed of streams is how a search in a start of a list
goes on when more of it is there.

Results:
* `find_eq_some_iff`, `find_eq_none_iff`: what a search finds.
* `find_take`: a search in a prefix finds the same place as soon as the whole occurrence is there.
* `find_shortest`: a search cuts off the shortest prefix with the pattern at its end.
* `find_append_iff`: where a pattern stands, it is found unless it occurs before.
* `infix_append_cons_iff`: no occurrence reaches over a symbol that is not in the pattern.
* `find_append_cons`: behind such a symbol a search starts again.
-/

namespace NetworkingLearning.Text

variable {α : Type*}

section Find

variable [DecidableEq α] {pat xs ys : List α} {i n : ℕ}

/-- The place of the first occurrence of `pat`. -/
def find (pat : List α) : List α → Option ℕ
  | [] => if pat <+: [] then some 0 else none
  | x :: xs => if pat <+: x :: xs then some 0 else (find pat xs).map (· + 1)

theorem find_at_start (h : pat <+: xs) : find pat xs = some 0 := by
  cases xs with
  | nil => exact if_pos h
  | cons x xs => exact if_pos h

theorem find_cons {x : α} (h : ¬ pat <+: x :: xs) :
    find pat (x :: xs) = (find pat xs).map (· + 1) := if_neg h

/-- **The place found** is that of an occurrence, and there is none before it. -/
theorem find_eq_some_iff : find pat xs = some i ↔
    i ≤ xs.length ∧ pat <+: xs.drop i ∧ ∀ j < i, ¬ pat <+: xs.drop j := by
  induction xs generalizing i with
  | nil =>
    unfold find
    split
    · rename_i h
      constructor
      · intro hi
        cases hi
        exact ⟨le_rfl, h, fun j hj => absurd hj (Nat.not_lt_zero j)⟩
      · rintro ⟨hi, -⟩
        rw [Nat.le_zero.mp hi]
    · rename_i h
      refine ⟨fun hi => (nomatch hi), fun hi => absurd ?_ h⟩
      simpa using hi.2.1
  | cons x xs ih =>
    by_cases h : pat <+: x :: xs
    · rw [find_at_start h]
      constructor
      · intro hi
        cases hi
        exact ⟨Nat.zero_le _, h, fun j hj => absurd hj (Nat.not_lt_zero j)⟩
      · rintro ⟨-, -, hbefore⟩
        rcases Nat.eq_zero_or_pos i with hi | hi
        · rw [hi]
        · exact absurd h (hbefore 0 hi)
    · rw [find_cons h, Option.map_eq_some_iff]
      constructor
      · rintro ⟨k, hk, rfl⟩
        obtain ⟨hle, hocc, hbefore⟩ := ih.mp hk
        refine ⟨Nat.succ_le_succ hle, hocc, fun j hj => ?_⟩
        cases j with
        | zero => exact h
        | succ j => exact hbefore j (Nat.lt_of_succ_lt_succ hj)
      · rintro ⟨hle, hocc, hbefore⟩
        cases i with
        | zero => exact absurd hocc h
        | succ i =>
          refine ⟨i, ih.mpr ⟨Nat.le_of_succ_le_succ hle, hocc, fun j hj => ?_⟩, rfl⟩
          exact hbefore (j + 1) (Nat.succ_lt_succ hj)

/-- **Nothing is found** exactly if there is no occurrence. -/
theorem find_eq_none_iff : find pat xs = none ↔ ¬ pat <:+: xs := by
  induction xs with
  | nil =>
    rw [List.infix_nil]
    unfold find
    split
    · rename_i h
      exact ⟨fun hn => (nomatch hn), fun hn => absurd (List.prefix_nil.mp h) hn⟩
    · rename_i h
      exact ⟨fun _ hp => h (List.prefix_nil.mpr hp), fun _ => rfl⟩
  | cons x xs ih =>
    rw [List.infix_cons_iff]
    by_cases h : pat <+: x :: xs
    · rw [find_at_start h]
      exact ⟨fun hn => (nomatch hn), fun hn => absurd (Or.inl h) hn⟩
    · rw [find_cons h, Option.map_eq_none_iff, ih]
      exact ⟨fun hn => fun hor => hor.elim h hn, fun hn hin => hn (Or.inr hin)⟩

theorem find_le (h : find pat xs = some i) : i + pat.length ≤ xs.length := by
  obtain ⟨hle, hocc, -⟩ := find_eq_some_iff.mp h
  have hlen := hocc.length_le
  rw [List.length_drop] at hlen
  omega

omit [DecidableEq α] in
/-- An occurrence in a prefix is one that ends there. -/
theorem prefix_drop_take_iff : pat <+: (xs.take n).drop i ↔
    pat <+: xs.drop i ∧ pat.length ≤ n - i := by
  rw [List.drop_take, List.prefix_take_iff]

/-- **A search in a prefix** finds the place once the whole occurrence is there. -/
theorem find_take (hpat : pat ≠ []) (h : find pat xs = some i) (n : ℕ) :
    find pat (xs.take n) = if i + pat.length ≤ n then some i else none := by
  have hpos := List.length_pos_of_ne_nil hpat
  obtain ⟨hle, hocc, hbefore⟩ := find_eq_some_iff.mp h
  split
  · rename_i hn
    refine find_eq_some_iff.mpr ⟨?_, prefix_drop_take_iff.mpr ⟨hocc, by omega⟩, fun j hj hp => ?_⟩
    · rw [List.length_take]
      omega
    · exact hbefore j hj (prefix_drop_take_iff.mp hp).1
  · rename_i hn
    cases hf : find pat (xs.take n) with
    | none => rfl
    | some j =>
      obtain ⟨-, hj, -⟩ := find_eq_some_iff.mp hf
      obtain ⟨hj, hfit⟩ := prefix_drop_take_iff.mp hj
      exact absurd hj (hbefore j (by omega))

/-- What follows does not move an occurrence. -/
theorem find_append (h : find pat xs = some i) (ys : List α) : find pat (xs ++ ys) = some i := by
  obtain ⟨hle, hocc, hbefore⟩ := find_eq_some_iff.mp h
  have hend := find_le h
  have hpre : (xs ++ ys).take xs.length = xs := List.take_left
  refine find_eq_some_iff.mpr ⟨?_, ?_, fun j hj hp => hbefore j hj ?_⟩
  · rw [List.length_append]
    omega
  · rw [List.drop_append_of_le_length hle]
    exact hocc.trans (List.prefix_append _ _)
  · rw [← hpre]
    exact prefix_drop_take_iff.mpr ⟨hp, by omega⟩

/-- **Where a pattern stands it is found**, unless it occurs before. -/
theorem find_append_iff (hpat : pat ≠ []) :
    find pat (xs ++ (pat ++ ys)) = some xs.length ↔ ¬ pat <:+: xs ++ pat.dropLast := by
  have hpos := List.length_pos_of_ne_nil hpat
  have hcut : (xs ++ (pat ++ ys)).take (xs.length + (pat.length - 1)) = xs ++ pat.dropLast := by
    rw [List.take_length_add_append, List.take_append_of_le_length (Nat.sub_le _ _),
      List.dropLast_eq_take]
  have hstands : pat <+: (xs ++ (pat ++ ys)).drop xs.length := by
    rw [List.drop_left]
    exact List.prefix_append _ _
  cases hf : find pat (xs ++ (pat ++ ys)) with
  | none => exact absurd (List.infix_append' _ _ _) (find_eq_none_iff.mp hf)
  | some i =>
    have hi : i ≤ xs.length := by
      by_contra hlt
      exact (find_eq_some_iff.mp hf).2.2 xs.length (not_le.mp hlt) hstands
    rw [← hcut, ← find_eq_none_iff, find_take hpat hf, ite_eq_right_iff, Option.some_inj]
    constructor
    · intro h hle
      omega
    · intro h
      by_contra hne
      nomatch h (by omega)

/-- The shortest prefix of `xs` with `pat` at its end. -/
structure ShortestEnding (pat xs p : List α) : Prop where
  starts : p <+: xs
  ends : pat <:+ p
  least : ∀ q, q <+: xs → pat <:+ q → p <+: q

/-- **The place found** cuts off the shortest prefix that ends with the pattern. -/
theorem find_shortest (h : find pat xs = some i) :
    ShortestEnding pat xs (xs.take (i + pat.length)) := by
  obtain ⟨-, hocc, hbefore⟩ := find_eq_some_iff.mp h
  refine ⟨List.take_prefix _ _, ?_, ?_⟩
  · rw [List.take_add, ← List.prefix_iff_eq_take.mp hocc]
    exact List.suffix_append _ _
  · rintro _ hq ⟨s, rfl⟩
    refine List.prefix_of_prefix_length_le (List.take_prefix _ _) hq
      ((List.length_take_le _ _).trans ?_)
    rw [List.length_append]
    refine Nat.add_le_add_right (not_lt.mp fun hlt => hbefore _ hlt ?_) _
    obtain ⟨ys, rfl⟩ := hq
    rw [List.append_assoc, List.drop_left]
    exact List.prefix_append _ _

end Find

/-- **No occurrence reaches over** a symbol that is not in the pattern. -/
theorem infix_append_cons_iff {pat xs ys : List α} {c : α} (hc : c ∉ pat) :
    pat <:+: xs ++ c :: ys ↔ pat <:+: xs ∨ pat <:+: ys := by
  have hstart : ∀ l, l ≠ [] → l <+: c :: ys → c ∈ l := by
    intro l hl hp
    obtain ⟨d, l, rfl⟩ := List.exists_cons_of_ne_nil hl
    rw [(List.cons_prefix_cons.mp hp).1]
    exact List.mem_cons_self
  constructor
  · intro h
    rcases List.infix_append_iff_ne_nil.mp h with h | h | ⟨l₁, l₂, -, hne, rfl, -, hp⟩
    · exact Or.inl h
    · rcases List.infix_cons_iff.mp h with hp | h
      · by_cases hnil : pat = []
        · exact Or.inl (hnil ▸ List.nil_infix)
        · exact absurd (hstart pat hnil hp) hc
      · exact Or.inr h
    · exact absurd (List.mem_append_right l₁ (hstart l₂ hne hp)) hc
  · rintro (h | h)
    · exact List.infix_append_of_infix_left h
    · exact List.infix_append_of_infix_right (List.infix_cons h)

/-- A start reaches no further than such a symbol. -/
theorem prefix_append_cons_iff {pat xs ys : List α} {c : α} (hc : c ∉ pat) :
    pat <+: xs ++ c :: ys ↔ pat <+: xs := by
  refine ⟨fun h => ?_, fun h => h.trans (List.prefix_append _ _)⟩
  rcases List.prefix_or_prefix_of_prefix h (List.prefix_append _ _) with hp | ⟨t, rfl⟩
  · exact hp
  · have ht : t <+: c :: ys := (List.prefix_append_right_inj xs).mp h
    cases t with
    | nil => rw [List.append_nil]
    | cons d t =>
      rw [(List.cons_prefix_cons.mp ht).1] at hc
      exact absurd (List.mem_append_right _ List.mem_cons_self) hc

/-- **A search goes on** behind such a symbol if nothing is found in front of it. -/
theorem find_append_cons [DecidableEq α] {pat xs ys : List α} {c : α} (hc : c ∉ pat)
    (hpat : pat ≠ []) (h : ¬ pat <:+: xs) :
    find pat (xs ++ c :: ys) = (find pat ys).map (· + (xs.length + 1)) := by
  induction xs with
  | nil =>
    have hp : ¬ pat <+: [] ++ c :: ys := fun hp =>
      hpat (List.prefix_nil.mp ((prefix_append_cons_iff hc).mp hp))
    rw [List.nil_append, find_cons hp]
    rfl
  | cons x xs ih =>
    rw [List.infix_cons_iff, not_or] at h
    have hp : ¬ pat <+: x :: (xs ++ c :: ys) := fun hp =>
      h.1 ((prefix_append_cons_iff hc).mp hp)
    rw [List.cons_append, find_cons hp, ih h.2, Option.map_map]
    rfl

section Tokens

variable [DecidableEq α] {c : α} {w s rest : List α}

/-- The next token: the symbols before the next separator `c`, of those at the start apart, and
what follows it. -/
def token (c : α) (s : List α) : Option (List α × List α) :=
  match s.dropWhile (· == c) with
  | [] => none
  | x :: rest => some ((x :: rest).takeWhile (· != c), ((x :: rest).dropWhile (· != c)).drop 1)

theorem all_ne_of_notMem (hc : c ∉ w) : ∀ a ∈ w, (a != c) = true := fun a ha => by
  simpa using fun h : a = c => hc (h ▸ ha)

theorem token_of_ne {x : α} (hx : x ≠ c) : token c (x :: s) =
    some ((x :: s).takeWhile (· != c), ((x :: s).dropWhile (· != c)).drop 1) := by
  rw [token, List.dropWhile_cons_of_neg (by simpa using hx)]

theorem token_append (hw : w ≠ []) (hc : c ∉ w) (rest : List α) :
    token c (w ++ c :: rest) = some (w, rest) := by
  obtain ⟨x, w, rfl⟩ := List.exists_cons_of_ne_nil hw
  have hx : x ≠ c := fun h => hc (h ▸ List.mem_cons_self)
  have hall := all_ne_of_notMem hc
  rw [List.cons_append, token_of_ne hx, ← List.cons_append, List.takeWhile_append_of_pos hall,
    List.dropWhile_append_of_pos hall]
  simp

theorem token_self (hw : w ≠ []) (hc : c ∉ w) : token c w = some (w, []) := by
  obtain ⟨x, w, rfl⟩ := List.exists_cons_of_ne_nil hw
  have hx : x ≠ c := fun h => hc (h ▸ List.mem_cons_self)
  have hall := all_ne_of_notMem hc
  rw [token_of_ne hx, List.takeWhile_eq_self_iff.mpr hall, List.dropWhile_eq_nil_iff.mpr hall,
    List.drop_nil]

/-- A token is a piece of the list without a separator; the rest is an end of it. -/
theorem token_eq_some (h : token c s = some (w, rest)) : c ∉ w ∧ w <:+: s ∧ rest <:+ s := by
  have hsuf := List.dropWhile_suffix (l := s) (· == c)
  unfold token at h
  split at h
  · nomatch h
  · rename_i x t hdrop
    cases h
    rw [hdrop] at hsuf
    refine ⟨fun hmem => ?_, ?_, ?_⟩
    · simpa using List.mem_takeWhile_imp hmem
    · exact (List.takeWhile_prefix _).isInfix.trans hsuf.isInfix
    · exact ((List.drop_suffix _ _).trans (List.dropWhile_suffix _)).trans hsuf

end Tokens

end NetworkingLearning.Text
