import NetworkingLearning.Text.Strings

/-!
# The lines of a file (`std::getline`)

A file is read from its start by `while (getline(file, line))`. A line ends with a line feed, which
is not a part of it, or with the file; behind the last line feed there is a line only if there is
something. A carriage return is a part of its line.

* `getline` is one call: the line, and what is left. It fails at the end of the file alone.
* `getlinesLoop` is the loop, on fuel; `getlines` gives it as much as the file is long, which is
  enough.
* `unlines` writes lines with a line feed each.

Results:
* `getlines_cons`, `getlines_last`: the first line of a file, and the last one.
* `getlines_written`: lines that were written with a line feed each are read back.
-/

namespace NetworkingLearning.Text

/-- `getline`: the line, and what is left of the file. -/
def getline (file : Str) : Option (Str × Str) :=
  if file.chars = [] then none
  else some (
    ⟨file.chars.takeWhile (· != 10),
      (List.takeWhile_sublist _).length_le.trans_lt file.size_lt⟩,
    ⟨(file.chars.dropWhile (· != 10)).tail,
      ((List.tail_sublist _).trans (List.dropWhile_sublist _)).length_le.trans_lt file.size_lt⟩)

/-- The loop `while (getline(file, line))`. -/
def getlinesLoop : ℕ → Str → List Str
  | 0, _ => []
  | fuel + 1, file =>
    match getline file with
    | none => []
    | some (line, rest) => line :: getlinesLoop fuel rest

/-- The lines of a file. -/
def getlines (file : Str) : List Str := getlinesLoop file.chars.length file

/-- What is written for lines with a line feed behind each. -/
def unlines (lines : List Str) : List UInt8 := lines.flatMap fun l => l.chars ++ [10]

section Lines

variable {file line rest : Str}

theorem Str.ext {s t : Str} (h : s.chars = t.chars) : s = t := by
  cases s
  cases t
  simpa using h

theorem getline_of_eq (hline : 10 ∉ line.chars) (h : file.chars = line.chars ++ 10 :: rest.chars) :
    getline file = some (line, rest) := by
  have hall := all_ne_of_notMem hline
  have hne : file.chars ≠ [] := by simp [h]
  have htake : file.chars.takeWhile (· != 10) = line.chars := by
    rw [h, List.takeWhile_append_of_pos hall, List.takeWhile_cons_of_neg (by decide),
      List.append_nil]
  have hdrop : (file.chars.dropWhile (· != 10)).tail = rest.chars := by
    rw [h, List.dropWhile_append_of_pos hall, List.dropWhile_cons_of_neg (by decide)]
    rfl
  rw [getline, if_neg hne]
  exact congrArg some (Prod.ext (Str.ext htake) (Str.ext hdrop))

theorem getline_eq_none_iff : getline file = none ↔ file.chars = [] := by
  unfold getline
  split <;> simp_all

/-- A line takes something of the file. -/
theorem length_rest (h : getline file = some (line, rest)) :
    rest.chars.length < file.chars.length := by
  have hne : file.chars ≠ [] := fun hnil => by simp [getline_eq_none_iff.mpr hnil] at h
  rw [getline, if_neg hne] at h
  rw [← (Prod.mk.inj (Option.some.inj h)).2]
  have hdrop := (List.dropWhile_sublist (· != 10) (l := file.chars)).length_le
  have hpos := List.length_pos_iff.mpr hne
  rw [List.length_tail]
  omega

/-- More fuel than bytes changes nothing. -/
theorem getlinesLoop_fuel : ∀ {fuel fuel' : ℕ} {file : Str}, file.chars.length ≤ fuel →
    file.chars.length ≤ fuel' → getlinesLoop fuel file = getlinesLoop fuel' file := by
  have hend : ∀ (fuel : ℕ) {file : Str}, file.chars = [] → getlinesLoop fuel file = [] := by
    intro fuel file h
    cases fuel with
    | zero => rfl
    | succ fuel => rw [getlinesLoop, getline_eq_none_iff.mpr h]
  intro fuel
  induction fuel with
  | zero =>
    intro fuel' file h _
    have hnil := List.length_eq_zero_iff.mp (Nat.le_zero.mp h)
    rw [hend 0 hnil, hend fuel' hnil]
  | succ fuel ih =>
    intro fuel' file h h'
    cases hline : getline file with
    | none =>
      have hnil := getline_eq_none_iff.mp hline
      rw [hend _ hnil, hend _ hnil]
    | some r =>
      have hlt : r.2.chars.length < file.chars.length := length_rest hline
      obtain ⟨fuel', rfl⟩ : ∃ f, fuel' = f + 1 := ⟨fuel' - 1, by omega⟩
      rw [getlinesLoop, getlinesLoop, hline]
      exact congrArg (r.1 :: ·) (ih (by omega) (by omega))

theorem getlines_nil (h : file.chars = []) : getlines file = [] := by
  rw [getlines, h]
  rfl

/-- **A line** and what follows its line feed. -/
theorem getlines_cons (hline : 10 ∉ line.chars)
    (h : file.chars = line.chars ++ 10 :: rest.chars) :
    getlines file = line :: getlines rest := by
  have hget := getline_of_eq hline h
  have hlt := length_rest hget
  obtain ⟨n, hn⟩ : ∃ n, file.chars.length = n + 1 := ⟨file.chars.length - 1, by omega⟩
  rw [getlines, hn, getlinesLoop, hget]
  exact congrArg (line :: ·) (getlinesLoop_fuel (by omega) (le_refl _))

/-- **What is behind the last line feed** is a line if it is not empty. -/
theorem getlines_last (hne : file.chars ≠ []) (h : 10 ∉ file.chars) : getlines file = [file] := by
  have hall := List.takeWhile_eq_self_iff.mpr (all_ne_of_notMem h)
  have hdrop : (file.chars.dropWhile (· != 10)).tail = [] := by
    rw [List.dropWhile_eq_nil_iff.mpr (all_ne_of_notMem h)]
    rfl
  have hget : getline file = some (file, ⟨[], Nat.zero_lt_succ _⟩) := by
    rw [getline, if_neg hne]
    exact congrArg some (Prod.ext (Str.ext hall) (Str.ext hdrop))
  obtain ⟨n, hn⟩ : ∃ n, file.chars.length = n + 1 :=
    ⟨file.chars.length - 1, by have := List.length_pos_iff.mpr hne; omega⟩
  rw [getlines, hn, getlinesLoop, hget]
  exact congrArg (file :: ·) ((getlinesLoop_fuel (Nat.zero_le _) (le_refl _)).trans
    (getlines_nil rfl))

/-- **Lines that were written are read back**, with or without a line feed behind the last one. -/
theorem getlines_unlines {last : Str} (hlast : 10 ∉ last.chars) : ∀ {lines : List Str} {file : Str},
    (∀ l ∈ lines, 10 ∉ l.chars) → file.chars = unlines lines ++ last.chars →
      getlines file = lines ++ if last.chars = [] then [] else [last] := by
  intro lines
  induction lines with
  | nil =>
    intro file _ h
    obtain rfl : file = last := Str.ext h
    split_ifs with hnil
    · exact getlines_nil hnil
    · exact getlines_last hnil hlast
  | cons l lines ih =>
    intro file hall h
    obtain ⟨hl, hall⟩ := List.forall_mem_cons.mp hall
    have hsplit : file.chars = l.chars ++ 10 :: (unlines lines ++ last.chars) := by
      rw [h, unlines, List.flatMap_cons, List.append_assoc, List.append_assoc]
      rfl
    have hsize : (unlines lines ++ last.chars).length < npos := by
      have hlen := congrArg List.length hsplit
      have := file.size_lt
      rw [List.length_append, List.length_cons] at hlen
      omega
    have hread : getlines file = l :: getlines ⟨_, hsize⟩ := getlines_cons hl hsplit
    rw [hread, ih hall rfl, List.cons_append]

/-- A file of written lines, the last of which may lack its line feed. -/
theorem getlines_written {lines : List Str} (hall : ∀ l ∈ lines, 10 ∉ l.chars ∧ l.chars ≠ [])
    (h : file.chars = unlines lines ∨ file.chars ++ [10] = unlines lines) :
    getlines file = lines := by
  have hnot : ∀ l ∈ lines, 10 ∉ l.chars := fun l hl => (hall l hl).1
  rcases h with h | h
  · have hread := @getlines_unlines ⟨[], Nat.zero_lt_succ _⟩ List.not_mem_nil lines file hnot
      (by rw [h, List.append_nil])
    rwa [if_pos rfl, List.append_nil] at hread
  · obtain rfl | ⟨pre, last, rfl⟩ := List.eq_nil_or_concat' lines
    · exact absurd h (List.concat_ne_nil 10 file.chars)
    · obtain ⟨hlast, hne⟩ := hall last (by simp)
      have hfile : file.chars = unlines pre ++ last.chars := by
        rw [unlines, List.flatMap_append, List.flatMap_singleton, ← List.append_assoc] at h
        exact List.append_cancel_right h
      rw [getlines_unlines hlast (fun l hl => hnot l (List.mem_append_left _ hl)) hfile,
        if_neg hne]

end Lines

end NetworkingLearning.Text
