import Mathlib.Algebra.Order.Ring.Nat
import Mathlib.Data.List.Basic

/-!
# Buffers

An array is a list of its elements. A store outside of it is undefined and has no result, so a
function that stores has one exactly if it stays in its array: that is how results about buffers are
stated. What is read outside of an array is not covered; where that matters, the place is a bound of
its own.

Results:
* `store_of_le`: a store that fits, and what it keeps.
-/

namespace NetworkingLearning.Machine

variable {α : Type*}

/-- Elements are stored in a buffer, from an offset on. -/
def store (buf : List α) (offset : ℕ) (bytes : List α) : Option (List α) :=
  if offset + bytes.length ≤ buf.length then
    some (buf.take offset ++ bytes ++ buf.drop (offset + bytes.length))
  else none

/-- **A store that fits** keeps what is before it. -/
theorem store_of_le (buf : List α) (offset : ℕ) (bytes : List α)
    (h : offset + bytes.length ≤ buf.length) :
    ∃ buf', store buf offset bytes = some buf' ∧ buf'.length = buf.length ∧
      buf'.take offset = buf.take offset ∧
      buf'.take (offset + bytes.length) = buf.take offset ++ bytes := by
  have hfst : (buf.take offset).length = offset := by
    rw [List.length_take]
    omega
  refine ⟨_, if_pos h, ?_, ?_, ?_⟩
  · simp only [List.length_append, List.length_drop, hfst]
    omega
  · rw [List.append_assoc, List.take_left' hfst]
  · exact List.take_left' (by rw [List.length_append, hfst])

/-- At the start of the buffer. -/
theorem store_zero (buf bytes : List α) (h : bytes.length ≤ buf.length) :
    ∃ buf', store buf 0 bytes = some buf' ∧ buf'.length = buf.length ∧
      buf'.take bytes.length = bytes := by
  obtain ⟨buf', hstore, hlen, -, htake⟩ := store_of_le buf 0 bytes (by rwa [Nat.zero_add])
  rw [Nat.zero_add, List.take_zero, List.nil_append] at htake
  exact ⟨buf', hstore, hlen, htake⟩

theorem store_of_lt {buf bytes : List α} {offset : ℕ} (h : buf.length < offset + bytes.length) :
    store buf offset bytes = none := if_neg (not_le.mpr h)

end NetworkingLearning.Machine
