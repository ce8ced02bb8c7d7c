import Mathlib.Algebra.Order.Ring.Int
import Mathlib.Data.Nat.ModEq
import Mathlib.Tactic.Linarith

/-!
# Fixed-width arithmetic

Unsigned words are natural numbers reduced after every operation that can leave their range (`u32`,
`u64`, `sub32`, `sub64`). A C `int` is an integer; its sum `addInt` is reduced to 32 bits two's
complement, which is what the compiled code does where the C standard leaves overflow undefined.
`toInt` and `toSize` are the conversions to an `int` and to a `size_t`.

Natural numbers and integers are used and not `BitVec`, as most words here are counts and sequence
numbers, about which `omega` is asked. Each operation has a lemma that says when it is exact;
results elsewhere discharge its bound. The last section is about arrays indexed by a residue.

Results:
* `u32_of_lt`, `sub32_of_le`, `addInt_of_le`, …: when an operation is exact.
* `toSize_toInt_iff`, `lt_toInt_iff`: when a conversion to an `int` and back does no harm.
* `eq_of_mod_eq`: within a span of a ring, a slot has one number.
-/

namespace NetworkingLearning.Machine

/-- A value stored in a `uint32_t`. -/
def u32 (x : ℕ) : ℕ := x % 2 ^ 32

/-- A value stored in a `size_t`. -/
def u64 (x : ℕ) : ℕ := x % 2 ^ 64

/-- The difference of two `uint32_t`. -/
def sub32 (a b : ℕ) : ℕ := (a + 2 ^ 32 - b) % 2 ^ 32

/-- The difference of two `size_t`. -/
def sub64 (a b : ℕ) : ℕ := (a + 2 ^ 64 - b) % 2 ^ 64

/-- `INT_MAX`. -/
def intMax : ℤ := 2147483647

/-- The sum of two `int`s. -/
def addInt (a b : ℤ) : ℤ := (a + b).bmod (2 ^ 32)

/-- A value converted to an `int`. -/
def toInt (x : ℤ) : ℤ := x.bmod (2 ^ 32)

/-- A value converted to a `size_t`. -/
def toSize (x : ℤ) : ℕ := (x % 2 ^ 64).toNat

@[simp] theorem u32_lt (x : ℕ) : u32 x < 2 ^ 32 := Nat.mod_lt _ (by decide)

@[simp] theorem u64_lt (x : ℕ) : u64 x < 2 ^ 64 := Nat.mod_lt _ (by decide)

theorem u32_of_lt {x : ℕ} (h : x < 2 ^ 32) : u32 x = x := Nat.mod_eq_of_lt h

theorem u64_of_lt {x : ℕ} (h : x < 2 ^ 64) : u64 x = x := Nat.mod_eq_of_lt h

theorem sub32_of_le {a b : ℕ} (h : b ≤ a) (ha : a < 2 ^ 32) : sub32 a b = a - b := by
  unfold sub32
  rw [Nat.sub_add_comm h, Nat.add_mod_right, Nat.mod_eq_of_lt (by omega)]

theorem sub64_of_le {a b : ℕ} (h : b ≤ a) (ha : a < 2 ^ 64) : sub64 a b = a - b := by
  unfold sub64
  rw [Nat.sub_add_comm h, Nat.add_mod_right, Nat.mod_eq_of_lt (by omega)]

/-- A sum within the range of `int` is exact. -/
theorem addInt_of_le {a b : ℤ} (h0 : 0 ≤ a + b) (h : a + b ≤ intMax) : addInt a b = a + b := by
  unfold intMax at h
  exact Int.bmod_eq_of_le (by omega) (by omega)

/-- An `int` is a `long`. -/
theorem toInt_mem (x : ℤ) : -2 ^ 31 ≤ toInt x ∧ toInt x < 2 ^ 31 :=
  ⟨Int.le_bmod (by decide), Int.bmod_lt (by decide)⟩

/-- A small number is the same `int`. -/
theorem toInt_of_lt {n : ℕ} (h : n < 2 ^ 31) : toInt n = n :=
  Int.bmod_eq_of_le (by omega) (by omega)

/-- **A size is the same after both conversions** exactly if it is one of an `int`. -/
theorem toSize_toInt_iff {n : ℕ} (hn : n < 2 ^ 63) : toSize (toInt n) = n ↔ n < 2 ^ 31 := by
  obtain ⟨hge, hlt⟩ := toInt_mem n
  unfold toSize
  constructor
  · intro h
    omega
  · intro h
    rw [toInt_of_lt h]
    omega

/-- A sum is converted once. -/
@[simp] theorem addInt_toInt (x a : ℤ) : addInt (toInt x) a = toInt (x + a) := Int.bmod_add_bmod

/-- **An `int` is greater than a part of its sum** exactly if the sum is one of an `int`. -/
theorem lt_toInt_iff {x a : ℕ} (ha : 0 < a) (ha' : a ≤ 2 ^ 32) :
    (x : ℤ) < toInt (x + a) ↔ x + a < 2 ^ 31 := by
  unfold toInt
  rw [Int.bmod_def]
  split <;> omega

/-! ## Slots of a ring -/

/-- Of two numbers in one slot, the one that is not below a span of the ring is not the less. -/
theorem le_of_mod_eq {w l p q : ℕ} (h : q % w = p % w) (hq : l ≤ q) (hp : p < l + w) : p ≤ q := by
  by_contra hlt
  have hdvd : w ∣ p - q := (Nat.modEq_iff_dvd' (by omega)).mp h
  have hle := Nat.le_of_dvd (by omega) hdvd
  omega

/-- Within a span of the ring a slot has one number. -/
theorem eq_of_mod_eq {w l p q : ℕ} (h : q % w = p % w) (hq : l ≤ q) (hq' : q < l + w) (hp : l ≤ p)
    (hp' : p < l + w) : q = p :=
  le_antisymm (le_of_mod_eq h.symm hp hq') (le_of_mod_eq h hq hp')

end NetworkingLearning.Machine
