import Mathlib.Data.Nat.Notation
import NetworkingLearning.Machine.Runs

/-!
# Computations that read inputs

A computation that can fail gets inputs in a list and leaves those that it has not read. `Takes`
says how many it reads at most, where the error `e` stands for an input that is missing or refused:
with so many inputs none is missing, and whatever follows them makes no difference.

`Reader` is the class of the states that carry inputs. The lemmas follow the ways in which
computations are put together: one that reads nothing (`Takes.ret`), two in a row (`Takes.bind`),
one on a part of the state (`Takes.comap`).

Results:
* `Takes.bind`: what two computations take, one after the other.
* `Takes.mono`: what is enough is enough if there is more.
-/

namespace NetworkingLearning.Machine

/-- A state with inputs that are not read yet. -/
class Reader (δ : outParam Type) (σ : Type) where
  /-- The inputs not read yet. -/
  left : σ → List δ
  /-- More inputs behind them. -/
  feed : List δ → σ → σ

open Reader

instance (δ : Type) : Reader δ (List δ) := ⟨fun xs => xs, fun more xs => xs ++ more⟩

instance (δ α τ : Type) [Reader δ τ] : Reader δ (α × τ) :=
  ⟨fun p => left p.2, fun more p => (p.1, feed more p.2)⟩

variable {ε δ σ τ υ : Type} [Reader δ σ] [Reader δ τ] [Reader δ υ] {e : ε} {m n : ℕ}
  {f : σ → Except ε τ} {g : τ → Except ε υ} {s : σ}

/-- From `s` on, `f` reads `n` inputs at most. -/
structure Takes (e : ε) (n : ℕ) (f : σ → Except ε τ) (s : σ) : Prop where
  ok : ∀ t, f s = .ok t →
    (left s).length ≤ (left t).length + n ∧ ∀ more, f (feed more s) = .ok (feed more t)
  refuses : f s = .error e → n ≤ (left s).length → ∀ more, f (feed more s) = .error e

theorem Takes.mono (h : Takes e m f s) (hle : m ≤ n) : Takes e n f s where
  ok t ht := ⟨Nat.le_trans (h.ok t ht).1 (Nat.add_le_add_left hle _), (h.ok t ht).2⟩
  refuses he hn := h.refuses he (Nat.le_trans hle hn)

/-- It is enough to know the computation where it starts. -/
theorem Takes.congr {f' : σ → Except ε τ} (h : Takes e n f' s) (hs : f s = f' s)
    (hfeed : ∀ more, f (feed more s) = f' (feed more s)) : Takes e n f s where
  ok t ht := ⟨(h.ok t (hs ▸ ht)).1, fun more => (hfeed more).trans ((h.ok t (hs ▸ ht)).2 more)⟩
  refuses he hn more := (hfeed more).trans (h.refuses (hs ▸ he) hn more)

/-- A result without a look at the inputs. -/
theorem Takes.ret {k : σ → τ} (hleft : left (k s) = left s)
    (hfeed : ∀ more, k (feed more s) = feed more (k s)) :
    Takes e 0 (fun s => .ok (k s)) s where
  ok t ht := by
    obtain rfl := Except.ok.inj ht
    exact ⟨Nat.le_of_eq (congrArg List.length hleft.symm),
      fun more => congrArg Except.ok (hfeed more)⟩
  refuses he _ := nomatch he

/-- A computation on a part of the state that has the inputs. -/
theorem Takes.comap {ρ : Type} [Reader δ ρ] {k : ρ → σ} {r : ρ} (h : Takes e n f (k r))
    (hleft : left (k r) = left r) (hfeed : ∀ more, k (feed more r) = feed more (k r)) :
    Takes e n (fun r => f (k r)) r where
  ok t ht := ⟨hleft ▸ (h.ok t ht).1,
    fun more => (congrArg f (hfeed more)).trans ((h.ok t ht).2 more)⟩
  refuses he hn more := (congrArg f (hfeed more)).trans (h.refuses he (hleft ▸ hn) more)

/-- What is computed first does not depend on the inputs. -/
theorem Takes.lift {α : Type} {x : σ → Except ε α} {k : α → σ → Except ε τ}
    (hx : ∀ more, x (feed more s) = x s) (hk : ∀ a, x s = .ok a → Takes e n (k a) s) :
    Takes e n (fun s => x s >>= fun a => k a s) s where
  ok t ht := by
    obtain ⟨a, ha, ht⟩ := bind_ok.mp ht
    obtain ⟨hlen, hmore⟩ := (hk a ha).ok t ht
    exact ⟨hlen, fun more => bind_ok.mpr ⟨a, (hx more).trans ha, hmore more⟩⟩
  refuses he hn more := by
    rcases bind_error.mp he with he | ⟨a, ha, he⟩
    · exact bind_error.mpr (Or.inl ((hx more).trans he))
    · exact bind_error.mpr (Or.inr ⟨a, (hx more).trans ha, (hk a ha).refuses he hn more⟩)

/-- **Two computations in a row.** -/
theorem Takes.bind (hf : Takes e m f s) (hg : ∀ t, f s = .ok t → Takes e n g t) :
    Takes e (m + n) (fun s => f s >>= g) s where
  ok u hu := by
    obtain ⟨t, ht, hu⟩ := bind_ok.mp hu
    obtain ⟨hlen, hmore⟩ := hf.ok t ht
    obtain ⟨hlen', hmore'⟩ := (hg t ht).ok u hu
    exact ⟨by omega, fun more => bind_ok.mpr ⟨_, hmore more, hmore' more⟩⟩
  refuses he hle more := by
    rcases bind_error.mp he with he | ⟨t, ht, he⟩
    · exact bind_error.mpr (Or.inl (hf.refuses he (by omega) more))
    · obtain ⟨hlen, hmore⟩ := hf.ok t ht
      exact bind_error.mpr (Or.inr ⟨_, hmore more, (hg t ht).refuses he (by omega) more⟩)

end NetworkingLearning.Machine
