import Mathlib.Logic.Function.Basic
import Mathlib.Algebra.Order.Ring.Nat

/-! A binary counter whose digits count on their own: digit `j` has made `D j` moves, and one
token, at digit `k`, says who moves next. -/
namespace LinuxSummer.Ripple

/-- Digit `j + 1` moves at every second move of digit `j`, digit `0` at every tick. The token at
`k` is what a digit has received and not yet used; below it every digit is zero. At `N` the
counter has overflowed, and at `N + 1` there is no token yet. -/
structure Counter (N ticks : ℕ) (D : ℕ → ℕ) (k : ℕ) : Prop where
  ticks_eq : ticks = D 0 + if k = 0 then 1 else 0
  half : ∀ j, j < N → D j / 2 = D (j + 1) + if k = j + 1 then 1 else 0
  low : ∀ j, j < N → j < k → D j % 2 = 0
  zero : ∀ j, N ≤ j → D j = 0

namespace Counter
variable {N ticks k : ℕ} {D : ℕ → ℕ}

theorem start : Counter N 0 (fun _ => 0) (N + 1) :=
  ⟨by simp, fun j hj => by simp; omega, by simp, by simp⟩

/-- The first tick makes the token. -/
theorem first (h : Counter N ticks D (N + 1)) : Counter N (ticks + 1) D 0 := by
  refine ⟨?_, fun j hj => ?_, by simp, h.zero⟩
  · have := h.ticks_eq
    simpa using this
  · have := h.half j hj
    rw [if_neg (by omega)] at this ⊢
    exact this

/-- A digit that is zero becomes one, and the clock ticks. -/
theorem tick (h : Counter N ticks D k) (hk : k < N) (heven : D k % 2 = 0) :
    Counter N (ticks + 1) (Function.update D k (D k + 1)) 0 := by
  refine ⟨?_, fun j hj => ?_, by simp, fun j hj => ?_⟩
  · have := h.ticks_eq
    by_cases h0 : k = 0
    · subst h0
      simp only [if_true, Function.update_self] at this ⊢
      omega
    · rw [if_neg h0] at this
      rw [Function.update_of_ne (by omega)]
      simp only [if_true]
      omega
  · have := h.half j hj
    rw [if_neg (by omega : ¬ 0 = j + 1)]
    by_cases hjk : j = k
    · subst hjk
      rw [Function.update_self, Function.update_of_ne (by omega)]
      rw [if_neg (by omega)] at this
      omega
    · rw [Function.update_of_ne hjk]
      by_cases hjk' : j + 1 = k
      · subst hjk'
        rw [Function.update_self]
        simp only [if_true] at this
        omega
      · rw [Function.update_of_ne hjk']
        rw [if_neg (by omega)] at this
        exact this
  · rw [Function.update_of_ne (by omega)]
    exact h.zero j hj

/-- A digit that is one becomes zero, and the token goes on. -/
theorem carry (h : Counter N ticks D k) (hk : k < N) (hodd : D k % 2 = 1) :
    Counter N ticks (Function.update D k (D k + 1)) (k + 1) := by
  refine ⟨?_, fun j hj => ?_, fun j hj hjk => ?_, fun j hj => ?_⟩
  · have := h.ticks_eq
    rw [if_neg (by omega)]
    by_cases h0 : k = 0
    · subst h0
      simp only [if_true, Function.update_self] at this ⊢
      omega
    · rw [if_neg h0] at this
      rw [Function.update_of_ne (by omega)]
      exact this
  · have := h.half j hj
    by_cases hjk : j = k
    · subst hjk
      rw [Function.update_self, Function.update_of_ne (by omega)]
      rw [if_neg (by omega)] at this
      simp only [if_true]
      omega
    · rw [Function.update_of_ne hjk, if_neg (by omega : ¬ k + 1 = j + 1)]
      by_cases hjk' : j + 1 = k
      · subst hjk'
        rw [Function.update_self]
        simp only [if_true] at this
        omega
      · rw [Function.update_of_ne hjk']
        rw [if_neg (by omega)] at this
        exact this
  · by_cases he : j = k
    · subst he
      rw [Function.update_self]
      omega
    · rw [Function.update_of_ne he]
      exact h.low j hj (by omega)
  · rw [Function.update_of_ne (by omega)]
    exact h.zero j hj

/-- What digit `j` has received. -/
def received (D : ℕ → ℕ) (k j : ℕ) : ℕ := D j + if k = j then 1 else 0

theorem received_succ (h : Counter N ticks D k) {j : ℕ} (hj : j < N) :
    D j / 2 = received D k (j + 1) := h.half j hj

theorem received_le (h : Counter N ticks D k) {j : ℕ} (hj : j ≤ N) : received D k j ≤ ticks := by
  induction j with
  | zero => exact h.ticks_eq.ge
  | succ j ih =>
    have hprev := ih (by omega)
    have hnext := h.received_succ (j := j) (by omega)
    unfold received at hprev hnext ⊢
    omega

/-- Where the token is, the clock is not behind. -/
theorem move_le_ticks (h : Counter N ticks D k) (hk : k < N) : D k + 1 ≤ ticks := by
  have := h.received_le (Nat.le_of_lt hk)
  simpa [received] using this

/-- From the last digit down: what a digit receives is bounded, by one less above the token. -/
theorem received_bound (h : Counter N ticks D k) (i : ℕ) (hi : i ≤ N) :
    received D k (N - i) + (if k < N - i then 1 else 0) ≤ 2 ^ i := by
  induction i with
  | zero =>
    have hz := h.zero N (Nat.le_refl N)
    simp only [received, Nat.sub_zero, hz]
    split_ifs <;> omega
  | succ i ih =>
    have hprev := ih (by omega)
    have hj : N - (i + 1) < N := by omega
    have hhalf := h.received_succ hj
    rw [show N - (i + 1) + 1 = N - i by omega] at hhalf
    have hlow := h.low (N - (i + 1)) hj
    have hpow : 2 ^ (i + 1) = 2 * 2 ^ i := Nat.pow_succ'
    unfold received at hprev hhalf ⊢
    split_ifs at hprev hhalf hlow ⊢ <;> omega

theorem ticks_le (h : Counter N ticks D k) : ticks ≤ 2 ^ N := by
  have := h.received_bound N (Nat.le_refl N)
  have ht := h.ticks_eq
  simp only [received, Nat.sub_self] at this
  omega

/-- The counter overflows at `2 ^ N` ticks. -/
theorem ticks_of_overflow (h : Counter N ticks D N) : ticks = 2 ^ N := by
  have hall : ∀ i, i ≤ N → received D N (N - i) = 2 ^ i := by
    intro i hi
    induction i with
    | zero =>
      simp [received, h.zero N (Nat.le_refl N)]
    | succ i ih =>
      have hprev := ih (by omega)
      have hj : N - (i + 1) < N := by omega
      have hhalf := h.received_succ hj
      rw [show N - (i + 1) + 1 = N - i by omega, hprev] at hhalf
      have hlow := h.low (N - (i + 1)) hj hj
      have hpow : 2 ^ (i + 1) = 2 * 2 ^ i := Nat.pow_succ'
      unfold received
      rw [if_neg (by omega)]
      omega
  have := hall N (Nat.le_refl N)
  rw [Nat.sub_self] at this
  exact h.ticks_eq.trans this

end Counter
end LinuxSummer.Ripple
