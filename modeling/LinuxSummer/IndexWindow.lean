import Mathlib.Algebra.Order.Group.Multiset
import Mathlib.Data.Nat.ModEq

/-! Indices of type `size_t`, arrays whose slots are indexed modulo their size, and windows of
consecutive indices over them: what they hold, how this changes at both ends, and when two
indices have different slots. -/
namespace LinuxSummer.IndexWindow
variable {α : Type*} {f f' : ℕ → α} {t h i j n m : ℕ}

/-- `n + 1`, `n - 1` and `n - m` on `size_t`. -/
def inc (n : ℕ) : ℕ := (n + 1) % 2 ^ 64
def dec (n : ℕ) : ℕ := (n + (2 ^ 64 - 1)) % 2 ^ 64
def sub (n m : ℕ) : ℕ := (n + (2 ^ 64 - m)) % 2 ^ 64

theorem inc_eq (hn : n + 1 < 2 ^ 64) : inc n = n + 1 := Nat.mod_eq_of_lt hn

theorem sub_eq (hm : m ≤ n) (hn : n < 2 ^ 64) : sub n m = n - m := by
  unfold sub
  omega

theorem dec_add_one (h₀ : 0 < n) (hn : n < 2 ^ 64) : dec n + 1 = n := by
  unfold dec
  omega

/-- Indices less than the size apart have different slots. -/
theorem mod_ne (hij : i < j) (hj : j < i + n) : i % n ≠ j % n := by
  intro h
  have hdvd : n ∣ j - i := (Nat.modEq_iff_dvd' hij.le).mp h
  have := Nat.le_of_dvd (by omega) hdvd
  omega

theorem mod_ne_of_window (hij : i ≠ j) (hi : t ≤ i ∧ i < t + n) (hj : t ≤ j ∧ j < t + n) :
    i % n ≠ j % n := by
  rcases Nat.lt_or_gt_of_ne hij with h | h
  · exact mod_ne h (by omega)
  · exact (mod_ne h (by omega)).symm

/-- What the indices from `t` up to `h`, exclusively, hold. -/
def window (f : ℕ → α) (t h : ℕ) : Multiset α := ((List.range' t (h - t)).map f : List α)

@[simp] theorem window_self : window f t t = 0 := by simp [window]

theorem window_empty (h' : h ≤ t) : window f t h = 0 := by
  simp [window, Nat.sub_eq_zero_of_le h']

theorem window_front (hth : t < h) : window f t h = f t ::ₘ window f (t + 1) h := by
  obtain ⟨k, rfl⟩ : ∃ k, h = t + k + 1 := ⟨h - t - 1, by omega⟩
  have h₁ : t + k + 1 - t = k + 1 := by omega
  have h₂ : t + k + 1 - (t + 1) = k := by omega
  rw [window, window, h₁, h₂, List.range'_succ, List.map_cons, Multiset.cons_coe]

theorem window_back (hth : t ≤ h) : window f t (h + 1) = f h ::ₘ window f t h := by
  obtain ⟨k, rfl⟩ : ∃ k, h = t + k := ⟨h - t, by omega⟩
  have h₁ : t + k + 1 - t = k + 1 := by omega
  have h₂ : t + k - t = k := by omega
  rw [window, window, h₁, h₂, List.range'_concat, List.map_append, ← Multiset.coe_add, add_comm]
  simp

theorem window_congr (hf : ∀ i, t ≤ i → i < h → f i = f' i) : window f t h = window f' t h := by
  rw [window, window]
  congr 1
  refine List.map_congr_left fun i hi => ?_
  rw [List.mem_range'_1] at hi
  exact hf i hi.1 (by omega)

/-- An array of `size` slots; the index `i` has the slot `i % size`. -/
structure SlotArray (α : Type*) where
  size : ℕ
  buffer : ℕ → α

namespace SlotArray
variable {r : SlotArray α} {x : α}

def get (r : SlotArray α) (i : ℕ) : α := r.buffer (i % r.size)

def put (r : SlotArray α) (i : ℕ) (x : α) : SlotArray α :=
  { r with buffer := Function.update r.buffer (i % r.size) x }

@[simp] theorem size_put : (r.put i x).size = r.size := rfl

@[simp] theorem get_put_self : (r.put i x).get i = x := by simp [get, put]

theorem get_put_of_ne (hij : j % r.size ≠ i % r.size) : (r.put i x).get j = r.get j := by
  simp [get, put, hij]

end SlotArray

/-- A write to one of several arrays. -/
def putAt (heap : ℕ → SlotArray α) (a i : ℕ) (x : α) : ℕ → SlotArray α :=
  Function.update heap a ((heap a).put i x)

section PutAt
variable {heap : ℕ → SlotArray α} {a b : ℕ} {x : α}

@[simp] theorem putAt_self : putAt heap a i x a = (heap a).put i x := Function.update_self ..

theorem putAt_of_ne (hb : b ≠ a) : putAt heap a i x b = heap b := Function.update_of_ne hb ..

@[simp] theorem size_putAt : (putAt heap a i x b).size = (heap b).size := by
  by_cases hb : b = a
  · subst hb
    rw [putAt_self, SlotArray.size_put]
  · rw [putAt_of_ne hb]

/-- A write at one end of a window leaves the slots of the window alone, in every array. -/
theorem get_putAt_of_ne (hij : j % (heap a).size ≠ i % (heap a).size) :
    (putAt heap a i x b).get j = (heap b).get j := by
  by_cases hb : b = a
  · subst hb
    rw [putAt_self, SlotArray.get_put_of_ne hij]
  · rw [putAt_of_ne hb]

end PutAt

end LinuxSummer.IndexWindow
