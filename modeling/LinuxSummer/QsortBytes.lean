import Mathlib.Tactic.Ring
import Mathlib.Tactic.Positivity
import Mathlib.Algebra.Order.Group.Int
import LinuxSummer.QsortSpec

/-! The exchanges of hw1/qsort-mt.c on the bytes of the memory, and the memory as an array of
elements. -/
namespace LinuxSummer.Qsort
set_option linter.unusedSectionVars false

variable {B : Type} {es : ℕ} {b n p q i j k x y size : ℤ} {m : ℤ → B}

/-! ### The loop of `swapcode` -/

/-- Two blocks of `n` bytes that do not overlap, or are the same. -/
def Apart (p q n : ℤ) : Prop := p = q ∨ p + n ≤ q ∨ q + n ≤ p

theorem exchange_eq (h : Apart p q size) : exchange size m p q = m ∘ blockSwap p q size := by
  funext x
  unfold exchange store load
  simp only [Function.comp_apply, blockSwap]
  rcases h with rfl | h | h
  · split_ifs with hx
    · rfl
    · rfl
  · split_ifs with hq hp hp
    · omega
    · rfl
    · rfl
    · rfl
  · split_ifs with hq hp hp
    · omega
    · rfl
    · rfl
    · rfl

/-- The blocks are exchanged piece by piece. -/
theorem blockSwap_append (hsize : 0 ≤ size) (hn : 0 ≤ n) (h : Apart p q (size + n)) (x : ℤ) :
    blockSwap p q size (blockSwap (p + size) (q + size) n x) = blockSwap p q (size + n) x := by
  unfold blockSwap
  rcases h with rfl | h | h
  · split_ifs <;> omega
  · split_ifs <;> omega
  · split_ifs <;> omega

theorem swapLoop_eq (hsize : 0 ≤ size) (i : ℕ) (m : ℤ → B) (p q : ℤ)
    (h : Apart p q (size * (i + 1))) :
    swapLoop size i m p q = m ∘ blockSwap p q (size * (i + 1)) := by
  have hrest : 0 ≤ size * i := by positivity
  induction i generalizing m p q with
  | zero =>
    simp only [Nat.cast_zero, zero_add, mul_one] at h ⊢
    exact exchange_eq h
  | succ i ih =>
    have hlen : size * ((i + 1 : ℕ) + 1) = size + size * (i + 1) := by
      push_cast
      ring
    have hpos : 0 ≤ size * ((i : ℤ) + 1) := by positivity
    rw [hlen] at h ⊢
    have hfirst : Apart p q size := by
      unfold Apart at h ⊢
      omega
    have hnext : Apart (p + size) (q + size) (size * (i + 1)) := by
      unfold Apart at h ⊢
      omega
    unfold swapLoop
    rw [ih _ _ _ hnext (by positivity), exchange_eq hfirst]
    funext x
    simp only [Function.comp_apply, blockSwap_append hsize hpos h]

theorem swapcode_eq (hsize : 0 < size) (hn : 0 < n) (hdvd : size ∣ n) (h : Apart p q n) :
    swapcode size m p q n = m ∘ blockSwap p q n := by
  obtain ⟨c, rfl⟩ := hdvd
  have hc : 0 < c := pos_of_mul_pos_right hn hsize.le
  have hcast : (((c - 1).toNat : ℕ) : ℤ) + 1 = c := by omega
  unfold swapcode
  rw [Int.mul_ediv_cancel_left c hsize.ne', swapLoop_eq hsize.le, hcast]
  rwa [hcast]

/-! ### Aligned elements -/

/-- `swaptype` is less than two only for elements at multiples of eight. -/
theorem swaptype_le_one {a : ℤ} (h : swaptype a es ≤ 1) : (8 : ℤ) ∣ es := by
  unfold swaptype at h
  split_ifs at h <;> omega

theorem swapfunc_eq {a c : ℤ} (hes : 0 < es) (hc : 0 < c) (h : Apart p q (es * c)) :
    swapfunc m p q (es * c) (swaptype a es) = m ∘ blockSwap p q (es * c) := by
  have hpos : 0 < (es : ℤ) * c := by positivity
  unfold swapfunc
  split
  · rename_i htype
    exact swapcode_eq (by omega) hpos (Dvd.dvd.mul_right (swaptype_le_one htype) c) h
  · exact swapcode_eq (by omega) hpos (one_dvd _) h

theorem swapMem_eq {a : ℤ} (hes : 0 < es) (hmax : (es : ℤ) < 2 ^ 31) (h : Apart p q es) :
    swapMem es (swaptype a es) m p q = m ∘ blockSwap p q es := by
  unfold swapMem
  split
  · rename_i htype
    have h8 : (es : ℤ) = 8 := by
      unfold swaptype at htype
      split_ifs at htype <;> omega
    rw [h8] at h ⊢
    exact exchange_eq h
  · rw [toInt_eq (by omega) hmax]
    have := swapfunc_eq (m := m) (p := p) (q := q) (a := a) hes zero_lt_one (by rwa [mul_one])
    rwa [mul_one] at this

/-! ### The array of elements -/

/-- The elements of `es` bytes at `b`. -/
def view (es : ℕ) (b : ℤ) (m : ℤ → B) : ℤ → Fin es → B := fun i => element es m (b + es * i)

theorem place_lt_iff (hk : 0 ≤ k) (hk' : k < es) : es * i + k < es * j ↔ i < j := by
  refine ⟨fun h => ?_, fun h => ?_⟩
  · by_contra hle
    have := mul_le_mul_of_nonneg_left (Int.not_lt.mp hle) (Int.natCast_nonneg es)
    omega
  · have := mul_le_mul_of_nonneg_left (Int.add_one_le_iff.mpr h) (Int.natCast_nonneg es)
    rw [mul_add, mul_one] at this
    omega

theorem place_le_iff (hk : 0 ≤ k) (hk' : k < es) : es * j ≤ es * i + k ↔ j ≤ i := by
  rw [← not_lt, ← not_lt, place_lt_iff hk hk']

/-- The exchange of two blocks of elements, on bytes. -/
theorem blockSwap_scale (hk : 0 ≤ k) (hk' : k < es) :
    blockSwap (b + es * p) (b + es * q) (es * n) (b + es * i + k) =
      b + es * blockSwap p q n i + k := by
  have hplace : ∀ j, b + es * j ≤ b + es * i + k ∧ b + es * i + k < b + es * j + es * n ↔
      j ≤ i ∧ i < j + n := fun j => by
    have hle := place_le_iff (i := i) (j := j) hk hk'
    have hlt := place_lt_iff (i := i) (j := j + n) hk hk'
    rw [mul_add] at hlt
    omega
  unfold blockSwap
  simp only [hplace]
  split_ifs
  · ring
  · ring
  · rfl

theorem view_blockSwap :
    view es b (m ∘ blockSwap (b + es * p) (b + es * q) (es * n)) =
      view es b m ∘ blockSwap p q n := by
  funext i k
  exact congrArg m (blockSwap_scale (Int.natCast_nonneg _) (by exact_mod_cast k.isLt))

theorem swap_eq_blockSwap (p q : ℤ) : ⇑(Equiv.swap p q) = blockSwap p q 1 := by
  funext x
  unfold blockSwap
  rw [Equiv.swap_apply_def]
  split_ifs <;> omega

end LinuxSummer.Qsort
