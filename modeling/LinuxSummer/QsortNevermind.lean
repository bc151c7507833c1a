import LinuxSummer.QsortSort

/-! The array at the label `nevermind` of `qsort_algo`. -/
namespace LinuxSummer.Qsort
open Prog
set_option linter.unusedSectionVars false

variable {E B : Type} {es n : ℕ} {a b nl nr : ℤ}

/-! ### An abandoned insertion sort -/

/-- All elements of an aligned array are aligned. -/
theorem swaptype_element (i : ℤ) : swaptype (a + es * i) es = swaptype a es := by
  unfold swaptype
  by_cases hes : (es : ℤ) % 8 = 0
  · have hmul : (a + es * i) % 8 = a % 8 := by
      obtain ⟨c, hc⟩ := Int.dvd_of_emod_eq_zero hes
      rw [hc, mul_assoc]
      exact Int.add_mul_emod_self_left a 8 (c * i)
    rw [hmul]
  · rw [if_pos (.inr hes), if_pos (.inr hes)]

end LinuxSummer.Qsort
