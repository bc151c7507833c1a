import LinuxSummer.QsortNevermind

/-! The sort of integers by `num_compare` of hw1/qsort-mt.c. -/
namespace LinuxSummer.Qsort
open Prog
set_option linter.unusedSectionVars false

variable {B : Type} {n v lo hi : ℕ}

/-- The `uint32_t` in four bytes. -/
def word (e : Fin 4 → UInt8) : ℕ :=
  (e 0).toNat + 2 ^ 8 * (e 1).toNat + 2 ^ 16 * (e 2).toNat + 2 ^ 24 * (e 3).toNat

variable {top rest : Fin 4 → UInt8} {m : ℤ → Fin 4 → UInt8}

end LinuxSummer.Qsort
