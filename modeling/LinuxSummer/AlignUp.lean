import Mathlib.Algebra.Group.Nat.Defs
import Mathlib.Order.Bounds.Basic
import Mathlib.Data.Nat.Init

/-! `align_up` of hw1/align_up.c on 64-bit words. -/
namespace LinuxSummer.AlignUp

def alignUp (sz alignment : BitVec 64) : BitVec 64 :=
  let mask := alignment - 1
  if alignment &&& mask = 0 then (sz + mask) &&& ~~~mask
  else (sz + mask) / alignment * alignment

/-- The multiples of `alignment` from `sz` on. -/
def Multiples (sz alignment : ℕ) : Set ℕ := {m | alignment ∣ m ∧ sz ≤ m}

variable {sz alignment m : ℕ}

theorem isLeast_multiple (ha : 0 < alignment) :
    IsLeast (Multiples sz alignment) ((sz + (alignment - 1)) / alignment * alignment) := by
  refine ⟨⟨Nat.dvd_mul_left _ _, ?_⟩, ?_⟩
  · have hdiv := Nat.div_add_mod (sz + (alignment - 1)) alignment
    have hmod := Nat.mod_lt (sz + (alignment - 1)) ha
    rw [Nat.mul_comm] at hdiv
    omega
  · rintro _ ⟨⟨c, rfl⟩, hc⟩
    rw [Nat.mul_comm alignment c]
    apply Nat.mul_le_mul_right
    apply Nat.le_of_lt_succ
    rw [Nat.div_lt_iff_lt_mul ha, Nat.succ_mul, Nat.mul_comm]
    omega

/-- The bits from `k` on are what is left of a multiple of `2 ^ k`. -/
theorem and_not_mask (x : BitVec 64) (k : ℕ) :
    (x &&& ~~~(BitVec.ofNat 64 (2 ^ k - 1))).toNat = x.toNat / 2 ^ k * 2 ^ k := by
  have hbits : x &&& ~~~(BitVec.ofNat 64 (2 ^ k - 1)) = x >>> k <<< k := by
    apply BitVec.eq_of_getLsbD_eq
    intro i hi
    simp only [BitVec.getLsbD_and, BitVec.getLsbD_not, BitVec.getLsbD_ofNat,
      Nat.testBit_two_pow_sub_one, BitVec.getLsbD_shiftLeft, BitVec.getLsbD_ushiftRight]
    by_cases hik : i < k
    · simp [hi, hik]
    · have hsub : k + (i - k) = i := by omega
      simp [hi, hik, hsub]
  have hlt : x.toNat / 2 ^ k * 2 ^ k < 2 ^ 64 :=
    (Nat.div_mul_le_self x.toNat (2 ^ k)).trans_lt x.isLt
  rw [hbits, BitVec.toNat_shiftLeft, BitVec.toNat_ushiftRight, Nat.shiftLeft_eq,
    Nat.shiftRight_eq_div_pow, Nat.mod_eq_of_lt hlt]

theorem toNat_mask {a : BitVec 64} (ha : 1 ≤ a.toNat) : (a - 1).toNat = a.toNat - 1 := by
  rw [BitVec.toNat_sub_of_le (by simpa [BitVec.le_def] using ha)]
  rfl

/-- Without a carry both paths compute the same function. -/
theorem alignUp_eq {sz a : BitVec 64} (ha : 1 ≤ a.toNat) (hno : sz.toNat + (a.toNat - 1) < 2 ^ 64) :
    (alignUp sz a).toNat = (sz.toNat + (a.toNat - 1)) / a.toNat * a.toNat := by
  have hsum : (sz + (a - 1)).toNat = sz.toNat + (a.toNat - 1) := by
    rw [BitVec.toNat_add, toNat_mask ha, Nat.mod_eq_of_lt hno]
  unfold alignUp
  simp only
  split
  · rename_i hand
    have hpow : a.toNat &&& (a.toNat - 1) = 0 := by
      rw [← toNat_mask ha, ← BitVec.toNat_and, hand]
      rfl
    obtain ⟨k, hk⟩ := (Nat.and_sub_one_eq_zero_iff_isPowerOfTwo (by omega)).mp hpow
    have hmask : a - 1 = BitVec.ofNat 64 (2 ^ k - 1) := by
      apply BitVec.eq_of_toNat_eq
      rw [toNat_mask ha, hk, BitVec.toNat_ofNat, Nat.mod_eq_of_lt]
      have := a.isLt
      omega
    have hclear := and_not_mask (sz + (a - 1)) k
    rw [← hmask] at hclear
    rw [hclear, hsum, hk]
  · have hle := Nat.div_mul_le_self (sz.toNat + (a.toNat - 1)) a.toNat
    rw [BitVec.toNat_mul, BitVec.toNat_udiv, hsum, Nat.mod_eq_of_lt (by omega)]

/-- With a carry the division path returns less than `sz`. -/
theorem alignUp_lt {sz a : BitVec 64} (ha : 1 ≤ a.toNat)
    (hcarry : 2 ^ 64 ≤ sz.toNat + (a.toNat - 1)) (hdiv : a &&& (a - 1) ≠ 0) :
    (alignUp sz a).toNat < sz.toNat := by
  have hsz := sz.isLt
  have hal := a.isLt
  have hsum : (sz + (a - 1)).toNat = sz.toNat + (a.toNat - 1) - 2 ^ 64 := by
    rw [BitVec.toNat_add, toNat_mask ha, Nat.mod_eq_sub_mod hcarry, Nat.mod_eq_of_lt (by omega)]
  have hle := Nat.div_mul_le_self (sz + (a - 1)).toNat a.toNat
  unfold alignUp
  simp only [if_neg hdiv]
  rw [BitVec.toNat_mul, BitVec.toNat_udiv, Nat.mod_eq_of_lt (by omega)]
  omega

/-- For a power of two there is no carry: it divides `2 ^ 64`. -/
theorem no_carry {sz a : BitVec 64} (ha : 1 ≤ a.toNat) (hpow : a &&& (a - 1) = 0)
    (hm : IsLeast (Multiples sz.toNat a.toNat) m) (hlt : m < 2 ^ 64) :
    sz.toNat + (a.toNat - 1) < 2 ^ 64 := by
  have hand : a.toNat &&& (a.toNat - 1) = 0 := by
    rw [← toNat_mask ha, ← BitVec.toNat_and, hpow]
    rfl
  obtain ⟨k, hk⟩ := (Nat.and_sub_one_eq_zero_iff_isPowerOfTwo (by omega)).mp hand
  have hk64 : k ≤ 64 := by
    have hlt := a.isLt
    rw [hk] at hlt
    exact ((Nat.pow_lt_pow_iff_right (by decide)).mp hlt).le
  obtain ⟨c, hc⟩ : a.toNat ∣ 2 ^ 64 := hk ▸ Nat.pow_dvd_pow 2 hk64
  obtain ⟨e, rfl⟩ := hm.1.1
  have hle := hm.1.2
  have hec : e < c := by
    rw [hc] at hlt
    exact Nat.lt_of_mul_lt_mul_left hlt
  have hnext : a.toNat * (e + 1) ≤ 2 ^ 64 := hc ▸ Nat.mul_le_mul_left _ hec
  rw [Nat.mul_add] at hnext
  omega

/-- `align_up` returns the least multiple unless the sum carries out of 64 bits; the path for powers
of two always does. -/
theorem align_up_exact (sz alignment : BitVec 64) (ha : 1 ≤ alignment.toNat) (m : ℕ)
    (hm : IsLeast (Multiples sz.toNat alignment.toNat) m) (hlt : m < 2 ^ 64) :
    ((alignUp sz alignment).toNat = m ↔ sz.toNat + (alignment.toNat - 1) < 2 ^ 64) ∧
      (alignment &&& (alignment - 1) = 0 → (alignUp sz alignment).toNat = m) := by
  have hleast := hm.unique (isLeast_multiple ha)
  have hexact (hno : sz.toNat + (alignment.toNat - 1) < 2 ^ 64) :
      (alignUp sz alignment).toNat = m := (alignUp_eq ha hno).trans hleast.symm
  refine ⟨⟨fun heq => ?_, hexact⟩, fun hpow => hexact (no_carry ha hpow hm hlt)⟩
  by_contra hcarry
  by_cases hpow : alignment &&& (alignment - 1) = 0
  · exact hcarry (no_carry ha hpow hm hlt)
  · have hless := alignUp_lt ha (Nat.not_lt.mp hcarry) hpow
    have hle := hm.1.2
    omega

theorem align_up_exact_six : ((alignUp 13 6).toNat = 18 ↔ 13 + (6 - 1) < 2 ^ 64) ∧
    ((6 : BitVec 64) &&& (6 - 1) = 0 → (alignUp 13 6).toNat = 18) :=
  align_up_exact 13 6 (by decide) 18 (isLeast_multiple (by decide))
    (by decide)

/-- The last address is a multiple of three. -/
theorem align_up_wraps : IsLeast (Multiples (BitVec.allOnes 64).toNat (3 : BitVec 64).toNat)
      (2 ^ 64 - 1) ∧ (alignUp (BitVec.allOnes 64) 3).toNat ≠ 2 ^ 64 - 1 := by
  refine ⟨isLeast_multiple (by decide), by decide⟩

end LinuxSummer.AlignUp
