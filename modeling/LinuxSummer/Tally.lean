import Mathlib.Algebra.BigOperators.Group.Finset.Basic
import Mathlib.Algebra.BigOperators.Group.Finset.Piecewise
import Mathlib.Algebra.Order.BigOperators.Group.Finset
import Mathlib.Data.Fintype.Basic
import Mathlib.Data.List.Count

/-! Counting what is spread over the threads of a system: in how many places something is. -/
set_option linter.unusedSectionVars false

namespace LinuxSummer

variable {T L A : Type*} [Fintype T] [DecidableEq T] [DecidableEq A]

/-- How often `a` occurs in what `f` reads off the threads. -/
def tally (f : L → List A) (s : T → L) (a : A) : ℕ := ∑ t, (f (s t)).count a

theorem tally_update (f : L → List A) (s : T → L) (t : T) (l : L) (a : A) :
    tally f (Function.update s t l) a + (f (s t)).count a = tally f s a + (f l).count a := by
  unfold tally
  rw [← Finset.add_sum_erase _ _ (Finset.mem_univ t),
    ← Finset.add_sum_erase _ (fun u => (f (s u)).count a) (Finset.mem_univ t)]
  have hrest : ∑ u ∈ Finset.univ.erase t, (f (Function.update s t l u)).count a =
      ∑ u ∈ Finset.univ.erase t, (f (s u)).count a := by
    apply Finset.sum_congr rfl
    intro u hu
    rw [Function.update_of_ne (Finset.ne_of_mem_erase hu)]
  rw [hrest, Function.update_self]
  omega

theorem count_le_tally (f : L → List A) (s : T → L) (t : T) (a : A) :
    (f (s t)).count a ≤ tally f s a :=
  Finset.single_le_sum (f := fun u => (f (s u)).count a) (fun _ _ => Nat.zero_le _)
    (Finset.mem_univ t)

/-- One thread that holds `a` is counted. -/
theorem tally_pos {f : L → List A} {s : T → L} {t : T} {a : A} (h : a ∈ f (s t)) :
    0 < tally f s a :=
  (List.count_pos_iff.mpr h).trans_le (count_le_tally f s t a)

theorem exists_of_tally_pos {f : L → List A} {s : T → L} {a : A} (h : 0 < tally f s a) :
    ∃ t, a ∈ f (s t) := by
  by_contra hno
  have hzero : tally f s a = 0 := by
    apply Finset.sum_eq_zero
    intro t _
    exact List.count_eq_zero.mpr fun ha => hno ⟨t, ha⟩
  omega

/-- What is in one place at most is not with two threads. -/
theorem eq_of_tally_le_one {f : L → List A} {s : T → L} {t u : T} {a : A} (h : tally f s a ≤ 1)
    (ht : a ∈ f (s t)) (hu : a ∈ f (s u)) : t = u := by
  by_contra hne
  have hsub : ∑ v ∈ {t, u}, (f (s v)).count a ≤ tally f s a :=
    Finset.sum_le_sum_of_subset (Finset.subset_univ _)
  rw [Finset.sum_pair hne] at hsub
  have hpos := List.count_pos_iff.mpr ht
  have hpos' := List.count_pos_iff.mpr hu
  omega

/-- A sum over the threads falls when one of them gives more than another one gets. -/
theorem sum_lt_of_paid {f f' : T → ℕ} {t u : T} {e : ℕ} (ht : f' t + e < f t)
    (hother : ∀ v, v ≠ t → f' v ≤ f v + if v = u then e else 0) :
    ∑ v, f' v < ∑ v, f v := by
  have hgain : ∑ v ∈ Finset.univ.erase t, (if v = u then e else 0) ≤ e := by
    rw [Finset.sum_ite_eq']
    split
    · exact Nat.le_refl e
    · exact Nat.zero_le e
  have hrest : ∑ v ∈ Finset.univ.erase t, f' v ≤ ∑ v ∈ Finset.univ.erase t, f v + e := by
    calc ∑ v ∈ Finset.univ.erase t, f' v
        ≤ ∑ v ∈ Finset.univ.erase t, (f v + if v = u then e else 0) := by
          apply Finset.sum_le_sum
          intro v hv
          exact hother v (Finset.ne_of_mem_erase hv)
      _ = ∑ v ∈ Finset.univ.erase t, f v + ∑ v ∈ Finset.univ.erase t, (if v = u then e else 0) :=
          Finset.sum_add_distrib
      _ ≤ _ := Nat.add_le_add_left hgain _
  rw [← Finset.add_sum_erase _ f (Finset.mem_univ t), ← Finset.add_sum_erase _ f' (Finset.mem_univ t)]
  omega

end LinuxSummer
