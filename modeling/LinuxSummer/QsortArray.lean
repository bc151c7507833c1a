import Mathlib.Logic.Equiv.Basic
import Mathlib.Algebra.Group.End
import LinuxSummer.QsortModel

/-! The calls of `qsort_algo` on an array of elements, and its insertion sort there. -/
namespace LinuxSummer.Qsort
open Prog
set_option linter.unusedSectionVars false

variable {E : Type} {cmpf : E → E → ℤ} {le : E → E → Prop} {lo hi lo' hi' a n p q x y : ℤ}
  {m m' m'' : ℤ → E}

/-! ### Arrays and their rearrangements -/

/-- The exchange of the `n` elements at `p` with those at `q`, on places. -/
def blockSwap (p q n x : ℤ) : ℤ :=
  if p ≤ x ∧ x < p + n then q + (x - p) else if q ≤ x ∧ x < q + n then p + (x - q) else x

/-- `m'` is `m` with the elements from `lo` up to `hi` in another order. -/
def Shuffle (lo hi : ℤ) (m m' : ℤ → E) : Prop :=
  ∃ σ : Equiv.Perm ℤ, (∀ x, ¬ (lo ≤ x ∧ x < hi) → σ x = x) ∧ m' = m ∘ σ

theorem Shuffle.refl (lo hi : ℤ) (m : ℤ → E) : Shuffle lo hi m m := ⟨1, fun _ _ => rfl, rfl⟩

theorem Shuffle.trans (h : Shuffle lo hi m m') (h' : Shuffle lo hi m' m'') :
    Shuffle lo hi m m'' := by
  obtain ⟨σ, hσ, rfl⟩ := h
  obtain ⟨τ, hτ, rfl⟩ := h'
  refine ⟨σ * τ, fun x hx => ?_, rfl⟩
  rw [Equiv.Perm.mul_apply, hτ x hx, hσ x hx]

theorem Shuffle.mono (hlo : lo' ≤ lo) (hhi : hi ≤ hi') (h : Shuffle lo hi m m') :
    Shuffle lo' hi' m m' := by
  obtain ⟨σ, hσ, rfl⟩ := h
  exact ⟨σ, fun x hx => hσ x fun h => hx ⟨by omega, by omega⟩, rfl⟩

theorem Shuffle.outside (h : Shuffle lo hi m m') (hx : ¬ (lo ≤ x ∧ x < hi)) : m' x = m x := by
  obtain ⟨σ, hσ, rfl⟩ := h
  rw [Function.comp_apply, hσ x hx]

/-- What holds of all elements in the range holds of them in another order. -/
theorem Shuffle.forall {P : E → Prop} (h : Shuffle lo hi m m')
    (hP : ∀ x, lo ≤ x → x < hi → P (m x)) (hx : lo ≤ x) (hx' : x < hi) : P (m' x) := by
  obtain ⟨σ, hσ, rfl⟩ := h
  have hrange : lo ≤ σ x ∧ σ x < hi := by
    by_contra hout
    have hfix := σ.injective (hσ (σ x) hout)
    rw [hfix] at hout
    exact hout ⟨hx, hx'⟩
  exact hP _ hrange.1 hrange.2

theorem shuffle_swap (hp : lo ≤ p ∧ p < hi) (hq : lo ≤ q ∧ q < hi) :
    Shuffle lo hi m (m ∘ Equiv.swap p q) := by
  refine ⟨Equiv.swap p q, fun x hx => Equiv.swap_apply_of_ne_of_ne ?_ ?_, rfl⟩
  · rintro rfl
    exact hx hp
  · rintro rfl
    exact hx hq

theorem blockSwap_involutive (hpq : p + n ≤ q) : Function.Involutive (blockSwap p q n) := by
  intro x
  unfold blockSwap
  split_ifs <;> omega

theorem shuffle_blockSwap (hp : lo ≤ p) (hpq : p + n ≤ q) (hq : q + n ≤ hi) :
    Shuffle lo hi m (m ∘ blockSwap p q n) := by
  refine ⟨(blockSwap_involutive hpq).toPerm, fun x hx => ?_, rfl⟩
  change blockSwap p q n x = x
  unfold blockSwap
  split_ifs <;> omega

/-! ### The order of the comparison function -/

/-- The comparison function is a total preorder. -/
structure TotalPreorder (cmpf : E → E → ℤ) : Prop where
  flip : ∀ x y, cmpf x y < 0 ↔ 0 < cmpf y x
  trans : ∀ x y z, cmpf x y ≤ 0 → cmpf y z ≤ 0 → cmpf x z ≤ 0

/-- The answers of the comparison function are true of `le`. -/
structure Orders (cmpf : E → E → ℤ) (le : E → E → Prop) : Prop where
  of_le : ∀ x y, cmpf x y ≤ 0 → le x y
  of_ge : ∀ x y, 0 ≤ cmpf x y → le y x
  trans : ∀ x y z, le x y → le y z → le x z

theorem TotalPreorder.orders (h : TotalPreorder cmpf) :
    Orders cmpf fun x y => cmpf x y ≤ 0 := by
  refine ⟨fun x y hxy => hxy, fun x y hxy => ?_, h.trans⟩
  have := h.flip x y
  have := h.flip y x
  omega

/-- Of a comparison function that may answer anything nothing is promised. -/
theorem orders_true (cmpf : E → E → ℤ) : Orders cmpf fun _ _ => True :=
  ⟨fun _ _ _ => trivial, fun _ _ _ => trivial, fun _ _ _ _ _ => trivial⟩

/-- The elements from `lo` up to `hi` are in order. -/
def Sorted (le : E → E → Prop) (lo hi : ℤ) (m : ℤ → E) : Prop :=
  ∀ x y, lo ≤ x → x < y → y < hi → le (m x) (m y)

/-- The elements from `lo` up to `hi` are in order but for the order of those from `a` up to `b`
among themselves and that of those from `c` on. -/
def Parted (le : E → E → Prop) (lo a b c hi : ℤ) (m : ℤ → E) : Prop :=
  ∀ x y, lo ≤ x → x < y → y < hi → ¬ (a ≤ x ∧ y < b) → ¬ c ≤ x → le (m x) (m y)

/-! ### The calls on an array -/

/-- The calls of a thread that owns the elements from the second component of the state up to `hi`.
A part that it hands out is no more its own, nor is what lies before that part; what lies after it
is not empty. -/
def onRange (cmpf : E → E → ℤ) (le : E → E → Prop) (hi : ℤ) :
    Spec SortOp Answer ((ℤ → E) × ℤ) where
  pre
    | .cmp p q, s => (s.2 ≤ p ∧ p < hi) ∧ s.2 ≤ q ∧ q < hi
    | .swap p q, s => (s.2 ≤ p ∧ p < hi) ∧ s.2 ≤ q ∧ q < hi
    | .swapfunc p q n, s => 0 < n ∧ s.2 ≤ p ∧ p + n ≤ q ∧ q + n ≤ hi
    | .allocate a n, s => 0 < n ∧ s.2 ≤ a ∧ a + n < hi ∧ Parted le s.2 a (a + n) (a + n) hi s.1
  eff
    | .cmp p q, s, r, s' => r = cmpf (s.1 p) (s.1 q) ∧ s' = s
    | .swap p q, s, _, s' => s' = (s.1 ∘ Equiv.swap p q, s.2)
    | .swapfunc p q n, s, _, s' => s' = (s.1 ∘ blockSwap p q n, s.2)
    | .allocate a n, s, r, s' => s' = (s.1, bif r then a + n else s.2)

variable {α β : Type} {Q Q' : α → (ℤ → E) → Prop} {R : β → (ℤ → E) → Prop} {t : SortProg α}
  {f : α → SortProg β}

/-- The runs of a program that hands out nothing. -/
def Runs (cmpf : E → E → ℤ) (le : E → E → Prop) (lo hi : ℤ) (Q : α → (ℤ → E) → Prop)
    (t : SortProg α) (m : ℤ → E) : Prop :=
  Wp (onRange cmpf le hi) (fun r s => s.2 = lo ∧ Q r s.1) t (m, lo)

theorem runs_ret {r : α} (h : Q r m) : Runs cmpf le lo hi Q (.ret r) m := ⟨rfl, h⟩

theorem runs_mono (hQ : ∀ r m, Q r m → Q' r m) (h : Runs cmpf le lo hi Q t m) :
    Runs cmpf le lo hi Q' t m :=
  wp_mono (fun r s hs => ⟨hs.1, hQ r s.1 hs.2⟩) h

theorem runs_seq (ht : Runs cmpf le lo hi Q t m)
    (hf : ∀ r m, Q r m → Runs cmpf le lo hi R (f r) m) : Runs cmpf le lo hi R (t >>= f) m := by
  refine wp_seq ht ?_
  rintro r ⟨m', lo'⟩ ⟨hlo, hq⟩
  obtain rfl : lo' = lo := hlo
  exact hf r m' hq

theorem runs_cmp {f : ℤ → SortProg β} (hp : lo ≤ p ∧ p < hi) (hq : lo ≤ q ∧ q < hi)
    (h : Runs cmpf le lo hi R (f (cmpf (m p) (m q))) m) :
    Runs cmpf le lo hi R (cmp p q >>= f) m := by
  refine ⟨⟨hp, hq⟩, ?_⟩
  rintro r s ⟨rfl, rfl⟩
  exact h

theorem runs_swap {f : Unit → SortProg β} (hp : lo ≤ p ∧ p < hi) (hq : lo ≤ q ∧ q < hi)
    (h : Runs cmpf le lo hi R (f ()) (m ∘ Equiv.swap p q)) :
    Runs cmpf le lo hi R (swap p q >>= f) m := by
  refine ⟨⟨hp, hq⟩, ?_⟩
  rintro ⟨⟩ s rfl
  exact h

/-! ### The insertion sort -/

/-- The elements up to `hi` are in order but for the one at `pl`, which may be less than those
before it. -/
def SortedBut (le : E → E → Prop) (lo hi pl : ℤ) (m : ℤ → E) : Prop :=
  ∀ x y, lo ≤ x → x < y → y < hi → y ≠ pl → le (m x) (m y)

theorem sorted_of_but {pl : ℤ} (hc : Orders cmpf le) (h : SortedBut le a n pl m)
    (hpl : a < pl → le (m (pl - 1)) (m pl)) : Sorted le a n m := by
  intro x y hx hxy hy
  by_cases hypl : y = pl
  · subst hypl
    by_cases hxp : x = y - 1
    · subst hxp
      exact hpl (by omega)
    · exact hc.trans _ _ _ (h x (y - 1) hx (by omega) (by omega) (by omega)) (hpl (by omega))
  · exact h x y hx hxy hy hypl

theorem swap_at_left (p q : ℤ) : (m ∘ Equiv.swap p q) p = m q := by simp

theorem swap_at_right (p q : ℤ) : (m ∘ Equiv.swap p q) q = m p := by simp

theorem swap_at_other (hp : x ≠ p) (hq : x ≠ q) : (m ∘ Equiv.swap p q) x = m x := by
  rw [Function.comp_apply, Equiv.swap_apply_of_ne_of_ne hp hq]

/-- One exchange of the inner loop. -/
theorem sortedBut_swap {pl : ℤ} (h : SortedBut le a n pl m) (hlo : a < pl) (hhi : pl < n)
    (hle : le (m pl) (m (pl - 1))) :
    SortedBut le a n (pl - 1) (m ∘ Equiv.swap pl (pl - 1)) := by
  intro x y hx hxy hy hne
  by_cases hypl : y = pl
  · subst hypl
    rw [swap_at_left]
    by_cases hxp : x = y - 1
    · rw [hxp, swap_at_right]
      exact hle
    · rw [swap_at_other (by omega) hxp]
      exact h x (y - 1) hx (by omega) (by omega) (by omega)
  · rw [swap_at_other hypl hne]
    by_cases hxpl : x = pl
    · rw [hxpl, swap_at_left]
      exact h (pl - 1) y (by omega) (by omega) hy hypl
    · by_cases hxp : x = pl - 1
      · rw [hxp, swap_at_right]
        exact h pl y (by omega) (by omega) hy hypl
      · rw [swap_at_other hxpl hxp]
        exact h x y hx hxy hy hypl

/-- A property of the array that the exchange of two neighbours in the wrong order keeps. -/
def Kept (cmpf : E → E → ℤ) (lo hi : ℤ) (K : (ℤ → E) → Prop) : Prop :=
  ∀ m pl, lo < pl → pl < hi → 0 < cmpf (m (pl - 1)) (m pl) → K m →
    K (m ∘ Equiv.swap pl (pl - 1))

variable {K : (ℤ → E) → Prop} {limit : Option ℤ}

/-- The inner loop brings the element at `pl` to its place, or is abandoned. -/
theorem insert_spec (hc : Orders cmpf le) (hK : Kept cmpf a hi' K) (hlo : lo ≤ a)
    (hhi : hi' ≤ hi) {pm : ℤ} (hpm : pm < hi') (fuel : ℕ) (cnt pl : ℤ) (m : ℤ → E) (ha : a ≤ pl)
    (hpl : pl ≤ pm) (hfuel : pl - a < fuel) (h : SortedBut le a (pm + 1) pl m) (hk : K m) :
    Runs cmpf le lo hi (fun r m' => Shuffle a hi' m m' ∧ K m' ∧
      (r.isSome → Sorted le a (pm + 1) m') ∧ (limit = none → r.isSome))
      (insert 1 a limit fuel cnt pl) m := by
  induction fuel generalizing cnt pl m with
  | zero => omega
  | succ fuel ih =>
    unfold insert
    split
    · rename_i hgt
      refine runs_cmp ⟨by omega, by omega⟩ ⟨by omega, by omega⟩ ?_
      split
      · rename_i hcmp
        have hkept := hK m pl hgt (by omega) hcmp hk
        have hshuffle : Shuffle a hi' m (m ∘ Equiv.swap pl (pl - 1)) :=
          shuffle_swap ⟨by omega, by omega⟩ ⟨by omega, by omega⟩
        refine runs_swap ⟨by omega, by omega⟩ ⟨by omega, by omega⟩ ?_
        split
        · rename_i hlimit
          refine runs_ret ⟨hshuffle, hkept, fun h => by simp at h, fun h => ?_⟩
          simp [h] at hlimit
        · have hbut := sortedBut_swap h hgt (by omega) (hc.of_ge _ _ (Int.le_of_lt hcmp))
          refine runs_mono (fun r m' hr => ?_)
            (ih (cnt + 1) (pl - 1) _ (by omega) (by omega) (by omega) hbut hkept)
          exact ⟨hshuffle.trans hr.1, hr.2⟩
      · rename_i hcmp
        have hle := hc.of_le _ _ (Int.not_lt.mp hcmp)
        exact runs_ret ⟨.refl _ _ _, hk, fun _ => sorted_of_but hc h fun _ => hle, fun _ => rfl⟩
    · exact runs_ret ⟨.refl _ _ _, hk, fun _ => sorted_of_but hc h fun _ => by omega, fun _ => rfl⟩

/-- The insertion sort sorts the array or is abandoned; it keeps what `Kept` admits. -/
theorem insertionSort_spec (hc : Orders cmpf le) (hK : Kept cmpf a (a + n) K) (hlo : lo ≤ a)
    (hhi : a + n ≤ hi) (bound : ℕ) (hbound : n < bound) (fuel : ℕ) (cnt pm : ℤ) (m : ℤ → E)
    (ha : a < pm) (hfuel : a + n - pm < fuel) (hpos : 0 < fuel) (h : Sorted le a pm m)
    (hk : K m) :
    Runs cmpf le lo hi (fun sorted m' => Shuffle a (a + n) m m' ∧ K m' ∧
      (sorted = true → Sorted le a (a + n) m') ∧ (limit = none → sorted = true))
      (insertionSort 1 a n limit bound fuel cnt pm) m := by
  induction fuel generalizing cnt pm m with
  | zero => omega
  | succ fuel ih =>
    unfold insertionSort
    split
    · rename_i hpm
      refine runs_seq (insert_spec hc hK hlo hhi (show pm < a + n by omega) bound cnt
        pm m ha.le (Int.le_refl _) (by omega)
        (fun x y hx hxy hy hne => h x y hx hxy (by omega)) hk) ?_
      rintro (_ | cnt') m' ⟨hs, hk', hsorted, hlimit⟩
      · exact runs_ret ⟨hs, hk', fun h => by simp at h, fun h => by simpa using hlimit h⟩
      · refine runs_mono (fun r m'' hr => ?_)
          (ih cnt' (pm + 1) m' (by omega) (by omega) (by omega) (hsorted rfl) hk')
        exact ⟨hs.trans hr.1, hr.2⟩
    · exact runs_ret ⟨.refl _ _ _, hk, fun _ x y hx hxy hy => h x y hx hxy (by omega), fun _ => rfl⟩

end LinuxSummer.Qsort
