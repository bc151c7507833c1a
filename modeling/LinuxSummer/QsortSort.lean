import Mathlib.Data.Fintype.EquivFin
import Mathlib.Data.List.FinRange
import LinuxSummer.QsortScale

/-! `qsort_algo` sorts the array in the memory. -/
namespace LinuxSummer.Qsort
open Prog
set_option linter.unusedSectionVars false

variable {B : Type} {es n : ℕ} {cmpf : (Fin es → B) → (Fin es → B) → ℤ}
  {le : (Fin es → B) → (Fin es → B) → Prop} {b lo hi p q k x : ℤ} {m m' : ℤ → B}
  {o o' : SortOp} {S : Answer o → Answer o' → Prop}

/-- Two blocks of elements do not overlap, or are the same. -/
theorem apart_scale (hes : 0 < es) (h : Apart p q k) : Apart (b + es * p) (b + es * q) (es * k) := by
  have hp := addr_le_iff (b := b) (x := p + k) (y := q) hes
  have hq := addr_le_iff (b := b) (x := q + k) (y := p) hes
  rw [mul_add] at hp hq
  unfold Apart at h ⊢
  rcases h with rfl | h | h
  · exact .inl rfl
  · have := hp.mpr h
    omega
  · have := hq.mpr h
    omega

/-- An exchange in the array leaves the bytes around it as they are. -/
theorem blockSwap_outside (hes : 0 < es) (hp : lo ≤ p ∧ p + k ≤ hi) (hq : lo ≤ q ∧ q + k ≤ hi)
    (hx : ¬ (b + es * lo ≤ x ∧ x < b + es * hi)) :
    blockSwap (b + es * p) (b + es * q) (es * k) x = x := by
  have hlp := (addr_le_iff (b := b) hes).mpr hp.1
  have hph := (addr_le_iff (b := b) hes).mpr hp.2
  have hlq := (addr_le_iff (b := b) hes).mpr hq.1
  have hqh := (addr_le_iff (b := b) hes).mpr hq.2
  rw [mul_add] at hph hqh
  unfold blockSwap
  rw [if_neg (by omega), if_neg (by omega)]

/-- The address of an element. -/
def IsElement (es n : ℕ) (a p : ℤ) : Prop := a ≤ p ∧ p < a + es * n ∧ (p - a) % es = 0

/-- A call for elements of the array only; blocks that are exchanged do not overlap. -/
def SortOp.Inside (es n : ℕ) (a : ℤ) : SortOp → Prop
  | .cmp p q => IsElement es n a p ∧ IsElement es n a q
  | .swap p q => IsElement es n a p ∧ IsElement es n a q
  | .swapfunc p q k =>
    IsElement es n a p ∧ IsElement es n a q ∧ 0 < k ∧ p + k ≤ q ∧ q + k ≤ a + es * n
  | .allocate _ _ => True

theorem isElement_scale (hes : 0 < es) (hp : 0 ≤ p ∧ p < n) : IsElement es n b (b + es * p) := by
  have h0 := (addr_le_iff (b := b) (x := 0) hes).mpr hp.1
  have hn := (addr_lt_iff (b := b) hes).mpr hp.2
  refine ⟨by omega, hn, ?_⟩
  rw [add_sub_cancel_left]
  exact Int.mul_emod_right _ _

theorem inside_scale (hes : 0 < es) (hlo : 0 ≤ lo) (hR : Scaled es b o o' S)
    {E : Type} {cmpf : E → E → ℤ} {le : E → E → Prop} {m : ℤ → E}
    (hpre : (onRange cmpf le n).pre o (m, lo)) : o'.Inside es n b := by
  cases hR with
  | cmp p q =>
    obtain ⟨hp, hq⟩ := hpre
    simp only at hp hq
    exact ⟨isElement_scale hes ⟨by omega, hp.2⟩, isElement_scale hes ⟨by omega, hq.2⟩⟩
  | swap p q =>
    obtain ⟨hp, hq⟩ := hpre
    simp only at hp hq
    exact ⟨isElement_scale hes ⟨by omega, hp.2⟩, isElement_scale hes ⟨by omega, hq.2⟩⟩
  | swapfunc p q k =>
    obtain ⟨hk, hp, hpq, hq⟩ := hpre
    simp only at hp
    have hmid := (addr_le_iff (b := b) hes).mpr hpq
    have hlast := (addr_le_iff (b := b) hes).mpr hq
    rw [mul_add] at hmid hlast
    exact ⟨isElement_scale hes ⟨by omega, by omega⟩, isElement_scale hes ⟨by omega, by omega⟩,
      mul_pos (by exact_mod_cast hes) hk, by omega, by omega⟩
  | allocate a k => trivial

/-- A call on the memory is that on the array of elements. -/
theorem onMemory_view (hes : 0 < es) (hmax : 0 < hi → (es : ℤ) < 2 ^ 31) (hlo : 0 ≤ lo)
    (hR : Scaled es b o o' S) (hpre : (onRange cmpf le hi).pre o (view es b m, lo)) :
    let r := onMemory es (swaptype b es) cmpf o' m
    (∃ r₀, S r₀ r.1 ∧ (onRange cmpf le hi).eff o (view es b m, lo) r₀ (view es b r.2, lo)) ∧
      ∀ x, ¬ (b + es * lo ≤ x ∧ x < b + es * hi) → r.2 x = m x := by
  cases hR with
  | cmp p q => exact ⟨⟨_, rfl, rfl, rfl⟩, fun x hx => rfl⟩
  | swap p q =>
    obtain ⟨hp, hq⟩ := hpre
    simp only at hp hq
    have hes31 := hmax (by omega)
    have happ : Apart (b + es * p) (b + es * q) (es * 1) :=
      apart_scale hes (by unfold Apart; omega)
    have hmem : swapMem es (swaptype b es) m (b + es * p) (b + es * q) =
        m ∘ blockSwap (b + es * p) (b + es * q) (es * 1) := by
      rw [mul_one] at happ ⊢
      exact swapMem_eq hes hes31 happ
    refine ⟨⟨(), trivial, ?_⟩, fun x hx => ?_⟩
    · change (view es b (swapMem es (swaptype b es) m (b + es * p) (b + es * q)), lo) = _
      rw [hmem, view_blockSwap, swap_eq_blockSwap]
    · change swapMem es (swaptype b es) m (b + es * p) (b + es * q) x = _
      rw [hmem, Function.comp_apply, blockSwap_outside hes (by omega) (by omega) hx]
  | swapfunc p q k =>
    obtain ⟨hk, hp, hpq, hq⟩ := hpre
    simp only at hp
    have happ : Apart (b + es * p) (b + es * q) (es * k) :=
      apart_scale hes (by unfold Apart; omega)
    have hmem := swapfunc_eq (m := m) (a := b) hes hk happ
    refine ⟨⟨(), trivial, ?_⟩, fun x hx => ?_⟩
    · change (view es b (swapfunc m (b + es * p) (b + es * q) (es * k) (swaptype b es)), lo) = _
      rw [hmem, view_blockSwap]
    · change swapfunc m (b + es * p) (b + es * q) (es * k) (swaptype b es) x = _
      rw [hmem, Function.comp_apply, blockSwap_outside hes (by omega) (by omega) hx]
  | allocate a k => exact ⟨⟨false, rfl, rfl⟩, fun x hx => rfl⟩

/-- A call of a thread only rearranges what it owns. -/
theorem onRange_shuffle {E : Type} {cmpf : E → E → ℤ} {le : E → E → Prop} {s s' : (ℤ → E) × ℤ}
    {r : Answer o} (hpre : (onRange cmpf le hi).pre o s) (heff : (onRange cmpf le hi).eff o s r s') :
    Shuffle s.2 hi s.1 s'.1 := by
  cases o with
  | cmp p q =>
    obtain ⟨-, rfl⟩ := heff
    exact .refl _ _ _
  | swap p q =>
    obtain rfl := heff
    exact shuffle_swap hpre.1 hpre.2
  | swapfunc p q k =>
    obtain rfl := heff
    exact shuffle_blockSwap hpre.2.1 hpre.2.2.1 hpre.2.2.2
  | allocate a k =>
    obtain rfl := heff
    exact .refl _ _ _

/-! ### The array before and after -/

/-- The `n` elements at `a`. -/
def elements (es n : ℕ) (a : ℤ) (m : ℤ → B) : List (Fin es → B) :=
  List.ofFn fun i : Fin n => element es m (a + es * i)

/-- A rearrangement of the places from zero up to `n` is one of the list of elements. -/
theorem elements_perm (h : Shuffle 0 n (view es b m) (view es b m')) :
    (elements es n b m').Perm (elements es n b m) := by
  obtain ⟨σ, hfix, heq⟩ := h
  have hin : ∀ i : Fin n, 0 ≤ σ i ∧ σ i < n := fun i => by
    by_contra hout
    have hsame := σ.injective (hfix _ hout)
    rw [hsame] at hout
    exact hout ⟨by omega, by omega⟩
  have hinj : Function.Injective fun i : Fin n => (⟨(σ i).toNat, by have := hin i; omega⟩ : Fin n) :=
    fun i j hij => by
      have hi := hin i
      have hj := hin j
      have hval := congrArg Fin.val hij
      simp only at hval
      have := σ.injective (show σ i = σ j by omega)
      exact Fin.ext (by omega)
  let τ : Equiv.Perm (Fin n) := Equiv.ofBijective _ (Finite.injective_iff_bijective.mp hinj)
  have hτ : (fun i : Fin n => element es m' (b + es * i)) =
      (fun i : Fin n => element es m (b + es * i)) ∘ τ := by
    funext i
    have hcast : ((τ i : ℕ) : ℤ) = σ i := Int.toNat_of_nonneg (hin i).1
    have := congrFun heq i
    simp only [Function.comp_apply, hcast]
    exact this
  unfold elements
  rw [hτ]
  exact Equiv.Perm.ofFn_comp_perm τ _

/-- The `int`s of `qsort_algo` hold the lengths stored in them: the size of an element, and at most
half of the array. -/
structure Fits (es n : ℕ) : Prop where
  elem : 0 < (n : ℤ) → (es : ℤ) < 2 ^ 31
  half : (n : ℤ) / 2 * es < 2 ^ 31

theorem fits_of_bytes (h : n * es < 2 ^ 31) : Fits es n := by
  have hbytes : (n : ℤ) * es < 2 ^ 31 := by exact_mod_cast h
  refine ⟨fun hn => ?_, ?_⟩
  · exact lt_of_le_of_lt (le_mul_of_one_le_left (by omega) (by omega)) hbytes
  · exact lt_of_le_of_lt (mul_le_mul_of_nonneg_right (by omega) (by positivity)) hbytes

theorem Fits.mono {k : ℕ} (h : Fits es n) (hk : k ≤ n) : Fits es k := by
  refine ⟨fun hk0 => h.elem (by omega), lt_of_le_of_lt ?_ h.half⟩
  exact mul_le_mul_of_nonneg_right (by omega) (by positivity)

theorem Fits.half_lt (h : Fits es n) (hes : 1 ≤ es) : (n : ℤ) / 2 < 2 ^ 31 := by
  have hle : (n : ℤ) / 2 ≤ n / 2 * es := le_mul_of_one_le_right (by omega) (by omega)
  have := h.half
  omega

/-- What is proved of a program on indices holds of the program on bytes, where the memory is the
array and nothing is handed out. -/
theorem wp_memory {α α' : Type} {ρ : α → α' → Prop} {t : SortProg α} {t' : SortProg α'}
    {Q : α → (ℤ → Fin es → B) × ℤ → Prop} (hes : 0 < es) (helem : 0 < (n : ℤ) → (es : ℤ) < 2 ^ 31)
    (hsim : Sim (Scaled es b) ρ t t') (h : Wp (onRange cmpf le n) Q t (view es b m, 0)) :
    Wp (.ofFun (SortOp.Inside es n b) (onMemory es (swaptype b es) cmpf))
      (fun y m' => (∃ x, ρ x y ∧ Q x (view es b m', 0)) ∧
        (elements es n b m').Perm (elements es n b m) ∧
        ∀ x, ¬ (b ≤ x ∧ x < b + es * n) → m' x = m x) t' m := by
  have hstart : b + es * 0 = b := by ring
  refine wp_mono ?_ (wp_sim (J := fun s m' => s = (view es b m', 0) ∧
    Shuffle 0 n (view es b m) (view es b m') ∧
    ∀ x, ¬ (b + es * 0 ≤ x ∧ x < b + es * n) → m' x = m x) hsim ?_
    ⟨rfl, .refl _ _ _, fun _ _ => rfl⟩ h)
  · rintro y m' ⟨x, s, hρ, ⟨rfl, hs, hout⟩, hq⟩
    rw [hstart] at hout
    exact ⟨⟨x, hρ, hq⟩, elements_perm hs, hout⟩
  · rintro o o' S _ m₁ hR ⟨rfl, hs, hout⟩ hpre
    refine ⟨inside_scale hes (Int.le_refl 0) hR hpre, ?_⟩
    rintro r' m₂ ⟨rfl, rfl⟩
    obtain ⟨⟨r, hS, heff⟩, hframe⟩ := onMemory_view hes helem (Int.le_refl 0) hR hpre
    refine ⟨r, _, hS, heff, rfl, hs.trans (onRange_shuffle hpre heff), fun x hx => ?_⟩
    rw [hframe x hx, hout x hx]

/-- The run of `qsort_algo` on the whole array. -/
theorem wp_qsortAlgo (hes : 1 ≤ es) (hfits : Fits es n) (hc : Orders cmpf le)
    (forkelem : ℕ) (a : ℤ) (m : ℤ → B) (fuel : ℕ) (hfuel : n < fuel) :
    Wp (.ofFun (SortOp.Inside es n a) (onMemory es (swaptype a es) cmpf))
      (fun _ m' => (∀ i : ℕ, i + 1 < n →
          le (element es m' (a + es * i)) (element es m' (a + es * (i + 1)))) ∧
        (elements es n a m').Perm (elements es n a m) ∧
        ∀ x, ¬ (a ≤ x ∧ x < a + es * n) → m' x = m x)
      (qsortAlgo es forkelem fuel a n) m := by
  have hspec := qsortAlgo_spec hc (Int.natCast_nonneg forkelem) fuel 0 n 0
    (view es a m) (by positivity) (hfits.half_lt hes) (by exact_mod_cast hfuel) (Int.le_refl 0)
    (show (0 : ℤ) + n ≤ n by omega) fun x y hx hxy hy hin hx' => by omega
  have hsim := sim_qsortAlgo (b := a) hes forkelem fuel 0 n hfits.half
  rw [addr_zero] at hsim
  refine wp_mono ?_ (wp_memory hes hfits.elem hsim hspec)
  rintro _ m' ⟨⟨_, -, hdone⟩, hrest⟩
  refine ⟨fun i hi => ?_, hrest⟩
  have hlast : ((i : ℤ) + 1) < n := by exact_mod_cast hi
  exact hdone.parted i (i + 1) (Int.natCast_nonneg i) (by omega) hlast (by omega) (by omega)

/-- With no idle thread `qsort_algo` comes to an end with the array sorted, for every comparison
function that is a total preorder on the contents of the elements. -/
theorem qsort_algo_sorts (hes : 1 ≤ es) (hmax : n * es ≤ 2 ^ 31 - 1) (hc : TotalPreorder cmpf)
    (forkelem : ℕ) (a : ℤ) (m : ℤ → B) (fuel : ℕ) (hfuel : n < fuel) :
    ∃ m', exec (onMemory es (swaptype a es) cmpf) (qsortAlgo es forkelem fuel a n) m =
        some ((), m') ∧
      (elements es n a m').Perm (elements es n a m) ∧
      (∀ i : ℕ, i + 1 < n →
        cmpf (element es m' (a + es * i)) (element es m' (a + es * (i + 1))) ≤ 0) ∧
      ∀ x, ¬ (a ≤ x ∧ x < a + es * n) → m' x = m x := by
  obtain ⟨⟨⟩, m', hexec, hsorted, hperm, hout⟩ :=
    wp_exec (wp_qsortAlgo hes (fits_of_bytes (by omega)) hc.orders forkelem a m fuel hfuel)
  exact ⟨m', hexec, hperm, hsorted, hout⟩

/-- The comparison of single bytes. -/
def cmpByte (x y : Fin 1 → UInt8) : ℤ := (x 0).toNat - (y 0).toNat

theorem cmpByte_preorder : TotalPreorder cmpByte := by
  refine ⟨fun x y => ?_, fun x y z => ?_⟩ <;> unfold cmpByte <;> omega

theorem qsort_algo_sorts_bytes : ∃ m',
    exec (onMemory 1 (swaptype 3 (1 : ℕ)) cmpByte) (qsortAlgo (1 : ℕ) (100 : ℕ) 9 3 (8 : ℕ))
      (fun x : ℤ => UInt8.ofNat (7 * x.toNat % 5)) = some ((), m') ∧
    (elements 1 8 3 m').Perm (elements 1 8 3 fun x : ℤ => UInt8.ofNat (7 * x.toNat % 5)) ∧
    (∀ i : ℕ, i + 1 < 8 → cmpByte (element 1 m' (3 + (1 : ℕ) * i))
      (element 1 m' (3 + (1 : ℕ) * (i + 1))) ≤ 0) ∧
    ∀ x : ℤ, ¬ (3 ≤ x ∧ x < 3 + (1 : ℕ) * (8 : ℕ)) → m' x = UInt8.ofNat (7 * x.toNat % 5) :=
  qsort_algo_sorts (n := 8) (Nat.le_refl 1) (by decide) cmpByte_preorder 100 3 _ 9 (by decide)

/-- Whatever the comparison function answers, `qsort_algo` comes to an end, calls for elements of
the array only, and rearranges them; every pass leaves at least one element out of its two parts. -/
theorem qsort_algo_safe (hes : 1 ≤ es) (hmax : n * es ≤ 2 ^ 31 - 1)
    (cmpf : (Fin es → B) → (Fin es → B) → ℤ) (forkelem : ℕ) (a : ℤ) (m : ℤ → B) (fuel : ℕ)
    (hfuel : n < fuel) :
    (∃ m', exec (onMemory es (swaptype a es) cmpf) (qsortAlgo es forkelem fuel a n) m =
        some ((), m') ∧
      (elements es n a m').Perm (elements es n a m) ∧
      ∀ x, ¬ (a ≤ x ∧ x < a + es * n) → m' x = m x) ∧
    (∀ o ∈ calls (onMemory es (swaptype a es) cmpf) (qsortAlgo es forkelem fuel a n) m,
      o.Inside es n a) ∧
    ∀ (i k : ℕ) (m : ℤ → B) (fuel : ℕ), 7 ≤ k → i + k ≤ n → k < fuel →
      ∃ p sorted m', exec (onMemory es (swaptype a es) cmpf) (pass es (a + es * i) k fuel) m =
          some ((p, sorted), m') ∧
        0 ≤ (p.pb - p.pa) / es ∧ 0 ≤ (p.pd - p.pc) / es ∧
        (p.pb - p.pa) / es + (p.pd - p.pc) / es ≤ k - 1 := by
  have hfits : Fits es n := fits_of_bytes (by omega)
  have hrun := wp_qsortAlgo hes hfits (orders_true cmpf) forkelem a m fuel hfuel
  refine ⟨?_, wp_calls hrun, fun i k m fuel hk hik hfuel => ?_⟩
  · obtain ⟨⟨⟩, m', hexec, -, hperm, hout⟩ := wp_exec hrun
    exact ⟨m', hexec, hperm, hout⟩
  · have hspec := pass_spec (a := i) (n := k) (m := view es a m) (orders_true cmpf)
      (show (0 : ℤ) ≤ i by omega) (show (i : ℤ) + k ≤ n by omega) (by omega)
      ((hfits.mono (show k ≤ n by omega)).half_lt hes) fuel (by omega)
    have hsim := sim_pass (b := a) (a := i) hes (by omega) (hfits.mono (show k ≤ n by omega)).half
      fuel
    obtain ⟨⟨p', sorted'⟩, m', hexec, ⟨⟨p, sorted⟩, heq, -, -, -, hnl, hnr, hlt, -⟩, -⟩ :=
      wp_exec (wp_memory hes hfits.elem hsim hspec)
    obtain ⟨rfl, rfl⟩ := Prod.mk.inj heq
    refine ⟨_, _, m', hexec, ?_⟩
    simp only [Ptrs.scale, addr_sub_ediv hes]
    have hless : (p.pb - p.pa) + (p.pd - p.pc) < k := hlt
    exact ⟨hnl, hnr, by omega⟩

/-- A comparison function that is no order: every element is less than every other one. -/
theorem qsort_algo_safe_less : (∃ m',
    exec (onMemory 1 (swaptype 3 (1 : ℕ)) fun _ _ => -1) (qsortAlgo (1 : ℕ) (100 : ℕ) 9 3 (8 : ℕ))
      (fun x => x) = some ((), m') ∧
    (elements 1 8 3 m').Perm (elements 1 8 3 fun x => x) ∧
    ∀ x : ℤ, ¬ (3 ≤ x ∧ x < 3 + (1 : ℕ) * (8 : ℕ)) → m' x = x) ∧
    ∀ o ∈ calls (onMemory 1 (swaptype 3 (1 : ℕ)) fun _ _ => -1)
      (qsortAlgo (1 : ℕ) (100 : ℕ) 9 3 (8 : ℕ)) (fun x => x), o.Inside 1 8 3 := by
  have h := qsort_algo_safe (B := ℤ) (Nat.le_refl 1) (show 8 * 1 ≤ 2 ^ 31 - 1 by decide)
    (fun _ _ => -1) 100 3 (fun x => x) 9 (by decide)
  exact ⟨h.1, h.2.1⟩

end LinuxSummer.Qsort
