import LinuxSummer.QsortSort
import LinuxSummer.QsortParts
import LinuxSummer.PoolModel

/-! What a thread in `qsort_algo` does to its part of the array, call by call. -/
namespace LinuxSummer.Pool
open Prog Qsort
set_option linter.unusedSectionVars false

section Range
variable {E : Type} {cmpf : E → E → ℤ} {le : E → E → Prop} {lo hi : ℤ} {m m' : ℤ → E}
  {t : SortProg Unit}

/-- The elements that a thread does not own do not matter. -/
theorem wp_outside (h : Wp (onRange cmpf le hi) (fun _ s => Sorted le s.2 hi s.1) t (m, lo))
    (hm : ∀ i, lo ≤ i → i < hi → m' i = m i) :
    Wp (onRange cmpf le hi) (fun _ s => Sorted le s.2 hi s.1) t (m', lo) := by
  induction t generalizing m m' lo with
  | ret u =>
    intro i j hi' hij hj
    simp only at hi'
    simp only
    rw [hm i hi' (by omega), hm j (by omega) hj]
    exact h i j hi' hij hj
  | op o k ih =>
    obtain ⟨hpre, hnext⟩ := h
    cases o with
    | cmp p q =>
      refine ⟨hpre, ?_⟩
      rintro r s ⟨rfl, rfl⟩
      have hp : m' p = m p := hm p hpre.1.1 hpre.1.2
      have hq : m' q = m q := hm q hpre.2.1 hpre.2.2
      simp only [hp, hq]
      exact ih _ (hnext _ _ ⟨rfl, rfl⟩) hm
    | swap p q =>
      refine ⟨hpre, ?_⟩
      rintro r s rfl
      refine ih _ (hnext () _ rfl) fun i hi hi' => ?_
      have hshuffle : Shuffle lo _ (fun z : ℤ => z) (Equiv.swap p q) := shuffle_swap hpre.1 hpre.2
      have hrange := hshuffle.forall (P := fun z => lo ≤ z ∧ z < _) (fun z hz hz' => ⟨hz, hz'⟩) hi hi'
      exact hm _ hrange.1 hrange.2
    | swapfunc p q c =>
      refine ⟨hpre, ?_⟩
      rintro r s rfl
      refine ih _ (hnext () _ rfl) fun i hi hi' => ?_
      have hshuffle : Shuffle lo _ (fun z : ℤ => z) (blockSwap p q c) :=
        shuffle_blockSwap hpre.2.1 hpre.2.2.1 hpre.2.2.2
      have hrange := hshuffle.forall (P := fun z => lo ≤ z ∧ z < _) (fun z hz hz' => ⟨hz, hz'⟩) hi hi'
      exact hm _ hrange.1 hrange.2
    | allocate a c =>
      obtain ⟨hc, ha, hhi, hparted⟩ := hpre
      simp only at ha hparted
      refine ⟨⟨hc, ha, hhi, fun i j hi hij hj hin hi' => ?_⟩, ?_⟩
      · simp only at hi ⊢
        rw [hm i hi (by omega), hm j (by omega) hj]
        exact hparted i j hi hij hj hin hi'
      · rintro r s rfl
        refine ih r (hnext r _ rfl) fun i hi hi' => hm i ?_ hi'
        cases r
        · exact hi
        · simp only [cond_true] at hi
          omega
  | stuck => exact h.elim

/-- The address of an element of a part. -/
theorem isElement_part {es : ℕ} {b p : ℤ} (hes : 0 < es) (hp : lo ≤ p ∧ p < hi) :
    IsElement es (hi - lo).toNat (b + es * lo) (b + es * p) := by
  have hscale := isElement_scale (n := (hi - lo).toNat) (b := b + es * lo) (p := p - lo) hes
    ⟨by omega, by omega⟩
  have haddr : b + es * lo + es * (p - lo) = b + es * p := by ring
  rwa [haddr] at hscale

/-- The calls of a thread are for elements of its part. -/
theorem inside_part {es : ℕ} {b : ℤ} {o o' : SortOp} {S : Answer o → Answer o' → Prop}
    (hes : 0 < es) (hR : Scaled es b o o' S) (hpre : (onRange cmpf le hi).pre o (m, lo)) :
    o'.Inside es (hi - lo).toNat (b + es * lo) := by
  cases hR with
  | cmp p q => exact ⟨isElement_part hes hpre.1, isElement_part hes hpre.2⟩
  | swap p q => exact ⟨isElement_part hes hpre.1, isElement_part hes hpre.2⟩
  | swapfunc p q c =>
    obtain ⟨hc, hp, hpq, hq⟩ := hpre
    simp only at hp
    have hmid := (addr_le_iff (b := b) hes).mpr hpq
    have hlast := (addr_le_iff (b := b) hes).mpr hq
    rw [mul_add] at hmid hlast
    have hlen : (((hi - lo).toNat : ℕ) : ℤ) = hi - lo := Int.toNat_of_nonneg (by omega)
    refine ⟨isElement_part hes ⟨by omega, by omega⟩, isElement_part hes ⟨by omega, by omega⟩,
      mul_pos (by exact_mod_cast hes) hc, by omega, ?_⟩
    rw [hlen, mul_sub]
    omega
  | allocate a c => trivial

end Range

variable {B : Type} {x : Args B} {part : ℤ × ℤ} {t : SortProg Unit} {m m' : ℤ → B}

/-- What `qsort_mt` relies on. -/
structure Args.Valid (x : Args B) : Prop where
  es_pos : 1 ≤ x.es
  size : x.n * x.es ≤ 2 ^ 31 - 1
  order : TotalPreorder x.cmp

/-- The order of the elements. -/
def Args.le (x : Args B) (e e' : Fin x.es → B) : Prop := x.cmp e e' ≤ 0

/-- The memory as an array of elements. -/
def Args.array (x : Args B) (m : ℤ → B) : ℤ → Fin x.es → B := view x.es x.a m

/-- `t` sorts the part of the array, but for what it hands out. -/
def Sorts (x : Args B) (part : ℤ × ℤ) (t : SortProg Unit) (m : ℤ → B) : Prop :=
  ∃ t₀ : SortProg Unit, Sim (Scaled x.es x.a) (fun _ _ => True) t₀ t ∧
    Wp (onRange x.cmp x.le part.2) (fun _ s => Sorted x.le s.2 part.2 s.1) t₀ (x.array m, part.1)

theorem Args.Valid.orders (hx : x.Valid) : Orders x.cmp x.le := hx.order.orders

theorem Args.Valid.fits (hx : x.Valid) : Fits x.es x.n := fits_of_bytes (by have := hx.size; omega)

/-- The middle of a part, in elements and in bytes. -/
theorem Args.Valid.half {k : ℤ} (hx : x.Valid) (hk : k ≤ x.n) :
    k / 2 < 2 ^ 31 ∧ k / 2 * x.es < 2 ^ 31 := by
  have hle : k / 2 ≤ (x.n : ℤ) / 2 := by omega
  refine ⟨lt_of_le_of_lt hle (hx.fits.half_lt hx.es_pos), ?_⟩
  exact lt_of_le_of_lt (mul_le_mul_of_nonneg_right hle (Int.natCast_nonneg _)) hx.fits.half

/-- A thread begins with its part. -/
theorem sorts_start (hx : x.Valid) (hlo : 0 ≤ part.1) (hle : part.1 ≤ part.2)
    (hhi : part.2 ≤ x.n) : Sorts x part (qsortAlgo x.es x.forkelem
      ((part.2 - part.1).toNat + 1) (x.a + x.es * part.1) (part.2 - part.1)) m := by
  obtain ⟨lo, hi⟩ := part
  simp only at hlo hle hhi ⊢
  have hhalf := hx.half (k := hi - lo) (by omega)
  refine ⟨_, sim_qsortAlgo hx.es_pos x.forkelem _ lo (hi - lo) hhalf.2, ?_⟩
  have hend : lo + (hi - lo) = hi := by omega
  have hout : Parted x.le lo lo (lo + (hi - lo)) (lo + (hi - lo)) hi (x.array m) :=
    fun i j h₁ h₂ h₃ h₄ h₅ => by omega
  have hspec := qsortAlgo_spec hx.orders (Int.natCast_nonneg x.forkelem) ((hi - lo).toNat + 1) lo
    (hi - lo) lo (x.array m) (by omega) hhalf.1 (by omega) (Int.le_refl lo) (by omega) hout
  refine wp_mono (fun _ s hdone => ?_) hspec
  rw [hend] at hdone
  exact fun i j h₁ h₂ h₃ => hdone.parted i j h₁ h₂ h₃ (by omega) (by omega)

theorem Sorts.ret {u : Unit} (h : Sorts x part (.ret u) m) :
    Sorted x.le part.1 part.2 (x.array m) := by
  obtain ⟨t₀, hsim, hwp⟩ := h
  cases hsim with
  | ret _ => exact hwp

theorem Sorts.not_stuck (h : Sorts x part .stuck m) : False := by
  obtain ⟨t₀, hsim, hwp⟩ := h
  cases hsim
  exact hwp

/-- A comparison or an exchange is for elements of the part and only rearranges it. -/
theorem Sorts.call (hx : x.Valid) (hlo : 0 ≤ part.1) (hhi : part.2 ≤ x.n) {o : SortOp}
    {k : Answer o → SortProg Unit} (h : Sorts x part (.op o k) m) :
    let r := onMemory x.es (swaptype x.a x.es) x.cmp o m
    o.Inside x.es (part.2 - part.1).toNat (x.a + x.es * part.1) ∧ Sorts x part (k r.1) r.2 ∧
      Shuffle part.1 part.2 (x.array m) (x.array r.2) ∧
      ∀ y, ¬ (x.a + x.es * part.1 ≤ y ∧ y < x.a + x.es * part.2) → r.2 y = m y := by
  obtain ⟨lo, hi⟩ := part
  obtain ⟨t₀, hsim, hwp⟩ := h
  cases hsim with
  | @op o₀ _ S k₀ _ hR hk =>
    obtain ⟨hpre, hnext⟩ := hwp
    simp only at hlo hhi
    obtain ⟨⟨r, hS, heff⟩, hframe⟩ :=
      onMemory_view hx.es_pos (fun hpos => hx.fits.elem (by omega)) hlo hR hpre
    refine ⟨inside_part hx.es_pos hR hpre, ⟨k₀ r, hk r _ hS, hnext r _ heff⟩,
      onRange_shuffle hpre heff, hframe⟩

/-- A thread that asks for another one could go on without it, and what it would hand out is a part
of its own, with what lies before it in order. -/
theorem Sorts.allocate {a c : ℤ} {k : Bool → SortProg Unit}
    (h : Sorts x part (.op (.allocate a c) k) m) : ∃ i, a = x.a + x.es * i ∧ 0 < c ∧
      part.1 ≤ i ∧ i + c < part.2 ∧ Parted x.le part.1 i (i + c) (i + c) part.2 (x.array m) ∧
      Sorts x part (k false) m ∧ Sorts x (i + c, part.2) (k true) m := by
  obtain ⟨t₀, hsim, hwp⟩ := h
  cases hsim with
  | @op o₀ _ S k₀ _ hR hk =>
    obtain ⟨hpre, hnext⟩ := hwp
    cases hR with
    | allocate i _ =>
      obtain ⟨hc, hi, hic, hparted⟩ := hpre
      exact ⟨i, rfl, hc, hi, hic, hparted, ⟨_, hk false false rfl, hnext false _ rfl⟩,
        ⟨_, hk true true rfl, hnext true _ rfl⟩⟩

/-- The other parts of the array do not matter. -/
theorem Sorts.agree (h : Sorts x part t m)
    (hm : ∀ i, part.1 ≤ i → i < part.2 → x.array m' i = x.array m i) : Sorts x part t m' := by
  obtain ⟨t₀, hsim, hwp⟩ := h
  exact ⟨t₀, hsim, wp_outside hwp hm⟩

end LinuxSummer.Pool
