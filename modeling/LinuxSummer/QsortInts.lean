import Mathlib.Data.Int.ConditionallyCompleteOrder
import Mathlib.Data.Int.Interval
import LinuxSummer.QsortNevermind

/-! The temporaries `d` and `r` of `qsort_algo`: lengths in bytes that are kept in an `int`. -/
namespace LinuxSummer.Qsort
open Prog
set_option linter.unusedSectionVars false

variable {es n : ℕ} {a b lo hi x y z : ℤ}

/-- The elements that the choice of the pivot compares in an array of more than forty. -/
def candidates (es a n : ℤ) : List ℤ :=
  let d := toInt (n / 8 * es)
  let pm := a + n / 2 * es
  let pn := a + (n - 1) * es
  [a, a + d, a + 2 * d, pm - d, pm, pm + d, pn - 2 * d, pn - d, pn]

/-- In the pass over the `n` elements at `a` the temporaries have the values computed for them:
`d`, so that the candidates are elements of the array, and `r` in both exchanges, so that all keys
equal to the pivot come between the others. -/
structure IntsExact (st : ℤ) (es n : ℕ) (cmpf : (Fin es → UInt8) → (Fin es → UInt8) → ℤ) (a : ℤ)
    (m : ℤ → UInt8) (fuel : ℕ) : Prop where
  d_exact : 40 < n → toInt ((n : ℤ) / 8 * es) = (n : ℤ) / 8 * es ∧
    ∀ c ∈ candidates es a n, IsElement es n a c
  r_exact : ∃ p m₁ m₂,
    exec (onMemory es st cmpf) (pivot es a n >>= splitFrom es a n fuel) m = some (p, m₁) ∧
    toInt (min (p.pa - a) (p.pb - p.pa)) = min (p.pa - a) (p.pb - p.pa) ∧
    toInt (min (p.pd - p.pc) (a + n * es - p.pd - es)) =
      min (p.pd - p.pc) (a + n * es - p.pd - es) ∧
    exec (onMemory es st cmpf) (gather es a n p) m₁ = some ((), m₂) ∧
    Partitioned cmpf 0 n ((p.pb - p.pa) / es) ((p.pd - p.pc) / es) (element es m₁ a)
      (view es a m₂)

/-- The pass goes on from there. -/
theorem pass_split (es a n : ℤ) (fuel : ℕ) : pass es a n fuel = (do
    let p ← pivot es a n >>= splitFrom es a n fuel
    gather es a n p
    if p.swapCnt = 0 then do
      let sorted ← insertionSort es a n (some (toInt (1 + n / 4))) fuel fuel p.swapCnt (a + es)
      pure (p, sorted)
    else pure (p, false)) := by
  rw [pass_eq, bind_assoc]
  rfl

/-! ### No length is more than half of the array -/

theorem candidates_inside (hes : 1 ≤ es) (hn : 40 < n) (hmax : (n : ℤ) / 2 * es < 2 ^ 31) :
    toInt ((n : ℤ) / 8 * es) = (n : ℤ) / 8 * es ∧ ∀ c ∈ candidates es a n, IsElement es n a c := by
  have hd : (n : ℤ) / 8 * es < 2 ^ 31 :=
    lt_of_le_of_lt (mul_le_mul_of_nonneg_right (by omega) (by positivity)) hmax
  have hexact := toInt_eq (by positivity) hd
  refine ⟨hexact, ?_⟩
  have hinside : ∀ j c : ℤ, 0 ≤ j → j < n → c = a + es * j → IsElement es n a c := by
    rintro j _ h0 hj rfl
    exact isElement_scale hes ⟨h0, hj⟩
  unfold candidates
  simp only [hexact, List.mem_cons, List.not_mem_nil, or_false]
  rintro c (rfl | rfl | rfl | rfl | rfl | rfl | rfl | rfl | rfl)
  · exact hinside 0 _ (by omega) (by omega) (by ring)
  · exact hinside (n / 8) _ (by omega) (by omega) (by ring)
  · exact hinside (2 * (n / 8)) _ (by omega) (by omega) (by ring)
  · exact hinside (n / 2 - n / 8) _ (by omega) (by omega) (by ring)
  · exact hinside (n / 2) _ (by omega) (by omega) (by ring)
  · exact hinside (n / 2 + n / 8) _ (by omega) (by omega) (by ring)
  · exact hinside (n - 1 - 2 * (n / 8)) _ (by omega) (by omega) (by ring)
  · exact hinside (n - 1 - n / 8) _ (by omega) (by omega) (by ring)
  · exact hinside (n - 1) _ (by omega) (by omega) (by ring)

/-- The smaller one of two neighbouring blocks. -/
theorem toInt_min (hx : 0 ≤ x) (hy : 0 ≤ y) (hxy : x + y ≤ n) (hmax : (n : ℤ) / 2 * es < 2 ^ 31) :
    toInt (min (es * x) (es * y)) = min (es * x) (es * y) := by
  have hes : (0 : ℤ) ≤ es := by positivity
  rw [← mul_min_of_nonneg _ _ hes]
  refine toInt_eq (mul_nonneg hes (by omega)) (lt_of_le_of_lt ?_ hmax)
  rw [mul_comm]
  exact mul_le_mul_of_nonneg_right (by omega) hes

theorem ints_exact_of_half (hes : 1 ≤ es) (hn : 7 ≤ n) (hmax : (n : ℤ) / 2 * es < 2 ^ 31)
    (cmpf : (Fin es → UInt8) → (Fin es → UInt8) → ℤ) (b : ℤ) (m : ℤ → UInt8) (fuel : ℕ)
    (hfuel : n < fuel) : IntsExact (swaptype b es) es n cmpf b m fuel := by
  have helem : 0 < (n : ℤ) → (es : ℤ) < 2 ^ 31 := fun _ =>
    lt_of_le_of_lt (le_mul_of_one_le_left (by omega) (by omega)) hmax
  have hhalf : (n : ℤ) / 2 < 2 ^ 31 :=
    lt_of_le_of_lt (le_mul_of_one_le_right (by omega) (by omega)) hmax
  refine ⟨fun h40 => candidates_inside hes h40 hmax, ?_⟩
  -- up to the end of the partition
  have hsim : Sim (Scaled es b) (fun s s' => s' = Ptrs.scale es b s)
      (pivot 1 0 n >>= splitFrom 1 0 n fuel) (pivot es b n >>= splitFrom es b n fuel) := by
    have hpivot := sim_pivot (b := b) (a := 0) (n := n) fun _ => toInt_eighth (by omega) hmax
    rw [addr_zero] at hpivot
    refine sim_bind hpivot ?_
    rintro pm _ rfl
    have hsplit := sim_splitFrom (b := b) (a := 0) (n := n) hes fuel pm
    rwa [addr_zero] at hsplit
  have hspec : Runs cmpf (fun _ _ => True) 0 n (fun p m' => Bounds 0 (0 + n) p ∧
      (∃ v, Classed cmpf 0 (0 + n) v p m') ∧ p.pb = p.pc + 1)
      (pivot 1 0 n >>= splitFrom 1 0 n fuel) (view es b m) := by
    refine runs_seq (pivot_spec (Int.le_refl 0) (by omega) (by omega) hhalf) ?_
    rintro pm _ ⟨rfl, hpm, -⟩
    refine runs_mono ?_
      (splitFrom_spec (Int.le_refl 0) (by omega) (by omega) fuel (by omega) hpm)
    rintro p m' ⟨-, hb, hcl, hend⟩
    exact ⟨hb, ⟨_, hcl⟩, hend⟩
  obtain ⟨_, m₁, hexec, ⟨p, rfl, -, hb, ⟨v, hcl⟩, hend⟩, -⟩ :=
    wp_exec (wp_memory hes helem hsim hspec)
  -- the two exchanges
  obtain ⟨ha, hpa, hbc, hcd, hd⟩ := hb
  have hgather := sim_gather (b := b) (a := 0) (n := n) (s := p) hes hmax
    ⟨ha, hpa, by omega, by omega, hcd, hd⟩
  rw [addr_zero] at hgather
  have hspec₂ : Runs cmpf (fun _ _ => True) 0 n _ (gather 1 0 n p) (view es b m₁) :=
    gather_spec (Int.le_refl 0) (by omega) hhalf ⟨ha, hpa, hbc, hcd, hd⟩ hend hcl
  obtain ⟨⟨⟩, m₂, hexec₂, ⟨_, -, -, -, hpart⟩, -⟩ := wp_exec (wp_memory hes helem hgather hspec₂)
  have hvalue : element es m₁ b = v := by
    have hpivot : element es m₁ (b + es * 0) = v := hcl.pivot
    rwa [addr_zero] at hpivot
  have hleft : b + es * p.pa - b = es * p.pa := by ring
  have hright : b + n * es - (b + es * p.pd) - es = es * (n - p.pd - 1) := by ring
  refine ⟨p.scale es b, m₁, m₂, hexec, ?_, ?_, hexec₂, ?_⟩
  · simp only [Ptrs.scale, hleft, addr_sub]
    exact toInt_min (by omega) (by omega) (by omega) hmax
  · simp only [Ptrs.scale, hright, addr_sub]
    exact toInt_min (by omega) (by omega) (by omega) hmax
  · simp only [Ptrs.scale, addr_sub_ediv hes, hvalue]
    rwa [zero_add] at hpart

/-! ### An array that needs half of its length -/

variable {m m' : ℤ → UInt8}

def cmpKey (x y : UInt8) : ℤ := x.toNat - y.toNat

theorem med3_high {le : UInt8 → UInt8 → Prop} (hx : lo ≤ x ∧ x < hi) (hy : lo ≤ y ∧ y < hi)
    (hz : lo ≤ z ∧ z < hi) (hmx : m x = 0 ∨ m x = 1) (hmy : m y = 1) (hmz : m z = 1) :
    Runs cmpKey le lo hi (fun r m' => m' = m ∧ (r = x ∨ r = y ∨ r = z) ∧ m r = 1)
      (med3 x y z) m := by
  unfold med3
  refine runs_cmp hx hy ?_
  rw [hmy]
  rcases hmx with hmx | hmx
  · rw [hmx, if_pos (by decide)]
    refine runs_cmp hy hz ?_
    rw [hmy, hmz, if_neg (by decide)]
    refine runs_cmp hx hz ?_
    rw [hmx, hmz, if_pos (by decide)]
    exact runs_ret ⟨rfl, .inr (.inr rfl), hmz⟩
  · rw [hmx, if_neg (by decide)]
    refine runs_cmp hy hz ?_
    rw [hmy, hmz, if_neg (by decide)]
    refine runs_cmp hx hz ?_
    rw [hmx, hmz, if_neg (by decide)]
    exact runs_ret ⟨rfl, .inr (.inr rfl), hmz⟩

/-- The first half of the keys are zero, the others one. -/
def halfOnes (n : ℤ) : ℤ → UInt8 := fun i => if n / 2 ≤ i then 1 else 0

theorem halfOnes_eq (n i : ℤ) : halfOnes n i = 0 ∨ halfOnes n i = 1 := by
  unfold halfOnes
  split_ifs
  · exact .inr rfl
  · exact .inl rfl

theorem pivot_halfOnes {le : UInt8 → UInt8 → Prop} (hn : 7 ≤ n)
    (hd : 40 < n → toInt ((n : ℤ) / 8) = n / 8) :
    Runs cmpKey le 0 n
      (fun (r : ℤ) m' => m' = halfOnes n ∧ (0 ≤ r ∧ r < n) ∧ halfOnes n r = 1)
      (pivot 1 0 n) (halfOnes n) := by
  have hhigh : ∀ i : ℤ, (n : ℤ) / 2 ≤ i → halfOnes n i = 1 := fun i hi => if_pos hi
  unfold pivot
  simp only [mul_one]
  split
  · rw [hd (by omega)]
    refine runs_seq (med3_spec ⟨by omega, by omega⟩ ⟨by omega, by omega⟩ ⟨by omega, by omega⟩) ?_
    rintro pl _ ⟨rfl, hpl⟩
    refine runs_seq (med3_high ⟨by omega, by omega⟩ ⟨by omega, by omega⟩ ⟨by omega, by omega⟩
      (halfOnes_eq n _) (hhigh _ (by omega)) (hhigh _ (by omega))) ?_
    rintro pm _ ⟨rfl, hpm, hpm'⟩
    refine runs_seq (med3_high ⟨by omega, by omega⟩ ⟨by omega, by omega⟩ ⟨by omega, by omega⟩
      (halfOnes_eq n _) (hhigh _ (by omega)) (hhigh _ (by omega))) ?_
    rintro pn _ ⟨rfl, hpn, hpn'⟩
    refine runs_mono ?_ (med3_high ⟨by omega, by omega⟩ ⟨by omega, by omega⟩
      ⟨by omega, by omega⟩ (halfOnes_eq n _) hpm' hpn')
    rintro r _ ⟨rfl, hr, hr'⟩
    exact ⟨rfl, ⟨by omega, by omega⟩, hr'⟩
  · split
    · refine runs_mono ?_ (med3_high ⟨by omega, by omega⟩ ⟨by omega, by omega⟩
        ⟨by omega, by omega⟩ (halfOnes_eq n _) (hhigh _ (by omega)) (hhigh _ (by omega)))
      rintro r _ ⟨rfl, hr, hr'⟩
      exact ⟨rfl, ⟨by omega, by omega⟩, hr'⟩
    · exact runs_ret ⟨rfl, ⟨by omega, by omega⟩, hhigh _ (by omega)⟩

/-- A rearrangement keeps the number of keys of each kind. -/
theorem Shuffle.card {E : Type} {m m' : ℤ → E} (h : Shuffle lo hi m m') (P : E → Prop)
    [DecidablePred P] : ((Finset.Ico lo hi).filter fun x => P (m' x)).card =
      ((Finset.Ico lo hi).filter fun x => P (m x)).card := by
  obtain ⟨σ, hfix, rfl⟩ := h
  refine Finset.card_equiv σ fun x => ?_
  have hin : lo ≤ σ x ∧ σ x < hi ↔ lo ≤ x ∧ x < hi := by
    refine ⟨fun hx => ?_, fun hx => ?_⟩
    · by_contra hout
      rw [hfix x hout] at hx
      exact hout hx
    · by_contra hout
      have := σ.injective (hfix _ hout)
      rw [this] at hout
      exact hout hx
  simp only [Finset.mem_filter, Finset.mem_Ico, Function.comp_apply, hin]

/-- No key is greater than the pivot, so the first loop sees them all. -/
theorem partition_halfOnes {le : UInt8 → UInt8 → Prop} (bound fuel : ℕ) (s : Ptrs)
    (hb : Bounds 0 n s) (hbound : s.pc + 1 - s.pb < bound) (hfuel : 0 < fuel)
    (h : Classed cmpKey 0 n 1 s m) (hle : ∀ x : ℤ, 0 ≤ x → x < n → cmpKey (m x) 1 ≤ 0) :
    Runs cmpKey le 0 n (fun s' m' => Bounds 0 n s' ∧ Classed cmpKey 0 n 1 s' m' ∧
      Shuffle 0 n m m' ∧ s'.pb = s.pc + 1) (partition 1 0 bound fuel s) m := by
  obtain ⟨fuel, rfl⟩ : ∃ f, fuel = f + 1 := ⟨fuel - 1, by omega⟩
  obtain ⟨bound, rfl⟩ : ∃ f, bound = f + 1 := ⟨bound - 1, by have := hb.pb_le; omega⟩
  unfold partition
  refine runs_seq (scanUp_spec (Int.le_refl 0) (Int.le_refl _) _ s m hb hbound h) ?_
  rintro s₁ m₁ ⟨hb₁, hc₁, hs₁, hgt, -, hpc, -⟩
  have hend : ¬ s₁.pb ≤ s₁.pc := fun hpb => by
    have := hs₁.forall (P := fun e => cmpKey e 1 ≤ 0) hle (x := s₁.pb)
      (by have := hb₁.a_lt; have := hb₁.pa_le; omega)
      (by have := hb₁.pc_le; have := hb₁.pd_lt; omega)
    have := hgt hpb
    omega
  have hlast := hb₁.pb_le
  unfold scanDown
  rw [if_neg hend]
  refine runs_seq (Q := fun r m' => r = s₁ ∧ m' = m₁) (runs_ret ⟨rfl, rfl⟩) ?_
  rintro _ _ ⟨rfl, rfl⟩
  rw [if_pos (by omega)]
  exact runs_ret ⟨hb₁, hc₁, hs₁, by omega⟩

/-- The keys equal to the pivot and the less ones are half of the array each. -/
theorem split_halfOnes {le : UInt8 → UInt8 → Prop} (hn : 7 ≤ n)
    (hd : 40 < n → toInt ((n : ℤ) / 8) = (n : ℤ) / 8) (fuel : ℕ) (hfuel : n < fuel) :
    Runs cmpKey le 0 n (fun (p : Ptrs) _ => p.pa = n - (n : ℤ) / 2 ∧ p.pb = n)
      (pivot 1 0 n >>= splitFrom 1 0 n fuel) (halfOnes n) := by
  refine runs_seq (pivot_halfOnes hn hd) ?_
  rintro pm _ ⟨rfl, hpm, hone⟩
  unfold splitFrom
  refine runs_swap ⟨by omega, by omega⟩ hpm ?_
  have hs : Shuffle 0 n (halfOnes n) (halfOnes n ∘ Equiv.swap 0 pm) :=
    shuffle_swap ⟨by omega, by omega⟩ hpm
  have hpivot : (halfOnes n ∘ Equiv.swap 0 pm) 0 = 1 := by rw [swap_at_left, hone]
  generalize halfOnes n ∘ Equiv.swap 0 pm = m₁ at hs hpivot
  have hclass : Classed cmpKey 0 n 1 ⟨0, 0 + 1, 0 + 1, 0 + (n - 1) * 1, 0 + (n - 1) * 1⟩ m₁ := by
    refine ⟨hpivot, fun x hx hx' => ?_, fun x hx hx' => ?_, fun x hx hx' => ?_,
      fun x hx hx' => ?_⟩ <;> simp only at hx hx' <;> omega
  have hle : ∀ x : ℤ, 0 ≤ x → x < n → cmpKey (m₁ x) 1 ≤ 0 := fun x hx hx' =>
    hs.forall (P := fun e => cmpKey e 1 ≤ 0) (fun y _ _ => by
      rcases halfOnes_eq n y with h | h <;> rw [h] <;> decide) hx hx'
  refine runs_mono ?_ (partition_halfOnes fuel fuel _
    ⟨by simp only; omega, by simp only; omega, by simp only; omega, by simp only; omega,
      by simp only; omega⟩ (by simp only; omega) (by omega) hclass hle)
  rintro p m₂ ⟨hb, hcl, hs₂, hpb⟩
  have hend : p.pb = n := by
    simp only at hpb
    omega
  obtain ⟨ha, hpa, -, -, -⟩ := hb
  -- the ones are counted before and after
  have hafter : (Finset.Ico (0 : ℤ) n).filter (fun x => m₂ x = 1) = Finset.Ico 0 p.pa := by
    ext x
    rw [Finset.mem_filter, Finset.mem_Ico, Finset.mem_Ico]
    constructor
    · rintro ⟨⟨hx, hx'⟩, heq⟩
      refine ⟨hx, not_le.mp fun hge => ?_⟩
      have hless := hcl.left_lt x hge (by omega)
      rw [heq] at hless
      exact absurd hless (by decide)
    · rintro ⟨hx, hx'⟩
      refine ⟨⟨hx, by omega⟩, ?_⟩
      rcases eq_or_lt_of_le hx with rfl | hpos
      · exact hcl.pivot
      · have heq := hcl.left_eq x hpos hx'
        unfold cmpKey at heq
        have : (m₂ x).toNat = (1 : UInt8).toNat := by omega
        exact UInt8.toNat_inj.mp this
  have hbefore : (Finset.Ico (0 : ℤ) n).filter (fun x => halfOnes n x = 1) =
      Finset.Ico ((n : ℤ) / 2) n := by
    ext x
    rw [Finset.mem_filter, Finset.mem_Ico, Finset.mem_Ico]
    constructor
    · rintro ⟨⟨hx, hx'⟩, heq⟩
      refine ⟨not_lt.mp fun hlt => ?_, hx'⟩
      rw [halfOnes, if_neg (by omega)] at heq
      exact absurd heq (by decide)
    · rintro ⟨hx, hx'⟩
      exact ⟨⟨by omega, hx'⟩, if_pos hx⟩
  have hcard := (hs.trans hs₂).card (· = 1)
  rw [hafter, hbefore, Int.card_Ico, Int.card_Ico] at hcard
  exact ⟨by omega, hend⟩

/-! ### That array in the memory -/

/-- The first bytes of the elements. -/
def keys (es : ℕ) (b : ℤ) (m : ℤ → UInt8) : ℤ → UInt8 := fun i => m (b + es * i)

/-- The comparison of first bytes. -/
def cmpFirst (hes : 1 ≤ es) (x y : Fin es → UInt8) : ℤ := cmpKey (x ⟨0, hes⟩) (y ⟨0, hes⟩)

theorem cmpFirst_preorder (hes : 1 ≤ es) : TotalPreorder (cmpFirst hes) := by
  refine ⟨fun x y => ?_, fun x y z => ?_⟩ <;> unfold cmpFirst cmpKey <;> omega

/-- Where elements are exchanged byte by byte, the first byte always is, whatever `int` the size of
an element becomes. -/
theorem keys_swap (hes : 1 ≤ es) (x y : ℤ) :
    keys es b (swapMem es 2 m (b + es * x) (b + es * y)) = keys es b m ∘ Equiv.swap x y := by
  set i := (toInt es / 1 - 1).toNat with hi
  have hlen : 1 * ((i : ℤ) + 1) ≤ es := by
    have hle : toInt es ≤ es := by
      have hmod : ((2 ^ 32 : ℕ) : ℤ) = 4294967296 := rfl
      rw [toInt, Int.bmod_def, hmod]
      split_ifs <;> omega
    omega
  have happ : Apart (b + es * x) (b + es * y) (1 * ((i : ℤ) + 1)) := by
    have := apart_scale (b := b) (p := x) (q := y) (k := 1) hes (by unfold Apart; omega)
    unfold Apart at this ⊢
    omega
  have hmem : swapMem es 2 m (b + es * x) (b + es * y) =
      m ∘ blockSwap (b + es * x) (b + es * y) (1 * ((i : ℤ) + 1)) := by
    rw [← swapLoop_eq (by omega) i m _ _ happ, hi, swapMem, if_neg (by decide), swapfunc,
      if_neg (by decide), swapcode]
  rw [hmem]
  funext j
  have hplace : ∀ x : ℤ, b + es * x ≤ b + es * j ∧ b + es * j < b + es * x + 1 * ((i : ℤ) + 1) ↔
      j = x := fun x => by
    have hle := addr_le_iff (b := b) (x := x) (y := j) hes
    have hlt := addr_lt_iff (b := b) (x := j) (y := x + 1) hes
    rw [mul_add] at hlt
    constructor
    · rintro ⟨h, h'⟩
      have := hle.mp h
      have := hlt.mp (by omega)
      omega
    · rintro rfl
      omega
  unfold keys
  rw [Function.comp_apply, Function.comp_apply, blockSwap, Equiv.swap_apply_def]
  simp only [hplace]
  split_ifs with h h'
  · rw [h, sub_self, add_zero]
  · rw [h', sub_self, add_zero]
  · rfl

theorem keys_eq (hes : 1 ≤ es) (i : ℤ) : keys es b m i = view es b m i ⟨0, hes⟩ :=
  congrArg m (add_zero _).symm

theorem swaptype_one : swaptype 1 es = 2 := by
  unfold swaptype
  rw [if_pos (.inl (by decide))]

theorem onMemory_keys {o o' : SortOp} {S : Answer o → Answer o' → Prop}
    {le : UInt8 → UInt8 → Prop} (hes : 1 ≤ es) (hR : Scaled es b o o' S)
    (hpre : (onRange cmpKey le hi).pre o (keys es b m, lo)) :
    let r := onMemory es 2 (cmpFirst hes) o' m
    ∃ r₀, S r₀ r.1 ∧
      (onRange cmpKey le hi).eff o (keys es b m, lo) r₀ (keys es b r.2, lo) := by
  cases hR with
  | cmp p q =>
    refine ⟨_, rfl, ?_, rfl⟩
    simp only [keys_eq hes]
    rfl
  | swap p q => exact ⟨(), trivial, by rw [onMemory, keys_swap hes]; rfl⟩
  | swapfunc p q k =>
    obtain ⟨hk, -, hpq, -⟩ := hpre
    have hmem := swapfunc_eq (m := m) (a := 1) hes hk
      (apart_scale (b := b) hes (show Apart p q k by unfold Apart; omega))
    rw [swaptype_one] at hmem
    refine ⟨(), trivial, Prod.ext ?_ rfl⟩
    change keys es b (swapfunc m (b + es * p) (b + es * q) (es * k) 2) =
      keys es b m ∘ blockSwap p q k
    rw [hmem]
    funext i
    rw [keys_eq hes, view_blockSwap, Function.comp_apply, Function.comp_apply, keys_eq hes]
  | allocate a k => exact ⟨false, rfl, rfl⟩

def halfMemory (es n : ℕ) : ℤ → UInt8 := fun x => if 1 + es * ((n : ℤ) / 2) ≤ x then 1 else 0

theorem keys_halfMemory (hes : 1 ≤ es) : keys es 1 (halfMemory es n) = halfOnes n := by
  funext i
  unfold keys halfMemory halfOnes
  simp only [addr_le_iff hes]

theorem toInt_lt (x : ℤ) : toInt x < 2 ^ 31 := by
  have hmod : ((2 ^ 32 : ℕ) : ℤ) = 4294967296 := rfl
  rw [toInt, Int.bmod_def, hmod]
  split_ifs <;> omega

/-- The smaller block is half of the array. -/
theorem exec_halfMemory (hes : 1 ≤ es) (hn : 7 ≤ n)
    (hd : 40 < n → toInt ((n : ℤ) / 8 * es) = (n : ℤ) / 8 * es) (fuel : ℕ) (hfuel : n < fuel) :
    ∃ p m', exec (onMemory es (swaptype 1 es) (cmpFirst hes))
        (pivot es 1 n >>= splitFrom es 1 n fuel) (halfMemory es n) = some (p, m') ∧
      min (p.pa - 1) (p.pb - p.pa) = (n : ℤ) / 2 * es := by
  have heighth : 40 < n → toInt ((n : ℤ) / 8) = (n : ℤ) / 8 := fun h40 => by
    have hlt := toInt_lt ((n : ℤ) / 8 * es)
    rw [hd h40] at hlt
    have hle : (n : ℤ) / 8 ≤ n / 8 * es := le_mul_of_one_le_right (by omega) (by omega)
    exact toInt_eq (by omega) (by omega)
  have hsim : Sim (Scaled es 1) (fun s s' => s' = Ptrs.scale es 1 s)
      (pivot 1 0 n >>= splitFrom 1 0 n fuel) (pivot es 1 n >>= splitFrom es 1 n fuel) := by
    have hpivot : Sim (Scaled es 1) _ (pivot 1 0 n) _ := sim_pivot fun h40 => by
      rw [hd (by omega), mul_one, heighth (by omega), mul_comm]
    rw [addr_zero] at hpivot
    refine sim_bind hpivot ?_
    rintro pm _ rfl
    have hsplit := sim_splitFrom (b := 1) (a := 0) (n := n) hes fuel pm
    rwa [addr_zero] at hsplit
  have hspec : Runs cmpKey (fun _ _ => True) 0 n _ _ (halfOnes n) :=
    split_halfOnes hn heighth fuel hfuel
  rw [← keys_halfMemory hes] at hspec
  rw [swaptype_one]
  have hwp : Wp (.ofFun (fun _ => True) (onMemory es 2 (cmpFirst hes))) _ _ (halfMemory es n) :=
    wp_sim (J := fun s m' => s = (keys es 1 m', 0)) hsim ?_ rfl hspec
  · obtain ⟨_, m', hexec, p, s, rfl, -, -, hpa, hpb⟩ := wp_exec hwp
    refine ⟨_, m', hexec, ?_⟩
    have hleft : 1 + es * p.pa - 1 = es * p.pa := by ring
    simp only [Ptrs.scale, hleft, addr_sub]
    rw [← mul_min_of_nonneg _ _ (by positivity), mul_comm]
    congr 1
    omega
  · rintro o o' S _ m₁ hR rfl hpre
    refine ⟨trivial, ?_⟩
    rintro r' m₂ ⟨rfl, rfl⟩
    obtain ⟨r, hS, heff⟩ := onMemory_keys hes hR hpre
    exact ⟨r, _, hS, heff, rfl⟩

/-- The temporaries have their values in all passes on all arrays exactly if half of the array
fits in an `int`. -/
theorem ints_exact_iff (hes : 1 ≤ es) :
    (∀ (cmpf : (Fin es → UInt8) → (Fin es → UInt8) → ℤ) (a : ℤ) (m : ℤ → UInt8) (i k fuel : ℕ),
      7 ≤ k → i + k ≤ n → k < fuel →
      IntsExact (swaptype a es) es k cmpf (a + es * i) m fuel) ↔
      n < 7 ∨ n / 2 * es < 2 ^ 31 := by
  constructor
  · intro h
    by_contra hlong
    obtain ⟨hn, hhalf⟩ := not_or.mp hlong
    have hexact := h (cmpFirst hes) 1 (halfMemory es n) 0 n (n + 1) (by omega) (by omega) (by omega)
    rw [Nat.cast_zero, mul_zero, add_zero] at hexact
    obtain ⟨hd, p, m₁, m₂, hexec, hr, -⟩ := hexact
    obtain ⟨p', m', hexec', hmin⟩ :=
      exec_halfMemory hes (by omega) (fun h40 => (hd h40).1) (n + 1) (by omega)
    rw [hexec'] at hexec
    obtain ⟨rfl, -⟩ := Prod.mk.inj (Option.some.inj hexec)
    have hlt := toInt_lt (min (p'.pa - 1) (p'.pb - p'.pa))
    rw [hr, hmin] at hlt
    exact hhalf (by exact_mod_cast hlt)
  · intro h cmpf a m i k fuel hk hik hfuel
    have hhalf : n / 2 * es < 2 ^ 31 := h.resolve_left (by omega)
    have hle : k / 2 * es ≤ n / 2 * es :=
      Nat.mul_le_mul_right es (Nat.div_le_div_right (by omega))
    rw [← swaptype_element i]
    exact ints_exact_of_half hes hk (by exact_mod_cast lt_of_le_of_lt hle hhalf) cmpf _ m fuel hfuel

theorem ints_exact_iff_words :
    (∀ (cmpf : (Fin 4 → UInt8) → (Fin 4 → UInt8) → ℤ) (a : ℤ) (m : ℤ → UInt8) (i k fuel : ℕ),
      7 ≤ k → i + k ≤ 10000000 → k < fuel →
      IntsExact (swaptype a (4 : ℕ)) 4 k cmpf (a + (4 : ℕ) * i) m fuel) ↔
      10000000 < 7 ∨ 10000000 / 2 * 4 < 2 ^ 31 :=
  ints_exact_iff (by decide)

/-- In an array of `2 ^ 32` integers `d` is negative. -/
theorem d_truncated : ¬ ∀ es n : ℕ, 1 ≤ es → n * es ≤ 2 ^ 63 - 1 →
    ∀ (cmpf : (Fin es → UInt8) → (Fin es → UInt8) → ℤ) (a : ℤ) (m : ℤ → UInt8) (i k fuel : ℕ),
      7 ≤ k → i + k ≤ n → k < fuel →
      IntsExact (swaptype a es) es k cmpf (a + es * i) m fuel := by
  intro h
  have hexact := h 4 (2 ^ 32) (by decide) (by decide) (fun _ _ => 0) 0 (fun _ => 0) 0 (2 ^ 32)
    (2 ^ 32 + 1) (by decide) (by decide) (by decide)
  exact absurd (hexact.d_exact (by decide)).1 (by decide)

end LinuxSummer.Qsort
