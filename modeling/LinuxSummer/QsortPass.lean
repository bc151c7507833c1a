import LinuxSummer.QsortPartition

/-! One pass of `qsort_algo` on an array of elements: the pivot, the partition, the keys equal to
the pivot moved to the middle, and the insertion sort that may be abandoned. -/
namespace LinuxSummer.Qsort
open Prog
set_option linter.unusedSectionVars false

variable {E β : Type} {cmpf : E → E → ℤ} {le : E → E → Prop} {lo hi a b n nl nr p q x y z : ℤ}
  {m m' : ℤ → E} {v : E} {s : Ptrs} {R : β → (ℤ → E) → Prop}

/-! ### The pivot -/

theorem toInt_eq (h0 : 0 ≤ x) (h : x < 2 ^ 31) : toInt x = x := by
  unfold toInt
  exact Int.bmod_eq_of_le (by omega) (by omega)

/-- The median is one of the three, and nothing is written. -/
theorem med3_spec (hx : lo ≤ x ∧ x < hi) (hy : lo ≤ y ∧ y < hi) (hz : lo ≤ z ∧ z < hi) :
    Runs cmpf le lo hi (fun r m' => m' = m ∧ (r = x ∨ r = y ∨ r = z)) (med3 x y z) m := by
  unfold med3
  refine runs_cmp hx hy ?_
  split
  · refine runs_cmp hy hz ?_
    split
    · exact runs_ret ⟨rfl, by simp⟩
    · refine runs_cmp hx hz ?_
      split <;> exact runs_ret ⟨rfl, by simp⟩
  · refine runs_cmp hy hz ?_
    split
    · exact runs_ret ⟨rfl, by simp⟩
    · refine runs_cmp hx hz ?_
      split <;> exact runs_ret ⟨rfl, by simp⟩

/-- The pivot is an element of the array, and never the second one. -/
theorem pivot_spec (hlo : lo ≤ a) (hhi : a + n ≤ hi) (hn : 7 ≤ n) (hmax : n / 2 < 2 ^ 31) :
    Runs cmpf le lo hi (fun r m' => m' = m ∧ (a ≤ r ∧ r < a + n) ∧ r ≠ a + 1)
      (pivot 1 a n) m := by
  unfold pivot
  simp only [mul_one]
  split
  · have hd : toInt (n / 8) = n / 8 := toInt_eq (by omega) (by omega)
    rw [hd]
    refine runs_seq (med3_spec ⟨by omega, by omega⟩ ⟨by omega, by omega⟩ ⟨by omega, by omega⟩) ?_
    rintro pl _ ⟨rfl, hpl⟩
    refine runs_seq (med3_spec ⟨by omega, by omega⟩ ⟨by omega, by omega⟩ ⟨by omega, by omega⟩) ?_
    rintro pm _ ⟨rfl, hpm⟩
    refine runs_seq (med3_spec ⟨by omega, by omega⟩ ⟨by omega, by omega⟩ ⟨by omega, by omega⟩) ?_
    rintro pn _ ⟨rfl, hpn⟩
    refine runs_mono ?_
      (med3_spec ⟨by omega, by omega⟩ ⟨by omega, by omega⟩ ⟨by omega, by omega⟩)
    rintro r _ ⟨rfl, hr⟩
    exact ⟨rfl, by omega, by omega⟩
  · split
    · refine runs_mono ?_
        (med3_spec ⟨by omega, by omega⟩ ⟨by omega, by omega⟩ ⟨by omega, by omega⟩)
      rintro r _ ⟨rfl, hr⟩
      exact ⟨rfl, by omega, by omega⟩
    · exact runs_ret ⟨rfl, by omega, by omega⟩

/-! ### The keys equal to the pivot -/

theorem vecswap_spec (hn : 0 ≤ n) (hp : lo ≤ p) (hpq : p + n ≤ q) (hq : q + n ≤ hi) :
    Runs cmpf le lo hi (fun _ m' => m' = m ∘ blockSwap p q n) (vecswap p q n) m := by
  unfold vecswap
  split
  · rename_i hpos
    refine ⟨⟨hpos, hp, hpq, hq⟩, ?_⟩
    rintro ⟨⟩ s rfl
    exact ⟨rfl, rfl⟩
  · refine runs_ret (funext fun x => ?_)
    rw [Function.comp_apply, blockSwap, if_neg (by omega), if_neg (by omega)]

/-- The exchange of the ends of two neighbouring blocks is that of the blocks, but for the order in
them. -/
theorem blocks_exchanged (m : ℤ → E) (P P' : E → Prop) {k l : ℤ} (hl : 0 ≤ l) (hk : 0 ≤ k)
    (hP : ∀ x, p ≤ x → x < p + l → P (m x)) (hP' : ∀ x, p + l ≤ x → x < p + l + k → P' (m x)) :
    let m' := m ∘ blockSwap p (p + l + k - min l k) (min l k)
    (∀ x, p ≤ x → x < p + k → P' (m' x)) ∧ ∀ x, p + k ≤ x → x < p + k + l → P (m' x) := by
  intro m'
  refine ⟨fun x hx hx' => ?_, fun x hx hx' => ?_⟩
  · have hplace : p + l ≤ blockSwap p (p + l + k - min l k) (min l k) x ∧
        blockSwap p (p + l + k - min l k) (min l k) x < p + l + k := by
      unfold blockSwap
      split_ifs <;> omega
    exact hP' _ hplace.1 hplace.2
  · have hplace : p ≤ blockSwap p (p + l + k - min l k) (min l k) x ∧
        blockSwap p (p + l + k - min l k) (min l k) x < p + l := by
      unfold blockSwap
      split_ifs <;> omega
    exact hP _ hplace.1 hplace.2

/-- The array as the pivot parts it: `nl` keys less than the pivot, `nr` greater ones, and at least
one equal key between them. -/
structure Partitioned (cmpf : E → E → ℤ) (a b nl nr : ℤ) (v : E) (m : ℤ → E) : Prop where
  nl_nonneg : 0 ≤ nl
  nr_nonneg : 0 ≤ nr
  some_equal : nl + nr < b - a
  less : ∀ x, a ≤ x → x < a + nl → cmpf (m x) v < 0
  equal : ∀ x, a + nl ≤ x → x < b - nr → m x = v ∨ cmpf (m x) v = 0
  greater : ∀ x, b - nr ≤ x → x < b → 0 < cmpf (m x) v

theorem gather_spec (hlo : lo ≤ a) (hhi : a + n ≤ hi) (hmax : n / 2 < 2 ^ 31)
    (hb : Bounds a (a + n) s) (hend : s.pb = s.pc + 1) (h : Classed cmpf a (a + n) v s m) :
    Runs cmpf le lo hi (fun _ m' => Shuffle a (a + n) m m' ∧
      Partitioned cmpf a (a + n) (s.pb - s.pa) (s.pd - s.pc) v m') (gather 1 a n s) m := by
  obtain ⟨ha, hpa, hbc, hcd, hd⟩ := hb
  have hl : toInt (min (s.pa - a) (s.pb - s.pa)) = min (s.pa - a) (s.pb - s.pa) :=
    toInt_eq (by omega) (by omega)
  have hr : toInt (min (s.pd - s.pc) (a + n - s.pd - 1)) =
      min (s.pd - s.pc) (a + n - s.pd - 1) := toInt_eq (by omega) (by omega)
  unfold gather
  simp only [mul_one, hl, hr]
  refine runs_seq (vecswap_spec (by omega) (by omega) (by omega) (by omega)) ?_
  rintro _ m₁ hm₁
  refine runs_mono ?_ (vecswap_spec (by omega) (by omega) (by omega) (by omega))
  rintro _ m₂ hm₂
  have hs₁ : Shuffle a s.pb m m₁ := by
    rw [hm₁]
    exact shuffle_blockSwap (by omega) (by omega) (by omega)
  have hs₂ : Shuffle s.pb (a + n) m₁ m₂ := by
    rw [hm₂]
    exact shuffle_blockSwap (by omega) (by omega) (by omega)
  -- the left end: the pivot and its equals, then the less keys
  obtain ⟨hless, heq⟩ := blocks_exchanged m (fun e => e = v ∨ cmpf e v = 0)
    (fun e => cmpf e v < 0) (p := a) (l := s.pa - a) (k := s.pb - s.pa) (by omega) (by omega)
    (fun x hx hx' => by
      rcases eq_or_lt_of_le hx with rfl | hxa
      · exact .inl h.pivot
      · exact .inr (h.left_eq x hxa (by omega)))
    fun x hx hx' => h.left_lt x (by omega) (by omega)
  -- the right end: the greater keys, then the equal ones
  obtain ⟨heq', hgreater⟩ := blocks_exchanged m₁ (fun e => 0 < cmpf e v)
    (fun e => cmpf e v = 0) (p := s.pb) (l := s.pd - s.pc) (k := a + n - s.pd - 1)
    (by omega) (by omega)
    (fun x hx hx' => by
      rw [hs₁.outside (by omega)]
      exact h.right_gt x (by omega) (by omega))
    fun x hx hx' => by
      rw [hs₁.outside (by omega)]
      exact h.right_eq x (by omega) (by omega)
  have hq₁ : a + (s.pa - a) + (s.pb - s.pa) = s.pb := by omega
  have hq₂ : s.pb + (s.pd - s.pc) + (a + n - s.pd - 1) = a + n := by omega
  rw [hq₁, ← hm₁] at hless heq
  rw [hq₂, ← hm₂] at heq' hgreater
  refine ⟨(hs₁.mono (Int.le_refl _) (by omega)).trans (hs₂.mono (by omega) (Int.le_refl _)),
    by omega, by omega, by omega, fun x hx hx' => ?_, fun x hx hx' => ?_, fun x hx hx' => ?_⟩
  · rw [hs₂.outside (by omega)]
    exact hless x hx (by omega)
  · by_cases hxb : x < s.pb
    · rw [hs₂.outside (by omega)]
      exact heq x (by omega) (by omega)
    · exact .inr (heq' x (by omega) (by omega))
  · exact hgreater x (by omega) (by omega)

/-! ### The pass -/

theorem Partitioned.parted (hc : Orders cmpf le) (h : Partitioned cmpf a b nl nr v m) :
    Parted le a a (a + nl) (b - nr) b m := by
  obtain ⟨hnl, hnr, hsome, hless, hequal, hgreater⟩ := h
  have hvv : le v v := by
    rcases le_total (cmpf v v) 0 with hv | hv
    · exact hc.of_le v v hv
    · exact hc.of_ge v v hv
  have hbelow : ∀ x, a ≤ x → x < b - nr → le (m x) v := fun x hx hx' => by
    by_cases hxl : x < a + nl
    · exact hc.of_le _ _ (Int.le_of_lt (hless x hx hxl))
    · rcases hequal x (by omega) hx' with heq | heq
      · rwa [heq]
      · exact hc.of_le _ _ (Int.le_of_eq heq)
  have habove : ∀ x, a + nl ≤ x → x < b → le v (m x) := fun x hx hx' => by
    by_cases hxr : x < b - nr
    · rcases hequal x hx hxr with heq | heq
      · rwa [heq]
      · exact hc.of_ge _ _ (Int.le_of_eq heq.symm)
    · exact hc.of_ge _ _ (Int.le_of_lt (hgreater x (by omega) hx'))
  intro x y hx hxy hy hleft hright
  exact hc.trans _ _ _ (hbelow x hx (by omega)) (habove y (by omega) hy)

/-- An abandoned insertion sort leaves the parts as they are: an exchange over the border of two
parts only moves equal keys. -/
theorem kept_parted {c d : ℤ} (hc : Orders cmpf le) :
    Kept cmpf a b (Parted le a a c d b) := by
  intro m pl hlo hhi hcmp h x y hx hxy hy hleft hright
  have hle := hc.of_ge _ _ (Int.le_of_lt hcmp)
  have hh : ∀ x y, a ≤ x → x < y → y < b → c ≤ y → x < d → le (m x) (m y) :=
    fun x y hx hxy hy hyc hxd => h x y hx hxy hy (by omega) (by omega)
  by_cases hxl : x = pl
  · rw [hxl, swap_at_left, swap_at_other (by omega) (by omega)]
    exact hh (pl - 1) y (by omega) (by omega) hy (by omega) (by omega)
  by_cases hxp : x = pl - 1
  · rw [hxp, swap_at_right]
    by_cases hyl : y = pl
    · rwa [hyl, swap_at_left]
    · rw [swap_at_other hyl (by omega)]
      exact hc.trans _ _ _ hle (hh (pl - 1) y (by omega) (by omega) hy (by omega) (by omega))
  rw [swap_at_other hxl hxp]
  by_cases hyl : y = pl
  · rw [hyl, swap_at_left]
    by_cases hpc : c ≤ pl - 1
    · exact hh x (pl - 1) hx (by omega) (by omega) hpc (by omega)
    · exact hc.trans _ _ _ (hh x pl hx (by omega) (by omega) (by omega) (by omega)) hle
  by_cases hyp : y = pl - 1
  · rw [hyp, swap_at_right]
    exact hh x pl hx (by omega) (by omega) (by omega) (by omega)
  · rw [swap_at_other hyl hyp]
    exact h x y hx hxy hy hleft hright

/-- The partition with the pivot at `pm`. -/
def splitFrom (es a n : ℤ) (fuel : ℕ) (pm : ℤ) : SortProg Ptrs := do
  swap a pm
  partition es a fuel fuel ⟨0, a + es, a + es, a + (n - 1) * es, a + (n - 1) * es⟩

/-- What follows the choice of the pivot in a pass. -/
def passFrom (es a n : ℤ) (fuel : ℕ) (pm : ℤ) : SortProg (Ptrs × Bool) := do
  let p ← splitFrom es a n fuel pm
  gather es a n p
  if p.swapCnt = 0 then do
    let sorted ← insertionSort es a n (some (toInt (1 + n / 4))) fuel fuel p.swapCnt (a + es)
    pure (p, sorted)
  else pure (p, false)

theorem pass_eq (es a n : ℤ) (fuel : ℕ) : pass es a n fuel = pivot es a n >>= passFrom es a n fuel :=
  rfl

theorem splitFrom_spec (hlo : lo ≤ a) (hhi : a + n ≤ hi) (hn : 7 ≤ n) (fuel : ℕ) (hfuel : n < fuel)
    {pm : ℤ} (hpm : a ≤ pm ∧ pm < a + n) :
    Runs cmpf le lo hi (fun p m' => Shuffle a (a + n) m m' ∧ Bounds a (a + n) p ∧
      Classed cmpf a (a + n) (m pm) p m' ∧ p.pb = p.pc + 1) (splitFrom 1 a n fuel pm) m := by
  unfold splitFrom
  refine runs_swap ⟨by omega, by omega⟩ ⟨by omega, by omega⟩ ?_
  have hs : Shuffle a (a + n) m (m ∘ Equiv.swap a pm) :=
    shuffle_swap ⟨by omega, by omega⟩ ⟨by omega, by omega⟩
  have hpivot : (m ∘ Equiv.swap a pm) a = m pm := swap_at_left a pm
  generalize m ∘ Equiv.swap a pm = m₁ at hs hpivot
  rw [mul_one]
  have hbounds : Bounds a (a + n) ⟨0, a + 1, a + 1, a + (n - 1), a + (n - 1)⟩ :=
    ⟨by simp only; omega, by simp only; omega, by simp only; omega, by simp only; omega,
      by simp only; omega⟩
  -- nothing is seen yet
  have hclass : Classed cmpf a (a + n) (m pm) ⟨0, a + 1, a + 1, a + (n - 1), a + (n - 1)⟩ m₁ := by
    refine ⟨hpivot, fun x hx hx' => ?_, fun x hx hx' => ?_, fun x hx hx' => ?_,
      fun x hx hx' => ?_⟩ <;> simp only at hx hx' <;> omega
  refine runs_mono ?_ (partition_spec hlo hhi fuel fuel _ m₁ hbounds (by simp only; omega)
    (by simp only; omega) hclass)
  rintro p m₂ ⟨hb, hcl, hs', hend⟩
  exact ⟨hs.trans hs', hb, hcl, hend⟩

/-- A pass with the pivot at `pm` sorts the array or leaves it partitioned; what holds of the
partitioned array and is kept by the exchange of neighbours holds at the end. -/
theorem passFrom_spec (hc : Orders cmpf le) (hlo : lo ≤ a) (hhi : a + n ≤ hi) (hn : 7 ≤ n)
    (hmax : n / 2 < 2 ^ 31) (fuel : ℕ) (hfuel : n < fuel) {pm : ℤ} (hpm : a ≤ pm ∧ pm < a + n)
    {K : ℤ → ℤ → (ℤ → E) → Prop} (hkept : ∀ nl nr, Kept cmpf a (a + n) (K nl nr))
    (hK : ∀ nl nr m', Shuffle a (a + n) m m' → Partitioned cmpf a (a + n) nl nr (m pm) m' →
      K nl nr m') :
    Runs cmpf le lo hi (fun r m' => Shuffle a (a + n) m m' ∧
      (r.2 = true → Sorted le a (a + n) m') ∧ 0 ≤ r.1.pb - r.1.pa ∧ 0 ≤ r.1.pd - r.1.pc ∧
      (r.1.pb - r.1.pa) + (r.1.pd - r.1.pc) < n ∧ K (r.1.pb - r.1.pa) (r.1.pd - r.1.pc) m')
      (passFrom 1 a n fuel pm) m := by
  unfold passFrom
  refine runs_seq (splitFrom_spec hlo hhi hn fuel hfuel hpm) ?_
  rintro p m₁ ⟨hs₁, hb, hcl, hend⟩
  refine runs_seq (gather_spec hlo hhi hmax hb hend hcl) ?_
  rintro _ m₂ ⟨hs₂, hpart⟩
  have hshuffle := hs₁.trans hs₂
  have hholds := hK _ _ m₂ hshuffle hpart
  have hsome : (p.pb - p.pa) + (p.pd - p.pc) < n := by
    have := hpart.some_equal
    omega
  split
  · refine runs_seq (insertionSort_spec hc (hkept _ _) hlo hhi fuel hfuel fuel _ _ m₂
      (by omega) (by omega) (by omega) (fun x y hx hxy hy => by omega) hholds) ?_
    rintro sorted m₃ ⟨hs₃, hholds', hsorted, -⟩
    exact runs_ret ⟨hshuffle.trans hs₃, hsorted, hpart.nl_nonneg, hpart.nr_nonneg, hsome, hholds'⟩
  · exact runs_ret ⟨hshuffle, fun h => by simp at h, hpart.nl_nonneg, hpart.nr_nonneg, hsome,
      hholds⟩

/-- At the end of a pass the array is sorted or parted for the two recursions. -/
theorem pass_spec (hc : Orders cmpf le) (hlo : lo ≤ a) (hhi : a + n ≤ hi) (hn : 7 ≤ n)
    (hmax : n / 2 < 2 ^ 31) (fuel : ℕ) (hfuel : n < fuel) :
    Runs cmpf le lo hi (fun r m' => Shuffle a (a + n) m m' ∧
      (r.2 = true → Sorted le a (a + n) m') ∧ 0 ≤ r.1.pb - r.1.pa ∧ 0 ≤ r.1.pd - r.1.pc ∧
      (r.1.pb - r.1.pa) + (r.1.pd - r.1.pc) < n ∧
      Parted le a a (a + (r.1.pb - r.1.pa)) (a + n - (r.1.pd - r.1.pc)) (a + n) m')
      (pass 1 a n fuel) m := by
  rw [pass_eq]
  refine runs_seq (pivot_spec hlo hhi hn hmax) ?_
  rintro pm m₁ ⟨rfl, hpm, -⟩
  exact passFrom_spec (K := fun nl nr m' => Parted le a a (a + nl) (a + n - nr) (a + n) m')
    hc hlo hhi hn hmax fuel hfuel hpm (fun nl nr => kept_parted hc)
    fun nl nr m' _ h => h.parted hc

end LinuxSummer.Qsort
