import LinuxSummer.QsortArray

/-! The partition of `qsort_algo` on an array of elements. -/
namespace LinuxSummer.Qsort
open Prog
set_option linter.unusedSectionVars false

variable {E : Type} {cmpf : E → E → ℤ} {le : E → E → Prop} {lo hi a b n x y : ℤ} {m m' : ℤ → E}
  {v : E} {s s' : Ptrs}

/-- The order of the pointers of the partition. -/
structure Bounds (a b : ℤ) (s : Ptrs) : Prop where
  a_lt : a < s.pa
  pa_le : s.pa ≤ s.pb
  pb_le : s.pb ≤ s.pc + 1
  pc_le : s.pc ≤ s.pd
  pd_lt : s.pd < b

/-- The keys seen so far: equal ones at both ends, then the less and the greater ones. -/
structure Classed (cmpf : E → E → ℤ) (a b : ℤ) (v : E) (s : Ptrs) (m : ℤ → E) : Prop where
  pivot : m a = v
  left_eq : ∀ x, a < x → x < s.pa → cmpf (m x) v = 0
  left_lt : ∀ x, s.pa ≤ x → x < s.pb → cmpf (m x) v < 0
  right_gt : ∀ x, s.pc < x → x ≤ s.pd → 0 < cmpf (m x) v
  right_eq : ∀ x, s.pd < x → x < b → cmpf (m x) v = 0

/-- `pb` meets a key equal to the pivot, which goes to the left end. -/
theorem classed_up_eq (hb : Bounds a b s) (hpb : s.pb ≤ s.pc) (h : Classed cmpf a b v s m)
    (hr : cmpf (m s.pb) v = 0) :
    Classed cmpf a b v { s with swapCnt := 1, pa := s.pa + 1, pb := s.pb + 1 }
      (m ∘ Equiv.swap s.pa s.pb) := by
  obtain ⟨ha, hpa, hbc, hcd, hd⟩ := hb
  refine ⟨?_, fun x hx hx' => ?_, fun x hx hx' => ?_, fun x hx hx' => ?_, fun x hx hx' => ?_⟩ <;>
    try simp only at hx hx'
  · rw [swap_at_other (by omega) (by omega)]
    exact h.pivot
  · by_cases hxa : x = s.pa
    · rw [hxa, swap_at_left]
      exact hr
    · rw [swap_at_other hxa (by omega)]
      exact h.left_eq x hx (by omega)
  · by_cases hxb : x = s.pb
    · rw [hxb, swap_at_right]
      exact h.left_lt s.pa (Int.le_refl _) (by omega)
    · rw [swap_at_other (by omega) hxb]
      exact h.left_lt x (by omega) (by omega)
  · rw [swap_at_other (by omega) (by omega)]
    exact h.right_gt x hx hx'
  · rw [swap_at_other (by omega) (by omega)]
    exact h.right_eq x hx hx'

theorem classed_down_eq (hb : Bounds a b s) (hpb : s.pb ≤ s.pc) (h : Classed cmpf a b v s m)
    (hr : cmpf (m s.pc) v = 0) :
    Classed cmpf a b v { s with swapCnt := 1, pd := s.pd - 1, pc := s.pc - 1 }
      (m ∘ Equiv.swap s.pc s.pd) := by
  obtain ⟨ha, hpa, hbc, hcd, hd⟩ := hb
  refine ⟨?_, fun x hx hx' => ?_, fun x hx hx' => ?_, fun x hx hx' => ?_, fun x hx hx' => ?_⟩ <;>
    try simp only at hx hx'
  · rw [swap_at_other (by omega) (by omega)]
    exact h.pivot
  · rw [swap_at_other (by omega) (by omega)]
    exact h.left_eq x hx hx'
  · rw [swap_at_other (by omega) (by omega)]
    exact h.left_lt x hx hx'
  · by_cases hxc : x = s.pc
    · rw [hxc, swap_at_left]
      exact h.right_gt s.pd (by omega) (Int.le_refl _)
    · rw [swap_at_other hxc (by omega)]
      exact h.right_gt x (by omega) (by omega)
  · by_cases hxd : x = s.pd
    · rw [hxd, swap_at_right]
      exact hr
    · rw [swap_at_other (by omega) hxd]
      exact h.right_eq x (by omega) hx'

/-- Both loops have stopped, at a greater and at a less key. -/
theorem classed_cross (hb : Bounds a b s) (hpb : s.pb < s.pc) (h : Classed cmpf a b v s m)
    (hgt : 0 < cmpf (m s.pb) v) (hlt : cmpf (m s.pc) v < 0) :
    Classed cmpf a b v { s with swapCnt := 1, pb := s.pb + 1, pc := s.pc - 1 }
      (m ∘ Equiv.swap s.pb s.pc) := by
  obtain ⟨ha, hpa, hbc, hcd, hd⟩ := hb
  refine ⟨?_, fun x hx hx' => ?_, fun x hx hx' => ?_, fun x hx hx' => ?_, fun x hx hx' => ?_⟩ <;>
    try simp only at hx hx'
  · rw [swap_at_other (by omega) (by omega)]
    exact h.pivot
  · rw [swap_at_other (by omega) (by omega)]
    exact h.left_eq x hx hx'
  · by_cases hxb : x = s.pb
    · rw [hxb, swap_at_left]
      exact hlt
    · rw [swap_at_other hxb (by omega)]
      exact h.left_lt x hx (by omega)
  · by_cases hxc : x = s.pc
    · rw [hxc, swap_at_right]
      exact hgt
    · rw [swap_at_other (by omega) hxc]
      exact h.right_gt x (by omega) hx'
  · rw [swap_at_other (by omega) (by omega)]
    exact h.right_eq x hx hx'

/-- The first loop stops at the end or at a key greater than the pivot. -/
theorem scanUp_spec (hlo : lo ≤ a) (hhi : b ≤ hi) (fuel : ℕ) (s : Ptrs) (m : ℤ → E) (hb : Bounds a b s)
    (hfuel : s.pc + 1 - s.pb < fuel) (h : Classed cmpf a b v s m) :
    Runs cmpf le lo hi (fun s' m' => Bounds a b s' ∧ Classed cmpf a b v s' m' ∧
      Shuffle a b m m' ∧ (s'.pb ≤ s'.pc → 0 < cmpf (m' s'.pb) v) ∧ s.pb ≤ s'.pb ∧ s'.pc = s.pc ∧ s'.pd = s.pd)
      (scanUp 1 a fuel s) m := by
  induction fuel generalizing s m with
  | zero =>
    have := hb.pb_le
    omega
  | succ fuel ih =>
    have hpiv := h.pivot
    have hle := hb.pa_le
    have hlt := hb.a_lt
    have hcd := hb.pc_le
    have hd := hb.pd_lt
    unfold scanUp
    split
    · rename_i hpb
      refine runs_cmp ⟨by omega, by omega⟩ ⟨by omega, by omega⟩ ?_
      rw [hpiv]
      split
      · rename_i hr
        split
        · rename_i hr0
          refine runs_swap ⟨by omega, by omega⟩ ⟨by omega, by omega⟩ ?_
          have hnext : Bounds a b { s with swapCnt := 1, pa := s.pa + 1, pb := s.pb + 1 } :=
            ⟨by simp only; omega, by simp only; omega, by simp only; omega, hcd, hd⟩
          have hshuffle : Shuffle a b m (m ∘ Equiv.swap s.pa s.pb) :=
            shuffle_swap ⟨by omega, by omega⟩ ⟨by omega, by omega⟩
          refine runs_mono (fun s' m' hr => ?_)
            (ih _ _ hnext (by simp only; omega) (classed_up_eq hb hpb h hr0))
          obtain ⟨hb', hc', hs', hgt, hge, hpc⟩ := hr
          exact ⟨hb', hc', hshuffle.trans hs', hgt, by simp only at hge; omega, hpc⟩
        · rename_i hr0
          have hnext : Bounds a b { s with pb := s.pb + 1 } :=
            ⟨hlt, by simp only; omega, by simp only; omega, hcd, hd⟩
          have hclass : Classed cmpf a b v { s with pb := s.pb + 1 } m :=
            ⟨hpiv, h.left_eq, fun x hx hx' => by
              by_cases hxb : x = s.pb
              · rw [hxb]
                omega
              · exact h.left_lt x hx (by simp only at hx'; omega), h.right_gt, h.right_eq⟩
          refine runs_mono (fun s' m' hr => ?_) (ih _ _ hnext (by simp only; omega) hclass)
          obtain ⟨hb', hc', hs', hgt, hge, hpc⟩ := hr
          exact ⟨hb', hc', hs', hgt, by simp only at hge; omega, hpc⟩
      · exact runs_ret ⟨hb, h, .refl _ _ _, fun _ => by omega, Int.le_refl _, rfl, rfl⟩
    · exact runs_ret ⟨hb, h, .refl _ _ _, fun hle => absurd hle ‹_›, Int.le_refl _, rfl, rfl⟩

/-- The second loop stops at the end or at a key less than the pivot. -/
theorem scanDown_spec (hlo : lo ≤ a) (hhi : b ≤ hi) (fuel : ℕ) (s : Ptrs) (m : ℤ → E) (hb : Bounds a b s)
    (hfuel : s.pc + 1 - s.pb < fuel) (h : Classed cmpf a b v s m)
    (hgt : s.pb ≤ s.pc → 0 < cmpf (m s.pb) v) :
    Runs cmpf le lo hi (fun s' m' => Bounds a b s' ∧ Classed cmpf a b v s' m' ∧
      Shuffle a b m m' ∧ (s'.pb ≤ s'.pc → 0 < cmpf (m' s'.pb) v ∧ cmpf (m' s'.pc) v < 0) ∧
      s'.pb = s.pb ∧ s'.pc ≤ s.pc)
      (scanDown 1 a fuel s) m := by
  induction fuel generalizing s m with
  | zero =>
    have := hb.pb_le
    omega
  | succ fuel ih =>
    have hpiv := h.pivot
    have hle := hb.pa_le
    have hlt := hb.a_lt
    have hcd := hb.pc_le
    have hd := hb.pd_lt
    unfold scanDown
    split
    · rename_i hpb
      have hgt' := hgt hpb
      refine runs_cmp ⟨by omega, by omega⟩ ⟨by omega, by omega⟩ ?_
      rw [hpiv]
      split
      · rename_i hr
        split
        · rename_i hr0
          refine runs_swap ⟨by omega, by omega⟩ ⟨by omega, by omega⟩ ?_
          -- the key at `pb` is greater, so it is not the one that moves
          have hne : s.pb ≠ s.pc := fun heq => by
            rw [heq] at hgt'
            omega
          have hnext : Bounds a b { s with swapCnt := 1, pd := s.pd - 1, pc := s.pc - 1 } :=
            ⟨hlt, hle, by simp only; omega, by simp only; omega, by simp only; omega⟩
          have hshuffle : Shuffle a b m (m ∘ Equiv.swap s.pc s.pd) :=
            shuffle_swap ⟨by omega, by omega⟩ ⟨by omega, by omega⟩
          refine runs_mono (fun s' m' hr => ?_) (ih _ _ hnext (by simp only; omega)
            (classed_down_eq hb hpb h hr0) fun _ => ?_)
          · obtain ⟨hb', hc', hs', hboth, hpb', hpc⟩ := hr
            exact ⟨hb', hc', hshuffle.trans hs', hboth, hpb', by simp only at hpc; omega⟩
          · simp only
            rwa [swap_at_other hne (by omega)]
        · rename_i hr0
          have hnext : Bounds a b { s with pc := s.pc - 1 } :=
            ⟨hlt, hle, by simp only; omega, by simp only; omega, hd⟩
          have hclass : Classed cmpf a b v { s with pc := s.pc - 1 } m :=
            ⟨hpiv, h.left_eq, h.left_lt, fun x hx hx' => by
              by_cases hxc : x = s.pc
              · rw [hxc]
                omega
              · exact h.right_gt x (by simp only at hx; omega) hx', h.right_eq⟩
          refine runs_mono (fun s' m' hr => ?_)
            (ih _ _ hnext (by simp only; omega) hclass fun _ => hgt')
          obtain ⟨hb', hc', hs', hboth, hpb', hpc⟩ := hr
          exact ⟨hb', hc', hs', hboth, hpb', by simp only at hpc; omega⟩
      · exact runs_ret ⟨hb, h, .refl _ _ _, fun _ => ⟨hgt', by omega⟩, rfl, Int.le_refl _⟩
    · exact runs_ret ⟨hb, h, .refl _ _ _, fun hle => absurd hle ‹_›, rfl, Int.le_refl _⟩

/-- The partition ends with all keys seen. -/
theorem partition_spec (hlo : lo ≤ a) (hhi : b ≤ hi) (bound fuel : ℕ) (s : Ptrs) (m : ℤ → E) (hb : Bounds a b s)
    (hbound : s.pc + 1 - s.pb < bound) (hfuel : s.pc + 1 - s.pb < fuel)
    (h : Classed cmpf a b v s m) :
    Runs cmpf le lo hi (fun s' m' => Bounds a b s' ∧ Classed cmpf a b v s' m' ∧
      Shuffle a b m m' ∧ s'.pb = s'.pc + 1) (partition 1 a bound fuel s) m := by
  induction fuel generalizing s m with
  | zero =>
    have := hb.pb_le
    omega
  | succ fuel ih =>
    unfold partition
    refine runs_seq (scanUp_spec hlo hhi bound s m hb hbound h) ?_
    rintro s₁ m₁ ⟨hb₁, hc₁, hs₁, hgt₁, hpb₁, hpc₁, -⟩
    refine runs_seq (scanDown_spec hlo hhi bound s₁ m₁ hb₁ (by omega) hc₁ hgt₁) ?_
    rintro s₂ m₂ ⟨hb₂, hc₂, hs₂, hboth, hpb₂, hpc₂⟩
    have hle := hb₂.pb_le
    have hlt := hb₂.a_lt
    have hpa := hb₂.pa_le
    have hcd := hb₂.pc_le
    have hd := hb₂.pd_lt
    split
    · exact runs_ret ⟨hb₂, hc₂, hs₁.trans hs₂, by omega⟩
    · rename_i hcross
      refine runs_swap ⟨by omega, by omega⟩ ⟨by omega, by omega⟩ ?_
      obtain ⟨hgt, hlt'⟩ := hboth (by omega)
      have hne : s₂.pb ≠ s₂.pc := fun heq => by
        rw [heq] at hgt
        omega
      have hnext : Bounds a b { s₂ with swapCnt := 1, pb := s₂.pb + 1, pc := s₂.pc - 1 } :=
        ⟨hlt, by simp only; omega, by simp only; omega, by simp only; omega, hd⟩
      have hshuffle : Shuffle a b m₂ (m₂ ∘ Equiv.swap s₂.pb s₂.pc) :=
        shuffle_swap ⟨by omega, by omega⟩ ⟨by omega, by omega⟩
      refine runs_mono (fun s' m' hr => ?_) (ih _ _ hnext (by simp only; omega) (by simp only; omega)
        (classed_cross hb₂ (by omega) hc₂ hgt hlt'))
      obtain ⟨hb', hc', hs', hend⟩ := hr
      exact ⟨hb', hc', ((hs₁.trans hs₂).trans hshuffle).trans hs', hend⟩

end LinuxSummer.Qsort
