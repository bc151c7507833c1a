import LinuxSummer.QsortBytes

/-! `qsort_algo` on bytes makes the calls of `qsort_algo` on indices, scaled by the size of an
element. -/
namespace LinuxSummer.Qsort
open Prog
set_option linter.unusedSectionVars false

variable {α α' : Type} {es : ℕ} {b a n p q x y z : ℤ} {ρ : α → α' → Prop}

/-- The index `i` is the address `b + es * i`; the length of an exchange is in bytes. -/
inductive Scaled (es : ℕ) (b : ℤ) : (o o' : SortOp) → (Answer o → Answer o' → Prop) → Prop
  | cmp (p q : ℤ) : Scaled es b (.cmp p q) (.cmp (b + es * p) (b + es * q))
      fun (r r' : ℤ) => r = r'
  | swap (p q : ℤ) : Scaled es b (.swap p q) (.swap (b + es * p) (b + es * q)) fun _ _ => True
  | swapfunc (p q n : ℤ) : Scaled es b (.swapfunc p q n)
      (.swapfunc (b + es * p) (b + es * q) (es * n)) fun _ _ => True
  | allocate (a n : ℤ) : Scaled es b (.allocate a n) (.allocate (b + es * a) n)
      fun (r r' : Bool) => r = r'

theorem sim_cmp {f : ℤ → SortProg α} {f' : ℤ → SortProg α'}
    (h : ∀ r, Sim (Scaled es b) ρ (f r) (f' r)) :
    Sim (Scaled es b) ρ (cmp p q >>= f) (cmp (b + es * p) (b + es * q) >>= f') := by
  refine .op (.cmp p q) ?_
  rintro r _ rfl
  exact h r

theorem sim_swap {f : Unit → SortProg α} {f' : Unit → SortProg α'}
    (h : Sim (Scaled es b) ρ (f ()) (f' ())) :
    Sim (Scaled es b) ρ (swap p q >>= f) (swap (b + es * p) (b + es * q) >>= f') :=
  .op (.swap p q) fun _ _ _ => h

theorem sim_if {c c' : Prop} [Decidable c] [Decidable c'] {t u : SortProg α}
    {t' u' : SortProg α'} (hc : c' ↔ c) (ht : c → Sim (Scaled es b) ρ t t')
    (hu : ¬ c → Sim (Scaled es b) ρ u u') :
    Sim (Scaled es b) ρ (if c then t else u) (if c' then t' else u') := by
  by_cases h : c
  · rw [if_pos h, if_pos (hc.mpr h)]
    exact ht h
  · rw [if_neg h, if_neg (hc.not.mpr h)]
    exact hu h

theorem addr_lt_iff (hes : 0 < es) : b + es * x < b + es * y ↔ x < y := by
  have := place_lt_iff (i := x) (j := y) (k := 0) (Int.le_refl 0) (by exact_mod_cast hes)
  omega

theorem addr_le_iff (hes : 0 < es) : b + es * x ≤ b + es * y ↔ x ≤ y := by
  rw [← not_lt, ← not_lt, addr_lt_iff hes]

theorem addr_pred (x : ℤ) : b + es * x - es = b + es * (x - 1) := by ring

theorem addr_succ (x : ℤ) : b + es * x + es = b + es * (x + 1) := by ring

theorem addr_zero : b + es * 0 = b := by ring

theorem addr_sub (x y : ℤ) : b + es * x - (b + es * y) = es * (x - y) := by ring

/-- The number of elements between two addresses. -/
theorem addr_sub_ediv (hes : 0 < es) (x y : ℤ) : (b + es * x - (b + es * y)) / es = x - y := by
  rw [addr_sub, Int.mul_ediv_cancel_left _ (by omega)]

/-! ### The median and the insertion sort -/

theorem sim_med3 : Sim (Scaled es b) (fun r r' => r' = b + es * r) (med3 x y z)
    (med3 (b + es * x) (b + es * y) (b + es * z)) := by
  unfold med3
  refine sim_cmp fun r => sim_if Iff.rfl (fun _ => ?_) fun _ => ?_
  · refine sim_cmp fun r => sim_if Iff.rfl (fun _ => .ret rfl) fun _ => ?_
    exact sim_cmp fun r => sim_if Iff.rfl (fun _ => .ret rfl) fun _ => .ret rfl
  · refine sim_cmp fun r => sim_if Iff.rfl (fun _ => .ret rfl) fun _ => ?_
    exact sim_cmp fun r => sim_if Iff.rfl (fun _ => .ret rfl) fun _ => .ret rfl

theorem sim_insert (hes : 0 < es) (limit : Option ℤ) (fuel : ℕ) (cnt pl : ℤ) :
    Sim (Scaled es b) (fun r r' => r' = r) (insert 1 a limit fuel cnt pl)
      (insert es (b + es * a) limit fuel cnt (b + es * pl)) := by
  induction fuel generalizing cnt pl with
  | zero => exact .stuck
  | succ fuel ih =>
    unfold insert
    rw [addr_pred]
    refine sim_if (addr_lt_iff hes) (fun _ => ?_) fun _ => .ret rfl
    refine sim_cmp fun r => sim_if Iff.rfl (fun _ => ?_) fun _ => .ret rfl
    exact sim_swap (sim_if Iff.rfl (fun _ => .ret rfl) fun _ => ih _ _)

theorem sim_insertionSort (hes : 0 < es) (limit : Option ℤ) (bound fuel : ℕ) (cnt pm : ℤ) :
    Sim (Scaled es b) (fun r r' => r' = r) (insertionSort 1 a n limit bound fuel cnt pm)
      (insertionSort es (b + es * a) n limit bound fuel cnt (b + es * pm)) := by
  induction fuel generalizing cnt pm with
  | zero => exact .stuck
  | succ fuel ih =>
    have hend : b + es * a + n * es = b + es * (a + n * 1) := by ring
    unfold insertionSort
    rw [hend, addr_succ]
    refine sim_if (addr_lt_iff hes) (fun _ => ?_) fun _ => .ret rfl
    refine sim_bind (sim_insert hes limit bound cnt pm) ?_
    rintro (_ | cnt') _ rfl
    · exact .ret rfl
    · exact ih cnt' (pm + 1)

theorem toInt_scale (h0 : 0 ≤ x) (h : x * es < 2 ^ 31) : toInt (es * x) = es * toInt x := by
  rcases Nat.eq_zero_or_pos es with rfl | hes
  · simp [toInt]
  · have hle : x ≤ x * es := le_mul_of_one_le_right h0 (by exact_mod_cast hes)
    have hx : 0 ≤ x * es := by positivity
    rw [mul_comm (es : ℤ) x, toInt_eq hx h, toInt_eq h0 (by omega), mul_comm]

theorem sim_pivot (hd : 40 < n → toInt (n / 8 * es) = es * toInt (n / 8 * 1)) :
    Sim (Scaled es b) (fun r r' => r' = b + es * r) (pivot 1 a n) (pivot es (b + es * a) n) := by
  have hm : b + es * a + n / 2 * es = b + es * (a + n / 2 * 1) := by ring
  have hl : b + es * a + (n - 1) * es = b + es * (a + (n - 1) * 1) := by ring
  have hplus : ∀ x y : ℤ, b + es * x + es * y = b + es * (x + y) := fun x y => by ring
  have hplus2 : ∀ x y : ℤ, b + es * x + 2 * (es * y) = b + es * (x + 2 * y) := fun x y => by ring
  have hminus : ∀ x y : ℤ, b + es * x - es * y = b + es * (x - y) := fun x y => by ring
  have hminus2 : ∀ x y : ℤ, b + es * x - 2 * (es * y) = b + es * (x - 2 * y) := fun x y => by ring
  unfold pivot
  simp only [hm, hl]
  refine sim_if Iff.rfl (fun hlong => ?_) fun _ =>
    sim_if Iff.rfl (fun _ => sim_med3) fun _ => .ret rfl
  simp only [hd hlong, hplus, hplus2, hminus, hminus2]
  refine sim_bind sim_med3 ?_
  rintro pl _ rfl
  refine sim_bind sim_med3 ?_
  rintro pm _ rfl
  refine sim_bind sim_med3 ?_
  rintro pn _ rfl
  exact sim_med3

theorem toInt_eighth (hn : 0 ≤ n) (hmax : n / 2 * es < 2 ^ 31) :
    toInt (n / 8 * es) = es * toInt (n / 8 * 1) := by
  have hsmall : n / 8 * es < 2 ^ 31 :=
    lt_of_le_of_lt (mul_le_mul_of_nonneg_right (by omega) (by positivity)) hmax
  rw [mul_comm, toInt_scale (by omega) hsmall, mul_one]

/-! ### The partition -/

def Ptrs.scale (es : ℕ) (b : ℤ) (s : Ptrs) : Ptrs :=
  ⟨s.swapCnt, b + es * s.pa, b + es * s.pb, b + es * s.pc, b + es * s.pd⟩

theorem sim_scanUp (hes : 0 < es) (fuel : ℕ) (s : Ptrs) :
    Sim (Scaled es b) (fun s s' => s' = s.scale es b) (scanUp 1 a fuel s)
      (scanUp es (b + es * a) fuel (s.scale es b)) := by
  induction fuel generalizing s with
  | zero => exact .stuck
  | succ fuel ih =>
    unfold scanUp
    simp only [Ptrs.scale, addr_succ] at ih ⊢
    refine sim_if (addr_le_iff hes) (fun _ => ?_) fun _ => .ret rfl
    refine sim_cmp fun r => sim_if Iff.rfl (fun _ => ?_) fun _ => .ret rfl
    exact sim_if Iff.rfl (fun _ => sim_swap (ih _)) fun _ => ih _

theorem sim_scanDown (hes : 0 < es) (fuel : ℕ) (s : Ptrs) :
    Sim (Scaled es b) (fun s s' => s' = s.scale es b) (scanDown 1 a fuel s)
      (scanDown es (b + es * a) fuel (s.scale es b)) := by
  induction fuel generalizing s with
  | zero => exact .stuck
  | succ fuel ih =>
    unfold scanDown
    simp only [Ptrs.scale, addr_pred] at ih ⊢
    refine sim_if (addr_le_iff hes) (fun _ => ?_) fun _ => .ret rfl
    refine sim_cmp fun r => sim_if Iff.rfl (fun _ => ?_) fun _ => .ret rfl
    exact sim_if Iff.rfl (fun _ => sim_swap (ih _)) fun _ => ih _

theorem sim_partition (hes : 0 < es) (bound fuel : ℕ) (s : Ptrs) :
    Sim (Scaled es b) (fun s s' => s' = s.scale es b) (partition 1 a bound fuel s)
      (partition es (b + es * a) bound fuel (s.scale es b)) := by
  induction fuel generalizing s with
  | zero => exact .stuck
  | succ fuel ih =>
    unfold partition
    refine sim_bind (sim_scanUp hes bound s) ?_
    rintro s₁ _ rfl
    refine sim_bind (sim_scanDown hes bound s₁) ?_
    rintro s₂ _ rfl
    simp only [Ptrs.scale, addr_pred, addr_succ] at ih ⊢
    exact sim_if (addr_lt_iff hes) (fun _ => .ret rfl) fun _ => sim_swap (ih _)

/-- Where the pointers stay whatever the comparison function answers. -/
structure Within (a c : ℤ) (s : Ptrs) : Prop where
  a_lt : a < s.pa
  pa_le : s.pa ≤ s.pb
  pb_le : s.pb ≤ c
  le_pc : a ≤ s.pc
  pc_le : s.pc ≤ s.pd
  pd_lt : s.pd < c

variable {c : ℤ} {s : Ptrs}

theorem all_cmp {P : α → Prop} {f : ℤ → SortProg α} (h : ∀ r, All P (f r)) :
    All P (cmp p q >>= f) := h

theorem scanUp_within (fuel : ℕ) (s : Ptrs) (h : Within a c s) :
    All (Within a c) (scanUp 1 a fuel s) := by
  induction fuel generalizing s with
  | zero => trivial
  | succ fuel ih =>
    have hnext := h.pa_le
    have hpc := h.pc_le
    have hpd := h.pd_lt
    have ha := h.a_lt
    unfold scanUp
    split
    · refine all_cmp fun r => ?_
      split
      · split
        · exact fun _ => ih _ ⟨by simp only; omega, by simp only; omega, by simp only; omega,
            h.le_pc, hpc, hpd⟩
        · exact ih _ ⟨ha, by simp only; omega, by simp only; omega, h.le_pc, hpc, hpd⟩
      · exact h
    · exact h

theorem scanDown_within (fuel : ℕ) (s : Ptrs) (h : Within a c s) :
    All (Within a c) (scanDown 1 a fuel s) := by
  induction fuel generalizing s with
  | zero => trivial
  | succ fuel ih =>
    have hnext := h.pa_le
    have hpc := h.pc_le
    have hpd := h.pd_lt
    have ha := h.a_lt
    unfold scanDown
    split
    · refine all_cmp fun r => ?_
      split
      · split
        · exact fun _ => ih _ ⟨ha, hnext, h.pb_le, by simp only; omega, by simp only; omega,
            by simp only; omega⟩
        · exact ih _ ⟨ha, hnext, h.pb_le, by simp only; omega, by simp only; omega, hpd⟩
      · exact h
    · exact h

theorem partition_within (bound fuel : ℕ) (s : Ptrs) (h : Within a c s) :
    All (Within a c) (partition 1 a bound fuel s) := by
  induction fuel generalizing s with
  | zero => trivial
  | succ fuel ih =>
    unfold partition
    refine all_bind (scanUp_within bound s h) fun s₁ h₁ => ?_
    refine all_bind (scanDown_within bound s₁ h₁) fun s₂ h₂ => ?_
    obtain ⟨ha, hpa, hpb, hlpc, hpc, hpd⟩ := h₂
    split
    · exact ⟨ha, hpa, hpb, hlpc, hpc, hpd⟩
    · exact fun _ => ih _ ⟨ha, by simp only; omega, by simp only; omega, by simp only; omega,
        by simp only; omega, hpd⟩

theorem sim_vecswap (hes : 0 < es) :
    Sim (Scaled es b) (fun _ _ => True) (vecswap p q n)
      (vecswap (b + es * p) (b + es * q) (es * n)) := by
  have hpos : es * n > 0 ↔ n > 0 := mul_pos_iff_of_pos_left (by exact_mod_cast hes)
  unfold vecswap
  exact sim_if hpos (fun _ => .op (.swapfunc p q n) fun _ _ _ => .ret trivial) fun _ => .ret trivial

theorem sim_gather (hes : 0 < es) (hmax : n / 2 * es < 2 ^ 31) (h : Within a (a + n) s) :
    Sim (Scaled es b) (fun _ _ => True) (gather 1 a n s)
      (gather es (b + es * a) n (s.scale es b)) := by
  obtain ⟨ha, hpa, hpb, hlpc, hpc, hpd⟩ := h
  have hes' : (0 : ℤ) ≤ es := by positivity
  have hsmall : ∀ x, x ≤ n / 2 → x * es < 2 ^ 31 := fun x hx =>
    lt_of_le_of_lt (mul_le_mul_of_nonneg_right hx hes') hmax
  have hl : toInt (min (b + es * s.pa - (b + es * a)) (b + es * s.pb - (b + es * s.pa))) =
      es * toInt (min (s.pa - a) (s.pb - s.pa)) := by
    rw [← toInt_scale (by omega) (hsmall _ (by omega)), mul_min_of_nonneg _ _ hes']
    congr 2 <;> ring
  have hr : toInt (min (b + es * s.pd - (b + es * s.pc))
      (b + es * a + n * es - (b + es * s.pd) - es)) =
      es * toInt (min (s.pd - s.pc) (a + n * 1 - s.pd - 1)) := by
    rw [← toInt_scale (by omega) (hsmall _ (by omega)), mul_min_of_nonneg _ _ hes']
    congr 2 <;> ring
  have hend : b + es * a + n * es = b + es * (a + n * 1) := by ring
  have hminus : ∀ x y : ℤ, b + es * x - es * y = b + es * (x - y) := fun x y => by ring
  unfold gather
  simp only [Ptrs.scale, hl, hr]
  simp only [hend, hminus]
  exact sim_bind (sim_vecswap hes) fun _ _ _ => sim_vecswap hes

/-! ### The recursion -/

theorem within_start (hn : 7 ≤ n) :
    Within a (a + n) ⟨0, a + 1, a + 1, a + (n - 1) * 1, a + (n - 1) * 1⟩ :=
  ⟨by simp only; omega, by simp only; omega, by simp only; omega, by simp only; omega,
    by simp only; omega, by simp only; omega⟩

theorem pass_within (hn : 7 ≤ n) (fuel : ℕ) :
    All (fun r : Ptrs × Bool => Within a (a + n) r.1) (pass 1 a n fuel) := by
  have hany : ∀ {α : Type} (t : SortProg α), All (fun _ => True) t := fun t => by
    induction t with
    | ret x => trivial
    | op o k ih => exact ih
    | stuck => trivial
  unfold pass
  refine all_bind (hany _) fun pm _ => all_bind (hany _) fun _ _ => ?_
  refine all_bind (partition_within fuel fuel _ (within_start hn)) fun s hs => ?_
  refine all_bind (hany _) fun _ _ => ?_
  split
  · exact all_bind (hany _) fun _ _ => hs
  · exact hs

theorem sim_splitFrom (hes : 0 < es) (fuel : ℕ) (pm : ℤ) :
    Sim (Scaled es b) (fun s s' => s' = s.scale es b) (splitFrom 1 a n fuel pm)
      (splitFrom es (b + es * a) n fuel (b + es * pm)) := by
  have hstart : (⟨0, b + es * a + es, b + es * a + es, b + es * a + (n - 1) * es,
      b + es * a + (n - 1) * es⟩ : Ptrs) =
      Ptrs.scale es b ⟨0, a + 1, a + 1, a + (n - 1) * 1, a + (n - 1) * 1⟩ := by
    simp only [Ptrs.scale, Ptrs.mk.injEq, true_and]
    refine ⟨?_, ?_, ?_, ?_⟩ <;> ring
  unfold splitFrom
  rw [hstart]
  exact sim_swap (sim_partition hes fuel fuel _)

theorem sim_passFrom (hes : 0 < es) (hn : 7 ≤ n) (hmax : n / 2 * es < 2 ^ 31) (fuel : ℕ) (pm : ℤ) :
    Sim (Scaled es b) (fun r r' => r' = (r.1.scale es b, r.2)) (passFrom 1 a n fuel pm)
      (passFrom es (b + es * a) n fuel (b + es * pm)) := by
  unfold passFrom
  refine sim_bind_all (sim_splitFrom hes fuel pm)
    (fun _ => partition_within fuel fuel _ (within_start hn)) ?_
  rintro s _ rfl hs
  refine sim_bind (sim_gather hes hmax hs) fun _ _ _ => ?_
  refine sim_if Iff.rfl (fun _ => ?_) fun _ => .ret rfl
  rw [addr_succ]
  refine sim_bind (sim_insertionSort hes _ fuel fuel _ _) ?_
  rintro sorted _ rfl
  exact .ret rfl

theorem sim_pass (hes : 0 < es) (hn : 7 ≤ n) (hmax : n / 2 * es < 2 ^ 31) (fuel : ℕ) :
    Sim (Scaled es b) (fun r r' => r' = (r.1.scale es b, r.2)) (pass 1 a n fuel)
      (pass es (b + es * a) n fuel) := by
  rw [pass_eq, pass_eq]
  refine sim_bind (sim_pivot fun _ => toInt_eighth (by omega) hmax) ?_
  rintro pm _ rfl
  exact sim_passFrom hes hn hmax fuel pm

theorem sim_when {c : Bool} {t t' : SortProg Unit}
    (h : c = true → Sim (Scaled es b) (fun _ _ => True) t t') :
    Sim (Scaled es b) (fun _ _ => True) (when c t) (when c t') :=
  sim_if Iff.rfl h fun _ => .ret trivial

theorem sim_handOut {forkelem nl nr : ℤ} :
    Sim (Scaled es b) (fun r r' => r' = r) (handOut forkelem a nl nr)
      (handOut forkelem (b + es * a) nl nr) := by
  unfold handOut
  refine sim_if Iff.rfl (fun _ => .op (.allocate a nl) ?_) fun _ => .ret rfl
  rintro r _ rfl
  exact .ret rfl

/-- The two programs call alike. -/
theorem sim_qsortAlgo (hes : 0 < es) (forkelem : ℤ) (fuel : ℕ) (a n : ℤ)
    (hmax : n / 2 * es < 2 ^ 31) :
    Sim (Scaled es b) (fun _ _ => True) (qsortAlgo 1 forkelem fuel a n)
      (qsortAlgo es forkelem fuel (b + es * a) n) := by
  induction fuel generalizing a n with
  | zero => exact .stuck
  | succ fuel ih =>
    unfold qsortAlgo
    refine sim_if Iff.rfl (fun _ => ?_) fun hn => ?_
    · rw [addr_succ]
      exact sim_bind (sim_insertionSort hes _ _ _ _ _) fun _ _ _ => .ret trivial
    refine sim_bind_all (sim_pass hes (by omega) hmax _) (pass_within (by omega) _) ?_
    rintro ⟨s, sorted⟩ _ rfl ⟨ha, hpa, hpb, hlpc, hpc, hpd⟩
    simp only at ha hpa hpb hlpc hpc hpd
    refine sim_if Iff.rfl (fun _ => .ret trivial) fun _ => ?_
    have hend : ∀ y, b + es * a + n * es - y * es = b + es * (a + n * 1 - y * 1) := fun y => by
      ring
    have hless : ∀ x, x ≤ n → x / 2 * es < 2 ^ 31 := fun x hx =>
      lt_of_le_of_lt (mul_le_mul_of_nonneg_right (by omega) (by positivity)) hmax
    simp only [Ptrs.scale, addr_sub_ediv hes, Int.ediv_one, hend]
    refine sim_bind sim_handOut ?_
    rintro handed _ rfl
    refine sim_bind (sim_when fun _ => ih a _ (hless _ (by omega))) fun _ _ _ => ?_
    exact sim_when fun _ => ih _ _ (hless _ (by omega))

end LinuxSummer.Qsort
