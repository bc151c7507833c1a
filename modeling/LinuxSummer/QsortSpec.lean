import LinuxSummer.QsortPass

/-! `qsort_algo` on an array of elements: the recursion, with parts handed out to other threads. -/
namespace LinuxSummer.Qsort
open Prog
set_option linter.unusedSectionVars false

variable {E α β : Type} {cmpf : E → E → ℤ} {le : E → E → Prop} {lo lo' hi a b n nl nr : ℤ}
  {m m' : ℤ → E} {s : (ℤ → E) × ℤ}

/-- What a thread has done when the elements before `b` are sorted: those that it still owns are at
their places, and it has not touched those from `b` on. -/
structure DoneTo (le : E → E → Prop) (lo b hi : ℤ) (m : ℤ → E) (s : (ℤ → E) × ℤ) : Prop where
  lo_le : lo ≤ s.2
  le_end : s.2 ≤ b
  parted : Parted le s.2 b b b hi s.1
  rest : ∀ x, b ≤ x → s.1 x = m x

/-- A rearrangement of a part keeps its place among the others. -/
theorem parted_shuffle (hs : Shuffle a b m m') (hlo : lo ≤ a) (hhi : b ≤ hi)
    (h : Parted le lo a b b hi m) : Parted le lo a b b hi m' := by
  intro x y hx hxy hy hin hx'
  by_cases hya : y < a
  · rw [hs.outside (by omega), hs.outside (by omega)]
    exact h x y hx hxy hy hin hx'
  by_cases hyb : y < b
  · rw [hs.outside (x := x) (by omega)]
    exact hs.forall (P := fun e => le (m x) e) (fun z hz hz' => h x z hx (by omega) (by omega)
      (by omega) hx') (by omega) hyb
  rw [hs.outside (x := y) (by omega)]
  by_cases hxa : x < a
  · rw [hs.outside (by omega)]
    exact h x y hx hxy hy hin hx'
  · exact hs.forall (P := fun e => le e (m y)) (fun z hz hz' => h z y (by omega) (by omega) hy
      (by omega) (by omega)) (by omega) (by omega)

/-- The part from `a` up to `b` is sorted, and nothing of it was handed out. -/
theorem doneTo_sorted (hs : Shuffle a b m m') (hlo : lo ≤ a) (hab : a ≤ b) (hhi : b ≤ hi)
    (h : Parted le lo a b b hi m) (hsorted : Sorted le a b m') : DoneTo le lo b hi m (m', lo) := by
  have hout := parted_shuffle hs hlo hhi h
  refine ⟨Int.le_refl _, by simp only; omega, fun x y hx hxy hy hin hx' => ?_,
    fun x hx => hs.outside (by omega)⟩
  by_cases hxa : a ≤ x ∧ y < b
  · exact hsorted x y hxa.1 hxy hxa.2
  · exact hout x y hx hxy hy hxa hx'

variable {c d : ℤ}

/-- The smaller keys, before the first recursion. -/
theorem parted_left (hcb : c ≤ b) (hcd : c ≤ d) (hin : Parted le a a c d b m)
    (hout : Parted le lo a b b hi m) : Parted le lo a c c hi m := by
  intro x y hx hxy hy hleft hxc
  by_cases hxa : a ≤ x ∧ y < b
  · exact hin x y hxa.1 hxy hxa.2 hleft (by omega)
  · exact hout x y hx hxy hy hxa (by omega)

/-- The greater keys, when the smaller ones are done. -/
theorem DoneTo.parted_right (h : DoneTo le lo c hi m s) (hac : a ≤ c)
    (hin : Parted le a a c d b m) (hout : Parted le lo a b b hi m) :
    Parted le s.2 d b b hi s.1 := by
  intro x y hx hxy hy hright hxb
  by_cases hxc : x < c
  · exact h.parted x y hx hxy hy (by omega) (by omega)
  rw [h.rest x (by omega), h.rest y (by omega)]
  by_cases hyb : y < b
  · exact hin x y (by omega) hxy hyb (by omega) (by omega)
  · exact hout x y (by have := h.lo_le; omega) hxy hy (by omega) hxb

/-- Nothing is left to do on an empty part. -/
theorem doneTo_empty (hlo : lo ≤ b) (h : Parted le lo b b b hi m) : DoneTo le lo b hi m (m, lo) :=
  ⟨Int.le_refl _, hlo, h, fun _ _ => rfl⟩

/-- The part is handed out or is still the thread's own. -/
theorem handOut_spec {forkelem : ℤ} (hfork : 0 ≤ forkelem) (hlo : lo ≤ a) (hhi : a + nl + nr ≤ hi)
    (h : Parted le lo a (a + nl) (a + nl) hi m) :
    Wp (onRange cmpf le hi) (fun r s => s = (m, bif r then a + nl else lo))
      (handOut forkelem a nl nr) (m, lo) := by
  unfold handOut
  split
  · rename_i hboth
    exact ⟨⟨by omega, hlo, by omega, h⟩, fun r s hs => hs⟩
  · exact rfl

/-- `qsort_algo` comes to an end, with the part sorted as far as it was not handed out. -/
theorem qsortAlgo_spec (hc : Orders cmpf le) {forkelem : ℤ} (hfork : 0 ≤ forkelem) (fuel : ℕ)
    (a n lo : ℤ) (m : ℤ → E) (hn : 0 ≤ n) (hmax : n / 2 < 2 ^ 31) (hfuel : n < fuel) (hlo : lo ≤ a)
    (hhi : a + n ≤ hi) (hout : Parted le lo a (a + n) (a + n) hi m) :
    Wp (onRange cmpf le hi) (fun _ s => DoneTo le lo (a + n) hi m s)
      (qsortAlgo 1 forkelem fuel a n) (m, lo) := by
  induction fuel generalizing a n lo m with
  | zero => omega
  | succ fuel ih =>
    unfold qsortAlgo
    split
    · refine wp_seq (insertionSort_spec hc (K := fun _ => True)
        (fun _ _ _ _ _ _ => trivial) hlo hhi (fuel + 1) hfuel (fuel + 1) 0 (a + 1) m (by omega)
        (by omega) (by omega) (fun x y hx hxy hy => by omega) trivial) ?_
      rintro r ⟨m', lo'⟩ ⟨hlo', hs, -, hsorted, hlimit⟩
      obtain rfl : lo' = lo := hlo'
      exact doneTo_sorted hs hlo (by omega) hhi hout (hsorted (hlimit rfl))
    · refine wp_seq (pass_spec hc hlo hhi (by omega) hmax (fuel + 1) hfuel) ?_
      rintro ⟨p, sorted⟩ ⟨m₁, lo₁⟩ ⟨hlo₁, hs, hsorted, hnl, hnr, hlt, hin⟩
      obtain rfl : lo₁ = lo := hlo₁
      simp only [Int.ediv_one, mul_one] at hs hsorted hnl hnr hlt hin ⊢
      split
      · rename_i hyes
        exact doneTo_sorted hs hlo (by omega) hhi hout (hsorted hyes)
      generalize p.pb - p.pa = nl at hnl hlt hin ⊢
      generalize p.pd - p.pc = nr at hnr hlt hin ⊢
      have hout₁ := parted_shuffle hs hlo hhi hout
      have hleft : Parted le lo₁ a (a + nl) (a + nl) hi m₁ :=
        parted_left (by omega) (by omega) hin hout₁
      refine wp_seq (handOut_spec hfork hlo (by omega) hleft) ?_
      rintro handed s rfl
      -- the smaller keys
      refine wp_seq (R := fun _ s => DoneTo le lo₁ (a + nl) hi m₁ s) ?_ ?_
      · unfold when
        cases handed with
        | true =>
          exact ⟨by simp only [cond_true]; omega, Int.le_refl _,
            fun x y hx hxy hy hin hx' => absurd hx hx', fun _ _ => rfl⟩
        | false =>
          by_cases hpos : 0 < nl
          · simp only [Bool.not_false, Bool.true_and, gt_iff_lt, hpos, decide_true, if_true]
            exact ih a nl lo₁ m₁ hnl (by omega) (by omega) hlo (by omega) hleft
          · obtain rfl : nl = 0 := by omega
            simp only [add_zero] at hleft ⊢
            exact doneTo_empty hlo hleft
      rintro _ ⟨m₂, lo₂⟩ hdone
      have hright := hdone.parted_right (by omega) hin hout₁
      have hle₂ := hdone.le_end
      simp only at hright hle₂
      -- the greater keys
      refine wp_mono (Q := fun _ s => DoneTo le lo₂ (a + n) hi m₂ s) (fun _ s h => ?_) ?_
      · refine ⟨le_trans hdone.lo_le h.lo_le, h.le_end, h.parted, fun x hx => ?_⟩
        rw [h.rest x hx, ← hs.outside (by omega)]
        exact hdone.rest x (by omega)
      · unfold when
        by_cases hpos : 0 < nr
        · have hend : a + n - nr + nr = a + n := by omega
          simp only [gt_iff_lt, hpos, decide_true, if_true]
          have := ih (a + n - nr) nr lo₂ m₂ hnr (by omega) (by omega) (by omega) (by omega)
            (by rwa [hend])
          rwa [hend] at this
        · obtain rfl : nr = 0 := by omega
          simp only [sub_zero] at hright
          exact doneTo_empty (by omega) hright

end LinuxSummer.Qsort
