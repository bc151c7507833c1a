import LinuxSummer.QsortArray

/-! An array that several workers sort at a time, each of them in a part of its own. -/
namespace LinuxSummer.Qsort
set_option linter.unusedSectionVars false

variable {W E : Type} {le : E → E → Prop} {n a b : ℤ} {active active' : W → Prop}
  {part part' : W → ℤ × ℤ} {m m' : ℤ → E} {i j : W}

/-- Each worker in `active` has the part of the array from `(part i).1` up to `(part i).2`. The parts
are disjoint, and two elements that are not in one part are in order. -/
structure Parts (le : E → E → Prop) (n : ℤ) (active : W → Prop) (part : W → ℤ × ℤ)
    (m : ℤ → E) : Prop where
  bounds : ∀ i, active i → 0 ≤ (part i).1 ∧ (part i).1 ≤ (part i).2 ∧ (part i).2 ≤ n
  disjoint : ∀ i j, active i → active j → i ≠ j →
    (part i).2 ≤ (part j).1 ∨ (part j).2 ≤ (part i).1
  ordered : ∀ x y, 0 ≤ x → x < y → y < n →
    (∀ i, active i → ¬ ((part i).1 ≤ x ∧ y < (part i).2)) → le (m x) (m y)

/-- One worker has the whole array. -/
theorem parts_whole (hn : 0 ≤ n) (hactive : ∀ k, active k ↔ k = i) (hpart : part i = (0, n)) :
    Parts le n active part m := by
  refine ⟨fun k hk => ?_, fun k l hk hl hkl => ?_, fun x y hx hxy hy hno => ?_⟩
  · obtain rfl := (hactive k).mp hk
    rw [hpart]
    exact ⟨Int.le_refl 0, hn, Int.le_refl n⟩
  · exact absurd (((hactive k).mp hk).trans ((hactive l).mp hl).symm) hkl
  · refine absurd ?_ (hno i ((hactive i).mpr rfl))
    rw [hpart]
    exact ⟨hx, hy⟩

/-- A worker that rearranges its part. -/
theorem Parts.work (h : Parts le n active part m) (hi : active i)
    (hs : Shuffle (part i).1 (part i).2 m m') : Parts le n active part m' := by
  refine ⟨h.bounds, h.disjoint, fun x y hx hxy hy hno => ?_⟩
  -- an element of another part, or of none, is to one side of the whole part
  have apart (z : ℤ) (hz : ¬ ((part i).1 ≤ z ∧ z < (part i).2)) (k : W) (hk : active k) (w : ℤ)
      (hw : (part i).1 ≤ w ∧ w < (part i).2) :
      ¬ ((part k).1 ≤ w ∧ z < (part k).2 ∧ w < z) ∧ ¬ ((part k).1 ≤ z ∧ w < (part k).2 ∧ z < w) := by
    by_cases hki : k = i
    · subst hki
      omega
    · have := h.disjoint k i hk hi hki
      omega
  have hbi := h.bounds i hi
  by_cases hxi : (part i).1 ≤ x ∧ x < (part i).2
  · have hyi : ¬ ((part i).1 ≤ y ∧ y < (part i).2) := fun hyi => hno i hi ⟨hxi.1, hyi.2⟩
    rw [hs.outside hyi]
    refine hs.forall (P := fun e => le e (m y)) (fun w hw hw' => ?_) hxi.1 hxi.2
    refine h.ordered w y (by omega) (by omega) hy fun k hk hin => ?_
    exact (apart y hyi k hk w ⟨hw, hw'⟩).1 ⟨hin.1, hin.2, by omega⟩
  · rw [hs.outside hxi]
    by_cases hyi : (part i).1 ≤ y ∧ y < (part i).2
    · refine hs.forall (P := fun e => le (m x) e) (fun w hw hw' => ?_) hyi.1 hyi.2
      refine h.ordered x w hx (by omega) (by omega) fun k hk hin => ?_
      exact (apart x hxi k hk w ⟨hw, hw'⟩).2 ⟨hin.1, hin.2, by omega⟩
    · rw [hs.outside hyi]
      exact h.ordered x y hx hxy hy hno

/-- A worker that hands the elements from `a` up to `b` to another one, when those before them are
at their places. -/
theorem Parts.split (h : Parts le n active part m) (hi : active i) (hj : ¬ active j)
    (ha : (part i).1 ≤ a) (hab : a ≤ b) (hb : b ≤ (part i).2)
    (hm : Parted le (part i).1 a b b (part i).2 m)
    (hactive : ∀ k, active' k ↔ active k ∨ k = j)
    (hnew : part' j = (a, b)) (hold : part' i = (b, (part i).2))
    (hrest : ∀ k, k ≠ i → k ≠ j → part' k = part k) : Parts le n active' part' m := by
  have hbi := h.bounds i hi
  have hij : i ≠ j := fun he => hj (he ▸ hi)
  -- what is new lies within the part that is cut
  have within (k : W) (hk : active' k) : (k = j ∧ part' k = (a, b)) ∨
      (k = i ∧ part' k = (b, (part i).2)) ∨
      (k ≠ i ∧ active k ∧ part' k = part k) := by
    by_cases hkj : k = j
    · exact .inl ⟨hkj, hkj ▸ hnew⟩
    have hka := ((hactive k).mp hk).resolve_right hkj
    by_cases hki : k = i
    · exact .inr (.inl ⟨hki, hki ▸ hold⟩)
    · exact .inr (.inr ⟨hki, hka, hrest k hki hkj⟩)
  refine ⟨fun k hk => ?_, fun k l hk hl hkl => ?_, fun x y hx hxy hy hno => ?_⟩
  · rcases within k hk with ⟨-, hp⟩ | ⟨-, hp⟩ | ⟨-, hka, hp⟩ <;> rw [hp]
    · exact ⟨by simp only; omega, hab, by simp only; omega⟩
    · exact ⟨by simp only; omega, hb, hbi.2.2⟩
    · exact h.bounds k hka
  · have other (v : W) (hv : v ≠ i) (hva : active v) :
        (part v).2 ≤ (part i).1 ∨ (part i).2 ≤ (part v).1 := h.disjoint v i hva hi hv
    rcases within k hk with ⟨hkj, hp⟩ | ⟨hki, hp⟩ | ⟨hki, hka, hp⟩ <;>
      rcases within l hl with ⟨hlj, hq⟩ | ⟨hli, hq⟩ | ⟨hli, hla, hq⟩ <;> simp only [hp, hq]
    · exact absurd (hkj.trans hlj.symm) hkl
    · exact .inl (Int.le_refl b)
    · have := other l hli hla
      omega
    · exact .inr (Int.le_refl b)
    · exact absurd (hki.trans hli.symm) hkl
    · have := other l hli hla
      omega
    · have := other k hki hka
      omega
    · have := other k hki hka
      omega
    · exact h.disjoint k l hka hla hkl
  · by_cases hxy' : (part i).1 ≤ x ∧ y < (part i).2
    · refine hm x y hxy'.1 hxy hxy'.2 (fun hin => ?_) fun hbx => ?_
      · exact hno j ((hactive j).mpr (.inr rfl)) (by rwa [hnew])
      · exact hno i ((hactive i).mpr (.inl hi)) (by rw [hold]; exact ⟨hbx, hxy'.2⟩)
    · refine h.ordered x y hx hxy hy fun k hk hin => ?_
      by_cases hki : k = i
      · exact hxy' (hki ▸ hin)
      · have hkj : k ≠ j := fun he => hj (he ▸ hk)
        exact hno k ((hactive k).mpr (.inl hk)) (by rwa [hrest k hki hkj])

/-- A worker that has sorted its part. -/
theorem Parts.finish (h : Parts le n active part m) (hsorted : Sorted le (part i).1 (part i).2 m)
    (hactive : ∀ k, active' k ↔ active k ∧ k ≠ i) : Parts le n active' part m := by
  refine ⟨fun k hk => h.bounds k ((hactive k).mp hk).1, fun k l hk hl => ?_,
    fun x y hx hxy hy hno => ?_⟩
  · exact h.disjoint k l ((hactive k).mp hk).1 ((hactive l).mp hl).1
  · by_cases hin : (part i).1 ≤ x ∧ y < (part i).2
    · exact hsorted x y hin.1 hxy hin.2
    · refine h.ordered x y hx hxy hy fun k hk => ?_
      by_cases hki : k = i
      · exact hki ▸ hin
      · exact hno k ((hactive k).mpr ⟨hk, hki⟩)

/-- When no worker is left the array is sorted. -/
theorem Parts.sorted (h : Parts le n active part m) (hnone : ∀ k, ¬ active k) : Sorted le 0 n m :=
  fun x y hx hxy hy => h.ordered x y hx hxy hy fun k hk => absurd hk (hnone k)

end LinuxSummer.Qsort
