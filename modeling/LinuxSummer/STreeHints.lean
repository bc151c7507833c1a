import LinuxSummer.STreeSet

/-! The hints of an S-tree as the type `short` has them. A call whose hints all fit does what it
does with unbounded ones. -/
set_option linter.unusedSectionVars false

namespace LinuxSummer.STree
open BinaryTree LinkedTree

variable {A K : Type} [DecidableEq A] [LinearOrder K] {t t' : Tree A K} {M : Contents A K}
  {T s x y : BinaryTree A} {n a : A} {c : Ctx A} {cmp : K → K → ℤ} {narrow : ℤ → ℤ} {fuel : ℕ}
  {r : Res A}

/-- One turn of `st_update`, without the rest of the way up: it fails whatever the hints are
converted to, or it stores one hint, at the node it was called for. -/
def Settles (t : Tree A K) (c : Ctx A) (n : A) (l : List A) : Prop :=
  (∀ narrow fuel, stUpdate narrow (fuel + 1) t (some n) = none) ∨
  ∃ t' s m, Holds t' (plug c s) ∧ inorder s = l ∧ t'.heap.hintAt = t.heap.hintAt ∧
    ∀ narrow fuel, stUpdate narrow (fuel + 1) t (some n) =
      settle narrow fuel t' n (t.heap.hintAt n) m (parentOf none c)

theorem settles_lean {d : Side} {z : BinaryTree A} (ht : Holds t (plug c (join d n s z)))
    (hlean : level t.heap s - level t.heap z > 1) :
    Settles t c n (inorder (join d n s z)) := by
  by_cases hs : s = .nil
  · subst hs
    left
    intro narrow fuel
    rw [stUpdate_lean ht hlean, promote_nil ht, Option.bind_none]
  · obtain ⟨l, x, y, rfl⟩ := exists_join d hs
    obtain ⟨t', ht', hd, e⟩ := stUpdate_rotate ht hlean
    exact Or.inr ⟨t', _, _, ht', inorder_rotate, Heap.hintAt_congr hd, e⟩

theorem stUpdate_settles (ht : Holds t (plug c (.node n x y))) :
    Settles t c n (inorder (.node n x y)) := by
  by_cases hle : level t.heap x - level t.heap y < -1
  · exact settles_lean (d := .right) (s := y) (z := x) ht (by omega)
  by_cases hge : level t.heap x - level t.heap y > 1
  · exact settles_lean (d := .left) (s := x) (z := y) ht hge
  · exact Or.inr ⟨t, _, _, ht, rfl, rfl, fun narrow fuel => stUpdate_level ht hle hge⟩

/-- How `settle` ends: here, at the root, or further up. -/
theorem settle_some {prev m : ℤ} : settle narrow fuel t n prev m (parentOf none c) = some t' ↔
    (¬ (narrow m = 0 ∨ narrow m ≠ prev) ∧ t' = t.rehint n (narrow m)) ∨
    ((narrow m = 0 ∨ narrow m ≠ prev) ∧ ((c = [] ∧ 0 < fuel ∧ t' = t.rehint n (narrow m)) ∨
      ∃ f c', c = f :: c' ∧
        stUpdate narrow fuel (t.rehint n (narrow m)) (some f.addr) = some t')) := by
  have hsome (u : Tree A K) : some u = some t' ↔ t' = u :=
    ⟨fun h => (Option.some.inj h).symm, fun h => congrArg some h.symm⟩
  unfold settle
  split
  · rename_i hgo
    simp only [hgo, not_true, false_and, true_and, false_or]
    cases c with
    | nil =>
      cases fuel with
      | zero => simp [stUpdate]
      | succ fuel => simp [parentOf, stUpdate, hsome]
    | cons f c => simp
  · rename_i hstop
    simp only [hstop, not_false_eq_true, true_and, false_and, or_false, hsome]

/-- `st_update` leaves the hints alone that are not on its way up. -/
theorem stUpdate_hintAt (c : Ctx A) (fuel : ℕ) {t t' : Tree A K} {s : BinaryTree A}
    (ht : Holds t (plug c s)) (h : stUpdate narrow fuel t (top s) = some t') (ha : a ∉ addrs c)
    (hs : top s ≠ some a) : t'.heap.hintAt a = t.heap.hintAt a := by
  induction fuel generalizing c t s with
  | zero => cases h
  | succ fuel ih =>
    cases s with
    | nil =>
      cases h
      rfl
    | node n x y =>
      have hna : a ≠ n := fun hna => hs (congrArg some hna.symm)
      rcases stUpdate_settles ht with hfail | ⟨t₁, s₁, m, ht₁, -, hh, e⟩
      · exact absurd ((hfail narrow fuel).symm.trans h) nofun
      have hstore : (t₁.rehint n (narrow m)).heap.hintAt a = t.heap.hintAt a :=
        (Heap.hintAt_rehint_of_ne hna).trans (congrFun hh a)
      rw [top_node, e] at h
      rcases settle_some.mp h with ⟨-, rfl⟩ | ⟨-, ⟨-, -, rfl⟩ | ⟨f, c, rfl, hup⟩⟩
      · exact hstore
      · exact hstore
      · -- the rest of the way up starts at the parent
        have hjoin : Holds (t₁.rehint n (narrow m)) (plug c (join f.dir f.addr s₁ f.sib)) :=
          ht₁.rehint _ _
        simp only [addrs, List.cons_append, List.mem_cons, List.mem_append, not_or] at ha
        rw [← top_join (d := f.dir) (t := s₁) (s := f.sib)] at hup
        refine (ih c hjoin hup ha.2.2 ?_).trans hstore
        rw [top_join]
        exact fun hf => ha.1 (Option.some.inj hf).symm

/-- When the hints that `st_update` stores are what `narrow` leaves as they are, the conversion
makes no difference. -/
theorem stUpdate_fits (c : Ctx A) (fuel : ℕ) {t t' : Tree A K} {s : BinaryTree A}
    (ht : Holds t (plug c s)) (h : stUpdate id fuel t (top s) = some t')
    (hfits : ∀ a ∈ inorder (plug c s), narrow (t'.heap.hintAt a) = t'.heap.hintAt a) :
    stUpdate narrow fuel t (top s) = some t' := by
  induction fuel generalizing c t s with
  | zero => cases h
  | succ fuel ih =>
    cases s with
    | nil => exact h
    | node n x y =>
      rcases stUpdate_settles ht with hfail | ⟨t₁, s₁, m, ht₁, hl, hh, e⟩
      · exact absurd ((hfail id fuel).symm.trans h) nofun
      have hmem : n ∈ inorder s₁ := by simp [hl]
      have hplug : inorder (plug c s₁) = inorder (plug c (.node n x y)) := inorder_plug_congr hl
      have hround : n ∉ addrs c := fun hc =>
        (List.nodup_append.mp (nodup_plug.mp ht₁.nodup)).2.2 n hc n hmem rfl
      obtain ⟨k, hk⟩ := rep_live (rep_plug.mp ht₁.rep).2 hmem
      have hself : (t₁.rehint n m).heap.hintAt n = m := Heap.hintAt_rehint_self hk
      rw [top_node, e] at h ⊢
      have hend := settle_some.mp h
      simp only [id_eq] at hend
      have hjoin (f : Frame A) (c' : Ctx A) (hc : c = f :: c') :
          Holds (t₁.rehint n m) (plug c' (join f.dir f.addr s₁ f.sib)) := by
        subst hc
        exact ht₁.rehint _ _
      -- the hint stored here is still there in the end
      have hlast : t'.heap.hintAt n = m := by
        rcases hend with ⟨-, rfl⟩ | ⟨-, ⟨-, -, rfl⟩ | ⟨f, c', hc, hup⟩⟩
        · exact hself
        · exact hself
        · rw [hc] at hround
          simp only [addrs, List.cons_append, List.mem_cons, List.mem_append, not_or] at hround
          rw [← top_join (d := f.dir) (t := s₁) (s := f.sib)] at hup
          refine (stUpdate_hintAt c' fuel (hjoin f c' hc) hup hround.2.2 ?_).trans hself
          rw [top_join]
          exact fun hf => hround.1 (Option.some.inj hf).symm
      have hm : narrow m = m := by
        have hfit := hfits n (mem_plug.mpr (Or.inr (by simp)))
        rwa [hlast] at hfit
      rw [settle_some, hm]
      rcases hend with hend | ⟨hgo, hend | ⟨f, c', hc, hup⟩⟩
      · exact Or.inl hend
      · exact Or.inr ⟨hgo, Or.inl hend⟩
      · refine Or.inr ⟨hgo, Or.inr ⟨f, c', hc, ?_⟩⟩
        rw [← top_join (d := f.dir) (t := s₁) (s := f.sib)] at hup ⊢
        refine ih c' (hjoin f c' hc) hup ?_
        subst hc
        rw [← hplug] at hfits
        exact hfits

/-- The hints of a tree that are stored as `short` are what they are as `int`. -/
def HintsFit (narrow : ℤ → ℤ) (t : Tree A K) : Prop :=
  ∀ a n, t.heap a = some n → narrow n.hint = n.hint

theorem HintsFit.hintAt (h : HintsFit narrow t) (hn : t.heap a ≠ none) :
    narrow (t.heap.hintAt a) = t.heap.hintAt a := by
  obtain ⟨n, hn⟩ := Option.ne_none_iff_exists'.mp hn
  have hhint : t.heap.hintAt a = n.hint := by simp [Heap.hintAt, Heap.data, hn]
  rw [hhint]
  exact h a n hn

theorem stUpdate_live (ht : Holds t (plug c s)) (h : stUpdate narrow fuel t (top s) = some t')
    (ha : a ∈ inorder (plug c s)) : t'.heap a ≠ none := by
  obtain ⟨k, hk⟩ := rep_live ht.rep ha
  have hkeys : t'.heap.keys = t.heap.keys := by
    rcases stUpdate_run narrow c fuel ht with ⟨t₁, T, e, hu⟩ | ⟨e, -⟩
    · cases e.symm.trans h
      exact hu.keys
    · exact absurd (e.symm.trans h) nofun
  intro hnone
  have hlost := congrFun hkeys a
  obtain ⟨n, hn, -⟩ := Option.map_eq_some_iff.mp hk
  simp [Heap.keys, Heap.data, hnone, hn] at hlost

theorem insert_fits {key : K} {new : A} (hcmp : Agrees cmp) (ht : Stores t T M)
    (hfresh : FreshFor M (.insert key new)) (hfuel : (inorder T).length + 2 ≤ fuel)
    (h : call id cmp fuel t (.insert key new) = some (r, t')) (hfits : HintsFit narrow t') :
    call narrow cmp fuel t (.insert key new) = some (r, t') := by
  obtain ⟨c, s, rfl, hc, ⟨rfl, hM, hfind⟩ | ⟨n, x, y, rfl, hM, hfind⟩⟩ := stFind_place ht hcmp key
  · have hlen := length_ctx_le c (.nil : BinaryTree A)
    obtain ⟨t₁, hT₁, -, -, ⟨-, hexec⟩ | ⟨-, hexec⟩⟩ :=
      stInsert_link _ ht.holds (heap_none ht (hfresh hM)) (hfind fuel (by omega))
    · simp only [call, hexec] at h ⊢
      exact h
    · simp only [call, hexec, Option.map_map] at h ⊢
      obtain ⟨u, hu, hr⟩ := Option.map_eq_some_iff.mp h
      cases hr
      have hsame : stUpdate narrow fuel t₁ (some new) = some u :=
        stUpdate_fits c fuel (s := .node new .nil .nil) hT₁ hu fun a ha =>
          hfits.hintAt (stUpdate_live (s := .node new .nil .nil) hT₁ hu ha)
      rw [hsame]
      rfl
  · have hlen := length_ctx_le c (.node n x y)
    have hcall (narrow : ℤ → ℤ) : stInsert narrow cmp fuel t key new = some (-1, t) := by
      simp [stInsert, hfind fuel (by omega)]
    simp only [call, hcall] at h ⊢
    exact h

theorem remove_fits {key : K} (hcmp : Agrees cmp) (ht : Stores t T M)
    (hfuel : (inorder T).length + 2 ≤ fuel) (h : call id cmp fuel t (.remove key) = some (r, t'))
    (hfits : HintsFit narrow t') : call narrow cmp fuel t (.remove key) = some (r, t') := by
  have hfind : stFind cmp fuel t key = some (M key) := stFind_spec ht hcmp key (by omega)
  obtain ⟨c, s, rfl, hc, ⟨-, hM, -⟩ | ⟨n, x, y, rfl, hM, -⟩⟩ := stFind_place ht hcmp key
  · have hcall (narrow : ℤ → ℤ) : stRemove narrow cmp fuel t key = some (-1, t) := by
      simp [stRemove, hfind, hM]
    simp only [call, hcall] at h ⊢
    exact h
  · obtain ⟨t₁, c₁, s₁, hT₁, horder, -, -, hexec⟩ := stRemoveNode_link ht.holds hfuel
    have hremove (narrow : ℤ → ℤ) : stRemove narrow cmp fuel t key =
        (stUpdate narrow fuel t₁ (top s₁)).bind fun u =>
          (destroyNode u.heap (some n)).map fun h => (0, ⟨u.root, h⟩) := by
      simp [stRemove, hfind, hM, hexec, Option.map_eq_bind, Function.comp_def]
    simp only [call, hremove] at h ⊢
    obtain ⟨⟨z, u'⟩, hu', hr⟩ := Option.map_eq_some_iff.mp h
    obtain ⟨u, hu, hdestroy⟩ := Option.bind_eq_some_iff.mp hu'
    obtain ⟨h', hh', hr'⟩ := Option.map_eq_some_iff.mp hdestroy
    cases hr'
    cases hr
    -- the node removed is not one of those that `st_update` can come to
    have hne {a : A} (ha : a ∈ inorder (plug c₁ s₁)) : a ≠ n := by
      have hperm : (inorder (plug c (.node n x y))).Perm (n :: inorder (plug c₁ s₁)) := by
        rw [horder]
        exact inorder_below (d := .left)
      rintro rfl
      exact (List.nodup_cons.mp (hperm.nodup_iff.mp ht.holds.nodup)).1 ha
    have hother {a : A} (ha : a ∈ inorder (plug c₁ s₁)) : h' a = u.heap a := by
      obtain ⟨nd, -, rfl⟩ := Option.map_eq_some_iff.mp hh'
      exact Function.update_of_ne (hne ha) _ _
    have hsame : stUpdate narrow fuel t₁ (top s₁) = some u :=
      stUpdate_fits c₁ fuel hT₁ hu fun a ha => by
        have hlive : h' a ≠ none := by
          rw [hother ha]
          exact stUpdate_live hT₁ hu ha
        have hfit := hfits.hintAt hlive
        simpa only [Heap.hintAt, Heap.data, hother ha] using hfit
    rw [hsame, Option.bind_some, hh']
    rfl

/-- A call after which all hints fit is the same call with the hints converted. -/
theorem call_fits (hcmp : Agrees cmp) (ht : Stores t T M) (op : Op A K) (hfresh : FreshFor M op)
    (hfuel : (inorder T).length + 2 ≤ fuel) (h : call id cmp fuel t op = some (r, t'))
    (hfits : HintsFit narrow t') : call narrow cmp fuel t op = some (r, t') := by
  cases op with
  | insert key new => exact insert_fits hcmp ht hfresh hfuel h hfits
  | remove key => exact remove_fits hcmp ht hfuel h hfits
  | find key => exact h

end LinuxSummer.STree
