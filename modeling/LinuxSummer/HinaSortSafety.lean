import LinuxSummer.HinaSort
import LinuxSummer.PoolSteps
import LinuxSummer.QsortNums

/-! The array of hw3/work-steal-qsort/src/main.c is sorted when `hina_exit` goes on from its loop,
whatever the order of the steps of the threads is. -/
set_option linter.unusedSectionVars false

namespace LinuxSummer.HinaSort
open WorkLoop Qsort Pool

variable {n : ℕ} {B C : Type} {s s' : St n B} {g g' : Shared n B} {th : Who n → Pc}
  {t u : Who n} {pc pc' : Pc} {v w : ℕ} {D : Deque ℕ C} {x : Input B} {m₀ : ℤ → B} {c : C}

/-- The sort with another comparison function, as the threads of hw1/qsort-mt.c do it. -/
def Input.args (x : Input B) (cmp : (Fin x.es → B) → (Fin x.es → B) → ℤ) : Args B :=
  ⟨x.a, x.n, x.es, cmp, 0, forkelem, id⟩

/-- The comparison function agrees with a total preorder on the elements of the array. -/
structure Input.Valid (x : Input B) (order : (Fin x.es → B) → (Fin x.es → B) → ℤ)
    (m₀ : ℤ → B) : Prop where
  es_pos : 1 ≤ x.es
  size : x.n * x.es ≤ 2 ^ 31 - 1
  total : TotalPreorder order
  agrees : ∀ i j : ℤ, 0 ≤ i → i < x.n → 0 ≤ j → j < x.n →
    x.cmp (view x.es x.a m₀ i) (view x.es x.a m₀ j) =
      order (view x.es x.a m₀ i) (view x.es x.a m₀ j)

variable {order : (Fin x.es → B) → (Fin x.es → B) → ℤ}

theorem Input.Valid.args (hx : x.Valid order m₀) : (x.args order).Valid :=
  ⟨hx.es_pos, hx.size, hx.total⟩

/-- The array in the order that it has at some time. -/
structure Shuffled (x : Input B) (m₀ m : ℤ → B) : Prop where
  shuffle : Shuffle 0 x.n (view x.es x.a m₀) (view x.es x.a m)
  frame : ∀ y, ¬ (x.a ≤ y ∧ y < x.a + x.es * x.n) → m y = m₀ y

/-- On the elements of the array the answers of the comparison function are those of the order. -/
theorem Input.Valid.agrees_on (hx : x.Valid order m₀) {m : ℤ → B} (hm : Shuffled x m₀ m) {i j : ℤ}
    (hi : 0 ≤ i ∧ i < x.n) (hj : 0 ≤ j ∧ j < x.n) :
    x.cmp (view x.es x.a m i) (view x.es x.a m j) =
      order (view x.es x.a m i) (view x.es x.a m j) := by
  have hpair : ∀ z : ℤ, 0 ≤ z → z < x.n → ∀ y : ℤ, 0 ≤ y → y < x.n →
      x.cmp (view x.es x.a m₀ z) (view x.es x.a m y) =
        order (view x.es x.a m₀ z) (view x.es x.a m y) := by
    intro z hz hz' y hy hy'
    refine hm.shuffle.forall (P := fun e => x.cmp (view x.es x.a m₀ z) e =
      order (view x.es x.a m₀ z) e) ?_ hy hy'
    exact fun y hy hy' => hx.agrees z y hz hz' hy hy'
  refine hm.shuffle.forall (P := fun e => x.cmp e (view x.es x.a m j) =
    order e (view x.es x.a m j)) ?_ hi.1 hi.2
  exact fun z hz hz' => hpair z hz hz' j hj.1 hj.2

/-- An element of the array. -/
theorem element_of_isElement {es n : ℕ} {a p : ℤ} (hes : 1 ≤ es) (hp : IsElement es n a p) :
    ∃ i : ℤ, (0 ≤ i ∧ i < n) ∧ p = a + es * i := by
  obtain ⟨hlo, hhi, hmod⟩ := hp
  obtain ⟨i, hi⟩ := Int.dvd_of_emod_eq_zero hmod
  have hpi : p = a + es * i := by omega
  refine ⟨i, ⟨?_, ?_⟩, hpi⟩
  · by_contra hneg
    have hle : (es : ℤ) * i ≤ es * (-1) := mul_le_mul_of_nonneg_left (by omega) (by omega)
    omega
  · have hlt : (es : ℤ) * i < es * n := by omega
    exact lt_of_mul_lt_mul_left hlt (by omega)

/-- A call of a thread does the same with the order in place of the comparison function. -/
theorem Input.Valid.onMemory_eq (hx : x.Valid order m₀) {m : ℤ → B} (hm : Shuffled x m₀ m)
    {o : SortOp} {part : ℤ × ℤ} (hlo : 0 ≤ part.1) (hhi : part.2 ≤ x.n)
    (ho : o.Inside x.es (part.2 - part.1).toNat (x.a + x.es * part.1)) (st : ℤ) :
    onMemory x.es st x.cmp o m = onMemory x.es st order o m := by
  cases o with
  | cmp p q =>
    obtain ⟨i, hi, rfl⟩ := element_of_isElement hx.es_pos ho.1
    obtain ⟨j, hj, rfl⟩ := element_of_isElement hx.es_pos ho.2
    have hplace (k : ℤ) : x.a + x.es * part.1 + x.es * k = x.a + x.es * (part.1 + k) := by ring
    have heq := hx.agrees_on hm (i := part.1 + i) (j := part.1 + j) (by omega) (by omega)
    rw [view, view, ← hplace, ← hplace] at heq
    exact congrArg (fun r => (r, m)) heq
  | swap | swapfunc | allocate => rfl

/-! ### The parts of the array -/

/-- The work has a part of the array until its `qsort_algo` returns. -/
def Shared.Live (g : Shared n B) (w : ℕ) : Prop := w < g.used ∧ w ∉ g.returned

/-- What holds from the call of `qsort_spawn` in `main` on. -/
structure Sorting (x : Input B) (order : (Fin x.es → B) → (Fin x.es → B) → ℤ) (m₀ : ℤ → B)
    (part : ℕ → ℤ × ℤ) (g : Shared n B) (th : Who n → Pc) : Prop where
  parts : Parts (x.args order).le x.n g.Live part (view x.es x.a g.mem)
  allocated : ∀ w < g.used, w ∉ g.destroyed → (g.args w).isSome
  waiting : ∀ w < g.used, w ∉ g.called →
    g.args w = some ⟨x.a + x.es * (part w).1, (part w).2 - (part w).1⟩
  task : ∀ t w p, (th t).task = some (w, p) → Sorts (x.args order) (part w) p g.mem
  memory : Shuffled x m₀ g.mem

variable {part part' : ℕ → ℤ × ℤ} {p : SortProg Unit}

theorem task_update (h : (Function.update th t pc' u).task = some (w, p)) :
    u = t ∧ pc'.task = some (w, p) ∨ u ≠ t ∧ (th u).task = some (w, p) := by
  rcases eq_or_ne u t with rfl | hu
  · rw [Function.update_self] at h
    exact .inl ⟨rfl, h⟩
  · rw [Function.update_of_ne hu] at h
    exact .inr ⟨hu, h⟩

/-- A step that changes neither the memory nor what the works have to do. -/
theorem Sorting.same (h : Sorting x order m₀ part g th) (hmem : g'.mem = g.mem)
    (hargs : g'.args = g.args) (hused : g'.used = g.used) (hcalled : g'.called = g.called)
    (hreturned : g'.returned = g.returned) (hdestroyed : g'.destroyed = g.destroyed)
    (htask : pc'.task = (th t).task) :
    Sorting x order m₀ part g' (Function.update th t pc') := by
  refine ⟨?_, ?_, ?_, fun u v p hp => ?_, ?_⟩
  · rw [hmem, show g'.Live = g.Live from by unfold Shared.Live; rw [hused, hreturned]]
    exact h.parts
  · rw [hargs, hused, hdestroyed]
    exact h.allocated
  · rw [hargs, hused, hcalled]
    exact h.waiting
  · rw [hmem]
    rcases task_update hp with ⟨rfl, hnew⟩ | ⟨-, hold⟩
    · exact h.task u v p (htask ▸ hnew)
    · exact h.task u v p hold
  · rw [hmem]
    exact h.memory

/-- A thread that is in `qsort_algo` for `w`. -/
theorem running_of_task (h : pc.task = some (w, p)) : w ∈ pc.running := by
  rw [Pc.running, h]
  exact List.mem_singleton_self w

/-- What a thread has to do for `w` does not depend on the other parts of the array. -/
theorem Sorting.others (h : Sorting x order m₀ part g th) (hb : Balance g th)
    (hw : w ∈ (th t).running) {m : ℤ → B} (hu : u ≠ t) (hp : (th u).task = some (v, p))
    (hm : Shuffle (part w).1 (part w).2 (view x.es x.a g.mem) (view x.es x.a m)) :
    v ≠ w ∧ Sorts (x.args order) (part v) p m := by
  obtain ⟨hused, -, hret, hone⟩ := hb.of_running hw
  obtain ⟨hvused, -, hvret, -⟩ := hb.of_running (running_of_task hp)
  have hvw : v ≠ w := by
    rintro rfl
    exact hu (hone u (running_of_task hp))
  refine ⟨hvw, (h.task u v p hp).agree fun y hy hy' => ?_⟩
  have hdisj := h.parts.disjoint v w ⟨hvused, hvret⟩ ⟨hused, hret⟩ hvw
  exact hm.outside (by omega)

/-- A thread begins with a work that it has taken from a deque. -/
theorem Sorting.begin (h : Sorting x order m₀ part g th) (hx : x.Valid order m₀)
    (hb : Balance g th) (hpc : th t = .idle (.found (.work w))) {q : Qs}
    (hq : g.args w = some q) :
    Sorting x order m₀ part { g with called := w :: g.called }
      (Function.update th t (.body w (algo x q))) := by
  have hw : w ∈ (th t).holds := by
    rw [hpc]
    exact List.mem_singleton_self w
  obtain ⟨hused, hcalled, hret⟩ := hb.of_holds hw
  obtain ⟨hlo, hle, hhi⟩ := h.parts.bounds w ⟨hused, hret⟩
  refine ⟨h.parts, h.allocated, fun v hv hvc => ?_, fun u v p hp => ?_, h.memory⟩
  · exact h.waiting v hv fun hmem => hvc (List.mem_cons_of_mem w hmem)
  · rcases task_update hp with ⟨-, hnew⟩ | ⟨-, hold⟩
    · cases hnew
      rw [h.waiting w hused hcalled] at hq
      cases hq
      exact sorts_start hx.args hlo hle hhi
    · exact h.task u v p hold

/-- A comparison or an exchange. -/
theorem Sorting.call (h : Sorting x order m₀ part g th) (hx : x.Valid order m₀)
    (hb : Balance g th) {o : SortOp} {f : Answer o → SortProg Unit}
    (hpc : th t = .body w (.op o f)) :
    let r := onMemory x.es (swaptype x.a x.es) x.cmp o g.mem
    o.Inside x.es ((part w).2 - (part w).1).toNat (x.a + x.es * (part w).1) ∧
      Sorting x order m₀ part { g with mem := r.2 } (Function.update th t (.body w (f r.1))) := by
  have htask : (th t).task = some (w, .op o f) := by rw [hpc]; rfl
  have hw := running_of_task htask
  obtain ⟨hused, -, hret, -⟩ := hb.of_running hw
  obtain ⟨hlo, hle, hhi⟩ := h.parts.bounds w ⟨hused, hret⟩
  obtain ⟨hin, hnext, hshuffle, hframe⟩ := (h.task t w _ htask).call hx.args hlo hhi
  have heq := hx.onMemory_eq h.memory hlo hhi hin (swaptype x.a x.es)
  intro r
  have hr : r = onMemory x.es (swaptype x.a x.es) order o g.mem := heq
  refine ⟨hin, ?_⟩
  rw [hr]
  refine ⟨h.parts.work ⟨hused, hret⟩ hshuffle, h.allocated, h.waiting, fun u v p hp => ?_,
    h.memory.shuffle.trans (hshuffle.mono hlo hhi), fun y hy => ?_⟩
  · rcases task_update hp with ⟨-, hnew⟩ | ⟨hu, hold⟩
    · cases hnew
      exact hnext
    · exact (h.others hb hw hu hold hshuffle).2
  · have hes : (0 : ℤ) ≤ x.es := Int.natCast_nonneg _
    have hfirst : (x.es : ℤ) * 0 ≤ x.es * (part w).1 := mul_le_mul_of_nonneg_left hlo hes
    have hlast : (x.es : ℤ) * (part w).2 ≤ x.es * x.n := mul_le_mul_of_nonneg_left hhi hes
    have hout : ¬ (x.a + x.es * (part w).1 ≤ y ∧ y < x.a + x.es * (part w).2) := by omega
    exact (hframe y hout).trans (h.memory.frame y hy)

/-- The number of the next work is not in use. -/
theorem Balance.unused (h : Balance g th) (t : Who n) :
    g.used ∉ g.called ∧ g.used ∉ g.returned ∧ g.used ∉ (th t).running := by
  refine ⟨fun hmem => ?_, fun hmem => ?_, fun hmem => ?_⟩
  · have hpos := List.count_pos_iff.mpr hmem
    have hincremented := h.incremented g.used
    have hfresh := h.fresh g.used
    rw [count_used, if_neg (lt_irrefl _)] at hfresh
    omega
  · exact lt_irrefl _ (h.of_returned hmem).1
  · exact lt_irrefl _ (h.of_running hmem).1

/-- `qsort_algo` spawns a work for a part of its own. -/
theorem Sorting.handOut (h : Sorting x order m₀ part g th) (hb : Balance g th) {a k : ℤ} {f : Bool → SortProg Unit}
    (hpc : th t = .body w (.op (.allocate a k) f)) :
    ∃ part', Sorting x order m₀ part' (qsortSpawn g (some (w, f true)) ⟨a, k⟩).1
      (Function.update th t (qsortSpawn g (some (w, f true)) ⟨a, k⟩).2) := by
  have htask : (th t).task = some (w, .op (.allocate a k) f) := by rw [hpc]; rfl
  have hw := running_of_task htask
  obtain ⟨hused, hcalled, hret, hone⟩ := hb.of_running hw
  obtain ⟨hcalled', hret', hrun'⟩ := hb.unused t
  obtain ⟨i, rfl, hk, hi, hik, hparted, -, hrest⟩ := (h.task t w _ htask).allocate
  have hne : g.used ≠ w := Nat.ne_of_gt hused
  let part' := Function.update (Function.update part w (i + k, (part w).2)) g.used (i, i + k)
  have hnew : part' g.used = (i, i + k) := Function.update_self _ _ _
  have hold : part' w = (i + k, (part w).2) := by
    simp only [part', Function.update_of_ne hne.symm, Function.update_self]
  have hother : ∀ v, v ≠ w → v ≠ g.used → part' v = part v := fun v hvw hvu => by
    simp only [part', Function.update_of_ne hvu, Function.update_of_ne hvw]
  refine ⟨part', ⟨?_, fun v hv hvd => ?_, fun v hv hvc => ?_, fun u v p hp => ?_, h.memory⟩⟩
  · refine h.parts.split ⟨hused, hret⟩ (fun hlive => lt_irrefl _ hlive.1) hi (by omega) (by omega)
      hparted (fun v => ?_) hnew hold hother
    refine ⟨fun hv => ?_, fun hv => ?_⟩
    · rcases Nat.lt_succ_iff_lt_or_eq.mp hv.1 with hlt | heq
      · exact .inl ⟨hlt, hv.2⟩
      · exact .inr heq
    · rcases hv with hv | rfl
      · exact ⟨Nat.lt_succ_of_lt hv.1, hv.2⟩
      · exact ⟨Nat.lt_succ_self _, hret'⟩
  · rcases Nat.lt_succ_iff_lt_or_eq.mp hv with hlt | rfl
    · simp only [qsortSpawn, Function.update_of_ne (Nat.ne_of_lt hlt)]
      exact h.allocated v hlt hvd
    · simp only [qsortSpawn, Function.update_self, Option.isSome_some]
  · rcases Nat.lt_succ_iff_lt_or_eq.mp hv with hlt | rfl
    · have hvw : v ≠ w := fun heq => hvc (heq ▸ hcalled)
      rw [hother v hvw (Nat.ne_of_lt hlt)]
      simp only [qsortSpawn, Function.update_of_ne (Nat.ne_of_lt hlt)]
      exact h.waiting v hlt hvc
    · rw [hnew]
      simp only [qsortSpawn, Function.update_self, add_sub_cancel_left]
      rfl
  · rcases task_update hp with ⟨-, htop⟩ | ⟨hu, hold'⟩
    · cases htop
      rw [hold]
      exact hrest
    · obtain ⟨hvw, hsorts⟩ := h.others hb hw hu hold' (.refl _ _ _)
      have hvu : v ≠ g.used := Nat.ne_of_lt (hb.of_running (running_of_task hold')).1
      rwa [hother v hvw hvu]

/-- `qsort_algo` returns, and its part is sorted. -/
theorem Sorting.ret (h : Sorting x order m₀ part g th) {y : Unit} (hpc : th t = .body w (.ret y)) :
    Sorting x order m₀ part { g with returned := w :: g.returned }
      (Function.update th t (.dtor w)) := by
  have htask : (th t).task = some (w, .ret y) := by rw [hpc]; rfl
  refine ⟨h.parts.finish (h.task t w _ htask).ret fun v => ?_, h.allocated, h.waiting,
    fun u v p hp => ?_, h.memory⟩
  · simp only [Shared.Live, List.mem_cons, not_or]
    tauto
  · rcases task_update hp with ⟨-, hnew⟩ | ⟨-, hold⟩
    · cases hnew
    · exact h.task u v p hold

/-- `qsort_dtor` frees what has been read. -/
theorem Sorting.destroy (h : Sorting x order m₀ part g th) (hb : Balance g th)
    (hpc : th t = .dtor w) :
    Sorting x order m₀ part
      { g with args := Function.update g.args w none, destroyed := w :: g.destroyed }
      (Function.update th t (.fetchSub w)) := by
  have hw : w ∈ (th t).destroying := by
    rw [hpc]
    exact List.mem_singleton_self w
  have hcalled := (hb.of_returned (hb.of_destroying hw).1).2
  refine ⟨h.parts, fun v hv hvd => ?_, fun v hv hvc => ?_, fun u v p hp => ?_, h.memory⟩
  · rw [List.mem_cons, not_or] at hvd
    simp only [Function.update_of_ne hvd.1]
    exact h.allocated v hv hvd.2
  · have hvw : v ≠ w := fun heq => hvc (heq ▸ hcalled)
    simp only [Function.update_of_ne hvw]
    exact h.waiting v hv hvc
  · rcases task_update hp with ⟨-, hnew⟩ | ⟨-, hold⟩
    · cases hnew
    · exact h.task u v p hold

/-- `main` spawns a work for the whole array. -/
theorem sorting_first (hb : Balance g th) (hused : g.used = 0) (hmem : g.mem = m₀)
    (hother : ∀ u, u ≠ t → (th u).task = none) :
    Sorting x order m₀ (fun _ => (0, (x.n : ℤ))) (qsortSpawn g none ⟨x.a, x.n⟩).1
      (Function.update th t (qsortSpawn g none ⟨x.a, x.n⟩).2) := by
  have hone (v : ℕ) (hv : v < g.used + 1) : v = g.used := by omega
  refine ⟨?_, fun v hv hvd => ?_, fun v hv hvc => ?_, fun u v p hp => ?_, ?_⟩
  · refine parts_whole (i := g.used) (Int.natCast_nonneg _) (fun v => ?_) rfl
    refine ⟨fun hv => hone v hv.1, ?_⟩
    rintro rfl
    exact ⟨Nat.lt_succ_self _, (hb.unused t).2.1⟩
  · obtain rfl := hone v hv
    simp only [qsortSpawn, Function.update_self, Option.isSome_some]
  · obtain rfl := hone v hv
    simp only [qsortSpawn, Function.update_self, mul_zero, add_zero, sub_zero]
  · rcases task_update hp with ⟨-, hnew⟩ | ⟨hu, hold⟩
    · cases hnew
    · rw [hother u hu] at hold
      cases hold
  · exact ⟨hmem ▸ .refl _ _ _, fun y _ => congrFun hmem y⟩

theorem Sorting.step (h : Sorting x order m₀ part g th) (hx : x.Valid order m₀)
    (hb : Balance g th) (hearly : ¬ (th t).Early) (hs : Step x g t (th t) g' pc') :
    ∃ part', Sorting x order m₀ part' g' (Function.update th t pc') := by
  generalize hpc : th t = pc at hs hearly
  cases hs with
  | control list done hc =>
    refine ⟨part, h.same rfl rfl rfl rfl rfl rfl ?_⟩
    cases hc <;> rw [hpc] <;> rfl
  | look queue =>
    refine ⟨part, h.same rfl rfl rfl rfl rfl rfl ?_⟩
    rw [hpc]
    rfl
  | begin w q hq => exact ⟨part, h.begin hx hb hpc hq⟩
  | call w o f => exact ⟨part, (h.call hx hb hpc).2⟩
  | handOut w a k f => exact h.handOut hb hpc
  | first i => exact absurd trivial hearly
  | spawn caller stage =>
    refine ⟨part, ?_⟩
    have htask : (hinaSpawn g (tid t) caller stage).2.task = (th t).task := by
      rw [hpc]
      cases stage <;> rcases caller with _ | ⟨w, p⟩ <;> rfl
    cases stage <;> exact h.same rfl rfl rfl rfl rfl rfl htask
  | ret w y => exact ⟨part, h.ret hpc⟩
  | destroy w q => exact ⟨part, h.destroy hb hpc⟩
  | finish w =>
    refine ⟨part, h.same rfl rfl rfl rfl rfl rfl ?_⟩
    rw [hpc]
    rfl

/-! ### The invariant -/

/-- Before the call of `qsort_spawn` in `main`, and from then on. -/
def Phase (x : Input B) (order : (Fin x.es → B) → (Fin x.es → B) → ℤ) (m₀ : ℤ → B) (s : St n B) :
    Prop :=
  ((s.thread none).Early ∧ s.shared.used = 0 ∧ s.shared.mem = m₀) ∨
    (¬ (s.thread none).Early ∧ ∃ part, Sorting x order m₀ part s.shared s.thread)

structure Inv (x : Input B) (order : (Fin x.es → B) → (Fin x.es → B) → ℤ) (m₀ : ℤ → B)
    (s : St n B) : Prop where
  balance : Balance s.shared s.thread
  thread : ∀ t, (s.thread t).Local t
  phase : Phase x order m₀ s
  past : (s.thread none).Past → s.shared.Quiet

theorem not_early_of_worker (hl : pc.Local t) (ht : t ≠ none) : ¬ pc.Early := by
  intro hearly
  cases pc with
  | create i => exact ht (hl.mp trivial)
  | _ => exact hearly

/-- As long as no work is allocated no thread is busy. -/
theorem Balance.no_task_of_unused (h : Balance g th) (hused : g.used = 0) (t : Who n) :
    (th t).task = none :=
  h.no_task (fun w hw => absurd hw (by omega)) t

theorem phase_step (hx : x.Valid order m₀) (hi : Inv x order m₀ s)
    (hs : Step x s.shared t (s.thread t) g pc) :
    Phase x order m₀ ⟨g, Function.update s.thread t pc⟩ := by
  rcases hi.phase with ⟨hearly, hused, hmem⟩ | ⟨hearly, part, hsort⟩
  · have hidle := hi.balance.no_task_of_unused hused
    rcases eq_or_ne t none with rfl | ht
    · generalize hpc : s.thread none = pc₀ at hs hearly
      cases hs with
      | control list done hc =>
        cases hc with
        | create i =>
          refine .inl ⟨?_, hused, hmem⟩
          simp only [Function.update_self]
          trivial
        | _ => exact hearly.elim
      | first i =>
        refine .inr ⟨?_, _, sorting_first hi.balance hused hmem fun u _ => hidle u⟩
        simp only [Function.update_self]
        exact id
      | _ => exact hearly.elim
    · obtain ⟨hused', hmem', -⟩ := hs.same (hidle t) (not_early_of_worker (hi.thread t) ht)
      refine .inl ⟨?_, hused'.trans hused, hmem'.trans hmem⟩
      simp only [Function.update_of_ne ht.symm]
      exact hearly
  · rcases eq_or_ne t none with rfl | ht
    · refine .inr ⟨?_, hsort.step hx hi.balance hearly hs⟩
      simp only [Function.update_self]
      exact fun h => hearly (hs.early h)
    · have hworker := not_early_of_worker (hi.thread t) ht
      refine .inr ⟨?_, hsort.step hx hi.balance hworker hs⟩
      simp only [Function.update_of_ne ht.symm]
      exact hearly

theorem quiet_step (hi : Inv x order m₀ s) (hs : Step x s.shared t (s.thread t) g pc)
    (hpast : (Function.update s.thread t pc none).Past) : g.Quiet := by
  have keep (hq : s.shared.Quiet) (hearly : ¬ (s.thread t).Early) : g.Quiet := by
    obtain ⟨hused, -, hdec⟩ := hs.same (hi.balance.no_task hq t) hearly
    intro w hw
    exact hdec w (hq w (hused ▸ hw))
  rcases eq_or_ne t none with rfl | ht
  · rw [Function.update_self] at hpast
    rcases hs.past hpast with hold | ⟨hpoll, hactive⟩
    · refine keep (hi.past hold) fun hearly => ?_
      cases hpc : s.thread none <;> rw [hpc] at hold hearly
      case create => exact hold
      all_goals exact hearly
    · refine keep (hi.balance.quiet hactive fun u stage hu => ?_) (by rw [hpoll]; exact id)
      -- the main thread is in its loop, so it is not in `hina_spawn`
      have hmain := hi.thread u
      rw [hu] at hmain
      obtain rfl := hmain.mp trivial
      rw [hpoll] at hu
      cases hu
  · rw [Function.update_of_ne ht.symm] at hpast
    exact keep (hi.past hpast) (not_early_of_worker (hi.thread t) ht)

theorem inv_step (hx : x.Valid order m₀) (hi : Inv x order m₀ s)
    (h : (system n D x m₀).next s (t, c) = some s') : Inv x order m₀ s' := by
  obtain ⟨⟨g, pc⟩, hn, rfl⟩ := Option.map_eq_some_iff.mp h
  change next D x s t c (s.thread t) = some (g, pc) at hn
  have hs := next_step (hi.thread t) hn
  refine ⟨hi.balance.step hs.moves, fun u => ?_, phase_step hx hi hs, quiet_step hi hs⟩
  rcases eq_or_ne u t with rfl | hu
  · simp only [Function.update_self]
    exact hs.keeps_local (hi.thread u)
  · simp only [Function.update_of_ne hu]
    exact hi.thread u

theorem inv_start : Inv x order m₀ (start n m₀) := by
  have hzero (f : Pc → List ℕ) (hf : f (.create 0) = [] ∧ f .unborn = []) (w : ℕ) :
      tally f (start n m₀).thread w = 0 := by
    apply Finset.sum_eq_zero
    intro t _
    simp only [start]
    split <;> simp [hf]
  have hqueue (w : ℕ) : tally (fun q => q) (start n m₀).shared.queue w = 0 := by
    apply Finset.sum_eq_zero
    intro i _
    rfl
  refine ⟨⟨fun w => ?_, fun w => ?_, fun w => ?_, fun w => ?_, fun w => ?_, rfl⟩, fun t => ?_,
    .inl ⟨trivial, rfl, rfl⟩, False.elim⟩
  · rw [hzero _ ⟨rfl, rfl⟩]
    rfl
  · rw [hzero _ ⟨rfl, rfl⟩, hzero _ ⟨rfl, rfl⟩, hqueue]
    rfl
  · rw [hzero _ ⟨rfl, rfl⟩]
    rfl
  · rw [hzero _ ⟨rfl, rfl⟩]
    rfl
  · rw [hzero _ ⟨rfl, rfl⟩]
    rfl
  · cases t with
    | none => exact iff_of_true trivial rfl
    | some i => exact iff_of_false id nofun

theorem inv_reachable (hx : x.Valid order m₀) (h : (system n D x m₀).Reachable System.free s) :
    Inv x order m₀ s := by
  refine System.reachable_invariant (fun s₀ h₀ => ?_) (fun s a s' _ hi _ hn => ?_) h
  · subst h₀
    exact inv_start
  · exact inv_step hx hi hn

/-! ### What follows -/

/-- The check of the result in `main`, which prints "Sorting failed!". -/
def sortingFailed (x : Input B) (m : ℤ → B) : Bool :=
  (List.range (x.n - 1)).any fun i =>
    decide (x.cmp (view x.es x.a m (i + 1)) (view x.es x.a m i) < 0)

/-- In the midst of a work, or about to execute or to destroy it. -/
def Pc.Busy : Pc → Prop
  | .idle (.found _) | .body _ _ | .spawn _ _ | .dtor _ | .fetchSub _ => True
  | _ => False

/-- What the sort guarantees in a state. -/
structure Safe (D : Deque ℕ C) (x : Input B) (m₀ : ℤ → B) (s : St n B) : Prop where
  /-- Each thread in `qsort_algo` compares and exchanges elements of a part of its own. -/
  apart : ∃ part : ℕ → ℤ × ℤ,
    (∀ t w o f, s.thread t = .body w (.op o f) → 0 ≤ (part w).1 ∧ (part w).2 ≤ x.n ∧
      o.Inside x.es ((part w).2 - (part w).1).toNat (x.a + x.es * (part w).1)) ∧
    ∀ t u v w p q, t ≠ u → (s.thread t).task = some (v, p) → (s.thread u).task = some (w, q) →
      (part v).2 ≤ (part w).1 ∨ (part w).2 ≤ (part v).1
  /-- A busy thread goes on: it is not without an end in a loop of `qsort_algo`, and does not read or
  free arguments that have been freed. -/
  goes : ∀ t c, (s.thread t).Busy → (next D x s t c (s.thread t)).isSome
  progress : ∀ c, s.thread none = .exited ∨ ∃ t, (next D x s t c (s.thread t)).isSome
  memory : Shuffled x m₀ s.shared.mem
  result : (s.thread none).Past → (∀ i j : ℤ, 0 ≤ i → i < j → j < x.n →
    x.cmp (view x.es x.a s.shared.mem i) (view x.es x.a s.shared.mem j) ≤ 0) ∧
      sortingFailed x s.shared.mem = false

theorem busy_goes (hi : Inv x order m₀ s) (hbusy : (s.thread t).Busy) :
    (next D x s t c (s.thread t)).isSome := by
  -- a work that is in use has been allocated, and so `qsort_spawn` has been called
  have sorting {w : ℕ} (hw : w < s.shared.used) :
      ∃ part, Sorting x order m₀ part s.shared s.thread := by
    rcases hi.phase with ⟨-, hused, -⟩ | ⟨-, hsort⟩
    · omega
    · exact hsort
  have hlocal := hi.thread t
  cases hpc : s.thread t with
  | idle l =>
    rw [hpc] at hlocal hbusy
    cases l with
    | found y =>
      obtain ⟨w, rfl⟩ := hlocal.2
      have hw : w ∈ (s.thread t).holds := by
        rw [hpc]
        exact List.mem_singleton_self w
      obtain ⟨hused, hcalled, -⟩ := hi.balance.of_holds hw
      obtain ⟨part, hsort⟩ := sorting hused
      simp only [next, hsort.waiting w hused hcalled, Option.map_some, Option.isSome_some]
    | _ => exact hbusy.elim
  | body w p =>
    have htask : (s.thread t).task = some (w, p) := by rw [hpc]; rfl
    obtain ⟨part, hsort⟩ := sorting (hi.balance.of_running (running_of_task htask)).1
    cases p with
    | ret y => rfl
    | stuck => exact (hsort.task t w _ htask).not_stuck.elim
    | op o f => cases o <;> rfl
  | spawn caller stage => rfl
  | dtor w =>
    have hw : w ∈ (s.thread t).destroying := by
      rw [hpc]
      exact List.mem_singleton_self w
    obtain ⟨hret, hdestroyed⟩ := hi.balance.of_destroying hw
    have hused := (hi.balance.of_returned hret).1
    obtain ⟨part, hsort⟩ := sorting hused
    obtain ⟨q, hq⟩ := Option.isSome_iff_exists.mp (hsort.allocated w hused hdestroyed)
    simp only [next, hq, Option.map_some, Option.isSome_some]
  | fetchSub w => rfl
  | _ =>
    rw [hpc] at hbusy
    exact hbusy.elim

/-- Whom the main thread waits for can go on. -/
theorem worker_goes (hi : Inv x order m₀ s) {k : Fin (n + 1)} {j : ℕ}
    (hmain : s.thread none = .join j) (hleft : s.thread (some k) ≠ .idle .left) :
    (next D x s (some k) c (s.thread (some k))).isSome := by
  have hlocal := hi.thread (some k)
  cases hpc : s.thread (some k) with
  | unborn => simp only [next, created, hmain, if_true, Option.isSome_some]
  | idle l =>
    cases l with
    | found y =>
      rw [← hpc]
      refine busy_goes hi ?_
      rw [hpc]
      trivial
    | left => exact absurd hpc hleft
    | steal i stolen =>
      simp only [next, idleStep]
      split
      · split <;> rfl
      · rfl
    | take | check => rfl
  | body | spawn | dtor | fetchSub =>
    rw [← hpc]
    refine busy_goes hi ?_
    rw [hpc]
    trivial
  | _ =>
    rw [hpc] at hlocal
    exact absurd (hlocal.mp trivial) (Option.some_ne_none k)

theorem progress (hi : Inv x order m₀ s) (c : C) :
    s.thread none = .exited ∨ ∃ t, (next D x s t c (s.thread t)).isSome := by
  have hlocal := hi.thread none
  cases hpc : s.thread none with
  | exited => exact .inl rfl
  | create i =>
    refine .inr ⟨none, ?_⟩
    rw [hpc, next]
    split <;> rfl
  | spawn | poll | storeDone =>
    refine .inr ⟨none, ?_⟩
    rw [hpc]
    rfl
  | join i =>
    by_cases hlast : i < n + 1
    · by_cases hleft : s.thread (some ⟨i, hlast⟩) = .idle .left
      · refine .inr ⟨none, ?_⟩
        simp only [hpc, next, dif_pos hlast, hleft, Option.isSome_some]
      · exact .inr ⟨_, worker_goes hi hpc hleft⟩
    · refine .inr ⟨none, ?_⟩
      simp only [hpc, next, dif_neg hlast, Option.isSome_some]
  | free =>
    refine .inr ⟨none, ?_⟩
    rw [hpc, next]
    split <;> rfl
  | unborn | body | dtor | fetchSub =>
    rw [hpc] at hlocal
    exact (hlocal.mpr rfl).elim
  | idle l =>
    rw [hpc] at hlocal
    exact absurd rfl hlocal.1

theorem apart (hx : x.Valid order m₀) (hi : Inv x order m₀ s) : ∃ part : ℕ → ℤ × ℤ,
    (∀ t w o f, s.thread t = .body w (.op o f) → 0 ≤ (part w).1 ∧ (part w).2 ≤ x.n ∧
      o.Inside x.es ((part w).2 - (part w).1).toNat (x.a + x.es * (part w).1)) ∧
    ∀ t u v w p q, t ≠ u → (s.thread t).task = some (v, p) → (s.thread u).task = some (w, q) →
      (part v).2 ≤ (part w).1 ∨ (part w).2 ≤ (part v).1 := by
  rcases hi.phase with ⟨-, hused, -⟩ | ⟨-, part, hsort⟩
  · have hidle := hi.balance.no_task_of_unused hused
    refine ⟨fun _ => (0, 0), fun t w o f hpc => ?_, fun t u v w p q _ hp _ => ?_⟩
    · have hnone := hidle t
      rw [hpc] at hnone
      cases hnone
    · rw [hidle t] at hp
      cases hp
  · refine ⟨part, fun t w o f hpc => ?_, fun t u v w p q htu hp hq => ?_⟩
    · have htask : (s.thread t).task = some (w, .op o f) := by rw [hpc]; rfl
      obtain ⟨hused, -, hret, -⟩ := hi.balance.of_running (running_of_task htask)
      obtain ⟨hlo, -, hhi⟩ := hsort.parts.bounds w ⟨hused, hret⟩
      exact ⟨hlo, hhi, (hsort.call hx hi.balance hpc).1⟩
    · obtain ⟨hv, -, hvret, -⟩ := hi.balance.of_running (running_of_task hp)
      obtain ⟨hw, -, hwret, -⟩ := hi.balance.of_running (running_of_task hq)
      obtain ⟨hvw, -⟩ := hsort.others hi.balance (running_of_task hq) htu hp (.refl _ _ _)
      exact hsort.parts.disjoint v w ⟨hv, hvret⟩ ⟨hw, hwret⟩ hvw

end LinuxSummer.HinaSort
