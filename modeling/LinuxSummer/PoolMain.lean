import LinuxSummer.PoolSteps

/-! `qsort_mt` itself: where it is in its loops, what it has initialised and not yet released, and
which threads it has created. -/
namespace LinuxSummer.Pool
open Monitor Qsort
set_option linter.unusedSectionVars false

/-- The places of `qsort_mt` and of the threads. -/
def places (l : MainLoc) (w : ℕ → WorkerPc) : Thread → Loc
  | .main => .main l
  | .worker i => .worker (w i)

section Rule
variable {B : Type} {x : Args B} {m₀ : ℤ → B} {d d' : Data B} {w w' : ℕ → WorkerPc} {i : ℕ}
  {l l' : MainLoc} {k : Loc} {pc' : WorkerPc} {b : Bool}

theorem places_main (l' : MainLoc) :
    Function.update (places l w) .main (.main l') = places l' w := by
  funext t
  cases t <;> simp [places, Function.update]

theorem places_worker (pc' : WorkerPc) : Function.update (places l w) (.worker i) (.worker pc') =
    places l (Function.update w i pc') := by
  funext t
  cases t with
  | main => rfl
  | worker j =>
    by_cases hj : j = i
    · subst hj
      simp [places]
    · simp [places, hj]

theorem places_inj (h : places l w = places l' w') : l = l' ∧ w = w' := by
  refine ⟨Loc.main.inj (congrFun h .main), funext fun i => ?_⟩
  exact Loc.worker.inj (congrFun h (.worker i))

/-- `qsort_mt` stays in `qsort_mt`. -/
theorem qsortMt_edge (h : Edge b (qsortMt x l) d d' k) : ∃ l', k = .main l' := by
  obtain ⟨pc, islot, i, bailout⟩ := l
  cases pc with
  | hand p =>
    cases p with
    | lock | signal | unlock => exact ⟨_, h.2⟩
    | setA | setN | setSt | count => exact ⟨_, (edge_statement h).2⟩
  | bail p =>
    cases p with
    | lock | signal | unlock => exact ⟨_, h.2⟩
    | set => exact ⟨_, (edge_statement h).2⟩
  | initAl | calloc | initMutex | initCond | create =>
    have hk : k = _ := (congrArg Prod.snd h).symm
    cases b <;> exact ⟨_, hk⟩
  | join =>
    simp only [qsortMt, Edge] at h
    split at h <;> cases h
    exact ⟨_, rfl⟩
  | done => exact h.elim
  | _ => exact ⟨_, (edge_statement h).2⟩

/-- A thread of the pool stays in `qsort_thread`. -/
theorem qsortThread_edge {pc : WorkerPc} (h : Edge b (qsortThread x i pc) d d' k) :
    ∃ pc', k = .worker pc' := by
  cases pc with
  | start =>
    simp only [qsortThread, Edge] at h
    split at h <;> cases h
    exact ⟨_, rfl⟩
  | wait p =>
    cases p with
    | test => exact ⟨_, (edge_statement h).2⟩
    | _ => exact ⟨_, h.2⟩
  | sort t =>
    rcases t with _ | ⟨o, k⟩ | _
    · exact ⟨_, h.2⟩
    · cases o with
      | allocate a n => exact ⟨_, h.2⟩
      | _ => exact ⟨_, (edge_statement h).2⟩
    · cases h
  | alloc p j a n k =>
    cases p with
    | lockSt | unlockAl | signal | unlockSt | fail => exact ⟨_, h.2⟩
    | _ => exact ⟨_, (edge_statement h).2⟩
  | finish p =>
    cases p with
    | unlock => exact ⟨_, h.2⟩
    | _ => exact ⟨_, (edge_statement h).2⟩
  | term p j =>
    cases p with
    | set => exact ⟨_, (edge_statement h).2⟩
    | _ => exact ⟨_, h.2⟩
  | lastUnlock => exact ⟨_, h.2⟩
  | done | aborted => exact h.elim
  | check | assert | load | last | leave => exact ⟨_, (edge_statement h).2⟩

/-- What initialises something may fail. -/
theorem initialises_attempt {r : Resource} (h : initialises (.main l) = some r) :
    ∃ f, qsortMt x l = .attempt f := by
  obtain ⟨pc, islot, i, bailout⟩ := l
  cases pc with
  | initAl | calloc | initMutex | initCond | create => exact ⟨_, rfl⟩
  | _ => cases h

variable {first : Option Resource}
  {s : Config Thread (Shared Thread Mutex (Data B)) (Status Mutex Loc)}

/-- The rule for a property of the data and of the places of `qsort_mt` and of the threads. -/
theorem pool_invariant {I : Data B → MainLoc → (ℕ → WorkerPc) → Prop}
    (hstart : I (start m₀) ⟨.start, 0, 0, true⟩ fun _ => .start)
    (hmain : ∀ s l w b d' l', (system x m₀).Reachable (failsAt first) s →
      Program.locs s = places l w → I s.shared.data l w → s.thread .main = .run (.main l) →
      (∀ r, initialises (.main l) = some r → (b = false ↔ first = some r)) →
      Edge b (qsortMt x l) s.shared.data d' (.main l') → I d' l' w)
    (hworker : ∀ s l w i b d' pc', (system x m₀).Reachable (failsAt first) s →
      Program.locs s = places l w → I s.shared.data l w →
      s.thread (.worker i) = .run (.worker (w i)) →
      Edge b (qsortThread x i (w i)) s.shared.data d' (.worker pc') →
      I d' l (Function.update w i pc'))
    (h : (system x m₀).Reachable (failsAt first) s) :
    ∃ l w, Program.locs s = places l w ∧ I s.shared.data l w := by
  refine data_invariant (P := pool x) (I := fun d locs => ∃ l w, locs = places l w ∧ I d l w)
    ⟨_, _, ?_, hstart⟩ (fun s t k a b d' k' hr hi hk hok hb he => ?_) h
  · funext t
    cases t <;> rfl
  · obtain ⟨l, w, hlocs, hi⟩ := hi
    have hat : places l w t = k := by
      rw [← hlocs, Program.locs, hk]
      rfl
    cases t with
    | main =>
      subst hat
      obtain ⟨l', rfl⟩ := qsortMt_edge he
      refine ⟨l', w, by rw [hlocs, places_main], hmain s l w b d' l' hr hlocs hi hk ?_ he⟩
      intro r hinit
      obtain ⟨f, hf⟩ := initialises_attempt (x := x) hinit
      refine (hb f hf).trans (hok.trans ?_)
      simp only [hk, Status.loc, places, hinit]
      constructor
      · rintro ⟨r', hr', hfirst⟩
        rw [hfirst, hr']
      · exact fun hfirst => ⟨r, rfl, hfirst⟩
    | worker i =>
      subst hat
      obtain ⟨pc', rfl⟩ := qsortThread_edge he
      exact ⟨l, _, by rw [hlocs, places_worker], hworker s l w i b d' pc' hr hlocs hi hk he⟩

end Rule

/-! ### Resources -/

section Resources
variable {B : Type} (x : Args B) (first : Option Resource) (l : MainLoc) (d : Data B)

/-- What is initialised at a place of `qsort_mt` and not yet released. -/
def Has : Resource → Prop
  | .mtxAl =>
    match l.pc with
    | .start | .initAl | .report | .qsort | .done => False
    | _ => True
  | .pool =>
    match l.pc with
    | .start | .initAl | .calloc | .destroyAl | .report | .qsort | .done => False
    | _ => True
  | .mtxSt k =>
    match l.pc with
    | .slots | .initMutex | .undoCond | .common | .hand _ => k < l.islot
    | .initCond | .dropMutex | .setIdle | .create | .undoMutex => k ≤ l.islot
    | .joins | .bail _ | .join | .destroyMutex => l.i ≤ k ∧ k < l.islot
    | .destroyCond => l.i < k ∧ k < l.islot
    | _ => False
  | .condSt k =>
    match l.pc with
    | .slots | .initMutex | .initCond | .dropMutex | .common | .hand _ => k < l.islot
    | .setIdle | .create | .undoMutex | .undoCond => k ≤ l.islot
    | .joins | .bail _ | .join | .destroyMutex | .destroyCond => l.i ≤ k ∧ k < l.islot
    | _ => False
  | .thread k =>
    match l.pc with
    | .slots | .initMutex | .initCond | .dropMutex | .setIdle | .create | .undoMutex | .undoCond
    | .common | .hand _ => k < l.islot
    | .joins | .bail _ | .join => l.i ≤ k ∧ k < l.islot
    | .destroyMutex | .destroyCond => l.i < k ∧ k < l.islot
    | _ => False

/-- What was not yet initialised. -/
def Fresh : Resource → Prop
  | .mtxAl =>
    match l.pc with
    | .start | .initAl => True
    | _ => False
  | .pool =>
    match l.pc with
    | .start | .initAl | .calloc => True
    | _ => False
  | .mtxSt k =>
    match l.pc with
    | .start | .initAl | .calloc => True
    | .slots | .initMutex => l.islot ≤ k
    | .initCond | .setIdle | .create => l.islot < k
    | _ => False
  | .condSt k =>
    match l.pc with
    | .start | .initAl | .calloc => True
    | .slots | .initMutex | .initCond => l.islot ≤ k
    | .setIdle | .create => l.islot < k
    | _ => False
  | .thread k => l.islot ≤ k

/-- Everything is initialised at most once, and released at most as often. -/
structure Account : Prop where
  held : ∀ r, Has l r → d.acquired r = d.released r + 1
  rest : ∀ r, ¬ Has l r → d.acquired r = d.released r
  once : ∀ r, d.acquired r ≤ 1
  fresh : ∀ r, Fresh l r → d.acquired r = 0
  failed : ∀ r, first = some r → d.acquired r = 0
  created : ∀ k, k < l.islot → d.acquired (.thread k) ≠ 0

/-- Why `qsort_mt` is at the end of its pool. -/
def Finishing : Prop :=
  (l.bailout = true → first ≠ none) ∧
    (l.bailout = false → l.islot = x.maxthreads ∧ 0 < x.maxthreads)

/-- Where `qsort_mt` is in its loops. -/
def Bounds : Prop :=
  l.islot ≤ x.maxthreads ∧
    match l.pc with
    | .start | .initAl | .calloc => l.islot = 0 ∧ l.bailout = true
    | .slots => l.bailout = true ∧ 0 < x.maxthreads
    | .initMutex | .initCond | .setIdle | .create => l.bailout = true ∧ l.islot < x.maxthreads
    | .dropMutex | .undoMutex | .undoCond =>
      l.bailout = true ∧ l.islot < x.maxthreads ∧ first ≠ none
    | .common => l.bailout = true ∧ l.islot = x.maxthreads ∧ 0 < x.maxthreads
    | .hand _ => l.bailout = false ∧ l.islot = x.maxthreads ∧ 0 < x.maxthreads
    | .joins => l.i ≤ l.islot ∧ Finishing x first l
    | .bail _ => l.i < l.islot ∧ l.bailout = true ∧ first ≠ none
    | .join | .destroyMutex | .destroyCond => l.i < l.islot ∧ Finishing x first l
    | .free | .destroyAl | .report => Finishing x first l
    | .qsort => l.bailout = true ∧ (first ≠ none ∨ x.n < x.forkelem)
    | .done => True

end Resources

section Account
variable {B : Type} {x : Args B} {m₀ : ℤ → B} {first : Option Resource} {l l' : MainLoc}
  {d d' : Data B} {b : Bool} {r₀ : Resource}

theorem acquire_self (r : Resource) : (d.acquire r).acquired r = d.acquired r + 1 :=
  Function.update_self ..

theorem acquire_of_ne {r : Resource} (h : r ≠ r₀) : (d.acquire r₀).acquired r = d.acquired r :=
  Function.update_of_ne h ..

theorem release_self (r : Resource) : (d.release r).released r = d.released r + 1 :=
  Function.update_self ..

theorem release_of_ne {r : Resource} (h : r ≠ r₀) : (d.release r₀).released r = d.released r :=
  Function.update_of_ne h ..

theorem Account.same (h : Account first l d) (ha : d'.acquired = d.acquired)
    (hr : d'.released = d.released) (hhas : ∀ r, Has l' r ↔ Has l r)
    (hfresh : ∀ r, Fresh l' r → Fresh l r) (hislot : l'.islot ≤ l.islot) : Account first l' d' := by
  refine ⟨fun r hr' => ?_, fun r hr' => ?_, fun r => ?_, fun r hr' => ?_, fun r hr' => ?_,
    fun k hk => ?_⟩ <;> rw [ha]
  · rw [hr]
    exact h.held r ((hhas r).mp hr')
  · rw [hr]
    exact h.rest r fun h' => hr' ((hhas r).mpr h')
  · exact h.once r
  · exact h.fresh r (hfresh r hr')
  · exact h.failed r hr'
  · exact h.created k (by omega)

theorem Account.acquire (h : Account first l d) (r₀ : Resource) (h₀ : Fresh l r₀)
    (hfirst : first ≠ some r₀) (ha : d'.acquired = (d.acquire r₀).acquired)
    (hr : d'.released = d.released)
    (hhas : ∀ r, Has l' r ↔ Has l r ∨ r = r₀) (hfresh : ∀ r, Fresh l' r → Fresh l r ∧ r ≠ r₀)
    (hislot : ∀ k, k < l'.islot → k < l.islot ∨ r₀ = .thread k) : Account first l' d' := by
  have hzero := h.fresh r₀ h₀
  have hself : d'.acquired r₀ = 1 := by
    rw [ha, acquire_self, hzero]
  have hne (r : Resource) (hr' : r ≠ r₀) : d'.acquired r = d.acquired r := by
    rw [ha, acquire_of_ne hr']
  have hnot : ¬ Has l r₀ := fun hh => by
    have := h.held r₀ hh
    omega
  have hfree := h.rest r₀ hnot
  refine ⟨fun r hr' => ?_, fun r hr' => ?_, fun r => ?_, fun r hr' => ?_, fun r hr' => ?_,
    fun k hk => ?_⟩
  · by_cases he : r = r₀
    · subst he
      rw [hself, hr]
      omega
    · rw [hne r he, hr]
      exact h.held r (((hhas r).mp hr').resolve_right he)
  · have he : r ≠ r₀ := fun he => hr' ((hhas r).mpr (.inr he))
    rw [hne r he, hr]
    exact h.rest r fun h' => hr' ((hhas r).mpr (.inl h'))
  · by_cases he : r = r₀
    · rw [he, hself]
    · rw [hne r he]
      exact h.once r
  · obtain ⟨hf, he⟩ := hfresh r hr'
    rw [hne r he]
    exact h.fresh r hf
  · rw [hne r fun he => hfirst (he ▸ hr')]
    exact h.failed r hr'
  · by_cases he : Resource.thread k = r₀
    · rw [he, hself]
      exact Nat.one_ne_zero
    · rw [hne _ he]
      exact h.created k ((hislot k hk).resolve_right fun h => he h.symm)

theorem Account.release (h : Account first l d) (r₀ : Resource) (h₀ : Has l r₀)
    (ha : d'.acquired = d.acquired) (hr : d'.released = (d.release r₀).released)
    (hhas : ∀ r, Has l' r ↔ Has l r ∧ r ≠ r₀)
    (hfresh : ∀ r, Fresh l' r → Fresh l r) (hislot : l'.islot ≤ l.islot) : Account first l' d' := by
  have hne (r : Resource) (hr' : r ≠ r₀) : d'.released r = d.released r := by
    rw [hr, release_of_ne hr']
  have hself : d'.released r₀ = d.released r₀ + 1 := by
    rw [hr, release_self]
  refine ⟨fun r hr' => ?_, fun r hr' => ?_, fun r => ?_, fun r hr' => ?_, fun r hr' => ?_,
    fun k hk => ?_⟩ <;> rw [ha]
  · obtain ⟨hh, he⟩ := (hhas r).mp hr'
    rw [hne r he]
    exact h.held r hh
  · by_cases he : r = r₀
    · rw [he, hself]
      exact h.held r₀ h₀
    · rw [hne r he]
      exact h.rest r fun hh => hr' ((hhas r).mpr ⟨hh, he⟩)
  · exact h.once r
  · exact h.fresh r (hfresh r hr')
  · exact h.failed r hr'
  · exact h.created k (by omega)

/-- A step of `qsort_mt` keeps the account. -/
theorem Account.step (h : Account first l d) (hl : Bounds x first l)
    (hfail : ∀ r, initialises (.main l) = some r → (b = false ↔ first = some r))
    (he : Edge b (qsortMt x l) d d' (.main l')) : Account first l' d' := by
  obtain ⟨pc, islot, i, bailout⟩ := l
  obtain ⟨-, hl⟩ := hl
  cases pc with
  | start =>
    obtain ⟨rfl, hk⟩ := edge_statement he
    obtain rfl := Loc.main.inj hk
    obtain ⟨rfl, -⟩ := hl
    split <;> refine h.same rfl rfl (fun r => ?_) (fun r => ?_) (Nat.le_refl _) <;>
      cases r <;> simp [Has, Fresh]
  | initAl =>
    cases b with
    | true =>
      cases he
      refine h.acquire .mtxAl trivial (by simp [← hfail _ rfl]) rfl rfl (fun r => ?_)
        (fun r => ?_) (by simp) <;> cases r <;> simp [Has, Fresh]
    | false =>
      cases he
      refine h.same rfl rfl (fun r => ?_) (fun r => ?_) (Nat.le_refl _) <;>
        cases r <;> simp [Has, Fresh]
  | calloc =>
    obtain ⟨rfl, -⟩ := hl
    cases b with
    | true =>
      cases he
      refine h.acquire .pool trivial (by simp [← hfail _ rfl]) rfl rfl (fun r => ?_)
        (fun r => ?_) (by simp) <;> cases r <;> simp [Has, Fresh]
    | false =>
      cases he
      refine h.same rfl rfl (fun r => ?_) (fun r => ?_) (Nat.le_refl _) <;>
        cases r <;> simp [Has, Fresh]
  | slots =>
    obtain ⟨rfl, hk⟩ := edge_statement he
    obtain rfl := Loc.main.inj hk
    split <;> refine h.same rfl rfl (fun r => ?_) (fun r => ?_) (Nat.le_refl _) <;>
      cases r <;> simp [Has, Fresh]
  | initMutex =>
    cases b with
    | true =>
      cases he
      refine h.acquire (.mtxSt islot) (Nat.le_refl _) (by simp [← hfail _ rfl]) rfl rfl
        (fun r => ?_) (fun r => ?_) (by simp) <;> cases r <;> simp [Has, Fresh] <;> omega
    | false =>
      cases he
      refine h.same rfl rfl (fun r => ?_) (fun r => ?_) (Nat.le_refl _) <;>
        cases r <;> simp [Has, Fresh]
  | initCond =>
    cases b with
    | true =>
      cases he
      refine h.acquire (.condSt islot) (Nat.le_refl _) (by simp [← hfail _ rfl]) rfl rfl
        (fun r => ?_) (fun r => ?_) (by simp) <;> cases r <;> simp [Has, Fresh] <;> omega
    | false =>
      cases he
      refine h.same rfl rfl (fun r => ?_) (fun r => ?_) (Nat.le_refl _) <;>
        cases r <;> simp [Has, Fresh]
  | dropMutex =>
    obtain ⟨rfl, hk⟩ := edge_statement he
    obtain rfl := Loc.main.inj hk
    refine h.release (.mtxSt islot) (Nat.le_refl _) rfl rfl (fun r => ?_) (fun r => ?_)
      (Nat.le_refl _) <;> cases r <;> simp [Has, Fresh]
    omega
  | setIdle =>
    obtain ⟨rfl, hk⟩ := edge_statement he
    obtain rfl := Loc.main.inj hk
    refine h.same rfl rfl (fun r => ?_) (fun r => ?_) (Nat.le_refl _) <;>
      cases r <;> simp [Has, Fresh]
  | create =>
    cases b with
    | true =>
      cases he
      refine h.acquire (.thread islot) (Nat.le_refl _) (by simp [← hfail _ rfl]) rfl rfl
        (fun r => ?_) (fun r => ?_) fun k hk => ?_
      · cases r <;> simp [Has] <;> omega
      · cases r <;> simp [Fresh] <;> omega
      · simp only at hk ⊢
        by_cases hki : k = islot
        · exact .inr (by rw [hki])
        · exact .inl (by omega)
    | false =>
      cases he
      refine h.same rfl rfl (fun r => ?_) (fun r => ?_) (Nat.le_refl _) <;>
        cases r <;> simp [Has, Fresh]
  | undoMutex =>
    obtain ⟨rfl, hk⟩ := edge_statement he
    obtain rfl := Loc.main.inj hk
    refine h.release (.mtxSt islot) (Nat.le_refl _) rfl rfl (fun r => ?_) (fun r => ?_)
      (Nat.le_refl _) <;> cases r <;> simp [Has, Fresh]
    omega
  | undoCond =>
    obtain ⟨rfl, hk⟩ := edge_statement he
    obtain rfl := Loc.main.inj hk
    refine h.release (.condSt islot) (Nat.le_refl _) rfl rfl (fun r => ?_) (fun r => ?_)
      (Nat.le_refl _) <;> cases r <;> simp [Has, Fresh]
    omega
  | common =>
    obtain ⟨rfl, hk⟩ := edge_statement he
    obtain rfl := Loc.main.inj hk
    refine h.same rfl rfl (fun r => ?_) (fun r => ?_) (Nat.le_refl _) <;>
      cases r <;> simp [Has, Fresh]
  | hand p =>
    cases p with
    | lock | signal | unlock =>
      obtain ⟨rfl, hk⟩ := he
      obtain rfl := Loc.main.inj hk
      refine h.same rfl rfl (fun r => ?_) (fun r => ?_) (Nat.le_refl _) <;>
        cases r <;> simp [Has, Fresh]
    | setA | setN | setSt | count =>
      obtain ⟨rfl, hk⟩ := edge_statement he
      obtain rfl := Loc.main.inj hk
      refine h.same rfl rfl (fun r => ?_) (fun r => ?_) (Nat.le_refl _) <;>
        cases r <;> simp [Has, Fresh]
  | joins =>
    obtain ⟨rfl, hk⟩ := edge_statement he
    obtain rfl := Loc.main.inj hk
    cases bailout <;> simp only [Bool.false_eq_true, if_false, if_true] <;> split <;>
      refine h.same rfl rfl (fun r => ?_) (fun r => ?_) (Nat.le_refl _) <;>
      cases r <;> simp [Has, Fresh] <;> omega
  | bail p =>
    cases p with
    | lock | signal | unlock =>
      obtain ⟨rfl, hk⟩ := he
      obtain rfl := Loc.main.inj hk
      refine h.same rfl rfl (fun r => ?_) (fun r => ?_) (Nat.le_refl _) <;>
        cases r <;> simp [Has, Fresh]
    | set =>
      obtain ⟨rfl, hk⟩ := edge_statement he
      obtain rfl := Loc.main.inj hk
      refine h.same rfl rfl (fun r => ?_) (fun r => ?_) (Nat.le_refl _) <;>
        cases r <;> simp [Has, Fresh]
  | join =>
    simp only [qsortMt, Edge] at he
    split at he <;> cases he
    refine h.release (.thread i) ⟨Nat.le_refl _, hl.1⟩ rfl rfl (fun r => ?_) (fun r => ?_)
      (Nat.le_refl _) <;> cases r <;> simp [Has, Fresh]
    omega
  | destroyMutex =>
    obtain ⟨rfl, hk⟩ := edge_statement he
    obtain rfl := Loc.main.inj hk
    refine h.release (.mtxSt i) ⟨Nat.le_refl _, hl.1⟩ rfl rfl (fun r => ?_) (fun r => ?_)
      (Nat.le_refl _) <;> cases r <;> simp [Has, Fresh]
    omega
  | destroyCond =>
    obtain ⟨rfl, hk⟩ := edge_statement he
    obtain rfl := Loc.main.inj hk
    refine h.release (.condSt i) ⟨Nat.le_refl _, hl.1⟩ rfl rfl (fun r => ?_) (fun r => ?_)
      (Nat.le_refl _) <;> cases r <;> simp [Has, Fresh] <;> omega
  | free =>
    obtain ⟨rfl, hk⟩ := edge_statement he
    obtain rfl := Loc.main.inj hk
    refine h.release .pool trivial rfl rfl (fun r => ?_) (fun r => ?_) (Nat.le_refl _) <;>
      cases r <;> simp [Has, Fresh]
  | destroyAl =>
    obtain ⟨rfl, hk⟩ := edge_statement he
    obtain rfl := Loc.main.inj hk
    refine h.release .mtxAl trivial rfl rfl (fun r => ?_) (fun r => ?_) (Nat.le_refl _) <;>
      cases r <;> simp [Has, Fresh]
  | report =>
    obtain ⟨rfl, hk⟩ := edge_statement he
    obtain rfl := Loc.main.inj hk
    split <;> refine h.same rfl rfl (fun r => ?_) (fun r => ?_) (Nat.le_refl _) <;>
      cases r <;> simp [Has, Fresh]
  | qsort =>
    obtain ⟨rfl, hk⟩ := edge_statement he
    obtain rfl := Loc.main.inj hk
    refine h.same rfl rfl (fun r => ?_) (fun r => ?_) (Nat.le_refl _) <;>
      cases r <;> simp [Has, Fresh]
  | done => exact he.elim

/-- A step of `qsort_mt` keeps within its bounds. Without slots the pool is not allocated. -/
theorem Bounds.step (h : Account first l d) (hl : Bounds x first l)
    (hsize : x.maxthreads = 0 → first = some .mtxAl ∨ first = some .pool)
    (hfail : ∀ r, initialises (.main l) = some r → (b = false ↔ first = some r))
    (he : Edge b (qsortMt x l) d d' (.main l')) : Bounds x first l' := by
  have failing (r : Resource) (hr : initialises (.main l) = some r) (hb : b = false) :
      first ≠ none := by
    rw [(hfail r hr).mp hb]
    simp
  obtain ⟨pc, islot, i, bailout⟩ := l
  obtain ⟨hislot, hl⟩ := hl
  simp only at hislot hl
  cases pc with
  | start =>
    obtain rfl := Loc.main.inj (edge_statement he).2
    refine ⟨hislot, ?_⟩
    by_cases hn : x.n < x.forkelem
    · simp [hn, hl]
    · simp [hn, hl]
  | initAl =>
    have hf := failing _ rfl
    cases b <;> cases he
    · exact ⟨hislot, hl.2, .inl (hf rfl)⟩
    · exact ⟨hislot, hl⟩
  | calloc =>
    have hf := failing _ rfl
    cases b <;> cases he
    · exact ⟨hislot, fun _ => hf rfl, by simp [hl]⟩
    · refine ⟨Nat.zero_le _, hl.2, Nat.pos_of_ne_zero fun hzero => ?_⟩
      have hal := h.held .mtxAl trivial
      rcases hsize hzero with hfirst | hfirst
      · have := h.failed _ hfirst
        omega
      · have hpool := (hfail .pool rfl).mpr hfirst
        cases hpool
  | slots =>
    obtain rfl := Loc.main.inj (edge_statement he).2
    refine ⟨hislot, ?_⟩
    by_cases hlt : islot < x.maxthreads
    · simp [hlt, hl]
    · simp only [hlt, if_false]
      exact ⟨hl.1, by omega, hl.2⟩
  | initMutex =>
    have hf := failing _ rfl
    cases b <;> cases he
    · exact ⟨hislot, Nat.zero_le _, fun _ => hf rfl, by simp [hl]⟩
    · exact ⟨hislot, hl⟩
  | initCond =>
    have hf := failing _ rfl
    cases b <;> cases he
    · exact ⟨hislot, hl.1, hl.2, hf rfl⟩
    · exact ⟨hislot, hl⟩
  | create =>
    have hf := failing _ rfl
    cases b <;> cases he
    · exact ⟨hislot, hl.1, hl.2, hf rfl⟩
    · exact ⟨hl.2, hl.1, by simp only at hl ⊢; omega⟩
  | setIdle =>
    obtain rfl := Loc.main.inj (edge_statement he).2
    exact ⟨hislot, hl⟩
  | dropMutex | undoCond =>
    obtain rfl := Loc.main.inj (edge_statement he).2
    exact ⟨hislot, Nat.zero_le _, fun _ => hl.2.2, by simp [hl]⟩
  | undoMutex =>
    obtain rfl := Loc.main.inj (edge_statement he).2
    exact ⟨hislot, hl⟩
  | common =>
    obtain rfl := Loc.main.inj (edge_statement he).2
    exact ⟨hislot, rfl, hl.2⟩
  | hand p =>
    cases p with
    | lock | signal =>
      obtain rfl := Loc.main.inj he.2
      exact ⟨hislot, hl⟩
    | unlock =>
      obtain rfl := Loc.main.inj he.2
      exact ⟨hislot, Nat.zero_le _, by simp [hl], fun _ => hl.2⟩
    | setA | setN | setSt | count =>
      obtain rfl := Loc.main.inj (edge_statement he).2
      exact ⟨hislot, hl⟩
  | joins =>
    obtain rfl := Loc.main.inj (edge_statement he).2
    refine ⟨hislot, ?_⟩
    by_cases hlt : i < islot
    · cases bailout with
      | true =>
        simp only [hlt, if_true]
        exact ⟨trivial, trivial, hl.2.1 rfl⟩
      | false =>
        simp only [hlt, if_true]
        exact ⟨trivial, hl.2⟩
    · simp only [hlt, if_false]
      exact hl.2
  | bail p =>
    cases p with
    | lock | signal =>
      obtain rfl := Loc.main.inj he.2
      exact ⟨hislot, hl⟩
    | unlock =>
      obtain rfl := Loc.main.inj he.2
      exact ⟨hislot, hl.1, fun _ => hl.2.2, by simp [hl]⟩
    | set =>
      obtain rfl := Loc.main.inj (edge_statement he).2
      exact ⟨hislot, hl⟩
  | join =>
    simp only [qsortMt, Edge] at he
    split at he <;> cases he
    exact ⟨hislot, hl⟩
  | destroyMutex =>
    obtain rfl := Loc.main.inj (edge_statement he).2
    exact ⟨hislot, hl⟩
  | destroyCond =>
    obtain rfl := Loc.main.inj (edge_statement he).2
    exact ⟨hislot, hl⟩
  | free | destroyAl =>
    obtain rfl := Loc.main.inj (edge_statement he).2
    exact ⟨hislot, hl⟩
  | report =>
    obtain rfl := Loc.main.inj (edge_statement he).2
    refine ⟨hislot, ?_⟩
    cases bailout with
    | true => exact ⟨rfl, .inl (hl.1 rfl)⟩
    | false => trivial
  | qsort =>
    obtain rfl := Loc.main.inj (edge_statement he).2
    exact ⟨hislot, trivial⟩
  | done => exact he.elim

end Account

/-! ### Threads -/

/-- Which threads there are. -/
structure Lifecycle {B : Type} (d : Data B) (w : ℕ → WorkerPc) : Prop where
  exited : ∀ i, d.exited i = true ↔ w i = .done
  created : ∀ i, d.acquired (.thread i) = 0 → w i = .start

section Lifecycle
variable {B : Type} {x : Args B} {m₀ : ℤ → B} {first : Option Resource} {l l' : MainLoc}
  {d d' : Data B} {w : ℕ → WorkerPc} {b : Bool} {i : ℕ} {pc pc' : WorkerPc}

/-- A thread initialises and releases nothing. -/
theorem qsortThread_keeps (he : Edge b (qsortThread x i pc) d d' (.worker pc')) :
    d'.acquired = d.acquired ∧ d'.released = d.released ∧
      (∀ j, d'.exited j = true ↔ d.exited j = true ∨ j = i ∧ pc' = .done) ∧
      (pc = .start → d.acquired (.thread i) ≠ 0) := by
  have same (ha : d'.acquired = d.acquired) (hr : d'.released = d.released)
      (hx : d'.exited = d.exited) (hpc' : pc' ≠ .done) (hpc : pc ≠ .start) :
      d'.acquired = d.acquired ∧ d'.released = d.released ∧
        (∀ j, d'.exited j = true ↔ d.exited j = true ∨ j = i ∧ pc' = .done) ∧
        (pc = .start → d.acquired (.thread i) ≠ 0) :=
    ⟨ha, hr, fun j => by simp [hx, hpc'], fun h => absurd h hpc⟩
  cases pc with
  | start =>
    simp only [qsortThread, Edge] at he
    split at he <;> cases he
    rename_i hcreated
    exact ⟨rfl, rfl, fun j => by simp, fun _ => hcreated⟩
  | leave =>
    obtain ⟨rfl, hk⟩ := edge_statement he
    obtain rfl := Loc.worker.inj hk
    refine ⟨rfl, rfl, fun j => ?_, by simp⟩
    by_cases hj : j = i
    · subst hj
      simp
    · simp [hj]
  | wait p =>
    cases p with
    | test =>
      obtain ⟨rfl, hk⟩ := edge_statement he
      obtain rfl := Loc.worker.inj hk
      exact same rfl rfl rfl (by simp) (by simp)
    | _ =>
      obtain ⟨rfl, hk⟩ := he
      obtain rfl := Loc.worker.inj hk
      exact same rfl rfl rfl (by simp) (by simp)
  | check | assert | load | last =>
    obtain ⟨rfl, hk⟩ := edge_statement he
    obtain rfl := Loc.worker.inj hk
    refine same rfl rfl rfl ?_ (by simp)
    repeat' split
    all_goals simp
  | sort t =>
    rcases t with _ | ⟨o, k⟩ | _
    · obtain ⟨rfl, hk⟩ := he
      obtain rfl := Loc.worker.inj hk
      exact same rfl rfl rfl (by simp) (by simp)
    · cases o with
      | allocate a n =>
        obtain ⟨rfl, hk⟩ := he
        obtain rfl := Loc.worker.inj hk
        exact same rfl rfl rfl (by simp) (by simp)
      | _ =>
        obtain ⟨rfl, hk⟩ := edge_statement he
        obtain rfl := Loc.worker.inj hk
        exact same rfl rfl rfl (by simp) (by simp)
    · cases he
  | alloc p j a n k =>
    cases p with
    | lockSt | unlockAl | signal | unlockSt | fail =>
      obtain ⟨rfl, hk⟩ := he
      obtain rfl := Loc.worker.inj hk
      exact same rfl rfl rfl (by simp) (by simp)
    | loop | test | decr | setWork | setA | setN =>
      obtain ⟨rfl, hk⟩ := edge_statement he
      obtain rfl := Loc.worker.inj hk
      refine same rfl rfl rfl ?_ (by simp)
      repeat' split
      all_goals simp
  | finish p =>
    cases p with
    | unlock =>
      obtain ⟨rfl, hk⟩ := he
      obtain rfl := Loc.worker.inj hk
      exact same rfl rfl rfl (by simp) (by simp)
    | _ =>
      obtain ⟨rfl, hk⟩ := edge_statement he
      obtain rfl := Loc.worker.inj hk
      refine same rfl rfl rfl ?_ (by simp)
      repeat' split
      all_goals simp
  | term p j =>
    cases p with
    | set =>
      obtain ⟨rfl, hk⟩ := edge_statement he
      obtain rfl := Loc.worker.inj hk
      exact same rfl rfl rfl (by simp) (by simp)
    | _ =>
      obtain ⟨rfl, hk⟩ := he
      obtain rfl := Loc.worker.inj hk
      exact same rfl rfl rfl (by simp) (by simp)
  | lastUnlock =>
    obtain ⟨rfl, hk⟩ := he
    obtain rfl := Loc.worker.inj hk
    exact same rfl rfl rfl (by simp) (by simp)
  | done | aborted => exact he.elim

theorem Lifecycle.worker (h : Lifecycle d w)
    (he : Edge b (qsortThread x i (w i)) d d' (.worker pc')) :
    Lifecycle d' (Function.update w i pc') := by
  obtain ⟨ha, -, hexited, hstart⟩ := qsortThread_keeps he
  have hdone : w i ≠ .done := fun hpc => by
    rw [hpc] at he
    exact he.elim
  refine ⟨fun j => ?_, fun j hj => ?_⟩
  · rw [hexited, h.exited]
    by_cases hji : j = i
    · subst hji
      simp [hdone]
    · simp [hji]
  · rw [ha] at hj
    have hpc := h.created j hj
    by_cases hji : j = i
    · subst hji
      exact absurd hj (hstart hpc)
    · rwa [Function.update_of_ne hji]

/-- `qsort_mt` only creates threads. -/
theorem qsortMt_keeps (he : Edge b (qsortMt x l) d d' (.main l')) :
    d'.exited = d.exited ∧ ∀ r, d'.acquired r = 0 → d.acquired r = 0 := by
  have grows (r₀ r : Resource) (h : (d.acquire r₀).acquired r = 0) : d.acquired r = 0 := by
    by_cases hr : r = r₀
    · rw [hr, acquire_self] at h
      omega
    · rwa [acquire_of_ne hr] at h
  obtain ⟨pc, islot, i, bailout⟩ := l
  cases pc with
  | initAl | calloc | initMutex | initCond | create =>
    cases b <;> cases he
    · exact ⟨rfl, fun _ h => h⟩
    · exact ⟨rfl, grows _⟩
  | hand p =>
    cases p with
    | lock | signal | unlock =>
      obtain ⟨rfl, -⟩ := he
      exact ⟨rfl, fun _ h => h⟩
    | setA | setN | setSt | count =>
      obtain ⟨rfl, -⟩ := edge_statement he
      exact ⟨rfl, fun _ h => h⟩
  | bail p =>
    cases p with
    | lock | signal | unlock =>
      obtain ⟨rfl, -⟩ := he
      exact ⟨rfl, fun _ h => h⟩
    | set =>
      obtain ⟨rfl, -⟩ := edge_statement he
      exact ⟨rfl, fun _ h => h⟩
  | join =>
    simp only [qsortMt, Edge] at he
    split at he <;> cases he
    exact ⟨rfl, fun _ h => h⟩
  | done => exact he.elim
  | _ =>
    obtain ⟨rfl, -⟩ := edge_statement he
    exact ⟨rfl, fun _ h => h⟩

theorem Lifecycle.main (h : Lifecycle d w) (he : Edge b (qsortMt x l) d d' (.main l')) :
    Lifecycle d' w := by
  obtain ⟨hx, ha⟩ := qsortMt_keeps he
  refine ⟨fun j => ?_, fun j hj => h.created j (ha _ hj)⟩
  rw [hx]
  exact h.exited j

/-- Only threads of the pool are created. -/
theorem slot_lt (haccount : Account first l d) (hb : Bounds x first l)
    (hi : d.acquired (.thread i) ≠ 0) : i < x.maxthreads := by
  by_contra hlt
  have hislot := hb.1
  exact hi (haccount.fresh (.thread i) (show l.islot ≤ i by omega))

/-- Only threads that were created make steps. -/
theorem Lifecycle.acquired (h : Lifecycle d w)
    (he : Edge b (qsortThread x i (w i)) d d' (.worker pc')) : d.acquired (.thread i) ≠ 0 :=
  fun hzero => (qsortThread_keeps he).2.2.2 (h.created i hzero) hzero

variable {s : Config Thread (Shared Thread Mutex (Data B)) (Status Mutex Loc)}

/-- `qsort_mt` in every reachable state. -/
theorem main_reachable (hsize : x.maxthreads = 0 → first = some .mtxAl ∨ first = some .pool)
    (h : (system x m₀).Reachable (failsAt first) s) : ∃ l w, Program.locs s = places l w ∧
      Account first l s.shared.data ∧ Bounds x first l ∧ Lifecycle s.shared.data w := by
  apply pool_invariant (I := fun d l w => Account first l d ∧ Bounds x first l ∧ Lifecycle d w) ?_
    (fun s l w b d' l' _ _ hi _ hfail he => ?_) (fun s l w i b d' pc' _ _ hi _ he => ?_) h
  · refine ⟨⟨fun r hr => ?_, fun r hr => rfl, fun r => Nat.zero_le _, fun r hr => rfl,
      fun r hr => rfl, fun k hk => absurd hk (Nat.not_lt_zero k)⟩, ⟨Nat.zero_le _, rfl, rfl⟩,
      fun j => by simp [start], fun j hj => rfl⟩
    cases r <;> exact hr.elim
  · obtain ⟨haccount, hbounds, hlife⟩ := hi
    exact ⟨haccount.step hbounds hfail he, hbounds.step haccount hsize hfail he, hlife.main he⟩
  · obtain ⟨haccount, hbounds, hlife⟩ := hi
    obtain ⟨ha, hr, -⟩ := qsortThread_keeps he
    exact ⟨haccount.same ha hr (fun _ => Iff.rfl) (fun _ hf => hf) (Nat.le_refl _), hbounds,
      hlife.worker he⟩

end Lifecycle

end LinuxSummer.Pool
