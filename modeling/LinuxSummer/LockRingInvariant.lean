import Mathlib.Data.Fintype.Card
import Mathlib.Data.Nat.ModEq
import Mathlib.Data.Finset.Max
import LinuxSummer.LockRing

/-! Where the threads of the lock ring are: the first ones of them have taken `k` steps around the
ring, the others `k + 1`. -/
namespace LinuxSummer.LockRing
open Monitor
set_option linter.unusedSectionVars false

variable {T iters : ℕ}

/-! ### Positions on the ring -/

/-- How many mutexes of the ring the thread has gone on from. -/
def moves (l : Loc) : ℕ := l.loop - 1

/-- The same for the last mutex that it has. -/
def front (l : Loc) : ℕ := moves l + if l.pc = .prev then 1 else 0

theorem moves_le_front (l : Loc) : moves l ≤ front l := Nat.le_add_right _ _

/-- No thread is behind a thread of smaller number, or more than one step ahead of it. -/
def Ordered (f m : Fin T → ℕ) : Prop := ∀ i j, i < j → f i ≤ m j ∧ f j ≤ m i + 1

variable {f m : Fin T → ℕ}

/-- A thread that finds the next mutex free has all threads of greater number ahead of it, and none
of smaller number behind. -/
theorem Ordered.of_free (h : Ordered f m) (hle : ∀ i, m i ≤ f i) {u : Fin T}
    (hfree : ∀ v : Fin T, m v ≤ m u → (v + m v) % (T + 1) ≠ (u + m u + 1) % (T + 1)) :
    (∀ j, u < j → m u + 1 ≤ m j) ∧ ∀ j < u, m u ≤ m j := by
  -- the neighbour is not where `u` goes to
  have hnext : ∀ hv : u.val + 1 < T, m ⟨u + 1, hv⟩ ≠ m u := fun hv heq => by
    refine hfree ⟨u + 1, hv⟩ (Nat.le_of_eq heq) ?_
    rw [heq]
    congr 1
    simp only
    omega
  have hge : ∀ j, u < j → m u ≤ m j := fun j hj => (hle u).trans (h u j hj).1
  have hsucc : ∀ j, u < j → m u + 1 ≤ m j := fun j hj => by
    have hlt := j.isLt
    have hj' : u.val < j.val := hj
    have hv : u.val + 1 < T := by omega
    have hne := hnext hv
    have hgt := hge ⟨u + 1, hv⟩ (Nat.lt_succ_self _)
    by_cases heq : j = ⟨u + 1, hv⟩
    · rw [heq]
      omega
    · have hvj : (⟨u + 1, hv⟩ : Fin T) < j := by
        have : j.val ≠ u.val + 1 := fun he => heq (Fin.ext he)
        exact Fin.lt_def.mpr (by simp only; omega)
      have := (hle ⟨u + 1, hv⟩).trans (h _ j hvj).1
      omega
  refine ⟨hsucc, fun j hj => not_lt.mp fun hlt => ?_⟩
  have hahead := (hle u).trans (h j u hj).2
  have hj' : j.val < u.val := hj
  by_cases hv : u.val + 1 < T
  · have hgt := hsucc ⟨u + 1, hv⟩ (Nat.lt_succ_self _)
    have := (hle ⟨u + 1, hv⟩).trans (h j _ (hj.trans (Nat.lt_succ_self _))).2
    omega
  · -- the last thread, with the first one in front of it
    have hT := u.isLt
    have h0u : (⟨0, by omega⟩ : Fin T) < u := Fin.lt_def.mpr (by simp only; omega)
    have h0j : m ⟨0, by omega⟩ ≤ m j := by
      by_cases hj0 : j.val = 0
      · have : j = ⟨0, by omega⟩ := Fin.ext hj0
        rw [this]
      · exact (hle _).trans (h _ j (Fin.lt_def.mpr (by simp only; omega))).1
    have hu0 := (hle u).trans (h _ u h0u).2
    refine hfree ⟨0, by omega⟩ (by omega) ?_
    have hsum : u.val + m u + 1 = 0 + m ⟨0, by omega⟩ + (T + 1) := by omega
    rw [hsum, Nat.add_mod_right]

/-- When no thread has two mutexes one of those that are least far is in front of the spare mutex. -/
theorem Ordered.exists_free (h : Ordered m m) (hT : 0 < T) :
    ∃ w : Fin T, (∀ v, m w ≤ m v) ∧
      ∀ v : Fin T, (v + m v) % (T + 1) ≠ (w + m w + 1) % (T + 1) := by
  have hleast : ∀ v, m ⟨0, hT⟩ ≤ m v := fun v => by
    by_cases hv : v.val = 0
    · have : v = ⟨0, hT⟩ := Fin.ext hv
      rw [this]
    · exact (h _ v (Fin.lt_def.mpr (by simp only; omega))).1
  -- the last one of the least
  obtain ⟨w, hw, hmax⟩ := Finset.exists_max_image (Finset.univ.filter fun v => m v = m ⟨0, hT⟩) id
    ⟨⟨0, hT⟩, by simp⟩
  rw [Finset.mem_filter] at hw
  refine ⟨w, fun v => by rw [hw.2]; exact hleast v, fun v hmod => ?_⟩
  have hwT := w.isLt
  have hvT := v.isLt
  rcases lt_or_ge w v with hlt | hge
  · have hne : m v ≠ m ⟨0, hT⟩ := fun heq => absurd hlt (not_lt.mpr (hmax v (by simp [heq])))
    have hone := h w v hlt
    have hmv : m v = m w + 1 := by
      have := hleast v
      omega
    have hcancel : v.val ≡ w.val [MOD T + 1] := by
      refine Nat.ModEq.add_right_cancel' (m w + 1) ?_
      rw [hmv, ← Nat.add_assoc] at hmod
      exact hmod
    have := Nat.ModEq.eq_of_lt_of_lt hcancel (by omega) (by omega)
    have : w.val < v.val := hlt
    omega
  · have hmv : m v = m w := by
      rcases eq_or_lt_of_le hge with rfl | hlt
      · rfl
      · have := (h v w hlt).1
        have := hleast v
        omega
    have hcancel : v.val ≡ w.val + 1 [MOD T + 1] := by
      refine Nat.ModEq.add_right_cancel' (m w) ?_
      rw [hmv] at hmod
      have hsum : w.val + m w + 1 = w.val + 1 + m w := by omega
      rw [hsum] at hmod
      exact hmod
    have := Nat.ModEq.eq_of_lt_of_lt hcancel (by omega) (by omega)
    have : v.val ≤ w.val := hge
    omega

/-! ### The invariant -/

/-- The thread has counted itself in `ready_count`. -/
def counted : Pc → Bool
  | .signal | .countUnlock | .lineLock | .lineUnlock | .loop | .prev | .ret | .done => true
  | _ => false

/-- The thread has had its `start_mutex`. -/
def passed : Pc → Bool
  | .lineUnlock | .loop | .prev | .ret | .done => true
  | _ => false

/-- What a thread knows at its place. -/
def PlaceOk (iters : ℕ) (l : Loc) : Prop :=
  match l.pc with
  | .begin | .first | .countLock | .count | .signal | .countUnlock | .lineLock | .lineUnlock =>
    moves l = 0
  | .loop => moves l ≤ iters - 1
  | .prev => l.loop < iters
  | .ret | .done => moves l = iters - 1
  | _ => False

structure WorkerOk (iters : ℕ) (id : Fin T) (d : Data) (l : Loc) : Prop where
  place : PlaceOk iters l
  index : l.i = (id + moves l) % (T + 1)
  loop_pos : 1 ≤ l.loop
  created : l.pc ≠ .begin → id < d.created
  exited : d.exited id = true ↔ l.pc = .done

def MainOk (T : ℕ) (d : Data) (l : Loc) : Prop :=
  match l.pc with
  | .launch => l.i ≤ T ∧ d.created = l.i
  | .create => l.i < T ∧ d.created = l.i
  | .test => d.created = T
  | .cond => d.created = T ∧ d.readyCount < T
  | .readyUnlock | .release | .join | .done => d.created = T ∧ d.readyCount = T
  | _ => False

/-- The `start_mutex` of the thread is unlocked. -/
def Released (id : Fin T) (l : Loc) : Prop :=
  l.pc = .release ∧ id < l.i ∨ l.pc = .join ∨ l.pc = .done

/-- The threads that have counted themselves. -/
def countedSet (l : Thread T → Loc) : Finset (Fin T) :=
  Finset.univ.filter fun id => counted (l (.worker id)).pc = true

structure Inv (iters : ℕ) (d : Data) (l : Thread T → Loc) : Prop where
  main : MainOk T d (l .main)
  worker : ∀ id, WorkerOk iters id d (l (.worker id))
  count : d.readyCount = (countedSet l).card
  released : ∀ id, passed (l (.worker id)).pc = true → Released id (l .main)
  ordered : Ordered (fun id => front (l (.worker id))) fun id => moves (l (.worker id))

/-! ### The steps -/

/-- The steps of `contention_test`. -/
inductive MainStep (T : ℕ) (d : Data) (l : Loc) : Data → Loc → Prop
  | launch (hpc : l.pc = .launch) (hi : l.i < T) : MainStep T d l d (l.goto .create)
  | launched (hpc : l.pc = .launch) (hi : ¬ l.i < T) : MainStep T d l d (l.goto .test)
  | create (hpc : l.pc = .create) :
    MainStep T d l { d with created := l.i + 1 } ⟨.launch, l.i + 1, l.loop⟩
  | wait (hpc : l.pc = .test) (hlt : d.readyCount < T) : MainStep T d l d (l.goto .cond)
  | ready (hpc : l.pc = .test) (hge : ¬ d.readyCount < T) : MainStep T d l d (l.goto .readyUnlock)
  | cond (hpc : l.pc = .cond) : MainStep T d l d (l.goto .test)
  | readyUnlock (hpc : l.pc = .readyUnlock) : MainStep T d l d ⟨.release, 0, l.loop⟩
  | release (hpc : l.pc = .release) : MainStep T d l d ⟨.release, l.i + 1, l.loop⟩
  | released (hpc : l.pc = .release) : MainStep T d l d ⟨.join, 0, l.loop⟩
  | join (hpc : l.pc = .join) : MainStep T d l d ⟨.join, l.i + 1, l.loop⟩
  | joined (hpc : l.pc = .join) : MainStep T d l d (l.goto .done)

/-- The steps of `thread_func` that change nothing but the place. -/
inductive Onward (T iters : ℕ) : Loc → Pc → Prop
  | first {l : Loc} (hpc : l.pc = .first) : Onward T iters l .countLock
  | countLock {l : Loc} (hpc : l.pc = .countLock) : Onward T iters l .count
  | signal {l : Loc} (hpc : l.pc = .signal) : Onward T iters l .countUnlock
  | countUnlock {l : Loc} (hpc : l.pc = .countUnlock) : Onward T iters l .lineLock
  | lineUnlock {l : Loc} (hpc : l.pc = .lineUnlock) : Onward T iters l .loop
  | leave {l : Loc} (hpc : l.pc = .loop) (hend : ¬ l.loop < iters) : Onward T iters l .ret

inductive WorkerStep (iters : ℕ) (id : Fin T) (d : Data) (l : Loc) : Data → Loc → Prop
  | onward {pc : Pc} (h : Onward T iters l pc) : WorkerStep iters id d l d (l.goto pc)
  | begin (hpc : l.pc = .begin) (hc : id < d.created) : WorkerStep iters id d l d (l.goto .first)
  | count {pc : Pc} (hpc : l.pc = .count) (hpc' : pc = .signal ∨ pc = .countUnlock)
    (hlast : d.readyCount + 1 = T → pc = .signal) :
    WorkerStep iters id d l { d with readyCount := d.readyCount + 1 } (l.goto pc)
  | line (hpc : l.pc = .lineLock) : WorkerStep iters id d l d (l.goto .lineUnlock)
  | lock (hpc : l.pc = .loop) (hlt : l.loop < iters) : WorkerStep iters id d l d (l.goto .prev)
  | prev (hpc : l.pc = .prev) : WorkerStep iters id d l d ⟨.loop, next T l.i, l.loop + 1⟩
  | ret (hpc : l.pc = .ret) :
    WorkerStep iters id d l { d with exited := Function.update d.exited id true } (l.goto .done)

section Steps
variable {d d' : Data} {l k : Loc} {b : Bool} {id : Fin T}

theorem main_step (h : Edge b (contentionTest T l) d d' k) : MainStep T d l d' k := by
  unfold contentionTest at h
  split at h <;> rename_i hpc
  · split at h <;> rename_i hi
    · obtain ⟨rfl, rfl⟩ := h
      exact .launch hpc hi
    · obtain ⟨rfl, rfl⟩ := h
      exact .launched hpc hi
  · cases h
    exact .create hpc
  · cases h
    split <;> rename_i hlt
    · exact .wait hpc hlt
    · exact .ready hpc hlt
  · obtain ⟨rfl, rfl⟩ := h
    exact .cond hpc
  · obtain ⟨rfl, rfl⟩ := h
    exact .readyUnlock hpc
  · split at h <;> rename_i hi
    · obtain ⟨rfl, rfl⟩ := h
      exact .release hpc
    · cases h
      exact .released hpc
  · simp only [Edge] at h
    split at h
    · split at h <;> cases h
      exact .join hpc
    · cases h
      exact .joined hpc
  · exact h.elim

theorem worker_step (h : Edge b (threadFunc iters id l) d d' k) : WorkerStep iters id d l d' k := by
  unfold threadFunc at h
  split at h <;> rename_i hpc
  · simp only [Edge] at h
    split at h <;> rename_i hc <;> cases h
    exact .begin hpc hc
  · obtain ⟨rfl, rfl⟩ := h
    exact .onward (.first hpc)
  · obtain ⟨rfl, rfl⟩ := h
    exact .onward (.countLock hpc)
  · cases h
    refine .count hpc ?_ fun hlast => if_pos hlast
    split
    · exact .inl rfl
    · exact .inr rfl
  · obtain ⟨rfl, rfl⟩ := h
    exact .onward (.signal hpc)
  · obtain ⟨rfl, rfl⟩ := h
    exact .onward (.countUnlock hpc)
  · obtain ⟨rfl, rfl⟩ := h
    exact .line hpc
  · obtain ⟨rfl, rfl⟩ := h
    exact .onward (.lineUnlock hpc)
  · split at h <;> rename_i hlt
    · obtain ⟨rfl, rfl⟩ := h
      exact .lock hpc hlt
    · obtain ⟨rfl, rfl⟩ := h
      exact .onward (.leave hpc hlt)
  · obtain ⟨rfl, rfl⟩ := h
    exact .prev hpc
  · cases h
    exact .ret hpc
  · exact h.elim

/-! ### What a step keeps -/

theorem MainStep.ok (hs : MainStep T d l d' k) (h : MainOk T d l) (hle : d.readyCount ≤ T) :
    MainOk T d' k := by
  unfold MainOk at h ⊢
  cases hs with
  | launch hpc hi =>
    simp only [hpc, Loc.goto] at h ⊢
    exact ⟨hi, h.2⟩
  | launched hpc hi =>
    simp only [hpc, Loc.goto] at h ⊢
    exact h.2.trans (by omega)
  | create hpc =>
    simp only [hpc] at h
    exact ⟨h.1, rfl⟩
  | wait hpc hlt =>
    simp only [hpc, Loc.goto] at h ⊢
    exact ⟨h, hlt⟩
  | ready hpc hge =>
    simp only [hpc, Loc.goto] at h ⊢
    omega
  | cond hpc | readyUnlock hpc | release hpc | released hpc | join hpc | joined hpc =>
    simp only [hpc, Loc.goto] at h ⊢
    omega

theorem MainStep.data (hs : MainStep T d l d' k) (h : MainOk T d l) :
    d.created ≤ d'.created ∧ d'.exited = d.exited ∧ d'.readyCount = d.readyCount := by
  cases hs with
  | create hpc =>
    simp only [MainOk, hpc] at h
    exact ⟨by simp only; omega, rfl, rfl⟩
  | _ => exact ⟨Nat.le_refl _, rfl, rfl⟩

/-- An unlocked `start_mutex` is not locked again. -/
theorem MainStep.released_mono (hs : MainStep T d l d' k) (h : Released id l) : Released id k := by
  unfold Released at h ⊢
  cases hs with
  | release hpc =>
    simp only [hpc] at h ⊢
    rcases h with ⟨-, h⟩ | h | h
    · exact .inl ⟨trivial, by omega⟩
    · cases h
    · cases h
  | released hpc | join hpc => exact .inr (.inl rfl)
  | joined hpc => exact .inr (.inr rfl)
  | launch hpc | launched hpc | create hpc | wait hpc | ready hpc | cond hpc | readyUnlock hpc =>
    simp [hpc] at h

theorem Onward.place {pc : Pc} (hs : Onward T iters l pc) (h : PlaceOk iters l) :
    PlaceOk iters (l.goto pc) ∧ pc ≠ .begin ∧ l.pc ≠ .begin ∧ (pc = .done ↔ l.pc = .done) ∧
      pc ≠ .prev ∧ l.pc ≠ .prev ∧ counted pc = counted l.pc := by
  unfold PlaceOk at h ⊢
  cases hs with
  | leave hpc hend =>
    simp only [hpc, Loc.goto, moves] at h ⊢
    refine ⟨by omega, by simp [counted]⟩
  | lineUnlock hpc =>
    simp only [hpc, Loc.goto, moves] at h ⊢
    refine ⟨by omega, by simp [counted]⟩
  | first hpc | countLock hpc | signal hpc | countUnlock hpc =>
    simp only [hpc, Loc.goto, moves] at h ⊢
    exact ⟨h, by simp [counted]⟩

theorem WorkerStep.ok (hs : WorkerStep iters id d l d' k) (h : WorkerOk iters id d l) :
    WorkerOk iters id d' k := by
  obtain ⟨hplace, hindex, hloop, hcreated, hexited⟩ := h
  cases hs with
  | onward ho =>
    obtain ⟨hp, -, hne, hdone, -⟩ := ho.place hplace
    exact ⟨hp, hindex, hloop, fun _ => hcreated hne, hexited.trans hdone.symm⟩
  | begin hpc hc =>
    simp only [PlaceOk, hpc] at hplace
    refine ⟨?_, hindex, hloop, fun _ => hc, ?_⟩
    · simpa [PlaceOk, Loc.goto, moves] using hplace
    · simpa [Loc.goto, hpc] using hexited
  | count hpc hpc' hlast =>
    simp only [PlaceOk, hpc] at hplace
    refine ⟨?_, hindex, hloop, fun _ => hcreated (by simp [hpc]), ?_⟩
    · rcases hpc' with rfl | rfl <;> simpa [PlaceOk, Loc.goto, moves] using hplace
    · rcases hpc' with rfl | rfl <;> simpa [Loc.goto, hpc] using hexited
  | line hpc =>
    simp only [PlaceOk, hpc] at hplace
    refine ⟨?_, hindex, hloop, fun _ => hcreated (by simp [hpc]), ?_⟩
    · simpa [PlaceOk, Loc.goto, moves] using hplace
    · simpa [Loc.goto, hpc] using hexited
  | lock hpc hlt =>
    refine ⟨hlt, hindex, hloop, fun _ => hcreated (by simp [hpc]), ?_⟩
    simpa [Loc.goto, hpc] using hexited
  | prev hpc =>
    simp only [PlaceOk, hpc] at hplace
    refine ⟨?_, ?_, by simp only; omega, fun _ => hcreated (by simp [hpc]), ?_⟩
    · simp only [PlaceOk, moves]
      omega
    · -- one step on around the ring
      have hsum : id.val + moves ⟨.loop, next T l.i, l.loop + 1⟩ = id + moves l + 1 := by
        simp only [moves]
        omega
      rw [hsum]
      simp only [next]
      rw [hindex, Nat.mod_add_mod]
    · simpa [hpc] using hexited
  | ret hpc =>
    simp only [PlaceOk, hpc] at hplace
    refine ⟨hplace, hindex, hloop, fun _ => hcreated (by simp [hpc]), ?_⟩
    simp [Loc.goto]

/-- A step changes nothing that another thread relies on. -/
theorem WorkerStep.other (hs : WorkerStep iters id d l d' k) {v : Fin T} (hv : v ≠ id) {lv : Loc}
    (h : WorkerOk iters v d lv) : WorkerOk iters v d' lv := by
  obtain ⟨hplace, hindex, hloop, hcreated, hexited⟩ := h
  cases hs with
  | ret hpc =>
    refine ⟨hplace, hindex, hloop, hcreated, ?_⟩
    simp only
    rwa [Function.update_of_ne fun he => hv (Fin.ext he)]
  | _ => exact ⟨hplace, hindex, hloop, hcreated, hexited⟩

theorem WorkerStep.main_ok (hs : WorkerStep iters id d l d' k) {lm : Loc} (h : MainOk T d lm)
    (hcount : l.pc = .count → lm.pc ≠ .cond ∧ d.readyCount < T) : MainOk T d' lm := by
  cases hs with
  | count hpc hpc' hlast =>
    obtain ⟨hcond, hlt⟩ := hcount hpc
    obtain ⟨pc, i, loop⟩ := lm
    cases pc with
    | cond => exact absurd rfl hcond
    | readyUnlock | release | join | done =>
      simp only [MainOk] at h
      omega
    | _ => exact h
  | _ => exact h

theorem WorkerStep.counted (hs : WorkerStep iters id d l d' k) (h : PlaceOk iters l) :
    d'.readyCount = d.readyCount ∧ counted k.pc = counted l.pc ∨
      d'.readyCount = d.readyCount + 1 ∧ counted l.pc = false ∧ counted k.pc = true := by
  cases hs with
  | onward ho =>
    obtain ⟨-, -, -, -, -, -, hcounted⟩ := ho.place h
    exact .inl ⟨rfl, hcounted⟩
  | count hpc hpc' hlast =>
    refine .inr ⟨rfl, by rw [hpc]; rfl, ?_⟩
    rcases hpc' with rfl | rfl <;> rfl
  | begin hpc | line hpc | lock hpc | prev hpc | ret hpc => exact .inl ⟨rfl, by rw [hpc]; rfl⟩

theorem WorkerStep.of_passed (hs : WorkerStep iters id d l d' k) (hk : passed k.pc = true) :
    passed l.pc = true ∨ l.pc = .lineLock := by
  cases hs with
  | onward ho =>
    left
    cases ho with
    | leave hpc | lineUnlock hpc => rw [hpc]; rfl
    | first hpc | countLock hpc | signal hpc | countUnlock hpc => cases hk
  | begin hpc hc => cases hk
  | count hpc hpc' hlast => rcases hpc' with rfl | rfl <;> cases hk
  | line hpc => exact .inr hpc
  | lock hpc | prev hpc | ret hpc => exact .inl (by rw [hpc]; rfl)

/-- Only the lock of the next mutex brings the thread on. -/
theorem WorkerStep.front (hs : WorkerStep iters id d l d' k) (h : WorkerOk iters id d l) :
    moves l ≤ moves k ∧ (front k = front l ∨
      l.pc = .loop ∧ l.loop < iters ∧ front l = moves l ∧ front k = moves l + 1) := by
  cases hs with
  | onward ho =>
    obtain ⟨-, -, -, -, hp, hp', -⟩ := ho.place h.place
    exact ⟨Nat.le_refl _, .inl (by simp [LockRing.front, Loc.goto, hp, hp', moves])⟩
  | count hpc hpc' hlast =>
    refine ⟨Nat.le_refl _, .inl ?_⟩
    rcases hpc' with rfl | rfl <;> simp [LockRing.front, Loc.goto, hpc, moves]
  | begin hpc | line hpc | ret hpc =>
    exact ⟨Nat.le_refl _, .inl (by simp [LockRing.front, Loc.goto, hpc, moves])⟩
  | lock hpc hlt =>
    refine ⟨Nat.le_refl _, .inr ⟨hpc, hlt, by simp [LockRing.front, hpc], ?_⟩⟩
    simp [LockRing.front, Loc.goto, moves]
  | prev hpc =>
    have hpos := h.loop_pos
    refine ⟨by simp only [moves]; omega, .inl ?_⟩
    simp only [LockRing.front, hpc, moves, if_true]
    simp only [reduceCtorEq, if_false]
    omega

end Steps

end LinuxSummer.LockRing
