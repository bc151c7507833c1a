import LinuxSummer.FutexInvariant

/-! A signal that finds waiting threads lets at least one of them go, and a broadcast lets
all of them go. The kernel wakes the longest sleeper, and `seq` does not come round within
one `cond_wait`. -/
namespace LinuxSummer.Futex
set_option linter.unusedSectionVars false
variable {T C : Type*} [DecidableEq T] [DecidableEq C]
variable {p : WakePolicy} {t : T} {g g' : Shared T C} {l l' : Local C} {a : Act T C}
variable {s s' : Config T (Shared T C) (Local C)} {c : C} {n : ℕ} {w : T}

/-- In `cond_wait`, with `seq` read and not yet past the `futex_wait`. -/
def BeforeSleep (pc : Pc C) (c : C) (seq : Word) : Prop :=
  pc = .unlockXchg (.cond c seq) ∨ pc = .unlockWake (.cond c seq) ∨
    (∃ i, pc = .condSpin c seq i) ∨ pc = .condFutex c seq

/-- The waiting part of `cond_wait`: `seq` is read and the mutex released. -/
def InWait (pc : Pc C) (c : C) : Prop :=
  ∃ seq, pc = .unlockWake (.cond c seq) ∨ (∃ i, pc = .condSpin c seq i) ∨
    pc = .condFutex c seq ∨ pc = .condSleep c seq

/-- Fewer than 2^32 signals and broadcasts since a waiting thread read `seq`. -/
def FewSignals (s : Config T (Shared T C) (Local C)) : Prop :=
  ∀ t c, InWait (s.thread t).pc c → s.shared.adds c < (s.thread t).since + 2 ^ 32

/-- `seq` counts the signals and broadcasts modulo 2^32. -/
def SeqCounts (s : Config T (Shared T C) (Local C)) : Prop :=
  (∀ c, s.shared.seq c = BitVec.ofNat 32 (s.shared.adds c)) ∧
    ∀ t c seq, BeforeSleep (s.thread t).pc c seq →
      seq = BitVec.ofNat 32 (s.thread t).since ∧ (s.thread t).since ≤ s.shared.adds c

section LocalMoves
variable (l : Local C)

@[simp] theorem goto_waits (pc : Pc C) : (l.goto pc).waits = l.waits := rfl

@[simp] theorem tryFail_waits (k : TryFrom C) : (tryFail l k).waits = l.waits := by
  cases k
  · rfl
  · simp only [tryFail]
    split <;> rfl

@[simp] theorem lockDone_waits (k : LockFrom C) : (lockDone l k).waits = l.waits := by
  cases k <;> rfl

@[simp] theorem tryDone_waits (k : TryFrom C) : (tryDone l k).waits = l.waits := by
  cases k <;> simp [tryDone]

@[simp] theorem unlockDone_waits (k : UnlockFrom C) : (unlockDone l k).waits = l.waits := by
  cases k <;> rfl

@[simp] theorem unlockDone_since (k : UnlockFrom C) : (unlockDone l k).since = l.since := by
  cases k <;> rfl

end LocalMoves

/-- Only `cond_signal` and `cond_broadcast` write `seq`, and they add one to it. -/
theorem next_adds (h : next p t g l a = some (g', l')) :
    (g'.seq = g.seq ∧ g'.adds = g.adds) ∨
      ∃ c, (l.pc = .signalAdd c ∧ l'.pc = .signalWake c ∨
          l.pc = .broadcastAdd c ∧ l'.pc = .broadcastRequeue c) ∧
        g'.seq = Function.update g.seq c (g.seq c + 1) ∧
        g'.adds = Function.update g.adds c (g.adds c + 1) := by
  cases a with
  | call op =>
    obtain ⟨-, rfl, -⟩ := next_call h
    exact .inl ⟨rfl, rfl⟩
  | run =>
    simp only [next, run] at h
    cases hpc : l.pc <;> simp only [hpc] at h
    case idle => cases h
    case signalAdd c =>
      cases h
      exact .inr ⟨c, .inl ⟨rfl, rfl⟩, rfl, rfl⟩
    case broadcastAdd c =>
      cases h
      exact .inr ⟨c, .inr ⟨rfl, rfl⟩, rfl, rfl⟩
    case condSpin c seq i =>
      split at h
      · cases h
        exact .inl ⟨rfl, rfl⟩
      · split at h <;> cases h <;> exact .inl ⟨rfl, rfl⟩
    case condLoad c | condOr c =>
      cases h
      exact .inl ⟨rfl, rfl⟩
    all_goals
      split at h <;> cases h
      all_goals exact .inl ⟨rfl, rfl⟩
  | wake w =>
    simp only [next, wake] at h
    split at h
    case h_4 => cases h
    all_goals
      split at h <;> cases h
      exact .inl ⟨rfl, rfl⟩
  | spurious =>
    simp only [next, spurious] at h
    split at h
    case h_3 => cases h
    all_goals
      split at h <;> cases h
      exact .inl ⟨rfl, rfl⟩

/-- What a step does to the place of a thread in `cond_wait`. -/
inductive WaitStep (g : Shared T C) (l l' : Local C) : Prop where
  | outside (load : ∀ c, l'.pc ≠ .condLoad c) (before : ∀ c seq, ¬ BeforeSleep l'.pc c seq)
      (waits : l'.waits = l.waits)
  /-- `cond_wait` is called. -/
  | call (c : C) (pc : l.pc = .idle) (pc' : l'.pc = .condLoad c) (waits : l'.waits = l.waits + 1)
  /-- `cond_wait` reads `seq`. -/
  | load (c : C) (pc : l.pc = .condLoad c) (pc' : l'.pc = .unlockXchg (.cond c (g.seq c)))
      (since : l'.since = g.adds c) (waits : l'.waits = l.waits)
  | onward (c : C) (seq : Word) (before : BeforeSleep l.pc c seq)
      (before' : BeforeSleep l'.pc c seq) (load : ∀ c, l'.pc ≠ .condLoad c)
      (since : l'.since = l.since) (waits : l'.waits = l.waits)

theorem tryFail_wait (k : TryFrom C) : WaitStep g l (tryFail l k) := by
  cases k with
  | call => exact .outside (by simp [tryFail]) (by simp [tryFail, BeforeSleep]) rfl
  | spin i k =>
    simp only [tryFail]
    split <;> exact .outside (by simp) (by simp [BeforeSleep]) rfl

theorem lockDone_wait (k : LockFrom C) (l₁ : Local C) (hw : l₁.waits = l.waits) :
    WaitStep g l (lockDone l₁ k) := by
  cases k <;> exact .outside (by simp [lockDone]) (by simp [lockDone, BeforeSleep]) hw

theorem tryDone_wait (k : TryFrom C) : WaitStep g l (tryDone l k) := by
  cases k with
  | call => exact .outside (by simp [tryDone]) (by simp [tryDone, BeforeSleep]) rfl
  | spin i k => exact lockDone_wait k l rfl

theorem unlockDone_wait {k : UnlockFrom C} (hl : l.pc = .unlockXchg k ∨ l.pc = .unlockWake k)
    (l₁ : Local C) (hs : l₁.since = l.since) (hw : l₁.waits = l.waits) :
    WaitStep g l (unlockDone l₁ k) := by
  cases k with
  | call => exact .outside (by simp [unlockDone]) (by simp [unlockDone, BeforeSleep]) (by simp [hw])
  | cond c seq =>
    refine .onward c seq ?_ (by simp [unlockDone, BeforeSleep]) (by simp [unlockDone])
      (by simp [hs]) (by simp [hw])
    exact hl.elim .inl fun h => .inr (.inl h)

theorem next_wait (h : next p t g l a = some (g', l')) : WaitStep g l l' := by
  cases a with
  | call op =>
    obtain ⟨hpc, -, he⟩ := next_call h
    cases op with
    | trylock | lock | condSignal | condBroadcast =>
      cases he
      exact .outside (by simp) (by simp [BeforeSleep]) rfl
    | unlock =>
      simp only [enter] at he
      split at he <;> cases he
      exact .outside (by simp) (by simp [BeforeSleep]) rfl
    | condWait c =>
      simp only [enter] at he
      split at he <;> cases he
      exact .call c hpc rfl rfl
  | run =>
    simp only [next, run] at h
    cases hpc : l.pc <;> simp only [hpc] at h
    case idle => cases h
    case tryLoad k =>
      split at h <;> cases h
      · exact tryFail_wait k
      · exact .outside (by simp) (by simp [BeforeSleep]) rfl
    case tryOr k =>
      split at h <;> cases h
      · exact tryFail_wait k
      · exact tryDone_wait k
    case lockXchg k =>
      split at h <;> cases h
      · exact .outside (by simp) (by simp [BeforeSleep]) rfl
      · exact lockDone_wait k _ rfl
    case unlockXchg k =>
      split at h <;> cases h
      · cases k with
        | call => exact .outside (by simp) (by simp [BeforeSleep]) rfl
        | cond c seq =>
          exact .onward c seq (.inl hpc) (.inr (.inl rfl)) (by simp) rfl rfl
      · exact unlockDone_wait (.inl hpc) _ rfl rfl
    case unlockWake k =>
      split at h <;> cases h
      exact unlockDone_wait (.inr hpc) l rfl rfl
    case condLoad c =>
      cases h
      exact .load c hpc rfl rfl rfl
    case condSpin c seq i =>
      split at h
      · cases h
        exact .outside (by simp) (by simp [BeforeSleep]) rfl
      · split at h <;> cases h
        · exact .onward c seq (.inr (.inr (.inl ⟨i, hpc⟩))) (.inr (.inr (.inl ⟨_, rfl⟩))) (by simp)
            rfl rfl
        · exact .onward c seq (.inr (.inr (.inl ⟨i, hpc⟩))) (.inr (.inr (.inr rfl))) (by simp)
            rfl rfl
    case condOr c | signalAdd c | broadcastAdd c =>
      cases h
      exact .outside (by simp) (by simp [BeforeSleep]) rfl
    case lockWait k | lockSleep k | condFutex c seq | condSleep c seq | signalWake c |
        broadcastRequeue c =>
      split at h <;> cases h
      all_goals exact .outside (by simp) (by simp [BeforeSleep]) rfl
  | wake w =>
    simp only [next, wake] at h
    split at h
    case h_1 k hpc =>
      split at h <;> cases h
      exact unlockDone_wait (.inr hpc) l rfl rfl
    case h_2 | h_3 =>
      split at h <;> cases h
      exact .outside (by simp) (by simp [BeforeSleep]) rfl
    case h_4 => cases h
  | spurious =>
    simp only [next, spurious] at h
    split at h
    case h_3 => cases h
    all_goals
      split at h <;> cases h
      exact .outside (by simp) (by simp [BeforeSleep]) rfl

theorem before_unique {pc : Pc C} {c c' : C} {seq seq' : Word} (h : BeforeSleep pc c seq)
    (h' : BeforeSleep pc c' seq') : c = c' ∧ seq = seq' := by
  rcases h with rfl | rfl | ⟨i, rfl⟩ | rfl <;>
    simpa [BeforeSleep] using h'

theorem seqCounts_step (hi : SeqCounts s) (h : next p t s.shared (s.thread t) a = some (g', l')) :
    SeqCounts ⟨g', Function.update s.thread t l'⟩ := by
  have hadds (c : C) : s.shared.adds c ≤ g'.adds c ∧
      g'.seq c = BitVec.ofNat 32 (g'.adds c) := by
    rcases next_adds h with ⟨hs, ha⟩ | ⟨c', -, hs, ha⟩
    · rw [hs, ha]
      exact ⟨Nat.le_refl _, hi.1 c⟩
    · rw [hs, ha]
      by_cases hc : c = c'
      · subst hc
        simp only [Function.update_self, hi.1 c, BitVec.ofNat_add]
        exact ⟨Nat.le_succ _, rfl⟩
      · simp only [Function.update_of_ne hc]
        exact ⟨Nat.le_refl _, hi.1 c⟩
  refine ⟨fun c => (hadds c).2, fun u c seq hu => ?_⟩
  by_cases hut : u = t
  · subst hut
    simp only [Function.update_self] at hu ⊢
    cases next_wait h with
    | outside load before waits => exact absurd hu (before c seq)
    | call c' pc pc' waits => simp [pc', BeforeSleep] at hu
    | load c' pc pc' since waits =>
      obtain ⟨hc, hs⟩ := before_unique (.inl pc') hu
      rw [← hc, ← hs, since]
      exact ⟨hi.1 c', (hadds c').1⟩
    | onward c' seq' before before' load since waits =>
      obtain ⟨hc, hs⟩ := before_unique before' hu
      obtain ⟨h₁, h₂⟩ := hi.2 u c' seq' before
      rw [← hc, ← hs, since]
      exact ⟨h₁, Nat.le_trans h₂ (hadds c').1⟩
  · simp only [Function.update_of_ne hut] at hu ⊢
    obtain ⟨h₁, h₂⟩ := hi.2 u c seq hu
    exact ⟨h₁, Nat.le_trans h₂ (hadds c).1⟩

theorem seqCounts_reachable {ok : Config T (Shared T C) (Local C) → T × Act T C → Prop}
    (h : (system T C p).Reachable ok s) : SeqCounts s := by
  apply System.reachable_invariant _ _ h
  · rintro s rfl
    exact ⟨fun c => rfl, fun t c seq hb => by simp [start, BeforeSleep] at hb⟩
  · intro s a s' _ hi _ hn
    obtain ⟨g, l, hnext, rfl⟩ := step_cases hn
    exact seqCounts_step hi hnext

/-- In its call number `n` of `cond_wait`, and in the ones before, `w` will not sleep on
the futex of `c` any more. -/
def Gone (w : T) (c : C) (n : ℕ) (s : Config T (Shared T C) (Local C)) : Prop :=
  n ≤ (s.thread w).waits ∧ ((s.thread w).waits = n →
    w ∉ s.shared.queue (.cond c) ∧ (∀ c', (s.thread w).pc ≠ .condLoad c') ∧
      ∀ seq, BeforeSleep (s.thread w).pc c seq → (s.thread w).since < s.shared.adds c)

theorem adds_le (h : next p t g l a = some (g', l')) (c : C) : g.adds c ≤ g'.adds c := by
  rcases next_adds h with ⟨-, ha⟩ | ⟨c', -, -, ha⟩
  · exact Nat.le_of_eq (congrFun ha c).symm
  · rw [ha, Function.update_apply]
    split
    · subst_vars
      exact Nat.le_succ _
    · exact Nat.le_refl _

theorem waits_le (h : next p t g l a = some (g', l')) : l.waits ≤ l'.waits := by
  cases next_wait h <;> omega

/-- A thread that read `seq` before the last increment does not fall asleep on it. -/
theorem still_asleep (hi : Inv s) (hc : SeqCounts s) (hf : FewSignals s)
    (hb : ∀ seq, BeforeSleep (s.thread t).pc c seq → (s.thread t).since < s.shared.adds c)
    (h : next p t s.shared (s.thread t) a = some (g', l')) (ht : t ∈ g'.queue (.cond c)) :
    t ∈ s.shared.queue (.cond c) := by
  cases next_queue h with
  | same queue off after => rwa [queue] at ht
  | leave wf mem order after => exact ((mem hi.queue_wf t _).mp ht).1
  | wake f w admits queue before after =>
    rw [queue, mem_dequeue hi.queue_wf] at ht
    exact ht.1
  | requeue c' w admits queue before after =>
    rw [queue, mem_requeue hi.queue_wf] at ht
    exact ht.2.resolve_right fun hm => by simp at hm
  | sleep f queue word before after =>
    rw [queue, mem_enqueue] at ht
    refine ht.resolve_right fun ⟨hfc, _⟩ => ?_
    rcases word with ⟨rfl, -⟩ | ⟨c', seq, hpc, rfl, hseq⟩
    · cases hfc
    · -- the futex compares `seq` with a value that is between 1 and 2^32 - 1 increments old
      cases hfc
      have hbs : BeforeSleep (s.thread t).pc c seq := .inr (.inr (.inr hpc))
      obtain ⟨hold, -⟩ := hc.2 t c seq hbs
      have hlt := hb seq hbs
      have hub := hf t c ⟨seq, .inr (.inr (.inl hpc))⟩
      have heq := congrArg BitVec.toNat ((hc.1 c).symm.trans (hseq.trans hold))
      simp only [BitVec.toNat_ofNat] at heq
      omega

/-- What `Gone` says is kept by every later step. -/
theorem gone_step (hi : Inv s) (hc : SeqCounts s) (hf : FewSignals s) (hg : Gone w c n s)
    (h : next p t s.shared (s.thread t) a = some (g', l')) :
    Gone w c n ⟨g', Function.update s.thread t l'⟩ := by
  obtain ⟨hle, hg⟩ := hg
  by_cases hw : w = t
  · subst hw
    simp only [Gone, Function.update_self]
    refine ⟨Nat.le_trans hle (waits_le h), fun hn => ?_⟩
    have hn' : (s.thread w).waits = n := Nat.le_antisymm (hn ▸ waits_le h) hle
    obtain ⟨hq, hl, hb⟩ := hg hn'
    refine ⟨fun hmem => ?_, ?_, ?_⟩
    · exact hq (still_asleep hi hc hf hb h hmem)
    · intro c' hpc
      cases next_wait h with
      | outside load before waits => exact load c' hpc
      | call c' pc pc' waits => omega
      | load c' pc pc' since waits => exact hl c' pc
      | onward c' seq before before' load since waits => exact load _ hpc
    · intro seq hbs
      cases next_wait h with
      | outside load before waits => exact absurd hbs (before c seq)
      | call c' pc pc' waits => omega
      | load c' pc pc' since waits => exact absurd pc (hl c')
      | onward c' seq' before before' load since waits =>
        obtain ⟨rfl, rfl⟩ := before_unique before' hbs
        rw [since]
        exact Nat.lt_of_lt_of_le (hb _ before) (adds_le h _)
  · simp only [Gone, Function.update_of_ne hw]
    refine ⟨hle, fun hn => ?_⟩
    obtain ⟨hq, hl, hb⟩ := hg hn
    refine ⟨fun hmem => ?_, hl, fun seq hbs => Nat.lt_of_lt_of_le (hb seq hbs) (adds_le h c)⟩
    rcases ((next_queue h).mem hi.queue_wf (hi.asleep t) hmem).2 hw with hmem | ⟨hm, -⟩
    · exact hq hmem
    · cases hm

/-- A sleeper of `c` is inside the `futex_wait` of `cond_wait`. -/
theorem condSleep_of_mem (hi : Inv s) (hw : w ∈ s.shared.queue (.cond c)) :
    ∃ c' seq, (s.thread w).pc = .condSleep c' seq := by
  rcases hi.asleep w _ hw with ⟨k, -, hf⟩ | ⟨c', seq, hpc, -⟩
  · cases hf
  · exact ⟨c', seq, hpc⟩

/-- Leaving the `futex_wait` of `cond_wait` leads out of the waiting part. -/
theorem next_condSleep {c' : C} {seq : Word} (hpc : l.pc = .condSleep c' seq)
    (h : next p t g l a = some (g', l')) :
    l'.waits = l.waits ∧ (∀ c, l'.pc ≠ .condLoad c) ∧ ∀ c seq, ¬ BeforeSleep l'.pc c seq := by
  cases next_wait h with
  | outside load before waits => exact ⟨waits, load, before⟩
  | call c pc pc' waits => simp [hpc] at pc
  | load c pc pc' since waits => simp [hpc] at pc
  | onward c seq before before' load since waits => simp [hpc, BeforeSleep] at before

/-- A thread taken off the queue of `c` is gone from it for the rest of its call. -/
theorem gone_of_removed (hi : Inv s) (hw : w ∈ s.shared.queue (.cond c))
    (h : next p t s.shared (s.thread t) a = some (g', l')) (hw' : w ∉ g'.queue (.cond c)) :
    Gone w c (s.thread w).waits ⟨g', Function.update s.thread t l'⟩ := by
  obtain ⟨c', seq, hpc⟩ := condSleep_of_mem hi hw
  by_cases hwt : w = t
  · subst hwt
    obtain ⟨hn, hl, hb⟩ := next_condSleep hpc h
    simp only [Gone, Function.update_self]
    exact ⟨Nat.le_of_eq hn.symm, fun _ => ⟨hw', hl, fun seq hbs => absurd hbs (hb c seq)⟩⟩
  · simp only [Gone, Function.update_of_ne hwt]
    exact ⟨Nat.le_refl _, fun _ => ⟨hw', by simp [hpc], by simp [hpc, BeforeSleep]⟩⟩

/-- A sleeper stays in its call of `cond_wait` as long as it is queued. -/
theorem waits_of_queued (hi : Inv s) (hw : w ∈ s.shared.queue (.cond c))
    (h : next p t s.shared (s.thread t) a = some (g', l')) :
    (Function.update s.thread t l' w).waits = (s.thread w).waits := by
  by_cases hwt : w = t
  · subst hwt
    obtain ⟨c', seq, hpc⟩ := condSleep_of_mem hi hw
    simpa using (next_condSleep hpc h).1
  · rw [Function.update_of_ne hwt]

/-- Before the wake-up of a signal: one of the threads `q` that slept at its increment is
gone, or they all sleep on, ahead of every later sleeper. -/
def Ahead (q : List T) (c : C) (num : T → ℕ) (s : Config T (Shared T C) (Local C)) : Prop :=
  (∃ w ∈ q, Gone w c (num w) s) ∨
    q <+: s.shared.queue (.cond c) ∧ ∀ w ∈ q, (s.thread w).waits = num w

/-- With the longest sleeper woken first, a step keeps the order of the sleepers `q` or
takes one of them off the queue. -/
theorem prefix_step {q : List T} (hi : Inv s) (hq : q <+: s.shared.queue (.cond c))
    (h : next .longest t s.shared (s.thread t) a = some (g', l')) :
    q <+: g'.queue (.cond c) ∨ ∃ w ∈ q, w ∉ g'.queue (.cond c) := by
  obtain ⟨r, hr⟩ := hq
  cases next_queue h with
  | same queue off after => exact .inl ⟨r, by rw [queue, hr]⟩
  | sleep f queue word before after =>
    by_cases hf : .cond c = f
    · exact .inl ⟨r ++ [t], by simp [queue, Shared.enqueue, ← hf, ← hr]⟩
    · exact .inl ⟨r, by simp [queue, Shared.enqueue, hf, hr]⟩
  | leave wf mem order after =>
    by_cases ht : t ∈ q
    · refine .inr ⟨t, ht, fun ht' => ?_⟩
      have hmem : t ∈ s.shared.queue (.cond c) := hr ▸ List.mem_append_left r ht
      exact ((mem hi.queue_wf t _).mp ht').2 ⟨rfl, hi.asleep t _ hmem⟩
    · rcases order (.cond c) with ho | ho
      · exact .inl ⟨r, by rw [ho, hr]⟩
      · exact .inl ⟨r.erase t, by rw [ho, ← hr, List.erase_append_right _ ht]⟩
  | wake f w admits queue before after =>
    by_cases hf : .cond c = f
    · subst hf
      cases q with
      | nil => exact .inl List.nil_prefix
      | cons x q =>
        have hx : some x = some w := by rw [← admits, ← hr, List.cons_append, List.head?_cons]
        refine .inr ⟨x, List.mem_cons_self, fun hm => ?_⟩
        rw [queue, mem_dequeue hi.queue_wf] at hm
        exact hm.2 ⟨rfl, Option.some.inj hx⟩
    · exact .inl ⟨r, by rw [queue, dequeue_other _ hf, hr]⟩
  | requeue c' w admits queue before after =>
    by_cases hcc : c = c'
    · subst hcc
      cases q with
      | nil => exact .inl List.nil_prefix
      | cons x q =>
        refine .inr ⟨x, List.mem_cons_self, fun hm => ?_⟩
        rw [queue, mem_requeue hi.queue_wf] at hm
        exact hm.1 rfl
    · exact .inl ⟨r, by simp [queue, Shared.requeue, hcc, hr]⟩

theorem ahead_step {q : List T} {num : T → ℕ} (hi : Inv s) (hc : SeqCounts s)
    (hf : FewSignals s) (ha : Ahead q c num s)
    (h : next .longest t s.shared (s.thread t) a = some (g', l')) :
    Ahead q c num ⟨g', Function.update s.thread t l'⟩ := by
  rcases ha with ⟨w, hw, hg⟩ | ⟨hq, hn⟩
  · exact .inl ⟨w, hw, gone_step hi hc hf hg h⟩
  · rcases prefix_step hi hq h with hq' | ⟨w, hw, hw'⟩
    · refine .inr ⟨hq', fun w hw => ?_⟩
      rw [← hn w hw]
      exact waits_of_queued hi (hq.subset hw) h
    · refine .inl ⟨w, hw, ?_⟩
      rw [← hn w hw]
      exact gone_of_removed hi (hq.subset hw) h hw'

/-- Before the requeue of a broadcast: a thread that slept at its increment sleeps on or
is gone. -/
def GoneOrQueued (w : T) (c : C) (n : ℕ) (s : Config T (Shared T C) (Local C)) : Prop :=
  Gone w c n s ∨ w ∈ s.shared.queue (.cond c) ∧ (s.thread w).waits = n

theorem goneOrQueued_step (hi : Inv s) (hc : SeqCounts s) (hf : FewSignals s)
    (hj : GoneOrQueued w c n s) (h : next p t s.shared (s.thread t) a = some (g', l')) :
    GoneOrQueued w c n ⟨g', Function.update s.thread t l'⟩ := by
  rcases hj with hg | ⟨hm, hn⟩
  · exact .inl (gone_step hi hc hf hg h)
  · by_cases hm' : w ∈ g'.queue (.cond c)
    · exact .inr ⟨hm', (waits_of_queued hi hm h).trans hn⟩
    · exact .inl (hn ▸ gone_of_removed hi hm h hm')

/-- The environment of the signal property: `seq` does not come round. -/
def fewSignals (s : Config T (Shared T C) (Local C)) (_ : T × Act T C) : Prop := FewSignals s

/-- Steps of the threads other than `u`. -/
def byOthers (u : T) (s : Config T (Shared T C) (Local C)) (a : T × Act T C) : Prop :=
  FewSignals s ∧ a.1 ≠ u

/-- From `s` on, `w` is not asleep on the futex of `c` as long as it is in call number `n`
of `cond_wait`. -/
def LetGo (p : WakePolicy) (w : T) (c : C) (n : ℕ) (s : Config T (Shared T C) (Local C)) : Prop :=
  ∀ s', (system T C p).Run fewSignals s s' → (s'.thread w).waits = n →
    w ∉ s'.shared.queue (.cond c)

theorem LetGo.of_gone (hr : (system T C p).Reachable fewSignals s) (hg : Gone w c n s) :
    LetGo p w c n s := by
  intro s' hrun hn
  have hgone : (system T C p).Reachable fewSignals s' ∧ Gone w c n s' := by
    apply System.run_preserves (I := fun s => (system T C p).Reachable fewSignals s ∧
      Gone w c n s) _ hrun ⟨hr, hg⟩
    rintro s ⟨t, a⟩ s' ⟨hr, hg⟩ hf hn
    refine ⟨System.reachable_step hr hf hn, ?_⟩
    obtain ⟨g, l, hnext, rfl⟩ := step_cases hn
    exact gone_step (inv_reachable hr) (seqCounts_reachable hr) hf hg hnext
  exact (hgone.2.2 hn).1

/-- In the waiting part and not yet woken from the futex. -/
def Waiting (s : Config T (Shared T C) (Local C)) (w : T) (c : C) : Prop :=
  InWait (s.thread w).pc c ∧
    ((∃ seq, (s.thread w).pc = .condSleep c seq) → w ∈ s.shared.queue (.cond c))

theorem waiting_of_mem (hi : Inv s) (hw : w ∈ s.shared.queue (.cond c)) : Waiting s w c := by
  rcases hi.asleep w _ hw with ⟨k, -, hf⟩ | ⟨c', seq, hpc, hf | hf⟩
  · cases hf
  · cases hf
    exact ⟨⟨seq, .inr (.inr (.inr hpc))⟩, fun _ => hw⟩
  · cases hf

/-- The increment of `cond_signal` and of `cond_broadcast`: who is waiting but not asleep
will not fall asleep. -/
theorem gone_of_add {u : T} (hc : SeqCounts s)
    (hpc : (s.thread u).pc = .signalAdd c ∨ (s.thread u).pc = .broadcastAdd c)
    (h : next p u s.shared (s.thread u) .run = some (g', l')) (hw : InWait (s.thread w).pc c)
    (hq : w ∉ s.shared.queue (.cond c)) :
    Gone w c (s.thread w).waits ⟨g', Function.update s.thread u l'⟩ := by
  have hwu : w ≠ u := by
    rintro rfl
    obtain ⟨seq, hw | ⟨i, hw⟩ | hw | hw⟩ := hw <;> simp [hw] at hpc
  have hg : g'.queue = s.shared.queue ∧ g'.adds c = s.shared.adds c + 1 := by
    rcases hpc with hpc | hpc <;> simp only [next, run, hpc] at h <;> cases h <;> simp
  simp only [Gone, Function.update_of_ne hwu]
  refine ⟨Nat.le_refl _, fun _ => ⟨by rwa [hg.1], ?_, fun seq hb => ?_⟩⟩
  · obtain ⟨seq, hw | ⟨i, hw⟩ | hw | hw⟩ := hw <;> simp [hw]
  · rw [hg.2]
    exact Nat.lt_succ_of_le (hc.2 w c seq hb).2

theorem add_queue {u : T} (hpc : l.pc = .signalAdd c ∨ l.pc = .broadcastAdd c)
    (h : next p u g l .run = some (g', l')) :
    g'.queue = g.queue ∧ l'.waits = l.waits ∧
      (l.pc = .signalAdd c → l'.pc = .signalWake c) ∧
      (l.pc = .broadcastAdd c → l'.pc = .broadcastRequeue c) := by
  rcases hpc with hpc | hpc <;> simp only [next, run, hpc] at h <;> cases h <;> simp [hpc]

theorem next_signalWake {u : T} (hpc : l.pc = .signalWake c)
    (h : next .longest u g l a = some (g', l')) :
    g.queue (.cond c) = [] ∨
      ∃ w, (g.queue (.cond c)).head? = some w ∧ g' = g.dequeue (.cond c) w := by
  cases a with
  | call op => simp [(next_call h).1] at hpc
  | run =>
    simp only [next, run, hpc] at h
    split at h <;> rename_i hq <;> cases h
    exact .inl hq
  | wake w =>
    simp only [next, wake, hpc] at h
    split at h <;> rename_i hw <;> cases h
    exact .inr ⟨w, hw, rfl⟩
  | spurious => simp [next, spurious, hpc] at h

theorem next_broadcastRequeue {u : T} (hpc : l.pc = .broadcastRequeue c)
    (h : next p u g l a = some (g', l')) : g'.queue (.cond c) = [] := by
  cases a with
  | call op => simp [(next_call h).1] at hpc
  | run =>
    simp only [next, run, hpc] at h
    split at h <;> rename_i hq <;> cases h
    exact hq
  | wake w =>
    simp only [next, wake, hpc] at h
    split at h <;> cases h
    simp [Shared.requeue]
  | spurious => simp [next, spurious, hpc] at h

section Signal
variable {u : T} {s₀ s₁ s₂ s₃ : Config T (Shared T C) (Local C)}

/-- Between the increment and the wake-up, what every step keeps still holds, and the
signaller has not moved. -/
theorem run_byOthers {J : Config T (Shared T C) (Local C) → Prop}
    (hstep : ∀ s t a g' l', (system T C p).Reachable fewSignals s → FewSignals s → J s →
      next p t s.shared (s.thread t) a = some (g', l') → J ⟨g', Function.update s.thread t l'⟩)
    (hr : (system T C p).Reachable fewSignals s₁) (hrun : (system T C p).Run (byOthers u) s₁ s₂)
    (hj : J s₁) :
    (system T C p).Reachable fewSignals s₂ ∧ J s₂ ∧ s₂.thread u = s₁.thread u := by
  apply System.run_preserves (I := fun s => (system T C p).Reachable fewSignals s ∧ J s ∧
    s.thread u = s₁.thread u) _ hrun ⟨hr, hj, rfl⟩
  rintro s ⟨t, a⟩ s' ⟨hr, hj, hu⟩ ⟨hf, hne⟩ hn
  refine ⟨System.reachable_step hr hf hn, ?_⟩
  obtain ⟨g, l, hnext, rfl⟩ := step_cases hn
  refine ⟨hstep s t a g l hr hf hj hnext, ?_⟩
  simpa only [Function.update_of_ne (Ne.symm hne)] using hu

/-- All that wait at the increment of a signal are asleep: the wake-up of that signal then
finds one of them off the queue, or takes one off. -/
theorem signal_of_asleep {num : T → ℕ} (hr : (system T C .longest).Reachable fewSignals s₂)
    (hf : FewSignals s₂) (hu : (s₂.thread u).pc = .signalWake c)
    (ha : Ahead (s₀.shared.queue (.cond c)) c num s₂) (hq : s₀.shared.queue (.cond c) ≠ [])
    (hn : next .longest u s₂.shared (s₂.thread u) a = some (g', l')) :
    ∃ w ∈ s₀.shared.queue (.cond c), Gone w c (num w) ⟨g', Function.update s₂.thread u l'⟩ := by
  have hi := inv_reachable hr
  rcases ahead_step hi (seqCounts_reachable hr) hf ha hn with hg | ⟨hp', -⟩
  · exact hg
  · -- the wake-up cannot have left all of `q` in the queue, as its first element went
    rcases ha with ⟨w, hw, hg⟩ | ⟨hp, -⟩
    · exact ⟨w, hw, gone_step hi (seqCounts_reachable hr) hf hg hn⟩
    · exfalso
      obtain ⟨w, q, hcons⟩ := List.exists_cons_of_ne_nil hq
      obtain ⟨r, hr'⟩ := hp
      rw [hcons, List.cons_append] at hr'
      rcases next_signalWake hu hn with hnil | ⟨v, hv, rfl⟩
      · simp [hnil] at hr'
      · rw [← hr', List.head?_cons] at hv
        cases hv
        have hw := hp'.subset (hcons ▸ List.mem_cons_self)
        exact ((mem_dequeue hi.queue_wf _ _ _ _).mp hw).2 ⟨rfl, rfl⟩

/-- A thread that is waiting and not asleep at the increment is let go. -/
theorem letGo_of_awake (h₀ : (system T C p).Reachable fewSignals s₀) (hf₀ : FewSignals s₀)
    (hadd : (system T C p).next s₀ (u, .run) = some s₁)
    (hrun : (system T C p).Run (byOthers u) s₁ s₂) (hf₂ : FewSignals s₂)
    (hret : (system T C p).next s₂ (u, a) = some s₃)
    (hpc : (s₀.thread u).pc = .signalAdd c ∨ (s₀.thread u).pc = .broadcastAdd c)
    (hw : InWait (s₀.thread w).pc c) (hq : w ∉ s₀.shared.queue (.cond c)) :
    LetGo p w c (s₀.thread w).waits s₃ := by
  have h₁ := System.reachable_step h₀ hf₀ hadd
  obtain ⟨g₁, l₁, hn₁, rfl⟩ := step_cases hadd
  have hg₁ := gone_of_add (seqCounts_reachable h₀) hpc hn₁ hw hq
  obtain ⟨h₂, hg₂, -⟩ := run_byOthers (J := Gone w c (s₀.thread w).waits)
    (fun s t a g' l' hr hf hg hn => gone_step (inv_reachable hr) (seqCounts_reachable hr) hf hg hn)
    h₁ hrun hg₁
  have h₃ := System.reachable_step h₂ hf₂ hret
  obtain ⟨g₃, l₃, hn₃, rfl⟩ := step_cases hret
  exact .of_gone h₃ (gone_step (inv_reachable h₂) (seqCounts_reachable h₂) hf₂ hg₂ hn₃)

/-- A signal lets one of the threads go that are waiting and not yet woken. -/
theorem signal_letGo (h₀ : (system T C .longest).Reachable fewSignals s₀) (hf₀ : FewSignals s₀)
    (hadd : (system T C .longest).next s₀ (u, .run) = some s₁)
    (hrun : (system T C .longest).Run (byOthers u) s₁ s₂) (hf₂ : FewSignals s₂)
    (hret : (system T C .longest).next s₂ (u, a) = some s₃)
    (hpc : (s₀.thread u).pc = .signalAdd c) (hw : Waiting s₀ w c) :
    ∃ w, Waiting s₀ w c ∧ LetGo .longest w c (s₀.thread w).waits s₃ := by
  by_cases hq : w ∈ s₀.shared.queue (.cond c)
  · have h₁ := System.reachable_step h₀ hf₀ hadd
    obtain ⟨g₁, l₁, hn₁, rfl⟩ := step_cases hadd
    obtain ⟨hq₁, hw₁, hu₁, -⟩ := add_queue (.inl hpc) hn₁
    have ha₁ : Ahead (s₀.shared.queue (.cond c)) c (fun w => (s₀.thread w).waits)
        ⟨g₁, Function.update s₀.thread u l₁⟩ :=
      .inr ⟨hq₁ ▸ List.prefix_rfl, fun v hv => waits_of_queued (inv_reachable h₀) hv hn₁⟩
    obtain ⟨h₂, ha₂, hu₂⟩ := run_byOthers
      (J := Ahead (s₀.shared.queue (.cond c)) c fun w => (s₀.thread w).waits)
      (fun s t a g' l' hr hf ha hn =>
        ahead_step (inv_reachable hr) (seqCounts_reachable hr) hf ha hn) h₁ hrun ha₁
    have hpc₂ : (s₂.thread u).pc = .signalWake c := by
      rw [hu₂]
      simpa using hu₁ hpc
    have h₃ := System.reachable_step h₂ hf₂ hret
    obtain ⟨g₃, l₃, hn₃, rfl⟩ := step_cases hret
    obtain ⟨v, hv, hg⟩ := signal_of_asleep h₂ hf₂ hpc₂ ha₂ (List.ne_nil_of_mem hq) hn₃
    exact ⟨v, waiting_of_mem (inv_reachable h₀) hv, .of_gone h₃ hg⟩
  · exact ⟨w, hw, letGo_of_awake h₀ hf₀ hadd hrun hf₂ hret (.inl hpc) hw.1 hq⟩

/-- A broadcast lets every waiting thread go. -/
theorem broadcast_letGo (h₀ : (system T C p).Reachable fewSignals s₀) (hf₀ : FewSignals s₀)
    (hadd : (system T C p).next s₀ (u, .run) = some s₁)
    (hrun : (system T C p).Run (byOthers u) s₁ s₂) (hf₂ : FewSignals s₂)
    (hret : (system T C p).next s₂ (u, a) = some s₃)
    (hpc : (s₀.thread u).pc = .broadcastAdd c) (hw : InWait (s₀.thread w).pc c) :
    LetGo p w c (s₀.thread w).waits s₃ := by
  by_cases hq : w ∈ s₀.shared.queue (.cond c)
  · have h₁ := System.reachable_step h₀ hf₀ hadd
    obtain ⟨g₁, l₁, hn₁, rfl⟩ := step_cases hadd
    obtain ⟨hq₁, -, -, hu₁⟩ := add_queue (.inr hpc) hn₁
    have hw₁ := waits_of_queued (inv_reachable h₀) hq hn₁
    obtain ⟨h₂, hj₂, hu₂⟩ := run_byOthers (J := GoneOrQueued w c (s₀.thread w).waits)
      (fun s t a g' l' hr hf hj hn =>
        goneOrQueued_step (inv_reachable hr) (seqCounts_reachable hr) hf hj hn)
      h₁ hrun (.inr ⟨hq₁ ▸ hq, hw₁⟩)
    have hpc₂ : (s₂.thread u).pc = .broadcastRequeue c := by
      rw [hu₂]
      simpa using hu₁ hpc
    have h₃ := System.reachable_step h₂ hf₂ hret
    obtain ⟨g₃, l₃, hn₃, rfl⟩ := step_cases hret
    rcases hj₂ with hg | ⟨hm, hn⟩
    · exact .of_gone h₃ (gone_step (inv_reachable h₂) (seqCounts_reachable h₂) hf₂ hg hn₃)
    · have hnil := next_broadcastRequeue hpc₂ hn₃
      exact .of_gone h₃ (hn ▸ gone_of_removed (inv_reachable h₂) hm hn₃ (by simp [hnil]))
  · exact letGo_of_awake h₀ hf₀ hadd hrun hf₂ hret (.inr hpc) hw hq

/-- A signal that finds threads waiting lets one of them go, also when those already woken
are not counted, and a broadcast lets all of them go. -/
theorem no_lost_signal (h₀ : (system T C .longest).Reachable fewSignals s₀) (hf₀ : FewSignals s₀)
    (hadd : (system T C .longest).next s₀ (u, .run) = some s₁)
    (hrun : (system T C .longest).Run (byOthers u) s₁ s₂) (hf₂ : FewSignals s₂)
    (hret : (system T C .longest).next s₂ (u, a) = some s₃) :
    ((s₀.thread u).pc = .signalAdd c →
      ((∃ w, InWait (s₀.thread w).pc c) →
        ∃ w, InWait (s₀.thread w).pc c ∧ LetGo .longest w c (s₀.thread w).waits s₃) ∧
      ((∃ w, Waiting s₀ w c) →
        ∃ w, Waiting s₀ w c ∧ LetGo .longest w c (s₀.thread w).waits s₃)) ∧
    ((s₀.thread u).pc = .broadcastAdd c →
      ∀ w, InWait (s₀.thread w).pc c → LetGo .longest w c (s₀.thread w).waits s₃) := by
  refine ⟨fun hpc => ⟨?_, ?_⟩, fun hpc w hw => broadcast_letGo h₀ hf₀ hadd hrun hf₂ hret hpc hw⟩
  · rintro ⟨w, hw⟩
    by_cases hq : w ∈ s₀.shared.queue (.cond c)
    · obtain ⟨v, hv, hl⟩ := signal_letGo h₀ hf₀ hadd hrun hf₂ hret hpc
        (waiting_of_mem (inv_reachable h₀) hq)
      exact ⟨v, hv.1, hl⟩
    · exact ⟨w, hw, letGo_of_awake h₀ hf₀ hadd hrun hf₂ hret (.inl hpc) hw hq⟩
  · rintro ⟨w, hw⟩
    exact signal_letGo h₀ hf₀ hadd hrun hf₂ hret hpc hw

end Signal

/-- Thread 1 falls asleep in `cond_wait` and thread 0 calls `cond_signal`. -/
def signalSchedule {T : Type} (t u : T) : List (T × Act T Unit) :=
  [(u, .call .trylock), (u, .run), (u, .run), (u, .call (.condWait ()))] ++
    List.replicate (condSpins + 3) (u, .run) ++ [(t, .call (.condSignal ()))]

theorem no_lost_signal_two : ∃ s₀ s₃ : Config (Fin 2) (Shared (Fin 2) Unit) (Local Unit),
    InWait (s₀.thread 1).pc () ∧
      ∃ w, InWait (s₀.thread w).pc () ∧ LetGo .longest w () (s₀.thread w).waits s₃ := by
  have few (s : Config (Fin 2) (Shared (Fin 2) Unit) (Local Unit))
      (h : decide (s.shared.adds () < 2 ^ 32) = true) : FewSignals s := by
    intro t c _
    exact Nat.lt_of_lt_of_le (of_decide_eq_true h) (Nat.le_add_left _ _)
  have hrun : ((system (Fin 2) Unit .longest).exec
      (fun s _ => decide (s.shared.adds () < 2 ^ 32)) (start _ _) (signalSchedule 0 1)).any
      (fun s₀ => decide (s₀.shared.adds () < 2 ^ 32) && decide (1 ∈ s₀.shared.queue (.cond ())) &&
        decide ((s₀.thread 0).pc = .signalAdd ()) &&
        ((system (Fin 2) Unit .longest).next s₀ (0, .run)).any fun s₁ =>
          decide (s₁.shared.adds () < 2 ^ 32) &&
            ((system (Fin 2) Unit .longest).next s₁ (0, .wake 1)).isSome) = true := by
    decide +kernel
  obtain ⟨s₀, hs₀, h₀⟩ := (Option.any_eq_true _ _).mp hrun
  simp only [Bool.and_eq_true] at h₀
  obtain ⟨⟨⟨hf₀, hq⟩, hpc⟩, h₁⟩ := h₀
  obtain ⟨s₁, hn₁, h₁⟩ := (Option.any_eq_true _ _).mp h₁
  simp only [Bool.and_eq_true] at h₁
  obtain ⟨s₃, hn₃⟩ := Option.isSome_iff_exists.mp h₁.2
  have hr₀ : (system (Fin 2) Unit .longest).Reachable fewSignals s₀ :=
    ⟨_, rfl, System.run_of_exec (fun s _ hc => few s hc) hs₀⟩
  have hw := (waiting_of_mem (inv_reachable hr₀) (of_decide_eq_true hq)).1
  exact ⟨s₀, s₃, hw, ((no_lost_signal hr₀ (few s₀ hf₀) hn₁ Relation.ReflTransGen.refl
    (few s₁ h₁.1) hn₃).1 (of_decide_eq_true hpc)).1 ⟨1, hw⟩⟩

end LinuxSummer.Futex
