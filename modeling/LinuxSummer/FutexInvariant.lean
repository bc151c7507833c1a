import LinuxSummer.FutexModel

namespace LinuxSummer.Futex
set_option linter.unusedSectionVars false
variable {T C : Type*} [DecidableEq T] [DecidableEq C]

/-- The futex words that a thread at `pc` may be queued on. `cond_broadcast` moves a
sleeper of a condition variable to the mutex word. -/
def SleepsOn (pc : Pc C) (f : FutexAddr C) : Prop :=
  (∃ k, pc = .lockSleep k ∧ f = .mutex) ∨
    ∃ c seq, pc = .condSleep c seq ∧ (f = .cond c ∨ f = .mutex)

/-- Program counters that only the holder of the mutex reaches. -/
def HolderPc (pc : Pc C) : Prop :=
  (∃ k, pc = .unlockXchg k) ∨ (∃ c, pc = .condLoad c) ∨ ∃ c, pc = .condOr c

section LocalMoves
variable (l : Local C) (pc : Pc C)
attribute [local simp] tryFail tryDone unlockDone

@[simp] theorem goto_pc : (l.goto pc).pc = pc := rfl
@[simp] theorem goto_holds : (l.goto pc).holds = l.holds := rfl
@[simp] theorem goto_woken : (l.goto pc).woken = l.woken := rfl

@[simp] theorem tryFail_holds (k : TryFrom C) : (tryFail l k).holds = l.holds := by
  cases k
  · rfl
  · simp only [tryFail]
    split <;> rfl

@[simp] theorem tryFail_woken (k : TryFrom C) : (tryFail l k).woken = l.woken := by
  cases k
  · rfl
  · simp only [tryFail]
    split <;> rfl

@[simp] theorem lockDone_holds (k : LockFrom C) : (lockDone l k).holds = true := by
  cases k <;> rfl

@[simp] theorem lockDone_woken (k : LockFrom C) : (lockDone l k).woken = l.woken := by
  cases k <;> rfl

@[simp] theorem tryDone_holds (k : TryFrom C) : (tryDone l k).holds = true := by
  cases k <;> simp [tryDone]

@[simp] theorem tryDone_woken (k : TryFrom C) : (tryDone l k).woken = l.woken := by
  cases k <;> simp [tryDone]

@[simp] theorem unlockDone_holds (k : UnlockFrom C) : (unlockDone l k).holds = l.holds := by
  cases k <;> rfl

@[simp] theorem unlockDone_woken (k : UnlockFrom C) : (unlockDone l k).woken = l.woken := by
  cases k <;> rfl

@[simp] theorem not_sleepsOn_tryFail (k : TryFrom C) (f : FutexAddr C) :
    ¬ SleepsOn (tryFail l k).pc f := by
  cases k
  · simp [tryFail, SleepsOn]
  · simp only [tryFail]
    split <;> simp [SleepsOn]

@[simp] theorem not_sleepsOn_lockDone (k : LockFrom C) (f : FutexAddr C) :
    ¬ SleepsOn (lockDone l k).pc f := by
  cases k <;> simp [lockDone, SleepsOn]

@[simp] theorem not_sleepsOn_tryDone (k : TryFrom C) (f : FutexAddr C) :
    ¬ SleepsOn (tryDone l k).pc f := by
  cases k
  · simp [tryDone, SleepsOn]
  · exact not_sleepsOn_lockDone l _ f

@[simp] theorem not_sleepsOn_unlockDone (k : UnlockFrom C) (f : FutexAddr C) :
    ¬ SleepsOn (unlockDone l k).pc f := by
  cases k <;> simp [unlockDone, SleepsOn]

@[simp] theorem not_holderPc_tryFail (k : TryFrom C) : ¬ HolderPc (tryFail l k).pc := by
  cases k
  · simp [tryFail, HolderPc]
  · simp only [tryFail]
    split <;> simp [HolderPc]

@[simp] theorem not_holderPc_unlockDone (k : UnlockFrom C) : ¬ HolderPc (unlockDone l k).pc := by
  cases k <;> simp [unlockDone, HolderPc]

end LocalMoves

/-- Every thread is in at most one futex queue, once. -/
structure QueueWf (q : FutexAddr C → List T) : Prop where
  nodup : ∀ f, (q f).Nodup
  disjoint : ∀ {t f f'}, t ∈ q f → t ∈ q f' → f = f'

theorem WakePolicy.admits.mem {p : WakePolicy} {q : List T} {w : T} (h : p.admits q w) :
    w ∈ q := by
  cases p with
  | any => exact h
  | longest => exact List.mem_of_mem_head? h

theorem mem_enqueue (g : Shared T C) (f f' : FutexAddr C) (t u : T) :
    u ∈ (g.enqueue f t).queue f' ↔ u ∈ g.queue f' ∨ (f' = f ∧ u = t) := by
  by_cases h : f' = f
  · subst h
    simp [Shared.enqueue]
  · simp [Shared.enqueue, h]

theorem dequeue_other (g : Shared T C) {f f' : FutexAddr C} (h : f' ≠ f) (w : T) :
    (g.dequeue f w).queue f' = g.queue f' := by
  simp [Shared.dequeue, h]

theorem dequeue_queue (g : Shared T C) (f f' : FutexAddr C) (w : T) :
    (g.dequeue f w).queue f' = g.queue f' ∨ (g.dequeue f w).queue f' = (g.queue f').erase w := by
  by_cases h : f' = f
  · subst h
    exact .inr (by simp [Shared.dequeue])
  · exact .inl (dequeue_other g h w)

theorem mem_dequeue {g : Shared T C} (hq : QueueWf g.queue) (f f' : FutexAddr C) (w u : T) :
    u ∈ (g.dequeue f w).queue f' ↔ u ∈ g.queue f' ∧ ¬(f' = f ∧ u = w) := by
  by_cases h : f' = f
  · subst h
    simp only [Shared.dequeue, Function.update_self, (hq.nodup f').mem_erase_iff]
    tauto
  · simp [Shared.dequeue, h]

theorem mem_requeue {g : Shared T C} (hq : QueueWf g.queue) (c : C) (f : FutexAddr C) (w u : T) :
    u ∈ (g.requeue c w).queue f ↔
      f ≠ .cond c ∧ (u ∈ g.queue f ∨ (f = .mutex ∧ u ∈ g.queue (.cond c) ∧ u ≠ w)) := by
  by_cases h : f = .cond c
  · subst h
    simp [Shared.requeue]
  · by_cases hm : f = .mutex
    · subst hm
      simp [Shared.requeue, (hq.nodup (.cond c)).mem_erase_iff, and_comm]
    · simp [Shared.requeue, h, hm]

theorem queueWf_enqueue {g : Shared T C} (hq : QueueWf g.queue) (f : FutexAddr C) (t : T)
    (ht : ∀ f', t ∉ g.queue f') : QueueWf (g.enqueue f t).queue := by
  constructor
  · intro f'
    by_cases h : f' = f
    · subst h
      simp only [Shared.enqueue, Function.update_self]
      exact (hq.nodup f').append (List.nodup_singleton t) (by simpa using ht f')
    · simpa only [Shared.enqueue, Function.update_of_ne h] using hq.nodup f'
  · intro u f₁ f₂ h₁ h₂
    rw [mem_enqueue] at h₁ h₂
    rcases h₁ with h₁ | ⟨rfl, hu⟩
    · rcases h₂ with h₂ | ⟨-, hu⟩
      · exact hq.disjoint h₁ h₂
      · exact absurd (hu ▸ h₁) (ht f₁)
    · rcases h₂ with h₂ | ⟨rfl, -⟩
      · exact absurd (hu ▸ h₂) (ht f₂)
      · rfl

theorem queueWf_dequeue {g : Shared T C} (hq : QueueWf g.queue) (f : FutexAddr C) (w : T) :
    QueueWf (g.dequeue f w).queue := by
  constructor
  · intro f'
    by_cases h : f' = f
    · subst h
      simpa only [Shared.dequeue, Function.update_self] using (hq.nodup f').erase w
    · simpa only [Shared.dequeue, Function.update_of_ne h] using hq.nodup f'
  · intro u f₁ f₂ h₁ h₂
    exact hq.disjoint ((mem_dequeue hq f f₁ w u).mp h₁).1 ((mem_dequeue hq f f₂ w u).mp h₂).1

theorem queueWf_requeue {g : Shared T C} (hq : QueueWf g.queue) (c : C) (w : T) :
    QueueWf (g.requeue c w).queue := by
  constructor
  · intro f
    by_cases h : f = .cond c
    · subst h
      simp [Shared.requeue]
    · by_cases hm : f = .mutex
      · subst hm
        simp only [Shared.requeue, Function.update_of_ne h, Function.update_self]
        refine (hq.nodup .mutex).append ((hq.nodup (.cond c)).erase w) ?_
        intro u hu hu'
        exact h (hq.disjoint hu (List.mem_of_mem_erase hu'))
      · simpa only [Shared.requeue, Function.update_of_ne h, Function.update_of_ne hm]
          using hq.nodup f
  · intro u f₁ f₂ h₁ h₂
    obtain ⟨hn₁, h₁⟩ := (mem_requeue hq c f₁ w u).mp h₁
    obtain ⟨hn₂, h₂⟩ := (mem_requeue hq c f₂ w u).mp h₂
    rcases h₁ with h₁ | ⟨rfl, h₁, -⟩ <;> rcases h₂ with h₂ | ⟨rfl, h₂, -⟩
    · exact hq.disjoint h₁ h₂
    · exact absurd (hq.disjoint h₁ h₂) hn₁
    · exact absurd (hq.disjoint h₂ h₁) hn₂
    · rfl

/-- The program counters of a thread on its way from a futex queue to setting
`MUTEX_SLEEPING`. -/
def WokenPc (pc : Pc C) : Prop :=
  (∃ k, pc = .lockXchg k) ∨ (∃ i c, pc = .tryLoad (.spin i (.condWaited c))) ∨
    (∃ i c, pc = .tryOr (.spin i (.condWaited c))) ∨ ∃ c, pc = .condOr c

/-- What a step of `t` does to the mutex word, and to the flags of `t`. -/
inductive WordStep (t : T) (g : Shared T C) (l : Local C) (g' : Shared T C) (l' : Local C) :
    Prop where
  /-- A woken sleeper that goes on is marked as such. -/
  | same (state : g'.state = g.state) (holds : l'.holds = l.holds)
      (woken : l'.woken = l.woken ∧ ((∀ f, ¬ SleepsOn l.pc f) ∨ ∃ f, t ∈ g.queue f) ∨
        l'.woken = true ∧ WokenPc l'.pc)
  /-- The mutex was free and is taken, by `fetch_or` or by `exchange`. -/
  | acquire (unlocked : g.state &&& mutexLocked = 0) (awake : ∀ f, ¬ SleepsOn l.pc f)
      (state : g'.state = g.state ||| mutexLocked ∧ l'.woken = l.woken ∨
        g'.state = mutexLocked ||| mutexSleeping ∧ l'.woken = false)
      (holds : l'.holds = true)
  /-- The mutex was taken and stays so. -/
  | contend (locked : g.state &&& mutexLocked ≠ 0) (awake : ∀ f, ¬ SleepsOn l.pc f)
      (state : g'.state = g.state ||| mutexLocked ∧ l'.woken = l.woken ∨
        g'.state = mutexLocked ||| mutexSleeping ∧ l'.woken = false)
      (holds : l'.holds = l.holds)
  /-- `mutex_unlock` exchanges the state to 0. -/
  | release (holder : HolderPc l.pc) (state : g'.state = 0) (holds : l'.holds = false)
      (woken : l'.woken = l.woken)
      (wake : g.state &&& mutexSleeping = 0 ∨ ∃ k, l'.pc = .unlockWake k)
  /-- `cond_wait` sets `MUTEX_SLEEPING` before it returns. -/
  | mark (holder : HolderPc l.pc) (state : g'.state = g.state ||| mutexSleeping)
      (holds : l'.holds = l.holds) (woken : l'.woken = false)

/-- What a step of `t` does to the futex queues. -/
inductive QueueStep (p : WakePolicy) (t : T) (g : Shared T C) (l : Local C) (g' : Shared T C)
    (l' : Local C) : Prop where
  | same (queue : g'.queue = g.queue) (off : ∀ f, SleepsOn l.pc f → t ∉ g.queue f)
      (after : ∀ f, ¬ SleepsOn l'.pc f)
  /-- `futex_wait` compares the word and puts the thread to sleep. -/
  | sleep (f : FutexAddr C) (queue : g'.queue = (g.enqueue f t).queue)
      (word : f = .mutex ∧ g.state = mutexLocked ||| mutexSleeping ∨
        ∃ c seq, l.pc = .condFutex c seq ∧ f = .cond c ∧ g.seq c = seq)
      (before : ∀ f, ¬ SleepsOn l.pc f) (after : SleepsOn l'.pc f)
  /-- `futex_wait` returns although nobody woke the sleeper. -/
  | leave (wf : QueueWf g.queue → QueueWf g'.queue)
      (mem : QueueWf g.queue → ∀ u f, u ∈ g'.queue f ↔ u ∈ g.queue f ∧ ¬(u = t ∧ SleepsOn l.pc f))
      (order : ∀ f, g'.queue f = g.queue f ∨ g'.queue f = (g.queue f).erase t)
      (after : ∀ f, ¬ SleepsOn l'.pc f)
  | wake (f : FutexAddr C) (w : T) (admits : p.admits (g.queue f) w)
      (queue : g'.queue = (g.dequeue f w).queue) (before : ∀ f, ¬ SleepsOn l.pc f)
      (after : ∀ f, ¬ SleepsOn l'.pc f)
  | requeue (c : C) (w : T) (admits : p.admits (g.queue (.cond c)) w)
      (queue : g'.queue = (g.requeue c w).queue) (before : ∀ f, ¬ SleepsOn l.pc f)
      (after : ∀ f, ¬ SleepsOn l'.pc f)

variable {p : WakePolicy} {t : T} {g g' : Shared T C} {l l' : Local C} {a : Act T C}

theorem step_cases {s s' : Config T (Shared T C) (Local C)}
    (h : (system T C p).next s (t, a) = some s') :
    ∃ g' l', next p t s.shared (s.thread t) a = some (g', l') ∧
      s' = ⟨g', Function.update s.thread t l'⟩ :=
  Threads.step_cases h

/-- Entering an operation moves the program counter only. -/
theorem enter_local {op : Op C} (h : enter l op = some l') :
    l'.holds = l.holds ∧ l'.woken = l.woken ∧ (∀ f, ¬ SleepsOn l'.pc f) ∧
      (HolderPc l'.pc → l.holds = true) := by
  cases op with
  | trylock | lock | condSignal | condBroadcast =>
    cases h
    simp [SleepsOn, HolderPc]
  | unlock | condWait =>
    simp only [enter] at h
    split at h <;> cases h
    simp_all [SleepsOn, HolderPc]

theorem next_call {op : Op C} (h : next p t g l (.call op) = some (g', l')) :
    l.pc = .idle ∧ g' = g ∧ enter l op = some l' := by
  simp only [next] at h
  split at h
  · rename_i hpc
    obtain ⟨l₁, hl, he⟩ := Option.map_eq_some_iff.mp h
    cases he
    exact ⟨hpc, rfl, hl⟩
  · cases h

theorem next_word (h : next p t g l a = some (g', l')) : WordStep t g l g' l' := by
  cases a with
  | call op =>
    obtain ⟨hpc, rfl, he⟩ := next_call h
    exact .same rfl (enter_local he).1 (.inl ⟨(enter_local he).2.1, .inl (by simp [hpc, SleepsOn])⟩)
  | run =>
    simp only [next, run] at h
    cases hpc : l.pc <;> simp only [hpc] at h
    case idle => cases h
    case tryOr k =>
      split at h <;> rename_i hs <;> cases h
      · exact .contend hs (by simp [hpc, SleepsOn]) (.inl ⟨rfl, tryFail_woken l k⟩)
          (tryFail_holds l k)
      · exact .acquire (not_not.mp hs) (by simp [hpc, SleepsOn]) (.inl ⟨rfl, tryDone_woken l k⟩)
          (tryDone_holds l k)
    case lockXchg k =>
      split at h <;> rename_i hs <;> cases h
      · exact .contend hs (by simp [hpc, SleepsOn]) (.inr ⟨rfl, rfl⟩) rfl
      · exact .acquire (not_not.mp hs) (by simp [hpc, SleepsOn])
          (.inr ⟨rfl, lockDone_woken _ k⟩) (lockDone_holds _ k)
    case unlockXchg k =>
      split at h <;> rename_i hs <;> cases h
      · exact .release (by simp [hpc, HolderPc]) rfl rfl rfl (.inr ⟨k, rfl⟩)
      · exact .release (by simp [hpc, HolderPc]) rfl (unlockDone_holds _ k) (unlockDone_woken _ k)
          (.inl (not_not.mp hs))
    case condOr c =>
      cases h
      exact .mark (by simp [hpc, HolderPc]) rfl rfl rfl
    case tryLoad k =>
      split at h <;> cases h
      · exact .same rfl (tryFail_holds l k) (.inl ⟨tryFail_woken l k, .inl (by simp [hpc, SleepsOn])⟩)
      · exact .same rfl rfl (.inl ⟨rfl, .inl (by simp [hpc, SleepsOn])⟩)
    case unlockWake k =>
      split at h <;> cases h
      exact .same rfl (unlockDone_holds l k)
        (.inl ⟨unlockDone_woken l k, .inl (by simp [hpc, SleepsOn])⟩)
    case condSpin c seq i =>
      split at h
      · cases h
        exact .same rfl rfl (.inl ⟨rfl, .inl (by simp [hpc, SleepsOn])⟩)
      · split at h <;> cases h <;>
          exact .same rfl rfl (.inl ⟨rfl, .inl (by simp [hpc, SleepsOn])⟩)
    case condLoad c | signalAdd c | broadcastAdd c =>
      cases h
      exact .same rfl rfl (.inl ⟨rfl, .inl (by simp [hpc, SleepsOn])⟩)
    case lockSleep k | condSleep c seq =>
      split at h <;> cases h
      exact .same rfl rfl (.inr ⟨rfl, by simp [WokenPc]⟩)
    case lockWait k | condFutex c seq | signalWake c | broadcastRequeue c =>
      split at h <;> cases h <;> exact .same rfl rfl (.inl ⟨rfl, .inl (by simp [hpc, SleepsOn])⟩)
  | wake w =>
    simp only [next, wake] at h
    split at h
    case h_1 hpc =>
      split at h <;> cases h
      exact .same rfl (unlockDone_holds l _)
        (.inl ⟨unlockDone_woken l _, .inl (by simp [hpc, SleepsOn])⟩)
    case h_2 hpc | h_3 hpc =>
      split at h <;> cases h
      exact .same rfl rfl (.inl ⟨rfl, .inl (by simp [hpc, SleepsOn])⟩)
    case h_4 => cases h
  | spurious =>
    simp only [next, spurious] at h
    split at h
    case h_1 hpc =>
      split at h <;> rename_i ht <;> cases h
      exact .same rfl rfl (.inl ⟨rfl, .inr ⟨_, ht⟩⟩)
    case h_2 hpc =>
      split at h <;> rename_i ht <;> cases h
      exact .same rfl rfl (.inl ⟨rfl, .inr (ht.elim (fun h => ⟨_, h⟩) fun h => ⟨_, h⟩)⟩)
    case h_3 => cases h

theorem next_queue (h : next p t g l a = some (g', l')) : QueueStep p t g l g' l' := by
  cases a with
  | call op =>
    obtain ⟨hpc, rfl, he⟩ := next_call h
    exact .same rfl (by simp [hpc, SleepsOn]) (enter_local he).2.2.1
  | run =>
    simp only [next, run] at h
    cases hpc : l.pc <;> simp only [hpc] at h
    case idle => cases h
    case tryLoad k =>
      split at h <;> cases h
      · exact .same rfl (by simp [hpc, SleepsOn]) (not_sleepsOn_tryFail l k)
      · exact .same rfl (by simp [hpc, SleepsOn]) (by simp [SleepsOn])
    case tryOr k =>
      split at h <;> cases h
      · exact .same rfl (by simp [hpc, SleepsOn]) (not_sleepsOn_tryFail l k)
      · exact .same rfl (by simp [hpc, SleepsOn]) (not_sleepsOn_tryDone l k)
    case lockXchg k =>
      split at h <;> cases h
      · exact .same rfl (by simp [hpc, SleepsOn]) (by simp [SleepsOn])
      · exact .same rfl (by simp [hpc, SleepsOn]) (not_sleepsOn_lockDone _ k)
    case unlockXchg k =>
      split at h <;> cases h
      · exact .same rfl (by simp [hpc, SleepsOn]) (by simp [SleepsOn])
      · exact .same rfl (by simp [hpc, SleepsOn]) (not_sleepsOn_unlockDone _ k)
    case unlockWake k =>
      split at h <;> cases h
      exact .same rfl (by simp [hpc, SleepsOn]) (not_sleepsOn_unlockDone l k)
    case lockWait k =>
      split at h <;> rename_i hs <;> cases h
      · exact .sleep .mutex rfl (.inl ⟨rfl, hs⟩) (by simp [hpc, SleepsOn]) (by simp [SleepsOn])
      · exact .same rfl (by simp [hpc, SleepsOn]) (by simp [SleepsOn])
    case condFutex c seq =>
      split at h <;> rename_i hs <;> cases h
      · exact .sleep (.cond c) rfl (.inr ⟨c, seq, hpc, rfl, hs⟩) (by simp [hpc, SleepsOn])
          (by simp [SleepsOn])
      · exact .same rfl (by simp [hpc, SleepsOn]) (by simp [SleepsOn])
    case lockSleep k =>
      split at h <;> rename_i ht <;> cases h
      refine .same rfl ?_ (by simp [SleepsOn])
      rintro f (⟨k', -, rfl⟩ | ⟨c, seq, hs, -⟩)
      · exact ht
      · simp [hpc] at hs
    case condSleep c seq =>
      split at h <;> rename_i ht <;> cases h
      obtain ⟨hc, hm⟩ := not_or.mp ht
      refine .same rfl ?_ (by simp [SleepsOn])
      rintro f (⟨k', hs, -⟩ | ⟨c', seq', hs, hf⟩)
      · simp [hpc] at hs
      · rw [hpc] at hs
        cases hs
        rcases hf with rfl | rfl
        · exact hc
        · exact hm
    case condSpin c seq i =>
      split at h
      · cases h
        exact .same rfl (by simp [hpc, SleepsOn]) (by simp [SleepsOn])
      · split at h <;> cases h <;> exact .same rfl (by simp [hpc, SleepsOn]) (by simp [SleepsOn])
    case condLoad c | condOr c | signalAdd c | broadcastAdd c =>
      cases h
      exact .same rfl (by simp [hpc, SleepsOn]) (by simp [SleepsOn])
    case signalWake c | broadcastRequeue c =>
      split at h <;> cases h
      exact .same rfl (by simp [hpc, SleepsOn]) (by simp [SleepsOn])
  | wake w =>
    simp only [next, wake] at h
    split at h
    case h_1 hpc =>
      split at h <;> rename_i hw <;> cases h
      exact .wake .mutex w hw rfl (by simp [hpc, SleepsOn]) (not_sleepsOn_unlockDone l _)
    case h_2 hpc =>
      split at h <;> rename_i hw <;> cases h
      exact .wake (.cond _) w hw rfl (by simp [hpc, SleepsOn]) (by simp [SleepsOn])
    case h_3 hpc =>
      split at h <;> rename_i hw <;> cases h
      exact .requeue _ w hw rfl (by simp [hpc, SleepsOn]) (by simp [SleepsOn])
    case h_4 => cases h
  | spurious =>
    simp only [next, spurious] at h
    split at h
    case h_1 k hpc =>
      split at h <;> cases h
      refine .leave (fun hq => queueWf_dequeue hq _ t) (fun hq u f => ?_) (fun f => ?_)
        (by simp [SleepsOn])
      · rw [mem_dequeue hq]
        simp [hpc, SleepsOn, and_comm]
      · exact dequeue_queue g .mutex f t
    case h_2 c seq hpc =>
      split at h <;> cases h
      refine .leave (fun hq => queueWf_dequeue (queueWf_dequeue hq _ t) _ t)
        (fun hq u f => ?_) (fun f => ?_) (by simp [SleepsOn])
      · rw [mem_dequeue (queueWf_dequeue hq _ t), mem_dequeue hq]
        simp only [hpc, SleepsOn]
        grind
      · by_cases hf : f = .mutex
        · subst hf
          exact .inr (by simp [Shared.dequeue])
        · rw [dequeue_other _ hf]
          exact dequeue_queue g (.cond c) f t
    case h_3 => cases h

/-- The values of the mutex word under the default protocol. -/
def WordRange (w : Word) : Prop :=
  w = 0 ∨ w = mutexLocked ∨ w = mutexLocked ||| mutexSleeping

theorem WordRange.unlocked {w : Word} (hw : WordRange w) (h : w &&& mutexLocked = 0) : w = 0 := by
  rcases hw with rfl | rfl | rfl
  · rfl
  · exact absurd h (by decide)
  · exact absurd h (by decide)

theorem WordRange.ne_zero {w : Word} (h : w &&& mutexLocked ≠ 0) : w ≠ 0 := by
  rintro rfl
  exact h (by decide)

theorem WordRange.or_locked {w : Word} (hw : WordRange w) :
    WordRange (w ||| mutexLocked) ∧ w ||| mutexLocked ≠ 0 := by
  rcases hw with rfl | rfl | rfl
  · exact ⟨.inr (.inl (by decide)), by decide⟩
  · exact ⟨.inr (.inl (by decide)), by decide⟩
  · exact ⟨.inr (.inr (by decide)), by decide⟩

theorem WordRange.or_sleeping {w : Word} (hw : WordRange w) (h : w ≠ 0) :
    w ||| mutexSleeping = mutexLocked ||| mutexSleeping := by
  rcases hw with rfl | rfl | rfl
  · exact absurd rfl h
  · rfl
  · decide

/-- Who holds the mutex, what its word is then, and who is in which futex queue. -/
structure Inv (s : Config T (Shared T C) (Local C)) : Prop where
  word : WordRange s.shared.state
  holder_locked : ∀ t, (s.thread t).holds = true → s.shared.state ≠ 0
  holder_unique : ∀ t u, (s.thread t).holds = true → (s.thread u).holds = true → t = u
  holder_pc : ∀ t, HolderPc (s.thread t).pc → (s.thread t).holds = true
  queue_wf : QueueWf s.shared.queue
  asleep : ∀ t f, t ∈ s.shared.queue f → SleepsOn (s.thread t).pc f

theorem inv_start : Inv (start T C) := by
  constructor
  · exact .inl rfl
  · simp [start]
  · simp [start]
  · simp [start, HolderPc]
  · constructor <;> simp [start]
  · simp [start]

theorem next_holderPc (hh : HolderPc l.pc → l.holds = true)
    (h : next p t g l a = some (g', l')) : HolderPc l'.pc → l'.holds = true := by
  cases a with
  | call op =>
    obtain ⟨-, rfl, he⟩ := next_call h
    intro hpc
    rw [(enter_local he).1]
    exact (enter_local he).2.2.2 hpc
  | run =>
    simp only [next, run] at h
    cases hpc : l.pc <;> simp only [hpc] at h hh
    case idle => cases h
    case tryLoad k =>
      split at h <;> cases h
      · exact fun hc => absurd hc (not_holderPc_tryFail l k)
      · simp [HolderPc]
    case tryOr k =>
      split at h <;> cases h
      · exact fun hc => absurd hc (not_holderPc_tryFail l k)
      · exact fun _ => tryDone_holds l k
    case lockXchg k =>
      split at h <;> cases h
      · simp [HolderPc]
      · exact fun _ => lockDone_holds _ k
    case unlockXchg k =>
      split at h <;> cases h
      · simp [HolderPc]
      · exact fun hc => absurd hc (not_holderPc_unlockDone _ k)
    case unlockWake k =>
      split at h <;> cases h
      exact fun hc => absurd hc (not_holderPc_unlockDone l k)
    case condLoad c =>
      cases h
      exact fun _ => hh (by simp [HolderPc])
    case condSpin c seq i =>
      split at h
      · cases h
        simp [HolderPc]
      · split at h <;> cases h <;> simp [HolderPc]
    case condOr c | signalAdd c | broadcastAdd c =>
      cases h
      simp [HolderPc]
    case lockWait k | lockSleep k | condFutex c seq | condSleep c seq | signalWake c |
        broadcastRequeue c =>
      split at h <;> cases h <;> simp [HolderPc]
  | wake w =>
    simp only [next, wake] at h
    split at h
    · split at h <;> cases h
      exact fun hc => absurd hc (not_holderPc_unlockDone l _)
    · split at h <;> cases h
      simp [HolderPc]
    · split at h <;> cases h
      simp [HolderPc]
    · cases h
  | spurious =>
    simp only [next, spurious] at h
    split at h
    · split at h <;> cases h
      simp [HolderPc]
    · split at h <;> cases h
      simp [HolderPc]
    · cases h

/-- A sleeper of a condition variable may be moved to the mutex word. -/
theorem SleepsOn.moved {pc : Pc C} {c : C} (h : SleepsOn pc (.cond c)) : SleepsOn pc .mutex := by
  rcases h with ⟨k, -, hf⟩ | ⟨c', seq, hpc, -⟩
  · cases hf
  · exact .inr ⟨c', seq, hpc, .inr rfl⟩

/-- Where the members of the queues after a step come from. -/
theorem QueueStep.mem (hq : QueueWf g.queue) (ht : ∀ f, t ∈ g.queue f → SleepsOn l.pc f)
    (h : QueueStep p t g l g' l') {u : T} {f : FutexAddr C} (hu : u ∈ g'.queue f) :
    (u = t → SleepsOn l'.pc f) ∧
      (u ≠ t → u ∈ g.queue f ∨ f = .mutex ∧ ∃ c, u ∈ g.queue (.cond c)) := by
  cases h with
  | same queue off after =>
    rw [queue] at hu
    exact ⟨fun he => absurd (he ▸ hu) (off f (ht f (he ▸ hu))), fun _ => .inl hu⟩
  | sleep f₀ queue word before after =>
    rw [queue, mem_enqueue] at hu
    rcases hu with hu | ⟨rfl, rfl⟩
    · exact ⟨fun he => absurd (ht f (he ▸ hu)) (before f), fun _ => .inl hu⟩
    · exact ⟨fun _ => after, fun hne => absurd rfl hne⟩
  | leave wf mem order after =>
    rw [mem hq] at hu
    exact ⟨fun he => absurd ⟨he, ht f (he ▸ hu.1)⟩ hu.2, fun _ => .inl hu.1⟩
  | wake f₀ w admits queue before after =>
    rw [queue, mem_dequeue hq] at hu
    exact ⟨fun he => absurd (ht f (he ▸ hu.1)) (before f), fun _ => .inl hu.1⟩
  | requeue c w admits queue before after =>
    rw [queue, mem_requeue hq] at hu
    rcases hu.2 with hu | ⟨rfl, hu, -⟩
    · exact ⟨fun he => absurd (ht f (he ▸ hu)) (before f), fun _ => .inl hu⟩
    · exact ⟨fun he => absurd (ht _ (he ▸ hu)) (before _), fun _ => .inr ⟨rfl, c, hu⟩⟩

theorem QueueStep.wf (hq : QueueWf g.queue) (ht : ∀ f, t ∈ g.queue f → SleepsOn l.pc f)
    (h : QueueStep p t g l g' l') : QueueWf g'.queue := by
  cases h with
  | same queue off after => rwa [queue]
  | sleep f₀ queue word before after =>
    rw [queue]
    exact queueWf_enqueue hq f₀ t fun f hf => before f (ht f hf)
  | leave wf mem order after => exact wf hq
  | wake f₀ w admits queue before after =>
    rw [queue]
    exact queueWf_dequeue hq f₀ w
  | requeue c w admits queue before after =>
    rw [queue]
    exact queueWf_requeue hq c w

section Step
variable {s : Config T (Shared T C) (Local C)}

/-- One step keeps the word in range and locked while somebody else holds the mutex. -/
theorem word_step (hi : Inv s) (h : WordStep t s.shared (s.thread t) g' l') :
    WordRange g'.state ∧ (l'.holds = true → g'.state ≠ 0) ∧
      ∀ u, u ≠ t → (s.thread u).holds = true → g'.state ≠ 0 ∧ l'.holds = false := by
  have free (u : T) (hz : s.shared.state &&& mutexLocked = 0)
      (hu : (s.thread u).holds = true) : False :=
    hi.holder_locked u hu (hi.word.unlocked hz)
  have other (u : T) (hu : u ≠ t) (hh : (s.thread u).holds = true) :
      (s.thread t).holds = false := by
    by_contra ht
    exact hu (hi.holder_unique u t hh (by simpa using ht))
  have taken (hs : g'.state = s.shared.state ||| mutexLocked ∧ l'.woken = (s.thread t).woken ∨
      g'.state = mutexLocked ||| mutexSleeping ∧ l'.woken = false) :
      WordRange g'.state ∧ g'.state ≠ 0 := by
    rcases hs with ⟨hs, -⟩ | ⟨hs, -⟩ <;> rw [hs]
    · exact hi.word.or_locked
    · exact ⟨.inr (.inr rfl), by decide⟩
  cases h with
  | same state holds woken =>
    rw [state, holds]
    exact ⟨hi.word, hi.holder_locked t, fun u hu hh => ⟨hi.holder_locked u hh, other u hu hh⟩⟩
  | acquire unlocked awake state holds =>
    exact ⟨(taken state).1, fun _ => (taken state).2,
      fun u _ hh => absurd hh fun hh => free u unlocked hh⟩
  | contend locked awake state holds =>
    exact ⟨(taken state).1, fun _ => (taken state).2,
      fun u hu hh => ⟨(taken state).2, holds ▸ other u hu hh⟩⟩
  | release holder state holds woken wake =>
    refine ⟨.inl state, by simp [holds], fun u hu hh => ?_⟩
    exact absurd (hi.holder_unique u t hh (hi.holder_pc t holder)) hu
  | mark holder state holds woken =>
    have ht := hi.holder_pc t holder
    rw [state, hi.word.or_sleeping (hi.holder_locked t ht)]
    exact ⟨.inr (.inr rfl), fun _ => by decide,
      fun u hu hh => absurd (hi.holder_unique u t hh ht) hu⟩

theorem inv_step (hi : Inv s) (h : next p t s.shared (s.thread t) a = some (g', l')) :
    Inv ⟨g', Function.update s.thread t l'⟩ := by
  obtain ⟨hw, hself, hother⟩ := word_step hi (next_word h)
  have hqs := next_queue h
  have hat := hi.asleep t
  constructor
  · exact hw
  · intro u hu
    by_cases hut : u = t
    · subst hut
      exact hself (by simpa using hu)
    · exact (hother u hut (by simpa [hut] using hu)).1
  · intro u v hu hv
    by_cases hut : u = t <;> by_cases hvt : v = t
    · rw [hut, hvt]
    · subst hut
      simp only [Function.update_self, Function.update_of_ne hvt] at hu hv
      simp [(hother v hvt hv).2] at hu
    · subst hvt
      simp only [Function.update_self, Function.update_of_ne hut] at hu hv
      simp [(hother u hut hu).2] at hv
    · exact hi.holder_unique u v (by simpa [hut] using hu) (by simpa [hvt] using hv)
  · intro u hu
    by_cases hut : u = t
    · subst hut
      simpa using next_holderPc (hi.holder_pc u) h (by simpa using hu)
    · simpa [hut] using hi.holder_pc u (by simpa [hut] using hu)
  · exact hqs.wf hi.queue_wf hat
  · intro u f hu
    obtain ⟨hmine, hothers⟩ := hqs.mem hi.queue_wf hat hu
    by_cases hut : u = t
    · subst hut
      simpa using hmine rfl
    · simp only [Function.update_of_ne hut]
      rcases hothers hut with hf | ⟨rfl, c, hc⟩
      · exact hi.asleep u f hf
      · exact (hi.asleep u _ hc).moved

theorem inv_reachable {ok : Config T (Shared T C) (Local C) → T × Act T C → Prop}
    (h : (system T C p).Reachable ok s) : Inv s := by
  apply System.reachable_invariant (fun s hs => hs ▸ inv_start) _ h
  intro s a s' _ hi _ hn
  obtain ⟨g, l, hnext, rfl⟩ := step_cases hn
  exact inv_step hi hnext

end Step
end LinuxSummer.Futex
