import LinuxSummer.FutexInvariant

/-! The calls of a mutex with one condition variable, by what they still have to do: which accesses
take the mutex, which give it back, and which let a waiting thread go. -/
namespace LinuxSummer.Futex

/-- How far a call is. -/
inductive Stage where
  /-- In `mutex_trylock`, called for itself. -/
  | trying
  | locking
  | unlocking
  /-- In `cond_wait` before the mutex is released. -/
  | entering
  | waiting
  | relocking
  | signalling
  | broadcasting
  /-- The call has had its effect. -/
  | done
deriving DecidableEq

def LockFrom.stage : LockFrom Unit → Stage
  | .call => .locking
  | .condSpun _ => .relocking
  | .condWaited _ => .relocking

def Pc.stage : Pc Unit → Stage
  | .idle => .done
  | .tryLoad .call => .trying
  | .tryOr .call => .trying
  | .tryLoad (.spin _ k) => k.stage
  | .tryOr (.spin _ k) => k.stage
  | .lockXchg k => k.stage
  | .lockWait k => k.stage
  | .lockSleep k => k.stage
  | .unlockXchg .call => .unlocking
  | .unlockXchg (.cond _ _) => .entering
  | .unlockWake .call => .done
  | .unlockWake (.cond _ _) => .waiting
  | .condLoad _ => .entering
  | .condSpin _ _ _ => .waiting
  | .condFutex _ _ => .waiting
  | .condSleep _ _ => .waiting
  | .condOr _ => .done
  | .signalAdd _ => .signalling
  | .signalWake _ => .done
  | .broadcastAdd _ => .broadcasting
  | .broadcastRequeue _ => .done

variable {T : Type*} [DecidableEq T] {p : WakePolicy} {t : T} {g g' : Shared T Unit}
  {l l' : Local Unit} {a : Act T Unit}

/-- About to wake a sleeper of the condition variable, or all of them. -/
def Pc.Waking (pc : Pc Unit) : Prop := pc = .signalWake () ∨ pc = .broadcastRequeue ()

/-- What all steps have in common that neither take nor give back the mutex, and do not count up
`seq`. -/
structure Calm (g : Shared T Unit) (l : Local Unit) (g' : Shared T Unit) (l' : Local Unit) :
    Prop where
  holds : l'.holds = l.holds
  adds : g'.adds () = g.adds ()

/-- The threads asleep on the condition variable. -/
abbrev Shared.sleepers (g : Shared T Unit) : List T := g.queue (.cond ())

/-- What an access of a call does. -/
inductive Move (p : WakePolicy) (t : T) (g : Shared T Unit) (l : Local Unit) (g' : Shared T Unit)
    (l' : Local Unit) : Prop where
  | quiet (stage : l'.pc.stage = l.pc.stage) (awake : l.pc.stage ≠ .waiting)
      (before : ¬ l.pc.Waking) (after : ¬ l'.pc.Waking) (calm : Calm g l g' l')
      (sleepers : g'.sleepers = g.sleepers)
  | acquire (stage : l.pc.stage = .locking ∨ l.pc.stage = .relocking) (stage' : l'.pc.stage = .done)
      (after : ¬ l'.pc.Waking) (unlocked : g.state &&& mutexLocked = 0) (holds : l'.holds = true)
      (adds : g'.adds () = g.adds ()) (sleepers : g'.sleepers = g.sleepers)
  | release (stage : l.pc.stage = .unlocking) (stage' : l'.pc.stage = .done)
      (after : ¬ l'.pc.Waking) (holder : HolderPc l.pc) (holds : l'.holds = false)
      (adds : g'.adds () = g.adds ()) (sleepers : g'.sleepers = g.sleepers)
  /-- `cond_wait` releases the mutex. -/
  | enter (stage : l.pc.stage = .entering) (stage' : l'.pc.stage = .waiting)
      (awake : ∀ seq, l'.pc ≠ .condSleep () seq) (holder : HolderPc l.pc) (holds : l'.holds = false)
      (adds : g'.adds () = g.adds ()) (sleepers : g'.sleepers = g.sleepers)
  | onward (stage : l.pc.stage = .waiting) (stage' : l'.pc.stage = .waiting)
      (before : ∀ seq, l.pc ≠ .condSleep () seq) (after : ∀ seq, l'.pc ≠ .condSleep () seq)
      (since : l'.since = l.since) (calm : Calm g l g' l') (sleepers : g'.sleepers = g.sleepers)
  | sleep (seq : Word) (pc : l.pc = .condFutex () seq) (pc' : l'.pc = .condSleep () seq)
      (word : g.seq () = seq) (calm : Calm g l g' l') (sleepers : g'.sleepers = g.sleepers ++ [t])
  /-- The wait is over, for a new `seq`, a wake-up, or without a reason. -/
  | leave (stage : l.pc.stage = .waiting) (stage' : l'.pc.stage = .relocking)
      (calm : Calm g l g' l') (sleepers : g'.sleepers = g.sleepers.erase t)
  | signalAdd (pc : l.pc = .signalAdd ()) (pc' : l'.pc = .signalWake ()) (holds : l'.holds = l.holds)
      (adds : g'.adds () = g.adds () + 1) (sleepers : g'.sleepers = g.sleepers)
  | signalWake (pc : l.pc = .signalWake ()) (pc' : l'.pc = .idle) (calm : Calm g l g' l')
      (sleepers : g.sleepers = [] ∧ g'.sleepers = [] ∨
        ∃ w, p.admits g.sleepers w ∧ g'.sleepers = g.sleepers.erase w)
  | broadcastAdd (pc : l.pc = .broadcastAdd ()) (pc' : l'.pc = .broadcastRequeue ())
      (holds : l'.holds = l.holds) (adds : g'.adds () = g.adds () + 1)
      (sleepers : g'.sleepers = g.sleepers)
  | broadcastRequeue (pc : l.pc = .broadcastRequeue ()) (pc' : l'.pc = .idle)
      (calm : Calm g l g' l') (sleepers : g'.sleepers = [])

theorem LockFrom.stage_cases (k : LockFrom Unit) : k.stage = .locking ∨ k.stage = .relocking := by
  cases k
  · exact .inl rfl
  · exact .inr rfl
  · exact .inr rfl

theorem LockFrom.stage_ne_waiting (k : LockFrom Unit) : k.stage ≠ .waiting := by
  rcases k.stage_cases with h | h <;> simp [h]

@[simp] theorem not_waking_lockDone (k : LockFrom Unit) : ¬ (lockDone l k).pc.Waking := by
  cases k <;> simp [lockDone, Pc.Waking]

@[simp] theorem stage_lockDone (k : LockFrom Unit) : (lockDone l k).pc.stage = .done := by
  cases k <;> rfl

/-- A turn of the loop of `mutex_lock` in vain. -/
theorem tryFail_spin (i : ℕ) (k : LockFrom Unit) :
    (tryFail l (.spin i k)).pc.stage = k.stage ∧ ¬ (tryFail l (.spin i k)).pc.Waking := by
  simp only [tryFail]
  split <;> exact ⟨rfl, by simp [Pc.Waking]⟩

theorem next_move (htry : l.pc.stage ≠ .trying) (hidle : l.pc ≠ .idle)
    (hasleep : ∀ f, t ∈ g.queue f → SleepsOn l.pc f)
    (h : next p t g l a = some (g', l')) :
    Move p t g l g' l' := by
  have off (hpc : ∀ f, ¬ SleepsOn l.pc f) : g.sleepers = g.sleepers.erase t :=
    (List.erase_of_not_mem fun ht => hpc _ (hasleep _ ht)).symm
  cases a with
  | call op => exact absurd (next_call h).1 hidle
  | run =>
    simp only [next, run] at h
    cases hpc : l.pc <;> simp only [hpc] at h htry
    case idle => exact absurd hpc hidle
    case tryLoad k =>
      obtain _ | ⟨i, k⟩ := k
      · simp [Pc.stage] at htry
      have hstage := tryFail_spin (l := l) i k
      split at h <;> cases h
      · exact .quiet (by rw [hpc, hstage.1]; rfl) (by rw [hpc]; exact k.stage_ne_waiting)
          (by simp [hpc, Pc.Waking]) hstage.2 ⟨by simp, rfl⟩ rfl
      · exact .quiet (by rw [hpc]; rfl) (by rw [hpc]; exact k.stage_ne_waiting)
          (by simp [hpc, Pc.Waking]) (by simp [Pc.Waking]) ⟨rfl, rfl⟩ rfl
    case tryOr k =>
      obtain _ | ⟨i, k⟩ := k
      · simp [Pc.stage] at htry
      have hstage := tryFail_spin (l := l) i k
      split at h <;> rename_i hs <;> cases h
      · exact .quiet (by rw [hpc, hstage.1]; rfl) (by rw [hpc]; exact k.stage_ne_waiting)
          (by simp [hpc, Pc.Waking]) hstage.2 ⟨by simp, rfl⟩ rfl
      · exact .acquire (by rw [hpc]; exact k.stage_cases) (stage_lockDone k) (not_waking_lockDone k)
          (not_not.mp hs) (by simp [tryDone]) rfl rfl
    case lockXchg k =>
      split at h <;> rename_i hs <;> cases h
      · exact .quiet (by rw [hpc]; rfl) (by rw [hpc]; exact k.stage_ne_waiting)
          (by simp [hpc, Pc.Waking]) (by simp [Pc.Waking]) ⟨rfl, rfl⟩ rfl
      · exact .acquire (by rw [hpc]; exact k.stage_cases) (stage_lockDone k) (not_waking_lockDone k)
          (not_not.mp hs) (by simp) rfl rfl
    case lockWait k | lockSleep k =>
      split at h <;> cases h <;>
        exact .quiet (by rw [hpc]; rfl) (by rw [hpc]; exact k.stage_ne_waiting)
          (by simp [hpc, Pc.Waking]) (by simp [Pc.Waking]) ⟨rfl, rfl⟩ (by simp [Shared.sleepers, Shared.enqueue])
    case unlockXchg k =>
      cases k with
      | call =>
        split at h <;> cases h <;>
          exact .release (by rw [hpc]; rfl) rfl (by simp [unlockDone, Pc.Waking])
            (by simp [hpc, HolderPc]) rfl rfl rfl
      | cond c seq =>
        split at h <;> cases h <;>
          exact .enter (by rw [hpc]; rfl) rfl (by simp [unlockDone]) (by simp [hpc, HolderPc]) rfl
            rfl rfl
    case unlockWake k =>
      split at h <;> cases h
      cases k with
      | call =>
        exact .quiet (by rw [hpc]; rfl) (by simp [hpc, Pc.stage]) (by simp [hpc, Pc.Waking])
          (by simp [unlockDone, Pc.Waking]) ⟨rfl, rfl⟩ rfl
      | cond c seq =>
        exact .onward (by rw [hpc]; rfl) rfl (by simp [hpc]) (by simp [unlockDone]) rfl ⟨rfl, rfl⟩
          rfl
    case condLoad c =>
      cases h
      exact .quiet (by rw [hpc]; rfl) (by simp [hpc, Pc.stage]) (by simp [hpc, Pc.Waking])
        (by simp [Pc.Waking]) ⟨rfl, rfl⟩ rfl
    case condSpin c seq i =>
      split at h
      · cases h
        exact .leave (by rw [hpc]; rfl) rfl ⟨rfl, rfl⟩ (off (by simp [hpc, SleepsOn]))
      · split at h <;> cases h <;>
          exact .onward (by rw [hpc]; rfl) rfl (by simp [hpc]) (by simp) rfl ⟨rfl, rfl⟩ rfl
    case condFutex c seq =>
      split at h <;> rename_i hs <;> cases h
      · exact .sleep seq hpc rfl hs ⟨rfl, rfl⟩ (by simp [Shared.sleepers, Shared.enqueue])
      · exact .leave (by rw [hpc]; rfl) rfl ⟨rfl, rfl⟩ (off (by simp [hpc, SleepsOn]))
    case condSleep c seq =>
      split at h <;> rename_i ht <;> cases h
      exact .leave (by rw [hpc]; rfl) rfl ⟨rfl, rfl⟩
        (List.erase_of_not_mem (not_or.mp ht).1).symm
    case condOr c =>
      cases h
      exact .quiet (by rw [hpc]; rfl) (by simp [hpc, Pc.stage]) (by simp [hpc, Pc.Waking])
        (by simp [Pc.Waking]) ⟨rfl, rfl⟩ rfl
    case signalAdd c =>
      cases h
      exact .signalAdd hpc rfl rfl (by simp) rfl
    case broadcastAdd c =>
      cases h
      exact .broadcastAdd hpc rfl rfl (by simp) rfl
    case signalWake c =>
      split at h <;> rename_i hq <;> cases h
      exact .signalWake hpc rfl ⟨rfl, rfl⟩ (.inl ⟨hq, hq⟩)
    case broadcastRequeue c =>
      split at h <;> rename_i hq <;> cases h
      exact .broadcastRequeue hpc rfl ⟨rfl, rfl⟩ hq
  | wake w =>
    simp only [next, wake] at h
    split at h
    case h_1 k hpc =>
      split at h <;> cases h
      have hsame : (g.dequeue .mutex w).sleepers = g.sleepers :=
        dequeue_other g (by simp) w
      cases k with
      | call =>
        exact .quiet (by rw [hpc]; rfl) (by simp [hpc, Pc.stage]) (by simp [hpc, Pc.Waking])
          (by simp [unlockDone, Pc.Waking]) ⟨rfl, rfl⟩ hsame
      | cond c seq =>
        exact .onward (by rw [hpc]; rfl) rfl (by simp [hpc]) (by simp [unlockDone]) rfl ⟨rfl, rfl⟩
          hsame
    case h_2 c hpc =>
      split at h <;> rename_i hw <;> cases h
      exact .signalWake hpc rfl ⟨rfl, rfl⟩ (.inr ⟨w, hw, by simp [Shared.sleepers, Shared.dequeue]⟩)
    case h_3 c hpc =>
      split at h <;> cases h
      exact .broadcastRequeue hpc rfl ⟨rfl, rfl⟩ (by simp [Shared.sleepers, Shared.requeue])
    case h_4 => cases h
  | spurious =>
    simp only [next, spurious] at h
    split at h
    case h_1 k hpc =>
      split at h <;> cases h
      exact .quiet (by rw [hpc]; rfl) (by rw [hpc]; exact k.stage_ne_waiting)
        (by simp [hpc, Pc.Waking]) (by simp [Pc.Waking]) ⟨rfl, rfl⟩ (dequeue_other g (by simp) t)
    case h_2 c seq hpc =>
      split at h <;> cases h
      exact .leave (by rw [hpc]; rfl) rfl ⟨rfl, rfl⟩ (by simp [Shared.sleepers, Shared.dequeue])
    case h_3 => cases h

end LinuxSummer.Futex
