import Mathlib.Logic.Embedding.Basic
import LinuxSummer.FutexPi
import LinuxSummer.FutexInvariant

/-! Who owns a PI mutex. The word is the id of the owner, perhaps with `FUTEX_WAITERS`, as long
as `cond_wait` sets no bit in it that the id does not have. -/
namespace LinuxSummer.Futex
set_option linter.unusedSectionVars false
variable {T C : Type*} [DecidableEq T] [DecidableEq C]

/-- Blocked in `FUTEX_LOCK_PI2`, or given the mutex there and not yet awake. -/
def LockSleeps (l : Local C) : Prop := ∃ k, l.pc = .lockSleep k

/-- Program counters that only the holder of a PI mutex reaches. -/
def OwnerPc (pc : Pc C) : Prop := HolderPc pc ∨ ∃ k, pc = .unlockWake k

/-- Has the mutex, perhaps without knowing it yet. -/
def Owns (s : Config T (PiShared T C) (Local C)) (t : T) : Prop :=
  (s.thread t).holds = true ∨ LockSleeps (s.thread t) ∧ t ∉ s.shared.waiters

/-- From `s` to `s'` the mutex became free, or went to another thread blocked in `s`. -/
def Freed (tid : T → Tid) (s s' : Config T (PiShared T C) (Local C)) (t : T) : Prop :=
  s'.shared.state = 0 ∨ ∃ w mark, w ≠ t ∧ w ∈ s.shared.waiters ∧ LockSleeps (s.thread w) ∧
    w ∉ s'.shared.waiters ∧ s'.shared.state = (tid w).owned mark

/-- The kernel grants every `FUTEX_LOCK_PI2` in the end. -/
def LockGranted (_ : Config T (PiShared T C) (Local C)) (a : T × PiAct T C) : Prop :=
  a.2 ≠ .lockError

/-- Where `cond_wait` sets `MUTEX_SLEEPING` in the word of a PI mutex, the id of the thread has
this bit. -/
def BitInId (m : Methods) (tid : T → Tid) (s : Config T (PiShared T C) (Local C))
    (a : T × PiAct T C) : Prop :=
  m = .pi → (∃ c, (s.thread a.1).pc = .condOr c) → mutexSleeping &&& (tid a.1).word = mutexSleeping

/-- What a step of `t` does to the word of a PI mutex and to its waiters. -/
inductive PiStep (tid : T → Tid) (t : T) (g : PiShared T C) (l : Local C) (g' : PiShared T C)
    (l' : Local C) : Prop where
  | same (state : g'.state = g.state) (waiters : g'.waiters = g.waiters)
      (holds : l'.holds = l.holds) (before : ¬ LockSleeps l) (after : ¬ LockSleeps l')
  /-- The word named no owner, and names `t` now. -/
  | lock (mark : Bool) (free : g.state &&& futexTidMask = 0)
      (state : g'.state = (tid t).owned mark) (waiters : g'.waiters = g.waiters)
      (holds : l'.holds = true) (before : ¬ LockSleeps l) (after : ¬ LockSleeps l')
  | wait (state : g'.state = g.state ||| futexWaiters) (waiters : g'.waiters = g.waiters ++ [t])
      (holds : l'.holds = l.holds) (before : ¬ LockSleeps l) (after : LockSleeps l')
  /-- The thread wakes up in `FUTEX_LOCK_PI2` after it got the mutex. -/
  | granted (state : g'.state = g.state) (waiters : g'.waiters = g.waiters)
      (holds : l'.holds = true) (before : LockSleeps l) (off : t ∉ g.waiters)
      (after : ¬ LockSleeps l')
  | unlock (pc : OwnerPc l.pc) (owner : g.state &&& futexTidMask = (tid t).word)
      (state : g'.state = 0) (waiters : g'.waiters = g.waiters) (holds : l'.holds = false)
      (before : ¬ LockSleeps l) (after : ¬ LockSleeps l')
  | handover (w : T) (mark : Bool) (pc : OwnerPc l.pc) (mem : w ∈ g.waiters)
      (state : g'.state = (tid w).owned mark) (waiters : g'.waiters = g.waiters.erase w)
      (owner : g.state &&& futexTidMask = (tid t).word) (holds : l'.holds = false)
      (before : ¬ LockSleeps l) (after : ¬ LockSleeps l')
  /-- `FUTEX_UNLOCK_PI` finds another id than that of the caller. -/
  | refused (pc : OwnerPc l.pc) (owner : g.state &&& futexTidMask ≠ (tid t).word)
      (state : g'.state = g.state)
  /-- The `fetch_or` at the end of `cond_wait`. -/
  | mark (c : C) (pc : l.pc = .condOr c) (state : g'.state = g.state ||| mutexSleeping)
      (waiters : g'.waiters = g.waiters) (holds : l'.holds = l.holds) (done : l'.pc = .idle)

variable {p : WakePolicy} {tid : T → Tid} {t : T} {g g' : PiShared T C} {l l' : Local C}
  {a : PiAct T C}

theorem lift_some {r : Option (Shared T C × Local C)} (h : g.lift r = some (g', l')) :
    ∃ g₀, r = some (g₀, l') ∧ g' = { g with toShared := g₀ } := by
  obtain ⟨⟨g₀, l₀⟩, hr, he⟩ := Option.map_eq_some_iff.mp h
  cases he
  exact ⟨g₀, hr, rfl⟩

@[simp] theorem lockSleeps_goto (pc : Pc C) : LockSleeps (l.goto pc) ↔ ∃ k, pc = .lockSleep k :=
  Iff.rfl

@[simp] theorem not_lockSleeps_tryFail (k : TryFrom C) : ¬ LockSleeps (tryFail l k) := by
  intro h
  obtain ⟨k', hk⟩ := h
  exact not_sleepsOn_tryFail l k .mutex (.inl ⟨k', hk, rfl⟩)

@[simp] theorem not_lockSleeps_lockDone (k : LockFrom C) : ¬ LockSleeps (lockDone l k) := by
  intro h
  obtain ⟨k', hk⟩ := h
  exact not_sleepsOn_lockDone l k .mutex (.inl ⟨k', hk, rfl⟩)

@[simp] theorem not_lockSleeps_tryDone (k : TryFrom C) : ¬ LockSleeps (tryDone l k) := by
  intro h
  obtain ⟨k', hk⟩ := h
  exact not_sleepsOn_tryDone l k .mutex (.inl ⟨k', hk, rfl⟩)

@[simp] theorem not_lockSleeps_unlockDone (k : UnlockFrom C) : ¬ LockSleeps (unlockDone l k) := by
  intro h
  obtain ⟨k', hk⟩ := h
  exact not_sleepsOn_unlockDone l k .mutex (.inl ⟨k', hk, rfl⟩)

theorem runPi_step (h : runPi tid t g l = some (g', l')) : PiStep tid t g l g' l' := by
  simp only [runPi] at h
  cases hpc : l.pc <;> simp only [hpc] at h
  case tryOr | lockXchg | lockWait | unlockWake => cases h
  case tryLoad k =>
    split at h <;> rename_i hs <;> cases h
    · exact .lock false (by rw [hs]; decide) rfl rfl (tryDone_holds l k) (by simp [LockSleeps, hpc])
        (by simp)
    · exact .same rfl rfl (tryFail_holds l k) (by simp [LockSleeps, hpc]) (by simp)
  case lockSleep k =>
    split at h <;> rename_i ht <;> cases h
    exact .granted rfl rfl (lockDone_holds l k) ⟨k, hpc⟩ ht (by simp)
  case unlockXchg k =>
    split at h <;> rename_i hs <;> cases h
    · exact .unlock (by simp [OwnerPc, HolderPc, hpc]) (by rw [hs]; exact owned_tidMask (tid t) false) rfl rfl
        (unlockDone_holds _ k) (by simp [LockSleeps, hpc]) (by simp)
    · exact .same rfl rfl rfl (by simp [LockSleeps, hpc]) (by simp)
  case idle =>
    obtain ⟨g₀, hr, rfl⟩ := lift_some h
    simp [run, hpc] at hr
  case condOr c =>
    obtain ⟨g₀, hr, rfl⟩ := lift_some h
    simp only [run, hpc] at hr
    cases hr
    exact .mark c hpc rfl rfl rfl rfl
  case condLoad c | signalAdd c | broadcastAdd c =>
    obtain ⟨g₀, hr, rfl⟩ := lift_some h
    simp only [run, hpc] at hr
    cases hr
    exact .same rfl rfl rfl (by simp [LockSleeps, hpc]) (by simp [LockSleeps])
  case condSpin c seq i =>
    obtain ⟨g₀, hr, rfl⟩ := lift_some h
    simp only [run, hpc] at hr
    split at hr
    · cases hr
      exact .same rfl rfl rfl (by simp [LockSleeps, hpc]) (by simp)
    · split at hr <;> cases hr <;>
        exact .same rfl rfl rfl (by simp [LockSleeps, hpc]) (by simp)
  case condFutex | condSleep | signalWake | broadcastRequeue =>
    obtain ⟨g₀, hr, rfl⟩ := lift_some h
    simp only [run, hpc] at hr
    split at hr <;> cases hr <;>
      exact .same rfl rfl rfl (by simp [LockSleeps, hpc]) (by simp [LockSleeps])

theorem futexLockPi_step {mark : Bool} (h : futexLockPi tid t mark g l = some (g', l')) :
    PiStep tid t g l g' l' := by
  simp only [futexLockPi] at h
  split at h
  case h_1 k hpc =>
    split at h <;> rename_i hs
    · cases h
      exact .lock mark hs rfl rfl (lockDone_holds l k) (by simp [LockSleeps, hpc]) (by simp)
    · split at h <;> cases h
      exact .wait rfl rfl rfl (by simp [LockSleeps, hpc]) (by simp)
  case h_2 => cases h

theorem futexUnlockPi_step {top : Option T} {mark : Bool}
    (h : futexUnlockPi tid t top mark g l = some (g', l')) : PiStep tid t g l g' l' := by
  simp only [futexUnlockPi] at h
  split at h
  case h_1 k hpc =>
    have hp : OwnerPc l.pc := .inr ⟨k, hpc⟩
    have hb : ¬ LockSleeps l := by simp [LockSleeps, hpc]
    split at h <;> rename_i hs
    · split at h <;> cases h
      exact .refused hp hs rfl
    · have howner := not_not.mp hs
      cases top with
      | none =>
        simp only at h
        split at h <;> cases h
        exact .unlock hp howner rfl rfl (unlockDone_holds _ k) hb (by simp)
      | some w =>
        simp only at h
        split at h <;> rename_i hw <;> cases h
        exact .handover w mark hp hw rfl rfl howner (unlockDone_holds _ k) hb (by simp)
  case h_2 => cases h

theorem wake_same {w : T} (hpc : ∀ k, l.pc ≠ .unlockWake k)
    (h : g.lift (wake p w g.toShared l) = some (g', l')) : PiStep tid t g l g' l' := by
  obtain ⟨g₀, hr, rfl⟩ := lift_some h
  simp only [wake] at hr
  split at hr
  case h_1 k hk => exact absurd hk (hpc k)
  case h_2 hk | h_3 hk =>
    split at hr <;> cases hr
    exact .same rfl rfl rfl (by simp [LockSleeps, hk]) (by simp)
  case h_4 => cases hr

theorem spurious_same (hpc : ∀ k, l.pc ≠ .lockSleep k)
    (h : g.lift (spurious t g.toShared l) = some (g', l')) : PiStep tid t g l g' l' := by
  obtain ⟨g₀, hr, rfl⟩ := lift_some h
  simp only [spurious] at hr
  split at hr
  case h_1 k hk => exact absurd hk (hpc k)
  case h_2 hk =>
    split at hr <;> cases hr
    exact .same rfl rfl rfl (by simp [LockSleeps, hk]) (by simp)
  case h_3 => cases hr

theorem nextPi_step (hok : a ≠ .lockError) (h : nextPi p tid t g l a = some (g', l')) :
    PiStep tid t g l g' l' := by
  cases a with
  | act a =>
    cases a with
    | call op =>
      obtain ⟨g₀, hr, rfl⟩ := lift_some h
      obtain ⟨hpc, rfl, he⟩ := next_call hr
      refine .same rfl rfl (enter_local he).1 (by simp [LockSleeps, hpc]) ?_
      intro hs
      obtain ⟨k, hk⟩ := hs
      exact (enter_local he).2.2.1 .mutex (.inl ⟨k, hk, rfl⟩)
    | run => exact runPi_step h
    | wake w =>
      simp only [nextPi] at h
      split at h
      · cases h
      · rename_i hk
        exact wake_same hk h
    | spurious =>
      simp only [nextPi] at h
      split at h
      · cases h
      · rename_i hk
        exact spurious_same hk h
  | lockPi mark => exact futexLockPi_step h
  | lockError => exact absurd rfl hok
  | unlockPi top mark => exact futexUnlockPi_step h

theorem tryFail_ne_unlockWake (k : TryFrom C) (k' : UnlockFrom C) :
    (tryFail l k).pc ≠ .unlockWake k' := by
  cases k with
  | call => simp [tryFail]
  | spin i k =>
    simp only [tryFail]
    split <;> simp

theorem lockDone_ne_unlockWake (k : LockFrom C) (k' : UnlockFrom C) :
    (lockDone l k).pc ≠ .unlockWake k' := by
  cases k <;> simp [lockDone]

theorem tryDone_ne_unlockWake (k : TryFrom C) (k' : UnlockFrom C) :
    (tryDone l k).pc ≠ .unlockWake k' := by
  cases k with
  | call => simp [tryDone]
  | spin i k => exact lockDone_ne_unlockWake k k'

theorem unlockDone_ne_unlockWake (k k' : UnlockFrom C) :
    (unlockDone l k).pc ≠ .unlockWake k' := by
  cases k <;> simp [unlockDone]

/-- In user space `mutex_unlock` calls the kernel right after its exchange. -/
theorem next_unlockWake_pi {g g' : Shared T C} {a : Act T C} {k : UnlockFrom C}
    (h : next p t g l a = some (g', l')) (hk : l'.pc = .unlockWake k) : ∃ k', l.pc = .unlockXchg k' := by
  cases a with
  | call op =>
    obtain ⟨-, rfl, he⟩ := next_call h
    cases op with
    | unlock | condWait =>
      simp only [enter] at he
      split at he <;> cases he
      simp at hk
    | trylock | lock | condSignal | condBroadcast =>
      cases he
      simp at hk
  | run =>
    simp only [next, run] at h
    cases hpc : l.pc <;> simp only [hpc] at h
    case unlockXchg k' => exact ⟨k', rfl⟩
    case idle => cases h
    case tryLoad k' | tryOr k' | lockXchg k' | unlockWake k' =>
      split at h <;> cases h <;>
        simp [tryFail_ne_unlockWake, tryDone_ne_unlockWake, lockDone_ne_unlockWake,
          unlockDone_ne_unlockWake] at hk
    case condLoad | condOr | signalAdd | broadcastAdd =>
      cases h
      simp at hk
    case condSpin =>
      split at h
      · cases h
        simp at hk
      · split at h <;> cases h <;> simp at hk
    case lockWait | lockSleep | condFutex | condSleep | signalWake | broadcastRequeue =>
      split at h <;> cases h <;> simp at hk
  | wake w =>
    simp only [next, wake] at h
    split at h
    case h_4 => cases h
    all_goals
      split at h
      · cases h
        simp [unlockDone_ne_unlockWake] at hk
      · cases h
  | spurious =>
    simp only [next, spurious] at h
    split at h
    case h_3 => cases h
    all_goals
      split at h
      · cases h
        simp at hk
      · cases h

theorem nextPi_ownerPc (hh : OwnerPc l.pc → l.holds = true) (hok : a ≠ .lockError)
    (h : nextPi p tid t g l a = some (g', l')) : OwnerPc l'.pc → l'.holds = true := by
  have hlift {a : Act T C} (hpc : ∀ k, l.pc ≠ .unlockXchg k)
      (hn : g.lift (next p t g.toShared l a) = some (g', l')) : OwnerPc l'.pc → l'.holds = true := by
    obtain ⟨g₀, hr, rfl⟩ := lift_some hn
    rintro (ho | ⟨k, hk⟩)
    · exact next_holderPc (fun hp => hh (.inl hp)) hr ho
    · obtain ⟨k', hk'⟩ := next_unlockWake_pi hr hk
      exact absurd hk' (hpc k')
  have hdone (l₀ : Local C) (k : UnlockFrom C) : ¬ OwnerPc (unlockDone l₀ k).pc := by
    rintro (ho | ⟨k', hk⟩)
    · exact not_holderPc_unlockDone l₀ k ho
    · exact unlockDone_ne_unlockWake k k' hk
  cases a with
  | act a =>
    cases a with
    | call op =>
      obtain ⟨g₀, hr, -⟩ := lift_some h
      exact hlift (by simp [(next_call hr).1]) h
    | run =>
      simp only [nextPi, runPi] at h
      cases hpc : l.pc <;> simp only [hpc] at h
      case tryOr | lockXchg | lockWait | unlockWake => cases h
      case tryLoad k =>
        split at h <;> cases h
        · exact fun _ => tryDone_holds l k
        · rintro (ho | ⟨k', hk⟩)
          · exact absurd ho (not_holderPc_tryFail l k)
          · exact absurd hk (tryFail_ne_unlockWake k k')
      case lockSleep k =>
        split at h <;> cases h
        exact fun _ => lockDone_holds l k
      case unlockXchg k =>
        split at h <;> cases h
        · exact fun ho => absurd ho (hdone _ k)
        · exact fun _ => hh (by simp [OwnerPc, HolderPc, hpc])
      all_goals exact hlift (a := .run) (by simp [hpc]) h
    | wake w =>
      simp only [nextPi] at h
      split at h
      · cases h
      · refine hlift (a := .wake w) (fun k hk => ?_) h
        obtain ⟨g₀, hr, -⟩ := lift_some h
        simp [wake, hk] at hr
    | spurious =>
      simp only [nextPi] at h
      split at h
      · cases h
      · refine hlift (a := .spurious) (fun k hk => ?_) h
        obtain ⟨g₀, hr, -⟩ := lift_some h
        simp [spurious, hk] at hr
  | lockPi mark =>
    simp only [nextPi, futexLockPi] at h
    split at h
    · split at h
      · cases h
        exact fun _ => lockDone_holds l _
      · split at h <;> cases h
        simp [OwnerPc, HolderPc]
    · cases h
  | lockError => exact absurd rfl hok
  | unlockPi top mark =>
    simp only [nextPi, futexUnlockPi] at h
    split at h
    · split at h
      · split at h <;> cases h
        exact fun ho => absurd ho (hdone _ _)
      · split at h
        · split at h <;> cases h
          exact fun ho => absurd ho (hdone _ _)
        · split at h <;> cases h
          exact fun ho => absurd ho (hdone _ _)
    · cases h

/-- Who owns a PI mutex, by its word and by the list of its waiters. -/
structure PiInv (tid : T → Tid) (s : Config T (PiShared T C) (Local C)) : Prop where
  owned : ∀ t, Owns s t → ∃ mark, s.shared.state = (tid t).owned mark
  waiting : ∀ t ∈ s.shared.waiters, LockSleeps (s.thread t)
  nodup : s.shared.waiters.Nodup
  owner_pc : ∀ t, OwnerPc (s.thread t).pc → (s.thread t).holds = true

namespace PiInv
variable {tid : T ↪ Tid} {s : Config T (PiShared T C) (Local C)}

theorem start : PiInv tid (startBy T C) := by
  constructor <;> simp [startBy, Futex.start, Owns, LockSleeps, OwnerPc, HolderPc]

variable (hi : PiInv tid s)
include hi

theorem owner_word (h : Owns s t) : s.shared.state &&& futexTidMask = (tid t).word := by
  obtain ⟨mark, hw⟩ := hi.owned t h
  rw [hw, owned_tidMask]

/-- The word names one thread. -/
theorem owner_unique {u : T} (ht : Owns s t) (hu : Owns s u) : u = t := by
  have hw : (tid u).word = (tid t).word := (hi.owner_word hu).symm.trans (hi.owner_word ht)
  exact tid.injective (Tid.ext hw)

theorem not_owns_of_free (h : s.shared.state &&& futexTidMask = 0) (u : T) : ¬ Owns s u := by
  intro hu
  exact (tid u).word_ne_zero ((hi.owner_word hu).symm.trans h)

/-- After a step the word names whoever owns the mutex. In the `fetch_or` this needs the
bit to be in the id. -/
theorem owned_step (hb : BitInId .pi tid s (t, a))
    (h : PiStep tid t s.shared (s.thread t) g' l') (u : T)
    (hu : Owns ⟨g', Function.update s.thread t l'⟩ u) : ∃ mark, g'.state = (tid u).owned mark := by
  -- the others own what they owned, unless the waiters change
  have other (hut : u ≠ t) (hw : g'.waiters = s.shared.waiters) : Owns s u := by
    simpa [Owns, hut, hw] using hu
  have self (hut : u = t) (ha : ¬ LockSleeps l') : l'.holds = true := by
    subst hut
    simpa [Owns, ha] using hu
  cases h with
  | same state waiters holds before after =>
    rw [state]
    by_cases hut : u = t
    · have hh := self hut after
      exact hi.owned u (.inl (by rw [hut, ← holds]; exact hh))
    · exact hi.owned u (other hut waiters)
  | lock mark free state waiters holds before after =>
    by_cases hut : u = t
    · exact ⟨mark, hut ▸ state⟩
    · exact absurd (other hut waiters) (hi.not_owns_of_free free u)
  | wait state waiters holds before after =>
    have hold : Owns s u := by
      by_cases hut : u = t
      · subst hut
        simp only [Owns, Function.update_self, waiters, List.mem_append, List.mem_singleton,
          or_true, not_true, and_false, or_false] at hu
        exact .inl (holds ▸ hu)
      · simp only [Owns, Function.update_of_ne hut, waiters, List.mem_append,
          List.mem_singleton, hut, or_false] at hu
        exact hu
    obtain ⟨mark, hw⟩ := hi.owned u hold
    exact ⟨true, by rw [state, hw, owned_or_waiters]⟩
  | granted state waiters holds before off after =>
    rw [state]
    by_cases hut : u = t
    · exact hi.owned u (.inr ⟨hut ▸ before, hut ▸ off⟩)
    · exact hi.owned u (other hut waiters)
  | unlock pc owner state waiters holds before after =>
    by_cases hut : u = t
    · exact absurd (self hut after) (by simp [holds])
    · exact absurd (hi.owner_unique (.inl (hi.owner_pc t pc)) (other hut waiters)) hut
  | handover w mark pc mem state waiters owner holds before after =>
    have ht : Owns s t := .inl (hi.owner_pc t pc)
    by_cases hut : u = t
    · exact absurd (self hut after) (by simp [holds])
    · by_cases huw : u = w
      · exact ⟨mark, huw ▸ state⟩
      · have hold : Owns s u := by
          simpa [Owns, hut, waiters, List.mem_erase_of_ne huw] using hu
        exact absurd (hi.owner_unique ht hold) hut
  | refused pc owner state =>
    exact absurd (hi.owner_word (.inl (hi.owner_pc t pc))) owner
  | mark c pc state waiters holds done =>
    have ht : Owns s t := .inl (hi.owner_pc t (by simp [OwnerPc, HolderPc, pc]))
    have hut : u = t := by
      by_contra hut
      exact hut (hi.owner_unique ht (other hut waiters))
    obtain ⟨mark, hw⟩ := hi.owned t ht
    refine ⟨mark, ?_⟩
    rw [state, hw, hut]
    exact owned_or_of_bit (tid t) mark (hb rfl ⟨c, pc⟩)

/-- The waiters of the kernel are blocked threads, each of them once. -/
theorem waiting_step (h : PiStep tid t s.shared (s.thread t) g' l') :
    g'.waiters.Nodup ∧ ∀ u ∈ g'.waiters, LockSleeps (Function.update s.thread t l' u) := by
  have kept (hb : ¬ LockSleeps (s.thread t)) (u : T) (hu : u ∈ s.shared.waiters) :
      LockSleeps (Function.update s.thread t l' u) := by
    have hut : u ≠ t := fun he => hb (he ▸ hi.waiting u hu)
    rw [Function.update_of_ne hut]
    exact hi.waiting u hu
  have same (hw : g'.waiters = s.shared.waiters) (hb : ¬ LockSleeps (s.thread t)) :
      g'.waiters.Nodup ∧ ∀ u ∈ g'.waiters, LockSleeps (Function.update s.thread t l' u) := by
    rw [hw]
    exact ⟨hi.nodup, kept hb⟩
  cases h with
  | same state waiters holds before after => exact same waiters before
  | lock mark free state waiters holds before after => exact same waiters before
  | unlock pc owner state waiters holds before after => exact same waiters before
  | mark c pc state waiters holds done => exact same waiters (by simp [LockSleeps, pc])
  | wait state waiters holds before after =>
    have ht : t ∉ s.shared.waiters := fun ht => before (hi.waiting t ht)
    rw [waiters]
    constructor
    · exact hi.nodup.append (List.nodup_singleton t) (by simpa using ht)
    · intro u hu
      rcases List.mem_append.mp hu with hu | hu
      · exact kept before u hu
      · rw [List.mem_singleton.mp hu, Function.update_self]
        exact after
  | granted state waiters holds before off after =>
    rw [waiters]
    refine ⟨hi.nodup, fun u hu => ?_⟩
    have hut : u ≠ t := fun he => off (he ▸ hu)
    rw [Function.update_of_ne hut]
    exact hi.waiting u hu
  | handover w mark pc mem state waiters owner holds before after =>
    rw [waiters]
    exact ⟨hi.nodup.erase w, fun u hu => kept before u (List.mem_of_mem_erase hu)⟩
  | refused pc owner state =>
    exact absurd (hi.owner_word (.inl (hi.owner_pc t pc))) owner

theorem step (hb : BitInId .pi tid s (t, a)) (hok : a ≠ .lockError)
    (h : nextPi p tid t s.shared (s.thread t) a = some (g', l')) :
    PiInv tid ⟨g', Function.update s.thread t l'⟩ := by
  have hs := nextPi_step hok h
  constructor
  · exact hi.owned_step hb hs
  · exact (hi.waiting_step hs).2
  · exact (hi.waiting_step hs).1
  · intro u hu
    by_cases hut : u = t
    · subst hut
      simpa using nextPi_ownerPc (hi.owner_pc u) hok h (by simpa using hu)
    · simpa [hut] using hi.owner_pc u (by simpa [hut] using hu)

/-- A thread that gives up a PI mutex leaves it free or to a waiter. -/
theorem freed (hok : a ≠ .lockError)
    (h : nextPi p tid t s.shared (s.thread t) a = some (g', l'))
    (hh : (s.thread t).holds = true) (hh' : l'.holds = false) :
    Freed tid s ⟨g', Function.update s.thread t l'⟩ t := by
  have hs := nextPi_step hok h
  cases hs with
  | same state waiters holds before after => simp [holds, hh] at hh'
  | lock mark free state waiters holds before after => simp [holds] at hh'
  | wait state waiters holds before after => simp [holds, hh] at hh'
  | granted state waiters holds before off after => simp [holds] at hh'
  | unlock pc owner state waiters holds before after => exact .inl state
  | handover w mark pc mem state waiters owner holds before after =>
    have hw := hi.waiting w mem
    have hwt : w ≠ t := fun he => before (he ▸ hw)
    refine .inr ⟨w, mark, hwt, mem, hw, ?_, state⟩
    simp [waiters, hi.nodup.mem_erase_iff]
  | refused pc owner state =>
    exact absurd (hi.owner_word (.inl hh)) owner
  | mark c pc state waiters holds done => simp [holds, hh] at hh'

end PiInv

end LinuxSummer.Futex
