import LinuxSummer.LockRingRun

/-! No deadlock in the lock ring: when all threads were blocked, the one in front of the spare mutex
would not be. -/
namespace LinuxSummer.LockRing
open Monitor
set_option linter.unusedSectionVars false

variable {T iters : ℕ} [NeZero T]
  {ok : Config (Thread T) (Shared (Thread T) Mutex Data) (Status Mutex Loc) →
    Thread T × Act (Thread T) → Prop}
  {s : Config (Thread T) (Shared (Thread T) Mutex Data) (Status Mutex Loc)} {id v : Fin T}

/-! ### The signal for `contention_test` -/

def Awaited (_ : Thread T) (_ : Loc) (m : Mutex) (d : Data) : Prop :=
  m = .ready ∧ T ≤ d.readyCount

def Owes (t : Thread T) (l : Loc) (m : Mutex) : Prop :=
  m = .ready ∧ l.pc = .signal ∧ t ≠ .main

theorem owes_instr (iters : ℕ) {t : Thread T} {l : Loc} {m : Mutex} (h : Owes t l m) :
    instr iters t l = .signal m (l.goto .countUnlock) := by
  obtain ⟨pc, i, loop⟩ := l
  obtain ⟨rfl, rfl, ht⟩ := h
  cases t with
  | main => exact absurd rfl ht
  | worker id => rfl

theorem wakeups : Wakeups (ring T iters) Awaited Owes where
  awake {t l m} ho m' k hi := by
    have hsig := owes_instr iters ho
    change instr iters t l = _ at hi
    rw [hi] at hsig
    cases hsig
  pays {t l m b d d' k} ho he := by
    have hsig := owes_instr iters ho
    change Edge b (instr iters t l) d d' k at he
    rw [hsig] at he
    obtain ⟨-, rfl⟩ := he
    exact .inr (.inl hsig)
  raises {t l b d d' k} he u j m ha := by
    obtain ⟨rfl, hready⟩ := ha
    cases t with
    | main =>
      have hs := main_step (T := T) he
      left
      refine ⟨rfl, ?_⟩
      cases hs <;> exact hready
    | worker id =>
      have hs : WorkerStep iters id d l d' k := worker_step he
      cases hs with
      | count hpc hpc' hlast =>
        -- the last one to count itself signals
        by_cases hold : T ≤ d.readyCount
        · exact .inl ⟨rfl, hold⟩
        · simp only at hready
          exact .inr ⟨rfl, hlast (by omega), by simp⟩
      | _ => exact .inl ⟨rfl, hready⟩

/-- When all have counted themselves and `contention_test` sleeps, its signal is on the way. -/
theorem owed_reachable (h : (system T iters).Reachable ok s) : ∀ t m k, s.thread t = .asleep m k →
    t ∈ s.shared.waiters m → Awaited t k m s.shared.data →
    ∃ u l, s.thread u = .run l ∧ Owes u l m := by
  refine wakeup_owed wakeups ?_ ?_ h
  · intro s t l m k hr hl hi ha
    obtain ⟨rfl, -, hpc, -⟩ := instr_wait hi
    have hmain := (inv_reachable hr).main
    simp only [Program.locs, hl, Status.loc, MainOk, hpc] at hmain
    have := ha.2
    omega
  · intro s t u m hr ht hu _
    have hs := sound_reachable hr
    obtain ⟨k, hk⟩ := hs.asleep t m ht
    obtain ⟨k', hk'⟩ := hs.asleep u m hu
    rw [(asleep_main hr t m k (.inl hk)).1, (asleep_main hr u m k' (.inl hk')).1]

/-! ### Blocked threads -/

/-- The thread has come to its end. -/
def Done (s : Config (Thread T) (Shared (Thread T) Mutex Data) (Status Mutex Loc)) (t : Thread T) :
    Prop := ∃ l, s.thread t = .run l ∧ l.pc = .done

theorem Done.blocked {t : Thread T} (h : Done s t) : (ring T iters).Blocked s t := by
  obtain ⟨⟨pc, i, loop⟩, hl, hpc⟩ := h
  obtain rfl : pc = .done := hpc
  intro a _
  have hexit : (ring T iters).instr t ⟨.done, i, loop⟩ = .exit := by
    cases t <;> rfl
  rw [hl]
  simp [Program.next, hexit, perform]

/-- Where a running thread may be blocked. -/
theorem blocked_run {t : Thread T} {l : Loc} (hb : (ring T iters).Blocked s t)
    (hl : s.thread t = .run l) : instr iters t l = .exit ∨
      (∃ m k u, instr iters t l = .lock m k ∧ s.shared.owner m = some u) ∨
      ∃ f, instr iters t l = .access f ∧ f s.shared.data = none := by
  rcases blocked_cases hb with ⟨l', hl', hi⟩ | ⟨l', m, k, u, hl', hi, hu⟩ | ⟨m, k, u, hk, -⟩ |
    ⟨m, k, hk, -⟩ | ⟨l', f, hl', hi, hf⟩
  · cases hl.symm.trans hl'
    exact .inl hi
  · cases hl.symm.trans hl'
    exact .inr (.inl ⟨m, k, u, hi, hu⟩)
  · cases hl.symm.trans hk
  · cases hl.symm.trans hk
  · cases hl.symm.trans hl'
    exact .inr (.inr ⟨f, hi, hf⟩)

/-- Why a thread of the ring is blocked. -/
inductive Stuck (iters : ℕ) (id : Fin T) (g : Shared (Thread T) Mutex Data) (l : Loc) : Prop
  | begin (hpc : l.pc = .begin) (hc : ¬ id < g.data.created)
  | first (hpc : l.pc = .first) (u : Thread T) (hu : g.owner (.ring l.i) = some u)
  | countLock (hpc : l.pc = .countLock) (u : Thread T) (hu : g.owner .ready = some u)
  | lineLock (hpc : l.pc = .lineLock) (u : Thread T) (hu : g.owner (.start id) = some u)
  | loop (hpc : l.pc = .loop) (hlt : l.loop < iters) (u : Thread T)
    (hu : g.owner (.ring (next T l.i)) = some u)
  | done (hpc : l.pc = .done)

theorem worker_run (h : (system T iters).Reachable ok s) (id : Fin T) :
    s.thread (.worker id) = .run (Program.locs s (.worker id)) := by
  have hasleep := asleep_main h (.worker id)
  cases hst : s.thread (.worker id) with
  | run l => simp [Program.locs, hst, Status.loc]
  | asleep m k => cases (hasleep m k (.inl hst)).1
  | woken m k => cases (hasleep m k (.inr hst)).1

theorem worker_stuck (h : (system T iters).Reachable ok s)
    (hb : (ring T iters).Blocked s (.worker id)) :
    Stuck iters id s.shared (Program.locs s (.worker id)) := by
  have hplace := ((inv_reachable h).worker id).place
  have hcases := blocked_run hb (worker_run h id)
  generalize Program.locs s (.worker id) = l at hplace hcases
  obtain ⟨pc, i, loop⟩ := l
  simp only [instr, threadFunc] at hcases
  cases pc with
  | begin =>
    rcases hcases with hi | ⟨m, k, u, hi, -⟩ | ⟨f, hi, hf⟩
    · cases hi
    · cases hi
    · cases hi
      refine .begin rfl fun hc => ?_
      simp [hc] at hf
  | first =>
    rcases hcases with hi | ⟨m, k, u, hi, hu⟩ | ⟨f, hi, hf⟩
    · cases hi
    · cases hi
      exact .first rfl u hu
    · cases hi
  | countLock =>
    rcases hcases with hi | ⟨m, k, u, hi, hu⟩ | ⟨f, hi, hf⟩
    · cases hi
    · cases hi
      exact .countLock rfl u hu
    · cases hi
  | lineLock =>
    rcases hcases with hi | ⟨m, k, u, hi, hu⟩ | ⟨f, hi, hf⟩
    · cases hi
    · cases hi
      exact .lineLock rfl u hu
    · cases hi
  | loop =>
    simp only at hcases
    split at hcases <;> rename_i hlt
    · rcases hcases with hi | ⟨m, k, u, hi, hu⟩ | ⟨f, hi, hf⟩
      · cases hi
      · cases hi
        exact .loop rfl hlt u hu
      · cases hi
    · rcases hcases with hi | ⟨m, k, u, hi, -⟩ | ⟨f, hi, -⟩ <;> cases hi
  | done => exact .done rfl
  | count | ret =>
    rcases hcases with hi | ⟨m, k, u, hi, -⟩ | ⟨f, hi, hf⟩
    · cases hi
    · cases hi
    · cases hi
      cases hf
  | signal | countUnlock | lineUnlock | prev =>
    rcases hcases with hi | ⟨m, k, u, hi, -⟩ | ⟨f, hi, -⟩ <;> cases hi
  | _ => exact hplace.elim

section Blocked
variable (h : (system T iters).Reachable ok s) (hblocked : ∀ t, (ring T iters).Blocked s t)
include h hblocked

theorem stuck (id : Fin T) : Stuck iters id s.shared (Program.locs s (.worker id)) :=
  worker_stuck h (hblocked _)

/-- The owner of a mutex has it by its place. -/
theorem holds_of_owner {m : Mutex} {u : Thread T} (hu : s.shared.owner m = some u) :
    holds u (Program.locs s u) m := by
  have howns := ((sound_reachable h).owner u m).mp hu
  simp only [Program.locs]
  cases hst : s.thread u with
  | run l =>
    rw [hst] at howns
    exact howns
  | asleep m' k =>
    rw [hst] at howns
    exact howns.1
  | woken m' k =>
    rw [hst] at howns
    exact howns.1

/-- A blocked thread has mutexes of the ring only, and one at most. -/
theorem stuck_holds {id : Fin T} {m : Mutex} (hm : holds (.worker id) (Program.locs s (.worker id)) m) :
    m = .ring (Program.locs s (.worker id)).i := by
  have hs := stuck h hblocked id
  generalize Program.locs s (.worker id) = l at hm hs
  obtain ⟨pc, i, loop⟩ := l
  cases hs with
  | begin hpc | first hpc | done hpc =>
    cases hpc
    exact hm.elim
  | countLock hpc | lineLock hpc | loop hpc =>
    cases hpc
    exact hm

theorem ready_free : s.shared.owner .ready = none := by
  by_contra hne
  obtain ⟨u, hu⟩ := Option.ne_none_iff_exists'.mp hne
  cases u with
  | worker id =>
    have := stuck_holds h hblocked (holds_of_owner h hblocked hu)
    cases this
  | main =>
    have howns := ((sound_reachable h).owner .main .ready).mp hu
    cases hst : s.thread .main with
    | run l =>
      have hcases := blocked_run (hblocked .main) hst
      rw [hst] at howns
      obtain ⟨pc, i, loop⟩ := l
      cases pc with
      | test =>
        rcases hcases with hi | ⟨m, k, v, hi, -⟩ | ⟨f, hi, hf⟩
        · cases hi
        · cases hi
        · cases hi
          cases hf
      | cond | readyUnlock =>
        rcases hcases with hi | ⟨m, k, v, hi, -⟩ | ⟨f, hi, -⟩ <;> cases hi
      | _ => simp [Program.Owns, ring, holds] at howns
    | asleep m k =>
      obtain ⟨-, rfl, -⟩ := asleep_main h .main m k (.inl hst)
      rw [hst] at howns
      exact howns.2 rfl
    | woken m k =>
      obtain ⟨-, rfl, -⟩ := asleep_main h .main m k (.inr hst)
      rw [hst] at howns
      exact howns.2 rfl

/-- While `contention_test` waits a thread that has not counted itself is not blocked. -/
theorem counted_of_test (hpc : (Program.locs s .main).pc = .test) (id : Fin T) :
    counted (Program.locs s (.worker id)).pc = true := by
  have hinv := inv_reachable h
  have hmain := hinv.main
  simp only [MainOk, hpc] at hmain
  have hw := hinv.worker id
  cases stuck h hblocked id with
  | begin hb hc =>
    rw [hmain] at hc
    exact absurd id.isLt hc
  | first hb u hu =>
    -- nobody has left its first mutex
    exfalso
    have hhold := holds_of_owner h hblocked hu
    cases u with
    | main => simp [holds, hpc] at hhold
    | worker v =>
      have hring := stuck_holds h hblocked hhold
      have hplace := (hinv.worker v).place
      have hindex := (hinv.worker v).index
      have hv0 : moves (Program.locs s (.worker v)) = 0 := by
        have hnot : ∀ {p : Pc}, (Program.locs s (.worker v)).pc = p → passed p = true → False :=
          fun hp hpass => by
            rcases hinv.released v (by rw [hp]; exact hpass) with ⟨hr, -⟩ | hr | hr <;>
              rw [hpc] at hr <;> cases hr
        cases stuck h hblocked v with
        | begin hb' | first hb' | countLock hb' | lineLock hb' =>
          simp only [PlaceOk, hb'] at hplace
          exact hplace
        | loop hb' | done hb' => exact (hnot hb' rfl).elim
      have hw0 : moves (Program.locs s (.worker id)) = 0 := by
        have := hw.place
        simp only [PlaceOk, hb] at this
        exact this
      have heq := hw.index
      rw [hw0, Nat.add_zero, Nat.mod_eq_of_lt (by omega)] at heq
      rw [hv0, Nat.add_zero, Nat.mod_eq_of_lt (by omega)] at hindex
      injection hring with hi
      have hvid : v = id := Fin.ext (by omega)
      rw [hvid] at hhold
      simp [holds, hb] at hhold
  | countLock hb u hu =>
    rw [ready_free h hblocked] at hu
    cases hu
  | lineLock hb | loop hb | done hb =>
    rw [hb]
    rfl

/-- `contention_test` can be blocked by `pthread_join` only. -/
theorem main_stuck : (∃ i loop, s.thread .main = .run ⟨.join, i, loop⟩ ∧ i < T ∧
      s.shared.data.exited i = false) ∨ Done s .main := by
  have hinv := inv_reachable h
  have hnot_test : (Program.locs s .main).pc = .test → s.shared.data.readyCount = T := fun hpc => by
    have hall : countedSet (Program.locs s) = Finset.univ := by
      ext id
      simp [countedSet, counted_of_test h hblocked hpc id]
    rw [hinv.count, hall, Finset.card_univ, Fintype.card_fin]
  cases hst : s.thread .main with
  | run l =>
    have hmain := hinv.main
    have hcases := blocked_run (hblocked .main) hst
    simp only [Program.locs, hst, Status.loc] at hmain
    obtain ⟨pc, i, loop⟩ := l
    simp only [instr, contentionTest] at hcases
    cases pc with
    | launch =>
      simp only at hcases
      split at hcases
      · rcases hcases with hi | ⟨m, k, u, hi, hu⟩ | ⟨f, hi, -⟩
        · cases hi
        · cases hi
          have hhold := holds_of_owner h hblocked hu
          cases u with
          | main =>
            simp only [Program.locs, hst, Status.loc, holds] at hhold
            obtain ⟨j, hj, hlt, -⟩ := hhold
            cases hj
            exact absurd hlt (lt_irrefl _)
          | worker id =>
            cases stuck_holds h hblocked hhold
        · cases hi
      · rcases hcases with hi | ⟨m, k, u, hi, hu⟩ | ⟨f, hi, -⟩
        · cases hi
        · cases hi
          rw [ready_free h hblocked] at hu
          cases hu
        · cases hi
    | create | test =>
      rcases hcases with hi | ⟨m, k, u, hi, -⟩ | ⟨f, hi, hf⟩
      · cases hi
      · cases hi
      · cases hi
        cases hf
    | cond | readyUnlock => rcases hcases with hi | ⟨m, k, u, hi, -⟩ | ⟨f, hi, -⟩ <;> cases hi
    | release =>
      simp only at hcases
      split at hcases
      · rcases hcases with hi | ⟨m, k, u, hi, -⟩ | ⟨f, hi, -⟩ <;> cases hi
      · rcases hcases with hi | ⟨m, k, u, hi, -⟩ | ⟨f, hi, hf⟩
        · cases hi
        · cases hi
        · cases hi
          cases hf
    | join =>
      rcases hcases with hi | ⟨m, k, u, hi, -⟩ | ⟨f, hi, hf⟩
      · cases hi
      · cases hi
      · cases hi
        simp only at hf
        split at hf <;> rename_i hlt
        · split at hf <;> rename_i hex
          · cases hf
          · exact .inl ⟨i, loop, rfl, hlt, by simpa using hex⟩
        · cases hf
    | done => exact .inr ⟨_, hst, rfl⟩
    | _ => exact hmain.elim
  | asleep m k =>
    exfalso
    obtain ⟨-, rfl, hk⟩ := asleep_main h .main m k (.inl hst)
    have hpc : (Program.locs s .main).pc = .test := by simp [Program.locs, hst, Status.loc, hk]
    have hmem : Thread.main ∈ s.shared.waiters .ready := by
      by_contra hout
      have hrun := hblocked .main .run (by simp)
      simp [hst, Program.next, hout] at hrun
    have hcount := hnot_test hpc
    obtain ⟨u, l, hl, -, hsig, hu⟩ :=
      owed_reachable h .main .ready k hst hmem ⟨rfl, Nat.le_of_eq hcount.symm⟩
    cases u with
    | main => exact hu rfl
    | worker id =>
      have hloc : Program.locs s (.worker id) = l := by simp [Program.locs, hl, Status.loc]
      have hs := stuck h hblocked id
      rw [hloc] at hs
      cases hs with
      | begin hb | first hb | countLock hb | lineLock hb | loop hb | done hb =>
        rw [hsig] at hb
        cases hb
  | woken m k =>
    exfalso
    obtain ⟨-, rfl, -⟩ := asleep_main h .main m k (.inr hst)
    have hrun := hblocked .main .run (by simp)
    simp [hst, Program.next, ready_free h hblocked] at hrun

/-- When all have counted themselves a blocked thread is at its end, or has one mutex and waits for
the next one. -/
theorem stuck_counted {id : Fin T} (hc : counted (Program.locs s (.worker id)).pc = true)
    (hmain : (Program.locs s .main).pc = .join ∨ (Program.locs s .main).pc = .done) :
    (Program.locs s (.worker id)).pc = .done ∨
      (Program.locs s (.worker id)).pc = .loop ∧ (Program.locs s (.worker id)).loop < iters ∧
      ∃ v, holds (.worker v) (Program.locs s (.worker v))
        (.ring (next T (Program.locs s (.worker id)).i)) := by
  have hmain_free : ∀ m, ¬ holds (.main : Thread T) (Program.locs s .main) m := fun m hm => by
    rcases hmain with hpc | hpc <;> simp [holds, hpc] at hm
  cases stuck h hblocked id with
  | begin hb | first hb | countLock hb =>
    rw [hb] at hc
    cases hc
  | lineLock hb u hu =>
    -- its `start_mutex` is unlocked
    exfalso
    have hhold := holds_of_owner h hblocked hu
    cases u with
    | main => exact hmain_free _ hhold
    | worker v => cases stuck_holds h hblocked hhold
  | loop hb hlt u hu =>
    refine .inr ⟨hb, hlt, ?_⟩
    have hhold := holds_of_owner h hblocked hu
    cases u with
    | main => exact absurd hhold (hmain_free _)
    | worker v => exact ⟨v, hhold⟩
  | done hb => exact .inl hb

theorem all_done (t : Thread T) : Done s t := by
  have hinv := inv_reachable h
  have hmain : (Program.locs s .main).pc = .join ∨ (Program.locs s .main).pc = .done := by
    rcases main_stuck h hblocked with ⟨i, loop, hst, -⟩ | ⟨l, hst, hpc⟩
    · exact .inl (by simp [Program.locs, hst, Status.loc])
    · exact .inr (by simp [Program.locs, hst, Status.loc, hpc])
  have hcount : ∀ id : Fin T, counted (Program.locs s (.worker id)).pc = true := fun id => by
    refine counted_all ?_ id
    rw [← hinv.count]
    have hok := hinv.main
    unfold MainOk at hok
    rcases hmain with hpc | hpc <;> rw [hpc] at hok <;> exact hok.2
  have hfront : ∀ id : Fin T, front (Program.locs s (.worker id)) =
      moves (Program.locs s (.worker id)) := fun id => by
    rcases stuck_counted h hblocked (hcount id) hmain with hpc | ⟨hpc, -⟩ <;> simp [front, hpc]
  have hworkers : ∀ id : Fin T, (Program.locs s (.worker id)).pc = .done := by
    by_contra hno
    obtain ⟨u, hu⟩ := not_forall.mp hno
    have hord : Ordered (fun id => moves (Program.locs s (.worker id)))
        fun id => moves (Program.locs s (.worker id)) := by
      have hold := hinv.ordered
      simpa only [hfront] using hold
    obtain ⟨w, hleast, hfree⟩ := hord.exists_free (Nat.pos_of_neZero T)
    -- an unfinished thread is not ahead of `w`, so that `w` is unfinished as well
    have hlt : moves (Program.locs s (.worker w)) < iters - 1 := by
      rcases stuck_counted h hblocked (hcount u) hmain with hpc | ⟨-, hlt, -⟩
      · exact absurd hpc hu
      · have hle := hleast u
        have hpos := (hinv.worker u).loop_pos
        simp only [moves] at hle ⊢
        omega
    rcases stuck_counted h hblocked (hcount w) hmain with hpc | ⟨-, -, v, hv⟩
    · have hplace := (hinv.worker w).place
      simp only [PlaceOk, hpc] at hplace
      omega
    · have hring := stuck_holds h hblocked hv
      injection hring with hi
      refine hfree v ?_
      rw [← (hinv.worker v).index, ← hi, next, (hinv.worker w).index, Nat.mod_add_mod]
  cases t with
  | worker id => exact ⟨_, worker_run h id, hworkers id⟩
  | main =>
    rcases main_stuck h hblocked with ⟨i, loop, -, hi, hex⟩ | hd
    · have hdone := (hinv.worker ⟨i, hi⟩).exited.mpr (hworkers ⟨i, hi⟩)
      rw [hex] at hdone
      cases hdone
    · exact hd

end Blocked

/-! ### The claim for all runs -/

/-- Between its first lock and its last unlock. -/
def Running (pc : Pc) : Prop :=
  pc = .countLock ∨ pc = .count ∨ counted pc = true ∧ pc ≠ .ret ∧ pc ≠ .done

/-- A running thread has its current mutex and at most the next one. -/
theorem running_owner (h : (system T iters).Reachable ok s) {l : Loc}
    (hl : Program.locs s (.worker id) = l) (hrun : Running l.pc) :
    s.shared.owner (.ring l.i) = some (.worker id) ∧
      ∀ j, s.shared.owner (.ring j) = some (.worker id) → j = l.i ∨ j = next T l.i := by
  have hworker := (inv_reachable h).worker id
  rw [hl] at hworker
  constructor
  · refine owner_of_holds h (t := .worker id) ?_ fun he => by cases he
    rw [hl]
    rcases hrun with hpc | hpc | ⟨hc, hne⟩
    · simp [holds, hpc]
    · simp [holds, hpc]
    · exact hworker.holds_ring hc hne
  · intro j hj
    have howns := ((sound_reachable h).owner (.worker id) (.ring j)).mp hj
    rw [worker_run h id, hl] at howns
    change holds (.worker id) l (.ring j) at howns
    obtain ⟨pc, i, loop⟩ := l
    cases pc with
    | prev =>
      rcases howns with he | he
      · injection he with he
        exact .inl he
      · injection he with he
        exact .inr he
    | countLock | lineLock | loop =>
      injection howns with he
      exact .inl he
    | count | signal | countUnlock | lineUnlock =>
      rcases howns with he | he
      · injection he with he
        exact .inl he
      · cases he
    | _ => exact howns.elim

/-- Counted along the ring a thread stays behind those of greater number, with both of its mutexes,
and these stay less than one round ahead. -/
theorem not_overtaken (h : (system T iters).Reachable ok s) {i j : Fin T} (hij : i < j)
    {li lj : Loc} (hli : Program.locs s (.worker i) = li) (hlj : Program.locs s (.worker j) = lj) :
    i + front li < j + moves lj ∧ j + front lj < i + moves li + (T + 1) := by
  obtain ⟨h₁, h₂⟩ := (inv_reachable h).ordered i j hij
  have hval : i.val < j.val := hij
  have hlast := j.isLt
  simp only [hli, hlj] at h₁ h₂
  constructor
  · calc i.val + front li ≤ i + moves lj := Nat.add_le_add_left h₁ _
      _ < j + moves lj := Nat.add_lt_add_right hval _
  · calc j.val + front lj ≤ j + (moves li + 1) := Nat.add_le_add_left h₂ _
      _ < i + moves li + (T + 1) := by omega

/-- In every run of the lock ring: a mutex has one holder at most; a running thread has its current
mutex and at most the next one; the threads keep their order around the ring; and while a thread is
unfinished some unfinished thread is not blocked. -/
theorem lock_ring (h : (system T iters).Reachable System.free s) :
    (∀ t u m, (ring T iters).Owns t (s.thread t) m → (ring T iters).Owns u (s.thread u) m → t = u) ∧
    (∀ id l, Program.locs s (.worker id) = l → Running l.pc →
      s.shared.owner (.ring l.i) = some (.worker id) ∧
        ∀ j, s.shared.owner (.ring j) = some (.worker id) → j = l.i ∨ j = next T l.i) ∧
    (∀ (i j : Fin T) (li lj : Loc), i < j → Program.locs s (.worker i) = li →
      Program.locs s (.worker j) = lj → li.i = (i + moves li) % (T + 1) ∧
        i + front li < j + moves lj ∧ j + front lj < i + moves li + (T + 1)) ∧
    ((∃ t, ¬ Done s t) → ∃ t, ¬ Done s t ∧ ¬ (ring T iters).Blocked s t) := by
  refine ⟨fun t u m ht hu => (sound_reachable h).unique ht hu,
    fun id l hl hrun => running_owner h hl hrun, fun i j li lj hij hli hlj => ⟨?_, ?_⟩,
    fun ⟨t, ht⟩ => ?_⟩
  · rw [← hli]
    exact ((inv_reachable h).worker i).index
  · exact not_overtaken h hij hli hlj
  · by_contra hno
    refine ht (all_done h (fun u => ?_) t)
    by_cases hu : Done s u
    · exact hu.blocked
    · by_contra hb
      exact hno ⟨u, hu, hb⟩

/-- One thread, until it has two mutexes. -/
def twoLocksSchedule (id : Fin T) : List (Thread T × Act (Thread T)) :=
  List.replicate 2 (.main, .run) ++ List.replicate 6 (.worker id, .run) ++
    List.replicate 5 (.main, .run) ++ List.replicate 3 (.worker id, .run)

theorem lock_ring_one : ∃ s : Config (Thread 1) (Shared (Thread 1) Mutex Data) (Status Mutex Loc),
    (Program.locs s (.worker 0)).pc = .prev ∧
    s.shared.owner (.ring (Program.locs s (.worker 0)).i) = some (.worker 0) ∧
    ((∃ t, ¬ Done s t) → ∃ t, ¬ Done s t ∧ ¬ (ring 1 2).Blocked s t) := by
  have hrun : ((system 1 2).exec (fun _ _ => true) ((ring 1 2).start start) (twoLocksSchedule 0)).any
      (fun s => (Program.locs s (.worker 0)).pc = .prev) = true := by decide +kernel
  obtain ⟨s, hs, hpc⟩ := (Option.any_eq_true _ _).mp hrun
  have hpc := of_decide_eq_true hpc
  have h := lock_ring ⟨_, rfl, System.run_of_exec (fun _ _ _ => trivial) hs⟩
  refine ⟨s, hpc, (h.2.1 0 _ rfl (.inr (.inr ?_))).1, h.2.2.2⟩
  rw [hpc]
  exact ⟨rfl, by simp⟩

end LinuxSummer.LockRing
