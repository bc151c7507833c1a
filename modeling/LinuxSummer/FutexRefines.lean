import LinuxSummer.FutexNotified
import LinuxSummer.FutexProgram

/-! The mutexes of hw2/mutex.h and the condition variables of hw2/cond.h are correct: what a program
does on them it can also do on mutexes whose calls are one step each. A call takes effect where it
gets the mutex or gives it back, a signal and a broadcast where they count up `seq`. -/
namespace LinuxSummer.FutexProgram
open Monitor
set_option linter.unusedSectionVars false

variable {T M Γ L : Type*} [DecidableEq T] [DecidableEq M]

/-- A state of the program on correct mutexes. -/
abbrev Ideal (T M Γ L : Type*) := Config T (Shared T M Γ) (Status M L)

/-- Where a thread is on correct mutexes, when it is in a call for `m`, after which it goes on at `k`,
and the call has come to a stage. -/
@[simp] def Matches (i : L → Instr M Γ L) (m : M) (k : L) (waits : Prop) (st : Status M L) :
    Futex.Stage → Prop
  | .trying => False
  | .locking => ∃ l, st = .run l ∧ i l = .lock m k
  | .unlocking => ∃ l, st = .run l ∧ i l = .unlock m k
  | .entering => ∃ l, st = .run l ∧ i l = .wait m k
  | .waiting => st = .asleep m k ∧ waits ∨ st = .woken m k
  | .relocking => st = .woken m k
  | .signalling => ∃ l, st = .run l ∧ i l = .signal m k
  | .broadcasting => ∃ l, st = .run l ∧ i l = .broadcast m k
  | .done => st = .run k

/-- The data are the same, a mutex has the owner that holds it, and each thread is where its call has
come to. -/
structure Refines (P : Program T M Γ L) (c : State T M Γ L) (s : Ideal T M Γ L) : Prop where
  data : s.shared.data = c.shared.data
  owner : ∀ m t, s.shared.owner m = some t ↔ ((c.thread t).use m).holds = true
  at_place : ∀ t l, (c.thread t).place = .run l → s.thread t = .run l
  in_call : ∀ t m k, (c.thread t).place = .call m k → Matches (P.instr t) m k
    (t ∈ s.shared.waiters m) (s.thread t) ((c.thread t).use m).pc.stage

variable {P : Program T M Γ L} {p : Futex.WakePolicy} {d : Γ} {t u : T} {m : M} {k x : L}
  {c : State T M Γ L} {s s' : Ideal T M Γ L} {g : Mem T M Γ} {l : Local M L} {a : Act T}
  {ok : State T M Γ L → T × Act T → Prop}

theorem refines_start : Refines P (start P d) (P.start d) := by
  refine ⟨rfl, fun m t => ?_, fun t l h => ?_, fun t m k h => ?_⟩
  · simp [Program.start, start, Futex.start]
  · cases h
    rfl
  · cases h

/-! ### Steps on correct mutexes -/

section Steps

/-- A step of a thread that is at `st`. -/
theorem next_at {g : Shared T M Γ} {st st' : Status M L} (hs : s.thread t = st)
    (h : P.next t s.shared st a = some (g, st')) :
    (P.system d).next s (t, a) = some ⟨g, Function.update s.thread t st'⟩ := by
  subst hs
  exact Option.map_eq_some_iff.mpr ⟨(g, st'), h, rfl⟩

/-- A thread outside its `wait` makes the step of its statement. -/
theorem next_run {i : Instr M Γ L} {g : Shared T M Γ} {st : Status M L} (hs : s.thread t = .run x)
    (hi : P.instr t x = i) (h : Monitor.perform t s.shared i a = some (g, st)) :
    (P.system d).next s (t, a) = some ⟨g, Function.update s.thread t st⟩ := by
  subst hi
  exact next_at hs h

theorem next_lock (hs : s.thread t = .run x) (hi : P.instr t x = .lock m k)
    (hf : s.shared.owner m = none) : (P.system d).next s (t, .run) =
      some ⟨s.shared.acquire m t, Function.update s.thread t (.run k)⟩ :=
  next_run hs hi (if_pos hf)

theorem next_unlock (hs : s.thread t = .run x) (hi : P.instr t x = .unlock m k) :
    (P.system d).next s (t, .run) =
      some ⟨s.shared.release m, Function.update s.thread t (.run k)⟩ :=
  next_run hs hi rfl

theorem next_wait (hs : s.thread t = .run x) (hi : P.instr t x = .wait m k) :
    (P.system d).next s (t, .run) =
      some ⟨(s.shared.release m).enter m t, Function.update s.thread t (.asleep m k)⟩ :=
  next_run hs hi rfl

theorem next_quiet (hs : s.thread t = .run x) (hi : P.instr t x = .signal m k)
    (hw : s.shared.waiters m = []) :
    (P.system d).next s (t, .run) = some ⟨s.shared, Function.update s.thread t (.run k)⟩ :=
  next_run hs hi (if_pos hw)

theorem next_signal (hs : s.thread t = .run x) (hi : P.instr t x = .signal m k)
    (hu : u ∈ s.shared.waiters m) : (P.system d).next s (t, .notify u) =
      some ⟨s.shared.leave m u, Function.update s.thread t (.run k)⟩ :=
  next_run hs hi (if_pos hu)

theorem next_broadcast (hs : s.thread t = .run x) (hi : P.instr t x = .broadcast m k) :
    (P.system d).next s (t, .run) =
      some ⟨s.shared.clear m, Function.update s.thread t (.run k)⟩ :=
  next_run hs hi rfl

theorem next_relock (hs : s.thread t = .woken m k) (hf : s.shared.owner m = none) :
    (P.system d).next s (t, .run) =
      some ⟨s.shared.acquire m t, Function.update s.thread t (.run k)⟩ :=
  next_at hs (if_pos hf)

theorem next_wake (hs : s.thread t = .asleep m k) (ht : t ∉ s.shared.waiters m) :
    (P.system d).next s (t, .run) = some ⟨s.shared, Function.update s.thread t (.woken m k)⟩ :=
  next_at hs (if_neg ht)

theorem next_spurious (hs : s.thread t = .asleep m k) (ht : t ∈ s.shared.waiters m) :
    (P.system d).next s (t, .spurious) =
      some ⟨s.shared.leave m t, Function.update s.thread t (.woken m k)⟩ :=
  next_at hs (if_pos ht)

end Steps

/-- The threads `ts` have been woken from their `wait` for `m`, and nothing else has happened. -/
structure Woken (m : M) (ts : List T) (s s' : Ideal T M Γ L) : Prop where
  data : s'.shared.data = s.shared.data
  owner : s'.shared.owner = s.shared.owner
  waiters : ∀ u m', u ∈ s'.shared.waiters m' ↔ u ∈ s.shared.waiters m' ∧ ¬ (m' = m ∧ u ∈ ts)
  rest : ∀ u, u ∉ ts → s'.thread u = s.thread u
  woken : ∀ u ∈ ts, ∃ k, s.thread u = .asleep m k ∧ s'.thread u = .woken m k

theorem mem_leave (hnd : ∀ m, (s.shared.waiters m).Nodup) (m m' : M) (t u : T) :
    u ∈ (s.shared.leave m t).waiters m' ↔ u ∈ s.shared.waiters m' ∧ ¬ (m' = m ∧ u = t) := by
  by_cases hm : m' = m
  · subst hm
    simp only [Shared.leave, Function.update_self, (hnd m').mem_erase_iff]
    tauto
  · simp [Shared.leave, hm]

/-- Waiting threads may wake up by themselves. -/
theorem run_woken (ts : List T) (hnd : ts.Nodup) (hr : (P.system d).Reachable System.free s)
    (hts : ∀ u ∈ ts, u ∈ s.shared.waiters m) :
    ∃ s', (P.system d).Run System.free s s' ∧ Woken m ts s s' := by
  induction ts generalizing s with
  | nil => exact ⟨s, .refl, rfl, rfl, by simp, fun _ _ => rfl, by simp⟩
  | cons t ts ih =>
    obtain ⟨ht, hnd⟩ := List.nodup_cons.mp hnd
    have hs := sound_reachable hr
    have hmem := hts t List.mem_cons_self
    obtain ⟨k, hk⟩ := hs.asleep t m hmem
    have hn := next_spurious (P := P) (d := d) hk hmem
    have hne {u : T} (hu : u ∈ ts) : u ≠ t := by
      rintro rfl
      exact ht hu
    obtain ⟨s', hrun, hw⟩ := ih hnd (System.reachable_step hr trivial hn) fun u hu =>
      (mem_leave hs.nodup m m t u).mpr ⟨hts u (List.mem_cons_of_mem t hu), fun h => hne hu h.2⟩
    refine ⟨s', (System.run_step trivial hn).trans hrun, hw.data, hw.owner, fun u m' => ?_,
      fun u hu => ?_, fun u hu => ?_⟩
    · rw [hw.waiters, mem_leave hs.nodup, List.mem_cons]
      tauto
    · obtain ⟨hut, hu⟩ := not_or.mp (List.mem_cons.not.mp hu)
      rw [hw.rest u hu]
      exact Function.update_of_ne hut ..
    · rcases List.mem_cons.mp hu with rfl | hu
      · exact ⟨k, hk, by rw [hw.rest u ht]; simp⟩
      · obtain ⟨k', hold, hnew⟩ := hw.woken u hu
        simp only [Function.update_of_ne (hne hu)] at hold
        exact ⟨k', hold, hnew⟩

/-! ### Steps of the code -/

/-- The thread is where it was, or has been woken. -/
def Kept (s s' : Ideal T M Γ L) (u : T) : Prop :=
  s'.thread u = s.thread u ∧ (∀ m, u ∈ s.shared.waiters m → u ∈ s'.shared.waiters m) ∨
    ∃ m k, s.thread u = .asleep m k ∧ s'.thread u = .woken m k

theorem Matches.kept {i : L → Instr M Γ L} {st st' : Status M L} {waits waits' : Prop}
    {stage : Futex.Stage} (h : Matches i m k waits st stage)
    (hk : st' = st ∧ (waits → waits') ∨ ∃ m k, st = .asleep m k ∧ st' = .woken m k) :
    Matches i m k waits' st' stage := by
  rcases hk with ⟨rfl, hw⟩ | ⟨m', k', rfl, rfl⟩
  · cases stage with
    | waiting => exact h.imp_left fun h => ⟨h.1, hw h.2⟩
    | _ => exact h
  · cases stage with
    | waiting =>
      rcases h with ⟨h, -⟩ | h <;> cases h
      exact .inr rfl
    | trying => exact h
    | relocking | done => cases h
    | _ =>
      obtain ⟨x, h, -⟩ := h
      cases h

theorem Woken.kept {ts : List T} (h : Woken m ts s s') (u : T) : Kept s s' u := by
  by_cases hu : u ∈ ts
  · obtain ⟨k, hold, hnew⟩ := h.woken u hu
    exact .inr ⟨m, k, hold, hnew⟩
  · exact .inl ⟨h.rest u hu, fun m' hm => (h.waiters u m').mpr ⟨hm, fun he => hu he.2⟩⟩

theorem Refines.step (hr : Refines P c s) (hdata : s'.shared.data = g.data)
    (howner : ∀ m u, s'.shared.owner m = some u ↔
      ((Function.update c.thread t l u).use m).holds = true)
    (hplace : ∀ x, l.place = .run x → s'.thread t = .run x)
    (hcall : ∀ m k, l.place = .call m k → Matches (P.instr t) m k (t ∈ s'.shared.waiters m)
      (s'.thread t) (l.use m).pc.stage)
    (hother : ∀ u, u ≠ t → Kept s s' u) : Refines P ⟨g, Function.update c.thread t l⟩ s' := by
  refine ⟨hdata, howner, fun u x hu => ?_, fun u m k hu => ?_⟩
  · by_cases hut : u = t
    · subst hut
      simp only [Function.update_self] at hu
      exact hplace x hu
    · simp only [Function.update_of_ne hut] at hu
      have hold := hr.at_place u x hu
      rcases hother u hut with ⟨hs, -⟩ | ⟨m, k, hs, -⟩
      · rw [hs, hold]
      · rw [hold] at hs
        cases hs
  · by_cases hut : u = t
    · subst hut
      simp only [Function.update_self] at hu ⊢
      exact hcall m k hu
    · simp only [Function.update_of_ne hut] at hu ⊢
      refine (hr.in_call u m k hu).kept ?_
      exact (hother u hut).imp_left fun h => ⟨h.1, h.2 m⟩

section Inside
variable {w : Futex.Shared T Unit} {v : Futex.Local Unit}

/-- The state after a step of the call for `m`. -/
abbrev afterCall (c : State T M Γ L) (t : T) (m : M) (k : L) (w : Futex.Shared T Unit)
    (v : Futex.Local Unit) : State T M Γ L :=
  ⟨{ c.shared with word := Function.update c.shared.word m w }, Function.update c.thread t
    ⟨if v.pc = .idle then .run k else .call m k, Function.update (c.thread t).use m v⟩⟩

theorem view_afterCall : view m (afterCall c t m k w v) =
    ⟨w, Function.update (view m c).thread t v⟩ := by
  rw [view_update]
  simp only [Function.update_self]

theorem view_afterCall_other {m' : M} (hm : m' ≠ m) : view m' (afterCall c t m k w v) = view m' c :=
  view_keep (Function.update_of_ne hm ..) (Function.update_of_ne hm ..)

theorem Refines.inside (hr : Refines P c s) (hdata : s'.shared.data = s.shared.data)
    (howner : ∀ m' u, s'.shared.owner m' = some u ↔
      if u = t ∧ m' = m then v.holds = true else s.shared.owner m' = some u)
    (hmatch : Matches (P.instr t) m k (t ∈ s'.shared.waiters m) (s'.thread t) v.pc.stage)
    (hother : ∀ u, u ≠ t → Kept s s' u) : Refines P (afterCall c t m k w v) s' := by
  refine hr.step (hdata.trans hr.data) (fun m' u => ?_) (fun x hx => ?_) (fun m' k' hk => ?_) hother
  · rw [howner, hr.owner]
    by_cases hu : u = t
    · subst hu
      by_cases hm : m' = m
      · subst hm
        simp
      · simp [hm]
    · simp [hu]
  · split at hx <;> rename_i hpc <;> cases hx
    rw [hpc] at hmatch
    exact hmatch
  · split at hk <;> cases hk
    simpa only [Function.update_self] using hmatch

/-- What a step has to keep for the signals to reach the waiting threads. -/
def Keeps [Fintype T] (p : Futex.WakePolicy) (c c' : State T M Γ L) (s s' : Ideal T M Γ L) : Prop :=
  p = .longest → FewSignals c → (∀ m, Futex.Notified (view m c) (s.shared.waiters m)) →
    ∀ m, Futex.Notified (view m c') (s'.shared.waiters m)

/-- The program on correct mutexes answers a step of the code. -/
def Answered [Fintype T] (P : Program T M Γ L) (p : Futex.WakePolicy) (d : Γ)
    (c c' : State T M Γ L) (s : Ideal T M Γ L) : Prop :=
  ∃ s', (P.system d).Run System.free s s' ∧ Refines P c' s' ∧ Keeps p c c' s s'

variable [Fintype T]

theorem Keeps.of_one (hother : ∀ m' u, m' ≠ m → (u ∈ s'.shared.waiters m' ↔ u ∈ s.shared.waiters m'))
    (h : p = .longest → FewSignals c → Futex.Notified (view m c) (s.shared.waiters m) →
      Futex.Notified ⟨w, Function.update (view m c).thread t v⟩ (s'.shared.waiters m)) :
    Keeps p c (afterCall c t m k w v) s s' := by
  intro hp hf hn m'
  by_cases hm : m' = m
  · subst hm
    rw [view_afterCall]
    exact h hp hf (hn m')
  · rw [view_afterCall_other hm]
    have hold := hn m'
    exact ⟨fun u hu hpc hW => hold.stale u hu hpc fun h => hW ((hother m' u hm).mpr h),
      fun u hW => hold.asleep u ((hother m' u hm).mp hW),
      hold.covered.imp_right fun ⟨n, hle, hd⟩ => ⟨n, hle, fun u hu => (hother m' u hm).mpr (hd u hu)⟩⟩

theorem kept_of_update {G : Shared T M Γ} {st : Status M L} (hu : u ≠ t)
    (hw : ∀ m, u ∈ s.shared.waiters m → u ∈ G.waiters m) :
    Kept s ⟨G, Function.update s.thread t st⟩ u :=
  .inl ⟨Function.update_of_ne hu .., hw⟩

/-- The owners are the same while `t` holds its mutex as before. -/
theorem owner_same (hf : Refines P c s) (hholds : v.holds = ((c.thread t).use m).holds)
    {G : Shared T M Γ} (hG : G.owner = s.shared.owner) (m' : M) (u : T) :
    G.owner m' = some u ↔
      if u = t ∧ m' = m then v.holds = true else s.shared.owner m' = some u := by
  rw [hG]
  by_cases h : u = t ∧ m' = m
  · obtain ⟨rfl, rfl⟩ := h
    simp [hf.owner, hholds]
  · simp [h]

/-- A step by which nothing happens on correct mutexes. -/
theorem answered_same (hf : Refines P c s) (hholds : v.holds = ((c.thread t).use m).holds)
    (hmatch : Matches (P.instr t) m k (t ∈ s.shared.waiters m) (s.thread t) v.pc.stage)
    (hn : FewSignals c → Futex.Notified (view m c) (s.shared.waiters m) →
      Futex.Notified ⟨w, Function.update (view m c).thread t v⟩ (s.shared.waiters m)) :
    Answered P p d c (afterCall c t m k w v) s := by
  exact ⟨s, .refl, hf.inside rfl (owner_same hf hholds rfl) hmatch
    fun u _ => .inl ⟨rfl, fun _ h => h⟩, .of_one (fun _ _ _ => Iff.rfl) fun _ => hn⟩

/-- The mutex is free when its word is not locked. -/
theorem owner_of_unlocked (hf : Refines P c s) (hi : Futex.Inv (view m c))
    (hu : (c.shared.word m).state &&& Futex.mutexLocked = 0) : s.shared.owner m = none := by
  refine Option.eq_none_iff_forall_ne_some.mpr fun u h => ?_
  exact hi.holder_locked u ((hf.owner m u).mp h) (hi.word.unlocked hu)

theorem answered_acquire (hf : Refines P c s) (hi : Futex.Inv (view m c))
    (hplace : (c.thread t).place = .call m k)
    (hstage : ((c.thread t).use m).pc.stage = .locking ∨ ((c.thread t).use m).pc.stage = .relocking)
    (hstage' : v.pc.stage = .done) (hafter : ¬ v.pc.Waking)
    (hunlocked : (c.shared.word m).state &&& Futex.mutexLocked = 0) (hholds : v.holds = true)
    (hadds : w.adds () = (c.shared.word m).adds ())
    (hq : w.sleepers = (c.shared.word m).sleepers) :
    Answered P p d c (afterCall c t m k w v) s := by
  have hfree := owner_of_unlocked hf hi hunlocked
  have hmatch := hf.in_call t m k hplace
  have hnext : (P.system d).next s (t, .run) =
      some ⟨s.shared.acquire m t, Function.update s.thread t (.run k)⟩ := by
    rcases hstage with hst | hst <;> rw [hst] at hmatch
    · obtain ⟨x, hx, hinstr⟩ := hmatch
      exact next_lock hx hinstr hfree
    · exact next_relock hmatch hfree
  refine ⟨_, System.run_step trivial hnext, hf.inside rfl (fun m' u => ?_) ?_
    fun u hu => kept_of_update hu fun _ h => h, .of_one (fun _ _ _ => Iff.rfl) fun _ _ hn => ?_⟩
  · by_cases hm : m' = m
    · subst hm
      simp only [Shared.acquire, Function.update_self, Option.some.injEq, hholds, and_true]
      by_cases hu : u = t
      · simp [hu]
      · simp [hu, Ne.symm hu, hfree]
    · simp [Shared.acquire, hm]
  · rw [hstage']
    simp
  · refine hn.quiet (Futex.not_waking ?_) hafter (by simp [hstage']) hadds hq
    rcases hstage with hst | hst <;> simp [view, hst]

/-- The mutex is given back, by `mutex_unlock` or in `cond_wait`. -/
theorem owner_of_release (hf : Refines P c s) (hi : Futex.Inv (view m c))
    (hholder : Futex.HolderPc ((c.thread t).use m).pc) (hholds : v.holds = false) (m' : M) (u : T) :
    (s.shared.release m).owner m' = some u ↔
      if u = t ∧ m' = m then v.holds = true else s.shared.owner m' = some u := by
  have hown := (hf.owner m t).mpr (hi.holder_pc t hholder)
  by_cases hm : m' = m
  · subst hm
    by_cases hu : u = t
    · simp [Shared.release, hu, hholds]
    · simp [Shared.release, hu, hown, Ne.symm hu]
  · simp [Shared.release, hm]

theorem answered_release (hf : Refines P c s) (hi : Futex.Inv (view m c))
    (hplace : (c.thread t).place = .call m k)
    (hstage : ((c.thread t).use m).pc.stage = .unlocking) (hstage' : v.pc.stage = .done)
    (hafter : ¬ v.pc.Waking) (hholder : Futex.HolderPc ((c.thread t).use m).pc)
    (hholds : v.holds = false) (hadds : w.adds () = (c.shared.word m).adds ())
    (hq : w.sleepers = (c.shared.word m).sleepers) :
    Answered P p d c (afterCall c t m k w v) s := by
  have hmatch := hf.in_call t m k hplace
  rw [hstage] at hmatch
  obtain ⟨x, hx, hinstr⟩ := hmatch
  refine ⟨_, System.run_step trivial (next_unlock hx hinstr),
    hf.inside rfl (owner_of_release hf hi hholder hholds) ?_
    fun u hu => kept_of_update hu fun _ h => h, .of_one (fun _ _ _ => Iff.rfl) fun _ _ hn => ?_⟩
  · rw [hstage']
    simp
  · exact hn.quiet (Futex.not_waking (by simp [view, hstage])) hafter (by simp [hstage']) hadds hq

theorem answered_enter (hf : Refines P c s) (hi : Futex.Inv (view m c))
    (hplace : (c.thread t).place = .call m k)
    (hstage : ((c.thread t).use m).pc.stage = .entering) (hstage' : v.pc.stage = .waiting)
    (hawake : ∀ seq, v.pc ≠ .condSleep () seq) (hholder : Futex.HolderPc ((c.thread t).use m).pc)
    (hholds : v.holds = false) (hadds : w.adds () = (c.shared.word m).adds ())
    (hq : w.sleepers = (c.shared.word m).sleepers) :
    Answered P p d c (afterCall c t m k w v) s := by
  have hmatch := hf.in_call t m k hplace
  rw [hstage] at hmatch
  obtain ⟨x, hx, hinstr⟩ := hmatch
  have hwaiters (m' : M) (u : T) : u ∈ ((s.shared.release m).enter m t).waiters m' ↔
      u ∈ s.shared.waiters m' ∨ m' = m ∧ u = t := by
    by_cases hm : m' = m
    · subst hm
      simp [Shared.enter, Shared.release]
    · simp [Shared.enter, Shared.release, hm]
  refine ⟨_, System.run_step trivial (next_wait hx hinstr),
    hf.inside rfl (owner_of_release hf hi hholder hholds) ?_
    fun u hu => kept_of_update hu fun m' h => (hwaiters m' u).mpr (.inl h),
    .of_one (fun m' u hm => by simp [hwaiters, hm]) fun _ _ hn =>
      hn.enter hstage hstage' hawake hadds hq fun u => by simp [hwaiters]⟩
  rw [hstage']
  exact .inl ⟨by simp, (hwaiters m t).mpr (.inr ⟨rfl, rfl⟩)⟩

/-- A thread leaves its wait: if no signal has been given to it, it wakes up by itself. -/
theorem answered_leave (hr : (P.system d).Reachable System.free s) (hf : Refines P c s)
    (hi : Futex.Inv (view m c)) (hplace : (c.thread t).place = .call m k)
    (hstage : ((c.thread t).use m).pc.stage = .waiting) (hstage' : v.pc.stage = .relocking)
    (hholds : v.holds = ((c.thread t).use m).holds)
    (hadds : w.adds () = (c.shared.word m).adds ())
    (hq : w.sleepers = (c.shared.word m).sleepers.erase t) :
    Answered P p d c (afterCall c t m k w v) s := by
  have hs := sound_reachable hr
  have hmatch := hf.in_call t m k hplace
  rw [hstage] at hmatch
  rcases hmatch with ⟨hk, hmem⟩ | hk
  · have hwaiters := mem_leave hs.nodup m (t := t)
    refine ⟨_, System.run_step trivial (next_spurious hk hmem),
      hf.inside rfl (owner_same hf hholds rfl) ?_
      fun u hu => kept_of_update hu fun m' h => (hwaiters m' u).mpr ⟨h, fun he => hu he.2⟩,
      .of_one (fun m' u hm => by simp [hwaiters, hm]) fun _ _ hn =>
        hn.leave hi hstage hstage' hadds hq fun u => by simp [hwaiters]⟩
    rw [hstage']
    simp
  · refine answered_same hf hholds (by rw [hstage']; exact hk) fun _ hn =>
      hn.leave hi hstage hstage' hadds hq fun u => ⟨fun h => ⟨h, ?_⟩, And.left⟩
    rintro rfl
    obtain ⟨k', hk'⟩ := hs.asleep u m h
    rw [hk] at hk'
    cases hk'

/-- Who waits on correct mutexes is in the waiting part of `cond_wait`. -/
theorem waiting_of_mem (hr : (P.system d).Reachable System.free s) (hf : Refines P c s)
    (hu : u ∈ s.shared.waiters m) : ((c.thread u).use m).pc.stage = .waiting := by
  obtain ⟨k', hk⟩ := (sound_reachable hr).asleep u m hu
  cases hplace : (c.thread u).place with
  | run x =>
    rw [hf.at_place u x hplace] at hk
    cases hk
  | call m' k =>
    have hmatch := hf.in_call u m' k hplace
    rw [hk] at hmatch
    cases hst : ((c.thread u).use m').pc.stage <;> rw [hst] at hmatch <;> simp at hmatch
    rwa [hmatch.1.1]

/-- A call that has had its effect lets sleepers go. Those that no signal was given to wake up by
themselves. -/
theorem answered_woken (hr : (P.system d).Reachable System.free s) (hf : Refines P c s)
    (hplace : (c.thread t).place = .call m k) (hstage : ((c.thread t).use m).pc.stage = .done)
    (hstage' : v.pc.stage = .done) (hholds : v.holds = ((c.thread t).use m).holds)
    (gone : T → Prop) [DecidablePred gone]
    (hn : p = .longest → Futex.Notified (view m c) (s.shared.waiters m) →
      ∀ W' : List T, (∀ u, u ∈ W' ↔ u ∈ s.shared.waiters m ∧ ¬ gone u) →
        Futex.Notified ⟨w, Function.update (view m c).thread t v⟩ W') :
    Answered P p d c (afterCall c t m k w v) s := by
  have hmatch := hf.in_call t m k hplace
  rw [hstage] at hmatch
  have hnd := ((sound_reachable hr).nodup m).filter (fun u => decide (gone u))
  have hmem (u : T) : u ∈ (s.shared.waiters m).filter (fun u => decide (gone u)) ↔
      u ∈ s.shared.waiters m ∧ gone u := by
    simp
  obtain ⟨s', hrun, hw⟩ := run_woken _ hnd hr fun u hu => ((hmem u).mp hu).1
  have ht : s'.thread t = s.thread t := by
    refine hw.rest t fun h => ?_
    obtain ⟨k', hk', -⟩ := hw.woken t h
    rw [hmatch] at hk'
    cases hk'
  refine ⟨s', hrun, hf.inside hw.data (owner_same hf hholds hw.owner) ?_ fun u _ => hw.kept u,
    .of_one (fun m' u hm => by simp [hw.waiters, hm]) fun hp _ hold =>
      hn hp hold _ fun u => by simp only [hw.waiters, hmem]; tauto⟩
  rw [hstage', ht]
  exact hmatch

theorem answered_signalAdd (hr : (P.system d).Reachable System.free s) (hf : Refines P c s)
    (hi : Futex.Inv (view m c)) (hc : Futex.SeqCounts (view m c))
    (hplace : (c.thread t).place = .call m k) (hpc : ((c.thread t).use m).pc = .signalAdd ())
    (hpc' : v.pc = .signalWake ()) (hholds : v.holds = ((c.thread t).use m).holds)
    (hadds : w.adds () = (c.shared.word m).adds () + 1)
    (hq : w.sleepers = (c.shared.word m).sleepers) :
    Answered P p d c (afterCall c t m k w v) s := by
  have hs := sound_reachable hr
  have hmatch := hf.in_call t m k hplace
  rw [hpc] at hmatch
  obtain ⟨x, hx, hinstr⟩ := hmatch
  by_cases hnil : s.shared.waiters m = []
  · refine ⟨_, System.run_step trivial (next_quiet hx hinstr hnil),
      hf.inside rfl (owner_same hf hholds rfl) ?_ fun u hu => kept_of_update hu fun _ h => h,
      .of_one (fun _ _ _ => Iff.rfl) fun _ _ hn => ?_⟩
    · rw [hpc']
      simp [Futex.Pc.stage]
    · simp only [hnil] at hn ⊢
      exact hn.signal_none hpc hpc' hadds hq
  · -- the signal is given to the waiting thread that the code can reach, if there is one
    have hpick : ∃ u ∈ s.shared.waiters m, Futex.Notified (view m c) (s.shared.waiters m) →
        Futex.Notified ⟨w, Function.update (view m c).thread t v⟩ ((s.shared.waiters m).erase u) := by
      by_cases hn : Futex.Notified (view m c) (s.shared.waiters m)
      · obtain ⟨u, hu, hn'⟩ := hn.signalAdd hi hc (fun u hu => waiting_of_mem hr hf hu) (hs.nodup m)
          hnil hpc hpc' hadds hq
        exact ⟨u, hu, fun _ => hn'⟩
      · obtain ⟨u, hu⟩ := List.exists_mem_of_ne_nil _ hnil
        exact ⟨u, hu, fun h => absurd h hn⟩
    obtain ⟨y, hy, hn'⟩ := hpick
    obtain ⟨ky, hky⟩ := hs.asleep y m hy
    have hyt : y ≠ t := by
      rintro rfl
      rw [hx] at hky
      cases hky
    have hwaiters := mem_leave hs.nodup m (t := y)
    have hwake := next_wake (P := P) (d := d) (t := y) (m := m) (k := ky)
      (s := ⟨s.shared.leave m y, Function.update s.thread t (.run k)⟩)
      (by simpa [hyt] using hky) (by simp [hwaiters])
    refine ⟨_, (System.run_step trivial (next_signal hx hinstr hy)).trans
      (System.run_step trivial hwake), hf.inside rfl (owner_same hf hholds rfl) ?_ (fun u hu => ?_),
      .of_one (fun m' u hm => by simp [hwaiters, hm]) fun _ _ hn => ?_⟩
    · rw [hpc']
      simp [Futex.Pc.stage, Ne.symm hyt]
    · by_cases huy : u = y
      · subst huy
        exact .inr ⟨m, ky, hky, by simp⟩
      · refine .inl ⟨by simp [hu, huy], fun m' h => (hwaiters m' u).mpr ⟨h, fun he => huy he.2⟩⟩
    · simpa [Shared.leave] using hn' hn

theorem answered_broadcastAdd (hr : (P.system d).Reachable System.free s) (hf : Refines P c s)
    (hc : Futex.SeqCounts (view m c)) (hplace : (c.thread t).place = .call m k)
    (hpc : ((c.thread t).use m).pc = .broadcastAdd ()) (hpc' : v.pc = .broadcastRequeue ())
    (hholds : v.holds = ((c.thread t).use m).holds)
    (hadds : w.adds () = (c.shared.word m).adds () + 1) :
    Answered P p d c (afterCall c t m k w v) s := by
  have hs := sound_reachable hr
  have hmatch := hf.in_call t m k hplace
  rw [hpc] at hmatch
  obtain ⟨x, hx, hinstr⟩ := hmatch
  obtain ⟨s', hrun, hw⟩ := run_woken (s.shared.waiters m) (hs.nodup m) hr fun u hu => hu
  have ht : s'.thread t = .run x := by
    rw [hw.rest t fun h => ?_, hx]
    obtain ⟨k', hk', -⟩ := hw.woken t h
    rw [hx] at hk'
    cases hk'
  have hnone (u : T) : u ∉ s'.shared.waiters m := fun h => by
    have hu := (hw.waiters u m).mp h
    exact hu.2 ⟨rfl, hu.1⟩
  have hclear (m' : M) (u : T) : u ∈ (s'.shared.clear m).waiters m' ↔ u ∈ s'.shared.waiters m' := by
    by_cases hm : m' = m
    · subst hm
      simp [Shared.clear, hnone]
    · simp [Shared.clear, hm]
  refine ⟨_, hrun.trans (System.run_step trivial (next_broadcast ht hinstr)),
    hf.inside hw.data (owner_same hf hholds hw.owner) ?_ (fun u hu => ?_),
    .of_one (fun m' u hm => by simp [hclear, hw.waiters, hm]) fun _ _ hn =>
      hn.broadcastAdd hc (fun u hu => waiting_of_mem hr hf hu) hpc' hadds
        fun u hu => hnone u ((hclear m u).mp hu)⟩
  · rw [hpc']
    simp [Futex.Pc.stage]
  · rcases hw.kept u with ⟨hold, hmem⟩ | ⟨m', k', hold, hnew⟩
    · exact .inl ⟨by simpa [hu] using hold, fun m' h => (hclear m' u).mpr (hmem m' h)⟩
    · exact .inr ⟨m', k', hold, by simpa [hu] using hnew⟩

theorem answered_inside (hr : (P.system d).Reachable System.free s) (hf : Refines P c s)
    (ht : Tidy c) (hi : Futex.Inv (view m c)) (hc : Futex.SeqCounts (view m c))
    (hplace : (c.thread t).place = .call m k) {b : Futex.Act T Unit}
    (h : Futex.next p t (c.shared.word m) ((c.thread t).use m) b = some (w, v)) :
    Answered P p d c (afterCall c t m k w v) s := by
  have hmatch := hf.in_call t m k hplace
  cases move_of_next hi ht hplace h with
  | quiet stage awake before after calm sleepers =>
    exact answered_same hf calm.holds (by rwa [stage]) fun _ hn =>
      hn.quiet before after (stage ▸ awake) calm.adds sleepers
  | acquire stage stage' after unlocked holds adds sleepers =>
    exact answered_acquire hf hi hplace stage stage' after unlocked holds adds sleepers
  | release stage stage' after holder holds adds sleepers =>
    exact answered_release hf hi hplace stage stage' after holder holds adds sleepers
  | enter stage stage' awake holder holds adds sleepers =>
    exact answered_enter hf hi hplace stage stage' awake holder holds adds sleepers
  | onward stage stage' before after since calm sleepers =>
    exact answered_same hf calm.holds (by rwa [stage', ← stage]) fun _ hn =>
      hn.onward stage stage' before after since calm.adds sleepers
  | sleep seq pc pc' word calm sleepers =>
    rw [pc] at hmatch
    exact answered_same hf calm.holds (by rw [pc']; exact hmatch) fun hfew hn =>
      hn.sleep hc (hfew m) pc pc' word calm.adds sleepers
  | leave stage stage' calm sleepers =>
    exact answered_leave hr hf hi hplace stage stage' calm.holds calm.adds sleepers
  | signalAdd pc pc' holds adds sleepers =>
    exact answered_signalAdd hr hf hi hc hplace pc pc' holds adds sleepers
  | signalWake pc pc' calm sleepers =>
    rcases sleepers with ⟨hnil, hnil'⟩ | ⟨y, hy, hq⟩
    · refine answered_woken hr hf hplace (by rw [pc]; rfl) (by rw [pc']; rfl) calm.holds
        (fun _ => False) fun _ hn W' hW => ?_
      exact hn.signalWake hi pc pc' calm.adds (.inl ⟨hnil, hnil', fun u => by simp [hW]⟩)
    · refine answered_woken hr hf hplace (by rw [pc]; rfl) (by rw [pc']; rfl) calm.holds
        (fun u => u = y) fun hp hn W' hW => ?_
      exact hn.signalWake hi pc pc' calm.adds (.inr ⟨y, hp ▸ hy, hq, hW⟩)
  | broadcastAdd pc pc' holds adds sleepers =>
    exact answered_broadcastAdd hr hf hc hplace pc pc' holds adds
  | broadcastRequeue pc pc' calm sleepers =>
    exact answered_woken hr hf hplace (by rw [pc]; rfl) (by rw [pc']; rfl) calm.holds
      (fun u => u ∈ (c.shared.word m).sleepers) fun _ hn W' hW =>
        hn.broadcastRequeue hi pc' calm.adds sleepers hW

end Inside

/-! ### Runs -/

section Runs
variable [Fintype T]

/-- A call begins. -/
theorem answered_call (hf : Refines P c s) (ht : Tidy c) {op : Futex.Op Unit} {v : Futex.Local Unit}
    (hplace : (c.thread t).place = .run x) (hcalled : called (P.instr t x) = some (m, op, k))
    (henter : Futex.enter ((c.thread t).use m) op = some v) :
    Answered P p d c ⟨c.shared, Function.update c.thread t
      ⟨.call m k, Function.update (c.thread t).use m v⟩⟩ s := by
  obtain ⟨hstage, hidle, hholds⟩ := enter_stage henter
  have hst := hf.at_place t x hplace
  have hpc : ((c.thread t).use m).pc = .idle := ht.idle t m (by simp [hplace])
  refine ⟨s, .refl, hf.step hf.data (fun m' u => ?_) (fun x h => by cases h) (fun m' k' h => ?_)
    fun u _ => .inl ⟨rfl, fun _ h => h⟩, fun _ _ hn m' => ?_⟩
  · rw [hf.owner]
    by_cases hu : u = t
    · subst hu
      by_cases hm : m' = m
      · subst hm
        simp [hholds]
      · simp [hm]
    · simp [hu]
  · cases h
    simp only [Function.update_self, hstage]
    cases hi : P.instr t x <;> rw [hi] at hcalled <;> cases hcalled <;> exact ⟨x, hst, hi⟩
  · by_cases hm : m' = m
    · subst hm
      rw [view_update]
      simp only [Function.update_self]
      refine (hn m').quiet (by simp [view, hpc, Futex.Pc.Waking]) (Futex.not_waking ?_) ?_ rfl rfl
      · rw [hstage]
        cases op <;> simp [opStage]
      · rw [hstage]
        cases op <;> simp [opStage]
    · rw [view_keep (m := m') rfl (Function.update_of_ne hm ..)]
      exact hn m'

/-- A statement on the data is one step on either side. -/
theorem answered_data (hf : Refines P c s) {b : Bool} {e : Γ} (hplace : (c.thread t).place = .run x)
    (hcalled : called (P.instr t x) = none) (hedge : Edge b (P.instr t x) c.shared.data e k) :
    Answered P p d c ⟨{ c.shared with data := e },
      Function.update c.thread t ⟨.run k, (c.thread t).use⟩⟩ s := by
  have hst := hf.at_place t x hplace
  have hnext : ∃ a, (P.system d).next s (t, a) =
      some ⟨{ s.shared with data := e }, Function.update s.thread t (.run k)⟩ := by
    rw [← hf.data] at hedge
    cases hi : P.instr t x with
    | lock | unlock | wait | signal | broadcast =>
      rw [hi] at hcalled
      cases hcalled
    | access f =>
      rw [hi] at hedge
      have he : f s.shared.data = some (e, k) := hedge
      refine ⟨.run, next_run hst hi ?_⟩
      simp only [Monitor.perform, he, Option.map_some]
    | attempt f =>
      rw [hi] at hedge
      obtain ⟨rfl, rfl⟩ := Prod.mk.inj (show f b s.shared.data = (e, k) from hedge)
      cases b with
      | true => exact ⟨.run, next_run hst hi rfl⟩
      | false => exact ⟨.fail, next_run hst hi rfl⟩
    | exit =>
      rw [hi] at hedge
      exact hedge.elim
  obtain ⟨a', hn⟩ := hnext
  refine ⟨_, System.run_step trivial hn, hf.step rfl (fun m u => ?_) (fun y h => ?_)
    (fun m k' h => by cases h) fun u hu => kept_of_update hu fun _ h => h, fun _ _ hn m => ?_⟩
  · rw [show ({ s.shared with data := e } : Shared T M Γ).owner = s.shared.owner from rfl, hf.owner]
    by_cases hu : u = t
    · subst hu
      simp
    · simp [hu]
  · cases h
    simp
  · have hkeep : view m (⟨{ c.shared with data := e }, Function.update c.thread t
        ⟨.run k, (c.thread t).use⟩⟩ : State T M Γ L) = view m c := view_keep rfl rfl
    rw [hkeep]
    exact hn m

theorem answered_step (hc : (system P p d).Reachable ok c)
    (hr : (P.system d).Reachable System.free s) (hf : Refines P c s)
    (h : Stepped P p t c.shared (c.thread t) a g l) :
    Answered P p d c ⟨g, Function.update c.thread t l⟩ s := by
  have ht := tidy_reachable hc
  cases h with
  | data place called answers edge => exact answered_data hf place called edge
  | call place called enter => exact answered_call hf ht place called enter
  | @inside m k b w v place next =>
    have hv := free_view hc m
    exact answered_inside hr hf ht (Futex.inv_reachable hv) (Futex.seqCounts_reachable hv) place next

/-- What the code does from a state on, the program does on correct mutexes from a state that
answers it. -/
theorem simulates {c' : State T M Γ L} (hc : (system P p d).Reachable ok c)
    (hr : (P.system d).Reachable System.free s) (hf : Refines P c s)
    (hrun : (system P p d).Run ok c c') :
    ∃ s', (P.system d).Run System.free s s' ∧ Refines P c' s' := by
  induction hrun with
  | refl => exact ⟨s, .refl, hf⟩
  | tail hrun hstep ih =>
    obtain ⟨s₁, hrun₁, hf₁⟩ := ih
    obtain ⟨⟨t, a⟩, -, hn⟩ := hstep
    obtain ⟨g, l, hstep, rfl⟩ := step_cases hn
    obtain ⟨s₂, hrun₂, hf₂, -⟩ := answered_step (System.reachable_run hc hrun)
      (System.reachable_run hr hrun₁) hf₁ hstep
    exact ⟨s₂, hrun₁.trans hrun₂, hf₂⟩

/-- Every run of the code is one on correct mutexes; if `strict`, then a signal reaches whom it is
given to. -/
theorem refines_run (strict : Prop)
    (hok : strict → p = .longest ∧ ∀ (c : State T M Γ L) a, ok c a → FewSignals c)
    (hc : (system P p d).Reachable ok c) : ∃ s, (P.system d).Reachable System.free s ∧
      Refines P c s ∧ (strict → ∀ m, Futex.Notified (view m c) (s.shared.waiters m)) := by
  apply System.reachable_invariant (I := fun c => ∃ s, (P.system d).Reachable System.free s ∧
    Refines P c s ∧ (strict → ∀ m, Futex.Notified (view m c) (s.shared.waiters m))) ?_ ?_ hc
  · rintro c rfl
    exact ⟨_, System.reachable_init rfl, refines_start, fun _ m => Futex.notified_start⟩
  · rintro c ⟨t, a⟩ c' hc ⟨s, hr, hf, hn⟩ ha hnext
    obtain ⟨g, l, hstep, rfl⟩ := step_cases hnext
    obtain ⟨s', hrun, hf', hkeeps⟩ := answered_step hc hr hf hstep
    exact ⟨s', System.reachable_run hr hrun, hf', fun hs =>
      hkeeps (hok hs).1 ((hok hs).2 c _ ha) (hn hs)⟩

end Runs

end LinuxSummer.FutexProgram
