import Mathlib.Data.Fintype.Basic
import Mathlib.Data.Finset.Card
import LinuxSummer.FutexSignal
import LinuxSummer.FutexStages

/-! Which threads in `cond_wait` no signal has been given to. A signal takes effect when it counts
up `seq`: the thread it is given to will see the new `seq`, or it is asleep among the first ones, and
there are enough calls of `futex_wake` under way to reach it. -/
namespace LinuxSummer.Futex
set_option linter.unusedSectionVars false
variable {T : Type*} [DecidableEq T] [Fintype T] {t : T} {p : WakePolicy} {g' : Shared T Unit}
  {l' : Local Unit} {f : Config T (Shared T Unit) (Local Unit)} {W W' : List T}

/-- The signals that have not called `futex_wake` yet. -/
def pending (th : T → Local Unit) : ℕ :=
  (Finset.univ.filter fun u => (th u).pc = .signalWake ()).card

/-- A call under way reaches every sleeper that is not in `W`. -/
def Covered (f : Config T (Shared T Unit) (Local Unit)) (W : List T) : Prop :=
  (∃ u, (f.thread u).pc = .broadcastRequeue ()) ∨
    ∃ n, n ≤ pending f.thread ∧ ∀ u ∈ f.shared.sleepers.drop n, u ∈ W

/-- `W` are the threads that wait for a signal still to come. -/
structure Notified (f : Config T (Shared T Unit) (Local Unit)) (W : List T) : Prop where
  stale : ∀ u, (f.thread u).pc.stage = .waiting → (∀ seq, (f.thread u).pc ≠ .condSleep () seq) →
    u ∉ W → (f.thread u).since < f.shared.adds ()
  asleep : ∀ u ∈ W, ∀ seq, (f.thread u).pc = .condSleep () seq → u ∈ f.shared.sleepers
  covered : Covered f W

theorem notified_start : Notified (start T Unit) [] := by
  refine ⟨fun u hu => ?_, by simp, .inr ⟨0, Nat.zero_le _, by simp [start, Shared.sleepers]⟩⟩
  simp [start, Pc.stage] at hu

/-- A call wakes others when it is done otherwise. -/
theorem not_waking {pc : Pc Unit} (h : pc.stage ≠ .done) : ¬ pc.Waking := by
  rintro (rfl | rfl)
  · exact h rfl
  · exact h rfl

/-- A thread in the waiting part is before its sleep, or asleep. -/
theorem beforeSleep_of_waiting {pc : Pc Unit} (h : pc.stage = .waiting)
    (hpc : ∀ seq, pc ≠ .condSleep () seq) : ∃ seq, BeforeSleep pc () seq ∧ InWait pc () := by
  cases pc with
  | unlockWake k =>
    cases k with
    | call => simp [Pc.stage] at h
    | cond c seq => exact ⟨seq, .inr (.inl rfl), seq, .inl rfl⟩
  | condSpin c seq i =>
    exact ⟨seq, .inr (.inr (.inl ⟨i, rfl⟩)), seq, .inr (.inl ⟨i, rfl⟩)⟩
  | condFutex c seq => exact ⟨seq, .inr (.inr (.inr rfl)), seq, .inr (.inr (.inl rfl))⟩
  | condSleep c seq => exact absurd rfl (hpc seq)
  | tryLoad k | tryOr k =>
    cases k with
    | call => simp [Pc.stage] at h
    | spin i k => exact absurd h k.stage_ne_waiting
  | lockXchg k | lockWait k | lockSleep k => exact absurd h k.stage_ne_waiting
  | unlockXchg k => cases k <;> simp [Pc.stage] at h
  | _ => simp [Pc.stage] at h

section Pending
variable (th : T → Local Unit) (t : T) (l' : Local Unit)

theorem pending_same (h : (th t).pc ≠ .signalWake ()) (h' : l'.pc ≠ .signalWake ()) :
    pending (Function.update th t l') = pending th := by
  unfold pending
  congr 1
  ext u
  by_cases hu : u = t
  · subst hu
    simp [h, h']
  · simp [hu]

theorem pending_add (h : (th t).pc ≠ .signalWake ()) (h' : l'.pc = .signalWake ()) :
    pending (Function.update th t l') = pending th + 1 := by
  unfold pending
  rw [← Finset.card_insert_of_notMem (a := t) (by simp [h])]
  congr 1
  ext u
  by_cases hu : u = t
  · subst hu
    simp [h']
  · simp [hu]

theorem pending_sub (h : (th t).pc = .signalWake ()) (h' : l'.pc ≠ .signalWake ()) :
    pending th = pending (Function.update th t l') + 1 := by
  have hback := pending_add (Function.update th t l') t (th t) (by simpa using h') h
  rwa [Function.update_idem, Function.update_eq_self] at hback

end Pending

/-- The broadcast of another thread stays under way. -/
theorem requeue_update {u : T} (hu : (f.thread u).pc = .broadcastRequeue ())
    (ht : (f.thread t).pc ≠ .broadcastRequeue ()) :
    (Function.update f.thread t l' u).pc = .broadcastRequeue () := by
  have hut : u ≠ t := by
    rintro rfl
    exact ht hu
  rwa [Function.update_of_ne hut]

/-- The calls under way are the same after a step of a thread that is not about to wake anyone. -/
theorem Covered.of_quiet (h : Covered f W) (hpc : ¬ (f.thread t).pc.Waking) (hpc' : ¬ l'.pc.Waking)
    (hq : ∀ n, (∀ u ∈ f.shared.sleepers.drop n, u ∈ W) → ∀ u ∈ g'.sleepers.drop n, u ∈ W') :
    Covered ⟨g', Function.update f.thread t l'⟩ W' := by
  rcases h with ⟨u, hu⟩ | ⟨n, hn, hW⟩
  · exact .inl ⟨u, requeue_update hu fun h => hpc (.inr h)⟩
  · refine .inr ⟨n, ?_, hq n hW⟩
    rwa [pending_same f.thread t l' (fun h => hpc (.inl h)) fun h => hpc' (.inl h)]

/-- What a step of `t` has to keep when it changes the threads that wait for a signal to `W'`. -/
theorem Notified.step (hn : Notified f W) (hadds : f.shared.adds () ≤ g'.adds ())
    (hself : l'.pc.stage = .waiting → (∀ seq, l'.pc ≠ .condSleep () seq) → t ∉ W' →
      l'.since < g'.adds ())
    (hself' : ∀ seq, l'.pc = .condSleep () seq → t ∈ g'.sleepers)
    (hout : ∀ u, u ≠ t → u ∈ W → u ∉ W' → (∃ seq, (f.thread u).pc = .condSleep () seq) ∨
      (f.thread u).since < g'.adds ())
    (hin : ∀ u, u ≠ t → u ∈ W' → u ∈ W ∧ (u ∈ f.shared.sleepers → u ∈ g'.sleepers))
    (hcov : Covered ⟨g', Function.update f.thread t l'⟩ W') :
    Notified ⟨g', Function.update f.thread t l'⟩ W' := by
  refine ⟨fun u hu hpc hW => ?_, fun u hW seq hpc => ?_, hcov⟩
  · by_cases hut : u = t
    · subst hut
      simp only [Function.update_self] at hu hpc ⊢
      exact hself hu hpc hW
    · simp only [Function.update_of_ne hut] at hu hpc ⊢
      by_cases hold : u ∈ W
      · rcases hout u hut hold hW with ⟨seq, hseq⟩ | hlt
        · exact absurd hseq (hpc seq)
        · exact hlt
      · exact Nat.lt_of_lt_of_le (hn.stale u hu hpc hold) hadds
  · by_cases hut : u = t
    · subst hut
      simp only [Function.update_self] at hpc
      exact hself' seq hpc
    · simp only [Function.update_of_ne hut] at hpc
      obtain ⟨hold, hmem⟩ := hin u hut hW
      exact hmem (hn.asleep u hold seq hpc)

/-- A step to a place that is not in the waiting part. -/
theorem Notified.step_out (hn : Notified f W) (hstage : l'.pc.stage ≠ .waiting)
    (hadds : f.shared.adds () ≤ g'.adds ())
    (hout : ∀ u, u ≠ t → u ∈ W → u ∉ W' → (∃ seq, (f.thread u).pc = .condSleep () seq) ∨
      (f.thread u).since < g'.adds ())
    (hin : ∀ u, u ≠ t → u ∈ W' → u ∈ W ∧ (u ∈ f.shared.sleepers → u ∈ g'.sleepers))
    (hcov : Covered ⟨g', Function.update f.thread t l'⟩ W') :
    Notified ⟨g', Function.update f.thread t l'⟩ W' := by
  refine hn.step hadds (fun h => absurd h hstage) (fun seq h => ?_) hout hin hcov
  rw [h] at hstage
  exact absurd rfl hstage

/-- The thread neither waits after its step nor lets another one go. -/
theorem Notified.quiet (hn : Notified f W) (hpc : ¬ (f.thread t).pc.Waking) (hpc' : ¬ l'.pc.Waking)
    (hstage : l'.pc.stage ≠ .waiting) (hadds : g'.adds () = f.shared.adds ())
    (hq : g'.sleepers = f.shared.sleepers) : Notified ⟨g', Function.update f.thread t l'⟩ W := by
  exact hn.step_out hstage (Nat.le_of_eq hadds.symm) (fun u _ hu hu' => absurd hu hu')
    (fun u _ hu => ⟨hu, fun hm => hq ▸ hm⟩)
    (hn.covered.of_quiet hpc hpc' fun n hW => by rwa [hq])

/-- `cond_wait` releases the mutex. -/
theorem Notified.enter (hn : Notified f W) (hpc : (f.thread t).pc.stage = .entering)
    (hstage : l'.pc.stage = .waiting) (hawake : ∀ seq, l'.pc ≠ .condSleep () seq)
    (hadds : g'.adds () = f.shared.adds ())
    (hq : g'.sleepers = f.shared.sleepers) (hW : ∀ u, u ∈ W' ↔ u ∈ W ∨ u = t) :
    Notified ⟨g', Function.update f.thread t l'⟩ W' := by
  refine hn.step (Nat.le_of_eq hadds.symm) (fun _ _ ht => absurd ((hW t).mpr (.inr rfl)) ht)
    (fun seq h => absurd h (hawake seq)) (fun u _ hu hu' => absurd ((hW u).mpr (.inl hu)) hu')
    (fun u hut hu => ⟨((hW u).mp hu).resolve_right hut, fun hm => hq ▸ hm⟩)
    (hn.covered.of_quiet (not_waking (by simp [hpc])) (not_waking (by simp [hstage]))
      fun n hold u hu => ?_)
  rw [hq] at hu
  exact (hW u).mpr (.inl (hold u hu))

theorem Notified.onward (hn : Notified f W) (hpc : (f.thread t).pc.stage = .waiting)
    (hstage : l'.pc.stage = .waiting) (hbefore : ∀ seq, (f.thread t).pc ≠ .condSleep () seq)
    (hafter : ∀ seq, l'.pc ≠ .condSleep () seq)
    (hsince : l'.since = (f.thread t).since) (hadds : g'.adds () = f.shared.adds ())
    (hq : g'.sleepers = f.shared.sleepers) : Notified ⟨g', Function.update f.thread t l'⟩ W := by
  refine hn.step (Nat.le_of_eq hadds.symm) (fun _ _ ht => ?_) (fun seq h => absurd h (hafter seq))
    (fun u _ hu hu' => absurd hu hu') (fun u _ hu => ⟨hu, fun hm => hq ▸ hm⟩)
    (hn.covered.of_quiet (not_waking (by simp [hpc])) (not_waking (by simp [hstage]))
      fun n hW => by rwa [hq])
  rw [hsince, hadds]
  exact hn.stale t hpc hbefore ht

/-- Who has been given a signal does not fall asleep. -/
theorem Notified.waits (hn : Notified f W) (hc : SeqCounts f) (hf : FewSignals f) {seq : Word}
    (hpc : (f.thread t).pc = .condFutex () seq) (hword : f.shared.seq () = seq) : t ∈ W := by
  by_contra ht
  have hold := hn.stale t (by rw [hpc]; rfl) (by simp [hpc]) ht
  obtain ⟨hseq, -⟩ := hc.2 t () seq (.inr (.inr (.inr hpc)))
  have hfew := hf t () ⟨seq, .inr (.inr (.inl hpc))⟩
  have heq := congrArg BitVec.toNat ((hc.1 ()).symm.trans (hword.trans hseq))
  simp only [BitVec.toNat_ofNat] at heq
  omega

theorem Notified.sleep (hn : Notified f W) (hc : SeqCounts f) (hf : FewSignals f) {seq : Word}
    (hpc : (f.thread t).pc = .condFutex () seq) (hpc' : l'.pc = .condSleep () seq)
    (hword : f.shared.seq () = seq) (hadds : g'.adds () = f.shared.adds ())
    (hq : g'.sleepers = f.shared.sleepers ++ [t]) :
    Notified ⟨g', Function.update f.thread t l'⟩ W := by
  refine hn.step (Nat.le_of_eq hadds.symm) (fun _ h => absurd hpc' (h seq)) (fun _ _ => by simp [hq])
    (fun u _ hu hu' => absurd hu hu') (fun u _ hu => ⟨hu, fun hm => by simp [hq, hm]⟩)
    (hn.covered.of_quiet (by simp [hpc, Pc.Waking]) (by simp [hpc', Pc.Waking])
      fun n hW u hu => ?_)
  rw [hq, List.drop_append] at hu
  rcases List.mem_append.mp hu with hu | hu
  · exact hW u hu
  · rw [List.mem_singleton.mp (List.mem_of_mem_drop hu)]
    exact hn.waits hc hf hpc hword

/-- The thread leaves the waiting part. -/
theorem Notified.leave (hn : Notified f W) (hi : Inv f)
    (hpc : (f.thread t).pc.stage = .waiting) (hstage : l'.pc.stage = .relocking)
    (hadds : g'.adds () = f.shared.adds ()) (hq : g'.sleepers = f.shared.sleepers.erase t)
    (hW : ∀ u, u ∈ W' ↔ u ∈ W ∧ u ≠ t) :
    Notified ⟨g', Function.update f.thread t l'⟩ W' := by
  have hnd := hi.queue_wf.nodup (.cond ())
  refine hn.step_out (by simp [hstage]) (Nat.le_of_eq hadds.symm)
    (fun u hut hu hu' => absurd ((hW u).mpr ⟨hu, hut⟩) hu')
    (fun u hut hu => ⟨((hW u).mp hu).1, fun hm => ?_⟩)
    (hn.covered.of_quiet (not_waking (by simp [hpc])) (not_waking (by simp [hstage]))
      fun n hold u hu => ?_)
  · rw [hq]
    exact (List.mem_erase_of_ne hut).mpr hm
  · rw [hq] at hu
    have hne : u ≠ t := (hnd.mem_erase_iff.mp (List.mem_of_mem_drop hu)).1
    exact (hW u).mpr ⟨hold u ((List.erase_sublist.drop n).subset hu), hne⟩

/-- A thread that waits when `seq` is counted up is asleep, or will see it. -/
theorem stale_of_add {u : T} (hc : SeqCounts f) (hu : (f.thread u).pc.stage = .waiting)
    (hadds : g'.adds () = f.shared.adds () + 1) :
    (∃ seq, (f.thread u).pc = .condSleep () seq) ∨ (f.thread u).since < g'.adds () := by
  by_cases hpc : ∃ seq, (f.thread u).pc = .condSleep () seq
  · exact .inl hpc
  · obtain ⟨seq, hb, -⟩ := beforeSleep_of_waiting hu fun seq h => hpc ⟨seq, h⟩
    have hle := (hc.2 u () seq hb).2
    exact .inr (by omega)

/-- A signal is given to a waiting thread. -/
theorem Notified.signalAdd (hn : Notified f W) (hi : Inv f) (hc : SeqCounts f)
    (hwait : ∀ u ∈ W, (f.thread u).pc.stage = .waiting) (hnd : W.Nodup) (hW : W ≠ [])
    (hpc : (f.thread t).pc = .signalAdd ()) (hpc' : l'.pc = .signalWake ())
    (hadds : g'.adds () = f.shared.adds () + 1) (hq : g'.sleepers = f.shared.sleepers) :
    ∃ w ∈ W, Notified ⟨g', Function.update f.thread t l'⟩ (W.erase w) := by
  have hstep (w : T) (hcov : Covered ⟨g', Function.update f.thread t l'⟩ (W.erase w)) :
      Notified ⟨g', Function.update f.thread t l'⟩ (W.erase w) :=
    hn.step_out (by simp [hpc', Pc.stage]) (by omega)
      (fun u _ hu _ => stale_of_add hc (hwait u hu) hadds)
      (fun u _ hu => ⟨List.mem_of_mem_erase hu, fun hm => hq ▸ hm⟩) hcov
  have hpend := pending_add f.thread t l' (by simp [hpc]) hpc'
  obtain ⟨w₀, W₀, hcons⟩ := List.exists_cons_of_ne_nil hW
  have hw₀ : w₀ ∈ W := hcons ▸ List.mem_cons_self
  rcases hn.covered with ⟨u, hu⟩ | ⟨n, hle, hdrop⟩
  · exact ⟨w₀, hw₀, hstep w₀ (.inl ⟨u, requeue_update hu (by simp [hpc])⟩)⟩
  · cases hd : f.shared.sleepers.drop n with
    | nil =>
      -- the calls under way reach every sleeper
      refine ⟨w₀, hw₀, hstep w₀ (.inr ⟨n, by simp only [hpend]; omega, fun u hu => ?_⟩)⟩
      simp only [hq, hd] at hu
      cases hu
    | cons w q =>
      have hnodup := (hi.queue_wf.nodup (.cond ())).sublist (List.drop_sublist n _)
      rw [show f.shared.queue (.cond ()) = f.shared.sleepers from rfl, hd] at hnodup
      have hw : w ∈ W := hdrop w (hd ▸ List.mem_cons_self)
      refine ⟨w, hw, hstep w (.inr ⟨n + 1, by simp only [hpend]; omega, fun u hu => ?_⟩)⟩
      simp only [hq, ← List.drop_drop, hd, List.drop_one, List.tail_cons] at hu
      have hne : u ≠ w := by
        rintro rfl
        exact (List.nodup_cons.mp hnodup).1 hu
      exact (hnd.mem_erase_iff).mpr ⟨hne, hdrop u (hd ▸ List.mem_cons_of_mem w hu)⟩

/-- A signal finds nobody waiting. -/
theorem Notified.signal_none (hn : Notified f []) (hpc : (f.thread t).pc = .signalAdd ())
    (hpc' : l'.pc = .signalWake ()) (hadds : g'.adds () = f.shared.adds () + 1)
    (hq : g'.sleepers = f.shared.sleepers) : Notified ⟨g', Function.update f.thread t l'⟩ [] := by
  have hpend := pending_add f.thread t l' (by simp [hpc]) hpc'
  refine hn.step_out (by simp [hpc', Pc.stage]) (by omega) (fun u _ hu => by cases hu)
    (fun u _ hu => by cases hu) ?_
  rcases hn.covered with ⟨u, hu⟩ | ⟨n, hle, hdrop⟩
  · exact .inl ⟨u, requeue_update hu (by simp [hpc])⟩
  · exact .inr ⟨n, by simp only [hpend]; omega, by simpa only [hq] using hdrop⟩

/-- A signal calls `futex_wake`. -/
theorem Notified.signalWake (hn : Notified f W) (hi : Inv f)
    (hpc : (f.thread t).pc = .signalWake ()) (hpc' : l'.pc = .idle)
    (hadds : g'.adds () = f.shared.adds ())
    (hq : f.shared.sleepers = [] ∧ g'.sleepers = [] ∧ (∀ u, u ∈ W' ↔ u ∈ W) ∨
      ∃ w, WakePolicy.longest.admits f.shared.sleepers w ∧ g'.sleepers = f.shared.sleepers.erase w ∧
        ∀ u, u ∈ W' ↔ u ∈ W ∧ u ≠ w) : Notified ⟨g', Function.update f.thread t l'⟩ W' := by
  have hpend := pending_sub f.thread t l' hpc (by simp [hpc'])
  have hstage : l'.pc.stage ≠ .waiting := by simp [hpc', Pc.stage]
  rcases hq with ⟨hnil, hnil', hW⟩ | ⟨w, hw, hq, hW⟩
  · exact hn.step_out hstage (Nat.le_of_eq hadds.symm)
      (fun u _ hu hu' => absurd ((hW u).mpr hu) hu')
      (fun u _ hu => ⟨(hW u).mp hu, fun hm => by simp [hnil] at hm⟩)
      (.inr ⟨0, Nat.zero_le _, by simp [hnil']⟩)
  · obtain ⟨c, seq, hsleep⟩ := condSleep_of_mem hi hw.mem
    obtain ⟨q, hcons⟩ : ∃ q, f.shared.sleepers = w :: q := by
      rw [WakePolicy.admits, List.head?_eq_some_iff] at hw
      exact hw
    have hnd := hi.queue_wf.nodup (.cond ())
    rw [show f.shared.queue (.cond ()) = f.shared.sleepers from rfl, hcons] at hnd
    rw [hcons, List.erase_cons_head] at hq
    refine hn.step_out hstage (Nat.le_of_eq hadds.symm) (fun u _ hu hu' => ?_)
      (fun u _ hu => ⟨((hW u).mp hu).1, fun hm => ?_⟩) ?_
    · have huw : u = w := by
        by_contra hne
        exact hu' ((hW u).mpr ⟨hu, hne⟩)
      exact .inl ⟨seq, huw ▸ hsleep⟩
    · rw [hcons] at hm
      rw [hq]
      exact (List.mem_cons.mp hm).resolve_left ((hW u).mp hu).2
    · rcases hn.covered with ⟨u, hu⟩ | ⟨n, hle, hdrop⟩
      · exact .inl ⟨u, requeue_update hu (by simp [hpc])⟩
      · -- the sleeper at the head is the one that the call reaches
        refine .inr ⟨n - 1, by simp only at hpend ⊢; omega, fun u hu => (hW u).mpr ⟨?_, ?_⟩⟩
        · simp only [hq] at hu
          refine hdrop u ?_
          rw [hcons]
          cases n with
          | zero => exact List.mem_cons_of_mem w hu
          | succ n => simpa using hu
        · rintro rfl
          simp only [hq] at hu
          exact (List.nodup_cons.mp hnd).1 (List.mem_of_mem_drop hu)

/-- A broadcast is given to all who wait. -/
theorem Notified.broadcastAdd (hn : Notified f W) (hc : SeqCounts f)
    (hwait : ∀ u ∈ W, (f.thread u).pc.stage = .waiting) (hpc' : l'.pc = .broadcastRequeue ())
    (hadds : g'.adds () = f.shared.adds () + 1) (hW : ∀ u, u ∉ W') :
    Notified ⟨g', Function.update f.thread t l'⟩ W' := by
  exact hn.step_out (by simp [hpc', Pc.stage]) (by omega)
    (fun u _ hu _ => stale_of_add hc (hwait u hu) hadds) (fun u _ hu => absurd hu (hW u))
    (.inl ⟨t, by simpa using hpc'⟩)

/-- A broadcast moves the sleepers to the mutex. -/
theorem Notified.broadcastRequeue (hn : Notified f W) (hi : Inv f) (hpc' : l'.pc = .idle)
    (hadds : g'.adds () = f.shared.adds ()) (hq : g'.sleepers = [])
    (hW : ∀ u, u ∈ W' ↔ u ∈ W ∧ u ∉ f.shared.sleepers) :
    Notified ⟨g', Function.update f.thread t l'⟩ W' := by
  refine hn.step_out (by simp [hpc', Pc.stage]) (Nat.le_of_eq hadds.symm) (fun u _ hu hu' => ?_)
    (fun u _ hu => ⟨((hW u).mp hu).1, fun hm => absurd hm ((hW u).mp hu).2⟩)
    (.inr ⟨0, Nat.zero_le _, by simp [hq]⟩)
  have hmem : u ∈ f.shared.sleepers := by
    by_contra hne
    exact hu' ((hW u).mpr ⟨hu, hne⟩)
  obtain ⟨c, seq, hsleep⟩ := condSleep_of_mem hi hmem
  exact .inl ⟨seq, hsleep⟩

end LinuxSummer.Futex
