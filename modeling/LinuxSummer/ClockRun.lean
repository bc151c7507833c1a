import Mathlib.Tactic.Positivity
import LinuxSummer.ClockCounter

/-! The clock graph never comes to a halt before `2 ^ N` ticks, nor while it shuts down. -/
namespace LinuxSummer.ClockGraph
open Monitor
set_option linter.unusedSectionVars false

variable {N : ℕ}

/-- The argument of the call of `clock_wait`. -/
def bound (t : Thread N) (l : Loc) : ℤ :=
  match t with
  | .main => 2 ^ N
  | .node _ => l.i

/-- The loop around `cond_wait` would end. -/
def Awaited (t : Thread N) (l : Loc) (m : Mutex N) (d : Data N) : Prop :=
  match m with
  | .clock => ¬ (d.ticks ≥ 0 ∧ d.ticks < bound t l)
  | .node n => d.ready n = true

/-- On the way to the broadcast of the clock, or to the signal of a node. -/
def Owes (t : Thread N) (l : Loc) (m : Mutex N) : Prop :=
  match m with
  | .clock => l.pc = .tick .unlock ∨ l.pc = .tick .broadcast ∨
      t = .main ∧ (l.pc = .stop .unlock ∨ l.pc = .stop .broadcast)
  | .node n => t = .node n ∧ ∃ last, l.pc = .signal last .unlock ∨ l.pc = .signal last .signal

section Wakeups
variable {t : Thread N} {l k : Loc} {m : Mutex N} {d d' : Data N} {b : Bool}

/-- What a thread does that owes a wake-up. -/
theorem owes_instr (h : Owes t l m) : (∃ k, instr t l = .unlock m k ∧ Owes t k m) ∨
    (∃ k, instr t l = .broadcast m k) ∨ ∃ k, instr t l = .signal m k := by
  obtain ⟨pc, i, bit⟩ := l
  cases m with
  | clock =>
    rcases h with rfl | rfl | ⟨rfl, rfl | rfl⟩
    · cases t <;> exact .inl ⟨_, rfl, .inr (.inl rfl)⟩
    · cases t <;> exact .inr (.inl ⟨_, rfl⟩)
    · exact .inl ⟨_, rfl, .inr (.inr ⟨rfl, .inr rfl⟩)⟩
    · exact .inr (.inl ⟨_, rfl⟩)
  | node n =>
    obtain ⟨rfl, last, rfl | rfl⟩ := h
    · exact .inl ⟨_, rfl, rfl, last, .inr rfl⟩
    · exact .inr (.inr ⟨_, rfl⟩)

/-- A statement that changes the clock, or sets a flag, is in a critical section with a broadcast or
a signal after it. -/
theorem edge_data (h : Edge b (instr t l) d d' k) :
    (d'.ticks = d.ticks ∨ Owes t k .clock ∧ holds t l .clock) ∧
      ∀ n, d'.ready n = true → d.ready n = true ∨ Owes t k (.node n) ∧ holds t l (.node n) := by
  obtain ⟨pc, i, bit⟩ := l
  have hsame (hd : d' = d) : (d'.ticks = d.ticks ∨ Owes t k .clock ∧ holds t ⟨pc, i, bit⟩ .clock) ∧
      ∀ n, d'.ready n = true → d.ready n = true ∨
        Owes t k (.node n) ∧ holds t ⟨pc, i, bit⟩ (.node n) := by
    subst hd
    exact ⟨.inl rfl, fun _ hn => .inl hn⟩
  cases t with
  | main =>
    cases pc with
    | create =>
      simp only [instr, main, Edge, Option.some.injEq] at h
      split at h <;> cases h <;> exact ⟨.inl rfl, fun _ hn => .inl hn⟩
    | tick p =>
      cases p with
      | set =>
        cases h
        exact ⟨.inr ⟨.inl rfl, .inl rfl, rfl⟩, fun _ hn => .inl hn⟩
      | _ => exact hsame h.1
    | wait p =>
      cases p with
      | test | ret =>
        cases h
        exact hsame rfl
      | _ => exact hsame h.1
    | stop p =>
      cases p with
      | set =>
        cases h
        exact ⟨.inr ⟨.inr (.inr ⟨rfl, .inl rfl⟩), .inl rfl, rfl⟩, fun _ hn => .inl hn⟩
      | _ => exact hsame h.1
    | join =>
      simp only [instr, main, Edge] at h
      split at h
      · split at h <;> cases h
        exact hsame rfl
      · cases h
        exact hsame rfl
    | _ => exact h.elim
  | node self =>
    cases pc with
    | start =>
      simp only [instr, threadFunc, Edge] at h
      split at h <;> cases h
      exact hsame rfl
    | wait p =>
      cases p with
      | test | ret =>
        cases h
        exact hsame rfl
      | _ => exact hsame h.1
    | nodeWait p =>
      simp only [instr, threadFunc] at h
      split at h
      · rename_i node hnode
        cases p with
        | test =>
          cases h
          exact hsame rfl
        | clear =>
          cases h
          refine ⟨.inl rfl, fun n hn => .inl ?_⟩
          by_cases hnn : n = node
          · simp [hnn] at hn
          · simpa [Function.update_of_ne hnn] using hn
        | _ => exact hsame h.1
      · exact h.elim
    | tick p =>
      cases p with
      | set =>
        cases h
        exact ⟨.inr ⟨.inl rfl, .inl rfl, rfl⟩, fun _ hn => .inl hn⟩
      | _ => exact hsame h.1
    | signal last p =>
      cases p with
      | set =>
        cases h
        refine ⟨.inl rfl, fun n hn => ?_⟩
        by_cases hnn : n = self
        · exact .inr ⟨⟨by rw [hnn], last, .inl rfl⟩, .inl rfl, by rw [hnn]⟩
        · exact .inl (by simpa [Function.update_of_ne hnn] using hn)
      | _ => exact hsame h.1
    | leave =>
      cases h
      exact ⟨.inl rfl, fun _ hn => .inl hn⟩
    | _ => exact h.elim

theorem wakeups : Wakeups (graph N) Awaited Owes where
  awake ho m' k hw := by
    rcases owes_instr ho with ⟨k', hi, -⟩ | ⟨k', hi⟩ | ⟨k', hi⟩ <;>
      exact absurd (hi.symm.trans hw) (by simp)
  pays {t l m b d d' k} ho he := by
    change Edge b (instr t l) d d' k at he
    rcases owes_instr ho with ⟨k', hi, hk⟩ | ⟨k', hi⟩ | ⟨k', hi⟩
    · rw [hi] at he
      exact .inl (he.2 ▸ hk)
    · rw [hi] at he
      exact .inr (.inr (hi.trans (by rw [he.2])))
    · rw [hi] at he
      exact .inr (.inl (hi.trans (by rw [he.2])))
  raises {t l b d d' k} he u j m ha := by
    obtain ⟨hticks, hready⟩ := edge_data he
    cases m with
    | clock =>
      rcases hticks with hticks | ho
      · refine .inl ?_
        unfold Awaited at ha ⊢
        rwa [hticks] at ha
      · exact .inr ho.1
    | node n => exact (hready n ha).imp_right And.left

/-- What a thread knows right before it calls `cond_wait`. -/
def KnowsToWait (t : Thread N) (l : Loc) (d : Data N) : Prop :=
  (l.pc = .wait .cond → ¬ Awaited t l .clock d) ∧
    ∀ self node, t = .node self → parent self = some node → l.pc = .nodeWait .cond →
      ¬ Awaited t l (.node node) d

theorem knows_of_pc (hw : l.pc ≠ .wait .cond) (hn : l.pc ≠ .nodeWait .cond) :
    KnowsToWait t l d :=
  ⟨fun h => absurd h hw, fun _ _ _ _ h => absurd h hn⟩

theorem knows_action : KnowsToWait t l.action d := by
  unfold Loc.action Loc.goto
  cases l.bit <;> exact knows_of_pc (by simp) (by simp)

/-- The test comes right before the call. -/
theorem knows_edge (h : Edge b (instr t l) d d' k) : KnowsToWait t k d' := by
  obtain ⟨pc, i, bit⟩ := l
  cases t with
  | main =>
    cases pc with
    | create =>
      simp only [instr, main, Edge, Option.some.injEq] at h
      split at h <;> cases h <;> exact knows_of_pc (by simp [Loc.goto]) (by simp [Loc.goto])
    | tick p | stop p =>
      cases p with
      | set =>
        cases h
        exact knows_of_pc (by simp [Loc.goto]) (by simp [Loc.goto])
      | lock | unlock | broadcast =>
        rw [h.2]
        exact knows_of_pc (by simp [Loc.goto]) (by simp [Loc.goto])
    | wait p =>
      cases p with
      | test =>
        cases h
        refine ⟨fun hc => ?_, fun _ _ ht => by cases ht⟩
        simp only [Loc.goto, Pc.wait.injEq, ite_eq_left_iff, reduceCtorEq, imp_false,
          not_not] at hc
        exact not_not.mpr hc
      | ret =>
        cases h
        exact knows_of_pc (by simp [Loc.goto]) (by simp [Loc.goto])
      | lock | cond | unlock =>
        rw [h.2]
        exact knows_of_pc (by simp [Loc.goto]) (by simp [Loc.goto])
    | join =>
      simp only [instr, main, Edge] at h
      split at h
      · split at h <;> cases h
        exact knows_of_pc (by simp) (by simp)
      · cases h
        exact knows_of_pc (by simp [Loc.goto]) (by simp [Loc.goto])
    | start | nodeWait | signal | leave | done => exact h.elim
  | node self =>
    cases pc with
    | start =>
      simp only [instr, threadFunc, Edge] at h
      split at h <;> cases h
      exact knows_of_pc (by simp [Loc.goto]) (by simp [Loc.goto])
    | wait p =>
      cases p with
      | test =>
        cases h
        refine ⟨fun hc => ?_, fun _ _ _ _ hc => by simp [Loc.goto] at hc⟩
        simp only [Loc.goto, Pc.wait.injEq, ite_eq_left_iff, reduceCtorEq, imp_false,
          not_not] at hc
        exact not_not.mpr hc
      | ret =>
        cases h
        exact knows_of_pc (by simp [Loc.goto]) (by simp [Loc.goto])
      | lock | cond =>
        rw [h.2]
        exact knows_of_pc (by simp [Loc.goto]) (by simp [Loc.goto])
      | unlock ret =>
        rw [h.2]
        cases ret with
        | false => exact knows_of_pc (by simp [Loc.goto]) (by simp [Loc.goto])
        | true =>
          simp only [if_true]
          split
          · exact knows_of_pc (by simp [Loc.goto]) (by simp [Loc.goto])
          · exact knows_action
    | nodeWait p =>
      simp only [instr, threadFunc] at h
      split at h
      · rename_i node hnode
        cases p with
        | test =>
          cases h
          refine ⟨fun hc => by simp [Loc.goto] at hc, fun _ n ht hn hc => ?_⟩
          cases ht
          obtain rfl : node = n := Option.some.inj (hnode.symm.trans hn)
          cases hr : d.ready node with
          | false => exact fun ha => by simp [Awaited, hr] at ha
          | true => simp [Loc.goto, hr] at hc
        | clear =>
          cases h
          exact knows_of_pc (by simp [Loc.goto]) (by simp [Loc.goto])
        | unlock =>
          rw [h.2]
          exact knows_action
        | lock | cond =>
          rw [h.2]
          exact knows_of_pc (by simp [Loc.goto]) (by simp [Loc.goto])
      · exact h.elim
    | tick p =>
      cases p with
      | set =>
        cases h
        exact knows_of_pc (by simp [Loc.goto]) (by simp [Loc.goto])
      | lock | unlock | broadcast =>
        rw [h.2]
        exact knows_of_pc (by simp [Loc.goto, Loc.again]) (by simp [Loc.goto, Loc.again])
    | signal last p =>
      cases p with
      | set =>
        cases h
        exact knows_of_pc (by simp [Loc.goto]) (by simp [Loc.goto])
      | lock | unlock =>
        rw [h.2]
        exact knows_of_pc (by simp [Loc.goto]) (by simp [Loc.goto])
      | signal =>
        rw [h.2]
        cases last <;> exact knows_of_pc (by simp [Loc.goto, Loc.again]) (by simp [Loc.goto, Loc.again])
    | leave =>
      cases h
      exact knows_of_pc (by simp [Loc.goto]) (by simp [Loc.goto])
    | create | stop | join | done => exact h.elim

/-- The two calls of `cond_wait`. -/
theorem instr_wait (h : instr t l = .wait m k) :
    (l.pc = .wait .cond ∧ m = .clock ∧ k = l.goto (.wait .test)) ∨
      ∃ self node, t = .node self ∧ parent self = some node ∧ l.pc = .nodeWait .cond ∧
        m = .node node ∧ k = l.goto (.nodeWait .test) := by
  obtain ⟨pc, i, bit⟩ := l
  cases t with
  | main =>
    cases pc with
    | wait p =>
      cases p <;> cases h
      exact .inl ⟨rfl, rfl, rfl⟩
    | tick p | stop p => cases p <;> cases h
    | create | join | start | nodeWait | signal | leave | done => cases h
  | node self =>
    cases pc with
    | wait p =>
      cases p <;> cases h
      exact .inl ⟨rfl, rfl, rfl⟩
    | nodeWait p =>
      simp only [instr, threadFunc] at h
      split at h
      · rename_i node hnode
        cases p <;> cases h
        exact .inr ⟨self, node, rfl, hnode, rfl, rfl, rfl⟩
      · cases h
    | tick p => cases p <;> cases h
    | signal last p => cases p <;> cases h
    | start | leave | create | stop | join | done => cases h

theorem instr_lock (h : instr t l = .lock m k) (m' : Mutex N) : ¬ holds t l m' := by
  obtain ⟨pc, i, bit⟩ := l
  cases t with
  | main =>
    cases pc with
    | wait p | tick p | stop p => cases p <;> (cases h; all_goals simp)
    | create | join | start | nodeWait | signal | leave | done => cases h
  | node self =>
    cases pc with
    | wait p | tick p | signal last p => cases p <;> (cases h; all_goals simp)
    | nodeWait p =>
      simp only [instr, threadFunc] at h
      split at h
      · cases p <;> cases h
        simp
      · cases h
    | start | leave | create | stop | join | done => cases h

/-- The clock is broadcast only. -/
theorem instr_signal : instr t l ≠ .signal .clock k := by
  intro h
  obtain ⟨pc, i, bit⟩ := l
  cases t with
  | main =>
    cases pc with
    | wait p | tick p | stop p => cases p <;> cases h
    | create | join | start | nodeWait | signal | leave | done => cases h
  | node self =>
    cases pc with
    | wait p | tick p | signal last p => cases p <;> cases h
    | nodeWait p =>
      simp only [instr, threadFunc] at h
      split at h
      · cases p <;> cases h
      · cases h
    | start | leave | create | stop | join | done => cases h

/-- A thread waits for its creation, and `main` for the ends of the threads. -/
theorem instr_blocks {f : Data N → Option (Data N × Loc)} (h : instr t l = .access f)
    (hf : f d = none) :
    (t = .main ∧ l.pc = .join ∧ ∃ hi : l.i < N, d.exited ⟨l.i, hi⟩ = false) ∨
      ∃ self, t = .node self ∧ l.pc = .start ∧ d.created ≤ self := by
  obtain ⟨pc, i, bit⟩ := l
  cases t with
  | main =>
    cases pc with
    | wait p | tick p | stop p => cases p <;> cases h <;> cases hf
    | join =>
      cases h
      simp only at hf
      split at hf
      · rename_i hi
        split at hf <;> rename_i he
        · cases hf
        · exact .inl ⟨rfl, rfl, hi, by simpa using he⟩
      · cases hf
    | create =>
      cases h
      cases hf
    | start | nodeWait | signal | leave | done => cases h
  | node self =>
    cases pc with
    | wait p | tick p | signal last p => cases p <;> cases h <;> cases hf
    | nodeWait p =>
      simp only [instr, threadFunc] at h
      split at h
      · cases p <;> cases h <;> cases hf
      · cases h
    | start =>
      cases h
      simp only at hf
      split at hf <;> rename_i hc
      · cases hf
      · exact .inr ⟨self, rfl, rfl, by omega⟩
    | leave =>
      cases h
      cases hf
    | create | stop | join | done => cases h

/-- Nobody waits for a mutex while it holds one. -/
theorem ranked : Ranked (graph N) fun _ => 0 where
  lock h m' hm' := absurd hm' (instr_lock h m')
  wait {t l m k} h m' hm' := by
    change instr t l = _ at h
    change holds t l m' at hm'
    obtain ⟨pc, i, bit⟩ := l
    rcases instr_wait h with ⟨rfl, rfl, -⟩ | ⟨self, node, rfl, hnode, rfl, rfl, -⟩
    · exact hm'.2
    · obtain ⟨-, node', hnode', rfl⟩ := hm'
      rw [hnode] at hnode'
      rw [Option.some.inj hnode']
  access {t l f d} h hf m' := by
    rcases instr_blocks h hf with ⟨-, hpc, -⟩ | ⟨self, -, hpc, -⟩ <;>
      exact not_holds (by simp [hpc])

end Wakeups

/-! ### Runs -/

section Runs
variable {ok : Config (Thread N) (Shared (Thread N) (Mutex N) (Data N)) (Status (Mutex N) Loc) →
    Thread N × Act (Thread N) → Prop}
  {s : Config (Thread N) (Shared (Thread N) (Mutex N) (Data N)) (Status (Mutex N) Loc)}

theorem knows_reachable (h : (system N).Reachable ok s) :
    ∀ t l, s.thread t = .run l → KnowsToWait t l s.shared.data := by
  apply guarded_invariant (Q := KnowsToWait) ?_ ?_ ?_ ?_ h
  · intro t
    cases t <;> exact knows_of_pc (by simp [graph, entry]) (by simp [graph, entry])
  · intro t l b d d' k _ he
    exact knows_edge he
  · intro t l m k hi d
    rcases instr_wait hi with ⟨-, -, rfl⟩ | ⟨self, node, -, -, -, -, rfl⟩ <;>
      exact knows_of_pc (by simp [Loc.goto]) (by simp [Loc.goto])
  · intro t u l l' b d d' k htu hexcl hq he
    obtain ⟨hticks, hready⟩ := edge_data he
    refine ⟨fun hpc => ?_, fun self node ht hnode hpc ha => ?_⟩
    · have hhold : holds t l .clock := by
        simp [holds, hpc]
      have hsame := hticks.resolve_right fun ho => hexcl _ hhold ho.2
      have hold := hq.1 hpc
      unfold Awaited at hold ⊢
      rwa [hsame]
    · have hhold : holds t l (.node node) := by
        simp [holds, ht, hpc, hnode]
      rcases hready node ha with hr | ho
      · exact hq.2 self node ht hnode hpc hr
      · exact hexcl _ hhold ho.2

/-- Where a thread goes on after `cond_wait`. -/
theorem asleep_reachable (h : (system N).Reachable ok s) : ∀ t m k,
    s.thread t = .asleep m k ∨ s.thread t = .woken m k →
    (m = .clock ∧ k.pc = .wait .test) ∨ ∃ self node, t = .node self ∧ parent self = some node ∧
      m = .node node ∧ k.pc = .nodeWait .test := by
  refine resume_rule (fun t l m k hi => ?_) h
  rcases instr_wait hi with ⟨-, hm, rfl⟩ | ⟨self, node, ht, hnode, -, hm, rfl⟩
  · exact .inl ⟨hm, rfl⟩
  · exact .inr ⟨self, node, ht, hnode, hm, rfl⟩

/-- A sleeper that need not wait has somebody on the way to wake it. -/
theorem owed_reachable (h : (system N).Reachable ok s) : ∀ t m k, s.thread t = .asleep m k →
    t ∈ s.shared.waiters m → Awaited t k m s.shared.data →
    ∃ u l, s.thread u = .run l ∧ Owes u l m := by
  refine wakeup_owed wakeups ?_ ?_ h
  · intro s t l m k hr hl hi ha
    have hk := knows_reachable hr t l hl
    rcases instr_wait hi with ⟨hpc, rfl, rfl⟩ | ⟨self, node, rfl, hnode, hpc, rfl, rfl⟩
    · exact hk.1 hpc ha
    · exact hk.2 self node rfl hnode hpc ha
  · -- the waiters of a node are its child
    intro s t u m hr ht hu hsig
    obtain ⟨v, l, k, hi⟩ := hsig
    have hs := sound_reachable hr
    have child (w : Thread N) (hw : w ∈ s.shared.waiters m) : ∃ self node, w = .node self ∧
        parent self = some node ∧ m = .node node := by
      obtain ⟨k', hk'⟩ := hs.asleep w m hw
      rcases asleep_reachable hr w m k' (.inl hk') with ⟨rfl, -⟩ | ⟨self, node, hw', hn, hm, -⟩
      · exact absurd hi instr_signal
      · exact ⟨self, node, hw', hn, hm⟩
    obtain ⟨self, node, rfl, hnode, rfl⟩ := child t ht
    obtain ⟨self', node', rfl, hnode', hm⟩ := child u hu
    cases hm
    rw [Fin.ext ((parent_eq.mp hnode).trans (parent_eq.mp hnode').symm)]

/-- The thread has come to its end. -/
def Done (s : Config (Thread N) (Shared (Thread N) (Mutex N) (Data N)) (Status (Mutex N) Loc))
    (t : Thread N) : Prop := ∃ l, s.thread t = .run l ∧ l.pc = .done

theorem Done.blocked {t : Thread N} (h : Done s t) : (graph N).Blocked s t := by
  obtain ⟨l, hl, hpc⟩ := h
  intro a _
  have hexit : (graph N).instr t l = .exit := by
    obtain ⟨pc, i, bit⟩ := l
    obtain rfl : pc = .done := hpc
    cases t <;> rfl
  rw [hl]
  simp [Program.next, hexit, perform]

/-- A node does not stop before its end. -/
theorem NodeStop.exit_done {self : Fin N} {d : Data N} {l : Loc} (h : NodeStop self d l)
    (hi : threadFunc self l = .exit) : l.pc = .done := by
  obtain ⟨pc, i, bit⟩ := l
  obtain ⟨-, hpc⟩ := h
  simp only at hpc
  cases pc with
  | done => rfl
  | nodeWait p =>
    obtain ⟨node, hnode⟩ := Option.isSome_iff_exists.mp hpc
    simp only [threadFunc, hnode] at hi
    cases p <;> cases hi
  | wait p | tick p | signal last p => cases p <;> cases hi
  | start | leave => cases hi
  | create | stop | join => exact hpc.elim

theorem Inv.nodeStop {d : Data N} {l : Thread N → Loc} (h : Inv d l) (self : Fin N) :
    NodeStop self { d with exited := fun _ => true } (l (.node self)) := by
  rcases h with ⟨k, h⟩ | h
  · exact (h.node self).stop _
  · exact (h.node self).mono fun _ => rfl

section Blocked
variable (h : (system N).Reachable ok s) (hblocked : ∀ t, (graph N).Blocked s t)
include h hblocked

/-- When every thread is blocked the sleepers have to wait. -/
theorem not_awaited {t : Thread N} {m : Mutex N} {k : Loc} (ht : s.thread t = .asleep m k)
    (hmem : t ∈ s.shared.waiters m) : ¬ Awaited t k m s.shared.data := by
  intro ha
  obtain ⟨u, l, hl, ho⟩ := owed_reachable h t m k ht hmem ha
  have hinstr := owes_instr ho
  rcases asleep_of_blocked ranked 0 (fun _ => Nat.le_refl 0) h hblocked u with
    ⟨l', hl', hi⟩ | ⟨m', k', hk', -⟩ | ⟨l', f, hl', hi, -⟩
  · cases hl.symm.trans hl'
    change instr u l = _ at hi
    simp [hi] at hinstr
  · cases hl.symm.trans hk'
  · cases hl.symm.trans hl'
    change instr u l = _ at hi
    simp [hi] at hinstr

/-- When every thread is blocked a node is done, asleep, or not created. -/
theorem node_blocked (self : Fin N) : Done s (.node self) ∨
    (∃ k, s.thread (.node self) = .asleep .clock k ∧ k.pc = .wait .test ∧
      .node self ∈ s.shared.waiters .clock) ∨
    (∃ node k, parent self = some node ∧ s.thread (.node self) = .asleep (.node node) k ∧
      k.pc = .nodeWait .test ∧ .node self ∈ s.shared.waiters (.node node)) ∨
    (Program.locs s (.node self)).pc = .start ∧ s.shared.data.created ≤ self := by
  rcases asleep_of_blocked ranked 0 (fun _ => Nat.le_refl 0) h hblocked (.node self) with
    ⟨l, hl, hi⟩ | ⟨m, k, hk, hmem⟩ | ⟨l, f, hl, hi, hf⟩
  · refine .inl ⟨l, hl, ?_⟩
    have hloc : Program.locs s (.node self) = l := by simp [Program.locs, hl, Status.loc]
    have hnode := (inv_reachable h).nodeStop self
    rw [hloc] at hnode
    exact hnode.exit_done hi
  · rcases asleep_reachable h _ m k (.inl hk) with ⟨rfl, hpc⟩ | ⟨self', node, hs', hnode, rfl, hpc⟩
    · exact .inr (.inl ⟨k, hk, hpc, hmem⟩)
    · cases hs'
      exact .inr (.inr (.inl ⟨node, k, hnode, hk, hpc, hmem⟩))
  · change instr (.node self) l = _ at hi
    rcases instr_blocks hi hf with ⟨ht, -⟩ | ⟨self', ht, hpc, hc⟩
    · cases ht
    · cases ht
      refine .inr (.inr (.inr ⟨?_, hc⟩))
      simp [Program.locs, hl, Status.loc, hpc]

/-- Before `clock_stop` and before the counter overflows, somebody can go on: the node where the
token is. -/
theorem running_not_blocked {k : ℕ} (hrun : Running s.shared.data (Program.locs s) k)
    (hticked : Ticked (Program.locs s .main).pc) (hlt : s.shared.data.ticks < 2 ^ N) : False := by
  have hk : k < N := by
    have hne : k ≠ N + 1 := fun he => hrun.unborn.mp he hticked
    have hbound := hrun.bound
    have hfull : k ≠ N := by
      rintro rfl
      have := hrun.counter.ticks_of_overflow
      have hpos := hrun.ticks
      have hcast : s.shared.data.ticks = ((2 ^ k : ℕ) : ℤ) := by omega
      rw [hcast] at hlt
      simp at hlt
    omega
  have hcreated : s.shared.data.created = N := by
    have hmain := hrun.main
    unfold MainOk at hmain
    split at hmain
    · rename_i hpc
      rw [hpc] at hticked
      exact hticked.elim
    all_goals first | exact hmain | exact hmain.elim
  have hnode := hrun.node ⟨k, hk⟩
  rcases node_blocked h hblocked ⟨k, hk⟩ with ⟨l, hl, hpc⟩ | ⟨k', hk', hpc, hmem⟩ |
    ⟨node, k', hparent, hk', hpc, hmem⟩ | ⟨-, hc⟩
  · simp only [Program.locs, hl, Status.loc, NodeOk, hpc] at hnode
    exact hnode.2.2.elim
  · -- at the clock: the tick that the token stands for is there
    refine not_awaited h hblocked hk' hmem ?_
    have hmove := hrun.counter.move_le_ticks hk
    have hdig := digits_self (l := Program.locs s) ⟨k, hk⟩
    have hloc : Program.locs s (.node ⟨k, hk⟩) = k' := by simp [Program.locs, hk', Status.loc]
    rw [hloc] at hdig hnode
    rw [hdig, moves_idle (by rw [hpc]; rfl)] at hmove
    have hi := hnode.1
    simp only [Awaited, bound]
    omega
  · -- at the parent: its signal is the token
    refine not_awaited h hblocked hk' hmem ?_
    have hself := parent_eq.mp hparent
    simp only at hself
    refine (hrun.ready node).mpr ⟨hself, fun self hs => ?_⟩
    obtain rfl : self = ⟨k, hk⟩ := Fin.ext (by simp only; omega)
    simp [Program.locs, hk', Status.loc, hpc, Carrying]
  · simp only at hc
    omega

/-- After `clock_stop` every thread comes to its end. -/
theorem stopped_done (hstop : Stopped s.shared.data (Program.locs s)) (t : Thread N) :
    Done s t := by
  have hnodes : ∀ i, ∀ hi : i < N, Done s (.node ⟨i, hi⟩) := by
    intro i
    induction i using Nat.strongRecOn with
    | _ i ih =>
      intro hi
      rcases node_blocked h hblocked ⟨i, hi⟩ with hd | ⟨k', hk', -, hmem⟩ |
        ⟨node, k', hparent, hk', hpc, hmem⟩ | ⟨-, hc⟩
      · exact hd
      · refine absurd ?_ (not_awaited h hblocked hk' hmem)
        simp [Awaited, hstop.ticks]
      · -- the parent is done, its last signal is there
        refine absurd ?_ (not_awaited h hblocked hk' hmem)
        have hself := parent_eq.mp hparent
        simp only at hself
        obtain ⟨l, hl, hdone⟩ := ih node (by omega) node.isLt
        have hfinal : Final (Program.locs s (.node node)).pc := by
          simp only [Program.locs]
          rw [show s.thread (.node node) = .run l from hl]
          simp [Status.loc, hdone, Final]
        rcases hstop.final node ⟨i, hi⟩ hparent hfinal with hr | hpast
        · exact hr
        · simp [Program.locs, hk', Status.loc, hpc, Past] at hpast
      · have := hstop.created
        simp only at hc
        omega
  cases t with
  | node self => exact hnodes self self.isLt
  | main =>
    have hmain := hstop.main
    rcases asleep_of_blocked ranked 0 (fun _ => Nat.le_refl 0) h hblocked .main with
      ⟨l, hl, hi⟩ | ⟨m, k, hk, -⟩ | ⟨l, f, hl, hi, hf⟩
    · refine ⟨l, hl, ?_⟩
      simp only [Program.locs, hl, Status.loc] at hmain
      change main N l = .exit at hi
      obtain ⟨pc, i, bit⟩ := l
      cases pc with
      | done => rfl
      | stop p => cases p <;> cases hi
      | join => cases hi
      | create | start | wait | nodeWait | tick | signal | leave => exact hmain.elim
    · rcases asleep_reachable h _ m k (.inl hk) with ⟨-, hpc⟩ | ⟨self, node, ht, -⟩
      · simp [Program.locs, hk, Status.loc, hpc, Stopping] at hmain
      · cases ht
    · change instr .main l = _ at hi
      rcases instr_blocks hi hf with ⟨-, -, hi, hnot⟩ | ⟨self, ht, -⟩
      · obtain ⟨l', hl', hdone⟩ := hnodes l.i hi
        have hn := (hstop.node ⟨l.i, hi⟩).2
        simp only [Program.locs, hl', Status.loc, hdone] at hn
        rw [hn] at hnot
        cases hnot
      · cases ht

end Blocked

/-- In every run of the graph: before `clock_stop` the ready flag of a node with a child is not set
when the node sets it; the clock does not go beyond `2 ^ N`; after the first tick and before
`2 ^ N` some thread can go on, and so can an unfinished one after `clock_stop`. -/
theorem clock_graph (h : (system N).Reachable System.free s) :
    (∀ self child l last, parent child = some self → ¬ Stopping (Program.locs s .main).pc →
      s.thread (.node self) = .run l → l.pc = .signal last .set →
      s.shared.data.ready self = false) ∧
    s.shared.data.ticks ≤ 2 ^ N ∧
    (Ticked (Program.locs s .main).pc → 0 ≤ s.shared.data.ticks → s.shared.data.ticks < 2 ^ N →
      ¬ ∀ t, (graph N).Blocked s t) ∧
    (Stopping (Program.locs s .main).pc → (∃ t, ¬ Done s t) →
      ¬ ∀ t, ¬ Done s t → (graph N).Blocked s t) := by
  rcases inv_reachable h with ⟨k, hrun⟩ | hstop
  · have hlive : ¬ Stopping (Program.locs s .main).pc := by
      have hmain := hrun.main
      unfold MainOk at hmain
      split at hmain <;> rename_i hpc
      all_goals first | exact hmain.elim | simp [hpc, Stopping]
    refine ⟨fun self child l last _ _ hl hpc => ?_, ?_, fun hticked _ hlt hb => ?_,
      fun hs => absurd hs hlive⟩
    · have hnode := hrun.node self
      have hloc : Program.locs s (.node self) = l := by simp [Program.locs, hl, Status.loc]
      rw [hloc] at hnode
      obtain ⟨-, -, hsig⟩ := hnode
      rw [hpc] at hsig
      obtain ⟨rfl, -⟩ := hsig
      exact (hrun.alone (by rw [hloc, hpc]; trivial)).2.2 self
    · have hle := hrun.counter.ticks_le
      have hpos := hrun.ticks
      have hcast : (s.shared.data.ticks.toNat : ℤ) ≤ ((2 ^ N : ℕ) : ℤ) := by exact_mod_cast hle
      rw [Int.toNat_of_nonneg hpos] at hcast
      simpa using hcast
    · exact running_not_blocked h hb hrun hticked hlt
  · have hneg := hstop.ticks
    refine ⟨fun self child l last _ hs => absurd hstop.main hs, ?_, fun _ hpos => ?_,
      fun _ hex hb => ?_⟩
    · have hpow : (0 : ℤ) < 2 ^ N := by positivity
      omega
    · omega
    · obtain ⟨t, ht⟩ := hex
      have hall (u : Thread N) : (graph N).Blocked s u := by
        by_cases hu : Done s u
        · exact hu.blocked
        · exact hb u hu
      exact ht (stopped_done h hall hstop t)

end Runs
/-- One node: `main` creates it and ticks; the node takes the tick and is about to tick itself. -/
def firstTickSchedule (self : Fin N) : List (Thread N × Act (Thread N)) :=
  List.replicate 5 (.main, .run) ++ List.replicate 6 (.node self, .run)

theorem clock_graph_one : ∃ s : Config (Thread 1) (Shared (Thread 1) (Mutex 1) (Data 1))
      (Status (Mutex 1) Loc),
    (s.shared.data.ticks = 1 ∧ (Program.locs s (.node 0)).pc = .tick .set) ∧
    s.shared.data.ticks ≤ 2 ^ 1 ∧
    (Ticked (Program.locs s .main).pc → 0 ≤ s.shared.data.ticks → s.shared.data.ticks < 2 ^ 1 →
      ¬ ∀ t, (graph 1).Blocked s t) := by
  have hrun : ((system 1).exec (fun _ _ => true) ((graph 1).start (start 1))
      (firstTickSchedule 0)).any (fun s => s.shared.data.ticks = 1 ∧
        (Program.locs s (.node 0)).pc = .tick .set) = true := by decide +kernel
  obtain ⟨s, hs, hc⟩ := (Option.any_eq_true _ _).mp hrun
  have h := clock_graph ⟨_, rfl, System.run_of_exec (fun _ _ _ => trivial) hs⟩
  exact ⟨s, of_decide_eq_true hc, h.2.1, h.2.2.1⟩

end LinuxSummer.ClockGraph
