import LinuxSummer.MpmcReclaim

/-! `mpmc_find_cell` of hw3/mpmc.c by itself. Threads register when they like and then call it
through their own handles, for indices of their choice, and no node is reclaimed. -/
namespace LinuxSummer.Mpmc
set_option linter.unusedSectionVars false

/-- A call that has returned `&node->cells[index & N_BITS]`. -/
structure Call (nr : ℕ) where
  thread : Fin nr
  flag : QueueOp
  index : ℕ
  node : ℕ
deriving DecidableEq

/-- The cell as an address: the node and the offset in its array. -/
def Call.cell {nr : ℕ} (Q : Setup nr) (c : Call nr) : ℕ × ℕ := (c.node, c.index &&& Q.mask)

/-- The queue, with the calls that have returned, latest first. No step reads those. -/
structure Finding (nr : ℕ) (V : Type) where
  queue : Shared nr V
  calls : List (Call nr)

inductive FindAct (V : Type) where
  | register
  | call (op : Op V) (i : ℕ)
  /-- The next access of a call in progress. -/
  | run

variable {nr : ℕ} {V : Type}

/-- The handle that `mpmc_queue_register` sets up. -/
def register (u : Fin nr) (g : Shared nr V) : Shared nr V :=
  { g with
    heap := Function.update g.heap g.used newNode
    used := g.used + 1
    handle := Function.update g.handle u ⟨some g.used, g.initNode, g.initNode⟩ }

/-- A thread is nowhere before it has registered. The store to the pointer of the handle is the
last access of a call. -/
def findNext (Q : Setup nr) (u : Fin nr) (f : Finding nr V) :
    Option (Pc nr V) → FindAct V → Option (Finding nr V × Option (Pc nr V))
  | none, .register => some ({ f with queue := register u f.queue }, some .idle)
  | some .idle, .call op i =>
    if (Q.handles op.flag).contains u then some (f, some (.start op i)) else none
  | some (.setPtr op i curr), .run =>
    (run Q u f.queue newNode (.setPtr op i curr)).map fun r =>
      (⟨r.1, ⟨u, op.flag, i, curr⟩ :: f.calls⟩, some .idle)
  | some pc, .run =>
    (run Q u f.queue newNode pc).map fun r => ({ f with queue := r.1 }, some r.2)
  | _, _ => none

/-- After `mpmc_init_queue`, before any thread has registered. The pointers of the handles are not
read before that. -/
def findStart (nr : ℕ) (V : Type) : Config (Fin nr) (Finding nr V) (Option (Pc nr V)) where
  shared :=
    { queue := { (start nr V).shared with used := 1, handle := fun _ => ⟨none, 0, 0⟩ }
      calls := [] }
  thread := fun _ => none

def findSystem (V : Type) (Q : Setup nr) :
    System (Config (Fin nr) (Finding nr V) (Option (Pc nr V))) (Fin nr × FindAct V) :=
  Threads.system ⟨findNext Q⟩ (· = findStart nr V)

/-- The indices that a thread passes for one of its pointers never decrease. -/
def NoDecrease (s : Config (Fin nr) (Finding nr V) (Option (Pc nr V))) :
    Fin nr × FindAct V → Prop
  | (u, .call op i) => ∀ c ∈ s.shared.calls, c.thread = u → c.flag = op.flag → c.index ≤ i
  | _ => True

instance (s : Config (Fin nr) (Finding nr V) (Option (Pc nr V))) :
    DecidablePred (NoDecrease s)
  | (u, .call op i) => inferInstanceAs
    (Decidable (∀ c ∈ s.shared.calls, c.thread = u → c.flag = op.flag → c.index ≤ i))
  | (_, .register) => isTrue trivial
  | (_, .run) => isTrue trivial

/-- The nodes that are reached from `init_node` through `next`. -/
def Linked (g : Shared nr V) : ℕ → Prop :=
  Relation.ReflTransGen (fun p q => (g.heap p).next = some q) g.initNode

/-- The linked nodes form a chain that ends, and each has its place as id. -/
structure OneChain (g : Shared nr V) (chain : List ℕ) : Prop where
  first : chain[0]? = some g.initNode
  nodup : chain.Nodup
  linked : ∀ p, Linked g p ↔ p ∈ chain
  node : ∀ k p, chain[k]? = some p → (g.heap p).id = k ∧ (g.heap p).next = chain[k + 1]?

/-- What threads agree on. -/
structure Agreement (Q : Setup nr)
    (s : Config (Fin nr) (Finding nr V) (Option (Pc nr V))) : Prop where
  chain : ∃ chain, OneChain s.shared.queue chain
  spare_unlinked : ∀ u p, (s.shared.queue.handle u).spare = some p → ¬ Linked s.shared.queue p
  spare_unshared : ∀ u v p, (s.shared.queue.handle u).spare = some p →
    (s.shared.queue.handle v).spare = some p → u = v
  id_kept : ∀ s', (findSystem V Q).Run NoDecrease s s' → ∀ p, Linked s.shared.queue p →
    Linked s'.shared.queue p ∧ (s'.shared.queue.heap p).id = (s.shared.queue.heap p).id
  cells : ∀ c ∈ s.shared.calls, ∀ c' ∈ s.shared.calls, c.cell Q = c'.cell Q ↔ c.index = c'.index

/-! ### The queue of a configuration -/

variable {Q : Setup nr} {chain chain' : List ℕ} {g g' : Shared nr V} {pc pc' : Pc nr V}
  {s s' : Config (Fin nr) (Finding nr V) (Option (Pc nr V))}

/-- The queue with counters that are past all indices below `m`. -/
def Shared.counted (g : Shared nr V) (m : ℕ) : Shared nr V :=
  { g with putIndex := m, popIndex := m }

/-- The configuration of the queue in which a thread that has not registered is idle. -/
def queueConfig (m : ℕ) (s : Config (Fin nr) (Finding nr V) (Option (Pc nr V))) :
    Config (Fin nr) (Shared nr V) (Pc nr V) where
  shared := s.shared.queue.counted m
  thread u := (s.thread u).getD .idle

/-- Inside `mpmc_find_cell`, or between two calls. -/
def InFind : Pc nr V → Prop
  | .idle => True
  | .start _ _ => True
  | .next _ _ _ _ => True
  | .fill _ _ _ _ => True
  | .link _ _ _ _ _ => True
  | .setPtr _ _ _ => True
  | _ => False

/-- `mpmc_find_cell` does not look at the counters. -/
theorem run_counted {u : Fin nr} (m : ℕ) (hpc : InFind pc)
    (hn : run Q u g newNode pc = some (g', pc')) :
    run Q u (g.counted m) newNode pc = some (g'.counted m, pc') := by
  cases pc with
  | idle => cases hn
  | start op i =>
    cases hn
    rfl
  | next op i curr j =>
    simp only [run] at hn
    split at hn <;> rename_i hnext <;> cases hn
    · simp only [run, Shared.counted, hnext]
    · simp only [run, Shared.counted, hnext]
  | fill op i curr j =>
    simp only [run, spare] at hn
    split at hn <;> rename_i hs <;> cases hn
    · simp [run, spare, Shared.counted, Shared.setId, hs]
    · simp [run, spare, Shared.counted, Shared.setId, hs]
  | link op i curr j tmp =>
    simp only [run] at hn
    split at hn <;> rename_i hnext <;> cases hn
    · simp [run, Shared.counted, Shared.setNext, Shared.setHandle, hnext]
    · simp only [run, Shared.counted, hnext]
  | setPtr op i curr =>
    cases hn
    rfl
  | _ => exact hpc.elim

theorem inFind_walk (op : Op V) (i curr j : ℕ) : InFind (walk Q op i curr j : Pc nr V) := by
  unfold walk
  split <;> trivial

/-- What an access of `mpmc_find_cell` does to the handles: only the last one moves a pointer. -/
theorem run_handles {u : Fin nr} (hpc : InFind pc) (hset : ∀ op i curr, pc ≠ .setPtr op i curr)
    (hn : run Q u g newNode pc = some (g', pc')) :
    InFind pc' ∧ g'.initNode = g.initNode ∧ (∀ v, v ≠ u → g'.handle v = g.handle v) ∧
      ∀ v flag, (g'.handle v).ptr flag = (g.handle v).ptr flag := by
  cases pc with
  | idle => cases hn
  | start op i =>
    cases hn
    exact ⟨inFind_walk .., rfl, fun _ _ => rfl, fun _ _ => rfl⟩
  | next op i curr j =>
    simp only [run] at hn
    split at hn <;> cases hn
    · exact ⟨inFind_walk .., rfl, fun _ _ => rfl, fun _ _ => rfl⟩
    · exact ⟨trivial, rfl, fun _ _ => rfl, fun _ _ => rfl⟩
  | fill op i curr j =>
    simp only [run, spare] at hn
    split at hn <;> cases hn
    · exact ⟨trivial, rfl, fun _ _ => rfl, fun _ _ => rfl⟩
    · refine ⟨trivial, rfl, fun v hv => Function.update_of_ne hv .., fun v flag => ?_⟩
      by_cases hv : v = u
      · subst hv
        cases flag <;> simp [Shared.setId, Handle.ptr]
      · simp [Shared.setId, hv]
  | link op i curr j tmp =>
    simp only [run] at hn
    split at hn <;> cases hn
    · exact ⟨inFind_walk .., rfl, fun v hv => linked_handle hv, fun v flag => linked_ptr v flag⟩
    · exact ⟨inFind_walk .., rfl, fun _ _ => rfl, fun _ _ => rfl⟩
  | setPtr op i curr => exact absurd rfl (hset op i curr)
  | _ => exact hpc.elim

/-! ### The invariant -/

/-- The nodes are those of a queue without reclamation. A pointer is at the node of a call through
it, or still at the initial node; and the node of a call is the one of its index. -/
structure FindInv (Q : Setup nr) (chain : List ℕ)
    (s : Config (Fin nr) (Finding nr V) (Option (Pc nr V))) : Prop where
  queue : ∃ m, Inv Q chain 0 (queueConfig m s)
  inFind : ∀ u pc, s.thread u = some pc → InFind pc
  unregistered : ∀ u, s.thread u = none →
    s.shared.queue.handle u = ⟨none, s.shared.queue.initNode, s.shared.queue.initNode⟩
  pointer : ∀ u flag, (s.shared.queue.handle u).ptr flag = s.shared.queue.initNode ∨
    ∃ c ∈ s.shared.calls, c.thread = u ∧ c.flag = flag ∧
      c.node = (s.shared.queue.handle u).ptr flag
  found : ∀ c ∈ s.shared.calls, chain[c.index / Q.cells]? = some c.node

theorem queueConfig_update (m : ℕ) (f : Finding nr V) (u : Fin nr) (pc : Pc nr V) :
    queueConfig m ⟨f, Function.update s.thread u (some pc)⟩ =
      ⟨f.queue.counted m, Function.update (queueConfig m s).thread u pc⟩ := by
  unfold queueConfig
  congr 1
  funext v
  by_cases hv : v = u
  · subst hv
    simp
  · simp [hv]

/-- The program counters after a step of `u`. -/
theorem inFind_update {u : Fin nr} (hi : FindInv Q chain s) (hpc : InFind pc) (v : Fin nr)
    (pc' : Pc nr V) (h : Function.update s.thread u (some pc) v = some pc') : InFind pc' := by
  by_cases hv : v = u
  · subst hv
    rw [Function.update_self] at h
    cases h
    exact hpc
  · rw [Function.update_of_ne hv] at h
    exact hi.inFind v pc' h

theorem unregistered_update {u v : Fin nr} (h : Function.update s.thread u (some pc) v = none) :
    v ≠ u ∧ s.thread v = none := by
  by_cases hv : v = u
  · subst hv
    simp at h
  · rw [Function.update_of_ne hv] at h
    exact ⟨hv, h⟩

/-- A registered handle has an unlinked node of its own. -/
theorem private_register {base : ℕ} (u : Fin nr) (hm : Memory Q chain base g)
    (hu : g.handle u = ⟨none, g.initNode, g.initNode⟩) :
    Private chain u g.used g (register u g) where
  notMem h := absurd (hm.lt_used _ h) (Nat.lt_irrefl _)
  lt_used := Nat.lt_succ_self _
  others t _ h := absurd (hm.spare t _ h).1 (Nat.lt_irrefl _)
  next := by simp [register, newNode]
  cells := by simp [register, newNode]
  heap p hp := by simp [register, hp]
  used := Nat.le_succ _
  freed := rfl
  initNode := rfl
  initId := rfl
  index _ := rfl
  handle t ht := by simp [register, ht]
  ptr flag := by
    rw [hu]
    cases flag <;> simp [register, Handle.ptr]
  spare := by simp [register]

/-- Registration. -/
theorem inv_register {u : Fin nr} (hi : FindInv Q chain s) (hu : s.thread u = none) :
    FindInv Q chain ⟨{ s.shared with queue := register u s.shared.queue },
      Function.update s.thread u (some .idle)⟩ := by
  obtain ⟨m, hm⟩ := hi.queue
  have hhandle := hi.unregistered u hu
  have hp : Private chain u s.shared.queue.used (s.shared.queue.counted m)
      ((register u s.shared.queue).counted m) := private_register u hm.memory hhandle
  have hq : Inv Q chain 0 ⟨(register u s.shared.queue).counted m,
      Function.update (queueConfig m s).thread u .idle⟩ :=
    inv_of_unlocked hm (memory_private hp hm.memory) trivial (fun v hv => rely_private hp hv) rfl
      (fun h => h.elim) fun _ h => h.elim
  refine ⟨⟨m, ?_⟩, inFind_update hi trivial, fun v hv => ?_, fun v flag => ?_, hi.found⟩
  · rw [queueConfig_update]
    exact hq
  · obtain ⟨hvu, hnone⟩ := unregistered_update hv
    have hother := hp.handle v hvu
    exact hother.trans (hi.unregistered v hnone)
  · have hptr := hp.ptr_eq v flag
    have hkeep := hi.pointer v flag
    change ((register u s.shared.queue).handle v).ptr flag = _ at hptr
    simp only [hptr]
    exact hkeep

/-- The place of a pointer, which is not behind the node of an index that did not decrease. -/
theorem pointer_place {u : Fin nr} {flag : QueueOp} {i : ℕ} (hi : FindInv Q chain s)
    (hok : ∀ c ∈ s.shared.calls, c.thread = u → c.flag = flag → c.index ≤ i) :
    Between chain 0 (i / Q.cells) ((s.shared.queue.handle u).ptr flag) := by
  obtain ⟨m, hm⟩ := hi.queue
  rcases hi.pointer u flag with hinit | ⟨c, hc, hcu, hcf, hnode⟩
  · rw [hinit]
    exact ⟨0, hm.memory.initNode, Nat.le_refl _, Nat.zero_le _⟩
  · rw [← hnode]
    exact ⟨_, hi.found c hc, Nat.zero_le _, Nat.div_le_div_right (hok c hc hcu hcf)⟩

/-- A call begins. -/
theorem inv_call {u : Fin nr} {op : Op V} {i : ℕ} (hi : FindInv Q chain s)
    (hreg : u ∈ Q.handles op.flag)
    (hok : ∀ c ∈ s.shared.calls, c.thread = u → c.flag = op.flag → c.index ≤ i) :
    FindInv Q chain ⟨s.shared, Function.update s.thread u (some (.start op i))⟩ := by
  have hplace := pointer_place hi hok
  obtain ⟨m, hm⟩ := hi.queue
  -- the counters only have to be past the new index
  have hq : Quiet chain (s.shared.queue.counted m) (s.shared.queue.counted (max m (i + 1))) :=
    quiet_fields (g := s.shared.queue.counted m) (max m (i + 1)) (max m (i + 1)) _ _ _
      (Nat.le_max_left _ _) (Nat.le_max_left _ _)
  have hlt : i < (s.shared.queue.counted (max m (i + 1))).index op.flag := by
    have hle := Nat.le_max_right m (i + 1)
    cases op.flag <;> exact hle
  have hinv : Inv Q chain 0 ⟨s.shared.queue.counted (max m (i + 1)),
      Function.update (queueConfig m s).thread u (.start op i)⟩ :=
    inv_quiet hm hq ⟨hreg, hlt, hplace⟩ (fun h => h.elim) fun _ h => h.elim
  refine ⟨⟨max m (i + 1), ?_⟩, inFind_update hi trivial,
    fun v hv => hi.unregistered v (unregistered_update hv).2, hi.pointer, hi.found⟩
  rw [queueConfig_update]
  exact hinv

/-- The queue after an access of a call, for a chain that grows at most. -/
theorem queue_run {u : Fin nr} {m : ℕ} (hi : Inv Q chain 0 (queueConfig m s))
    (hu : s.thread u = some pc) (hpc : InFind pc)
    (hn : run Q u s.shared.queue newNode pc = some (g', pc')) :
    ∃ chain', Extends chain chain' ∧
      Inv Q chain' 0 ⟨g'.counted m, Function.update (queueConfig m s).thread u pc'⟩ := by
  have hthread : (queueConfig m s).thread u = pc := by
    simp [queueConfig, hu]
  have hrun := run_counted m hpc hn
  rw [← hthread] at hrun
  obtain ⟨chain', base', hinv, hext, -, hbase, -⟩ := steps_run hi hrun
  have hplain : ¬ Locked ((queueConfig m s).thread u) := by
    rw [hthread]
    intro hlock
    cases pc <;> first | exact hpc | exact hlock
  rw [hbase hplain] at hinv
  exact ⟨chain', hext, hinv⟩

/-- An access of a call that does not return. -/
theorem inv_access {u : Fin nr} (hi : FindInv Q chain s) (hu : s.thread u = some pc)
    (hset : ∀ op i curr, pc ≠ .setPtr op i curr)
    (hn : run Q u s.shared.queue newNode pc = some (g', pc')) :
    ∃ chain', Extends chain chain' ∧ FindInv Q chain'
      ⟨{ s.shared with queue := g' }, Function.update s.thread u (some pc')⟩ := by
  have hpc := hi.inFind u pc hu
  obtain ⟨hpc', hinit, hothers, hptr⟩ := run_handles hpc hset hn
  obtain ⟨m, hm⟩ := hi.queue
  obtain ⟨chain', hext, hinv⟩ := queue_run hm hu hpc hn
  refine ⟨chain', hext, ⟨m, ?_⟩, inFind_update hi hpc', fun v hv => ?_, fun v flag => ?_,
    fun c hc => hext _ _ (hi.found c hc)⟩
  · rw [queueConfig_update]
    exact hinv
  · obtain ⟨hvu, hnone⟩ := unregistered_update hv
    change g'.handle v = ⟨none, g'.initNode, g'.initNode⟩
    rw [hothers v hvu, hinit]
    exact hi.unregistered v hnone
  · change (g'.handle v).ptr flag = g'.initNode ∨ _
    simp only [hptr, hinit]
    exact hi.pointer v flag

/-- The last access of a call: its node is that of the index. -/
theorem inv_return {u : Fin nr} {op : Op V} {i curr : ℕ} (hi : FindInv Q chain s)
    (hu : s.thread u = some (.setPtr op i curr)) :
    FindInv Q chain ⟨⟨moved u s.shared.queue op.flag curr,
      ⟨u, op.flag, i, curr⟩ :: s.shared.calls⟩, Function.update s.thread u (some .idle)⟩ := by
  obtain ⟨m, hm⟩ := hi.queue
  have hthread : (queueConfig m s).thread u = .setPtr op i curr := by
    simp [queueConfig, hu]
  have hl := hm.thread u
  rw [hthread] at hl
  obtain ⟨hreg, hlt, hcurr, -, hptr⟩ := hl
  have hinv : Inv Q chain 0 ⟨(moved u s.shared.queue op.flag curr).counted m,
      Function.update (queueConfig m s).thread u .idle⟩ :=
    inv_of_unlocked hm (memory_moved hm.memory hreg hlt hcurr hptr) trivial
      (fun v hv => rely_moved hm.memory hcurr hptr hv) rfl (fun h => h.elim) fun _ h => h.elim
  refine ⟨⟨m, ?_⟩, inFind_update hi trivial, fun v hv => ?_, fun v flag => ?_, fun c hc => ?_⟩
  · rw [queueConfig_update]
    exact hinv
  · obtain ⟨hvu, hnone⟩ := unregistered_update hv
    exact (Function.update_of_ne hvu ..).trans (hi.unregistered v hnone)
  · change ((moved u s.shared.queue op.flag curr).handle v).ptr flag = _ ∨ _
    simp only [moved_ptr]
    split
    · -- the pointer of this call
      rename_i h
      exact Or.inr ⟨_, List.mem_cons_self .., h.1.symm, h.2.symm, rfl⟩
    · rcases hi.pointer v flag with hinit | ⟨c, hc, hcall⟩
      · exact Or.inl hinit
      · exact Or.inr ⟨c, List.mem_cons_of_mem _ hc, hcall⟩
  · rcases List.mem_cons.mp hc with rfl | hc
    · exact hcurr
    · exact hi.found c hc

/-- What a step does: a registration, the begin of a call, the end of one, or an access between. -/
theorem findNext_cases {u : Fin nr} {f f' : Finding nr V} {l l' : Option (Pc nr V)}
    {a : FindAct V} (h : findNext Q u f l a = some (f', l')) :
    (l = none ∧ f' = { f with queue := register u f.queue } ∧ l' = some .idle) ∨
    (∃ op i, a = .call op i ∧ u ∈ Q.handles op.flag ∧ f' = f ∧ l' = some (.start op i)) ∨
    (∃ op i curr, l = some (.setPtr op i curr) ∧ l' = some .idle ∧
      f' = ⟨moved u f.queue op.flag curr, ⟨u, op.flag, i, curr⟩ :: f.calls⟩) ∨
    ∃ pc g' pc', l = some pc ∧ (∀ op i curr, pc ≠ .setPtr op i curr) ∧
      run Q u f.queue newNode pc = some (g', pc') ∧ f' = { f with queue := g' } ∧
      l' = some pc' := by
  unfold findNext at h
  split at h
  · cases h
    exact Or.inl ⟨rfl, rfl, rfl⟩
  · split at h
    · rename_i op i hreg
      cases h
      exact Or.inr (Or.inl ⟨op, i, rfl, List.contains_iff_mem.mp hreg, rfl, rfl⟩)
    · cases h
  · rename_i op i curr
    cases h
    exact Or.inr (Or.inr (Or.inl ⟨op, i, curr, rfl, rfl, rfl⟩))
  · rename_i pc hset
    obtain ⟨r, hr, heq⟩ := Option.map_eq_some_iff.mp h
    cases heq
    exact Or.inr (Or.inr (Or.inr ⟨pc, r.1, r.2, rfl, fun op i curr hpc => hset op i curr
      (by rw [hpc]), hr, rfl, rfl⟩))
  · cases h

/-- The step lemma: the chain grows at most. -/
theorem find_step {a : Fin nr × FindAct V} (hi : FindInv Q chain s) (hok : NoDecrease s a)
    (hn : (findSystem V Q).next s a = some s') :
    ∃ chain', Extends chain chain' ∧ FindInv Q chain' s' := by
  obtain ⟨u, act⟩ := a
  obtain ⟨f, l, hnext, rfl⟩ := Threads.step_cases hn
  rcases findNext_cases hnext with ⟨hu, rfl, rfl⟩ | ⟨op, i, rfl, hreg, rfl, rfl⟩ |
    ⟨op, i, curr, hu, rfl, rfl⟩ | ⟨pc, g', pc', hu, hset, hrun, rfl, rfl⟩
  · exact ⟨chain, .refl chain, inv_register hi hu⟩
  · exact ⟨chain, .refl chain, inv_call hi hreg hok⟩
  · exact ⟨chain, .refl chain, inv_return hi hu⟩
  · exact inv_access hi hu hset hrun

theorem find_start : FindInv Q [0] (findStart nr V) := by
  refine ⟨⟨0, ⟨⟨by simp, ?_, fun _ _ => ⟨rfl, rfl⟩, ?_, fun _ _ h => (nomatch h), List.nodup_nil,
    rfl, Or.inr rfl, ?_, fun _ _ h => (nomatch h), fun _ _ _ h => (nomatch h)⟩, fun _ => trivial,
    fun _ h => h.elim, fun _ _ h => h.elim, fun _ _ _ h => h.elim⟩⟩, fun _ _ h => (nomatch h),
    fun _ _ => rfl, ?_, fun _ h => (nomatch h)⟩
  · intro p hp
    rw [List.mem_singleton.mp hp]
    exact Nat.one_pos
  · intro k p hp _
    cases k with
    | zero => exact ⟨rfl, rfl⟩
    | succ k => cases hp
  · intro flag t _
    cases flag <;> exact ⟨0, rfl, Nat.le_refl _, Nat.zero_le _⟩
  · intro u flag
    cases flag <;> exact Or.inl rfl

/-- The run lemma. -/
theorem find_run (hi : FindInv Q chain s) (hr : (findSystem V Q).Run NoDecrease s s') :
    ∃ chain', Extends chain chain' ∧ FindInv Q chain' s' := by
  refine System.run_preserves (I := fun s' => ∃ chain', Extends chain chain' ∧ FindInv Q chain' s')
    (fun s₁ a s₂ h hok hn => ?_) hr ⟨chain, .refl chain, hi⟩
  obtain ⟨chain₁, hext₁, hi₁⟩ := h
  obtain ⟨chain₂, hext₂, hi₂⟩ := find_step hi₁ hok hn
  exact ⟨chain₂, fun k p hp => hext₂ k p (hext₁ k p hp), hi₂⟩

/-- The chain of the invariant is made of the linked nodes. -/
theorem oneChain (hi : FindInv Q chain s) : OneChain s.shared.queue chain := by
  obtain ⟨m, hm⟩ := hi.queue
  have hnode : ∀ k p, chain[k]? = some p → (s.shared.queue.heap p).id = k ∧
      (s.shared.queue.heap p).next = chain[k + 1]? :=
    fun k p hp => hm.memory.node k p hp (live hm.memory (Nat.zero_le k))
  have hfirst : chain[0]? = some s.shared.queue.initNode := hm.memory.initNode
  refine ⟨hfirst, hm.memory.nodup, fun p => ⟨fun h => ?_, fun h => ?_⟩, hnode⟩
  · -- the successor of the node at a place is at the next place
    induction h with
    | refl => exact mem_of_place hfirst
    | tail _ hnext ih =>
      obtain ⟨k, hk⟩ := List.mem_iff_getElem?.mp ih
      rw [(hnode k _ hk).2] at hnext
      exact mem_of_place hnext
  · obtain ⟨k, hk⟩ := List.mem_iff_getElem?.mp h
    induction k generalizing p with
    | zero =>
      rw [hfirst] at hk
      cases hk
      exact Relation.ReflTransGen.refl
    | succ k ih =>
      have hlt := (List.getElem?_eq_some_iff.mp hk).1
      obtain ⟨q, hq⟩ : ∃ q, chain[k]? = some q := ⟨_, List.getElem?_eq_getElem (by omega)⟩
      refine (ih q (mem_of_place hq) hq).tail ?_
      rw [(hnode k q hq).2]
      exact hk

theorem agreement_of_inv (hi : FindInv Q chain s) : Agreement Q s := by
  have hchain := oneChain hi
  obtain ⟨m, hm⟩ := hi.queue
  refine ⟨⟨chain, hchain⟩, fun u p hp hl => ?_, hm.memory.spare_inj, fun s' hr p hp => ?_,
    fun c hc c' hc' => ⟨fun h => ?_, fun h => ?_⟩⟩
  · exact (hm.memory.spare u p hp).2 ((hchain.linked p).mp hl)
  · obtain ⟨chain', hext, hi'⟩ := find_run hi hr
    have hchain' := oneChain hi'
    obtain ⟨k, hk⟩ := List.mem_iff_getElem?.mp ((hchain.linked p).mp hp)
    have hk' := hext k p hk
    refine ⟨(hchain'.linked p).mpr (mem_of_place hk'), ?_⟩
    rw [(hchain'.node k p hk').1, (hchain.node k p hk).1]
  · obtain ⟨hnode, hoff⟩ := Prod.mk.inj h
    have hplace := hi.found c hc
    rw [hnode] at hplace
    exact index_unique (place_unique hchain.nodup hplace (hi.found c' hc')) hoff
  · have hplace := hi.found c hc
    rw [h, hi.found c' hc'] at hplace
    unfold Call.cell
    rw [h, Option.some.inj hplace]

/-- Threads that call `mpmc_find_cell` agree on the chain of nodes and on the cell of an index. -/
theorem find_cell_agrees (hr : (findSystem V Q).Reachable NoDecrease s) : Agreement Q s := by
  obtain ⟨s₀, rfl, hrun⟩ := hr
  obtain ⟨chain, -, hi⟩ := find_run find_start hrun
  exact agreement_of_inv hi

/-- Both threads try to link a node behind the initial one. Thread 1 loses and links its node, with
a new id, in its next call. A node has one cell. -/
def findSchedule (t u : Fin nr) : List (Fin nr × FindAct ℕ) :=
  [(t, .register), (u, .register), (t, .call (.enqueue 7) 1), (u, .call .dequeue 1)] ++
    List.replicate 3 (t, .run) ++ List.replicate 3 (u, .run) ++ List.replicate 2 (t, .run) ++
    List.replicate 2 (u, .run) ++ (u, .call .dequeue 2) :: List.replicate 5 (u, .run)

theorem find_cell_agrees_race : ∃ s : Config (Fin 2) (Finding 2 ℕ) (Option (Pc 2 ℕ)),
    s.shared.calls = [⟨1, .dequeue, 2, 2⟩, ⟨1, .dequeue, 1, 1⟩, ⟨0, .enqueue, 1, 1⟩] ∧
      Agreement ⟨0, 0, 1, [0], [1]⟩ s := by
  have hrun : ((findSystem ℕ ⟨0, 0, 1, [0], [1]⟩).exec (fun s a => decide (NoDecrease s a))
      (findStart 2 ℕ) (findSchedule 0 1)).any (fun s => decide (s.shared.calls =
        [⟨1, .dequeue, 2, 2⟩, ⟨1, .dequeue, 1, 1⟩, ⟨0, .enqueue, 1, 1⟩])) = true := by
    decide +kernel
  obtain ⟨s, hs, hend⟩ := (Option.any_eq_true _ _).mp hrun
  exact ⟨s, of_decide_eq_true hend,
    find_cell_agrees ⟨_, rfl, System.run_of_exec (fun _ _ => of_decide_eq_true) hs⟩⟩

end LinuxSummer.Mpmc
