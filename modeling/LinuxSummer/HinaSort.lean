import LinuxSummer.Machine
import LinuxSummer.WorkLoop
import LinuxSummer.PoolTask
import Mathlib.Data.Fintype.Option
import Mathlib.Data.List.Perm.Subperm

/-! The sort of hw3/work-steal-qsort/src/main.c on the work pool of hina.c: `qsort_algo` is the
task of each work, and spawns another work where hw1/qsort-mt.c looks for an idle thread. The
deques are any that hand out each work once. One call of the comparison function or one exchange
is a step, and so is a critical section of `list_lock`. -/
set_option linter.unusedSectionVars false

namespace LinuxSummer.HinaSort
open WorkLoop Qsort

/-- `struct qsort`, without the pointer to what is common to all. -/
structure Qs where
  a : ℤ
  n : ℤ

/-- What `main` sets up: `int_elem`, `nelem`, and `es` and `cmp` of `qsort_common`. -/
structure Input (B : Type) where
  a : ℤ
  n : ℕ
  es : ℕ
  cmp : (Fin es → B) → (Fin es → B) → ℤ

/-- The length beyond which both parts have to be for a new work. -/
def forkelem : ℕ := 100

/-- Where a call of `hina_spawn` is, after the two calls of `malloc`. The works are numbered in
the order of their allocation. -/
inductive Spawn where
  | listAdd (w : ℕ)
  | fetchAdd (w : ℕ)
  | push (w : ℕ)

/-- The next access of a thread. -/
inductive Pc where
  /-- A worker before `pthread_create`. -/
  | unborn
  /-- In the loop of `thread`. -/
  | idle (l : Idle ℕ)
  /-- In `qsort_algo` for the work `w`, with `t` to do. -/
  | body (w : ℕ) (t : SortProg Unit)
  /-- In `hina_spawn`, called by the main thread or in the midst of `qsort_algo`. -/
  | spawn (caller : Option (ℕ × SortProg Unit)) (stage : Spawn)
  | dtor (w : ℕ)
  | fetchSub (w : ℕ)
  /-- The main thread, in `hina_run`. -/
  | create (i : ℕ)
  /-- The main thread, in `hina_exit` from here on. -/
  | poll
  | storeDone
  | join (i : ℕ)
  | free
  | exited

/-- The last five fields only record what happened. -/
structure Shared (n : ℕ) (B : Type) where
  mem : ℤ → B
  queue : Fin (n + 1) → List ℕ
  /-- `args` of the works, of which there are `used`, until `qsort_dtor` frees it. -/
  args : ℕ → Option Qs
  used : ℕ
  list : List ℕ
  active : ℤ
  done : Bool
  incremented : List ℕ
  called : List ℕ
  returned : List ℕ
  destroyed : List ℕ
  decremented : List ℕ

variable {n : ℕ} {B C : Type}

/-- `nr_threads` is `n + 1`. The main thread is `none`. -/
abbrev Who (n : ℕ) := Option (Fin (n + 1))

abbrev St (n : ℕ) (B : Type) := Config (Who n) (Shared n B) Pc

/-- `tid`, which is 0 in the main thread too. -/
def tid (t : Who n) : Fin (n + 1) := t.getD ⟨0, n.succ_pos⟩

/-- The thread has been passed to `pthread_create`. -/
def created (s : St n B) : Who n → Bool
  | none => true
  | some i => match s.thread none with
    | .create j => decide (i < j)
    | _ => true

/-- `qsort_spawn` up to the access of the list in `hina_spawn`. -/
def qsortSpawn (g : Shared n B) (caller : Option (ℕ × SortProg Unit)) (q : Qs) :
    Shared n B × Pc :=
  ({ g with args := Function.update g.args g.used (some q), used := g.used + 1 },
    .spawn caller (.listAdd g.used))

/-- `hina_spawn` returns to its caller. -/
def spawned : Option (ℕ × SortProg Unit) → Pc
  | none => .poll
  | some (w, t) => .body w t

/-- The next access in `hina_spawn`. -/
def hinaSpawn (g : Shared n B) (tid : Fin (n + 1)) (caller : Option (ℕ × SortProg Unit)) :
    Spawn → Shared n B × Pc
  | .listAdd w => ({ g with list := g.list ++ [w] }, .spawn caller (.fetchAdd w))
  | .fetchAdd w =>
    ({ g with active := g.active + 1, incremented := w :: g.incremented }, .spawn caller (.push w))
  | .push w =>
    ({ g with queue := Function.update g.queue tid (g.queue tid ++ [w]) }, spawned caller)

/-- `qsort_algo(args)`. -/
def algo (x : Input B) (q : Qs) : SortProg Unit := qsortAlgo x.es forkelem (q.n.toNat + 1) q.a q.n

/-- The next access of a thread. There is none in `qsort_algo` and in `qsort_dtor` when the arguments
have been freed. -/
def next (D : Deque ℕ C) (x : Input B) (s : St n B) (t : Who n) (c : C) :
    Pc → Option (Shared n B × Pc)
  | .unborn => if created s t then some (s.shared, .idle .take) else none
  | .idle (.found (.work w)) => (s.shared.args w).map fun q =>
    ({ s.shared with called := w :: s.shared.called }, .body w (algo x q))
  | .idle l => (idleStep D (tid t) s.shared.queue s.shared.done c l).map fun r =>
    ({ s.shared with queue := r.1 }, .idle r.2)
  | .body w (.op (.allocate a k) f) => some (qsortSpawn s.shared (some (w, f true)) ⟨a, k⟩)
  | .body w (.op o f) =>
    let r := onMemory x.es (swaptype x.a x.es) x.cmp o s.shared.mem
    some ({ s.shared with mem := r.2 }, .body w (f r.1))
  | .body w (.ret _) => some ({ s.shared with returned := w :: s.shared.returned }, .dtor w)
  | .body _ .stuck => none
  | .spawn caller stage => some (hinaSpawn s.shared (tid t) caller stage)
  | .dtor w => (s.shared.args w).map fun _ =>
    ({ s.shared with
      args := Function.update s.shared.args w none
      destroyed := w :: s.shared.destroyed }, .fetchSub w)
  | .fetchSub w =>
    some ({ s.shared with
      active := s.shared.active - 1
      decremented := w :: s.shared.decremented }, .idle .take)
  | .create i =>
    if i < n + 1 then some (s.shared, .create (i + 1))
    else some (qsortSpawn s.shared none ⟨x.a, x.n⟩)
  | .poll => some (s.shared, if s.shared.active = 0 then .storeDone else .poll)
  | .storeDone => some ({ s.shared with done := true }, .join 0)
  | .join i =>
    if h : i < n + 1 then
      match s.thread (some ⟨i, h⟩) with
      | .idle .left => some (s.shared, .join (i + 1))
      | _ => none
    else some (s.shared, .free)
  | .free => match s.shared.list with
    | [] => some (s.shared, .exited)
    | _ :: list => some ({ s.shared with list := list }, .free)
  | .exited => none

/-- After `hina_init`. -/
def start (n : ℕ) (m₀ : ℤ → B) : St n B :=
  ⟨⟨m₀, fun _ => [], fun _ => none, 0, [], 0, false, [], [], [], [], []⟩,
    fun t => if t = none then .create 0 else .unborn⟩

def system (n : ℕ) (D : Deque ℕ C) (x : Input B) (m₀ : ℤ → B) :
    System (St n B) (Who n × C) where
  init := (· = start n m₀)
  next s a := (next D x s a.1 a.2 (s.thread a.1)).map fun r =>
    ⟨r.1, Function.update s.thread a.1 r.2⟩

/-! ### Where a work is -/

/-- Allocated, and `active` not yet incremented for it. -/
def Pc.fresh : Pc → List ℕ
  | .spawn _ (.listAdd w) | .spawn _ (.fetchAdd w) => [w]
  | _ => []

def Pc.pushing : Pc → List ℕ
  | .spawn _ (.push w) => [w]
  | _ => []

/-- About to be executed. -/
def Pc.holds : Pc → List ℕ
  | .idle l => l.holds
  | _ => []

/-- The work whose `qsort_algo` is running, and what it has to do. -/
def Pc.task : Pc → Option (ℕ × SortProg Unit)
  | .body w t => some (w, t)
  | .spawn caller _ => caller
  | _ => none

def Pc.running (pc : Pc) : List ℕ := (pc.task.map Prod.fst).toList

def Pc.destroying : Pc → List ℕ
  | .dtor w => [w]
  | _ => []

/-- Through with its destructor, and `active` not yet decremented for it. -/
def Pc.finishing : Pc → List ℕ
  | .fetchSub w => [w]
  | _ => []

/-- Every work is in one place on its way from its allocation to the decrement. -/
structure Balance (g : Shared n B) (thread : Who n → Pc) : Prop where
  fresh : ∀ w, tally Pc.fresh thread w + g.incremented.count w = (List.range g.used).count w
  incremented : ∀ w, g.incremented.count w = tally Pc.pushing thread w +
    tally (fun q => q) g.queue w + tally Pc.holds thread w + g.called.count w
  called : ∀ w, g.called.count w = tally Pc.running thread w + g.returned.count w
  returned : ∀ w, g.returned.count w = tally Pc.destroying thread w + g.destroyed.count w
  destroyed : ∀ w, g.destroyed.count w = tally Pc.finishing thread w + g.decremented.count w
  active : g.active + g.decremented.length = g.incremented.length

/-- What a step takes from one place it puts in the next one. -/
structure Moves (g : Shared n B) (pc : Pc) (g' : Shared n B) (pc' : Pc) : Prop where
  fresh : ∀ w, pc'.fresh.count w + g'.incremented.count w + (List.range g.used).count w =
    pc.fresh.count w + g.incremented.count w + (List.range g'.used).count w
  incremented : ∀ w, g'.incremented.count w + pc.pushing.count w +
      tally (fun q => q) g.queue w + pc.holds.count w + g.called.count w =
    g.incremented.count w + pc'.pushing.count w +
      tally (fun q => q) g'.queue w + pc'.holds.count w + g'.called.count w
  called : ∀ w, g'.called.count w + pc.running.count w + g.returned.count w =
    g.called.count w + pc'.running.count w + g'.returned.count w
  returned : ∀ w, g'.returned.count w + pc.destroying.count w + g.destroyed.count w =
    g.returned.count w + pc'.destroying.count w + g'.destroyed.count w
  destroyed : ∀ w, g'.destroyed.count w + pc.finishing.count w + g.decremented.count w =
    g.destroyed.count w + pc'.finishing.count w + g'.decremented.count w
  active : g'.active + g'.decremented.length + g.incremented.length =
    g.active + g.decremented.length + g'.incremented.length

variable {s s' : St n B} {g g' : Shared n B} {th : Who n → Pc} {t u : Who n} {pc pc' : Pc}
  {w : ℕ} {D : Deque ℕ C} {x : Input B} {m₀ : ℤ → B} {c : C} {q : Qs}

theorem Balance.step (h : Balance g th) (hm : Moves g (th t) g' pc') :
    Balance g' (Function.update th t pc') := by
  refine ⟨fun w => ?_, fun w => ?_, fun w => ?_, fun w => ?_, fun w => ?_, ?_⟩
  · have htally := tally_update Pc.fresh th t pc' w
    have hsum := h.fresh w
    have hmove := hm.fresh w
    omega
  · have hpushing := tally_update Pc.pushing th t pc' w
    have hholds := tally_update Pc.holds th t pc' w
    have hsum := h.incremented w
    have hmove := hm.incremented w
    omega
  · have htally := tally_update Pc.running th t pc' w
    have hsum := h.called w
    have hmove := hm.called w
    omega
  · have htally := tally_update Pc.destroying th t pc' w
    have hsum := h.returned w
    have hmove := hm.returned w
    omega
  · have htally := tally_update Pc.finishing th t pc' w
    have hsum := h.destroyed w
    have hmove := hm.destroyed w
    omega
  · have hsum := h.active
    have hmove := hm.active
    omega

/-- A step that leaves the works where they are. -/
theorem moves_same (g : Shared n B) (m : ℤ → B) (list : List ℕ) (done : Bool)
    (hfresh : pc'.fresh = pc.fresh) (hpushing : pc'.pushing = pc.pushing)
    (hholds : pc'.holds = pc.holds) (hrunning : pc'.running = pc.running)
    (hdestroying : pc'.destroying = pc.destroying) (hfinishing : pc'.finishing = pc.finishing) :
    Moves g pc { g with mem := m, list := list, done := done } pc' := by
  constructor <;> simp_all

theorem qsortSpawn_moves (caller : Option (ℕ × SortProg Unit)) (hfresh : pc.fresh = [])
    (hpushing : pc.pushing = []) (hholds : pc.holds = [])
    (hrunning : pc.running = (caller.map Prod.fst).toList) (hdestroying : pc.destroying = [])
    (hfinishing : pc.finishing = []) :
    Moves g pc (qsortSpawn g caller q).1 (qsortSpawn g caller q).2 := by
  refine ⟨fun v => ?_, fun v => ?_, fun v => ?_, fun v => ?_, fun v => ?_, rfl⟩
  · -- the new work is the one numbered `g.used`
    rw [hfresh]
    simp only [qsortSpawn, Pc.fresh, List.range_succ, List.count_append, List.count_nil]
    omega
  · rw [hpushing, hholds]
    rfl
  · rw [hrunning]
    rfl
  · rw [hdestroying]
    rfl
  · rw [hfinishing]
    rfl

theorem hinaSpawn_moves (caller : Option (ℕ × SortProg Unit)) (stage : Spawn)
    (tid : Fin (n + 1)) : Moves g (.spawn caller stage) (hinaSpawn g tid caller stage).1
      (hinaSpawn g tid caller stage).2 := by
  cases stage with
  | listAdd w => exact moves_same g g.mem (g.list ++ [w]) g.done rfl rfl rfl rfl rfl rfl
  | fetchAdd w =>
    refine ⟨fun v => ?_, fun v => ?_, fun _ => rfl, fun _ => rfl, fun _ => rfl, ?_⟩
    · simp only [hinaSpawn, Pc.fresh, List.count_cons, List.count_nil]
      omega
    · simp only [hinaSpawn, Pc.pushing, Pc.holds, List.count_cons, List.count_nil]
      omega
    · simp only [hinaSpawn, List.length_cons]
      push_cast
      omega
  | push w =>
    have hqueue (v : ℕ) := tally_update (fun q => q) g.queue tid (g.queue tid ++ [w]) v
    simp only [List.count_append] at hqueue
    rcases caller with _ | ⟨v, rest⟩ <;>
    · refine ⟨fun _ => rfl, fun v => ?_, fun _ => rfl, fun _ => rfl, fun _ => rfl, rfl⟩
      have htally := hqueue v
      simp only [hinaSpawn, spawned, Pc.pushing, Pc.holds, List.count_nil]
      omega

/-! ### The control -/

/-- The program counters of the main thread. -/
def Pc.IsMain : Pc → Prop
  | .create _ | .spawn none _ | .poll | .storeDone | .join _ | .free | .exited => True
  | _ => False

/-- What a thread knows at each point. -/
def Pc.Local (t : Who n) : Pc → Prop
  | .idle l => t ≠ none ∧ l.Plain (tid t)
  | pc => pc.IsMain ↔ t = none

/-- The main thread has found `active` to be 0. -/
def Pc.Past : Pc → Prop
  | .storeDone | .join _ | .free | .exited => True
  | _ => False

/-- The main thread has not yet called `qsort_spawn`. -/
def Pc.Early : Pc → Prop
  | .create _ => True
  | _ => False

/-- A step in the loop of `thread`, up to the call of `do_work`. -/
theorem next_idle {l : Idle ℕ} (hl : ∀ w, l ≠ .found (.work w)) :
    next D x s t c (.idle l) = (idleStep D (tid t) s.shared.queue s.shared.done c l).map
      fun r => ({ s.shared with queue := r.1 }, .idle r.2) := by
  cases l with
  | found y =>
    cases y with
    | work w => exact absurd rfl (hl w)
    | empty | abort => rfl
  | take | steal i stolen | check | left => rfl

/-- A comparison or an exchange in `qsort_algo`. -/
theorem next_call {o : SortOp} {f : Answer o → SortProg Unit}
    (ho : ∀ a k, o ≠ .allocate a k) : next D x s t c (.body w (.op o f)) =
      let r := onMemory x.es (swaptype x.a x.es) x.cmp o s.shared.mem
      some ({ s.shared with mem := r.2 }, .body w (f r.1)) := by
  cases o with
  | allocate a k => exact absurd rfl (ho a k)
  | cmp | swap | swapfunc => rfl

/-- The steps of a thread that is not busy with any work. -/
inductive Control (active : ℤ) : Pc → Pc → Prop
  | wake : Control active .unborn (.idle .take)
  | create (i : ℕ) : Control active (.create i) (.create (i + 1))
  | poll : Control active .poll .poll
  | leave : active = 0 → Control active .poll .storeDone
  | store : Control active .storeDone (.join 0)
  | join (i : ℕ) : Control active (.join i) (.join (i + 1))
  | joined (i : ℕ) : Control active (.join i) .free
  | free : Control active .free .free
  | exit : Control active .free .exited

/-- What a step of a thread can do. -/
inductive Step (x : Input B) (g : Shared n B) (t : Who n) : Pc → Shared n B → Pc → Prop
  | control {pc pc' : Pc} (list : List ℕ) (done : Bool) : Control g.active pc pc' →
      Step x g t pc { g with list := list, done := done } pc'
  | look {l l' : Idle ℕ} (queue : Fin (n + 1) → List ℕ) : l.holds = [] → l'.Plain (tid t) →
      (∀ w, tally (fun q => q) queue w + l'.holds.count w = tally (fun q => q) g.queue w) →
      Step x g t (.idle l) { g with queue := queue } (.idle l')
  | begin (w : ℕ) (q : Qs) : g.args w = some q →
      Step x g t (.idle (.found (.work w))) { g with called := w :: g.called } (.body w (algo x q))
  | call (w : ℕ) (o : SortOp) (f : Answer o → SortProg Unit) : (∀ a k, o ≠ .allocate a k) →
      Step x g t (.body w (.op o f))
        { g with mem := (onMemory x.es (swaptype x.a x.es) x.cmp o g.mem).2 }
        (.body w (f (onMemory x.es (swaptype x.a x.es) x.cmp o g.mem).1))
  | handOut (w : ℕ) (a k : ℤ) (f : Bool → SortProg Unit) :
      Step x g t (.body w (.op (.allocate a k) f)) (qsortSpawn g (some (w, f true)) ⟨a, k⟩).1
        (qsortSpawn g (some (w, f true)) ⟨a, k⟩).2
  | first (i : ℕ) : Step x g t (.create i) (qsortSpawn g none ⟨x.a, x.n⟩).1
        (qsortSpawn g none ⟨x.a, x.n⟩).2
  | spawn (caller : Option (ℕ × SortProg Unit)) (stage : Spawn) :
      Step x g t (.spawn caller stage) (hinaSpawn g (tid t) caller stage).1
        (hinaSpawn g (tid t) caller stage).2
  | ret (w : ℕ) (u : Unit) :
      Step x g t (.body w (.ret u)) { g with returned := w :: g.returned } (.dtor w)
  | destroy (w : ℕ) (q : Qs) : g.args w = some q →
      Step x g t (.dtor w)
        { g with args := Function.update g.args w none, destroyed := w :: g.destroyed }
        (.fetchSub w)
  | finish (w : ℕ) : Step x g t (.fetchSub w)
      { g with active := g.active - 1, decremented := w :: g.decremented } (.idle .take)

theorem next_step (hlocal : (s.thread t).Local t)
    (h : next D x s t c (s.thread t) = some (g, pc)) : Step x s.shared t (s.thread t) g pc := by
  cases hpc : s.thread t <;> rw [hpc] at h hlocal
  case unborn =>
    simp only [next] at h
    split at h <;> cases h
    exact .control s.shared.list s.shared.done .wake
  case idle l =>
    by_cases hl : ∃ w, l = .found (.work w)
    · obtain ⟨w, rfl⟩ := hl
      obtain ⟨q, hq, heq⟩ := Option.map_eq_some_iff.mp h
      cases heq
      exact .begin w q hq
    · rw [next_idle fun w hw => hl ⟨w, hw⟩] at h
      obtain ⟨r, hr, heq⟩ := Option.map_eq_some_iff.mp h
      cases heq
      obtain ⟨hnone, hplain, -, hhands⟩ := idleStep_cases hlocal.2 hr
      exact .look r.1 hnone hplain hhands
  case body w t =>
    cases t with
    | ret u =>
      cases h
      exact .ret w u
    | stuck => cases h
    | op o f =>
      by_cases ho : ∃ a k, o = .allocate a k
      · obtain ⟨a, k, rfl⟩ := ho
        cases h
        exact .handOut w a k f
      · have hcall : ∀ a k, o ≠ .allocate a k := fun a k hak => ho ⟨a, k, hak⟩
        rw [next_call hcall] at h
        cases h
        exact .call w o f hcall
  case spawn caller stage =>
    have hspawn : hinaSpawn s.shared (tid t) caller stage = (g, pc) := Option.some.inj h
    have hstep : Step x s.shared t (.spawn caller stage) _ _ := .spawn caller stage
    rwa [hspawn] at hstep
  case dtor w =>
    obtain ⟨q, hq, heq⟩ := Option.map_eq_some_iff.mp h
    cases heq
    exact .destroy w q hq
  case fetchSub w =>
    cases h
    exact .finish w
  case create i =>
    simp only [next] at h
    split at h <;> cases h
    · exact .control s.shared.list s.shared.done (.create i)
    · exact .first i
  case poll =>
    cases h
    split
    · rename_i hactive
      exact .control s.shared.list s.shared.done (.leave hactive)
    · exact .control s.shared.list s.shared.done .poll
  case storeDone =>
    cases h
    exact .control s.shared.list true .store
  case join i =>
    simp only [next] at h
    split at h
    · split at h <;> cases h
      exact .control s.shared.list s.shared.done (.join i)
    · cases h
      exact .control s.shared.list s.shared.done (.joined i)
  case free =>
    simp only [next] at h
    split at h
    · cases h
      exact .control s.shared.list s.shared.done .exit
    · rename_i list _
      cases h
      exact .control list s.shared.done .free
  case exited => cases h

theorem Step.moves (h : Step x g t pc g' pc') : Moves g pc g' pc' := by
  cases h with
  | control list done hc => cases hc <;> exact moves_same g g.mem list done rfl rfl rfl rfl rfl rfl
  | look queue hnone hplain hhands =>
    refine ⟨fun _ => rfl, fun v => ?_, fun _ => rfl, fun _ => rfl, fun _ => rfl, rfl⟩
    have hhand := hhands v
    simp only [Pc.holds, Pc.pushing, hnone, List.count_nil]
    omega
  | begin w q =>
    refine ⟨fun _ => rfl, fun v => ?_, fun v => ?_, fun _ => rfl, fun _ => rfl, rfl⟩
    · simp only [Pc.holds, Idle.holds, Pc.pushing, List.count_cons, List.count_nil]
      omega
    · simp only [Pc.running, Pc.task, Option.map_some, Option.map_none, Option.toList,
        List.count_cons, List.count_nil]
      omega
  | call w o f => exact moves_same g _ g.list g.done rfl rfl rfl rfl rfl rfl
  | handOut w a k f => exact qsortSpawn_moves _ rfl rfl rfl rfl rfl rfl
  | first i => exact qsortSpawn_moves _ rfl rfl rfl rfl rfl rfl
  | spawn caller stage => exact hinaSpawn_moves caller stage (tid t)
  | ret w u =>
    refine ⟨fun _ => rfl, fun _ => rfl, fun v => ?_, fun v => ?_, fun _ => rfl, rfl⟩
    · simp only [Pc.running, Pc.task, Option.map_some, Option.map_none, Option.toList,
        List.count_cons, List.count_nil]
      omega
    · simp only [Pc.destroying, List.count_cons, List.count_nil]
      omega
  | destroy w q =>
    refine ⟨fun _ => rfl, fun _ => rfl, fun _ => rfl, fun v => ?_, fun v => ?_, rfl⟩
    · simp only [Pc.destroying, List.count_cons, List.count_nil]
      omega
    · simp only [Pc.finishing, List.count_cons, List.count_nil]
      omega
  | finish w =>
    refine ⟨fun _ => rfl, fun _ => rfl, fun _ => rfl, fun _ => rfl, fun v => ?_, ?_⟩
    · simp only [Pc.finishing, List.count_cons, List.count_nil]
      omega
    · simp only [List.length_cons]
      push_cast
      omega

theorem Step.keeps_local (h : Step x g t pc g' pc') (hl : pc.Local t) : pc'.Local t := by
  cases h with
  | control list done hc =>
    cases hc with
    | wake => exact ⟨fun ht => hl.mpr ht, trivial⟩
    | _ => exact hl
  | look queue hnone hplain => exact ⟨hl.1, hplain⟩
  | begin => exact iff_of_false id hl.1
  | spawn caller stage => cases stage <;> rcases caller with _ | ⟨w, rest⟩ <;> exact hl
  | finish => exact ⟨fun ht => hl.mpr ht, trivial⟩
  | _ => exact hl

/-- Only in `qsort_algo`, and by `main`, works are allocated and the memory is changed. -/
theorem Step.same (h : Step x g t pc g' pc') (htask : pc.task = none) (hearly : ¬ pc.Early) :
    g'.used = g.used ∧ g'.mem = g.mem ∧ ∀ w ∈ g.decremented, w ∈ g'.decremented := by
  cases h with
  | call | handOut => cases htask
  | first => exact absurd trivial hearly
  | spawn caller stage => cases stage <;> exact ⟨rfl, rfl, fun _ => id⟩
  | finish w => exact ⟨rfl, rfl, fun _ => List.mem_cons_of_mem w⟩
  | _ => exact ⟨rfl, rfl, fun _ => id⟩

theorem Step.early (h : Step x g t pc g' pc') (hearly : pc'.Early) : pc.Early := by
  cases h with
  | control list done hc =>
    cases hc with
    | create i => trivial
    | _ => exact hearly
  | spawn caller stage => cases stage <;> rcases caller with _ | ⟨w, rest⟩ <;> exact hearly.elim
  | _ => exact hearly.elim

theorem Step.past (h : Step x g t pc g' pc') (hpast : pc'.Past) :
    pc.Past ∨ pc = .poll ∧ g.active = 0 := by
  cases h with
  | control list done hc =>
    cases hc with
    | leave hactive => exact .inr ⟨rfl, hactive⟩
    | wake | create | poll => exact hpast.elim
    | _ => exact .inl trivial
  | spawn caller stage => cases stage <;> rcases caller with _ | ⟨w, rest⟩ <;> exact hpast.elim
  | _ => exact hpast.elim

/-! ### The places of a work -/

/-- Every work has been finished. -/
def Shared.Quiet (g : Shared n B) : Prop := ∀ w < g.used, w ∈ g.decremented

theorem count_used (g : Shared n B) (w : ℕ) :
    (List.range g.used).count w = if w < g.used then 1 else 0 := by
  split
  · rename_i hw
    exact List.count_eq_one_of_mem List.nodup_range (List.mem_range.mpr hw)
  · rename_i hw
    exact List.count_eq_zero.mpr fun hmem => hw (List.mem_range.mp hmem)

/-- A work that a thread is about to execute. -/
theorem Balance.of_holds (h : Balance g th) (hw : w ∈ (th t).holds) :
    w < g.used ∧ w ∉ g.called ∧ w ∉ g.returned := by
  have hpos : 0 < tally Pc.holds th w := tally_pos hw
  have hfresh := h.fresh w
  have hincremented := h.incremented w
  have hcalled := h.called w
  rw [count_used] at hfresh
  split at hfresh
  · exact ⟨‹_›, List.count_eq_zero.mp (by omega), List.count_eq_zero.mp (by omega)⟩
  · omega

/-- A work whose `qsort_algo` is running, in one thread only. -/
theorem Balance.of_running (h : Balance g th) (hw : w ∈ (th t).running) :
    w < g.used ∧ w ∈ g.called ∧ w ∉ g.returned ∧ ∀ u, w ∈ (th u).running → u = t := by
  have hpos : 0 < tally Pc.running th w := tally_pos hw
  have hfresh := h.fresh w
  have hincremented := h.incremented w
  have hcalled := h.called w
  rw [count_used] at hfresh
  split at hfresh
  · refine ⟨‹_›, List.count_pos_iff.mp (by omega), List.count_eq_zero.mp (by omega), fun u hu => ?_⟩
    exact eq_of_tally_le_one (f := Pc.running) (by omega) hu hw
  · omega

/-- A work whose `qsort_algo` has returned. -/
theorem Balance.of_returned (h : Balance g th) (hw : w ∈ g.returned) :
    w < g.used ∧ w ∈ g.called := by
  have hpos := List.count_pos_iff.mpr hw
  have hfresh := h.fresh w
  have hincremented := h.incremented w
  have hcalled := h.called w
  rw [count_used] at hfresh
  split at hfresh
  · exact ⟨‹_›, List.count_pos_iff.mp (by omega)⟩
  · omega

/-- A work that is about to be destroyed. -/
theorem Balance.of_destroying (h : Balance g th) (hw : w ∈ (th t).destroying) :
    w ∈ g.returned ∧ w ∉ g.destroyed := by
  have hpos : 0 < tally Pc.destroying th w := tally_pos hw
  have hfresh := h.fresh w
  have hincremented := h.incremented w
  have hcalled := h.called w
  have hreturned := h.returned w
  rw [count_used] at hfresh
  refine ⟨List.count_pos_iff.mp (by omega), List.count_eq_zero.mp ?_⟩
  split at hfresh <;> omega

theorem Balance.returned_of_destroyed (h : Balance g th) (hw : w ∈ g.destroyed) :
    w ∈ g.returned := by
  have hpos := List.count_pos_iff.mpr hw
  have hreturned := h.returned w
  exact List.count_pos_iff.mp (by omega)

theorem Balance.returned_of_decremented (h : Balance g th) (hw : w ∈ g.decremented) :
    w ∈ g.returned := by
  have hpos := List.count_pos_iff.mpr hw
  have hdestroyed := h.destroyed w
  exact h.returned_of_destroyed (List.count_pos_iff.mp (by omega))

/-- When every work has been finished, no thread is in `qsort_algo`. -/
theorem Balance.no_task (h : Balance g th) (hq : g.Quiet) (t : Who n) : (th t).task = none := by
  by_contra hne
  obtain ⟨⟨w, p⟩, hp⟩ := Option.ne_none_iff_exists'.mp hne
  have hw : w ∈ (th t).running := by
    rw [Pc.running, hp]
    exact List.mem_singleton_self w
  obtain ⟨hused, -, hret, -⟩ := h.of_running hw
  exact hret (h.returned_of_decremented (hq w hused))

/-- When `active` is 0 and the main thread is not in `hina_spawn`, every work has been finished:
who has allocated a work and not yet counted it is in the `qsort_algo` of another one. -/
theorem Balance.quiet (h : Balance g th) (hactive : g.active = 0)
    (hcaller : ∀ t stage, th t ≠ .spawn none stage) : g.Quiet := by
  have hle (w : ℕ) : g.decremented.count w ≤ g.incremented.count w := by
    have hincremented := h.incremented w
    have hcalled := h.called w
    have hreturned := h.returned w
    have hdestroyed := h.destroyed w
    omega
  -- as many decrements as increments, and none of them without an increment
  have hperm : g.decremented.Perm g.incremented := by
    have hsub : g.decremented.Subperm g.incremented := List.subperm_iff_count.mpr hle
    have hlength := h.active
    exact hsub.perm_of_length_le (by omega)
  have hcount (w : ℕ) : g.decremented.count w = g.incremented.count w := hperm.count_eq w
  intro w hw
  have hnone : tally Pc.fresh th w = 0 := by
    by_contra hne
    obtain ⟨t, ht⟩ := exists_of_tally_pos (Nat.pos_of_ne_zero hne)
    cases hpc : th t <;> rw [hpc] at ht <;> try cases ht
    case spawn caller stage =>
      rcases caller with _ | ⟨v, p⟩
      · exact hcaller t stage hpc
      · have hv : v ∈ (th t).running := by
          rw [hpc]
          exact List.mem_singleton_self v
        have hpos : 0 < tally Pc.running th v := tally_pos hv
        have hincremented := h.incremented v
        have hcalled := h.called v
        have hreturned := h.returned v
        have hdestroyed := h.destroyed v
        have heq := hcount v
        omega
  have hfresh := h.fresh w
  have heq := hcount w
  rw [count_used, if_pos hw] at hfresh
  exact List.count_pos_iff.mp (by omega)

end LinuxSummer.HinaSort
