import LinuxSummer.Machine
import LinuxSummer.WorkLoop
import Mathlib.Data.Fintype.Option
import Mathlib.Data.List.Perm.Subperm

/-! The work pool of hw3/work-steal-qsort/src/hina.c: `hina_init`, `hina_run`, one `hina_spawn` by
the main thread and `hina_exit`, with workers that run tasks which call `hina_spawn` themselves.
The deques are any that hand out each work once. A critical section of `list_lock` is one step. -/
set_option linter.unusedSectionVars false

namespace LinuxSummer.Session
open WorkLoop

/-- A task, as the tasks it passes to `hina_spawn`, in order. -/
inductive Task where
  | mk (spawns : List Task)

def Task.spawns : Task → List Task
  | .mk spawns => spawns

/-- Where a call of `hina_spawn` is. The works are numbered in the order of their `malloc`. -/
inductive Spawn where
  | malloc (task : Task)
  | listAdd (w : ℕ)
  | fetchAdd (w : ℕ)
  | push (w : ℕ)

/-- The next access of a thread. -/
inductive Pc where
  /-- A worker before `pthread_create`. -/
  | unborn
  /-- In the loop of `thread`. -/
  | idle (l : Idle ℕ)
  /-- In the task of `w`, which has the calls `rest` to make. -/
  | body (w : ℕ) (rest : List Task)
  /-- In `hina_spawn`, called by the main thread or by the task of a work. -/
  | spawn (caller : Option (ℕ × List Task)) (stage : Spawn)
  | dtor (w : ℕ)
  | fetchSub (w : ℕ)
  /-- The main thread, in `hina_run`. -/
  | create (i : ℕ)
  /-- The main thread, in `hina_exit` from here on. -/
  | poll
  | storeDone
  | join (i : ℕ)
  | free
  | exited

/-- The last five fields only record what happened. -/
structure Shared (n : ℕ) where
  queue : Fin (n + 1) → List ℕ
  /-- `code` and `args` of the works, of which there are `used`. -/
  task : ℕ → Task
  used : ℕ
  list : List ℕ
  active : ℤ
  done : Bool
  freed : List ℕ
  incremented : List ℕ
  called : List ℕ
  returned : List ℕ
  destroyed : List ℕ
  decremented : List ℕ

variable {n : ℕ} {C : Type*}

/-- `nr_threads` is `n + 1`. The main thread is `none`. -/
abbrev Who (n : ℕ) := Option (Fin (n + 1))

abbrev St (n : ℕ) := Config (Who n) (Shared n) Pc

/-- `tid`, which is 0 in the main thread too. -/
def tid (t : Who n) : Fin (n + 1) := t.getD 0

/-- The thread has been passed to `pthread_create`. -/
def created (s : St n) : Who n → Bool
  | none => true
  | some i => match s.thread none with
    | .create j => decide (i < j)
    | _ => true

/-- `hina_spawn` returns to its caller. -/
def spawned : Option (ℕ × List Task) → Pc
  | none => .poll
  | some (w, rest) => .body w rest

/-- The next access in `hina_spawn`. -/
def hinaSpawn (g : Shared n) (tid : Fin (n + 1)) (caller : Option (ℕ × List Task)) :
    Spawn → Shared n × Pc
  | .malloc task =>
    ({ g with task := Function.update g.task g.used task, used := g.used + 1 },
      .spawn caller (.listAdd g.used))
  | .listAdd w => ({ g with list := g.list ++ [w] }, .spawn caller (.fetchAdd w))
  | .fetchAdd w =>
    ({ g with active := g.active + 1, incremented := w :: g.incremented }, .spawn caller (.push w))
  | .push w =>
    ({ g with queue := Function.update g.queue tid (g.queue tid ++ [w]) }, spawned caller)

/-- The next access of a thread. -/
def next (D : Deque ℕ C) (root : Task) (s : St n) (t : Who n) (c : C) : Pc → Option (Shared n × Pc)
  | .unborn => if created s t then some (s.shared, .idle .take) else none
  | .idle (.found (.work w)) =>
    some ({ s.shared with called := w :: s.shared.called }, .body w (s.shared.task w).spawns)
  | .idle l => (idleStep D (tid t) s.shared.queue s.shared.done c l).map fun r =>
    ({ s.shared with queue := r.1 }, .idle r.2)
  | .body w (task :: rest) => some (s.shared, .spawn (some (w, rest)) (.malloc task))
  | .body w [] => some ({ s.shared with returned := w :: s.shared.returned }, .dtor w)
  | .spawn caller stage => some (hinaSpawn s.shared (tid t) caller stage)
  | .dtor w => some ({ s.shared with destroyed := w :: s.shared.destroyed }, .fetchSub w)
  | .fetchSub w =>
    some ({ s.shared with
      active := s.shared.active - 1
      decremented := w :: s.shared.decremented }, .idle .take)
  | .create i => some (s.shared, if i < n + 1 then .create (i + 1) else .spawn none (.malloc root))
  | .poll => some (s.shared, if s.shared.active = 0 then .storeDone else .poll)
  | .storeDone => some ({ s.shared with done := true }, .join 0)
  | .join i =>
    if h : i < n + 1 then
      match s.thread (some ⟨i, h⟩) with
      | .idle .left => some (s.shared, .join (i + 1))
      | _ => none
    else some (s.shared, .free)
  | .free => match s.shared.list with
    | [] => some (s.shared, .exited)
    | w :: list => some ({ s.shared with list := list, freed := w :: s.shared.freed }, .free)
  | .exited => none

/-- After `hina_init`. -/
def start (n : ℕ) : St n :=
  ⟨⟨fun _ => [], fun _ => .mk [], 0, [], 0, false, [], [], [], [], [], []⟩,
    fun t => if t = none then .create 0 else .unborn⟩

def system (n : ℕ) (D : Deque ℕ C) (root : Task) : System (St n) (Who n × C) where
  init := (· = start n)
  next s a := (next D root s a.1 a.2 (s.thread a.1)).map fun r =>
    ⟨r.1, Function.update s.thread a.1 r.2⟩

/-! ### Where a work is -/

/-- Allocated, and `active` not yet incremented for it. -/
def Pc.fresh : Pc → List ℕ
  | .spawn _ (.listAdd w) | .spawn _ (.fetchAdd w) => [w]
  | _ => []

def Pc.unlisted : Pc → List ℕ
  | .spawn _ (.listAdd w) => [w]
  | _ => []

def Pc.pushing : Pc → List ℕ
  | .spawn _ (.push w) => [w]
  | _ => []

/-- About to be executed. -/
def Pc.holds : Pc → List ℕ
  | .idle l => l.holds
  | _ => []

/-- In its task. -/
def Pc.running : Pc → List ℕ
  | .body w _ | .spawn (some (w, _)) _ => [w]
  | _ => []

def Pc.destroying : Pc → List ℕ
  | .dtor w => [w]
  | _ => []

/-- Through with its destructor, and `active` not yet decremented for it. -/
def Pc.finishing : Pc → List ℕ
  | .fetchSub w => [w]
  | _ => []

/-- The works that the next step reads, writes or frees. -/
def Pc.uses (list : List ℕ) : Pc → List ℕ
  | .idle (.found (.work w)) => [w]
  | .spawn _ (.listAdd w) => w :: list.getLast?.toList  -- the node before it is written, too
  | .free => list.take 2
  | _ => []

/-- The program counters of the main thread. -/
def Pc.IsMain : Pc → Prop
  | .create _ | .spawn none _ | .poll | .storeDone | .join _ | .free | .exited => True
  | _ => False

/-- What a thread knows at each point. -/
def Pc.Local (t : Who n) (done : Bool) : Pc → Prop
  | .idle l => t ≠ none ∧ l.Plain (tid t) ∧ (l = .left → done = true)
  | pc => pc.IsMain ↔ t = none

/-- Every work has been finished. -/
def Shared.Quiet (g : Shared n) : Prop := ∀ w < g.used, w ∈ g.decremented

/-- What holds from `hina_exit` on, by how far the main thread is. -/
def Phase (s : St n) : Pc → Prop
  | .storeDone => s.shared.Quiet ∧ s.shared.done = false ∧ s.shared.freed = []
  | .join i => s.shared.Quiet ∧ s.shared.freed = [] ∧
    ∀ k : Fin (n + 1), k < i → s.thread (some k) = .idle .left
  | .free => s.shared.Quiet ∧ ∀ k, s.thread (some k) = .idle .left
  | .exited => s.shared.Quiet ∧ s.shared.list = [] ∧ ∀ k, s.thread (some k) = .idle .left
  | _ => s.shared.done = false ∧ s.shared.freed = []

/-- Every work is in one place on its way from its allocation to the decrement, and on the list
until it is freed. -/
structure Balance (g : Shared n) (thread : Who n → Pc) : Prop where
  fresh : ∀ w, tally Pc.fresh thread w + g.incremented.count w = (List.range g.used).count w
  incremented : ∀ w, g.incremented.count w = tally Pc.pushing thread w +
    tally (fun q => q) g.queue w + tally Pc.holds thread w + g.called.count w
  called : ∀ w, g.called.count w = tally Pc.running thread w + g.returned.count w
  returned : ∀ w, g.returned.count w = tally Pc.destroying thread w + g.destroyed.count w
  destroyed : ∀ w, g.destroyed.count w = tally Pc.finishing thread w + g.decremented.count w
  listed : ∀ w, tally Pc.unlisted thread w + g.list.count w + g.freed.count w =
    (List.range g.used).count w
  active : g.active + g.decremented.length = g.incremented.length

structure Inv (s : St n) : Prop where
  balance : Balance s.shared s.thread
  thread : ∀ t, (s.thread t).Local t s.shared.done
  phase : Phase s (s.thread none)

/-! ### The balance -/

variable {s s' : St n} {g g' : Shared n} {th : Who n → Pc} {t : Who n} {pc pc' : Pc} {w : ℕ}
  {D : Deque ℕ C} {root : Task} {c : C}

/-- What a step takes from one place it puts in the next one. -/
structure Moves (g : Shared n) (pc : Pc) (g' : Shared n) (pc' : Pc) : Prop where
  fresh : ∀ w, pc'.fresh.count w + g'.incremented.count w + (List.range g.used).count w =
    pc.fresh.count w + g.incremented.count w + (List.range g'.used).count w
  incremented : ∀ w, g'.incremented.count w + pc.pushing.count w +
      tally (fun q => q) g.queue w + pc.holds.count w + g.called.count w =
    g.incremented.count w + pc'.pushing.count w +
      tally (fun q => q) g'.queue w + pc'.holds.count w + g'.called.count w
  called : ∀ w, g'.called.count w + pc.running.count w + g.returned.count w =
    g.called.count w + pc'.running.count w + g'.returned.count w
  returned : ∀ w, g'.returned.count w + pc.destroying.count w + g.destroyed.count w =
    g.returned.count w + pc'.destroying.count w + g'.destroyed.count w
  destroyed : ∀ w, g'.destroyed.count w + pc.finishing.count w + g.decremented.count w =
    g.destroyed.count w + pc'.finishing.count w + g'.decremented.count w
  listed : ∀ w, pc'.unlisted.count w + g'.list.count w + g'.freed.count w +
      (List.range g.used).count w =
    pc.unlisted.count w + g.list.count w + g.freed.count w + (List.range g'.used).count w
  active : g'.active + g'.decremented.length + g.incremented.length =
    g.active + g.decremented.length + g'.incremented.length

theorem balance_step (h : Balance g th) (hm : Moves g (th t) g' pc') :
    Balance g' (Function.update th t pc') := by
  refine ⟨fun w => ?_, fun w => ?_, fun w => ?_, fun w => ?_, fun w => ?_, fun w => ?_, ?_⟩
  · have htally := tally_update Pc.fresh th t pc' w
    have hsum := h.fresh w
    have hmove := hm.fresh w
    omega
  · have hpushing := tally_update Pc.pushing th t pc' w
    have hholds := tally_update Pc.holds th t pc' w
    have hsum := h.incremented w
    have hmove := hm.incremented w
    omega
  · have htally := tally_update Pc.running th t pc' w
    have hsum := h.called w
    have hmove := hm.called w
    omega
  · have htally := tally_update Pc.destroying th t pc' w
    have hsum := h.returned w
    have hmove := hm.returned w
    omega
  · have htally := tally_update Pc.finishing th t pc' w
    have hsum := h.destroyed w
    have hmove := hm.destroyed w
    omega
  · have htally := tally_update Pc.unlisted th t pc' w
    have hsum := h.listed w
    have hmove := hm.listed w
    omega
  · have hsum := h.active
    have hmove := hm.active
    omega

/-- A step that leaves the works where they are. -/
theorem moves_refl (g : Shared n) (done : Bool) (hfresh : pc'.fresh = pc.fresh)
    (hpushing : pc'.pushing = pc.pushing) (hholds : pc'.holds = pc.holds)
    (hrunning : pc'.running = pc.running) (hdestroying : pc'.destroying = pc.destroying)
    (hfinishing : pc'.finishing = pc.finishing) (hunlisted : pc'.unlisted = pc.unlisted) :
    Moves g pc { g with done := done } pc' := by
  constructor <;> simp_all

theorem hinaSpawn_moves (caller : Option (ℕ × List Task)) (stage : Spawn) (tid : Fin (n + 1)) :
    Moves g (.spawn caller stage) (hinaSpawn g tid caller stage).1
      (hinaSpawn g tid caller stage).2 := by
  have hrunning {stage' : Spawn} :
      (Pc.spawn caller stage').running = (Pc.spawn caller stage).running := by
    cases caller <;> rfl
  cases stage with
  | malloc task =>
    refine ⟨fun x => ?_, fun _ => rfl, fun x => ?_, fun _ => rfl, fun _ => rfl, fun x => ?_, rfl⟩
    · -- the new work is the one numbered `g.used`
      simp only [hinaSpawn, Pc.fresh, List.range_succ, List.count_append, List.count_nil]
      omega
    · simp only [hinaSpawn, hrunning]
    · simp only [hinaSpawn, Pc.unlisted, List.range_succ, List.count_append, List.count_nil]
      omega
  | listAdd w =>
    refine ⟨fun _ => rfl, fun _ => rfl, fun x => ?_, fun _ => rfl, fun _ => rfl, fun x => ?_, rfl⟩
    · simp only [hinaSpawn, hrunning]
    · simp only [hinaSpawn, Pc.unlisted, List.count_append, List.count_nil]
      omega
  | fetchAdd w =>
    refine ⟨fun x => ?_, fun x => ?_, fun x => ?_, fun _ => rfl, fun _ => rfl, fun _ => rfl, ?_⟩
    · simp only [hinaSpawn, Pc.fresh, List.count_cons, List.count_nil]
      omega
    · simp only [hinaSpawn, Pc.pushing, Pc.holds, List.count_cons, List.count_nil]
      omega
    · simp only [hinaSpawn, hrunning]
    · simp only [hinaSpawn, List.length_cons]
      push_cast
      omega
  | push w =>
    have hqueue (x : ℕ) := tally_update (fun q => q) g.queue tid (g.queue tid ++ [w]) x
    simp only [List.count_append] at hqueue
    rcases caller with _ | ⟨v, rest⟩ <;>
    · refine ⟨fun _ => rfl, fun x => ?_, fun _ => rfl, fun _ => rfl, fun _ => rfl, fun _ => rfl, rfl⟩
      have htally := hqueue x
      simp only [hinaSpawn, spawned, Pc.pushing, Pc.holds, List.count_nil]
      omega

theorem next_idle {l : Idle ℕ} (hl : ∀ w, l ≠ .found (.work w)) :
    next D root s t c (.idle l) = (idleStep D (tid t) s.shared.queue s.shared.done c l).map
      fun r => ({ s.shared with queue := r.1 }, .idle r.2) := by
  cases l with
  | found x =>
    cases x with
    | work w => exact absurd rfl (hl w)
    | empty | abort => rfl
  | take | steal i stolen | check | left => rfl

theorem idle_moves {l l' : Idle ℕ} {queue : Fin (n + 1) → List ℕ} (hnone : l.holds = [])
    (hhands : ∀ w, tally (fun q => q) queue w + l'.holds.count w =
      tally (fun q => q) g.queue w) :
    Moves g (.idle l) { g with queue := queue } (.idle l') := by
  refine ⟨fun _ => rfl, fun x => ?_, fun _ => rfl, fun _ => rfl, fun _ => rfl, fun _ => rfl, rfl⟩
  have hhand := hhands x
  simp only [Pc.holds, Pc.pushing, hnone, List.count_nil]
  omega

theorem next_moves (hlocal : (s.thread t).Local t s.shared.done)
    (h : next D root s t c (s.thread t) = some (g, pc)) : Moves s.shared (s.thread t) g pc := by
  cases hpc : s.thread t <;> rw [hpc] at h hlocal
  case idle l =>
    by_cases hl : ∃ w, l = .found (.work w)
    · obtain ⟨w, rfl⟩ := hl
      cases h
      refine ⟨fun _ => rfl, fun x => ?_, fun x => ?_, fun _ => rfl, fun _ => rfl, fun _ => rfl, rfl⟩
      · simp only [Pc.holds, Idle.holds, Pc.pushing, List.count_cons, List.count_nil]
        omega
      · simp only [Pc.running, List.count_cons, List.count_nil]
        omega
    · rw [next_idle fun w hw => hl ⟨w, hw⟩] at h
      obtain ⟨r, hr, heq⟩ := Option.map_eq_some_iff.mp h
      cases heq
      obtain ⟨hnone, -, -, hhands⟩ := idleStep_cases hlocal.2.1 hr
      exact idle_moves hnone hhands
  case body w rest =>
    cases rest with
    | nil =>
      cases h
      refine ⟨fun _ => rfl, fun _ => rfl, fun x => ?_, fun x => ?_, fun _ => rfl, fun _ => rfl, rfl⟩
      · simp only [Pc.running, List.count_cons, List.count_nil]
        omega
      · simp only [Pc.destroying, List.count_cons, List.count_nil]
        omega
    | cons task rest =>
      cases h
      exact moves_refl s.shared s.shared.done rfl rfl rfl rfl rfl rfl rfl
  case spawn caller stage =>
    have hspawn : hinaSpawn s.shared (tid t) caller stage = (g, pc) := Option.some.inj h
    have hmoves := hinaSpawn_moves (g := s.shared) caller stage (tid t)
    rwa [hspawn] at hmoves
  case dtor w =>
    cases h
    refine ⟨fun _ => rfl, fun _ => rfl, fun _ => rfl, fun x => ?_, fun x => ?_, fun _ => rfl, rfl⟩
    · simp only [Pc.destroying, List.count_cons, List.count_nil]
      omega
    · simp only [Pc.finishing, List.count_cons, List.count_nil]
      omega
  case fetchSub w =>
    cases h
    refine ⟨fun _ => rfl, fun _ => rfl, fun _ => rfl, fun _ => rfl, fun x => ?_, fun _ => rfl, ?_⟩
    · simp only [Pc.finishing, List.count_cons, List.count_nil]
      omega
    · simp only [List.length_cons]
      push_cast
      omega
  case unborn =>
    simp only [next] at h
    split at h
    · cases h
      exact moves_refl s.shared s.shared.done rfl rfl rfl rfl rfl rfl rfl
    · cases h
  case create i =>
    cases h
    split <;> exact moves_refl s.shared s.shared.done rfl rfl rfl rfl rfl rfl rfl
  case poll =>
    cases h
    split <;> exact moves_refl s.shared s.shared.done rfl rfl rfl rfl rfl rfl rfl
  case storeDone =>
    cases h
    exact moves_refl s.shared true rfl rfl rfl rfl rfl rfl rfl
  case join i =>
    simp only [next] at h
    split at h
    · split at h <;> cases h
      exact moves_refl s.shared s.shared.done rfl rfl rfl rfl rfl rfl rfl
    · cases h
      exact moves_refl s.shared s.shared.done rfl rfl rfl rfl rfl rfl rfl
  case free =>
    simp only [next] at h
    split at h
    · cases h
      exact moves_refl s.shared s.shared.done rfl rfl rfl rfl rfl rfl rfl
    · rename_i w list hlist
      cases h
      refine ⟨fun _ => rfl, fun _ => rfl, fun _ => rfl, fun _ => rfl, fun _ => rfl, fun x => ?_, rfl⟩
      simp only [Pc.unlisted, hlist, List.count_cons, List.count_nil]
      omega
  case exited => cases h

theorem count_range_le (k w : ℕ) : (List.range k).count w ≤ 1 :=
  List.nodup_iff_count_le_one.mp List.nodup_range w

theorem incremented_le (h : Balance g th) (w : ℕ) : g.incremented.count w ≤ 1 := by
  have hfresh := h.fresh w
  have hrange := count_range_le g.used w
  omega

theorem decremented_le (h : Balance g th) (w : ℕ) :
    g.decremented.count w ≤ g.incremented.count w := by
  have hincremented := h.incremented w
  have hcalled := h.called w
  have hreturned := h.returned w
  have hdestroyed := h.destroyed w
  omega

/-- When every work has been finished, no thread is busy with one. -/
theorem quiet_zero (h : Balance g th) (hq : g.Quiet) (w : ℕ) :
    tally Pc.fresh th w = 0 ∧ tally Pc.pushing th w = 0 ∧ tally Pc.holds th w = 0 ∧
      tally Pc.running th w = 0 ∧ tally Pc.destroying th w = 0 ∧ tally Pc.finishing th w = 0 := by
  have hfresh := h.fresh w
  have hincremented := h.incremented w
  have hcalled := h.called w
  have hreturned := h.returned w
  have hdestroyed := h.destroyed w
  have hle := count_range_le g.used w
  by_cases hw : w < g.used
  · have hpos := List.count_pos_iff.mpr (hq w hw)
    omega
  · have hzero : (List.range g.used).count w = 0 :=
      List.count_eq_zero.mpr fun hmem => hw (List.mem_range.mp hmem)
    omega

/-- When `active` is 0 and the main thread is not in `hina_spawn`, every work has been finished:
who has allocated a work and not yet counted it is in the task of another one. -/
theorem quiet_of_active (h : Balance g th) (hactive : g.active = 0)
    (hcaller : ∀ t stage, th t ≠ .spawn none stage) : g.Quiet := by
  -- as many decrements as increments, and none of them without an increment
  have hperm : g.decremented.Perm g.incremented := by
    have hsub : g.decremented.Subperm g.incremented :=
      List.subperm_iff_count.mpr (decremented_le h)
    have hlength := h.active
    exact hsub.perm_of_length_le (by omega)
  intro w hw
  have hcount (x : ℕ) : g.decremented.count x = g.incremented.count x := hperm.count_eq x
  have hrunning (x : ℕ) : tally Pc.running th x = 0 := by
    have hincremented := h.incremented x
    have hcalled := h.called x
    have hreturned := h.returned x
    have hdestroyed := h.destroyed x
    have heq := hcount x
    omega
  have hnone : tally Pc.fresh th w = 0 := by
    by_contra hne
    obtain ⟨t, ht⟩ := exists_of_tally_pos (Nat.pos_of_ne_zero hne)
    cases hpc : th t <;> rw [hpc] at ht <;> try cases ht
    case spawn caller stage =>
      rcases caller with _ | ⟨v, rest⟩
      · exact hcaller t stage hpc
      · have hv : v ∈ (th t).running := by
          rw [hpc]
          exact List.mem_singleton_self v
        have hpos : 0 < tally Pc.running th v := tally_pos hv
        have hzero := hrunning v
        omega
  have hfresh := h.fresh w
  have heq := hcount w
  have hrange : 0 < (List.range g.used).count w := List.count_pos_iff.mpr (List.mem_range.mpr hw)
  exact List.count_pos_iff.mp (by omega)

/-! ### The control -/

theorem next_local (hlocal : (s.thread t).Local t s.shared.done)
    (h : next D root s t c (s.thread t) = some (g, pc)) : pc.Local t g.done := by
  cases hpc : s.thread t <;> rw [hpc] at h hlocal
  case idle l =>
    by_cases hl : ∃ w, l = .found (.work w)
    · obtain ⟨w, rfl⟩ := hl
      cases h
      exact ⟨nofun, hlocal.1⟩
    · rw [next_idle fun w hw => hl ⟨w, hw⟩] at h
      obtain ⟨r, hr, heq⟩ := Option.map_eq_some_iff.mp h
      cases heq
      obtain ⟨-, hplain, hleft, -⟩ := idleStep_cases hlocal.2.1 hr
      exact ⟨hlocal.1, hplain, hleft⟩
  case body w rest =>
    cases rest <;> cases h <;> exact hlocal
  case spawn caller stage =>
    have hspawn : hinaSpawn s.shared (tid t) caller stage = (g, pc) := Option.some.inj h
    cases stage <;> cases hspawn <;> rcases caller with _ | ⟨w, rest⟩ <;> exact hlocal
  case dtor w =>
    cases h
    exact hlocal
  case fetchSub w =>
    cases h
    exact ⟨fun ht => hlocal.mpr ht, trivial, nofun⟩
  case unborn =>
    simp only [next] at h
    split at h <;> cases h
    exact ⟨fun ht => hlocal.mpr ht, trivial, nofun⟩
  case create i =>
    cases h
    split <;> exact hlocal
  case poll =>
    cases h
    split <;> exact hlocal
  case storeDone =>
    cases h
    exact hlocal
  case join i =>
    simp only [next] at h
    split at h
    · split at h <;> cases h
      exact hlocal
    · cases h
      exact hlocal
  case free =>
    simp only [next] at h
    split at h <;> cases h <;> exact hlocal
  case exited => cases h

/-- What a worker leaves alone. -/
theorem worker_frame (hlocal : (s.thread t).Local t s.shared.done) (ht : t ≠ none)
    (h : next D root s t c (s.thread t) = some (g, pc)) :
    g.done = s.shared.done ∧ g.freed = s.shared.freed ∧ s.thread t ≠ .idle .left ∧
      ((s.thread t).running = [] → (s.thread t).finishing = [] →
        g.used = s.shared.used ∧ g.decremented = s.shared.decremented ∧ g.list = s.shared.list) := by
  cases hpc : s.thread t <;> rw [hpc] at h hlocal
  case idle l =>
    by_cases hl : ∃ w, l = .found (.work w)
    · obtain ⟨w, rfl⟩ := hl
      cases h
      exact ⟨rfl, rfl, nofun, fun _ _ => ⟨rfl, rfl, rfl⟩⟩
    · rw [next_idle fun w hw => hl ⟨w, hw⟩] at h
      obtain ⟨r, hr, heq⟩ := Option.map_eq_some_iff.mp h
      cases heq
      refine ⟨rfl, rfl, fun hleft => ?_, fun _ _ => ⟨rfl, rfl, rfl⟩⟩
      cases hleft
      cases hr
  case body w rest =>
    cases rest <;> cases h <;> exact ⟨rfl, rfl, nofun, fun _ _ => ⟨rfl, rfl, rfl⟩⟩
  case spawn caller stage =>
    have hspawn : hinaSpawn s.shared (tid t) caller stage = (g, pc) := Option.some.inj h
    rcases caller with _ | ⟨w, rest⟩
    · exact absurd (hlocal.mp trivial) ht
    · cases stage <;> cases hspawn <;> exact ⟨rfl, rfl, nofun, nofun⟩
  case dtor w =>
    cases h
    exact ⟨rfl, rfl, nofun, fun _ _ => ⟨rfl, rfl, rfl⟩⟩
  case fetchSub w =>
    cases h
    exact ⟨rfl, rfl, nofun, nofun⟩
  case unborn =>
    simp only [next] at h
    split at h <;> cases h
    exact ⟨rfl, rfl, nofun, fun _ _ => ⟨rfl, rfl, rfl⟩⟩
  all_goals exact absurd (hlocal.mp trivial) ht

theorem nil_of_tally {f : Pc → List ℕ} (h : ∀ w, tally f th w = 0) (t : Who n) : f (th t) = [] := by
  rw [List.eq_nil_iff_forall_not_mem]
  intro w hw
  have hpos : 0 < tally f th w := tally_pos hw
  have hzero := h w
  omega

/-- A worker does not change how far the main thread is. -/
theorem worker_phase (hi : Inv s) (ht : t ≠ none)
    (h : next D root s t c (s.thread t) = some (g, pc)) :
    Phase ⟨g, Function.update s.thread t pc⟩ (s.thread none) := by
  obtain ⟨hdone, hfreed, hleft, hquiet⟩ := worker_frame (hi.thread t) ht h
  have hphase := hi.phase
  have hq (hq : s.shared.Quiet) : g.Quiet ∧ g.list = s.shared.list := by
    have hzero := quiet_zero hi.balance hq
    obtain ⟨hused, hdec, hlist⟩ := hquiet (nil_of_tally (fun w => (hzero w).2.2.2.1) t)
      (nil_of_tally (fun w => (hzero w).2.2.2.2.2) t)
    refine ⟨fun w hw => ?_, hlist⟩
    rw [hdec]
    exact hq w (hused ▸ hw)
  have hstay {k : Fin (n + 1)} (hk : s.thread (some k) = .idle .left) :
      Function.update s.thread t pc (some k) = .idle .left := by
    rw [Function.update_of_ne, hk]
    rintro rfl
    exact hleft hk
  cases hpc : s.thread none <;> rw [hpc] at hphase
  case storeDone => exact ⟨(hq hphase.1).1, hdone.trans hphase.2.1, hfreed.trans hphase.2.2⟩
  case join i =>
    exact ⟨(hq hphase.1).1, hfreed.trans hphase.2.1, fun k hk => hstay (hphase.2.2 k hk)⟩
  case free => exact ⟨(hq hphase.1).1, fun k => hstay (hphase.2 k)⟩
  case exited =>
    exact ⟨(hq hphase.1).1, (hq hphase.1).2.trans hphase.2.1, fun k => hstay (hphase.2.2 k)⟩
  all_goals exact ⟨hdone.trans hphase.1, hfreed.trans hphase.2⟩

/-- The main thread goes on to the next phase. -/
theorem main_phase (hi : Inv s) (h : next D root s none c (s.thread none) = some (g, pc)) :
    Phase ⟨g, Function.update s.thread none pc⟩ pc := by
  have hphase := hi.phase
  have hlocal := hi.thread none
  have hother (k : Fin (n + 1)) : Function.update s.thread none pc (some k) = s.thread (some k) :=
    Function.update_of_ne (Option.some_ne_none k) _ _
  cases hpc : s.thread none <;> rw [hpc] at h hphase hlocal
  case create i =>
    cases h
    split <;> exact hphase
  case spawn caller stage =>
    have hspawn : hinaSpawn s.shared (tid none) caller stage = (g, pc) := Option.some.inj h
    rcases caller with _ | ⟨w, rest⟩
    · cases stage <;> cases hspawn <;> exact hphase
    · exact (hlocal.mpr rfl).elim
  case poll =>
    cases h
    split
    · rename_i hactive
      refine ⟨quiet_of_active hi.balance hactive fun t stage ht => ?_, hphase⟩
      have hmain := hi.thread t
      rw [ht] at hmain
      obtain rfl := hmain.mp trivial
      rw [hpc] at ht
      cases ht
    · exact hphase
  case storeDone =>
    cases h
    exact ⟨hphase.1, hphase.2.2, nofun⟩
  case join i =>
    simp only [next] at h
    split at h
    · rename_i hi'
      split at h <;> cases h
      rename_i hleft
      refine ⟨hphase.1, hphase.2.1, fun k hk => (hother k).trans ?_⟩
      rcases Nat.lt_succ_iff_lt_or_eq.mp hk with hk | hk
      · exact hphase.2.2 k hk
      · rw [← hleft]
        exact congrArg (fun k => s.thread (some k)) (Fin.ext hk)
    · rename_i hi'
      cases h
      refine ⟨hphase.1, fun k => (hother k).trans (hphase.2.2 k ?_)⟩
      omega
  case free =>
    simp only [next] at h
    split at h
    · rename_i hlist
      cases h
      exact ⟨hphase.1, hlist, fun k => (hother k).trans (hphase.2 k)⟩
    · cases h
      exact ⟨hphase.1, fun k => (hother k).trans (hphase.2 k)⟩
  case exited => cases h
  all_goals exact absurd rfl (by first | exact hlocal.1 | exact fun h => hlocal.mpr h)

theorem local_mono {done done' : Bool} (hdone : done = true → done' = true)
    (h : pc.Local t done) : pc.Local t done' := by
  cases pc
  case idle l => exact ⟨h.1, h.2.1, fun hl => hdone (h.2.2 hl)⟩
  all_goals exact h

/-- In the end `done` is not taken back. -/
theorem next_done (hi : Inv s) (h : next D root s t c (s.thread t) = some (g, pc))
    (hdone : s.shared.done = true) : g.done = true := by
  rcases eq_or_ne t none with rfl | ht
  · have hphase := hi.phase
    cases hpc : s.thread none <;> rw [hpc] at h hphase
    case storeDone =>
      cases h
      rfl
    case join i =>
      simp only [next] at h
      split at h
      · split at h <;> cases h
        exact hdone
      · cases h
        exact hdone
    case free =>
      simp only [next] at h
      split at h <;> cases h <;> exact hdone
    case exited => cases h
    all_goals
      rw [hphase.1] at hdone
      cases hdone
  · exact (worker_frame (hi.thread t) ht h).1.trans hdone

theorem inv_step (hi : Inv s) (h : (system n D root).next s (t, c) = some s') : Inv s' := by
  obtain ⟨⟨g, pc⟩, hn, rfl⟩ := Option.map_eq_some_iff.mp h
  change next D root s t c (s.thread t) = some (g, pc) at hn
  refine ⟨balance_step hi.balance (next_moves (hi.thread t) hn), fun u => ?_, ?_⟩
  · rcases eq_or_ne u t with rfl | hu
    · change (Function.update s.thread u pc u).Local u g.done
      rw [Function.update_self]
      exact next_local (hi.thread u) hn
    · change (Function.update s.thread t pc u).Local u g.done
      rw [Function.update_of_ne hu]
      exact local_mono (next_done hi hn) (hi.thread u)
  · rcases eq_or_ne t none with rfl | ht
    · change Phase _ (Function.update s.thread none pc none)
      rw [Function.update_self]
      exact main_phase hi hn
    · change Phase _ (Function.update s.thread t pc none)
      rw [Function.update_of_ne ht.symm]
      exact worker_phase hi ht hn

theorem inv_start : Inv (start n) := by
  have hzero (f : Pc → List ℕ) (hf : f (.create 0) = [] ∧ f .unborn = []) (w : ℕ) :
      tally f (start n).thread w = 0 := by
    apply Finset.sum_eq_zero
    intro t _
    simp only [start]
    split <;> simp [hf]
  have hqueue (w : ℕ) : tally (fun q => q) (start n).shared.queue w = 0 := by
    apply Finset.sum_eq_zero
    intro i _
    rfl
  refine ⟨⟨fun w => ?_, fun w => ?_, fun w => ?_, fun w => ?_, fun w => ?_, fun w => ?_, rfl⟩,
    fun t => ?_, ⟨rfl, rfl⟩⟩
  · rw [hzero _ ⟨rfl, rfl⟩]
    rfl
  · rw [hzero _ ⟨rfl, rfl⟩, hzero _ ⟨rfl, rfl⟩, hqueue]
    rfl
  · rw [hzero _ ⟨rfl, rfl⟩]
    rfl
  · rw [hzero _ ⟨rfl, rfl⟩]
    rfl
  · rw [hzero _ ⟨rfl, rfl⟩]
    rfl
  · rw [hzero _ ⟨rfl, rfl⟩]
    rfl
  · cases t with
    | none => exact iff_of_true trivial rfl
    | some i => exact iff_of_false id nofun

theorem inv_reachable (h : (system n D root).Reachable System.free s) : Inv s := by
  refine System.reachable_invariant (fun s₀ h₀ => ?_) (fun s a s' _ hi _ hn => inv_step hi hn) h
  subst h₀
  exact inv_start

/-! ### What follows -/

/-- Works are freed only after all workers have left. -/
theorem left_of_freed (hi : Inv s) (h : s.shared.freed ≠ []) (k : Fin (n + 1)) :
    s.thread (some k) = .idle .left := by
  have hphase := hi.phase
  cases hpc : s.thread none <;> rw [hpc] at hphase
  case free => exact hphase.2 k
  case exited => exact hphase.2.2 k
  case storeDone => exact absurd hphase.2.2 h
  case join i => exact absurd hphase.2.1 h
  all_goals exact absurd hphase.2 h

theorem uses_not_freed (hi : Inv s) (hw : w ∈ (s.thread t).uses s.shared.list) :
    w ∉ s.shared.freed := by
  intro hf
  have hleft := left_of_freed hi (List.ne_nil_of_mem hf)
  cases t with
  | some k =>
    rw [hleft k] at hw
    cases hw
  | none =>
    have hphase := hi.phase
    have hnil (h : s.shared.freed = []) : False := by
      rw [h] at hf
      cases hf
    cases hpc : s.thread none <;> rw [hpc] at hphase hw
    case free =>
      -- what is on the list has not been freed
      have hlist := List.count_pos_iff.mpr (List.mem_of_mem_take hw)
      have hpos := List.count_pos_iff.mpr hf
      have hlisted := hi.balance.listed w
      have hle := count_range_le s.shared.used w
      omega
    case spawn caller stage => exact hnil hphase.2
    case idle l => exact hnil hphase.2
    all_goals cases hw

/-- In the states after `done` is set, and when a worker has left, every work has been finished. -/
theorem quiet_of_done (hi : Inv s) (h : s.shared.done = true) : s.shared.Quiet := by
  have hphase := hi.phase
  cases hpc : s.thread none <;> rw [hpc] at hphase
  case storeDone => exact hphase.1
  case join i => exact hphase.1
  case free => exact hphase.1
  case exited => exact hphase.1
  all_goals
    rw [hphase.1] at h
    cases h

theorem finished_once (hi : Inv s) (hq : s.shared.Quiet) (hw : w < s.shared.used) :
    s.shared.called.count w = 1 ∧ s.shared.returned.count w = 1 ∧
      s.shared.destroyed.count w = 1 := by
  have hpos := List.count_pos_iff.mpr (hq w hw)
  have hle := incremented_le hi.balance w
  have hincremented := hi.balance.incremented w
  have hcalled := hi.balance.called w
  have hreturned := hi.balance.returned w
  have hdestroyed := hi.balance.destroyed w
  omega

theorem active_eq (h : Balance g th) : g.active =
    ((Finset.range g.used).filter fun w => w ∈ g.incremented ∧ w ∉ g.decremented).card := by
  have hinc : g.incremented.Nodup := List.nodup_iff_count_le_one.mpr (incremented_le h)
  have hdec : g.decremented.Nodup := List.nodup_iff_count_le_one.mpr fun w =>
    (decremented_le h w).trans (incremented_le h w)
  have hsub : g.decremented.toFinset ⊆ g.incremented.toFinset := by
    intro w hw
    have hpos := List.count_pos_iff.mpr (List.mem_toFinset.mp hw)
    exact List.mem_toFinset.mpr (List.count_pos_iff.mp (hpos.trans_le (decremented_le h w)))
  have hfilter : ((Finset.range g.used).filter fun w => w ∈ g.incremented ∧ w ∉ g.decremented) =
      g.incremented.toFinset \ g.decremented.toFinset := by
    ext w
    simp only [Finset.mem_filter, Finset.mem_range, Finset.mem_sdiff, List.mem_toFinset,
      and_iff_right_iff_imp, and_imp]
    intro hw _
    have hpos := List.count_pos_iff.mpr hw
    have hfresh := h.fresh w
    exact List.mem_range.mp (List.count_pos_iff.mp (by omega))
  have hcard := Finset.card_le_card hsub
  rw [hfilter, Finset.card_sdiff_of_subset hsub]
  rw [List.toFinset_card_of_nodup hinc, List.toFinset_card_of_nodup hdec] at hcard ⊢
  have hactive := h.active
  omega

/-- Whatever the tasks spawn and in whatever order the threads move: `active` is the number of works
that have been counted and not finished; when `done` is set, or a worker has left, the task and
the destructor of every work have run once; and a work is freed once, when nobody uses it any more. -/
theorem shutdown_after_work (h : (system n D root).Reachable System.free s) :
    s.shared.active = ((Finset.range s.shared.used).filter fun w =>
      w ∈ s.shared.incremented ∧ w ∉ s.shared.decremented).card ∧
    (s.shared.done = true → ∀ w < s.shared.used, s.shared.called.count w = 1 ∧
      s.shared.returned.count w = 1 ∧ s.shared.destroyed.count w = 1) ∧
    (∀ k, s.thread (some k) = .idle .left → ∀ w < s.shared.used, w ∈ s.shared.decremented) ∧
    s.shared.freed.Nodup ∧
    (∀ t, ∀ w ∈ (s.thread t).uses s.shared.list, w ∉ s.shared.freed) ∧
    (s.thread none = .exited → ∀ w < s.shared.used, w ∈ s.shared.freed) := by
  have hi := inv_reachable h
  refine ⟨active_eq hi.balance, fun hd w hw => finished_once hi (quiet_of_done hi hd) hw,
    fun k hk => ?_, ?_, fun t w hw => uses_not_freed hi hw, fun hexited w hw => ?_⟩
  · have hlocal := hi.thread (some k)
    rw [hk] at hlocal
    exact quiet_of_done hi (hlocal.2.2 rfl)
  · rw [List.nodup_iff_count_le_one]
    intro w
    have hlisted := hi.balance.listed w
    have hle := count_range_le s.shared.used w
    omega
  · have hphase := hi.phase
    rw [hexited] at hphase
    -- all threads have left, so every work was on the list, and the list is empty now
    have hunlisted : tally Pc.unlisted s.thread w = 0 := by
      apply Finset.sum_eq_zero
      intro t _
      cases t with
      | none => rw [hexited]; rfl
      | some k => rw [hphase.2.2 k]; rfl
    have hlisted := hi.balance.listed w
    have hrange : 0 < (List.range s.shared.used).count w :=
      List.count_pos_iff.mpr (List.mem_range.mpr hw)
    rw [hunlisted, hphase.2.1, List.count_nil] at hlisted
    exact List.count_pos_iff.mp (by omega)

/-- With one worker, the task of the first work spawns a second one, and both are freed. -/
theorem shutdown_after_work_child : ∃ s : St 0, s.shared.used = 2 ∧ ∀ w < 2, w ∈ s.shared.freed := by
  let main : Who 0 × Race := (none, .won)
  let worker : Who 0 × Race := (some 0, .won)
  let schedule := List.replicate 6 main ++ List.replicate 16 worker ++ List.replicate 2 main ++
    List.replicate 4 worker ++ List.replicate 5 main
  let check (s : St 0) : Bool := s.shared.used == 2 && match s.thread none with
    | .exited => true
    | _ => false
  have hrun : ((system 0 (deque ℕ) (.mk [.mk []])).exec (fun _ _ => true) (start 0) schedule).any
      check = true := by decide +kernel
  obtain ⟨s, hs, hcheck⟩ := (Option.any_eq_true _ _).mp hrun
  have hreach : (system 0 (deque ℕ) (.mk [.mk []])).Reachable System.free s :=
    ⟨_, rfl, System.run_of_exec (fun _ _ _ => trivial) hs⟩
  obtain ⟨-, -, -, -, -, hfreed⟩ := shutdown_after_work hreach
  simp only [check, Bool.and_eq_true, beq_iff_eq] at hcheck
  obtain ⟨hused, hexited⟩ := hcheck
  rw [hused] at hfreed
  refine ⟨s, hused, hfreed ?_⟩
  split at hexited
  · assumption
  · cases hexited

end LinuxSummer.Session
