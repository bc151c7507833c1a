import Mathlib.Logic.Relation
import Mathlib.Logic.Function.Basic

/-! Labelled transition systems whose step is a partial function of the state and
the label, and the interleaving of threads over a shared state. -/
namespace LinuxSummer

/-- A transition system. `next s a` is the state after the step labelled `a`, or
`none` when that step is not possible in `s`. -/
structure System (σ α : Type*) where
  init : σ → Prop
  next : σ → α → Option σ

namespace System
variable {σ α : Type*} (M : System σ α)

/-- One step whose label the environment condition `ok` allows in the state before it. -/
def StepIf (ok : σ → α → Prop) (s s' : σ) : Prop :=
  ∃ a, ok s a ∧ M.next s a = some s'

/-- Finitely many steps, each of which meets `ok`. -/
def Run (ok : σ → α → Prop) : σ → σ → Prop := Relation.ReflTransGen (M.StepIf ok)

/-- The states reached from an initial one by steps that all meet `ok`. -/
def Reachable (ok : σ → α → Prop) (s : σ) : Prop := ∃ s₀, M.init s₀ ∧ M.Run ok s₀ s

/-- The environment condition that allows every step. -/
def free (_ : σ) (_ : α) : Prop := True

/-- Execute a schedule, given as the list of its labels, as long as `check` holds. -/
def exec (check : σ → α → Bool) (s : σ) : List α → Option σ
  | [] => some s
  | a :: as => if check s a then (M.next s a).bind fun s' => exec check s' as else none

variable {M} {ok : σ → α → Prop} {I J : σ → Prop} {s s' : σ}

theorem run_preserves (hstep : ∀ s a s', I s → ok s a → M.next s a = some s' → I s')
    (hr : M.Run ok s s') (hs : I s) : I s' := by
  induction hr with
  | refl => exact hs
  | tail _ hstep' ih =>
    obtain ⟨a, ha, hn⟩ := hstep'
    exact hstep _ a _ ih ha hn

theorem reachable_init (h : M.init s) : M.Reachable ok s :=
  ⟨s, h, Relation.ReflTransGen.refl⟩

theorem reachable_run (h : M.Reachable ok s) (hr : M.Run ok s s') : M.Reachable ok s' := by
  obtain ⟨s₀, h₀, hrun⟩ := h
  exact ⟨s₀, h₀, hrun.trans hr⟩

/-- The induction rule: an invariant that holds initially and is kept by every allowed
step holds in every reachable state. The step may use what is known of reachable states. -/
theorem reachable_invariant (hinit : ∀ s, M.init s → I s)
    (hstep : ∀ s a s', M.Reachable ok s → I s → ok s a → M.next s a = some s' → I s')
    (hr : M.Reachable ok s) : I s := by
  obtain ⟨s₀, h₀, hrun⟩ := hr
  induction hrun with
  | refl => exact hinit s₀ h₀
  | tail hrun hstep' ih =>
    obtain ⟨a, ha, hn⟩ := hstep'
    exact hstep _ a _ ⟨s₀, h₀, hrun⟩ ih ha hn

theorem run_step {a : α} (h : ok s a) (hn : M.next s a = some s') : M.Run ok s s' :=
  Relation.ReflTransGen.single ⟨a, h, hn⟩

theorem reachable_step {a : α} (h : M.Reachable ok s) (ha : ok s a)
    (hn : M.next s a = some s') : M.Reachable ok s' :=
  reachable_run h (run_step ha hn)

/-- Steps that meet a stronger condition meet the weaker one. -/
theorem run_mono {ok' : σ → α → Prop} (h : ∀ s a, ok s a → ok' s a) (hr : M.Run ok s s') :
    M.Run ok' s s' := by
  refine Relation.ReflTransGen.mono ?_ _ _ hr
  rintro u u' ⟨a, ha, hn⟩
  exact ⟨a, h u a ha, hn⟩

/-- A schedule that executes is a run. -/
theorem run_of_exec {check : σ → α → Bool} (hok : ∀ s a, check s a = true → ok s a)
    {as : List α} (h : M.exec check s as = some s') : M.Run ok s s' := by
  induction as generalizing s with
  | nil =>
    cases Option.some.inj h
    exact Relation.ReflTransGen.refl
  | cons a as ih =>
    simp only [exec] at h
    split at h <;> rename_i hc
    · obtain ⟨u, hu, hrest⟩ := Option.bind_eq_some_iff.mp h
      exact (run_step (hok s a hc) hu).trans (ih hrest)
    · cases h

end System

/-- Threads that share a state `Γ` and have a local state `L` each: one atomic step of
thread `t` reads and writes the shared state and its own local state only. -/
structure Threads (T Γ L α : Type*) where
  next : T → Γ → L → α → Option (Γ × L)

/-- The shared state and the local state of every thread. -/
structure Config (T Γ L : Type*) where
  shared : Γ
  thread : T → L

namespace Threads
variable {T Γ L α : Type*} [DecidableEq T] (P : Threads T Γ L α)

/-- The interleavings: a label is the thread that moves and what it does. -/
def system (init : Config T Γ L → Prop) : System (Config T Γ L) (T × α) where
  init := init
  next s a := (P.next a.1 s.shared (s.thread a.1) a.2).map fun r =>
    ⟨r.1, Function.update s.thread a.1 r.2⟩

variable {P} {init : Config T Γ L → Prop} {s s' : Config T Γ L} {t : T} {a : α}

/-- What one step of a thread does to the configuration. -/
theorem step_cases (h : (P.system init).next s (t, a) = some s') :
    ∃ g l, P.next t s.shared (s.thread t) a = some (g, l) ∧
      s' = ⟨g, Function.update s.thread t l⟩ := by
  obtain ⟨r, hr, rfl⟩ := Option.map_eq_some_iff.mp h
  exact ⟨r.1, r.2, hr, rfl⟩

/-- A global invariant together with a local one for each thread. -/
def Inv (G : Γ → Prop) (K : T → Γ → L → Prop) (s : Config T Γ L) : Prop :=
  G s.shared ∧ ∀ t, K t s.shared (s.thread t)

/-- The interference rule: a step keeps the invariant when it keeps the mover's own part
of it and every other thread's. -/
theorem inv_step {G : Γ → Prop} {K : T → Γ → L → Prop}
    (own : ∀ g' l', P.next t s.shared (s.thread t) a = some (g', l') →
      G g' ∧ K t g' l')
    (env : ∀ u g' l', u ≠ t → P.next t s.shared (s.thread t) a = some (g', l') →
      K u g' (s.thread u))
    (h : (P.system init).next s (t, a) = some s') : Inv G K s' := by
  obtain ⟨g, l, hn, rfl⟩ := step_cases h
  refine ⟨(own g l hn).1, fun u => ?_⟩
  by_cases hu : u = t
  · subst hu
    simpa only [Function.update_self] using (own g l hn).2
  · simpa only [Function.update_of_ne hu] using env u g l hu hn

end Threads
end LinuxSummer
