import LinuxSummer.Machine

/-! Linearizability. The histories of a system are the calls and the returns that its steps show;
those of an atomic object come from calls each of which takes effect at one moment between
its call and its return. -/
namespace LinuxSummer

/-- A thread calls an operation, or a call returns to it. -/
inductive Event (T O R : Type*) where
  | call (t : T) (o : O)
  | ret (t : T) (r : R)
deriving DecidableEq

namespace System
variable {σ α ε : Type*} (M : System σ α) (ok : σ → α → Prop) (obs : σ → α → List ε)

/-- The runs whose steps all meet `ok`, with what `obs` shows of the steps. -/
inductive Trace : List ε → σ → Prop
  | init {s : σ} : M.init s → Trace [] s
  | step {h : List ε} {s s' : σ} {a : α} :
      Trace h s → ok s a → M.next s a = some s' → Trace (h ++ obs s a) s'

/-- What a schedule shows. -/
def record (s : σ) : List α → List ε
  | [] => []
  | a :: as => obs s a ++ (M.next s a).elim [] fun s' => record s' as

variable {M ok obs} {h : List ε} {s s' : σ} {P : List ε → σ → Prop}

theorem Trace.reachable (hr : M.Trace ok obs h s) : M.Reachable ok s := by
  induction hr with
  | init hs => exact reachable_init hs
  | step _ hok hn ih => exact reachable_step ih hok hn

/-- The induction rule for traces. -/
theorem Trace.invariant (hinit : ∀ s, M.init s → P [] s)
    (hstep : ∀ h s a s', M.Reachable ok s → P h s → ok s a → M.next s a = some s' →
      P (h ++ obs s a) s')
    (hr : M.Trace ok obs h s) : P h s := by
  induction hr with
  | init hs => exact hinit _ hs
  | step hr hok hn ih => exact hstep _ _ _ _ hr.reachable ih hok hn

/-- A schedule that executes is a trace. -/
theorem Trace.of_exec {check : σ → α → Bool} (hok : ∀ s a, check s a = true → ok s a)
    {as : List α} (hr : M.Trace ok obs h s) (he : M.exec check s as = some s') :
    M.Trace ok obs (h ++ M.record obs s as) s' := by
  induction as generalizing h s with
  | nil =>
    cases Option.some.inj he
    rwa [record, List.append_nil]
  | cons a as ih =>
    simp only [exec] at he
    split at he <;> rename_i hc
    · obtain ⟨u, hu, hrest⟩ := Option.bind_eq_some_iff.mp he
      have hnext := ih (hr.step (hok s a hc) hu) hrest
      rw [List.append_assoc] at hnext
      rw [record, hu]
      exact hnext
    · cases he

end System

/-- An object whose calls take effect at once: `effect q o r q'` when a call of `o` may change `q`
to `q'` and return `r`. -/
structure AtomicObject (Q O R : Type*) where
  init : Q
  effect : Q → O → R → Q → Prop

namespace AtomicObject

/-- A call has been made, and has taken effect. -/
inductive Status (O R : Type*) where
  | idle
  | called (o : O)
  | done (r : R)

/-- The object and the calls in progress. -/
structure State (T Q O R : Type*) where
  object : Q
  status : T → Status O R

variable {T Q O R : Type*} [DecidableEq T] (A : AtomicObject Q O R)

/-- The histories of the object. -/
inductive History : List (Event T O R) → State T Q O R → Prop
  | start : History [] ⟨A.init, fun _ => .idle⟩
  | call {h : List (Event T O R)} {s : State T Q O R} (t : T) (o : O) : History h s →
      s.status t = .idle →
      History (h ++ [.call t o]) ⟨s.object, Function.update s.status t (.called o)⟩
  | act {h : List (Event T O R)} {s : State T Q O R} (t : T) (o : O) (r : R) (q : Q) :
      History h s → s.status t = .called o → A.effect s.object o r q →
      History h ⟨q, Function.update s.status t (.done r)⟩
  | ret {h : List (Event T O R)} {s : State T Q O R} (t : T) (r : R) : History h s →
      s.status t = .done r →
      History (h ++ [.ret t r]) ⟨s.object, Function.update s.status t .idle⟩

variable {A} {h : List (Event T O R)} {s : State T Q O R} {t : T} {o : O} {r : R} {q : Q}

/-- A call that takes effect and returns. -/
theorem History.act_ret (hs : A.History h s) (ht : s.status t = .called o)
    (he : A.effect s.object o r q) :
    A.History (h ++ [.ret t r]) ⟨q, Function.update s.status t .idle⟩ := by
  have hret := (hs.act t o r q ht he).ret t r (Function.update_self t _ _)
  rwa [Function.update_idem] at hret

end AtomicObject
end LinuxSummer
