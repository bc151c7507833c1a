import Mathlib.Data.Option.Basic

/-! Programs as trees of operations, with the rules to reason about their runs: weakest
preconditions, and simulation between two programs. -/
namespace LinuxSummer

/-- A program that calls operations of type `O`, with answers of type `A o`. A loop that runs out
of its fuel is `stuck`. -/
inductive Prog (O : Type) (A : O → Type) (α : Type) where
  | ret (x : α)
  | op (o : O) (k : A o → Prog O A α)
  | stuck

namespace Prog
variable {O O' : Type} {A : O → Type} {A' : O' → Type} {α β γ δ M M' : Type}

protected def bind : Prog O A α → (α → Prog O A β) → Prog O A β
  | ret x, f => f x
  | op o k, f => op o fun r => (k r).bind f
  | stuck, _ => stuck

instance : Monad (Prog O A) where
  pure := ret
  bind := Prog.bind

@[simp] theorem pure_def (x : α) : (pure x : Prog O A α) = ret x := rfl

@[simp] theorem op_bind (o : O) (k : A o → Prog O A α) (f : α → Prog O A β) :
    op o k >>= f = op o fun r => k r >>= f := rfl

@[simp] theorem stuck_bind (f : α → Prog O A β) : (stuck : Prog O A α) >>= f = stuck := rfl

theorem bind_assoc (t : Prog O A α) (f : α → Prog O A β) (g : β → Prog O A γ) :
    t >>= f >>= g = t >>= fun x => f x >>= g := by
  induction t with
  | ret x => rfl
  | op o k ih => exact congrArg (op o) (funext ih)
  | stuck => rfl

/-! ### Runs -/

/-- What the operations require and what they may do: answer `r` and change the memory `m` into
`m'`. -/
structure Spec (O : Type) (A : O → Type) (M : Type) where
  pre : O → M → Prop
  eff : (o : O) → M → A o → M → Prop

/-- From `m` every run comes to an end, the operations are called as they require, and `Q` holds
at the end. -/
def Wp (I : Spec O A M) (Q : α → M → Prop) : Prog O A α → M → Prop
  | ret x, m => Q x m
  | op o k, m => I.pre o m ∧ ∀ r m', I.eff o m r m' → (k r).Wp I Q m'
  | stuck, _ => False

/-- The run with operations that are functions. -/
def exec (H : (o : O) → M → A o × M) : Prog O A α → M → Option (α × M)
  | ret x, m => some (x, m)
  | op o k, m => (k (H o m).1).exec H (H o m).2
  | stuck, _ => none

/-- The operations called in that run. -/
def calls (H : (o : O) → M → A o × M) : Prog O A α → M → List O
  | op o k, m => o :: (k (H o m).1).calls H (H o m).2
  | _, _ => []

/-- The specification of operations that are functions, called as `P` requires. -/
def Spec.ofFun (P : O → Prop) (H : (o : O) → M → A o × M) : Spec O A M :=
  ⟨fun o _ => P o, fun o m r m' => r = (H o m).1 ∧ m' = (H o m).2⟩

variable {I : Spec O A M} {I' : Spec O' A' M'} {H : (o : O) → M → A o × M} {t : Prog O A α}
  {t' : Prog O' A' β} {f : α → Prog O A γ} {f' : β → Prog O' A' δ} {Q Q' : α → M → Prop} {m : M}

theorem wp_mono (hQ : ∀ x m, Q x m → Q' x m) (h : Wp I Q t m) : Wp I Q' t m := by
  induction t generalizing m with
  | ret x => exact hQ x m h
  | op o k ih => exact ⟨h.1, fun r m' he => ih r (h.2 r m' he)⟩
  | stuck => exact h

/-- The rule of sequential composition. -/
theorem wp_seq {Q : γ → M → Prop} {R : α → M → Prop} (ht : Wp I R t m)
    (hf : ∀ x m, R x m → Wp I Q (f x) m) : Wp I Q (t >>= f) m := by
  induction t generalizing m with
  | ret x => exact hf x m ht
  | op o k ih => exact ⟨ht.1, fun r m' he => ih r (ht.2 r m' he)⟩
  | stuck => exact ht.elim

theorem wp_exec {P : O → Prop} (h : Wp (.ofFun P H) Q t m) :
    ∃ x m', exec H t m = some (x, m') ∧ Q x m' := by
  induction t generalizing m with
  | ret x => exact ⟨x, m, rfl, h⟩
  | op o k ih => exact ih _ (h.2 _ _ ⟨rfl, rfl⟩)
  | stuck => exact h.elim

theorem wp_calls {P : O → Prop} (h : Wp (.ofFun P H) Q t m) : ∀ o ∈ calls H t m, P o := by
  induction t generalizing m with
  | ret x => simp [calls]
  | op o k ih =>
    intro o' ho'
    rcases List.mem_cons.mp ho' with rfl | hmem
    · exact h.1
    · exact ih _ (h.2 _ _ ⟨rfl, rfl⟩) o' hmem
  | stuck => exact h.elim

/-! ### Results on all branches -/

/-- `Q` holds of the result, whatever the answers are. -/
def All (Q : α → Prop) : Prog O A α → Prop
  | ret x => Q x
  | op _ k => ∀ r, (k r).All Q
  | stuck => True

theorem all_mono {Q Q' : α → Prop} (hQ : ∀ x, Q x → Q' x) (h : All Q t) : All Q' t := by
  induction t with
  | ret x => exact hQ x h
  | op o k ih => exact fun r => ih r (h r)
  | stuck => trivial

theorem all_bind {Q : γ → Prop} {R : α → Prop} (ht : All R t) (hf : ∀ x, R x → All Q (f x)) :
    All Q (t >>= f) := by
  induction t with
  | ret x => exact hf x ht
  | op o k ih => exact fun r => ih r (ht r)
  | stuck => trivial

/-! ### Simulation -/

/-- Two programs make related calls on every path: `R o o' S` relates two operations, whose
related answers are those of `S`, and `ρ` relates the results. -/
inductive Sim (R : (o : O) → (o' : O') → (A o → A' o' → Prop) → Prop) (ρ : α → β → Prop) :
    Prog O A α → Prog O' A' β → Prop
  | ret {x : α} {y : β} : ρ x y → Sim R ρ (.ret x) (.ret y)
  | op {o : O} {o' : O'} {S : A o → A' o' → Prop} {k : A o → Prog O A α}
      {k' : A' o' → Prog O' A' β} : R o o' S → (∀ r r', S r r' → Sim R ρ (k r) (k' r')) →
      Sim R ρ (.op o k) (.op o' k')
  | stuck : Sim R ρ .stuck .stuck

variable {R : (o : O) → (o' : O') → (A o → A' o' → Prop) → Prop} {ρ : α → β → Prop}
  {σ : γ → δ → Prop}

theorem sim_bind (ht : Sim R ρ t t') (hf : ∀ x y, ρ x y → Sim R σ (f x) (f' y)) :
    Sim R σ (t >>= f) (t' >>= f') := by
  induction ht with
  | ret h => exact hf _ _ h
  | op hR _ ih => exact .op hR ih
  | stuck => exact .stuck

/-- `sim_bind` with a property of the results of the first program. -/
theorem sim_bind_all {P : α → Prop} (ht : Sim R ρ t t') (hall : All P t)
    (hf : ∀ x y, ρ x y → P x → Sim R σ (f x) (f' y)) : Sim R σ (t >>= f) (t' >>= f') := by
  induction ht with
  | ret h => exact hf _ _ h hall
  | op hR _ ih => exact .op hR fun r r' hS => ih r r' hS (hall r)
  | stuck => exact .stuck

/-- What is proved of the first program holds of the second one, when `J` relates the memories and
related operations keep it. -/
theorem wp_sim {J : M → M' → Prop} (ht : Sim R ρ t t')
    (hstep : ∀ o o' S m m', R o o' S → J m m' → I.pre o m → I'.pre o' m' ∧
      ∀ r' m₁', I'.eff o' m' r' m₁' → ∃ r m₁, S r r' ∧ I.eff o m r m₁ ∧ J m₁ m₁')
    {m : M} {m' : M'} (hJ : J m m') (h : Wp I Q t m) :
    Wp I' (fun y m₁' => ∃ x m₁, ρ x y ∧ J m₁ m₁' ∧ Q x m₁) t' m' := by
  induction ht generalizing m m' with
  | ret hρ => exact ⟨_, m, hρ, hJ, h⟩
  | op hR _ ih =>
    obtain ⟨hpre, heff⟩ := hstep _ _ _ _ _ hR hJ h.1
    refine ⟨hpre, fun r' m₁' he => ?_⟩
    obtain ⟨r, m₁, hS, he', hJ'⟩ := heff r' m₁' he
    exact ih r r' hS hJ' (h.2 r m₁ he')
  | stuck => exact h.elim

end Prog
end LinuxSummer
