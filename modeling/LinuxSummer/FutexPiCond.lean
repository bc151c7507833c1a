import LinuxSummer.FutexPiInvariant

/-! `cond_wait` on a mutex of either protocol. It sets `MUTEX_SLEEPING` in the word whatever
the word means: for a PI mutex the bit belongs to the id of the owner. -/
namespace LinuxSummer.Futex
set_option linter.unusedSectionVars false
variable {T C : Type*} [DecidableEq T] [DecidableEq C]

variable {p : WakePolicy} {t : T} {l l' : Local C}

section Return
variable {tid : T → Tid} {g g' : PiShared T C} {a : PiAct T C}

end Return

section Runs
variable {tid : T ↪ Tid} {s s' : Config T (PiShared T C) (Local C)} {a : PiAct T C}

end Runs

section TwoThreads

/-- Two threads with the given ids. -/
def twoTids (a b : Tid) (h : a.word ≠ b.word) : Fin 2 ↪ Tid where
  toFun i := if i.val = 0 then a else b
  inj' i j hij := by
    dsimp only at hij
    split at hij <;> split at hij
    · omega
    · exact absurd (congrArg Tid.word hij) h
    · exact absurd (congrArg Tid.word hij).symm h
    · omega

def granted (_ : Config (Fin 2) (PiShared (Fin 2) Unit) (Local Unit))
    (a : Fin 2 × PiAct (Fin 2) Unit) : Bool :=
  match a.2 with
  | .lockError => false
  | _ => true

theorem lockGranted_of_granted {s : Config (Fin 2) (PiShared (Fin 2) Unit) (Local Unit)}
    {a : Fin 2 × PiAct (Fin 2) Unit} (h : granted s a = true) : LockGranted s a := by
  intro ha
  simp [granted, ha] at h

/-- Both ids have the bit. -/
def tids23 : Fin 2 ↪ Tid :=
  twoTids ⟨2, by decide, by decide⟩ ⟨3, by decide, by decide⟩ (by decide)

end TwoThreads
end LinuxSummer.Futex
