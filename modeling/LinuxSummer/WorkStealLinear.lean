import LinuxSummer.Linearize
import LinuxSummer.WorkStealDelivery
import LinuxSummer.WorkStealSequential

/-! The deque of hw3/work-steal.c is linearizable: what the owner and the thieves see of it, they
could see of a list whose calls take effect at once. -/
namespace LinuxSummer.WorkSteal
open IndexWindow AtomicObject
set_option linter.unusedSectionVars false

variable {T V : Type*}

/-- The list as an object that threads share. A lost race makes `steal` return `ABORT`, and then it
has done nothing. -/
def list (V : Type*) : AtomicObject (List V) (Call V) (Option (Result V)) where
  init := []
  effect xs c r xs' := (xs', r) = listCall xs c ∨ c = .steal ∧ r = some .abort ∧ xs' = xs

/-- What a call returns in its last access. -/
def answer (g : Shared V) : Pc V → Option (Option (Result V))
  | .pushStore _ _ => some none
  | .takeSlot b a t => if t = b then none else some (some (.work (g.load a b)))
  | .takeRestore _ r => some (some r)
  | .stealBottom t => if t < g.bottom then none else some (some .empty)
  | .stealCas t x => some (some (if g.top = t then .work x else .abort))
  | _ => none

/-- The calls and returns that a step shows. -/
def observe (s : Config (Who T) (Shared V) (Pc V)) (a : Who T × Act V) :
    List (Event (Who T) (Call V) (Option (Result V))) :=
  match a.2 with
  | .push w => [.call a.1 (.push w)]
  | .take => [.call a.1 .take]
  | .steal => [.call a.1 .steal]
  | .run => (answer s.shared (s.thread a.1)).toList.map (.ret a.1)

variable {g g' : Shared V} {pc pc' : Pc V}

/-- The calls that return are those without a next access. -/
theorem answer_isSome (h : run g pc = some (g', pc')) : (answer g pc).isSome ↔ pc' = .idle := by
  cases pc <;> simp only [run] at h
  case idle => cases h
  case pushArray => split at h <;> cases h <;> simp [answer]
  case resizeBottom =>
    cases h
    simp only [answer, copyLoop]
    split <;> simp
  case copyStore =>
    cases h
    simp only [answer, copyLoop]
    split <;> simp
  case takeTop =>
    split at h
    · cases h
      simp [answer]
    · split at h <;> cases h <;> simp [answer]
  case takeSlot =>
    split at h
    · cases h
      simp_all [answer]
    · cases h
      simp_all [answer]
  case takeCas => split at h <;> cases h <;> simp [answer]
  case stealBottom => split at h <;> cases h <;> simp_all [answer]
  case stealCas => split at h <;> cases h <;> simp [answer]
  all_goals
    cases h
    simp [answer]

/-! ### The contents -/

/-- What the indices of the deque hold, in order. -/
def Shared.works (g : Shared V) : List (Option V) :=
  (List.range' g.top (g.high - g.top)).map g.slot

theorem works_congr (htop : g'.top = g.top) (hhigh : g'.high = g.high)
    (hslot : ∀ j, g.top ≤ j → j < g.high → g'.slot j = g.slot j) : g'.works = g.works := by
  rw [Shared.works, Shared.works, htop, hhigh]
  refine List.map_congr_left fun j hj => ?_
  rw [List.mem_range'_1] at hj
  exact hslot j hj.1 (by omega)

theorem works_nil (h : g.high ≤ g.top) : g.works = [] := by
  rw [Shared.works, Nat.sub_eq_zero_of_le h]
  rfl

theorem works_front (h : g.top < g.high) :
    g.works = g.slot g.top :: (List.range' (g.top + 1) (g.high - (g.top + 1))).map g.slot := by
  obtain ⟨k, hk⟩ : ∃ k, g.high - g.top = k + 1 := ⟨g.high - g.top - 1, by omega⟩
  have hrest : g.high - (g.top + 1) = k := by omega
  rw [Shared.works, hk, hrest, List.range'_succ, List.map_cons]

theorem works_back {b : ℕ} (h : g.top ≤ b) (hb : g.high = b + 1) :
    g.works = (List.range' g.top (b - g.top)).map g.slot ++ [g.slot b] := by
  have hlen : g.high - g.top = b - g.top + 1 := by omega
  have hlast : g.top + 1 * (b - g.top) = b := by omega
  rw [Shared.works, hlen, List.range'_concat, List.map_append, List.map_singleton, hlast]

/-- The owner keeps what the indices of the deque hold, also while it moves to another array. -/
theorem run_slot (hg : Global g) (h : OwnerInv g pc) (hn : run g pc = some (g', pc')) (j : ℕ)
    (hj : g.top ≤ j) (hjh : j < g.high) : g'.slot j = g.slot j := by
  cases pc <;> simp only [OwnerInv] at h <;> simp only [run] at hn
  case idle => cases hn
  case resizeArray w b =>
    cases hn
    have hne : g.array ≠ g.used := Nat.ne_of_lt hg.used
    simp only [Shared.slot, Function.update_of_ne hne]
  case copyStore w b a new i e x =>
    cases hn
    have hne : g.array ≠ new := Nat.ne_of_lt h.1.fresh
    simp only [Shared.slot, Shared.store, putAt_of_ne hne]
  case resizeStore w b new =>
    cases hn
    exact h.2 j hj hjh
  case pushSlot w b a =>
    cases hn
    obtain ⟨⟨-, rfl, -⟩, hroom, rfl⟩ := h
    exact get_putAt_of_ne (mod_ne hjh (by omega))
  case takeTop | pushArray =>
    split at hn
    · cases hn
      rfl
    · first
      | (cases hn; rfl)
      | (split at hn <;> cases hn <;> rfl)
  case takeSlot | takeCas =>
    split at hn <;> cases hn <;> rfl
  case takeRestore b r =>
    cases hn
    cases r <;> rfl
  all_goals first
    | exact h.elim
    | (cases hn; rfl)

theorem owner_ne (t : T) : Who.owner ≠ Who.thief t := nofun

/-- A thief leaves the arrays alone. -/
theorem thief_heap (h : ThiefInv g pc) (hn : run g pc = some (g', pc')) :
    g'.heap = g.heap ∧ g'.array = g.array := by
  cases pc <;> simp only [ThiefInv] at h <;> simp only [run] at hn
  case idle => cases hn
  case stealBottom | stealCas => split at hn <;> cases hn <;> exact ⟨rfl, rfl⟩
  all_goals
    cases hn
    exact ⟨rfl, rfl⟩

/-! ### The calls in progress -/

/-- Where the list is with the call of a thread. A call of `take` has taken effect when it cannot lose
the race for the work any more. -/
def status (g : Shared V) : Pc V → Status (Call V) (Option (Result V))
  | .idle => .idle
  | .pushBottom w | .pushTop w _ | .pushArray w _ _ | .resizeArray w _ | .resizeTop w _ _ _
  | .resizeBottom w _ _ _ _ | .copyLoad w _ _ _ _ _ | .copyStore w _ _ _ _ _ _
  | .resizeStore w _ _ | .pushReload w _ | .pushSlot w _ _ | .pushStore w _ => .called (.push w)
  | .takeBottom | .takeArray _ | .takeLower _ _ | .takeTop _ _ | .takeCas _ _ => .called .take
  | .takeSlot b a t => if t = b then .called .take else .done (some (.work (g.load a b)))
  | .takeRestore _ r => .done (some r)
  | .stealTop | .stealBottom _ | .stealArray _ | .stealSlot _ _ | .stealCas _ _ => .called .steal

theorem status_congr (h : ∀ a b, g'.load a b = g.load a b) : status g' pc = status g pc := by
  cases pc with
  | takeSlot b a t => simp only [status, h]
  | _ => rfl

theorem status_thief (h : ThiefInv g pc) (g' : Shared V) : status g' pc = status g pc := by
  cases pc with
  | takeSlot b a t => exact h.elim
  | _ => rfl

variable [DecidableEq T] {s : Config (Who T) (Shared V) (Pc V)} {u : Who T}
  {c : Option (Who T)} {o : Call V} {r : Option (Result V)}
  {hist : List (Event (Who T) (Call V) (Option (Result V)))}

theorem others_status (hi : Inv s) (hn : run s.shared (s.thread u) = some (g', pc')) (v : Who T)
    (hv : v ≠ u) : status g' (s.thread v) = status s.shared (s.thread v) := by
  cases u with
  | owner =>
    cases v with
    | owner => exact absurd rfl hv
    | thief t => exact status_thief (hi.2 (.thief t)) g'
  | thief t =>
    have hheap := (thief_heap (hi.2 (.thief t)) hn).1
    exact status_congr fun a b => by rw [Shared.load, Shared.load, hheap]

/-- The calls in progress, when `c` is given the last work before it has won the race for it. -/
def statusOf (c : Option (Who T)) (s : Config (Who T) (Shared V) (Pc V)) (u : Who T) :
    Status (Call V) (Option (Result V)) :=
  if c = some u then .done (some (.work (s.shared.slot s.shared.top)))
  else status s.shared (s.thread u)

/-- The contents of the list, when the last work has been given away. -/
def view (c : Option (Who T)) (g : Shared V) : List (Option V) := if c = none then g.works else []

/-- A history of the list. -/
def Explains (hist : List (Event (Who T) (Call V) (Option (Result V)))) (c : Option (Who T))
    (s : Config (Who T) (Shared V) (Pc V)) : Prop :=
  ∃ xs : List V, xs.map some = view c s.shared ∧ (list V).History hist ⟨xs, statusOf c s⟩

/-- What a step of `u` leaves to the others. -/
structure Frame (c : Option (Who T)) (s : Config (Who T) (Shared V) (Pc V)) (u : Who T)
    (g' : Shared V) : Prop where
  others : ∀ v, v ≠ u → status g' (s.thread v) = status s.shared (s.thread v)
  winner : c ≠ none → g'.slot g'.top = s.shared.slot s.shared.top

theorem Frame.statusOf_update (hf : Frame c s u g') (hc : c ≠ some u)
    {st : Status (Call V) (Option (Result V))} (hst : status g' pc' = st) :
    Function.update (statusOf c s) u st = statusOf c ⟨g', Function.update s.thread u pc'⟩ := by
  funext v
  rcases eq_or_ne v u with rfl | hv
  · simp only [Function.update_self, statusOf, if_neg hc, hst]
  · simp only [Function.update_of_ne hv, statusOf]
    split
    · rename_i hcv
      rw [hf.winner (by rw [hcv]; exact Option.some_ne_none v)]
    · exact (hf.others v hv).symm

/-- A step that the list does not see. -/
theorem Explains.silent (h : Explains hist c s) (hf : Frame c s u g')
    (hview : view c g' = view c s.shared)
    (hst : c ≠ some u → status g' pc' = status s.shared (s.thread u)) :
    Explains hist c ⟨g', Function.update s.thread u pc'⟩ := by
  obtain ⟨xs, hxs, hh⟩ := h
  refine ⟨xs, hxs.trans hview.symm, ?_⟩
  have heq : statusOf c s = statusOf c ⟨g', Function.update s.thread u pc'⟩ := by
    by_cases hc : c = some u
    · funext v
      have hwin := hf.winner (by rw [hc]; exact Option.some_ne_none u)
      rcases eq_or_ne v u with rfl | hv
      · simp only [statusOf, if_pos hc, hwin]
      · simp only [statusOf, Function.update_of_ne hv, hwin, hf.others v hv]
    · rw [← hf.statusOf_update hc (hst hc)]
      have hself : statusOf c s u = status s.shared (s.thread u) := if_neg hc
      rw [← hself, Function.update_eq_self]
  rwa [← heq]

/-- A call takes effect. -/
theorem Explains.act (h : Explains hist c s) (hf : Frame c s u g') (hc : c ≠ some u)
    (hcall : status s.shared (s.thread u) = .called o)
    (heffect : ∀ xs : List V, xs.map some = view c s.shared →
      ∃ xs' : List V, xs'.map some = view c g' ∧ (list V).effect xs o r xs')
    (hst : status g' pc' = .done r) :
    Explains hist c ⟨g', Function.update s.thread u pc'⟩ := by
  obtain ⟨xs, hxs, hh⟩ := h
  obtain ⟨xs', hxs', he⟩ := heffect xs hxs
  refine ⟨xs', hxs', ?_⟩
  have hself : statusOf c s u = .called o := (if_neg hc).trans hcall
  rw [← hf.statusOf_update hc hst]
  exact hh.act u o r xs' hself he

/-- A call takes effect and returns. -/
theorem Explains.act_ret (h : Explains hist c s) (hf : Frame c s u g') (hc : c ≠ some u)
    (hcall : status s.shared (s.thread u) = .called o)
    (heffect : ∀ xs : List V, xs.map some = view c s.shared →
      ∃ xs' : List V, xs'.map some = view c g' ∧ (list V).effect xs o r xs') :
    Explains (hist ++ [.ret u r]) c ⟨g', Function.update s.thread u .idle⟩ := by
  obtain ⟨xs, hxs, hh⟩ := h
  obtain ⟨xs', hxs', he⟩ := heffect xs hxs
  refine ⟨xs', hxs', ?_⟩
  have hself : statusOf c s u = .called o := (if_neg hc).trans hcall
  rw [← hf.statusOf_update hc rfl]
  exact hh.act_ret hself he

/-- A call that has taken effect returns. -/
theorem Explains.ret (h : Explains hist c s) (hf : Frame c s u g') (hc : c ≠ some u)
    (hview : view c g' = view c s.shared) (hdone : status s.shared (s.thread u) = .done r) :
    Explains (hist ++ [.ret u r]) c ⟨g', Function.update s.thread u .idle⟩ := by
  obtain ⟨xs, hxs, hh⟩ := h
  refine ⟨xs, hxs.trans hview.symm, ?_⟩
  have hself : statusOf c s u = .done r := (if_neg hc).trans hdone
  rw [← hf.statusOf_update hc rfl]
  exact hh.ret u r hself

/-- A thread makes a call. -/
theorem Explains.call (h : Explains hist c s) (hc : c ≠ some u) (hidle : s.thread u = .idle)
    (hst : status s.shared pc' = .called o) :
    Explains (hist ++ [.call u o]) c ⟨s.shared, Function.update s.thread u pc'⟩ := by
  obtain ⟨xs, hxs, hh⟩ := h
  refine ⟨xs, hxs, ?_⟩
  have hself : statusOf c s u = .idle := by
    rw [statusOf, if_neg hc, hidle]
    rfl
  have hf : Frame c s u s.shared := ⟨fun _ _ => rfl, fun _ => rfl⟩
  rw [← hf.statusOf_update hc hst]
  exact hh.call u o hself

/-- The race for the last work has been won. -/
theorem Explains.won (h : Explains hist (some u) s)
    (hothers : ∀ v, v ≠ u → status g' (s.thread v) = status s.shared (s.thread v))
    (hworks : g'.works = [])
    (hst : status g' pc' = .done (some (.work (s.shared.slot s.shared.top)))) :
    Explains hist none ⟨g', Function.update s.thread u pc'⟩ := by
  obtain ⟨xs, hxs, hh⟩ := h
  refine ⟨xs, hxs.trans hworks.symm, ?_⟩
  have heq : statusOf (some u) s = statusOf none ⟨g', Function.update s.thread u pc'⟩ := by
    funext v
    rcases eq_or_ne v u with rfl | hv
    · simp only [statusOf, Function.update_self, hst, if_true, reduceCtorEq, if_false]
    · have hne : (some u : Option (Who T)) ≠ some v := fun he => hv (Option.some.inj he).symm
      simp only [statusOf, if_neg hne, Function.update_of_ne hv, hothers v hv, reduceCtorEq, if_false]
  rwa [← heq]

theorem Explains.won_ret (h : Explains hist (some u) s)
    (hothers : ∀ v, v ≠ u → status g' (s.thread v) = status s.shared (s.thread v))
    (hworks : g'.works = []) :
    Explains (hist ++ [.ret u (some (.work (s.shared.slot s.shared.top)))]) none
      ⟨g', Function.update s.thread u .idle⟩ := by
  obtain ⟨xs, hxs, hh⟩ := h
  refine ⟨xs, hxs.trans hworks.symm, ?_⟩
  have hself : statusOf (some u) s u = .done (some (.work (s.shared.slot s.shared.top))) := if_pos rfl
  have heq : Function.update (statusOf (some u) s) u .idle =
      statusOf none ⟨g', Function.update s.thread u .idle⟩ := by
    funext v
    rcases eq_or_ne v u with rfl | hv
    · simp only [statusOf, Function.update_self, reduceCtorEq, if_false]
      rfl
    · have hne : (some u : Option (Who T)) ≠ some v := fun he => hv (Option.some.inj he).symm
      simp only [statusOf, if_neg hne, Function.update_of_ne hv, hothers v hv, reduceCtorEq, if_false]
  rw [← heq]
  exact hh.ret u _ hself

/-- A thief finds the deque empty while the race for the last work is on: then the list gives this
work to `v`, who is to win. -/
theorem Explains.race {i : ℕ} {v : Who T} (h : Explains hist none s)
    (hworks : s.shared.works = [s.shared.slot s.shared.top]) (hu : s.thread u = .stealBottom i)
    (hv : v ≠ u) (hcall : status s.shared (s.thread v) = .called .take ∨
      status s.shared (s.thread v) = .called .steal) :
    Explains (hist ++ [.ret u (some .empty)]) (some v)
      ⟨s.shared, Function.update s.thread u .idle⟩ := by
  obtain ⟨xs, hxs, hh⟩ := h
  have hone : xs.map some = [s.shared.slot s.shared.top] := hxs.trans hworks
  obtain ⟨y, rfl, hy⟩ := List.map_eq_singleton_iff.mp hone
  have hgiven : (list V).History hist
      ⟨[], Function.update (statusOf none s) v (.done (some (.work (s.shared.slot s.shared.top))))⟩ := by
    have hself : statusOf none s v = status s.shared (s.thread v) :=
      if_neg (Option.some_ne_none v).symm
    rw [← hy]
    rcases hcall with hcall | hcall
    · exact hh.act v .take _ [] (hself.trans hcall) (.inl rfl)
    · exact hh.act v .steal _ [] (hself.trans hcall) (.inl rfl)
  refine ⟨[], rfl, ?_⟩
  have hsteal : Function.update (statusOf none s) v
      (.done (some (.work (s.shared.slot s.shared.top)))) u = .called .steal := by
    rw [Function.update_of_ne hv.symm, statusOf, if_neg (Option.some_ne_none u).symm, hu]
    rfl
  have heq : Function.update (Function.update (statusOf none s) v
      (.done (some (.work (s.shared.slot s.shared.top))))) u .idle =
      statusOf (some v) ⟨s.shared, Function.update s.thread u .idle⟩ := by
    funext z
    rcases eq_or_ne z u with rfl | hz
    · have hne : (some v : Option (Who T)) ≠ some z := fun he => hv (Option.some.inj he)
      simp only [statusOf, Function.update_self, if_neg hne]
      rfl
    · rcases eq_or_ne z v with rfl | hzv
      · simp only [statusOf, Function.update_of_ne hz, Function.update_self, if_true]
      · have hne : (some v : Option (Who T)) ≠ some z := fun he => hzv (Option.some.inj he).symm
        simp only [statusOf, Function.update_of_ne hz, Function.update_of_ne hzv, if_neg hne,
          reduceCtorEq, if_false]
  rw [← heq]
  exact hgiven.act_ret hsteal (.inl rfl)

/-! ### The race for the last work -/

/-- The owner is about to try for the last work. -/
def Racing (g : Shared V) : Pc V → Prop
  | .takeTop b _ | .takeCas b _ => b = g.top
  | .takeSlot b _ t => t = b ∧ b = g.top
  | _ => False

/-- Who may still win the race. -/
def Chance (s : Config (Who T) (Shared V) (Pc V)) : Who T → Prop
  | .owner => True
  | .thief t => match s.thread (.thief t) with
    | .stealArray i | .stealSlot i _ | .stealCas i _ => i = s.shared.top
    | _ => False

/-- `take` puts `bottom` back when nothing is left. -/
def Spent (s : Config (Who T) (Shared V) (Pc V)) : Prop :=
  ∀ b r, s.thread .owner = .takeRestore b r → s.shared.high ≤ s.shared.top

/-- A history of the list; while the owner tries for the last work there may be one for each thread
that can win. -/
def Explained (hist : List (Event (Who T) (Call V) (Option (Result V))))
    (s : Config (Who T) (Shared V) (Pc V)) : Prop :=
  Explains hist none s ∨
    Racing s.shared (s.thread .owner) ∧ ∀ c, Chance s c → Explains hist (some c) s

theorem Racing.lowered (h : OwnerInv g pc) (hr : Racing g pc) : Lowered g g.top := by
  cases pc <;> simp only [Racing] at hr <;> simp only [OwnerInv] at h
  case takeTop b a => exact hr ▸ h.1
  case takeCas b x => exact hr ▸ h.1
  case takeSlot b a t =>
    rcases h.2 with ⟨-, hl, -⟩ | ⟨hne, -⟩
    · exact hr.2 ▸ hl
    · exact absurd hr.1 hne

/-- A thief does not take the owner out of the race. -/
theorem Racing.thief (hr : Racing s.shared (s.thread .owner)) (t : T) (pc' : Pc V) :
    Racing s.shared (Function.update s.thread (.thief t) pc' .owner) := by
  rwa [Function.update_of_ne (owner_ne t)]

theorem Racing.called (hr : Racing g pc) : status g pc = .called .take := by
  cases pc <;> simp only [Racing] at hr
  case takeTop => rfl
  case takeCas => rfl
  case takeSlot b a t => simp only [status, if_pos hr.1]

/-- When `bottom` is not past `top` and there is a work, the owner is in the race for it. -/
theorem racing_of_bottom (h : OwnerInv g pc) (hspent : ∀ b r, pc = .takeRestore b r → g.high ≤ g.top)
    (hbot : g.bottom ≤ g.top) (htop : g.top < g.high) : Racing g pc := by
  have calm : ¬ Calm g := fun hc => by
    have := hc.1
    omega
  cases pc <;> simp only [OwnerInv] at h
  case takeTop b a =>
    obtain ⟨hb, hh, -⟩ := h.1
    simp only [Racing]
    omega
  case takeSlot b a t =>
    rcases h.2 with ⟨ht, ⟨hb, hh, -⟩, hle⟩ | ⟨-, hb, hh, -⟩
    · simp only [Racing]
      omega
    · omega
  case takeCas b x =>
    obtain ⟨⟨hb, hh, -⟩, hle, -⟩ := h
    simp only [Racing]
    omega
  case takeRestore b r =>
    have := hspent b r rfl
    omega
  case idle => exact absurd h calm
  case pushBottom => exact absurd h.1 calm
  case pushTop => exact absurd h.1 calm
  case pushArray => exact absurd h.1.1 calm
  case resizeArray => exact absurd h.1 calm
  case resizeTop => exact absurd h.pushing.1 calm
  case resizeBottom => exact absurd h.1.pushing.1 calm
  case copyLoad => exact absurd h.1.pushing.1 calm
  case copyStore => exact absurd h.1.pushing.1 calm
  case resizeStore => exact absurd h.1.pushing.1 calm
  case pushReload => exact absurd h.1.1 calm
  case pushSlot => exact absurd h.1.1 calm
  case pushStore => exact absurd h.1.1 calm
  case takeBottom => exact absurd h.1 calm
  case takeArray => exact absurd h.1 calm
  case takeLower => exact absurd h.1 calm

/-- What the last access of a call, if it is one, shows. -/
def returns (u : Who T) (g : Shared V) (pc : Pc V) :
    List (Event (Who T) (Call V) (Option (Result V))) :=
  (answer g pc).toList.map (.ret u)

theorem returns_none (h : answer g pc = none) : returns u g pc = [] := by
  rw [returns, h]
  rfl

theorem returns_some (h : answer g pc = some r) : returns u g pc = [.ret u r] := by
  rw [returns, h]
  rfl

theorem eq_nil_of_view {xs : List V} (h : g.works = []) (hxs : xs.map some = view (T := T) none g) :
    xs = [] :=
  List.map_eq_nil_iff.mp (hxs.trans h)

/-- A step of a thief. -/
theorem thief_explained {t : T} (hi : Inv s) (hspent : Spent s) (h : Explains hist none s)
    (hn : run s.shared (s.thread (.thief t)) = some (g', pc')) :
    Explained (hist ++ returns (.thief t) s.shared (s.thread (.thief t)))
      ⟨g', Function.update s.thread (.thief t) pc'⟩ := by
  have hinv : ThiefInv s.shared (s.thread (.thief t)) := hi.2 (.thief t)
  have hothers := others_status hi hn
  have hf : Frame none s (.thief t) g' := ⟨hothers, fun hne => absurd rfl hne⟩
  have hne : (none : Option (Who T)) ≠ some (.thief t) := (Option.some_ne_none _).symm
  have hlt := hi.1.high_lt
  cases hpc : s.thread (.thief t) <;> rw [hpc] at hinv hn <;> simp only [run] at hn
  case idle => cases hn
  case stealTop =>
    cases hn
    rw [returns_none rfl, List.append_nil]
    exact .inl (h.silent hf rfl fun _ => by rw [hpc]; rfl)
  case stealBottom i =>
    split at hn
    · rename_i hlt
      cases hn
      have hnone : answer s.shared (.stealBottom i) = none := if_pos hlt
      rw [returns_none hnone, List.append_nil]
      exact .inl (h.silent hf rfl fun _ => by rw [hpc]; rfl)
    · rename_i hge
      cases hn
      have hempty : answer s.shared (.stealBottom i) = some (some .empty) := if_neg hge
      rw [returns_some hempty]
      have hcall : status s.shared (s.thread (.thief t)) = .called .steal := by rw [hpc]; rfl
      have hile : i ≤ s.shared.top := hinv
      by_cases hempty : s.shared.high ≤ s.shared.top
      · refine .inl (h.act_ret hf hne hcall fun xs hxs => ?_)
        obtain rfl := eq_nil_of_view (works_nil hempty) hxs
        exact ⟨[], hxs, .inl rfl⟩
      · -- the owner has lowered `bottom` to the last work
        have hrace := racing_of_bottom (hi.2 .owner) (fun b r => hspent b r) (by omega) (by omega)
        obtain ⟨-, hhigh, -⟩ := hrace.lowered (hi.2 .owner)
        have hone : s.shared.works = [s.shared.slot s.shared.top] := by
          rw [works_back (Nat.le_refl _) hhigh.symm, Nat.sub_self]
          rfl
        refine .inr ⟨?_, fun c hc => ?_⟩
        · exact hrace.thief t .idle
        · cases c with
          | owner => exact h.race hone hpc (owner_ne t) (.inl hrace.called)
          | thief v =>
            have hv : Who.thief v ≠ Who.thief t := by
              rintro heq
              simp only [Chance, heq, Function.update_self] at hc
            refine h.race hone hpc hv (.inr ?_)
            simp only [Chance, Function.update_of_ne hv] at hc
            cases hvpc : s.thread (.thief v) <;> rw [hvpc] at hc <;> first | exact hc.elim | rfl
  case stealArray i =>
    cases hn
    rw [returns_none rfl, List.append_nil]
    exact .inl (h.silent hf rfl fun _ => by rw [hpc]; rfl)
  case stealSlot i a =>
    cases hn
    rw [returns_none rfl, List.append_nil]
    exact .inl (h.silent hf rfl fun _ => by rw [hpc]; rfl)
  case stealCas i x =>
    have hcall : status s.shared (s.thread (.thief t)) = .called .steal := by rw [hpc]; rfl
    rw [returns_some rfl]
    split at hn
    · rename_i htop
      cases hn
      rw [if_pos htop]
      obtain ⟨hfront, rfl⟩ := hinv.2 htop.symm
      have hinc : inc i = s.shared.top + 1 := by rw [inc_eq (by omega), htop]
      refine .inl (h.act_ret hf hne hcall fun xs hxs => ?_)
      have hxs' : xs.map some = s.shared.slot s.shared.top :: _ := hxs.trans (works_front (by omega))
      obtain ⟨y, ys, rfl, hy, hys⟩ := List.map_eq_cons_iff.mp hxs'
      refine ⟨ys, hys.trans ?_, .inl ?_⟩
      · simp only [view, if_true, Shared.works, Shared.ret, hinc]
        rfl
      · rw [← htop, ← hy]
        rfl
    · rename_i htop
      cases hn
      rw [if_neg htop]
      exact .inl (h.act_ret hf hne hcall fun xs hxs => ⟨xs, hxs, .inr ⟨rfl, rfl, rfl⟩⟩)
  all_goals exact hinv.elim

/-- The owner goes on in a call without a change of the deque's contents. -/
theorem owner_silent (hi : Inv s) (h : Explains hist none s)
    (hn : run s.shared (s.thread .owner) = some (g', pc')) (htop : g'.top = s.shared.top)
    (hhigh : g'.high = s.shared.high) (hst : status g' pc' = status s.shared (s.thread .owner)) :
    Explains hist none ⟨g', Function.update s.thread .owner pc'⟩ := by
  refine h.silent ⟨others_status hi hn, fun hne => absurd rfl hne⟩ ?_ fun _ => hst
  exact works_congr htop hhigh (run_slot hi.1 (hi.2 .owner) hn)

theorem status_copyLoop (g : Shared V) (w : V) (b a new i e : ℕ) :
    status g (copyLoop w b a new i e) = .called (.push w) := by
  unfold copyLoop
  split <;> rfl

/-- `take` reads `top`. -/
theorem takeTop_explained {b a : ℕ} (hi : Inv s) (h : Explains hist none s)
    (hpc : s.thread .owner = .takeTop b a)
    (hn : run s.shared (.takeTop b a) = some (g', pc')) :
    Explains hist none ⟨g', Function.update s.thread .owner pc'⟩ := by
  have hinv : OwnerInv s.shared (s.thread .owner) := hi.2 .owner
  have hrun : run s.shared (s.thread .owner) = some (g', pc') := by rw [hpc]; exact hn
  have hf : Frame none s .owner g' := ⟨others_status hi hrun, fun hne => absurd rfl hne⟩
  have hne : (none : Option (Who T)) ≠ some .owner := (Option.some_ne_none _).symm
  have hcall : status s.shared (s.thread .owner) = .called .take := by rw [hpc]; rfl
  rw [hpc] at hinv
  obtain ⟨⟨-, hhigh, -⟩, harray⟩ := hinv
  simp only [run] at hn
  split at hn
  · rename_i htop
    cases hn
    -- the last of at least two works
    refine h.act hf hne hcall (r := some (.work (s.shared.slot b))) (fun xs hxs => ?_) ?_
    · have hxs' : xs.map some = _ ++ [s.shared.slot b] := hxs.trans (works_back htop.le hhigh.symm)
      obtain ⟨ys, zs, rfl, hys, hzs⟩ := List.map_eq_append_iff.mp hxs'
      obtain ⟨y, rfl, hy⟩ := List.map_eq_singleton_iff.mp hzs
      refine ⟨ys, hys, .inl ?_⟩
      rw [← hy]
      simp only [listCall, List.dropLast_concat, List.getLast?_concat, Option.elim_some]
    · simp only [status, if_neg (Nat.ne_of_lt htop)]
      rw [harray]
      rfl
  · split at hn
    · rename_i htop
      cases hn
      refine owner_silent hi h hrun rfl rfl ?_
      rw [hcall]
      simp only [status, if_pos htop]
    · cases hn
      refine h.act hf hne hcall (fun xs hxs => ?_) rfl
      obtain rfl := eq_nil_of_view (works_nil (by omega)) hxs
      exact ⟨[], hxs, .inl rfl⟩

/-- `take` tries for the last work. -/
theorem takeCas_explained {b : ℕ} {x : Option V} (hi : Inv s) (h : Explains hist none s)
    (hpc : s.thread .owner = .takeCas b x) (hn : run s.shared (.takeCas b x) = some (g', pc')) :
    Explains hist none ⟨g', Function.update s.thread .owner pc'⟩ := by
  have hinv : OwnerInv s.shared (s.thread .owner) := hi.2 .owner
  have hlt := hi.1.high_lt
  have hrun : run s.shared (s.thread .owner) = some (g', pc') := by rw [hpc]; exact hn
  have hf : Frame none s .owner g' := ⟨others_status hi hrun, fun hne => absurd rfl hne⟩
  have hne : (none : Option (Who T)) ≠ some .owner := (Option.some_ne_none _).symm
  have hcall : status s.shared (s.thread .owner) = .called .take := by rw [hpc]; rfl
  rw [hpc] at hinv
  obtain ⟨⟨-, hhigh, -⟩, hle, hx⟩ := hinv
  simp only [run] at hn
  split at hn
  · rename_i htop
    cases hn
    refine h.act hf hne hcall (fun xs hxs => ?_) rfl
    have hone : s.shared.works = [s.shared.slot b] := by
      rw [works_back htop.le hhigh.symm, htop, Nat.sub_self]
      rfl
    obtain ⟨y, rfl, hy⟩ := List.map_eq_singleton_iff.mp (hxs.trans hone)
    refine ⟨[], ?_, .inl ?_⟩
    · have hnil : Shared.works { s.shared with top := inc b, claimed := [x] } = [] := by
        refine works_nil ?_
        rw [inc_eq (by omega)]
        exact hhigh.ge
      exact hnil.symm
    · rw [hx htop, ← hy]
      rfl
  · cases hn
    refine h.act hf hne hcall (fun xs hxs => ?_) rfl
    obtain rfl := eq_nil_of_view (works_nil (by omega)) hxs
    exact ⟨[], hxs, .inl rfl⟩

/-- A step of the owner. -/
theorem owner_explained (hi : Inv s) (h : Explains hist none s)
    (hn : run s.shared (s.thread .owner) = some (g', pc')) :
    Explains (hist ++ returns .owner s.shared (s.thread .owner)) none
      ⟨g', Function.update s.thread .owner pc'⟩ := by
  have hinv : OwnerInv s.shared (s.thread .owner) := hi.2 .owner
  have hlt := hi.1.high_lt
  have htop := hi.1.top_le
  have hf : Frame none s .owner g' := ⟨others_status hi hn, fun hne => absurd rfl hne⟩
  have hne : (none : Option (Who T)) ≠ some .owner := (Option.some_ne_none _).symm
  have silent := owner_silent hi h hn
  generalize hpc : s.thread .owner = pc at hn hinv silent
  cases pc with
  | takeTop b a =>
    rw [returns_none rfl, List.append_nil]
    exact takeTop_explained hi h hpc hn
  | takeCas b x =>
    rw [returns_none rfl, List.append_nil]
    exact takeCas_explained hi h hpc hn
  | takeSlot b a t =>
    simp only [run] at hn
    split at hn
    · rename_i ht
      cases hn
      have hnone : answer s.shared (.takeSlot b a t) = none := if_pos ht
      rw [returns_none hnone, List.append_nil]
      exact silent rfl rfl (by simp only [status, if_pos ht])
    · rename_i ht
      cases hn
      have hwork : answer s.shared (.takeSlot b a t) = some (some (.work (s.shared.load a b))) :=
        if_neg ht
      rw [returns_some hwork]
      refine h.ret hf hne rfl ?_
      rw [hpc]
      simp only [status, if_neg ht]
  | takeRestore b r =>
    cases hn
    refine h.ret hf hne ?_ (by rw [hpc]; rfl)
    exact works_congr (by cases r <;> rfl) (by cases r <;> rfl) fun j _ _ => by cases r <;> rfl
  | pushStore w b =>
    obtain ⟨⟨hcalm, rfl, hroom⟩, -, hw⟩ := hinv
    cases hn
    have hcall : status s.shared (s.thread .owner) = .called (.push w) := by rw [hpc]; rfl
    refine h.act_ret hf hne hcall fun xs hxs => ⟨xs ++ [w], ?_, .inl rfl⟩
    have hback := works_back (g := { s.shared with
      bottom := inc s.shared.high, high := inc s.shared.high, pushed := w :: s.shared.pushed })
      htop (inc_eq hroom)
    refine Eq.trans ?_ hback.symm
    rw [List.map_append, List.map_singleton, hxs, ← hw]
    rfl
  | pushArray w b t =>
    rw [returns_none rfl, List.append_nil]
    simp only [run] at hn
    split at hn <;> cases hn <;> exact silent rfl rfl rfl
  | resizeBottom w b a new t =>
    rw [returns_none rfl, List.append_nil]
    cases hn
    exact silent rfl rfl (status_copyLoop ..)
  | copyStore w b a new i e x =>
    rw [returns_none rfl, List.append_nil]
    cases hn
    exact silent rfl rfl (status_copyLoop ..)
  | idle => cases hn
  | stealTop | stealBottom | stealArray | stealSlot | stealCas => exact hinv.elim
  | _ =>
    rw [returns_none rfl, List.append_nil]
    cases hn
    exact silent rfl rfl rfl

/-! ### Steps while the race is on -/

theorem chance_update {t : T} {v : Who T} (hv : v ≠ .thief t)
    (h : Chance ⟨s.shared, Function.update s.thread (.thief t) pc'⟩ v) : Chance s v := by
  cases v with
  | owner => trivial
  | thief v => simpa only [Chance, Function.update_of_ne hv] using h

/-- A thief that is out of the race. -/
theorem chance_ne {t : T} {v : Who T} (hout : ¬ Chance ⟨g', Function.update s.thread (.thief t) pc'⟩
      (.thief t)) (h : Chance ⟨g', Function.update s.thread (.thief t) pc'⟩ v) :
    v ≠ .thief t := by
  rintro rfl
  exact hout h

theorem thief_race {t : T} (hi : Inv s) (hrace : Racing s.shared (s.thread .owner))
    (h : ∀ c, Chance s c → Explains hist (some c) s)
    (hn : run s.shared (s.thread (.thief t)) = some (g', pc')) :
    Explained (hist ++ returns (.thief t) s.shared (s.thread (.thief t)))
      ⟨g', Function.update s.thread (.thief t) pc'⟩ := by
  have hinv : ThiefInv s.shared (s.thread (.thief t)) := hi.2 (.thief t)
  have hothers := others_status hi hn
  obtain ⟨hbot, hhigh, -⟩ := hrace.lowered (hi.2 .owner)
  -- the thief goes on, and the same threads as before may win
  have stay (hg : g' = s.shared) (hst : status g' pc' = status s.shared (s.thread (.thief t)))
      (hc : Chance ⟨s.shared, Function.update s.thread (.thief t) pc'⟩ (.thief t) →
        Chance s (.thief t)) :
      Explained hist ⟨g', Function.update s.thread (.thief t) pc'⟩ := by
    subst hg
    refine .inr ⟨hrace.thief t pc', fun c hchance => ?_⟩
    have hold : Chance s c := by
      by_cases hct : c = .thief t
      · exact hct ▸ hc (hct ▸ hchance)
      · exact chance_update hct hchance
    exact (h c hold).silent ⟨hothers, fun _ => rfl⟩ rfl fun _ => hst
  -- the thief leaves with nothing
  have leave {r : Option (Result V)} (hg : g' = s.shared) (hpc' : pc' = .idle)
      (hcall : status s.shared (s.thread (.thief t)) = .called .steal)
      (hr : (list V).effect [] .steal r []) :
      Explained (hist ++ [.ret (.thief t) r]) ⟨g', Function.update s.thread (.thief t) pc'⟩ := by
    subst hg
    subst hpc'
    refine .inr ⟨hrace.thief t .idle, fun c hchance => ?_⟩
    have hct := chance_ne (by simp only [Chance, Function.update_self]; exact id) hchance
    have hne : (some c : Option (Who T)) ≠ some (.thief t) := fun he => hct (Option.some.inj he)
    refine (h c (chance_update hct hchance)).act_ret ⟨hothers, fun _ => rfl⟩ hne hcall fun xs hxs => ?_
    obtain rfl := List.map_eq_nil_iff.mp hxs
    exact ⟨[], rfl, hr⟩
  cases hpc : s.thread (.thief t) <;> rw [hpc] at hinv hn stay leave <;> simp only [run] at hn
  case idle => cases hn
  case stealTop =>
    rw [returns_none rfl, List.append_nil]
    cases hn
    refine stay rfl rfl fun hc => ?_
    simp only [Chance, Function.update_self] at hc
  case stealBottom i =>
    split at hn
    · rename_i hlt
      have hnone : answer s.shared (.stealBottom i) = none := if_pos hlt
      rw [returns_none hnone, List.append_nil]
      cases hn
      refine stay rfl rfl fun hc => ?_
      simp only [Chance, Function.update_self] at hc
      omega
    · rename_i hge
      have hempty : answer s.shared (.stealBottom i) = some (some .empty) := if_neg hge
      rw [returns_some hempty]
      cases hn
      exact leave rfl rfl rfl (.inl rfl)
  case stealArray i =>
    rw [returns_none rfl, List.append_nil]
    cases hn
    refine stay rfl rfl fun hc => ?_
    simp only [Chance, Function.update_self] at hc
    simpa only [Chance, hpc] using hc
  case stealSlot i a =>
    rw [returns_none rfl, List.append_nil]
    cases hn
    refine stay rfl rfl fun hc => ?_
    simp only [Chance, Function.update_self] at hc
    simpa only [Chance, hpc] using hc
  case stealCas i x =>
    rw [returns_some rfl]
    split at hn
    · rename_i htop
      rw [if_pos htop]
      cases hn
      have hwon := h (.thief t) (by simp only [Chance, hpc]; exact htop.symm)
      rw [(hinv.2 htop.symm).2, ← htop]
      refine .inl (hwon.won_ret hothers (works_nil ?_))
      have hlt := hi.1.high_lt
      have hinc : inc s.shared.top = s.shared.top + 1 := inc_eq (by omega)
      change s.shared.high ≤ inc s.shared.top
      rw [hinc]
      exact hhigh.ge
    · rename_i htop
      rw [if_neg htop]
      cases hn
      exact leave rfl rfl rfl (.inr ⟨rfl, rfl, rfl⟩)
  all_goals exact hinv.elim

theorem owner_race (hi : Inv s) (hrace : Racing s.shared (s.thread .owner))
    (h : ∀ c, Chance s c → Explains hist (some c) s)
    (hn : run s.shared (s.thread .owner) = some (g', pc')) :
    Explained (hist ++ returns .owner s.shared (s.thread .owner))
      ⟨g', Function.update s.thread .owner pc'⟩ := by
  have hinv : OwnerInv s.shared (s.thread .owner) := hi.2 .owner
  have hothers := others_status hi hn
  obtain ⟨hbot, hhigh, -⟩ := hrace.lowered (hi.2 .owner)
  have stay (hg : g' = s.shared) (hst : status g' pc' = status s.shared (s.thread .owner))
      (hrace' : Racing s.shared pc') : Explained hist ⟨g', Function.update s.thread .owner pc'⟩ := by
    subst hg
    refine .inr ⟨?_, fun c hchance => ?_⟩
    · simpa only [Function.update_self] using hrace'
    have hold : Chance s c := by
      cases c with
      | owner => trivial
      | thief v =>
        simpa only [Chance, Function.update_of_ne (owner_ne v).symm] using hchance
    exact (h c hold).silent ⟨hothers, fun _ => rfl⟩ rfl fun _ => hst
  have hwon := h .owner trivial
  generalize hpc : s.thread .owner = pc at hn hrace hinv stay
  cases pc <;> simp only [Racing] at hrace <;> simp only [run] at hn
  case takeTop b a =>
    rw [returns_none rfl, List.append_nil]
    rw [if_neg (by omega), if_pos hrace.symm] at hn
    cases hn
    refine stay rfl ?_ ⟨hrace.symm, hrace⟩
    simp only [status, if_pos hrace.symm]
  case takeSlot b a t =>
    have hnone : answer s.shared (.takeSlot b a t) = none := if_pos hrace.1
    rw [returns_none hnone, List.append_nil]
    rw [if_pos hrace.1] at hn
    cases hn
    refine stay rfl ?_ hrace.2
    simp only [status, if_pos hrace.1]
  case takeCas b x =>
    rw [returns_none rfl, List.append_nil]
    rw [if_pos hrace.symm] at hn
    cases hn
    refine .inl (hwon.won hothers (works_nil ?_) ?_)
    · have hlt := hi.1.high_lt
      have hinc : inc b = s.shared.top + 1 := by rw [inc_eq (by omega), hrace]
      rw [← hinc] at hhigh
      exact hhigh.ge
    · rw [hinv.2.2 hrace.symm, hrace]
      rfl

/-! ### The histories of the deque -/

theorem spent_step (hi : Inv s) (h : Spent s) (hn : run s.shared (s.thread u) = some (g', pc')) :
    Spent ⟨g', Function.update s.thread u pc'⟩ := by
  have hlt := hi.1.high_lt
  intro b r hpc
  cases u with
  | owner =>
    have hinv : OwnerInv s.shared (s.thread .owner) := hi.2 .owner
    simp only [Function.update_self] at hpc
    subst hpc
    generalize s.thread .owner = pc at hn hinv
    cases pc <;> simp only [run] at hn <;> simp only [OwnerInv] at hinv
    case takeTop b a =>
      obtain ⟨⟨-, hhigh, -⟩, -⟩ := hinv
      split at hn
      · cases hn
      · split at hn <;> cases hn
        change s.shared.high ≤ s.shared.top
        omega
    case takeCas b x =>
      obtain ⟨⟨-, hhigh, -⟩, hle, -⟩ := hinv
      split at hn <;> cases hn
      · change s.shared.high ≤ inc b
        rw [inc_eq (by omega)]
        exact hhigh.ge
      · change s.shared.high ≤ s.shared.top
        omega
    case pushArray | takeSlot => split at hn <;> cases hn
    case resizeBottom | copyStore =>
      simp only [copyLoop, Option.some.injEq, Prod.mk.injEq] at hn
      obtain ⟨-, hn⟩ := hn
      split at hn <;> cases hn
    all_goals first
      | exact hinv.elim
      | cases hn
  | thief t =>
    simp only [Function.update_of_ne (owner_ne t)] at hpc
    have hspent := h b r hpc
    obtain ⟨hmove, -⟩ := thief_step hi.1 (hi.2 (.thief t)) hn
    cases hmove with
    | same => exact hspent
    | top x hlt => omega

theorem explained_run (hi : Inv s) (hspent : Spent s) (h : Explained hist s)
    (hn : run s.shared (s.thread u) = some (g', pc')) :
    Explained (hist ++ returns u s.shared (s.thread u)) ⟨g', Function.update s.thread u pc'⟩ := by
  rcases h with h | ⟨hrace, h⟩
  · cases u with
    | owner => exact .inl (owner_explained hi h hn)
    | thief t => exact thief_explained hi hspent h hn
  · cases u with
    | owner => exact owner_race hi hrace h hn
    | thief t => exact thief_race hi hrace h hn

/-- A thread enters a call. -/
theorem explained_call {o : Call V} (h : Explained hist s) (hidle : s.thread u = .idle)
    (hst : status s.shared pc' = .called o) (hchance : ∀ t, u = .thief t → pc' = .stealTop) :
    Explained (hist ++ [.call u o]) ⟨s.shared, Function.update s.thread u pc'⟩ := by
  rcases h with h | ⟨hrace, h⟩
  · exact .inl (h.call (Option.some_ne_none u).symm hidle hst)
  · cases u with
    | owner =>
      rw [hidle] at hrace
      exact hrace.elim
    | thief t =>
      obtain rfl := hchance t rfl
      refine .inr ⟨hrace.thief t .stealTop, fun c hc => ?_⟩
      have hct := chance_ne (by simp only [Chance, Function.update_self]; exact id) hc
      exact (h c (chance_update hct hc)).call (fun he => hct (Option.some.inj he)) hidle hst

theorem next_run (u : Who T) (g : Shared V) (pc : Pc V) : next u g pc .run = run g pc := by
  cases u <;> cases pc <;> rfl

/-- A step shows the call that it begins, or what the next access of a call returns. -/
theorem explained_step {a : Act V} (hi : Inv s) (hspent : Spent s) (h : Explained hist s)
    (hn : next u s.shared (s.thread u) a = some (g', pc')) :
    Spent ⟨g', Function.update s.thread u pc'⟩ ∧
      Explained (hist ++ observe s (u, a)) ⟨g', Function.update s.thread u pc'⟩ := by
  have spent (hg : g' = s.shared) (hpc' : ∀ b r, pc' ≠ .takeRestore b r) :
      Spent ⟨g', Function.update s.thread u pc'⟩ := by
    subst hg
    intro b r hpc
    rcases eq_or_ne Who.owner u with hu | hu
    · subst hu
      simp only [Function.update_self] at hpc
      exact absurd hpc (hpc' b r)
    · simp only [Function.update_of_ne hu] at hpc
      exact hspent b r hpc
  cases a with
  | run =>
    rw [next_run] at hn
    exact ⟨spent_step hi hspent hn, explained_run hi hspent h hn⟩
  | push w =>
    cases u with
    | thief t => cases hpc : s.thread (.thief t) <;> rw [hpc] at hn <;> cases hn
    | owner =>
      cases hpc : s.thread .owner <;> rw [hpc] at hn <;> cases hn
      exact ⟨spent rfl nofun, explained_call h hpc rfl nofun⟩
  | take =>
    cases u with
    | thief t => cases hpc : s.thread (.thief t) <;> rw [hpc] at hn <;> cases hn
    | owner =>
      cases hpc : s.thread .owner <;> rw [hpc] at hn <;> cases hn
      exact ⟨spent rfl nofun, explained_call h hpc rfl nofun⟩
  | steal =>
    cases u with
    | owner => cases hpc : s.thread .owner <;> rw [hpc] at hn <;> cases hn
    | thief t =>
      cases hpc : s.thread (.thief t) <;> rw [hpc] at hn <;> cases hn
      exact ⟨spent rfl nofun, explained_call h hpc rfl fun _ _ => rfl⟩

/-- What the threads see of the deque, for any number of thieves and any interleaving, they could see
of a list whose calls take effect at once; with no call in progress this list is in the deque. -/
theorem linearizable {sizeHint : ℕ} (hsize : 1 ≤ sizeHint)
    (hr : (system T V sizeHint).Trace Ok observe hist s) :
    ∃ q, (list V).History hist q ∧ ((∀ u, s.thread u = .idle) → q.object.map some =
      (List.range' s.shared.top (s.shared.bottom - s.shared.top)).map s.shared.slot) := by
  have hboth : Spent s ∧ Explained hist s := by
    refine hr.invariant (P := fun hist s => Spent s ∧ Explained hist s) ?_ ?_
    · rintro s rfl
      refine ⟨fun b r hpc => (by cases hpc), .inl ⟨[], rfl, ?_⟩⟩
      exact .start
    · rintro hist s ⟨u, a⟩ s' hreach ⟨hspent, h⟩ _ hn
      obtain ⟨g', pc', hnext, rfl⟩ := Threads.step_cases hn
      exact explained_step (inv_reachable hsize hreach) hspent h hnext
  have howner : OwnerInv s.shared (s.thread .owner) := (inv_reachable hsize hr.reachable).2 .owner
  rcases hboth.2 with ⟨xs, hxs, hh⟩ | ⟨hrace, h⟩
  · refine ⟨_, hh, fun hidle => ?_⟩
    rw [hidle] at howner
    rw [howner.1]
    exact hxs
  · obtain ⟨xs, -, hh⟩ := h .owner trivial
    refine ⟨_, hh, fun hidle => ?_⟩
    rw [hidle] at hrace
    exact hrace.elim

/-- A thief steals the first of two works while the owner takes the second. -/
theorem linearizable_grow : ∃ q : State (Who Bool) (List ℕ) (Call ℕ) (Option (Result ℕ)),
    (list ℕ).History [.call .owner (.push 7), .ret .owner none, .call .owner (.push 8),
      .ret .owner none, .call (.thief true) .steal, .call .owner .take,
      .ret (.thief true) (some (.work (some 7))), .ret .owner (some (.work (some 8)))] q := by
  let check (s : Config (Who Bool) (Shared ℕ) (Pc ℕ)) (a : Who Bool × Act ℕ) : Bool :=
    match a.2 with
    | .take => !s.shared.pushed.isEmpty
    | .push _ => decide (s.shared.bottom + 1 < 2 ^ 64)
    | _ => true
  have hcheck : ∀ s a, check s a = true → Ok s a := by
    rintro s ⟨u, a⟩ h
    cases a <;> simp_all [check, Ok]
  have hrun : ((system Bool ℕ 1).exec check (start _ _ 1) growSchedule).isSome = true := by
    decide +kernel
  have hevents : (system Bool ℕ 1).record observe (start _ _ 1) growSchedule =
      [.call .owner (.push 7), .ret .owner none, .call .owner (.push 8), .ret .owner none,
        .call (.thief true) .steal, .call .owner .take,
        .ret (.thief true) (some (.work (some 7))), .ret .owner (some (.work (some 8)))] := by
    decide +kernel
  obtain ⟨s, hs⟩ := Option.isSome_iff_exists.mp hrun
  have hinit : (system Bool ℕ 1).Trace Ok observe [] (start _ _ 1) := .init rfl
  have htrace := hinit.of_exec hcheck hs
  rw [List.nil_append, hevents] at htrace
  obtain ⟨q, hq, -⟩ := linearizable (Nat.le_refl 1) htrace
  exact ⟨q, hq⟩

end LinuxSummer.WorkSteal
