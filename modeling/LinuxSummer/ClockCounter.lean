import Mathlib.Tactic.Ring
import LinuxSummer.ClockGraph
import LinuxSummer.RippleCounter

/-! The clock graph is a binary counter: the bit of each node is a digit, and one signal or tick at
a time is under way. -/
namespace LinuxSummer.ClockGraph
open Monitor Ripple
set_option linter.unusedSectionVars false

/-- The tick or the signal of the current turn is done. -/
def Pc.acted : Pc → Bool
  | .tick .unlock | .tick .broadcast | .signal _ .unlock | .signal _ .signal => true
  | _ => false

/-- How many ticks and signals the node has made. -/
def Loc.moves (l : Loc) : ℕ := l.i - 1 + if l.pc.acted then 1 else 0

theorem moves_idle {l : Loc} (h : l.pc.acted = false) : l.moves = l.i - 1 := by
  rw [Loc.moves, h]
  rfl

theorem moves_acted {l : Loc} (h : l.pc.acted = true) : l.moves = l.i - 1 + 1 := by
  rw [Loc.moves, h]
  rfl

variable {N : ℕ}

def digits (l : Thread N → Loc) (j : ℕ) : ℕ := if h : j < N then (l (.node ⟨j, h⟩)).moves else 0

/-- The node has taken its tick of the clock, or the signal of its parent, and not yet acted. -/
def Carrying (self : Fin N) : Pc → Prop
  | .wait (.unlock _) => self.val = 0
  | .nodeWait .unlock => True
  | .tick .lock | .tick .set | .signal false .lock | .signal false .set => True
  | _ => False

/-- A node before `clock_stop`. -/
def NodeOk (self : Fin N) (d : Data N) (l : Loc) : Prop :=
  1 ≤ l.i ∧ (l.bit = true ↔ l.i % 2 = 0) ∧
  match l.pc with
  | .start => True
  | .wait .ret => l.i ≤ d.ticks
  | .wait (.unlock ret) => ret = true
  | .wait _ => True
  | .nodeWait p => ∃ node, parent self = some node ∧ (p = .clear → d.ready node = true)
  | .tick _ => l.bit = false
  | .signal last _ => last = false ∧ l.bit = true
  | _ => False

/-- `main` before `clock_stop`. -/
def MainOk (d : Data N) (l : Loc) : Prop :=
  match l.pc with
  | .create => d.created = l.i ∧ l.i ≤ N
  | .tick _ | .wait _ | .stop .lock | .stop .set => d.created = N
  | _ => False

/-- `main` has made its tick. -/
def Ticked : Pc → Prop
  | .create | .tick .lock | .tick .set => False
  | _ => True

/-- `clock_stop` has set the clock. -/
def Stopping : Pc → Prop
  | .stop .unlock | .stop .broadcast | .join | .done => True
  | _ => False

/-- The state before `clock_stop`, with the token at `k`: the clock and the turns of the nodes are
a counter, and the ready flag of a node is the token on its way to the child. -/
structure Running (d : Data N) (l : Thread N → Loc) (k : ℕ) : Prop where
  ticks : 0 ≤ d.ticks
  counter : Counter N d.ticks.toNat (digits l) k
  bound : k ≤ N + 1
  unborn : k = N + 1 ↔ ¬ Ticked (l .main).pc
  carrying : ∀ self, Carrying self (l (.node self)).pc → k = self
  ready : ∀ n : Fin N, d.ready n = true ↔
    k = n + 1 ∧ ∀ self : Fin N, self.val = n + 1 → ¬ Carrying self (l (.node self)).pc
  node : ∀ self, NodeOk self d (l (.node self))
  main : MainOk d (l .main)

section Steps
variable {d d' : Data N} {l : Thread N → Loc} {k : ℕ} {self : Fin N} {loc : Loc}

theorem parent_eq {node : Fin N} : parent self = some node ↔ self.val = node + 1 := by
  unfold parent
  split
  · rw [Option.some.injEq, Fin.ext_iff]
    simp only
    omega
  · simp only [reduceCtorEq, false_iff]
    omega

theorem update_node_main : Function.update l (.node self) loc .main = l .main := by
  simp

theorem update_node_node (u : Fin N) :
    Function.update l (.node self) loc (.node u) = if u = self then loc else l (.node u) := by
  by_cases h : u = self
  · subst h
    simp
  · simp [h]

theorem digits_update : digits (Function.update l (.node self) loc) =
    Function.update (digits l) self loc.moves := by
  funext j
  unfold digits
  by_cases hj : j = self
  · subst hj
    simp
  · rw [Function.update_of_ne hj]
    split
    · rename_i h
      rw [update_node_node, if_neg (fun he => hj (by rw [← he]))]
    · rfl

theorem digits_self (self : Fin N) : digits l self = (l (.node self)).moves := by
  simp [digits]

theorem digits_main : digits (Function.update l .main loc) = digits l := by
  funext j
  unfold digits
  simp

/-- What a node knows stays true while the clock does not go back and its parent stays ready. -/
theorem NodeOk.mono {l : Loc} (h : NodeOk self d l) (hticks : d.ticks ≤ d'.ticks)
    (hready : ∀ node, parent self = some node → d.ready node = true → d'.ready node = true) :
    NodeOk self d' l := by
  obtain ⟨hi, hbit, hpc⟩ := h
  refine ⟨hi, hbit, ?_⟩
  split at hpc
  case h_2 => exact le_trans hpc hticks
  case h_5 =>
    obtain ⟨node, hnode, hclear⟩ := hpc
    exact ⟨node, hnode, fun hp => hready node hnode (hclear hp)⟩
  all_goals exact hpc

/-- A step of a node that neither takes the token nor passes it on. -/
theorem Running.quiet (h : Running d l k) (hmoves : loc.moves = (l (.node self)).moves)
    (hcarry : Carrying self loc.pc ↔ Carrying self (l (.node self)).pc) (hok : NodeOk self d loc) :
    Running d (Function.update l (.node self) loc) k := by
  have hsame (u : Fin N) : Carrying u (Function.update l (.node self) loc (.node u)).pc ↔
      Carrying u (l (.node u)).pc := by
    rw [update_node_node]
    split
    · rename_i hu
      rw [hu]
      exact hcarry
    · rfl
  refine ⟨h.ticks, ?_, h.bound, ?_, fun u hu => h.carrying u ((hsame u).mp hu), fun n => ?_,
    fun u => ?_, ?_⟩
  · rw [digits_update, hmoves, ← digits_self, Function.update_eq_self]
    exact h.counter
  · rw [update_node_main]
    exact h.unborn
  · simp only [hsame]
    exact h.ready n
  · rw [update_node_node]
    split
    · rename_i hu
      rw [hu]
      exact hok
    · exact h.node u
  · rw [update_node_main]
    exact h.main

/-- The node where the token is takes it. -/
theorem Running.take (h : Running d l k) (hk : k = self)
    (hmoves : loc.moves = (l (.node self)).moves) (hcarry : Carrying self loc.pc)
    (hticks : d'.ticks = d.ticks) (hcreated : d'.created = d.created)
    (hready : ∀ n, d'.ready n = true ↔ d.ready n = true ∧ self.val ≠ n + 1)
    (hok : NodeOk self d' loc) : Running d' (Function.update l (.node self) loc) k := by
  refine ⟨hticks ▸ h.ticks, ?_, h.bound, ?_, fun u hu => ?_, fun n => ?_, fun u => ?_, ?_⟩
  · rw [digits_update, hmoves, ← digits_self, Function.update_eq_self, hticks]
    exact h.counter
  · rw [update_node_main]
    exact h.unborn
  · rw [update_node_node] at hu
    split at hu
    · rename_i he
      rw [he, hk]
    · exact h.carrying u hu
  · have hself : Carrying self (Function.update l (.node self) loc (.node self)).pc := by
      simpa using hcarry
    constructor
    · intro hr
      obtain ⟨hold, hne⟩ := (hready n).mp hr
      exact absurd (hk.symm.trans ((h.ready n).mp hold).1) hne
    · rintro ⟨hkn, hnone⟩
      exact absurd hself (hnone self (hk.symm.trans hkn))
  · rw [update_node_node]
    split
    · rename_i hu
      rw [hu]
      exact hok
    · rename_i hu
      refine (h.node u).mono hticks.ge fun node hnode hr => (hready node).mpr ⟨hr, fun he => hu ?_⟩
      exact Fin.ext ((parent_eq.mp hnode).trans he.symm)
  · rw [update_node_main]
    have hmain := h.main
    unfold MainOk at hmain ⊢
    rw [hcreated]
    exact hmain

/-- Only the node where the token is carries it, and no flag is set then. -/
theorem Running.alone (h : Running d l k) (hcarry : Carrying self (l (.node self)).pc) :
    k = self ∧ (∀ u, u ≠ self → ¬ Carrying u (l (.node u)).pc) ∧ ∀ n, d.ready n = false := by
  have hk := h.carrying self hcarry
  refine ⟨hk, fun u hu hc => hu ?_, fun n => ?_⟩
  · exact Fin.ext ((h.carrying u hc).symm.trans hk)
  · by_contra hr
    obtain ⟨hkn, hnone⟩ := (h.ready n).mp (by simpa using hr)
    exact hnone self (hk.symm.trans hkn) hcarry

/-- A node whose bit is clear sets it and ticks: the token is back at the first node. -/
theorem Running.tick (h : Running d l k) (hcarry : Carrying self (l (.node self)).pc)
    (heven : (l (.node self)).moves % 2 = 0) (hmoves : loc.moves = (l (.node self)).moves + 1)
    (hdone : ¬ Carrying self loc.pc) (hok : ∀ d : Data N, NodeOk self d loc) :
    Running { d with ticks := d.ticks + 1 } (Function.update l (.node self) loc) 0 := by
  obtain ⟨hk, hothers, hnone⟩ := h.alone hcarry
  have hpos := h.ticks
  have hself := self.isLt
  have nobody (u : Fin N) : ¬ Carrying u (Function.update l (.node self) loc (.node u)).pc := by
    rw [update_node_node]
    split
    · rename_i hu
      rw [hu]
      exact hdone
    · rename_i hu
      exact hothers u hu
  refine ⟨by simp only; omega, ?_, by omega, ?_, fun u hu => absurd hu (nobody u), fun n => ?_,
    fun u => ?_, ?_⟩
  · have hc := h.counter
    rw [hk] at hc
    have hnext := hc.tick hself (by rw [digits_self]; exact heven)
    have hcast : (d.ticks + 1).toNat = d.ticks.toNat + 1 := by omega
    rw [digits_update, hmoves, ← digits_self, hcast]
    exact hnext
  · rw [update_node_main]
    have hun := h.unborn
    rw [hk] at hun
    simp only [← hun]
    omega
  · simp only [hnone n]
    simp
  · rw [update_node_node]
    split
    · rename_i hu
      rw [hu]
      exact hok _
    · exact (h.node u).mono (by simp) fun _ _ hr => hr
  · rw [update_node_main]
    exact h.main

/-- A node whose bit is set clears it and signals: the token goes to its child. -/
theorem Running.signal (h : Running d l k) (hcarry : Carrying self (l (.node self)).pc)
    (hodd : (l (.node self)).moves % 2 = 1) (hmoves : loc.moves = (l (.node self)).moves + 1)
    (hdone : ¬ Carrying self loc.pc) (hok : ∀ d : Data N, NodeOk self d loc) :
    Running { d with ready := Function.update d.ready self true }
      (Function.update l (.node self) loc) (self + 1) := by
  obtain ⟨hk, hothers, hnone⟩ := h.alone hcarry
  have hself := self.isLt
  have nobody (u : Fin N) : ¬ Carrying u (Function.update l (.node self) loc (.node u)).pc := by
    rw [update_node_node]
    split
    · rename_i hu
      rw [hu]
      exact hdone
    · rename_i hu
      exact hothers u hu
  refine ⟨h.ticks, ?_, by omega, ?_, fun u hu => absurd hu (nobody u), fun n => ?_, fun u => ?_, ?_⟩
  · have hc := h.counter
    rw [hk] at hc
    have hnext := hc.carry hself (by rw [digits_self]; exact hodd)
    rw [digits_update, hmoves, ← digits_self]
    exact hnext
  · rw [update_node_main]
    have hun := h.unborn
    rw [hk] at hun
    rw [← hun]
    omega
  · by_cases hn : n = self
    · subst hn
      simp [nobody]
    · have hval : (self : ℕ) ≠ n := fun he => hn (Fin.ext he.symm)
      simp [Function.update_of_ne hn, hnone n, hval]
  · rw [update_node_node]
    split
    · rename_i hu
      rw [hu]
      exact hok _
    · refine (h.node u).mono (Int.le_refl _) fun node _ hr => ?_
      simp only [hnone node] at hr
      cases hr
  · rw [update_node_main]
    exact h.main

theorem parent_isSome : (parent self).isSome ↔ self.val ≠ 0 := by
  unfold parent
  split <;> simp <;> omega

theorem carrying_action : Carrying self loc.action.pc := by
  unfold Loc.action Loc.goto
  cases loc.bit <;> exact trivial

theorem acted_action : loc.action.pc.acted = false := by
  unfold Loc.action Loc.goto
  cases loc.bit <;> rfl

theorem nodeOk_action (hi : 1 ≤ loc.i) (hbit : loc.bit = true ↔ loc.i % 2 = 0) :
    NodeOk self d loc.action := by
  refine ⟨hi, hbit, ?_⟩
  unfold Loc.action Loc.goto
  cases hb : loc.bit <;> simp

theorem nodeOk_again (hbit : loc.bit = true ↔ loc.i % 2 = 0) : NodeOk self d loc.again := by
  refine ⟨by simp [Loc.again], ?_, trivial⟩
  unfold Loc.again
  cases hb : loc.bit <;> simp [hb] at hbit ⊢ <;> omega

variable {b : Bool}

theorem Running.node_step (h : Running d l k)
    (he : Edge b (threadFunc self (l (.node self))) d d' loc) :
    ∃ k', Running d' (Function.update l (.node self) loc) k' := by
  have hok := h.node self
  generalize hl : l (.node self) = l₀ at he hok
  obtain ⟨pc, i, bit⟩ := l₀
  obtain ⟨hi, hbit, hpc⟩ := hok
  simp only at hi hbit hpc
  have hidle (hact : pc.acted = false) : (l (.node self)).moves = i - 1 := by
    rw [hl]
    exact moves_idle hact
  have hacted (hact : pc.acted = true) : (l (.node self)).moves = i - 1 + 1 := by
    rw [hl]
    exact moves_acted hact
  have hpcs : (l (.node self)).pc = pc := by rw [hl]
  cases pc with
  | start =>
    simp only [threadFunc, Edge] at he
    split at he <;> cases he
    exact ⟨k, h.quiet (hidle rfl).symm (by rw [hpcs]; exact Iff.rfl) ⟨hi, hbit, trivial⟩⟩
  | wait p =>
    cases p with
    | lock =>
      obtain ⟨rfl, rfl⟩ := he
      exact ⟨k, h.quiet (hidle rfl).symm (by rw [hpcs]; exact Iff.rfl) ⟨hi, hbit, trivial⟩⟩
    | test =>
      cases he
      have hpos := h.ticks
      by_cases hlt : d.ticks ≥ 0 ∧ d.ticks < i
      · simp only [hlt, and_self, if_true]
        exact ⟨k, h.quiet (hidle rfl).symm (by rw [hpcs]; exact Iff.rfl) ⟨hi, hbit, trivial⟩⟩
      · simp only [hlt, if_false]
        exact ⟨k, h.quiet (hidle rfl).symm (by rw [hpcs]; exact Iff.rfl)
          ⟨hi, hbit, by simp only [Loc.goto]; omega⟩⟩
    | cond =>
      obtain ⟨rfl, rfl⟩ := he
      exact ⟨k, h.quiet (hidle rfl).symm (by rw [hpcs]; exact Iff.rfl) ⟨hi, hbit, trivial⟩⟩
    | ret =>
      cases he
      have hge : (decide (d.ticks ≥ (i : ℤ))) = true := by simpa using hpc
      by_cases h0 : self.val = 0
      · -- the first node takes the tick
        have hk : k = self := by
          have hc := h.counter.ticks_eq
          have hd : digits l 0 = i - 1 := by
            rw [← hidle rfl, ← digits_self, h0]
          rw [hd] at hc
          split at hc
          · omega
          · omega
        exact ⟨k, h.take hk (hidle rfl).symm h0 rfl rfl (fun n => by simp [h0])
          ⟨hi, hbit, hge⟩⟩
      · exact ⟨k, h.quiet (hidle rfl).symm (by rw [hpcs]; simp [Carrying, Loc.goto, h0])
          ⟨hi, hbit, hge⟩⟩
    | unlock ret =>
      obtain ⟨rfl, rfl⟩ := he
      obtain rfl : ret = true := hpc
      simp only [if_true]
      by_cases h0 : self.val = 0
      · rw [if_neg (by simp [parent_isSome, h0])]
        exact ⟨k, h.quiet ((moves_idle acted_action).trans (hidle rfl).symm)
          (by rw [hpcs]; exact iff_of_true carrying_action h0) (nodeOk_action hi hbit)⟩
      · obtain ⟨node, hnode⟩ := Option.isSome_iff_exists.mp (parent_isSome.mpr h0)
        rw [if_pos (by simp [hnode])]
        exact ⟨k, h.quiet (hidle rfl).symm (by rw [hpcs]; simp [Carrying, Loc.goto, h0])
          ⟨hi, hbit, node, hnode, by simp⟩⟩
  | nodeWait p =>
    obtain ⟨node, hnode, hclear⟩ := hpc
    simp only [threadFunc, hnode] at he
    cases p with
    | lock | cond =>
      obtain ⟨rfl, rfl⟩ := he
      exact ⟨k, h.quiet (hidle rfl).symm (by rw [hpcs]; exact Iff.rfl)
        ⟨hi, hbit, node, hnode, by simp⟩⟩
    | test =>
      cases he
      cases hr : d.ready node with
      | false =>
        exact ⟨k, h.quiet (hidle rfl).symm (by rw [hpcs]; exact Iff.rfl)
          ⟨hi, hbit, node, hnode, by simp⟩⟩
      | true =>
        exact ⟨k, h.quiet (hidle rfl).symm (by rw [hpcs]; exact Iff.rfl)
          ⟨hi, hbit, node, hnode, fun _ => hr⟩⟩
    | clear =>
      -- the child takes the signal
      cases he
      have hk : k = self := ((h.ready node).mp (hclear rfl)).1.trans (parent_eq.mp hnode).symm
      refine ⟨k, h.take hk (hidle rfl).symm trivial rfl rfl (fun n => ?_)
        ⟨hi, hbit, node, hnode, by simp⟩⟩
      have hself := parent_eq.mp hnode
      by_cases hn : n = node
      · subst hn
        simp [hself]
      · have hval : (node : ℕ) ≠ n := fun hv => hn (Fin.ext hv.symm)
        simp [Function.update_of_ne hn, hself, hval]
    | unlock =>
      obtain ⟨rfl, rfl⟩ := he
      exact ⟨k, h.quiet ((moves_idle acted_action).trans (hidle rfl).symm)
        (by rw [hpcs]; exact iff_of_true carrying_action trivial) (nodeOk_action hi hbit)⟩
  | tick p =>
    cases p with
    | lock =>
      obtain ⟨rfl, rfl⟩ := he
      exact ⟨k, h.quiet (hidle rfl).symm (by rw [hpcs]; exact Iff.rfl) ⟨hi, hbit, hpc⟩⟩
    | set =>
      cases he
      simp only [h.ticks, if_true]
      have hodd : i % 2 = 1 := by
        simp only [hpc] at hbit
        simp at hbit
        omega
      refine ⟨0, h.tick (by rw [hpcs]; trivial) ?_ ?_ (by simp [Carrying, Loc.goto])
        fun d => ⟨hi, hbit, hpc⟩⟩
      · rw [hidle rfl]
        omega
      · rw [hidle rfl]
        rfl
    | unlock =>
      obtain ⟨rfl, rfl⟩ := he
      exact ⟨k, h.quiet (hacted rfl).symm (by rw [hpcs]; exact Iff.rfl) ⟨hi, hbit, hpc⟩⟩
    | broadcast =>
      obtain ⟨rfl, rfl⟩ := he
      refine ⟨k, h.quiet ?_ (by rw [hpcs]; exact Iff.rfl) (nodeOk_again hbit)⟩
      rw [hacted rfl, moves_idle rfl]
      simp only [Loc.again]
      omega
  | signal last p =>
    obtain ⟨rfl, hbit'⟩ := hpc
    cases p with
    | lock =>
      obtain ⟨rfl, rfl⟩ := he
      exact ⟨k, h.quiet (hidle rfl).symm (by rw [hpcs]; exact Iff.rfl)
        ⟨hi, hbit, rfl, hbit'⟩⟩
    | set =>
      cases he
      refine ⟨self + 1, h.signal (by rw [hpcs]; trivial) ?_ ?_ (by simp [Carrying, Loc.goto])
        fun d => ⟨hi, hbit, rfl, hbit'⟩⟩
      · rw [hidle rfl]
        have := hbit.mp hbit'
        omega
      · rw [hidle rfl]
        rfl
    | unlock =>
      obtain ⟨rfl, rfl⟩ := he
      exact ⟨k, h.quiet (hacted rfl).symm (by rw [hpcs]; exact Iff.rfl)
        ⟨hi, hbit, rfl, hbit'⟩⟩
    | signal =>
      obtain ⟨rfl, rfl⟩ := he
      refine ⟨k, h.quiet ?_ (by rw [hpcs]; exact Iff.rfl) (nodeOk_again hbit)⟩
      rw [hacted rfl]
      exact (moves_idle rfl).trans (by simp only [Bool.false_eq_true, if_false, Loc.again]; omega)
  | create | stop | join | leave | done => exact hpc.elim

/-- A step of `main` that leaves the clock alone. -/
theorem Running.main_quiet (h : Running d l k) (hticks : d'.ticks = d.ticks)
    (hready : d'.ready = d.ready) (hticked : Ticked loc.pc ↔ Ticked (l .main).pc)
    (hmain : MainOk d' loc) : Running d' (Function.update l .main loc) k := by
  refine ⟨hticks ▸ h.ticks, ?_, h.bound, ?_, fun u hu => h.carrying u (by simpa using hu),
    fun n => ?_, fun u => ?_, by simpa using hmain⟩
  · rw [digits_main, hticks]
    exact h.counter
  · rw [Function.update_self, hticked]
    exact h.unborn
  · rw [hready]
    simpa using h.ready n
  · have hu : NodeOk u d' (l (.node u)) :=
      (h.node u).mono hticks.ge fun node _ hr => by rw [hready]; exact hr
    simpa using hu

/-- The first tick. -/
theorem Running.first (h : Running d l k) (hold : ¬ Ticked (l .main).pc) (hnew : Ticked loc.pc)
    (hmain : MainOk { d with ticks := d.ticks + 1 } loc) :
    Running { d with ticks := d.ticks + 1 } (Function.update l .main loc) 0 := by
  obtain rfl := h.unborn.mpr hold
  have hpos := h.ticks
  have nobody (u : Fin N) : ¬ Carrying u (l (.node u)).pc := fun hu => by
    have := h.carrying u hu
    omega
  refine ⟨by simp only; omega, ?_, by omega, ?_, fun u hu => absurd (by simpa using hu) (nobody u),
    fun n => ?_, fun u => ?_, by simpa using hmain⟩
  · have hcast : (d.ticks + 1).toNat = d.ticks.toNat + 1 := by omega
    rw [digits_main, hcast]
    exact h.counter.first
  · rw [Function.update_self]
    simp [hnew]
  · have hn : d.ready n = false := by
      by_contra hr
      have := ((h.ready n).mp (by simpa using hr)).1
      omega
    simp [hn]
  · have hu : NodeOk u { d with ticks := d.ticks + 1 } (l (.node u)) :=
      (h.node u).mono (by simp) fun _ _ hr => hr
    simpa using hu

/-! ### After `clock_stop` -/

/-- A node after `clock_stop`. -/
def NodeStop (self : Fin N) (d : Data N) (l : Loc) : Prop :=
  1 ≤ l.i ∧
  match l.pc with
  | .create | .stop _ | .join => False
  | .nodeWait _ => (parent self).isSome
  | .done => d.exited self = true
  | _ => True

/-- The node has given its last signal. -/
def Final : Pc → Prop
  | .signal true .unlock | .signal true .signal | .leave | .done => True
  | _ => False

/-- The node waits for its parent no more. -/
def Past : Pc → Prop
  | .nodeWait .unlock | .tick _ | .signal _ _ | .leave | .done => True
  | .wait (.unlock ret) => ret = false
  | .wait _ => True
  | _ => False

/-- The state after `clock_stop`: the last signal of a node is there, or has let its child go on. -/
structure Stopped (d : Data N) (l : Thread N → Loc) : Prop where
  ticks : d.ticks = -1
  main : Stopping (l .main).pc
  created : d.created = N
  node : ∀ self, NodeStop self d (l (.node self))
  final : ∀ self child, parent child = some self → Final (l (.node self)).pc →
    d.ready self = true ∨ Past (l (.node child)).pc

theorem NodeOk.stop (h : NodeOk self d loc) (d' : Data N) : NodeStop self d' loc := by
  obtain ⟨pc, i, bit⟩ := loc
  obtain ⟨hi, -, hpc⟩ := h
  cases pc with
  | nodeWait p =>
    obtain ⟨node, hnode, -⟩ := hpc
    exact ⟨hi, by simp [hnode]⟩
  | start | wait | tick | signal => exact ⟨hi, trivial⟩
  | create | stop | join | leave | done => exact hpc.elim

theorem NodeOk.not_final (h : NodeOk self d loc) : ¬ Final loc.pc := by
  obtain ⟨pc, i, bit⟩ := loc
  obtain ⟨-, -, hpc⟩ := h
  cases pc with
  | signal last p =>
    obtain ⟨rfl, -⟩ := hpc
    simp [Final]
  | start | wait | tick | nodeWait => simp [Final]
  | create | stop | join | leave | done => exact hpc.elim

/-- What a statement of a node does after `clock_stop`. -/
structure StopEdge (v : Fin N) (d d' : Data N) (l₀ loc : Loc) : Prop where
  ticks : d'.ticks = -1
  created : d'.created = d.created
  exited : ∀ u, d.exited u = true → d'.exited u = true
  node : NodeStop v d' loc
  /-- A ready flag is cleared by the child only, which goes on. -/
  ready : ∀ n, d.ready n = true → d'.ready n = true ∨ parent v = some n ∧ Past loc.pc
  past : Past l₀.pc → Past loc.pc
  final : Final loc.pc → Final l₀.pc ∨ d'.ready v = true

theorem past_action : Past loc.action.pc := by
  unfold Loc.action Loc.goto
  cases loc.bit <;> exact trivial

theorem nodeStop_action (hi : 1 ≤ loc.i) : NodeStop self d loc.action := by
  refine ⟨hi, ?_⟩
  unfold Loc.action Loc.goto
  cases loc.bit <;> exact trivial

theorem not_final_action : ¬ Final loc.action.pc := by
  unfold Loc.action Loc.goto
  cases loc.bit <;> simp [Final]

/-- A statement that leaves the data alone. -/
theorem StopEdge.quiet {l₀ : Loc} (hticks : d.ticks = -1) (hnode : NodeStop self d loc)
    (hpast : Past l₀.pc → Past loc.pc) (hfinal : Final loc.pc → Final l₀.pc) :
    StopEdge self d d l₀ loc :=
  ⟨hticks, rfl, fun _ h => h, hnode, fun _ h => .inl h, hpast, fun h => .inl (hfinal h)⟩

theorem stopEdge {l₀ : Loc} (hticks : d.ticks = -1) (hnode : NodeStop self d l₀)
    (he : Edge b (threadFunc self l₀) d d' loc) : StopEdge self d d' l₀ loc := by
  obtain ⟨pc, i, bit⟩ := l₀
  obtain ⟨hi, hpc⟩ := hnode
  simp only at hi hpc
  cases pc with
  | start =>
    simp only [threadFunc, Edge] at he
    split at he <;> cases he
    exact .quiet hticks ⟨hi, trivial⟩ (fun h => h.elim) (fun h => h.elim)
  | wait p =>
    cases p with
    | lock | cond =>
      obtain ⟨rfl, rfl⟩ := he
      exact .quiet hticks ⟨hi, trivial⟩ (fun h => h) (fun h => h.elim)
    | test =>
      cases he
      simp only [hticks]
      exact .quiet hticks ⟨hi, trivial⟩ (fun h => h) (fun h => h.elim)
    | ret =>
      -- the clock is stopped: `clock_wait` returns false
      cases he
      refine .quiet hticks ⟨hi, trivial⟩ (fun _ => ?_) (fun h => h.elim)
      simp only [hticks, Loc.goto, Past, decide_eq_false_iff_not]
      omega
    | unlock ret =>
      obtain ⟨rfl, rfl⟩ := he
      cases ret with
      | false => exact .quiet hticks ⟨hi, trivial⟩ (fun _ => trivial) (fun h => h.elim)
      | true =>
        simp only [if_true]
        split
        · rename_i hparent
          exact .quiet hticks ⟨hi, hparent⟩ (fun h => by cases h) (fun h => h.elim)
        · exact .quiet hticks (nodeStop_action hi) (fun _ => past_action)
            (fun h => absurd h not_final_action)
  | nodeWait p =>
    obtain ⟨node, hnode⟩ := Option.isSome_iff_exists.mp hpc
    simp only [threadFunc, hnode] at he
    cases p with
    | lock | cond =>
      obtain ⟨rfl, rfl⟩ := he
      exact .quiet hticks ⟨hi, hpc⟩ (fun h => h.elim) (fun h => h.elim)
    | test =>
      cases he
      exact .quiet hticks ⟨hi, hpc⟩ (fun h => h.elim) (fun h => h.elim)
    | clear =>
      cases he
      refine ⟨hticks, rfl, fun _ h => h, ⟨hi, hpc⟩, fun n hn => ?_, fun _ => trivial,
        fun h => h.elim⟩
      by_cases hnn : n = node
      · subst hnn
        exact .inr ⟨hnode, trivial⟩
      · exact .inl (by simpa [Function.update_of_ne hnn] using hn)
    | unlock =>
      obtain ⟨rfl, rfl⟩ := he
      exact .quiet hticks (nodeStop_action hi) (fun _ => past_action)
        (fun h => absurd h not_final_action)
  | tick p =>
    cases p with
    | lock | unlock | broadcast =>
      obtain ⟨rfl, rfl⟩ := he
      exact .quiet hticks ⟨by simp [Loc.goto, Loc.again, hi], trivial⟩ (fun _ => trivial)
        (fun h => h.elim)
    | set =>
      cases he
      exact ⟨by simp [hticks], rfl, fun _ h => h, ⟨hi, trivial⟩, fun _ h => .inl h,
        fun _ => trivial, fun h => h.elim⟩
  | signal last p =>
    cases p with
    | lock =>
      obtain ⟨rfl, rfl⟩ := he
      exact .quiet hticks ⟨hi, trivial⟩ (fun _ => trivial) (fun h => by cases last <;> exact h.elim)
    | set =>
      cases he
      refine ⟨hticks, rfl, fun _ h => h, ⟨hi, trivial⟩, fun n hn => .inl ?_, fun _ => trivial,
        fun _ => .inr (by simp)⟩
      by_cases hnn : n = self
      · simp [hnn]
      · simpa [Function.update_of_ne hnn] using hn
    | unlock =>
      obtain ⟨rfl, rfl⟩ := he
      exact .quiet hticks ⟨hi, trivial⟩ (fun _ => trivial) (fun h => by cases last <;> exact h)
    | signal =>
      obtain ⟨rfl, rfl⟩ := he
      cases last with
      | false =>
        exact .quiet hticks ⟨by simp [Loc.again], trivial⟩ (fun _ => trivial) (fun h => h.elim)
      | true => exact .quiet hticks ⟨hi, trivial⟩ (fun _ => trivial) (fun _ => trivial)
  | leave =>
    cases he
    refine ⟨hticks, rfl, fun u hu => ?_, ⟨hi, by simp [Loc.goto]⟩, fun _ h => .inl h,
      fun _ => trivial, fun _ => .inl trivial⟩
    by_cases huu : u = self
    · simp [huu]
    · simpa [Function.update_of_ne huu] using hu
  | done => exact he.elim
  | create | stop | join => exact hpc.elim

theorem Running.main_step (h : Running d l k) (he : Edge b (ClockGraph.main N (l .main)) d d' loc) :
    (∃ k', Running d' (Function.update l .main loc) k') ∨
      Stopped d' (Function.update l .main loc) := by
  have hok := h.main
  generalize hl : l .main = l₀ at he hok
  obtain ⟨pc, i, bit⟩ := l₀
  have hpcs : (l .main).pc = pc := by rw [hl]
  unfold MainOk at hok
  simp only at hok
  cases pc with
  | create =>
    obtain ⟨hc, hi⟩ := hok
    simp only [ClockGraph.main, Edge, Option.some.injEq] at he
    split at he
    · cases he
      exact .inl ⟨k, h.main_quiet rfl rfl (by rw [hpcs]) ⟨rfl, by simp only; omega⟩⟩
    · cases he
      exact .inl ⟨k, h.main_quiet rfl rfl (by rw [hpcs]; exact Iff.rfl)
        (show d.created = N by omega)⟩
  | tick p =>
    cases p with
    | lock | unlock | broadcast =>
      obtain ⟨rfl, rfl⟩ := he
      exact .inl ⟨k, h.main_quiet rfl rfl (by rw [hpcs]; exact Iff.rfl) hok⟩
    | set =>
      cases he
      simp only [h.ticks, if_true]
      exact .inl ⟨0, h.first (by rw [hpcs]; simp [Ticked]) (by simp [Ticked, Loc.goto]) hok⟩
  | wait p =>
    cases p with
    | lock | cond | unlock =>
      obtain ⟨rfl, rfl⟩ := he
      exact .inl ⟨k, h.main_quiet rfl rfl (by rw [hpcs]; exact Iff.rfl) hok⟩
    | test | ret =>
      cases he
      exact .inl ⟨k, h.main_quiet rfl rfl (by rw [hpcs]; exact Iff.rfl) hok⟩
  | stop p =>
    cases p with
    | lock =>
      obtain ⟨rfl, rfl⟩ := he
      exact .inl ⟨k, h.main_quiet rfl rfl (by rw [hpcs]; exact Iff.rfl) hok⟩
    | set =>
      cases he
      refine .inr ⟨rfl, by simp [Stopping, Loc.goto], hok, fun u => ?_, fun u child _ hu => ?_⟩
      · have hu := (h.node u).stop { d with ticks := -1 }
        simpa using hu
      · exact absurd (by simpa using hu) (h.node u).not_final
    | unlock | broadcast => exact hok.elim
  | start | nodeWait | signal | join | leave | done => exact hok.elim

theorem NodeStop.mono (h : NodeStop self d loc) (hexited : d.exited self = true →
    d'.exited self = true) : NodeStop self d' loc := by
  obtain ⟨hi, hpc⟩ := h
  refine ⟨hi, ?_⟩
  split at hpc
  case h_5 => exact hexited hpc
  all_goals exact hpc

theorem Stopped.node_step (h : Stopped d l)
    (he : Edge b (threadFunc self (l (.node self))) d d' loc) :
    Stopped d' (Function.update l (.node self) loc) := by
  have hs := stopEdge h.ticks (h.node self) he
  refine ⟨hs.ticks, by rw [update_node_main]; exact h.main, hs.created.trans h.created,
    fun u => ?_, fun p c hpc hfinal => ?_⟩
  · rw [update_node_node]
    split
    · rename_i hu
      rw [hu]
      exact hs.node
    · exact (h.node u).mono (hs.exited u)
  rw [update_node_node] at hfinal ⊢
  have hchild : p ≠ c := by
    rintro rfl
    have := parent_eq.mp hpc
    omega
  -- the child of the node that has moved, the node itself, and all others
  by_cases hc : c = self
  · subst hc
    rw [if_neg hchild] at hfinal
    rw [if_pos rfl]
    rcases h.final p c hpc hfinal with hr | hpast
    · exact (hs.ready p hr).imp_right And.right
    · exact .inr (hs.past hpast)
  · rw [if_neg hc]
    have hkept (hr : d.ready p = true) : d'.ready p = true := by
      refine (hs.ready p hr).resolve_right fun hself => hc ?_
      exact Fin.ext ((parent_eq.mp hpc).trans (parent_eq.mp hself.1).symm)
    by_cases hp : p = self
    · subst hp
      rw [if_pos rfl] at hfinal
      rcases hs.final hfinal with hold | hr
      · exact (h.final p c hpc hold).imp_left hkept
      · exact .inl hr
    · rw [if_neg hp] at hfinal
      exact (h.final p c hpc hfinal).imp_left hkept

theorem Stopped.main_step (h : Stopped d l) (he : Edge b (ClockGraph.main N (l .main)) d d' loc) :
    Stopped d' (Function.update l .main loc) := by
  have hmain := h.main
  generalize hl : l .main = l₀ at he hmain
  obtain ⟨pc, i, bit⟩ := l₀
  have hkeep (hd : d' = d) (hstop : Stopping loc.pc) : Stopped d' (Function.update l .main loc) := by
    subst hd
    refine ⟨h.ticks, by simpa using hstop, h.created, fun u => by simpa using h.node u,
      fun p c hpc hfinal => ?_⟩
    simpa using h.final p c hpc (by simpa using hfinal)
  cases pc with
  | stop p =>
    cases p with
    | unlock | broadcast =>
      obtain ⟨rfl, rfl⟩ := he
      exact hkeep rfl trivial
    | lock | set => exact hmain.elim
  | join =>
    simp only [ClockGraph.main, Edge] at he
    split at he
    · split at he <;> cases he
      exact hkeep rfl trivial
    · cases he
      exact hkeep rfl trivial
  | done => exact he.elim
  | create | start | wait | nodeWait | tick | signal | leave => exact hmain.elim

end Steps

/-- In every reachable state the graph counts, or is stopping. -/
def Inv (d : Data N) (l : Thread N → Loc) : Prop := (∃ k, Running d l k) ∨ Stopped d l

theorem inv_start : Inv (start N) (entry (N := N)) := by
  refine .inl ⟨N + 1, Int.le_refl 0, ?_, Nat.le_refl _, ?_, fun _ h => h.elim, fun n => ?_,
    fun self => ⟨Nat.le_refl 1, by simp [entry], trivial⟩, ⟨rfl, Nat.zero_le N⟩⟩
  · have hzero : digits (entry (N := N)) = fun _ => 0 := by
      funext j
      unfold digits
      split <;> rfl
    rw [hzero]
    exact Counter.start
  · simp [entry, Ticked]
  · simp only [start, Bool.false_eq_true, false_iff, not_and]
    intro he
    omega

theorem inv_reachable {ok : Config (Thread N) (Shared (Thread N) (Mutex N) (Data N))
      (Status (Mutex N) Loc) → Thread N × Act (Thread N) → Prop}
    {s : Config (Thread N) (Shared (Thread N) (Mutex N) (Data N)) (Status (Mutex N) Loc)}
    (h : (system N).Reachable ok s) : Inv s.shared.data (Program.locs s) := by
  apply data_invariant inv_start ?_ h
  intro s t l a b d' k _ hi hl _ _ he
  have hloc : Program.locs s t = l := by simp [Program.locs, hl, Status.loc]
  rw [← hloc] at he
  cases t with
  | main =>
    rcases hi with ⟨k, hi⟩ | hi
    · exact hi.main_step he
    · exact .inr (hi.main_step he)
  | node self =>
    rcases hi with ⟨k, hi⟩ | hi
    · exact .inl (hi.node_step he)
    · exact .inr (hi.node_step he)

end LinuxSummer.ClockGraph
