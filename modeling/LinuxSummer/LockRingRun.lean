import LinuxSummer.LockRingInvariant

/-! The lock ring never comes to a halt: the thread in front of the spare mutex can go on. -/
namespace LinuxSummer.LockRing
open Monitor
set_option linter.unusedSectionVars false

variable {T iters : ℕ} [NeZero T]
  {ok : Config (Thread T) (Shared (Thread T) Mutex Data) (Status Mutex Loc) →
    Thread T × Act (Thread T) → Prop}
  {s : Config (Thread T) (Shared (Thread T) Mutex Data) (Status Mutex Loc)}
  {l : Thread T → Loc} {d : Data} {id v : Fin T}

/-! ### Who has what -/

theorem instr_wait {t : Thread T} {l k : Loc} {m : Mutex} (h : instr iters t l = .wait m k) :
    t = .main ∧ m = .ready ∧ l.pc = .cond ∧ k.pc = .test := by
  obtain ⟨pc, i, loop⟩ := l
  cases t with
  | main =>
    cases pc with
    | cond =>
      cases h
      exact ⟨rfl, rfl, rfl, rfl⟩
    | launch | release =>
      simp only [instr, contentionTest] at h
      split at h <;> cases h
    | _ => cases h
  | worker id =>
    cases pc with
    | loop =>
      simp only [instr, threadFunc] at h
      split at h <;> cases h
    | _ => cases h

/-- Only `contention_test` waits. -/
theorem asleep_main (h : (system T iters).Reachable ok s) : ∀ t m k,
    s.thread t = .asleep m k ∨ s.thread t = .woken m k →
    t = .main ∧ m = .ready ∧ k.pc = .test := by
  refine resume_rule (fun t l m k hi => ?_) h
  obtain ⟨ht, hm, -, hk⟩ := instr_wait hi
  exact ⟨ht, hm, hk⟩

/-- A thread has the mutexes of its place; in `wait` it has given `ready_mutex` up. -/
theorem owner_of_holds (h : (system T iters).Reachable ok s) {t : Thread T} {m : Mutex}
    (hm : holds t (Program.locs s t) m) (hready : m = .ready → (Program.locs s t).pc ≠ .test) :
    s.shared.owner m = some t := by
  refine ((sound_reachable h).owner t m).mpr ?_
  have hasleep := asleep_main h t
  simp only [Program.locs] at hm hready
  cases hst : s.thread t with
  | run l =>
    rw [hst] at hm
    exact hm
  | asleep m' k =>
    obtain ⟨-, rfl, hk⟩ := hasleep m' k (.inl hst)
    rw [hst] at hm hready
    exact ⟨hm, fun he => hready he hk⟩
  | woken m' k =>
    obtain ⟨-, rfl, hk⟩ := hasleep m' k (.inr hst)
    rw [hst] at hm hready
    exact ⟨hm, fun he => hready he hk⟩

/-- A thread between its first lock and its last unlock has its current mutex. -/
theorem WorkerOk.holds_ring {lv : Loc} (h : WorkerOk iters v d lv) (hc : counted lv.pc = true)
    (hrun : lv.pc ≠ .ret ∧ lv.pc ≠ .done) : holds (.worker v) lv (.ring lv.i) := by
  obtain ⟨pc, i, loop⟩ := lv
  unfold holds
  cases pc with
  | signal | countUnlock | lineUnlock | prev => exact .inl rfl
  | lineLock | loop => rfl
  | ret => exact absurd rfl hrun.1
  | done => exact absurd rfl hrun.2
  | _ => cases hc

/-- A `start_mutex` that is free when its thread takes it is unlocked. -/
theorem MainOk.released {lm : Loc} (h : MainOk T d lm) (hc : id < d.created)
    (hfree : ¬ holds (.main : Thread T) lm (.start id)) : Released id lm := by
  obtain ⟨pc, i, loop⟩ := lm
  have hlt := id.isLt
  unfold holds at hfree
  unfold MainOk at h
  cases pc with
  | launch => exact absurd ⟨id, rfl, by simp only at h ⊢; omega, hlt⟩ hfree
  | create => exact absurd ⟨id, rfl, by simp only at h ⊢; omega, hlt⟩ hfree
  | test | cond | readyUnlock => exact absurd (.inr ⟨id, rfl, hlt⟩) hfree
  | release =>
    refine .inl ⟨rfl, not_le.mp fun hle => hfree ⟨id, rfl, hle, hlt⟩⟩
  | join => exact .inr (.inl rfl)
  | done => exact .inr (.inr rfl)
  | _ => exact h.elim

theorem counted_all (h : (countedSet l).card = T) (id : Fin T) :
    counted (l (.worker id)).pc = true := by
  have huniv : countedSet l = Finset.univ :=
    Finset.eq_univ_of_card _ (by rw [h, Fintype.card_fin])
  have hmem : id ∈ countedSet l := by
    rw [huniv]
    exact Finset.mem_univ id
  exact (Finset.mem_filter.mp hmem).2

theorem countedSet_le (l : Thread T → Loc) : (countedSet l).card ≤ T := by
  have := Finset.card_le_univ (countedSet l)
  rwa [Fintype.card_fin] at this

/-- When one thread is past its `start_mutex` all have counted themselves. -/
theorem Inv.all_counted (h : Inv iters d l) (hp : passed (l (.worker id)).pc = true) (v : Fin T) :
    counted (l (.worker v)).pc = true := by
  refine counted_all ?_ v
  rw [← h.count]
  have hmain := h.main
  unfold MainOk at hmain
  rcases h.released id hp with ⟨hpc, -⟩ | hpc | hpc <;> rw [hpc] at hmain <;> exact hmain.2

/-! ### The invariant along a run -/

/-- What one thread adds to the threads that have counted themselves. -/
theorem card_countedSet (l : Thread T → Loc) (id : Fin T) (k : Loc) :
    (countedSet (Function.update l (.worker id) k)).card +
      (if counted (l (.worker id)).pc = true then 1 else 0) =
    (countedSet l).card + if counted k.pc = true then 1 else 0 := by
  have hrest : (countedSet (Function.update l (.worker id) k)).erase id = (countedSet l).erase id := by
    ext v
    by_cases hv : v = id
    · simp [hv]
    · simp [countedSet, hv]
  have hafter : id ∈ countedSet (Function.update l (.worker id) k) ↔ counted k.pc = true := by
    simp [countedSet]
  have hbefore : id ∈ countedSet l ↔ counted (l (.worker id)).pc = true := by
    simp [countedSet]
  have hcard := congrArg Finset.card hrest
  have h₁ := Finset.card_erase_add_one (s := countedSet (Function.update l (.worker id) k)) (a := id)
  have h₂ := Finset.card_erase_add_one (s := countedSet l) (a := id)
  have h₃ := Finset.erase_eq_of_notMem (s := countedSet (Function.update l (.worker id) k)) (a := id)
  have h₄ := Finset.erase_eq_of_notMem (s := countedSet l) (a := id)
  rw [hafter] at h₁ h₃
  rw [hbefore] at h₂ h₄
  split_ifs with hb hk hk
  · have := h₁ hk
    have := h₂ hb
    omega
  · have := h₂ hb
    rw [h₃ hk] at hcard
    omega
  · have := h₁ hk
    rw [h₄ hb] at hcard
    omega
  · rw [h₃ hk, h₄ hb] at hcard
    omega

theorem inv_start : Inv iters start (entry : Thread T → Loc) := by
  refine ⟨⟨Nat.zero_le _, rfl⟩, fun id => ?_, ?_, fun id h => ?_, fun i j _ => ?_⟩
  · have hindex : id.val = (id + (1 - 1)) % (T + 1) := by
      rw [Nat.mod_eq_of_lt (by omega)]
      rfl
    exact ⟨rfl, hindex, Nat.le_refl _, fun h => absurd rfl h, by simp [start, entry]⟩
  · symm
    simp [countedSet, start, entry, counted]
  · cases h
  · simp [front, moves, entry]

theorem Inv.main_step {d' : Data} {k : Loc} (h : Inv iters d l)
    (hs : MainStep T d (l .main) d' k) : Inv iters d' (Function.update l .main k) := by
  have hle : d.readyCount ≤ T := h.count ▸ countedSet_le l
  obtain ⟨hcreated, hexited, hcount⟩ := hs.data h.main
  have hset : countedSet (Function.update l .main k) = countedSet l := by
    simp [countedSet]
  refine ⟨?_, fun id => ?_, ?_, fun id hp => ?_, fun i j hij => ?_⟩
  · rw [Function.update_self]
    exact hs.ok h.main hle
  · rw [Function.update_of_ne (by simp)]
    obtain ⟨hplace, hindex, hloop, hc, he⟩ := h.worker id
    exact ⟨hplace, hindex, hloop, fun hb => (hc hb).trans_le hcreated, hexited ▸ he⟩
  · rw [hset, hcount, h.count]
  · rw [Function.update_self]
    rw [Function.update_of_ne (by simp)] at hp
    exact hs.released_mono (h.released id hp)
  · simp only [Function.update_of_ne (show (Thread.worker i : Thread T) ≠ .main by simp),
      Function.update_of_ne (show (Thread.worker j : Thread T) ≠ .main by simp)]
    exact h.ordered i j hij

/-- A thread that takes the next mutex overtakes nobody. -/
theorem Inv.ordered_step {d' : Data} {k : Loc} (h : Inv iters d l)
    (hs : WorkerStep iters id d (l (.worker id)) d' k)
    (hfree : ∀ v, holds (.worker v) (l (.worker v)) (.ring (next T (l (.worker id)).i)) →
      (l (.worker id)).pc ≠ .loop ∨ ¬ (l (.worker id)).loop < iters) :
    Ordered (fun v => front (Function.update l (.worker id) k (.worker v)))
      fun v => moves (Function.update l (.worker id) k (.worker v)) := by
  have hold := h.ordered
  have hself : Function.update l (.worker id) k (.worker id) = k := Function.update_self ..
  have hother : ∀ v, v ≠ id → Function.update l (.worker id) k (.worker v) = l (.worker v) :=
    fun v hv => Function.update_of_ne (by simpa using hv) _ _
  obtain ⟨hmoves, hsame | ⟨hpc, hlt, hf, hk⟩⟩ := hs.front (h.worker id)
  · intro i j hij
    have hij' := hold i j hij
    simp only at hij' ⊢
    by_cases hi : i = id
    · subst hi
      rw [hself, hother j (ne_of_gt hij)]
      omega
    by_cases hj : j = id
    · subst hj
      rw [hself, hother i hi]
      omega
    · rw [hother i hi, hother j hj]
      exact hij'
  · -- whoever is not ahead has its mutex, and it is not the next one
    have hnot : ∀ v : Fin T, moves (l (.worker v)) ≤ moves (l (.worker id)) →
        (v + moves (l (.worker v))) % (T + 1) ≠ (id + moves (l (.worker id)) + 1) % (T + 1) := by
      intro v hv hmod
      have hc := h.all_counted (by rw [hpc]; rfl) v
      have hw := h.worker v
      have hpos := (h.worker id).loop_pos
      have hrun : (l (.worker v)).pc ≠ .ret ∧ (l (.worker v)).pc ≠ .done := by
        have hplace := hw.place
        unfold PlaceOk at hplace
        refine ⟨fun he => ?_, fun he => ?_⟩ <;> rw [he] at hplace <;>
          simp only [moves] at hplace hv <;> omega
      have hring := hw.holds_ring hc hrun
      have hidx : (l (.worker v)).i = next T (l (.worker id)).i := by
        rw [hw.index, hmod, next, (h.worker id).index, Nat.mod_add_mod]
      rw [hidx] at hring
      rcases hfree v hring with hne | hge
      · exact hne hpc
      · exact hge hlt
    obtain ⟨hahead, hbehind⟩ := Ordered.of_free hold (fun i => moves_le_front _) hnot
    intro i j hij
    have hij' := hold i j hij
    simp only at hij' ⊢
    by_cases hi : i = id
    · subst hi
      rw [hself, hother j (ne_of_gt hij)]
      have := hahead j hij
      omega
    by_cases hj : j = id
    · subst hj
      rw [hself, hother i hi]
      have := hbehind i hij
      omega
    · rw [hother i hi, hother j hj]
      exact hij'

theorem Inv.worker_step {d' : Data} {k : Loc} (h : Inv iters d l)
    (hs : WorkerStep iters id d (l (.worker id)) d' k)
    (hcond : (l (.worker id)).pc = .count → (l .main).pc ≠ .cond)
    (hstart : (l (.worker id)).pc = .lineLock → ¬ holds (.main : Thread T) (l .main) (.start id))
    (hring : ∀ v, holds (.worker v) (l (.worker v)) (.ring (next T (l (.worker id)).i)) →
      (l (.worker id)).pc ≠ .loop ∨ ¬ (l (.worker id)).loop < iters) :
    Inv iters d' (Function.update l (.worker id) k) := by
  have hmain : Function.update l (.worker id) k .main = l .main := Function.update_of_ne (by simp) _ _
  have hcard := card_countedSet l id k
  refine ⟨?_, fun v => ?_, ?_, fun v hp => ?_, h.ordered_step hs hring⟩
  · rw [hmain]
    refine hs.main_ok h.main fun hpc => ⟨hcond hpc, ?_⟩
    -- this thread is not counted yet
    have hle := countedSet_le l
    rw [← h.count] at hle
    refine lt_of_le_of_ne hle fun heq => ?_
    have hc := counted_all (h.count.symm.trans heq) id
    rw [hpc] at hc
    cases hc
  · by_cases hv : v = id
    · subst hv
      rw [Function.update_self]
      exact hs.ok (h.worker v)
    · rw [Function.update_of_ne (by simpa using hv)]
      exact hs.other hv (h.worker v)
  · have hcount := h.count
    rcases hs.counted (h.worker id).place with ⟨hsame, hc⟩ | ⟨hmore, hc, hc'⟩
    · rw [hc] at hcard
      omega
    · rw [hc, hc'] at hcard
      simp only [Bool.false_eq_true, if_false, if_true] at hcard
      omega
  · rw [hmain]
    by_cases hv : v = id
    · subst hv
      rw [Function.update_self] at hp
      rcases hs.of_passed hp with hold | hpc
      · exact h.released v hold
      · exact h.main.released ((h.worker v).created (by simp [hpc])) (hstart hpc)
    · rw [Function.update_of_ne (by simpa using hv)] at hp
      exact h.released v hp

theorem inv_reachable (h : (system T iters).Reachable ok s) :
    Inv iters s.shared.data (Program.locs s) := by
  apply lock_invariant inv_start ?_ h
  intro s t lt a b d' k hr hi hl _ _ hfree he
  have hloc : Program.locs s t = lt := by simp [Program.locs, hl, Status.loc]
  have hnot (k : Loc) {m : Mutex} {u : Thread T} : instr iters t lt = .lock m k → m ≠ .ready →
      ¬ holds u (Program.locs s u) m := fun hlock hm hu => by
    have hown := owner_of_holds hr hu fun he => absurd he hm
    rw [hfree _ _ hlock] at hown
    cases hown
  cases t with
  | main =>
    have hstep := LockRing.main_step he
    rw [← hloc] at hstep
    exact hi.main_step hstep
  | worker id =>
    have hstep := LockRing.worker_step he
    have hinstr : instr iters (.worker id) lt = threadFunc iters id lt := rfl
    rw [← hloc] at hstep
    refine hi.worker_step hstep (fun hpc hcond => ?_) (fun hpc => ?_) fun v hv => ?_
    · -- both would have `ready_mutex`
      have hw : holds (.worker id) (Program.locs s (.worker id)) .ready := by
        simp [holds, hpc]
      have hm : holds (.main : Thread T) (Program.locs s .main) .ready := by
        simp [holds, hcond]
      have h₁ := owner_of_holds hr hw fun _ => by simp [hpc]
      have h₂ := owner_of_holds hr hm fun _ => by simp [hcond]
      rw [h₁] at h₂
      cases h₂
    · refine hnot (lt.goto .lineUnlock) ?_ (by simp)
      rw [hloc] at hpc
      rw [hinstr, threadFunc]
      simp only [hpc]
    · rw [hloc] at hv ⊢
      by_contra hno
      obtain ⟨hpc, hlt⟩ := not_or.mp hno
      refine hnot (lt.goto .prev) ?_ (by simp) hv
      rw [hinstr, threadFunc]
      simp only [not_not.mp hpc, if_pos (not_not.mp hlt)]

end LinuxSummer.LockRing
