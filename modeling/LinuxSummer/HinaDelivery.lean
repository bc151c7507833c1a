import LinuxSummer.HinaInvariant

/-! Exactly-once delivery of the deque of hw3/work-steal-qsort: it fails, and the condition on
the steps of a run under which it holds. -/
namespace LinuxSummer.Hina
open IndexWindow
set_option linter.unusedSectionVars false

variable {nr : ℕ} {V : Type*} {g g' : Shared nr V} {pc pc' : Pc V}

/-- A step of the owner is one that thieves can rely on, and it keeps the invariant. -/
def OwnerStep (g g' : Shared nr V) (pc pc' : Pc V) : Prop :=
  OwnerMove g g' ∧ Keeps g g' pc pc' ∧ OwnerInv g' pc'

/-- A step that only reads. -/
theorem ownerStep_read (hg : Global g) (hc : claim pc' = claim pc) (h : OwnerInv g pc') :
    OwnerStep g g pc pc' :=
  ⟨.refl g, ⟨hg, fun _ hb => by rwa [hc]⟩, h⟩

/-- A step that at most writes to arrays beyond the current one. -/
theorem ownerStep_private {heap : ℕ → Arr V} {used : ℕ} (hg : Global g) (hc : claim pc' = claim pc)
    (hused : g.used ≤ used) (hheap : ∀ a, a ≤ g.array → heap a = g.heap a)
    (h : OwnerInv { g with heap := heap, used := used } pc') :
    OwnerStep g { g with heap := heap, used := used } pc pc' := by
  have harray : heap g.array = g.heap g.array := hheap _ (Nat.le_refl _)
  have hslot : ({ g with heap := heap, used := used } : Shared nr V).slot = g.slot := by
    funext j
    simp only [Shared.slot, harray]
  refine ⟨⟨Nat.le_refl _, Nat.le_refl _, fun _ hlt => ⟨hlt, by rw [hslot], fun a ha => ?_⟩⟩,
    ⟨⟨hg.top_pos, hg.top_le, ?_, hg.bottom_lt, ?_, ?_, hg.old_lt, hg.freed_lt⟩,
      fun claims hb => ?_⟩, h⟩
  · simp only [hheap a ha]
  · simpa only [harray] using hg.bottom_le
  · exact Nat.lt_of_lt_of_le hg.used hused
  · simpa only [harray] using hg.size_pos
  · unfold Balanced at hb ⊢
    rw [hslot, hc]
    exact hb

/-- The head of the copy loop. -/
theorem ownerInv_copyLoop {w : V} {b a new i e : ℕ} (hr : Resizing g b a new) (he : e = g.bottom)
    (hc : Copied g new i) : OwnerInv g (copyLoop w b a new i e) := by
  unfold copyLoop
  split
  · exact ⟨hr, he, ‹_›, hc⟩
  · exact ⟨hr, fun j hj hjh => hc j hj (by omega)⟩

theorem claim_copyLoop {w : V} {b a new i e : ℕ} : claim (copyLoop w b a new i e) = 0 := by
  unfold copyLoop
  split <;> rfl

/-- The store of the copy loop puts one more work into the new array. -/
theorem copied_putAt {b a new i : ℕ} {x : Option V} (hg : Global g) (hr : Resizing g b a new)
    (hi : i < g.bottom) (hc : Copied g new i) (hx : x = g.slot i) :
    Copied (g.store new i x) new (i + 1) := by
  intro j hj hji
  have hle := hg.bottom_le
  have hsize := hr.size
  have hslot : (g.store new i x).slot j = g.slot j := by
    simp only [Shared.slot, Shared.store, putAt_of_ne (Nat.ne_of_lt hr.fresh)]
  rw [hslot]
  change g.top ≤ j at hj
  by_cases hij : j = i
  · subst hij
    simp only [← hx, Shared.store, putAt_self, SlotArray.get_put_self]
  · rw [← hc j hj (by omega)]
    exact get_putAt_of_ne (mod_ne (by omega) (by omega))

theorem resizeStore_step {w : V} {b a new : ℕ} (hg : Global g) (hres : Resizing g b a new)
    (hcopy : Copied g new g.bottom) :
    OwnerStep g { g with array := new } (.resizeStore w b a new) (.resizeAssert w b a) := by
  have hle := hg.bottom_le
  have hpos := hg.size_pos
  have hsize := hres.size
  have hfresh := hres.fresh
  refine ⟨⟨Nat.le_refl _, hfresh.le, fun _ hlt => ⟨hlt, hcopy _ (Nat.le_refl _) hlt,
    fun _ _ => rfl⟩⟩, ⟨⟨hg.top_pos, hg.top_le, ?_, hg.bottom_lt, hres.used, ?_, fun x hx => ?_,
      fun x hx => ?_⟩, fun claims hb => ?_⟩, hres.pushing, ?_, ?_⟩
  · change g.bottom ≤ g.top + (g.heap new).size
    omega
  · change 0 < (g.heap new).size
    omega
  · exact (hg.old_lt x hx).trans hfresh
  · exact (hg.freed_lt x hx).trans hfresh
  · refine hb.trans ?_
    congr 1
    exact window_congr fun j hj hjh => (hcopy j hj hjh).symm
  · change g.bottom < g.top + (g.heap new).size
    omega
  · rw [hres.array]
    exact hfresh

/-- The store of `deque_push` goes to a slot that no index of the deque has. -/
theorem pushSlot_step {w : V} {b : ℕ} (hg : Global g) (hp : Pushing g b) (hroom : Room g) :
    OwnerStep g (g.store g.array b (some w)) (.pushSlot w b g.array) (.pushCas w b) := by
  obtain ⟨rfl, hlt⟩ := hp
  have hkeep : ∀ a j, g.top ≤ j → j < g.bottom →
      ((g.store g.array g.bottom (some w)).heap a).get j = (g.heap a).get j := fun a j hj hjh =>
    get_putAt_of_ne (mod_ne hjh (by unfold Room at hroom; omega))
  have hsize : ((g.store g.array g.bottom (some w)).heap g.array).size = (g.heap g.array).size :=
    size_putAt
  refine ⟨⟨Nat.le_refl _, Nat.le_refl _, fun _ hth => ⟨hth, hkeep _ _ (Nat.le_refl _) hth,
    fun a _ => hkeep a _ (Nat.le_refl _) hth⟩⟩, ⟨⟨hg.top_pos, hg.top_le, ?_, hg.bottom_lt, hg.used,
      ?_, hg.old_lt, hg.freed_lt⟩, fun claims hb => ?_⟩, ⟨rfl, hlt⟩, ?_, ?_⟩
  · exact hg.bottom_le.trans_eq (by rw [← hsize]; rfl)
  · exact hg.size_pos.trans_eq hsize.symm
  · refine hb.trans ?_
    congr 1
    exact window_congr fun j hj hjh => (hkeep _ j hj hjh).symm
  · unfold Room at hroom ⊢
    exact hroom.trans_eq (by rw [← hsize]; rfl)
  · simp only [Shared.slot, Shared.store, putAt_self, SlotArray.get_put_self]

/-- The compare-and-swap on `bottom` puts the work into the deque. -/
theorem pushCas_step {w : V} {b : ℕ} (hg : Global g) (hp : Pushing g b) (hroom : Room g)
    (hw : g.slot b = some w) :
    OwnerStep g { g with bottom := inc b, pushed := w :: g.pushed } (.pushCas w b)
      (.gc .done .array) := by
  obtain ⟨rfl, hlt⟩ := hp
  have htop := hg.top_le
  rw [inc_eq hlt]
  refine ⟨⟨Nat.le_refl _, Nat.le_refl _, fun _ h => ⟨Nat.lt_succ_of_lt h, rfl, fun _ _ => rfl⟩⟩,
    ⟨⟨hg.top_pos, Nat.le_succ_of_le htop, hroom, hlt, hg.used, hg.size_pos, hg.old_lt,
      hg.freed_lt⟩, fun claims hb => ?_⟩, trivial⟩
  unfold Balanced at hb ⊢
  change ((w :: g.pushed).map some : Multiset (Option V)) =
    g.returned + (0 + claims) + window g.slot g.top (g.bottom + 1)
  rw [window_back htop, hw, Multiset.add_cons, List.map_cons, ← Multiset.cons_coe]
  exact congrArg _ hb

/-- The race of `deque_take` for the last work. -/
theorem takeCas_step {b : ℕ} {x : Option V} (u : Fin nr) (junk : Option V) (hg : Global g)
    (hb : b + 1 = g.bottom) (hx : x = g.slot b) (hn : run u g junk (.takeCas b x) = some (g', pc')) :
    OwnerStep g g' (.takeCas b x) pc' := by
  have hlt := hg.bottom_lt
  simp only [run] at hn
  split at hn
  · rename_i htop
    cases hn
    rw [inc_eq (by omega)]
    refine ⟨⟨?_, Nat.le_refl _, fun h => ?_⟩, ⟨⟨Nat.succ_pos _, hb.le, ?_, hlt, hg.used,
      hg.size_pos, hg.old_lt, hg.freed_lt⟩, fun claims hbal => ?_⟩, trivial⟩
    · change g.top ≤ b + 1
      omega
    · change b + 1 = g.top at h
      omega
    · change g.bottom ≤ b + 1 + (g.heap g.array).size
      omega
    · unfold Balanced at hbal ⊢
      change _ = g.returned + (0 + claims) + window g.slot g.top g.bottom at hbal
      rw [← hb, htop, window_front (Nat.lt_succ_self b), window_self, ← hx] at hbal
      change (g.pushed.map some : Multiset (Option V)) =
        g.returned + ({x} + claims) + window g.slot (b + 1) g.bottom
      rw [hbal, ← hb, window_self]
      simp only [zero_add, add_zero, Multiset.add_cons, Multiset.singleton_add]
  · cases hn
    exact ownerStep_read hg rfl trivial

/-- `deque_take` lowers `bottom` below an index that is still in the deque. -/
theorem takeStore_step {b : ℕ} {x : Option V} (hg : Global g) (hb : b + 1 = g.bottom)
    (hx : x = g.slot b) (htop : g.top ≤ b) :
    Keeps g { g with bottom := b } (.takeStore b x) (.gc (.work x) .array) := by
  have hlt := hg.bottom_lt
  have hle := hg.bottom_le
  refine ⟨⟨hg.top_pos, htop, ?_, ?_, hg.used, hg.size_pos, hg.old_lt, hg.freed_lt⟩,
    fun claims hbal => ?_⟩
  · change b ≤ g.top + (g.heap g.array).size
    omega
  · change b < 2 ^ 64
    omega
  · unfold Balanced at hbal ⊢
    change _ = g.returned + (0 + claims) + window g.slot g.top g.bottom at hbal
    rw [← hb, window_back htop, ← hx] at hbal
    change (g.pushed.map some : Multiset (Option V)) =
      g.returned + ({x} + claims) + window g.slot g.top b
    rw [hbal]
    simp only [zero_add, Multiset.add_cons, Multiset.singleton_add, Multiset.cons_add]

/-- What a step of the owner does, other than the store of `deque_take` to `bottom`. -/
theorem owner_step {u : Fin nr} {junk : Option V} (hg : Global g) (h : OwnerInv g pc)
    (hne : ∀ b x, pc ≠ .takeStore b x) (hn : run u g junk pc = some (g', pc')) :
    OwnerStep g g' pc pc' := by
  have hlt := hg.bottom_lt
  have htop := hg.top_le
  have hlive : g.freed g.array = false := by
    cases hf : g.freed g.array with
    | false => rfl
    | true => exact absurd (hg.freed_lt _ hf) (Nat.lt_irrefl _)
  cases pc <;> simp only [OwnerInv] at h <;> simp only [run] at hn
  case idle => cases hn
  case pushBottom w =>
    cases hn
    exact ownerStep_read hg rfl ⟨rfl, h⟩
  case pushTop w b =>
    cases hn
    exact ownerStep_read hg rfl ⟨h, Nat.le_refl _⟩
  case pushArray w b t =>
    obtain ⟨hp, ht⟩ := h
    split at hn
    · cases hn
      exact ownerStep_read hg rfl hp
    · rename_i hroom
      cases hn
      have hpos := hg.size_pos
      have hb := hp.1
      rw [hb, sub_eq (by omega) hlt] at hroom
      refine ownerStep_read hg rfl ⟨hp, ?_, rfl⟩
      unfold Room
      omega
  case resizeArray w b =>
    cases hn
    have hne : g.array ≠ g.used := Nat.ne_of_lt hg.used
    refine ownerStep_private hg rfl (Nat.le_succ _) (fun a ha => ?_) ⟨h, rfl, hg.used,
      Nat.lt_succ_self _, ?_⟩
    · have hu := hg.used
      exact Function.update_of_ne (by omega) _ _
    · simp [hne]
  case resizeTop w b a new =>
    cases hn
    exact ownerStep_read hg rfl ⟨h, Nat.le_refl _⟩
  case resizeBottom w b a new t =>
    cases hn
    have ht := h.2
    exact ownerStep_read hg claim_copyLoop
      (ownerInv_copyLoop h.1 rfl fun j hj hjt => by omega)
  case copyLoad w b a new i e =>
    cases hn
    obtain ⟨hres, he, hi, hcopy⟩ := h
    refine ownerStep_read hg rfl ⟨hres, he, hi, hcopy, ?_⟩
    rw [hres.array, load_eq junk hlive]
    rfl
  case copyStore w b a new i e x =>
    cases hn
    obtain ⟨hres, he, hi, hcopy, hx⟩ := h
    have hfresh := hres.fresh
    have hres' : Resizing (g.store new i x) b a new :=
      ⟨hres.pushing, hres.array, hres.fresh, hres.used, by
        simpa only [Shared.store, size_putAt] using hres.size⟩
    rw [inc_eq (by omega)]
    exact ownerStep_private hg claim_copyLoop (Nat.le_refl _)
      (fun a ha => putAt_of_ne (by omega))
      (ownerInv_copyLoop hres' he (copied_putAt hg hres (by omega) hcopy hx))
  case resizeStore w b a new =>
    cases hn
    exact resizeStore_step hg h.1 h.2
  case resizeAssert w b a =>
    split at hn
    · cases hn
      have hg' := global_gc hg (some a) g.handle g.freed g.returned
        (fun x hx => Option.some.inj hx ▸ h.2.2) hg.freed_lt
      exact ⟨.of_gc (.mk (some a) g.handle g.freed g.returned), ⟨hg', fun _ hb => hb⟩, h.1, h.2.1⟩
    · cases hn
  case pushReload w b =>
    cases hn
    exact ownerStep_read hg rfl ⟨h.1, h.2, rfl⟩
  case pushSlot w b a =>
    cases hn
    obtain ⟨hp, hroom, rfl⟩ := h
    exact pushSlot_step hg hp hroom
  case pushCas w b =>
    rw [if_pos h.1.1.symm] at hn
    cases hn
    exact pushCas_step hg h.1 h.2.1 h.2.2
  case takeBottom =>
    cases hn
    have hpos := hg.top_pos
    exact ownerStep_read hg rfl (dec_add_one (by omega) hlt)
  case takeArray b =>
    cases hn
    exact ownerStep_read hg rfl ⟨h, rfl⟩
  case takeTop b a =>
    split at hn
    · cases hn
      exact ownerStep_read hg rfl h
    · cases hn
      exact ownerStep_read hg rfl trivial
  case takeSlot b a t =>
    obtain ⟨hb, rfl⟩ := h
    have hx : g.load g.array b junk = g.slot b := load_eq junk hlive
    split at hn
    · cases hn
      exact ownerStep_read hg rfl ⟨hb, hx⟩
    · cases hn
      exact ownerStep_read hg rfl ⟨hb, hx⟩
  case takeCas b x => exact takeCas_step u junk hg h.1 h.2 hn
  case takeStore b x => exact absurd rfl (hne b x)
  case gc r p =>
    obtain ⟨hm, hk, rfl | ⟨p', rfl, hp'⟩⟩ := gc_step hg h hn
    · exact ⟨.of_gc hm, hk, trivial⟩
    · exact ⟨.of_gc hm, hk, hp'⟩

variable {o : Fin nr} {s s' : Config (Fin nr) (Shared nr V) (Pc V)} {sizeHint : ℕ}

/-- The condition on the steps of a run: when `deque_take` stores `bottom` for an index that is
not the last one, the index is still in the deque and no thief is about to take it; a thief does
not read the work at `top` from an array that `deque_gc` has freed; and `bottom` does not wrap. -/
def Ok (s : Config (Fin nr) (Shared nr V) (Pc V)) : Fin nr × Act V → Prop
  | (u, .run _) =>
    match s.thread u with
    | .takeStore b _ => s.shared.top ≤ b ∧ ∀ v, ¬ PastCheck b (s.thread v)
    | .stealSlot t a => t = s.shared.top → s.shared.freed a = false
    | _ => True
  | (_, .push _) => s.shared.bottom + 1 < 2 ^ 64
  | _ => True

/-- The works stored at the indices from `top` up to `bottom` of the current array. -/
def Shared.contents (g : Shared nr V) : Multiset (Option V) := window g.slot g.top g.bottom

/-- Nothing is returned that was not pushed, and no push is returned twice; with no call in
progress the pushes not yet returned are the contents of the deque. -/
def ExactlyOnce (s : Config (Fin nr) (Shared nr V) (Pc V)) : Prop :=
  (s.shared.returned : Multiset (Option V)) ≤ (s.shared.pushed.map some : List (Option V)) ∧
    ((∀ u, s.thread u = .idle) →
      (s.shared.pushed.map some : Multiset (Option V)) = s.shared.returned + s.shared.contents)

/-- The invariant of a configuration. -/
structure Inv (o : Fin nr) (s : Config (Fin nr) (Shared nr V) (Pc V)) : Prop where
  shared : Global s.shared
  thread : ∀ u, Local o s.shared u (s.thread u)
  balance : Balanced s.shared (∑ u, claim (s.thread u))

theorem sum_claims_update (f : Fin nr → Pc V) (u : Fin nr) (pc : Pc V) :
    ∑ v, claim (Function.update f u pc v) = claim pc + ∑ v ∈ Finset.univ.erase u, claim (f v) := by
  rw [← Finset.add_sum_erase _ _ (Finset.mem_univ u), Function.update_self]
  congr 1
  refine Finset.sum_congr rfl fun v hv => ?_
  rw [Function.update_of_ne (Finset.ne_of_mem_erase hv)]

/-- A step keeps the invariant when it keeps the mover's part and every other thread's. -/
theorem inv_of_parts {u : Fin nr} (hi : Inv o s) (hk : Keeps s.shared g' (s.thread u) pc')
    (hown : Local o g' u pc') (henv : ∀ v, v ≠ u → Local o g' v (s.thread v)) :
    Inv o ⟨g', Function.update s.thread u pc'⟩ := by
  refine ⟨hk.1, fun v => ?_, ?_⟩
  · by_cases hv : v = u
    · subst hv
      simpa only [Function.update_self] using hown
    · simpa only [Function.update_of_ne hv] using henv v hv
  · rw [sum_claims_update]
    refine hk.2 _ ?_
    rw [Finset.add_sum_erase _ (fun v => claim (s.thread v)) (Finset.mem_univ u)]
    exact hi.balance

theorem local_owner : Local o g o pc ↔ OwnerInv g pc := by simp [Local]

theorem local_thief {u : Fin nr} (hu : u ≠ o) : Local o g u pc ↔ ThiefInv g pc := by
  simp [Local, hu]

/-- A step of the owner that the thieves can rely on. -/
theorem inv_ownerStep (hi : Inv o s) (h : OwnerStep s.shared g' (s.thread o) pc') :
    Inv o ⟨g', Function.update s.thread o pc'⟩ := by
  refine inv_of_parts hi h.2.1 (local_owner.mpr h.2.2) fun v hv => ?_
  exact (local_thief hv).mpr (thiefInv_owner h.1 ((local_thief hv).mp (hi.thread v)))

/-- A step of a thief. -/
theorem inv_thiefStep {u : Fin nr} (hu : u ≠ o) (hi : Inv o s) (hm : ThiefMove s.shared g')
    (hk : Keeps s.shared g' (s.thread u) pc') (h : ThiefInv g' pc') :
    Inv o ⟨g', Function.update s.thread u pc'⟩ := by
  refine inv_of_parts hi hk ((local_thief hu).mpr h) fun v _ => ?_
  by_cases hv : v = o
  · subst hv
    exact local_owner.mpr (ownerInv_thief hm (local_owner.mp (hi.thread v)))
  · exact (local_thief hv).mpr (thiefInv_thief hm ((local_thief hv).mp (hi.thread v)))

/-- The store of `deque_take` under the condition of a good run. -/
theorem inv_takeStore {b : ℕ} {x : Option V} (hi : Inv o s) (hpc : s.thread o = .takeStore b x)
    (htop : s.shared.top ≤ b) (hpast : ∀ v, ¬ PastCheck b (s.thread v)) :
    Inv o ⟨{ s.shared with bottom := b }, Function.update s.thread o (.gc (.work x) .array)⟩ := by
  have hown := local_owner.mp (hi.thread o)
  rw [hpc] at hown
  refine inv_of_parts hi ?_ (local_owner.mpr trivial) fun v hv => ?_
  · rw [hpc]
    exact takeStore_step hi.shared hown.1 hown.2 htop
  · exact (local_thief hv).mpr (thiefInv_lower htop (hpast v) ((local_thief hv).mp (hi.thread v)))

/-- An access of a call in progress, in a good run. -/
theorem inv_run {u : Fin nr} {junk : Option V} (hi : Inv o s) (hok : Ok s (u, .run junk))
    (hn : run u s.shared junk (s.thread u) = some (g', pc')) :
    Inv o ⟨g', Function.update s.thread u pc'⟩ := by
  simp only [Ok] at hok
  by_cases hu : u = o
  · subst hu
    by_cases hstore : ∃ b x, s.thread u = .takeStore b x
    · obtain ⟨b, x, hpc⟩ := hstore
      rw [hpc] at hn hok
      cases hn
      exact inv_takeStore hi hpc hok.1 hok.2
    · push Not at hstore
      exact inv_ownerStep hi (owner_step hi.shared (local_owner.mp (hi.thread u)) hstore hn)
  · obtain ⟨hm, hk, h⟩ := thief_step hi.shared ((local_thief hu).mp (hi.thread u))
      (fun a hpc => by
        rw [hpc] at hok
        exact hok rfl) hn
    exact inv_thiefStep hu hi hm hk h

/-- A weak compare-and-swap fails, and `deque_gc` returns. -/
theorem inv_fail {u : Fin nr} {r : Result V} {p : GcPc} (hi : Inv o s)
    (hpc : s.thread u = .gc r p) :
    Inv o ⟨s.shared.ret r, Function.update s.thread u .idle⟩ := by
  obtain ⟨hm, hk⟩ := gc_ret (r := r) (p := p) hi.shared
  rw [← hpc] at hk
  by_cases hu : u = o
  · subst hu
    exact inv_ownerStep hi ⟨.of_gc hm, hk, trivial⟩
  · exact inv_thiefStep hu hi (.gc hm) hk trivial

/-- The step lemma: a step that meets the condition keeps the invariant. -/
theorem inv_step {u : Fin nr} {a : Act V} (hi : Inv o s) (hok : Ok s (u, a))
    (hn : next o u s.shared (s.thread u) a = some (g', pc')) :
    Inv o ⟨g', Function.update s.thread u pc'⟩ := by
  rcases next_cases hn with ⟨junk, rfl, hrun⟩ | ⟨r, old, rfl, hpc, rfl, rfl⟩ | ⟨hpc, rfl, hcall⟩
  · exact inv_run hi hok hrun
  · exact inv_fail hi hpc
  · have hidle : ∀ l : Pc V, claim l = 0 → claim l = claim (s.thread u) := fun l hl => by
      rw [hpc, hl]
      rfl
    rcases hcall with ⟨w, rfl, rfl, rfl⟩ | ⟨rfl, rfl⟩ | ⟨hu, rfl⟩
    · exact inv_ownerStep hi (ownerStep_read hi.shared (hidle _ rfl) hok)
    · exact inv_ownerStep hi (ownerStep_read hi.shared (hidle _ rfl) trivial)
    · exact inv_thiefStep hu hi (.gc (.refl _)) ⟨hi.shared, fun _ hb => by rwa [hidle _ rfl]⟩ trivial

/-- The invariant holds after `deque_init`. -/
theorem inv_start (hsize : 1 ≤ sizeHint) : Inv o (start nr V sizeHint) := by
  refine ⟨⟨Nat.le_refl _, Nat.le_refl _, ?_, Nat.one_lt_two_pow (by decide), Nat.one_pos, hsize, ?_, ?_⟩,
    fun u => ?_, ?_⟩
  · change 1 ≤ 1 + sizeHint
    omega
  · intro a ha
    cases ha
  · intro a ha
    cases ha
  · unfold Local
    split <;> exact trivial
  · unfold Balanced
    simp [start, claim, window_self]

theorem inv_reachable (hsize : 1 ≤ sizeHint) (hr : (system V o sizeHint).Reachable Ok s) :
    Inv o s := by
  refine System.reachable_invariant (fun s hs => ?_) (fun s a s' _ hi hok hn => ?_) hr
  · cases hs
    exact inv_start hsize
  · obtain ⟨g', pc', hnext, rfl⟩ := Threads.step_cases hn
    exact inv_step hi hok hnext

theorem exactlyOnce_of_inv (hi : Inv o s) : ExactlyOnce s := by
  have hb : (s.shared.pushed.map some : Multiset (Option V)) =
      s.shared.returned + ∑ u, claim (s.thread u) + s.shared.contents := hi.balance
  refine ⟨?_, fun hidle => ?_⟩
  · rw [hb, add_assoc]
    exact Multiset.le_add_right _ _
  · have hzero : ∑ u, claim (s.thread u) = 0 :=
      Finset.sum_eq_zero fun u _ => by rw [hidle u]; rfl
    rw [hb, hzero, add_zero]

/-- Exactly-once delivery in every run whose steps all meet the condition. -/
theorem delivered_once (hsize : 1 ≤ sizeHint) (hr : (system V o sizeHint).Reachable Ok s) :
    ExactlyOnce s :=
  exactlyOnce_of_inv (inv_reachable hsize hr)

/-- Decides whether a thief has passed its check with another index than `b`, or none. -/
def away (b : ℕ) : Pc V → Bool
  | .stealArray t => t != b
  | .stealSlot t _ => t != b
  | .stealCas t _ => t != b
  | _ => true

/-- A test of the condition on a step, for the execution of schedules. -/
def okCheck (s : Config (Fin nr) (Shared nr V) (Pc V)) : Fin nr × Act V → Bool
  | (_, .push _) => decide (s.shared.bottom + 1 < 2 ^ 64)
  | (u, .run _) =>
    match s.thread u with
    | .takeStore b _ => decide (s.shared.top ≤ b) && decide (∀ v, away b (s.thread v) = true)
    | .stealSlot _ a => !s.shared.freed a
    | _ => true
  | _ => true

theorem not_pastCheck_of_away {b : ℕ} (h : away b pc = true) : ¬ PastCheck b pc := by
  cases pc <;> simp_all [away, PastCheck]

theorem ok_of_check {a : Fin nr × Act V} (h : okCheck s a = true) : Ok s a := by
  obtain ⟨u, a⟩ := a
  cases a with
  | run junk =>
    cases hpc : s.thread u with
    | takeStore b w =>
      simp only [okCheck, hpc, Bool.and_eq_true, decide_eq_true_eq] at h
      simp only [Ok, hpc]
      exact ⟨h.1, fun v => not_pastCheck_of_away (h.2 v)⟩
    | stealSlot t a =>
      simp only [okCheck, hpc, Bool.not_eq_true'] at h
      simp only [Ok, hpc]
      exact fun _ => h
    | _ => simp only [Ok, hpc]
  | push w => exact of_decide_eq_true (p := s.shared.bottom + 1 < 2 ^ 64) h
  | _ => trivial

/-- An owner and a thief; the second push makes the array grow. The thief steals the first work
while the owner takes the second, and frees the replaced array. -/
def growSchedule {nr : ℕ} (o t : Fin nr) : List (Fin nr × Act ℕ) :=
  (o, .push 7) :: List.replicate 8 (o, .run none) ++
    (o, .push 8) :: List.replicate 20 (o, .run none) ++
      [(t, .steal), (t, .run none), (o, .take)] ++ List.replicate 4 (o, .run none) ++
        List.replicate 3 (t, .run none) ++ (o, .run none) :: List.replicate 9 (t, .run none) ++
          List.replicate 3 (o, .run none)

theorem delivered_once_grow : ∃ s : Config (Fin 2) (Shared 2 ℕ) (Pc ℕ),
    s.shared.returned = [some 8, some 7] ∧ s.shared.freed 0 = true ∧ ExactlyOnce s := by
  have hrun : ((system ℕ (0 : Fin 2) 1).exec okCheck (start 2 _ 1) (growSchedule 0 1)).any
      (fun s => decide (s.shared.returned = [some 8, some 7]) && s.shared.freed 0) = true := by
    decide +kernel
  obtain ⟨s, hs, hret⟩ := (Option.any_eq_true _ _).mp hrun
  obtain ⟨hret, hfreed⟩ := (Bool.and_eq_true _ _).mp hret
  exact ⟨s, of_decide_eq_true hret, hfreed,
    delivered_once (Nat.le_refl 1) ⟨_, rfl, System.run_of_exec (fun _ _ => ok_of_check) hs⟩⟩

/-- The owner reads the second of two works, the thief steals both, and only then does the owner
store `bottom`. -/
def lateStore {nr : ℕ} (o t : Fin nr) : List (Fin nr × Act ℕ) :=
  (o, .push 7) :: List.replicate 8 (o, .run none) ++
    (o, .push 8) :: List.replicate 8 (o, .run none) ++
      (o, .take) :: List.replicate 4 (o, .run none) ++
        (t, .steal) :: List.replicate 8 (t, .run none) ++
          (t, .steal) :: List.replicate 8 (t, .run none) ++ List.replicate 4 (o, .run none)

/-- Without the condition a work is returned twice. -/
theorem delivered_twice : ∃ s : Config (Fin 2) (Shared 2 ℕ) (Pc ℕ),
    (system ℕ (0 : Fin 2) 8).Reachable System.free s ∧ ¬ ExactlyOnce s := by
  have hrun : ((system ℕ (0 : Fin 2) 8).exec (fun _ _ => true) (start 2 _ 8) (lateStore 0 1)).any
      (fun s => decide (s.shared.returned = [some 8, some 8, some 7] ∧
        s.shared.pushed = [8, 7])) = true := by decide +kernel
  obtain ⟨s, hs, hend⟩ := (Option.any_eq_true _ _).mp hrun
  obtain ⟨hret, hpush⟩ := of_decide_eq_true hend
  refine ⟨s, ⟨_, rfl, System.run_of_exec (fun _ _ _ => trivial) hs⟩, fun h => ?_⟩
  have hcard := Multiset.card_le_card h.1
  rw [hret, hpush] at hcard
  exact absurd hcard (by decide)

end LinuxSummer.Hina
