import LinuxSummer.WorkStealModel

/-! The invariant of the deque of hw3/work-steal.c. -/
namespace LinuxSummer.WorkSteal
open IndexWindow
set_option linter.unusedSectionVars false

variable {T V : Type*} {g g' : Shared V} {pc pc' : Pc V}

/-- What holds of the shared state between any two accesses. -/
structure Global (g : Shared V) : Prop where
  top_le : g.top ≤ g.high
  bottom_le : g.bottom ≤ g.high
  high_le : g.high ≤ g.top + (g.heap g.array).size
  high_lt : g.high < 2 ^ 64
  used : g.array < g.used
  size_pos : 0 < (g.heap g.array).size
  high_pos : g.pushed ≠ [] → 0 < g.high
  balance : (g.pushed.map some : Multiset (Option V)) =
    g.returned + g.claimed + window g.slot g.top g.high

/-- The owner has neither lowered `bottom` nor claimed a work. -/
def Calm (g : Shared V) : Prop := g.bottom = g.high ∧ g.claimed = []

/-- The owner is inside `push` and has loaded `b` from `bottom`. -/
def Pushing (g : Shared V) (b : ℕ) : Prop := Calm g ∧ b = g.high ∧ g.high + 1 < 2 ^ 64

/-- The owner is inside `resize`, and `new` is to replace the array `a`. -/
structure Resizing (g : Shared V) (b a new : ℕ) : Prop where
  pushing : Pushing g b
  array : a = g.array
  fresh : g.array < new
  used : new < g.used
  size : (g.heap new).size = (g.heap g.array).size * 2

/-- The new array holds the works of the deque below `i`. -/
def Copied (g : Shared V) (new i : ℕ) : Prop :=
  ∀ j, g.top ≤ j → j < i → g.load new j = g.slot j

/-- `take` has lowered `bottom` to `b` and claimed nothing. -/
def Lowered (g : Shared V) (b : ℕ) : Prop := g.bottom = b ∧ b + 1 = g.high ∧ g.claimed = []

def OwnerInv (g : Shared V) : Pc V → Prop
  | .idle => Calm g
  | .pushBottom _ => Calm g ∧ g.high + 1 < 2 ^ 64
  | .pushTop _ b => Pushing g b
  | .pushArray _ b t => Pushing g b ∧ t ≤ g.top
  | .resizeArray _ b => Pushing g b
  | .resizeTop _ b a new => Resizing g b a new
  | .resizeBottom _ b a new t => Resizing g b a new ∧ t ≤ g.top
  | .copyLoad _ b a new i e => Resizing g b a new ∧ e = g.high ∧ i < e ∧ Copied g new i
  | .copyStore _ b a new i e x =>
    Resizing g b a new ∧ e = g.high ∧ i < e ∧ Copied g new i ∧ (g.top ≤ i → x = g.slot i)
  | .resizeStore _ b new => Resizing g b g.array new ∧ Copied g new g.high
  | .pushReload _ b => Pushing g b ∧ g.high < g.top + (g.heap g.array).size
  | .pushSlot _ b a => Pushing g b ∧ g.high < g.top + (g.heap g.array).size ∧ a = g.array
  | .pushStore w b =>
    Pushing g b ∧ g.high < g.top + (g.heap g.array).size ∧ g.slot b = some w
  | .takeBottom => Calm g ∧ 0 < g.high
  | .takeArray b => Calm g ∧ b + 1 = g.high
  | .takeLower b a => Calm g ∧ b + 1 = g.high ∧ a = g.array
  | .takeTop b a => Lowered g b ∧ a = g.array
  | .takeSlot b a t => a = g.array ∧
    (t = b ∧ Lowered g b ∧ b ≤ g.top ∨
      t ≠ b ∧ g.bottom = b ∧ g.high = b ∧ g.claimed = [g.slot b])
  | .takeCas b x => Lowered g b ∧ b ≤ g.top ∧ (g.top = b → x = g.slot b)
  | .takeRestore b r => g.bottom = b ∧ b + 1 = g.high ∧
    (r = .empty ∧ g.claimed = [] ∨ ∃ x, r = .work x ∧ g.claimed = [x])
  | _ => False

/-- A thief whose index is still `top` has passed its check against `bottom` in time, and the
array it holds, or the work it read, is right. -/
def ThiefInv (g : Shared V) : Pc V → Prop
  | .idle => True
  | .stealTop => True
  | .stealBottom t => t ≤ g.top
  | .stealArray t => t ≤ g.top ∧ (t = g.top → t < g.high)
  | .stealSlot t a =>
    t ≤ g.top ∧ a ≤ g.array ∧ (t = g.top → t < g.high ∧ g.load a t = g.slot t)
  | .stealCas t x => t ≤ g.top ∧ (t = g.top → t < g.high ∧ x = g.slot t)
  | _ => False

def Local (g : Shared V) : Who T → Pc V → Prop
  | .owner, pc => OwnerInv g pc
  | .thief _, pc => ThiefInv g pc

attribute [local simp] run OwnerInv ThiefInv

/-- What a thief may do to the shared state: it moves `top` up by one, inside the deque. -/
inductive ThiefMove (g : Shared V) : Shared V → Prop
  | same : ThiefMove g g
  | top (x : Option V) : g.top < g.high →
      ThiefMove g { g with top := g.top + 1, returned := x :: g.returned }

/-- What the owner may do to the shared state, as far as thieves rely on it: unless `top` grows,
the index `top` stays in the deque, and both the current array and the arrays thieves hold keep
its work. -/
structure OwnerMove (g g' : Shared V) : Prop where
  top_le : g.top ≤ g'.top
  array_le : g.array ≤ g'.array
  keep : g'.top = g.top → g.top < g.high → g.top < g'.high ∧ g'.slot g.top = g.slot g.top ∧
    ∀ a, a ≤ g.array → g'.load a g.top = g.load a g.top

theorem OwnerMove.refl (g : Shared V) : OwnerMove g g :=
  ⟨Nat.le_refl _, Nat.le_refl _, fun _ h => ⟨h, rfl, fun _ _ => rfl⟩⟩

/-- An owner's step that changes neither the arrays nor `top` nor `high`. -/
theorem OwnerMove.of_same (htop : g'.top = g.top) (hhigh : g'.high = g.high)
    (harray : g'.array = g.array) (hheap : g'.heap = g.heap) : OwnerMove g g' := by
  refine ⟨htop.ge, harray.ge, fun _ h => ⟨hhigh ▸ h, ?_, fun a _ => ?_⟩⟩
  · simp only [Shared.slot, harray, hheap]
  · simp only [Shared.load, hheap]

/-- Thieves keep their invariant when the owner moves. -/
theorem thiefInv_owner (hm : OwnerMove g g') (h : ThiefInv g pc) : ThiefInv g' pc := by
  have hle := hm.top_le
  have harr := hm.array_le
  have hkeep := hm.keep
  cases pc <;> simp only [ThiefInv] at h ⊢
  case stealBottom t => omega
  case stealArray t =>
    refine ⟨by omega, fun ht => ?_⟩
    have htop : t = g.top := by omega
    exact htop ▸ (hkeep (by omega) (htop ▸ h.2 htop)).1
  case stealSlot t a =>
    refine ⟨by omega, by omega, fun ht => ?_⟩
    have htop : t = g.top := by omega
    subst htop
    obtain ⟨hlt, heq⟩ := h.2.2 rfl
    obtain ⟨hlt', hslot, hload⟩ := hkeep ht.symm hlt
    exact ⟨hlt', by rw [hload a h.2.1, heq, hslot]⟩
  case stealCas t x =>
    refine ⟨by omega, fun ht => ?_⟩
    have htop : t = g.top := by omega
    subst htop
    obtain ⟨hlt, heq⟩ := h.2 rfl
    obtain ⟨hlt', hslot, -⟩ := hkeep ht.symm hlt
    exact ⟨hlt', by rw [heq, hslot]⟩

/-- The owner keeps its invariant when a thief moves. -/
theorem ownerInv_thief (hm : ThiefMove g g') (h : OwnerInv g pc) : OwnerInv g' pc := by
  cases hm with
  | same => exact h
  | top x hlt =>
    have hres : ∀ {b a new}, Resizing g b a new →
        Resizing { g with top := g.top + 1, returned := x :: g.returned } b a new :=
      fun h => ⟨h.pushing, h.array, h.fresh, h.used, h.size⟩
    have hcopy : ∀ {new i}, Copied g new i →
        Copied { g with top := g.top + 1, returned := x :: g.returned } new i :=
      fun h j hj => h j (by simp only at hj; omega)
    cases pc <;> simp only [OwnerInv] at h ⊢
    case resizeTop => exact hres h
    case resizeBottom => exact ⟨hres h.1, by omega⟩
    case copyLoad => exact ⟨hres h.1, h.2.1, h.2.2.1, hcopy h.2.2.2⟩
    case copyStore =>
      exact ⟨hres h.1, h.2.1, h.2.2.1, hcopy h.2.2.2.1, fun hi => h.2.2.2.2 (by omega)⟩
    case resizeStore => exact ⟨hres h.1, hcopy h.2⟩
    case pushArray => exact ⟨h.1, by omega⟩
    case pushReload => exact ⟨h.1, by omega⟩
    case pushSlot => exact ⟨h.1, by omega, h.2.2⟩
    case pushStore => exact ⟨h.1, by omega, h.2.2⟩
    case takeSlot b a t =>
      refine ⟨h.1, ?_⟩
      rcases h.2 with ⟨ht, hlow, hle⟩ | h
      · exact Or.inl ⟨ht, hlow, by omega⟩
      · exact Or.inr h
    case takeCas b x' => exact ⟨h.1, by omega, fun hb => absurd h.2.1 (by omega)⟩
    all_goals exact h

theorem thiefInv_thief (hm : ThiefMove g g') (h : ThiefInv g pc) : ThiefInv g' pc := by
  cases hm with
  | same => exact h
  | top x hlt =>
    cases pc <;> simp only [ThiefInv] at h ⊢
    case stealBottom => omega
    case stealArray => exact ⟨by omega, fun ht => absurd h.1 (by omega)⟩
    case stealSlot => exact ⟨by omega, h.2.1, fun ht => absurd h.1 (by omega)⟩
    case stealCas => exact ⟨by omega, fun ht => absurd h.1 (by omega)⟩

/-- What a step of a thief does. -/
theorem thief_step (hg : Global g) (h : ThiefInv g pc)
    (hn : run g pc = some (g', pc')) : ThiefMove g g' ∧ Global g' ∧ ThiefInv g' pc' := by
  cases pc <;> simp only [ThiefInv] at h <;> simp only [run] at hn
  case idle => cases hn
  case stealTop =>
    cases hn
    exact ⟨.same, hg, Nat.le_refl _⟩
  case stealBottom t =>
    split at hn
    · cases hn
      exact ⟨.same, hg, h, fun _ => Nat.lt_of_lt_of_le ‹_› hg.bottom_le⟩
    · cases hn
      exact ⟨.same, hg, trivial⟩
  case stealArray t =>
    cases hn
    exact ⟨.same, hg, h.1, Nat.le_refl _, fun ht => ⟨h.2 ht, rfl⟩⟩
  case stealSlot t a =>
    cases hn
    exact ⟨.same, hg, h.1, h.2.2⟩
  case stealCas t x =>
    split at hn
    · rename_i htop
      cases hn
      obtain ⟨hlt, hx⟩ := h.2 htop.symm
      have hlt' := hg.high_lt
      have hinc : inc t = g.top + 1 := by
        rw [inc, htop, Nat.mod_eq_of_lt (by omega)]
      rw [Shared.ret, hinc]
      refine ⟨.top x (by omega), ⟨?_, hg.bottom_le, ?_, hlt', hg.used, hg.size_pos, hg.high_pos,
        ?_⟩, trivial⟩
      · change g.top + 1 ≤ g.high
        omega
      · have hle := hg.high_le
        change g.high ≤ g.top + 1 + (g.heap g.array).size
        omega
      · have hbal := hg.balance
        rw [window_front (by omega), htop, ← hx, Multiset.add_cons] at hbal
        rw [hbal, htop, ← Multiset.cons_coe, Multiset.cons_add, Multiset.cons_add]
        rfl
    · cases hn
      exact ⟨.same, hg, trivial⟩

/-- A step that at most writes to arrays beyond the current one. -/
theorem OwnerMove.of_private (htop : g'.top = g.top) (hhigh : g'.high = g.high)
    (harray : g'.array = g.array) (hheap : ∀ a, a ≤ g.array → g'.heap a = g.heap a) :
    OwnerMove g g' := by
  refine ⟨htop.ge, harray.ge, fun _ h => ⟨hhigh ▸ h, ?_, fun a ha => ?_⟩⟩
  · simp only [Shared.slot, harray, hheap _ (Nat.le_refl _)]
  · simp only [Shared.load, hheap a ha]

theorem Global.of_private (hg : Global g) (hrest : (g'.top, g'.bottom, g'.array, g'.high,
    g'.pushed, g'.claimed, g'.returned) = (g.top, g.bottom, g.array, g.high, g.pushed, g.claimed,
    g.returned)) (hused : g.used ≤ g'.used) (hheap : g'.heap g.array = g.heap g.array) :
    Global g' := by
  obtain ⟨h₁, h₂, h₃, h₄, h₅, h₆, h₇⟩ := by simpa only [Prod.mk.injEq] using hrest
  have hslot : g'.slot = g.slot := by
    funext j
    simp only [Shared.slot, h₃, hheap]
  have hu := hg.used
  refine ⟨?_, ?_, ?_, ?_, ?_, ?_, ?_, ?_⟩
  · rw [h₁, h₄]
    exact hg.top_le
  · rw [h₂, h₄]
    exact hg.bottom_le
  · rw [h₁, h₃, h₄, hheap]
    exact hg.high_le
  · rw [h₄]
    exact hg.high_lt
  · omega
  · rw [h₃, hheap]
    exact hg.size_pos
  · rw [h₄, h₅]
    exact hg.high_pos
  · rw [h₁, h₄, h₅, h₆, h₇, hslot]
    exact hg.balance

/-- The head of the copy loop. -/
theorem ownerInv_copyLoop {w : V} {b a new i e : ℕ} (hr : Resizing g b a new) (he : e = g.high)
    (hc : Copied g new i) : OwnerInv g (copyLoop w b a new i e) := by
  unfold copyLoop
  split
  · exact ⟨hr, he, ‹_›, hc⟩
  · have harray := hr.array
    subst harray
    exact ⟨hr, fun j hj hjh => hc j hj (by omega)⟩

/-- The store of the copy loop puts one more work into the new array. -/
theorem copied_store {b a new i : ℕ} {x : Option V} (hg : Global g) (hr : Resizing g b a new)
    (hi : i < g.high) (hc : Copied g new i) (hx : g.top ≤ i → x = g.slot i) :
    Copied (g.store new i x) new (i + 1) := by
  intro j hj hji
  have hne : new ≠ g.array := Nat.ne_of_gt hr.fresh
  have hslot : (g.store new i x).slot j = g.slot j := by
    simp only [Shared.slot, Shared.store, putAt_of_ne hne.symm]
  have hle := hg.high_le
  have hsize := hr.size
  rw [hslot]
  change g.top ≤ j at hj
  by_cases hij : j = i
  · subst hij
    simp only [← hx hj, Shared.load, Shared.store, putAt_self, SlotArray.get_put_self]
  · rw [← hc j hj (by omega)]
    exact get_putAt_of_ne (mod_ne (by omega) (by omega))

/-- A step of the owner is one that thieves can rely on, and it keeps the invariant. -/
def OwnerStep (g g' : Shared V) (pc' : Pc V) : Prop :=
  OwnerMove g g' ∧ Global g' ∧ OwnerInv g' pc'

theorem resizeStore_step {w : V} {b new : ℕ} (hg : Global g) (hres : Resizing g b g.array new)
    (hcopy : Copied g new g.high) :
    OwnerStep g { g with array := new } (.pushReload w b) := by
  have hle := hg.high_le
  have hpos := hg.size_pos
  have hsize := hres.size
  refine ⟨⟨Nat.le_refl _, Nat.le_of_lt hres.fresh, fun _ hlt => ⟨hlt, ?_, fun _ _ => rfl⟩⟩,
    ⟨hg.top_le, hg.bottom_le, ?_, hg.high_lt, hres.used, ?_, hg.high_pos, ?_⟩, hres.pushing, ?_⟩
  · exact hcopy g.top (Nat.le_refl _) hlt
  · change g.high ≤ g.top + (g.heap new).size
    omega
  · change 0 < (g.heap new).size
    omega
  · rw [hg.balance]
    congr 1
    exact window_congr fun j hj hjh => (hcopy j hj hjh).symm
  · change g.high < g.top + (g.heap new).size
    omega

/-- The store of `push` goes to a slot that no index of the deque has. -/
theorem pushSlot_step {w : V} {b : ℕ} (hg : Global g) (hp : Pushing g b)
    (hroom : g.high < g.top + (g.heap g.array).size) :
    OwnerStep g (g.store g.array b (some w)) (.pushStore w b) := by
  obtain ⟨hcalm, rfl, hlt⟩ := hp
  have hkeep : ∀ a j, g.top ≤ j → j < g.high →
      (g.store g.array g.high (some w)).load a j = g.load a j := fun a j hj hjh =>
    get_putAt_of_ne (mod_ne hjh (by omega))
  have hsize : ((g.store g.array g.high (some w)).heap g.array).size = (g.heap g.array).size :=
    size_putAt
  refine ⟨⟨Nat.le_refl _, Nat.le_refl _, fun _ hth => ⟨hth, hkeep _ _ (Nat.le_refl _) hth,
    fun a _ => hkeep a _ (Nat.le_refl _) hth⟩⟩, ⟨hg.top_le, hg.bottom_le, ?_, hg.high_lt, hg.used, ?_, hg.high_pos, ?_⟩,
    ⟨hcalm, rfl, hlt⟩, ?_, ?_⟩
  · rw [← hsize] at hroom
    exact hroom.le
  · exact hg.size_pos.trans_eq hsize.symm
  · rw [show (g.store g.array g.high (some w)).pushed = g.pushed from rfl, hg.balance]
    congr 1
    exact window_congr fun j hj hjh => (hkeep _ j hj hjh).symm
  · rw [← hsize] at hroom
    exact hroom
  · simp only [Shared.slot, Shared.store, putAt_self, SlotArray.get_put_self]

/-- The store to `bottom` puts the work into the deque. -/
theorem pushStore_step {w : V} {b : ℕ} (hg : Global g) (hp : Pushing g b)
    (hroom : g.high < g.top + (g.heap g.array).size) (hw : g.slot b = some w) :
    OwnerStep g { g with bottom := inc b, high := inc b, pushed := w :: g.pushed } .idle := by
  obtain ⟨hcalm, rfl, hlt⟩ := hp
  have htop := hg.top_le
  rw [inc_eq hlt]
  refine ⟨⟨Nat.le_refl _, Nat.le_refl _, fun _ h => ⟨?_, rfl, fun _ _ => rfl⟩⟩,
    ⟨?_, Nat.le_refl _, ?_, hlt, hg.used, hg.size_pos, fun _ => Nat.succ_pos _, ?_⟩,
    rfl, hcalm.2⟩
  · exact Nat.lt_succ_of_lt h
  · exact Nat.le_succ_of_le htop
  · exact hroom
  · have hbal := hg.balance
    change ((w :: g.pushed).map some : Multiset (Option V)) =
      g.returned + g.claimed + window g.slot g.top (g.high + 1)
    rw [window_back htop, hw, Multiset.add_cons, ← hbal, List.map_cons, Multiset.cons_coe]

/-- `take` reads `top` after it has lowered `bottom`. -/
theorem takeTop_step {b : ℕ} (hg : Global g) (hl : Lowered g b)
    (hn : run g (.takeTop b g.array) = some (g', pc')) : OwnerStep g g' pc' := by
  obtain ⟨hbot, hhigh, hclaim⟩ := hl
  have hle := hg.high_le
  have hlt := hg.high_lt
  simp only [run] at hn
  split at hn
  · rename_i htop
    cases hn
    refine ⟨⟨Nat.le_refl _, Nat.le_refl _, fun _ _ => ⟨htop, rfl, fun _ _ => rfl⟩⟩,
      ⟨htop.le, hbot.le, ?_, ?_, hg.used, hg.size_pos, fun _ => ?_, ?_⟩, rfl,
      Or.inr ⟨Nat.ne_of_lt htop, hbot, rfl, rfl⟩⟩
    · change b ≤ g.top + (g.heap g.array).size
      omega
    · change b < 2 ^ 64
      omega
    · change 0 < b
      omega
    · have hbal := hg.balance
      rw [← hhigh, window_back htop.le, hclaim] at hbal
      change (g.pushed.map some : Multiset (Option V)) =
        g.returned + ([g.slot b] : List (Option V)) + window g.slot g.top b
      rw [hbal, Multiset.coe_nil, add_zero, Multiset.coe_singleton, add_assoc,
        Multiset.singleton_add]
  · rename_i hnot
    split at hn
    · rename_i htop
      cases hn
      exact ⟨.refl g, hg, rfl, Or.inl ⟨htop, ⟨hbot, hhigh, hclaim⟩, htop.ge⟩⟩
    · cases hn
      exact ⟨.refl g, hg, hbot, hhigh, Or.inl ⟨rfl, hclaim⟩⟩

/-- `take` returns a work that was not the last one. -/
theorem takeSlot_step {b : ℕ} (hg : Global g) (hbot : g.bottom = b) (hhigh : g.high = b)
    (hclaim : g.claimed = [g.slot b]) :
    OwnerStep g ({ g with claimed := [] }.ret (.work (g.slot b))) .idle := by
  refine ⟨.of_same rfl rfl rfl rfl, ⟨hg.top_le, hg.bottom_le, hg.high_le, hg.high_lt, hg.used,
    hg.size_pos, hg.high_pos, ?_⟩, hbot.trans hhigh.symm, rfl⟩
  have hbal := hg.balance
  rw [hclaim] at hbal
  change (g.pushed.map some : Multiset (Option V)) =
    (g.slot b :: g.returned : List (Option V)) + ([] : List (Option V)) + window g.slot g.top g.high
  rw [hbal, Multiset.coe_nil, add_zero, Multiset.coe_singleton, ← Multiset.cons_coe,
    add_comm (g.returned : Multiset (Option V)), Multiset.singleton_add]

/-- The race for the last work. -/
theorem takeCas_step {b : ℕ} {x : Option V} (hg : Global g) (hl : Lowered g b)
    (hx : g.top = b → x = g.slot b) (hn : run g (.takeCas b x) = some (g', pc')) :
    OwnerStep g g' pc' := by
  obtain ⟨hbot, hhigh, hclaim⟩ := hl
  have hlt := hg.high_lt
  simp only [run] at hn
  split at hn
  · rename_i htop
    cases hn
    rw [inc_eq (by omega)]
    refine ⟨⟨?_, Nat.le_refl _, fun h => ?_⟩, ⟨hhigh.le, hg.bottom_le, ?_, hlt, hg.used,
      hg.size_pos, hg.high_pos, ?_⟩, hbot, hhigh, Or.inr ⟨x, rfl, rfl⟩⟩
    · change g.top ≤ b + 1
      omega
    · change b + 1 = g.top at h
      omega
    · change g.high ≤ b + 1 + (g.heap g.array).size
      omega
    · have hbal := hg.balance
      rw [← hhigh, htop, window_front (Nat.lt_succ_self b), window_self, hclaim, ← hx htop] at hbal
      change (g.pushed.map some : Multiset (Option V)) =
        g.returned + ([x] : List (Option V)) + window g.slot (b + 1) g.high
      rw [hbal, ← hhigh, window_self, Multiset.coe_nil, Multiset.coe_singleton]
      simp
  · cases hn
    exact ⟨.refl g, hg, hbot, hhigh, Or.inl ⟨rfl, hclaim⟩⟩

/-- `take` puts `bottom` back and returns. -/
theorem takeRestore_step {b : ℕ} {r : Result V} (hg : Global g) (hhigh : b + 1 = g.high)
    (hr : r = .empty ∧ g.claimed = [] ∨ ∃ x, r = .work x ∧ g.claimed = [x]) :
    OwnerStep g ({ g with bottom := inc b, claimed := [] }.ret r) .idle := by
  have hlt := hg.high_lt
  rw [inc_eq (by omega), hhigh]
  rcases hr with ⟨rfl, hclaim⟩ | ⟨x, rfl, hclaim⟩
  · refine ⟨.of_same rfl rfl rfl rfl, ⟨hg.top_le, Nat.le_refl _, hg.high_le, hg.high_lt, hg.used,
      hg.size_pos, hg.high_pos, ?_⟩, rfl, rfl⟩
    have hbal := hg.balance
    rw [hclaim] at hbal
    exact hbal
  · refine ⟨.of_same rfl rfl rfl rfl, ⟨hg.top_le, Nat.le_refl _, hg.high_le, hg.high_lt, hg.used,
      hg.size_pos, hg.high_pos, ?_⟩, rfl, rfl⟩
    have hbal := hg.balance
    rw [hclaim] at hbal
    change (g.pushed.map some : Multiset (Option V)) =
      (x :: g.returned : List (Option V)) + ([] : List (Option V)) + window g.slot g.top g.high
    rw [hbal, Multiset.coe_nil, add_zero, Multiset.coe_singleton, ← Multiset.cons_coe,
      add_comm (g.returned : Multiset (Option V)), Multiset.singleton_add]

/-- What a step of the owner does. -/
theorem owner_step (hg : Global g) (h : OwnerInv g pc) (hn : run g pc = some (g', pc')) :
    OwnerStep g g' pc' := by
  have hlt := hg.high_lt
  have htop := hg.top_le
  cases pc <;> simp only [OwnerInv] at h <;> simp only [run] at hn
  case idle => cases hn
  case pushBottom w =>
    cases hn
    exact ⟨.refl g, hg, h.1, h.1.1, h.2⟩
  case pushTop w b =>
    cases hn
    exact ⟨.refl g, hg, h, Nat.le_refl _⟩
  case pushArray w b t =>
    obtain ⟨hp, ht⟩ := h
    split at hn
    · cases hn
      exact ⟨.refl g, hg, hp⟩
    · rename_i hroom
      cases hn
      have hb := hp.2.1
      have hpos := hg.size_pos
      rw [hb, sub_eq (by omega) hlt] at hroom
      exact ⟨.refl g, hg, hp, by omega, rfl⟩
  case resizeArray w b =>
    cases hn
    have hne : g.array ≠ g.used := Nat.ne_of_lt hg.used
    refine ⟨.of_private rfl rfl rfl fun a ha => ?_, hg.of_private rfl (Nat.le_succ _) ?_, h, rfl,
      hg.used, Nat.lt_succ_self _, ?_⟩
    · have hu := hg.used
      exact Function.update_of_ne (by omega) _ _
    · exact Function.update_of_ne hne _ _
    · simp [hne]
  case resizeTop w b a new =>
    cases hn
    exact ⟨.refl g, hg, h, Nat.le_refl _⟩
  case resizeBottom w b a new t =>
    cases hn
    refine ⟨.refl g, hg, ownerInv_copyLoop h.1 h.1.pushing.1.1 fun j hj hjt => ?_⟩
    have ht := h.2
    omega
  case copyLoad w b a new i e =>
    cases hn
    obtain ⟨hres, he, hi, hcopy⟩ := h
    refine ⟨.refl g, hg, hres, he, hi, hcopy, fun _ => ?_⟩
    rw [hres.array]
    rfl
  case copyStore w b a new i e x =>
    cases hn
    obtain ⟨hres, he, hi, hcopy, hx⟩ := h
    have hfresh := hres.fresh
    have hheap : ∀ a, a ≤ g.array → (g.store new i x).heap a = g.heap a := fun a ha =>
      Function.update_of_ne (by omega) _ _
    have hres' : Resizing (g.store new i x) b a new :=
      ⟨hres.pushing, hres.array, hres.fresh, hres.used, by
        simpa only [Shared.store, size_putAt] using hres.size⟩
    rw [inc_eq (by omega)]
    exact ⟨.of_private rfl rfl rfl hheap, hg.of_private rfl (Nat.le_refl _)
      (hheap _ (Nat.le_refl _)), ownerInv_copyLoop hres' he
        (copied_store hg hres (by omega) hcopy hx)⟩
  case resizeStore w b new =>
    cases hn
    exact resizeStore_step hg h.1 h.2
  case pushReload w b =>
    cases hn
    exact ⟨.refl g, hg, h.1, h.2, rfl⟩
  case pushSlot w b a =>
    cases hn
    obtain ⟨hp, hroom, rfl⟩ := h
    exact pushSlot_step hg hp hroom
  case pushStore w b =>
    cases hn
    exact pushStore_step hg h.1 h.2.1 h.2.2
  case takeBottom =>
    cases hn
    refine ⟨.refl g, hg, h.1, ?_⟩
    rw [h.1.1]
    exact dec_add_one h.2 hlt
  case takeArray b =>
    cases hn
    exact ⟨.refl g, hg, h.1, h.2, rfl⟩
  case takeLower b a =>
    cases hn
    obtain ⟨hcalm, hhigh, rfl⟩ := h
    refine ⟨.of_same rfl rfl rfl rfl, ⟨htop, ?_, hg.high_le, hlt, hg.used, hg.size_pos,
      hg.high_pos, hg.balance⟩, ⟨rfl, hhigh, hcalm.2⟩, rfl⟩
    change b ≤ g.high
    omega
  case takeTop b a =>
    obtain ⟨hl, rfl⟩ := h
    exact takeTop_step hg hl hn
  case takeSlot b a t =>
    obtain ⟨rfl, ⟨rfl, hl, hle⟩ | ⟨hne, hbot, hhigh, hclaim⟩⟩ := h
    · rw [if_pos rfl] at hn
      cases hn
      exact ⟨.refl g, hg, hl, hle, fun _ => rfl⟩
    · rw [if_neg hne] at hn
      cases hn
      exact takeSlot_step hg hbot hhigh hclaim
  case takeCas b x => exact takeCas_step hg h.1 h.2.2 hn
  case takeRestore b r =>
    cases hn
    exact takeRestore_step hg h.2.1 h.2.2

/-- A call in progress makes its next access; an idle thread enters a call. -/
theorem next_cases {u : Who T} {a : Act V} (hn : next u g pc a = some (g', pc')) :
    run g pc = some (g', pc') ∨ g' = g ∧ pc = .idle ∧
      ((∃ w, u = .owner ∧ a = .push w ∧ pc' = .pushBottom w) ∨
        (u = .owner ∧ a = .take ∧ pc' = .takeBottom) ∨ ∃ t, u = .thief t ∧ pc' = .stealTop) := by
  unfold next at hn
  split at hn
  · cases hn
    exact Or.inr ⟨rfl, rfl, Or.inl ⟨_, rfl, rfl, rfl⟩⟩
  · cases hn
    exact Or.inr ⟨rfl, rfl, Or.inr (Or.inl ⟨rfl, rfl, rfl⟩)⟩
  · cases hn
    exact Or.inr ⟨rfl, rfl, Or.inr (Or.inr ⟨_, rfl, rfl⟩)⟩
  · exact Or.inl hn
  · cases hn

/-- A step as the other threads see it. -/
def Moves (g g' : Shared V) : Who T → Prop
  | .owner => OwnerMove g g'
  | .thief _ => ThiefMove g g'

/-- What a step of a thread does to the shared state and to its own part of the invariant. -/
theorem next_spec {u : Who T} {a : Act V} (hg : Global g) (h : Local g u pc)
    (htake : a = .take → g.pushed ≠ []) (hpush : (∃ w, a = .push w) → g.bottom + 1 < 2 ^ 64)
    (hn : next u g pc a = some (g', pc')) :
    Moves g g' u ∧ Global g' ∧ Local g' u pc' := by
  rcases next_cases hn with hrun | ⟨rfl, rfl, hcall⟩
  · cases u with
    | owner => exact owner_step hg h hrun
    | thief t => exact thief_step hg h hrun
  · rcases hcall with ⟨w, rfl, rfl, rfl⟩ | ⟨rfl, rfl, rfl⟩ | ⟨t, rfl, rfl⟩
    · refine ⟨.refl g', hg, h, ?_⟩
      rw [← h.1]
      exact hpush ⟨w, rfl⟩
    · exact ⟨.refl g', hg, h, hg.high_pos (htake rfl)⟩
    · exact ⟨.same, hg, trivial⟩

/-- The other threads keep their part of the invariant. -/
theorem local_moves {u v : Who T} (huv : v ≠ u) (hm : Moves g g' u) (h : Local g v pc) :
    Local g' v pc := by
  cases u with
  | owner =>
    cases v with
    | owner => exact absurd rfl huv
    | thief t => exact thiefInv_owner hm h
  | thief t =>
    cases v with
    | owner => exact ownerInv_thief hm h
    | thief t' => exact thiefInv_thief hm h

/-- The invariant of a configuration. -/
def Inv (s : Config (Who T) (Shared V) (Pc V)) : Prop :=
  Threads.Inv Global (fun u g pc => Local g u pc) s

variable [DecidableEq T] {s : Config (Who T) (Shared V) (Pc V)} {sizeHint : ℕ}

theorem inv_reachable (hsize : 1 ≤ sizeHint) (hr : (system T V sizeHint).Reachable Ok s) :
    Inv s := by
  refine System.reachable_invariant ?_ ?_ hr
  · rintro s rfl
    refine ⟨⟨Nat.le_refl _, Nat.le_refl _, Nat.zero_le _, Nat.two_pow_pos 64, Nat.one_pos, hsize,
      fun h => absurd rfl h, rfl⟩, fun u => ?_⟩
    cases u with
    | owner => exact ⟨rfl, rfl⟩
    | thief t => trivial
  · rintro s ⟨u, a⟩ s' _ hi hok hn
    have hspec : ∀ g' pc', next u s.shared (s.thread u) a = some (g', pc') →
        Moves s.shared g' u ∧ Global g' ∧ Local g' u pc' :=
      fun g' pc' => next_spec hi.1 (hi.2 u) hok.1 hok.2
    refine Threads.inv_step (fun g' pc' hn => (hspec g' pc' hn).2)
      (fun v g' pc' hv hn => ?_) hn
    exact local_moves hv (hspec g' pc' hn).1 (hi.2 v)

end LinuxSummer.WorkSteal
