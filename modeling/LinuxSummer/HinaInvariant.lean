import Mathlib.Algebra.BigOperators.Fin
import LinuxSummer.HinaModel

/-! The invariant of the deque of hw3/work-steal-qsort. It holds in the runs in which
`deque_take` finds the index it takes still in the deque when it stores `bottom`. -/
namespace LinuxSummer.Hina
open IndexWindow
set_option linter.unusedSectionVars false

variable {nr : ℕ} {V : Type*} {g g' : Shared nr V} {pc pc' : Pc V}

/-- A call in progress makes its next access, a weak compare-and-swap fails, or an idle thread
enters a call. -/
theorem next_cases {o u : Fin nr} {a : Act V} (hn : next o u g pc a = some (g', pc')) :
    (∃ junk, a = .run junk ∧ run u g junk pc = some (g', pc')) ∨
      (∃ r old, a = .fail ∧ pc = .gc r (.cas old) ∧ g' = g.ret r ∧ pc' = .idle) ∨
      (pc = .idle ∧ g' = g ∧ ((∃ w, u = o ∧ a = .push w ∧ pc' = .pushBottom w) ∨
        (u = o ∧ pc' = .takeBottom) ∨ (u ≠ o ∧ pc' = .stealTop))) := by
  unfold next at hn
  split at hn
  · split at hn
    · cases hn
      exact Or.inr (Or.inr ⟨rfl, rfl, Or.inl ⟨_, ‹_›, rfl, rfl⟩⟩)
    · cases hn
  · split at hn
    · cases hn
      exact Or.inr (Or.inr ⟨rfl, rfl, Or.inr (Or.inl ⟨‹_›, rfl⟩)⟩)
    · cases hn
  · split at hn
    · cases hn
    · cases hn
      exact Or.inr (Or.inr ⟨rfl, rfl, Or.inr (Or.inr ⟨‹_›, rfl⟩)⟩)
  · cases hn
    exact Or.inr (Or.inl ⟨_, _, rfl, rfl, rfl, rfl⟩)
  · exact Or.inl ⟨_, rfl, hn⟩
  · cases hn

/-- What holds of the shared state between any two accesses. -/
structure Global (g : Shared nr V) : Prop where
  top_pos : 1 ≤ g.top
  top_le : g.top ≤ g.bottom
  bottom_le : g.bottom ≤ g.top + (g.heap g.array).size
  bottom_lt : g.bottom < 2 ^ 64
  used : g.array < g.used
  size_pos : 0 < (g.heap g.array).size
  old_lt : ∀ a, g.oldArray = some a → a < g.array
  freed_lt : ∀ a, g.freed a = true → a < g.array

/-- The pushed works are the returned ones, those that calls in progress are to return, and those
in the deque. -/
def Balanced (g : Shared nr V) (claims : Multiset (Option V)) : Prop :=
  (g.pushed.map some : Multiset (Option V)) = g.returned + claims + window g.slot g.top g.bottom

/-- The work in a result. -/
def Result.works : Result V → Multiset (Option V)
  | .work x => {x}
  | _ => 0

/-- The work that a call is to return. -/
def claim : Pc V → Multiset (Option V)
  | .gc r _ => r.works
  | _ => 0

/-- The owner is inside `deque_push` and has loaded `b` from `bottom`. -/
def Pushing (g : Shared nr V) (b : ℕ) : Prop := b = g.bottom ∧ g.bottom + 1 < 2 ^ 64

/-- There is a free slot. -/
def Room (g : Shared nr V) : Prop := g.bottom < g.top + (g.heap g.array).size

/-- The owner is inside `deque_resize`, and `new` is to replace the array `a`. -/
structure Resizing (g : Shared nr V) (b a new : ℕ) : Prop where
  pushing : Pushing g b
  array : a = g.array
  fresh : g.array < new
  used : new < g.used
  size : (g.heap new).size = (g.heap g.array).size * 2

/-- The new array holds the works of the deque below `i`. -/
def Copied (g : Shared nr V) (new i : ℕ) : Prop :=
  ∀ j, g.top ≤ j → j < i → (g.heap new).get j = g.slot j

/-- The array in the hands of `deque_gc` is a replaced one. -/
def GcInv (g : Shared nr V) : GcPc → Prop
  | .array => True
  | .handle _ => True
  | .old => True
  | .cas old => old < g.array
  | .scan old _ => old < g.array
  | .putBack old => old < g.array
  | .free old => old < g.array

def OwnerInv (g : Shared nr V) : Pc V → Prop
  | .idle => True
  | .pushBottom _ => g.bottom + 1 < 2 ^ 64
  | .pushTop _ b => Pushing g b
  | .pushArray _ b t => Pushing g b ∧ t ≤ g.top
  | .resizeArray _ b => Pushing g b
  | .resizeTop _ b a new => Resizing g b a new
  | .resizeBottom _ b a new t => Resizing g b a new ∧ t ≤ g.top
  | .copyLoad _ b a new i e => Resizing g b a new ∧ e = g.bottom ∧ i < e ∧ Copied g new i
  | .copyStore _ b a new i e x =>
    Resizing g b a new ∧ e = g.bottom ∧ i < e ∧ Copied g new i ∧ x = g.slot i
  | .resizeStore _ b a new => Resizing g b a new ∧ Copied g new g.bottom
  | .resizeAssert _ b a => Pushing g b ∧ Room g ∧ a < g.array
  | .pushReload _ b => Pushing g b ∧ Room g
  | .pushSlot _ b a => Pushing g b ∧ Room g ∧ a = g.array
  | .pushCas w b => Pushing g b ∧ Room g ∧ g.slot b = some w
  | .takeBottom => True
  | .takeArray b => b + 1 = g.bottom
  | .takeTop b a => b + 1 = g.bottom ∧ a = g.array
  | .takeSlot b a _ => b + 1 = g.bottom ∧ a = g.array
  | .takeCas b x => b + 1 = g.bottom ∧ x = g.slot b
  | .takeStore b x => b + 1 = g.bottom ∧ x = g.slot b
  | .gc _ p => GcInv g p
  | _ => False

/-- A thief whose index is still `top` has passed its check against `bottom` in time, and the
array it holds, or the work it read, is right. -/
def ThiefInv (g : Shared nr V) : Pc V → Prop
  | .idle => True
  | .stealTop => True
  | .stealBottom t => t ≤ g.top
  | .stealArray t => t ≤ g.top ∧ (t = g.top → t < g.bottom)
  | .stealSlot t a =>
    t ≤ g.top ∧ a ≤ g.array ∧ (t = g.top → t < g.bottom ∧ (g.heap a).get t = g.slot t)
  | .stealCas t x => t ≤ g.top ∧ (t = g.top → t < g.bottom ∧ x = g.slot t)
  | .gc _ p => GcInv g p
  | _ => False

def Local (o : Fin nr) (g : Shared nr V) (u : Fin nr) (pc : Pc V) : Prop :=
  if u = o then OwnerInv g pc else ThiefInv g pc

/-- A thief that has passed its check with the index `b`. -/
def PastCheck (b : ℕ) : Pc V → Prop
  | .stealArray t => t = b
  | .stealSlot t _ => t = b
  | .stealCas t _ => t = b
  | _ => False

attribute [local simp] GcInv OwnerInv ThiefInv PastCheck

/-- `deque_gc` leaves the indices and the arrays alone. -/
inductive GcMove (g : Shared nr V) : Shared nr V → Prop
  | mk (old : Option ℕ) (handle : Fin nr → ℕ) (freed : ℕ → Bool) (returned : List (Option V)) :
    GcMove g { g with oldArray := old, handle := handle, freed := freed, returned := returned }

theorem GcMove.refl (g : Shared nr V) : GcMove g g :=
  .mk g.oldArray g.handle g.freed g.returned

theorem GcMove.ret (g : Shared nr V) (r : Result V) : GcMove g (g.ret r) := by
  cases r <;> exact .mk g.oldArray g.handle g.freed _

/-- What a thief may do: `deque_gc`, or it moves `top` up by one, inside the deque. -/
inductive ThiefMove (g : Shared nr V) : Shared nr V → Prop
  | gc {g' : Shared nr V} : GcMove g g' → ThiefMove g g'
  | top : g.top < g.bottom → ThiefMove g { g with top := g.top + 1 }

/-- What the owner may do, as far as thieves rely on it: unless `top` grows, the index `top`
stays in the deque, and the arrays keep its work. -/
structure OwnerMove (g g' : Shared nr V) : Prop where
  top_le : g.top ≤ g'.top
  array_le : g.array ≤ g'.array
  keep : g'.top = g.top → g.top < g.bottom → g.top < g'.bottom ∧ g'.slot g.top = g.slot g.top ∧
    ∀ a, a ≤ g.array → (g'.heap a).get g.top = (g.heap a).get g.top

theorem OwnerMove.of_gc (h : GcMove g g') : OwnerMove g g' := by
  cases h
  exact ⟨Nat.le_refl _, Nat.le_refl _, fun _ h => ⟨h, rfl, fun _ _ => rfl⟩⟩

theorem OwnerMove.refl (g : Shared nr V) : OwnerMove g g := .of_gc (.refl g)

theorem gcInv_of_array_le {p : GcPc} (harr : g.array ≤ g'.array) (h : GcInv g p) : GcInv g' p := by
  cases p <;> simp only [GcInv] at h ⊢ <;> omega

/-- Thieves keep their invariant when the owner moves. -/
theorem thiefInv_owner (hm : OwnerMove g g') (h : ThiefInv g pc) : ThiefInv g' pc := by
  have hle := hm.top_le
  have harr := hm.array_le
  have hkeep := hm.keep
  cases pc <;> simp only [ThiefInv] at h ⊢
  case stealBottom t => omega
  case stealArray t =>
    refine ⟨by omega, fun ht => ?_⟩
    have htop : t = g.top := by omega
    exact htop ▸ (hkeep (by omega) (htop ▸ h.2 htop)).1
  case stealSlot t a =>
    refine ⟨by omega, by omega, fun ht => ?_⟩
    have htop : t = g.top := by omega
    subst htop
    obtain ⟨hlt, heq⟩ := h.2.2 rfl
    obtain ⟨hlt', hslot, hget⟩ := hkeep ht.symm hlt
    exact ⟨hlt', by rw [hget a h.2.1, heq, hslot]⟩
  case stealCas t x =>
    refine ⟨by omega, fun ht => ?_⟩
    have htop : t = g.top := by omega
    subst htop
    obtain ⟨hlt, heq⟩ := h.2 rfl
    obtain ⟨hlt', hslot, -⟩ := hkeep ht.symm hlt
    exact ⟨hlt', by rw [heq, hslot]⟩
  case gc r p => exact gcInv_of_array_le harr h

/-- Thieves keep their invariant when the owner lowers `bottom`, if none is about to take the
same index. -/
theorem thiefInv_lower {b : ℕ} (htop : g.top ≤ b) (hpast : ¬ PastCheck b pc) (h : ThiefInv g pc) :
    ThiefInv { g with bottom := b } pc := by
  cases pc <;> simp only [ThiefInv, PastCheck] at h hpast ⊢
  case stealBottom => exact h
  case stealArray t => exact ⟨h.1, fun ht => by omega⟩
  case stealSlot t a => exact ⟨h.1, h.2.1, fun ht => ⟨by omega, (h.2.2 ht).2⟩⟩
  case stealCas t x => exact ⟨h.1, fun ht => ⟨by omega, (h.2 ht).2⟩⟩
  case gc r p => exact gcInv_of_array_le (Nat.le_refl _) h

/-- The owner keeps its invariant when a thief moves. -/
theorem ownerInv_thief (hm : ThiefMove g g') (h : OwnerInv g pc) : OwnerInv g' pc := by
  cases hm with
  | gc hm =>
    cases hm with
    | mk old handle freed returned =>
      have hres : ∀ {b a new}, Resizing g b a new → Resizing { g with
          oldArray := old, handle := handle, freed := freed, returned := returned } b a new :=
        fun h => ⟨h.pushing, h.array, h.fresh, h.used, h.size⟩
      cases pc <;> simp only [OwnerInv] at h ⊢
      case resizeTop => exact hres h
      case resizeBottom => exact ⟨hres h.1, h.2⟩
      case copyLoad => exact ⟨hres h.1, h.2⟩
      case copyStore => exact ⟨hres h.1, h.2⟩
      case resizeStore => exact ⟨hres h.1, h.2⟩
      case gc r p => exact gcInv_of_array_le (Nat.le_refl _) h
      all_goals exact h
  | top hlt =>
    have hres : ∀ {b a new}, Resizing g b a new →
        Resizing { g with top := g.top + 1 } b a new :=
      fun h => ⟨h.pushing, h.array, h.fresh, h.used, h.size⟩
    have hcopy : ∀ {new i}, Copied g new i → Copied { g with top := g.top + 1 } new i :=
      fun h j hj => h j (by simp only at hj; omega)
    have hroom : Room g → Room { g with top := g.top + 1 } := fun h => by
      unfold Room at h ⊢
      simp only
      omega
    cases pc <;> simp only [OwnerInv] at h ⊢
    case resizeTop => exact hres h
    case resizeBottom => exact ⟨hres h.1, by omega⟩
    case copyLoad => exact ⟨hres h.1, h.2.1, h.2.2.1, hcopy h.2.2.2⟩
    case copyStore => exact ⟨hres h.1, h.2.1, h.2.2.1, hcopy h.2.2.2.1, h.2.2.2.2⟩
    case resizeStore => exact ⟨hres h.1, hcopy h.2⟩
    case resizeAssert => exact ⟨h.1, hroom h.2.1, h.2.2⟩
    case pushArray => exact ⟨h.1, by omega⟩
    case pushReload => exact ⟨h.1, hroom h.2⟩
    case pushSlot => exact ⟨h.1, hroom h.2.1, h.2.2⟩
    case pushCas => exact ⟨h.1, hroom h.2.1, h.2.2⟩
    case gc r p => exact gcInv_of_array_le (Nat.le_refl _) h
    all_goals exact h

theorem thiefInv_thief (hm : ThiefMove g g') (h : ThiefInv g pc) : ThiefInv g' pc := by
  cases hm with
  | gc hm => exact thiefInv_owner (.of_gc hm) h
  | top hlt =>
    cases pc <;> simp only [ThiefInv] at h ⊢
    case stealBottom => omega
    case stealArray => exact ⟨by omega, fun ht => absurd h.1 (by omega)⟩
    case stealSlot => exact ⟨by omega, h.2.1, fun ht => absurd h.1 (by omega)⟩
    case stealCas => exact ⟨by omega, fun ht => absurd h.1 (by omega)⟩
    case gc r p => exact gcInv_of_array_le (Nat.le_refl _) h

/-- What a step has to keep of the shared state and of the balance of works, whatever the other
threads claim. -/
def Keeps (g g' : Shared nr V) (pc pc' : Pc V) : Prop :=
  Global g' ∧ ∀ claims, Balanced g (claim pc + claims) → Balanced g' (claim pc' + claims)

theorem balanced_ret {claims : Multiset (Option V)} (r : Result V) (p : GcPc)
    (h : Balanced g (claim (.gc r p) + claims)) : Balanced (g.ret r) (claim (.idle : Pc V) + claims) := by
  cases r with
  | work x =>
    unfold Balanced at h ⊢
    change (g.pushed.map some : Multiset (Option V)) =
      (x :: g.returned : List (Option V)) + (0 + claims) + window g.slot g.top g.bottom
    rw [h, claim, Result.works, zero_add, ← Multiset.cons_coe, ← Multiset.singleton_add, ← add_assoc,
      add_comm (g.returned : Multiset (Option V))]
  | done => exact h
  | empty => exact h
  | abort => exact h

theorem global_gc (hg : Global g) (old : Option ℕ) (handle : Fin nr → ℕ) (freed : ℕ → Bool)
    (returned : List (Option V)) (hold : ∀ a, old = some a → a < g.array)
    (hfreed : ∀ a, freed a = true → a < g.array) :
    Global { g with oldArray := old, handle := handle, freed := freed, returned := returned } :=
  ⟨hg.top_pos, hg.top_le, hg.bottom_le, hg.bottom_lt, hg.used, hg.size_pos, hold, hfreed⟩

theorem global_ret (hg : Global g) (r : Result V) : Global (g.ret r) := by
  cases r <;> exact global_gc hg g.oldArray g.handle g.freed _ hg.old_lt hg.freed_lt

/-- `deque_gc` returns, at its end or early. -/
theorem gc_ret {r : Result V} {p : GcPc} (hg : Global g) :
    GcMove g (g.ret r) ∧ Keeps g (g.ret r) (.gc r p) .idle :=
  ⟨.ret g r, global_ret hg r, fun _ h => balanced_ret r p h⟩

/-- A step inside `deque_gc`: it goes on in `deque_gc` or returns. -/
theorem gc_step {u : Fin nr} {r : Result V} {p : GcPc} (hg : Global g) (h : GcInv g p)
    (hn : runGc u g r p = some (g', pc')) :
    GcMove g g' ∧ Keeps g g' (.gc r p) pc' ∧ (pc' = .idle ∨ ∃ p', pc' = .gc r p' ∧ GcInv g' p') := by
  -- the balance does not see the fields that only `deque_gc` uses
  have hstay : ∀ (old : Option ℕ) (handle : Fin nr → ℕ) p', (∀ a, old = some a → a < g.array) →
      GcMove g { g with oldArray := old, handle := handle } ∧
        Keeps g { g with oldArray := old, handle := handle } (.gc r p) (.gc r p') :=
    fun old handle p' hold => ⟨.mk old handle g.freed g.returned,
      global_gc hg old handle g.freed g.returned hold hg.freed_lt, fun _ h => h⟩
  have hsame : ∀ p', GcMove g g ∧ Keeps g g (.gc r p) (.gc r p') :=
    fun p' => hstay g.oldArray g.handle p' hg.old_lt
  cases p <;> simp only [GcInv] at h <;> simp only [runGc] at hn
  case array =>
    cases hn
    exact ⟨(hsame (.handle g.array)).1, (hsame (.handle g.array)).2, Or.inr ⟨_, rfl, trivial⟩⟩
  case handle a =>
    cases hn
    obtain ⟨hm, hk⟩ := hstay g.oldArray (Function.update g.handle u a) .old hg.old_lt
    exact ⟨hm, hk, Or.inr ⟨_, rfl, trivial⟩⟩
  case old =>
    split at hn
    · cases hn
      exact ⟨.ret g r, (gc_ret hg).2, Or.inl rfl⟩
    · rename_i old hold
      cases hn
      exact ⟨(hsame (.cas old)).1, (hsame (.cas old)).2, Or.inr ⟨_, rfl, hg.old_lt old hold⟩⟩
  case cas old =>
    split at hn
    · cases hn
      obtain ⟨hm, hk⟩ := hstay none g.handle (.scan old 0) (by simp)
      exact ⟨hm, hk, Or.inr ⟨_, rfl, h⟩⟩
    · cases hn
      exact ⟨.ret g r, (gc_ret hg).2, Or.inl rfl⟩
  case scan old i =>
    split at hn
    · split at hn
      · cases hn
        exact ⟨(hsame (.putBack old)).1, (hsame (.putBack old)).2, Or.inr ⟨_, rfl, h⟩⟩
      · cases hn
        exact ⟨(hsame (.scan old (i + 1))).1, (hsame (.scan old (i + 1))).2, Or.inr ⟨_, rfl, h⟩⟩
    · cases hn
      exact ⟨(hsame (.free old)).1, (hsame (.free old)).2, Or.inr ⟨_, rfl, h⟩⟩
  case putBack old =>
    cases hn
    have hg' := global_gc hg (some old) g.handle g.freed g.returned (by simpa using h) hg.freed_lt
    exact ⟨by cases r <;> exact .mk (some old) g.handle g.freed _, (gc_ret hg').2, Or.inl rfl⟩
  case free old =>
    cases hn
    have hg' := global_gc hg g.oldArray g.handle (Function.update g.freed old true) g.returned
      hg.old_lt fun a ha => by
        by_cases hao : a = old
        · exact hao ▸ h
        · rw [Function.update_of_ne hao] at ha
          exact hg.freed_lt a ha
    exact ⟨by cases r <;> exact .mk g.oldArray g.handle _ _, (gc_ret hg').2, Or.inl rfl⟩

/-- The load of a thief reads the array that it holds. -/
theorem load_eq {a i : ℕ} (junk : Option V) (hfree : g.freed a = false) :
    g.load a i junk = (g.heap a).get i := by
  simp [Shared.load, hfree]

/-- What a step of a thief does, when it does not read the work at `top` from a freed array. -/
theorem thief_step {u : Fin nr} {junk : Option V} (hg : Global g) (h : ThiefInv g pc)
    (hfree : ∀ a, pc = .stealSlot g.top a → g.freed a = false)
    (hn : run u g junk pc = some (g', pc')) :
    ThiefMove g g' ∧ Keeps g g' pc pc' ∧ ThiefInv g' pc' := by
  have hsame : ∀ pc', claim pc' = claim pc → ThiefMove g g ∧ Keeps g g pc pc' :=
    fun pc' hc => ⟨.gc (.refl g), hg, fun _ hb => by rwa [hc]⟩
  cases pc <;> simp only [ThiefInv] at h <;> simp only [run] at hn
  case idle => cases hn
  case stealTop =>
    cases hn
    exact ⟨(hsame _ rfl).1, (hsame _ rfl).2, Nat.le_refl _⟩
  case stealBottom t =>
    split at hn
    · cases hn
      exact ⟨(hsame _ rfl).1, (hsame _ rfl).2, h, fun _ => ‹_›⟩
    · cases hn
      exact ⟨(hsame _ rfl).1, (hsame _ rfl).2, trivial⟩
  case stealArray t =>
    cases hn
    exact ⟨(hsame _ rfl).1, (hsame _ rfl).2, h.1, Nat.le_refl _, fun ht => ⟨h.2 ht, rfl⟩⟩
  case stealSlot t a =>
    cases hn
    refine ⟨(hsame _ rfl).1, (hsame _ rfl).2, h.1, fun ht => ?_⟩
    subst ht
    rw [load_eq junk (hfree a rfl)]
    exact h.2.2 rfl
  case stealCas t x =>
    split at hn
    · rename_i htop
      cases hn
      obtain ⟨hlt, hx⟩ := h.2 htop.symm
      have hlt' := hg.bottom_lt
      rw [inc_eq (by omega), ← htop]
      refine ⟨.top (by omega), ⟨⟨Nat.succ_pos _, ?_, ?_, hlt', hg.used, hg.size_pos, hg.old_lt,
        hg.freed_lt⟩, fun claims hb => ?_⟩, trivial⟩
      · change g.top + 1 ≤ g.bottom
        omega
      · have hle := hg.bottom_le
        change g.bottom ≤ g.top + 1 + (g.heap g.array).size
        omega
      · unfold Balanced at hb ⊢
        rw [window_front (by omega), htop, ← hx] at hb
        change (g.pushed.map some : Multiset (Option V)) =
          g.returned + ({x} + claims) + window g.slot (g.top + 1) g.bottom
        change _ = g.returned + (0 + claims) + x ::ₘ window g.slot (t + 1) g.bottom at hb
        rw [hb, htop]
        simp only [zero_add, Multiset.add_cons, Multiset.singleton_add, Multiset.cons_add]
    · cases hn
      exact ⟨(hsame _ rfl).1, (hsame _ rfl).2, trivial⟩
  case gc r p =>
    obtain ⟨hm, hk, rfl | ⟨p', rfl, hp'⟩⟩ := gc_step hg h hn
    · exact ⟨.gc hm, hk, trivial⟩
    · exact ⟨.gc hm, hk, hp'⟩

end LinuxSummer.Hina
