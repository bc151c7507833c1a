import LinuxSummer.HinaModel

/-! The release of replaced arrays in hw3/work-steal-qsort/src/deque.c. What a thread has to do with
arrays is its role; the roles and the pointers to arrays make a protocol of their own, which holds
whatever `top` and `bottom` are. -/
namespace LinuxSummer.Hina
set_option linter.unusedSectionVars false

/-! ### The protocol of the arrays -/

inductive Role where
  | none
  /-- The operation has loaded `a` from `q->array` and may still read or write it. -/
  | holds (a : ℕ)
  /-- In `deque_resize`, before the new array is stored. -/
  | resizes (a new : ℕ)
  | asserts (a : ℕ)
  /-- Has loaded `a` in `deque_gc` and is to store it in its handle. -/
  | announces (a : ℕ)
  | scans (old i : ℕ)
  | putsBack (old : ℕ)
  | frees (old : ℕ)

/-- The pointers to arrays, and the roles of the threads. -/
structure Arrays (nr : ℕ) where
  array : ℕ
  oldArray : Option ℕ
  handle : Fin nr → ℕ
  freed : ℕ → Bool
  used : ℕ
  role : Fin nr → Role

variable {nr : ℕ} {o u v : Fin nr} {s s' : Arrays nr} {a x new i : ℕ}

def Arrays.setRole (s : Arrays nr) (u : Fin nr) (r : Role) : Arrays nr :=
  { s with role := Function.update s.role u r }

/-- What thread `u` may do; only the owner `o` resizes. -/
inductive ArrayStep (o u : Fin nr) (s : Arrays nr) : Arrays nr → Prop
  | keep : ArrayStep o u s s
  | leave (h : s.role u = .none ∨ ∃ a, s.role u = .holds a) : ArrayStep o u s (s.setRole u .none)
  | load (h : s.role u = .none) : ArrayStep o u s (s.setRole u (.holds s.array))
  | loadGc (h : s.role u = .none) : ArrayStep o u s (s.setRole u (.announces s.array))
  | allocate (h : s.role u = .none) (hu : u = o) :
    ArrayStep o u s ({ s with used := s.used + 1 }.setRole u (.resizes s.array s.used))
  | replace {a new : ℕ} (hu : u = o) (h : s.role u = .resizes a new) :
    ArrayStep o u s ({ s with array := new }.setRole u (.asserts a))
  | install {a : ℕ} (h : s.role u = .asserts a) (hold : s.oldArray = Option.none) :
    ArrayStep o u s ({ s with oldArray := some a }.setRole u .none)
  | announce {a : ℕ} (h : s.role u = .announces a) :
    ArrayStep o u s ({ s with handle := Function.update s.handle u a }.setRole u .none)
  | collect {old : ℕ} (h : s.role u = .none) (hold : s.oldArray = some old) :
    ArrayStep o u s ({ s with oldArray := Option.none }.setRole u (.scans old 0))
  | pass {old : ℕ} {i : Fin nr} (h : s.role u = .scans old i) (hne : s.handle i ≠ old) :
    ArrayStep o u s (s.setRole u (.scans old (i + 1)))
  | find {old i : ℕ} (h : s.role u = .scans old i) :
    ArrayStep o u s (s.setRole u (.putsBack old))
  | clear {old i : ℕ} (h : s.role u = .scans old i) (hi : nr ≤ i) :
    ArrayStep o u s (s.setRole u (.frees old))
  | putBack {old : ℕ} (h : s.role u = .putsBack old) :
    ArrayStep o u s ({ s with oldArray := some old }.setRole u .none)
  | free {old : ℕ} (h : s.role u = .frees old) :
    ArrayStep o u s ({ s with freed := Function.update s.freed old true }.setRole u .none)

/-- The array that the operation in progress may read or write. -/
def Role.uses : Role → Option ℕ
  | .holds a => some a
  | .resizes a _ => some a
  | _ => Option.none

/-- The array loaded from `q->array`. -/
def Role.loads : Role → Option ℕ
  | .holds a => some a
  | .resizes a _ => some a
  | .announces a => some a
  | _ => Option.none

/-- The array that replaces the current one. -/
def Role.replacement : Role → Option ℕ
  | .resizes _ new => some new
  | _ => Option.none

/-- The array that has just been replaced. -/
def Role.replaced : Role → Option ℕ
  | .asserts a => some a
  | _ => Option.none

/-- The array in the hands of `deque_gc`. -/
def Role.collects : Role → Option ℕ
  | .scans old _ => some old
  | .putsBack old => some old
  | _ => Option.none

/-- The array in the hands of `deque_gc`, if the handle number `k` still matters to it. -/
def Role.awaits (k : ℕ) : Role → Option ℕ
  | .scans old i => if i ≤ k then some old else Option.none
  | .putsBack old => some old
  | _ => Option.none

def Role.releases : Role → Option ℕ
  | .frees old => some old
  | _ => Option.none

/-- Thread `u` has loaded `x` from `q->array` and not announced a later one. -/
def Loaded (s : Arrays nr) (u : Fin nr) (x : ℕ) : Prop :=
  s.handle u = x ∨ (s.role u).loads = some x

/-- `x` has been replaced, and is not released before the handle of `u` has been read. -/
def Awaits (o : Fin nr) (s : Arrays nr) (u : Fin nr) (x : ℕ) : Prop :=
  s.oldArray = some x ∨ (∃ v, (s.role v).awaits u = some x) ∨ (s.role o).replaced = some x

/-- `x` is released or about to be. -/
def Cleared (s : Arrays nr) (x : ℕ) : Prop :=
  s.freed x = true ∨ ∃ v, (s.role v).releases = some x

/-- An array that some thread has loaded is the current one or waits for that thread's handle, and
at most one array waits besides the one that `deque_resize` has just replaced. -/
structure ArraysInv (o : Fin nr) (s : Arrays nr) : Prop where
  array_lt : s.array < s.used
  thief : ∀ u, u ≠ o → (s.role u).replacement = none ∧ (s.role u).replaced = none
  owner : ∀ a, (s.role o).uses = some a → a = s.array
  replacement : ∀ new, (s.role o).replacement = some new → s.array < new ∧ new < s.used
  replaced : ∀ a, (s.role o).replaced = some a → a < s.array ∧
    (∀ x, s.oldArray = some x → x < a) ∧ ∀ v x, (s.role v).collects = some x → x < a
  loaded : ∀ u x, Loaded s u x → x = s.array ∨ Awaits o s u x
  handle_le : ∀ u x, Loaded s u x → s.handle u ≤ x
  old_lt : ∀ x, s.oldArray = some x → x < s.array
  collects : ∀ v x, (s.role v).collects = some x → x < s.array ∧ s.oldArray = none ∧
    ∀ v' x', (s.role v').collects = some x' → v' = v
  releases : ∀ v x, (s.role v).releases = some x → s.freed x = false ∧
    ∀ v', (s.role v').releases = some x → v' = v
  cleared : ∀ x, Cleared s x → x < s.array ∧ (∀ u, ¬ Loaded s u x) ∧ s.oldArray ≠ some x ∧
    (∀ v, (s.role v).collects ≠ some x) ∧ (s.role o).replaced ≠ some x

section SetRole
variable (s : Arrays nr) (u : Fin nr) (r : Role)

@[simp] theorem setRole_array : (s.setRole u r).array = s.array := rfl
@[simp] theorem setRole_oldArray : (s.setRole u r).oldArray = s.oldArray := rfl
@[simp] theorem setRole_handle : (s.setRole u r).handle = s.handle := rfl
@[simp] theorem setRole_freed : (s.setRole u r).freed = s.freed := rfl
@[simp] theorem setRole_used : (s.setRole u r).used = s.used := rfl

theorem setRole_role (v : Fin nr) : (s.setRole u r).role v = if v = u then r else s.role v := by
  simp [Arrays.setRole, Function.update_apply]

end SetRole

/-- The assertion is not evaluated while `deque_gc` has an array in its hands. -/
def Quiet (s : Arrays nr) (u : Fin nr) : Prop :=
  ∀ a, s.role u = .asserts a → ∀ v, (s.role v).collects = none

theorem setRole_same {f : Role → Option ℕ} {r : Role} (h : f r = f (s.role u)) (v : Fin nr) :
    f ((s.setRole u r).role v) = f (s.role v) := by
  rw [setRole_role]
  split
  · rename_i hv
    rw [hv, h]
  · rfl

theorem collects_of_awaits {r : Role} {k : ℕ} (h : r.awaits k = some x) : r.collects = some x := by
  cases r with
  | scans old i =>
    simp only [Role.awaits] at h
    split at h
    · exact h
    · cases h
  | putsBack old => exact h
  | _ => cases h

theorem ArraysInv.handle_le_array (hi : ArraysInv o s) (v : Fin nr) : s.handle v ≤ s.array := by
  rcases hi.loaded v _ (.inl rfl) with h | h | ⟨w, hw⟩ | h
  · omega
  · have := hi.old_lt _ h
    omega
  · have := (hi.collects w _ (collects_of_awaits hw)).1
    omega
  · have := (hi.replaced _ h).1
    omega

/-- The thread has no part in the release of a replaced array. -/
def Role.Plain (r : Role) : Prop :=
  r.replaced = Option.none ∧ r.collects = Option.none ∧ r.releases = Option.none ∧
    ∀ k, r.awaits k = Option.none

theorem plain_none : Role.none.Plain := ⟨rfl, rfl, rfl, fun _ => rfl⟩

theorem plain_holds : (Role.holds x).Plain := ⟨rfl, rfl, rfl, fun _ => rfl⟩

theorem plain_resizes : (Role.resizes x new).Plain := ⟨rfl, rfl, rfl, fun _ => rfl⟩

theorem plain_announces : (Role.announces x).Plain := ⟨rfl, rfl, rfl, fun _ => rfl⟩

/-- A step that only loads, announces or lets go of an array. -/
theorem arraysInv_loads {handle : Fin nr → ℕ} {used : ℕ} {r : Role} (hi : ArraysInv o s)
    (hused : s.used ≤ used) (hu : (s.role u).Plain) (hr : r.Plain)
    (hreplacement : ∀ new, r.replacement = some new → u = o ∧ s.array < new ∧ new < used)
    (huses : ∀ a, u = o → r.uses = some a → a = s.array)
    (hothers : ∀ v, v ≠ u → handle v = s.handle v)
    (hloaded : ∀ x, handle u = x ∨ r.loads = some x → Loaded s u x ∨ x = s.array)
    (hle : ∀ x, r.loads = some x → handle u ≤ x) :
    ArraysInv o ({ s with handle := handle, used := used }.setRole u r) := by
  have hreplaced := setRole_same (f := Role.replaced) (hr.1.trans hu.1.symm)
  have hcollects := setRole_same (f := Role.collects) (hr.2.1.trans hu.2.1.symm)
  have hreleases := setRole_same (f := Role.releases) (hr.2.2.1.trans hu.2.2.1.symm)
  have hawaits := fun k => setRole_same (f := Role.awaits k) ((hr.2.2.2 k).trans (hu.2.2.2 k).symm)
  set s' := { s with handle := handle, used := used }.setRole u r with hs'
  have hrole' : ∀ v, s'.role v = (s.setRole u r).role v := fun v => rfl
  have hload : ∀ v x, Loaded s' v x → Loaded s v x ∨ x = s.array := fun v x h => by
    by_cases hv : v = u
    · subst hv
      refine hloaded x (h.imp_right fun h => ?_)
      rwa [hrole', setRole_role, if_pos rfl] at h
    · refine .inl (h.imp (fun h => by rwa [← hothers v hv]) fun h => ?_)
      rwa [hrole', setRole_role, if_neg hv] at h
  have hcleared : ∀ x, Cleared s' x ↔ Cleared s x := fun x => by
    simp only [Cleared, hrole', hreleases]
    rfl
  have harr : s.array < s'.used := lt_of_lt_of_le hi.array_lt hused
  refine ⟨harr, fun v hv => ?_, fun a h => ?_, fun new h => ?_, fun a h => ?_, fun v x h => ?_,
    fun v x h => ?_, hi.old_lt, fun v x h => ?_, fun v x h => ?_, fun x h => ?_⟩
  · refine ⟨?_, by rw [hrole', hreplaced]; exact (hi.thief v hv).2⟩
    by_cases hvu : v = u
    · rw [hrole', setRole_role, if_pos hvu]
      exact Option.eq_none_iff_forall_ne_some.mpr fun new h => hv (hvu.trans (hreplacement new h).1)
    · rw [hrole', setRole_role, if_neg hvu]
      exact (hi.thief v hv).1
  · rw [hrole', setRole_role] at h
    split at h
    · exact huses a (Eq.symm ‹_›) h
    · exact hi.owner a h
  · rw [hrole', setRole_role] at h
    split at h
    · exact (hreplacement new h).2
    · exact ⟨(hi.replacement new h).1, lt_of_lt_of_le (hi.replacement new h).2 hused⟩
  · simp only [hrole', hreplaced, hcollects] at h ⊢
    exact hi.replaced a h
  · rcases hload v x h with h | h
    · simp only [Awaits, hrole', hreplaced, hawaits]
      exact hi.loaded v x h
    · exact .inl h
  · by_cases hv : v = u
    · subst hv
      rcases h with h | h
      · exact Nat.le_of_eq h
      · rw [hrole', setRole_role, if_pos rfl] at h
        exact hle x h
    · change handle v ≤ x
      rw [hothers v hv]
      rcases hload v x h with h | h
      · exact hi.handle_le v x h
      · exact h ▸ hi.handle_le_array v
  · simp only [hrole', hcollects] at h ⊢
    exact hi.collects v x h
  · simp only [hrole', hreleases] at h ⊢
    exact hi.releases v x h
  · have hc := hi.cleared x ((hcleared x).mp h)
    simp only [hrole', hreplaced, hcollects]
    refine ⟨hc.1, fun v hv => ?_, hc.2.2⟩
    rcases hload v x hv with hv | hv
    · exact hc.2.1 v hv
    · exact absurd hc.1 (by omega)

/-- A step that takes the replaced array in hand, or gives it on, while nobody else has one. -/
theorem arraysInv_collects {oldArray : Option ℕ} {r : Role} (hi : ArraysInv o s)
    (hrole : r.loads = (s.role u).loads ∧ r.uses = (s.role u).uses ∧
      r.replacement = (s.role u).replacement)
    (hreplaced : r.replaced = none) (hreleases : (s.role u).releases = none)
    (halone : ∀ v, v ≠ u → (s.role v).collects = none)
    (hfrom : ∀ x, oldArray = some x ∨ r.collects = some x →
      s.oldArray = some x ∨ (s.role u).collects = some x ∨ (s.role u).replaced = some x)
    (hexcl : ∀ x, r.collects = some x → oldArray = none)
    (hawaits : ∀ v x, Loaded s v x → Awaits o s v x →
      Awaits o ({ s with oldArray := oldArray }.setRole u r) v x)
    (hclear : ∀ x, r.releases = some x → (s.role u).collects = some x ∧ r.collects = none ∧
      oldArray = none ∧ ∀ v, ¬ Loaded s v x) :
    ArraysInv o ({ s with oldArray := oldArray }.setRole u r) := by
  have hloads := setRole_same (f := Role.loads) hrole.1
  have huses := setRole_same (f := Role.uses) hrole.2.1
  have hreplacement := setRole_same (f := Role.replacement) hrole.2.2
  have hreplacedFrom : ∀ {v a}, ((s.setRole u r).role v).replaced = some a →
      v ≠ u ∧ (s.role v).replaced = some a := fun {v a} h => by
    rw [setRole_role] at h
    split at h
    · simp [hreplaced] at h
    · exact ⟨‹_›, h⟩
  have hown : ∀ x, (s.role u).replaced = some x → u = o := fun x h => by
    by_contra hu
    simp [(hi.thief u hu).2] at h
  -- what is in the slot or in hand was replaced before
  have hlt : ∀ x, oldArray = some x ∨ r.collects = some x → x < s.array := fun x h => by
    rcases hfrom x h with h | h | h
    · exact hi.old_lt x h
    · exact (hi.collects u x h).1
    · obtain rfl := hown x h
      exact (hi.replaced x h).1
  have hcollects : ∀ {v x}, ((s.setRole u r).role v).collects = some x →
      v = u ∧ r.collects = some x := fun {v x} h => by
    rw [setRole_role] at h
    split at h
    · exact ⟨‹_›, h⟩
    · simp [halone v ‹_›] at h
  have hbelow : ∀ a, o ≠ u → (s.role o).replaced = some a → ∀ x,
      oldArray = some x ∨ r.collects = some x → x < a := fun a ho ha x h => by
    rcases hfrom x h with h | h | h
    · exact (hi.replaced a ha).2.1 x h
    · exact (hi.replaced a ha).2.2 u x h
    · exact absurd (hown x h).symm ho
  have hnot : ∀ x, Cleared s x → ¬ (oldArray = some x ∨ r.collects = some x) := fun x hx h => by
    obtain ⟨-, -, hold, hcol, hrep⟩ := hi.cleared x hx
    rcases hfrom x h with h | h | h
    · exact hold h
    · exact hcol u h
    · obtain rfl := hown x h
      exact hrep h
  have hfresh : ∀ x, r.releases = some x → ¬ Cleared s x := fun x h hx =>
    (hi.cleared x hx).2.2.2.1 u (hclear x h).1
  have hrel : ∀ {v x}, ((s.setRole u r).role v).releases = some x →
      (v = u ∧ r.releases = some x) ∨ v ≠ u ∧ (s.role v).releases = some x := fun {v x} h => by
    rw [setRole_role] at h
    split at h
    · exact .inl ⟨‹_›, h⟩
    · exact .inr ⟨‹_›, h⟩
  refine ⟨hi.array_lt, fun v hv => ⟨?_, ?_⟩, fun a h => ?_, fun new h => ?_, fun a h => ?_,
    fun v x h => ?_, fun v x h => ?_, fun x h => hlt x (.inl h), fun v x h => ?_, fun v x h => ?_,
    fun x h => ?_⟩
  · exact (hreplacement v).trans (hi.thief v hv).1
  · refine Option.eq_none_iff_forall_ne_some.mpr fun a h => ?_
    have := (hreplacedFrom h).2
    simp [(hi.thief v hv).2] at this
  · exact hi.owner a ((huses o).symm.trans h)
  · exact hi.replacement new ((hreplacement o).symm.trans h)
  · obtain ⟨ho, ha⟩ := hreplacedFrom h
    refine ⟨(hi.replaced a ha).1, fun x hx => hbelow a ho ha x (.inl hx), fun v x hx => ?_⟩
    exact hbelow a ho ha x (.inr (hcollects hx).2)
  · have h' : Loaded s v x := h.imp id fun h => (hloads v).symm.trans h
    exact (hi.loaded v x h').imp id (hawaits v x h')
  · exact hi.handle_le v x (h.imp id fun h => (hloads v).symm.trans h)
  · obtain ⟨rfl, hr⟩ := hcollects h
    exact ⟨hlt x (.inr hr), hexcl x hr, fun v' x' h' => (hcollects h').1⟩
  · rcases hrel h with ⟨rfl, hr⟩ | ⟨hv, hr⟩
    · refine ⟨?_, fun v' h' => ?_⟩
      · by_contra hfreed
        exact hfresh x hr (.inl (by simpa using hfreed))
      · rcases hrel h' with h' | ⟨-, h'⟩
        · exact h'.1
        · exact absurd (.inr ⟨v', h'⟩) (hfresh x hr)
    · refine ⟨(hi.releases v x hr).1, fun v' h' => ?_⟩
      rcases hrel h' with ⟨-, h'⟩ | ⟨-, h'⟩
      · exact absurd (.inr ⟨v, hr⟩) (hfresh x h')
      · exact (hi.releases v x hr).2 v' h'
  · have hcase : Cleared s x ∨ r.releases = some x := by
      rcases h with h | ⟨v, h⟩
      · exact .inl (.inl h)
      · exact (hrel h).symm.imp (fun h => .inr ⟨v, h.2⟩) And.right
    rcases hcase with hx | hx
    · obtain ⟨harr, hload, -, -, hrep⟩ := hi.cleared x hx
      refine ⟨harr, fun v hv => hload v (hv.imp id fun h => (hloads v).symm.trans h),
        fun h => hnot x hx (.inl h), fun v h => hnot x hx (.inr (hcollects h).2), fun h => ?_⟩
      exact hrep (hreplacedFrom h).2
    · obtain ⟨hcol, hnone, hold, hload⟩ := hclear x hx
      refine ⟨(hi.collects u x hcol).1, fun v hv =>
        hload v (hv.imp id fun h => (hloads v).symm.trans h), by simp [hold], fun v h => ?_,
        fun h => ?_⟩
      · have := (hcollects h).2
        simp [hnone] at this
      · have := (hi.replaced x (hreplacedFrom h).2).2.2 u x hcol
        omega

/-- The new array becomes the current one. -/
theorem arraysInv_replace (hi : ArraysInv o s) (h : s.role o = .resizes a new) :
    ArraysInv o ({ s with array := new }.setRole o (.asserts a)) := by
  have ha : a = s.array := hi.owner a (by rw [h]; rfl)
  subst ha
  obtain ⟨hlt, hused⟩ := hi.replacement new (by rw [h]; rfl)
  have hother : ∀ v, v ≠ o → ({ s with array := new }.setRole o (.asserts s.array)).role v =
      s.role v := fun v hv => by rw [setRole_role, if_neg hv]
  have hself : ({ s with array := new }.setRole o (.asserts s.array)).role o = .asserts s.array := by
    rw [setRole_role, if_pos rfl]
  have hcollects : ∀ v, (({ s with array := new }.setRole o (.asserts s.array)).role v).collects =
      (s.role v).collects := setRole_same (by rw [h]; rfl)
  have hreleases : ∀ v, (({ s with array := new }.setRole o (.asserts s.array)).role v).releases =
      (s.role v).releases := setRole_same (by rw [h]; rfl)
  have hawaits : ∀ k v, (({ s with array := new }.setRole o (.asserts s.array)).role v).awaits k =
      (s.role v).awaits k := fun k => setRole_same (by rw [h]; rfl)
  have hload : ∀ v x, Loaded ({ s with array := new }.setRole o (.asserts s.array)) v x →
      Loaded s v x := fun v x hv => hv.imp id fun hl => by
    by_cases hvo : v = o
    · rw [hvo, hself] at hl
      cases hl
    · rwa [← hother v hvo]
  refine ⟨hused, fun v hv => by rw [hother v hv]; exact hi.thief v hv, fun b hb => ?_,
    fun b hb => ?_, fun b hb => ?_, fun v x hv => .inr ?_, fun v x hv => hi.handle_le v x (hload v x hv),
    fun x hx => lt_trans (hi.old_lt x hx) hlt, fun v x hv => ?_, fun v x hv => ?_, fun x hx => ?_⟩
  · rw [hself] at hb
    cases hb
  · rw [hself] at hb
    cases hb
  · rw [hself] at hb
    cases hb
    exact ⟨hlt, hi.old_lt, fun v x hx => (hi.collects v x (by rwa [← hcollects])).1⟩
  · rcases hi.loaded v x (hload v x hv) with rfl | hx | ⟨w, hw⟩ | hx
    · exact .inr (.inr (by rw [hself]; rfl))
    · exact .inl hx
    · exact .inr (.inl ⟨w, by rwa [hawaits]⟩)
    · rw [h] at hx
      cases hx
  · rw [hcollects] at hv
    obtain ⟨hx, hold, huniq⟩ := hi.collects v x hv
    exact ⟨lt_trans hx hlt, hold, fun v' x' h' => huniq v' x' (by rwa [← hcollects])⟩
  · rw [hreleases] at hv
    exact ⟨(hi.releases v x hv).1, fun v' h' => (hi.releases v x hv).2 v' (by rwa [← hreleases])⟩
  · obtain ⟨harr, hnot, hold, hcol, -⟩ := hi.cleared x (hx.imp id fun ⟨v, hv⟩ => ⟨v, by
      rwa [← hreleases]⟩)
    refine ⟨lt_trans harr hlt, fun v hv => hnot v (hload v x hv), hold, fun v => ?_, fun heq => ?_⟩
    · rw [hcollects]
      exact hcol v
    · rw [hself] at heq
      cases heq
      exact lt_irrefl _ harr

theorem arraysInv_free {old : ℕ} (hi : ArraysInv o s) (h : s.role u = .frees old) :
    ArraysInv o ({ s with freed := Function.update s.freed old true }.setRole u .none) := by
  have hloads : ∀ v, ((s.setRole u .none).role v).loads = (s.role v).loads :=
    setRole_same (by rw [h]; rfl)
  have huses : ∀ v, ((s.setRole u .none).role v).uses = (s.role v).uses :=
    setRole_same (by rw [h]; rfl)
  have hreplacement : ∀ v, ((s.setRole u .none).role v).replacement = (s.role v).replacement :=
    setRole_same (by rw [h]; rfl)
  have hreplaced : ∀ v, ((s.setRole u .none).role v).replaced = (s.role v).replaced :=
    setRole_same (by rw [h]; rfl)
  have hcollects : ∀ v, ((s.setRole u .none).role v).collects = (s.role v).collects :=
    setRole_same (by rw [h]; rfl)
  have hawaits : ∀ k v, ((s.setRole u .none).role v).awaits k = (s.role v).awaits k :=
    fun k => setRole_same (by rw [h]; rfl)
  have hrel : ∀ {v x}, ((s.setRole u .none).role v).releases = some x →
      v ≠ u ∧ (s.role v).releases = some x := fun {v x} hv => by
    rw [setRole_role] at hv
    split at hv
    · cases hv
    · exact ⟨‹_›, hv⟩
  have hload : ∀ {v x}, Loaded ({ s with freed := Function.update s.freed old true }.setRole u .none)
      v x → Loaded s v x := fun hv => hv.imp id fun hv => (hloads _).symm.trans hv
  refine ⟨hi.array_lt, fun v hv => ⟨(hreplacement v).trans (hi.thief v hv).1,
    (hreplaced v).trans (hi.thief v hv).2⟩, fun a ha => hi.owner a ((huses o).symm.trans ha),
    fun new hn => hi.replacement new ((hreplacement o).symm.trans hn), fun a ha => ?_,
    fun v x hv => ?_, fun v x hv => hi.handle_le v x (hload hv), hi.old_lt, fun v x hv => ?_,
    fun v x hv => ?_, fun x hx => ?_⟩
  · obtain ⟨hlt, hold, hcol⟩ := hi.replaced a ((hreplaced o).symm.trans ha)
    exact ⟨hlt, hold, fun v x hv => hcol v x ((hcollects v).symm.trans hv)⟩
  · refine (hi.loaded v x (hload hv)).imp id fun hx => ?_
    exact hx.imp id (.imp (fun ⟨w, hw⟩ => ⟨w, (hawaits v w).trans hw⟩) (hreplaced o).trans)
  · obtain ⟨hx, hold, huniq⟩ := hi.collects v x ((hcollects v).symm.trans hv)
    exact ⟨hx, hold, fun v' x' h' => huniq v' x' ((hcollects v').symm.trans h')⟩
  · obtain ⟨hvu, hv⟩ := hrel hv
    refine ⟨?_, fun v' h' => (hi.releases v x hv).2 v' (hrel h').2⟩
    -- nobody else is about to free the same array
    have hne : x ≠ old := fun heq => hvu ((hi.releases v x hv).2 u (by rw [h, heq]; rfl)).symm
    change Function.update s.freed old true x = false
    rw [Function.update_of_ne hne]
    exact (hi.releases v x hv).1
  · have hcleared : Cleared s x := by
      rcases hx with hx | ⟨v, hv⟩
      · by_cases heq : x = old
        · exact .inr ⟨u, by rw [h, heq]; rfl⟩
        · change Function.update s.freed old true x = true at hx
          rw [Function.update_of_ne heq] at hx
          exact .inl hx
      · exact .inr ⟨v, (hrel hv).2⟩
    obtain ⟨harr, hnot, hold, hcol, hrep⟩ := hi.cleared x hcleared
    exact ⟨harr, fun v hv => hnot v (hload hv), hold,
      fun v hv => hcol v ((hcollects v).symm.trans hv), fun hv => hrep ((hreplaced o).symm.trans hv)⟩

/-- What waits keeps waiting, unless the step of `u` ends it. -/
theorem awaits_setRole {oldArray : Option ℕ} {r : Role} (hx : Awaits o s v x)
    (hslot : s.oldArray = some x → oldArray = some x ∨ r.awaits v = some x)
    (hself : (s.role u).awaits v = some x → oldArray = some x ∨ r.awaits v = some x)
    (hreplaced : (s.role u).replaced = some x → oldArray = some x ∨ r.awaits v = some x) :
    Awaits o ({ s with oldArray := oldArray }.setRole u r) v x := by
  have hnew : oldArray = some x ∨ r.awaits v = some x →
      Awaits o ({ s with oldArray := oldArray }.setRole u r) v x := fun h =>
    h.imp id fun h => .inl ⟨u, by rwa [setRole_role, if_pos rfl]⟩
  rcases hx with hx | ⟨w, hw⟩ | hx
  · exact hnew (hslot hx)
  · by_cases hwu : w = u
    · exact hnew (hself (hwu ▸ hw))
    · exact .inr (.inl ⟨w, by rwa [setRole_role, if_neg hwu]⟩)
  · by_cases hou : o = u
    · exact hnew (hreplaced (hou ▸ hx))
    · exact .inr (.inr (by rwa [setRole_role, if_neg hou]))

/-- While `u` has `old` in its hands, nothing else waits but what `deque_resize` has just
replaced. -/
theorem ArraysInv.awaits_collects {old : ℕ} (hi : ArraysInv o s)
    (hcol : (s.role u).collects = some old) (h : Awaits o s v x) :
    (s.role u).awaits v = some x ∧ x = old ∨ old < x := by
  obtain ⟨-, hnone, huniq⟩ := hi.collects u old hcol
  rcases h with h | ⟨w, hw⟩ | h
  · simp [hnone] at h
  · obtain rfl := huniq w x (collects_of_awaits hw)
    exact .inl ⟨hw, Option.some.inj ((collects_of_awaits hw).symm.trans hcol)⟩
  · exact .inr ((hi.replaced x h).2.2 u old hcol)

/-- The step lemma of the protocol. -/
theorem arraysInv_step (hi : ArraysInv o s) (hq : Quiet s u) (h : ArrayStep o u s s') :
    ArraysInv o s' := by
  -- when `deque_gc` of `u` has an array in its hands, nobody else has
  have halone : ∀ {x}, (s.role u).collects = some x → ∀ v, v ≠ u → (s.role v).collects = none :=
    fun hx v hv => Option.eq_none_iff_forall_ne_some.mpr fun x' hx' =>
      hv ((hi.collects u _ hx).2.2 v x' hx')
  cases h with
  | keep => exact hi
  | leave h =>
    have hplain : (s.role u).Plain := by
      rcases h with h | ⟨a, h⟩
      · rw [h]
        exact plain_none
      · rw [h]
        exact plain_holds
    exact arraysInv_loads hi (Nat.le_refl _) hplain plain_none nofun nofun
      (fun _ _ => rfl) (fun x hx => .inl (.inl (hx.resolve_right nofun))) nofun
  | load h =>
    refine arraysInv_loads hi (Nat.le_refl _) (h ▸ plain_none) plain_holds nofun
      (fun a _ ha => ?_) (fun _ _ => rfl) (fun x hx => hx.imp .inl fun hx => ?_) fun x hx => ?_
    · exact (Option.some.inj ha).symm
    · exact (Option.some.inj hx).symm
    · cases hx
      exact hi.handle_le_array u
  | loadGc h =>
    refine arraysInv_loads hi (Nat.le_refl _) (h ▸ plain_none) plain_announces
      nofun nofun (fun _ _ => rfl) (fun x hx => hx.imp .inl fun hx => ?_) fun x hx => ?_
    · exact (Option.some.inj hx).symm
    · cases hx
      exact hi.handle_le_array u
  | allocate h hu =>
    refine arraysInv_loads hi (Nat.le_succ _) (h ▸ plain_none) plain_resizes
      (fun new hn => ?_) (fun a _ ha => ?_) (fun _ _ => rfl) (fun x hx => hx.imp .inl fun hx => ?_)
      fun x hx => ?_
    · cases hn
      exact ⟨hu, hi.array_lt, Nat.lt_succ_self _⟩
    · exact (Option.some.inj ha).symm
    · exact (Option.some.inj hx).symm
    · cases hx
      exact hi.handle_le_array u
  | replace hu h =>
    subst hu
    exact arraysInv_replace hi h
  | install h hold =>
    have hu : u = o := by
      by_contra hu
      have := (hi.thief u hu).2
      simp [h, Role.replaced] at this
    subst hu
    refine arraysInv_collects hi (by rw [h]; exact ⟨rfl, rfl, rfl⟩) rfl (by rw [h]; rfl)
      (fun v _ => hq _ h v) (fun x hx => .inr (.inr ?_)) nofun
      (fun v x _ hx => awaits_setRole hx ?_ ?_ fun hx => ?_) nofun
    · rw [h]
      exact hx.resolve_right nofun
    · simp [hold]
    · simp [h, Role.awaits]
    · rw [h] at hx
      exact .inl hx
  | announce h =>
    rename_i a
    refine arraysInv_loads hi (Nat.le_refl _) (h ▸ plain_announces) plain_none nofun nofun
      (fun v hv => Function.update_of_ne hv _ _) (fun x hx => .inl (.inr ?_)) nofun
    have hx' := hx.resolve_right nofun
    rw [Function.update_self] at hx'
    rw [h, ← hx']
    rfl
  | collect h hold =>
    rename_i old
    have hnone : ∀ v, (s.role v).collects = none := fun v =>
      Option.eq_none_iff_forall_ne_some.mpr fun x hx => by simp [(hi.collects v x hx).2.1] at hold
    refine arraysInv_collects hi (by rw [h]; exact ⟨rfl, rfl, rfl⟩) rfl (by rw [h]; rfl)
      (fun v _ => hnone v) (fun x hx => .inl ?_) (fun _ _ => rfl)
      (fun v x _ hx => awaits_setRole hx (fun hx => .inr ?_) ?_ ?_) nofun
    · cases hx.resolve_left nofun
      exact hold
    · obtain rfl : x = old := Option.some.inj (hx.symm.trans hold)
      simp [Role.awaits]
    · simp [h, Role.awaits]
    · simp [h, Role.replaced]
  | pass h hne =>
    rename_i old i
    have hcol : (s.role u).collects = some old := by rw [h]; rfl
    obtain ⟨hlt, hnone, -⟩ := hi.collects u old hcol
    refine arraysInv_collects hi (by rw [h]; exact ⟨rfl, rfl, rfl⟩) rfl
      (by rw [h]; rfl) (halone hcol) (fun x hx => hx.imp id fun hx => .inl ?_) (fun _ _ => hnone)
      (fun v x hl hx => awaits_setRole hx .inl (fun hx => .inr ?_) ?_) nofun
    · cases hx
      exact hcol
    · obtain rfl : x = old := Option.some.inj ((collects_of_awaits hx).symm.trans hcol)
      rw [h] at hx
      simp only [Role.awaits] at hx ⊢
      split at hx
      · rename_i hiv
        -- the handle that has been read is not an older one either
        refine if_pos (Nat.lt_of_le_of_ne hiv fun heq => ?_)
        have hvi : i = v := Fin.ext heq
        subst hvi
        have hle := hi.handle_le i x hl
        rcases hi.loaded i _ (.inl rfl) with hh | hh
        · omega
        · rcases hi.awaits_collects hcol hh with hh | hh
          · exact hne hh.2
          · omega
      · cases hx
    · simp [h, Role.replaced]
  | find h =>
    rename_i old i
    have hcol : (s.role u).collects = some old := by rw [h]; rfl
    refine arraysInv_collects hi (by rw [h]; exact ⟨rfl, rfl, rfl⟩) rfl
      (by rw [h]; rfl) (halone hcol) (fun x hx => hx.imp id fun hx => .inl ?_)
      (fun _ _ => (hi.collects u old hcol).2.1)
      (fun v x _ hx => awaits_setRole hx .inl (fun hx => .inr ?_) ?_) nofun
    · cases hx
      exact hcol
    · exact (collects_of_awaits hx).symm.trans hcol ▸ rfl
    · simp [h, Role.replaced]
  | clear h hn =>
    rename_i old i
    have hcol : (s.role u).collects = some old := by rw [h]; rfl
    obtain ⟨hlt, hnone, -⟩ := hi.collects u old hcol
    -- the loop is over, so no handle is waited for
    have hno : ∀ v : Fin nr, (s.role u).awaits v = none := fun v => by
      rw [h]
      exact if_neg (by omega)
    refine arraysInv_collects hi (by rw [h]; exact ⟨rfl, rfl, rfl⟩) rfl
      (by rw [h]; rfl) (halone hcol) (fun x hx => .inl (hx.resolve_right nofun)) nofun
      (fun v x _ hx => awaits_setRole hx .inl ?_ ?_) (fun x hx => ?_)
    · simp [hno v]
    · simp [h, Role.replaced]
    · cases hx
      refine ⟨hcol, rfl, hnone, fun v hv => ?_⟩
      rcases hi.loaded v old hv with hv | hv
      · omega
      · rcases hi.awaits_collects hcol hv with ⟨hv, -⟩ | hv
        · simp [hno v] at hv
        · exact lt_irrefl _ hv
  | putBack h =>
    rename_i old
    have hcol : (s.role u).collects = some old := by rw [h]; rfl
    obtain ⟨hlt, hnone, -⟩ := hi.collects u old hcol
    refine arraysInv_collects hi (by rw [h]; exact ⟨rfl, rfl, rfl⟩) rfl (by rw [h]; rfl)
      (halone hcol) (fun x hx => .inr (.inl ?_)) nofun
      (fun v x _ hx => awaits_setRole hx ?_ (fun hx => .inl ?_) ?_) nofun
    · rw [hcol]
      exact hx.resolve_right nofun
    · simp [hnone]
    · exact hcol.symm.trans (collects_of_awaits hx)
    · simp [h, Role.replaced]
  | free h => exact arraysInv_free hi h

end LinuxSummer.Hina
