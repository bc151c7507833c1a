import LinuxSummer.CircularList

/-! The lists of hw3/work-steal-qsort/include/list.h, whose entries embed a `list_head`, and the loop in
which `hina_exit` frees the works. Whatever the calls, the pointers hold the lists that the calls
speak of. -/
namespace LinuxSummer.ListHead
open CircularList
open scoped List
set_option linter.unusedSectionVars false

variable {A : Type*} [DecidableEq A]

/-- The memory, `none` where nothing is allocated. -/
abbrev Heap (A : Type*) := A → Option (Cell A)

def setNext (a x : A) (h : Heap A) : Option (Heap A) :=
  (h a).map fun k => Function.update h a (some { k with next := x })

def setPrev (a x : A) (h : Heap A) : Option (Heap A) :=
  (h a).map fun k => Function.update h a (some { k with prev := x })

/-- `INIT_LIST_HEAD` -/
def initListHead (list : A) (h : Heap A) : Option (Heap A) := do
  let h ← setNext list list h
  setPrev list list h

/-- `__list_add` -/
def listAddBetween (newer prev next : A) (h : Heap A) : Option (Heap A) := do
  let h ← setPrev next newer h
  let h ← setNext newer next h
  let h ← setPrev newer prev h
  setNext prev newer h

def listAdd (newer head : A) (h : Heap A) : Option (Heap A) := do
  let next ← nextOf h head
  listAddBetween newer head next h

def listAddTail (newer head : A) (h : Heap A) : Option (Heap A) := do
  let prev ← prevOf h head
  listAddBetween newer prev head h

/-- `__list_del` -/
def listDelBetween (prev next : A) (h : Heap A) : Option (Heap A) := do
  let h ← setPrev next prev h
  setNext prev next h

def listDel (entry : A) (h : Heap A) : Option (Heap A) := do
  let prev ← prevOf h entry
  let next ← nextOf h entry
  listDelBetween prev next h

def listDelInit (entry : A) (h : Heap A) : Option (Heap A) := do
  let h ← listDel entry h
  initListHead entry h

def listEmpty (head : A) (h : Heap A) : Option Bool :=
  (nextOf h head).map fun next => decide (next = head)

def listSpliceTail (list head : A) (h : Heap A) : Option (Heap A) := do
  let headLast ← prevOf h head
  let listFirst ← nextOf h list
  let listLast ← prevOf h list
  (listEmpty list h).bind fun empty =>
    if empty then some h
    else do
      let h ← setPrev head listLast h
      let h ← setNext listLast head h
      let h ← setPrev listFirst headLast h
      setNext headLast listFirst h

def listSpliceTailInit (list head : A) (h : Heap A) : Option (Heap A) := do
  let h ← listSpliceTail list head h
  initListHead list h

def malloc (a : A) (junk : Cell A) (h : Heap A) : Option (Heap A) :=
  if h a = none then some (Function.update h a (some junk)) else none

def free (a : A) (h : Heap A) : Option (Heap A) := (h a).map fun _ => Function.update h a none

/-- `list_for_each_entry_safe` of `hina_exit`, for `fuel` turns at most. -/
def freeLoop (head : A) : ℕ → A → A → Heap A → Option (Heap A)
  | 0, _, _, _ => none
  | fuel + 1, work, tmp, h =>
    if work = head then some h
    else do
      let h ← listDel work h
      let h ← free work h
      let next ← nextOf h tmp
      freeLoop head fuel tmp next h

/-- The end of `hina_exit`: the works are freed. -/
def freeWorks (fuel : ℕ) (head : A) (h : Heap A) : Option (Heap A) := do
  let work ← nextOf h head
  let tmp ← nextOf h work
  freeLoop head fuel work tmp h

inductive Call (A : Type*) where
  | malloc (a : A) (junk : Cell A)
  | free (a : A)
  | init (list : A)
  | add (newer head : A)
  | addTail (newer head : A)
  | del (entry : A)
  | delInit (entry : A)
  | empty (head : A)
  | spliceTail (list head : A)
  | spliceTailInit (list head : A)
  | freeWorks (head : A)

/-- What a call does to the memory and what it returns. -/
def exec (fuel : ℕ) (h : Heap A) : Call A → Option (Heap A × Option Bool)
  | .malloc a junk => (malloc a junk h).map (·, none)
  | .free a => (free a h).map (·, none)
  | .init list => (initListHead list h).map (·, none)
  | .add newer head => (listAdd newer head h).map (·, none)
  | .addTail newer head => (listAddTail newer head h).map (·, none)
  | .del entry => (listDel entry h).map (·, none)
  | .delInit entry => (listDelInit entry h).map (·, none)
  | .empty head => (listEmpty head h).map fun b => (h, some b)
  | .spliceTail list head => (listSpliceTail list head h).map (·, none)
  | .spliceTailInit list head => (listSpliceTailInit list head h).map (·, none)
  | .freeWorks head => (freeWorks fuel head h).map (·, none)

def execAll (fuel : ℕ) (h : Heap A) : List (Call A) → Option (Heap A × List (Option Bool))
  | [] => some (h, [])
  | c :: cs => do
    let (h, r) ← exec fuel h c
    let (h, rs) ← execAll fuel h cs
    some (h, r :: rs)

/-! ### The lists -/

/-- The entries of each list, by its head, and what is allocated and in no list. -/
structure Lists (A : Type*) where
  entries : A → Option (List A)
  loose : List A

/-- The head and the entries. -/
def cellsOf (head : A) (l : Option (List A)) : List A := l.elim [] (head :: ·)

def Lists.Has (S : Lists A) (a : A) : Prop :=
  a ∈ S.loose ∨ ∃ head, a ∈ cellsOf head (S.entries head)

def Lists.set (S : Lists A) (head : A) (l : Option (List A)) (loose : List A) : Lists A :=
  ⟨Function.update S.entries head l, loose⟩

/-- What a call means for the lists. A new entry or head is taken from the loose cells; an entry that
is deleted becomes one, and so does a head whose entries go to another list. -/
inductive Does (S : Lists A) : Call A → Option Bool → Lists A → Prop
  | malloc {a : A} {junk : Cell A} : ¬ S.Has a →
    Does S (.malloc a junk) none { S with loose := a :: S.loose }
  | free {a : A} : a ∈ S.loose → Does S (.free a) none { S with loose := S.loose.erase a }
  | init {list : A} : list ∈ S.loose →
    Does S (.init list) none (S.set list (some []) (S.loose.erase list))
  | add {newer head : A} {l : List A} : newer ∈ S.loose → S.entries head = some l →
    Does S (.add newer head) none (S.set head (some (newer :: l)) (S.loose.erase newer))
  | addTail {newer head : A} {l : List A} : newer ∈ S.loose → S.entries head = some l →
    Does S (.addTail newer head) none (S.set head (some (l ++ [newer])) (S.loose.erase newer))
  | del {entry head : A} {l₁ l₂ : List A} : S.entries head = some (l₁ ++ entry :: l₂) →
    Does S (.del entry) none (S.set head (some (l₁ ++ l₂)) (entry :: S.loose))
  | delInit {entry head : A} {l₁ l₂ : List A} : S.entries head = some (l₁ ++ entry :: l₂) →
    Does S (.delInit entry) none
      ((S.set head (some (l₁ ++ l₂)) S.loose).set entry (some []) S.loose)
  | empty {head : A} {l : List A} : S.entries head = some l →
    Does S (.empty head) (some l.isEmpty) S
  | spliceNone {list head : A} {l : List A} : S.entries list = some [] → S.entries head = some l →
    Does S (.spliceTail list head) none S
  | spliceTail {list head : A} {l m : List A} : list ≠ head → S.entries list = some m → m ≠ [] →
    S.entries head = some l → Does S (.spliceTail list head) none
      ((S.set list none S.loose).set head (some (l ++ m)) (list :: S.loose))
  | spliceTailInit {list head : A} {l m : List A} : list ≠ head → S.entries list = some m →
    S.entries head = some l → Does S (.spliceTailInit list head) none
      ((S.set list (some []) S.loose).set head (some (l ++ m)) S.loose)
  | freeWorks {head : A} {l : List A} : S.entries head = some l →
    Does S (.freeWorks head) none (S.set head (some []) S.loose)

inductive DoesAll : Lists A → List (Call A) → List (Option Bool) → Lists A → Prop
  | nil (S : Lists A) : DoesAll S [] [] S
  | cons {S S' S'' : Lists A} {c : Call A} {r : Option Bool} {cs : List (Call A)}
      {rs : List (Option Bool)} : Does S c r S' → DoesAll S' cs rs S'' →
    DoesAll S (c :: cs) (r :: rs) S''

/-- The lists have no cell in common, and the loose cells are in none of them. -/
structure Apart (S : Lists A) : Prop where
  each : ∀ head, (cellsOf head (S.entries head) ++ S.loose).Nodup
  lists : ∀ head head', head ≠ head' →
    List.Disjoint (cellsOf head (S.entries head)) (cellsOf head' (S.entries head'))

/-- The memory holds the lists, and nothing else is allocated. -/
structure Holds (h : Heap A) (S : Lists A) : Prop where
  apart : Apart S
  ring : ∀ head l, S.entries head = some l → Ring h head l
  live : ∀ a, (h a).isSome ↔ S.Has a

variable {S S' : Lists A} {h h' : Heap A} {a e x head list newer n p : A} {l m l₁ l₂ loose t : List A}
  {o : Option (List A)}

/-! ### Cells that change places -/

theorem cells_set_self : cellsOf head ((S.set head o loose).entries head) = cellsOf head o := by
  simp [Lists.set]

theorem cells_set_of_ne (hne : a ≠ head) :
    cellsOf a ((S.set head o loose).entries a) = cellsOf a (S.entries a) := by
  simp [Lists.set, Function.update_of_ne hne]

/-- Cells move between one list and the loose ones. -/
theorem Apart.set (hS : Apart S)
    (hperm : (cellsOf head o ++ loose).Perm (cellsOf head (S.entries head) ++ S.loose)) :
    Apart (S.set head o loose) := by
  have hmem {c : A} (hc : c ∈ cellsOf head o ∨ c ∈ loose) :
      c ∈ cellsOf head (S.entries head) ∨ c ∈ S.loose :=
    List.mem_append.mp (hperm.mem_iff.mp (List.mem_append.mpr hc))
  -- the cells of the other lists do not move
  have hother {b c : A} (hb : b ≠ head) (hc : c ∈ cellsOf b (S.entries b))
      (hc' : c ∈ cellsOf head o ∨ c ∈ loose) : False := by
    rcases hmem hc' with hh | hl
    · exact hS.lists b head hb hc hh
    · exact List.disjoint_of_nodup_append (hS.each b) hc hl
  have hloose : loose.Nodup := (List.nodup_append.mp (hperm.nodup_iff.mpr (hS.each head))).2.1
  constructor
  · intro b
    rcases eq_or_ne b head with rfl | hb
    · rw [cells_set_self]
      exact hperm.nodup_iff.mpr (hS.each b)
    · rw [cells_set_of_ne hb]
      exact (List.nodup_append.mp (hS.each b)).1.append hloose fun c hc hc' => hother hb hc (.inr hc')
  · intro b b' hne
    rcases eq_or_ne b head with rfl | hb
    · rw [cells_set_self, cells_set_of_ne hne.symm]
      exact fun c hc hc' => hother hne.symm hc' (.inl hc)
    · rcases eq_or_ne b' head with rfl | hb'
      · rw [cells_set_self, cells_set_of_ne hb]
        exact fun c hc hc' => hother hb hc (.inl hc')
      · rw [cells_set_of_ne hb, cells_set_of_ne hb']
        exact hS.lists b b' hne

theorem has_set (hperm : (cellsOf head o ++ loose).Perm (cellsOf head (S.entries head) ++ S.loose))
    (c : A) : (S.set head o loose).Has c ↔ S.Has c := by
  have hmem : c ∈ cellsOf head o ∨ c ∈ loose ↔ c ∈ cellsOf head (S.entries head) ∨ c ∈ S.loose := by
    rw [← List.mem_append, ← List.mem_append]
    exact hperm.mem_iff
  have split (S : Lists A) : S.Has c ↔ (c ∈ cellsOf head (S.entries head) ∨ c ∈ S.loose) ∨
      ∃ b, b ≠ head ∧ c ∈ cellsOf b (S.entries b) := by
    constructor
    · rintro (hl | ⟨b, hb⟩)
      · exact .inl (.inr hl)
      · rcases eq_or_ne b head with rfl | hne
        · exact .inl (.inl hb)
        · exact .inr ⟨b, hne, hb⟩
    · rintro ((hh | hl) | ⟨b, -, hb⟩)
      · exact .inr ⟨head, hh⟩
      · exact .inl hl
      · exact .inr ⟨b, hb⟩
  rw [split, split, cells_set_self]
  refine or_congr hmem (exists_congr fun b => and_congr_right fun hb => ?_)
  rw [cells_set_of_ne hb]

/-- The lists after a call that moves cells between one list and the loose ones, and writes to these
cells only. -/
theorem Holds.set (hh : Holds h S)
    (hperm : (cellsOf head o ++ loose).Perm (cellsOf head (S.entries head) ++ S.loose))
    (hring : ∀ l, o = some l → Ring h' head l)
    (hframe : ∀ c, c ∉ cellsOf head (S.entries head) → c ∉ S.loose →
      nextOf h' c = nextOf h c ∧ prevOf h' c = prevOf h c)
    (hlive : ∀ c, (h' c).isSome = (h c).isSome) : Holds h' (S.set head o loose) := by
  refine ⟨hh.apart.set hperm, fun b l hl => ?_, fun c => ?_⟩
  · rcases eq_or_ne b head with rfl | hb
    · simp only [Lists.set, Function.update_self] at hl
      exact hring l hl
    · simp only [Lists.set, Function.update_of_ne hb] at hl
      refine (hh.ring b l hl).congr fun c hc => hframe c (fun hc' => ?_) fun hc' => ?_
      · have hcells : c ∈ cellsOf b (S.entries b) := by rwa [hl]
        exact hh.apart.lists b head hb hcells hc'
      · have heach := hh.apart.each b
        rw [hl] at heach
        exact List.disjoint_of_nodup_append heach hc hc'
  · rw [hlive, has_set hperm]
    exact hh.live c

theorem Holds.live_loose (hh : Holds h S) (hx : x ∈ S.loose) : (h x).isSome :=
  (hh.live x).mpr (.inl hx)

theorem Holds.not_mem (hh : Holds h S) (hl : S.entries head = some l) (hx : x ∈ S.loose) :
    x ∉ head :: l := by
  have heach := hh.apart.each head
  rw [hl] at heach
  exact fun hmem => List.disjoint_of_nodup_append heach hmem hx

/-! ### The writes -/

/-- Pointers were written to cells that are allocated. -/
structure Wrote (h h' : Heap A) (next prev : A → Option A) : Prop where
  next : nextOf h' = next
  prev : prevOf h' = prev
  live : ∀ c, (h' c).isSome = (h c).isSome

theorem setNext_spec (ha : (h a).isSome) (x : A) : ∃ h', setNext a x h = some h' ∧
    Wrote h h' (Function.update (nextOf h) a (some x)) (prevOf h) := by
  obtain ⟨k, hk⟩ := Option.isSome_iff_exists.mp ha
  refine ⟨Function.update h a (some { k with next := x }), by rw [setNext, hk]; rfl, ?_, ?_, ?_⟩
  all_goals
    first | funext c | intro c
    rcases eq_or_ne c a with rfl | hc
    · simp [nextOf, prevOf, hk]
    · simp [nextOf, prevOf, Function.update_of_ne hc]

theorem setPrev_spec (ha : (h a).isSome) (x : A) : ∃ h', setPrev a x h = some h' ∧
    Wrote h h' (nextOf h) (Function.update (prevOf h) a (some x)) := by
  obtain ⟨k, hk⟩ := Option.isSome_iff_exists.mp ha
  refine ⟨Function.update h a (some { k with prev := x }), by rw [setPrev, hk]; rfl, ?_, ?_, ?_⟩
  all_goals
    first | funext c | intro c
    rcases eq_or_ne c a with rfl | hc
    · simp [nextOf, prevOf, hk]
    · simp [nextOf, prevOf, Function.update_of_ne hc]

theorem initListHead_spec (ha : (h a).isSome) : ∃ h', initListHead a h = some h' ∧
    Wrote h h' (Function.update (nextOf h) a (some a)) (Function.update (prevOf h) a (some a)) := by
  obtain ⟨h₁, e₁, w₁⟩ := setNext_spec ha a
  obtain ⟨h₂, e₂, w₂⟩ := setPrev_spec (h := h₁) (a := a) (by rw [w₁.live]; exact ha) a
  refine ⟨h₂, by simp only [initListHead, e₁, Option.bind_eq_bind, Option.bind_some, e₂], ?_, ?_, ?_⟩
  · rw [w₂.next, w₁.next]
  · rw [w₂.prev, w₁.prev]
  · exact fun c => (w₂.live c).trans (w₁.live c)

theorem listAddBetween_spec (hx : (h x).isSome) (hp : (h p).isSome) (hn : (h n).isSome) :
    ∃ h', listAddBetween x p n h = some h' ∧
      Wrote h h' (Function.update (Function.update (nextOf h) x (some n)) p (some x))
        (Function.update (Function.update (prevOf h) n (some x)) x (some p)) := by
  obtain ⟨h₁, e₁, w₁⟩ := setPrev_spec hn x
  obtain ⟨h₂, e₂, w₂⟩ := setNext_spec (h := h₁) (a := x) (by rw [w₁.live]; exact hx) n
  have live₂ (c : A) : (h₂ c).isSome = (h c).isSome := (w₂.live c).trans (w₁.live c)
  obtain ⟨h₃, e₃, w₃⟩ := setPrev_spec (h := h₂) (a := x) (by rw [live₂]; exact hx) p
  have live₃ (c : A) : (h₃ c).isSome = (h c).isSome := (w₃.live c).trans (live₂ c)
  obtain ⟨h₄, e₄, w₄⟩ := setNext_spec (h := h₃) (a := p) (by rw [live₃]; exact hp) x
  refine ⟨h₄, ?_, ?_, ?_, ?_⟩
  · simp only [listAddBetween, e₁, e₂, e₃, e₄, Option.bind_eq_bind, Option.bind_some]
  · rw [w₄.next, w₃.next, w₂.next, w₁.next]
  · rw [w₄.prev, w₃.prev, w₂.prev, w₁.prev]
  · exact fun c => (w₄.live c).trans (live₃ c)

theorem listDelBetween_spec (hp : (h p).isSome) (hn : (h n).isSome) :
    ∃ h', listDelBetween p n h = some h' ∧
      Wrote h h' (Function.update (nextOf h) p (some n)) (Function.update (prevOf h) n (some p)) := by
  obtain ⟨h₁, e₁, w₁⟩ := setPrev_spec hn p
  obtain ⟨h₂, e₂, w₂⟩ := setNext_spec (h := h₁) (a := p) (by rw [w₁.live]; exact hp) n
  refine ⟨h₂, by simp only [listDelBetween, e₁, e₂, Option.bind_eq_bind, Option.bind_some], ?_, ?_, ?_⟩
  · rw [w₂.next, w₁.next]
  · rw [w₂.prev, w₁.prev]
  · exact fun c => (w₂.live c).trans (w₁.live c)

/-! ### The calls -/

theorem malloc_spec (hh : Holds h S) (ha : ¬ S.Has a) (junk : Cell A) :
    ∃ h', malloc a junk h = some h' ∧ Holds h' { S with loose := a :: S.loose } := by
  have hfree : h a = none := by
    by_contra hne
    exact ha ((hh.live a).mp (Option.isSome_iff_ne_none.mpr hne))
  have hnot {b : A} {l : List A} (hl : S.entries b = some l) {c : A} (hc : c ∈ b :: l) : c ≠ a := by
    rintro rfl
    exact ha (.inr ⟨b, by rwa [hl]⟩)
  refine ⟨_, if_pos hfree, ⟨fun b => ?_, hh.apart.lists⟩, fun b l hl => ?_, fun c => ?_⟩
  · have heach := hh.apart.each b
    have hnew : a ∉ cellsOf b (S.entries b) ++ S.loose := fun hmem =>
      ha ((List.mem_append.mp hmem).elim (fun hc => .inr ⟨b, hc⟩) .inl)
    exact List.perm_middle.symm.nodup (List.nodup_cons.mpr ⟨hnew, heach⟩)
  · refine (hh.ring b l hl).congr fun c hc => ?_
    simp only [nextOf, prevOf, Function.update_of_ne (hnot hl hc), and_self]
  · simp only [Lists.Has, List.mem_cons]
    rcases eq_or_ne c a with rfl | hc
    · simp
    · rw [Function.update_of_ne hc, hh.live]
      simp [Lists.Has, hc]

theorem free_spec (hh : Holds h S) (ha : a ∈ S.loose) :
    ∃ h', free a h = some h' ∧ Holds h' { S with loose := S.loose.erase a } := by
  obtain ⟨k, hk⟩ := Option.isSome_iff_exists.mp (hh.live_loose ha)
  refine ⟨Function.update h a none, by rw [free, hk]; rfl, ⟨fun b => ?_, hh.apart.lists⟩,
    fun b l hl => ?_, fun c => ?_⟩
  · exact (hh.apart.each b).sublist (List.erase_sublist.append_left _)
  · refine (hh.ring b l hl).congr fun c hc => ?_
    have hca : c ≠ a := by
      rintro rfl
      exact hh.not_mem hl ha hc
    simp only [nextOf, prevOf, Function.update_of_ne hca, and_self]
  · have hnodup : S.loose.Nodup := (List.nodup_append.mp (hh.apart.each a)).2.1
    have hcells (b : A) : a ∉ cellsOf b (S.entries b) := fun hmem =>
      List.disjoint_of_nodup_append (hh.apart.each b) hmem ha
    simp only [Lists.Has, hnodup.mem_erase_iff]
    rcases eq_or_ne c a with rfl | hc
    · simp [hcells]
    · rw [Function.update_of_ne hc, hh.live]
      simp [Lists.Has, hc]

theorem init_spec (hh : Holds h S) (ha : a ∈ S.loose) : ∃ h', initListHead a h = some h' ∧
    Holds h' (S.set a (some []) (S.loose.erase a)) := by
  obtain ⟨h', heq, hw⟩ := initListHead_spec (hh.live_loose ha)
  have hnone : cellsOf a (S.entries a) = [] := by
    cases hl : S.entries a with
    | none => rfl
    | some l => exact absurd List.mem_cons_self (hh.not_mem hl ha)
  refine ⟨h', heq, hh.set ?_ ?_ (fun c _ hc => ?_) hw.live⟩
  · rw [hnone]
    exact (List.perm_cons_erase ha).symm
  · intro l hl
    cases hl
    apply ring_nil
    · rw [hw.next, Function.update_self]
    · rw [hw.prev, Function.update_self]
  · have hca : c ≠ a := by
      rintro rfl
      exact hc ha
    rw [hw.next, hw.prev, Function.update_of_ne hca, Function.update_of_ne hca]
    exact ⟨rfl, rfl⟩

/-- A cell leaves the loose ones for a list. -/
theorem perm_erase {l' : List A} (hx : x ∈ loose) (hl : (x :: l).Perm l') :
    (head :: l' ++ loose.erase x).Perm (head :: l ++ loose) := by
  calc head :: l' ++ loose.erase x
      _ ~ head :: (x :: l) ++ loose.erase x := (hl.symm.cons head).append_right _
      _ ~ head :: l ++ x :: loose.erase x := (List.perm_middle.symm).cons head
      _ ~ head :: l ++ loose := (List.perm_cons_erase hx).symm.append_left _

theorem listAdd_spec (hh : Holds h S) (hx : newer ∈ S.loose) (hl : S.entries head = some l) :
    ∃ h', listAdd newer head h = some h' ∧
      Holds h' (S.set head (some (newer :: l)) (S.loose.erase newer)) := by
  have hring := hh.ring head l hl
  have hnot := hh.not_mem hl hx
  obtain ⟨n, t, hn⟩ := exists_first head l
  have hmem : n ∈ head :: l := first_mem hn
  obtain ⟨h', heq, hw⟩ := listAddBetween_spec (hh.live_loose hx) (hring.live List.mem_cons_self)
    (hring.live hmem)
  have hcall : listAdd newer head h = some h' := by
    simp only [listAdd, hring.first hn, Option.bind_eq_bind, Option.bind_some, heq]
  refine ⟨h', hcall, hh.set ?_ ?_ (fun c hc hc' => ?_) hw.live⟩
  · rw [hl]
    exact perm_erase hx (.refl _)
  · intro l' hl'
    cases hl'
    exact hring.insert_first hnot hn hw.next hw.prev
  · rw [hl] at hc
    have hcx : c ≠ newer := fun heq => hc' (heq ▸ hx)
    have hch : c ≠ head := fun heq => hc (heq ▸ List.mem_cons_self)
    have hcn : c ≠ n := fun heq => hc (heq ▸ hmem)
    rw [hw.next, hw.prev]
    simp only [Function.update_of_ne hcx, Function.update_of_ne hch, Function.update_of_ne hcn,
      and_self]

theorem listAddTail_spec (hh : Holds h S) (hx : newer ∈ S.loose) (hl : S.entries head = some l) :
    ∃ h', listAddTail newer head h = some h' ∧
      Holds h' (S.set head (some (l ++ [newer])) (S.loose.erase newer)) := by
  have hring := hh.ring head l hl
  have hnot := hh.not_mem hl hx
  obtain ⟨s, p, hp⟩ := exists_last head l
  have hmem : p ∈ head :: l := hp ▸ List.mem_concat_self
  obtain ⟨h', heq, hw⟩ := listAddBetween_spec (hh.live_loose hx) (hring.live hmem)
    (hring.live List.mem_cons_self)
  have hcall : listAddTail newer head h = some h' := by
    simp only [listAddTail, hring.last hp, Option.bind_eq_bind, Option.bind_some, heq]
  refine ⟨h', hcall, hh.set ?_ ?_ (fun c hc hc' => ?_) hw.live⟩
  · rw [hl]
    exact perm_erase hx (List.perm_append_singleton newer l).symm
  · intro l' hl'
    cases hl'
    exact hring.insert_last hnot hp hw.next hw.prev
  · rw [hl] at hc
    have hcx : c ≠ newer := fun heq => hc' (heq ▸ hx)
    have hch : c ≠ head := fun heq => hc (heq ▸ List.mem_cons_self)
    have hcp : c ≠ p := fun heq => hc (heq ▸ hmem)
    rw [hw.next, hw.prev]
    simp only [Function.update_of_ne hcx, Function.update_of_ne hch, Function.update_of_ne hcp,
      and_self]

theorem listDel_spec (hh : Holds h S) (hl : S.entries head = some (l₁ ++ e :: l₂)) :
    ∃ h', listDel e h = some h' ∧
      Holds h' (S.set head (some (l₁ ++ l₂)) (e :: S.loose)) := by
  have hring := hh.ring head _ hl
  obtain ⟨s, p, hp⟩ := exists_last head l₁
  obtain ⟨n, t, hn⟩ := exists_first head l₂
  obtain ⟨hprev, hnext⟩ := hring.neighbours hp hn
  have hpmem : p ∈ head :: (l₁ ++ e :: l₂) := by
    have hmem : p ∈ head :: l₁ := hp ▸ List.mem_concat_self
    rw [← List.cons_append]
    exact List.mem_append_left _ hmem
  have hnmem : n ∈ head :: (l₁ ++ e :: l₂) := by
    have hmem : n ∈ l₂ ++ [head] := hn ▸ List.mem_cons_self
    rcases List.mem_append.mp hmem with hmem | hmem
    · exact List.mem_cons_of_mem _ (List.mem_append_right _ (List.mem_cons_of_mem _ hmem))
    · exact List.mem_singleton.mp hmem ▸ List.mem_cons_self
  obtain ⟨h', heq, hw⟩ := listDelBetween_spec (hring.live hpmem) (hring.live hnmem)
  have hcall : listDel e h = some h' := by
    simp only [listDel, hprev, hnext, Option.bind_eq_bind, Option.bind_some, heq]
  refine ⟨h', hcall, hh.set ?_ ?_ (fun c hc hc' => ?_) hw.live⟩
  · rw [hl]
    calc head :: (l₁ ++ l₂) ++ e :: S.loose
        ~ e :: (head :: (l₁ ++ l₂) ++ S.loose) := List.perm_middle
      _ ~ head :: (e :: (l₁ ++ l₂)) ++ S.loose := .swap ..
      _ ~ head :: (l₁ ++ e :: l₂) ++ S.loose := (List.perm_middle.symm.cons head).append_right _
  · intro l' hl'
    cases hl'
    exact hring.remove hp hn hw.next hw.prev
  · rw [hl] at hc
    have hcp : c ≠ p := fun heq => hc (heq ▸ hpmem)
    have hcn : c ≠ n := fun heq => hc (heq ▸ hnmem)
    rw [hw.next, hw.prev, Function.update_of_ne hcp, Function.update_of_ne hcn]
    exact ⟨rfl, rfl⟩

/-- The memory stays as it is, and a list is no longer one. -/
theorem Holds.dissolve (hh : Holds h S) (hm : S.entries list = some m) :
    Holds h (S.set list none (list :: m ++ S.loose)) := by
  refine hh.set ?_ nofun (fun _ _ _ => ⟨rfl, rfl⟩) fun _ => rfl
  rw [hm]
  exact .refl _

theorem listEmpty_spec (hh : Holds h S) (hl : S.entries head = some l) :
    listEmpty head h = some l.isEmpty := by
  have hring := hh.ring head l hl
  obtain ⟨n, t, hn⟩ := exists_first head l
  rw [listEmpty, hring.first hn, Option.map_some]
  cases l with
  | nil =>
    cases hn
    simp
  | cons b l =>
    have hnb : n = b := (List.cons.inj hn).1.symm
    have hne : b ≠ head := fun heq => (List.nodup_cons.mp hring.nodup).1 (heq ▸ List.mem_cons_self)
    simp [hnb, hne]

theorem listSpliceTail_spec (hh : Holds h S) (hne : list ≠ head) (hm : S.entries list = some m)
    (hm' : m ≠ []) (hl : S.entries head = some l) :
    ∃ h', listSpliceTail list head h = some h' ∧
      Holds h' ((S.set list none S.loose).set head (some (l ++ m)) (list :: S.loose)) := by
  have hring := hh.ring head l hl
  have hring' := hh.ring list m hm
  have hdisj : List.Disjoint (head :: l) (list :: m) := by
    have hlists := hh.apart.lists head list hne.symm
    rwa [hl, hm] at hlists
  obtain ⟨f, m', rfl⟩ := List.exists_cons_of_ne_nil hm'
  obtain ⟨r, q, hq⟩ := exists_last f m'
  obtain ⟨s, p, hp⟩ := exists_last head l
  have hhead := hring.last hp
  have hfirst : nextOf h list = some f := hring'.first rfl
  have hlast : prevOf h list = some q := hring'.last (s := list :: r) (by rw [hq]; rfl)
  have hempty : listEmpty list h = some false := listEmpty_spec hh hm
  have hpmem : p ∈ head :: l := hp ▸ List.mem_concat_self
  have hqmem : q ∈ list :: f :: m' := List.mem_cons_of_mem _ (hq ▸ List.mem_concat_self)
  have hfmem : f ∈ list :: f :: m' := List.mem_cons_of_mem _ List.mem_cons_self
  obtain ⟨h₁, e₁, w₁⟩ := setPrev_spec (hring.live List.mem_cons_self) q
  obtain ⟨h₂, e₂, w₂⟩ := setNext_spec (h := h₁) (a := q) (by rw [w₁.live]; exact hring'.live hqmem)
    head
  have live₂ (c : A) : (h₂ c).isSome = (h c).isSome := (w₂.live c).trans (w₁.live c)
  obtain ⟨h₃, e₃, w₃⟩ := setPrev_spec (h := h₂) (a := f) (by rw [live₂]; exact hring'.live hfmem) p
  have live₃ (c : A) : (h₃ c).isSome = (h c).isSome := (w₃.live c).trans (live₂ c)
  obtain ⟨h₄, e₄, w₄⟩ := setNext_spec (h := h₃) (a := p) (by rw [live₃]; exact hring.live hpmem) f
  have hnext : nextOf h₄ = Function.update (Function.update (nextOf h) q (some head)) p (some f) := by
    rw [w₄.next, w₃.next, w₂.next, w₁.next]
  have hprev : prevOf h₄ = Function.update (Function.update (prevOf h) head (some q)) f (some p) := by
    rw [w₄.prev, w₃.prev, w₂.prev, w₁.prev]
  have hcall : listSpliceTail list head h = some h₄ := by
    simp only [listSpliceTail, hhead, hfirst, hlast, hempty, Option.bind_eq_bind, Option.bind_some,
      Bool.false_eq_true, if_false, e₁, e₂, e₃, e₄]
  have hS : (S.set list none (list :: f :: m' ++ S.loose)).entries head = some l := by
    simp only [Lists.set, Function.update_of_ne hne.symm, hl]
  have live₄ (c : A) : (h₄ c).isSome = (h c).isSome := (w₄.live c).trans (live₃ c)
  refine ⟨h₄, hcall, (hh.dissolve hm).set ?_ ?_ (fun c hc hc' => ?_) live₄⟩
  · rw [hS]
    calc head :: (l ++ f :: m') ++ list :: S.loose
        ~ list :: (head :: (l ++ f :: m') ++ S.loose) := List.perm_middle
      _ ~ list :: (head :: l ++ (f :: m' ++ S.loose)) := by
        rw [List.cons_append, List.append_assoc]
        exact .refl _
      _ ~ head :: l ++ list :: (f :: m' ++ S.loose) := List.perm_middle.symm
  · intro l' hl'
    cases hl'
    exact hring.splice hring' hdisj hp rfl hq hnext hprev
  · rw [hS] at hc
    have hch : c ≠ head := fun heq => hc (heq ▸ List.mem_cons_self)
    have hcp : c ≠ p := fun heq => hc (heq ▸ hpmem)
    have hcq : c ≠ q := fun heq => hc' (heq ▸ List.mem_append_left _ hqmem)
    have hcf : c ≠ f := by
      rintro rfl
      exact hc' (List.mem_append_left _ hfmem)
    rw [hnext, hprev]
    simp only [Function.update_of_ne hch, Function.update_of_ne hcp, Function.update_of_ne hcq,
      Function.update_of_ne hcf, and_self]

/-- The list is empty, so nothing moves. -/
theorem listSpliceTail_nil (hh : Holds h S) (hm : S.entries list = some [])
    (hl : S.entries head = some l) : listSpliceTail list head h = some h := by
  have hring' := hh.ring list [] hm
  obtain ⟨s, p, hp⟩ := exists_last head l
  have hhead := (hh.ring head l hl).last hp
  have hfirst : nextOf h list = some list := hring'.first rfl
  have hlast : prevOf h list = some list := (List.isChain_pair.mp hring'.linked).2
  have hempty : listEmpty list h = some true := listEmpty_spec hh hm
  simp only [listSpliceTail, hhead, hfirst, hlast, hempty, Option.bind_eq_bind, Option.bind_some,
    if_true]

theorem set_self (hl : S.entries head = some l) : S.set head (some l) S.loose = S := by
  rw [Lists.set, ← hl, Function.update_eq_self]

theorem listDelInit_spec (hh : Holds h S) (hl : S.entries head = some (l₁ ++ e :: l₂)) :
    ∃ h', listDelInit e h = some h' ∧
      Holds h' ((S.set head (some (l₁ ++ l₂)) S.loose).set e (some []) S.loose) := by
  obtain ⟨h₁, e₁, hh₁⟩ := listDel_spec hh hl
  obtain ⟨h₂, e₂, hh₂⟩ := init_spec hh₁ (a := e) List.mem_cons_self
  refine ⟨h₂, by simp only [listDelInit, e₁, Option.bind_eq_bind, Option.bind_some, e₂], ?_⟩
  simp only [Lists.set, List.erase_cons_head] at hh₂
  exact hh₂

theorem listSpliceTailInit_spec (hh : Holds h S) (hne : list ≠ head)
    (hm : S.entries list = some m) (hl : S.entries head = some l) :
    ∃ h', listSpliceTailInit list head h = some h' ∧
      Holds h' ((S.set list (some []) S.loose).set head (some (l ++ m)) S.loose) := by
  by_cases hm' : m = []
  · subst hm'
    -- nothing moves, and the empty list is initialized once more
    have hring := hh.ring head l hl
    have hring' := hh.ring list [] hm
    have hsplice := listSpliceTail_nil hh hm hl
    have hfirst : nextOf h list = some list := hring'.first rfl
    have hlast : prevOf h list = some list := (List.isChain_pair.mp hring'.linked).2
    obtain ⟨h', e', w'⟩ := initListHead_spec (hring'.live List.mem_cons_self)
    have hsame : nextOf h' = nextOf h ∧ prevOf h' = prevOf h := by
      constructor
      · rw [w'.next, ← hfirst, Function.update_eq_self]
      · rw [w'.prev, ← hlast, Function.update_eq_self]
    have hstays : Holds h' (S.set head (some l) S.loose) := by
      refine hh.set (by rw [hl]) ?_ (fun c _ _ => by rw [hsame.1, hsame.2]; exact ⟨rfl, rfl⟩) w'.live
      intro l' hl'
      cases hl'
      exact hring.congr fun c _ => by rw [hsame.1, hsame.2]; exact ⟨rfl, rfl⟩
    rw [List.append_nil, set_self hm]
    exact ⟨h', by simp only [listSpliceTailInit, hsplice, Option.bind_eq_bind, Option.bind_some, e'],
      hstays⟩
  · obtain ⟨h₁, e₁, hh₁⟩ := listSpliceTail_spec hh hne hm hm' hl
    obtain ⟨h₂, e₂, hh₂⟩ := init_spec hh₁ (a := list) List.mem_cons_self
    refine ⟨h₂, by simp only [listSpliceTailInit, e₁, Option.bind_eq_bind, Option.bind_some, e₂], ?_⟩
    have hset : (S.set list (some []) S.loose).set head (some (l ++ m)) S.loose =
        ((S.set list none S.loose).set head (some (l ++ m)) (list :: S.loose)).set list (some [])
          ((list :: S.loose).erase list) := by
      simp only [Lists.set, List.erase_cons_head]
      rw [Function.update_comm hne.symm, Function.update_idem]
    rw [hset]
    exact hh₂

/-- The loop of `hina_exit` frees every entry once, and touches no entry that it has freed. -/
theorem freeLoop_spec {work tmp : A} (hh : Holds h S) (hl : S.entries head = some l)
    (hwork : l ++ [head] = work :: t) (htmp : nextOf h work = some tmp) :
    ∃ h', (∀ fuel, l.length < fuel → freeLoop head fuel work tmp h = some h') ∧
      Holds h' (S.set head (some []) S.loose) := by
  induction l generalizing h S work tmp t with
  | nil =>
    obtain ⟨rfl, -⟩ := List.cons.inj hwork
    rw [set_self hl]
    refine ⟨h, fun fuel hfuel => ?_, hh⟩
    obtain ⟨k, rfl⟩ := Nat.exists_eq_succ_of_ne_zero (Nat.ne_of_gt hfuel)
    rw [freeLoop, if_pos rfl]
  | cons e l ih =>
    obtain ⟨rfl, -⟩ := List.cons.inj hwork
    have hring := hh.ring head _ hl
    have hne : e ≠ head := fun heq => (List.nodup_cons.mp hring.nodup).1 (heq ▸ List.mem_cons_self)
    obtain ⟨n, t', hn⟩ := exists_first head l
    -- `tmp` was loaded before the entry is freed, and it is still in the list
    have hl₀ : S.entries head = some ([] ++ e :: l) := hl
    have hlast : head :: ([] : List A) = [] ++ [head] := rfl
    have hnext : nextOf h e = some n := ((hh.ring head _ hl₀).neighbours hlast hn).2
    have hnt : n = tmp := Option.some.inj (hnext.symm.trans htmp)
    subst hnt
    obtain ⟨h₁, e₁, hh₁⟩ := listDel_spec hh hl₀
    obtain ⟨h₂, e₂, hh₂⟩ := free_spec hh₁ (a := e) List.mem_cons_self
    have hh₃ : Holds h₂ (S.set head (some l) S.loose) := by
      simpa only [Lists.set, List.nil_append, List.erase_cons_head] using hh₂
    have hl₃ : (S.set head (some l) S.loose).entries head = some l := Function.update_self ..
    obtain ⟨tmp', htmp'⟩ := (hh₃.ring head l hl₃).next (first_mem hn)
    obtain ⟨h', e', hh'⟩ := ih hh₃ hl₃ hn htmp'
    refine ⟨h', fun fuel hfuel => ?_, ?_⟩
    · obtain ⟨k, rfl⟩ := Nat.exists_eq_succ_of_ne_zero (Nat.ne_of_gt (Nat.zero_lt_of_lt hfuel))
      have hk : l.length < k := by
        rw [List.length_cons] at hfuel
        omega
      rw [freeLoop, if_neg hne]
      simp only [e₁, e₂, htmp', Option.bind_eq_bind, Option.bind_some, e' k hk]
    · simpa only [Lists.set, Function.update_idem] using hh'

theorem freeWorks_spec (hh : Holds h S) (hl : S.entries head = some l) :
    ∃ h', (∀ fuel, l.length < fuel → freeWorks fuel head h = some h') ∧
      Holds h' (S.set head (some []) S.loose) := by
  have hring := hh.ring head l hl
  obtain ⟨n, t, hn⟩ := exists_first head l
  obtain ⟨tmp, htmp⟩ := hring.next (first_mem hn)
  obtain ⟨h', e', hh'⟩ := freeLoop_spec hh hl hn htmp
  refine ⟨h', fun fuel hfuel => ?_, hh'⟩
  simp only [freeWorks, hring.first hn, htmp, Option.bind_eq_bind, Option.bind_some, e' fuel hfuel]

/-- A call does to the memory what it means for the lists, if the loop has turns enough. -/
theorem exec_spec {c : Call A} {r : Option Bool} (hh : Holds h S) (hd : Does S c r S') :
    ∃ N h', (∀ fuel, N ≤ fuel → exec fuel h c = some (h', r)) ∧ Holds h' S' := by
  -- a call without a loop
  have plain {f : Option (Heap A)} {S' : Lists A} (hf : ∃ h', f = some h' ∧ Holds h' S') :
      ∃ (N : ℕ) (h' : Heap A), (∀ fuel, N ≤ fuel → f.map (·, (none : Option Bool)) =
        some (h', none)) ∧ Holds h' S' := by
    obtain ⟨h', rfl, hh'⟩ := hf
    exact ⟨0, h', fun _ _ => rfl, hh'⟩
  cases hd with
  | malloc ha => exact plain (malloc_spec hh ha _)
  | free ha => exact plain (free_spec hh ha)
  | init ha => exact plain (init_spec hh ha)
  | add hx hl => exact plain (listAdd_spec hh hx hl)
  | addTail hx hl => exact plain (listAddTail_spec hh hx hl)
  | del hl => exact plain (listDel_spec hh hl)
  | delInit hl => exact plain (listDelInit_spec hh hl)
  | empty hl => exact ⟨0, h, fun _ _ => by rw [exec, listEmpty_spec hh hl]; rfl, hh⟩
  | spliceNone hm hl => exact plain ⟨h, listSpliceTail_nil hh hm hl, hh⟩
  | spliceTail hne hm hm' hl => exact plain (listSpliceTail_spec hh hne hm hm' hl)
  | spliceTailInit hne hm hl => exact plain (listSpliceTailInit_spec hh hne hm hl)
  | @freeWorks head l hl =>
    obtain ⟨h', e', hh'⟩ := freeWorks_spec hh hl
    exact ⟨l.length + 1, h', fun fuel hfuel => by rw [exec, e' fuel hfuel]; rfl, hh'⟩

theorem execAll_spec {cs : List (Call A)} {rs : List (Option Bool)} (hd : DoesAll S cs rs S')
    (hh : Holds h S) :
    ∃ N h', (∀ fuel, N ≤ fuel → execAll fuel h cs = some (h', rs)) ∧ Holds h' S' := by
  induction hd generalizing h with
  | nil S => exact ⟨0, h, fun _ _ => rfl, hh⟩
  | cons hc hcs ih =>
    obtain ⟨N, h₁, e₁, hh₁⟩ := exec_spec hh hc
    obtain ⟨M, h₂, e₂, hh₂⟩ := ih hh₁
    refine ⟨max N M, h₂, fun fuel hfuel => ?_, hh₂⟩
    have hN := e₁ fuel ((Nat.le_max_left N M).trans hfuel)
    have hM := e₂ fuel ((Nat.le_max_right N M).trans hfuel)
    simp only [execAll, hN, hM, Option.bind_eq_bind, Option.bind_some]

theorem holds_nothing : Holds (fun _ => none : Heap A) ⟨fun _ => none, []⟩ where
  apart := ⟨fun _ => List.nodup_nil, fun _ _ _ _ hc => (by cases hc)⟩
  ring _ _ hl := by cases hl
  live a := by simp [Lists.Has, cellsOf]

/-- Whatever the calls, if each means something for the lists, then none goes through a pointer to
memory that is not allocated, they return what the lists say, and the memory holds the lists:
the pointers forwards and backwards, and nothing else allocated but the loose cells. -/
theorem lists_hold {cs : List (Call A)} {rs : List (Option Bool)}
    (h : DoesAll ⟨fun _ => none, []⟩ cs rs S) :
    ∃ N h', (∀ fuel, N ≤ fuel → execAll fuel (fun _ => none) cs = some (h', rs)) ∧ Holds h' S :=
  execAll_spec h holds_nothing

/-- Two works are spawned and freed. -/
theorem lists_hold_two : ∃ (S : Lists ℕ) (N : ℕ) (h' : Heap ℕ), (∀ fuel, N ≤ fuel →
    execAll fuel (fun _ => none) [.malloc 0 ⟨5, 5⟩, .malloc 1 ⟨5, 5⟩, .malloc 2 ⟨5, 5⟩, .init 0,
      .addTail 1 0, .addTail 2 0, .empty 0, .freeWorks 0, .empty 0] =
        some (h', [none, none, none, none, none, none, some false, none, some true])) ∧
      Holds h' S ∧ S.entries 0 = some [] ∧ S.loose = [] := by
  have hnew (l : List ℕ) (a : ℕ) (ha : a ∉ l) : ¬ Lists.Has ⟨fun _ => none, l⟩ a := by
    simpa [Lists.Has, cellsOf] using ha
  have hcalls : DoesAll ⟨fun _ => none, []⟩ [.malloc 0 ⟨5, 5⟩, .malloc 1 ⟨5, 5⟩, .malloc 2 ⟨5, 5⟩,
      .init 0, .addTail 1 0, .addTail 2 0, .empty 0, .freeWorks 0, .empty 0]
      [none, none, none, none, none, none, some false, none, some true] _ :=
    .cons (.malloc (hnew [] 0 (by decide))) <| .cons (.malloc (hnew [0] 1 (by decide))) <|
    .cons (.malloc (hnew [1, 0] 2 (by decide))) <| .cons (.init (by decide)) <|
    .cons (.addTail (by decide) rfl) <| .cons (.addTail (by decide) rfl) <|
    .cons (.empty (l := [1, 2]) rfl) <| .cons (.freeWorks rfl) <| .cons (.empty (l := []) rfl) <|
    .nil _
  obtain ⟨N, h', he, hh⟩ := lists_hold hcalls
  exact ⟨_, N, h', he, hh, rfl, rfl⟩

end LinuxSummer.ListHead
