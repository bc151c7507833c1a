import LinuxSummer.MpmcMemory

/-! The accesses of hw3/mpmc.c outside the reclamation keep the chain of nodes. -/
namespace LinuxSummer.Mpmc
set_option linter.unusedSectionVars false

variable {nr : ℕ} {V : Type} {Q : Setup nr} {g g' : Shared nr V} {pc pc' : Pc nr V}
  {chain chain' : List ℕ} {base base' : ℕ} {s s' : Config (Fin nr) (Shared nr V) (Pc nr V)}

/-- The invariant of a configuration, for the nodes linked so far and the place of `init_node`. -/
structure Inv (Q : Setup nr) (chain : List ℕ) (base : ℕ)
    (s : Config (Fin nr) (Shared nr V) (Pc nr V)) : Prop where
  memory : Memory Q chain base s.shared
  thread : ∀ u, Local Q chain base s.shared u (s.thread u)
  locked : ∀ u, Locked (s.thread u) → s.shared.initId = -1
  lock_unique : ∀ u v, Locked (s.thread u) → Locked (s.thread v) → u = v
  disjoint : ∀ u v k, Owns chain k (s.thread u) → Owns chain k (s.thread v) → u = v

/-- The content of the cell of the index `i`, null if its node is not linked. -/
def cellAt (Q : Setup nr) (chain : List ℕ) (g : Shared nr V) (i : ℕ) : Word nr V :=
  match chain[i / Q.cells]? with
  | some p => g.cell Q p i
  | none => .null

/-- What a step of `u` at `pc` writes to the cell of an index. -/
def written (u : Fin nr) : Pc nr V → ℕ → Option (Word nr V)
  | .xchgPush v i _, k => if k = i then some (.val v) else none
  | .xchgPop i _, k => if k = i then some (.futex u) else none
  | _, _ => none

/-- A step of thread `u` keeps the invariant for a chain that grows at most, and of the cells that
are not reclaimed it changes those that its access writes. -/
def Steps (Q : Setup nr) (chain : List ℕ) (base : ℕ)
    (s : Config (Fin nr) (Shared nr V) (Pc nr V)) (u : Fin nr) (g' : Shared nr V)
    (pc' : Pc nr V) : Prop :=
  ∃ chain' base', Inv Q chain' base' ⟨g', Function.update s.thread u pc'⟩ ∧
    Extends chain chain' ∧ base ≤ base' ∧ (¬ Locked (s.thread u) → base' = base) ∧
    ∀ i, base' ≤ i / Q.cells →
      cellAt Q chain' g' i = (written u (s.thread u) i).getD (cellAt Q chain s.shared i)

theorem owns_extends {v : Fin nr} {k : ℕ} (he : Extends chain chain') (hnd : chain'.Nodup)
    (hl : Local Q chain base g v pc) (h : Owns chain' k pc) : Owns chain k pc := by
  -- the places of both ends are known from `Local`, and they are the same in the longer chain
  have hback : ∀ {init min a b : ℕ}, chain[a]? = some init → chain[b]? = some min →
      (∃ a b, chain'[a]? = some init ∧ chain'[b]? = some min ∧ a ≤ k ∧ k < b) →
      ∃ a b, chain[a]? = some init ∧ chain[b]? = some min ∧ a ≤ k ∧ k < b := by
    rintro init min a b ha hb ⟨a', b', ha', hb', hk⟩
    rw [place_unique hnd ha' (he _ _ ha), place_unique hnd hb' (he _ _ hb)] at hk
    exact ⟨a, b, ha, hb, hk⟩
  cases pc with
  | reclaim i cv p =>
    cases p with
    | reopen init min newId =>
      obtain ⟨-, a, -, ha, hb, -⟩ := hl
      exact hback ha hb h
    | loadNext init min =>
      obtain ⟨a, b, -, -, ha, hb, -⟩ := hl
      exact hback ha hb h
    | free init tmp min =>
      obtain ⟨a, b, -, -, ha, hb, -⟩ := hl
      exact hback ha hb h
    | _ => exact h.elim
  | _ => exact h.elim

/-- What a thread is about to free lies before `base`. -/
theorem owns_lt {v : Fin nr} {k : ℕ} (hnd : chain.Nodup) (hl : Local Q chain base g v pc)
    (h : Owns chain k pc) : k < base := by
  have hbound : ∀ {init min b : ℕ}, chain[b]? = some min → b ≤ base →
      (∃ a b, chain[a]? = some init ∧ chain[b]? = some min ∧ a ≤ k ∧ k < b) → k < base := by
    rintro init min b hb hle ⟨a, b', -, hb', -, hkb⟩
    have hbb := place_unique hnd hb hb'
    omega
  cases pc with
  | reclaim i cv p =>
    cases p with
    | reopen init min newId =>
      obtain ⟨-, a, -, -, hb, -⟩ := hl
      exact hbound hb (Nat.le_refl _) h
    | loadNext init min =>
      obtain ⟨a, b, -, hle, -, hb, -⟩ := hl
      exact hbound hb hle h
    | free init tmp min =>
      obtain ⟨a, b, -, hle, -, hb, -⟩ := hl
      exact hbound hb hle h
    | _ => exact h.elim
  | _ => exact h.elim

/-- A step keeps the invariant when it keeps the mover's part, every other thread's, and the
exclusion between them. -/
theorem inv_of_parts {u : Fin nr} (hi : Inv Q chain base s) (hmem : Memory Q chain' base' g')
    (hown : Local Q chain' base' g' u pc')
    (hrely : ∀ v, v ≠ u → Rely Q chain chain' base base' s.shared g' v (s.thread v))
    (hlock : Locked pc' → g'.initId = -1 ∧ ∀ v, v ≠ u → ¬ Locked (s.thread v))
    (hother : ∀ v, v ≠ u → Locked (s.thread v) → g'.initId = -1)
    (howns : ∀ k, Owns chain' k pc' → ∀ v, v ≠ u → ¬ Owns chain k (s.thread v)) :
    Inv Q chain' base' ⟨g', Function.update s.thread u pc'⟩ := by
  have hback : ∀ v, v ≠ u → ∀ k, Owns chain' k (s.thread v) → Owns chain k (s.thread v) :=
    fun v hv k h => owns_extends (hrely v hv).extend hmem.nodup (hi.thread v) h
  refine ⟨hmem, fun v => ?_, fun v hv => ?_, fun v w hv hw => ?_, fun v w k hv hw => ?_⟩
  · by_cases hvu : v = u
    · subst hvu
      simpa only [Function.update_self] using hown
    · simpa only [Function.update_of_ne hvu] using local_rely (hrely v hvu) (hi.thread v)
  · by_cases hvu : v = u
    · subst hvu
      exact (hlock (by simpa only [Function.update_self] using hv)).1
    · exact hother v hvu (by simpa only [Function.update_of_ne hvu] using hv)
  · by_cases hvu : v = u <;> by_cases hwu : w = u
    · rw [hvu, hwu]
    · subst hvu
      simp only [Function.update_self, Function.update_of_ne hwu] at hv hw
      exact absurd hw ((hlock hv).2 w hwu)
    · subst hwu
      simp only [Function.update_self, Function.update_of_ne hvu] at hv hw
      exact absurd hv ((hlock hw).2 v hvu)
    · simp only [Function.update_of_ne hvu, Function.update_of_ne hwu] at hv hw
      exact hi.lock_unique v w hv hw
  · by_cases hvu : v = u <;> by_cases hwu : w = u
    · rw [hvu, hwu]
    · subst hvu
      simp only [Function.update_self, Function.update_of_ne hwu] at hv hw
      exact absurd (hback w hwu k hw) (howns k hv w hwu)
    · subst hwu
      simp only [Function.update_self, Function.update_of_ne hvu] at hv hw
      exact absurd (hback v hvu k hv) (howns k hw v hvu)
    · simp only [Function.update_of_ne hvu, Function.update_of_ne hwu] at hv hw
      exact hi.disjoint v w k (hback v hvu k hv) (hback w hwu k hw)

/-- `inv_of_parts` for a step that does not touch `init_id` and enters no exclusive section. -/
theorem inv_of_unlocked {u : Fin nr} (hi : Inv Q chain base s) (hmem : Memory Q chain' base' g')
    (hown : Local Q chain' base' g' u pc')
    (hrely : ∀ v, v ≠ u → Rely Q chain chain' base base' s.shared g' v (s.thread v))
    (hid : g'.initId = s.shared.initId) (hlock : Locked pc' → Locked (s.thread u))
    (howns : ∀ k, Owns chain' k pc' → Owns chain k (s.thread u)) :
    Inv Q chain' base' ⟨g', Function.update s.thread u pc'⟩ := by
  refine inv_of_parts hi hmem hown hrely (fun h => ⟨?_, fun v hv hl => ?_⟩) (fun v _ hl => ?_)
    fun k hk v hv h => ?_
  · rw [hid]
    exact hi.locked u (hlock h)
  · exact hv (hi.lock_unique v u hl (hlock h))
  · rw [hid]
    exact hi.locked v hl
  · exact hv (hi.disjoint v u k h (howns k hk))

theorem inv_quiet {u : Fin nr} (hi : Inv Q chain base s) (hq : Quiet chain s.shared g')
    (hown : Local Q chain base g' u pc') (hlock : Locked pc' → Locked (s.thread u))
    (howns : ∀ k, Owns chain k pc' → Owns chain k (s.thread u)) :
    Inv Q chain base ⟨g', Function.update s.thread u pc'⟩ :=
  inv_of_unlocked hi (memory_quiet hq hi.memory) hown (fun _ _ => rely_quiet hq) hq.initId hlock
    howns

/-- A quiet step that writes to no cell. -/
theorem steps_quiet {u : Fin nr} (hi : Inv Q chain base s) (hq : Quiet chain s.shared g')
    (hheap : g'.heap = s.shared.heap) (hw : written u (s.thread u) = fun _ => none)
    (hown : Local Q chain base g' u pc') (hlock : Locked pc' → Locked (s.thread u))
    (howns : ∀ k, Owns chain k pc' → Owns chain k (s.thread u)) :
    Steps Q chain base s u g' pc' := by
  refine ⟨chain, base, inv_quiet hi hq hown hlock howns, .refl chain, Nat.le_refl _, fun _ => rfl,
    fun i _ => ?_⟩
  rw [hw]
  simp only [cellAt, Shared.cell, hheap, Option.getD_none]

/-! ### The standby node -/

/-- A step of `u` that changes its standby node `tmp` only, which no other thread has. -/
structure Private (chain : List ℕ) (u : Fin nr) (tmp : ℕ) (g g' : Shared nr V) : Prop where
  notMem : tmp ∉ chain
  lt_used : tmp < g'.used
  others : ∀ t, t ≠ u → (g.handle t).spare ≠ some tmp
  next : (g'.heap tmp).next = none
  cells : (g'.heap tmp).cells = fun _ => .null
  heap : ∀ p, p ≠ tmp → g'.heap p = g.heap p
  used : g.used ≤ g'.used
  freed : g'.freed = g.freed
  initNode : g'.initNode = g.initNode
  initId : g'.initId = g.initId
  index : ∀ flag, g'.index flag = g.index flag
  handle : ∀ t, t ≠ u → g'.handle t = g.handle t
  ptr : ∀ flag, (g'.handle u).ptr flag = (g.handle u).ptr flag
  spare : (g'.handle u).spare = some tmp

theorem Private.ptr_eq {u : Fin nr} {tmp : ℕ} (hp : Private chain u tmp g g') (t : Fin nr)
    (flag : QueueOp) : (g'.handle t).ptr flag = (g.handle t).ptr flag := by
  by_cases htu : t = u
  · subst htu
    exact hp.ptr flag
  · rw [hp.handle t htu]

theorem memory_private {u : Fin nr} {tmp : ℕ} (hp : Private chain u tmp g g')
    (hm : Memory Q chain base g) : Memory Q chain base g' := by
  have hne : ∀ p ∈ chain, p ≠ tmp := fun p h heq => hp.notMem (heq ▸ h)
  refine ⟨hm.nodup, fun p h => (hm.lt_used p h).trans_le hp.used, fun p h => ?_, fun k p h hk => ?_,
    ?_, ?_, ?_, ?_, fun flag t ht => ?_, fun t p h => ?_, fun t t' p h h' => ?_⟩
  · by_cases hpt : p = tmp
    · subst hpt
      exact ⟨hp.next, hp.cells⟩
    · rw [hp.heap p hpt]
      exact hm.unlinked p h
  · rw [hp.heap p (hne p (mem_of_place h))]
    exact hm.node k p h (by rwa [hp.freed] at hk)
  · simpa only [hp.freed] using hm.freed
  · simpa only [hp.freed] using hm.freed_nodup
  · simpa only [hp.initNode] using hm.initNode
  · simpa only [hp.initId] using hm.initId
  · rw [hp.index, hp.ptr_eq]
    exact hm.handle flag t ht
  · by_cases htu : t = u
    · subst htu
      rw [hp.spare] at h
      cases h
      exact ⟨hp.lt_used, hp.notMem⟩
    · rw [hp.handle t htu] at h
      obtain ⟨hlt, hmem⟩ := hm.spare t p h
      exact ⟨hlt.trans_le hp.used, hmem⟩
  · by_cases htu : t = u <;> by_cases htu' : t' = u
    · rw [htu, htu']
    · subst htu
      rw [hp.spare] at h
      rw [hp.handle t' htu', ← h] at h'
      exact absurd h' (hp.others t' htu')
    · subst htu'
      rw [hp.spare] at h'
      rw [hp.handle t htu, ← h'] at h
      exact absurd h (hp.others t htu)
    · rw [hp.handle t htu] at h
      rw [hp.handle t' htu'] at h'
      exact hm.spare_inj t t' p h h'

theorem rely_private {u v : Fin nr} {tmp : ℕ} (hp : Private chain u tmp g g') (hv : v ≠ u) :
    Rely Q chain chain base base g g' v pc where
  extend := .refl chain
  base_le := Nat.le_refl _
  locked _ := rfl
  own := hp.handle v hv
  spare q hq := by
    have hne : q ≠ tmp := fun h => hp.others v hv (h ▸ hq)
    rw [hp.heap q hne]
  index flag := (hp.index flag).ge
  handle flag t m h := by rwa [hp.ptr_eq]
  freed k p _ h := by rwa [hp.freed]

/-- `tmp->id = j + 1`, with a new node if there is no standby node. -/
theorem private_fill (u : Fin nr) (id : ℕ) (hm : Memory Q chain base g) :
    Private chain u (spare u g).2 g ((spare u g).1.setId (spare u g).2 id) := by
  unfold spare
  cases hs : (g.handle u).spare with
  | some tmp =>
    obtain ⟨hlt, hmem⟩ := hm.spare u tmp hs
    have hun := hm.unlinked tmp hmem
    refine ⟨hmem, hlt, fun t ht h => ht (hm.spare_inj t u tmp h hs), ?_, ?_, fun p hp => ?_,
      Nat.le_refl _, rfl, rfl, rfl, fun _ => rfl, fun _ _ => rfl, fun _ => rfl, hs⟩
    · simpa [Shared.setId] using hun.1
    · simpa [Shared.setId] using hun.2
    · simp [Shared.setId, Function.update_of_ne hp]
  | none =>
    refine ⟨fun h => absurd (hm.lt_used _ h) (Nat.lt_irrefl _), Nat.lt_succ_self _, fun t _ h => ?_,
      ?_, ?_, fun p hp => ?_, Nat.le_succ _, rfl, rfl, rfl, fun _ => rfl, fun t ht => ?_,
      fun flag => ?_, ?_⟩
    · exact absurd (hm.spare t _ h).1 (Nat.lt_irrefl _)
    · simp [Shared.setId, newNode]
    · simp [Shared.setId, newNode]
    · simp [Shared.setId, Function.update_of_ne hp]
    · simp [Shared.setId, Function.update_of_ne ht]
    · cases flag <;> simp [Shared.setId, Handle.ptr]
    · simp [Shared.setId]

/-! ### Linking a node -/

/-- The state after a successful compare-and-swap on `curr->next`. -/
def linked (u : Fin nr) (g : Shared nr V) (curr tmp : ℕ) : Shared nr V :=
  (g.setNext curr (some tmp)).setHandle u { g.handle u with spare := none }

theorem linked_ptr {u : Fin nr} {curr tmp : ℕ} (t : Fin nr) (flag : QueueOp) :
    ((linked u g curr tmp).handle t).ptr flag = (g.handle t).ptr flag := by
  by_cases htu : t = u
  · subst htu
    cases flag <;> simp [linked, Shared.setHandle, Handle.ptr]
  · simp [linked, Shared.setHandle, Shared.setNext, Function.update_of_ne htu]

theorem linked_handle {u t : Fin nr} {curr tmp : ℕ} (ht : t ≠ u) :
    (linked u g curr tmp).handle t = g.handle t := by
  simp [linked, Shared.setHandle, Shared.setNext, Function.update_of_ne ht]

theorem linked_heap {u : Fin nr} {curr tmp p : ℕ} (hp : p ≠ curr) :
    (linked u g curr tmp).heap p = g.heap p := by
  simp [linked, Shared.setHandle, Shared.setNext, Function.update_of_ne hp]

theorem linked_node {u : Fin nr} {curr tmp : ℕ} (p : ℕ) :
    ((linked u g curr tmp).heap p).id = (g.heap p).id ∧
      ((linked u g curr tmp).heap p).cells = (g.heap p).cells := by
  by_cases hp : p = curr
  · subst hp
    simp [linked, Shared.setHandle, Shared.setNext]
  · rw [linked_heap hp]
    exact ⟨rfl, rfl⟩

theorem memory_linked {u : Fin nr} {curr tmp j : ℕ} (hm : Memory Q chain base g)
    (hcurr : chain[j]? = some curr) (hlen : chain.length = j + 1)
    (hs : (g.handle u).spare = some tmp) (hid : (g.heap tmp).id = j + 1) :
    Memory Q (chain ++ [tmp]) base (linked u g curr tmp) := by
  have he := extends_append chain tmp
  obtain ⟨hlt, hmem⟩ := hm.spare u tmp hs
  have hne : tmp ≠ curr := fun h => hmem (h ▸ mem_of_place hcurr)
  refine ⟨?_, fun p hp => ?_, fun p hp => ?_, fun k p hp hk => ?_, fun p k hp => ?_, hm.freed_nodup,
    he _ _ hm.initNode, hm.initId, fun flag t ht => ?_, fun t p hp => ?_, fun t t' p hp hp' => ?_⟩
  · exact List.nodup_append.mpr ⟨hm.nodup, by simp, by
      intro a ha b hb hab
      rw [List.mem_singleton] at hb
      exact hmem (hb ▸ hab ▸ ha)⟩
  · rcases List.mem_append.mp hp with hp | hp
    · exact hm.lt_used p hp
    · rw [List.mem_singleton.mp hp]
      exact hlt
  · rw [List.mem_append, List.mem_singleton, not_or] at hp
    have hpc : p ≠ curr := fun h => hp.1 (h ▸ mem_of_place hcurr)
    rw [linked_heap hpc]
    exact hm.unlinked p hp.1
  · rw [(linked_node p).1]
    by_cases hkl : k < chain.length
    · rw [List.getElem?_append_left hkl] at hp
      obtain ⟨hpid, hpnext⟩ := hm.node k p hp hk
      refine ⟨hpid, ?_⟩
      by_cases hkj : k = j
      · -- the node that was the last
        subst hkj
        rw [hcurr] at hp
        cases hp
        simp [linked, Shared.setHandle, Shared.setNext, ← hlen]
      · have hpc : p ≠ curr := fun h => hkj (place_unique hm.nodup hp (h ▸ hcurr))
        rw [linked_heap hpc, hpnext, List.getElem?_append_left (by omega)]
    · rw [List.getElem?_append_right (by omega), List.getElem?_singleton] at hp
      have hkeq : k = chain.length := by
        split at hp
        · omega
        · cases hp
      subst hkeq
      simp only [Nat.sub_self, if_true, Option.some.injEq] at hp
      subst hp
      rw [linked_heap hne]
      exact ⟨hid.trans hlen.symm, by simp [(hm.unlinked tmp hmem).1]⟩
  · obtain ⟨hplace, hk⟩ := hm.freed p k hp
    exact ⟨he _ _ hplace, hk⟩
  · rw [linked_ptr]
    exact (hm.handle flag t ht).mono he (Nat.le_refl _) (Nat.le_refl _)
  · by_cases htu : t = u
    · subst htu
      simp [linked, Shared.setHandle] at hp
    · rw [linked_handle htu] at hp
      obtain ⟨hplt, hpmem⟩ := hm.spare t p hp
      refine ⟨hplt, fun h => ?_⟩
      rcases List.mem_append.mp h with h | h
      · exact hpmem h
      · rw [List.mem_singleton.mp h] at hp
        exact htu (hm.spare_inj t u tmp hp hs)
  · by_cases htu : t = u
    · subst htu
      simp [linked, Shared.setHandle] at hp
    · by_cases htu' : t' = u
      · subst htu'
        simp [linked, Shared.setHandle] at hp'
      · rw [linked_handle htu] at hp
        rw [linked_handle htu'] at hp'
        exact hm.spare_inj t t' p hp hp'

theorem rely_linked {u v : Fin nr} {curr tmp : ℕ} (hv : v ≠ u) :
    Rely Q chain (chain ++ [tmp]) base base g (linked u g curr tmp) v pc where
  extend := extends_append chain tmp
  base_le := Nat.le_refl _
  locked _ := rfl
  own := linked_handle hv
  spare q _ := (linked_node q).1
  index _ := Nat.le_refl _
  handle flag t m h := by
    rw [linked_ptr]
    exact h.mono (extends_append chain tmp) (Nat.le_refl _)
  freed _ _ _ h := h

theorem cellAt_linked {u : Fin nr} {curr tmp : ℕ} (hm : Memory Q chain base g)
    (hs : (g.handle u).spare = some tmp) (i : ℕ) :
    cellAt Q (chain ++ [tmp]) (linked u g curr tmp) i = cellAt Q chain g i := by
  have hnull := (hm.unlinked tmp (hm.spare u tmp hs).2).2
  unfold cellAt Shared.cell
  by_cases hk : i / Q.cells < chain.length
  · rw [List.getElem?_append_left hk]
    cases chain[i / Q.cells]? with
    | some p => simp only [(linked_node p).2]
    | none => rfl
  · rw [List.getElem?_append_right (by omega), List.getElem?_singleton,
      List.getElem?_eq_none (by omega : chain.length ≤ i / Q.cells)]
    split
    · rename_i heq
      split at heq
      · cases heq
        simp only [(linked_node _).2, hnull]
      · cases heq
    · rfl

/-! ### Moving a handle -/

theorem setPtr_ptr (h : Handle) (p : ℕ) (flag flag' : QueueOp) :
    (h.setPtr p flag).ptr flag' = if flag' = flag then p else h.ptr flag' := by
  cases flag <;> cases flag' <;> rfl

theorem setPtr_spare (h : Handle) (p : ℕ) (flag : QueueOp) : (h.setPtr p flag).spare = h.spare := by
  cases flag <;> rfl

/-- `*ptr = curr` -/
def moved (u : Fin nr) (g : Shared nr V) (flag : QueueOp) (curr : ℕ) : Shared nr V :=
  g.setHandle u ((g.handle u).setPtr curr flag)

theorem moved_ptr {u : Fin nr} {curr : ℕ} (flag : QueueOp) (t : Fin nr) (flag' : QueueOp) :
    ((moved u g flag curr).handle t).ptr flag' =
      if t = u ∧ flag' = flag then curr else (g.handle t).ptr flag' := by
  by_cases htu : t = u
  · subst htu
    simp [moved, Shared.setHandle, setPtr_ptr]
  · simp [moved, Shared.setHandle, htu]

theorem moved_spare {u : Fin nr} {curr : ℕ} (flag : QueueOp) (t : Fin nr) :
    ((moved u g flag curr).handle t).spare = (g.handle t).spare := by
  by_cases htu : t = u
  · subst htu
    simp [moved, Shared.setHandle, setPtr_spare]
  · simp [moved, Shared.setHandle, Function.update_of_ne htu]

theorem memory_moved {u : Fin nr} {flag : QueueOp} {i curr : ℕ} (hm : Memory Q chain base g)
    (hreg : u ∈ Q.handles flag) (hi : i < g.index flag) (hcurr : chain[i / Q.cells]? = some curr)
    (hptr : Between chain 0 (i / Q.cells) ((g.handle u).ptr flag)) :
    Memory Q chain base (moved u g flag curr) := by
  refine ⟨hm.nodup, hm.lt_used, hm.unlinked, hm.node, hm.freed, hm.freed_nodup, hm.initNode,
    hm.initId, fun flag' t ht => ?_, fun t p hp => ?_, fun t t' p hp hp' => ?_⟩
  · rw [moved_ptr]
    split
    · rename_i h
      obtain ⟨rfl, rfl⟩ := h
      exact ⟨i / Q.cells, hcurr, base_le_of_between hm hreg hptr, Nat.div_le_div_right hi.le⟩
    · exact hm.handle flag' t ht
  · rw [moved_spare] at hp
    exact hm.spare t p hp
  · rw [moved_spare] at hp hp'
    exact hm.spare_inj t t' p hp hp'

/-- The handle moves forward. -/
theorem rely_moved {u v : Fin nr} {flag : QueueOp} {i curr : ℕ} (hm : Memory Q chain base g)
    (hcurr : chain[i / Q.cells]? = some curr)
    (hptr : Between chain 0 (i / Q.cells) ((g.handle u).ptr flag)) (hv : v ≠ u) :
    Rely Q chain chain base base g (moved u g flag curr) v pc where
  extend := .refl chain
  base_le := Nat.le_refl _
  locked _ := rfl
  own := by simp [moved, Shared.setHandle, Function.update_of_ne hv]
  spare _ _ := rfl
  index _ := Nat.le_refl _
  handle flag' t m h := by
    rw [moved_ptr]
    split
    · rename_i heq
      obtain ⟨rfl, rfl⟩ := heq
      obtain ⟨k, hk, hmk⟩ := h
      obtain ⟨k', hk', -, hle⟩ := hptr
      have hkk := place_unique hm.nodup hk hk'
      exact ⟨i / Q.cells, hcurr, by omega⟩
    · exact h
  freed _ _ _ h := h

/-! ### The accesses of `mpmc_find_cell` -/

/-- The head of the loop of `mpmc_find_cell` has no nodes to free and is in no exclusive section. -/
theorem walk_plain (chain : List ℕ) (Q : Setup nr) (op : Op V) (i curr j : ℕ) :
    ¬ Locked (walk Q op i curr j : Pc nr V) ∧
      ∀ k, ¬ Owns chain k (walk Q op i curr j : Pc nr V) := by
  unfold walk
  split <;> exact ⟨id, fun _ => id⟩

theorem local_walk {u : Fin nr} {op : Op V} {i curr j : ℕ} (h : Walking Q chain g u op i curr j) :
    Local Q chain base g u (walk Q op i curr j) := by
  unfold walk
  split
  · exact ⟨h, ‹_›⟩
  · have hj : j = i / Q.cells := by
      have hle := h.2.2.2.1
      omega
    subst hj
    exact h

theorem steps_start {u : Fin nr} {op : Op V} {i : ℕ} (hi : Inv Q chain base s)
    (hpc : s.thread u = .start op i) :
    Steps Q chain base s u s.shared (walk Q op i ((s.shared.handle u).ptr op.flag)
      (s.shared.heap ((s.shared.handle u).ptr op.flag)).id) := by
  have hl := hi.thread u
  rw [hpc] at hl
  obtain ⟨hreg, hlt, k, hk, -, hki⟩ := hl
  obtain ⟨k', hk', hbase, -⟩ := hi.memory.handle op.flag u hreg
  have hkk := place_unique hi.memory.nodup hk hk'
  subst hkk
  have hplain := walk_plain chain Q op i
    ((s.shared.handle u).ptr op.flag) (s.shared.heap ((s.shared.handle u).ptr op.flag)).id
  refine steps_quiet hi quiet_refl rfl (by rw [hpc]; rfl) (local_walk ⟨hreg, hlt, ?_, ?_, ?_⟩)
    (fun h => absurd h hplain.1) fun k h => absurd h (hplain.2 k)
  · rw [id_eq hi.memory hk hbase]
    exact hk
  · rw [id_eq hi.memory hk hbase]
    exact hki
  · rw [id_eq hi.memory hk hbase]
    exact ⟨k, hk, Nat.zero_le _, Nat.le_refl _⟩

/-- The loop takes the next node, which is there or was linked by another thread. -/
theorem steps_advance {u : Fin nr} {op : Op V} {i curr j next : ℕ} (hi : Inv Q chain base s)
    (hw : written u (s.thread u) = fun _ => none)
    (hl : Walking Q chain s.shared u op i curr j ∧ j < i / Q.cells)
    (hnext : (s.shared.heap curr).next = some next) :
    Steps Q chain base s u s.shared (walk Q op i next (j + 1)) := by
  obtain ⟨⟨hreg, hlt, hcurr, hj, hptr⟩, hji⟩ := hl
  rw [next_eq hi.memory hcurr (base_le_of_between hi.memory hreg hptr)] at hnext
  have hplain := walk_plain chain Q op i next (j + 1)
  refine steps_quiet hi quiet_refl rfl hw (local_walk ⟨hreg, hlt, hnext, hji, ?_⟩)
    (fun h => absurd h hplain.1) fun k h => absurd h (hplain.2 k)
  exact hptr.mono (.refl chain) (Nat.le_refl _) (Nat.le_succ j)

theorem steps_fill {u : Fin nr} {op : Op V} {i curr j : ℕ} (hi : Inv Q chain base s)
    (hpc : s.thread u = .fill op i curr j) :
    Steps Q chain base s u ((spare u s.shared).1.setId (spare u s.shared).2 (j + 1))
      (.link op i curr j (spare u s.shared).2) := by
  have hl := hi.thread u
  rw [hpc] at hl
  obtain ⟨⟨hreg, hlt, hcurr, hj, hptr⟩, hji⟩ := hl
  have hp := private_fill u (j + 1) hi.memory
  refine ⟨chain, base, inv_of_unlocked hi (memory_private hp hi.memory) ?_
    (fun v hv => rely_private hp hv) hp.initId (fun h => h.elim) (fun k h => h.elim), .refl chain,
    Nat.le_refl _, fun _ => rfl, fun k _ => ?_⟩
  · refine ⟨⟨hreg, ?_, hcurr, hj, ?_⟩, hji, hp.spare, by simp [Shared.setId]⟩
    · rw [hp.index]
      exact hlt
    · rw [hp.ptr]
      exact hptr
  · rw [hpc]
    simp only [written, Option.getD_none, cellAt, Shared.cell]
    cases hk : chain[k / Q.cells]? with
    | some p =>
      have hne : p ≠ (spare u s.shared).2 := fun h => hp.notMem (h ▸ mem_of_place hk)
      simp only [hp.heap p hne]
    | none => rfl

theorem steps_link {u : Fin nr} {op : Op V} {i curr j tmp : ℕ} (hi : Inv Q chain base s)
    (hpc : s.thread u = .link op i curr j tmp) (hnext : (s.shared.heap curr).next = none) :
    Steps Q chain base s u (linked u s.shared curr tmp) (walk Q op i tmp (j + 1)) := by
  have hl := hi.thread u
  rw [hpc] at hl
  obtain ⟨⟨hreg, hlt, hcurr, hj, hptr⟩, hji, hs, hid⟩ := hl
  rw [next_eq hi.memory hcurr (base_le_of_between hi.memory hreg hptr),
    List.getElem?_eq_none_iff] at hnext
  have hlast := (List.getElem?_eq_some_iff.mp hcurr).1
  have hlen : chain.length = j + 1 := by omega
  have hplain := walk_plain (chain ++ [tmp]) Q op i tmp (j + 1)
  refine ⟨chain ++ [tmp], base, inv_of_unlocked hi (memory_linked hi.memory hcurr hlen hs hid)
    (local_walk ⟨hreg, hlt, ?_, hji, ?_⟩) (fun v hv => rely_linked hv) rfl
    (fun h => absurd h hplain.1) (fun k h => absurd h (hplain.2 k)), extends_append chain tmp,
    Nat.le_refl _, fun _ => rfl, fun k _ => ?_⟩
  · rw [List.getElem?_append_right (by omega), ← hlen]
    simp
  · rw [linked_ptr]
    exact hptr.mono (extends_append chain tmp) (Nat.le_refl _) (Nat.le_succ j)
  · rw [hpc, cellAt_linked hi.memory hs]
    rfl

theorem steps_setPtr {u : Fin nr} {op : Op V} {i curr : ℕ} (hi : Inv Q chain base s)
    (hpc : s.thread u = .setPtr op i curr) :
    Steps Q chain base s u (moved u s.shared op.flag curr) (found Q i curr op) := by
  have hl := hi.thread u
  rw [hpc] at hl
  obtain ⟨hreg, hlt, hcurr, hj, hptr⟩ := hl
  have hholds : Holds Q chain (moved u s.shared op.flag curr) u op.flag i curr := by
    refine ⟨hreg, hcurr, ?_⟩
    rw [moved_ptr, if_pos ⟨rfl, rfl⟩]
  refine ⟨chain, base, inv_of_unlocked hi (memory_moved hi.memory hreg hlt hcurr hptr) ?_
    (fun v hv => rely_moved hi.memory hcurr hptr hv) rfl ?_ ?_, .refl chain, Nat.le_refl _, fun _ => rfl,
    fun k _ => ?_⟩
  · cases op <;> exact hholds
  · cases op <;> exact fun h => h.elim
  · cases op <;> exact fun k h => h.elim
  · rw [hpc]
    rfl

/-! ### The other accesses of a call -/

theorem holds_handle {u : Fin nr} {flag : QueueOp} {i c : ℕ} (hh : g'.handle = g.handle)
    (h : Holds Q chain g u flag i c) : Holds Q chain g' u flag i c := by
  unfold Holds at h ⊢
  rwa [hh]

/-- An exchange of the cell of `i`. -/
theorem steps_setCell {u : Fin nr} {flag : QueueOp} {i c : ℕ} {w : Word nr V}
    (hi : Inv Q chain base s) (hl : Holds Q chain s.shared u flag i c)
    (hq : Quiet chain (s.shared.setCell Q c i w) g')
    (hheap : g'.heap = (s.shared.setCell Q c i w).heap)
    (hw : written u (s.thread u) = fun k => if k = i then some w else none)
    (hown : Local Q chain base g' u pc') (hplain : ¬ Locked pc' ∧ ∀ k, ¬ Owns chain k pc') :
    Steps Q chain base s u g' pc' := by
  refine ⟨chain, base, inv_quiet hi ((quiet_setCell (mem_of_place hl.2.1)).trans hq) hown
    (fun h => absurd h hplain.1) (fun k h => absurd h (hplain.2 k)), .refl chain, Nat.le_refl _, fun _ => rfl,
    fun k _ => ?_⟩
  rw [hw]
  simp only [cellAt, Shared.cell, hheap]
  by_cases hki : k = i
  · subst hki
    simp [hl.2.1, Shared.setCell]
  · simp only [hki, if_false, Option.getD_none]
    cases hk : chain[k / Q.cells]? with
    | none => rfl
    | some p =>
      by_cases hpc : p = c
      · subst hpc
        -- the same node but another cell of it
        have hplace := place_unique hi.memory.nodup hk hl.2.1
        have hcell : k &&& Q.mask ≠ i &&& Q.mask := fun hoff => hki (index_unique hplace hoff)
        simp [Shared.setCell, hcell]
      · simp [Shared.setCell, Function.update_of_ne hpc]

/-- `mpmc_dequeue` from `over`: it returns or goes on to reclaim. -/
theorem over_cases (Q : Setup nr) (g : Shared nr V) (i : ℕ) (cv : Word nr V) :
    atOver Q g i cv = (g, .reclaim i cv .loadInit) ∨ atOver Q g i cv = dequeued g i cv := by
  unfold atOver
  split
  · exact Or.inl rfl
  · exact Or.inr rfl

theorem quiet_dequeued {i : ℕ} {cv : Word nr V} : Quiet chain g (dequeued g i cv).1 :=
  quiet_fields g.putIndex g.popIndex g.futex g.asleep _ (Nat.le_refl _) (Nat.le_refl _)

theorem quiet_enqueued {i : ℕ} : Quiet chain g (enqueued g i).1 :=
  quiet_fields g.putIndex g.popIndex g.futex g.asleep _ (Nat.le_refl _) (Nat.le_refl _)

/-- What `over` leaves as it is. -/
theorem over_spec (Q : Setup nr) (chain : List ℕ) (base : ℕ) (g : Shared nr V) (u : Fin nr) (i : ℕ)
    (cv : Word nr V) :
    Quiet chain g (atOver Q g i cv).1 ∧ (atOver Q g i cv).1.heap = g.heap ∧
      Local Q chain base (atOver Q g i cv).1 u (atOver Q g i cv).2 ∧
      ¬ Locked (atOver Q g i cv).2 ∧ ∀ k, ¬ Owns chain k (atOver Q g i cv).2 := by
  rcases over_cases Q g i cv with h | h <;> rw [h]
  · exact ⟨quiet_refl, rfl, trivial, id, fun _ => id⟩
  · exact ⟨quiet_dequeued, rfl, trivial, id, fun _ => id⟩

theorem steps_over {u : Fin nr} {i : ℕ} {cv : Word nr V} (hi : Inv Q chain base s)
    (hw : written u (s.thread u) = fun _ => none) (hn : atOver Q s.shared i cv = (g', pc')) :
    Steps Q chain base s u g' pc' := by
  have hover := over_spec Q chain base s.shared u i cv
  rw [hn] at hover
  obtain ⟨hq, hheap, hl, hlock, howns⟩ := hover
  exact steps_quiet hi hq hheap hw hl (fun h => absurd h hlock) fun k h => absurd h (howns k)

end LinuxSummer.Mpmc
