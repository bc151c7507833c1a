import LinuxSummer.MpmcModel

/-! The nodes of the queue of hw3/mpmc.c. All nodes ever linked form a chain; the node at the place
`k` of it has the id `k` until it is freed, and those from the place `base` on are not freed. -/
namespace LinuxSummer.Mpmc
set_option linter.unusedSectionVars false

variable {nr : ℕ} {V : Type} {Q : Setup nr} {g g' : Shared nr V} {pc pc' : Pc nr V}
  {chain chain' : List ℕ} {base base' : ℕ}

/-- `p` is a node of the chain at one of the places from `a` to `b`. -/
def Between (chain : List ℕ) (a b p : ℕ) : Prop := ∃ k, chain[k]? = some p ∧ a ≤ k ∧ k ≤ b

/-- `p` is a node of the chain at the place `a` or a later one. -/
def From (chain : List ℕ) (a p : ℕ) : Prop := ∃ k, chain[k]? = some p ∧ a ≤ k

/-- The places in `chain` are the same in `chain'`. -/
def Extends (chain chain' : List ℕ) : Prop :=
  ∀ k p : ℕ, chain[k]? = some p → chain'[k]? = some p

theorem place_unique {a b p : ℕ} (hnd : chain.Nodup) (ha : chain[a]? = some p)
    (hb : chain[b]? = some p) : a = b :=
  (List.getElem?_inj (List.getElem?_eq_some_iff.mp ha).1 hnd).mp (ha.trans hb.symm)

theorem Between.from {a b p : ℕ} (h : Between chain a b p) : From chain a p := by
  obtain ⟨k, hk, ha, -⟩ := h
  exact ⟨k, hk, ha⟩

theorem Between.mono {a a' b b' p : ℕ} (he : Extends chain chain') (ha : a' ≤ a) (hb : b ≤ b')
    (h : Between chain a b p) : Between chain' a' b' p := by
  obtain ⟨k, hk, hak, hkb⟩ := h
  exact ⟨k, he k p hk, by omega, by omega⟩

theorem From.mono {a a' p : ℕ} (he : Extends chain chain') (ha : a' ≤ a) (h : From chain a p) :
    From chain' a' p := by
  obtain ⟨k, hk, hak⟩ := h
  exact ⟨k, he k p hk, by omega⟩

theorem Extends.refl (chain : List ℕ) : Extends chain chain := fun _ _ h => h

theorem extends_append (chain : List ℕ) (p : ℕ) : Extends chain (chain ++ [p]) := fun k q h => by
  rw [List.getElem?_append_left (List.getElem?_eq_some_iff.mp h).1, h]

/-- An index is known from its node and its offset. -/
theorem index_unique {i k : ℕ} (hplace : i / Q.cells = k / Q.cells)
    (hoff : i &&& Q.mask = k &&& Q.mask) : i = k := by
  unfold Setup.mask Setup.cells at *
  rw [Nat.and_two_pow_sub_one_eq_mod, Nat.and_two_pow_sub_one_eq_mod] at hoff
  rw [← Nat.div_add_mod i (2 ^ Q.bits), hplace, hoff, Nat.div_add_mod]

/-- The counter that hands out the indices of an operation. -/
def Shared.index (g : Shared nr V) : QueueOp → ℕ
  | .enqueue => g.putIndex
  | .dequeue => g.popIndex

/-- What holds of the nodes between any two accesses. The places of the handles are at most those
of the next indices. -/
structure Memory (Q : Setup nr) (chain : List ℕ) (base : ℕ) (g : Shared nr V) : Prop where
  nodup : chain.Nodup
  lt_used : ∀ p ∈ chain, p < g.used
  unlinked : ∀ p, p ∉ chain → (g.heap p).next = none ∧ (g.heap p).cells = fun _ => .null
  node : ∀ k p, chain[k]? = some p → (p, k) ∉ g.freed →
    (g.heap p).id = k ∧ (g.heap p).next = chain[k + 1]?
  freed : ∀ p k, (p, k) ∈ g.freed → chain[k]? = some p ∧ k < base
  freed_nodup : (g.freed.map Prod.fst).Nodup
  initNode : chain[base]? = some g.initNode
  initId : g.initId = -1 ∨ g.initId = base
  handle : ∀ flag, ∀ t ∈ Q.handles flag,
    Between chain base (g.index flag / Q.cells) ((g.handle t).ptr flag)
  spare : ∀ t p, (g.handle t).spare = some p → p < g.used ∧ p ∉ chain
  spare_inj : ∀ t t' p, (g.handle t).spare = some p → (g.handle t').spare = some p → t = t'

/-- The places of the handles are at least `m`. -/
def AllFrom (Q : Setup nr) (chain : List ℕ) (g : Shared nr V) (m : ℕ) : Prop :=
  ∀ flag, ∀ t ∈ Q.handles flag, From chain m ((g.handle t).ptr flag)

/-- Before the handle `l` in the loop over the array of `flag`, the scan has met no place before
`m`. -/
def Scanned (Q : Setup nr) (chain : List ℕ) (g : Shared nr V) (m : ℕ) : QueueOp → ℕ → Prop
  | .dequeue, l => ∀ t ∈ (Q.handles .dequeue).take l, From chain m ((g.handle t).ptr .dequeue)
  | .enqueue, l => (∀ t ∈ Q.handles .dequeue, From chain m ((g.handle t).ptr .dequeue)) ∧
    ∀ t ∈ (Q.handles .enqueue).take l, From chain m ((g.handle t).ptr .enqueue)

/-- The nodes from the place `a` up to `b` are not freed. -/
def Unfreed (g : Shared nr V) (a b : ℕ) : Prop :=
  ∀ k p, a ≤ k → k < b → (p, k) ∉ g.freed

/-- The node `min` of the scan has a place from `base` on, and the places before it are known to
be free of handles, unless it is `base` itself. -/
def MinInv (chain : List ℕ) (base min : ℕ) (seen : ℕ → Prop) : Prop :=
  ∃ m, base ≤ m ∧ chain[m]? = some min ∧ (m = base ∨ seen m)

def ReclaimInv (Q : Setup nr) (chain : List ℕ) (base : ℕ) (g : Shared nr V) : ReclaimPc → Prop
  | .loadInit => True
  | .casInit _ => True
  | .initNode index => index = base
  | .first index init => index = base ∧ chain[base]? = some init
  | .scan flag index init l min => index = base ∧ chain[base]? = some init ∧
    MinInv chain base min fun m => Scanned Q chain g m flag l
  | .compare flag index init l min nextMin => index = base ∧ chain[base]? = some init ∧
    MinInv chain base min (fun m => Scanned Q chain g m flag l) ∧
    ∃ m, base ≤ m ∧ chain[m]? = some nextMin ∧
      ∀ t, (Q.handles flag)[l]? = some t → From chain m ((g.handle t).ptr flag)
  | .decide index init min => index = base ∧ chain[base]? = some init ∧
    MinInv chain base min (AllFrom Q chain g)
  | .restore index => index = base
  | .setInitNode init min newId => chain[base]? = some init ∧ base < newId ∧
    chain[newId]? = some min ∧ AllFrom Q chain g newId
  | .reopen init min newId => newId = base ∧
    ∃ a, a < base ∧ chain[a]? = some init ∧ chain[base]? = some min ∧ Unfreed g a base
  | .loadNext init min =>
    ∃ a b, a < b ∧ b ≤ base ∧ chain[a]? = some init ∧ chain[b]? = some min ∧ Unfreed g a b
  | .free init tmp min =>
    ∃ a b, a < b ∧ b ≤ base ∧ chain[a]? = some init ∧ chain[b]? = some min ∧ Unfreed g a b ∧
      tmp = chain[a + 1]?

/-- In `mpmc_find_cell`: `curr` is the node at the place `j`, which is not before that of the
handle nor behind the one to find. -/
def Walking (Q : Setup nr) (chain : List ℕ) (g : Shared nr V) (u : Fin nr) (op : Op V)
    (i curr j : ℕ) : Prop :=
  u ∈ Q.handles op.flag ∧ i < g.index op.flag ∧ chain[j]? = some curr ∧ j ≤ i / Q.cells ∧
    Between chain 0 j ((g.handle u).ptr op.flag)

/-- The handle is at the node of the index `i`, which is `c`. -/
def Holds (Q : Setup nr) (chain : List ℕ) (g : Shared nr V) (u : Fin nr) (flag : QueueOp)
    (i c : ℕ) : Prop :=
  u ∈ Q.handles flag ∧ chain[i / Q.cells]? = some c ∧ (g.handle u).ptr flag = c

/-- What holds of the nodes that a thread has at hand. -/
def Local (Q : Setup nr) (chain : List ℕ) (base : ℕ) (g : Shared nr V) (u : Fin nr) :
    Pc nr V → Prop
  | .idle => True
  | .fetch op => u ∈ Q.handles op.flag
  | .start op i => u ∈ Q.handles op.flag ∧ i < g.index op.flag ∧
    Between chain 0 (i / Q.cells) ((g.handle u).ptr op.flag)
  | .next op i curr j => Walking Q chain g u op i curr j ∧ j < i / Q.cells
  | .fill op i curr j => Walking Q chain g u op i curr j ∧ j < i / Q.cells
  | .link op i curr j tmp => Walking Q chain g u op i curr j ∧ j < i / Q.cells ∧
    (g.handle u).spare = some tmp ∧ (g.heap tmp).id = j + 1
  | .setPtr op i curr => Walking Q chain g u op i curr (i / Q.cells)
  | .xchgPush _ i c => Holds Q chain g u .enqueue i c
  | .setWord _ _ => True
  | .wake _ _ => True
  | .spin i c _ => Holds Q chain g u .dequeue i c
  | .xchgPop i c => Holds Q chain g u .dequeue i c
  | .wait i c => Holds Q chain g u .dequeue i c
  | .sleep i c => Holds Q chain g u .dequeue i c
  | .check i c => Holds Q chain g u .dequeue i c
  | .reload i c => Holds Q chain g u .dequeue i c
  | .reclaim _ _ p => ReclaimInv Q chain base g p

/-- Past the compare-and-swap of `init_id` to -1 and before the store that restores it. -/
def Locked : Pc nr V → Prop
  | .reclaim _ _ (.initNode _) => True
  | .reclaim _ _ (.first _ _) => True
  | .reclaim _ _ (.scan _ _ _ _ _) => True
  | .reclaim _ _ (.compare _ _ _ _ _ _) => True
  | .reclaim _ _ (.decide _ _ _) => True
  | .reclaim _ _ (.restore _) => True
  | .reclaim _ _ (.setInitNode _ _ _) => True
  | .reclaim _ _ (.reopen _ _ _) => True
  | _ => False

/-- The places of the nodes that a thread is about to free. -/
def Owns (chain : List ℕ) (k : ℕ) : Pc nr V → Prop
  | .reclaim _ _ (.reopen init min _) =>
    ∃ a b, chain[a]? = some init ∧ chain[b]? = some min ∧ a ≤ k ∧ k < b
  | .reclaim _ _ (.loadNext init min) =>
    ∃ a b, chain[a]? = some init ∧ chain[b]? = some min ∧ a ≤ k ∧ k < b
  | .reclaim _ _ (.free init _ min) =>
    ∃ a b, chain[a]? = some init ∧ chain[b]? = some min ∧ a ≤ k ∧ k < b
  | _ => False

/-- What the steps of other threads may change of what `Local` says of the thread `v` at `pc`. -/
structure Rely (Q : Setup nr) (chain chain' : List ℕ) (base base' : ℕ) (g g' : Shared nr V)
    (v : Fin nr) (pc : Pc nr V) : Prop where
  extend : Extends chain chain'
  base_le : base ≤ base'
  locked : Locked pc → base' = base
  own : g'.handle v = g.handle v
  spare : ∀ tmp, (g.handle v).spare = some tmp → (g'.heap tmp).id = (g.heap tmp).id
  index : ∀ flag, g.index flag ≤ g'.index flag
  handle : ∀ flag t m, From chain m ((g.handle t).ptr flag) →
    From chain' m ((g'.handle t).ptr flag)
  freed : ∀ k p, Owns chain k pc → (p, k) ∉ g.freed → (p, k) ∉ g'.freed

theorem scanned_mono {flag : QueueOp} {l m : ℕ} (hm : ∀ flag t m,
    From chain m ((g.handle t).ptr flag) → From chain' m ((g'.handle t).ptr flag))
    (h : Scanned Q chain g m flag l) : Scanned Q chain' g' m flag l := by
  cases flag with
  | dequeue => exact fun t ht => hm _ t m (h t ht)
  | enqueue => exact ⟨fun t ht => hm _ t m (h.1 t ht), fun t ht => hm _ t m (h.2 t ht)⟩

theorem minInv_mono {min : ℕ} {seen seen' : ℕ → Prop} (he : Extends chain chain')
    (hs : ∀ m, seen m → seen' m) (h : MinInv chain base min seen) :
    MinInv chain' base min seen' := by
  obtain ⟨m, hm, hmin, hseen⟩ := h
  exact ⟨m, hm, he m min hmin, hseen.imp_right (hs m)⟩

theorem walking_rely {v : Fin nr} {op : Op V} {i curr j : ℕ} {pc : Pc nr V}
    (hr : Rely Q chain chain' base base' g g' v pc) (h : Walking Q chain g v op i curr j) :
    Walking Q chain' g' v op i curr j := by
  obtain ⟨hreg, hi, hcurr, hj, hptr⟩ := h
  have hindex := hr.index op.flag
  exact ⟨hreg, by omega, hr.extend _ _ hcurr, hj, by
    rw [hr.own]
    exact hptr.mono hr.extend (Nat.le_refl _) (Nat.le_refl _)⟩

theorem holds_rely {v : Fin nr} {flag : QueueOp} {i c : ℕ} {pc : Pc nr V}
    (hr : Rely Q chain chain' base base' g g' v pc) (h : Holds Q chain g v flag i c) :
    Holds Q chain' g' v flag i c := by
  obtain ⟨hreg, hc, hptr⟩ := h
  exact ⟨hreg, hr.extend _ _ hc, by rw [hr.own, hptr]⟩

theorem reclaimInv_rely {v : Fin nr} {i : ℕ} {cv : Word nr V} {p : ReclaimPc}
    (hr : Rely Q chain chain' base base' g g' v (.reclaim i cv p))
    (h : ReclaimInv Q chain base g p) : ReclaimInv Q chain' base' g' p := by
  have he := hr.extend
  have hbase := hr.base_le
  have hlocked := hr.locked
  have hfreed := hr.freed
  cases p <;> simp only [ReclaimInv] at h ⊢
  case initNode index => rw [hlocked trivial, h]
  case first index init =>
    rw [hlocked trivial]
    exact ⟨h.1, he _ _ h.2⟩
  case scan flag index init l min =>
    rw [hlocked trivial]
    exact ⟨h.1, he _ _ h.2.1, minInv_mono he (fun m => scanned_mono hr.handle) h.2.2⟩
  case compare flag index init l min nextMin =>
    rw [hlocked trivial]
    obtain ⟨hi, hinit, hmin, m, hm, hnext, hall⟩ := h
    exact ⟨hi, he _ _ hinit, minInv_mono he (fun m => scanned_mono hr.handle) hmin, m, hm,
      he _ _ hnext, fun t ht => hr.handle _ _ _ (hall t ht)⟩
  case decide index init min =>
    rw [hlocked trivial]
    exact ⟨h.1, he _ _ h.2.1,
      minInv_mono he (fun m hm flag t ht => hr.handle _ _ _ (hm flag t ht)) h.2.2⟩
  case restore index => rw [hlocked trivial, h]
  case setInitNode init min newId =>
    rw [hlocked trivial]
    exact ⟨he _ _ h.1, h.2.1, he _ _ h.2.2.1, fun flag t ht => hr.handle _ _ _ (h.2.2.2 flag t ht)⟩
  case reopen init _ _ =>
    rw [hlocked trivial]
    obtain ⟨hn, a, ha, hinit, hmin, hun⟩ := h
    exact ⟨hn, a, ha, he _ _ hinit, he _ _ hmin, fun k p hak hkb =>
      hfreed k p ⟨a, base, hinit, hmin, hak, hkb⟩ (hun k p hak hkb)⟩
  case loadNext init min =>
    obtain ⟨a, b, hab, hb, hinit, hmin, hun⟩ := h
    exact ⟨a, b, hab, hb.trans hbase, he _ _ hinit, he _ _ hmin, fun k p hak hkb =>
      hfreed k p ⟨a, b, hinit, hmin, hak, hkb⟩ (hun k p hak hkb)⟩
  case free init tmp min =>
    obtain ⟨a, b, hab, hb, hinit, hmin, hun, htmp⟩ := h
    refine ⟨a, b, hab, hb.trans hbase, he _ _ hinit, he _ _ hmin, fun k p hak hkb =>
      hfreed k p ⟨a, b, hinit, hmin, hak, hkb⟩ (hun k p hak hkb), ?_⟩
    -- there is a next node, since `min` is behind `init`
    have hlen := (List.getElem?_eq_some_iff.mp hmin).1
    obtain ⟨q, hq⟩ : ∃ q, chain[a + 1]? = some q :=
      ⟨_, List.getElem?_eq_getElem (by omega)⟩
    rw [htmp, hq, he _ _ hq]

/-- The step of another thread keeps what a thread knows of its nodes. -/
theorem local_rely {v : Fin nr} {pc : Pc nr V} (hr : Rely Q chain chain' base base' g g' v pc)
    (h : Local Q chain base g v pc) : Local Q chain' base' g' v pc := by
  cases pc <;> simp only [Local] at h ⊢
  case fetch op => exact h
  case start op i =>
    obtain ⟨hreg, hi, hptr⟩ := h
    have hindex := hr.index op.flag
    exact ⟨hreg, by omega, by
      rw [hr.own]
      exact hptr.mono hr.extend (Nat.le_refl _) (Nat.le_refl _)⟩
  case next => exact ⟨walking_rely hr h.1, h.2⟩
  case fill => exact ⟨walking_rely hr h.1, h.2⟩
  case link op i curr j tmp =>
    exact ⟨walking_rely hr h.1, h.2.1, by rw [hr.own, h.2.2.1], by
      rw [hr.spare tmp h.2.2.1, h.2.2.2]⟩
  case setPtr => exact walking_rely hr h
  case reclaim => exact reclaimInv_rely hr h
  all_goals exact holds_rely hr h

theorem live (hm : Memory Q chain base g) {k p : ℕ} (hk : base ≤ k) : (p, k) ∉ g.freed :=
  fun h => absurd (hm.freed p k h).2 (by omega)

/-- A node from the place `base` on has its place as id. -/
theorem id_eq (hm : Memory Q chain base g) {k p : ℕ} (hp : chain[k]? = some p) (hk : base ≤ k) :
    (g.heap p).id = k :=
  (hm.node k p hp (live hm hk)).1

theorem next_eq (hm : Memory Q chain base g) {k p : ℕ} (hp : chain[k]? = some p)
    (hk : base ≤ k) : (g.heap p).next = chain[k + 1]? :=
  (hm.node k p hp (live hm hk)).2

theorem mem_of_place {k p : ℕ} (h : chain[k]? = some p) : p ∈ chain :=
  List.mem_of_getElem? h

/-- The place of a registered handle is not before `base`. -/
theorem base_le_of_between (hm : Memory Q chain base g) {u : Fin nr} {flag : QueueOp} {j : ℕ}
    (hreg : u ∈ Q.handles flag) (h : Between chain 0 j ((g.handle u).ptr flag)) : base ≤ j := by
  obtain ⟨k, hk, -, hkj⟩ := h
  obtain ⟨k', hk', hbase, -⟩ := hm.handle flag u hreg
  have hkk := place_unique hm.nodup hk hk'
  omega

/-- A step that changes no link, no id and no handle. -/
structure Quiet (chain : List ℕ) (g g' : Shared nr V) : Prop where
  node : ∀ p, (g'.heap p).id = (g.heap p).id ∧ (g'.heap p).next = (g.heap p).next
  unlinked : ∀ p, p ∉ chain → (g'.heap p).cells = (g.heap p).cells
  used : g'.used = g.used
  freed : g'.freed = g.freed
  initNode : g'.initNode = g.initNode
  initId : g'.initId = g.initId
  handle : g'.handle = g.handle
  index : ∀ flag, g.index flag ≤ g'.index flag

theorem quiet_fields (put pop : ℕ) (futex : Fin nr → ℕ) (asleep : Fin nr → Bool) (log : Log nr V)
    (hput : g.putIndex ≤ put) (hpop : g.popIndex ≤ pop) :
    Quiet chain g { g with
      putIndex := put, popIndex := pop, futex := futex, asleep := asleep, log := log } :=
  ⟨fun _ => ⟨rfl, rfl⟩, fun _ _ => rfl, rfl, rfl, rfl, rfl, rfl, fun flag => by
    cases flag
    · exact hpop
    · exact hput⟩

theorem quiet_refl : Quiet chain g g :=
  quiet_fields g.putIndex g.popIndex g.futex g.asleep g.log (Nat.le_refl _) (Nat.le_refl _)

theorem Quiet.trans {g'' : Shared nr V} (h : Quiet chain g g') (h' : Quiet chain g' g'') :
    Quiet chain g g'' :=
  ⟨fun p => ⟨(h'.node p).1.trans (h.node p).1, (h'.node p).2.trans (h.node p).2⟩,
    fun p hp => (h'.unlinked p hp).trans (h.unlinked p hp), h'.used.trans h.used,
    h'.freed.trans h.freed, h'.initNode.trans h.initNode, h'.initId.trans h.initId,
    h'.handle.trans h.handle, fun flag => (h.index flag).trans (h'.index flag)⟩

theorem quiet_setCell {c i : ℕ} {w : Word nr V} (hc : c ∈ chain) :
    Quiet chain g (g.setCell Q c i w) := by
  refine ⟨fun p => ?_, fun p hp => ?_, rfl, rfl, rfl, rfl, rfl, fun _ => Nat.le_refl _⟩
  · by_cases hpc : p = c
    · subst hpc
      simp [Shared.setCell]
    · simp [Shared.setCell, Function.update_of_ne hpc]
  · have hpc : p ≠ c := fun h => hp (h ▸ hc)
    simp [Shared.setCell, Function.update_of_ne hpc]

theorem memory_quiet (hq : Quiet chain g g') (hm : Memory Q chain base g) :
    Memory Q chain base g' where
  nodup := hm.nodup
  lt_used := by simpa only [hq.used] using hm.lt_used
  unlinked p hp := by
    rw [(hq.node p).2, hq.unlinked p hp]
    exact hm.unlinked p hp
  node k p hp hk := by
    rw [(hq.node p).1, (hq.node p).2]
    exact hm.node k p hp (by rwa [hq.freed] at hk)
  freed := by simpa only [hq.freed] using hm.freed
  freed_nodup := by simpa only [hq.freed] using hm.freed_nodup
  initNode := by simpa only [hq.initNode] using hm.initNode
  initId := by simpa only [hq.initId] using hm.initId
  handle flag t ht := by
    rw [hq.handle]
    exact (hm.handle flag t ht).mono (.refl chain) (Nat.le_refl _)
      (Nat.div_le_div_right (hq.index flag))
  spare := by simpa only [hq.handle, hq.used] using hm.spare
  spare_inj := by simpa only [hq.handle] using hm.spare_inj

theorem rely_quiet {v : Fin nr} {pc : Pc nr V} (hq : Quiet chain g g') :
    Rely Q chain chain base base g g' v pc where
  extend := .refl chain
  base_le := Nat.le_refl _
  locked _ := rfl
  own := by rw [hq.handle]
  spare tmp _ := (hq.node tmp).1
  index := hq.index
  handle flag t m h := by rwa [hq.handle]
  freed k p _ h := by rwa [hq.freed]

end LinuxSummer.Mpmc
