import LinuxSummer.Linearize
import LinuxSummer.MpmcCalls
import Mathlib.Data.List.Basic

/-! The queue of hw3/mpmc.c is linearizable: what the producers and the consumers see of it, they
could see of a list of values to which each enqueue appends at once and from which each dequeue
takes the first, as soon as there is one. -/
namespace LinuxSummer.Mpmc
open AtomicObject

variable {nr : ℕ} {V : Type} {Q : Setup nr} {g g' : Shared nr V} {pc pc' : Pc nr V}
  {s : Config (Fin nr) (Shared nr V) (Pc nr V)} {u x : Fin nr} {i : ℕ}
  {hist : List (Event (Fin nr) (Op V) (Option (Word nr V)))}

deriving instance DecidableEq for Op

/-- The queue as an object that threads share. -/
def fifo (nr : ℕ) (V : Type) : AtomicObject (List V) (Op V) (Option (Word nr V)) where
  init := []
  effect xs op r xs' :=
    match op with
    | .enqueue v => r = none ∧ xs' = xs ++ [v]
    | .dequeue => ∃ v, r = some (.val v) ∧ xs = v :: xs'

/-- What a call returns in its last access: nothing, or what the dequeue of an index returns. -/
def answer (Q : Setup nr) (u : Fin nr) (g : Shared nr V) (junk : Node nr V) (pc : Pc nr V) :
    Option (Option (Word nr V)) :=
  match run Q u g junk pc with
  | some (g', .idle) => some ((stage pc).taken.bind g'.log.dequeued)
  | _ => none

/-- The calls and returns that a step shows. -/
def observe (Q : Setup nr) (s : Config (Fin nr) (Shared nr V) (Pc nr V))
    (a : Fin nr × Act nr V) : List (Event (Fin nr) (Op V) (Option (Word nr V))) :=
  match a.2 with
  | .enqueue v => [.call a.1 (.enqueue v)]
  | .dequeue => [.call a.1 .dequeue]
  | .run junk => (answer Q a.1 s.shared junk (s.thread a.1)).toList.map (.ret a.1)
  | .spurious => []

/-! ### The queue behind the indices -/

/-- The values of the indices that no dequeue has obtained. -/
def Shared.values (g : Shared nr V) : List V :=
  (List.range' g.popIndex (g.putIndex - g.popIndex)).filterMap fun i =>
    (g.log.enqueue i).map Prod.snd

theorem values_congr (h : SameIndices g g') : g'.values = g.values := by
  rw [Shared.values, Shared.values, h.put, h.pop, h.enqueue]

theorem values_nil (h : g.putIndex ≤ g.popIndex) : g.values = [] := by
  rw [Shared.values, Nat.sub_eq_zero_of_le h]
  rfl

/-- An enqueue appends its value, unless a dequeue has its index already. -/
theorem values_put {v : V} (h : g.popIndex ≤ g.putIndex) :
    (g.put u v).values = g.values ++ [v] := by
  have hlen : g.putIndex + 1 - g.popIndex = g.putIndex - g.popIndex + 1 := by omega
  have hlast : g.popIndex + 1 * (g.putIndex - g.popIndex) = g.putIndex := by omega
  simp only [Shared.values, Shared.put]
  rw [hlen, List.range'_concat, List.filterMap_append, hlast]
  congr 1
  · apply List.filterMap_congr
    intro i hi
    rw [List.mem_range'_1] at hi
    rw [Function.update_of_ne (by omega)]
  · rw [List.filterMap_cons, Function.update_self]
    rfl

/-- A dequeue takes the first value. -/
theorem values_pop {v : V} (h : g.popIndex < g.putIndex)
    (hv : g.log.enqueue g.popIndex = some (x, v)) : g.values = v :: (g.pop u).values := by
  obtain ⟨k, hk⟩ : ∃ k, g.putIndex - g.popIndex = k + 1 := ⟨g.putIndex - g.popIndex - 1, by omega⟩
  have hrest : g.putIndex - (g.popIndex + 1) = k := by omega
  simp only [Shared.values, Shared.pop]
  rw [hk, hrest, List.range'_succ, List.filterMap_cons, hv]
  rfl

/-! ### The calls in progress -/

/-- Where the queue is with the call of a thread. An enqueue takes effect as it obtains its index.
A dequeue takes effect when its index has both been handed out to it and to an enqueue. -/
def status (enqueue : ℕ → Option (Fin nr × V)) : Pc nr V → Status (Op V) (Option (Word nr V))
  | .idle => .idle
  | .fetch op => .called op
  | pc => (stage pc).taken.elim (.done none) fun i =>
    (enqueue i).elim (.called .dequeue) fun p => .done (some (.val p.2))

variable {enqueue enqueue' : ℕ → Option (Fin nr × V)}

theorem status_given (h : (stage pc).given = some i) : status enqueue pc = .done none := by
  have hnone : (stage pc).taken = none := by
    by_contra hne
    obtain ⟨k, hk⟩ := Option.ne_none_iff_exists'.mp hne
    exact taken_ne_given hk h
  cases pc with
  | idle => cases h
  | fetch op => cases op <;> cases h
  | _ => rw [status, hnone] <;> simp

theorem status_taken (h : (stage pc).taken = some i) : status enqueue pc =
    (enqueue i).elim (.called .dequeue) fun p => .done (some (.val p.2)) := by
  cases pc with
  | idle => cases h
  | fetch op => cases op <;> cases h
  | _ => rw [status, h] <;> simp

/-- The status changes with the index of the call only. -/
theorem status_congr (h : ∀ i, (stage pc).taken = some i → enqueue' i = enqueue i) :
    status enqueue' pc = status enqueue pc := by
  cases called pc with
  | idle => rfl
  | fetch op => rfl
  | given i hgiven => rw [status_given hgiven, status_given hgiven]
  | taken i htaken => rw [status_taken htaken, status_taken htaken, h i htaken]

/-- The calls in progress in a configuration. -/
def statusOf (s : Config (Fin nr) (Shared nr V) (Pc nr V)) (u : Fin nr) :
    Status (Op V) (Option (Word nr V)) :=
  status s.shared.log.enqueue (s.thread u)

/-- A history of the list of values. -/
def Explained (hist : List (Event (Fin nr) (Op V) (Option (Word nr V))))
    (s : Config (Fin nr) (Shared nr V) (Pc nr V)) : Prop :=
  (fifo nr V).History hist ⟨s.shared.values, statusOf s⟩

theorem statusOf_update (h : ∀ v, v ≠ x → ∀ i, (stage (s.thread v)).taken = some i →
      g'.log.enqueue i = s.shared.log.enqueue i)
    {st : Status (Op V) (Option (Word nr V))} (hst : status g'.log.enqueue pc' = st) :
    statusOf ⟨g', Function.update s.thread x pc'⟩ = Function.update (statusOf s) x st := by
  funext v
  rcases eq_or_ne v x with rfl | hv
  · simp only [statusOf, Function.update_self, hst]
  · simp only [statusOf, Function.update_of_ne hv]
    exact status_congr (h v hv)

/-- A step that the list does not see. -/
theorem Explained.silent (h : Explained hist s) (hvalues : g'.values = s.shared.values)
    (henq : ∀ v, v ≠ x → ∀ i, (stage (s.thread v)).taken = some i →
      g'.log.enqueue i = s.shared.log.enqueue i)
    (hst : status g'.log.enqueue pc' = statusOf s x) :
    Explained hist ⟨g', Function.update s.thread x pc'⟩ := by
  rw [Explained, statusOf_update henq hst, Function.update_eq_self, hvalues]
  exact h

/-- A dequeue that holds an index is the one that obtained it. -/
theorem dequeue_of_taken {cell : ℕ → Word nr V} {st : Stage nr V} (h : StageInv cell g u st)
    (ht : st.taken = some i) : g.log.dequeue i = some u := by
  cases st with
  | popping | waiting | reading | holding =>
    cases ht
    exact h.1
  | out | entered | pushing | waking => cases ht

/-- What the list knows of the indices of the dequeues. -/
structure Taken (s : Config (Fin nr) (Shared nr V) (Pc nr V)) : Prop where
  log : LogInv s.shared
  owner : ∀ v i, (stage (s.thread v)).taken = some i → s.shared.log.dequeue i = some v
  pending : Pending s

theorem taken_reachable (hr : (system V Q).Reachable System.free s) : Taken s := by
  obtain ⟨chain, base, -, hc⟩ := cells_reachable hr
  exact ⟨hc.log, fun v i => dequeue_of_taken (hc.thread v), pending_reachable hr⟩

theorem Taken.lt_pop (h : Taken s) {v : Fin nr} (ht : (stage (s.thread v)).taken = some i) :
    i < s.shared.popIndex := by
  apply (h.log.dequeue_lt i).mp
  rw [h.owner v i ht]
  exact Option.some_ne_none v

theorem Taken.enqueue_none (h : Taken s) (hi : s.shared.putIndex ≤ i) :
    s.shared.log.enqueue i = none := by
  by_contra hne
  have hlt := (h.log.enqueue_lt i).mp hne
  omega

theorem Taken.dequeued_none (h : Taken s) (hnone : s.shared.log.enqueue i = none) :
    s.shared.log.dequeued i = none := by
  cases hd : s.shared.log.dequeued i with
  | none => rfl
  | some w =>
    obtain ⟨v, hv, -⟩ := h.log.dequeued i w hd
    obtain ⟨t, ht⟩ := h.log.stored i v hv
    rw [hnone] at ht
    cases ht

/-! ### The steps -/

/-- `mpmc_enqueue` obtains its index: it takes effect, and so does the dequeue that has obtained
the same index, if there is one. -/
theorem explained_put {v : V} (ht : Taken s) (h : Explained hist s)
    (hpc : s.thread x = .fetch (.enqueue v)) :
    Explained hist ⟨s.shared.put x v,
      Function.update s.thread x (.start (.enqueue v) s.shared.putIndex)⟩ := by
  have hcalled : statusOf s x = .called (.enqueue v) := by
    rw [statusOf, hpc]
    rfl
  have heffect : (fifo nr V).effect s.shared.values (.enqueue v) none (s.shared.values ++ [v]) :=
    ⟨rfl, rfl⟩
  have hact := h.act x (.enqueue v) none (s.shared.values ++ [v]) hcalled heffect
  have hput : (s.shared.put x v).log.enqueue s.shared.putIndex = some (x, v) :=
    Function.update_self ..
  have hother (i : ℕ) (hi : i ≠ s.shared.putIndex) :
      (s.shared.put x v).log.enqueue i = s.shared.log.enqueue i := Function.update_of_ne hi ..
  have hdone : status (s.shared.put x v).log.enqueue (.start (.enqueue v) s.shared.putIndex) =
      .done none := status_given rfl
  rcases Nat.lt_or_ge s.shared.putIndex s.shared.popIndex with hlt | hle
  · have hnone := ht.enqueue_none (Nat.le_refl s.shared.putIndex)
    obtain ⟨t, hdeq⟩ := Option.ne_none_iff_exists'.mp ((ht.log.dequeue_lt _).mpr hlt)
    have htaken := ht.pending.dequeue _ t hdeq (ht.dequeued_none hnone)
    have htx : t ≠ x := by
      rintro rfl
      rw [hpc] at htaken
      cases htaken
    rw [values_nil hlt.le, List.nil_append] at hact
    have hwaits : Function.update (statusOf s) x (.done none) t = .called .dequeue := by
      rw [Function.update_of_ne htx, statusOf, status_taken htaken, hnone]
      rfl
    have htake : (fifo nr V).effect [v] .dequeue (some (.val v)) [] := ⟨v, rfl, rfl⟩
    have hboth := hact.act t .dequeue (some (.val v)) [] hwaits htake
    have hstatus : statusOf ⟨s.shared.put x v,
          Function.update s.thread x (.start (.enqueue v) s.shared.putIndex)⟩ =
        Function.update (Function.update (statusOf s) x (.done none)) t (.done (some (.val v))) := by
      funext w
      rcases eq_or_ne w t with rfl | hw
      · simp only [statusOf, Function.update_of_ne htx, Function.update_self]
        rw [status_taken htaken, hput]
        rfl
      rw [Function.update_of_ne hw]
      rcases eq_or_ne w x with rfl | hwx
      · simp only [statusOf, Function.update_self, hdone]
      · simp only [statusOf, Function.update_of_ne hwx]
        refine status_congr fun i hi => hother i fun heq => hw ?_
        -- the index is with one dequeue only
        have howner := ht.owner w i hi
        rw [heq, hdeq] at howner
        exact (Option.some.inj howner).symm
    have hempty : (s.shared.put x v).values = [] := values_nil hlt
    rw [Explained, hstatus, hempty]
    exact hboth
  · rw [Explained, statusOf_update (fun w hw i hi => hother i ?_) hdone, values_put hle]
    · exact hact
    · have hpop := ht.lt_pop hi
      omega

/-- `mpmc_dequeue` obtains its index: it takes effect if an enqueue has obtained the same index. -/
theorem explained_pop (ht : Taken s) (h : Explained hist s) (hpc : s.thread x = .fetch .dequeue) :
    Explained hist ⟨s.shared.pop x,
      Function.update s.thread x (.start .dequeue s.shared.popIndex)⟩ := by
  have hcalled : statusOf s x = .called .dequeue := by
    rw [statusOf, hpc]
    rfl
  have htaken : (stage (.start .dequeue s.shared.popIndex : Pc nr V)).taken =
      some s.shared.popIndex := rfl
  rcases Nat.lt_or_ge s.shared.popIndex s.shared.putIndex with hlt | hle
  · obtain ⟨⟨t, v⟩, henq⟩ := Option.ne_none_iff_exists'.mp ((ht.log.enqueue_lt _).mpr hlt)
    have hvalues : s.shared.values = v :: (s.shared.pop x).values := values_pop hlt henq
    have heffect : (fifo nr V).effect s.shared.values .dequeue (some (.val v))
        (s.shared.pop x).values := ⟨v, rfl, hvalues⟩
    have hdone : status (s.shared.pop x).log.enqueue (.start .dequeue s.shared.popIndex) =
        .done (some (.val v)) := by
      rw [status_taken htaken]
      change (s.shared.log.enqueue s.shared.popIndex).elim _ _ = _
      rw [henq]
      rfl
    have hother : ∀ w, w ≠ x → ∀ i, (stage (s.thread w)).taken = some i →
        (s.shared.pop x).log.enqueue i = s.shared.log.enqueue i := fun _ _ _ _ => rfl
    rw [Explained, statusOf_update hother hdone]
    exact h.act x .dequeue (some (.val v)) _ hcalled heffect
  · refine h.silent ?_ (fun _ _ _ _ => rfl) ?_
    · have hempty : (s.shared.pop x).values = [] := values_nil (Nat.le_succ_of_le hle)
      rw [hempty, values_nil hle]
    · rw [hcalled, status_taken htaken]
      change (s.shared.log.enqueue s.shared.popIndex).elim _ _ = _
      rw [ht.enqueue_none hle]
      rfl

/-- What an access shows. -/
def returns (x : Fin nr) (g' : Shared nr V) (pc pc' : Pc nr V) :
    List (Event (Fin nr) (Op V) (Option (Word nr V))) :=
  match pc' with
  | .idle => [.ret x ((stage pc).taken.bind g'.log.dequeued)]
  | _ => []

theorem observe_run {junk : Node nr V} (hn : run Q x s.shared junk (s.thread x) = some (g', pc')) :
    observe Q s (x, .run junk) = returns x g' (s.thread x) pc' := by
  simp only [observe, answer, hn]
  cases pc' <;> rfl

theorem returns_nil (h : (∃ i, (stage pc').given = some i) ∨ ∃ i, (stage pc').taken = some i) :
    returns x g' pc pc' = [] := by
  cases pc' with
  | idle => rcases h with ⟨i, hi⟩ | ⟨i, hi⟩ <;> cases hi
  | _ => rfl

/-- A call with an index goes on, or returns what the list has given to it. -/
theorem explained_turn (h : Explained hist s) (hlog : LogInv g')
    (hbusy : (∃ i, (stage (s.thread x)).given = some i) ∨ ∃ i, (stage (s.thread x)).taken = some i)
    (hsame : SameIndices s.shared g') (hturn : Turn s.shared g' (s.thread x) pc') :
    Explained (hist ++ returns x g' (s.thread x) pc') ⟨g', Function.update s.thread x pc'⟩ := by
  have hother : ∀ w, w ≠ x → ∀ i, (stage (s.thread w)).taken = some i →
      g'.log.enqueue i = s.shared.log.enqueue i := fun _ _ i _ => by rw [hsame.enqueue]
  -- the call returns
  have ret {r : Option (Word nr V)} (hdone : statusOf s x = .done r) :
      Explained (hist ++ [.ret x r]) ⟨g', Function.update s.thread x .idle⟩ := by
    have hidle : status g'.log.enqueue (.idle : Pc nr V) = .idle := rfl
    rw [Explained, statusOf_update hother hidle, values_congr hsame]
    exact h.ret x r hdone
  generalize hpc : s.thread x = pc at hturn hbusy
  cases hturn with
  | goes hgiven htaken =>
    rw [returns_nil (by rwa [hgiven, htaken]), List.append_nil]
    refine h.silent (values_congr hsame) hother ?_
    rw [hsame.enqueue, statusOf, hpc]
    rcases hbusy with ⟨i, hi⟩ | ⟨i, hi⟩
    · rw [status_given hi, status_given (hgiven.trans hi)]
    · rw [status_taken hi, status_taken (htaken.trans hi)]
  | enqueued i hgiven =>
    have hnone : (stage pc).taken = none := by
      by_contra hne
      obtain ⟨k, hk⟩ := Option.ne_none_iff_exists'.mp hne
      exact taken_ne_given hk hgiven
    rw [returns, hnone]
    apply ret
    rw [statusOf, hpc, status_given hgiven]
    rfl
  | dequeued i cv htaken _ hdequeued =>
    have hcv : g'.log.dequeued i = some cv := by rw [hdequeued, Function.update_self]
    obtain ⟨v, hstored, rfl⟩ := hlog.dequeued i cv hcv
    obtain ⟨t, henq⟩ := hlog.stored i v hstored
    rw [returns, htaken]
    apply ret
    rw [statusOf, hpc, status_taken htaken, ← hsame.enqueue, henq, Option.bind_some, hcv]
    rfl

/-- A step shows the call that it begins, or what the next access of a call returns. -/
theorem explained_step {a : Act nr V} (ht : Taken s) (hlog : LogInv g') (h : Explained hist s)
    (hn : next Q x s.shared (s.thread x) a = some (g', pc')) :
    Explained (hist ++ observe Q s (x, a)) ⟨g', Function.update s.thread x pc'⟩ := by
  -- an idle thread enters a call
  have enter {op : Op V} {g' : Shared nr V} (hidle : s.thread x = .idle)
      (hlog : g'.log = s.shared.log) (hvalues : g'.values = s.shared.values) :
      Explained (hist ++ [.call x op]) ⟨g', Function.update s.thread x (.fetch op)⟩ := by
    have hstatus : statusOf s x = .idle := by
      rw [statusOf, hidle]
      rfl
    have hcalled : status g'.log.enqueue (.fetch op) = .called op := rfl
    rw [Explained, statusOf_update (fun _ _ _ _ => by rw [hlog]) hcalled, hvalues]
    exact h.call x op hstatus
  generalize hpc : s.thread x = pc at hn
  cases a with
  | run junk =>
    rw [next_run] at hn
    rw [observe_run (hpc ▸ hn)]
    cases called pc with
    | idle => cases hn
    | fetch op =>
      rw [run_fetch] at hn
      cases op with
      | enqueue v =>
        cases hn
        rw [returns_nil (.inl ⟨_, rfl⟩), List.append_nil]
        exact explained_put ht h hpc
      | dequeue =>
        cases hn
        rw [returns_nil (.inr ⟨_, rfl⟩), List.append_nil]
        exact explained_pop ht h hpc
    | given i hgiven hnone =>
      obtain ⟨hsame, hturn⟩ := run_turn (by rintro op rfl; cases op <;> cases hgiven) hn
      exact explained_turn h hlog (.inl ⟨i, hpc ▸ hgiven⟩) hsame (hpc ▸ hturn)
    | taken i htaken hnone =>
      obtain ⟨hsame, hturn⟩ := run_turn (by rintro op rfl; cases op <;> cases htaken) hn
      exact explained_turn h hlog (.inr ⟨i, hpc ▸ htaken⟩) hsame (hpc ▸ hturn)
  | enqueue v =>
    cases pc <;> simp only [next] at hn
    case idle =>
      split at hn <;> cases hn
      exact enter hpc rfl rfl
    all_goals cases hn
  | dequeue =>
    cases pc <;> simp only [next] at hn
    case idle =>
      split at hn <;> cases hn
      exact enter hpc rfl rfl
    all_goals cases hn
  | spurious =>
    cases pc <;> simp only [next] at hn
    case sleep i c =>
      cases hn
      have htaken : (stage (s.thread x)).taken = some i := by rw [hpc]; rfl
      have hgiven : (stage (s.thread x)).given = none := by rw [hpc]; rfl
      have hwoken (g' : Shared nr V) (hg : g'.log = s.shared.log) :
          Turn s.shared g' (s.thread x) (.check i c) :=
        .goes hgiven.symm htaken.symm (by rw [hg]) (by rw [hg])
      exact explained_turn h hlog (.inr ⟨i, htaken⟩) ⟨rfl, rfl, rfl, rfl⟩ (hwoken _ rfl)
    all_goals cases hn

/-- What the threads see of the queue, for any numbers of producers and consumers, any size of the
nodes and any interleaving, they could see of a list whose calls take effect at once. -/
theorem fifo_linearizable (hr : (system V Q).Trace System.free (observe Q) hist s) :
    (fifo nr V).History hist ⟨s.shared.values, statusOf s⟩ := by
  refine hr.invariant (P := Explained) ?_ ?_
  · rintro s rfl
    exact .start
  · rintro hist s ⟨x, a⟩ s' hreach h _ hn
    have ht' := taken_reachable (System.reachable_step hreach trivial hn)
    obtain ⟨g', pc', hnext, rfl⟩ := Threads.step_cases hn
    exact explained_step (taken_reachable hreach) ht'.log h hnext

/-- The consumer sleeps until the producer has enqueued the value. -/
theorem fifo_linearizable_sleep : ∃ q : State (Fin 2) (List ℕ) (Op ℕ) (Option (Word 2 ℕ)),
    (fifo 2 ℕ).History [.call 1 .dequeue, .call 0 (.enqueue 7), .ret 0 none,
      .ret 1 (some (.val 7))] q := by
  let Q : Setup 2 := ⟨1, 0, 1, [0], [1]⟩
  have hrun : ((system ℕ Q).exec (fun _ _ => true) (start 2 ℕ) (sleepSchedule 0 1)).isSome =
      true := by
    decide
  have hevents : (system ℕ Q).record (observe Q) (start 2 ℕ) (sleepSchedule 0 1) =
      [.call 1 .dequeue, .call 0 (.enqueue 7), .ret 0 none, .ret 1 (some (.val 7))] := by
    decide
  obtain ⟨s, hs⟩ := Option.isSome_iff_exists.mp hrun
  have hinit : (system ℕ Q).Trace System.free (observe Q) [] (start 2 ℕ) := .init rfl
  have htrace := hinit.of_exec (fun _ _ _ => trivial) hs
  rw [List.nil_append, hevents] at htrace
  exact ⟨_, fifo_linearizable htrace⟩

end LinuxSummer.Mpmc
