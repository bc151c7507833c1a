import Mathlib.Data.List.Chain
import Mathlib.Data.List.Nodup

/-! Circular lists in a heap whose cells point to the next and to the previous one: when a heap holds
the ring of a head and its entries, and how a ring changes under pointer writes. -/
namespace LinuxSummer.CircularList
set_option linter.unusedSectionVars false

/-- The pointers of a cell. -/
structure Cell (A : Type*) where
  next : A
  prev : A
deriving DecidableEq

section Defs
variable {A : Type*} (h : A → Option (Cell A))

def nextOf (a : A) : Option A := (h a).map Cell.next

def prevOf (a : A) : Option A := (h a).map Cell.prev

/-- `b` comes after `a`, in both directions. -/
def Linked (a b : A) : Prop := nextOf h a = some b ∧ prevOf h b = some a

/-- From the head through its entries, and around to the head again. -/
structure Ring (head : A) (l : List A) : Prop where
  nodup : (head :: l).Nodup
  linked : (head :: (l ++ [head])).IsChain (Linked h)

end Defs

variable {A : Type*} [DecidableEq A] {h h' : A → Option (Cell A)} {a b e n p x : A}
  {l l' l₁ l₂ s t w : List A}

/-- A walk stays linked when no pointer on it changes. -/
theorem chain_frame (hc : w.IsChain (Linked h)) (hnext : ∀ c ∈ w.dropLast, nextOf h' c = nextOf h c)
    (hprev : ∀ c ∈ w.tail, prevOf h' c = prevOf h c) : w.IsChain (Linked h') := by
  induction hc with
  | nil => exact .nil
  | singleton c => exact .singleton c
  | @cons_cons c d w hcd _ ih =>
    refine .cons_cons ⟨?_, ?_⟩ (ih (fun c' hc' => hnext c' ?_) fun d' hd' => hprev d' ?_)
    · rw [hnext c (by simp), hcd.1]
    · rw [hprev d (by simp), hcd.2]
    · exact List.mem_cons_of_mem c hc'
    · exact List.mem_cons_of_mem d hd'

theorem Ring.congr (hr : Ring h a l)
    (heq : ∀ c ∈ a :: l, nextOf h' c = nextOf h c ∧ prevOf h' c = prevOf h c) : Ring h' a l := by
  refine ⟨hr.nodup, chain_frame hr.linked (fun c hc => (heq c ?_).1) fun c hc => (heq c ?_).2⟩
  · have hdrop : (a :: (l ++ [a])).dropLast = a :: l := by
      rw [← List.cons_append, List.dropLast_concat]
    rwa [hdrop] at hc
  · rw [List.tail_cons, List.mem_append, List.mem_singleton] at hc
    exact List.mem_cons.mpr hc.symm

/-- The two ends of a walk of which neither the starts nor the ends repeat. -/
structure Cut (s : List A) (p n : A) (t : List A) : Prop where
  before : p ∉ s
  after : p ∉ (n :: t).dropLast
  tail : n ∉ (s ++ [p]).tail
  rest : n ∉ t

/-- A ring is cut between two cells that follow each other. -/
theorem Ring.cut (hr : Ring h a l) (hw : a :: (l ++ [a]) = s ++ p :: n :: t) : Cut s p n t := by
  have hdrop : (a :: l) = s ++ p :: (n :: t).dropLast := by
    calc a :: l = (a :: (l ++ [a])).dropLast := by rw [← List.cons_append, List.dropLast_concat]
      _ = (s ++ p :: n :: t).dropLast := by rw [hw]
      _ = s ++ p :: (n :: t).dropLast := by
        rw [List.dropLast_append_of_ne_nil (List.cons_ne_nil _ _)]
        rfl
  have htail : l ++ [a] = (s ++ [p]).tail ++ n :: t := by
    calc l ++ [a] = (a :: (l ++ [a])).tail := rfl
      _ = (s ++ [p] ++ n :: t).tail := by rw [hw, List.append_assoc]; rfl
      _ = (s ++ [p]).tail ++ n :: t := by
        rw [List.tail_append_of_ne_nil (by simp)]
  have hstarts := hr.nodup
  have hends : (l ++ [a]).Nodup := (List.perm_append_singleton a l).symm.nodup hr.nodup
  rw [hdrop] at hstarts
  rw [htail] at hends
  have hs := List.nodup_append.mp hstarts
  have ht := List.nodup_append.mp hends
  refine ⟨fun hp => hs.2.2 p hp p List.mem_cons_self rfl, (List.nodup_cons.mp hs.2.1).1,
    fun hn => ht.2.2 n hn n List.mem_cons_self rfl, (List.nodup_cons.mp ht.2.1).1⟩

/-- The walks before and behind the cut stay linked when the next pointer changes at its one end and
the previous pointer at its other end only. -/
theorem Cut.frame (hcut : Cut s p n t) (hleft : (s ++ [p]).IsChain (Linked h))
    (hright : (n :: t).IsChain (Linked h))
    (hnext : ∀ c ∈ s ++ p :: n :: t, c ≠ p → nextOf h' c = nextOf h c)
    (hprev : ∀ c ∈ s ++ p :: n :: t, c ≠ n → prevOf h' c = prevOf h c) :
    (s ++ [p]).IsChain (Linked h') ∧ (n :: t).IsChain (Linked h') := by
  constructor
  · refine chain_frame hleft (fun c hc => hnext c ?_ ?_) fun c hc => hprev c ?_ ?_
    · rw [List.dropLast_concat] at hc
      exact List.mem_append_left _ hc
    · rintro rfl
      rw [List.dropLast_concat] at hc
      exact hcut.before hc
    · have hmem := List.mem_of_mem_tail hc
      simp only [List.mem_append, List.mem_cons, List.not_mem_nil, or_false] at hmem ⊢
      exact hmem.imp_right .inl
    · rintro rfl
      exact hcut.tail hc
  · refine chain_frame hright (fun c hc => hnext c ?_ ?_) fun c hc => hprev c ?_ ?_
    · exact List.mem_append_right _ (List.mem_cons_of_mem _ (List.dropLast_subset _ hc))
    · rintro rfl
      exact hcut.after hc
    · exact List.mem_append_right _ (List.mem_cons_of_mem _ (List.mem_of_mem_tail hc))
    · rintro rfl
      exact hcut.rest hc

/-- A new cell between two cells that follow each other. -/
theorem chain_insert (hcut : Cut s p n t) (hc : (s ++ p :: n :: t).IsChain (Linked h))
    (hx : x ∉ s ++ p :: n :: t)
    (hnext : nextOf h' = Function.update (Function.update (nextOf h) x (some n)) p (some x))
    (hprev : prevOf h' = Function.update (Function.update (prevOf h) n (some x)) x (some p)) :
    (s ++ p :: x :: n :: t).IsChain (Linked h') := by
  obtain ⟨hleft, -, hright⟩ := List.isChain_append_cons_cons.mp hc
  have hne {c : A} (hc : c ∈ s ++ p :: n :: t) : c ≠ x := fun heq => hx (heq ▸ hc)
  have hxp : x ≠ p := (hne (by simp)).symm
  have hxn : n ≠ x := hne (by simp)
  have hparts := hcut.frame hleft hright
    (fun c hc hcp => by rw [hnext, Function.update_of_ne hcp, Function.update_of_ne (hne hc)])
    fun c hc hcn => by rw [hprev, Function.update_of_ne (hne hc), Function.update_of_ne hcn]
  rw [List.isChain_append_cons_cons, List.isChain_cons_cons]
  refine ⟨hparts.1, ⟨?_, ?_⟩, ⟨?_, ?_⟩, hparts.2⟩
  · rw [hnext, Function.update_self]
  · rw [hprev, Function.update_self]
  · rw [hnext, Function.update_of_ne hxp, Function.update_self]
  · rw [hprev, Function.update_of_ne hxn, Function.update_self]

/-- A cell is taken out. -/
theorem chain_remove (hcut : Cut s p n t) (hc : (s ++ p :: e :: n :: t).IsChain (Linked h))
    (hnext : nextOf h' = Function.update (nextOf h) p (some n))
    (hprev : prevOf h' = Function.update (prevOf h) n (some p)) :
    (s ++ p :: n :: t).IsChain (Linked h') := by
  obtain ⟨hleft, -, hrest⟩ := List.isChain_append_cons_cons.mp hc
  have hparts := hcut.frame hleft (List.isChain_cons_cons.mp hrest).2
    (fun c _ hcp => by rw [hnext, Function.update_of_ne hcp])
    fun c _ hcn => by rw [hprev, Function.update_of_ne hcn]
  rw [List.isChain_append_cons_cons]
  refine ⟨hparts.1, ⟨?_, ?_⟩, hparts.2⟩
  · rw [hnext, Function.update_self]
  · rw [hprev, Function.update_self]

/-! ### The ends of a ring -/

theorem exists_last (a : A) (l : List A) : ∃ s p, a :: l = s ++ [p] :=
  ⟨_, _, (List.dropLast_append_getLast (List.cons_ne_nil a l)).symm⟩

theorem exists_first (a : A) (l : List A) : ∃ n t, l ++ [a] = n :: t := by
  cases l with
  | nil => exact ⟨a, [], rfl⟩
  | cons b l => exact ⟨b, l ++ [a], rfl⟩

theorem first_mem (hn : l ++ [a] = n :: t) : n ∈ a :: l := by
  have hmem : n ∈ l ++ [a] := hn ▸ List.mem_cons_self
  exact (List.perm_append_singleton a l).mem_iff.mp hmem

/-- Every cell of a ring has one behind it. -/
theorem Ring.next (hr : Ring h a l) (hb : b ∈ a :: l) : ∃ c, nextOf h b = some c := by
  obtain ⟨s, t, hst⟩ := List.append_of_mem hb
  obtain ⟨n, t', ht⟩ := exists_first a t
  have hlinked := hr.linked
  rw [← List.cons_append, hst, List.append_assoc, List.cons_append, ht,
    List.isChain_append_cons_cons] at hlinked
  exact ⟨n, hlinked.2.1.1⟩

theorem Ring.live (hr : Ring h a l) (hb : b ∈ a :: l) : (h b).isSome := by
  obtain ⟨c, hc⟩ := hr.next hb
  obtain ⟨k, hk, -⟩ := Option.map_eq_some_iff.mp hc
  rw [hk]
  rfl

/-- The head points to the first entry. -/
theorem Ring.first (hr : Ring h a l) (hn : l ++ [a] = n :: t) : nextOf h a = some n := by
  have hlinked := hr.linked
  rw [hn, List.isChain_cons_cons] at hlinked
  exact hlinked.1.1

/-- The head points back to the last entry. -/
theorem Ring.last (hr : Ring h a l) (hp : a :: l = s ++ [p]) : prevOf h a = some p := by
  have hlinked := hr.linked
  rw [← List.cons_append, hp, List.append_assoc, List.singleton_append,
    List.isChain_append_cons_cons] at hlinked
  exact hlinked.2.1.2

theorem ring_nil (hnext : nextOf h a = some a) (hprev : prevOf h a = some a) : Ring h a [] :=
  ⟨List.nodup_singleton a, List.isChain_pair.mpr ⟨hnext, hprev⟩⟩

theorem not_mem_closed (hx : x ∉ a :: l) : x ∉ a :: (l ++ [a]) := by
  rw [List.mem_cons, not_or] at hx
  simp [hx.1, hx.2]

/-! ### Entries come and go -/

/-- A new entry behind the head. -/
theorem Ring.insert_first (hr : Ring h a l) (hx : x ∉ a :: l) (hn : l ++ [a] = n :: t)
    (hnext : nextOf h' = Function.update (Function.update (nextOf h) x (some n)) a (some x))
    (hprev : prevOf h' = Function.update (Function.update (prevOf h) n (some x)) x (some a)) :
    Ring h' a (x :: l) := by
  have hcut : Cut [] a n t := hr.cut (by rw [hn]; rfl)
  have hlinked := hr.linked
  rw [hn] at hlinked
  have hx' : x ∉ ([] : List A) ++ a :: n :: t := by
    rw [List.nil_append, ← hn]
    exact not_mem_closed hx
  have hchain := chain_insert hcut hlinked hx' hnext hprev
  refine ⟨?_, ?_⟩
  · have hperm : (x :: a :: l).Perm (a :: x :: l) := .swap ..
    exact hperm.nodup (List.nodup_cons.mpr ⟨hx, hr.nodup⟩)
  · rw [List.cons_append, hn]
    exact hchain

/-- A new entry at the end. -/
theorem Ring.insert_last (hr : Ring h a l) (hx : x ∉ a :: l) (hp : a :: l = s ++ [p])
    (hnext : nextOf h' = Function.update (Function.update (nextOf h) x (some a)) p (some x))
    (hprev : prevOf h' = Function.update (Function.update (prevOf h) a (some x)) x (some p)) :
    Ring h' a (l ++ [x]) := by
  have hw : a :: (l ++ [a]) = s ++ p :: a :: [] := by
    rw [← List.cons_append, hp, List.append_assoc]
    rfl
  have hlinked := hr.linked
  rw [hw] at hlinked
  have hx' : x ∉ s ++ p :: a :: [] := hw ▸ not_mem_closed hx
  have hchain := chain_insert (hr.cut hw) hlinked hx' hnext hprev
  refine ⟨?_, ?_⟩
  · rw [← List.cons_append]
    exact (List.perm_append_singleton x (a :: l)).symm.nodup (List.nodup_cons.mpr ⟨hx, hr.nodup⟩)
  · have hend : a :: (l ++ [x] ++ [a]) = s ++ p :: x :: a :: [] := by
      calc a :: (l ++ [x] ++ [a]) = a :: l ++ [x, a] := by simp
        _ = s ++ p :: x :: a :: [] := by rw [hp, List.append_assoc]; rfl
    rw [hend]
    exact hchain

/-- An entry between its neighbours. -/
theorem Ring.neighbours (hr : Ring h a (l₁ ++ e :: l₂)) (hp : a :: l₁ = s ++ [p])
    (hn : l₂ ++ [a] = n :: t) : prevOf h e = some p ∧ nextOf h e = some n := by
  have hlinked := hr.linked
  have hw : a :: (l₁ ++ e :: l₂ ++ [a]) = s ++ p :: e :: n :: t := by
    rw [List.append_assoc, List.cons_append, hn, ← List.cons_append, hp, List.append_assoc]
    rfl
  rw [hw] at hlinked
  obtain ⟨-, hpe, hrest⟩ := List.isChain_append_cons_cons.mp hlinked
  exact ⟨hpe.2, (List.isChain_cons_cons.mp hrest).1.1⟩

/-- An entry is taken out. -/
theorem Ring.remove (hr : Ring h a (l₁ ++ e :: l₂)) (hp : a :: l₁ = s ++ [p])
    (hn : l₂ ++ [a] = n :: t) (hnext : nextOf h' = Function.update (nextOf h) p (some n))
    (hprev : prevOf h' = Function.update (prevOf h) n (some p)) : Ring h' a (l₁ ++ l₂) := by
  have hw : a :: (l₁ ++ e :: l₂ ++ [a]) = s ++ p :: e :: n :: t := by
    rw [List.append_assoc, List.cons_append, hn, ← List.cons_append, hp, List.append_assoc]
    rfl
  have hbefore : Cut s p e (n :: t) := hr.cut hw
  have hbehind : Cut (s ++ [p]) e n t := hr.cut (by rw [hw, List.append_assoc]; rfl)
  have hcut : Cut s p n t := by
    refine ⟨hbefore.before, fun hmem => hbefore.after (List.mem_cons_of_mem e hmem),
      fun hmem => hbehind.tail ?_, hbehind.rest⟩
    rw [List.tail_append_of_ne_nil (by simp)]
    exact List.mem_append_left _ hmem
  have hlinked := hr.linked
  rw [hw] at hlinked
  refine ⟨hr.nodup.sublist ?_, ?_⟩
  · exact ((List.sublist_cons_self e l₂).append_left l₁).cons_cons a
  · have hend : a :: (l₁ ++ l₂ ++ [a]) = s ++ p :: n :: t := by
      rw [List.append_assoc, hn, ← List.cons_append, hp, List.append_assoc]
      rfl
    rw [hend]
    exact chain_remove hcut hlinked hnext hprev

/-- The entries of one ring go to the end of another one. -/
theorem Ring.splice {f q : A} {m m' r : List A} (hr : Ring h a l) (hm : Ring h b m)
    (hdisj : List.Disjoint (a :: l) (b :: m)) (hp : a :: l = s ++ [p]) (hf : m = f :: m')
    (hq : m = r ++ [q])
    (hnext : nextOf h' = Function.update (Function.update (nextOf h) q (some a)) p (some f))
    (hprev : prevOf h' = Function.update (Function.update (prevOf h) a (some q)) f (some p)) :
    Ring h' a (l ++ m) := by
  have hfm : f ∈ m := hf ▸ List.mem_cons_self
  have hqm : q ∈ m := hq ▸ List.mem_concat_self
  have hpl : p ∈ a :: l := hp ▸ List.mem_concat_self
  have hal : a ∈ a :: l := List.mem_cons_self
  -- what is in the one ring is not in the other one
  have hne {c d : A} (hc : c ∈ a :: l) (hd : d ∈ m) : c ≠ d := by
    rintro rfl
    exact hdisj hc (List.mem_cons_of_mem b hd)
  have hps : p ∉ s := by
    have hnodup := hr.nodup
    rw [hp] at hnodup
    exact fun hmem => List.disjoint_of_nodup_append hnodup hmem List.mem_cons_self
  have hmnodup : m.Nodup := (List.nodup_cons.mp hm.nodup).2
  have hqr : q ∉ r := by
    rw [hq] at hmnodup
    exact fun hmem => List.disjoint_of_nodup_append hmnodup hmem List.mem_cons_self
  have hleft : (a :: l).IsChain (Linked h') := by
    have hlinked := hr.linked
    rw [← List.cons_append] at hlinked
    refine chain_frame (List.isChain_append.mp hlinked).1 (fun c hc => ?_) fun c hc => ?_
    · rw [hp, List.dropLast_concat] at hc
      have hcl : c ∈ a :: l := hp ▸ List.mem_append_left _ hc
      have hcp : c ≠ p := fun heq => hps (heq ▸ hc)
      rw [hnext, Function.update_of_ne hcp, Function.update_of_ne (hne hcl hqm)]
    · have hcl : c ∈ a :: l := List.mem_cons_of_mem a hc
      have hca : c ≠ a := fun heq => (List.nodup_cons.mp hr.nodup).1 (heq ▸ hc)
      rw [hprev, Function.update_of_ne (hne hcl hfm), Function.update_of_ne hca]
  have hright : m.IsChain (Linked h') := by
    have hlinked := (List.isChain_append.mp hm.linked.tail).1
    refine chain_frame hlinked (fun c hc => ?_) fun c hc => ?_
    · rw [hq, List.dropLast_concat] at hc
      have hcm : c ∈ m := hq ▸ List.mem_append_left _ hc
      have hcq : c ≠ q := fun heq => hqr (heq ▸ hc)
      rw [hnext, Function.update_of_ne (hne hpl hcm).symm, Function.update_of_ne hcq]
    · have hcf : c ≠ f := by
        rintro rfl
        rw [hf] at hmnodup hc
        exact (List.nodup_cons.mp hmnodup).1 hc
      rw [hprev, Function.update_of_ne hcf,
        Function.update_of_ne (hne hal (List.mem_of_mem_tail hc)).symm]
  refine ⟨?_, ?_⟩
  · rw [← List.cons_append]
    exact hr.nodup.append hmnodup fun c hc hd => hdisj hc (List.mem_cons_of_mem b hd)
  · rw [List.append_assoc, ← List.cons_append, List.isChain_append, List.isChain_append]
    refine ⟨hleft, ⟨hright, .singleton a, ?_⟩, ?_⟩
    · intro c hc d hd
      rw [hq, List.getLast?_concat] at hc
      cases hc
      cases hd
      exact ⟨by rw [hnext, Function.update_of_ne (hne hpl hqm).symm, Function.update_self],
        by rw [hprev, Function.update_of_ne (hne hal hfm), Function.update_self]⟩
    · intro c hc d hd
      rw [hp, List.getLast?_concat] at hc
      rw [hf] at hd
      cases hc
      cases hd
      exact ⟨by rw [hnext, Function.update_self], by rw [hprev, Function.update_self]⟩

end LinuxSummer.CircularList
