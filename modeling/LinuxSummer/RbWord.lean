import LinuxSummer.RbModel

/-! The word `__rb_parent_color` of rbtree.h: the parent pointer of a node, whose two low bits are
zero, plus the color in the lowest bit. It holds what the two fields of the model hold. -/
namespace LinuxSummer.Rbtree

def RB_RED : BitVec 64 := 0
def RB_BLACK : BitVec 64 := 1

/-- `__rb_parent` -/
def wordParent (pc : BitVec 64) : BitVec 64 := pc &&& ~~~3

/-- `__rb_color` -/
def wordColor (pc : BitVec 64) : BitVec 64 := pc &&& 1

/-- `rb_set_parent` -/
def wordSetParent (pc p : BitVec 64) : BitVec 64 := wordColor pc + p

/-- `rb_set_parent_color` -/
def wordSetParentColor (p color : BitVec 64) : BitVec 64 := p + color

/-- `rb_set_black` -/
def wordSetBlack (pc : BitVec 64) : BitVec 64 := pc + RB_BLACK

def colorWord : Color → BitVec 64
  | .red => RB_RED
  | .black => RB_BLACK

/-- Where the nodes lie: no two in one place, none at NULL, and each at a multiple of 4. -/
structure Layout (A : Type) where
  addr : A → BitVec 64
  inj : ∀ a b, addr a = addr b → a = b
  nonnull : ∀ a, addr a ≠ 0
  aligned : ∀ a, addr a &&& 3 = 0

variable {A : Type} (l : Layout A)

def Layout.ptr : Option A → BitVec 64
  | none => 0
  | some a => l.addr a

/-- The word of a node with this parent and this color. -/
def Layout.pack (p : Option A) (color : Color) : BitVec 64 := wordSetParentColor (l.ptr p) (colorWord color)

example : Layout Unit :=
  ⟨fun _ => 4, fun _ _ _ => rfl, fun _ => by decide, fun _ => by decide⟩

variable {l} {w c : BitVec 64} {p q : Option A} {x y : Color}

theorem ptr_aligned (l : Layout A) (p : Option A) : l.ptr p &&& 3 = 0 := by
  cases p with
  | none => exact BitVec.zero_and
  | some a => exact l.aligned a

theorem ptr_inj (h : l.ptr p = l.ptr q) : p = q := by
  cases p with
  | none =>
    cases q with
    | none => rfl
    | some b => exact absurd h.symm (l.nonnull b)
  | some a =>
    cases q with
    | none => exact absurd h (l.nonnull a)
    | some b => exact congrArg some (l.inj a b h)

theorem or_and (m : BitVec 64) : (w ||| c) &&& m = (w &&& m) ||| (c &&& m) := by
  ext i
  simp [Bool.and_or_distrib_right]

/-- A mask that lies within the two low bits finds nothing in a pointer. -/
theorem aligned_and (h : w &&& 3 = 0) (m : BitVec 64) (hm : 3 &&& m = m) : w &&& m = 0 := by
  rw [← hm, ← BitVec.and_assoc, h]
  exact BitVec.zero_and

theorem aligned_parent (h : w &&& 3 = 0) : w &&& ~~~3 = w := by
  have hsplit : (w &&& 3) ||| (w &&& ~~~3) = w := by
    ext i
    simp only [BitVec.getElem_or, BitVec.getElem_and, BitVec.getElem_not]
    cases w[i] <;> cases (3 : BitVec 64)[i] <;> rfl
  rw [h] at hsplit
  simpa using hsplit

theorem colorWord_le (x : Color) : 3 &&& colorWord x = colorWord x := by
  cases x <;> decide

/-- The color goes to a bit that the pointer does not use. -/
theorem pack_eq_or (l : Layout A) (p : Option A) (x : Color) :
    l.pack p x = l.ptr p ||| colorWord x :=
  BitVec.add_eq_or_of_and_eq_zero _ _ (aligned_and (ptr_aligned l p) _ (colorWord_le x))

theorem wordParent_pack : wordParent (l.pack p x) = l.ptr p := by
  have hcolor : colorWord x &&& ~~~3 = 0 := by cases x <;> decide
  rw [wordParent, pack_eq_or, or_and, aligned_parent (ptr_aligned l p), hcolor]
  simp

theorem wordColor_pack : wordColor (l.pack p x) = colorWord x := by
  have hcolor : colorWord x &&& 1 = colorWord x := by cases x <;> decide
  rw [wordColor, pack_eq_or, or_and, aligned_and (ptr_aligned l p) 1 (by decide), hcolor]
  simp

theorem colorWord_inj (h : colorWord x = colorWord y) : x = y := by
  cases x <;> cases y <;> first | rfl | exact absurd h (by decide)

theorem pack_inj (h : l.pack p x = l.pack q y) : p = q ∧ x = y := by
  constructor
  · apply ptr_inj (l := l)
    rw [← wordParent_pack (x := x), h, wordParent_pack]
  · apply colorWord_inj
    rw [← wordColor_pack (l := l) (p := p), h, wordColor_pack]

/-- What the macros and functions of rbtree.c do to the word is what the model does to the parent
and the color. The addition of `RB_BLACK` and the whole word as a pointer are right for a red
node and for no other. -/
structure WordExact (l : Layout A) : Prop where
  inj : ∀ p q x y, l.pack p x = l.pack q y → p = q ∧ x = y
  parent : ∀ p x, wordParent (l.pack p x) = l.ptr p
  color : ∀ p x, wordColor (l.pack p x) = colorWord x
  setParent : ∀ p q x, wordSetParent (l.pack p x) (l.ptr q) = l.pack q x
  linkNode : ∀ p, l.ptr p = l.pack p .red
  setBlack : ∀ p x, (∃ q y, wordSetBlack (l.pack p x) = l.pack q y) ↔ x = .red
  setBlack_red : ∀ p, wordSetBlack (l.pack p .red) = l.pack p .black
  redParent : ∀ p x, l.pack p x = l.ptr p ↔ x = .red

theorem pack_red (p : Option A) : l.pack p .red = l.ptr p := by
  show l.ptr p + 0 = l.ptr p
  exact BitVec.add_zero _

theorem setBlack_red (p : Option A) : wordSetBlack (l.pack p .red) = l.pack p .black := by
  rw [pack_red]
  rfl

/-- A second addition leaves a bit set that belongs neither to a pointer nor to the color. -/
theorem setBlack_black (p q : Option A) (y : Color) :
    wordSetBlack (l.pack p .black) ≠ l.pack q y := by
  intro h
  have hword : wordSetBlack (l.pack p .black) = l.ptr p ||| 2 := by
    rw [← BitVec.add_eq_or_of_and_eq_zero _ _ (aligned_and (ptr_aligned l p) 2 (by decide))]
    show l.ptr p + 1 + 1 = l.ptr p + 2
    rw [BitVec.add_assoc]
    rfl
  have hbit : (l.ptr p ||| 2) &&& 2 = (l.ptr q ||| colorWord y) &&& 2 := by
    rw [← hword, h, pack_eq_or]
  rw [or_and, or_and, aligned_and (ptr_aligned l p) 2 (by decide),
    aligned_and (ptr_aligned l q) 2 (by decide)] at hbit
  cases y <;> exact absurd hbit (by decide)

theorem word_exact (l : Layout A) : WordExact l where
  inj _ _ _ _ := pack_inj
  parent _ _ := wordParent_pack
  color _ _ := wordColor_pack
  setParent p q x := by
    rw [wordSetParent, wordColor_pack, BitVec.add_comm]
    rfl
  linkNode p := (pack_red p).symm
  setBlack p x := by
    constructor
    · rintro ⟨q, y, h⟩
      cases x with
      | red => rfl
      | black => exact absurd h (setBlack_black p q y)
    · rintro rfl
      exact ⟨p, .black, setBlack_red p⟩
  setBlack_red := setBlack_red
  redParent p x := by
    rw [← pack_red (l := l) p]
    constructor
    · exact fun h => (pack_inj h).2
    · rintro rfl
      rfl

end LinuxSummer.Rbtree
