import NeForce.ColoredTree
import NeForce.Memory

/-! # Red-black nodes: rotations, rebalancing, iteration

The free functions of `rb_tree.hpp` on `rb_tree_node_base`, and the increment and decrement of
`rb_tree_base_iterator`, as functions on a memory of nodes.  A function returns `none` when it
would dereference a pointer that is not allocated.

* The source writes each function and each loop body twice, once for either side; here there is
  one definition with the side as a parameter, and `rbTreeRotateLeft`, `rbTreeRotateRight` and
  the two branches of the loops are its two instances.
* `root`, `leftmost` and `rightmost` are passed by reference in the source and are always the
  fields of the header, so the header is the argument here.
* A loop carries a bound on its rounds and returns `none` when it is used up; the bound given by
  the callers is the number of addresses handed out so far (`walkBound`).
* `dbg` tells whether `NEFORCE_DEBUG_VERIFY` is compiled in; a failed check then aborts. -/

namespace NeForce.Rb

/-- `rb_tree_node`; `data` is `none` where no object has been constructed. -/
structure RbNode (V : Type) where
  color : Color := .red
  parent : ℕ := 0
  left : ℕ := 0
  right : ℕ := 0
  data : Option V := none
deriving Repr

variable {V : Type}

namespace RbNode

def child (s : Side) (n : RbNode V) : ℕ :=
  match s with
  | .left => n.left
  | .right => n.right

def setChild (s : Side) (q : ℕ) (n : RbNode V) : RbNode V :=
  match s with
  | .left => { n with left := q }
  | .right => { n with right := q }

def setParent (q : ℕ) (n : RbNode V) : RbNode V := { n with parent := q }

def setColor (c : Color) (n : RbNode V) : RbNode V := { n with color := c }

def setData (d : Option V) (n : RbNode V) : RbNode V := { n with data := d }

end RbNode

abbrev Heap (V : Type) := Mem (RbNode V)

def getColor (h : Heap V) (a : ℕ) : Option Color := (h.load a).map (·.color)

def getParent (h : Heap V) (a : ℕ) : Option ℕ := (h.load a).map (·.parent)

def getChild (s : Side) (h : Heap V) (a : ℕ) : Option ℕ := (h.load a).map (·.child s)

/-- `p == nullptr || p->color_ == RB_TREE_BLACK` -/
def isBlack (h : Heap V) (p : ℕ) : Option Bool :=
  if p = 0 then some true else (getColor h p).map (· == .black)

/-- `NEFORCE_DEBUG_VERIFY` -/
def debugVerify (dbg ok : Bool) : Option Unit := if dbg && !ok then none else some ()

/-- A bound on the length of any walk along pointers. -/
def walkBound (h : Heap V) : ℕ := h.next + 2

/-! ### Minimum and maximum -/

/-- Follow the pointers on side `s` to the last node. -/
def extremumLoop (s : Side) (h : Heap V) : ℕ → ℕ → Option ℕ
  | 0, _ => none
  | k + 1, a => do
      let q ← getChild s h a
      if q = 0 then pure a else extremumLoop s h k q

def extremum (s : Side) (h : Heap V) (root : ℕ) : Option ℕ :=
  if root = 0 then some 0 else extremumLoop s h (walkBound h) root

def minimum (h : Heap V) (root : ℕ) : Option ℕ := extremum .left h root

def maximum (h : Heap V) (root : ℕ) : Option ℕ := extremum .right h root

/-- `if (q != nullptr) q->parent_ = p` -/
def setParentOf (h : Heap V) (q p : ℕ) : Option (Heap V) :=
  if q ≠ 0 then h.update q (·.setParent p) else some h

/-- `if (q != nullptr) q->color_ = RB_TREE_BLACK` -/
def paintBlack (h : Heap V) (q : ℕ) : Option (Heap V) :=
  if q ≠ 0 then h.update q (·.setColor .black) else some h

/-! ### Rotations -/

/-- Let `new` take the place of `old` below the parent `p` of `old`, or as the root; `s` is the
side the source tests first. -/
def replaceInParent (s : Side) (h : Heap V) (header p old new : ℕ) : Option (Heap V) := do
  let root ← getParent h header
  if old = root then h.update header (·.setParent new)
  else
    let q ← getChild s h p
    if old = q then h.update p (·.setChild s new) else h.update p (·.setChild s.opp new)

/-- `rb_tree_rotate_left` for `s = left`, `rb_tree_rotate_right` for `s = right`. -/
def rbTreeRotate (s : Side) (h : Heap V) (axis header : ℕ) : Option (Heap V) := do
  let y ← getChild s.opp h axis
  let q ← getChild s h y
  let h ← h.update axis (·.setChild s.opp q)
  let h ← setParentOf h q axis
  let p ← getParent h axis
  let h ← h.update y (·.setParent p)
  let h ← replaceInParent s h header p axis y
  let h ← h.update y (·.setChild s axis)
  h.update axis (·.setParent y)

def rbTreeRotateLeft (h : Heap V) (axis header : ℕ) : Option (Heap V) :=
  rbTreeRotate .left h axis header

def rbTreeRotateRight (h : Heap V) (axis header : ℕ) : Option (Heap V) :=
  rbTreeRotate .right h axis header

/-! ### Rebalancing after an insertion -/

/-- The body of the insertion loop when the parent is the child on side `s` of the grandparent:
the new memory and the new `insert`. -/
def insertBranch (s : Side) (h : Heap V) (insert header : ℕ) : Option (Heap V × ℕ) := do
  let p ← getParent h insert
  let g ← getParent h p
  let y ← getChild s.opp h g
  let blackUncle ← isBlack h y
  if !blackUncle then
    let h ← h.update p (·.setColor .black)
    let h ← h.update y (·.setColor .black)
    let h ← h.update g (·.setColor .red)
    pure (h, g)
  else
    let q ← getChild s.opp h p
    let (h, insert) ← (if insert = q then do
        let h ← rbTreeRotate s h p header
        pure (h, p)
      else pure (h, insert))
    let p ← getParent h insert
    let h ← h.update p (·.setColor .black)
    let g ← getParent h p
    let h ← h.update g (·.setColor .red)
    let h ← rbTreeRotate s.opp h g header
    pure (h, insert)

def insertLoop (header : ℕ) : ℕ → Heap V → ℕ → Option (Heap V)
  | 0, _, _ => none
  | k + 1, h, insert => do
      let root ← getParent h header
      if insert = root then pure h
      else
        let p ← getParent h insert
        let c ← getColor h p
        if c ≠ .red then pure h
        else
          let g ← getParent h p
          let l ← getChild .left h g
          let (h, insert) ← insertBranch (if p = l then .left else .right) h insert header
          insertLoop header k h insert

/-- `rb_tree_insert_rebalance` -/
def rbTreeInsertRebalance (h : Heap V) (insert header : ℕ) : Option (Heap V) := do
  let h ← h.update insert (·.setColor .red)
  let h ← insertLoop header (walkBound h) h insert
  let root ← getParent h header
  h.update root (·.setColor .black)

/-! ### Rebalancing after a removal -/

/-- How a round of the removal loop ends: `break`, or the next `x` and `x_parent`. -/
inductive Round (V : Type) where
  | done (h : Heap V)
  | again (h : Heap V) (x xParent : ℕ)

/-- The last rotation of the removal loop, `w` being the sibling and its far child red. -/
def eraseFinish (s : Side) (h : Heap V) (xParent w header : ℕ) : Option (Heap V) := do
  let c ← getColor h xParent
  let h ← h.update w (·.setColor c)
  let h ← h.update xParent (·.setColor .black)
  let far ← getChild s.opp h w
  let h ← paintBlack h far
  rbTreeRotate s h xParent header

/-- The part of a round that has a black sibling `w`. -/
def eraseBlack (s : Side) (h : Heap V) (xParent w header : ℕ) : Option (Round V) := do
  let near ← getChild s h w
  let far ← getChild s.opp h w
  let nearBlack ← isBlack h near
  let farBlack ← isBlack h far
  if nearBlack && farBlack then
    let h ← h.update w (·.setColor .red)
    let pp ← getParent h xParent
    pure (.again h xParent pp)
  else
    if farBlack then
      let h ← paintBlack h near
      let h ← h.update w (·.setColor .red)
      let h ← rbTreeRotate s.opp h w header
      let w ← getChild s.opp h xParent
      let h ← eraseFinish s h xParent w header
      pure (.done h)
    else
      let h ← eraseFinish s h xParent w header
      pure (.done h)

/-- The body of the removal loop when `x` is the child on side `s` of `x_parent`. -/
def eraseBranch (dbg : Bool) (s : Side) (h : Heap V) (xParent header : ℕ) : Option (Round V) := do
  let w ← getChild s.opp h xParent
  debugVerify dbg (w ≠ 0)
  if w = 0 then
    let pp ← getParent h xParent
    pure (.again h xParent pp)
  else
    let c ← getColor h w
    if c = .red then
      let h ← h.update w (·.setColor .black)
      let h ← h.update xParent (·.setColor .red)
      let h ← rbTreeRotate s h xParent header
      let w ← getChild s.opp h xParent
      eraseBlack s h xParent w header
    else eraseBlack s h xParent w header

/-- The removal loop: the memory and `x` at its end. -/
def eraseLoop (dbg : Bool) (header : ℕ) : ℕ → Heap V → ℕ → ℕ → Option (Heap V × ℕ)
  | 0, _, _, _ => none
  | k + 1, h, x, xParent => do
      let root ← getParent h header
      if x = root then pure (h, x)
      else
        let black ← isBlack h x
        if !black then pure (h, x)
        else
          let l ← getChild .left h xParent
          let round ← eraseBranch dbg (if x = l then .left else .right) h xParent header
          match round with
          | .done h => pure (h, x)
          | .again h x xParent => eraseLoop dbg header k h x xParent

/-- The memory, `x` and `x_parent` after `erase` has been taken out of the tree. -/
structure Unlinked (V : Type) where
  heap : Heap V
  x : ℕ
  xParent : ℕ

/-- The successor `y` is not a child of `erase`: it leaves its place to `x` and takes the right
subtree `r` of `erase`. -/
def detachSuccessor (h : Heap V) (y x r : ℕ) : Option (Heap V × ℕ) := do
  let yp ← getParent h y
  let h ← setParentOf h x yp
  let h ← h.update yp (·.setChild .left x)
  let h ← h.update y (·.setChild .right r)
  let h ← h.update r (·.setParent y)
  pure (h, yp)

/-- `y` takes the place of `erase` below its parent, and the two swap colours. -/
def takePlace (h : Heap V) (erase y header : ℕ) : Option (Heap V) := do
  let p ← getParent h erase
  let h ← replaceInParent .left h header p erase y
  let h ← h.update y (·.setParent p)
  let cy ← getColor h y
  let ce ← getColor h erase
  let h ← h.update y (·.setColor ce)
  h.update erase (·.setColor cy)

/-- `erase` has two children, and its successor `y` takes its place. -/
def eraseTwo (h : Heap V) (erase header : ℕ) : Option (Unlinked V) := do
  let r ← getChild .right h erase
  let y ← extremumLoop .left h (walkBound h) r
  let x ← getChild .right h y
  let l ← getChild .left h erase
  let h ← h.update l (·.setParent y)
  let h ← h.update y (·.setChild .left l)
  let (h, xParent) ← (if y ≠ r then detachSuccessor h y x r else pure (h, y))
  let h ← takePlace h erase y header
  pure ⟨h, x, xParent⟩

/-- If `erase` was the end of the sequence on side `s` (`leftmost` for `left`, `rightmost` for
`right`), the header takes its parent `p`, or the end of the subtree `x`. -/
def eraseEnd (s : Side) (h : Heap V) (erase x p header : ℕ) : Option (Heap V) := do
  let e ← getChild s h header
  if e = erase then
    let q ← getChild s.opp h erase
    let m ← (if q = 0 then pure p else extremum s h x)
    h.update header (·.setChild s m)
  else pure h

/-- `erase` has at most one child `x`, which takes its place. -/
def eraseOne (h : Heap V) (erase x header : ℕ) : Option (Unlinked V) := do
  let p ← getParent h erase
  let h ← setParentOf h x p
  let h ← replaceInParent .left h header p erase x
  let h ← eraseEnd .left h erase x p header
  let h ← eraseEnd .right h erase x p header
  pure ⟨h, x, p⟩

/-- `rb_tree_erase_rebalance`; the node taken out is `erase` itself. -/
def rbTreeEraseRebalance (dbg : Bool) (h : Heap V) (erase header : ℕ) : Option (Heap V × ℕ) := do
  let l ← getChild .left h erase
  let r ← getChild .right h erase
  let u ← (if l = 0 then eraseOne h erase r header
    else if r = 0 then eraseOne h erase l header
    else eraseTwo h erase header)
  let c ← getColor u.heap erase
  if c ≠ .red then
    let (h, x) ← eraseLoop dbg header (walkBound u.heap) u.heap u.x u.xParent
    let h ← paintBlack h x
    pure (h, erase)
  else pure (u.heap, erase)

/-! ### Iteration -/

/-- Climb while `node` is the child on side `s`: the last `node` and its parent. -/
def climb (s : Side) (h : Heap V) : ℕ → ℕ → ℕ → Option (ℕ × ℕ)
  | 0, _, _ => none
  | k + 1, node, y => do
      let q ← getChild s h y
      if node = q then
        let yp ← getParent h y
        climb s h k y yp
      else pure (node, y)

/-- `rb_tree_base_iterator::increment` -/
def increment (h : Heap V) (node : ℕ) : Option ℕ := do
  let r ← getChild .right h node
  if r ≠ 0 then extremumLoop .left h (walkBound h) r
  else
    let y ← getParent h node
    let (node, y) ← climb .right h (walkBound h) node y
    let r ← getChild .right h node
    if r ≠ y then pure y else pure node

/-- The test of `decrement` for the header: a red node that is its parent's parent. -/
def isHeader (h : Heap V) (node : ℕ) : Option Bool := do
  let c ← getColor h node
  let p ← getParent h node
  if c = .red ∧ p ≠ 0 then
    let pp ← getParent h p
    pure (pp == node)
  else pure false

/-- `rb_tree_base_iterator::decrement` -/
def decrement (h : Heap V) (node : ℕ) : Option ℕ := do
  let header ← isHeader h node
  if header then getChild .right h node
  else
    let l ← getChild .left h node
    if l ≠ 0 then extremumLoop .right h (walkBound h) l
    else
      let y ← getParent h node
      if y = 0 then pure node
      else
        let (_, y) ← climb .left h (walkBound h) node y
        pure y

/-! ### Fields of a node seen from one side -/

namespace RbNode

/-- A node whose child on side `s` is `t` and whose other child is `u`. -/
def sided (s : Side) (c : Color) (p t u : ℕ) (d : Option V) : RbNode V :=
  match s with
  | .left => ⟨c, p, t, u, d⟩
  | .right => ⟨c, p, u, t, d⟩

section

variable (s : Side) (c c' : Color) (p t u q : ℕ) (d d' : Option V)

theorem sided_opp : sided s.opp c p t u d = sided s c p u t d := by cases s <;> rfl
@[simp] theorem color_sided : (sided s c p t u d).color = c := by cases s <;> rfl
@[simp] theorem parent_sided : (sided s c p t u d).parent = p := by cases s <;> rfl
@[simp] theorem data_sided : (sided s c p t u d).data = d := by cases s <;> rfl
@[simp] theorem child_sided : (sided s c p t u d).child s = t := by cases s <;> rfl
@[simp] theorem child_opp_sided : (sided s c p t u d).child s.opp = u := by cases s <;> rfl
@[simp] theorem setChild_sided : (sided s c p t u d).setChild s q = sided s c p q u d := by
  cases s <;> rfl
@[simp] theorem setChild_opp_sided :
    (sided s c p t u d).setChild s.opp q = sided s c p t q d := by cases s <;> rfl
@[simp] theorem setParent_sided : (sided s c p t u d).setParent q = sided s c q t u d := by
  cases s <;> rfl
@[simp] theorem setColor_sided : (sided s c p t u d).setColor c' = sided s c' p t u d := by
  cases s <;> rfl
@[simp] theorem setData_sided : (sided s c p t u d).setData d' = sided s c p t u d' := by
  cases s <;> rfl

end

section

variable (n : RbNode V) (s : Side) (c : Color) (q : ℕ) (d : Option V)

@[simp] theorem color_setChild : (n.setChild s q).color = n.color := by cases s <;> rfl
@[simp] theorem parent_setChild : (n.setChild s q).parent = n.parent := by cases s <;> rfl
@[simp] theorem data_setChild : (n.setChild s q).data = n.data := by cases s <;> rfl
@[simp] theorem child_setChild : (n.setChild s q).child s = q := by cases s <;> rfl
@[simp] theorem child_opp_setChild : (n.setChild s q).child s.opp = n.child s.opp := by
  cases s <;> rfl
@[simp] theorem color_setParent : (n.setParent q).color = n.color := rfl
@[simp] theorem parent_setParent : (n.setParent q).parent = q := rfl
@[simp] theorem data_setParent : (n.setParent q).data = n.data := rfl
@[simp] theorem child_setParent : (n.setParent q).child s = n.child s := by cases s <;> rfl
@[simp] theorem color_setColor : (n.setColor c).color = c := rfl
@[simp] theorem parent_setColor : (n.setColor c).parent = n.parent := rfl
@[simp] theorem data_setColor : (n.setColor c).data = n.data := rfl
@[simp] theorem child_setColor : (n.setColor c).child s = n.child s := by cases s <;> rfl
@[simp] theorem data_setData : (n.setData d).data = d := rfl

end

end RbNode

section

variable {h : Heap V} {a : ℕ} {n : RbNode V}

theorem getColor_eq (e : h.load a = some n) : getColor h a = some n.color := by
  simp [getColor, e]

theorem getParent_eq (e : h.load a = some n) : getParent h a = some n.parent := by
  simp [getParent, e]

theorem getChild_eq (s : Side) (e : h.load a = some n) : getChild s h a = some (n.child s) := by
  simp [getChild, e]

end

end NeForce.Rb
