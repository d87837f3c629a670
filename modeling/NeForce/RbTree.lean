import NeForce.RbPool

/-! # The class `rb_tree`

The member functions of `rb_tree.hpp` on a memory and the fields of the objects involved.  An
iterator is the address of its node, `end()` is the header.  `key` is `KeyOfValue`; a value is
read through `getData`, which fails where no value has been constructed.

* `insert_into`, `link_left` and `link_right` share `linkSide`; the five search loops are
  `insertPlace` (insertion) and `boundLoop` (lookup), which differ in what they remember.
* Moving a value out of a node leaves the node as it was; the source then clears the tree it
  moved from, so that what is left there is never read.
* `Traits` are the propagation flags of the allocator and its
  `select_on_container_copy_construction`. -/

namespace NeForce.Rb

variable {V K : Type}

structure Traits where
  pocca : Bool
  pocma : Bool
  pocs : Bool
  selectOnCopy : ℕ → ℕ

def getData (h : Heap V) (p : ℕ) : Option V := (h.load p).bind (·.data)

/-- `rb_tree_iterator::increment` -/
def iterIncrement (dbg : Bool) (h : Heap V) (t : RbTree K) (p : ℕ) : Option ℕ := do
  debugVerify dbg (p ≠ 0)
  debugVerify dbg (p ≠ t.header)
  increment h p

/-- `rb_tree_iterator::decrement` -/
def iterDecrement (dbg : Bool) (h : Heap V) (t : RbTree K) (p : ℕ) : Option ℕ := do
  debugVerify dbg (p ≠ 0)
  debugVerify dbg (t.size ≠ 0 || p ≠ t.header)
  decrement h p

/-- `rb_tree_iterator::dereference` -/
def dereference (dbg : Bool) (h : Heap V) (t : RbTree K) (p : ℕ) : Option V := do
  debugVerify dbg (p ≠ 0)
  let q ← getParent h p
  debugVerify dbg (p ≠ t.header && q ≠ 0)
  getData h p

/-- `begin()` -/
def begin (h : Heap V) (t : RbTree K) : Option ℕ := getChild .left h t.header

/-! ### Linking a node -/

/-- `if (parent == leftmost()) leftmost() = ptr`, and the same for `rightmost`. -/
def moveEnd (s : Side) (h : Heap V) (header parent ptr : ℕ) : Option (Heap V) := do
  let e ← getChild s h header
  if parent = e then h.update header (·.setChild s ptr) else pure h

/-- The common end of the linking functions. -/
def hangNode (h : Heap V) (t : RbTree K) (parent ptr : ℕ) : Option (Heap V × RbTree K × ℕ) := do
  let h ← h.update ptr (·.setParent parent)
  let h ← h.update ptr (·.setChild .left 0)
  let h ← h.update ptr (·.setChild .right 0)
  let h ← rbTreeInsertRebalance h ptr t.header
  pure (h, { t with size := t.size + 1 }, ptr)

/-- `link_left` for `s = left`, `link_right` for `s = right`. -/
def linkSide (s : Side) (h : Heap V) (t : RbTree K) (parent ptr : ℕ) :
    Option (Heap V × RbTree K × ℕ) := do
  let h ← h.update parent (·.setChild s ptr)
  let h ← moveEnd s h t.header parent ptr
  hangNode h t parent ptr

def linkLeft (h : Heap V) (t : RbTree K) (parent ptr : ℕ) : Option (Heap V × RbTree K × ℕ) :=
  linkSide .left h t parent ptr

def linkRight (h : Heap V) (t : RbTree K) (parent ptr : ℕ) : Option (Heap V × RbTree K × ℕ) :=
  linkSide .right h t parent ptr

/-- The first node of a tree. -/
def linkRoot (h : Heap V) (t : RbTree K) (ptr : ℕ) : Option (Heap V × RbTree K × ℕ) := do
  let h ← h.update t.header (·.setChild .left ptr)
  let h ← h.update t.header (·.setParent ptr)
  let h ← h.update t.header (·.setChild .left ptr)
  let h ← h.update t.header (·.setChild .right ptr)
  hangNode h t t.header ptr

section

variable (key : V → K)

/-- `key(ptr)` -/
def getKey (h : Heap V) (p : ℕ) : Option K := (getData h p).map key

/-- `insert_into` -/
def insertInto (h : Heap V) (t : RbTree K) (child parent ptr : ℕ) :
    Option (Heap V × RbTree K × ℕ) := do
  if parent = t.header then linkRoot h t ptr
  else if child ≠ 0 then linkLeft h t parent ptr
  else
    let k ← getKey key h ptr
    let k' ← getKey key h parent
    if t.keyCompare.lt k k' then linkLeft h t parent ptr else linkRight h t parent ptr

/-- The descent of `insert_unique` and `insert_equal`: the last node visited and the last
comparison. -/
def insertPlace (o : StrictWeakOrder K) (k : K) (h : Heap V) : ℕ → ℕ → ℕ → Bool → Option (ℕ × Bool)
  | 0, _, _, _ => none
  | n + 1, x, y, comp =>
      if x = 0 then some (y, comp)
      else do
        let k' ← getKey key h x
        let comp := o.lt k k'
        let x' ← getChild (if comp then .left else .right) h x
        insertPlace o k h n x' x comp

/-- The descent of `find`, `count` and the bounds: the last node where it went left. -/
def boundLoop (goLeft : K → Bool) (h : Heap V) : ℕ → ℕ → ℕ → Option ℕ
  | 0, _, _ => none
  | n + 1, x, y =>
      if x = 0 then some y
      else do
        let k ← getKey key h x
        if goLeft k then
          let x' ← getChild .left h x
          boundLoop goLeft h n x' x
        else
          let x' ← getChild .right h x
          boundLoop goLeft h n x' y

/-- `lower_bound` -/
def lowerBound (h : Heap V) (t : RbTree K) (k : K) : Option ℕ := do
  let root ← getParent h t.header
  boundLoop key (fun k' => !t.keyCompare.lt k' k) h (walkBound h) root t.header

/-- `upper_bound` -/
def upperBound (h : Heap V) (t : RbTree K) (k : K) : Option ℕ := do
  let root ← getParent h t.header
  boundLoop key (fun k' => t.keyCompare.lt k k') h (walkBound h) root t.header

/-- `equal_range` -/
def equalRange (h : Heap V) (t : RbTree K) (k : K) : Option (ℕ × ℕ) := do
  let first ← lowerBound key h t k
  let last ← upperBound key h t k
  pure (first, last)

/-- `find` -/
def find (h : Heap V) (t : RbTree K) (k : K) : Option ℕ := do
  let y ← lowerBound key h t k
  if y = t.header then pure t.header
  else
    let k' ← getKey key h y
    if t.keyCompare.lt k k' then pure t.header else pure y

/-- `contains` -/
def contains (h : Heap V) (t : RbTree K) (k : K) : Option Bool := do
  let y ← lowerBound key h t k
  if y = t.header then pure false
  else
    let k' ← getKey key h y
    pure (!t.keyCompare.lt k k')

/-- The loop of `count`. -/
def countLoop (h : Heap V) (t : RbTree K) (k : K) : ℕ → ℕ → ℕ → Option ℕ
  | 0, _, _ => none
  | j + 1, y, n =>
      if y = t.header then some n
      else do
        let k' ← getKey key h y
        if t.keyCompare.lt k k' then pure n
        else
          let y ← increment h y
          countLoop h t k j y (n + 1)

/-- `count` -/
def count (h : Heap V) (t : RbTree K) (k : K) : Option ℕ := do
  let y ← lowerBound key h t k
  if y = t.header then pure 0
  else
    let k' ← getKey key h y
    if t.keyCompare.lt k k' then pure 0
    else
      let y ← increment h y
      countLoop key h t k (walkBound h) y 1

/-! ### Insertion -/

/-- The private `insert_unique(link_type)`: the iterator and whether the node was linked. -/
def insertUnique (dbg : Bool) (h : Heap V) (t : RbTree K) (node : ℕ) :
    Option (Heap V × RbTree K × ℕ × Bool) := do
  let root ← getParent h t.header
  let k ← getKey key h node
  let (y, comp) ← insertPlace key t.keyCompare k h (walkBound h) root t.header true
  let b ← begin h t
  if comp ∧ y = b then
    let (h, t, p) ← insertInto key h t 0 y node
    pure (h, t, p, true)
  else
    let j ← (if comp then iterDecrement dbg h t y else pure y)
    let k' ← getKey key h j
    if t.keyCompare.lt k' k then
      let (h, t, p) ← insertInto key h t 0 y node
      pure (h, t, p, true)
    else
      let (h, t) ← destroyNode h t node
      pure (h, t, j, false)

/-- The private `insert_equal(link_type)` -/
def insertEqual (h : Heap V) (t : RbTree K) (node : ℕ) : Option (Heap V × RbTree K × ℕ) := do
  let root ← getParent h t.header
  let k ← getKey key h node
  let (y, _) ← insertPlace key t.keyCompare k h (walkBound h) root t.header true
  insertInto key h t 0 y node

/-- `emplace_unique` -/
def emplaceUnique (dbg : Bool) (h : Heap V) (t : RbTree K) (v : V) :
    Option (Heap V × RbTree K × ℕ × Bool) := do
  let (h, t, tmp) ← createNode h t v
  insertUnique key dbg h t tmp

/-- `emplace_equal` -/
def emplaceEqual (h : Heap V) (t : RbTree K) (v : V) : Option (Heap V × RbTree K × ℕ) := do
  let (h, t, tmp) ← createNode h t v
  insertEqual key h t tmp

/-- `insert_unique(tmp).first` -/
def insertUniqueFirst (dbg : Bool) (h : Heap V) (t : RbTree K) (node : ℕ) :
    Option (Heap V × RbTree K × ℕ) :=
  (insertUnique key dbg h t node).map fun r => (r.1, r.2.1, r.2.2.1)

/-- `emplace_unique_hint` -/
def emplaceUniqueHint (dbg : Bool) (h : Heap V) (t : RbTree K) (position : ℕ) (v : V) :
    Option (Heap V × RbTree K × ℕ) := do
  let (h, t, tmp) ← createNode h t v
  let k ← getKey key h tmp
  if position = t.header then
    if t.size ≠ 0 then
      let r ← getChild .right h t.header
      let kr ← getKey key h r
      if t.keyCompare.lt kr k then linkRight h t r tmp else insertUniqueFirst key dbg h t tmp
    else insertUniqueFirst key dbg h t tmp
  else
    let b ← begin h t
    if position = b then
      if t.size ≠ 0 then
        let kp ← getKey key h position
        if t.keyCompare.lt k kp then linkLeft h t position tmp
        else insertUniqueFirst key dbg h t tmp
      else insertUniqueFirst key dbg h t tmp
    else
      let before ← iterDecrement dbg h t position
      let kb ← getKey key h before
      let kp ← getKey key h position
      if t.keyCompare.lt kb k ∧ t.keyCompare.lt k kp then
        let r ← getChild .right h before
        if r = 0 then insertInto key h t 0 before tmp
        else
          let l ← getChild .left h position
          if l = 0 then insertInto key h t position position tmp
          else insertUniqueFirst key dbg h t tmp
      else insertUniqueFirst key dbg h t tmp

/-- `emplace_equal_hint` -/
def emplaceEqualHint (dbg : Bool) (h : Heap V) (t : RbTree K) (position : ℕ) (v : V) :
    Option (Heap V × RbTree K × ℕ) := do
  let (h, t, tmp) ← createNode h t v
  let k ← getKey key h tmp
  let b ← begin h t
  if position = b then
    if 0 < t.size then
      let kp ← getKey key h position
      if t.keyCompare.lt k kp then insertInto key h t position position tmp
      else insertEqual key h t tmp
    else insertEqual key h t tmp
  else if position = t.header then
    let r ← getChild .right h t.header
    let kr ← getKey key h r
    if !t.keyCompare.lt k kr then insertInto key h t 0 r tmp else insertEqual key h t tmp
  else
    let before ← iterDecrement dbg h t position
    let kb ← getKey key h before
    let kp ← getKey key h position
    if !t.keyCompare.lt k kb ∧ !t.keyCompare.lt kp k then
      let r ← getChild .right h before
      if r = 0 then insertInto key h t 0 before tmp
      else insertInto key h t position position tmp
    else insertEqual key h t tmp

end

/-! ### Removal -/

/-- `erase(iterator)` -/
def eraseAt (dbg : Bool) (h : Heap V) (t : RbTree K) (position : ℕ) : Option (Heap V × RbTree K) := do
  let (h, y) ← rbTreeEraseRebalance dbg h position t.header
  let (h, t) ← destroyNode h t y
  pure (h, { t with size := t.size - 1 })

/-- `erase_under` -/
def eraseUnder : ℕ → Heap V → RbTree K → ℕ → Option (Heap V × RbTree K)
  | 0, _, _, _ => none
  | k + 1, h, t, root =>
      if root = 0 then some (h, t)
      else do
        let r ← getChild .right h root
        let (h, t) ← eraseUnder k h t r
        let l ← getChild .left h root
        let (h, t) ← eraseUnder k h t l
        destroyNode h t root

/-- `clear` -/
def clear (h : Heap V) (t : RbTree K) : Option (Heap V × RbTree K) :=
  if t.header = 0 then some (h, t)
  else if t.size = 0 then some (h, t)
  else do
    let root ← getParent h t.header
    let (h, t) ← eraseUnder (walkBound h) h t root
    let h ← h.update t.header (·.setChild .left t.header)
    let h ← h.update t.header (·.setParent 0)
    let h ← h.update t.header (·.setChild .right t.header)
    releaseNodes h { t with size := 0 }

/-- The loop of `erase(first, last)`. -/
def eraseRangeLoop (dbg : Bool) : ℕ → Heap V → RbTree K → ℕ → ℕ → Option (Heap V × RbTree K)
  | 0, _, _, _, _ => none
  | k + 1, h, t, first, last =>
      if first = last then some (h, t)
      else do
        let next ← iterIncrement dbg h t first
        let (h, t) ← eraseAt dbg h t first
        eraseRangeLoop dbg k h t next last

/-- `erase(first, last)` -/
def eraseRange (dbg : Bool) (h : Heap V) (t : RbTree K) (first last : ℕ) :
    Option (Heap V × RbTree K) := do
  let b ← begin h t
  if first = b ∧ last = t.header then clear h t
  else eraseRangeLoop dbg (walkBound h) h t first last

/-- `distance` -/
def distance (dbg : Bool) (h : Heap V) (t : RbTree K) : ℕ → ℕ → ℕ → ℕ → Option ℕ
  | 0, _, _, _ => none
  | k + 1, first, last, n =>
      if first = last then some n
      else do
        let next ← iterIncrement dbg h t first
        distance dbg h t k next last (n + 1)

/-- `erase(key)` -/
def eraseKey (key : V → K) (dbg : Bool) (h : Heap V) (t : RbTree K) (k : K) :
    Option (Heap V × RbTree K × ℕ) := do
  let (first, last) ← equalRange key h t k
  let n ← distance dbg h t (walkBound h) first last 0
  let (h, t) ← eraseRange dbg h t first last
  pure (h, t, n)

/-! ### Copying -/

/-- `copy_node` -/
def copyNode (h : Heap V) (t : RbTree K) (p : ℕ) : Option (Heap V × RbTree K × ℕ) := do
  let v ← getData h p
  let (h, t, tmp) ← createNode h t v
  let c ← getColor h p
  let h ← h.update tmp (·.setColor c)
  let h ← h.update tmp (·.setChild .left 0)
  let h ← h.update tmp (·.setChild .right 0)
  pure (h, t, tmp)

mutual

/-- `copy_under` -/
def copyUnder : ℕ → Heap V → RbTree K → ℕ → ℕ → Option (Heap V × RbTree K × ℕ)
  | 0, _, _, _, _ => none
  | k + 1, h, t, src, parent => do
      let (h, t, top) ← copyNode h t src
      let h ← h.update top (·.setParent parent)
      let r ← getChild .right h src
      let (h, t) ← (if r ≠ 0 then do
          let (h, t, q) ← copyUnder k h t r top
          let h ← h.update top (·.setChild .right q)
          pure (h, t)
        else pure (h, t))
      let l ← getChild .left h src
      let (h, t) ← copyLeft k h t l top
      pure (h, t, top)

/-- The loop of `copy_under` down the left spine. -/
def copyLeft : ℕ → Heap V → RbTree K → ℕ → ℕ → Option (Heap V × RbTree K)
  | 0, _, _, _, _ => none
  | k + 1, h, t, src, parent =>
      if src = 0 then some (h, t)
      else do
        let (h, t, y) ← copyNode h t src
        let h ← h.update parent (·.setChild .left y)
        let h ← h.update y (·.setParent parent)
        let r ← getChild .right h src
        let (h, t) ← (if r ≠ 0 then do
            let (h, t, q) ← copyUnder k h t r y
            let h ← h.update y (·.setChild .right q)
            pure (h, t)
          else pure (h, t))
        let l ← getChild .left h src
        copyLeft k h t l y

end

/-- `copy_from` -/
def copyFrom (h : Heap V) (t other : RbTree K) : Option (Heap V × RbTree K) := do
  let src ← getParent h other.header
  if src = 0 then
    let h ← h.update t.header (·.setParent 0)
    let h ← h.update t.header (·.setChild .left t.header)
    let h ← h.update t.header (·.setChild .right t.header)
    pure (h, { t with size := other.size })
  else
    let (h, t, root) ← copyUnder (walkBound h) h t src t.header
    let h ← h.update t.header (·.setParent root)
    let l ← minimum h root
    let h ← h.update t.header (·.setChild .left l)
    let r ← maximum h root
    let h ← h.update t.header (·.setChild .right r)
    pure (h, { t with size := other.size })

/-! ### Construction, destruction, assignment -/

/-- `header_init` -/
def headerInit (h : Heap V) (t : RbTree K) : Option (Heap V × RbTree K) := do
  let (hd, h) := h.alloc 1 {}
  let h ← h.update hd (·.setColor .red)
  let h ← h.update hd (·.setParent 0)
  let h ← h.update hd (·.setChild .left hd)
  let h ← h.update hd (·.setChild .right hd)
  pure (h, { t with header := hd })

/-- The constructor from a comparison and an allocator. -/
def construct (h : Heap V) (comp : StrictWeakOrder K) (alloc : ℕ) : Option (Heap V × RbTree K) :=
  headerInit h { keyCompare := comp, alloc := alloc }

/-- The copy constructor with an allocator. -/
def copyConstruct (h : Heap V) (other : RbTree K) (alloc : ℕ) : Option (Heap V × RbTree K) := do
  let (h, t) ← construct h other.keyCompare alloc
  copyFrom h t other

/-- What a move leaves behind. -/
def RbTree.moved (t : RbTree K) : RbTree K :=
  { t with header := 0, size := 0, freeNodes := 0, nodeChunks := 0 }

/-- The move constructor: the new object and the old one. -/
def moveConstruct (other : RbTree K) : RbTree K × RbTree K := (other, other.moved)

/-- Insert every element of `other` from `iter` on into `t`. -/
def moveElements (key : V → K) (dbg : Bool) (other : RbTree K) :
    ℕ → Heap V → RbTree K → ℕ → Option (Heap V × RbTree K)
  | 0, _, _, _ => none
  | k + 1, h, t, iter =>
      if iter = other.header then some (h, t)
      else do
        let v ← dereference dbg h other iter
        let (h, t, _) ← emplaceEqual key h t v
        let iter ← iterIncrement dbg h other iter
        moveElements key dbg other k h t iter

/-- The elements of `other` move to `t` one by one, and `other` is cleared. -/
def moveAll (key : V → K) (dbg : Bool) (h : Heap V) (t other : RbTree K) :
    Option (Heap V × RbTree K × RbTree K) := do
  let b ← begin h other
  let (h, t) ← moveElements key dbg other (walkBound h) h t b
  let (h, other) ← clear h other
  pure (h, t, other)

/-- The move constructor with an allocator: the new object and the old one. -/
def moveConstructAlloc (key : V → K) (dbg : Bool) (h : Heap V) (other : RbTree K) (alloc : ℕ) :
    Option (Heap V × RbTree K × RbTree K) := do
  let (h, t) ← construct h other.keyCompare alloc
  if t.alloc = other.alloc then
    pure (h, { t with header := other.header, size := other.size },
      { other with header := t.header, size := t.size })
  else moveAll key dbg h t other

/-- The destructor. -/
def destruct (h : Heap V) (t : RbTree K) : Option (Heap V) := do
  let (h, t) ← clear h t
  let (h, t) ← releaseNodes h t
  if t.header ≠ 0 then h.free t.header 1 else pure h

/-- `swap_impl`: both objects after the swap. -/
def swapImpl (pocs dbg : Bool) (t other : RbTree K) : Option (RbTree K × RbTree K) :=
  if pocs then some (other, t)
  else do
    debugVerify dbg (t.alloc = other.alloc)
    pure ({ other with alloc := t.alloc }, { t with alloc := other.alloc })

/-- The copy assignment between different objects. -/
def copyAssign (tr : Traits) (dbg : Bool) (h : Heap V) (t other : RbTree K) :
    Option (Heap V × RbTree K) := do
  let (h, tmp) ← copyConstruct h other (if tr.pocca then other.alloc else t.alloc)
  let (t, tmp) ← swapImpl tr.pocca dbg t tmp
  let h ← destruct h tmp
  pure (h, t)

/-- The move assignment between different objects. -/
def moveAssign (key : V → K) (tr : Traits) (dbg : Bool) (h : Heap V) (t other : RbTree K) :
    Option (Heap V × RbTree K × RbTree K) :=
  if tr.pocma then some (h, other, t)
  else if t.alloc = other.alloc then
    some (h, { other with alloc := t.alloc }, { t with alloc := other.alloc })
  else do
    let (h, t) ← clear h t
    moveAll key dbg h t other

end NeForce.Rb
