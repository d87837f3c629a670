import NeForce.Json
import NeForce.JsonArena

/-! # Containers in an arena

The elements and members of a document's containers are slots in its arena.  How many slots a container has is not
stored: it is `reserved` where that is not 0, and otherwise at least the next power of two.  Beside the document stand
the blocks that were handed out and the stores of entries.  The values are of any type `V`; the numbers of bytes are far
below `2^64`. -/

namespace NeForce.Json

variable {V : Type}

/-! ### Memory -/

/-- What is in the 16 or 32 bytes of an element or member; `stored` is the copy of the key in the arena. -/
inductive Slot (V : Type) where
  | element (value : V)
  | member (key : Key) (stored : Option Pointer) (value : V)

/-- What is in one byte. -/
inductive Cell (V : Type) where
  | unset
  | char (c : UInt8)
  | slot (s : Slot V) (i : ℕ)

def putSlot (memory : Pointer → Cell V) (p : Pointer) (size : ℕ) (s : Slot V) (q : Pointer) : Cell V :=
  if p.Covers size q then .slot s (q.offset - p.offset) else memory q

def putText (memory : Pointer → Cell V) (p : Pointer) (text : Bytes) (q : Pointer) : Cell V :=
  if p.Covers text.length q then .char (text.getD (q.offset - p.offset) 0) else memory q

/-- `memory_copy`. -/
def copyBytes (memory : Pointer → Cell V) (target source : Option Pointer) (n : ℕ) : Pointer → Cell V :=
  match target, source with
  | some target, some source => fun q =>
      if target.Covers n q then memory (source.add (q.offset - target.offset)) else memory q
  | _, _ => memory

/-! ### Documents -/

/-- A container's `json_value`; `block` says where its slots are. -/
structure Node where
  isObject : Bool
  pointer : Option Pointer := none
  count : ℕ := 0
  reserved : ℕ := 0
  block : ℕ := 0

def valueSize : ℕ := 16

def slotSizeOf (isObject : Bool) : ℕ := if isObject then 32 else valueSize

def Node.slotSize (node : Node) : ℕ := slotSizeOf node.isObject

/-- A store of an element or member of a container. -/
structure Write where
  node : ℕ
  block : ℕ
  address : Pointer
  size : ℕ

structure Doc (V : Type) where
  arena : Arena := {}
  memory : Pointer → Cell V := fun _ => .unset
  nodes : List Node := []
  blocks : List Block := []
  writes : List Write := []

def reservedLimit : ℕ := 65535

def containerFull (count reserved : ℕ) : Bool :=
  if reserved ≠ 0 then reserved ≤ count else count = 0 || (4 ≤ count && count &&& (count - 1) = 0)

def containerGrowth (count : ℕ) : ℕ := if count < 4 then 4 else count * 2

def Node.setCapacity (node : Node) (capacity : ℕ) : Node :=
  { node with reserved := if capacity ≤ reservedLimit then capacity else 0 }

def Doc.allocate (d : Doc V) (owner : Option ℕ) (count size : ℕ) : Option Pointer × Doc V :=
  match d.arena.allocate count size with
  | (none, arena) => (none, { d with arena })
  | (some p, arena) => (some p, { d with arena, blocks := d.blocks ++ [⟨owner, p, align8 (count * size)⟩] })

def Doc.storeString (d : Doc V) (text : Bytes) : Option Pointer × Doc V :=
  if text = [] then (none, d)
  else
    match d.allocate none text.length 1 with
    | (none, d) => (none, d)
    | (some p, d) => (some p, { d with memory := putText d.memory p text })

/-- New slots for a container, and its entries copied into them. -/
def Doc.move (d : Doc V) (i : ℕ) (node : Node) (next : ℕ) : Doc V :=
  let (grown, d') := d.allocate (some i) next node.slotSize
  { d' with
    memory := copyBytes d'.memory grown node.pointer (node.count * node.slotSize)
    nodes := d'.nodes.set i { node.setCapacity next with pointer := grown, block := d.blocks.length } }

/-- Room for one more entry of a container. -/
def Doc.makeRoom (d : Doc V) (i : ℕ) (node : Node) : Doc V :=
  if containerFull node.count node.reserved then
    let next := containerGrowth node.count
    match node.pointer, d.arena.tryExtend node.pointer (node.count * node.slotSize) (next * node.slotSize) with
    | some p, some arena =>
        { d with
          arena
          nodes := d.nodes.set i (node.setCapacity next)
          blocks := d.blocks.modify node.block (·.extend p (next * node.slotSize)) }
    | _, _ => d.move i node next
  else d

/-- The entry behind the last one; there is none for a container without slots. -/
def Doc.place (d : Doc V) (i : ℕ) (node : Node) (s : Slot V) : Option (Doc V) :=
  match node.pointer with
  | none => none
  | some p =>
      let address := p.add (node.count * node.slotSize)
      some { d with
        memory := putSlot d.memory address node.slotSize s
        nodes := d.nodes.set i { node with count := (node.count + 1) % 2 ^ 32 }
        writes := ⟨i, node.block, address, node.slotSize⟩ :: d.writes }

/-- `object_append` and `array_append`, with what makes the slot; nothing for a container that does not exist or is of the
other kind. -/
def Doc.append (d : Doc V) (i : ℕ) (isObject : Bool) (makeSlot : Doc V → Slot V × Doc V) : Option (Doc V) := do
  let node ← d.nodes[i]?
  if node.isObject ≠ isObject then none
  else
    let d := d.makeRoom i node
    let node ← d.nodes[i]?
    let (s, d) := makeSlot d
    d.place i node s

def Doc.memberSlot (key : Bytes) (value : V) (copyKey : Bool) (d : Doc V) : Slot V × Doc V :=
  if copyKey && inlineKeyCapacity < key.length then
    let (stored, d) := d.storeString key
    (.member (Key.assign key) stored value, d)
  else (.member (Key.assign key) none value, d)

def Doc.objectAppend (d : Doc V) (i : ℕ) (key : Bytes) (value : V) (copyKey : Bool) : Option (Doc V) :=
  d.append i true (Doc.memberSlot key value copyKey)

def Doc.elementSlot (value : V) (d : Doc V) : Slot V × Doc V := (.element value, d)

def Doc.arrayAppend (d : Doc V) (i : ℕ) (value : V) : Option (Doc V) := d.append i false (Doc.elementSlot value)

/-- `object_reserve` and `array_reserve`. -/
def Doc.reserve (d : Doc V) (i : ℕ) (isObject : Bool) (count : ℕ) : Option (Doc V) := do
  let node ← d.nodes[i]?
  if node.isObject ≠ isObject then none
  else if count = 0 ∨ reservedLimit < count ∨ node.count ≠ 0 ∨ node.pointer.isSome then some d
  else
    let (p, d') := d.allocate (some i) count node.slotSize
    some { d' with nodes := d'.nodes.set i { node.setCapacity count with pointer := p, block := d.blocks.length } }

def Doc.newContainer (d : Doc V) (isObject : Bool) (reserve : ℕ) : Doc V :=
  let slots := if reserve = 0 ∨ reservedLimit < reserve then 0 else reserve
  let (memory, d') := d.allocate (some d.nodes.length) (valueSize + slots * slotSizeOf isObject) 1
  { d' with
    nodes := d'.nodes ++
      [if slots ≠ 0 then
        { isObject, pointer := memory.map (·.add valueSize), reserved := slots, block := d.blocks.length }
      else { isObject }] }

/-! ### Runs -/

inductive Op (V : Type) where
  | newContainer (isObject : Bool) (reserve : ℕ)
  | objectAppend (i : ℕ) (key : Bytes) (value : V) (copyKey : Bool)
  | arrayAppend (i : ℕ) (value : V)
  | reserve (i : ℕ) (isObject : Bool) (count : ℕ)
  | storeString (text : Bytes)

def Doc.step (d : Doc V) : Op V → Option (Doc V)
  | .newContainer isObject reserve => some (d.newContainer isObject reserve)
  | .objectAppend i key value copyKey => d.objectAppend i key value copyKey
  | .arrayAppend i value => d.arrayAppend i value
  | .reserve i isObject count => d.reserve i isObject count
  | .storeString text => some (d.storeString text).2

def run (ops : List (Op V)) : Option (Doc V) := ops.foldlM Doc.step {}

/-- A container and what was appended to it; the elements of an array have no key. -/
abbrev Appended (V : Type) := Bool × List (Bytes × V)

/-- One more entry of a container that exists and is of the kind. -/
def addEntry (m : List (Appended V)) (i : ℕ) (isObject : Bool) (entry : Bytes × V) : Option (List (Appended V)) := do
  let c ← m[i]?
  if c.1 ≠ isObject then none else some (m.set i (isObject, c.2 ++ [entry]))

/-- What was appended to the containers, after one more call. -/
def appendedStep (m : List (Appended V)) : Op V → Option (List (Appended V))
  | .newContainer isObject _ => some (m ++ [(isObject, [])])
  | .objectAppend i key value _ => addEntry m i true (key, value)
  | .arrayAppend i value => addEntry m i false ([], value)
  | .reserve i isObject _ => if (m[i]?.map Prod.fst) = some isObject then some m else none
  | .storeString _ => some m

/-- What was appended to the containers of a run; none if a call is for a container that does not exist or is of the other
kind. -/
def appended (ops : List (Op V)) : Option (List (Appended V)) := ops.foldlM appendedStep []

end NeForce.Json
