import Sylar.Lib.Method
import Sylar.Lib.Blocks

/-!
# `ByteArray`: a byte buffer kept as a chain of nodes

The chain that starts at `m_root` is the list `nodes`, and a `Node*` into it is
an index, with `none` for `nullptr`. Following a null pointer and copying
outside a node's block are failures of the model, beside the
`std::out_of_range` the code throws itself.

Sizes are natural numbers. The source computes the number of new nodes with
`ceil(1.0 * size / m_baseSize)`, which is the exact ceiling below `2^53`.
-/

namespace Sylar.Net

open Sylar.Lib Sylar.Lib.Blocks

/-- `ByteArray::Node`: a block and the size recorded for it. -/
structure Node where
  ptr : List UInt8
  size : Nat
  deriving DecidableEq, Repr

/-- `SYLAR_LITTLE_ENDIAN` and `SYLAR_BIG_ENDIAN`. -/
inductive Endian where
  | little
  | big
  deriving DecidableEq, Repr

/-- What stops a call: the exception of the code, a null node, a copy outside a
node, a store outside a local array. -/
inductive Failure where
  | outOfRange (what : String)
  | nullNode
  | outsideNode
  | outsideArray
  deriving DecidableEq, Repr

/-- The state of a `ByteArray`. The field `allocated` counts the nodes
allocated so far, which lets every new block hold different old memory. -/
structure ByteArray where
  baseSize : Nat
  position : Nat
  capacity : Nat
  size : Nat
  endian : Endian
  nodes : List Node
  cur : Option Nat
  allocated : Nat
  deriving DecidableEq, Repr

/-- A piece of one node that a loop of the source copies in one `memcpy`. -/
structure Span where
  node : Nat
  offset : Nat
  length : Nat
  deriving DecidableEq, Repr

/-- `new Node(s)`: the bytes of the block are whatever the memory held. -/
def Node.new (old : Nat → UInt8) (s : Nat) : Node := ⟨(List.range s).map old, s⟩

namespace ByteArray

variable (fresh : Nat → Nat → UInt8)

/-- The constructor. Block number `k` of this object starts with the bytes `fresh k`. -/
def new (baseSize : Nat) : ByteArray where
  baseSize := baseSize
  position := 0
  capacity := baseSize
  size := 0
  endian := .big
  nodes := [Node.new (fresh 0) baseSize]
  cur := some 0
  allocated := 1

def getSize (s : ByteArray) : Nat := s.size
def getPosition (s : ByteArray) : Nat := s.position
def getReadSize (s : ByteArray) : Nat := s.size - s.position
def getCapacity (s : ByteArray) : Nat := s.capacity - s.position
def isLittleEndian (s : ByteArray) : Bool := s.endian = .little

/-- The node a pointer leads to. -/
def deref (nodes : List Node) (cur : Option Nat) : Except Failure (Nat × Node) :=
  match cur with
  | none => .error .nullNode
  | some i =>
      match nodes[i]? with
      | none => .error .nullNode
      | some node => .ok (i, node)

/-- `next` of the node with index `i`, where `rest` is the chain after it. -/
def next (rest : List Node) (i : Nat) : Option Nat :=
  match rest with
  | [] => none
  | _ :: _ => some (i + 1)

/-- The loop that `write`, `read` and the `iovec` getters share: it starts in
the first node of the given chain, at `npos`, with `ncap` bytes left in that
node, and goes through `size` bytes. It returns the pieces and the cursor. -/
def spans : List Node → Nat → Nat → Nat → Nat → Except Failure (List Span × Option Nat)
  | [], _, _, _, _ => .error .nullNode
  | node :: rest, i, npos, ncap, size =>
      if size = 0 then .ok ([], some i)
      else if size ≤ ncap then
        .ok ([⟨i, npos, size⟩], if node.size = npos + size then next rest i else some i)
      else
        match rest with
        | [] => .error .nullNode
        | after :: _ => do
            let (sps, last) ← spans rest (i + 1) 0 after.size (size - ncap)
            .ok (⟨i, npos, ncap⟩ :: sps, last)

/-- The pieces that hold `size` bytes from `position` on, when `cur` points to
the node to start in. -/
def walk (s : ByteArray) (cur : Option Nat) (position size : Nat) :
    Except Failure (List Span × Option Nat) := do
  let npos := position % s.baseSize
  let (i, node) ← deref s.nodes cur
  let ncap := node.size - npos
  spans (s.nodes.drop i) i npos ncap size

/-- `memcpy(node->ptr + offset, bytes, length)`. -/
def store (nodes : List Node) (sp : Span) (bytes : List UInt8) : Except Failure (List Node) := do
  let (i, node) ← deref nodes (some sp.node)
  if sp.offset + bytes.length ≤ node.ptr.length then
    .ok (nodes.set i { node with ptr := overwrite node.ptr sp.offset bytes })
  else
    .error .outsideNode

def storeAll : List Node → List Span → List UInt8 → Except Failure (List Node)
  | nodes, [], _ => .ok nodes
  | nodes, sp :: sps, buf => do
      let nodes ← store nodes sp (buf.take sp.length)
      storeAll nodes sps (buf.drop sp.length)

/-- `memcpy(buf, node->ptr + offset, length)`. -/
def load (nodes : List Node) (sp : Span) : Except Failure (List UInt8) := do
  let (_, node) ← deref nodes (some sp.node)
  if sp.offset + sp.length ≤ node.ptr.length then
    .ok ((node.ptr.drop sp.offset).take sp.length)
  else
    .error .outsideNode

def loadAll (nodes : List Node) : List Span → Except Failure (List UInt8)
  | [] => .ok []
  | sp :: sps => do
      let bytes ← load nodes sp
      let rest ← loadAll nodes sps
      .ok (bytes ++ rest)

/-- `ceil(1.0 * size / m_baseSize)`. -/
def nodeCount (size baseSize : Nat) : Nat := (size + baseSize - 1) / baseSize

/-- The `count` nodes that the loop of `addCapacity` appends. -/
def newNodes (allocated count baseSize : Nat) : List Node :=
  (List.range count).map fun k => Node.new (fresh (allocated + k)) baseSize

def addCapacity (size : Nat) : Method ByteArray Failure Unit := do
  if size = 0 then
    return
  let s ← get
  let oldCap := s.getCapacity
  if oldCap ≥ size then
    return
  let count := nodeCount (size - oldCap) s.baseSize
  let first := if count = 0 then none else some s.nodes.length
  let _ ← Method.lift (deref s.nodes (some 0))
  set { s with
    nodes := s.nodes ++ newNodes fresh s.allocated count s.baseSize
    capacity := s.capacity + count * s.baseSize
    cur := if oldCap = 0 then first else s.cur
    allocated := s.allocated + count }

def write (buf : List UInt8) : Method ByteArray Failure Unit := do
  if buf.length = 0 then
    return
  addCapacity fresh buf.length
  let s ← get
  let (sps, last) ← Method.lift (walk s s.cur s.position buf.length)
  let nodes ← Method.lift (storeAll s.nodes sps buf)
  let position := s.position + buf.length
  set { s with
    nodes := nodes
    cur := last
    position := position
    size := if position > s.size then position else s.size }

def read (size : Nat) : Method ByteArray Failure (List UInt8) := do
  let s ← get
  if size > s.getReadSize then
    throw (.outOfRange "not enougth len")
  let (sps, last) ← Method.lift (walk s s.cur s.position size)
  let bytes ← Method.lift (loadAll s.nodes sps)
  set { s with cur := last, position := s.position + size }
  return bytes

/-- The loop of `setPosition`, from the node with index `i` on. -/
def seek : List Node → Nat → Nat → Except Failure (Option Nat)
  | [], _, _ => .error .nullNode
  | node :: rest, i, v =>
      if v > node.size then seek rest (i + 1) (v - node.size)
      else if v = node.size then .ok (next rest i)
      else .ok (some i)

def setPosition (v : Nat) : Method ByteArray Failure Unit := do
  let s ← get
  if v > s.capacity then
    throw (.outOfRange "setPosition out of range")
  set { s with position := v, size := if v > s.size then v else s.size }
  let cur ← Method.lift (seek s.nodes 0 v)
  modify fun s => { s with cur := cur }

def clear : Method ByteArray Failure Unit := do
  let s ← get
  let _ ← Method.lift (deref s.nodes (some 0))
  set { s with
    position := 0
    size := 0
    capacity := s.baseSize
    nodes := s.nodes.take 1
    cur := some 0 }

def setIsLittleEndian (val : Bool) : Method ByteArray Failure Unit :=
  modify fun s => { s with endian := if val then .little else .big }

end ByteArray

end Sylar.Net
