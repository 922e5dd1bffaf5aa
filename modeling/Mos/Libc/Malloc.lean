import Mos.Machine.Align
import Mos.Machine.Bytes
import Mos.Machine.Run

namespace Mos.UserHeap
open Machine

/-- Why a call does not return: an assertion, a loop that goes on forever, or a break that the
address space has no room for. -/
inductive Halt where
  | assertNotReached
  | loops
  | noMemory
  deriving DecidableEq, Repr

def blockMagic : UInt32 := 0x464E

def upperLimit : UInt32 := 0x2000000

/-- `sizeof(struct block_meta)`: `size` at offset 0, `next` at 4, `free` at 8 and
`magic` at 12. -/
def sizeofBlockMeta : UInt32 := 16

/-- No loop over pointers makes more rounds without seeing one of them again. -/
def pointers : Nat := 2 ^ 32

/-- The memory of a program, the break that the kernel keeps for it, and the static variables
of `malloc.c`; `remaining` is `user_remaining_from_last_used`. -/
structure Heap where
  mem : Bytes
  brk : UInt32
  userHeapCurrent : UInt32 := 0
  remaining : UInt32 := 0
  blocklist : UInt32 := 0

/-- `sbrk`: the break moves to the sum, rounded up to a page, and the old one is returned. -/
def sbrk (h : Heap) (increment : UInt32) : Except Halt (UInt32 × Heap) :=
  if h.brk.toNat + increment.toNat + 4095 < 2 ^ 32 then
    pure (h.brk, { h with brk := alignUp (h.brk + increment) 4096 })
  else throw .noMemory

def assertBlockValid (m : Bytes) (block : UInt32) : Except Halt Unit :=
  if m.word (block + 12).toNat ≠ blockMagic ∨ upperLimit < m.word block.toNat then
    throw .assertNotReached
  else pure ()

def assertNextValid (m : Bytes) (next : UInt32) : Except Halt Unit :=
  if next ≠ 0 then assertBlockValid m next else pure ()

/-- `find_free_block`: the block it returns and the `last` it leaves behind, after at most the
given number of rounds. -/
def findFreeBlock (m : Bytes) (size : UInt32) :
    Nat → UInt32 → UInt32 → Except Halt (UInt32 × UInt32)
  | 0, _, _ => throw .loops
  | rounds + 1, current, last =>
    if current ≠ 0 ∧ ¬(m (current + 8).toNat ≠ 0 ∧ size ≤ m.word current.toNat) then do
      let next := m.word (current + 4).toNat
      assertNextValid m next
      findFreeBlock m size rounds next current
    else pure (current, last)

def splitBlock (m : Bytes) (block size : UInt32) : Bytes :=
  let held := m.word block.toNat
  if size + sizeofBlockMeta < held then
    let splited := block + size + sizeofBlockMeta
    let m := m.setByte (splited + 8).toNat 1
    let m := m.setWord (splited + 12).toNat blockMagic
    let m := m.setWord splited.toNat (held - size - sizeofBlockMeta)
    let m := m.setWord (splited + 4).toNat (m.word (block + 4).toNat)
    let m := m.setWord block.toNat size
    m.setWord (block + 4).toNat splited
  else m

def initHeap (h : Heap) : Except Halt Heap :=
  if h.userHeapCurrent = 0 then do
    let (brk, h) ← sbrk h 0
    pure { h with userHeapCurrent := brk }
  else pure h

def getHeap (h : Heap) (size : UInt32) : Except Halt (UInt32 × Heap) := do
  let h ← initHeap h
  let heapBase := h.userHeapCurrent
  if size ≤ h.remaining then
    pure (heapBase, { h with
      remaining := h.remaining - size
      userHeapCurrent := h.userHeapCurrent + size })
  else do
    let (_, h) ← sbrk h size
    let (brk, h) ← sbrk h 0
    pure (heapBase, { h with
      remaining := brk - (h.userHeapCurrent + size)
      userHeapCurrent := h.userHeapCurrent + size })

def putHeader (m : Bytes) (block size : UInt32) : Bytes :=
  let m := m.setWord block.toNat size
  let m := m.setWord (block + 4).toNat 0
  let m := m.setByte (block + 8).toNat 0
  m.setWord (block + 12).toNat blockMagic

def requestSpace (h : Heap) (last size : UInt32) : Except Halt (UInt32 × Heap) := do
  let (block, h) ← getHeap h (size + sizeofBlockMeta)
  let m := if last ≠ 0 then h.mem.setWord (last + 4).toNat block else h.mem
  pure (block, { h with mem := putHeader m block size })

/-- The block `malloc` takes for a request that is already aligned. `last` has no value before
`find_free_block` sets it, which it does unless the first block is returned. -/
def takeBlock (h : Heap) (size : UInt32) : Except Halt (UInt32 × Heap) :=
  if h.blocklist ≠ 0 then do
    let (block, last) ← findFreeBlock h.mem size pointers h.blocklist 0
    if block ≠ 0 then
      pure (block, { h with mem := splitBlock (h.mem.setByte (block + 8).toNat 0) block size })
    else requestSpace h last size
  else do
    let (block, h) ← requestSpace h 0 size
    pure (block, { h with blocklist := block })

def malloc (h : Heap) (size : UInt32) : Except Halt (UInt32 × Heap) :=
  if size = 0 then pure (0, h)
  else do
    let (block, h) ← takeBlock h (alignUp size 4)
    assertBlockValid h.mem block
    if block ≠ 0 then pure (block + sizeofBlockMeta, h) else pure (0, h)

def calloc (h : Heap) (n size : UInt32) : Except Halt (UInt32 × Heap) := do
  let (block, h) ← malloc h (n * size)
  if block ≠ 0 then pure (block, { h with mem := h.mem.fill block.toNat (n * size).toNat 0 })
  else pure (block, h)

def getBlockPtr (ptr : UInt32) : UInt32 := ptr - sizeofBlockMeta

def free (h : Heap) (ptr : UInt32) : Heap :=
  if ptr = 0 then h
  else { h with mem := h.mem.setByte (getBlockPtr ptr + 8).toNat 1 }

structure Live where
  ptr : UInt32
  requested : Nat
  deriving DecidableEq, Repr

structure Program where
  heap : Heap
  live : List Live := []

inductive Call where
  | malloc (size : UInt32)
  | calloc (n size : UInt32)
  | free (ptr : UInt32)
  | write (addr : UInt32) (v : UInt8)
  deriving DecidableEq, Repr

def Call.allowed (s : Program) : Call → Bool
  | .malloc size => decide (size.toNat ≤ 0x2000000)
  | .calloc n size => decide (n.toNat * size.toNat ≤ 0x2000000)
  | .free ptr => s.live.any fun v => v.ptr = ptr
  | .write addr _ => s.live.any fun v =>
      decide (v.ptr ≤ addr) && decide (addr.toNat < v.ptr.toNat + v.requested)

def Program.grant (s : Program) (requested : Nat) (r : UInt32 × Heap) : Program :=
  ⟨r.2, if r.1 = 0 then s.live else ⟨r.1, requested⟩ :: s.live⟩

def perform (s : Program) : Call → Except Halt Program
  | .malloc size => (malloc s.heap size).map (s.grant size.toNat)
  | .calloc n size => (calloc s.heap n size).map (s.grant (n.toNat * size.toNat))
  | .free ptr => pure ⟨free s.heap ptr, s.live.filter fun v => v.ptr ≠ ptr⟩
  | .write addr v =>
    pure { s with heap := { s.heap with mem := s.heap.mem.setByte addr.toNat v } }

def step (s : Program) (c : Call) : Option Program :=
  if c.allowed s then (perform s c).toOption else none

def start (mem : Bytes) (brk : UInt32) : Program := ⟨{ mem, brk }, []⟩

end Mos.UserHeap
