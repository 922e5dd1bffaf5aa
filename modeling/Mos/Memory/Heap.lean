import Mos.Machine.Align
import Mos.Machine.Bytes
import Mos.Machine.Run

namespace Mos.Memory
open Machine

/-- Why a call of the kernel does not return: an assertion, a page fault, a loop
that goes on forever, or the end of the memory. -/
inductive Halt where
  | assertNotReached
  | fault
  | loops
  | noMemory
  deriving DecidableEq, Repr

/-- What the kernel heap is written against: the virtual memory of the kernel and
its break. -/
class KernelMemory (σ : Type) where
  load : σ → UInt32 → Except Halt UInt32
  loadByte : σ → UInt32 → Except Halt UInt8
  store : σ → UInt32 → UInt32 → Except Halt σ
  storeByte : σ → UInt32 → UInt8 → Except Halt σ
  memset : σ → UInt32 → UInt8 → UInt32 → Except Halt σ
  sbrk : σ → UInt32 → Except Halt (σ × UInt32)

open KernelMemory

def kernelHeapTop : UInt32 := 0xF0000000
def kernelHeapBottom : UInt32 := 0xD0000000

def blockMagic : UInt32 := 0x464E

/-- `sizeof(struct block_meta)`: `size` at offset 0, `next` at 4, `free` at 8 and
`magic` at 12. -/
def sizeofBlockMeta : UInt32 := 16

/-- No loop over pointers makes more rounds without seeing one of them again. -/
def pointers : Nat := 2 ^ 32

section
variable {σ : Type} [KernelMemory σ]

def assertKblockValid (s : σ) (block : UInt32) : Except Halt Unit := do
  let magic ← load s (block + 12)
  let size ← load s block
  if magic ≠ blockMagic ∨ 0x2000000 < size then throw .assertNotReached

/-- `find_free_block`: the block it returns and the `last` it leaves behind, after
at most the given number of rounds. -/
def findFreeBlock (s : σ) (size : UInt32) : Nat → UInt32 → UInt32 → Except Halt (UInt32 × UInt32)
  | 0, _, _ => throw .loops
  | rounds + 1, current, last =>
    if current = 0 then pure (0, last)
    else do
      let free ← loadByte s (current + 8)
      let held ← load s current
      if free ≠ 0 ∧ size ≤ held then pure (current, last)
      else do
        assertKblockValid s current
        let next ← load s (current + 4)
        if next ≠ 0 then assertKblockValid s next
        findFreeBlock s size rounds next current

def splitBlock (s : σ) (block size : UInt32) : Except Halt σ := do
  let held ← load s block
  if size + sizeofBlockMeta < held then
    let splited := block + sizeofBlockMeta + size
    let s ← storeByte s (splited + 8) 1
    let s ← store s (splited + 12) blockMagic
    let s ← store s splited (held - size - sizeofBlockMeta)
    let s ← store s (splited + 4) (← load s (block + 4))
    let s ← store s block size
    store s (block + 4) splited
  else pure s

def linkBehind (s : σ) (last block : UInt32) : Except Halt σ :=
  if last ≠ 0 then store s (last + 4) block else pure s

def requestSpace (s : σ) (last size : UInt32) : Except Halt (σ × UInt32) := do
  let (s, block) ← sbrk s (size + sizeofBlockMeta)
  let s ← linkBehind s last block
  let s ← store s block size
  let s ← store s (block + 4) 0
  let s ← storeByte s (block + 8) 0
  let s ← store s (block + 12) blockMagic
  pure (s, block)

structure Kheap (σ : Type) where
  ram : σ
  kblocklist : UInt32

def takeBlock (h : Kheap σ) (size : UInt32) : Except Halt (Kheap σ × UInt32) :=
  if h.kblocklist ≠ 0 then do
    let (block, last) ← findFreeBlock h.ram size pointers h.kblocklist h.kblocklist
    if block ≠ 0 then do
      let s ← storeByte h.ram (block + 8) 0
      let s ← splitBlock s block size
      pure (⟨s, h.kblocklist⟩, block)
    else do
      let (s, block) ← requestSpace h.ram last size
      pure (⟨s, h.kblocklist⟩, block)
  else do
    let (s, block) ← requestSpace h.ram 0 size
    pure (⟨s, block⟩, block)

def kmalloc (h : Kheap σ) (size : UInt32) : Except Halt (Kheap σ × UInt32) :=
  if size = 0 then pure (h, 0)
  else do
    let (h, block) ← takeBlock h (alignUp size 4)
    assertKblockValid h.ram block
    if block ≠ 0 then pure (h, block + sizeofBlockMeta) else pure (h, 0)

def kcalloc (h : Kheap σ) (n size : UInt32) : Except Halt (Kheap σ × UInt32) := do
  let (h, block) ← kmalloc h (n * size)
  if block ≠ 0 then do
    let s ← memset h.ram block 0 (n * size)
    pure ({ h with ram := s }, block)
  else pure (h, block)

def getBlockPtr (ptr : UInt32) : UInt32 := ptr - sizeofBlockMeta

def kfree (h : Kheap σ) (ptr : UInt32) : Except Halt (Kheap σ) :=
  if ptr = 0 then pure h
  else do
    let block := getBlockPtr ptr
    assertKblockValid h.ram block
    let s ← storeByte h.ram (block + 8) 1
    pure { h with ram := s }

/-- The loop of `kalign_heap` that looks for the last block, with its test as the
source has it: it stops at a block that has a successor. -/
def alignLast (s : σ) : Nat → UInt32 → Except Halt UInt32
  | 0, _ => throw .loops
  | rounds + 1, last => do
    let next ← load s (last + 4)
    if next ≠ 0 then pure last else alignLast s rounds next

def alignPadding (h : Kheap σ) (size : UInt32) : Nat → UInt32 → Except Halt (Kheap σ × UInt32)
  | 0, _ => throw .loops
  | rounds + 1, padding =>
    if padding ≤ kernelHeapTop then
      if sizeofBlockMeta * 2 < padding then do
        let last ← alignLast h.ram pointers h.kblocklist
        let (s, block) ← requestSpace h.ram last (padding - sizeofBlockMeta * 2)
        pure ({ h with ram := s }, block + sizeofBlockMeta)
      else alignPadding h size rounds (padding + size)
    else pure (h, 0)

def kalignHeap (h : Kheap σ) (size : UInt32) : Except Halt (Kheap σ × UInt32) := do
  let (s, addr) ← sbrk h.ram 0
  let h := { h with ram := s }
  if addr % size = 0 then pure (h, 0)
  else alignPadding h size pointers (divCeil addr size * size - addr)

end

/-- The kernel heap by itself: only what `sbrk` has handed out can be accessed, and
`sbrk` succeeds until the break would leave the address space. -/
structure Arena where
  mem : Bytes
  kernelHeapCurrent : UInt32

namespace Arena

def holds (s : Arena) (a : UInt32) (n : Nat) : Bool :=
  decide (kernelHeapBottom ≤ a) && decide (a.toNat + n ≤ s.kernelHeapCurrent.toNat)

instance : KernelMemory Arena where
  load s a := if s.holds a 4 then pure (s.mem.word a.toNat) else throw .fault
  loadByte s a := if s.holds a 1 then pure (s.mem a.toNat) else throw .fault
  store s a v :=
    if s.holds a 4 then pure { s with mem := s.mem.setWord a.toNat v } else throw .fault
  storeByte s a v :=
    if s.holds a 1 then pure { s with mem := s.mem.setByte a.toNat v } else throw .fault
  memset s a v n :=
    if s.holds a n.toNat then pure { s with mem := s.mem.fill a.toNat n.toNat v } else throw .fault
  sbrk s n :=
    if s.kernelHeapCurrent.toNat + n.toNat < 2 ^ 32 then
      pure (⟨s.mem.fill s.kernelHeapCurrent.toNat n.toNat 0, s.kernelHeapCurrent + n⟩,
        s.kernelHeapCurrent)
    else throw .noMemory

end Arena

structure Live where
  ptr : UInt32
  requested : Nat
  deriving DecidableEq, Repr

structure Tenancy where
  heap : Kheap Arena
  live : List Live := []

inductive HeapCall where
  | kmalloc (size : UInt32)
  | kcalloc (n size : UInt32)
  | kfree (ptr : UInt32)
  | kalignHeap
  | write (addr : UInt32) (v : UInt8)
  deriving DecidableEq, Repr

def HeapCall.allowed (s : Tenancy) : HeapCall → Bool
  | .kmalloc size => decide (size.toNat ≤ 0x2000000)
  | .kcalloc n size => decide (n.toNat * size.toNat ≤ 0x2000000)
  | .kfree ptr => s.live.any fun v => v.ptr = ptr
  | .kalignHeap => true
  | .write addr _ => s.live.any fun v =>
      decide (v.ptr ≤ addr) && decide (addr.toNat < v.ptr.toNat + v.requested)

def Tenancy.grant (s : Tenancy) (requested : Nat) (r : Kheap Arena × UInt32) : Tenancy :=
  ⟨r.1, if r.2 = 0 then s.live else ⟨r.2, requested⟩ :: s.live⟩

def perform (s : Tenancy) : HeapCall → Except Halt Tenancy
  | .kmalloc size => (kmalloc s.heap size).map (s.grant size.toNat)
  | .kcalloc n size => (kcalloc s.heap n size).map (s.grant (n.toNat * size.toNat))
  | .kfree ptr => (kfree s.heap ptr).map fun h => ⟨h, s.live.filter fun v => v.ptr ≠ ptr⟩
  | .kalignHeap => (kalignHeap s.heap 4096).map (s.grant 0)
  | .write addr v =>
    (storeByte s.heap.ram addr v).map fun ram => { s with heap := { s.heap with ram } }

def heapStep (s : Tenancy) (c : HeapCall) : Option Tenancy :=
  if c.allowed s then (perform s c).toOption else none

def heapStart (mem : Bytes) : Tenancy := ⟨⟨⟨mem, kernelHeapBottom⟩, 0⟩, []⟩

end Mos.Memory
