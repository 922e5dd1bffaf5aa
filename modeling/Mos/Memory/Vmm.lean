import Mos.Memory.Heap
import Mos.Memory.Pmm

namespace Mos.Vmm
open Machine Memory

/-- The physical memory, the directory the processor walks, and what the memory
managers keep. `maps` and `requests` record the calls of `vmm_map_address` and of
`pmm_alloc_blocks` with its result, the last one first; nothing reads them. -/
structure Kernel where
  phys : Bytes
  cr3 : UInt32
  currentDir : UInt32
  pmm : Pmm
  kernelHeapCurrent : UInt32
  kernelRemainingFromLastUsed : UInt32
  maps : List (UInt32 × UInt32) := []
  requests : List (UInt32 × UInt32) := []

def pageTableBase : UInt32 := 0xFFC00000

def getPageDirectoryIndex (x : UInt32) : UInt32 := (x >>> 22) &&& 0x3ff

def getPageTableEntryIndex (x : UInt32) : UInt32 := (x >>> 12) &&& 0x3ff

def isPageEnabled (x : UInt32) : Bool := x &&& 1 != 0

def i86PtePresent : UInt32 := 1
def i86PteWritable : UInt32 := 2

def frameOf (entry : UInt32) : Nat := entry.toNat / 4096 * 4096

namespace Kernel
variable (m : Kernel)

def translate (va : UInt32) : Option Nat :=
  let pde := m.phys.word (frameOf m.cr3 + 4 * (va.toNat / 4194304))
  if isPageEnabled pde then
    let pte := m.phys.word (frameOf pde + 4 * (va.toNat / 4096 % 1024))
    if isPageEnabled pte then some (frameOf pte + va.toNat % 4096) else none
  else none

/-- Accesses of the kernel. Its words are aligned, so that none crosses a page. -/
def load (va : UInt32) : Except Halt UInt32 :=
  match m.translate va with
  | some pa => pure (m.phys.word pa)
  | none => throw .fault

def store (va v : UInt32) : Except Halt Kernel :=
  match m.translate va with
  | some pa => pure { m with phys := m.phys.setWord pa v }
  | none => throw .fault

def storeByte (va : UInt32) (v : UInt8) : Except Halt Kernel :=
  match m.translate va with
  | some pa => pure { m with phys := m.phys.setByte pa v }
  | none => throw .fault

end Kernel

def memset (m : Kernel) (dest : UInt32) (v : UInt8) : Nat → Except Halt Kernel
  | 0 => pure m
  | n + 1 => do
    let m ← m.storeByte dest v
    memset m (dest + 1) v n

/-- `table[index]` of the page table for `virt`, in the window that entry 1023 opens. -/
def tableEntry (virt : UInt32) : UInt32 :=
  pageTableBase + getPageDirectoryIndex virt * pmmFrameSize + 4 * getPageTableEntryIndex virt

def vmmCreatePageTable (m : Kernel) (vaDir virt flags : UInt32) : Except Halt Kernel := do
  let entry := vaDir + 4 * getPageDirectoryIndex virt
  if isPageEnabled (← m.load entry) then pure m
  else
    let (pmm, paTable) := pmmAllocBlock m.pmm
    let m := { m with pmm }
    let m ← m.store entry (paTable ||| flags)
    memset m (pageTableBase + getPageDirectoryIndex virt * pmmFrameSize) 0 4096

/-- `if (!is_page_enabled(va_dir->m_entries[..])) vmm_create_page_table(..)`. -/
def ensurePageTable (m : Kernel) (vaDir virt flags : UInt32) : Except Halt Kernel := do
  if isPageEnabled (← m.load (vaDir + 4 * getPageDirectoryIndex virt)) then pure m
  else vmmCreatePageTable m vaDir virt flags

def vmmMapAddress (m : Kernel) (vaDir virt phys flags : UInt32) : Except Halt Kernel := do
  let m := { m with maps := (virt, phys) :: m.maps }
  let m ← ensurePageTable m vaDir virt flags
  m.store (tableEntry virt) (phys ||| flags)

def vmmUnmapAddress (m : Kernel) (vaDir virt : UInt32) : Except Halt Kernel := do
  if isPageEnabled (← m.load (vaDir + 4 * getPageDirectoryIndex virt)) then
    if isPageEnabled (← m.load (tableEntry virt)) then m.store (tableEntry virt) 0 else pure m
  else pure m

def vmmGetPhysicalAddress (m : Kernel) (vaddr : UInt32) (isPage : Bool) : Except Halt UInt32 := do
  let paddr ← m.load (tableEntry vaddr)
  pure (if isPage then paddr else (paddr &&& ~~~0xfff) ||| (vaddr &&& 0xfff))

/-- The loop of `sbrk` over the pages below `limit`, and the page it ends at. No page
comes twice in `2 ^ 20` rounds. -/
def mapPages (m : Kernel) (limit : UInt32) : Nat → UInt32 → UInt32 → Except Halt (Kernel × UInt32)
  | 0, _, _ => throw .loops
  | rounds + 1, page, phys =>
    if page < limit then do
      let m ← vmmMapAddress m m.currentDir page phys (i86PtePresent ||| i86PteWritable)
      mapPages m limit rounds (page + pmmFrameSize) (phys + pmmFrameSize)
    else pure (m, page)

def extendHeap (m : Kernel) (n : UInt32) : Except Halt Kernel :=
  if n ≤ m.kernelRemainingFromLastUsed then
    pure { m with kernelRemainingFromLastUsed := m.kernelRemainingFromLastUsed - n }
  else do
    let size := divCeil (n - m.kernelRemainingFromLastUsed) pmmFrameSize
    let (pmm, physicalAddr) := pmmAllocBlocks m.pmm size
    let m := { m with pmm, requests := (size, physicalAddr) :: m.requests }
    let limit := m.kernelHeapCurrent + n
    let (m, page) ← mapPages m limit (2 ^ 20 + 1)
      (divCeil m.kernelHeapCurrent pmmFrameSize * pmmFrameSize) physicalAddr
    pure { m with kernelRemainingFromLastUsed := page - limit }

def sbrk (m : Kernel) (n : UInt32) : Except Halt (Kernel × UInt32) :=
  if n = 0 then pure (m, m.kernelHeapCurrent)
  else do
    let base := m.kernelHeapCurrent
    let m ← extendHeap m n
    let m := { m with kernelHeapCurrent := m.kernelHeapCurrent + n }
    let m ← memset m base 0 n.toNat
    pure (m, base)

/-- A call of `sbrk`: what it returned, its argument, and the requests and mappings
it made. -/
structure Extension where
  base : UInt32
  n : UInt32
  requests : List (UInt32 × UInt32)
  maps : List (UInt32 × UInt32)
  deriving DecidableEq, Repr

structure Growth where
  kernel : Kernel
  calls : List Extension := []

def sbrkStep (s : Growth) (n : UInt32) : Option Growth :=
  match sbrk { s.kernel with maps := [], requests := [] } n with
  | .ok (m, base) => some ⟨m, s.calls ++ [⟨base, n, m.requests, m.maps.reverse⟩]⟩
  | .error _ => none

end Mos.Vmm
