import Mos.Machine.Align
import Mos.Machine.Bitmap

namespace Mos.Memory
open Machine

/-- The state of the physical memory manager. `max_frames` is `div_ceil(memory_size,
PMM_FRAME_SIZE)` of a 32-bit `memory_size`. -/
structure Pmm where
  bitmap : Words
  maxFrames : UInt32
  usedFrames : UInt32
  bounded : maxFrames ≤ 0x100000 := by decide

def pmmFrameSize : UInt32 := 4096

def memoryBitmapSet (b : Words) (frame : UInt32) : Words := b.set frame.toNat

def memoryBitmapUnset (b : Words) (frame : UInt32) : Words := b.unset frame.toNat

def memoryBitmapTest (b : Words) (frame : UInt32) : Bool := b.test frame.toNat

def memoryBitmapFirstFree (p : Pmm) : Option Nat :=
  p.bitmap.scan (p.maxFrames / 32).toNat fun _ => true

/-- The innermost loop of `memory_bitmap_first_frees`: `free == size` is reached
within the given number of rounds. -/
def countFrees (b : Words) (startingBit size : UInt32) : Nat → UInt32 → UInt32 → Bool
  | 0, _, _ => false
  | rounds + 1, count, free =>
    let free := if memoryBitmapTest b (startingBit + count) then free else free + 1
    if free = size then true else countFrees b startingBit size rounds (count + 1) free

/-- The rounds of `for (count = 0; count <= size; count++)`. No `count` exceeds
`0xffffffff`; that loop goes on until `free`, which grows once in `2 ^ 32` rounds
at least, has reached `size`. -/
def countRounds (size : UInt32) : Nat := if size = 0xffffffff then 2 ^ 64 else size.toNat + 1

def memoryBitmapFirstFrees (p : Pmm) (size : UInt32) : Option Nat :=
  if size = 0 then none
  else if size = 1 then memoryBitmapFirstFree p
  else p.bitmap.scan (p.maxFrames / 32).toNat fun frame =>
    countFrees p.bitmap (UInt32.ofNat frame) size (countRounds size) 0 0

def pmmAllocBlock (p : Pmm) : Pmm × UInt32 :=
  if p.maxFrames ≤ p.usedFrames then (p, 0)
  else
    match memoryBitmapFirstFree p with
    | none => (p, 0)
    | some frame =>
      ({ p with
          bitmap := memoryBitmapSet p.bitmap (UInt32.ofNat frame)
          usedFrames := p.usedFrames + 1 },
        UInt32.ofNat frame * pmmFrameSize)

def pmmAllocBlocks (p : Pmm) (size : UInt32) : Pmm × UInt32 :=
  if p.maxFrames - p.usedFrames < size then (p, 0)
  else
    match memoryBitmapFirstFrees p size with
    | none => (p, 0)
    | some frame =>
      ({ p with
          bitmap := (List.range size.toNat).foldl
            (fun b i => memoryBitmapSet b (UInt32.ofNat frame + UInt32.ofNat i)) p.bitmap
          usedFrames := p.usedFrames + size },
        UInt32.ofNat frame * pmmFrameSize)

def pmmFreeBlock (p : Pmm) (addr : UInt32) : Pmm :=
  { p with
    bitmap := memoryBitmapUnset p.bitmap (addr / pmmFrameSize)
    usedFrames := p.usedFrames - 1 }

def pmmMarkUsedAddr (p : Pmm) (paddr : UInt32) : Pmm :=
  let frame := paddr / pmmFrameSize
  if memoryBitmapTest p.bitmap frame then p
  else
    { p with
      bitmap := memoryBitmapSet p.bitmap frame
      usedFrames := p.usedFrames + 1 }

def pmmInitRegion (p : Pmm) (addr length : UInt32) : Pmm :=
  let frame := addr / pmmFrameSize
  let frames := divCeil length pmmFrameSize
  { p with
    bitmap := memoryBitmapSet ((List.range frames.toNat).foldl
      (fun b i => memoryBitmapUnset b (frame + UInt32.ofNat i)) p.bitmap) 0
    usedFrames := p.usedFrames - frames }

def pmmDeinitRegion (p : Pmm) (addr length : UInt32) : Pmm :=
  let frame := addr / pmmFrameSize
  let frames := divCeil length pmmFrameSize
  { p with
    bitmap := (List.range frames.toNat).foldl
      (fun b i => memoryBitmapSet b (frame + UInt32.ofNat i)) p.bitmap
    usedFrames := p.usedFrames + frames }

structure MmapEntry where
  addr : UInt64
  len : UInt64
  type : UInt32
  deriving DecidableEq, Repr

/-- `pmm_regions`; the arguments of `pmm_init_region` are cut to 32 bits. -/
def pmmRegions (p : Pmm) : List MmapEntry → Pmm
  | [] => p
  | mmap :: rest =>
    if 4 < mmap.type ∧ mmap.addr = 0 then p
    else if mmap.type = 1 then
      pmmRegions (pmmInitRegion p mmap.addr.toUInt32 mmap.len.toUInt32) rest
    else pmmRegions p rest

def kernelBoot : UInt32 := 0x00100000

def kernelStart : UInt32 := 0xC0100000

def pmmMaxFrames (memLower memUpper : UInt32) : UInt32 :=
  divCeil ((memLower + memUpper) * 1024) pmmFrameSize

theorem pmmMaxFrames_le (memLower memUpper : UInt32) : pmmMaxFrames memLower memUpper ≤ 0x100000 := by
  have hs := ((memLower + memUpper) * 1024).toNat_lt
  have hd := divCeil_toNat ((memLower + memUpper) * 1024) (y := pmmFrameSize) (by decide)
  rw [show pmmFrameSize.toNat = 4096 from rfl] at hd
  rw [UInt32.le_iff_toNat_le, pmmMaxFrames, hd]
  change _ ≤ 1048576
  omega

/-- `pmm_init`. The bitmap is in memory behind the kernel, which ends at `kernelEnd`,
and has what is there when the kernel starts. -/
def pmmInit (memory : Words) (kernelEnd memLower memUpper : UInt32) (mmap : List MmapEntry) : Pmm :=
  let maxFrames := pmmMaxFrames memLower memUpper
  let memoryBitmapSize := divCeil maxFrames 8
  let p : Pmm :=
    { bitmap := memory.fillBytes memoryBitmapSize.toNat
      maxFrames
      usedFrames := maxFrames
      bounded := pmmMaxFrames_le memLower memUpper }
  let p := pmmRegions p mmap
  let p := pmmDeinitRegion p 0 kernelBoot
  pmmDeinitRegion p kernelBoot (kernelEnd - kernelStart + memoryBitmapSize)

inductive Request where
  | allocBlock
  | allocBlocks (size : UInt32)
  | freeBlock (addr : UInt32)
  deriving DecidableEq, Repr

/-- The memory manager and the allocations its callers hold, each with the frames
of it that are still outstanding. -/
structure Frames where
  pmm : Pmm
  held : List (List Nat) := []

def grant (held : List (List Nat)) (addr size : UInt32) : List (List Nat) :=
  if addr = 0 then held else List.range' (addr / pmmFrameSize).toNat size.toNat :: held

def release (frame : Nat) : List (List Nat) → List (List Nat)
  | [] => []
  | a :: rest => if frame ∈ a then a.erase frame :: rest else a :: release frame rest

def serve (s : Frames) : Request → Option Frames
  | .allocBlock => some ⟨(pmmAllocBlock s.pmm).1, grant s.held (pmmAllocBlock s.pmm).2 1⟩
  | .allocBlocks size =>
    some ⟨(pmmAllocBlocks s.pmm size).1, grant s.held (pmmAllocBlocks s.pmm size).2 size⟩
  | .freeBlock addr =>
    let frame := (addr / pmmFrameSize).toNat
    if frame ∈ s.held.flatten then some ⟨pmmFreeBlock s.pmm addr, release frame s.held⟩ else none

inductive FrameCall where
  | request (e : Request)
  | markUsedAddr (paddr : UInt32)
  deriving DecidableEq, Repr

def frameStep (s : Frames) : FrameCall → Option Frames
  | .request e => serve s e
  | .markUsedAddr paddr => some { s with pmm := pmmMarkUsedAddr s.pmm paddr }

end Mos.Memory
