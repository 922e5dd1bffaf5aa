import Mos.Machine.Bytes
import Mos.Memory.Mmap

namespace Mos.Memory
open Machine

def i86PtePresent : UInt32 := 1
def i86PteWritable : UInt32 := 2
def i86PteUser : UInt32 := 4

/-- The flags that every call of `vmm_map_address` for a process has. -/
def userFlags : UInt32 := i86PtePresent ||| i86PteWritable ||| i86PteUser

/-- The address space of the running process. `table` has the frame that each mapped page is
translated to and `flags` those of its entry, `tables` the entries of the page directory that
are in use and `tableFlags` theirs, and `phys` the bytes of each frame. `frames` are the frames that `pmm_alloc_block` is going to return, and
`areas` the addresses that `kcalloc` is going to return for areas. -/
structure Space where
  mm : Mm
  table : Nat → Option Nat
  tables : Nat → Bool
  phys : Nat → Bytes
  frames : List Nat
  areas : List UInt32
  flags : Nat → UInt32 := fun _ => userFlags
  tableFlags : Nat → UInt32 := fun _ => userFlags

/-- How the kernel stops: it touches an address that is not mapped, an assertion fails, the
walk through a list does not end, or there is no memory for an area. -/
inductive SpaceFault where
  | pageFault
  | assertion
  | endless
  | noMemory
  deriving DecidableEq, Repr

/-- What `pmm_alloc_block` returns, the frame 0 when none is free. -/
def nextFrame (s : Space) : Nat := s.frames.headD 0

def takeFrame (s : Space) : Space := { s with frames := s.frames.tail }

/-- `vmm_create_page_table` for an entry of the directory that is not in use. -/
def createPageTable (s : Space) (entry : Nat) : Space :=
  { takeFrame s with
    tables := Function.update s.tables entry true
    tableFlags := Function.update s.tableFlags entry userFlags
    table := fun page => if page / 1024 = entry then none else s.table page
    flags := fun page => if page / 1024 = entry then 0 else s.flags page
    phys := Function.update s.phys (nextFrame s) fun _ => 0 }

def ensureTable (s : Space) (entry : Nat) : Space :=
  if s.tables entry then s else createPageTable s entry

def mapPage (s : Space) (page : Nat) : Space :=
  let frame := nextFrame s
  let s := ensureTable (takeFrame s) (page / 1024)
  { s with
    table := Function.update s.table page (some frame)
    flags := Function.update s.flags page userFlags }

/-- The loop of `do_mmap` over the pages of an area. The ends of areas are page-aligned, so
that it ends within as many rounds as there are pages. -/
def mapFrom (vmEnd : UInt32) : Nat → Space → UInt32 → Space
  | 0, s, _ => s
  | rounds + 1, s, vaddr =>
    if vaddr < vmEnd then mapFrom vmEnd rounds (mapPage s (vaddr.toNat / 4096)) (vaddr + 4096)
    else s

def mapArea (s : Space) (vma : UInt32) : Space :=
  mapFrom (s.mm.vmEnd vma) (2 ^ 20) s (s.mm.vmStart vma)

def findVma (mm : Mm) (addr : UInt32) : Nat → UInt32 → Option (Option UInt32)
  | 0, _ => none
  | rounds + 1, iter =>
    if iter = mm.mmap then some none
    else if mm.vmStart iter ≤ addr ∧ addr < mm.vmEnd iter then some (some iter)
    else findVma mm addr rounds (mm.links.next iter)

/-- `expand_area` as `do_mmap` calls it, with `fixed`; none when its assertion fails. -/
def expandArea (mm : Mm) (vma address : UInt32) : Option Mm :=
  let address := pageAlign address
  if address ≤ mm.vmEnd vma then some mm
  else if mm.links.next vma = mm.mmap ∨ address ≤ mm.vmStart (mm.links.next vma) then
    some { mm with vmEnd := Function.update mm.vmEnd vma address }
  else none

/-- The area that `do_mmap` is going to map, with the areas of the process by then. -/
def mmapArea (s : Space) (addr len : UInt32) : Except SpaceFault (Space × UInt32) :=
  let alignedAddr := alignDown addr 4096
  match findVma s.mm alignedAddr (2 ^ 32) (s.mm.links.next s.mm.mmap) with
  | none => .error .endless
  | some none =>
    match s.areas with
    | [] => .error .noMemory
    | vma :: areas =>
      match getUnmappedArea s.mm vma alignedAddr len with
      | none => .error .assertion
      | some mm => .ok ({ s with mm, areas }, vma)
  | some (some vma) =>
    if s.mm.vmEnd vma < addr + len then
      match expandArea s.mm vma (addr + len) with
      | none => .error .assertion
      | some mm => .ok ({ s with mm }, vma)
    else .ok (s, vma)

def doMmap (s : Space) (addr len : UInt32) : Except SpaceFault (Space × UInt32) := do
  let (s, vma) ← mmapArea s addr len
  pure (mapArea s vma, if addr ≠ 0 then addr else s.mm.vmStart vma)

def listDel (k : Links UInt32) (entry : UInt32) : Links UInt32 :=
  let k := if k.next entry ≠ 0 ∧ k.prev entry ≠ 0 then
      { next := Function.update k.next (k.prev entry) (k.next entry)
        prev := Function.update k.prev (k.next entry) (k.prev entry) }
    else k
  { next := Function.update k.next entry 0, prev := Function.update k.prev entry 0 }

def doMunmap (s : Space) (addr len : UInt32) : Except SpaceFault Space :=
  match findVma s.mm addr (2 ^ 32) (s.mm.links.next s.mm.mmap) with
  | none => .error .endless
  | some none => .ok s
  | some (some vma) =>
    if s.mm.vmStart vma < addr then .ok s
    else
      let len := pageAlign len
      if len ≤ s.mm.vmEnd vma - s.mm.vmStart vma then
        .ok { s with mm := { s.mm with vmEnd := Function.update s.mm.vmEnd vma addr } }
      else .ok { s with mm := { s.mm with links := listDel s.mm.links vma } }

structure BrkSpace extends Space where
  brk : UInt32

def mapFrame (s : Space) (page frame : Nat) : Space :=
  let s := ensureTable s (page / 1024)
  { s with
    table := Function.update s.table page (some frame)
    flags := Function.update s.flags page userFlags }

/-- The loop of `do_brk` over the pages it adds, with the frame for the first of them. -/
def mapRun (vmEnd : UInt32) : Nat → Space → UInt32 → Nat → Space
  | 0, s, _, _ => s
  | rounds + 1, s, vaddr, frame =>
    if vaddr < vmEnd then
      mapRun vmEnd rounds (mapFrame s (vaddr.toNat / 4096) frame) (vaddr + 4096) (frame + 1)
    else s

def unmapPage (s : Space) (page : Nat) : Space :=
  if s.tables (page / 1024) then
    { s with
      table := Function.update s.table page none
      flags := Function.update s.flags page 0 }
  else s

def unmapRun (vmEnd : UInt32) : Nat → Space → UInt32 → Space
  | 0, s, _ => s
  | rounds + 1, s, vaddr =>
    if vaddr < vmEnd then unmapRun vmEnd rounds (unmapPage s (vaddr.toNat / 4096)) (vaddr + 4096)
    else s

/-- `vm_end` of `new_vma`, the copy of the area; none when the assertion of `expand_area` fails. -/
def newVmEnd (mm : Mm) (brk vma newBrk : UInt32) : Option UInt32 :=
  if brk < newBrk then (expandArea mm vma newBrk).map fun mm => mm.vmEnd vma
  else some newBrk

/-- `do_brk` for an area without a file, with the state after it and what it returns. `frame` is
what `pmm_alloc_blocks` returns, 0 when it fails. -/
def doBrk (frame : Nat) (s : BrkSpace) (addr len : UInt32) : Except SpaceFault (BrkSpace × Int) :=
  let newBrk := pageAlign (addr + len)
  let brk := newBrk
  match findVma s.mm addr (2 ^ 32) (s.mm.links.next s.mm.mmap) with
  | none => .error .endless
  | some none => .ok ({ s with brk }, 0)
  | some (some vma) =>
    if newBrk ≤ s.mm.vmEnd vma then .ok ({ s with brk }, 0)
    else
      match newVmEnd s.mm brk vma newBrk with
      | none => .error .assertion
      | some vmEnd =>
        let space :=
          if s.mm.vmEnd vma < vmEnd then mapRun vmEnd (2 ^ 20) s.toSpace (s.mm.vmEnd vma) frame
          else unmapRun (s.mm.vmEnd vma) (2 ^ 20) s.toSpace vmEnd
        .ok ({ space with
          mm := { space.mm with vmEnd := Function.update space.mm.vmEnd vma vmEnd }, brk }, 0)

end Mos.Memory
