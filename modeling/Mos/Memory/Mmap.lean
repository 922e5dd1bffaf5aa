import Mos.Machine.Align
import Mos.Machine.Ring

namespace Mos.Memory
open Machine

/-- A process's `mm_struct` with the areas of its `mmap` list. A pointer to an area
stands for the pointer to its `vm_sibling`, and `mmap` for the pointer to the head. -/
structure Mm where
  links : Links UInt32
  mmap : UInt32
  vmStart : UInt32 → UInt32
  vmEnd : UInt32 → UInt32
  endBrk : UInt32
  freeAreaCache : UInt32

def pageAlign (addr : UInt32) : UInt32 := alignUp addr 4096

/-- The loop of `get_unmapped_area`: the links after it and `found_addr`. The list is
walked from `iter` on, at most for the given number of rounds. -/
def findGap (mm : Mm) (vma addr len : UInt32) : Nat → UInt32 → Option (Links UInt32 × UInt32)
  | 0, _ => none
  | rounds + 1, iter =>
    if iter = mm.mmap then some (mm.links, addr)
    else
      let next := mm.links.next iter
      let isLastEntry := decide (mm.links.next iter = mm.mmap)
      if addr + len ≤ mm.vmStart iter then some (mm.links.addAfter iter mm.mmap, addr)
      else if mm.vmEnd iter ≤ addr ∧
          (isLastEntry = true ∨ isLastEntry = false ∧ addr + len ≤ mm.vmStart next) then
        some (mm.links.addAfter vma iter, addr)
      else if isLastEntry = false ∧ (mm.vmEnd iter ≤ addr ∧ addr < mm.vmStart next) ∧
          len ≤ mm.vmStart next - mm.vmEnd iter then
        some (mm.links.addAfter vma iter, mm.vmStart next - len)
      else findGap mm vma addr len rounds next

def areaHint (mm : Mm) (addr : UInt32) : UInt32 :=
  if addr = 0 ∨ addr < mm.endBrk then max mm.freeAreaCache mm.endBrk else addr

/-- `get_unmapped_area`, where `vma` is the area that `kcalloc` has returned; `none`
when its assertion fails or its loop goes on forever. -/
def getUnmappedArea (mm : Mm) (vma addr len : UInt32) : Option Mm :=
  let mm := { mm with
    vmStart := Function.update mm.vmStart vma 0
    vmEnd := Function.update mm.vmEnd vma 0 }
  let addr := areaHint mm addr
  if addr = pageAlign addr then
    let len := pageAlign len
    let found :=
      if mm.links.next mm.mmap = mm.mmap then some (mm.links.addAfter vma mm.mmap, addr)
      else findGap mm vma addr len (2 ^ 32) (mm.links.next mm.mmap)
    found.map fun (links, foundAddr) =>
      if foundAddr ≠ 0 then
        { mm with
          links
          vmStart := Function.update mm.vmStart vma foundAddr
          vmEnd := Function.update mm.vmEnd vma (foundAddr + len)
          freeAreaCache := foundAddr + len }
      else { mm with links }
  else none

end Mos.Memory
