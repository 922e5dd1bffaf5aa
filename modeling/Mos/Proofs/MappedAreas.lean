import Mos.Machine.Checked
import Mos.Memory.AddressSpace
import Mos.Proofs.UnmappedArea

namespace Mos.Memory
open Machine List

variable {mm : Mm} {addr : UInt32} {l : List UInt32}

def hasAddr (mm : Mm) (addr v : UInt32) : Bool := decide (mm.vmStart v ≤ addr ∧ addr < mm.vmEnd v)

theorem findVma_eq {x : UInt32} (path : Path mm.links x l mm.mmap) (head : mm.mmap ∉ l)
    {rounds : Nat} (enough : l.length < rounds) :
    findVma mm addr rounds (mm.links.next x) = some (l.find? (hasAddr mm addr)) := by
  induction l generalizing x rounds with
  | nil =>
    obtain ⟨rounds, rfl⟩ := Nat.exists_eq_add_of_lt enough
    cases path with
    | nil next _ => simp [findVma, next]
  | cons v l ih =>
    obtain ⟨rounds, rfl⟩ := Nat.exists_eq_add_of_lt enough
    cases path with
    | cons next _ rest =>
      have hv : v ≠ mm.mmap := by
        rintro rfl
        simp at head
      have enough : l.length < (v :: l).length + rounds := by
        rw [length_cons]
        omega
      rw [findVma, next, if_neg hv]
      split
      · rename_i hin
        rw [List.find?_cons, show hasAddr mm addr v = true from decide_eq_true hin]
      · rename_i hout
        rw [List.find?_cons, show hasAddr mm addr v = false from decide_eq_false hout]
        exact ih rest (fun hm => head (by simp [hm])) enough

theorem Laid.findVma (laid : Laid mm l) (addr : UInt32) :
    findVma mm addr (2 ^ 32) (mm.links.next mm.mmap) = some (l.find? (hasAddr mm addr)) :=
  findVma_eq laid.ring.path (nodup_cons.mp laid.ring.nodup).1 (ring_length_lt laid.ring)

end Mos.Memory
