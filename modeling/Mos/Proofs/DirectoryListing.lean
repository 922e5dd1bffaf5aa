import Mos.Fs.Readdir

namespace Mos.Readdir
open Machine Memory Ext2 List

/-- A record of an ext2 directory: its own `rec_len` counts its bytes, and its name is
inside of it. -/
structure Record where
  bytes : List UInt8
  counted : entryRecLen (Bytes.put (fun _ => 0) 0 bytes) 0 = bytes.length
  whole : 8 + entryNameLen (Bytes.put (fun _ => 0) 0 bytes) 0 ≤ bytes.length

namespace Record

def dirent (r : Record) : Dirent := entryDirent (Bytes.put (fun _ => 0) 0 r.bytes) 0

def live (r : Record) : Bool := r.dirent.ino ≠ 0

end Record

def content (rs : List Record) : List UInt8 := rs.flatMap Record.bytes

/-- The block of a directory that has its `i`-th part: twelve are direct, and one more is the first
of those that the indirect block names. -/
def partAt (v : Volume) (inode : VfsInode) (i : Nat) : Bytes :=
  ext2BreadBlock v
    (if i < 12 then inode.raw.word (40 + 4 * i) else (ext2BreadBlock v (inode.raw.word 88)).word 0)

/-- The directory has these bytes, in at most thirteen blocks. -/
structure Stored (v : Volume) (inode : VfsInode) (bytes : List UInt8) : Prop where
  sized : 1024 ≤ v.blockSize.toNat ∧ v.blockSize.toNat ≤ 65536
  size : (inode.raw.word 4).toNat = bytes.length
  short : bytes.length ≤ 13 * v.blockSize.toNat
  parts : ∀ k, ∀ h : k < bytes.length,
    partAt v inode (k / v.blockSize.toNat) (k % v.blockSize.toNat) = bytes[k]

def Dirent.listed (d : Dirent) : UInt32 × Name := (d.ino, d.name)

/-- The listing of a directory through a buffer of `len` bytes ends, has each of the entries
once, and no call of `getdents` writes more than the buffer holds. -/
def Lists (directory : Directory) (len : Nat) (entries : List Dirent) : Prop :=
  ∃ calls es d, enumerate directory len calls {} = some (es, d) ∧
    (es.map Dirent.listed).Perm (entries.map Dirent.listed) ∧ ∀ n ∈ d.written, n ≤ len

/-- The records that the calls of `getdents` read one after another, when each of the calls
ends where a record ends. -/
inductive Chunks (len : Nat) : List (List Record) → Prop
  | none : Chunks len []
  | last {rs} : rs ≠ [] → (content rs).length ≤ len → Chunks len [rs]
  | next {rs chunks} : (content rs).length = len → rs ≠ [] → Chunks len chunks →
      Chunks len (rs :: chunks)

def filled (ds : List Dirent) (fpos : Nat) (written : List Nat) : Dir where
  fpos := fpos
  size := sizes ds
  pending := ds
  written := sizes ds :: written

section Runs
variable {directory : Directory} {len calls : Nat} {d d' : Dir} {es : List Dirent}

theorem enumerate_mono (h : enumerate directory len calls d = some (es, d')) {more : Nat}
    (le : calls ≤ more) : enumerate directory len more d = some (es, d') := by
  induction calls generalizing d es more with
  | zero => simp [enumerate] at h
  | succ calls ih =>
    obtain ⟨more, rfl⟩ := Nat.exists_eq_add_of_lt (Nat.lt_of_succ_le le)
    simp only [enumerate] at h ⊢
    cases hr : readdir directory len d with
    | none => simp [hr] at h
    | some r =>
      obtain ⟨e, next⟩ := r
      cases e with
      | none => simpa [hr] using h
      | some e =>
        simp only [hr, Option.map_eq_some_iff, Prod.exists, Prod.mk.injEq] at h ⊢
        obtain ⟨rest, last, hrest, hes, rfl⟩ := h
        have le : calls ≤ calls + more := by omega
        exact ⟨rest, last, ih hrest le, hes, rfl⟩

/-- How many calls are allowed does not matter once the listing ends. -/
theorem enumerate_unique {more : Nat} {es' : List Dirent} {last : Dir}
    (h : enumerate directory len calls d = some (es, d'))
    (h' : enumerate directory len more d = some (es', last)) : es = es' ∧ d' = last := by
  have h₁ := enumerate_mono h (Nat.le_max_left calls more)
  have h₂ := enumerate_mono h' (Nat.le_max_right calls more)
  rw [h₁] at h₂
  simpa using h₂

theorem readdir_pending {e : Dirent} (size : d.size ≠ 0) (h : d.pending = e :: es) :
    readdir directory len d = some (some e, { d with pending := es }) := by
  simp [readdir, nextEntry, size, h]

theorem sizes_cons (e : Dirent) (es : List Dirent) : sizes (e :: es) ≠ 0 := by
  simp only [sizes, map_cons, sum_cons, Dirent.reclen]
  omega

theorem readdir_refill {e : Dirent} {fpos : Nat} (empty : d.size = 0 ∨ d.pending = [])
    (h : getdents len d.fpos directory = some (e :: es, fpos)) :
    readdir directory len d
      = some (some e, { filled (e :: es) fpos d.written with pending := es }) := by
  simp [readdir, empty, refill, h, nextEntry, sizes_cons, filled]

theorem enumerate_refill {e : Dirent} {fpos : Nat} (empty : d.pending = [])
    (h : getdents len d.fpos directory = some (e :: es, fpos)) :
    enumerate directory len calls d
      = enumerate directory len calls (filled (e :: es) fpos d.written) := by
  have hread : readdir directory len d
      = readdir directory len (filled (e :: es) fpos d.written) := by
    rw [readdir_refill (.inr empty) h, readdir_pending (sizes_cons e es) rfl]
  cases calls with
  | zero => rfl
  | succ calls => rw [enumerate, enumerate, hread]

theorem enumerate_pending {es' : List Dirent} {last : Dir} (size : d.size ≠ 0)
    (pending : d.pending = es)
    (h : enumerate directory len calls { d with pending := [] } = some (es', last)) :
    enumerate directory len (calls + es.length) d = some (es ++ es', last) := by
  induction es generalizing d with
  | nil =>
    have hd : { d with pending := [] } = d := by rw [← pending]
    rw [hd] at h
    simpa using h
  | cons e es ih =>
    have hrest := ih (d := { d with pending := es }) size rfl h
    rw [length_cons, ← Nat.add_assoc, enumerate, readdir_pending size pending]
    simp [hrest]

end Runs

section Memory
variable {len : Nat} {subdirs : List Subdir}

theorem memory_first (subdirs : List Subdir) {s : Subdir} (fits : s.dirent.reclen ≤ len) :
    ∃ ds, genericMemoryReaddir len 0 (s :: subdirs) = s.dirent :: ds := by
  refine ⟨genericMemoryReaddir len (0 + s.dirent.reclen) subdirs, ?_⟩
  rw [genericMemoryReaddir, if_neg (by omega)]

theorem memory_readdir (subdirs : List Subdir) {s : Subdir} (fits : s.dirent.reclen ≤ len) (d : Dir) :
    ∃ e d', readdir (.memory (s :: subdirs)) len d = some (some e, d') := by
  obtain ⟨ds, hds⟩ := memory_first subdirs fits
  by_cases hd : d.size = 0 ∨ d.pending = []
  · exact ⟨s.dirent, _, readdir_refill hd (by rw [getdents, hds])⟩
  · obtain ⟨hsize, hpending⟩ := not_or.mp hd
    obtain ⟨e, es, he⟩ := exists_cons_of_ne_nil hpending
    exact ⟨e, { d with pending := es }, readdir_pending hsize he⟩

/-- Each call starts at the first entry again. -/
theorem memory_endless {s : Subdir} (fits : s.dirent.reclen ≤ len) (calls : Nat) (d : Dir) :
    enumerate (.memory (s :: subdirs)) len calls d = none := by
  induction calls generalizing d with
  | zero => rfl
  | succ calls ih =>
    obtain ⟨e, d', h⟩ := memory_readdir subdirs fits d
    simp [enumerate, h, ih]

theorem memory_lists (fits : ∀ s ∈ subdirs, s.dirent.reclen ≤ len) :
    Lists (.memory subdirs) len (subdirs.map Subdir.dirent) ↔ subdirs = [] := by
  cases subdirs with
  | nil =>
    refine iff_of_true ⟨1, [], { written := [0] }, rfl, List.Perm.refl _, ?_⟩ rfl
    simp
  | cons s subdirs =>
    refine iff_of_false ?_ (by simp)
    rintro ⟨calls, es, d, h, -⟩
    rw [memory_endless (fits s (by simp))] at h
    contradiction

end Memory

section Reading
variable {v : Volume} {inode : VfsInode} {bytes out : List UInt8} {ppos count p : Nat}

/-- What one block adds to the bytes read so far. -/
theorem Stored.span (h : Stored v inode bytes) {j : Nat} (part : p = j * v.blockSize.toNat)
    (before : p < ppos + count) (behind : ppos < p + v.blockSize.toNat)
    (stop : ppos + count ≤ bytes.length) :
    (range (spanLength v.blockSize.toNat ppos count p)).map
        (fun i => partAt v inode j (spanStart ppos p + i)) ++
      (bytes.drop (max ppos (p + v.blockSize.toNat))).take
        (ppos + count - max ppos (p + v.blockSize.toNat)) =
      (bytes.drop (max ppos p)).take (ppos + count - max ppos p) := by
  have hstart : spanStart ppos p = max ppos p - p := by
    unfold spanStart
    split <;> omega
  have hlen : spanLength v.blockSize.toNat ppos count p =
      min (ppos + count) (p + v.blockSize.toNat) - max ppos p := by
    unfold spanLength spanEnd
    rw [hstart]
    split <;> omega
  have hspan : (range (spanLength v.blockSize.toNat ppos count p)).map
      (fun i => partAt v inode j (spanStart ppos p + i)) =
        (bytes.drop (max ppos p)).take (spanLength v.blockSize.toNat ppos count p) := by
    apply ext_getElem
    · simp only [length_map, length_range, length_take, length_drop]
      omega
    · intro i hi _
      simp only [length_map, length_range] at hi
      have hin : max ppos p + i < p + v.blockSize.toNat := by omega
      have hk : max ppos p + i = spanStart ppos p + i + v.blockSize.toNat * j := by
        rw [hstart, Nat.mul_comm, ← part]
        omega
      have hlt : spanStart ppos p + i < v.blockSize.toNat := by omega
      have hdiv : (max ppos p + i) / v.blockSize.toNat = j := by
        rw [hk, Nat.add_mul_div_left _ _ (by omega), Nat.div_eq_of_lt hlt, Nat.zero_add]
      have hmod : (max ppos p + i) % v.blockSize.toNat = spanStart ppos p + i := by
        rw [hk, Nat.add_mul_mod_self_left, Nat.mod_eq_of_lt hlt]
      have hread := h.parts (max ppos p + i) (by omega)
      rw [hdiv, hmod] at hread
      simp only [getElem_map, getElem_range, getElem_take, getElem_drop, hread]
  rw [hspan]
  by_cases hend : ppos + count ≤ p + v.blockSize.toNat
  · have hnone : ppos + count - max ppos (p + v.blockSize.toNat) = 0 := by omega
    rw [hnone, take_zero, append_nil, hlen, Nat.min_eq_left hend]
  · have hnext : max ppos (p + v.blockSize.toNat) =
        max ppos p + spanLength v.blockSize.toNat ppos count p := by omega
    rw [hnext, ← drop_drop, ← take_add]
    congr 1
    omega

/-- A read that ends in the first block behind the direct ones takes nothing else from the
indirect block. -/
theorem readNthBlock_first (sized : 1024 ≤ v.blockSize.toNat) (before : p < ppos + count)
    (last : ppos + count ≤ p + v.blockSize.toNat) (small : p + v.blockSize.toNat < 2 ^ 32)
    (block : UInt32) : ext2ReadNthBlock v ppos count 1 block (out, p) =
      ext2ReadNthBlock v ppos count 0 ((ext2BreadBlock v block).word 0) (out, p) := by
  obtain ⟨m, hm⟩ : ∃ m, v.blockSize.toNat / 4 = m + 1 := ⟨v.blockSize.toNat / 4 - 1, by omega⟩
  have hone : ext2ReadNthBlock v ppos count 1 block (out, p) =
      (range (v.blockSize.toNat / 4)).foldl (fun s i => if s.2 < ppos + count then
        ext2ReadNthBlock v ppos count 0 ((ext2BreadBlock v block).word (4 * i)) s else s)
        (out, p) := by
    rw [ext2ReadNthBlock]
  rw [hone, hm, range_succ_eq_map, foldl_cons, if_pos before]
  apply foldl_fixed'
  intro i
  apply if_neg
  simp only [ext2ReadNthBlock, Nat.mod_eq_of_lt small]
  omega

theorem Stored.readFrom (h : Stored v inode bytes) {rounds j : Nat}
    (part : p = j * v.blockSize.toNat) (near : ppos < p + v.blockSize.toNat)
    (stop : ppos + count ≤ bytes.length) (open_ : p < ppos + count + v.blockSize.toNat)
    (enough : ppos + count + v.blockSize.toNat ≤ p + rounds * v.blockSize.toNat) :
    Ext2.readFrom v inode.raw ppos count rounds (out, p) =
      .ok (out ++ (bytes.drop (max ppos p)).take (ppos + count - max ppos p)) := by
  induction rounds generalizing p j out with
  | zero => omega
  | succ rounds ih =>
    have hsized := h.sized
    have hshort := h.short
    rw [Ext2.readFrom]
    split
    · rename_i before
      have hj : j < 13 := by
        apply Nat.lt_of_mul_lt_mul_right (a := v.blockSize.toNat)
        omega
      have hmul : j * v.blockSize.toNat ≤ 12 * v.blockSize.toNat :=
        Nat.mul_le_mul_right _ (by omega)
      have hsmall : p + v.blockSize.toNat < 2 ^ 32 := by omega
      have hdiv : p / v.blockSize.toNat = j := by
        rw [part]
        exact Nat.mul_div_cancel _ (by omega)
      rw [Nat.succ_mul] at enough
      -- either way the next part is appended, and the loop goes on behind it
      have hnext : Ext2.readFrom v inode.raw ppos count rounds
          (out ++ (range (spanLength v.blockSize.toNat ppos count p)).map
            (fun i => partAt v inode j (spanStart ppos p + i)), p + v.blockSize.toNat) =
          .ok (out ++ (bytes.drop (max ppos p)).take (ppos + count - max ppos p)) := by
        rw [ih (j := j + 1) (by rw [Nat.succ_mul, part]) (by omega) (by omega) (by omega),
          append_assoc, h.span part before near stop]
      simp only [hdiv]
      split
      · rename_i direct
        simp only [partAt, if_pos direct] at hnext
        rw [ext2ReadNthBlock, Nat.mod_eq_of_lt hsmall]
        exact hnext
      · rename_i direct
        have hlast : ppos + count ≤ p + v.blockSize.toNat := by
          obtain rfl : j = 12 := by omega
          omega
        simp only [partAt, if_neg direct] at hnext
        rw [if_pos (by omega), readNthBlock_first hsized.1 before hlast hsmall, ext2ReadNthBlock,
          Nat.mod_eq_of_lt hsmall]
        exact hnext
    · have hnone : ppos + count - max ppos p = 0 := by omega
      rw [hnone, take_zero, append_nil]
      rfl

theorem Stored.readCount (h : Stored v inode bytes) (le : ppos ≤ bytes.length)
    (small : count < 2 ^ 31) :
    Ext2.readCount inode.raw count ppos = min (ppos + count) bytes.length - ppos := by
  have hsized := h.sized
  have hshort := h.short
  rw [Ext2.readCount, h.size]
  omega

/-- `ext2_read_file` delivers the bytes of a directory of at most thirteen blocks. -/
theorem Stored.ext2ReadFile (h : Stored v inode bytes) (le : ppos ≤ bytes.length)
    (small : count < 2 ^ 31) :
    Ext2.ext2ReadFile v inode count ppos = .ok ((bytes.drop ppos).take count) := by
  have hsized := h.sized
  have hfloor := Nat.div_add_mod ppos v.blockSize.toNat
  have hmod := Nat.mod_lt ppos (show 0 < v.blockSize.toNat by omega)
  rw [Nat.mul_comm] at hfloor
  rw [Ext2.ext2ReadFile, h.readCount le small]
  generalize hcount : min (ppos + count) bytes.length - ppos = n
  have hn : n ≤ n * v.blockSize.toNat := Nat.le_mul_of_pos_right n (by omega)
  have hrounds : (n + 2) * v.blockSize.toNat = n * v.blockSize.toNat + 2 * v.blockSize.toNat :=
    Nat.add_mul _ _ _
  rw [h.readFrom rfl (by omega) (by omega) (by omega) (by omega), nil_append,
    Nat.max_eq_left (by omega), Nat.add_sub_cancel_left, ← hcount]
  have htaken : min (ppos + count) bytes.length - ppos = min count (bytes.drop ppos).length := by
    rw [length_drop]
    omega
  rw [htaken, ← take_eq_take_min]

end Reading

section Ext2
variable {buf : Bytes} {r : Record} {rs : List Record}

theorem entryDirent_view (buf : Bytes) (entry : Nat) :
    entryDirent buf entry = entryDirent (buf.view entry) 0 := by
  simp [entryDirent, entryIno, entryNameLen, Bytes.view, Bytes.word, Nat.add_assoc]

theorem entryRecLen_view (buf : Bytes) (entry : Nat) :
    entryRecLen buf entry = entryRecLen (buf.view entry) 0 := by
  simp [entryRecLen, Bytes.view, Bytes.half, Nat.add_assoc]

theorem record_read (entry : Nat)
    (h : ∀ i < r.bytes.length, buf (entry + i) = r.bytes.getD i 0) :
    entryDirent buf entry = r.dirent ∧ entryRecLen buf entry = r.bytes.length := by
  have agree : Bytes.Agree (Bytes.put (fun _ => 0) 0 r.bytes) (buf.view entry) 0
      r.bytes.length := by
    intro x _ hx
    rw [Bytes.put_in (by omega) (by omega), Bytes.view, h x (by omega), Nat.sub_zero]
  have whole := r.whole
  have nameLen : entryNameLen (buf.view entry) 0
      = entryNameLen (Bytes.put (fun _ => 0) 0 r.bytes) 0 := by
    rw [entryNameLen, agree 6 (by omega) (by omega), entryNameLen]
  constructor
  · rw [entryDirent_view, Record.dirent, entryDirent, entryDirent, nameLen]
    congr 1
    · exact agree.word (by omega) (by omega)
    · exact agree 7 (by omega) (by omega)
    · apply map_congr_left
      intro i hi
      have := mem_range.mp hi
      exact agree (0 + 8 + i) (by omega) (by omega)
  · rw [entryRecLen_view, ← r.counted, entryRecLen, agree.half (by omega) (by omega),
      entryRecLen]

theorem record_length (r : Record) : 8 ≤ r.bytes.length := by
  have := r.whole
  omega

theorem readdirFrom_records {ibuf count rounds : Nat} (ends : ibuf + (content rs).length = count)
    (enough : (content rs).length < rounds)
    (h : ∀ i < (content rs).length, buf (ibuf + i) = (content rs).getD i 0) :
    readdirFrom buf count rounds ibuf = some (rs.map Record.dirent) := by
  induction rs generalizing ibuf rounds with
  | nil =>
    obtain ⟨rounds, rfl⟩ : ∃ n, rounds = n + 1 := ⟨rounds - 1, by omega⟩
    simp only [content, flatMap_nil, length_nil] at ends
    simp [readdirFrom, ← ends]
  | cons r rs ih =>
    obtain ⟨rounds, rfl⟩ : ∃ n, rounds = n + 1 := ⟨rounds - 1, by omega⟩
    have hlen : (content (r :: rs)).length = r.bytes.length + (content rs).length := by
      simp [content]
    have h8 := record_length r
    have hfirst : ∀ i < r.bytes.length, buf (ibuf + i) = r.bytes.getD i 0 := by
      intro i hi
      rw [h i (by omega), content, flatMap_cons, getD_append _ _ _ _ hi]
    obtain ⟨hd, hr⟩ := record_read ibuf hfirst
    have hnext : ∀ i < (content rs).length,
        buf (ibuf + r.bytes.length + i) = (content rs).getD i 0 := by
      intro i hi
      rw [Nat.add_assoc, h _ (by omega), content, flatMap_cons,
        getD_append_right _ _ _ _ (by omega), Nat.add_sub_cancel_left]
      rfl
    have enough : (content rs).length < rounds := by omega
    have hrest := ih (by omega) enough hnext
    rw [readdirFrom, if_pos (by omega), hd, hr, hrest]
    simp

theorem getdents_records {v : Volume} {inode : VfsInode} {done rest : List UInt8} {len : Nat}
    (stored : Stored v inode (done ++ (content rs ++ rest))) (small : len < 2 ^ 31)
    (behind : Bytes) (reads : (content rs ++ rest).take len = content rs) :
    getdents len done.length (.ext2 v inode behind)
      = some (rs.map Record.dirent, done.length + (content rs).length) := by
  have le : done.length ≤ (done ++ (content rs ++ rest)).length := by simp
  have hdata : ext2ReadFile v inode len done.length = .ok (content rs) := by
    rw [stored.ext2ReadFile le small, drop_left, reads]
  have hcount : readCount inode.raw len done.length = (content rs).length := by
    have htaken := congrArg length reads
    rw [length_take, length_append] at htaken
    rw [stored.readCount le small, length_append, length_append]
    omega
  have hloop : readdirFrom (readBuffer behind len (content rs)) (content rs).length
      ((content rs).length + 1) 0 = some (rs.map Record.dirent) := by
    apply readdirFrom_records (by omega) (by omega)
    intro i hi
    rw [readBuffer, Bytes.put_in (by omega) (by omega)]
    simp
  change ext2Readdir v inode behind done.length len = _
  unfold ext2Readdir
  rw [hdata, hcount, Except.toOption, Option.bind_some]
  exact congrArg (Option.map fun ds => (ds, done.length + (content rs).length)) hloop

end Ext2

section Listing
variable {v : Volume} {inode : VfsInode} {len : Nat} {behind : Bytes}
  {chunks : List (List Record)}

theorem Chunks.reads {rs : List Record} (h : Chunks len (rs :: chunks)) :
    rs ≠ [] ∧ (content rs ++ content chunks.flatten).take len = content rs ∧
      Chunks len chunks := by
  cases h with
  | last ne le =>
    refine ⟨ne, ?_, Chunks.none⟩
    have nil : content [] = [] := rfl
    rw [flatten_nil, nil, append_nil, take_of_length_le le]
  | next full ne rest => exact ⟨ne, by rw [← full, take_left], rest⟩

/-- Chunk after chunk, every record is listed once. -/
theorem enumerate_chunks (behind : Bytes) (cut : Chunks len chunks) (small : len < 2 ^ 31)
    {done : List UInt8} (stored : Stored v inode (done ++ content chunks.flatten))
    (size : Nat) (written : List Nat) :
    ∃ calls d, enumerate (.ext2 v inode behind) len calls
        { fpos := done.length, size, pending := [], written }
          = some (chunks.flatten.map Record.dirent, d) ∧
      ∀ n, n ∈ d.written ↔
        n ∈ written ∨ n = 0 ∨ ∃ rs ∈ chunks, n = sizes (rs.map Record.dirent) := by
  induction chunks generalizing done size written with
  | nil =>
    have reads : (content [] ++ []).take len = content [] := by simp [content]
    have stored : Stored v inode (done ++ (content [] ++ [])) := by
      rwa [append_nil]
    have hget := getdents_records (v := v) stored small behind reads
    refine ⟨1, { fpos := done.length, size := 0, pending := [], written := 0 :: written }, ?_, ?_⟩
    · simp only [content, flatMap_nil, map_nil, length_nil, Nat.add_zero] at hget
      simp [enumerate, readdir, refill, hget, nextEntry, sizes]
    · intro n
      simp [or_comm]
  | cons rs chunks ih =>
    obtain ⟨ne, reads, cut⟩ := cut.reads
    have hcontent : done ++ content (rs :: chunks).flatten
        = done ++ (content rs ++ content chunks.flatten) := by simp [content]
    rw [hcontent] at stored
    have hget := getdents_records stored small behind reads
    rw [← append_assoc] at stored
    obtain ⟨calls, d, hrest, hwritten⟩ := ih cut stored
      (sizes (rs.map Record.dirent)) (sizes (rs.map Record.dirent) :: written)
    rw [length_append] at hrest
    obtain ⟨r, rs, rfl⟩ := exists_cons_of_ne_nil ne
    have hall := enumerate_pending
      (d := filled ((r :: rs).map Record.dirent) (done.length + (content (r :: rs)).length) written)
      (sizes_cons _ _) rfl hrest
    refine ⟨calls + ((r :: rs).map Record.dirent).length, d, ?_, ?_⟩
    · rw [enumerate_refill (d := { fpos := done.length, size, pending := [], written }) rfl hget]
      exact hall.trans (by simp [filled])
    · intro n
      rw [hwritten]
      simp only [mem_cons, exists_eq_or_imp]
      tauto

theorem ext2_lists (cut : Chunks len chunks) (small : len < 2 ^ 31)
    (stored : Stored v inode (content chunks.flatten)) :
    Lists (.ext2 v inode behind) len
        ((chunks.flatten.filter Record.live).map Record.dirent)
      ↔ (∀ r ∈ chunks.flatten, r.dirent.ino ≠ 0) ∧
        ∀ rs ∈ chunks, sizes (rs.map Record.dirent) ≤ len := by
  rw [← nil_append (content _)] at stored
  obtain ⟨calls, d, hrun, hwritten⟩ :=
    enumerate_chunks behind cut small stored 0 []
  constructor
  · rintro ⟨calls', es, d', h, perm, le⟩
    obtain ⟨rfl, rfl⟩ := enumerate_unique h hrun
    have hlen := perm.length_eq
    simp only [length_map] at hlen
    refine ⟨?_, fun rs hrs => le _ ((hwritten _).mpr (.inr (.inr ⟨rs, hrs, rfl⟩)))⟩
    have hall := length_filter_eq_length_iff.mp hlen.symm
    intro r hr
    simpa [Record.live] using hall r hr
  · intro ⟨live, fits⟩
    have hfilter : chunks.flatten.filter Record.live = chunks.flatten := by
      apply filter_eq_self.mpr
      intro r hr
      simpa [Record.live] using live r hr
    refine ⟨calls, chunks.flatten.map Record.dirent, d, hrun, ?_, ?_⟩
    · rw [hfilter]
    · intro n hn
      rcases (hwritten n).mp hn with hn | rfl | ⟨rs, hrs, rfl⟩
      · simp at hn
      · omega
      · exact fits rs hrs

end Listing

section Example

def dot : Record where
  bytes := [2, 0, 0, 0, 32, 0, 1, 2, 46] ++ List.replicate 23 0
  counted := by decide
  whole := by decide

def dotDot : Record where
  bytes := [2, 0, 0, 0, 32, 0, 2, 2, 46, 46] ++ List.replicate 22 0
  counted := by decide
  whole := by decide

def dotVolume : Volume where
  dev _ := Bytes.put (fun _ => 0) 0 (content [dot, dotDot])
  ext2Sb _ := 0

def dotInode : VfsInode where
  ino := 2
  raw := Bytes.setWord (fun _ => 0) 4 64

def file : Subdir := { name := [97], ino := 1, counted := by decide }

end Example

end Mos.Readdir
