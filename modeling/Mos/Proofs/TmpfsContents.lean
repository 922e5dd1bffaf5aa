import Mos.Machine.Run
import Mos.Fs.Tmpfs

namespace Mos.Tmpfs
open Machine List Function

structure Contents where
  size : Nat := 0
  byte : Bytes := fun _ => 0

namespace Contents

/-- A write of no byte changes nothing; a gap before the bytes written is zero. -/
def write (f : Contents) (pos : Nat) (buf : List UInt8) : Contents :=
  if buf = [] then f
  else
    { size := max f.size (pos + buf.length)
      byte := fun x =>
        if pos ≤ x ∧ x < pos + buf.length then buf.getD (x - pos) 0
        else if x < f.size then f.byte x else 0 }

def truncate (f : Contents) (length : Nat) : Contents :=
  { size := length, byte := fun x => if x < f.size then f.byte x else 0 }

end Contents

/-- A file as POSIX has it: an array of bytes, and an offset for each descriptor. -/
structure Posix extends Contents where
  offset : Nat → Int := fun _ => 0

namespace Posix

def moveTo (f : Posix) (fd : Nat) (pos : Int) : Posix :=
  { f with offset := update f.offset fd pos }

def available (f : Posix) (fd count : Nat) : Nat := min count (f.size - (f.offset fd).toNat)

def seek (f : Posix) (fd : Nat) (pos : Int) : Posix := if pos < 0 then f else f.moveTo fd pos

end Posix

/-- The calls on the array of bytes. Of the open files only the modes are read. -/
def perform (files : Nat → File) (f : Posix) : Call → Posix
  | .read fd count =>
    if (files fd).canRead then f.moveTo fd (f.offset fd + f.available fd count.toNat) else f
  | .write fd buf =>
    if (files fd).canWrite then
      let pos := if (files fd).append then (f.size : Int) else f.offset fd
      { f with toContents := f.write pos.toNat buf }.moveTo fd (pos + buf.length)
    else f
  | .seek fd offset .seekSet => f.seek fd offset
  | .seek fd offset .seekCur => f.seek fd (f.offset fd + offset)
  | .seek fd offset .seekEnd => f.seek fd (f.size + offset)
  | .ftruncate length => { f with toContents := f.truncate length.toNat }

variable {n count page pos len : Nat} {pages : List Nat}

theorem wrap_nat (h : n < 4294967296) : wrap n = n := by
  unfold wrap
  omega

/-- The spans of a request from the start of the file, from page `k` on. -/
def pieces (count : Nat) : List Nat → Nat → List Span
  | [], _ => []
  | page :: pages, k =>
    if count ≤ 4096 * k then []
    else
      { page, pstart := 0, iter := 4096 * k, len := min 4096 (count - 4096 * k) } ::
        pieces count pages (k + 1)

theorem span_zero {k : Nat} (small : 4096 * (k + 1) < 4294967296)
    (more : 4096 * k < count) :
    span 0 count page (4096 * k) (4096 * k) =
      { page, pstart := 0, iter := 4096 * k, len := min 4096 (count - 4096 * k) } := by
  have next : wrap (↑(4096 * k) + ↑blocksize) = 4096 * (k + 1) := by
    unfold wrap blocksize
    omega
  have start : ¬((4096 * k : Nat) : Int) < 0 := by omega
  simp only [span, next, if_neg start, Span.mk.injEq, true_and]
  by_cases last : count < 4096 * (k + 1)
  · rw [if_pos (by omega)]
    unfold wrap blocksize
    omega
  · rw [if_neg (by omega)]
    unfold wrap blocksize
    omega

/-- From the first byte the page walk is right. -/
theorem walkPages_zero (count : Nat) : ∀ (pages : List Nat) (k : Nat),
    4096 * (k + pages.length) < 4294967296 →
    walkPages 0 count pages (4096 * k) (4096 * k) = pieces count pages k
  | [], _, _ => rfl
  | page :: pages, k, small => by
    have small' : 4096 * (k + 1 + pages.length) < 4294967296 := by
      rw [length_cons] at small
      omega
    have next : wrap (↑(4096 * k) + ↑blocksize) = 4096 * (k + 1) := by
      unfold wrap blocksize
      omega
    have iter : 4096 * k + blocksize = 4096 * (k + 1) := by
      unfold blocksize
      omega
    rw [walkPages, pieces, next, if_neg (by omega)]
    by_cases more : count ≤ 4096 * k
    · rw [if_pos (by omega), if_pos more]
    · rw [if_neg (by omega), if_neg more, span_zero (by omega) (by omega), iter,
        walkPages_zero count pages (k + 1) small']

theorem pieces_inside (count : Nat) : ∀ (pages : List Nat) (k : Nat),
    (pieces count pages k).all Span.inside = true
  | [], _ => rfl
  | page :: pages, k => by
    rw [pieces]
    split
    · rfl
    · rw [List.all_cons, pieces_inside count pages (k + 1)]
      simp [Span.inside, blocksize]

theorem readSpans_pieces (content : Nat → Bytes) (count : Nat) :
    ∀ (pages : List Nat) (k : Nat) (out : Out) (x : Nat),
      readSpans content (pieces count pages k) out x =
        if 4096 * k ≤ x ∧ x < count then
          match pages[x / 4096 - k]? with
          | some page => some (content page (x % 4096))
          | none => out x
        else out x
  | [], k, out, x => by
    simp [pieces, readSpans]
  | page :: pages, k, out, x => by
    rw [pieces]
    by_cases more : count ≤ 4096 * k
    · rw [if_pos more, readSpans, if_neg (by omega)]
    rw [if_neg more, readSpans, readSpans_pieces content count pages (k + 1)]
    by_cases here : 4096 * k ≤ x ∧ x < count
    · rw [if_pos here]
      by_cases first : x < 4096 * (k + 1)
      · have hk : x / 4096 - k = 0 := by omega
        have ho : 0 + (x - 4096 * k) = x % 4096 := by omega
        rw [if_neg (by omega), hk]
        simp only [ho, List.getElem?_cons_zero]
        rw [if_pos (by omega)]
      · have hk : x / 4096 - k = (x / 4096 - (k + 1)) + 1 := by omega
        rw [if_pos (by omega), hk, List.getElem?_cons_succ]
        simp only
        rw [if_neg (by omega)]
    · rw [if_neg here, if_neg (by omega)]
      simp only
      rw [if_neg (by omega)]

theorem writeSpans_other (buf : Bytes) {q : Nat} : ∀ (spans : List Span) (content : Nat → Bytes),
    (∀ sp ∈ spans, sp.page ≠ q) → writeSpans buf spans content q = content q
  | [], _, _ => rfl
  | sp :: rest, content, h => by
    rw [writeSpans, writeSpans_other buf rest _ fun sp' hm => h sp' (List.mem_cons_of_mem _ hm),
      Function.update_of_ne (h sp List.mem_cons_self).symm]

theorem pieces_page {sp : Span} : ∀ (pages : List Nat) (k : Nat),
    sp ∈ pieces count pages k → sp.page ∈ pages
  | [], _, h => by simp [pieces] at h
  | page :: pages, k, h => by
    rw [pieces] at h
    split at h
    · cases h
    · rcases List.mem_cons.mp h with rfl | h
      · exact List.mem_cons_self
      · exact List.mem_cons_of_mem _ (pieces_page pages (k + 1) h)

theorem writeSpans_pieces (buf : Bytes) (count : Nat) {q o : Nat} (inPage : o < 4096) :
    ∀ (pages : List Nat) (k j : Nat) (content : Nat → Bytes), pages.Nodup →
      pages[j]? = some q →
      writeSpans buf (pieces count pages k) content q o =
        if 4096 * (k + j) + o < count then buf (4096 * (k + j) + o) else content q o
  | [], _, _, _, _, hq => by cases hq
  | page :: pages, k, j, content, nodup, hq => by
    have later := (List.nodup_cons.mp nodup).1
    rw [pieces]
    by_cases more : count ≤ 4096 * k
    · rw [if_pos more, writeSpans, if_neg (by omega)]
    rw [if_neg more, writeSpans]
    cases j with
    | zero =>
      obtain rfl : page = q := Option.some.inj hq
      have far : ∀ sp ∈ pieces count pages (k + 1), sp.page ≠ page := by
        intro sp hm he
        apply later
        rw [← he]
        exact pieces_page pages _ hm
      rw [writeSpans_other _ _ _ far, update_self]
      simp only [Bytes.copy, Bytes.view, Nat.sub_zero, Nat.add_zero, Nat.zero_le, true_and,
        Nat.zero_add]
      by_cases within : 4096 * k + o < count
      · rw [if_pos (by omega), if_pos within]
      · rw [if_neg (by omega), if_neg within]
    | succ j =>
      have hq' : pages[j]? = some q := hq
      have hne : q ≠ page := by
        rintro rfl
        exact later (mem_of_getElem? hq')
      rw [writeSpans_pieces buf count inPage pages (k + 1) j _ (nodup_cons.mp nodup).2 hq',
        update_of_ne hne, Nat.add_right_comm k 1 j]
      rfl

theorem walkPages_none {ppos : Int} (lo : 0 ≤ ppos) (hi : ppos ≤ 4294963200) :
    ∀ (pages : List Nat) (p iter : Nat), p < 4294967296 →
      ∀ sp ∈ walkPages ppos 0 pages p iter, sp.len = 0 ∧ sp.pstart ≤ 4096
  | [], _, _, _, _, h => by cases h
  | page :: pages, p, iter, hp, sp, h => by
    rw [walkPages] at h
    split at h
    · exact walkPages_none lo hi pages p iter hp sp h
    split at h
    · cases h
    · have next : wrap (↑p + ↑blocksize) = p + 4096 := by
        unfold wrap blocksize
        omega
      rcases mem_cons.mp h with rfl | h
      · have hp' : (p : Int) < ppos := by omega
        simp only [span, next, if_pos hp'] at *
        refine ⟨?_, by omega⟩
        split
        · unfold wrap blocksize
          omega
        · unfold wrap blocksize
          omega
      · exact walkPages_none lo hi pages _ _ (by omega) sp h

theorem readSpans_none (content : Nat → Bytes) : ∀ (spans : List Span) (out : Out),
    (∀ sp ∈ spans, sp.len = 0) → readSpans content spans out = out
  | [], _, _ => rfl
  | sp :: rest, out, h => by
    have hz := h sp List.mem_cons_self
    rw [readSpans, readSpans_none content rest _ fun sp' hm => h sp' (List.mem_cons_of_mem _ hm)]
    funext x
    rw [if_neg (by omega)]

theorem writeSpans_none (buf : Bytes) : ∀ (spans : List Span) (content : Nat → Bytes),
    (∀ sp ∈ spans, sp.len = 0) → writeSpans buf spans content = content
  | [], _, _ => rfl
  | sp :: rest, content, h => by
    have hz := h sp List.mem_cons_self
    have same : (content sp.page).copy sp.pstart sp.len (buf.view sp.iter) = content sp.page := by
      funext x
      rw [Bytes.copy, if_neg (by omega)]
    rw [writeSpans, same, update_eq_self,
      writeSpans_none buf rest _ fun sp' hm => h sp' (mem_cons_of_mem _ hm)]

theorem inside_none {spans : List Span} (h : ∀ sp ∈ spans, sp.len = 0 ∧ sp.pstart ≤ 4096) :
    spans.all Span.inside = true := by
  rw [all_eq_true]
  intro sp hm
  have := h sp hm
  exact decide_eq_true (by unfold blocksize; omega)

def Covers (spans : List Span) (pages : List Nat) (pos len : Nat) : Prop :=
  ∀ (buf : Bytes) (content : Nat → Bytes) (q j o : Nat), o < 4096 → pages[j]? = some q →
    writeSpans buf spans content q o =
      if pos ≤ 4096 * j + o ∧ 4096 * j + o < pos + len then buf (4096 * j + o - pos)
      else content q o

theorem covers_pieces (nodup : pages.Nodup) (count : Nat) :
    Covers (pieces count pages 0) pages 0 count := by
  intro buf content q j o ho hq
  rw [writeSpans_pieces buf count ho pages 0 j content nodup hq]
  simp only [Nat.zero_add, Nat.zero_le, true_and, Nat.sub_zero]

theorem walkPages_first (some_ : 0 < len)
    (fits : pos + len ≤ 4096) :
    walkPages pos len (page :: pages) 0 0 = [{ page, pstart := pos, iter := 0, len }] := by
  have next : wrap (↑(0 : Nat) + ↑blocksize) = 4096 := by decide
  have rest : walkPages pos len pages 4096 4096 = [] := by
    cases pages with
    | nil => rfl
    | cons q qs =>
      have next' : wrap (↑(4096 : Nat) + ↑blocksize) = 8192 := by decide
      rw [walkPages, next', if_neg (by omega), if_pos (by omega)]
  have only : span pos len page 0 0 = { page, pstart := pos, iter := 0, len } := by
    simp only [span, next, Span.mk.injEq, true_and]
    refine ⟨by split <;> omega, ?_⟩
    unfold wrap blocksize
    split <;> split <;> omega
  rw [walkPages, next, if_neg (by omega), if_neg (by omega), only]
  change _ :: walkPages pos len pages 4096 4096 = _
  rw [rest]

theorem covers_first (nodup : (page :: pages).Nodup)
    (fits : pos + len ≤ 4096) :
    Covers [{ page, pstart := pos, iter := 0, len }] (page :: pages) pos len := by
  intro buf content q j o ho hq
  rw [writeSpans, writeSpans]
  cases j with
  | zero =>
    obtain rfl : page = q := Option.some.inj hq
    rw [update_self]
    simp only [Bytes.copy, Bytes.view, Nat.mul_zero, Nat.zero_add]
  | succ j =>
    have hq' : pages[j]? = some q := hq
    have hne : q ≠ page := by
      rintro rfl
      exact (nodup_cons.mp nodup).1 (mem_of_getElem? hq')
    rw [update_of_ne hne, if_neg (by omega)]

/-- The page list of an inode has the pages its size asks for, all different. -/
structure Paged (i : Inode) : Prop where
  length : i.pages.length = (i.iSize + 4095) / 4096
  nodup : i.pages.Nodup
  given : ∀ page ∈ i.pages, page < i.allocated
  small : i.iSize ≤ 4294963200

def Shows (i : Inode) (f : Contents) : Prop :=
  ∀ x page, x < f.size → i.pages[x / 4096]? = some page → i.content page (x % 4096) = f.byte x

structure Represents (i : Inode) (f : Contents) : Prop where
  paged : Paged i
  size : i.iSize = f.size
  shows : Shows i f

variable {i i' : Inode} {f : Contents} {fd : Nat}

theorem Represents.setPos (h : Represents i f) (fd : Nat) (pos : Int) :
    Represents (i.setPos fd pos) f :=
  ⟨⟨h.paged.length, h.paged.nodup, h.paged.given, h.paged.small⟩, h.size, h.shows⟩

theorem wrap_pageAlign (h : n ≤ 4294963200) :
    wrap (pageAlign n) = (n + 4095) / 4096 * 4096 := by
  unfold wrap pageAlign
  omega

theorem wrap_aligned (h : n ≤ 4294963200) :
    wrap (n + 4095) / 4096 * 4096 = (n + 4095) / 4096 * 4096 := by
  unfold wrap
  omega

theorem Paged.grow (h : Paged i) (le : i.iSize ≤ n) (hn : n ≤ 4294963200)
    (old : Shows i f) (size : i.iSize = f.size) :
    ∃ i', setsize i n = some i' ∧ Paged i' ∧ i'.iSize = n ∧ Shows i' f ∧ i'.files = i.files := by
  have hwn := wrap_nat (show n < 4294967296 by omega)
  unfold setsize
  simp only [wrap_pageAlign hn, wrap_aligned h.small, hwn]
  by_cases more : (i.iSize + 4095) / 4096 < (n + 4095) / 4096
  · have count : ((n + 4095) / 4096 * 4096 - (i.iSize + 4095) / 4096 * 4096) / 4096 =
        (n + 4095) / 4096 - (i.iSize + 4095) / 4096 := by omega
    rw [if_pos (by omega), count]
    refine ⟨_, rfl, ⟨?_, ?_, ?_, hn⟩, rfl, ?_, rfl⟩
    · rw [length_append, length_range', h.length]
      simp only
      omega
    · rw [nodup_append]
      refine ⟨h.nodup, nodup_range', ?_⟩
      intro a ha b hb
      have := h.given a ha
      have := mem_range'_1.mp hb
      omega
    · intro page hp
      rcases mem_append.mp hp with hp | hp
      · have := h.given page hp
        simp only
        omega
      · have := mem_range'_1.mp hp
        simp only
        omega
    · intro x page hx hp
      apply old x page hx
      rwa [List.getElem?_append_left (by rw [h.length]; omega)] at hp
  · have same : (i.iSize + 4095) / 4096 = (n + 4095) / 4096 := by omega
    rw [if_neg (by omega), if_pos (by omega), same, Nat.sub_self, Nat.zero_div, Nat.sub_zero,
      take_length]
    refine ⟨_, rfl, ⟨?_, h.nodup, h.given, hn⟩, rfl, old, rfl⟩
    rw [h.length]
    exact same

/-- A shorter file has a beginning of the bytes. -/
theorem Represents.shrink (h : Represents i f) (le : n ≤ i.iSize) :
    ∃ i', setsize i n = some i' ∧ Represents i' (f.truncate n) := by
  have hn : n ≤ 4294963200 := le.trans h.paged.small
  have hwn := wrap_nat (show n < 4294967296 by omega)
  have hl := h.paged.length
  unfold setsize
  simp only [wrap_pageAlign hn, wrap_aligned h.paged.small, hwn]
  have fewer : i.pages.length - ((i.iSize + 4095) / 4096 * 4096 - (n + 4095) / 4096 * 4096) / 4096 =
      (n + 4095) / 4096 := by omega
  rw [if_neg (by omega), if_pos (by omega), fewer]
  refine ⟨_, rfl, ⟨?_, ?_, ?_, hn⟩, rfl, ?_⟩
  · rw [length_take]
    simp only
    omega
  · exact h.paged.nodup.sublist (take_sublist _ _)
  · intro page hp
    exact h.paged.given page (mem_of_mem_take hp)
  · intro x page hx hp
    have hx' : x < f.size := by
      rw [← h.size]
      exact lt_of_lt_of_le hx le
    simp only [List.getElem?_take] at hp
    split at hp
    · simp only [Contents.truncate]
      rw [if_pos hx']
      exact h.shows x page hx' hp
    · cases hp

theorem Paged.covers (h : Paged i) (fits : pos = 0 ∨ pos + len ≤ 4096)
    (le : pos + len ≤ i.iSize) (some_ : 0 < len) :
    (walkPages pos len i.pages 0 0).all Span.inside = true ∧
      Covers (walkPages pos len i.pages 0 0) i.pages pos len := by
  have hl := h.length
  have hs := h.small
  rcases fits with rfl | fits
  · have walk : walkPages 0 len i.pages 0 0 = pieces len i.pages 0 :=
      walkPages_zero len i.pages 0 (by omega)
    rw [Nat.cast_zero, walk]
    exact ⟨pieces_inside len i.pages 0, covers_pieces h.nodup len⟩
  · cases hp : i.pages with
    | nil =>
      rw [hp, length_nil] at hl
      omega
    | cons page pages =>
      rw [walkPages_first some_ fits]
      refine ⟨?_, covers_first (hp ▸ h.nodup) fits⟩
      simp [Span.inside, blocksize, fits]

theorem Paged.store (h : Paged i) {buf : List UInt8} {spans : List Span}
    (cov : Covers spans i.pages pos buf.length) (some_ : buf ≠ []) (le : pos ≤ f.size)
    (size : i.iSize = max f.size (pos + buf.length)) (old : Shows i f) :
    Represents { i with content := writeSpans (fun x => buf.getD x 0) spans i.content }
      (f.write pos buf) := by
  refine ⟨⟨h.length, h.nodup, h.given, h.small⟩, ?_, ?_⟩
  · rw [Contents.write, if_neg some_]
    exact size
  · intro x page hx hp
    rw [Contents.write, if_neg some_] at hx ⊢
    have hd : 4096 * (x / 4096) + x % 4096 = x := Nat.div_add_mod x 4096
    simp only at hx hp ⊢
    rw [cov _ _ page (x / 4096) (x % 4096) (Nat.mod_lt _ (by decide)) hp, hd]
    by_cases new : pos ≤ x ∧ x < pos + buf.length
    · rw [if_pos new, if_pos new]
    · have hx' : x < f.size := by omega
      rw [if_neg new, if_neg new, if_pos hx']
      exact old x page hx' hp

theorem Represents.write_none (h : Represents i f) {ppos : Int} (lo : 0 ≤ ppos)
    (hi : ppos ≤ i.iSize) :
    ∃ i', tmpfsWriteFile i fd [] ppos = some i' ∧ Represents i' f := by
  have small := h.paged.small
  have hp : wrap (i.files fd).fPos < 4294967296 := by
    unfold wrap
    omega
  have none_ := walkPages_none lo (by omega) i.pages _ 0 hp
  unfold tmpfsWriteFile
  rw [if_neg (by simpa using hi)]
  simp only [length_nil, Option.bind_some, inside_none none_, if_true,
    writeSpans_none _ _ _ fun sp hm => (none_ sp hm).1]
  exact ⟨_, rfl, h.setPos fd _⟩

/-- A write that fits is a write to the bytes. -/
theorem Represents.write (h : Represents i f) {buf : List UInt8}
    (start : (i.files fd).fPos = 0) (le : pos ≤ i.iSize)
    (fits : pos = 0 ∨ pos + buf.length ≤ 4096) (room : pos + buf.length ≤ 4294963200) :
    ∃ i', tmpfsWriteFile i fd buf pos = some i' ∧ Represents i' (f.write pos buf) := by
  by_cases some_ : buf = []
  · subst some_
    exact h.write_none (by omega) (by omega)
  have hlen : 0 < buf.length := length_pos_iff.mpr some_
  obtain ⟨i₁, hs, hp, size, old, files⟩ : ∃ i₁,
      (if (i.iSize : Int) < pos + buf.length then setsize i (pos + buf.length) else some i) =
        some i₁ ∧ Paged i₁ ∧ i₁.iSize = max f.size (pos + buf.length) ∧ Shows i₁ f ∧
        i₁.files = i.files := by
    by_cases grows : i.iSize < pos + buf.length
    · obtain ⟨i₁, hs, hp, size, old, files⟩ := h.paged.grow grows.le room h.shows h.size
      refine ⟨i₁, ?_, hp, ?_, old, files⟩
      · rw [if_pos (by omega), ← Nat.cast_add]
        exact hs
      · rw [size, ← h.size]
        omega
    · refine ⟨i, if_neg (by omega), h.paged, ?_, h.shows, rfl⟩
      rw [← h.size]
      omega
  have zero : wrap (i₁.files fd).fPos = 0 := by
    rw [files, start]
    rfl
  obtain ⟨inside, cov⟩ := hp.covers fits (by omega) hlen
  unfold tmpfsWriteFile
  rw [hs]
  simp only [Option.bind_some, zero, inside, if_true]
  exact ⟨_, rfl, (hp.store cov some_ (h.size ▸ le) size old).setPos fd _⟩

/-- A read of `count` bytes gives those of the file at `f_pos`, as many as there are, and
stores nothing else in the buffer. -/
def ReadsAt (i : Inode) (f : Contents) (fd count : Nat) : Prop :=
  ∃ out i', tmpfsReadFile i fd count (i.files fd).fPos =
      some (out, i', min count (f.size - (i.files fd).fPos.toNat)) ∧
    ∀ x, out x =
      if x < min count (f.size - (i.files fd).fPos.toNat) then
        some (f.byte ((i.files fd).fPos.toNat + x))
      else none

/-- A read from the start gives the first bytes. -/
theorem Represents.read_start (h : Represents i f) (hc : count < 4294967296)
    (start : (i.files fd).fPos = 0) : ReadsAt i f fd count := by
  have hl := h.paged.length
  have hs := h.paged.small
  have asked : wrap (↑(min (wrap (0 + count)) i.iSize) - 0) = min count f.size := by
    rw [Int.zero_add, wrap_nat hc, Int.sub_zero, h.size, wrap_nat (by omega)]
  have walk : walkPages 0 (min count f.size) i.pages 0 0 = pieces (min count f.size) i.pages 0 :=
    walkPages_zero _ i.pages 0 (by omega)
  have zero : wrap 0 = 0 := rfl
  unfold ReadsAt tmpfsReadFile
  simp only [start, asked, zero, walk, pieces_inside, if_true, Int.toNat_zero, Nat.sub_zero]
  refine ⟨_, _, rfl, ?_⟩
  intro x
  rw [readSpans_pieces]
  simp only [Nat.mul_zero, Nat.zero_le, true_and, Nat.sub_zero, Nat.zero_add]
  by_cases hx : x < min count f.size
  · cases hp : i.pages[x / 4096]? with
    | none =>
      have := List.getElem?_eq_none_iff.mp hp
      rw [hl, h.size] at this
      omega
    | some page =>
      simp only
      rw [h.shows x page (by omega) hp]
  · rw [if_neg hx, if_neg hx]

theorem Represents.read_none (h : Represents i f) (lo : 0 ≤ (i.files fd).fPos)
    (hi : (i.files fd).fPos ≤ i.iSize) (hc : (i.files fd).fPos + count < 4294967296)
    (nothing : count = 0 ∨ (i.files fd).fPos = i.iSize) : ReadsAt i f fd count := by
  have hs := h.paged.small
  obtain ⟨pos, hpos⟩ := Int.eq_ofNat_of_zero_le lo
  have asked : wrap (↑(min (wrap (pos + count)) i.iSize) - pos) = 0 := by
    unfold wrap
    omega
  have hp : wrap pos < 4294967296 := by
    unfold wrap
    omega
  have lo' : (0 : Int) ≤ pos := by omega
  have none_ := walkPages_none lo' (by omega) i.pages _ 0 hp
  have zero : min count (f.size - pos) = 0 := by
    rw [← h.size]
    omega
  unfold ReadsAt tmpfsReadFile
  simp only [hpos, asked, Int.toNat_natCast, zero, inside_none none_, if_true,
    readSpans_none _ _ _ fun sp hm => (none_ sp hm).1]
  refine ⟨_, _, rfl, ?_⟩
  intro x
  simp

/-- The requests for which the loop over the pages is right: it takes the first page for the
one at the file's position, so that position is 0. A file is not extended by `ftruncate`. -/
def Fits (i : Inode) : Call → Prop
  | .read fd count =>
    (i.files fd).canRead = false ∨ (i.files fd).fPos = 0 ∨
      0 ≤ (i.files fd).fPos ∧ (i.files fd).fPos ≤ i.iSize ∧
        (i.files fd).fPos + count.toNat < 4294967296 ∧
        (count.toNat = 0 ∨ (i.files fd).fPos = i.iSize)
  | .write fd buf =>
    (i.files fd).canWrite = false ∨
      buf = [] ∧ 0 ≤ writePos i fd ∧ writePos i fd ≤ i.iSize ∨
      (i.files fd).fPos = 0 ∧ (writePos i fd = 0 ∨ writePos i fd + buf.length ≤ 4096) ∧
        writePos i fd + buf.length ≤ 4294963200
  | .seek fd offset whence => 0 ≤ ((genericFileLlseek i fd offset whence).files fd).fPos
  | .ftruncate length => 0 ≤ length ∧ length ≤ i.iSize

instance (i : Inode) (c : Call) : Decidable (Fits i c) := by
  unfold Fits
  cases c <;> exact inferInstance

/-- The inode, and the file that POSIX has after the same calls. -/
structure Traced where
  inode : Inode
  posix : Posix := {}

def Traced.next (s : Traced) (c : Call) : Option Traced :=
  (call s.inode c).map fun i => { inode := i, posix := perform s.inode.files s.posix c }

/-- A read of `count` bytes gives those at the descriptor's offset, as many as there are, and
stores nothing else in the buffer. -/
def ReadsBack (s : Traced) (fd count : Nat) : Prop :=
  ∃ out i', tmpfsReadFile s.inode fd count (s.inode.files fd).fPos =
      some (out, i', s.posix.available fd count) ∧
    ∀ x, out x =
      if x < s.posix.available fd count then some (s.posix.byte ((s.posix.offset fd).toNat + x))
      else none

/-- Every open file stands where the offset of its descriptor is. -/
def Follows (i : Inode) (g : Posix) : Prop := ∀ fd, (i.files fd).fPos = g.offset fd

theorem Represents.readsAt (h : Represents i f) {count : UInt32}
    (fits : Fits i (.read fd count)) (can : (i.files fd).canRead = true) :
    ReadsAt i f fd count.toNat := by
  rcases fits with no | start | ⟨lo, hi, hc, nothing⟩
  · rw [can] at no
    cases no
  · exact h.read_start count.toNat_lt start
  · exact h.read_none lo hi hc nothing

theorem truncate_self (h : Represents i f) : Represents i (f.truncate i.iSize) := by
  refine ⟨h.paged, rfl, ?_⟩
  intro x page hx hp
  have hx' : x < f.size := by
    rw [← h.size]
    exact hx
  simp only [Contents.truncate]
  rw [if_pos hx']
  exact h.shows x page hx' hp

theorem Follows.setPos {g : Posix} (h : Follows i g) (fd : Nat) (pos : Int) :
    Follows (i.setPos fd pos) (g.moveTo fd pos) := by
  intro d
  by_cases hd : d = fd
  · subst d
    simp [Inode.setPos, Posix.moveTo]
  · simp only [Inode.setPos, Posix.moveTo, update_of_ne hd]
    exact h d

theorem Follows.files {g : Posix} (h : Follows i g) (he : i'.files = i.files) : Follows i' g := by
  intro fd
  rw [he]
  exact h fd

theorem setsize_files {newSize : Int} (h : setsize i newSize = some i') : i'.files = i.files := by
  unfold setsize at h
  simp only at h
  split at h
  · cases h
    rfl
  · split at h
    · cases h
      rfl
    · cases h

theorem tmpfsReadFile_moves {out : Out} {ppos : Int}
    (h : tmpfsReadFile i fd count ppos = some (out, i', n)) : i' = i.setPos fd (ppos + n) := by
  unfold tmpfsReadFile at h
  simp only at h
  split at h
  · simp only [Option.some.injEq, Prod.mk.injEq] at h
    rw [← h.2.1, h.2.2]
  · cases h

theorem tmpfsWriteFile_moves {buf : List UInt8} {ppos : Int}
    (h : tmpfsWriteFile i fd buf ppos = some i') :
    ∃ i₁ : Inode, i₁.files = i.files ∧ i' = i₁.setPos fd (ppos + buf.length) := by
  obtain ⟨i₁, hs, h⟩ := Option.bind_eq_some_iff.mp h
  have files : i₁.files = i.files := by
    split at hs
    · exact setsize_files hs
    · rw [Option.some.inj hs]
  simp only at h
  split at h
  · refine ⟨_, ?_, (Option.some.inj h).symm⟩
    exact files
  · cases h

theorem Represents.sought {g : Posix} {pos : Int} (h : Represents i g.toContents)
    (hf : Follows i g) (lo : 0 ≤ ((i.setPos fd pos).files fd).fPos) :
    Represents (i.setPos fd pos) (g.seek fd pos).toContents ∧
      Follows (i.setPos fd pos) (g.seek fd pos) := by
  have lo : 0 ≤ pos := by simpa [Inode.setPos] using lo
  rw [Posix.seek, if_neg (by omega)]
  exact ⟨h.setPos fd _, hf.setPos fd _⟩

/-- A call that fits does to the inode what it does to the array, and moves the open file as
it moves the offset. -/
theorem Represents.call {g : Posix} (h : Represents i g.toContents) (hf : Follows i g) {c : Call}
    (fits : Fits i c) : ∃ i', call i c = some i' ∧
      Represents i' (perform i.files g c).toContents ∧ Follows i' (perform i.files g c) := by
  cases c with
  | read fd count =>
    simp only [Tmpfs.call, perform]
    by_cases can : (i.files fd).canRead = true
    · obtain ⟨out, i', hr, -⟩ := h.readsAt fits can
      rw [if_pos can, if_pos can, hr]
      obtain rfl := tmpfsReadFile_moves hr
      rw [hf fd]
      exact ⟨_, rfl, h.setPos fd _, hf.setPos fd _⟩
    · rw [if_neg can, if_neg can]
      exact ⟨i, rfl, h, hf⟩
  | write fd buf =>
    simp only [Tmpfs.call, perform]
    by_cases can : (i.files fd).canWrite = true
    · rw [if_pos can, if_pos can]
      have at_ : (if (i.files fd).append then (g.size : Int) else g.offset fd) = writePos i fd := by
        rw [writePos, hf fd, h.size]
      rw [at_]
      obtain ⟨i', hw, hi'⟩ : ∃ i', tmpfsWriteFile i fd buf (writePos i fd) = some i' ∧
          Represents i' (g.write (writePos i fd).toNat buf) := by
        rcases fits with no | ⟨rfl, lo, hi⟩ | ⟨start, inFirst, room⟩
        · rw [can] at no
          cases no
        · exact h.write_none lo hi
        · have hw : writePos i fd = 0 ∨ writePos i fd = i.iSize := by
            unfold writePos
            split
            · exact .inr rfl
            · exact .inl start
          obtain ⟨pos, hpos⟩ : ∃ pos : Nat, writePos i fd = pos := by
            rcases hw with hw | hw
            · exact ⟨0, hw⟩
            · exact ⟨_, hw⟩
          rw [hpos] at hw inFirst room ⊢
          exact h.write start (by omega) (by omega) (by omega)
      refine ⟨i', hw, hi', ?_⟩
      obtain ⟨i₁, files, rfl⟩ := tmpfsWriteFile_moves hw
      exact (hf.files files).setPos fd _
    · rw [if_neg can, if_neg can]
      exact ⟨i, rfl, h, hf⟩
  | seek fd offset whence =>
    refine ⟨_, rfl, ?_⟩
    cases whence with
    | seekSet => exact h.sought hf fits
    | seekCur =>
      simp only [perform, ← hf fd]
      exact h.sought hf fits
    | seekEnd =>
      simp only [perform, ← h.size]
      exact h.sought hf fits
  | ftruncate length =>
    obtain ⟨lo, hi⟩ := fits
    obtain ⟨n, rfl⟩ := Int.eq_ofNat_of_zero_le lo
    simp only [Tmpfs.call, perform, ftruncate, Int.toNat_natCast]
    by_cases same : (n : Int) = i.iSize
    · rw [if_pos same]
      obtain rfl : n = i.iSize := Int.ofNat.inj same
      exact ⟨i, rfl, truncate_self h, hf⟩
    · rw [if_neg same]
      obtain ⟨i', hs, hi'⟩ := h.shrink (n := n) (by omega)
      exact ⟨i', hs, hi', hf.files (setsize_files hs)⟩

/-- In a run of calls that fit, the inode has the pages its size asks for, every open file
stands at its descriptor's offset, every call that fits succeeds, and every read that fits
gives the bytes of the array at that offset. -/
theorem tmpfs_contents {content : Nat → Bytes} {files : Nat → File} {s : Traced}
    (opened : ∀ fd, (files fd).fPos = 0)
    (run : Run Traced.next (fun s c => Fits s.inode c) { inode := { content, files } } s) :
    s.inode.iSize = s.posix.size ∧
    s.inode.pages.length = (s.posix.size + 4095) / 4096 ∧
    (∀ fd, (s.inode.files fd).fPos = s.posix.offset fd) ∧
    (∀ c, Fits s.inode c → (s.next c).isSome) ∧
    ∀ fd count, Fits s.inode (.read fd count) → (s.inode.files fd).canRead = true →
      ReadsBack s fd count.toNat := by
  obtain ⟨hs, hf⟩ : Represents s.inode s.posix.toContents ∧ Follows s.inode s.posix := by
    apply run.invariant (I := fun s => Represents s.inode s.posix.toContents ∧
      Follows s.inode s.posix)
    · refine ⟨⟨⟨by simp, nodup_nil, ?_, Nat.zero_le _⟩, rfl, ?_⟩, opened⟩
      · intro page hp
        cases hp
      · intro x page hx
        cases hx
    · intro a c b ha fits hn
      obtain ⟨i', hc, hi'⟩ := ha.1.call ha.2 fits
      rw [Traced.next, hc] at hn
      rw [← Option.some.inj hn]
      exact hi'
  refine ⟨hs.size, ?_, hf, ?_, ?_⟩
  · rw [← hs.size]
    exact hs.paged.length
  · intro c fits
    obtain ⟨i', hc, -⟩ := hs.call hf fits
    rw [Traced.next, hc]
    rfl
  · intro fd count fits can
    have h := hs.readsAt fits can
    unfold ReadsAt at h
    rw [ReadsBack, Posix.available, ← hf fd]
    exact h

/-- A fresh file in frames that are all zero, and no other file open. -/
def fresh : Traced := { inode := { content := fun _ _ => 0 } }

theorem tmpfs_contents_two : ∃ s, Run Traced.next (fun s c => Fits s.inode c) fresh s ∧
    s.posix.size = 2 ∧ s.posix.offset 0 = 2 ∧ s.posix.offset 1 = 0 ∧ s.inode.pages.length = 1 ∧
      (s.inode.files 0).fPos = 2 ∧ ReadsBack s 1 2 := by
  obtain ⟨s, hr, hs, h0, h1, hf⟩ := replay_reaches Traced.next (fun s c => Fits s.inode c) fresh
    [.write 0 [97, 98], .seek 0 0 .seekSet, .read 0 5]
    (P := fun s => s.posix.size = 2 ∧ s.posix.offset 0 = 2 ∧ s.posix.offset 1 = 0 ∧
      Fits s.inode (.read 1 2) ∧ (s.inode.files 1).canRead = true) (by decide +kernel)
  obtain ⟨-, hl, ho, -, hb⟩ := tmpfs_contents (fun _ => rfl) hr
  rw [hs] at hl
  exact ⟨s, hr, hs, h0, h1, hl, (ho 0).trans h0, hb 1 2 hf.1 hf.2⟩

def ReadInside (s : Traced) : Call → Prop
  | .read fd _ => 0 ≤ s.posix.offset fd ∧ s.posix.offset fd ≤ s.posix.size
  | _ => True

instance (s : Traced) (c : Call) : Decidable (ReadInside s c) := by
  unfold ReadInside
  cases c <;> exact inferInstance

/-- The second of two bytes written one after the other lands on the first. -/
theorem second_write_misplaced : ∃ s, Run Traced.next ReadInside fresh s ∧
    ReadInside s (.read 0 2) ∧ ¬ReadsBack s 0 2 := by
  obtain ⟨s, hr, hi, hp, ho, hs, hb, hn⟩ := replay_reaches Traced.next ReadInside fresh
    [.write 0 [97], .write 0 [98], .seek 0 0 .seekSet]
    (P := fun s => ReadInside s (.read 0 2) ∧ (s.inode.files 0).fPos = 0 ∧ s.posix.offset 0 = 0 ∧
      s.posix.size = 2 ∧ s.posix.byte 0 = 97 ∧
      ((tmpfsReadFile s.inode 0 2 0).map fun r => r.1 0) = some (some 98)) (by decide +kernel)
  refine ⟨s, hr, hi, ?_⟩
  rintro ⟨out, i', hread, hout⟩
  rw [hp] at hread
  rw [hread, Option.map_some, Option.some_inj] at hn
  have first := hout 0
  rw [Posix.available, hs, ho, if_pos (by decide), show Int.toNat 0 + 0 = 0 from rfl, hb] at first
  exact absurd (hn.symm.trans first) (by decide)

end Mos.Tmpfs
