import Mathlib.Data.List.Infix
import Mathlib.Logic.Function.Basic
import Mos.Libc.Environ
import Mos.Machine.Checked
import Mos.Machine.Run

namespace Mos.Environ
open Machine List Option

def splitVar : List UInt8 → Option (List UInt8 × List UInt8)
  | [] => none
  | c :: chars =>
    if c = equals then some ([], chars)
    else (splitVar chars).map fun var => (c :: var.1, var.2)

def CString.name? (s : CString) : Option (List UInt8) := (splitVar s.chars).map Prod.fst

/-- A pointer of `environ` with the string it points to. -/
inductive Slot where
  | hole
  | env (s : CString)
  deriving DecidableEq, Repr

def Slot.var? : Slot → Option (List UInt8 × List UInt8)
  | .hole => none
  | .env s => splitVar s.chars

def vars (environ : List Slot) : List (List UInt8 × List UInt8) := environ.filterMap Slot.var?

def names (environ : List Slot) : List (List UInt8) := (vars environ).map Prod.fst

def slotAt (heap : Heap) : Pointer → Slot
  | .hole => .hole
  | .string block => match heap[block]? with
    | some (some b) => .env b.text
    | _ => .hole

def slotsOf (heap : Heap) (pointers : List Pointer) : List Slot := pointers.map (slotAt heap)

def Memory.slots (m : Memory) : List Slot := slotsOf m.heap m.environ

def Pointer.block? : Pointer → Option Nat
  | .hole => none
  | .string block => some block

def blocks (pointers : List Pointer) : List Nat := pointers.filterMap Pointer.block?

inductive Op where
  | getenv (name : CString)
  | setenv (envname envval : CString) (overwrite : Bool)
  | putenv (string : Nat)
  | unsetenv (name : CString)

/-- Besides the calls, the program makes strings of its own, with malloc or not, and frees
some. -/
inductive Event where
  | call (op : Op)
  | make (text : CString) (allocated : Bool)
  | free (block : Nat)

def perform (m : Memory) : Op → Except Fault (Reply × Memory)
  | .getenv name => do
    let reply ← getenv m name
    pure (reply, m)
  | .setenv envname envval overwrite => setenv m envname envval overwrite
  | .putenv string => putenv m string
  | .unsetenv name => unsetenv m name

def Memory.text? (m : Memory) (block : Nat) : Option CString :=
  m.heap[block]?.join.map Block.text

abbrev Stored := List UInt8 → Option (List UInt8)

/-- The map that the calls stand for. `text?` is what the pointer given to `putenv` points to. -/
def refer (text? : Nat → Option CString) (stored : Stored) : Op → Reply × Stored
  | .getenv name => (.value (stored name.chars), stored)
  | .setenv envname envval overwrite =>
    (.done, if overwrite || (stored envname.chars).isNone then
      Function.update stored envname.chars (some envval.chars) else stored)
  | .putenv string =>
    (.done, match (text? string).bind (splitVar ·.chars) with
      | none => stored
      | some (name, value) => Function.update stored name (some value))
  | .unsetenv name => (.done, Function.update stored name.chars none)

structure Both where
  memory : Memory
  stored : Stored
  got : List Reply := []
  expected : List Reply := []

def step (b : Both) : Event → Option Both
  | .call op =>
    match perform b.memory op with
    | .error _ => none
    | .ok (reply, memory) =>
      let (wanted, stored) := refer b.memory.text? b.stored op
      some { memory, stored, got := reply :: b.got, expected := wanted :: b.expected }
  | .make text allocated =>
    some { b with memory.heap := b.memory.heap ++ [some ⟨text, allocated⟩] }
  | .free block =>
    match free b.memory.heap block with
    | .error _ => none
    | .ok heap => some { b with memory.heap := heap }

/-- Comparing each character of the name in the slot with `name[i]` comes to the same as
comparing it with the character at its own place. -/
def Comparable (name : CString) (i : Nat) : Slot → Prop
  | .hole => True
  | .env env => i ≤ name.chars.length ∧ ∀ var ∈ splitVar env.chars,
      ((∀ c ∈ var.1, name.chars[i]? = some c) ↔ var.1 <+: name.chars)

instance (name : CString) (i : Nat) : (slot : Slot) → Decidable (Comparable name i slot)
  | .hole => inferInstanceAs (Decidable True)
  | .env _ => inferInstanceAs (Decidable (_ ∧ _))

def Compared (name : CString) (environ : List Slot) : Prop :=
  ∀ i, ∀ h : i < environ.length, Comparable name i environ[i]

instance (name : CString) (environ : List Slot) : Decidable (Compared name environ) :=
  inferInstanceAs (Decidable (∀ i, ∀ _ : i < environ.length, _))

/-- `unsetenv` meets no hole, and the string is as far in `environ` as the name is long. -/
def Erasable (name : CString) (environ : List Slot) : Prop :=
  match environ.findIdx? (fun slot => slot.var?.map Prod.fst = some name.chars) with
  | none => .hole ∉ environ
  | some i => i = name.chars.length ∧ .hole ∉ environ.take i

instance (name : CString) (environ : List Slot) : Decidable (Erasable name environ) := by
  unfold Erasable
  split <;> infer_instance

def Memory.allocated (m : Memory) (block : Nat) : Bool :=
  m.heap[block]?.join.any Block.allocated

/-- The strings that a `setenv` or `putenv` of the variable frees: the one that it replaces, or
all of them when `environ` grows. -/
def Memory.freed (m : Memory) (name : List UInt8) (overwrite : Bool) : List Nat :=
  match (blocks m.environ).find? fun block => (m.text? block).bind CString.name? = some name with
  | some block => if overwrite then [block] else []
  | none => if .hole ∈ m.environ then [] else blocks m.environ

/-- What the calls must keep to. For `getenv`, no stored name may begin a longer one that is
looked up. What `setenv` and `putenv` free is from malloc, and `putenv` is not given a string that
`environ` has already. -/
def Careful (m : Memory) : Op → Prop
  | .getenv name => Compared name m.slots ∧ (name.chars ∈ names m.slots →
      ∀ other ∈ names m.slots, other <+: name.chars → other = name.chars)
  | .setenv envname _ overwrite =>
    Compared envname m.slots ∧ ∀ block ∈ m.freed envname.chars overwrite, m.allocated block
  | .putenv string => string ∉ blocks m.environ ∧
      ∀ name ∈ (m.text? string).bind CString.name?, ∀ block ∈ m.freed name true, m.allocated block
  | .unsetenv name => Erasable name m.slots

instance (m : Memory) : (op : Op) → Decidable (Careful m op)
  | .getenv _ => inferInstanceAs (Decidable (_ ∧ (_ → _)))
  | .setenv _ _ _ => inferInstanceAs (Decidable (_ ∧ _))
  | .putenv _ => inferInstanceAs (Decidable (_ ∧ _))
  | .unsetenv name => inferInstanceAs (Decidable (Erasable name m.slots))

/-- Names are valid, the string of `putenv` is there, and there is room for another variable. -/
def Valid (m : Memory) : Op → Prop
  | .getenv name => isValidEnvname name
  | .setenv envname _ _ => isValidEnvname envname ∧ m.environ.length < argMax
  | .putenv string => (m.text? string).any isValidEnv ∧ m.environ.length < argMax
  | .unsetenv name => isValidEnvname name

instance (m : Memory) : (op : Op) → Decidable (Valid m op)
  | .getenv name => inferInstanceAs (Decidable (isValidEnvname name))
  | .setenv _ _ _ => inferInstanceAs (Decidable (_ ∧ _))
  | .putenv _ => inferInstanceAs (Decidable (_ ∧ _))
  | .unsetenv name => inferInstanceAs (Decidable (isValidEnvname name))

/-- The program frees strings of its own only, and only those from malloc. -/
def Owns (m : Memory) : Event → Prop
  | .free block => block ∉ blocks m.environ ∧ m.allocated block
  | _ => True

instance (m : Memory) : (e : Event) → Decidable (Owns m e)
  | .free _ => inferInstanceAs (Decidable (_ ∧ _))
  | .call _ => inferInstanceAs (Decidable True)
  | .make _ _ => inferInstanceAs (Decidable True)

def Proper (b : Both) : Event → Prop
  | .call op => Valid b.memory op
  | e => Owns b.memory e

instance (b : Both) : (e : Event) → Decidable (Proper b e)
  | .call op => inferInstanceAs (Decidable (Valid b.memory op))
  | .make text allocated => inferInstanceAs (Decidable (Owns b.memory (.make text allocated)))
  | .free block => inferInstanceAs (Decidable (Owns b.memory (.free block)))

def Admitted (b : Both) : Event → Prop
  | .call op => Valid b.memory op ∧ Careful b.memory op
  | e => Owns b.memory e

instance (b : Both) : (e : Event) → Decidable (Admitted b e)
  | .call _ => inferInstanceAs (Decidable (_ ∧ _))
  | .make text allocated => inferInstanceAs (Decidable (Owns b.memory (.make text allocated)))
  | .free block => inferInstanceAs (Decidable (Owns b.memory (.free block)))

section Split
variable {chars name value : List UInt8}

theorem splitVar_eq_some :
    splitVar chars = some (name, value) ↔ chars = name ++ equals :: value ∧ equals ∉ name := by
  induction chars generalizing name with
  | nil => simp [splitVar]
  | cons c chars ih =>
    rw [splitVar]
    by_cases hc : c = equals
    · subst hc
      cases name with
      | nil => simp
      | cons d name =>
        simp only [if_true, Option.some.injEq, Prod.mk.injEq, nil_eq, reduceCtorEq, false_and,
          false_iff, cons_append, List.cons.injEq, mem_cons, not_or, not_and]
        intro h
        exact fun hd => absurd h.1 hd
    · rw [if_neg hc]
      cases name with
      | nil =>
        simp only [map_eq_some_iff, Prod.mk.injEq, reduceCtorEq, false_and, and_false,
          exists_false, nil_append, List.cons.injEq, false_iff, not_and]
        exact fun h => absurd h.1 hc
      | cons d name =>
        simp only [map_eq_some_iff, Prod.mk.injEq, List.cons.injEq, cons_append,
          mem_cons, not_or]
        constructor
        · rintro ⟨⟨name', value'⟩, h, ⟨rfl, rfl⟩, rfl⟩
          obtain ⟨rfl, hn⟩ := ih.mp h
          exact ⟨⟨rfl, rfl⟩, fun h => hc h.symm, hn⟩
        · rintro ⟨⟨rfl, h⟩, -, hn⟩
          exact ⟨(name, value), ih.mpr ⟨h, hn⟩, ⟨rfl, rfl⟩, rfl⟩

end Split

variable {s env envname string : CString} {i : Nat} {c : UInt8}

theorem CString.get_of_some (h : s.chars[i]? = some c) :
    s.get i = .ok c := by
  simp [CString.get, h, pure, Except.pure]

theorem CString.get_length (s : CString) : s.get s.chars.length = .ok 0 := by
  simp [CString.get, pure, Except.pure]

theorem CString.get_ne_zero (h : s.chars[i]? = some c) :
    c ≠ 0 := by
  rintro rfl
  exact s.terminated (mem_of_getElem? h)

def found (matched : Bool) (j : Nat) (var : List UInt8 × List UInt8) : Option (Nat × List UInt8) :=
  if matched then some (j + var.1.length, var.2) else none

/-- Comparing at the same place finds the strings whose name begins the given one. -/
theorem scan_name (name : CString) {chars : List UInt8} (nonzero : 0 ∉ chars) {j : Nat}
    (hj : j ≤ name.chars.length) : scan name.get chars j =
      .ok ((splitVar chars).bind fun var => found (decide (var.1 <+: name.chars.drop j)) j var) := by
  induction chars generalizing j with
  | nil => rfl
  | cons c chars ih =>
    simp only [mem_cons, not_or] at nonzero
    rw [scan, splitVar]
    by_cases hc : c = equals
    · simp [hc, found, pure, Except.pure]
    · rw [if_neg hc, if_neg hc]
      cases hd : name.chars[j]? with
      | none =>
        have hlen : j = name.chars.length := by
          have := List.getElem?_eq_none_iff.mp hd
          omega
        subst hlen
        rw [CString.get_length, ok_bind, if_pos (Ne.symm nonzero.1)]
        cases splitVar chars <;> simp [found, pure, Except.pure]
      | some d =>
        have hpre : ∀ key, c :: key <+: name.chars.drop j ↔
            c = d ∧ key <+: name.chars.drop (j + 1) := by
          intro key
          obtain ⟨hlt, rfl⟩ := List.getElem?_eq_some_iff.mp hd
          rw [drop_eq_getElem_cons hlt, cons_prefix_cons]
        rw [CString.get_of_some hd, ok_bind]
        by_cases hcd : c = d
        · have hlt := (List.getElem?_eq_some_iff.mp hd).1
          subst hcd
          rw [if_neg (not_not_intro rfl), ih nonzero.2 (by omega)]
          cases splitVar chars with
          | none => rfl
          | some var => simp [found, hpre, Nat.add_assoc, Nat.add_comm 1]
        · cases splitVar chars <;> simp [found, hpre, hcd, pure, Except.pure]

/-- Comparing with one character finds the names that have no other. -/
theorem scan_const (name : CString) {chars : List UInt8} (nonzero : 0 ∉ chars)
    (hi : i ≤ name.chars.length) (j : Nat) : scan (fun _ => name.get i) chars j =
      .ok ((splitVar chars).bind fun var =>
        found (decide (∀ c ∈ var.1, name.chars[i]? = some c)) j var) := by
  induction chars generalizing j with
  | nil => rfl
  | cons c chars ih =>
    simp only [mem_cons, not_or] at nonzero
    rw [scan, splitVar]
    by_cases hc : c = equals
    · simp [hc, found, pure, Except.pure]
    · rw [if_neg hc, if_neg hc]
      cases hd : name.chars[i]? with
      | none =>
        have hlen : i = name.chars.length := by
          have := List.getElem?_eq_none_iff.mp hd
          omega
        rw [hlen, CString.get_length, ok_bind, if_pos (Ne.symm nonzero.1)]
        cases splitVar chars with
        | none => rfl
        | some var =>
          have hno : ¬∀ d ∈ c :: var.1, none = some d := fun h => nomatch h c mem_cons_self
          simp only [map_some, bind_some, found, hno, decide_false]
          rfl
      | some d =>
        rw [CString.get_of_some hd, ok_bind]
        by_cases hcd : c = d
        · rw [if_neg (not_not_intro hcd), ← CString.get_of_some hd, ih nonzero.2]
          cases splitVar chars with
          | none => rfl
          | some var => simp [found, hd, hcd, Nat.add_assoc, Nat.add_comm 1]
        · rw [if_pos hcd]
          cases splitVar chars <;> simp [found, Ne.symm hcd, pure, Except.pure]

theorem Comparable.scan {name : CString} (h : Comparable name i (.env env)) :
    scan (fun _ => name.get i) env.chars 0 = scan name.get env.chars 0 := by
  rw [scan_const name env.terminated h.1, scan_name name env.terminated (Nat.zero_le _)]
  cases hvar : splitVar env.chars with
  | none => rfl
  | some var => simp only [bind_some, drop_zero, h.2 var hvar]

theorem CString.get_prefix {front : List UInt8} (h : front <+: s.chars) :
    ∃ c, s.get front.length = .ok c ∧ (c = 0 ↔ front = s.chars) ∧
      (equals ∉ front → (c = equals ↔ s.name? = some front)) := by
  obtain ⟨back, hback⟩ := h
  cases back with
  | nil =>
    rw [append_nil] at hback
    refine ⟨0, by rw [hback, CString.get_length], by simp [hback], ?_⟩
    intro hfront
    suffices hnone : s.name? ≠ some front by simp [hnone, equals]
    intro hname
    obtain ⟨⟨name, value⟩, hvar, rfl⟩ := map_eq_some_iff.mp hname
    have hchars := (splitVar_eq_some.mp hvar).1
    rw [← hback] at hchars
    simp at hchars
  | cons c back =>
    have hc : s.chars[front.length]? = some c := by simp [← hback]
    refine ⟨c, CString.get_of_some hc, by simp [CString.get_ne_zero hc, ← hback], ?_⟩
    intro hfront
    constructor
    · rintro rfl
      rw [CString.name?, splitVar_eq_some.mpr ⟨hback.symm, hfront⟩]
      rfl
    · intro hname
      obtain ⟨⟨name, value⟩, hvar, rfl⟩ := map_eq_some_iff.mp hname
      have hchars := (splitVar_eq_some.mp hvar).1
      rw [← hback, append_cancel_left_eq, List.cons.injEq] at hchars
      exact hchars.1

theorem scan_cases (s env : CString) :
    (scan s.get env.chars 0 = .ok none ∧ ∀ name, env.name? = some name → ¬name <+: s.chars) ∨
      ∃ name value c, splitVar env.chars = some (name, value) ∧ name <+: s.chars ∧
        scan s.get env.chars 0 = .ok (some (name.length, value)) ∧ s.get name.length = .ok c ∧
        (c = 0 ↔ name = s.chars) ∧ (c = equals ↔ s.name? = some name) := by
  rw [scan_name s env.terminated (Nat.zero_le _)]
  unfold CString.name?
  cases hvar : splitVar env.chars with
  | none => simp
  | some var =>
    obtain ⟨name, value⟩ := var
    by_cases hpre : name <+: s.chars
    · obtain ⟨c, hget, hzero, heq⟩ := CString.get_prefix hpre
      have hname := (splitVar_eq_some.mp hvar).2
      exact .inr ⟨name, value, c, rfl, hpre, by simp [found, hpre], hget, hzero, heq hname⟩
    · exact .inl ⟨by simp [found, hpre], by simpa using hpre⟩

theorem setenvTest_eq (h : Comparable envname i (.env env)) :
    setenvTest envname i env = .ok (decide (env.name? = some envname.chars)) := by
  rw [setenvTest, h.scan]
  obtain ⟨hscan, hname⟩ | ⟨name, value, c, hvar, -, hscan, hget, hzero, -⟩ := scan_cases envname env
  · have hne : env.name? ≠ some envname.chars := fun he => hname _ he (prefix_refl _)
    simp [hscan, ok_bind, hne, pure, Except.pure]
  · simp [hscan, hget, ok_bind, hzero, CString.name?, hvar, pure, Except.pure]

theorem putenvTest_eq {key : List UInt8} (hkey : string.name? = some key)
    (i : Nat) : putenvTest string i env = .ok (decide (env.name? = some key)) := by
  rw [putenvTest]
  obtain ⟨hscan, hname⟩ | ⟨name, value, c, hvar, -, hscan, hget, -, heq⟩ := scan_cases string env
  · have hne : env.name? ≠ some key := by
      intro he
      apply hname key he
      obtain ⟨⟨_, value⟩, hvar, rfl⟩ := map_eq_some_iff.mp hkey
      rw [(splitVar_eq_some.mp hvar).1]
      exact prefix_append _ _
    simp [hscan, ok_bind, hne, pure, Except.pure]
  · have hiff : c = equals ↔ name = key := by
      rw [heq, hkey, Option.some.injEq, eq_comm]
    simp [hscan, hget, ok_bind, hiff, CString.name?, hvar, pure, Except.pure]

section Vars

theorem vars_append (front back : List Slot) : vars (front ++ back) = vars front ++ vars back :=
  filterMap_append

theorem vars_hole (slots : List Slot) : vars (.hole :: slots) = vars slots := rfl

variable {env : CString} {var : List UInt8 × List UInt8}

theorem vars_env_none (h : splitVar env.chars = none) (slots : List Slot) :
    vars (.env env :: slots) = vars slots := List.filterMap_cons_none h

theorem vars_env
    (h : splitVar env.chars = some var) (slots : List Slot) :
    vars (.env env :: slots) = var :: vars slots := List.filterMap_cons_some h

theorem names_append (front back : List Slot) :
    names (front ++ back) = names front ++ names back := by
  simp [names, vars_append]

theorem names_hole (slots : List Slot) : names (.hole :: slots) = names slots := rfl

theorem names_env
    (h : splitVar env.chars = some var) (slots : List Slot) :
    names (.env env :: slots) = var.1 :: names slots := by
  rw [names, vars_env h, map_cons]
  rfl

theorem mem_names_env {name : List UInt8} {slots : List Slot} :
    name ∈ names (.env env :: slots) ↔ env.name? = some name ∨ name ∈ names slots := by
  unfold names CString.name?
  cases h : splitVar env.chars with
  | none => simp [vars_env_none h]
  | some var => simp [vars_env h, eq_comm]

theorem lookup_eq_none {name : List UInt8} {environ : List Slot} (h : name ∉ names environ) :
    (vars environ).lookup name = none := by
  rw [lookup_eq_none_iff]
  intro var hvar
  simp only [bne_iff_ne, ne_eq]
  rintro rfl
  exact h (mem_map_of_mem hvar)

theorem lookup_insert {front back : List (List UInt8 × List UInt8)} {name : List UInt8}
    (value : List UInt8) (fresh : name ∉ front.map Prod.fst) (n : List UInt8) :
    (front ++ (name, value) :: back).lookup n =
      if n = name then some value else (front ++ back).lookup n := by
  rw [lookup_append, lookup_append, lookup_cons]
  by_cases hn : n = name
  · subst hn
    have hfront : front.lookup n = none := by
      rw [lookup_eq_none_iff]
      intro var hvar
      simp only [bne_iff_ne, ne_eq]
      rintro rfl
      exact fresh (mem_map_of_mem hvar)
    simp [hfront]
  · rw [if_neg hn, beq_false_of_ne hn]

end Vars

section Blocks
variable {heap heap' : Heap} {block : Nat} {b : Block} {pointers : List Pointer}

theorem slotAt_of_some (h : heap[block]? = some (some b)) :
    slotAt heap (.string block) = .env b.text := by
  simp only [slotAt, h]

theorem slotsOf_string (h : heap[block]? = some (some b)) (pointers : List Pointer) :
    slotsOf heap (.string block :: pointers) = .env b.text :: slotsOf heap pointers :=
  congrArg (· :: slotsOf heap pointers) (slotAt_of_some h)

theorem load_of_some (h : heap[block]? = some (some b)) : load heap block = .ok b.text := by
  simp only [load, h]
  rfl

theorem text?_of_some {m : Memory} (h : m.heap[block]? = some (some b)) :
    m.text? block = some b.text := by
  simp [Memory.text?, h]

theorem free_of_allocated {m : Memory} (h : m.allocated block) :
    free m.heap block = .ok (m.heap.set block none) := by
  unfold Memory.allocated at h
  unfold free
  rcases hb : m.heap[block]? with - | - | ⟨text, allocated⟩
  · simp [hb] at h
  · simp [hb] at h
  · obtain rfl : allocated = true := by simpa [hb] using h
    rfl

theorem slotsOf_congr (same : ∀ block ∈ blocks pointers, heap'[block]? = heap[block]?) :
    slotsOf heap' pointers = slotsOf heap pointers := by
  apply map_congr_left
  intro pointer hp
  cases pointer with
  | hole => rfl
  | string block =>
    have hblock : block ∈ blocks pointers := mem_filterMap.mpr ⟨_, hp, rfl⟩
    simp only [slotAt, same block hblock]

theorem blocks_append (front back : List Pointer) :
    blocks (front ++ back) = blocks front ++ blocks back := filterMap_append

theorem blocks_string (block : Nat) (pointers : List Pointer) :
    blocks (.string block :: pointers) = block :: blocks pointers := rfl

theorem slotsOf_append (heap : Heap) (front back : List Pointer) :
    slotsOf heap (front ++ back) = slotsOf heap front ++ slotsOf heap back := map_append

def Live (heap : Heap) (pointers : List Pointer) : Prop :=
  ∀ block ∈ blocks pointers, ∃ b, heap[block]? = some (some b)

theorem Live.tail (h : Live heap (.string block :: pointers)) : Live heap pointers :=
  fun other ho => h other (mem_cons_of_mem _ ho)

/-- The strings of `environ` are there, each once. -/
structure Sound (heap : Heap) (pointers : List Pointer) : Prop where
  distinct : (blocks pointers).Nodup
  live : Live heap pointers

theorem Sound.lt (h : Sound heap pointers) (hb : block ∈ blocks pointers) :
    block < heap.length := by
  obtain ⟨b, hlive⟩ := h.live block hb
  exact (List.getElem?_eq_some_iff.mp hlive).1

theorem Sound.congr (h : Sound heap pointers)
    (same : ∀ block ∈ blocks pointers, heap'[block]? = heap[block]?) : Sound heap' pointers where
  distinct := h.distinct
  live block hb := by rw [same block hb]; exact h.live block hb

theorem Sound.extend (h : Sound heap pointers) (b : Option Block) :
    ∀ block ∈ blocks pointers, (heap ++ [b])[block]? = heap[block]? := by
  intro block hb
  exact getElem?_append_left (h.lt hb)

theorem Sound.sublist {pointers' : List Pointer} (h : Sound heap pointers)
    (sub : (blocks pointers').Sublist (blocks pointers)) : Sound heap pointers' where
  distinct := h.distinct.sublist sub
  live block hb := h.live block (sub.subset hb)

/-- Where a string is put into `environ`, in the place of another or of a hole. -/
theorem Sound.put {front back : List Pointer} {env : Nat} (h : Sound heap (front ++ back))
    (new : env ∉ blocks (front ++ back)) (live : heap[env]? = some (some b)) :
    Sound heap (front ++ .string env :: back) := by
  have hblocks : blocks (front ++ .string env :: back) = blocks front ++ env :: blocks back := by
    rw [blocks_append, blocks_string]
  rw [blocks_append] at new
  have hdistinct := h.distinct
  rw [blocks_append] at hdistinct
  constructor
  · rw [hblocks]
    exact nodup_middle.mpr (nodup_cons.mpr ⟨new, hdistinct⟩)
  · intro block hb
    rw [hblocks, mem_append, mem_cons] at hb
    by_cases he : block = env
    · exact ⟨b, he ▸ live⟩
    · apply h.live block
      rw [blocks_append, mem_append]
      exact hb.imp_right fun hb => hb.resolve_left he

end Blocks

/-- The search ends at the first string of the name, or there is none. -/
theorem findFrom_cases {heap : Heap} {test : Nat → CString → Except Fault Bool}
    {name : List UInt8} (i : Nat) (pointers : List Pointer)
    (live : Live heap pointers)
    (htest : ∀ k env, (slotsOf heap pointers)[k]? = some (.env env) →
      test (i + k) env = .ok (decide (env.name? = some name))) :
    (name ∉ names (slotsOf heap pointers) ∧ findFrom heap test i pointers = .ok none) ∨
      ∃ front block b back, pointers = front ++ .string block :: back ∧
        heap[block]? = some (some b) ∧ b.text.name? = some name ∧
        name ∉ names (slotsOf heap front) ∧
        findFrom heap test i pointers = .ok (some (i + front.length, block)) := by
  induction pointers generalizing i with
  | nil => exact .inl ⟨not_mem_nil, rfl⟩
  | cons pointer pointers ih =>
    have hrest : ∀ k env, (slotsOf heap pointers)[k]? = some (.env env) →
        test (i + 1 + k) env = .ok (decide (env.name? = some name)) := by
      intro k env hk
      rw [Nat.add_assoc, Nat.add_comm 1]
      exact htest (k + 1) env hk
    cases pointer with
    | hole =>
      obtain ⟨hno, hrep⟩ | ⟨front, block, b, back, rfl, hb, hname, hfront, hrep⟩ :=
        ih (i + 1) live hrest
      · exact .inl ⟨hno, hrep⟩
      · refine .inr ⟨.hole :: front, block, b, back, rfl, hb, hname, hfront, ?_⟩
        rw [findFrom, hrep, length_cons]
        congr 3
        omega
    | string block =>
      obtain ⟨b, hb⟩ := live block mem_cons_self
      have he : test i b.text = .ok (decide (b.text.name? = some name)) :=
        htest 0 b.text (congrArg some (slotAt_of_some hb))
      by_cases hname : b.text.name? = some name
      · refine .inr ⟨[], block, b, pointers, rfl, hb, hname, not_mem_nil, ?_⟩
        rw [findFrom, load_of_some hb, ok_bind, he]
        simp [ok_bind, hname, pure, Except.pure]
      · have hstep : findFrom heap test i (.string block :: pointers) =
            findFrom heap test (i + 1) pointers := by
          rw [findFrom, load_of_some hb, ok_bind, he]
          simp [ok_bind, hname]
        obtain ⟨hno, hrep⟩ | ⟨front, block', b', back, rfl, hb', hname', hfront, hrep⟩ :=
          ih (i + 1) live.tail hrest
        · refine .inl ⟨?_, by rw [hstep, hrep]⟩
          rw [slotsOf_string hb, mem_names_env]
          exact not_or_intro hname hno
        · refine .inr ⟨.string block :: front, block', b', back, rfl, hb', hname', ?_, ?_⟩
          · rw [slotsOf_string hb, mem_names_env]
            exact not_or_intro hname hfront
          · rw [hstep, hrep, length_cons]
            congr 3
            omega

theorem mem_names_of_block {heap : Heap} {pointers : List Pointer} {block : Nat} {b : Block}
    {name : List UInt8} (hblock : block ∈ blocks pointers) (hb : heap[block]? = some (some b))
    (hname : b.text.name? = some name) : name ∈ names (slotsOf heap pointers) := by
  obtain ⟨pointer, hp, hsome⟩ := mem_filterMap.mp hblock
  obtain ⟨before, after, rfl⟩ := append_of_mem hp
  cases pointer with
  | hole => simp [Pointer.block?] at hsome
  | string other =>
    obtain rfl := Option.some.inj hsome
    rw [slotsOf_append, names_append, mem_append, slotsOf_string hb, mem_names_env]
    exact .inr (.inl hname)

theorem fillHole_cases (env : Nat) (pointers : List Pointer) :
    (.hole ∉ pointers ∧ fillHole env pointers = none) ∨
      ∃ front back, pointers = front ++ .hole :: back ∧
        fillHole env pointers = some (front ++ .string env :: back) := by
  induction pointers with
  | nil => exact .inl ⟨not_mem_nil, rfl⟩
  | cons pointer pointers ih =>
    cases pointer with
    | hole => exact .inr ⟨[], pointers, rfl, rfl⟩
    | string block =>
      obtain ⟨hno, hnone⟩ | ⟨front, back, rfl, hsome⟩ := ih
      · exact .inl ⟨by simp [hno], by rw [fillHole, hnone]; rfl⟩
      · exact .inr ⟨.string block :: front, back, rfl, by rw [fillHole, hsome]; rfl⟩

/-- The heap after `strdup` and `free` of one string. -/
theorem copied_string {heap : Heap} {pointers : List Pointer} {block : Nat} {b : Block}
    (hb : heap[block]? = some (some b)) (allocated : Memory.allocated ⟨heap, pointers⟩ block) :
    ∃ next : Heap, free (heap ++ [some ⟨b.text, true⟩]) block = .ok next ∧
      next.length = heap.length + 1 ∧ next[heap.length]? = some (some ⟨b.text, true⟩) ∧
      ∀ other < heap.length, other ≠ block → next[other]? = heap[other]? := by
  have hlt := (List.getElem?_eq_some_iff.mp hb).1
  let copied : Heap := heap ++ [some ⟨b.text, true⟩]
  refine ⟨copied.set block none, ?_, by simp [copied], ?_, ?_⟩
  · apply free_of_allocated (m := ⟨copied, []⟩)
    simpa [Memory.allocated, copied, getElem?_append_left hlt] using allocated
  · rw [getElem?_set_ne (by omega)]
    simp [copied]
  · intro other ho hne
    rw [getElem?_set_ne hne.symm, getElem?_append_left ho]

/-- Growing `environ` puts fresh copies in the place of its strings and leaves the strings that
it does not have alone. -/
theorem copyStrings_eq {heap : Heap} {pointers : List Pointer} (sound : Sound heap pointers)
    (holes : .hole ∉ pointers)
    (allocated : ∀ block ∈ blocks pointers, Memory.allocated ⟨heap, pointers⟩ block) :
    ∃ heap' copies, copyStrings heap pointers = .ok (heap', copies) ∧
      slotsOf heap' copies = slotsOf heap pointers ∧ Sound heap' copies ∧
      (∀ block ∈ blocks copies, heap.length ≤ block) ∧
      ∀ block < heap.length, block ∉ blocks pointers → heap'[block]? = heap[block]? := by
  induction pointers generalizing heap with
  | nil => exact ⟨heap, [], rfl, rfl, sound, by simp [blocks], fun _ _ _ => rfl⟩
  | cons pointer pointers ih =>
    cases pointer with
    | hole => exact absurd mem_cons_self holes
    | string block =>
      obtain ⟨b, hb⟩ := sound.live block mem_cons_self
      have hdistinct := nodup_cons.mp sound.distinct
      have hrest : Sound heap pointers := sound.sublist (sublist_cons_self _ _)
      obtain ⟨next, hfree, hlen, hcopy, hkept⟩ :=
        copied_string hb (allocated block mem_cons_self)
      have hsame : ∀ other ∈ blocks pointers, next[other]? = heap[other]? := by
        intro other ho
        apply hkept other (hrest.lt ho)
        rintro rfl
        exact hdistinct.1 ho
      obtain ⟨heap', copies, hrun, hslots, hsound, hfresh, hframe⟩ :=
        ih (hrest.congr hsame) (fun h => holes (mem_cons_of_mem _ h)) (by
          intro other ho
          have := allocated other (mem_cons_of_mem _ ho)
          simpa [Memory.allocated, hsame other ho] using this)
      rw [hlen] at hfresh hframe
      have hown : heap.length ∉ blocks pointers := fun h => Nat.lt_irrefl _ (hrest.lt h)
      have hcopy' : heap'[heap.length]? = some (some ⟨b.text, true⟩) := by
        rw [hframe _ (by omega) hown, hcopy]
      refine ⟨heap', .string heap.length :: copies, ?_, ?_, ?_, ?_, ?_⟩
      · simp only [copyStrings, load_of_some hb, ok_bind, allocate]
        rw [hfree, ok_bind, hrun]
        rfl
      · rw [slotsOf_string hcopy', slotsOf_string hb, hslots, slotsOf_congr hsame]
      · change Sound heap' ([] ++ .string heap.length :: copies)
        refine Sound.put hsound ?_ hcopy'
        intro h
        have := hfresh _ h
        omega
      · intro other ho
        obtain rfl | ho := mem_cons.mp ho
        · exact Nat.le_refl _
        · have := hfresh _ ho
          omega
      · intro other ho hne
        rw [blocks_string, mem_cons, not_or] at hne
        rw [hframe other (by omega) hne.2, hkept other ho hne.1]

/-- `add_new_env` puts the string between others, of which none changes. -/
theorem addNewEnv_eq {m : Memory} {env : Nat} {b : Block} (sound : Sound m.heap m.environ)
    (room : m.environ.length < argMax) (new : env ∉ blocks m.environ)
    (hb : m.heap[env]? = some (some b))
    (allocated : .hole ∉ m.environ → ∀ block ∈ blocks m.environ, m.allocated block) :
    ∃ m' front back, addNewEnv m env = .ok (.done, m') ∧ Sound m'.heap m'.environ ∧
      vars m.slots = vars front ++ vars back ∧ m'.slots = front ++ .env b.text :: back := by
  unfold addNewEnv
  obtain ⟨hno, hnone⟩ | ⟨front, back, henv, hsome⟩ := fillHole_cases env m.environ
  · obtain ⟨heap', copies, hrun, hslots, hsound, hfresh, hframe⟩ :=
      copyStrings_eq sound hno (allocated hno)
    have hlt := (List.getElem?_eq_some_iff.mp hb).1
    have hb' : heap'[env]? = some (some b) := by rw [hframe env hlt new, hb]
    have hput : Sound heap' (copies ++ [.string env]) := by
      apply Sound.put (by rwa [append_nil]) _ hb'
      rw [append_nil]
      intro h
      have := hfresh _ h
      omega
    refine ⟨⟨heap', copies ++ [.string env]⟩, m.slots, [], ?_, hput, (append_nil _).symm, ?_⟩
    · rw [hnone]
      simp only [Nat.not_le.mpr room, if_false, hrun, ok_bind]
      rfl
    · rw [Memory.slots, slotsOf_append, hslots]
      rw [slotsOf_string hb']
      rfl
  · have hsub : Sound m.heap (front ++ back) := by
      apply sound.sublist
      rw [henv, blocks_append, blocks_append]
      exact Sublist.refl _
    have hnew : env ∉ blocks (front ++ back) := by
      intro h
      apply new
      rw [henv, blocks_append]
      rwa [blocks_append] at h
    refine ⟨⟨m.heap, front ++ .string env :: back⟩, slotsOf m.heap front, slotsOf m.heap back,
      by rw [hsome]; rfl, hsub.put hnew hb, ?_, ?_⟩
    · rw [Memory.slots, henv, slotsOf_append, vars_append]
      rfl
    · rw [Memory.slots, slotsOf_append, slotsOf_string hb]

/-- The string that a call replaces is the one that it frees. -/
theorem freed_of_found {m : Memory} {front back : List Pointer} {block : Nat} {b : Block}
    {name : List UInt8} (henv : m.environ = front ++ .string block :: back)
    (live : Live m.heap m.environ)
    (hb : m.heap[block]? = some (some b)) (hname : b.text.name? = some name)
    (hfront : name ∉ names (slotsOf m.heap front)) (overwrite : Bool) :
    m.freed name overwrite = if overwrite then [block] else [] := by
  have hfind : (blocks m.environ).find?
      (fun block => (m.text? block).bind CString.name? = some name) = some block := by
    have hnone : (blocks front).find?
        (fun block => (m.text? block).bind CString.name? = some name) = none := by
      rw [find?_eq_none]
      intro other ho hname'
      obtain ⟨b', hb'⟩ := live other (by rw [henv, blocks_append]; exact mem_append_left _ ho)
      rw [text?_of_some hb'] at hname'
      exact hfront (mem_names_of_block ho hb' (of_decide_eq_true hname'))
    rw [henv, blocks_append, blocks_string, find?_append, hnone, none_or, find?_cons]
    simp [text?_of_some hb, hname]
  rw [Memory.freed, hfind]

theorem freed_of_missing {m : Memory} {name : List UInt8} (holes : .hole ∉ m.environ)
    (live : Live m.heap m.environ)
    (fresh : name ∉ names m.slots) (overwrite : Bool) :
    m.freed name overwrite = blocks m.environ := by
  have hfind : (blocks m.environ).find?
      (fun block => (m.text? block).bind CString.name? = some name) = none := by
    rw [find?_eq_none]
    intro other ho hname
    obtain ⟨b, hb⟩ := live other ho
    rw [text?_of_some hb] at hname
    exact fresh (mem_names_of_block ho hb (of_decide_eq_true hname))
  rw [Memory.freed, hfind]
  exact if_neg holes

structure Mirrors (environ : List Slot) (stored : Stored) : Prop where
  distinct : (names environ).Nodup
  lookup : ∀ name, stored name = (vars environ).lookup name

namespace Mirrors
variable {environ front back : List Slot} {stored : Stored} {name value : List UInt8}

variable {env : CString}

theorem insert (h : Mirrors environ stored) (split : vars environ = vars front ++ vars back)
    (fresh : name ∉ names environ) (hvar : splitVar env.chars = some (name, value)) :
    Mirrors (front ++ .env env :: back) (Function.update stored name (some value)) := by
  have hnames : names environ = names front ++ names back := by
    simp only [names, split, map_append]
  have hdistinct := h.distinct
  rw [hnames] at fresh hdistinct
  constructor
  · rw [names_append, names_env hvar]
    exact (nodup_middle).mpr (nodup_cons.mpr ⟨fresh, hdistinct⟩)
  · intro n
    have hfront : name ∉ (vars front).map Prod.fst := fun hm => fresh (mem_append_left _ hm)
    rw [vars_append, vars_env hvar, lookup_insert value hfront, ← split, ← h.lookup,
      Function.update_apply]

theorem erase (h : Mirrors (front ++ .env env :: back) stored)
    (hvar : splitVar env.chars = some (name, value)) :
    Mirrors (front ++ .hole :: back) (Function.update stored name none) ∧
      name ∉ names (front ++ .hole :: back) ∧ stored name = some value := by
  have hdistinct := h.distinct
  rw [names_append, names_env hvar, nodup_middle, nodup_cons] at hdistinct
  have hnames : names (front ++ .hole :: back) = names front ++ names back := by
    rw [names_append, names_hole]
  have hno : name ∉ names (front ++ .hole :: back) := hnames ▸ hdistinct.1
  have hfront : name ∉ (vars front).map Prod.fst :=
    fun hm => hdistinct.1 (mem_append_left _ hm)
  have hlookup : ∀ n, stored n = if n = name then some value else
      (vars (front ++ .hole :: back)).lookup n := by
    intro n
    rw [h.lookup, vars_append, vars_env hvar, lookup_insert value hfront, vars_append, vars_hole]
  refine ⟨⟨hnames ▸ hdistinct.2, ?_⟩, hno, by rw [hlookup, if_pos rfl]⟩
  intro n
  rw [Function.update_apply]
  split
  · rename_i hn
    rw [hn, lookup_eq_none hno]
  · rename_i hn
    rw [hlookup, if_neg hn]

theorem replace {env' : CString} {old : List UInt8}
    (h : Mirrors (front ++ .env env :: back) stored)
    (hold : splitVar env.chars = some (name, old))
    (hnew : splitVar env'.chars = some (name, value)) :
    Mirrors (front ++ .env env' :: back) (Function.update stored name (some value)) := by
  obtain ⟨hm, hno, -⟩ := h.erase hold
  have hsplit : vars (front ++ .hole :: back) = vars front ++ vars back := by
    rw [vars_append, vars_hole]
  have := hm.insert hsplit hno hnew
  rwa [Function.update_idem] at this

theorem not_stored (h : Mirrors environ stored) (fresh : name ∉ names environ) :
    stored name = none := by
  rw [h.lookup, lookup_eq_none fresh]

end Mirrors

theorem splitVar_constructEnv (valid : isValidEnvname envname) (envval : CString) :
    splitVar (constructEnv envname envval).chars = some (envname.chars, envval.chars) :=
  splitVar_eq_some.mpr ⟨rfl, by simpa [isValidEnvname] using valid⟩

theorem splitVar_of_isValidEnv (valid : isValidEnv string) :
    ∃ name value, splitVar string.chars = some (name, value) := by
  have hmem : equals ∈ string.chars := by simpa [isValidEnv] using valid
  obtain ⟨name, value, hsplit, hname⟩ := eq_append_cons_of_mem hmem
  exact ⟨name, value, splitVar_eq_some.mpr ⟨hsplit, hname⟩⟩

theorem Compared.get {name : CString} {environ : List Slot} (h : Compared name environ)
    {slot : Slot} (hi : environ[i]? = some slot) : Comparable name i slot := by
  obtain ⟨hlt, rfl⟩ := List.getElem?_eq_some_iff.mp hi
  exact h i hlt

/-- Under the condition the search of `getenv` is a lookup. -/
theorem getenvFrom_eq {heap : Heap} {name : CString} {pointers : List Pointer}
    (live : Live heap pointers)
    (compared : ∀ (k : Nat) slot, (slotsOf heap pointers)[k]? = some slot →
      Comparable name (i + k) slot)
    (alone : name.chars ∈ names (slotsOf heap pointers) →
      ∀ other ∈ names (slotsOf heap pointers), other <+: name.chars → other = name.chars) :
    getenvFrom heap name i pointers = .ok ((vars (slotsOf heap pointers)).lookup name.chars) := by
  induction pointers generalizing i with
  | nil => rfl
  | cons pointer pointers ih =>
    have hrest : ∀ (k : Nat) slot, (slotsOf heap pointers)[k]? = some slot →
        Comparable name (i + 1 + k) slot := by
      intro k slot hk
      rw [Nat.add_assoc, Nat.add_comm 1]
      exact compared (k + 1) slot hk
    cases pointer with
    | hole => exact ih live hrest alone
    | string block =>
      obtain ⟨b, hb⟩ := live block mem_cons_self
      rw [slotsOf_string hb] at alone compared ⊢
      have hcmp : Comparable name i (.env b.text) := compared 0 _ rfl
      have hnext := ih live.tail hrest fun hm other ho =>
        alone (mem_names_env.mpr (.inr hm)) other (mem_names_env.mpr (.inr ho))
      rw [getenvFrom, load_of_some hb, ok_bind, hcmp.scan]
      obtain ⟨hscan, hname⟩ | ⟨key, value, c, hvar, hpre, hscan, hget, hzero, -⟩ :=
        scan_cases name b.text
      · rw [hscan, ok_bind]
        cases hvar : splitVar b.text.chars with
        | none => rw [vars_env_none hvar, hnext]
        | some var =>
          have hne : name.chars ≠ var.1 := by
            intro he
            exact hname var.1 (by simp [CString.name?, hvar]) (he ▸ prefix_refl _)
          rw [vars_env hvar, lookup_cons, beq_false_of_ne hne, hnext]
      · simp only [hscan, hget, ok_bind, hzero, vars_env hvar, lookup_cons]
        by_cases hkey : key = name.chars
        · simp [hkey, pure, Except.pure]
        · -- NULL is returned at once, so the name must not come later
          have hno : name.chars ∉ names (slotsOf heap pointers) := by
            intro hm
            apply hkey
            apply alone (mem_names_env.mpr (.inr hm)) key _ hpre
            rw [mem_names_env]
            exact .inl (by simp [CString.name?, hvar])
          rw [if_neg hkey, beq_false_of_ne (Ne.symm hkey), lookup_eq_none hno]
          rfl

theorem mem_names {name : List UInt8} {environ : List Slot} :
    name ∈ names environ ↔ ∃ slot ∈ environ, slot.var?.map Prod.fst = some name := by
  simp only [names, vars, List.mem_map, List.mem_filterMap, Option.map_eq_some_iff]
  constructor
  · rintro ⟨var, ⟨slot, hslot, hvar⟩, rfl⟩
    exact ⟨slot, hslot, var, hvar, rfl⟩
  · rintro ⟨slot, hslot, var, hvar, rfl⟩
    exact ⟨var, ⟨slot, hslot, hvar⟩, rfl⟩

theorem Erasable.cases {name : CString} {environ : List Slot} (h : Erasable name environ) :
    (name.chars ∉ names environ ∧ .hole ∉ environ) ∨
      ∃ front env back, environ = front ++ .env env :: back ∧ env.name? = some name.chars ∧
        name.chars ∉ names front ∧ front.length = name.chars.length ∧ .hole ∉ front := by
  unfold Erasable at h
  split at h
  · rename_i hnone
    refine .inl ⟨?_, h⟩
    rw [mem_names]
    rintro ⟨slot, hslot, hname⟩
    have := List.findIdx?_eq_none_iff.mp hnone slot hslot
    simp [hname] at this
  · rename_i i hsome
    obtain ⟨hi, hname, hbefore⟩ := List.findIdx?_eq_some_iff_getElem.mp hsome
    obtain ⟨rfl, holes⟩ := h
    have hsplit : environ = environ.take name.chars.length ++
        environ[name.chars.length] :: environ.drop (name.chars.length + 1) := by simp
    cases hslot : environ[name.chars.length] with
    | hole =>
      rw [hslot] at hname
      simp [Slot.var?] at hname
    | env env =>
      rw [hslot] at hname hsplit
      refine .inr ⟨_, env, _, hsplit, of_decide_eq_true hname, ?_, by simp [Nat.le_of_lt hi], holes⟩
      rw [mem_names]
      rintro ⟨slot, hmem, hname'⟩
      obtain ⟨j, hj, rfl⟩ := mem_take_iff_getElem.mp hmem
      exact hbefore j (by omega) (by simpa using hname')

theorem unsetenvFind_skip {heap : Heap} {name : CString} {front : List Pointer}
    (live : Live heap front) (holes : .hole ∉ front)
    (others : name.chars ∉ names (slotsOf heap front)) (back : List Pointer) :
    unsetenvFind heap name (front ++ back) = unsetenvFind heap name back := by
  induction front with
  | nil => rfl
  | cons pointer front ih =>
    cases pointer with
    | hole => exact absurd mem_cons_self holes
    | string block =>
      obtain ⟨b, hb⟩ := live block mem_cons_self
      rw [slotsOf_string hb, mem_names_env, not_or] at others
      have hnext := ih live.tail
        (fun hm => holes (mem_cons_of_mem _ hm)) others.2
      rw [cons_append, unsetenvFind, load_of_some hb, ok_bind]
      obtain ⟨hscan, -⟩ | ⟨key, value, c, hvar, -, hscan, hget, hzero, -⟩ :=
        scan_cases name b.text
      · rw [hscan, ok_bind, hnext]
      · have hkey : key ≠ name.chars := fun he => others.1 (by simp [CString.name?, hvar, he])
        simp [hscan, hget, ok_bind, hzero, hkey, hnext]

theorem unsetenvFind_here {heap : Heap} {name : CString} {block : Nat} {b : Block}
    (hb : heap[block]? = some (some b)) (hname : b.text.name? = some name.chars)
    (back : List Pointer) :
    unsetenvFind heap name (.string block :: back) = .ok (some name.chars.length) := by
  rw [unsetenvFind, load_of_some hb, ok_bind]
  obtain ⟨hscan, hno⟩ | ⟨key, value, c, hvar, -, hscan, hget, hzero, -⟩ := scan_cases name b.text
  · exact absurd (prefix_refl _) (hno _ hname)
  · obtain rfl : key = name.chars := by simpa [CString.name?, hvar] using hname
    simp [hscan, hget, ok_bind, hzero, pure, Except.pure]

theorem hole_of_slots {heap : Heap} {pointers : List Pointer}
    (holes : .hole ∉ slotsOf heap pointers) : .hole ∉ pointers :=
  fun h => holes (mem_map_of_mem (f := slotAt heap) h)

/-- The strings of `environ` can be used, and they are the map. -/
structure Keeps (m : Memory) (stored : Stored) : Prop where
  sound : Sound m.heap m.environ
  mirrors : Mirrors m.slots stored

namespace Keeps
variable {m : Memory} {stored : Stored} {name value : List UInt8}

theorem congr {heap : Heap} (h : Keeps m stored)
    (same : ∀ block ∈ blocks m.environ, heap[block]? = m.heap[block]?) :
    Keeps { m with heap } stored where
  sound := h.sound.congr same
  mirrors := by
    change Mirrors (slotsOf heap m.environ) stored
    rw [slotsOf_congr same]
    exact h.mirrors

theorem addNewEnv {env : Nat} {b : Block} (h : Keeps m stored)
    (room : m.environ.length < argMax) (fresh : name ∉ names m.slots)
    (new : env ∉ blocks m.environ) (hb : m.heap[env]? = some (some b))
    (hvar : splitVar b.text.chars = some (name, value))
    (allocated : .hole ∉ m.environ → ∀ block ∈ blocks m.environ, m.allocated block) :
    ∃ m', Environ.addNewEnv m env = .ok (.done, m') ∧
      Keeps m' (Function.update stored name (some value)) := by
  obtain ⟨m', front, back, hadd, hsound, hsplit, hslots⟩ :=
    addNewEnv_eq h.sound room new hb allocated
  refine ⟨m', hadd, hsound, ?_⟩
  rw [hslots]
  exact h.mirrors.insert hsplit fresh hvar

/-- A string takes the place of another one of its name, which is freed. -/
theorem replace {front back : List Pointer} {heap : Heap} {block env : Nat} {b b' : Block}
    (h : Keeps m stored) (henv : m.environ = front ++ .string block :: back)
    (hb : m.heap[block]? = some (some b)) (hname : b.text.name? = some name)
    (same : ∀ other ∈ blocks m.environ, other ≠ block → heap[other]? = m.heap[other]?)
    (new : env ∉ blocks m.environ) (hb' : heap[env]? = some (some b'))
    (hvar : splitVar b'.text.chars = some (name, value)) :
    Keeps ⟨heap, m.environ.set front.length (.string env)⟩
      (Function.update stored name (some value)) := by
  obtain ⟨⟨_, old⟩, hold, rfl⟩ := map_eq_some_iff.mp hname
  have hset : m.environ.set front.length (.string env) = front ++ .string env :: back := by
    simp [henv]
  have hmirrors := h.mirrors
  have hsound := h.sound
  rw [Memory.slots, henv, slotsOf_append, slotsOf_string hb] at hmirrors
  rw [henv] at hsound new same
  have hblocks : blocks (front ++ .string block :: back) = blocks front ++ block :: blocks back := by
    rw [blocks_append, blocks_string]
  have hdistinct := hsound.distinct
  rw [hblocks] at hdistinct new same
  have hout := (nodup_cons.mp (nodup_middle.mp hdistinct)).1
  have hrest : Sound m.heap (front ++ back) := by
    apply hsound.sublist
    rw [hblocks, blocks_append]
    exact (Sublist.refl _).append (sublist_cons_self _ _)
  have hsame : ∀ other ∈ blocks front ++ blocks back, heap[other]? = m.heap[other]? := by
    intro other ho
    apply same other
    · rw [mem_append, mem_cons]
      exact (mem_append.mp ho).imp_right .inr
    · rintro rfl
      exact hout ho
  rw [hset]
  constructor
  · apply (hrest.congr (by rwa [blocks_append])).put _ hb'
    rw [blocks_append]
    intro ho
    apply new
    rw [mem_append, mem_cons]
    exact (mem_append.mp ho).imp_right .inr
  · change Mirrors (slotsOf heap (front ++ .string env :: back)) _
    rw [slotsOf_append, slotsOf_string hb',
      slotsOf_congr fun other ho => hsame other (mem_append_left _ ho),
      slotsOf_congr fun other ho => hsame other (mem_append_right _ ho)]
    exact hmirrors.replace hold hvar

theorem getenv (h : Keeps m stored) {name : CString} (valid : isValidEnvname name)
    (compared : Compared name m.slots) (alone : name.chars ∈ names m.slots →
      ∀ other ∈ names m.slots, other <+: name.chars → other = name.chars) :
    Environ.getenv m name = .ok (.value (stored name.chars)) := by
  have hfrom : getenvFrom m.heap name 0 m.environ = .ok ((vars m.slots).lookup name.chars) := by
    apply getenvFrom_eq h.sound.live _ alone
    intro k slot hk
    rw [Nat.zero_add]
    exact compared.get hk
  rw [Environ.getenv, if_pos valid, hfrom, h.mirrors.lookup]
  rfl

theorem setenv (h : Keeps m stored) {envname : CString} (envval : CString)
    (overwrite : Bool) (valid : isValidEnvname envname) (room : m.environ.length < argMax)
    (compared : Compared envname m.slots)
    (allocated : ∀ block ∈ m.freed envname.chars overwrite, m.allocated block) :
    ∃ m', Environ.setenv m envname envval overwrite = .ok (.done, m') ∧
      Keeps m' (refer m.text? stored (.setenv envname envval overwrite)).2 := by
  have hnew := splitVar_constructEnv valid envval
  have htest : ∀ k env, m.slots[k]? = some (.env env) →
      setenvTest envname (0 + k) env = .ok (decide (env.name? = some envname.chars)) := by
    intro k env hk
    rw [Nat.zero_add]
    exact setenvTest_eq (compared.get hk)
  have hown : m.heap.length ∉ blocks m.environ := fun hm => Nat.lt_irrefl _ (h.sound.lt hm)
  rw [Environ.setenv, if_pos valid]
  obtain ⟨hno, hfind⟩ | ⟨front, block, b, back, henv, hb, hname, hfront, hfind⟩ :=
    findFrom_cases 0 m.environ h.sound.live htest
  · rw [hfind, ok_bind]
    have hextend := h.sound.extend (some ⟨constructEnv envname envval, true⟩)
    have hk := h.congr hextend
    have hfresh : envname.chars ∉ names (Memory.slots
        { m with heap := m.heap ++ [some ⟨constructEnv envname envval, true⟩] }) := by
      rw [Memory.slots, slotsOf_congr hextend]
      exact hno
    obtain ⟨m', hadd, hm⟩ := hk.addNewEnv room hfresh hown getElem?_concat_length hnew (by
      intro holes block hblock
      have hfreed := freed_of_missing (m := m) holes h.sound.live hno overwrite
      have := allocated block (hfreed ▸ hblock)
      rwa [Memory.allocated, hextend block hblock])
    refine ⟨m', hadd, ?_⟩
    simpa [refer, h.mirrors.not_stored hno] using hm
  · rw [freed_of_found henv h.sound.live hb hname hfront] at allocated
    rw [hfind, ok_bind, Nat.zero_add]
    cases overwrite with
    | false =>
      refine ⟨m, rfl, ?_⟩
      obtain ⟨⟨_, old⟩, hvar, hold⟩ := map_eq_some_iff.mp hname
      have hmirrors := h.mirrors
      rw [Memory.slots, henv, slotsOf_append, slotsOf_string hb] at hmirrors
      have hstored := (hmirrors.erase hvar).2.2
      simp only at hold
      subst hold
      simpa [refer, hstored] using h
    | true =>
      have hfree := free_of_allocated (allocated block mem_cons_self)
      simp only [if_true, hfree, ok_bind, allocate, length_set]
      refine ⟨_, rfl, ?_⟩
      have hlen : m.heap.length = (m.heap.set block none).length := length_set.symm
      have hlast : (m.heap.set block none ++ [some ⟨constructEnv envname envval, true⟩])[
          m.heap.length]? = some (some ⟨constructEnv envname envval, true⟩) := by
        rw [hlen]
        exact getElem?_concat_length
      refine h.replace henv hb hname ?_ hown hlast hnew
      intro other ho hne
      rw [getElem?_append_left (by rw [← hlen]; exact h.sound.lt ho), getElem?_set_ne hne.symm]

theorem putenv (h : Keeps m stored) {string : Nat} (valid : (m.text? string).any isValidEnv)
    (room : m.environ.length < argMax) (new : string ∉ blocks m.environ)
    (allocated : ∀ name ∈ (m.text? string).bind CString.name?,
      ∀ block ∈ m.freed name true, m.allocated block) :
    ∃ m', Environ.putenv m string = .ok (.done, m') ∧
      Keeps m' (refer m.text? stored (.putenv string)).2 := by
  obtain ⟨text, htext, valid⟩ := (Option.any_eq_true _ _).mp valid
  obtain ⟨b, hb, rfl⟩ : ∃ b, m.heap[string]? = some (some b) ∧ b.text = text := by
    rcases hs : m.heap[string]? with - | - | b <;> simp_all [Memory.text?]
  obtain ⟨name, value, hvar⟩ := splitVar_of_isValidEnv valid
  have hkey : b.text.name? = some name := by simp [CString.name?, hvar]
  have hrefer : (refer m.text? stored (.putenv string)).2 =
      Function.update stored name (some value) := by
    simp only [refer, htext, bind_some, hvar]
  replace allocated := allocated name (by simp [htext, hkey])
  simp only [Environ.putenv, load_of_some hb, ok_bind, if_pos valid, hrefer]
  obtain ⟨hno, hfind⟩ | ⟨front, block, b', back, henv, hb', hname, hfront, hfind⟩ :=
    findFrom_cases 0 m.environ h.sound.live fun k env _ => putenvTest_eq hkey (0 + k)
  · rw [hfind, ok_bind]
    apply h.addNewEnv room hno new hb hvar
    intro holes
    rwa [freed_of_missing holes h.sound.live hno] at allocated
  · rw [freed_of_found henv h.sound.live hb' hname hfront] at allocated
    rw [hfind, ok_bind, Nat.zero_add]
    simp only [free_of_allocated (allocated block mem_cons_self), ok_bind]
    refine ⟨_, rfl, h.replace henv hb' hname ?_ new ?_ hvar⟩
    · intro other _ hne
      exact getElem?_set_ne hne.symm
    · rw [getElem?_set_ne, hb]
      rintro rfl
      rw [henv, blocks_append, blocks_string] at new
      exact new (mem_append_right _ mem_cons_self)

theorem unsetenv (h : Keeps m stored) {name : CString} (valid : isValidEnvname name)
    (erasable : Erasable name m.slots) :
    ∃ m', Environ.unsetenv m name = .ok (.done, m') ∧
      Keeps m' (refer m.text? stored (.unsetenv name)).2 := by
  rw [Environ.unsetenv, if_pos valid]
  obtain ⟨hno, holes⟩ | ⟨front, env, back, hslots, hname, hfront, hlen, holes⟩ := erasable.cases
  · have hskip := unsetenvFind_skip h.sound.live (hole_of_slots holes) hno []
    rw [append_nil] at hskip
    refine ⟨m, by rw [hskip]; rfl, ?_⟩
    change Keeps m (Function.update stored name.chars none)
    rwa [← h.mirrors.not_stored hno, Function.update_eq_self]
  · obtain ⟨before, rest, henv, rfl, hrest⟩ := map_eq_append_iff.mp hslots
    obtain ⟨pointer, after, rfl, hpointer, rfl⟩ := map_eq_cons_iff.mp hrest
    have hsound := h.sound
    have hmirrors := h.mirrors
    rw [henv] at hsound
    cases pointer with
    | hole => simp [slotAt] at hpointer
    | string block =>
      obtain ⟨b, hb⟩ := hsound.live block (by
        rw [blocks_append]
        exact mem_append_right _ mem_cons_self)
      obtain rfl : b.text = env := Slot.env.inj ((slotAt_of_some hb).symm.trans hpointer)
      rw [length_map] at hlen
      have hset : m.environ.set name.chars.length .hole = before ++ .hole :: after := by
        simp [henv, ← hlen]
      have hlive : Live m.heap before := by
        intro other ho
        apply hsound.live
        rw [blocks_append]
        exact mem_append_left _ ho
      have hfind : unsetenvFind m.heap name m.environ = .ok (some name.chars.length) := by
        rw [henv, unsetenvFind_skip hlive (hole_of_slots holes) hfront, unsetenvFind_here hb hname]
      refine ⟨{ m with environ := before ++ .hole :: after }, ?_, ?_, ?_⟩
      · have hlt : name.chars.length < m.environ.length := by simp [henv, ← hlen]
        simp only [hfind, ok_bind, if_pos hlt, hset]
        rfl
      · apply hsound.sublist
        rw [blocks_append, blocks_append]
        exact (Sublist.refl _).append (sublist_cons_self _ _)
      · obtain ⟨⟨key, value⟩, hvar, rfl⟩ := map_eq_some_iff.mp hname
        rw [Memory.slots, henv, slotsOf_append, slotsOf_string hb] at hmirrors
        have := (hmirrors.erase hvar).1
        change Mirrors (slotsOf m.heap (before ++ .hole :: after)) _
        rw [slotsOf_append]
        exact this

theorem perform (h : Keeps m stored) {op : Op} (valid : Valid m op) (careful : Careful m op) :
    ∃ m', Environ.perform m op = .ok ((refer m.text? stored op).1, m') ∧
      Keeps m' (refer m.text? stored op).2 := by
  cases op with
  | getenv name =>
    refine ⟨m, ?_, h⟩
    rw [Environ.perform, h.getenv valid careful.1 careful.2]
    rfl
  | setenv envname envval overwrite =>
    exact h.setenv envval overwrite valid.1 valid.2 careful.1 careful.2
  | putenv string => exact h.putenv valid.1 valid.2 careful.1 careful.2
  | unsetenv name => exact h.unsetenv valid careful

end Keeps

def started (initial : List Block) : Both :=
  let memory : Memory := ⟨initial.map some, (range initial.length).map .string⟩
  { memory, stored := fun name => (vars memory.slots).lookup name }

theorem sound_started (initial : List Block) :
    Sound (started initial).memory.heap (started initial).memory.environ := by
  have hblocks : blocks (started initial).memory.environ = range initial.length := by
    simp [blocks, started, filterMap_map, Function.comp_def, Pointer.block?]
  constructor
  · rw [hblocks]
    exact nodup_range
  · intro block hb
    rw [hblocks, mem_range] at hb
    exact ⟨initial[block], by simp [started, hb]⟩

structure Right (b : Both) : Prop where
  keeps : Keeps b.memory b.stored
  same : b.got = b.expected

/-- A call, and what the program does between calls, keeps the two sides together. -/
theorem Right.step {b : Both} {e : Event} (h : Right b) (ok : Admitted b e) :
    ∃ b', step b e = some b' ∧ Right b' := by
  cases e with
  | call op =>
    obtain ⟨m', hp, hm⟩ := h.keeps.perform ok.1 ok.2
    refine ⟨_, by rw [Environ.step, hp], hm, ?_⟩
    rw [h.same]
  | make text allocated =>
    exact ⟨_, rfl, h.keeps.congr (h.keeps.sound.extend _), h.same⟩
  | free block =>
    have hkept : ∀ other ∈ blocks b.memory.environ,
        (b.memory.heap.set block none)[other]? = b.memory.heap[other]? := by
      intro other ho
      apply getElem?_set_ne
      rintro rfl
      exact ok.1 ho
    have hstep : Environ.step b (.free block) =
        some { b with memory.heap := b.memory.heap.set block none } := by
      simp only [Environ.step, free_of_allocated ok.2]
    exact ⟨_, hstep, h.keeps.congr hkept, h.same⟩

def nameA : CString := ⟨[97], by decide⟩

def nameAB : CString := ⟨[97, 98], by decide⟩

def nameCC : CString := ⟨[99, 99], by decide⟩

end Mos.Environ
