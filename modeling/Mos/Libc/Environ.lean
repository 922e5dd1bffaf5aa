import Mathlib.Data.List.Basic

namespace Mos.Environ

structure CString where
  chars : List UInt8
  terminated : 0 ∉ chars
  deriving DecidableEq, Repr

/-- A string in memory. Only what malloc returned may be freed. -/
structure Block where
  text : CString
  allocated : Bool
  deriving DecidableEq, Repr

/-- The strings by their number; `none` is one that was freed. A number is not given again: the
use of a string that was freed is a fault already. -/
abbrev Heap := List (Option Block)

inductive Pointer where
  | hole
  | string (block : Nat)
  deriving DecidableEq, Repr

structure Memory where
  heap : Heap
  environ : List Pointer
  deriving DecidableEq, Repr

/-- What no run may come to: a read behind the end of a string, a read through `ENV_HOLE`, a
write to where `environ` has its NULL or behind that, a read of a string that was freed, or a
free of what is not allocated. -/
inductive Fault where
  | beyond
  | holeRead
  | terminator
  | freed
  | badFree
  deriving DecidableEq, Repr

inductive Errno where
  | einval
  | enomem
  deriving DecidableEq, Repr

/-- What a call returns: a value or NULL, 0, or a failure with the `errno` that it sets. -/
inductive Reply where
  | value (v : Option (List UInt8))
  | done
  | failed (errno : Option Errno)
  deriving DecidableEq, Repr

def equals : UInt8 := 61

def argMax : Nat := 65536

def CString.get (s : CString) (i : Nat) : Except Fault UInt8 :=
  match s.chars[i]? with
  | some c => pure c
  | none => if i = s.chars.length then pure 0 else throw .beyond

def isValidEnvname (envname : CString) : Bool := !envname.chars.contains equals

def isValidEnv (env : CString) : Bool := env.chars.contains equals

def constructEnv (envname envval : CString) : CString where
  chars := envname.chars ++ equals :: envval.chars
  terminated := by
    have := envname.terminated
    have := envval.terminated
    simp_all [equals]

def load (heap : Heap) (block : Nat) : Except Fault CString :=
  match heap[block]? with
  | some (some b) => pure b.text
  | _ => throw .freed

/-- `strdup`, and the `calloc` of `construct_env`. -/
def allocate (heap : Heap) (text : CString) : Nat × Heap :=
  (heap.length, heap ++ [some ⟨text, true⟩])

def free (heap : Heap) (block : Nat) : Except Fault Heap :=
  match heap[block]? with
  | some (some ⟨_, true⟩) => pure (heap.set block none)
  | _ => throw .badFree

def fillHole (env : Nat) : List Pointer → Option (List Pointer)
  | [] => none
  | .hole :: pointers => some (.string env :: pointers)
  | .string block :: pointers => (fillHole env pointers).map (.string block :: ·)

/-- The loop of `add_new_env` over the old strings. -/
def copyStrings (heap : Heap) : List Pointer → Except Fault (Heap × List Pointer)
  | [] => pure (heap, [])
  | .hole :: _ => throw .holeRead
  | .string block :: pointers => do
    let text ← load heap block
    let (copy, heap) := allocate heap text
    let heap ← free heap block
    let (heap, copies) ← copyStrings heap pointers
    pure (heap, .string copy :: copies)

def addNewEnv (m : Memory) (env : Nat) : Except Fault (Reply × Memory) :=
  match fillHole env m.environ with
  | some filled => pure (.done, { m with environ := filled })
  | none =>
    if argMax ≤ m.environ.length then pure (.failed (some .enomem), m)
    else do
      let (heap, copies) ← copyStrings m.heap m.environ
      pure (.done, ⟨heap, copies ++ [.string env]⟩)

/-- The inner loops: the characters of a string are compared with the expected ones up to its
`=`. What comes back is where that is and the value behind it. -/
def scan (expected : Nat → Except Fault UInt8) :
    List UInt8 → Nat → Except Fault (Option (Nat × List UInt8))
  | [], _ => pure none
  | c :: chars, j =>
    if c = equals then pure (some (j, chars))
    else do
      let e ← expected j
      if c ≠ e then pure none else scan expected chars (j + 1)

/-- The loop of `getenv` from the `i`-th string on. It compares with `name[i]`. -/
def getenvFrom (heap : Heap) (name : CString) :
    Nat → List Pointer → Except Fault (Option (List UInt8))
  | _, [] => pure none
  | i, .hole :: pointers => getenvFrom heap name (i + 1) pointers
  | i, .string block :: pointers => do
    let env ← load heap block
    match ← scan (fun _ => name.get i) env.chars 0 with
    | none => getenvFrom heap name (i + 1) pointers
    | some (j, value) =>
      let c ← name.get j
      pure (if c = 0 then some value else none)

def getenv (m : Memory) (name : CString) : Except Fault Reply :=
  if isValidEnvname name then do
    let v ← getenvFrom m.heap name 0 m.environ
    pure (.value v)
  else pure (.failed (some .einval))

/-- The loop of `setenv` and `putenv` from the `i`-th string on: the place of the first one that
passes the test, and that string. -/
def findFrom (heap : Heap) (test : Nat → CString → Except Fault Bool) :
    Nat → List Pointer → Except Fault (Option (Nat × Nat))
  | _, [] => pure none
  | i, .hole :: pointers => findFrom heap test (i + 1) pointers
  | i, .string block :: pointers => do
    let env ← load heap block
    if ← test i env then pure (some (i, block)) else findFrom heap test (i + 1) pointers

/-- Whether `setenv` takes the `i`-th string for the variable. It compares with `envname[i]`. -/
def setenvTest (envname : CString) (i : Nat) (env : CString) : Except Fault Bool := do
  match ← scan (fun _ => envname.get i) env.chars 0 with
  | none => pure false
  | some (j, _) =>
    let c ← envname.get j
    pure (c = 0)

def setenv (m : Memory) (envname envval : CString) (overwrite : Bool) :
    Except Fault (Reply × Memory) :=
  if isValidEnvname envname then do
    match ← findFrom m.heap (setenvTest envname) 0 m.environ with
    | some (i, block) =>
      if overwrite then do
        let heap ← free m.heap block
        let (env, heap) := allocate heap (constructEnv envname envval)
        pure (.done, ⟨heap, m.environ.set i (.string env)⟩)
      else pure (.done, m)
    | none =>
      let (env, heap) := allocate m.heap (constructEnv envname envval)
      addNewEnv { m with heap } env
  else pure (.failed (some .einval), m)

def putenvTest (string : CString) (_ : Nat) (env : CString) : Except Fault Bool := do
  match ← scan string.get env.chars 0 with
  | none => pure false
  | some (j, _) =>
    let c ← string.get j
    pure (c = equals)

/-- `putenv` stores the pointer that it is given. -/
def putenv (m : Memory) (string : Nat) : Except Fault (Reply × Memory) := do
  let text ← load m.heap string
  if isValidEnv text then
    match ← findFrom m.heap (putenvTest text) 0 m.environ with
    | some (i, block) =>
      let heap ← free m.heap block
      pure (.done, ⟨heap, m.environ.set i (.string string)⟩)
    | none => addNewEnv m string
  else pure (.failed none, m)

/-- The loop of `unsetenv`, which does not look for holes. What comes back is the place of `=`
in the string that matches. -/
def unsetenvFind (heap : Heap) (name : CString) : List Pointer → Except Fault (Option Nat)
  | [] => pure none
  | .hole :: _ => throw .holeRead
  | .string block :: pointers => do
    let env ← load heap block
    match ← scan name.get env.chars 0 with
    | none => unsetenvFind heap name pointers
    | some (j, _) =>
      let c ← name.get j
      if c = 0 then pure (some j) else unsetenvFind heap name pointers

def unsetenv (m : Memory) (name : CString) : Except Fault (Reply × Memory) :=
  if isValidEnvname name then do
    match ← unsetenvFind m.heap name m.environ with
    | none => pure (.done, m)
    | some j =>
      if j < m.environ.length then pure (.done, { m with environ := m.environ.set j .hole })
      else throw .terminator
  else pure (.failed (some .einval), m)

end Mos.Environ
