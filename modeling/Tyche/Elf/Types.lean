/-
ELF files (`elf.h`) as the library and the loader read them: the records of
the format with the fields that are used, and what reading and allocating
does to the process.

A pointer to an array is the list of its elements. To use an index behind
its end is an outcome of its own.
-/
import Tyche.Lib.Bytes

namespace Tyche.Elf

open Tyche.Bytes

/-! ## The records -/

/-- `Elf64_Ehdr`. -/
structure Ehdr where
  eIdent : List UInt8
  ePhoff : Nat
  eShoff : Nat
  ePhentsize : Nat
  ePhnum : Nat
  eShnum : Nat
  eShstrndx : Nat
deriving DecidableEq, Repr

/-- `Elf64_Phdr`. -/
structure Phdr where
  pType : Nat
  pFlags : Nat
  pOffset : Nat
  pVaddr : Nat
  pFilesz : Nat
  pMemsz : Nat
  pAlign : Nat
deriving DecidableEq, Repr

/-- `Elf64_Shdr`. -/
structure Shdr where
  shName : Nat
  shType : Nat
  shAddr : Nat
  shOffset : Nat
  shSize : Nat
  shLink : Nat
deriving DecidableEq, Repr

/-- `Elf64_Sym`. -/
structure Sym where
  stName : Nat
  stInfo : Nat
  stOther : Nat
  stShndx : Nat
  stValue : Nat
  stSize : Nat
deriving DecidableEq, Repr

abbrev ehdrSize : Nat := 64
abbrev phdrSize : Nat := 56
abbrev shdrSize : Nat := 64
abbrev symSize : Nat := 24

/-- `ELFMAG`. -/
abbrev elfMag : List UInt8 := [0x7f, 0x45, 0x4c, 0x46]

abbrev shtSymtab : Nat := 2
abbrev shtDynsym : Nat := 11
abbrev ptLoad : Nat := 1

def Ehdr.decode (bytes : List UInt8) : Ehdr where
  eIdent := slice bytes 0 16
  ePhoff := number (slice bytes 32 8)
  eShoff := number (slice bytes 40 8)
  ePhentsize := number (slice bytes 54 2)
  ePhnum := number (slice bytes 56 2)
  eShnum := number (slice bytes 60 2)
  eShstrndx := number (slice bytes 62 2)

def Phdr.decode (bytes : List UInt8) : Phdr where
  pType := number (slice bytes 0 4)
  pFlags := number (slice bytes 4 4)
  pOffset := number (slice bytes 8 8)
  pVaddr := number (slice bytes 16 8)
  pFilesz := number (slice bytes 32 8)
  pMemsz := number (slice bytes 40 8)
  pAlign := number (slice bytes 48 8)

def Shdr.decode (bytes : List UInt8) : Shdr where
  shName := number (slice bytes 0 4)
  shType := number (slice bytes 4 4)
  shAddr := number (slice bytes 16 8)
  shOffset := number (slice bytes 24 8)
  shSize := number (slice bytes 32 8)
  shLink := number (slice bytes 40 4)

def Sym.decode (bytes : List UInt8) : Sym where
  stName := number (slice bytes 0 4)
  stInfo := number (slice bytes 4 1)
  stOther := number (slice bytes 5 1)
  stShndx := number (slice bytes 6 2)
  stValue := number (slice bytes 8 8)
  stSize := number (slice bytes 16 8)

/-! ## The process -/

/-- A file that is open for reading, and the largest offset that its file
system takes. -/
structure File where
  bytes : List UInt8
  maxbytes : Nat
  fits : bytes.length ≤ maxbytes
  signed : maxbytes < 2 ^ 63

/-- The file, and the allocator: whether the `k`-th allocation succeeds, of
so many bytes. -/
structure Env where
  file : File
  malloc : (k size : Nat) → Bool

/-- The position in the file, and the number of allocations so far. -/
structure Process where
  pos : Nat
  allocs : Nat
deriving DecidableEq, Repr

/-- What ends the process: a failed `TEST`, an access outside of an array,
or a division by 0. -/
inductive Stop
  | abort
  | outside
  | divide
deriving DecidableEq, Repr

/-- A part of the program, up to its result. -/
def Action (α : Type) : Type := Process → Except Stop (α × Process)

instance : Monad Action where
  pure a s := .ok (a, s)
  bind x f s :=
    match x s with
    | .ok (a, s) => f a s
    | .error stop => .error stop

variable {α β : Type}

def stop (reason : Stop) : Action α := fun _ => .error reason

/-- `TEST`. -/
def test (cond : Prop) [Decidable cond] : Action Unit := if cond then pure () else stop .abort

/-- The element of an array. -/
def index (elems : List α) (i : Nat) : Action α :=
  match elems[i]? with
  | some elem => pure elem
  | none => stop .outside

/-- `malloc` or `calloc`, and the `TEST` of its result. -/
def malloc (env : Env) (size : Nat) : Action Unit := fun s =>
  if env.malloc s.allocs size then .ok ((), { s with allocs := s.allocs + 1 }) else .error .abort

/-- The `TEST` that `lseek` returns the offset. It returns -1 for an offset
that is refused, and -1 is the offset `2 ^ 64 - 1`. -/
def lseek (env : Env) (off : Nat) : Action Unit := fun s =>
  if off ≤ env.file.maxbytes then .ok ((), { s with pos := off })
  else if off = 2 ^ 64 - 1 then .ok ((), s)
  else .error .abort

/-- The most bytes that one `read` transfers. -/
abbrev maxRead : Nat := 0x7ffff000

/-- `read`, from the position. -/
def read (env : Env) (len : Nat) : Action (List UInt8) := fun s =>
  let bytes := slice env.file.bytes s.pos (min len maxRead)
  .ok (bytes, { s with pos := s.pos + bytes.length })

/-! ## How an action ends -/

section Action

variable {x : Action α} {f : α → Action β} {s s' : Process} {a : α}

theorem bind_ok (h : x s = .ok (a, s')) : (x >>= f) s = f a s' := by
  show (match x s with | .ok (a, s) => f a s | .error stop => .error stop) = f a s'
  rw [h]

theorem bind_error {reason : Stop} (h : x s = .error reason) : (x >>= f) s = .error reason := by
  show (match x s with | .ok (a, s) => f a s | .error stop => .error stop) = .error reason
  rw [h]

theorem bind_eq_ok {r : β × Process} : (x >>= f) s = .ok r ↔ ∃ a s', x s = .ok (a, s') ∧ f a s' = .ok r := by
  show (match x s with | .ok (a, s) => f a s | .error stop => .error stop) = .ok r ↔ _
  rcases x s with stop | ⟨b, t⟩ <;> simp

/-- The action accesses nothing outside of its arrays. -/
def Action.Inside (x : Action α) (s : Process) : Prop := x s ≠ .error .outside

/-- An action stays inside if its first part does, and then the rest. -/
theorem inside_bind : (x >>= f).Inside s ↔ x.Inside s ∧ ∀ a s', x s = .ok (a, s') → (f a).Inside s' := by
  show (match x s with | .ok (a, s) => f a s | .error stop => .error stop) ≠ .error .outside ↔
    x s ≠ .error .outside ∧ ∀ a s', x s = .ok (a, s') → f a s' ≠ .error .outside
  rcases x s with stop | ⟨b, t⟩ <;> simp

theorem inside_bind_ok (h : x s = .ok (a, s')) : (x >>= f).Inside s ↔ (f a).Inside s' := by
  unfold Action.Inside
  rw [bind_ok h]

theorem inside_pure (a : α) (s : Process) : (pure a : Action α).Inside s := fun h => by cases h

theorem inside_test (cond : Prop) [Decidable cond] (s : Process) : (test cond).Inside s := by
  unfold test
  split
  · exact inside_pure () s
  · exact fun h => by cases h

theorem inside_malloc (env : Env) (size : Nat) (s : Process) : (malloc env size).Inside s := by
  unfold malloc Action.Inside
  dsimp only
  split <;> simp

theorem inside_lseek (env : Env) (off : Nat) (s : Process) : (lseek env off).Inside s := by
  unfold lseek Action.Inside
  dsimp only
  split
  · simp
  · split <;> simp

theorem inside_read (env : Env) (len : Nat) (s : Process) : (read env len).Inside s := fun h => by cases h

/-- An array is accessed inside exactly below its length. -/
theorem inside_index {elems : List α} {i : Nat} : (index elems i).Inside s ↔ i < elems.length := by
  unfold index
  cases h : elems[i]? with
  | none => exact ⟨fun hinside => absurd rfl hinside, fun hi => absurd hi (by simpa using h)⟩
  | some a => exact ⟨fun _ => (List.getElem?_eq_some_iff.1 h).1, fun _ => inside_pure a s⟩

theorem index_ok {elems : List α} {i : Nat} (h : elems[i]? = some a) (s : Process) : index elems i s = .ok (a, s) := by
  unfold index
  rw [h]
  rfl

theorem test_ok {cond : Prop} [Decidable cond] (h : cond) (s : Process) : test cond s = .ok ((), s) := by
  unfold test
  rw [if_pos h]
  rfl

theorem test_failed {cond : Prop} [Decidable cond] (h : ¬ cond) (s : Process) : test cond s = .error .abort := by
  unfold test
  rw [if_neg h]
  rfl

theorem malloc_ok {env : Env} {size : Nat} (h : env.malloc s.allocs size = true) :
    malloc env size s = .ok ((), { s with allocs := s.allocs + 1 }) := if_pos h

theorem malloc_failed {env : Env} {size : Nat} (h : ¬ env.malloc s.allocs size = true) : malloc env size s = .error .abort :=
  if_neg h

theorem lseek_ok {env : Env} {off : Nat} (h : off ≤ env.file.maxbytes) (s : Process) :
    lseek env off s = .ok ((), { s with pos := off }) := if_pos h

theorem test_eq_ok {cond : Prop} [Decidable cond] {u : Unit} : test cond s = .ok (u, s') ↔ cond ∧ s' = s := by
  unfold test
  split
  next h =>
    refine ⟨fun heq => ⟨h, ?_⟩, fun heq => by rw [heq.2]; rfl⟩
    cases heq
    rfl
  next h =>
    refine ⟨fun heq => ?_, fun heq => absurd heq.1 h⟩
    cases heq

end Action

end Tyche.Elf
