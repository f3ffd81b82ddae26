/-
The driver (`ioctl.c`): the commands of any processes on one list of
enclaves, and the runs they make.

A command that faults kills the process that issued it, and the driver goes
on; a command that follows a freed pointer is the last one.
-/
import Tyche.Enclave.Commit
import Tyche.Enclave.Regions
import Tyche.Lib.Cursor
import Mathlib.Logic.Relation

namespace Tyche.Enclave

open Tyche.Pts (Outcome)

/-- The state of the driver: the list of enclaves, the counter of handles,
the `cr3` registered for debugging, the tables in memory, and the log. -/
structure Driver where
  enclaves : List Encl
  tycheIds : Nat
  otherCr3 : Nat
  mem : Nat → Nat → Nat
  log : List Event

/-- `tyche_encl_transition_t`. -/
structure Transition where
  handle : Nat
  args : Nat
deriving DecidableEq, Repr

/-- The commands, with the message copied from the process, if that succeeds.
A commit goes on when it does not, with what was copied. `out` says whether
the answer can be copied back. -/
inductive Command
  | dbg (handle : Nat)
  | transition (transition : Option Transition)
  | delete (handle : Nat)
  | create (out : Bool)
  | addRegion (region : Option AddRegion)
  | commit (commit : CommitMessage) (out : Bool)
  | addStack (region : Option AddRegion)
  | other
deriving DecidableEq, Repr

/-! ## The enclaves of a process -/

/-- `find_enclave`, for the process `pid`. -/
def findEnclave (pid handle : Nat) (enclaves : List Encl) : Option (Cursor Encl) :=
  match Cursor.find (fun encl => encl.handle == handle) enclaves with
  | none => none
  | some encl => if encl.elem.pid ≠ pid then none else some encl

/-- The driver did something. -/
def Driver.record (s : Driver) (e : Event) : Driver := { s with log := e :: s.log }

/-- `add_enclave`. -/
def Driver.addEnclave (env : Env) (pid handle : Nat) (s : Driver) : Int × Driver :=
  if s.enclaves.any fun encl => encl.handle == handle then (-1, s)
  else
    let ok := env.kmalloc s.log
    let s := s.record (.kmalloc ok)
    if ok = false then (-1, s)
    else
      let domain := env.createDomain s.log
      let s := s.record (.createDomain domain)
      match domain with
      -- The enclave is in the list already, and is removed again.
      | none => (-1, s)
      | some domain =>
        (0, { s with enclaves := s.enclaves ++ [{ pid := pid, handle := handle, tycheHandle := domain }] })

/-- `add_region`. -/
def Driver.addRegion (env : Env) (pid : Nat) (region : AddRegion) (s : Driver) : Int × Driver :=
  match findEnclave pid region.handle s.enclaves with
  | none => (-1, s)
  | some encl =>
    if regionCheck region = false then (-1, s)
    else
      let ok := env.kmalloc s.log
      let s := s.record (.kmalloc ok)
      match Enclave.addRegion ok region encl.elem.regions with
      | (ret, regions) => (ret, { s with enclaves := (encl.put { encl.elem with regions := regions }).list })

/-- `add_stack_region`. -/
def Driver.addStackRegion (env : Env) (pid : Nat) (region : AddRegion) (s : Driver) : Int × Driver :=
  match s.addRegion env pid region with
  | (ret, s) =>
    if ret ≠ 0 then (-1, s)
    else
      match findEnclave pid region.handle s.enclaves with
      | none => (-1, s)
      | some encl => (0, { s with enclaves := (encl.put { encl.elem with stack := region.end_ }).list })

/-- `commit_enclave`: the domain handle is for the process. -/
def Driver.commitEnclave (env : Env) (pid : Nat) (commit : CommitMessage) (s : Driver) : Outcome Int × Driver :=
  match findEnclave pid commit.handle s.enclaves with
  | none => (.ret (-1), s)
  | some encl =>
    match Enclave.commitEnclave env commit ⟨s.mem, s.log, encl.elem⟩ with
    | (out, site) =>
      (out,
        { s with
          enclaves := (encl.put site.encl).list
          otherCr3 := if out = .ret 0 then site.encl.cr3 else s.otherCr3
          mem := site.mem
          log := site.log })

/-- `delete_enclave`. -/
def Driver.deleteEnclave (env : Env) (pid handle : Nat) (s : Driver) : Outcome Int × Driver :=
  match findEnclave pid handle s.enclaves with
  | none => (.ret (-1), s)
  | some encl =>
    match revokePages env encl.elem.tycheHandle encl.elem.allPages s.log with
    | (ret, log) =>
      if ret ≠ 0 then (.ret (-1), { s with log := log })
      else if encl.elem.regions.any (·.stale) then (.freed, { s with log := log })
      -- The pages of the tables are not returned.
      else (.ret 0, { s with log := log, enclaves := encl.remove })

/-- The `int` that an `unsigned long` is returned as is not 0. -/
def failed (result : Nat) : Bool := result % 2 ^ 32 != 0

/-- `enclave_transition`. -/
def Driver.enclaveTransition (env : Env) (pid : Nat) (transition : Transition) (s : Driver) : Int × Driver :=
  match findEnclave pid transition.handle s.enclaves with
  | none => (-1, s)
  | some encl =>
    match env.transition s.log encl.elem.invoke transition.args with
    | (result, index) =>
      let s := s.record (.transition encl.elem.invoke transition.args result index)
      (if failed result then -1 else 0, { s with enclaves := (encl.put { encl.elem with invoke := index }).list })

/-- `debugging_transition`: the second register is not set. -/
def Driver.debuggingTransition (env : Env) (handle : Nat) (s : Driver) : Driver :=
  match env.transition s.log handle 0 with
  | (result, index) => s.record (.transition handle 0 result index)

/-- What a copy to the process makes of a result. -/
def copied (out : Bool) (ret : Int) : Int := if ret = 0 ∧ out = false then -1 else ret

/-- `tyche_enclave_ioctl`, issued by the process `pid`. -/
def Driver.ioctl (env : Env) (pid : Nat) (s : Driver) : Command → Outcome Int × Driver
  | .dbg handle => (.ret 0, s.debuggingTransition env handle)
  | .transition none => (.ret (-1), s)
  | .transition (some transition) =>
    let (ret, s) := s.enclaveTransition env pid transition
    (.ret ret, s)
  | .delete handle => s.deleteEnclave env pid handle
  | .create out =>
    let handle := s.tycheIds
    let s := { s with tycheIds := add64 s.tycheIds 1 }
    let (ret, s) := s.addEnclave env pid handle
    (.ret (copied out ret), s)
  | .addRegion none => (.ret (-1), s)
  | .addRegion (some region) =>
    let (ret, s) := s.addRegion env pid region
    (.ret ret, s)
  | .commit commit out =>
    match s.commitEnclave env pid commit with
    | (.ret ret, s) => (.ret (copied out ret), s)
    | r => r
  | .addStack none => (.ret (-1), s)
  | .addStack (some region) =>
    let (ret, s) := s.addStackRegion env pid region
    (.ret ret, s)
  | .other => (.ret (-1), s)

/-! ## Runs -/

/-- The driver after `enclave_init`. -/
def Driver.boot (mem : Nat → Nat → Nat) : Driver := ⟨[], 0, 0, mem, []⟩

/-- A command of a process, issued when `allowed` holds of the state before
it, the process, the command, and the state after it. -/
def Step (env : Env) (allowed : Driver → Nat → Command → Driver → Prop) (s t : Driver) : Prop :=
  ∃ pid cmd out, s.ioctl env pid cmd = (out, t) ∧ out ≠ .freed ∧ allowed s pid cmd t

/-- Any number of allowed commands of any processes. -/
def Run (env : Env) (allowed : Driver → Nat → Command → Driver → Prop) : Driver → Driver → Prop :=
  Relation.ReflTransGen (Step env allowed)

/-- The driver after these commands, each with the process that issues it. -/
def Driver.after (env : Env) (s : Driver) (cmds : List (Nat × Command)) : Driver :=
  cmds.foldl (fun s cmd => (s.ioctl env cmd.1 cmd.2).2) s

/-- Each of the commands is allowed, and follows no freed pointer. -/
def Admits (env : Env) (allowed : Driver → Nat → Command → Driver → Prop) : Driver → List (Nat × Command) → Prop
  | _, [] => True
  | s, (pid, cmd) :: cmds =>
    (s.ioctl env pid cmd).1 ≠ .freed ∧ allowed s pid cmd (s.ioctl env pid cmd).2 ∧
      Admits env allowed (s.ioctl env pid cmd).2 cmds

theorem run_after {env : Env} {allowed : Driver → Nat → Command → Driver → Prop} {s : Driver}
    (cmds : List (Nat × Command)) (h : Admits env allowed s cmds) : Run env allowed s (s.after env cmds) := by
  induction cmds generalizing s with
  | nil => exact .refl
  | cons cmd cmds ih =>
    obtain ⟨hout, hallowed, hrest⟩ := h
    exact .head ⟨cmd.1, cmd.2, _, rfl, hout, hallowed⟩ (ih hrest)

end Tyche.Enclave
