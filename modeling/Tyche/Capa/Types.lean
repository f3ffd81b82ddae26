/-
The data of the capability library (`tyche_capabilities_types.h`,
`tyche_capabilities.h`, `tyche_api.h`): capability types and rights, the
revocation handles and capabilities the library tracks, and the frames it
exchanges with the monitor.

Addresses, handles and domain ids are 64-bit words the library compares and
copies but never adds to, so they are `Nat`. A `capability_type_t` is the
raw value of the enumeration: the library is passed any value and checks it
against `MinTpe` and `MaxTpe` itself.
-/
import Tyche.Lib.Cursor

namespace Tyche.Capa

/-! ## Capability types and rights -/

abbrev minTpe : Nat := 0
abbrev sharedRO : Nat := 0
abbrev sharedRW : Nat := 1
abbrev sharedRX : Nat := 2
abbrev shared : Nat := 3
abbrev confidentialRO : Nat := 4
abbrev confidentialRW : Nat := 5
abbrev confidentialRX : Nat := 6
abbrev ptEntry : Nat := 7
abbrev confidential : Nat := 7
abbrev maxTpe : Nat := 7

abbrev capaNone : Nat := 0
abbrev capaRead : Nat := 1 <<< 0
abbrev capaWrite : Nat := 1 <<< 1
abbrev capaExec : Nat := 1 <<< 2
abbrev capaRevok : Nat := 1 <<< 3

abbrev tycheOwned : Nat := 0x1
abbrev tycheShared : Nat := 0x2

/-- `ALIGNMENT`: transfers are of whole pages. -/
abbrev alignment : Nat := 0x1000

/-- `tpe` is one of the types a transfer grants exclusively. -/
def isConfidential (tpe : Nat) : Bool := decide (confidentialRO ≤ tpe ∧ tpe ≤ confidential)

/-- `tpe` is one of the types a transfer shares. -/
def isShared (tpe : Nat) : Bool := decide (sharedRO ≤ tpe ∧ tpe ≤ shared)

/-- `dll_contains`: the half-open range contains the address. -/
def contains (start end_ val : Nat) : Bool := decide (start ≤ val ∧ val < end_)

/-! ## Tracked capabilities -/

inductive CapaStatus
  | active
  | shared
  | paused
deriving DecidableEq, Repr

/-- `revok_handle_t`. `ptr` is the address the allocator gave the record. -/
structure RevokHandle where
  ptr : Nat
  domain : Nat
  revokHandle : Nat
deriving DecidableEq, Repr

/-- `capability_t`, less its list links. -/
structure Capability where
  ptr : Nat
  handle : Nat
  start : Nat
  end_ : Nat
  isOwned : Nat
  isShared : Nat
  access : Nat
  status : CapaStatus
  revoks : List RevokHandle
deriving DecidableEq, Repr

/-- The capability's range contains the address. -/
def Capability.covers (c : Capability) (a : Nat) : Bool := contains c.start c.end_ a

/-! ## The monitor and the allocator -/

/-- The arguments of a `vmcall_frame_t`. Registers the caller leaves
uninitialised are 0. -/
structure VmcallFrame where
  id : Nat
  value1 : Nat := 0
  value2 : Nat := 0
  value3 : Nat := 0
  value4 : Nat := 0
deriving DecidableEq, Repr

/-- What a vmcall leaves: the `int` that `tyche_call` returns, and the
result registers. -/
structure VmcallAnswer where
  result : Int
  ret1 : Nat := 0
  ret2 : Nat := 0
  ret3 : Nat := 0
  ret4 : Nat := 0
deriving DecidableEq, Repr

/-- The monitor accepted the call. -/
def VmcallAnswer.ok (a : VmcallAnswer) : Bool := decide (a.result = 0)

/-- An object given back to the deallocator, as it was when freed. -/
inductive Object
  | capa (c : Capability)
  | revok (r : RevokHandle)
deriving DecidableEq, Repr

/-- What the library did outside its own memory, one call at a time. -/
inductive Event
  | vmcall (frame : VmcallFrame) (answer : VmcallAnswer)
  | alloc (ptr : Option Nat)
  | dealloc (obj : Object)
deriving DecidableEq, Repr

/-- The monitor and the allocator: any answers, which may depend on
everything the library did before (latest event first). -/
structure Env where
  vmcall : List Event → VmcallFrame → VmcallAnswer
  alloc : List Event → Bool

/-- The library's state: `local_domain` (its id and capabilities), the next
address the allocator has not used, and the events so far, latest first.
The debug prints are left out. -/
structure Tracker where
  id : Nat
  capabilities : List Capability
  heap : Nat
  log : List Event
deriving DecidableEq, Repr

/-- What a call ends with: a return value, or the fault of reading through
a NULL pointer. -/
inductive Outcome (α : Type)
  | ret (v : α)
  | fault
deriving DecidableEq, Repr

end Tyche.Capa
