/-
The enclaves of the driver (`internal/enclave.h`), and what it does outside
its own memory: calls of the page and record allocators, of Linux's page
walk, and of the capability library that talks to the monitor, and the
vmcall of a transition.

A page is named by its physical address. The kernel maps physical memory
linearly, so a pointer to a page is aligned exactly when its address is.
-/
import Tyche.Enclave.Types

namespace Tyche.Enclave

/-- `enclave_t`. The fields its creation leaves uninitialised are 0. -/
structure Encl where
  pid : Nat
  handle : Nat
  tycheHandle : Nat
  invoke : Nat := 0
  cr3 : Nat := 0
  entry : Nat := 0
  stack : Nat := 0
  pts : List PaRegion := []
  regions : List Region := []
  allPages : List PaRegion := []
deriving DecidableEq, Repr

/-- What Linux's `walk_page_range` finds, one callback at a time. -/
inductive Report
  | pteEntry (addr pte : Nat)
  | hugetlbEntry
  | pteHole
deriving DecidableEq, Repr

/-- What the driver did outside its own memory, with the answer it got. A
page that the walk of the parent's memory collects is an event too. -/
inductive Event
  | allocPages (page : Option Nat)
  | freePages (page : Nat)
  | kmalloc (ok : Bool)
  | collect (page : Nat)
  | createDomain (domain : Option Nat)
  | transferCapability (domain start end_ tpe : Nat) (ok : Bool)
  | sealDomain (domain cr3 entry stack : Nat) (invoke : Option Nat)
  | revokeRegion (domain start end_ : Nat) (ok : Bool)
  | transition (handle args result index : Nat)
deriving DecidableEq, Repr

/-- The allocators, the page walk and the capability library: any answers,
which may depend on everything the driver did before (latest event first). -/
structure Env where
  allocPages : List Event → Option Nat
  kmalloc : List Event → Bool
  walkPageRange : List Event → (start end_ : Nat) → List Report
  createDomain : List Event → Option Nat
  transferCapability : List Event → (domain start end_ tpe : Nat) → Bool
  sealDomain : List Event → (domain cr3 entry stack : Nat) → Option Nat
  revokeRegion : List Event → (domain start end_ : Nat) → Bool
  transition : List Event → (handle args : Nat) → Nat × Nat

end Tyche.Enclave
