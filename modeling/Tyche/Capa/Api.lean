/-
The monitor's interface (`tyche_api.c`, `ecs.c`): each function fills a
frame, makes one vmcall, and reads the results out of the answer. With the
allocator callbacks, these are the only ways the library acts on anything
but its own list.
-/
import Tyche.Capa.Types

namespace Tyche.Capa

/-! ## Vmcall ids -/

abbrev tycheDomainGetOwnId : Nat := 0x100
abbrev tycheDomainCreate : Nat := 0x101
abbrev tycheDomainSealId : Nat := 0x102
abbrev tycheDomainGrantRegion : Nat := 0x103
abbrev tycheDomainShareRegion : Nat := 0x104
abbrev tycheDomainRevokRegion : Nat := 0x105
abbrev tycheRegionSplit : Nat := 0x200
abbrev tycheRegionGetInfo : Nat := 0x201
abbrev tycheRegionMerge : Nat := 0x202
abbrev tycheConfigNbRegions : Nat := 0x400
abbrev tycheConfigReadRegion : Nat := 0x401

/-- `translate_access`: the rights a capability type confers. -/
def translateAccess (tpe : Nat) : Nat :=
  if tpe = confidential ∨ tpe = shared then capaRead ||| capaExec ||| capaWrite
  else if tpe = confidentialRO ∨ tpe = sharedRO then capaRead
  else if tpe = confidentialRW ∨ tpe = sharedRW then capaRead ||| capaWrite
  else if tpe = confidentialRX ∨ tpe = sharedRX then capaRead ||| capaExec
  else capaNone

/-! ## The callbacks -/

/-- `local_domain.alloc`: a fresh address, or NULL. -/
def alloc (env : Env) (s : Tracker) : Option Nat × Tracker :=
  if env.alloc s.log then (some s.heap, { s with heap := s.heap + 1, log := .alloc (some s.heap) :: s.log })
  else (none, { s with log := .alloc none :: s.log })

/-- `local_domain.dealloc`. -/
def dealloc (obj : Object) (s : Tracker) : Tracker := { s with log := .dealloc obj :: s.log }

/-- `tyche_call`: one vmcall. -/
def tycheCall (env : Env) (frame : VmcallFrame) (s : Tracker) : VmcallAnswer × Tracker :=
  (env.vmcall s.log frame, { s with log := .vmcall frame (env.vmcall s.log frame) :: s.log })

/-! ## The calls -/

/-- A vmcall whose caller needs `ret_1` when the monitor accepts. -/
def tycheCall1 (env : Env) (frame : VmcallFrame) (s : Tracker) : Option Nat × Tracker :=
  match tycheCall env frame s with
  | (answer, s) => if answer.ok then (some answer.ret1, s) else (none, s)

/-- A vmcall whose caller only needs to know whether the monitor accepts. -/
def tycheCall0 (env : Env) (frame : VmcallFrame) (s : Tracker) : Bool × Tracker :=
  match tycheCall env frame s with
  | (answer, s) => (answer.ok, s)

def tycheGetDomainId (env : Env) (s : Tracker) : Option Nat × Tracker :=
  tycheCall1 env { id := tycheDomainGetOwnId } s

def tycheCreateDomain (env : Env) (s : Tracker) : Option Nat × Tracker :=
  tycheCall1 env { id := tycheDomainCreate } s

/-- `ecs_read_size`: the number of handles of this domain. -/
def ecsReadSize (env : Env) (s : Tracker) : Option Nat × Tracker :=
  tycheCall1 env { id := tycheConfigNbRegions } s

/-- `ecs_read_entry`: the `idx`-th handle. -/
def ecsReadEntry (env : Env) (idx : Nat) (s : Tracker) : Option Nat × Tracker :=
  tycheCall1 env { id := tycheConfigReadRegion, value1 := idx, value2 := 1 } s

/-- `tyche_read_capa`: the details of the region `capa.handle` names. -/
def tycheReadCapa (env : Env) (capa : Capability) (s : Tracker) : Option Capability × Tracker :=
  match tycheCall env { id := tycheRegionGetInfo, value1 := capa.handle } s with
  | (answer, s) =>
    if answer.ok then
      (some { capa with
        start := answer.ret1, end_ := answer.ret2, isOwned := answer.ret3 &&& tycheOwned,
        isShared := answer.ret3 &&& tycheShared, access := answer.ret4, revoks := [] }, s)
    else (none, s)

def splitFrame (handle splitAddr : Nat) : VmcallFrame :=
  { id := tycheRegionSplit, value1 := handle, value2 := splitAddr }

def mergeFrame (h1 h2 : Nat) : VmcallFrame :=
  { id := tycheRegionMerge, value1 := h1, value2 := h2 }

def grantFrame (target handle tpe : Nat) : VmcallFrame :=
  { id := tycheDomainGrantRegion, value1 := target, value2 := handle, value3 := translateAccess tpe }

def shareFrame (target handle tpe : Nat) : VmcallFrame :=
  { id := tycheDomainShareRegion, value1 := target, value2 := handle, value3 := translateAccess tpe }

def revokFrame (handle : Nat) : VmcallFrame :=
  { id := tycheDomainRevokRegion, value1 := handle }

/-- `tyche_split_capa`: the handle of the part from `splitAddr` on. -/
def tycheSplitCapa (env : Env) (handle splitAddr : Nat) (s : Tracker) : Option Nat × Tracker :=
  tycheCall1 env (splitFrame handle splitAddr) s

/-- `tyche_grant_capa`: the revocation handle of the grant. -/
def tycheGrantCapa (env : Env) (target handle tpe : Nat) (s : Tracker) : Option Nat × Tracker :=
  tycheCall1 env (grantFrame target handle tpe) s

/-- `tyche_share_capa`: the revocation handle of the share. -/
def tycheShareCapa (env : Env) (target handle tpe : Nat) (s : Tracker) : Option Nat × Tracker :=
  tycheCall1 env (shareFrame target handle tpe) s

def tycheMergeCapa (env : Env) (h1 h2 : Nat) (s : Tracker) : Bool × Tracker :=
  tycheCall0 env (mergeFrame h1 h2) s

/-- `tyche_domain_seal`: the handle to invoke the domain with. -/
def tycheDomainSeal (env : Env) (handle cr3 entry stack : Nat) (s : Tracker) : Option Nat × Tracker :=
  tycheCall1 env { id := tycheDomainSealId, value1 := handle, value2 := cr3, value3 := entry, value4 := stack } s

def tycheDomainRevoke (env : Env) (handle : Nat) (s : Tracker) : Bool × Tracker :=
  tycheCall0 env (revokFrame handle) s

end Tyche.Capa
