/-
The commands that work on one enclave (`internal/enclave.c`): a commit
collects the pages of the regions, builds the page tables, transfers
everything to the domain and seals it; a deletion takes everything back.
-/
import Tyche.Enclave.Mapper
import Tyche.Enclave.Process

namespace Tyche.Enclave

open Tyche.Pts (Outcome Machine)

/-- What a command works on: the tables in memory, the log, and the enclave
it found. -/
structure Site where
  mem : Nat → Nat → Nat
  log : List Event
  encl : Encl

/-- `tyche_encl_commit_t`, less the domain handle it is given back with. -/
structure CommitMessage where
  handle : Nat
  stack : Nat
  entry : Nat
deriving DecidableEq, Repr

/-! ## The calls to the capability library (`internal/tyche_vmcall.c`) -/

/-- `tyche_split_grant`. -/
def tycheSplitGrant (env : Env) (encl : Encl) (region : PaRegion) (log : List Event) : Int × List Event :=
  let ok := env.transferCapability log encl.tycheHandle region.start region.end_ region.tpe
  (if ok then 0 else -1, .transferCapability encl.tycheHandle region.start region.end_ region.tpe ok :: log)

/-- `tyche_seal_enclave`: the handle to invoke the enclave with. -/
def tycheSealEnclave (env : Env) (encl : Encl) (log : List Event) : Option Nat × List Event :=
  let invoke := env.sealDomain log encl.tycheHandle encl.cr3 encl.entry encl.stack
  (invoke, .sealDomain encl.tycheHandle encl.cr3 encl.entry encl.stack invoke :: log)

/-- `tyche_revoke_region`. -/
def tycheRevokeRegion (env : Env) (dom start end_ : Nat) (log : List Event) : Int × List Event :=
  let ok := env.revokeRegion log dom start end_
  (if ok then 0 else -1, .revokeRegion dom start end_ ok :: log)

/-! ## `commit_enclave` -/

/-- The loop that collects the physical pages: the regions `done` are those
before the current one, in reverse. -/
def collectRegions (env : Env) : (done rest : List Region) → List Event → Outcome Int × List Region × List Event
  | done, [], log => (.ret 0, done.reverse, log)
  | done, region :: rest, log =>
    match walkAndCollectRegion env region log with
    | (.ret 0, region, log) => collectRegions env (region :: done) rest log
    | (out, region, log) => (out, done.reverse ++ region :: rest, log)

/-- The loop that transfers the pages. -/
def transferPages (env : Env) (encl : Encl) : List PaRegion → List Event → Int × List Event
  | [], log => (0, log)
  | paRegion :: rest, log =>
    match tycheSplitGrant env encl paRegion log with
    | (ret, log) => if ret ≠ 0 then (-1, log) else transferPages env encl rest log

/-- `delete_region_pas`: the records are freed, and stay in the list. -/
def deleteRegionPas (region : Region) : Region := { region with dangling := region.dangling || !region.pas.isEmpty }

/-- `commit_enclave`, from the label `failure` on. -/
def commitFailure (s : Site) : Outcome Int × Site :=
  if s.encl.regions.any (·.stale) then (.freed, s)
  else
    (.ret (-1),
      { s with
        log := (s.encl.pts.map fun r => Event.freePages r.start).reverse ++ s.log
        encl := { s.encl with regions := s.encl.regions.map deleteRegionPas, pts := [], cr3 := 0 } })

/-- `commit_enclave`, once the tables are built. -/
def commitTransfers (env : Env) (commit : CommitMessage) (s : Site) : Outcome Int × Site :=
  match transferPages env s.encl s.encl.allPages s.log with
  | (ret, log) =>
    if ret ≠ 0 then commitFailure { s with log := log }
    else
      let encl := { s.encl with stack := commit.stack, entry := commit.entry }
      match tycheSealEnclave env encl log with
      | (none, log) => commitFailure { s with log := log, encl := encl }
      | (some invoke, log) => (.ret 0, { s with log := log, encl := { encl with invoke := invoke } })

/-- `commit_enclave`, on the enclave found. -/
def commitEnclave (env : Env) (commit : CommitMessage) (s : Site) : Outcome Int × Site :=
  match collectRegions env [] s.encl.regions s.log with
  | (.ret ret, regions, log) =>
    let encl := { s.encl with regions := regions }
    if ret ≠ 0 then commitFailure { s with log := log, encl := encl }
    else
      match buildEnclaveCr3 env s.mem log encl with
      | (.ret ret, m) =>
        let s : Site := ⟨m.mem, m.extras.log, m.extras.enclave⟩
        if ret ≠ 0 then commitFailure s else commitTransfers env commit s
      | (.fault, m) => (.fault, ⟨m.mem, m.extras.log, m.extras.enclave⟩)
      | (.freed, m) => (.freed, ⟨m.mem, m.extras.log, m.extras.enclave⟩)
  | (.fault, regions, log) => (.fault, { s with log := log, encl := { s.encl with regions := regions } })
  | (.freed, regions, log) => (.freed, { s with log := log, encl := { s.encl with regions := regions } })

/-! ## `delete_enclave` -/

/-- The loop that revokes the pages. -/
def revokePages (env : Env) (dom : Nat) : List PaRegion → List Event → Int × List Event
  | [], log => (0, log)
  | paReg :: rest, log =>
    match tycheRevokeRegion env dom paReg.start paReg.end_ log with
    | (ret, log) => if ret ≠ 0 then (-1, log) else revokePages env dom rest log

end Tyche.Enclave
