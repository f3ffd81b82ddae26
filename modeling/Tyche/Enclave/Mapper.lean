/-
The page tables of an enclave (`internal/mapper.c`): the allocator of
tables, the mapper of absent entries, and the tree built from the regions.
-/
import Tyche.Enclave.AllPages
import Tyche.Enclave.Kernel
import Tyche.Pts.Tables

namespace Tyche.Enclave

open Tyche.Pts
open Tyche.Capa (ptEntry)

/-- `map_info_t`, less the pointer back to the profile. `paRegion` is the
list from the current physical page on. -/
structure MapInfo where
  intermedFlags : Nat
  region : Option Region
  paRegion : List PaRegion
  enclave : Encl
  log : List Event

/-- The driver did something. -/
def record (e : Event) (m : Machine MapInfo) : Machine MapInfo :=
  { m with extras := { m.extras with log := e :: m.extras.log } }

/-- The enclave changes. -/
def onEnclave (f : Encl → Encl) (m : Machine MapInfo) : Machine MapInfo :=
  { m with extras := { m.extras with enclave := f m.extras.enclave } }

/-- `allocate`, from the label `failure_remove` on: the region is the last one. -/
def failureRemove (page : Nat) (m : Machine MapInfo) : Option Nat × Machine MapInfo :=
  (none, record (.freePages page) (onEnclave (fun e => { e with pts := e.pts.dropLast }) m))

/-- `allocate`. -/
def allocate (env : Env) (m : Machine MapInfo) : Option Nat × Machine MapInfo :=
  let allocation := env.allocPages m.extras.log
  let m := record (.allocPages allocation) m
  match allocation with
  | none => (none, m)
  | some page =>
    if page % ptPageSize ≠ 0 then (none, m)
    else
      let m := m.clear page
      let ok := env.kmalloc m.extras.log
      let m := record (.kmalloc ok) m
      if ok = false then (none, record (.freePages page) m)
      else
        let region : PaRegion := ⟨page, add64 page ptPageSize, ptEntry⟩
        let m := onEnclave (fun e => { e with pts := e.pts ++ [region] }) m
        let ok := env.kmalloc m.extras.log
        let m := record (.kmalloc ok) m
        if ok = false then failureRemove page m
        else
          match addMergeGlobal m.extras.enclave.allPages region with
          | (ret, allPages) =>
            let m := onEnclave (fun e => { e with allPages := allPages }) m
            if ret ≠ 0 then failureRemove page m else (some page, m)

/-- `translate_flags`. -/
def translateFlags (flags : Nat) : Nat :=
  (if flags ≠ 0 then ptPP else 0) ||| (if flags &&& teExec = 0 then ptNX else 0) |||
    (if flags &&& teWrite = teWrite then ptRW else 0) ||| (if flags &&& teUser = teUser then ptUSR else 0)

/-- The entry that maps a physical page. -/
def pageEntry (paRegion : PaRegion) (flags : Nat) (isHuge : Bool) : Nat :=
  let entry := (paRegion.start &&& ptPhysPageMask) ||| translateFlags flags ||| 0x60
  if isHuge then entry ||| ptPSE else entry

/-- `default_mapper`, from the label `entry_page` on. -/
def entryPage (table i : Nat) (isHuge : Bool) (paRegion : PaRegion) (rest : List PaRegion) (m : Machine MapInfo) :
    Outcome CallbackAction × Machine MapInfo :=
  match m.extras.region with
  | none => (.fault, m)
  | some region =>
    let m := m.store table i (pageEntry paRegion region.flags isHuge)
    (.ret .walk, { m with extras := { m.extras with paRegion := rest } })

/-- `default_mapper`, from the label `normal_page` on. -/
def normalPage (env : Env) (table i : Nat) (m : Machine MapInfo) : Outcome CallbackAction × Machine MapInfo :=
  match allocate env m with
  | (newPage, m) => (.ret .walk, m.store table i (newPage.getD 0 ||| m.extras.intermedFlags))

/-- `default_mapper`. -/
def defaultMapper (env : Env) : Callback MapInfo := fun table i lvl m =>
  match m.extras.paRegion with
  | [] => (.ret .error, m)
  | paRegion :: rest =>
    if m.extras.region.any (·.dangling) then (.freed, m)
    else
      let size := sub64 paRegion.end_ paRegion.start
      if (lvl = ptPGD ∧ size = ptPGDPageSize) ∨ (lvl = ptPMD ∧ size = ptPMDPageSize) then
        entryPage table i true paRegion rest m
      else if lvl = ptPGD ∨ lvl = ptPMD ∨ lvl = ptPML4 then normalPage env table i m
      else if lvl = ptPTE ∧ size ≠ ptPageSize then (.ret .error, m)
      else entryPage table i false paRegion rest m

/-- The profile of `build_enclave_cr3`. -/
def mapperProfile (env : Env) : Profile MapInfo :=
  { x86_64Profile with
    how := x86_64HowMap
    mappers := fun level => if level ≤ ptPML4 then some (defaultMapper env) else none }

/-- What `map_region` tells the mapper. The physical pages are walked in the
order they were collected in. -/
def MapInfo.setRegion (info : MapInfo) (region : Region) : MapInfo :=
  { info with
    region := some region
    paRegion := region.pas
    intermedFlags := ptPP ||| ptRW ||| ptACC ||| ptUSR ||| ptDIRT }

/-- `map_region`. -/
def mapRegion (env : Env) (region : Region) (m : Machine MapInfo) : Outcome Int × Machine MapInfo :=
  (mapperProfile env).ptWalkPageRange ptPML4 m.extras.enclave.cr3 region.start region.end_
    { m with extras := m.extras.setRegion region }

/-- The loop of `build_enclave_cr3` over the physical pages of a region. -/
def mergePas (env : Env) : List PaRegion → Machine MapInfo → Int × Machine MapInfo
  | [], m => (0, m)
  | curr :: rest, m =>
    let ok := env.kmalloc m.extras.log
    let m := record (.kmalloc ok) m
    if ok = false then (-1, m)
    else
      match addMergeGlobal m.extras.enclave.allPages curr with
      | (ret, allPages) =>
        let m := onEnclave (fun e => { e with allPages := allPages }) m
        if ret ≠ 0 then (-1, m) else mergePas env rest m

/-- The loop of `build_enclave_cr3` over the regions. -/
def buildRegions (env : Env) : List Region → Machine MapInfo → Outcome Int × Machine MapInfo
  | [], m => (.ret 0, m)
  | reg :: regions, m =>
    match mapRegion env reg m with
    | (.ret ret, m) =>
      if ret ≠ 0 then (.ret (-1), m)
      else if reg.dangling ∧ reg.pas ≠ [] then (.freed, m)
      else
        match mergePas env reg.pas m with
        | (ret, m) => if ret ≠ 0 then (.ret (-1), m) else buildRegions env regions m
    | (.fault, m) => (.fault, m)
    | (.freed, m) => (.freed, m)

/-- `build_enclave_cr3`. -/
def buildEnclaveCr3 (env : Env) (mem : Nat → Nat → Nat) (log : List Event) (encl : Encl) :
    Outcome Int × Machine MapInfo :=
  let info : MapInfo := { intermedFlags := 0, region := none, paRegion := [], enclave := encl, log := log }
  match allocate env { mem := mem, currVa := 0, extras := info } with
  | (root, m) => buildRegions env encl.regions (onEnclave (fun e => { e with cr3 := root.getD 0 }) m)

end Tyche.Enclave
