/-
What the loader acquires and releases: files, mappings and blocks of its
allocator, in the order of the calls.

Each function is traced beside its result, and without the trace it is the
function of the model. A block is known by the number of its allocation, which
the system gives an address.
-/
import Tyche.Lib.Ledger
import Tyche.Loader.Load
import Tyche.Loader.Plugin

namespace Tyche.Loader

open Tyche.Elf
open Tyche.Ledger (Op)
open Tyche.Enclave (AddRegion add64 sub64)
open Tyche.Pts (Outcome)

/-- What a process has from the system, and gives back. -/
inductive Resource
  | file (fd : Nat)
  | mapping (addr size : Nat)
  | block (p : Nat)
deriving DecidableEq, Repr

abbrev Ops : Type := List (Op Resource)

def acquires (rs : List Resource) : Ops := rs.map .acquire

def releases (rs : List Resource) : Ops := rs.map .release

def blocks (ps : List Nat) : List Resource := ps.map .block

/-! ## The symbols -/

/-- An action, and the blocks that it allocated. -/
def recording {α : Type} (at_ : Nat → Nat) (x : Action α) : Action (α × List Nat) := fun s =>
  match x s with
  | .ok (a, s') => .ok ((a, (List.range' s.allocs (s'.allocs - s.allocs)).map at_), s')
  | .error reason => .error reason

/-- `find_symbol_in_section`, with the block of the symbol: the two tables are freed. -/
def findSymbolInSectionOps (at_ : Nat → Nat) (env : Env) (symbol : List UInt8) (eh : Ehdr) (sections : List Shdr) (idx : Nat) :
    Action (Option Sym × List Nat × Ops) := do
  let (result, allocated) ← recording at_ (findSymbolInSection env symbol eh sections idx)
  pure (result, allocated.drop 2, acquires (blocks allocated) ++ releases (blocks (allocated.take 2)))

/-- The loop of `find_symbol`. -/
def findSymbolFromOps (at_ : Nat → Nat) (env : Env) (symbol : List UInt8) (eh : Ehdr) (sections : List Shdr) :
    (n i : Nat) → Action (Option Sym × List Nat × Ops)
  | 0, _ => pure (none, [], [])
  | n + 1, i => do
    let sh ← index sections i
    if sh.isSymtab then do
      let (result, found, ops) ← findSymbolInSectionOps at_ env symbol eh sections i
      match result with
      | some sym => pure (some sym, found, ops)
      | none => do
        let (result, found, ops') ← findSymbolFromOps at_ env symbol eh sections n (i + 1)
        pure (result, found, ops ++ ops')
    else findSymbolFromOps at_ env symbol eh sections n (i + 1)

/-- `find_symbol`. -/
def findSymbolOps (at_ : Nat → Nat) (env : Env) (symbol : List UInt8) (eh : Ehdr) (sections : List Shdr) :
    Action (Option Sym × List Nat × Ops) := do
  let (result, found, ops) ← findSymbolFromOps at_ env symbol eh sections eh.eShnum 0
  match result with
  | some sym => pure (some sym, found, ops)
  | none => do
    let assigned : Option Sym := none
    test (assigned ≠ none)
    pure (none, found, ops)

/-! ## The file -/

/-- The blocks that `parse_enclave` leaves in the structure. -/
structure Parsed where
  segments : List Nat
  sections : List Nat
  entryPoint : List Nat

/-- `parse_enclave`, once the section of the stack was looked for. -/
def parseEntryOps (at_ : Nat → Nat) (env : Env) (encl : LoadEncl) (segments sections : List Nat) :
    Action ((Int × LoadEncl) × Parsed × Ops) :=
  if encl.stackSection = none then pure ((-1, encl), ⟨[], [], []⟩, releases (blocks sections) ++ releases (blocks segments))
  else do
    let (entryPoint, found, ops) ← findSymbolOps at_ env enclaveStart encl.header encl.sections
    pure ((0, { encl with entryPoint }), ⟨segments, sections, found⟩, ops)

/-- `parse_enclave`. -/
def parseEnclaveOps (at_ : Nat → Nat) (env : Env) (encl : LoadEncl) : Action ((Int × LoadEncl) × Parsed × Ops) :=
  if encl.elfFd < 0 then pure ((-1, encl), ⟨[], [], []⟩, [])
  else do
    let header ← readElf64Header env
    let (segments, segmentsAt) ← recording at_ (readElf64Segments env header)
    let (sections, sectionsAt) ← recording at_ (readElf64Sections env header)
    let names ← index sections header.eShstrndx
    let (shNames, namesAt) ← recording at_ (readSection64 env names)
    let found ← findStack shNames sections
    let encl := { encl with header, segments, sections, stackSection := found.or encl.stackSection }
    let (result, parsed, ops) ← parseEntryOps at_ env encl segmentsAt sectionsAt
    pure (result, parsed, acquires (blocks (segmentsAt ++ sectionsAt ++ namesAt)) ++ releases (blocks namesAt) ++ ops)

/-! ## The mappings -/

/-- The mappings that are not NULL. -/
def mapped (mappings : List (Option Mapping)) : List Resource :=
  mappings.filterMap fun mapping => mapping.map fun m => .mapping m.addr m.size

/-- The loop of `map_enclave`: what is mapped, and whether all is. -/
def mapLoop (host : Host) (elf : List UInt8) : Nat → List Phdr → Except Stop (List (Option Mapping) × Bool)
  | _, [] => .ok ([], true)
  | i, segment :: rest =>
    if segment.pType ≠ ptLoad then
      match mapLoop host elf (i + 1) rest with
      | .ok (mappings, all) => .ok (none :: mappings, all)
      | r => r
    else
      match mapSegment host elf i segment with
      | .error stop => .error stop
      | .ok none => .ok ([], false)
      | .ok (some mapping) =>
        match mapLoop host elf (i + 1) rest with
        | .ok (mappings, all) => .ok (some mapping :: mappings, all)
        | r => r

/-- `map_enclave`, with its two arrays. -/
def mapEnclaveOps (host : Host) (mappingsAt sizesAt : Nat) (enclave : LoadEncl) : Except Stop ((Int × LoadEncl) × Ops) :=
  if host.mappingsAllocated = false then .ok ((-1, enclave), [])
  else if host.sizesAllocated = false then .ok ((-1, enclave), [.acquire (.block mappingsAt), .release (.block mappingsAt)])
  else
    match mapLoop host enclave.elfContent 0 enclave.segments with
    | .ok (mappings, true) =>
      .ok ((0, { enclave with mappings }), .acquire (.block mappingsAt) :: .acquire (.block sizesAt) :: acquires (mapped mappings))
    | .ok (mappings, false) =>
      .ok ((-1, enclave), .acquire (.block mappingsAt) :: .acquire (.block sizesAt) :: acquires (mapped mappings) ++
        (releases (mapped mappings) ++ [.release (.block sizesAt), .release (.block mappingsAt)]))
    | .error stop => .error stop

/-! ## A load -/

/-- What a load is given, and what the system answers it and hands out: the
descriptors, the address of the file, those of the blocks by number, and those of the two
arrays of the mappings. -/
structure LoadCall where
  libraryPlugin : Option Library
  opened : Option (Nat × Env)
  stated : Bool
  content : Option Nat
  extras : List AddRegion
  host : Host
  driverFd : Option Nat
  createOut : Bool
  commitOut : Bool
  unmapped : Bool
  closed : Bool
  block : Nat → Nat
  mappingsAt : Nat
  sizesAt : Nat

/-- `mmap_file`. -/
def mmapFile (call : LoadCall) : Option (Nat × Env × Nat) × Ops :=
  match call.opened with
  | none => (none, [])
  | some (fd, elf) =>
    if call.stated = false then (none, [.acquire (.file fd), .release (.file fd)])
    else
      match call.content with
      | none => (none, [.acquire (.file fd), .release (.file fd)])
      | some addr => (some (fd, elf, addr), [.acquire (.file fd), .acquire (.mapping addr elf.file.bytes.length)])

/-- The load, without what it is handed. -/
def LoadCall.load (call : LoadCall) : Load where
  libraryPlugin := call.libraryPlugin
  file := (mmapFile call).1.map fun file => (file.1, file.2.1)
  extras := call.extras
  host := call.host
  driverOpened := call.driverFd.isSome
  createOut := call.createOut
  commitOut := call.commitOut
  unmapped := call.unmapped
  closed := call.closed

/-- The labels of `create_enclave`, by which it is left. -/
inductive Label
  | done
  | fail
  | failClose
  | failFree
  | failUnmap
deriving DecidableEq, Repr

/-- What follows a call, unless it fails: then the label. -/
def orGoto (r : Outcome Int × Client) (label : Label) (next : Client → (Outcome Int × Client) × Label) : (Outcome Int × Client) × Label :=
  match r with
  | (.ret ret, c) => if ret ≠ 0 then ((.ret (-1), c), label) else next c
  | r => (r, .fail)

/-- `create_enclave`, once the enclave is created. -/
def fillEnclaveLabel (env : Enclave.Env) (pid : Nat) (load : Load) (library : Library) (enclave : LoadEncl) (c : Client) :
    (Outcome Int × Client) × Label :=
  orGoto (addRegions env pid [libraryRegion enclave.handle library] c) .failFree fun c =>
  orGoto (addRegions env pid (load.extras.map fun curr => { curr with handle := enclave.handle }) c) .failFree fun c =>
  orGoto (addRegions env pid (segmentRegions enclave.handle enclave.segments enclave.mappings) c) .failUnmap fun c =>
  orGoto (issue env pid (.commit (commitMessage enclave) load.commitOut) c) .failUnmap fun c => ((.ret 0, c), .done)

/-- `create_enclave`. -/
def createEnclaveLabel (env : Enclave.Env) (pid : Nat) (load : Load) (library : Library) (enclave : LoadEncl) (c : Client) :
    (Outcome Int × Client) × Label :=
  if load.driverOpened = false then ((.ret (-1), c), .fail)
  else
    match issue env pid (.create load.createOut) c with
    | (.ret ret, c') =>
      if ret = -1 then ((.ret (-1), c'), .failClose)
      else fillEnclaveLabel env pid load library { enclave with handle := c.driver.tycheIds } c'
    | r => (r, .fail)

/-- What the structure of an enclave refers to. -/
structure Loaded where
  handle : Nat
  driverFd : Nat
  parsed : Parsed
  mappings : List (Option Mapping)
  mappingsAt : Nat
  sizesAt : Nat

/-- `create_enclave`, from a label on. -/
def Loaded.cleanup (encl : Loaded) : Label → Ops
  | .done => []
  | .fail => []
  | .failClose => [.release (.file encl.driverFd)]
  | .failFree => [.release (.block encl.mappingsAt), .release (.file encl.driverFd)]
  | .failUnmap =>
    releases (mapped encl.mappings) ++
      [.release (.block encl.sizesAt), .release (.block encl.mappingsAt), .release (.file encl.driverFd)]

/-- The statement of `load_enclave` that failed, with what the structure refers to there. -/
inductive Exit
  | file
  | parse (content : Resource)
  | map (content : Resource) (parsed : Parsed)
  | create (content : Resource) (label : Label) (opened : Bool) (encl : Loaded)
  | unmap (content : Resource) (encl : Loaded)
  | close (encl : Loaded)
  | done (encl : Loaded)

/-- `load_enclave`, once the file is mapped into memory. -/
def loadFileOps (env : Enclave.Env) (pid : Nat) (call : LoadCall) (library : Library) (elfFd : Nat) (elf : Env) (addr : Nat) (c : Client) :
    Except Stop ((Outcome Int × Client) × Exit × Ops) :=
  let content : Resource := .mapping addr elf.file.bytes.length
  match parseEnclaveOps call.block elf (.opened elfFd elf.file.bytes) ⟨0, 0⟩ with
  | .error stop => .error stop
  | .ok (((ret, enclave), parsed, parseOps), _) =>
    let freed := releases (blocks parsed.sections) ++ releases (blocks parsed.segments) ++ [.release (.file elfFd)]
    if ret ≠ 0 then .ok ((.ret (-1), c), .parse content, parseOps ++ [.release (.file elfFd)])
    else
      match mapEnclaveOps call.host call.mappingsAt call.sizesAt enclave with
      | .error stop => .error stop
      | .ok ((ret, enclave), mapOps) =>
        if ret ≠ 0 then .ok ((.ret (-1), c), .map content parsed, parseOps ++ (mapOps ++ freed))
        else
          let encl : Loaded :=
            ⟨c.driver.tycheIds, call.driverFd.getD 0, parsed, enclave.mappings, call.mappingsAt, call.sizesAt⟩
          let opened := acquires (call.driverFd.toList.map .file)
          match createEnclaveLabel env pid call.load library enclave c with
          | ((.ret ret, c), label) =>
            if ret ≠ 0 then
              .ok ((.ret (-1), c), .create content label call.driverFd.isSome encl,
                parseOps ++ (mapOps ++ (opened ++ (encl.cleanup label ++ freed))))
            else if call.unmapped = false then .ok ((.ret (-1), c), .unmap content encl, parseOps ++ (mapOps ++ (opened ++ freed)))
            else if call.closed = false then
              -- The descriptor is released although `close` fails, and then closed again.
              .ok ((.ret (-1), c), .close encl,
                parseOps ++ (mapOps ++ (opened ++ (.release content :: .release (.file elfFd) :: freed))))
            else .ok ((.ret 0, c), .done encl, parseOps ++ (mapOps ++ (opened ++ [.release content, .release (.file elfFd)])))
          | (r, label) => .ok (r, .create content label call.driverFd.isSome encl, parseOps ++ (mapOps ++ opened))

/-- `load_enclave`. -/
def loadEnclaveOps (env : Enclave.Env) (pid : Nat) (call : LoadCall) (c : Client) :
    Except Stop ((Outcome Int × Client) × Exit × Ops) :=
  match call.libraryPlugin, mmapFile call with
  | none, _ => .ok ((.ret (-1), c), .file, [])
  | some _, (none, ops) => .ok ((.ret (-1), c), .file, ops)
  | some library, (some (elfFd, elf, addr), ops) =>
    match loadFileOps env pid call library elfFd elf addr c with
    | .ok (r, exit, ops') => .ok (r, exit, ops ++ ops')
    | .error stop => .error stop

/-! ## The library -/

/-- What `library_plugin` refers to, with the block of the structure. -/
structure Plugged where
  lib : LibEncl
  at_ : List Nat

/-- `init_enclave_loader`, once the segment of the text is found. -/
def readPluginOps (at_ : Nat → Nat) (fd : Nat) (call : InitCall) (env : Env) (header : Ehdr) (sections : List Shdr) (textSeg : Phdr) :
    Action (Option Plugged × Ops) := do
  let (allocated, libAt) ← recording at_ (mallocs env libEnclSize)
  if allocated = false then pure (none, [.release (.file fd)])
  else if textSeg.pAlign = 0 then stop .divide
  else
    match call.mmap (mappedSize textSeg) with
    | none => pure (none, acquires (blocks libAt) ++ (releases (blocks libAt) ++ [.release (.file fd)]))
    | some plugin => do
      let mapping : Resource := .mapping plugin (mappedSize textSeg)
      let failUnmap := .release mapping :: (releases (blocks libAt) ++ [.release (.file fd)])
      let sought ← seeks env textSeg.pOffset
      if sought = false then pure (none, acquires (blocks libAt) ++ (.acquire mapping :: failUnmap))
      else do
        let bytes ← read env textSeg.pFilesz
        if mappedSize textSeg < bytes.length then stop .outside
        else if bytes.length ≠ textSeg.pFilesz then pure (none, acquires (blocks libAt) ++ (.acquire mapping :: failUnmap))
        else do
          let (gate, found, ops) ← findSymbolOps at_ env vmcallGateName header sections
          match gate with
          | none => pure (none, acquires (blocks libAt) ++ (.acquire mapping :: (ops ++ failUnmap)))
          | some gate =>
            pure (some ⟨⟨plugin, mappedSize textSeg, fun k => bytes.getD k 0, add64 (sub64 gate.stValue textSeg.pVaddr) plugin⟩, libAt⟩,
              acquires (blocks libAt) ++ (.acquire mapping :: (ops ++ (releases (blocks found) ++ [.release (.file fd)]))))

/-- `init_enclave_loader`, on a file that is opened: its segments and sections are never freed. -/
def readLibraryOps (at_ : Nat → Nat) (fd : Nat) (call : InitCall) (env : Env) : Action (Option Plugged × List Nat × Ops) := do
  let header ← readElf64Header env
  let (segments, segmentsAt) ← recording at_ (readElf64Segments env header)
  let (sections, sectionsAt) ← recording at_ (readElf64Sections env header)
  let names ← index sections header.eShstrndx
  let (shNames, namesAt) ← recording at_ (readSection64 env names)
  let text ← findNamed textName shNames sections
  let ops := acquires (blocks (segmentsAt ++ sectionsAt ++ namesAt)) ++ releases (blocks namesAt)
  match text with
  | none => pure (none, segmentsAt ++ sectionsAt, ops ++ [.release (.file fd)])
  | some text =>
    match segments.find? (holdsText text) with
    | none => pure (none, segmentsAt ++ sectionsAt, ops ++ [.release (.file fd)])
    | some textSeg => do
      let (result, ops') ← readPluginOps at_ fd call env header sections textSeg
      pure (result, segmentsAt ++ sectionsAt, ops ++ ops')

/-- `init_enclave_loader`: what `library_plugin` is then, and the blocks that are left. -/
def initEnclaveLoaderOps (at_ : Nat → Nat) (fd : Nat) (call : InitCall) (libraryPlugin : Option Plugged) :
    Except Stop (Option Plugged × List Nat × Ops) :=
  match libraryPlugin with
  | some plugin => .ok (some plugin, [], [])
  | none =>
    match call.file with
    | none => .ok (none, [], [])
    | some env =>
      match readLibraryOps at_ fd call env ⟨0, 0⟩ with
      | .ok ((result, left, ops), _) => .ok (result, left, .acquire (.file fd) :: ops)
      | .error reason => .error reason

/-! ## The other calls -/

/-- `delete_enclave`: the descriptor of the driver is not closed. -/
def deleteEnclave (env : Enclave.Env) (pid : Nat) (encl : Loaded) (c : Client) : (Outcome Int × Client) × Ops :=
  match issue env pid (.delete encl.handle) c with
  | (.ret ret, c) =>
    if ret ≠ 0 then ((.ret (-1), c), [])
    else
      ((.ret 0, c), releases (blocks encl.parsed.sections) ++ (releases (blocks encl.parsed.segments) ++
        (releases (blocks encl.parsed.entryPoint) ++ (releases (mapped encl.mappings) ++
          [.release (.block encl.mappingsAt), .release (.block encl.sizesAt)]))))
  | r => (r, [])

/-- `enclave_driver_transition`: the descriptor is not closed when the driver refuses. -/
def enclaveDriverTransition (env : Enclave.Env) (pid : Nat) (driverFd : Option Nat) (transition : Enclave.Transition) (c : Client) :
    (Outcome Int × Client) × Ops :=
  match driverFd with
  | none => ((.ret (-1), c), [])
  | some fd =>
    match issue env pid (.transition (some transition)) c with
    | (.ret ret, c) =>
      if ret ≠ 0 then ((.ret (-1), c), [.acquire (.file fd)]) else ((.ret 0, c), [.acquire (.file fd), .release (.file fd)])
    | r => (r, [.acquire (.file fd)])

/-! ## Without the trace -/

section Erasure

variable {α β γ δ : Type} {x : Action α} {x' : Action β} {at_ : Nat → Nat}

/-- The traced action is the action, with more in its result. -/
def Erases (f : β → α) (x' : Action β) (x : Action α) : Prop := ∀ s, (x' s).map (Prod.map f id) = x s

theorem Erases.pure (f : β → α) (b : β) : Erases f (Pure.pure b) (Pure.pure (f b)) := fun _ => rfl

theorem Erases.stop (f : β → α) (reason : Stop) : Erases f (stop reason) (stop reason) := fun _ => rfl

theorem Erases.bind {g : β → α} {f : δ → γ} {k : α → Action γ} {k' : β → Action δ} (h : Erases g x' x)
    (hk : ∀ b, Erases f (k' b) (k (g b))) : Erases f (x' >>= k') (x >>= k) := by
  intro s
  have hs := h s
  rcases hx : x' s with reason | ⟨b, t⟩
  · rw [hx] at hs
    rw [bind_error hx, bind_error hs.symm]
    rfl
  · rw [hx] at hs
    rw [bind_ok hx, bind_ok hs.symm]
    exact hk b t

/-- The first part may be without a trace. -/
theorem Erases.after {f : δ → γ} {k : α → Action γ} {k' : α → Action δ} (hk : ∀ a, Erases f (k' a) (k a)) :
    Erases f (x >>= k') (x >>= k) := by
  have hx : Erases id x x := by
    intro s
    rcases x s with reason | ⟨a, t⟩ <;> rfl
  exact hx.bind hk

/-- The result may be traced at the end. -/
theorem Erases.result {g : β → α} {f : δ → α} {k : β → δ} (h : Erases g x' x) (hk : ∀ b, f (k b) = g b) :
    Erases f (x' >>= fun b => Pure.pure (k b)) x := by
  intro s
  have hs := h s
  rcases hx : x' s with reason | ⟨b, t⟩
  · rw [hx] at hs
    rw [bind_error hx, ← hs]
    rfl
  · rw [hx] at hs
    rw [bind_ok hx, ← hs]
    show Except.ok (f (k b), t) = Except.ok (g b, t)
    rw [hk]

theorem erases_recording (at_ : Nat → Nat) (x : Action α) : Erases Prod.fst (recording at_ x) x := by
  intro s
  unfold recording
  rcases x s with reason | ⟨a, t⟩ <;> rfl

variable {env : Env} {symbol : List UInt8} {eh : Ehdr} {sections : List Shdr}

theorem erases_findSymbolInSection (idx : Nat) : Erases Prod.fst (findSymbolInSectionOps at_ env symbol eh sections idx)
    (findSymbolInSection env symbol eh sections idx) :=
  (erases_recording at_ _).result fun _ => rfl

theorem erases_findSymbolFrom (n : Nat) : ∀ i, Erases Prod.fst (findSymbolFromOps at_ env symbol eh sections n i)
    (findSymbolFrom env symbol eh sections n i) := by
  induction n with
  | zero => exact fun i => .pure _ _
  | succ n ih =>
    intro i
    unfold findSymbolFromOps findSymbolFrom
    refine .after fun sh => ?_
    split
    · refine (erases_findSymbolInSection i).bind fun found => ?_
      obtain ⟨result, found, ops⟩ := found
      cases result with
      | some sym => exact .pure _ _
      | none => exact (ih (i + 1)).result fun _ => rfl
    · exact ih (i + 1)

theorem erases_findSymbol : Erases Prod.fst (findSymbolOps at_ env symbol eh sections) (findSymbol env symbol eh sections) := by
  refine (erases_findSymbolFrom eh.eShnum 0).bind fun found => ?_
  obtain ⟨result, found, ops⟩ := found
  cases result with
  | some sym => exact .pure _ _
  | none => exact .after fun _ => .pure _ _

theorem erases_parseEntry {encl : LoadEncl} {segments sections : List Nat} :
    Erases Prod.fst (parseEntryOps at_ env encl segments sections) (parseEntry env encl) := by
  unfold parseEntryOps parseEntry
  split
  · exact .pure _ _
  · exact erases_findSymbol.bind fun _ => .pure _ _

/-- `parse_enclave` is traced. -/
theorem erases_parseEnclave {encl : LoadEncl} : Erases Prod.fst (parseEnclaveOps at_ env encl) (parseEnclave env encl) := by
  unfold parseEnclaveOps parseEnclave
  split
  · exact .pure _ _
  · refine .after fun header => (erases_recording at_ _).bind fun segments => (erases_recording at_ _).bind fun sections =>
      .after fun names => (erases_recording at_ _).bind fun shNames => .after fun found => ?_
    exact erases_parseEntry.result fun _ => rfl

variable {host : Host} {elf : List UInt8}

theorem mapLoop_mapSegments (segments : List Phdr) : ∀ i, mapSegments host elf i segments =
    (mapLoop host elf i segments).map fun r => if r.2 then some r.1 else none := by
  induction segments with
  | nil => exact fun i => rfl
  | cons segment segments ih =>
    intro i
    rw [mapSegments, mapLoop, ih (i + 1)]
    split
    · rcases mapLoop host elf (i + 1) segments with reason | ⟨mappings, _ | _⟩ <;> rfl
    · rcases mapSegment host elf i segment with reason | _ | mapping
      · rfl
      · rfl
      · rcases mapLoop host elf (i + 1) segments with reason | ⟨mappings, _ | _⟩ <;> rfl

/-- `map_enclave` is traced. -/
theorem mapEnclaveOps_mapEnclave (mappingsAt sizesAt : Nat) (enclave : LoadEncl) :
    (mapEnclaveOps host mappingsAt sizesAt enclave).map Prod.fst = mapEnclave host enclave := by
  unfold mapEnclaveOps mapEnclave
  split
  · rfl
  split
  · rfl
  rw [mapLoop_mapSegments]
  rcases mapLoop host enclave.elfContent 0 enclave.segments with reason | ⟨mappings, _ | _⟩ <;> rfl

variable {env : Enclave.Env} {pid : Nat} {c : Client}

theorem orGoto_orFail {r : Outcome Int × Client} {label : Label} {next : Client → (Outcome Int × Client) × Label}
    {next' : Client → Outcome Int × Client} (h : ∀ c, (next c).1 = next' c) : (orGoto r label next).1 = orFail r next' := by
  unfold orGoto orFail
  rcases r with ⟨ret | _ | _, c⟩
  · dsimp only
    split
    · rfl
    · exact h c
  · rfl
  · rfl

/-- `create_enclave` is traced. -/
theorem createEnclaveLabel_createEnclave (load : Load) (library : Library) (enclave : LoadEncl) :
    (createEnclaveLabel env pid load library enclave c).1 = createEnclave env pid load library enclave c := by
  unfold createEnclaveLabel createEnclave
  split
  · rfl
  rcases issue env pid (.create load.createOut) c with ⟨ret | _ | _, c'⟩
  · dsimp only
    split
    · rfl
    · exact orGoto_orFail fun _ => orGoto_orFail fun _ => orGoto_orFail fun _ => orGoto_orFail fun _ => rfl
  · rfl
  · rfl

/-- A load is traced, once the file is mapped into memory. -/
theorem loadFileOps_loadEnclave {call : LoadCall} {library : Library} {elfFd : Nat} {elf : Env} {addr : Nat}
    (hlibrary : call.libraryPlugin = some library) (hfile : call.load.file = some (elfFd, elf)) :
    (loadFileOps env pid call library elfFd elf addr c).map Prod.fst = loadEnclave env pid call.load c := by
  have hlibrary' : call.load.libraryPlugin = some library := hlibrary
  have hparse : Except.map _ (parseEnclaveOps call.block elf (.opened elfFd elf.file.bytes) ⟨0, 0⟩) = _ := erases_parseEnclave ⟨0, 0⟩
  unfold loadFileOps loadEnclave
  rw [hlibrary', hfile]
  dsimp only
  rw [← hparse]
  rcases parseEnclaveOps call.block elf (.opened elfFd elf.file.bytes) ⟨0, 0⟩ with reason | ⟨⟨⟨ret, enclave⟩, parsed, parseOps⟩, p⟩
  · rfl
  show Except.map Prod.fst (if ret ≠ 0 then _ else _) = if ret ≠ 0 then _ else _
  split
  · rfl
  have hmap : _ = mapEnclave call.host enclave := mapEnclaveOps_mapEnclave call.mappingsAt call.sizesAt enclave
  rw [show call.load.host = call.host from rfl, ← hmap]
  rcases mapEnclaveOps call.host call.mappingsAt call.sizesAt enclave with reason | ⟨⟨ret, enclave'⟩, mapOps⟩
  · rfl
  show Except.map Prod.fst (if ret ≠ 0 then _ else _) = if ret ≠ 0 then _ else _
  split
  · rfl
  have hcreate : _ = createEnclave env pid call.load library enclave' c := createEnclaveLabel_createEnclave call.load library enclave'
  rw [← hcreate]
  rcases createEnclaveLabel env pid call.load library enclave' c with ⟨⟨ret | _ | _, c'⟩, label⟩
  · dsimp only
    unfold orFail
    dsimp only
    split
    · rfl
    · show Except.map Prod.fst (if call.unmapped = false then _ else if call.closed = false then _ else _) =
        Except.ok (if call.unmapped = false then _ else if call.closed = false then _ else _)
      split
      · rfl
      split <;> rfl
  · rfl
  · rfl

/-- **A load is traced**: without the trace it is `load_enclave`. -/
theorem loadEnclaveOps_loadEnclave (call : LoadCall) :
    (loadEnclaveOps env pid call c).map Prod.fst = loadEnclave env pid call.load c := by
  unfold loadEnclaveOps
  rcases hlibrary : call.libraryPlugin with _ | library
  · unfold loadEnclave
    rw [show call.load.libraryPlugin = none from hlibrary]
    rfl
  rcases hfile : mmapFile call with ⟨_ | ⟨elfFd, elf, addr⟩, ops⟩
  · unfold loadEnclave
    rw [show call.load.libraryPlugin = some library from hlibrary, show call.load.file = none by rw [LoadCall.load, hfile]; rfl]
    rfl
  · have hload : (loadFileOps env pid call library elfFd elf addr c).map Prod.fst = loadEnclave env pid call.load c :=
      loadFileOps_loadEnclave hlibrary (by rw [LoadCall.load, hfile]; rfl)
    rw [← hload]
    dsimp only
    rcases loadFileOps env pid call library elfFd elf addr c with reason | ⟨r, exit, ops'⟩ <;> rfl

variable {call : InitCall} {env : Env}

theorem erases_readPlugin {fd : Nat} {header : Ehdr} {sections : List Shdr} {textSeg : Phdr} :
    Erases (fun r => r.1.map Plugged.lib) (readPluginOps at_ fd call env header sections textSeg)
      (readPlugin call env header sections textSeg) := by
  unfold readPluginOps readPlugin
  refine (erases_recording at_ _).bind fun allocated => ?_
  obtain ⟨allocated, libAt⟩ := allocated
  dsimp only
  split
  · exact .pure _ _
  split
  · exact .stop _ _
  cases call.mmap (mappedSize textSeg) with
  | none => exact .pure _ _
  | some plugin =>
  refine .after fun sought => ?_
  split
  · exact .pure _ _
  refine .after fun bytes => ?_
  split
  · exact .stop _ _
  split
  · exact .pure _ _
  refine erases_findSymbol.bind fun found => ?_
  obtain ⟨gate, found, ops⟩ := found
  cases gate with
  | none => exact .pure _ _
  | some gate => exact .pure _ _

/-- `init_enclave_loader` is traced, on a file that is opened. -/
theorem erases_readLibrary {fd : Nat} :
    Erases (fun r => r.1.map Plugged.lib) (readLibraryOps at_ fd call env) (readLibrary call env) := by
  unfold readLibraryOps readLibrary
  refine .after fun header => (erases_recording at_ _).bind fun segments => (erases_recording at_ _).bind fun sections =>
    .after fun names => (erases_recording at_ _).bind fun shNames => .after fun text => ?_
  cases text with
  | none => exact .pure _ _
  | some text =>
    dsimp only
    cases segments.1.find? (holdsText text) with
    | none => exact .pure _ _
    | some textSeg => exact erases_readPlugin.result fun _ => rfl

/-- **The library is traced**: without the trace it is `init_enclave_loader`. -/
theorem initEnclaveLoaderOps_initEnclaveLoader (fd : Nat) (libraryPlugin : Option Plugged) :
    (initEnclaveLoaderOps at_ fd call libraryPlugin).map (fun r => (r.1.map Plugged.lib, r.1.map Plugged.lib)) =
      initEnclaveLoader call (libraryPlugin.map Plugged.lib) := by
  unfold initEnclaveLoaderOps initEnclaveLoader
  cases libraryPlugin with
  | some plugin => rfl
  | none =>
    dsimp only [Option.map]
    cases call.file with
    | none => rfl
    | some env =>
      dsimp only
      have hread : Except.map _ (readLibraryOps at_ fd call env ⟨0, 0⟩) = readLibrary call env ⟨0, 0⟩ := erases_readLibrary ⟨0, 0⟩
      rw [← hread]
      rcases readLibraryOps at_ fd call env ⟨0, 0⟩ with reason | ⟨⟨_ | plugin, left, ops⟩, p⟩ <;> rfl

end Erasure

end Tyche.Loader
