/-
The library that every enclave gets (`init_enclave_loader`): the segment of
its file with the section `.text` is read into memory, and the symbol of the
gate is looked up in it.

It is read once: the pointer to it is kept, and the calls that follow return
it without looking at their file.
-/
import Tyche.Loader.Described
import Tyche.Loader.Load

namespace Tyche.Loader

open Tyche.Bytes Tyche.Elf
open Tyche.Enclave (add64 sub64)

/-- `lib_encl_t`, with the memory of the plugin. -/
structure LibEncl where
  plugin : Nat
  size : Nat
  byte : Nat → UInt8
  vmcallGate : Nat

/-- What the system answers a call: the file, if it is opened, and the
address of so many bytes, if they are mapped. -/
structure InitCall where
  file : Option Env
  mmap : (size : Nat) → Option Nat

/-- `VMCALL_GATE_NAME`. -/
def vmcallGateName : List UInt8 :=
  [0x64, 0x6f, 0x6d, 0x61, 0x69, 0x6e, 0x5f, 0x67, 0x61, 0x74, 0x65, 0x5f, 0x76, 0x6d, 0x63, 0x61, 0x6c, 0x6c]

/-- `.text`. -/
def textName : List UInt8 := [0x2e, 0x74, 0x65, 0x78, 0x74]

/-- `sizeof(lib_encl_t)`. -/
abbrev libEnclSize : Nat := 24

/-- The bytes of the segment that are in the file contain those of the section. -/
def holdsText (text : Shdr) (segment : Phdr) : Bool :=
  decide (segment.pOffset ≤ text.shOffset ∧
    (segment.pOffset + segment.pFilesz) % 2 ^ 64 ≥ (text.shOffset + text.shSize) % 2 ^ 64)

/-- `malloc`; the result is compared with NULL. -/
def mallocs (env : Env) (size : Nat) : Action Bool := fun s => .ok (env.malloc s.allocs size, { s with allocs := s.allocs + 1 })

/-- `lseek`; the result is compared with the offset. -/
def seeks (env : Env) (off : Nat) : Action Bool := fun s =>
  if off ≤ env.file.maxbytes then .ok (true, { s with pos := off }) else .ok (decide (off = noOffset), s)

/-- `init_enclave_loader`, once the segment of the text is found. What it
allocates it gives back when it fails. -/
def readPlugin (call : InitCall) (env : Env) (header : Ehdr) (sections : List Shdr) (textSeg : Phdr) : Action (Option LibEncl) := do
  let allocated ← mallocs env libEnclSize
  if allocated = false then pure none
  else if textSeg.pAlign = 0 then stop .divide
  else
    match call.mmap (mappedSize textSeg) with
    | none => pure none
    | some plugin => do
      let sought ← seeks env textSeg.pOffset
      if sought = false then pure none
      else do
        let bytes ← read env textSeg.pFilesz
        -- The bytes are written to the mapping, whose size is not looked at.
        if mappedSize textSeg < bytes.length then stop .outside
        else if bytes.length ≠ textSeg.pFilesz then pure none
        else do
          let gate ← findSymbol env vmcallGateName header sections
          match gate with
          | none => pure none
          | some gate =>
            pure (some ⟨plugin, mappedSize textSeg, fun k => bytes.getD k 0, add64 (sub64 gate.stValue textSeg.pVaddr) plugin⟩)

/-- `init_enclave_loader`, on a file that is opened. -/
def readLibrary (call : InitCall) (env : Env) : Action (Option LibEncl) := do
  let header ← readElf64Header env
  let segments ← readElf64Segments env header
  let sections ← readElf64Sections env header
  let names ← index sections header.eShstrndx
  let shNames ← readSection64 env names
  let text ← findNamed textName shNames sections
  match text with
  | none => pure none
  | some text =>
    match segments.find? (holdsText text) with
    | none => pure none
    | some textSeg => readPlugin call env header sections textSeg

/-- `init_enclave_loader`: what it returns, and what `library_plugin` is then. -/
def initEnclaveLoader (call : InitCall) (libraryPlugin : Option LibEncl) : Except Stop (Option LibEncl × Option LibEncl) :=
  match libraryPlugin with
  | some plugin => .ok (some plugin, libraryPlugin)
  | none =>
    match call.file with
    | none => .ok (none, none)
    | some env =>
      match readLibrary call env ⟨0, 0⟩ with
      | .ok (some plugin, _) => .ok (some plugin, some plugin)
      | .ok (none, _) => .ok (none, none)
      | .error reason => .error reason

/-- Calls, one after the other: what they return, and what `library_plugin` is then. -/
def initCalls : List InitCall → Option LibEncl → Except Stop (List (Option LibEncl) × Option LibEncl)
  | [], libraryPlugin => .ok ([], libraryPlugin)
  | call :: calls, libraryPlugin =>
    match initEnclaveLoader call libraryPlugin with
    | .error reason => .error reason
    | .ok (result, libraryPlugin) =>
      match initCalls calls libraryPlugin with
      | .error reason => .error reason
      | .ok (results, libraryPlugin) => .ok (result :: results, libraryPlugin)

/-! ## The image -/

/-- The plugin is the segment that the file says is that of its text, and the
gate the symbol that the file says it is. -/
structure IsImage (env : Env) (lib : LibEncl) (text : Shdr) (textSeg : Phdr) (gate : Sym) : Prop where
  described : ∃ header segments sections names, HasHeader env header ∧ HasSegments env header segments ∧
    HasSections env header sections ∧ sections[header.eShstrndx]? = some names ∧
    sections.find? (fun sh => nameOf (contents env names) sh == some textName) = some text ∧
    segments.find? (holdsText text) = some textSeg ∧
    firstSymbol env sections vmcallGateName sections = some gate
  size : lib.size = mappedSize textSeg
  bytes : ∀ k < textSeg.pFilesz, k < lib.size ∧ env.file.bytes[textSeg.pOffset + k]? = some (lib.byte k)
  rest : ∀ k, textSeg.pFilesz ≤ k → lib.byte k = 0
  vmcallGate : lib.vmcallGate = add64 (sub64 gate.stValue textSeg.pVaddr) lib.plugin

section Image

variable {call : InitCall} {env : Env} {lib : LibEncl} {s s' : Process}

/-- A library that is read is the image that its file describes. -/
theorem readLibrary_image (hseek : Seekable env) (h : readLibrary call env s = .ok (some lib, s')) :
    ∃ text textSeg gate, IsImage env lib text textSeg gate := by
  unfold readLibrary at h
  obtain ⟨header, s₁, hheader, h⟩ := bind_eq_ok.1 h
  obtain ⟨segments, s₂, hsegments, h⟩ := bind_eq_ok.1 h
  obtain ⟨sections, s₃, hsections, h⟩ := bind_eq_ok.1 h
  obtain ⟨names, s₄, hnames, h⟩ := bind_eq_ok.1 h
  obtain ⟨shNames, s₅, hshNames, h⟩ := bind_eq_ok.1 h
  obtain ⟨found, s₆, hfound, h⟩ := bind_eq_ok.1 h
  obtain ⟨hheader, hsegments, hsections, hplaced, hindex, -, rfl⟩ :=
    headers_described hseek hheader hsegments hsections hnames hshNames
  have htext := findNamed_first (by decide) hfound
  cases found with
  | none => cases (pure_eq_ok.1 h).1
  | some text =>
  dsimp only at h
  cases hseg : segments.find? (holdsText text) with
  | none =>
    rw [hseg] at h
    cases (pure_eq_ok.1 h).1
  | some textSeg =>
  rw [hseg] at h
  -- The offset of the text is not the one that is taken for a failure, so that of its segment is not.
  have hoff : textSeg.pOffset ≠ noOffset := by
    have hholds := List.find?_some hseg
    have hle := (of_decide_eq_true hholds).1
    have hmem := List.mem_of_find?_eq_some htext.symm
    have hne := hplaced text hmem
    have hlt : text.shOffset < 2 ^ 64 := by
      rw [hsections.decoded] at hmem
      obtain ⟨i, -, rfl⟩ := List.mem_map.1 hmem
      exact number_slice_lt _ 24 8
    have hno : noOffset = 2 ^ 64 - 1 := rfl
    omega
  unfold readPlugin at h
  obtain ⟨allocated, s₇, -, h⟩ := bind_eq_ok.1 h
  split at h
  · cases (pure_eq_ok.1 h).1
  split at h
  · cases h
  cases hmmap : call.mmap (mappedSize textSeg) with
  | none =>
    rw [hmmap] at h
    cases (pure_eq_ok.1 h).1
  | some plugin =>
  rw [hmmap] at h
  dsimp only at h
  obtain ⟨sought, s₈, hsought, h⟩ := bind_eq_ok.1 h
  split at h
  · cases (pure_eq_ok.1 h).1
  next hsome =>
  have hpos : s₈.pos = textSeg.pOffset := by
    unfold seeks at hsought
    split at hsought
    · obtain ⟨-, rfl⟩ := Prod.mk.inj (Except.ok.inj hsought)
      rfl
    · obtain ⟨rfl, -⟩ := Prod.mk.inj (Except.ok.inj hsought)
      exact absurd (decide_eq_false hoff) hsome
  obtain ⟨bytes, s₉, hread, h⟩ := bind_eq_ok.1 h
  split at h
  · cases h
  next hfits =>
  split at h
  · cases (pure_eq_ok.1 h).1
  next hwhole =>
  rw [not_not] at hwhole
  obtain ⟨gate, s₁₀, hgate, h⟩ := bind_eq_ok.1 h
  cases gate with
  | none => cases (pure_eq_ok.1 h).1
  | some gate =>
  obtain ⟨heq, -⟩ := pure_eq_ok.1 h
  obtain rfl := Option.some.inj heq
  have hcount : sections.length = header.eShnum := by rw [hsections.decoded, recordsAt_length]
  obtain ⟨hfirst, -⟩ := findSymbol_ok (by decide) hplaced hcount hgate
  have hbytes : bytes = slice env.file.bytes s₈.pos (min textSeg.pFilesz maxRead) :=
    (Prod.mk.inj (Except.ok.inj hread)).1.symm
  refine ⟨text, textSeg, gate, ⟨⟨header, segments, sections, names, hheader, hsegments, hsections, hindex, htext.symm, hseg, hfirst.symm⟩,
    rfl, fun k hk => ?_, fun k hk => ?_, rfl⟩⟩
  · have hlt : k < bytes.length := by omega
    refine ⟨by dsimp only; omega, ?_⟩
    show _ = some (bytes.getD k 0)
    rw [List.getD_eq_getElem?_getD, List.getElem?_eq_getElem hlt, Option.getD_some, ← List.getElem?_eq_getElem hlt, hbytes, slice, hpos]
    rw [hbytes, slice, List.length_take] at hlt
    rw [List.getElem?_take_of_lt (by omega), List.getElem?_drop]
  · exact List.getD_eq_default _ _ (by omega)

variable {text : Shdr} {textSeg : Phdr} {gate : Sym}

/-- **The code is in the plugin**: each byte of the section is, and the gate is
the byte of its symbol, if that is a byte of the segment. -/
structure Serves (env : Env) (lib : LibEncl) (text : Shdr) (textSeg : Phdr) (gate : Sym) : Prop extends
    IsImage env lib text textSeg gate where
  code : text.shOffset + text.shSize < 2 ^ 64 → ∀ k < text.shSize, text.shOffset - textSeg.pOffset + k < lib.size ∧
    env.file.bytes[text.shOffset + k]? = some (lib.byte (text.shOffset - textSeg.pOffset + k))
  entry : textSeg.pVaddr ≤ gate.stValue → gate.stValue < textSeg.pVaddr + textSeg.pFilesz → lib.plugin + lib.size ≤ 2 ^ 64 →
    lib.plugin ≤ lib.vmcallGate ∧ lib.vmcallGate < lib.plugin + lib.size ∧
      env.file.bytes[textSeg.pOffset + (gate.stValue - textSeg.pVaddr)]? = some (lib.byte (lib.vmcallGate - lib.plugin))

theorem IsImage.serves (h : IsImage env lib text textSeg gate) : Serves env lib text textSeg gate where
  toIsImage := h
  code := by
    intro hlt k hk
    obtain ⟨header, segments, sections, names, -, -, -, -, -, hseg, -⟩ := h.described
    have hholds := List.find?_some hseg
    obtain ⟨hle, hend⟩ := of_decide_eq_true hholds
    rw [Nat.mod_eq_of_lt hlt] at hend
    have hmod := Nat.mod_le (textSeg.pOffset + textSeg.pFilesz) (2 ^ 64)
    obtain ⟨hsize, hbyte⟩ := h.bytes (text.shOffset - textSeg.pOffset + k) (by omega)
    refine ⟨hsize, ?_⟩
    rw [← hbyte]
    congr 1
    omega
  entry := by
    intro hle hlt hfits
    obtain ⟨hsize, hbyte⟩ := h.bytes (gate.stValue - textSeg.pVaddr) (by omega)
    have hgate : lib.vmcallGate = lib.plugin + (gate.stValue - textSeg.pVaddr) := by
      rw [h.vmcallGate]
      unfold add64 sub64
      omega
    rw [hgate, Nat.add_sub_cancel_left]
    exact ⟨by omega, by omega, hbyte⟩

/-! ## Calls -/

/-- Once there is a library, it is returned. -/
theorem initCalls_some (calls : List InitCall) (lib : LibEncl) :
    initCalls calls (some lib) = .ok (List.replicate calls.length (some lib), some lib) := by
  induction calls with
  | nil => rfl
  | cons call calls ih =>
    rw [initCalls, initEnclaveLoader]
    dsimp only
    rw [ih]
    rfl

/-- A call before there is a library. -/
theorem initEnclaveLoader_none {result libraryPlugin : Option LibEncl} (hseek : ∀ env, call.file = some env → Seekable env)
    (h : initEnclaveLoader call none = .ok (result, libraryPlugin)) : result = libraryPlugin ∧
      ∀ lib, result = some lib → ∃ env, call.file = some env ∧ ∃ text textSeg gate, Serves env lib text textSeg gate := by
  unfold initEnclaveLoader at h
  dsimp only at h
  cases hfile : call.file with
  | none =>
    rw [hfile] at h
    cases h
    exact ⟨rfl, fun lib hlib => by cases hlib⟩
  | some env =>
    rw [hfile] at h
    dsimp only at h
    split at h
    next plugin s' hread =>
      cases h
      refine ⟨rfl, fun lib hlib => ?_⟩
      obtain rfl := Option.some.inj hlib
      obtain ⟨text, textSeg, gate, himage⟩ := readLibrary_image (hseek env hfile) hread
      exact ⟨env, rfl, text, textSeg, gate, himage.serves⟩
    · cases h
      exact ⟨rfl, fun lib hlib => by cases hlib⟩
    · cases h

end Image

/-! ## A library -/

/-- A file with one segment, which holds the strings, a symbol table with the
gate, and the section `.text`: a `vmcall` and a `ret`. -/
def libraryBytes : List UInt8 :=
  elfMag ++ digits 28 0 ++ digits 8 64 ++ digits 8 120 ++ digits 6 0 ++ digits 2 56 ++ digits 2 1 ++ digits 2 64 ++
    digits 2 3 ++ digits 2 0 ++
    digits 4 1 ++ digits 4 5 ++ digits 8 0 ++ digits 16 0x400000 ++ digits 8 366 ++ digits 8 0x1000 ++ digits 8 0x1000 ++
    digits 4 0 ++ digits 4 3 ++ digits 16 0 ++ digits 8 312 ++ digits 8 26 ++ digits 24 0 ++
    digits 4 0 ++ digits 4 2 ++ digits 16 0 ++ digits 8 338 ++ digits 8 24 ++ digits 24 0 ++
    digits 4 1 ++ digits 4 1 ++ digits 16 0 ++ digits 8 362 ++ digits 8 4 ++ digits 24 0 ++
    0 :: textName ++ 0 :: vmcallGateName ++ [0] ++
    digits 4 7 ++ digits 4 0 ++ digits 8 0x40016a ++ digits 8 0 ++
    [0x0f, 0x01, 0xc1, 0xc3]

def libraryFile : Env := fileEnv libraryBytes (by decide +kernel)

/-- A call with the file, and one without. -/
def initWith : InitCall := ⟨some libraryFile, fun _ => some 0x70001000⟩

def initWithout : InitCall := ⟨none, fun _ => none⟩

theorem libraryFile_seekable : Seekable libraryFile where
  segments := by decide +kernel
  sections := by decide +kernel
  placed := by
    unfold Placed
    decide +kernel

/-- The calls `initWithout`, `initWith` and `initWithout`: the second reads the library. -/
def threeCalls : List InitCall := [initWithout, initWith, initWithout]

theorem threeCalls_seekable : ∀ call ∈ threeCalls, ∀ env, call.file = some env → Seekable env := by
  intro call hcall env hfile
  unfold threeCalls at hcall
  simp only [List.mem_cons, List.not_mem_nil, or_false] at hcall
  rcases hcall with rfl | rfl | rfl
  · cases hfile
  · obtain rfl := Option.some.inj hfile
    exact libraryFile_seekable
  · cases hfile

theorem threeCalls_run : ∃ results lib, initCalls threeCalls none = .ok (results, some lib) ∧
    results.map Option.isSome = [false, true, true] ∧ lib.plugin = 0x70001000 ∧ lib.size = 0x1000 ∧ lib.vmcallGate = 0x7000116a ∧
    (List.range 4).map (fun k => lib.byte (0x16a + k)) = [0x0f, 0x01, 0xc1, 0xc3] := by
  have hrun : ((initCalls threeCalls none).toOption.bind fun out => out.2.map fun lib =>
      decide (out.1.map Option.isSome = [false, true, true] ∧ lib.plugin = 0x70001000 ∧ lib.size = 0x1000 ∧
        lib.vmcallGate = 0x7000116a ∧ (List.range 4).map (fun k => lib.byte (0x16a + k)) = [0x0f, 0x01, 0xc1, 0xc3])) =
      some true := by decide +kernel
  rcases heq : initCalls threeCalls none with reason | ⟨results, _ | lib⟩
  · rw [heq] at hrun
    cases hrun
  · rw [heq] at hrun
    cases hrun
  · rw [heq] at hrun
    exact ⟨results, lib, rfl, of_decide_eq_true (Option.some.inj hrun)⟩

end Tyche.Loader
