/-
The loader (`enclave/loader/lib.c`): `parse_enclave` reads the headers of an
enclave's file, finds the section of the stack and the symbol to enter at.

For an arbitrary file it may read outside: the index of the section names is
not compared with the number of sections, and neither is the offset of a
name with the size of its table, nor has a table to end with a 0.
-/
import Tyche.Elf.Inside
import Tyche.Elf.Symbols

namespace Tyche.Loader

open Tyche.Bytes Tyche.Elf

/-- What `mmap` gave for a segment, and what was copied there. -/
structure Mapping where
  addr : Nat
  size : Nat
  byte : Nat → UInt8

/-- `load_encl_t`, less the file descriptor of the driver. The file that is
mapped is its bytes; a mapping that is NULL has the size 0. -/
structure LoadEncl where
  elfFd : Int
  elfContent : List UInt8
  header : Ehdr
  sections : List Shdr
  segments : List Phdr
  stackSection : Option Shdr
  entryPoint : Option Sym
  handle : Nat
  mappings : List (Option Mapping)

/-- The structure after `memset`, and after the file is mapped. -/
def LoadEncl.opened (elfFd : Int) (elfContent : List UInt8) : LoadEncl where
  elfFd := elfFd
  elfContent := elfContent
  header := ⟨[], 0, 0, 0, 0, 0, 0⟩
  sections := []
  segments := []
  stackSection := none
  entryPoint := none
  handle := 0
  mappings := []

/-- `STACK_SECTION_NAME`. -/
abbrev stackSectionName : List UInt8 := enclStack

/-- `ENCLAVE_START`. -/
abbrev enclaveStart : List UInt8 := enclStart

/-- The loop that finds the section of the stack. -/
def findStack (shNames : List UInt8) : List Shdr → Action (Option Shdr)
  | [] => pure none
  | sh :: rest => do
    let equal ← strcmpAt stackSectionName shNames sh.shName
    if equal then pure (some sh) else findStack shNames rest

/-- `parse_enclave`, once the section of the stack was looked for. -/
def parseEntry (env : Env) (encl : LoadEncl) : Action (Int × LoadEncl) :=
  if encl.stackSection = none then pure (-1, encl)
  else do
    let entryPoint ← findSymbol env enclaveStart encl.header encl.sections
    pure (0, { encl with entryPoint })

/-- `parse_enclave`. -/
def parseEnclave (env : Env) (encl : LoadEncl) : Action (Int × LoadEncl) :=
  if encl.elfFd < 0 then pure (-1, encl)
  else do
    let header ← readElf64Header env
    let segments ← readElf64Segments env header
    let sections ← readElf64Sections env header
    let names ← index sections header.eShstrndx
    let shNames ← readSection64 env names
    let found ← findStack shNames sections
    parseEntry env { encl with header, segments, sections, stackSection := found.or encl.stackSection }

/-! ## What is accessed -/

/-- What a file has to be for the loader to stay inside: the index of the
section names is below the number of sections; the names of the sections, up
to that of the stack, are compared inside their table; and if the stack is
found, so are the names of the symbols. -/
def ParseInside (env : Env) (encl : LoadEncl) (s : Process) : Prop :=
  0 ≤ encl.elfFd → ∀ header s₁, readElf64Header env s = .ok (header, s₁) →
    ∀ segments s₂, readElf64Segments env header s₁ = .ok (segments, s₂) →
    ∀ sections s₃, readElf64Sections env header s₂ = .ok (sections, s₃) →
      header.eShstrndx < header.eShnum ∧
      ∀ names shNames s₄, sections[header.eShstrndx]? = some names → readSection64 env names s₃ = .ok (shNames, s₄) →
        Compares stackSectionName shNames (sections.map (·.shName)) ∧
        ((∃ sh ∈ sections, Matches stackSectionName shNames sh.shName) ∨ encl.stackSection ≠ none →
          SearchInside env header sections enclaveStart sections s₄)

section Parse

variable {shNames : List UInt8} {s s' : Process}

theorem inside_findStack (sections : List Shdr) :
    (findStack shNames sections).Inside s ↔ Compares stackSectionName shNames (sections.map (·.shName)) := by
  induction sections with
  | nil => exact ⟨fun _ => trivial, fun _ => inside_pure _ s⟩
  | cons sh sections ih =>
    unfold findStack
    rw [List.map_cons, Compares]
    by_cases hinside : shNames.drop sh.shName <+: stackSectionName
    · exact ⟨fun h => absurd hinside (inside_strcmpAt.1 (inside_bind.1 h).1), fun h => absurd hinside h.1⟩
    · rw [inside_bind_ok (strcmpAt_matches hinside s), and_iff_right hinside]
      by_cases hmatch : Matches stackSectionName shNames sh.shName
      · rw [if_pos (decide_eq_true hmatch)]
        exact ⟨fun _ hnot => absurd hmatch hnot, fun _ => inside_pure _ s⟩
      · rw [if_neg (by simpa using hmatch), ih, imp_iff_right hmatch]

/-- The section of the stack is found if one has the name. -/
theorem findStack_ok (sections : List Shdr) (hinside : Compares stackSectionName shNames (sections.map (·.shName))) :
    ∃ found, findStack shNames sections s = .ok (found, s) ∧
      (found ≠ none ↔ ∃ sh ∈ sections, Matches stackSectionName shNames sh.shName) := by
  induction sections with
  | nil => exact ⟨none, rfl, by simp⟩
  | cons sh sections ih =>
    obtain ⟨hfirst, hrest⟩ := hinside
    unfold findStack
    rw [bind_ok (strcmpAt_matches hfirst s)]
    by_cases hmatch : Matches stackSectionName shNames sh.shName
    · rw [if_pos (decide_eq_true hmatch)]
      exact ⟨some sh, rfl, by simp [hmatch]⟩
    · rw [if_neg (by simpa using hmatch)]
      obtain ⟨found, heq, hfound⟩ := ih (hrest hmatch)
      exact ⟨found, heq, by simpa [hmatch] using hfound⟩

theorem inside_parseEntry {env : Env} {encl : LoadEncl} {names : Shdr} (hcount : encl.sections.length = encl.header.eShnum)
    (hnames : encl.sections[encl.header.eShstrndx]? = some names) : (parseEntry env encl).Inside s ↔
      (encl.stackSection ≠ none → SearchInside env encl.header encl.sections enclaveStart encl.sections s) := by
  unfold parseEntry
  split
  next hnone => exact ⟨fun _ hsome => absurd hnone hsome, fun _ => inside_pure _ s⟩
  next hsome =>
    rw [inside_bind, inside_findSymbol hcount hnames, imp_iff_right hsome, and_iff_left]
    exact fun _ s₁ _ => inside_pure _ s₁

end Parse

/-- **Parsing stays inside** exactly when the indices and names that it
follows do. -/
theorem parse_inside (env : Env) (encl : LoadEncl) (s : Process) :
    (parseEnclave env encl).Inside s ↔ ParseInside env encl s := by
  unfold parseEnclave ParseInside
  by_cases hfd : encl.elfFd < 0
  · rw [if_pos hfd]
    exact ⟨fun _ hnot => by omega, fun _ => inside_pure _ s⟩
  rw [if_neg hfd, imp_iff_right (by omega), inside_bind, and_iff_right (inside_readElf64Header env s)]
  refine forall_congr' fun header => forall_congr' fun s₁ => imp_congr_right fun _ => ?_
  rw [inside_bind, and_iff_right (inside_readElf64Segments env header s₁)]
  refine forall_congr' fun segments => forall_congr' fun s₂ => imp_congr_right fun _ => ?_
  rw [inside_bind, and_iff_right (inside_readElf64Sections env header s₂)]
  refine forall_congr' fun sections => forall_congr' fun s₃ => imp_congr_right fun hsections => ?_
  have hcount := readElf64Sections_length env header hsections
  by_cases hindex : header.eShstrndx < header.eShnum
  · obtain ⟨names, hnames⟩ : ∃ names, sections[header.eShstrndx]? = some names :=
      ⟨_, List.getElem?_eq_getElem (by omega)⟩
    rw [inside_bind_ok (index_ok hnames s₃), and_iff_right hindex, inside_bind,
      and_iff_right (inside_readSection64 env names s₃)]
    have hsome : ∀ found : Option Shdr, found.or encl.stackSection ≠ none ↔ found ≠ none ∨ encl.stackSection ≠ none := by
      intro found
      cases found <;> simp
    constructor
    · intro h names' shNames s₄ hnames' hread
      obtain rfl := Option.some.inj (hnames.symm.trans hnames')
      have hinside := h shNames s₄ hread
      have hcompares := (inside_findStack sections).1 (inside_bind.1 hinside).1
      obtain ⟨found, hfound, hstack⟩ := findStack_ok sections hcompares
      rw [inside_bind_ok hfound, inside_parseEntry hcount hnames] at hinside
      rw [← hstack, ← hsome]
      exact ⟨hcompares, hinside⟩
    · intro h shNames s₄ hread
      obtain ⟨hcompares, hsearch⟩ := h names shNames s₄ hnames hread
      obtain ⟨found, hfound, hstack⟩ := findStack_ok sections hcompares
      rw [← hstack, ← hsome] at hsearch
      rw [inside_bind_ok hfound, inside_parseEntry hcount hnames]
      exact hsearch
  · refine ⟨fun h => absurd (inside_index.1 (inside_bind.1 h).1) (by omega), fun h => absurd h.1 hindex⟩

/-- The segments of a parsed file are decoded from bytes. -/
theorem parseEnclave_segments {env : Env} {encl parsed : LoadEncl} {s s' : Process}
    (h : parseEnclave env encl s = .ok ((0, parsed), s')) : ∀ segment ∈ parsed.segments, ∃ bytes, segment = Phdr.decode bytes := by
  unfold parseEnclave at h
  split at h
  · cases h
  obtain ⟨header, s₁, -, h⟩ := bind_eq_ok.1 h
  obtain ⟨segments, s₂, hsegments, h⟩ := bind_eq_ok.1 h
  obtain ⟨sections, s₃, -, h⟩ := bind_eq_ok.1 h
  obtain ⟨names, s₄, -, h⟩ := bind_eq_ok.1 h
  obtain ⟨shNames, s₅, -, h⟩ := bind_eq_ok.1 h
  obtain ⟨found, s₆, -, h⟩ := bind_eq_ok.1 h
  unfold parseEntry at h
  split at h
  · cases h
  obtain ⟨entryPoint, s₇, -, h⟩ := bind_eq_ok.1 h
  obtain ⟨hr, -⟩ := Prod.mk.inj (Except.ok.inj h)
  obtain ⟨-, rfl⟩ := Prod.mk.inj hr
  exact readElf64Segments_decoded env header hsegments

/-- The file with section names in section 5, of two. -/
def misnamed : Env := fileEnv ((sampleBytes (digits 56 0)).set 62 5) (by decide +kernel)

/-- The header of section 5 is read behind the end of the array. -/
theorem parse_outside : ¬ (parseEnclave misnamed (.opened 3 misnamed.file.bytes)).Inside ⟨0, 0⟩ := by
  have h : (match parseEnclave misnamed (.opened 3 misnamed.file.bytes) ⟨0, 0⟩ with
      | .error .outside => true
      | _ => false) = true := by decide +kernel
  intro hinside
  split at h
  next heq => exact hinside heq
  next => cases h

end Tyche.Loader
