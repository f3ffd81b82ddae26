/-
What a file has to say for the loader to take it (`parse_enclave`): an
enclave that is parsed is what the bytes of the file describe, and a
well-formed file that describes an enclave is parsed.
-/
import Tyche.Elf.Format
import Tyche.Loader.Parse

namespace Tyche.Loader

open Tyche.Bytes Tyche.Elf

/-- The loops of `parse_enclave` and of `init_enclave_loader` that find a
section by its name. -/
def findNamed (name shNames : List UInt8) : List Shdr → Action (Option Shdr)
  | [] => pure none
  | sh :: rest => do
    let equal ← strcmpAt name shNames sh.shName
    if equal then pure (some sh) else findNamed name shNames rest

/-- The name of a section, by the table of section names. -/
def nameOf (shNames : List UInt8) (sh : Shdr) : Option (List UInt8) := cstring (shNames.drop sh.shName)

/-- The enclave is the one that the file describes: its header, its segments
and its sections are there; the section of the stack and the symbol to enter
at are the first of their names. -/
structure DescribedBy (env : Env) (encl : LoadEncl) : Prop where
  header : HasHeader env encl.header
  segments : HasSegments env encl.header encl.segments
  sections : HasSections env encl.header encl.sections
  stack : ∃ names sh, encl.sections[encl.header.eShstrndx]? = some names ∧ Whole env names ∧ encl.stackSection = some sh ∧
    encl.sections.find? (fun sh => nameOf (contents env names) sh == some stackSectionName) = some sh
  entry : ∃ sym, encl.entryPoint = some sym ∧ firstSymbol env encl.sections enclaveStart encl.sections = some sym

/-- The symbol tables are well formed, the names of the sections end in their
table, and one `read` transfers each section. -/
structure WellFormedSections (env : Env) (header : Ehdr) (sections : List Shdr) : Prop where
  symbols : WellFormed env header sections
  names : ∀ names, sections[header.eShstrndx]? = some names → ∀ sh ∈ sections, nameOf (contents env names) sh ≠ none
  small : ∀ sh ∈ sections, sh.shSize ≤ maxRead

/-- The header that the first bytes of the file make. -/
def fileHeader (env : Env) : Ehdr := Ehdr.decode (slice env.file.bytes 0 ehdrSize)

/-- No offset in the file is the one that `lseek` takes for a failure. -/
structure Seekable (env : Env) : Prop where
  segments : (fileHeader env).ePhoff ≠ noOffset
  sections : (fileHeader env).eShoff ≠ noOffset
  placed : Placed (recordsAt env.file.bytes (fileHeader env).eShoff shdrSize (fileHeader env).eShnum Shdr.decode)

section Described

variable {env : Env} {shNames : List UInt8} {s s' : Process} {elfFd : Int} {elfContent : List UInt8} {encl : LoadEncl}

theorem ne_noOffset {off : Nat} (h : off ≤ env.file.maxbytes) : off ≠ noOffset := by
  have hsigned := env.file.signed
  have hno : noOffset = 2 ^ 64 - 1 := rfl
  omega

theorem recordsAt_length {α : Type} (bytes : List UInt8) (off size n : Nat) (decode : List UInt8 → α) :
    (recordsAt bytes off size n decode).length = n := by simp [recordsAt]

theorem findStack_named (shNames : List UInt8) (sections : List Shdr) :
    findStack shNames sections = findNamed stackSectionName shNames sections := by
  induction sections with
  | nil => rfl
  | cons sh sections ih => rw [findStack, findNamed, ih]

/-- The loop finds the first section of the name. -/
theorem findNamed_first {name : List UInt8} (hname : 0 ∉ name) {sections : List Shdr} {found : Option Shdr}
    (h : findNamed name shNames sections s = .ok (found, s')) : found = sections.find? fun sh => nameOf shNames sh == some name := by
  induction sections generalizing s with
  | nil =>
    obtain ⟨rfl, -⟩ := pure_eq_ok.1 h
    rfl
  | cons sh sections ih =>
    unfold findNamed at h
    obtain ⟨equal, s₁, hcmp, h⟩ := bind_eq_ok.1 h
    obtain ⟨hequal, rfl⟩ := strcmpAt_ok hname hcmp
    rw [List.find?_cons]
    cases equal with
    | true =>
      rw [nameOf, ← hequal]
      exact (pure_eq_ok.1 h).1
    | false =>
      rw [nameOf, ← hequal]
      exact ih h

theorem index_eq_ok {α : Type} {elems : List α} {i : Nat} {elem : α} (h : index elems i s = .ok (elem, s')) :
    elems[i]? = some elem ∧ s' = s := by
  unfold index at h
  cases hindex : elems[i]? with
  | none =>
    rw [hindex] at h
    cases h
  | some found =>
    rw [hindex] at h
    obtain ⟨rfl, rfl⟩ := pure_eq_ok.1 h
    exact ⟨rfl, rfl⟩

/-- What the reading of the headers and of the section names yields. -/
theorem headers_described {header : Ehdr} {segments : List Phdr} {sections : List Shdr} {names : Shdr} {shNames : List UInt8}
    {s₁ s₂ s₃ s₄ s₅ : Process} (hseek : Seekable env) (hheader : readElf64Header env s = .ok (header, s₁))
    (hsegments : readElf64Segments env header s₁ = .ok (segments, s₂))
    (hsections : readElf64Sections env header s₂ = .ok (sections, s₃)) (hnames : index sections header.eShstrndx s₃ = .ok (names, s₄))
    (hshNames : readSection64 env names s₄ = .ok (shNames, s₅)) :
    HasHeader env header ∧ HasSegments env header segments ∧ HasSections env header sections ∧ Placed sections ∧
      sections[header.eShstrndx]? = some names ∧ Whole env names ∧ shNames = contents env names := by
  obtain ⟨hheader, -⟩ := readElf64Header_eq_ok.1 hheader
  have hfile : header = fileHeader env := hheader.decoded
  obtain ⟨hsegments, -, -⟩ := (readElf64Segments_eq_ok (hfile ▸ hseek.segments)).1 hsegments
  obtain ⟨hsections, -, -⟩ := (readElf64Sections_eq_ok (hfile ▸ hseek.sections)).1 hsections
  have hplaced : Placed sections := by
    rw [hsections.decoded, hfile]
    exact hseek.placed
  obtain ⟨hindex, -⟩ := index_eq_ok hnames
  obtain ⟨hwhole, -, hcontents, -⟩ := (readSection64_eq_ok (hplaced names (List.mem_of_getElem? hindex))).1 hshNames
  exact ⟨hheader, hsegments, hsections, hplaced, hindex, hwhole, hcontents⟩

/-- **An enclave that is parsed** is what the file describes. -/
theorem parse_described (hseek : Seekable env)
    (h : parseEnclave env (.opened elfFd elfContent) s = .ok ((0, encl), s')) : DescribedBy env encl := by
  unfold parseEnclave at h
  split at h
  · cases h
  obtain ⟨header, s₁, hheader, h⟩ := bind_eq_ok.1 h
  obtain ⟨segments, s₂, hsegments, h⟩ := bind_eq_ok.1 h
  obtain ⟨sections, s₃, hsections, h⟩ := bind_eq_ok.1 h
  obtain ⟨names, s₄, hnames, h⟩ := bind_eq_ok.1 h
  obtain ⟨shNames, s₅, hshNames, h⟩ := bind_eq_ok.1 h
  obtain ⟨found, s₆, hfound, hparse⟩ := bind_eq_ok.1 h
  obtain ⟨hheader, hsegments, hsections, hplaced, hindex, hwhole, rfl⟩ :=
    headers_described hseek hheader hsegments hsections hnames hshNames
  rw [findStack_named] at hfound
  have hstack := findNamed_first (by decide) hfound
  unfold parseEntry at hparse
  split at hparse
  · cases hparse
  next hsome =>
    obtain ⟨entryPoint, s₇, hentry, hparse⟩ := bind_eq_ok.1 hparse
    obtain ⟨heq, -⟩ := pure_eq_ok.1 hparse
    obtain ⟨-, rfl⟩ := Prod.mk.inj heq
    obtain ⟨sh, hsh⟩ := Option.ne_none_iff_exists'.1 hsome
    have hfoundSome : found = some sh := by
      have hor : found.or none = some sh := hsh
      rwa [Option.or_none] at hor
    have hcount : sections.length = header.eShnum := by rw [hsections.decoded, recordsAt_length]
    obtain ⟨hfirst, hne⟩ := findSymbol_ok (by decide) hplaced hcount hentry
    obtain ⟨sym, hsym⟩ := Option.ne_none_iff_exists'.1 hne
    exact ⟨hheader, hsegments, hsections, ⟨names, sh, hindex, hwhole, hsh, hstack.symm.trans hfoundSome⟩,
      ⟨sym, hsym, hfirst.symm.trans hsym⟩⟩

theorem sample_seekable : Seekable sample where
  segments := by decide +kernel
  sections := by decide +kernel
  placed := by
    unfold Placed
    decide +kernel

theorem parse_described_sample : ∃ encl s',
    parseEnclave sample (.opened 3 sample.file.bytes) ⟨0, 0⟩ = .ok ((0, encl), s') ∧ DescribedBy sample encl := by
  have hparses : (match parseEnclave sample (.opened 3 sample.file.bytes) ⟨0, 0⟩ with
      | .ok ((ret, _), _) => decide (ret = 0)
      | .error _ => false) = true := by decide +kernel
  split at hparses
  next ret encl s' heq =>
    obtain rfl := of_decide_eq_true hparses
    exact ⟨encl, s', heq, parse_described sample_seekable heq⟩
  next => cases hparses

/-- A symbol that exists is reached, if all allocations succeed. -/
theorem reaches_of_malloc {sections : List Shdr} {name : List UInt8} (hmalloc : ∀ k size, env.malloc k size = true)
    (hsmall : ∀ sh ∈ sections, sh.shSize ≤ maxRead) {searched : List Shdr} (hsearched : ∀ sh ∈ searched, sh ∈ sections)
    (hfirst : firstSymbol env sections name searched ≠ none) (k : Nat) : Reaches env sections name searched k := by
  induction searched generalizing k with
  | nil => exact absurd rfl hfirst
  | cons sh rest ih =>
    obtain ⟨hsh, hrest⟩ := List.forall_mem_cons.1 hsearched
    rw [Reaches]
    split
    next hsymtab =>
      refine ⟨⟨⟨hsmall sh hsh, hmalloc _ _⟩, fun str hstr => ⟨hsmall str (List.mem_of_getElem? hstr), hmalloc _ _⟩⟩, ?_⟩
      split
      next hnone =>
        refine ih hrest ?_ (k + 2)
        rwa [firstSymbol, List.filter_cons_of_pos hsymtab, List.findSome?_cons, hnone] at hfirst
      next => exact hmalloc _ _
    next hsymtab =>
      refine ih hrest ?_ k
      rwa [firstSymbol, List.filter_cons_of_neg hsymtab] at hfirst

/-- The names of the sections are compared inside their table. -/
theorem findNamed_eq {name : List UInt8} (hname : 0 ∉ name) {sections : List Shdr}
    (hnames : ∀ sh ∈ sections, nameOf shNames sh ≠ none) (s : Process) :
    findNamed name shNames sections s = .ok (sections.find? fun sh => nameOf shNames sh == some name, s) := by
  induction sections with
  | nil => rfl
  | cons sh sections ih =>
    obtain ⟨hsh, hrest⟩ := List.forall_mem_cons.1 hnames
    obtain ⟨found, hfound⟩ := Option.ne_none_iff_exists'.1 hsh
    have hfound' : cstring (shNames.drop sh.shName) = some found := hfound
    unfold findNamed
    rw [bind_ok (strcmpAt_eq hname hfound' s), List.find?_cons, hfound]
    by_cases heq : found = name
    · rw [if_pos (decide_eq_true heq), heq, beq_self_eq_true]
      rfl
    · have hbeq : (some found == some name) = false := by simp [heq]
      rw [if_neg (by simp [heq]), hbeq]
      exact ih hrest

/-- **A well-formed file** that describes an enclave is parsed, if its parts are
allocated. -/
theorem described_parsed (hmalloc : ∀ k size, env.malloc k size = true) (hfd : 0 ≤ elfFd)
    (hopened : encl = { LoadEncl.opened elfFd elfContent with
      header := encl.header, segments := encl.segments, sections := encl.sections, stackSection := encl.stackSection,
      entryPoint := encl.entryPoint })
    (hdescribed : DescribedBy env encl) (hwell : WellFormedSections env encl.header encl.sections) (s : Process) :
    ∃ s', parseEnclave env (.opened elfFd elfContent) s = .ok ((0, encl), s') := by
  have hfits := env.file.fits
  have hphoff : encl.header.ePhoff ≤ env.file.maxbytes := (Nat.le_add_right ..).trans (hdescribed.segments.bytes.trans hfits)
  have hshoff : encl.header.eShoff ≤ env.file.maxbytes := (Nat.le_add_right ..).trans (hdescribed.sections.bytes.trans hfits)
  obtain ⟨names, sh, hnames, hwhole, hstack, hfind⟩ := hdescribed.stack
  obtain ⟨sym, hentry, hfirst⟩ := hdescribed.entry
  unfold parseEnclave
  rw [if_neg (by show ¬ elfFd < 0; omega), bind_ok (readElf64Header_eq_ok.2 ⟨hdescribed.header, rfl⟩),
    bind_ok ((readElf64Segments_eq_ok (ne_noOffset hphoff)).2 ⟨hdescribed.segments, hmalloc _ _, rfl⟩),
    bind_ok ((readElf64Sections_eq_ok (ne_noOffset hshoff)).2 ⟨hdescribed.sections, hmalloc _ _, rfl⟩), bind_ok (index_ok hnames _),
    bind_ok ((readSection64_eq_ok (ne_noOffset hwhole.seekable)).2 ⟨hwhole, hmalloc _ _, rfl, rfl⟩),
    findStack_named, bind_ok (findNamed_eq (by decide) (hwell.names names hnames) _), hfind]
  unfold parseEntry
  rw [if_neg (by simp)]
  have hreaches := reaches_of_malloc hmalloc hwell.small (fun _ hsh => hsh) (by rw [hfirst]; simp)
    (⟨names.shOffset + names.shSize, s.allocs + 1 + 1 + 1⟩ : Process).allocs
  have hclean : (0 : UInt8) ∉ enclaveStart := by decide
  have hloop := findSymbolFrom_eq hclean hwell.symbols encl.header.eShnum 0
    ⟨names.shOffset + names.shSize, s.allocs + 1 + 1 + 1⟩ (by rw [Nat.zero_add, hwell.symbols.count])
  rw [List.drop_zero] at hloop
  obtain ⟨-, sym', s', hsym', heq⟩ := hloop.resolve_right fun h => h.1 hreaches
  obtain rfl := Option.some.inj (hsym'.symm.trans hfirst)
  refine ⟨s', ?_⟩
  have hsearch : findSymbol env enclaveStart encl.header encl.sections ⟨names.shOffset + names.shSize, s.allocs + 1 + 1 + 1⟩ =
      .ok (some sym', s') := by
    unfold findSymbol
    rw [bind_ok heq]
    rfl
  rw [bind_ok hsearch, hopened, hstack, hentry]
  rfl

/-- The enclave of the sample. -/
def sampleEncl : LoadEncl :=
  { LoadEncl.opened 3 sample.file.bytes with
    header := sampleHeader
    sections := sampleSections
    segments := [Phdr.decode (slice sample.file.bytes 64 phdrSize)]
    stackSection := sampleSections.head?
    entryPoint := firstSymbol sample sampleSections enclaveStart sampleSections }

theorem sample_describes : DescribedBy sample sampleEncl where
  header := ⟨by decide +kernel, by decide +kernel, rfl⟩
  segments := ⟨by decide +kernel, by decide +kernel, by decide +kernel, by decide +kernel⟩
  sections := ⟨by decide +kernel, by decide +kernel, by decide +kernel⟩
  stack := ⟨_, _, rfl, ⟨by decide +kernel, by decide +kernel, by decide +kernel⟩, rfl, by decide +kernel⟩
  entry := by
    obtain ⟨sym, hsym⟩ := Option.ne_none_iff_exists'.1
      (show firstSymbol sample sampleSections enclaveStart sampleSections ≠ none by decide +kernel)
    exact ⟨sym, hsym, hsym⟩

theorem described_parsed_sample : ∃ s', parseEnclave sample (.opened 3 sample.file.bytes) ⟨0, 0⟩ = .ok ((0, sampleEncl), s') := by
  refine described_parsed (fun _ _ => rfl) (by decide) rfl sample_describes ⟨sample_wellFormed, fun names hnames => ?_, ?_⟩ ⟨0, 0⟩
  · have hindex : sampleEncl.sections[sampleEncl.header.eShstrndx]? = some sampleSections[0] := by decide +kernel
    obtain rfl := Option.some.inj (hnames.symm.trans hindex)
    decide +kernel
  · decide +kernel

end Described

end Tyche.Loader
