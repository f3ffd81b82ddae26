/-
The search for a symbol (`find_symbol`) in a well-formed file: it goes
through the symbol tables in order, and ends with the first symbol of the
name, or in the `TEST` behind the loop, which cannot succeed.
-/
import Tyche.Elf.Read

namespace Tyche.Elf

open Tyche.Bytes

/-! ## Well-formed files -/

/-- The section is in the file. -/
def InFile (env : Env) (sh : Shdr) : Prop := sh.shOffset + sh.shSize ≤ env.file.bytes.length

instance (env : Env) (sh : Shdr) : Decidable (InFile env sh) := inferInstanceAs (Decidable (_ ≤ _))

/-- The bytes of a section. -/
def contents (env : Env) (sh : Shdr) : List UInt8 := slice env.file.bytes sh.shOffset sh.shSize

/-- The string table of a symbol table. -/
def strings (env : Env) (sections : List Shdr) (sh : Shdr) : List UInt8 :=
  match sections[sh.shLink]? with
  | some linked => contents env linked
  | none => []

/-- The name of a symbol, by the string table. -/
def Sym.name (sym : Sym) (strTbl : List UInt8) : Option (List UInt8) := cstring (strTbl.drop sym.stName)

/-- A symbol table, its string table and the names are in bounds. -/
structure WellFormedTable (env : Env) (sections : List Shdr) (sh : Shdr) : Prop where
  inFile : InFile env sh
  whole : sh.shSize % symSize = 0
  linked : ∃ str, sections[sh.shLink]? = some str ∧ InFile env str
  names : ∀ sym ∈ symbols (contents env sh), sym.name (strings env sections sh) ≠ none

/-- The section headers are those of the file, and its symbol tables are
well formed. -/
structure WellFormed (env : Env) (eh : Ehdr) (sections : List Shdr) : Prop where
  count : sections.length = eh.eShnum
  tables : ∀ sh ∈ sections, sh.isSymtab = true → WellFormedTable env sections sh

/-! ## The lookup -/

/-- The first symbol of the name in a table. -/
def firstIn (env : Env) (sections : List Shdr) (name : List UInt8) (sh : Shdr) : Option Sym :=
  (symbols (contents env sh)).find? fun sym => sym.name (strings env sections sh) == some name

/-- The first symbol of the name in these sections, in order of section and
then of symbol. -/
def firstSymbol (env : Env) (sections : List Shdr) (name : List UInt8) (searched : List Shdr) : Option Sym :=
  (searched.filter (·.isSymtab)).findSome? (firstIn env sections name)

/-- The search returns a copy of the first symbol of the name, or NULL. -/
def FindsSymbol (env : Env) (name : List UInt8) (eh : Ehdr) (sections : List Shdr) (s : Process) : Prop :=
  ∃ s', findSymbol env name eh sections s = .ok (firstSymbol env sections name sections, s')

/-- The `k`-th allocation is for the section, which one `read` transfers. -/
def Readable (env : Env) (sh : Shdr) (k : Nat) : Prop := sh.shSize ≤ maxRead ∧ env.malloc k sh.shSize = true

instance (env : Env) (sh : Shdr) (k : Nat) : Decidable (Readable env sh k) := inferInstanceAs (Decidable (_ ∧ _))

/-- A symbol of the name is in these sections, the tables up to its own are
read, and it is copied, after `k` allocations. -/
def Reaches (env : Env) (sections : List Shdr) (name : List UInt8) : List Shdr → Nat → Prop
  | [], _ => False
  | sh :: rest, k =>
    if sh.isSymtab = true then
      (Readable env sh k ∧ ∀ str, sections[sh.shLink]? = some str → Readable env str (k + 1)) ∧
        if firstIn env sections name sh = none then Reaches env sections name rest (k + 2)
        else env.malloc (k + 2) symSize = true
    else Reaches env sections name rest k

/-! ## Reading a table -/

section Tables

variable {env : Env} {sh : Shdr} {sections : List Shdr} {eh : Ehdr} {name : List UInt8}

/-- A section of the file is read, or the process is aborted. -/
theorem readSection64_eq (h : InFile env sh) (s : Process) :
    (Readable env sh s.allocs ∧
      readSection64 env sh s = .ok (contents env sh, ⟨sh.shOffset + sh.shSize, s.allocs + 1⟩)) ∨
    (¬ Readable env sh s.allocs ∧ readSection64 env sh s = .error .abort) := by
  have h : sh.shOffset + sh.shSize ≤ env.file.bytes.length := h
  have hoff : sh.shOffset ≤ env.file.maxbytes := by
    have := env.file.fits
    omega
  by_cases hmalloc : env.malloc s.allocs sh.shSize = true
  · have hstep : read env sh.shSize ⟨sh.shOffset, s.allocs + 1⟩ =
        .ok (slice env.file.bytes sh.shOffset (min sh.shSize maxRead),
          ⟨sh.shOffset + (slice env.file.bytes sh.shOffset (min sh.shSize maxRead)).length, s.allocs + 1⟩) := rfl
    have hlength : (slice env.file.bytes sh.shOffset (min sh.shSize maxRead)).length = min sh.shSize maxRead :=
      length_slice (by omega)
    unfold readSection64
    rw [bind_ok (malloc_ok hmalloc), bind_ok (lseek_ok hoff _), bind_ok hstep, hlength]
    by_cases hsize : sh.shSize ≤ maxRead
    · rw [Nat.min_eq_left hsize, bind_ok (test_ok rfl _)]
      exact .inl ⟨⟨hsize, hmalloc⟩, rfl⟩
    · exact .inr ⟨fun hreadable => hsize hreadable.1, bind_error (test_failed (by omega) _)⟩
  · right
    refine ⟨fun hreadable => hmalloc hreadable.2, ?_⟩
    unfold readSection64
    exact bind_error (malloc_failed hmalloc)

/-- A string that ends in its table is compared. -/
theorem strcmpAt_eq {table s : List UInt8} {off : Nat} (hname : 0 ∉ name) (h : cstring (table.drop off) = some s)
    (p : Process) : strcmpAt name table off p = .ok (decide (s = name), p) := by
  unfold strcmpAt
  rw [strcmp_cstring hname h]
  rfl

/-- The loop finds the first symbol of the name, and copies it. -/
theorem searchSymbols_eq {strTbl : List UInt8} (hname : 0 ∉ name) (syms : List Sym)
    (h : ∀ sym ∈ syms, sym.name strTbl ≠ none) (s : Process) :
    searchSymbols env name strTbl syms s =
      match syms.find? fun sym => sym.name strTbl == some name with
      | none => .ok (none, s)
      | some sym => if env.malloc s.allocs symSize then .ok (some sym, { s with allocs := s.allocs + 1 }) else .error .abort := by
  induction syms with
  | nil => rfl
  | cons sym syms ih =>
    obtain ⟨t, ht⟩ := Option.ne_none_iff_exists'.1 (h sym (List.mem_cons_self ..))
    unfold searchSymbols
    rw [bind_ok (strcmpAt_eq hname ht s), List.find?_cons, ht]
    by_cases heq : t = name
    · have hbeq : (some t == some name) = true := by simp [heq]
      rw [if_pos (decide_eq_true heq), hbeq]
      dsimp only
      split
      next hmalloc => rw [bind_ok (malloc_ok hmalloc)]; rfl
      next hmalloc => exact bind_error (malloc_failed hmalloc)
    · have hbeq : (some t == some name) = false := by simp [heq]
      rw [if_neg (by simp [heq]), hbeq]
      exact ih fun sym' hsym' => h sym' (List.mem_cons_of_mem _ hsym')

/-- The two tables of a well-formed symbol table are read, or the process is aborted. -/
theorem readTables_eq (hcount : sections.length = eh.eShnum) (h : WellFormedTable env sections sh) (s : Process) :
    (Readable env sh s.allocs ∧ (∀ str, sections[sh.shLink]? = some str → Readable env str (s.allocs + 1)) ∧
      ∃ pos, readTables env eh sections sh s = .ok ((contents env sh, strings env sections sh), ⟨pos, s.allocs + 2⟩)) ∨
    (¬ (Readable env sh s.allocs ∧ ∀ str, sections[sh.shLink]? = some str → Readable env str (s.allocs + 1)) ∧
      readTables env eh sections sh s = .error .abort) := by
  obtain ⟨str, hstr, hin⟩ := h.linked
  have hlink : sh.shLink < eh.eShnum := by
    rw [← hcount]
    exact (List.getElem?_eq_some_iff.1 hstr).1
  have hstrings : strings env sections sh = contents env str := by rw [strings, hstr]
  have hlinked : (∀ str, sections[sh.shLink]? = some str → Readable env str (s.allocs + 1)) ↔
      Readable env str (s.allocs + 1) := by simp [hstr]
  rw [hlinked, hstrings]
  unfold readTables
  rcases readSection64_eq h.inFile s with ⟨hfirst, heq⟩ | ⟨hfirst, heq⟩
  · rw [bind_ok heq, bind_ok (test_ok hlink _), bind_ok (index_ok hstr _)]
    rcases readSection64_eq hin ⟨sh.shOffset + sh.shSize, s.allocs + 1⟩ with ⟨hsecond, heq'⟩ | ⟨hsecond, heq'⟩
    · exact .inl ⟨hfirst, hsecond, _, bind_ok heq'⟩
    · exact .inr ⟨fun hboth => hsecond hboth.2, bind_error heq'⟩
  · exact .inr ⟨fun hboth => hfirst hboth.1, bind_error heq⟩

/-- How the search of a well-formed table ends: with the first symbol of
the name, with NULL, or in an abort. -/
theorem findSymbolInSection_eq {idx : Nat} (hname : 0 ∉ name) (hcount : sections.length = eh.eShnum)
    (hsh : sections[idx]? = some sh) (h : WellFormedTable env sections sh) (s : Process) :
    ((Readable env sh s.allocs ∧ ∀ str, sections[sh.shLink]? = some str → Readable env str (s.allocs + 1)) ∧ ∃ pos,
      findSymbolInSection env name eh sections idx s =
        match firstIn env sections name sh with
        | none => .ok (none, ⟨pos, s.allocs + 2⟩)
        | some sym => if env.malloc (s.allocs + 2) symSize then .ok (some sym, ⟨pos, s.allocs + 3⟩) else .error .abort) ∨
    (¬ (Readable env sh s.allocs ∧ ∀ str, sections[sh.shLink]? = some str → Readable env str (s.allocs + 1)) ∧
      findSymbolInSection env name eh sections idx s = .error .abort) := by
  unfold findSymbolInSection
  rw [bind_ok (index_ok hsh s)]
  rcases readTables_eq hcount h s with ⟨hfirst, hsecond, pos, heq⟩ | ⟨hunread, heq⟩
  · refine .inl ⟨⟨hfirst, hsecond⟩, pos, ?_⟩
    rw [bind_ok heq]
    dsimp only
    rw [if_neg (not_not_intro h.whole), bind_ok (test_ok h.whole _)]
    exact searchSymbols_eq hname _ h.names _
  · exact .inr ⟨hunread, bind_error heq⟩

/-- The loop over the sections reaches the first symbol of the name, or
ends in an abort or with NULL. -/
theorem findSymbolFrom_eq (hname : 0 ∉ name) (h : WellFormed env eh sections) (n : Nat) : ∀ i s, i + n = sections.length →
    (Reaches env sections name (sections.drop i) s.allocs ∧ ∃ sym s',
      firstSymbol env sections name (sections.drop i) = some sym ∧
      findSymbolFrom env name eh sections n i s = .ok (some sym, s')) ∨
    (¬ Reaches env sections name (sections.drop i) s.allocs ∧
      (findSymbolFrom env name eh sections n i s = .error .abort ∨
        ∃ s', findSymbolFrom env name eh sections n i s = .ok (none, s'))) := by
  induction n with
  | zero =>
    intro i s hi
    rw [List.drop_eq_nil_of_le (by omega)]
    exact .inr ⟨id, .inr ⟨s, rfl⟩⟩
  | succ n ih =>
    intro i s hi
    have hlt : i < sections.length := by omega
    have hsh : sections[i]? = some sections[i] := List.getElem?_eq_getElem hlt
    rw [List.drop_eq_getElem_cons hlt]
    generalize hsec : sections[i] = sh at hsh
    unfold findSymbolFrom
    rw [bind_ok (index_ok hsh s), Reaches, firstSymbol]
    by_cases hsymtab : sh.isSymtab = true
    · have htable := h.tables sh (List.mem_of_getElem? hsh) hsymtab
      rw [if_pos hsymtab, if_pos hsymtab, List.filter_cons_of_pos hsymtab, List.findSome?_cons]
      rcases findSymbolInSection_eq hname h.count hsh htable s with ⟨hread, pos, heq⟩ | ⟨hunread, heq⟩
      · cases hfirst : firstIn env sections name sh with
        | none =>
          rw [hfirst] at heq
          rw [bind_ok heq, if_pos rfl]
          rcases ih (i + 1) ⟨pos, s.allocs + 2⟩ (by omega) with ⟨hreaches, hfound⟩ | ⟨hnot, hend⟩
          · exact .inl ⟨⟨hread, hreaches⟩, hfound⟩
          · exact .inr ⟨fun hreaches => hnot hreaches.2, hend⟩
        | some sym =>
          rw [hfirst] at heq
          rw [if_neg (by simp)]
          by_cases hmalloc : env.malloc (s.allocs + 2) symSize = true
          · dsimp only at heq
            rw [if_pos hmalloc] at heq
            exact .inl ⟨⟨hread, hmalloc⟩, sym, _, rfl, bind_ok heq⟩
          · dsimp only at heq
            rw [if_neg hmalloc] at heq
            exact .inr ⟨fun hreaches => hmalloc hreaches.2, .inl (bind_error heq)⟩
      · exact .inr ⟨fun hreaches => hunread hreaches.1, .inl (bind_error heq)⟩
    · rw [if_neg hsymtab, if_neg hsymtab, List.filter_cons_of_neg hsymtab]
      exact ih (i + 1) s (by omega)

end Tables

/-- **The search finds the first symbol of the name** exactly when it
reaches one: without one it does not return. -/
theorem finds_symbol {env : Env} {eh : Ehdr} {sections : List Shdr} {name : List UInt8} (h : WellFormed env eh sections)
    (hname : 0 ∉ name) (s : Process) :
    FindsSymbol env name eh sections s ↔ Reaches env sections name sections s.allocs := by
  unfold FindsSymbol findSymbol
  have hloop := findSymbolFrom_eq hname h eh.eShnum 0 s (by rw [Nat.zero_add, h.count])
  rw [List.drop_zero] at hloop
  rcases hloop with ⟨hreaches, sym, s', hfirst, heq⟩ | ⟨hnot, hend⟩
  · refine ⟨fun _ => hreaches, fun _ => ⟨s', ?_⟩⟩
    rw [bind_ok heq, hfirst]
    rfl
  · refine ⟨?_, fun hreaches => absurd hreaches hnot⟩
    rintro ⟨s', hret⟩
    rcases hend with heq | ⟨s'', heq⟩
    · rw [bind_error heq] at hret
      cases hret
    · rw [bind_ok heq] at hret
      cases hret

/-! ## A file -/

/-- The lowest `n` bytes of a number, the lowest one first. -/
def digits : (n v : Nat) → List UInt8
  | 0, _ => []
  | n + 1, v => UInt8.ofNat v :: digits n (v / 256)

def enclStack : List UInt8 := [0x2e, 0x65, 0x6e, 0x63, 0x6c, 0x5f, 0x73, 0x74, 0x61, 0x63, 0x6b]

def enclStart : List UInt8 := [0x65, 0x6e, 0x63, 0x6c, 0x5f, 0x73, 0x74, 0x61, 0x72, 0x74]

/-- A file with one segment, the section `.encl_stack`, which holds the
strings, and a symbol table with the symbol `encl_start`. -/
def sampleBytes (segment : List UInt8) : List UInt8 :=
  elfMag ++ digits 28 0 ++ digits 8 64 ++ digits 8 120 ++ digits 6 0 ++ digits 2 56 ++ digits 2 1 ++ digits 2 64 ++
    digits 2 2 ++ digits 2 0 ++ segment ++
    digits 4 1 ++ digits 4 3 ++ digits 16 0 ++ digits 8 248 ++ digits 8 24 ++ digits 24 0 ++
    digits 4 0 ++ digits 4 2 ++ digits 16 0 ++ digits 8 272 ++ digits 8 24 ++ digits 24 0 ++
    0 :: enclStack ++ 0 :: enclStart ++ [0] ++
    digits 4 13 ++ digits 4 0 ++ digits 8 0x400000 ++ digits 8 0

/-- An environment with a file and an allocator that does not fail. -/
def fileEnv (bytes : List UInt8) (h : bytes.length < 2 ^ 63) : Env :=
  ⟨⟨bytes, bytes.length, le_refl _, h⟩, fun _ _ => true⟩

/-- The file, with an empty segment. -/
def sample : Env := fileEnv (sampleBytes (digits 56 0)) (by decide +kernel)

def sampleHeader : Ehdr := Ehdr.decode (slice sample.file.bytes 0 ehdrSize)

def sampleSections : List Shdr :=
  [Shdr.decode (slice sample.file.bytes 120 shdrSize), Shdr.decode (slice sample.file.bytes 184 shdrSize)]

example : readElf64Header sample ⟨0, 0⟩ = .ok (sampleHeader, ⟨64, 0⟩) := by decide +kernel

theorem sample_wellFormed : WellFormed sample sampleHeader sampleSections where
  count := by decide +kernel
  tables := by
    intro sh hmem hsymtab
    rcases List.mem_cons.1 hmem with rfl | hmem
    · exact absurd hsymtab (by decide +kernel)
    · obtain rfl := List.mem_singleton.1 hmem
      refine ⟨by decide +kernel, by decide +kernel, ⟨_, rfl, by decide +kernel⟩, ?_⟩
      decide +kernel

theorem finds_symbol_sample : FindsSymbol sample enclStart sampleHeader sampleSections ⟨0, 0⟩ := by
  refine (finds_symbol sample_wellFormed (by decide) ⟨0, 0⟩).2 ?_
  have hlinked : sampleSections[sampleSections[1].shLink]? = some sampleSections[0] := by decide +kernel
  show Reaches sample sampleSections enclStart [sampleSections[0], sampleSections[1]] 0
  rw [Reaches, if_neg (by decide +kernel), Reaches, if_pos (by decide +kernel), if_neg (by decide +kernel)]
  refine ⟨⟨by decide +kernel, fun str hstr => ?_⟩, rfl⟩
  obtain rfl := Option.some.inj (hlinked.symm.trans hstr)
  decide +kernel

/-- A name that no symbol has aborts the process. -/
theorem missing_symbol_aborts : WellFormed sample sampleHeader sampleSections ∧
    firstSymbol sample sampleSections enclStack sampleSections = none ∧
    findSymbol sample enclStack sampleHeader sampleSections ⟨0, 0⟩ = .error .abort ∧
    ¬ FindsSymbol sample enclStack sampleHeader sampleSections ⟨0, 0⟩ := by
  have habort : findSymbol sample enclStack sampleHeader sampleSections ⟨0, 0⟩ = .error .abort := by decide +kernel
  refine ⟨sample_wellFormed, by decide +kernel, habort, ?_⟩
  rintro ⟨s', hret⟩
  rw [habort] at hret
  cases hret

end Tyche.Elf
