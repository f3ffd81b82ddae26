/-
The ELF library (`elf64/src/lib.c`): the headers, the segments and the
sections of a file, and the symbols by their names.

What is printed is left out, but for the name of a section, which is read
up to its end.
-/
import Tyche.Elf.Types

namespace Tyche.Elf

open Tyche.Bytes

/-! ## Headers -/

/-- `read_elf64_header`. -/
def readElf64Header (env : Env) : Action Ehdr := do
  lseek env 0
  let bytes ← read env ehdrSize
  test (bytes.length = ehdrSize)
  test (slice bytes 0 4 = elfMag)
  pure (Ehdr.decode bytes)

/-- The loop that reads `n` records of an array. -/
def readRecords {α : Type} (env : Env) (size : Nat) (decode : List UInt8 → α) : Nat → Action (List α)
  | 0 => pure []
  | n + 1 => do
    let bytes ← read env size
    test (bytes.length = size)
    let records ← readRecords env size decode n
    pure (decode bytes :: records)

/-- `read_elf64_sections`. -/
def readElf64Sections (env : Env) (eh : Ehdr) : Action (List Shdr) := do
  test (eh.eShnum > 0)
  malloc env (shdrSize * eh.eShnum)
  lseek env eh.eShoff
  readRecords env shdrSize Shdr.decode eh.eShnum

/-- `read_elf64_segments`. -/
def readElf64Segments (env : Env) (eh : Ehdr) : Action (List Phdr) := do
  test (eh.ePhnum > 0)
  malloc env (phdrSize * eh.ePhnum)
  lseek env eh.ePhoff
  test (phdrSize = eh.ePhentsize)
  readRecords env phdrSize Phdr.decode eh.ePhnum

/-- `read_section64`. -/
def readSection64 (env : Env) (sh : Shdr) : Action (List UInt8) := do
  malloc env sh.shSize
  lseek env sh.shOffset
  let bytes ← read env sh.shSize
  test (bytes.length = sh.shSize)
  pure bytes

/-! ## Strings of a table -/

/-- `strcmp` of a string with the one at an offset of a table. -/
def strcmpAt (name table : List UInt8) (off : Nat) : Action Bool :=
  match strcmp name (table.drop off) with
  | some equal => pure equal
  | none => stop .outside

/-- `print_elf64_section`: the name of the section is printed. -/
def printElf64Section (env : Env) (eh : Ehdr) (shTable : List Shdr) (i : Nat) : Action Unit := do
  let names ← index shTable eh.eShstrndx
  let shStr ← readSection64 env names
  let sh ← index shTable i
  match cstring (shStr.drop sh.shName) with
  | some _ => pure ()
  | none => stop .outside

/-! ## Symbols -/

/-- The elements of a symbol table. -/
def symbols (symTbl : List UInt8) : List Sym :=
  (List.range (symTbl.length / symSize)).map fun i => Sym.decode (slice symTbl (symSize * i) symSize)

/-- The loop of `find_symbol_in_section`; the symbol found is copied. -/
def searchSymbols (env : Env) (symbol strTbl : List UInt8) : List Sym → Action (Option Sym)
  | [] => pure none
  | sym :: rest => do
    let equal ← strcmpAt symbol strTbl sym.stName
    if equal then do
      malloc env symSize
      pure (some sym)
    else searchSymbols env symbol strTbl rest

/-- The two tables that `find_symbol_in_section` reads. -/
def readTables (env : Env) (eh : Ehdr) (sections : List Shdr) (sh : Shdr) : Action (List UInt8 × List UInt8) := do
  let symTbl ← readSection64 env sh
  test (sh.shLink < eh.eShnum)
  let linked ← index sections sh.shLink
  let strTbl ← readSection64 env linked
  pure (symTbl, strTbl)

/-- `find_symbol_in_section`. -/
def findSymbolInSection (env : Env) (symbol : List UInt8) (eh : Ehdr) (sections : List Shdr) (idx : Nat) :
    Action (Option Sym) := do
  let sh ← index sections idx
  let (symTbl, strTbl) ← readTables env eh sections sh
  if sh.shSize % symSize ≠ 0 then printElf64Section env eh sections idx else pure ()
  test (sh.shSize % symSize = 0)
  searchSymbols env symbol strTbl (symbols symTbl)

/-- The sections that `find_symbol` searches. -/
def Shdr.isSymtab (sh : Shdr) : Bool := sh.shType == shtDynsym || sh.shType == shtSymtab

/-- The loop of `find_symbol`, over `n` sections from `i` on. -/
def findSymbolFrom (env : Env) (symbol : List UInt8) (eh : Ehdr) (sections : List Shdr) : (n i : Nat) → Action (Option Sym)
  | 0, _ => pure none
  | n + 1, i => do
    let sh ← index sections i
    if sh.isSymtab then do
      let result ← findSymbolInSection env symbol eh sections i
      match result with
      | some sym => pure (some sym)
      | none => findSymbolFrom env symbol eh sections n (i + 1)
    else findSymbolFrom env symbol eh sections n (i + 1)

/-- `find_symbol`. The condition of the last `TEST` is an assignment of
NULL to the result. -/
def findSymbol (env : Env) (symbol : List UInt8) (eh : Ehdr) (sections : List Shdr) : Action (Option Sym) := do
  let result ← findSymbolFrom env symbol eh sections eh.eShnum 0
  match result with
  | some sym => pure (some sym)
  | none => do
    let assigned : Option Sym := none
    test (assigned ≠ none)
    pure none

end Tyche.Elf
