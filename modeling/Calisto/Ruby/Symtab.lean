import Calisto.Lib.Checked
import Calisto.Wire.Text

/-!
# Local symbols of libruby

`symtab_lookup`, which reads the symbol table of the library file.  `usize` has 64 bits; an addition that overflows and
a slice out of range panic.
-/

namespace Calisto

namespace Symtab

open Words Checked

/-- What `std::fs::read` gives: a vector holds less than 2^63 bytes. -/
structure File where
  bytes : Bytes
  fits : bytes.length < 9223372036854775808

/-- `cstr_at`, and the same lines in the loop over the symbols. -/
def cstrAt (strings : Bytes) (off : Nat) : Option Bytes :=
  if off ≤ strings.length then
    let tail := strings.drop off
    (tail.idxOf? 0).map fun pos => tail.take pos
  else none

/-- The header of the section `i`. -/
def headerAt (data : Bytes) (shoff shentsize i : Nat) : Run Bytes := do
  let start ← add shoff (← mul i shentsize)
  get data start (← add shoff (← mul (← add i 1) shentsize))

/-- `while off + 24 <= size`. -/
def symbolLoop (data name strtab : Bytes) (offset size entsize off : Nat) : Run Nat := do
  let _ ← add off 24
  if off + 24 ≤ size then
    let start ← add offset off
    let sym ← get data start (← add start 24)
    let stName := number (← index sym 0 4)
    let stValue := number (← index sym 8 16)
    let found ← ofOption (cstrAt strtab stName)
    if found = name then return stValue
    let _ ← add off (max entsize 24)
    symbolLoop data name strtab offset size entsize (off + max entsize 24)
  else throw .giveUp
termination_by size - off

/-- What follows for the section `.symtab`. -/
def symtabSection (data name : Bytes) (shoff shentsize : Nat) (hdr : Bytes) : Run Nat := do
  let strtabIdx := number (← index hdr 40 44)
  let entsize := number (← index hdr 56 64)
  let offset := number (← index hdr 24 32)
  let size := number (← index hdr 32 40)
  let strtabHdr ← headerAt data shoff shentsize strtabIdx
  let strtabOff := number (← index strtabHdr 24 32)
  let strtabSize := number (← index strtabHdr 32 40)
  let strtab ← get data strtabOff (← add strtabOff strtabSize)
  symbolLoop data name strtab offset size entsize 0

/-- `for i in 0..shnum`. -/
def sectionLoop (data name shstr : Bytes) (shoff shentsize : Nat) : List Nat → Run Nat
  | [] => throw .giveUp
  | i :: is => do
    let hdr ← headerAt data shoff shentsize i
    let shType := number (← index hdr 4 8)
    if shType ≠ 2 then sectionLoop data name shstr shoff shentsize is
    else
      let nameOff := number (← index hdr 0 4)
      if cstrAt shstr nameOff ≠ some (utf8 ".symtab".toList) then sectionLoop data name shstr shoff shentsize is
      else symtabSection data name shoff shentsize hdr

/-- `file` is `none` where it cannot be read. -/
def symtabLookup (file : Option File) (name : Bytes) : Run Nat := do
  let data := (← ofOption file).bytes
  if data.length < 64 then throw .giveUp
  else
    let class64 ← index data 4 5
    if class64 ≠ [2] then throw .giveUp
    else
      let shoff := number (← index data 40 48)
      let shentsize := number (← index data 58 60)
      let shnum := number (← index data 60 62)
      let shstrndx := number (← index data 62 64)
      let shstrHdr ← headerAt data shoff shentsize shstrndx
      let shstrOff := number (← index shstrHdr 24 32)
      let shstrSize := number (← index shstrHdr 32 40)
      let shstr ← get data shstrOff (← add shstrOff shstrSize)
      sectionLoop data name shstr shoff shentsize (List.range shnum)

end Symtab

end Calisto
