import SELinux.Label.Spec
import SELinux.Sepol.AvtabRead

/-!
# Loading a file of specifications

`process_file` of `label_file.c` opens the newer of two candidate files, a textual one and a
compiled one, and loads it with `process_text_file` or `load_mmap` according to its first word. If
that fails it goes on with the older candidate, on the handle as the first attempt left it.

A specification is built in place: `spec_arr[nspec]` is filled field by field, and only `nspec++`
makes it part of the array. The slot is not cleared when a record of a compiled file breaks off in
its middle, so it is part of the state.
-/

namespace SELinux.Label

open Lib (CString)
open Sepol (nextLe32)

variable {ρ : Type}

/-- What the loaders take from their surroundings: whether the handle is opened for validation, the
regular-expression library, and the callbacks that accept a context or rewrite it. -/
structure Library (ρ : Type) where
  validating : Bool
  /-- `regex_prepare_data`, on the anchored text. -/
  regexPrepareData : List (BitVec 8) → Option ρ
  /-- `pcre2_serialize_decode`, on what is left of the file. -/
  regexDecode : List (BitVec 8) → Option ρ
  regexVersion : Option CString
  regexArchString : Option CString
  selinuxValidate : CString → Option CString
  /-- `myinvalidcon` or `mycanoncon`, if one is set. -/
  compatCallback : Option (CString → Option CString)

structure Handle (ρ : Type) where
  data : SavedData ρ
  /-- `spec_arr[nspec]`. -/
  slot : Spec ρ
  /-- The number of files in the digest, if one was asked for. -/
  digest : Option Nat

/-- A slot as `grow_specs` clears it. -/
def Spec.blank : Spec ρ where
  ctxRaw := .ofBuffer []
  validated := false
  regexStr := .ofBuffer []
  regex := none
  mode := 0
  stemId := some 0
  hasMetaChars := false
  prefixLen := 0

section

variable (lib : Library ρ) (version : BitVec 32) (archMatches : Bool)
  (pfx : Option CString) (h : Handle ρ)

/-- The slot becomes part of the array, and the next one is blank. -/
def Handle.store (s : Spec ρ) (stem : Option (Fin h.data.stemArr.length)) : Handle ρ :=
  { h with data := h.data.addSpec s stem, slot := .blank }

/-! ## Validation -/

def noneContext : CString := .ofString "<<none>>"

/-- `selabel_validate` does nothing to a context that is marked as validated. -/
def selabelValidate (s : Spec ρ) : Option (Spec ρ) :=
  if !lib.validating || s.validated then some s
  else (lib.selinuxValidate s.ctxRaw).map fun ctx => { s with ctxRaw := ctx, validated := true }

def compatValidate (s : Spec ρ) : Option (Spec ρ) :=
  match lib.compatCallback with
  | some callback => (callback s.ctxRaw).map fun ctx => { s with ctxRaw := ctx }
  | none => selabelValidate lib s

/-! ## Textual files -/

/-- `read_spec_entry`: the next word and what is left behind it; `none` for a character that is not
ASCII. -/
def readSpecEntry (ptr : List (BitVec 8)) : Option (List (BitVec 8) × List (BitVec 8)) :=
  let ptr := ptr.dropWhile CString.isspace
  let entry := ptr.takeWhile (!CString.isspace ·)
  if entry.any (0x80 ≤ ·) then none else some (entry, ptr.dropWhile (!CString.isspace ·))

/-- The loop of `read_spec_entries`. -/
def readItems : Nat → List (BitVec 8) → Option (List CString)
  | 0, _ => some []
  | numArgs + 1, buf =>
    if buf = [] then some []
    else
      match readSpecEntry buf with
      | none => none
      | some ([], _) => some []
      | some (entry, rest) => (readItems numArgs rest).map (CString.ofBuffer entry :: ·)

/-- `read_spec_entries`, on a line without its newline. -/
def readSpecEntries (numArgs : Nat) (lineBuf : CString) : Option (List CString) :=
  let buf := lineBuf.bytes.dropWhile CString.isspace
  match buf with
  | [] => some []
  | c :: _ => if c = charByte '#' then some [] else readItems numArgs buf

/-- The file types `-b`, `-c` and so on; `none` for `(mode_t) -1`. -/
def stringToMode (mode : CString) : Option (BitVec 32) :=
  match mode.bytes with
  | [dash, c] =>
    if dash ≠ charByte '-' then none
    else if c = charByte 'b' then some 0x6000
    else if c = charByte 'c' then some 0x2000
    else if c = charByte 'd' then some 0x4000
    else if c = charByte 'p' then some 0x1000
    else if c = charByte 'l' then some 0xa000
    else if c = charByte 's' then some 0xc000
    else if c = charByte '-' then some 0x8000
    else none
  | _ => none

/-- The fields of a line of a textual file. -/
structure LineFields where
  regex : CString
  type : Option CString
  context : CString

/-- The first part of `process_line`: no line at all, a line without a specification for this
handle, or the fields of one. -/
def lineFields (lineBuf : CString) : Option (Option LineFields) :=
  match readSpecEntries 3 lineBuf with
  | none => none
  | some [] => some none
  | some [_] => none
  | some (regex :: second :: rest) =>
    let fields : LineFields :=
      match rest with
      | [] => ⟨regex, none, second⟩
      | context :: _ => ⟨regex, some second, context⟩
    let len := getStemFromSpec regex
    if len ≠ 0 ∧ pfx.any (!CString.eqUpTo len · regex) then some none else some (some fields)

/-- The text `^...$` that `compile_regex` compiles. -/
def anchoredRegex (s : CString) : List (BitVec 8) := charByte '^' :: s.bytes ++ [charByte '$']

/-- The end of `process_line`. -/
def checkContext (spec : Spec ρ) : Spec ρ × Bool :=
  if spec.ctxRaw ≠ noneContext ∧ lib.validating then
    match compatValidate lib spec with
    | none => (spec, false)
    | some spec => (spec, true)
  else (spec, true)

/-- The rest of `process_line` on the slot, which is part of the array by then: the specification
and whether it was accepted. -/
def fillSpec (slot : Spec ρ) (fields : LineFields) : Spec ρ × Bool :=
  let spec := { slot with regexStr := fields.regex, mode := 0, ctxRaw := fields.context }
  match if lib.validating then (lib.regexPrepareData (anchoredRegex fields.regex)).map some
      else some spec.regex with
  | none => (spec, false)
  | some regex =>
    let spec := { spec with regex := regex }
    match fields.type.elim (some 0) stringToMode with
    | none => (spec, false)
    | some mode => checkContext lib { spec with mode := mode }.withMetaChars

def processLine (lineBuf : CString) : Handle ρ × Bool :=
  match lineFields pfx lineBuf with
  | none => (h, false)
  | some none => (h, true)
  | some (some fields) =>
    let found := findStemFromSpec h.data fields.regex
    let filled := fillSpec lib h.slot fields
    ({ h with data := found.1 : Handle ρ }.store filled.1 found.2, filled.2)

def processTextFile : Handle ρ → List CString → Handle ρ × Bool
  | h, [] => (h, true)
  | h, lineBuf :: rest =>
    match processLine lib pfx h lineBuf with
    | (h, true) => processTextFile h rest
    | (h, false) => (h, false)

/-- The lines that `getline` yields. -/
def textLines (file : List (BitVec 8)) : List CString :=
  (file.splitOn (charByte '\n')).map .ofBuffer

/-! ## Compiled files -/

/-- `next_entry` for a number of bytes. -/
def nextEntry (bytes : Nat) (fp : List (BitVec 8)) : Option (List (BitVec 8) × List (BitVec 8)) :=
  if fp.length < bytes then none else some (fp.take bytes, fp.drop bytes)

/-- A string with its length in front, which counts the zero byte at its end. -/
def nextCString (fp : List (BitVec 8)) : Option (CString × List (BitVec 8)) := do
  let (entryLen, fp) ← nextLe32 fp
  if entryLen = 0 then none
  let (buf, fp) ← nextEntry entryLen.toNat fp
  if buf.getLast? ≠ some 0 then none
  some (.ofBuffer buf, fp)

def compiledFcontextMagic : BitVec 32 := 0xf97cff8a

/-- The head of a compiled file: its version and whether its precompiled patterns are for this
machine. -/
def compiledHeader (fp : List (BitVec 8)) : Option (BitVec 32 × Bool × List (BitVec 8)) := do
  let (magic, fp) ← nextLe32 fp
  if magic ≠ compiledFcontextMagic then none
  let (version, fp) ← nextLe32 fp
  if 5 < version then none
  let regVersion ← lib.regexVersion
  let regArch ← lib.regexArchString
  if version < 2 then some (version, false, fp)
  else
    let (entryLen, fp) ← nextLe32 fp
    if regVersion.strlen ≠ entryLen.toNat then none
    let (buf, fp) ← nextEntry entryLen.toNat fp
    if CString.ofBuffer buf ≠ regVersion then none
    if version < 5 then some (version, false, fp)
    else
      let (entryLen, fp) ← nextLe32 fp
      if regArch.strlen ≠ entryLen.toNat then
        -- another architecture; the result of this `next_entry` is not looked at
        some (version, false, ((nextEntry entryLen.toNat fp).map Prod.snd).getD fp)
      else
        let (buf, fp) ← nextEntry entryLen.toNat fp
        some (version, CString.ofBuffer buf == regArch, fp)

/-- A stem of a compiled file. -/
def nextStem (fp : List (BitVec 8)) : Option ((CString × Nat) × List (BitVec 8)) := do
  let (stemLen, fp) ← nextLe32 fp
  if stemLen = 0 ∨ stemLen.toNat = 2 ^ 32 - 1 then none
  let (buf, fp) ← nextEntry (stemLen.toNat + 1) fp
  if buf.getLast? ≠ some 0 then none
  some ((.ofBuffer buf, stemLen.toNat), fp)

/-- The stems seen so far, and for each stem of the file its number among them. -/
structure StemMap (ρ : Type) where
  data : SavedData ρ
  map : List (Fin data.stemArr.length)

theorem length_le_internStem (d : SavedData ρ) (buf : CString) (stemLen : Nat) :
    d.stemArr.length ≤ (d.internStem buf stemLen).1.stemArr.length := by
  rw [SavedData.internStem]
  split
  · exact Nat.le_refl _
  · exact Nat.le_of_lt (length_lt_storeStem d _)

def StemMap.add (m : StemMap ρ) (buf : CString) (stemLen : Nat) : StemMap ρ :=
  let found := m.data.internStem buf stemLen
  ⟨found.1, m.map.map (Fin.castLE (length_le_internStem m.data buf stemLen)) ++ [found.2]⟩

/-- The loop over the stems; stems that were stored stay when it breaks off. -/
def loadStems : Nat → StemMap ρ → List (BitVec 8) → StemMap ρ × Option (List (BitVec 8))
  | 0, m, fp => (m, some fp)
  | n + 1, m, fp =>
    match nextStem fp with
    | none => (m, none)
    | some ((buf, stemLen), fp) => loadStems n (m.add buf stemLen) fp

def regexLoadMmap (doLoadPrecompregex : Bool) (fp : List (BitVec 8)) :
    Option (Option ρ × List (BitVec 8)) := do
  let (entryLen, fp) ← nextLe32 fp
  let regex ← if entryLen ≠ 0 ∧ doLoadPrecompregex then (lib.regexDecode fp).map some else some none
  let (_, fp) ← nextEntry entryLen.toNat fp
  some (regex, fp)

/-- What a record does to the slot: it breaks off, its context is rejected, or it is complete and
comes with the number of its stem. -/
inductive RecordResult (ρ : Type) where
  | broken (slot : Spec ρ)
  | rejected (slot : Spec ρ)
  | complete (spec : Spec ρ) (stemId : BitVec 32) (fp : List (BitVec 8))

/-- The part of a record behind its meta characters. -/
def readRegex (slot : Spec ρ) (stemId : BitVec 32) (fp : List (BitVec 8)) : RecordResult ρ :=
  match regexLoadMmap lib archMatches fp with
  | none => .broken { slot with regex := none }
  | some (regex, fp) => .complete { slot with regex := regex <|> slot.regex } stemId fp

/-- The part of a record behind its context. -/
def readFields (slot : Spec ρ) (fp : List (BitVec 8)) : RecordResult ρ :=
  match nextCString fp with
  | none => .broken slot
  | some (regexStr, fp) =>
    let slot := { slot with regexStr := regexStr }
    match nextLe32 fp with
    | none => .broken slot
    | some (mode, fp) =>
      let slot := { slot with mode := mode }
      match nextLe32 fp with
      | none => .broken slot
      | some (stemId, fp) =>
        match nextLe32 fp with
        | none => .broken slot
        | some (metaChars, fp) =>
          -- `hasMetaChars` is a `char`
          let slot := { slot with hasMetaChars := metaChars.setWidth 8 != 0 }
          if version < 4 then readRegex lib archMatches slot stemId fp
          else
            match nextLe32 fp with
            | none => .broken slot
            | some (prefixLen, fp) =>
              readRegex lib archMatches { slot with prefixLen := prefixLen.toNat } stemId fp

/-- The body of the loop over the specifications of a compiled file. -/
def readRecord (slot : Spec ρ) (fp : List (BitVec 8)) : RecordResult ρ :=
  match nextCString fp with
  | none => .broken slot
  | some (ctxRaw, fp) =>
    let slot := { slot with ctxRaw := ctxRaw }
    if ctxRaw ≠ noneContext ∧ lib.validating then
      match selabelValidate lib slot with
      | none => .rejected slot
      | some slot => readFields lib version archMatches slot fp
    else readFields lib version archMatches slot fp

/-- A `stem_id` outside the stems of the file means no stem. -/
def mapStem {n : Nat} (map : List (Fin n)) (stemId : BitVec 32) : Option (Fin n) :=
  if stemId.toInt < 0 then none else map[stemId.toNat]?

/-- The loop over the specifications. A rejected context ends it with the `rc` of the last
`next_entry`, which is 0. -/
def loadSpecs :
    Nat → (h : Handle ρ) → List (Fin h.data.stemArr.length) → List (BitVec 8) → Handle ρ × Bool
  | 0, h, _, _ => (h, true)
  | n + 1, h, map, fp =>
    match readRecord lib version archMatches h.slot fp with
    | .broken slot => ({ h with slot := slot }, false)
    | .rejected slot => ({ h with slot := slot }, true)
    | .complete spec stemId fp =>
      loadSpecs n (h.store spec (mapStem map stemId)) map fp

def loadMmap (fp : List (BitVec 8)) : Handle ρ × Bool :=
  match compiledHeader lib fp with
  | none => (h, false)
  | some (version, archMatches, fp) =>
    match nextLe32 fp with
    | none => (h, false)
    | some (stemMapLen, fp) =>
      match loadStems stemMapLen.toNat ⟨h.data, []⟩ fp with
      | (m, none) => ({ h with data := m.data }, false)
      | (m, some fp) =>
        let h : Handle ρ := { h with data := m.data }
        match nextLe32 fp with
        | none => (h, false)
        | some (regexArrayLen, fp) =>
          if regexArrayLen = 0 then (h, false)
          else loadSpecs lib version archMatches regexArrayLen.toNat h m.map fp

/-! ## Candidate files -/

structure File where
  bytes : List (BitVec 8)
  mtime : Int
  /-- Whether `fopen` succeeds. -/
  readable : Bool
  deriving DecidableEq

/-- The files with the given name and with the further suffix `bin`, as far as they exist. -/
structure Candidates where
  plain : Option File
  bin : Option File

/-- `open_file`: the newer file, or the older one if `openOldest` is set. -/
def openFile (c : Candidates) (openOldest : Bool) : Option File :=
  let found :=
    match c.plain, c.bin with
    | none, bin => bin
    | some plain, none => some plain
    | some plain, some bin =>
      if openOldest ^^ decide (plain.mtime ≤ bin.mtime) then some bin else some plain
  found.filter (·.readable)

def fcontextIsBinary (f : File) : Bool :=
  match nextLe32 f.bytes with
  | none => false
  | some (magic, _) => magic == compiledFcontextMagic

def digestFilesMax : Nat := 8

def digestAddSpecfile : Handle ρ × Bool :=
  match h.digest with
  | none => (h, true)
  | some cnt => ({ h with digest := some (cnt + 1) }, decide (cnt + 1 ≤ digestFilesMax))

def loadFile (f : File) : Handle ρ × Bool :=
  if fcontextIsBinary f then loadMmap lib h f.bytes
  else processTextFile lib pfx h (textLines f.bytes)

/-- One pass of the loop of `process_file`. -/
def tryFile (f : File) : Handle ρ × Bool :=
  let loaded := loadFile lib pfx h f
  if loaded.2 then digestAddSpecfile loaded.1 else loaded

/-- `process_file`, with the file that was loaded in the end; `none` is the return value -1. -/
def processFile (c : Candidates) (h : Handle ρ) : Handle ρ × Option File :=
  match openFile c false with
  | none => (h, none)
  | some newest =>
    let first := tryFile lib pfx h newest
    if first.2 then (first.1, some newest)
    else
      match openFile c true with
      | none => (first.1, none)
      | some oldest =>
        let second := tryFile lib pfx first.1 oldest
        (second.1, if second.2 then some oldest else none)

end

end SELinux.Label
