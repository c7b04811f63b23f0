import SELinux.Label.FileReading
import SELinux.Label.StemTable

/-!
# Compiled files

`write_binary_file` of `sefcontext_compile.c` writes the stems and the specifications that
`process_line` has collected. `load_mmap` is a different program that has only the layout in common
with it, and it looks the stems up among those that the handle has already; what is appended are
the specifications as they were.
-/

namespace SELinux.Label

open List Option
open Lib (CString)
open Sepol (nextLe32 putLe32)

variable {ρ : Type}

/-! ## Writing -/

/-- What the compiler takes from the regular-expression library. -/
structure Compiler (ρ : Type) where
  regexVersion : Option CString
  regexArchString : Option CString
  /-- `pcre2_serialize_encode`. -/
  regexEncode : ρ → Option (List (BitVec 8))

/-- `fwrite` of a `uint32_t`. -/
def putWord (n : Nat) : List (BitVec 8) := putLe32 (.ofNat 32 n)

/-- A number of bytes in a `uint32_t`, and as many bytes. -/
def putCounted (text : List (BitVec 8)) : List (BitVec 8) :=
  putWord text.length ++ text.take (text.length % 2 ^ 32)

/-- A string with its zero byte. -/
def putCString (s : CString) : List (BitVec 8) := putCounted (s.bytes ++ [0])

/-- The length in front of a stem does not count the zero byte. -/
def putStem (t : Stem) : List (BitVec 8) :=
  putWord t.len ++ (t.buf.bytes ++ [0]).take ((t.len + 1) % 2 ^ 32)

section

variable (c : Compiler ρ) (doWritePrecompregex : Bool)

def regexWritef (regex : Option ρ) (doWritePrecompregex : Bool) : Option (List (BitVec 8)) :=
  if doWritePrecompregex then do
    let regex ← regex
    let bytes ← c.regexEncode regex
    some (putCounted bytes)
  else some (putWord 0)

/-- `stem_id`, which is -1 if there is no stem. -/
def stemWord : Option Nat → BitVec 32
  | none => -1
  | some k => .ofNat 32 k

/-- One round of the loop over the specifications. -/
def putSpec (s : Spec ρ) : Option (List (BitVec 8)) := do
  let regex ← regexWritef c s.regex doWritePrecompregex
  some (putCString s.ctxRaw ++ putCString s.regexStr ++ putLe32 s.mode ++ putLe32
    (stemWord s.stemId) ++
    putWord s.hasMetaChars.toNat ++ putWord s.prefixLen ++ regex)

def putSpecs : List (Spec ρ) → Option (List (BitVec 8))
  | [] => some []
  | s :: specs => do
    let bytes ← putSpec c doWritePrecompregex s
    let rest ← putSpecs specs
    some (bytes ++ rest)

def writeBinaryFile (d : SavedData ρ) : Option (List (BitVec 8)) := do
  let regVersion ← c.regexVersion
  let regArch ← c.regexArchString
  let specs ← putSpecs c doWritePrecompregex d.specArr
  some (putLe32 compiledFcontextMagic ++ putWord 5 ++ putCounted regVersion.bytes ++
    putCounted regArch.bytes ++
    putWord d.stemArr.length ++ d.stemArr.flatMap putStem ++ putWord d.specArr.length ++ specs)

/-! ## What is written -/

/-- What the lines of a textual file give, in their order or sorted. -/
inductive Produced (lib : Library ρ) : SavedData ρ → Prop where
  | lines {pfx : Option CString} {digest : Option Nat} {lineBufs : List CString} {h : Handle ρ} :
    processTextFile lib pfx ⟨.empty, .blank, digest⟩ lineBufs = (h, true) → Produced lib h.data
  | sorted {d : SavedData ρ} : Produced lib d → Produced lib (sortSpecs d)

/-- Stems are not empty, and a text before the first meta character is not longer than the
pattern. -/
structure SavedData.Lengths (d : SavedData ρ) : Prop where
  len_pos : ∀ t ∈ d.stemArr, 0 < t.len
  prefixLen : ∀ s ∈ d.specArr, s.prefixLen ≤ s.regexStr.strlen

/-- The numbers fit into the types that the compiler has them in. -/
structure SavedData.Fits (d : SavedData ρ) : Prop where
  stems : d.stemArr.length < 2 ^ 31
  stemLen : ∀ t ∈ d.stemArr, t.len < 2 ^ 31
  specs : d.specArr.length < 2 ^ 32
  context : ∀ s ∈ d.specArr, s.ctxRaw.strlen < 2 ^ 31
  regexStr : ∀ s ∈ d.specArr, s.regexStr.strlen < 2 ^ 31
  encoded : ∀ s ∈ d.specArr, ∀ regex ∈ s.regex, ∀ bytes ∈ c.regexEncode regex, bytes.length < 2 ^ 32
  version : ∀ v ∈ c.regexVersion, v.strlen < 256
  arch : ∀ a ∈ c.regexArchString, a.strlen < 256

end

variable {l bytes : List (BitVec 8)} {n stemLen : Nat} {t : Stem} {h : Handle ρ} {d : SavedData ρ}
  {lib : Library ρ} {buf : CString} {m : StemMap ρ}

section Produced

theorem metaPos_le (h : metaPos l = some n) : n ≤ l.length := by
  fun_induction metaPos l generalizing n with
  | case1 => cases h
  | case2 c rest hc =>
    cases h
    exact Nat.zero_le _
  | case3 => cases h
  | case4 _ _ rest ih =>
    obtain ⟨m, hm, rfl⟩ := map_eq_some_iff.mp h
    simp [ih, hm]
  | case5 c rest _ _ ih =>
    obtain ⟨m, hm, rfl⟩ := map_eq_some_iff.mp h
    simp [ih, hm]

theorem prefixLen_withMetaChars (s : Spec ρ) :
    s.withMetaChars.prefixLen ≤ s.withMetaChars.regexStr.strlen := by
  simp only [Spec.withMetaChars]
  cases h : metaPos s.regexStr.bytes with
  | none => exact Nat.le_refl _
  | some n => exact metaPos_le h

theorem fillSpec_prefixLen (lib : Library ρ) (fields : LineFields) :
    (fillSpec lib .blank fields).1.prefixLen ≤ (fillSpec lib .blank fields).1.regexStr.strlen := by
  rw [fillSpec]
  split
  · exact Nat.zero_le _
  · split
    · exact Nat.zero_le _
    · obtain ⟨ctx, validated, heq⟩ := checkContext_eq lib _
      rw [heq]
      exact prefixLen_withMetaChars _

theorem mem_internStem {buf stemLen t}
    (ht : t ∈ (d.internStem buf stemLen).1.stemArr) : t ∈ d.stemArr ∨ t = stemOf buf stemLen := by
  rw [SavedData.internStem] at ht
  cases hfind : d.findStem buf stemLen with
  | some k => exact .inl (by simpa only [hfind] using ht)
  | none =>
    simp only [hfind, SavedData.storeStem, mem_append, mem_singleton] at ht
    exact ht

theorem mem_findStemFromSpec {buf}
    (ht : t ∈ (Label.findStemFromSpec d buf).1.stemArr) : t ∈ d.stemArr ∨ 0 < t.len := by
  rw [Label.findStemFromSpec] at ht
  by_cases hzero : getStemFromSpec buf = 0
  · simp only [if_pos hzero] at ht
    exact .inl ht
  · simp only [if_neg hzero] at ht
    refine (mem_internStem ht).imp_right ?_
    rintro rfl
    exact Nat.pos_of_ne_zero hzero

theorem processTextFile_lengths (lib : Library ρ) (pfx : Option CString) (lineBufs : List CString)
    (hslot : h.slot = .blank) (hl : h.data.Lengths) :
      (processTextFile lib pfx h lineBufs).1.data.Lengths := by
  refine (processTextFile_inv (I := fun h => h.slot = .blank ∧ h.data.Lengths)
    (fun h fields ⟨hslot, hl⟩ => ?_) lineBufs ⟨hslot, hl⟩).2
  refine ⟨rfl, fun t ht => ?_, fun s hs => ?_⟩
  · rcases mem_findStemFromSpec ht with ht | ht
    · exact hl.len_pos t ht
    · exact ht
  · rcases mem_append.mp hs with hs | hs
    · rw [specArr_findStemFromSpec] at hs
      exact hl.prefixLen s hs
    · rw [mem_singleton.mp hs, hslot]
      exact fillSpec_prefixLen lib fields

theorem Produced.lengths {lib} (hd : Produced lib d) : d.Indexed ∧ d.Lengths := by
  induction hd with
  | @lines pfx digest lineBufs h hrun =>
    have hindexed := processTextFile_indexed lib pfx ⟨.empty, .blank, digest⟩ lineBufs .empty
    have hlengths := processTextFile_lengths lib pfx (h := ⟨.empty, .blank, digest⟩) lineBufs rfl
      ⟨fun _ ht => absurd ht not_mem_nil, fun _ hs => absurd hs not_mem_nil⟩
    simp_all
  | sorted _ ih =>
    exact ⟨ih.1.sortSpecs, ih.2.len_pos, fun s hs => ih.2.prefixLen s (mem_sortedSpecs.mp hs)⟩

end Produced

/-! ## Stems of a handle -/

/-- The text of a stem ends at its length or before. -/
def SavedData.StemsEnd (d : SavedData ρ) : Prop := ∀ t ∈ d.stemArr, t.buf.strlen ≤ t.len

theorem strlen_stemOf_le (buf : CString) (stemLen : Nat) :
    (stemOf buf stemLen).buf.strlen ≤ stemLen := by
  simp [CString.strlen, bytes_stemOf]

theorem SavedData.StemsEnd.internStem (hd : d.StemsEnd) (buf : CString) (stemLen : Nat) :
    (d.internStem buf stemLen).1.StemsEnd := by
  intro t ht
  rcases mem_internStem ht with ht | rfl
  · exact hd t ht
  · exact strlen_stemOf_le buf stemLen

theorem processTextFile_stemsEnd (lib : Library ρ) (pfx : Option CString) (lineBufs : List CString)
    (hd : h.data.StemsEnd) : (processTextFile lib pfx h lineBufs).1.data.StemsEnd := by
  refine processTextFile_inv (I := fun h => h.data.StemsEnd) (fun h fields hd => ?_) lineBufs hd
  show (findStemFromSpec h.data fields.regex).1.StemsEnd
  rw [findStemFromSpec]
  split_ifs
  · exact hd
  · exact SavedData.StemsEnd.internStem hd fields.regex _

theorem loadSpecs_stemArr (lib : Library ρ) (version : BitVec 32) (archMatches : Bool) (n : Nat)
    (h : Handle ρ) (map : List (Fin h.data.stemArr.length)) (fp : List (BitVec 8)) :
    (loadSpecs lib version archMatches n h map fp).1.data.stemArr = h.data.stemArr := by
  induction n generalizing h fp with
  | zero => rfl
  | succ n ih =>
    rw [loadSpecs]
    cases readRecord lib version archMatches h.slot fp with
    | broken slot => rfl
    | rejected slot => rfl
    | complete spec stemId fp => exact ih (h.store spec (mapStem map stemId)) map fp

/-! ## Reading back -/

section ReadBack

theorem nextEntry_append (l fp : List (BitVec 8)) :
    nextEntry l.length (l ++ fp) = some (l, fp) := by
  rw [nextEntry, if_neg (by simp)]
  simp

theorem nextLe32_putWord (n : Nat) (fp : List (BitVec 8)) :
    nextLe32 (putWord n ++ fp) = some (.ofNat 32 n, fp) :=
  Sepol.nextLe32_putLe32 ..

theorem putCounted_eq (hl : l.length < 2 ^ 32) : putCounted l = putWord l.length ++ l := by
  rw [putCounted, Nat.mod_eq_of_lt hl, take_length]

theorem ofBuffer_bytes_zero (s : CString) : CString.ofBuffer (s.bytes ++ [0]) = s := by
  rw [CString.ext_iff]
  show (s.bytes ++ [0]).takeWhile (· ≠ 0) = s.bytes
  have hpos : ∀ c ∈ s.bytes, decide (c ≠ 0) = true := by
    intro c hc
    refine decide_eq_true fun h0 => s.nonzero ?_
    rwa [h0] at hc
  rw [takeWhile_append_of_pos hpos]
  simp

theorem ofBuffer_bytes (s : CString) : CString.ofBuffer s.bytes = s := by
  rw [CString.ext_iff]
  exact CString.bytes_ofBuffer s.nonzero

theorem toNat_ofNat_of_lt (hn : n < 2 ^ 32) : (BitVec.ofNat 32 n).toNat = n := by
  rw [BitVec.toNat_ofNat, Nat.mod_eq_of_lt hn]

theorem nextCString_putCString {s : CString} (hs : s.strlen < 2 ^ 31) (fp : List (BitVec 8)) :
    nextCString (putCString s ++ fp) = some (s, fp) := by
  have hlen : (s.bytes ++ [0]).length = s.strlen + 1 := by simp [CString.strlen]
  have hlt : s.strlen + 1 < 2 ^ 32 := by omega
  have hne : BitVec.ofNat 32 (s.strlen + 1) ≠ 0 := by
    intro h
    have htoNat := congrArg BitVec.toNat h
    rw [toNat_ofNat_of_lt hlt] at htoNat
    simp at htoNat
  rw [putCString, putCounted_eq (hlen ▸ hlt), append_assoc, nextCString, nextLe32_putWord, hlen]
  simp only [bind_eq_bind, bind_some, if_neg hne, toNat_ofNat_of_lt hlt]
  rw [← hlen, nextEntry_append]
  simp only [bind_some, getLast?_concat, ne_eq, not_true_eq_false, if_false, ofBuffer_bytes_zero]

theorem nextStem_putStem (hlen : t.len = t.buf.strlen) (hpos : 0 < t.len) (hlt : t.len < 2 ^ 31)
    (fp : List (BitVec 8)) : nextStem (putStem t ++ fp) = some ((t.buf, t.len), fp) := by
  have hword : (BitVec.ofNat 32 t.len).toNat = t.len := toNat_ofNat_of_lt (by omega)
  have hne : ¬ (BitVec.ofNat 32 t.len = 0 ∨ (BitVec.ofNat 32 t.len).toNat = 2 ^ 32 - 1) := by
    rw [hword]
    rintro (h | h)
    · have htoNat := congrArg BitVec.toNat h
      rw [hword] at htoNat
      simp at htoNat
      omega
    · omega
  have hbytes : (t.buf.bytes ++ [0]).length = t.len + 1 := by simp [hlen, CString.strlen]
  rw [putStem, Nat.mod_eq_of_lt (by omega), ← hbytes, take_length, append_assoc, nextStem,
    nextLe32_putWord]
  simp only [bind_eq_bind, bind_some]
  rw [if_neg hne, hword, ← hbytes, nextEntry_append]
  simp only [bind_some, getLast?_concat, ne_eq, not_true_eq_false, if_false, ofBuffer_bytes_zero]

theorem compiledHeader_put {v a : CString} (hv : lib.regexVersion = some v)
    (ha : lib.regexArchString = some a) (hvlen : v.strlen < 256) (halen : a.strlen < 256)
    (fp : List (BitVec 8)) :
    compiledHeader lib (putLe32 compiledFcontextMagic ++ (putWord 5 ++ (putCounted v.bytes ++
      (putCounted a.bytes ++ fp)))) = some (5, true, fp) := by
  have hvbytes : v.bytes.length < 2 ^ 32 := by rw [CString.strlen] at hvlen; omega
  have habytes : a.bytes.length < 2 ^ 32 := by rw [CString.strlen] at halen; omega
  have hversion : ¬ (5 : BitVec 32) < 2 ∧ ¬ (5 : BitVec 32) < 5 := by decide
  rw [putCounted_eq hvbytes, putCounted_eq habytes, append_assoc, append_assoc, compiledHeader,
    Sepol.nextLe32_putLe32]
  simp only [bind_eq_bind, bind_some, ne_eq, not_true_eq_false, if_false, nextLe32_putWord, hv, ha]
  simp [toNat_ofNat_of_lt hvbytes, CString.strlen, nextEntry_append, ofBuffer_bytes,
    toNat_ofNat_of_lt habytes, nextLe32_putWord]

/-- The size of a pattern is read whether or not the pattern itself is of use. -/
theorem regexLoadMmap_regexWritef {c : Compiler ρ}
    (hinverse : ∀ regex bytes, c.regexEncode regex = some bytes →
      ∀ fp, lib.regexDecode (bytes ++ fp) = some regex)
    {regex} (hlt : ∀ r ∈ regex, ∀ bytes ∈ c.regexEncode r, bytes.length < 2 ^ 32)
    {doWritePrecompregex}
    (hput : regexWritef c regex doWritePrecompregex = some bytes) (fp : List (BitVec 8)) :
    ∃ loaded, regexLoadMmap lib true (bytes ++ fp) = some (loaded, fp) := by
  cases doWritePrecompregex with
  | false =>
    obtain rfl : putWord 0 = bytes := by simpa [regexWritef] using hput
    simp [regexLoadMmap, nextLe32_putWord, nextEntry]
  | true =>
    cases regex with
    | none => simp [regexWritef] at hput
    | some r =>
      cases hencode : c.regexEncode r with
      | none => simp [regexWritef, hencode] at hput
      | some text =>
        have htext : text.length < 2 ^ 32 := hlt r rfl text hencode
        obtain rfl : putCounted text = bytes := by simpa [regexWritef, hencode] using hput
        rw [putCounted_eq htext, append_assoc, regexLoadMmap, nextLe32_putWord]
        simp only [bind_eq_bind, bind_some, hinverse r text hencode fp, map_some,
          toNat_ofNat_of_lt htext, nextEntry_append]
        split
        · exact ⟨some r, rfl⟩
        · exact ⟨none, rfl⟩

end ReadBack

/-! ## Loading what was written -/

/-- The text of the stem that a specification refers to, among some stems. -/
def stemText (stems : List Stem) (s : Spec ρ) : Option CString :=
  (s.stemId.bind (stems[·]?)).map Stem.buf

theorem stemText_eq (d : SavedData ρ) (s : Spec ρ) :
    stemText d.stemArr s = (d.stem s).map Stem.buf := rfl

/-- The texts of the stems of a file, as far as they have been read. -/
def StemMap.texts (m : StemMap ρ) : List CString := m.map.map fun k => (m.data.stemArr.get k).buf

section Load

theorem internStem_extends (d : SavedData ρ) (buf : CString) (stemLen : Nat) :
    d.stemArr <+: (d.internStem buf stemLen).1.stemArr := by
  rw [SavedData.internStem]
  split
  · exact prefix_rfl
  · exact prefix_append ..

theorem internStem_buf (hd : d.StemsEnd) (hlen : stemLen = buf.strlen) :
    ((d.internStem buf stemLen).1.stemArr.get (d.internStem buf stemLen).2).buf = buf := by
  generalize hfound : d.internStem buf stemLen = found
  rw [SavedData.internStem] at hfound
  have htake : buf.bytes.take stemLen = buf.bytes := by rw [hlen, CString.strlen, take_length]
  cases hfind : d.findStem buf stemLen with
  | some k =>
    rw [hfind] at hfound
    subst hfound
    obtain ⟨htest, -⟩ := findFinIdx?_eq_some_iff.mp hfind
    rw [Bool.and_eq_true, beq_iff_eq, CString.eqUpTo, beq_iff_eq, htake] at htest
    have hend := hd _ (get_mem d.stemArr k)
    rw [CString.ext_iff, htest.2]
    refine (take_of_length_le ?_).symm
    rw [htest.1]
    exact hend
  | none =>
    rw [hfind] at hfound
    subst hfound
    rw [CString.ext_iff]
    have hget : (d.storeStem (stemOf buf stemLen)).stemArr.get
        ⟨d.stemArr.length, length_lt_storeStem d _⟩ =
        stemOf buf stemLen := getElem_concat_length rfl _
    exact (congrArg (·.buf.bytes) hget).trans ((bytes_stemOf buf stemLen).trans htake)

theorem texts_add (hm : m.data.StemsEnd)
    (hlen : stemLen = buf.strlen) : (m.add buf stemLen).texts = m.texts ++ [buf] := by
  have hkept (k : Fin m.data.stemArr.length) :
      ((m.data.internStem buf stemLen).1.stemArr.get
        (k.castLE (length_le_internStem m.data buf stemLen))).buf = (m.data.stemArr.get k).buf :=
    congrArg Stem.buf ((internStem_extends m.data buf stemLen).getElem k.isLt).symm
  simp only [StemMap.texts, StemMap.add, map_append, List.map_map, map_cons, map_nil,
    internStem_buf hm hlen]
  congr 1
  exact map_congr_left fun k _ => hkept k

theorem loadStems_putStem {ts : List Stem} (hlen : ∀ t ∈ ts, t.len = t.buf.strlen)
    (hpos : ∀ t ∈ ts, 0 < t.len)
    (hlt : ∀ t ∈ ts, t.len < 2 ^ 31) (hm : m.data.StemsEnd) (fp : List (BitVec 8)) :
    ∃ m', loadStems ts.length m (ts.flatMap putStem ++ fp) = (m', some fp) ∧
      m.data.stemArr <+: m'.data.stemArr ∧ m'.data.specArr = m.data.specArr ∧
      m'.texts = m.texts ++ ts.map Stem.buf := by
  induction ts generalizing m with
  | nil => exact ⟨m, rfl, prefix_rfl, rfl, (append_nil _).symm⟩
  | cons t ts ih =>
    have hhead := hlen t mem_cons_self
    have hnext := nextStem_putStem hhead (hpos t mem_cons_self) (hlt t mem_cons_self)
      (ts.flatMap putStem ++ fp)
    have hm' : (m.add t.buf t.len).data.StemsEnd := SavedData.StemsEnd.internStem hm t.buf t.len
    obtain ⟨m', hload, hextends, hspecs, htexts⟩ := ih (fun u hu => hlen u (mem_cons_of_mem t hu))
      (fun u hu => hpos u (mem_cons_of_mem t hu)) (fun u hu => hlt u (mem_cons_of_mem t hu)) hm'
    refine ⟨m', ?_, (internStem_extends m.data t.buf t.len).trans hextends,
      hspecs.trans (specArr_internStem m.data t.buf t.len), ?_⟩
    · rw [flatMap_cons, append_assoc, length_cons, loadStems, hnext]
      exact hload
    · simp [htexts, texts_add hm hhead]

theorem mapStem_stemWord (map : List (Fin n)) {stemId : Option Nat}
    (hlt : ∀ k ∈ stemId, k < 2 ^ 31) : mapStem map (stemWord stemId) = stemId.bind (map[·]?) := by
  cases stemId with
  | none => simp [mapStem, stemWord]
  | some k =>
    have hk := hlt k rfl
    have hnat : (BitVec.ofNat 32 k).toNat = k := toNat_ofNat_of_lt (by omega)
    simp [BitVec.toInt_eq_toNat_of_lt (by rw [hnat]; omega), mapStem, stemWord, hnat]

variable {c : Compiler ρ} (hvalidating : lib.validating = false)
  (hinverse : ∀ regex bytes, c.regexEncode regex = some bytes →
    ∀ fp, lib.regexDecode (bytes ++ fp) = some regex)
include hvalidating hinverse

theorem readRecord_putSpec {s : Spec ρ} (hctx : s.ctxRaw.strlen < 2 ^ 31)
    (hregexStr : s.regexStr.strlen < 2 ^ 31) (hprefixLen : s.prefixLen ≤ s.regexStr.strlen)
    (hencoded : ∀ r ∈ s.regex, ∀ bytes ∈ c.regexEncode r, bytes.length < 2 ^ 32)
    {doWritePrecompregex : Bool} (hput : putSpec c doWritePrecompregex s = some bytes)
    (slot : Spec ρ) (fp : List (BitVec 8)) :
    ∃ spec, readRecord lib 5 true slot (bytes ++ fp) = .complete spec (stemWord s.stemId) fp ∧
      spec.entry = s.entry := by
  rw [putSpec] at hput
  cases hregex : regexWritef c s.regex doWritePrecompregex with
  | none => simp [hregex] at hput
  | some regexBytes =>
    obtain ⟨loaded, hloaded⟩ := regexLoadMmap_regexWritef hinverse hencoded hregex fp
    obtain rfl := some.inj (show some _ = some bytes by simpa [hregex] using hput)
    have hversion : ¬ (5 : BitVec 32) < 4 := by decide
    have hmeta : ((BitVec.ofNat 32 s.hasMetaChars.toNat).setWidth 8 != 0) = s.hasMetaChars := by
      cases s.hasMetaChars <;> rfl
    have hprefix : (BitVec.ofNat 32 s.prefixLen).toNat = s.prefixLen := toNat_ofNat_of_lt (by omega)
    simp only [append_assoc]
    rw [readRecord, nextCString_putCString hctx]
    simp only [hvalidating, Bool.false_eq_true, and_false, if_false]
    rw [readFields, nextCString_putCString hregexStr]
    simp only [Sepol.nextLe32_putLe32, nextLe32_putWord, if_neg hversion, hprefix, hmeta]
    rw [readRegex, hloaded]
    exact ⟨_, rfl, rfl⟩

/-- What a specification and a loaded one have in common: what a file says of them, and the text of
their stems. -/
def LoadedAs (stems stems' : List Stem) (s s' : Spec ρ) : Prop :=
  s'.entry = s.entry ∧ stemText stems' s' = stemText stems s

theorem loadSpecs_putSpecs (hlengths : d.Lengths) (hfits : d.Fits c) {doWritePrecompregex}
    {specs : List (Spec ρ)} (hspecs : ∀ s ∈ specs, s ∈ d.specArr) {bytes}
    (hput : putSpecs c doWritePrecompregex specs = some bytes)
    {map : List (Fin h.data.stemArr.length)}
    (hmap : map.map (fun k => (h.data.stemArr.get k).buf) = d.stemArr.map Stem.buf)
    (fp : List (BitVec 8)) :
    ∃ h' l, loadSpecs lib 5 true specs.length h map (bytes ++ fp) = (h', true) ∧
      h'.data.specArr = h.data.specArr ++ l ∧
        List.Forall₂ (LoadedAs d.stemArr h.data.stemArr) specs l := by
  induction specs generalizing bytes h with
  | nil => exact ⟨h, [], rfl, (append_nil _).symm, .nil⟩
  | cons s specs ih =>
    have hs := hspecs s mem_cons_self
    rw [putSpecs] at hput
    cases hhead : putSpec c doWritePrecompregex s with
    | none => simp [hhead] at hput
    | some head =>
      cases htail : putSpecs c doWritePrecompregex specs with
      | none => simp [hhead, htail] at hput
      | some tail =>
        obtain rfl : head ++ tail = bytes := by simpa [hhead, htail] using hput
        obtain ⟨spec, hread, hentry⟩ := readRecord_putSpec hvalidating hinverse (hfits.context s hs)
          (hfits.regexStr s hs) (hlengths.prefixLen s hs) (hfits.encoded s hs) hhead h.slot
            (tail ++ fp)
        have hlt : ∀ k ∈ s.stemId, k < 2 ^ 31 := fun k hk =>
          Nat.lt_trans (d.stemId_lt s hs k hk) hfits.stems
        have hstem : mapStem map (stemWord s.stemId) = s.stemId.bind (map[·]?) :=
          mapStem_stemWord map hlt
        obtain ⟨h', l, hload, hspecs', hloaded⟩ :=
          ih (fun t ht => hspecs t (mem_cons_of_mem s ht)) htail
          (h := h.store spec (mapStem map (stemWord s.stemId))) hmap
        refine ⟨h', { spec with stemId := (mapStem map (stemWord s.stemId)).map Fin.val } :: l, ?_,
          ?_,
          .cons ⟨hentry, ?_⟩ hloaded⟩
        · rw [append_assoc, length_cons, loadSpecs, hread]
          exact hload
        · rw [hspecs']
          exact append_assoc ..
        · rw [hstem]
          cases hk : s.stemId with
          | none => simp [stemText, hk]
          | some k =>
            -- the map has the texts of the file's stems in their order
            have hat := congrArg (·[k]?) hmap
            rw [stemText, stemText, hk]
            cases hget : map[k]? with
            | none => simpa [hget] using hat
            | some i => simpa [hget] using hat

end Load

/-- A file that the compiler writes is loaded as the specifications it was written from, with the
same stems, and the specifications of the handle keep theirs. -/
theorem loadMmap_writeBinaryFile {c : Compiler ρ} {compileLib lib : Library ρ} {d : SavedData ρ}
    (hd : Produced compileLib d) (hne : d.specArr ≠ []) (hfits : d.Fits c) {h : Handle ρ}
    (hstems : h.data.StemsEnd) (hvalidating : lib.validating = false)
    (hversion : lib.regexVersion = c.regexVersion) (harch : lib.regexArchString = c.regexArchString)
    (hinverse : ∀ regex bytes, c.regexEncode regex = some bytes →
      ∀ fp, lib.regexDecode (bytes ++ fp) = some regex)
    {doWritePrecompregex : Bool} {file : List (BitVec 8)}
    (hwrite : writeBinaryFile c doWritePrecompregex d = some file) :
    ∃ h' l, loadMmap lib h file = (h', true) ∧ h'.data.specArr = h.data.specArr ++ l ∧
      List.Forall₂ (fun s s' => s'.entry = s.entry ∧
        (h'.data.stem s').map Stem.buf = (d.stem s).map Stem.buf) d.specArr l ∧
      ∀ s ∈ h.data.specArr, h'.data.stem s = h.data.stem s := by
  obtain ⟨hindexed, hlengths⟩ := hd.lengths
  rw [writeBinaryFile] at hwrite
  cases hv : c.regexVersion with
  | none => simp [hv] at hwrite
  | some v =>
  cases ha : c.regexArchString with
  | none => simp [hv, ha] at hwrite
  | some a =>
  cases hput : putSpecs c doWritePrecompregex d.specArr with
  | none => simp [hv, ha, hput] at hwrite
  | some bytes =>
  obtain rfl := some.inj (show some _ = some file by simpa only [hv, ha, hput, bind_eq_bind,
    bind_some] using hwrite)
  obtain ⟨m, hload, hextends, hspecArr, htexts⟩ :=
    loadStems_putStem hindexed.len_eq hlengths.len_pos hfits.stemLen
    (m := ⟨h.data, []⟩) hstems (putWord d.specArr.length ++ bytes)
  obtain ⟨h', l, hrun, hspecs, hloaded⟩ :=
    loadSpecs_putSpecs hvalidating hinverse hlengths hfits (fun _ hs => hs)
    hput (h := { h with data := m.data }) htexts []
  have hcount : (BitVec.ofNat 32 d.specArr.length).toNat = d.specArr.length :=
    toNat_ofNat_of_lt hfits.specs
  have hcount_ne : BitVec.ofNat 32 d.specArr.length ≠ 0 := by
    intro hzero
    have htoNat := congrArg BitVec.toNat hzero
    rw [hcount] at htoNat
    simp [hne] at htoNat
  have hnum : (BitVec.ofNat 32 d.stemArr.length).toNat = d.stemArr.length :=
    toNat_ofNat_of_lt (by have := hfits.stems; omega)
  have hstemArr : h'.data.stemArr = m.data.stemArr := by
    have hkept :=
      loadSpecs_stemArr lib 5 true d.specArr.length { h with data := m.data } m.map (bytes ++ [])
    rwa [hrun] at hkept
  refine ⟨h', l, ?_, ?_, ?_, ?_⟩
  · simp only [append_assoc]
    rw [loadMmap, compiledHeader_put (hversion.trans hv) (harch.trans ha) (hfits.version v hv)
      (hfits.arch a ha)]
    simp only [nextLe32_putWord, hnum, hload, hcount_ne, if_false, hcount]
    rwa [append_nil] at hrun
  · rw [hspecs]
    exact congrArg (· ++ l) hspecArr
  · refine hloaded.imp fun s s' hss' => ⟨hss'.1, ?_⟩
    rw [← stemText_eq, ← stemText_eq, hstemArr]
    exact hss'.2
  · intro s hs
    rw [SavedData.stem, SavedData.stem, hstemArr]
    cases hk : s.stemId with
    | none => rfl
    | some k =>
      have hlt := h.data.stemId_lt s hs k hk
      obtain ⟨more, hmore⟩ := hextends
      rw [← hmore]
      exact getElem?_append_left hlt

/-! A file of three lines is loaded behind a specification with one of its stems. -/

def unitCompiler : Compiler Unit where
  regexVersion := some (.ofString "10.42")
  regexArchString := some (.ofString "8-8-8")
  regexEncode _ := some [1]

def unitLoader : Library Unit :=
  { strictLibrary with
    validating := false
    regexDecode := fun _ => some ()
    regexVersion := unitCompiler.regexVersion
    regexArchString := unitCompiler.regexArchString }

def compiledLines : Handle Unit × Bool :=
  processTextFile strictLibrary none ⟨.empty, .blank, none⟩
    [.ofString "/c/e -d u", .ofString "/a/b.* t", .ofString "/f <<none>>"]

def loadedLines : Handle Unit :=
  (processTextFile unitLoader none ⟨.empty, .blank, none⟩ [.ofString "/c/d t"]).1

theorem compiledLines_produced : Produced strictLibrary (sortSpecs compiledLines.1.data) :=
  have hrun : processTextFile strictLibrary none ⟨.empty, .blank, none⟩
      [.ofString "/c/e -d u", .ofString "/a/b.* t", .ofString "/f <<none>>"] =
        (compiledLines.1, true) :=
    Prod.ext rfl (by decide +kernel)
  .sorted (.lines hrun)

theorem compiledLines_fits : (sortSpecs compiledLines.1.data).Fits unitCompiler where
  stems := by decide +kernel
  stemLen := by decide +kernel
  specs := by decide +kernel
  context := by decide +kernel
  regexStr := by decide +kernel
  encoded := by
    intro s _ regex _ bytes hbytes
    obtain rfl := some.inj hbytes
    decide
  version := by decide +kernel
  arch := by decide +kernel

theorem loadMmap_writeBinaryFile_three : ∃ file,
    writeBinaryFile unitCompiler true (sortSpecs compiledLines.1.data) = some file ∧
    ∃ h' l, loadMmap unitLoader loadedLines file = (h', true) ∧
      h'.data.specArr = loadedLines.data.specArr ++ l ∧
      List.Forall₂ (fun s s' => s'.entry = s.entry ∧
        (h'.data.stem s').map Stem.buf = ((sortSpecs compiledLines.1.data).stem s).map Stem.buf)
        (sortSpecs compiledLines.1.data).specArr l ∧
      ∀ s ∈ loadedLines.data.specArr, h'.data.stem s = loadedLines.data.stem s := by
  have hwritten : (writeBinaryFile unitCompiler true (sortSpecs compiledLines.1.data)).isSome =
      true := by
    decide +kernel
  obtain ⟨file, hfile⟩ := isSome_iff_exists.mp hwritten
  have hstems : loadedLines.data.StemsEnd :=
    processTextFile_stemsEnd unitLoader none _ fun _ ht => absurd ht not_mem_nil
  exact ⟨file, hfile, loadMmap_writeBinaryFile compiledLines_produced
    (by decide +kernel) compiledLines_fits hstems
    rfl rfl rfl (fun _ _ _ _ => rfl) hfile⟩

end SELinux.Label
