import SELinux.Lib.CString
import SELinux.Sepol.Constraint
import SELinux.Sepol.PutEntry
import SELinux.Sepol.Sidtab

/-! The labels of filesystems without labels of their own: how they are read (`genfs_read` in
`policydb.c`) and found (`sepol_genfs_sid` in `services.c`). The entries of a filesystem are kept
with the longer paths first, so that the first entry that matches is the one with the longest
path. -/
namespace SELinux.Sepol

open List Option
open Lib (CString)

/-! ## Reading contexts -/

def policydbVersionMls : Nat := 19
def modPolicydbVersionMls : Nat := 5

section

variable (p : FullPolicydb) (fp : PolicyFile)

/-- `mls_read_range_helper`. With no item, the low sensitivity is the count, which is still in the
buffer. -/
def mlsReadRangeHelper : Option (MlsRange × PolicyFile) := do
  let (items, fp) ← nextLe32 fp
  if 2 < items.toNat then none
  else
    let (sens, fp) ← nextLe32s items.toNat fp
    let (cat, fp) ← ebitmapRead fp
    let low : MlsLevel := { sens := (sens.headD items).toNat, cat }
    if 1 < items.toNat then
      let (cat, fp) ← ebitmapRead fp
      some ({ low, high := { sens := (sens.getD 1 0).toNat, cat } }, fp)
    else some ({ low, high := low }, fp)

def contextReadAndValidate : Option (Context × PolicyFile) := do
  let (user, fp) ← nextLe32 fp
  let (role, fp) ← nextLe32 fp
  let (type, fp) ← nextLe32 fp
  let (range, fp) ←
    if (p.policyType = .kern ∧ policydbVersionMls ≤ p.policyvers) ∨
        (p.policyType = .base ∧ modPolicydbVersionMls ≤ p.policyvers) then mlsReadRangeHelper fp
    else some ({}, fp)
  let c : Context := { user := user.toNat, role := role.toNat, type := type.toNat, range }
  if contextIsValid p c then some (c, fp) else none

/-! ## Reading genfs records -/

/-- An `ocontext_t` of a `genfs_t`. `sid` is `sid[0]`, which is `0` until the SID is asked for. -/
structure GenfsEntry where
  name : CString
  sclass : BitVec 32
  context : Context
  sid : Nat := 0
  deriving DecidableEq

/-- The list of `genfs_t`: the filesystem types, with the entries of each. -/
abbrev Genfs := List (CString × List GenfsEntry)

/-- A string with its length in front. The length is a `size_t`, so that it is never saturated. -/
def nextString : Option (CString × PolicyFile) := do
  let (len, fp) ← nextLe32 fp
  if len = 0 ∨ fp.length < len.toNat then none
  else some (.ofBuffer (fp.take len.toNat), fp.drop len.toNat)

def nextGenfsEntry : Option (GenfsEntry × PolicyFile) := do
  let (name, fp) ← nextString fp
  let (sclass, fp) ← nextLe32 fp
  let (context, fp) ← contextReadAndValidate p fp
  some ({ name, sclass, context }, fp)

/-- The entries clash: the same path, for the same class or for all. -/
def GenfsEntry.dup (newc c : GenfsEntry) : Bool :=
  newc.name == c.name && (c.sclass == 0 || newc.sclass == 0 || newc.sclass == c.sclass)

/-- The innermost loop of `genfs_read`: a new entry goes in front of the first one that has a
shorter path. -/
def genfsInsert (newc : GenfsEntry) : List GenfsEntry → Option (List GenfsEntry)
  | [] => some [newc]
  | c :: head =>
    if newc.dup c then none
    else if c.name.strlen < newc.name.strlen then some (newc :: c :: head)
    else (genfsInsert newc head).map (c :: ·)

/-- The loop over the entries of one filesystem type. -/
def genfsReadEntries : Nat → List GenfsEntry → PolicyFile → Option (List GenfsEntry × PolicyFile)
  | 0, head, fp => some (head, fp)
  | nel2 + 1, head, fp => do
    let (newc, fp) ← nextGenfsEntry p fp
    let head ← genfsInsert newc head
    genfsReadEntries nel2 head fp

/-- The loop over the filesystem types, which are kept in the order of `strcmp`. A type goes into
the list before its entries are read; nothing is left of the list if they cannot be. -/
def genfsReadTypes : Nat → Genfs → PolicyFile → Option (Genfs × PolicyFile)
  | 0, genfs, fp => some (genfs, fp)
  | nel + 1, genfs, fp => do
    let (fstype, fp) ← nextString fp
    let (nel2, fp) ← nextLe32 fp
    let (head, fp) ← genfsReadEntries p nel2.toNat [] fp
    let genfs ← Lib.chainInsert fstype head genfs
    genfsReadTypes nel genfs fp

/-- `genfs_read`, into a policy without such labels. -/
def genfsRead : Option (Genfs × PolicyFile) := do
  let (nel, fp) ← nextLe32 fp
  genfsReadTypes p nel.toNat [] fp

/-! ## Lookup -/

/-- `sepol_security_class_t` has 16 bits. -/
def GenfsEntry.covers (c : GenfsEntry) (path : CString) (sclass : BitVec 16) : Bool :=
  (c.sclass == 0 || sclass.setWidth 32 == c.sclass) && c.name.eqUpTo c.name.strlen path

/-- What is active: the labels with the SIDs that are known, and the SID table. -/
structure GenfsState where
  genfs : Genfs
  sidtab : Sidtab

/-- The errors of `sepol_genfs_sid`; with `enoent`, the SID is set to the unlabeled one. -/
inductive GenfsError where
  | enoent
  | sidtab (fault : SidFault)
  deriving DecidableEq

/-- The loops of `sepol_genfs_sid`: the filesystem type, and the first of its entries that
applies. -/
def Genfs.find (genfs : Genfs) (fstype path : CString) (sclass : BitVec 16) : Option GenfsEntry :=
  (Lib.chainFind fstype genfs).bind fun head => head.find? (·.covers path sclass)

/-- `c->sid[0] = sid`, for the first entry that applies. -/
def setSid (path : CString) (sclass : BitVec 16) (sid : Nat) : List GenfsEntry → List GenfsEntry
  | [] => []
  | c :: head =>
    if c.covers path sclass then { c with sid } :: head else c :: setSid path sclass sid head

def sepolGenfsSid (fail : SidAlloc → Bool) (s : GenfsState) (fstype path : CString)
    (sclass : BitVec 16) : Except GenfsError Nat × GenfsState :=
  match s.genfs.find fstype path sclass with
  | none => (.error .enoent, s)
  | some c =>
    if c.sid ≠ 0 then (.ok c.sid, s)
    else
      match sepolSidtabContextToSid fail s.sidtab c.context with
      | .error fault => (.error (.sidtab fault), s)
      | .ok (sid, sidtab) =>
        let genfs := s.genfs.map fun g =>
          if g.1 = fstype then (g.1, setSid path sclass sid g.2) else g
        (.ok sid, { genfs, sidtab })

/-! ## Records

The reader inserts what it reads as it goes. What the file says, in its own order: -/

/-- So many things, one after another. -/
def nextList {α : Type} (next : PolicyFile → Option (α × PolicyFile)) :
    Nat → PolicyFile → Option (List α × PolicyFile)
  | 0, fp => some ([], fp)
  | n + 1, fp => do
    let (a, fp) ← next fp
    let (l, fp) ← nextList next n fp
    some (a :: l, fp)

/-- A filesystem type with its entries. -/
def nextGenfsRecord : Option ((CString × List GenfsEntry) × PolicyFile) := do
  let (fstype, fp) ← nextString fp
  let (nel2, fp) ← nextLe32 fp
  let (entries, fp) ← nextList (nextGenfsEntry p) nel2.toNat fp
  some ((fstype, entries), fp)

def nextGenfsRecords : Option (List (CString × List GenfsEntry) × PolicyFile) := do
  let (nel, fp) ← nextLe32 fp
  nextList (nextGenfsRecord p) nel.toNat fp

end

/-! ## Order of the entries -/

/-- The entries of a filesystem type, in the list: the longer paths first, and none twice. -/
def Ordered (head : List GenfsEntry) : Prop :=
  head.Pairwise fun a b => b.name.strlen ≤ a.name.strlen ∧ a.dup b = false

theorem GenfsEntry.dup_comm (a b : GenfsEntry) : a.dup b = b.dup a := by
  rw [GenfsEntry.dup, GenfsEntry.dup, Bool.eq_iff_iff]
  simp only [Bool.and_eq_true, Bool.or_eq_true, beq_iff_eq]
  rw [eq_comm (a := a.name), eq_comm (a := a.sclass) (b := b.sclass), or_comm (a := b.sclass = 0)]

variable {a b : GenfsEntry} {head head' : List GenfsEntry} {fp fp' : PolicyFile}

theorem GenfsEntry.dup_of_strlen (h : a.name.strlen ≠ b.name.strlen) : a.dup b = false := by
  rw [GenfsEntry.dup, beq_eq_false_iff_ne.mpr fun heq => h (congrArg CString.strlen heq),
    Bool.false_and]

/-- An insertion keeps the order, and changes nothing else. -/
theorem genfsInsert_spec {newc} (h : genfsInsert newc head = some head') (hordered : Ordered head) :
    Ordered head' ∧ head'.Perm (newc :: head) := by
  induction head generalizing head' with
  | nil =>
    cases h
    exact ⟨pairwise_singleton _ _, .refl _⟩
  | cons c head ih =>
    obtain ⟨hhead, htail⟩ := pairwise_cons.mp hordered
    rw [genfsInsert] at h
    split_ifs at h with hdup hlt
    · cases h
      refine ⟨pairwise_cons.mpr ⟨fun e he => ?_, hordered⟩, .refl _⟩
      have hle : e.name.strlen ≤ c.name.strlen := by
        rcases mem_cons.mp he with rfl | he
        · exact Nat.le_refl _
        · exact (hhead e he).1
      exact ⟨by omega, GenfsEntry.dup_of_strlen (by omega)⟩
    · obtain ⟨l, hl, rfl⟩ := map_eq_some_iff.mp h
      obtain ⟨hl, hperm⟩ := ih hl htail
      refine ⟨pairwise_cons.mpr ⟨fun e he => ?_, hl⟩, (hperm.cons c).trans (.swap _ _ _)⟩
      rcases mem_cons.mp (hperm.subset he) with rfl | he
      · exact ⟨Nat.not_lt.mp hlt, by rwa [GenfsEntry.dup_comm, Bool.not_eq_true] at hdup⟩
      · exact hhead e he

theorem genfsReadEntries_spec {p n} {fp fp'}
    (h : genfsReadEntries p n head fp = some (head', fp')) (hordered : Ordered head) :
    Ordered head' ∧ ∃ entries, nextList (nextGenfsEntry p) n fp = some (entries, fp') ∧
      head'.Perm (entries ++ head) := by
  induction n generalizing head fp with
  | zero =>
    cases h
    exact ⟨hordered, [], rfl, .refl _⟩
  | succ n ih =>
    rw [genfsReadEntries, bind_eq_bind, bind_eq_some_iff] at h
    obtain ⟨⟨newc, fp1⟩, hnext, h⟩ := h
    obtain ⟨head1, hinsert, h⟩ := bind_eq_some_iff.mp h
    obtain ⟨hordered1, hperm1⟩ := genfsInsert_spec hinsert hordered
    obtain ⟨hordered', entries, hentries, hperm⟩ := ih h hordered1
    refine ⟨hordered', newc :: entries, ?_, ?_⟩
    · simp [nextList, hnext, hentries]
    · exact hperm.trans ((hperm1.append_left entries).trans perm_middle)

/-! ## The list as read -/

/-- The list has the records, each with its entries in order. -/
structure GenfsOf (records : List (CString × List GenfsEntry)) (genfs : Genfs) : Prop where
  ascending : Lib.Ascending genfs
  ordered : ∀ g ∈ genfs, Ordered g.2
  known : ∀ g ∈ genfs, ∃ entries, (g.1, entries) ∈ records ∧ g.2.Perm entries
  kept : ∀ r ∈ records, ∃ head, (r.1, head) ∈ genfs ∧ head.Perm r.2

theorem GenfsOf.insert {records genfs genfs'} (h : GenfsOf records genfs) {fstype}
    {entries : List GenfsEntry} (hordered : Ordered head) (hperm : head.Perm entries)
    (hinsert : Lib.chainInsert fstype head genfs = some genfs') :
    GenfsOf (records ++ [(fstype, entries)]) genfs' := by
  refine ⟨h.ascending.insert hinsert, fun g hg => ?_, fun g hg => ?_, fun r hr => ?_⟩
  · rcases (Lib.mem_chainInsert hinsert).mp hg with rfl | hg
    · exact hordered
    · exact h.ordered g hg
  · rcases (Lib.mem_chainInsert hinsert).mp hg with rfl | hg
    · exact ⟨entries, by simp, hperm⟩
    · obtain ⟨entries, hmem, hperm⟩ := h.known g hg
      exact ⟨entries, by simp [hmem], hperm⟩
  · rcases mem_append.mp hr with hr | hr
    · obtain ⟨head, hmem, hperm⟩ := h.kept r hr
      exact ⟨head, (Lib.mem_chainInsert hinsert).mpr (.inr hmem), hperm⟩
    · rw [mem_singleton.mp hr]
      exact ⟨head, (Lib.mem_chainInsert hinsert).mpr (.inl rfl), hperm⟩

theorem genfsReadTypes_spec {p n genfs genfs' fp fp'}
    (h : genfsReadTypes p n genfs fp = some (genfs', fp')) {seen} (hof : GenfsOf seen genfs) :
    ∃ records, nextList (nextGenfsRecord p) n fp = some (records, fp') ∧
      GenfsOf (seen ++ records) genfs' := by
  induction n generalizing genfs fp seen with
  | zero =>
    cases h
    exact ⟨[], rfl, by rwa [append_nil]⟩
  | succ n ih =>
    rw [genfsReadTypes, bind_eq_bind, bind_eq_some_iff] at h
    obtain ⟨⟨fstype, fp1⟩, hname, h⟩ := h
    obtain ⟨⟨nel2, fp2⟩, hnel2, h⟩ := bind_eq_some_iff.mp h
    obtain ⟨⟨head, fp3⟩, hhead, h⟩ := bind_eq_some_iff.mp h
    obtain ⟨genfs1, hinsert, h⟩ := bind_eq_some_iff.mp h
    obtain ⟨hordered, entries, hentries, hperm⟩ := genfsReadEntries_spec hhead .nil
    rw [append_nil] at hperm
    obtain ⟨records, hrecords, hof'⟩ := ih h (hof.insert hordered hperm hinsert)
    refine ⟨(fstype, entries) :: records, ?_, by rwa [append_cons]⟩
    simp [nextGenfsRecord, hname, hnel2, hentries, nextList, hrecords]

theorem genfsRead_spec {p fp fp' genfs} (h : genfsRead p fp = some (genfs, fp')) :
    ∃ records, nextGenfsRecords p fp = some (records, fp') ∧ GenfsOf records genfs := by
  rw [genfsRead, bind_eq_bind, bind_eq_some_iff] at h
  obtain ⟨⟨nel, fp1⟩, hnel, h⟩ := h
  have hempty : GenfsOf [] [] := ⟨.nil, by simp, by simp, by simp⟩
  obtain ⟨records, hrecords, hof⟩ := genfsReadTypes_spec h hempty
  refine ⟨records, ?_, hof⟩
  simp [nextGenfsRecords, hnel, hrecords]

/-! ## What is found -/

/-- The entry is for the path, and for the class or for all. -/
def GenfsEntry.Covers (c : GenfsEntry) (path : CString) (sclass : BitVec 16) : Prop :=
  (c.sclass = 0 ∨ sclass.setWidth 32 = c.sclass) ∧ c.name.bytes <+: path.bytes

variable {c : GenfsEntry}

theorem GenfsEntry.covers_iff {path sclass} :
    c.covers path sclass = true ↔ c.Covers path sclass := by
  rw [GenfsEntry.covers, Bool.and_eq_true, Bool.or_eq_true, beq_iff_eq, beq_iff_eq,
    CString.eqUpTo_strlen,
    GenfsEntry.Covers]

/-- Of two entries for a path that are of one length, one would have been refused. -/
theorem GenfsEntry.Covers.dup {path sclass} (ha : a.Covers path sclass)
    (hb : b.Covers path sclass) (hlen : a.name.strlen = b.name.strlen) : a.dup b = true := by
  have hbytes : a.name.bytes = b.name.bytes :=
    (prefix_of_prefix_length_le ha.2 hb.2 hlen.le).eq_of_length hlen
  have hname : a.name = b.name := by
    rcases a with ⟨⟨_, _⟩⟩
    rcases b with ⟨⟨_, _⟩⟩
    cases hbytes
    rfl
  rw [GenfsEntry.dup, hname, beq_self_eq_true, Bool.true_and]
  simp only [Bool.or_eq_true, beq_iff_eq]
  rcases ha.1 with ha | ha
  · exact .inl (.inr ha)
  · rcases hb.1 with hb | hb
    · exact .inl (.inl hb)
    · exact .inr (ha.symm.trans hb)

/-- The entry covers the path, and each other entry that does is shorter. -/
def IsLongest (entries : List GenfsEntry) (path : CString) (sclass : BitVec 16) (c : GenfsEntry) :
    Prop :=
  c.Covers path sclass ∧ ∃ others, entries.Perm (c :: others) ∧
    ∀ e ∈ others, e.Covers path sclass → e.name.strlen < c.name.strlen

/-- The first entry that covers the path is the longest. -/
theorem Ordered.find?_isLongest (hordered : Ordered head) {path sclass c}
    (h : head.find? (·.covers path sclass) = some c) : IsLongest head path sclass c := by
  obtain ⟨hc, before, after, rfl, hbefore⟩ := find?_eq_some_iff_append.mp h
  rw [GenfsEntry.covers_iff] at hc
  refine ⟨hc, before ++ after, perm_middle, fun e he hcovers => ?_⟩
  rcases mem_append.mp he with he | he
  · have := hbefore e he
    rw [GenfsEntry.covers_iff.mpr hcovers] at this
    cases this
  · have hlater := (pairwise_cons.mp (pairwise_append.mp hordered).2.1).1 e he
    refine Nat.lt_of_le_of_ne hlater.1 fun hlen => ?_
    have hdup := hc.dup hcovers hlen.symm
    rw [hlater.2] at hdup
    cases hdup

section Find

variable {records : List (CString × List GenfsEntry)} {genfs : Genfs} {fstype path : CString}
    {sclass : BitVec 16}

theorem GenfsOf.find_some (h : GenfsOf records genfs) {c}
    (hfind : genfs.find fstype path sclass = some c) :
    ∃ entries, (fstype, entries) ∈ records ∧ IsLongest entries path sclass c := by
  obtain ⟨head, hhead, hc⟩ := bind_eq_some_iff.mp hfind
  rw [Lib.chainFind_eq_some h.ascending] at hhead
  obtain ⟨entries, hentries, hperm⟩ := h.known _ hhead
  obtain ⟨hcovers, others, hothers, hshorter⟩ := (h.ordered _ hhead).find?_isLongest hc
  exact ⟨entries, hentries, hcovers, others, hperm.symm.trans hothers, hshorter⟩

theorem GenfsOf.find_none_iff (h : GenfsOf records genfs) : genfs.find fstype path sclass = none ↔
      ∀ entries, (fstype, entries) ∈ records → ∀ c ∈ entries, ¬c.Covers path sclass := by
  constructor
  · intro hfind entries hentries c hc hcovers
    obtain ⟨head, hhead, hperm⟩ := h.kept _ hentries
    rw [Genfs.find, (Lib.chainFind_eq_some h.ascending).mpr hhead, bind_some,
      find?_eq_none] at hfind
    exact hfind c (hperm.symm.subset hc) (GenfsEntry.covers_iff.mpr hcovers)
  · intro hno
    cases hfind : genfs.find fstype path sclass with
    | none => rfl
    | some c =>
      obtain ⟨entries, hentries, hcovers, others, hothers, -⟩ := h.find_some hfind
      exact absurd hcovers (hno entries hentries c (hothers.symm.subset mem_cons_self))

end Find

/-! ## SIDs that are known -/

/-- An entry as it was read. -/
def GenfsEntry.bare (c : GenfsEntry) : GenfsEntry := { c with sid := 0 }

theorem GenfsEntry.bare_of_sid (h : c.sid = 0) : c.bare = c := by
  rw [GenfsEntry.bare, ← h]

theorem nextList_forall {α : Type} {next : PolicyFile → Option (α × PolicyFile)} {P : α → Prop}
    (hnext : ∀ fp a fp', next fp = some (a, fp') → P a) {n : Nat} {l : List α}
    (h : nextList next n fp = some (l, fp')) : ∀ a ∈ l, P a := by
  induction n generalizing fp l with
  | zero =>
    cases h
    simp
  | succ n ih =>
    rw [nextList, bind_eq_bind, bind_eq_some_iff] at h
    obtain ⟨⟨a, fp1⟩, ha, h⟩ := h
    obtain ⟨⟨l, fp2⟩, hl, h⟩ := bind_eq_some_iff.mp h
    cases h
    exact forall_mem_cons.mpr ⟨hnext _ _ _ ha, ih hl⟩

/-- No SID is in the file. -/
theorem nextGenfsRecords_sid {p : FullPolicydb} {records : List (CString × List GenfsEntry)}
    (h : nextGenfsRecords p fp = some (records, fp')) {r : CString × List GenfsEntry}
    (hr : r ∈ records) (hc : c ∈ r.2) : c.sid = 0 := by
  rw [nextGenfsRecords, bind_eq_bind, bind_eq_some_iff] at h
  obtain ⟨⟨nel, fp1⟩, -, h⟩ := h
  refine nextList_forall (P := fun r => ∀ c ∈ r.2, c.sid = 0)
    (fun fp r fp' hrecord => ?_) h r hr c hc
  rw [nextGenfsRecord, bind_eq_bind, bind_eq_some_iff] at hrecord
  obtain ⟨⟨fstype, fp2⟩, -, hrecord⟩ := hrecord
  obtain ⟨⟨nel2, fp3⟩, -, hrecord⟩ := bind_eq_some_iff.mp hrecord
  obtain ⟨⟨entries, fp4⟩, hentries, hrecord⟩ := bind_eq_some_iff.mp hrecord
  cases hrecord
  refine nextList_forall (P := fun c => c.sid = 0) (fun fp c fp' hentry => ?_) hentries
  rw [nextGenfsEntry, bind_eq_bind, bind_eq_some_iff] at hentry
  obtain ⟨⟨name, fp₅⟩, -, hentry⟩ := hentry
  obtain ⟨⟨sclass, fp₆⟩, -, hentry⟩ := bind_eq_some_iff.mp hentry
  obtain ⟨⟨context, fp₇⟩, -, hentry⟩ := bind_eq_some_iff.mp hentry
  cases hentry
  rfl

def Genfs.bare (genfs : Genfs) : Genfs := genfs.map fun g => (g.1, g.2.map GenfsEntry.bare)

theorem Genfs.find_bare (genfs : Genfs) (fstype path : CString) (sclass : BitVec 16) :
    genfs.bare.find fstype path sclass = (genfs.find fstype path sclass).map GenfsEntry.bare := by
  rw [Genfs.find, Genfs.find, Genfs.bare, Lib.chainFind_map, bind_map, map_bind]
  congr 1
  funext head
  exact find?_map ..

theorem map_bare_setSid (path : CString) (sclass : BitVec 16) (sid : Nat) (head : List GenfsEntry) :
    (setSid path sclass sid head).map GenfsEntry.bare = head.map GenfsEntry.bare := by
  induction head with
  | nil => rfl
  | cons c head ih =>
    rw [setSid]
    split_ifs
    · rfl
    · rw [map_cons, map_cons, ih]

theorem mem_setSid {path sclass sid} {e} (h : e ∈ setSid path sclass sid head) :
    e ∈ head ∨ ∃ c, head.find? (·.covers path sclass) = some c ∧ e = { c with sid } := by
  induction head with
  | nil => cases h
  | cons c head ih =>
    rw [setSid] at h
    split_ifs at h with hcovers
    · rcases mem_cons.mp h with rfl | h
      · simp [hcovers]
      · exact .inl (mem_cons_of_mem _ h)
    · rcases mem_cons.mp h with rfl | h
      · exact .inl mem_cons_self
      · rcases ih h with h | ⟨c', hc', rfl⟩
        · exact .inl (mem_cons_of_mem _ h)
        · simp [hcovers, hc']

/-- The states that the server can be in after it read the file: SIDs are asked for, and the table
gets others. -/
inductive GenfsRun (p : FullPolicydb) (fp : PolicyFile) : GenfsState → Prop
  | load {genfs rest} (h : genfsRead p fp = some (genfs, rest)) (sidtab : Sidtab) :
    GenfsRun p fp { genfs, sidtab }
  | genfsSid {s} (run : GenfsRun p fp s) (fail : SidAlloc → Bool) (fstype path : CString)
    (sclass : BitVec 16) :
    GenfsRun p fp (sepolGenfsSid fail s fstype path sclass).2
  | contextToSid {s sid sidtab c} (run : GenfsRun p fp s) (fail : SidAlloc → Bool)
    (h : sepolSidtabContextToSid fail s.sidtab c = .ok (sid, sidtab)) :
      GenfsRun p fp { s with sidtab }
  | insert {s sid sidtab c} (run : GenfsRun p fp s) (fail : SidAlloc → Bool)
    (h : sepolSidtabInsert fail s.sidtab sid c = .ok sidtab) : GenfsRun p fp { s with sidtab }

/-- The entries are as they were read, apart from the SIDs, and these are of their contexts. -/
structure GenfsInv (records : List (CString × List GenfsEntry)) (s : GenfsState) : Prop where
  of : GenfsOf records s.genfs.bare
  sids : ∀ g ∈ s.genfs, ∀ c ∈ g.2, c.sid ≠ 0 → s.sidtab.lookup c.sid = some c.context

section Run

variable {records : List (CString × List GenfsEntry)} {s : GenfsState}

/-- A table that keeps its SIDs keeps those of the entries. -/
theorem GenfsInv.sidtab (h : GenfsInv records s) {sidtab : Sidtab}
    (hkeeps : ∀ sid c, s.sidtab.lookup sid = some c → sidtab.lookup sid = some c) :
    GenfsInv records { s with sidtab } where
  of := h.of
  sids g hg c hc hne := hkeeps _ _ (h.sids g hg c hc hne)

theorem GenfsInv.ascending (h : GenfsInv records s) : Lib.Ascending s.genfs := by
  have hbare := h.of.ascending
  rwa [Lib.Ascending, Genfs.bare, pairwise_map] at hbare

theorem GenfsInv.setSid (h : GenfsInv records s) {fstype path sclass}
    (hfind : s.genfs.find fstype path sclass = some c) {sid}
    (hsid : s.sidtab.lookup sid = some c.context) : GenfsInv records { s with
        genfs := s.genfs.map fun g =>
          if g.1 = fstype then (g.1, Sepol.setSid path sclass sid g.2) else g } where
  of := by
    have hbare : Genfs.bare (s.genfs.map fun g =>
        if g.1 = fstype then (g.1, Sepol.setSid path sclass sid g.2) else g) = s.genfs.bare := by
      rw [Genfs.bare, List.map_map, Genfs.bare]
      refine map_congr_left fun g _ => ?_
      rw [Function.comp_apply]
      split_ifs
      · rw [map_bare_setSid]
      · rfl
    exact hbare ▸ h.of
  sids g' hg' e he hne := by
    obtain ⟨g, hg, rfl⟩ := mem_map.mp hg'
    split_ifs at he with hfstype
    · rcases mem_setSid he with he | ⟨c', hc', rfl⟩
      · exact h.sids g hg e he hne
      · obtain ⟨head, hhead, hc⟩ := bind_eq_some_iff.mp hfind
        have hg2 : Lib.chainFind fstype s.genfs = some g.2 :=
          (Lib.chainFind_eq_some h.ascending).mpr (hfstype ▸ hg)
        simp_all
    · exact h.sids g hg e he hne

theorem GenfsInv.genfsSid (h : GenfsInv records s) (fail : SidAlloc → Bool) (fstype path : CString)
    (sclass : BitVec 16) : GenfsInv records (sepolGenfsSid fail s fstype path sclass).2 := by
  unfold sepolGenfsSid
  cases hfind : s.genfs.find fstype path sclass with
  | none => exact h
  | some c =>
    dsimp only
    split_ifs
    · exact h
    · cases hsid : sepolSidtabContextToSid fail s.sidtab c.context with
      | error fault => exact h
      | ok r =>
        obtain ⟨hlookup, hkeeps⟩ := sepolSidtabContextToSid_ok hsid
        exact (h.sidtab hkeeps).setSid hfind hlookup

theorem GenfsRun.inv {p fp} (run : GenfsRun p fp s) :
    ∃ records rest, nextGenfsRecords p fp = some (records, rest) ∧ GenfsInv records s := by
  induction run with
  | @load genfs rest h sidtab =>
    obtain ⟨records, hrecords, hof⟩ := genfsRead_spec h
    have hsid : ∀ g ∈ genfs, ∀ c ∈ g.2, c.sid = 0 := by
      intro g hg c hc
      obtain ⟨entries, hentries, hperm⟩ := hof.known g hg
      exact nextGenfsRecords_sid hrecords hentries (hperm.subset hc)
    have hbare : Genfs.bare genfs = genfs := by
      refine map_congr_left (fun g hg => ?_) |>.trans (map_id _)
      have hentries : g.2.map GenfsEntry.bare = g.2 :=
        (map_congr_left fun c hc => GenfsEntry.bare_of_sid (hsid g hg c hc)).trans (map_id _)
      rw [hentries, id]
    exact ⟨records, rest, hrecords, hbare.symm ▸ hof, fun g hg c hc hne =>
      absurd (hsid g hg c hc) hne⟩
  | genfsSid run fail fstype path sclass ih =>
    obtain ⟨records, rest, hrecords, hinv⟩ := ih
    exact ⟨records, rest, hrecords, hinv.genfsSid fail fstype path sclass⟩
  | contextToSid run fail h ih =>
    obtain ⟨records, rest, hrecords, hinv⟩ := ih
    exact ⟨records, rest, hrecords, hinv.sidtab (sepolSidtabContextToSid_ok h).2⟩
  | insert run fail h ih =>
    obtain ⟨records, rest, hrecords, hinv⟩ := ih
    exact ⟨records, rest, hrecords, hinv.sidtab (sepolSidtabInsert_ok h).2⟩

end Run

/-- In every state after a file was read, `sepol_genfs_sid` gives a SID of the context of the entry
with the longest path. There is no such entry exactly if the error is `ENOENT`; with any other,
the SID table has no SID for the context. -/
theorem sepolGenfsSid_longest {p : FullPolicydb} {fp : PolicyFile} {s : GenfsState}
    (run : GenfsRun p fp s) (fail : SidAlloc → Bool) (fstype path : CString) (sclass : BitVec 16) :
    ∃ records rest, nextGenfsRecords p fp = some (records, rest) ∧
      let result := sepolGenfsSid fail s fstype path sclass
      (∀ sid, result.1 = .ok sid → ∃ entries c, (fstype, entries) ∈ records ∧
        IsLongest entries path sclass c ∧
        result.2.sidtab.lookup sid = some c.context) ∧
      (result.1 = .error .enoent ↔
        ∀ entries, (fstype, entries) ∈ records → ∀ c ∈ entries, ¬c.Covers path sclass) ∧
      ∀ fault, result.1 = .error (.sidtab fault) → ∃ entries c, (fstype, entries) ∈ records ∧
        IsLongest entries path sclass c ∧
          sepolSidtabContextToSid fail s.sidtab c.context = .error fault := by
  obtain ⟨records, rest, hrecords, hinv⟩ := run.inv
  refine ⟨records, rest, hrecords, ?_⟩
  rw [← hinv.of.find_none_iff, Genfs.find_bare, map_eq_none_iff]
  unfold sepolGenfsSid
  cases hfind : s.genfs.find fstype path sclass with
  | none => simp
  | some c =>
    obtain ⟨entries, hentries, hlongest⟩ := hinv.of.find_some
      ((Genfs.find_bare ..).trans (congrArg (Option.map GenfsEntry.bare) hfind))
    obtain ⟨head, hhead, hc⟩ := bind_eq_some_iff.mp hfind
    rw [Lib.chainFind_eq_some hinv.ascending] at hhead
    dsimp only
    split_ifs with hsid
    · refine ⟨?_, by simp, by simp⟩
      rintro sid ⟨⟩
      exact ⟨entries, c.bare, hentries, hlongest,
        hinv.sids _ hhead c (mem_of_find?_eq_some hc) hsid⟩
    · cases hnew : sepolSidtabContextToSid fail s.sidtab c.context with
      | error fault =>
        refine ⟨by simp, by simp, ?_⟩
        rintro _ ⟨⟩
        exact ⟨entries, c.bare, hentries, hlongest, hnew⟩
      | ok r =>
        refine ⟨?_, by simp, by simp⟩
        rintro _ ⟨⟩
        exact ⟨entries, c.bare, hentries, hlongest, (sepolSidtabContextToSid_ok hnew).1⟩

/-! ### A file with two entries -/

def genfsPolicydb : FullPolicydb :=
  { typeValToStruct := [none, none], roleValToStruct := [none], users := { nprim := 1 } }

/-- `proc`, with entries for `/` and for `/sys`. -/
def genfsFile : PolicyFile :=
  let name (s : String) : PolicyFile := putLe32 (.ofNat 32 s.length) ++ (CString.ofString s).bytes
  let context (type : BitVec 32) : PolicyFile := putLe32s [1, 1, type, 1, 1, 64, 0, 0]
  putLe32 1 ++ name "proc" ++ putLe32 2 ++ name "/" ++ putLe32 0 ++ context 1 ++ name "/sys" ++
    putLe32 0 ++ context 2

def genfsLoaded (sidtab : Sidtab) : GenfsState where
  genfs := ((genfsRead genfsPolicydb genfsFile).getD ([], [])).1
  sidtab

theorem genfsRun_loaded (sidtab : Sidtab) : GenfsRun genfsPolicydb genfsFile (genfsLoaded sidtab) :=
  .load (show genfsRead genfsPolicydb genfsFile = some (_, []) from rfl) sidtab

theorem sepolGenfsSid_longest_sys :
    let s := genfsLoaded (sepolSidtabInit (fun _ => false) {})
    let result := sepolGenfsSid (fun _ => false) s (.ofString "proc") (.ofString "/sys/fs") 1
    result.1 = .ok 1 ∧
      result.2.sidtab.lookup 1 =
        some { user := 1, role := 1, type := 2, range := ⟨⟨1, ∅⟩, ⟨1, ∅⟩⟩ } ∧
      ∃ records rest, nextGenfsRecords genfsPolicydb genfsFile = some (records, rest) ∧
        ∃ entries c, (.ofString "proc", entries) ∈ records ∧
          IsLongest entries (.ofString "/sys/fs") 1 c ∧
          result.2.sidtab.lookup 1 = some c.context := by
  intro s result
  have hok : result.1 = .ok 1 := by rfl
  obtain ⟨records, rest, hrecords, hlongest, -⟩ :=
    sepolGenfsSid_longest (genfsRun_loaded (sepolSidtabInit (fun _ => false) {})) (fun _ => false)
      (.ofString "proc") (.ofString "/sys/fs") 1
  exact ⟨hok, by rfl, records, rest, hrecords, hlongest 1 hok⟩

/-- A table that is shut down has no SID for the entry that is found. -/
theorem sepolGenfsSid_shutdown :
    let s := genfsLoaded (sepolSidtabShutdown (sepolSidtabInit (fun _ => false) {}))
    GenfsRun genfsPolicydb genfsFile s ∧
      (s.genfs.find (.ofString "proc") (.ofString "/sys/fs") 1).map GenfsEntry.name =
        some (.ofString "/sys") ∧
      (sepolGenfsSid (fun _ => false) s (.ofString "proc") (.ofString "/sys/fs") 1).1 =
        .error (.sidtab .enomem) :=
  ⟨genfsRun_loaded _, by rfl, by rfl⟩

end SELinux.Sepol
