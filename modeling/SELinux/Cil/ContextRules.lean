import SELinux.Lib.CString
import SELinux.Lib.Comparator

/-! Rules of CIL that give contexts to objects, and the functions by which `cil_post.c` compares
their keys and their contexts. -/
namespace SELinux.Cil

open BitVec
open Lib (CString keyCmp thenCmp diffCmp Orders InHalf)

/-! ## Contexts

A reference to a declaration is the name of what it was resolved to. -/

/-- `cil_level`; `cats` is `none` for a null pointer, and holds an evaluated expression
otherwise. -/
structure Level where
  sens : CString
  cats : Option (List CString)
  deriving DecidableEq

structure LevelRange where
  low : Option Level
  high : Option Level
  deriving DecidableEq

/-- `cil_context`. -/
structure Context where
  user : CString
  role : CString
  type : CString
  range : Option LevelRange
  deriving DecidableEq

/-- Pointers first: a null pointer is before all others. -/
def pointerCmp {α : Type} (cmp : α → α → Int) : Option α → Option α → Int
  | none, none => 0
  | none, some _ => -1
  | some _, none => 1
  | some a, some b => cmp a b

/-- `cats_compare`: the loops are left at the first name that the two have in common. -/
def catsCompare (a b : List CString) : Int :=
  match a.findSome? fun i => b.findSome? fun j =>
    if keyCmp id i j = 0 then some (keyCmp id i j) else none with
  | some rc => rc
  | none => 0

def levelCompare : Level → Level → Int :=
  thenCmp (keyCmp Level.sens) fun a b => pointerCmp catsCompare a.cats b.cats

def rangeCompare : LevelRange → LevelRange → Int :=
  thenCmp (fun a b => pointerCmp levelCompare a.low b.low) fun a b =>
    pointerCmp levelCompare a.high b.high

/-- `context_compare`, which reads through both pointers: `none` if one of them is null. -/
def contextCompare : Option Context → Option Context → Option Int
  | some a, some b =>
    some (thenCmp (keyCmp Context.user)
      (thenCmp (keyCmp Context.role) (thenCmp (keyCmp Context.type)
      fun a b => pointerCmp rangeCompare a.range b.range)) a b)
  | _, _ => none

/-! ## Rules -/

/-- `enum cil_filecon_types`, in the order of the values. -/
inductive FileconType where
  | any
  | file
  | dir
  | char
  | block
  | socket
  | pipe
  | symlink
  deriving DecidableEq

/-- `enum cil_protocol`. -/
inductive Protocol where
  | udp
  | tcp
  | dccp
  | sctp
  deriving DecidableEq

/-- `enum cil_fsuse_types`. -/
inductive FsuseType where
  | xattr
  | task
  | trans
  deriving DecidableEq

/-- The constants of the enumeration are those of `SECURITY_FS_USE_XATTR` and so on, by which rules
are compared: the one for transitions is before the one for tasks. -/
def FsuseType.number : FsuseType → Nat
  | xattr => 1
  | task => 3
  | trans => 2

/-- `cil_ipaddr`. An address is in network order, so that `memcmp` compares numbers. -/
inductive IpAddr where
  | v4 (ip : BitVec 32)
  | v6 (ip : BitVec 128)
  deriving DecidableEq

/-- The address families, the one that is sorted first before the other. -/
def IpAddr.family : IpAddr → Nat
  | v4 _ => 0
  | v6 _ => 1

def IpAddr.ip : IpAddr → Nat
  | v4 ip => ip.toNat
  | v6 ip => ip.toNat

/-- The context is null for `<<none>>`. -/
structure Filecon where
  path : CString
  type : FileconType
  context : Option Context

structure Ibpkeycon where
  subnetPrefix : CString
  pkeyLow : BitVec 32
  pkeyHigh : BitVec 32
  context : Context

structure Portcon where
  proto : Protocol
  portLow : BitVec 32
  portHigh : BitVec 32
  context : Context

structure Genfscon where
  fs : CString
  path : CString
  fileType : FileconType
  context : Context

structure Netifcon where
  interface : CString
  ifContext : Context
  packetContext : Context

structure Ibendportcon where
  devName : CString
  port : BitVec 32
  context : Context

/-- `cil_resolve_nodecon` has checked that the mask is for the address. -/
structure Nodecon where
  addr : IpAddr
  mask : IpAddr
  family : addr.family = mask.family
  context : Context

structure Pirqcon where
  pirq : BitVec 32
  context : Context

structure Iomemcon where
  iomemLow : BitVec 64
  iomemHigh : BitVec 64
  context : Context

structure Ioportcon where
  ioportLow : BitVec 32
  ioportHigh : BitVec 32
  context : Context

structure Pcidevicecon where
  dev : BitVec 32
  context : Context

structure Devicetreecon where
  path : CString
  context : Context

structure Fsuse where
  type : FsuseType
  fs : CString
  context : Context

/-! ## Keys -/

/-- `struct fc_data`. -/
structure FcData where
  isMeta : Bool := false
  stemLen : Nat := 0
  strLen : Nat := 0

/-- The characters `.`, `^`, `$`, `?`, `*`, `+`, `|`, `[`, `(` and the opening brace. -/
def metaChars : List (BitVec 8) := [0x2e, 0x5e, 0x24, 0x3f, 0x2a, 0x2b, 0x7c, 0x5b, 0x28, 0x7b]

def backslash : BitVec 8 := 0x5c

/-- A plain character, which belongs to the stem unless a special one came before. -/
def FcData.plain (fc : FcData) : FcData :=
  { fc with stemLen := if fc.isMeta then fc.stemLen else fc.stemLen + 1, strLen := fc.strLen + 1 }

/-- The loop of `cil_post_fc_fill_data`. A backslash makes one character of itself and the next one,
or is one at the end of the path. -/
def fcFillData (fc : FcData) : List (BitVec 8) → FcData
  | [] => fc
  | ch :: rest =>
    if ch ∈ metaChars then fcFillData { fc with isMeta := true, strLen := fc.strLen + 1 } rest
    else if ch = backslash then
      match rest with
      | [] => fc.plain
      | _ :: rest => fcFillData fc.plain rest
    else fcFillData fc.plain rest

def Filecon.data (f : Filecon) : FcData := fcFillData {} f.path.bytes

/-- `cil_post_filecon_compare`: patterns before paths. -/
def postFileconCompare : Filecon → Filecon → Int :=
  thenCmp (keyCmp fun f => if f.data.isMeta then 0 else 1) <|
  thenCmp (keyCmp fun f => f.data.stemLen) <|
  thenCmp (keyCmp fun f => f.data.strLen) <|
  thenCmp (keyCmp fun f => f.type.ctorIdx) (keyCmp Filecon.path)

def postIbpkeyconCompare : Ibpkeycon → Ibpkeycon → Int :=
  thenCmp (keyCmp Ibpkeycon.subnetPrefix) <|
  thenCmp (diffCmp fun r => r.pkeyHigh - r.pkeyLow) (keyCmp fun r => r.pkeyLow.toNat)

def postPortconCompare : Portcon → Portcon → Int :=
  thenCmp (diffCmp fun r => r.portHigh - r.portLow) <|
  thenCmp (keyCmp fun r => r.portLow.toNat) (keyCmp fun r => r.proto.ctorIdx)

def postGenfsconCompare : Genfscon → Genfscon → Int :=
  thenCmp (keyCmp Genfscon.fs) (keyCmp Genfscon.path)

def postNetifconCompare : Netifcon → Netifcon → Int := keyCmp Netifcon.interface

def postIbendportconCompare : Ibendportcon → Ibendportcon → Int :=
  thenCmp (keyCmp Ibendportcon.devName) (keyCmp fun r => r.port.toNat)

/-- `cil_post_nodecon_compare`: the larger mask first. -/
def postNodeconCompare : Nodecon → Nodecon → Int :=
  thenCmp (keyCmp fun r => r.addr.family) <|
  thenCmp (fun a b => -keyCmp (fun r : Nodecon => r.mask.ip) a b) (keyCmp fun r => r.addr.ip)

def postPirqconCompare : Pirqcon → Pirqcon → Int := keyCmp fun r => r.pirq.toNat

/-- `cil_post_iomemcon_compare`: the difference of the sizes has 64 bits, and is stored in an
`int`. -/
def postIomemconCompare : Iomemcon → Iomemcon → Int :=
  thenCmp (fun a b => (((a.iomemHigh - a.iomemLow) - (b.iomemHigh - b.iomemLow)).setWidth 32).toInt)
    (keyCmp fun r => r.iomemLow.toNat)

def postIoportconCompare : Ioportcon → Ioportcon → Int :=
  thenCmp (diffCmp fun r => r.ioportHigh - r.ioportLow) (keyCmp fun r => r.ioportLow.toNat)

def postPcideviceconCompare : Pcidevicecon → Pcidevicecon → Int := keyCmp fun r => r.dev.toNat

def postDevicetreeconCompare : Devicetreecon → Devicetreecon → Int := keyCmp Devicetreecon.path

def postFsuseCompare : Fsuse → Fsuse → Int :=
  thenCmp (keyCmp fun r => r.type.number) (keyCmp Fsuse.fs)

/-! ## Kinds -/

inductive Kind where
  | filecon
  | ibpkeycon
  | portcon
  | genfscon
  | netifcon
  | ibendportcon
  | nodecon
  | pirqcon
  | iomemcon
  | ioportcon
  | pcidevicecon
  | devicetreecon
  | fsuse
  deriving DecidableEq

def Kind.Rule : Kind → Type
  | filecon => Filecon
  | ibpkeycon => Ibpkeycon
  | portcon => Portcon
  | genfscon => Genfscon
  | netifcon => Netifcon
  | ibendportcon => Ibendportcon
  | nodecon => Nodecon
  | pirqcon => Pirqcon
  | iomemcon => Iomemcon
  | ioportcon => Ioportcon
  | pcidevicecon => Pcidevicecon
  | devicetreecon => Devicetreecon
  | fsuse => Fsuse

/-- The comparison of keys that `cil_post_db` passes for the rules of a kind. -/
def Kind.compar : (k : Kind) → k.Rule → k.Rule → Int
  | filecon => postFileconCompare
  | ibpkeycon => postIbpkeyconCompare
  | portcon => postPortconCompare
  | genfscon => postGenfsconCompare
  | netifcon => postNetifconCompare
  | ibendportcon => postIbendportconCompare
  | nodecon => postNodeconCompare
  | pirqcon => postPirqconCompare
  | iomemcon => postIomemconCompare
  | ioportcon => postIoportconCompare
  | pcidevicecon => postPcideviceconCompare
  | devicetreecon => postDevicetreeconCompare
  | fsuse => postFsuseCompare

/-- The contexts of a rule. -/
def Kind.contexts : (k : Kind) → k.Rule → List (Option Context)
  | filecon, (r : Filecon) => [r.context]
  | ibpkeycon, (r : Ibpkeycon) => [some r.context]
  | portcon, (r : Portcon) => [some r.context]
  | genfscon, (r : Genfscon) => [some r.context]
  | netifcon, (r : Netifcon) => [some r.ifContext, some r.packetContext]
  | ibendportcon, (r : Ibendportcon) => [some r.context]
  | nodecon, (r : Nodecon) => [some r.context]
  | pirqcon, (r : Pirqcon) => [some r.context]
  | iomemcon, (r : Iomemcon) => [some r.context]
  | ioportcon, (r : Ioportcon) => [some r.context]
  | pcidevicecon, (r : Pcidevicecon) => [some r.context]
  | devicetreecon, (r : Devicetreecon) => [some r.context]
  | fsuse, (r : Fsuse) => [some r.context]

/-- One `context_compare` after another, up to the first that is not `0`. -/
def contextsCompare : List (Option Context) → List (Option Context) → Option Int
  | a :: as, b :: bs => (contextCompare a b).bind fun rc =>
    if rc ≠ 0 then some rc else contextsCompare as bs
  | _, _ => some 0

/-- The comparison of contexts that `cil_post_db` passes for the rules of a kind. -/
def Kind.concompar (k : Kind) (a b : k.Rule) : Option Int :=
  contextsCompare (k.contexts a) (k.contexts b)

/-! ## What the keys say -/

/-- The rules label the same objects. -/
def Kind.SameObjects : (k : Kind) → k.Rule → k.Rule → Prop
  | filecon, (a : Filecon), (b : Filecon) => a.path = b.path ∧ a.type = b.type
  | ibpkeycon, (a : Ibpkeycon), (b : Ibpkeycon) =>
    a.subnetPrefix = b.subnetPrefix ∧ a.pkeyLow = b.pkeyLow ∧ a.pkeyHigh = b.pkeyHigh
  | portcon, (a : Portcon), (b : Portcon) =>
    a.proto = b.proto ∧ a.portLow = b.portLow ∧ a.portHigh = b.portHigh
  | genfscon, (a : Genfscon), (b : Genfscon) =>
    a.fs = b.fs ∧ a.path = b.path ∧ a.fileType = b.fileType
  | netifcon, (a : Netifcon), (b : Netifcon) => a.interface = b.interface
  | ibendportcon, (a : Ibendportcon), (b : Ibendportcon) => a.devName = b.devName ∧ a.port = b.port
  | nodecon, (a : Nodecon), (b : Nodecon) => a.addr = b.addr ∧ a.mask = b.mask
  | pirqcon, (a : Pirqcon), (b : Pirqcon) => a.pirq = b.pirq
  | iomemcon, (a : Iomemcon), (b : Iomemcon) => a.iomemLow = b.iomemLow ∧ a.iomemHigh = b.iomemHigh
  | ioportcon, (a : Ioportcon), (b : Ioportcon) =>
    a.ioportLow = b.ioportLow ∧ a.ioportHigh = b.ioportHigh
  | pcidevicecon, (a : Pcidevicecon), (b : Pcidevicecon) => a.dev = b.dev
  | devicetreecon, (a : Devicetreecon), (b : Devicetreecon) => a.path = b.path
  | fsuse, (a : Fsuse), (b : Fsuse) => a.type = b.type ∧ a.fs = b.fs

/-- The rules that a kind's comparison is made for: no filesystem has a path with two file types,
the sizes of ranges are in one half of the 32-bit numbers, and no two memory ranges with one low end
have high ends a multiple of `2 ^ 32` apart. -/
def Kind.Comparable : (k : Kind) → List k.Rule → Prop
  | ibpkeycon, (l : List Ibpkeycon) =>
    ∀ x ∈ l, InHalf (fun r => r.pkeyHigh - r.pkeyLow)
      (l.filter fun r => x.subnetPrefix = r.subnetPrefix)
  | portcon, (l : List Portcon) => InHalf (fun r => r.portHigh - r.portLow) l
  | ioportcon, (l : List Ioportcon) => InHalf (fun r => r.ioportHigh - r.ioportLow) l
  | iomemcon, (l : List Iomemcon) =>
    InHalf (fun r => (r.iomemHigh - r.iomemLow).setWidth 32) l ∧
      ∀ a ∈ l, ∀ b ∈ l, a.iomemLow = b.iomemLow →
        a.iomemHigh.setWidth 32 = b.iomemHigh.setWidth 32 →
        a.iomemHigh = b.iomemHigh
  | genfscon, (l : List Genfscon) =>
    ∀ a ∈ l, ∀ b ∈ l, a.fs = b.fs → a.path = b.path → a.fileType = b.fileType
  | _, _ => True

theorem FileconType.ctorIdx_inj {a b : FileconType} (h : a.ctorIdx = b.ctorIdx) : a = b := by
  cases a <;> cases b <;> first | rfl | cases h

theorem Protocol.ctorIdx_inj {a b : Protocol} (h : a.ctorIdx = b.ctorIdx) : a = b := by
  cases a <;> cases b <;> first | rfl | cases h

theorem FsuseType.number_inj {a b : FsuseType} (h : a.number = b.number) : a = b := by
  cases a <;> cases b <;> first | rfl | cases h

theorem IpAddr.eq_of_ip {a b : IpAddr} (hfamily : a.family = b.family) (hip : a.ip = b.ip) :
    a = b := by
  cases a <;> cases b
  · exact congrArg v4 (eq_of_toNat_eq hip)
  · cases hfamily
  · cases hfamily
  · exact congrArg v6 (eq_of_toNat_eq hip)

theorem diffCmp_eq_zero {α : Type} {key : α → BitVec 32} {a b : α} : diffCmp key a b = 0 ↔
    key a = key b := by
  rw [diffCmp, ← toInt_zero (w := 32), toInt_inj, BitVec.sub_eq_iff_eq_add, BitVec.zero_add]

/-- Ranges of one size that begin with the same number. -/
theorem high_eq_of_size {w : Nat} {low high low' high' : BitVec w} (hlow : low = low')
    (hsize : high - low = high' - low') : high = high' := by
  simpa [hlow] using hsize

open Lib (orders_keyCmp keyCmp_eq_zero thenCmp_eq_zero orders_diffCmp_iff orders_thenCmp_iff
    lowWord_sub)

/-! ### Comparisons that are exact -/

theorem orders_postFileconCompare (l : List Filecon) : Orders postFileconCompare l :=
  (orders_keyCmp _ l).then <| (orders_keyCmp _ l).then <| (orders_keyCmp _ l).then <|
    (orders_keyCmp _ l).then (orders_keyCmp _ l)

theorem postFileconCompare_eq_zero {a b : Filecon} (h : postFileconCompare a b = 0) :
    a.path = b.path ∧ a.type = b.type := by
  simp only [postFileconCompare, thenCmp_eq_zero, keyCmp_eq_zero] at h
  exact ⟨h.2.2.2.2, FileconType.ctorIdx_inj h.2.2.2.1⟩

theorem orders_postIbendportconCompare (l : List Ibendportcon) : Orders postIbendportconCompare l :=
  (orders_keyCmp _ l).then (orders_keyCmp _ l)

theorem postIbendportconCompare_eq_zero {a b : Ibendportcon} (h : postIbendportconCompare a b = 0) :
    a.devName = b.devName ∧ a.port = b.port := by
  simp only [postIbendportconCompare, thenCmp_eq_zero, keyCmp_eq_zero] at h
  exact ⟨h.1, eq_of_toNat_eq h.2⟩

theorem orders_postNodeconCompare (l : List Nodecon) : Orders postNodeconCompare l :=
  (orders_keyCmp _ l).then ((orders_keyCmp _ l).neg.then (orders_keyCmp _ l))

theorem postNodeconCompare_eq_zero {a b : Nodecon} (h : postNodeconCompare a b = 0) :
    a.addr = b.addr ∧ a.mask = b.mask := by
  simp only [postNodeconCompare, thenCmp_eq_zero, keyCmp_eq_zero, Int.neg_eq_zero] at h
  exact ⟨IpAddr.eq_of_ip h.1 h.2.2, IpAddr.eq_of_ip (a.family.symm.trans (h.1.trans b.family))
    h.2.1⟩

theorem orders_postFsuseCompare (l : List Fsuse) : Orders postFsuseCompare l :=
  (orders_keyCmp _ l).then (orders_keyCmp _ l)

theorem postFsuseCompare_eq_zero {a b : Fsuse} (h : postFsuseCompare a b = 0) : a.type = b.type ∧
    a.fs = b.fs := by
  simp only [postFsuseCompare, thenCmp_eq_zero, keyCmp_eq_zero] at h
  exact ⟨FsuseType.number_inj h.1, h.2⟩

/-! ### Comparisons that are not -/

theorem orders_postGenfsconCompare (l : List Genfscon) : Orders postGenfsconCompare l :=
  (orders_keyCmp _ l).then (orders_keyCmp _ l)

theorem postGenfsconCompare_eq_zero {a b : Genfscon} :
    postGenfsconCompare a b = 0 ↔ a.fs = b.fs ∧ a.path = b.path := by
  simp only [postGenfsconCompare, thenCmp_eq_zero, keyCmp_eq_zero]

theorem orders_postIbpkeyconCompare_iff {l} :
    Orders postIbpkeyconCompare l ↔ Kind.ibpkeycon.Comparable l := by
  rw [postIbpkeyconCompare, orders_thenCmp_iff (orders_keyCmp _ l)]
  simp only [keyCmp_eq_zero, orders_diffCmp_iff (orders_keyCmp _ _)]
  rfl

theorem postIbpkeyconCompare_eq_zero {a b : Ibpkeycon} (h : postIbpkeyconCompare a b = 0) :
    a.subnetPrefix = b.subnetPrefix ∧ a.pkeyLow = b.pkeyLow ∧ a.pkeyHigh = b.pkeyHigh := by
  simp only [postIbpkeyconCompare, thenCmp_eq_zero, keyCmp_eq_zero, diffCmp_eq_zero] at h
  have hlow := eq_of_toNat_eq h.2.2
  exact ⟨h.1, hlow, high_eq_of_size hlow h.2.1⟩

theorem orders_postPortconCompare_iff {l} :
    Orders postPortconCompare l ↔ Kind.portcon.Comparable l :=
  orders_diffCmp_iff ((orders_keyCmp _ l).then (orders_keyCmp _ l))

theorem postPortconCompare_eq_zero {a b : Portcon} (h : postPortconCompare a b = 0) :
    a.proto = b.proto ∧ a.portLow = b.portLow ∧ a.portHigh = b.portHigh := by
  simp only [postPortconCompare, thenCmp_eq_zero, keyCmp_eq_zero, diffCmp_eq_zero] at h
  have hlow := eq_of_toNat_eq h.2.1
  exact ⟨Protocol.ctorIdx_inj h.2.2, hlow, high_eq_of_size hlow h.1⟩

theorem orders_postIoportconCompare_iff {l} :
    Orders postIoportconCompare l ↔ Kind.ioportcon.Comparable l :=
  orders_diffCmp_iff (orders_keyCmp _ l)

theorem postIoportconCompare_eq_zero {a b : Ioportcon} (h : postIoportconCompare a b = 0) :
    a.ioportLow = b.ioportLow ∧ a.ioportHigh = b.ioportHigh := by
  simp only [postIoportconCompare, thenCmp_eq_zero, keyCmp_eq_zero, diffCmp_eq_zero] at h
  have hlow := eq_of_toNat_eq h.2
  exact ⟨hlow, high_eq_of_size hlow h.1⟩

/-- Of the sizes, the low words are compared. -/
theorem postIomemconCompare_eq : postIomemconCompare =
    thenCmp (diffCmp fun r => (r.iomemHigh - r.iomemLow).setWidth 32)
      (keyCmp fun r => r.iomemLow.toNat) := by
  funext a b
  simp only [postIomemconCompare, thenCmp, diffCmp, lowWord_sub]

theorem postIomemconCompare_eq_zero {a b : Iomemcon} : postIomemconCompare a b = 0 ↔
      a.iomemLow = b.iomemLow ∧ a.iomemHigh.setWidth 32 = b.iomemHigh.setWidth 32 := by
  rw [postIomemconCompare_eq, thenCmp_eq_zero, keyCmp_eq_zero, diffCmp_eq_zero, lowWord_sub,
    lowWord_sub]
  constructor
  · rintro ⟨hsize, hlow⟩
    have hlow := eq_of_toNat_eq hlow
    exact ⟨hlow, high_eq_of_size (congrArg _ hlow) hsize⟩
  · simp_all

/-- The comparison of the keys orders the rules and is exact if, and only if, the rules are
comparable. -/
theorem comparable_iff (k : Kind) (l : List k.Rule) :
    (Orders k.compar l ∧ ∀ a ∈ l, ∀ b ∈ l, k.compar a b = 0 → k.SameObjects a b) ↔
      k.Comparable l := by
  cases k with
  | filecon =>
    exact iff_of_true ⟨orders_postFileconCompare l, fun _ _ _ _ => postFileconCompare_eq_zero⟩
      trivial
  | ibpkeycon =>
    exact (and_iff_left fun _ _ _ _ => postIbpkeyconCompare_eq_zero).trans
      orders_postIbpkeyconCompare_iff
  | portcon =>
    exact (and_iff_left fun _ _ _ _ => postPortconCompare_eq_zero).trans
      orders_postPortconCompare_iff
  | genfscon =>
    refine (and_iff_right (orders_postGenfsconCompare l)).trans ?_
    refine forall₂_congr fun a _ => forall₂_congr fun b _ =>
      ⟨fun h hfs hpath => ?_, fun h heq => ?_⟩
    · exact (h (postGenfsconCompare_eq_zero.mpr ⟨hfs, hpath⟩)).2.2
    · obtain ⟨hfs, hpath⟩ := postGenfsconCompare_eq_zero.mp heq
      exact ⟨hfs, hpath, h hfs hpath⟩
  | netifcon => exact iff_of_true ⟨orders_keyCmp _ l, fun _ _ _ _ => keyCmp_eq_zero.mp⟩ trivial
  | ibendportcon =>
    exact iff_of_true
      ⟨orders_postIbendportconCompare l, fun _ _ _ _ => postIbendportconCompare_eq_zero⟩ trivial
  | nodecon =>
    exact iff_of_true ⟨orders_postNodeconCompare l, fun _ _ _ _ => postNodeconCompare_eq_zero⟩
      trivial
  | pirqcon =>
    exact iff_of_true ⟨orders_keyCmp _ l, fun _ _ _ _ h => eq_of_toNat_eq (keyCmp_eq_zero.mp h)⟩
      trivial
  | iomemcon =>
    refine and_congr ?_ (forall₂_congr fun a _ => forall₂_congr fun b _ => ?_)
    · change Orders postIomemconCompare l ↔ _
      rw [postIomemconCompare_eq]
      exact orders_diffCmp_iff (orders_keyCmp _ l)
    · refine ⟨fun h hlow hhigh => (h (postIomemconCompare_eq_zero.mpr ⟨hlow, hhigh⟩)).2,
        fun h heq => ?_⟩
      obtain ⟨hlow, hhigh⟩ := postIomemconCompare_eq_zero.mp heq
      exact ⟨hlow, h hlow hhigh⟩
  | ioportcon =>
    exact (and_iff_left fun _ _ _ _ => postIoportconCompare_eq_zero).trans
      orders_postIoportconCompare_iff
  | pcidevicecon =>
    exact iff_of_true ⟨orders_keyCmp _ l, fun _ _ _ _ h => eq_of_toNat_eq (keyCmp_eq_zero.mp h)⟩
      trivial
  | devicetreecon => exact iff_of_true ⟨orders_keyCmp _ l, fun _ _ _ _ => keyCmp_eq_zero.mp⟩ trivial
  | fsuse => exact iff_of_true ⟨orders_postFsuseCompare l, fun _ _ _ _ =>
    postFsuseCompare_eq_zero⟩ trivial

end SELinux.Cil
