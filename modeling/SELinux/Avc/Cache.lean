import Mathlib.Data.List.FinRange
import SELinux.Lib.Scan

/-!
# The access vector cache

The cache of access decisions that object managers use (`avc.c`). A fixed number of nodes is on a
free list or on one of the chains of a hash table. When the free list is empty, a node is taken from
a chain: the chains are walked in a circle for a node that was not used since the last walk. -/

namespace SELinux.Avc

/-! ## Entries -/

/-- The address of a security identifier. -/
abbrev Sid := BitVec 64

def secsidWild : Sid := 0

/-- `struct av_decision`. -/
structure AvDecision where
  allowed : BitVec 32 := 0
  decided : BitVec 32 := 0
  auditallow : BitVec 32 := 0
  auditdeny : BitVec 32 := 0
  seqno : BitVec 32 := 0
  flags : BitVec 32 := 0
  deriving DecidableEq

/-- What a decision is about. -/
structure AvcKey where
  ssid : Sid := 0
  tsid : Sid := 0
  tclass : BitVec 16 := 0
  deriving DecidableEq

/-- `struct avc_entry`. The default is a cleared entry. -/
structure AvcEntry where
  key : AvcKey := {}
  avd : AvDecision := {}
  createSid : Sid := 0
  used : Bool := false
  deriving DecidableEq

/-- `struct avc_node`, with its address. -/
structure AvcNode where
  addr : Nat
  ae : AvcEntry := {}
  deriving DecidableEq

/-! ## The cache -/

/-- `AVC_CACHE_SLOTS` is 512. -/
abbrev Slot := Fin 512

def avcCacheMaxnodes : Nat := 410

/-- `struct avc_cache` and the free list. -/
structure AvcCache where
  slots : Slot → List AvcNode
  lruHint : Slot
  activeNodes : BitVec 32
  latestNotif : BitVec 32
  freelist : List AvcNode

section

variable (s : AvcCache) (key : AvcKey)

def avcHash : Slot :=
  Fin.ofNat 512 ((key.ssid ^^^ (key.tsid <<< 2) ^^^ key.tclass.setWidth 64) &&& 511).toNat

/-- The cache that `avc_init_internal` makes of the nodes it can allocate, up to the first
allocation that fails. -/
def avcInit (mem : List Nat) : AvcCache where
  slots := fun _ => []
  lruHint := 0
  activeNodes := 0
  latestNotif := 0
  freelist := (mem.take avcCacheMaxnodes).foldl (fun freelist addr => { addr := addr } :: freelist)
    []

/-- A write to a node of the hash table. -/
def AvcCache.write (addr : Nat) (f : AvcEntry → AvcEntry) : AvcCache :=
  { s with slots := fun h => (s.slots h).map fun n => if n.addr = addr then { n with ae := f n.ae }
    else n }

/-! ## Taking a node -/

/-- The walk along one chain: nodes that were used are marked as not used, up to the first one that
is not; that one is taken out. -/
def reclaimChain : List AvcNode → List AvcNode × Option AvcNode
  | [] => ([], none)
  | cur :: next =>
    if cur.ae.used = false then (next, some cur)
    else
      let (chain, found) := reclaimChain next
      ({ cur with ae := { cur.ae with used := false } } :: chain, found)

/-- The walk along the chains, once around. -/
def reclaimSweep : Nat → Slot → AvcCache → AvcCache × Option AvcNode
  | 0, _, s => (s, none)
  | n + 1, hvalue, s =>
    let (chain, found) := reclaimChain (s.slots hvalue)
    let s := { s with slots := Function.update s.slots hvalue chain }
    match found with
    | some cur => ({ s with lruHint := hvalue }, some cur)
    | none => if hvalue + 1 ≠ s.lruHint then reclaimSweep n (hvalue + 1) s else (s, none)

/-- `avc_reclaim_node`: two tries. -/
def avcReclaimNode : AvcCache × Option AvcNode :=
  match reclaimSweep 512 s.lruHint s with
  | (s, some cur) => (s, some cur)
  | (s, none) => reclaimSweep 512 s.lruHint s

/-- A node from the free list or from a chain. -/
def avcTakeNode : AvcCache × Option AvcNode :=
  match s.freelist with
  | new :: rest => ({ s with freelist := rest, activeNodes := s.activeNodes + 1 }, some new)
  | [] => avcReclaimNode s

def avcClaimNode : AvcCache × Option AvcNode :=
  match avcTakeNode s with
  | (s, none) => (s, none)
  | (s, some new) =>
    let new : AvcNode := { new with ae := { key := key, used := true } }
    ({ s with slots := Function.update s.slots (avcHash key) (new :: s.slots (avcHash key)) },
      some new)

/-! ## Operations -/

def AvcEntry.setUsed (ae : AvcEntry) : AvcEntry := { ae with used := true }

def avcSearchNode : AvcCache × Option AvcNode :=
  let chain := s.slots (avcHash key)
  let hit := fun n : AvcNode => decide (n.ae.key = key)
  let setUsed := fun n : AvcNode => { n with ae := n.ae.setUsed }
  ({ s with slots :=
    Function.update s.slots (avcHash key) (Lib.scanModify hit (fun _ => false) setUsed chain) },
    (chain.find? hit).map setUsed)

/-- `avc_lookup`: the node that `aeref` is set to on success. -/
def avcLookup (requested : BitVec 32) : AvcCache × Option AvcNode :=
  match avcSearchNode s key with
  | (s, some node) =>
    if node.ae.avd.decided &&& requested = requested then (s, some node) else (s, none)
  | (s, none) => (s, none)

def avcInsert (avd : AvDecision) : AvcCache × Option AvcNode :=
  if avd.seqno < s.latestNotif then (s, none)
  else
    match avcClaimNode s key with
    | (s, none) => (s, none)
    | (s, some node) =>
      (s.write node.addr fun ae =>
        { ae with avd := avd }, some { node with ae := { node.ae with avd := avd } })

/-- The events of `avc_control`. -/
inductive AvcEvent where
  | grant
  | tryRevoke
  | revoke
  | auditallowEnable
  | auditallowDisable
  | auditdenyEnable
  | auditdenyDisable
  deriving DecidableEq

def avcUpdateNode (event : AvcEvent) (perms : BitVec 32) (avd : AvDecision) : AvDecision :=
  match event with
  | .grant => { avd with allowed := avd.allowed ||| perms }
  | .tryRevoke | .revoke => { avd with allowed := avd.allowed &&& ~~~perms }
  | .auditallowEnable => { avd with auditallow := avd.auditallow ||| perms }
  | .auditallowDisable => { avd with auditallow := avd.auditallow &&& ~~~perms }
  | .auditdenyEnable => { avd with auditdeny := avd.auditdeny ||| perms }
  | .auditdenyDisable => { avd with auditdeny := avd.auditdeny &&& ~~~perms }

def avcSidcmp (x y : Sid) : Bool := x == y || x == secsidWild || y == secsidWild

/-- The test for nodes that an update with a wildcard applies to. -/
def AvcKey.covers (key k : AvcKey) : Bool :=
  avcSidcmp key.ssid k.ssid && avcSidcmp key.tsid k.tsid && key.tclass == k.tclass

def AvcKey.isWild : Bool := key.ssid == secsidWild || key.tsid == secsidWild

def avcUpdateCache (event : AvcEvent) (key : AvcKey) (perms : BitVec 32) : AvcCache :=
  if key.isWild then
    { s with
      slots := fun h => (s.slots h).map fun n =>
        if key.covers n.ae.key then
          { n with ae := { n.ae with avd := avcUpdateNode event perms n.ae.avd } } else n }
  else
    match avcSearchNode s key with
    | (s, none) => s
    | (s, some node) => s.write node.addr fun ae =>
      { ae with avd := avcUpdateNode event perms ae.avd }

/-- One node goes back to the free list. -/
def resetNode (acc : List AvcNode × BitVec 32) (node : AvcNode) : List AvcNode × BitVec 32 :=
  ({ addr := node.addr } :: acc.1, acc.2 - 1)

/-- `avc_reset`, as far as the cache is concerned. -/
def avcReset : AvcCache :=
  let acc := (List.finRange 512).foldl (fun acc i => (s.slots i).foldl resetNode acc)
    (s.freelist, s.activeNodes)
  { s with slots := fun _ => [], lruHint := 0, freelist := acc.1, activeNodes := acc.2 }

/-! ## Runs -/

/-- The operations on a cache, and the notice of a new policy that `avc_control` takes. -/
inductive AvcOp where
  | lookup (key : AvcKey) (requested : BitVec 32)
  | insert (key : AvcKey) (avd : AvDecision)
  | update (event : AvcEvent) (key : AvcKey) (perms : BitVec 32)
  | reset
  | notif (seqno : BitVec 32)

def avcStep : AvcOp → AvcCache
  | .lookup key requested => (avcLookup s key requested).1
  | .insert key avd => (avcInsert s key avd).1
  | .update event key perms => avcUpdateCache s event key perms
  | .reset => avcReset s
  | .notif seqno => if s.latestNotif < seqno then { s with latestNotif := seqno } else s

/-- A decision that was inserted: into which node, for what, and what it has become by updates
since. -/
structure Inserted where
  addr : Nat
  key : AvcKey
  avd : AvDecision
  now : AvDecision

/-- What is left in the cache of the decisions that were inserted since the last reset, the newest
first. A decision is gone when its node is claimed for another one. -/
def logStep (log : List Inserted) : AvcOp → List Inserted
  | .lookup _ _ => log
  | .insert key avd =>
    match (avcInsert s key avd).2 with
    | none => log
    | some node => ⟨node.addr, key, avd, avd⟩ :: log.filter fun e => e.addr != node.addr
  | .update event key perms =>
    let apply := fun e : Inserted => { e with now := avcUpdateNode event perms e.now }
    if key.isWild then log.map fun e => if key.covers e.key then apply e else e
    else Lib.scanModify (fun e => decide (e.key = key)) (fun _ => false) apply log
  | .reset => []
  | .notif _ => log

/-- The cache and the log after some operations. -/
def avcRun (log : List Inserted) (ops : List AvcOp) : AvcCache × List Inserted :=
  ops.foldl (fun r op => (avcStep r.1 op, logStep r.1 r.2 op)) (s, log)

/-- The nodes on the chains. -/
def AvcCache.chained : List AvcNode := (List.finRange 512).flatMap s.slots

end

end SELinux.Avc
