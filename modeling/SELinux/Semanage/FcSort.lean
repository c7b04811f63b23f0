import SELinux.Cil.ContextRules

/-!
# Sorting of file contexts

`semanage_fc_sort` of libsemanage puts the lines of `file_contexts` in the order of their
specificity, with a merge sort over a list of buckets. CIL sorts its own file contexts by measures
that it takes from the path in another way. -/

namespace SELinux.Semanage

open List

open Lib (CString keyCmp thenCmp Orders)
open Cil (metaChars backslash Filecon FileconType FcData fcFillData postFileconCompare)

/-- `semanage_file_context_node_t`, without the lengths of its texts. -/
structure FcNode where
  path : CString
  fileType : Option CString
  context : CString
  firstMeta : Int
  effectiveLen : Nat

/-- `semanage_fc_compare`: below zero if the first one is less specific. -/
def fcCompare : FcNode → FcNode → Int :=
  thenCmp (keyCmp fun a => if 0 ≤ a.firstMeta then 0 else 1) <|
  thenCmp (keyCmp FcNode.firstMeta) <|
  thenCmp (keyCmp FcNode.effectiveLen) (keyCmp fun a => a.fileType.isSome)

/-- `semanage_fc_merge`: the node on the left goes first unless it is more specific. -/
def fcMerge (left right : List FcNode) : List FcNode := left.merge right fun a b =>
    fcCompare a b != 1

/-- One pass of `semanage_fc_merge_sort` over the buckets. -/
def mergePass : List (List FcNode) → List (List FcNode)
  | b :: b' :: rest => fcMerge b b' :: mergePass rest
  | bs => bs

theorem mergePass_short {bs : List (List FcNode)} (h : ∀ b b' rest, bs = b :: b' :: rest → False) :
    mergePass bs = bs ∧ bs.length ≤ 1 := by
  match bs, h with
  | [], _ => simp [mergePass]
  | [b], _ => simp [mergePass]
  | b :: b' :: rest, h => exact absurd rfl (h b b' rest)

theorem length_mergePass (bs : List (List FcNode)) :
    (mergePass bs).length = (bs.length + 1) / 2 := by
  induction bs using mergePass.induct with
  | case1 b b' rest ih =>
    simp only [mergePass, length_cons, ih]
    omega
  | case2 bs h =>
    have := mergePass_short h
    rw [this.1]
    omega

/-- `semanage_fc_merge_sort`: passes until one bucket is left. -/
def fcMergeSort : List (List FcNode) → List (List FcNode)
  | b :: b' :: rest => fcMergeSort (mergePass (b :: b' :: rest))
  | bs => bs
  termination_by bs => bs.length
  decreasing_by simp only [length_mergePass, length_cons]; omega

/-! ## The order of the nodes -/

theorem orders_fcCompare (l : List FcNode) : Orders fcCompare l :=
  (Lib.orders_keyCmp _ l).then <| (Lib.orders_keyCmp _ l).then <|
    (Lib.orders_keyCmp _ l).then (Lib.orders_keyCmp _ l)

theorem fcCompare_le {a b : FcNode} : (fcCompare a b != 1) = true ↔ fcCompare a b ≤ 0 := by
  have hkey : ∀ {β : Type} [LinearOrder β] (key : FcNode → β), keyCmp key a b ≤ 1 := by
    intro β _ key
    rw [keyCmp]
    split_ifs <;> omega
  have hthen : ∀ {f g : FcNode → FcNode → Int}, f a b ≤ 1 → g a b ≤ 1 → thenCmp f g a b ≤ 1 := by
    intro f g hf hg
    rw [thenCmp]
    split_ifs <;> assumption
  have hle : fcCompare a b ≤ 1 := hthen (hkey _) (hthen (hkey _) (hthen (hkey _) (hkey _)))
  rw [bne_iff_ne]
  omega

def Sorted (nodes : List FcNode) : Prop := nodes.Pairwise fun a b => fcCompare a b ≤ 0

/-- The nodes that are as specific as `x`, in their order. -/
def peers (x : FcNode) (nodes : List FcNode) : List FcNode := nodes.filter fun a =>
    fcCompare x a == 0

theorem sorted_fcMerge {left right : List FcNode} (hl : Sorted left) (hr : Sorted right) :
    Sorted (fcMerge left right) := by
  refine (pairwise_merge (fun a b c hab hbc => ?_) (fun a b => ?_) _ _ (hl.imp fcCompare_le.mpr)
    (hr.imp fcCompare_le.mpr)).imp fcCompare_le.mp
  · rw [fcCompare_le] at hab hbc ⊢
    exact (orders_fcCompare [a, b, c]).trans a (by simp) b (by simp) c (by simp) hab hbc
  · rw [Bool.or_eq_true, fcCompare_le, fcCompare_le]
    exact (orders_fcCompare [a, b]).total (by simp) (by simp)

/-- Of two nodes that are equally specific the one on the left stays first. -/
theorem peers_fcMerge (x : FcNode) {left right : List FcNode} (hl : Sorted left) :
    peers x (fcMerge left right) = peers x left ++ peers x right := by
  induction left generalizing right with
  | nil => simp [fcMerge, peers]
  | cons a left ihl =>
    obtain ⟨ha, htail⟩ := pairwise_cons.mp hl
    induction right with
    | nil => simp [fcMerge, peers]
    | cons b right ihr =>
      rw [fcMerge, cons_merge_cons]
      split_ifs with hle
      · have := @ihl (b :: right) htail
        simp only [fcMerge, peers, filter_cons] at this ⊢
        split_ifs <;> simp_all
      · rw [fcCompare_le] at hle
        -- no node of the left list is as specific as one that is less specific than its head
        have hnone : fcCompare x b = 0 → peers x (a :: left) = [] := by
          intro hxb
          have horders := orders_fcCompare (x :: b :: a :: left)
          refine filter_eq_nil_iff.mpr fun c hc hxc => hle ?_
          have hac : fcCompare a c ≤ 0 := by
            rcases mem_cons.mp hc with rfl | hc
            · exact (horders.refl (by simp)).le
            · exact ha c hc
          have hcmem : c ∈ x :: b :: a :: left := by tauto
          have hx : x ∈ x :: b :: a :: left := by simp
          have hcx := horders.eq_comm hx hcmem (by simpa using hxc)
          have hcb := horders.eq_trans hcmem hx (by simp) hcx hxb
          exact horders.trans a (by simp) c hcmem b (by simp) hac hcb.le
        simp only [fcMerge] at ihr
        by_cases hxb : fcCompare x b = 0
        · simp only [hnone hxb, nil_append] at ihr ⊢
          simp only [peers, filter_cons, hxb, beq_self_eq_true, if_true] at ihr ⊢
          rw [ihr]
        · simp only [peers, filter_cons (x := b), beq_iff_eq, hxb, if_false] at ihr ⊢
          exact ihr

/-- What holds between two passes. -/
structure Stage (nodes : List FcNode) (bs : List (List FcNode)) : Prop where
  perm : bs.flatten.Perm nodes
  sorted : ∀ b ∈ bs, Sorted b
  stable : ∀ x, peers x bs.flatten = peers x nodes

theorem Stage.pass (bs : List (List FcNode)) (h : ∀ b ∈ bs, Sorted b) :
    Stage bs.flatten (mergePass bs) := by
  induction bs using mergePass.induct with
  | case1 b b' rest ih =>
    obtain ⟨hperm, hsorted, hstable⟩ := ih fun c hc => h c (by simp [hc])
    refine ⟨?_, ?_, fun x => ?_⟩
    · rw [mergePass, flatten_cons, flatten_cons, flatten_cons, ← append_assoc]
      exact (merge_perm_append ..).append hperm
    · rintro c hc
      rcases mem_cons.mp hc with rfl | hc
      · exact sorted_fcMerge (h b (by simp)) (h b' (by simp))
      · exact hsorted c hc
    · have hmerge := @peers_fcMerge x b b' (h b (by simp))
      simp only [peers] at hmerge hstable
      simp only [mergePass, flatten_cons, peers, filter_append, hmerge, hstable, append_assoc]
  | case2 bs hshort =>
    rw [(mergePass_short hshort).1]
    exact ⟨.refl _, h, fun x => rfl⟩

theorem Stage.sort {nodes : List FcNode} {bs : List (List FcNode)} (h : Stage nodes bs)
    (hne : bs ≠ []) : ∃ sorted, fcMergeSort bs = [sorted] ∧ Stage nodes [sorted] := by
  induction bs using fcMergeSort.induct with
  | case1 b b' rest ih =>
    rw [fcMergeSort]
    obtain ⟨hperm, hsorted, hstable⟩ := Stage.pass (b :: b' :: rest) h.sorted
    refine ih ⟨hperm.trans h.perm, hsorted, fun x => (hstable x).trans (h.stable x)⟩ ?_
    simp [mergePass]
  | case2 bs hshort =>
    match bs, hshort, hne with
    | [b], _, _ => exact ⟨b, by rw [fcMergeSort]; simp, h⟩
    | b :: b' :: rest, hshort, _ => exact absurd rfl (hshort b b' rest)

/-- The comparison is a total preorder, and sorting buckets with one node each leaves one bucket: it
has the same nodes from the least specific on, and those that are equally specific in their old
order. -/
theorem fcMergeSort_stable (node : FcNode) (nodes : List FcNode) : (∀ l, Orders fcCompare l) ∧
      ∃ sorted, fcMergeSort ((node :: nodes).map fun n => [n]) = [sorted] ∧
        sorted.Perm (node :: nodes) ∧
        Sorted sorted ∧ ∀ x, peers x sorted = peers x (node :: nodes) := by
  refine ⟨orders_fcCompare, ?_⟩
  have hflat : ((node :: nodes).map fun n => [n]).flatten = node :: nodes := by
    rw [← flatMap_def, flatMap_singleton']
  have hstart : Stage (node :: nodes) ((node :: nodes).map fun n => [n]) :=
    ⟨by rw [hflat], by simp [Sorted], fun x => by rw [hflat]⟩
  obtain ⟨sorted, hsort, hperm, hsorted, hstable⟩ := hstart.sort (by simp)
  simp only [flatten_cons, flatten_nil, append_nil] at hperm hstable
  exact ⟨sorted, hsort, hperm, hsorted sorted (by simp), hstable⟩

/-! ## The measures of a path -/

/-- `semanage_fc_find_meta`, at position `c` behind `escapeChars` backslashes. -/
def fcFindMeta (c escapeChars : Nat) : List (BitVec 8) → Int
  | [] => -1
  | ch :: rest =>
    if ch ∈ metaChars then c - escapeChars
    else if ch = backslash then
      match rest with
      | [] => -1
      | _ :: rest => fcFindMeta (c + 2) (escapeChars + 1) rest
    else fcFindMeta (c + 1) escapeChars rest

/-- The backslashes that `semanage_fc_sort` counts in a path. -/
def countEscapes (justSawEscape : Bool) : List (BitVec 8) → Nat
  | [] => 0
  | ch :: rest =>
    if ch = backslash then
      if justSawEscape then countEscapes false rest else countEscapes true rest + 1
    else countEscapes false rest

/-- How CIL writes the type of a file context. -/
def typeText : FileconType → Option CString
  | .any => none
  | .file => some (.ofString "--")
  | .dir => some (.ofString "-d")
  | .char => some (.ofString "-c")
  | .block => some (.ofString "-b")
  | .socket => some (.ofString "-s")
  | .pipe => some (.ofString "-p")
  | .symlink => some (.ofString "-l")

/-- The node that `semanage_fc_sort` makes of a line. -/
def fcNode (path : CString) (type : FileconType) (context : CString) : FcNode where
  path
  fileType := typeText type
  context
  firstMeta := fcFindMeta 0 0 path.bytes
  effectiveLen := path.strlen - countEscapes false path.bytes

/-- The last character is a backslash that is not itself escaped. -/
def endsInBackslash : List (BitVec 8) → Bool
  | [] => false
  | ch :: rest =>
    if ch = backslash then
      match rest with
      | [] => true
      | _ :: rest => endsInBackslash rest
    else endsInBackslash rest

/-- What the loop of CIL makes of a path of this length with so many escapes and its first special
character there. -/
structure Measured (fc : FcData) (len escapes : Nat) (firstMeta : Int) (r : FcData) : Prop where
  strLen : r.strLen + escapes = fc.strLen + len
  after : fc.isMeta = true → r.isMeta = true ∧ r.stemLen = fc.stemLen
  before : fc.isMeta = false →
    if r.isMeta then firstMeta = r.stemLen else firstMeta = -1 ∧
      r.stemLen + fc.strLen = fc.stemLen + r.strLen

theorem Measured.plain {fc : FcData} {len escapes k : Nat} {firstMeta : Int} {r : FcData}
    (h : Measured fc.plain len escapes firstMeta r) :
      Measured fc (len + 1 + k) (escapes + k) firstMeta r := by
  obtain ⟨hlen, hafter, hbefore⟩ := h
  simp only [FcData.plain] at hlen hafter hbefore
  refine ⟨by omega, fun hm => by simpa [hm] using hafter hm, fun hm => ?_⟩
  have := hbefore hm
  simp only [hm, Bool.false_eq_true, if_false] at this
  split_ifs at this ⊢ with hr
  · exact this
  · omega

theorem fcFillData_measured {fc : FcData} {path : List (BitVec 8)} {c e : Nat}
    (h : endsInBackslash path = false) (hc : fc.isMeta = false → fc.stemLen + e = c) :
    Measured fc path.length (countEscapes false path) (fcFindMeta c e path)
      (fcFillData fc path) := by
  induction path using endsInBackslash.induct generalizing fc c e with
  | case1 =>
    show Measured fc 0 0 (-1) fc
    exact ⟨rfl, fun hm => ⟨hm, rfl⟩, fun hm => by simp [hm]⟩
  | case2 => simp [endsInBackslash] at h
  | case3 d rest ih =>
    have hspecial : backslash ∉ metaChars := by decide
    have hfill : fcFillData fc (backslash :: d :: rest) = fcFillData fc.plain rest :=
      (if_neg hspecial).trans (if_pos rfl)
    have hfind : fcFindMeta c e (backslash :: d :: rest) = fcFindMeta (c + 2) (e + 1) rest :=
      (if_neg hspecial).trans (if_pos rfl)
    have hcount : countEscapes false (backslash :: d :: rest) = countEscapes false rest + 1 := by
      simp [countEscapes]
    rw [hfill, hfind, hcount]
    refine (ih (by simpa [endsInBackslash] using h) fun hm => ?_).plain
    simp only [FcData.plain] at hm ⊢
    simp only [hm, Bool.false_eq_true, if_false]
    have := hc hm
    omega
  | case4 ch rest hch ih =>
    have hrest : endsInBackslash rest = false := by
      rw [endsInBackslash.eq_def] at h
      simpa [hch] using h
    have hcount : countEscapes false (ch :: rest) = countEscapes false rest := by
      rw [countEscapes, if_neg hch]
    have hfill : fcFillData fc (ch :: rest) = if ch ∈ metaChars then
        fcFillData { fc with isMeta := true, strLen := fc.strLen + 1 } rest
          else fcFillData fc.plain rest := by
      cases rest <;> exact if_congr Iff.rfl rfl (if_neg hch)
    have hfind : fcFindMeta c e (ch :: rest) = if ch ∈ metaChars then
        (c - e : Int) else fcFindMeta (c + 1) e rest := by
      cases rest <;> exact if_congr Iff.rfl rfl (if_neg hch)
    rw [hcount, hfill, hfind]
    split_ifs with hspec
    · obtain ⟨hlen, hafter, -⟩ :=
        @ih { fc with isMeta := true, strLen := fc.strLen + 1 } c e hrest (by simp)
      obtain ⟨hismeta, hstem⟩ := hafter rfl
      refine ⟨by simp only [length_cons] at hlen ⊢; omega, fun _ => ⟨hismeta, hstem⟩, fun hm => ?_⟩
      rw [if_pos hismeta, hstem]
      have := hc hm
      simp only
      omega
    · refine Measured.plain (k := 0) (ih hrest fun hm => ?_)
      simp only [FcData.plain] at hm ⊢
      simp only [hm, Bool.false_eq_true, if_false]
      have := hc hm
      omega

/-! ## The two orders -/

theorem thenCmp_neg {α : Type} {f g : α → α → Int} {a b : α} :
    thenCmp f g a b < 0 ↔ f a b < 0 ∨ f a b = 0 ∧ g a b < 0 := by
  rw [thenCmp]
  split_ifs <;> omega

/-- Where libsemanage takes one file context for less specific than another, CIL puts it first,
too. -/
theorem postFileconCompare_of_fcCompare (f g : Filecon) (context context' : CString)
    (hf : endsInBackslash f.path.bytes = false) (hg : endsInBackslash g.path.bytes = false)
    (h : fcCompare (fcNode f.path f.type context) (fcNode g.path g.type context') < 0) :
    postFileconCompare f g < 0 := by
  obtain ⟨hlen, -, hmeta⟩ : Measured {} _ _ (fcFindMeta 0 0 f.path.bytes) f.data :=
    fcFillData_measured hf fun _ => rfl
  obtain ⟨hlen', -, hmeta'⟩ : Measured {} _ _ (fcFindMeta 0 0 g.path.bytes) g.data :=
    fcFillData_measured hg fun _ => rfl
  replace hmeta := hmeta rfl
  replace hmeta' := hmeta' rfl
  have htype : ∀ t t' : FileconType, (typeText t).isSome < (typeText t').isSome →
      t.ctorIdx < t'.ctorIdx := by
    intro t t'
    cases t <;> cases t' <;> decide
  replace htype := htype f.type g.type
  simp only [fcCompare, thenCmp_neg, Lib.keyCmp_neg, Lib.keyCmp_eq_zero, fcNode,
    CString.strlen] at h
  simp only [postFileconCompare, thenCmp_neg, Lib.keyCmp_neg, Lib.keyCmp_eq_zero]
  generalize f.data = r at *
  generalize g.data = r' at *
  obtain ⟨isMeta, stem, str⟩ := r
  obtain ⟨isMeta', stem', str'⟩ := r'
  have heff : f.path.bytes.length - countEscapes false f.path.bytes = str := by
    dsimp only at hlen
    omega
  have heff' : g.path.bytes.length - countEscapes false g.path.bytes = str' := by
    dsimp only at hlen'
    omega
  rw [heff, heff'] at h
  cases isMeta <;> cases isMeta' <;>
    simp only [if_true, if_false, Bool.false_eq_true] at hmeta hmeta' ⊢
  · -- without special characters the stem is the whole path
    obtain ⟨hm, hstem⟩ := hmeta
    obtain ⟨hm', hstem'⟩ := hmeta'
    simp only [hm, hm', lt_self_iff_false, false_or, true_and] at h ⊢
    rcases h with h | ⟨h, ht⟩
    · exact .inl (by omega)
    · exact .inr ⟨by omega, .inr ⟨h, .inl (htype ht)⟩⟩
  · rw [hmeta.1, hmeta'] at h
    simp at h
  · exact .inl (by decide)
  · rw [hmeta, hmeta'] at h
    simp only [Int.natCast_nonneg, if_true, lt_self_iff_false, false_or, true_and, Int.ofNat_lt,
      Int.natCast_inj] at h ⊢
    exact h.imp_right fun h => ⟨h.1, h.2.imp_right fun h => ⟨h.1, .inl (htype h.2)⟩⟩

/-- A directory with everything below it and the directory. -/
theorem postFileconCompare_of_fcCompare_dir :
    postFileconCompare ⟨.ofString "/a(/.*)?", .any, none⟩ ⟨.ofString "/a", .dir, none⟩ < 0 :=
  postFileconCompare_of_fcCompare _ _ (.ofString "c") (.ofString "c") (by decide +kernel)
    (by decide +kernel)
    (by decide +kernel)

end SELinux.Semanage
