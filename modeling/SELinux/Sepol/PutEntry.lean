import SELinux.Sepol.AvtabRead

/-! Words in a policy file as `put_entry` writes them, least significant byte first. What was
written is what the readers find at the front of the file. -/
namespace SELinux.Sepol

/-- `cpu_to_le16` and `put_entry` for one word. -/
def putLe16 (w : BitVec 16) : PolicyFile := [w.extractLsb' 0 8, w.extractLsb' 8 8]

/-- `cpu_to_le32` and `put_entry` for one word. -/
def putLe32 (w : BitVec 32) : PolicyFile :=
  [w.extractLsb' 0 8, w.extractLsb' 8 8, w.extractLsb' 16 8, w.extractLsb' 24 8]

def putLe32s (ws : List (BitVec 32)) : PolicyFile := ws.flatMap putLe32

@[simp] theorem nextU8_cons (b : BitVec 8) (fp : PolicyFile) : nextU8 (b :: fp) = some (b, fp) :=
  rfl

@[simp] theorem nextLe16_putLe16 (w : BitVec 16) (fp : PolicyFile) :
    nextLe16 (putLe16 w ++ fp) = some (w, fp) := by
  simp [BitVec.extractLsb'_append_extractLsb'_eq_extractLsb' (show 8 = 0 + 8 from rfl), putLe16,
    nextLe16]

@[simp] theorem nextLe32_putLe32 (w : BitVec 32) (fp : PolicyFile) :
    nextLe32 (putLe32 w ++ fp) = some (w, fp) := by
  simp [BitVec.extractLsb'_append_extractLsb'_eq_extractLsb' (show 24 = 16 + 8 from rfl),
    BitVec.extractLsb'_append_extractLsb'_eq_extractLsb' (show 16 = 8 + 8 from rfl),
    BitVec.extractLsb'_append_extractLsb'_eq_extractLsb' (show 8 = 0 + 8 from rfl), putLe32,
    nextLe32]

@[simp] theorem nextLe32s_putLe32s (ws : List (BitVec 32)) (fp : PolicyFile) :
    nextLe32s ws.length (putLe32s ws ++ fp) = some (ws, fp) := by
  induction ws with
  | nil => rfl
  | cons w ws ih =>
    have happ : putLe32s (w :: ws) ++ fp = putLe32 w ++ (putLe32s ws ++ fp) := by
      simp [putLe32s]
    simp [nextLe32s, happ, ih]

end SELinux.Sepol
