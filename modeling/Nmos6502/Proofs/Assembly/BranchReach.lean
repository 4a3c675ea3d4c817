import Nmos6502.Assembly.Statement
import Nmos6502.Disassembly.Decoded

/-!
# How far a branch reaches

The operand byte of a branch and the address that it leads to determine each other
(`branchOffset_eq_ok_iff`): the offset of a target is the byte that leads there, and there is none
only if no byte does (`branchOffset_eq_error_iff`). Where a byte leads can be told in whole numbers
(`reach`, `toNat_branchTarget`).
-/

namespace Nmos6502

/-! ### Signed bytes -/

theorem toInt_toInt8 (offset : UInt8) : offset.toInt8.toInt =
    if offset.toNat < 128 then (offset.toNat : Int) else offset.toNat - 256 := by
  have hb := offset.toNat_lt
  have hbits : offset.toInt8.toInt = offset.toBitVec.toInt := rfl
  have hcond : offset.toBitVec.toInt = if 2 * offset.toNat < 256 then (offset.toNat : Int)
      else offset.toNat - 256 := BitVec.toInt_eq_toNat_cond _
  rw [hbits, hcond]
  split <;> split <;> omega

theorem toNat_signExtend (offset : UInt8) : (signExtend offset).toNat =
    if offset.toNat < 128 then offset.toNat else offset.toNat + 0xFF00 := by
  have hb := offset.toNat_lt
  unfold signExtend
  simp only [UInt8.lt_iff_toNat_lt, UInt8.reduceToNat]
  split
  · rw [UInt8.toNat_toUInt16]
  · simp only [UInt16.toNat_add, UInt8.toNat_toUInt16, UInt16.reduceToNat]
    omega

/-- The address that an operand byte leads to, in whole numbers: a branch counts from the instruction
behind it, the byte is signed, and the address space wraps around. -/
def reach (position : UInt16) (offset : UInt8) : Int :=
  (position.toNat + 2 + offset.toInt8.toInt) % 0x10000

/-- **Where a branch leads.** -/
theorem toNat_branchTarget (position : UInt16) (offset : UInt8) :
    ((branchTarget position offset).toNat : Int) = reach position offset := by
  have hs := toNat_signExtend offset
  unfold branchTarget reach
  rw [toInt_toInt8]
  simp only [UInt16.toNat_add, hs, UInt16.reduceToNat]
  split <;> omega

theorem branchTarget_eq_iff_reach {position target : UInt16} {offset : UInt8} :
    branchTarget position offset = target ↔ reach position offset = target.toNat := by
  rw [← toNat_branchTarget, Int.natCast_inj, UInt16.toNat_inj]

/-! ### The operand byte for a target -/

/-- A distance is that of a signed byte exactly when it is small on either side of zero, and then
its low byte is the signed byte. -/
theorem signExtend_eq_iff {offset : UInt8} {distance : UInt16} : signExtend offset = distance ↔
    (distance < 0x80 ∨ 0xFF80 ≤ distance) ∧ lowByte distance = offset := by
  have hb := offset.toNat_lt
  have hd := distance.toNat_lt
  have hs := toNat_signExtend offset
  simp only [← UInt16.toNat_inj, ← UInt8.toNat_inj, toNat_lowByte, UInt16.lt_iff_toNat_lt,
    UInt16.le_iff_toNat_le, UInt16.reduceToNat, hs]
  split <;> omega

theorem branchTarget_eq_iff {position target : UInt16} {offset : UInt8} :
    branchTarget position offset = target ↔ signExtend offset = target - (position + 2) := by
  unfold branchTarget
  rw [UInt16.eq_sub_iff_add_eq, UInt16.add_comm]

/-- **The operand byte of a branch** is the one that leads to its target. -/
theorem branchOffset_eq_ok_iff {position target : UInt16} {offset : UInt8} :
    branchOffset position target = .ok offset ↔ branchTarget position offset = target := by
  rw [branchTarget_eq_iff, signExtend_eq_iff]
  unfold branchOffset
  dsimp only
  split
  · next h => simp [h]
  · next h => simp [h]

/-- A branch is refused exactly if no byte leads to its target. -/
theorem branchOffset_eq_error_iff {position target : UInt16} {problem : Problem} :
    branchOffset position target = .error problem ↔
      problem = .branchOutOfRange target (position + 2) ∧
        ∀ offset, branchTarget position offset ≠ target := by
  have hok : ∀ offset, branchTarget position offset = target ↔
      branchOffset position target = .ok offset := fun _ => branchOffset_eq_ok_iff.symm
  simp only [ne_eq, hok]
  unfold branchOffset
  dsimp only
  split <;> simp [eq_comm]

/-- A branch that is refused is refused for its reach. -/
theorem kind_of_branchOffset_eq_error {position target : UInt16} {problem : Problem}
    (h : branchOffset position target = .error problem) : problem.kind = .range := by
  unfold branchOffset at h
  dsimp only at h
  split at h
  · cases h
  · cases h
    rfl

end Nmos6502
