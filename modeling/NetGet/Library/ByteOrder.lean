import Mathlib.Data.List.Lex

/-! # Byte strings in lexicographic order -/

namespace NetGet.Library.ByteOrder

scoped instance linearOrder : LinearOrder UInt8 where
  le_refl := UInt8.le_refl
  le_trans _ _ _ := UInt8.le_trans
  lt_iff_le_not_ge a b := by
    rw [UInt8.not_le]
    exact ⟨fun h => ⟨UInt8.le_of_lt h, h⟩, fun h => h.2⟩
  le_antisymm _ _ := UInt8.le_antisymm
  le_total := UInt8.le_total
  toDecidableLE := inferInstance
  toDecidableLT := inferInstance
  toDecidableEq := inferInstance

scoped instance isTrans_le : IsTrans (List UInt8) (· ≤ ·) := inferInstance

scoped instance antisymm_le : @Std.Antisymm (List UInt8) (· ≤ ·) := inferInstance

scoped instance total_le : @Std.Total (List UInt8) (· ≤ ·) := inferInstance

end NetGet.Library.ByteOrder
