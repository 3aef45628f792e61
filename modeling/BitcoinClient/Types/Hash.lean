import BitcoinClient.Foundation.BigEndian

/-! # 32-byte hashes and 20-byte addresses -/

namespace BitcoinClient

/-- A SHA256 hash, a big-endian 256-bit number. -/
structure H256 where
  bytes : Vector UInt8 32
deriving DecidableEq, Repr

namespace H256

def hex (value : Nat) : H256 := ⟨beBytes 32 value⟩

instance : Inhabited H256 := ⟨hex 0⟩

/-- `Ord::cmp`: the upper 16 bytes decide, then the lower 16. -/
def cmp (left right : H256) : Ordering :=
  let leftHigher := fromBeBytes (left.bytes.toList.take 16)
  let leftLower := fromBeBytes (left.bytes.toList.drop 16)
  let rightHigher := fromBeBytes (right.bytes.toList.take 16)
  let rightLower := fromBeBytes (right.bytes.toList.drop 16)
  match compare leftHigher rightHigher with
  | .eq => compare leftLower rightLower
  | higher => higher

/-- `<=`, which `PartialOrd` derives from `cmp`. -/
instance : LE H256 := ⟨fun left right => left.cmp right ≠ .gt⟩

instance (left right : H256) : Decidable (left ≤ right) :=
  inferInstanceAs (Decidable (left.cmp right ≠ .gt))

/-- The 256-bit number. -/
def toNat (hash : H256) : Nat := fromBeBytes hash.bytes.toList

theorem toNat_inj {left right : H256} : left.toNat = right.toNat ↔ left = right := by
  have hlength : left.bytes.toList.length = right.bytes.toList.length := by
    rw [Vector.length_toList, Vector.length_toList]
  obtain ⟨leftBytes⟩ := left
  obtain ⟨rightBytes⟩ := right
  rw [toNat, toNat, fromBeBytes_inj hlength, Vector.toList_inj, H256.mk.injEq]

/-- The two halves of the bytes compare like the whole. -/
theorem cmp_eq_compare_toNat (left right : H256) :
    left.cmp right = compare left.toNat right.toNat := by
  have hhalf : (left.bytes.toList.drop 16).length = (right.bytes.toList.drop 16).length := by
    rw [List.length_drop, List.length_drop, Vector.length_toList, Vector.length_toList]
  have hcut := compare_fromBeBytes_append (left.bytes.toList.take 16) (right.bytes.toList.take 16)
    hhalf
  rw [List.take_append_drop, List.take_append_drop] at hcut
  rw [toNat, toNat, hcut, cmp]
  cases compare (fromBeBytes (left.bytes.toList.take 16))
    (fromBeBytes (right.bytes.toList.take 16)) <;> rfl

/-- The order on hashes is that of the 256-bit numbers, which is that of the bytes. -/
theorem cmp_numeric (left right : H256) :
    left.cmp right = compare left.toNat right.toNat ∧
      left.cmp right = compare left.bytes.toList right.bytes.toList ∧
      (left.cmp right = .eq ↔ left = right) ∧ (left ≤ right ↔ left.toNat ≤ right.toNat) := by
  have hlength : left.bytes.toList.length = right.bytes.toList.length := by
    rw [Vector.length_toList, Vector.length_toList]
  have hnumeric := cmp_eq_compare_toNat left right
  refine ⟨hnumeric, ?_, ?_, ?_⟩
  · rw [hnumeric, toNat, toNat, compare_fromBeBytes hlength]
  · rw [hnumeric, compare_eq_iff_eq, toNat_inj]
  · change left.cmp right ≠ .gt ↔ _
    rw [hnumeric, Ne, compare_gt_iff_gt, not_lt]

end H256

/-- A 20-byte address. -/
structure Address where
  bytes : Vector UInt8 20
deriving DecidableEq, Repr

end BitcoinClient
