import Mathlib

/-! # Big-endian numbers

The bytes of a number, the most significant one first. Reading them undoes writing, and
the order of numbers of one width is the order of their bytes, whichever way the bytes
are cut.
-/

namespace BitcoinClient

/-- The big-endian bytes of a number, as a `hex!` literal writes them. Irreducible,
so that unification does not start to compute with concrete hashes. -/
@[irreducible] def beBytes (width value : Nat) : Vector UInt8 width :=
  Vector.ofFn fun i => UInt8.ofNat (value / 256 ^ (width - 1 - i.val))

/-- `from_be_bytes`. -/
def fromBeBytes (bytes : List UInt8) : Nat :=
  bytes.foldl (fun acc byte => acc * 256 + byte.toNat) 0

/-! ## Reading -/

@[simp] theorem fromBeBytes_nil : fromBeBytes [] = 0 := rfl

theorem fromBeBytes_concat (bytes : List UInt8) (last : UInt8) :
    fromBeBytes (bytes ++ [last]) = fromBeBytes bytes * 256 + last.toNat := by
  rw [fromBeBytes, List.foldl_append]
  rfl

theorem fromBeBytes_append (high low : List UInt8) :
    fromBeBytes (high ++ low) = fromBeBytes high * 256 ^ low.length + fromBeBytes low := by
  induction low using List.reverseRecOn with
  | nil => simp
  | append_singleton low last ih =>
      rw [← List.append_assoc, fromBeBytes_concat, fromBeBytes_concat, ih, List.length_append,
        List.length_singleton]
      ring

theorem fromBeBytes_lt (bytes : List UInt8) : fromBeBytes bytes < 256 ^ bytes.length := by
  induction bytes using List.reverseRecOn with
  | nil => simp
  | append_singleton bytes last ih =>
      have hlast : last.toNat < 256 := last.toNat_lt
      rw [fromBeBytes_concat, List.length_append, List.length_singleton, pow_succ]
      omega

theorem fromBeBytes_cons (first : UInt8) (bytes : List UInt8) :
    fromBeBytes (first :: bytes) = first.toNat * 256 ^ bytes.length + fromBeBytes bytes := by
  have hsplit := fromBeBytes_append [first] bytes
  rw [show fromBeBytes [first] = first.toNat from Nat.zero_add _] at hsplit
  exact hsplit

/-! ## Comparing -/

/-- The high parts decide, and then the low parts. -/
theorem compare_high_low {base high low high' low' : Nat} (hlow : low < base)
    (hlow' : low' < base) :
    compare (high * base + low) (high' * base + low') =
      (compare high high').then (compare low low') := by
  rcases lt_trichotomy high high' with hlt | rfl | hgt
  · have hstep : (high + 1) * base ≤ high' * base := Nat.mul_le_mul_right base hlt
    rw [Nat.succ_mul] at hstep
    rw [compare_lt_iff_lt.mpr hlt, Ordering.lt_then, compare_lt_iff_lt]
    omega
  · rw [compare_eq_iff_eq.mpr rfl, Ordering.eq_then]
    rcases lt_trichotomy low low' with hlt | rfl | hgt
    · rw [compare_lt_iff_lt.mpr hlt, compare_lt_iff_lt]
      omega
    · rw [compare_eq_iff_eq.mpr rfl, compare_eq_iff_eq.mpr rfl]
    · rw [compare_gt_iff_gt.mpr hgt, compare_gt_iff_gt]
      omega
  · have hstep : (high' + 1) * base ≤ high * base := Nat.mul_le_mul_right base hgt
    rw [Nat.succ_mul] at hstep
    rw [compare_gt_iff_gt.mpr hgt, Ordering.gt_then, compare_gt_iff_gt]
    omega

theorem compare_toNat (left right : UInt8) :
    compare left.toNat right.toNat = compare left right := by
  simp only [compare, compareOfLessAndEq, UInt8.lt_iff_toNat_lt, UInt8.toNat_inj]

/-- Numbers of one width compare like their bytes in lexicographic order. -/
theorem compare_fromBeBytes {left right : List UInt8} (hlength : left.length = right.length) :
    compare (fromBeBytes left) (fromBeBytes right) = compare left right := by
  induction left generalizing right with
  | nil =>
      obtain rfl := List.length_eq_zero_iff.mp hlength.symm
      rfl
  | cons first left ih =>
      cases right with
      | nil => cases hlength
      | cons first' right =>
          have hrest : left.length = right.length := Nat.succ.inj hlength
          have hlt := fromBeBytes_lt left
          rw [hrest] at hlt
          rw [fromBeBytes_cons, fromBeBytes_cons, hrest,
            compare_high_low hlt (fromBeBytes_lt right), ih hrest]
          change _ = List.compareLex compare (first :: left) (first' :: right)
          rw [List.compareLex_cons_cons]
          rw [compare_toNat]
          cases compare first first' <;> rfl

/-- Bytes cut in two compare like the whole. -/
theorem compare_fromBeBytes_append (high high' : List UInt8) {low low' : List UInt8}
    (hlength : low.length = low'.length) :
    compare (fromBeBytes (high ++ low)) (fromBeBytes (high' ++ low')) =
      (compare (fromBeBytes high) (fromBeBytes high')).then
        (compare (fromBeBytes low) (fromBeBytes low')) := by
  have hlt := fromBeBytes_lt low
  rw [hlength] at hlt
  rw [fromBeBytes_append, fromBeBytes_append, hlength, compare_high_low hlt (fromBeBytes_lt low')]

theorem fromBeBytes_inj {left right : List UInt8} (hlength : left.length = right.length) :
    fromBeBytes left = fromBeBytes right ↔ left = right := by
  rw [← compare_eq_iff_eq, compare_fromBeBytes hlength]
  exact Std.LawfulEqOrd.compare_eq_iff_eq

/-! ## Writing -/

theorem toList_beBytes_succ (width value : Nat) :
    (beBytes (width + 1) value).toList =
      (beBytes width (value / 256)).toList ++ [UInt8.ofNat value] := by
  unfold beBytes
  rw [Vector.toList_ofFn, Vector.toList_ofFn, List.ofFn_succ_last]
  simp only [Fin.val_castSucc, Fin.val_last, Nat.add_sub_cancel, Nat.sub_self, pow_zero,
    Nat.div_one]
  congr 1
  apply congrArg List.ofFn
  funext i
  rw [Nat.div_div_eq_div_mul, ← pow_succ', show width - 1 - i.val + 1 = width - i.val by omega]

/-- What was written is read. -/
theorem fromBeBytes_beBytes (width value : Nat) (h : value < 256 ^ width) :
    fromBeBytes (beBytes width value).toList = value := by
  induction width generalizing value with
  | zero =>
      rw [pow_zero] at h
      obtain rfl := Nat.lt_one_iff.mp h
      rw [List.length_eq_zero_iff.mp (Vector.length_toList : (beBytes 0 0).toList.length = 0)]
      rfl
  | succ width ih =>
      rw [pow_succ'] at h
      rw [toList_beBytes_succ, fromBeBytes_concat, ih _ (Nat.div_lt_of_lt_mul h),
        UInt8.toNat_ofNat', Nat.div_add_mod']

end BitcoinClient
