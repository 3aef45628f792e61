import Mathlib

/-! # Unsigned 32-bit sums in the two build modes

An overflowing `u32` addition wraps in a release build and panics in a build
with overflow checks. A panic is `none` here; what stops is up to the caller.
-/

namespace BitcoinClient

inductive Build where
  | release
  | overflowChecked
deriving DecidableEq, Repr

/-- `left + right` on `u32`. -/
def addU32 (build : Build) (left right : UInt32) : Option UInt32 :=
  match build with
  | .release => some (left + right)
  | .overflowChecked =>
    if left.toNat + right.toNat < 2 ^ 32 then some (left + right) else none

/-- `values.sum()` on `u32`, added up from `acc`. -/
def sumU32 (build : Build) (acc : UInt32) (values : List UInt32) : Option UInt32 :=
  values.foldlM (addU32 build) acc

@[simp] theorem addU32_release (left right : UInt32) :
    addU32 .release left right = some (left + right) := rfl

theorem addU32_checked_eq_some {left right sum : UInt32}
    (h : addU32 .overflowChecked left right = some sum) :
    sum.toNat = left.toNat + right.toNat := by
  simp only [addU32, Option.ite_none_right_eq_some, Option.some.injEq] at h
  obtain ⟨hfit, rfl⟩ := h
  rw [UInt32.toNat_add, Nat.mod_eq_of_lt hfit]

/-- In either build a sum that fits is exact. -/
theorem addU32_of_lt (build : Build) {left right : UInt32}
    (h : left.toNat + right.toNat < 2 ^ 32) :
    ∃ sum, addU32 build left right = some sum ∧ sum.toNat = left.toNat + right.toNat := by
  refine ⟨left + right, ?_, ?_⟩
  · cases build with
    | release => rfl
    | overflowChecked => exact if_pos h
  · rw [UInt32.toNat_add, Nat.mod_eq_of_lt h]

/-- In either build a sum is at most the exact one. -/
theorem addU32_toNat_le {build : Build} {left right sum : UInt32}
    (h : addU32 build left right = some sum) : sum.toNat ≤ left.toNat + right.toNat := by
  cases build with
  | release =>
      obtain rfl := Option.some.inj h
      rw [UInt32.toNat_add]
      exact Nat.mod_le _ _
  | overflowChecked => exact Nat.le_of_eq (addU32_checked_eq_some h)

theorem sumU32_release (acc : UInt32) (values : List UInt32) :
    sumU32 .release acc values = some (values.foldl (· + ·) acc) := by
  induction values generalizing acc with
  | nil => rfl
  | cons value rest ih => exact ih (acc + value)

theorem sumU32_checked_eq_some {acc sum : UInt32} {values : List UInt32}
    (h : sumU32 .overflowChecked acc values = some sum) :
    sum.toNat = acc.toNat + (values.map UInt32.toNat).sum := by
  induction values generalizing acc with
  | nil =>
      obtain rfl := Option.some.inj h
      simp
  | cons value rest ih =>
      obtain ⟨next, hnext, hrest⟩ := Option.bind_eq_some_iff.mp h
      rw [ih hrest, addU32_checked_eq_some hnext, List.map_cons, List.sum_cons, Nat.add_assoc]

/-- In either build a sum that fits is exact. -/
theorem sumU32_of_lt (build : Build) {acc : UInt32} {values : List UInt32}
    (h : acc.toNat + (values.map UInt32.toNat).sum < 2 ^ 32) :
    ∃ sum, sumU32 build acc values = some sum ∧
      sum.toNat = acc.toNat + (values.map UInt32.toNat).sum := by
  induction values generalizing acc with
  | nil => exact ⟨acc, rfl, by simp⟩
  | cons value rest ih =>
      rw [List.map_cons, List.sum_cons] at h ⊢
      have hfirst : acc.toNat + value.toNat < 2 ^ 32 := by omega
      obtain ⟨next, hadd, hnext⟩ := addU32_of_lt build hfirst
      have hrest : next.toNat + (rest.map UInt32.toNat).sum < 2 ^ 32 := by omega
      obtain ⟨sum, hsum, hexact⟩ := ih hrest
      exact ⟨sum, Option.bind_eq_some_iff.mpr ⟨next, hadd, hsum⟩, by omega⟩

end BitcoinClient
