import Mathlib

/-! # What a pool of items derives from a store

The items form a forest: each has a key, names the key of its parent, and turns
the value of its parent into its own or is rejected. They arrive in any order, and
one whose parent has no value yet has to wait.

`Derives` is the least relation that is closed under the items of a pool. A store
that holds derived values only, and in which each item has a value, waits or was
rejected, is determined by the pool (`Settled.unique`), whatever the order was.
-/

namespace BitcoinClient

/-- How items extend a store. -/
structure Derivation (Item Key Value : Type) where
  key : Item → Key
  parent : Item → Key
  /-- The item's value from that of its parent, unless it is rejected. -/
  extend : Item → Value → Option Value

namespace Derivation

variable {Item Key Value : Type} (rules : Derivation Item Key Value)

inductive Derives (start : Key → Option Value) (pool : Set Item) : Key → Value → Prop
  | start {key : Key} {value : Value} : start key = some value → Derives start pool key value
  | extend {item : Item} {value next : Value} : item ∈ pool →
      Derives start pool (rules.parent item) value → rules.extend item value = some next →
      Derives start pool (rules.key item) next

/-- Every item of the pool has a key of its own. -/
structure Distinct (start : Key → Option Value) (pool : Set Item) : Prop where
  fresh : ∀ item ∈ pool, start (rules.key item) = none
  key : ∀ item ∈ pool, ∀ other ∈ pool, rules.key item = rules.key other → item = other

/-- The parent of the item has a value that the item cannot extend. -/
def Rejected (start : Key → Option Value) (pool : Set Item) (item : Item) : Prop :=
  ∃ value, rules.Derives start pool (rules.parent item) value ∧ rules.extend item value = none

/-- A store after all items of the pool have been handled. -/
structure Settled (start : Key → Option Value) (pool : Set Item) (store : Key → Option Value) :
    Prop where
  sound : ∀ key value, store key = some value → rules.Derives start pool key value
  kept : ∀ key value, start key = some value → store key = some value
  handled : ∀ item ∈ pool, (store (rules.key item)).isSome ∨
    store (rules.parent item) = none ∨ rules.Rejected start pool item

variable {rules} {start store store' : Key → Option Value} {pool : Set Item}

/-- Where keys are distinct, a key has at most one value. -/
theorem Derives.unique {key : Key} {value value' : Value} (hdistinct : rules.Distinct start pool)
    (h : rules.Derives start pool key value) (h' : rules.Derives start pool key value') :
    value = value' := by
  induction h generalizing value' with
  | start hstart =>
      cases h' with
      | start hstart' => exact Option.some.inj (hstart.symm.trans hstart')
      | extend hitem _ _ =>
          rw [hdistinct.fresh _ hitem] at hstart
          cases hstart
  | @extend item value next hitem _ hextend ih =>
      generalize hkey : rules.key item = key at h'
      cases h' with
      | start hstart' =>
          rw [← hkey, hdistinct.fresh item hitem] at hstart'
          cases hstart'
      | @extend other otherValue _ hother hparent hextend' =>
          obtain rfl := hdistinct.key item hitem other hother hkey
          obtain rfl := ih hparent
          exact Option.some.inj (hextend.symm.trans hextend')

/-- A settled store holds exactly what the pool derives. -/
theorem Settled.eq_some_iff (hdistinct : rules.Distinct start pool)
    (h : rules.Settled start pool store) {key : Key} {value : Value} :
    store key = some value ↔ rules.Derives start pool key value := by
  refine ⟨h.sound key value, fun hderives => ?_⟩
  induction hderives with
  | start hstart => exact h.kept _ _ hstart
  | @extend item value next hitem hparent hextend ih =>
      rcases h.handled item hitem with hstored | hwaits | ⟨value', hparent', hrejected⟩
      · obtain ⟨stored, hstored⟩ := Option.isSome_iff_exists.mp hstored
        rw [hstored, (h.sound _ _ hstored).unique hdistinct (.extend hitem hparent hextend)]
      · rw [ih] at hwaits
        cases hwaits
      · rw [hparent'.unique hdistinct hparent, hextend] at hrejected
        cases hrejected

/-- All ways to handle the pool lead to the same store. -/
theorem Settled.unique (hdistinct : rules.Distinct start pool)
    (h : rules.Settled start pool store) (h' : rules.Settled start pool store') :
    store = store' := by
  funext key
  apply Option.ext
  intro value
  rw [h.eq_some_iff hdistinct, h'.eq_some_iff hdistinct]

/-! ## Depth -/

section Depth

variable (rules start pool)

/-- The same items, with the number of steps that led to a value. -/
def counted : Derivation Item Key (Value × Nat) where
  key := rules.key
  parent := rules.parent
  extend item counted := (rules.extend item counted.1).map fun next => (next, counted.2 + 1)

/-- The value is derived in that many steps. -/
def DerivesIn (steps : Nat) (key : Key) (value : Value) : Prop :=
  rules.counted.Derives (fun key => (start key).map fun value => (value, 0)) pool key
    (value, steps)

open scoped Classical in
/-- The number of steps to the value of a key. -/
noncomputable def depth (key : Key) : Nat :=
  if h : ∃ steps value, rules.DerivesIn start pool steps key value then h.choose else 0

variable {rules start pool}

theorem DerivesIn.extend {item : Item} {value next : Value} {steps : Nat} (hitem : item ∈ pool)
    (hparent : rules.DerivesIn start pool steps (rules.parent item) value)
    (hextend : rules.extend item value = some next) :
    rules.DerivesIn start pool (steps + 1) (rules.key item) next := by
  refine Derives.extend hitem hparent ?_
  simp only [counted, hextend, Option.map_some]

theorem Derives.exists_steps {key : Key} {value : Value} (h : rules.Derives start pool key value) :
    ∃ steps, rules.DerivesIn start pool steps key value := by
  induction h with
  | start hstart => exact ⟨0, .start (by rw [hstart, Option.map_some])⟩
  | @extend item value next hitem _ hextend ih =>
      obtain ⟨steps, hsteps⟩ := ih
      exact ⟨steps + 1, hsteps.extend hitem hextend⟩

theorem Distinct.counted (h : rules.Distinct start pool) :
    rules.counted.Distinct (fun key => (start key).map fun value => (value, 0)) pool where
  fresh item hitem := by
    rw [Option.map_eq_none_iff]
    exact h.fresh item hitem
  key := h.key

theorem depth_eq {steps : Nat} {key : Key} {value : Value} (hdistinct : rules.Distinct start pool)
    (h : rules.DerivesIn start pool steps key value) : rules.depth start pool key = steps := by
  have hexists : ∃ steps value, rules.DerivesIn start pool steps key value := ⟨steps, value, h⟩
  obtain ⟨value', hchosen⟩ := hexists.choose_spec
  rw [depth, dif_pos hexists]
  exact congrArg Prod.snd (Derives.unique hdistinct.counted hchosen h)

/-- An item is one step deeper than its parent. -/
theorem depth_extend {item : Item} {value next : Value} (hdistinct : rules.Distinct start pool)
    (hitem : item ∈ pool) (hparent : rules.Derives start pool (rules.parent item) value)
    (hextend : rules.extend item value = some next) :
    rules.depth start pool (rules.key item) = rules.depth start pool (rules.parent item) + 1 := by
  obtain ⟨steps, hsteps⟩ := hparent.exists_steps
  rw [depth_eq hdistinct hsteps, depth_eq hdistinct (hsteps.extend hitem hextend)]

end Depth

end Derivation

end BitcoinClient
