import Mathlib

/-! # Finite maps with the operations of `std::collections::HashMap`

A map is a finite set of entries with distinct keys. Equality is extensional:
two maps with the same lookups are equal, whatever the insertion history was.
The iteration order of a `HashMap` is unspecified, so an iteration is any list
that enumerates the entries (`Enumerates`).
-/

namespace BitcoinClient

/-- `HashMap<K, V>`. -/
abbrev HashMap (K V : Type) := Finmap fun _ : K => V

namespace HashMap

variable {K V : Type} [DecidableEq K]

/-- `HashMap::get`. -/
def get (map : HashMap K V) (key : K) : Option V := map.lookup key

/-- `HashMap::contains_key`. -/
def containsKey (map : HashMap K V) (key : K) : Bool := (map.get key).isSome

/-- `HashMap::insert`; the old value under the key is dropped. -/
def insert (map : HashMap K V) (key : K) (value : V) : HashMap K V := Finmap.insert key value map

/-- `HashMap::remove`. -/
def remove (map : HashMap K V) (key : K) : HashMap K V := Finmap.erase key map

/-- The list `order` is one possible result of iterating over `map`. -/
def Enumerates (map : HashMap K V) (order : List (K × V)) : Prop :=
  (order : Multiset (K × V)) = map.entries.map fun entry => (entry.1, entry.2)

instance [DecidableEq V] (map : HashMap K V) (order : List (K × V)) :
    Decidable (map.Enumerates order) :=
  inferInstanceAs (Decidable (_ = _))

omit [DecidableEq K] in
theorem exists_enumerates (map : HashMap K V) : ∃ order, map.Enumerates order :=
  Quot.exists_rep _

/-- An iteration order for every map, as one iteration of the program may meet it. -/
structure Iteration (K V : Type) where
  entries : HashMap K V → List (K × V)
  enumerates : ∀ map : HashMap K V, map.Enumerates (entries map)

/-- The iteration that meets `order` on `map`. -/
noncomputable def Iteration.ofOrder [DecidableEq V] (map : HashMap K V) (order : List (K × V))
    (horder : map.Enumerates order) : Iteration K V where
  entries other := if other = map then order else other.exists_enumerates.choose
  enumerates other := by
    split
    next heq => exact heq ▸ horder
    next => exact other.exists_enumerates.choose_spec

/-! ## Lookups after each operation -/

theorem ext {left right : HashMap K V} (h : ∀ key, left.get key = right.get key) : left = right :=
  Finmap.ext_lookup h

@[simp] theorem get_empty (key : K) : HashMap.get (∅ : HashMap K V) key = none :=
  Finmap.lookup_empty key

theorem get_insert (map : HashMap K V) (key other : K) (value : V) :
    (map.insert key value).get other = if other = key then some value else map.get other := by
  by_cases heq : other = key
  · subst heq
    rw [if_pos rfl]
    exact Finmap.lookup_insert map
  · rw [if_neg heq]
    exact Finmap.lookup_insert_of_ne map heq

@[simp] theorem get_insert_self (map : HashMap K V) (key : K) (value : V) :
    (map.insert key value).get key = some value := by
  rw [get_insert, if_pos rfl]

theorem get_insert_ne {map : HashMap K V} {key other : K} {value : V} (hne : other ≠ key) :
    (map.insert key value).get other = map.get other := by
  rw [get_insert, if_neg hne]

/-- What is found after an insertion is the new value, or was there before. -/
theorem of_get_insert {map : HashMap K V} {key other : K} {value found : V}
    (h : (map.insert key value).get other = some found) :
    (other = key ∧ found = value) ∨ map.get other = some found := by
  rw [get_insert] at h
  split at h
  next heq => exact Or.inl ⟨heq, (Option.some.inj h).symm⟩
  next => exact Or.inr h

/-- What holds of every entry and of a new one holds of every entry after its insertion. -/
theorem forall_insert {map : HashMap K V} {key : K} {value : V} {property : K → V → Prop}
    (h : ∀ other found, map.get other = some found → property other found)
    (hnew : property key value) :
    ∀ other found, (map.insert key value).get other = some found → property other found := by
  intro other found hget
  rcases of_get_insert hget with ⟨rfl, rfl⟩ | hget
  · exact hnew
  · exact h other found hget

theorem get_remove (map : HashMap K V) (key other : K) :
    (map.remove key).get other = if other = key then none else map.get other := by
  by_cases heq : other = key
  · subst heq
    rw [if_pos rfl]
    exact Finmap.lookup_erase other map
  · rw [if_neg heq]
    exact Finmap.lookup_erase_ne heq

@[simp] theorem get_remove_self (map : HashMap K V) (key : K) :
    (map.remove key).get key = none := by
  rw [get_remove, if_pos rfl]

theorem get_remove_ne {map : HashMap K V} {key other : K} (hne : other ≠ key) :
    (map.remove key).get other = map.get other := by
  rw [get_remove, if_neg hne]

theorem forall_remove {map : HashMap K V} {key : K} {property : K → V → Prop}
    (h : ∀ other found, map.get other = some found → property other found) :
    ∀ other found, (map.remove key).get other = some found → property other found := by
  intro other found hget
  rw [get_remove] at hget
  split at hget
  next => cases hget
  next => exact h other found hget

theorem containsKey_iff {map : HashMap K V} {key : K} :
    map.containsKey key = true ↔ ∃ value, map.get key = some value := by
  rw [containsKey, Option.isSome_iff_exists]

theorem containsKey_of_get {map : HashMap K V} {key : K} {value : V}
    (h : map.get key = some value) : map.containsKey key = true :=
  containsKey_iff.mpr ⟨value, h⟩

@[simp] theorem containsKey_empty (key : K) :
    HashMap.containsKey (∅ : HashMap K V) key = false := by
  simp [containsKey]

theorem containsKey_eq_false_iff {map : HashMap K V} {key : K} :
    map.containsKey key = false ↔ map.get key = none := by
  rw [containsKey, Option.isSome_eq_false_iff, Option.isNone_iff_eq_none]

theorem containsKey_insert (map : HashMap K V) (key other : K) (value : V) :
    (map.insert key value).containsKey other = true ↔
      other = key ∨ map.containsKey other = true := by
  rw [containsKey, containsKey, get_insert]
  by_cases heq : other = key <;> simp [heq]

/-- Removing an absent key changes nothing. -/
theorem remove_eq_self {map : HashMap K V} {key : K} (h : map.get key = none) :
    map.remove key = map := by
  apply ext
  intro other
  rw [get_remove]
  split
  next heq => rw [heq, h]
  next => rfl

theorem Enumerates.mem_iff {map : HashMap K V} {order : List (K × V)} (h : map.Enumerates order)
    {key : K} {value : V} : (key, value) ∈ order ↔ map.get key = some value := by
  have hmem : (key, value) ∈ (order : Multiset (K × V)) ↔
      (⟨key, value⟩ : Sigma fun _ : K => V) ∈ map.entries := by
    rw [h, Multiset.mem_map]
    constructor
    · rintro ⟨⟨key', value'⟩, hentry, heq⟩
      cases heq
      exact hentry
    · exact fun hentry => ⟨_, hentry, rfl⟩
  rw [← Multiset.mem_coe, hmem]
  exact Finmap.lookup_eq_some_iff.symm

omit [DecidableEq K] in
/-- An enumeration meets every key once. -/
theorem Enumerates.nodup_keys {map : HashMap K V} {order : List (K × V)}
    (h : map.Enumerates order) : (order.map Prod.fst).Nodup := by
  have hkeys : ((order.map Prod.fst : List K) : Multiset K) = map.entries.keys := by
    rw [← Multiset.map_coe, h, Multiset.map_map]
    rfl
  rw [← Multiset.coe_nodup, hkeys]
  exact map.nodupKeys.nodup_keys

/-! ## Summing a weight over the values -/

/-- The sum of `weight` over all values of the map. -/
def total (weight : V → Nat) (map : HashMap K V) : Nat :=
  (map.entries.map fun entry => weight entry.2).sum

/-- The weight found under one key, zero when the key is absent. -/
def weightAt (weight : V → Nat) (map : HashMap K V) (key : K) : Nat :=
  (map.get key).elim 0 weight

omit [DecidableEq K] in
@[simp] theorem total_empty (weight : V → Nat) : total weight (∅ : HashMap K V) = 0 := rfl

theorem weightAt_of_get {weight : V → Nat} {map : HashMap K V} {key : K} {value : V}
    (h : map.get key = some value) : map.weightAt weight key = weight value := by
  rw [weightAt, h]
  rfl

theorem weightAt_remove_self (weight : V → Nat) (map : HashMap K V) (key : K) :
    (map.remove key).weightAt weight key = 0 := by
  rw [weightAt, get_remove_self]
  rfl

theorem weightAt_remove_ne {weight : V → Nat} {map : HashMap K V} {key other : K}
    (hne : other ≠ key) : (map.remove key).weightAt weight other = map.weightAt weight other := by
  rw [weightAt, weightAt, get_remove_ne hne]

private theorem sum_kerase (weight : V → Nat) (key : K) (entries : List (Sigma fun _ : K => V)) :
    ((entries.kerase key).map fun entry => weight entry.2).sum +
        (entries.dlookup key).elim 0 weight =
      (entries.map fun entry => weight entry.2).sum := by
  induction entries with
  | nil => simp
  | cons entry rest ih =>
      by_cases heq : key = entry.1
      · obtain ⟨first, value⟩ := entry
        subst heq
        simp [List.kerase_cons_eq, List.dlookup_cons_eq, Nat.add_comm]
      · rw [List.kerase_cons_ne heq, List.dlookup_cons_ne _ _ heq]
        simp only [List.map_cons, List.sum_cons]
        omega

/-- Removing a key takes away exactly the weight under it. -/
theorem total_remove (weight : V → Nat) (map : HashMap K V) (key : K) :
    (map.remove key).total weight + map.weightAt weight key = map.total weight := by
  induction map using Finmap.induction_on with
  | H entries =>
      simpa [total, remove, weightAt, get, AList.erase, AList.lookup] using
        sum_kerase weight key entries.entries

/-- Inserting adds the new weight and takes away the one it overwrites. -/
theorem total_insert (weight : V → Nat) (map : HashMap K V) (key : K) (value : V) :
    (map.insert key value).total weight + map.weightAt weight key =
      map.total weight + weight value := by
  have hremove := total_remove weight map key
  have hinsert : (map.insert key value).total weight =
      weight value + (map.remove key).total weight := by
    induction map using Finmap.induction_on with
    | H entries => simp [total, insert, remove, AList.erase]
  omega

/-! ## Removing and inserting many keys -/

/-- Remove the keys one after the other. -/
def removeAll (map : HashMap K V) (keys : List K) : HashMap K V := keys.foldl remove map

/-- Insert the entries one after the other. -/
def insertAll (map : HashMap K V) (entries : List (K × V)) : HashMap K V :=
  entries.foldl (fun map entry => map.insert entry.1 entry.2) map

/-- The value that the last entry with this key carries. -/
def lastValue (key : K) : List (K × V) → Option V
  | [] => none
  | entry :: rest => (lastValue key rest).or (if entry.1 = key then some entry.2 else none)

/-- The weight lost to overwriting while the entries are inserted: the weights of
values already in the map and of entries that a later one replaces. -/
def overwritten (weight : V → Nat) (map : HashMap K V) : List (K × V) → Nat
  | [] => 0
  | entry :: rest => map.weightAt weight entry.1 +
      overwritten weight (map.insert entry.1 entry.2) rest

theorem get_removeAll (map : HashMap K V) (keys : List K) (key : K) :
    (map.removeAll keys).get key = if key ∈ keys then none else map.get key := by
  induction keys generalizing map with
  | nil => simp [removeAll]
  | cons first rest ih =>
      change ((map.remove first).removeAll rest).get key = _
      rw [ih, get_remove]
      by_cases hrest : key ∈ rest <;> by_cases heq : key = first <;> simp [hrest, heq]

theorem get_insertAll (map : HashMap K V) (entries : List (K × V)) (key : K) :
    (map.insertAll entries).get key = (lastValue key entries).or (map.get key) := by
  induction entries generalizing map with
  | nil => simp [insertAll, lastValue]
  | cons entry rest ih =>
      change ((map.insert entry.1 entry.2).insertAll rest).get key = _
      rw [ih, get_insert, lastValue]
      by_cases heq : entry.1 = key
      · simp [heq]
      · simp [heq, Ne.symm heq]

theorem lastValue_eq_none_iff {key : K} {entries : List (K × V)} :
    lastValue key entries = none ↔ key ∉ entries.map Prod.fst := by
  induction entries with
  | nil => exact iff_of_true rfl List.not_mem_nil
  | cons entry rest ih =>
      rw [lastValue, Option.or_eq_none_iff, ih, List.map_cons, List.mem_cons, not_or, and_comm]
      refine and_congr_left fun _ => ?_
      by_cases heq : entry.1 = key
      · simp [heq]
      · simp [heq, Ne.symm heq]

/-- Without repeated keys the last entry with a key is the only one. -/
theorem lastValue_eq_some_iff {key : K} {value : V} {entries : List (K × V)}
    (hnodup : (entries.map Prod.fst).Nodup) :
    lastValue key entries = some value ↔ (key, value) ∈ entries := by
  induction entries with
  | nil => simp [lastValue]
  | cons entry rest ih =>
      obtain ⟨hfresh, hrest⟩ := List.nodup_cons.mp hnodup
      rw [lastValue, Option.or_eq_some_iff, ih hrest, List.mem_cons, lastValue_eq_none_iff]
      constructor
      · rintro (hmem | ⟨_, hfirst⟩)
        · exact Or.inr hmem
        · obtain ⟨hkey, hvalue⟩ := Option.ite_none_right_eq_some.mp hfirst
          exact Or.inl (Prod.ext hkey.symm (Option.some.inj hvalue).symm)
      · rintro (rfl | hmem)
        · exact Or.inr ⟨hfresh, if_pos rfl⟩
        · exact Or.inl hmem

/-- A key that is removed twice costs its weight once. -/
theorem total_removeAll (weight : V → Nat) (map : HashMap K V) (keys : List K) :
    (map.removeAll keys).total weight + (keys.dedup.map (map.weightAt weight)).sum =
      map.total weight := by
  induction keys generalizing map with
  | nil => simp [removeAll]
  | cons key rest ih =>
      have htail := ih (map.remove key)
      have hfirst := total_remove weight map key
      change ((map.remove key).removeAll rest).total weight + _ = _
      by_cases hmem : key ∈ rest
      · -- A later removal of the same key finds nothing more to take away.
        rw [List.dedup_cons_of_mem hmem]
        have hsplit : (rest.dedup.map (map.weightAt weight)).sum =
            map.weightAt weight key + (rest.dedup.map ((map.remove key).weightAt weight)).sum := by
          have hperm : rest.dedup.Perm (key :: rest.dedup.erase key) :=
            List.perm_cons_erase (List.mem_dedup.mpr hmem)
          have hrest : ∀ other ∈ rest.dedup.erase key,
              (map.remove key).weightAt weight other = map.weightAt weight other := by
            intro other hother
            apply weightAt_remove_ne
            rintro rfl
            exact (List.nodup_dedup rest).not_mem_erase hother
          rw [(hperm.map _).sum_eq, (hperm.map ((map.remove key).weightAt weight)).sum_eq]
          simp only [List.map_cons, List.sum_cons, weightAt_remove_self, Nat.zero_add]
          rw [List.map_congr_left hrest]
        omega
      · rw [List.dedup_cons_of_notMem hmem, List.map_cons, List.sum_cons]
        have hsame : rest.dedup.map ((map.remove key).weightAt weight) =
            rest.dedup.map (map.weightAt weight) := by
          apply List.map_congr_left
          intro other hother
          apply weightAt_remove_ne
          rintro rfl
          exact hmem (List.mem_dedup.mp hother)
        rw [hsame] at htail
        omega

/-- Entries under different keys that are not in the map overwrite nothing. -/
theorem overwritten_eq_zero (weight : V → Nat) {map : HashMap K V} {entries : List (K × V)}
    (hnodup : (entries.map Prod.fst).Nodup) (habsent : ∀ entry ∈ entries, map.get entry.1 = none) :
    map.overwritten weight entries = 0 := by
  induction entries generalizing map with
  | nil => rfl
  | cons entry rest ih =>
      rw [List.map_cons, List.nodup_cons] at hnodup
      have hrest : (map.insert entry.1 entry.2).overwritten weight rest = 0 := by
        refine ih hnodup.2 fun other hother => ?_
        have hne : other.1 ≠ entry.1 := fun heq =>
          hnodup.1 (heq ▸ List.mem_map_of_mem hother)
        rw [get_insert_ne hne]
        exact habsent other (List.mem_cons_of_mem _ hother)
      rw [overwritten, weightAt, habsent entry List.mem_cons_self, hrest]
      rfl

theorem total_insertAll (weight : V → Nat) (map : HashMap K V) (entries : List (K × V)) :
    (map.insertAll entries).total weight + map.overwritten weight entries =
      map.total weight + (entries.map fun entry => weight entry.2).sum := by
  induction entries generalizing map with
  | nil => simp [insertAll, overwritten]
  | cons entry rest ih =>
      have htail := ih (map.insert entry.1 entry.2)
      have hfirst := total_insert weight map entry.1 entry.2
      change ((map.insert entry.1 entry.2).insertAll rest).total weight + _ = _
      simp only [overwritten, List.map_cons, List.sum_cons]
      omega

end HashMap

end BitcoinClient
