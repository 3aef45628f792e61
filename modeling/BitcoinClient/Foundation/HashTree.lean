import Mathlib

/-! # Hash trees

A hash tree is built over its leaves level by level, and a level of odd length gets its
last node twice. `climb` recomputes a root from one digest and the digests next to its
way up, and `opening` reads both off a tree. When no two of the hashed pairs collide, only
the openings of a tree climb to its root (`climb_eq_root_iff`), and a root determines its
tree (`eq_of_root_eq`).
-/

namespace BitcoinClient

/-- A binary tree with values at its leaves. -/
inductive HashTree (α : Type) where
  | leaf (value : α)
  | node (left right : HashTree α)
deriving DecidableEq, Repr

namespace HashTree

variable {α β : Type}

def map (f : α → β) : HashTree α → HashTree β
  | leaf value => leaf (f value)
  | node left right => node (left.map f) (right.map f)

def leaves : HashTree α → List α
  | leaf value => [value]
  | node left right => left.leaves ++ right.leaves

/-- All leaves are `depth` levels below the root. -/
def Perfect : Nat → HashTree α → Prop
  | 0, leaf _ => True
  | depth + 1, node left right => left.Perfect depth ∧ right.Perfect depth
  | _, _ => False

section Hashing

variable (hash : α → α → α)

def root : HashTree α → α
  | leaf digest => digest
  | node left right => hash left.root right.root

/-- The pairs that are hashed for the root. -/
def pairs : HashTree α → List (α × α)
  | leaf _ => []
  | node left right => (left.root hash, right.root hash) :: (left.pairs ++ right.pairs)

/-- A digest and the one next to it: the bit of the index says which is the left one. -/
def beside (digest : α) (index : Nat) (sibling : α) : α × α :=
  if index % 2 = 0 then (digest, sibling) else (sibling, digest)

/-- The pairs that are hashed on the way up. -/
def climbPairs (digest : α) (index : Nat) : List α → List (α × α)
  | [] => []
  | sibling :: path =>
    let pair := beside digest index sibling
    pair :: climbPairs (hash pair.1 pair.2) (index / 2) path

/-- The digest that is reached on the way up. -/
def climb (digest : α) (index : Nat) : List α → α
  | [] => digest
  | sibling :: path =>
    let pair := beside digest index sibling
    climb (hash pair.1 pair.2) (index / 2) path

/-- The node `steps` levels below the root, as the low bits of the index lead to it, and the
digests next to the way, the deepest one first. -/
def descend : Nat → Nat → HashTree α → Option (HashTree α × List α)
  | 0, _, tree => some (tree, [])
  | _ + 1, _, leaf _ => none
  | steps + 1, index, node left right =>
    if index / 2 ^ steps % 2 = 0 then
      (descend steps index left).map fun (tree, path) => (tree, path ++ [right.root hash])
    else
      (descend steps index right).map fun (tree, path) => (tree, path ++ [left.root hash])

/-- The digest of that node, with the same path. -/
def opening (steps index : Nat) (tree : HashTree α) : Option (α × List α) :=
  (tree.descend hash steps index).map fun (tree, path) => (tree.root hash, path)

end Hashing

/-- A level of odd length other than one gets its last node twice. -/
def padLast (nodes : List α) : List α :=
  match nodes.getLast? with
  | some last => if nodes.length ≠ 1 ∧ nodes.length % 2 ≠ 0 then nodes ++ [last] else nodes
  | none => nodes

/-- The next level; a last node without a partner is lost. -/
def pairUp : List (HashTree α) → List (HashTree α)
  | [] => []
  | [_] => []
  | left :: right :: rest => node left right :: pairUp rest

/-- Go on level by level until one node is left. -/
def assemble : Nat → List (HashTree α) → Option (HashTree α)
  | _, [tree] => some tree
  | 0, _ => none
  | fuel + 1, nodes => assemble fuel (padLast (pairUp nodes))

/-- The tree over a list of leaves, which may not be empty. -/
def ofLeaves (values : List α) : Option (HashTree α) :=
  assemble values.length (padLast (values.map leaf))

/-- The trees that `assemble` builds, with the number of levels above the nodes. -/
inductive Assembles : Nat → List (HashTree α) → HashTree α → Prop
  | single (tree : HashTree α) : Assembles 0 [tree] tree
  | level {depth : Nat} {nodes : List (HashTree α)} {tree : HashTree α} :
      nodes.length % 2 = 0 → Assembles depth (padLast (pairUp nodes)) tree →
      Assembles (depth + 1) nodes tree

/-! ## Levels -/

theorem padLast_map (f : α → β) (nodes : List α) :
    padLast (nodes.map f) = (padLast nodes).map f := by
  unfold padLast
  rw [List.getLast?_map, List.length_map]
  cases nodes.getLast? with
  | none => rfl
  | some last =>
      simp only [Option.map_some]
      split
      next => rw [List.map_append, List.map_singleton]
      next => rfl

theorem length_padLast (nodes : List α) :
    (padLast nodes).length = 1 ∨ (padLast nodes).length % 2 = 0 := by
  unfold padLast
  cases hlast : nodes.getLast? with
  | none => exact .inr (by rw [List.getLast?_eq_none_iff.mp hlast, List.length_nil])
  | some last =>
      dsimp only
      split
      next hodd =>
        rw [List.length_append, List.length_singleton]
        omega
      next => omega

theorem prefix_padLast (nodes : List α) : nodes <+: padLast nodes := by
  unfold padLast
  cases nodes.getLast? with
  | none => exact List.prefix_rfl
  | some last =>
      dsimp only
      split
      next => exact List.prefix_append nodes [last]
      next => exact List.prefix_rfl

/-- Padding keeps the positions of the nodes. -/
theorem getElem?_padLast {nodes : List α} {i : Nat} {value : α} (h : nodes[i]? = some value) :
    (padLast nodes)[i]? = some value := by
  obtain ⟨copies, hcopies⟩ := prefix_padLast nodes
  obtain ⟨hlt, _⟩ := List.getElem?_eq_some_iff.mp h
  rw [← hcopies, List.getElem?_append_left hlt]
  exact h

theorem length_padLast_le (nodes : List α) : (padLast nodes).length ≤ nodes.length + 1 := by
  unfold padLast
  cases nodes.getLast? with
  | none => exact Nat.le_succ _
  | some last =>
      dsimp only
      split
      next => rw [List.length_append, List.length_singleton]
      next => exact Nat.le_succ _

theorem padLast_eq_self {nodes : List α} (h : nodes.length = 1 ∨ nodes.length % 2 = 0) :
    padLast nodes = nodes := by
  unfold padLast
  cases nodes.getLast? with
  | none => rfl
  | some last =>
      dsimp only
      rw [if_neg (by omega)]

theorem mem_padLast {nodes : List α} {value : α} : value ∈ padLast nodes ↔ value ∈ nodes := by
  refine ⟨fun hmem => ?_, fun hmem => (prefix_padLast nodes).subset hmem⟩
  unfold padLast at hmem
  cases hlast : nodes.getLast? with
  | none =>
      rw [hlast] at hmem
      exact hmem
  | some last =>
      simp only [hlast] at hmem
      split at hmem
      next =>
        rcases List.mem_append.mp hmem with hmem | hmem
        · exact hmem
        · exact List.mem_singleton.mp hmem ▸ List.mem_of_getLast? hlast
      next => exact hmem

theorem length_pairUp (nodes : List (HashTree α)) : (pairUp nodes).length = nodes.length / 2 := by
  induction nodes using pairUp.induct with
  | case1 => simp [pairUp]
  | case2 tree => simp [pairUp]
  | case3 left right rest ih =>
      rw [pairUp, List.length_cons, ih, List.length_cons, List.length_cons]
      omega

theorem pairUp_map (f : α → β) (nodes : List (HashTree α)) :
    pairUp (nodes.map (map f)) = (pairUp nodes).map (map f) := by
  induction nodes using pairUp.induct with
  | case1 => rfl
  | case2 tree => rfl
  | case3 left right rest ih =>
      simp only [List.map_cons, pairUp, ih, map]

/-- The nodes of a level are the children of the next one, in order. -/
theorem pairUp_leaves {nodes : List (HashTree α)} (heven : nodes.length % 2 = 0) :
    (pairUp nodes).flatMap leaves = nodes.flatMap leaves := by
  induction nodes using pairUp.induct with
  | case1 => rfl
  | case2 tree => cases heven
  | case3 left right rest ih =>
      have hrest : rest.length % 2 = 0 := by
        rw [List.length_cons, List.length_cons] at heven
        omega
      simp only [pairUp, List.flatMap_cons, ih hrest, leaves, List.append_assoc]

theorem getElem?_pairUp {nodes : List (HashTree α)} {i : Nat} {left right : HashTree α}
    (hleft : nodes[2 * i]? = some left) (hright : nodes[2 * i + 1]? = some right) :
    (pairUp nodes)[i]? = some (node left right) := by
  induction nodes using pairUp.induct generalizing i with
  | case1 => cases hleft
  | case2 tree => simp at hright
  | case3 first second rest ih =>
      cases i with
      | zero =>
          obtain rfl := Option.some.inj hleft
          obtain rfl := Option.some.inj hright
          rfl
      | succ i => exact ih hleft hright

theorem mem_pairUp {nodes : List (HashTree α)} {tree : HashTree α} (hmem : tree ∈ pairUp nodes) :
    ∃ left ∈ nodes, ∃ right ∈ nodes, tree = node left right := by
  induction nodes using pairUp.induct with
  | case1 => cases hmem
  | case2 tree => cases hmem
  | case3 left right rest ih =>
      rcases List.mem_cons.mp hmem with rfl | hmem
      · exact ⟨left, List.mem_cons_self, right, List.mem_cons_of_mem _ List.mem_cons_self, rfl⟩
      · obtain ⟨left', hleft', right', hright', heq⟩ := ih hmem
        exact ⟨left', List.mem_cons_of_mem _ (List.mem_cons_of_mem _ hleft'), right',
          List.mem_cons_of_mem _ (List.mem_cons_of_mem _ hright'), heq⟩

/-- Each level is shorter than the one below it. -/
theorem length_padLast_pairUp {nodes : List (HashTree α)} (hlength : 2 ≤ nodes.length) :
    (padLast (pairUp nodes)).length < nodes.length := by
  have hpaired := length_pairUp nodes
  have hpadded := length_padLast_le (pairUp nodes)
  by_cases htwo : nodes.length = 2
  · rw [padLast_eq_self (by omega)]
    omega
  · omega

/-! ## Assembled trees -/

/-- As many levels as there are nodes are enough. -/
theorem exists_assembles {fuel : Nat} {nodes : List (HashTree α)} (hne : nodes ≠ [])
    (hlength : nodes.length = 1 ∨ nodes.length % 2 = 0) (hfuel : nodes.length ≤ fuel + 1) :
    ∃ depth tree, assemble fuel nodes = some tree ∧ Assembles depth nodes tree := by
  induction fuel generalizing nodes with
  | zero =>
      have hone : nodes.length = 1 := by
        have hpos := List.length_pos_of_ne_nil hne
        omega
      obtain ⟨tree, rfl⟩ := List.length_eq_one_iff.mp hone
      exact ⟨0, tree, rfl, .single tree⟩
  | succ fuel ih =>
      by_cases hone : nodes.length = 1
      · obtain ⟨tree, rfl⟩ := List.length_eq_one_iff.mp hone
        exact ⟨0, tree, rfl, .single tree⟩
      · have heven := hlength.resolve_left hone
        have hpos := List.length_pos_of_ne_nil hne
        have hpaired := length_pairUp nodes
        have hnext : padLast (pairUp nodes) ≠ [] := by
          apply List.ne_nil_of_length_pos
          have hle := (prefix_padLast (pairUp nodes)).length_le
          omega
        have hle : (padLast (pairUp nodes)).length ≤ fuel + 1 := by
          have hlt := length_padLast_pairUp (show 2 ≤ nodes.length by omega)
          omega
        obtain ⟨depth, tree, hassemble, hassembles⟩ := ih hnext (length_padLast _) hle
        refine ⟨depth + 1, tree, ?_, .level heven hassembles⟩
        rw [← hassemble]
        rcases nodes with _ | ⟨first, _ | ⟨second, rest⟩⟩
        · exact absurd rfl hne
        · exact absurd rfl hone
        · rfl

theorem exists_ofLeaves {values : List α} (hne : values ≠ []) :
    ∃ depth tree, ofLeaves values = some tree ∧
      Assembles depth (padLast (values.map leaf)) tree := by
  refine exists_assembles ?_ (length_padLast _) ?_
  · exact fun hnil => hne (List.map_eq_nil_iff.mp (List.prefix_nil.mp (hnil ▸ prefix_padLast _)))
  · have hle := length_padLast_le (values.map leaf)
    rw [List.length_map] at hle
    exact hle

theorem assemble_map (f : α → β) (fuel : Nat) (nodes : List (HashTree α)) :
    assemble fuel (nodes.map (map f)) = (assemble fuel nodes).map (map f) := by
  induction fuel generalizing nodes with
  | zero => rcases nodes with _ | ⟨first, _ | ⟨second, rest⟩⟩ <;> rfl
  | succ fuel ih =>
      rcases nodes with _ | ⟨first, _ | ⟨second, rest⟩⟩
      · exact ih []
      · rfl
      · have hnext := ih (padLast (pairUp (first :: second :: rest)))
        rw [← padLast_map, ← pairUp_map] at hnext
        exact hnext

/-- The tree over images of leaves. -/
theorem ofLeaves_map (f : α → β) (values : List α) :
    ofLeaves (values.map f) = (ofLeaves values).map (map f) := by
  unfold ofLeaves
  rw [← assemble_map, ← padLast_map, List.map_map, List.map_map, List.length_map]
  rfl

namespace Assembles

variable {depth : Nat} {nodes : List (HashTree α)} {tree : HashTree α}

theorem length_pos (h : Assembles depth nodes tree) : 0 < nodes.length := by
  induction h with
  | single tree => exact Nat.one_pos
  | @level depth nodes tree _ _ ih =>
      have hpaired := length_pairUp nodes
      by_contra hzero
      rw [padLast_eq_self (by omega)] at ih
      omega

/-- The leaves begin with those of the nodes; only copies follow. -/
theorem leaves_prefix (h : Assembles depth nodes tree) : nodes.flatMap leaves <+: tree.leaves := by
  induction h with
  | single tree => rw [List.flatMap_singleton]
  | level heven _ ih =>
      rw [← pairUp_leaves heven]
      obtain ⟨copies, hcopies⟩ := prefix_padLast (pairUp _)
      rw [← hcopies, List.flatMap_append] at ih
      exact (List.prefix_append _ _).trans ih

theorem perfect (h : Assembles depth nodes tree) {level : Nat}
    (hnodes : ∀ node ∈ nodes, node.Perfect level) : tree.Perfect (level + depth) := by
  induction h generalizing level with
  | single tree => exact hnodes tree (List.mem_singleton_self tree)
  | @level depth nodes tree heven _ ih =>
      have hlevel : ∀ node ∈ padLast (pairUp nodes), node.Perfect (level + 1) := by
        intro node hmem
        obtain ⟨left, hleft, right, hright, rfl⟩ := mem_pairUp (mem_padLast.mp hmem)
        exact ⟨hnodes left hleft, hnodes right hright⟩
      have htree := ih hlevel
      rwa [Nat.add_right_comm] at htree

theorem mem_leaves (h : Assembles depth nodes tree) {value : α} (hmem : value ∈ tree.leaves) :
    ∃ node ∈ nodes, value ∈ node.leaves := by
  induction h with
  | single tree => exact ⟨tree, List.mem_singleton_self tree, hmem⟩
  | level heven _ ih =>
      obtain ⟨next, hnext, hvalue⟩ := ih hmem
      obtain ⟨left, hleft, right, hright, rfl⟩ := mem_pairUp (mem_padLast.mp hnext)
      rcases List.mem_append.mp hvalue with hvalue | hvalue
      · exact ⟨left, hleft, hvalue⟩
      · exact ⟨right, hright, hvalue⟩

end Assembles

/-- The tree over a list of leaves has the list at its leaves, and then copies. -/
theorem Assembles.ofLeaves {depth : Nat} {values : List α} {tree : HashTree α}
    (h : Assembles depth (padLast (values.map leaf)) tree) :
    tree.Perfect depth ∧ values <+: tree.leaves := by
  constructor
  · have hperfect : tree.Perfect (0 + depth) := h.perfect fun node hnode => by
      obtain ⟨value, _, rfl⟩ := List.mem_map.mp (mem_padLast.mp hnode)
      trivial
    rwa [Nat.zero_add] at hperfect
  · obtain ⟨copies, hcopies⟩ := prefix_padLast (values.map leaf)
    have hprefix := h.leaves_prefix
    rw [← hcopies, List.flatMap_append, List.flatMap_map] at hprefix
    have hvalues : (values.flatMap fun value => (leaf value).leaves) = values :=
      List.flatMap_singleton' values
    rw [hvalues] at hprefix
    exact (List.prefix_append _ _).trans hprefix

theorem mem_of_mem_leaves {values : List α} {tree : HashTree α} (h : ofLeaves values = some tree)
    {value : α} (hmem : value ∈ tree.leaves) : value ∈ values := by
  have hne : values ≠ [] := by
    rintro rfl
    cases h
  obtain ⟨depth, tree', htree, hassembles⟩ := exists_ofLeaves hne
  obtain rfl := Option.some.inj (h.symm.trans htree)
  obtain ⟨node, hnode, hleaf⟩ := hassembles.mem_leaves hmem
  obtain ⟨other, hother, rfl⟩ := List.mem_map.mp (mem_padLast.mp hnode)
  exact List.mem_singleton.mp hleaf ▸ hother

theorem prefix_leaves {values : List α} {tree : HashTree α} (h : ofLeaves values = some tree) :
    values <+: tree.leaves := by
  by_cases hne : values = []
  · rw [hne]
    exact List.nil_prefix
  · obtain ⟨depth, tree', htree, hassembles⟩ := exists_ofLeaves hne
    obtain rfl := Option.some.inj (h.symm.trans htree)
    exact hassembles.ofLeaves.2

theorem ofLeaves_eq_none {values : List α} : ofLeaves values = none ↔ values = [] := by
  constructor
  · intro hnone
    by_contra hne
    obtain ⟨depth, tree, htree, _⟩ := exists_ofLeaves hne
    rw [hnone] at htree
    cases htree
  · rintro rfl
    rfl

/-- Lists of leaves with the same tree differ in the copies of the padding alone. -/
theorem of_ofLeaves_eq {values others : List α} (h : ofLeaves values = ofLeaves others) :
    (values <+: others ∨ others <+: values) ∧ ∀ value, value ∈ values ↔ value ∈ others := by
  cases htree : ofLeaves values with
  | none =>
      obtain rfl := ofLeaves_eq_none.mp htree
      obtain rfl := ofLeaves_eq_none.mp (h.symm.trans htree)
      exact ⟨.inl List.prefix_rfl, fun _ => Iff.rfl⟩
  | some tree =>
      have hother := h.symm.trans htree
      refine ⟨List.prefix_or_prefix_of_prefix (prefix_leaves htree) (prefix_leaves hother), ?_⟩
      intro value
      constructor
      · exact fun hmem => mem_of_mem_leaves hother ((prefix_leaves htree).subset hmem)
      · exact fun hmem => mem_of_mem_leaves htree ((prefix_leaves hother).subset hmem)

/-- Lists of the same length with the same tree are the same. -/
theorem eq_of_ofLeaves_eq {values others : List α} (h : ofLeaves values = ofLeaves others)
    (hlength : values.length = others.length) : values = others := by
  rcases (of_ofLeaves_eq h).1 with hshort | hshort
  · exact hshort.eq_of_length hlength
  · exact (hshort.eq_of_length hlength.symm).symm

/-- So are lists without a repetition. -/
theorem eq_of_ofLeaves_eq_nodup {values others : List α} (h : ofLeaves values = ofLeaves others)
    (hvalues : values.Nodup) (hothers : others.Nodup) : values = others := by
  have hperm : values.Perm others :=
    (List.perm_ext_iff_of_nodup hvalues hothers).mpr (of_ofLeaves_eq h).2
  exact eq_of_ofLeaves_eq h hperm.length_eq

/-! ## Ways up and down -/

section Hashing

variable {hash : α → α → α}

theorem climb_append (digest : α) (index : Nat) (path rest : List α) :
    climb hash digest index (path ++ rest) =
      climb hash (climb hash digest index path) (index / 2 ^ path.length) rest := by
  induction path generalizing digest index with
  | nil => rw [List.nil_append, List.length_nil, pow_zero, Nat.div_one, climb]
  | cons sibling path ih =>
      rw [List.cons_append, climb, ih, List.length_cons, pow_succ', ← Nat.div_div_eq_div_mul]
      rfl

theorem climbPairs_append (digest : α) (index : Nat) (path rest : List α) :
    climbPairs hash digest index (path ++ rest) = climbPairs hash digest index path ++
      climbPairs hash (climb hash digest index path) (index / 2 ^ path.length) rest := by
  induction path generalizing digest index with
  | nil => rw [List.nil_append, List.length_nil, pow_zero, Nat.div_one]; rfl
  | cons sibling path ih =>
      rw [List.cons_append, climbPairs, ih, List.length_cons, pow_succ', ← Nat.div_div_eq_div_mul]
      rfl

/-- The last step of a way up. -/
theorem climb_concat (digest : α) (index : Nat) (path : List α) (sibling : α) :
    climb hash digest index (path ++ [sibling]) =
      let pair := beside (climb hash digest index path) (index / 2 ^ path.length) sibling
      hash pair.1 pair.2 := by
  rw [climb_append]
  rfl

/-- The lowest step of a way down is the last one. -/
theorem descend_succ (steps index : Nat) (tree : HashTree α) :
    tree.descend hash (steps + 1) index =
      (tree.descend hash steps (index / 2)).bind fun (lower, path) =>
        (lower.descend hash 1 index).map fun (lowest, first) => (lowest, first ++ path) := by
  induction steps generalizing tree with
  | zero =>
      cases tree with
      | leaf value => rfl
      | node left right =>
          simp only [descend, Option.bind_some, List.append_nil, Option.map_id', Option.map_some]
  | succ steps ih =>
      cases tree with
      | leaf value => rfl
      | node left right =>
          have hbit : index / 2 / 2 ^ steps = index / 2 ^ (steps + 1) := by
            rw [Nat.div_div_eq_div_mul, ← pow_succ']
          rw [descend, descend, hbit]
          split
          all_goals
            rw [ih, Option.map_bind, Option.bind_map]
            congr 1
            funext lower
            simp only [Function.comp_apply, Option.map_map, ← List.append_assoc]
            rfl

theorem opening_left {steps index : Nat} (left right : HashTree α)
    (hbit : index / 2 ^ steps % 2 = 0) :
    (node left right).opening hash (steps + 1) index =
      (left.opening hash steps index).map fun (digest, path) =>
        (digest, path ++ [right.root hash]) := by
  unfold opening
  rw [descend, if_pos hbit, Option.map_map, Option.map_map]
  rfl

theorem opening_right {steps index : Nat} (left right : HashTree α)
    (hbit : index / 2 ^ steps % 2 ≠ 0) :
    (node left right).opening hash (steps + 1) index =
      (right.opening hash steps index).map fun (digest, path) =>
        (digest, path ++ [left.root hash]) := by
  unfold opening
  rw [descend, if_neg hbit, Option.map_map, Option.map_map]
  rfl

theorem length_opening {steps index : Nat} {tree : HashTree α} {digest : α} {path : List α}
    (h : tree.opening hash steps index = some (digest, path)) : path.length = steps := by
  induction tree generalizing steps digest path with
  | leaf value =>
      cases steps with
      | zero => exact (Prod.mk.inj (Option.some.inj h)).2 ▸ rfl
      | succ steps => cases h
  | node left right ihLeft ihRight =>
      cases steps with
      | zero => exact (Prod.mk.inj (Option.some.inj h)).2 ▸ rfl
      | succ steps =>
          by_cases hbit : index / 2 ^ steps % 2 = 0
          · rw [opening_left left right hbit] at h
            obtain ⟨⟨_, path'⟩, hleft, heq⟩ := Option.map_eq_some_iff.mp h
            obtain ⟨rfl, rfl⟩ := Prod.mk.inj heq
            rw [List.length_append, ihLeft hleft, List.length_singleton]
          · rw [opening_right left right hbit] at h
            obtain ⟨⟨_, path'⟩, hright, heq⟩ := Option.map_eq_some_iff.mp h
            obtain ⟨rfl, rfl⟩ := Prod.mk.inj heq
            rw [List.length_append, ihRight hright, List.length_singleton]

/-- An opening climbs to the root. -/
theorem climb_opening {steps index : Nat} {tree : HashTree α} {digest : α} {path : List α}
    (h : tree.opening hash steps index = some (digest, path)) :
    climb hash digest index path = tree.root hash := by
  induction tree generalizing steps digest path with
  | leaf value =>
      cases steps with
      | zero =>
          obtain ⟨rfl, rfl⟩ := Prod.mk.inj (Option.some.inj h)
          rfl
      | succ steps => cases h
  | node left right ihLeft ihRight =>
      cases steps with
      | zero =>
          obtain ⟨rfl, rfl⟩ := Prod.mk.inj (Option.some.inj h)
          rfl
      | succ steps =>
          by_cases hbit : index / 2 ^ steps % 2 = 0
          · rw [opening_left left right hbit] at h
            obtain ⟨⟨_, path'⟩, hleft, heq⟩ := Option.map_eq_some_iff.mp h
            obtain ⟨rfl, rfl⟩ := Prod.mk.inj heq
            rw [climb_concat, length_opening hleft, ihLeft hleft, beside, if_pos hbit]
            rfl
          · rw [opening_right left right hbit] at h
            obtain ⟨⟨_, path'⟩, hright, heq⟩ := Option.map_eq_some_iff.mp h
            obtain ⟨rfl, rfl⟩ := Prod.mk.inj heq
            rw [climb_concat, length_opening hright, ihRight hright, beside, if_neg hbit]
            rfl

theorem beside_inj {digest digest' : α} {index : Nat} {sibling sibling' : α}
    (h : beside digest index sibling = beside digest' index sibling') :
    digest = digest' ∧ sibling = sibling' := by
  unfold beside at h
  split at h
  next => exact Prod.mk.inj h
  next => exact (Prod.mk.inj h).symm

/-- Two ways up of one length that end in one digest are the same, or two different pairs on
one step have the same hash. -/
theorem climb_binds {digest digest' : α} {index : Nat} {path path' : List α}
    (hlength : path.length = path'.length)
    (h : climb hash digest index path = climb hash digest' index path') :
    (digest = digest' ∧ path = path') ∨ ∃ (step : Nat) (pair pair' : α × α),
      (climbPairs hash digest index path)[step]? = some pair ∧
      (climbPairs hash digest' index path')[step]? = some pair' ∧
      pair ≠ pair' ∧ hash pair.1 pair.2 = hash pair'.1 pair'.2 := by
  induction path generalizing digest digest' index path' with
  | nil =>
      obtain rfl := List.length_eq_zero_iff.mp hlength.symm
      exact .inl ⟨h, rfl⟩
  | cons sibling path ih =>
      cases path' with
      | nil => cases hlength
      | cons sibling' path' =>
          rcases ih (Nat.succ.inj hlength) h with
            ⟨hhash, rfl⟩ | ⟨step, pair, pair', hpair, hpair', h⟩
          · by_cases hsame : beside digest index sibling = beside digest' index sibling'
            · obtain ⟨rfl, rfl⟩ := beside_inj hsame
              exact .inl ⟨rfl, rfl⟩
            · exact .inr ⟨0, _, _, rfl, rfl, hsame, hhash⟩
          · exact .inr ⟨step + 1, pair, pair', hpair, hpair', h⟩

/-- No two of the pairs have the same hash. -/
def NoCollision (hash : α → α → α) (pairs : Set (α × α)) : Prop :=
  Set.InjOn (fun pair => hash pair.1 pair.2) pairs

/-- Only what the tree opens to climbs to its root. -/
theorem climb_eq_root_iff {depth index : Nat} {tree : HashTree α} (h : tree.Perfect depth)
    {digest : α} {path : List α} (hle : path.length ≤ depth)
    (hfree : NoCollision hash
      {pair | pair ∈ tree.pairs hash ∨ pair ∈ climbPairs hash digest index path}) :
    climb hash digest index path = tree.root hash ↔
      tree.opening hash path.length index = some (digest, path) := by
  refine ⟨fun hclimb => ?_, climb_opening⟩
  induction tree generalizing depth path with
  | leaf value =>
      cases depth with
      | zero =>
          obtain rfl := List.length_eq_zero_iff.mp (Nat.le_zero.mp hle)
          obtain rfl : digest = value := hclimb
          rfl
      | succ depth => exact h.elim
  | node left right ihLeft ihRight =>
      cases depth with
      | zero => exact h.elim
      | succ depth =>
          obtain ⟨hleft, hright⟩ := h
          rcases List.eq_nil_or_concat' path with rfl | ⟨path, sibling, rfl⟩
          · obtain rfl : digest = hash (left.root hash) (right.root hash) := hclimb
            rfl
          · rw [List.length_append, List.length_singleton] at hle ⊢
            have hlower := Nat.le_of_succ_le_succ hle
            rw [climb_concat] at hclimb
            rw [climbPairs_append] at hfree
            -- The last pair of the way up is the one under the root.
            have hpair := hfree (.inr (List.mem_append_right _ List.mem_cons_self))
              (.inl List.mem_cons_self) hclimb
            by_cases hbit : index / 2 ^ path.length % 2 = 0
            · rw [beside, if_pos hbit] at hpair
              obtain ⟨hchild, hsibling⟩ := Prod.mk.inj hpair
              have hfree' : NoCollision hash
                  {pair | pair ∈ left.pairs hash ∨ pair ∈ climbPairs hash digest index path} :=
                hfree.mono fun pair hmem => hmem.imp
                  (fun hmem => List.mem_cons_of_mem _ (List.mem_append_left _ hmem))
                  (List.mem_append_left _)
              rw [opening_left left right hbit, ihLeft hleft hlower hfree' hchild, hsibling]
              rfl
            · rw [beside, if_neg hbit] at hpair
              obtain ⟨hsibling, hchild⟩ := Prod.mk.inj hpair
              have hfree' : NoCollision hash
                  {pair | pair ∈ right.pairs hash ∨ pair ∈ climbPairs hash digest index path} :=
                hfree.mono fun pair hmem => hmem.imp
                  (fun hmem => List.mem_cons_of_mem _ (List.mem_append_right _ hmem))
                  (List.mem_append_left _)
              rw [opening_right left right hbit, ihRight hright hlower hfree' hchild, hsibling]
              rfl

/-- A way up that is longer than the tree is deep first climbs to what the tree opens to. -/
theorem climb_long_eq_root_iff {depth index : Nat} {tree : HashTree α} (h : tree.Perfect depth)
    {digest : α} {path : List α}
    (hfree : NoCollision hash
      {pair | pair ∈ tree.pairs hash ∨ pair ∈ climbPairs hash digest index path}) :
    climb hash digest index path = tree.root hash ↔
      tree.opening hash (path.drop (path.length - depth)).length
          (index / 2 ^ (path.length - depth)) =
        some (climb hash digest index (path.take (path.length - depth)),
          path.drop (path.length - depth)) := by
  have hsplit := List.take_append_drop (path.length - depth) path
  have htake : (path.take (path.length - depth)).length = path.length - depth :=
    List.length_take_of_le (Nat.sub_le _ _)
  have hdrop : (path.drop (path.length - depth)).length ≤ depth := by
    rw [List.length_drop]
    omega
  have hclimb : climb hash digest index _ = _ := climb_append digest index
    (path.take (path.length - depth)) (path.drop (path.length - depth))
  have hpairs : climbPairs hash digest index _ = _ := climbPairs_append digest index
    (path.take (path.length - depth)) (path.drop (path.length - depth))
  rw [hsplit, htake] at hclimb hpairs
  rw [hpairs] at hfree
  rw [hclimb]
  exact climb_eq_root_iff h hdrop
    (hfree.mono fun pair hmem => hmem.imp_right (List.mem_append_right _))

/-- A root is a leaf or the hash of a pair. -/
theorem root_mem (tree : HashTree α) :
    tree.root hash ∈ tree.leaves ∨
      ∃ pair ∈ tree.pairs hash, tree.root hash = hash pair.1 pair.2 := by
  cases tree with
  | leaf digest => exact .inl List.mem_cons_self
  | node left right => exact .inr ⟨_, List.mem_cons_self, rfl⟩

/-- A tree with its leaves and its hashed pairs in given sets. -/
structure MadeOf (hash : α → α → α) (values : Set α) (pairs : Set (α × α)) (tree : HashTree α) :
    Prop where
  leaves : ∀ value ∈ tree.leaves, value ∈ values
  pairs : ∀ pair ∈ tree.pairs hash, pair ∈ pairs

theorem MadeOf.children {values : Set α} {pairs : Set (α × α)} {left right : HashTree α}
    (h : MadeOf hash values pairs (node left right)) :
    (left.root hash, right.root hash) ∈ pairs ∧ MadeOf hash values pairs left ∧
      MadeOf hash values pairs right := by
  obtain ⟨hleft, hright⟩ := List.forall_mem_append.mp h.leaves
  obtain ⟨hpair, hpairs⟩ := List.forall_mem_cons.mp h.pairs
  obtain ⟨hpairsLeft, hpairsRight⟩ := List.forall_mem_append.mp hpairs
  exact ⟨hpair, ⟨hleft, hpairsLeft⟩, ⟨hright, hpairsRight⟩⟩

/-- Trees with the same root are the same when no hash of a pair is one of their leaves. -/
theorem eq_of_root_eq {values : Set α} {pairs : Set (α × α)} (hfree : NoCollision hash pairs)
    (hvalues : ∀ pair ∈ pairs, hash pair.1 pair.2 ∉ values) {left right : HashTree α}
    (hleft : MadeOf hash values pairs left) (hright : MadeOf hash values pairs right)
    (hroot : left.root hash = right.root hash) : left = right := by
  induction left generalizing right with
  | leaf digest =>
      cases right with
      | leaf other => exact congrArg leaf hroot
      | node first second =>
          refine absurd (hleft.leaves digest List.mem_cons_self) ?_
          rw [show digest = _ from hroot]
          exact hvalues _ hright.children.1
  | node first second ihFirst ihSecond =>
      obtain ⟨hpair, hfirst, hsecond⟩ := hleft.children
      cases right with
      | leaf other =>
          refine absurd (hright.leaves other List.mem_cons_self) ?_
          rw [show other = _ from hroot.symm]
          exact hvalues _ hpair
      | node first' second' =>
          obtain ⟨hpair', hfirst', hsecond'⟩ := hright.children
          obtain ⟨hroots, hroots'⟩ := Prod.mk.inj (hfree hpair hpair' hroot)
          rw [ihFirst hfirst hfirst' hroots, ihSecond hsecond hsecond' hroots']

end Hashing

/-! ## Images of trees -/

/-- A function that is injective on the leaves is injective on the trees. -/
theorem map_injOn {f : α → β} {values : Set α} (hf : Set.InjOn f values) {left right : HashTree α}
    (hleft : ∀ value ∈ left.leaves, value ∈ values)
    (hright : ∀ value ∈ right.leaves, value ∈ values) (hmap : left.map f = right.map f) :
    left = right := by
  induction left generalizing right with
  | leaf value =>
      cases right with
      | leaf other =>
          have hsame := hf (hleft value List.mem_cons_self) (hright other List.mem_cons_self)
            (leaf.inj hmap)
          rw [hsame]
      | node first second => cases hmap
  | node first second ihFirst ihSecond =>
      cases right with
      | leaf other => cases hmap
      | node first' second' =>
          obtain ⟨hfirst, hsecond⟩ := List.forall_mem_append.mp hleft
          obtain ⟨hfirst', hsecond'⟩ := List.forall_mem_append.mp hright
          obtain ⟨hmapFirst, hmapSecond⟩ := node.inj hmap
          rw [ihFirst hfirst hfirst' hmapFirst, ihSecond hsecond hsecond' hmapSecond]

end HashTree

end BitcoinClient
