import Mathlib

/-! # Two parties that exchange messages

The messages for each party form a queue. A step lets a party handle the oldest
message for it or do something by itself, and both may send messages to the other
party. A run takes the steps of both parties in any order.

`settles_of_rank` is the rule for exchanges that come to rest. `run_alone` is the rule
for messages without effect, and `Party.alone_collect` the one for a party by itself.
-/

namespace BitcoinClient

/-- A party with the states `σ`, which sends messages `μ`. -/
structure Party (σ μ α κ : Type) where
  /-- One of its workers `α` handles a message of the other party. -/
  handle : σ → α → μ → Option (σ × List μ)
  /-- It does something by itself. -/
  act : σ → κ → Option (σ × List μ)

variable {σ τ μ α β κ κ' ρ : Type}

/-! ## A party by itself -/

namespace Party

variable (party : Party σ μ α κ)

/-- What the party reaches without the other one. -/
def alone (state : σ) (actions : List κ) : Option σ :=
  actions.foldlM (fun state action => (party.act state action).map Prod.fst) state

/-- What `brings` says of each action in the state where the party takes it. -/
def collect (brings : σ → κ → List ρ) : σ → List κ → List ρ
  | _, [] => []
  | state, action :: rest =>
    brings state action ++ (party.act state action).elim [] fun next => collect brings next.1 rest

/-- From the states in `inv` the party sends `idle` messages only, and these change nothing. -/
structure Ignores (inv : σ → Prop) (idle : μ → Prop) : Prop where
  handle : ∀ state who message next sent, inv state → idle message →
    party.handle state who message = some (next, sent) → next = state ∧ sent = []
  act : ∀ state action next sent, inv state → party.act state action = some (next, sent) →
    inv next ∧ ∀ message ∈ sent, idle message

variable {party}

/-- The actions together do what they are said to bring when each one does. -/
theorem alone_collect {inv : σ → Prop} {brings : σ → κ → List ρ}
    (relation : List ρ → σ → σ → Prop) (hrefl : ∀ state, relation [] state state)
    (htrans : ∀ {first rest state next final}, relation first state next →
      relation rest next final → relation (first ++ rest) state final)
    (hact : ∀ {state action next sent}, inv state → party.act state action = some (next, sent) →
      inv next ∧ relation (brings state action) state next)
    {state final : σ} {actions : List κ} (hinv : inv state)
    (halone : party.alone state actions = some final) :
    inv final ∧ relation (party.collect brings state actions) state final := by
  induction actions generalizing state with
  | nil =>
      obtain rfl : state = final := Option.some.inj halone
      exact ⟨hinv, hrefl state⟩
  | cons action rest ih =>
      obtain ⟨next, hnext, hrest⟩ := Option.bind_eq_some_iff.mp halone
      obtain ⟨⟨_, sent⟩, hstep, rfl⟩ := Option.map_eq_some_iff.mp hnext
      obtain ⟨hinv', hfirst⟩ := hact hinv hstep
      obtain ⟨hfinal, hlater⟩ := ih hinv' hrest
      refine ⟨hfinal, ?_⟩
      rw [collect, hstep]
      exact htrans hfirst hlater

end Party

/-! ## Both parties -/

/-- Both parties and the messages in flight to each, the oldest first. -/
structure Exchange (σ τ μ : Type) where
  left : σ
  right : τ
  toLeft : List μ := []
  toRight : List μ := []

namespace Exchange

inductive Step (α κ β κ' : Type) where
  | handleLeft (who : α)
  | handleRight (who : β)
  | actLeft (action : κ)
  | actRight (action : κ')

namespace Step

def isHandling : Step α κ β κ' → Bool
  | handleLeft _ | handleRight _ => true
  | actLeft _ | actRight _ => false

def leftAction : Step α κ β κ' → Option κ
  | actLeft action => some action
  | _ => none

def rightAction : Step α κ β κ' → Option κ'
  | actRight action => some action
  | _ => none

end Step

variable (left : Party σ μ α κ) (right : Party τ μ β κ')

def next (exchange : Exchange σ τ μ) : Step α κ β κ' → Option (Exchange σ τ μ)
  | .handleLeft who =>
    match exchange.toLeft with
    | [] => none
    | message :: rest => (left.handle exchange.left who message).map fun (state, sent) =>
      ⟨state, exchange.right, rest, exchange.toRight ++ sent⟩
  | .handleRight who =>
    match exchange.toRight with
    | [] => none
    | message :: rest => (right.handle exchange.right who message).map fun (state, sent) =>
      ⟨exchange.left, state, exchange.toLeft ++ sent, rest⟩
  | .actLeft action => (left.act exchange.left action).map fun (state, sent) =>
    ⟨state, exchange.right, exchange.toLeft, exchange.toRight ++ sent⟩
  | .actRight action => (right.act exchange.right action).map fun (state, sent) =>
    ⟨exchange.left, state, exchange.toLeft ++ sent, exchange.toRight⟩

/-- Take the given steps in order; `none` when one of them does not apply. -/
def run (exchange : Exchange σ τ μ) (steps : List (Step α κ β κ')) : Option (Exchange σ τ μ) :=
  steps.foldlM (next left right) exchange

/-- No message is in flight. -/
def Quiet (exchange : Exchange σ τ μ) : Prop := exchange.toLeft = [] ∧ exchange.toRight = []

instance [DecidableEq μ] (exchange : Exchange σ τ μ) : Decidable exchange.Quiet :=
  inferInstanceAs (Decidable (_ ∧ _))

/-- In whatever order the messages are handled, finitely many are, none gets stuck, and
`goal` holds when no message is left. -/
structure Settles (goal : Exchange σ τ μ → Prop) (start : Exchange σ τ μ) : Prop where
  bounded : ∃ bound, ∀ (steps : List (Step α κ β κ')) (final : Exchange σ τ μ),
    (∀ step ∈ steps, step.isHandling = true) → start.run left right steps = some final →
    steps.length ≤ bound
  progress : ∀ (steps : List (Step α κ β κ')) (final : Exchange σ τ μ),
    (∀ step ∈ steps, step.isHandling = true) → start.run left right steps = some final →
    ¬ final.Quiet → ∃ step, step.isHandling = true ∧ (final.next left right step).isSome = true
  goal : ∀ (steps : List (Step α κ β κ')) (final : Exchange σ τ μ),
    (∀ step ∈ steps, step.isHandling = true) → start.run left right steps = some final →
    final.Quiet → goal final

variable {left right} {exchange following final : Exchange σ τ μ} {steps : List (Step α κ β κ')}

/-! ## What each step does -/

theorem run_cons {step : Step α κ β κ'} {rest : List (Step α κ β κ')} :
    exchange.run left right (step :: rest) = some final ↔
      ∃ middle, exchange.next left right step = some middle ∧
        middle.run left right rest = some final :=
  Option.bind_eq_some_iff

theorem next_handleLeft {who : α} :
    exchange.next left right (.handleLeft who : Step α κ β κ') = some following ↔
      ∃ message rest state sent, exchange.toLeft = message :: rest ∧
        left.handle exchange.left who message = some (state, sent) ∧
        following = ⟨state, exchange.right, rest, exchange.toRight ++ sent⟩ := by
  cases hqueue : exchange.toLeft with
  | nil => simp [next, hqueue]
  | cons message rest => simp [next, hqueue, eq_comm]

theorem next_handleRight {who : β} :
    exchange.next left right (.handleRight who : Step α κ β κ') = some following ↔
      ∃ message rest state sent, exchange.toRight = message :: rest ∧
        right.handle exchange.right who message = some (state, sent) ∧
        following = ⟨exchange.left, state, exchange.toLeft ++ sent, rest⟩ := by
  cases hqueue : exchange.toRight with
  | nil => simp [next, hqueue]
  | cons message rest => simp [next, hqueue, eq_comm]

theorem next_actLeft {action : κ} :
    exchange.next left right (.actLeft action : Step α κ β κ') = some following ↔
      ∃ state sent, left.act exchange.left action = some (state, sent) ∧
        following = ⟨state, exchange.right, exchange.toLeft, exchange.toRight ++ sent⟩ := by
  simp [next, eq_comm]

theorem next_actRight {action : κ'} :
    exchange.next left right (.actRight action : Step α κ β κ') = some following ↔
      ∃ state sent, right.act exchange.right action = some (state, sent) ∧
        following = ⟨exchange.left, state, exchange.toLeft ++ sent, exchange.toRight⟩ := by
  simp [next, eq_comm]

theorem isSome_handleLeft {who : α} {message : μ} {rest : List μ} {result : σ × List μ}
    (hqueue : exchange.toLeft = message :: rest)
    (hhandle : left.handle exchange.left who message = some result) :
    (exchange.next left right (.handleLeft who : Step α κ β κ')).isSome = true := by
  simp [next, hqueue, hhandle]

theorem isSome_handleRight {who : β} {message : μ} {rest : List μ} {result : τ × List μ}
    (hqueue : exchange.toRight = message :: rest)
    (hhandle : right.handle exchange.right who message = some result) :
    (exchange.next left right (.handleRight who : Step α κ β κ')).isSome = true := by
  simp [next, hqueue, hhandle]

/-- When one message is in flight, it is the one that is handled. -/
theorem next_of_toLeft {message : μ} {state : σ} {other : τ} {step : Step α κ β κ'}
    (hstep : step.isHandling = true)
    (hnext : next left right ⟨state, other, [message], []⟩ step = some following) :
    ∃ who state' sent, left.handle state who message = some (state', sent) ∧
      following = ⟨state', other, [], sent⟩ := by
  cases step with
  | handleLeft who =>
      obtain ⟨_, _, state', sent, hqueue, hhandle, rfl⟩ := next_handleLeft.mp hnext
      obtain ⟨rfl, rfl⟩ := List.cons.inj hqueue
      exact ⟨who, state', sent, hhandle, rfl⟩
  | handleRight who =>
      obtain ⟨_, _, _, _, hqueue, _⟩ := next_handleRight.mp hnext
      cases hqueue
  | actLeft action => cases hstep
  | actRight action => cases hstep

theorem next_of_toRight {message : μ} {state : σ} {other : τ} {step : Step α κ β κ'}
    (hstep : step.isHandling = true)
    (hnext : next left right ⟨state, other, [], [message]⟩ step = some following) :
    ∃ who other' sent, right.handle other who message = some (other', sent) ∧
      following = ⟨state, other', sent, []⟩ := by
  cases step with
  | handleLeft who =>
      obtain ⟨_, _, _, _, hqueue, _⟩ := next_handleLeft.mp hnext
      cases hqueue
  | handleRight who =>
      obtain ⟨_, _, other', sent, hqueue, hhandle, rfl⟩ := next_handleRight.mp hnext
      obtain ⟨rfl, rfl⟩ := List.cons.inj hqueue
      exact ⟨who, other', sent, hhandle, rfl⟩
  | actLeft action => cases hstep
  | actRight action => cases hstep

/-! ## Exchanges that settle -/

/-- A quiet exchange has no message to handle. -/
theorem Quiet.next_eq_none (h : exchange.Quiet) {step : Step α κ β κ'}
    (hstep : step.isHandling = true) : exchange.next left right step = none := by
  cases step with
  | handleLeft who => rw [next, h.1]
  | handleRight who => rw [next, h.2]
  | actLeft action => cases hstep
  | actRight action => cases hstep

/-- Every handled message lowers the rank. -/
theorem run_rank {rank : Exchange σ τ μ → Nat → Prop}
    (hlower : ∀ exchange bound step next, rank exchange bound → Step.isHandling step = true →
      exchange.next left right step = some next → ∃ lower < bound, rank next lower)
    {bound : Nat} (h : rank exchange bound) (hsteps : ∀ step ∈ steps, step.isHandling = true)
    (hrun : exchange.run left right steps = some final) :
    ∃ lower, steps.length + lower ≤ bound ∧ rank final lower := by
  induction steps generalizing exchange bound with
  | nil =>
      obtain rfl : exchange = final := Option.some.inj hrun
      exact ⟨bound, Nat.le_of_eq (Nat.zero_add bound), h⟩
  | cons step rest ih =>
      obtain ⟨middle, hnext, hrest⟩ := run_cons.mp hrun
      obtain ⟨hhandling, hhandlings⟩ := List.forall_mem_cons.mp hsteps
      obtain ⟨lower, hlt, hmiddle⟩ := hlower _ _ _ _ h hhandling hnext
      obtain ⟨lowest, hle, hfinal⟩ := ih hmiddle hhandlings hrest
      refine ⟨lowest, ?_, hfinal⟩
      rw [List.length_cons]
      omega

/-- An exchange settles when every handled message lowers a rank. -/
theorem settles_of_rank {goal : Exchange σ τ μ → Prop} (rank : Exchange σ τ μ → Nat → Prop)
    (hlower : ∀ exchange bound step next, rank exchange bound → Step.isHandling step = true →
      exchange.next left right step = some next → ∃ lower < bound, rank next lower)
    (hrest : ∀ exchange bound, rank exchange bound → exchange.Quiet ∧ goal exchange ∨
      ∃ step, Step.isHandling step = true ∧ (exchange.next left right step).isSome = true)
    {bound : Nat} (h : rank exchange bound) : Settles left right goal exchange where
  bounded := by
    refine ⟨bound, fun steps final hsteps hrun => ?_⟩
    obtain ⟨lower, hle, _⟩ := run_rank hlower h hsteps hrun
    omega
  progress := by
    intro steps final hsteps hrun hmoving
    obtain ⟨lower, _, hfinal⟩ := run_rank hlower h hsteps hrun
    exact (hrest final lower hfinal).resolve_left fun hdone => hmoving hdone.1
  goal := by
    intro steps final hsteps hrun hquiet
    obtain ⟨lower, _, hfinal⟩ := run_rank hlower h hsteps hrun
    rcases hrest final lower hfinal with ⟨_, hgoal⟩ | ⟨step, hstep, hsome⟩
    · exact hgoal
    · rw [hquiet.next_eq_none hstep] at hsome
      cases hsome

/-! ## Messages without effect -/

/-- Two parties that ignore each other's messages are left alone. -/
theorem run_alone {inv : σ → Prop} {inv' : τ → Prop} {idle : μ → Prop}
    (hleft : left.Ignores inv idle) (hright : right.Ignores inv' idle)
    (hrun : exchange.run left right steps = some final)
    (hinv : inv exchange.left) (hinv' : inv' exchange.right)
    (hidle : ∀ message ∈ exchange.toLeft ++ exchange.toRight, idle message) :
    left.alone exchange.left (steps.filterMap Step.leftAction) = some final.left ∧
      right.alone exchange.right (steps.filterMap Step.rightAction) = some final.right := by
  induction steps generalizing exchange with
  | nil =>
      obtain rfl : exchange = final := Option.some.inj hrun
      exact ⟨rfl, rfl⟩
  | cons step rest ih =>
      obtain ⟨middle, hnext, hrest⟩ := run_cons.mp hrun
      obtain ⟨hidleLeft, hidleRight⟩ := List.forall_mem_append.mp hidle
      cases step with
      | handleLeft who =>
          obtain ⟨message, queue, state, sent, hqueue, hhandle, rfl⟩ := next_handleLeft.mp hnext
          rw [hqueue] at hidleLeft
          obtain ⟨hmessage, hidleQueue⟩ := List.forall_mem_cons.mp hidleLeft
          -- An idle message changes nothing and is not answered.
          obtain ⟨rfl, rfl⟩ := hleft.handle _ _ _ _ _ hinv hmessage hhandle
          rw [List.append_nil] at hrest
          have halone := ih hrest hinv hinv' (List.forall_mem_append.mpr ⟨hidleQueue, hidleRight⟩)
          exact halone
      | handleRight who =>
          obtain ⟨message, queue, state, sent, hqueue, hhandle, rfl⟩ := next_handleRight.mp hnext
          rw [hqueue] at hidleRight
          obtain ⟨hmessage, hidleQueue⟩ := List.forall_mem_cons.mp hidleRight
          obtain ⟨rfl, rfl⟩ := hright.handle _ _ _ _ _ hinv' hmessage hhandle
          rw [List.append_nil] at hrest
          have halone := ih hrest hinv hinv' (List.forall_mem_append.mpr ⟨hidleLeft, hidleQueue⟩)
          exact halone
      | actLeft action =>
          obtain ⟨state, sent, hact, rfl⟩ := next_actLeft.mp hnext
          obtain ⟨hstate, hsent⟩ := hleft.act _ _ _ _ hinv hact
          have hidleRight' := List.forall_mem_append.mpr ⟨hidleRight, hsent⟩
          obtain ⟨haloneLeft, haloneRight⟩ :=
            ih hrest hstate hinv' (List.forall_mem_append.mpr ⟨hidleLeft, hidleRight'⟩)
          refine ⟨?_, haloneRight⟩
          simp only [Party.alone, List.filterMap_cons, Step.leftAction, List.foldlM_cons, hact]
          exact haloneLeft
      | actRight action =>
          obtain ⟨state, sent, hact, rfl⟩ := next_actRight.mp hnext
          obtain ⟨hstate, hsent⟩ := hright.act _ _ _ _ hinv' hact
          have hidleLeft' := List.forall_mem_append.mpr ⟨hidleLeft, hsent⟩
          obtain ⟨haloneLeft, haloneRight⟩ :=
            ih hrest hinv hstate (List.forall_mem_append.mpr ⟨hidleLeft', hidleRight⟩)
          refine ⟨haloneLeft, ?_⟩
          simp only [Party.alone, List.filterMap_cons, Step.rightAction, List.foldlM_cons, hact]
          exact haloneRight

end Exchange

end BitcoinClient
