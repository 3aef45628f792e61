import Mathlib
import BitcoinClient.Foundation.Transition

/-! # Parties that send messages to each other

Between any two parties there is a channel. An event delivers one of its messages, not
necessarily the oldest, or lets a party act by itself; in both cases the party may send
messages to all the others. A run takes the events in any order.

What has not reached its destination is `Arriving`: it is in transit, or it waits behind
something that arrives. `settles_of_rank` is the rule for deliveries that come to rest.
-/

namespace BitcoinClient

/-- What the parties `ι` with the states `σ` do, and the messages that they send doing it. -/
structure Protocol (ι σ μ κ : Type) where
  /-- The party handles a message that the second one sent. -/
  handle : ι → ι → σ → μ → Option (σ × (ι → List μ))
  /-- It does something by itself. -/
  act : ι → σ → κ → Option (σ × (ι → List μ))

/-- The states of the parties and the messages on their way, in the order they were sent. -/
structure Network (ι σ μ : Type) where
  state : ι → σ
  /-- From the first party to the second one. -/
  channel : ι → ι → List μ

variable {ι σ μ κ : Type}

/-- What can happen to a party, whatever the others do. -/
inductive Protocol.Moves (protocol : Protocol ι σ μ κ) (who : ι) (before after : σ) : Prop
  | handle {source : ι} {message : μ} {sent : ι → List μ} :
      protocol.handle who source before message = some (after, sent) →
      Moves protocol who before after
  | act {action : κ} {sent : ι → List μ} :
      protocol.act who before action = some (after, sent) → Moves protocol who before after

namespace Network

inductive Event (ι κ : Type) where
  /-- The message at the position `i` of a channel reaches its target. -/
  | deliver (source target : ι) (i : Nat)
  | act (who : ι) (action : κ)

/-- The party that the event is about. -/
def Event.who : Event ι κ → ι
  | deliver _ target _ => target
  | act who _ => who

section Definitions

variable [DecidableEq ι] (network : Network ι σ μ)

/-- The message at a position of a channel is taken from it. -/
def take (source target : ι) (i : Nat) : Network ι σ μ where
  state := network.state
  channel := Function.update network.channel source
    (Function.update (network.channel source) target ((network.channel source target).eraseIdx i))

/-- A party moves to another state and sends messages. -/
def put (who : ι) (state : σ) (sent : ι → List μ) : Network ι σ μ where
  state := Function.update network.state who state
  channel := Function.update network.channel who fun target =>
    network.channel who target ++ sent target

def next (protocol : Protocol ι σ μ κ) : Event ι κ → Option (Network ι σ μ)
  | .deliver source target i =>
    (network.channel source target)[i]?.bind fun message =>
      (protocol.handle target source (network.state target) message).map fun (state, sent) =>
        (network.take source target i).put target state sent
  | .act who action =>
    (protocol.act who (network.state who) action).map fun (state, sent) =>
      network.put who state sent

/-- Deliver messages at the given positions one after the other; `none` when there is no
such message or it is not handled. -/
def deliverAll (protocol : Protocol ι σ μ κ) (deliveries : List (ι × ι × Nat)) :
    Option (Network ι σ μ) :=
  deliveries.foldlM
    (fun network (source, target, i) => network.next protocol (.deliver source target i)) network

omit [DecidableEq ι] in
/-- No message is on its way. -/
def Quiet : Prop := ∀ source target, network.channel source target = []

/-- In whatever order messages are delivered, finitely many are, each one can be delivered
at any time, and `goal` holds when none is left. -/
structure Settles (protocol : Protocol ι σ μ κ) (goal : Network ι σ μ → Prop) : Prop where
  bounded : ∃ bound, ∀ deliveries final, network.deliverAll protocol deliveries = some final →
    deliveries.length ≤ bound
  progress : ∀ deliveries final, network.deliverAll protocol deliveries = some final →
    ∀ source target i, i < (final.channel source target).length →
      (final.next protocol (.deliver source target i)).isSome = true
  goal : ∀ deliveries final, network.deliverAll protocol deliveries = some final →
    final.Quiet → goal final

end Definitions

/-! ## One event -/

section Channels

variable [DecidableEq ι] {network : Network ι σ μ} {who source target : ι} {state : σ}
  {sent : ι → List μ} {message : μ} {position : Nat}

@[simp] theorem take_state : (network.take source target position).state = network.state := rfl

@[simp] theorem put_state_self : (network.put who state sent).state who = state :=
  Function.update_self _ _ _

theorem put_state_of_ne {other : ι} (hne : other ≠ who) :
    (network.put who state sent).state other = network.state other :=
  Function.update_of_ne hne _ _

theorem channel_take {i j : ι} : (network.take source target position).channel i j =
    if i = source ∧ j = target then (network.channel source target).eraseIdx position
    else network.channel i j := by
  unfold take
  by_cases hi : i = source
  · subst hi
    by_cases hj : j = target
    · subst hj
      simp
    · simp [hj]
  · simp [hi]

theorem channel_put {i j : ι} : (network.put who state sent).channel i j =
    if i = who then network.channel who j ++ sent j else network.channel i j := by
  unfold put
  by_cases hi : i = who
  · subst hi
    simp
  · simp [hi]

theorem mem_put {i j : ι} : message ∈ (network.put who state sent).channel i j ↔
    message ∈ network.channel i j ∨ (i = who ∧ message ∈ sent j) := by
  rw [channel_put]
  split
  next heq =>
    subst heq
    simp
  next hne => simp [hne]

theorem mem_of_mem_take {i j : ι}
    (h : message ∈ (network.take source target position).channel i j) :
    message ∈ network.channel i j := by
  rw [channel_take] at h
  split at h
  next heq =>
    obtain ⟨rfl, rfl⟩ := heq
    exact List.mem_of_mem_eraseIdx h
  next => exact h

/-- Only the delivered message is gone. -/
theorem mem_take {i j : ι} {other : μ}
    (hmessage : (network.channel source target)[position]? = some message)
    (h : other ∈ network.channel i j) :
    other ∈ (network.take source target position).channel i j ∨
      (i = source ∧ j = target ∧ other = message) := by
  rw [channel_take]
  split
  next heq =>
    obtain ⟨rfl, rfl⟩ := heq
    obtain ⟨k, hk⟩ := List.mem_iff_getElem?.mp h
    by_cases heq : k = position
    · subst heq
      exact Or.inr ⟨rfl, rfl, Option.some.inj (hk.symm.trans hmessage)⟩
    · exact Or.inl (List.mem_eraseIdx_iff_getElem?.mpr ⟨k, heq, hk⟩)
  next => exact Or.inl h

variable {protocol : Protocol ι σ μ κ} {following : Network ι σ μ}

theorem next_deliver : network.next protocol (.deliver source target position) = some following ↔
    ∃ message state sent, (network.channel source target)[position]? = some message ∧
      protocol.handle target source (network.state target) message = some (state, sent) ∧
      following = (network.take source target position).put target state sent := by
  cases hmessage : (network.channel source target)[position]? with
  | none => simp [next, hmessage]
  | some message => simp [next, hmessage, eq_comm]

theorem next_act {action : κ} : network.next protocol (.act who action) = some following ↔
    ∃ state sent, protocol.act who (network.state who) action = some (state, sent) ∧
      following = network.put who state sent := by
  simp [next, eq_comm]

/-- An event is a move of one party. -/
theorem moves_of_next {event : Event ι κ} (hnext : network.next protocol event = some following) :
    protocol.Moves event.who (network.state event.who) (following.state event.who) ∧
      ∀ other, other ≠ event.who → following.state other = network.state other := by
  cases event with
  | deliver source target position =>
      obtain ⟨message, state, sent, _, hhandle, rfl⟩ := next_deliver.mp hnext
      refine ⟨?_, fun other hne => put_state_of_ne hne⟩
      rw [Event.who, put_state_self]
      exact .handle hhandle
  | act who action =>
      obtain ⟨state, sent, hact, rfl⟩ := next_act.mp hnext
      refine ⟨?_, fun other hne => put_state_of_ne hne⟩
      rw [Event.who, put_state_self]
      exact .act hact

end Channels

/-- Each party by itself is in a run of its own. -/
theorem moves_of_reachable [DecidableEq ι] {protocol : Protocol ι σ μ κ}
    {guard : Network ι σ μ → Event ι κ → Prop} {start network : Network ι σ μ}
    (hreach : Transition.Reachable (fun network => network.next protocol) guard start network)
    (who : ι) :
    Relation.ReflTransGen (protocol.Moves who) (start.state who) (network.state who) := by
  induction hreach with
  | refl => exact .refl
  | tail _ hstep ih =>
      obtain ⟨event, _, hnext⟩ := hstep
      obtain ⟨hmoves, hothers⟩ := moves_of_next hnext
      by_cases heq : who = event.who
      · subst heq
        exact ih.tail hmoves
      · rw [hothers who heq]
        exact ih

/-! ## What arrives -/

/-- It is in transit, or it waits behind something that arrives. -/
inductive Arriving {α : Type} (transit : α → Prop) (waits : α → α → Prop) : α → Prop
  | transit {item : α} : transit item → Arriving transit waits item
  | waits {item before : α} : waits item before → Arriving transit waits before →
      Arriving transit waits item

section Arriving

variable {α : Type} {transit : α → Prop} {waits : α → α → Prop} {item : α}

/-- Nothing arrives when nothing is in transit. -/
theorem Arriving.exists_transit (h : Arriving transit waits item) : ∃ other, transit other := by
  induction h with
  | transit h => exact ⟨_, h⟩
  | waits _ _ ih => exact ih

/-- What was arriving has come or still arrives, when that holds of what was in transit, and
of what waited behind something of which it holds. -/
theorem Arriving.carry {comes : α → Prop} (h : Arriving transit waits item)
    (htransit : ∀ item, transit item → comes item)
    (hwaits : ∀ item before, waits item before → comes before → comes item) : comes item := by
  induction h with
  | transit h => exact htransit _ h
  | waits h _ ih => exact hwaits _ _ h ih

end Arriving

/-! ## Deliveries that come to rest -/

section Settles

variable [DecidableEq ι] {protocol : Protocol ι σ μ κ} {network : Network ι σ μ}

@[simp] theorem deliverAll_nil : network.deliverAll protocol [] = some network := rfl

theorem deliverAll_cons {source target : ι} {i : Nat} {rest : List (ι × ι × Nat)}
    {final : Network ι σ μ} :
    network.deliverAll protocol ((source, target, i) :: rest) = some final ↔
      ∃ middle, network.next protocol (.deliver source target i) = some middle ∧
        middle.deliverAll protocol rest = some final :=
  Option.bind_eq_some_iff

/-- What deliveries keep. -/
theorem deliverAll_keeps {inv : Network ι σ μ → Prop} {deliveries : List (ι × ι × Nat)}
    {final : Network ι σ μ}
    (hkeeps : ∀ network following source target i, inv network →
      network.next protocol (.deliver source target i) = some following → inv following)
    (h : inv network) (hrun : network.deliverAll protocol deliveries = some final) : inv final := by
  induction deliveries generalizing network with
  | nil => exact Option.some.inj hrun ▸ h
  | cons delivery rest ih =>
      obtain ⟨middle, hnext, hrest⟩ := deliverAll_cons.mp hrun
      exact ih (hkeeps _ _ _ _ _ h hnext) hrest

/-- When each delivery lowers a rank, the length of all sequences of deliveries is bounded,
because only finitely many of them can come next. -/
theorem exists_bound [Fintype ι] {ρ : Type} {lower : ρ → ρ → Prop} (hwf : WellFounded lower)
    {inv : Network ι σ μ → Prop} (rank : Network ι σ μ → ρ)
    (hstep : ∀ network following source target i, inv network →
      network.next protocol (.deliver source target i) = some following →
      inv following ∧ lower (rank following) (rank network))
    (h : inv network) :
    ∃ bound, ∀ deliveries final, network.deliverAll protocol deliveries = some final →
      deliveries.length ≤ bound := by
  induction hrank : rank network using hwf.induction generalizing network with
  | h _ ih =>
      subst hrank
      have hlater : ∀ delivery : ι × ι × Nat, ∃ bound, ∀ following,
          network.next protocol (.deliver delivery.1 delivery.2.1 delivery.2.2) = some following →
          ∀ deliveries final, following.deliverAll protocol deliveries = some final →
            deliveries.length ≤ bound := by
        intro delivery
        cases hnext : network.next protocol (.deliver delivery.1 delivery.2.1 delivery.2.2) with
        | none => exact ⟨0, fun _ => nofun⟩
        | some middle =>
            obtain ⟨hinv, hlower⟩ := hstep _ _ _ _ _ h hnext
            obtain ⟨bound, hbound⟩ := ih _ hlower hinv rfl
            refine ⟨bound, fun following heq => ?_⟩
            cases heq
            exact hbound
      choose bound hbound using hlater
      let choices : Finset (ι × ι × Nat) := Finset.univ.biUnion fun source =>
        Finset.univ.biUnion fun target =>
          (Finset.range (network.channel source target).length).image fun i => (source, target, i)
      refine ⟨choices.sup bound + 1, fun deliveries final hrun => ?_⟩
      cases deliveries with
      | nil => exact Nat.zero_le _
      | cons delivery rest =>
          obtain ⟨middle, hnext, hrest⟩ := deliverAll_cons.mp hrun
          obtain ⟨message, _, _, hmessage, _, _⟩ := next_deliver.mp hnext
          have hmem : delivery ∈ choices := by
            simp only [choices, Finset.mem_biUnion, Finset.mem_image, Finset.mem_range,
              Finset.mem_univ, true_and]
            exact ⟨_, _, _, (List.getElem?_eq_some_iff.mp hmessage).1, rfl⟩
          have hle := hbound delivery middle hnext rest final hrest
          exact Nat.succ_le_succ (hle.trans (Finset.le_sup hmem))

/-- A network settles when deliveries lower a rank and every message can be handled. -/
theorem settles_of_rank [Fintype ι] {ρ : Type} {lower : ρ → ρ → Prop} (hwf : WellFounded lower)
    {inv goal : Network ι σ μ → Prop} (rank : Network ι σ μ → ρ)
    (hstep : ∀ network following source target i, inv network →
      network.next protocol (.deliver source target i) = some following →
      inv following ∧ lower (rank following) (rank network))
    (hprogress : ∀ network source target i, inv network →
      i < (network.channel source target).length →
      (network.next protocol (.deliver source target i)).isSome = true)
    (hgoal : ∀ network, inv network → network.Quiet → goal network) (h : inv network) :
    network.Settles protocol goal := by
  have hinv : ∀ {deliveries final}, network.deliverAll protocol deliveries = some final →
      inv final := fun hrun =>
    deliverAll_keeps (fun _ _ _ _ _ h hnext => (hstep _ _ _ _ _ h hnext).1) h hrun
  refine ⟨exists_bound hwf rank hstep h, fun deliveries final hrun source target i hi => ?_,
    fun deliveries final hrun hquiet => ?_⟩
  · exact hprogress final source target i (hinv hrun) hi
  · exact hgoal final (hinv hrun) hquiet

end Settles

/-! ## The weight of the messages on their way -/

section Weight

variable [Fintype ι]

/-- The weight of all messages that a party sends. -/
def sentWeight (weight : μ → Nat) (sent : ι → List μ) : Nat :=
  ∑ target, ((sent target).map weight).sum

def weight (weight : μ → Nat) (network : Network ι σ μ) : Nat :=
  ∑ source, sentWeight weight (network.channel source)

variable [DecidableEq ι] {weight : μ → Nat} {network : Network ι σ μ} {source target who : ι}
  {state : σ} {sent : ι → List μ} {message : μ} {position : Nat}

theorem weight_put : (network.put who state sent).weight weight =
    network.weight weight + sentWeight weight sent := by
  have hsource : ∀ i, sentWeight weight ((network.put who state sent).channel i) =
      sentWeight weight (network.channel i) + if i = who then sentWeight weight sent else 0 := by
    intro i
    unfold sentWeight
    split
    next heq =>
      subst heq
      rw [← Finset.sum_add_distrib]
      refine Finset.sum_congr rfl fun target _ => ?_
      simp [channel_put]
    next hne =>
      refine Finset.sum_congr rfl fun target _ => ?_
      simp [channel_put, hne]
  simp only [Network.weight, hsource, Finset.sum_add_distrib, Finset.sum_ite_eq',
    Finset.mem_univ, if_true]

/-- The weight of a list without one of its items. -/
theorem sum_eraseIdx {messages : List μ} (hmessage : messages[position]? = some message) :
    ((messages.eraseIdx position).map weight).sum + weight message =
      (messages.map weight).sum := by
  obtain ⟨hlt, rfl⟩ := List.getElem?_eq_some_iff.mp hmessage
  have hperm := (List.getElem_cons_eraseIdx_perm hlt).map weight
  rw [← hperm.sum_eq, List.map_cons, List.sum_cons, Nat.add_comm]

theorem weight_take (hmessage : (network.channel source target)[position]? = some message) :
    (network.take source target position).weight weight + weight message =
      network.weight weight := by
  have htarget : ∀ i j, (((network.take source target position).channel i j).map weight).sum +
      (if i = source then if j = target then weight message else 0 else 0) =
        ((network.channel i j).map weight).sum := by
    intro i j
    rw [channel_take]
    by_cases hi : i = source
    · by_cases hj : j = target
      · subst hi hj
        simp [sum_eraseIdx hmessage]
      · simp [hj]
    · simp [hi]
  have hsource : ∀ i, sentWeight weight ((network.take source target position).channel i) +
      (if i = source then weight message else 0) =
        sentWeight weight (network.channel i) := by
    intro i
    simp only [sentWeight, ← htarget i, Finset.sum_add_distrib]
    split <;> simp
  simp only [Network.weight, ← hsource, Finset.sum_add_distrib, Finset.sum_ite_eq',
    Finset.mem_univ, if_true]

end Weight

end Network

end BitcoinClient
