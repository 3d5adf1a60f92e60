import Tigon.Queue.EntryRow

/-!
# Consumer groups

The groups of a queue, the consumers they have, and how a group changes its size.

The size of a group is positive by its type, so that no proof has to deal with a group without
instances.  A change of the size (`resize`) is a change of the groups alone; what becomes of the
consumers is in `Tigon.Queue.Reconfigure`.
-/

set_option autoImplicit false

namespace Tigon

/-- A consumer group: its size and how it shares the entries. -/
structure GroupConfig where
  groupSize : Nat
  dequeueStrategy : DequeueStrategy
  hashKey : Option (List UInt16)
  groupSize_pos : 0 < groupSize

/-- The groups of the queue. -/
structure Groups where
  /-- The ids of the configured groups, in ascending order. -/
  ids : List Nat
  config : Nat → GroupConfig
  sorted : ids.Pairwise (· < ·)

/-- A consumer: the id of its group and its instance id. -/
abbrev ConsumerId := Nat × Nat

instance : LawfulBEq ConsumerId := inferInstanceAs (LawfulBEq (Nat × Nat))

/-- The consumers that take part in a transaction, and which of them have rolled back. -/
structure TxContext where
  participants : List ConsumerId
  rolledBack : List ConsumerId

/-- A queue with one FIFO group. -/
def fifoGroup (size : Nat) (hpos : 0 < size) : Groups where
  ids := [0]
  config := fun _ ↦ ⟨size, .fifo, none, hpos⟩
  sorted := List.pairwise_singleton _ _

namespace Groups

section

variable (groups : Groups)

/-- Is this an instance of a configured group? -/
def Has (c : ConsumerId) : Prop := c.1 ∈ groups.ids ∧ c.2 < (groups.config c.1).groupSize

instance (c : ConsumerId) : Decidable (groups.Has c) := inferInstanceAs (Decidable (_ ∧ _))

/-- The configuration a consumer is created with. -/
def consumerConfig (c : ConsumerId) : ConsumerConfig where
  groupId := c.1
  instanceId := c.2
  groupSize := (groups.config c.1).groupSize
  dequeueStrategy := (groups.config c.1).dequeueStrategy
  hashKey := (groups.config c.1).hashKey

/-- The consumers of all groups, in the order of their columns in the configuration table. -/
def consumers : List ConsumerId :=
  groups.ids.flatMap fun g ↦ (List.range (groups.config g).groupSize).map fun i ↦ (g, i)

/-- The group `g` with `n` instances. -/
def resize (g n : Nat) (hpos : 0 < n) : Groups :=
  { groups with
    config := Function.update groups.config g
      { groups.config g with groupSize := n, groupSize_pos := hpos } }

end

variable {groups : Groups} {c : ConsumerId} {g n : Nat} {hpos : 0 < n}

theorem config_resize_of_ne {g' : Nat} (h : g' ≠ g) :
    (groups.resize g n hpos).config g' = groups.config g' := by
  simp [resize, h]

theorem groupSize_resize : ((groups.resize g n hpos).config g).groupSize = n := by
  simp [resize]

theorem strategy_resize : ((groups.resize g n hpos).config g).dequeueStrategy =
    (groups.config g).dequeueStrategy := by
  simp [resize]

theorem consumerConfig_resize (h : c.1 ≠ g) :
    (groups.resize g n hpos).consumerConfig c = groups.consumerConfig c := by
  simp only [consumerConfig, config_resize_of_ne h]

theorem has_resize (h : c.1 ≠ g) : (groups.resize g n hpos).Has c ↔ groups.Has c := by
  rw [Has, Has, config_resize_of_ne h]
  rfl

end Groups
end Tigon
