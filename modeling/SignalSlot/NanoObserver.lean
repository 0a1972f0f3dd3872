import SignalSlot.Library.PartitionSearch
import SignalSlot.NanoFunction
import Mathlib.Data.List.Count

/-! The connections vector of a Nano::Observer. The vector is kept sorted by
Z_Order and is searched only by std::upper_bound and std::equal_range, so that it
is sorted is part of its type. `Weak` is the Weak_Ptr of the policy. -/
namespace SignalSlot
open PartitionSearch

structure Connection (w : Nat) (Weak : Type) where
  delegate : DelegateKey w
  observer : Weak
  deriving DecidableEq, Repr

@[ext] structure Connections (w : Nat) (Weak : Type) where
  slots : List (Connection w Weak)
  nonDecreasing : NonDecreasing zOrder Connection.delegate slots
  deriving DecidableEq

namespace Connections
variable {w : Nat} {Weak : Type}

def empty : Connections w Weak := ⟨[],List.Pairwise.nil⟩

section Search
variable [BinarySearch]

-- `connections.emplace(std::upper_bound(begin, end, key, Z_Order()), key, obs)`.
def insert (c : Connections w Weak) (key : DelegateKey w) (obs : Weak) : Connections w Weak :=
  ⟨insertSorted zOrder Connection.delegate ⟨key,obs⟩ c.slots,insertedNonDecreasing _ c.nonDecreasing⟩

-- `connections.erase` of `std::equal_range(begin, end, key, Z_Order())`.
def remove (c : Connections w Weak) (key : DelegateKey w) : Connections w Weak :=
  ⟨eraseEqual zOrder Connection.delegate key c.slots,erasedNonDecreasing key c.nonDecreasing⟩

variable (c : Connections w Weak) (key : DelegateKey w)

theorem insertPerm (obs : Weak) : (c.insert key obs).slots.Perm (⟨key,obs⟩ :: c.slots) :=
  insertedPerm (Connection.mk key obs) c.nonDecreasing

theorem insertOfKey (obs : Weak) (other : DelegateKey w) :
    (c.insert key obs).slots.filter (fun slot => decide (slot.delegate = other)) =
      if key = other then c.slots.filter (fun slot => decide (slot.delegate = other)) ++ [⟨key,obs⟩]
      else c.slots.filter (fun slot => decide (slot.delegate = other)) :=
  insertedFilter (Connection.mk key obs) other c.nonDecreasing

theorem removeSlots :
    (c.remove key).slots = c.slots.filter (fun slot => decide (slot.delegate ≠ key)) :=
  erasedEq key c.nonDecreasing

theorem insertRemove (obs : Weak) : (c.insert key obs).remove key = c.remove key := by
  ext1
  rw [removeSlots,removeSlots]
  simp only [insert,insertSorted]
  rw [List.filter_append,List.filter_cons_of_neg (by simp),← List.filter_append,
    List.take_append_drop]

theorem removeRemove : (c.remove key).remove key = c.remove key := by
  ext1
  rw [removeSlots,removeSlots,List.filter_filter]
  simp

theorem removeAbsent {c : Connections w Weak} {key : DelegateKey w}
    (absent : key ∉ c.slots.map Connection.delegate) : c.remove key = c := by
  ext1
  rw [removeSlots]
  refine List.filter_eq_self.mpr (fun e mem => ?_)
  have different : e.delegate ≠ key := fun h => absent (List.mem_map.mpr ⟨e,mem,h⟩)
  simpa using different

theorem insertCount [DecidableEq Weak] (obs : Weak) (slot : Connection w Weak) :
    (c.insert key obs).slots.count slot =
      c.slots.count slot + if slot = ⟨key,obs⟩ then 1 else 0 := by
  rw [(insertPerm c key obs).count_eq,List.count_cons]
  by_cases same : slot = ⟨key,obs⟩
  · simp [same]
  · simp [same,Ne.symm same]

theorem removeCount [DecidableEq Weak] (slot : Connection w Weak) :
    (c.remove key).slots.count slot = if slot.delegate = key then 0 else c.slots.count slot := by
  rw [removeSlots]
  split
  · next same => exact List.count_eq_zero.mpr (fun mem => by simp [same] at mem)
  · next different => exact List.count_filter (by simpa using different)

end Search
end Connections
end SignalSlot
