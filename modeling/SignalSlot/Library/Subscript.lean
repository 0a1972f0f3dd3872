import Mathlib.Data.List.Basic
import Mathlib.Order.Std

/-! The subscript operator of an ordered map: an absent key is entered with the
default value before anything is done with the value. A map of maps is read as a
partial function of two keys. -/
namespace SignalSlot.Subscript
open Std

section One
variable {κ β : Type} [Ord κ] [TransOrd κ] [LawfulEqOrd κ] [Inhabited β]

def subscript (map : TreeMap κ β) (k : κ) (use : β → β) : TreeMap κ β :=
  map.alter k (fun found => some (use (found.getD default)))

theorem subscriptSame (map : TreeMap κ β) (k : κ) (use : β → β) :
    (subscript map k use)[k]? = some (use (map[k]?.getD default)) := by
  rw [subscript,TreeMap.getElem?_alter,if_pos ReflCmp.compare_self]

theorem subscriptOther (map : TreeMap κ β) {k k' : κ} (other : k' ≠ k) (use : β → β) :
    (subscript map k use)[k']? = map[k']? := by
  rw [subscript,TreeMap.getElem?_alter,if_neg]
  intro equal
  exact other (LawfulEqCmp.eq_of_compare equal).symm

theorem memSubscript {map : TreeMap κ β} {k k' : κ} {use : β → β} :
    k' ∈ subscript map k use ↔ k' = k ∨ k' ∈ map := by
  rw [TreeMap.mem_iff_isSome_getElem?,TreeMap.mem_iff_isSome_getElem?]
  rcases Classical.em (k' = k) with rfl | other
  · simp only [subscriptSame,Option.isSome_some,true_or]
  · simp only [subscriptOther map other,other,false_or]

end One

section Two
variable {κ ν β : Type} [Ord κ] [Ord ν]

def found (maps : TreeMap κ (TreeMap ν β)) (k : κ) (n : ν) : Option β := maps[k]?.bind (fun map => map[n]?)

def subscript₂ [Inhabited β] (maps : TreeMap κ (TreeMap ν β)) (k : κ) (n : ν) (use : β → β) :
    TreeMap κ (TreeMap ν β) := subscript maps k (fun map => subscript map n use)

variable {maps : TreeMap κ (TreeMap ν β)}

theorem foundDefault [TransOrd ν] (k : κ) (n : ν) : (maps[k]?.getD default)[n]? = found maps k n := by
  cases here : maps[k]? with
  | none => simp [found,here,default]
  | some map => simp [found,here]

variable [TransOrd κ]

theorem memOfFound {k : κ} {n : ν} {v : β} (there : found maps k n = some v) : k ∈ maps := by
  obtain ⟨map,outer,_⟩ := Option.bind_eq_some_iff.mp there
  rw [TreeMap.mem_iff_isSome_getElem?,outer]
  rfl

variable [TransOrd ν] [LawfulEqOrd κ]

theorem foundTouched (k k' : κ) (n : ν) : found (subscript maps k id) k' n = found maps k' n := by
  rcases Classical.em (k' = k) with rfl | other
  · rw [found,subscriptSame,Option.bind_some,id,foundDefault]
  · rw [found,subscriptOther maps other,found]

variable [LawfulEqOrd ν]

theorem memEntries {P : β → Prop} :
    (∀ entry ∈ maps.toList, ∀ inner ∈ entry.2.toList, P inner.2) ↔
      ∀ k n v, found maps k n = some v → P v := by
  constructor
  · intro all k n v there
    obtain ⟨map,outer,inner⟩ := Option.bind_eq_some_iff.mp there
    exact all (k,map) (TreeMap.mem_toList_iff_getElem?_eq_some.mpr outer) (n,v)
      (TreeMap.mem_toList_iff_getElem?_eq_some.mpr inner)
  · intro all entry outer inner mem
    refine all entry.1 inner.1 inner.2 (Option.bind_eq_some_iff.mpr ⟨entry.2,?_,?_⟩)
    · exact TreeMap.mem_toList_iff_getElem?_eq_some.mp outer
    · exact TreeMap.mem_toList_iff_getElem?_eq_some.mp mem

variable [Inhabited β]

theorem foundSame (k : κ) (n : ν) (use : β → β) :
    found (subscript₂ maps k n use) k n = some (use ((found maps k n).getD default)) := by
  rw [found,subscript₂,subscriptSame,Option.bind_some,subscriptSame,foundDefault]

theorem foundOther {k k' : κ} {n n' : ν} (other : ¬ (k' = k ∧ n' = n)) (use : β → β) :
    found (subscript₂ maps k n use) k' n' = found maps k' n' := by
  rcases Classical.em (k' = k) with rfl | outer
  · have inner : n' ≠ n := fun same => other ⟨rfl,same⟩
    rw [found,subscript₂,subscriptSame,Option.bind_some,subscriptOther _ inner,foundDefault]
  · rw [found,subscript₂,subscriptOther maps outer,found]

theorem foundKnown {k : κ} {n : ν} {v : β} (known : found maps k n = some v) (k' : κ) (n' : ν) :
    found (subscript₂ maps k n id) k' n' = found maps k' n' := by
  rcases Classical.em (k' = k ∧ n' = n) with ⟨rfl,rfl⟩ | other
  · rw [foundSame,known,Option.getD_some,id]
  · exact foundOther other id

end Two
end SignalSlot.Subscript
