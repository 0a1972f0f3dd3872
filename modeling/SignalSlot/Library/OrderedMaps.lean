import Mathlib.Data.List.Perm.Subperm
import Mathlib.Order.Lattice
import Mathlib.Order.Std

/-! Ordered maps read as lists: the keys and the values are the two columns of the
list of entries, and a column of keys is determined by its members. -/
namespace SignalSlot.OrderedMaps
open Std

variable {κ β : Type} [LinearOrder κ]

theorem valuesColumn (map : TreeMap κ β) : map.values = map.toList.map Prod.snd := by
  have folded : map.values = map.foldr (fun _ b vals => b::vals) [] := rfl
  rw [folded,TreeMap.foldr_eq_foldr_toList]
  induction map.toList with
  | nil => rfl
  | cons entry rest ih => rw [List.foldr_cons,List.map_cons,ih]

theorem increasingKeys (map : TreeMap κ β) : map.keys.Pairwise (fun a b => a < b) :=
  TreeMap.ordered_keys.imp (fun less => compare_lt_iff_lt.mp less)

theorem increasingExt {as bs : List κ} (increasing : as.Pairwise (fun a b => a < b))
    (increasing' : bs.Pairwise (fun a b => a < b)) (inside : as ⊆ bs) (length : bs.length ≤ as.length) :
    as = bs := by
  have nodup : as.Nodup := by
    refine increasing.imp (fun less equal => ?_)
    rw [equal] at less
    exact lt_irrefl _ less
  have perm := (List.subperm_of_subset nodup inside).perm_of_length_le length
  refine perm.eq_of_pairwise ?_ increasing increasing'
  intro a b _ _ less greater
  exact absurd less (lt_asymm greater)

theorem entriesExt {a b : TreeMap κ β} (same : ∀ k : κ, a[k]? = b[k]?) : a.toList = b.toList := by
  have nodup : ∀ map : TreeMap κ β, map.toList.Nodup := by
    intro map
    refine TreeMap.ordered_keys_toList.imp (fun less equal => ?_)
    rw [equal] at less
    exact lt_irrefl _ (compare_lt_iff_lt.mp less)
  have perm : a.toList.Perm b.toList := by
    refine (List.perm_ext_iff_of_nodup (nodup a) (nodup b)).mpr (fun (k,v) => ?_)
    rw [TreeMap.mem_toList_iff_getElem?_eq_some,TreeMap.mem_toList_iff_getElem?_eq_some,same]
  refine perm.eq_of_pairwise ?_ TreeMap.ordered_keys_toList TreeMap.ordered_keys_toList
  intro x y _ _ less greater
  exact absurd (compare_lt_iff_lt.mp less) (lt_asymm (compare_lt_iff_lt.mp greater))

variable {γ : Type}

theorem keysExt {a : TreeMap κ β} {b : TreeMap κ γ} (same : ∀ k : κ, k ∈ a ↔ k ∈ b) : a.keys = b.keys := by
  have perm : a.keys.Perm b.keys := by
    refine (List.perm_ext_iff_of_nodup TreeMap.nodup_keys TreeMap.nodup_keys).mpr (fun k => ?_)
    rw [TreeMap.mem_keys,TreeMap.mem_keys,same]
  refine perm.eq_of_pairwise ?_ (increasingKeys a) (increasingKeys b)
  intro x y _ _ less greater
  exact absurd less (lt_asymm greater)

theorem keysInsert {a : TreeMap κ β} {b : TreeMap κ γ} (same : a.keys = b.keys) (k : κ) (v : β) (v' : γ) :
    (a.insert k v).keys = (b.insert k v').keys := by
  refine keysExt (fun x => ?_)
  rw [TreeMap.mem_insert,TreeMap.mem_insert,← TreeMap.mem_keys,← TreeMap.mem_keys,same]

theorem keysReplace {a : TreeMap κ β} {k : κ} (there : k ∈ a.keys) (v : β) : (a.insert k v).keys = a.keys := by
  refine keysExt (fun x => ?_)
  rw [TreeMap.mem_insert,or_iff_right_iff_imp]
  intro equal
  rw [← LawfulEqCmp.eq_of_compare equal]
  exact TreeMap.mem_keys.mp there

end SignalSlot.OrderedMaps
