import Mathlib.Algebra.BigOperators.Group.List.Basic

/-! Sums over lists that are read along different axes: two lists in either order, and
a list grouped by a key. -/
namespace SignalSlot.ListSums

variable {α β κ M : Type*} [AddCommMonoid M]

theorem sumSwap (as : List α) (bs : List β) (f : α → β → M) :
    (as.map (fun a => (bs.map (fun b => f a b)).sum)).sum =
      (bs.map (fun b => (as.map (fun a => f a b)).sum)).sum := by
  induction as with
  | nil => simp
  | cons a rest ih => simp only [List.map_cons,List.sum_cons,ih,List.sum_map_add]

variable [DecidableEq κ] (key : α → κ) (f : α → M)

def sumAt (k : κ) (as : List α) : M := ((as.filter (fun a => key a = k)).map f).sum

theorem sumAtCons (k : κ) (a : α) (as : List α) :
    sumAt key f k (a::as) = (if key a = k then f a else 0) + sumAt key f k as := by
  unfold sumAt
  rw [List.filter_cons]
  split
  · next same => rw [if_pos (of_decide_eq_true same),List.map_cons,List.sum_cons]
  · next other => rw [if_neg (by simpa using other),zero_add]

theorem sumOne {keys : List κ} (nodup : keys.Nodup) {k : κ} (mem : k ∈ keys) (x : M) :
    (keys.map (fun k' => if k = k' then x else 0)).sum = x := by
  induction keys with
  | nil => contradiction
  | cons k' rest ih =>
    obtain ⟨fresh,nodupRest⟩ := List.nodup_cons.mp nodup
    rw [List.map_cons,List.sum_cons]
    rcases List.mem_cons.mp mem with rfl | later
    · have none : rest.map (fun k' => if k = k' then x else 0) = rest.map (fun _ => 0) :=
        List.map_congr_left (fun k' mem => if_neg (ne_of_mem_of_not_mem mem fresh).symm)
      rw [if_pos rfl,none,List.sum_map_zero,add_zero]
    · rw [if_neg (ne_of_mem_of_not_mem later fresh),zero_add,ih nodupRest later]

theorem sumByKey {keys : List κ} (nodup : keys.Nodup) {as : List α} (inside : ∀ a ∈ as, key a ∈ keys) :
    (keys.map (fun k => sumAt key f k as)).sum = (as.map f).sum := by
  induction as with
  | nil => simp [sumAt]
  | cons a rest ih =>
    have later := ih (fun b mem => inside b (List.mem_cons_of_mem _ mem))
    simp only [sumAtCons,List.sum_map_add,later,List.map_cons,List.sum_cons,
      sumOne nodup (inside a List.mem_cons_self)]

theorem sumAtRepeated (R : Nat) (k : κ) (as : List α) :
    sumAt key f k (List.replicate R as).flatten = R • sumAt key f k as := by
  induction R with
  | zero => simp [sumAt]
  | succ n ih =>
    have split : sumAt key f k (as ++ (List.replicate n as).flatten) =
        sumAt key f k as + sumAt key f k (List.replicate n as).flatten := by
      rw [sumAt,List.filter_append,List.map_append,List.sum_append,sumAt,sumAt]
    rw [List.replicate_succ,List.flatten_cons,split,ih,succ_nsmul']

end SignalSlot.ListSums
