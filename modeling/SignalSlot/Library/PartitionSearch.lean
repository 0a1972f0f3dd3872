import Mathlib.Order.Defs.Unbundled
import Mathlib.Data.List.Basic

/-! Binary search on a partitioned list, and the sorted list that is kept with it.
The two searches are given by their contract alone: on a list that is not
partitioned by the comparator they may return anything. -/
namespace SignalSlot.PartitionSearch

variable {α κ : Type}

structure CutAt (p : α → Bool) (xs : List α) (i : Nat) : Prop where
  inside : i ≤ xs.length
  before : ∀ x ∈ xs.take i, p x = true
  after : ∀ x ∈ xs.drop i, p x = false

def Partitioned (p : α → Bool) (xs : List α) : Prop := ∃ i, CutAt p xs i

theorem cutTake {p : α → Bool} {xs : List α} {i} (cut : CutAt p xs i) : xs.take i = xs.filter p := by
  conv_rhs => rw [← List.take_append_drop i xs,List.filter_append]
  have left := List.filter_eq_self.mpr cut.before
  have right : (xs.drop i).filter p = [] := List.filter_eq_nil_iff.mpr (by simpa using cut.after)
  rw [left,right,List.append_nil]

theorem cutDrop {p : α → Bool} {xs : List α} {i} (cut : CutAt p xs i) :
    xs.drop i = xs.filter (fun x => !p x) := by
  conv_rhs => rw [← List.take_append_drop i xs,List.filter_append]
  have left : (xs.take i).filter (fun x => !p x) = [] :=
    List.filter_eq_nil_iff.mpr (by simpa using cut.before)
  have right : (xs.drop i).filter (fun x => !p x) = xs.drop i :=
    List.filter_eq_self.mpr (by simpa using cut.after)
  rw [left,right,List.nil_append]

theorem partitionedOfPairwise {p : α → Bool} {xs : List α}
    (lost : xs.Pairwise (fun a b => p b = true → p a = true)) : Partitioned p xs := by
  induction xs with
  | nil => exact ⟨0,by simp,by simp,by simp⟩
  | cons x rest ih =>
    obtain ⟨head,tail⟩ := List.pairwise_cons.mp lost
    cases here : p x with
    | true =>
      obtain ⟨i,cut⟩ := ih tail
      refine ⟨i+1,by simpa using cut.inside,?_,by simpa using cut.after⟩
      intro y mem
      rcases List.mem_cons.mp mem with rfl | inside
      · exact here
      · exact cut.before y inside
    | false =>
      refine ⟨0,Nat.zero_le _,by simp,?_⟩
      intro y mem
      rcases List.mem_cons.mp mem with rfl | inside
      · exact here
      · cases there : p y with
        | false => rfl
        | true => exact absurd (head y inside there) (by simp [here])

class BinarySearch where
  upperBound {α κ : Type} (valueLess : κ → α → Bool) (xs : List α) (value : κ) : Nat
  equalRange {α κ : Type} (lessValue : α → κ → Bool) (valueLess : κ → α → Bool) (xs : List α)
    (value : κ) : Nat × Nat
  upperBoundCut {α κ : Type} {valueLess : κ → α → Bool} {xs : List α} {value : κ}
    (parts : Partitioned (fun x => !valueLess value x) xs) :
    CutAt (fun x => !valueLess value x) xs (upperBound valueLess xs value)
  equalRangeCut {α κ : Type} {lessValue : α → κ → Bool} {valueLess : κ → α → Bool} {xs : List α}
    {value : κ} (lower : Partitioned (fun x => lessValue x value) xs)
    (upper : Partitioned (fun x => !valueLess value x) xs)
    (nested : ∀ x ∈ xs, lessValue x value = true → valueLess value x = false) :
    CutAt (fun x => lessValue x value) xs (equalRange lessValue valueLess xs value).1 ∧
    CutAt (fun x => !valueLess value x) xs (equalRange lessValue valueLess xs value).2

def prefixLength (p : α → Bool) (xs : List α) : Nat := (xs.takeWhile p).length

theorem prefixLengthCut {p : α → Bool} {xs : List α} (parts : Partitioned p xs) :
    CutAt p xs (prefixLength p xs) := by
  obtain ⟨i,cut⟩ := parts
  have same : xs.takeWhile p = xs.take i := by
    conv_lhs => rw [← List.take_append_drop i xs]
    rw [List.takeWhile_append_of_pos cut.before]
    cases rest : xs.drop i with
    | nil => simp
    | cons y ys =>
      have stop : p y = false := cut.after y (by simp [rest])
      simp [stop]
  have length : prefixLength p xs = i := by
    rw [prefixLength,same,List.length_take,Nat.min_eq_left cut.inside]
  rw [length]
  exact cut

@[reducible] def linearSearch : BinarySearch where
  upperBound valueLess xs value := prefixLength (fun x => !valueLess value x) xs
  equalRange lessValue valueLess xs value :=
    (prefixLength (fun x => lessValue x value) xs,prefixLength (fun x => !valueLess value x) xs)
  upperBoundCut parts := prefixLengthCut parts
  equalRangeCut lower upper _ := ⟨prefixLengthCut lower,prefixLengthCut upper⟩

/-! Insertion behind the last element that is not greater, and removal of the
whole range of equal elements, for elements compared by a key. -/
section Sorted
variable [BinarySearch] (lt : κ → κ → Bool) (key : α → κ)

def insertSorted (x : α) (xs : List α) : List α :=
  let position := BinarySearch.upperBound (fun value y => lt value (key y)) xs (key x)
  xs.take position ++ x :: xs.drop position

def eraseEqual (value : κ) (xs : List α) : List α :=
  let range := BinarySearch.equalRange (fun y value => lt (key y) value)
    (fun value y => lt value (key y)) xs value
  xs.take range.1 ++ xs.drop range.2

def NonDecreasing (xs : List α) : Prop := xs.Pairwise (fun a b => lt (key b) (key a) = false)
instance (xs : List α) : Decidable (NonDecreasing lt key xs) := by unfold NonDecreasing; infer_instance

variable {lt key} [total : IsStrictTotalOrder κ (fun a b => lt a b = true)] {xs : List α}

section Order
omit [BinarySearch]

theorem lessAsymm {a b : κ} (less : lt a b = true) : lt b a = false := by
  cases back : lt b a with
  | false => rfl
  | true => exact absurd (total.trans a b a less back) (total.irrefl a)

theorem notLessTrans {a b c : κ} (ba : lt b a = false) (less : lt b c = true) : lt a c = true := by
  rcases trichotomous_of (fun a b => lt a b = true) a b with ab | rfl | back
  · exact total.trans a b c ab less
  · exact less
  · exact absurd back (by simp [ba])

theorem lessNotTrans {a b c : κ} (less : lt a b = true) (cb : lt c b = false) : lt a c = true := by
  rcases trichotomous_of (fun a b => lt a b = true) b c with bc | rfl | back
  · exact total.trans a b c less bc
  · exact less
  · exact absurd back (by simp [cb])

theorem upperPartitioned (value : κ) (sorted : NonDecreasing lt key xs) :
    Partitioned (fun x => !lt value (key x)) xs := by
  apply partitionedOfPairwise
  refine sorted.imp (fun {a b} order beyond => ?_)
  simp only [Bool.not_eq_eq_eq_not,Bool.not_true] at beyond ⊢
  cases less : lt value (key a) with
  | false => rfl
  | true => exact absurd (lessNotTrans less order) (by simp [beyond])

theorem lowerPartitioned (value : κ) (sorted : NonDecreasing lt key xs) :
    Partitioned (fun x => lt (key x) value) xs := by
  apply partitionedOfPairwise
  exact sorted.imp (fun {a b} order less => notLessTrans order less)

end Order

theorem insertedEq (x : α) (sorted : NonDecreasing lt key xs) :
    insertSorted lt key x xs =
      xs.filter (fun y => !lt (key x) (key y)) ++ x :: xs.filter (fun y => lt (key x) (key y)) := by
  have cut := @BinarySearch.upperBoundCut _ α κ (fun value y => lt value (key y)) xs (key x)
    (upperPartitioned (key x) sorted)
  simp only [insertSorted]
  rw [cutTake cut,cutDrop cut]
  simp only [Bool.not_not]

theorem erasedEq [DecidableEq κ] (value : κ) (sorted : NonDecreasing lt key xs) :
    eraseEqual lt key value xs = xs.filter (fun y => decide (key y ≠ value)) := by
  have lower := lowerPartitioned value sorted
  have upper := upperPartitioned value sorted
  have cuts := @BinarySearch.equalRangeCut _ α κ (fun y value => lt (key y) value)
    (fun value y => lt value (key y)) xs value lower upper (fun x _ less => lessAsymm less)
  simp only [eraseEqual]
  rw [cutTake cuts.1,cutDrop cuts.2]
  simp only [Bool.not_not]
  clear cuts lower upper
  -- Below the value, then above it: what is left out in the middle is equal to it.
  induction xs with
  | nil => rfl
  | cons y rest ih =>
    obtain ⟨head,tail⟩ := List.pairwise_cons.mp sorted
    have rest' := ih tail
    rcases trichotomous_of (fun a b => lt a b = true) (key y) value with less | same | greater
    · have different : key y ≠ value := fun h => total.irrefl value (by rwa [h] at less)
      simp [less,lessAsymm less,different,rest']
    · have irrefl : lt value value = false := by simpa using total.irrefl value
      simpa [same,irrefl] using rest'
    · have different : key y ≠ value := fun h => total.irrefl value (by rwa [h] at greater)
      have none : rest.filter (fun z => lt (key z) value) = [] := by
        refine List.filter_eq_nil_iff.mpr (fun z mem low => ?_)
        exact absurd (notLessTrans (head z mem) low) (by simp [lessAsymm greater])
      rw [none,List.nil_append] at rest'
      simp [greater,lessAsymm greater,different,none,rest']

theorem insertedNonDecreasing (x : α) (sorted : NonDecreasing lt key xs) :
    NonDecreasing lt key (insertSorted lt key x xs) := by
  rw [insertedEq x sorted]
  refine List.pairwise_append.mpr ⟨sorted.filter _,List.pairwise_cons.mpr ⟨?_,sorted.filter _⟩,?_⟩
  · intro y mem
    exact lessAsymm (List.mem_filter.mp mem).2
  · intro a memA b memB
    have low : lt (key x) (key a) = false := by simpa using (List.mem_filter.mp memA).2
    rcases List.mem_cons.mp memB with rfl | high
    · exact low
    · exact lessAsymm (notLessTrans low (List.mem_filter.mp high).2)

theorem erasedNonDecreasing (value : κ) (sorted : NonDecreasing lt key xs) :
    NonDecreasing lt key (eraseEqual lt key value xs) := by
  classical
  rw [erasedEq value sorted]
  exact sorted.filter _

theorem insertedPerm (x : α) (sorted : NonDecreasing lt key xs) :
    (insertSorted lt key x xs).Perm (x :: xs) := by
  rw [insertedEq x sorted]
  refine List.perm_middle.trans (List.Perm.cons x ?_)
  simpa using List.filter_append_perm (fun y => !lt (key x) (key y)) xs

omit total [BinarySearch] in
theorem filterByKey [DecidableEq κ] (key : α → κ) (p : κ → Bool) (value : κ) (xs : List α) :
    (xs.filter (fun y => p (key y))).filter (fun y => decide (key y = value)) =
      if p value then xs.filter (fun y => decide (key y = value)) else [] := by
  induction xs with
  | nil => simp
  | cons y rest ih =>
    by_cases equal : key y = value <;> cases keep : p (key y) <;> simp_all

theorem insertedFilter [DecidableEq κ] (x : α) (value : κ) (sorted : NonDecreasing lt key xs) :
    (insertSorted lt key x xs).filter (fun y => decide (key y = value)) =
      if key x = value then xs.filter (fun y => decide (key y = value)) ++ [x]
      else xs.filter (fun y => decide (key y = value)) := by
  have low := filterByKey key (fun k => !lt (key x) k) value xs
  have high := filterByKey key (fun k => lt (key x) k) value xs
  rw [insertedEq x sorted,List.filter_append,List.filter_cons,low,high]
  by_cases same : key x = value
  · have irrefl : lt value value = false := by simpa using total.irrefl value
    simp [same,irrefl]
  · cases side : lt (key x) value <;> simp [same]

end Sorted
end SignalSlot.PartitionSearch
