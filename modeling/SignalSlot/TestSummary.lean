import SignalSlot.TestResults

/-! The two summary sentences over all categories. The candidates are the libraries
of the first category, and the loops only remove some of them: a library that does not
occur there is never named. -/
namespace SignalSlot.FeatureTest
open Std

/-- The sentence that names no library, or the names in the order of the sentence. -/
inductive Summary where
  | nobody (sentence : String)
  | following (lead : String) (names : List String)
  deriving DecidableEq,Repr

def Summary.names : Summary → List String
  | .nobody _ => []
  | .following _ names => names

def Summary.render : Summary → String
  | .nobody sentence => sentence ++ "\n"
  | .following lead names => lead ++ ": " ++ ", ".intercalate names ++ ".\n"

-- `results.category_to_results.begin()` has no value when there is no category.
def allTags (results : ResultsPerCategory) : Option (List String) := do
  let first ← results.toList.head?
  some first.2.outcomes.keys

section Loops
variable (passes : TestOutcome → Bool)

def eraseTags (entries : List (String × List TestOutcome)) (tags : List String) : List String :=
  entries.foldl (fun tags entry =>
    if entry.2.all passes then tags else tags.filter (fun v => v ≠ entry.1)) tags

def eraseCategories (categories : List (String × TestResults)) (tags : List String) : List String :=
  categories.foldl (fun tags category => eraseTags passes category.2.outcomes.toList tags) tags

def outputLibraries (nobody lead : String) (results : ResultsPerCategory) : Option Summary := do
  let tags ← allTags results
  let tags := eraseCategories passes results.toList tags
  some (if tags = [] then .nobody nobody else .following lead tags)

end Loops

def isSuccess (outcome : TestOutcome) : Bool := outcome = .success

def neverFails (outcome : TestOutcome) : Bool := outcome = .success ∨ outcome = .notAvailable

def outputFullySuccessfulLibraries (results : ResultsPerCategory) : Option Summary :=
  outputLibraries isSuccess "None of the tested libraries passes all the tests."
    "The following libraries pass all the tests" results

def thatCouldBeRun : String :=
  "On the tests that could be run (i.e. tests for which the required" ++
    " API is available in the tested library), "

def outputLibrariesThatNeverFail (results : ResultsPerCategory) : Option Summary :=
  outputLibraries neverFails (thatCouldBeRun ++ "none of the tested libraries passes all the tests.")
    (thatCouldBeRun ++ "the following libraries pass all the tests") results

section Specification
variable (passes : TestOutcome → Bool) (results : ResultsPerCategory)

def Occurs (tag : String) : Prop := ∃ category ∈ results.toList, tag ∈ category.2.outcomes

def Passing (tag : String) : Prop :=
  ∀ category ∈ results.toList, ∀ entry ∈ category.2.outcomes.toList,
    entry.1 = tag → entry.2.all passes = true
instance (tag : String) : Decidable (Occurs results tag ∧ Passing passes results tag) := by
  unfold Occurs Passing
  infer_instance

structure Exact (summary : Summary) : Prop where
  once : summary.names.Nodup
  named : ∀ tag, tag ∈ summary.names ↔ Occurs results tag ∧ Passing passes results tag
  nobody : (∃ sentence, summary = .nobody sentence) ↔ ¬ ∃ tag, Occurs results tag ∧ Passing passes results tag

def InFirstCategory (tag : String) : Prop :=
  ∃ first ∈ results.toList.head?, tag ∈ first.2.outcomes

end Specification

section Erase
variable {passes : TestOutcome → Bool}

theorem memEraseTags {entries : List (String × List TestOutcome)} {tags : List String} {v : String} :
    v ∈ eraseTags passes entries tags ↔
      v ∈ tags ∧ ∀ entry ∈ entries, entry.1 = v → entry.2.all passes = true := by
  induction entries generalizing tags with
  | nil => simp [eraseTags]
  | cons entry rest ih =>
    rw [eraseTags,List.foldl_cons,← eraseTags,ih,List.forall_mem_cons]
    split
    · next kept => simp only [kept,implies_true,true_and]
    · next erased =>
      rw [List.mem_filter,decide_eq_true_iff]
      constructor
      · intro ⟨⟨mem,other⟩,later⟩
        exact ⟨mem,fun same => absurd same.symm other,later⟩
      · intro ⟨mem,here,later⟩
        exact ⟨⟨mem,fun same => erased (here same.symm)⟩,later⟩

theorem eraseTagsSublist (entries : List (String × List TestOutcome)) (tags : List String) :
    (eraseTags passes entries tags).Sublist tags := by
  induction entries generalizing tags with
  | nil => exact List.Sublist.refl tags
  | cons entry rest ih =>
    rw [eraseTags,List.foldl_cons,← eraseTags]
    refine (ih _).trans ?_
    split
    · exact List.Sublist.refl tags
    · exact List.filter_sublist

theorem memEraseCategories {categories : List (String × TestResults)} {tags : List String} {v : String} :
    v ∈ eraseCategories passes categories tags ↔ v ∈ tags ∧ ∀ category ∈ categories,
      ∀ entry ∈ category.2.outcomes.toList, entry.1 = v → entry.2.all passes = true := by
  induction categories generalizing tags with
  | nil => simp [eraseCategories]
  | cons category rest ih =>
    rw [eraseCategories,List.foldl_cons,← eraseCategories,ih,List.forall_mem_cons,memEraseTags,and_assoc]

theorem eraseCategoriesSublist (categories : List (String × TestResults)) (tags : List String) :
    (eraseCategories passes categories tags).Sublist tags := by
  induction categories generalizing tags with
  | nil => exact List.Sublist.refl tags
  | cons category rest ih => exact (ih _).trans (eraseTagsSublist _ tags)

end Erase

section Summaries
variable {passes : TestOutcome → Bool} {nobody lead : String} {results : ResultsPerCategory}
variable {first : String × TestResults}

theorem printedSummary (begins : results.toList.head? = some first) :
    ∃ summary, outputLibraries passes nobody lead results = some summary ∧ summary.names.Nodup ∧
      (∀ tag, tag ∈ summary.names ↔ InFirstCategory results tag ∧ Passing passes results tag) ∧
      ((∃ sentence, summary = .nobody sentence) ↔ summary.names = []) := by
  rw [outputLibraries,allTags,begins]
  refine ⟨_,rfl,?_⟩
  have names : ∀ tags : List String,
      (if tags = [] then Summary.nobody nobody else .following lead tags).names = tags := by
    intro tags
    split
    · next none => exact none.symm
    · rfl
  rw [names]
  refine ⟨(eraseCategoriesSublist _ _).nodup TreeMap.nodup_keys,?_,?_⟩
  · intro tag
    rw [memEraseCategories,TreeMap.mem_keys,InFirstCategory,begins,Passing]
    simp only [Option.mem_some_iff,exists_eq_left']
  · split
    · next none => exact ⟨fun _ => none,fun _ => ⟨nobody,rfl⟩⟩
    · next some => exact ⟨fun ⟨_,same⟩ => (nomatch same),fun none => absurd none some⟩

theorem firstOccurs {tag : String} (inFirst : InFirstCategory results tag) : Occurs results tag := by
  obtain ⟨category,at',mem⟩ := inFirst
  exact ⟨category,List.mem_of_mem_head? at',mem⟩

theorem exactIff (begins : results.toList.head? = some first) :
    (∃ summary, outputLibraries passes nobody lead results = some summary ∧ Exact passes results summary) ↔
      ∀ tag, Occurs results tag → Passing passes results tag → InFirstCategory results tag := by
  obtain ⟨summary,printed,nodup,named,empty⟩ := @printedSummary passes nobody lead results first begins
  constructor
  · intro ⟨summary',printed',exact'⟩ tag occurs passing
    cases Option.some.inj (printed.symm.trans printed')
    exact ((named tag).mp ((exact'.named tag).mpr ⟨occurs,passing⟩)).1
  · intro inFirst
    have named' : ∀ tag, tag ∈ summary.names ↔ Occurs results tag ∧ Passing passes results tag := by
      intro tag
      rw [named]
      constructor
      · exact fun h => ⟨firstOccurs h.1,h.2⟩
      · exact fun h => ⟨inFirst tag h.1 h.2,h.2⟩
    refine ⟨summary,printed,nodup,named',empty.trans ?_⟩
    simp only [← named',not_exists,List.eq_nil_iff_forall_not_mem]

end Summaries

theorem summariesExactly (results : ResultsPerCategory) (nonempty : results.toList ≠ []) :
    ((∃ summary, outputFullySuccessfulLibraries results = some summary ∧
        Exact isSuccess results summary) ∧
      ∃ summary, outputLibrariesThatNeverFail results = some summary ∧
        Exact neverFails results summary) ↔
      ∀ tag, Occurs results tag → Passing neverFails results tag → InFirstCategory results tag := by
  obtain ⟨first,rest,list⟩ := List.exists_cons_of_ne_nil nonempty
  have begins : results.toList.head? = some first := by rw [list,List.head?_cons]
  rw [outputFullySuccessfulLibraries,outputLibrariesThatNeverFail,exactIff begins,exactIff begins]
  constructor
  · exact fun h => h.2
  · intro inFirst
    refine ⟨fun tag occurs passing => inFirst tag occurs ?_,inFirst⟩
    intro category mem entry mem' same
    have all := List.all_eq_true.mp (passing category mem entry mem' same)
    refine List.all_eq_true.mpr (fun o here => ?_)
    have success : o = .success := of_decide_eq_true (all o here)
    simp [neverFails,success]

/-! The second library succeeds in the only category it occurs in, which is not the
first one. -/
def filteredResults : ResultsPerCategory :=
  [⟨"Activation","aco","connect",.failure⟩,⟨"Swap","asg","swap",.success⟩].foldl commitTestResult ∅

theorem laterLibraryUnnamed : filteredResults.toList ≠ [] ∧
    ¬ ((∃ summary, outputFullySuccessfulLibraries filteredResults = some summary ∧
        Exact isSuccess filteredResults summary) ∧
      ∃ summary, outputLibrariesThatNeverFail filteredResults = some summary ∧
        Exact neverFails filteredResults summary) := by
  refine ⟨by decide +kernel,?_⟩
  intro ⟨_,summary,printed,exact'⟩
  have names : (outputLibrariesThatNeverFail filteredResults).map Summary.names = some [] := by
    decide +kernel
  rw [printed,Option.map_some] at names
  have named := (exact'.named "asg").mpr (by decide +kernel)
  rw [Option.some.inj names] at named
  contradiction

/-! A library that only the second category has, and that fails there. -/
def failingLater : ResultsPerCategory :=
  [⟨"Activation","aco","connect",.failure⟩,⟨"Activation","asg","connect",.success⟩,
    ⟨"Swap","asg","swap",.notAvailable⟩,⟨"Swap","jls","swap",.failure⟩].foldl commitTestResult ∅

theorem failingLaterExact :
    (∃ summary, outputFullySuccessfulLibraries failingLater = some summary ∧
        Exact isSuccess failingLater summary) ∧
      ∃ summary, outputLibrariesThatNeverFail failingLater = some summary ∧
        Exact neverFails failingLater summary := by
  refine (summariesExactly failingLater (by decide +kernel)).mpr ?_
  have tags : ∀ category ∈ failingLater.toList, ∀ tag ∈ category.2.outcomes.keys,
      (∃ first ∈ failingLater.toList.head?, tag ∈ first.2.outcomes) ∨ tag = "jls" := by decide +kernel
  intro tag occurs passing
  obtain ⟨category,mem,there⟩ := id occurs
  rcases tags category mem tag (TreeMap.mem_keys.mpr there) with here | rfl
  · exact here
  · have failing : ¬ (Occurs failingLater "jls" ∧ Passing neverFails failingLater "jls") := by decide +kernel
    exact absurd ⟨occurs,passing⟩ failing

end SignalSlot.FeatureTest
