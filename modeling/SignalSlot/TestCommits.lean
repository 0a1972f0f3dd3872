import SignalSlot.TestResults

/-! The table of a category against the tests that were committed. A library's row
is filled in the order of its own commits, the columns are numbered in the order of
the first commits by anyone. -/
namespace SignalSlot.FeatureTest
open Std Subscript

section Commits
variable (commits : List Commit) (category : String)

def descriptionsOf : List String :=
  ((commits.filter (fun c => c.category = category)).map Commit.description).eraseDups

def ofLibrary (tag : String) : List Commit :=
  commits.filter (fun c => c.category = category ∧ c.tag = tag)

def ofTest (tag description : String) : List Commit :=
  commits.filter (fun c => c.category = category ∧ c.tag = tag ∧ c.description = description)

structure Stored (results : ResultsPerCategory) : Prop where
  descriptions : ∀ category,
    (results[category]?.getD default).descriptions = descriptionsOf commits category
  outcomes : ∀ category tag, (results[category]?.getD default).outcomes[tag]? =
    if ofLibrary commits category tag = [] then none
    else some ((ofLibrary commits category tag).map Commit.outcome)

end Commits

theorem eraseDupsSnoc (xs : List String) (x : String) :
    (xs ++ [x]).eraseDups = if x ∈ xs.eraseDups then xs.eraseDups else xs.eraseDups ++ [x] := by
  simp only [List.eraseDups_append,List.mem_eraseDups]
  split
  · next seen => simp [List.removeAll,seen]
  · next fresh => simp [List.removeAll,fresh,List.eraseDups_cons]

theorem descriptionsSnoc (commits : List Commit) (category : String) (c : Commit) :
    descriptionsOf (commits ++ [c]) category =
      if c.category = category ∧ c.description ∉ descriptionsOf commits category then
        descriptionsOf commits category ++ [c.description]
      else descriptionsOf commits category := by
  unfold descriptionsOf
  rw [List.filter_append,List.map_append]
  rcases Classical.em (c.category = category) with same | other
  · simp only [same,List.filter_cons,decide_true,if_true,List.filter_nil,List.map_cons,List.map_nil,
      eraseDupsSnoc,true_and,ite_not]
  · simp [other]

theorem librarySame (commits : List Commit) (c : Commit) :
    ofLibrary (commits ++ [c]) c.category c.tag = ofLibrary commits c.category c.tag ++ [c] := by
  simp [ofLibrary,List.filter_append]

theorem libraryOther (commits : List Commit) {category tag : String} {c : Commit}
    (other : ¬ (c.category = category ∧ c.tag = tag)) :
    ofLibrary (commits ++ [c]) category tag = ofLibrary commits category tag := by
  rw [ofLibrary,List.filter_append,List.filter_cons_of_neg (by simpa using other),List.filter_nil,
    List.append_nil,ofLibrary]

theorem commitStored {commits : List Commit} {results : ResultsPerCategory}
    (stored : Stored commits results) (c : Commit) :
    Stored (commits ++ [c]) (commitTestResult results c) := by
  constructor
  · intro category
    have before := stored.descriptions category
    rw [commitTestResult,descriptionsSnoc]
    rcases Classical.em (category = c.category) with rfl | other
    · rw [subscriptSame,Option.getD_some,TestResults.add,before]
      simp only [true_and,ite_not]
    · rw [subscriptOther results other,before,if_neg (fun h => other h.1.symm)]
  · intro category tag
    have before := stored.outcomes category tag
    rw [commitTestResult]
    rcases Classical.em (category = c.category) with rfl | other
    · rw [subscriptSame,Option.getD_some,TestResults.add]
      rcases Classical.em (tag = c.tag) with rfl | otherTag
      · rw [subscriptSame,before,librarySame,List.map_append,
          if_neg (List.append_ne_nil_of_right_ne_nil _ (List.cons_ne_nil c []))]
        split
        · next none =>
          rw [none]
          rfl
        · rfl
      · rw [subscriptOther _ otherTag,before,libraryOther commits (fun h => otherTag h.2.symm)]
    · rw [subscriptOther results other,before,libraryOther commits (fun h => other h.1.symm)]

theorem storedAll (commits : List Commit) : Stored commits (commits.foldl commitTestResult ∅) := by
  have from' : ∀ (later done : List Commit) (results : ResultsPerCategory), Stored done results →
      Stored (done ++ later) (later.foldl commitTestResult results) := by
    intro later
    induction later with
    | nil => exact fun done results stored => by simpa using stored
    | cons c rest ih =>
      intro done results stored
      have next := ih (done ++ [c]) _ (commitStored stored c)
      rwa [List.append_assoc] at next
  have start : Stored [] (∅ : ResultsPerCategory) := by
    constructor
    · intro category
      rw [TreeMap.getElem?_emptyc]
      rfl
    · intro category tag
      rw [TreeMap.getElem?_emptyc]
      exact TreeMap.getElem?_emptyc
  exact from' commits [] ∅ start

section Shown
variable (commits : List Commit) (category : String)

/-- In the column of each description the row shows every outcome that was committed
for the library and the description, and there is one. -/
def ShowsCommits (descriptions : List String) (entry : String × List TestOutcome) (row : Row) : Prop :=
  ∀ (i : Nat) description, descriptions[i]? = some description →
    ofTest commits category entry.1 description ≠ [] ∧
    ∀ c ∈ ofTest commits category entry.1 description,
      ∃ width cell, row.cells[i]? = some cell ∧ Shows width c.outcome cell

def TablesFaithful (commits : List Commit) : Prop :=
  ∀ category results, (commits.foldl commitTestResult ∅)[category]? = some results →
    ∃ table, outputTestResults results = .ok table ∧
      List.Forall₂ (fun entry row => (∃ width, outputLeft entry.1 width ' ' = .ok row.library) ∧
        ShowsCommits commits category results.descriptions entry row) results.outcomes.toList table.rows

/-- The library has a test of every description of the category, and its i-th test has
the outcome of its test of the i-th description. -/
def KeepsOrder (tag : String) : Prop :=
  ∀ (i : Nat) description, (descriptionsOf commits category)[i]? = some description →
    ofTest commits category tag description ≠ [] ∧
    ∀ c ∈ ofTest commits category tag description,
      ((ofLibrary commits category tag)[i]?).map Commit.outcome = some c.outcome

def OrderKept (commits : List Commit) : Prop := ∀ c ∈ commits, KeepsOrder commits c.category c.tag

end Shown

theorem keepsOrderEnough {commits : List Commit} {category tag : String}
    (keeps : KeepsOrder commits category tag) :
    (descriptionsOf commits category).length ≤ (ofLibrary commits category tag).length := by
  cases last : (descriptionsOf commits category).length with
  | zero => exact Nat.zero_le _
  | succ n =>
    obtain ⟨description,here⟩ : ∃ description, (descriptionsOf commits category)[n]? = some description :=
      ⟨_,List.getElem?_eq_getElem (by omega)⟩
    obtain ⟨some,all⟩ := keeps n description here
    obtain ⟨c,mem⟩ := List.exists_mem_of_ne_nil _ some
    obtain ⟨own,at',_⟩ := Option.map_eq_some_iff.mp (all c mem)
    exact (List.getElem?_eq_some_iff.mp at').1

theorem showsCommitsExactly {commits : List Commit} {category tag : String} {row : Row}
    (shown : RowOf (descriptionsOf commits category).length
      (tag,(ofLibrary commits category tag).map Commit.outcome) row)
    (enough : (descriptionsOf commits category).length ≤ (ofLibrary commits category tag).length) :
    ShowsCommits commits category (descriptionsOf commits category)
        (tag,(ofLibrary commits category tag).map Commit.outcome) row ↔ KeepsOrder commits category tag := by
  have cellOf : ∀ (i : Nat) description, (descriptionsOf commits category)[i]? = some description →
      ∃ own width cell, (ofLibrary commits category tag)[i]? = some own ∧ row.cells[i]? = some cell ∧
        Shows width own.outcome cell := by
    intro i description here
    have inside := (List.getElem?_eq_some_iff.mp here).1
    obtain ⟨own,at'⟩ : ∃ own, (ofLibrary commits category tag)[i]? = some own :=
      ⟨_,List.getElem?_eq_getElem (by omega)⟩
    obtain ⟨width,cell,found,shows⟩ := shown.2 i own.outcome (by
      rw [List.getElem?_take_of_lt inside,List.getElem?_map,at',Option.map_some])
    exact ⟨own,width,cell,at',found,shows⟩
  constructor
  · intro shows i description here
    obtain ⟨some,all⟩ := shows i description here
    obtain ⟨own,width,cell,at',found,own'⟩ := cellOf i description here
    refine ⟨some,fun c mem => ?_⟩
    obtain ⟨width',cell',found',shows'⟩ := all c mem
    cases Option.some.inj (found.symm.trans found')
    rw [at',Option.map_some,showsOutcome own' shows']
  · intro keeps i description here
    obtain ⟨some,all⟩ := keeps i description here
    obtain ⟨own,width,cell,at',found,own'⟩ := cellOf i description here
    refine ⟨some,fun c mem => ⟨width,cell,found,?_⟩⟩
    have same := all c mem
    rw [at',Option.map_some] at same
    rw [← Option.some.inj same]
    exact own'

theorem forall₂Exactly {α β : Type} {R S : α → β → Prop} {P : α → Prop} {as : List α} {bs : List β}
    (related : List.Forall₂ R as bs) (exactly : ∀ a ∈ as, ∀ b, R a b → (S a b ↔ P a)) :
    List.Forall₂ S as bs ↔ ∀ a ∈ as, P a := by
  induction related with
  | nil => exact ⟨fun _ _ mem => (nomatch mem),fun _ => .nil⟩
  | cons here _ ih =>
    have same := exactly _ List.mem_cons_self _ here
    have later := ih (fun a mem => exactly a (List.mem_cons_of_mem _ mem))
    rw [List.forall₂_cons,List.forall_mem_cons,same,later]

section Category
variable {commits : List Commit} {category : String} {results : TestResults}
variable (found : (commits.foldl commitTestResult ∅)[category]? = some results)
include found

theorem storedDescriptions : results.descriptions = descriptionsOf commits category := by
  have descriptions := (storedAll commits).descriptions category
  rw [found,Option.getD_some] at descriptions
  exact descriptions

theorem storedEntry {entry} (mem : entry ∈ results.outcomes.toList) :
    ofLibrary commits category entry.1 ≠ [] ∧
      entry.2 = (ofLibrary commits category entry.1).map Commit.outcome := by
  have outcomes := (storedAll commits).outcomes category entry.1
  rw [found,Option.getD_some,TreeMap.mem_toList_iff_getElem?_eq_some.mp mem] at outcomes
  split at outcomes
  · contradiction
  · next nonempty => exact ⟨nonempty,Option.some.inj outcomes⟩

theorem storedLength {entry} (mem : entry ∈ results.outcomes.toList) :
    entry.2.length = (ofLibrary commits category entry.1).length := by
  rw [(storedEntry found mem).2,List.length_map]

theorem rowsFaithful {rows : List Row}
    (enough : ∀ entry ∈ results.outcomes.toList, results.descriptions.length ≤ entry.2.length)
    (shown : List.Forall₂ (RowOf results.descriptions.length) results.outcomes.toList rows) :
    List.Forall₂ (fun entry row => (∃ width, outputLeft entry.1 width ' ' = .ok row.library) ∧
        ShowsCommits commits category results.descriptions entry row) results.outcomes.toList rows ↔
      ∀ entry ∈ results.outcomes.toList, KeepsOrder commits category entry.1 := by
  refine forall₂Exactly shown ?_
  intro entry mem row rowOf
  have many := storedLength found mem ▸ enough entry mem
  obtain ⟨tag,outcomes⟩ := entry
  obtain rfl : outcomes = (ofLibrary commits category tag).map Commit.outcome := (storedEntry found mem).2
  rw [storedDescriptions found] at rowOf many ⊢
  rw [← showsCommitsExactly rowOf many]
  exact and_iff_right rowOf.1

theorem categoryFaithful :
    (∃ table, outputTestResults results = .ok table ∧
      List.Forall₂ (fun entry row => (∃ width, outputLeft entry.1 width ' ' = .ok row.library) ∧
        ShowsCommits commits category results.descriptions entry row)
        results.outcomes.toList table.rows) ↔
    ∀ entry ∈ results.outcomes.toList, KeepsOrder commits category entry.1 := by
  rcases Classical.em (∀ entry ∈ results.outcomes.toList,
    results.descriptions.length ≤ entry.2.length) with enough | short
  · obtain ⟨table,printed,rows⟩ := tablePrinted enough
    rw [← rowsFaithful found enough rows,printed]
    constructor
    · intro ⟨table',same,all⟩
      cases same
      exact all
    · exact fun all => ⟨table,rfl,all⟩
  · constructor
    · intro ⟨table,printed,_⟩
      obtain ⟨entry,few⟩ := not_forall.mp short
      obtain ⟨mem,less⟩ := Classical.not_imp.mp few
      rw [tableFault ⟨entry,mem,Nat.lt_of_not_ge less⟩] at printed
      contradiction
    · intro keeps
      refine absurd (fun entry mem => ?_) short
      rw [storedDescriptions found,storedLength found mem]
      exact keepsOrderEnough (keeps entry mem)

end Category

theorem faithfulOrdered {commits : List Commit} (faithful : TablesFaithful commits) :
    OrderKept commits := by
  intro c mem
  have outcomes := (storedAll commits).outcomes c.category c.tag
  have some : ofLibrary commits c.category c.tag ≠ [] :=
    List.ne_nil_of_mem (a := c) (List.mem_filter.mpr ⟨mem,by simp⟩)
  rw [if_neg some] at outcomes
  cases found : (commits.foldl commitTestResult ∅)[c.category]? with
  | none =>
    rw [found,Option.getD_none] at outcomes
    have empty : (default : TestResults).outcomes[c.tag]? = none := TreeMap.getElem?_emptyc
    rw [empty] at outcomes
    contradiction
  | some results =>
    rw [found,Option.getD_some] at outcomes
    exact (categoryFaithful found).mp (faithful c.category results found) (c.tag,_)
      (TreeMap.mem_toList_iff_getElem?_eq_some.mpr outcomes)

theorem orderedFaithful {commits : List Commit} (kept : OrderKept commits) : TablesFaithful commits := by
  intro category results found
  refine (categoryFaithful found).mpr (fun entry mem => ?_)
  obtain ⟨c,own⟩ := List.exists_mem_of_ne_nil _ (storedEntry found mem).1
  obtain ⟨committed,place⟩ := List.mem_filter.mp own
  obtain ⟨rfl,tag⟩ := of_decide_eq_true place
  exact tag ▸ kept c committed

theorem tablesFaithfulExactly (commits : List Commit) : TablesFaithful commits ↔ OrderKept commits :=
  ⟨faithfulOrdered,orderedFaithful⟩

/-! Two libraries run the same two tests, the second one in the other order. -/
def shuffledCommits : List Commit :=
  [⟨"Activation","aco","first",.success⟩,⟨"Activation","aco","second",.failure⟩,
    ⟨"Activation","asg","second",.failure⟩,⟨"Activation","asg","first",.success⟩]

theorem shuffledRowShifted :
    (shuffledCommits.Pairwise fun a b =>
      ¬ (a.category = b.category ∧ a.tag = b.tag ∧ a.description = b.description)) ∧
    ¬ TablesFaithful shuffledCommits := by
  refine ⟨by decide,fun faithful => ?_⟩
  have kept := faithfulOrdered faithful ⟨"Activation","asg","first",.success⟩ (by decide)
  have shifted := (kept 0 "first" (by decide)).2 ⟨"Activation","asg","first",.success⟩ (by decide)
  exact absurd shifted (by decide)

end SignalSlot.FeatureTest
