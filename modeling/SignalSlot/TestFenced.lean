import SignalSlot.TestCommits

/-! FENCED_TYPED_TEST. The body of a test runs in a process of its own, and its outcome
comes back as an exit status: 200 and the outcome, or 0 if none was stored. The test
framework is a parameter, of which no more is used than its documentation says. -/
namespace SignalSlot.FeatureTest.Fenced

/-- What a body does to its fixture: an outcome is stored, or an expectation fails. -/
inductive Event where
  | store (outcome : TestOutcome)
  | expectFailure
  deriving DecidableEq,Repr

inductive Ending where
  | returns
  | exits (code : Int)
  | signalled
  | throws
  deriving DecidableEq,Repr

/-- `typeid(Traits).name()`. Before the name of the class stands its length. -/
structure TypeName where
  lead : List Char
  library : String
  plain : 's' ∉ lead

structure Test where
  type : TypeName
  category : String
  description : String
  body : List Event
  ending : Ending

structure Fixture where
  libraryTag : String
  currentCategory : String
  currentDescription : String
  currentOutcome : Option TestOutcome
  failures : Nat
  deriving DecidableEq,Repr

def needle : List Char := "signal_traits_".toList

def TypeName.text (type : TypeName) : List Char := type.lead ++ needle ++ type.library.toList

def find (needle : List Char) : List Char → Option Nat
  | [] => if needle = [] then some 0 else none
  | c::rest => if needle.isPrefixOf (c::rest) then some 0 else (find needle rest).map (fun at' => at' + 1)

def substr (text : List Char) (pos : Nat) : Option String :=
  if pos ≤ text.length then some (String.ofList (text.drop pos)) else none

-- Of a name without the needle, npos + needle.size() wraps around to needle.size() - 1.
def tagOf (name : List Char) : Option String := match find needle name with
  | some at' => substr name (at' + needle.length)
  | none => substr name (needle.length - 1)

namespace Fixture

def storeTestResult (f : Fixture) (outcome : TestOutcome) : Fixture :=
  if f.currentOutcome.isSome then f else { f with currentOutcome := some outcome }

def storeLibraryTag (f : Fixture) (tag : String) : Fixture := { f with libraryTag := tag }

def testDescription (f : Fixture) (category description : String) : Fixture :=
  { f with currentCategory := category, currentDescription := description }

def clearTestResult (f : Fixture) : Fixture := { f with currentOutcome := none }

def addFailure (f : Fixture) : Fixture := { f with failures := f.failures + 1 }

def happens (f : Fixture) : Event → Fixture
  | .store outcome => f.storeTestResult outcome
  | .expectFailure => f.addFailure

end Fixture

def value : TestOutcome → Int
  | .success => 0
  | .failure => 1
  | .notAvailable => 2
  | .otherFailure => 3

def exitCodeGuard : Int := 200

/-- What the parent gets from `waitpid`. -/
inductive Status where
  | exited (code : Nat)
  | signaled
  deriving DecidableEq,Repr

def exit (code : Int) : Status := .exited (code % 256).toNat

/-- How the process of a death test ends. -/
inductive Ended where
  | died (status : Status)
  | threw
  deriving DecidableEq,Repr

/-- `HasFailure` of a test with so many failed expectations, the status that EXPECT_EXIT
calls its predicate with, whether EXPECT_EXIT fails on the answer and an empty matcher, and
RUN_ALL_TESTS of the failures that each test has. -/
structure GoogleTest where
  hasFailure : Nat → Bool
  status : Ended → Option Status
  fails : Ended → Option Bool → Bool
  runAllTests : List Nat → Int

-- What the predicate is called with after an exception is documented nowhere.
structure GoogleTest.Documented (g : GoogleTest) : Prop where
  hasFailure : ∀ failures, g.hasFailure failures = true ↔ failures ≠ 0
  status : ∀ status, g.status (.died status) = some status
  fails : ∀ status answer, g.fails (.died status) (some answer) = !answer
  threw : ∀ answer, g.fails .threw answer = true
  runAllTests : ∀ failures, g.runAllTests failures = 0 ↔ ∀ n ∈ failures, n = 0

-- The predicate's answer and the exit code that it stores.
def exitedWithCodeStored (exitCode : Int) : Status → Bool × Int
  | .signaled => (false,exitCode)
  | .exited code => (decide ((code : Int) = exitCode),code)

section Framework
variable (g : GoogleTest)

-- The value after the body has returned.
def runForkedTest (f : Fixture) : Int :=
  let f := if g.hasFailure f.failures then f.storeTestResult .failure else f
  match f.currentOutcome with
  | some outcome => exitCodeGuard + value outcome
  | none => 0

-- The other process comes to its body with the same fixture.
def forked (f : Fixture) (body : List Event) : Ending → Ended
  | .returns => .died (exit (runForkedTest g (body.foldl Fixture.happens f)))
  | .exits code => .died (exit code)
  | .signalled => .died .signaled
  | .throws => .threw

def expectExit (f : Fixture) (ended : Ended) (exitCode : Int) : Fixture × Int :=
  let called := (g.status ended).map (exitedWithCodeStored exitCode)
  (if g.fails ended (called.map Prod.fst) then f.addFailure else f,(called.map Prod.snd).getD exitCode)

def storeResultFromExitCode (f : Fixture) (exitCode : Int) : Fixture :=
  if g.hasFailure f.failures = false then f.storeTestResult .success
  else if exitCode - exitCodeGuard = value .notAvailable then f.storeTestResult .notAvailable
  else if exitCode - exitCodeGuard = value .failure then f.storeTestResult .failure
  else f.storeTestResult .otherFailure

def setUp (f : Fixture) (name : List Char) : Option Fixture := do
  let tag ← tagOf name
  some (f.storeLibraryTag tag).clearTestResult

def runBody (f : Fixture) (test : Test) : Fixture :=
  let f := f.testDescription test.category test.description
  let (f,exitCode) := expectExit g f (forked g f test.body test.ending) 0
  storeResultFromExitCode g f exitCode

-- `*m_current_outcome` of an empty optional is undefined.
def tearDown (f : Fixture) (results : ResultsPerCategory) : Option ResultsPerCategory := do
  let outcome ← f.currentOutcome
  some (commitTestResult results ⟨f.currentCategory,f.libraryTag,f.currentDescription,outcome⟩)

/-- The results so far, and what each test that ran failed. -/
structure Program where
  results : ResultsPerCategory
  failures : List Nat

def runTest (p : Program) (test : Test) : Option Program := do
  let f ← setUp ⟨"","","",none,0⟩ test.type.text
  let f := runBody g f test
  let results ← tearDown f p.results
  some ⟨results,p.failures ++ [f.failures]⟩

def runTests : Program → List Test → Option Program
  | p,[] => some p
  | p,test::rest => do
      let p ← runTest g p test
      runTests p rest

/-- `g_results` and what `main` returns. -/
structure Finished where
  results : ResultsPerCategory
  result : Int

def main (tests : List Test) : Option Finished := do
  let p ← runTests g ⟨∅,[]⟩ tests
  some ⟨p.results,g.runAllTests p.failures⟩

end Framework

/-! What is to be recorded. The first outcome that is stored stands. A success that was
stored is no success: its exit code is not the expected one. -/

def stored : Event → Option TestOutcome
  | .store outcome => some outcome
  | .expectFailure => none

def firstStored (body : List Event) : Option TestOutcome := body.findSome? stored

def ofFailed (code : Int) : TestOutcome :=
  if code = 202 then .notAvailable else if code = 201 then .failure else .otherFailure

def ofExitCode (code : Int) : TestOutcome :=
  if code % 256 = 0 then .success else ofFailed (code % 256)

def codeOf : Option Status → Int
  | some (.exited code) => code
  | _ => 0

def Test.verdict (g : GoogleTest) (test : Test) : TestOutcome := match test.ending with
  | .returns => match firstStored test.body with
    | some .notAvailable => .notAvailable
    | some .failure => .failure
    | some _ => .otherFailure
    | none => if .expectFailure ∈ test.body then .failure else .success
  | .exits code => ofExitCode code
  | .signalled => .otherFailure
  | .throws => ofFailed (codeOf (g.status .threw))

def Test.commit (g : GoogleTest) (test : Test) : Commit :=
  ⟨test.category,test.type.library,test.description,test.verdict g⟩

theorem findNeedle {lead : List Char} (plain : 's' ∉ lead) (rest : List Char) :
    find needle (lead ++ needle ++ rest) = some lead.length := by
  induction lead with
  | nil => exact if_pos (List.isPrefixOf_iff_prefix.mpr (List.prefix_append needle rest))
  | cons c lead ih =>
    obtain ⟨other,plain⟩ := List.ne_and_not_mem_of_not_mem_cons plain
    have apart : ¬ needle.isPrefixOf (c::(lead ++ needle ++ rest)) = true := by
      intro starts
      exact other (List.cons_prefix_cons.mp (List.isPrefixOf_iff_prefix.mp starts)).1
    rw [List.cons_append,List.cons_append,find,if_neg apart,ih plain]
    rfl

theorem tagOfText (type : TypeName) : tagOf type.text = some type.library := by
  have within : type.lead.length + needle.length ≤ type.text.length := by
    simp only [TypeName.text,List.length_append]
    omega
  have rest : type.text.drop (type.lead.length + needle.length) = type.library.toList := by
    rw [← List.length_append]
    exact List.drop_left
  rw [tagOf,show find needle type.text = some type.lead.length from findNeedle type.plain _]
  simp only [substr,if_pos within,rest,String.ofList_toList]

theorem bodyHappens (f : Fixture) (body : List Event) :
    (body.foldl Fixture.happens f).currentOutcome = f.currentOutcome.or (firstStored body) ∧
    (body.foldl Fixture.happens f).failures = f.failures + body.count .expectFailure := by
  induction body generalizing f with
  | nil => simp [firstStored]
  | cons e rest ih =>
    obtain ⟨outcome,failures⟩ := ih (f.happens e)
    rw [List.foldl_cons,outcome,failures]
    cases e with
    | expectFailure =>
      simp [Fixture.happens,Fixture.addFailure,firstStored,List.findSome?_cons,stored,Nat.add_right_comm,
        Nat.add_assoc]
    | store o =>
      cases here : f.currentOutcome <;>
        simp [Fixture.happens,Fixture.storeTestResult,firstStored,List.findSome?_cons,stored,here]

/-! The exit code on its way to the parent. -/

def failuresOf (outcome : TestOutcome) : Nat := if outcome = .success then 0 else 1

/-- The fixture of a test after its body, as its outcome has it. -/
def recorded (f : Fixture) (outcome : TestOutcome) : Fixture :=
  { f with currentOutcome := some outcome, failures := failuresOf outcome }

theorem failedUnsuccessful (code : Int) : ofFailed code ≠ .success := by
  unfold ofFailed
  split
  · exact TestOutcome.noConfusion
  · split <;> exact TestOutcome.noConfusion

section Decoded
variable {g : GoogleTest} {f : Fixture} (documented : g.Documented)
include documented

theorem returnedCode {body : List Event} (outcome : f.currentOutcome = firstStored body)
    (failures : f.failures = body.count .expectFailure) :
    ofExitCode (runForkedTest g f) = match firstStored body with
      | some .notAvailable => .notAvailable
      | some .failure => .failure
      | some _ => .otherFailure
      | none => if .expectFailure ∈ body then .failure else .success := by
  have failed : g.hasFailure f.failures = true ↔ .expectFailure ∈ body := by
    rw [documented.hasFailure,failures,Nat.ne_zero_iff_zero_lt,List.count_pos_iff]
  simp only [runForkedTest,Fixture.storeTestResult]
  cases first : firstStored body with
  | some o =>
    rw [first] at outcome
    simp only [outcome,Option.isSome_some,if_true,ite_self]
    cases o <;> rfl
  | none =>
    rw [first] at outcome
    simp only [outcome,Option.isSome_none,Bool.false_eq_true,if_false,failed]
    rcases Classical.em (.expectFailure ∈ body) with failed | passed
    · rw [if_pos failed,if_pos failed]
      rfl
    · rw [if_neg passed,if_neg passed,outcome]
      rfl

-- A predicate that an exception keeps from being called stores no code.
omit documented in
theorem thrownCode (g : GoogleTest) :
    (((g.status .threw).map (exitedWithCodeStored 0)).map Prod.snd).getD 0 = codeOf (g.status .threw) := by
  cases g.status .threw with
  | none => rfl
  | some status => cases status <;> rfl

section Fresh
variable (fresh : f.currentOutcome = none) (unfailed : f.failures = 0)
include fresh unfailed

theorem refused (exitCode : Int) :
    storeResultFromExitCode g f.addFailure exitCode = recorded f (ofFailed exitCode) := by
  have failed : ¬ g.hasFailure f.addFailure.failures = false := by
    rw [Bool.not_eq_false,documented.hasFailure]
    exact Nat.succ_ne_zero _
  have first : exitCode - exitCodeGuard = value .notAvailable ↔ exitCode = 202 := by
    simp only [exitCodeGuard,value]
    omega
  have second : exitCode - exitCodeGuard = value .failure ↔ exitCode = 201 := by
    simp only [exitCodeGuard,value]
    omega
  rw [storeResultFromExitCode,if_neg failed,recorded,failuresOf,if_neg (failedUnsuccessful exitCode)]
  simp only [first,second,Fixture.storeTestResult,Fixture.addFailure,fresh,unfailed,Option.isSome_none,
    Bool.false_eq_true,if_false,Nat.zero_add]
  unfold ofFailed
  split
  · rfl
  · split <;> rfl

theorem accepted (exitCode : Int) : storeResultFromExitCode g f exitCode = recorded f .success := by
  have passed : g.hasFailure f.failures = false := by
    rw [← Bool.not_eq_true,documented.hasFailure,unfailed]
    exact fun nonzero => nonzero rfl
  rw [storeResultFromExitCode,if_pos passed]
  simp [Fixture.storeTestResult,fresh,recorded,failuresOf,unfailed]

theorem exitRecorded (code : Int) : (fun (f,exitCode) => storeResultFromExitCode g f exitCode)
    (expectExit g f (.died (exit code)) 0) = recorded f (ofExitCode code) := by
  have low : ((code % 256).toNat : Int) = code % 256 := Int.toNat_of_nonneg (Int.emod_nonneg code (by decide))
  simp only [expectExit,documented.status,Option.map_some,documented.fails,exit,exitedWithCodeStored,
    Bool.not_eq_true',decide_eq_false_iff_not,low,Option.getD_some,ofExitCode]
  rcases Classical.em (code % 256 = 0) with zero | nonzero
  · rw [if_neg (not_not_intro zero),if_pos zero]
    exact accepted documented fresh unfailed _
  · rw [if_pos nonzero,if_neg nonzero]
    exact refused documented fresh unfailed _

theorem endingRecorded (test : Test) : (fun (f,exitCode) => storeResultFromExitCode g f exitCode)
    (expectExit g f (forked g f test.body test.ending) 0) = recorded f (test.verdict g) := by
  unfold Test.verdict
  cases test.ending with
  | exits code => exact exitRecorded documented fresh unfailed code
  | signalled =>
    simp only [forked,expectExit,documented.status,Option.map_some,documented.fails,exitedWithCodeStored]
    exact refused documented fresh unfailed 0
  | throws =>
    simp only [forked,expectExit,documented.threw,if_true,thrownCode]
    exact refused documented fresh unfailed _
  | returns =>
    rw [forked,exitRecorded documented fresh unfailed]
    obtain ⟨outcome,failures⟩ := bodyHappens f test.body
    rw [fresh,Option.none_or] at outcome
    rw [unfailed,Nat.zero_add] at failures
    rw [returnedCode documented outcome failures]

end Fresh

theorem testRecorded (p : Program) (test : Test) : runTest g p test =
    some ⟨commitTestResult p.results (test.commit g),p.failures ++ [failuresOf (test.verdict g)]⟩ := by
  have ran := @endingRecorded g ⟨test.type.library,test.category,test.description,none,0⟩ documented rfl rfl
    test
  simp only [runTest,setUp,tagOfText,bind,Option.bind,runBody,Fixture.storeLibraryTag,Fixture.clearTestResult,
    Fixture.testDescription,ran]
  rfl

theorem testsRecorded (p : Program) (tests : List Test) : runTests g p tests =
    some ⟨(tests.map (Test.commit g)).foldl commitTestResult p.results,
      p.failures ++ tests.map (fun test => failuresOf (test.verdict g))⟩ := by
  induction tests generalizing p with
  | nil => simp [runTests]
  | cons test rest ih =>
    simp only [runTests,testRecorded documented,bind,Option.bind,ih,List.map_cons,List.foldl_cons,
      List.append_assoc,List.singleton_append]

omit documented in
theorem verdictSuccess (g : GoogleTest) (test : Test) : test.verdict g = .success ↔
    (test.ending = .returns ∧ test.body = []) ∨ ∃ code, test.ending = .exits code ∧ code % 256 = 0 := by
  unfold Test.verdict
  cases test.ending with
  | signalled => simp
  | throws => simp [failedUnsuccessful]
  | exits code =>
    have failed := failedUnsuccessful (code % 256)
    simp only [reduceCtorEq,false_and,false_or,Ending.exits.injEq,exists_eq_left',ofExitCode]
    grind
  | returns =>
    simp only [true_and,reduceCtorEq,false_and,exists_false,or_false]
    cases test.body with
    | nil => simp [firstStored]
    | cons e rest => cases e with
      | store o => cases o <;> simp [firstStored,List.findSome?_cons,stored]
      | expectFailure =>
        simp only [firstStored,List.findSome?_cons,stored,List.mem_cons_self,if_true,reduceCtorEq,iff_false]
        split <;> simp

end Decoded

/-- Whatever the bodies do, every test of a run leaves one outcome, which depends on its
own process only. It is a success if the body stored and failed nothing, or ended the
process with a status of 0; the program returns 0 if all of them are. -/
theorem runRecorded (g : GoogleTest) (documented : g.Documented) (tests : List Test) :
    ∃ out, main g tests = some out ∧ Stored (tests.map (Test.commit g)) out.results ∧
    (out.result = 0 ↔ ∀ test ∈ tests, test.verdict g = .success) ∧
    ∀ test : Test, test.verdict g = .success ↔
      (test.ending = .returns ∧ test.body = []) ∨ ∃ code, test.ending = .exits code ∧ code % 256 = 0 := by
  refine ⟨_,by rw [main,testsRecorded documented]; rfl,storedAll _,?_,verdictSuccess g⟩
  rw [documented.runAllTests]
  simp [failuresOf]

/-- It calls the predicate after an exception too, with the status of a process that the
framework has ended. -/
def gtest : GoogleTest where
  hasFailure failures := decide (failures ≠ 0)
  status
    | .died status => some status
    | .threw => some (exit 1)
  fails
    | .died _,answer => answer != some true
    | .threw,_ => true
  runAllTests failures := if failures.all (fun n => n == 0) then 0 else 1

theorem gtestDocumented : gtest.Documented := by
  refine ⟨fun failures => decide_eq_true_iff,fun _ => rfl,fun _ answer => ?_,fun _ => rfl,fun failures => ?_⟩
  · cases answer <;> rfl
  · simp [gtest]

def yas : TypeName := ⟨"17".toList,"yas",by decide⟩

def callOrder (body : List Event) (ending : Ending) : Test := ⟨yas,"Activation","call_order",body,ending⟩

theorem mixedRecorded :
    ∃ out, main gtest [callOrder [] .returns,callOrder [.store .notAvailable] .returns,callOrder [] .throws] =
        some out ∧ out.result ≠ 0 ∧
      Stored [⟨"Activation","yas","call_order",.success⟩,⟨"Activation","yas","call_order",.notAvailable⟩,
        ⟨"Activation","yas","call_order",.otherFailure⟩] out.results := by
  obtain ⟨out,ran,stored,result,-⟩ := runRecorded gtest gtestDocumented
    [callOrder [] .returns,callOrder [.store .notAvailable] .returns,callOrder [] .throws]
  refine ⟨out,ran,fun zero => ?_,stored⟩
  have all := result.mp zero (callOrder [] .throws) (by simp)
  contradiction

end SignalSlot.FeatureTest.Fenced
