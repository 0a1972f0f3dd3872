import SignalSlot.Library.GuardedRun
import Mathlib.Logic.Function.Basic

/-! Spin_Mutex, one atomic operation at a time, with any number of threads on one flag.
A thread that has loaded false goes on to its exchange, whatever becomes of the flag
before it gets there. -/
namespace SignalSlot.SpinMutex
open GuardedRun

inductive Pc where
  | outside | loading | yielding | exchanging | critical
  deriving DecidableEq,Repr

-- `call` enters lock(), `work` is a step of the critical section, `store` is unlock().
inductive Operation where
  | call | load | yield | exchange | work | store
  deriving DecidableEq,Repr

structure State (Tid : Type) where
  locked : Bool
  pc : Tid → Pc

def initial {Tid : Type} : State Tid := ⟨false,fun _ => .outside⟩

variable {Tid : Type}

section Operations
variable [DecidableEq Tid]

def goTo (s : State Tid) (t : Tid) (pc : Pc) : State Tid := ⟨s.locked,Function.update s.pc t pc⟩

-- `do { while (locked.load()) yield(); } while (locked.exchange(true));`
def lockStep (s : State Tid) (t : Tid) : Operation → Option (State Tid)
  | .call => if s.pc t = .outside then some (goTo s t .loading) else none
  | .load =>
      if s.pc t = .loading then some (goTo s t (if s.locked then .yielding else .exchanging)) else none
  | .yield => if s.pc t = .yielding then some (goTo s t .loading) else none
  | .exchange =>
      if s.pc t = .exchanging then
        some { goTo s t (if s.locked then .loading else .critical) with locked := true }
      else none
  | .work => if s.pc t = .critical then some s else none
  | .store => if s.pc t = .critical then some { goTo s t .outside with locked := false } else none

def step (s : State Tid) (a : Tid × Operation) : Option (State Tid) := lockStep s a.1 a.2

end Operations

/-! The cell that the policies take a mutex for: it holds the thread that is between
its successful exchange and its store, if there is one. -/
inductive Turn (t : Tid) : Operation → Option Tid → Option Tid → Prop where
  | keeps {operation owner} : Turn t operation owner owner
  | locks : Turn t .exchange none (some t)
  | unlocks : Turn t .store (some t) none

structure OwnedBy (owner : Option Tid) (s : State Tid) : Prop where
  flag : s.locked = owner.isSome
  inside : ∀ t, s.pc t = .critical ↔ owner = some t

theorem ownedInitial : OwnedBy none (initial : State Tid) :=
  ⟨rfl,fun _ => ⟨(nomatch ·),(nomatch ·)⟩⟩

theorem ownedFlag {owner : Option Tid} {s} (owned : OwnedBy owner s) : s.locked = false ↔ owner = none := by
  rw [owned.flag,Option.isSome_eq_false_iff,Option.isNone_iff_eq_none]

section Steps
variable [DecidableEq Tid] {owner : Option Tid} {s next : State Tid} {t u : Tid} {pc : Pc}

theorem goToSelf : (goTo s t pc).pc t = pc := Function.update_self ..

theorem goToOther (other : u ≠ t) : (goTo s t pc).pc u = s.pc u := Function.update_of_ne other ..

theorem ownedGoTo (owned : OwnedBy owner s) (before : s.pc t ≠ .critical) (after : pc ≠ .critical) :
    OwnedBy owner (goTo s t pc) := by
  refine ⟨owned.flag,fun u => ?_⟩
  rcases eq_or_ne u t with rfl | other
  · rw [goToSelf,← owned.inside u]
    exact ⟨fun inside => absurd inside after,fun inside => absurd inside before⟩
  · rw [goToOther other]
    exact owned.inside u

theorem ownedAcquire (owned : OwnedBy none s) :
    OwnedBy (some t) { goTo s t .critical with locked := true } := by
  refine ⟨rfl,fun u => ?_⟩
  rcases eq_or_ne u t with rfl | other
  · exact ⟨fun _ => rfl,fun _ => goToSelf⟩
  · constructor
    · intro inside
      have outside := (owned.inside u).mp ((goToOther other).symm.trans inside)
      nomatch outside
    · intro same
      exact absurd (Option.some.inj same).symm other

theorem ownedRelease (owned : OwnedBy (some t) s) :
    OwnedBy none { goTo s t .outside with locked := false } := by
  refine ⟨rfl,fun u => ?_⟩
  rcases eq_or_ne u t with rfl | other
  · exact ⟨fun inside => absurd (goToSelf.symm.trans inside) (nomatch ·),(nomatch ·)⟩
  · constructor
    · intro inside
      have same := (owned.inside u).mp ((goToOther other).symm.trans inside)
      exact absurd (Option.some.inj same).symm other
    · intro owner
      nomatch owner

theorem exchangeFree (owned : OwnedBy none s) (waiting : s.pc t = .exchanging) :
    step s (t,.exchange) = some { goTo s t .critical with locked := true } := by
  have free := (ownedFlag owned).mpr rfl
  simp only [step,lockStep,if_pos waiting,free,Bool.false_eq_true,if_false]

theorem exchangeTaken (taken : s.locked = true) (waiting : s.pc t = .exchanging) :
    step s (t,.exchange) = some (goTo s t .loading) := by
  simp only [step,lockStep,if_pos waiting,taken,if_true]
  rw [← taken]
  rfl

theorem ownedStep {a : Tid × Operation} (owned : OwnedBy owner s) (taken : step s a = some next) :
    ∃ owner', Turn a.1 a.2 owner owner' ∧ OwnedBy owner' next := by
  obtain ⟨t,operation⟩ := a
  cases operation with
  | call =>
    obtain ⟨here,⟨⟩⟩ := Option.ite_none_right_eq_some.mp taken
    exact ⟨owner,.keeps,ownedGoTo owned (here ▸ (nomatch ·)) (nomatch ·)⟩
  | load =>
    obtain ⟨here,⟨⟩⟩ := Option.ite_none_right_eq_some.mp taken
    refine ⟨owner,.keeps,ownedGoTo owned (here ▸ (nomatch ·)) ?_⟩
    split <;> exact (nomatch ·)
  | yield =>
    obtain ⟨here,⟨⟩⟩ := Option.ite_none_right_eq_some.mp taken
    exact ⟨owner,.keeps,ownedGoTo owned (here ▸ (nomatch ·)) (nomatch ·)⟩
  | exchange =>
    have here := (Option.ite_none_right_eq_some.mp taken).1
    cases flag : s.locked with
    | true =>
      cases (exchangeTaken flag here).symm.trans taken
      exact ⟨owner,.keeps,ownedGoTo owned (here ▸ (nomatch ·)) (nomatch ·)⟩
    | false =>
      cases (ownedFlag owned).mp flag
      cases (exchangeFree owned here).symm.trans taken
      exact ⟨some t,.locks,ownedAcquire owned⟩
  | work =>
    cases Option.some.inj (Option.ite_none_right_eq_some.mp taken).2
    exact ⟨owner,.keeps,owned⟩
  | store =>
    obtain ⟨here,⟨⟩⟩ := Option.ite_none_right_eq_some.mp taken
    cases (owned.inside t).mp here
    exact ⟨none,.unlocks,ownedRelease owned⟩

-- The load of a free flag, and what it leads to unless an exchange comes in between.
theorem loadFree (owned : OwnedBy none s) (loading : s.pc t = .loading) :
    step s (t,.load) = some (goTo s t .exchanging) := by
  have free := (ownedFlag owned).mpr rfl
  simp only [step,lockStep,if_pos loading,free,Bool.false_eq_true,if_false]

theorem ownedQuiet {steps} (owned : OwnedBy none s) (quiet : ∀ a ∈ steps, a.2 ≠ .exchange)
    (ran : run step s steps = some next) : OwnedBy none next := by
  induction steps generalizing s with
  | nil =>
    cases Option.some.inj ran
    exact owned
  | cons a rest ih =>
    obtain ⟨between,taken,ran⟩ := runCons.mp ran
    obtain ⟨owner,turn,owned⟩ := ownedStep owned taken
    have still : owner = none := by
      generalize operation : a.2 = performed at turn
      cases turn with
      | keeps => rfl
      | locks => exact absurd operation (quiet a List.mem_cons_self)
    exact ih (still ▸ owned) (fun a mem => quiet a (List.mem_cons_of_mem _ mem)) ran

end Steps

def Pc.Waiting : Pc → Prop
  | .loading | .yielding | .exchanging => True
  | .outside | .critical => False

structure Exclusive (s : State Tid) : Prop where
  once : ∀ t u, s.pc t = .critical → s.pc u = .critical → t = u
  flag : s.locked = true ↔ ∃ t, s.pc t = .critical

def ReachesAlone [DecidableEq Tid] (s : State Tid) (t : Tid) : Prop :=
  ∃ steps out, (∀ a ∈ steps, a.1 = t) ∧ run step s steps = some out ∧ out.pc t = .critical

/-- What a state without a holder promises: the next exchange of any thread acquires,
however far away it is, and every thread gets there by its own steps. -/
structure Acquirable [DecidableEq Tid] (s : State Tid) : Prop where
  next : ∀ steps out, (∀ a ∈ steps, a.2 ≠ .exchange) → run step s steps = some out →
    ∀ t, out.pc t = .exchanging → ∃ after, step out (t,.exchange) = some after ∧ after.pc t = .critical
  alone : ∀ t, ReachesAlone s t

/-- A thread is never stopped: outside it may call lock(), in its loops it goes on, and
the holder may work and give the lock to whoever comes next. -/
structure Proceeds [DecidableEq Tid] (s : State Tid) : Prop where
  calls : ∀ t, s.pc t = .outside → ∃ next, step s (t,.call) = some next ∧ (next.pc t).Waiting
  waits : ∀ t, (s.pc t).Waiting → ∃ operation next, step s (t,operation) = some next ∧
    ((next.pc t).Waiting ∨ next.pc t = .critical)
  works : ∀ t, s.pc t = .critical → step s (t,.work) = some s
  stores : ∀ t, s.pc t = .critical → ∃ next, step s (t,.store) = some next ∧ next.pc t = .outside ∧
    next.locked = false ∧ (∀ u, next.pc u ≠ .critical) ∧ Acquirable next

theorem ownedExclusive {owner : Option Tid} {s} (owned : OwnedBy owner s) : Exclusive s := by
  constructor
  · intro t u first second
    exact Option.some.inj (((owned.inside t).mp first).symm.trans ((owned.inside u).mp second))
  · rw [owned.flag,Option.isSome_iff_exists]
    constructor
    · intro held
      obtain ⟨t,holder⟩ := held
      exact ⟨t,(owned.inside t).mpr holder⟩
    · intro critical
      obtain ⟨t,inside⟩ := critical
      exact ⟨t,(owned.inside t).mp inside⟩

section Runs
variable [DecidableEq Tid] {s : State Tid} {t : Tid}

theorem exchangeAcquires (owned : OwnedBy none s) (waiting : s.pc t = .exchanging) :
    ∃ after, step s (t,.exchange) = some after ∧ after.pc t = .critical :=
  ⟨_,exchangeFree owned waiting,goToSelf⟩

theorem reachesBefore {operation next} (taken : step s (t,operation) = some next)
    (later : ReachesAlone next t) : ReachesAlone s t := by
  obtain ⟨steps,out,own,ran,inside⟩ := later
  exact ⟨(t,operation)::steps,out,List.forall_mem_cons.mpr ⟨rfl,own⟩,runCons.mpr ⟨next,taken,ran⟩,inside⟩

theorem exchangingReaches (owned : OwnedBy none s) (here : s.pc t = .exchanging) : ReachesAlone s t :=
  reachesBefore (exchangeFree owned here) ⟨[],_,List.forall_mem_nil _,rfl,goToSelf⟩

theorem loadingReaches (owned : OwnedBy none s) (here : s.pc t = .loading) : ReachesAlone s t := by
  have owned' : OwnedBy none (goTo s t .exchanging) := ownedGoTo owned (here ▸ (nomatch ·)) (nomatch ·)
  exact reachesBefore (loadFree owned here) (exchangingReaches owned' goToSelf)

theorem yieldingReaches (owned : OwnedBy none s) (here : s.pc t = .yielding) : ReachesAlone s t := by
  have owned' : OwnedBy none (goTo s t .loading) := ownedGoTo owned (here ▸ (nomatch ·)) (nomatch ·)
  have yields : step s (t,.yield) = some (goTo s t .loading) := by
    simp only [step,lockStep,if_pos here]
  exact reachesBefore yields (loadingReaches owned' goToSelf)

theorem outsideReaches (owned : OwnedBy none s) (here : s.pc t = .outside) : ReachesAlone s t := by
  have owned' : OwnedBy none (goTo s t .loading) := ownedGoTo owned (here ▸ (nomatch ·)) (nomatch ·)
  have calls : step s (t,.call) = some (goTo s t .loading) := if_pos here
  exact reachesBefore calls (loadingReaches owned' goToSelf)

theorem ownedAcquirable (owned : OwnedBy none s) : Acquirable s := by
  constructor
  · intro steps out quiet ran t waiting
    exact exchangeAcquires (ownedQuiet owned quiet ran) waiting
  · intro t
    cases here : s.pc t with
    | outside => exact outsideReaches owned here
    | loading => exact loadingReaches owned here
    | yielding => exact yieldingReaches owned here
    | exchanging => exact exchangingReaches owned here
    | critical => nomatch (owned.inside t).mp here

theorem waitingSteps (waiting : (s.pc t).Waiting) : ∃ operation next, step s (t,operation) = some next ∧
    ((next.pc t).Waiting ∨ next.pc t = .critical) := by
  cases here : s.pc t with
  | outside | critical =>
    rw [here] at waiting
    exact waiting.elim
  | loading =>
    refine ⟨.load,_,if_pos here,.inl ?_⟩
    rw [goToSelf]
    split <;> trivial
  | yielding =>
    refine ⟨.yield,_,if_pos here,.inl ?_⟩
    rw [goToSelf]
    trivial
  | exchanging =>
    refine ⟨.exchange,_,if_pos here,?_⟩
    change ((goTo s t _).pc t).Waiting ∨ (goTo s t _).pc t = .critical
    rw [goToSelf]
    split
    · exact .inl trivial
    · exact .inr rfl

theorem ownedProceeds {owner : Option Tid} (owned : OwnedBy owner s) : Proceeds s := by
  refine ⟨fun t outside => ⟨_,if_pos outside,?_⟩,fun t => waitingSteps,fun t inside => if_pos inside,
    fun t inside => ⟨_,if_pos inside,goToSelf,rfl,?_⟩⟩
  · rw [goToSelf]
    trivial
  · cases (owned.inside t).mp inside
    have released := @ownedRelease _ _ _ t owned
    refine ⟨fun u critical => ?_,ownedAcquirable released⟩
    nomatch (released.inside u).mp critical

theorem ownedEverywhere (actions : List (Tid × Operation)) :
    EveryState step (fun s => ∃ owner, OwnedBy owner s) (initial : State Tid) actions := by
  apply everyStateOfInvariant
  · intro s a next owned taken
    obtain ⟨owner,owned⟩ := owned
    obtain ⟨owner',_,owned'⟩ := ownedStep owned taken
    exact ⟨owner',owned'⟩
  · exact ⟨none,ownedInitial⟩

theorem spinMutexExclusive (actions : List (Tid × Operation)) :
    EveryState step (fun s => Exclusive s ∧ Proceeds s ∧ ((∀ t, s.pc t ≠ .critical) → Acquirable s))
      (initial : State Tid) actions := by
  refine everyStateImp ?_ (ownedEverywhere actions)
  intro s held
  obtain ⟨owner,owned⟩ := held
  refine ⟨ownedExclusive owned,ownedProceeds owned,fun free => ?_⟩
  cases owner with
  | none => exact ownedAcquirable owned
  | some t => exact absurd ((owned.inside t).mpr rfl) (free t)

end Runs

/-! Thread `true` waits while thread `false` is inside, and follows it. -/
def handOver : List (Bool × Operation) :=
  [(false,.call),(false,.load),(true,.call),(false,.exchange),(true,.load),(false,.work),(true,.yield),
    (false,.store),(true,.load),(true,.exchange)]

theorem handedOver : ∃ s, run step initial handOver = some s ∧ s.pc false = .outside ∧
    s.pc true = .critical ∧ Exclusive s ∧ Proceeds s := by
  have ran : (run step initial handOver).map (fun s => (s.pc false,s.pc true)) =
      some (.outside,.critical) := by decide
  obtain ⟨s,ran,places⟩ := Option.map_eq_some_iff.mp ran
  have every := everyStatePrefix.mp (spinMutexExclusive handOver) handOver [] s (List.append_nil _).symm ran
  exact ⟨s,ran,congrArg Prod.fst places,congrArg Prod.snd places,every.1,every.2.1⟩

end SignalSlot.SpinMutex
