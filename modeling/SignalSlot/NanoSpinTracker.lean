import SignalSlot.Library.Simulation
import SignalSlot.NanoDestructorBarrier
import SignalSlot.NanoLockDiscipline
import SignalSlot.NanoSpinMutex

/-! TS_Policy_Safe over Spin_Mutex, with one atomic operation of a mutex at a time. A
critical section ends before its mutex is free: the guard stores false afterwards, and
meanwhile other threads spin. The states are those of the machine whose mutexes are
taken and given back in one step, and each of that machine's steps is a run of this one. -/
namespace SignalSlot.SpinTracker
open PartitionSearch GuardedRun Simulation

variable {w : Nat} {Obj Tid : Type}

/-- `unlocking` is the mutex whose guard a thread is about to leave. -/
structure State (w : Nat) (Obj Tid : Type) where
  connections : Obj → Connections w (Option Obj)
  tracker : Obj → Bool
  useCount : Obj → Nat
  mutex : Obj → SpinMutex.State Tid
  threads : Tid → Tracker.Thread w Obj
  unlocking : Tid → Option Obj

inductive Action (w : Nat) (Obj : Type) where
  | atomic (operation : SpinMutex.Operation)
  | move (body : List (Tracker.Call w Obj))

-- What a step outside of lock() and unlock() may look at: no mutex is asked.
def State.shared (s : State w Obj Tid) : Tracker.Shared w Obj Tid :=
  ⟨s.connections,s.tracker,s.useCount,fun _ => none⟩

/-- The guard that ends with the step that a thread takes at a point of its program. -/
def leaves : Tracker.Pc w Obj → Option Obj
  | .inside (.clear _) => none
  | .inside work => some work.target
  | .visiting x [] => some x
  | _ => none

def locks : SpinMutex.Operation → Bool
  | .call | .load | .yield | .exchange => true
  | .work | .store => false

def arrive (m : SpinMutex.State Tid) (t : Tid) (work : Tracker.Section w Obj)
    (th : Tracker.Thread w Obj) : Tracker.Thread w Obj :=
  if m.pc t = .critical then { th with pc := .inside work } else th

section Step
variable [DecidableEq Obj] [DecidableEq Tid]

def State.withLock (s : State w Obj Tid) (t : Tid) (work : Tracker.Section w Obj)
    (m : SpinMutex.State Tid) : State w Obj Tid := { s with
  mutex := Function.update s.mutex work.target m
  threads := Function.update s.threads t (arrive m t work (s.threads t)) }

def lockStep (s : State w Obj Tid) (t : Tid) (operation : SpinMutex.Operation)
    (work : Tracker.Section w Obj) : Option (State w Obj Tid) := do
  let m ← SpinMutex.step (s.mutex work.target) (t,operation)
  some (s.withLock t work m)

def unlockStep (s : State w Obj Tid) (t : Tid) (y : Obj) : Option (State w Obj Tid) := do
  let m ← SpinMutex.step (s.mutex y) (t,.store)
  some { s with
    mutex := Function.update s.mutex y m
    unlocking := Function.update s.unlocking t none }

def moveStep [BinarySearch] (layout : Layout w Obj) (s : State w Obj Tid) (t : Tid)
    (body : List (Tracker.Call w Obj)) : Option (State w Obj Tid) := do
  let (g,th) ← Tracker.threadStep layout t s.shared (s.threads t) body
  some { s with
    connections := g.connections
    tracker := g.tracker
    useCount := g.useCount
    threads := Function.update s.threads t th
    unlocking := Function.update s.unlocking t (leaves (s.threads t).pc) }

def step [BinarySearch] (layout : Layout w Obj) (s : State w Obj Tid) (action : Tid × Action w Obj) :
    Option (State w Obj Tid) :=
  match s.unlocking action.1,(s.threads action.1).pc,action.2 with
  | some y,_,.atomic .store => unlockStep s action.1 y
  | none,.locking work,.atomic operation =>
      if locks operation then lockStep s action.1 operation work else none
  | none,.locking _,.move _ => none
  | none,_,.move body => moveStep layout s action.1 body
  | _,_,_ => none

end Step

def start (connections : Obj → Connections w (Option Obj)) (tracker : Obj → Bool)
    (programs : Tid → List (Tracker.Call w Obj)) : State w Obj Tid where
  connections := connections
  tracker := tracker
  useCount x := (tracker x).toNat
  mutex _ := SpinMutex.initial
  threads t := ⟨.idle,programs t,[]⟩
  unlocking _ := none

/-! One flag and the mutex that stands for it above. While a guard is being left, its
mutex is free above and the flag is still set. -/
structure Cell (s : State w Obj Tid) (y : Obj) (shown owner : Option Tid) : Prop where
  owned : SpinMutex.OwnedBy owner (s.mutex y)
  leaving : ∀ t, s.unlocking t = some y → owner = some t ∧ shown = none
  settled : (∀ t, s.unlocking t ≠ some y) → shown = owner

def State.above (s : State w Obj Tid) (mutex : Obj → Option Tid) : Tracker.State w Obj Tid :=
  ⟨⟨s.connections,s.tracker,s.useCount,mutex⟩,s.threads⟩

structure Matches (a : Tracker.State w Obj Tid) (s : State w Obj Tid) : Prop where
  same : a = s.above a.shared.mutex
  inv : LockDiscipline.Inv a
  cells : ∀ y, ∃ owner, Cell s y (a.shared.mutex y) owner

section Mutex
variable [DecidableEq Tid] {owner : Option Tid} {m m' : SpinMutex.State Tid} {t : Tid}
  {operation : SpinMutex.Operation}

theorem criticalBlocks (inside : m.pc t = .critical) (locking : locks operation = true) :
    SpinMutex.step m (t,operation) = none := by
  cases operation with
  | call | load | yield | exchange =>
    simp only [SpinMutex.step,SpinMutex.lockStep,inside]
    rfl
  | work | store => contradiction

theorem lockOutcome (owned : SpinMutex.OwnedBy owner m) (locking : locks operation = true)
    (taken : SpinMutex.step m (t,operation) = some m') :
    m'.pc t ≠ .critical ∧ SpinMutex.OwnedBy owner m' ∨
      owner = none ∧ m'.pc t = .critical ∧ SpinMutex.OwnedBy (some t) m' := by
  obtain ⟨owner',turn,owned'⟩ := SpinMutex.ownedStep owned taken
  cases turn with
  | keeps =>
    refine .inl ⟨fun inside => ?_,owned'⟩
    have mine := (owned'.inside t).mp inside
    have before := (owned.inside t).mpr mine
    cases (criticalBlocks before locking).symm.trans taken
  | locks => exact .inr ⟨rfl,(owned'.inside t).mpr rfl,owned'⟩
  | unlocks => contradiction

theorem unlockOutcome (owned : SpinMutex.OwnedBy owner m)
    (taken : SpinMutex.step m (t,.store) = some m') : owner = some t ∧ SpinMutex.OwnedBy none m' := by
  obtain ⟨here,⟨⟩⟩ := Option.ite_none_right_eq_some.mp taken
  cases (owned.inside t).mp here
  exact ⟨rfl,SpinMutex.ownedRelease owned⟩

end Mutex

section Moves
variable [DecidableEq Obj] [BinarySearch] {layout : Layout w Obj} {t : Tid} {body : List (Tracker.Call w Obj)}
  {g g' : Tracker.Shared w Obj Tid} {th th' : Tracker.Thread w Obj}

def released (mutex : Obj → Option Tid) (pc : Tracker.Pc w Obj) : Obj → Option Tid :=
  (leaves pc).elim mutex (fun y => Function.update mutex y none)

omit [BinarySearch] in
theorem releasedOther {mutex : Obj → Option Tid} {pc : Tracker.Pc w Obj} {y} (other : leaves pc ≠ some y) :
    released mutex pc y = mutex y := by
  cases left : leaves pc with
  | none => simp only [released,left,Option.elim_none]
  | some z =>
    simp only [released,left,Option.elim_some]
    exact Function.update_of_ne (fun same => other (left.trans (congrArg some same.symm))) _ _

omit [BinarySearch] in
theorem releasedHere {mutex : Obj → Option Tid} {pc : Tracker.Pc w Obj} {y} (left : leaves pc = some y) :
    released mutex pc y = none := by
  simp only [released,left,Option.elim_some,Function.update_self]

/-- Outside of lock() no step asks for a mutex, so it is the same step whatever the mutexes are. -/
theorem moveMutex {mutex shown : Obj → Option Tid} (apart : ∀ work, th.pc ≠ .locking work)
    (taken : Tracker.threadStep layout t { g with mutex := mutex } th body = some (g',th')) :
    Tracker.threadStep layout t { g with mutex := shown } th body =
      some ({ g' with mutex := released shown th.pc },th') := by
  have move := Tracker.moveOfStep taken
  cases move with
  | locks free => exact absurd rfl (apart _)
  | works =>
    rename_i work program outer
    cases work with
    | update u rest => cases u <;> rfl
    | isEmpty y | copy y | clear y => rfl
    | forget y slot rest => rfl
  | destroys live => exact if_pos live
  | begins started =>
    rename_i call later outer pc
    cases call with
    | destroy x => contradiction
    | connect | disconnect | disconnectAll | isEmpty | fire =>
      cases Option.some.inj started
      rfl
  | skips missing | passes missing =>
    simp only [Tracker.threadStep]
    split
    · rfl
    · next found => cases found.symm.trans missing
  | calls present | visits present =>
    simp only [Tracker.threadStep]
    split
    · next missing => cases missing.symm.trans present
    · next found =>
      cases found.symm.trans present
      rfl
  | expires expired | finishes expired => exact if_pos expired
  | pings lingering => exact if_neg lingering
  | returns | emitted | clears | leaves | drops => rfl

theorem lockTaken {work : Tracker.Section w Obj} (here : th.pc = .locking work)
    (free : g.mutex work.target = none) : Tracker.threadStep layout t g th body =
      some (g.lock work.target t,{ th with pc := .inside work }) := by
  simp only [Tracker.threadStep,here,free,if_true]

end Moves

section Down
variable [DecidableEq Obj] [DecidableEq Tid] [BinarySearch] {layout : Layout w Obj}
  {a : Tracker.State w Obj Tid} {s next : State w Obj Tid} {t : Tid} {y : Obj}

theorem stepCases {action : Action w Obj} (taken : step layout s (t,action) = some next) :
    (∃ y, s.unlocking t = some y ∧ unlockStep s t y = some next) ∨
    (∃ work operation, s.unlocking t = none ∧ (s.threads t).pc = .locking work ∧
      locks operation = true ∧ lockStep s t operation work = some next) ∨
    (∃ body, s.unlocking t = none ∧ (∀ work, (s.threads t).pc ≠ .locking work) ∧
      moveStep layout s t body = some next) := by
  simp only [step] at taken
  split at taken
  · next left => exact .inl ⟨_,left,taken⟩
  · next settled here =>
    obtain ⟨locking,taken⟩ := Option.ite_none_right_eq_some.mp taken
    exact .inr (.inl ⟨_,_,settled,here,locking,taken⟩)
  · contradiction
  · next settled apart => exact .inr (.inr ⟨_,settled,apart,taken⟩)
  · contradiction

omit [DecidableEq Obj] [BinarySearch] in
theorem unlockingOther {z : Option Obj} (before : s.unlocking t ≠ some y) (after : z ≠ some y) (u : Tid) :
    Function.update s.unlocking t z u = some y ↔ s.unlocking u = some y := by
  rcases eq_or_ne u t with rfl | other
  · rw [Function.update_self]
    exact ⟨fun same => absurd same after,fun same => absurd same before⟩
  · rw [Function.update_of_ne other]

omit [DecidableEq Obj] [DecidableEq Tid] [BinarySearch] in
-- The flag of another mutex and what stands for it above do not notice the step.
theorem cellOther {shown shown' : Option Tid} (cell : ∃ owner, Cell s y shown owner)
    (mutex : next.mutex y = s.mutex y) (same : shown' = shown)
    (unlocking : ∀ u, next.unlocking u = some y ↔ s.unlocking u = some y) :
    ∃ owner, Cell next y shown' owner := by
  obtain ⟨owner,cell⟩ := cell
  subst same
  refine ⟨owner,mutex ▸ cell.owned,?_,?_⟩
  · exact fun u left => cell.leaving u ((unlocking u).mp left)
  · exact fun nobody => cell.settled (fun u left => nobody u ((unlocking u).mpr left))

section WithLock
variable {work : Tracker.Section w Obj} {m : SpinMutex.State Tid}

omit [BinarySearch]

theorem withLockHere : (s.withLock t work m).mutex work.target = m := Function.update_self ..

theorem withLockOther (other : y ≠ work.target) : (s.withLock t work m).mutex y = s.mutex y :=
  Function.update_of_ne other ..

end WithLock

omit [BinarySearch] in
theorem unlockMatched (related : Matches a s) (left : s.unlocking t = some y)
    (taken : unlockStep s t y = some next) : Matches a next := by
  obtain ⟨same,inv,cells⟩ := related
  obtain ⟨m,stored,last⟩ := Option.bind_eq_some_iff.mp taken
  cases Option.some.inj last
  refine ⟨same,inv,fun z => ?_⟩
  rcases eq_or_ne z y with rfl | other
  · obtain ⟨owner,cell⟩ := cells z
    obtain ⟨rfl,owned⟩ := unlockOutcome cell.owned stored
    have free := (cell.leaving t left).2
    refine ⟨none,?_,?_,fun _ => free⟩
    · simp only [Function.update_self]
      exact owned
    · intro u leaving
      refine ⟨?_,free⟩
      rcases eq_or_ne u t with rfl | another
      · simp only [Function.update_self] at leaving
        contradiction
      · simp only [Function.update_of_ne another] at leaving
        exact absurd (Option.some.inj (cell.leaving u leaving).1).symm another
  · have elsewhere : s.unlocking t ≠ some z := by
      intro same
      exact other (Option.some.inj (same.symm.trans left))
    exact cellOther (cells z) (Function.update_of_ne other _ _) rfl (unlockingOther elsewhere (nomatch ·))

omit [BinarySearch] in
theorem spinMatched {operation m} {work : Tracker.Section w Obj} (related : Matches a s)
    (locking : locks operation = true) (locked : SpinMutex.step (s.mutex work.target) (t,operation) = some m)
    (outside : m.pc t ≠ .critical) : Matches a (s.withLock t work m) := by
  obtain ⟨mutex,rfl⟩ : ∃ mutex, a = s.above mutex := ⟨_,related.same⟩
  obtain ⟨_,inv,cells⟩ := related
  obtain ⟨owner,cell⟩ := cells work.target
  rcases lockOutcome cell.owned locking locked with ⟨_,owned⟩ | ⟨_,inside,_⟩
  · refine ⟨?_,inv,fun z => ?_⟩
    · simp only [State.above,State.withLock,arrive,if_neg outside,Function.update_eq_self]
    · rcases eq_or_ne z work.target with rfl | other
      · refine ⟨owner,?_,cell.leaving,cell.settled⟩
        rw [withLockHere]
        exact owned
      · exact cellOther (cells z) (withLockOther other) rfl (fun _ => Iff.rfl)
  · exact absurd inside outside

theorem arriveMatched {operation m} {work : Tracker.Section w Obj} (related : Matches a s)
    (here : (s.threads t).pc = .locking work) (locking : locks operation = true)
    (locked : SpinMutex.step (s.mutex work.target) (t,operation) = some m) (inside : m.pc t = .critical) :
    ∃ out, (∀ body, Tracker.step layout a (t,body) = some out) ∧ Matches out (s.withLock t work m) := by
  obtain ⟨mutex,rfl⟩ : ∃ mutex, a = s.above mutex := ⟨_,related.same⟩
  obtain ⟨_,inv,cells⟩ := related
  obtain ⟨owner,cell⟩ := cells work.target
  rcases lockOutcome cell.owned locking locked with ⟨outside,_⟩ | ⟨rfl,_,owned⟩
  · exact absurd inside outside
  · have nobody : ∀ u, s.unlocking u ≠ some work.target := fun u left => nomatch (cell.leaving u left).1
    have free : mutex work.target = none := cell.settled nobody
    have step body : Tracker.step layout (s.above mutex) (t,body) =
        some ⟨(s.above mutex).shared.lock work.target t,
          Function.update s.threads t { s.threads t with pc := .inside work }⟩ :=
      Option.bind_eq_some_iff.mpr ⟨_,lockTaken here free,rfl⟩
    refine ⟨_,step,?_,LockDiscipline.stepKeeps inv (step []),fun z => ?_⟩
    · simp only [State.above,State.withLock,arrive,if_pos inside]
      rfl
    · rcases eq_or_ne z work.target with rfl | other
      · refine ⟨some t,?_,fun u left => absurd left (nobody u),fun _ => Function.update_self ..⟩
        rw [withLockHere]
        exact owned
      · exact cellOther (cells z) (withLockOther other) (Function.update_of_ne other _ _)
          (fun _ => Iff.rfl)

omit [DecidableEq Obj] [BinarySearch] in
theorem leavesAccesses {pc : Tracker.Pc w Obj} (left : leaves pc = some y) : LockDiscipline.Accesses y pc := by
  unfold leaves at left
  split at left
  · contradiction
  · exact Option.some.inj left
  · exact Option.some.inj left
  · contradiction

theorem moveMatched {body} (related : Matches a s) (settled : s.unlocking t = none)
    (apart : ∀ work, (s.threads t).pc ≠ .locking work) (taken : moveStep layout s t body = some next) :
    ∃ out, Tracker.step layout a (t,body) = some out ∧ Matches out next := by
  obtain ⟨mutex,rfl⟩ : ∃ mutex, a = s.above mutex := ⟨_,related.same⟩
  obtain ⟨_,inv,cells⟩ := related
  obtain ⟨⟨g,th⟩,moved,last⟩ := Option.bind_eq_some_iff.mp taken
  cases Option.some.inj last
  have above : Tracker.threadStep layout t (s.above mutex).shared (s.threads t) body =
      some ({ g with mutex := released mutex (s.threads t).pc },th) :=
    @moveMutex _ _ _ _ _ _ _ _ s.shared g _ _ _ mutex apart moved
  have step : Tracker.step layout (s.above mutex) (t,body) =
      some ⟨{ g with mutex := released mutex (s.threads t).pc },Function.update s.threads t th⟩ :=
    Option.bind_eq_some_iff.mpr ⟨_,above,rfl⟩
  refine ⟨_,step,rfl,LockDiscipline.stepKeeps inv step,fun z => ?_⟩
  rcases eq_or_ne (leaves (s.threads t).pc) (some z) with left | other
  · obtain ⟨owner,cell⟩ := cells z
    have mine : mutex z = some t := (inv.owner t z).mpr (LockDiscipline.accessesHeld (leavesAccesses left))
    have nobody : ∀ u, s.unlocking u ≠ some z := by
      intro u leaving
      cases mine.symm.trans (cell.leaving u leaving).2
    refine ⟨owner,cell.owned,?_,?_⟩
    · intro u leaving
      refine ⟨?_,releasedHere left⟩
      rcases eq_or_ne u t with rfl | another
      · exact (cell.settled nobody).symm.trans mine
      · simp only [Function.update_of_ne another] at leaving
        exact absurd leaving (nobody u)
    · intro still
      refine absurd ?_ (still t)
      simp only [Function.update_self]
      exact left
  · have elsewhere : s.unlocking t ≠ some z := fun same => nomatch settled.symm.trans same
    exact cellOther (cells z) rfl (releasedOther other) (unlockingOther elsewhere other)

theorem stepMatched : Simulates (Tracker.step layout) (step layout) (@Matches w Obj Tid) := by
  intro a s action next related taken
  obtain ⟨t,action⟩ := action
  rcases stepCases taken with ⟨y,left,taken⟩ | ⟨work,operation,_,here,locking,taken⟩ |
    ⟨body,settled,apart,taken⟩
  · exact ⟨[],a,rfl,unlockMatched related left taken⟩
  · obtain ⟨m,locked,last⟩ := Option.bind_eq_some_iff.mp taken
    cases Option.some.inj last
    rcases eq_or_ne (m.pc t) .critical with inside | outside
    · obtain ⟨out,above,related⟩ := arriveMatched related here locking locked inside
      exact ⟨[(t,[])],out,runSingle (above []),related⟩
    · exact ⟨[],a,rfl,spinMatched related locking locked outside⟩
  · obtain ⟨out,above,related⟩ := moveMatched related settled apart taken
    exact ⟨_,out,runSingle above,related⟩

end Down

/-- Nobody is on the way into a mutex or out of one. -/
structure Rests (s : State w Obj Tid) : Prop where
  settled : ∀ t, s.unlocking t = none
  quiet : ∀ y t, ¬ ((s.mutex y).pc t).Waiting

section Up
variable [DecidableEq Obj] [DecidableEq Tid] [BinarySearch] {layout : Layout w Obj}
  {a out : Tracker.State w Obj Tid} {s next : State w Obj Tid} {t : Tid} {y : Obj}

theorem spinStep {operation m} {work : Tracker.Section w Obj} (settled : s.unlocking t = none)
    (here : (s.threads t).pc = .locking work) (locking : locks operation = true)
    (locked : SpinMutex.step (s.mutex work.target) (t,operation) = some m) :
    step layout s (t,.atomic operation) = some (s.withLock t work m) := by
  cases operation with
  | work | store => contradiction
  | call | load | yield | exchange =>
    simp only [step,settled,here,locks,if_true,lockStep,locked]
    rfl

omit [BinarySearch] in
theorem spinStays {work : Tracker.Section w Obj} {m : SpinMutex.State Tid} (outside : m.pc t ≠ .critical) :
    (s.withLock t work m).threads = s.threads := by
  simp only [State.withLock,arrive,if_neg outside,Function.update_eq_self]

theorem freeAbove {body} {work : Tracker.Section w Obj} (here : (a.threads t).pc = .locking work)
    (taken : Tracker.step layout a (t,body) = some out) : a.shared.mutex work.target = none := by
  obtain ⟨_,moved,_⟩ := Option.bind_eq_some_iff.mp taken
  simp only [Tracker.threadStep,here] at moved
  exact (Option.ite_none_right_eq_some.mp moved).1

omit [DecidableEq Obj] [DecidableEq Tid] [BinarySearch] in
theorem restsOutside {m : SpinMutex.State Tid} (owned : SpinMutex.OwnedBy none m)
    (quiet : ¬ (m.pc t).Waiting) : m.pc t = .outside := by
  cases here : m.pc t with
  | outside => rfl
  | critical => cases (owned.inside t).mp here
  | loading | yielding | exchanging =>
    rw [here] at quiet
    exact absurd trivial quiet

theorem lockReached {body} {work : Tracker.Section w Obj} (related : Matches a s) (rests : Rests s)
    (here : (s.threads t).pc = .locking work) (taken : Tracker.step layout a (t,body) = some out) :
    ∃ steps last, run (step layout) s steps = some last ∧ Matches out last ∧ Rests last := by
  have free : a.shared.mutex work.target = none := by
    apply freeAbove _ taken
    rw [related.same]
    exact here
  obtain ⟨owner,cell⟩ := related.cells work.target
  have unowned : owner = none := by
    rw [← free]
    exact (cell.settled (fun u left => nomatch (rests.settled u).symm.trans left)).symm
  subst unowned
  have outside := restsOutside cell.owned (rests.quiet work.target t)
  -- call, load and exchange, each with nobody else in between
  let m₁ := SpinMutex.goTo (s.mutex work.target) t .loading
  let m₂ := SpinMutex.goTo m₁ t .exchanging
  let m₃ := { SpinMutex.goTo m₂ t .critical with locked := true }
  have owned₁ : SpinMutex.OwnedBy none m₁ :=
    SpinMutex.ownedGoTo cell.owned (outside ▸ (nomatch ·)) (nomatch ·)
  have at₁ : m₁.pc t = .loading := SpinMutex.goToSelf
  have owned₂ : SpinMutex.OwnedBy none m₂ := SpinMutex.ownedGoTo owned₁ (at₁ ▸ (nomatch ·)) (nomatch ·)
  have at₂ : m₂.pc t = .exchanging := SpinMutex.goToSelf
  have at₃ : m₃.pc t = .critical := SpinMutex.goToSelf
  let s₁ := s.withLock t work m₁
  let s₂ := s₁.withLock t work m₂
  have stays₁ : s₁.threads = s.threads := spinStays (at₁ ▸ (nomatch ·))
  have stays₂ : s₂.threads = s.threads := (spinStays (at₂ ▸ (nomatch ·))).trans stays₁
  have here₁ : (s₁.threads t).pc = .locking work := stays₁ ▸ here
  have here₂ : (s₂.threads t).pc = .locking work := stays₂ ▸ here
  have called : SpinMutex.step (s.mutex work.target) (t,.call) = some m₁ := if_pos outside
  have loaded : SpinMutex.step (s₁.mutex work.target) (t,.load) = some m₂ := by
    rw [withLockHere]
    exact SpinMutex.loadFree owned₁ at₁
  have exchanged : SpinMutex.step (s₂.mutex work.target) (t,.exchange) = some m₃ := by
    rw [withLockHere]
    exact SpinMutex.exchangeFree owned₂ at₂
  have related₁ : Matches a s₁ := spinMatched related rfl called (at₁ ▸ (nomatch ·))
  have related₂ : Matches a s₂ := spinMatched related₁ rfl loaded (at₂ ▸ (nomatch ·))
  obtain ⟨out',above,related₃⟩ :=
    @arriveMatched _ _ _ _ _ _ layout _ _ _ _ _ _ related₂ here₂ rfl exchanged at₃
  cases Option.some.inj ((above body).symm.trans taken)
  refine ⟨[(t,.atomic .call),(t,.atomic .load),(t,.atomic .exchange)],s₂.withLock t work m₃,?_,related₃,
    rests.settled,?_⟩
  · have first := @spinStep _ _ _ _ _ _ layout _ _ _ _ _ (rests.settled t) here rfl called
    have second := @spinStep _ _ _ _ _ _ layout s₁ _ _ _ _ (rests.settled t) here₁ rfl loaded
    have third := @spinStep _ _ _ _ _ _ layout s₂ _ _ _ _ (rests.settled t) here₂ rfl exchanged
    exact runCons.mpr ⟨s₁,first,runCons.mpr ⟨s₂,second,runSingle third⟩⟩
  · intro z u
    rcases eq_or_ne z work.target with rfl | other
    · rw [withLockHere]
      rcases eq_or_ne u t with rfl | another
      · rw [at₃]
        exact id
      · have same : m₃.pc u = (s.mutex work.target).pc u := (SpinMutex.goToOther another).trans
          ((SpinMutex.goToOther another).trans (SpinMutex.goToOther another))
        rw [same]
        exact rests.quiet work.target u
    · rw [withLockOther other,withLockOther other,withLockOther other]
      exact rests.quiet z u

theorem moveTaken {body} (settled : s.unlocking t = none) (apart : ∀ work, (s.threads t).pc ≠ .locking work) :
    step layout s (t,.move body) = moveStep layout s t body := by
  cases here : (s.threads t).pc with
  | locking work => exact absurd here (apart work)
  | _ => simp only [step,settled,here]

omit [BinarySearch] in
theorem storeStep {m} (stored : SpinMutex.step (s.mutex y) (t,.store) = some m) :
    unlockStep s t y = some { s with
      mutex := Function.update s.mutex y m
      unlocking := Function.update s.unlocking t none } := Option.bind_eq_some_iff.mpr ⟨m,stored,rfl⟩

theorem leaveReached (related : Matches a s) (left : s.unlocking t = some y)
    (others : ∀ u, u ≠ t → s.unlocking u = none) (quiet : ∀ y t, ¬ ((s.mutex y).pc t).Waiting) :
    ∃ last, step layout s (t,.atomic .store) = some last ∧ Matches a last ∧ Rests last := by
  obtain ⟨owner,cell⟩ := related.cells y
  have inside : (s.mutex y).pc t = .critical := (cell.owned.inside t).mpr (cell.leaving t left).1
  have taken := storeStep (if_pos inside)
  have stepped : step layout s (t,.atomic .store) = unlockStep s t y := by
    simp only [step,left]
  refine ⟨_,stepped.trans taken,unlockMatched related left taken,?_,?_⟩
  · intro u
    rcases eq_or_ne u t with rfl | another
    · exact Function.update_self ..
    · exact (Function.update_of_ne another _ _).trans (others u another)
  · intro z u
    rcases eq_or_ne z y with rfl | other
    · simp only [Function.update_self]
      rcases eq_or_ne u t with rfl | another
      · rw [SpinMutex.goToSelf]
        exact id
      · rw [SpinMutex.goToOther another]
        exact quiet z u
    · simp only [Function.update_of_ne other]
      exact quiet z u

theorem moveReached {body} (related : Matches a s) (rests : Rests s)
    (apart : ∀ work, (s.threads t).pc ≠ .locking work) (taken : Tracker.step layout a (t,body) = some out) :
    ∃ steps last, run (step layout) s steps = some last ∧ Matches out last ∧ Rests last := by
  obtain ⟨mutex,rfl⟩ : ∃ mutex, a = s.above mutex := ⟨_,related.same⟩
  obtain ⟨⟨g,th⟩,moved,_⟩ := Option.bind_eq_some_iff.mp taken
  have below : Tracker.threadStep layout t s.shared (s.threads t) body =
      some ({ g with mutex := released (fun _ => none) (s.threads t).pc },th) :=
    @moveMutex _ _ _ _ _ _ _ _ (s.above mutex).shared g _ _ mutex _ apart moved
  have fine : moveStep layout s t body = _ := Option.bind_eq_some_iff.mpr ⟨_,below,rfl⟩
  obtain ⟨out',above,related⟩ := moveMatched related (rests.settled t) apart fine
  cases Option.some.inj (above.symm.trans taken)
  have first := (moveTaken (rests.settled t) apart).trans fine
  have others : ∀ u, u ≠ t → Function.update s.unlocking t (leaves (s.threads t).pc) u = none :=
    fun u another => (Function.update_of_ne another _ _).trans (rests.settled u)
  cases left : leaves (s.threads t).pc with
  | none =>
    refine ⟨_,_,runSingle first,related,?_,rests.quiet⟩
    intro u
    rcases eq_or_ne u t with rfl | another
    · exact (Function.update_self ..).trans left
    · exact others u another
  | some y =>
    obtain ⟨last,second,related,rests⟩ :=
      leaveReached related ((Function.update_self ..).trans left) others rests.quiet
    exact ⟨_,last,runCons.mpr ⟨_,first,runSingle second⟩,related,rests⟩

theorem stepReached :
    Simulates (step layout) (Tracker.step layout) (fun s a => @Matches w Obj Tid a s ∧ Rests s) := by
  intro s a action out related taken
  obtain ⟨t,body⟩ := action
  cases here : (s.threads t).pc with
  | locking work => exact lockReached related.1 related.2 here taken
  | _ => exact moveReached related.1 related.2 (fun work locking => nomatch here.symm.trans locking) taken

end Up

section Runs
variable [DecidableEq Obj] [DecidableEq Tid] [BinarySearch]

def Destroyed (s : State w Obj Tid) (x : Obj) : Prop :=
  DestructorBarrier.Returned (s.above (fun _ => none)) x

def Quiet (s : State w Obj Tid) (x : Obj) : Prop :=
  ∀ t, DestructorBarrier.QuietThread x (s.threads t)

/-- The state above that a state shows, and what the flags do for the vectors. -/
structure Sound (layout : Layout w Obj) (first : Tracker.State w Obj Tid) (s : State w Obj Tid) : Prop where
  reached : ∃ actions a, run (Tracker.step layout) first actions = some a ∧ a = s.above a.shared.mutex
  exclusive : ∀ y, SpinMutex.Exclusive (s.mutex y)
  guarded : ∀ t y, LockDiscipline.Accesses y (s.threads t).pc → (s.mutex y).pc t = .critical
  writes : ∀ action next y, step layout s action = some next → next.connections y ≠ s.connections y →
    LockDiscipline.Accesses y (s.threads action.1).pc
  walks : ∀ t x rest, LockDiscipline.Walks x rest (s.threads t).pc →
    (s.mutex x).pc t = .critical ∧ rest <:+ (s.connections x).slots
  barrier : ∀ x, Destroyed s x → ∀ later, EveryState (step layout) (fun s => Quiet s x) s later

variable {layout : Layout w Obj} {s : State w Obj Tid} {a first : Tracker.State w Obj Tid}

omit [DecidableEq Obj] [DecidableEq Tid] [BinarySearch] in
theorem startMatches (connections : Obj → Connections w (Option Obj)) (tracker : Obj → Bool)
    (programs : Tid → List (Tracker.Call w Obj)) :
    Matches (Tracker.start connections tracker programs) (start connections tracker programs) :=
  ⟨rfl,LockDiscipline.startInv connections tracker programs,
    fun _ => ⟨none,SpinMutex.ownedInitial,fun _ => (nomatch ·),fun _ => rfl⟩⟩

omit [DecidableEq Obj] [DecidableEq Tid] [BinarySearch] in
theorem heldCritical (related : Matches a s) {t : Tid} {y} (held : y ∈ (s.threads t).pc.held) :
    (s.mutex y).pc t = .critical := by
  obtain ⟨mutex,rfl⟩ : ∃ mutex, a = s.above mutex := ⟨_,related.same⟩
  obtain ⟨owner,cell⟩ := related.cells y
  have mine : mutex y = some t := (related.inv.owner t y).mpr held
  have nobody : ∀ u, s.unlocking u ≠ some y := fun u left => nomatch mine.symm.trans (cell.leaving u left).2
  exact (cell.owned.inside t).mpr ((cell.settled nobody).symm.trans mine)

theorem stepVectors {action next y} (taken : step layout s action = some next)
    (changed : next.connections y ≠ s.connections y) :
    LockDiscipline.Accesses y (s.threads action.1).pc := by
  obtain ⟨t,action⟩ := action
  rcases stepCases taken with ⟨_,_,taken⟩ | ⟨work,operation,_,_,_,taken⟩ | ⟨body,_,_,taken⟩
  · obtain ⟨_,_,last⟩ := Option.bind_eq_some_iff.mp taken
    cases Option.some.inj last
    contradiction
  · obtain ⟨_,_,last⟩ := Option.bind_eq_some_iff.mp taken
    cases Option.some.inj last
    contradiction
  · obtain ⟨_,moved,last⟩ := Option.bind_eq_some_iff.mp taken
    cases Option.some.inj last
    by_contra apart
    exact changed (LockDiscipline.moveVectors (Tracker.moveOfStep moved) apart)

theorem destroyedQuiet [Fintype Tid] (related : Matches a s) (inv : DestructorBarrier.Inv a) {x}
    (destroyed : Destroyed s x) (later : List (Tid × Action w Obj)) :
    EveryState (step layout) (fun s => Quiet s x) s later := by
  have returned : DestructorBarrier.Returned a x := by
    rw [related.same]
    exact destroyed
  have every : ∀ steps, EveryState (Tracker.step layout)
      (fun a => DestructorBarrier.Inv a ∧ DestructorBarrier.Returned a x) a steps := by
    apply everyStateOfInvariant _ ⟨inv,returned⟩
    exact fun _ _ _ both taken =>
      ⟨DestructorBarrier.stepKeeps both.1 taken,DestructorBarrier.returnedKeeps both.2 taken⟩
  refine everyStateSimulated stepMatched ?_ related every later
  intro a s related both
  have quiet := DestructorBarrier.returnedQuiet both.1 both.2
  rw [related.same] at quiet
  exact quiet

theorem spinRefines [Fintype Tid] (layout : Layout w Obj) (connections : Obj → Connections w (Option Obj))
    (tracker : Obj → Bool) (programs : Tid → List (Tracker.Call w Obj))
    (actions : List (Tid × Action w Obj)) :
    EveryState (step layout) (Sound layout (Tracker.start connections tracker programs))
      (start connections tracker programs) actions := by
  apply everyStatePrefix.mpr
  intro before after s _ ran
  obtain ⟨steps,a,above,related⟩ := simulatesRun stepMatched (startMatches connections tracker programs) ran
  have every : EveryState (Tracker.step layout) DestructorBarrier.Inv _ steps := everyStateOfInvariant
    (fun _ _ _ inv taken => DestructorBarrier.stepKeeps inv taken)
    (DestructorBarrier.startInv connections tracker programs) steps
  have inv := everyStatePrefix.mp every steps [] a (List.append_nil _).symm above
  refine ⟨⟨steps,a,above,related.same⟩,?_,?_,fun _ _ _ => stepVectors,?_,?_⟩
  · intro y
    obtain ⟨owner,cell⟩ := related.cells y
    exact SpinMutex.ownedExclusive cell.owned
  · exact fun t y accesses => heldCritical related (LockDiscipline.accessesHeld accesses)
  · intro t x rest walks
    refine ⟨heldCritical related (LockDiscipline.walksHeld walks),?_⟩
    have suffixes := related.inv.walks t x rest
    rw [related.same] at suffixes
    exact suffixes walks
  · exact fun x destroyed => destroyedQuiet related inv destroyed

theorem spinReaches (layout : Layout w Obj) (connections : Obj → Connections w (Option Obj))
    (tracker : Obj → Bool) (programs : Tid → List (Tracker.Call w Obj))
    (actions : List (Tid × List (Tracker.Call w Obj))) :
    EveryState (Tracker.step layout)
      (fun a => ∃ steps s, run (step layout) (start connections tracker programs) steps = some s ∧
        Rests s ∧ a = s.above a.shared.mutex)
      (Tracker.start connections tracker programs) actions := by
  apply everyStatePrefix.mpr
  intro before after a _ ran
  have rests : Rests (start connections tracker programs) := ⟨fun _ => rfl,fun _ _ => id⟩
  obtain ⟨steps,s,below,related,rests⟩ :=
    simulatesRun stepReached ⟨startMatches connections tracker programs,rests⟩ ran
  exact ⟨steps,s,below,rests,related.same⟩

end Runs

end SignalSlot.SpinTracker
