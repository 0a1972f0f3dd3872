import SignalSlot.Library.GuardedRun
import SignalSlot.Library.WaitGraph
import SignalSlot.NanoTracker

/-! Deadlocks under TS_Policy_Safe, for slots that return at once. The loop of
disconnect_all keeps its own mutex while it takes that of each peer, and peers hold
entries for each other: two such loops can stop at each other's mutex. -/
namespace SignalSlot.DisconnectCycle
open PartitionSearch GuardedRun Tracker WaitGraph Relation

variable {w : Nat} {Obj Tid : Type} [DecidableEq Obj]

def WaitsOn (s : State w Obj Tid) (t u : Tid) : Prop :=
  (∃ work, (s.threads t).pc = .locking work ∧ s.shared.mutex work.target = some u) ∨
  (∃ x, (s.threads t).pc = .waiting x ∧ 0 < (s.threads u).refs x)

def Deadlocked (s : State w Obj Tid) (among : Set Tid) : Prop :=
  among.Nonempty ∧ ∀ t ∈ among, ∃ u ∈ among, WaitsOn s t u

def DeadlockFree (s : State w Obj Tid) : Prop := ∀ among, ¬ Deadlocked s among

def StoppedAt (s : State w Obj Tid) (t u : Tid) : Prop :=
  ∃ x slot rest, (s.threads t).pc = .locking (.forget x slot rest) ∧
    s.shared.mutex slot.observer = some u

/-- When the `disconnect_all` of `t` goes on to a peer, no chain of stopped ones leads
from whoever has the mutex of the peer back to `t`. -/
def ClosesNoCycle (s : State w Obj Tid) (t : Tid) : Prop :=
  ∀ x slot rest peer u, (s.threads t).pc = .visiting x (slot::rest) →
    s.shared.visiting x slot.observer = some peer → s.shared.mutex peer = some u →
    ¬ ReflTransGen (StoppedAt s) u t

def AtOnce (th : Thread w Obj) : Prop :=
  th.suspended = [] ∨ ∃ e, th = ⟨.idle,[],[e]⟩

structure Inv (s : State w Obj Tid) : Prop where
  owner : ∀ t y, s.shared.mutex y = some t → y ∈ (s.threads t).pc.held
  acyclic : Acyclic (StoppedAt s)
  atOnce : ∀ t, AtOnce (s.threads t)

omit [DecidableEq Obj] in
theorem startInv (connections : Obj → Connections w (Option Obj)) (tracker : Obj → Bool)
    (programs : Tid → List (Call w Obj)) : Inv (start connections tracker programs) := by
  refine ⟨?_,?_,?_⟩
  · intro t y held
    cases held
  · intro t cycle
    obtain ⟨u,⟨x,slot,rest,stopped,_⟩,_⟩ := TransGen.head'_iff.mp cycle
    cases stopped
  · exact fun t => .inl rfl

theorem stoppedWaits {s : State w Obj Tid} {t u : Tid} (stopped : StoppedAt s t u) : WaitsOn s t u := by
  obtain ⟨x,slot,rest,here,taken⟩ := stopped
  exact .inl ⟨_,here,taken⟩

theorem blockedStops {s : State w Obj Tid} (inv : Inv s) {t u v : Tid} (before : WaitsOn s t u)
    (after : WaitsOn s u v) : StoppedAt s u v := by
  have forgets : ∃ x slot rest, (s.threads u).pc = .locking (.forget x slot rest) := by
    have outside : (s.threads u).suspended = [] := by
      rcases inv.atOnce u with none | ⟨e,same⟩
      · exact none
      · rcases after with ⟨work,here,_⟩ | ⟨x,here,_⟩ <;> simp [same] at here
    rcases before with ⟨work,_,has⟩ | ⟨x,_,has⟩
    · have held := inv.owner u _ has
      rcases after with ⟨own,here,_⟩ | ⟨y,here,_⟩
      · rw [here] at held ⊢
        cases own with
        | forget x slot rest => exact ⟨x,slot,rest,rfl⟩
        | update | isEmpty | copy | clear => cases held
      · rw [here] at held
        cases held
    · rw [Thread.refs,Thread.calling,outside] at has
      rcases after with ⟨own,here,_⟩ | ⟨y,here,_⟩
      · rw [here] at has ⊢
        cases own with
        | forget x slot rest => exact ⟨x,slot,rest,rfl⟩
        | update | isEmpty | copy | clear => simp [Section.refs] at has
      · simp [here] at has
  obtain ⟨x,slot,rest,here⟩ := forgets
  rcases after with ⟨work,there,has⟩ | ⟨y,there,_⟩
  · cases here.symm.trans there
    exact ⟨x,slot,rest,here,has⟩
  · cases here.symm.trans there

theorem deadlockFree [Finite Tid] {s : State w Obj Tid} (inv : Inv s) : DeadlockFree s := by
  rintro among ⟨⟨t,mem⟩,waits⟩
  obtain ⟨u,inside,tu⟩ := waits t mem
  -- Whoever one of them waits for has stopped too, so these go on for ever.
  have stuck : ({ v | v ∈ among ∧ ∃ a, WaitsOn s a v } : Set Tid).Nonempty := ⟨u,inside,t,tu⟩
  obtain ⟨v,⟨insideV,a,av⟩,last⟩ := acyclicEnds inv.acyclic stuck
  obtain ⟨z,insideZ,vz⟩ := waits v insideV
  exact last z ⟨insideZ,v,vz⟩ (blockedStops inv av vz)

section Steps
variable [BinarySearch] [DecidableEq Tid] {layout : Layout w Obj} {s next : State w Obj Tid} {t : Tid}

def slotStep (layout : Layout w Obj) (s : State w Obj Tid) (t : Tid) : Option (State w Obj Tid) :=
  step layout s (t,[])

theorem ownerKeeps (inv : Inv s) (taken : slotStep layout s t = some next) :
    ∀ u y, next.shared.mutex y = some u → y ∈ (next.threads u).pc.held := by
  obtain ⟨move,others⟩ := stepMove taken
  intro u y held
  by_cases same : u = t
  · subst same
    exact moveOwner move (inv.owner u) y held
  · rw [others u same]
    exact inv.owner u y (moveOthers move same held)

omit [DecidableEq Tid] in
theorem moveAtOnce {g g' : Shared w Obj Tid} {th th' : Thread w Obj}
    (move : Move layout t [] g th g' th') (before : AtOnce th) : AtOnce th' := by
  cases move with
  | returns =>
    rcases before with none | ⟨e,same⟩
    · cases none
    · cases same
      exact .inl rfl
  | calls found =>
    rcases before with none | ⟨e,same⟩
    · cases none
      exact .inr ⟨_,rfl⟩
    · cases same
  | _ =>
    rcases before with none | ⟨e,same⟩
    · exact .inl none
    · cases same

theorem acyclicKeeps (inv : Inv s) (closes : ClosesNoCycle s t)
    (taken : slotStep layout s t = some next) : Acyclic (StoppedAt next) := by
  obtain ⟨move,others⟩ := stepMove taken
  by_cases stopped : ∃ x slot rest, (next.threads t).pc = .locking (.forget x slot rest)
  · obtain ⟨x,slot,rest,stopped⟩ := stopped
    obtain ⟨e,visiting,found,same⟩ := moveStops move stopped
    have mutex : next.shared.mutex = s.shared.mutex := by rw [same,mutexAcquire]
    have old : ∀ a b, a ≠ t → StoppedAt next a b → StoppedAt s a b := by
      rintro a b other ⟨y,peer,later,stop,has⟩
      exact ⟨y,peer,later,by rw [← others a other]; exact stop,by rw [← mutex]; exact has⟩
    refine acyclicOpened inv.acyclic old ?_
    rintro u ⟨y,peer,later,stop,has⟩ back
    cases stopped.symm.trans stop
    rw [mutex] at has
    exact closes x e rest slot.observer u visiting found has back
  · refine acyclicKept inv.acyclic ?_
    rintro a b c ⟨y,peer,later,stop,has⟩ ⟨z,peer',later',stop',_⟩
    have otherA : a ≠ t := by
      rintro rfl
      exact stopped ⟨y,peer,later,stop⟩
    have otherB : b ≠ t := by
      rintro rfl
      exact stopped ⟨z,peer',later',stop'⟩
    exact ⟨y,peer,later,by rw [← others a otherA]; exact stop,moveOthers move otherB has⟩

theorem stepKeeps (inv : Inv s) (closes : ClosesNoCycle s t)
    (taken : slotStep layout s t = some next) : Inv next := by
  refine ⟨ownerKeeps inv taken,acyclicKeeps inv closes taken,fun u => ?_⟩
  obtain ⟨move,others⟩ := stepMove taken
  by_cases same : u = t
  · subst same
    exact moveAtOnce move (inv.atOnce u)
  · rw [others u same]
    exact inv.atOnce u

theorem stepNeeded (taken : slotStep layout s t = some next) (free : DeadlockFree next) :
    ClosesNoCycle s t := by
  intro x slot rest peer u visiting found has back
  obtain ⟨move,others⟩ := stepMove taken
  obtain ⟨stopped,same⟩ := moveVisits move visiting found
  have mutex : next.shared.mutex = s.shared.mutex := by rw [same,mutexAcquire]
  have kept : StoppedAt s ≤ StoppedAt next := by
    rintro a b ⟨y,p,later,stop,held⟩
    have other : a ≠ t := by
      rintro rfl
      cases stop.symm.trans visiting
    exact ⟨y,p,later,by rw [others a other]; exact stop,by rw [mutex]; exact held⟩
  have opened : StoppedAt next t u :=
    ⟨x,⟨slot.delegate,peer⟩,rest,stopped,by rw [mutex]; exact has⟩
  have cycle : TransGen (StoppedAt next) t t :=
    TransGen.head' opened (ReflTransGen.mono kept u t back)
  obtain ⟨among,mem,waits⟩ := cycleWaits cycle
  exact free among ⟨⟨t,mem⟩,fun a inside => (waits a inside).imp fun b edge =>
    ⟨edge.1,stoppedWaits edge.2⟩⟩

theorem deadlockFreeExactly [Fintype Tid] (layout : Layout w Obj)
    (connections : Obj → Connections w (Option Obj)) (tracker : Obj → Bool)
    (programs : Tid → List (Call w Obj)) (schedule : List Tid) :
    EveryState (slotStep layout) DeadlockFree (start connections tracker programs) schedule ↔
      EveryStep (slotStep layout) ClosesNoCycle (start connections tracker programs) schedule :=
  everyStateExact (fun _ inv => deadlockFree inv) (fun _ _ _ inv closes taken => stepKeeps inv closes taken)
    (fun _ _ _ _ taken free => stepNeeded taken free) (startInv connections tracker programs) schedule

end Steps

/-! Thread `false` disconnects the signal, thread `true` its receiver. Each has the
mutex of its own object when it goes on to the other one. -/
def pairSlot : Function 64 := .bindInstance 0x7 0x1000

def crossedPrograms : Bool → List (Call 64 Party)
  | false => [.connect .signal pairSlot,.disconnectAll .signal]
  | true => [.disconnectAll .receiver]

def crossedSchedule : List Bool := List.replicate 8 false ++ [true,true,true,false,true]

theorem crossedDisconnectsLock :
    ¬ EveryState (@slotStep _ _ _ _ linearSearch _ partyLayout) DeadlockFree
      (start (fun _ => .empty) (fun _ => true) crossedPrograms) crossedSchedule := by
  let _ := linearSearch
  intro free
  have evaluated : (run (slotStep partyLayout) (start (fun _ => .empty) (fun _ => true) crossedPrograms)
      crossedSchedule).map (fun s => ((s.threads false).pc,(s.threads true).pc,s.shared.mutex .signal,
        s.shared.mutex .receiver)) = some (.locking (.forget .signal ⟨pairSlot.delegateKey,.receiver⟩ []),
          .locking (.forget .receiver ⟨pairSlot.delegateKey,.signal⟩ []),some false,some true) := by
    decide +kernel
  obtain ⟨out,ran,result⟩ := Option.map_eq_some_iff.mp evaluated
  simp only [Prod.mk.injEq] at result
  obtain ⟨first,second,mutex0,mutex1⟩ := result
  refine everyStatePrefix.mp free crossedSchedule [] out rfl ran Set.univ ⟨⟨false,trivial⟩,fun t _ => ?_⟩
  cases t with
  | false => exact ⟨true,trivial,.inl ⟨_,first,mutex1⟩⟩
  | true => exact ⟨false,trivial,.inl ⟨_,second,mutex0⟩⟩

end SignalSlot.DisconnectCycle
