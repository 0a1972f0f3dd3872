import SignalSlot.Library.GuardedRun
import SignalSlot.NanoTracker
import Mathlib.Algebra.Order.BigOperators.Group.Finset

/-! The wait of a destructor under TS_Policy_Safe. The use count of a tracker is the
tracker itself and what the threads hold of it; from zero it never rises again,
however many copies of vectors still name the object. `Returned` marks the states
behind before_disconnect_all, and a quiet thread has no reference to the object and
calls neither a slot nor remove through one. -/
namespace SignalSlot.DestructorBarrier
open PartitionSearch GuardedRun Tracker

variable {w : Nat} {Obj Tid : Type} [DecidableEq Obj]

def WaitsFor (x : Obj) (pc : Pc w Obj) : Prop := pc = .waiting x ∨ pc = .pinging x ∨ pc = .pinged x

instance (x : Obj) (pc : Pc w Obj) : Decidable (WaitsFor x pc) := by unfold WaitsFor; infer_instance

def Returned (s : State w Obj Tid) (x : Obj) : Prop :=
  s.shared.tracker x = false ∧ ∀ t, ¬ WaitsFor x (s.threads t).pc
instance [Fintype Tid] (s : State w Obj Tid) (x : Obj) : Decidable (Returned s x) := by
  unfold Returned
  infer_instance

structure QuietThread (x : Obj) (th : Thread w Obj) : Prop where
  noReference : th.refs x = 0
  noSlotCall : ∀ e ∈ th.suspended, e.slot.observer ≠ x
  noRemove : ∀ self slot rest, th.pc = .locking (.forget self slot rest) ∨
    th.pc = .inside (.forget self slot rest) → slot.observer ≠ x

def Quiet (s : State w Obj Tid) (x : Obj) : Prop := ∀ t, QuietThread x (s.threads t)

theorem quietOfRefs {x : Obj} {th : Thread w Obj} (none : th.refs x = 0) : QuietThread x th := by
  obtain ⟨inPc,inCalls⟩ := Nat.add_eq_zero_iff.mp none
  refine ⟨none,?_,?_⟩
  · rintro e mem rfl
    exact List.count_eq_zero.mp inCalls (List.mem_map.mpr ⟨e,mem,rfl⟩)
  · rintro self slot rest (at_ | at_) rfl <;> simp [at_,Pc.refs,Section.refs] at inPc

section Steps
variable [BinarySearch] {layout : Layout w Obj} {t : Tid} {body : List (Call w Obj)}
  {g g' : Shared w Obj Tid} {th th' : Thread w Obj} {x : Obj}

theorem moveCount (move : Move layout t body g th g' th')
    (bound : (g.tracker x).toNat + th.refs x ≤ g.useCount x) :
    g'.useCount x + (g.tracker x).toNat + th.refs x =
      g.useCount x + (g'.tracker x).toNat + th'.refs x := by
  cases move with
  | returns =>
    simp only [refsThread,refsIdle,refsEmitting,List.map_cons,List.count_cons,beq_iff_eq,
      useCountRelease,trackerRelease] at bound ⊢
    omega
  | destroys live =>
    rename_i y later outer
    simp only [refsThread,refsIdle,refsWaiting,useCountReset,trackerReset] at bound ⊢
    by_cases same : y = x
    · subst same
      simp only [live,if_true,Bool.toNat_true,Bool.toNat_false] at bound ⊢
      omega
    · simp [same]
  | begins started => simp [refsBegin started]
  | locks free => simp
  | works => simp [refsExec]
  | emitted => simp
  | skips gone => simp
  | calls found =>
    simp only [refsThread,refsIdle,refsEmitting,List.map_cons,List.count_cons,beq_iff_eq,
      useCountAcquire,trackerAcquire] at bound ⊢
    omega
  | clears => simp
  | passes gone => simp
  | visits found =>
    simp only [refsThread,refsVisiting,refsLocking,refsForget,useCountAcquire,trackerAcquire] at bound ⊢
    omega
  | leaves =>
    simp only [refsThread,refsVisiting,refsReleasing,useCountRelease,trackerRelease] at bound ⊢
    omega
  | expires expired => simp
  | finishes expired => simp
  | pings lingering =>
    simp only [refsThread,refsPinging,refsPinged,useCountAcquire,trackerAcquire] at bound ⊢
    omega
  | drops =>
    simp only [refsThread,refsWaiting,refsPinged,useCountRelease,trackerRelease] at bound ⊢
    omega

theorem moveTracker (move : Move layout t body g th g' th') : g'.tracker x = g.tracker x ∨
    g.tracker x = true ∧ g'.tracker x = false ∧ th'.pc = .waiting x := by
  cases move with
  | destroys live =>
    rename_i y later outer
    rw [trackerReset]
    by_cases same : y = x
    · subst same
      exact .inr ⟨live,by simp,rfl⟩
    · exact .inl (by simp [same])
  | works => exact .inl (by rw [trackerExec])
  | _ => exact .inl rfl

theorem moveZero (move : Move layout t body g th g' th') (zero : g.useCount x = 0) :
    g'.useCount x = 0 := by
  have other {y : Obj} (positive : 0 < g.useCount y) : y ≠ x := by
    rintro rfl
    omega
  cases move with
  | returns | leaves | drops => rw [useCountRelease]; omega
  | destroys live => rw [useCountReset]; omega
  | calls found => rw [useCountAcquire,if_neg (other (lockWeakSome.mp found).2),zero]
  | visits found => rw [useCountAcquire,if_neg (other (visitingSome.mp found).2.2),zero]
  | pings lingering => rw [useCountAcquire,if_neg (other (Nat.pos_of_ne_zero lingering)),zero]
  | works => rw [useCountExec,zero]
  | _ => exact zero

theorem moveWaits (move : Move layout t body g th g' th') (waits : WaitsFor x th.pc) :
    WaitsFor x th'.pc ∨ g'.useCount x = 0 := by
  cases move with
  | finishes expired =>
    rename_i y program outer
    have same : y = x := by simpa [WaitsFor] using waits
    exact .inr (same ▸ expired)
  | expires | pings | drops => exact .inl (by simpa [WaitsFor] using waits)
  | _ => simp [WaitsFor] at waits

omit [DecidableEq Obj] [BinarySearch] in
theorem updatesNotWaiting (us : List (Update w Obj)) : ¬ WaitsFor x (beginUpdates us) := by
  cases us <;> simp [WaitsFor,beginUpdates]

theorem moveEnters (move : Move layout t body g th g' th') (before : ¬ WaitsFor x th.pc)
    (waits : WaitsFor x th'.pc) : g.tracker x = true ∧ g'.tracker x = false := by
  cases move with
  | destroys live =>
    rename_i y later outer
    have same : y = x := by simpa [WaitsFor] using waits
    exact ⟨same ▸ live,by rw [trackerReset,if_pos same]⟩
  | begins started =>
    rename_i call later outer pc
    cases call with
    | destroy y => contradiction
    | connect signal slot | disconnect signal slot =>
      cases Option.some.inj started
      exact absurd waits (updatesNotWaiting _)
    | disconnectAll y | isEmpty y | fire signal =>
      cases Option.some.inj started
      simp [WaitsFor] at waits
  | works =>
    rename_i work program outer
    cases work with
    | update u rest => exact absurd waits (updatesNotWaiting _)
    | isEmpty y | copy y | clear y | forget y slot rest => simp [WaitsFor,Section.exec] at waits
  | expires | pings | drops => exact absurd (by simpa [WaitsFor] using waits) before
  | _ => simp [WaitsFor] at waits

variable [DecidableEq Tid] [Fintype Tid] {s next : State w Obj Tid} {action : Tid × List (Call w Obj)}

def Counted (s : State w Obj Tid) : Prop := ∀ x, s.shared.useCount x =
  (s.shared.tracker x).toNat + Finset.univ.sum (fun t => (s.threads t).refs x)

structure Inv (s : State w Obj Tid) : Prop where
  counted : Counted s
  expired : ∀ x, s.shared.tracker x = false →
    (∃ t, WaitsFor x (s.threads t).pc) ∨ s.shared.useCount x = 0
  alone : ∀ x t, WaitsFor x (s.threads t).pc →
    s.shared.tracker x = false ∧ ∀ u, WaitsFor x (s.threads u).pc → u = t

theorem countedKeeps (counted : Counted s) (taken : step layout s action = some next) :
    Counted next := by
  obtain ⟨move,others⟩ := stepMove taken
  intro x
  have before := counted x
  have split := fun f : Tid → Nat => (Finset.add_sum_erase Finset.univ f (Finset.mem_univ action.1)).symm
  rw [split] at before
  have same : (Finset.univ.erase action.1).sum (fun t => (next.threads t).refs x) =
      (Finset.univ.erase action.1).sum (fun t => (s.threads t).refs x) := by
    refine Finset.sum_congr rfl (fun t mem => ?_)
    rw [others t (Finset.ne_of_mem_erase mem)]
  have count := moveCount (x := x) move (by omega)
  rw [split,same]
  omega

theorem expiredKeeps (inv : Inv s) (taken : step layout s action = some next) :
    ∀ x, next.shared.tracker x = false →
      (∃ t, WaitsFor x (next.threads t).pc) ∨ next.shared.useCount x = 0 := by
  obtain ⟨move,others⟩ := stepMove taken
  intro x gone
  rcases moveTracker (x := x) move with same | ⟨_,_,entered⟩
  · rw [same] at gone
    rcases inv.expired x gone with ⟨t,waits⟩ | zero
    · by_cases own : t = action.1
      · subst own
        exact (moveWaits move waits).imp (fun still => ⟨_,still⟩) id
      · exact .inl ⟨t,by rw [others t own]; exact waits⟩
    · exact .inr (moveZero move zero)
  · exact .inl ⟨action.1,.inl entered⟩

omit [Fintype Tid] in
-- A destructor begins once, so that nobody else waits for its object.
theorem aloneKeeps (alone : ∀ x t, WaitsFor x (s.threads t).pc →
      s.shared.tracker x = false ∧ ∀ u, WaitsFor x (s.threads u).pc → u = t)
    (taken : step layout s action = some next) : ∀ x t, WaitsFor x (next.threads t).pc →
      next.shared.tracker x = false ∧ ∀ u, WaitsFor x (next.threads u).pc → u = t := by
  obtain ⟨move,others⟩ := stepMove taken
  intro x
  have gone : s.shared.tracker x = false → next.shared.tracker x = false := by
    intro gone
    rcases moveTracker (x := x) move with same | ⟨live,_⟩
    · rw [same,gone]
    · simp [gone] at live
  by_cases before : WaitsFor x (s.threads action.1).pc
  · obtain ⟨reset,only⟩ := alone x action.1 before
    have own : ∀ u, WaitsFor x (next.threads u).pc → u = action.1 := by
      intro u waits
      by_contra other
      rw [others u other] at waits
      exact other (only u waits)
    intro t waits
    exact ⟨gone reset,fun u waits' => (own u waits').trans (own t waits).symm⟩
  · by_cases entered : WaitsFor x (next.threads action.1).pc
    · obtain ⟨live,reset⟩ := moveEnters move before entered
      have own : ∀ u, WaitsFor x (next.threads u).pc → u = action.1 := by
        intro u waits
        by_contra other
        rw [others u other] at waits
        exact absurd (alone x u waits).1 (by simp [live])
      intro t waits
      exact ⟨reset,fun u waits' => (own u waits').trans (own t waits).symm⟩
    · have old : ∀ u, WaitsFor x (next.threads u).pc → WaitsFor x (s.threads u).pc := by
        intro u waits
        rcases eq_or_ne u action.1 with rfl | other
        · exact absurd waits entered
        · rwa [others u other] at waits
      intro t waits
      obtain ⟨reset,only⟩ := alone x t (old t waits)
      exact ⟨gone reset,fun u waits' => only u (old u waits')⟩

theorem stepKeeps (inv : Inv s) (taken : step layout s action = some next) : Inv next :=
  ⟨countedKeeps inv.counted taken,expiredKeeps inv taken,aloneKeeps inv.alone taken⟩

omit [BinarySearch] [DecidableEq Tid] in
theorem startInv (connections : Obj → Connections w (Option Obj)) (tracker : Obj → Bool)
    (programs : Tid → List (Call w Obj)) : Inv (start connections tracker programs) := by
  constructor
  · intro x
    simp [start]
  · intro x gone
    exact .inr (by rw [start] at gone ⊢; simp_all)
  · intro x t waits
    simp [start,WaitsFor] at waits

omit [Fintype Tid] in
theorem returnedKeeps {x : Obj} (returned : Returned s x) (taken : step layout s action = some next) :
    Returned next x := by
  obtain ⟨gone,nobody⟩ := returned
  obtain ⟨move,others⟩ := stepMove taken
  constructor
  · rcases moveTracker (x := x) move with same | ⟨live,_⟩
    · rw [same,gone]
    · simp [gone] at live
  · intro t waits
    by_cases own : t = action.1
    · subst own
      have live := (moveEnters move (nobody _) waits).1
      simp [gone] at live
    · rw [others t own] at waits
      exact nobody t waits

omit [BinarySearch] [DecidableEq Tid] in
theorem returnedQuiet {x : Obj} (inv : Inv s) (returned : Returned s x) : Quiet s x := by
  intro t
  refine quietOfRefs ?_
  have zero : s.shared.useCount x = 0 := by
    rcases inv.expired x returned.1 with ⟨u,waits⟩ | zero
    · exact absurd waits (returned.2 u)
    · exact zero
  have counted := inv.counted x
  have one := Finset.single_le_sum (f := fun t => (s.threads t).refs x) (fun _ _ => Nat.zero_le _)
    (Finset.mem_univ t)
  omega

/-- The loop of before_disconnect_all is left in states that are `Returned` only. -/
theorem leavesReturned {x : Obj} (inv : Inv s) (taken : step layout s action = some next)
    (waits : WaitsFor x (s.threads action.1).pc) (leaves : ¬ WaitsFor x (next.threads action.1).pc) :
    Returned next x := by
  obtain ⟨move,others⟩ := stepMove taken
  obtain ⟨reset,only⟩ := inv.alone x action.1 waits
  constructor
  · rcases moveTracker (x := x) move with same | ⟨_,gone,_⟩
    · rw [same,reset]
    · exact gone
  · intro t still
    rcases eq_or_ne t action.1 with rfl | other
    · exact leaves still
    · rw [others t other] at still
      exact other (only t still)

structure Barrier (layout : Layout w Obj) (s : State w Obj Tid) : Prop where
  returns : ∀ x action next, step layout s action = some next → WaitsFor x (s.threads action.1).pc →
    ¬ WaitsFor x (next.threads action.1).pc → Returned next x
  quiet : ∀ x, Returned s x → ∀ later, EveryState (step layout) (fun s => Quiet s x) s later

theorem barrierHolds (layout : Layout w Obj) (connections : Obj → Connections w (Option Obj))
    (tracker : Obj → Bool) (programs : Tid → List (Call w Obj))
    (actions : List (Tid × List (Call w Obj))) :
    EveryState (step layout) (Barrier layout) (start connections tracker programs) actions := by
  refine everyStateImp (fun s inv => ⟨fun x action next => leavesReturned inv,fun x returned later => ?_⟩)
    (everyStateOfInvariant (fun _ _ _ inv taken => stepKeeps inv taken)
      (startInv connections tracker programs) actions)
  have both : EveryState (step layout) (fun s => Inv s ∧ Returned s x) s later := everyStateOfInvariant
    (fun _ _ _ both taken => ⟨stepKeeps both.1 taken,returnedKeeps both.2 taken⟩) ⟨inv,returned⟩ later
  exact everyStateImp (fun s both => returnedQuiet both.1 both.2) both

end Steps

/-! Thread `true` destroys the receiver while thread `false` is in its slot; the wait
ends behind the slot, and the copy that still names the receiver calls it no more. -/
def pairPrograms : Bool → List (Call 64 Party)
  | false => [.connect .signal (.bindInstance 0x7 0x1000),
      .connect .signal (.bindInstance 0x9 0x1000),.fire .signal]
  | true => [.destroy .receiver]

example : ((run (@step _ _ Bool _ linearSearch _ partyLayout)
    (start (fun _ => .empty) (fun _ => true) pairPrograms)
    ((List.replicate 14 false ++ [true,false,true,true,false]).map (fun t => (t,[])))).map
      (fun s => (decide (Returned s .receiver),(s.threads false).pc))) = some (true,.emitting []) := by
  decide +kernel

end SignalSlot.DestructorBarrier
