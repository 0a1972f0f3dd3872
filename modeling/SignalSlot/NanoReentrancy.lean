import SignalSlot.Library.StackOrder
import SignalSlot.NanoDestructorBarrier
import Mathlib.Data.Prod.Lex

/-! Slots that call the library under TS_Policy_Safe, in one thread. An emission holds
a strong reference to the receiver of the slot that it calls; a destructor of this
receiver that runs inside the slot waits for a reference that only its own thread
could release. Any other program of slots comes to its end. -/
namespace SignalSlot.Reentrancy
open PartitionSearch GuardedRun Tracker StackOrder DestructorBarrier

variable {w : Nat} {Obj : Type} [DecidableEq Obj]

abbrev Single (w : Nat) (Obj : Type) := State w Obj Unit

def Unfinished (s : Single w Obj) : Prop :=
  s.threads () ≠ ⟨.idle,[],[]⟩ ∧ ∀ x later, (s.threads ()).pc = .idle →
    (s.threads ()).program = .destroy x::later → s.shared.tracker x = true

structure Proceeds [BinarySearch] (layout : Layout w Obj) (s : Single w Obj) : Prop where
  noOwnWait : ∀ x, (s.threads ()).pc = .waiting x → (s.threads ()).refs x = 0
  noOwnLock : ∀ work, (s.threads ()).pc = .locking work → s.shared.mutex work.target ≠ some ()
  goesOn : Unfinished s → ∀ body, (step layout s ((),body)).isSome = true

def DestroysUncalled (s : Single w Obj) (_ : List (Call w Obj)) : Prop :=
  ∀ x later, (s.threads ()).pc = .idle → (s.threads ()).program = .destroy x::later →
    x ∉ (s.threads ()).calling

structure Inv (s : Single w Obj) : Prop where
  counted : Counted s
  owner : ∀ y, s.shared.mutex y = some () → y ∈ (s.threads ()).pc.held
  uncalled : ∀ x, s.shared.tracker x = false → x ∉ (s.threads ()).calling
  reset : ∀ x, WaitsFor x (s.threads ()).pc → s.shared.tracker x = false
  other : ∀ x slot rest, (s.threads ()).pc = .locking (.forget x slot rest) → slot.observer ≠ x

theorem countedSingle {s : Single w Obj} (counted : Counted s) (x : Obj) :
    s.shared.useCount x = (s.shared.tracker x).toNat + (s.threads ()).refs x := by
  simpa using counted x

theorem goneUnused {g : Shared w Obj Unit} {th : Thread w Obj} {x : Obj}
    (counted : g.useCount x = (g.tracker x).toNat + th.refs x) (gone : g.tracker x = false)
    (uncalled : x ∉ th.calling) (none : th.pc.refs x = 0) : g.useCount x = 0 := by
  rw [counted,gone,Thread.refs,none,List.count_eq_zero.mpr uncalled]
  rfl

theorem startInv (connections : Obj → Connections w (Option Obj)) (tracker : Obj → Bool)
    (programs : Unit → List (Call w Obj)) : Inv (start connections tracker programs) := by
  refine ⟨(DestructorBarrier.startInv connections tracker programs).counted,?_,?_,?_,?_⟩
  · intro y held
    cases held
  · intro x _ mem
    cases mem
  · rintro x (waits | waits | waits) <;> cases waits
  · intro x slot rest stopped
    cases stopped

section Steps
variable [BinarySearch] {layout : Layout w Obj} {s next : Single w Obj} {body : List (Call w Obj)}

def ownStep (layout : Layout w Obj) (s : Single w Obj) (body : List (Call w Obj)) :
    Option (Single w Obj) := step layout s ((),body)

theorem ownMove (taken : ownStep layout s body = some next) :
    Move layout () body s.shared (s.threads ()) next.shared (next.threads ()) := (stepMove taken).1

section Moves
variable {g g' : Shared w Obj Unit} {th th' : Thread w Obj} {x : Obj}

theorem moveUncalled (move : Move layout () body g th g' th')
    (counted : ∀ x, g.useCount x = (g.tracker x).toNat + th.refs x)
    (uncalled : ∀ x, g.tracker x = false → x ∉ th.calling)
    (begins : ∀ x later, th.pc = .idle → th.program = .destroy x::later → x ∉ th.calling) :
    ∀ x, g'.tracker x = false → x ∉ th'.calling := by
  intro x gone
  cases move with
  | returns => exact fun mem => uncalled x gone (List.mem_cons_of_mem _ mem)
  | destroys live =>
    rename_i y later outer
    rw [trackerReset] at gone
    split at gone
    · next same => subst same; exact begins y later rfl rfl
    · exact uncalled x gone
  | calls found =>
    rename_i slot rest program outer observer
    intro mem
    rcases List.mem_cons.mp mem with rfl | old
    · have zero := goneUnused (counted x) gone (uncalled x gone) rfl
      exact absurd (lockWeakSome.mp found).2 (by omega)
    · exact uncalled x gone old
  | works =>
    rw [trackerExec] at gone
    exact uncalled x gone
  | _ => exact uncalled x gone

theorem moveDestroys (move : Move layout () body g th g' th') {later} (idle : th.pc = .idle)
    (program : th.program = .destroy x::later) : th'.pc = .waiting x ∧ th'.calling = th.calling := by
  cases move with
  | returns => cases program
  | destroys live => cases program; exact ⟨rfl,rfl⟩
  | begins started => cases program; contradiction
  | _ => cases idle

end Moves

theorem stepKeeps (inv : Inv s) (uncalled : DestroysUncalled s body)
    (taken : ownStep layout s body = some next) : Inv next := by
  have move := ownMove taken
  have counted := countedSingle inv.counted
  refine ⟨countedKeeps inv.counted taken,moveOwner move inv.owner,
    moveUncalled move counted inv.uncalled uncalled,fun x waits => ?_,fun x slot rest stopped => ?_⟩
  · by_cases before : WaitsFor x (s.threads ()).pc
    · rcases moveTracker (x := x) move with same | ⟨_,gone,_⟩
      · rw [same]
        exact inv.reset x before
      · exact gone
    · exact (moveEnters move before waits).2
  · obtain ⟨e,visiting,found,_⟩ := moveStops move stopped
    obtain ⟨notOwn,refers,positive⟩ := visitingSome.mp found
    intro same
    rw [same] at refers positive
    have gone : s.shared.tracker x = false := by
      cases live : s.shared.tracker x with
      | false => rfl
      | true => exact absurd refers (by simpa [Shared.weakPtr,live] using notOwn)
    have zero := goneUnused (counted x) gone (inv.uncalled x gone) (by rw [visiting]; rfl)
    omega

theorem proceeds (inv : Inv s) : Proceeds layout s := by
  have noOwnWait : ∀ x, (s.threads ()).pc = .waiting x → (s.threads ()).refs x = 0 := by
    intro x waits
    have uncalled := inv.uncalled x (inv.reset x (.inl waits))
    rw [Thread.refs,waits,refsWaiting,List.count_eq_zero.mpr uncalled]
  have noOwnLock : ∀ work, (s.threads ()).pc = .locking work → s.shared.mutex work.target ≠ some () := by
    intro work locking held
    have inside := inv.owner _ held
    rw [locking] at inside
    cases work with
    | forget x slot rest => exact inv.other x slot rest locking (List.mem_singleton.mp inside)
    | update u rest | isEmpty x | copy x | clear x => cases inside
  refine ⟨noOwnWait,noOwnLock,?_⟩
  rintro ⟨unfinished,names⟩ body
  have possible : (threadStep layout () s.shared (s.threads ()) body).isSome = true :=
    threadStepPossible body unfinished names (fun work locking => by
      cases held : s.shared.mutex work.target with
      | none => rfl
      | some t => exact absurd held (noOwnLock work locking))
    (fun x waits => by
      rw [countedSingle inv.counted x,inv.reset x (.inl waits),noOwnWait x waits]
      rfl)
  obtain ⟨⟨g,th⟩,taken⟩ := Option.isSome_iff_exists.mp possible
  simp [step,taken]

theorem stepNeeded (taken : ownStep layout s body = some next) (after : Proceeds layout next) :
    DestroysUncalled s body := by
  intro x later idle program mem
  obtain ⟨waits,calling⟩ := moveDestroys (ownMove taken) idle program
  have none := after.noOwnWait x waits
  rw [Thread.refs,calling] at none
  exact absurd (List.count_pos_iff.mpr mem) (by omega)

/-! The stack of the thread, from the bottom up: for each level how many calls its
program has left, which part of a call is under way and how much of this is left. -/
section Termination

def Emission.level (e : Emission w Obj) : Nat × Nat × Nat := (e.program.length,0,2*e.rest.length+2)

def Section.left : Section w Obj → Nat × Nat
  | .update _ rest => (0,2*rest.length+1)
  | .isEmpty _ => (0,1)
  | .copy _ | .clear _ => (1,1)
  | .forget _ _ rest => (0,4*rest.length+3)

def Pc.left (g : Shared w Obj Unit) : Pc w Obj → Nat × Nat
  | .idle => (0,0)
  | .locking work => ((Section.left work).1,(Section.left work).2+1)
  | .inside work => Section.left work
  | .emitting rest => (0,2*rest.length+1)
  | .visiting _ rest => (0,4*rest.length+1)
  | .releasing _ _ rest => (0,4*rest.length+2)
  | .waiting _ => (2,2)
  | .pinging x => (2,if g.useCount x = 0 then 1 else 4)
  | .pinged _ => (2,3)

def stack (g : Shared w Obj Unit) (th : Thread w Obj) : List (Nat × Nat × Nat) :=
  th.suspended.reverse.map Emission.level ++ [(th.program.length,Pc.left g th.pc)]

def PartOrder : Nat × Nat → Nat × Nat → Prop := Prod.Lex (· < ·) (· < ·)

def LevelOrder : Nat × Nat × Nat → Nat × Nat × Nat → Prop := Prod.Lex (· < ·) PartOrder

omit [BinarySearch] in
theorem levelOrderWellFounded : WellFounded LevelOrder :=
  Nat.lt_wfRel.wf.prod_lex (Nat.lt_wfRel.wf.prod_lex Nat.lt_wfRel.wf)

omit [DecidableEq Obj] [BinarySearch] in
theorem topLower {levels : List (Nat × Nat × Nat)} {program program' : List (Call w Obj)}
    {left left' : Nat × Nat}
    (less : program'.length < program.length ∨ program' = program ∧ PartOrder left' left) :
    List.Lex LevelOrder (levels ++ [(program'.length,left')]) (levels ++ [(program.length,left)]) := by
  refine List.Lex.append_left _ (.rel ?_) levels
  rcases less with fewer | ⟨rfl,less⟩
  · exact Prod.Lex.left _ _ fewer
  · exact Prod.Lex.right _ less

theorem execLower {g g' : Shared w Obj Unit} (work : Section w Obj) :
    PartOrder (Pc.left g' (work.exec g).2) (Section.left work) := by
  cases work with
  | update u rest =>
    cases rest with
    | nil => exact Prod.Lex.right _ Nat.one_pos
    | cons v later =>
      have fewer : 2*later.length+2 < 2*(later.length+1)+1 := by omega
      exact Prod.Lex.right _ fewer
  | isEmpty x => exact Prod.Lex.right _ Nat.one_pos
  | copy x | clear x => exact Prod.Lex.left _ _ Nat.one_pos
  | forget x slot rest => exact Prod.Lex.right _ (Nat.lt_succ_self _)

theorem moveLowers {g g' : Shared w Obj Unit} {th th' : Thread w Obj}
    (move : Move layout () body g th g' th') : List.Lex LevelOrder (stack g' th') (stack g th) := by
  cases move with
  | returns =>
    rename_i e outer
    simp only [stack,List.reverse_cons,List.map_append,List.append_assoc]
    refine List.Lex.append_left _ (.rel (Prod.Lex.right _ (Prod.Lex.right _ ?_))) _
    omega
  | destroys live => exact topLower (.inl (Nat.lt_succ_self _))
  | begins started => exact topLower (.inl (Nat.lt_succ_self _))
  | locks free => exact topLower (.inr ⟨rfl,Prod.Lex.right _ (Nat.lt_succ_self _)⟩)
  | works => exact topLower (.inr ⟨rfl,execLower _⟩)
  | emitted => exact topLower (.inr ⟨rfl,Prod.Lex.right _ (Nat.succ_pos _)⟩)
  | skips gone => exact topLower (.inr ⟨rfl,Prod.Lex.right _ (by simp)⟩)
  | calls found =>
    rename_i slot rest program outer observer
    simp only [stack,List.reverse_cons,List.map_append,List.append_assoc]
    refine List.Lex.append_left _ (.rel (Prod.Lex.right _ (Prod.Lex.right _ ?_))) _
    simp only [List.length_cons]
    omega
  | clears => exact topLower (.inr ⟨rfl,Prod.Lex.right _ (Nat.succ_pos _)⟩)
  | passes gone => exact topLower (.inr ⟨rfl,Prod.Lex.right _ (by simp)⟩)
  | visits found =>
    rename_i x slot rest program outer peer
    have less : 4*rest.length+3+1 < 4*(rest.length+1)+1 := by omega
    exact topLower (.inr ⟨rfl,Prod.Lex.right _ less⟩)
  | leaves => exact topLower (.inr ⟨rfl,Prod.Lex.right _ (Nat.lt_succ_self _)⟩)
  | expires expired =>
    exact topLower (.inr ⟨rfl,Prod.Lex.right _ (by simp [expired])⟩)
  | finishes expired => exact topLower (.inr ⟨rfl,Prod.Lex.left _ _ Nat.one_lt_two⟩)
  | pings lingering =>
    exact topLower (.inr ⟨rfl,Prod.Lex.right _ (by simp [lingering])⟩)
  | drops => exact topLower (.inr ⟨rfl,Prod.Lex.right _ (by decide)⟩)

theorem runsEnd (layout : Layout w Obj) (bound : Nat) : WellFounded (fun next s : Single w Obj =>
    (∃ body, ownStep layout s body = some next) ∧ (next.threads ()).suspended.length ≤ bound) := by
  have ends := endsOfStack levelOrderWellFounded (fun s : Single w Obj => stack s.shared (s.threads ()))
    (fun s next (taken : ∃ body, ownStep layout s body = some next) =>
      moveLowers (ownMove taken.choose_spec)) (bound+1)
  refine Subrelation.wf (fun {next s} deep => ⟨deep.1,?_⟩) ends
  simpa [stack] using deep.2

end Termination

theorem completesExactly (layout : Layout w Obj) (connections : Obj → Connections w (Option Obj))
    (tracker : Obj → Bool) (program : List (Call w Obj)) (bodies : List (List (Call w Obj)))
    (bound : Nat) :
    (EveryState (ownStep layout) (Proceeds layout) (start connections tracker fun _ => program) bodies ↔
      EveryStep (ownStep layout) DestroysUncalled (start connections tracker fun _ => program) bodies) ∧
    WellFounded (fun next s : Single w Obj =>
      (∃ body, ownStep layout s body = some next) ∧ (next.threads ()).suspended.length ≤ bound) :=
  ⟨everyStateExact (fun _ inv => proceeds inv) (fun _ _ _ inv uncalled taken => stepKeeps inv uncalled taken)
    (fun _ _ _ _ taken after => stepNeeded taken after) (startInv connections tracker _) bodies,
    runsEnd layout bound⟩

end Steps

/-! The slot destroys its own receiver, while the emission that called it holds a
reference to this receiver. -/
def selfishProgram : List (Call 64 Party) :=
  [.connect .signal (.bindInstance 0x7 0x1000),.fire .signal]

def selfishBodies : List (List (Call 64 Party)) := List.replicate 8 [] ++ [[.destroy .receiver],[]]

theorem selfishSlotHangs :
    ¬ EveryState (@ownStep _ _ _ linearSearch partyLayout) (@Proceeds _ _ _ linearSearch partyLayout)
      (start (fun _ => .empty) (fun _ => true) fun _ => selfishProgram) selfishBodies := by
  let _ := linearSearch
  intro proceeds
  have evaluated : (run (ownStep partyLayout) (start (fun _ => .empty) (fun _ => true)
      fun _ => selfishProgram) selfishBodies).map (fun s => ((s.threads ()).pc,(s.threads ()).refs .receiver)) =
        some (.waiting .receiver,1) := by decide +kernel
  obtain ⟨out,ran,result⟩ := Option.map_eq_some_iff.mp evaluated
  obtain ⟨waits,held⟩ := Prod.mk.inj result
  have none := (everyStatePrefix.mp proceeds selfishBodies [] out rfl ran).noOwnWait .receiver waits
  omega

end SignalSlot.Reentrancy
