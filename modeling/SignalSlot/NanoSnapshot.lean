import SignalSlot.NanoDestructorBarrier

/-! What a fire under TS_Policy_Safe delivers, whatever its slots and the other threads
do meanwhile: the entries of the vector at the moment of the copy, each once and in
their order. An entry is passed over only if the destruction of its receiver has begun. -/
namespace SignalSlot.Snapshot
open PartitionSearch GuardedRun Tracker

variable {w : Nat} {Obj Tid : Type}

structure Visit (w : Nat) (Obj : Type) where
  slot : Connection w (Option Obj)
  called : Bool
  deriving DecidableEq

/-- The copies that a thread is walking, from the outermost emission inwards: of each
the entries that it has not reached. -/
def levels (th : Thread w Obj) : List (List (Connection w (Option Obj))) :=
  th.suspended.reverse.map Emission.rest ++ match th.pc with
    | .emitting rest => [rest]
    | _ => []

def Open (t : Tid) (depth : Nat) (s : State w Obj Tid) : Prop := depth < (levels (s.threads t)).length

/-- What the next step of a thread does with an entry of the copy at a depth of calls. -/
def visit (s : State w Obj Tid) (t : Tid) (depth : Nat) : List (Visit w Obj) := match (s.threads t).pc with
  | .emitting (slot::_) =>
      if (s.threads t).suspended.length = depth then
        [⟨slot,(s.shared.observed slot.observer).isSome⟩]
      else []
  | _ => []

section Visits
variable [DecidableEq Obj] [DecidableEq Tid] [BinarySearch]

def visits (layout : Layout w Obj) (t : Tid) (depth : Nat) :
    State w Obj Tid → List (Tid × List (Call w Obj)) → List (Visit w Obj)
  | _,[] => []
  | s,action::rest => match step layout s action with
    | none => []
    | some next => (if action.1 = t then visit s t depth else []) ++ visits layout t depth next rest

structure Delivered (layout : Layout w Obj) (t : Tid) (depth : Nat)
    (slots : List (Connection w (Option Obj))) (seen : List (Visit w Obj)) (out : State w Obj Tid) : Prop where
  inOrder : ∃ rest, (levels (out.threads t))[depth]? = some rest ∧ seen.map Visit.slot ++ rest = slots
  complete : ∀ action next, step layout out action = some next → ¬ Open t depth next →
    seen.map Visit.slot = slots
  called : ∀ v ∈ seen, ∀ x, v.slot.observer = some x → out.shared.tracker x = true → v.called = true

def Delivers (layout : Layout w Obj) (s : State w Obj Tid) : Prop :=
  ∀ t signal body next later out, (s.threads t).pc = .inside (.copy signal) →
    step layout s (t,body) = some next → run (step layout) next later = some out →
    EveryState (step layout) (Open t (s.threads t).suspended.length) next later →
    Delivered layout t (s.threads t).suspended.length (s.shared.connections signal).slots
      (visits layout t (s.threads t).suspended.length next later) out

end Visits

section Levels
variable {s : State w Obj Tid} {t : Tid} {depth : Nat} {rest : List (Connection w (Option Obj))}

theorem levelsEmitting {th : Thread w Obj} (here : th.pc = .emitting rest) :
    levels th = th.suspended.reverse.map Emission.rest ++ [rest] := by
  simp only [levels,here]

theorem levelsQuiet {pc : Pc w Obj} {program outer} (quiet : ∀ rest, pc ≠ .emitting rest) :
    levels ⟨pc,program,outer⟩ = outer.reverse.map Emission.rest := by
  cases pc with
  | emitting rest => exact absurd rfl (quiet rest)
  | _ => exact List.append_nil _

theorem levelsBelow {levels : List (List (Connection w (Option Obj)))} {top}
    (here : (levels ++ [top])[depth]? = some rest) (inner : depth ≠ levels.length) :
    levels[depth]? = some rest := by
  have bound := (List.getElem?_eq_some_iff.mp here).1
  rw [List.length_append,List.length_singleton] at bound
  rw [← here]
  exact (List.getElem?_append_left (by omega)).symm

theorem levelsTop {levels : List (List (Connection w (Option Obj)))} {top}
    (here : (levels ++ [top])[levels.length]? = some rest) : top = rest := by
  rw [List.getElem?_concat_length] at here
  exact Option.some.inj here

theorem levelsLength {outer : List (Emission w Obj)} :
    (outer.reverse.map Emission.rest).length = outer.length := by
  rw [List.length_map,List.length_reverse]

theorem visitQuiet (apart : ∀ slot rest, (s.threads t).pc ≠ .emitting (slot::rest)) :
    visit s t depth = [] := by
  unfold visit
  split
  · next slot rest here => exact absurd here (apart slot rest)
  · rfl

theorem visitHere {slot} (here : (s.threads t).pc = .emitting (slot::rest))
    (same : (s.threads t).suspended.length = depth) :
    visit s t depth = [⟨slot,(s.shared.observed slot.observer).isSome⟩] := by
  simp only [visit,here,if_pos same]

theorem visitElsewhere (other : (s.threads t).suspended.length ≠ depth) : visit s t depth = [] := by
  unfold visit
  split
  · exact if_neg other
  · rfl

end Levels

section Moves
variable [DecidableEq Obj] [BinarySearch] {layout : Layout w Obj} {t : Tid} {body : List (Call w Obj)}
  {g g' : Shared w Obj Tid} {th th' : Thread w Obj}

/-! A step pushes a copy, takes the head of the innermost one, or ends that one when
nothing of it is left. -/
inductive Shift (g : Shared w Obj Tid) (th th' : Thread w Obj) : Prop where
  | keeps (same : levels th' = levels th) (apart : ∀ slot rest, th.pc ≠ .emitting (slot::rest))
  | copies (signal : Obj) (here : th.pc = .inside (.copy signal))
      (pushed : levels th' = levels th ++ [(g.connections signal).slots])
  | takes (slot : Connection w (Option Obj)) (rest : List (Connection w (Option Obj)))
      (here : th.pc = .emitting (slot::rest))
      (taken : levels th' = th.suspended.reverse.map Emission.rest ++ [rest])
  | ends (here : th.pc = .emitting []) (popped : levels th' = th.suspended.reverse.map Emission.rest)

omit [DecidableEq Obj] [BinarySearch] in
theorem quietKeeps {pc pc' : Pc w Obj} {program program' outer} (before : ∀ rest, pc ≠ .emitting rest)
    (after : ∀ rest, pc' ≠ .emitting rest) : Shift g ⟨pc,program,outer⟩ ⟨pc',program',outer⟩ := by
  refine .keeps ?_ (fun slot rest => before _)
  rw [levelsQuiet before,levelsQuiet after]

omit [DecidableEq Obj] [BinarySearch] in
theorem updatesQuiet (us : List (Update w Obj)) : ∀ rest, beginUpdates us ≠ .emitting rest := by
  intro rest
  cases us <;> exact (nomatch ·)

omit [DecidableEq Obj] [BinarySearch] in
theorem beginQuiet {call : Call w Obj} {pc} (started : call.begin layout = some pc) :
    ∀ rest, pc ≠ .emitting rest := by
  cases call with
  | destroy x => contradiction
  | connect signal slot | disconnect signal slot =>
    cases Option.some.inj started
    exact updatesQuiet _
  | disconnectAll x | isEmpty x | fire signal =>
    cases Option.some.inj started
    exact fun _ => (nomatch ·)

theorem moveShifts (move : Move layout t body g th g' th') : Shift g th th' := by
  cases move with
  | returns =>
    refine .keeps ?_ (by intro slot rest h; contradiction)
    simp [levels]
  | begins started =>
    refine quietKeeps ?_ (beginQuiet started)
    intro rest h
    contradiction
  | works =>
    rename_i work program outer
    cases work with
    | update u rest =>
      refine quietKeeps ?_ (updatesQuiet rest)
      intro rest h
      contradiction
    | copy signal =>
      refine .copies signal rfl ?_
      simp [levels,Section.exec]
    | isEmpty x | clear x | forget x slot rest =>
      apply quietKeeps <;> (intro rest h; contradiction)
  | emitted =>
    refine .ends rfl ?_
    simp [levels]
  | skips gone => exact .takes _ _ rfl rfl
  | calls found =>
    refine .takes _ _ rfl ?_
    simp [levels]
  | _ => apply quietKeeps <;> (intro rest h; contradiction)

theorem moveCopies (move : Move layout t body g th g' th') {signal : Obj}
    (here : th.pc = .inside (.copy signal)) :
    (levels th')[th.suspended.length]? = some (g.connections signal).slots := by
  cases move with
  | works =>
    cases here
    rw [levelsEmitting rfl,← levelsLength]
    exact List.getElem?_concat_length
  | _ => cases here

end Moves

section Steps
variable [DecidableEq Obj] [DecidableEq Tid] [BinarySearch] {layout : Layout w Obj}
  {s next out : State w Obj Tid} {t : Tid} {depth : Nat} {rest slots : List (Connection w (Option Obj))}

theorem stepDelivers {action} (before : (levels (s.threads t))[depth]? = some rest)
    (taken : step layout s action = some next) (still : Open t depth next) :
    ∃ later, (levels (next.threads t))[depth]? = some later ∧
      (if action.1 = t then visit s t depth else []).map Visit.slot ++ later = rest := by
  obtain ⟨move,others⟩ := stepMove taken
  rcases eq_or_ne t action.1 with rfl | other
  · rw [if_pos rfl]
    cases moveShifts move with
    | keeps same apart =>
      rw [visitQuiet apart,same]
      exact ⟨rest,before,rfl⟩
    | copies signal here pushed =>
      rw [visitQuiet (fun slot rest there => nomatch here.symm.trans there),pushed]
      exact ⟨rest,(List.getElem?_append_left (List.getElem?_eq_some_iff.mp before).1).trans before,rfl⟩
    | takes slot later here after =>
      rw [levelsEmitting here] at before
      rw [after]
      rcases eq_or_ne (s.threads action.1).suspended.length depth with same | inner
      · rw [visitHere here same]
        rw [← same,← levelsLength] at before ⊢
        rw [← levelsTop before]
        exact ⟨later,List.getElem?_concat_length,rfl⟩
      · have below := levelsBelow before (fun top => inner (levelsLength.symm.trans top.symm))
        rw [visitElsewhere inner]
        exact ⟨rest,(List.getElem?_append_left (List.getElem?_eq_some_iff.mp below).1).trans below,rfl⟩
    | ends here popped =>
      rw [levelsEmitting here] at before
      rw [visitQuiet (fun slot rest there => nomatch here.symm.trans there),popped]
      refine ⟨rest,levelsBelow before ?_,rfl⟩
      rw [Open,popped] at still
      exact Nat.ne_of_lt still
  · rw [if_neg (Ne.symm other),others t other]
    exact ⟨rest,before,rfl⟩

theorem stepCompletes {action} (before : (levels (s.threads t))[depth]? = some rest)
    (taken : step layout s action = some next) (closed : ¬ Open t depth next) : rest = [] := by
  have bound := (List.getElem?_eq_some_iff.mp before).1
  obtain ⟨move,others⟩ := stepMove taken
  rcases eq_or_ne t action.1 with rfl | other
  · cases moveShifts move with
    | keeps same apart =>
      rw [Open,same] at closed
      exact absurd bound closed
    | copies signal here pushed =>
      rw [Open,pushed,List.length_append] at closed
      exact absurd (Nat.lt_add_right _ bound) closed
    | takes slot later here after =>
      rw [levelsEmitting here] at bound
      rw [Open,after] at closed
      simp only [List.length_append,List.length_singleton] at bound closed
      exact absurd bound closed
    | ends here popped =>
      rw [levelsEmitting here] at before bound
      rw [Open,popped] at closed
      rw [List.length_append,List.length_singleton] at bound
      have top : depth = ((s.threads action.1).suspended.reverse.map Emission.rest).length := by omega
      rw [top] at before
      exact (levelsTop before).symm
  · rw [Open,others t other] at closed
    exact absurd bound closed

theorem stepTracker {action} {x : Obj} (taken : step layout s action = some next)
    (live : next.shared.tracker x = true) : s.shared.tracker x = true := by
  rcases DestructorBarrier.moveTracker (stepMove taken).1 with same | ⟨before,_⟩
  · rw [← same]
    exact live
  · exact before

theorem runTracker {later} {x : Obj} (ran : run (step layout) s later = some out)
    (live : out.shared.tracker x = true) : s.shared.tracker x = true := by
  induction later generalizing s with
  | nil =>
    cases Option.some.inj ran
    exact live
  | cons action rest ih =>
    obtain ⟨next,taken,ran⟩ := runCons.mp ran
    exact stepTracker taken (ih ran)

variable [Fintype Tid]

omit [DecidableEq Tid] [BinarySearch] in
theorem visitCalled (counted : DestructorBarrier.Counted s) {v} (mem : v ∈ visit s t depth) {x : Obj}
    (observed : v.slot.observer = some x) (live : s.shared.tracker x = true) : v.called = true := by
  unfold visit at mem
  split at mem
  · next slot rest here =>
    split at mem
    · cases List.mem_singleton.mp mem
      have positive : 0 < s.shared.useCount x := by
        rw [counted x,live]
        exact Nat.add_pos_left Nat.one_pos _
      have found : s.shared.observed slot.observer = some x := lockWeakSome.mpr ⟨observed,positive⟩
      exact Option.isSome_iff_exists.mpr ⟨x,found⟩
    · cases mem
  · cases mem

theorem runDelivers {later} (inv : DestructorBarrier.Inv s) (before : (levels (s.threads t))[depth]? = some slots)
    (still : EveryState (step layout) (Open t depth) s later) (ran : run (step layout) s later = some out) :
    Delivered layout t depth slots (visits layout t depth s later) out := by
  induction later generalizing s slots with
  | nil =>
    cases Option.some.inj ran
    refine ⟨⟨slots,before,rfl⟩,?_,fun v => (nomatch ·)⟩
    intro action next taken closed
    exact (stepCompletes before taken closed).symm
  | cons action rest ih =>
    obtain ⟨next,taken,ran⟩ := runCons.mp ran
    obtain ⟨left,after,split⟩ := stepDelivers before taken (everyStateHere (still.2 next taken))
    obtain ⟨inOrder,complete,called⟩ :=
      ih (DestructorBarrier.stepKeeps inv taken) after (still.2 next taken) ran
    have unfolded : visits layout t depth s (action::rest) =
        (if action.1 = t then visit s t depth else []) ++ visits layout t depth next rest := by
      simp only [visits,taken]
    rw [unfolded]
    refine ⟨?_,?_,?_⟩
    · obtain ⟨remaining,there,whole⟩ := inOrder
      exact ⟨remaining,there,by rw [List.map_append,List.append_assoc,whole,split]⟩
    · intro action next taken closed
      rw [List.map_append,complete action next taken closed,split]
    · intro v mem x observed live
      rcases List.mem_append.mp mem with here | there
      · split at here
        · exact visitCalled inv.counted here observed (stepTracker taken (runTracker ran live))
        · cases here
      · exact called v there x observed live

theorem snapshotDelivered (layout : Layout w Obj) (connections : Obj → Connections w (Option Obj))
    (tracker : Obj → Bool) (programs : Tid → List (Call w Obj))
    (actions : List (Tid × List (Call w Obj))) :
    EveryState (step layout) (Delivers layout) (start connections tracker programs) actions := by
  refine everyStateImp ?_ (everyStateOfInvariant (fun _ _ _ inv taken => DestructorBarrier.stepKeeps inv taken)
    (DestructorBarrier.startInv connections tracker programs) actions)
  intro s inv t signal body next later out here taken ran still
  exact runDelivers (DestructorBarrier.stepKeeps inv taken) (moveCopies (stepMove taken).1 here) still ran

end Steps

/-! The slot that is called first disconnects the other one, which is called all the same. -/
def pairProgram : List (Call 64 Party) :=
  [.connect .signal (.bindInstance 0x7 0x1000),.connect .signal (.bindInstance 0x7 0x2000),.fire .signal]

def pairBodies : List (List (Call 64 Party)) := [] :: [.disconnect .signal (.bindInstance 0x7 0x2000)] ::
  List.replicate 12 []

example : ((run (@step _ _ Unit _ linearSearch _ partyLayout) (start (fun _ => .empty) (fun _ => true)
    (fun _ => pairProgram)) (List.replicate 12 ((),[]))).map (fun s =>
      (@visits _ _ Unit _ _ linearSearch partyLayout () 0 s (pairBodies.map (fun body => ((),body)))).map
        (fun v => (v.slot.observer,v.called)))) =
    some [(some .receiver,true),(some .other,true)] := by
  decide +kernel

end SignalSlot.Snapshot
