import SignalSlot.Library.GuardedRun
import SignalSlot.NanoTracker

/-! What the mutexes of TS_Policy_Safe are for. A vector is read and written only by
the thread that has the mutex of its object, and the loop of disconnect_all walks a
vector that nobody changes before it is cleared: its iterators stay valid. -/
namespace SignalSlot.LockDiscipline
open PartitionSearch GuardedRun Tracker

variable {w : Nat} {Obj Tid : Type}

/-- The vector that the next step of a thread reads or writes. -/
def Accesses (y : Obj) : Pc w Obj → Prop
  | .inside work => work.target = y
  | .visiting x _ => x = y
  | _ => False

/-- A loop of disconnect_all and the entries that it has not reached. -/
def Walks (x : Obj) (rest : List (Connection w (Option Obj))) : Pc w Obj → Prop
  | .visiting y later | .releasing y _ later | .locking (.forget y _ later)
  | .inside (.forget y _ later) => y = x ∧ later = rest
  | _ => False

structure RaceFree [DecidableEq Obj] [DecidableEq Tid] [BinarySearch] (layout : Layout w Obj)
    (s : State w Obj Tid) : Prop where
  locked : ∀ t y, Accesses y (s.threads t).pc → s.shared.mutex y = some t
  alone : ∀ t u y, Accesses y (s.threads t).pc → Accesses y (s.threads u).pc → t = u
  writes : ∀ action next y, step layout s action = some next →
    next.shared.connections y ≠ s.shared.connections y → Accesses y (s.threads action.1).pc
  walks : ∀ t x rest, Walks x rest (s.threads t).pc →
    s.shared.mutex x = some t ∧ rest <:+ (s.shared.connections x).slots
  free : ∀ t y, s.shared.mutex y = some t → y ∈ (s.threads t).pc.held

structure Inv (s : State w Obj Tid) : Prop where
  owner : ∀ t y, s.shared.mutex y = some t ↔ y ∈ (s.threads t).pc.held
  distinct : ∀ t, (s.threads t).pc.held.Nodup
  walks : ∀ t x rest, Walks x rest (s.threads t).pc → rest <:+ (s.shared.connections x).slots

theorem startInv (connections : Obj → Connections w (Option Obj)) (tracker : Obj → Bool)
    (programs : Tid → List (Call w Obj)) : Inv (start connections tracker programs) := by
  refine ⟨?_,fun _ => List.nodup_nil,fun t x rest walks => (nomatch walks)⟩
  intro t y
  exact ⟨(nomatch ·),(nomatch ·)⟩

theorem accessesHeld {y : Obj} {pc : Pc w Obj} (accesses : Accesses y pc) : y ∈ pc.held := by
  cases pc with
  | inside work =>
    cases accesses
    exact heldInside.mpr (.inl rfl)
  | visiting x rest =>
    cases accesses
    exact List.mem_cons_self
  | _ => exact accesses.elim

theorem walksHeld {x : Obj} {rest} {pc : Pc w Obj} (walks : Walks x rest pc) : x ∈ pc.held := by
  unfold Walks at walks
  split at walks
  · exact walks.1 ▸ List.mem_cons_self
  · exact walks.1 ▸ List.mem_cons_self
  · exact walks.1 ▸ List.mem_cons_self
  · exact walks.1 ▸ List.mem_cons_self
  · exact walks.elim

theorem heldUpdates (us : List (Update w Obj)) : (beginUpdates us).held = [] := by
  cases us <;> rfl

theorem heldBegin {layout : Layout w Obj} {call : Call w Obj} {pc} (started : call.begin layout = some pc) :
    pc.held = [] := by
  cases call with
  | destroy x => contradiction
  | connect signal slot | disconnect signal slot =>
    cases Option.some.inj started
    exact heldUpdates _
  | disconnectAll x | isEmpty x | fire signal =>
    cases Option.some.inj started
    rfl

section Moves
variable [DecidableEq Obj] [BinarySearch] {layout : Layout w Obj} {t u : Tid} {body : List (Call w Obj)}
  {g g' : Shared w Obj Tid} {th th' : Thread w Obj} {x y : Obj}

omit [BinarySearch] in
theorem storeOther {c : Connections w (Option Obj)} (other : x ≠ y) :
    (g.store x c).connections y = g.connections y := Function.update_of_ne (Ne.symm other) ..

theorem applyOther {update : Update w Obj} (other : update.target ≠ y) :
    (g.apply update).connections y = g.connections y := by
  cases update with
  | insert x key obs => exact storeOther other
  | remove x key => exact storeOther other

theorem execOther {work : Section w Obj} (other : work.target ≠ y) :
    (work.exec g).1.connections y = g.connections y := by
  cases work with
  | update update rest => exact applyOther other
  | isEmpty z | copy z | clear z => rfl
  | forget z slot rest =>
    have removed : (Update.remove slot.observer slot.delegate).target ≠ y := other
    exact applyOther removed

theorem execMutex {work : Section w Obj} (other : y ≠ work.target) :
    (work.exec g).1.mutex y = g.mutex y := by
  cases work with
  | update update rest => exact mutexUnlock.trans ((if_neg other).trans (congrFun (applyMutex update) y))
  | isEmpty z | copy z => exact mutexUnlock.trans (if_neg other)
  | clear z => rfl
  | forget z slot rest => exact mutexUnlock.trans ((if_neg other).trans (congrFun (applyMutex _) y))

theorem moveVectors (move : Move layout t body g th g' th') (apart : ¬ Accesses y th.pc) :
    g'.connections y = g.connections y := by
  cases move with
  | works => exact execOther apart
  | clears => exact storeOther apart
  | _ => rfl

theorem moveHeld (move : Move layout t body g th g' th') (distinct : th.pc.held.Nodup)
    (own : ∀ y ∈ th.pc.held, g.mutex y = some t) : ∀ y ∈ th'.pc.held, g'.mutex y = some t := by
  intro y held
  cases move with
  | begins started =>
    rw [heldBegin started] at held
    cases held
  | locks free =>
    rw [mutexLock]
    split
    · rfl
    · next other => exact own y ((heldInside.mp held).resolve_left other)
  | works =>
    rename_i work program outer
    cases work with
    | update u rest =>
      rw [show (Section.exec g (.update u rest)).2 = beginUpdates rest from rfl,heldUpdates] at held
      cases held
    | isEmpty z | copy z => cases held
    | clear z => exact own y held
    | forget z slot rest =>
      have here : y = z := List.mem_singleton.mp held
      have other : z ≠ slot.observer := by
        intro same
        simp [Pc.held,same] at distinct
      rw [show (Section.exec g (.forget z slot rest)).1 =
        (g.apply (.remove slot.observer slot.delegate)).unlock slot.observer from rfl,
        mutexUnlock,applyMutex,here,if_neg other]
      exact own z List.mem_cons_self
  | passes | visits | leaves => exact own y held
  | _ => cases held

theorem moveStays (move : Move layout t body g th g' th') (other : u ≠ t)
    (own : ∀ y ∈ th.pc.held, g.mutex y = some t) (before : g.mutex y = some u) :
    g'.mutex y = some u := by
  have apart : y ∉ th.pc.held := by
    intro held
    exact other (Option.some.inj (before.symm.trans (own y held)))
  cases move with
  | locks free =>
    rw [mutexLock,if_neg]
    · exact before
    · intro same
      cases (same ▸ before).symm.trans free
  | works =>
    rename_i work program outer
    have target : y ≠ work.target := fun same => apart (heldInside.mpr (.inl same))
    exact (execMutex target).trans before
  | clears =>
    rw [mutexUnlock,if_neg]
    · exact before
    · exact fun same => apart (same ▸ List.mem_cons_self)
  | _ => exact before

theorem moveDistinct (move : Move layout t body g th g' th')
    (own : ∀ y ∈ th.pc.held, g.mutex y = some t) : th'.pc.held.Nodup := by
  cases move with
  | begins started =>
    rw [heldBegin started]
    exact List.nodup_nil
  | locks free =>
    rename_i work program outer
    cases work with
    | forget z slot rest =>
      have taken := own z List.mem_cons_self
      apply List.nodup_cons.mpr
      refine ⟨?_,List.nodup_singleton _⟩
      intro mem
      rw [List.mem_singleton.mp mem] at taken
      cases taken.symm.trans free
    | update | isEmpty | copy | clear => exact List.nodup_singleton _
  | works =>
    rename_i work program outer
    cases work with
    | update update rest =>
      rw [show (Section.exec g (.update update rest)).2 = beginUpdates rest from rfl,heldUpdates]
      exact List.nodup_nil
    | isEmpty z | copy z => exact List.nodup_nil
    | clear z => exact List.nodup_singleton _
    | forget z slot rest => exact List.nodup_singleton _
  | passes | visits | leaves => exact List.nodup_singleton _
  | _ => exact List.nodup_nil

theorem moveWalks (move : Move layout t body g th g' th') (distinct : th.pc.held.Nodup)
    (walking : ∀ x rest, Walks x rest th.pc → rest <:+ (g.connections x).slots) :
    ∀ x rest, Walks x rest th'.pc → rest <:+ (g'.connections x).slots := by
  intro x rest walks
  cases move with
  | begins started =>
    have held := walksHeld walks
    rw [heldBegin started] at held
    cases held
  | locks free =>
    rename_i work program outer
    cases work with
    | forget z slot later => exact walking x rest walks
    | update | isEmpty | copy | clear => exact walks.elim
  | works =>
    rename_i work program outer
    cases work with
    | update update later =>
      have held := walksHeld walks
      rw [show (Section.exec g (.update update later)).2 = beginUpdates later from rfl,heldUpdates] at held
      cases held
    | isEmpty z | copy z => exact walks.elim
    | clear z =>
      obtain ⟨rfl,rfl⟩ := walks
      exact List.suffix_refl _
    | forget z slot later =>
      obtain ⟨rfl,rfl⟩ := walks
      have other : (Section.forget z slot later).target ≠ z := by
        intro same
        simp [Pc.held,show slot.observer = z from same] at distinct
      rw [execOther other]
      exact walking z later ⟨rfl,rfl⟩
  | passes | visits =>
    obtain ⟨rfl,rfl⟩ := walks
    exact (List.suffix_cons _ _).trans (walking _ _ ⟨rfl,rfl⟩)
  | leaves => exact walking x rest walks
  | _ => exact walks.elim

end Moves

section Steps
variable [DecidableEq Obj] [DecidableEq Tid] [BinarySearch] {layout : Layout w Obj}
  {s next : State w Obj Tid} {action : Tid × List (Call w Obj)}

theorem ownerKeeps (inv : Inv s) (taken : step layout s action = some next) (t : Tid) (y : Obj) :
    next.shared.mutex y = some t ↔ y ∈ (next.threads t).pc.held := by
  obtain ⟨move,others⟩ := stepMove taken
  have own : ∀ y ∈ (s.threads action.1).pc.held, s.shared.mutex y = some action.1 :=
    fun y held => (inv.owner _ y).mpr held
  rcases eq_or_ne t action.1 with rfl | other
  · constructor
    · exact fun after => moveOwner move (fun y has => (inv.owner _ y).mp has) y after
    · exact moveHeld move (inv.distinct _) own y
  · rw [others t other,← inv.owner t y]
    exact ⟨moveOthers move other,moveStays move other own⟩

theorem walksKeeps (inv : Inv s) (taken : step layout s action = some next) (t : Tid) (x : Obj) (rest)
    (walks : Walks x rest (next.threads t).pc) : rest <:+ (next.shared.connections x).slots := by
  obtain ⟨move,others⟩ := stepMove taken
  rcases eq_or_ne t action.1 with rfl | other
  · exact moveWalks move (inv.distinct _) (inv.walks _) x rest walks
  · rw [others t other] at walks
    have mine := (inv.owner t x).mpr (walksHeld walks)
    have apart : ¬ Accesses x (s.threads action.1).pc := by
      intro accesses
      have theirs := (inv.owner action.1 x).mpr (accessesHeld accesses)
      exact other (Option.some.inj (mine.symm.trans theirs))
    rw [moveVectors move apart]
    exact inv.walks t x rest walks

theorem stepKeeps (inv : Inv s) (taken : step layout s action = some next) : Inv next := by
  refine ⟨ownerKeeps inv taken,fun t => ?_,walksKeeps inv taken⟩
  obtain ⟨move,others⟩ := stepMove taken
  rcases eq_or_ne t action.1 with rfl | other
  · exact moveDistinct move (fun y held => (inv.owner _ y).mpr held)
  · rw [others t other]
    exact inv.distinct t

theorem raceFree (inv : Inv s) : RaceFree layout s := by
  have locked : ∀ t y, Accesses y (s.threads t).pc → s.shared.mutex y = some t :=
    fun t y accesses => (inv.owner t y).mpr (accessesHeld accesses)
  refine ⟨locked,?_,?_,?_,fun t y has => (inv.owner t y).mp has⟩
  · intro t u y first second
    exact Option.some.inj ((locked t y first).symm.trans (locked u y second))
  · intro action next y taken changed
    by_contra apart
    exact changed (moveVectors (stepMove taken).1 apart)
  · intro t x rest walks
    exact ⟨(inv.owner t x).mpr (walksHeld walks),inv.walks t x rest walks⟩

theorem vectorsRaceFree (layout : Layout w Obj) (connections : Obj → Connections w (Option Obj))
    (tracker : Obj → Bool) (programs : Tid → List (Call w Obj))
    (actions : List (Tid × List (Call w Obj))) :
    EveryState (step layout) (RaceFree layout) (start connections tracker programs) actions :=
  everyStateImp (fun _ inv => raceFree inv) (everyStateOfInvariant
    (fun _ _ _ inv taken => stepKeeps inv taken) (startInv connections tracker programs) actions)

end Steps

end SignalSlot.LockDiscipline
