import SignalSlot.NanoSignal

/-! TS_Policy_Safe, step by step. Every object has a mutex and a tracker, a shared
pointer to itself: an entry of a vector is a weak pointer to a tracker, and whoever
follows an entry holds a strong reference meanwhile. A thread that spins is a
thread without a step. -/
namespace SignalSlot.Tracker
open PartitionSearch

variable {w : Nat} {Obj Tid : Type}

inductive Call (w : Nat) (Obj : Type) where
  | connect (signal : Obj) (slot : Function w)
  | disconnect (signal : Obj) (slot : Function w)
  | disconnectAll (x : Obj)
  | isEmpty (x : Obj)
  | fire (signal : Obj)
  | destroy (x : Obj)
  deriving DecidableEq, Repr

inductive Section (w : Nat) (Obj : Type) where
  | update (u : Update w Obj) (rest : List (Update w Obj))
  | isEmpty (x : Obj)
  | copy (signal : Obj)
  | clear (x : Obj)
  | forget (x : Obj) (slot : Connection w Obj) (rest : List (Connection w (Option Obj)))
  deriving DecidableEq

def Section.target : Section w Obj → Obj
  | .update u _ => u.target
  | .isEmpty x | .copy x | .clear x => x
  | .forget _ slot _ => slot.observer

inductive Pc (w : Nat) (Obj : Type) where
  | idle
  | locking (work : Section w Obj)
  | inside (work : Section w Obj)
  | emitting (rest : List (Connection w (Option Obj)))
  | visiting (x : Obj) (rest : List (Connection w (Option Obj)))
  | releasing (x : Obj) (slot : Connection w Obj) (rest : List (Connection w (Option Obj)))
  /-- `before_disconnect_all`: the loop on `ping.expired()`, the call of
  `ping.lock()`, and the reference that it has found. -/
  | waiting (x : Obj)
  | pinging (x : Obj)
  | pinged (x : Obj)
  deriving DecidableEq

/-- A slot call: the locked entry, the rest of the copy that is being walked, and
what the caller of `fire` does afterwards. -/
structure Emission (w : Nat) (Obj : Type) where
  slot : Connection w Obj
  rest : List (Connection w (Option Obj))
  program : List (Call w Obj)
  deriving DecidableEq

structure Thread (w : Nat) (Obj : Type) where
  pc : Pc w Obj
  program : List (Call w Obj)
  suspended : List (Emission w Obj)
  deriving DecidableEq

structure Shared (w : Nat) (Obj Tid : Type) where
  connections : Obj → Connections w (Option Obj)
  tracker : Obj → Bool
  useCount : Obj → Nat
  mutex : Obj → Option Tid

structure State (w : Nat) (Obj Tid : Type) where
  shared : Shared w Obj Tid
  threads : Tid → Thread w Obj

namespace Shared
variable [DecidableEq Obj]

def weakPtr (g : Shared w Obj Tid) (x : Obj) : Option Obj := if g.tracker x then some x else none

def lockWeak (g : Shared w Obj Tid) : Option Obj → Option Obj
  | none => none
  | some x => if 0 < g.useCount x then some x else none

def observed (g : Shared w Obj Tid) (observer : Option Obj) : Option Obj := g.lockWeak observer

def visiting (g : Shared w Obj Tid) (self : Obj) (observer : Option Obj) : Option Obj :=
  if observer = g.weakPtr self then none else g.lockWeak observer

def acquire (g : Shared w Obj Tid) (x : Obj) : Shared w Obj Tid :=
  { g with useCount := Function.update g.useCount x (g.useCount x + 1) }

def release (g : Shared w Obj Tid) (x : Obj) : Shared w Obj Tid :=
  { g with useCount := Function.update g.useCount x (g.useCount x - 1) }

def reset (g : Shared w Obj Tid) (x : Obj) : Shared w Obj Tid :=
  { g.release x with tracker := Function.update g.tracker x false }

def lock (g : Shared w Obj Tid) (x : Obj) (t : Tid) : Shared w Obj Tid :=
  { g with mutex := Function.update g.mutex x (some t) }

def unlock (g : Shared w Obj Tid) (x : Obj) : Shared w Obj Tid :=
  { g with mutex := Function.update g.mutex x none }

def store (g : Shared w Obj Tid) (x : Obj) (c : Connections w (Option Obj)) : Shared w Obj Tid :=
  { g with connections := Function.update g.connections x c }

def apply [BinarySearch] (g : Shared w Obj Tid) : Update w Obj → Shared w Obj Tid
  | .insert x key obs => g.store x ((g.connections x).insert key (g.weakPtr obs))
  | .remove x key => g.store x ((g.connections x).remove key)

end Shared

def beginUpdates : List (Update w Obj) → Pc w Obj
  | [] => .idle
  | u::rest => .locking (.update u rest)

def Call.begin (layout : Layout w Obj) : Call w Obj → Option (Pc w Obj)
  | .connect signal slot => some (beginUpdates (insertSfinae layout signal slot.delegateKey))
  | .disconnect signal slot => some (beginUpdates (removeSfinae layout signal slot.delegateKey))
  | .disconnectAll x => some (.locking (.clear x))
  | .isEmpty x => some (.locking (.isEmpty x))
  | .fire signal => some (.locking (.copy signal))
  | .destroy _ => none

section Step
variable [DecidableEq Obj] [BinarySearch]

def Section.exec (g : Shared w Obj Tid) : Section w Obj → Shared w Obj Tid × Pc w Obj
  | .update u rest => ((g.apply u).unlock u.target,beginUpdates rest)
  | .isEmpty x => (g.unlock x,.idle)
  | .copy signal => (g.unlock signal,.emitting (g.connections signal).slots)
  | .clear x => (g,.visiting x (g.connections x).slots)
  | .forget x slot rest =>
      ((g.apply (.remove slot.observer slot.delegate)).unlock slot.observer,.releasing x slot rest)

/-- The next step of the thread `t`; `body` is what the slot does if one is called. -/
def threadStep (layout : Layout w Obj) (t : Tid) (g : Shared w Obj Tid) (th : Thread w Obj)
    (body : List (Call w Obj)) : Option (Shared w Obj Tid × Thread w Obj) := match th.pc with
  | .idle => match th.program with
    | [] => match th.suspended with
      | [] => none
      | e::outer => some (g.release e.slot.observer,⟨.emitting e.rest,e.program,outer⟩)
    | .destroy x::later =>
        if g.tracker x then some (g.reset x,{ th with pc := .waiting x, program := later }) else none
    | call::later => do
        let pc ← call.begin layout
        some (g,{ th with pc := pc, program := later })
  | .locking work =>
      if g.mutex work.target = none then some (g.lock work.target t,{ th with pc := .inside work })
      else none
  | .inside work => some ((work.exec g).1,{ th with pc := (work.exec g).2 })
  | .emitting [] => some (g,{ th with pc := .idle })
  | .emitting (slot::rest) => match g.observed slot.observer with
    | none => some (g,{ th with pc := .emitting rest })
    | some observer => some (g.acquire observer,
        ⟨.idle,body,⟨⟨slot.delegate,observer⟩,rest,th.program⟩::th.suspended⟩)
  | .visiting x [] => some ((g.store x .empty).unlock x,{ th with pc := .idle })
  | .visiting x (slot::rest) => match g.visiting x slot.observer with
    | none => some (g,{ th with pc := .visiting x rest })
    | some peer => some (g.acquire peer,
        { th with pc := .locking (.forget x ⟨slot.delegate,peer⟩ rest) })
  | .releasing x slot rest => some (g.release slot.observer,{ th with pc := .visiting x rest })
  | .waiting x => if g.useCount x = 0 then some (g,{ th with pc := .pinging x }) else none
  | .pinging x =>
      if g.useCount x = 0 then some (g,{ th with pc := .locking (.clear x) })
      else some (g.acquire x,{ th with pc := .pinged x })
  | .pinged x => some (g.release x,{ th with pc := .waiting x })

inductive Move (layout : Layout w Obj) (t : Tid) (body : List (Call w Obj)) (g : Shared w Obj Tid) :
    Thread w Obj → Shared w Obj Tid → Thread w Obj → Prop where
  | returns {e outer} : Move layout t body g ⟨.idle,[],e::outer⟩
      (g.release e.slot.observer) ⟨.emitting e.rest,e.program,outer⟩
  | destroys {x later outer} (live : g.tracker x = true) : Move layout t body g
      ⟨.idle,.destroy x::later,outer⟩ (g.reset x) ⟨.waiting x,later,outer⟩
  | begins {call later outer pc} (started : call.begin layout = some pc) : Move layout t body g
      ⟨.idle,call::later,outer⟩ g ⟨pc,later,outer⟩
  | locks {work program outer} (free : g.mutex work.target = none) : Move layout t body g
      ⟨.locking work,program,outer⟩ (g.lock work.target t) ⟨.inside work,program,outer⟩
  | works {work program outer} : Move layout t body g
      ⟨.inside work,program,outer⟩ (work.exec g).1 ⟨(work.exec g).2,program,outer⟩
  | emitted {program outer} : Move layout t body g
      ⟨.emitting [],program,outer⟩ g ⟨.idle,program,outer⟩
  | skips {slot rest program outer} (gone : g.observed slot.observer = none) : Move layout t body g
      ⟨.emitting (slot::rest),program,outer⟩ g ⟨.emitting rest,program,outer⟩
  | calls {slot rest program outer observer} (found : g.observed slot.observer = some observer) :
      Move layout t body g ⟨.emitting (slot::rest),program,outer⟩ (g.acquire observer)
        ⟨.idle,body,⟨⟨slot.delegate,observer⟩,rest,program⟩::outer⟩
  | clears {x program outer} : Move layout t body g
      ⟨.visiting x [],program,outer⟩ ((g.store x .empty).unlock x) ⟨.idle,program,outer⟩
  | passes {x slot rest program outer} (gone : g.visiting x slot.observer = none) :
      Move layout t body g ⟨.visiting x (slot::rest),program,outer⟩ g ⟨.visiting x rest,program,outer⟩
  | visits {x slot rest program outer peer} (found : g.visiting x slot.observer = some peer) :
      Move layout t body g ⟨.visiting x (slot::rest),program,outer⟩ (g.acquire peer)
        ⟨.locking (.forget x ⟨slot.delegate,peer⟩ rest),program,outer⟩
  | leaves {x slot rest program outer} : Move layout t body g
      ⟨.releasing x slot rest,program,outer⟩ (g.release slot.observer) ⟨.visiting x rest,program,outer⟩
  | expires {x program outer} (expired : g.useCount x = 0) : Move layout t body g
      ⟨.waiting x,program,outer⟩ g ⟨.pinging x,program,outer⟩
  | finishes {x program outer} (expired : g.useCount x = 0) : Move layout t body g
      ⟨.pinging x,program,outer⟩ g ⟨.locking (.clear x),program,outer⟩
  | pings {x program outer} (lingering : g.useCount x ≠ 0) : Move layout t body g
      ⟨.pinging x,program,outer⟩ (g.acquire x) ⟨.pinged x,program,outer⟩
  | drops {x program outer} : Move layout t body g
      ⟨.pinged x,program,outer⟩ (g.release x) ⟨.waiting x,program,outer⟩

theorem moveOfStep {layout : Layout w Obj} {t : Tid} {g g' : Shared w Obj Tid} {th th' : Thread w Obj}
    {body} (taken : threadStep layout t g th body = some (g',th')) : Move layout t body g th g' th' := by
  obtain ⟨pc,program,outer⟩ := th
  cases pc with
  | idle =>
    cases program with
    | nil =>
      cases outer with
      | nil => contradiction
      | cons e outer => cases Option.some.inj taken; exact .returns
    | cons call later =>
      cases call with
      | destroy x =>
        simp only [threadStep] at taken
        split at taken
        · next live => cases Option.some.inj taken; exact .destroys live
        · contradiction
      | connect signal slot | disconnect signal slot | disconnectAll x | isEmpty x | fire signal =>
        cases Option.some.inj taken
        exact .begins rfl
  | locking work =>
    simp only [threadStep] at taken
    split at taken
    · next free => cases Option.some.inj taken; exact .locks free
    · contradiction
  | inside work => cases Option.some.inj taken; exact .works
  | emitting rest =>
    cases rest with
    | nil => cases Option.some.inj taken; exact .emitted
    | cons slot rest =>
      simp only [threadStep] at taken
      split at taken
      · next gone => cases Option.some.inj taken; exact .skips gone
      · next observer found => cases Option.some.inj taken; exact .calls found
  | visiting x rest =>
    cases rest with
    | nil => cases Option.some.inj taken; exact .clears
    | cons slot rest =>
      simp only [threadStep] at taken
      split at taken
      · next gone => cases Option.some.inj taken; exact .passes gone
      · next peer found => cases Option.some.inj taken; exact .visits found
  | releasing x slot rest => cases Option.some.inj taken; exact .leaves
  | waiting x =>
    simp only [threadStep] at taken
    split at taken
    · next expired => cases Option.some.inj taken; exact .expires expired
    · contradiction
  | pinging x =>
    simp only [threadStep] at taken
    split at taken
    · next expired => cases Option.some.inj taken; exact .finishes expired
    · next lingering => cases Option.some.inj taken; exact .pings lingering
  | pinged x => cases Option.some.inj taken; exact .drops

theorem threadStepPossible {layout : Layout w Obj} {t : Tid} {g : Shared w Obj Tid} {th : Thread w Obj}
    (body : List (Call w Obj)) (unfinished : th ≠ ⟨.idle,[],[]⟩)
    (names : ∀ x later, th.pc = .idle → th.program = .destroy x::later → g.tracker x = true)
    (free : ∀ work, th.pc = .locking work → g.mutex work.target = none)
    (expired : ∀ x, th.pc = .waiting x → g.useCount x = 0) :
    (threadStep layout t g th body).isSome = true := by
  obtain ⟨pc,program,outer⟩ := th
  cases pc with
  | idle =>
    cases program with
    | nil =>
      cases outer with
      | nil => exact absurd rfl unfinished
      | cons e outer => rfl
    | cons call later =>
      cases call with
      | destroy x => simp [threadStep,names x later rfl rfl]
      | connect signal slot | disconnect signal slot | disconnectAll x | isEmpty x | fire signal => rfl
  | locking work => simp [threadStep,free work rfl]
  | inside work => rfl
  | emitting rest =>
    cases rest with
    | nil => rfl
    | cons slot rest => simp only [threadStep]; split <;> rfl
  | visiting x rest =>
    cases rest with
    | nil => rfl
    | cons slot rest => simp only [threadStep]; split <;> rfl
  | releasing x slot rest => rfl
  | waiting x => simp [threadStep,expired x rfl]
  | pinging x => simp only [threadStep]; split <;> rfl
  | pinged x => rfl

variable [DecidableEq Tid]

def step (layout : Layout w Obj) (s : State w Obj Tid) (action : Tid × List (Call w Obj)) :
    Option (State w Obj Tid) := do
  let (g,th) ← threadStep layout action.1 s.shared (s.threads action.1) action.2
  some ⟨g,Function.update s.threads action.1 th⟩

theorem stepMove {layout : Layout w Obj} {s next : State w Obj Tid} {action}
    (taken : step layout s action = some next) :
    Move layout action.1 action.2 s.shared (s.threads action.1) next.shared (next.threads action.1) ∧
      ∀ u, u ≠ action.1 → next.threads u = s.threads u := by
  obtain ⟨⟨g,th⟩,moved,last⟩ := Option.bind_eq_some_iff.mp taken
  cases Option.some.inj last
  refine ⟨?_,fun u other => Function.update_of_ne other _ _⟩
  simp only [Function.update_self]
  exact moveOfStep moved

end Step

def start (connections : Obj → Connections w (Option Obj)) (tracker : Obj → Bool)
    (programs : Tid → List (Call w Obj)) : State w Obj Tid where
  shared := ⟨connections,tracker,fun x => (tracker x).toNat,fun _ => none⟩
  threads t := ⟨.idle,programs t,[]⟩

/-! The strong references and the mutexes that a thread has at a point of its
program, besides the reference that every tracker has to its own object. -/

def Section.refs [DecidableEq Obj] (x : Obj) : Section w Obj → Nat
  | .forget _ slot _ => if slot.observer = x then 1 else 0
  | .update _ _ | .isEmpty _ | .copy _ | .clear _ => 0

def Pc.refs [DecidableEq Obj] (x : Obj) : Pc w Obj → Nat
  | .locking work | .inside work => work.refs x
  | .releasing _ slot _ => if slot.observer = x then 1 else 0
  | .pinged y => if y = x then 1 else 0
  | .idle | .emitting _ | .visiting _ _ | .waiting _ | .pinging _ => 0

def Thread.calling (th : Thread w Obj) : List Obj := th.suspended.map (fun e => e.slot.observer)

def Thread.refs [DecidableEq Obj] (th : Thread w Obj) (x : Obj) : Nat :=
  th.pc.refs x + th.calling.count x

def Pc.held : Pc w Obj → List Obj
  | .locking (.forget x _ _) => [x]
  | .inside (.forget x slot _) => [x,slot.observer]
  | .inside work => [work.target]
  | .visiting x _ | .releasing x _ _ => [x]
  | _ => []

section Facts
variable [DecidableEq Obj] {g : Shared w Obj Tid} {layout : Layout w Obj} {x y : Obj}

omit [DecidableEq Obj] in
theorem lockWeakSome {observer : Option Obj} :
    g.lockWeak observer = some x ↔ observer = some x ∧ 0 < g.useCount x := by
  cases observer with
  | none => simp [Shared.lockWeak]
  | some y =>
    simp only [Shared.lockWeak]
    split
    · next positive =>
      constructor
      · intro same
        cases Option.some.inj same
        exact ⟨rfl,positive⟩
      · exact fun same => same.1
    · next expired =>
      refine ⟨fun same => by contradiction,fun ⟨same,positive⟩ => ?_⟩
      cases Option.some.inj same
      exact absurd positive expired

theorem visitingSome {self : Obj} {observer : Option Obj} :
    g.visiting self observer = some x ↔
      observer ≠ g.weakPtr self ∧ observer = some x ∧ 0 < g.useCount x := by
  rw [Shared.visiting]
  split
  · next own => simp [own]
  · next other => simp [other,lockWeakSome]

theorem useCountAcquire : (g.acquire x).useCount y = g.useCount y + if x = y then 1 else 0 := by
  by_cases same : x = y
  · subst same; simp [Shared.acquire]
  · simp [Shared.acquire,same,Ne.symm same]

theorem useCountRelease : (g.release x).useCount y = g.useCount y - if x = y then 1 else 0 := by
  by_cases same : x = y
  · subst same; simp [Shared.release]
  · simp [Shared.release,same,Ne.symm same]

theorem useCountReset : (g.reset x).useCount y = g.useCount y - if x = y then 1 else 0 :=
  useCountRelease

theorem trackerReset : (g.reset x).tracker y = if x = y then false else g.tracker y := by
  by_cases same : x = y
  · subst same; simp [Shared.reset]
  · simp [Shared.reset,Shared.release,same,Ne.symm same]

@[simp] theorem trackerAcquire : (g.acquire x).tracker = g.tracker := rfl
@[simp] theorem trackerRelease : (g.release x).tracker = g.tracker := rfl
@[simp] theorem trackerLock {t : Tid} : (g.lock x t).tracker = g.tracker := rfl
@[simp] theorem trackerUnlock : (g.unlock x).tracker = g.tracker := rfl
@[simp] theorem trackerStore {c} : (g.store x c).tracker = g.tracker := rfl
@[simp] theorem useCountLock {t : Tid} : (g.lock x t).useCount = g.useCount := rfl
@[simp] theorem useCountUnlock : (g.unlock x).useCount = g.useCount := rfl
@[simp] theorem useCountStore {c} : (g.store x c).useCount = g.useCount := rfl
@[simp] theorem mutexAcquire : (g.acquire x).mutex = g.mutex := rfl

/-! The references at each point, so that no later proof unfolds them. -/
section Refs
variable {slot : Connection w Obj} {rest : List (Connection w (Option Obj))}

@[simp] theorem refsIdle : (Pc.idle : Pc w Obj).refs x = 0 := rfl
@[simp] theorem refsEmitting : (Pc.emitting rest).refs x = 0 := rfl
@[simp] theorem refsVisiting : (Pc.visiting y rest).refs x = 0 := rfl
@[simp] theorem refsWaiting : (Pc.waiting y : Pc w Obj).refs x = 0 := rfl
@[simp] theorem refsPinging : (Pc.pinging y : Pc w Obj).refs x = 0 := rfl
@[simp] theorem refsPinged : (Pc.pinged y : Pc w Obj).refs x = if y = x then 1 else 0 := rfl
@[simp] theorem refsReleasing :
    (Pc.releasing y slot rest).refs x = if slot.observer = x then 1 else 0 := rfl
@[simp] theorem refsLocking {work : Section w Obj} : (Pc.locking work).refs x = work.refs x := rfl
@[simp] theorem refsInside {work : Section w Obj} : (Pc.inside work).refs x = work.refs x := rfl
@[simp] theorem refsClear : (Section.clear y : Section w Obj).refs x = 0 := rfl
@[simp] theorem refsForget :
    (Section.forget y slot rest).refs x = if slot.observer = x then 1 else 0 := rfl

@[simp] theorem refsThread {pc : Pc w Obj} {program outer} : (Thread.mk pc program outer).refs x =
    pc.refs x + (outer.map (fun e => e.slot.observer)).count x := rfl

end Refs

theorem mutexLock {t : Tid} : (g.lock x t).mutex y = if y = x then some t else g.mutex y := by
  by_cases same : y = x
  · subst same; simp [Shared.lock]
  · simp [Shared.lock,same]

theorem mutexUnlock : (g.unlock x).mutex y = if y = x then none else g.mutex y := by
  by_cases same : y = x
  · subst same; simp [Shared.unlock]
  · simp [Shared.unlock,same]

theorem unlockedOwner {t : Tid} (after : (g.unlock x).mutex y = some t) :
    g.mutex y = some t ∧ y ≠ x := by
  rw [mutexUnlock] at after
  split at after
  · contradiction
  · next other => exact ⟨after,other⟩

@[simp] theorem refsBeginUpdates (us : List (Update w Obj)) : (beginUpdates us).refs x = 0 := by
  cases us <;> rfl

theorem refsBegin {call : Call w Obj} {pc} (started : call.begin layout = some pc) : pc.refs x = 0 := by
  cases call with
  | destroy y => contradiction
  | connect signal slot | disconnect signal slot =>
    cases Option.some.inj started
    exact refsBeginUpdates _
  | disconnectAll y | isEmpty y | fire signal => cases Option.some.inj started; rfl

variable [BinarySearch] (work : Section w Obj)

theorem refsExec : (work.exec g).2.refs x = work.refs x := by
  cases work with
  | update u rest => exact refsBeginUpdates rest
  | isEmpty y | copy y | clear y => rfl
  | forget y slot rest => rfl

@[simp] theorem useCountExec : (work.exec g).1.useCount = g.useCount := by
  cases work with
  | update u rest => cases u <;> rfl
  | isEmpty y | copy y | clear y => rfl
  | forget y slot rest => rfl

@[simp] theorem trackerExec : (work.exec g).1.tracker = g.tracker := by
  cases work with
  | update u rest => cases u <;> rfl
  | isEmpty y | copy y | clear y => rfl
  | forget y slot rest => rfl

theorem applyMutex (u : Update w Obj) : (g.apply u).mutex = g.mutex := by
  cases u <;> rfl

theorem mutexExec {t : Tid} (after : (work.exec g).1.mutex y = some t) :
    g.mutex y = some t ∧ (y = work.target → y ∈ (work.exec g).2.held) := by
  cases work with
  | update u rest =>
    obtain ⟨before,other⟩ := unlockedOwner after
    rw [applyMutex] at before
    exact ⟨before,fun h => absurd h other⟩
  | isEmpty x | copy x =>
    obtain ⟨before,other⟩ := unlockedOwner after
    exact ⟨before,fun h => absurd h other⟩
  | clear x => exact ⟨after,fun h => by simp [h,Section.exec,Pc.held,Section.target]⟩
  | forget x slot rest =>
    obtain ⟨before,other⟩ := unlockedOwner after
    rw [applyMutex] at before
    exact ⟨before,fun h => absurd h other⟩

omit [BinarySearch] [DecidableEq Obj] in
theorem heldInside {work : Section w Obj} :
    y ∈ (Pc.inside work).held ↔ y = work.target ∨ y ∈ (Pc.locking work).held := by
  cases work <;> simp [Pc.held,Section.target,or_comm]

variable {t : Tid} {body : List (Call w Obj)} {g' : Shared w Obj Tid} {th th' : Thread w Obj}

theorem moveOwner (move : Move layout t body g th g' th')
    (own : ∀ y, g.mutex y = some t → y ∈ th.pc.held) :
    ∀ y, g'.mutex y = some t → y ∈ th'.pc.held := by
  intro y after
  cases move with
  | locks free =>
    rename_i work program outer
    rw [mutexLock] at after
    rw [heldInside]
    split at after
    · next here => exact .inl here
    · exact .inr (own y after)
  | works =>
    rename_i work program outer
    obtain ⟨before,target⟩ := mutexExec work after
    rcases heldInside.mp (own y before) with here | loop
    · exact target here
    · cases work with
      | forget x slot rest => exact loop
      | update u rest | isEmpty x | copy x | clear x => cases loop
  | clears =>
    obtain ⟨before,other⟩ := unlockedOwner after
    exact absurd (List.mem_singleton.mp (own y before)) other
  | passes | visits | leaves => exact own y after
  | _ => cases own y after

theorem moveOthers (move : Move layout t body g th g' th') {u : Tid} (other : u ≠ t)
    (after : g'.mutex y = some u) : g.mutex y = some u := by
  cases move with
  | locks free =>
    rw [mutexLock] at after
    split at after
    · exact absurd (Option.some.inj after).symm other
    · exact after
  | works => exact (mutexExec _ after).1
  | clears => exact (unlockedOwner after).1
  | _ => exact after

theorem moveStops (move : Move layout t body g th g' th') {slot rest}
    (stopped : th'.pc = .locking (.forget x slot rest)) :
    ∃ e, th.pc = .visiting x (e::rest) ∧ g.visiting x e.observer = some slot.observer ∧
      g' = g.acquire slot.observer := by
  cases move with
  | visits found => cases stopped; exact ⟨_,rfl,found,rfl⟩
  | begins started =>
    rename_i call later outer pc
    subst stopped
    cases call with
    | connect signal slot | disconnect signal slot =>
      simp only [Call.begin,insertSfinae,removeSfinae] at started
      split at started <;> cases Option.some.inj started
    | disconnectAll y | isEmpty y | fire signal => cases Option.some.inj started
    | destroy y => contradiction
  | works =>
    rename_i work program outer
    cases work with
    | update u later => cases later <;> cases stopped
    | isEmpty y | copy y | clear y => cases stopped
    | forget y peer later => cases stopped
  | _ => cases stopped

theorem moveVisits (move : Move layout t body g th g' th') {slot rest peer}
    (visiting : th.pc = .visiting x (slot::rest)) (found : g.visiting x slot.observer = some peer) :
    th'.pc = .locking (.forget x ⟨slot.delegate,peer⟩ rest) ∧ g' = g.acquire peer := by
  cases move with
  | passes gone => cases visiting; cases gone.symm.trans found
  | visits there => cases visiting; cases there.symm.trans found; exact ⟨rfl,rfl⟩
  | _ => cases visiting

end Facts
end SignalSlot.Tracker
