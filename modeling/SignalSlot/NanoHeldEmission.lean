import SignalSlot.Library.GuardedRun
import SignalSlot.NanoEntries
import SignalSlot.NanoTracker

/-! TS_Policy, step by step. A fire walks the vector itself and holds the mutex of its
signal until the last slot has returned: nobody else can change what it walks, and a
slot that comes back to the signal waits for its own thread. Nothing keeps an object
alive, so a destructor frees it whoever is still walking its vector. -/
namespace SignalSlot.HeldEmission
open PartitionSearch GuardedRun
open Tracker (Call)

variable {w : Nat} {Obj Tid : Type}

inductive Section (w : Nat) (Obj : Type) where
  | update (u : Update w Obj) (rest : List (Update w Obj))
  | isEmpty (x : Obj)
  | walk (signal : Obj)
  | clear (x : Obj) (destroyed : Bool)
  | forget (x : Obj) (destroyed : Bool) (slot : Connection w Obj) (rest : List (Connection w Obj))
  deriving DecidableEq

def Section.target : Section w Obj → Obj
  | .update u _ => u.target
  | .isEmpty x | .walk x | .clear x _ => x
  | .forget _ _ slot _ => slot.observer

inductive Pc (w : Nat) (Obj : Type) where
  | idle
  | locking (work : Section w Obj)
  | inside (work : Section w Obj)
  | emitting (signal : Obj) (rest : List (Connection w Obj))
  | visiting (x : Obj) (destroyed : Bool) (rest : List (Connection w Obj))
  | freeing (x : Obj)
  deriving DecidableEq

/-- A slot call: the signal, whose mutex stays locked, the entries behind the one that
is called, and what the caller of `fire` does afterwards. -/
structure Emission (w : Nat) (Obj : Type) where
  signal : Obj
  rest : List (Connection w Obj)
  program : List (Call w Obj)
  deriving DecidableEq

structure Thread (w : Nat) (Obj : Type) where
  pc : Pc w Obj
  program : List (Call w Obj)
  suspended : List (Emission w Obj)
  deriving DecidableEq

structure Shared (w : Nat) (Obj Tid : Type) where
  heap : Heap w Obj
  mutex : Obj → Option Tid

structure State (w : Nat) (Obj Tid : Type) where
  shared : Shared w Obj Tid
  threads : Tid → Thread w Obj

def beginUpdates : List (Update w Obj) → Pc w Obj
  | [] => .idle
  | u::rest => .locking (.update u rest)

def begin (layout : Layout w Obj) : Call w Obj → Pc w Obj
  | .connect signal slot => beginUpdates (insertSfinae layout signal slot.delegateKey)
  | .disconnect signal slot => beginUpdates (removeSfinae layout signal slot.delegateKey)
  | .disconnectAll x => .locking (.clear x false)
  | .isEmpty x => .locking (.isEmpty x)
  | .fire signal => .locking (.walk signal)
  | .destroy x => .locking (.clear x true)

section Step
variable [DecidableEq Obj] [BinarySearch]

namespace Shared

def lock (g : Shared w Obj Tid) (x : Obj) (t : Tid) : Shared w Obj Tid :=
  { g with mutex := Function.update g.mutex x (some t) }

def unlock (g : Shared w Obj Tid) (x : Obj) : Shared w Obj Tid :=
  { g with mutex := Function.update g.mutex x none }

end Shared

-- The guard of an emission and of disconnect_all is still there when their loops begin.
def Section.exec (g : Shared w Obj Tid) : Section w Obj → Option (Shared w Obj Tid × Pc w Obj)
  | .update u rest => do
      let h ← g.heap.apply u
      some ({ g with heap := h }.unlock u.target,beginUpdates rest)
  | .isEmpty x => some (g.unlock x,.idle)
  | .walk signal => do
      let c ← g.heap signal
      some (g,.emitting signal c.slots)
  | .clear x destroyed => do
      let c ← g.heap x
      some (g,.visiting x destroyed c.slots)
  | .forget x destroyed slot rest => do
      let h ← g.heap.apply (.remove slot.observer slot.delegate)
      some ({ g with heap := h }.unlock slot.observer,.visiting x destroyed rest)

/-- The next step of a thread; `body` is what the slot does if one is called. There is
none at a mutex that is taken, and the source is undefined at one that is freed. -/
def threadStep (layout : Layout w Obj) (t : Tid) (g : Shared w Obj Tid) (th : Thread w Obj)
    (body : List (Call w Obj)) : Option (Shared w Obj Tid × Thread w Obj) := match th.pc with
  | .idle => match th.program with
    | [] => match th.suspended with
      | [] => none
      | e::outer => some (g,⟨.emitting e.signal e.rest,e.program,outer⟩)
    | call::later => some (g,{ th with pc := begin layout call, program := later })
  | .locking work =>
      if g.heap.alive work.target = true ∧ g.mutex work.target = none then
        some (g.lock work.target t,{ th with pc := .inside work })
      else none
  | .inside work => do
      let (g,pc) ← work.exec g
      some (g,{ th with pc := pc })
  | .emitting signal [] => some (g.unlock signal,{ th with pc := .idle })
  | .emitting signal (slot::rest) =>
      if Policy.ts.observed (g.heap.alive slot.observer) then
        some (g,⟨.idle,body,⟨signal,rest,th.program⟩::th.suspended⟩)
      else some (g,{ th with pc := .emitting signal rest })
  | .visiting x destroyed [] =>
      some ({ g with heap := g.heap.store x (some .empty) }.unlock x,
        { th with pc := if destroyed then .freeing x else .idle })
  | .visiting x destroyed (slot::rest) => match Policy.ts.visiting g.heap.alive x slot.observer with
    | none => some (g,{ th with pc := .visiting x destroyed rest })
    | some peer => some (g,{ th with pc := .locking (.forget x destroyed ⟨slot.delegate,peer⟩ rest) })
  | .freeing x => some ({ g with heap := g.heap.store x none },{ th with pc := .idle })

def step [DecidableEq Tid] (layout : Layout w Obj) (s : State w Obj Tid)
    (action : Tid × List (Call w Obj)) : Option (State w Obj Tid) := do
  let (g,th) ← threadStep layout action.1 s.shared (s.threads action.1) action.2
  some ⟨g,Function.update s.threads action.1 th⟩

end Step

def start (heap : Heap w Obj) (programs : Tid → List (Call w Obj)) : State w Obj Tid where
  shared := ⟨heap,fun _ => none⟩
  threads t := ⟨.idle,programs t,[]⟩

/-! The loops that a thread is in, the innermost one first, each with the entries that
it has not reached, and the mutexes that the thread has. -/

def Pc.loops : Pc w Obj → List (Obj × List (Connection w Obj))
  | .emitting x rest | .visiting x _ rest | .locking (.forget x _ _ rest)
  | .inside (.forget x _ _ rest) => [(x,rest)]
  | _ => []

def Thread.loops (th : Thread w Obj) : List (Obj × List (Connection w Obj)) :=
  th.pc.loops ++ th.suspended.map (fun e => (e.signal,e.rest))

def Pc.entered : Pc w Obj → List Obj
  | .inside work => [work.target]
  | _ => []

def Thread.held (th : Thread w Obj) : List Obj := th.pc.entered ++ th.loops.map Prod.fst

/-! What a step can do to the mutexes, to the vectors and to the loops of its thread. -/
inductive Effect [DecidableEq Obj] (t : Tid) (g g' : Shared w Obj Tid) (th th' : Thread w Obj) : Prop where
  | quiet (same : g' = g) (held : th'.held = th.held)
      (loops : ∀ x rest, (x,rest) ∈ th'.loops → ∃ before, (x,before) ∈ th.loops ∧ rest <:+ before)
      (pc : ∀ x, th.pc ≠ .freeing x)
  | locks (y : Obj) (free : g.mutex y = none) (same : g' = g.lock y t) (held : th'.held = y::th.held)
      (loops : th'.loops = th.loops) (pc : ∀ x, th.pc ≠ .freeing x)
  | unlocks (y : Obj) (held : th.held = y::th'.held) (mutex : g'.mutex = (g.unlock y).mutex)
      (heap : ∀ z, z ≠ y → g'.heap z = g.heap z) (loops : ∀ loop ∈ th'.loops, loop ∈ th.loops)
      (pc : ∀ x, th.pc ≠ .freeing x)
  | opens (y : Obj) (c : Connections w Obj) (found : g.heap y = some c) (same : g' = g)
      (held : th'.held = th.held) (loops : th'.loops = (y,c.slots)::th.loops) (pc : ∀ x, th.pc ≠ .freeing x)
  | frees (x : Obj) (here : th.pc = .freeing x) (same : g' = { g with heap := g.heap.store x none })
      (held : th'.held = th.held) (loops : th'.loops = th.loops)

theorem updatesPlain (us : List (Update w Obj)) :
    (beginUpdates us).loops = [] ∧ (beginUpdates us).entered = [] := by
  cases us <;> exact ⟨rfl,rfl⟩

theorem beginPlain (layout : Layout w Obj) (call : Call w Obj) :
    (begin layout call).loops = [] ∧ (begin layout call).entered = [] := by
  cases call with
  | connect signal slot | disconnect signal slot => exact updatesPlain _
  | disconnectAll x | isEmpty x | fire x | destroy x => exact ⟨rfl,rfl⟩

section Effects
variable [DecidableEq Obj] [BinarySearch] {layout : Layout w Obj} {t : Tid} {body : List (Call w Obj)}
  {g g' : Shared w Obj Tid} {th th' : Thread w Obj}

omit [BinarySearch] in
/-- A step that touches no mutex and no vector: a loop goes on or is given up. -/
theorem quietEffect (entered : th'.pc.entered = th.pc.entered)
    (names : th'.loops.map Prod.fst = th.loops.map Prod.fst)
    (loops : ∀ x rest, (x,rest) ∈ th'.loops → ∃ before, (x,before) ∈ th.loops ∧ rest <:+ before)
    (pc : ∀ x, th.pc ≠ .freeing x) : Effect t g g th th' :=
  .quiet rfl (by rw [Thread.held,entered,names,Thread.held]) loops pc

omit [DecidableEq Obj] [BinarySearch] in
theorem loopAdvances {signal : Obj} {slot rest loops} : ∀ x (later : List (Connection w Obj)),
    (x,later) ∈ (signal,rest)::loops →
      ∃ before, (x,before) ∈ (signal,slot::rest)::loops ∧ later <:+ before := by
  intro x later mem
  rcases List.mem_cons.mp mem with here | below
  · cases here
    exact ⟨slot::rest,List.mem_cons_self,List.suffix_cons slot rest⟩
  · exact ⟨later,List.mem_cons_of_mem _ below,List.suffix_refl later⟩

theorem workEffect {work : Section w Obj} {program outer pc} (taken : work.exec g = some (g',pc)) :
    Effect t g g' ⟨.inside work,program,outer⟩ ⟨pc,program,outer⟩ := by
  cases work with
  | update u rest =>
    obtain ⟨h,applied,last⟩ := Option.bind_eq_some_iff.mp taken
    cases Option.some.inj last
    obtain ⟨loops,entered⟩ := updatesPlain rest
    refine .unlocks u.target ?_ rfl (fun z other => Heap.applyOther applied other) ?_ (fun _ => (nomatch ·))
    · simp only [Thread.held,Thread.loops,loops,entered]
      rfl
    · simp only [Thread.loops,loops]
      exact fun loop mem => mem
  | isEmpty x =>
    cases Option.some.inj taken
    exact .unlocks x rfl rfl (fun _ _ => rfl) (fun loop mem => mem) (fun _ => (nomatch ·))
  | walk x | clear x destroyed =>
    obtain ⟨c,found,last⟩ := Option.bind_eq_some_iff.mp taken
    cases Option.some.inj last
    exact .opens x c found rfl rfl rfl (fun _ => (nomatch ·))
  | forget x destroyed slot rest =>
    obtain ⟨h,applied,last⟩ := Option.bind_eq_some_iff.mp taken
    cases Option.some.inj last
    exact .unlocks slot.observer rfl rfl (fun z other => Heap.applyOther applied other) (fun loop mem => mem)
      (fun _ => (nomatch ·))

theorem stepEffect (taken : threadStep layout t g th body = some (g',th')) : Effect t g g' th th' := by
  obtain ⟨pc,program,outer⟩ := th
  cases pc with
  | idle =>
    cases program with
    | nil =>
      cases outer with
      | nil => contradiction
      | cons e outer =>
        cases Option.some.inj taken
        exact quietEffect rfl rfl (fun x rest mem => ⟨rest,mem,List.suffix_refl rest⟩) (fun _ => (nomatch ·))
    | cons call later =>
      cases Option.some.inj taken
      obtain ⟨loops,entered⟩ := beginPlain layout call
      refine quietEffect entered ?_ ?_ (fun _ => (nomatch ·))
      · simp only [Thread.loops,loops]
        rfl
      · simp only [Thread.loops,loops]
        exact fun x rest mem => ⟨rest,mem,List.suffix_refl rest⟩
  | locking work =>
    simp only [threadStep] at taken
    split at taken
    · next ready =>
      cases Option.some.inj taken
      refine .locks work.target ready.2 rfl ?_ ?_ (fun _ => (nomatch ·)) <;> cases work <;> rfl
    · contradiction
  | inside work =>
    obtain ⟨⟨g,pc⟩,done,last⟩ := Option.bind_eq_some_iff.mp taken
    cases Option.some.inj last
    exact workEffect done
  | emitting signal rest =>
    cases rest with
    | nil =>
      cases Option.some.inj taken
      exact .unlocks signal rfl rfl (fun _ _ => rfl) (fun loop mem => List.mem_cons_of_mem _ mem)
        (fun _ => (nomatch ·))
    | cons slot rest =>
      cases Option.some.inj taken
      exact quietEffect rfl rfl loopAdvances (fun _ => (nomatch ·))
  | visiting x destroyed rest =>
    cases rest with
    | nil =>
      cases Option.some.inj taken
      refine .unlocks x ?_ rfl (fun z other => Function.update_of_ne other _ _) ?_ (fun _ => (nomatch ·))
      · cases destroyed <;> rfl
      · cases destroyed <;> exact fun loop mem => List.mem_cons_of_mem _ mem
    | cons slot rest =>
      simp only [threadStep] at taken
      split at taken
      · cases Option.some.inj taken
        exact quietEffect rfl rfl loopAdvances (fun _ => (nomatch ·))
      · cases Option.some.inj taken
        exact quietEffect rfl rfl loopAdvances (fun _ => (nomatch ·))
  | freeing x =>
    cases Option.some.inj taken
    exact .frees x rfl rfl rfl rfl

end Effects

structure Owned (s : State w Obj Tid) : Prop where
  owner : ∀ t y, s.shared.mutex y = some t ↔ y ∈ (s.threads t).held
  distinct : ∀ t, (s.threads t).held.Nodup

/-- What every loop has still to reach stands at the end of the vector that it walks. -/
def Valid (s : State w Obj Tid) : Prop := ∀ t x rest, (x,rest) ∈ (s.threads t).loops →
  ∃ c, s.shared.heap x = some c ∧ rest <:+ c.slots

/-- The memory of an object is given back when no loop is on its vector. -/
def FreesUnwalked (s : State w Obj Tid) (action : Tid × List (Call w Obj)) : Prop :=
  ∀ x, (s.threads action.1).pc = .freeing x → ∀ t rest, (x,rest) ∉ (s.threads t).loops

section Effects
variable [DecidableEq Obj] {t u : Tid} {g g' : Shared w Obj Tid} {th th' : Thread w Obj} {y : Obj}

theorem lockMutex {x : Obj} : (g.lock x t).mutex y = if y = x then some t else g.mutex y := by
  rcases eq_or_ne y x with rfl | other
  · simp only [Shared.lock,Function.update_self,if_true]
  · simp only [Shared.lock,Function.update_of_ne other,if_neg other]

theorem unlockMutex {x : Obj} : (g.unlock x).mutex y = if y = x then none else g.mutex y := by
  rcases eq_or_ne y x with rfl | other
  · simp only [Shared.unlock,Function.update_self,if_true]
  · simp only [Shared.unlock,Function.update_of_ne other,if_neg other]

theorem effectOwner (effect : Effect t g g' th th') (distinct : th.held.Nodup)
    (owner : ∀ y, g.mutex y = some t ↔ y ∈ th.held) : g'.mutex y = some t ↔ y ∈ th'.held := by
  cases effect with
  | quiet same held => rw [same,held]; exact owner y
  | opens z c found same held => rw [same,held]; exact owner y
  | frees x here same held => rw [same,held]; exact owner y
  | locks z free same held =>
    rw [same,held,lockMutex,List.mem_cons,← owner y]
    split
    · next here => exact ⟨fun _ => .inl here,fun _ => rfl⟩
    · next other => exact ⟨.inr,fun mem => mem.resolve_left other⟩
  | unlocks z held mutex =>
    rw [held,List.nodup_cons] at distinct
    have before := owner y
    rw [held,List.mem_cons] at before
    rw [mutex,unlockMutex]
    split
    · next here => exact ⟨(nomatch ·),fun mem => absurd (here ▸ mem) distinct.1⟩
    · next other => exact before.trans ⟨fun mem => mem.resolve_left other,.inr⟩

theorem effectOthers (effect : Effect t g g' th th') (own : ∀ y ∈ th.held, g.mutex y = some t)
    (other : u ≠ t) : g'.mutex y = some u ↔ g.mutex y = some u := by
  cases effect with
  | quiet same => rw [same]
  | opens z c found same => rw [same]
  | frees x here same => rw [same]
  | locks z free same =>
    rw [same,lockMutex]
    split
    · next here =>
      rw [here,free]
      exact ⟨fun mine => absurd (Option.some.inj mine).symm other,(nomatch ·)⟩
    · exact Iff.rfl
  | unlocks z held mutex =>
    rw [mutex,unlockMutex]
    split
    · next here =>
      rw [here,own z (held ▸ List.mem_cons_self)]
      exact ⟨(nomatch ·),fun mine => absurd (Option.some.inj mine).symm other⟩
    · exact Iff.rfl

theorem effectDistinct (effect : Effect t g g' th th') (distinct : th.held.Nodup)
    (own : ∀ y ∈ th.held, g.mutex y = some t) : th'.held.Nodup := by
  cases effect with
  | quiet same held => exact held ▸ distinct
  | opens z c found same held => exact held ▸ distinct
  | frees x here same held => exact held ▸ distinct
  | locks z free same held =>
    rw [held,List.nodup_cons]
    refine ⟨fun mem => ?_,distinct⟩
    cases free.symm.trans (own z mem)
  | unlocks z held =>
    rw [held,List.nodup_cons] at distinct
    exact distinct.2

theorem effectLoops (effect : Effect t g g' th th') {x rest} (mem : (x,rest) ∈ th'.loops) :
    (∃ before, (x,before) ∈ th.loops ∧ rest <:+ before) ∨
      ∃ c, g.heap x = some c ∧ rest <:+ c.slots := by
  cases effect with
  | quiet same held loops => exact .inl (loops x rest mem)
  | locks z free same held loops => exact .inl ⟨rest,loops ▸ mem,List.suffix_refl rest⟩
  | unlocks z held mutex heap loops => exact .inl ⟨rest,loops _ mem,List.suffix_refl rest⟩
  | opens z c found same held loops =>
    rw [loops] at mem
    rcases List.mem_cons.mp mem with here | below
    · cases here
      exact .inr ⟨c,found,List.suffix_refl _⟩
    · exact .inl ⟨rest,below,List.suffix_refl rest⟩
  | frees z here same held loops => exact .inl ⟨rest,loops ▸ mem,List.suffix_refl rest⟩

theorem effectHeap (effect : Effect t g g' th th') (apart : th.held ≠ y::th'.held)
    (kept : th.pc ≠ .freeing y) : g'.heap y = g.heap y := by
  cases effect with
  | quiet same => rw [same]
  | locks z free same => rw [same]; rfl
  | unlocks z held mutex heap => exact heap y (fun same => apart (same ▸ held))
  | opens z c found same => rw [same]
  | frees z here same =>
    rw [same]
    refine Function.update_of_ne (fun same => kept ?_) _ _
    rw [here,same]

end Effects

section Steps
variable [DecidableEq Obj] [DecidableEq Tid] [BinarySearch] {layout : Layout w Obj}
  {s next : State w Obj Tid} {action : Tid × List (Call w Obj)}

theorem stepEffects (taken : step layout s action = some next) :
    Effect action.1 s.shared next.shared (s.threads action.1) (next.threads action.1) ∧
      ∀ u, u ≠ action.1 → next.threads u = s.threads u := by
  obtain ⟨⟨g,th⟩,moved,last⟩ := Option.bind_eq_some_iff.mp taken
  cases Option.some.inj last
  refine ⟨?_,fun u other => Function.update_of_ne other _ _⟩
  simp only [Function.update_self]
  exact stepEffect moved

theorem ownedKeeps (owned : Owned s) (taken : step layout s action = some next) : Owned next := by
  obtain ⟨effect,others⟩ := stepEffects taken
  have own : ∀ y ∈ (s.threads action.1).held, s.shared.mutex y = some action.1 :=
    fun y mem => (owned.owner _ y).mpr mem
  constructor
  · intro t y
    rcases eq_or_ne t action.1 with rfl | other
    · exact effectOwner effect (owned.distinct _) (owned.owner _)
    · rw [others t other]
      exact (effectOthers effect own other).trans (owned.owner t y)
  · intro t
    rcases eq_or_ne t action.1 with rfl | other
    · exact effectDistinct effect (owned.distinct _) own
    · rw [others t other]
      exact owned.distinct t

omit [DecidableEq Obj] [DecidableEq Tid] [BinarySearch] in
theorem loopHeld {th : Thread w Obj} {x rest} (mem : (x,rest) ∈ th.loops) : x ∈ th.held :=
  List.mem_append_right _ (List.mem_map.mpr ⟨_,mem,rfl⟩)

theorem loopsKeep (owned : Owned s) (taken : step layout s action = some next) {t x rest}
    (mem : (x,rest) ∈ (next.threads t).loops) (kept : (s.threads action.1).pc ≠ .freeing x) :
    next.shared.heap x = s.shared.heap x := by
  obtain ⟨effect,others⟩ := stepEffects taken
  refine effectHeap effect ?_ kept
  intro released
  have distinct := owned.distinct action.1
  rw [released,List.nodup_cons] at distinct
  rcases eq_or_ne t action.1 with rfl | other
  · exact distinct.1 (loopHeld mem)
  · rw [others t other] at mem
    have theirs := (owned.owner t x).mpr (loopHeld mem)
    have mine := (owned.owner action.1 x).mpr (released ▸ List.mem_cons_self)
    exact other (Option.some.inj (theirs.symm.trans mine))

theorem loopsCome (taken : step layout s action = some next) {t x rest}
    (mem : (x,rest) ∈ (next.threads t).loops) :
    (∃ before, (x,before) ∈ (s.threads t).loops ∧ rest <:+ before) ∨
      ∃ c, s.shared.heap x = some c ∧ rest <:+ c.slots := by
  obtain ⟨effect,others⟩ := stepEffects taken
  rcases eq_or_ne t action.1 with rfl | other
  · exact effectLoops effect mem
  · rw [others t other] at mem
    exact .inl ⟨rest,mem,List.suffix_refl rest⟩

theorem stepFrees (taken : step layout s action = some next) {x}
    (freeing : (s.threads action.1).pc = .freeing x) :
    next.shared.heap x = none ∧ ∀ t, (next.threads t).loops = (s.threads t).loops := by
  obtain ⟨effect,others⟩ := stepEffects taken
  cases effect with
  | quiet same held loops pc => exact absurd freeing (pc x)
  | locks y free same held loops pc => exact absurd freeing (pc x)
  | unlocks y held mutex heap loops pc => exact absurd freeing (pc x)
  | opens y c found same held loops pc => exact absurd freeing (pc x)
  | frees y here same held loops =>
    cases here.symm.trans freeing
    refine ⟨same ▸ Function.update_self ..,fun t => ?_⟩
    rcases eq_or_ne t action.1 with rfl | other
    · exact loops
    · rw [others t other]

theorem validKeeps (owned : Owned s) (valid : Valid s) (unwalked : FreesUnwalked s action)
    (taken : step layout s action = some next) : Valid next := by
  intro t x rest mem
  have came := loopsCome taken mem
  have kept : (s.threads action.1).pc ≠ .freeing x := by
    intro freeing
    rw [(stepFrees taken freeing).2 t] at mem
    exact unwalked x freeing t rest mem
  rw [loopsKeep owned taken mem kept]
  rcases came with ⟨before,there,suffix⟩ | opened
  · obtain ⟨c,found,whole⟩ := valid t x before there
    exact ⟨c,found,suffix.trans whole⟩
  · exact opened

theorem validNeeded (taken : step layout s action = some next) (after : Valid next) :
    FreesUnwalked s action := by
  intro x freeing t rest mem
  obtain ⟨gone,same⟩ := stepFrees taken freeing
  obtain ⟨c,found,_⟩ := after t x rest (same t ▸ mem)
  cases gone.symm.trans found

omit [DecidableEq Obj] [DecidableEq Tid] [BinarySearch] in
theorem startOwned (heap : Heap w Obj) (programs : Tid → List (Call w Obj)) : Owned (start heap programs) :=
  ⟨fun _ _ => ⟨(nomatch ·),(nomatch ·)⟩,fun _ => List.nodup_nil⟩

theorem loopsValidExactly (layout : Layout w Obj) (heap : Heap w Obj) (programs : Tid → List (Call w Obj))
    (actions : List (Tid × List (Call w Obj))) :
    EveryState (step layout) Valid (start heap programs) actions ↔
      EveryStep (step layout) FreesUnwalked (start heap programs) actions := by
  refine @everyStateExact _ _ _ (fun s => Owned s ∧ Valid s) Valid FreesUnwalked (fun s inv => inv.2) ?_ ?_ _
    ⟨startOwned heap programs,fun t x rest => (nomatch ·)⟩ actions
  · intro s action next inv unwalked taken
    exact ⟨ownedKeeps inv.1 taken,validKeeps inv.1 inv.2 unwalked taken⟩
  · intro s action next inv taken after
    exact validNeeded taken after

def Waits (s : State w Obj Tid) (t : Tid) (x : Obj) : Prop :=
  ∃ work, (s.threads t).pc = .locking work ∧ work.target = x

/-- What the guards promise in a state: a loop has the mutex of its object to itself,
and a thread that asks for a mutex of its own is stuck with all that it has. -/
structure Guarded (layout : Layout w Obj) (s : State w Obj Tid) : Prop where
  owner : ∀ t y, s.shared.mutex y = some t ↔ y ∈ (s.threads t).held
  alone : ∀ t u x rest later, (x,rest) ∈ (s.threads t).loops → (x,later) ∈ (s.threads u).loops →
    t = u ∧ rest = later
  writes : ∀ action next y, step layout s action = some next →
    next.shared.heap y ≠ s.shared.heap y →
    s.shared.mutex y = some action.1 ∨ (s.threads action.1).pc = .freeing y
  ownLock : ∀ t x, Waits s t x → x ∈ (s.threads t).held → ∀ later,
    EveryState (step layout) (fun after => after.threads t = s.threads t ∧
      ∀ y ∈ (s.threads t).held, after.shared.mutex y = some t) s later

omit [DecidableEq Obj] [DecidableEq Tid] [BinarySearch] in
theorem loopOnce {th : Thread w Obj} (distinct : th.held.Nodup) {x rest later}
    (first : (x,rest) ∈ th.loops) (second : (x,later) ∈ th.loops) : rest = later := by
  have once : (th.loops.map Prod.fst).Nodup := (List.nodup_append.mp distinct).2.1
  exact congrArg Prod.snd (List.inj_on_of_nodup_map once first second rfl)

theorem waitsStays (owned : Owned s) {t x} (waits : Waits s t x) (own : x ∈ (s.threads t).held)
    (taken : step layout s action = some next) : next.threads t = s.threads t := by
  rcases eq_or_ne t action.1 with rfl | other
  · obtain ⟨work,here,rfl⟩ := waits
    obtain ⟨_,moved,_⟩ := Option.bind_eq_some_iff.mp taken
    simp only [threadStep,here] at moved
    have free := (Option.ite_none_right_eq_some.mp moved).1.2
    cases free.symm.trans ((owned.owner action.1 work.target).mpr own)
  · exact (stepEffects taken).2 t other

theorem ownLockStays (owned : Owned s) {t x} (waits : Waits s t x) (own : x ∈ (s.threads t).held)
    (later : List (Tid × List (Call w Obj))) : EveryState (step layout)
      (fun after => after.threads t = s.threads t ∧ ∀ y ∈ (s.threads t).held, after.shared.mutex y = some t)
      s later := by
  have stays : EveryState (step layout) (fun after => Owned after ∧ after.threads t = s.threads t) s later := by
    refine everyStateOfInvariant ?_ ⟨owned,rfl⟩ later
    intro before action after inv taken
    have waiting : Waits before t x := by
      rw [Waits,inv.2]
      exact waits
    exact ⟨ownedKeeps inv.1 taken,(waitsStays inv.1 waiting (inv.2 ▸ own) taken).trans inv.2⟩
  refine everyStateImp ?_ stays
  intro after inv
  exact ⟨inv.2,fun y held => (inv.1.owner t y).mpr (inv.2 ▸ held)⟩

theorem ownedGuarded (owned : Owned s) : Guarded layout s := by
  refine ⟨owned.owner,?_,?_,fun t x waits own later => ownLockStays owned waits own later⟩
  · intro t u x rest later first second
    have mine := (owned.owner t x).mpr (loopHeld first)
    have theirs := (owned.owner u x).mpr (loopHeld second)
    cases Option.some.inj (mine.symm.trans theirs)
    exact ⟨rfl,loopOnce (owned.distinct t) first second⟩
  · intro action next y taken changed
    by_contra neither
    obtain ⟨unheld,kept⟩ := not_or.mp neither
    refine changed (effectHeap (stepEffects taken).1 ?_ kept)
    intro released
    exact unheld ((owned.owner action.1 y).mpr (released ▸ List.mem_cons_self))

theorem emissionsGuarded (layout : Layout w Obj) (heap : Heap w Obj) (programs : Tid → List (Call w Obj))
    (actions : List (Tid × List (Call w Obj))) :
    EveryState (step layout) (Guarded layout) (start heap programs) actions :=
  everyStateImp (fun _ owned => ownedGuarded owned) (everyStateOfInvariant
    (fun _ _ _ owned taken => ownedKeeps owned taken) (startOwned heap programs) actions)

end Steps

/-! The slot disconnects itself while the emission has the mutex of the signal. -/
def selfishBodies : List (List (Call 64 Party)) :=
  List.replicate 8 [] ++ [[.disconnect .signal (.bindInstance 0x7 0x1000)],[]]

example : (run (@step _ _ Unit _ linearSearch _ partyLayout) (start (fun _ => some .empty) (fun _ =>
    [.connect .signal (.bindInstance 0x7 0x1000),.fire .signal])) (selfishBodies.map (fun body => ((),body)))).map
      (fun s => ((s.threads ()).pc,(s.threads ()).held)) =
    some (.locking (.update (.remove .signal (Function.bindInstance 0x7 0x1000).delegateKey)
      [.remove .receiver (Function.bindInstance 0x7 0x1000).delegateKey]),[.signal]) := by
  decide +kernel

end SignalSlot.HeldEmission
