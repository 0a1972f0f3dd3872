import SignalSlot.Library.GuardedRun
import SignalSlot.Library.Interleaving
import SignalSlot.NanoEntries
import Mathlib.Data.List.Perm.Lattice

/-! Threads that connect and disconnect one slot of one receiver. Every call is
two halves, first at the signal and then at the receiver, and only a half is done
under a lock; this is the same code under TS_Policy and TS_Policy_Safe. -/
namespace SignalSlot.LockedHalves
open PartitionSearch GuardedRun Heap Interleaving

variable {w : Nat} {Obj T : Type} [DecidableEq Obj] [DecidableEq T]

structure Link (w : Nat) (Obj : Type) where
  layout : Layout w Obj
  signal : Obj
  receiver : Obj
  slot : Function w
  tracked : layout.observerOf slot.delegateKey = some receiver
  distinct : receiver ≠ signal

inductive Call where
  | connect
  | disconnect
  deriving DecidableEq, Repr

def Link.updates (link : Link w Obj) : Call → List (Update w Obj)
  | .connect => insertSfinae link.layout link.signal link.slot.delegateKey
  | .disconnect => removeSfinae link.layout link.signal link.slot.delegateKey

structure Half (w : Nat) (Obj : Type) where
  index : Nat
  call : Call
  update : Update w Obj

def halves (link : Link w Obj) (program : List Call) : List (Half w Obj) :=
  program.zipIdx.flatMap (fun (call,index) => (link.updates call).map (fun u => ⟨index,call,u⟩))

def applySteps [BinarySearch] (h : Heap w Obj) (steps : List (T × Half w Obj)) :
    Option (Heap w Obj) := applyAll h (steps.map (fun step => step.2.update))

def clears (x : Obj) (step : T × Half w Obj) : Bool :=
  decide (step.2.call = .disconnect ∧ step.2.update.target = x)

def kept (x : Obj) : List (T × Half w Obj) → List (T × Nat)
  | [] => []
  | step::later =>
      if step.2.call = .connect ∧ step.2.update.target = x ∧ later.any (clears x) = false then
        (step.1,step.2.index)::kept x later
      else kept x later

/-- As many connects straddle the last disconnect one way as the other way. -/
def Balanced (link : Link w Obj) (steps : List (T × Half w Obj)) : Prop :=
  ((kept link.signal steps).filter (fun c => decide (c ∉ kept link.receiver steps))).length =
    ((kept link.receiver steps).filter (fun c => decide (c ∉ kept link.signal steps))).length
instance (link : Link w Obj) (steps : List (T × Half w Obj)) : Decidable (Balanced link steps) := by
  unfold Balanced
  infer_instance

def callStep [BinarySearch] (link : Link w Obj) (h : Heap w Obj) (step : T × Call) :
    Option (Heap w Obj) := match step.2 with
  | .connect => connect link.layout h link.signal link.slot
  | .disconnect => disconnect link.layout h link.signal link.slot

structure Agrees [BinarySearch] (link : Link w Obj) (programs : T → List Call) (h out : Heap w Obj) :
    Prop where
  sequential : ∃ order after, Interleaves programs order ∧ run (callStep link) h order = some after ∧
    out link.signal = after link.signal ∧ out link.receiver = after link.receiver
  even : out.entries link.signal link.slot.delegateKey link.receiver =
    out.entries link.receiver link.slot.delegateKey link.signal

/-! The vector of one side is the work of the calls in the order of their halves at
that side, and of these only the connects behind the last disconnect can be seen. -/
section Vector
variable [BinarySearch] {key : DelegateKey w} {obs : Obj} {c : Connections w Obj}

def replay (key : DelegateKey w) (obs : Obj) (c : Connections w Obj) (calls : List Call) :
    Connections w Obj :=
  calls.foldl (fun c call => match call with
    | .connect => c.insert key obs
    | .disconnect => c.remove key) c

def standing : List Call → Nat
  | [] => 0
  | .connect::later => if .disconnect ∈ later then standing later else standing later + 1
  | .disconnect::later => standing later

def copies (key : DelegateKey w) (obs : Obj) (c : Connections w Obj) (n : Nat) : Connections w Obj :=
  (fun c => c.insert key obs)^[n] c

theorem copiesCount (n : Nat) :
    (copies key obs c n).slots.count ⟨key,obs⟩ = c.slots.count ⟨key,obs⟩ + n := by
  induction n generalizing c with
  | zero => rfl
  | succ n ih =>
    rw [copies,Function.iterate_succ_apply,← copies,ih,Connections.insertCount]
    simp only [if_true]
    omega

omit [DecidableEq Obj] in
theorem replayStanding (calls : List Call) : replay key obs c calls =
    copies key obs (if .disconnect ∈ calls then c.remove key else c) (standing calls) := by
  induction calls generalizing c with
  | nil => rfl
  | cons call later ih =>
    rw [replay,List.foldl_cons,← replay]
    cases call with
    | connect =>
      rw [ih,Connections.insertRemove]
      by_cases cleared : Call.disconnect ∈ later
      · simp [standing,cleared]
      · simp [standing,cleared,copies]
    | disconnect =>
      rw [ih,Connections.removeRemove]
      simp [standing]

theorem replayCount (calls : List Call) : (replay key obs c calls).slots.count ⟨key,obs⟩ =
    (if .disconnect ∈ calls then 0 else c.slots.count ⟨key,obs⟩) + standing calls := by
  rw [replayStanding,copiesCount]
  split
  · rw [Connections.removeCount,if_pos rfl]
  · rfl

end Vector

section Halves
variable {link : Link w Obj} {x obs : Obj}

def Ends (link : Link w Obj) (x obs : Obj) : Prop :=
  x = link.signal ∧ obs = link.receiver ∨ x = link.receiver ∧ obs = link.signal

def callAt (x : Obj) (half : Half w Obj) : Option Call :=
  if half.update.target = x then some half.call else none

def indexAt (x : Obj) (half : Half w Obj) : Option Nat :=
  if half.update.target = x then some half.index else none

def endUpdate (key : DelegateKey w) (x obs : Obj) : Call → Update w Obj
  | .connect => .insert x key obs
  | .disconnect => .remove x key

theorem updatesAt (ends : Ends link x obs) (call : Call) :
    (link.updates call).filter (fun u => decide (u.target = x)) =
      [endUpdate link.slot.delegateKey x obs call] := by
  have other := link.distinct
  rcases ends with ⟨rfl,rfl⟩ | ⟨rfl,rfl⟩ <;> cases call <;>
    simp [Link.updates,insertSfinae,removeSfinae,link.tracked,Update.target,endUpdate,other,
      Ne.symm other]

theorem halfAt (ends : Ends link x obs) {call : Call} {u} (mem : u ∈ link.updates call)
    (here : u.target = x) : u = endUpdate link.slot.delegateKey x obs call := by
  have inside : u ∈ (link.updates call).filter (fun u => decide (u.target = x)) :=
    List.mem_filter.mpr ⟨mem,decide_eq_true here⟩
  rw [updatesAt ends] at inside
  exact List.mem_singleton.mp inside

theorem halvesAt {γ : Type} (ends : Ends link x obs) (view : Nat → Call → γ) (program : List Call) :
    (halves link program).filterMap
        (fun half => if half.update.target = x then some (view half.index half.call) else none) =
      program.zipIdx.map (fun (call,index) => view index call) := by
  unfold halves
  induction program.zipIdx with
  | nil => rfl
  | cons numbered rest ih =>
    obtain ⟨call,index⟩ := numbered
    have other := link.distinct
    rw [List.flatMap_cons,List.filterMap_append,ih,List.map_cons]
    rcases ends with ⟨rfl,rfl⟩ | ⟨rfl,rfl⟩ <;> cases call <;>
      simp [Link.updates,insertSfinae,removeSfinae,link.tracked,Update.target,other,Ne.symm other]

theorem callsAt (ends : Ends link x obs) (program : List Call) :
    (halves link program).filterMap (callAt x) = program := by
  have all := halvesAt ends (fun _ call => call) program
  rw [show callAt x = fun half : Half w Obj =>
    if half.update.target = x then some half.call else none from rfl,all]
  simp

theorem indicesAt (ends : Ends link x obs) (program : List Call) :
    (halves link program).filterMap (indexAt x) = List.range program.length := by
  have all := halvesAt ends (fun index _ => index) program
  rw [show indexAt x = fun half : Half w Obj =>
    if half.update.target = x then some half.index else none from rfl,all]
  simp [List.range_eq_range']

def OfLink (link : Link w Obj) (step : T × Half w Obj) : Prop :=
  step.2.update ∈ link.updates step.2.call

omit [DecidableEq Obj] [DecidableEq T] in
theorem halvesOfLink {program : List Call} {t : T} {half} (mem : half ∈ halves link program) :
    OfLink link (t,half) := by
  obtain ⟨⟨call,index⟩,_,inner⟩ := List.mem_flatMap.mp mem
  obtain ⟨u,update,rfl⟩ := List.mem_map.mp inner
  exact update

def callOrder (x : Obj) (steps : List (T × Half w Obj)) : List Call :=
  (seen (callAt x) steps).map Prod.snd

omit [DecidableEq T] in
theorem callOrderCons (step : T × Half w Obj) (later) : callOrder x (step::later) =
    if step.2.update.target = x then step.2.call::callOrder x later else callOrder x later := by
  by_cases here : step.2.update.target = x <;> simp [callOrder,seen,callAt,here]

omit [DecidableEq T] in
theorem clearsMem (steps : List (T × Half w Obj)) :
    steps.any (clears x) = true ↔ .disconnect ∈ callOrder x steps := by
  induction steps with
  | nil => simp [callOrder,seen]
  | cons step later ih =>
    rw [List.any_cons,Bool.or_eq_true,ih,callOrderCons]
    by_cases here : step.2.update.target = x
    · rw [if_pos here,List.mem_cons]
      simp [clears,here,eq_comm]
    · simp [clears,here]

omit [DecidableEq T] in
theorem keptStanding (steps : List (T × Half w Obj)) :
    (kept x steps).length = standing (callOrder x steps) := by
  induction steps with
  | nil => rfl
  | cons step later ih =>
    have cleared := clearsMem (x := x) later
    rw [kept,callOrderCons]
    cases call : step.2.call with
    | connect =>
      by_cases here : step.2.update.target = x
      · by_cases clear : later.any (clears x) = true
        · have undone := cleared.mp clear
          simp only [if_pos here,standing,if_pos undone,clear,reduceCtorEq,and_false,if_false,ih]
        · have stands := mt cleared.mpr clear
          simp only [standing,if_neg stands,Bool.eq_false_of_not_eq_true clear,here,
            and_self,if_true,List.length_cons,ih]
      · simp [here,ih]
    | disconnect => by_cases here : step.2.update.target = x <;> simp [standing,here,ih]

omit [DecidableEq T] in
theorem keptSublist (steps : List (T × Half w Obj)) :
    (kept x steps).Sublist (seen (indexAt x) steps) := by
  induction steps with
  | nil => exact List.Sublist.slnil
  | cons step later ih =>
    rw [kept]
    by_cases here : step.2.update.target = x
    · simp only [seen,indexAt,here,List.filterMap_cons] at ih ⊢
      split
      · exact ih.cons_cons _
      · exact ih.cons _
    · simpa [seen,indexAt,here] using ih

end Halves

section Runs
variable [BinarySearch] {link : Link w Obj} {x obs : Obj} {h out : Heap w Obj}

omit [DecidableEq T] in
theorem stepsVector (ends : Ends link x obs) {steps : List (T × Half w Obj)}
    (ofLink : ∀ step ∈ steps, OfLink link step) {c} (found : h x = some c)
    (ok : applySteps h steps = some out) :
    out x = some (replay link.slot.delegateKey obs c (callOrder x steps)) := by
  induction steps generalizing h c with
  | nil => cases Option.some.inj ok; exact found
  | cons step later ih =>
    simp only [applySteps,List.map_cons,applyAll,bind,Option.bind_eq_some_iff] at ok
    obtain ⟨next,first,ok⟩ := ok
    have rest := fun s mem => ofLink s (List.mem_cons_of_mem _ mem)
    rw [callOrderCons]
    by_cases here : step.2.update.target = x
    · have half := halfAt ends (ofLink step List.mem_cons_self) here
      rw [if_pos here,replay,List.foldl_cons,← replay]
      cases call : step.2.call with
      | connect | disconnect =>
        rw [half,call] at first
        simp only [endUpdate,apply,found,bind,Option.bind,Option.some.injEq] at first
        subst first
        exact ih rest (by simp [store]) ok
    · rw [if_neg here]
      exact ih rest ((applyOther first (Ne.symm here)).trans found) ok

omit [BinarySearch] [DecidableEq Obj] [DecidableEq T] in
theorem ofLinkTarget {step : T × Half w Obj} (ofLink : OfLink link step) :
    step.2.update.target = link.signal ∨ step.2.update.target = link.receiver := by
  unfold OfLink at ofLink
  cases call : step.2.call <;> rw [call] at ofLink <;>
    simp only [Link.updates,insertSfinae,removeSfinae,link.tracked,List.mem_cons,List.not_mem_nil,
      or_false] at ofLink <;> rcases ofLink with only | only <;> simp [only,Update.target]

omit [DecidableEq T] in
theorem stepsPossible {steps : List (T × Half w Obj)} (ofLink : ∀ step ∈ steps, OfLink link step)
    (liveSignal : h.alive link.signal = true) (liveReceiver : h.alive link.receiver = true) :
    (applySteps h steps).isSome = true := by
  refine applyAllPossible (fun u mem => ?_)
  obtain ⟨step,inside,rfl⟩ := List.mem_map.mp mem
  rcases ofLinkTarget (ofLink step inside) with same | same <;> rw [same] <;> assumption

def callHalves (link : Link w Obj) (order : List (T × Call)) : List (T × Half w Obj) :=
  order.flatMap (fun (t,call) => (link.updates call).map (fun u => (t,⟨0,call,u⟩)))

omit [DecidableEq T] in
theorem callStepHalves (step : T × Call) :
    callStep link h step = applyAll h (link.updates step.2) := by
  unfold callStep
  cases step.2 <;> rfl

omit [DecidableEq T] in
theorem runHalves (order : List (T × Call)) :
    run (callStep link) h order = applySteps h (callHalves link order) := by
  induction order generalizing h with
  | nil => rfl
  | cons step rest ih =>
    have here : ((link.updates step.2).map (fun u => (step.1,(⟨0,step.2,u⟩ : Half w Obj)))).map
        (fun step => step.2.update) = link.updates step.2 := by
      rw [List.map_map]
      exact List.map_id _
    rw [run,callStepHalves,callHalves,List.flatMap_cons,← callHalves,applySteps,List.map_append,here,
      applyAllAppend]
    exact congrArg _ (funext fun next => ih)

omit [BinarySearch] [DecidableEq Obj] [DecidableEq T] in
theorem callHalvesOfLink {order : List (T × Call)} : ∀ step ∈ callHalves link order, OfLink link step := by
  intro step mem
  obtain ⟨⟨t,call⟩,_,inner⟩ := List.mem_flatMap.mp mem
  obtain ⟨u,update,rfl⟩ := List.mem_map.mp inner
  exact update

omit [BinarySearch] [DecidableEq T] in
theorem callHalvesOrder (ends : Ends link x obs) (order : List (T × Call)) :
    callOrder x (callHalves link order) = order.map Prod.snd := by
  induction order with
  | nil => rfl
  | cons step rest ih =>
    have other := link.distinct
    have cons : callHalves link (step::rest) =
      (link.updates step.2).map (fun u => (step.1,⟨0,step.2,u⟩)) ++ callHalves link rest := rfl
    rw [List.map_cons,← ih,cons]
    cases step.2 <;> rcases ends with ⟨rfl,rfl⟩ | ⟨rfl,rfl⟩ <;>
      simp [Link.updates,insertSfinae,removeSfinae,link.tracked,callOrderCons,Update.target,other,
        Ne.symm other]

variable {programs : T → List Call} {steps : List (T × Half w Obj)}

omit [BinarySearch] in
theorem balancedStanding (order : Interleaves (fun t => halves link (programs t)) steps) :
    Balanced link steps ↔
      standing (callOrder link.signal steps) = standing (callOrder link.receiver steps) := by
  have nodup {x obs : Obj} (ends : Ends link x obs) : (kept x steps).Nodup := by
    refine List.Nodup.sublist (keptSublist steps) (interleavesNodup (seenInterleaves order) ?_)
    intro t
    rw [indicesAt ends]
    exact List.nodup_range
  have left := nodup (.inl ⟨rfl,rfl⟩)
  have right := nodup (.inr ⟨rfl,rfl⟩)
  have common : ((kept link.signal steps).filter (fun c => decide (c ∈ kept link.receiver steps))).Perm
      ((kept link.receiver steps).filter (fun c => decide (c ∈ kept link.signal steps))) := by
    refine (List.perm_ext_iff_of_nodup (left.filter _) (right.filter _)).mpr (fun c => ?_)
    simp [and_comm]
  have same := common.length_eq
  have splitLeft := List.length_eq_length_filter_add (l := kept link.signal steps)
    (fun c => decide (c ∈ kept link.receiver steps))
  have splitRight := List.length_eq_length_filter_add (l := kept link.receiver steps)
    (fun c => decide (c ∈ kept link.signal steps))
  rw [← keptStanding,← keptStanding,Balanced]
  simp only [decide_not] at splitLeft splitRight ⊢
  omega

omit [BinarySearch] in
theorem endInterleaves (ends : Ends link x obs)
    (order : Interleaves (fun t => halves link (programs t)) steps) :
    Interleaves programs (seen (callAt x) steps) := by
  have seen := seenInterleaves (f := callAt x) order
  simpa only [callsAt ends] using seen

omit [BinarySearch] in
theorem clearedTogether (order : Interleaves (fun t => halves link (programs t)) steps) :
    .disconnect ∈ callOrder link.signal steps ↔ .disconnect ∈ callOrder link.receiver steps := by
  simp only [callOrder,List.mem_map,Prod.exists,exists_eq_right,
    interleavesMem (endInterleaves (.inl ⟨rfl,rfl⟩) order),
    interleavesMem (endInterleaves (.inr ⟨rfl,rfl⟩) order)]

omit [DecidableEq T] in
theorem sequentialVectors {cs co} (foundS : h link.signal = some cs) (foundO : h link.receiver = some co)
    (order : List (T × Call)) : ∃ after, run (callStep link) h order = some after ∧
      after link.signal =
        some (replay link.slot.delegateKey link.receiver cs (order.map Prod.snd)) ∧
      after link.receiver =
        some (replay link.slot.delegateKey link.signal co (order.map Prod.snd)) := by
  have ofLink : ∀ step ∈ callHalves link order, OfLink link step := callHalvesOfLink
  obtain ⟨after,ran⟩ := Option.isSome_iff_exists.mp (stepsPossible (h := h) ofLink
    (by simp [alive,foundS]) (by simp [alive,foundO]))
  have atSignal := stepsVector (.inl ⟨rfl,rfl⟩) ofLink foundS ran
  have atReceiver := stepsVector (.inr ⟨rfl,rfl⟩) ofLink foundO ran
  rw [callHalvesOrder (.inl ⟨rfl,rfl⟩)] at atSignal
  rw [callHalvesOrder (.inr ⟨rfl,rfl⟩)] at atReceiver
  exact ⟨after,(runHalves order).trans ran,atSignal,atReceiver⟩

theorem agreesExactly (link : Link w Obj) (programs : T → List Call) (h : Heap w Obj)
    (steps : List (T × Half w Obj)) (liveSignal : h.alive link.signal = true)
    (liveReceiver : h.alive link.receiver = true)
    (even : h.entries link.signal link.slot.delegateKey link.receiver =
      h.entries link.receiver link.slot.delegateKey link.signal)
    (order : Interleaves (fun t => halves link (programs t)) steps) :
    ∃ out, applySteps h steps = some out ∧ (Agrees link programs h out ↔ Balanced link steps) := by
  have ofLink : ∀ step ∈ steps, OfLink link step := fun step mem =>
    halvesOfLink ((interleavesMem order).mp mem)
  obtain ⟨out,ok⟩ := Option.isSome_iff_exists.mp (stepsPossible ofLink liveSignal liveReceiver)
  obtain ⟨cs,foundS⟩ := Option.isSome_iff_exists.mp liveSignal
  obtain ⟨co,foundO⟩ := Option.isSome_iff_exists.mp liveReceiver
  have outS := stepsVector (.inl ⟨rfl,rfl⟩) ofLink foundS ok
  have outO := stepsVector (.inr ⟨rfl,rfl⟩) ofLink foundO ok
  have cleared := clearedTogether order
  rw [entriesFound foundS,entriesFound foundO] at even
  refine ⟨out,ok,?_⟩
  rw [balancedStanding order]
  constructor
  · intro agrees
    have same := agrees.even
    rw [entriesFound outS,entriesFound outO,replayCount,replayCount] at same
    simp only [even,cleared] at same
    omega
  · intro same
    refine ⟨⟨seen (callAt link.signal) steps,?_⟩,?_⟩
    · -- The order of the halves at the signal does for both ends.
      have replayed : replay link.slot.delegateKey link.signal co (callOrder link.signal steps) =
          replay link.slot.delegateKey link.signal co (callOrder link.receiver steps) := by
        rw [replayStanding,replayStanding,same]
        simp only [cleared]
      obtain ⟨after,ran,afterS,afterO⟩ :=
        sequentialVectors foundS foundO (seen (callAt link.signal) steps)
      refine ⟨after,endInterleaves (.inl ⟨rfl,rfl⟩) order,ran,outS.trans afterS.symm,?_⟩
      rw [outO,afterO,← replayed]
      rfl
    · rw [entriesFound outS,entriesFound outO,replayCount,replayCount]
      simp only [even,cleared,same]

end Runs

/-! Two threads: one connects the slot and the other disconnects it between the two
halves of the connect. The receiver keeps an entry for a signal that has none. -/
def straddledLink : Link 64 Party where
  layout := partyLayout
  signal := .signal
  receiver := .receiver
  slot := .bindInstance 0x7 0x1000
  tracked := by decide
  distinct := by decide

def straddledPrograms : Bool → List Call
  | false => [.connect]
  | true => [.disconnect]

def straddledSteps : List (Bool × Half 64 Party) :=
  let key := straddledLink.slot.delegateKey
  [(false,⟨0,.connect,.insert .signal key .receiver⟩),(true,⟨0,.disconnect,.remove .signal key⟩),
    (true,⟨0,.disconnect,.remove .receiver key⟩),(false,⟨0,.connect,.insert .receiver key .signal⟩)]

theorem straddledDiffers :
    Interleaves (fun t => halves straddledLink (straddledPrograms t)) straddledSteps ∧
    ¬ ∃ out, @applySteps _ _ _ _ linearSearch (Heap.initial fun _ => true) straddledSteps = some out ∧
      @Agrees _ _ _ _ _ linearSearch straddledLink straddledPrograms (Heap.initial fun _ => true) out := by
  let _ := linearSearch
  refine ⟨fun t => by cases t <;> rfl,?_⟩
  rintro ⟨out,ok,agrees⟩
  have evaluated : (applySteps (Heap.initial fun _ => true) straddledSteps).map
      (fun h => (h.entries .signal straddledLink.slot.delegateKey .receiver,
        h.entries .receiver straddledLink.slot.delegateKey .signal)) = some (0,1) := by decide +kernel
  rw [ok] at evaluated
  obtain ⟨atSignal,atReceiver⟩ := Prod.mk.inj (Option.some.inj evaluated)
  exact absurd (atSignal.symm.trans (agrees.even.trans atReceiver)) (by decide)

def overlappedSteps : List (Bool × Half 64 Party) :=
  let key := straddledLink.slot.delegateKey
  [(true,⟨0,.disconnect,.remove .signal key⟩),(false,⟨0,.connect,.insert .signal key .receiver⟩),
    (true,⟨0,.disconnect,.remove .receiver key⟩),(false,⟨0,.connect,.insert .receiver key .signal⟩)]

theorem overlappedAgrees :
    ∃ out, @applySteps _ _ _ _ linearSearch (Heap.initial fun _ => true) overlappedSteps = some out ∧
      @Agrees _ _ _ _ _ linearSearch straddledLink straddledPrograms (Heap.initial fun _ => true) out := by
  let _ := linearSearch
  obtain ⟨out,ok,exactly⟩ := agreesExactly straddledLink straddledPrograms (Heap.initial fun _ => true)
    overlappedSteps (by decide) (by decide) (by decide) (fun t => by cases t <;> rfl)
  exact ⟨out,ok,exactly.mpr (by decide)⟩

end SignalSlot.LockedHalves
