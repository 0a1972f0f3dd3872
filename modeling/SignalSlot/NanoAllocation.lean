import SignalSlot.NanoBackReferences

/-! Tracked connections when memory runs out. A member function connect makes two
insertions, and each of them may have to grow its vector. There is no handler between
the two: a failure of the second one leaves the entry of the first one behind. -/
namespace SignalSlot.Allocation
open PartitionSearch GuardedRun Heap

variable {w : Nat} {Obj : Type} [DecidableEq Obj]

-- `completed` are the calls that returned; nothing in the code reads it.
structure Storage (w : Nat) (Obj : Type) where
  heap : Heap w Obj
  capacity : Obj → Nat
  completed : List (Op w Obj)

/-- Whether the growth in the signal's insertion raises std::bad_alloc, and whether
the growth in the receiver's one does. -/
structure Failures where
  ofSignal : Bool
  ofReceiver : Bool

structure Call (w : Nat) (Obj : Type) where
  op : Op w Obj
  fails : Failures

def size (h : Heap w Obj) (x : Obj) : Nat := match h x with
  | none => 0
  | some c => c.slots.length

namespace Storage

def initial (live : Obj → Bool) : Storage w Obj := ⟨Heap.initial live,fun _ => 0,[]⟩

def full (s : Storage w Obj) (x : Obj) : Bool := decide (s.capacity x ≤ size s.heap x)

variable (grow : Nat → Nat)

def grown (s : Storage w Obj) (x : Obj) : Nat :=
  if s.full x then max (size s.heap x + 1) (grow (size s.heap x)) else s.capacity x

section Operations
variable [BinarySearch]

-- `true` stands for the exception.
def emplace (s : Storage w Obj) (u : Update w Obj) (fails : Bool) : Option (Storage w Obj × Bool) := do
  let h ← apply s.heap u
  if s.full u.target && fails then some (s,true)
  else some (⟨h,Function.update s.capacity u.target (s.grown grow u.target),s.completed⟩,false)

def emplaceAll (s : Storage w Obj) : List (Update w Obj × Bool) → Option (Storage w Obj × Bool)
  | [] => some (s,false)
  | (u,fails)::rest => do
      let (next,thrown) ← emplace grow s u fails
      if thrown then some (next,true) else emplaceAll next rest

def connect (layout : Layout w Obj) (s : Storage w Obj) (signal : Obj) (slot : Function w)
    (fails : Failures) : Option (Storage w Obj × Bool) :=
  emplaceAll grow s ((insertSfinae layout signal slot.delegateKey).zip [fails.ofSignal,fails.ofReceiver])

def returns (s : Storage w Obj) (op : Op w Obj) : Storage w Obj := ⟨s.heap,s.capacity,s.completed ++ [op]⟩

def step (layout : Layout w Obj) (policy : Policy) (s : Storage w Obj) (call : Call w Obj) :
    Option (Storage w Obj) :=
  if Callable layout s.heap call.op then
    match call.op with
    | .connect signal slot => do
        let (next,thrown) ← connect grow layout s signal slot call.fails
        some (if thrown then next else next.returns call.op)
    | op => do
        let h ← exec layout policy s.heap op
        some (returns ⟨h,s.capacity,s.completed⟩ op)
  else none

def Atomic (layout : Layout w Obj) (s : Storage w Obj) (call : Call w Obj) : Prop :=
  ∀ signal slot next, call.op = .connect signal slot →
    connect grow layout s signal slot call.fails = some (next,true) → next.heap = s.heap

/-- The heap is the one that the calls that returned would have made alone. -/
def Explained (layout : Layout w Obj) (policy : Policy) (live : Obj → Bool) (s : Storage w Obj) : Prop :=
  run (Heap.step layout policy) (Heap.initial live) s.completed = some s.heap

end Operations

def fullAfter (s : Storage w Obj) (signal receiver : Obj) : Bool :=
  if receiver = signal then decide (s.grown grow signal ≤ size s.heap signal + 1) else s.full receiver

/-- Once the signal's insertion has gone through, the receiver's one does too. -/
def ReceiverFollows (layout : Layout w Obj) (s : Storage w Obj) (call : Call w Obj) : Prop :=
  ∀ signal slot receiver, call.op = .connect signal slot →
    layout.observerOf slot.delegateKey = some receiver →
    (s.full signal && call.fails.ofSignal) = true ∨
      (fullAfter grow s signal receiver && call.fails.ofReceiver) = false

section Steps
variable {grow} [BinarySearch] {layout : Layout w Obj} {policy : Policy} {s next : Storage w Obj}

theorem emplaceCases {u : Update w Obj} {fails thrown : Bool}
    (ok : emplace grow s u fails = some (next,thrown)) :
    (thrown = true ∧ next = s ∧ (s.full u.target && fails) = true) ∨
    (thrown = false ∧ (s.full u.target && fails) = false ∧ apply s.heap u = some next.heap ∧
      next.capacity = Function.update s.capacity u.target (s.grown grow u.target) ∧
      next.completed = s.completed) := by
  simp only [emplace,bind,Option.bind_eq_some_iff] at ok
  obtain ⟨h,applied,ok⟩ := ok
  split at ok
  · next fullAndFails =>
    cases Option.some.inj ok
    exact .inl ⟨rfl,rfl,fullAndFails⟩
  · next room =>
    cases Option.some.inj ok
    exact .inr ⟨rfl,Bool.not_eq_true _ ▸ room,applied,rfl,rfl⟩

theorem connectSingle {signal : Obj} {slot : Function w} {fails : Failures} {thrown : Bool}
    (free : layout.observerOf slot.delegateKey = none)
    (ok : connect grow layout s signal slot fails = some (next,thrown)) :
    emplace grow s (.insert signal slot.delegateKey signal) fails.ofSignal = some (next,thrown) := by
  simp only [connect,insertSfinae,free,List.zip_cons_cons,List.zip_nil_left,emplaceAll,bind,
    Option.bind_eq_some_iff] at ok
  obtain ⟨⟨mid,stopped⟩,first,ok⟩ := ok
  cases stopped with
  | true => cases Option.some.inj ok; exact first
  | false => cases Option.some.inj ok; exact first

theorem connectPair {signal receiver : Obj} {slot : Function w} {fails : Failures} {thrown : Bool}
    (tracked : layout.observerOf slot.delegateKey = some receiver)
    (ok : connect grow layout s signal slot fails = some (next,thrown)) :
    (thrown = true ∧ emplace grow s (.insert signal slot.delegateKey receiver) fails.ofSignal =
      some (next,true)) ∨
    ∃ mid, emplace grow s (.insert signal slot.delegateKey receiver) fails.ofSignal = some (mid,false) ∧
      emplace grow mid (.insert receiver slot.delegateKey signal) fails.ofReceiver = some (next,thrown) := by
  simp only [connect,insertSfinae,tracked,List.zip_cons_cons,List.zip_nil_left,emplaceAll,bind,
    Option.bind_eq_some_iff] at ok
  obtain ⟨⟨mid,stopped⟩,first,ok⟩ := ok
  cases stopped with
  | true =>
    cases Option.some.inj ok
    exact .inl ⟨rfl,first⟩
  | false =>
    obtain ⟨⟨last,stopped⟩,second,ok⟩ := Option.bind_eq_some_iff.mp ok
    refine .inr ⟨mid,first,?_⟩
    cases stopped with
    | true => cases Option.some.inj ok; exact second
    | false => cases Option.some.inj ok; exact second

theorem insertSize {h out : Heap w Obj} {x : Obj} {key : DelegateKey w} {obs : Obj}
    (ok : apply h (.insert x key obs) = some out) (y : Obj) :
    size out y = size h y + if y = x then 1 else 0 := by
  obtain ⟨c,found,rfl⟩ := applyInsert ok
  by_cases same : y = x
  · subst same
    have length := (Connections.insertPerm c key obs).length_eq
    simpa [size,store,found] using length
  · simp [size,store,same]

theorem insertedFull {signal receiver obs : Obj} {key : DelegateKey w} {fails : Bool}
    (ok : emplace grow s (.insert signal key obs) fails = some (next,false)) :
    next.full receiver = fullAfter grow s signal receiver := by
  rcases emplaceCases ok with ⟨impossible,_⟩ | ⟨_,_,applied,capacity,_⟩
  · contradiction
  · rw [full,fullAfter,capacity,insertSize applied,Update.target]
    by_cases same : receiver = signal
    · subst same
      simp
    · simp [same,full]

theorem insertChanges {h out : Heap w Obj} {x : Obj} {key : DelegateKey w} {obs : Obj}
    (ok : apply h (.insert x key obs) = some out) : out ≠ h := by
  intro same
  have count := insertEntries ok x key obs
  rw [same] at count
  simp at count

theorem connectFollows {signal : Obj} {slot : Function w} {fails : Failures} {thrown : Bool}
    (ok : connect grow layout s signal slot fails = some (next,thrown))
    (follows : ReceiverFollows grow layout s ⟨.connect signal slot,fails⟩) :
    (thrown = true ∧ next = s) ∨ (thrown = false ∧ next.completed = s.completed ∧
      Heap.connect layout s.heap signal slot = some next.heap) := by
  cases tracked : layout.observerOf slot.delegateKey with
  | none =>
    rcases emplaceCases (connectSingle tracked ok) with ⟨throws,same,_⟩ | ⟨returns,_,applied,_,done⟩
    · exact .inl ⟨throws,same⟩
    · refine .inr ⟨returns,done,?_⟩
      simp [Heap.connect,insertSfinae,tracked,applyAll,applied]
  | some receiver =>
    rcases connectPair tracked ok with ⟨throws,first⟩ | ⟨mid,first,second⟩
    · rcases emplaceCases first with ⟨_,same,_⟩ | ⟨impossible,_⟩
      · exact .inl ⟨throws,same⟩
      · contradiction
    · rcases emplaceCases first with ⟨impossible,_⟩ | ⟨_,room,applied,_,done⟩
      · contradiction
      · have receiverRoom : (mid.full receiver && fails.ofReceiver) = false := by
          rw [insertedFull first]
          exact (follows signal slot receiver rfl tracked).resolve_left (Bool.not_eq_true _ ▸ room)
        rcases emplaceCases second with ⟨_,_,blocked⟩ | ⟨returns,_,applied',_,done'⟩
        · exact absurd blocked (Bool.not_eq_true _ ▸ receiverRoom)
        · refine .inr ⟨returns,done'.trans done,?_⟩
          simp [Heap.connect,insertSfinae,tracked,applyAll,applied,applied']

theorem connectLeft {signal receiver : Obj} {slot : Function w} {fails : Failures} {thrown : Bool}
    (tracked : layout.observerOf slot.delegateKey = some receiver)
    (ok : connect grow layout s signal slot fails = some (next,thrown))
    (room : (s.full signal && fails.ofSignal) = false)
    (blocked : (fullAfter grow s signal receiver && fails.ofReceiver) = true) :
    thrown = true ∧ next.heap ≠ s.heap := by
  rcases connectPair tracked ok with ⟨_,first⟩ | ⟨mid,first,second⟩
  · rcases emplaceCases first with ⟨_,_,stops⟩ | ⟨impossible,_⟩
    · exact absurd (room.symm.trans stops) Bool.false_ne_true
    · contradiction
  · rcases emplaceCases first with ⟨impossible,_⟩ | ⟨_,_,applied,_⟩
    · contradiction
    · rcases emplaceCases second with ⟨throws,rfl,_⟩ | ⟨_,goes,_⟩
      · exact ⟨throws,insertChanges applied⟩
      · rw [Update.target,insertedFull first] at goes
        exact absurd (goes.symm.trans blocked) Bool.false_ne_true

theorem stepConnect {signal : Obj} {slot : Function w} {fails : Failures}
    (ok : step grow layout policy s ⟨.connect signal slot,fails⟩ = some next) :
    Callable layout s.heap (.connect signal slot) ∧ ∃ out thrown,
      connect grow layout s signal slot fails = some (out,thrown) ∧
      next = if thrown then out else out.returns (.connect signal slot) := by
  unfold step at ok
  split at ok
  · next callable =>
    obtain ⟨⟨out,thrown⟩,connected,result⟩ := Option.bind_eq_some_iff.mp ok
    exact ⟨callable,out,thrown,connected,(Option.some.inj result).symm⟩
  · contradiction

theorem stepOther {call : Call w Obj} (other : ∀ signal slot, call.op ≠ .connect signal slot)
    (ok : step grow layout policy s call = some next) :
    Heap.step layout policy s.heap call.op = some next.heap ∧
      next.completed = s.completed ++ [call.op] := by
  unfold step at ok
  unfold Heap.step
  split at ok
  · next callable =>
    rw [if_pos callable]
    cases called : call.op with
    | connect signal slot => exact absurd called (other signal slot)
    | disconnect signal slot | disconnectAll x | destroy x =>
      rw [called] at ok
      obtain ⟨h,ran,result⟩ := Option.bind_eq_some_iff.mp ok
      cases Option.some.inj result
      exact ⟨ran,rfl⟩
  · contradiction

theorem stepFollows {call : Call w Obj} (ok : step grow layout policy s call = some next)
    (follows : ReceiverFollows grow layout s call) :
    (next.heap = s.heap ∧ next.completed = s.completed) ∨
    (Heap.step layout policy s.heap call.op = some next.heap ∧
      next.completed = s.completed ++ [call.op]) := by
  obtain ⟨op,fails⟩ := call
  cases op with
  | connect signal slot =>
    obtain ⟨callable,out,thrown,connected,rfl⟩ := stepConnect ok
    rcases connectFollows connected follows with ⟨rfl,rfl⟩ | ⟨rfl,done,whole⟩
    · exact .inl ⟨rfl,rfl⟩
    · refine .inr ⟨?_,by rw [← done]; rfl⟩
      rw [Heap.step,if_pos callable]
      exact whole
  | disconnect signal slot => exact .inr (stepOther (fun _ _ impossible => nomatch impossible) ok)
  | disconnectAll x => exact .inr (stepOther (fun _ _ impossible => nomatch impossible) ok)
  | destroy x => exact .inr (stepOther (fun _ _ impossible => nomatch impossible) ok)

theorem connectKeepsCompleted {signal : Obj} {slot : Function w} {fails : Failures} {thrown : Bool}
    (ok : connect grow layout s signal slot fails = some (next,thrown)) :
    next.completed = s.completed := by
  have kept : ∀ {s next : Storage w Obj} {u fails thrown},
      emplace grow s u fails = some (next,thrown) → next.completed = s.completed := by
    intro s next u fails thrown ok
    rcases emplaceCases ok with ⟨_,rfl,_⟩ | ⟨_,_,_,_,done⟩
    · rfl
    · exact done
  cases tracked : layout.observerOf slot.delegateKey with
  | none => exact kept (connectSingle tracked ok)
  | some receiver =>
    rcases connectPair tracked ok with ⟨_,first⟩ | ⟨mid,first,second⟩
    · exact kept first
    · exact (kept second).trans (kept first)

theorem atomicExactly {call : Call w Obj} (ok : step grow layout policy s call = some next) :
    Atomic grow layout s call ↔ ReceiverFollows grow layout s call := by
  obtain ⟨op,fails⟩ := call
  constructor
  · intro atomic signal slot receiver called tracked
    subst called
    obtain ⟨_,out,thrown,connected,_⟩ := stepConnect ok
    cases first : s.full signal && fails.ofSignal with
    | true => exact .inl rfl
    | false => cases second : fullAfter grow s signal receiver && fails.ofReceiver with
      | false => exact .inr rfl
      | true =>
        obtain ⟨rfl,changed⟩ := connectLeft tracked connected first second
        exact absurd (atomic signal slot out rfl connected) changed
  · intro follows signal slot out called connected
    subst called
    rcases connectFollows connected follows with ⟨_,rfl⟩ | ⟨impossible,_⟩
    · rfl
    · contradiction

theorem explainedKept {live : Obj → Bool} {call : Call w Obj} (explained : Explained layout policy live s)
    (follows : ReceiverFollows grow layout s call) (ok : step grow layout policy s call = some next) :
    Explained layout policy live next := by
  unfold Explained at explained ⊢
  rcases stepFollows ok follows with ⟨heap,done⟩ | ⟨taken,done⟩
  · rw [heap,done,explained]
  · rw [done,runSnoc,explained]
    exact taken

theorem explainedAtomic {live : Obj → Bool} {call : Call w Obj} (explained : Explained layout policy live s)
    (ok : step grow layout policy s call = some next) (after : Explained layout policy live next) :
    Atomic grow layout s call := by
  intro signal slot out called connected
  obtain ⟨op,fails⟩ := call
  subst called
  obtain ⟨_,out',thrown,connected',rfl⟩ := stepConnect ok
  obtain ⟨rfl,rfl⟩ := Prod.mk.inj (Option.some.inj (connected.symm.trans connected'))
  have done : out.completed = s.completed := connectKeepsCompleted connected
  unfold Explained at explained after
  rw [if_pos rfl,done,explained] at after
  exact (Option.some.inj after).symm

theorem danglingKept {call : Call w Obj} (inv : BackReferences.Inv layout s.heap)
    (follows : ReceiverFollows grow layout s call)
    (only : BackReferences.KeepsBackReferences layout s.heap call.op)
    (ok : step grow layout .st s call = some next) : BackReferences.Inv layout next.heap := by
  rcases stepFollows ok follows with ⟨heap,_⟩ | ⟨taken,_⟩
  · rw [heap]
    exact inv
  · exact BackReferences.stepKeeps inv only taken

end Steps
end Storage

open Storage in
theorem connectAtomicExactly [BinarySearch] (layout : Layout w Obj) (grow : Nat → Nat) (live : Obj → Bool)
    (calls : List (Call w Obj)) :
    (∀ policy, (EveryStep (step grow layout policy) (Atomic grow layout) (initial live) calls ↔
        EveryStep (step grow layout policy) (ReceiverFollows grow layout) (initial live) calls) ∧
      (EveryState (step grow layout policy) (Explained layout policy live) (initial live) calls ↔
        EveryStep (step grow layout policy) (ReceiverFollows grow layout) (initial live) calls)) ∧
    (EveryStep (step grow layout .st) (fun s call => ReceiverFollows grow layout s call ∧
        BackReferences.KeepsBackReferences layout s.heap call.op) (initial live) calls →
      EveryState (step grow layout .st) (fun s => BackReferences.NoDangling s.heap)
        (initial live) calls) := by
  constructor
  · intro policy
    constructor
    · constructor
      · exact everyStepImp (fun _ _ _ ok => (atomicExactly ok).mp)
      · exact everyStepImp (fun _ _ _ ok => (atomicExactly ok).mpr)
    · have start : Explained layout policy live (initial live : Storage w Obj) := rfl
      refine everyStateExact (fun _ explained => explained)
        (fun _ _ _ explained follows ok => explainedKept explained follows ok) ?_ start calls
      intro s call next explained ok after
      exact (atomicExactly ok).mp (explainedAtomic explained ok after)
  · intro permitted
    have inv : EveryState (step grow layout .st) (fun s => BackReferences.Inv layout s.heap)
        (initial live) calls :=
      everyStateOfSteps (fun _ _ _ inv here ok => danglingKept inv here.1 here.2 ok)
        (BackReferences.initialInv layout live) permitted
    exact everyStateImp (fun _ inv => inv.consistent.noDangling) inv

/-! The receiver's vector cannot grow, and then the receiver is destroyed. -/
def memberSlot : Function 64 := .bindInstance 0x7 0x1000

def doubled (n : Nat) : Nat := 2*n

def exhaustedCall : Call 64 Party := ⟨.connect .signal memberSlot,⟨false,true⟩⟩

theorem failedConnectDangles :
    ¬ EveryStep (@Storage.step _ _ _ doubled linearSearch partyLayout .st)
        (@Storage.Atomic _ _ _ doubled linearSearch partyLayout) (Storage.initial fun _ => true)
        [exhaustedCall] ∧
    (run (@Storage.step _ _ _ doubled linearSearch partyLayout .st) (Storage.initial fun _ => true)
        [exhaustedCall,⟨.destroy .receiver,⟨false,false⟩⟩]).map (fun s =>
          (s.heap.entries .signal memberSlot.delegateKey .receiver,s.heap.alive .receiver)) =
      some (1,false) := by
  let _ := linearSearch
  refine ⟨fun atomic => ?_,by decide +kernel⟩
  have possible : (Storage.step doubled partyLayout .st (Storage.initial fun _ => true)
      exhaustedCall).isSome = true := by decide +kernel
  obtain ⟨next,taken⟩ := Option.isSome_iff_exists.mp possible
  have follows := (Storage.atomicExactly taken).mp (atomic next taken).1
  exact absurd (follows .signal memberSlot .receiver rfl rfl) (by decide +kernel)

end SignalSlot.Allocation
