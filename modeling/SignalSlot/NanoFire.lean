import SignalSlot.Library.GuardedRun
import SignalSlot.NanoEntries

/-! What a fire calls. Outgoing slots and the references that an object keeps as a
receiver stand in the same vector with the same type, and a fire does not tell
them apart. The abstract state beside the heap is the list of slots that were
connected through each signal and have not been disconnected since. -/
namespace SignalSlot.Fire
open PartitionSearch GuardedRun Heap

variable {w : Nat} {Obj : Type} [DecidableEq Obj]

abbrev Connected (w : Nat) (Obj : Type) := Obj → List (DelegateKey w)

structure State (w : Nat) (Obj : Type) where
  heap : Heap w Obj
  connected : Connected w Obj

/-- A slot is disconnected by its signal, and by its receiver for all signals. -/
def connectedStep (layout : Layout w Obj) (connected : Connected w Obj) : Op w Obj → Connected w Obj
  | .connect s slot => Function.update connected s (connected s ++ [slot.delegateKey])
  | .disconnect s slot =>
      Function.update connected s ((connected s).filter (fun k => decide (k ≠ slot.delegateKey)))
  | .disconnectAll x | .destroy x => fun s =>
      if s = x then [] else (connected s).filter (fun k => decide (layout.observerOf k ≠ some x))

def stepBoth [BinarySearch] (layout : Layout w Obj) (s : State w Obj) (op : Op w Obj) :
    Option (State w Obj) := do
  let heap ← s.heap.step layout .st op
  some ⟨heap,connectedStep layout s.connected op⟩

def initialState (live : Obj → Bool) : State w Obj := ⟨Heap.initial live,fun _ => []⟩

inductive Returns (relay : DelegateKey w → Option Obj) (h : Heap w Obj) : Obj → Prop where
  | fire {s called} (calls : Heap.fire .st h s = some called)
      (nested : ∀ k ∈ called, ∀ r, relay k = some r → Returns relay h r) : Returns relay h s

def FiredBy (relay : DelegateKey w → Option Obj) (connected : Connected w Obj) (r s : Obj) : Prop :=
  ∃ k ∈ connected s, relay k = some r

structure CallsConnected (layout : Layout w Obj) (relay : DelegateKey w → Option Obj)
    (s : State w Obj) : Prop where
  exactly : ∀ x, layout.isSignal x = true → s.heap.alive x = true →
    ∃ called, s.heap.fire .st x = some called ∧ called.Perm (s.connected x)
  returns : WellFounded (FiredBy relay s.connected) →
    (∀ x r, FiredBy relay s.connected r x → layout.isSignal r = true ∧ s.heap.alive r = true) →
    ∀ x, layout.isSignal x = true → s.heap.alive x = true → Returns relay s.heap x

/-- No receiver is a signal, and an object that disconnects everything still holds
a reference for every signal that holds an entry of it. -/
def FindsAllPeers (layout : Layout w Obj) (s : State w Obj) : Op w Obj → Prop
  | .connect _ slot => ∀ o, layout.observerOf slot.delegateKey = some o → layout.isSignal o = false
  | .disconnect _ _ => True
  | .disconnectAll x | .destroy x => ∀ y k, layout.isSignal y = true → y ≠ x →
      layout.observerOf k = some x → 0 < s.heap.entries y k x → 0 < s.heap.entries x k y

def target (layout : Layout w Obj) (s : Obj) (key : DelegateKey w) : Obj :=
  (layout.observerOf key).getD s

structure Inv (layout : Layout w Obj) (s : State w Obj) : Prop where
  outgoing : ∀ x k p, layout.isSignal x = true → s.heap.alive x = true →
    s.heap.entries x k p = if p = target layout x k then (s.connected x).count k else 0
  receivers : ∀ x k o, layout.isSignal x = true → s.heap.alive x = true → k ∈ s.connected x →
    layout.observerOf k = some o → s.heap.alive o = true ∧ layout.isSignal o = false
  incoming : ∀ x k p, layout.isSignal x = false → 0 < s.heap.entries x k p →
    layout.observerOf k = some x ∧ layout.isSignal p = true ∧ s.heap.alive p = true ∧
    k ∈ s.connected p

theorem initialInv (layout : Layout w Obj) (live : Obj → Bool) :
    Inv layout (initialState live) := by
  constructor
  · intro x k p _ _
    simp [initialState]
  · intro x k o _ _ mem
    simp [initialState] at mem
  · intro x k p _ held
    simp [initialState] at held

/-! The calls of a fire, counted by key. -/
theorem countDelegates {slots : List (Connection w Obj)} {key : DelegateKey w} {t : Obj}
    (only : ∀ e ∈ slots, e.delegate = key → e.observer = t) :
    (slots.map Connection.delegate).count key = slots.count ⟨key,t⟩ := by
  induction slots with
  | nil => rfl
  | cons e rest ih =>
    have later := ih (fun e mem => only e (List.mem_cons_of_mem _ mem))
    have head := only e List.mem_cons_self
    cases e with | mk delegate observer =>
    rw [List.map_cons,List.count_cons,List.count_cons,later]
    by_cases same : delegate = key
    · simp_all
    · simp [same]

theorem countTwoObservers {slots : List (Connection w Obj)} {key : DelegateKey w} {p q : Obj}
    (different : p ≠ q) : slots.count ⟨key,p⟩ + slots.count ⟨key,q⟩ ≤
      (slots.map Connection.delegate).count key := by
  induction slots with
  | nil => simp
  | cons e rest ih =>
    cases e with | mk delegate observer =>
    rw [List.map_cons,List.count_cons,List.count_cons,List.count_cons]
    by_cases same : delegate = key
    · by_cases left : observer = p
      · have right : observer ≠ q := fun h => different (left.symm.trans h)
        simp only [same,left,beq_self_eq_true,if_true,Connection.mk.injEq,beq_iff_eq,true_and,different,
          if_false]
        omega
      · simp only [same,beq_self_eq_true,if_true,Connection.mk.injEq,beq_iff_eq,true_and,left,if_false]
        split <;> omega
    · simp only [beq_iff_eq,Connection.mk.injEq,same,false_and,if_false]
      omega

omit [DecidableEq Obj] in
theorem fireOf {h : Heap w Obj} {x called} :
    Heap.fire .st h x = some called ↔ ∃ c, h x = some c ∧ c.slots.map Connection.delegate = called := by
  simp [fire,Policy.observed,bind,Option.bind_eq_some_iff]

theorem callsOfInv {layout : Layout w Obj} {s : State w Obj} (inv : Inv layout s) {x}
    (signal : layout.isSignal x = true) (live : s.heap.alive x = true) :
    ∃ called, s.heap.fire .st x = some called ∧ called.Perm (s.connected x) := by
  obtain ⟨c,found⟩ := Option.isSome_iff_exists.mp live
  refine ⟨c.slots.map Connection.delegate,fireOf.mpr ⟨c,found,rfl⟩,List.perm_iff_count.mpr ?_⟩
  intro k
  have counted := entriesFound found k
  have only : ∀ e ∈ c.slots, e.delegate = k → e.observer = target layout x k := by
    rintro ⟨delegate,observer⟩ mem rfl
    by_contra other
    have absent := inv.outgoing x delegate observer signal live
    rw [if_neg other,counted] at absent
    exact absurd mem (List.count_eq_zero.mp absent)
  rw [countDelegates only,← counted,inv.outgoing x k _ signal live,if_pos rfl]

omit [DecidableEq Obj] in
theorem returnsOfCalls {layout : Layout w Obj} {relay : DelegateKey w → Option Obj} {s : State w Obj}
    (exactly : ∀ x, layout.isSignal x = true → s.heap.alive x = true →
      ∃ called, s.heap.fire .st x = some called ∧ called.Perm (s.connected x))
    (acyclic : WellFounded (FiredBy relay s.connected))
    (live : ∀ x r, FiredBy relay s.connected r x → layout.isSignal r = true ∧ s.heap.alive r = true)
    (x : Obj) (signal : layout.isSignal x = true) (here : s.heap.alive x = true) :
    Returns relay s.heap x := by
  induction x using acyclic.induction with
  | h x ih =>
    obtain ⟨called,calls,perm⟩ := exactly x signal here
    refine .fire calls (fun k mem r fires => ?_)
    have edge : FiredBy relay s.connected r x := ⟨k,perm.mem_iff.mp mem,fires⟩
    obtain ⟨signalR,liveR⟩ := live x r edge
    exact ih r edge signalR liveR

theorem callsConnectedOfInv {layout : Layout w Obj} (relay : DelegateKey w → Option Obj)
    {s : State w Obj} (inv : Inv layout s) : CallsConnected layout relay s :=
  ⟨fun _ signal live => callsOfInv inv signal live,
    returnsOfCalls (fun _ signal live => callsOfInv inv signal live)⟩

theorem connectedOfCalls {layout : Layout w Obj} {relay : DelegateKey w → Option Obj} {s : State w Obj}
    (calls : CallsConnected layout relay s) {x} (signal : layout.isSignal x = true)
    (live : s.heap.alive x = true) (k : DelegateKey w) :
    (∀ p, s.heap.entries x k p ≤ (s.connected x).count k) ∧
    (∀ p q, p ≠ q → s.heap.entries x k p + s.heap.entries x k q ≤ (s.connected x).count k) := by
  obtain ⟨called,fired,perm⟩ := calls.exactly x signal live
  obtain ⟨c,found,rfl⟩ := fireOf.mp fired
  have counted := entriesFound found k
  have total := perm.count_eq k
  constructor
  · intro p
    rw [counted,← total]
    exact List.count_le_count_map (l := c.slots) (f := Connection.delegate) (x := ⟨k,p⟩)
  · intro p q different
    rw [counted,counted,← total]
    exact countTwoObservers different

/-! What a step makes of the connected slots. -/
section Connected
variable {layout : Layout w Obj} {connected : Connected w Obj} {x : Obj} {slot : Function w}

theorem countConnect (y : Obj) (k : DelegateKey w) :
    (connectedStep layout connected (.connect x slot) y).count k =
      (connected y).count k + if y = x ∧ k = slot.delegateKey then 1 else 0 := by
  by_cases here : y = x
  · subst here
    by_cases same : k = slot.delegateKey
    · simp [connectedStep,same]
    · simp [connectedStep,List.count_append,same,Ne.symm same]
  · simp [connectedStep,here]

theorem memConnect (y : Obj) (k : DelegateKey w) :
    k ∈ connectedStep layout connected (.connect x slot) y ↔
      k ∈ connected y ∨ (y = x ∧ k = slot.delegateKey) := by
  by_cases here : y = x
  · subst here
    simp [connectedStep]
  · simp [connectedStep,here]

theorem countDisconnect (y : Obj) (k : DelegateKey w) :
    (connectedStep layout connected (.disconnect x slot) y).count k =
      if y = x ∧ k = slot.delegateKey then 0 else (connected y).count k := by
  by_cases here : y = x
  · subst here
    by_cases same : k = slot.delegateKey
    · subst same
      simp [connectedStep,List.count_eq_zero]
    · simp [connectedStep,same,List.count_filter]
  · simp [connectedStep,here]

theorem memDisconnect (y : Obj) (k : DelegateKey w) :
    k ∈ connectedStep layout connected (.disconnect x slot) y ↔
      k ∈ connected y ∧ ¬ (y = x ∧ k = slot.delegateKey) := by
  rw [← List.count_pos_iff,countDisconnect,← List.count_pos_iff]
  split <;> simp_all

theorem connectedForgotten {y : Obj} (other : y ≠ x) :
    connectedStep layout connected (.disconnectAll x) y =
      (connected y).filter (fun k => decide (layout.observerOf k ≠ some x)) := by
  simp [connectedStep,other]

end Connected

section Steps
variable [BinarySearch] {layout : Layout w Obj} {relay : DelegateKey w → Option Obj}
  {s out : State w Obj}

theorem stepBothCases {op} (ok : stepBoth layout s op = some out) :
    Callable layout s.heap op ∧ exec layout .st s.heap op = some out.heap ∧
      out.connected = connectedStep layout s.connected op := by
  simp only [stepBoth,bind,Option.bind_eq_some_iff,Option.some.injEq] at ok
  obtain ⟨heap,ran,rfl⟩ := ok
  exact ⟨(stepPossible ran).1,(stepPossible ran).2,rfl⟩

theorem connectKeeps (inv : Inv layout s) {x slot} (callable : Callable layout s.heap (.connect x slot))
    (ran : connect layout s.heap x slot = some out.heap)
    (after : out.connected = connectedStep layout s.connected (.connect x slot))
    (fits : FindsAllPeers layout s (.connect x slot)) : Inv layout out := by
  obtain ⟨live,entered⟩ := connectEffect ran
  obtain ⟨signalX,liveX,liveReceiver⟩ := callable
  constructor
  · intro y k p signal liveY
    rw [live] at liveY
    rw [entered,after,countConnect,inv.outgoing y k p signal liveY]
    cases receiver : layout.observerOf slot.delegateKey with
    | some o =>
      have notReceiver : y ≠ o := by
        rintro rfl
        simp [fits y receiver] at signal
      by_cases same : y = x ∧ k = slot.delegateKey
      · obtain ⟨rfl,rfl⟩ := same
        by_cases peer : p = o <;> simp [target,receiver,peer,notReceiver]
      · grind
    | none =>
      by_cases same : y = x ∧ k = slot.delegateKey
      · obtain ⟨rfl,rfl⟩ := same
        by_cases peer : p = y <;> simp [target,receiver,peer]
      · grind
  · intro y k o signal liveY mem receiver
    rw [live] at liveY
    rw [live]
    rw [after] at mem
    rcases (memConnect y k).mp mem with old | ⟨rfl,rfl⟩
    · exact inv.receivers y k o signal liveY old receiver
    · exact ⟨liveReceiver o receiver,fits o receiver⟩
  · intro y k p plain held
    rw [entered] at held
    rw [live,after,memConnect]
    by_cases old : 0 < s.heap.entries y k p
    · obtain ⟨own,signal,liveP,mem⟩ := inv.incoming y k p plain old
      exact ⟨own,signal,liveP,.inl mem⟩
    · have notSignal : y ≠ x := by
        rintro rfl
        simp [signalX] at plain
      cases receiver : layout.observerOf slot.delegateKey <;> grind

theorem disconnectKeeps (inv : Inv layout s) {x slot}
    (callable : Callable layout s.heap (.disconnect x slot))
    (ran : disconnect layout s.heap x slot = some out.heap)
    (after : out.connected = connectedStep layout s.connected (.disconnect x slot)) :
    Inv layout out := by
  obtain ⟨live,entered⟩ := disconnectEffect ran
  obtain ⟨signalX,liveX,liveReceiver⟩ := callable
  constructor
  · intro y k p signal liveY
    rw [live] at liveY
    rw [entered,after,countDisconnect,inv.outgoing y k p signal liveY]
    -- A signal is nobody's receiver, so what the receiver forgets is not outgoing.
    have unused : layout.observerOf slot.delegateKey = some y →
        (s.connected y).count slot.delegateKey = 0 := by
      intro own
      refine List.count_eq_zero.mpr (fun mem => ?_)
      have plain := (inv.receivers y _ y signal liveY mem own).2
      simp [signal] at plain
    grind
  · intro y k o signal liveY mem receiver
    rw [live] at liveY
    rw [live]
    rw [after] at mem
    exact inv.receivers y k o signal liveY ((memDisconnect y k).mp mem).1 receiver
  · intro y k p plain held
    rw [entered] at held
    rw [live,after,memDisconnect]
    split at held
    · simp at held
    · next kept =>
      obtain ⟨own,signal,liveP,mem⟩ := inv.incoming y k p plain held
      refine ⟨own,signal,liveP,mem,?_⟩
      rintro ⟨rfl,rfl⟩
      exact kept ⟨rfl,.inr own⟩

-- A signal that `x` visits held an entry of `x` under that key.
omit [BinarySearch] in
theorem visitedOwn (inv : Inv layout s) {x y k} (liveX : s.heap.alive x = true) (other : y ≠ x)
    (signal : layout.isSignal y = true) (held : 0 < s.heap.entries x k y) :
    layout.observerOf k = some x := by
  cases kind : layout.isSignal x with
  | false => exact (inv.incoming x k y kind held).1
  | true =>
    rw [inv.outgoing x k y kind liveX] at held
    split at held
    · next own =>
      cases receiver : layout.observerOf k with
      | none => exact absurd (by simpa [target,receiver] using own) other
      | some o =>
        have same : y = o := by simpa [target,receiver] using own
        subst same
        have plain := (inv.receivers x k y kind liveX (List.count_pos_iff.mp held) receiver).2
        simp [signal] at plain
    · simp at held

omit [BinarySearch] in
theorem forgetsOutgoing (inv : Inv layout s) {x y k p} (forgets : Forgets x s.heap out.heap)
    (after : out.connected = connectedStep layout s.connected (.disconnectAll x))
    (liveX : s.heap.alive x = true) (fits : FindsAllPeers layout s (.disconnectAll x))
    (signal : layout.isSignal y = true) (other : y ≠ x) (liveY : s.heap.alive y = true) :
    out.heap.entries y k p = if p = target layout y k then (out.connected y).count k else 0 := by
  have before := inv.outgoing y k p signal liveY
  rw [forgets,after,connectedForgotten other]
  by_cases own : layout.observerOf k = some x
  · have gone : ((s.connected y).filter (fun k => decide (layout.observerOf k ≠ some x))).count k = 0 :=
      List.count_eq_zero.mpr (fun mem => by simp [own] at mem)
    have found := fits y k signal other own
    have here : target layout y k = x := by simp [target,own]
    rw [gone]
    by_cases peer : p = x
    · subst peer
      grind
    · grind
  · have same : ((s.connected y).filter (fun k => decide (layout.observerOf k ≠ some x))).count k =
        (s.connected y).count k := List.count_filter (by simpa using own)
    have unvisited : ¬ 0 < s.heap.entries x k y := fun held => own (visitedOwn inv liveX other signal held)
    rw [same,if_neg (not_or.mpr ⟨other,unvisited⟩),before]

omit [BinarySearch] in
theorem forgetsKeeps (inv : Inv layout s) {x : Obj}
    (live : ∀ y, y ≠ x → out.heap.alive y = s.heap.alive y)
    (forgets : Forgets x s.heap out.heap)
    (after : out.connected = connectedStep layout s.connected (.disconnectAll x))
    (liveX : s.heap.alive x = true)
    (fits : FindsAllPeers layout s (.disconnectAll x)) : Inv layout out := by
  have connectedX : out.connected x = [] := by simp [after,connectedStep]
  constructor
  · intro y k p signal liveY
    by_cases other : y = x
    · subst other
      rw [forgets]
      simp [connectedX]
    · rw [live y other] at liveY
      exact forgetsOutgoing inv forgets after liveX fits signal other liveY
  · intro y k o signal liveY mem receiver
    by_cases other : y = x
    · subst other
      simp [connectedX] at mem
    · rw [live y other] at liveY
      rw [after,connectedForgotten other] at mem
      obtain ⟨old,kept⟩ := List.mem_filter.mp mem
      have notX : o ≠ x := by
        rintro rfl
        simp [receiver] at kept
      rw [live o notX]
      exact inv.receivers y k o signal liveY old receiver
  · intro y k p plain held
    rw [forgets] at held
    split at held
    · simp at held
    · next kept =>
      obtain ⟨notX,unvisited⟩ := not_or.mp kept
      obtain ⟨own,signal,liveP,mem⟩ := inv.incoming y k p plain held
      have other : p ≠ x := by
        rintro rfl
        refine unvisited ?_
        rw [inv.outgoing p k y signal liveP,if_pos (by simp [target,own])]
        exact List.count_pos_iff.mpr mem
      rw [live p other,after,connectedForgotten other]
      refine ⟨own,signal,liveP,List.mem_filter.mpr ⟨mem,?_⟩⟩
      simp only [own,ne_eq,Option.some.injEq,decide_eq_true_eq]
      exact notX

theorem stepKeeps (inv : Inv layout s) {op} (fits : FindsAllPeers layout s op)
    (ok : stepBoth layout s op = some out) : Inv layout out := by
  obtain ⟨callable,ran,after⟩ := stepBothCases ok
  cases op with
  | connect x slot => exact connectKeeps inv callable ran after fits
  | disconnect x slot => exact disconnectKeeps inv callable ran after
  | disconnectAll x =>
    obtain ⟨live,forgets⟩ := disconnectAllEffect ran
    exact forgetsKeeps inv (fun y _ => live y) forgets after callable fits
  | destroy x =>
    obtain ⟨live,forgets⟩ := destroyEffect ran
    exact forgetsKeeps inv (fun y other => by simp [live,other]) forgets after callable fits

theorem connectNeeded (inv : Inv layout s) {x slot} (callable : Callable layout s.heap (.connect x slot))
    (ran : connect layout s.heap x slot = some out.heap)
    (after : out.connected = connectedStep layout s.connected (.connect x slot))
    (calls : CallsConnected layout relay out) : FindsAllPeers layout s (.connect x slot) := by
  obtain ⟨live,entered⟩ := connectEffect ran
  obtain ⟨signalX,liveX,liveReceiver⟩ := callable
  intro o receiver
  by_contra kind
  have signal : layout.isSignal o = true := Bool.eq_true_of_not_eq_false kind
  have liveO := liveReceiver o receiver
  have bound := connectedOfCalls calls signal (by rw [live]; exact liveO) slot.delegateKey
  have before := fun p => inv.outgoing o slot.delegateKey p signal liveO
  have own : target layout o slot.delegateKey = o := by simp [target,receiver]
  simp only [entered,receiver] at bound
  by_cases self : o = x
  · -- The signal is its own receiver: two entries for one connect.
    subst self
    have two := bound.1 o
    rw [before,own] at two
    simp [after,connectedStep,List.count_append] at two
  · have two := bound.2 o x self
    rw [before,before,own] at two
    simp only [if_true,if_false,self,and_self,and_true,and_false,Nat.add_zero,Nat.zero_add,Ne.symm self,after,
      connectedStep,ne_eq,not_false_eq_true,Function.update_of_ne] at two
    omega

omit [BinarySearch] in
theorem forgetsNeeded {x : Obj} (live : ∀ y, y ≠ x → out.heap.alive y = s.heap.alive y)
    (forgets : Forgets x s.heap out.heap)
    (after : out.connected = connectedStep layout s.connected (.disconnectAll x))
    (calls : CallsConnected layout relay out) : FindsAllPeers layout s (.disconnectAll x) := by
  intro y k signal other own held
  by_contra unvisited
  have liveY : out.heap.alive y = true := by
    rw [live y other]
    exact aliveOfEntry held
  have bound := (connectedOfCalls calls signal liveY k).1 x
  rw [forgets,if_neg (not_or.mpr ⟨other,unvisited⟩)] at bound
  have gone : (out.connected y).count k = 0 :=
    List.count_eq_zero.mpr (fun mem => by simp [after,connectedStep,other,own] at mem)
  omega

theorem stepNeeded (inv : Inv layout s) {op} (ok : stepBoth layout s op = some out)
    (calls : CallsConnected layout relay out) : FindsAllPeers layout s op := by
  obtain ⟨callable,ran,after⟩ := stepBothCases ok
  cases op with
  | connect x slot => exact connectNeeded inv callable ran after calls
  | disconnect x slot => trivial
  | disconnectAll x =>
    obtain ⟨live,forgets⟩ := disconnectAllEffect ran
    exact forgetsNeeded (fun y _ => live y) forgets after calls
  | destroy x =>
    obtain ⟨live,forgets⟩ := destroyEffect ran
    exact forgetsNeeded (fun y other => by simp [live,other]) forgets after calls

theorem callsConnectedExactly (layout : Layout w Obj) (relay : DelegateKey w → Option Obj)
    (live : Obj → Bool) (ops : List (Op w Obj)) :
    EveryState (stepBoth layout) (CallsConnected layout relay) (initialState live) ops ↔
      EveryStep (stepBoth layout) (FindsAllPeers layout) (initialState live) ops :=
  everyStateExact (fun _ inv => callsConnectedOfInv relay inv)
    (fun _ _ _ inv fits ok => stepKeeps inv fits ok)
    (fun _ _ _ inv ok calls => stepNeeded inv ok calls) (initialInv layout live) ops

end Steps

/-! A signal is connected to the member function fire of a receiver that is a signal
too. Nothing is connected to the second one, but its fire calls itself through the
back-reference. -/
def relayLayout : Layout 64 Party := { partyLayout with isSignal := fun _ => true }

def relaySlot : Function 64 := .bindInstance 0x7 0x1000

def relayOf (key : DelegateKey 64) : Option Party :=
  if key = relaySlot.delegateKey then some .receiver else none

theorem selfCallLoops {h : Heap 64 Party} {x : Party} (returns : Returns relayOf h x)
    (calls : h.fire .st x = some [relaySlot.delegateKey]) : x ≠ .receiver := by
  induction returns with
  | @fire x called fires nested ih =>
    rintro rfl
    cases Option.some.inj (fires.symm.trans calls)
    exact ih relaySlot.delegateKey List.mem_cons_self .receiver (if_pos rfl) calls rfl

theorem backReferenceFired :
    ¬ EveryState (@stepBoth _ _ _ linearSearch relayLayout) (CallsConnected relayLayout relayOf)
      (initialState fun _ => true) [.connect .signal relaySlot] ∧
    ∃ out, run (@stepBoth _ _ _ linearSearch relayLayout) (initialState fun _ => true)
      [.connect .signal relaySlot] = some out ∧ out.connected .receiver = [] ∧
      ¬ Returns relayOf out.heap .receiver := by
  let _ := linearSearch
  have evaluated : (run (stepBoth relayLayout) (initialState fun _ => true)
      [.connect .signal relaySlot]).map (fun s =>
        (s.heap.fire .st .receiver,s.heap.alive .receiver,s.connected .receiver)) =
      some (some [relaySlot.delegateKey],true,[]) := by
    decide +kernel
  obtain ⟨out,ran,result⟩ := Option.map_eq_some_iff.mp evaluated
  simp only [Prod.mk.injEq] at result
  obtain ⟨calls,live,none⟩ := result
  refine ⟨fun every => ?_,out,ran,none,fun returns => selfCallLoops returns calls rfl⟩
  obtain ⟨called,fires,perm⟩ := (everyStatePrefix.mp every _ [] out rfl ran).exactly .receiver rfl live
  cases Option.some.inj (fires.symm.trans calls)
  simp [none] at perm

end SignalSlot.Fire
