import SignalSlot.Library.GuardedRun
import SignalSlot.NanoEntries

/-! One signal that is nobody's receiver. Its vector refines a bag of slots: the
bag lists the connected slots in connect order, the vector holds the same slots
sorted by Z_Order, equal keys in the order of the bag. -/
namespace SignalSlot.SlotBag
open PartitionSearch GuardedRun Heap

variable {w : Nat} {Obj : Type}

inductive Call (w : Nat) where
  | connect (slot : Function w)
  | disconnect (slot : Function w)
  | disconnectAll
  | fire
  deriving DecidableEq, Repr

def entry (layout : Layout w Obj) (s : Obj) (slot : Function w) : Connection w Obj :=
  ⟨slot.delegateKey,(layout.observerOf slot.delegateKey).getD s⟩

def Call.cuts (key : DelegateKey w) : Call w → Bool
  | .connect _ | .fire => false
  | .disconnect slot => slot.delegateKey = key
  | .disconnectAll => true

/-- The connects that no later call has cut, in the order in which they were made. -/
def surviving (layout : Layout w Obj) (s : Obj) : List (Call w) → List (Connection w Obj)
  | [] => []
  | .connect slot::later =>
      if later.any (Call.cuts slot.delegateKey) then surviving layout s later
      else entry layout s slot::surviving layout s later
  | .disconnect _::later | .disconnectAll::later | .fire::later => surviving layout s later

def bagStep (layout : Layout w Obj) (s : Obj) (bag : List (Connection w Obj)) (call : Call w) :
    List (Connection w Obj) := match call with
  | .connect slot => bag ++ [entry layout s slot]
  | .disconnect slot => bag.filter (fun e => decide (e.delegate ≠ slot.delegateKey))
  | .disconnectAll => []
  | .fire => bag

theorem bagSteps (layout : Layout w Obj) (s : Obj) (calls : List (Call w)) (bag) :
    calls.foldl (bagStep layout s) bag =
      bag.filter (fun e => !calls.any (Call.cuts e.delegate)) ++ surviving layout s calls := by
  induction calls generalizing bag with
  | nil => simp [surviving]
  | cons call later ih =>
    rw [List.foldl_cons,ih]
    cases call with
    | connect slot =>
      by_cases cut : later.any (Call.cuts slot.delegateKey) = true
      · simp [bagStep,surviving,Call.cuts,entry,cut]
      · simp [bagStep,surviving,Call.cuts,entry,Bool.eq_false_of_not_eq_true cut]
    | disconnect slot =>
      simp only [bagStep,surviving,List.any_cons,Call.cuts,List.filter_filter]
      congr 1
      refine List.filter_congr (fun e _ => ?_)
      by_cases same : slot.delegateKey = e.delegate
      · simp [same]
      · simp [same,Ne.symm same]
    | disconnectAll => simp [bagStep,surviving,Call.cuts]
    | fire => simp [bagStep,surviving,Call.cuts]

/-- The vector holds the bag: the same entries under each key, in the same order. -/
def Holds (c : Connections w Obj) (bag : List (Connection w Obj)) : Prop :=
  ∀ key, c.slots.filter (fun e => decide (e.delegate = key)) =
    bag.filter (fun e => decide (e.delegate = key))

theorem holdsPerm [DecidableEq Obj] {c : Connections w Obj} {bag} (holds : Holds c bag) :
    c.slots.Perm bag := by
  refine List.perm_iff_count.mpr (fun e => ?_)
  have same := congrArg (List.count e) (holds e.delegate)
  rwa [List.count_filter (by simp),List.count_filter (by simp)] at same

section Step
variable [DecidableEq Obj] [BinarySearch] {layout : Layout w Obj} {policy : Policy} {s : Obj}
  {h out : Heap w Obj} {c : Connections w Obj} {bag : List (Connection w Obj)}

-- `fire` leaves the heap as it is; what it calls is said by `Heap.fire`.
def callStep (layout : Layout w Obj) (policy : Policy) (s : Obj) (h : Heap w Obj) :
    Call w → Option (Heap w Obj)
  | .connect slot => h.connect layout s slot
  | .disconnect slot => h.disconnect layout s slot
  | .disconnectAll => h.disconnectAll policy s
  | .fire => do
      let _ ← h.fire policy s
      some h

def Named (layout : Layout w Obj) (s : Obj) (h : Heap w Obj) : Call w → Prop
  | .connect slot | .disconnect slot => ∀ receiver,
      layout.observerOf slot.delegateKey = some receiver → receiver ≠ s ∧ h.alive receiver = true
  | .disconnectAll | .fire => True

omit [DecidableEq Obj] [BinarySearch] in
theorem namedAlive (same : ∀ y, out.alive y = h.alive y) {call} (named : Named layout s h call) :
    Named layout s out call := by
  cases call with
  | connect slot | disconnect slot => simpa only [Named,same] using named
  | disconnectAll | fire => trivial

structure Refines (s : Obj) (h : Heap w Obj) (bag : List (Connection w Obj)) : Prop where
  vector : ∃ c, h s = some c ∧ Holds c bag
  live : ∀ e ∈ bag, h.alive e.observer = true

theorem connectVector (found : h s = some c) {slot}
    (other : ∀ receiver, layout.observerOf slot.delegateKey = some receiver → receiver ≠ s)
    (ok : connect layout h s slot = some out) :
    out s = some (c.insert slot.delegateKey (entry layout s slot).observer) := by
  rcases connectCases ok with ⟨receiver,only⟩ | ⟨o,mid,receiver,first,second⟩
  · obtain ⟨c',same,rfl⟩ := applyInsert only
    cases Option.some.inj (same.symm.trans found)
    simp [store,entry,receiver]
  · rw [applyOther second (Ne.symm (other o receiver))]
    obtain ⟨c',same,rfl⟩ := applyInsert first
    cases Option.some.inj (same.symm.trans found)
    simp [store,entry,receiver]

theorem disconnectVector (found : h s = some c) {slot}
    (other : ∀ receiver, layout.observerOf slot.delegateKey = some receiver → receiver ≠ s)
    (ok : disconnect layout h s slot = some out) : out s = some (c.remove slot.delegateKey) := by
  rcases disconnectCases ok with ⟨receiver,only⟩ | ⟨o,mid,receiver,first,second⟩
  · obtain ⟨c',same,rfl⟩ := applyRemove only
    cases Option.some.inj (same.symm.trans found)
    simp [store]
  · rw [applyOther second (Ne.symm (other o receiver))]
    obtain ⟨c',same,rfl⟩ := applyRemove first
    cases Option.some.inj (same.symm.trans found)
    simp [store]

omit [BinarySearch] in
theorem holdsMember (holds : Holds c bag) {e} : e ∈ c.slots ↔ e ∈ bag := (holdsPerm holds).mem_iff

theorem stepRefines (refines : Refines s h bag) {call} (named : Named layout s h call)
    (ok : callStep layout policy s h call = some out) :
    Refines s out (bagStep layout s bag call) ∧ ∀ y, out.alive y = h.alive y := by
  obtain ⟨⟨c,found,holds⟩,live⟩ := refines
  have here : h.alive s = true := by simp [alive,found]
  cases call with
  | connect slot =>
    obtain ⟨same,_⟩ := connectEffect ok
    refine ⟨⟨⟨_,connectVector found (fun r hr => (named r hr).1) ok,fun key => ?_⟩,?_⟩,same⟩
    · rw [Connections.insertOfKey,holds key]
      by_cases equal : slot.delegateKey = key <;> simp [bagStep,entry,equal]
    · intro e mem
      rw [same]
      rcases List.mem_append.mp mem with old | new
      · exact live e old
      · rw [List.mem_singleton.mp new]
        cases receiver : layout.observerOf slot.delegateKey with
        | none => simpa [entry,receiver] using here
        | some o => simpa [entry,receiver] using (named o receiver).2
  | disconnect slot =>
    obtain ⟨same,_⟩ := disconnectEffect ok
    refine ⟨⟨⟨_,disconnectVector found (fun r hr => (named r hr).1) ok,fun key => ?_⟩,?_⟩,same⟩
    · rw [Connections.removeSlots,bagStep,List.filter_comm,holds key,List.filter_comm]
    · intro e mem
      rw [same]
      exact live e (List.mem_filter.mp mem).1
  | disconnectAll =>
    obtain ⟨same,_⟩ := disconnectAllEffect ok
    obtain ⟨_,visited,_,_,rfl⟩ := disconnectAllCases ok
    exact ⟨⟨⟨.empty,by simp [store],fun key => rfl⟩,by simp [bagStep]⟩,same⟩
  | fire =>
    simp only [callStep,bind,Option.bind_eq_some_iff] at ok
    obtain ⟨called,_,last⟩ := ok
    cases Option.some.inj last
    exact ⟨⟨⟨c,found,holds⟩,live⟩,fun _ => rfl⟩

omit [BinarySearch] in
theorem fireCalls (refines : Refines s h bag) (found : h s = some c) :
    fire policy h s = some (c.slots.map Connection.delegate) := by
  obtain ⟨⟨c',found',holds⟩,live⟩ := refines
  cases Option.some.inj (found.symm.trans found')
  simp only [fire,found,bind,Option.bind]
  rw [List.filter_eq_self.mpr]
  intro e mem
  rw [live e ((holdsMember holds).mp mem)]
  cases policy <;> rfl

theorem stepPossible (policy : Policy) (refines : Refines s h bag) {call} (named : Named layout s h call) :
    (callStep layout policy s h call).isSome = true := by
  obtain ⟨c,found,holds⟩ := refines.vector
  have here : h.alive s = true := by simp [alive,found]
  cases call with
  | connect slot => exact connectPossible here (fun o receiver => (named o receiver).2)
  | disconnect slot => exact disconnectPossible here (fun o receiver => (named o receiver).2)
  | disconnectAll =>
    exact disconnectAllPossible policy found (fun e mem _ => refines.live e ((holdsMember holds).mp mem))
  | fire => simp [callStep,fire,found]

theorem runRefines (policy : Policy) (refines : Refines s h bag) {calls : List (Call w)}
    (named : ∀ call ∈ calls, Named layout s h call) :
    ∃ out, run (callStep layout policy s) h calls = some out ∧
      Refines s out (calls.foldl (bagStep layout s) bag) ∧ ∀ y, out.alive y = h.alive y := by
  induction calls generalizing h bag with
  | nil => exact ⟨h,rfl,refines,fun _ => rfl⟩
  | cons call later ih =>
    have here := named call List.mem_cons_self
    obtain ⟨next,taken⟩ := Option.isSome_iff_exists.mp (stepPossible policy refines here)
    obtain ⟨after,same⟩ := stepRefines refines here taken
    obtain ⟨out,ran,result,still⟩ := ih after (fun c mem =>
      namedAlive same (named c (List.mem_cons_of_mem _ mem)))
    exact ⟨out,runCons.mpr ⟨next,taken,ran⟩,result,fun y => (still y).trans (same y)⟩

structure BagAfter (layout : Layout w Obj) (policy : Policy) (s : Obj) (h : Heap w Obj)
    (calls : List (Call w)) (out : Heap w Obj) (c : Connections w Obj) : Prop where
  ran : run (callStep layout policy s) h calls = some out
  vector : out s = some c
  sorted : NonDecreasing zOrder Connection.delegate c.slots
  exactly : c.slots.Perm (surviving layout s calls)
  connectOrder : ∀ key, c.slots.filter (fun e => decide (e.delegate = key)) =
    (surviving layout s calls).filter (fun e => decide (e.delegate = key))
  fires : fire policy out s = some (c.slots.map Connection.delegate)
  absent : ∀ slot, Named layout s h (.disconnect slot) →
    slot.delegateKey ∉ (surviving layout s calls).map Connection.delegate →
    ∃ after, disconnect layout out s slot = some after ∧ after s = out s

theorem vectorRefinesBag (layout : Layout w Obj) (policy : Policy) (s : Obj) (h : Heap w Obj)
    (calls : List (Call w)) (fresh : h s = some .empty)
    (named : ∀ call ∈ calls, Named layout s h call) :
    ∃ out c, BagAfter layout policy s h calls out c := by
  have start : Refines s h [] := ⟨⟨.empty,fresh,fun _ => rfl⟩,by simp⟩
  obtain ⟨out,ran,refines,same⟩ := runRefines policy start named
  rw [bagSteps] at refines
  simp only [List.filter_nil,List.nil_append] at refines
  obtain ⟨c,found,holds⟩ := refines.vector
  refine ⟨out,c,ran,found,c.nonDecreasing,holdsPerm holds,holds,fireCalls refines found,?_⟩
  intro slot names absent
  have still := namedAlive same names
  obtain ⟨after,ok⟩ := Option.isSome_iff_exists.mp (stepPossible policy refines still)
  refine ⟨after,ok,?_⟩
  rw [disconnectVector found (fun r hr => (still r hr).1) ok,found,Connections.removeAbsent]
  intro mem
  obtain ⟨e,held,same⟩ := List.mem_map.mp mem
  exact absent (List.mem_map.mpr ⟨e,(holdsMember holds).mp held,same⟩)

end Step

/-! A signal with a tracked receiver and a function object. -/
def trackedCalls : List (Call 64) :=
  [.connect (.bindInstance 0x7 0x1000),.connect (.bindInstance 0x9 0x3000),.fire,
    .connect (.bindInstance 0x7 0x1000),.disconnect (.bindInstance 0x9 0x3000)]

theorem trackedCallsRefineBag :
    ∃ out c, @BagAfter _ _ _ linearSearch partyLayout .st .signal (Heap.initial fun _ => true)
      trackedCalls out c := by
  refine @vectorRefinesBag _ _ _ linearSearch partyLayout .st .signal _ trackedCalls rfl ?_
  have tracked : Named partyLayout .signal (Heap.initial fun _ => true)
      (.connect (.bindInstance 0x7 0x1000)) := by
    intro r found
    cases Option.some.inj ((by decide : partyLayout.observerOf _ = some .receiver).symm.trans found)
    decide
  have untracked (slot : Function 64) (none : partyLayout.observerOf slot.delegateKey = none) :
      ∀ r, partyLayout.observerOf slot.delegateKey = some r →
        r ≠ .signal ∧ (Heap.initial (w := 64) fun _ => true).alive r = true := by
    intro r found
    simp [none] at found
  simp only [trackedCalls,List.forall_mem_cons,List.not_mem_nil,false_implies,implies_true,and_true]
  exact ⟨tracked,untracked _ (by decide),trivial,tracked,untracked _ (by decide)⟩

end SignalSlot.SlotBag
