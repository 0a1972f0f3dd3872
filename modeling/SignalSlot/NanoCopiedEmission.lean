import SignalSlot.Library.GuardedRun
import SignalSlot.NanoBackReferences

/-! Slots that call the library under ST_Policy_Safe, in one thread. Every emission
walks its own copy of the vector. Nothing counts references to the entries of a
copy: one whose receiver is destroyed before its turn is called all the same. -/
namespace SignalSlot.CopiedEmission
open PartitionSearch GuardedRun Heap

variable {w : Nat} {Obj : Type}

inductive Call (w : Nat) (Obj : Type) where
  | op (op : Op w Obj)
  | fire (signal : Obj)
  deriving DecidableEq, Repr

/-- The program itself or a slot with the calls that it still makes, or an emission
with the entries of its copy that it has not reached. -/
inductive Frame (w : Nat) (Obj : Type) where
  | running (slot : Option (Connection w Obj)) (program : List (Call w Obj))
  | emitting (rest : List (Connection w Obj))
  deriving DecidableEq

def Frame.copied : Frame w Obj → List (Connection w Obj)
  | .running _ _ => []
  | .emitting rest => rest

def Frame.executing : Frame w Obj → Option (Connection w Obj)
  | .running slot _ => slot
  | .emitting _ => none

structure State (w : Nat) (Obj : Type) where
  heap : Heap w Obj
  frames : List (Frame w Obj)

variable [DecidableEq Obj]

def start (live : Obj → Bool) (program : List (Call w Obj)) : State w Obj :=
  ⟨Heap.initial live,[.running none program]⟩

-- `body` is what the slot does if this step calls one.
def step [BinarySearch] (layout : Layout w Obj) (s : State w Obj) (body : List (Call w Obj)) :
    Option (State w Obj) := match s.frames with
  | [] => none
  | .running _ []::frames => some ⟨s.heap,frames⟩
  | .running slot (.op op::later)::frames => do
      let h ← Heap.step layout .stSafe s.heap op
      some ⟨h,.running slot later::frames⟩
  | .running slot (.fire signal::later)::frames => do
      let c ← s.heap signal
      some ⟨s.heap,.emitting c.slots::.running slot later::frames⟩
  | .emitting []::frames => some ⟨s.heap,frames⟩
  | .emitting (slot::rest)::frames =>
      if Policy.stSafe.observed (s.heap.alive slot.observer) then
        some ⟨s.heap,.running (some slot) body::.emitting rest::frames⟩
      else some ⟨s.heap,.emitting rest::frames⟩

def CallsLive (layout : Layout w Obj) (s : State w Obj) : Prop := match s.frames with
  | .emitting (slot::_)::_ => ∀ receiver ∈ layout.observerOf slot.delegate, s.heap.alive receiver = true
  | _ => True
instance (layout : Layout w Obj) : DecidablePred (CallsLive layout) := by
  intro s
  unfold CallsLive
  split <;> infer_instance

def nextCall (s : State w Obj) : Option (Call w Obj) := match s.frames with
  | .running _ (call::_)::_ => some call
  | _ => none

def Unreached (layout : Layout w Obj) (s : State w Obj) (x : Obj) : Prop :=
  ∀ frame ∈ s.frames, ∀ slot ∈ frame.copied, layout.observerOf slot.delegate ≠ some x

def KnowsHolders (layout : Layout w Obj) (h : Heap w Obj) (x : Obj) : Prop :=
  ∀ y, y ≠ x → ∀ c ∈ h y, ∀ slot ∈ c.slots, layout.observerOf slot.delegate = some x →
    0 < h.entries x slot.delegate y

/-- Nothing is destroyed while an emission in progress or another object still
refers to it. -/
def DestroysForgotten (layout : Layout w Obj) (s : State w Obj) (_ : List (Call w Obj)) : Prop :=
  match nextCall s with
  | some (.op (.destroy x)) => Unreached layout s x ∧ KnowsHolders layout s.heap x
  | _ => True

/-- What the programs are limited to: a slot is connected to one signal at a time,
and nothing is destroyed but receivers whose own slots are not executing. -/
def Limited (layout : Layout w Obj) (s : State w Obj) (_ : List (Call w Obj)) : Prop :=
  match nextCall s with
  | some (.op (.connect signal slot)) => ∀ receiver ∈ layout.observerOf slot.delegateKey,
      ∀ other, other ≠ signal → other ≠ receiver → s.heap.entries other slot.delegateKey receiver = 0
  | some (.op (.destroy x)) => layout.isSignal x = false ∧
      ∀ frame ∈ s.frames, ∀ slot ∈ frame.executing, layout.observerOf slot.delegate ≠ some x
  | _ => True

section Decide
variable [Fintype Obj] (layout : Layout w Obj) (s : State w Obj) (body : List (Call w Obj))

instance : Decidable (DestroysForgotten layout s body) := by
  unfold DestroysForgotten Unreached KnowsHolders
  split <;> infer_instance

instance : Decidable (Limited layout s body) := by
  unfold Limited
  split <;> infer_instance

end Decide

structure HeapInv (layout : Layout w Obj) (h : Heap w Obj) : Prop where
  stored : ∀ x k p, 0 < h.entries x k p →
    ∀ receiver, layout.observerOf k = some receiver → h.alive receiver = true
  owned : BackReferences.Owned layout h
  back : ∀ x k p, layout.observerOf k = some x → p ≠ x → 0 < h.entries x k p → 0 < h.entries p k x

structure Inv (layout : Layout w Obj) (s : State w Obj) : Prop where
  heap : HeapInv layout s.heap
  copied : ∀ frame ∈ s.frames, ∀ slot ∈ frame.copied,
    ∀ receiver, layout.observerOf slot.delegate = some receiver → s.heap.alive receiver = true

theorem startInv (layout : Layout w Obj) (live : Obj → Bool) (program : List (Call w Obj)) :
    Inv layout (start live program) := by
  refine ⟨⟨?_,?_,?_⟩,?_⟩
  · intro x k p held
    simp [start] at held
  · intro x k p held
    simp [start] at held
  · intro x k p _ _ held
    simp [start] at held
  · intro frame mem slot inside
    simp [start] at mem
    simp [mem,Frame.copied] at inside

theorem callsLive {layout : Layout w Obj} {s : State w Obj} (inv : Inv layout s) : CallsLive layout s := by
  unfold CallsLive
  split
  · next slot rest frames top =>
    exact inv.copied _ (by rw [top]; exact List.mem_cons_self) slot List.mem_cons_self
  · trivial

theorem heapNoDangling {layout : Layout w Obj} {h : Heap w Obj} (inv : HeapInv layout h) :
    BackReferences.NoDangling h := by
  intro x k p held
  by_cases same : x = p
  · subst same
    exact aliveOfEntry held
  · rcases inv.owned x k p held same with own | own
    · exact aliveOfEntry (inv.back x k p own (Ne.symm same) held)
    · exact inv.stored x k p held p own

section Steps
variable [BinarySearch] {layout : Layout w Obj} {h out : Heap w Obj}

omit [DecidableEq Obj] [BinarySearch] in
theorem copiedBelow {slot program frames} {frame : Frame w Obj} {e}
    (mem : frame ∈ Frame.running slot program::frames) (inside : e ∈ frame.copied) : frame ∈ frames := by
  rcases List.mem_cons.mp mem with rfl | below
  · cases inside
  · exact below

theorem connectKeeps (inv : HeapInv layout h) {s slot} (callable : Callable layout h (.connect s slot))
    (ok : connect layout h s slot = some out) : HeapInv layout out := by
  obtain ⟨live,entered⟩ := connectEffect ok
  obtain ⟨_,_,liveReceiver⟩ := callable
  refine ⟨?_,?_,?_⟩
  · intro x k p held receiver own
    rw [live]
    rcases connectEntry ok held with before | ⟨rfl,_⟩
    · exact inv.stored x k p before receiver own
    · exact liveReceiver receiver own
  · intro x k p held other
    rcases connectEntry ok held with before | ⟨rfl,⟨_,rfl,rfl⟩ | ⟨o,own,⟨rfl,rfl⟩ | ⟨rfl,rfl⟩⟩⟩
    · exact inv.owned x k p before other
    · exact absurd rfl other
    · exact .inr own
    · exact .inl own
  · intro x k p own other held
    rcases connectEntry ok held with before | ⟨rfl,⟨none,_,_⟩ | ⟨o,own',⟨rfl,rfl⟩ | ⟨rfl,rfl⟩⟩⟩
    · rw [entered]
      exact Nat.add_pos_left (inv.back x k p own other before) _
    · simp [none] at own
    · exact absurd (Option.some.inj (own'.symm.trans own)) other
    · rw [entered,own]
      simp only [and_self,if_true]
      omega

theorem disconnectKeeps (inv : HeapInv layout h) {s slot}
    (ok : disconnect layout h s slot = some out) : HeapInv layout out := by
  obtain ⟨live,entered⟩ := disconnectEffect ok
  have less {x k p} (held : 0 < out.entries x k p) : 0 < h.entries x k p ∧
      ¬ (k = slot.delegateKey ∧ (x = s ∨ layout.observerOf slot.delegateKey = some x)) := by
    rw [entered] at held
    split at held
    · simp at held
    · next kept => exact ⟨held,kept⟩
  refine ⟨?_,fun x k p held => inv.owned x k p (less held).1,?_⟩
  · intro x k p held receiver own
    rw [live]
    exact inv.stored x k p (less held).1 receiver own
  · intro x k p own other held
    obtain ⟨before,kept⟩ := less held
    have different : k ≠ slot.delegateKey := by
      rintro rfl
      exact kept ⟨rfl,.inr own⟩
    rw [entered,if_neg (fun same => different same.1)]
    exact inv.back x k p own other before

omit [BinarySearch] in
theorem forgetsKeeps (inv : HeapInv layout h) {x : Obj} (forgets : Forgets x h out)
    (live : ∀ y, out.alive y = h.alive y ∨ y = x ∧ KnowsHolders layout h x) : HeapInv layout out := by
  refine ⟨?_,BackReferences.forgetsOwned forgets inv.owned,?_⟩
  · intro y k p held receiver own
    obtain ⟨other,unvisited,before⟩ := forgetsLess forgets held
    rcases live receiver with same | ⟨rfl,knows⟩
    · rw [same]
      exact inv.stored y k p before receiver own
    · obtain ⟨c,found,inside⟩ := entriesPositive.mp before
      exact absurd (knows y other c found ⟨k,p⟩ inside own) unvisited
  · intro y k p own other held
    obtain ⟨notX,unvisited,before⟩ := forgetsLess forgets held
    have peer := inv.back y k p own other before
    have left : p ≠ x := by
      rintro rfl
      exact unvisited peer
    have kept : ¬ 0 < h.entries x k p := by
      intro visited
      rcases inv.owned x k p visited (Ne.symm left) with same | same
      · exact notX (Option.some.inj (own.symm.trans same))
      · exact other (Option.some.inj (own.symm.trans same)).symm
    rw [forgets,if_neg (not_or.mpr ⟨left,kept⟩)]
    exact peer

theorem opKeeps (inv : HeapInv layout h) {op}
    (known : ∀ x, op = .destroy x → KnowsHolders layout h x)
    (ok : Heap.step layout .stSafe h op = some out) : HeapInv layout out ∧
      ∀ y, out.alive y = h.alive y ∨ op = .destroy y := by
  obtain ⟨callable,ran⟩ := Heap.stepPossible ok
  cases op with
  | connect s slot => exact ⟨connectKeeps inv callable ran,fun y => .inl ((connectEffect ran).1 y)⟩
  | disconnect s slot => exact ⟨disconnectKeeps inv ran,fun y => .inl ((disconnectEffect ran).1 y)⟩
  | disconnectAll x =>
    obtain ⟨live,forgets⟩ := disconnectAllEffect ran
    exact ⟨forgetsKeeps inv forgets (fun y => .inl (live y)),fun y => .inl (live y)⟩
  | destroy x =>
    obtain ⟨live,forgets⟩ := destroyEffect ran
    have others (y : Obj) : out.alive y = h.alive y ∨ y = x := by
      rw [live]
      by_cases same : y = x <;> simp [same]
    refine ⟨forgetsKeeps inv forgets (fun y => ?_),fun y => ?_⟩
    · exact (others y).imp id (fun same => ⟨same,known x rfl⟩)
    · exact (others y).imp id (fun same => by rw [same])

variable {s next : State w Obj} {body : List (Call w Obj)}

theorem stepKeeps (inv : Inv layout s) (forgotten : DestroysForgotten layout s body)
    (taken : step layout s body = some next) : Inv layout next := by
  obtain ⟨heap,copied⟩ := inv
  unfold step at taken
  split at taken
  · contradiction
  · next slot frames top =>
    rw [top,List.forall_mem_cons] at copied
    cases Option.some.inj taken
    exact ⟨heap,copied.2⟩
  · next slot op later frames top =>
    obtain ⟨h,ok,last⟩ := Option.bind_eq_some_iff.mp taken
    cases Option.some.inj last
    have destroys : ∀ x, op = .destroy x → Unreached layout s x ∧ KnowsHolders layout s.heap x := by
      rintro x rfl
      simpa only [DestroysForgotten,nextCall,top] using forgotten
    obtain ⟨kept,alive⟩ := opKeeps heap (fun x same => (destroys x same).2) ok
    refine ⟨kept,fun frame mem e inside receiver own => ?_⟩
    have before : frame ∈ s.frames := by
      rw [top]
      exact List.mem_cons_of_mem _ (copiedBelow mem inside)
    rcases alive receiver with same | same
    · rw [same]
      exact copied frame before e inside receiver own
    · exact absurd own ((destroys receiver same).1 frame before e inside)
  · next slot signal later frames top =>
    obtain ⟨c,found,last⟩ := Option.bind_eq_some_iff.mp taken
    cases Option.some.inj last
    rw [top,List.forall_mem_cons] at copied
    refine ⟨heap,?_⟩
    rw [List.forall_mem_cons,List.forall_mem_cons]
    refine ⟨fun e inside => ?_,copied.1,copied.2⟩
    exact heap.stored signal e.delegate e.observer (entriesPositive.mpr ⟨c,found,inside⟩)
  · next frames top =>
    rw [top,List.forall_mem_cons] at copied
    cases Option.some.inj taken
    exact ⟨heap,copied.2⟩
  · next slot rest frames top =>
    rw [top,List.forall_mem_cons] at copied
    cases Option.some.inj taken
    refine ⟨heap,?_⟩
    rw [List.forall_mem_cons,List.forall_mem_cons]
    refine ⟨by simp [Frame.copied],fun e inside => ?_,copied.2⟩
    exact copied.1 e (List.mem_cons_of_mem _ inside)

theorem stepNeeded (taken : step layout s body = some next) (after : Inv layout next) :
    DestroysForgotten layout s body := by
  unfold DestroysForgotten nextCall
  unfold step at taken
  split
  · next x calls =>
    split at calls
    · next slot call later frames top =>
      cases Option.some.inj calls
      rw [top] at taken
      obtain ⟨h,ok,last⟩ := Option.bind_eq_some_iff.mp taken
      cases Option.some.inj last
      obtain ⟨live,forgets⟩ := destroyEffect (Heap.stepPossible ok).2
      have dead : h.alive x = false := by simp [live]
      constructor
      · intro frame mem e inside own
        rw [top] at mem
        have still := List.mem_cons_of_mem (Frame.running slot later) (copiedBelow mem inside)
        exact absurd (after.copied frame still e inside x own) (by simp [dead])
      · intro y other c found e inside own
        by_contra unknown
        have held := entriesPositive.mpr ⟨c,found,inside⟩
        have stays : 0 < h.entries y e.delegate e.observer := by
          rw [forgets,if_neg (not_or.mpr ⟨other,unknown⟩)]
          exact held
        exact absurd (after.heap.stored y _ _ stays x own) (by simp [dead])
    · contradiction
  · trivial

theorem stepDefined (inv : Inv layout s) (body : List (Call w Obj)) (unfinished : s.frames ≠ [])
    (names : ∀ call, nextCall s = some call → match call with
      | .op op => Callable layout s.heap op
      | .fire signal => s.heap.alive signal = true) : (step layout s body).isSome = true := by
  obtain ⟨h,frames⟩ := s
  cases frames with
  | nil => exact absurd rfl unfinished
  | cons frame frames =>
    cases frame with
    | running slot program =>
      cases program with
      | nil => rfl
      | cons call later =>
        have named := names call rfl
        cases call with
        | op op =>
          obtain ⟨out,ok⟩ := Option.isSome_iff_exists.mp
            (BackReferences.stepDefined .stSafe (heapNoDangling inv.heap) named)
          simp [step,ok]
        | fire signal =>
          obtain ⟨c,found⟩ := Option.isSome_iff_exists.mp named
          have here : h signal = some c := found
          simp [step,here]
    | emitting rest =>
      cases rest with
      | nil => rfl
      | cons slot rest => simp [step,Policy.observed]

theorem keptExactly (layout : Layout w Obj) (live : Obj → Bool) (program : List (Call w Obj))
    (bodies : List (List (Call w Obj))) :
    EveryState (step layout) (Inv layout) (start live program) bodies ↔
      EveryStep (step layout) (DestroysForgotten layout) (start live program) bodies :=
  everyStateExact (fun _ inv => inv) (fun _ _ _ inv forgotten taken => stepKeeps inv forgotten taken)
    (fun _ _ _ _ taken after => stepNeeded taken after) (startInv layout live program) bodies

theorem calledReceiversLive (layout : Layout w Obj) (live : Obj → Bool) (program : List (Call w Obj))
    (bodies : List (List (Call w Obj)))
    (steps : EveryStep (step layout) (DestroysForgotten layout) (start live program) bodies) :
    EveryState (step layout) (CallsLive layout) (start live program) bodies :=
  everyStateImp (fun _ inv => callsLive inv) ((keptExactly layout live program bodies).mpr steps)

end Steps

/-! A signal with a slot of each of two receivers. The slot that is called first
destroys the other receiver, whose copied entry is called next. -/
def pairProgram : List (Call 64 Party) :=
  [.op (.connect .signal (.bindInstance 0x7 0x1000)),
    .op (.connect .signal (.bindInstance 0x7 0x2000)),.fire .signal]

def hostileBodies : List (List (Call 64 Party)) := [[],[],[],[.op (.destroy .other)],[],[]]

theorem destroyedReceiverCalled :
    EveryStep (@step _ _ _ linearSearch partyLayout) (Limited partyLayout)
      (start (fun _ => true) pairProgram) hostileBodies ∧
    ¬ EveryState (@step _ _ _ linearSearch partyLayout) (CallsLive partyLayout)
      (start (fun _ => true) pairProgram) hostileBodies := by
  let _ := linearSearch
  decide +kernel

def politeBodies : List (List (Call 64 Party)) :=
  [[],[],[],[],[],[.op (.destroy .receiver)],[],[],[],[]]

theorem reachedReceiverDestroyed :
    EveryState (@step _ _ _ linearSearch partyLayout) (CallsLive partyLayout)
      (start (fun _ => true) pairProgram) politeBodies := by
  let _ := linearSearch
  exact calledReceiversLive partyLayout (fun _ => true) pairProgram politeBodies (by decide +kernel)

end SignalSlot.CopiedEmission
