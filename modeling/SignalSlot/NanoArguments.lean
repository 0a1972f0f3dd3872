import SignalSlot.NanoSignal
import Mathlib.Data.List.Nodup

/-! The arguments of fire on their way to the slots. fire forwards them, for_each
passes them on as lvalues once for every slot, Function::operator() casts each of them
to Args&& and the thunk forwards that. So every slot is offered the caller's own object,
as if it were about to expire, unless the types differ and the cast makes a new one. -/
namespace SignalSlot.Arguments

inductive Form where
  | lvalue | temporary | converted
  deriving DecidableEq,Repr

/-- The argument expressions of one call. `movable` says that an object of the
parameter's type does not hold its value any more once it was moved from. -/
structure Pack (ι Obj Value : Type) where
  form : ι → Form
  object : ι → Obj
  convert : ι → Value → Value
  movable : ι → Bool
  own : ∀ i j, form i = .temporary → object i = object j → i = j

/-- Which parameters a slot takes by value (the others are references to const), and
the order in which its parameters are set up. -/
structure Slot (ι : Type) where
  byValue : ι → Bool
  order : List ι
  once : order.Nodup
  all : ∀ i, i ∈ order

abbrev Store (Obj Value : Type) := Obj → Option Value
abbrev Received (ι Value : Type) := ι → Option Value

variable {ι Obj Value : Type} [DecidableEq ι] [DecidableEq Obj] (args : Pack ι Obj Value)

def setParameter (slot : Slot ι) (s : Store Obj Value × Received ι Value) (i : ι) :
    Store Obj Value × Received ι Value :=
  match args.form i with
  -- `static_cast<Args&&>(args)` from another type: a new object for this slot.
  | .converted => (s.1,Function.update s.2 i ((s.1 (args.object i)).map (args.convert i)))
  | .lvalue | .temporary =>
      (if slot.byValue i && args.movable i then Function.update s.1 (args.object i) none else s.1,
        Function.update s.2 i (s.1 (args.object i)))

def callSlot (slot : Slot ι) (store : Store Obj Value) : Store Obj Value × Received ι Value :=
  slot.order.foldl (setParameter args slot) (store,fun _ => none)

def forEach : List (Slot ι) → Store Obj Value → List (Received ι Value) × Store Obj Value
  | [],store => ([],store)
  | slot::rest,store =>
      let called := callSlot args slot store
      let later := forEach rest called.1
      (called.2::later.1,later.2)

def forEachAccumulate {Result Sum : Type} (result : Slot ι → Received ι Value → Result)
    (accumulate : Sum → Result → Sum) :
    List (Slot ι) → Store Obj Value → Sum → (List (Received ι Value) × Store Obj Value) × Sum
  | [],store,sum => (([],store),sum)
  | slot::rest,store,sum =>
      let called := callSlot args slot store
      let later := forEachAccumulate result accumulate rest called.1
        (accumulate sum (result slot called.2))
      ((called.2::later.1.1,later.1.2),later.2)

section Fire
variable {w : Nat} {Target : Type} [DecidableEq Target]
variable (policy : Policy) (h : Heap w Target) (signal : Target) (slotOf : DelegateKey w → Slot ι)
variable (store : Store Obj Value)

def fire : Option (List (Received ι Value) × Store Obj Value) := do
  let keys ← Heap.fire policy h signal
  some (forEach args (keys.map slotOf) store)

def fireAccumulate {Result Sum : Type} (result : Slot ι → Received ι Value → Result)
    (accumulate : Sum → Result → Sum) (sum : Sum) :
    Option ((List (Received ι Value) × Store Obj Value) × Sum) := do
  let keys ← Heap.fire policy h signal
  some (forEachAccumulate args result accumulate (keys.map slotOf) store sum)

end Fire

section Specification
variable (value : Obj → Value)

def expected (i : ι) : Value := match args.form i with
  | .converted => args.convert i (value (args.object i))
  | .lvalue | .temporary => value (args.object i)

structure Delivered (received : List (Received ι Value)) (store : Store Obj Value) : Prop where
  values : ∀ slot ∈ received, ∀ i, slot i = some (expected args value i)
  kept : ∀ i, args.form i ≠ .temporary → store (args.object i) = some (value (args.object i))

/-- Only the last slot may take a parameter out of the caller's object, and only out of
a temporary one. -/
def MovesOnlyLast (slots : List (Slot ι)) : Prop :=
  ∀ i, args.movable i = true → args.form i ≠ .converted →
    ∀ before slot after, slots = before ++ slot::after → slot.byValue i = true →
      args.form i = .temporary ∧ after = []

end Specification

variable {args} {value : Obj → Value}

theorem accumulateDelivers {Result Sum : Type} (result : Slot ι → Received ι Value → Result)
    (accumulate : Sum → Result → Sum) (slots : List (Slot ι)) (store : Store Obj Value) (sum : Sum) :
    (forEachAccumulate args result accumulate slots store sum).1 = forEach args slots store := by
  induction slots generalizing store sum with
  | nil => rfl
  | cons slot rest ih => rw [forEachAccumulate,forEach,ih]

theorem forEachAppend (before after : List (Slot ι)) (store : Store Obj Value) :
    forEach args (before ++ after) store =
      ((forEach args before store).1 ++ (forEach args after (forEach args before store).2).1,
        (forEach args after (forEach args before store).2).2) := by
  induction before generalizing store with
  | nil => rfl
  | cons slot rest ih => rw [List.cons_append,forEach,ih]; rfl

theorem setStore (slot : Slot ι) (s : Store Obj Value × Received ι Value) (i : ι) :
    (setParameter args slot s i).1 =
      if args.form i ≠ .converted ∧ slot.byValue i = true ∧ args.movable i = true then
        Function.update s.1 (args.object i) none
      else s.1 := by
  unfold setParameter
  cases form : args.form i <;> simp

theorem setReceived (slot : Slot ι) (s : Store Obj Value × Received ι Value) (i : ι) :
    (setParameter args slot s i).2 = Function.update s.2 i (if args.form i = .converted then
      (s.1 (args.object i)).map (args.convert i) else s.1 (args.object i)) := by
  unfold setParameter
  cases form : args.form i <;> simp

/-! An object that was moved from stays empty. -/

theorem setEmpty {slot : Slot ι} {s : Store Obj Value × Received ι Value} {x : Obj} (i : ι)
    (empty : s.1 x = none) : (setParameter args slot s i).1 x = none := by
  rw [setStore]
  split
  · rcases Classical.em (x = args.object i) with rfl | other
    · exact Function.update_self ..
    · rwa [Function.update_of_ne other]
  · exact empty

theorem setAllEmpty {slot : Slot ι} {x : Obj} (is : List ι) {s : Store Obj Value × Received ι Value}
    (empty : s.1 x = none) : (is.foldl (setParameter args slot) s).1 x = none := by
  induction is generalizing s with
  | nil => exact empty
  | cons i rest ih => exact ih (setEmpty i empty)

theorem forEachEmpty {slots : List (Slot ι)} {store : Store Obj Value} {x : Obj}
    (empty : store x = none) : (forEach args slots store).2 x = none := by
  induction slots generalizing store with
  | nil => exact empty
  | cons slot rest ih => exact ih (setAllEmpty slot.order empty)

theorem callMoves {slot : Slot ι} {i : ι} (form : args.form i ≠ .converted)
    (taken : slot.byValue i = true) (movable : args.movable i = true) (store : Store Obj Value) :
    (callSlot args slot store).1 (args.object i) = none := by
  obtain ⟨before,after,split⟩ := List.append_of_mem (slot.all i)
  rw [callSlot,split,List.foldl_append,List.foldl_cons]
  refine setAllEmpty after ?_
  rw [setStore,if_pos ⟨form,taken,movable⟩,Function.update_self]

theorem receivedUnchanged {slot : Slot ι} {i : ι} {is : List ι} (absent : i ∉ is)
    (s : Store Obj Value × Received ι Value) : (is.foldl (setParameter args slot) s).2 i = s.2 i := by
  induction is generalizing s with
  | nil => rfl
  | cons j rest ih =>
    obtain ⟨other,later⟩ := not_or.mp (fun h => absent (List.mem_cons.mpr h))
    rw [List.foldl_cons,ih later,setReceived,Function.update_of_ne other]

theorem callReceivesNothing {slot : Slot ι} {i : ι} {store : Store Obj Value}
    (empty : store (args.object i) = none) : (callSlot args slot store).2 i = none := by
  obtain ⟨before,after,split⟩ := List.append_of_mem (slot.all i)
  have once := slot.once
  rw [split,List.nodup_append] at once
  have absent : i ∉ after := (List.nodup_cons.mp once.2.1).1
  have start : (before.foldl (setParameter args slot) (store,fun _ => none)).1 (args.object i) = none :=
    setAllEmpty before empty
  rw [callSlot,split,List.foldl_append,List.foldl_cons,receivedUnchanged absent,setReceived,
    Function.update_self,start]
  split <;> rfl

/-! A slot that takes only temporaries out of their objects receives everything, and
leaves the other objects as they are. -/
section Temporaries
variable {slot : Slot ι} (onlyTemporaries : ∀ i, args.movable i = true → args.form i ≠ .converted →
  slot.byValue i = true → args.form i = .temporary)
include onlyTemporaries

-- What setting up `i` may empty is a temporary, and `i` is its only name.
theorem setOther {i j : ι} (different : j ≠ i) (s : Store Obj Value × Received ι Value) :
    (setParameter args slot s i).1 (args.object j) = s.1 (args.object j) := by
  rw [setStore]
  split
  · next moved =>
    have temporary := onlyTemporaries i moved.2.2 moved.1 moved.2.1
    rw [Function.update_of_ne]
    intro same
    exact different (args.own i j temporary same.symm).symm
  · rfl

theorem setKept {j : ι} (form : args.form j ≠ .temporary) (s : Store Obj Value × Received ι Value) (i : ι) :
    (setParameter args slot s i).1 (args.object j) = s.1 (args.object j) := by
  rcases Classical.em (j = i) with rfl | different
  · rw [setStore,if_neg (fun moved => form (onlyTemporaries j moved.2.2 moved.1 moved.2.1))]
  · exact setOther onlyTemporaries different s

theorem setAllKept {j : ι} (form : args.form j ≠ .temporary) (is : List ι)
    (s : Store Obj Value × Received ι Value) :
    (is.foldl (setParameter args slot) s).1 (args.object j) = s.1 (args.object j) := by
  induction is generalizing s with
  | nil => rfl
  | cons i rest ih => rw [List.foldl_cons,ih,setKept onlyTemporaries form]

theorem setAllReceives {is : List ι} (nodup : is.Nodup) {s : Store Obj Value × Received ι Value}
    (held : ∀ i ∈ is, s.1 (args.object i) = some (value (args.object i))) :
    ∀ i ∈ is, (is.foldl (setParameter args slot) s).2 i = some (expected args value i) := by
  induction is generalizing s with
  | nil => exact fun _ mem => nomatch mem
  | cons i rest ih =>
    obtain ⟨fresh,nodupRest⟩ := List.nodup_cons.mp nodup
    intro j mem
    rcases List.mem_cons.mp mem with rfl | mem
    · rw [List.foldl_cons,receivedUnchanged fresh,setReceived,Function.update_self,
        held j List.mem_cons_self,expected]
      cases form : args.form j <;> rfl
    · refine ih nodupRest (fun k later => ?_) j mem
      rw [setOther onlyTemporaries (ne_of_mem_of_not_mem later fresh),held k (List.mem_cons_of_mem _ later)]

theorem callReceives :
    (∀ i, (callSlot args slot (fun x => some (value x))).2 i = some (expected args value i)) ∧
    ∀ i, args.form i ≠ .temporary →
      (callSlot args slot (fun x => some (value x))).1 (args.object i) = some (value (args.object i)) :=
  ⟨fun i => setAllReceives onlyTemporaries slot.once (fun _ _ => rfl) i (slot.all i),
    fun _ form => setAllKept onlyTemporaries form slot.order _⟩

end Temporaries

theorem callKeepsStore {slot : Slot ι}
    (none : ∀ i, args.movable i = true → args.form i ≠ .converted → slot.byValue i = false)
    (store : Store Obj Value) : (callSlot args slot store).1 = store := by
  have all : ∀ (is : List ι) (s : Store Obj Value × Received ι Value),
      (is.foldl (setParameter args slot) s).1 = s.1 := by
    intro is
    induction is with
    | nil => exact fun s => rfl
    | cons i rest ih =>
      intro s
      rw [List.foldl_cons,ih,setStore,if_neg]
      intro moved
      rw [none i moved.2.2 moved.1] at moved
      exact absurd moved.2.1 Bool.false_ne_true
  exact all slot.order _

theorem movesNeeded {slots : List (Slot ι)}
    (delivered : Delivered args value (forEach args slots (fun x => some (value x))).1
      (forEach args slots (fun x => some (value x))).2) : MovesOnlyLast args slots := by
  intro i movable form before slot after split taken
  subst split
  rw [forEachAppend,forEach] at delivered
  have emptied := callMoves form taken movable (forEach args before (fun x => some (value x))).2
  constructor
  · cases here : args.form i with
    | converted => exact absurd here form
    | temporary => rfl
    | lvalue =>
      have kept := delivered.kept i (by rw [here]; exact Form.noConfusion)
      rw [forEachEmpty emptied] at kept
      contradiction
  · cases after with
    | nil => rfl
    | cons next rest =>
      have value := delivered.values (callSlot args next (callSlot args slot
        (forEach args before (fun x => some (value x))).2).1).2 (by simp [forEach]) i
      rw [callReceivesNothing emptied] at value
      contradiction

theorem movesDelivered {slots : List (Slot ι)} (moves : MovesOnlyLast args slots) :
    Delivered args value (forEach args slots (fun x => some (value x))).1
      (forEach args slots (fun x => some (value x))).2 := by
  induction slots with
  | nil => exact ⟨fun _ mem => (nomatch mem),fun _ _ => rfl⟩
  | cons slot rest ih =>
    obtain ⟨received,kept⟩ := @callReceives _ _ _ _ _ args value slot
      (fun i movable form taken => (moves i movable form [] slot rest rfl taken).1)
    cases rest with
    | nil =>
      refine ⟨?_,kept⟩
      intro only mem
      rw [List.mem_singleton.mp mem]
      exact received
    | cons next rest =>
      have unmoved : (callSlot args slot (fun x => some (value x))).1 = fun x => some (value x) := by
        refine callKeepsStore (fun i movable form => ?_) _
        cases taken : slot.byValue i with
        | false => rfl
        | true => exact absurd (moves i movable form [] slot (next::rest) rfl taken).2 (List.cons_ne_nil _ _)
      have later := ih (fun i movable form before slot' after split =>
        moves i movable form (slot::before) slot' after (by rw [split,List.cons_append]))
      rw [forEach,unmoved]
      refine ⟨?_,later.kept⟩
      intro one mem
      rcases List.mem_cons.mp mem with rfl | mem
      · exact received
      · exact later.values one mem

theorem forEachLength (slots : List (Slot ι)) (store : Store Obj Value) :
    (forEach args slots store).1.length = slots.length := by
  induction slots generalizing store with
  | nil => rfl
  | cons slot rest ih => rw [forEach,List.length_cons,ih,List.length_cons]

theorem argumentsDeliveredExactly {w : Nat} {Target Result Sum : Type} [DecidableEq Target]
    (args : Pack ι Obj Value) (value : Obj → Value) (policy : Policy) (h : Heap w Target) (signal : Target)
    (slotOf : DelegateKey w → Slot ι) (result : Slot ι → Received ι Value → Result)
    (accumulate : Sum → Result → Sum) (sum : Sum) (keys : List (DelegateKey w))
    (invoked : Heap.fire policy h signal = some keys) :
    ((∃ called, fire args policy h signal slotOf (fun x => some (value x)) = some called ∧
        called.1.length = keys.length ∧ Delivered args value called.1 called.2) ↔
      MovesOnlyLast args (keys.map slotOf)) ∧
    ((∃ called, fireAccumulate args policy h signal slotOf (fun x => some (value x)) result accumulate
          sum = some called ∧
        called.1.1.length = keys.length ∧ Delivered args value called.1.1 called.1.2) ↔
      MovesOnlyLast args (keys.map slotOf)) := by
  have exactly : (forEach args (keys.map slotOf) (fun x => some (value x))).1.length = keys.length ∧
      Delivered args value (forEach args (keys.map slotOf) (fun x => some (value x))).1
        (forEach args (keys.map slotOf) (fun x => some (value x))).2 ↔
      MovesOnlyLast args (keys.map slotOf) :=
    ⟨fun h => movesNeeded h.2,fun moves => ⟨by rw [forEachLength,List.length_map],movesDelivered moves⟩⟩
  rw [fire,fireAccumulate,invoked,← exactly]
  constructor
  · constructor
    · intro ⟨called,same,delivered⟩
      cases Option.some.inj same
      exact delivered
    · exact fun delivered => ⟨_,rfl,delivered⟩
  · constructor
    · intro ⟨called,same,delivered⟩
      cases Option.some.inj same
      rwa [accumulateDelivers] at delivered
    · intro delivered
      refine ⟨_,rfl,?_⟩
      rwa [accumulateDelivers]

/-! A temporary string, and slots that take it by value. -/
def textPack : Pack Unit Unit String :=
  ⟨fun _ => .temporary,fun _ => (),fun _ => id,fun _ => true,fun _ _ _ _ => rfl⟩

def textSlot : Slot Unit := ⟨fun _ => true,[()],by decide,by decide⟩

def connected (slots : List (Function 64)) : Heap 64 Party :=
  let _ := PartitionSearch.linearSearch
  slots.foldl (fun h slot => (Heap.connect partyLayout h .signal slot).getD h) (Heap.initial fun _ => true)

def firstSlot : Function 64 := .bindInstance 0x7 0x3000
def secondSlot : Function 64 := .bindInstance 0x7 0x4000

theorem secondSlotReceivesNothing : ∃ called,
    fire textPack .st (connected [firstSlot,secondSlot]) .signal (fun _ => textSlot)
      (fun _ => some "aaa") = some called ∧
    called.1.map (fun received => received ()) = [some "aaa",none] ∧
    ¬ Delivered textPack (fun _ => "aaa") called.1 called.2 := by
  have evaluated : (fire textPack .st (connected [firstSlot,secondSlot]) .signal (fun _ => textSlot)
      (fun _ => some "aaa")).map (fun called => called.1.map (fun received => received ())) =
      some [some "aaa",none] := by decide +kernel
  obtain ⟨called,fired,received⟩ := Option.map_eq_some_iff.mp evaluated
  refine ⟨called,fired,received,fun delivered => ?_⟩
  have mem : none ∈ called.1.map (fun received => received ()) := by
    rw [received]
    decide
  obtain ⟨one,inside,nothing⟩ := List.mem_map.mp mem
  have value := delivered.values one inside ()
  rw [nothing] at value
  contradiction

/-! A slot that takes the string by reference to const, before one that takes it by value. -/
def constSlot : Slot Unit := ⟨fun _ => false,[()],by decide,by decide⟩

def slotOfKey (key : DelegateKey 64) : Slot Unit :=
  if key = secondSlot.delegateKey then textSlot else constSlot

theorem lastSlotTakes : ∃ called,
    fire textPack .st (connected [secondSlot,firstSlot]) .signal slotOfKey (fun _ => some "aaa") =
      some called ∧
    called.1.length = [firstSlot.delegateKey,secondSlot.delegateKey].length ∧
    Delivered textPack (fun _ => "aaa") called.1 called.2 := by
  refine (argumentsDeliveredExactly textPack (fun _ => "aaa") .st (connected [secondSlot,firstSlot]) .signal
    slotOfKey (fun _ _ => ()) (fun sum _ => sum) 0 [firstSlot.delegateKey,secondSlot.delegateKey]
    (by decide +kernel)).1.mpr ?_
  intro i _ _ before slot after split taken
  have slots : [firstSlot.delegateKey,secondSlot.delegateKey].map slotOfKey = [constSlot,textSlot] := rfl
  rw [slots] at split
  cases before with
  | nil =>
    rw [List.nil_append] at split
    cases split
    cases taken
  | cons first before =>
    have length := congrArg List.length split
    simp only [List.length_append,List.length_cons,List.length_nil] at length
    exact ⟨rfl,List.eq_nil_of_length_eq_zero (by omega)⟩

end SignalSlot.Arguments
