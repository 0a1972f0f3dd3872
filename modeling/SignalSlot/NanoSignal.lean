import SignalSlot.NanoMutex
import SignalSlot.NanoObserver
import Mathlib.Logic.Function.Basic
import Mathlib.Data.Fintype.Basic

/-! Nano::Signal and the objects it is connected to, for calls that do not
overlap. A heap gives every live object its connections vector. An operation that
would touch a destroyed object has no result: in the source it is undefined. -/
namespace SignalSlot
open PartitionSearch

/-- What the program fixes before it runs: the Observer base of the instance that
a key names, if its class has one (this selects the overloads of insert_sfinae and
remove_sfinae), and which of the objects are signals. -/
structure Layout (w : Nat) (Obj : Type) where
  observerOf : DelegateKey w → Option Obj
  isSignal : Obj → Bool

/-! The runs on fixed inputs take place among these objects. -/
inductive Party where
  | signal | receiver | other
  deriving DecidableEq,Repr

instance : Fintype Party := ⟨{.signal,.receiver,.other},fun x => by cases x <;> decide⟩

def partyLayout : Layout 64 Party where
  observerOf key :=
    if key.word0 = 0x1000 then some .receiver else if key.word0 = 0x2000 then some .other else none
  isSignal x := x = .signal

abbrev Heap (w : Nat) (Obj : Type) := Obj → Option (Connections w Obj)

inductive Update (w : Nat) (Obj : Type) where
  | insert (target : Obj) (key : DelegateKey w) (obs : Obj)
  | remove (target : Obj) (key : DelegateKey w)
  deriving DecidableEq, Repr

def Update.target {w : Nat} {Obj : Type} : Update w Obj → Obj
  | .insert target _ _ => target
  | .remove target _ => target

namespace Heap
variable {w : Nat} {Obj : Type} [DecidableEq Obj]

def alive (h : Heap w Obj) (x : Obj) : Bool := (h x).isSome

def initial (live : Obj → Bool) : Heap w Obj := fun x => if live x then some .empty else none

def store (h : Heap w Obj) (x : Obj) (c : Option (Connections w Obj)) : Heap w Obj :=
  Function.update h x c

def entries (h : Heap w Obj) (x : Obj) (key : DelegateKey w) (obs : Obj) : Nat :=
  match h x with
  | none => 0
  | some c => c.slots.count ⟨key,obs⟩

section Operations
variable [BinarySearch]

def apply (h : Heap w Obj) : Update w Obj → Option (Heap w Obj)
  | .insert x key obs => do
      let c ← h x
      some (store h x (some (c.insert key obs)))
  | .remove x key => do
      let c ← h x
      some (store h x (some (c.remove key)))

def applyAll (h : Heap w Obj) : List (Update w Obj) → Option (Heap w Obj)
  | [] => some h
  | u::rest => do
      let h ← apply h u
      applyAll h rest

end Operations
end Heap

section Sfinae
variable {w : Nat} {Obj : Type}

-- The two overloads of `insert_sfinae`: first the signal, then the receiver.
def insertSfinae (layout : Layout w Obj) (signal : Obj) (key : DelegateKey w) : List (Update w Obj) :=
  match layout.observerOf key with
  | some instancePtr => [.insert signal key instancePtr,.insert instancePtr key signal]
  | none => [.insert signal key signal]

def removeSfinae (layout : Layout w Obj) (signal : Obj) (key : DelegateKey w) : List (Update w Obj) :=
  match layout.observerOf key with
  | some instancePtr => [.remove signal key,.remove instancePtr key]
  | none => [.remove signal key]

end Sfinae

inductive Op (w : Nat) (Obj : Type) where
  | connect (signal : Obj) (slot : Function w)
  | disconnect (signal : Obj) (slot : Function w)
  | disconnectAll (x : Obj)
  | destroy (x : Obj)
  deriving DecidableEq, Repr

namespace Heap
variable {w : Nat} {Obj : Type} [DecidableEq Obj] [BinarySearch]

def connect (layout : Layout w Obj) (h : Heap w Obj) (signal : Obj) (slot : Function w) :
    Option (Heap w Obj) := applyAll h (insertSfinae layout signal slot.delegateKey)

def disconnect (layout : Layout w Obj) (h : Heap w Obj) (signal : Obj) (slot : Function w) :
    Option (Heap w Obj) := applyAll h (removeSfinae layout signal slot.delegateKey)

def visitPeers (policy : Policy) (self : Obj) : List (Connection w Obj) → Heap w Obj → Option (Heap w Obj)
  | [],h => some h
  | slot::rest,h => match policy.visiting h.alive self slot.observer with
    | none => visitPeers policy self rest h
    | some peer => do
        let h ← apply h (.remove peer slot.delegate)
        visitPeers policy self rest h

def disconnectAll (policy : Policy) (h : Heap w Obj) (x : Obj) : Option (Heap w Obj) := do
  let c ← h x
  let h ← visitPeers policy x c.slots h
  some (store h x (some .empty))

def destroy (policy : Policy) (h : Heap w Obj) (x : Obj) : Option (Heap w Obj) := do
  let h ← disconnectAll policy h x
  some (store h x none)

def fire (policy : Policy) (h : Heap w Obj) (signal : Obj) : Option (List (DelegateKey w)) := do
  let c ← h signal
  some ((c.slots.filter (fun slot => policy.observed (h.alive slot.observer))).map Connection.delegate)

def Callable (layout : Layout w Obj) (h : Heap w Obj) : Op w Obj → Prop
  | .connect signal slot | .disconnect signal slot =>
      layout.isSignal signal = true ∧ h.alive signal = true ∧
      ∀ receiver, layout.observerOf slot.delegateKey = some receiver → h.alive receiver = true
  | .disconnectAll x | .destroy x => h.alive x = true
instance (layout : Layout w Obj) (h : Heap w Obj) (op : Op w Obj) : Decidable (Callable layout h op) := by
  cases op <;> unfold Callable <;> infer_instance

def exec (layout : Layout w Obj) (policy : Policy) (h : Heap w Obj) : Op w Obj → Option (Heap w Obj)
  | .connect signal slot => connect layout h signal slot
  | .disconnect signal slot => disconnect layout h signal slot
  | .disconnectAll x => disconnectAll policy h x
  | .destroy x => destroy policy h x

def step (layout : Layout w Obj) (policy : Policy) (h : Heap w Obj) (op : Op w Obj) :
    Option (Heap w Obj) := if Callable layout h op then exec layout policy h op else none

end Heap
end SignalSlot
