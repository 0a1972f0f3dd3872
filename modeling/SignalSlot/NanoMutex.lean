/-! The threading policies, as far as one thread sees them. Only TS_Policy_Safe
counts references: its Weak_Ptr can tell whether the observer is still alive. The
raw pointers of the other three cannot, and are followed in any case. -/
namespace SignalSlot

inductive Policy where
  | st
  | ts
  | stSafe
  | tsSafe
  deriving DecidableEq, Repr

namespace Policy

def observed (policy : Policy) (alive : Bool) : Bool := match policy with
  | .st | .ts | .stSafe => true
  | .tsSafe => alive

def visiting {Obj : Type} [DecidableEq Obj] (policy : Policy) (alive : Obj → Bool)
    (self observer : Obj) : Option Obj :=
  if observer = self then none else match policy with
    | .st | .ts | .stSafe => some observer
    | .tsSafe => if alive observer then some observer else none

end Policy
end SignalSlot
