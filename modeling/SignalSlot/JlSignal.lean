import SignalSlot.JlDoublyLinkedList

/-! jl::Signal and jl::SignalObserver. The connections of all signals stand in the nodes
of one pool, the signals of all observers in the nodes of another. An observer is to list
the signals that have a connection to it, and whichever ends first tells the other. -/
namespace SignalSlot.JlSignal
open LinkedLists GuardedRun ObjectPool DoublyLinkedList

variable {Sig Obs D : Type}

/-- `d` and `pObserver`, which is NULL for a function. -/
structure Connection (Obs D : Type) where
  d : D
  pObserver : Option Obs
  deriving DecidableEq,Repr

/-- What the common allocators hand out from. -/
structure Allocators where
  signalCon : NodeBuffer
  observerCon : NodeBuffer

/-- The pools, and `m_oConnections` and `m_oSignals` of the objects that are there. -/
structure State (Sig Obs D : Type) where
  connectionNodes : NodePool (Connection Obs D)
  signalNodes : NodePool Sig
  connections : Sig → Option Anchor
  signals : Obs → Option Anchor

section Loops
variable {σ β : Type}

-- The iterator goes on from its node as the body left it.
def visitFrom (pool : σ → NodePool β) (body : β → σ → Option σ) : Nat → Option Addr → σ → Option σ
  | 0,_,_ => none
  | _ + 1,none,st => some st
  | fuel + 1,some p,st => do
      let n ← read (pool st) p
      let st ← body n.object st
      let n ← read (pool st) p
      visitFrom pool body fuel n.next st

def anyFrom (pool : NodePool β) (found : β → Bool) : Nat → Option Addr → Option Bool
  | 0,_ => none
  | _ + 1,none => some false
  | fuel + 1,some p => do
      let n ← read pool p
      if found n.object then some true else anyFrom pool found fuel n.next

end Loops

section Operations
variable [DecidableEq Sig] [DecidableEq Obs] [DecidableEq D]
variable (a : Allocators) (asserts : Bool) (receiver : D → Option Obs)

def State.storeConnections (st : State Sig Obs D) (s : Sig) (pool : NodePool (Connection Obs D))
    (list : Option Anchor) : State Sig Obs D :=
  { st with connectionNodes := pool, connections := Function.update st.connections s list }

def State.storeSignals (st : State Sig Obs D) (o : Obs) (pool : NodePool Sig) (list : Option Anchor) :
    State Sig Obs D :=
  { st with signalNodes := pool, signals := Function.update st.signals o list }

def onSignalConnect (st : State Sig Obs D) (o : Obs) (s : Sig) : Option (State Sig Obs D) := do
  let list ← st.signals o
  let (p,pool,list) ← add a.observerCon asserts st.signalNodes list s
  jlAssert asserts p.isSome
  some (st.storeSignals o pool (some list))

-- `OnSignalDisconnectInternal` is there for derived classes and does nothing itself.
def onSignalDisconnect (st : State Sig Obs D) (o : Obs) (s : Sig) : Option (State Sig Obs D) := do
  let list ← st.signals o
  let (_,_,pool,list) ← sweep a.observerCon asserts (fun x => x = s) (fun _ => true) (fun _ => false)
    st.signalNodes list
  some (st.storeSignals o pool (some list))

def onObserverDisconnect (st : State Sig Obs D) (s : Sig) (o : Obs) : Option (State Sig Obs D) := do
  let list ← st.connections s
  let (_,_,pool,list) ← sweep a.signalCon asserts (fun c => c.pObserver = some o) (fun _ => true)
    (fun _ => false) st.connectionNodes list
  some (st.storeConnections s pool (some list))

/-- The delegate of a method is bound to an object, the delegate of a function is not. -/
def connect (st : State Sig Obs D) (s : Sig) (d : D) : Option (State Sig Obs D) := do
  let list ← st.connections s
  let (p,pool,list) ← add a.signalCon asserts st.connectionNodes list ⟨d,receiver d⟩
  jlAssert asserts p.isSome
  let st := st.storeConnections s pool (some list)
  match receiver d with
  | none => some st
  | some o => onSignalConnect a asserts st o s

def disconnectFunction (st : State Sig Obs D) (s : Sig) (d : D) : Option (State Sig Obs D) := do
  let list ← st.connections s
  let (_,_,pool,list) ← sweep a.signalCon asserts (fun c => c.d = d) (fun c => c.pObserver.isNone)
    (fun _ => false) st.connectionNodes list
  some (st.storeConnections s pool (some list))

def disconnectObserverDelegate (st : State Sig Obs D) (s : Sig) (o : Obs) (d : D) :
    Option (State Sig Obs D) := do
  let list ← st.connections s
  let (nDisconnections,nObserverConnectionCount,pool,list) ← sweep a.signalCon asserts (fun c => c.d = d)
    (fun c => c.pObserver = some o) (fun c => c.pObserver = some o) st.connectionNodes list
  let st := st.storeConnections s pool (some list)
  if 0 < nDisconnections ∧ nObserverConnectionCount = 0 then onSignalDisconnect a asserts st o s else some st

def disconnect (st : State Sig Obs D) (s : Sig) (d : D) : Option (State Sig Obs D) := match receiver d with
  | none => disconnectFunction a asserts st s d
  | some o => disconnectObserverDelegate a asserts st s o d

def disconnectObserver (st : State Sig Obs D) (s : Sig) (o : Obs) : Option (State Sig Obs D) := do
  let list ← st.connections s
  let (nDisconnections,_,pool,list) ← sweep a.signalCon asserts (fun c => c.pObserver = some o)
    (fun _ => true) (fun _ => false) st.connectionNodes list
  let st := st.storeConnections s pool (some list)
  if 0 < nDisconnections then onSignalDisconnect a asserts st o s else some st

def notifyObserver (s : Sig) (c : Connection Obs D) (st : State Sig Obs D) : Option (State Sig Obs D) :=
  match c.pObserver with
  | none => some st
  | some o => onSignalDisconnect a asserts st o s

def disconnectAll (st : State Sig Obs D) (s : Sig) : Option (State Sig Obs D) := do
  let list ← st.connections s
  let st ← visitFrom State.connectionNodes (notifyObserver a asserts s) (a.signalCon.capacity.toNat + 1)
    list.head st
  let list ← st.connections s
  let (pool,list) ← clear a.signalCon asserts st.connectionNodes list
  some (st.storeConnections s pool (some list))

/-- `~Signal`, and with it the list. -/
def endSignal (st : State Sig Obs D) (s : Sig) : Option (State Sig Obs D) := do
  let st ← disconnectAll a asserts st s
  let list ← st.connections s
  let (pool,_) ← clear a.signalCon asserts st.connectionNodes list
  some (st.storeConnections s pool none)

/-- `std::swap`, whose temporary ends with the nodes that the copies share. -/
def swap (st : State Sig Obs D) (s s' tmp : Sig) : Option (State Sig Obs D) :=
  if (st.connections tmp).isSome then none
  else do
    let list ← st.connections s
    let list' ← st.connections s'
    endSignal a asserts { st with connections := Function.update (Function.update
      (Function.update st.connections tmp (some list)) s (some list')) s' (some list) } tmp

def disconnectSignal (st : State Sig Obs D) (o : Obs) (s : Sig) : Option (State Sig Obs D) := do
  let list ← st.signals o
  let found ← anyFrom st.signalNodes (fun x => x = s) (a.observerCon.capacity.toNat + 1) list.head
  if found then onObserverDisconnect a asserts st s o else some st

def disconnectAllSignals (st : State Sig Obs D) (o : Obs) : Option (State Sig Obs D) := do
  let list ← st.signals o
  let st ← visitFrom State.signalNodes (fun s st => onObserverDisconnect a asserts st s o)
    (a.observerCon.capacity.toNat + 1) list.head st
  let list ← st.signals o
  let (pool,list) ← clear a.observerCon asserts st.signalNodes list
  some (st.storeSignals o pool (some list))

/-- `~SignalObserver`, and with it the list. -/
def endObserver (st : State Sig Obs D) (o : Obs) : Option (State Sig Obs D) := do
  let st ← disconnectAllSignals a asserts st o
  let list ← st.signals o
  let (pool,_) ← clear a.observerCon asserts st.signalNodes list
  some (st.storeSignals o pool none)

/-- The delegates that are called, in this order. -/
def emit (st : State Sig Obs D) (s : Sig) : Option (List D) := do
  let list ← st.connections s
  let called ← objects a.signalCon st.connectionNodes list
  some (called.map Connection.d)

def isConnected (st : State Sig Obs D) (s : Sig) (d : D) : Option Bool := do
  let list ← st.connections s
  anyFrom st.connectionNodes (fun c => c.d = d) (a.signalCon.capacity.toNat + 1) list.head

def countConnections (st : State Sig Obs D) (s : Sig) : Option (BitVec 32) := (st.connections s).map Anchor.count

def countSignalConnections (st : State Sig Obs D) (o : Obs) : Option (BitVec 32) :=
  (st.signals o).map Anchor.count

-- Every node of the list of an observer.
def listed (st : State Sig Obs D) (o : Obs) : Option (List Sig) := do
  let list ← st.signals o
  objects a.observerCon st.signalNodes list

end Operations

inductive Use (Sig Obs D : Type) where
  | signal (s : Sig)
  | observer (o : Obs)
  | connect (s : Sig) (d : D)
  | disconnect (s : Sig) (d : D)
  | disconnectObserver (s : Sig) (o : Obs)
  | disconnectAll (s : Sig)
  | endSignal (s : Sig)
  | swap (s s' tmp : Sig)
  | disconnectSignal (o : Obs) (s : Sig)
  | disconnectAllSignals (o : Obs)
  | endObserver (o : Obs)
  deriving DecidableEq

/-- The signals and observers that there are to be, and which delegates each signal is to
call, in the order of the connections. -/
structure Table (Sig Obs D : Type) where
  signals : Sig → Bool
  observers : Obs → Bool
  connections : Sig → List D

structure Described (Sig Obs D : Type) where
  state : State Sig Obs D
  table : Table Sig Obs D

section Uses
variable [DecidableEq Sig] [DecidableEq Obs] [DecidableEq D]
variable (a : Allocators) (asserts : Bool) (receiver : D → Option Obs)

def exec (st : State Sig Obs D) : Use Sig Obs D → Option (State Sig Obs D)
  | .signal s => if (st.connections s).isSome then none
      else some (st.storeConnections s st.connectionNodes (some .construct))
  | .observer o => if (st.signals o).isSome then none
      else some (st.storeSignals o st.signalNodes (some .construct))
  | .connect s d => connect a asserts receiver st s d
  | .disconnect s d => disconnect a asserts receiver st s d
  | .disconnectObserver s o => disconnectObserver a asserts st s o
  | .disconnectAll s => disconnectAll a asserts st s
  | .endSignal s => endSignal a asserts st s
  | .swap s s' tmp => swap a asserts st s s' tmp
  | .disconnectSignal o s => disconnectSignal a asserts st o s
  | .disconnectAllSignals o => disconnectAllSignals a asserts st o
  | .endObserver o => endObserver a asserts st o

namespace Table

def set (t : Table Sig Obs D) (s : Sig) (l : List D) : Table Sig Obs D :=
  { t with connections := Function.update t.connections s l }

def cut (t : Table Sig Obs D) (s : Sig) (o : Obs) : Table Sig Obs D :=
  t.set s ((t.connections s).filter (fun d => receiver d ≠ some o))

def leave (t : Table Sig Obs D) (o : Obs) : Table Sig Obs D :=
  { t with connections := fun s => (t.connections s).filter (fun d => receiver d ≠ some o) }

def use (t : Table Sig Obs D) : Use Sig Obs D → Table Sig Obs D
  | .signal s => { t with signals := Function.update t.signals s true }
  | .observer o => { t with observers := Function.update t.observers o true }
  | .connect s d => t.set s (t.connections s ++ [d])
  | .disconnect s d => t.set s ((t.connections s).filter (fun x => x ≠ d))
  | .disconnectObserver s o | .disconnectSignal o s => t.cut receiver s o
  | .disconnectAll s => t.set s []
  | .endSignal s => { t.set s [] with signals := Function.update t.signals s false }
  | .swap s s' _ => (t.set s (t.connections s')).set s' (t.connections s)
  | .disconnectAllSignals o => t.leave receiver o
  | .endObserver o => { t.leave receiver o with observers := Function.update t.observers o false }

def Connected (t : Table Sig Obs D) (s : Sig) (o : Obs) : Prop := ∃ d ∈ t.connections s, receiver d = some o

/-- A use is of what is there. -/
def Legal (t : Table Sig Obs D) : Use Sig Obs D → Prop
  | .signal s => t.signals s = false
  | .observer o => t.observers o = false
  | .connect s d => t.signals s = true ∧ ∀ o, receiver d = some o → t.observers o = true
  | .disconnect s _ | .disconnectObserver s _ | .disconnectAll s | .endSignal s => t.signals s = true
  | .swap s s' tmp => t.signals s = true ∧ t.signals s' = true ∧ t.signals tmp = false
  | .disconnectSignal o _ | .disconnectAllSignals o | .endObserver o => t.observers o = true

end Table

def step (d : Described Sig Obs D) (use : Use Sig Obs D) : Option (Described Sig Obs D) := do
  let st ← exec a asserts receiver d.state use
  some ⟨st,d.table.use receiver use⟩

def start (memory : Memory (Node Addr (Connection Obs D))) (memory' : Memory (Node Addr Sig)) :
    Described Sig Obs D :=
  ⟨⟨.construct a.signalCon memory,.construct a.observerCon memory',fun _ => none,fun _ => none⟩,
    ⟨fun _ => false,fun _ => false,fun _ => []⟩⟩

-- A pool that is full fails the assertions of `Connect`.
def Room (d : Described Sig Obs D) : Use Sig Obs D → Prop
  | .connect _ x => asserts = false ∨ d.state.connectionNodes.isFull a.signalCon = false ∧
      ((receiver x).isSome = true → d.state.signalNodes.isFull a.observerCon = false)
  | _ => True

/-- Signals call what they are to call, both sides of every connection agree, and what is
legal is defined. -/
structure Faithful (d : Described Sig Obs D) : Prop where
  emit : ∀ s, d.table.signals s = true → emit a d.state s = some (d.table.connections s)
  isConnected : ∀ s x, d.table.signals s = true →
    isConnected a d.state s x = some (decide (x ∈ d.table.connections s))
  countConnections : ∀ s, d.table.signals s = true →
    countConnections d.state s = some (BitVec.ofNat 32 (d.table.connections s).length)
  listed : ∀ o, d.table.observers o = true → ∃ l, listed a d.state o = some l ∧
    countSignalConnections d.state o = some (BitVec.ofNat 32 l.length) ∧
    ∀ s, s ∈ l ↔ d.table.Connected receiver s o
  alive : ∀ s o, d.table.Connected receiver s o → d.table.signals s = true ∧ d.table.observers o = true
  defined : ∀ use, d.table.Legal receiver use → Room a asserts receiver d use →
    (step a asserts receiver d use).isSome = true

/-- No connection is lost for want of a node, `DisconnectSignal`, which leaves the
observer's own node where it is, finds nothing to cut, and a swap finds neither nodes to
free nor an observer that would have to learn of it. -/
def Sound (d : Described Sig Obs D) : Use Sig Obs D → Prop
  | .connect s x => d.state.connectionNodes.isFull a.signalCon = false ∧
      ∀ o, receiver x = some o →
        d.state.signalNodes.isFull a.observerCon = false ∨ d.table.Connected receiver s o
  | .disconnectSignal o s => ¬ d.table.Connected receiver s o
  | .swap s s' _ => d.table.connections s = [] ∧ ∀ x ∈ d.table.connections s', receiver x = none
  | _ => True

end Uses

/-- What the lists that are there hold. The others hold nothing. -/
def Stores {K β : Type} (b : NodeBuffer) (pool : NodePool β) (anchors : K → Option Anchor)
    (contents : K → List β) : Prop :=
  ∃ free lists, Arranged b pool free lists ∧ ∀ k, (lists k).objects = contents k ∧
    (anchors k = some (anchored (lists k)) ∨ anchors k = none ∧ lists k = [])

section Stored
variable {K β : Type} {b : NodeBuffer} {pool pool' : NodePool β} {anchors : K → Option Anchor}
variable {contents : K → List β} {k : K} {list : Anchor}

theorem storesThere (stores : Stores b pool anchors contents) (there : anchors k = some list) :
    ∃ free lists, Arranged b pool free lists ∧ list = anchored (lists k) ∧ (lists k).objects = contents k ∧
      ∀ k, (lists k).objects = contents k ∧
        (anchors k = some (anchored (lists k)) ∨ anchors k = none ∧ lists k = []) := by
  obtain ⟨free,lists,arranged,all⟩ := stores
  obtain ⟨objects,here | ⟨gone,-⟩⟩ := all k
  · exact ⟨free,lists,arranged,Option.some.inj (there.symm.trans here),objects,all⟩
  · rw [there] at gone
    contradiction

theorem storesGone (stores : Stores b pool anchors contents) (gone : anchors k = none) : contents k = [] := by
  obtain ⟨_,lists,-,all⟩ := stores
  obtain ⟨objects,here | ⟨-,nothing⟩⟩ := all k
  · rw [gone] at here
    contradiction
  · rw [← objects,nothing]
    rfl

theorem storesFresh (b : NodeBuffer) (memory : Memory (Node Addr β)) :
    Stores b (.construct b memory) (fun _ : K => none) (fun _ => []) := by
  refine ⟨b.slots,fun _ => [],⟨constructStocked b memory,fun _ => List.nodup_nil,fun _ => threadsNil,?_,?_⟩,
    fun _ => ⟨rfl,.inr ⟨rfl,rfl⟩⟩⟩
  · intro _ _ p mem
    cases mem
  · intro p
    simp

theorem storesObjects (stores : Stores b pool anchors contents) (there : anchors k = some list) :
    objects b pool list = some (contents k) := by
  obtain ⟨_,_,arranged,rfl,objects,-⟩ := storesThere stores there
  rw [objectsDone arranged,objects]

theorem storesCount (stores : Stores b pool anchors contents) (there : anchors k = some list) :
    list.count = BitVec.ofNat 32 (contents k).length := by
  obtain ⟨_,lists,_,rfl,objects,-⟩ := storesThere stores there
  rw [← objects,Entries.objects,List.length_map]
  rfl

theorem storesEmpty (stores : Stores b pool anchors contents) (there : anchors k = some list)
    (empty : contents k = []) : list = .construct := by
  obtain ⟨_,lists,_,rfl,objects,-⟩ := storesThere stores there
  rw [empty,Entries.objects,List.map_eq_nil_iff] at objects
  rw [objects,anchoredNil]

theorem storesAllocations (stores : Stores b pool anchors contents) (keys : Finset K)
    (all : ∀ k, k ∉ keys → contents k = []) : ∑ k ∈ keys, (contents k).length = pool.allocations.toNat := by
  obtain ⟨_,lists,arranged,each⟩ := stores
  have lengths : ∀ k, (contents k).length = (lists k).length := by
    intro k
    rw [← (each k).1,Entries.objects,List.length_map]
  rw [Finset.sum_congr rfl (fun k _ => lengths k)]
  refine arrangedAllocations arranged keys (fun k out => ?_)
  have empty := all k out
  rwa [← (each k).1,Entries.objects,List.map_eq_nil_iff] at empty

theorem storesHead (stores : Stores b pool anchors contents) (there : anchors k = some list)
    (some' : contents k ≠ []) : ∃ p, list.head = some p := by
  obtain ⟨_,lists,_,rfl,objects,-⟩ := storesThere stores there
  cases here : lists k with
  | nil =>
    rw [← objects,here] at some'
    contradiction
  | cons e rest => exact ⟨e.1,rfl⟩

variable [DecidableEq K]

theorem updatedSwap {V : Type} (f : K → V) (i j : K) :
    Function.update (Function.update f i (f j)) j (f i) = fun k => f (Equiv.swap i j k) := by
  funext k
  rcases eq_or_ne k j with rfl | other
  · simp
  · rcases eq_or_ne k i with rfl | other'
    · simp [other]
    · simp [other,other',Equiv.swap_apply_of_ne_of_ne]

/-- One list may be replaced. -/
theorem storesReplaced {free : List Addr} {lists : K → Entries Addr β} (l : Entries Addr β)
    (arranged : Arranged b pool' free (Function.update lists k l))
    (all : ∀ k, (lists k).objects = contents k ∧
      (anchors k = some (anchored (lists k)) ∨ anchors k = none ∧ lists k = [])) :
    Stores b pool' (Function.update anchors k (some (anchored l))) (Function.update contents k l.objects) := by
  refine ⟨free,_,arranged,fun j => ?_⟩
  rcases eq_or_ne j k with rfl | other
  · simp
  · simpa [other] using all j

theorem storesBegun (stores : Stores b pool anchors contents) (gone : anchors k = none) :
    Stores b pool (Function.update anchors k (some .construct)) contents := by
  obtain ⟨free,lists,arranged,all⟩ := stores
  refine ⟨free,lists,arranged,fun j => ?_⟩
  rcases eq_or_ne j k with rfl | other
  · obtain ⟨objects,here | ⟨-,nothing⟩⟩ := all j
    · rw [gone] at here
      contradiction
    · exact ⟨objects,.inl (by simp [nothing])⟩
  · simpa [other] using all j

theorem storesEnded (stores : Stores b pool anchors contents) (empty : contents k = []) :
    Stores b pool (Function.update anchors k none) contents := by
  obtain ⟨free,lists,arranged,all⟩ := stores
  refine ⟨free,lists,arranged,fun j => ?_⟩
  rcases eq_or_ne j k with rfl | other
  · refine ⟨(all j).1,.inr ⟨by simp,?_⟩⟩
    rw [← (all j).1,Entries.objects,List.map_eq_nil_iff] at empty
    exact empty
  · simpa [other] using all j

theorem storesAdd (stores : Stores b pool anchors contents) (there : anchors k = some list) (asserts : Bool)
    (o : β) :
    (add b asserts pool list o = none ∧ asserts = true ∧ pool.isFull b = true) ∨
    ∃ p pool' list', add b asserts pool list o = some (p,pool',list') ∧ jlAssert asserts p.isSome = some () ∧
      (asserts = false ∨ pool.isFull b = false) ∧ Stores b pool' (Function.update anchors k (some list'))
        (if pool.isFull b then contents else Function.update contents k (contents k ++ [o])) := by
  obtain ⟨free,lists,arranged,rfl,objects,all⟩ := storesThere stores there
  cases free with
  | nil =>
    have full := (isFullExact arranged.stocked).mpr rfl
    cases asserts with
    | true => exact .inl ⟨addFull arranged o _,rfl,full⟩
    | false =>
      refine .inr ⟨none,pool,_,addFull arranged o _,rfl,.inl rfl,?_⟩
      rw [if_pos full,← there,Function.update_eq_self]
      exact stores
  | cons p rest =>
    have room : pool.isFull b = false := by
      rw [← Bool.not_eq_true,isFullExact arranged.stocked]
      exact List.cons_ne_nil p rest
    obtain ⟨pool',added,arranged'⟩ := addDone asserts arranged (k := k) o
    refine .inr ⟨some p,pool',_,added,by cases asserts <;> rfl,.inr room,?_⟩
    have grown := storesReplaced _ arranged' all
    rw [Entries.objectsAppend,objects] at grown
    rw [room]
    exact grown

theorem storesSweep (stores : Stores b pool anchors contents) (there : anchors k = some list) {asserts : Bool}
    {cut check counts : β → Bool} (checked : ∀ o ∈ contents k, cut o = true → check o = true) :
    ∃ pool' list', sweep b asserts cut check counts pool list =
        some ((contents k).countP cut,(contents k).countP (fun o => !cut o && counts o),pool',list') ∧
      Stores b pool' (Function.update anchors k (some list'))
        (Function.update contents k ((contents k).filter (fun o => !cut o))) := by
  obtain ⟨free,lists,arranged,rfl,objects,all⟩ := storesThere stores there
  have asserted : ∀ e ∈ lists k, cut e.2 = true → jlAssert asserts (check e.2) = some () := by
    intro e mem isCut
    have mem : e.2 ∈ (lists k).objects := List.mem_map_of_mem mem
    rw [checked e.2 (objects ▸ mem) isCut]
    cases asserts <;> rfl
  obtain ⟨pool',free',swept,arranged'⟩ := @sweepDone _ _ _ _ _ _ _ asserts cut check counts arranged k asserted
  have left := storesReplaced _ arranged' all
  rw [Entries.objectsFilter (fun o => !cut o),objects] at left
  refine ⟨pool',_,?_,left⟩
  rw [swept,← objects,Entries.objects,List.countP_map,List.countP_map]
  rfl

theorem storesClear (stores : Stores b pool anchors contents) (there : anchors k = some list) (asserts : Bool) :
    ∃ pool', clear b asserts pool list = some (pool',.construct) ∧
      Stores b pool' (Function.update anchors k (some .construct)) (Function.update contents k []) ∧
      ∀ p, list.head = some p → read pool' p = none := by
  obtain ⟨free,lists,arranged,rfl,objects,all⟩ := storesThere stores there
  obtain ⟨pool',free',cleared,arranged',gone⟩ := clearDone asserts arranged k
  refine ⟨pool',cleared,storesReplaced _ arranged' all,fun p isFirst => ?_⟩
  exact gone p (Entries.firstMem isFirst)

omit [DecidableEq K] in
/-- The lists may change their names. -/
theorem storesRenamed (stores : Stores b pool anchors contents) (σ : Equiv.Perm K) :
    Stores b pool (fun k => anchors (σ k)) (fun k => contents (σ k)) := by
  obtain ⟨free,lists,arranged,all⟩ := stores
  refine ⟨free,fun k => lists (σ k),⟨arranged.stocked,fun k => arranged.distinct (σ k),
    fun k => arranged.threads (σ k),fun i j p here there => ?_,fun p => ?_⟩,fun k => all (σ k)⟩
  · exact σ.injective (arranged.apart _ _ p here there)
  · rw [← arranged.used]
    exact ⟨fun ⟨k,mem⟩ => ⟨σ k,mem⟩,fun ⟨k,mem⟩ => ⟨σ.symm k,by rwa [σ.apply_symm_apply]⟩⟩

end Stored

section Visits
variable {σ β : Type} {before after : Entries Addr β} {fuel : Nat}

theorem visitFromDone {pool : σ → NodePool β} {body : β → σ → Option σ} (before : Entries Addr β) {st : σ}
    (keeps : ∀ o st st', body o st = some st' → pool st' = pool st)
    (threads : Threads (read (pool st)) (before ++ after)) (enough : after.length < fuel) :
    visitFrom pool body fuel after.first st = after.objects.foldlM (fun st o => body o st) st := by
  induction after generalizing before fuel st with
  | nil =>
    cases fuel with
    | zero => cases enough
    | succ fuel => rfl
  | cons e rest ih =>
    cases fuel with
    | zero => exact absurd enough (Nat.not_lt_zero _)
    | succ fuel =>
      have found := threadsAt threads
      rw [Entries.firstCons,visitFrom,found,Entries.objectsCons,List.foldlM_cons]
      simp only [bind,Option.bind]
      cases visited : body e.2 st with
      | none => rfl
      | some st' =>
        have same := keeps _ _ _ visited
        simp only [same,found]
        exact ih (before ++ [e]) (by rw [same,← List.append_cons]; exact threads)
          (Nat.lt_of_succ_lt_succ enough)

theorem anyFromDone {pool : NodePool β} (before : Entries Addr β) (found : β → Bool)
    (threads : Threads (read pool) (before ++ after)) (enough : after.length < fuel) :
    anyFrom pool found fuel after.first = some (after.objects.any found) := by
  induction after generalizing before fuel with
  | nil =>
    cases fuel with
    | zero => cases enough
    | succ fuel => rfl
  | cons e rest ih =>
    cases fuel with
    | zero => exact absurd enough (Nat.not_lt_zero _)
    | succ fuel =>
      have later := ih (before ++ [e]) (by rw [← List.append_cons]; exact threads) (Nat.lt_of_succ_lt_succ enough)
      rw [Entries.firstCons,anyFrom,threadsAt threads,Entries.objectsCons,List.any_cons]
      cases here : found e.2 with
      | true => simp [here]
      | false => simp [here,later]

variable {K : Type} {b : NodeBuffer} {anchors : K → Option Anchor} {contents : K → List β} {k : K} {list : Anchor}

theorem storesVisited {pool : σ → NodePool β} {body : β → σ → Option σ} {st : σ}
    (keeps : ∀ o st st', body o st = some st' → pool st' = pool st)
    (stores : Stores b (pool st) anchors contents) (there : anchors k = some list) :
    visitFrom pool body (b.capacity.toNat + 1) list.head st = (contents k).foldlM (fun st o => body o st) st := by
  obtain ⟨_,_,arranged,rfl,objects,-⟩ := storesThere stores there
  rw [← objects]
  exact visitFromDone [] keeps (arranged.threads k) (enoughFuel arranged k)

theorem storesAny {pool : NodePool β} (found : β → Bool) (stores : Stores b pool anchors contents)
    (there : anchors k = some list) :
    anyFrom pool found (b.capacity.toNat + 1) list.head = some ((contents k).any found) := by
  obtain ⟨_,_,arranged,rfl,objects,-⟩ := storesThere stores there
  rw [← objects]
  exact anyFromDone [] found (arranged.threads k) (enoughFuel arranged k)

end Visits

def made (receiver : D → Option Obs) (d : D) : Connection Obs D := ⟨d,receiver d⟩

theorem madeFilter {receiver : D → Option Obs} {p : Connection Obs D → Bool} (q : D → Bool)
    (same : ∀ d, p (made receiver d) = q d) (l : List D) :
    (l.map (made receiver)).filter p = (l.filter q).map (made receiver) := by
  rw [List.filter_map]
  exact congrArg _ (List.filter_congr (fun d _ => same d))

theorem madeCount {receiver : D → Option Obs} {p : Connection Obs D → Bool} (q : D → Bool)
    (same : ∀ d, p (made receiver d) = q d) (l : List D) : (l.map (made receiver)).countP p = l.countP q := by
  rw [List.countP_map]
  exact List.countP_congr (fun d _ => by rw [Function.comp_apply,same])

/-- What the lists of the observers hold. -/
structure Lists (a : Allocators) (st : State Sig Obs D) (t : Table Sig Obs D) (sigs : Obs → List Sig) : Prop where
  signals : Stores a.observerCon st.signalNodes st.signals sigs
  observersThere : ∀ o, (st.signals o).isSome = t.observers o

/-- The lists of the signals hold the connections of the table. -/
structure Carries (a : Allocators) (receiver : D → Option Obs) (st : State Sig Obs D) (t : Table Sig Obs D)
    (sigs : Obs → List Sig) : Prop extends Lists a st t sigs where
  connections : Stores a.signalCon st.connectionNodes st.connections
    (fun s => (t.connections s).map (made receiver))
  signalsThere : ∀ s, (st.connections s).isSome = t.signals s

section Carried
variable {a : Allocators} {asserts : Bool} {receiver : D → Option Obs}
variable {st st' : State Sig Obs D} {t : Table Sig Obs D} {sigs : Obs → List Sig} {s : Sig} {o : Obs}

theorem signalThere (carries : Carries a receiver st t sigs) (alive : t.signals s = true) :
    ∃ list, st.connections s = some list :=
  Option.isSome_iff_exists.mp ((carries.signalsThere s).trans alive)

theorem observerThere (lists : Lists a st t sigs) (alive : t.observers o = true) :
    ∃ list, st.signals o = some list :=
  Option.isSome_iff_exists.mp ((lists.observersThere o).trans alive)

theorem signalFound {list : Anchor} (carries : Carries a receiver st t sigs)
    (found : st.connections s = some list) : t.signals s = true := by
  rw [← carries.signalsThere,found]
  rfl

theorem observerFound {list : Anchor} (lists : Lists a st t sigs) (found : st.signals o = some list) :
    t.observers o = true := by
  rw [← lists.observersThere,found]
  rfl

theorem carriesEmit (carries : Carries a receiver st t sigs) (alive : t.signals s = true) :
    emit a st s = some (t.connections s) := by
  obtain ⟨list,found⟩ := signalThere carries alive
  have called := storesObjects carries.connections found
  simp only [emit,found,called,bind,Option.bind,List.map_map]
  exact congrArg some (List.map_id _)

theorem carriesListed (lists : Lists a st t sigs) (alive : t.observers o = true) :
    listed a st o = some (sigs o) := by
  obtain ⟨list,found⟩ := observerThere lists alive
  simp only [listed,found,storesObjects lists.signals found,bind,Option.bind]

theorem carriesLists {sigs' : Obs → List Sig} (carries : Carries a receiver st t sigs)
    (lists : Lists a st' t sigs')
    (same : st'.connectionNodes = st.connectionNodes ∧ st'.connections = st.connections) :
    Carries a receiver st' t sigs' := by
  refine ⟨lists,?_,fun s => ?_⟩
  · rw [same.1,same.2]
    exact carries.connections
  · rw [same.2]
    exact carries.signalsThere s

variable [DecidableEq Sig] [DecidableEq Obs]

omit [DecidableEq Obs] in
theorem contentsSet (l : List D) : (fun s' => ((t.set s l).connections s').map (made receiver)) =
    Function.update (fun s => (t.connections s).map (made receiver)) s (l.map (made receiver)) := by
  funext s'
  rcases eq_or_ne s' s with rfl | other
  · simp [Table.set]
  · simp [Table.set,other]

omit [DecidableEq Obs] in
theorem carriesConnections (carries : Carries a receiver st t sigs) (alive : t.signals s = true)
    {pool : NodePool (Connection Obs D)} {list : Anchor} {l : List D}
    (stores : Stores a.signalCon pool (Function.update st.connections s (some list))
      (Function.update (fun s => (t.connections s).map (made receiver)) s (l.map (made receiver)))) :
    Carries a receiver (st.storeConnections s pool (some list)) (t.set s l) sigs := by
  refine ⟨⟨carries.signals,carries.observersThere⟩,?_,fun s' => ?_⟩
  · rw [contentsSet]
    exact stores
  · rcases eq_or_ne s' s with rfl | other
    · simp [State.storeConnections,Table.set,alive]
    · simp [State.storeConnections,Table.set,other,carries.signalsThere]

omit [DecidableEq Sig] in
theorem listsReplaced (lists : Lists a st t sigs) (alive : t.observers o = true)
    {pool : NodePool Sig} {list : Anchor} {sigs' : Obs → List Sig}
    (stores : Stores a.observerCon pool (Function.update st.signals o (some list)) sigs') :
    Lists a (st.storeSignals o pool (some list)) t sigs' := by
  refine ⟨stores,fun o' => ?_⟩
  rcases eq_or_ne o' o with rfl | other
  · simp [State.storeSignals,alive]
  · simp [State.storeSignals,other,lists.observersThere]

omit [DecidableEq Obs] in
theorem signalBegun (carries : Carries a receiver st t sigs) (alive : t.signals s = false) :
    st.connections s = none ∧ Carries a receiver (st.storeConnections s st.connectionNodes (some .construct))
      { t with signals := Function.update t.signals s true } sigs := by
  have gone : st.connections s = none := by simpa [alive] using carries.signalsThere s
  refine ⟨gone,⟨carries.signals,carries.observersThere⟩,storesBegun carries.connections gone,fun s' => ?_⟩
  rcases eq_or_ne s' s with rfl | other
  · simp [State.storeConnections]
  · simp [State.storeConnections,other,carries.signalsThere]

omit [DecidableEq Sig] in
theorem observerBegun (carries : Carries a receiver st t sigs) (alive : t.observers o = false) :
    st.signals o = none ∧ Carries a receiver (st.storeSignals o st.signalNodes (some .construct))
      { t with observers := Function.update t.observers o true } sigs := by
  have gone : st.signals o = none := by simpa [alive] using carries.observersThere o
  refine ⟨gone,⟨storesBegun carries.signals gone,fun o' => ?_⟩,carries.connections,carries.signalsThere⟩
  rcases eq_or_ne o' o with rfl | other
  · simp [State.storeSignals]
  · simp [State.storeSignals,other,carries.observersThere]

theorem onSignalDisconnectFrame (taken : onSignalDisconnect a asserts st o s = some st') :
    st'.connectionNodes = st.connectionNodes ∧ st'.connections = st.connections := by
  simp only [onSignalDisconnect,bind,Option.bind_eq_some_iff,Option.some.injEq] at taken
  obtain ⟨list,-,swept,-,rfl⟩ := taken
  exact ⟨rfl,rfl⟩

theorem onObserverDisconnectFrame (taken : onObserverDisconnect a asserts st s o = some st') :
    st'.signalNodes = st.signalNodes ∧ st'.signals = st.signals := by
  simp only [onObserverDisconnect,bind,Option.bind_eq_some_iff,Option.some.injEq] at taken
  obtain ⟨list,-,swept,-,rfl⟩ := taken
  exact ⟨rfl,rfl⟩

theorem onSignalDisconnectDone (asserts : Bool) (lists : Lists a st t sigs) (alive : t.observers o = true)
    (s : Sig) : ∃ st', onSignalDisconnect a asserts st o s = some st' ∧
      Lists a st' t (Function.update sigs o ((sigs o).filter (fun x => x ≠ s))) := by
  obtain ⟨list,there⟩ := observerThere lists alive
  obtain ⟨pool,list',swept,stores⟩ := @storesSweep _ _ _ _ _ _ _ _ _ lists.signals there asserts
    (fun x => x = s) (fun _ => true) (fun _ => false) (fun _ _ _ => rfl)
  refine ⟨st.storeSignals o pool (some list'),?_,listsReplaced lists alive ?_⟩
  · simp [onSignalDisconnect,there,swept]
  · simpa using stores

theorem onObserverDisconnectDone (asserts : Bool) (carries : Carries a receiver st t sigs)
    (alive : t.signals s = true) (o : Obs) :
    ∃ st', onObserverDisconnect a asserts st s o = some st' ∧
      Carries a receiver st' (t.cut receiver s o) sigs := by
  obtain ⟨list,there⟩ := signalThere carries alive
  obtain ⟨pool,list',swept,stores⟩ := @storesSweep _ _ _ _ _ _ _ _ _ carries.connections there asserts
    (fun c => c.pObserver = some o) (fun _ => true) (fun _ => false) (fun _ _ _ => rfl)
  refine ⟨st.storeConnections s pool (some list'),?_,carriesConnections carries alive ?_⟩
  · simp [onObserverDisconnect,there,swept]
  · rwa [madeFilter (fun d => receiver d ≠ some o) (fun _ => decide_not.symm)] at stores

theorem notifyFrame {c : Connection Obs D} (taken : notifyObserver a asserts s c st = some st') :
    st'.connectionNodes = st.connectionNodes ∧ st'.connections = st.connections := by
  unfold notifyObserver at taken
  split at taken
  · cases taken
    exact ⟨rfl,rfl⟩
  · exact onSignalDisconnectFrame taken

/-- The observers of the connections that are walked are told that the signal leaves. -/
theorem notifyAllDone (asserts : Bool) (s : Sig) {cs : List (Connection Obs D)} (lists : Lists a st t sigs)
    (there : ∀ c ∈ cs, ∀ o, c.pObserver = some o → t.observers o = true) :
    ∃ st' sigs', cs.foldlM (fun st c => notifyObserver a asserts s c st) st = some st' ∧ Lists a st' t sigs' ∧
      (∀ x o, x ∈ sigs' o ↔ x ∈ sigs o ∧ ¬ (x = s ∧ ∃ c ∈ cs, c.pObserver = some o)) ∧
      st'.connectionNodes = st.connectionNodes ∧ st'.connections = st.connections := by
  induction cs generalizing st sigs with
  | nil => exact ⟨st,sigs,rfl,lists,fun x o => by simp,rfl,rfl⟩
  | cons c rest ih =>
    have later := fun c mem => there c (List.mem_cons_of_mem _ mem)
    rw [List.foldlM_cons]
    cases told : c.pObserver with
    | none =>
      obtain ⟨st',sigs',walked,lists',mem,same⟩ := ih lists later
      refine ⟨st',sigs',?_,lists',fun x o => ?_,same⟩
      · simpa [notifyObserver,told] using walked
      · simp [mem,told]
    | some o =>
      obtain ⟨st₁,notified,lists₁⟩ := onSignalDisconnectDone asserts lists
        (there c List.mem_cons_self o told) s
      obtain ⟨nodes,anchors⟩ := onSignalDisconnectFrame notified
      obtain ⟨st',sigs',walked,lists',mem,nodes',anchors'⟩ := ih lists₁ later
      refine ⟨st',sigs',?_,lists',fun x o' => ?_,nodes'.trans nodes,anchors'.trans anchors⟩
      · simpa [notifyObserver,told,notified] using walked
      · rw [mem]
        rcases eq_or_ne o' o with rfl | other
        · simp [told]
          tauto
        · simp [told,other,other.symm]

/-- The signals that are walked cut their connections to the observer that leaves. -/
theorem leaveAllDone (asserts : Bool) (o : Obs) {l : List Sig} (carries : Carries a receiver st t sigs)
    (there : ∀ s ∈ l, t.signals s = true) :
    ∃ st', l.foldlM (fun st s => onObserverDisconnect a asserts st s o) st = some st' ∧
      Carries a receiver st' (l.foldl (fun t s => t.cut receiver s o) t) sigs ∧ st'.signals = st.signals := by
  induction l generalizing st t with
  | nil => exact ⟨st,rfl,carries,rfl⟩
  | cons s rest ih =>
    obtain ⟨st₁,cut,carries₁⟩ := onObserverDisconnectDone asserts carries (there s List.mem_cons_self) o
    obtain ⟨st',walked,carries',same⟩ := ih carries₁ (fun s mem => there s (List.mem_cons_of_mem _ mem))
    refine ⟨st',?_,carries',same.trans (onObserverDisconnectFrame cut).2⟩
    rw [List.foldlM_cons,cut]
    exact walked

theorem cutAll (receiver : D → Option Obs) (t : Table Sig Obs D) (o : Obs) (l : List Sig) :
    l.foldl (fun t s => t.cut receiver s o) t = { t with
      connections := fun s => if s ∈ l then (t.leave receiver o).connections s else t.connections s } := by
  induction l generalizing t with
  | nil => simp
  | cons s rest ih =>
    rw [List.foldl_cons,ih]
    simp only [Table.cut,Table.set,Table.mk.injEq,true_and]
    funext s'
    rcases eq_or_ne s' s with rfl | other
    · simp [Table.leave]
    · simp [Table.leave,other]

theorem leaveListed (t : Table Sig Obs D) {l : List Sig} (all : ∀ s, t.Connected receiver s o → s ∈ l) :
    l.foldl (fun t s => t.cut receiver s o) t = t.leave receiver o := by
  rw [cutAll,Table.leave]
  congr
  funext s
  split
  · rfl
  · rename_i out
    refine (List.filter_eq_self.mpr (fun d mem => ?_)).symm
    exact decide_eq_true (fun same : receiver d = some o => out (all s ⟨d,mem,same⟩))

/-- The nodes of a list are visited and then freed. The signal that holds the list may be
another than the one in whose name the list is kept. -/
theorem visitedCleared (asserts : Bool) (s : Sig) {key : Sig} {list : Anchor} {anchors : Sig → Option Anchor}
    {conns : Sig → List D} (lists : Lists a st t sigs) (held : st.connections s = some list)
    (stores : Stores a.signalCon st.connectionNodes anchors (fun s => (conns s).map (made receiver)))
    (found : anchors key = some list)
    (there : ∀ d ∈ conns key, ∀ o, receiver d = some o → t.observers o = true) :
    ∃ st' sigs', disconnectAll a asserts st s = some st' ∧
      st'.connections = Function.update st.connections s (some .construct) ∧ Lists a st' t sigs' ∧
      (∀ x o, x ∈ sigs' o ↔ x ∈ sigs o ∧ ¬ (x = s ∧ ∃ d ∈ conns key, receiver d = some o)) ∧
      Stores a.signalCon st'.connectionNodes (Function.update anchors key (some .construct))
        (Function.update (fun s => (conns s).map (made receiver)) key []) ∧
      ∀ p, list.head = some p → read st'.connectionNodes p = none := by
  have visited := storesVisited (fun c st st' taken => (@notifyFrame _ _ _ a asserts st st' s _ _ c taken).1)
    stores found
  obtain ⟨st₁,sigs₁,walked,lists₁,mem,nodes,same⟩ := @notifyAllDone _ _ _ _ _ _ _ _ _ asserts s
    ((conns key).map (made receiver)) lists (by
      intro c mem o told
      obtain ⟨d,here,rfl⟩ := List.mem_map.mp mem
      exact there d here o told)
  rw [walked] at visited
  have held₁ : st₁.connections s = some list := by rw [same,held]
  rw [← nodes] at stores
  obtain ⟨pool,cleared,stores',gone⟩ := storesClear stores found asserts
  refine ⟨st₁.storeConnections s pool (some .construct),sigs₁,?_,?_,⟨lists₁.signals,lists₁.observersThere⟩,
    fun x o => ?_,stores',gone⟩
  · simp only [disconnectAll,held,visited,held₁,cleared,bind,Option.bind]
  · rw [State.storeConnections,same]
  · rw [mem]
    simp [made]

theorem disconnectAllDone (asserts : Bool) (carries : Carries a receiver st t sigs) (alive : t.signals s = true)
    (there : ∀ o, t.Connected receiver s o → t.observers o = true) :
    ∃ st' sigs', disconnectAll a asserts st s = some st' ∧ Carries a receiver st' (t.set s []) sigs' ∧
      ∀ x o, x ∈ sigs' o ↔ x ∈ sigs o ∧ ¬ (x = s ∧ t.Connected receiver s o) := by
  obtain ⟨list,found⟩ := signalThere carries alive
  obtain ⟨st',sigs',done,same,lists,mem,stores,-⟩ := visitedCleared asserts s carries.toLists found
    carries.connections found (fun d mem o bound => there o ⟨d,mem,bound⟩)
  refine ⟨st',sigs',done,⟨⟨lists.signals,lists.observersThere⟩,?_,fun s' => ?_⟩,mem⟩
  · rw [same,contentsSet]
    exact stores
  · rw [same]
    rcases eq_or_ne s' s with rfl | other
    · simp [Table.set,alive]
    · simp [Table.set,other,carries.signalsThere]

/-- `~Signal` leaves no more than `DisconnectAll`, which has emptied the list. -/
theorem endedAll (asserts : Bool) {st' : State Sig Obs D} (left : disconnectAll a asserts st s = some st')
    (empty : st'.connections s = some .construct) :
    endSignal a asserts st s = some (st'.storeConnections s st'.connectionNodes none) := by
  simp only [endSignal,left,empty,bind,Option.bind]
  rfl

theorem endSignalDone (asserts : Bool) (carries : Carries a receiver st t sigs) (alive : t.signals s = true)
    (there : ∀ o, t.Connected receiver s o → t.observers o = true) :
    ∃ st' sigs', endSignal a asserts st s = some st' ∧
      Carries a receiver st' { t.set s [] with signals := Function.update t.signals s false } sigs' ∧
      ∀ x o, x ∈ sigs' o ↔ x ∈ sigs o ∧ ¬ (x = s ∧ t.Connected receiver s o) := by
  obtain ⟨list,found⟩ := signalThere carries alive
  obtain ⟨st₁,sigs',done,same,lists,mem,stores,-⟩ := visitedCleared asserts s carries.toLists found
    carries.connections found (fun d mem o bound => there o ⟨d,mem,bound⟩)
  have ended := storesEnded stores (Function.update_self ..)
  rw [Function.update_idem] at ended
  refine ⟨_,sigs',endedAll asserts done (by rw [same,Function.update_self]),
    ⟨⟨lists.signals,lists.observersThere⟩,?_,fun s' => ?_⟩,mem⟩
  · simp only [State.storeConnections,same,Function.update_idem,contentsSet]
    exact ended
  · simp only [State.storeConnections,same,Function.update_idem]
    rcases eq_or_ne s' s with rfl | other
    · simp
    · simp [other,carries.signalsThere]

theorem swapDone (asserts : Bool) (carries : Carries a receiver st t sigs) (alive : t.signals s = true)
    {s' tmp : Sig} (alive' : t.signals s' = true) (gone : t.signals tmp = false) (unlisted : ∀ o, tmp ∉ sigs o)
    (there : ∀ o, t.Connected receiver s o → t.observers o = true) :
    ∃ st' sigs' list, swap a asserts st s s' tmp = some st' ∧ st.connections s = some list ∧
      st'.connections = Function.update (Function.update st.connections s (st.connections s')) s' (some list) ∧
      Lists a st' t sigs' ∧ (∀ x o, x ∈ sigs' o ↔ x ∈ sigs o) ∧
      Stores a.signalCon st'.connectionNodes (Function.update st.connections s (some .construct))
        (Function.update (fun s => (t.connections s).map (made receiver)) s []) ∧
      ∀ p, list.head = some p → read st'.connectionNodes p = none := by
  obtain ⟨list,found⟩ := signalThere carries alive
  obtain ⟨list',found'⟩ := signalThere carries alive'
  have free : st.connections tmp = none := by simpa [gone] using carries.signalsThere tmp
  have other : tmp ≠ s := by
    rintro rfl
    rw [gone] at alive
    cases alive
  have other' : tmp ≠ s' := by
    rintro rfl
    rw [gone] at alive'
    cases alive'
  obtain ⟨st₁,sigs',done,same,lists,mem,stores,freed⟩ := @visitedCleared _ _ _ a receiver
    { st with connections := Function.update (Function.update (Function.update st.connections tmp (some list))
      s (some list')) s' (some list) } t sigs _ _ asserts tmp s list _ _ ⟨carries.signals,carries.observersThere⟩
    (by simp [other,other']) carries.connections found (fun d mem o bound => there o ⟨d,mem,bound⟩)
  refine ⟨st₁.storeConnections tmp st₁.connectionNodes none,sigs',list,?_,found,?_,
    ⟨lists.signals,lists.observersThere⟩,fun x o => ?_,stores,freed⟩
  · simp only [swap,free,found,found',bind,Option.bind]
    exact endedAll asserts done (by rw [same,Function.update_self])
  · rw [State.storeConnections,same,found']
    funext x
    rcases eq_or_ne x tmp with rfl | away
    · simp [other,other',free]
    · simp [Function.update_apply,away]
  · rw [mem]
    refine ⟨fun here => here.1,fun here => ⟨here,?_⟩⟩
    rintro ⟨rfl,-⟩
    exact unlisted o here

theorem disconnectAllSignalsDone (asserts : Bool) (carries : Carries a receiver st t sigs)
    (alive : t.observers o = true) (back : ∀ s, s ∈ sigs o ↔ t.Connected receiver s o)
    (there : ∀ s, t.Connected receiver s o → t.signals s = true) :
    ∃ st', disconnectAllSignals a asserts st o = some st' ∧
      Carries a receiver st' (t.leave receiver o) (Function.update sigs o []) := by
  obtain ⟨list,found⟩ := observerThere carries.toLists alive
  have visited := storesVisited
    (fun s st st' taken => (@onObserverDisconnectFrame _ _ _ a asserts st st' s o _ _ taken).1)
    carries.signals found
  obtain ⟨st₁,walked,carries₁,same⟩ := leaveAllDone asserts o carries
    (fun s mem => there s ((back s).mp mem))
  rw [leaveListed t (fun s joined => (back s).mpr joined)] at carries₁
  rw [walked] at visited
  have found₁ : st₁.signals o = some list := by rw [same,found]
  obtain ⟨pool,cleared,stores,-⟩ := storesClear carries₁.signals found₁ asserts
  refine ⟨st₁.storeSignals o pool (some .construct),?_,
    carriesLists carries₁ (listsReplaced carries₁.toLists alive stores) ⟨rfl,rfl⟩⟩
  simp only [disconnectAllSignals,found,visited,found₁,cleared,bind,Option.bind]

theorem endObserverDone (asserts : Bool) (carries : Carries a receiver st t sigs)
    (alive : t.observers o = true) (back : ∀ s, s ∈ sigs o ↔ t.Connected receiver s o)
    (there : ∀ s, t.Connected receiver s o → t.signals s = true) :
    ∃ st', endObserver a asserts st o = some st' ∧
      Carries a receiver st' { t.leave receiver o with observers := Function.update t.observers o false }
        (Function.update sigs o []) := by
  obtain ⟨st₁,left,carries₁⟩ := disconnectAllSignalsDone asserts carries alive back there
  obtain ⟨list,found⟩ := observerThere carries₁.toLists alive
  obtain ⟨pool,cleared,stores,-⟩ := storesClear carries₁.signals found asserts
  rw [Function.update_idem] at stores
  have ended := storesEnded stores (Function.update_self ..)
  rw [Function.update_idem] at ended
  refine ⟨st₁.storeSignals o pool none,?_,⟨⟨ended,fun o' => ?_⟩,carries₁.connections,carries₁.signalsThere⟩⟩
  · simp only [endObserver,left,found,cleared,bind,Option.bind]
  · rcases eq_or_ne o' o with rfl | other
    · simp [State.storeSignals]
    · simp [State.storeSignals,other,carries₁.observersThere,Table.leave]

/-- `OnSignalConnect`, if there is a node left. -/
def signalsAfter (a : Allocators) (receiver : D → Option Obs) (st : State Sig Obs D)
    (sigs : Obs → List Sig) (s : Sig) (d : D) : Obs → List Sig := match receiver d with
  | none => sigs
  | some o => if st.signalNodes.isFull a.observerCon then sigs else Function.update sigs o (sigs o ++ [s])

omit [DecidableEq Sig] in
theorem memSignalsAfter {d : D} {x : Sig} {o : Obs} : x ∈ signalsAfter a receiver st sigs s d o ↔ x ∈ sigs o ∨
    x = s ∧ receiver d = some o ∧ st.signalNodes.isFull a.observerCon = false := by
  cases bound : receiver d with
  | none => simp [signalsAfter,bound]
  | some o' =>
    cases full : st.signalNodes.isFull a.observerCon with
    | true => simp [signalsAfter,bound,full]
    | false =>
      rcases eq_or_ne o o' with rfl | other
      · simp [signalsAfter,bound,full]
      · simp [signalsAfter,bound,full,other,other.symm]

theorem connectCases (asserts : Bool) (carries : Carries a receiver st t sigs) (alive : t.signals s = true)
    (d : D) (there : ∀ o, receiver d = some o → t.observers o = true) :
    (connect a asserts receiver st s d = none ∧ asserts = true ∧
      (st.connectionNodes.isFull a.signalCon = true ∨
        (receiver d).isSome = true ∧ st.signalNodes.isFull a.observerCon = true)) ∨
    ∃ st', connect a asserts receiver st s d = some st' ∧ Carries a receiver st'
      (if st.connectionNodes.isFull a.signalCon then t else t.set s (t.connections s ++ [d]))
      (signalsAfter a receiver st sigs s d) ∧
      (asserts = false ∨ st.connectionNodes.isFull a.signalCon = false) := by
  obtain ⟨list,found⟩ := signalThere carries alive
  rcases storesAdd carries.connections found asserts ⟨d,receiver d⟩ with
    ⟨failed,strict,full⟩ | ⟨p,pool,list',added,asserted,room,stores⟩
  · refine .inl ⟨?_,strict,.inl full⟩
    simp only [connect,found,failed,bind,Option.bind]
  have carries₁ : Carries a receiver (st.storeConnections s pool (some list'))
      (if st.connectionNodes.isFull a.signalCon then t else t.set s (t.connections s ++ [d])) sigs := by
    by_cases full : st.connectionNodes.isFull a.signalCon = true
    · rw [if_pos full] at stores ⊢
      have same : (t.connections s).map (made receiver) = (fun s => (t.connections s).map (made receiver)) s := rfl
      have kept := @carriesConnections _ _ _ _ _ _ _ _ s _ carries alive pool list' (t.connections s)
        (by rw [same,Function.update_eq_self]; exact stores)
      rwa [Table.set,Function.update_eq_self] at kept
    · rw [if_neg full] at stores ⊢
      refine carriesConnections carries alive ?_
      rwa [List.map_append]
  have connected : connect a asserts receiver st s d = match receiver d with
      | none => some (st.storeConnections s pool (some list'))
      | some o => onSignalConnect a asserts (st.storeConnections s pool (some list')) o s := by
    simp only [connect,found,added,asserted,bind,Option.bind]
  rw [connected]
  cases bound : receiver d with
  | none =>
    refine .inr ⟨_,rfl,?_,room⟩
    simpa only [signalsAfter,bound] using carries₁
  | some o =>
    have alive₁ : Table.observers (if st.connectionNodes.isFull a.signalCon then t
        else t.set s (t.connections s ++ [d])) o = true := by
      split <;> exact there o bound
    obtain ⟨listed,found₁⟩ := observerThere carries₁.toLists alive₁
    rcases storesAdd carries₁.signals found₁ asserts s with
      ⟨failed,strict,full⟩ | ⟨p',pool',listed',added',asserted',-,stores'⟩
    · refine .inl ⟨?_,strict,.inr ⟨rfl,full⟩⟩
      simp only [onSignalConnect,found₁,failed,bind,Option.bind]
    · refine .inr ⟨(st.storeConnections s pool (some list')).storeSignals o pool' (some listed'),?_,
        carriesLists carries₁ (listsReplaced carries₁.toLists alive₁ ?_) ⟨rfl,rfl⟩,room⟩
      · simp only [onSignalConnect,found₁,added',asserted',bind,Option.bind]
      · simp only [signalsAfter,bound]
        exact stores'

/-- An observer lists the signals that have a connection to it. -/
def Kept (a : Allocators) (receiver : D → Option Obs) (st : State Sig Obs D) (t : Table Sig Obs D) : Prop :=
  ∃ sigs, Carries a receiver st t sigs ∧ ∀ s o, s ∈ sigs o ↔ t.Connected receiver s o

omit [DecidableEq Sig] [DecidableEq Obs] in
theorem keptAlive (kept : Kept a receiver st t) (connected : t.Connected receiver s o) :
    t.signals s = true ∧ t.observers o = true := by
  obtain ⟨sigs,carries,back⟩ := kept
  rw [← carries.signalsThere,← carries.observersThere,Option.isSome_iff_ne_none,Option.isSome_iff_ne_none]
  constructor
  · intro gone
    obtain ⟨d,mem,-⟩ := connected
    have empty := @storesGone _ _ _ _ _ _ s carries.connections gone
    rw [List.map_eq_nil_iff.mp empty] at mem
    cases mem
  · intro gone
    have mem := (back s o).mpr connected
    rw [storesGone carries.signals gone] at mem
    cases mem

omit [DecidableEq Obs] in
@[simp] theorem connectedSame {l : List D} :
    (t.set s l).Connected receiver s o ↔ ∃ d ∈ l, receiver d = some o := by
  simp [Table.Connected,Table.set]

omit [DecidableEq Obs] in
@[simp] theorem connectedOther {l : List D} {x : Sig} (other : x ≠ s) :
    (t.set s l).Connected receiver x o ↔ t.Connected receiver x o := by
  simp [Table.Connected,Table.set,other]

omit [DecidableEq Obs] in
-- Nothing that goes had this observer.
theorem connectedFiltered {keep : D → Bool} {l : List D}
    (others : ∀ d ∈ l, keep d = false → receiver d ≠ some o) :
    (∃ d ∈ l.filter keep, receiver d = some o) ↔ ∃ d ∈ l, receiver d = some o := by
  constructor
  · rintro ⟨d,mem,same⟩
    exact ⟨d,List.mem_of_mem_filter mem,same⟩
  · rintro ⟨d,mem,same⟩
    refine ⟨d,List.mem_filter.mpr ⟨mem,?_⟩,same⟩
    exact Bool.eq_true_of_not_eq_false (fun cut => others d mem cut same)

/-- The observer is told if that is what it takes to keep its list. -/
theorem keptTold (asserts : Bool) {t' : Table Sig Obs D} {tell : Prop} [Decidable tell]
    (carries : Carries a receiver st t' sigs) (back : ∀ x o, x ∈ sigs o ↔ t.Connected receiver x o)
    (alive : tell → t'.observers o = true)
    (left : ∀ x o', t'.Connected receiver x o' ↔ t.Connected receiver x o' ∧ ¬ (tell ∧ x = s ∧ o' = o)) :
    ∃ st', (if tell then onSignalDisconnect a asserts st o s else some st) = some st' ∧
      Kept a receiver st' t' := by
  by_cases told : tell
  · obtain ⟨st',done,lists⟩ := onSignalDisconnectDone asserts carries.toLists (alive told) s
    refine ⟨st',by rw [if_pos told,done],_,carriesLists carries lists (onSignalDisconnectFrame done),
      fun x o' => ?_⟩
    rw [left,← back]
    rcases eq_or_ne o' o with rfl | other
    · simp [told]
    · simp [other]
  · refine ⟨st,by rw [if_neg told],sigs,carries,fun x o' => ?_⟩
    rw [left,back]
    simp [told]

variable [DecidableEq D]

omit [DecidableEq Sig] [DecidableEq Obs] in
theorem filteredMade (t : Table Sig Obs D) (s : Sig) (d : D) :
    ((t.connections s).map (made receiver)).filter (fun c => !decide (c.d = d)) =
      ((t.connections s).filter (fun x => x ≠ d)).map (made receiver) :=
  madeFilter (fun x => x ≠ d) (fun _ => decide_not.symm) _

omit [DecidableEq Obs] in
theorem disconnectFunctionDone (asserts : Bool) (kept : Kept a receiver st t) (alive : t.signals s = true) {d : D}
    (bound : receiver d = none) : ∃ st', disconnectFunction a asserts st s d = some st' ∧
      Kept a receiver st' (t.set s ((t.connections s).filter (fun x => x ≠ d))) := by
  obtain ⟨sigs,carries,back⟩ := kept
  obtain ⟨list,found⟩ := signalThere carries alive
  obtain ⟨pool,list',swept,stores⟩ := @storesSweep _ _ _ _ _ _ _ _ _ carries.connections found asserts
    (fun c => c.d = d) (fun c => c.pObserver.isNone) (fun _ => false) (by
      intro c mem cut
      obtain ⟨x,-,rfl⟩ := List.mem_map.mp mem
      obtain rfl : x = d := of_decide_eq_true cut
      simp [made,bound])
  rw [filteredMade] at stores
  refine ⟨_,?_,sigs,carriesConnections carries alive stores,fun x o => ?_⟩
  · simp only [disconnectFunction,found,swept,bind,Option.bind]
  · rw [back]
    rcases eq_or_ne x s with rfl | other
    · rw [connectedSame,connectedFiltered,Table.Connected]
      intro x mem cut same
      obtain rfl : x = d := by simpa using cut
      rw [bound] at same
      cases same
    · rw [connectedOther other]

theorem disconnectObserverDelegateDone (asserts : Bool) (kept : Kept a receiver st t)
    (alive : t.signals s = true) {d : D} (bound : receiver d = some o) :
    ∃ st', disconnectObserverDelegate a asserts st s o d = some st' ∧
      Kept a receiver st' (t.set s ((t.connections s).filter (fun x => x ≠ d))) := by
  obtain ⟨sigs,carries,back⟩ := id kept
  obtain ⟨list,found⟩ := signalThere carries alive
  obtain ⟨pool,list',swept,stores⟩ := @storesSweep _ _ _ _ _ _ _ _ _ carries.connections found asserts
    (fun c => c.d = d) (fun c => c.pObserver = some o) (fun c => c.pObserver = some o) (by
      intro c mem cut
      obtain ⟨x,-,rfl⟩ := List.mem_map.mp mem
      obtain rfl : x = d := of_decide_eq_true cut
      simp [made,bound])
  rw [filteredMade] at stores
  have carries' := carriesConnections carries alive stores
  simp only [disconnectObserverDelegate,found,swept,bind,Option.bind]
  have gone : 0 < ((t.connections s).map (made receiver)).countP (fun c => decide (c.d = d)) ↔
    d ∈ t.connections s := by
    rw [madeCount (fun x => decide (x = d)) (fun _ => rfl),List.countP_pos_iff]
    simp
  have others : ((t.connections s).map (made receiver)).countP
        (fun c => !decide (c.d = d) && decide (c.pObserver = some o)) = 0 ↔
      ¬ (t.set s ((t.connections s).filter (fun x => x ≠ d))).Connected receiver s o := by
    rw [madeCount (fun x => !decide (x = d) && decide (receiver x = some o)) (fun _ => rfl),
      List.countP_eq_zero]
    simp
  refine keptTold asserts carries' back (fun tell => ?_) (fun x o' => ?_)
  · exact (keptAlive kept ⟨d,gone.mp tell.1,bound⟩).2
  · rw [gone,others]
    rcases eq_or_ne x s with rfl | other
    · rcases eq_or_ne o' o with rfl | other
      · constructor
        · intro left
          obtain ⟨y,mem,same⟩ := connectedSame.mp left
          exact ⟨⟨y,List.mem_of_mem_filter mem,same⟩,fun told => told.1.2 left⟩
        · rintro ⟨connected,told⟩
          by_contra nothing
          refine nothing (connectedSame.mpr ((connectedFiltered fun y mem cut => ?_).mpr connected))
          obtain rfl : y = d := by simpa using cut
          exact absurd ⟨⟨mem,nothing⟩,rfl,rfl⟩ told
      · rw [connectedSame,connectedFiltered,Table.Connected]
        · simp [other]
        · intro x mem cut same
          obtain rfl : x = d := by simpa using cut
          exact other (Option.some.inj (same.symm.trans bound))
    · simp [other]

theorem disconnectDone (asserts : Bool) (kept : Kept a receiver st t) (alive : t.signals s = true) (d : D) :
    ∃ st', disconnect a asserts receiver st s d = some st' ∧
      Kept a receiver st' (t.set s ((t.connections s).filter (fun x => x ≠ d))) := by
  unfold disconnect
  cases bound : receiver d with
  | none => exact disconnectFunctionDone asserts kept alive bound
  | some o => exact disconnectObserverDelegateDone asserts kept alive bound

omit [DecidableEq D] in
@[simp] theorem connectedCut {x : Sig} {o' : Obs} :
    (t.cut receiver s o).Connected receiver x o' ↔ t.Connected receiver x o' ∧ ¬ (x = s ∧ o' = o) := by
  rcases eq_or_ne x s with rfl | other
  · rw [Table.cut,connectedSame]
    simp only [List.mem_filter,decide_eq_true_eq,Table.Connected]
    constructor
    · rintro ⟨d,⟨mem,away⟩,same⟩
      exact ⟨⟨d,mem,same⟩,fun here => away (here.2 ▸ same)⟩
    · rintro ⟨⟨d,mem,same⟩,other⟩
      exact ⟨d,⟨mem,fun here => other ⟨trivial,Option.some.inj (same.symm.trans here)⟩⟩,same⟩
  · simp [Table.cut,other]

omit [DecidableEq Sig] [DecidableEq D] in
@[simp] theorem connectedLeave {x : Sig} {o' : Obs} :
    (t.leave receiver o).Connected receiver x o' ↔ t.Connected receiver x o' ∧ o' ≠ o := by
  simp only [Table.leave,Table.Connected,List.mem_filter,decide_eq_true_eq]
  constructor
  · rintro ⟨d,⟨mem,away⟩,same⟩
    exact ⟨⟨d,mem,same⟩,fun here => away (here ▸ same)⟩
  · rintro ⟨⟨d,mem,same⟩,other⟩
    exact ⟨d,⟨mem,fun here => other (Option.some.inj (same.symm.trans here))⟩,same⟩

omit [DecidableEq D] in
theorem cutNothing (apart : ¬ t.Connected receiver s o) : t.cut receiver s o = t := by
  have all : (t.connections s).filter (fun d => receiver d ≠ some o) = t.connections s :=
    List.filter_eq_self.mpr (fun d mem => decide_eq_true (fun same => apart ⟨d,mem,same⟩))
  rw [Table.cut,all,Table.set,Function.update_eq_self]

omit [DecidableEq D] in
theorem disconnectObserverDone (asserts : Bool) (kept : Kept a receiver st t) (alive : t.signals s = true)
    (o : Obs) : ∃ st', disconnectObserver a asserts st s o = some st' ∧
      Kept a receiver st' (t.cut receiver s o) := by
  obtain ⟨sigs,carries,back⟩ := id kept
  obtain ⟨list,found⟩ := signalThere carries alive
  obtain ⟨pool,list',swept,stores⟩ := @storesSweep _ _ _ _ _ _ _ _ _ carries.connections found asserts
    (fun c => c.pObserver = some o) (fun _ => true) (fun _ => false) (fun _ _ _ => rfl)
  rw [madeFilter (fun d => receiver d ≠ some o) (fun _ => decide_not.symm)] at stores
  have gone : 0 < ((t.connections s).map (made receiver)).countP (fun c => decide (c.pObserver = some o)) ↔
      t.Connected receiver s o := by
    rw [madeCount (fun x => decide (receiver x = some o)) (fun _ => rfl),List.countP_pos_iff]
    simp [Table.Connected]
  simp only [disconnectObserver,found,swept,bind,Option.bind]
  refine keptTold asserts (carriesConnections carries alive stores) back (fun tell => ?_) (fun x o' => ?_)
  · exact (keptAlive kept (gone.mp tell)).2
  · rw [gone]
    rw [connectedCut]
    constructor
    · rintro ⟨connected,other⟩
      exact ⟨connected,fun told => other told.2⟩
    · rintro ⟨connected,other⟩
      exact ⟨connected,fun here => other ⟨by rw [← here.1,← here.2]; exact connected,here⟩⟩

omit [DecidableEq D] in
theorem disconnectSignalDone (asserts : Bool) (kept : Kept a receiver st t)
    (carries : Carries a receiver st t sigs) (back : ∀ s, s ∈ sigs o ↔ t.Connected receiver s o)
    (alive : t.observers o = true) (s : Sig) :
    ∃ st', disconnectSignal a asserts st o s = some st' ∧ Carries a receiver st' (t.cut receiver s o) sigs ∧
      st'.signals = st.signals := by
  obtain ⟨list,found⟩ := observerThere carries.toLists alive
  have search := storesAny (fun x => decide (x = s)) carries.signals found
  by_cases connected : t.Connected receiver s o
  · have there : (sigs o).any (fun x => decide (x = s)) = true := by simpa using (back s).mpr connected
    obtain ⟨st',cut,carries'⟩ := onObserverDisconnectDone asserts carries (keptAlive kept connected).1 o
    refine ⟨st',?_,carries',(onObserverDisconnectFrame cut).2⟩
    simp only [disconnectSignal,found,search,there,bind,Option.bind,if_true,cut]
  · have absent : (sigs o).any (fun x => decide (x = s)) = false := by
      rw [List.any_eq_false]
      intro x mem same
      obtain rfl : x = s := of_decide_eq_true same
      exact connected ((back x).mp mem)
    refine ⟨st,?_,by rwa [cutNothing connected],rfl⟩
    simp [disconnectSignal,found,search,absent]

end Carried

section Runs
variable [DecidableEq Sig] [DecidableEq Obs] [DecidableEq D]
variable {a : Allocators} {asserts : Bool} {receiver : D → Option Obs}
variable {d next : Described Sig Obs D}

omit [DecidableEq Obs] [DecidableEq D] in
theorem emptied {t : Table Sig Obs D} {s x : Sig} {o : Obs} {l l' : List Sig}
    (mem : x ∈ l' ↔ x ∈ l ∧ ¬ (x = s ∧ t.Connected receiver s o))
    (back : x ∈ l ↔ t.Connected receiver x o) : x ∈ l' ↔ (t.set s []).Connected receiver x o := by
  rw [mem,back]
  rcases eq_or_ne x s with rfl | other
  · simp
  · simp [other]

omit [DecidableEq Sig] [DecidableEq D] in
theorem left {t : Table Sig Obs D} {o : Obs} {sigs : Obs → List Sig}
    (back : ∀ x o', x ∈ sigs o' ↔ t.Connected receiver x o') (x : Sig) (o' : Obs) :
    x ∈ Function.update sigs o [] o' ↔ (t.leave receiver o).Connected receiver x o' := by
  rw [connectedLeave,← back]
  rcases eq_or_ne o' o with rfl | other
  · simp
  · simp [other]

omit [DecidableEq Obs] [DecidableEq D] in
theorem swappedConnections (t : Table Sig Obs D) (s s' : Sig) :
    ((t.set s (t.connections s')).set s' (t.connections s)).connections =
      fun x => t.connections (Equiv.swap s s' x) := updatedSwap t.connections s s'

omit [DecidableEq Sig] [DecidableEq Obs] [DecidableEq D] in
theorem unlisted {st : State Sig Obs D} {t : Table Sig Obs D} {sigs : Obs → List Sig} {s : Sig}
    (kept : Kept a receiver st t) (back : ∀ x o, x ∈ sigs o ↔ t.Connected receiver x o)
    (gone : t.signals s = false) (o : Obs) : s ∉ sigs o := by
  intro listed
  have there := (keptAlive kept ((back s o).mp listed)).1
  rw [gone] at there
  cases there

theorem connectKept (asserts : Bool) (kept : Kept a receiver d.state d.table) {s : Sig} {x : D}
    (legal : d.table.Legal receiver (.connect s x)) :
    (connect a asserts receiver d.state s x = none ∧ ¬ Room a asserts receiver d (.connect s x)) ∨
    ∃ st', connect a asserts receiver d.state s x = some st' ∧
      (Sound a receiver d (.connect s x) → Kept a receiver st' (d.table.use receiver (.connect s x))) := by
  obtain ⟨sigs,carries,back⟩ := kept
  obtain ⟨alive,there⟩ := legal
  rcases connectCases asserts carries alive x there with ⟨failed,strict,full⟩ | ⟨st',done,carries',-⟩
  · refine .inl ⟨failed,?_⟩
    rintro (loose | ⟨room,room'⟩)
    · rw [strict] at loose
      cases loose
    · rcases full with full | ⟨bound,full⟩
      · rw [full] at room
        cases room
      · rw [full] at room'
        cases room' bound
  · refine .inr ⟨st',done,fun ⟨room,listed⟩ => ⟨signalsAfter a receiver d.state sigs s x,?_,fun y o => ?_⟩⟩
    · rwa [room,if_neg Bool.false_ne_true] at carries'
    · rw [memSignalsAfter,back]
      change _ ↔ (d.table.set s (d.table.connections s ++ [x])).Connected receiver y o
      rcases eq_or_ne y s with rfl | other
      · rw [connectedSame]
        have listed := listed o
        simp only [List.mem_append,List.mem_singleton,or_and_right,exists_or,exists_eq_left,true_and]
        change d.table.Connected receiver y o ∨ _ ↔ d.table.Connected receiver y o ∨ _
        tauto
      · simp [other]

theorem swapKept (asserts : Bool) (kept : Kept a receiver d.state d.table) {s s' tmp : Sig}
    (legal : d.table.Legal receiver (.swap s s' tmp)) :
    ∃ st', swap a asserts d.state s s' tmp = some st' ∧
      (Sound a receiver d (.swap s s' tmp) → Kept a receiver st' (d.table.use receiver (.swap s s' tmp))) := by
  obtain ⟨sigs,carries,back⟩ := id kept
  obtain ⟨alive,alive',gone⟩ := legal
  obtain ⟨st',sigs',list,done,found,anchors,lists,mem,stores,-⟩ := swapDone asserts carries alive alive' gone
    (unlisted kept back gone) (fun o connected => (keptAlive kept connected).2)
  refine ⟨st',done,fun ⟨empty,functions⟩ => ⟨sigs',⟨⟨lists.signals,lists.observersThere⟩,?_,fun x => ?_⟩,
    fun x o => ?_⟩⟩
  · have fresh := storesEmpty carries.connections found (by rw [empty]; rfl)
    have same : Function.update (fun s => (d.table.connections s).map (made receiver)) s [] =
        fun s => (d.table.connections s).map (made receiver) := by
      rw [Function.update_eq_self_iff,empty]
      rfl
    rw [← fresh,← found,Function.update_eq_self,same] at stores
    rw [anchors,← found,updatedSwap]
    have renamed := storesRenamed stores (Equiv.swap s s')
    simpa only [Table.use,swappedConnections] using renamed
  · rw [anchors,← found,updatedSwap,carries.signalsThere]
    exact Equiv.apply_swap_eq_self (alive.trans alive'.symm) x
  · have none' : ¬ d.table.Connected receiver s o := by
      rintro ⟨y,mem,-⟩
      rw [empty] at mem
      cases mem
    have none'' : ¬ d.table.Connected receiver s' o := by
      rintro ⟨y,mem,bound⟩
      rw [functions y mem] at bound
      cases bound
    have same := @Equiv.apply_swap_eq_self _ _ _ (fun x => d.table.Connected receiver x o) s s'
      (propext (iff_of_false none' none'')) x
    rw [mem,back]
    refine (iff_of_eq same.symm).trans ?_
    simp only [Table.Connected,Table.use,swappedConnections]

/-- A legal use is done if there is room for it, and a sound one keeps both sides. -/
theorem execDone (asserts : Bool) (kept : Kept a receiver d.state d.table) {use : Use Sig Obs D}
    (legal : d.table.Legal receiver use) :
    (exec a asserts receiver d.state use = none ∧ ¬ Room a asserts receiver d use) ∨
    ∃ st', exec a asserts receiver d.state use = some st' ∧
      (Sound a receiver d use → Kept a receiver st' (d.table.use receiver use)) := by
  obtain ⟨sigs,carries,back⟩ := id kept
  cases use with
  | signal s =>
    obtain ⟨gone,carries'⟩ := signalBegun carries legal
    exact .inr ⟨_,if_neg (by simp [gone]),fun _ => ⟨sigs,carries',back⟩⟩
  | observer o =>
    obtain ⟨gone,carries'⟩ := observerBegun carries legal
    exact .inr ⟨_,if_neg (by simp [gone]),fun _ => ⟨sigs,carries',back⟩⟩
  | connect s x => exact connectKept asserts kept legal
  | disconnect s x =>
    obtain ⟨st',done,kept'⟩ := disconnectDone asserts kept legal x
    exact .inr ⟨st',done,fun _ => kept'⟩
  | disconnectObserver s o =>
    obtain ⟨st',done,kept'⟩ := disconnectObserverDone asserts kept legal o
    exact .inr ⟨st',done,fun _ => kept'⟩
  | disconnectAll s =>
    obtain ⟨st',sigs',done,carries',mem⟩ := disconnectAllDone asserts carries legal
      (fun o connected => (keptAlive kept connected).2)
    exact .inr ⟨st',done,fun _ => ⟨sigs',carries',fun x o => emptied (mem x o) (back x o)⟩⟩
  | endSignal s =>
    obtain ⟨st',sigs',done,carries',mem⟩ := endSignalDone asserts carries legal
      (fun o connected => (keptAlive kept connected).2)
    exact .inr ⟨st',done,fun _ => ⟨sigs',carries',fun x o => emptied (mem x o) (back x o)⟩⟩
  | swap s s' tmp => exact .inr (swapKept asserts kept legal)
  | disconnectSignal o s =>
    obtain ⟨st',done,carries',-⟩ := disconnectSignalDone asserts kept carries (fun s => back s o) legal s
    refine .inr ⟨st',done,fun apart => ⟨sigs,carries',fun x o' => ?_⟩⟩
    change _ ↔ (d.table.cut receiver s o).Connected receiver x o'
    rw [cutNothing apart,back]
  | disconnectAllSignals o =>
    obtain ⟨st',done,carries'⟩ := disconnectAllSignalsDone asserts carries legal (fun s => back s o)
      (fun s connected => (keptAlive kept connected).1)
    exact .inr ⟨st',done,fun _ => ⟨_,carries',left back⟩⟩
  | endObserver o =>
    obtain ⟨st',done,carries'⟩ := endObserverDone asserts carries legal (fun s => back s o)
      (fun s connected => (keptAlive kept connected).1)
    exact .inr ⟨st',done,fun _ => ⟨_,carries',left back⟩⟩

/-- What is not there is not used without a fault. -/
theorem legalOfTaken {st st' : State Sig Obs D} {t : Table Sig Obs D} {sigs : Obs → List Sig}
    (carries : Carries a receiver st t sigs) {use : Use Sig Obs D}
    (taken : exec a asserts receiver st use = some st') : t.Legal receiver use := by
  cases use with
  | signal s =>
    simp only [exec,Option.ite_none_left_eq_some] at taken
    rw [carries.signalsThere] at taken
    exact Bool.eq_false_of_not_eq_true taken.1
  | observer o =>
    simp only [exec,Option.ite_none_left_eq_some] at taken
    rw [carries.observersThere] at taken
    exact Bool.eq_false_of_not_eq_true taken.1
  | connect s d =>
    simp only [exec,connect,bind,Option.bind_eq_some_iff] at taken
    obtain ⟨list,found,_,_,_,_,taken⟩ := taken
    refine ⟨signalFound carries found,fun o bound => ?_⟩
    simp only [bound,onSignalConnect,bind,Option.bind_eq_some_iff] at taken
    obtain ⟨list,found,-⟩ := taken
    exact observerFound carries.toLists found
  | disconnect s d =>
    simp only [exec,disconnect] at taken
    split at taken
    · simp only [disconnectFunction,bind,Option.bind_eq_some_iff] at taken
      obtain ⟨list,found,-⟩ := taken
      exact signalFound carries found
    · simp only [disconnectObserverDelegate,bind,Option.bind_eq_some_iff] at taken
      obtain ⟨list,found,-⟩ := taken
      exact signalFound carries found
  | disconnectObserver s o =>
    simp only [exec,disconnectObserver,bind,Option.bind_eq_some_iff] at taken
    obtain ⟨list,found,-⟩ := taken
    exact signalFound carries found
  | disconnectAll s =>
    simp only [exec,disconnectAll,bind,Option.bind_eq_some_iff] at taken
    obtain ⟨list,found,-⟩ := taken
    exact signalFound carries found
  | endSignal s =>
    simp only [exec,endSignal,disconnectAll,bind,Option.bind_eq_some_iff] at taken
    obtain ⟨-,⟨list,found,-⟩,-⟩ := taken
    exact signalFound carries found
  | swap s s' tmp =>
    simp only [exec,swap,Option.ite_none_left_eq_some,bind,Option.bind_eq_some_iff] at taken
    obtain ⟨gone,list,found,list',found',-⟩ := taken
    rw [carries.signalsThere] at gone
    exact ⟨signalFound carries found,signalFound carries found',Bool.eq_false_of_not_eq_true gone⟩
  | disconnectSignal o s =>
    simp only [exec,disconnectSignal,bind,Option.bind_eq_some_iff] at taken
    obtain ⟨list,found,-⟩ := taken
    exact observerFound carries.toLists found
  | disconnectAllSignals o =>
    simp only [exec,disconnectAllSignals,bind,Option.bind_eq_some_iff] at taken
    obtain ⟨list,found,-⟩ := taken
    exact observerFound carries.toLists found
  | endObserver o =>
    simp only [exec,endObserver,disconnectAllSignals,bind,Option.bind_eq_some_iff] at taken
    obtain ⟨-,⟨list,found,-⟩,-⟩ := taken
    exact observerFound carries.toLists found

theorem keptFaithful (kept : Kept a receiver d.state d.table) : Faithful a asserts receiver d := by
  obtain ⟨sigs,carries,back⟩ := id kept
  refine ⟨fun s alive => carriesEmit carries alive,fun s x alive => ?_,fun s alive => ?_,fun o alive => ?_,
    fun s o connected => keptAlive kept connected,fun use legal room => ?_⟩
  · obtain ⟨list,found⟩ := signalThere carries alive
    simp only [isConnected,found,storesAny _ carries.connections found,bind,Option.bind]
    rw [List.any_map]
    change some ((d.table.connections s).any (fun y => decide (y = x))) = _
    simp [List.any_eq]
  · obtain ⟨list,found⟩ := signalThere carries alive
    have count := storesCount carries.connections found
    rw [List.length_map] at count
    simp [countConnections,found,count]
  · obtain ⟨list,found⟩ := observerThere carries.toLists alive
    refine ⟨sigs o,carriesListed carries.toLists alive,?_,fun s => back s o⟩
    simp [countSignalConnections,found,storesCount carries.signals found]
  · rcases execDone asserts kept legal with ⟨-,cramped⟩ | ⟨st',done,-⟩
    · exact absurd room cramped
    · simp [step,done]

theorem keptStep (kept : Kept a receiver d.state d.table) {use : Use Sig Obs D} (sound : Sound a receiver d use)
    (taken : step a asserts receiver d use = some next) : Kept a receiver next.state next.table := by
  obtain ⟨sigs,carries,-⟩ := id kept
  simp only [step,bind,Option.bind_eq_some_iff,Option.some.injEq] at taken
  obtain ⟨st,done,rfl⟩ := taken
  rcases execDone asserts kept (legalOfTaken carries done) with ⟨failed,-⟩ | ⟨st',done',keeps⟩
  · rw [done] at failed
    cases failed
  · rw [done] at done'
    cases done'
    exact keeps sound

theorem roomNeeded (kept : Kept a receiver d.state d.table) {st : State Sig Obs D} {s : Sig} {x : D}
    (done : exec a asserts receiver d.state (.connect s x) = some st)
    (legal : d.table.Legal receiver (.connect s x))
    (faithful : Faithful a asserts receiver ⟨st,d.table.use receiver (.connect s x)⟩) :
    Sound a receiver d (.connect s x) := by
  obtain ⟨sigs,carries,back⟩ := id kept
  obtain ⟨alive,there⟩ := legal
  rcases connectCases asserts carries alive x there with ⟨failed,-⟩ | ⟨st',done',carries',-⟩
  · cases done.symm.trans failed
  · cases Option.some.inj (done.symm.trans done')
    refine ⟨Bool.eq_false_of_not_eq_true (fun full => ?_),fun o bound => ?_⟩
    · rw [if_pos full] at carries'
      have called := faithful.emit s alive
      rw [carriesEmit carries' alive] at called
      -- The table has one connection more.
      simp [Table.use,Table.set] at called
    · by_contra lost
      obtain ⟨full,apart⟩ := not_or.mp lost
      obtain ⟨l,found,-,names⟩ := faithful.listed o (there o bound)
      rw [carriesListed carries'.toLists (by split <;> exact there o bound)] at found
      cases found
      have connected : (d.table.set s (d.table.connections s ++ [x])).Connected receiver s o :=
        connectedSame.mpr ⟨x,by simp,bound⟩
      rcases memSignalsAfter.mp ((names s).mpr connected) with before | ⟨-,-,room⟩
      · exact apart ((back s o).mp before)
      · exact full room

theorem emptyNeeded (kept : Kept a receiver d.state d.table) {st : State Sig Obs D} {s s' tmp : Sig}
    (done : exec a asserts receiver d.state (.swap s s' tmp) = some st)
    (legal : d.table.Legal receiver (.swap s s' tmp))
    (faithful : Faithful a asserts receiver ⟨st,d.table.use receiver (.swap s s' tmp)⟩) :
    Sound a receiver d (.swap s s' tmp) := by
  obtain ⟨sigs,carries,back⟩ := id kept
  obtain ⟨alive,alive',gone⟩ := legal
  obtain ⟨st',sigs',list,done',found,anchors,lists,mem,stores,freed⟩ := swapDone asserts carries alive alive'
    gone (unlisted kept back gone) (fun o connected => (keptAlive kept connected).2)
  cases Option.some.inj (done.symm.trans done')
  have empty : d.table.connections s = [] := by
    by_contra some'
    obtain ⟨p,head⟩ := storesHead carries.connections found (by simpa using some')
    have called := faithful.emit s' alive'
    simp [emit,anchors,objects,head,objectsFrom,freed p head] at called
  refine ⟨empty,fun x there => Option.eq_none_iff_forall_ne_some.mpr (fun o bound => ?_)⟩
  obtain ⟨l,named,-,names⟩ := faithful.listed o (keptAlive kept ⟨x,there,bound⟩).2
  rw [carriesListed lists (keptAlive kept ⟨x,there,bound⟩).2] at named
  cases named
  have connected : (d.table.use receiver (.swap s s' tmp)).Connected receiver s o := by
    refine ⟨x,?_,bound⟩
    simpa only [Table.use,swappedConnections,Equiv.swap_apply_left] using there
  obtain ⟨y,mem',-⟩ := (back s o).mp ((mem s o).mp ((names s).mpr connected))
  rw [empty] at mem'
  cases mem'

theorem soundNeeded (kept : Kept a receiver d.state d.table) {use : Use Sig Obs D}
    (taken : step a asserts receiver d use = some next) (faithful : Faithful a asserts receiver next) :
    Sound a receiver d use := by
  obtain ⟨sigs,carries,back⟩ := id kept
  simp only [step,bind,Option.bind_eq_some_iff,Option.some.injEq] at taken
  obtain ⟨st,done,rfl⟩ := taken
  have legal := legalOfTaken carries done
  cases use with
  | connect s x => exact roomNeeded kept done legal faithful
  | swap s s' tmp => exact emptyNeeded kept done legal faithful
  | disconnectSignal o s =>
    intro connected
    obtain ⟨st',done',carries',-⟩ := disconnectSignalDone asserts kept carries (fun s => back s o) legal s
    cases Option.some.inj (done.symm.trans done')
    obtain ⟨l,found,-,names⟩ := faithful.listed o legal
    rw [carriesListed carries'.toLists legal] at found
    cases found
    have still := (names s).mp ((back s o).mpr connected)
    exact (connectedCut.mp still).2 ⟨rfl,rfl⟩
  | _ => trivial

theorem signalsFaithfulExactly (a : Allocators) (asserts : Bool) (receiver : D → Option Obs)
    (memory : Memory (Node Addr (Connection Obs D))) (memory' : Memory (Node Addr Sig))
    (uses : List (Use Sig Obs D)) :
    EveryState (step a asserts receiver) (Faithful a asserts receiver) (start a memory memory') uses ↔
      EveryStep (step a asserts receiver) (Sound a receiver) (start a memory memory') uses := by
  refine @everyStateExact _ _ _ (fun d => Kept a receiver d.state d.table) _ _ (fun d kept => keptFaithful kept)
    (fun d use next kept sound taken => keptStep kept sound taken)
    (fun d use next kept taken faithful => soundNeeded kept taken faithful) _ ?_ uses
  refine ⟨fun _ => [],⟨⟨storesFresh _ memory',fun _ => rfl⟩,storesFresh _ memory,fun _ => rfl⟩,fun s o => ?_⟩
  simp [Table.Connected,start]

/-- Two nodes in each pool, and one delegate, which is bound to the one observer. -/
def twoNodes : Allocators :=
  ⟨⟨⟨64,48,2,by decide,by decide,by decide,by decide⟩,48,by decide,by decide⟩,
    ⟨⟨160,24,2,by decide,by decide,by decide,by decide⟩,24,by decide,by decide⟩⟩

def leaving (use : Use Unit Unit Unit) : Option (Described Unit Unit Unit) :=
  run (step twoNodes false some) (start twoNodes (fun _ => none) (fun _ => none))
    [.signal (),.observer (),.connect () (),use,.endSignal (),.endObserver ()]

-- The node that `DisconnectSignal` leaves behind leads the observer to a signal that is gone.
example : (leaving (.disconnectSignal () ())).isNone = true ∧
    (leaving (.disconnectObserver () ())).isSome = true := by decide

end Runs

end SignalSlot.JlSignal
