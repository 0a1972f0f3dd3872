import SignalSlot.Library.GuardedRun
import SignalSlot.NanoEntries

/-! The adapter through which the feature tests know Nano: signal_traits_nss_st, _sts, _ts
and _tss, which differ in their policy alone. A connection is an Observer of its own that
forwards the call. What the adapter is for is a table of the connections that stand. -/
namespace SignalSlot.Traits
open PartitionSearch GuardedRun Heap

variable {w : Nat} {Obj : Type}

/-- The objects, and `result_type::call` of those that are connections. -/
structure State (w : Nat) (Obj : Type) where
  heap : Heap w Obj
  call : Obj → Option (Function w)

inductive Use (w : Nat) (Obj : Type) where
  | signal (s : Obj)
  | connect (s c : Obj) (call : Function w)
  | disconnect (s c : Obj)
  | disconnectAllSlots (s : Obj)
  | endConnection (c : Obj)
  | endSignal (s : Obj)
  deriving DecidableEq

abbrev Table (Obj : Type) := Obj → Option Obj

structure Described (w : Nat) (Obj : Type) where
  state : State w Obj
  table : Table Obj

section Adapter
variable [DecidableEq Obj] [BinarySearch] (layout : Layout w Obj) (policy : Policy)

def State.IsSignal (st : State w Obj) (s : Obj) : Prop := st.heap.alive s = true ∧ st.call s = none
deriving Decidable

def isEmpty (h : Heap w Obj) (x : Obj) : Option Bool := do
  let c ← h x
  some c.slots.isEmpty

def empty (st : State w Obj) (s : Obj) : Option Bool := isEmpty st.heap s

def connected (st : State w Obj) (c : Obj) : Option Bool := isEmpty st.heap c

def trigger (st : State w Obj) (s : Obj) : Option (List (DelegateKey w)) := st.heap.fire policy s

-- The objects that a use names are there, and a new one takes no place that is taken.
def Legal (st : State w Obj) : Use w Obj → Prop
  | .signal s => st.heap.alive s = false
  | .connect s c call =>
      st.IsSignal s ∧ st.heap.alive c = false ∧ layout.observerOf call.delegateKey = some c
  | .disconnect s c => st.IsSignal s ∧ (st.call c).isSome = true
  | .disconnectAllSlots s | .endSignal s => st.IsSignal s
  | .endConnection c => (st.call c).isSome = true

instance (st : State w Obj) (use : Use w Obj) : Decidable (Legal layout st use) := by
  cases use <;> unfold Legal <;> infer_instance

def exec (st : State w Obj) : Use w Obj → Option (State w Obj)
  | .signal s => some { st with heap := st.heap.store s (some .empty) }
  | .connect s c call => do
      let h ← (st.heap.store c (some .empty)).connect layout s call
      some ⟨h,Function.update st.call c (some call)⟩
  | .disconnect s c => do
      let call ← st.call c
      let h ← st.heap.disconnect layout s call
      some { st with heap := h }
  | .disconnectAllSlots s => do
      let h ← st.heap.disconnectAll policy s
      some { st with heap := h }
  | .endConnection c => do
      let h ← st.heap.destroy policy c
      some ⟨h,Function.update st.call c none⟩
  | .endSignal s => do
      let h ← st.heap.destroy policy s
      some { st with heap := h }

def Table.use (t : Table Obj) : Use w Obj → Table Obj
  | .signal _ => t
  | .connect s c _ => Function.update t c (some s)
  | .disconnect s c => if t c = some s then Function.update t c none else t
  | .endConnection c => Function.update t c none
  | .disconnectAllSlots s | .endSignal s => fun c => if t c = some s then none else t c

def step (d : Described w Obj) (use : Use w Obj) : Option (Described w Obj) :=
  if Legal layout d.state use then do
    let st ← exec layout policy d.state use
    some ⟨st,d.table.use use⟩
  else none

def nothing : Described w Obj := ⟨⟨fun _ => none,fun _ => none⟩,fun _ => none⟩

/-- The adapter answers as the table says: `trigger` calls the connections that stand to
the signal, each once, `empty` tells whether there is one, and `connected` is the
negation of its name. -/
structure Faithful (d : Described w Obj) : Prop where
  ends : ∀ c s, d.table c = some s → d.state.IsSignal s ∧ (d.state.call c).isSome = true
  defined : ∀ use, Legal layout d.state use → (exec layout policy d.state use).isSome = true
  trigger : ∀ s, d.state.IsSignal s → ∃ called, trigger policy d.state s = some called ∧ called.Nodup ∧
    ∀ key, key ∈ called ↔
      ∃ c call, d.table c = some s ∧ d.state.call c = some call ∧ call.delegateKey = key
  empty : ∀ s, d.state.IsSignal s →
    ∃ b, empty d.state s = some b ∧ (b = true ↔ ∀ c, d.table c ≠ some s)
  connected : ∀ c, (d.state.call c).isSome = true →
    ∃ b, connected d.state c = some b ∧ (b = true ↔ d.table c = none)

/-- A connection is cut with the signal that it stands to, or after it was cut. -/
def OwnSignal (d : Described w Obj) : Use w Obj → Prop
  | .disconnect s c => d.table c = none ∨ d.table c = some s
  | _ => True

def Stands (d : Described w Obj) (s : Obj) (key : DelegateKey w) (c : Obj) : Prop :=
  d.table c = some s ∧ (d.state.call c).map Function.delegateKey = some key

instance (d : Described w Obj) (s : Obj) (key : DelegateKey w) (c : Obj) : Decidable (Stands d s key c) :=
  inferInstanceAs (Decidable (_ ∧ _))

structure Linked (d : Described w Obj) : Prop where
  own : ∀ c call, d.state.call c = some call →
    d.state.heap.alive c = true ∧ layout.observerOf call.delegateKey = some c
  ends : ∀ c s, d.table c = some s → d.state.IsSignal s ∧ (d.state.call c).isSome = true
  entries : ∀ y k p, d.state.heap.entries y k p = if Stands d y k p ∨ Stands d p k y then 1 else 0

end Adapter

section Steps
variable [DecidableEq Obj] {layout : Layout w Obj} {policy : Policy} {d next : Described w Obj}

theorem nothingLinked : Linked layout (nothing : Described w Obj) := by
  refine ⟨fun c call => (nomatch ·),fun c s => (nomatch ·),fun y k p => ?_⟩
  simp [nothing,Stands,Heap.entries]

theorem keyNames (linked : Linked layout d) {k c} (key : (d.state.call c).map Function.delegateKey = some k) :
    d.state.heap.alive c = true ∧ layout.observerOf k = some c := by
  obtain ⟨call,here,rfl⟩ := Option.map_eq_some_iff.mp key
  exact linked.own c call here

theorem standsApart (linked : Linked layout d) {s k c} (stands : Stands d s k c) :
    d.state.IsSignal s ∧ c ≠ s := by
  obtain ⟨signal,isCall⟩ := linked.ends c s stands.1
  refine ⟨signal,fun same => ?_⟩
  rw [same,signal.2] at isCall
  cases isCall

theorem signalKeeps (linked : Linked layout d) {s} (legal : Legal layout d.state (.signal s)) :
    Linked layout ⟨{ d.state with heap := d.state.heap.store s (some .empty) },d.table⟩ := by
  have own := linked.own
  have ends := linked.ends
  refine ⟨fun c call here => ?_,fun c x stands => ?_,fun y k p => ?_⟩
  · rw [aliveStore]
    grind
  · simp only [State.IsSignal,aliveStore]
    grind [State.IsSignal]
  · rw [entriesStore]
    split
    · next same =>
      subst same
      have none := (entriesDead legal k p).symm.trans (linked.entries y k p)
      simpa [Connections.empty,Stands] using none
    · exact linked.entries y k p

variable [BinarySearch]

theorem connectKeeps (linked : Linked layout d) {s c call} (legal : Legal layout d.state (.connect s c call))
    {h} (connected : (d.state.heap.store c (some .empty)).connect layout s call = some h) :
    Linked layout ⟨⟨h,Function.update d.state.call c (some call)⟩,Function.update d.table c (some s)⟩ := by
  obtain ⟨⟨there,notCall⟩,fresh,names⟩ := legal
  obtain ⟨alive,entries⟩ := connectEffect connected
  have own := linked.own
  have ends := linked.ends
  refine ⟨fun x f here => ?_,fun x y stands => ?_,fun y k p => ?_⟩
  · simp only [alive,aliveStore]
    grind
  · simp only [State.IsSignal,alive,aliveStore]
    grind [State.IsSignal]
  · rw [entries,names,entriesStore,linked.entries]
    have none := entriesDead fresh
    simp only [linked.entries] at none
    simp only [Stands] at *
    grind [Connections.empty]

theorem disconnectKeeps (linked : Linked layout d) {s c call} (here : d.state.call c = some call)
    (own : OwnSignal d (.disconnect s c : Use w Obj)) {h}
    (disconnected : d.state.heap.disconnect layout s call = some h) :
    Linked layout ⟨{ d.state with heap := h },d.table.use (.disconnect s c : Use w Obj)⟩ := by
  obtain ⟨alive,entries⟩ := disconnectEffect disconnected
  obtain ⟨live,names⟩ := linked.own c call here
  have ends := linked.ends
  refine ⟨fun x f at' => ?_,fun x y stands => ?_,fun y k p => ?_⟩
  · rw [alive]
    exact linked.own x f at'
  · simp only [State.IsSignal,alive]
    simp only [Table.use] at stands
    grind [State.IsSignal]
  · rw [entries,names,linked.entries]
    have key := fun k c => @keyNames _ _ _ _ _ linked k c
    simp only [Stands,Table.use,OwnSignal] at *
    grind

omit [BinarySearch] in
-- What is left when an object is forgotten: the pairs in which it has no part.
theorem forgottenEntries (linked : Linked layout d) {x h} (forgets : Forgets x d.state.heap h) (y k p) :
    h.entries y k p = if (Stands d y k p ∨ Stands d p k y) ∧ y ≠ x ∧ p ≠ x then 1 else 0 := by
  have key := fun k c => @keyNames _ _ _ _ _ linked k c
  rw [forgets,linked.entries,linked.entries]
  simp only [Stands]
  grind

omit [BinarySearch] in
theorem clearedKeeps (linked : Linked layout d) {s} (signal : d.state.IsSignal s) {h} {ends : Bool}
    (alive : ∀ y, h.alive y = ((!ends || decide (y ≠ s)) && d.state.heap.alive y))
    (forgets : Forgets s d.state.heap h) :
    Linked layout ⟨{ d.state with heap := h },fun c => if d.table c = some s then none else d.table c⟩ := by
  have old := linked.ends
  refine ⟨fun x f here => ?_,fun x y stands => ?_,fun y k p => ?_⟩
  · obtain ⟨live,names⟩ := linked.own x f here
    have other : x ≠ s := by
      intro same
      rw [same,signal.2] at here
      cases here
    exact ⟨by simp [alive,other,live],names⟩
  · simp only [State.IsSignal,alive]
    grind [State.IsSignal]
  · rw [forgottenEntries linked forgets]
    have apart := fun s k c => @standsApart _ _ _ _ _ linked s k c
    simp only [Stands,State.IsSignal] at *
    grind

omit [BinarySearch] in
theorem endConnectionKeeps (linked : Linked layout d) {c} (call : (d.state.call c).isSome = true) {h}
    (alive : ∀ y, h.alive y = (decide (y ≠ c) && d.state.heap.alive y))
    (forgets : Forgets c d.state.heap h) :
    Linked layout ⟨⟨h,Function.update d.state.call c none⟩,Function.update d.table c none⟩ := by
  have own := linked.own
  have ends := linked.ends
  refine ⟨fun x f here => ?_,fun x y stands => ?_,fun y k p => ?_⟩
  · simp only [alive]
    grind
  · simp only [State.IsSignal,alive]
    grind [State.IsSignal]
  · rw [forgottenEntries linked forgets]
    have apart := fun s k c => @standsApart _ _ _ _ _ linked s k c
    simp only [Stands,State.IsSignal] at *
    grind

theorem stepExec {use} (taken : step layout policy d use = some next) : Legal layout d.state use ∧
    ∃ st, exec layout policy d.state use = some st ∧ next = ⟨st,d.table.use use⟩ := by
  unfold step at taken
  split at taken
  · next legal =>
    obtain ⟨st,done,last⟩ := Option.bind_eq_some_iff.mp taken
    exact ⟨legal,st,done,(Option.some.inj last).symm⟩
  · contradiction

theorem stepKeeps (linked : Linked layout d) {use} (own : OwnSignal d use)
    (taken : step layout policy d use = some next) : Linked layout next := by
  obtain ⟨legal,st,done,rfl⟩ := stepExec taken
  cases use with
  | signal s =>
    cases Option.some.inj done
    exact signalKeeps linked legal
  | connect s c call =>
    obtain ⟨h,connected,last⟩ := Option.bind_eq_some_iff.mp done
    cases Option.some.inj last
    exact connectKeeps linked legal connected
  | disconnect s c =>
    obtain ⟨call,here,rest⟩ := Option.bind_eq_some_iff.mp done
    obtain ⟨h,disconnected,last⟩ := Option.bind_eq_some_iff.mp rest
    cases Option.some.inj last
    exact disconnectKeeps linked here own disconnected
  | disconnectAllSlots s =>
    obtain ⟨h,cleared,last⟩ := Option.bind_eq_some_iff.mp done
    cases Option.some.inj last
    obtain ⟨alive,forgets⟩ := disconnectAllEffect cleared
    exact @clearedKeeps _ _ _ _ _ linked s legal h false (fun y => by simp [alive]) forgets
  | endConnection c =>
    obtain ⟨h,destroyed,last⟩ := Option.bind_eq_some_iff.mp done
    cases Option.some.inj last
    obtain ⟨alive,forgets⟩ := destroyEffect destroyed
    exact endConnectionKeeps linked legal alive forgets
  | endSignal s =>
    obtain ⟨h,destroyed,last⟩ := Option.bind_eq_some_iff.mp done
    cases Option.some.inj last
    obtain ⟨alive,forgets⟩ := destroyEffect destroyed
    exact @clearedKeeps _ _ _ _ _ linked s legal h true (fun y => by simp [alive]) forgets

/-! What the invariant lets a caller see. -/

omit [BinarySearch] in
theorem slotsStand (linked : Linked layout d) {x c} (found : d.state.heap x = some c) (slot : Connection w Obj) :
    slot ∈ c.slots ↔ Stands d x slot.delegate slot.observer ∨ Stands d slot.observer slot.delegate x := by
  have held : slot ∈ c.slots ↔ 0 < d.state.heap.entries x slot.delegate slot.observer := by
    rw [entriesFound found]
    exact List.count_pos_iff.symm
  rw [held,linked.entries]
  split
  · next stands => exact iff_of_true Nat.one_pos stands
  · next apart => exact iff_of_false (Nat.lt_irrefl 0) apart

omit [BinarySearch] in
theorem slotsOnce (linked : Linked layout d) {x c} (found : d.state.heap x = some c) : c.slots.Nodup := by
  refine List.nodup_iff_count_le_one.mpr (fun slot => ?_)
  have held := linked.entries x slot.delegate slot.observer
  rw [entriesFound found] at held
  rw [show slot = ⟨slot.delegate,slot.observer⟩ from rfl,held]
  split <;> omega

omit [BinarySearch] in
theorem signalSlots (linked : Linked layout d) {s c} (signal : d.state.IsSignal s)
    (found : d.state.heap s = some c) (slot : Connection w Obj) :
    slot ∈ c.slots ↔ Stands d s slot.delegate slot.observer := by
  rw [slotsStand linked found]
  refine or_iff_left (fun stands => ?_)
  have isCall := (linked.ends s _ stands.1).2
  rw [signal.2] at isCall
  cases isCall

omit [BinarySearch] in
theorem connectionSlots (linked : Linked layout d) {x c} (isCall : (d.state.call x).isSome = true)
    (found : d.state.heap x = some c) (slot : Connection w Obj) :
    slot ∈ c.slots ↔ Stands d slot.observer slot.delegate x := by
  rw [slotsStand linked found]
  refine or_iff_right (fun stands => ?_)
  rw [(standsApart linked stands).1.2] at isCall
  cases isCall

omit [BinarySearch] in
theorem standsAlive (linked : Linked layout d) {s k c} (stands : Stands d s k c) :
    d.state.heap.alive s = true ∧ d.state.heap.alive c = true :=
  ⟨(standsApart linked stands).1.1,(keyNames linked stands.2).1⟩

omit [BinarySearch] in
theorem observersAlive (linked : Linked layout d) {x c} (found : d.state.heap x = some c) :
    ∀ slot ∈ c.slots, d.state.heap.alive slot.observer = true := by
  intro slot mem
  rcases (slotsStand linked found slot).mp mem with stands | stands
  · exact (standsAlive linked stands).2
  · exact (standsAlive linked stands).1

theorem disconnectAllDefined (linked : Linked layout d) (policy : Policy) {x}
    (live : d.state.heap.alive x = true) : ∃ h, d.state.heap.disconnectAll policy x = some h := by
  obtain ⟨c,found⟩ := Option.isSome_iff_exists.mp live
  exact Option.isSome_iff_exists.mp (disconnectAllPossible policy found
    (fun slot mem _ => observersAlive linked found slot mem))

theorem destroyDefined (linked : Linked layout d) (policy : Policy) {x} (live : d.state.heap.alive x = true) :
    ∃ h, d.state.heap.destroy policy x = some h := by
  obtain ⟨h,cleared⟩ := disconnectAllDefined linked policy live
  exact ⟨h.store x none,by simp only [destroy,cleared]; rfl⟩

theorem legalDefined (linked : Linked layout d) (policy : Policy) {use} (legal : Legal layout d.state use) :
    (exec layout policy d.state use).isSome = true := by
  cases use with
  | signal s => rfl
  | connect s c call =>
    obtain ⟨⟨live,_⟩,_,names⟩ := legal
    obtain ⟨h,connected⟩ := Option.isSome_iff_exists.mp (@connectPossible _ _ _
      (d.state.heap.store c (some .empty)) _ layout s call (by rw [aliveStore]; split <;> simp [live])
      (fun receiver named => by
        cases names.symm.trans named
        rw [aliveStore,if_pos rfl]
        rfl))
    simp only [exec,connected]
    rfl
  | disconnect s c =>
    obtain ⟨⟨live,_⟩,isCall⟩ := legal
    obtain ⟨call,here⟩ := Option.isSome_iff_exists.mp isCall
    obtain ⟨there,names⟩ := linked.own c call here
    obtain ⟨h,disconnected⟩ := Option.isSome_iff_exists.mp (@disconnectPossible _ _ _ _ _ layout s call live
      (fun receiver named => by
        cases names.symm.trans named
        exact there))
    simp only [exec,here,bind,Option.bind,disconnected]
    rfl
  | disconnectAllSlots s =>
    obtain ⟨h,cleared⟩ := disconnectAllDefined linked policy legal.1
    simp only [exec,cleared]
    rfl
  | endConnection c =>
    obtain ⟨call,here⟩ := Option.isSome_iff_exists.mp legal
    obtain ⟨h,destroyed⟩ := destroyDefined linked policy (linked.own c call here).1
    simp only [exec,destroyed]
    rfl
  | endSignal s =>
    obtain ⟨h,destroyed⟩ := destroyDefined linked policy legal.1
    simp only [exec,destroyed]
    rfl

omit [BinarySearch] in
theorem triggerCalls (linked : Linked layout d) (policy : Policy) {s} (signal : d.state.IsSignal s) :
    ∃ called, trigger policy d.state s = some called ∧ called.Nodup ∧ ∀ key, key ∈ called ↔
      ∃ c call, d.table c = some s ∧ d.state.call c = some call ∧ call.delegateKey = key := by
  obtain ⟨c,found⟩ := Option.isSome_iff_exists.mp signal.1
  have slots := signalSlots linked signal found
  have all : c.slots.filter (fun slot => policy.observed (d.state.heap.alive slot.observer)) = c.slots := by
    refine List.filter_eq_self.mpr (fun slot mem => ?_)
    rw [observersAlive linked found slot mem]
    cases policy <;> rfl
  refine ⟨c.slots.map Connection.delegate,?_,?_,fun key => ?_⟩
  · simp only [trigger,fire,found,bind,Option.bind,all]
  · refine (slotsOnce linked found).map_on (fun a first b second same => ?_)
    have left := (keyNames linked ((slots a).mp first).2).2
    have right := (keyNames linked ((slots b).mp second).2).2
    rw [same] at left
    exact (Connection.mk.injEq ..).mpr ⟨same,Option.some.inj (left.symm.trans right)⟩
  · rw [List.mem_map]
    constructor
    · intro called
      obtain ⟨slot,mem,rfl⟩ := called
      obtain ⟨held,key⟩ := (slots slot).mp mem
      obtain ⟨call,here,same⟩ := Option.map_eq_some_iff.mp key
      exact ⟨slot.observer,call,held,here,same⟩
    · intro stands
      obtain ⟨x,call,held,here,same⟩ := stands
      exact ⟨⟨key,x⟩,(slots ⟨key,x⟩).mpr ⟨held,by rw [here,Option.map_some,same]⟩,rfl⟩

omit [BinarySearch] in
theorem emptyTells (linked : Linked layout d) {s} (signal : d.state.IsSignal s) :
    ∃ b, empty d.state s = some b ∧ (b = true ↔ ∀ c, d.table c ≠ some s) := by
  obtain ⟨c,found⟩ := Option.isSome_iff_exists.mp signal.1
  have slots := signalSlots linked signal found
  refine ⟨c.slots.isEmpty,by simp only [empty,isEmpty,found,bind,Option.bind],?_⟩
  rw [List.isEmpty_iff]
  constructor
  · intro none x held
    obtain ⟨call,here⟩ := Option.isSome_iff_exists.mp (linked.ends x s held).2
    have mem := (slots ⟨call.delegateKey,x⟩).mpr ⟨held,by rw [here,Option.map_some]⟩
    rw [none] at mem
    cases mem
  · intro none
    exact List.eq_nil_iff_forall_not_mem.mpr (fun slot mem => none slot.observer ((slots slot).mp mem).1)

omit [BinarySearch] in
theorem connectedTells (linked : Linked layout d) {x} (isCall : (d.state.call x).isSome = true) :
    ∃ b, connected d.state x = some b ∧ (b = true ↔ d.table x = none) := by
  obtain ⟨call,here⟩ := Option.isSome_iff_exists.mp isCall
  obtain ⟨c,found⟩ := Option.isSome_iff_exists.mp (linked.own x call here).1
  have slots := connectionSlots linked isCall found
  refine ⟨c.slots.isEmpty,by simp only [connected,isEmpty,found,bind,Option.bind],?_⟩
  rw [List.isEmpty_iff]
  constructor
  · intro none
    cases held : d.table x with
    | none => rfl
    | some s =>
      have mem := (slots ⟨call.delegateKey,s⟩).mpr ⟨held,by rw [here,Option.map_some]⟩
      rw [none] at mem
      cases mem
  · intro none
    refine List.eq_nil_iff_forall_not_mem.mpr (fun slot mem => ?_)
    have held := ((slots slot).mp mem).1
    rw [none] at held
    cases held

theorem linkedFaithful (linked : Linked layout d) : Faithful layout policy d where
  ends := linked.ends
  defined _ := legalDefined linked policy
  trigger _ := triggerCalls linked policy
  empty _ := emptyTells linked
  connected _ := connectedTells linked

-- The receiver forgets its key whichever signal is named, so `connected` says that it is
-- cut while its own signal still calls it.
theorem ownNeeded (linked : Linked layout d) {use} (taken : step layout policy d use = some next)
    (faithful : Faithful layout policy next) : OwnSignal d use := by
  obtain ⟨legal,st,done,rfl⟩ := stepExec taken
  cases use with
  | signal | connect | disconnectAllSlots | endConnection | endSignal => trivial
  | disconnect s x =>
    obtain ⟨call,here,rest⟩ := Option.bind_eq_some_iff.mp done
    obtain ⟨h,disconnected,last⟩ := Option.bind_eq_some_iff.mp rest
    cases Option.some.inj last
    obtain ⟨alive,entries⟩ := disconnectEffect disconnected
    obtain ⟨live,names⟩ := linked.own x call here
    obtain ⟨b,said,tells⟩ := faithful.connected x (by rw [here]; rfl)
    obtain ⟨c,found⟩ := Option.isSome_iff_exists.mp ((alive x).trans live)
    have cut : c.slots = [] := by
      refine List.eq_nil_iff_forall_not_mem.mpr (fun slot mem => ?_)
      have held := entriesPositive.mpr ⟨c,found,mem⟩
      rw [entries,names,linked.entries] at held
      have key := fun k c => @keyNames _ _ _ _ _ linked k c
      have apart := fun s k c => @standsApart _ _ _ _ _ linked s k c
      simp only [Stands,State.IsSignal] at *
      grind
    have b' : b = true := by
      simp only [connected,isEmpty,found,bind,Option.bind,cut] at said
      exact (Option.some.inj said).symm
    have free := tells.mp b'
    simp only [Table.use] at free
    split at free
    · next own => exact .inr own
    · exact .inl free

end Steps

/-- Along every run that begins with no object the four adapters answer as the table says
in every state if and only if each connection is cut with its own signal. -/
theorem traitsFaithfulExactly [DecidableEq Obj] [BinarySearch] (layout : Layout w Obj) (policy : Policy)
    (uses : List (Use w Obj)) : EveryState (step layout policy) (Faithful layout policy) nothing uses ↔
      EveryStep (step layout policy) OwnSignal nothing uses :=
  everyStateExact (fun _ => linkedFaithful) (fun _ _ _ linked own taken => stepKeeps linked own taken)
    (fun _ _ _ linked taken faithful => ownNeeded linked taken faithful) nothingLinked uses

end SignalSlot.Traits
