import SignalSlot.BenchmarkNano
import SignalSlot.JlSignal

/-! Validation over Jls, whose Foo is a jl::SignalObserver and whose subjects and Foo take
their nodes from two pools of one size, that of C_JLSIGNAL_MAX. -/
namespace SignalSlot.BenchmarkJl
open Validation DoublyLinkedList JlSignal
open BenchmarkNano (Placed)
open ObjectPool (Addr Memory)
open LinkedLists (Node)

variable {w : Nat} {Obj D : Type}

/-- `&Foo::handler` bound to a Foo, which is the observer of the delegate. -/
structure Bench (Obj D : Type) where
  handler : Obj → D
  receiver : D → Option Obj
  own : ∀ x, receiver (handler x) = some x

structure Pools extends Allocators where
  same : signalCon.capacity = observerCon.capacity

def Pools.max (pools : Pools) : Nat := pools.signalCon.capacity.toNat

section Loops
variable [DecidableEq Obj] (bench : Bench Obj D) (pools : Pools) (asserts : Bool)

def construct (st : State Obj Obj D) (foos : List Obj) : State Obj Obj D :=
  foos.foldl (fun st foo => st.storeSignals foo st.signalNodes (some .construct)) st

def connectMethods (subject : Obj) : List Obj → State Obj Obj D → Option (State Obj Obj D)
  | [],st => some st
  | foo::rest,st => do
      let st ← connect pools.toAllocators asserts bench.receiver st subject (bench.handler foo)
      connectMethods subject rest st

-- A handler runs on a Foo that is there.
def emitMethod (st : State Obj Obj D) (subject : Obj) (rng : Rng) : Option Rng := do
  let called ← emit pools.toAllocators st subject
  if called.all (fun d => (bench.receiver d).all (fun x => (st.signals x).isSome)) then
    some (called.foldl (fun rng _ => rng.call) rng)
  else none

def destroyAll : List Obj → State Obj Obj D → Option (State Obj Obj D)
  | [],st => some st
  | foo::rest,st => do
      let st ← endObserver pools.toAllocators asserts st foo
      destroyAll rest st

def pass {N : Nat} (placed : Placed Obj N) (st : State Obj Obj D) (rng : Rng) :
    Option (State Obj Obj D × Rng) := do
  let st := construct (st.storeConnections placed.subject st.connectionNodes (some .construct)) placed.foos
  let st ← connectMethods bench pools asserts placed.subject placed.foos st
  let rng ← emitMethod bench pools st placed.subject rng
  let st ← destroyAll pools asserts placed.leaving st
  let rng ← emitMethod bench pools st placed.subject rng
  let st ← endSignal pools.toAllocators asserts st placed.subject
  some (st,rng)

structure Done (w : Nat) (Obj D : Type) where
  state : State Obj Obj D
  progress : Progress w

def passes (st : State Obj Obj D) (N : BitVec w) (placed : Nat → Placed Obj N.toNat) :
    Nat → Option (Done w Obj D)
  | 0 => some ⟨st,.seeded,0⟩
  | i+1 => do
      let done ← passes st N placed i
      let (st,rng) ← pass bench pools asserts (placed i) done.state done.progress.rng
      some ⟨st,rng,done.progress.count + N⟩

/-- Whether "Validation Failed" is printed, if the run is defined. -/
def validation (memory : Memory (Node Addr (JlSignal.Connection Obj D))) (memory' : Memory (Node Addr Obj))
    (N : BitVec w) (placed : Nat → Placed Obj N.toNat) : Option Bool := do
  let done ← passes bench pools asserts (start pools.toAllocators memory memory').state N placed N.toNat
  some (decide (done.progress.rng ≠ Rng.seeded.discard done.progress.count.toNat))

end Loops

/-! The state while a block runs: the subject and the elements in `live` are there, and
those in `wired` are connected to the subject, each by one node on either side. -/
def wiredTable (bench : Bench Obj D) [DecidableEq Obj] (subject : Obj) (live wired : List Obj) : Table Obj Obj D :=
  ⟨fun s => decide (s = subject),fun o => decide (o ∈ live),
    fun s => if s = subject then wired.map bench.handler else []⟩

def nothing : Table Obj Obj D := ⟨fun _ => false,fun _ => false,fun _ => []⟩

def wiredLists [DecidableEq Obj] (subject : Obj) (wired : List Obj) (o : Obj) : List Obj :=
  if o ∈ wired then [subject] else []

structure Wired [DecidableEq Obj] (bench : Bench Obj D) (pools : Pools) (st : State Obj Obj D) (subject : Obj)
    (live wired : List Obj) : Prop where
  carries : Carries pools.toAllocators bench.receiver st (wiredTable bench subject live wired)
    (wiredLists subject wired)
  distinct : wired.Nodup
  within : ∀ x ∈ wired, x ∈ live

section Wiring
variable [DecidableEq Obj] {bench : Bench Obj D} {pools : Pools} {st : State Obj Obj D} {subject : Obj}
variable {live wired : List Obj}

theorem nodesUsed (wires : Wired bench pools st subject live wired) :
    st.connectionNodes.allocations.toNat = wired.length ∧ st.signalNodes.allocations.toNat = wired.length := by
  have calls := storesAllocations wires.carries.connections {subject} (fun s out => by
    simp [wiredTable,Finset.notMem_singleton.mp out])
  have lists := storesAllocations wires.carries.signals wired.toFinset (fun o out => by
    rw [List.mem_toFinset] at out
    simp [wiredLists,out])
  constructor
  · rw [← calls]
    simp [wiredTable]
  · rw [← lists,← List.toFinset_card_of_nodup wires.distinct,Finset.card_eq_sum_ones]
    refine Finset.sum_congr rfl (fun o mem => ?_)
    simp [wiredLists,List.mem_toFinset.mp mem]

theorem bothFull (wires : Wired bench pools st subject live wired) :
    st.connectionNodes.isFull pools.signalCon = decide (wired.length = pools.max) ∧
      st.signalNodes.isFull pools.observerCon = decide (wired.length = pools.max) := by
  obtain ⟨calls,lists⟩ := nodesUsed wires
  rw [Pools.max,ObjectPool.Pool.isFull,ObjectPool.Pool.isFull,beq_eq_decide,beq_eq_decide,← pools.same,← calls]
  refine ⟨decide_eq_decide.mpr BitVec.toNat_inj.symm,decide_eq_decide.mpr ?_⟩
  rw [calls,← lists,BitVec.toNat_inj]

theorem wiredShort (wires : Wired bench pools st subject live wired) : wired.length ≤ pools.max := by
  obtain ⟨free,_,arranged,-⟩ := wires.carries.connections
  have balance := arranged.stocked.balance
  rw [(nodesUsed wires).1] at balance
  exact Nat.le.intro balance

theorem subjectAlone (carries : Carries pools.toAllocators bench.receiver st nothing (fun _ => []))
    (subject : Obj) : Wired bench pools
      (st.storeConnections subject st.connectionNodes (some .construct)) subject [] [] := by
  refine ⟨?_,List.nodup_nil,fun x => (nomatch ·)⟩
  obtain ⟨-,begun⟩ := @signalBegun _ _ _ _ _ _ _ _ subject _ carries rfl
  have table : wiredTable bench subject [] [] =
      { nothing with signals := Function.update (fun _ => false) subject true } := by
    simp only [wiredTable,nothing,Table.mk.injEq]
    refine ⟨funext (fun s => ?_),by simp,by simp⟩
    rcases eq_or_ne s subject with rfl | other
    · simp
    · simp [other]
  rw [table]
  exact begun

theorem constructWired (wires : Wired bench pools st subject live []) {foo : Obj} (new : foo ∉ live) :
    Wired bench pools (st.storeSignals foo st.signalNodes (some .construct)) subject (foo::live) [] := by
  refine ⟨?_,List.nodup_nil,fun x => (nomatch ·)⟩
  obtain ⟨-,begun⟩ := @observerBegun _ _ _ _ _ _ _ _ foo _ wires.carries (by simp [wiredTable,new])
  have table : wiredTable bench subject (foo::live) [] = { wiredTable bench subject live [] with
      observers := Function.update (fun o => decide (o ∈ live)) foo true } := by
    simp only [wiredTable,Table.mk.injEq,true_and,and_true]
    funext o
    rcases eq_or_ne o foo with rfl | other
    · simp
    · simp [other]
  rw [table]
  exact begun

theorem constructAllWired {foos : List Obj} (wires : Wired bench pools st subject live [])
    (distinct : foos.Nodup) (new : ∀ foo ∈ foos, foo ∉ live) : ∃ all,
    Wired bench pools (construct st foos) subject all [] ∧ ∀ x, x ∈ all ↔ x ∈ live ∨ x ∈ foos := by
  induction foos generalizing st live with
  | nil => exact ⟨live,wires,fun x => by simp⟩
  | cons foo rest ih =>
    obtain ⟨first,later⟩ := List.forall_mem_cons.mp new
    obtain ⟨once,distinct⟩ := List.nodup_cons.mp distinct
    have still : ∀ x ∈ rest, x ∉ foo::live := by
      intro x mem
      exact List.not_mem_cons_of_ne_of_not_mem (fun same => once (same ▸ mem)) (later x mem)
    obtain ⟨all,after,members⟩ := ih (constructWired wires first) distinct still
    refine ⟨all,after,fun x => ?_⟩
    rw [members,List.mem_cons,List.mem_cons]
    tauto

theorem wiredTableSet (live wired : List Obj) (l : List Obj) :
    (wiredTable bench subject live wired).set subject (l.map bench.handler) =
      wiredTable bench subject live l := by
  simp only [wiredTable,Table.set,Table.mk.injEq,true_and]
  funext s
  rcases eq_or_ne s subject with rfl | other
  · simp
  · simp [other]

theorem connectWired (asserts : Bool) (wires : Wired bench pools st subject live wired) {foo : Obj}
    (here : foo ∈ live) (fresh : foo ∉ wired) :
    (connect pools.toAllocators asserts bench.receiver st subject (bench.handler foo) = none ∧ asserts = true ∧
      wired.length = pools.max) ∨
    ∃ st', connect pools.toAllocators asserts bench.receiver st subject (bench.handler foo) = some st' ∧
      (asserts = false ∨ wired.length < pools.max) ∧
      Wired bench pools st' subject live (if wired.length = pools.max then wired else wired ++ [foo]) := by
  obtain ⟨calls,lists⟩ := bothFull wires
  have short := wiredShort wires
  have alive : (wiredTable bench subject live wired).signals subject = true := by simp [wiredTable]
  rcases connectCases asserts wires.carries alive (bench.handler foo) (fun o bound => by
    cases (bench.own foo).symm.trans bound
    simp [wiredTable,here]) with ⟨failed,strict,full⟩ | ⟨st',done,carries,room⟩
  · refine .inl ⟨failed,strict,?_⟩
    rw [calls,lists] at full
    rcases full with full | full
    · exact of_decide_eq_true full
    · exact of_decide_eq_true full.2
  · rw [calls,decide_eq_false_iff_not] at room
    refine .inr ⟨st',done,room.imp_right (fun other => lt_of_le_of_ne short other),?_⟩
    simp only [signalsAfter,bench.own,calls,lists,decide_eq_true_eq] at carries
    by_cases full : wired.length = pools.max
    · rw [if_pos full,if_pos full] at carries
      rw [if_pos full]
      exact ⟨carries,wires.distinct,wires.within⟩
    · rw [if_neg full,if_neg full] at carries
      rw [if_neg full]
      refine ⟨?_,List.nodup_append.mpr ⟨wires.distinct,List.nodup_singleton foo,?_⟩,?_⟩
      · have grown : (wiredTable bench subject live wired).connections subject ++ [bench.handler foo] =
            (wired ++ [foo]).map bench.handler := by simp [wiredTable]
        have listed : Function.update (wiredLists subject wired) foo (wiredLists subject wired foo ++ [subject]) =
            wiredLists subject (wired ++ [foo]) := by
          funext o
          rcases eq_or_ne o foo with rfl | other
          · simp [wiredLists,fresh]
          · simp [wiredLists,other]
        rw [grown,wiredTableSet,listed] at carries
        exact carries
      · rintro x mem y same rfl
        rw [List.mem_singleton.mp same] at mem
        exact fresh mem
      · intro x mem
        rcases List.mem_append.mp mem with mem | mem
        · exact wires.within x mem
        · rw [List.mem_singleton.mp mem]
          exact here

/-- What is connected is what there are nodes for. If there are too few, an assertion
fails, or the others stay unconnected. -/
theorem connectAllWired (asserts : Bool) {foos : List Obj} (wires : Wired bench pools st subject live wired)
    (here : ∀ foo ∈ foos, foo ∈ live) (distinct : foos.Nodup) (fresh : ∀ foo ∈ foos, foo ∉ wired) :
    (connectMethods bench pools asserts subject foos st = none ∧ asserts = true ∧
      pools.max < wired.length + foos.length) ∨
    ∃ st', connectMethods bench pools asserts subject foos st = some st' ∧
      (asserts = false ∨ wired.length + foos.length ≤ pools.max) ∧
      Wired bench pools st' subject live ((wired ++ foos).take pools.max) := by
  have short := wiredShort wires
  induction foos generalizing st wired with
  | nil =>
    refine .inr ⟨st,rfl,.inr short,?_⟩
    rwa [List.append_nil,List.take_of_length_le short]
  | cons foo rest ih =>
    obtain ⟨first,later⟩ := List.forall_mem_cons.mp here
    obtain ⟨new,fresh⟩ := List.forall_mem_cons.mp fresh
    obtain ⟨once,distinct⟩ := List.nodup_cons.mp distinct
    rw [List.length_cons]
    rcases connectWired asserts wires first new with ⟨failed,strict,full⟩ | ⟨st',done,room,wires'⟩
    · refine .inl ⟨?_,strict,by omega⟩
      simp only [connectMethods,failed,bind,Option.bind]
    · simp only [connectMethods,done,bind,Option.bind]
      have short' := wiredShort wires'
      by_cases full : wired.length = pools.max
      · rw [if_pos full] at wires'
        have loose : asserts = false := room.resolve_right (by omega)
        rcases ih wires' later distinct fresh short with ⟨-,strict,-⟩ | ⟨last,ran,-,wires''⟩
        · rw [loose] at strict
          cases strict
        · refine .inr ⟨last,ran,.inl loose,?_⟩
          rw [List.take_append_of_le_length full.ge] at wires'' ⊢
          exact wires''
      · rw [if_neg full] at wires' short'
        have still : ∀ x ∈ rest, x ∉ wired ++ [foo] := by
          intro x mem among
          rcases List.mem_append.mp among with old | same
          · exact fresh x mem old
          · exact once (List.mem_singleton.mp same ▸ mem)
        have long : (wired ++ [foo]).length + rest.length = wired.length + (rest.length + 1) := by
          simp
          omega
        have joined := ih wires' later distinct still short'
        rwa [long,List.append_assoc,List.singleton_append] at joined

theorem emitWired (wires : Wired bench pools st subject live wired) (rng : Rng) :
    emitMethod bench pools st subject rng = some (rng.discard wired.length) := by
  have called := carriesEmit wires.carries (s := subject) (by simp [wiredTable])
  have listed : (wiredTable bench subject live wired).connections subject = wired.map bench.handler := by
    simp [wiredTable]
  have there : (wired.map bench.handler).all
      (fun d => (bench.receiver d).all (fun x => (st.signals x).isSome)) = true := by
    refine List.all_eq_true.mpr (fun d mem => ?_)
    obtain ⟨foo,among,rfl⟩ := List.mem_map.mp mem
    simp [bench.own,wires.carries.observersThere,wiredTable,wires.within foo among]
  have calls : ∀ (called : List D) (rng : Rng),
      called.foldl (fun rng _ => rng.call) rng = rng.discard called.length := by
    intro called
    induction called with
    | nil => exact fun _ => rfl
    | cons d rest ih => exact fun rng => ih rng.call
  rw [listed] at called
  simp only [emitMethod,called,bind,Option.bind]
  rw [if_pos there,calls,List.length_map]

theorem destroyFoo (asserts : Bool) (wires : Wired bench pools st subject live wired) {foo : Obj}
    (here : foo ∈ live) : ∃ st', endObserver pools.toAllocators asserts st foo = some st' ∧
      Wired bench pools st' subject (live.filter (· ≠ foo)) (wired.filter (· ≠ foo)) := by
  have joined : ∀ s, (wiredTable bench subject live wired).Connected bench.receiver s foo ↔
      s = subject ∧ foo ∈ wired := by
    intro s
    rcases eq_or_ne s subject with rfl | other
    · simp [Table.Connected,wiredTable,bench.own]
    · simp [Table.Connected,wiredTable,other]
  obtain ⟨st',done,carries⟩ := endObserverDone asserts wires.carries (o := foo) (by simp [wiredTable,here])
    (fun s => by
      rw [joined]
      by_cases among : foo ∈ wired <;> simp [wiredLists,among])
    (fun s connected => by simp [wiredTable,((joined s).mp connected).1])
  have table : { (wiredTable bench subject live wired).leave bench.receiver foo with
      observers := Function.update (wiredTable bench subject live wired).observers foo false } =
      wiredTable bench subject (live.filter (· ≠ foo)) (wired.filter (· ≠ foo)) := by
    simp only [wiredTable,Table.leave,Table.mk.injEq,true_and]
    refine ⟨funext (fun o => ?_),funext (fun s => ?_)⟩
    · rcases eq_or_ne o foo with rfl | other
      · simp
      · simp [other]
    · rcases eq_or_ne s subject with rfl | other
      · simp [List.filter_map,Function.comp_def,bench.own]
      · simp [other]
  have lists : Function.update (wiredLists subject wired) foo [] =
      wiredLists subject (wired.filter (· ≠ foo)) := by
    funext o
    rcases eq_or_ne o foo with rfl | other
    · simp [wiredLists]
    · simp [wiredLists,other]
  rw [table,lists] at carries
  refine ⟨st',done,carries,wires.distinct.filter _,fun x mem => ?_⟩
  obtain ⟨mem,other⟩ := List.mem_filter.mp mem
  exact List.mem_filter.mpr ⟨wires.within x mem,other⟩

theorem destroyAllWired (asserts : Bool) {leaving : List Obj} (wires : Wired bench pools st subject live wired)
    (distinct : leaving.Nodup) (all : ∀ x, x ∈ live ↔ x ∈ leaving) :
    ∃ st', destroyAll pools asserts leaving st = some st' ∧ Wired bench pools st' subject [] [] := by
  induction leaving generalizing st live wired with
  | nil =>
    cases List.eq_nil_iff_forall_not_mem.mpr (fun x mem => List.not_mem_nil ((all x).mp mem))
    cases List.eq_nil_iff_forall_not_mem.mpr (fun x mem => List.not_mem_nil (wires.within x mem))
    exact ⟨st,rfl,wires⟩
  | cons foo rest ih =>
    obtain ⟨once,distinct⟩ := List.nodup_cons.mp distinct
    obtain ⟨next,destroyed,wires⟩ := destroyFoo asserts wires ((all foo).mpr List.mem_cons_self)
    obtain ⟨st',ran,after⟩ := ih wires distinct (fun x => by
      rw [List.mem_filter,all,List.mem_cons]
      grind)
    refine ⟨st',?_,after⟩
    simp only [destroyAll,destroyed,bind,Option.bind]
    exact ran

theorem endAlone (asserts : Bool) (wires : Wired bench pools st subject [] []) :
    ∃ st', endSignal pools.toAllocators asserts st subject = some st' ∧
      Carries pools.toAllocators bench.receiver st' nothing (fun _ => []) := by
  have silent : ∀ o, ¬ (wiredTable bench subject [] []).Connected bench.receiver subject o := by
    simp [Table.Connected,wiredTable]
  obtain ⟨st',sigs,done,carries,mem⟩ := endSignalDone asserts wires.carries (s := subject)
    (by simp [wiredTable]) (fun o joined => absurd joined (silent o))
  have table : { (wiredTable bench subject [] []).set subject [] with
      signals := Function.update (wiredTable bench subject [] []).signals subject false } = nothing := by
    simp only [wiredTable,nothing,Table.set,Table.mk.injEq]
    refine ⟨funext (fun s => ?_),by simp,by simp⟩
    rcases eq_or_ne s subject with rfl | other
    · simp
    · simp [other]
  have none' : sigs = fun _ => [] := by
    funext o
    refine List.eq_nil_iff_forall_not_mem.mpr (fun x among => ?_)
    have before := ((mem x o).mp among).1
    simp [wiredLists] at before
  rw [table,none'] at carries
  exact ⟨st',done,carries⟩

variable {N : Nat}

/-- A pass calls as many handlers as the pools have nodes for, and gives every node back. -/
theorem passDone (asserts : Bool) (placed : Placed Obj N)
    (carries : Carries pools.toAllocators bench.receiver st nothing (fun _ => [])) (rng : Rng) :
    (pass bench pools asserts placed st rng = none ∧ asserts = true ∧ pools.max < N) ∨
    ∃ st', pass bench pools asserts placed st rng = some (st',rng.discard (min N pools.max)) ∧
      (asserts = false ∨ N ≤ pools.max) ∧
      Carries pools.toAllocators bench.receiver st' nothing (fun _ => []) := by
  obtain ⟨all,built,members⟩ := constructAllWired (subjectAlone carries placed.subject) placed.distinct
    (fun _ _ => List.not_mem_nil)
  have there : ∀ x, x ∈ all ↔ x ∈ placed.foos := fun x => by simp [members]
  rcases connectAllWired asserts built (fun foo mem => (there foo).mpr mem) placed.distinct
    (fun _ _ => List.not_mem_nil) with ⟨failed,strict,many⟩ | ⟨st₁,connected,room,wires⟩
  · refine .inl ⟨?_,strict,?_⟩
    · simp only [pass,failed,bind,Option.bind]
    · rwa [List.length_nil,Nat.zero_add,placed.size] at many
  · rw [List.length_nil,Nat.zero_add,placed.size] at room
    rw [List.nil_append] at wires
    have called : (placed.foos.take pools.max).length = min N pools.max := by
      rw [List.length_take,placed.size,Nat.min_comm]
    obtain ⟨st₂,destroyed,alone⟩ := destroyAllWired asserts wires
      (placed.leave.nodup_iff.mpr placed.distinct) (fun x => by rw [there,placed.leave.mem_iff])
    obtain ⟨st₃,ended,carries'⟩ := endAlone asserts alone
    refine .inr ⟨st₃,?_,room,carries'⟩
    have loud := emitWired wires rng
    have silent := emitWired alone (rng.discard (min N pools.max))
    rw [called] at loud
    simp only [pass,connected,loud,destroyed,silent,ended,bind,Option.bind]
    rfl

theorem passesDone (bench : Bench Obj D) (pools : Pools) (asserts : Bool)
    (carries : Carries pools.toAllocators bench.receiver st nothing (fun _ => [])) (N : BitVec w)
    (placed : Nat → Placed Obj N.toNat) (k : Nat) :
    (passes bench pools asserts st N placed k = none ∧ 0 < k ∧ asserts = true ∧ pools.max < N.toNat) ∨
    ∃ st', passes bench pools asserts st N placed k =
        some ⟨st',rounds N (fun _ => min N.toNat pools.max) (fun _ => 0) k⟩ ∧
      (k = 0 ∨ asserts = false ∨ N.toNat ≤ pools.max) ∧
      Carries pools.toAllocators bench.receiver st' nothing (fun _ => []) := by
  induction k with
  | zero => exact .inr ⟨st,rfl,.inl rfl,carries⟩
  | succ k ih =>
    rcases ih with ⟨failed,-,strict,many⟩ | ⟨st₁,done,-,carries₁⟩
    · refine .inl ⟨?_,k.succ_pos,strict,many⟩
      simp only [passes,failed,bind,Option.bind]
    · rcases passDone asserts (placed k) carries₁
          (rounds N (fun _ => min N.toNat pools.max) (fun _ => 0) k).rng with
        ⟨failed,strict,many⟩ | ⟨st₂,ran,room,carries₂⟩
      · refine .inl ⟨?_,k.succ_pos,strict,many⟩
        simp only [passes,done,failed,bind,Option.bind]
      · refine .inr ⟨st₂,?_,.inr room,carries₂⟩
        simp only [passes,done,ran,bind,Option.bind]
        rfl

-- Both totals are short of the period, and differ.
theorem shortRejected (N : BitVec w) {calls : Nat} (fits : N.toNat * N.toNat < 2^w) (few : calls ≤ N.toNat)
    (period : calls < N.toNat → N.toNat * N.toNat < 2147483646) :
    validationAssert N (fun _ => calls) (fun _ => 0) = decide (calls < N.toNat) := by
  rcases few.lt_or_eq with short | rfl
  · rw [decide_eq_true short]
    refine Bool.eq_true_of_not_eq_false (fun accepted => ?_)
    have less : N.toNat * calls < N.toNat * N.toNat := Nat.mul_lt_mul_of_pos_left short (by omega)
    rw [validationAssert,roundsDone,BitVec.ofNat_toNat,BitVec.setWidth_eq,decide_eq_false_iff_not,not_not,
      discardEq,Finset.sum_const,Finset.card_range,smul_eq_mul,Nat.add_zero,BitVec.toNat_mul,
      Nat.mod_eq_of_lt fits] at accepted
    have same := accepted.eq_of_lt_of_lt (less.trans (period short)) (period short)
    exact less.ne same
  · rw [correctAccepted N fits _ _ (fun _ _ => ⟨rfl,rfl⟩)]
    simp

/-- Validation over Jls passes exactly if the pools have a node for every Foo. If no
assertion ends it, each pass calls as many handlers as there are nodes. -/
theorem jlsValidates (bench : Bench Obj D) (pools : Pools) (asserts : Bool)
    (memory : Memory (Node Addr (JlSignal.Connection Obj D))) (memory' : Memory (Node Addr Obj)) (N : BitVec w)
    (placed : Nat → Placed Obj N.toNat) :
    validation bench pools asserts memory memory' N placed = (if asserts = true ∧ pools.max < N.toNat then none
      else some (validationAssert N (fun _ => min N.toNat pools.max) (fun _ => 0))) ∧
    (N.toNat * N.toNat < 2^w → (pools.max < N.toNat → N.toNat * N.toNat < 2147483646) →
      validation bench pools asserts memory memory' N placed =
        if asserts = true ∧ pools.max < N.toNat then none else some (decide (pools.max < N.toNat))) := by
  have begun : Carries pools.toAllocators bench.receiver (start pools.toAllocators memory memory').state
      nothing (fun _ => []) :=
    ⟨⟨storesFresh _ memory',fun _ => rfl⟩,storesFresh _ memory,fun _ => rfl⟩
  have done : validation bench pools asserts memory memory' N placed =
      (if asserts = true ∧ pools.max < N.toNat then none
        else some (validationAssert N (fun _ => min N.toNat pools.max) (fun _ => 0))) := by
    rcases passesDone bench pools asserts begun N placed N.toNat with
      ⟨failed,-,strict,many⟩ | ⟨st',ran,room,-⟩
    · rw [if_pos ⟨strict,many⟩]
      simp only [validation,failed,bind,Option.bind]
    · have roomy : ¬ (asserts = true ∧ pools.max < N.toNat) := by
        rintro ⟨strict,many⟩
        rcases room with empty | loose | enough
        · omega
        · rw [strict] at loose
          cases loose
        · omega
      rw [if_neg roomy]
      simp only [validation,ran,bind,Option.bind]
      rfl
  refine ⟨done,fun fits period => ?_⟩
  rw [done,shortRejected N fits (Nat.min_le_left ..) (fun short => period (by omega))]
  have lost : (min N.toNat pools.max < N.toNat) = (pools.max < N.toNat) := by
    rw [min_lt_iff,lt_self_iff_false,false_or]
  simp only [lost]

end Wiring

end SignalSlot.BenchmarkJl
