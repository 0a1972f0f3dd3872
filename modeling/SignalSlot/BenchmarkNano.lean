import SignalSlot.BenchmarkValidation
import SignalSlot.NanoEntries

/-! Validation and the loops of the benchmark over Nano: the class Foo is an Observer
whose handler takes one number from the generator, and Subject is Nano::Signal. -/
namespace SignalSlot.BenchmarkNano
open PartitionSearch Heap Validation

variable {w : Nat} {Obj : Type}

/-- `&Foo::handler` bound to an instance, which its key names. -/
structure Bench (w : Nat) (Obj : Type) where
  layout : Layout w Obj
  handler : Obj → Function w
  own : ∀ x, layout.observerOf (handler x).delegateKey = some x

/-- Where the subject and the elements of a vector of N Foo stand, and the order in which
the vector destroys its elements. -/
structure Placed (Obj : Type) (N : Nat) where
  subject : Obj
  foos : List Obj
  size : foos.length = N
  distinct : foos.Nodup
  apart : subject ∉ foos
  leaving : List Obj
  leave : leaving.Perm foos

/-- Objects are their addresses, and a key names the instance that it begins with. -/
def addressBench (thunk : BitVec w) : Bench w (BitVec w) where
  layout := ⟨fun key => some key.word0,fun _ => true⟩
  handler x := .bindInstance thunk x
  own _ := rfl

def Bench.key (bench : Bench w Obj) (x : Obj) : DelegateKey w := (bench.handler x).delegateKey

section Loops
variable [DecidableEq Obj] [BinarySearch] (bench : Bench w Obj) (policy : Policy)

def construct (h : Heap w Obj) (x : Obj) : Heap w Obj := h.store x (some .empty)

def connectMethods (subject : Obj) : List Obj → Heap w Obj → Option (Heap w Obj)
  | [],h => some h
  | foo::rest,h => do
      let h ← h.connect bench.layout subject (bench.handler foo)
      connectMethods subject rest h

def emitMethod (h : Heap w Obj) (subject : Obj) (rng : Rng) : Option Rng := do
  let called ← h.fire policy subject
  some (called.foldl (fun rng _ => rng.call) rng)

def destroyAll : List Obj → Heap w Obj → Option (Heap w Obj)
  | [],h => some h
  | foo::rest,h => do
      let h ← h.destroy policy foo
      destroyAll rest h

/-- The block in which a vector of Foo lives: an iteration of `reconnect` if nothing is
emitted, of `combined` if something is. -/
def block (emits : Bool) (subject : Obj) (foos leaving : List Obj) (h : Heap w Obj) (rng : Rng) :
    Option (Heap w Obj × Rng) := do
  let h ← connectMethods bench subject foos (foos.foldl construct h)
  let rng ← if emits then emitMethod policy h subject rng else some rng
  let h ← destroyAll policy leaving h
  some (h,rng)

-- One pass of the loop of `validation_assert`.
def pass {N : Nat} (placed : Placed Obj N) (h : Heap w Obj) (rng : Rng) : Option (Heap w Obj × Rng) := do
  let (h,rng) ← block bench policy true placed.subject placed.foos placed.leaving
    (construct h placed.subject) rng
  let rng ← emitMethod policy h placed.subject rng
  let h ← h.destroy policy placed.subject
  some (h,rng)

-- An iteration of `connection`, `disconnect` or `emission`, and of `reconnect` or `combined`.
def sample {N : Nat} (emits : Bool) (placed : Placed Obj N) (h : Heap w Obj) (rng : Rng) :
    Option (Heap w Obj × Rng) := do
  let (h,rng) ← block bench policy emits placed.subject placed.foos placed.leaving
    (construct h placed.subject) rng
  let h ← h.destroy policy placed.subject
  some (h,rng)

def resample {N : Nat} (emits : Bool) (subject : Obj) (placed : { p : Placed Obj N // p.subject = subject })
    (h : Heap w Obj) (rng : Rng) : Option (Heap w Obj × Rng) :=
  block bench policy emits subject placed.val.foos placed.val.leaving h rng

def iterations {ι : Type} (body : ι → Heap w Obj → Rng → Option (Heap w Obj × Rng)) (h : Heap w Obj)
    (rng : Rng) : List ι → Option (Heap w Obj × Rng)
  | [] => some (h,rng)
  | i::rest => do
      let (h,rng) ← body i h rng
      iterations body h rng rest

structure Done (w : Nat) (Obj : Type) where
  heap : Heap w Obj
  progress : Progress w

def passes (N : BitVec w) (placed : Nat → Placed Obj N.toNat) : Nat → Option (Done w Obj)
  | 0 => some ⟨fun _ => none,.seeded,0⟩
  | i+1 => do
      let done ← passes N placed i
      let (h,rng) ← pass bench policy (placed i) done.heap done.progress.rng
      some ⟨h,rng,done.progress.count + N⟩

/-- Whether "Validation Failed" is printed, if the run is defined. -/
def validation (N : BitVec w) (placed : Nat → Placed Obj N.toNat) : Option Bool := do
  let done ← passes bench policy N placed N.toNat
  some (decide (done.progress.rng ≠ Rng.seeded.discard done.progress.count.toNat))

end Loops

/-! The heap while a block runs: the subject and the elements in `live` are there, and
those in `wired` are connected to the subject, each by one entry on either side. -/
structure Wired [DecidableEq Obj] (bench : Bench w Obj) (h : Heap w Obj) (subject : Obj)
    (live wired : List Obj) : Prop where
  alive : ∀ y, h.alive y = true ↔ y = subject ∨ y ∈ live
  within : ∀ x ∈ wired, x ∈ live ∧ x ≠ subject
  entries : ∀ y k p, h.entries y k p = if y = subject ∧ p ∈ wired ∧ k = bench.key p ∨
    p = subject ∧ y ∈ wired ∧ k = bench.key y then 1 else 0

section Wiring
variable [DecidableEq Obj] {bench : Bench w Obj} {h out : Heap w Obj} {subject : Obj} {live wired : List Obj}

omit [DecidableEq Obj] in
theorem keyInjective {x y : Obj} (same : bench.key x = bench.key y) : x = y :=
  Option.some.inj (((bench.own x).symm.trans (congrArg bench.layout.observerOf same)).trans (bench.own y))

theorem constructAlive (x y : Obj) : (construct h x).alive y = true ↔ y = x ∨ h.alive y = true := by
  rw [construct,aliveStore]
  split
  · next same => simp [same]
  · next other => simp [other]

theorem constructEntries (x : Obj) (y k p) :
    (construct h x).entries y k p = if y = x then 0 else h.entries y k p := by
  rw [construct,entriesStore]
  split <;> rfl

theorem constructWired (wires : Wired bench h subject live []) (foo : Obj) :
    Wired bench (construct h foo) subject (foo::live) [] := by
  refine ⟨fun y => ?_,fun x => (nomatch ·),fun y k p => ?_⟩
  · rw [constructAlive,wires.alive,List.mem_cons,or_left_comm]
  · rw [constructEntries,wires.entries]
    simp only [List.not_mem_nil,false_and,and_false,or_self,if_false,ite_self]

theorem constructAllWired (wires : Wired bench h subject live []) (foos : List Obj) : ∃ all,
    Wired bench (foos.foldl construct h) subject all [] ∧ ∀ x, x ∈ all ↔ x ∈ live ∨ x ∈ foos := by
  induction foos generalizing h live with
  | nil => exact ⟨live,wires,fun x => by simp⟩
  | cons foo rest ih =>
    obtain ⟨all,after,members⟩ := ih (constructWired wires foo)
    refine ⟨all,after,fun x => ?_⟩
    rw [members,List.mem_cons,List.mem_cons]
    tauto

variable [BinarySearch]

theorem connectWired (wires : Wired bench h subject live wired) {foo : Obj} (here : foo ∈ live)
    (other : foo ≠ subject) (fresh : foo ∉ wired) :
    ∃ out, h.connect bench.layout subject (bench.handler foo) = some out ∧
      Wired bench out subject live (foo::wired) := by
  obtain ⟨out,connected⟩ := Option.isSome_iff_exists.mp (connectPossible ((wires.alive subject).mpr (.inl rfl))
    (fun receiver named => by
      cases (bench.own foo).symm.trans named
      exact (wires.alive foo).mpr (.inr here)))
  obtain ⟨alive,entries⟩ := connectEffect connected
  have own : bench.layout.observerOf (bench.handler foo).delegateKey = some foo := bench.own foo
  have key : (bench.handler foo).delegateKey = bench.key foo := rfl
  refine ⟨out,connected,fun y => ?_,?_,fun y k p => ?_⟩
  · rw [alive]
    exact wires.alive y
  · exact List.forall_mem_cons.mpr ⟨⟨here,other⟩,wires.within⟩
  · rw [entries,wires.entries,own,key]
    have within := wires.within
    simp only [List.mem_cons]
    grind

theorem connectAllWired {foos : List Obj} (wires : Wired bench h subject live wired)
    (here : ∀ foo ∈ foos, foo ∈ live ∧ foo ≠ subject) (distinct : foos.Nodup)
    (fresh : ∀ foo ∈ foos, foo ∉ wired) :
    ∃ out all, connectMethods bench subject foos h = some out ∧ Wired bench out subject live all ∧
      all.Perm (wired ++ foos) := by
  induction foos generalizing h wired with
  | nil => exact ⟨h,wired,rfl,wires,by rw [List.append_nil]⟩
  | cons foo rest ih =>
    obtain ⟨⟨first,other⟩,later⟩ := List.forall_mem_cons.mp here
    obtain ⟨new,fresh⟩ := List.forall_mem_cons.mp fresh
    obtain ⟨once,distinct⟩ := List.nodup_cons.mp distinct
    obtain ⟨next,connected,wires⟩ := connectWired wires first other new
    have still : ∀ x ∈ rest, x ∉ foo::wired := by
      intro x mem
      exact List.not_mem_cons_of_ne_of_not_mem (fun same => once (same ▸ mem)) (fresh x mem)
    obtain ⟨out,all,ran,after,perm⟩ := ih wires later distinct still
    refine ⟨out,all,?_,after,perm.trans List.perm_middle.symm⟩
    simp only [connectMethods,connected]
    exact ran

omit [BinarySearch] in
theorem fireWired (policy : Policy) (wires : Wired bench h subject live wired) (distinct : wired.Nodup) :
    ∃ called, h.fire policy subject = some called ∧ called.Perm (wired.map bench.key) := by
  have here := (wires.alive subject).mpr (.inl rfl)
  obtain ⟨c,found⟩ := Option.isSome_iff_exists.mp here
  have counted : c.slots.Perm (wired.map (fun x => ⟨bench.key x,x⟩)) := by
    refine List.perm_iff_count.mpr (fun e => ?_)
    have once : (wired.map (fun x => (⟨bench.key x,x⟩ : Connection w Obj))).Nodup :=
      distinct.map (fun x y same => congrArg Connection.observer same)
    rw [once.count,← entriesFound found e.delegate e.observer,wires.entries]
    refine if_congr ⟨fun linked => ?_,fun mem => ?_⟩ rfl rfl
    · rcases linked with ⟨_,mem,key⟩ | ⟨_,mem,_⟩
      · exact List.mem_map.mpr ⟨e.observer,mem,by rw [← key]⟩
      · exact absurd rfl (wires.within subject mem).2
    · obtain ⟨x,there,rfl⟩ := List.mem_map.mp mem
      exact .inl ⟨rfl,there,rfl⟩
  have all : c.slots.filter (fun slot => policy.observed (h.alive slot.observer)) = c.slots := by
    refine List.filter_eq_self.mpr (fun slot mem => ?_)
    obtain ⟨x,there,rfl⟩ := List.mem_map.mp (counted.mem_iff.mp mem)
    rw [(wires.alive x).mpr (.inr (wires.within x there).1)]
    cases policy <;> rfl
  refine ⟨_,by simp only [fire,found,bind,Option.bind]; rfl,?_⟩
  rw [all]
  have mapped := counted.map Connection.delegate
  rwa [List.map_map] at mapped

theorem destroyWired (policy : Policy) (wires : Wired bench h subject live wired) {x : Obj}
    (there : h.alive x = true) :
    ∃ out, h.destroy policy x = some out ∧ (∀ y, out.alive y = true ↔ y ≠ x ∧ h.alive y = true) ∧
      Forgets x h out := by
  obtain ⟨c,found⟩ := Option.isSome_iff_exists.mp there
  have observers : ∀ slot ∈ c.slots, slot.observer ≠ x → h.alive slot.observer = true := by
    intro slot mem _
    have held := entriesPositive.mpr ⟨c,found,mem⟩
    rw [wires.entries] at held
    split at held
    · next wired =>
      rw [wires.alive]
      rcases wired with ⟨_,mem,_⟩ | ⟨same,_,_⟩
      · exact .inr (wires.within _ mem).1
      · exact .inl same
    · cases held
  obtain ⟨cleared,all⟩ := Option.isSome_iff_exists.mp (disconnectAllPossible policy found observers)
  have destroyed : h.destroy policy x = some (cleared.store x none) := by
    simp only [destroy,all]
    rfl
  obtain ⟨alive,forgets⟩ := destroyEffect destroyed
  refine ⟨_,destroyed,fun y => ?_,forgets⟩
  rw [alive,Bool.and_eq_true,decide_eq_true_eq]

theorem destroyFoo (policy : Policy) (wires : Wired bench h subject wired wired) (distinct : wired.Nodup)
    {foo : Obj} (mem : foo ∈ wired) : ∃ out, h.destroy policy foo = some out ∧
      Wired bench out subject (wired.erase foo) (wired.erase foo) := by
  have other := (wires.within foo mem).2
  obtain ⟨out,destroyed,alive,forgets⟩ := destroyWired policy wires ((wires.alive foo).mpr (.inr mem))
  have left : ∀ x, x ∈ wired.erase foo ↔ x ≠ foo ∧ x ∈ wired := fun x => distinct.mem_erase_iff
  refine ⟨out,destroyed,fun y => ?_,fun x mem => ?_,fun y k p => ?_⟩
  · rw [alive,wires.alive,left]
    grind
  · exact ⟨mem,(wires.within x ((left x).mp mem).2).2⟩
  · have injective : ∀ x y, bench.key x = bench.key y → x = y := fun x y => keyInjective
    have within := wires.within
    rw [forgets,wires.entries,wires.entries]
    simp only [left]
    grind

theorem destroyAllWired (policy : Policy) {leaving : List Obj} (wires : Wired bench h subject wired wired)
    (distinct : wired.Nodup) (leave : leaving.Perm wired) :
    ∃ out, destroyAll policy leaving h = some out ∧ Wired bench out subject [] [] := by
  induction leaving generalizing h wired with
  | nil =>
    cases leave.symm.eq_nil
    exact ⟨h,rfl,wires⟩
  | cons foo rest ih =>
    have mem : foo ∈ wired := leave.subset List.mem_cons_self
    obtain ⟨next,destroyed,wires⟩ := destroyFoo policy wires distinct mem
    have others : rest.Perm (wired.erase foo) := (List.cons_perm_iff_perm_erase.mp leave).2
    obtain ⟨out,ran,after⟩ := ih wires (distinct.erase foo) others
    refine ⟨out,?_,after⟩
    simp only [destroyAll,destroyed]
    exact ran

omit [BinarySearch] in
theorem emitWired (policy : Policy) (wires : Wired bench h subject live wired) (distinct : wired.Nodup)
    (rng : Rng) : emitMethod policy h subject rng = some (rng.discard wired.length) := by
  obtain ⟨called,fired,perm⟩ := fireWired policy wires distinct
  have calls : ∀ (called : List (DelegateKey w)) (rng : Rng),
      called.foldl (fun rng _ => rng.call) rng = rng.discard called.length := by
    intro called
    induction called with
    | nil => exact fun _ => rfl
    | cons key rest ih => exact fun rng => ih rng.call
  simp only [emitMethod,fired,bind,Option.bind,calls,perm.length_eq,List.length_map]

omit [BinarySearch] in
theorem subjectAlone (x : Obj) : Wired bench (construct (fun _ => none) x) x [] [] := by
  refine ⟨fun y => ?_,fun y => (nomatch ·),fun y k p => ?_⟩
  · rw [constructAlive]
    simp [Heap.alive]
  · rw [constructEntries]
    simp [Heap.entries]

omit [BinarySearch] in
theorem wiredSame {other : List Obj} (wires : Wired bench h subject live wired)
    (same : ∀ x, x ∈ live ↔ x ∈ other) : Wired bench h subject other wired :=
  ⟨fun y => (wires.alive y).trans (or_congr_right (same y)),
    fun x mem => ⟨(same x).mp (wires.within x mem).1,(wires.within x mem).2⟩,wires.entries⟩

variable {N : Nat}

theorem blockDone (policy : Policy) (emits : Bool) (placed : Placed Obj N)
    (wires : Wired bench h placed.subject [] []) (rng : Rng) :
    ∃ out, block bench policy emits placed.subject placed.foos placed.leaving h rng =
      some (out,rng.discard (if emits then N else 0)) ∧ Wired bench out placed.subject [] [] := by
  obtain ⟨all,built,members⟩ := constructAllWired wires placed.foos
  have here : ∀ foo ∈ placed.foos, foo ∈ all ∧ foo ≠ placed.subject := by
    intro foo mem
    exact ⟨(members foo).mpr (.inr mem),fun same => placed.apart (same ▸ mem)⟩
  obtain ⟨next,wired,connected,wires,perm⟩ :=
    connectAllWired built here placed.distinct (fun _ _ => (nomatch ·))
  have wires : Wired bench next placed.subject wired wired := wiredSame wires (fun x => by
    rw [members,perm.mem_iff]
    simp)
  have distinct : wired.Nodup := perm.nodup_iff.mpr placed.distinct
  have size : wired.length = N := perm.length_eq.trans placed.size
  obtain ⟨out,left,wires'⟩ := destroyAllWired policy wires distinct (placed.leave.trans perm.symm)
  refine ⟨out,?_,wires'⟩
  cases emits with
  | true =>
    have emitted := emitWired policy wires distinct rng
    simp only [block,connected,bind,Option.bind,if_true,emitted,left,size]
  | false =>
    simp only [block,connected,bind,Option.bind,Bool.false_eq_true,if_false,left]
    rfl

omit [BinarySearch] in
theorem wiredNone (wires : Wired bench h subject [] []) : h = construct (fun _ => none) subject := by
  funext y
  rcases eq_or_ne y subject with rfl | other
  · obtain ⟨c,found⟩ := Option.isSome_iff_exists.mp ((wires.alive y).mpr (.inl rfl))
    have empty : c = .empty := by
      refine Connections.ext (List.eq_nil_iff_forall_not_mem.mpr (fun slot mem => ?_))
      have held := entriesPositive.mpr ⟨c,found,mem⟩
      rw [wires.entries] at held
      simp at held
    rw [found,empty,construct,store,Function.update_self]
  · have dead : ¬ h.alive y = true := fun there => ((wires.alive y).mp there).elim other (nomatch ·)
    rw [construct,store,Function.update_of_ne other]
    exact Option.not_isSome_iff_eq_none.mp dead

theorem subjectDestroyed (bench : Bench w Obj) (policy : Policy) (x : Obj) :
    (construct (fun _ => none : Heap w Obj) x).destroy policy x = some (fun _ => none) := by
  have wires := @subjectAlone _ _ _ bench x
  obtain ⟨last,destroyed,alive,_⟩ := destroyWired policy wires ((wires.alive x).mpr (.inl rfl))
  have empty : last = fun _ => none := by
    funext y
    have dead : ¬ last.alive y = true := by
      intro there
      obtain ⟨other,there⟩ := (alive y).mp there
      exact ((wires.alive y).mp there).elim other (nomatch ·)
    exact Option.not_isSome_iff_eq_none.mp dead
  rw [destroyed,empty]

theorem blockReturns (bench : Bench w Obj) (policy : Policy) (emits : Bool) (placed : Placed Obj N) (rng : Rng) :
    block bench policy emits placed.subject placed.foos placed.leaving
      (construct (fun _ => none) placed.subject) rng =
    some (construct (fun _ => none) placed.subject,rng.discard (if emits then N else 0)) := by
  obtain ⟨out,done,wires⟩ := blockDone policy emits placed (@subjectAlone _ _ _ bench placed.subject) rng
  rw [done,wiredNone wires]

theorem passDone (bench : Bench w Obj) (policy : Policy) (placed : Placed Obj N) (rng : Rng) :
    pass bench policy placed (fun _ => none) rng = some (fun _ => none,rng.discard N) := by
  have silent := emitWired policy (@subjectAlone _ _ _ bench placed.subject) List.nodup_nil (rng.discard N)
  simp only [pass,blockReturns,bind,Option.bind,if_true,silent,subjectDestroyed bench]
  rfl

theorem sampleDone (bench : Bench w Obj) (policy : Policy) (emits : Bool) (placed : Placed Obj N) (rng : Rng) :
    sample bench policy emits placed (fun _ => none) rng =
      some (fun _ => none,rng.discard (if emits then N else 0)) := by
  simp only [sample,blockReturns,bind,Option.bind,subjectDestroyed bench]

omit [DecidableEq Obj] [BinarySearch] in
theorem iterationsDone {ι : Type} {body : ι → Heap w Obj → Rng → Option (Heap w Obj × Rng)}
    {h : Heap w Obj} {calls : Nat} (once : ∀ i rng, body i h rng = some (h,rng.discard calls))
    (rng : Rng) (is : List ι) :
    iterations body h rng is = some (h,rng.discard (is.length * calls)) := by
  induction is generalizing rng with
  | nil => rw [List.length_nil,Nat.zero_mul]; rfl
  | cons i rest ih =>
    simp only [iterations,once,bind,Option.bind]
    rw [ih,discardDiscard,List.length_cons,Nat.succ_mul,Nat.add_comm]

theorem loopsReturn (bench : Bench w Obj) (policy : Policy) (emits : Bool) (N : Nat) (rng : Rng) :
    (∀ placed : List (Placed Obj N), iterations (sample bench policy emits) (fun _ => none) rng placed =
      some (fun _ => none,rng.discard (placed.length * if emits then N else 0))) ∧
    ∀ subject, ∀ placed : List { p : Placed Obj N // p.subject = subject },
      iterations (resample bench policy emits subject) (construct (fun _ => none) subject) rng placed =
        some (construct (fun _ => none) subject,rng.discard (placed.length * if emits then N else 0)) := by
  constructor
  · exact fun placed => iterationsDone (sampleDone bench policy emits) rng placed
  · intro subject placed
    refine iterationsDone (fun p rng => ?_) rng placed
    obtain ⟨p,rfl⟩ := p
    exact blockReturns bench policy emits p rng

theorem passesDone (bench : Bench w Obj) (policy : Policy) (N : BitVec w) (placed : Nat → Placed Obj N.toNat)
    (k : Nat) : passes bench policy N placed k =
      some ⟨fun _ => none,rounds N (fun _ => N.toNat) (fun _ => 0) k⟩ := by
  induction k with
  | zero => rfl
  | succ k ih =>
    simp only [passes,ih,bind,Option.bind,passDone]
    rfl

/-- Under each policy and wherever the objects are put, validation is defined, and it is
what the checksum makes of N calls in every pass and none behind the block. -/
theorem nanoValidates (bench : Bench w Obj) (policy : Policy) (N : BitVec w)
    (placed : Nat → Placed Obj N.toNat) : validation bench policy N placed =
      some (validationAssert N (fun _ => N.toNat) (fun _ => 0)) ∧
    (N.toNat * N.toNat < 2 ^ w → validation bench policy N placed = some false) := by
  have done : validation bench policy N placed =
      some (validationAssert N (fun _ => N.toNat) (fun _ => 0)) := by
    simp only [validation,passesDone,bind,Option.bind]
    rfl
  refine ⟨done,fun fits => ?_⟩
  rw [done,correctAccepted N fits _ _ (fun _ _ => ⟨rfl,rfl⟩)]

end Wiring

def pairPlaced : Placed (BitVec 64) 2 where
  subject := 0x100
  foos := [0x200,0x300]
  size := rfl
  distinct := by decide
  apart := by decide
  leaving := [0x300,0x200]
  leave := List.Perm.swap ..

example : @validation _ _ _ linearSearch (addressBench 0x7) .tsSafe 2 (fun _ => pairPlaced) = some false := by
  decide +kernel

end SignalSlot.BenchmarkNano
