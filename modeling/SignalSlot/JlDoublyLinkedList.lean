import SignalSlot.JlObjectPool
import Mathlib.Algebra.BigOperators.Group.Finset.Basic

/-! jl::DoublyLinkedList. The lists of all signals take their nodes from one pool, and so
do the lists of all observers. An iterator is the address of its node; a loop over a list
that is longer than the pool has nodes does not end. -/
namespace SignalSlot.DoublyLinkedList
open LinkedLists GuardedRun ObjectPool

variable {β K : Type}

abbrev NodePool (β : Type) := Pool (Node Addr β)

/-- A buffer for nodes, which are an object and two links. -/
structure NodeBuffer extends Buffer where
  nodeSize : Nat
  links : 2 * pointerSize < nodeSize
  room : nodeSize ≤ stride.toNat

instance : Coe NodeBuffer Buffer := ⟨NodeBuffer.toBuffer⟩

/-- `m_pHead`, `m_pTail` and `m_nObjectCount`. -/
structure Anchor where
  head : Option Addr
  tail : Option Addr
  count : BitVec 32
  deriving DecidableEq,Repr

def Anchor.construct : Anchor := ⟨none,none,0⟩

def read (pool : NodePool β) (p : Addr) : Option (Node Addr β) := match pool.memory p with
  | some (.object n) => some n
  | _ => none

def jlAssert (asserts holds : Bool) : Option Unit := if asserts && !holds then none else some ()

def modify (pool : NodePool β) (at' : Option Addr) (f : Node Addr β → Node Addr β) : Option (NodePool β) :=
  match at' with
  | none => some pool
  | some q => do
      let m ← read pool q
      some (pool.put q (f m))

def setNext (pool : NodePool β) (at' next : Option Addr) : Option (NodePool β) :=
  modify pool at' (fun m => { m with next := next })

def setPrev (pool : NodePool β) (at' prev : Option Addr) : Option (NodePool β) :=
  modify pool at' (fun m => { m with prev := prev })

section Operations
variable (b : NodeBuffer) (asserts : Bool)

-- The object is placed in the node by `Add`, right after this.
def createNode (pool : NodePool β) (object : β) : Option (Option Addr × NodePool β) := do
  jlAssert asserts (b.nodeSize ≤ b.stride.toNat)
  let (p,pool) ← pool.alloc
  match p with
  | none => some (none,pool)
  | some p => some (some p,pool.put p ⟨object,none,none⟩)

def add (pool : NodePool β) (list : Anchor) (object : β) : Option (Option Addr × NodePool β × Anchor) := do
  let (p,pool) ← createNode b asserts pool object
  jlAssert asserts p.isSome
  match p with
  | none => some (none,pool,list)
  | some p => match list.tail with
    | some tail => do
        let pool ← setNext pool (some tail) (some p)
        let pool ← setPrev pool (some p) (some tail)
        some (some p,pool,⟨list.head,some p,list.count + 1⟩)
    | none => do
        jlAssert asserts list.head.isNone
        some (some p,pool,⟨some p,some p,list.count + 1⟩)

def removeNode (pool : NodePool β) (list : Anchor) (p : Addr) : Option (Bool × NodePool β × Anchor) := do
  jlAssert asserts (list.count != 0)
  if list.count = 0 then some (false,pool,list)
  else do
    let n ← read pool p
    let head := if list.head = some p then n.next else list.head
    let tail := if list.tail = some p then n.prev else list.tail
    let pool ← setNext pool n.prev n.next
    -- The links of the node are read again, in case that it led to itself.
    let n ← read pool p
    let pool ← setPrev pool n.next n.prev
    let pool ← pool.free b asserts p
    some (true,pool,⟨head,tail,list.count - 1⟩)

/-- `Remove` by an iterator, which goes on to the next node if that succeeds. -/
def removeAt (pool : NodePool β) (list : Anchor) (p : Addr) :
    Option (Bool × Option Addr × NodePool β × Anchor) := do
  let n ← read pool p
  let (removed,pool,list) ← removeNode b asserts pool list p
  some (removed,if removed then n.next else some p,pool,list)

def removeFrom [DecidableEq β] (pool : NodePool β) (list : Anchor) (object : β) :
    Nat → Option Addr → Option (Bool × NodePool β × Anchor)
  | 0,_ => none
  | _ + 1,none => some (false,pool,list)
  | fuel + 1,some p => do
      let n ← read pool p
      if n.object = object then removeNode b asserts pool list p
      else removeFrom pool list object fuel n.next

def remove [DecidableEq β] (pool : NodePool β) (list : Anchor) (object : β) :
    Option (Bool × NodePool β × Anchor) :=
  removeFrom b asserts pool list object (b.capacity.toNat + 1) list.head

def removeAllFrom [DecidableEq β] (object : β) :
    Nat → NodePool β → Anchor → Option Addr → Option (NodePool β × Anchor)
  | 0,_,_,_ => none
  | _ + 1,pool,list,none => some (pool,list)
  | fuel + 1,pool,list,some p => do
      let n ← read pool p
      if n.object = object then do
        let (_,pool,list) ← removeNode b asserts pool list p
        removeAllFrom object fuel pool list n.next
      else removeAllFrom object fuel pool list n.next

/-- The number of nodes that it removed, and what is left. The object that it is given is
not one that stands in a node of the list. -/
def removeAll [DecidableEq β] (pool : NodePool β) (list : Anchor) (object : β) :
    Option (BitVec 32 × NodePool β × Anchor) := do
  let (pool,left) ← removeAllFrom b asserts object (b.capacity.toNat + 1) pool list list.head
  jlAssert asserts (left.count ≤ list.count)
  some (list.count - left.count,pool,left)

def clearFrom : Nat → NodePool β → Option Addr → Option (NodePool β)
  | 0,_,_ => none
  | _ + 1,pool,none => some pool
  | fuel + 1,pool,some p => do
      let n ← read pool p
      let pool ← pool.free b asserts p
      clearFrom fuel pool n.next

def clear (pool : NodePool β) (list : Anchor) : Option (NodePool β × Anchor) := do
  let pool ← clearFrom b asserts (b.capacity.toNat + 1) pool list.head
  some (pool,⟨none,none,0⟩)

/-- The loops of Signal and SignalObserver that take out what they look for: the objects
that are to go, what is asserted of each, and which of the others are counted. The counts
of the ones that went and of those others come back. -/
def sweepFrom (cut check counts : β → Bool) :
    Nat → NodePool β → Anchor → Option Addr → Option (Nat × Nat × NodePool β × Anchor)
  | 0,_,_,_ => none
  | _ + 1,pool,list,none => some (0,0,pool,list)
  | fuel + 1,pool,list,some p => do
      let n ← read pool p
      if cut n.object then do
        jlAssert asserts (check n.object)
        let (_,next,pool,list) ← removeAt b asserts pool list p
        let (gone,others,pool,list) ← sweepFrom cut check counts fuel pool list next
        some (gone + 1,others,pool,list)
      else do
        let (gone,others,pool,list) ← sweepFrom cut check counts fuel pool list n.next
        some (gone,others + (if counts n.object then 1 else 0),pool,list)

def sweep (cut check counts : β → Bool) (pool : NodePool β) (list : Anchor) :
    Option (Nat × Nat × NodePool β × Anchor) :=
  sweepFrom b asserts cut check counts (b.capacity.toNat + 1) pool list list.head

def objectsFrom (pool : NodePool β) : Nat → Option Addr → Option (List β)
  | 0,_ => none
  | _ + 1,none => some []
  | fuel + 1,some p => do
      let n ← read pool p
      let rest ← objectsFrom pool fuel n.next
      some (n.object::rest)

/-- What an iterator comes by from `begin` on. -/
def objects (pool : NodePool β) (list : Anchor) : Option (List β) :=
  objectsFrom pool (b.capacity.toNat + 1) list.head

def indexFrom (pool : NodePool β) : Nat → Option Addr → Option (Addr × Node Addr β)
  | _,none => none
  | 0,some p => do
      let n ← read pool p
      some (p,n)
  | i + 1,some p => do
      let n ← read pool p
      indexFrom pool i n.next

def index (pool : NodePool β) (list : Anchor) (n : BitVec 32) : Option β := do
  jlAssert asserts (n < list.count)
  let (_,node) ← indexFrom pool n.toNat list.head
  some node.object

end Operations

/-- What stands in the lists, and the rest of the pool's slots is free. -/
structure Arranged (b : NodeBuffer) (pool : NodePool β) (free : List Addr) (lists : K → Entries Addr β) :
    Prop where
  stocked : Stocked b pool free
  distinct : ∀ k, (lists k).addresses.Nodup
  threads : ∀ k, Threads (read pool) (lists k)
  apart : ∀ k k' p, p ∈ (lists k).addresses → p ∈ (lists k').addresses → k = k'
  used : ∀ p, (∃ k, p ∈ (lists k).addresses) ↔ p ∈ b.slots ∧ p ∉ free

def anchored (entries : Entries Addr β) : Anchor :=
  ⟨entries.first,entries.last,BitVec.ofNat 32 entries.length⟩

@[simp] theorem anchoredHead (entries : Entries Addr β) : (anchored entries).head = entries.first := rfl

@[simp] theorem anchoredNil : anchored ([] : Entries Addr β) = .construct := rfl

section Cells
variable {b : NodeBuffer} {pool pool' : NodePool β} {free free' : List Addr} {p q : Addr}

theorem readPut (n : Node Addr β) (p q : Addr) :
    read (pool.put p n) q = if q = p then some n else read pool q := by
  rcases eq_or_ne q p with rfl | other
  · simp [read,Pool.put]
  · simp [read,Pool.put,other]

theorem readFreed {head : Option Addr} (memory : pool'.memory = Function.update pool.memory p (some (.free head)))
    (other : q ≠ p) : read pool' q = read pool q := by
  simp [read,memory,other]

-- A link is on the list or it is an object.
theorem readTaken (stocked : Stocked b pool free) {n : Node Addr β} (there : read pool p = some n) :
    p ∉ free := by
  intro mem
  obtain ⟨_,_,linked,-⟩ := chainLinked stocked.chain mem
  unfold read at there
  unfold link at linked
  split at linked
  · rename_i _ found
    simp [found] at there
  · contradiction

theorem modifyDone (stocked : Stocked b pool free) (at' : Option Addr) (f : Node Addr β → Node Addr β)
    (there : ∀ q, at' = some q → (read pool q).isSome = true) :
    ∃ pool', modify pool at' f = some pool' ∧ Stocked b pool' free ∧
      ∀ q, read pool' q = if at' = some q then (read pool q).map f else read pool q := by
  cases at' with
  | none => exact ⟨pool,rfl,stocked,fun q => by simp⟩
  | some p =>
    obtain ⟨n,found⟩ := Option.isSome_iff_exists.mp (there p rfl)
    refine ⟨pool.put p (f n),by simp [modify,found],putStocked stocked (readTaken stocked found) _,fun q => ?_⟩
    rw [readPut]
    rcases eq_or_ne q p with rfl | other
    · simp [found]
    · simp [other,other.symm]

/-- The neighbours of a node are linked to one another. -/
theorem unlinkDone {before after : Entries Addr β} {e : Addr × β} (stocked : Stocked b pool free)
    (distinct : (Entries.addresses (before ++ e::after)).Nodup)
    (threads : Threads (read pool) (before ++ e::after)) :
    ∃ pool₁ pool₂, setNext pool before.last after.first = some pool₁ ∧ read pool₁ e.1 = read pool e.1 ∧
      setPrev pool₁ after.first before.last = some pool₂ ∧ Stocked b pool₂ free ∧
      (∀ cells, (∀ q, q ≠ e.1 → cells q = read pool₂ q) → Threads cells (before ++ after)) ∧
      ∀ q, q ∉ Entries.addresses (before ++ e::after) → read pool₂ q = read pool q := by
  obtain ⟨notBefore,notAfter⟩ := Entries.notInRest distinct
  have lastIs : ∀ {q}, before.last = some q → q ∈ before.addresses ∧ q ≠ e.1 := fun same =>
    ⟨Entries.lastMem same,ne_of_mem_of_not_mem (Entries.lastMem same) notBefore⟩
  have firstIs : ∀ {q}, after.first = some q → q ∈ after.addresses ∧ q ≠ e.1 := fun same =>
    ⟨Entries.firstMem same,ne_of_mem_of_not_mem (Entries.firstMem same) notAfter⟩
  have apart : ∀ {q}, before.last = some q → after.first ≠ some q := by
    intro q isLast isFirst
    rw [Entries.addressesAppend,List.nodup_append] at distinct
    exact distinct.2.2 q (lastIs isLast).1 q (List.mem_cons_of_mem _ (firstIs isFirst).1) rfl
  obtain ⟨pool₁,next,stocked₁,read₁⟩ := modifyDone stocked before.last
    (fun m => { m with next := after.first })
    (fun q same => threadsSome threads (by simp [(lastIs same).1]))
  obtain ⟨pool₂,prev,stocked₂,read₂⟩ := modifyDone stocked₁ after.first
    (fun m => { m with prev := before.last }) (fun q same => by
      rw [read₁,if_neg (fun isLast => apart isLast same)]
      exact threadsSome threads (by simp [(firstIs same).1]))
  refine ⟨pool₁,pool₂,next,by rw [read₁,if_neg (fun same => (lastIs same).2 rfl)],prev,stocked₂,?_,?_⟩
  · intro cells same
    refine threadsRemove distinct threads (fun q isLast => ?_) (fun q isFirst => ?_)
      (fun q mem notLast notFirst => ?_)
    · rw [same q (lastIs isLast).2,read₂,if_neg (apart isLast),read₁,if_pos isLast]
    · rw [same q (firstIs isFirst).2,read₂,if_pos isFirst,read₁,if_neg (fun isLast => apart isLast isFirst)]
    · have other : q ≠ e.1 := by
        rintro rfl
        rw [Entries.addressesAppend,List.mem_append] at mem
        exact mem.elim notBefore notAfter
      rw [same q other,read₂,if_neg notFirst,read₁,if_neg notLast]
  · intro q away
    simp only [Entries.addressesAppend,Entries.addressesCons,List.mem_append,List.mem_cons,not_or] at away
    rw [read₂,if_neg (fun isFirst => away.2.2 (firstIs isFirst).1),read₁,
      if_neg (fun isLast => away.1 (lastIs isLast).1)]

end Cells

section Arrangements
variable {b : NodeBuffer} {pool pool' : NodePool β} {free free' : List Addr}
variable {lists : K → Entries Addr β} {k : K} {before after : Entries Addr β} {e : Addr × β}

theorem countBound (arranged : Arranged b pool free lists) (k : K) : (lists k).length ≤ b.capacity.toNat := by
  have inside : (lists k).addresses ⊆ b.slots := fun p mem => ((arranged.used p).mp ⟨k,mem⟩).1
  have short := (List.subperm_of_subset (arranged.distinct k) inside).length_le
  rw [slotsLength,Entries.addresses,List.length_map] at short
  exact short

theorem elsewhere (arranged : Arranged b pool free lists) {j : K} (other : j ≠ k) {p : Addr}
    (mem : p ∈ (lists j).addresses) : p ∈ b.slots ∧ ¬ (p ∈ (lists k).addresses ∨ p ∈ free) := by
  obtain ⟨slot,away⟩ := (arranged.used p).mp ⟨j,mem⟩
  refine ⟨slot,?_⟩
  rintro (here | here)
  · exact other (arranged.apart j k p mem here)
  · exact away here

theorem ownSlots (arranged : Arranged b pool free lists) {p : Addr}
    (own : p ∈ (lists k).addresses ∨ p ∈ free) : p ∈ b.slots := by
  rcases own with own | own
  · exact ((arranged.used p).mp ⟨k,own⟩).1
  · exact arranged.stocked.slots p own

/-- One list and the free slots may share their slots anew. -/
theorem rearranged [DecidableEq K] (arranged : Arranged b pool free lists) (l : Entries Addr β)
    (stocked : Stocked b pool' free') (distinct : l.addresses.Nodup) (threads : Threads (read pool') l)
    (frame : ∀ p, ¬ (p ∈ (lists k).addresses ∨ p ∈ free) → read pool' p = read pool p)
    (shared : ∀ p, p ∈ l.addresses ∨ p ∈ free' ↔ p ∈ (lists k).addresses ∨ p ∈ free)
    (disjoint : ∀ p ∈ l.addresses, p ∉ free') :
    Arranged b pool' free' (Function.update lists k l) := by
  refine ⟨stocked,fun j => ?_,fun j => ?_,fun i j p here there => ?_,fun p => ⟨?_,?_⟩⟩
  · rcases eq_or_ne j k with rfl | other
    · rwa [Function.update_self]
    · rw [Function.update_of_ne other]
      exact arranged.distinct j
  · rcases eq_or_ne j k with rfl | other
    · rwa [Function.update_self]
    · rw [Function.update_of_ne other]
      exact threadsFrame (fun p mem => frame p (elsewhere arranged other mem).2) (arranged.threads j)
  · rcases eq_or_ne i k with rfl | i' <;> rcases eq_or_ne j i with rfl | j'
    · rfl
    · rw [Function.update_self] at here
      rw [Function.update_of_ne j'] at there
      exact absurd ((shared p).mp (.inl here)) (elsewhere arranged j' there).2
    · rfl
    · rw [Function.update_of_ne i'] at here
      rcases eq_or_ne j k with rfl | j'
      · rw [Function.update_self] at there
        exact absurd ((shared p).mp (.inl there)) (elsewhere arranged i' here).2
      · rw [Function.update_of_ne j'] at there
        exact arranged.apart i j p here there
  · rintro ⟨j,mem⟩
    rcases eq_or_ne j k with rfl | other
    · rw [Function.update_self] at mem
      exact ⟨ownSlots arranged ((shared p).mp (.inl mem)),disjoint p mem⟩
    · rw [Function.update_of_ne other] at mem
      obtain ⟨slot,away⟩ := elsewhere (k := k) arranged other mem
      exact ⟨slot,fun freed => away ((shared p).mp (.inr freed))⟩
  · rintro ⟨slot,kept⟩
    by_cases own : p ∈ (lists k).addresses ∨ p ∈ free
    · refine ⟨k,?_⟩
      rw [Function.update_self]
      exact ((shared p).mpr own).resolve_right kept
    · obtain ⟨j,mem⟩ := (arranged.used p).mpr ⟨slot,fun mem => own (.inr mem)⟩
      refine ⟨j,?_⟩
      rcases eq_or_ne j k with rfl | other
      · exact absurd (.inl mem) own
      · rwa [Function.update_of_ne other]

-- The assertion of `Alloc` holds of a buffer for nodes.
theorem roomAsserted (b : NodeBuffer) (asserts : Bool) :
    jlAssert asserts (b.nodeSize ≤ b.stride.toNat) = some () := by
  simp [jlAssert,b.room]

/-- The cells after `Add`: the new node and the one that was the last. -/
theorem addCells (asserts : Bool) {p : Addr} {entries : Entries Addr β} (stocked : Stocked b pool (p::free))
    (threads : Threads (read pool) entries) (new : p ∉ entries.addresses) (object : β) :
    ∃ pool', add b asserts pool (anchored entries) object =
        some (some p,pool',anchored (entries ++ [(p,object)])) ∧ Stocked b pool' free ∧
      read pool' p = some ⟨object,entries.last,none⟩ ∧ ∀ q, q ≠ p → read pool' q =
        if entries.last = some q then (read pool q).map (fun n => { n with next := some p }) else read pool q := by
  obtain ⟨fresh,-⟩ := List.nodup_cons.mp (chainNodup stocked.chain)
  obtain ⟨head,allocated,stocked⟩ := allocTakes stocked
  have created := putStocked stocked fresh (Node.mk object none none)
  have cells : ∀ q, q ≠ p → read (Pool.put ⟨pool.memory,head,pool.allocations + 1⟩ p ⟨object,none,none⟩) q =
      read pool q := by
    intro q other
    rw [readPut,if_neg other]
    rfl
  rcases List.eq_nil_or_concat entries with rfl | ⟨before,e,rfl⟩
  · refine ⟨_,?_,created,by rw [readPut,if_pos rfl]; rfl,fun q other => ?_⟩
    · simp only [add,createNode,roomAsserted,allocated]
      simp [jlAssert,anchored]
    · rw [cells q other]
      rfl
  · rw [List.concat_eq_append] at *
    have other : e.1 ≠ p := fun same => new (by simp [same])
    obtain ⟨pool₁,next,stocked₁,read₁⟩ := modifyDone created (some e.1) (fun m => { m with next := some p })
      (fun q same => by
        cases same
        rw [cells e.1 other]
        exact threadsSome threads (by simp))
    obtain ⟨pool₂,prev,stocked₂,read₂⟩ := modifyDone stocked₁ (some p) (fun m => { m with prev := some e.1 })
      (fun q same => by
        cases same
        rw [read₁,if_neg (fun same => other (Option.some.inj same)),readPut,if_pos rfl]
        rfl)
    refine ⟨pool₂,?_,stocked₂,?_,fun q away => ?_⟩
    · have more : Entries.first (before ++ [e] ++ [(p,object)]) = Entries.first (before ++ [e]) := by
        cases before <;> rfl
      have tail : (anchored (before ++ [e])).tail = some e.1 := Entries.lastSnoc before e
      have grown : anchored (before ++ [e] ++ [(p,object)]) =
          ⟨(anchored (before ++ [e])).head,some p,(anchored (before ++ [e])).count + 1⟩ := by
        simp only [anchored,more,Entries.lastSnoc,@List.length_append _ (before ++ [e]),BitVec.ofNat_add]
        rfl
      have there : ∀ asserts, jlAssert asserts (some p).isSome = some () := by
        intro asserts
        cases asserts <;> rfl
      simp only [grown,add,createNode,roomAsserted,allocated,tail,setNext,next,setPrev,prev,there,bind,Option.bind]
    · rw [read₂,if_pos rfl,read₁,if_neg (fun same => other (Option.some.inj same)),readPut,if_pos rfl,
        Entries.lastSnoc]
      rfl
    · rw [read₂,if_neg (fun same => away (Option.some.inj same).symm),read₁,Entries.lastSnoc,cells q away]

theorem addDone [DecidableEq K] (asserts : Bool) {p : Addr} (arranged : Arranged b pool (p::free) lists)
    (object : β) : ∃ pool', add b asserts pool (anchored (lists k)) object =
        some (some p,pool',anchored (lists k ++ [(p,object)])) ∧
      Arranged b pool' free (Function.update lists k (lists k ++ [(p,object)])) := by
  have new : p ∉ (lists k).addresses := fun mem =>
    ((arranged.used p).mp ⟨k,mem⟩).2 List.mem_cons_self
  obtain ⟨fresh,-⟩ := List.nodup_cons.mp (chainNodup arranged.stocked.chain)
  have other : ∀ {q}, q ∈ (lists k).addresses → q ≠ p := fun mem => ne_of_mem_of_not_mem mem new
  obtain ⟨pool',added,stocked,cell,cells⟩ := addCells asserts arranged.stocked (arranged.threads k) new object
  refine ⟨pool',added,rearranged arranged _ stocked ?_ ?_ ?_ ?_ ?_⟩
  · rw [Entries.addressesAppend,List.nodup_append]
    refine ⟨arranged.distinct k,List.nodup_singleton p,fun q mem r here => ?_⟩
    rw [List.mem_singleton.mp here]
    exact other mem
  · refine threadsSnoc (arranged.distinct k) (arranged.threads k) (fun q isLast => ?_) cell
      (fun q mem notLast => ?_)
    · rw [cells q (other (Entries.lastMem isLast)),if_pos isLast]
    · rw [cells q (other mem),if_neg notLast]
  · intro q away
    rw [cells q (fun same => away (.inr (by simp [same]))),
      if_neg (fun isLast => away (.inl (Entries.lastMem isLast)))]
  · intro q
    simp only [Entries.addressesAppend,Entries.addressesCons,Entries.addressesNil,List.mem_append,
      List.mem_cons,List.not_mem_nil,or_false,or_assoc]
  · intro q mem
    rw [Entries.addressesAppend,List.mem_append] at mem
    rcases mem with mem | mem
    · exact fun freed => ((arranged.used q).mp ⟨k,mem⟩).2 (List.mem_cons_of_mem p freed)
    · rw [List.mem_singleton.mp mem]
      exact fresh

theorem addFull {asserts : Bool} (arranged : Arranged b pool [] lists) (object : β) (list : Anchor) :
    add b asserts pool list object = if asserts then none else some (none,pool,list) := by
  simp only [add,createNode,roomAsserted,allocFull arranged.stocked]
  cases asserts <;> simp [jlAssert]

theorem countSome (arranged : Arranged b pool free lists) (here : lists k = before ++ e::after) :
    (anchored (before ++ e::after)).count ≠ 0 ∧
      (anchored (before ++ e::after)).count - 1 = (anchored (before ++ after)).count := by
  have bound := countBound arranged k
  have small := b.capacity.isLt
  have length : (before ++ e::after).length = (before ++ after).length + 1 := by simp; omega
  rw [here,length] at bound
  simp only [anchored,length]
  constructor
  · intro zero
    have same := congrArg BitVec.toNat zero
    rw [BitVec.toNat_ofNat,Nat.mod_eq_of_lt (by omega)] at same
    cases same
  · rw [BitVec.ofNat_add]
    exact BitVec.add_sub_cancel _ _

theorem removeNodeDone [DecidableEq K] (asserts : Bool) (arranged : Arranged b pool free lists)
    (here : lists k = before ++ e::after) : ∃ pool', removeNode b asserts pool (anchored (lists k)) e.1 =
        some (true,pool',anchored (before ++ after)) ∧
      Arranged b pool' (e.1::free) (Function.update lists k (before ++ after)) := by
  have distinct := arranged.distinct k
  have threads := arranged.threads k
  rw [here] at distinct threads
  have found := threadsAt threads
  obtain ⟨slot,taken⟩ := (arranged.used e.1).mp ⟨k,by rw [here]; simp [Entries.addresses]⟩
  obtain ⟨pool₁,pool₂,next,again,prev,stocked,unlinked,frame⟩ := unlinkDone arranged.stocked distinct threads
  obtain ⟨pool₃,freed,memory,stocked⟩ := freeGives stocked slot taken asserts
  obtain ⟨some',less⟩ := countSome arranged here
  refine ⟨pool₃,?_,?_⟩
  · simp only [here,removeNode,jlAssert,bne_iff_ne.mpr some',Bool.not_true,Bool.and_false,Bool.false_eq_true,
      if_false,bind,Option.bind,if_neg some',found,next,again,prev,freed,less]
    rw [show (anchored (before ++ e::after)).head = Entries.first (before ++ e::after) from rfl,
      show (anchored (before ++ e::after)).tail = Entries.last (before ++ e::after) from rfl,
      Entries.firstRemove distinct,Entries.lastRemove distinct]
    rfl
  · refine rearranged arranged (before ++ after) stocked ?_ ?_ ?_ ?_ ?_
    · exact List.Nodup.sublist (((List.sublist_cons_self e after).append_left before).map _) distinct
    · exact unlinked (read pool₃) (fun q other => readFreed memory other)
    · intro q away
      rw [here] at away
      rw [readFreed memory (fun same => away (.inl (by simp [same]))),frame q (fun mem => away (.inl mem))]
    · intro q
      simp only [here,Entries.addressesAppend,Entries.addressesCons,List.mem_append,List.mem_cons]
      tauto
    · intro q mem
      obtain ⟨notBefore,notAfter⟩ := Entries.notInRest distinct
      rw [Entries.addressesAppend,List.mem_append] at mem
      have other : q ≠ e.1 := by
        rintro rfl
        exact mem.elim notBefore notAfter
      have held := ((arranged.used q).mp ⟨k,by
        rw [here,Entries.addressesAppend,List.mem_append]
        exact mem.imp_right (List.mem_cons_of_mem _)⟩).2
      simp [other,held]

theorem clearFromDone (asserts : Bool) {l : List Addr} {head : Option Addr} {fuel : Nat}
    (chain : Chain (fun p => (read pool p).map Node.next) head l) (distinct : l.Nodup)
    (taken : ∀ p ∈ l, p ∈ b.slots ∧ p ∉ free) (stocked : Stocked b pool free) (enough : l.length < fuel) :
    ∃ pool', clearFrom b asserts fuel pool head = some pool' ∧ Stocked b pool' (l.reverse ++ free) ∧
      ∀ q, q ∉ l → read pool' q = read pool q := by
  induction l generalizing pool free head fuel with
  | nil =>
    cases chain
    cases fuel with
    | zero => cases enough
    | succ fuel => exact ⟨pool,rfl,stocked,fun q _ => rfl⟩
  | cons p rest ih =>
    obtain ⟨rfl,after,link,chain⟩ := chain
    obtain ⟨n,found,rfl⟩ := Option.map_eq_some_iff.mp link
    obtain ⟨fresh,distinct⟩ := List.nodup_cons.mp distinct
    obtain ⟨slot,away⟩ := taken p List.mem_cons_self
    cases fuel with
    | zero => exact absurd enough (Nat.not_lt_zero _)
    | succ fuel =>
      obtain ⟨pool₁,freed,memory,stocked⟩ := freeGives stocked slot away asserts
      have same : ∀ q, q ≠ p → read pool₁ q = read pool q := fun q => readFreed memory
      obtain ⟨pool',cleared,stocked,frame⟩ := @ih pool₁ (p::free) n.next fuel
        (chainFrame (fun q mem => by rw [same q (ne_of_mem_of_not_mem mem fresh)]) chain) distinct
        (fun q mem => ⟨(taken q (List.mem_cons_of_mem p mem)).1,
          List.not_mem_cons_of_ne_of_not_mem (ne_of_mem_of_not_mem mem fresh)
            (taken q (List.mem_cons_of_mem p mem)).2⟩) stocked (Nat.lt_of_succ_lt_succ enough)
      refine ⟨pool',by simp [clearFrom,found,freed,cleared],by simpa using stocked,fun q away => ?_⟩
      rw [List.mem_cons,not_or] at away
      rw [frame q away.2,same q away.1]

theorem clearDone [DecidableEq K] (asserts : Bool) (arranged : Arranged b pool free lists) (k : K) :
    ∃ pool' free', clear b asserts pool (anchored (lists k)) = some (pool',.construct) ∧
      Arranged b pool' free' (Function.update lists k []) ∧
      ∀ p ∈ (lists k).addresses, read pool' p = none := by
  have enough : (lists k).addresses.length < b.capacity.toNat + 1 := by
    rw [Entries.addresses,List.length_map]
    exact Nat.lt_succ_of_le (countBound arranged k)
  have taken : ∀ p ∈ (lists k).addresses, p ∈ b.slots ∧ p ∉ free := fun p mem => (arranged.used p).mp ⟨k,mem⟩
  obtain ⟨pool',cleared,stocked,frame⟩ := clearFromDone asserts (threadsChain [] (arranged.threads k))
    (arranged.distinct k) taken arranged.stocked enough
  refine ⟨pool',_,?_,rearranged arranged [] stocked List.nodup_nil threadsNil ?_ ?_ ?_,fun p mem => ?_⟩
  · simp [clear,cleared,Anchor.construct]
  · exact fun q away => frame q (fun mem => away (.inl mem))
  · intro q
    simp
  · intro q mem
    cases mem
  · by_contra there
    obtain ⟨n,found⟩ := Option.ne_none_iff_exists'.mp there
    exact readTaken stocked found (by simp [mem])

theorem sweepFromDone [DecidableEq K] {asserts : Bool} {cut check counts : β → Bool} {fuel : Nat}
    (before : Entries Addr β) (arranged : Arranged b pool free lists) (here : lists k = before ++ after)
    (enough : after.length < fuel)
    (checked : ∀ e ∈ after, cut e.2 = true → jlAssert asserts (check e.2) = some ()) :
    ∃ pool' free', sweepFrom b asserts cut check counts fuel pool (anchored (before ++ after)) after.first =
        some (after.countP (fun e => cut e.2),after.countP (fun e => !cut e.2 && counts e.2),pool',
          anchored (before ++ after.filter (fun e => !cut e.2))) ∧
      Arranged b pool' free' (Function.update lists k (before ++ after.filter (fun e => !cut e.2))) := by
  induction after generalizing before pool free lists fuel with
  | nil =>
    cases fuel with
    | zero => cases enough
    | succ fuel =>
      refine ⟨pool,free,rfl,?_⟩
      rw [List.filter_nil,← here,Function.update_eq_self]
      exact arranged
  | cons e rest ih =>
    cases fuel with
    | zero => exact absurd enough (Nat.not_lt_zero _)
    | succ fuel =>
      have enough := Nat.lt_of_succ_lt_succ enough
      have found : read pool e.1 = some ⟨e.2,before.last,Entries.first rest⟩ :=
        arranged.threads k before e rest here
      have checkedRest := fun f mem => checked f (List.mem_cons_of_mem e mem)
      cases isCut : cut e.2 with
      | true =>
        obtain ⟨pool₁,removed,arranged₁⟩ := removeNodeDone asserts arranged here
        rw [here] at removed
        obtain ⟨pool',free',swept,arranged'⟩ := ih _ arranged₁ (Function.update_self ..) enough checkedRest
        refine ⟨pool',free',?_,?_⟩
        · simp [sweepFrom,found,isCut,checked e List.mem_cons_self isCut,removeAt,removed,swept]
        · simpa [isCut] using arranged'
      | false =>
        have here : lists k = (before ++ [e]) ++ rest := by rw [here,List.append_cons]
        obtain ⟨pool',free',swept,arranged'⟩ := ih _ arranged here enough checkedRest
        rw [← List.append_cons,← List.append_cons] at swept
        rw [← List.append_cons] at arranged'
        refine ⟨pool',free',?_,?_⟩
        · simp only [Entries.firstCons,sweepFrom,found,isCut,bind,Option.bind,swept]
          simp [isCut,List.countP_cons]
        · simpa [isCut] using arranged'

theorem enoughFuel (arranged : Arranged b pool free lists) (k : K) :
    (lists k).length < b.capacity.toNat + 1 := Nat.lt_succ_of_le (countBound arranged k)

theorem sweepDone [DecidableEq K] {asserts : Bool} {cut check counts : β → Bool}
    (arranged : Arranged b pool free lists) (k : K)
    (checked : ∀ e ∈ lists k, cut e.2 = true → jlAssert asserts (check e.2) = some ()) :
    ∃ pool' free', sweep b asserts cut check counts pool (anchored (lists k)) =
        some ((lists k).countP (fun e => cut e.2),(lists k).countP (fun e => !cut e.2 && counts e.2),pool',
          anchored ((lists k).filter (fun e => !cut e.2))) ∧
      Arranged b pool' free' (Function.update lists k ((lists k).filter (fun e => !cut e.2))) :=
  sweepFromDone [] arranged rfl (enoughFuel arranged k) checked

theorem removeFromDone [DecidableEq K] [DecidableEq β] (before : Entries Addr β) (asserts : Bool) (object : β)
    {fuel : Nat} (arranged : Arranged b pool free lists) (here : lists k = before ++ after)
    (enough : after.length < fuel) :
    ∃ pool' free', removeFrom b asserts pool (anchored (before ++ after)) object fuel after.first =
        some (decide (object ∈ after.objects),pool',
          anchored (before ++ after.eraseP (fun e => e.2 = object))) ∧
      Arranged b pool' free' (Function.update lists k (before ++ after.eraseP (fun e => e.2 = object))) := by
  induction after generalizing before fuel with
  | nil =>
    cases fuel with
    | zero => cases enough
    | succ fuel =>
      refine ⟨pool,free,rfl,?_⟩
      rw [List.eraseP_nil,← here,Function.update_eq_self]
      exact arranged
  | cons e rest ih =>
    cases fuel with
    | zero => exact absurd enough (Nat.not_lt_zero _)
    | succ fuel =>
      have found : read pool e.1 = some ⟨e.2,before.last,Entries.first rest⟩ :=
        arranged.threads k before e rest here
      rw [Entries.firstCons,removeFrom]
      rcases eq_or_ne e.2 object with same | other
      · obtain ⟨pool',removed,arranged'⟩ := removeNodeDone asserts arranged here
        rw [here] at removed
        refine ⟨pool',e.1::free,?_,?_⟩
        · simp [found,same,removed]
        · simpa [same] using arranged'
      · have here : lists k = (before ++ [e]) ++ rest := by rw [here,List.append_cons]
        obtain ⟨pool',free',removed,arranged'⟩ := ih _ here (Nat.lt_of_succ_lt_succ enough)
        rw [← List.append_cons,← List.append_cons] at removed
        rw [← List.append_cons] at arranged'
        refine ⟨pool',free',?_,?_⟩
        · simp [found,other,other.symm,removed]
        · simpa [other] using arranged'

theorem removeAllFromDone [DecidableEq K] [DecidableEq β] (before : Entries Addr β) (asserts : Bool) (object : β)
    {fuel : Nat} (arranged : Arranged b pool free lists) (here : lists k = before ++ after)
    (enough : after.length < fuel) :
    ∃ pool' free', removeAllFrom b asserts object fuel pool (anchored (before ++ after)) after.first =
        some (pool',anchored (before ++ after.filter (fun e => e.2 ≠ object))) ∧
      Arranged b pool' free' (Function.update lists k (before ++ after.filter (fun e => e.2 ≠ object))) := by
  induction after generalizing before pool free lists fuel with
  | nil =>
    cases fuel with
    | zero => cases enough
    | succ fuel =>
      refine ⟨pool,free,rfl,?_⟩
      rw [List.filter_nil,← here,Function.update_eq_self]
      exact arranged
  | cons e rest ih =>
    cases fuel with
    | zero => exact absurd enough (Nat.not_lt_zero _)
    | succ fuel =>
      have enough := Nat.lt_of_succ_lt_succ enough
      have found : read pool e.1 = some ⟨e.2,before.last,Entries.first rest⟩ :=
        arranged.threads k before e rest here
      rw [Entries.firstCons,removeAllFrom]
      rcases eq_or_ne e.2 object with same | other
      · obtain ⟨pool₁,removed,arranged₁⟩ := removeNodeDone asserts arranged here
        rw [here] at removed
        obtain ⟨pool',free',removed',arranged'⟩ := ih _ arranged₁ (Function.update_self ..) enough
        refine ⟨pool',free',?_,?_⟩
        · simpa [found,same,removed] using removed'
        · simpa [same] using arranged'
      · have here : lists k = (before ++ [e]) ++ rest := by rw [here,List.append_cons]
        obtain ⟨pool',free',removed,arranged'⟩ := ih _ arranged here enough
        rw [← List.append_cons,← List.append_cons] at removed
        rw [← List.append_cons] at arranged'
        refine ⟨pool',free',?_,?_⟩
        · simpa [found,other] using removed
        · simpa [other] using arranged'

theorem objectsFromDone (before : Entries Addr β) {fuel : Nat} (threads : Threads (read pool) (before ++ after))
    (enough : after.length < fuel) : objectsFrom pool fuel after.first = some after.objects := by
  induction after generalizing before fuel with
  | nil =>
    cases fuel with
    | zero => cases enough
    | succ fuel => rfl
  | cons e rest ih =>
    cases fuel with
    | zero => exact absurd enough (Nat.not_lt_zero _)
    | succ fuel =>
      have rest' := @ih (before ++ [e]) fuel (by rw [← List.append_cons]; exact threads)
        (Nat.lt_of_succ_lt_succ enough)
      simp [objectsFrom,threadsAt threads,rest']

theorem objectsDone (arranged : Arranged b pool free lists) (k : K) :
    objects b pool (anchored (lists k)) = some (lists k).objects :=
  objectsFromDone [] (arranged.threads k) (enoughFuel arranged k)

theorem indexFromDone (before : Entries Addr β) (threads : Threads (read pool) (before ++ after)) {n : Nat}
    (within : n < after.length) :
    ∃ left f right, after = left ++ f::right ∧ left.length = n ∧
      indexFrom pool n after.first = some (f.1,⟨f.2,Entries.last (before ++ left),Entries.first right⟩) := by
  induction after generalizing before n with
  | nil => exact absurd within (Nat.not_lt_zero n)
  | cons e rest ih =>
    cases n with
    | zero =>
      refine ⟨[],e,rest,rfl,rfl,?_⟩
      simp [indexFrom,threadsAt threads]
    | succ n =>
      obtain ⟨left,f,right,rfl,length,found⟩ := @ih (before ++ [e])
        (by rw [← List.append_cons]; exact threads) n (Nat.lt_of_succ_lt_succ within)
      refine ⟨e::left,f,right,rfl,by simp [length],?_⟩
      rw [← List.append_cons] at found
      simp [indexFrom,threadsAt threads,found]

theorem indexFromNone (before : Entries Addr β) (threads : Threads (read pool) (before ++ after)) {n : Nat}
    (beyond : after.length ≤ n) :
    indexFrom pool n after.first = none := by
  induction after generalizing before n with
  | nil => cases n <;> rfl
  | cons e rest ih =>
    cases n with
    | zero => exact absurd beyond (Nat.not_succ_le_zero _)
    | succ n =>
      have found := @ih (before ++ [e]) (by rw [← List.append_cons]; exact threads) n
        (Nat.le_of_succ_le_succ beyond)
      simp [indexFrom,threadsAt threads,found]

/-- The nodes of all lists are the slots that are not free. -/
theorem arrangedAllocations (arranged : Arranged b pool free lists) (keys : Finset K)
    (all : ∀ k, k ∉ keys → lists k = []) : ∑ k ∈ keys, (lists k).length = pool.allocations.toNat := by
  have nodes : keys.biUnion (fun k => (lists k).addresses.toFinset) = b.slots.toFinset \ free.toFinset := by
    ext p
    simp only [Finset.mem_biUnion,List.mem_toFinset,Finset.mem_sdiff,← arranged.used]
    constructor
    · rintro ⟨k,-,mem⟩
      exact ⟨k,mem⟩
    · rintro ⟨k,mem⟩
      refine ⟨k,Classical.not_not.mp (fun out => ?_),mem⟩
      rw [all k out] at mem
      cases mem
  have cards := congrArg Finset.card nodes
  have disjoint : (keys : Set K).PairwiseDisjoint (fun k => (lists k).addresses.toFinset) := by
    intro i _ j _ other
    refine Finset.disjoint_left.mpr (fun p here there => ?_)
    exact other (arranged.apart i j p (List.mem_toFinset.mp here) (List.mem_toFinset.mp there))
  rw [Finset.card_biUnion disjoint,Finset.card_sdiff_of_subset (fun p mem => List.mem_toFinset.mpr
      (arranged.stocked.slots p (List.mem_toFinset.mp mem))),
    List.toFinset_card_of_nodup (slotsNodup b),List.toFinset_card_of_nodup (chainNodup arranged.stocked.chain),
    slotsLength] at cards
  have lengths : ∀ k, (lists k).length = (lists k).addresses.toFinset.card := by
    intro k
    rw [List.toFinset_card_of_nodup (arranged.distinct k),Entries.addresses,List.length_map]
  have balance := arranged.stocked.balance
  rw [Finset.sum_congr rfl (fun k _ => lengths k),cards]
  omega

end Arrangements

inductive Use (K β : Type) where
  | add (k : K) (o : β)
  | remove (k : K) (o : β)
  | removeAll (k : K) (o : β)
  | removeAt (k : K) (n : Nat)
  | clear (k : K)
  deriving DecidableEq

/-- The entries of a list that a use leaves in it. -/
def Use.keeps [DecidableEq K] [DecidableEq β] (k : K) (entries : Entries Addr β) : Use K β → Entries Addr β
  | .add _ _ => entries
  | .remove j o => if j = k then entries.eraseP (fun e => e.2 = o) else entries
  | .removeAll j o => if j = k then entries.filter (fun e => e.2 ≠ o) else entries
  | .removeAt j n => if j = k then entries.eraseIdx n else entries
  | .clear j => if j = k then [] else entries

/-- The lists that share a pool, and what they are to hold. -/
structure Described (K β : Type) where
  pool : NodePool β
  anchors : K → Anchor
  table : K → List β

section Uses
variable [DecidableEq K] [DecidableEq β] (b : NodeBuffer) (asserts : Bool)

def fresh (memory : Memory (Node Addr β)) : Described K β :=
  ⟨.construct b memory,fun _ => .construct,fun _ => []⟩

def step (d : Described K β) : Use K β → Option (Described K β)
  | .add k o => do
      let (_,pool,list) ← add b asserts d.pool (d.anchors k) o
      some ⟨pool,Function.update d.anchors k list,
        if d.pool.isFull b then d.table else Function.update d.table k (d.table k ++ [o])⟩
  | .remove k o => do
      let (_,pool,list) ← remove b asserts d.pool (d.anchors k) o
      some ⟨pool,Function.update d.anchors k list,Function.update d.table k ((d.table k).erase o)⟩
  | .removeAll k o => do
      let (_,pool,list) ← removeAll b asserts d.pool (d.anchors k) o
      some ⟨pool,Function.update d.anchors k list,
        Function.update d.table k ((d.table k).filter (fun x => x ≠ o))⟩
  | .removeAt k n => do
      let (p,_) ← indexFrom d.pool n (d.anchors k).head
      let (_,_,pool,list) ← removeAt b asserts d.pool (d.anchors k) p
      some ⟨pool,Function.update d.anchors k list,Function.update d.table k ((d.table k).eraseIdx n)⟩
  | .clear k => do
      let (pool,list) ← clear b asserts d.pool (d.anchors k)
      some ⟨pool,Function.update d.anchors k list,Function.update d.table k []⟩

-- `Add` to a full pool fails its assertion, and an iterator must stand on a node.
def Possible (d : Described K β) : Use K β → Prop
  | .add _ _ => asserts = false ∨ d.pool.isFull b = false
  | .removeAt k n => n < (d.table k).length
  | _ => True

/-- Every list is what it is to be, whatever is done to the others, and the pool has
handed out one node for each object. -/
structure Faithful (d : Described K β) : Prop where
  objects : ∀ k, objects b d.pool (d.anchors k) = some (d.table k)
  count : ∀ k, (d.anchors k).count.toNat = (d.table k).length
  index : ∀ k n o, (d.table k)[n]? = some o → index asserts d.pool (d.anchors k) (BitVec.ofNat 32 n) = some o
  removes : ∀ k o, (remove b asserts d.pool (d.anchors k) o).map Prod.fst = some (decide (o ∈ d.table k))
  removesAll : ∀ k o, (removeAll b asserts d.pool (d.anchors k) o).map Prod.fst =
    some (BitVec.ofNat 32 ((d.table k).count o))
  allocations : ∀ keys : Finset K, (∀ k, k ∉ keys → d.table k = []) →
    ∑ k ∈ keys, (d.table k).length = d.pool.allocations.toNat
  defined : ∀ use, Possible b asserts d use → (step b asserts d use).isSome = true

structure Kept (d : Described K β) (free : List Addr) (lists : K → Entries Addr β) : Prop where
  arranged : Arranged b d.pool free lists
  anchors : ∀ k, d.anchors k = anchored (lists k)
  table : ∀ k, d.table k = (lists k).objects

end Uses

section Runs
variable [DecidableEq K] [DecidableEq β] {b : NodeBuffer} {asserts : Bool}
variable {d next : Described K β} {free : List Addr} {lists : K → Entries Addr β}

omit [DecidableEq K] [DecidableEq β] in
theorem freshKept (memory : Memory (Node Addr β)) :
    Kept b (fresh b memory : Described K β) b.slots (fun _ => []) := by
  refine ⟨⟨constructStocked b memory,fun _ => List.nodup_nil,fun _ => threadsNil,fun _ _ _ => (nomatch ·),?_⟩,
    fun _ => rfl,fun _ => rfl⟩
  intro p
  simp

omit [DecidableEq β] in
theorem keptUpdate (kept : Kept b d free lists) {k : K} {pool : NodePool β} {free' : List Addr}
    {l : Entries Addr β} (arranged : Arranged b pool free' (Function.update lists k l)) :
    Kept b ⟨pool,Function.update d.anchors k (anchored l),Function.update d.table k l.objects⟩ free'
      (Function.update lists k l) := by
  refine ⟨arranged,fun j => ?_,fun j => ?_⟩
  · rcases eq_or_ne j k with rfl | other
    · simp
    · simp [other,kept.anchors]
  · rcases eq_or_ne j k with rfl | other
    · simp
    · simp [other,kept.table]

omit [DecidableEq K] [DecidableEq β] in
theorem keptFull (kept : Kept b d free lists) : d.pool.isFull b = true ↔ free = [] :=
  isFullExact kept.arranged.stocked

theorem removeDone (asserts : Bool) (kept : Kept b d free lists) (k : K) (o : β) :
    ∃ pool free', remove b asserts d.pool (d.anchors k) o =
        some (decide (o ∈ d.table k),pool,anchored ((lists k).eraseP (fun e => e.2 = o))) ∧
      Entries.objects ((lists k).eraseP (fun e => e.2 = o)) = (d.table k).erase o ∧
      Arranged b pool free' (Function.update lists k ((lists k).eraseP (fun e => e.2 = o))) := by
  obtain ⟨pool,free',removed,arranged⟩ := removeFromDone [] asserts o kept.arranged rfl
    (enoughFuel kept.arranged k)
  refine ⟨pool,free',?_,?_,arranged⟩
  · rw [kept.anchors,kept.table]
    exact removed
  · rw [kept.table]
    exact Entries.objectsErase o (lists k)

theorem removeAllDone (asserts : Bool) (kept : Kept b d free lists) (k : K) (o : β) :
    ∃ pool free', removeAll b asserts d.pool (d.anchors k) o = some (BitVec.ofNat 32 ((d.table k).count o),
        pool,anchored ((lists k).filter (fun e => e.2 ≠ o))) ∧
      Entries.objects ((lists k).filter (fun e => e.2 ≠ o)) = (d.table k).filter (fun x => x ≠ o) ∧
      Arranged b pool free' (Function.update lists k ((lists k).filter (fun e => e.2 ≠ o))) := by
  obtain ⟨pool,free',removed,arranged⟩ := removeAllFromDone [] asserts o kept.arranged rfl
    (enoughFuel kept.arranged k)
  refine ⟨pool,free',?_,?_,arranged⟩
  · have short := countBound kept.arranged k
    have small := b.capacity.isLt
    have length : (lists k).length = (d.table k).length := by rw [kept.table,Entries.objects,List.length_map]
    have left : ((lists k).filter (fun e => e.2 ≠ o)).length + (d.table k).count o = (d.table k).length := by
      have objects := congrArg List.length (Entries.objectsFilter (fun x => x ≠ o) (lists k))
      rw [Entries.objects,List.length_map,← kept.table] at objects
      have split := List.length_eq_length_filter_add (l := d.table k) (fun x => x == o)
      rw [← List.count_eq_length_filter,show (fun x => !x == o) = fun x => decide (x ≠ o) from
        funext (fun x => by rw [beq_eq_decide,decide_not])] at split
      rw [objects,split,Nat.add_comm]
    have less : (anchored ((lists k).filter (fun e => e.2 ≠ o))).count ≤ (anchored (lists k)).count := by
      rw [BitVec.le_def,anchored,anchored,BitVec.toNat_ofNat,BitVec.toNat_ofNat,Nat.mod_eq_of_lt (by omega),
        Nat.mod_eq_of_lt (by omega)]
      omega
    simp only [removeAll,kept.anchors,anchoredHead,List.nil_append] at removed ⊢
    have differ : (anchored (lists k)).count - (anchored ((lists k).filter (fun e => e.2 ≠ o))).count =
        BitVec.ofNat 32 ((d.table k).count o) := by
      rw [anchored,anchored,BitVec.ofNat_sub_ofNat_of_le _ _ (by omega) (by omega)]
      congr 1
      omega
    simp only [removed,bind,Option.bind,jlAssert,less,decide_true,Bool.not_true,Bool.and_false,
      Bool.false_eq_true,if_false,differ]
  · rw [kept.table]
    exact Entries.objectsFilter (fun x => x ≠ o) (lists k)

/-- A list changes as its use says, and what it gains is a node that was free. -/
structure Used (use : Use K β) (free : List Addr) (lists lists' : K → Entries Addr β) : Prop where
  changed : ∀ k, ∃ new, lists' k = use.keeps k (lists k) ++ new ∧ ∀ p ∈ Entries.addresses new, p ∈ free

theorem usedUpdate {use : Use K β} {k : K} {l : Entries Addr β} (here : l = use.keeps k (lists k))
    (others : ∀ j, j ≠ k → use.keeps j (lists j) = lists j) : Used use free lists (Function.update lists k l) := by
  refine ⟨fun j => ⟨[],?_,fun p => (nomatch ·)⟩⟩
  rcases eq_or_ne j k with rfl | other
  · rw [Function.update_self,here,List.append_nil]
  · rw [Function.update_of_ne other,others j other,List.append_nil]

theorem useDone (kept : Kept b d free lists) {use : Use K β} (possible : Possible b asserts d use) :
    ∃ next, step b asserts d use = some next ∧
      ∃ free' lists', Kept b next free' lists' ∧ Used use free lists lists' := by
  cases use with
  | add k o =>
    cases free with
    | nil =>
      have full := (keptFull kept).mpr rfl
      obtain rfl : asserts = false := possible.resolve_right (by simp [full])
      refine ⟨d,?_,[],lists,kept,⟨fun k => ⟨[],by simp [Use.keeps],fun p => (nomatch ·)⟩⟩⟩
      simp [step,addFull kept.arranged,full]
    | cons p rest =>
      have room : d.pool.isFull b = false := by
        rw [← Bool.not_eq_true,keptFull kept]
        exact List.cons_ne_nil p rest
      obtain ⟨pool,added,arranged⟩ := addDone asserts kept.arranged (k := k) o
      refine ⟨_,?_,rest,_,keptUpdate kept arranged,⟨fun j => ?_⟩⟩
      · simp [step,kept.anchors,kept.table,added,room]
      · rcases eq_or_ne j k with rfl | other
        · exact ⟨[(p,o)],by simp [Use.keeps],by simp⟩
        · exact ⟨[],by simp [Use.keeps,other],fun q => (nomatch ·)⟩
  | remove k o =>
    obtain ⟨pool,free',removed,objects,arranged⟩ := removeDone asserts kept k o
    refine ⟨_,?_,free',_,keptUpdate kept arranged,
      usedUpdate (by rw [Use.keeps,if_pos rfl]) (fun j other => if_neg other.symm)⟩
    simp only [step,removed,objects,bind,Option.bind]
  | removeAll k o =>
    obtain ⟨pool,free',removed,objects,arranged⟩ := removeAllDone asserts kept k o
    refine ⟨_,?_,free',_,keptUpdate kept arranged,
      usedUpdate (by rw [Use.keeps,if_pos rfl]) (fun j other => if_neg other.symm)⟩
    simp only [step,removed,objects,bind,Option.bind]
  | removeAt k n =>
    have within : n < (lists k).length := by simpa [Possible,kept.table,Entries.objects] using possible
    obtain ⟨left,f,right,split,length,found⟩ := indexFromDone [] (kept.arranged.threads k) within
    obtain ⟨pool,removed,arranged⟩ := removeNodeDone asserts kept.arranged split
    have here := threadsAt (split ▸ kept.arranged.threads k)
    have erased : (lists k).eraseIdx n = left ++ right := by
      rw [split,← length,List.eraseIdx_append_of_length_le (Nat.le_refl _),Nat.sub_self,List.eraseIdx_zero,
        List.tail_cons]
    refine ⟨_,?_,_,_,keptUpdate kept arranged,
      usedUpdate (by rw [Use.keeps,if_pos rfl,erased]) (fun j other => if_neg other.symm)⟩
    have objects : (d.table k).eraseIdx n = Entries.objects (left ++ right) := by
      rw [← erased,kept.table,Entries.objects,Entries.objects,List.eraseIdx_map]
    simp only [step,kept.anchors,anchoredHead,found,removeAt,here,removed,objects,bind,Option.bind]
  | clear k =>
    obtain ⟨pool,free',cleared,arranged,-⟩ := clearDone asserts kept.arranged k
    refine ⟨_,?_,free',_,keptUpdate kept arranged,
      usedUpdate (by rw [Use.keeps,if_pos rfl]) (fun j other => if_neg other.symm)⟩
    simp [step,kept.anchors,cleared]

theorem keptStep (kept : Kept b d free lists) {use : Use K β} (taken : step b asserts d use = some next) :
    ∃ free' lists', Kept b next free' lists' ∧ Used use free lists lists' := by
  by_cases possible : Possible b asserts d use
  · obtain ⟨next',taken',kept'⟩ := useDone kept possible
    cases Option.some.inj (taken.symm.trans taken')
    exact kept'
  · cases use with
    | add k o =>
      obtain ⟨strict,full⟩ := not_or.mp possible
      obtain rfl := (keptFull kept).mp (Bool.eq_true_of_not_eq_false full)
      simp [step,addFull kept.arranged,strict] at taken
    | removeAt k n =>
      have beyond : (lists k).length ≤ n := by simpa [Possible,kept.table,Entries.objects] using possible
      simp [step,kept.anchors,indexFromNone [] (kept.arranged.threads k) beyond] at taken
    | _ => exact absurd trivial possible

omit [DecidableEq K] [DecidableEq β] in
theorem keptLength (kept : Kept b d free lists) (k : K) :
    (d.anchors k).count.toNat = (d.table k).length := by
  have short := countBound kept.arranged k
  rw [kept.anchors,kept.table,anchored,BitVec.toNat_ofNat,
    Nat.mod_eq_of_lt (Nat.lt_of_le_of_lt short b.capacity.isLt),Entries.objects,List.length_map]

omit [DecidableEq K] [DecidableEq β] in
theorem keptAllocations (kept : Kept b d free lists) (keys : Finset K)
    (all : ∀ k, k ∉ keys → d.table k = []) :
    ∑ k ∈ keys, (d.table k).length = d.pool.allocations.toNat := by
  have lengths : ∀ k, (d.table k).length = (lists k).length := by
    intro k
    rw [kept.table,Entries.objects,List.length_map]
  rw [Finset.sum_congr rfl (fun k _ => lengths k)]
  refine arrangedAllocations kept.arranged keys (fun k out => ?_)
  have empty := all k out
  rwa [kept.table,Entries.objects,List.map_eq_nil_iff] at empty

theorem keptFaithful (kept : Kept b d free lists) : Faithful b asserts d := by
  refine ⟨fun k => ?_,keptLength kept,fun k n o found => ?_,fun k o => ?_,fun k o => ?_,keptAllocations kept,
    fun use possible => ?_⟩
  · rw [kept.anchors,kept.table]
    exact objectsDone kept.arranged k
  · have within : n < (d.table k).length := (List.getElem?_eq_some_iff.mp found).1
    have count := keptLength kept k
    have small := (d.anchors k).count.isLt
    have exact' : (BitVec.ofNat 32 n).toNat = n := by rw [BitVec.toNat_ofNat,Nat.mod_eq_of_lt (by omega)]
    have inside : BitVec.ofNat 32 n < (d.anchors k).count := by
      rw [BitVec.lt_def,exact',count]
      exact within
    rw [kept.table,Entries.objects,List.length_map] at within
    obtain ⟨left,f,right,split,length,reached⟩ := indexFromDone [] (kept.arranged.threads k) within
    have here : f.2 = o := by
      rw [kept.table,split,Entries.objectsAppend,Entries.objectsCons,← length] at found
      simpa [Entries.objects] using found
    rw [index,exact']
    simp only [jlAssert,inside,decide_true,Bool.not_true,Bool.and_false,Bool.false_eq_true,if_false]
    rw [kept.anchors,anchoredHead,reached,here]
    rfl
  · obtain ⟨pool,free',removed,-⟩ := removeDone asserts kept k o
    rw [removed]
    rfl
  · obtain ⟨pool,free',removed,-⟩ := removeAllDone asserts kept k o
    rw [removed]
    rfl
  · obtain ⟨next,taken,-⟩ := useDone kept possible
    rw [taken]
    rfl

theorem listsFaithful (b : NodeBuffer) (asserts : Bool) (memory : Memory (Node Addr β)) (uses : List (Use K β)) :
    EveryState (step b asserts) (Faithful b asserts) (fresh b memory) uses := by
  refine everyStateImp ?_ (@everyStateOfInvariant _ _ _ (fun d => ∃ free lists, Kept b d free lists) ?_ _
    ⟨_,_,freshKept memory⟩ uses)
  · rintro d ⟨free,lists,kept⟩
    exact keptFaithful kept
  · rintro d use next ⟨free,lists,kept⟩ taken
    obtain ⟨free',lists',kept',-⟩ := keptStep kept taken
    exact ⟨free',lists',kept'⟩

end Runs

end SignalSlot.DoublyLinkedList
