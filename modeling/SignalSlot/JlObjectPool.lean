import SignalSlot.Library.GuardedRun
import SignalSlot.Library.LinkedLists
import Mathlib.Algebra.Order.Ring.Nat
import Mathlib.Data.BitVec
import Mathlib.Data.List.Perm.Subperm

/-! jl::StaticObjectPool. The slots of its buffer that are not allocated form a list that
goes through the slots themselves, so that a slot holds either the link of a FreeNode or
an object. Reading the one where the other was written is undefined. -/
namespace SignalSlot.ObjectPool
open LinkedLists GuardedRun

abbrev Addr := Nat

inductive Cell (β : Type) where
  | free (pNextFree : Option Addr)
  | object (o : β)
  deriving DecidableEq,Repr

abbrev Memory (β : Type) := Addr → Option (Cell β)

/-- `sizeof( FreeNode* )`, the size of a FreeNode and the alignment of both. -/
def pointerSize : Nat := 8

/-- `unsigned char m_pObjectBuffer[eCapacity * eStride]`, a size that an array can have,
with slots that a FreeNode can stand in. -/
structure Buffer where
  base : Addr
  stride : BitVec 32
  capacity : BitVec 32
  sized : 0 < stride.toNat * capacity.toNat
  fits : stride.toNat * capacity.toNat < 2 ^ 32
  linked : pointerSize ≤ stride.toNat
  aligned : pointerSize ∣ base ∧ pointerSize ∣ stride.toNat

namespace Buffer
variable (b : Buffer)

def pLast : Addr := b.base + (b.stride * (b.capacity - 1)).toNat

def slots : List Addr := (List.range b.capacity.toNat).map (fun i => b.base + i * b.stride.toNat)

def isBounded (p : Addr) : Bool := b.base ≤ p ∧ p ≤ b.pLast

def isAligned (p : Addr) : Bool := Int.tmod ((p : Int) - b.base) b.stride.toNat = 0

def isBoundedAndAligned (p : Addr) : Bool := b.isBounded p && b.isAligned p

end Buffer

variable {β : Type}

def link (memory : Memory β) (p : Addr) : Option (Option Addr) := match memory p with
  | some (.free next) => some next
  | _ => none

-- Every round goes on by a byte at least, so `fuel` is the way to the last slot.
def initLoop (stride : Nat) (pLast : Addr) : Nat → Memory β → Addr → Memory β
  | 0,memory,_ => memory
  | fuel + 1,memory,pCurrent =>
      if pCurrent < pLast then
        initLoop stride pLast fuel
          (Function.update memory pCurrent (some (.free (some (pCurrent + stride))))) (pCurrent + stride)
      else memory

def initFreeList (b : Buffer) (memory : Memory β) : Memory β × Option Addr :=
  (Function.update (initLoop b.stride.toNat b.pLast (b.pLast - b.base) memory b.base) b.pLast
    (some (.free none)),some b.base)

structure Pool (β : Type) where
  memory : Memory β
  head : Option Addr
  allocations : BitVec 32

namespace Pool

def construct (b : Buffer) (memory : Memory β) : Pool β :=
  let init := initFreeList b memory
  ⟨init.1,init.2,0⟩

def alloc (pool : Pool β) : Option (Option Addr × Pool β) := match pool.head with
  | none => some (none,pool)
  | some p => do
      let next ← link pool.memory p
      some (some p,{ pool with head := next, allocations := pool.allocations + 1 })

/-- The assertion is there unless the build defines NDEBUG. -/
def free (b : Buffer) (asserts : Bool) (pool : Pool β) (p : Addr) : Option (Pool β) :=
  if asserts && !b.isBoundedAndAligned p then none
  else some ⟨Function.update pool.memory p (some (.free pool.head)),some p,pool.allocations - 1⟩

def put (pool : Pool β) (p : Addr) (o : β) : Pool β :=
  { pool with memory := Function.update pool.memory p (some (.object o)) }

-- A way that is longer than the buffer has slots leads back into itself.
def freeListSize (b : Buffer) (pool : Pool β) : Option (BitVec 32) := do
  let nodes ← walk (link pool.memory) (b.capacity.toNat + 1) pool.head
  some (BitVec.ofNat 32 nodes.length)

def isFreeFrom (memory : Memory β) (p : Addr) : Nat → Option Addr → Option Bool
  | 0,_ => none
  | _ + 1,none => some false
  | fuel + 1,some n =>
      if n = p then some true
      else do
        let next ← link memory n
        isFreeFrom memory p fuel next

def isFree (b : Buffer) (pool : Pool β) (p : Addr) : Option Bool :=
  isFreeFrom pool.memory p (b.capacity.toNat + 1) pool.head

def isFull (b : Buffer) (pool : Pool β) : Bool := pool.allocations == b.capacity

end Pool

/-- What the free list is for: it has the slots that are not allocated. -/
structure Stocked (b : Buffer) (pool : Pool β) (free : List Addr) : Prop where
  chain : Chain (link pool.memory) pool.head free
  slots : ∀ p ∈ free, p ∈ b.slots
  balance : pool.allocations.toNat + free.length = b.capacity.toNat

inductive Use (β : Type) where
  | alloc
  | write (p : Addr) (o : β)
  | free (p : Addr)
  deriving DecidableEq

/-- The pool, and what its users have written to the slots that they hold. -/
structure Described (β : Type) where
  pool : Pool β
  held : Addr → Option (Option β)

section Uses
variable (b : Buffer) (asserts : Bool)

def fresh (memory : Memory β) : Described β := ⟨.construct b memory,fun _ => none⟩

def step (d : Described β) : Use β → Option (Described β)
  | .alloc => do
      let (p,pool) ← d.pool.alloc
      match p with
      | none => some { d with pool := pool }
      | some p => some ⟨pool,Function.update d.held p (some none)⟩
  | .write p o =>
      if p ∈ b.slots then
        some ⟨d.pool.put p o,Function.update d.held p ((d.held p).map (fun _ => some o))⟩
      else none
  | .free p => do
      let pool ← d.pool.free b asserts p
      some ⟨pool,Function.update d.held p none⟩

/-- What the tests of the pools ask of them at every turn, and that the slots are told
apart rightly. -/
structure Faithful (d : Described β) : Prop where
  balance : ∃ n, d.pool.freeListSize b = some n ∧ d.pool.allocations.toNat + n.toNat = b.capacity.toNat
  free : ∀ p, d.pool.isFree b p = some (decide (p ∈ b.slots ∧ (d.held p).isNone = true))
  alloc : ∃ p next, d.pool.alloc = some (p,next) ∧ (p = none ↔ ∀ q ∈ b.slots, (d.held q).isSome = true) ∧
    ∀ q, p = some q → b.isBoundedAndAligned q = true ∧ pointerSize ∣ q ∧ d.held q = none
  apart : ∀ p ∈ b.slots, ∀ q, (d.held q).isSome = true → p ≠ q →
    p + pointerSize ≤ q ∧ p + b.stride.toNat ≤ q ∨ q + b.stride.toNat ≤ p
  contents : ∀ p o, d.held p = some (some o) → d.pool.memory p = some (.object o)

/-- A slot is written or freed by who holds it. -/
def Holds (d : Described β) : Use β → Prop
  | .alloc => True
  | .write p _ | .free p => (d.held p).isSome = true

instance (d : Described β) (use : Use β) : Decidable (Holds d use) := by
  cases use <;> unfold Holds <;> infer_instance

structure Kept (d : Described β) (free : List Addr) : Prop where
  stocked : Stocked b d.pool free
  held : ∀ p, (d.held p).isSome = true ↔ p ∈ b.slots ∧ p ∉ free
  contents : ∀ p o, d.held p = some (some o) → d.pool.memory p = some (.object o)

end Uses

section Slots
variable (b : Buffer)

theorem strided : 0 < b.stride.toNat := Nat.pos_of_mul_pos_right b.sized

theorem stocked : 0 < b.capacity.toNat := Nat.pos_of_mul_pos_left b.sized

theorem pLastSlot : b.pLast = b.base + (b.capacity.toNat - 1) * b.stride.toNat := by
  have room := stocked b
  have one : (b.capacity - 1).toNat = b.capacity.toNat - 1 := by
    have small := b.capacity.isLt
    have unit : (1 : BitVec 32).toNat = 1 := rfl
    rw [BitVec.toNat_sub,unit]
    omega
  have below : b.stride.toNat * (b.capacity.toNat - 1) < 2 ^ 32 :=
    Nat.lt_of_le_of_lt (Nat.mul_le_mul_left _ (Nat.sub_le _ _)) b.fits
  rw [Buffer.pLast,BitVec.toNat_mul,one,Nat.mod_eq_of_lt below,Nat.mul_comm]

theorem slotApart {i j : Nat} (same : b.base + i * b.stride.toNat = b.base + j * b.stride.toNat) : i = j :=
  Nat.eq_of_mul_eq_mul_right (strided b) (Nat.add_left_cancel same)

theorem slotsNodup : b.slots.Nodup :=
  List.Nodup.map (fun _ _ same => slotApart b same) List.nodup_range

theorem slotsLength : b.slots.length = b.capacity.toNat := by simp [Buffer.slots]

theorem memSlots {p : Addr} : p ∈ b.slots ↔ ∃ i < b.capacity.toNat, p = b.base + i * b.stride.toNat := by
  simp only [Buffer.slots,List.mem_map,List.mem_range,eq_comm]

theorem boundedAligned (p : Addr) : b.isBoundedAndAligned p = true ↔ p ∈ b.slots := by
  have room := stocked b
  simp only [Buffer.isBoundedAndAligned,Buffer.isBounded,Buffer.isAligned,Bool.and_eq_true,decide_eq_true_eq,
    memSlots,pLastSlot]
  constructor
  · rintro ⟨⟨lower,upper⟩,aligned⟩
    obtain ⟨d,rfl⟩ := Nat.exists_eq_add_of_le lower
    rw [show ((b.base + d : Nat) : Int) - b.base = (d : Int) by omega,
      Int.tmod_eq_emod_of_nonneg (by omega)] at aligned
    obtain ⟨i,rfl⟩ := Nat.dvd_of_mod_eq_zero (by exact_mod_cast aligned : d % b.stride.toNat = 0)
    rw [Nat.mul_comm] at upper
    have within : i ≤ b.capacity.toNat - 1 :=
      Nat.le_of_mul_le_mul_right (Nat.le_of_add_le_add_left upper) (strided b)
    exact ⟨i,by omega,by rw [Nat.mul_comm]⟩
  · rintro ⟨i,within,rfl⟩
    refine ⟨⟨Nat.le_add_right _ _,Nat.add_le_add_left (Nat.mul_le_mul_right _ (by omega)) _⟩,?_⟩
    rw [show ((b.base + i * b.stride.toNat : Nat) : Int) - b.base = ((i * b.stride.toNat : Nat) : Int) by omega,
      Int.tmod_eq_emod_of_nonneg (by omega)]
    exact_mod_cast Nat.mul_mod_left i b.stride.toNat

theorem slotAligned {p : Addr} (slot : p ∈ b.slots) : pointerSize ∣ p := by
  obtain ⟨i,_,rfl⟩ := (memSlots b).mp slot
  exact Nat.dvd_add b.aligned.1 (Nat.dvd_mul_left_of_dvd b.aligned.2 i)

-- Neither an object nor a link goes beyond its own slot.
theorem slotsApart {p q : Addr} (slot : p ∈ b.slots) (slot' : q ∈ b.slots) (other : p ≠ q) :
    p + pointerSize ≤ q ∧ p + b.stride.toNat ≤ q ∨ q + b.stride.toNat ≤ p := by
  obtain ⟨i,_,rfl⟩ := (memSlots b).mp slot
  obtain ⟨j,_,rfl⟩ := (memSlots b).mp slot'
  have linked := b.linked
  rcases Nat.lt_trichotomy i j with less | rfl | greater
  · have next := Nat.mul_le_mul_right b.stride.toNat (Nat.succ_le_of_lt less)
    rw [Nat.succ_mul] at next
    have beyond : b.base + i * b.stride.toNat + b.stride.toNat ≤ b.base + j * b.stride.toNat := by
      rw [Nat.add_assoc]
      exact Nat.add_le_add_left next b.base
    exact .inl ⟨Nat.le_trans (Nat.add_le_add_left linked _) beyond,beyond⟩
  · exact absurd rfl other
  · have next := Nat.mul_le_mul_right b.stride.toNat (Nat.succ_le_of_lt greater)
    rw [Nat.succ_mul] at next
    refine .inr ?_
    rw [Nat.add_assoc]
    exact Nat.add_le_add_left next b.base

end Slots

section Initialized
variable {b : Buffer} {memory : Memory β}

theorem loopBelow (stride : Nat) (pLast : Addr) (fuel : Nat) {memory : Memory β} {p q : Addr} (below : q < p) :
    initLoop stride pLast fuel memory p q = memory q := by
  induction fuel generalizing memory p with
  | zero => rfl
  | succ fuel ih =>
    rw [initLoop]
    split
    · rw [ih (Nat.lt_add_right stride below),Function.update_of_ne (Nat.ne_of_lt below)]
    · rfl

theorem slotNext (p i stride : Nat) : p + (i + 1) * stride = p + stride + i * stride := by
  rw [Nat.succ_mul,Nat.add_comm (i * stride),Nat.add_assoc]

-- `n` slots are left before the last one.
theorem loopLinks {stride : Nat} (strided : 0 < stride) {pLast : Addr} (n : Nat) {fuel : Nat}
    (enough : n ≤ fuel) (memory : Memory β) {p : Addr} (ends : pLast = p + n * stride) :
    ∀ j < n, link (initLoop stride pLast fuel memory p) (p + j * stride) =
      some (some (p + (j + 1) * stride)) := by
  induction n generalizing fuel memory p with
  | zero => exact fun j none => absurd none (Nat.not_lt_zero j)
  | succ n ih =>
    intro j within
    rw [slotNext] at ends
    cases fuel with
    | zero => exact absurd enough (Nat.not_succ_le_zero n)
    | succ fuel =>
      have below : p < pLast := by
        rw [ends,Nat.add_assoc]
        exact Nat.lt_add_of_pos_right (Nat.lt_add_right _ strided)
      rw [initLoop,if_pos below]
      cases j with
      | zero => simp [link,loopBelow _ _ _ (Nat.lt_add_of_pos_right (n := p) strided)]
      | succ j =>
        rw [slotNext p j,slotNext p (j + 1)]
        exact ih (Nat.le_of_succ_le_succ enough) _ ends j (Nat.lt_of_succ_lt_succ within)

theorem chainOfLinks {stride : Nat} (n : Nat) {p : Addr}
    (links : ∀ j < n, link memory (p + j * stride) = some (some (p + (j + 1) * stride)))
    (ends : link memory (p + n * stride) = some none) :
    Chain (link memory) (some p) ((List.range (n + 1)).map (fun i => p + i * stride)) := by
  induction n generalizing p with
  | zero => exact ⟨by simp,none,by simpa using ends,rfl⟩
  | succ n ih =>
    rw [List.range_succ_eq_map,List.map_cons,List.map_map]
    refine ⟨by simp,some (p + stride),by simpa using links 0 (Nat.succ_pos n),?_⟩
    rw [show (fun i => p + i * stride) ∘ Nat.succ = fun i => p + stride + i * stride from
      funext (fun i => slotNext p i stride)]
    refine ih (fun j within => ?_) (by rw [← slotNext]; exact ends)
    rw [← slotNext,← slotNext]
    exact links (j + 1) (Nat.succ_lt_succ within)

theorem constructStocked (b : Buffer) (memory : Memory β) : Stocked b (.construct b memory) b.slots := by
  obtain ⟨n,room⟩ := Nat.exists_eq_succ_of_ne_zero (stocked b).ne'
  have ends : b.pLast = b.base + n * b.stride.toNat := by rw [pLastSlot,room]; rfl
  refine ⟨?_,fun p mem => mem,by rw [slotsLength]; exact Nat.zero_add _⟩
  rw [Buffer.slots,room]
  refine chainOfLinks n (fun j within => ?_) ?_
  · have before : b.base + j * b.stride.toNat ≠ b.pLast := by
      intro same
      rw [ends] at same
      exact Nat.ne_of_lt within (slotApart b same)
    have enough : n ≤ b.pLast - b.base := by
      rw [ends,Nat.add_sub_cancel_left]
      exact Nat.le_mul_of_pos_right n (strided b)
    have linked := loopLinks (strided b) n enough memory ends j within
    simpa [link,Pool.construct,initFreeList,before] using linked
  · rw [← ends]
    simp [link,Pool.construct,initFreeList]

end Initialized

section Operations
variable {b : Buffer} {pool : Pool β} {free : List Addr} {p : Addr}

theorem linkUpdate {memory : Memory β} {q : Addr} (other : q ≠ p) (cell : Option (Cell β)) :
    link (Function.update memory p cell) q = link memory q := by
  simp [link,other]

theorem chainElsewhere {memory : Memory β} {head : Option Addr} (cell : Option (Cell β)) (away : p ∉ free)
    (chain : Chain (link memory) head free) : Chain (link (Function.update memory p cell)) head free :=
  chainFrame (fun _ mem => linkUpdate (ne_of_mem_of_not_mem mem away) cell) chain

theorem freeShort (stocked : Stocked b pool free) : free.length ≤ b.capacity.toNat :=
  Nat.le_of_add_left_le (Nat.le_of_eq stocked.balance)

theorem freeShorter (stocked : Stocked b pool free) (slot : p ∈ b.slots) (taken : p ∉ free) :
    free.length < b.capacity.toNat := by
  have all : (p::free).Subperm b.slots := by
    refine List.subperm_of_subset (List.nodup_cons.mpr ⟨taken,chainNodup stocked.chain⟩) ?_
    intro q mem
    rcases List.mem_cons.mp mem with rfl | mem
    · exact slot
    · exact stocked.slots q mem
  rw [← slotsLength]
  exact all.length_le

theorem allocFull (stocked : Stocked b pool []) : pool.alloc = some (none,pool) := by
  have nothing : pool.head = none := stocked.chain
  simp [Pool.alloc,nothing]

theorem allocTakes (stocked : Stocked b pool (p::free)) :
    ∃ next, pool.alloc = some (some p,⟨pool.memory,next,pool.allocations + 1⟩) ∧
      Stocked b ⟨pool.memory,next,pool.allocations + 1⟩ free := by
  obtain ⟨here,next,linked,chain⟩ := stocked.chain
  refine ⟨next,by simp [Pool.alloc,here,linked],chain,fun q mem => stocked.slots q (List.mem_cons_of_mem p mem),?_⟩
  have balance := stocked.balance
  rw [List.length_cons] at balance
  have small := b.capacity.isLt
  have unit : (1 : BitVec 32).toNat = 1 := rfl
  rw [BitVec.toNat_add,unit]
  omega

theorem freeGives (stocked : Stocked b pool free) (slot : p ∈ b.slots) (taken : p ∉ free) (asserts : Bool) :
    ∃ next, pool.free b asserts p = some next ∧
      next.memory = Function.update pool.memory p (some (.free pool.head)) ∧ Stocked b next (p::free) := by
  refine ⟨_,by rw [Pool.free,(boundedAligned b p).mpr slot,Bool.not_true,Bool.and_false]; rfl,rfl,?_,?_,?_⟩
  · exact ⟨rfl,pool.head,by simp [link],chainElsewhere _ taken stocked.chain⟩
  · intro q mem
    rcases List.mem_cons.mp mem with rfl | mem
    · exact slot
    · exact stocked.slots q mem
  · have balance := stocked.balance
    have shorter := freeShorter stocked slot taken
    have small := pool.allocations.isLt
    have unit : (1 : BitVec 32).toNat = 1 := rfl
    rw [BitVec.toNat_sub,unit,List.length_cons]
    omega

theorem putStocked (stocked : Stocked b pool free) (taken : p ∉ free) (o : β) :
    Stocked b (pool.put p o) free :=
  ⟨chainElsewhere _ taken stocked.chain,stocked.slots,stocked.balance⟩

theorem isFreeChain {memory : Memory β} {head : Option Addr} (chain : Chain (link memory) head free)
    {fuel : Nat} (enough : free.length < fuel) :
    Pool.isFreeFrom memory p fuel head = some (decide (p ∈ free)) := by
  induction free generalizing head fuel with
  | nil =>
    cases chain
    cases fuel with
    | zero => cases enough
    | succ fuel => simp [Pool.isFreeFrom]
  | cons q rest ih =>
    obtain ⟨rfl,after,linked,chain⟩ := chain
    cases fuel with
    | zero => exact absurd enough (Nat.not_lt_zero _)
    | succ fuel =>
      rw [Pool.isFreeFrom]
      split
      · rename_i same
        simp [same]
      · rename_i other
        simp [linked,ih chain (Nat.lt_of_succ_lt_succ enough),Ne.symm other]

theorem isFreeExact (stocked : Stocked b pool free) (p : Addr) :
    pool.isFree b p = some (decide (p ∈ free)) :=
  isFreeChain stocked.chain (Nat.lt_succ_of_le (freeShort stocked))

theorem freeListSizeExact (stocked : Stocked b pool free) :
    pool.freeListSize b = some (BitVec.ofNat 32 free.length) := by
  have walked := (walkChain (b.capacity.toNat + 1)).mpr ⟨stocked.chain,Nat.lt_succ_of_le (freeShort stocked)⟩
  simp [Pool.freeListSize,walked]

theorem isFullExact (stocked : Stocked b pool free) : pool.isFull b = true ↔ free = [] := by
  have balance := stocked.balance
  rw [Pool.isFull,beq_iff_eq,← BitVec.toNat_inj,← List.length_eq_zero_iff]
  omega

end Operations

section Runs
variable {b : Buffer} {asserts : Bool} {d next : Described β} {free : List Addr}

theorem freshKept (memory : Memory β) : Kept b (fresh b memory) b.slots := by
  refine ⟨constructStocked b memory,fun p => ?_,fun p o => (nomatch ·)⟩
  simp [fresh]

theorem memFree (kept : Kept b d free) (p : Addr) : p ∈ free ↔ p ∈ b.slots ∧ (d.held p).isNone = true := by
  have held := kept.held p
  have inside := kept.stocked.slots p
  rw [← Option.not_isSome,Bool.not_eq_true',← Bool.not_eq_true,held]
  tauto

theorem keptFaithful (kept : Kept b d free) : Faithful b d := by
  have short := freeShort kept.stocked
  have small := b.capacity.isLt
  refine ⟨⟨_,freeListSizeExact kept.stocked,?_⟩,fun p => ?_,?_,fun p slot q there other => ?_,kept.contents⟩
  · rw [BitVec.toNat_ofNat,Nat.mod_eq_of_lt (Nat.lt_of_le_of_lt short small)]
    exact kept.stocked.balance
  · rw [isFreeExact kept.stocked]
    congr 1
    exact decide_eq_decide.mpr (memFree kept p)
  · cases free with
    | nil =>
      refine ⟨none,_,allocFull kept.stocked,?_,fun q => (nomatch ·)⟩
      simp [kept.held]
    | cons p rest =>
      obtain ⟨head,taken,-⟩ := allocTakes kept.stocked
      obtain ⟨slot,unheld⟩ := (memFree kept p).mp List.mem_cons_self
      refine ⟨some p,_,taken,?_,?_⟩
      · simp only [reduceCtorEq,false_iff]
        intro all
        have held := all p slot
        rw [Option.isNone_iff_eq_none.mp unheld] at held
        contradiction
      · intro q same
        cases same
        exact ⟨(boundedAligned b p).mpr slot,slotAligned b slot,Option.isNone_iff_eq_none.mp unheld⟩
  · exact slotsApart b slot ((kept.held q).mp there).1 other

theorem holdsKept (kept : Kept b d free) {use : Use β} (holds : Holds d use)
    (taken : step b asserts d use = some next) : ∃ free, Kept b next free := by
  cases use with
  | alloc =>
    cases free with
    | nil =>
      simp only [step,allocFull kept.stocked,bind,Option.bind,Option.some.injEq] at taken
      subst taken
      exact ⟨[],kept⟩
    | cons p rest =>
      obtain ⟨head,allocated,stocked⟩ := allocTakes kept.stocked
      simp only [step,allocated,bind,Option.bind,Option.some.injEq] at taken
      subst taken
      obtain ⟨fresh,-⟩ := List.nodup_cons.mp (chainNodup kept.stocked.chain)
      refine ⟨rest,stocked,fun q => ?_,fun q o => ?_⟩
      · rcases eq_or_ne q p with rfl | other
        · simp [fresh,kept.stocked.slots q List.mem_cons_self]
        · simp [other,kept.held]
      · rcases eq_or_ne q p with rfl | other
        · simp
        · simpa [other] using kept.contents q o
  | write p o =>
    obtain ⟨slot,away⟩ := (kept.held p).mp holds
    simp only [step,if_pos slot,Option.some.injEq] at taken
    subst taken
    refine ⟨free,putStocked kept.stocked away o,fun q => ?_,fun q o' => ?_⟩
    · rcases eq_or_ne q p with rfl | other
      · simp [kept.held]
      · simp [other,kept.held]
    · rcases eq_or_ne q p with rfl | other
      · simp [Pool.put]
      · simpa [other,Pool.put] using kept.contents q o'
  | free p =>
    obtain ⟨slot,away⟩ := (kept.held p).mp holds
    obtain ⟨pool,freed,memory,stocked⟩ := freeGives kept.stocked slot away asserts
    simp only [step,freed,bind,Option.bind,Option.some.injEq] at taken
    subst taken
    refine ⟨p::free,stocked,fun q => ?_,fun q o => ?_⟩
    · rcases eq_or_ne q p with rfl | other
      · simp
      · simp [other,kept.held]
    · rcases eq_or_ne q p with rfl | other
      · simp
      · simpa [other,memory] using kept.contents q o

/-- A free list that a faithful pool has is a chain of slots that nobody holds. -/
theorem faithfulChain (faithful : Faithful b d) : ∃ l, Chain (link d.pool.memory) d.pool.head l ∧
    d.pool.allocations.toNat + l.length = b.capacity.toNat ∧
    ∀ p, p ∈ l ↔ p ∈ b.slots ∧ (d.held p).isNone = true := by
  obtain ⟨n,size,balance⟩ := faithful.balance
  simp only [Pool.freeListSize,bind,Option.bind_eq_some_iff,Option.some.injEq] at size
  obtain ⟨l,walked,rfl⟩ := size
  obtain ⟨chain,short⟩ := (walkChain _).mp walked
  refine ⟨l,chain,?_,fun p => ?_⟩
  · have small := b.capacity.isLt
    rw [BitVec.toNat_ofNat,Nat.mod_eq_of_lt (by omega)] at balance
    exact balance
  · have found := isFreeChain (p := p) chain short
    rw [← Pool.isFree,faithful.free p] at found
    exact (decide_eq_decide.mp (Option.some.inj found)).symm

theorem faithfulHolds (kept : Kept b d free) {use : Use β} (taken : step b asserts d use = some next)
    (faithful : Faithful b next) : Holds d use := by
  obtain ⟨l,chain,balance,mem⟩ := faithfulChain faithful
  cases use with
  | alloc => trivial
  | write p o =>
    simp only [step,Option.ite_none_right_eq_some,Option.some.injEq] at taken
    obtain ⟨slot,rfl⟩ := taken
    by_contra unheld
    have unheld : d.held p = none := by simpa [Holds] using unheld
    -- Its link was written over, yet the slot has still to be on the list.
    obtain ⟨_,_,linked,-⟩ := chainLinked chain ((mem p).mpr ⟨slot,by simp [unheld]⟩)
    simp [link,Pool.put] at linked
  | free p =>
    simp only [step,Pool.free,bind,Option.bind_eq_some_iff,Option.ite_none_left_eq_some,
      Option.some.injEq] at taken
    obtain ⟨pool,⟨-,rfl⟩,rfl⟩ := taken
    by_contra unheld
    have unheld : d.held p = none := by simpa [Holds] using unheld
    -- The list has the free slots of before, but the count has one more.
    have inside : l ⊆ free := by
      intro q here
      obtain ⟨slot,none'⟩ := (mem q).mp here
      refine (memFree kept q).mpr ⟨slot,?_⟩
      rcases eq_or_ne q p with rfl | other
      · simp [unheld]
      · simpa [other] using none'
    have short := (List.subperm_of_subset (chainNodup chain) inside).length_le
    have old := kept.stocked.balance
    have small := b.capacity.isLt
    have unit : (1 : BitVec 32).toNat = 1 := rfl
    rw [BitVec.toNat_sub,unit] at balance
    cases l with
    | nil => cases chain
    | cons q rest =>
      rw [List.length_cons] at short balance
      omega

theorem poolFaithfulExactly (b : Buffer) (asserts : Bool) (memory : Memory β) (uses : List (Use β)) :
    EveryState (step b asserts) (Faithful b) (fresh b memory) uses ↔
      EveryStep (step b asserts) Holds (fresh b memory) uses := by
  refine @everyStateExact _ _ _ (fun d => ∃ free, Kept b d free) _ _ ?_ ?_ ?_ _ ⟨_,freshKept memory⟩ uses
  · rintro d ⟨free,kept⟩
    exact keptFaithful kept
  · rintro d use next ⟨free,kept⟩ holds taken
    exact holdsKept kept holds taken
  · rintro d use next ⟨free,kept⟩ taken faithful
    exact faithfulHolds kept taken faithful

end Runs

end SignalSlot.ObjectPool
