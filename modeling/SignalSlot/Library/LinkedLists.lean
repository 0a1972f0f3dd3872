import Mathlib.Data.List.Nodup

/-! Lists threaded through a memory. A chain has one link in each node; a thread has a
payload and two links, which lead to the neighbours. A memory is a partial function of
the addresses, so what an operation does to a list is known from the cells it changes. -/
namespace SignalSlot.LinkedLists

variable {α β : Type*}

def Chain (next : α → Option (Option α)) : Option α → List α → Prop
  | head,[] => head = none
  | head,p::rest => head = some p ∧ ∃ after, next p = some after ∧ Chain next after rest

/-- The nodes on the way from `head`, if the way ends before the fuel does. -/
def walk (next : α → Option (Option α)) : Nat → Option α → Option (List α)
  | 0,_ => none
  | _ + 1,none => some []
  | fuel + 1,some p => do
      let after ← next p
      let rest ← walk next fuel after
      some (p::rest)

section Chains
variable {next next' : α → Option (Option α)} {head : Option α} {l l' : List α}

theorem walkChain (fuel : Nat) : walk next fuel head = some l ↔ Chain next head l ∧ l.length < fuel := by
  induction fuel generalizing head l with
  | zero => simp [walk]
  | succ fuel ih =>
    cases head with
    | none => cases l <;> simp [walk,Chain]
    | some p =>
      cases l with
      | nil => simp [walk,Chain,bind,Option.bind_eq_some_iff]
      | cons q rest =>
        simp only [walk,Chain,bind,Option.bind_eq_some_iff,Option.some.injEq,List.cons.injEq,
          List.length_cons,Nat.add_lt_add_iff_right]
        constructor
        · rintro ⟨after,link,l,found,rfl,rfl⟩
          obtain ⟨chain,short⟩ := ih.mp found
          exact ⟨⟨rfl,after,link,chain⟩,short⟩
        · rintro ⟨⟨rfl,after,link,chain⟩,short⟩
          exact ⟨after,link,rest,ih.mpr ⟨chain,short⟩,rfl,rfl⟩

theorem chainFrame (same : ∀ p ∈ l, next' p = next p) (chain : Chain next head l) : Chain next' head l := by
  induction l generalizing head with
  | nil => exact chain
  | cons p rest ih =>
    obtain ⟨here,after,link,chain⟩ := chain
    refine ⟨here,after,?_,ih (fun q mem => same q (List.mem_cons_of_mem p mem)) chain⟩
    rw [same p List.mem_cons_self,link]

theorem chainUnique (chain : Chain next head l) (chain' : Chain next head l') : l = l' := by
  induction l generalizing head l' with
  | nil =>
    cases chain
    cases l' with
    | nil => rfl
    | cons q rest => cases chain'.1
  | cons p rest ih =>
    obtain ⟨rfl,after,link,chain⟩ := chain
    cases l' with
    | nil => cases chain'
    | cons q rest' =>
      obtain ⟨here,after',link',chain'⟩ := chain'
      cases here
      cases Option.some.inj (link.symm.trans link')
      rw [ih chain chain']

theorem chainLinked (chain : Chain next head l) {p : α} (mem : p ∈ l) :
    ∃ after suffix, next p = some after ∧ Chain next after suffix ∧ suffix.length < l.length := by
  induction l generalizing head with
  | nil => cases mem
  | cons q rest ih =>
    obtain ⟨here,after,link,chain⟩ := chain
    rcases List.mem_cons.mp mem with rfl | mem
    · exact ⟨after,rest,link,chain,Nat.lt_succ_self _⟩
    · obtain ⟨after,suffix,link,chain,shorter⟩ := ih chain mem
      exact ⟨after,suffix,link,chain,Nat.lt_succ_of_lt shorter⟩

-- A node that came twice would have the same rest of the chain both times.
theorem chainNodup (chain : Chain next head l) : l.Nodup := by
  induction l generalizing head with
  | nil => exact List.nodup_nil
  | cons p rest ih =>
    obtain ⟨here,after,link,chain⟩ := chain
    refine List.nodup_cons.mpr ⟨fun mem => ?_,ih chain⟩
    obtain ⟨after',suffix,link',chain',shorter⟩ := chainLinked chain mem
    cases Option.some.inj (link.symm.trans link')
    rw [chainUnique chain chain'] at shorter
    exact Nat.lt_irrefl _ shorter

end Chains

structure Node (α β : Type*) where
  object : β
  prev : Option α
  next : Option α
  deriving DecidableEq,Repr

abbrev Entries (α β : Type*) := List (α × β)

namespace Entries

def addresses (entries : Entries α β) : List α := entries.map Prod.fst

def objects (entries : Entries α β) : List β := entries.map Prod.snd

def first (entries : Entries α β) : Option α := entries.head?.map Prod.fst

def last (entries : Entries α β) : Option α := entries.getLast?.map Prod.fst

@[simp] theorem firstNil : first ([] : Entries α β) = none := rfl

@[simp] theorem firstCons (e : α × β) (rest : Entries α β) : first (e::rest) = some e.1 := rfl

@[simp] theorem lastNil : last ([] : Entries α β) = none := rfl

@[simp] theorem lastSingle (e : α × β) : last [e] = some e.1 := rfl

@[simp] theorem lastSnoc (before : Entries α β) (e : α × β) : last (before ++ [e]) = some e.1 := by
  simp [last]

@[simp] theorem addressesAppend (before after : Entries α β) :
    addresses (before ++ after) = addresses before ++ addresses after := List.map_append

@[simp] theorem addressesNil : addresses ([] : Entries α β) = [] := rfl

@[simp] theorem addressesCons (e : α × β) (rest : Entries α β) :
    addresses (e::rest) = e.1::addresses rest := rfl

@[simp] theorem objectsNil : objects ([] : Entries α β) = [] := rfl

@[simp] theorem objectsCons (e : α × β) (rest : Entries α β) : objects (e::rest) = e.2::objects rest := rfl

@[simp] theorem objectsAppend (before after : Entries α β) :
    objects (before ++ after) = objects before ++ objects after := List.map_append

theorem objectsFilter (p : β → Bool) (entries : Entries α β) :
    objects (entries.filter (fun e => p e.2)) = entries.objects.filter p := by
  rw [objects,objects,List.filter_map]
  rfl

theorem objectsErase [DecidableEq β] (o : β) (entries : Entries α β) :
    objects (entries.eraseP (fun e => e.2 = o)) = entries.objects.erase o := by
  rw [objects,objects,List.erase_eq_eraseP',List.eraseP_map]
  rfl

theorem lastAppendCons (before : Entries α β) (e : α × β) (mid : Entries α β) :
    last (before ++ e::mid) = last (e::mid) := by
  simp [last,List.getLast?_append,List.getLast?_cons]

theorem firstMem {entries : Entries α β} {p : α} (h : entries.first = some p) : p ∈ entries.addresses := by
  cases entries with
  | nil => cases h
  | cons e rest => cases h; exact List.mem_cons_self

theorem lastMem {entries : Entries α β} {p : α} (h : entries.last = some p) : p ∈ entries.addresses := by
  rcases List.eq_nil_or_concat entries with rfl | ⟨before,e,rfl⟩
  · cases h
  · rw [List.concat_eq_append,lastSnoc] at h
    cases h
    simp [addresses]

theorem notInRest {before after : Entries α β} {e : α × β} (distinct : (addresses (before ++ e::after)).Nodup) :
    e.1 ∉ before.addresses ∧ e.1 ∉ after.addresses := by
  rw [addressesAppend,addressesCons] at distinct
  obtain ⟨-,tail,apart⟩ := List.nodup_append.mp distinct
  exact ⟨fun mem => apart e.1 mem e.1 List.mem_cons_self rfl,(List.nodup_cons.mp tail).1⟩

theorem lastApart {before mid : Entries α β} {e m : α × β}
    (distinct : (addresses (before ++ e::m::mid)).Nodup) : last (before ++ e::m::mid) ≠ some e.1 := by
  intro same
  rw [List.append_cons,lastAppendCons] at same
  exact (notInRest distinct).2 (lastMem same)

theorem firstApart {before after : Entries α β} {c e : α × β}
    (distinct : (addresses (c::before ++ e::after)).Nodup) : c.1 ≠ e.1 := by
  intro same
  have away := (notInRest distinct).1
  rw [← same] at away
  exact away List.mem_cons_self

theorem firstRemove [DecidableEq α] {before after : Entries α β} {e : α × β}
    (distinct : (addresses (before ++ e::after)).Nodup) :
    (if first (before ++ e::after) = some e.1 then first after else first (before ++ e::after)) =
      first (before ++ after) := by
  cases before with
  | nil => exact if_pos rfl
  | cons c before => exact if_neg (fun same => firstApart distinct (Option.some.inj same))

theorem lastRemove [DecidableEq α] {before after : Entries α β} {e : α × β}
    (distinct : (addresses (before ++ e::after)).Nodup) :
    (if last (before ++ e::after) = some e.1 then last before else last (before ++ e::after)) =
      last (before ++ after) := by
  cases after with
  | nil => rw [if_pos (lastSnoc before e),List.append_nil]
  | cons m mid =>
    rw [if_neg (lastApart distinct),lastAppendCons,lastAppendCons before m mid,← lastAppendCons [e] m mid]
    rfl

end Entries

/-- Every node holds its object and leads to its two neighbours. -/
def Threads (cells : α → Option (Node α β)) (entries : Entries α β) : Prop :=
  ∀ before e after, entries = before ++ e::after →
    cells e.1 = some ⟨e.2,Entries.last before,Entries.first after⟩

section Threading
variable {cells cells' : α → Option (Node α β)} {entries before after : Entries α β} {e : α × β}

theorem threadsNil : Threads cells [] := by
  intro before e after split
  simp at split

theorem threadsAt (threads : Threads cells (before ++ e::after)) :
    cells e.1 = some ⟨e.2,before.last,after.first⟩ := threads before e after rfl

theorem threadsMem (threads : Threads cells entries) (mem : e ∈ entries) :
    ∃ prev next, cells e.1 = some ⟨e.2,prev,next⟩ := by
  obtain ⟨before,after,rfl⟩ := List.append_of_mem mem
  exact ⟨_,_,threadsAt threads⟩

theorem threadsSome (threads : Threads cells entries) {p : α} (mem : p ∈ entries.addresses) :
    (cells p).isSome = true := by
  obtain ⟨e,here,rfl⟩ := List.mem_map.mp mem
  obtain ⟨prev,next,found⟩ := threadsMem threads here
  rw [found]
  rfl

/-- Forwards a thread is a chain. -/
theorem threadsChain (before : Entries α β) (threads : Threads cells (before ++ after)) :
    Chain (fun p => (cells p).map Node.next) (Entries.first after) (Entries.addresses after) := by
  induction after generalizing before with
  | nil => rfl
  | cons e rest ih =>
    refine ⟨rfl,Entries.first rest,congrArg (Option.map Node.next) (threadsAt threads),?_⟩
    exact @ih (before ++ [e]) (by rw [← List.append_cons]; exact threads)

theorem threadsFrame (same : ∀ p ∈ entries.addresses, cells' p = cells p) (threads : Threads cells entries) :
    Threads cells' entries := by
  rintro before e after rfl
  rw [same e.1 (by simp [Entries.addresses])]
  exact threadsAt threads

theorem threadsSnoc (distinct : entries.addresses.Nodup) (threads : Threads cells entries)
    (last : ∀ q, entries.last = some q → cells' q = (cells q).map (fun n => { n with next := some e.1 }))
    (new : cells' e.1 = some ⟨e.2,entries.last,none⟩)
    (others : ∀ q ∈ entries.addresses, entries.last ≠ some q → cells' q = cells q) :
    Threads cells' (entries ++ [e]) := by
  intro before f after split
  rcases List.eq_nil_or_concat after with rfl | ⟨mid,g,rfl⟩
  · obtain ⟨rfl,here⟩ := List.append_inj' split rfl
    cases here
    exact new
  · have split : entries ++ [e] = (before ++ f::mid) ++ [g] := by simpa using split
    obtain ⟨rfl,here⟩ := List.append_inj' split rfl
    cases here
    have old := threadsAt threads
    cases mid with
    | nil =>
      rw [last f.1 (Entries.lastSnoc before f),old]
      rfl
    | cons m mid =>
      rw [others f.1 (by simp) (Entries.lastApart distinct),old]
      rfl

theorem threadsRemove (distinct : (Entries.addresses (before ++ e::after)).Nodup)
    (threads : Threads cells (before ++ e::after))
    (prevs : ∀ q, before.last = some q → cells' q = (cells q).map (fun n => { n with next := after.first }))
    (nexts : ∀ q, after.first = some q → cells' q = (cells q).map (fun n => { n with prev := before.last }))
    (others : ∀ q ∈ Entries.addresses (before ++ after), before.last ≠ some q → after.first ≠ some q →
      cells' q = cells q) : Threads cells' (before ++ after) := by
  intro left f right split
  have halves := distinct
  rw [Entries.addressesAppend,List.nodup_append,Entries.addressesCons,List.nodup_cons] at halves
  obtain ⟨frontDistinct,⟨-,behindDistinct⟩,halvesApart⟩ := halves
  rcases List.append_eq_append_iff.mp split with ⟨mid,rfl,rfl⟩ | ⟨mid,rfl,rest⟩
  · -- The node stands behind the one that goes.
    have old := threads (before ++ e::mid) f right (by simp)
    cases mid with
    | nil =>
      rw [nexts f.1 rfl,old]
      simp
    | cons m mid =>
      have here : f.1 ∈ Entries.addresses (m::mid ++ f::right) := by simp [Entries.addresses]
      have notLast : before.last ≠ some f.1 := fun same =>
        halvesApart f.1 (Entries.lastMem same) f.1 (List.mem_cons_of_mem _ here) rfl
      have notFirst : Entries.first (m::mid ++ f::right) ≠ some f.1 := by
        intro same
        have moved := (Entries.notInRest behindDistinct).1
        rw [← Option.some.inj same] at moved
        exact moved List.mem_cons_self
      rw [others f.1 (by simp [Entries.addresses]) notLast notFirst,old,Entries.lastAppendCons,
        Entries.lastAppendCons before m mid,← Entries.lastAppendCons [e] m mid]
      rfl
  · -- It stands before that one.
    cases mid with
    | nil =>
      cases rest
      rw [nexts f.1 rfl,threads (left ++ [e]) f right (by simp)]
      simp
    | cons m mid =>
      cases rest
      have old := threads left f (mid ++ e::after) (by simp)
      cases mid with
      | nil =>
        rw [prevs f.1 (Entries.lastSnoc left f),old]
        rfl
      | cons n mid =>
        have here : f.1 ∈ Entries.addresses (left ++ f::n::mid) := by simp [Entries.addresses]
        have notFirst : Entries.first after ≠ some f.1 := fun same =>
          halvesApart f.1 here f.1 (List.mem_cons_of_mem _ (Entries.firstMem same)) rfl
        rw [others f.1 (by simp [Entries.addresses]) (Entries.lastApart frontDistinct) notFirst,old]
        rfl

end Threading

end SignalSlot.LinkedLists
