import SignalSlot.JlDoublyLinkedList

/-! Iterators of jl::DoublyLinkedList that are kept across uses of the lists, as `Emit`
keeps its own across the slots that it calls. An iterator is the address of a node, and
the node may be freed, and handed out again, while the iterator stands on it. -/
namespace SignalSlot.ListIterators
open LinkedLists GuardedRun DoublyLinkedList
open ObjectPool (Addr Memory)

variable {I K β : Type}

/-- `m_pList` and `m_pCurrent`. -/
structure Iterator (K : Type) where
  list : K
  current : Option Addr
  deriving DecidableEq,Repr

structure State (I K β : Type) where
  lists : Described K β
  iterators : I → Option (Iterator K)

inductive Use (I K β : Type) where
  | lists (use : DoublyLinkedList.Use K β)
  | begin (i : I) (k : K)
  | next (i : I)
  | prev (i : I)
  | remove (i : I)
  | drop (i : I)
  deriving DecidableEq

section Uses
variable [DecidableEq I] [DecidableEq K] [DecidableEq β] (b : NodeBuffer) (asserts : Bool)

/-- `++` and `--`, which stay at the end. -/
def Iterator.go (pool : NodePool β) (link : Node Addr β → Option Addr) (it : Iterator K) :
    Option (Iterator K) := do
  jlAssert asserts it.current.isSome
  match it.current with
  | none => some it
  | some p => do
      let n ← read pool p
      some { it with current := link n }

/-- What an iterator has still to come by. -/
def ahead (pool : NodePool β) (it : Iterator K) : Option (List β) :=
  objectsFrom pool (b.capacity.toNat + 1) it.current

/-- `Remove( iterator& )` of the list that the iterator is of. In the table the object goes
that has as many behind it as the iterator has still to come by. -/
def removeHere (d : Described K β) (it : Iterator K) : Option (Described K β × Iterator K) := do
  let p ← it.current
  let left ← ahead b d.pool it
  let (removed,next,pool,list) ← removeAt b asserts d.pool (d.anchors it.list) p
  let table := if removed then (d.table it.list).eraseIdx ((d.table it.list).length - left.length)
    else d.table it.list
  some (⟨pool,Function.update d.anchors it.list list,Function.update d.table it.list table⟩,
    { it with current := next })

def start (memory : Memory (Node Addr β)) : State I K β := ⟨fresh b memory,fun _ => none⟩

def step (st : State I K β) : Use I K β → Option (State I K β)
  | .lists use => do
      let d ← DoublyLinkedList.step b asserts st.lists use
      some { st with lists := d }
  | .begin i k => some { st with
      iterators := Function.update st.iterators i (some ⟨k,(st.lists.anchors k).head⟩) }
  | .next i => do
      let it ← st.iterators i
      let it ← it.go asserts st.lists.pool Node.next
      some { st with iterators := Function.update st.iterators i (some it) }
  | .prev i => do
      let it ← st.iterators i
      let it ← it.go asserts st.lists.pool Node.prev
      some { st with iterators := Function.update st.iterators i (some it) }
  | .remove i => do
      let it ← st.iterators i
      let (d,it) ← removeHere b asserts st.lists it
      some ⟨d,Function.update st.iterators i (some it)⟩
  | .drop i => some { st with iterators := Function.update st.iterators i none }

/-- The lists are what they are to be, and every iterator has the rest of its list before
it, whatever has been added or removed meanwhile. -/
structure Valid (st : State I K β) : Prop where
  faithful : Faithful b asserts st.lists
  rest : ∀ i it, st.iterators i = some it → ∃ before after,
    st.lists.table it.list = before ++ after ∧ ahead b st.lists.pool it = some after

def entriesFrom (pool : NodePool β) : Nat → Option Addr → Option (Entries Addr β)
  | 0,_ => none
  | _ + 1,none => some []
  | fuel + 1,some p => do
      let n ← read pool p
      let rest ← entriesFrom pool fuel n.next
      some ((p,n.object)::rest)

def entries (d : Described K β) (k : K) : Entries Addr β :=
  (entriesFrom d.pool (b.capacity.toNat + 1) (d.anchors k).head).getD []

/-- No node goes on which an iterator stands, but for the iterator that removes it. -/
def Stays (st : State I K β) : Use I K β → Prop
  | .lists use => ∀ i it p, st.iterators i = some it → it.current = some p →
      p ∈ Entries.addresses (use.keeps it.list (entries b st.lists it.list))
  | .remove i => ∀ it, st.iterators i = some it →
      ∀ j it', j ≠ i → st.iterators j = some it' → it'.current ≠ it.current
  | _ => True

end Uses

section Places
variable {b : NodeBuffer} {asserts : Bool} {d next : Described K β} {free free' : List Addr}
variable {lists lists' : K → Entries Addr β} {it it' : Iterator K}

theorem entriesFromDone {pool : NodePool β} (before : Entries Addr β) {after : Entries Addr β} {fuel : Nat}
    (threads : Threads (read pool) (before ++ after)) (enough : after.length < fuel) :
    entriesFrom pool fuel after.first = some after := by
  induction after generalizing before fuel with
  | nil =>
    cases fuel with
    | zero => cases enough
    | succ fuel => rfl
  | cons e rest ih =>
    cases fuel with
    | zero => exact absurd enough (Nat.not_lt_zero _)
    | succ fuel =>
      have later := ih (before ++ [e]) (by rw [← List.append_cons]; exact threads) (Nat.lt_of_succ_lt_succ enough)
      simp [entriesFrom,threadsAt threads,later]

theorem entriesExact (kept : Kept b d free lists) (k : K) : entries b d k = lists k := by
  have found := entriesFromDone [] (kept.arranged.threads k) (enoughFuel kept.arranged k)
  rw [entries,kept.anchors,anchoredHead,found]
  rfl

/-- An iterator stands on a node of its list or at the end. -/
def Stands (lists : K → Entries Addr β) (it : Iterator K) : Prop :=
  ∀ p, it.current = some p → p ∈ (lists it.list).addresses

theorem standsSplit (stands : Stands lists it) :
    ∃ before after, lists it.list = before ++ after ∧ it.current = after.first := by
  cases here : it.current with
  | none => exact ⟨lists it.list,[],by simp,rfl⟩
  | some p =>
    obtain ⟨e,mem,rfl⟩ := List.mem_map.mp (stands p here)
    obtain ⟨before,after,split⟩ := List.append_of_mem mem
    exact ⟨before,e::after,split,rfl⟩

theorem aheadDone (kept : Kept b d free lists) {before after : Entries Addr β}
    (split : lists it.list = before ++ after) (here : it.current = after.first) :
    ahead b d.pool it = some after.objects := by
  have enough := enoughFuel kept.arranged it.list
  rw [split,List.length_append] at enough
  rw [ahead,here]
  exact objectsFromDone before (split ▸ kept.arranged.threads it.list) (by omega)

theorem restOfStands (kept : Kept b d free lists) (stands : Stands lists it) :
    ∃ before after, d.table it.list = before ++ after ∧ ahead b d.pool it = some after := by
  obtain ⟨before,after,split,here⟩ := standsSplit stands
  refine ⟨before.objects,after.objects,?_,aheadDone kept split here⟩
  rw [kept.table,split,Entries.objectsAppend]

theorem goStands (kept : Kept b d free lists) (stands : Stands lists it) {link : Node Addr β → Option Addr}
    (links : ∀ before e after, lists it.list = before ++ e::after →
      ∀ p, link ⟨e.2,Entries.last before,Entries.first after⟩ = some p → p ∈ (lists it.list).addresses)
    (taken : it.go asserts d.pool link = some it') : it'.list = it.list ∧ Stands lists it' := by
  cases here : it.current with
  | none =>
    simp only [Iterator.go,here,bind,Option.bind_eq_some_iff,Option.some.injEq] at taken
    obtain ⟨-,-,rfl⟩ := taken
    exact ⟨rfl,stands⟩
  | some p =>
    obtain ⟨before,after,split,first⟩ := standsSplit stands
    rw [here] at first
    cases after with
    | nil => cases first
    | cons e after =>
      cases first
      have found := threadsAt (split ▸ kept.arranged.threads it.list)
      simp only [Iterator.go,here,found,bind,Option.bind_eq_some_iff,Option.some.injEq] at taken
      obtain ⟨-,-,-,rfl,rfl⟩ := taken
      exact ⟨rfl,links before e after split⟩

end Places

section Freed
variable [DecidableEq K] [DecidableEq β]
variable {b : NodeBuffer} {asserts : Bool} {d next : Described K β} {free free' : List Addr}
variable {lists lists' : K → Entries Addr β}

theorem keepsSublist (use : DoublyLinkedList.Use K β) (k : K) (l : Entries Addr β) :
    (use.keeps k l).Sublist l := by
  cases use with
  | add j o => exact List.Sublist.refl l
  | remove j o =>
    simp only [Use.keeps]
    split
    · exact List.eraseP_sublist
    · exact List.Sublist.refl l
  | removeAll j o =>
    simp only [Use.keeps]
    split
    · exact List.filter_sublist
    · exact List.Sublist.refl l
  | removeAt j n =>
    simp only [Use.keeps]
    split
    · exact List.eraseIdx_sublist l n
    · exact List.Sublist.refl l
  | clear j =>
    simp only [Use.keeps]
    split
    · exact List.nil_sublist l
    · exact List.Sublist.refl l

/-- A node that a use takes from its list can not be read any more. -/
theorem goneUnread {use : DoublyLinkedList.Use K β} (kept : Kept b d free lists) (kept' : Kept b next free' lists')
    (used : Used use free lists lists') {k : K} {p : Addr} (mem : p ∈ (lists k).addresses)
    (gone : p ∉ Entries.addresses (use.keeps k (lists k))) : read next.pool p = none := by
  obtain ⟨slot,taken⟩ := (kept.arranged.used p).mp ⟨k,mem⟩
  have nowhere : ¬ ∃ j, p ∈ (lists' j).addresses := by
    rintro ⟨j,there⟩
    obtain ⟨new,changed,fresh⟩ := used.changed j
    rw [changed,Entries.addressesAppend,List.mem_append] at there
    rcases there with there | there
    · have before : p ∈ (lists j).addresses := ((keepsSublist use j (lists j)).map Prod.fst).subset there
      cases kept.arranged.apart j k p before mem
      exact gone there
    · exact taken (fresh p there)
  have freed : p ∈ free' := by
    by_contra away
    exact nowhere ((kept'.arranged.used p).mpr ⟨slot,away⟩)
  by_contra there
  obtain ⟨n,found⟩ := Option.ne_none_iff_exists'.mp there
  exact readTaken kept'.arranged.stocked found freed

omit [DecidableEq β] in
theorem removedSplit {it it' : Iterator K} (stands : Stands lists it)
    (taken : removeHere b asserts d it = some (next,it')) :
    ∃ before e after, lists it.list = before ++ e::after ∧ it.current = some e.1 := by
  simp only [removeHere,bind,Option.bind_eq_some_iff] at taken
  obtain ⟨p,here,-⟩ := taken
  obtain ⟨before,after,split,first⟩ := standsSplit stands
  rw [here] at first
  cases after with
  | nil => cases first
  | cons e after =>
    cases first
    exact ⟨before,e,after,split,here⟩

omit [DecidableEq β] in
theorem removeHereDone (asserts : Bool) (kept : Kept b d free lists) {it : Iterator K}
    {before after : Entries Addr β} {e : Addr × β} (split : lists it.list = before ++ e::after) (here : it.current = some e.1) :
    ∃ next, removeHere b asserts d it = some (next,{ it with current := after.first }) ∧
      Kept b next (e.1::free) (Function.update lists it.list (before ++ after)) := by
  obtain ⟨pool,removed,arranged⟩ := removeNodeDone asserts kept.arranged split
  have found := threadsAt (split ▸ kept.arranged.threads it.list)
  have left := @aheadDone _ _ _ _ _ _ it kept before (e::after) split here
  have erased : (d.table it.list).eraseIdx ((d.table it.list).length - (Entries.objects (e::after)).length) =
      Entries.objects (before ++ after) := by
    rw [kept.table,split,Entries.objectsAppend,List.length_append,Nat.add_sub_cancel,Entries.objectsCons,
      List.eraseIdx_append_of_length_le (Nat.le_refl _),Nat.sub_self,List.eraseIdx_zero,List.tail_cons,
      Entries.objectsAppend]
  refine ⟨_,?_,keptUpdate kept arranged⟩
  simp only [removeHere,here,left,removeAt,found,kept.anchors,removed,erased,bind,Option.bind,if_true]

end Freed

section Runs
variable [DecidableEq I] [DecidableEq K] [DecidableEq β]
variable {b : NodeBuffer} {asserts : Bool} {st next : State I K β}

def Inv (b : NodeBuffer) (st : State I K β) : Prop := ∃ free lists, Kept b st.lists free lists ∧
  ∀ i it, st.iterators i = some it → Stands lists it

omit [DecidableEq I] in
theorem invValid (inv : Inv b st) : Valid b asserts st := by
  obtain ⟨free,lists,kept,stands⟩ := inv
  exact ⟨DoublyLinkedList.keptFaithful kept,fun i it there => restOfStands kept (stands i it there)⟩

omit [DecidableEq K] [DecidableEq β] in
theorem standsUpdate {lists : K → Entries Addr β} {iterators : I → Option (Iterator K)} {j : I}
    {placed : Option (Iterator K)} (stands : ∀ i it, iterators i = some it → Stands lists it)
    (new : ∀ it, placed = some it → Stands lists it) (i : I) (it : Iterator K)
    (there : Function.update iterators j placed i = some it) : Stands lists it := by
  rcases eq_or_ne i j with rfl | other
  · rw [Function.update_self] at there
    exact new it there
  · rw [Function.update_of_ne other] at there
    exact stands i it there

omit [DecidableEq β] in
theorem nextLink {l before after : Entries Addr β} {e : Addr × β} (split : l = before ++ e::after)
    {p : Addr} (next : after.first = some p) : p ∈ l.addresses := by
  rw [split,Entries.addressesAppend,Entries.addressesCons]
  exact List.mem_append_right _ (List.mem_cons_of_mem _ (Entries.firstMem next))

omit [DecidableEq β] in
theorem prevLink {l before after : Entries Addr β} {e : Addr × β} (split : l = before ++ e::after)
    {p : Addr} (prev : before.last = some p) : p ∈ l.addresses := by
  rw [split,Entries.addressesAppend]
  exact List.mem_append_left _ (Entries.lastMem prev)

omit [DecidableEq β] in
/-- The iterator that removes goes on to the next node, and the others stand on theirs. -/
theorem standsRemoved {lists : K → Entries Addr β} {it : Iterator K} {before after : Entries Addr β}
    {e : Addr × β} (split : lists it.list = before ++ e::after) {other : Iterator K} (stands : Stands lists other)
    (apart : other.current ≠ some e.1) : Stands (Function.update lists it.list (before ++ after)) other := by
  intro p here
  have mem := stands p here
  rcases eq_or_ne other.list it.list with same | away
  · rw [same,Function.update_self]
    rw [same,split,Entries.addressesAppend,Entries.addressesCons,List.mem_append,List.mem_cons] at mem
    rw [Entries.addressesAppend,List.mem_append]
    have unequal : p ≠ e.1 := fun same => apart (same ▸ here)
    tauto
  · rwa [Function.update_of_ne away]

theorem invStep {use : Use I K β} (inv : Inv b st) (stays : Stays b st use)
    (taken : step b asserts st use = some next) : Inv b next := by
  obtain ⟨free,lists,kept,stands⟩ := inv
  cases use with
  | lists use =>
    simp only [step,bind,Option.bind_eq_some_iff,Option.some.injEq] at taken
    obtain ⟨d,taken,rfl⟩ := taken
    obtain ⟨free',lists',kept',used⟩ := DoublyLinkedList.keptStep kept taken
    refine ⟨free',lists',kept',fun i it there p here => ?_⟩
    obtain ⟨new,changed,-⟩ := used.changed it.list
    have stayed := stays i it p there here
    rw [entriesExact kept] at stayed
    rw [changed,Entries.addressesAppend]
    exact List.mem_append_left _ stayed
  | begin i k =>
    cases taken
    refine ⟨free,lists,kept,standsUpdate stands (fun it same p here => ?_)⟩
    cases same
    rw [kept.anchors] at here
    exact Entries.firstMem here
  | next i =>
    simp only [step,bind,Option.bind_eq_some_iff,Option.some.injEq] at taken
    obtain ⟨it,there,it',went,rfl⟩ := taken
    obtain ⟨-,stands'⟩ := goStands kept (stands i it there) (fun _ _ _ split _ => nextLink split) went
    exact ⟨free,lists,kept,standsUpdate stands (fun _ same => Option.some.inj same ▸ stands')⟩
  | prev i =>
    simp only [step,bind,Option.bind_eq_some_iff,Option.some.injEq] at taken
    obtain ⟨it,there,it',went,rfl⟩ := taken
    obtain ⟨-,stands'⟩ := goStands kept (stands i it there) (fun _ _ _ split _ => prevLink split) went
    exact ⟨free,lists,kept,standsUpdate stands (fun _ same => Option.some.inj same ▸ stands')⟩
  | remove i =>
    simp only [step,bind,Option.bind_eq_some_iff,Option.some.injEq] at taken
    obtain ⟨it,there,⟨d,it'⟩,removed,rfl⟩ := taken
    obtain ⟨before,e,after,split,here⟩ := removedSplit (stands i it there) removed
    obtain ⟨d',done,kept'⟩ := removeHereDone asserts kept split here
    cases Option.some.inj (removed.symm.trans done)
    refine ⟨_,_,kept',fun j other found => ?_⟩
    dsimp only at found
    rcases eq_or_ne j i with rfl | away
    · rw [Function.update_self] at found
      cases found
      intro p next
      rw [Function.update_self,Entries.addressesAppend]
      exact List.mem_append_right _ (Entries.firstMem next)
    · rw [Function.update_of_ne away] at found
      exact standsRemoved split (stands j other found) (here ▸ stays it there j other away found)
  | drop i =>
    cases taken
    exact ⟨free,lists,kept,standsUpdate stands (fun it same => by cases same)⟩

/-- A node that is freed under an iterator shows at once. -/
theorem staysNeeded {use : Use I K β} (inv : Inv b st) (taken : step b asserts st use = some next)
    (valid : Valid b asserts next) : Stays b st use := by
  obtain ⟨free,lists,kept,stands⟩ := inv
  cases use with
  | lists use =>
    simp only [step,bind,Option.bind_eq_some_iff,Option.some.injEq] at taken
    obtain ⟨d,taken,rfl⟩ := taken
    obtain ⟨free',lists',kept',used⟩ := DoublyLinkedList.keptStep kept taken
    intro i it p there here
    rw [entriesExact kept]
    by_contra gone
    have unread := goneUnread kept kept' used (stands i it there p here) gone
    obtain ⟨-,after,-,reached⟩ := valid.rest i it there
    simp [ahead,here,objectsFrom,unread] at reached
  | remove i =>
    simp only [step,bind,Option.bind_eq_some_iff,Option.some.injEq] at taken
    obtain ⟨it,there,⟨d,it'⟩,removed,rfl⟩ := taken
    obtain ⟨before,e,after,split,here⟩ := removedSplit (stands i it there) removed
    obtain ⟨d',done,kept'⟩ := removeHereDone asserts kept split here
    cases Option.some.inj (removed.symm.trans done)
    intro it' found j other away found' same
    cases Option.some.inj (there.symm.trans found)
    obtain ⟨-,left,-,reached⟩ := valid.rest j other (by
      dsimp only
      rw [Function.update_of_ne away]
      exact found')
    have unread : read d.pool e.1 = none := by
      by_contra readable
      obtain ⟨n,found⟩ := Option.ne_none_iff_exists'.mp readable
      exact readTaken kept'.arranged.stocked found List.mem_cons_self
    simp [ahead,same,here,objectsFrom,unread] at reached
  | _ => trivial

/-- Iterators are valid throughout exactly if none of their nodes is taken away. -/
theorem iteratorsValidExactly (b : NodeBuffer) (asserts : Bool) (memory : Memory (Node Addr β))
    (uses : List (Use I K β)) : EveryState (step b asserts) (Valid b asserts) (start b memory) uses ↔
      EveryStep (step b asserts) (Stays b) (start b memory) uses :=
  everyStateExact (fun _ inv => invValid inv) (fun _ _ _ inv stays taken => invStep inv stays taken)
    (fun _ _ _ inv taken valid => staysNeeded inv taken valid)
    ⟨_,_,freshKept memory,fun _ _ there => by cases there⟩ uses

end Runs

end SignalSlot.ListIterators
