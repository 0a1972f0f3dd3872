import SignalSlot.NanoSignal

/-! What each operation does to the number of entries and to the set of live
objects. Later proofs cite these effects and do not unfold an operation. -/
namespace SignalSlot.Heap
open PartitionSearch

variable {w : Nat} {Obj : Type} [DecidableEq Obj] {h out : Heap w Obj}

@[simp] theorem entriesInitial (live : Obj → Bool) (x key obs) :
    entries (initial (w := w) live) x key obs = 0 := by
  unfold entries initial
  cases live x <;> simp [Connections.empty]


theorem entriesFound {x : Obj} {c} (found : h x = some c) (key obs) :
    h.entries x key obs = c.slots.count ⟨key,obs⟩ := by
  simp [entries,found]

theorem entriesPositive {x : Obj} {key : DelegateKey w} {obs : Obj} :
    0 < h.entries x key obs ↔ ∃ c, h x = some c ∧ ⟨key,obs⟩ ∈ c.slots := by
  unfold entries
  cases h x with
  | none => simp
  | some c => simp [List.count_pos_iff]

theorem entriesDead {x : Obj} (dead : h.alive x = false) (key obs) : h.entries x key obs = 0 := by
  unfold alive at dead
  unfold entries
  cases found : h x with
  | none => rfl
  | some c => simp [found] at dead

theorem aliveOfEntry {x : Obj} {key obs} (held : 0 < h.entries x key obs) : h.alive x = true := by
  cases dead : h.alive x with
  | true => rfl
  | false => simp [entriesDead dead] at held

theorem aliveStore (x : Obj) (c) (y : Obj) :
    (h.store x c).alive y = if y = x then c.isSome else h.alive y := by
  unfold alive store
  by_cases same : y = x
  · subst same; simp
  · simp [same]

theorem entriesStore (x : Obj) (c) (y : Obj) (key obs) :
    (h.store x c).entries y key obs =
      if y = x then (match c with | none => 0 | some c => c.slots.count ⟨key,obs⟩)
      else h.entries y key obs := by
  unfold entries store
  by_cases same : y = x
  · subst same; cases c <;> simp
  · simp [same]

section Operations
variable [BinarySearch]

theorem applyPossible (h : Heap w Obj) (u : Update w Obj) :
    (apply h u).isSome = h.alive u.target := by
  cases u <;> simp only [apply,alive,Update.target,bind] <;> cases h _ <;> rfl

theorem applyInsert {x key obs} (ok : apply h (.insert x key obs) = some out) :
    ∃ c, h x = some c ∧ h.store x (some (c.insert key obs)) = out := by
  simpa [apply,Option.bind_eq_some_iff] using ok

theorem applyRemove {x key} (ok : apply h (.remove x key) = some out) :
    ∃ c, h x = some c ∧ h.store x (some (c.remove key)) = out := by
  simpa [apply,Option.bind_eq_some_iff] using ok

theorem applyStores {u} (ok : apply h u = some out) :
    ∃ before after, h u.target = some before ∧ h.store u.target (some after) = out := by
  cases u with
  | insert x key obs =>
    obtain ⟨c,found,stored⟩ := applyInsert ok
    exact ⟨c,_,found,stored⟩
  | remove x key =>
    obtain ⟨c,found,stored⟩ := applyRemove ok
    exact ⟨c,_,found,stored⟩

theorem applyAlive {u} (ok : apply h u = some out) (y : Obj) : out.alive y = h.alive y := by
  obtain ⟨before,after,found,rfl⟩ := applyStores ok
  rw [aliveStore]
  split
  · next same => simp [alive,same,found]
  · rfl

theorem applyOther {u} (ok : apply h u = some out) {y : Obj} (other : y ≠ u.target) : out y = h y := by
  obtain ⟨before,after,_,rfl⟩ := applyStores ok
  exact Function.update_of_ne other _ _

theorem applyAllAppend (us later : List (Update w Obj)) :
    applyAll h (us ++ later) = (applyAll h us).bind (fun next => applyAll next later) := by
  induction us generalizing h with
  | nil => rfl
  | cons u rest ih =>
    cases first : apply h u with
    | none => simp [applyAll,first]
    | some next => simpa [applyAll,first] using ih

theorem insertEntries {x key obs} (ok : apply h (.insert x key obs) = some out) (y : Obj) (k p) :
    out.entries y k p = h.entries y k p + if y = x ∧ k = key ∧ p = obs then 1 else 0 := by
  obtain ⟨c,found,rfl⟩ := applyInsert ok
  rw [entriesStore]
  by_cases same : y = x
  · subst same
    simp [Connections.insertCount,entriesFound found]
  · simp [same]

theorem removeEntries {x key} (ok : apply h (.remove x key) = some out) (y : Obj) (k p) :
    out.entries y k p = if y = x ∧ k = key then 0 else h.entries y k p := by
  obtain ⟨c,found,rfl⟩ := applyRemove ok
  rw [entriesStore]
  by_cases same : y = x
  · subst same
    simp [Connections.removeCount,entriesFound found]
  · simp [same]

theorem applyAllPossible {us : List (Update w Obj)}
    (live : ∀ u ∈ us, h.alive u.target = true) : (applyAll h us).isSome = true := by
  induction us generalizing h with
  | nil => rfl
  | cons u rest ih =>
    obtain ⟨next,taken⟩ := Option.isSome_iff_exists.mp
      ((applyPossible h u).trans (live u List.mem_cons_self))
    have later := ih (h := next) (fun v mem => by
      rw [applyAlive taken]; exact live v (List.mem_cons_of_mem _ mem))
    simp [applyAll,taken,later]

variable {policy : Policy}

theorem visitPeersCons {self : Obj} {slot : Connection w Obj} {rest}
    (ok : visitPeers policy self (slot::rest) h = some out) :
    (visitPeers policy self rest h = some out ∧ (slot.observer = self ∨ h.alive slot.observer = false)) ∨
    (slot.observer ≠ self ∧ ∃ next, apply h (.remove slot.observer slot.delegate) = some next ∧
      visitPeers policy self rest next = some out) := by
  unfold visitPeers Policy.visiting at ok
  by_cases own : slot.observer = self
  · rw [if_pos own] at ok
    exact .inl ⟨ok,.inl own⟩
  rw [if_neg own] at ok
  -- The three policies with raw pointers follow the entry; the last one asks first.
  have follow : policy = .tsSafe ∧ h.alive slot.observer = false ∨
      (do let next ← apply h (.remove slot.observer slot.delegate)
          visitPeers policy self rest next) = some out := by
    cases policy with
    | st | ts | stSafe => exact .inr ok
    | tsSafe => cases live : h.alive slot.observer <;> simp_all
  rcases follow with ⟨rfl,dead⟩ | visit
  · rw [dead] at ok
    exact .inl ⟨by simpa using ok,.inr dead⟩
  · obtain ⟨next,taken,later⟩ := Option.bind_eq_some_iff.mp visit
    exact .inr ⟨own,next,taken,later⟩

theorem visitPeersAlive {self : Obj} {slots} (ok : visitPeers policy self slots h = some out) (y : Obj) :
    out.alive y = h.alive y := by
  induction slots generalizing h with
  | nil => cases Option.some.inj ok; rfl
  | cons slot rest ih =>
    rcases visitPeersCons ok with ⟨later,_⟩ | ⟨_,next,taken,later⟩
    · exact ih later
    · rw [ih later,applyAlive taken]

theorem visitPeersEntries {self : Obj} {slots} (ok : visitPeers policy self slots h = some out)
    (y : Obj) (k p) :
    out.entries y k p = if y ≠ self ∧ ⟨k,y⟩ ∈ slots then 0 else h.entries y k p := by
  induction slots generalizing h with
  | nil => cases Option.some.inj ok; simp
  | cons slot rest ih =>
    rcases visitPeersCons ok with ⟨later,skipped⟩ | ⟨other,next,taken,later⟩
    · rw [ih later]
      by_cases here : y ≠ self ∧ (⟨k,y⟩ : Connection w Obj) = slot
      · obtain ⟨notSelf,rfl⟩ := here
        have dead := skipped.resolve_left notSelf
        simp [entriesDead dead]
      · have same : (y ≠ self ∧ ⟨k,y⟩ ∈ rest) ↔ (y ≠ self ∧ ⟨k,y⟩ ∈ slot::rest) := by
          rw [List.mem_cons]; tauto
        simp only [same]
    · rw [ih later,removeEntries taken]
      cases slot with | mk delegate observer =>
      by_cases here : y = observer ∧ k = delegate
      · obtain ⟨rfl,rfl⟩ := here
        simp [show y ≠ self from other]
      · have same : (⟨k,y⟩ ∈ (⟨delegate,observer⟩ : Connection w Obj)::rest) ↔ ⟨k,y⟩ ∈ rest := by
          rw [List.mem_cons,Connection.mk.injEq]; tauto
        simp only [same]
        split <;> simp_all

theorem visitPeersPossible (policy : Policy) (self : Obj) (slots : List (Connection w Obj))
    (live : ∀ slot ∈ slots, slot.observer ≠ self → h.alive slot.observer = true) :
    (visitPeers policy self slots h).isSome = true := by
  induction slots generalizing h with
  | nil => rfl
  | cons slot rest ih =>
    unfold visitPeers Policy.visiting
    by_cases own : slot.observer = self
    · rw [if_pos own]
      exact ih (fun s mem => live s (List.mem_cons_of_mem _ mem))
    · have here := live slot List.mem_cons_self own
      obtain ⟨next,taken⟩ := Option.isSome_iff_exists.mp
        ((applyPossible h (.remove slot.observer slot.delegate)).trans here)
      have later := ih (h := next) (fun s mem other => by
        rw [applyAlive taken]; exact live s (List.mem_cons_of_mem _ mem) other)
      cases policy <;> simp [own,here,taken,later]

variable {layout : Layout w Obj}

theorem connectCases {s slot} (ok : connect layout h s slot = some out) :
    (layout.observerOf slot.delegateKey = none ∧ apply h (.insert s slot.delegateKey s) = some out) ∨
    ∃ o mid, layout.observerOf slot.delegateKey = some o ∧
      apply h (.insert s slot.delegateKey o) = some mid ∧
      apply mid (.insert o slot.delegateKey s) = some out := by
  unfold connect insertSfinae at ok
  cases receiver : layout.observerOf slot.delegateKey with
  | some o =>
    simp only [receiver,applyAll,bind,Option.bind_eq_some_iff,Option.some.injEq] at ok
    obtain ⟨mid,first,last,second,rfl⟩ := ok
    exact .inr ⟨o,mid,rfl,first,second⟩
  | none =>
    simp only [receiver,applyAll,bind,Option.bind_eq_some_iff,Option.some.injEq] at ok
    obtain ⟨last,only,rfl⟩ := ok
    exact .inl ⟨rfl,only⟩

theorem connectEffect {s slot} (ok : connect layout h s slot = some out) :
    (∀ y, out.alive y = h.alive y) ∧ ∀ y k p, out.entries y k p = h.entries y k p +
      match layout.observerOf slot.delegateKey with
      | some o => (if y = s ∧ k = slot.delegateKey ∧ p = o then 1 else 0) +
          (if y = o ∧ k = slot.delegateKey ∧ p = s then 1 else 0)
      | none => if y = s ∧ k = slot.delegateKey ∧ p = s then 1 else 0 := by
  rcases connectCases ok with ⟨receiver,only⟩ | ⟨o,mid,receiver,first,second⟩
  · rw [receiver]
    exact ⟨applyAlive only,insertEntries only⟩
  · refine ⟨fun y => (applyAlive second y).trans (applyAlive first y),fun y k p => ?_⟩
    rw [receiver,insertEntries second,insertEntries first,Nat.add_assoc]

theorem connectEntry {s slot} (ok : connect layout h s slot = some out) {x k y}
    (held : 0 < out.entries x k y) : 0 < h.entries x k y ∨ (k = slot.delegateKey ∧
      ((layout.observerOf k = none ∧ x = s ∧ y = s) ∨
        ∃ o, layout.observerOf k = some o ∧ (x = s ∧ y = o ∨ x = o ∧ y = s))) := by
  rw [(connectEffect ok).2] at held
  cases receiver : layout.observerOf slot.delegateKey <;> grind

theorem disconnectCases {s slot} (ok : disconnect layout h s slot = some out) :
    (layout.observerOf slot.delegateKey = none ∧ apply h (.remove s slot.delegateKey) = some out) ∨
    ∃ o mid, layout.observerOf slot.delegateKey = some o ∧
      apply h (.remove s slot.delegateKey) = some mid ∧
      apply mid (.remove o slot.delegateKey) = some out := by
  unfold disconnect removeSfinae at ok
  cases receiver : layout.observerOf slot.delegateKey with
  | some o =>
    simp only [receiver,applyAll,bind,Option.bind_eq_some_iff,Option.some.injEq] at ok
    obtain ⟨mid,first,last,second,rfl⟩ := ok
    exact .inr ⟨o,mid,rfl,first,second⟩
  | none =>
    simp only [receiver,applyAll,bind,Option.bind_eq_some_iff,Option.some.injEq] at ok
    obtain ⟨last,only,rfl⟩ := ok
    exact .inl ⟨rfl,only⟩

theorem disconnectEffect {s slot} (ok : disconnect layout h s slot = some out) :
    (∀ y, out.alive y = h.alive y) ∧ ∀ y k p, out.entries y k p =
      if k = slot.delegateKey ∧ (y = s ∨ layout.observerOf slot.delegateKey = some y) then 0
      else h.entries y k p := by
  rcases disconnectCases ok with ⟨receiver,only⟩ | ⟨o,mid,receiver,first,second⟩
  · refine ⟨applyAlive only,fun y k p => ?_⟩
    rw [removeEntries only]
    simp only [receiver,reduceCtorEq,or_false,and_comm]
  · refine ⟨fun y => (applyAlive second y).trans (applyAlive first y),fun y k p => ?_⟩
    rw [removeEntries second,removeEntries first]
    by_cases same : k = slot.delegateKey
    · by_cases left : y = s <;> by_cases right : o = y <;> simp [receiver,same,left,right,eq_comm]
    · simp [same]

-- The common effect of disconnect_all and of destruction: `x` loses everything, and
-- each peer that `x` holds a key for loses that key.
abbrev Forgets (x : Obj) (h out : Heap w Obj) : Prop :=
  ∀ y k p, out.entries y k p = if y = x ∨ 0 < h.entries x k y then 0 else h.entries y k p

omit [BinarySearch] in
theorem forgetsLess {x} (forgets : Forgets x h out) {y k p} (held : 0 < out.entries y k p) :
    y ≠ x ∧ ¬ 0 < h.entries x k y ∧ 0 < h.entries y k p := by
  rw [forgets] at held
  split at held
  · simp at held
  · next kept => exact ⟨fun same => kept (.inl same),fun h => kept (.inr h),held⟩

theorem disconnectAllCases {x} (ok : disconnectAll policy h x = some out) :
    ∃ c visited, h x = some c ∧ visitPeers policy x c.slots h = some visited ∧
      visited.store x (some .empty) = out := by
  simpa [disconnectAll,Option.bind_eq_some_iff] using ok

theorem disconnectAllEffect {x} (ok : disconnectAll policy h x = some out) :
    (∀ y, out.alive y = h.alive y) ∧ Forgets x h out := by
  obtain ⟨c,visited,found,loop,rfl⟩ := disconnectAllCases ok
  have held (k : DelegateKey w) (y : Obj) : 0 < h.entries x k y ↔ ⟨k,y⟩ ∈ c.slots := by
    simp [entriesPositive,found]
  constructor
  · intro y
    rw [aliveStore]
    split
    · next same => subst same; simp [alive,found]
    · exact visitPeersAlive loop y
  · intro y k p
    rw [entriesStore,visitPeersEntries loop]
    by_cases same : y = x <;> simp [same,held,Connections.empty]

theorem destroyEffect {x} (ok : destroy policy h x = some out) :
    (∀ y, out.alive y = (decide (y ≠ x) && h.alive y)) ∧ Forgets x h out := by
  simp only [destroy,bind,Option.bind_eq_some_iff] at ok
  obtain ⟨cleared,all,last⟩ := ok
  cases Option.some.inj last
  obtain ⟨live,entered⟩ := disconnectAllEffect all
  constructor
  · intro y
    rw [aliveStore]
    by_cases same : y = x <;> simp [same,live]
  · intro y k p
    rw [entriesStore,entered]
    by_cases same : y = x <;> simp [same]

/-! Live objects are enough for an operation to be defined. -/

theorem connectPossible {s slot} (live : h.alive s = true)
    (liveReceiver : ∀ o, layout.observerOf slot.delegateKey = some o → h.alive o = true) :
    (connect layout h s slot).isSome = true := by
  refine applyAllPossible ?_
  cases receiver : layout.observerOf slot.delegateKey with
  | none => simp [insertSfinae,receiver,Update.target,live]
  | some o => simp [insertSfinae,receiver,Update.target,live,liveReceiver o receiver]

theorem disconnectPossible {s slot} (live : h.alive s = true)
    (liveReceiver : ∀ o, layout.observerOf slot.delegateKey = some o → h.alive o = true) :
    (disconnect layout h s slot).isSome = true := by
  refine applyAllPossible ?_
  cases receiver : layout.observerOf slot.delegateKey with
  | none => simp [removeSfinae,receiver,Update.target,live]
  | some o => simp [removeSfinae,receiver,Update.target,live,liveReceiver o receiver]

theorem disconnectAllPossible (policy : Policy) {x c} (found : h x = some c)
    (live : ∀ slot ∈ c.slots, slot.observer ≠ x → h.alive slot.observer = true) :
    (disconnectAll policy h x).isSome = true := by
  obtain ⟨visited,loop⟩ := Option.isSome_iff_exists.mp (visitPeersPossible policy x c.slots live)
  simp [disconnectAll,found,loop]

theorem stepPossible {op} (ok : step layout policy h op = some out) :
    Callable layout h op ∧ exec layout policy h op = some out := by
  unfold step at ok
  split at ok
  · exact ⟨by assumption,ok⟩
  · contradiction

end Operations
end SignalSlot.Heap
