import SignalSlot.Library.GuardedRun
import Mathlib.Data.List.Perm.Basic
import Mathlib.Logic.Function.Basic
import Mathlib.Data.Fintype.Basic

/-! Three libraries of the benchmark whose Foo cuts its connection through a deleter:
signal11 keeps a list iterator, SimpleSignal the address of the function as an id, and
obs::Subject the function itself beside a weak heartbeat. A Foo is to be called by the
subject that it was connected to last, until one of them ends. -/
namespace SignalSlot.Scopes
open GuardedRun

inductive Library where
  | jos | lss | evl
  deriving DecidableEq,Repr

variable {Sub Foo Addr : Type}

/-- What a subject holds: its heartbeat, which only obs::Subject has, and its slots in the
order of the connections, each by the address of its node or function. -/
structure Subject (Foo Addr : Type) where
  beat : Nat
  slots : List (Addr × Foo)
  deriving DecidableEq

/-- What a deleter has captured. -/
structure Scope (Sub Addr : Type) where
  subject : Sub
  beat : Nat
  address : Addr
  deriving DecidableEq

structure State (Sub Foo Addr : Type) where
  subjects : Sub → Option (Subject Foo Addr)
  foos : Foo → Option (Option (Scope Sub Addr))
  beats : Nat

inductive Use (Sub Foo Addr : Type) where
  | subject (s : Sub)
  | foo (f : Foo)
  | connect (s : Sub) (f : Foo) (address : Addr)
  | endFoo (f : Foo)
  | endSubject (s : Sub)
  deriving DecidableEq

-- Which Foo stands to which subject, in the order of the connections.
abbrev Table (Sub Foo : Type) := List (Foo × Sub)

structure Described (Sub Foo Addr : Type) where
  state : State Sub Foo Addr
  table : Table Sub Foo

section Libraries
variable [DecidableEq Sub] [DecidableEq Foo] [DecidableEq Addr] (lib : Library)

abbrev Subjects (Sub Foo Addr : Type) := Sub → Option (Subject Foo Addr)

def push (subjects : Subjects Sub Foo Addr) (s : Sub) (slot : Addr × Foo) : Subjects Sub Foo Addr :=
  Function.update subjects s ((subjects s).map (fun sub => { sub with slots := sub.slots ++ [slot] }))

def without (slots : List (Addr × Foo)) (address : Addr) : List (Addr × Foo) :=
  slots.filter (fun slot => slot.1 ≠ address)

def remove (subjects : Subjects Sub Foo Addr) (scope : Scope Sub Addr) : Subjects Sub Foo Addr :=
  Function.update subjects scope.subject ((subjects scope.subject).map
    (fun sub => { sub with slots := without sub.slots scope.address }))

-- `m_slots.erase(it)` needs a subject that is there and a node that it has.
def josDelete (subjects : Subjects Sub Foo Addr) (scope : Scope Sub Addr) :
    Option (Subjects Sub Foo Addr) := do
  let sub ← subjects scope.subject
  if scope.address ∈ sub.slots.map Prod.fst then some (remove subjects scope) else none

-- `remove_cb` may find nothing.
def lssDelete (subjects : Subjects Sub Foo Addr) (scope : Scope Sub Addr) :
    Option (Subjects Sub Foo Addr) := do
  let _ ← subjects scope.subject
  some (remove subjects scope)

-- Nothing is touched unless the heartbeat that was captured still beats.
def evlDelete (subjects : Subjects Sub Foo Addr) (scope : Scope Sub Addr) :
    Option (Subjects Sub Foo Addr) :=
  if (subjects scope.subject).map Subject.beat = some scope.beat then some (remove subjects scope)
  else some subjects

def delete (subjects : Subjects Sub Foo Addr) (scope : Option (Scope Sub Addr)) :
    Option (Subjects Sub Foo Addr) := match scope with
  | none => some subjects
  | some scope => match lib with
    | .jos => josDelete subjects scope
    | .lss => lssDelete subjects scope
    | .evl => evlDelete subjects scope

/-- Nothing that is allocated stands at the address. Only the deleter of obs::Subject
keeps its function. -/
def Free (st : State Sub Foo Addr) (address : Addr) : Prop :=
  (∀ s, ∀ sub ∈ st.subjects s, address ∉ sub.slots.map Prod.fst) ∧
  (lib = .evl → ∀ f, ∀ reg ∈ st.foos f, ∀ scope ∈ reg, scope.address ≠ address)

def Legal (st : State Sub Foo Addr) : Use Sub Foo Addr → Prop
  | .subject s => st.subjects s = none
  | .foo f => st.foos f = none
  | .connect s f address =>
      (st.subjects s).isSome = true ∧ (st.foos f).isSome = true ∧ Free lib st address
  | .endFoo f => (st.foos f).isSome = true
  | .endSubject s => (st.subjects s).isSome = true

instance [Fintype Sub] [Fintype Foo] (st : State Sub Foo Addr) (use : Use Sub Foo Addr) :
    Decidable (Legal lib st use) := by
  cases use <;> unfold Legal <;> (try unfold Free) <;> infer_instance

def exec (st : State Sub Foo Addr) : Use Sub Foo Addr → Option (State Sub Foo Addr)
  | .subject s => some ⟨Function.update st.subjects s (some ⟨st.beats,[]⟩),st.foos,st.beats + 1⟩
  | .foo f => some { st with foos := Function.update st.foos f (some none) }
  | .connect s f address => do
      let sub ← st.subjects s
      let reg ← st.foos f
      -- `foo.reg` has its new value when the old deleter runs.
      let subjects ← delete lib (push st.subjects s (address,f)) reg
      some ⟨subjects,Function.update st.foos f (some (some ⟨s,sub.beat,address⟩)),st.beats⟩
  | .endFoo f => do
      let reg ← st.foos f
      let subjects ← delete lib st.subjects reg
      some ⟨subjects,Function.update st.foos f none,st.beats⟩
  | .endSubject s => some { st with subjects := Function.update st.subjects s none }

-- The handlers in the order of the calls; one of a Foo that is gone must not be called.
def emit (st : State Sub Foo Addr) (s : Sub) : Option (List Foo) := do
  let sub ← st.subjects s
  if ∀ slot ∈ sub.slots, (st.foos slot.2).isSome = true then some (sub.slots.map Prod.snd) else none

def Table.use (t : Table Sub Foo) : Use Sub Foo Addr → Table Sub Foo
  | .subject _ | .foo _ => t
  | .connect s f _ => t.filter (fun row => row.1 ≠ f) ++ [(f,s)]
  | .endFoo f => t.filter (fun row => row.1 ≠ f)
  | .endSubject s => t.filter (fun row => row.2 ≠ s)

def Table.callees (t : Table Sub Foo) (s : Sub) : List Foo :=
  (t.filter (fun row => row.2 = s)).map Prod.fst

def step [∀ (st : State Sub Foo Addr) use, Decidable (Legal lib st use)] (d : Described Sub Foo Addr)
    (use : Use Sub Foo Addr) : Option (Described Sub Foo Addr) :=
  if Legal lib d.state use then do
    let st ← exec lib d.state use
    some ⟨st,d.table.use use⟩
  else none

def nothing : Described Sub Foo Addr := ⟨⟨fun _ => none,fun _ => none,0⟩,[]⟩

structure Faithful (d : Described Sub Foo Addr) : Prop where
  emission : ∀ s, (d.state.subjects s).isSome = true → emit d.state s = some (d.table.callees s)
  defined : ∀ use, Legal lib d.state use → (exec lib d.state use).isSome = true

/-- A subject ends after the Foo that stand to it, unless a deleter can tell. -/
def Outlives (d : Described Sub Foo Addr) : Use Sub Foo Addr → Prop
  | .endSubject s => lib = .evl ∨ d.table.callees s = []
  | _ => True

instance (d : Described Sub Foo Addr) (use : Use Sub Foo Addr) : Decidable (Outlives lib d use) := by
  cases use <;> unfold Outlives <;> infer_instance

structure Linked (d : Described Sub Foo Addr) : Prop where
  slots : ∀ s sub, d.state.subjects s = some sub → ∀ a f,
    (a,f) ∈ sub.slots ↔ d.state.foos f = some (some ⟨s,sub.beat,a⟩)
  once : ∀ s sub, d.state.subjects s = some sub →
    ∀ a f f', (a,f) ∈ sub.slots → (a,f') ∈ sub.slots → f = f'
  beats : ∀ s sub, d.state.subjects s = some sub → sub.beat < d.state.beats
  scopes : ∀ f scope, d.state.foos f = some (some scope) → scope.beat < d.state.beats
  current : lib ≠ .evl → ∀ f scope, d.state.foos f = some (some scope) →
    ∃ sub, d.state.subjects scope.subject = some sub ∧ sub.beat = scope.beat
  table : ∀ s sub, d.state.subjects s = some sub → sub.slots.map Prod.snd = d.table.callees s
  ends : ∀ row ∈ d.table, (d.state.subjects row.2).isSome = true

-- Each subject without the slots of a Foo.
def forgetting (subjects : Subjects Sub Foo Addr) (f : Foo) : Subjects Sub Foo Addr := fun s =>
  (subjects s).map (fun sub => { sub with slots := sub.slots.filter (fun slot => slot.2 ≠ f) })

end Libraries

section Deleters
variable [DecidableEq Sub] [DecidableEq Foo] [DecidableEq Addr] {lib : Library} {d : Described Sub Foo Addr}

omit [DecidableEq Sub] [DecidableEq Addr] in
theorem forgettingSame {subjects : Subjects Sub Foo Addr} {f : Foo} {s : Sub}
    (absent : ∀ sub, subjects s = some sub → ∀ a, (a,f) ∉ sub.slots) :
    forgetting subjects f s = subjects s := by
  unfold forgetting
  cases found : subjects s with
  | none => rfl
  | some sub =>
    have all : sub.slots.filter (fun slot => slot.2 ≠ f) = sub.slots := by
      refine List.filter_eq_self.mpr (fun slot mem => ?_)
      simp only [ne_eq,decide_eq_true_eq]
      intro same
      exact absent sub found slot.1 (by rw [← same]; exact mem)
    rw [Option.map_some,all]

theorem forgettingScope (linked : Linked lib d) {f : Foo} {scope : Scope Sub Addr} {sub}
    (reg : d.state.foos f = some (some scope)) (found : d.state.subjects scope.subject = some sub)
    (beat : sub.beat = scope.beat) : forgetting d.state.subjects f = remove d.state.subjects scope := by
  have slots := linked.slots scope.subject sub found
  funext s
  rcases eq_or_ne s scope.subject with rfl | other
  · rw [remove,Function.update_self,forgetting,found,Option.map_some,Option.map_some]
    refine congrArg (fun slots => some ({ sub with slots := slots } : Subject Foo Addr)) ?_
    refine List.filter_congr (fun slot mem => ?_)
    have here : (scope.address,f) ∈ sub.slots := (slots _ _).mpr (by rw [reg,beat])
    refine decide_eq_decide.mpr (not_congr ⟨fun same => ?_,fun same => ?_⟩)
    · have own := (slots slot.1 slot.2).mp mem
      rw [same,reg] at own
      exact (congrArg Scope.address (Option.some.inj (Option.some.inj own))).symm
    · have mem' : (scope.address,slot.2) ∈ sub.slots := by rw [← same]; exact mem
      exact linked.once _ sub found _ _ _ mem' here
  · rw [remove,Function.update_of_ne other]
    refine forgettingSame (fun sub' found' a mem => other ?_)
    have own := (linked.slots s sub' found' a f).mp mem
    rw [reg] at own
    exact (congrArg Scope.subject (Option.some.inj (Option.some.inj own))).symm

omit [DecidableEq Addr] in
theorem forgettingStale (linked : Linked lib d) {f : Foo} {reg : Option (Scope Sub Addr)}
    (here : d.state.foos f = some reg) (stale : ∀ scope, reg = some scope →
      (d.state.subjects scope.subject).map Subject.beat ≠ some scope.beat) :
    forgetting d.state.subjects f = d.state.subjects := by
  funext s
  refine forgettingSame (fun sub found a mem => ?_)
  have own := (linked.slots s sub found a f).mp mem
  exact stale _ (Option.some.inj (here.symm.trans own)) (by rw [found]; rfl)

theorem deleteForgets (linked : Linked lib d) {f : Foo} {reg : Option (Scope Sub Addr)}
    (here : d.state.foos f = some reg) :
    delete lib d.state.subjects reg = some (forgetting d.state.subjects f) := by
  cases reg with
  | none => rw [forgettingStale linked here (fun _ => (nomatch ·))]; rfl
  | some scope =>
    cases lib with
    | jos =>
      obtain ⟨sub,found,beat⟩ := linked.current (nomatch ·) f scope here
      have pointed : scope.address ∈ sub.slots.map Prod.fst :=
        List.mem_map.mpr ⟨(scope.address,f),(linked.slots _ sub found _ _).mpr (by rw [here,beat]),rfl⟩
      simp only [delete,josDelete,found,bind,Option.bind,if_pos pointed,forgettingScope linked here found beat]
    | lss =>
      obtain ⟨sub,found,beat⟩ := linked.current (nomatch ·) f scope here
      simp only [delete,lssDelete,found,bind,Option.bind,forgettingScope linked here found beat]
    | evl =>
      simp only [delete,evlDelete]
      split
      · next beats =>
        obtain ⟨sub,found,beat⟩ := Option.map_eq_some_iff.mp beats
        rw [forgettingScope linked here found beat]
      · next late =>
        rw [forgettingStale linked here]
        intro scope' same
        cases same
        exact late

omit [DecidableEq Foo] in
theorem removePushed {subjects : Subjects Sub Foo Addr} {scope : Scope Sub Addr} {s : Sub} {a : Addr}
    (f : Foo) (fresh : a ≠ scope.address) :
    remove (push subjects s (a,f)) scope = push (remove subjects scope) s (a,f) := by
  have last : ∀ slots : List (Addr × Foo),
      without (slots ++ [(a,f)]) scope.address = without slots scope.address ++ [(a,f)] := by
    intro slots
    simp [without,fresh]
  funext x
  unfold remove push
  rcases eq_or_ne scope.subject s with same | apart
  · subst same
    rcases eq_or_ne x scope.subject with rfl | other
    · simp only [Function.update_self,Option.map_map]
      cases subjects scope.subject with
      | none => rfl
      | some sub => simp [last]
    · simp only [Function.update_of_ne other]
  · rw [Function.update_of_ne apart,Function.update_of_ne apart.symm,Function.update_comm apart.symm]

omit [DecidableEq Foo] [DecidableEq Addr] in
theorem pushFound {subjects : Subjects Sub Foo Addr} {s x : Sub} {sub} (slot : Addr × Foo)
    (found : subjects x = some sub) : push subjects s slot x =
      some { sub with slots := if x = s then sub.slots ++ [slot] else sub.slots } := by
  unfold push
  rcases eq_or_ne x s with rfl | other
  · rw [Function.update_self,found,Option.map_some,if_pos rfl]
  · rw [Function.update_of_ne other,found,if_neg other]

omit [DecidableEq Foo] [DecidableEq Addr] in
theorem pushNone {subjects : Subjects Sub Foo Addr} {s x : Sub} (slot : Addr × Foo)
    (none : subjects x = none) : push subjects s slot x = Option.none := by
  unfold push
  rcases eq_or_ne x s with rfl | other
  · rw [Function.update_self,none]
    rfl
  · rw [Function.update_of_ne other,none]

omit [DecidableEq Foo] in
-- The slot of the new connection is not what an older deleter is after.
theorem deletePushed {subjects after : Subjects Sub Foo Addr} {reg : Option (Scope Sub Addr)}
    (ok : delete lib subjects reg = some after) {s : Sub} {a : Addr} (f : Foo)
    (fresh : ∀ scope, reg = some scope → a ≠ scope.address) :
    delete lib (push subjects s (a,f)) reg = some (push after s (a,f)) := by
  cases reg with
  | none =>
    cases Option.some.inj ok
    rfl
  | some scope =>
    have pushed := @removePushed _ _ _ _ _ subjects scope s a f (fresh scope rfl)
    cases lib with
    | jos =>
      obtain ⟨sub,found,rest⟩ := Option.bind_eq_some_iff.mp ok
      split at rest <;> try contradiction
      next pointed =>
        cases Option.some.inj rest
        have still : scope.address ∈ ((if scope.subject = s then sub.slots ++ [(a,f)] else sub.slots).map
            Prod.fst) := by
          split
          · rw [List.map_append]
            exact List.mem_append_left _ pointed
          · exact pointed
        simp only [delete,josDelete,pushFound (a,f) found,bind,Option.bind,if_pos still,pushed]
    | lss =>
      obtain ⟨sub,found,rest⟩ := Option.bind_eq_some_iff.mp ok
      cases Option.some.inj rest
      simp only [delete,lssDelete,pushFound (a,f) found,bind,Option.bind,pushed]
    | evl =>
      have beats : (push subjects s (a,f) scope.subject).map Subject.beat =
          (subjects scope.subject).map Subject.beat := by
        cases found : subjects scope.subject with
        | none => rw [pushNone (a,f) found]
        | some sub => rw [pushFound (a,f) found]; rfl
      simp only [delete,evlDelete] at ok
      simp only [delete,evlDelete,beats]
      split at ok
      · next beating =>
        cases Option.some.inj ok
        rw [if_pos beating,pushed]
      · next late =>
        cases Option.some.inj ok
        rw [if_neg late]

end Deleters

section Steps
variable [DecidableEq Sub] [DecidableEq Foo] [DecidableEq Addr] {lib : Library} {d : Described Sub Foo Addr}

omit [DecidableEq Foo] [DecidableEq Addr] in
theorem nothingLinked : Linked lib (nothing : Described Sub Foo Addr) :=
  ⟨fun _ _ => (nomatch ·),fun _ _ => (nomatch ·),fun _ _ => (nomatch ·),fun _ _ => (nomatch ·),
    fun _ _ _ => (nomatch ·),fun _ _ => (nomatch ·),fun _ => (nomatch ·)⟩

omit [DecidableEq Addr] in
theorem calleesForget (t : Table Sub Foo) (f : Foo) (s : Sub) :
    Table.callees (t.filter (fun row => row.1 ≠ f)) s = (t.callees s).filter (fun x => x ≠ f) := by
  rw [Table.callees,Table.callees,List.filter_map,List.filter_filter,List.filter_filter]
  refine congrArg (List.map Prod.fst) (List.filter_congr (fun row _ => ?_))
  rw [Function.comp_apply,Bool.and_comm]

omit [DecidableEq Foo] [DecidableEq Addr] in
theorem calleesAttach (t : Table Sub Foo) (f : Foo) (s x : Sub) :
    Table.callees (t ++ [(f,s)]) x = t.callees x ++ if s = x then [f] else [] := by
  rw [Table.callees,Table.callees,List.filter_append,List.map_append]
  split
  · next same => rw [List.filter_cons_of_pos (by simpa using same)]; rfl
  · next other => rw [List.filter_cons_of_neg (by simpa using other)]; rfl

omit [DecidableEq Addr] in
theorem forgetKeeps (linked : Linked lib d) (f : Foo) :
    Linked lib ⟨⟨forgetting d.state.subjects f,Function.update d.state.foos f none,d.state.beats⟩,
      d.table.filter (fun row => row.1 ≠ f)⟩ := by
  have from' : ∀ s sub, forgetting d.state.subjects f s = some sub → ∃ old, d.state.subjects s = some old ∧
      sub = { old with slots := old.slots.filter (fun slot => slot.2 ≠ f) } := by
    intro s sub found
    obtain ⟨old,there,same⟩ := Option.map_eq_some_iff.mp found
    exact ⟨old,there,same.symm⟩
  have other : ∀ x scope, Function.update d.state.foos f none x = some (some scope) →
      x ≠ f ∧ d.state.foos x = some (some scope) := by
    intro x scope here
    rcases eq_or_ne x f with rfl | apart
    · rw [Function.update_self] at here
      cases here
    · rw [Function.update_of_ne apart] at here
      exact ⟨apart,here⟩
  constructor
  · intro s sub found a x
    obtain ⟨old,there,rfl⟩ := from' s sub found
    simp only [List.mem_filter,linked.slots s old there,ne_eq,decide_eq_true_eq]
    constructor
    · intro held
      rw [Function.update_of_ne held.2]
      exact held.1
    · exact fun here => ⟨(other x _ here).2,(other x _ here).1⟩
  · intro s sub found a x x' mem mem'
    obtain ⟨old,there,rfl⟩ := from' s sub found
    exact linked.once s old there a x x' (List.mem_filter.mp mem).1 (List.mem_filter.mp mem').1
  · intro s sub found
    obtain ⟨old,there,rfl⟩ := from' s sub found
    exact linked.beats s old there
  · exact fun x scope here => linked.scopes x scope (other x scope here).2
  · intro guarded x scope here
    obtain ⟨old,there,beat⟩ := linked.current guarded x scope (other x scope here).2
    exact ⟨_,Option.map_eq_some_iff.mpr ⟨old,there,rfl⟩,beat⟩
  · intro s sub found
    obtain ⟨old,there,rfl⟩ := from' s sub found
    rw [calleesForget,← linked.table s old there,List.filter_map]
    rfl
  · intro row mem
    obtain ⟨old,there⟩ := Option.isSome_iff_exists.mp (linked.ends row (List.mem_filter.mp mem).1)
    simp [forgetting,there]

omit [DecidableEq Addr] in
theorem attachKeeps (linked : Linked lib d) {s : Sub} {sub} (there : d.state.subjects s = some sub) {f : Foo}
    (apart : d.state.foos f = none) {a : Addr} (fresh : a ∉ sub.slots.map Prod.fst) :
    Linked lib ⟨⟨push d.state.subjects s (a,f),
      Function.update d.state.foos f (some (some ⟨s,sub.beat,a⟩)),d.state.beats⟩,d.table ++ [(f,s)]⟩ := by
  have from' : ∀ x next, push d.state.subjects s (a,f) x = some next →
      ∃ old, d.state.subjects x = some old ∧
        next = { old with slots := if x = s then old.slots ++ [(a,f)] else old.slots } := by
    intro x next found
    cases before : d.state.subjects x with
    | none =>
      rw [pushNone _ before] at found
      cases found
    | some old =>
      rw [pushFound _ before] at found
      exact ⟨old,rfl,(Option.some.inj found).symm⟩
  have silent : ∀ x old, d.state.subjects x = some old → ∀ b, (b,f) ∉ old.slots := by
    intro x old found b mem
    have own := (linked.slots x old found b f).mp mem
    rw [apart] at own
    cases own
  have owner : ∀ y scope,
      Function.update d.state.foos f (some (some ⟨s,sub.beat,a⟩)) y = some (some scope) →
      scope = ⟨s,sub.beat,a⟩ ∨ d.state.foos y = some (some scope) := by
    intro y scope here
    rcases eq_or_ne y f with rfl | other
    · rw [Function.update_self] at here
      exact .inl (Option.some.inj (Option.some.inj here)).symm
    · rw [Function.update_of_ne other] at here
      exact .inr here
  constructor
  · intro x next found b y
    obtain ⟨old,before,rfl⟩ := from' x next found
    have slots := linked.slots x old before b
    have mine := silent x old before b
    dsimp only
    rcases eq_or_ne y f with rfl | other
    · rw [Function.update_self]
      split
      · next same =>
        subst same
        cases before.symm.trans there
        simp [mine,eq_comm]
      · next elsewhere =>
        simp [mine,Ne.symm elsewhere]
    · rw [Function.update_of_ne other,← slots]
      split
      · simp [other]
      · rfl
  · intro x next found b y y' mem mem'
    obtain ⟨old,before,rfl⟩ := from' x next found
    have once := linked.once x old before b y y'
    rcases eq_or_ne x s with rfl | elsewhere
    · cases before.symm.trans there
      simp only [if_true,List.mem_append,List.mem_singleton,Prod.mk.injEq] at mem mem'
      have known : ∀ z, (b,z) ∈ sub.slots → b ≠ a := by
        intro z held same
        exact fresh (List.mem_map.mpr ⟨(b,z),held,same⟩)
      grind
    · simp only [if_neg elsewhere] at mem mem'
      exact once mem mem'
  · intro x next found
    obtain ⟨old,before,rfl⟩ := from' x next found
    exact linked.beats x old before
  · intro y scope here
    rcases owner y scope here with rfl | before
    · exact linked.beats s sub there
    · exact linked.scopes y scope before
  · intro guarded y scope here
    rcases owner y scope here with rfl | held
    · exact ⟨_,pushFound _ there,rfl⟩
    · obtain ⟨old,before,beat⟩ := linked.current guarded y scope held
      exact ⟨_,pushFound _ before,beat⟩
  · intro x next found
    obtain ⟨old,before,rfl⟩ := from' x next found
    rw [calleesAttach,← linked.table x old before]
    rcases eq_or_ne x s with rfl | elsewhere
    · simp
    · simp [elsewhere,Ne.symm elsewhere]
  · intro row mem
    rcases List.mem_append.mp mem with before | new
    · obtain ⟨old,here⟩ := Option.isSome_iff_exists.mp (linked.ends row before)
      exact Option.isSome_iff_exists.mpr ⟨_,pushFound _ here⟩
    · cases List.mem_singleton.mp new
      exact Option.isSome_iff_exists.mpr ⟨_,pushFound _ there⟩

omit [DecidableEq Foo] [DecidableEq Addr] in
theorem subjectKeeps (linked : Linked lib d) {s : Sub} (fresh : d.state.subjects s = none) :
    Linked lib ⟨⟨Function.update d.state.subjects s (some ⟨d.state.beats,[]⟩),d.state.foos,
      d.state.beats + 1⟩,d.table⟩ := by
  have from' : ∀ x next, Function.update d.state.subjects s (some ⟨d.state.beats,[]⟩) x = some next →
      x = s ∧ next = ⟨d.state.beats,[]⟩ ∨ d.state.subjects x = some next := by
    intro x next found
    rcases eq_or_ne x s with rfl | other
    · rw [Function.update_self] at found
      exact .inl ⟨rfl,(Option.some.inj found).symm⟩
    · rw [Function.update_of_ne other] at found
      exact .inr found
  have kept : ∀ x sub, d.state.subjects x = some sub →
      Function.update d.state.subjects s (some ⟨d.state.beats,[]⟩) x = some sub := by
    intro x sub found
    have other : x ≠ s := by
      intro same
      rw [same,fresh] at found
      cases found
    rw [Function.update_of_ne other]
    exact found
  have unnamed : d.table.callees s = [] := by
    rw [Table.callees,List.map_eq_nil_iff,List.filter_eq_nil_iff]
    intro row mem same
    have there := linked.ends row mem
    rw [of_decide_eq_true same,fresh] at there
    cases there
  constructor
  · intro x next found a f
    rcases from' x next found with new | old
    · obtain ⟨rfl,rfl⟩ := new
      refine iff_of_false List.not_mem_nil (fun here => ?_)
      exact Nat.lt_irrefl _ (linked.scopes f _ here)
    · exact linked.slots x next old a f
  · intro x next found a f f' mem mem'
    rcases from' x next found with new | old
    · rw [new.2] at mem
      cases mem
    · exact linked.once x next old a f f' mem mem'
  · intro x next found
    rcases from' x next found with new | old
    · rw [new.2]
      exact Nat.lt_succ_self _
    · exact Nat.lt_succ_of_lt (linked.beats x next old)
  · exact fun f scope here => Nat.lt_succ_of_lt (linked.scopes f scope here)
  · intro guarded f scope here
    obtain ⟨sub,found,beat⟩ := linked.current guarded f scope here
    exact ⟨sub,kept _ sub found,beat⟩
  · intro x next found
    rcases from' x next found with new | old
    · obtain ⟨rfl,rfl⟩ := new
      exact unnamed.symm
    · exact linked.table x next old
  · intro row mem
    obtain ⟨sub,found⟩ := Option.isSome_iff_exists.mp (linked.ends row mem)
    exact Option.isSome_iff_exists.mpr ⟨sub,kept _ sub found⟩

omit [DecidableEq Addr] in
theorem fooKeeps (linked : Linked lib d) {f : Foo} (fresh : d.state.foos f = none) :
    Linked lib ⟨{ d.state with foos := Function.update d.state.foos f (some none) },d.table⟩ := by
  have same : ∀ x scope, Function.update d.state.foos f (some none) x = some (some scope) ↔
      d.state.foos x = some (some scope) := by
    intro x scope
    rcases eq_or_ne x f with rfl | other
    · rw [Function.update_self,fresh]
      simp
    · rw [Function.update_of_ne other]
  refine ⟨fun s sub found a x => ?_,linked.once,linked.beats,fun x scope here => ?_,
    fun guarded x scope here => ?_,linked.table,linked.ends⟩
  · rw [linked.slots s sub found]
    exact (same x _).symm
  · exact linked.scopes x scope ((same x scope).mp here)
  · exact linked.current guarded x scope ((same x scope).mp here)

omit [DecidableEq Foo] [DecidableEq Addr] in
theorem endSubjectKeeps (linked : Linked lib d) {s : Sub} (outlives : lib = .evl ∨ d.table.callees s = []) :
    Linked lib ⟨{ d.state with subjects := Function.update d.state.subjects s none },
      d.table.filter (fun row => row.2 ≠ s)⟩ := by
  have from' : ∀ x sub, Function.update d.state.subjects s none x = some sub ↔
      x ≠ s ∧ d.state.subjects x = some sub := by
    intro x sub
    rcases eq_or_ne x s with rfl | other
    · simp [Function.update_self]
    · simp [other]
  constructor
  · exact fun x sub found => linked.slots x sub ((from' x sub).mp found).2
  · exact fun x sub found => linked.once x sub ((from' x sub).mp found).2
  · exact fun x sub found => linked.beats x sub ((from' x sub).mp found).2
  · exact linked.scopes
  · intro guarded f scope here
    obtain ⟨sub,found,beat⟩ := linked.current guarded f scope here
    refine ⟨sub,(from' _ sub).mpr ⟨fun same => ?_,found⟩,beat⟩
    have mem := (linked.slots _ sub found scope.address f).mpr (by rw [here,beat])
    have named : f ∈ d.table.callees scope.subject := by
      rw [← linked.table _ sub found]
      exact List.mem_map.mpr ⟨_,mem,rfl⟩
    rw [same,outlives.resolve_left guarded] at named
    cases named
  · intro x sub found
    obtain ⟨other,there⟩ := (from' x sub).mp found
    rw [linked.table x sub there,Table.callees,Table.callees,List.filter_filter]
    refine congrArg (List.map Prod.fst) (List.filter_congr (fun row _ => ?_))
    rcases eq_or_ne row.2 x with same | apart
    · simp [same,other]
    · simp [apart]
  · intro row mem
    obtain ⟨mem,other⟩ := List.mem_filter.mp mem
    obtain ⟨sub,found⟩ := Option.isSome_iff_exists.mp (linked.ends row mem)
    exact Option.isSome_iff_exists.mpr ⟨sub,(from' _ sub).mpr ⟨of_decide_eq_true other,found⟩⟩

/-! A connection is the end of the old one and a slot at the end of its subject's list. -/

theorem regDeleted (linked : Linked lib d) (s : Sub) {f : Foo} {a : Addr} {reg : Option (Scope Sub Addr)}
    (here : d.state.foos f = some reg) (free : Free lib d.state a) :
    delete lib (push d.state.subjects s (a,f)) reg = some (push (forgetting d.state.subjects f) s (a,f)) := by
  refine deletePushed (deleteForgets linked here) f (fun scope held same => ?_)
  subst held
  rcases eq_or_ne lib .evl with guarded | unguarded
  · exact free.2 guarded f _ here _ rfl same.symm
  · obtain ⟨sub,found,beat⟩ := linked.current unguarded f scope here
    have mem := (linked.slots _ sub found scope.address f).mpr (by rw [here,beat])
    exact free.1 _ sub found (List.mem_map.mpr ⟨_,mem,same.symm⟩)

omit [DecidableEq Addr] in
theorem connectKeeps (linked : Linked lib d) {s : Sub} {f : Foo} {a : Addr} {sub}
    (there : d.state.subjects s = some sub) (free : Free lib d.state a) :
    Linked lib ⟨⟨push (forgetting d.state.subjects f) s (a,f),
      Function.update d.state.foos f (some (some ⟨s,sub.beat,a⟩)),d.state.beats⟩,
      d.table.filter (fun row => row.1 ≠ f) ++ [(f,s)]⟩ := by
  have found : forgetting d.state.subjects f s =
      some { sub with slots := sub.slots.filter (fun slot => slot.2 ≠ f) } := by
    rw [forgetting,there,Option.map_some]
  have attached := @attachKeeps _ _ _ _ _ lib _ (forgetKeeps linked f) s _ found f (Function.update_self ..) a
    (fun mem => by
      obtain ⟨slot,inside,rfl⟩ := List.mem_map.mp mem
      exact free.1 s sub there (List.mem_map_of_mem (List.mem_filter.mp inside).1))
  simpa only [Function.update_idem] using attached

variable [∀ (st : State Sub Foo Addr) use, Decidable (Legal lib st use)] {next : Described Sub Foo Addr}

theorem stepExec {use} (taken : step lib d use = some next) : Legal lib d.state use ∧
    ∃ st, exec lib d.state use = some st ∧ next = ⟨st,d.table.use use⟩ := by
  unfold step at taken
  split at taken
  · next legal =>
    obtain ⟨st,done,last⟩ := Option.bind_eq_some_iff.mp taken
    exact ⟨legal,st,done,(Option.some.inj last).symm⟩
  · contradiction

theorem stepKeeps (linked : Linked lib d) {use} (outlives : Outlives lib d use)
    (taken : step lib d use = some next) : Linked lib next := by
  obtain ⟨legal,st,done,rfl⟩ := stepExec taken
  cases use with
  | subject s =>
    cases Option.some.inj done
    exact subjectKeeps linked legal
  | foo f =>
    cases Option.some.inj done
    exact fooKeeps linked legal
  | connect s f a =>
    obtain ⟨sub,there,rest⟩ := Option.bind_eq_some_iff.mp done
    obtain ⟨reg,here,rest⟩ := Option.bind_eq_some_iff.mp rest
    rw [regDeleted linked s here legal.2.2] at rest
    cases Option.some.inj rest
    exact connectKeeps linked there legal.2.2
  | endFoo f =>
    obtain ⟨reg,here,rest⟩ := Option.bind_eq_some_iff.mp done
    rw [deleteForgets linked here] at rest
    cases Option.some.inj rest
    exact forgetKeeps linked f
  | endSubject s =>
    cases Option.some.inj done
    exact endSubjectKeeps linked outlives

omit [∀ (st : State Sub Foo Addr) use, Decidable (Legal lib st use)]

omit [DecidableEq Foo] [DecidableEq Addr] in
theorem emissionCalls (linked : Linked lib d) {s : Sub} (there : (d.state.subjects s).isSome = true) :
    emit d.state s = some (d.table.callees s) := by
  obtain ⟨sub,found⟩ := Option.isSome_iff_exists.mp there
  have live : ∀ slot ∈ sub.slots, (d.state.foos slot.2).isSome = true := by
    intro slot mem
    rw [(linked.slots s sub found slot.1 slot.2).mp mem]
    rfl
  simp only [emit,found,bind,Option.bind,if_pos live,linked.table s sub found]

theorem legalDefined (linked : Linked lib d) {use} (legal : Legal lib d.state use) :
    (exec lib d.state use).isSome = true := by
  cases use with
  | subject | foo | endSubject => rfl
  | connect s f a =>
    obtain ⟨there,here,free⟩ := legal
    obtain ⟨sub,there⟩ := Option.isSome_iff_exists.mp there
    obtain ⟨reg,here⟩ := Option.isSome_iff_exists.mp here
    simp only [exec,there,here,bind,Option.bind,regDeleted linked s here free]
    rfl
  | endFoo f =>
    obtain ⟨reg,here⟩ := Option.isSome_iff_exists.mp legal
    simp only [exec,here,bind,Option.bind,deleteForgets linked here]
    rfl

theorem linkedFaithful (linked : Linked lib d) : Faithful lib d :=
  ⟨fun _ => emissionCalls linked,fun _ => legalDefined linked⟩

-- Without its subject an unguarded deleter has nothing to run on.
theorem outlivesNeeded [∀ (st : State Sub Foo Addr) use, Decidable (Legal lib st use)] (linked : Linked lib d)
    {use} (taken : step lib d use = some next) (faithful : Faithful lib next) : Outlives lib d use := by
  obtain ⟨legal,st,done,rfl⟩ := stepExec taken
  cases use with
  | subject | foo | connect | endFoo => trivial
  | endSubject s =>
    cases Option.some.inj done
    refine Classical.or_iff_not_imp_left.mpr (fun unguarded => ?_)
    refine List.eq_nil_iff_forall_not_mem.mpr (fun f named => ?_)
    obtain ⟨sub,found⟩ := Option.isSome_iff_exists.mp legal
    rw [← linked.table s sub found] at named
    obtain ⟨slot,mem,rfl⟩ := List.mem_map.mp named
    have here := (linked.slots s sub found slot.1 slot.2).mp mem
    have left := faithful.defined (.endFoo slot.2) (by rw [Legal,here]; rfl)
    simp only [exec,here,bind,Option.bind] at left
    cases lib with
    | evl => exact unguarded rfl
    | jos | lss => simp [delete,josDelete,lssDelete,Function.update_self] at left

end Steps

/-- Along every run of each library the subjects call the Foo that stand to them, in the
order of the connections, and nothing is undefined, if and only if no subject ends before
a Foo whose deleter needs it. -/
theorem scopesFaithfulExactly [DecidableEq Sub] [DecidableEq Foo] [DecidableEq Addr] (lib : Library)
    [∀ (st : State Sub Foo Addr) use, Decidable (Legal lib st use)] (uses : List (Use Sub Foo Addr)) :
    EveryState (step lib) (Faithful lib) nothing uses ↔ EveryStep (step lib) (Outlives lib) nothing uses :=
  everyStateExact (fun _ => linkedFaithful) (fun _ _ _ linked ok taken => stepKeeps linked ok taken)
    (fun _ _ _ linked taken faithful => outlivesNeeded linked taken faithful) nothingLinked uses

def earlySubject : List (Use Unit Unit Unit) :=
  [.subject (),.foo (),.connect () () (),.endSubject (),.endFoo ()]

example : ¬ EveryStep (step .jos) (Outlives .jos) nothing earlySubject ∧
    EveryStep (step .evl) (Outlives .evl) nothing earlySubject := by decide

end SignalSlot.Scopes
