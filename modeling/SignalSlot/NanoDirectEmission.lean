import SignalSlot.NanoCopiedEmission
import Mathlib.Data.List.Forall2

/-! Slots that call the library under ST_Policy, in one thread. An emission walks the
vector of its signal itself, between two iterators that it took at the beginning, and
is undefined once the vector has changed. Until then it is the emission over a copy. -/
namespace SignalSlot.DirectEmission
open PartitionSearch GuardedRun Heap
open CopiedEmission (Call)

variable {w : Nat} {Obj : Type}

/-- An emission keeps its place and which state of the vector its iterators are of. -/
inductive Frame (w : Nat) (Obj : Type) where
  | running (slot : Option (Connection w Obj)) (program : List (Call w Obj))
  | emitting (signal : Obj) (version pos : Nat)
  deriving DecidableEq

structure State (w : Nat) (Obj : Type) where
  heap : Heap w Obj
  version : Obj → Nat
  frames : List (Frame w Obj)

section Step
variable [DecidableEq Obj]

def start (live : Obj → Bool) (program : List (Call w Obj)) : State w Obj :=
  ⟨Heap.initial live,fun _ => 0,[.running none program]⟩

-- A vector that is the same as before was not touched: nothing puts an entry back.
def versionAfter (s : State w Obj) (h : Heap w Obj) (x : Obj) : Nat :=
  if h x = s.heap x then s.version x else s.version x + 1

variable [BinarySearch]

-- `body` is what the slot does if this step calls one.
def step (layout : Layout w Obj) (s : State w Obj) (body : List (Call w Obj)) : Option (State w Obj) :=
  match s.frames with
  | [] => none
  | .running _ []::frames => some ⟨s.heap,s.version,frames⟩
  | .running slot (.op op::later)::frames => do
      let h ← Heap.step layout .st s.heap op
      some ⟨h,versionAfter s h,.running slot later::frames⟩
  | .running slot (.fire signal::later)::frames => do
      let _ ← s.heap signal
      some ⟨s.heap,s.version,.emitting signal (s.version signal) 0::.running slot later::frames⟩
  | .emitting signal version pos::frames => do
      let c ← s.heap signal
      if s.version signal ≠ version then none else match c.slots[pos]? with
      | none => some ⟨s.heap,s.version,frames⟩
      | some slot =>
          if Policy.st.observed (s.heap.alive slot.observer) then
            some ⟨s.heap,s.version,.running (some slot) body::.emitting signal version (pos + 1)::frames⟩
          else some ⟨s.heap,s.version,.emitting signal version (pos + 1)::frames⟩

/-! Both policies on the same program. -/

structure Both (w : Nat) (Obj : Type) where
  direct : State w Obj
  copied : CopiedEmission.State w Obj

def stepBoth (layout : Layout w Obj) (b : Both w Obj) (body : List (Call w Obj)) : Option (Both w Obj) := do
  let direct ← step layout b.direct body
  let copied ← CopiedEmission.step layout b.copied body
  some ⟨direct,copied⟩

omit [BinarySearch] in
def startBoth (live : Obj → Bool) (program : List (Call w Obj)) : Both w Obj :=
  ⟨start live program,CopiedEmission.start live program⟩

end Step

/-- A loop whose iterators are still those of its vector has as much to do as the loop
over the copy. -/
inductive Matches (heap : Heap w Obj) (version : Obj → Nat) :
    Frame w Obj → CopiedEmission.Frame w Obj → Prop where
  | running (slot program) : Matches heap version (.running slot program) (.running slot program)
  | emitting (signal pos c) (found : heap signal = some c) :
      Matches heap version (.emitting signal (version signal) pos) (.emitting (c.slots.drop pos))

structure Related (b : Both w Obj) : Prop where
  heap : b.copied.heap = b.direct.heap
  frames : List.Forall₂ (Matches b.direct.heap b.direct.version) b.direct.frames b.copied.frames

section Steps
variable [DecidableEq Obj] [BinarySearch] {layout : Layout w Obj}

/-- The two policies stand at the same place with the same vectors, and the next step is
defined under both or under none. -/
def Agrees (layout : Layout w Obj) (b : Both w Obj) : Prop :=
  Related b ∧ ∀ body, (step layout b.direct body).isSome = (CopiedEmission.step layout b.copied body).isSome

/-- The vector that a frame walks, if it is a loop, is the same in both heaps. -/
def Kept (before after : Heap w Obj) : Frame w Obj → Prop
  | .running _ _ => True
  | .emitting signal _ _ => after signal = before signal

/-- What the next call changes, no loop is walking. -/
def Unwalked (layout : Layout w Obj) (b : Both w Obj) (_ : List (Call w Obj)) : Prop :=
  match b.direct.frames with
  | .running _ (.op op::_)::frames =>
      ∀ h ∈ Heap.step layout .st b.direct.heap op, ∀ frame ∈ frames, Kept b.direct.heap h frame
  | _ => True

theorem visitPeersSame (self : Obj) (slots : List (Connection w Obj)) (h : Heap w Obj) :
    visitPeers .stSafe self slots h = visitPeers .st self slots h := by
  induction slots generalizing h with
  | nil => rfl
  | cons slot rest ih =>
    unfold visitPeers
    simp only [Policy.visiting,ih]

theorem opSame (layout : Layout w Obj) (h : Heap w Obj) (op : Op w Obj) :
    Heap.step layout .stSafe h op = Heap.step layout .st h op := by
  unfold Heap.step
  cases op <;> simp only [Heap.exec,Heap.destroy,Heap.disconnectAll,visitPeersSame]

/-- What one step makes of two related states: a call of the library, or the same move of
both that leaves the vectors alone. -/
inductive Moves (layout : Layout w Obj) (b : Both w Obj) (body : List (Call w Obj)) : Prop where
  | stuck (direct : step layout b.direct body = none)
      (copied : CopiedEmission.step layout b.copied body = none)
  | op (op : Op w Obj) (slot later frames copies)
      (here : b.direct.frames = .running slot (.op op::later)::frames)
      (there : b.copied.frames = .running slot (.op op::later)::copies)
      (below : List.Forall₂ (Matches b.direct.heap b.direct.version) frames copies)
  | quiet (frames copies)
      (direct : step layout b.direct body = some ⟨b.direct.heap,b.direct.version,frames⟩)
      (copied : CopiedEmission.step layout b.copied body = some ⟨b.copied.heap,copies⟩)
      (matched : List.Forall₂ (Matches b.direct.heap b.direct.version) frames copies)
      (plain : Unwalked layout b body)

theorem stepMoves {b : Both w Obj} (related : Related b) (body : List (Call w Obj)) : Moves layout b body := by
  obtain ⟨⟨h,version,frames⟩,⟨h',copies⟩⟩ := b
  obtain ⟨heap,matched⟩ := related
  dsimp only at heap matched
  subst heap
  cases matched with
  | nil => exact .stuck rfl rfl
  | @cons _ _ frames copies top below =>
    cases top with
    | running slot program =>
      cases program with
      | nil => exact .quiet _ _ rfl rfl below trivial
      | cons call later => cases call with
        | op op => exact .op op slot later _ _ rfl rfl below
        | fire signal =>
          cases found : h' signal with
          | none => exact .stuck (by simp [step,found]) (by simp [CopiedEmission.step,found])
          | some c =>
            refine .quiet (.emitting signal (version signal) 0::.running slot later::frames)
              (.emitting c.slots::.running slot later::copies) ?_ ?_ ?_ trivial
            · simp only [step,found]
              rfl
            · simp only [CopiedEmission.step,found]
              rfl
            · exact .cons (.emitting signal 0 c found) (.cons (.running slot later) below)
    | emitting signal pos c found =>
      cases here : c.slots[pos]? with
      | none =>
        have rest : c.slots.drop pos = [] := List.drop_eq_nil_of_le (List.getElem?_eq_none_iff.mp here)
        rw [rest]
        refine .quiet _ _ ?_ rfl below trivial
        simp only [step,found,bind,Option.bind,ne_eq,not_true_eq_false,if_false,here]
      | some slot =>
        obtain ⟨inside,rfl⟩ := List.getElem?_eq_some_iff.mp here
        rw [List.drop_eq_getElem_cons inside]
        refine .quiet (.running (some c.slots[pos]) body::.emitting signal (version signal) (pos + 1)::frames) _
          ?_ rfl ?_ trivial
        · simp only [step,found,bind,Option.bind,ne_eq,not_true_eq_false,if_false,here]
          rfl
        · exact .cons (.running _ body) (.cons (.emitting signal (pos + 1) c found) below)

omit [DecidableEq Obj] [BinarySearch] in
theorem matchesLoop {heap : Heap w Obj} {version : Obj → Nat} {signal v pos} {copy}
    (matched : Matches heap version (.emitting signal v pos) copy) :
    v = version signal ∧ ∃ c, heap signal = some c ∧ copy = .emitting (c.slots.drop pos) := by
  cases matched with
  | emitting _ _ c found => exact ⟨rfl,c,found,rfl⟩

omit [BinarySearch] in
theorem matchesAfter {s : State w Obj} {h : Heap w Obj} {frame : Frame w Obj} {copy}
    (matched : Matches s.heap s.version frame copy) :
    Matches h (versionAfter s h) frame copy ↔ Kept s.heap h frame := by
  cases matched with
  | running slot program => exact iff_of_true (.running slot program) trivial
  | emitting signal pos c found =>
    constructor
    · intro after
      have stamp := (matchesLoop after).1
      unfold versionAfter at stamp
      split at stamp
      · assumption
      · omega
    · intro same
      have stamp : versionAfter s h signal = s.version signal := if_pos same
      rw [← stamp]
      exact .emitting signal pos c (same.trans found)

omit [BinarySearch] in
theorem framesAfter {s : State w Obj} {h : Heap w Obj} {frames : List (Frame w Obj)} {copies}
    (matched : List.Forall₂ (Matches s.heap s.version) frames copies) :
    List.Forall₂ (Matches h (versionAfter s h)) frames copies ↔ ∀ frame ∈ frames, Kept s.heap h frame := by
  induction matched with
  | nil => exact iff_of_true .nil (fun _ => (nomatch ·))
  | cons top below ih => rw [List.forall₂_cons,List.forall_mem_cons,matchesAfter top,ih]

theorem relatedAgrees {b : Both w Obj} (related : Related b) : Agrees layout b := by
  refine ⟨related,fun body => ?_⟩
  cases @stepMoves _ _ _ _ layout _ related body with
  | stuck direct copied => rw [direct,copied]; rfl
  | quiet frames copies direct copied => rw [direct,copied]; rfl
  | op op slot later frames copies here there below =>
    simp only [step,here,CopiedEmission.step,there,opSame,related.heap]
    cases Heap.step layout .st b.direct.heap op <;> rfl

/-- After a step the two are related as before if and only if it changed no walked vector. -/
theorem stepRelated {b next : Both w Obj} {body : List (Call w Obj)} (related : Related b)
    (taken : stepBoth layout b body = some next) : Related next ↔ Unwalked layout b body := by
  obtain ⟨d,first,rest⟩ := Option.bind_eq_some_iff.mp taken
  obtain ⟨c,second,last⟩ := Option.bind_eq_some_iff.mp rest
  cases Option.some.inj last
  cases stepMoves related body with
  | stuck direct copied =>
    rw [direct] at first
    contradiction
  | quiet frames copies direct copied matched plain =>
    cases Option.some.inj (first.symm.trans direct)
    cases Option.some.inj (second.symm.trans copied)
    exact iff_of_true ⟨related.heap,matched⟩ plain
  | op op slot later frames copies here there below =>
    simp only [step,here,bind,Option.bind_eq_some_iff] at first
    obtain ⟨h,changed,made⟩ := first
    cases Option.some.inj made
    simp only [CopiedEmission.step,there,opSame,related.heap,changed,bind,Option.bind] at second
    cases Option.some.inj second
    have unwalked : Unwalked layout b body ↔ ∀ frame ∈ frames, Kept b.direct.heap h frame := by
      unfold Unwalked
      rw [here]
      simp only [changed,Option.mem_def,Option.some.injEq,forall_eq']
    rw [unwalked,← framesAfter below]
    constructor
    · intro after
      exact (List.forall₂_cons.mp after.frames).2
    · exact fun below => ⟨rfl,.cons (.running slot later) below⟩

end Steps

/-- ST_Policy is ST_Policy_Safe without the copies, in every state of a run, if and only if
no step of the run changes a vector that an emission is walking. -/
theorem directAgreesExactly [DecidableEq Obj] [BinarySearch] (layout : Layout w Obj) (live : Obj → Bool)
    (program : List (Call w Obj)) (bodies : List (List (Call w Obj))) :
    EveryState (stepBoth layout) (Agrees layout) (startBoth live program) bodies ↔
      EveryStep (stepBoth layout) (Unwalked layout) (startBoth live program) bodies :=
  everyStateExact (fun _ => relatedAgrees)
    (fun _ _ _ related unwalked taken => (stepRelated related taken).mpr unwalked)
    (fun _ _ _ related taken agrees => (stepRelated related taken).mp agrees.1)
    ⟨rfl,.cons (.running none program) .nil⟩ bodies

/-! The slot of one receiver cuts the connection of the other while both are being called,
as the feature tests do. -/
def cuttingProgram : List (Call 64 Party) :=
  [.op (.connect .signal (.bindInstance 0x7 0x1000)),
    .op (.connect .signal (.bindInstance 0x7 0x2000)),.fire .signal]

def cuttingBodies : List (List (Call 64 Party)) :=
  [[],[],[],[.op (.disconnect .signal (.bindInstance 0x7 0x2000))],[],[],[]]

example : (run (@step _ _ _ linearSearch partyLayout) (start (fun _ => true) cuttingProgram)
      cuttingBodies).isSome = false ∧
    (run (@CopiedEmission.step _ _ _ linearSearch partyLayout)
      (CopiedEmission.start (fun _ => true) cuttingProgram) cuttingBodies).isSome = true := by
  decide +kernel

end SignalSlot.DirectEmission
