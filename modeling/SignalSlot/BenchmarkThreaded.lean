import SignalSlot.BenchmarkNano
import SignalSlot.NanoDestructorBarrier
import SignalSlot.NanoDisconnectCycle
import SignalSlot.NanoLockDiscipline

/-! The threaded benchmark over TS_Policy_Safe. Every thread connects the elements of
its own vectors of Foo to one subject, fires the subject and destroys the elements, so
that it calls handlers of the other threads' elements while these are being destroyed. -/
namespace SignalSlot.BenchmarkThreaded
open PartitionSearch GuardedRun Tracker BenchmarkNano

variable {w N : Nat} {Obj Tid : Type}

/-- The vectors of every thread. All Foo of a run stand at different addresses: none gets
the storage that one of an earlier vector, or of another thread, has left. -/
structure Crew (w N : Nat) (Obj Tid : Type) where
  bench : Bench w Obj
  subject : Obj
  batches : Tid → List { p : Placed Obj N // p.subject = subject }
  distinct : ∀ t, ((batches t).flatMap (fun p => p.val.foos)).Nodup
  apart : ∀ t u x, x ∈ (batches t).flatMap (fun p => p.val.foos) →
    x ∈ (batches u).flatMap (fun p => p.val.foos) → t = u

namespace Crew
variable (crew : Crew w N Obj Tid)

def foos (t : Tid) : List Obj := (crew.batches t).flatMap (fun p => p.val.foos)

def key (x : Obj) : DelegateKey w := crew.bench.key x

-- One iteration of `context`; the vector is destroyed where its block ends.
def iteration (p : Placed Obj N) : List (Call w Obj) :=
  p.foos.map (fun x => .connect p.subject (crew.bench.handler x)) ++
    .fire p.subject::p.leaving.map .destroy

def program (t : Tid) : List (Call w Obj) := (crew.batches t).flatMap (fun p => crew.iteration p.val)

def begin [DecidableEq Obj] : State w Obj Tid := start (fun _ => .empty) (fun _ => true) crew.program

def Planned (t : Tid) : List (Call w Obj) → Prop
  | [] => True
  | call::later => (match call with
      | .connect s f =>
          s = crew.subject ∧ ∃ x ∈ crew.foos t, f = crew.bench.handler x ∧ .destroy x ∈ later
      | .fire s => s = crew.subject
      | .destroy x => x ∈ crew.foos t ∧ .destroy x ∉ later
      | _ => False) ∧ Planned t later

/-- The entry that an element keeps for the subject. -/
def back (x : Obj) : Connection w (Option Obj) := ⟨crew.key x,some crew.subject⟩

/-- The destructor of an element has begun, once and for all. -/
def Ending (t : Tid) (left : List (Call w Obj)) (x : Obj) : Prop := x ∈ crew.foos t ∧ .destroy x ∉ left

def Working (t : Tid) (left : List (Call w Obj)) : Section w Obj → Prop
  | .update (.insert y k o) rest => ∃ x ∈ crew.foos t, .destroy x ∈ left ∧ k = crew.key x ∧
      (y = crew.subject ∧ o = x ∧ rest = [.insert x (crew.key x) crew.subject] ∨
        y = x ∧ o = crew.subject ∧ rest = [])
  | .copy s => s = crew.subject
  | .clear x => crew.Ending t left x
  | .forget x slot rest =>
      crew.Ending t left x ∧ slot = ⟨crew.key x,crew.subject⟩ ∧ ∀ e ∈ rest, e = crew.back x
  | _ => False

def Shaped (t : Tid) (left : List (Call w Obj)) : Pc w Obj → Prop
  | .idle | .emitting _ => True
  | .locking work | .inside work => crew.Working t left work
  | .visiting x rest | .releasing x _ rest => crew.Ending t left x ∧ ∀ e ∈ rest, e = crew.back x
  | .waiting x | .pinging x | .pinged x => crew.Ending t left x

end Crew

/-- The calls that a thread has still to make; the handlers make none. -/
def left (th : Thread w Obj) : List (Call w Obj) := th.program ++ th.suspended.flatMap Emission.program

/-- The destructor of an element has still to run, or to reach the subject. -/
def Pending (x : Obj) (th : Thread w Obj) : Prop := .destroy x ∈ left th ∨ match th.pc with
  | .waiting y | .pinging y | .pinged y | .locking (.clear y) | .inside (.clear y)
  | .locking (.forget y _ _) | .inside (.forget y _ _) => y = x
  | .visiting y rest => y = x ∧ rest ≠ []
  | _ => False

/-- The destructor of an element has still to run, or to clear its vector. -/
def Leaving (x : Obj) (th : Thread w Obj) : Prop := .destroy x ∈ left th ∨ match th.pc with
  | .waiting y | .pinging y | .pinged y | .locking (.clear y) | .inside (.clear y)
  | .locking (.forget y _ _) | .inside (.forget y _ _) | .visiting y _ | .releasing y _ _ => y = x
  | _ => False

/-- An element stands in the subject's vector already and not yet in its own. -/
def Backing (x : Obj) (pc : Pc w Obj) : Prop :=
  ∃ k o rest, pc = .locking (.update (.insert x k o) rest) ∨ pc = .inside (.update (.insert x k o) rest)

section Programs
variable {crew : Crew w N Obj Tid} {t : Tid}

theorem plannedDestroys {xs : List Obj} {later : List (Call w Obj)} (distinct : xs.Nodup)
    (own : ∀ x ∈ xs, x ∈ crew.foos t ∧ .destroy x ∉ later) (planned : crew.Planned t later) :
    crew.Planned t (xs.map .destroy ++ later) := by
  induction xs with
  | nil => exact planned
  | cons x rest ih =>
    obtain ⟨once,distinct⟩ := List.nodup_cons.mp distinct
    obtain ⟨⟨mine,first⟩,own⟩ := List.forall_mem_cons.mp own
    refine ⟨⟨mine,fun again => ?_⟩,ih distinct own⟩
    rcases List.mem_append.mp again with here | there
    · obtain ⟨y,mem,same⟩ := List.mem_map.mp here
      cases same
      exact once mem
    · exact first there

theorem plannedConnects {xs : List Obj} {later : List (Call w Obj)}
    (own : ∀ x ∈ xs, x ∈ crew.foos t ∧ .destroy x ∈ later) (planned : crew.Planned t later) :
    crew.Planned t (xs.map (fun x => .connect crew.subject (crew.bench.handler x)) ++ later) := by
  induction xs with
  | nil => exact planned
  | cons x rest ih =>
    obtain ⟨⟨mine,left⟩,own⟩ := List.forall_mem_cons.mp own
    exact ⟨⟨rfl,x,mine,rfl,List.mem_append_right _ left⟩,ih own⟩

theorem destroyIteration {p : Placed Obj N} {x : Obj} : .destroy x ∈ crew.iteration p ↔ x ∈ p.foos := by
  simp [Crew.iteration,p.leave.mem_iff]

theorem plannedIterations (batches : List { p : Placed Obj N // p.subject = crew.subject })
    (mine : ∀ p ∈ batches, ∀ x ∈ p.val.foos, x ∈ crew.foos t)
    (distinct : (batches.flatMap (fun p => p.val.foos)).Nodup) :
    crew.Planned t (batches.flatMap (fun p => crew.iteration p.val)) := by
  induction batches with
  | nil => trivial
  | cons p rest ih =>
    obtain ⟨here,mine⟩ := List.forall_mem_cons.mp mine
    rw [List.flatMap_cons,List.nodup_append] at distinct
    obtain ⟨once,distinct,apart⟩ := distinct
    have later := ih mine distinct
    have gone : ∀ x ∈ p.val.foos,
        Call.destroy x ∉ rest.flatMap (fun p => crew.iteration p.val) := by
      intro x mem again
      obtain ⟨q,there,inside⟩ := List.mem_flatMap.mp again
      exact apart x mem x (List.mem_flatMap.mpr ⟨q,there,destroyIteration.mp inside⟩) rfl
    rw [List.flatMap_cons,Crew.iteration,p.property,List.append_assoc,List.cons_append]
    refine plannedConnects (fun x mem => ⟨here x mem,?_⟩) ⟨rfl,plannedDestroys ?_ (fun x mem => ?_) later⟩
    · have left := p.val.leave.mem_iff.mpr mem
      exact List.mem_cons_of_mem _ (List.mem_append_left _ (List.mem_map.mpr ⟨x,left,rfl⟩))
    · exact p.val.leave.nodup_iff.mpr once
    · have element := p.val.leave.mem_iff.mp mem
      exact ⟨here x element,gone x element⟩

theorem plannedProgram (t : Tid) : crew.Planned t (crew.program t) :=
  plannedIterations _ (fun p mem _ inside => List.mem_flatMap.mpr ⟨p,mem,inside⟩) (crew.distinct t)

theorem subjectApart {x : Obj} (mine : x ∈ crew.foos t) : x ≠ crew.subject := by
  obtain ⟨p,_,inside⟩ := List.mem_flatMap.mp mine
  exact fun same => p.val.apart (p.property.trans same.symm ▸ inside)

theorem insertsOwn (x : Obj) : insertSfinae crew.bench.layout crew.subject (crew.key x) =
    [.insert crew.subject (crew.key x) x,.insert x (crew.key x) crew.subject] := by
  have own : crew.bench.layout.observerOf (crew.key x) = some x := crew.bench.own x
  simp only [insertSfinae,own]

theorem beginShaped {call : Call w Obj} {later pc} (planned : crew.Planned t (call::later))
    (started : call.begin crew.bench.layout = some pc) : crew.Shaped t later pc := by
  cases call with
  | connect s f =>
    obtain ⟨⟨rfl,x,mine,rfl,left⟩,_⟩ := planned
    simp only [Call.begin,show (crew.bench.handler x).delegateKey = crew.key x from rfl,insertsOwn] at started
    cases Option.some.inj started
    exact ⟨x,mine,left,rfl,.inl ⟨rfl,rfl,rfl⟩⟩
  | fire s =>
    cases Option.some.inj started
    exact planned.1
  | destroy x => contradiction
  | disconnect s f | disconnectAll x | isEmpty x => exact planned.1.elim

end Programs

section Moves
variable [DecidableEq Obj] [BinarySearch] {crew : Crew w N Obj Tid} {t : Tid} {g g' : Shared w Obj Tid}
  {th th' : Thread w Obj}

theorem workShaped {work : Section w Obj} {calls : List (Call w Obj)} (working : crew.Working t calls work)
    (backed : ∀ x ∈ crew.foos t, ∀ e ∈ (g.connections x).slots, e = crew.back x) :
    crew.Shaped t calls (work.exec g).2 := by
  cases work with
  | update u rest =>
    cases u with
    | remove y k => exact working.elim
    | insert y k o =>
      obtain ⟨x,mine,left,rfl,⟨rfl,rfl,rfl⟩ | ⟨rfl,rfl,rfl⟩⟩ := working
      · exact ⟨_,mine,left,rfl,.inr ⟨rfl,rfl,rfl⟩⟩
      · trivial
  | isEmpty x => exact working.elim
  | copy s => trivial
  | clear x => exact ⟨working,backed x working.1⟩
  | forget x slot rest => exact ⟨working.1,working.2.2⟩

/-- The program and the point of a thread after a step of its own. -/
structure Follows (crew : Crew w N Obj Tid) (t : Tid) (th th' : Thread w Obj) : Prop where
  planned : crew.Planned t (left th')
  shaped : crew.Shaped t (left th') th'.pc
  fewer : left th' = left th ∨ ∃ call, left th = call::left th' ∧ th.pc = .idle

theorem moveFollows (move : Move crew.bench.layout t [] g th g' th') (planned : crew.Planned t (left th))
    (shaped : crew.Shaped t (left th) th.pc)
    (backed : ∀ x ∈ crew.foos t, ∀ e ∈ (g.connections x).slots, e = crew.back x) :
    Follows crew t th th' := by
  cases move with
  | returns => exact ⟨planned,trivial,.inl rfl⟩
  | destroys live => exact ⟨planned.2,planned.1,.inr ⟨_,rfl,rfl⟩⟩
  | begins started => exact ⟨planned.2,beginShaped planned started,.inr ⟨_,rfl,rfl⟩⟩
  | locks free => exact ⟨planned,shaped,.inl rfl⟩
  | works => exact ⟨planned,workShaped shaped backed,.inl rfl⟩
  | emitted => exact ⟨planned,trivial,.inl rfl⟩
  | skips gone => exact ⟨planned,trivial,.inl rfl⟩
  | calls found => exact ⟨planned,trivial,.inl rfl⟩
  | clears => exact ⟨planned,trivial,.inl rfl⟩
  | passes gone => exact ⟨planned,⟨shaped.1,fun e mem => shaped.2 e (List.mem_cons_of_mem _ mem)⟩,.inl rfl⟩
  | visits found =>
    rename_i x slot rest program outer peer
    have entry := shaped.2 slot List.mem_cons_self
    have same : some crew.subject = some peer := by
      rw [← (visitingSome.mp found).2.1,entry]
      rfl
    cases Option.some.inj same
    refine ⟨planned,⟨shaped.1,?_,fun e mem => shaped.2 e (List.mem_cons_of_mem _ mem)⟩,.inl rfl⟩
    rw [entry]
    rfl
  | leaves => exact ⟨planned,shaped,.inl rfl⟩
  | expires expired | finishes expired => exact ⟨planned,shaped,.inl rfl⟩
  | pings lingering => exact ⟨planned,shaped,.inl rfl⟩
  | drops => exact ⟨planned,shaped,.inl rfl⟩

/-! What a step writes to the vectors. -/
inductive Writes (crew : Crew w N Obj Tid) (t : Tid) (g g' : Shared w Obj Tid) (th th' : Thread w Obj) : Prop where
  | nothing (same : g'.connections = g.connections)
      (unforgets : ∀ x slot rest, th.pc ≠ .inside (.forget x slot rest))
      (unclears : ∀ x, th.pc ≠ .visiting x []) (unbacks : ∀ x, Backing x th.pc → Backing x th'.pc)
  | links (x : Obj) (mine : x ∈ crew.foos t) (due : .destroy x ∈ left th')
      (before : ∃ rest, th.pc = .inside (.update (.insert crew.subject (crew.key x) x) rest))
      (after : Backing x th'.pc) (vector : g'.connections = Function.update g.connections crew.subject
        ((g.connections crew.subject).insert (crew.key x) (g.weakPtr x)))
  | backs (x : Obj) (mine : x ∈ crew.foos t) (due : .destroy x ∈ left th')
      (before : ∃ k o rest, th.pc = .inside (.update (.insert x k o) rest))
      (vector : g'.connections = Function.update g.connections x
        ((g.connections x).insert (crew.key x) (g.weakPtr crew.subject)))
  | forgets (x : Obj) (mine : x ∈ crew.foos t) (before : ∃ slot rest, th.pc = .inside (.forget x slot rest))
      (vector : g'.connections = Function.update g.connections crew.subject
        ((g.connections crew.subject).remove (crew.key x)))
  | clears (x : Obj) (mine : x ∈ crew.foos t) (before : th.pc = .visiting x [])
      (vector : g'.connections = Function.update g.connections x .empty)

theorem moveWrites (move : Move crew.bench.layout t [] g th g' th') (shaped : crew.Shaped t (left th) th.pc) :
    Writes crew t g g' th th' := by
  have quiet {pc program outer} (unlocked : ∀ work, pc ≠ .locking work)
      (outside : ∀ work, pc ≠ .inside work) (unclears : ∀ x, pc ≠ .visiting x [])
      (same : g'.connections = g.connections) :
      Writes crew t g g' ⟨pc,program,outer⟩ th' := by
    refine .nothing same (fun x slot rest => outside _) unclears (fun x backing => ?_)
    obtain ⟨k,o,rest,here | here⟩ := backing
    · exact absurd here (unlocked _)
    · exact absurd here (outside _)
  cases move with
  | locks free =>
    refine .nothing rfl (fun _ _ _ => (nomatch ·)) (fun _ => (nomatch ·)) (fun x backing => ?_)
    obtain ⟨k,o,rest,here | here⟩ := backing
    · cases here
      exact ⟨k,o,rest,.inr rfl⟩
    · cases here
  | works =>
    rename_i work program outer
    cases work with
    | update u rest =>
      cases u with
      | remove y k => exact shaped.elim
      | insert y k o =>
        obtain ⟨x,mine,due,rfl,⟨rfl,rfl,rfl⟩ | ⟨rfl,rfl,rfl⟩⟩ := shaped
        · exact .links _ mine due ⟨_,rfl⟩ ⟨_,_,_,.inl rfl⟩ rfl
        · exact .backs _ mine due ⟨_,_,_,rfl⟩ rfl
    | isEmpty x => exact shaped.elim
    | copy y | clear y =>
      refine .nothing rfl (fun _ _ _ => (nomatch ·)) (fun _ => (nomatch ·)) (fun x backing => ?_)
      obtain ⟨k,o,rest,here | here⟩ := backing <;> cases here
    | forget x slot rest =>
      obtain ⟨ending,rfl,_⟩ := shaped
      exact .forgets x ending.1 ⟨_,_,rfl⟩ rfl
  | clears => exact .clears _ shaped.1.1 rfl rfl
  | passes | visits =>
    exact quiet (fun _ => (nomatch ·)) (fun _ => (nomatch ·)) (fun _ => (nomatch ·)) rfl
  | _ => exact quiet (fun _ => (nomatch ·)) (fun _ => (nomatch ·)) (fun _ => (nomatch ·)) rfl

theorem moveDue {x : Obj} (move : Move crew.bench.layout t [] g th g' th') (due : .destroy x ∈ left th) :
    .destroy x ∈ left th' ∨ th'.pc = .waiting x := by
  cases move with
  | destroys live =>
    rcases List.mem_cons.mp due with here | later
    · cases here
      exact .inr rfl
    · exact .inl later
  | begins started =>
    rcases List.mem_cons.mp due with here | later
    · cases here
      contradiction
    · exact .inl later
  | _ => exact .inl due

theorem moveLeaving {x : Obj} (move : Move crew.bench.layout t [] g th g' th') (leaving : Leaving x th) :
    Leaving x th' ∨ th.pc = .visiting x [] := by
  rcases leaving with due | phase
  · rcases moveDue move due with due | waits
    · exact .inl (.inl due)
    · refine .inl (.inr ?_)
      rw [waits]
  · cases move with
    | locks free =>
      rename_i work program outer
      cases work with
      | clear y | forget y slot rest => exact .inl (.inr phase)
      | update | isEmpty | copy => exact phase.elim
    | works =>
      rename_i work program outer
      cases work with
      | clear y | forget y slot rest => exact .inl (.inr phase)
      | update | isEmpty | copy => exact phase.elim
    | clears =>
      cases phase
      exact .inr rfl
    | passes | visits | leaves | expires | finishes | pings | drops => exact .inl (.inr phase)
    | _ => exact phase.elim

theorem movePending {x : Obj} (move : Move crew.bench.layout t [] g th g' th')
    (shaped : crew.Shaped t (left th) th.pc) (counted : 0 < g.useCount crew.subject) (pending : Pending x th)
    (backed : (g.connections x).slots ≠ [] ∨ Backing x th.pc) :
    Pending x th' ∨ ∃ slot rest, th.pc = .inside (.forget x slot rest) := by
  rcases pending with due | phase
  · rcases moveDue move due with due | waits
    · exact .inl (.inl due)
    · refine .inl (.inr ?_)
      rw [waits]
  · cases move with
    | locks free =>
      rename_i work program outer
      cases work with
      | clear y | forget y slot rest => exact .inl (.inr phase)
      | update | isEmpty | copy => exact phase.elim
    | works =>
      rename_i work program outer
      cases work with
      | clear y =>
        cases phase
        rcases backed with held | ⟨k,o,rest,here | here⟩
        · exact .inl (.inr ⟨rfl,held⟩)
        · cases here
        · cases here
      | forget y slot rest =>
        cases phase
        exact .inr ⟨_,_,rfl⟩
      | update | isEmpty | copy => exact phase.elim
    | clears => exact absurd rfl phase.2
    | passes gone =>
      -- The entry is for the subject, which is neither the element itself nor expired.
      rename_i y slot rest program outer
      have entry := shaped.2 slot List.mem_cons_self
      have other : y ≠ crew.subject := subjectApart shaped.1.1
      have own : some crew.subject ≠ g.weakPtr y := by
        unfold Shared.weakPtr
        split
        · exact fun same => other (Option.some.inj same).symm
        · exact (nomatch ·)
      have found : g.visiting y slot.observer = some crew.subject := by
        rw [entry]
        exact visitingSome.mpr ⟨own,rfl,counted⟩
      cases gone.symm.trans found
    | visits found => exact .inl (.inr phase.1)
    | expires | finishes | pings | drops => exact .inl (.inr phase)
    | _ => exact phase.elim

theorem moveTracked {x : Obj} (move : Move crew.bench.layout t [] g th g' th')
    (planned : crew.Planned t (left th)) (tracked : g.tracker x = true ↔ .destroy x ∈ left th) :
    g'.tracker x = true ↔ .destroy x ∈ left th' := by
  cases move with
  | destroys live =>
    rename_i y later outer
    rw [trackerReset]
    split
    · next same =>
      subst same
      exact ⟨(nomatch ·),fun again => absurd again planned.1.2⟩
    · next other =>
      refine tracked.trans ⟨fun mem => ?_,List.mem_cons_of_mem _⟩
      rcases List.mem_cons.mp mem with here | later
      · cases here
        exact absurd rfl other
      · exact later
  | begins started =>
    refine tracked.trans ⟨fun mem => ?_,List.mem_cons_of_mem _⟩
    rcases List.mem_cons.mp mem with here | later
    · cases here
      contradiction
    · exact later
  | works =>
    rw [trackerExec]
    exact tracked
  | _ => exact tracked

omit [DecidableEq Obj] [BinarySearch] in
theorem backingTarget {pc : Pc w Obj} {x y : Obj} {k o rest} (here : pc = .inside (.update (.insert y k o) rest))
    (backing : Backing x pc) : x = y := by
  obtain ⟨k,o,rest,there | there⟩ := backing
  · cases here.symm.trans there
  · cases here.symm.trans there
    rfl

omit [DecidableEq Obj] in
theorem insertNonempty (c : Connections w (Option Obj)) (key : DelegateKey w) (observer : Option Obj) :
    (c.insert key observer).slots ≠ [] := by
  intro none
  have perm := Connections.insertPerm c key observer
  rw [none] at perm
  cases perm.symm.eq_nil

end Moves

section Steps
variable [DecidableEq Obj] [DecidableEq Tid] [BinarySearch] {crew : Crew w N Obj Tid}
  {s next : State w Obj Tid} {t : Tid}

structure Inv (crew : Crew w N Obj Tid) (s : State w Obj Tid) : Prop where
  planned : ∀ t, crew.Planned t (left (s.threads t))
  shaped : ∀ t, crew.Shaped t (left (s.threads t)) (s.threads t).pc
  live : s.shared.tracker crew.subject = true
  tracked : ∀ t, ∀ x ∈ crew.foos t, s.shared.tracker x = true ↔ .destroy x ∈ left (s.threads t)
  linked : ∀ e ∈ (s.shared.connections crew.subject).slots, ∃ t, ∃ x ∈ crew.foos t,
    e.delegate = crew.key x ∧ Pending x (s.threads t) ∧
      ((s.shared.connections x).slots ≠ [] ∨ Backing x (s.threads t).pc)
  backed : ∀ t, ∀ x ∈ crew.foos t, ∀ e ∈ (s.shared.connections x).slots,
    e = crew.back x ∧ Leaving x (s.threads t)

omit [DecidableEq Tid] [BinarySearch] in
theorem beginInv : Inv crew crew.begin := by
  have whole : ∀ t, left (crew.begin.threads t) = crew.program t := fun t => List.append_nil _
  refine ⟨fun t => ?_,fun _ => trivial,rfl,fun t x mine => ⟨fun _ => ?_,fun _ => rfl⟩,fun e => (nomatch ·),
    fun t x mine e => (nomatch ·)⟩
  · rw [whole]
    exact plannedProgram t
  · obtain ⟨p,mem,inside⟩ := List.mem_flatMap.mp mine
    rw [whole]
    exact List.mem_flatMap.mpr ⟨p,mem,destroyIteration.mpr inside⟩

omit [DecidableEq Tid]

section OneStep
variable (inv : Inv crew s)
  (move : Move crew.bench.layout t [] s.shared (s.threads t) next.shared (next.threads t))
  (others : ∀ u, u ≠ t → next.threads u = s.threads u)
include inv move

theorem followsOwn : Follows crew t (s.threads t) (next.threads t) :=
  moveFollows move (inv.planned t) (inv.shaped t) (fun x mine e mem => (inv.backed t x mine e mem).1)

include others

theorem trackedKeeps (u : Tid) {x} (mine : x ∈ crew.foos u) :
    next.shared.tracker x = true ↔ .destroy x ∈ left (next.threads u) := by
  rcases eq_or_ne u t with rfl | other
  · exact moveTracked move (inv.planned u) (inv.tracked u x mine)
  · rw [others u other,← inv.tracked u x mine]
    rcases DestructorBarrier.moveTracker (x := x) move with same | ⟨_,_,waits⟩
    · rw [same]
    · have shaped := (followsOwn inv move).shaped
      rw [waits] at shaped
      exact absurd (crew.apart u t x mine shaped.1) other

theorem pendingKeeps (counted : 0 < s.shared.useCount crew.subject) {u x} (pending : Pending x (s.threads u))
    (backed : (s.shared.connections x).slots ≠ [] ∨ Backing x (s.threads u).pc)
    (unforgets : ∀ slot rest, (s.threads t).pc ≠ .inside (.forget x slot rest)) :
    Pending x (next.threads u) := by
  rcases eq_or_ne u t with rfl | other
  · rcases movePending move (inv.shaped u) counted pending backed with still | ⟨slot,rest,here⟩
    · exact still
    · exact absurd here (unforgets slot rest)
  · rw [others u other]
    exact pending

theorem linkedKeeps (counted : 0 < s.shared.useCount crew.subject)
    {e} (mem : e ∈ (next.shared.connections crew.subject).slots) :
    ∃ t, ∃ x ∈ crew.foos t, e.delegate = crew.key x ∧ Pending x (next.threads t) ∧
      ((next.shared.connections x).slots ≠ [] ∨ Backing x (next.threads t).pc) := by
  cases moveWrites move (inv.shaped t) with
  | nothing same unforgets unclears unbacks =>
    rw [same] at mem
    obtain ⟨u,x,mine,named,pending,backed⟩ := inv.linked e mem
    refine ⟨u,x,mine,named,pendingKeeps inv move others counted pending backed (unforgets x),?_⟩
    rw [same]
    refine backed.imp id (fun backing => ?_)
    rcases eq_or_ne u t with rfl | other
    · exact unbacks x backing
    · exact others u other ▸ backing
  | links y own due before after vector =>
    obtain ⟨last,before⟩ := before
    rw [vector,Function.update_self] at mem
    rcases List.mem_cons.mp ((Connections.insertPerm _ _ _).mem_iff.mp mem) with rfl | mem
    · exact ⟨t,y,own,rfl,.inl due,.inr after⟩
    · obtain ⟨u,x,mine,named,pending,backed⟩ := inv.linked e mem
      refine ⟨u,x,mine,named,pendingKeeps inv move others counted pending backed ?_,?_⟩
      · exact fun slot rest here => nomatch before.symm.trans here
      · rw [vector,Function.update_of_ne (subjectApart mine)]
        refine backed.imp id (fun backing => ?_)
        rcases eq_or_ne u t with rfl | other
        · exact absurd (backingTarget before backing) (subjectApart mine)
        · exact others u other ▸ backing
  | backs y own due before vector =>
    obtain ⟨k,o,last,before⟩ := before
    rw [vector,Function.update_of_ne (Ne.symm (subjectApart own))] at mem
    obtain ⟨u,x,mine,named,pending,backed⟩ := inv.linked e mem
    refine ⟨u,x,mine,named,pendingKeeps inv move others counted pending backed ?_,?_⟩
    · exact fun slot rest here => nomatch before.symm.trans here
    · rw [vector]
      rcases eq_or_ne x y with rfl | apart
      · rw [Function.update_self]
        exact .inl (insertNonempty _ _ _)
      · rw [Function.update_of_ne apart]
        refine backed.imp id (fun backing => ?_)
        rcases eq_or_ne u t with rfl | other
        · exact absurd (backingTarget before backing) apart
        · exact others u other ▸ backing
  | forgets y own before vector =>
    obtain ⟨slot,last,before⟩ := before
    rw [vector,Function.update_self,Connections.removeSlots,List.mem_filter,decide_eq_true_eq] at mem
    obtain ⟨u,x,mine,named,pending,backed⟩ := inv.linked e mem.1
    refine ⟨u,x,mine,named,pendingKeeps inv move others counted pending backed ?_,?_⟩
    · intro slot rest here
      cases before.symm.trans here
      exact mem.2 named
    · rw [vector,Function.update_of_ne (subjectApart mine)]
      refine backed.imp id (fun backing => ?_)
      rcases eq_or_ne u t with rfl | other
      · obtain ⟨k,o,rest,here | here⟩ := backing <;> cases before.symm.trans here
      · exact others u other ▸ backing
  | clears y own before vector =>
    rw [vector,Function.update_of_ne (Ne.symm (subjectApart own))] at mem
    obtain ⟨u,x,mine,named,pending,backed⟩ := inv.linked e mem
    have still := pendingKeeps inv move others counted pending backed
      (fun slot rest here => nomatch before.symm.trans here)
    refine ⟨u,x,mine,named,still,?_⟩
    have apart : x ≠ y := by
      rintro rfl
      cases crew.apart u t x mine own
      have shaped := inv.shaped t
      rw [before] at shaped
      rcases pending with due | phase
      · exact shaped.1.2 due
      · rw [before] at phase
        exact phase.2 rfl
    rw [vector,Function.update_of_ne apart]
    refine backed.imp id (fun backing => ?_)
    rcases eq_or_ne u t with rfl | other
    · obtain ⟨k,o,rest,here | here⟩ := backing <;> cases before.symm.trans here
    · exact others u other ▸ backing

omit inv in
theorem leavingKeeps {u x} (leaving : Leaving x (s.threads u)) (unclears : (s.threads t).pc ≠ .visiting x []) :
    Leaving x (next.threads u) := by
  rcases eq_or_ne u t with rfl | other
  · exact (moveLeaving move leaving).resolve_right unclears
  · rw [others u other]
    exact leaving

theorem backedKeeps (u : Tid) {x} (mine : x ∈ crew.foos u) {e}
    (mem : e ∈ (next.shared.connections x).slots) : e = crew.back x ∧ Leaving x (next.threads u) := by
  cases moveWrites move (inv.shaped t) with
  | nothing same unforgets unclears unbacks =>
    rw [same] at mem
    exact (inv.backed u x mine e mem).imp_right (fun leaving => leavingKeeps move others leaving (unclears x))
  | links y own due before after vector =>
    obtain ⟨last,before⟩ := before
    rw [vector,Function.update_of_ne (subjectApart mine)] at mem
    exact (inv.backed u x mine e mem).imp_right (fun leaving => leavingKeeps move others leaving
      (fun here => nomatch before.symm.trans here))
  | backs y own due before vector =>
    obtain ⟨k,o,last,before⟩ := before
    have unclears : (s.threads t).pc ≠ .visiting x [] := fun here => nomatch before.symm.trans here
    rw [vector] at mem
    rcases eq_or_ne x y with rfl | apart
    · cases crew.apart u t x mine own
      rw [Function.update_self] at mem
      rcases List.mem_cons.mp ((Connections.insertPerm _ _ _).mem_iff.mp mem) with rfl | mem
      · refine ⟨?_,.inl due⟩
        rw [Shared.weakPtr,if_pos inv.live]
        rfl
      · exact ⟨(inv.backed t x mine e mem).1,.inl due⟩
    · rw [Function.update_of_ne apart] at mem
      exact (inv.backed u x mine e mem).imp_right (fun leaving => leavingKeeps move others leaving unclears)
  | forgets y own before vector =>
    obtain ⟨slot,last,before⟩ := before
    rw [vector,Function.update_of_ne (subjectApart mine)] at mem
    exact (inv.backed u x mine e mem).imp_right (fun leaving => leavingKeeps move others leaving
      (fun here => nomatch before.symm.trans here))
  | clears y own before vector =>
    rw [vector] at mem
    rcases eq_or_ne x y with rfl | apart
    · rw [Function.update_self] at mem
      cases mem
    · rw [Function.update_of_ne apart] at mem
      refine (inv.backed u x mine e mem).imp_right (fun leaving => leavingKeeps move others leaving ?_)
      intro here
      cases before.symm.trans here
      exact apart rfl

end OneStep

variable [DecidableEq Tid] [Fintype Tid]

/-- Nobody is stopped for ever, and the subject knows only elements whose destructors
are still to come; behind the last of these nothing is left. -/
structure Sound (crew : Crew w N Obj Tid) (s : State w Obj Tid) : Prop where
  deadlockFree : DisconnectCycle.DeadlockFree s
  proceeds : (∃ t, s.threads t ≠ ⟨.idle,[],[]⟩) →
    ∃ t next, DisconnectCycle.slotStep crew.bench.layout s t = some next
  connected : ∀ e ∈ (s.shared.connections crew.subject).slots,
    ∃ t, ∃ x ∈ crew.foos t, e.delegate = crew.key x ∧ Pending x (s.threads t)
  done : (∀ t, s.threads t = ⟨.idle,[],[]⟩) → s.shared.connections crew.subject = .empty ∧
    ∀ t, ∀ x ∈ crew.foos t, s.shared.connections x = .empty ∧ s.shared.useCount x = 0

structure AllInv (crew : Crew w N Obj Tid) (s : State w Obj Tid) : Prop where
  own : Inv crew s
  stops : DisconnectCycle.Inv s
  counts : DestructorBarrier.Inv s

omit [DecidableEq Tid] [BinarySearch] [Fintype Tid] in
theorem closesNoCycle (inv : Inv crew s)
    (owner : ∀ t y, s.shared.mutex y = some t → y ∈ (s.threads t).pc.held) :
    DisconnectCycle.ClosesNoCycle s t := by
  intro x slot rest peer u visiting found has walk
  have shaped := inv.shaped t
  rw [visiting] at shaped
  have same : some crew.subject = some peer := by
    rw [← (visitingSome.mp found).2.1,shaped.2 slot List.mem_cons_self]
    rfl
  cases Option.some.inj same
  have held := owner u crew.subject has
  -- Whoever has the subject's mutex is not on the way to another one.
  rcases Relation.ReflTransGen.cases_head walk with rfl | ⟨v,⟨y,peer,later,stopped,_⟩,_⟩
  · rw [visiting] at held
    exact subjectApart shaped.1.1 (List.mem_singleton.mp held).symm
  · have there := inv.shaped u
    rw [stopped] at held there
    exact subjectApart there.1.1 (List.mem_singleton.mp held).symm

theorem stepKeeps (inv : AllInv crew s) (taken : DisconnectCycle.slotStep crew.bench.layout s t = some next) :
    AllInv crew next := by
  obtain ⟨move,others⟩ := stepMove taken
  have counted : 0 < s.shared.useCount crew.subject := by
    rw [inv.counts.counted,inv.own.live]
    exact Nat.add_pos_left Nat.one_pos _
  have follows := followsOwn inv.own move
  refine ⟨⟨fun u => ?_,fun u => ?_,?_,fun u x mine => trackedKeeps inv.own move others u mine,
    fun e mem => linkedKeeps inv.own move others counted mem,
    fun u x mine e mem => backedKeeps inv.own move others u mine mem⟩,
    DisconnectCycle.stepKeeps inv.stops (closesNoCycle inv.own inv.stops.owner) taken,
    DestructorBarrier.stepKeeps inv.counts taken⟩
  · rcases eq_or_ne u t with rfl | other
    · exact follows.planned
    · rw [others u other]
      exact inv.own.planned u
  · rcases eq_or_ne u t with rfl | other
    · exact follows.shaped
    · rw [others u other]
      exact inv.own.shaped u
  · rcases DestructorBarrier.moveTracker (x := crew.subject) move with same | ⟨_,_,waits⟩
    · rw [same]
      exact inv.own.live
    · have shaped := follows.shaped
      rw [waits] at shaped
      exact absurd rfl (subjectApart shaped.1)

omit [DecidableEq Tid] in
theorem blockedWaits (inv : AllInv crew s) (unfinished : s.threads t ≠ ⟨.idle,[],[]⟩)
    (blocked : ¬ (threadStep crew.bench.layout t s.shared (s.threads t) []).isSome = true) :
    ∃ u, DisconnectCycle.WaitsOn s t u := by
  by_contra nobody
  refine blocked (threadStepPossible [] unfinished ?_ ?_ ?_)
  · intro x later idle program
    have planned := inv.own.planned t
    rw [left,program] at planned
    refine (inv.own.tracked t x planned.1.1).mpr ?_
    rw [left,program]
    exact List.mem_cons_self
  · intro work locking
    refine Option.eq_none_iff_forall_ne_some.mpr (fun u has => nobody ⟨u,.inl ⟨work,locking,has⟩⟩)
  · intro x waits
    by_contra counted
    rw [inv.counts.counted] at counted
    have shaped := inv.own.shaped t
    rw [waits] at shaped
    have gone : s.shared.tracker x = false := by
      refine Bool.eq_false_iff.mpr (fun there => shaped.2 ?_)
      exact (inv.own.tracked t x shaped.1).mp there
    have unused : ∀ u, (s.threads u).refs x = 0 := by
      intro u
      by_contra refers
      exact nobody ⟨u,.inr ⟨x,waits,Nat.pos_of_ne_zero refers⟩⟩
    refine counted ?_
    simp [gone,unused]

omit [DecidableEq Tid] in
theorem someoneSteps (inv : AllInv crew s) (unfinished : ∃ t, s.threads t ≠ ⟨.idle,[],[]⟩) :
    ∃ t, (threadStep crew.bench.layout t s.shared (s.threads t) []).isSome = true := by
  by_contra stuck
  refine DisconnectCycle.deadlockFree inv.stops { t | s.threads t ≠ ⟨.idle,[],[]⟩ } ⟨unfinished,?_⟩
  intro t here
  obtain ⟨u,waits⟩ := blockedWaits inv here (fun possible => stuck ⟨t,possible⟩)
  refine ⟨u,fun finished => ?_,waits⟩
  rcases waits with ⟨work,_,has⟩ | ⟨x,_,refers⟩
  · have held := inv.stops.owner u _ has
    rw [finished] at held
    cases held
  · rw [finished] at refers
    cases refers

theorem soundOf (inv : AllInv crew s) : Sound crew s := by
  refine ⟨DisconnectCycle.deadlockFree inv.stops,?_,fun e mem => ?_,fun finished => ⟨?_,?_⟩⟩
  · intro unfinished
    obtain ⟨t,possible⟩ := someoneSteps inv unfinished
    obtain ⟨r,moved⟩ := Option.isSome_iff_exists.mp possible
    exact ⟨t,_,Option.bind_eq_some_iff.mpr ⟨r,moved,rfl⟩⟩
  · obtain ⟨t,x,mine,named,pending,_⟩ := inv.own.linked e mem
    exact ⟨t,x,mine,named,pending⟩
  · refine Connections.ext (List.eq_nil_iff_forall_not_mem.mpr (fun e mem => ?_))
    obtain ⟨t,x,_,_,pending,_⟩ := inv.own.linked e mem
    rw [finished t] at pending
    exact pending.elim (nomatch ·) id
  · intro t x mine
    constructor
    · refine Connections.ext (List.eq_nil_iff_forall_not_mem.mpr (fun e mem => ?_))
      have leaving := (inv.own.backed t x mine e mem).2
      rw [finished t] at leaving
      exact leaving.elim (nomatch ·) id
    · have gone : s.shared.tracker x = false := by
        refine Bool.eq_false_iff.mpr (fun there => ?_)
        have due := (inv.own.tracked t x mine).mp there
        rw [finished t] at due
        cases due
      rw [inv.counts.counted,gone]
      simp [finished]

theorem threadedSound (crew : Crew w N Obj Tid) (schedule : List Tid) :
    EveryState (DisconnectCycle.slotStep crew.bench.layout) (Sound crew) crew.begin schedule := by
  refine everyStateImp (fun s inv => soundOf inv) (everyStateOfInvariant
    (fun _ _ _ inv taken => stepKeeps inv taken) ⟨beginInv,?_,?_⟩ schedule)
  · exact DisconnectCycle.startInv _ _ _
  · exact DestructorBarrier.startInv _ _ _

end Steps

end SignalSlot.BenchmarkThreaded
