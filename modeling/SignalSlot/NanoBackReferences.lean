import SignalSlot.Library.GuardedRun
import SignalSlot.NanoEntries

/-! Tracked connections under ST_Policy. Both sides of a connection hold an entry
for the other, so that whichever is destroyed first is forgotten by its peer. A
receiver forgets by key alone, and its key is the same for every signal: what it
holds for the other signals goes with it. -/
namespace SignalSlot.BackReferences
open PartitionSearch GuardedRun Heap

variable {w : Nat} {Obj : Type} [DecidableEq Obj]

def Symmetric (h : Heap w Obj) : Prop :=
  ∀ x y, h.alive x = true → h.alive y = true → x ≠ y → ∀ k, h.entries x k y = h.entries y k x

def NoDangling (h : Heap w Obj) : Prop := ∀ x k y, 0 < h.entries x k y → h.alive y = true

structure Consistent (h : Heap w Obj) : Prop where
  symmetric : Symmetric h
  noDangling : NoDangling h

def Owned (layout : Layout w Obj) (h : Heap w Obj) : Prop :=
  ∀ x k y, 0 < h.entries x k y → x ≠ y → layout.observerOf k = some x ∨ layout.observerOf k = some y

structure Inv (layout : Layout w Obj) (h : Heap w Obj) : Prop where
  consistent : Consistent h
  owned : Owned layout h

def HeldOnlyFor (h : Heap w Obj) (o : Obj) (key : DelegateKey w) (s : Obj) : Prop :=
  ∀ p, 0 < h.entries o key p → p = s ∨ p = o

/-- The step takes from no object a key that is held there for a third one. -/
def KeepsBackReferences (layout : Layout w Obj) (h : Heap w Obj) : Op w Obj → Prop
  | .connect _ _ => True
  | .disconnect s slot =>
      ∀ o, layout.observerOf slot.delegateKey = some o → HeldOnlyFor h o slot.delegateKey s
  | .disconnectAll x | .destroy x => ∀ k o, 0 < h.entries x k o → o ≠ x → HeldOnlyFor h o k x

theorem initialInv (layout : Layout w Obj) (live : Obj → Bool) : Inv layout (initial live) := by
  constructor
  · constructor
    · intro x y _ _ _ k
      simp
    · intro x k y held
      simp at held
  · intro x k y held
    simp at held

theorem symmetricHeld {h : Heap w Obj} (c : Consistent h) {x k y} (held : 0 < h.entries x k y)
    (other : x ≠ y) : 0 < h.entries y k x := by
  rwa [← c.symmetric x y (aliveOfEntry held) (c.noDangling x k y held) other k]

section Forgets
variable {layout : Layout w Obj} {h out : Heap w Obj} {x : Obj} (forgets : Forgets x h out)
include forgets

theorem forgetsOwned (owned : Owned layout h) : Owned layout out :=
  fun y k p held other => owned y k p (forgetsLess forgets held).2.2 other

theorem forgetsNoDangling (inv : Inv layout h)
    (live : ∀ y, y ≠ x → out.alive y = h.alive y) : NoDangling out := by
  intro y k p held
  obtain ⟨notSelf,kept,old⟩ := forgetsLess forgets held
  have other : p ≠ x := by
    rintro rfl
    exact kept (symmetricHeld inv.consistent old notSelf)
  rw [live p other]
  exact inv.consistent.noDangling y k p old

theorem forgetsSymmetric (inv : Inv layout h) (live : ∀ y, out.alive y = true → h.alive y = true)
    (ok : ∀ k o, 0 < h.entries x k o → o ≠ x → HeldOnlyFor h o k x) : Symmetric out := by
  -- A peer that loses `k` held it for `x` only, so its other partners have nothing to lose.
  have lost : ∀ y p k, y ≠ p → (y = x ∨ 0 < h.entries x k y) → ¬ (p = x ∨ 0 < h.entries x k p) →
      h.entries y k p = 0 := by
    intro y p k other loses keeps
    by_contra positive
    have held : 0 < h.entries y k p := Nat.pos_of_ne_zero positive
    by_cases self : y = x
    · subst self
      exact keeps (.inr held)
    · rcases ok k y (loses.resolve_left self) self p held with same | same
      · exact keeps (.inl same)
      · exact other same.symm
  intro y p liveY liveP other k
  have before := inv.consistent.symmetric y p (live y liveY) (live p liveP) other k
  rw [forgets,forgets]
  split <;> split
  · rfl
  · next loses keeps => rw [← before,lost y p k other loses keeps]
  · next keeps loses => rw [before,lost p y k (Ne.symm other) loses keeps]
  · exact before

theorem forgetsNeeded (inv : Inv layout h) (live : ∀ y, y ≠ x → out.alive y = h.alive y)
    (after : Symmetric out) : ∀ k o, 0 < h.entries x k o → o ≠ x → HeldOnlyFor h o k x := by
  intro k o held other p third
  by_contra none
  obtain ⟨notX,notO⟩ := not_or.mp none
  -- The key cannot be one of `p`, so `p` is not visited and keeps its side.
  have unvisited : ¬ 0 < h.entries x k p := by
    intro visited
    have a := inv.owned x k o held (Ne.symm other)
    have b := inv.owned o k p third (Ne.symm notO)
    have c := inv.owned x k p visited (Ne.symm notX)
    grind
  have back := symmetricHeld inv.consistent third (Ne.symm notO)
  have same := after o p (by rw [live o other]; exact inv.consistent.noDangling x k o held)
    (by rw [live p notX]; exact inv.consistent.noDangling o k p third) (Ne.symm notO) k
  rw [forgets,forgets,if_pos (.inr held),if_neg (not_or.mpr ⟨notX,unvisited⟩)] at same
  omega

end Forgets

section Steps
variable [BinarySearch] {layout : Layout w Obj} {h out : Heap w Obj}

theorem connectKeeps (inv : Inv layout h) {s slot} (callable : Callable layout h (.connect s slot))
    (ok : connect layout h s slot = some out) : Inv layout out := by
  obtain ⟨live,entered⟩ := connectEffect ok
  obtain ⟨_,liveSignal,liveReceiver⟩ := callable
  refine ⟨⟨?_,?_⟩,?_⟩
  · intro x y liveX liveY other k
    rw [live] at liveX liveY
    rw [entered,entered,inv.consistent.symmetric x y liveX liveY other k]
    cases receiver : layout.observerOf slot.delegateKey <;> grind
  · intro x k y held
    rw [live]
    rcases connectEntry ok held with before | ⟨rfl,⟨_,_,rfl⟩ | ⟨o,receiver,⟨_,rfl⟩ | ⟨_,rfl⟩⟩⟩
    · exact inv.consistent.noDangling x k y before
    · exact liveSignal
    · exact liveReceiver _ receiver
    · exact liveSignal
  · intro x k y held other
    rcases connectEntry ok held with before | ⟨rfl,⟨_,rfl,rfl⟩ | ⟨o,receiver,⟨rfl,rfl⟩ | ⟨rfl,rfl⟩⟩⟩
    · exact inv.owned x k y before other
    · exact absurd rfl other
    · exact .inr receiver
    · exact .inl receiver

theorem disconnectKeeps (inv : Inv layout h) {s slot} (ok : disconnect layout h s slot = some out)
    (only : KeepsBackReferences layout h (.disconnect s slot)) : Inv layout out := by
  obtain ⟨live,entered⟩ := disconnectEffect ok
  have less : ∀ x k y, 0 < out.entries x k y → 0 < h.entries x k y := by
    intro x k y held
    rw [entered] at held
    grind
  refine ⟨⟨?_,fun x k y held => ?_⟩,fun x k y held => inv.owned x k y (less x k y held)⟩
  · -- One side loses the key only where the other side has nothing under it.
    have lost : ∀ x y, x ≠ y → (x = s ∨ layout.observerOf slot.delegateKey = some x) →
        ¬ (y = s ∨ layout.observerOf slot.delegateKey = some y) →
        h.entries x slot.delegateKey y = 0 := by
      intro x y other loses keeps
      by_contra positive
      have held : 0 < h.entries x slot.delegateKey y := Nat.pos_of_ne_zero positive
      rcases inv.owned x _ y held other with own | own
      · rcases only x own y held with same | same
        · exact keeps (.inl same)
        · exact other same.symm
      · exact keeps (.inr own)
    intro x y liveX liveY other k
    rw [live] at liveX liveY
    have before := inv.consistent.symmetric x y liveX liveY other k
    rw [entered,entered]
    by_cases same : k = slot.delegateKey
    · subst same
      have left := lost x y other
      have right := lost y x (Ne.symm other)
      grind
    · simp [same,before]
  · rw [live]
    exact inv.consistent.noDangling x k y (less x k y held)

theorem disconnectNeeded (inv : Inv layout h) {s slot} (ok : disconnect layout h s slot = some out)
    (after : Symmetric out) : KeepsBackReferences layout h (.disconnect s slot) := by
  obtain ⟨live,entered⟩ := disconnectEffect ok
  intro o receiver p third
  by_contra none
  obtain ⟨notSignal,notSelf⟩ := not_or.mp none
  have back := symmetricHeld inv.consistent third (Ne.symm notSelf)
  have same := after o p (by rw [live]; exact aliveOfEntry third)
    (by rw [live]; exact inv.consistent.noDangling _ _ _ third) (Ne.symm notSelf) slot.delegateKey
  have kept : ¬ layout.observerOf slot.delegateKey = some p := by
    rw [receiver]
    exact fun h => notSelf (Option.some.inj h).symm
  rw [entered,entered,if_pos ⟨rfl,.inr receiver⟩,if_neg (fun h => h.2.elim notSignal kept)] at same
  omega

theorem stepKeeps (inv : Inv layout h) {op} (only : KeepsBackReferences layout h op)
    (ok : step layout .st h op = some out) : Inv layout out := by
  obtain ⟨callable,ran⟩ := stepPossible ok
  cases op with
  | connect s slot => exact connectKeeps inv callable ran
  | disconnect s slot => exact disconnectKeeps inv ran only
  | disconnectAll x =>
    obtain ⟨live,forgets⟩ := disconnectAllEffect ran
    exact ⟨⟨forgetsSymmetric forgets inv (fun y => by rw [live]; exact id) only,
      forgetsNoDangling forgets inv (fun y _ => live y)⟩,forgetsOwned forgets inv.owned⟩
  | destroy x =>
    obtain ⟨live,forgets⟩ := destroyEffect ran
    exact ⟨⟨forgetsSymmetric forgets inv (fun y => by rw [live]; simp) only,
      forgetsNoDangling forgets inv (fun y other => by simp [live,other])⟩,forgetsOwned forgets inv.owned⟩

theorem stepNeeded (inv : Inv layout h) {op} (ok : step layout .st h op = some out)
    (after : Consistent out) : KeepsBackReferences layout h op := by
  obtain ⟨_,ran⟩ := stepPossible ok
  cases op with
  | connect s slot => trivial
  | disconnect s slot => exact disconnectNeeded inv ran after.symmetric
  | disconnectAll x =>
    obtain ⟨live,forgets⟩ := disconnectAllEffect ran
    exact forgetsNeeded forgets inv (fun y _ => live y) after.symmetric
  | destroy x =>
    obtain ⟨live,forgets⟩ := destroyEffect ran
    exact forgetsNeeded forgets inv (fun y other => by simp [live,other]) after.symmetric

theorem consistentExactly (layout : Layout w Obj) (live : Obj → Bool) (ops : List (Op w Obj)) :
    EveryState (step layout .st) Consistent (initial live) ops ↔
      EveryStep (step layout .st) (KeepsBackReferences layout) (initial live) ops :=
  everyStateExact (fun _ inv => inv.consistent) (fun _ _ _ inv only ok => stepKeeps inv only ok)
    (fun _ _ _ inv ok after => stepNeeded inv ok after) (initialInv layout live) ops

theorem stepDefined (policy : Policy) (noDangling : NoDangling h) {op} (callable : Callable layout h op) :
    (step layout policy h op).isSome = true := by
  have cleared (x : Obj) (live : h.alive x = true) : (disconnectAll policy h x).isSome = true := by
    obtain ⟨c,found⟩ := Option.isSome_iff_exists.mp live
    exact disconnectAllPossible policy found (fun slot mem _ =>
      noDangling x slot.delegate slot.observer (entriesPositive.mpr ⟨c,found,mem⟩))
  unfold step
  rw [if_pos callable]
  cases op with
  | connect s slot => exact connectPossible callable.2.1 callable.2.2
  | disconnect s slot => exact disconnectPossible callable.2.1 callable.2.2
  | disconnectAll x => exact cleared x callable
  | destroy x =>
    obtain ⟨out,ok⟩ := Option.isSome_iff_exists.mp (cleared x callable)
    simp [exec,destroy,ok]

end Steps

/-! Two signals are connected to the same member function of the receiver. When the
first one disconnects, the receiver forgets the other one too, and the other one is
not told that the receiver is destroyed. -/
def sharedLayout : Layout 64 Party := { partyLayout with isSignal := fun x => x ≠ .receiver }

def sharedSlot : Function 64 := .bindInstance 0x7 0x1000

def sharedRun : List (Op 64 Party) :=
  [.connect .signal sharedSlot,.connect .other sharedSlot,.disconnect .signal sharedSlot,
    .destroy .receiver]

theorem sharedReceiverDangles :
    ¬ EveryState (@step _ _ _ linearSearch sharedLayout .st) Consistent (initial fun _ => true)
      sharedRun := by
  let _ := linearSearch
  intro consistent
  have evaluated : (run (step sharedLayout .st) (initial fun _ => true) sharedRun).map
      (fun h => (h.entries .other sharedSlot.delegateKey .receiver,h.alive .receiver)) = some (1,false) := by
    decide +kernel
  obtain ⟨out,ran,result⟩ := Option.map_eq_some_iff.mp evaluated
  obtain ⟨held,dead⟩ := Prod.mk.inj result
  have live := (everyStatePrefix.mp consistent sharedRun [] out rfl ran).noDangling .other
    sharedSlot.delegateKey .receiver (by omega)
  simp [dead] at live

end SignalSlot.BackReferences
