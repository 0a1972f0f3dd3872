import SignalSlot.Library.BitOrder

/-! Nano::Function and Nano::Delegate_Key. A key is the pair of the instance and
the thunk address, as two machine words; the width of a word is a parameter.
Observer::Z_Order compares keys by these words alone. -/
namespace SignalSlot

structure DelegateKey (w : Nat) where
  word0 : BitVec w
  word1 : BitVec w
  deriving DecidableEq, Repr

def DelegateKey.word {w : Nat} (key : DelegateKey w) (index : Bool) : BitVec w :=
  if index then key.word1 else key.word0

structure Function (w : Nat) where
  instancePointer : BitVec w
  functionPointer : BitVec w
  deriving DecidableEq, Repr

namespace Function
variable {w : Nat}

def bindFree (thunk : BitVec w) : Function w := ⟨0,thunk⟩

-- A member function or a function object: the thunk is the one instantiated for
-- the signature and the function, whatever signal asks for it.
def bindInstance (thunk pointer : BitVec w) : Function w := ⟨pointer,thunk⟩

def bindKey (key : DelegateKey w) : Function w := ⟨key.word0,key.word1⟩

def delegateKey (f : Function w) : DelegateKey w := ⟨f.instancePointer,f.functionPointer⟩

theorem bindDelegateKey (f : Function w) : bindKey f.delegateKey = f := rfl

theorem delegateKeyDetermined {f g : Function w} :
    f.delegateKey = g.delegateKey ↔
      f.instancePointer = g.instancePointer ∧ f.functionPointer = g.functionPointer := by
  cases f
  cases g
  simp [delegateKey]

end Function

variable {w : Nat}

def zOrder (lhs rhs : DelegateKey w) : Bool :=
  let x := lhs.word0 ^^^ rhs.word0
  let y := lhs.word1 ^^^ rhs.word1
  let k := decide (x < y) && decide (x < x ^^^ y)
  decide (lhs.word k < rhs.word k)

def mortonCode (key : DelegateKey w) : Nat :=
  BitOrder.interleave w key.word0.toNat key.word1.toNat

theorem zOrderCode (lhs rhs : DelegateKey w) :
    zOrder lhs rhs = true ↔ mortonCode lhs < mortonCode rhs := by
  have index : (decide (lhs.word0 ^^^ rhs.word0 < lhs.word1 ^^^ rhs.word1) &&
      decide (lhs.word0 ^^^ rhs.word0 < (lhs.word0 ^^^ rhs.word0) ^^^ (lhs.word1 ^^^ rhs.word1))) =
      decide (BitOrder.lowerTop (lhs.word0.toNat ^^^ rhs.word0.toNat)
        (lhs.word1.toNat ^^^ rhs.word1.toNat)) := by
    rw [Bool.eq_iff_iff,decide_eq_true_iff]
    simp [BitOrder.lowerTop,BitVec.lt_def]
  rw [mortonCode,mortonCode,
    BitOrder.interleaveLtIff lhs.word0.isLt lhs.word1.isLt rhs.word0.isLt rhs.word1.isLt]
  simp only [zOrder,index,DelegateKey.word]
  split <;> simp_all [BitVec.lt_def]

theorem mortonCodeInjective {lhs rhs : DelegateKey w} (same : mortonCode lhs = mortonCode rhs) :
    lhs = rhs := by
  have words := BitOrder.interleaveInjective lhs.word0.isLt lhs.word1.isLt rhs.word0.isLt
    rhs.word1.isLt same
  cases lhs
  cases rhs
  simpa [BitVec.toNat_inj] using words

instance : IsStrictTotalOrder (DelegateKey w) (fun lhs rhs => zOrder lhs rhs = true) where
  trichotomous lhs rhs := by
    intro left right
    rw [zOrderCode] at left right
    exact mortonCodeInjective (by omega)
  irrefl key := by simp [zOrderCode]
  trans a b c ab bc := by
    rw [zOrderCode] at ab bc ⊢
    omega

theorem mortonCodeBits (key : DelegateKey w) (i : Nat) :
    (mortonCode key).testBit (2*i+1) = key.word0.getLsbD i ∧
    (mortonCode key).testBit (2*i) = key.word1.getLsbD i := by
  have inside : ∀ word : BitVec w, (decide (i < w) && word.toNat.testBit i) = word.getLsbD i := by
    intro word
    cases set : word.getLsbD i with
    | false => simp only [BitVec.testBit_toNat,set,Bool.and_false]
    | true => simp only [BitVec.testBit_toNat,set,BitVec.lt_of_getLsbD set,decide_true,Bool.and_true]
  exact ⟨(BitOrder.interleaveHigh w _ _ i).trans (inside key.word0),
    (BitOrder.interleaveLow w _ _ i).trans (inside key.word1)⟩

theorem mortonCodeBound (key : DelegateKey w) : mortonCode key < 2^(2*w) := by
  refine Nat.lt_pow_two_of_testBit _ (fun i outside => ?_)
  obtain ⟨high,low⟩ := mortonCodeBits key (i/2)
  have above : w ≤ i/2 := by omega
  rcases Nat.mod_two_eq_zero_or_one i with even | odd
  · rw [show i = 2*(i/2) by omega,low,BitVec.getLsbD_of_ge _ _ above]
  · rw [show i = 2*(i/2)+1 by omega,high,BitVec.getLsbD_of_ge _ _ above]

theorem zOrderEquivalence {a b : DelegateKey w} : zOrder a b = false ∧ zOrder b a = false ↔ a = b := by
  simp only [← Bool.not_eq_true,zOrderCode]
  constructor
  · intro ⟨notLess,notGreater⟩
    exact mortonCodeInjective (by omega)
  · intro same
    rw [same]
    exact ⟨Nat.lt_irrefl _,Nat.lt_irrefl _⟩

theorem zOrderTrichotomy (a b : DelegateKey w) :
    (zOrder a b = true ∧ a ≠ b ∧ zOrder b a = false) ∨
    (zOrder a b = false ∧ a = b ∧ zOrder b a = false) ∨
    (zOrder a b = false ∧ a ≠ b ∧ zOrder b a = true) := by
  have equal := @zOrderEquivalence w a b
  cases less : zOrder a b with
  | true =>
    have greater : zOrder b a = false := by
      rw [← Bool.not_eq_true,zOrderCode]
      rw [zOrderCode] at less
      omega
    exact .inl ⟨rfl,fun same => absurd (equal.mpr same).1 (by simp [less]),greater⟩
  | false => cases greater : zOrder b a with
    | true => exact .inr (.inr ⟨rfl,fun same => absurd (equal.mpr same).2 (by simp [greater]),rfl⟩)
    | false => exact .inr (.inl ⟨rfl,equal.mp ⟨less,greater⟩,rfl⟩)

theorem zOrderMorton (w : Nat) :
    (∀ (key : DelegateKey w) (i : Nat), (mortonCode key).testBit (2*i+1) = key.word0.getLsbD i ∧
      (mortonCode key).testBit (2*i) = key.word1.getLsbD i) ∧
    (∀ key : DelegateKey w, mortonCode key < 2^(2*w)) ∧
    (∀ a b : DelegateKey w, zOrder a b = true ↔ mortonCode a < mortonCode b) ∧
    (∀ a : DelegateKey w, zOrder a a = false) ∧
    (∀ a b c : DelegateKey w, zOrder a b = true → zOrder b c = true → zOrder a c = true) ∧
    (∀ a b : DelegateKey w, (zOrder a b = true ∧ a ≠ b ∧ zOrder b a = false) ∨
      (zOrder a b = false ∧ a = b ∧ zOrder b a = false) ∨
      (zOrder a b = false ∧ a ≠ b ∧ zOrder b a = true)) ∧
    ∀ a b : DelegateKey w, zOrder a b = false ∧ zOrder b a = false ↔ a = b := by
  refine ⟨mortonCodeBits,mortonCodeBound,zOrderCode,?_,?_,zOrderTrichotomy,?_⟩
  · exact fun a => (zOrderEquivalence.mpr rfl).1
  · intro a b c ab bc
    rw [zOrderCode] at ab bc ⊢
    exact ab.trans bc
  · exact fun a b => zOrderEquivalence

end SignalSlot
