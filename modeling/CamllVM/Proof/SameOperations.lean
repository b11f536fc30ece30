import CamllVM.Lib.Ensures
import CamllVM.Proof.SameStates

/-!
# The library functions on states that are the same

A function of the library that does not allocate and calls no primitive takes states that are the
same up to the addresses of blocks to such states, or is undefined on both. An arithmetic operation
on an address is undefined on both.
-/

namespace CamllVM

variable {P : Set Nat} {ρ : Naming P} {v v' : Value} {m m' : Machine}

/-! ### The search for a method -/

theorem Machine.searchMethod_same {heap heap' : Heap} {meths meths' : Value} (tag : BitVec 64)
    (h : ∀ i, (heap'.field meths' i).bind Value.toWord = (heap.field meths i).bind Value.toWord)
    (li hi : Int) : searchMethod heap' meths' tag li hi = searchMethod heap meths tag li hi := by
  fun_induction searchMethod heap meths tag li hi with
  | case1 li hi hlt hnone => rw [searchMethod, if_pos hlt, h, hnone]
  | case2 li hi hlt word hword hslt hfewer ih =>
      rw [searchMethod, if_pos hlt, h, hword]
      simp only [hslt, if_true, hfewer, dif_pos, ih]
  | case3 li hi hlt word hword hslt hfewer =>
      rw [searchMethod, if_pos hlt, h, hword]
      simp only [hslt, if_true, hfewer, dif_neg, not_false_iff]
  | case4 li hi hlt word hword hslt hfewer ih =>
      rw [searchMethod, if_pos hlt, h, hword]
      simp only [hslt, if_false, Bool.false_eq_true, hfewer, dif_pos, ih]
  | case5 li hi hlt word hword hslt hfewer =>
      rw [searchMethod, if_pos hlt, h, hword]
      simp only [hslt, if_false, Bool.false_eq_true, hfewer, dif_neg, not_false_iff]
  | case6 li hi hlt => rw [searchMethod, if_neg hlt]

namespace Machine.Same

variable (h : m.Same ρ m')

include h

/-! ### Fields, vectors, strings and objects -/

theorem getField (idx : Int) : Option.Rel (Machine.Same ρ) (m.getField idx) (m'.getField idx) :=
  Related.bind (h.field h.accu idx) fun _ _ hv => .some (h.setAccu hv)

theorem storeField (idx : Int) :
    Option.Rel (Machine.Same ρ) (m.storeField idx) (m'.storeField idx) :=
  Related.bind (h.slot 0) fun _ _ hv => Related.bind (h.raiseSp 1) fun _ _ h =>
    Related.bind (h.setField h.accu idx hv) fun _ _ h => .some (h.setAccu (.ofInt 0))

theorem storeDoubleField (idx : Int) :
    Option.Rel (Machine.Same ρ) (m.storeDoubleField idx) (m'.storeDoubleField idx) := by
  refine Related.bind (h.slot 0) fun _ _ hv => Related.bind (h.heap.doubleVal hv) fun d d' hd => ?_
  obtain rfl := hd
  exact Related.bind (h.setField h.accu idx ⟨trivial, rfl⟩) fun _ _ h =>
    (h.setAccu (.ofInt 0)).raiseSp 1

theorem getGlobal (idx : Int) : Option.Rel (Machine.Same ρ) (m.getGlobal idx) (m'.getGlobal idx) :=
  Related.bind (h.field h.camlGlobalData idx) fun _ _ hv => .some (h.setAccu hv)

theorem setGlobal (idx : Int) : Option.Rel (Machine.Same ρ) (m.setGlobal idx) (m'.setGlobal idx) :=
  h.setField h.camlGlobalData idx h.accu

theorem vectLength : Option.Rel (Machine.Same ρ) m.vectLength m'.vectLength := by
  refine Related.bindEq ?_ fun size => .some (h.setAccu (.ofInt size))
  rw [Heap.wosizeVal, Heap.wosizeVal, h.heap.headerVal_eq h.accu]

theorem getVectItem : Option.Rel (Machine.Same ρ) m.getVectItem m'.getVectItem :=
  Related.bind (h.slot 0) fun _ _ hv => Related.bindEq hv.longVal_eq fun idx =>
    Related.bind (h.field h.accu idx) fun _ _ hw => Related.bind (h.raiseSp 1) fun _ _ h =>
      .some (h.setAccu hw)

theorem setVectItem : Option.Rel (Machine.Same ρ) m.setVectItem m'.setVectItem :=
  Related.bind (h.slot 0) fun _ _ hv => Related.bindEq hv.longVal_eq fun idx =>
    Related.bind (h.slot 1) fun _ _ hw => Related.bind (h.raiseSp 2) fun _ _ h =>
      Related.bind (h.setField h.accu idx hw) fun _ _ h => .some (h.setAccu (.ofInt 0))

theorem getStringChar : Option.Rel (Machine.Same ρ) m.getStringChar m'.getStringChar :=
  Related.bind (h.slot 0) fun _ _ hv => Related.bindEq hv.longVal_eq fun idx =>
    Related.bindEq (h.heap.byteU_eq h.accu idx) fun c => Related.bind (h.raiseSp 1) fun _ _ h =>
      .some (h.setAccu (.ofInt c))

theorem setStringChar : Option.Rel (Machine.Same ρ) m.setStringChar m'.setStringChar :=
  Related.bind (h.slot 0) fun _ _ hv => Related.bindEq hv.longVal_eq fun idx =>
    Related.bind (h.slot 1) fun _ _ hw => Related.bindEq hw.longVal_eq fun c =>
      Related.bind (h.heap.setByteU h.accu idx c) fun _ _ hheap =>
        Related.bind ((h.setHeap hheap).raiseSp 2) fun _ _ h => .some (h.setAccu (.ofInt 0))

theorem offsetRef (offset : Int) :
    Option.Rel (Machine.Same ρ) (m.offsetRef offset) (m'.offsetRef offset) :=
  Related.bind (h.field h.accu 0) fun _ _ hv => Related.bindEq hv.toWord_eq fun _ =>
    Related.bind (h.setField h.accu 0 (.ofWord _)) fun _ _ h => .some (h.setAccu (.ofInt 0))

theorem getMethod : Option.Rel (Machine.Same ρ) m.getMethod m'.getMethod :=
  Related.bind (h.slot 0) fun _ _ hv => Related.bind (h.field hv 0) fun _ _ hmeths =>
    Related.bindEq h.accu.longVal_eq fun _ => Related.bind (h.field hmeths _) fun _ _ hw =>
      .some (h.setAccu hw)

theorem getDynMet : Option.Rel (Machine.Same ρ) m.getDynMet m'.getDynMet :=
  Related.bind (h.slot 0) fun _ _ hv => Related.bind (h.field hv 0) fun _ _ hmeths =>
    Related.bind (h.field hmeths 0) fun _ _ hn => Related.bindEq hn.toWord_eq fun _ =>
      Related.bindEq h.accu.toWord_eq fun tag =>
        Related.bindEq (searchMethod_same tag (h.heap.wordAt_eq hmeths) _ _) fun _ =>
          Related.bind (h.field hmeths _) fun _ _ hw => .some (h.setAccu hw)

theorem getPubMet (met : Int) : Option.Rel (Machine.Same ρ) (m.getPubMet met) (m'.getPubMet met) :=
  ((h.pushWord h.accu).setAccu (.ofInt met)).getDynMet

theorem getSwitchOffset_eq (sizes : Int) : m'.getSwitchOffset sizes = m.getSwitchOffset sizes := by
  unfold Machine.getSwitchOffset
  rw [h.accu.lowBit_eq, h.accu.longVal_eq, Heap.tagVal, Heap.tagVal, h.heap.headerVal_eq h.accu]

/-! ### The stack -/

theorem acc (n : Nat) : Option.Rel (Machine.Same ρ) (m.acc n) (m'.acc n) :=
  Related.bind (h.slot n) fun _ _ hv => .some (h.setAccu hv)

theorem envAcc (n : Int) : Option.Rel (Machine.Same ρ) (m.envAcc n) (m'.envAcc n) :=
  Related.bind (h.field h.env n) fun _ _ hv => .some (h.setAccu hv)

theorem assign (n : Nat) : Option.Rel (Machine.Same ρ) (m.assign n) (m'.assign n) :=
  Related.bind (h.setSlot n h.accu) fun _ _ h => .some (h.setAccu (.ofInt 0))

theorem pushRetAddr : Option.Rel (Machine.Same ρ) m.pushRetAddr m'.pushRetAddr := by
  refine Related.bind ((h.lowerSp 3).setSlot 0 (.ofInt 0)) fun _ _ h =>
    Related.bind (h.setSlot 1 h.env) fun _ _ h => ?_
  rw [h.extraArgs]
  exact h.setSlot 2 (.ofInt _)

/-! ### Arithmetic -/

/-- `hf`: an operation on bits does not give an address. -/
theorem wordOp {f : BitVec 64 → BitVec 64 → Option Value}
    (hf : ∀ a b, Ensures (Value.Within ∅) (f a b)) :
    Option.Rel (Machine.Same ρ) (Machine.wordOp f m) (Machine.wordOp f m') := by
  refine Related.bindEq h.accu.toWord_eq fun a => Related.bind (h.slot 0) fun _ _ hv =>
    Related.bindEq hv.toWord_eq fun b => Related.bindSelf fun v hfab =>
      Related.bind (h.raiseSp 1) fun _ _ h => .some (h.setAccu ?_)
  exact Value.moved_of_immediate (hf a b v hfab)

theorem ofAccu (f : BitVec 64 → BitVec 64) :
    Option.Rel (Machine.Same ρ) (do return { m with accu := .ofWord (f (← m.accu.toWord)) })
      (do return { m' with accu := .ofWord (f (← m'.accu.toWord)) }) :=
  Related.bindEq h.accu.toWord_eq fun _ => .some (h.setAccu (.ofWord _))

theorem isInt : m.isInt.Same ρ m'.isInt := by
  unfold Machine.isInt
  rw [h.accu.lowBit_eq]
  exact h.setAccu (.ofInt _)

/-- A comparison of words of every kind. -/
theorem compare (f : Bool → Bool) : Option.Rel (Machine.Same ρ)
    (do let b ← m.slot 0
        let m₁ ← m.raiseSp 1
        return { m₁ with accu := .bool (f (m₁.accu.sameWord b)) })
    (do let b ← m'.slot 0
        let m₁ ← m'.raiseSp 1
        return { m₁ with accu := .bool (f (m₁.accu.sameWord b)) }) := by
  refine Related.bind (h.slot 0) fun _ _ hv => Related.bind (h.raiseSp 1) fun _ _ h => ?_
  rw [h.accu.sameWord_eq h.heap.injective hv]
  exact .some (h.setAccu (.ofInt _))

end Machine.Same

end CamllVM
