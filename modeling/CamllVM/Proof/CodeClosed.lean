import CamllVM.Proof.KnownCode

/-!
# The library makes no code addresses

What a function of the library leaves in the registers, on the stack and in the heap it has found
there, except for the addresses of the functions that it makes closures of.
-/

namespace CamllVM

open Ensures Value

variable {rt : Runtime} {ids : Set Int} {m : Machine} {v : Value} {code : CodePtr}

namespace Machine.CodeIn

/-! ### Loops -/

theorem fillFromStack (h : m.CodeIn ids) (block : Value) (i n : Nat) :
    Ensures (CodeIn ids) (m.fillFromStack block i n) := by
  induction n generalizing m i with
  | zero => exact result h
  | succ n ih =>
      exact andThen (h.slot 0) fun v hv => andThen (h.setField block i hv) fun m₁ h₁ =>
        andThen (h₁.raiseSp 1) fun m₂ h₂ => ih h₂ (i + 1)

theorem fillDoubles (h : m.CodeIn ids) (block : Value) (i n : Nat) :
    Ensures (CodeIn ids) (m.fillDoubles block i n) := by
  induction n generalizing m i with
  | zero => exact result h
  | succ n ih =>
      exact andThen (self _) fun v _ => andThen (self _) fun d _ =>
        andThen (h.setField block i (codeIn_raw d)) fun m₁ h₁ => andThen (h₁.raiseSp 1) fun m₂ h₂ =>
          ih h₂ (i + 1)

theorem copySlots (h : m.CodeIn ids) (block : Value) (i j n : Nat) :
    Ensures (CodeIn ids) (m.copySlots block i j n) := by
  induction n generalizing m j with
  | zero => exact result h
  | succ n ih =>
      exact andThen (h.slot j) fun v hv => andThen (h.setField block (i + j) hv) fun m₁ h₁ => ih h₁ (j + 1)

theorem copyArgs (h : m.CodeIn ids) (i n : Nat) : Ensures (CodeIn ids) (m.copyArgs i n) := by
  induction n generalizing m i with
  | zero => exact result h
  | succ n ih =>
      exact andThen (h.field m.env (i + 2)) fun v hv => andThen (h.setSlot i hv) fun m₁ h₁ => ih h₁ (i + 1)

theorem slideArgs (h : m.CodeIn ids) (distance n : Nat) :
    Ensures (CodeIn ids) (m.slideArgs distance n) := by
  induction n generalizing m with
  | zero => exact result h
  | succ n ih =>
      exact andThen (h.slot n) fun v hv => andThen (h.setSlot (distance + n) hv) fun m₁ h₁ => ih h₁

/-! ### Fields and blocks -/

theorem getField (h : m.CodeIn ids) (idx : Int) : Ensures (CodeIn ids) (m.getField idx) :=
  andThen (h.field m.accu idx) fun _ hv => result (h.setAccu hv)

theorem storeField (h : m.CodeIn ids) (idx : Int) : Ensures (CodeIn ids) (m.storeField idx) :=
  andThen (h.slot 0) fun _ hv => andThen (h.raiseSp 1) fun m₁ h₁ =>
    andThen (h₁.setField m₁.accu idx hv) fun _ h₂ => result (h₂.setAccu (codeIn_int _))

theorem storeDoubleField (h : m.CodeIn ids) (idx : Int) :
    Ensures (CodeIn ids) (m.storeDoubleField idx) :=
  andThen (self _) fun _ _ => andThen (self _) fun d _ =>
    andThen (h.setField m.accu idx (codeIn_raw d)) fun _ h₁ => (h₁.setAccu (codeIn_int _)).raiseSp 1

theorem getGlobal (h : m.CodeIn ids) (idx : Int) : Ensures (CodeIn ids) (m.getGlobal idx) :=
  andThen (h.field m.camlGlobalData idx) fun _ hv => result (h.setAccu hv)

theorem setGlobal (h : m.CodeIn ids) (idx : Int) : Ensures (CodeIn ids) (m.setGlobal idx) :=
  h.setField m.camlGlobalData idx h.accu

theorem vectLength (h : m.CodeIn ids) : Ensures (CodeIn ids) m.vectLength :=
  andThen (self _) fun _ _ => result (h.setAccu (codeIn_int _))

theorem getVectItem (h : m.CodeIn ids) : Ensures (CodeIn ids) m.getVectItem :=
  andThen (self _) fun _ _ => andThen (self _) fun i _ => andThen (h.field m.accu i) fun _ hv =>
    andThen (h.raiseSp 1) fun _ h₁ => result (h₁.setAccu hv)

theorem setVectItem (h : m.CodeIn ids) : Ensures (CodeIn ids) m.setVectItem :=
  andThen (self _) fun _ _ => andThen (self _) fun i _ => andThen (h.slot 1) fun _ hv =>
    andThen (h.raiseSp 2) fun m₁ h₁ => andThen (h₁.setField m₁.accu i hv) fun _ h₂ =>
      result (h₂.setAccu (codeIn_int _))

theorem getStringChar (h : m.CodeIn ids) : Ensures (CodeIn ids) m.getStringChar :=
  andThen (self _) fun _ _ => andThen (self _) fun _ _ => andThen (self _) fun c _ =>
    andThen (h.raiseSp 1) fun _ h₁ => result (h₁.setAccu (codeIn_int c))

theorem setStringChar (h : m.CodeIn ids) : Ensures (CodeIn ids) m.setStringChar :=
  andThen (self _) fun _ _ => andThen (self _) fun i _ => andThen (self _) fun _ _ => andThen (self _) fun c _ =>
    andThen (h.heap.setByteU m.accu i c) fun heap hheap =>
      andThen (raiseSp (m := { m with heap := heap }) { h with heap := hheap } 2) fun _ h₁ =>
        result (h₁.setAccu (codeIn_int _))

theorem offsetRef (h : m.CodeIn ids) (offset : Int) : Ensures (CodeIn ids) (m.offsetRef offset) :=
  andThen (self _) fun _ _ => andThen (self _) fun _ _ =>
    andThen (h.setField m.accu 0 (codeIn_ofWord _)) fun _ h₁ => result (h₁.setAccu (codeIn_int _))

theorem getMethod (h : m.CodeIn ids) : Ensures (CodeIn ids) m.getMethod :=
  andThen (self _) fun _ _ => andThen (self _) fun meths _ => andThen (self _) fun i _ =>
    andThen (h.field meths (toInt32 i)) fun _ hv => result (h.setAccu hv)

theorem getDynMet (h : m.CodeIn ids) : Ensures (CodeIn ids) m.getDynMet :=
  andThen (self _) fun _ _ => andThen (self _) fun meths _ => andThen (self _) fun _ _ => andThen (self _) fun _ _ =>
    andThen (self _) fun _ _ => andThen (self _) fun li _ =>
      andThen (h.field meths (li - 1)) fun _ hv => result (h.setAccu hv)

/-! ### Registers and the stack -/

theorem acc (h : m.CodeIn ids) (n : Nat) : Ensures (CodeIn ids) (m.acc n) :=
  andThen (h.slot n) fun _ hv => result (h.setAccu hv)

theorem envAcc (h : m.CodeIn ids) (n : Int) : Ensures (CodeIn ids) (m.envAcc n) :=
  andThen (h.field m.env n) fun _ hv => result (h.setAccu hv)

theorem assign (h : m.CodeIn ids) (n : Nat) : Ensures (CodeIn ids) (m.assign n) :=
  andThen (h.setSlot n h.accu) fun _ h₁ => result (h₁.setAccu (codeIn_int _))

theorem wordOp {f : BitVec 64 → BitVec 64 → Option Value} (h : m.CodeIn ids)
    (hf : ∀ a b, Ensures (Value.CodeIn ids) (f a b)) : Ensures (CodeIn ids) (m.wordOp f) :=
  andThen (self _) fun a _ => andThen (self _) fun _ _ => andThen (self _) fun b _ => andThen (hf a b) fun _ hv =>
    andThen (h.raiseSp 1) fun _ h₁ => result (h₁.setAccu hv)

theorem shiftOp (f : BitVec 64 → Nat → BitVec 64) (h : m.CodeIn ids) :
    Ensures (CodeIn ids) (m.shiftOp f) :=
  h.wordOp fun _ _ => byCases (fun _ => result (codeIn_ofWord _)) fun _ => stuck

theorem ofAccu (f : BitVec 64 → BitVec 64) (h : m.CodeIn ids) : Ensures (CodeIn ids)
    (m.accu.toWord >>= fun w => pure { m with accu := .ofWord (f w) }) :=
  andThen (self _) fun _ _ => result (h.setAccu (codeIn_ofWord _))

theorem compare (f : Value → Value → Bool) (h : m.CodeIn ids) : Ensures (CodeIn ids)
    (do
      let b ← m.slot 0
      let m ← m.raiseSp 1
      return { m with accu := .bool (f m.accu b) }) :=
  andThen (self _) fun _ _ => andThen (h.raiseSp 1) fun _ h₁ => result (h₁.setAccu (codeIn_bool _))

theorem offsetClosure (h : m.CodeIn ids) (offset : Int) : Ensures (CodeIn ids) (m.offsetClosure offset) := by
  refine andThen (fun v hv => ?_) fun v hv => result (h.setAccu hv)
  unfold Machine.shiftPtr at hv
  split at hv
  · cases hv
    exact codeIn_ptr _ _
  · cases hv

theorem pushRetAddr (h : m.CodeIn ids) : Ensures (CodeIn ids) m.pushRetAddr :=
  andThen ((h.lowerSp 3).setSlot 0 (codeIn_int _)) fun _ h₁ => andThen (h₁.setSlot 1 h₁.env) fun _ h₂ =>
    h₂.setSlot 2 (codeIn_int _)

/-! ### Allocation -/

section

variable (hrt : rt.CodeIn ids)

include hrt

theorem makeBlock1 (h : m.CodeIn ids) (tag : Nat) : Ensures (CodeIn ids) (m.makeBlock1 rt tag) := by
  refine andThen (h.allocSmall hrt 1 tag) ?_
  rintro ⟨block, m₁⟩ ⟨hblock, h₁⟩
  exact andThen (h₁.setField block 0 h₁.accu) fun _ h₂ => result (h₂.setAccu hblock)

theorem makeBlock2 (h : m.CodeIn ids) (tag : Nat) : Ensures (CodeIn ids) (m.makeBlock2 rt tag) := by
  refine andThen (h.allocSmall hrt 2 tag) ?_
  rintro ⟨block, m₁⟩ ⟨hblock, h₁⟩
  exact andThen (h₁.setField block 0 h₁.accu) fun _ h₂ => andThen (h₂.slot 0) fun _ hv =>
    andThen (h₂.setField block 1 hv) fun _ h₃ => andThen (h₃.raiseSp 1) fun _ h₄ =>
      result (h₄.setAccu hblock)

theorem makeBlock3 (h : m.CodeIn ids) (tag : Nat) : Ensures (CodeIn ids) (m.makeBlock3 rt tag) := by
  refine andThen (h.allocSmall hrt 3 tag) ?_
  rintro ⟨block, m₁⟩ ⟨hblock, h₁⟩
  exact andThen (h₁.setField block 0 h₁.accu) fun _ h₂ => andThen (h₂.slot 0) fun _ hv =>
    andThen (h₂.setField block 1 hv) fun _ h₃ => andThen (h₃.slot 1) fun _ hw =>
      andThen (h₃.setField block 2 hw) fun _ h₄ => andThen (h₄.raiseSp 2) fun _ h₅ =>
        result (h₅.setAccu hblock)

theorem makeBlock (h : m.CodeIn ids) (tag wosize : Nat) :
    Ensures (CodeIn ids) (m.makeBlock rt tag wosize) := by
  refine andThen (h.allocBlock hrt wosize tag) ?_
  rintro ⟨block, m₁⟩ ⟨hblock, h₁⟩
  exact andThen (h₁.setField block 0 h₁.accu) fun _ h₂ =>
    andThen (h₂.fillFromStack block 1 (wosize - 1)) fun _ h₃ => result (h₃.setAccu hblock)

theorem makeFloatBlock (h : m.CodeIn ids) (size : Nat) :
    Ensures (CodeIn ids) (m.makeFloatBlock rt size) := by
  refine andThen (h.allocBlock hrt size doubleArrayTag) ?_
  rintro ⟨block, m₁⟩ ⟨hblock, h₁⟩
  exact andThen (self _) fun d _ => andThen (h₁.setField block 0 (codeIn_raw d)) fun _ h₂ =>
    andThen (h₂.fillDoubles block 1 (size - 1)) fun _ h₃ => result (h₃.setAccu hblock)

theorem getDoubleField (h : m.CodeIn ids) (idx : Int) :
    Ensures (CodeIn ids) (m.getDoubleField rt idx) := by
  refine andThen (self _) fun v _ => ?_
  dsimp only
  split
  · next d _ =>
      refine andThen (h.allocSmall hrt 1 doubleTag) ?_
      rintro ⟨block, m₁⟩ ⟨hblock, h₁⟩
      exact andThen (h₁.setField block 0 (codeIn_raw d)) fun _ h₂ => result (h₂.setAccu hblock)
  · exact stuck

omit hrt in
theorem pushIf (c : Prop) [Decidable c] (h : m.CodeIn ids) :
    CodeIn ids (if c then m.pushWord m.accu else m) := by
  split
  · exact h.pushWord h.accu
  · exact h

theorem closure (h : m.CodeIn ids) (nvars : Nat) (hcode : code.id ∈ ids) :
    Ensures (CodeIn ids) (m.closure rt nvars code) := by
  refine andThen ((h.pushIf _).allocSmall hrt (1 + nvars) closureTag) ?_
  rintro ⟨block, m₁⟩ ⟨hblock, h₁⟩
  exact andThen ((h₁.setAccu hblock).setField block 0 (codeIn_code hcode)) fun _ h₂ =>
    andThen (h₂.copySlots block 1 0 nvars) fun _ h₃ => h₃.raiseSp nvars

theorem closureRec (h : m.CodeIn ids) (nfuncs nvars : Nat) (hcode : code.id ∈ ids) :
    Ensures (CodeIn ids) (m.closureRec rt nfuncs nvars code) := by
  refine andThen ((h.pushIf _).allocSmall hrt (nfuncs * 2 - 1 + nvars) closureTag) ?_
  rintro ⟨block, m₁⟩ ⟨hblock, h₁⟩
  exact andThen ((h₁.setAccu hblock).copySlots block (nfuncs * 2 - 1) 0 nvars) fun _ h₂ =>
    andThen (h₂.raiseSp nvars) fun _ h₃ => andThen (h₃.setField block 0 (codeIn_code hcode)) fun _ h₄ =>
      result (h₄.pushWord hblock)

theorem createRestartClosure (h : m.CodeIn ids) (hcode : code.id ∈ ids) :
    Ensures (CodeIn ids) (m.createRestartClosure rt code) := by
  refine andThen (h.allocSmall hrt _ closureTag) ?_
  rintro ⟨block, m₁⟩ ⟨hblock, h₁⟩
  exact andThen ((h₁.setAccu hblock).setField block 1 h₁.env) fun _ h₂ =>
    andThen (h₂.copySlots block 2 0 _) fun _ h₃ => andThen (h₃.setField block 0 (codeIn_code hcode)) fun _ h₄ =>
      andThen (h₄.raiseSp _) fun _ h₅ => andThen (h₅.slot 1) fun _ hv => andThen (self _) fun _ _ =>
        andThen (self _) fun _ _ => andThen (h₅.raiseSp 3) fun _ h₆ => result { h₆ with env := hv }

end

theorem setClosureRecNestedClos (h : m.CodeIn ids) (idx : Nat) (hcode : code.id ∈ ids) :
    Ensures (CodeIn ids) (m.setClosureRecNestedClos idx code) := by
  refine andThen (h.setField m.accu _ (codeIn_header _ _)) fun m₁ h₁ =>
    andThen (h₁.setField m₁.accu _ (codeIn_code hcode)) fun m₂ h₂ => andThen (fun v hv => ?_) fun v hv =>
      result (h₂.pushWord hv)
  unfold Machine.shiftPtr at hv
  split at hv
  · cases hv
    exact codeIn_ptr _ _
  · cases hv

end Machine.CodeIn

end CamllVM
