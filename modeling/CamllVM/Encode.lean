import CamllVM.Decode
import CamllVM.Lib.Layout

/-!
# Symbolic programs and their words

A ZAM program as the bytecode compiler sees it: targets are instructions, not words. `encode` gives
the words of a bytecode file, in which every code offset is the distance from a word of its own
instruction to the first word of the target, and `decoded` the records that decoding should give.
-/

namespace CamllVM

/-- The sizes of the constructors that an instruction of a program of `n` instructions can have
are part of it, so every symbolic program has an encoding. -/
inductive SymInstruction (n : Nat) where
  | plain (op : OpCode) (operands : List Int) (hoffset : codeOffsetArgs op = none)
      (hclosureRec : op ≠ .closureRec) (hswitch : op ≠ .switch)
      (hlength : operands.length = op.arity)
  | offset (op : OpCode) (operands : List Int) (k : Fin 4) (hoffset : codeOffsetArgs op = some k)
      (hlength : operands.length = k) (target : Fin n)
  | closureRec (nvars : Int) (fns : List (Fin n)) (hpos : 1 ≤ fns.length)
      (hmax : fns.length ≤ 32)
  | switch (consts blocks : List (Fin n)) (hconsts : consts.length < 2 ^ 16)
      (hblocks : blocks.length < 2 ^ 15)

/-- An array of a record that was zero before the elements of `l` were stored in it. -/
def pad (n : Nat) (l : List Int) : Vector Int n := Vector.ofFn fun j => l.getD j 0

namespace SymInstruction

variable {n : Nat}

def opNum : SymInstruction n → OpCode
  | plain op .. => op
  | offset op .. => op
  | closureRec .. => .closureRec
  | switch .. => .switch

def width : SymInstruction n → Nat
  | plain _ operands .. => 1 + operands.length
  | offset _ operands .. => 2 + operands.length
  | closureRec _ fns .. => 3 + fns.length
  | switch consts blocks .. => 2 + (consts ++ blocks).length

/-- `(blocks << 16) | consts`. -/
def sizes (consts blocks : List (Fin n)) : Int := blocks.length * 65536 + consts.length

/-- The instruction `plain`, with its conditions as one test. -/
def ofPlain (op : OpCode) (operands : List Int)
    (h : (codeOffsetArgs op == none && op != .closureRec && op != .switch &&
      operands.length == op.arity) = true) : SymInstruction n :=
  .plain op operands (by simp at h; exact h.1.1.1) (by simp at h; exact h.1.1.2)
    (by simp at h; exact h.1.2) (by simp at h; exact h.2)

/-- The instruction `offset`, with its conditions as one test. -/
def ofOffset (op : OpCode) (operands : List Int) (target : Nat)
    (h : (codeOffsetArgs op == some ((codeOffsetArgs op).getD 0) &&
      ((codeOffsetArgs op).getD 0).val == operands.length && decide (target < n)) = true) :
    SymInstruction n :=
  .offset op operands ((codeOffsetArgs op).getD 0) (by simp at h; exact h.1.1)
    (by simp at h; exact h.1.2.symm) ⟨target, by simp at h; exact h.2⟩

/-- The words of an instruction whose opcode is word `at_`, where the code of instruction `t` begins
at word `pos t`. The offsets of a table all count from its first word. -/
def words (pos : Fin n → Int) (at_ : Int) : SymInstruction n → List Int
  | plain op operands .. => op.num :: operands
  | offset op operands _ _ _ target =>
      op.num :: (operands ++ [pos target - (at_ + 1 + operands.length)])
  | closureRec nvars fns .. =>
      OpCode.closureRec.num :: fns.length :: nvars :: fns.map fun t => pos t - (at_ + 3)
  | switch consts blocks .. =>
      OpCode.switch.num :: sizes consts blocks :: (consts ++ blocks).map fun t => pos t - (at_ + 2)

/-- The record of an instruction whose targets are stored as `name` says. -/
def record (name : Fin n → Int) : SymInstruction n → ZInstruction
  | plain op operands .. => { ZInstruction.blank op with args := pad 4 operands }
  | offset op operands _ _ _ target =>
      { ZInstruction.blank op with args := pad 4 (operands ++ [name target]) }
  | closureRec nvars fns .. =>
      { ZInstruction.blank .closureRec with
        args := pad 4 [(fns.length : Int), nvars], closureRecFns := pad 32 (fns.map name) }
  | switch consts blocks .. =>
      { ZInstruction.blank .switch with
        args := pad 4 [sizes consts blocks], switchEntries := (consts ++ blocks).map name }

theorem width_pos (i : SymInstruction n) : 0 < i.width := by
  cases i <;> simp only [width] <;> omega

@[simp]
theorem length_words (pos : Fin n → Int) (at_ : Int) (i : SymInstruction n) :
    (i.words pos at_).length = i.width := by
  cases i <;> simp [words, width] <;> omega

end SymInstruction

/-- A program as a list of instructions whose targets are instructions of the list. -/
structure SymProgram where
  size : Nat
  code : List (SymInstruction size)
  length_code : code.length = size

/-- The words of the instructions `code`, the first of them at word `at_`. -/
def encodeFrom {n : Nat} (pos : Fin n → Int) : Nat → List (SymInstruction n) → List Int
  | _, [] => []
  | at_, i :: code => i.words pos at_ ++ encodeFrom pos (at_ + i.width) code

/-- The records of the instructions `code`, the first of them instruction `idx` at word `at_`. -/
def recordsFrom {n : Nat} (name : Fin n → Int) : Nat → Nat → List (SymInstruction n) →
    List ZInstruction
  | _, _, [] => []
  | idx, at_, i :: code =>
      { i.record name with idx := idx, origIdx := at_ } ::
        recordsFrom name (idx + 1) (at_ + i.width) code

namespace SymProgram

def position (p : SymProgram) (i : Nat) : Nat := Layout.offset SymInstruction.width p.code i

def encode (p : SymProgram) : List Int := encodeFrom (fun t => p.position t) 0 p.code

/-- The records with every target as the index of the instruction it names. -/
def decoded (p : SymProgram) : List ZInstruction := recordsFrom (fun t => (t : Nat)) 0 0 p.code

end SymProgram

end CamllVM
