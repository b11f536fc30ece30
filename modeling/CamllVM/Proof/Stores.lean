import CamllVM.Lib.WordBytes
import CamllVM.Proof.Arithmetic
import CamllVM.Proof.Calls

/-!
# Storing instructions

What the bytecode prescribes for the instructions that store: the place that is written, the word it
gets, and the number of words that are taken off the stack. Each of them writes this place and no
other. `SETGLOBAL` leaves the accumulator as it is, the others set it to unit.
-/

namespace CamllVM

open TaggedWord

/-- A place in the heap or on the stack: word `j` of a block, byte `k` of a block, or the word `n`
above the stack pointer. -/
inductive Location where
  | word (b j : Nat)
  | byte (b k : Nat)
  | slot (n : Nat)

/-- The number of stack operands is `pops`. -/
structure Store where
  location : Location
  value : Value
  pops : Nat

namespace Heap

/-- The words of the blocks by block and index. A word that has not been written is `some none`. -/
def word (heap : Heap) (p : Nat × Nat) : Option (Option Value) := do
  let block ← heap[p.1]?
  block.fields[p.2]?

def byte (heap : Heap) (p : Nat × Nat) : Option Int := heap.byteU (.ptr p.1 0) p.2

def shape (heap : Heap) : List (Nat × Nat) := heap.map fun block => (block.tag, block.fields.length)

/-- The place of `Field(v, i)`. -/
def wordLocation (heap : Heap) (v : Value) (i : Int) : Option Location :=
  match v with
  | .ptr b offset =>
      if 0 ≤ offset + i ∧ (heap.word (b, (offset + i).toNat)).isSome then
        some (.word b (offset + i).toNat)
      else
        none
  | _ => none

/-- The place of `Byte_u(v, i)`. -/
def byteLocation (heap : Heap) (v : Value) (i : Int) : Option Location := do
  let _ ← heap.byteWord v i
  match v with
  | .ptr b offset => some (.byte b (8 * offset + i).toNat)
  | _ => none

/-- Word `j` of block `b` becomes `w`, and nothing else changes. -/
structure WritesWord (b j : Nat) (w : Value) (heap heap' : Heap) : Prop where
  shape : heap'.shape = heap.shape
  word : heap'.word = Function.update heap.word (b, j) (some (some w))

/-- Byte `k` of block `b` becomes the byte of `c`, and nothing else changes. -/
structure WritesByte (b k : Nat) (c : Int) (heap heap' : Heap) : Prop where
  shape : heap'.shape = heap.shape
  byte : heap'.byte = Function.update heap.byte (b, k) (some (c % 256))
  word : ∀ p, p ≠ (b, k / 8) → heap'.word p = heap.word p

end Heap

/-- An integer or the bits of one, increased. -/
def Value.plus : Value → Int → Option Value
  | .int n, k => some (.int (reduce63 (n + k)))
  | .raw w, k => some (.ofWord (w + BitVec.ofInt 64 (2 * k)))
  | _, _ => none

/-- The store that the bytecode prescribes, if the place exists. -/
def ZInstruction.store (inst : ZInstruction) (m : Machine) : Option Store :=
  match inst.opNum with
  | .setField0 => do return ⟨← m.heap.wordLocation m.accu 0, ← m.slot 0, 1⟩
  | .setField1 => do return ⟨← m.heap.wordLocation m.accu 1, ← m.slot 0, 1⟩
  | .setField2 => do return ⟨← m.heap.wordLocation m.accu 2, ← m.slot 0, 1⟩
  | .setField3 => do return ⟨← m.heap.wordLocation m.accu 3, ← m.slot 0, 1⟩
  | .setField => do return ⟨← m.heap.wordLocation m.accu (inst.arg 0), ← m.slot 0, 1⟩
  | .setFloatField => do
      let d ← m.heap.doubleVal (← m.slot 0)
      return ⟨← m.heap.wordLocation m.accu (inst.arg 0), .raw d, 1⟩
  | .setVectItem => do
      let idx ← (← m.slot 0).longVal
      return ⟨← m.heap.wordLocation m.accu idx, ← m.slot 1, 2⟩
  | .setStringChar => do
      let idx ← (← m.slot 0).longVal
      let c ← (← m.slot 1).longVal
      return ⟨← m.heap.byteLocation m.accu idx, .int c, 2⟩
  | .assign => do
      let n ← inst.countArg 0
      let _ ← m.stack[n]?
      return ⟨.slot n, m.accu, 0⟩
  | .offsetRef => do
      let w ← (← m.heap.field m.accu 0).plus (inst.arg 0)
      return ⟨← m.heap.wordLocation m.accu 0, w, 0⟩
  | .setGlobal => do return ⟨← m.heap.wordLocation m.camlGlobalData (inst.arg 0), m.accu, 0⟩
  | _ => none

/-- The place is written and the operands are taken off the stack. -/
def Location.Writes (v : Value) (pops : Nat) (m m' : Machine) : Location → Prop
  | word b j => m.heap.WritesWord b j v m'.heap ∧ m'.stack = m.stack.drop pops
  | byte b k => ∃ c, v = .int c ∧ m.heap.WritesByte b k c m'.heap ∧ m'.stack = m.stack.drop pops
  | slot n => m'.heap = m.heap ∧ m'.stack = (m.stack.set n (some v)).drop pops

/-- A store that leaves unit and changes nothing but the place, the stack and the accumulator. -/
structure Store.Done (st : Store) (m m' : Machine) : Prop where
  writes : st.location.Writes st.value st.pops m m'
  others : m' = { m with heap := m'.heap, stack := m'.stack, accu := m'.accu }
  unit : m'.accu = .unit

/-- The instruction makes the store that is prescribed. -/
def StoresUnit (rt : Runtime) (inst : ZInstruction) (s : Exec) (st : Store) : Prop :=
  ∃ m, s.step rt inst = some { s with machine := m, control := .inside } ∧ st.Done s.machine m

variable {rt : Runtime} {inst : ZInstruction} {s : Exec} {m : Machine} {heap : Heap} {v w : Value}
  {i : Int} {loc : Location} {st : Store}

namespace Heap

theorem word_set {b j : Nat} {block : Block} (hblock : heap[b]? = some block)
    (hj : j < block.fields.length) (w : Option Value) :
    Heap.word (heap.set b { block with fields := block.fields.set j w }) =
      Function.update heap.word (b, j) (some w) := by
  obtain ⟨hb, -⟩ := List.getElem?_eq_some_iff.mp hblock
  ext1 p
  obtain ⟨b', j'⟩ := p
  by_cases hb' : b' = b
  · subst hb'
    by_cases hj' : j' = j
    · subst hj'
      rw [Function.update_self, word, List.getElem?_set_self hb]
      exact List.getElem?_set_self hj
    · rw [Function.update_of_ne (by simp [hj']), word, word, List.getElem?_set_self hb, hblock]
      exact List.getElem?_set_ne (Ne.symm hj')
  · rw [Function.update_of_ne (by simp [hb']), word, word, List.getElem?_set_ne (Ne.symm hb')]

theorem shape_set {b : Nat} {block : Block} (hblock : heap[b]? = some block) (j : Nat)
    (w : Option Value) :
    Heap.shape (heap.set b { block with fields := block.fields.set j w }) = heap.shape := by
  have hshape : heap.shape[b]? = some (block.tag, block.fields.length) := by
    rw [shape, List.getElem?_map, hblock, Option.map_some]
  obtain ⟨hb, hget⟩ := List.getElem?_eq_some_iff.mp hshape
  have hset := List.set_getElem_self hb
  rw [hget] at hset
  rw [shape, List.map_set, List.length_set]
  exact hset

theorem setField_of_wordLocation (h : heap.wordLocation v i = some loc) (w : Value) :
    ∃ b j heap', loc = .word b j ∧ heap.setField v i w = some heap' ∧
      heap.WritesWord b j w heap' := by
  unfold wordLocation at h
  split at h
  · next b offset =>
      split at h
      · next hword =>
          cases h
          obtain ⟨hle, hsome⟩ := hword
          obtain ⟨word, hword⟩ := Option.isSome_iff_exists.mp hsome
          obtain ⟨block, hblock, hfield⟩ := Option.bind_eq_some_iff.mp hword
          obtain ⟨hlt, -⟩ := List.getElem?_eq_some_iff.mp hfield
          refine ⟨b, _, _, rfl, ?_, ⟨shape_set hblock _ _, word_set hblock hlt _⟩⟩
          rw [setField, hblock]
          exact if_pos ⟨hle, hlt⟩
      · cases h
  · cases h

theorem field_eq_word (heap : Heap) (b : Nat) {offset : Int} {j : Nat} (hj : offset + i = j) :
    heap.field (.ptr b offset) i = (heap.word (b, j)).join := by
  rw [field, hj, if_pos (Int.natCast_nonneg j), Int.toNat_natCast, word]
  cases heap[b]? <;> rfl

theorem byte_eq_word (heap : Heap) (p : Nat × Nat) :
    heap.byte p = ((heap.word (p.1, p.2 / 8)).join.bind Value.toWord).map
      fun bits => ((WordBytes.byte bits (8 * (p.2 % 8))).toNat : Int) := by
  have hindex : (0 : Int) + (p.2 : Int) / 8 = ((p.2 / 8 : Nat) : Int) := by omega
  have hbit : ((p.2 : Int) % 8).toNat = p.2 % 8 := by omega
  simp only [byte, byteU, byteWord, field_eq_word heap p.1 hindex, hbit, Option.bind_eq_bind]
  cases (heap.word (p.1, p.2 / 8)).join with
  | none => rfl
  | some word =>
      rw [Option.bind_some, Option.bind_some]
      cases word.toWord <;> rfl

theorem setByteU_of_byteLocation (h : heap.byteLocation v i = some loc) (c : Int) :
    ∃ b k heap', loc = .byte b k ∧ heap.setByteU v i c = some heap' ∧
      heap.WritesByte b k c heap' := by
  obtain ⟨found, hbyte, h⟩ := Option.bind_eq_some_iff.mp h
  obtain ⟨w, hfield, hbits⟩ := Option.bind_eq_some_iff.mp hbyte
  obtain ⟨bits, hword, hfound⟩ := Option.bind_eq_some_iff.mp hbits
  cases hfound
  cases v with
  | ptr b offset =>
      cases h
      have hle : 0 ≤ offset + i / 8 := by
        by_contra hneg
        rw [field, if_neg hneg] at hfield
        cases hfield
      obtain ⟨k, hk⟩ : ∃ k : Nat, 8 * offset + i = k := ⟨(8 * offset + i).toNat, by omega⟩
      have hindex : offset + i / 8 = (k / 8 : Nat) := by omega
      have hbit : (i % 8).toNat = k % 8 := by omega
      rw [field_eq_word heap b hindex] at hfield
      have hlocation : heap.wordLocation (.ptr b offset) (i / 8) = some (.word b (k / 8)) := by
        rw [wordLocation, hindex, Int.toNat_natCast]
        exact if_pos ⟨Int.natCast_nonneg _, by rw [Option.join_eq_some_iff.mp hfield]; rfl⟩
      obtain ⟨b', j, heap', hloc, hset, hwrites⟩ := setField_of_wordLocation hlocation
        (.raw (WordBytes.setByte bits (8 * (k % 8)) (BitVec.ofInt 64 c)))
      cases hloc
      refine ⟨b, k, heap', by rw [hk, Int.toNat_natCast], ?_, hwrites.shape, ?_, ?_⟩
      · rw [setByteU, hbyte, hbit]
        exact hset
      · ext1 p
        rw [byte_eq_word, hwrites.word]
        by_cases hp : p = (b, k)
        · subst hp
          rw [Function.update_self, Function.update_self, Option.join_some, Option.bind_some,
            Value.toWord, Option.map_some, WordBytes.byte_setByte_self _ _ (by omega),
            WordBytes.toNat_ofInt_and c (by decide)]
        · rw [Function.update_of_ne hp, byte_eq_word]
          by_cases hsame : (p.1, p.2 / 8) = (b, k / 8)
          · obtain ⟨b', k'⟩ := p
            obtain ⟨rfl, hdiv⟩ := Prod.mk.inj hsame
            have hne : k' ≠ k := fun heq => hp (congrArg (Prod.mk b') heq)
            rw [hsame, Function.update_self, hfield, Option.join_some, Option.bind_some,
              Option.bind_some, Value.toWord, hword, Option.map_some, Option.map_some,
              WordBytes.byte_setByte_of_disjoint _ _ (by omega)]
          · rw [Function.update_of_ne hsame]
      · intro p hp
        rw [hwrites.word, Function.update_of_ne hp]
  | _ => cases h

end Heap

namespace Machine

theorem raiseSp_one (h : m.slot 0 = some v) :
    m.raiseSp 1 = some { m with stack := m.stack.drop 1 } := if_pos (slot_lt h)

theorem raiseSp_two (h : m.slot 1 = some v) :
    m.raiseSp 2 = some { m with stack := m.stack.drop 2 } := if_pos (slot_lt h)

def stored (m : Machine) (heap : Heap) (pops : Nat) : Machine :=
  { m with heap := heap, stack := m.stack.drop pops, accu := .unit }

theorem storeField_done (hloc : m.heap.wordLocation m.accu i = some loc) (hw : m.slot 0 = some w) :
    ∃ m', m.storeField i = some m' ∧ Store.Done ⟨loc, w, 1⟩ m m' := by
  obtain ⟨b, j, heap, rfl, hset, hwrites⟩ := Heap.setField_of_wordLocation hloc w
  refine ⟨m.stored heap 1, ?_, ⟨hwrites, rfl⟩, rfl, rfl⟩
  simp only [storeField, hw, raiseSp_one hw, setField, hset, Option.bind_eq_bind, Option.bind_some]
  rfl

theorem storeDoubleField_done {d : BitVec 64} (hw : m.slot 0 = some w)
    (hd : m.heap.doubleVal w = some d) (hloc : m.heap.wordLocation m.accu i = some loc) :
    ∃ m', m.storeDoubleField i = some m' ∧ Store.Done ⟨loc, .raw d, 1⟩ m m' := by
  obtain ⟨b, j, heap, rfl, hset, hwrites⟩ := Heap.setField_of_wordLocation hloc (.raw d)
  refine ⟨m.stored heap 1, ?_, ⟨hwrites, rfl⟩, rfl, rfl⟩
  simp only [storeDoubleField, hw, hd, setField, hset, Option.bind_eq_bind, Option.bind_some]
  exact if_pos (slot_lt hw)

theorem setVectItem_done (hv : m.slot 0 = some v) (hidx : v.longVal = some i)
    (hloc : m.heap.wordLocation m.accu i = some loc) (hw : m.slot 1 = some w) :
    ∃ m', m.setVectItem = some m' ∧ Store.Done ⟨loc, w, 2⟩ m m' := by
  obtain ⟨b, j, heap, rfl, hset, hwrites⟩ := Heap.setField_of_wordLocation hloc w
  refine ⟨m.stored heap 2, ?_, ⟨hwrites, rfl⟩, rfl, rfl⟩
  simp only [setVectItem, hv, hidx, hw, raiseSp_two hw, setField, hset, Option.bind_eq_bind,
    Option.bind_some]
  rfl

theorem setStringChar_done {c : Int} (hv : m.slot 0 = some v) (hidx : v.longVal = some i)
    (hw : m.slot 1 = some w) (hc : w.longVal = some c)
    (hloc : m.heap.byteLocation m.accu i = some loc) :
    ∃ m', m.setStringChar = some m' ∧ Store.Done ⟨loc, .int c, 2⟩ m m' := by
  obtain ⟨b, k, heap, rfl, hset, hwrites⟩ := Heap.setByteU_of_byteLocation hloc c
  refine ⟨m.stored heap 2, ?_, ⟨c, rfl, hwrites, rfl⟩, rfl, rfl⟩
  have hpop : { m with heap := heap }.raiseSp 2 =
      some { m with heap := heap, stack := m.stack.drop 2 } := if_pos (slot_lt hw)
  simp only [setStringChar, hv, hidx, hw, hc, hset, hpop, Option.bind_eq_bind, Option.bind_some]
  rfl

theorem assign_done {n : Nat} (hn : n < m.stack.length) :
    ∃ m', m.assign n = some m' ∧ Store.Done ⟨.slot n, m.accu, 0⟩ m m' := by
  refine ⟨{ m with stack := m.stack.set n (some m.accu), accu := .unit }, ?_, ⟨rfl, rfl⟩, rfl, rfl⟩
  rw [assign, setSlot_eq hn]
  rfl

theorem exists_bits_of_plus {k : Int} (h : v.plus k = some w) :
    ∃ bits, v.toWord = some bits ∧ w = .ofWord (bits + BitVec.ofInt 64 (2 * k)) := by
  cases v with
  | int n =>
      cases h
      refine ⟨tag 64 n, rfl, ?_⟩
      rw [tag_offset, ofWord_tag]
  | raw bits =>
      cases h
      exact ⟨bits, rfl, rfl⟩
  | _ => cases h

theorem offsetRef_done {k : Int} (hv : m.heap.field m.accu 0 = some v) (hw : v.plus k = some w)
    (hloc : m.heap.wordLocation m.accu 0 = some loc) :
    ∃ m', m.offsetRef k = some m' ∧ Store.Done ⟨loc, w, 0⟩ m m' := by
  obtain ⟨bits, hbits, rfl⟩ := exists_bits_of_plus hw
  obtain ⟨b, j, heap, rfl, hset, hwrites⟩ := Heap.setField_of_wordLocation hloc
    (.ofWord (bits + BitVec.ofInt 64 (2 * k)))
  refine ⟨m.stored heap 0, ?_, ⟨hwrites, rfl⟩, rfl, rfl⟩
  simp only [offsetRef, hv, hbits, setField, hset, Option.bind_eq_bind, Option.bind_some]
  rfl

end Machine

theorem StoresUnit.of_run {c : RuntimeCall} {o : Option Machine}
    (hcall : inst.runtimeCalls = some [c]) (hrun : c.run rt s.machine = RuntimeCall.plain o)
    (h : ∃ m, o = some m ∧ st.Done s.machine m) : StoresUnit rt inst s st := by
  obtain ⟨m, rfl, hdone⟩ := h
  exact ⟨m, Exec.step_of_run hcall hrun, hdone⟩

theorem storesUnit_storeField (hcall : inst.runtimeCalls = some [.setField i])
    (hst : (do return ⟨← s.machine.heap.wordLocation s.machine.accu i, ← s.machine.slot 0, 1⟩) =
      some st) :
    StoresUnit rt inst s st := by
  simp only [Option.bind_eq_bind, Option.bind_eq_some_iff] at hst
  obtain ⟨loc, hloc, w, hw, hst⟩ := hst
  cases hst
  exact .of_run hcall rfl (Machine.storeField_done hloc hw)

theorem storesUnit_of_ne (hst : inst.store s.machine = some st) (hne : inst.opNum ≠ .setGlobal) :
    StoresUnit rt inst s st := by
  unfold ZInstruction.store at hst
  split at hst
  case h_1 hop => exact storesUnit_storeField (by simp only [ZInstruction.runtimeCalls, hop]) hst
  case h_2 hop => exact storesUnit_storeField (by simp only [ZInstruction.runtimeCalls, hop]) hst
  case h_3 hop => exact storesUnit_storeField (by simp only [ZInstruction.runtimeCalls, hop]) hst
  case h_4 hop => exact storesUnit_storeField (by simp only [ZInstruction.runtimeCalls, hop]) hst
  case h_5 hop => exact storesUnit_storeField (by simp only [ZInstruction.runtimeCalls, hop]) hst
  case h_11 hop => exact absurd hop hne
  case h_12 => cases hst
  all_goals simp only [Option.bind_eq_bind, Option.bind_eq_some_iff] at hst
  case h_6 hop =>
    obtain ⟨w, hw, d, hd, loc, hloc, hst⟩ := hst
    cases hst
    exact .of_run (c := .storeDoubleField (inst.arg 0)) (by simp only [ZInstruction.runtimeCalls, hop])
      rfl (Machine.storeDoubleField_done hw hd hloc)
  case h_7 hop =>
    obtain ⟨v, hv, idx, hidx, loc, hloc, w, hw, hst⟩ := hst
    cases hst
    exact .of_run (c := .setVectItem) (by simp only [ZInstruction.runtimeCalls, hop]) rfl
      (Machine.setVectItem_done hv hidx hloc hw)
  case h_8 hop =>
    obtain ⟨v, hv, idx, hidx, w, hw, c, hc, loc, hloc, hst⟩ := hst
    cases hst
    exact .of_run (c := .setStringChar) (by simp only [ZInstruction.runtimeCalls, hop]) rfl
      (Machine.setStringChar_done hv hidx hw hc hloc)
  case h_9 hop =>
    obtain ⟨n, hn, word, hword, hst⟩ := hst
    cases hst
    have hcall : inst.runtimeCalls = some [.assign n] := by
      simp only [ZInstruction.runtimeCalls, hop, hn, Option.bind_eq_bind, Option.bind_some]
      rfl
    exact .of_run hcall rfl (Machine.assign_done (List.getElem?_eq_some_iff.mp hword).1)
  case h_10 hop =>
    obtain ⟨v, hv, w, hw, loc, hloc, hst⟩ := hst
    cases hst
    exact .of_run (c := .offsetRef (inst.arg 0)) (by simp only [ZInstruction.runtimeCalls, hop]) rfl
      (Machine.offsetRef_done hv hw hloc)

theorem step_setGlobal (rt : Runtime) (hst : inst.store s.machine = some st)
    (hop : inst.opNum = .setGlobal) :
    ∃ b j heap, st = ⟨.word b j, s.machine.accu, 0⟩ ∧
      s.machine.heap.WritesWord b j s.machine.accu heap ∧
      s.step rt inst =
        some { s with machine := { s.machine with heap := heap }, control := .inside } := by
  simp only [ZInstruction.store, hop, Option.bind_eq_bind, Option.bind_eq_some_iff] at hst
  obtain ⟨loc, hloc, hst⟩ := hst
  cases hst
  obtain ⟨b, j, heap, rfl, hset, hwrites⟩ := Heap.setField_of_wordLocation hloc s.machine.accu
  refine ⟨b, j, heap, rfl, hwrites, Exec.step_of_run (c := .setGlobal (inst.arg 0)) ?_ ?_⟩
  · simp only [ZInstruction.runtimeCalls, hop]
  · rw [RuntimeCall.run, Machine.setGlobal, Machine.setField, hset]
    rfl

/-- The stores are those of the bytecode, and they leave unit: `SETGLOBAL` only where the accumulator
is unit already. -/
theorem storesUnit_iff (hst : inst.store s.machine = some st) :
    StoresUnit rt inst s st ↔ inst.opNum ≠ .setGlobal ∨ s.machine.accu = .unit := by
  by_cases hop : inst.opNum = .setGlobal
  · obtain ⟨b, j, heap, rfl, hwrites, hstep⟩ := step_setGlobal rt hst hop
    constructor
    · rintro ⟨m, hstep', hdone⟩
      obtain rfl : { s.machine with heap := heap } = m :=
        congrArg Exec.machine (Option.some.inj (hstep.symm.trans hstep'))
      exact .inr hdone.unit
    · intro h
      exact ⟨_, hstep, ⟨hwrites, rfl⟩, rfl, h.resolve_left (not_not.mpr hop)⟩
  · exact iff_of_true (storesUnit_of_ne hst hop) (.inl hop)

/-- A string of one word, the index 3 and the character 255. -/
def stringAndChar : Exec :=
  .start { Machine.start [⟨252, [some (.raw 0)]⟩] .unit 100 with
    accu := .ptr 0 0, stack := [some (.int 3), some (.int 255)] }

theorem storesUnit_iff_stringAndChar :
    StoresUnit .idle (.blank .setStringChar) stringAndChar ⟨.byte 0 3, .int 255, 2⟩ ↔
      OpCode.setStringChar ≠ .setGlobal ∨ Value.ptr 0 0 = .unit :=
  @storesUnit_iff .idle (.blank .setStringChar) stringAndChar _ rfl

/-- One global, and the integer 5 to store in it. -/
def globalAndFive : Exec :=
  .start { Machine.start [⟨0, [some (.int 0)]⟩] (.ptr 0 0) 100 with accu := .int 5 }

/-- The accumulator still holds 5. -/
theorem not_storesUnit_globalAndFive :
    (ZInstruction.blank .setGlobal).store globalAndFive.machine = some ⟨.word 0 0, .int 5, 0⟩ ∧
      ¬StoresUnit .idle (.blank .setGlobal) globalAndFive ⟨.word 0 0, .int 5, 0⟩ := by
  refine ⟨rfl, ?_⟩
  rintro ⟨m, hstep, hdone⟩
  have haccu : (globalAndFive.step .idle (.blank .setGlobal)).map (·.machine.accu) =
      some (.int 5) := rfl
  rw [hstep] at haccu
  have hunit : Value.unit = .int 5 := hdone.unit.symm.trans (Option.some.inj haccu)
  exact absurd hunit (by decide)

end CamllVM
