import CamllVM.Proof.Renaming

/-!
# States that are the same up to the addresses of blocks

The states of two runs of a program that differ in when the collector runs and in where it moves the
blocks. Words are compared by a renaming of the addresses of live blocks; everything else is equal.
-/

namespace CamllVM

/-- A renaming that leaves the blocks of `P` where they are: blocks that no collection moves. -/
structure Naming (P : Set Nat) extends PartialEquiv Nat Nat where
  pinned : ∀ b ∈ P, b ∈ source ∧ toFun b = b

variable {P : Set Nat} {ρ : Naming P} {live : Set Nat} {move : Nat → Nat} {v v' w w' : Value}
  {heap heap' : Heap} {m m' : Machine} {rt : Runtime}

abbrev Value.Same (ρ : Naming P) (v v' : Value) : Prop := v.Moved ρ.source ρ.toPartialEquiv v'

abbrev WordSame (ρ : Naming P) (w w' : Option Value) : Prop := Option.Rel (Value.Same ρ) w w'

abbrev StackWords.Same (ρ : Naming P) (ws ws' : StackWords) : Prop :=
  List.Forall₂ (WordSame ρ) ws ws'

abbrev Heap.Same (ρ : Naming P) (heap heap' : Heap) : Prop :=
  Heap.Moved ρ.source ρ.toPartialEquiv heap heap'

/-- The exception value and what the collector scanned last are left out: `caml_exn_bucket`,
`caml_extern_sp`, `scans` and `moves`. -/
structure Machine.Same (ρ : Naming P) (m m' : Machine) : Prop where
  heap : m.heap.Same ρ m'.heap
  accu : m.accu.Same ρ m'.accu
  env : m.env.Same ρ m'.env
  extraArgs : m'.extraArgs = m.extraArgs
  stack : m.stack.Same ρ m'.stack
  camlGlobalData : m.camlGlobalData.Same ρ m'.camlGlobalData
  camlStackThreshold : m'.camlStackThreshold = m.camlStackThreshold
  camlTrapsp : m'.camlTrapsp = m.camlTrapsp
  nextExceptionContext : m'.nextExceptionContext = m.nextExceptionContext
  buffers : m'.buffers = m.buffers
  currentBufferIndex : m'.currentBufferIndex = m.currentBufferIndex
  camlExternalRaise : m'.camlExternalRaise = m.camlExternalRaise

def Machine.SameUpTo (P : Set Nat) (m m' : Machine) : Prop := ∃ ρ : Naming P, m.Same ρ m'

/-! ### Words -/

namespace Value.Moved

theorem ofInt (n : Int) : (int n).Moved live move (int n) := ⟨trivial, rfl⟩

theorem ofWord (w : BitVec 64) : (Value.ofWord w).Moved live move (Value.ofWord w) := by
  unfold Value.ofWord
  split
  · exact ⟨trivial, rfl⟩
  · exact ⟨trivial, rfl⟩

theorem toWord_eq (h : v.Moved live move v') : v'.toWord = v.toWord := by
  obtain ⟨-, rfl⟩ := h
  cases v <;> rfl

theorem longVal_eq (h : v.Moved live move v') : v'.longVal = v.longVal := by
  obtain ⟨-, rfl⟩ := h
  cases v <;> rfl

theorem lowBit_eq (h : v.Moved live move v') : v'.lowBit = v.lowBit := by
  obtain ⟨-, rfl⟩ := h
  cases v <;> rfl

/-- Two addresses are equal on the one side if they are on the other side. -/
theorem sameWord_eq (hinj : Set.InjOn move live) (hv : v.Moved live move v')
    (hw : w.Moved live move w') : v'.sameWord w' = v.sameWord w := by
  have heq : v' = w' ↔ v = w := by
    obtain ⟨hv, rfl⟩ := hv
    obtain ⟨hw, rfl⟩ := hw
    cases v <;> cases w <;> simp [relocate]
    next b offset b' offset' => exact fun _ => hinj.eq_iff hv hw
  have hbeq : (v' == w') = (v == w) := by
    rw [Bool.eq_iff_iff, beq_iff_eq, beq_iff_eq, heq]
  rw [sameWord, sameWord, hv.toWord_eq, hw.toWord_eq, hbeq]

end Value.Moved

theorem Value.moved_of_immediate (h : v.Within ∅) : v.Moved live move v := by
  cases v with
  | ptr b offset => cases h
  | _ => exact ⟨trivial, rfl⟩

/-! ### Heaps -/

namespace Heap.Moved

variable (h : Heap.Moved live move heap heap') (hv : v.Moved live move v')

include h hv

theorem headerVal_eq : heap'.headerVal v' = heap.headerVal v := by
  have hfield := h.field hv (-1)
  obtain ⟨hwithin, rfl⟩ := hv
  cases v with
  | ptr b offset =>
      by_cases hzero : offset = 0
      · obtain ⟨block, block', hget, hget', htag, hfields⟩ := h.block b hwithin
        subst hzero
        simp [Heap.headerVal, Value.relocate, hget, hget', hfields.length_eq, htag]
      · rw [Value.relocate] at hfield ⊢
        rw [heap.headerVal_inside hzero, heap'.headerVal_inside hzero]
        generalize heap.field (.ptr b offset) (-1) = x at hfield ⊢
        generalize heap'.field (.ptr (move b) offset) (-1) = x' at hfield ⊢
        cases hfield with
        | @some w w' hw =>
            obtain ⟨-, rfl⟩ := hw
            cases w <;> rfl
        | none => rfl
  | _ => rfl

theorem wordAt_eq (i : Int) : (heap'.field v' i).bind Value.toWord =
    (heap.field v i).bind Value.toWord := by
  have hfield := h.field hv i
  generalize heap.field v i = x at hfield ⊢
  generalize heap'.field v' i = x' at hfield ⊢
  cases hfield with
  | some hw => exact hw.toWord_eq
  | none => rfl

theorem byteWord_eq (i : Int) : heap'.byteWord v' i = heap.byteWord v i := by
  have hword := h.wordAt_eq hv (i / 8)
  unfold Heap.byteWord
  simp only [Option.bind_eq_bind, ← Option.bind_assoc] at hword ⊢
  rw [hword]

theorem byteU_eq (i : Int) : heap'.byteU v' i = heap.byteU v i := by
  rw [Heap.byteU, Heap.byteU, h.byteWord_eq hv]

theorem setByteU (i c : Int) :
    Option.Rel (Heap.Moved live move) (heap.setByteU v i c) (heap'.setByteU v' i c) :=
  Related.bindEq (h.byteWord_eq hv i) fun _ => h.setField hv _ ⟨trivial, rfl⟩

end Heap.Moved

/-! ### The stack -/

namespace Machine.Same

variable (h : m.Same ρ m')

include h

theorem length_stack : m'.stack.length = m.stack.length := h.stack.length_eq.symm

theorem setAccu (hv : v.Same ρ v') : Machine.Same ρ { m with accu := v } { m' with accu := v' } :=
  { h with accu := hv }

theorem setEnv (hv : v.Same ρ v') : Machine.Same ρ { m with env := v } { m' with env := v' } :=
  { h with env := hv }

theorem setStack {ws ws' : StackWords} (hws : ws.Same ρ ws') :
    Machine.Same ρ { m with stack := ws } { m' with stack := ws' } :=
  { h with stack := hws }

theorem slot (i : Nat) : WordSame ρ (m.slot i) (m'.slot i) :=
  Related.join (Related.getElem? h.stack i)

theorem setSlot (i : Nat) (hv : v.Same ρ v') :
    Option.Rel (Machine.Same ρ) (m.setSlot i v) (m'.setSlot i v') :=
  Related.ite (by rw [h.length_stack])
    (fun _ => .some (h.setStack (Related.set h.stack i (.some hv)))) fun _ => .none

theorem pushWord (hv : v.Same ρ v') : (m.pushWord v).Same ρ (m'.pushWord v') :=
  h.setStack (.cons (.some hv) h.stack)

theorem lowerSp (n : Nat) : (m.lowerSp n).Same ρ (m'.lowerSp n) :=
  h.setStack (List.rel_append (Related.replicate n .none) h.stack)

theorem raiseSp (n : Nat) : Option.Rel (Machine.Same ρ) (m.raiseSp n) (m'.raiseSp n) :=
  Related.ite (by rw [h.length_stack])
    (fun _ => .some (h.setStack (List.forall₂_drop n h.stack))) fun _ => .none

theorem setSp (depth : Nat) : (m.setSp depth).Same ρ (m'.setSp depth) := by
  unfold Machine.setSp
  rw [h.length_stack]
  exact h.setStack (List.rel_append (Related.replicate _ .none) (List.forall₂_drop _ h.stack))

theorem scan : m.scan.Same ρ m'.scan := { h with }

theorem slots (i n : Nat) :
    Option.Rel (List.Forall₂ (Value.Same ρ)) (m.slots i n) (m'.slots i n) := by
  induction n generalizing i with
  | zero => exact .some .nil
  | succ n ih =>
      exact Related.bind (h.slot i) fun _ _ hv => Related.bind (ih (i + 1)) fun _ _ hvs =>
        .some (.cons hv hvs)

theorem setSlots {vs vs' : List Value} (i : Nat) (hvs : List.Forall₂ (Value.Same ρ) vs vs') :
    Option.Rel (Machine.Same ρ) (m.setSlots i vs) (m'.setSlots i vs') := by
  induction hvs generalizing m m' i with
  | nil => exact .some h
  | cons hv _ ih => exact Related.bind (h.setSlot i hv) fun _ _ h => ih h (i + 1)

theorem slideArgs (distance n : Nat) :
    Option.Rel (Machine.Same ρ) (m.slideArgs distance n) (m'.slideArgs distance n) := by
  induction n generalizing m m' with
  | zero => exact .some h
  | succ n ih =>
      exact Related.bind (h.slot n) fun _ _ hv => Related.bind (h.setSlot _ hv) fun _ _ h => ih h

theorem dropFrame (slotsize nargs : Nat) :
    Option.Rel (Machine.Same ρ) (m.dropFrame slotsize nargs) (m'.dropFrame slotsize nargs) :=
  Related.ite Iff.rfl (fun _ => h.raiseSp _) fun _ => .none

theorem trapLink_eq : m'.trapLink = m.trapLink := by
  have hslot := h.slot 1
  unfold Machine.trapLink
  generalize m.slot 1 = x at hslot ⊢
  generalize m'.slot 1 = x' at hslot ⊢
  cases hslot with
  | @some v v' hv =>
      obtain ⟨-, rfl⟩ := hv
      cases v <;> rfl
  | none => rfl

/-! ### The heap -/

theorem field (hv : v.Same ρ v') (i : Int) : WordSame ρ (m.heap.field v i) (m'.heap.field v' i) :=
  h.heap.field hv i

theorem setHeap (hheap : heap.Same ρ heap') :
    Machine.Same ρ { m with heap := heap } { m' with heap := heap' } := { h with heap := hheap }

theorem setField (hv : v.Same ρ v') (i : Int) (hw : w.Same ρ w') :
    Option.Rel (Machine.Same ρ) (m.setField v i w) (m'.setField v' i w') :=
  Related.bind (h.heap.setField hv i hw) fun _ _ hheap => .some (h.setHeap hheap)

theorem codeVal_eq (hv : v.Same ρ v') : m'.codeVal v' = m.codeVal v := by
  have hfield := h.field hv 0
  unfold Machine.codeVal
  generalize m.heap.field v 0 = x at hfield ⊢
  generalize m'.heap.field v' 0 = x' at hfield ⊢
  cases hfield with
  | @some w w' hw =>
      obtain ⟨-, rfl⟩ := hw
      cases w <;> rfl
  | none => rfl

theorem fillFromStack (hv : v.Same ρ v') (i n : Nat) :
    Option.Rel (Machine.Same ρ) (m.fillFromStack v i n) (m'.fillFromStack v' i n) := by
  induction n generalizing m m' i with
  | zero => exact .some h
  | succ n ih =>
      exact Related.bind (h.slot 0) fun _ _ hw => Related.bind (h.setField hv i hw) fun _ _ h =>
        Related.bind (h.raiseSp 1) fun _ _ h => ih h (i + 1)

theorem fillDoubles (hv : v.Same ρ v') (i n : Nat) :
    Option.Rel (Machine.Same ρ) (m.fillDoubles v i n) (m'.fillDoubles v' i n) := by
  induction n generalizing m m' i with
  | zero => exact .some h
  | succ n ih =>
      refine Related.bind (h.slot 0) fun _ _ hw => Related.bind (h.heap.doubleVal hw) fun d d' hd => ?_
      obtain rfl := hd
      exact Related.bind (h.setField hv i ⟨trivial, rfl⟩) fun _ _ h =>
        Related.bind (h.raiseSp 1) fun _ _ h => ih h (i + 1)

theorem copySlots (hv : v.Same ρ v') (i j n : Nat) :
    Option.Rel (Machine.Same ρ) (m.copySlots v i j n) (m'.copySlots v' i j n) := by
  induction n generalizing m m' j with
  | zero => exact .some h
  | succ n ih =>
      exact Related.bind (h.slot j) fun _ _ hw => Related.bind (h.setField hv _ hw) fun _ _ h =>
        ih h (j + 1)

theorem copyArgs (i n : Nat) :
    Option.Rel (Machine.Same ρ) (m.copyArgs i n) (m'.copyArgs i n) := by
  induction n generalizing m m' i with
  | zero => exact .some h
  | succ n ih =>
      exact Related.bind (h.field h.env _) fun _ _ hw => Related.bind (h.setSlot i hw) fun _ _ h =>
        ih h (i + 1)

end Machine.Same

end CamllVM
