import CamllVM.Lib.Related
import CamllVM.Runtime.StdLib

/-!
# Relocated states

Two states are related if the second one is the first with its live blocks moved. Nothing is said
about other blocks. What reads and writes through live pointers only keeps states related.
-/

namespace CamllVM

variable {live live' : Set Nat} {move move' : Nat → Nat} {v v' w w' : Value} {heap heap' : Heap}
  {m m' : Machine} {moves : List (Nat → Nat)}

/-- A pointer is into a block of `live`. -/
def Value.Within (live : Set Nat) : Value → Prop
  | .ptr b _ => b ∈ live
  | _ => True

/-- `v'` is the word `v` after the blocks of `live` have been moved. -/
structure Value.Moved (live : Set Nat) (move : Nat → Nat) (v v' : Value) : Prop where
  within : v.Within live
  eq : v' = v.relocate move

/-- The same for a word that may not have been written. -/
abbrev WordMoved (live : Set Nat) (move : Nat → Nat) : Option Value → Option Value → Prop :=
  Option.Rel (Value.Moved live move)

structure Block.Moved (live : Set Nat) (move : Nat → Nat) (block block' : Block) : Prop where
  tag : block'.tag = block.tag
  fields : List.Forall₂ (WordMoved live move) block.fields block'.fields

/-- `heap'` holds the blocks of `live` at the places to which they have been moved. -/
structure Heap.Moved (live : Set Nat) (move : Nat → Nat) (heap heap' : Heap) : Prop where
  injective : Set.InjOn move live
  block : ∀ b ∈ live, ∃ block block', heap[b]? = some block ∧ heap'[move b]? = some block' ∧
    block.Moved live move block'

/-- `m'` is `m` after the blocks of `live` have been moved by the collections `moves`. What the
collector scanned last is left out: `caml_extern_sp` and `scans`. -/
structure Machine.Moved (live : Set Nat) (move : Nat → Nat) (moves : List (Nat → Nat))
    (m m' : Machine) : Prop where
  heap : Heap.Moved live move m.heap m'.heap
  accu : m.accu.Moved live move m'.accu
  env : m.env.Moved live move m'.env
  extraArgs : m'.extraArgs = m.extraArgs
  stack : List.Forall₂ (WordMoved live move) m.stack m'.stack
  camlGlobalData : m.camlGlobalData.Moved live move m'.camlGlobalData
  camlStackThreshold : m'.camlStackThreshold = m.camlStackThreshold
  camlExnBucket : m'.camlExnBucket = m.camlExnBucket
  camlTrapsp : m'.camlTrapsp = m.camlTrapsp
  nextExceptionContext : m'.nextExceptionContext = m.nextExceptionContext
  buffers : m'.buffers = m.buffers
  currentBufferIndex : m'.currentBufferIndex = m.currentBufferIndex
  camlExternalRaise : m'.camlExternalRaise = m.camlExternalRaise
  moves : m'.moves = moves ++ m.moves

/-! ### Words and heaps -/

theorem Value.Moved.mono (h : v.Moved live move v') (hlive : live ⊆ live')
    (hmove : Set.EqOn move move' live) : v.Moved live' move' v' := by
  obtain ⟨hwithin, rfl⟩ := h
  cases v with
  | ptr b offset => exact ⟨hlive hwithin, by rw [relocate, relocate, hmove hwithin]⟩
  | _ => exact ⟨trivial, rfl⟩

theorem wordsMoved_mono {stack stack' : List (Option Value)}
    (h : List.Forall₂ (WordMoved live move) stack stack') (hlive : live ⊆ live')
    (hmove : Set.EqOn move move' live) : List.Forall₂ (WordMoved live' move') stack stack' :=
  h.imp fun _ _ hword => Related.mono hword fun _ _ hv => hv.mono hlive hmove

theorem Value.Moved.ptr {b : Nat} (hb : b ∈ live) (offset : Int) :
    (Value.ptr b offset).Moved live move (.ptr (move b) offset) := ⟨hb, rfl⟩

theorem Value.Moved.shiftPtr (h : v.Moved live move v') (offset : Int) :
    WordMoved live move (Machine.shiftPtr v offset) (Machine.shiftPtr v' offset) := by
  obtain ⟨hwithin, rfl⟩ := h
  cases v with
  | ptr b offset' => exact .some ⟨hwithin, rfl⟩
  | _ => exact .none

theorem Value.Moved.longVal (h : v.Moved live move v') : Option.Rel Eq v.longVal v'.longVal := by
  obtain ⟨-, rfl⟩ := h
  cases v with
  | int n => exact .some rfl
  | raw bits => exact .some rfl
  | _ => exact .none

theorem Heap.Moved.field (h : Heap.Moved live move heap heap') (hv : v.Moved live move v')
    (i : Int) : WordMoved live move (heap.field v i) (heap'.field v' i) := by
  obtain ⟨hwithin, rfl⟩ := hv
  cases v with
  | ptr b offset =>
      obtain ⟨block, block', hb, hb', hmoved⟩ := h.block b hwithin
      refine Related.ite Iff.rfl (fun _ => ?_) fun _ => .none
      rw [hb, hb']
      exact Related.join (Related.getElem? hmoved.fields _)
  | _ => exact .none

theorem Heap.Moved.setField (h : Heap.Moved live move heap heap') (hv : v.Moved live move v')
    (i : Int) (hw : w.Moved live move w') :
    Option.Rel (Heap.Moved live move) (heap.setField v i w) (heap'.setField v' i w') := by
  obtain ⟨hwithin, rfl⟩ := hv
  cases v with
  | ptr b offset =>
      obtain ⟨block, block', hb, hb', hmoved⟩ := h.block b hwithin
      simp only [Heap.setField, Value.relocate, hb, hb', Option.bind_eq_bind, Option.bind_some,
        hmoved.fields.length_eq]
      refine Related.ite Iff.rfl (fun _ => .some ⟨h.injective, fun b₁ hb₁ => ?_⟩) fun _ => .none
      by_cases heq : b₁ = b
      · subst heq
        exact ⟨_, _, List.getElem?_set_self (List.getElem?_eq_some_iff.mp hb).1,
          List.getElem?_set_self (List.getElem?_eq_some_iff.mp hb').1, hmoved.tag,
          Related.set hmoved.fields _ (.some hw)⟩
      · have hne : move b ≠ move b₁ := fun hmove => heq (h.injective hb₁ hwithin hmove.symm)
        obtain ⟨block₁, block₁', hget, hget', hmoved₁⟩ := h.block b₁ hb₁
        exact ⟨block₁, block₁', (List.getElem?_set_ne (Ne.symm heq)).trans hget,
          (List.getElem?_set_ne hne).trans hget', hmoved₁⟩
  | _ => exact .none

theorem Heap.Moved.doubleVal (h : Heap.Moved live move heap heap') (hv : v.Moved live move v') :
    Option.Rel Eq (heap.doubleVal v) (heap'.doubleVal v') := by
  refine Related.bind (h.field hv 0) fun d d' hd => ?_
  obtain ⟨-, rfl⟩ := hd
  cases d with
  | raw bits => exact .some rfl
  | _ => exact .none

theorem Heap.Moved.lt (h : Heap.Moved live move heap heap') {b : Nat} (hb : b ∈ live) :
    b < heap.length ∧ move b < heap'.length := by
  obtain ⟨block, block', hget, hget', -⟩ := h.block b hb
  exact ⟨(List.getElem?_eq_some_iff.mp hget).1, (List.getElem?_eq_some_iff.mp hget').1⟩

theorem Heap.Moved.append (h : Heap.Moved live move heap heap') {block block' : Block}
    (hblock : block.Moved live move block') :
    Heap.Moved (insert heap.length live) (Function.update move heap.length heap'.length)
        (heap ++ [block]) (heap' ++ [block']) ∧
      Set.EqOn move (Function.update move heap.length heap'.length) live := by
  have hmove : ∀ b ∈ live, Function.update move heap.length heap'.length b = move b := fun b hb =>
    Function.update_of_ne (h.lt hb).1.ne _ _
  have hmono : ∀ block₁ block₁' : Block, block₁.Moved live move block₁' →
      block₁.Moved (insert heap.length live) (Function.update move heap.length heap'.length)
        block₁' := fun _ _ hmoved =>
    ⟨hmoved.tag, wordsMoved_mono hmoved.fields (Set.subset_insert _ _) fun b hb => (hmove b hb).symm⟩
  refine ⟨⟨?_, ?_⟩, fun b hb => (hmove b hb).symm⟩
  · rw [Set.injOn_insert fun hnew => absurd (h.lt hnew).1 (lt_irrefl _)]
    refine ⟨h.injective.congr fun b hb => (hmove b hb).symm, ?_⟩
    rintro ⟨b, hb, heq⟩
    rw [hmove b hb, Function.update_self] at heq
    exact absurd (h.lt hb).2 (heq ▸ lt_irrefl _)
  · intro b hb
    rcases hb with rfl | hb
    · rw [Function.update_self]
      exact ⟨block, block', List.getElem?_concat_length .., List.getElem?_concat_length ..,
        hmono _ _ hblock⟩
    · obtain ⟨block₁, block₁', hget, hget', hmoved⟩ := h.block b hb
      rw [hmove b hb]
      exact ⟨block₁, block₁', (List.getElem?_append_left (h.lt hb).1).trans hget,
        (List.getElem?_append_left (h.lt hb).2).trans hget', hmono _ _ hmoved⟩

/-- A block on one side that no live pointer leads to. -/
theorem Heap.Moved.append_left (h : Heap.Moved live move heap heap') (block : Block) :
    Heap.Moved live move (heap ++ [block]) heap' where
  injective := h.injective
  block := fun b hb => by
    obtain ⟨block₁, block₁', hget, hget', hmoved⟩ := h.block b hb
    exact ⟨block₁, block₁', (List.getElem?_append_left (h.lt hb).1).trans hget, hget', hmoved⟩

/-! ### States -/

namespace Machine.Moved

variable (h : Machine.Moved live move moves m m')

include h

theorem setAccu (hv : v.Moved live move v') :
    Machine.Moved live move moves { m with accu := v } { m' with accu := v' } :=
  { h with accu := hv }

theorem slot (i : Nat) : WordMoved live move (m.slot i) (m'.slot i) :=
  Related.join (Related.getElem? h.stack i)

theorem pushWord (hv : v.Moved live move v') :
    Machine.Moved live move moves (m.pushWord v) (m'.pushWord v') :=
  { h with stack := .cons (.some hv) h.stack }

theorem raiseSp (n : Nat) :
    Option.Rel (Machine.Moved live move moves) (m.raiseSp n) (m'.raiseSp n) :=
  Related.ite (by rw [h.stack.length_eq])
    (fun _ => .some { h with stack := List.forall₂_drop n h.stack }) fun _ => .none

theorem setField (hv : v.Moved live move v') (i : Int) (hw : w.Moved live move w') :
    Option.Rel (Machine.Moved live move moves) (m.setField v i w) (m'.setField v' i w') :=
  Related.bind (h.heap.setField hv i hw) fun _ _ hheap => .some { h with heap := hheap }

theorem setClosureRecNestedClos (idx : Nat) (codePtr : CodePtr) :
    Option.Rel (Machine.Moved live move moves) (m.setClosureRecNestedClos idx codePtr)
      (m'.setClosureRecNestedClos idx codePtr) := by
  refine Related.bind (h.setField h.accu _ ⟨trivial, rfl⟩) fun _ _ h =>
    Related.bind (h.setField h.accu _ ⟨trivial, rfl⟩) fun m₁ m₁' h =>
      Related.bind (h.accu.shiftPtr _) fun _ _ hptr => .some (h.pushWord hptr)

theorem fillFromStack (hv : v.Moved live move v') (i n : Nat) :
    Option.Rel (Machine.Moved live move moves) (m.fillFromStack v i n)
      (m'.fillFromStack v' i n) := by
  induction n generalizing m m' i with
  | zero => exact .some h
  | succ n ih =>
      exact Related.bind (h.slot 0) fun _ _ hw => Related.bind (h.setField hv i hw) fun _ _ h =>
        Related.bind (h.raiseSp 1) fun _ _ h => ih h (i + 1)

theorem fillDoubles (hv : v.Moved live move v') (i n : Nat) :
    Option.Rel (Machine.Moved live move moves) (m.fillDoubles v i n) (m'.fillDoubles v' i n) := by
  induction n generalizing m m' i with
  | zero => exact .some h
  | succ n ih =>
      refine Related.bind (h.slot 0) fun _ _ hw => Related.bind (h.heap.doubleVal hw) fun d d' hd => ?_
      obtain rfl := hd
      have hraw : (Value.raw d).Moved live move (.raw d) := ⟨trivial, rfl⟩
      exact Related.bind (h.setField hv i hraw) fun _ _ h =>
        Related.bind (h.raiseSp 1) fun _ _ h => ih h (i + 1)

theorem copySlots (hv : v.Moved live move v') (i j n : Nat) :
    Option.Rel (Machine.Moved live move moves) (m.copySlots v i j n)
      (m'.copySlots v' i j n) := by
  induction n generalizing m m' j with
  | zero => exact .some h
  | succ n ih =>
      exact Related.bind (h.slot j) fun _ _ hw => Related.bind (h.setField hv _ hw) fun _ _ h =>
        ih h (j + 1)

theorem allocate (wosize tag : Nat) :
    let move' := Function.update move m.heap.length m'.heap.length
    Machine.Moved (insert m.heap.length live) move' moves (m.allocate wosize tag).2
        (m'.allocate wosize tag).2 ∧
      (m.allocate wosize tag).1.Moved (insert m.heap.length live) move' (m'.allocate wosize tag).1 ∧
      Set.EqOn move move' live := by
  have hblock : Block.Moved live move ⟨tag, List.replicate wosize none⟩
      ⟨tag, List.replicate wosize none⟩ := ⟨rfl, Related.replicate wosize .none⟩
  obtain ⟨hheap, hmove⟩ := h.heap.append hblock
  have hlive := Set.subset_insert m.heap.length live
  refine ⟨{ h with
    heap := hheap
    accu := h.accu.mono hlive hmove
    env := h.env.mono hlive hmove
    stack := wordsMoved_mono h.stack hlive hmove
    camlGlobalData := h.camlGlobalData.mono hlive hmove }, ?_, hmove⟩
  have hptr : (Value.ptr m.heap.length 0).Moved _
      (Function.update move m.heap.length m'.heap.length) _ :=
    .ptr (Set.mem_insert m.heap.length live) 0
  rwa [Function.update_self] at hptr

end Machine.Moved

end CamllVM
