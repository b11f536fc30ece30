import CamllVM.Lib.Ensures
import CamllVM.Proof.Calls

/-!
# The code that a program can reach

The code addresses in the registers, on the stack and in the heap come from the instructions that
make closures. So every function that is called is one to which an instruction refers.
-/

namespace CamllVM

open Ensures

variable {rt : Runtime} {ids : Set Int} {m m' : Machine} {v w : Value} {heap : Heap} {i n : Nat}

/-- The function at an address. -/
def CodePtr.id : CodePtr → Int
  | .fn id | .restart id => id

/-- A value that is no code address, or that of a function in `ids`. -/
def Value.CodeIn (ids : Set Int) (v : Value) : Prop := ∀ c, v = .code c → c.id ∈ ids

def StackWords.CodeIn (ids : Set Int) (ws : StackWords) : Prop := ∀ v, some v ∈ ws → v.CodeIn ids

def Heap.CodeIn (ids : Set Int) (heap : Heap) : Prop :=
  ∀ block ∈ heap, StackWords.CodeIn ids block.fields

/-- Every code address in the state is that of a function in `ids`. -/
structure Machine.CodeIn (ids : Set Int) (m : Machine) : Prop where
  accu : m.accu.CodeIn ids
  env : m.env.CodeIn ids
  stack : m.stack.CodeIn ids
  camlExternSp : m.camlExternSp.CodeIn ids
  heap : Heap.CodeIn ids m.heap
  camlGlobalData : m.camlGlobalData.CodeIn ids
  camlExnBucket : m.camlExnBucket.CodeIn ids

structure PrimState.CodeIn (ids : Set Int) (st : PrimState) : Prop where
  heap : Heap.CodeIn ids st.heap
  camlExternSp : st.camlExternSp.CodeIn ids
  camlGlobalData : st.camlGlobalData.CodeIn ids

def PrimArgs.CodeIn (ids : Set Int) : PrimArgs → Prop
  | direct args => ∀ v ∈ args, v.CodeIn ids
  | array words _ => words.CodeIn ids

def Result.CodeIn (ids : Set Int) : Result Value → Prop
  | ret v | raise v => v.CodeIn ids

/-- The OCaml runtime makes no code addresses. -/
structure Runtime.CodeIn (ids : Set Int) (rt : Runtime) : Prop where
  collect : ∀ m c, m.CodeIn ids → rt.collect m = some c → Heap.CodeIn ids c.heap
  primitive : ∀ p args st done, args.CodeIn ids → st.CodeIn ids →
    rt.primitive p args st = some done → done.state.CodeIn ids ∧ done.result.CodeIn ids
  realloc : ∀ n exn, rt.camlReallocStack n = .raise exn → exn.CodeIn ids

/-- The state that an exception is raised in. -/
def Jump.CodeIn (ids : Set Int) : Jump → Prop
  | exit => True
  | longjmp _ m => m.CodeIn ids

/-- What is left by a function that may raise an exception. -/
def Outcome.CodeIn {α : Type} (ids : Set Int) (P : α → Prop) : Outcome α → Prop
  | next a => P a
  | jump j => j.CodeIn ids

/-! ### Words -/

namespace Value

theorem codeIn_int (n : Int) : (int n).CodeIn ids := fun _ h => by cases h

theorem codeIn_raw (w : BitVec 64) : (raw w).CodeIn ids := fun _ h => by cases h

theorem codeIn_header (wosize tag : Nat) : (header wosize tag).CodeIn ids := fun _ h => by cases h

theorem codeIn_ptr (b : Nat) (offset : Int) : (ptr b offset).CodeIn ids := fun _ h => by cases h

theorem codeIn_atom (tag : Nat) : (atom tag).CodeIn ids := fun _ h => by cases h

theorem codeIn_slot (depth : Nat) : (slot depth).CodeIn ids := fun _ h => by cases h

theorem codeIn_bool (b : Bool) : (bool b).CodeIn ids := codeIn_int _

theorem codeIn_ofWord (w : BitVec 64) : (ofWord w).CodeIn ids := by
  unfold ofWord
  split
  · exact codeIn_int _
  · exact codeIn_raw _

theorem codeIn_code {c : CodePtr} (h : c.id ∈ ids) : (code c).CodeIn ids := by
  intro c' heq
  cases heq
  exact h

theorem CodeIn.relocate (h : v.CodeIn ids) (move : Nat → Nat) : (v.relocate move).CodeIn ids := by
  cases v with
  | ptr b offset => exact codeIn_ptr _ _
  | _ => exact h

end Value

namespace StackWords

variable {ws ws' : StackWords}

theorem CodeIn.of_subset (h : ws.CodeIn ids) (hsub : ∀ v, some v ∈ ws' → some v ∈ ws) :
    ws'.CodeIn ids := fun v hv => h v (hsub v hv)

theorem CodeIn.append (h : ws.CodeIn ids) (h' : ws'.CodeIn ids) :
    StackWords.CodeIn ids (ws ++ ws') := fun v hv =>
  (List.mem_append.mp hv).elim (h v) (h' v)

theorem codeIn_replicate (n : Nat) : StackWords.CodeIn ids (List.replicate n none) := by
  intro v hv
  cases (List.mem_replicate.mp hv).2

theorem CodeIn.cons (h : ws.CodeIn ids) (hv : v.CodeIn ids) : StackWords.CodeIn ids (some v :: ws) := by
  intro w hw
  rcases List.mem_cons.mp hw with heq | hw
  · cases heq
    exact hv
  · exact h w hw

theorem CodeIn.drop (h : ws.CodeIn ids) (n : Nat) : StackWords.CodeIn ids (ws.drop n) :=
  h.of_subset fun _ hv => List.mem_of_mem_drop hv

theorem CodeIn.set (h : ws.CodeIn ids) (i : Nat) (hv : v.CodeIn ids) :
    StackWords.CodeIn ids (ws.set i (some v)) := by
  intro w hw
  rcases List.mem_or_eq_of_mem_set hw with hw | heq
  · exact h w hw
  · cases heq
    exact hv

theorem CodeIn.relocate (h : ws.CodeIn ids) (move : Nat → Nat) : (ws.relocate move).CodeIn ids := by
  intro v hv
  obtain ⟨word, hword, heq⟩ := List.mem_map.mp hv
  obtain ⟨w, rfl, rfl⟩ := Option.map_eq_some_iff.mp heq
  exact (h w hword).relocate move

theorem CodeIn.getElem? (h : ws.CodeIn ids) (i : Nat) : Ensures (Value.CodeIn ids) ws[i]?.join :=
  join fun word hword => by
    intro v hv
    cases hv
    exact h v (List.mem_of_getElem? hword)

end StackWords

namespace Heap

theorem CodeIn.field (h : Heap.CodeIn ids heap) (v : Value) (i : Int) :
    Ensures (Value.CodeIn ids) (heap.field v i) := by
  unfold Heap.field
  split
  · refine byCases (fun _ => ?_) fun _ => stuck
    exact andThen (fun block hblock => h block (List.mem_of_getElem? hblock)) fun block hfields =>
      hfields.getElem? _
  · exact stuck

theorem CodeIn.setField (h : Heap.CodeIn ids heap) (v : Value) (i : Int) (hw : w.CodeIn ids) :
    Ensures (Heap.CodeIn ids) (heap.setField v i w) := by
  unfold Heap.setField
  split
  · refine andThen (fun block hblock => h block (List.mem_of_getElem? hblock)) fun block hfields => ?_
    refine byCases (fun _ => result fun block' hmem => ?_) fun _ => stuck
    rcases List.mem_or_eq_of_mem_set hmem with hmem | rfl
    · exact h block' hmem
    · exact hfields.set _ hw
  · exact stuck

theorem CodeIn.append (h : Heap.CodeIn ids heap) (tag wosize : Nat) :
    Heap.CodeIn ids (heap ++ [⟨tag, List.replicate wosize none⟩]) := by
  intro block hmem
  rcases List.mem_append.mp hmem with hmem | hmem
  · exact h block hmem
  · rw [List.mem_singleton.mp hmem]
    exact StackWords.codeIn_replicate wosize

theorem CodeIn.setByteU (h : Heap.CodeIn ids heap) (v : Value) (i c : Int) :
    Ensures (Heap.CodeIn ids) (heap.setByteU v i c) :=
  andThen (self _) fun _ _ => h.setField v _ (Value.codeIn_raw _)

end Heap

/-! ### The operations that the library is made of -/

namespace Machine.CodeIn

theorem setAccu (h : m.CodeIn ids) (hv : v.CodeIn ids) : CodeIn ids { m with accu := v } :=
  { h with accu := hv }

theorem setStack {ws : StackWords} (h : m.CodeIn ids) (hws : ws.CodeIn ids) :
    CodeIn ids { m with stack := ws } := { h with stack := hws }

theorem slot (h : m.CodeIn ids) (i : Nat) : Ensures (Value.CodeIn ids) (m.slot i) :=
  h.stack.getElem? i

theorem raiseSp (h : m.CodeIn ids) (n : Nat) : Ensures (CodeIn ids) (m.raiseSp n) :=
  byCases (fun _ => result (h.setStack (h.stack.drop n))) fun _ => stuck

theorem pushWord (h : m.CodeIn ids) (hv : v.CodeIn ids) : CodeIn ids (m.pushWord v) :=
  h.setStack (h.stack.cons hv)

theorem lowerSp (h : m.CodeIn ids) (n : Nat) : CodeIn ids (m.lowerSp n) :=
  h.setStack ((StackWords.codeIn_replicate n).append h.stack)

theorem setSp (h : m.CodeIn ids) (depth : Nat) : CodeIn ids (m.setSp depth) :=
  h.setStack ((StackWords.codeIn_replicate _).append (h.stack.drop _))

theorem setSlot (h : m.CodeIn ids) (i : Nat) (hv : v.CodeIn ids) :
    Ensures (CodeIn ids) (m.setSlot i v) :=
  byCases (fun _ => result (h.setStack (h.stack.set i hv))) fun _ => stuck

theorem field (h : m.CodeIn ids) (v : Value) (i : Int) :
    Ensures (Value.CodeIn ids) (m.heap.field v i) := h.heap.field v i

theorem setField (h : m.CodeIn ids) (v : Value) (i : Int) (hw : w.CodeIn ids) :
    Ensures (CodeIn ids) (m.setField v i w) :=
  andThen (h.heap.setField v i hw) fun _ hheap => result { h with heap := hheap }

theorem scan (h : m.CodeIn ids) : CodeIn ids m.scan := { h with }

theorem setupForGc (h : m.CodeIn ids) : CodeIn ids m.setupForGc :=
  have hstack := StackWords.CodeIn.cons (h.stack.cons h.env) h.accu
  { h with stack := hstack, camlExternSp := hstack }

theorem minorCollection {c : Collection} (h : m.CodeIn ids) (hheap : Heap.CodeIn ids c.heap) :
    CodeIn ids (m.minorCollection c) :=
  { h with
    stack := h.stack.relocate c.move
    camlExternSp := h.camlExternSp.relocate c.move
    heap := hheap
    camlGlobalData := h.camlGlobalData.relocate c.move }

theorem restoreAfterGc (h : m.CodeIn ids) : Ensures (CodeIn ids) m.restoreAfterGc :=
  andThen (h.slot 0) fun _ haccu => andThen (h.slot 1) fun _ henv => andThen (h.raiseSp 2) fun _ h =>
    result { h with accu := haccu, env := henv }

theorem allocate (h : m.CodeIn ids) (wosize tag : Nat) :
    (m.allocate wosize tag).1.CodeIn ids ∧ CodeIn ids (m.allocate wosize tag).2 :=
  ⟨Value.codeIn_ptr _ _, { h with heap := h.heap.append tag wosize }⟩

theorem setupForCCall (h : m.CodeIn ids) : CodeIn ids m.setupForCCall :=
  have hstack := h.stack.cons h.env
  { h with stack := hstack, camlExternSp := hstack }

theorem restoreAfterCCall (h : m.CodeIn ids) : Ensures (CodeIn ids) m.restoreAfterCCall :=
  have h' : CodeIn ids { m with stack := m.camlExternSp } := h.setStack h.camlExternSp
  andThen (h'.slot 0) fun _ henv => andThen (h'.raiseSp 1) fun _ h => result { h with env := henv }

theorem slots (h : m.CodeIn ids) (i n : Nat) : Ensures (∀ v ∈ ·, v.CodeIn ids) (m.slots i n) := by
  induction n generalizing i with
  | zero =>
      refine result fun v hv => ?_
      cases hv
  | succ n ih =>
      refine andThen (h.slot i) fun v hv => andThen (ih (i + 1)) fun vs hvs => result fun w hw => ?_
      rcases List.mem_cons.mp hw with rfl | hw
      · exact hv
      · exact hvs w hw

theorem setSlots {vs : List Value} (h : m.CodeIn ids) (i : Nat) (hvs : ∀ v ∈ vs, v.CodeIn ids) :
    Ensures (CodeIn ids) (m.setSlots i vs) := by
  induction vs generalizing m i with
  | nil => exact result h
  | cons v vs ih =>
      exact andThen (h.setSlot i (hvs v List.mem_cons_self)) fun m' h' =>
        ih h' (i + 1) fun w hw => hvs w (List.mem_cons_of_mem v hw)

section

variable (hrt : rt.CodeIn ids)

include hrt

theorem reserve (h : m.CodeIn ids) : Ensures (CodeIn ids) (m.reserve rt) := by
  unfold Machine.reserve
  split
  · exact result { h with }
  · next c hc => exact (h.setupForGc.scan.minorCollection (hrt.collect _ c h.setupForGc hc)).restoreAfterGc

theorem allocSmall (h : m.CodeIn ids) (wosize tag : Nat) :
    Ensures (fun p => p.1.CodeIn ids ∧ CodeIn ids p.2) (m.allocSmall rt wosize tag) :=
  andThen (h.reserve hrt) fun _ h => result (h.allocate wosize tag)

theorem allocBlock (h : m.CodeIn ids) (wosize tag : Nat) :
    Ensures (fun p => p.1.CodeIn ids ∧ CodeIn ids p.2) (m.allocBlock rt wosize tag) :=
  byCases (fun _ => h.allocSmall hrt wosize tag) fun _ => result (h.allocate wosize tag)

end

end Machine.CodeIn

end CamllVM
