import CamllVM.Encode
import CamllVM.RuntimeCall

/-!
# The calls of C primitives

A call saves `Env` on the stack, lets the primitive work on the stack from `caml_extern_sp` on, and
takes the stack pointer and `Env` back from there. The instructions with a fixed number of arguments
keep to the protocol. For `C_CALLN` the code generator passes the operands in bytecode order, the
number of arguments first, to a function that expects the index of the primitive first.
-/

namespace CamllVM

/-- A call instruction: `C_CALL1` to `C_CALL5` with the index of the primitive, and `C_CALLN` with
the number of arguments and the index. -/
inductive CCall where
  | fixed (extra : Fin 5) (prim : Int)
  | general (nargs : Nat) (hpos : 0 < nargs) (prim : Int)

namespace CCall

def nargs : CCall → Nat
  | fixed extra _ => extra + 1
  | general nargs .. => nargs

def prim : CCall → Int
  | fixed _ prim => prim
  | general _ _ prim => prim

def sym (n : Nat) (c : CCall) : SymInstruction n :=
  match c with
  | fixed 0 prim => .plain .cCall1 [prim] rfl (by decide) (by decide) rfl
  | fixed 1 prim => .plain .cCall2 [prim] rfl (by decide) (by decide) rfl
  | fixed 2 prim => .plain .cCall3 [prim] rfl (by decide) (by decide) rfl
  | fixed 3 prim => .plain .cCall4 [prim] rfl (by decide) (by decide) rfl
  | fixed 4 prim => .plain .cCall5 [prim] rfl (by decide) (by decide) rfl
  | general nargs _ prim => .plain .cCallN [(nargs : Int), prim] rfl (by decide) (by decide) rfl

def inst (c : CCall) : ZInstruction := (c.sym 0).record fun t => (t : Nat)

/-- What the primitive should get: the arguments themselves, or their address and number. -/
def args (c : CCall) (vs : List Value) (rest : StackWords) : PrimArgs :=
  match c with
  | fixed .. => .direct vs
  | general .. => .array (vs.map some ++ rest) vs.length

/-- The stack from `caml_extern_sp` on that the primitive should see. -/
def frame (c : CCall) (env : Value) (v₁ : Value) (stack : StackWords) : StackWords :=
  match c with
  | fixed .. => some env :: stack
  | general .. => some env :: some v₁ :: stack

end CCall

/-- The code generated for the instruction keeps to the C-call protocol: it calls primitive `prim`
on the arguments in order and, if this returns `r` and leaves its frame as it is, up to a
collection, `r` is the result, the arguments on the stack are popped and `Env` is as before. -/
def CallsPrimitive (c : CCall) : Prop :=
  ∀ (rt : Runtime) (m : Machine) (v₁ : Value) (vs : List Value) (rest : StackWords)
    (done : PrimEnd) (r : Value),
    m.accu = v₁ → vs.length + 1 = c.nargs → m.stack = vs.map some ++ rest →
    rt.primitive c.prim (c.args (v₁ :: vs) rest)
      ⟨m.heap, c.frame m.env v₁ m.stack, m.camlGlobalData⟩ = some done →
    done.result = .ret r →
    done.state.camlExternSp = (c.frame m.env v₁ m.stack).relocate done.move →
    ∃ m', (c.inst.runtimeCalls.bind fun cs => RuntimeCall.runAll rt cs m) = some (.next m') ∧
      m'.accu = r ∧ m'.env = m.env.relocate done.move ∧ m'.stack = rest.relocate done.move ∧
      m'.heap = done.state.heap ∧ m'.camlGlobalData = done.state.camlGlobalData ∧
      m'.extraArgs = m.extraArgs ∧ m'.camlTrapsp = m.camlTrapsp

theorem slots_eq (m : Machine) (front rest : StackWords) (vs : List Value)
    (hstack : m.stack = front ++ (vs.map some ++ rest)) :
    m.slots front.length vs.length = some vs := by
  induction vs generalizing front with
  | nil => rfl
  | cons v vs ih =>
      have hrest := ih (front ++ [some v]) (by rw [hstack, List.append_assoc]; rfl)
      have hslot : m.slot front.length = some v := by simp [Machine.slot, hstack]
      rw [List.length_append, List.length_singleton] at hrest
      rw [List.length_cons, Machine.slots, hslot, Option.bind_eq_bind, Option.bind_some, hrest]
      rfl

theorem restoreAfterCCall_eq {m : Machine} {env : Value} {stack : StackWords}
    (h : m.camlExternSp = some env :: stack) :
    m.restoreAfterCCall = some { m with stack := stack, env := env } := by
  simp [Machine.restoreAfterCCall, Machine.slot, Machine.raiseSp, h]

theorem raiseSp_eq {m : Machine} {n : Nat} (h : n ≤ m.stack.length) :
    m.raiseSp n = some { m with stack := m.stack.drop n } := if_pos h

/-- A call of `c_call1` to `c_call5` whose primitive returns. -/
theorem cCall_ret {rt : Runtime} {m : Machine} {vs : List Value} {rest : StackWords}
    {done : PrimEnd} {r : Value} {p : Int} (hstack : m.stack = vs.map some ++ rest)
    (hprim : rt.primitive p (.direct (m.accu :: vs))
      ⟨m.heap, some m.env :: m.stack, m.camlGlobalData⟩ = some done)
    (hret : done.result = .ret r)
    (hkeep : done.state.camlExternSp =
      StackWords.relocate done.move (some m.env :: m.stack)) :
    ∃ m', m.cCall rt vs.length p = some (.next m') ∧ m'.accu = r ∧
      m'.env = m.env.relocate done.move ∧ m'.stack = rest.relocate done.move ∧
      m'.heap = done.state.heap ∧ m'.camlGlobalData = done.state.camlGlobalData ∧
      m'.extraArgs = m.extraArgs ∧ m'.camlTrapsp = m.camlTrapsp := by
  have hargs : m.setupForCCall.slots 1 vs.length = some vs :=
    slots_eq m.setupForCCall [some m.env] rest vs (by rw [Machine.setupForCCall, hstack]; rfl)
  have hlength : vs.length ≤ (StackWords.relocate done.move m.stack).length := by
    simp [StackWords.relocate, hstack]
  have hdrop : (StackWords.relocate done.move m.stack).drop vs.length =
      rest.relocate done.move := by
    simp [StackWords.relocate, hstack]
  have hframe : done.state.camlExternSp =
      some (m.env.relocate done.move) :: StackWords.relocate done.move m.stack := hkeep
  simp only [Machine.cCall, hargs, Option.bind_eq_bind, Option.bind_some, Machine.primitive,
    Machine.scan]
  simp only [Machine.setupForCCall, hprim, hret, Machine.afterPrimitive, Option.pure_def,
    Option.bind_some, Outcome.andThen]
  rw [restoreAfterCCall_eq (by exact hframe), Option.bind_some, raiseSp_eq hlength]
  exact ⟨_, rfl, rfl, rfl, hdrop, rfl, rfl, rfl, rfl⟩

theorem cCallN_ret {rt : Runtime} {m : Machine} {v₁ : Value} {vs : List Value} {rest : StackWords}
    {done : PrimEnd} {r : Value} {p : Int} (haccu : m.accu = v₁)
    (hstack : m.stack = vs.map some ++ rest)
    (hprim : rt.primitive p (.array ((v₁ :: vs).map some ++ rest) (v₁ :: vs).length)
      ⟨m.heap, some m.env :: some v₁ :: m.stack, m.camlGlobalData⟩ = some done)
    (hret : done.result = .ret r)
    (hkeep : done.state.camlExternSp =
      StackWords.relocate done.move (some m.env :: some v₁ :: m.stack)) :
    ∃ m', m.cCallN rt p (v₁ :: vs).length = some (.next m') ∧ m'.accu = r ∧
      m'.env = m.env.relocate done.move ∧ m'.stack = rest.relocate done.move ∧
      m'.heap = done.state.heap ∧ m'.camlGlobalData = done.state.camlGlobalData ∧
      m'.extraArgs = m.extraArgs ∧ m'.camlTrapsp = m.camlTrapsp := by
  have hlength : (v₁ :: vs).length ≤
      (StackWords.relocate done.move (some v₁ :: m.stack)).length := by
    simp [StackWords.relocate, hstack]
  have hdrop : (StackWords.relocate done.move (some v₁ :: m.stack)).drop (v₁ :: vs).length =
      rest.relocate done.move := by
    simp [StackWords.relocate, hstack]
  have hframe : done.state.camlExternSp =
      some (m.env.relocate done.move) ::
        StackWords.relocate done.move (some v₁ :: m.stack) := hkeep
  have hwords : (some m.env :: some v₁ :: m.stack).drop 1 = (v₁ :: vs).map some ++ rest := by
    rw [hstack]
    rfl
  simp only [Machine.cCallN, Machine.primitive, Machine.scan, Machine.setupForCCall,
    Machine.pushWord, haccu, hwords, hprim, hret, Machine.afterPrimitive, Option.bind_eq_bind,
    Option.pure_def, Option.bind_some, Outcome.andThen]
  rw [restoreAfterCCall_eq (by exact hframe), Option.bind_some, if_pos (Int.natCast_nonneg _),
    Int.toNat_natCast, raiseSp_eq hlength]
  exact ⟨_, rfl, rfl, rfl, hdrop, rfl, rfl, rfl, rfl⟩

theorem callsPrimitive_fixed (extra : Fin 5) (p : Int) : CallsPrimitive (.fixed extra p) := by
  intro rt m v₁ vs rest done r haccu hlength hstack hprim hret hkeep
  subst haccu
  obtain ⟨m', hcall, hm'⟩ := cCall_ret hstack hprim hret hkeep
  refine ⟨m', ?_, hm'⟩
  have hextra : vs.length = extra := by simpa [CCall.nargs] using hlength
  rw [hextra] at hcall
  match extra with
  | 0 => exact (RuntimeCall.runAll_singleton rt m (.cCall1 p)).trans hcall
  | 1 => exact (RuntimeCall.runAll_singleton rt m (.cCall2 p)).trans hcall
  | 2 => exact (RuntimeCall.runAll_singleton rt m (.cCall3 p)).trans hcall
  | 3 => exact (RuntimeCall.runAll_singleton rt m (.cCall4 p)).trans hcall
  | 4 => exact (RuntimeCall.runAll_singleton rt m (.cCall5 p)).trans hcall

theorem runtimeCalls_general (nargs : Nat) (hpos : 0 < nargs) (p : Int) :
    (CCall.general nargs hpos p).inst.runtimeCalls = some [.cCallN nargs p] := rfl

theorem callsPrimitive_general_of_eq {nargs : Nat} (hpos : 0 < nargs) :
    CallsPrimitive (.general nargs hpos nargs) := by
  intro rt m v₁ vs rest done r haccu hlength hstack hprim hret hkeep
  obtain rfl : (v₁ :: vs).length = nargs := hlength
  obtain ⟨m', hcall, hm'⟩ := cCallN_ret haccu hstack hprim hret hkeep
  refine ⟨m', ?_, hm'⟩
  rw [runtimeCalls_general, Option.bind_some, RuntimeCall.runAll_singleton]
  exact hcall

/-- A runtime whose only primitive is number `p`. It returns `Val_unit`. -/
def onePrimitive (p : Int) : Runtime where
  collect _ := none
  primitive k _ st := if k = p then some ⟨st, id, .ret .unit⟩ else none
  camlReallocStack n := .ret n

theorem not_callsPrimitive_general {nargs : Nat} (hpos : 0 < nargs) {p : Int}
    (hne : p ≠ nargs) : ¬CallsPrimitive (.general nargs hpos p) := by
  intro hcalls
  let vs := List.replicate (nargs - 1) Value.unit
  let m := { Machine.start [] .unit 0 with accu := .unit, stack := vs.map some }
  obtain ⟨m', hrun, -⟩ := hcalls (onePrimitive p) m .unit vs []
    ⟨⟨[], some (.raw 0) :: some .unit :: vs.map some, .unit⟩, id, .ret .unit⟩ .unit rfl
    (by simp only [vs, List.length_replicate, CCall.nargs]; omega) (by simp [m])
    (by simp [onePrimitive, CCall.prim, CCall.frame, m, Machine.start]) rfl
    (by simp [CCall.frame, m, Machine.start])
  rw [runtimeCalls_general, Option.bind_some, RuntimeCall.runAll_singleton] at hrun
  simp only [RuntimeCall.run, Machine.cCallN, Machine.primitive, onePrimitive, if_neg hne.symm] at hrun
  cases hrun

/-- The code generated for a call of a primitive keeps to the protocol exactly for the instructions
with a fixed number of arguments and for the primitives whose index is the number of arguments. -/
theorem callsPrimitive_iff (c : CCall) :
    CallsPrimitive c ↔ (∃ extra prim, c = .fixed extra prim) ∨ c.prim = c.nargs := by
  cases c with
  | fixed extra p => exact ⟨fun _ => .inl ⟨extra, p, rfl⟩, fun _ => callsPrimitive_fixed extra p⟩
  | general nargs hpos p =>
      constructor
      · intro hcalls
        by_contra hne
        exact not_callsPrimitive_general hpos (fun heq => hne (.inr heq)) hcalls
      · rintro (⟨extra, prim, hform⟩ | heq)
        · cases hform
        · obtain rfl : p = nargs := heq
          exact callsPrimitive_general_of_eq hpos

/-- A call of primitive 2 with six arguments calls primitive 6 with a count of 2. -/
theorem not_callsPrimitive_six_two :
    (CCall.general 6 (by decide) 2).inst.runtimeCalls = some [.cCallN 6 2] ∧
      ¬CallsPrimitive (.general 6 (by decide) 2) :=
  ⟨rfl, not_callsPrimitive_general (by decide) (by decide)⟩

end CamllVM
