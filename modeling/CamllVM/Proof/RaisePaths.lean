import CamllVM.Lib.Runs
import CamllVM.Proof.Steps

/-!
# The two ways of raising an exception

`RAISE` jumps to the innermost context of the chain, and a primitive to the context that
`caml_external_raise` points at. The pointer is kept up to date by every installation and removal of
a context but one: after the removal of the last context it is the address of a buffer that does not
exist, and not null.
-/

namespace CamllVM

open Runs

/-- The context that a jump goes to, unless the exception is uncaught. -/
def Jump.context : Jump → Option Nat
  | exit => none
  | longjmp i _ => some i

/-- The pointer to the buffer of a context, or null if there is none. -/
def ExternalRaise.ofContext : Option Nat → ExternalRaise
  | none => null
  | some i => jmpBuf i

/-- `caml_external_raise` points at the innermost context and is null without one, so that an
exception of a primitive goes where a `RAISE` in the same state goes. -/
structure Machine.RaisePathsAgree (m : Machine) : Prop where
  pointer : m.camlExternalRaise = .ofContext m.nextExceptionContext
  target : ∀ exn, (m.camlRaise exn).map Jump.context = some (m.throwException exn).context

/-- A step that removes a context, at `POPTRAP` or where a handler is entered, finds another context
below it. -/
def RemovesNotLast (s : Exec) (inst : ZInstruction) (s' : Exec) : Prop :=
  inst.opNum = .popTrap ∨ (∃ b, s'.control = .handler b) →
    ∃ i j, s.machine.nextExceptionContext = some i ∧ s.machine.buffers i = some j

theorem Machine.raisePathsAgree_of_pointer {m : Machine}
    (h : m.camlExternalRaise = .ofContext m.nextExceptionContext) : m.RaisePathsAgree := by
  refine ⟨h, fun exn => ?_⟩
  cases hnext : m.nextExceptionContext with
  | none =>
      rw [hnext] at h
      simp only [camlRaise, throwException, h, hnext, ExternalRaise.ofContext]
      rfl
  | some i =>
      rw [hnext] at h
      simp only [camlRaise, throwException, h, hnext, ExternalRaise.ofContext]
      rfl

theorem Machine.raisePathsAgree_congr {m m' : Machine} (h : SameHandlers m m') :
    m'.RaisePathsAgree ↔ m.RaisePathsAgree := by
  have hpointer : m'.camlExternalRaise = .ofContext m'.nextExceptionContext ↔
      m.camlExternalRaise = .ofContext m.nextExceptionContext := by
    rw [h.camlExternalRaise, h.nextExceptionContext]
  exact ⟨fun hm => raisePathsAgree_of_pointer (hpointer.mp hm.pointer),
    fun hm => raisePathsAgree_of_pointer (hpointer.mpr hm.pointer)⟩

/-- After the removal of a context the pointer is right if and only if there is another context. -/
theorem Machine.raisePathsAgree_removeExceptionContext {m m' : Machine}
    (h : m.removeExceptionContext = some m') :
    m'.RaisePathsAgree ↔ ∃ i j, m.nextExceptionContext = some i ∧ m.buffers i = some j := by
  obtain ⟨context, hcontext, rfl⟩ := removeExceptionContext_eq_some h
  constructor
  · intro hagree
    have hpointer := hagree.pointer
    cases hbelow : m.buffers context with
    | none =>
        simp only [hbelow, ExternalRaise.ofContext] at hpointer
        cases hpointer
    | some j => exact ⟨context, j, hcontext, hbelow⟩
  · rintro ⟨i, j, hi, hbelow⟩
    obtain rfl : context = i := Option.some.inj (hcontext.symm.trans hi)
    apply raisePathsAgree_of_pointer
    simp only [hbelow, ExternalRaise.ofContext]

variable {rt : Runtime} {inst : ZInstruction} {s s' : Exec}

theorem raisePathsAgree_step (hs : s.machine.RaisePathsAgree) (h : ExecStep rt inst s s') :
    s'.machine.RaisePathsAgree ↔ RemovesNotLast s inst s' := by
  rcases h.keepsHandlers_or with hkeeps | ⟨i, m₁, m₂, hop, hbuffer, hpush, rfl⟩ |
    ⟨m₁, m₂, hop, hremove, hpop, rfl⟩ | ⟨exn, i, m₁, hraises, hland⟩
  · refine iff_of_true ((Machine.raisePathsAgree_congr hkeeps.machine).mpr hs) ?_
    rintro (hop | ⟨b, hb⟩)
    · exact absurd (.inr hop) hkeeps.notTrap
    · exact absurd hb (hkeeps.control b)
  · obtain ⟨rfl, -, rfl⟩ := Machine.getNewBuffer_eq_some hbuffer
    cases hpush
    refine iff_of_true (Machine.raisePathsAgree_of_pointer rfl) ?_
    rintro (hop' | ⟨b, hb⟩)
    · cases hop.symm.trans hop'
    · cases hb
  · obtain ⟨link, -, -, rfl⟩ := Machine.popTrap_eq_some hpop
    have hagree := Machine.raisePathsAgree_removeExceptionContext hremove
    have hsame : Machine.RaisePathsAgree { m₁ with camlTrapsp := link, stack := m₁.stack.drop 4 } ↔
        m₁.RaisePathsAgree :=
      ⟨fun hm => Machine.raisePathsAgree_of_pointer hm.pointer,
        fun hm => Machine.raisePathsAgree_of_pointer hm.pointer⟩
    exact (hsame.trans hagree).trans ⟨fun hbelow _ => hbelow, fun hbelow => hbelow (.inl hop)⟩
  · obtain ⟨buf, m₂, m₃, -, -, hvalue, hremove, rfl⟩ := Exec.land_eq_some hland
    obtain ⟨env, link, extra, extraArgs, -, -, -, -, rfl⟩ := Machine.getExceptionValue_eq_some hvalue
    have hsame := hraises.sameHandlers
    have hagree := Machine.raisePathsAgree_removeExceptionContext hremove
    simp only [hsame.nextExceptionContext, hsame.buffers] at hagree
    exact hagree.trans ⟨fun hbelow _ => hbelow, fun hbelow => hbelow (.inr ⟨_, rfl⟩)⟩

/-- The start of the main function in a memory that holds the global data. -/
def Exec.atStart (heap : Heap) (globalData : Value) (threshold : Nat) : Exec :=
  .start (.start heap globalData threshold)

/-- `PUSHTRAP` with a handler at an instruction. -/
def ZInstruction.pushTrapTo (handler : Int) : ZInstruction := ofArgs .pushTrap handler 0

/-- Two nested `try` blocks, the inner one of which is left. -/
def nestedTry : List ZInstruction := [.pushTrapTo 9, .pushTrapTo 5, .blank .popTrap]

end CamllVM
