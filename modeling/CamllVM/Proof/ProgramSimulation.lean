import CamllVM.Proof.KnownCalls
import CamllVM.Proof.TransferSimulation

/-!
# Programs and their LLVM code

Every run of the bytecode has a run of the LLVM code that goes through states which belong to its
own. Where the bytecode comes to an end so does the LLVM code, and where it goes on for ever so does
the LLVM code.
-/

namespace CamllVM

open Simulation

variable {prog : List ZInstruction} {M : GenModule} {S : GenState} {rt : Runtime} {z z' : Zam}
  {n : Native} {inst inst' : ZInstruction} {m : Machine}

/-! ### Annotations -/

theorem nestedClosures_unannotated (inst : ZInstruction) :
    inst.unannotated.nestedClosures = inst.nestedClosures := by
  funext i n
  induction n generalizing i with
  | zero => rfl
  | succ n ih =>
      rw [ZInstruction.nestedClosures, ZInstruction.nestedClosures, ih]
      rfl

theorem runtimeCalls_unannotated (inst : ZInstruction) :
    inst.unannotated.runtimeCalls = inst.runtimeCalls := by
  unfold ZInstruction.runtimeCalls
  rw [nestedClosures_unannotated]
  rfl

/-- The annotation makes no difference. -/
theorem exec_of_unannotated (h : inst'.unannotated = inst.unannotated) (s : Exec) :
    s.exec rt inst' = s.exec rt inst := by
  have hexec : ∀ inst : ZInstruction, s.exec rt inst.unannotated = s.exec rt inst := by
    intro inst
    unfold Exec.exec
    rw [runtimeCalls_unannotated]
    rfl
  rw [← hexec inst', ← hexec inst, h]

theorem follow_of_unannotated (h : inst'.unannotated = inst.unannotated) (s : Exec) :
    z.follow inst' s = z.follow inst s := by
  have hfollow : ∀ inst : ZInstruction, z.follow inst.unannotated s = z.follow inst s := fun _ => rfl
  rw [← hfollow inst', ← hfollow inst, h]

/-- The instruction of the program at a place in its graph. -/
theorem Follows.unannotated {F : GenFunction} (h : Follows prog F) (p : Place F inst)
    (hfetch : Zam.fetch prog inst.idx = some inst') : inst'.unannotated = inst.unannotated := by
  obtain ⟨inst₁, hinst₁, hsame⟩ := h.fetch p.k p.mem_blocks inst p.mem_instructions
  cases hfetch.symm.trans hinst₁
  exact hsame

/-! ### The simulation -/

/-- The functions that have code besides the main function. -/
def GenState.closureIds (S : GenState) : Set Int := {id | .closure id ∈ S.generated}

/-- A state of the LLVM code belongs to a state of the bytecode that calls known code only. -/
structure Simulated (M : GenModule) (S : GenState) (z : Zam) (n : Native) : Prop where
  belongs : Belongs M S z n
  known : z.exec.CodeIn S.closureIds

theorem step_eq_some {o : Next Zam} (h : z.step prog rt = some o) :
    ∃ inst s, Zam.fetch prog z.pc = some inst ∧ z.exec.exec rt inst = some s ∧
      match s, o with
      | .finished, .finished => True
      | .running s, .running z' => z.follow inst s = some z'
      | _, _ => False := by
  simp only [Zam.step, Option.bind_eq_bind, Option.bind_eq_some_iff] at h
  obtain ⟨inst, hfetch, s, hexec, h⟩ := h
  refine ⟨inst, s, hfetch, hexec, ?_⟩
  cases s with
  | finished =>
      cases h
      trivial
  | running s =>
      obtain ⟨z', hfollow, heq⟩ := Option.bind_eq_some_iff.mp h
      cases heq
      exact hfollow

theorem Zam.follow_exec {s : Exec} (h : z.follow inst s = some z') : z'.exec = s := by
  unfold Zam.follow at h
  split at h
  · cases h
    rfl
  · cases h
    rfl
  · split at h
    · split at h
      · cases h
      · cases h
        rfl
    · obtain ⟨pc, -, heq⟩ := Option.bind_eq_some_iff.mp h
      cases heq
      rfl

theorem Zam.lt_of_fetch {pc : Int} (h : Zam.fetch prog pc = some inst) :
    0 ≤ pc ∧ pc < prog.length := by
  unfold Zam.fetch at h
  split at h
  · have hlt := (List.getElem?_eq_some_iff.mp h).1
    omega
  · cases h

section

variable (hC : Compiled prog M S) (hrt : rt.CodeIn S.closureIds)

include hC

/-- An instruction of the code refers to functions with code. -/
theorem Compiled.codeIn (hgen : n.frame.fn ∈ S.generated) (p : Place (M.function n.frame.fn) inst) :
    inst.CodeIn S.closureIds := fun id hid =>
  hC.refs _ hgen (.closure id) ⟨p.k, p.mem_blocks, inst, p.mem_instructions, hid⟩

omit hC in
/-- Before an instruction, perhaps behind a branch to it. -/
theorem Belongs.located (h : Belongs M S z n) : ∃ n', Belongs M S z n' ∧
    Located (M.function n'.frame.fn) n'.frame.fn z.pc n'.frame.rest ∧
    (Advances (Native.step S rt) n n' ∨ n' = n) := by
  have hbefore := h.frame.before
  generalize hrest : n.frame.rest = rest at hbefore
  cases hbefore with
  | «at» hlocated =>
      subst hrest
      exact ⟨n, h, hlocated, .inr rfl⟩
  | @branch b rest hb hlocated =>
      refine ⟨n.withRest (S.code b), ⟨h.machine, ⟨h.frame.fn, h.frame.generated, .at hlocated⟩,
        h.callers, h.jmpBufs⟩, hlocated, .inl ?_⟩
      conv => lhs; rw [← n.withRest_self hrest]
      exact Native.advances_cons (Native.execInst_br hb) .refl

include hrt

/-- The step of the bytecode is that of an instruction in the graph of the function, and the LLVM
code matches it. -/
theorem Simulated.matched (h : Simulated M S z n) (hfetch : Zam.fetch prog z.pc = some inst')
    {s : Stepped} (hexec : z.exec.exec rt inst' = some s) : ∃ inst n', inst.idx = z.pc ∧
      (∀ s, z.follow inst' s = z.follow inst s) ∧ s.CodeIn S.closureIds ∧
      Matched M S rt z inst n' s ∧ (Advances (Native.step S rt) n n' ∨ n' = n) := by
  obtain ⟨n', hB, hlocated, hadvance⟩ := h.belongs.located
  generalize hrest : n'.frame.rest = rest at hlocated
  cases hlocated with
  | @intro inst p hpc late =>
      rw [← hpc] at hfetch
      have hsame := (hC.follows _ hB.frame.generated).unannotated p hfetch
      rw [exec_of_unannotated hsame] at hexec
      exact ⟨inst, n', hpc, follow_of_unannotated hsame,
        h.known.exec hrt (hC.codeIn hB.frame.generated p) s hexec,
        matched_exec hC hB p hrest hexec, hadvance⟩

theorem simulation : Forward (Zam.step prog rt) (Native.step S rt)
    (fun z => (prog.length - z.pc).toNat) (Simulated M S) where
  running z z' n h hstep := by
    obtain ⟨inst₀, s, hfetch, hexec, hs⟩ := step_eq_some hstep
    cases s with
    | finished => exact hs.elim
    | running s =>
        obtain ⟨inst, n₁, hpc, hfollow, hknown, hmatched, hadvance⟩ :=
          h.matched hC hrt hfetch hexec
        have hfollowed : z.follow inst₀ s = some z' := hs
        obtain ⟨n', hbelongs, hlater⟩ := hmatched z' (hfollow s ▸ hfollowed) hknown.entry
        refine ⟨n', ⟨hbelongs, ?_⟩, ?_⟩
        · rw [Zam.follow_exec hfollowed]
          exact hknown.known
        · rcases hadvance with hadvance | rfl
          · rcases hlater with hlater | ⟨rfl, -⟩
            · exact .inl (hadvance.trans hlater)
            · exact .inl hadvance
          · refine hlater.imp_right fun hstill => ⟨hstill.1, ?_⟩
            have hlt := Zam.lt_of_fetch hfetch
            rw [hstill.2, hpc]
            omega
  finished z n h hstep := by
    obtain ⟨inst₀, s, hfetch, hexec, hs⟩ := step_eq_some hstep
    cases s with
    | running s => exact hs.elim
    | finished =>
        obtain ⟨inst, n₁, -, -, -, hmatched, hadvance⟩ := h.matched hC hrt hfetch hexec
        rcases hadvance with hadvance | rfl
        · exact Finishes.of_reaches hadvance.reaches hmatched
        · exact hmatched

end

end CamllVM
