import CamllVM.Proof.Handlers

/-!
# The array of exception contexts

The contexts of the installed handlers are the first elements of `Buffers`, one below the other, and
`CurrentBufferIndex` is their number. Every `PUSHTRAP` takes the next element, without a test that
there is one.
-/

namespace CamllVM

open Runs

/-- The contexts of the installed handlers, the innermost first. -/
def Machine.Installed (m : Machine) (contexts : List Nat) : Prop :=
  ContextChain m.buffers m.nextExceptionContext contexts

/-- `getNewBuffer` hands out an element of `Buffers` that no installed handler uses. -/
def Machine.HandsOutFree (m : Machine) : Prop :=
  ∃ i m', m.getNewBuffer = some (i, m') ∧ i < numBuffers ∧ ∀ contexts, m.Installed contexts →
    i ∉ contexts

/-- Fewer handlers are installed than there are elements in `Buffers`. -/
def Machine.HasFreeBuffer (m : Machine) : Prop :=
  ∃ contexts, m.Installed contexts ∧ contexts.length < numBuffers

/-- An instruction is executed with the index inside `Buffers`, and gets a free context there. -/
def BuffersHold (s : Exec) (inst : ZInstruction) : Prop :=
  s.machine.currentBufferIndex ≤ Machine.numBuffers ∧
    (inst.opNum = .pushTrap → s.machine.HandsOutFree)

/-- The contexts in use are the first elements of the array. -/
structure BufferStack (m : Machine) : Prop where
  bound : m.currentBufferIndex ≤ Machine.numBuffers
  next : m.nextExceptionContext = topContext m.currentBufferIndex
  buffers : ∀ i < m.currentBufferIndex, m.buffers i = topContext i

variable {rt : Runtime} {inst : ZInstruction} {s s' : Exec} {m m' : Machine}

theorem ContextChain.unique {buffers : Nat → Option Nat} {next : Option Nat}
    {contexts contexts' : List Nat} (h : ContextChain buffers next contexts)
    (h' : ContextChain buffers next contexts') : contexts = contexts' := by
  induction h generalizing contexts' with
  | nil =>
      cases h'
      rfl
  | cons _ ih =>
      cases h' with
      | cons h' => rw [ih h']

theorem BufferStack.congr (h : BufferStack m) (hindex : m'.currentBufferIndex = m.currentBufferIndex)
    (hnext : m'.nextExceptionContext = m.nextExceptionContext) (hbuffers : m'.buffers = m.buffers) :
    BufferStack m' := by
  refine ⟨?_, ?_, ?_⟩
  · rw [hindex]
    exact h.bound
  · rw [hnext, hindex]
    exact h.next
  · rw [hindex, hbuffers]
    exact h.buffers

theorem BufferStack.installed (h : BufferStack m) :
    m.Installed (List.range m.currentBufferIndex).reverse := by
  rw [Machine.Installed, h.next]
  exact contextChain_topContext _ h.buffers

theorem BufferStack.getNewBuffer (h : BufferStack m) {i : Nat} (hnew : m.getNewBuffer = some (i, m')) :
    BufferStack m' := by
  obtain ⟨rfl, hlt, rfl⟩ := Machine.getNewBuffer_eq_some hnew
  refine ⟨hlt, rfl, fun i hi => ?_⟩
  by_cases heq : i = m.currentBufferIndex
  · subst heq
    exact (if_pos rfl).trans h.next
  · exact (if_neg heq).trans (h.buffers i (by simp only at hi; omega))

/-- The innermost context is the last one that was taken. -/
theorem BufferStack.removeExceptionContext (h : BufferStack m)
    (hremove : m.removeExceptionContext = some m') : BufferStack m' := by
  obtain ⟨context, hcontext, rfl⟩ := Machine.removeExceptionContext_eq_some hremove
  have hnext := hcontext.symm.trans h.next
  obtain ⟨n, hn⟩ : ∃ n, m.currentBufferIndex = n + 1 := by
    cases hn : m.currentBufferIndex with
    | zero =>
        rw [hn] at hnext
        cases hnext
    | succ n => exact ⟨n, rfl⟩
  have hbound := h.bound
  rw [hn] at hnext hbound
  obtain rfl : context = n := Option.some.inj hnext
  have hindex : (m.currentBufferIndex + (2 ^ 64 - 1)) % 2 ^ 64 = context := by
    rw [Machine.numBuffers] at hbound
    omega
  have hbuffers : ∀ i < context + 1, m.buffers i = topContext i := by
    rw [← hn]
    exact h.buffers
  refine ⟨?_, ?_, ?_⟩
  · rw [hindex]
    exact Nat.le_of_succ_le hbound
  · rw [hindex]
    exact hbuffers context (Nat.lt_succ_self context)
  · rw [hindex]
    exact fun i hi => hbuffers i (Nat.lt_succ_of_lt hi)

/-- A context is released at `POPTRAP` and where a handler is entered, whoever raised the
exception. -/
theorem bufferStack_step (hs : BufferStack s.machine) (h : ExecStep rt inst s s') :
    BufferStack s'.machine := by
  rcases h.keepsHandlers_or with hkeeps | ⟨i, m₁, m₂, -, hbuffer, hpush, rfl⟩ |
    ⟨m₁, m₂, -, hremove, hpop, rfl⟩ | ⟨exn, i, m₁, hraises, hland⟩
  · obtain ⟨-, hnext, hbuffers, hindex, -⟩ := hkeeps.machine
    exact hs.congr hindex hnext hbuffers
  · cases hpush
    exact (hs.getNewBuffer hbuffer).congr rfl rfl rfl
  · obtain ⟨link, -, -, rfl⟩ := Machine.popTrap_eq_some hpop
    exact (hs.removeExceptionContext hremove).congr rfl rfl rfl
  · obtain ⟨buf, m₂, m₃, -, -, hvalue, hremove, rfl⟩ := Exec.land_eq_some hland
    obtain ⟨env, link, extra, extraArgs, -, -, -, -, rfl⟩ := Machine.getExceptionValue_eq_some hvalue
    obtain ⟨-, hnext, hbuffers, hindex, -⟩ := hraises.sameHandlers
    have hraised : BufferStack m₁ := hs.congr hindex hnext hbuffers
    refine BufferStack.removeExceptionContext ?_ hremove
    exact hraised.congr rfl rfl rfl

theorem BufferStack.hasFreeBuffer_iff (h : BufferStack m) :
    m.HasFreeBuffer ↔ m.currentBufferIndex < Machine.numBuffers := by
  constructor
  · rintro ⟨contexts, hinstalled, hlt⟩
    rw [ContextChain.unique hinstalled h.installed, List.length_reverse, List.length_range] at hlt
    exact hlt
  · intro hlt
    refine ⟨_, h.installed, ?_⟩
    rwa [List.length_reverse, List.length_range]

theorem BufferStack.handsOutFree_iff (h : BufferStack m) :
    m.HandsOutFree ↔ m.currentBufferIndex < Machine.numBuffers := by
  constructor
  · rintro ⟨i, m', hnew, hlt, -⟩
    obtain ⟨rfl, -⟩ := Machine.getNewBuffer_eq_some hnew
    exact hlt
  · intro hlt
    refine ⟨m.currentBufferIndex, _, if_pos hlt, hlt, fun contexts hinstalled hmem => ?_⟩
    rw [ContextChain.unique hinstalled h.installed, List.mem_reverse, List.mem_range] at hmem
    exact Nat.lt_irrefl _ hmem

theorem bufferStack_start (heap : Heap) (globalData : Value) (threshold : Nat) :
    BufferStack (Exec.atStart heap globalData threshold).machine :=
  ⟨Nat.zero_le _, rfl, fun _ hi => absurd hi (Nat.not_lt_zero _)⟩

/-- `Buffers` holds all contexts of a run exactly if every `PUSHTRAP` on the way finds fewer handlers
installed than there are buffers. -/
theorem buffers_hold_iff (hkeep : rt.KeepsStack) (heap : Heap) (globalData : Value) (threshold : Nat)
    (insts : List ZInstruction) :
    (∀ e ∈ attempts (Exec.step rt) (.atStart heap globalData threshold) insts,
      BuffersHold e.1 e.2) ↔
    ∀ e ∈ attempts (Exec.step rt) (.atStart heap globalData threshold) insts,
      e.2.opNum = .pushTrap → e.1.machine.HasFreeBuffer := by
  refine forall_attempts_iff (P := fun s => BufferStack s.machine)
    (B := fun s inst => inst.opNum = .pushTrap → s.machine.HasFreeBuffer)
    (fun s inst s' hs hstep => bufferStack_step hs (Exec.step_cases hkeep hstep)) ?_
    (bufferStack_start heap globalData threshold) insts
  · intro s inst hs
    rw [BuffersHold, hs.handsOutFree_iff, hs.hasFreeBuffer_iff]
    exact ⟨fun h => h.2, fun h => ⟨hs.bound, h⟩⟩

theorem buffers_hold_iff_nestedTry :
    (∀ e ∈ attempts (Exec.step .idle) (.atStart [] .unit 100) nestedTry, BuffersHold e.1 e.2) ↔
      ∀ e ∈ attempts (Exec.step .idle) (.atStart [] .unit 100) nestedTry,
        e.2.opNum = .pushTrap → e.1.machine.HasFreeBuffer :=
  buffers_hold_iff Runtime.idle_keepsStack [] .unit 100 nestedTry

theorem Exec.step_pushTrap_index (rt : Runtime) (hop : inst.opNum = .pushTrap)
    (hlt : s.machine.currentBufferIndex < Machine.numBuffers) :
    (s.step rt inst).map (·.machine.currentBufferIndex) =
      some (s.machine.currentBufferIndex + 1) := by
  simp only [step, exec, hop, Machine.getNewBuffer, if_pos hlt, Machine.pushTrap_eq,
    Option.bind_eq_bind, Option.bind_some, goOn, Option.map_some]

/-- `PUSHTRAP` after `PUSHTRAP` up to the end of the array. -/
theorem exists_attempt_at (n : Nat) (s : Exec)
    (hn : s.machine.currentBufferIndex + n = Machine.numBuffers) :
    ∃ s', (s', .pushTrapTo 5) ∈
        attempts (Exec.step .idle) s (List.replicate (n + 1) (.pushTrapTo 5)) ∧
      s'.machine.currentBufferIndex = Machine.numBuffers := by
  induction n generalizing s with
  | zero => exact ⟨s, List.mem_cons_self, hn⟩
  | succ n ih =>
      have hlt : s.machine.currentBufferIndex < Machine.numBuffers := by omega
      have hop : (ZInstruction.pushTrapTo 5).opNum = .pushTrap := rfl
      obtain ⟨s₁, hs₁, hindex⟩ := Option.map_eq_some_iff.mp
        (Exec.step_pushTrap_index .idle hop hlt)
      obtain ⟨s', hmem, hs'⟩ := ih s₁ (by omega)
      refine ⟨s', ?_, hs'⟩
      rw [List.replicate_succ, attempts, hs₁]
      exact List.mem_cons_of_mem _ hmem

/-- 2049 nested `try` blocks. -/
theorem not_buffers_hold_deepTry :
    ¬∀ e ∈ attempts (Exec.step .idle) (.atStart [] .unit 100)
        (List.replicate 2049 (.pushTrapTo 5)), BuffersHold e.1 e.2 := by
  intro h
  obtain ⟨s', hmem, hindex⟩ := exists_attempt_at 2048 (.atStart [] .unit 100) rfl
  obtain ⟨i, m', hnew, hlt, -⟩ := (h _ hmem).2 rfl
  obtain ⟨rfl, -⟩ := Machine.getNewBuffer_eq_some hnew
  exact Nat.lt_irrefl _ (hindex ▸ hlt)

end CamllVM
