import CamllVM.Proof.Grouping

/-!
# Runs up to a return

An instruction passes arguments to a closure. From there the run goes through the body of a function,
whose last instruction may pass arguments again, until control returns through the words below them.
-/

namespace CamllVM

/-- The three words for a return, with the words of the caller below them. -/
structure RetFrame where
  word : Option Value
  env : Value
  extraArgs : Int
  below : StackWords

namespace RetFrame

def words (ret : RetFrame) : StackWords :=
  ret.word :: some ret.env :: some (.int ret.extraArgs) :: ret.below

def relocate (move : Nat → Nat) (ret : RetFrame) : RetFrame where
  word := ret.word.map (Value.relocate move)
  env := ret.env.relocate move
  extraArgs := ret.extraArgs
  below := ret.below.relocate move

@[simp]
theorem words_relocate (move : Nat → Nat) (ret : RetFrame) :
    (ret.relocate move).words = ret.words.relocate move := rfl

end RetFrame

/-- The frame of a call by a function whose own words are the slots `locals`, the extra arguments `us`
and the words for its return. -/
structure RetFrame.Above (ret : RetFrame) (locals : StackWords) (us : List Value) (ret₀ : RetFrame) :
    Prop where
  below : ret.below = locals ++ (us.map some ++ ret₀.words)
  extraArgs : ret.extraArgs = (us.length : Int)

/-- The functions of a program: what each one starts with, and the ways through its body up to the
instruction that leaves it. -/
structure Program where
  callee : Int → Callee
  callee_id : ∀ id, (callee id).id = id
  path : Int → List ZInstruction → ZInstruction → Prop

def Exec.steps (rt : Runtime) : List ZInstruction → Exec → Option Exec
  | [], s => some s
  | inst :: insts, s => do
      let s ← s.step rt inst
      s.steps rt insts

/-- The slots of a function at its end: its last instruction returns the value in the accumulator or
calls the closure there with the arguments `vs`. -/
inductive Ends (last : ZInstruction) (locals : StackWords) : List Value → Prop
  | return_ : last.opNum = .return_ → last.countArg 0 = some locals.length → Ends last locals []
  | tailCall {vs : List Value} {rest : StackWords} : vs ≠ [] →
      last.tailOperands = some (vs.length, locals.length) → locals = vs.map some ++ rest →
      Ends last locals vs

/-- The run of a body with the arguments `args`. It leaves the words below them alone, and the
collections `new` take place in it. -/
structure BodyRun (rt : Runtime) (code : List ZInstruction) (last : ZInstruction) (args : List Value)
    (below : StackWords) (s s' : Exec) (vs : List Value) (new : List (Nat → Nat)) : Prop where
  stack : s.machine.stack = args.map some ++ below
  run : s.steps rt code = some s'
  fn : s'.fn = s.fn
  callers : s'.callers = s.callers
  moves : s'.machine.moves = new ++ s.machine.moves
  extraArgs : s'.machine.extraArgs = s.machine.extraArgs
  ends : ∃ locals, s'.machine.stack = locals ++ below.relocate (moveAll new) ∧ Ends last locals vs

/-- An instruction passes arguments to the closure in the accumulator, with the words for the return
below them. At the end of a function the extra arguments are passed too. Without any arguments the
value in the accumulator is returned. -/
inductive Passes (inst : ZInstruction) (m : Machine) : List Value → RetFrame → Prop
  | apply {args : List Value} {ret : RetFrame} : inst.opNum = .apply →
      inst.arg 0 = (args.length : Int) → args ≠ [] → m.stack = args.map some ++ ret.words →
      Passes inst m args ret
  | last {locals : StackWords} {vs us : List Value} {ret : RetFrame} : Ends inst locals vs →
      m.stack = locals ++ (us.map some ++ ret.words) → m.extraArgs = (us.length : Int) →
      Passes inst m (vs ++ us) ret

/-- The function that is running behind the return, and those that wait for it. -/
def Exec.waiting (s : Exec) (inst : ZInstruction) : List Int :=
  if inst.opNum = .apply then s.fn :: s.callers else s.callers

/-- The run from an instruction that passes arguments up to the return through the words below
them. A closure may remember some arguments. If there are too few for its function the run returns
with a closure again. If there are enough it goes through the body, and the last instruction of the
body passes its own arguments with those that are left. -/
inductive Returns (P : Program) (rt : Runtime) :
    Exec → ZInstruction → List Value → RetFrame → List (Nat → Nat) → Exec → Prop
  | value {s t : Exec} {inst : ZInstruction} {ret : RetFrame} : Passes inst s.machine [] ret →
      s.step rt inst = some t → s.waiting inst = t.fn :: t.callers →
      Returns P rt s inst [] ret [] t
  | partialCall {s s₁ t : Exec} {inst : ZInstruction} {id : Int} {f : Value} {ws args : List Value}
      {ret : RetFrame} {new : List (Nat → Nat)} : Passes inst s.machine args ret → args ≠ [] →
      Remembers s.machine.heap id s.machine.accu f ws →
      (ws ++ args).length < (P.callee id).arity → s.step rt inst = some s₁ →
      s₁.grab rt (P.callee id) = some t → s.waiting inst = t.fn :: t.callers →
      t.machine.moves = new ++ s.machine.moves → Returns P rt s inst args ret new t
  | body {s s₁ s₂ s₃ t : Exec} {inst last : ZInstruction} {code : List ZInstruction} {id : Int}
      {f : Value} {ws args as us vs : List Value} {ret : RetFrame} {new new' : List (Nat → Nat)} :
      Passes inst s.machine args ret → args ≠ [] →
      Remembers s.machine.heap id s.machine.accu f ws → ws ++ args = as ++ us →
      as.length = (P.callee id).arity → s.step rt inst = some s₁ →
      s₁.grab rt (P.callee id) = some s₂ → P.path id code last →
      BodyRun rt code last as (us.map some ++ ret.words) s₂ s₃ vs new →
      Returns P rt s₃ last (vs ++ us.map (Value.relocate (moveAll new)))
        (ret.relocate (moveAll new)) new' t →
      Returns P rt s inst args ret (new' ++ new) t

/-- Some instructions lead from one state to another one. -/
def Exec.Leads (rt : Runtime) (s t : Exec) : Prop :=
  ∃ run, Runs.IsRun (Exec.step rt) s run ∧ Runs.last s run = t

structure Machine.SameMemory (m m' : Machine) : Prop where
  heap : m'.heap = m.heap
  camlGlobalData : m'.camlGlobalData = m.camlGlobalData
  handlers : SameHandlers m m'

/-- The machine in the caller behind the return through `ret`. -/
structure Behind (ret : RetFrame) (m : Machine) : Prop where
  stack : m.stack = ret.below
  env : m.env = ret.env
  extraArgs : m.extraArgs = ret.extraArgs

/-- The body of a function behind its `GRAB`, entered by an instruction in `s`: the arguments `as` of
the function, with those that are left and the words for the return below them. -/
structure InBody (callee : Callee) (s : Exec) (inst : ZInstruction) (f : Value) (as us : List Value)
    (ret : RetFrame) (s' : Exec) : Prop where
  fn : s'.fn = callee.id
  callers : s'.callers = s.waiting inst
  stack : s'.machine.stack = as.map some ++ (us.map some ++ ret.words)
  env : s'.machine.env = f
  extraArgs : s'.machine.extraArgs = (us.length : Int)
  moves : s'.machine.moves = s.machine.moves
  memory : s.machine.SameMemory s'.machine

/-- The return of `GRAB` from the state `s` with a closure for the arguments `args`. The collections
`new` have taken place before its allocation, and `m` is the machine then. -/
structure PartialReturn (callee : Callee) (s : Exec) (inst : ZInstruction) (m : Machine)
    (args : List Value) (ret : RetFrame) (new : List (Nat → Nat)) (t : Exec) : Prop where
  waiting : s.waiting inst = t.fn :: t.callers
  machine : t.machine = m.partiallyApplied (.restart callee.id)
    (args.map (Value.relocate (moveAll new))) (ret.relocate (moveAll new)).env ret.extraArgs
    (ret.relocate (moveAll new)).below

variable {P : Program} {rt : Runtime} {inst last : ZInstruction} {s s' s₁ t : Exec} {m : Machine}
  {ret ret₀ : RetFrame} {args as us vs ws : List Value} {f v : Value} {new : List (Nat → Nat)}
  {c : CodePtr} {id fn : Int} {callers : List Int} {locals : StackWords} {callee : Callee}

/-! ### Frames -/

theorem map_relocate_nil (us : List Value) : us.map (Value.relocate (moveAll [])) = us :=
  List.map_id'' Value.relocate_id us

theorem map_relocate_append (us : List Value) (new new' : List (Nat → Nat)) :
    us.map (Value.relocate (moveAll (new' ++ new))) =
      (us.map (Value.relocate (moveAll new))).map (Value.relocate (moveAll new')) := by
  rw [List.map_map, moveAll_append]
  exact List.map_congr_left fun v _ => (Value.relocate_relocate v _ _).symm

theorem RetFrame.relocate_nil (ret : RetFrame) : ret.relocate (moveAll []) = ret := by
  obtain ⟨word, env, extraArgs, below⟩ := ret
  simp only [relocate, moveAll, Value.relocate_id, StackWords.relocate_id]
  cases word with
  | none => rfl
  | some w => rw [Option.map_some, Value.relocate_id]

theorem RetFrame.relocate_append (ret : RetFrame) (new new' : List (Nat → Nat)) :
    ret.relocate (moveAll (new' ++ new)) =
      (ret.relocate (moveAll new)).relocate (moveAll new') := by
  simp only [relocate, moveAll_append, Value.relocate_relocate, StackWords.relocate_relocate,
    Option.map_map]
  congr 2
  exact funext fun v => (Value.relocate_relocate v _ _).symm

theorem RetFrame.Above.mem (h : ret.Above locals us ret₀)
    (hv : some v ∈ us.map some ++ ret₀.words) : some v ∈ ret.words := by
  rw [RetFrame.words, h.below]
  exact List.mem_cons_of_mem _ (List.mem_cons_of_mem _ (List.mem_cons_of_mem _
    (List.mem_append_right _ hv)))

theorem RetFrame.Above.relocate (h : ret.Above locals us ret₀)
    (move : Nat → Nat) : (ret.relocate move).Above (locals.relocate move)
      (us.map (Value.relocate move)) (ret₀.relocate move) where
  below := by
    show StackWords.relocate move ret.below = _
    rw [h.below, StackWords.relocate_append, StackWords.relocate_append,
      StackWords.relocate_map_some, RetFrame.words_relocate]
  extraArgs := by
    rw [List.length_map]
    exact h.extraArgs

/-! ### The instructions that pass arguments -/

theorem Exec.exec_tail {n slotsize : Nat} (h : inst.tailOperands = some (n, slotsize)) :
    s.exec rt inst = s.tailCallBy (s.machine.appterm rt n slotsize) := by
  unfold ZInstruction.tailOperands at h
  split at h
  · next hop =>
      simp only [Option.bind_eq_bind, Option.bind_eq_some_iff] at h
      obtain ⟨n', hn, slotsize', hslotsize, heq⟩ := h
      cases heq
      simp only [exec, hop, hn, hslotsize]
      rfl
  · next hop =>
      simp only [Option.bind_eq_bind, Option.bind_eq_some_iff] at h
      obtain ⟨slotsize', hslotsize, heq⟩ := h
      cases heq
      simp only [exec, hop, hslotsize, Machine.appterm1, Machine.apptermArgs_eq_appterm]
      rfl
  · next hop =>
      simp only [Option.bind_eq_bind, Option.bind_eq_some_iff] at h
      obtain ⟨slotsize', hslotsize, heq⟩ := h
      cases heq
      simp only [exec, hop, hslotsize, Machine.appterm2, Machine.apptermArgs_eq_appterm]
      rfl
  · next hop =>
      simp only [Option.bind_eq_bind, Option.bind_eq_some_iff] at h
      obtain ⟨slotsize', hslotsize, heq⟩ := h
      cases heq
      simp only [exec, hop, hslotsize, Machine.appterm3, Machine.apptermArgs_eq_appterm]
      rfl
  · cases h

/-- At the end of a function the last instruction calls the closure in the accumulator with its own
arguments and the extra arguments. -/
theorem Ends.step (hgrows : rt.Grows) (h : Ends inst locals vs) (hne : vs ++ us ≠ [])
    (hstack : s.machine.stack = locals ++ (us.map some ++ ret.words))
    (hextra : s.machine.extraArgs = (us.length : Int))
    (hcode : s.machine.codeVal s.machine.accu = some c) :
    ∃ m₁, (s.machine.applying (vs ++ us) ret.words).Checked m₁ ∧
      ∀ s₁, s.enter m₁ c = some s₁ → s.step rt inst = some s₁ := by
  have hdrop : s.machine.stack.drop locals.length = us.map some ++ ret.words := by
    rw [hstack, List.drop_left]
  have hle : locals.length ≤ s.machine.stack.length := by
    rw [hstack, List.length_append]
    omega
  cases h with
  | return_ hop hn =>
      refine ⟨_, ⟨s.machine.camlExternSp, s.machine.camlStackThreshold, rfl⟩, fun s₁ hs₁ => ?_⟩
      rw [Exec.step_return_extra hop hn hle hne hextra hdrop hcode]
      exact hs₁
  | @tailCall vs rest hvs htail hlocals =>
      have hargs : s.machine.stack = vs.map some ++ s.machine.stack.drop vs.length := by
        have hlength : (vs.map (some : Value → Option Value)).length = vs.length := List.length_map _
        rw [hstack, hlocals, List.append_assoc, ← hlength, List.drop_left]
      have hsize : vs.length ≤ locals.length := by
        rw [hlocals, List.length_append, List.length_map]
        omega
      have happterm : s.machine.appterm rt vs.length locals.length = _ :=
        Machine.appterm_eq hargs hsize hle
      obtain ⟨m₁, hm₁, hchecked⟩ : ∃ m₁, (s.machine.tailFramed vs locals.length).Checked m₁ ∧ _ :=
        Machine.exists_checkedCall hgrows hcode
      refine ⟨m₁, ?_, fun s₁ hs₁ => ?_⟩
      · have happlying : s.machine.tailFramed vs locals.length =
            s.machine.applying (vs ++ us) ret.words := by
          rw [Machine.tailFramed, Machine.applying, hdrop, hextra, List.map_append, List.append_assoc,
            List.length_append]
          congr 1
          omega
        rwa [← happlying]
      · apply Exec.step_of_exec
        rw [Exec.exec_tail htail, happterm, hchecked]
        simp only [Exec.tailCallBy, Option.bind_eq_bind, Option.bind_some, Exec.settle, hs₁,
          Option.map_some]

theorem Ends.opNum_ne (h : Ends inst locals vs) : inst.opNum ≠ .apply := by
  intro hop
  cases h with
  | return_ hreturn => rw [hop] at hreturn; cases hreturn
  | tailCall _ htail => simp only [ZInstruction.tailOperands, hop, reduceCtorEq] at htail

theorem Exec.waiting_return (hop : inst.opNum = .return_) : s.waiting inst = s.callers := by
  rw [waiting, if_neg (by rw [hop]; decide)]

theorem Exec.enter_sameMemory (h : s.enter m c = some s₁) : m.SameMemory s₁.machine := by
  obtain ⟨id, m', rfl, ⟨-, rfl⟩ | ⟨-, vs, env, rfl⟩⟩ := enter_cases h
  · exact ⟨rfl, rfl, rfl, rfl, rfl, rfl, rfl⟩
  · exact ⟨rfl, rfl, rfl, rfl, rfl, rfl, rfl⟩

/-- The step to the entry of the function, with the arguments that the closure remembers above the
others. -/
theorem Passes.step (hgrows : rt.Grows) (h : Passes inst s.machine args ret)
    (hargs : args ≠ []) (hid : callee.id = id)
    (hremembers : Remembers s.machine.heap id s.machine.accu f ws) :
    ∃ s₁, s.step rt inst = some s₁ ∧ s₁.callers = s.waiting inst ∧
      AtEntry callee s.machine f (ws ++ args) ret.words s₁ ∧
      s.machine.SameMemory s₁.machine := by
  subst hid
  obtain ⟨c, hcode, henter⟩ := hremembers.enter args ret.words
  cases h with
  | apply hop hn hne hstack =>
      obtain ⟨s₁, hs₁, hcallers, hentry⟩ := henter { s with callers := s.fn :: s.callers }
        (s.machine.applying args ret.words)
        ⟨s.machine.camlExternSp, s.machine.camlStackThreshold, rfl⟩
      have happly : s.machine.apply (inst.arg 0) =
          some (s.machine.applying args ret.words, c) := by
        refine Option.bind_eq_some_iff.mpr ⟨c, hcode, ?_⟩
        rw [hn, Machine.applying, ← hstack]
        rfl
      obtain ⟨hheap, hdata, hhandlers⟩ := Exec.enter_sameMemory hs₁
      obtain ⟨h₁, h₂, h₃, h₄, h₅⟩ := hhandlers
      refine ⟨s₁, Exec.step_of_exec ?_, ?_, hentry, hheap, hdata, h₁, h₂, h₃, h₄, h₅⟩
      · simp only [Exec.exec, hop, happly, Option.bind_eq_bind, Option.bind_some, Exec.call, hs₁]
        rfl
      · rw [hcallers, Exec.waiting, if_pos hop]
  | last hends hstack hextra =>
      obtain ⟨m₁, hm₁, hstep⟩ := hends.step hgrows hargs hstack hextra hcode
      obtain ⟨s₁, hs₁, hcallers, hentry⟩ := henter s m₁ hm₁
      obtain ⟨sp, threshold, rfl⟩ := hm₁
      obtain ⟨hheap, hdata, hhandlers⟩ := Exec.enter_sameMemory hs₁
      obtain ⟨h₁, h₂, h₃, h₄, h₅⟩ := hhandlers
      refine ⟨s₁, hstep s₁ hs₁, ?_, hentry, hheap, hdata, h₁, h₂, h₃, h₄, h₅⟩
      rw [hcallers, Exec.waiting, if_neg hends.opNum_ne]

theorem Passes.return_ (h : Passes inst s.machine [] ret) (hwaiting : s.waiting inst = fn :: callers) :
    s.step rt inst = some { s with
      machine := { s.machine with
        stack := ret.below
        env := ret.env
        extraArgs := ret.extraArgs }
      fn := fn
      callers := callers
      control := .inside } := by
  generalize hargs : ([] : List Value) = args at h
  cases h with
  | apply _ _ hne => exact absurd hargs.symm hne
  | @last locals vs us _ hends hstack hextra =>
      obtain ⟨rfl, rfl⟩ := List.append_eq_nil_iff.mp hargs.symm
      rw [Exec.waiting, if_neg hends.opNum_ne] at hwaiting
      cases hends with
      | tailCall hvs => exact absurd rfl hvs
      | return_ hop hn =>
          have hdrop : s.machine.stack.drop locals.length = ret.words := by
            rw [hstack, List.drop_left]
            rfl
          have hle : locals.length ≤ s.machine.stack.length := by
            rw [hstack, List.length_append]
            omega
          have hreturn : s.machine.handleReturn locals.length = some ({ s.machine with
              stack := ret.below, env := ret.env, extraArgs := ret.extraArgs }, none) := by
            rw [Machine.handleReturn, Machine.raiseSp, if_pos hle, Option.bind_eq_bind,
              Option.bind_some, hextra, if_neg (by simp)]
            simp only [Machine.slot, hdrop, RetFrame.words, Machine.raiseSp]
            simp [Value.longVal]
          apply Exec.step_of_exec
          simp only [Exec.exec, hop, hn, hreturn, Option.bind_eq_bind, Option.bind_some, Exec.leave,
            hwaiting]
          rfl

/-- A return changes neither the memory nor the value that is returned. -/
theorem Passes.return_memory (h : Passes inst s.machine [] ret) (hstep : s.step rt inst = some t)
    (hwaiting : s.waiting inst = t.fn :: t.callers) :
    s.machine.SameMemory t.machine ∧ t.machine.accu = s.machine.accu := by
  rw [Option.some.inj (hstep.symm.trans (h.return_ hwaiting))]
  exact ⟨⟨rfl, rfl, rfl, rfl, rfl, rfl, rfl⟩, rfl⟩

/-! ### The entry of a function -/

theorem Passes.enterBody (hgrows : rt.Grows) (h : Passes inst s.machine args ret) (hargs : args ≠ [])
    (hid : callee.id = id) (hremembers : Remembers s.machine.heap id s.machine.accu f ws)
    (hsplit : ws ++ args = as ++ us) (harity : as.length = callee.arity) :
    ∃ s₁ s₂, s.step rt inst = some s₁ ∧ s₁.grab rt callee = some s₂ ∧
      InBody callee s inst f as us ret s₂ := by
  obtain ⟨s₁, hstep, hcallers, hentry, hmemory⟩ := h.step hgrows hargs hid hremembers
  rw [hsplit] at hentry
  have hlength : (as ++ us).length = callee.arity + us.length := by
    rw [List.length_append, harity]
  obtain ⟨control, hgrab⟩ : ∃ control, s₁.grab rt callee = some _ :=
    Exec.grab_complete hentry.extraArgs (by omega)
  obtain ⟨hheap, hdata, h₁, h₂, h₃, h₄, h₅⟩ := hmemory
  refine ⟨s₁, _, hstep, hgrab, hentry.fn, hcallers, ?_, hentry.env, ?_, hentry.moves, hheap, hdata,
    h₁, h₂, h₃, h₄, h₅⟩
  · rw [← List.append_assoc, ← List.map_append]
    exact hentry.stack
  · show ((as ++ us).length : Int) - callee.arity = us.length
    rw [hlength]
    omega

theorem Passes.enterPartial (hgrows : rt.Grows) (h : Passes inst s.machine args ret)
    (hargs : args ≠ []) (hid : callee.id = id)
    (hremembers : Remembers s.machine.heap id s.machine.accu f ws)
    (hlt : (ws ++ args).length < callee.arity) (hwaiting : s.waiting inst = fn :: callers) :
    ∃ s₁, s.step rt inst = some s₁ ∧ s.machine.SameMemory s₁.machine ∧
      s₁.machine.moves = s.machine.moves ∧ s₁.machine.env = f ∧
      s₁.machine.stack = (ws ++ args).map some ++ ret.words ∧
      ∀ m₁ new, s₁.machine.reserve rt = some m₁ → Machine.Collected new s₁.machine m₁ →
        ∃ t, s₁.grab rt callee = some t ∧ t.fn = fn ∧ t.callers = callers ∧
          PartialReturn callee s inst m₁ (ws ++ args) ret new t := by
  obtain ⟨s₁, hstep, hcallers, hentry, hmemory⟩ := h.step hgrows hargs hid hremembers
  refine ⟨s₁, hstep, hmemory, hentry.moves, hentry.env, hentry.stack,
    fun m₁ new hreserve hcollected => ?_⟩
  have hstack : m₁.stack = ((ws ++ args).map (Value.relocate (moveAll new))).map some ++
      (ret.relocate (moveAll new)).words := by
    rw [hcollected.stack, hentry.stack, StackWords.relocate_append, StackWords.relocate_map_some,
      RetFrame.words_relocate]
  have hpos : 0 < (ws ++ args).length := by
    have := List.length_pos_iff.mpr hargs
    rw [List.length_append]
    omega
  have hgrab : s₁.grab rt callee = some _ := Exec.grab_partial hentry.fn
    (by rw [hentry.extraArgs, List.length_map]) (by rwa [List.length_map])
    (by rwa [List.length_map]) (hcallers.trans hwaiting) hreserve hstack
  refine ⟨_, hgrab, rfl, rfl, hwaiting, ?_⟩
  rw [hentry.fn]
  rfl

theorem BodyRun.passes {code : List ZInstruction}
    (h : BodyRun rt code last as (us.map some ++ ret.words) s s' vs new)
    (hextra : s.machine.extraArgs = (us.length : Int)) :
    Passes last s'.machine (vs ++ us.map (Value.relocate (moveAll new)))
      (ret.relocate (moveAll new)) := by
  obtain ⟨locals, hstack, hends⟩ := h.ends
  refine .last hends ?_ ?_
  · rw [hstack, StackWords.relocate_append, StackWords.relocate_map_some, RetFrame.words_relocate]
  · rw [h.extraArgs, hextra, List.length_map]

theorem BodyRun.waiting {code : List ZInstruction} {below : StackWords}
    (h : BodyRun rt code last as below s s' vs new) : s'.waiting last = s.callers := by
  obtain ⟨locals, -, hends⟩ := h.ends
  rw [Exec.waiting, if_neg hends.opNum_ne, h.callers]

/-! ### Whole runs -/

/-- Where a run ends: the words below the return, relocated by the collections of the run. -/
theorem Returns.behind (h : Returns P rt s inst args ret new t) (hgrows : rt.Grows) :
    Behind (ret.relocate (moveAll new)) t.machine ∧ s.waiting inst = t.fn :: t.callers := by
  induction h with
  | @value s t inst ret hpasses hstep hwaiting =>
      have ht := Option.some.inj (hstep.symm.trans (hpasses.return_ hwaiting))
      refine ⟨?_, hwaiting⟩
      rw [ht]
      exact ⟨(StackWords.relocate_id _).symm, (Value.relocate_id _).symm, rfl⟩
  | @partialCall s s₁ t inst id f ws args ret new hpasses hargs hremembers hlt hstep hgrab hwaiting
      hmoves =>
      obtain ⟨s₁₀, hstep₀, -, hmoves₁, -, -, hreturn⟩ :=
        hpasses.enterPartial hgrows hargs (P.callee_id id) hremembers hlt hwaiting
      obtain rfl : s₁ = s₁₀ := Option.some.inj (hstep.symm.trans hstep₀)
      obtain ⟨m₁, new₀, hreserve, hcollected⟩ := Machine.exists_reserve rt s₁.machine
      obtain ⟨t₀, hgrab₀, -, -, -, hmachine⟩ := hreturn m₁ new₀ hreserve hcollected
      obtain rfl : t = t₀ := Option.some.inj (hgrab.symm.trans hgrab₀)
      obtain rfl : new = new₀ := by
        refine List.append_cancel_right (hmoves.symm.trans ?_)
        rw [hmachine, ← hmoves₁]
        exact hcollected.moves
      rw [hmachine]
      exact ⟨⟨rfl, rfl, rfl⟩, hwaiting⟩
  | @body s s₁ s₂ s₃ t inst last code id f ws args as us vs ret new new' hpasses hargs hremembers
      hsplit harity hstep hgrab hpath hbody hrest ih =>
      obtain ⟨s₁₀, s₂₀, hstep₀, hgrab₀, hin⟩ :=
        hpasses.enterBody hgrows hargs (P.callee_id id) hremembers hsplit harity
      obtain rfl : s₁ = s₁₀ := Option.some.inj (hstep.symm.trans hstep₀)
      obtain rfl : s₂ = s₂₀ := Option.some.inj (hgrab.symm.trans hgrab₀)
      obtain ⟨⟨hstack, henv, hextra⟩, hwaiting⟩ := ih
      rw [hbody.waiting, hin.callers] at hwaiting
      refine ⟨⟨hstack.trans ?_, henv.trans ?_, hextra⟩, hwaiting⟩
      · rw [moveAll_append]
        exact StackWords.relocate_relocate _ _ _
      · rw [moveAll_append]
        exact Value.relocate_relocate _ _ _

theorem Returns.value_inv (h : Returns P rt s inst [] ret new t) :
    new = [] ∧ Passes inst s.machine [] ret ∧ s.step rt inst = some t ∧
      s.waiting inst = t.fn :: t.callers := by
  generalize hargs : ([] : List Value) = args at h
  cases h with
  | value hpasses hstep hwaiting => exact ⟨rfl, hpasses, hstep, hwaiting⟩
  | partialCall _ hne => exact absurd hargs.symm hne
  | body _ hne => exact absurd hargs.symm hne

/-- Behind a call the function returns, and its `RETURN` applies the result to its extra arguments. -/
theorem Behind.passes (h : Behind (ret.relocate (moveAll new)) m) (habove : ret.Above locals us ret₀)
    (hop : inst.opNum = .return_) (hn : inst.countArg 0 = some locals.length) :
    Passes inst m (us.map (Value.relocate (moveAll new))) (ret₀.relocate (moveAll new)) := by
  obtain ⟨hbelow, hextra⟩ := habove.relocate (moveAll new)
  have hends : Ends inst (locals.relocate (moveAll new)) [] :=
    .return_ hop (by rwa [StackWords.length_relocate])
  exact .last hends (h.stack.trans hbelow) (h.extraArgs.trans hextra)

theorem Exec.Leads.of_step (h : s.step rt inst = some t) : s.Leads rt t :=
  ⟨[(inst, t)], ⟨h, trivial⟩, rfl⟩

theorem Exec.Leads.trans {u : Exec} (h : s.Leads rt t) (h' : t.Leads rt u) : s.Leads rt u := by
  obtain ⟨run, hrun, rfl⟩ := h
  obtain ⟨run', hrun', rfl⟩ := h'
  exact ⟨run ++ run', Runs.isRun_append.mpr ⟨hrun, hrun'⟩, Runs.last_append⟩

theorem Exec.Leads.of_steps {insts : List ZInstruction} (h : s.steps rt insts = some t) :
    s.Leads rt t := by
  induction insts generalizing s with
  | nil =>
      cases h
      exact ⟨[], trivial, rfl⟩
  | cons inst insts ih =>
      obtain ⟨s₁, hstep, hsteps⟩ := Option.bind_eq_some_iff.mp h
      exact (Leads.of_step hstep).trans (ih hsteps)

theorem Exec.Leads.of_grab (h : s.grab rt callee = some t) : s.Leads rt t := by
  unfold Exec.grab at h
  split at h
  · exact .of_step h
  · cases h
    exact ⟨[], trivial, rfl⟩

/-- A run up to a return is a run of the generated code. -/
theorem Returns.leads (h : Returns P rt s inst args ret new t) : s.Leads rt t := by
  induction h with
  | value _ hstep => exact .of_step hstep
  | partialCall _ _ _ _ hstep hgrab => exact (Exec.Leads.of_step hstep).trans (.of_grab hgrab)
  | body _ _ _ _ _ hstep hgrab _ hbody _ ih =>
      exact (Exec.Leads.of_step hstep).trans
        ((Exec.Leads.of_grab hgrab).trans ((Exec.Leads.of_steps hbody.run).trans ih))

end CamllVM
