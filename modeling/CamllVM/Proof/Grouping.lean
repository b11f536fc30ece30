import CamllVM.Proof.Frames

/-!
# Application does not depend on how the arguments are grouped

A function of `a` arguments is applied to groups of arguments, each to the result of the group
before. As long as there are fewer than `a` of them, `GRAB` returns a closure that remembers all of
them. The group that completes them enters the body with the first `a` on top of the stack.
-/

namespace CamllVM

/-- A function with the `GRAB` that its body starts with if it has more than one argument. -/
structure Callee where
  id : Int
  arity : Nat
  grab : Option ZInstruction
  starts : match grab with
    | none => arity = 1
    | some inst => 1 < arity ∧ inst.opNum = .grab ∧ inst.arg 0 = (arity : Int) - 1
  notMain : grab.isSome → id ≠ mainFunctionId

/-- A value stands for the closure `f` of a function, applied to the arguments `ws`: it is `f` itself
or a closure that remembers `f` and the arguments. -/
def Remembers (heap : Heap) (id : Int) (v f : Value) : List Value → Prop
  | [] => v = f ∧ heap.field f 0 = some (.code (.fn id))
  | w :: ws =>
      heap.field v 0 = some (.code (.restart id)) ∧
      heap.wosizeVal v = some ((w :: ws).length + 2) ∧ heap.field v 1 = some f ∧
      ∀ i (hi : i < (w :: ws).length), heap.field v (i + 2) = some (w :: ws)[i]

/-- An instruction applies the closure in the accumulator to the arguments `us`. Behind the call the
caller has `env`, `extraArgs` and the words `rest` on the stack. -/
inductive Supplies (inst : ZInstruction) (m : Machine) (us : List Value) (env : Value)
    (extraArgs : Int) (rest : StackWords) : Prop
  | apply {w : Option Value} : inst.opNum = .apply → inst.arg 0 = (us.length : Int) →
      m.stack = us.map some ++ w :: some env :: some (.int extraArgs) :: rest →
      Supplies inst m us env extraArgs rest
  | framed : inst.framedArgs = some us.length → m.stack = us.map some ++ rest → env = m.env →
      extraArgs = m.extraArgs → Supplies inst m us env extraArgs rest

def Exec.grab (rt : Runtime) (callee : Callee) (s : Exec) : Option Exec :=
  match callee.grab with
  | some inst => s.step rt inst
  | none => some s

/-- The call by an instruction and the `GRAB` of the function that is called. -/
def Exec.applyTo (rt : Runtime) (inst : ZInstruction) (callee : Callee) (s : Exec) : Option Exec := do
  let s ← s.step rt inst
  s.grab rt callee

/-- The code between two applications leaves the closure in the accumulator. Closures are not
assigned to, and a collection moves a block with its fields. -/
structure Carries (s s' : Exec) (new : List (Nat → Nat)) : Prop where
  moves : s'.machine.moves = new ++ s.machine.moves
  accu : s'.machine.accu = s.machine.accu.relocate (moveAll new)
  fields : ∀ i w, s.machine.heap.field s.machine.accu i = some w →
    s'.machine.heap.field s'.machine.accu i = some (w.relocate (moveAll new))
  wosize : s'.machine.heap.wosizeVal s'.machine.accu = s.machine.heap.wosizeVal s.machine.accu

/-- The accumulator holds what the closure `f` has been made by applying it to the arguments `ws`, in
groups that have not completed them. -/
inductive Supplied (rt : Runtime) (callee : Callee) : Exec → Value → List Value → Prop
  | closure {s : Exec} :
      s.machine.heap.field s.machine.accu 0 = some (.code (.fn callee.id)) →
      Supplied rt callee s s.machine.accu []
  | apply {s s' : Exec} {f : Value} {ws us : List Value} {inst : ZInstruction} {env : Value}
      {extraArgs : Int} {rest : StackWords} {new : List (Nat → Nat)} :
      Supplied rt callee s f ws → us ≠ [] → Supplies inst s.machine us env extraArgs rest →
      ws.length + us.length < callee.arity → s.applyTo rt inst callee = some s' →
      s'.machine.moves = new ++ s.machine.moves →
      Supplied rt callee s' (f.relocate (moveAll new)) ((ws ++ us).map (Value.relocate (moveAll new)))
  | carry {s s' : Exec} {f : Value} {ws : List Value} {new : List (Nat → Nat)} :
      Supplied rt callee s f ws → Carries s s' new →
      Supplied rt callee s' (f.relocate (moveAll new)) (ws.map (Value.relocate (moveAll new)))

/-- The stack can always grow. -/
def Runtime.Grows (rt : Runtime) : Prop := ∀ n, ∃ threshold, rt.camlReallocStack n = .ret threshold

/-- The state behind an application with too few arguments: the caller goes on with a closure that
remembers them. -/
structure PartialResult (callee : Callee) (s s' : Exec) (f : Value) (args : List Value) (env : Value)
    (extraArgs : Int) (rest : StackWords) (new : List (Nat → Nat)) : Prop where
  moves : s'.machine.moves = new ++ s.machine.moves
  fn : s'.fn = s.fn
  callers : s'.callers = s.callers
  control : s'.control = .inside
  stack : s'.machine.stack = rest.relocate (moveAll new)
  env : s'.machine.env = env.relocate (moveAll new)
  extraArgs : s'.machine.extraArgs = extraArgs
  accu : Remembers s'.machine.heap callee.id s'.machine.accu (f.relocate (moveAll new))
    (args.map (Value.relocate (moveAll new)))

/-- The state at the beginning of the body: the first arguments in its slots, the others of the last
group below them. -/
structure BodyEntered (callee : Callee) (s s' : Exec) (f : Value) (ws us : List Value) (env : Value)
    (extraArgs : Int) (rest : StackWords) : Prop where
  moves : s'.machine.moves = s.machine.moves
  fn : s'.fn = callee.id
  callers : s'.callers = s.fn :: s.callers
  stack : ∃ w, s'.machine.stack = ((ws ++ us).take callee.arity).map some ++
    (us.drop (callee.arity - ws.length)).map some ++
      w :: some env :: some (.int extraArgs) :: rest
  env : s'.machine.env = f
  extraArgs : s'.machine.extraArgs = (us.drop (callee.arity - ws.length)).length

/-- The machine in which the closure in the accumulator is called with the arguments `us`. -/
def Machine.applying (m : Machine) (us : List Value) (ret : StackWords) : Machine :=
  { m with stack := us.map some ++ ret, env := m.accu, extraArgs := us.length - 1 }

variable {rt : Runtime} {inst : ZInstruction} {callee : Callee} {s s' : Exec} {m m₁ : Machine}
  {f : Value} {us ws : List Value} {env : Value} {extraArgs : Int} {rest ret : StackWords}

/-! ### The call -/

theorem Machine.exists_checkedCall (hgrows : rt.Grows) {c : CodePtr}
    (hcode : m.codeVal m.accu = some c) :
    ∃ m₁, m.Checked m₁ ∧ m.checkedCall rt = some (.next (m₁, c)) := by
  obtain ⟨m₁, hm₁, hcheck⟩ : ∃ m₁, m.Checked m₁ ∧ m.checkStacks rt = some (.next m₁) := by
    unfold checkStacks
    split
    · obtain ⟨threshold, hrealloc⟩ := hgrows m.stack.length
      simp only [hrealloc]
      exact ⟨_, ⟨m.stack, threshold, rfl⟩, rfl⟩
    · exact ⟨m, ⟨m.camlExternSp, m.camlStackThreshold, rfl⟩, rfl⟩
  refine ⟨m₁, hm₁, ?_⟩
  have hcalling : m₁.calling = some (m₁, c) := by
    obtain ⟨sp, threshold, rfl⟩ := hm₁
    exact Option.bind_eq_some_iff.mpr ⟨c, hcode, rfl⟩
  simp only [checkedCall, hcheck, Option.bind_eq_bind, Option.bind_some, Outcome.andThen, hcalling,
    Option.map_some]

theorem Exec.exec_framed {n : Nat} (hargs : inst.framedArgs = some n) :
    s.exec rt inst = s.callBy (s.machine.applyArgs rt n) := by
  unfold ZInstruction.framedArgs at hargs
  split at hargs
  · next hop => cases hargs; simp only [exec, hop]; rfl
  · next hop => cases hargs; simp only [exec, hop]; rfl
  · next hop => cases hargs; simp only [exec, hop]; rfl
  · cases hargs

theorem Exec.step_of_exec (h : s.exec rt inst = some (.running s')) : s.step rt inst = some s' := by
  rw [step, h]

/-- An application calls the code of the closure in the accumulator with its arguments above the
words for the return. -/
theorem Supplies.call (hgrows : rt.Grows) (h : Supplies inst s.machine us env extraArgs rest)
    {c : CodePtr} (hcode : s.machine.codeVal s.machine.accu = some c) :
    ∃ w m₁, (s.machine.applying us (w :: some env :: some (.int extraArgs) :: rest)).Checked m₁ ∧
      ∀ s', s.call m₁ c = some s' → s.step rt inst = some s' := by
  cases h with
  | @apply w hop hn hstack =>
      refine ⟨w, s.machine.applying us (w :: some env :: some (.int extraArgs) :: rest),
        ⟨s.machine.camlExternSp, s.machine.camlStackThreshold, rfl⟩, fun s' hcall => ?_⟩
      have happly : s.machine.apply (inst.arg 0) = some (s.machine.applying us
          (w :: some env :: some (.int extraArgs) :: rest), c) := by
        refine Option.bind_eq_some_iff.mpr ⟨c, hcode, ?_⟩
        rw [hn, Machine.applying, ← hstack]
        rfl
      apply Exec.step_of_exec
      simp only [Exec.exec, hop, happly, Option.bind_eq_bind, Option.bind_some, hcall]
      rfl
  | framed hargs hstack henv hextra =>
      subst henv hextra
      have hrest : s.machine.stack.drop us.length = rest := by
        rw [hstack, List.drop_left' (List.length_map _)]
      have hargs' : s.machine.stack = us.map some ++ s.machine.stack.drop us.length := by
        rw [hrest]
        exact hstack
      obtain ⟨w, -, -, happly⟩ : ∃ w, _ ∧ _ ∧ s.machine.applyArgs rt us.length =
          (s.machine.framed us w).checkedCall rt := Machine.applyArgs_eq hargs'
      obtain ⟨m₁, hm₁, hchecked⟩ := Machine.exists_checkedCall (m := s.machine.framed us w) hgrows hcode
      refine ⟨w, m₁, ?_, fun s' hcall => ?_⟩
      · rw [Machine.framed, hrest] at hm₁
        exact hm₁
      · apply Exec.step_of_exec
        rw [Exec.exec_framed hargs, Exec.callBy, happly, hchecked]
        simp only [Option.bind_eq_bind, Option.bind_some, Exec.settle, hcall, Option.map_some]

/-! ### The entry of the function -/

/-- The entry of a function with all arguments so far above the words for the return. -/
structure AtEntry (callee : Callee) (m : Machine) (f : Value) (args : List Value) (ret : StackWords)
    (s' : Exec) : Prop where
  moves : s'.machine.moves = m.moves
  fn : s'.fn = callee.id
  control : s'.control = .entry
  stack : s'.machine.stack = args.map some ++ ret
  env : s'.machine.env = f
  extraArgs : s'.machine.extraArgs = (args.length : Int) - 1

/-- The code of what a closure has been made by partial applications puts the arguments of these
applications above the new ones. -/
theorem Remembers.enter (h : Remembers m.heap callee.id m.accu f ws) (us : List Value)
    (ret : StackWords) :
    ∃ c, m.codeVal m.accu = some c ∧ ∀ (s : Exec) m₁, (m.applying us ret).Checked m₁ →
      ∃ s', s.enter m₁ c = some s' ∧ s'.callers = s.callers ∧
        AtEntry callee m f (ws ++ us) ret s' := by
  cases ws with
  | nil =>
      obtain ⟨haccu, hcode⟩ := h
      rw [← haccu] at hcode
      refine ⟨.fn callee.id, Option.bind_eq_some_iff.mpr ⟨_, hcode, rfl⟩, ?_⟩
      rintro s m₁ ⟨sp, threshold, rfl⟩
      exact ⟨_, rfl, rfl, rfl, rfl, rfl, rfl, haccu, rfl⟩
  | cons w ws =>
      obtain ⟨hcode, hsize, henv, hargs⟩ := h
      refine ⟨.restart callee.id, Option.bind_eq_some_iff.mpr ⟨_, hcode, rfl⟩, ?_⟩
      rintro s m₁ ⟨sp, threshold, rfl⟩
      let m₂ : Machine := { m.applying us ret with camlExternSp := sp, camlStackThreshold := threshold }
      have hremembered : m₂.scan.Remembered 0 (w :: ws) := by
        intro i hi
        rw [Nat.zero_add]
        exact hargs i hi
      have hrestart : m₂.scan.restart = some (m₂.scan.restarted (w :: ws) f) :=
        Machine.restart_eq hsize rfl hremembered henv
      refine ⟨{ s with
        machine := (m₂.scan.restarted (w :: ws) f).scan, fn := callee.id, control := .entry }, ?_,
        rfl, rfl, rfl, rfl, ?_, rfl, ?_⟩
      · exact Option.bind_eq_some_iff.mpr ⟨_, hrestart, rfl⟩
      · show (w :: ws).map some ++ (us.map some ++ ret) = ((w :: ws) ++ us).map some ++ ret
        rw [List.map_append, List.append_assoc]
      · show ((us.length : Int) - 1) + ((w :: ws).length : Int) = _
        rw [List.length_append]
        omega

theorem Heap.field_last (heap : Heap) (block : Block) (i : Nat) :
    Heap.field (heap ++ [block]) (.ptr heap.length 0) i = (block.fields[i]?).join := by
  simp [Heap.field]

theorem remembers_partiallyApplied (m : Machine) (id : Int) (args : List Value) (hargs : args ≠ [])
    (env' : Value) (extraArgs : Int) (rest : StackWords) :
    let m' := m.partiallyApplied (.restart id) args env' extraArgs rest
    Remembers m'.heap id m'.accu m.env args := by
  intro m'
  cases args with
  | nil => exact absurd rfl hargs
  | cons a args =>
      refine ⟨?_, ?_, ?_, fun i hi => ?_⟩
      · exact Heap.field_last m.heap _ 0
      · simp [m', Machine.partiallyApplied, Heap.wosizeVal, Heap.headerVal]
      · exact Heap.field_last m.heap _ 1
      · have hfield := Heap.field_last m.heap ⟨closureTag,
          some (.code (.restart id)) :: some m.env :: (a :: args).map some⟩ (i + 2)
        rw [Int.natCast_add] at hfield
        refine hfield.trans ?_
        rw [List.getElem?_cons_succ, List.getElem?_cons_succ, List.getElem?_map,
          List.getElem?_eq_getElem hi]
        rfl

/-! ### The `GRAB` -/

/-- With all arguments the body is entered. -/
theorem Exec.grab_complete {n : Nat} (hextra : s.machine.extraArgs = (n : Int) - 1)
    (hle : callee.arity ≤ n) :
    ∃ control, s.grab rt callee = some { s with
      machine := { s.machine with extraArgs := (n : Int) - callee.arity }, control := control } := by
  have hstarts := callee.starts
  unfold Exec.grab
  cases hgrab : callee.grab with
  | none =>
      rw [hgrab] at hstarts
      refine ⟨s.control, ?_⟩
      rw [show callee.arity = 1 from hstarts, Nat.cast_one, ← hextra]
  | some inst =>
      rw [hgrab] at hstarts
      obtain ⟨-, hop, hrequired⟩ := hstarts
      have hcheck : s.machine.checkGrab (inst.arg 0) = true := by
        refine decide_eq_true ?_
        rw [hextra, hrequired]
        omega
      have hrest : s.machine.extraArgs - inst.arg 0 = (n : Int) - callee.arity := by
        rw [hextra, hrequired]
        omega
      refine ⟨.inside, Exec.step_of_exec ?_⟩
      simp only [Exec.exec, hop, hcheck, if_true, ← hrest]
      rfl

theorem AtEntry.grab_complete {args : List Value} (h : AtEntry callee m f args ret s)
    (hle : callee.arity ≤ args.length) :
    ∃ s', s.grab rt callee = some s' ∧ s'.callers = s.callers ∧ s'.fn = callee.id ∧
      s'.machine.moves = m.moves ∧ s'.machine.stack = args.map some ++ ret ∧ s'.machine.env = f ∧
      s'.machine.extraArgs = (args.length : Int) - callee.arity := by
  obtain ⟨control, hgrab⟩ : ∃ control, s.grab rt callee = some _ :=
    Exec.grab_complete h.extraArgs hle
  exact ⟨_, hgrab, rfl, h.fn, h.moves, h.stack, h.env, rfl⟩

/-- With too few arguments `GRAB` returns to the caller with a closure that remembers them. -/
theorem Exec.grab_partial {args : List Value} {w : Option Value} {fn : Int} {callers : List Int}
    (hfn : s.fn = callee.id) (hextra : s.machine.extraArgs = (args.length : Int) - 1)
    (hpos : 0 < args.length) (hlt : args.length < callee.arity)
    (hcallers : s.callers = fn :: callers) (hreserve : s.machine.reserve rt = some m₁)
    (hstack : m₁.stack = args.map some ++ w :: some env :: some (.int extraArgs) :: rest) :
    s.grab rt callee = some { s with
      machine := m₁.partiallyApplied (.restart s.fn) args env extraArgs rest
      fn := fn
      callers := callers
      control := .inside } := by
  have hstarts := callee.starts
  unfold Exec.grab
  cases hgrab : callee.grab with
  | none =>
      rw [hgrab] at hstarts
      have hone : callee.arity = 1 := hstarts
      omega
  | some inst =>
      rw [hgrab] at hstarts
      obtain ⟨-, hop, hrequired⟩ := hstarts
      have hmain : s.fn ≠ mainFunctionId := by
        rw [hfn]
        exact callee.notMain (by rw [hgrab]; rfl)
      have hcheck : ¬s.machine.checkGrab (inst.arg 0) = true := by
        intro hcheck
        have hle : inst.arg 0 ≤ s.machine.extraArgs := of_decide_eq_true hcheck
        rw [hextra, hrequired] at hle
        omega
      have hrestart : s.machine.createRestartClosure rt (.restart s.fn) =
          some (m₁.partiallyApplied (.restart s.fn) args env extraArgs rest) :=
        Machine.createRestartClosure_eq hreserve (by rw [hextra]; omega) hstack rfl
      apply Exec.step_of_exec
      simp only [Exec.exec, hop, if_neg hcheck, if_neg hmain, hrestart, Option.bind_eq_bind,
        Option.bind_some, Exec.leave, hcallers]
      rfl

theorem AtEntry.grab_partial {args : List Value} {w : Option Value} {fn : Int} {callers : List Int}
    (h : AtEntry callee m f args (w :: some env :: some (.int extraArgs) :: rest) s)
    (hargs : args ≠ []) (hlt : args.length < callee.arity) (hcallers : s.callers = fn :: callers) :
    ∃ s' new, s.grab rt callee = some s' ∧ s'.fn = fn ∧ s'.callers = callers ∧
      s'.control = .inside ∧ s'.machine.moves = new ++ m.moves ∧
      s'.machine.stack = rest.relocate (moveAll new) ∧
      s'.machine.env = env.relocate (moveAll new) ∧ s'.machine.extraArgs = extraArgs ∧
      Remembers s'.machine.heap callee.id s'.machine.accu (f.relocate (moveAll new))
        (args.map (Value.relocate (moveAll new))) := by
  obtain ⟨m₁, new, hreserve, hcollected⟩ := Machine.exists_reserve rt s.machine
  obtain ⟨hmoves, hstack, -, henv, -, -⟩ := hcollected
  have hstack' : m₁.stack = (args.map (Value.relocate (moveAll new))).map some ++
      (w.map (Value.relocate (moveAll new))) :: some (env.relocate (moveAll new)) ::
        some (.int extraArgs) :: rest.relocate (moveAll new) := by
    rw [hstack, h.stack, StackWords.relocate_append, StackWords.relocate_map_some]
    rfl
  have hgrab : s.grab rt callee = some _ := Exec.grab_partial h.fn
    (by rw [h.extraArgs, List.length_map]) (by simpa [List.length_pos_iff] using hargs)
    (by rwa [List.length_map]) hcallers hreserve hstack'
  have hremembers := remembers_partiallyApplied m₁ callee.id
    (args.map (Value.relocate (moveAll new))) (by simpa using hargs)
    (env.relocate (moveAll new)) extraArgs (rest.relocate (moveAll new))
  rw [henv, h.env, ← h.fn] at hremembers
  exact ⟨_, new, hgrab, rfl, rfl, rfl, hmoves.trans (congrArg (new ++ ·) h.moves), rfl, rfl, rfl,
    h.fn ▸ hremembers⟩

/-! ### One group after another -/

theorem Remembers.carry {new : List (Nat → Nat)}
    (h : Remembers s.machine.heap callee.id s.machine.accu f ws) (hcarries : Carries s s' new) :
    Remembers s'.machine.heap callee.id s'.machine.accu (f.relocate (moveAll new))
      (ws.map (Value.relocate (moveAll new))) := by
  cases ws with
  | nil =>
      obtain ⟨haccu, hcode⟩ := h
      have haccu' := hcarries.accu
      rw [haccu] at haccu'
      rw [← haccu] at hcode
      refine ⟨haccu', ?_⟩
      rw [← haccu']
      exact hcarries.fields 0 _ hcode
  | cons w ws =>
      obtain ⟨hcode, hsize, henv, hargs⟩ := h
      refine ⟨hcarries.fields 0 _ hcode, ?_, hcarries.fields 1 _ henv, fun i hi => ?_⟩
      · rw [hcarries.wosize, hsize, List.length_cons, List.length_cons, List.length_map]
      · rw [← List.map_cons, List.length_map] at hi
        rw [hcarries.fields _ _ (hargs i hi)]
        simp only [← List.map_cons, List.getElem_map]

theorem Remembers.applyTo (hgrows : rt.Grows)
    (h : Remembers s.machine.heap callee.id s.machine.accu f ws) (hws : ws.length < callee.arity)
    (hus : us ≠ []) (hsupplies : Supplies inst s.machine us env extraArgs rest) :
    ∃ s', s.applyTo rt inst callee = some s' ∧
      (ws.length + us.length < callee.arity →
        ∃ new, PartialResult callee s s' f (ws ++ us) env extraArgs rest new) ∧
      (callee.arity ≤ ws.length + us.length →
        BodyEntered callee s s' f ws us env extraArgs rest) := by
  obtain ⟨c, hcode, -⟩ := h.enter us []
  obtain ⟨w, m₁, hm₁, hcall⟩ := hsupplies.call hgrows hcode
  obtain ⟨c', hcode', henter⟩ := h.enter us (w :: some env :: some (.int extraArgs) :: rest)
  obtain rfl : c = c' := Option.some.inj (hcode.symm.trans hcode')
  obtain ⟨s₁, hs₁, hcallers, hentry⟩ := henter { s with callers := s.fn :: s.callers } m₁ hm₁
  have hstep : s.step rt inst = some s₁ := hcall s₁ hs₁
  have happly : s.applyTo rt inst callee = s₁.grab rt callee := by
    rw [Exec.applyTo, hstep]
    rfl
  have hlength : (ws ++ us).length = ws.length + us.length := List.length_append
  rcases Nat.lt_or_ge (ws.length + us.length) callee.arity with hlt | hle
  · obtain ⟨s₂, new, hgrab, hfn, hcallers₂, hcontrol, hmoves, hstack, henv, hextra, haccu⟩ :
        ∃ s₂ new, s₁.grab rt callee = some s₂ ∧ _ :=
      hentry.grab_partial (fun hnil => hus (List.append_eq_nil_iff.mp hnil).2) (by omega) hcallers
    exact ⟨s₂, happly.trans hgrab,
      fun _ => ⟨new, hmoves, hfn, hcallers₂, hcontrol, hstack, henv, hextra, haccu⟩,
      fun hle => absurd hlt (Nat.not_lt.mpr hle)⟩
  · obtain ⟨s₂, hgrab, hcallers₂, hfn, hmoves, hstack, henv, hextra⟩ :
        ∃ s₂, s₁.grab rt callee = some s₂ ∧ _ := hentry.grab_complete (by omega)
    have hdrop : (ws ++ us).drop callee.arity = us.drop (callee.arity - ws.length) := by
      rw [List.drop_append, List.drop_eq_nil_of_le (by omega), List.nil_append]
    refine ⟨s₂, happly.trans hgrab, fun hlt => absurd hle (Nat.not_le.mpr hlt),
      fun _ => ⟨hmoves, hfn, hcallers₂.trans hcallers, ⟨w, ?_⟩, henv, ?_⟩⟩
    · rw [hstack, ← hdrop, ← List.map_append, List.take_append_drop]
    · rw [hextra, List.length_drop]
      omega

theorem Supplied.length_lt (h : Supplied rt callee s f ws) : ws.length < callee.arity := by
  induction h with
  | closure =>
      have hstarts := callee.starts
      split at hstarts
      · rw [hstarts]
        exact Nat.zero_lt_one
      · exact Nat.zero_lt_of_lt hstarts.1
  | apply _ _ _ hlt => rwa [List.length_map, List.length_append]
  | carry _ _ ih => rwa [List.length_map]

/-- Every way to supply the same arguments gives a closure that remembers them. -/
theorem Supplied.remembers (hgrows : rt.Grows) (h : Supplied rt callee s f ws) :
    Remembers s.machine.heap callee.id s.machine.accu f ws := by
  induction h with
  | closure hcode => exact ⟨rfl, hcode⟩
  | @apply s s' f ws us inst env extraArgs rest new hsupplied hus hsupplies hlt happly hmoves ih =>
      obtain ⟨s₂, happly₂, hpartial, -⟩ := ih.applyTo hgrows hsupplied.length_lt hus hsupplies
      obtain rfl : s' = s₂ := Option.some.inj (happly.symm.trans happly₂)
      obtain ⟨new', hresult⟩ := hpartial hlt
      obtain rfl : new = new' := List.append_cancel_right (hmoves.symm.trans hresult.moves)
      exact hresult.accu
  | carry _ hcarries ih => exact ih.carry hcarries

theorem Exec.step_return_extra {n : Nat} {c : CodePtr} (hop : inst.opNum = .return_)
    (hn : inst.countArg 0 = some n) (hle : n ≤ s.machine.stack.length) (hus : us ≠ [])
    (hextra : s.machine.extraArgs = us.length) (hstack : s.machine.stack.drop n = us.map some ++ ret)
    (hcode : s.machine.codeVal s.machine.accu = some c) :
    s.step rt inst = s.enter (s.machine.applying us ret) c := by
  have hpos := List.length_pos_iff.mpr hus
  have hreturn : s.machine.handleReturn n = some (s.machine.applying us ret, some c) := by
    rw [Machine.handleReturn, Machine.raiseSp, if_pos hle, Option.bind_eq_bind, Option.bind_some,
      if_pos (show 0 < s.machine.extraArgs by omega)]
    refine Option.bind_eq_some_iff.mpr ⟨c, hcode, ?_⟩
    rw [hstack, hextra]
    rfl
  simp only [step, exec, hop, hn, hreturn, Option.bind_eq_bind, Option.bind_some]
  cases s.enter (s.machine.applying us ret) c with
  | none => rfl
  | some s' => rfl

/-- However the arguments are grouped, what has been supplied with fewer arguments than the function
has remembers them all. The next group either adds to them or completes them and enters the body,
once. At the end of the body `RETURN` calls the value it returns with the extra arguments. -/
theorem application_ignores_grouping (hgrows : rt.Grows) (h : Supplied rt callee s f ws) :
    Remembers s.machine.heap callee.id s.machine.accu f ws ∧
      (∀ inst us env extraArgs rest, us ≠ [] → Supplies inst s.machine us env extraArgs rest →
        ∃ s', s.applyTo rt inst callee = some s' ∧
          (ws.length + us.length < callee.arity →
            ∃ new, PartialResult callee s s' f (ws ++ us) env extraArgs rest new) ∧
          (callee.arity ≤ ws.length + us.length →
            BodyEntered callee s s' f ws us env extraArgs rest)) ∧
      ∀ (t : Exec) inst n us ret c, inst.opNum = .return_ → inst.countArg 0 = some n →
        n ≤ t.machine.stack.length → us ≠ [] → t.machine.extraArgs = us.length →
        t.machine.stack.drop n = us.map some ++ ret → t.machine.codeVal t.machine.accu = some c →
        t.step rt inst = t.enter (t.machine.applying us ret) c :=
  ⟨h.remembers hgrows,
    fun _ _ _ _ _ hus hsupplies => (h.remembers hgrows).applyTo hgrows h.length_lt hus hsupplies,
    fun _ _ _ _ _ _ hop hn hle hus hextra hstack hcode =>
      Exec.step_return_extra hop hn hle hus hextra hstack hcode⟩

def ternary : Callee :=
  ⟨7, 3, some (.ofArgs .grab 2 0), ⟨by decide, rfl, rfl⟩, fun _ => by decide⟩

/-- The function in the accumulator and an argument on the stack. -/
def ternaryCalled : Exec :=
  .start { Machine.start [⟨closureTag, [some (.code (.fn 7))]⟩] .unit 100 with
    accu := .ptr 0 0, stack := [some (.int 1)] }

theorem application_ignores_grouping_oneOfThree :
    ∃ s, ternaryCalled.applyTo .idle (.blank .apply1) ternary = some s ∧
      Remembers s.machine.heap 7 s.machine.accu (.ptr 0 0) [.int 1] := by
  obtain ⟨s, happly⟩ : ∃ s, ternaryCalled.applyTo .idle (.blank .apply1) ternary = some s :=
    ⟨_, rfl⟩
  have hmoves : s.machine.moves = [] ++ ternaryCalled.machine.moves := by
    cases happly
    rfl
  have hclosure : Supplied .idle ternary ternaryCalled (.ptr 0 0) [] := .closure rfl
  have hargs : Supplies (.blank .apply1) ternaryCalled.machine [.int 1] (.raw 0) 0 [] :=
    .framed rfl rfl rfl rfl
  have hsupplied := hclosure.apply (List.cons_ne_nil _ _) hargs (by decide) happly hmoves
  exact ⟨s, happly, (application_ignores_grouping (fun n => ⟨n, rfl⟩) hsupplied).1⟩

end CamllVM
