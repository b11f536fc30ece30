import CamllVM.Proof.SourceFunctions

/-!
# What the passes have to find in a program

The conditions under which the blocks of the LLVM code are where control goes. All of them can be
computed.
-/

namespace CamllVM

variable {prog insts : List ZInstruction} {firstInst lastInst : Int} {M : GenModule} {S : GenState}
  {F : GenFunction} {k : Int}

/-- What the passes have to find in a program. -/
structure Accepted (prog : List ZInstruction) (firstInst lastInst : Int) (M : GenModule)
    (S : GenState) : Prop where
  straight : ∀ lists, sources prog firstInst lastInst = some lists → ∀ insts ∈ lists, Straight insts
  first : ∀ inst, prog[0]? = some inst → inst.annotation ≠ .functionStart
  falls : ∀ fn ∈ S.generated, (M.function fn).FallsRight
  starts : ∀ fn ∈ S.generated, ∀ k ∈ (M.function fn).blocks, (M.function fn).EntersAtStart k
  traps : ∀ fn ∈ S.generated, (M.function fn).ExactTraps

/-! ### Decisions -/

/-- A property of all ways to split a list at one of its elements is one of all positions. -/
theorem forall_split_iff {α : Type} {l : List α} {P : List α → α → List α → Prop} :
    (∀ pre a post, l = pre ++ a :: post → P pre a post) ↔
      ∀ i : Fin l.length, P (l.take i) (l.get i) (l.drop (i + 1)) := by
  constructor
  · intro h i
    exact h _ _ _ (by rw [List.get_eq_getElem, List.cons_getElem_drop_succ, List.take_append_drop])
  · rintro h pre a post rfl
    have hi := h ⟨pre.length, by simp⟩
    simpa using hi

theorem exists_split_iff {α : Type} {l : List α} {P : List α → α → Prop} :
    (∃ pre a post, l = pre ++ a :: post ∧ P pre a) ↔
      ∃ i : Fin l.length, P (l.take i) (l.get i) := by
  constructor
  · rintro ⟨pre, a, post, rfl, h⟩
    exact ⟨⟨pre.length, by simp⟩, by simpa using h⟩
  · rintro ⟨i, h⟩
    refine ⟨_, _, l.drop (i + 1), ?_, h⟩
    rw [List.get_eq_getElem, List.cons_getElem_drop_succ, List.take_append_drop]

theorem straight_iff : Straight insts ↔
    (∀ i : Fin insts.length, ∀ inst' ∈ (insts.drop (i + 1)).head?,
      ((insts.get i).fallsThrough = true → inst'.idx = (insts.get i).idx + 1) ∧
        (((insts.get i).isJumpInst || (insts.get i).isSwitch) = true → inst'.IsLeader)) ∧
      ∀ inst ∈ insts.getLast?, inst.fallsThrough = false := by
  have hsplit := forall_split_iff (l := insts) (P := fun _ inst rest => ∀ inst' ∈ rest.head?,
    (inst.fallsThrough = true → inst'.idx = inst.idx + 1) ∧
      ((inst.isJumpInst || inst.isSwitch) = true → inst'.IsLeader))
  rw [← hsplit]
  constructor
  · rintro ⟨hnext, hlast, hstarts⟩
    refine ⟨fun pre inst rest heq inst' hhead => ?_, hlast⟩
    obtain ⟨post, rfl⟩ := List.head?_eq_some_iff.mp hhead
    exact ⟨hnext pre inst inst' post heq, hstarts pre inst inst' post heq⟩
  · rintro ⟨h, hlast⟩
    exact ⟨fun pre inst inst' post heq => (h pre inst _ heq inst' rfl).1, hlast,
      fun pre inst inst' post heq => (h pre inst _ heq inst' rfl).2⟩

instance : Decidable (Straight insts) := decidable_of_iff _ straight_iff.symm

namespace GenFunction

instance : Decidable F.FallsRight :=
  inferInstanceAs (Decidable (∀ k ∈ F.blocks, ∀ inst ∈ (F.block k).instructions.getLast?,
    inst.endsBlock = false → ∀ d ∈ ((F.block k).instructions.flatMap ZInstruction.dests).head?,
      d = inst.idx + 1))

instance (pre : List ZInstruction) (t : Int) : Decidable (F.Unsplit k pre t) :=
  inferInstanceAs (Decidable (_ ∧ _))

theorem entersAtStart_iff : F.EntersAtStart k ↔
    (∀ i : Fin (F.block k).instructions.length,
      (((F.block k).instructions.get i).opNum = .branch → ∀ br ∈ (F.block k).brBlock,
        F.Unsplit k ((F.block k).instructions.take i) br) ∧
      (((F.block k).instructions.get i).opNum = .switch →
        ∀ dest ∈ ((F.block k).instructions.get i).switchEntries,
          F.Unsplit k ((F.block k).instructions.take i) dest)) ∧
      ∀ lastInst ∈ (F.block k).instructions.getLast?,
        (lastInst.isJumpInst || lastInst.isReturn || lastInst.isSwitch) = false →
        ∀ next ∈ (F.endSuccessors k).head?, F.Unsplit k (F.block k).instructions next := by
  have hsplit := forall_split_iff (l := (F.block k).instructions) (P := fun pre inst _ =>
    (inst.opNum = .branch → ∀ br ∈ (F.block k).brBlock, F.Unsplit k pre br) ∧
      (inst.opNum = .switch → ∀ dest ∈ inst.switchEntries, F.Unsplit k pre dest))
  rw [← hsplit]
  constructor
  · rintro ⟨hbranch, hswitch, hfall⟩
    exact ⟨fun pre inst post heq => ⟨hbranch pre inst post heq, hswitch pre inst post heq⟩, hfall⟩
  · rintro ⟨h, hfall⟩
    exact ⟨fun pre inst post heq => (h pre inst post heq).1,
      fun pre inst post heq => (h pre inst post heq).2, hfall⟩

instance : Decidable (F.EntersAtStart k) := decidable_of_iff _ entersAtStart_iff.symm

instance (pre : List ZInstruction) (inst : ZInstruction) (t : Int) :
    Decidable (F.JumpsTo k pre inst t) := inferInstanceAs (Decidable (_ ∨ _ ∨ _))

theorem enteredNormally_iff (t : Int) : F.EnteredNormally t ↔
    ∃ k ∈ F.blocks, (∃ i : Fin (F.block k).instructions.length,
        F.JumpsTo k ((F.block k).instructions.take i) ((F.block k).instructions.get i) t) ∨
      (∃ lastInst ∈ (F.block k).instructions.getLast?,
        (lastInst.isJumpInst || lastInst.isReturn || lastInst.isSwitch) = false) ∧
        (F.endSuccessors k).head? = some t ∧ F.Unsplit k (F.block k).instructions t := by
  have hsplit := fun k => exists_split_iff (l := (F.block k).instructions)
    (P := fun pre inst => F.JumpsTo k pre inst t)
  simp only [← hsplit]
  constructor
  · rintro (⟨k, pre, inst, post, hk, hinsts, h⟩ | ⟨k, hk, lastInst, hlast, hends, hnext⟩)
    · exact ⟨k, hk, .inl ⟨pre, inst, post, hinsts, h⟩⟩
    · exact ⟨k, hk, .inr ⟨⟨lastInst, hlast, hends⟩, hnext⟩⟩
  · rintro ⟨k, hk, ⟨pre, inst, post, hinsts, h⟩ | ⟨⟨lastInst, hlast, hends⟩, hnext⟩⟩
    · exact .jump k pre inst post hk hinsts h
    · exact .fall k hk ⟨lastInst, hlast, hends, hnext⟩

instance (t : Int) : Decidable (F.EnteredNormally t) := decidable_of_iff _ (enteredNormally_iff t).symm

instance : Decidable F.ExactTraps :=
  inferInstanceAs (Decidable (∀ k ∈ F.blocks, ∀ inst ∈ (F.block k).instructions, _ → _))

end GenFunction

theorem accepted_iff : Accepted prog firstInst lastInst M S ↔
    (∀ lists ∈ sources prog firstInst lastInst, ∀ insts ∈ lists, Straight insts) ∧
      (∀ inst ∈ prog[0]?, inst.annotation ≠ .functionStart) ∧
      ∀ fn ∈ S.generated, (M.function fn).FallsRight ∧
        (∀ k ∈ (M.function fn).blocks, (M.function fn).EntersAtStart k) ∧
        (M.function fn).ExactTraps :=
  ⟨fun h => ⟨h.straight, h.first, fun fn hfn => ⟨h.falls fn hfn, h.starts fn hfn, h.traps fn hfn⟩⟩,
    fun h => ⟨h.1, h.2.1, fun fn hfn => (h.2.2 fn hfn).1, fun fn hfn => (h.2.2 fn hfn).2.1,
      fun fn hfn => (h.2.2 fn hfn).2.2⟩⟩

instance : Decidable (Accepted prog firstInst lastInst M S) := decidable_of_iff _ accepted_iff.symm

end CamllVM
