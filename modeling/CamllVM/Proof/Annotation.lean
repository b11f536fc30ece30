import CamllVM.Proof.DecodeEncode
import CamllVM.Proof.DecodeTargets

/-!
# Which instructions are entry points

`annotateNodes` goes through the program once and overwrites the annotation of an instruction every
time that another one refers to it. The annotation that remains is that of the last reference.
-/

namespace CamllVM

/-- A block starts at instruction `i` because of an instruction: it goes there, or it is a jump and
`i` follows it. -/
def ZInstruction.LeadsTo (inst : ZInstruction) (i : Int) : Prop :=
  i ∈ inst.dests ∨ inst.isJumpInst ∧ i = inst.idx + 1

/-- The annotations tell the functions and the blocks of a program. -/
structure MarksEntries (insts prog : List ZInstruction) : Prop where
  functions : ∀ (i : Nat) inst, prog[i]? = some inst →
    (inst.annotation = .functionStart ↔ ∃ src ∈ insts, (i : Int) ∈ src.closureTargets)
  blocks : ∀ (i : Nat) inst, prog[i]? = some inst →
    (¬∃ src ∈ insts, (i : Int) ∈ src.closureTargets) →
    (inst.annotation = .blockStart ↔ ∃ src ∈ insts, src.LeadsTo i)

/-- Behind every reference to a function as the start of a block a closure is made of it. -/
def NamedLast (insts : List ZInstruction) : Prop :=
  ∀ i : Nat, (∃ src ∈ insts, (i : Int) ∈ src.closureTargets) →
    ∀ front src back, insts = front ++ src :: back → src.LeadsTo i →
      ∃ src' ∈ back, (i : Int) ∈ src'.closureTargets

/-! ### The marks of one instruction -/

/-- The annotation that a list of marks leaves at instruction `i`. -/
def lastMark (i : Int) (marks : List (Int × InstrAnnotation)) (a : InstrAnnotation) :
    InstrAnnotation :=
  marks.foldl (fun a mark => if mark.1 = i then mark.2 else a) a

theorem lastMark_append (i : Int) (marks marks' : List (Int × InstrAnnotation))
    (a : InstrAnnotation) : lastMark i (marks ++ marks') a = lastMark i marks' (lastMark i marks a) :=
  List.foldl_append

theorem lastMark_map (i : Int) (ts : List Int) (v a : InstrAnnotation) :
    lastMark i (ts.map fun t => (t, v)) a = if i ∈ ts then v else a := by
  induction ts generalizing a with
  | nil => rfl
  | cons t ts ih =>
      have hcons : lastMark i ((t :: ts).map fun t => (t, v)) a =
          lastMark i (ts.map fun t => (t, v)) (if t = i then v else a) := rfl
      rw [hcons, ih]
      by_cases hmem : i ∈ ts
      · rw [if_pos hmem, if_pos (List.mem_cons_of_mem t hmem)]
      · by_cases heq : t = i
        · rw [if_neg hmem, if_pos heq, if_pos (heq ▸ List.mem_cons_self)]
        · rw [if_neg hmem, if_neg heq, if_neg]
          intro hmem'
          rcases List.mem_cons.mp hmem' with rfl | hmem'
          · exact heq rfl
          · exact hmem hmem'

theorem mem_blockMarks (inst : ZInstruction) (i : Int) :
    i ∈ (if inst.isSwitch then inst.switchEntries else []) ++
        (if inst.isPushTrap then [inst.getDestIdx] else []) ++
        (if inst.isJumpInst then [inst.getDestIdx, inst.idx + 1] else []) ↔ inst.LeadsTo i := by
  cases hop : inst.opNum <;>
    simp [ZInstruction.LeadsTo, ZInstruction.dests, ZInstruction.isSwitch, ZInstruction.isPushTrap,
      ZInstruction.isJumpInst, hop]

theorem not_leadsTo_of_closureTargets {inst : ZInstruction} {i t : Int}
    (h : t ∈ inst.closureTargets) : ¬inst.LeadsTo i := by
  have hop : inst.opNum = .closure ∨ inst.opNum = .closureRec := by
    rcases inst.closureTargets_subset h with ⟨-, hop⟩ | ⟨-, hop⟩
    · exact .inl (by simpa [ZInstruction.isClosure] using hop)
    · exact .inr (by simpa [ZInstruction.isClosureRec] using hop)
  rcases hop with hop | hop <;>
    simp [ZInstruction.LeadsTo, ZInstruction.dests, ZInstruction.isSwitch, ZInstruction.isPushTrap,
      ZInstruction.isJumpInst, hop]

open Classical in
theorem lastMark_marks (inst : ZInstruction) (i : Int) (a : InstrAnnotation) :
    lastMark i inst.marks a =
      if i ∈ inst.closureTargets then .functionStart
      else if inst.LeadsTo i then .blockStart else a := by
  rw [ZInstruction.marks, lastMark_append, lastMark_map, lastMark_map]
  simp only [mem_blockMarks]
  by_cases hnamed : i ∈ inst.closureTargets
  · rw [if_neg (not_leadsTo_of_closureTargets hnamed), if_pos hnamed, if_pos hnamed]
  · rw [if_neg hnamed, if_neg hnamed]

/-! ### The marks of a program -/

/-- The annotation that a program leaves at instruction `i`. -/
def finalMark (i : Int) (insts : List ZInstruction) : InstrAnnotation :=
  lastMark i (insts.flatMap ZInstruction.marks) .nothing

theorem finalMark_concat (i : Int) (insts : List ZInstruction) (inst : ZInstruction) :
    finalMark i (insts ++ [inst]) = lastMark i inst.marks (finalMark i insts) := by
  rw [finalMark, List.flatMap_append, lastMark_append, List.flatMap_singleton]
  rfl

theorem exists_mem_concat {insts : List ZInstruction} {inst : ZInstruction}
    {P : ZInstruction → Prop} : (∃ src ∈ insts ++ [inst], P src) ↔ (∃ src ∈ insts, P src) ∨ P inst := by
  simp only [List.mem_append, List.mem_singleton, or_and_right, exists_or, exists_eq_left]

theorem finalMark_eq_nothing (i : Int) (insts : List ZInstruction) :
    finalMark i insts = .nothing ↔
      ¬(∃ src ∈ insts, i ∈ src.closureTargets) ∧ ¬∃ src ∈ insts, src.LeadsTo i := by
  induction insts using List.reverseRecOn with
  | nil => simp [finalMark, lastMark]
  | append_singleton insts inst ih =>
      rw [finalMark_concat, lastMark_marks, exists_mem_concat, exists_mem_concat]
      by_cases hnamed : i ∈ inst.closureTargets
      · simp [hnamed]
      · by_cases hleads : inst.LeadsTo i
        · simp [hnamed, hleads]
        · simp [hnamed, hleads, ih]

/-- The function mark remains if the last reference is one of a closure. -/
theorem finalMark_eq_functionStart (i : Int) (insts : List ZInstruction) :
    finalMark i insts = .functionStart ↔
      (∃ src ∈ insts, i ∈ src.closureTargets) ∧
        ∀ front src back, insts = front ++ src :: back → src.LeadsTo i →
          ∃ src' ∈ back, i ∈ src'.closureTargets := by
  induction insts using List.reverseRecOn with
  | nil => simp [finalMark, lastMark]
  | append_singleton insts inst ih =>
      rw [finalMark_concat, lastMark_marks]
      by_cases hnamed : i ∈ inst.closureTargets
      · rw [if_pos hnamed]
        refine ⟨fun _ => ⟨⟨inst, by simp, hnamed⟩, fun front src back heq hleads => ?_⟩,
          fun _ => rfl⟩
        rcases List.eq_nil_or_concat back with rfl | ⟨back, last, rfl⟩
        · obtain ⟨-, heq⟩ := List.append_inj' heq rfl
          obtain rfl : inst = src := (List.cons.inj heq).1
          exact absurd hleads (not_leadsTo_of_closureTargets hnamed)
        · rw [List.concat_eq_append, ← List.cons_append, ← List.append_assoc] at heq
          obtain ⟨-, heq⟩ := List.append_inj' heq rfl
          obtain rfl : inst = last := (List.cons.inj heq).1
          exact ⟨inst, by simp, hnamed⟩
      · rw [if_neg hnamed]
        by_cases hleads : inst.LeadsTo i
        · rw [if_pos hleads]
          refine ⟨fun h => (by cases h), fun h => ?_⟩
          obtain ⟨src', hmem, -⟩ := h.2 insts inst [] rfl hleads
          cases hmem
        · rw [if_neg hleads, ih, exists_mem_concat]
          refine and_congr ⟨.inl, fun h => h.resolve_right hnamed⟩ ⟨?_, ?_⟩
          · intro h front src back heq hsrc
            rcases List.eq_nil_or_concat back with rfl | ⟨back, last, rfl⟩
            · obtain ⟨-, heq⟩ := List.append_inj' heq rfl
              obtain rfl : inst = src := (List.cons.inj heq).1
              exact absurd hsrc hleads
            · rw [List.concat_eq_append, ← List.cons_append, ← List.append_assoc] at heq
              obtain ⟨heq, -⟩ := List.append_inj' heq rfl
              obtain ⟨src', hmem, hsrc'⟩ := h front src back heq hsrc
              exact ⟨src', by simp [hmem], hsrc'⟩
          · intro h front src back heq hsrc
            obtain ⟨src', hmem, hsrc'⟩ := h front src (back ++ [inst]) (by simp [heq]) hsrc
            rcases List.mem_append.mp hmem with hmem | hmem
            · exact ⟨src', hmem, hsrc'⟩
            · rw [List.mem_singleton.mp hmem] at hsrc'
              exact absurd hsrc' hnamed

/-! ### The loop -/

theorem annotate_eq {insts : List ZInstruction} {i : Int} (a : InstrAnnotation) (hlow : 0 ≤ i)
    (hhigh : i < insts.length) :
    ∃ insts', annotate a insts i = some insts' ∧ insts'.length = insts.length ∧
      ∀ (k : Nat), insts'[k]? = (insts[k]?).map fun inst =>
        { inst with annotation := if i = k then a else inst.annotation } := by
  have hlt : i.toNat < insts.length := by omega
  refine ⟨insts.set i.toNat { insts[i.toNat] with annotation := a }, ?_, List.length_set,
    fun k => ?_⟩
  · rw [annotate, if_pos hlow, List.getElem?_eq_getElem hlt]
    rfl
  · rw [List.getElem?_set]
    by_cases heq : i.toNat = k
    · subst heq
      rw [if_pos rfl, if_pos hlt, List.getElem?_eq_getElem hlt, Option.map_some,
        if_pos (by omega)]
    · rw [if_neg heq]
      have hne : ¬i = k := by omega
      simp only [if_neg hne]
      cases insts[k]? <;> rfl

/-- The marks of a list leave at every instruction the last mark it gets. -/
theorem foldlM_annotate_eq {marks : List (Int × InstrAnnotation)} {insts : List ZInstruction}
    (hrange : ∀ mark ∈ marks, 0 ≤ mark.1 ∧ mark.1 < insts.length) :
    ∃ prog, marks.foldlM (fun insts mark => annotate mark.2 insts mark.1) insts = some prog ∧
      ∀ (k : Nat), prog[k]? = (insts[k]?).map fun inst =>
        { inst with annotation := lastMark k marks inst.annotation } := by
  induction marks generalizing insts with
  | nil =>
      refine ⟨insts, rfl, fun k => ?_⟩
      cases insts[k]? <;> rfl
  | cons mark marks ih =>
      obtain ⟨hmark, hmarks⟩ := List.forall_mem_cons.mp hrange
      obtain ⟨insts₁, hannotate, hlength, hset⟩ := annotate_eq mark.2 hmark.1 hmark.2
      have hrange₁ : ∀ mark ∈ marks, 0 ≤ mark.1 ∧ mark.1 < insts₁.length := by rwa [hlength]
      obtain ⟨prog, hfold, hprog⟩ := ih hrange₁
      refine ⟨prog, ?_, fun k => ?_⟩
      · rw [List.foldlM_cons, hannotate]
        exact hfold
      · rw [hprog, hset, Option.map_map]
        rfl

theorem mem_marks {inst : ZInstruction} {mark : Int × InstrAnnotation} (h : mark ∈ inst.marks) :
    mark.1 ∈ inst.closureTargets ∨ inst.LeadsTo mark.1 := by
  rcases List.mem_append.mp h with hmem | hmem
  · obtain ⟨t, ht, rfl⟩ := List.mem_map.mp hmem
    exact .inl ht
  · obtain ⟨t, ht, rfl⟩ := List.mem_map.mp hmem
    exact .inr ((mem_blockMarks inst t).mp ht)

/-- Annotation of a decoded program ends, and leaves at every instruction the last mark it gets. -/
theorem annotateNodes_eq {insts : List ZInstruction} (hdecoded : Decoded insts)
    (hresolved : ∀ inst ∈ insts, inst.Resolved fun t => 0 ≤ t ∧ t < insts.length)
    (hjumps : ∀ inst ∈ insts, inst.isJumpInst → inst.idx + 1 < insts.length) :
    ∃ prog, annotateNodes insts = some prog ∧ ∀ (k : Nat), prog[k]? = (insts[k]?).map fun inst =>
      { inst with annotation := finalMark k insts } := by
  have hcounts : insts.all (fun inst => !inst.isClosureRec || inst.arg 0 ≤ 32) = true := by
    rw [List.all_eq_true]
    intro inst hmem
    cases hrec : inst.isClosureRec with
    | false => rfl
    | true => simpa using (hresolved inst hmem).count_le hrec
  have hrange : ∀ mark ∈ insts.flatMap ZInstruction.marks,
      0 ≤ mark.1 ∧ mark.1 < insts.length := by
    intro mark hmark
    obtain ⟨inst, hmem, hmark⟩ := List.mem_flatMap.mp hmark
    rcases mem_marks hmark with hnamed | hdest | ⟨hjump, heq⟩
    · exact (hresolved inst hmem).closureTargets _ hnamed
    · exact (hresolved inst hmem).dests _ hdest
    · obtain ⟨i, hi⟩ := List.getElem?_of_mem hmem
      have hidx := (hdecoded i inst hi).1
      have hlt := hjumps inst hmem hjump
      omega
  obtain ⟨prog, hfold, hprog⟩ := foldlM_annotate_eq hrange
  refine ⟨prog, by rw [annotateNodes, if_pos hcounts]; exact hfold, fun k => ?_⟩
  rw [hprog]
  cases hk : insts[k]? with
  | none => rfl
  | some inst => rw [Option.map_some, Option.map_some, (hdecoded k inst hk).2]; rfl

/-- Annotation tells all entry points of a decoded program exactly if the last reference to every
function is one of a closure. -/
theorem marksEntries_iff {host : Host} {words : List Int} {size : Int} {insts : List ZInstruction}
    (hread : readInstructions host words size = some insts)
    (hjumps : ∀ inst ∈ insts, inst.isJumpInst → inst.idx + 1 < insts.length) :
    ∃ prog, annotateNodes insts = some prog ∧ (MarksEntries insts prog ↔ NamedLast insts) := by
  have hresolved := readInstructions_resolved hread
  obtain ⟨prog, hannotate, hprog⟩ :=
    annotateNodes_eq (readInstructions_decoded hread) hresolved hjumps
  have hmarks : ∀ (i : Nat) inst, prog[i]? = some inst → inst.annotation = finalMark i insts := by
    intro i inst hi
    rw [hprog] at hi
    obtain ⟨inst₀, -, rfl⟩ := Option.map_eq_some_iff.mp hi
    rfl
  refine ⟨prog, hannotate, fun h i hnamed => ?_, fun h => ⟨fun i inst hi => ?_,
    fun i inst hi hnamed => ?_⟩⟩
  · obtain ⟨src, hmem, htarget⟩ := hnamed
    have hbound := (hresolved src hmem).closureTargets _ htarget
    have hlt : i < insts.length := by omega
    have hi : prog[i]? = some { insts[i] with annotation := finalMark i insts } := by
      rw [hprog, List.getElem?_eq_getElem hlt, Option.map_some]
    exact ((finalMark_eq_functionStart i insts).mp
      ((h.functions i _ hi).mpr ⟨src, hmem, htarget⟩)).2
  · rw [hmarks i inst hi, finalMark_eq_functionStart]
    exact ⟨fun hmark => hmark.1, fun hnamed => ⟨hnamed, h i hnamed⟩⟩
  · rw [hmarks i inst hi]
    constructor
    · intro hmark
      by_contra hnone
      have hnothing := (finalMark_eq_nothing i insts).mpr ⟨hnamed, hnone⟩
      cases hmark.symm.trans hnothing
    · intro hleads
      cases hmark : finalMark i insts with
      | nothing => exact absurd hleads ((finalMark_eq_nothing i insts).mp hmark).2
      | functionStart => exact absurd ((finalMark_eq_functionStart i insts).mp hmark).1 hnamed
      | blockStart => rfl

/-- A function behind a jump, of which a closure is made before the jump. -/
def jumpOverFunction : SymProgram where
  size := 4
  code :=
    [.ofOffset .closure [0] 2 (.refl true),
     .ofOffset .branch [] 3 (.refl true),
     .ofPlain .return_ [1] (.refl true),
     .ofPlain .stop [] (.refl true)]
  length_code := rfl

/-- The jump overwrites the annotation of the function. -/
theorem not_marksEntries_jumpOverFunction :
    ∃ prog, readInstructions .littleEndian jumpOverFunction.encode
        (4 * jumpOverFunction.encode.length) = some jumpOverFunction.decoded ∧
      (∀ inst ∈ jumpOverFunction.decoded, inst.isJumpInst → inst.idx + 1 < 4) ∧
      annotateNodes jumpOverFunction.decoded = some prog ∧
      ¬MarksEntries jumpOverFunction.decoded prog := by
  refine ⟨(annotateNodes jumpOverFunction.decoded).getD [],
    jumpOverFunction.readInstructions_words (by decide), by decide, by decide, fun h => ?_⟩
  have hmark := (h.functions 2 (((annotateNodes jumpOverFunction.decoded).getD [])[2]?.getD
    (.blank .stop)) (by decide)).mpr (by decide)
  exact absurd hmark (by decide)

theorem marksEntries_iff_jumpOverFunction :
    ∃ prog, annotateNodes jumpOverFunction.decoded = some prog ∧
      (MarksEntries jumpOverFunction.decoded prog ↔ NamedLast jumpOverFunction.decoded) :=
  marksEntries_iff (jumpOverFunction.readInstructions_words (by decide)) (by decide)

end CamllVM
