import CamllVM.Proof.DecodeNumbering

/-!
# The targets of decoded instructions

Whatever the words are, the fix-up loop reaches every instruction that names others, and it stores
numbers that the reading loop has given to instructions.
-/

namespace CamllVM

namespace ZInstruction

/-- The fix-up loop has to look at an instruction. -/
def hasTargets (inst : ZInstruction) : Bool :=
  (codeOffsetArgs inst.opNum).isSome || inst.isClosureRec || inst.isSwitch

/-- All instructions that an instruction names satisfy `P`, and its function table is full. -/
structure Resolved (P : Int → Prop) (inst : ZInstruction) : Prop where
  dests : ∀ t ∈ inst.dests, P t
  closureTargets : ∀ t ∈ inst.closureTargets, P t
  count_le : inst.isClosureRec → inst.arg 0 ≤ 32

theorem dests_subset (inst : ZInstruction) {t : Int} (h : t ∈ inst.dests) :
    t = inst.getDestIdx ∧ (inst.isJumpInst || inst.isPushTrap) = true ∨
      t ∈ inst.switchEntries ∧ inst.isSwitch = true := by
  unfold dests at h
  split at h
  · next hjump => exact .inl ⟨List.mem_singleton.mp h, hjump⟩
  · split at h
    · next hswitch => exact .inr ⟨h, hswitch⟩
    · cases h

theorem closureTargets_subset (inst : ZInstruction) {t : Int} (h : t ∈ inst.closureTargets) :
    t = inst.getDestIdx ∧ inst.isClosure = true ∨
      t ∈ inst.closureRecFns.toList.take (inst.arg 0).toNat ∧ inst.isClosureRec = true := by
  unfold closureTargets at h
  split at h
  · next hclosure => exact .inl ⟨List.mem_singleton.mp h, hclosure⟩
  · split at h
    · next hrec => exact .inr ⟨h, hrec⟩
    · cases h

theorem codeOffsetArgs_isSome {inst : ZInstruction}
    (h : (inst.isJumpInst || inst.isPushTrap || inst.isClosure) = true) :
    (codeOffsetArgs inst.opNum).isSome = true := by
  cases hop : inst.opNum <;>
    simp [isJumpInst, isPushTrap, isClosure, codeOffsetArgs, hop] at h ⊢

theorem resolved_of_not_hasTargets {P : Int → Prop} {inst : ZInstruction}
    (h : ¬inst.hasTargets = true) : inst.Resolved P := by
  simp only [hasTargets, Bool.or_eq_true, not_or] at h
  obtain ⟨⟨hoffset, hrec⟩, hswitch⟩ := h
  have hnone : ¬(inst.isJumpInst || inst.isPushTrap || inst.isClosure) = true :=
    fun hsome => hoffset (codeOffsetArgs_isSome hsome)
  simp only [Bool.or_eq_true, not_or] at hnone
  refine ⟨fun t ht => ?_, fun t ht => ?_, fun hsome => absurd hsome hrec⟩
  · rcases inst.dests_subset ht with ⟨-, hjump⟩ | ⟨-, hsome⟩
    · rw [Bool.or_eq_true] at hjump
      exact absurd hjump (not_or.mpr hnone.1)
    · exact absurd hsome hswitch
  · rcases inst.closureTargets_subset ht with ⟨-, hsome⟩ | ⟨-, hsome⟩
    · exact absurd hsome hnone.2
    · exact absurd hsome hrec

end ZInstruction

/-! ### The fix-up loop -/

variable {instPositions : Int → Option Int} {P : Int → Prop} {inst inst' : ZInstruction}

theorem setClosureRecFn_eq_some {j : Nat} {v : Int} (h : inst.setClosureRecFn j v = some inst') :
    ∃ hj : j < 32, inst' = { inst with closureRecFns := inst.closureRecFns.set j v } := by
  unfold ZInstruction.setClosureRecFn at h
  split at h
  · next hj => exact ⟨hj, (Option.some.inj h).symm⟩
  · cases h

/-- The fix-up of the function table keeps the entries before `j` and resolves the `n` from there. -/
theorem adjustClosureRecFns_resolved {j n : Nat}
    (hpos : ∀ p i, instPositions p = some i → P i)
    (h : adjustClosureRecFns instPositions j n inst = some inst') :
    inst'.opNum = inst.opNum ∧ inst'.args = inst.args ∧ (n ≠ 0 → j + n ≤ 32) ∧
      (∀ k (hk : k < 32), k < j → inst'.closureRecFns[k] = inst.closureRecFns[k]) ∧
      ∀ k (hk : k < 32), j ≤ k → k < j + n → P inst'.closureRecFns[k] := by
  induction n generalizing j inst with
  | zero =>
      cases h
      exact ⟨rfl, rfl, fun hne => absurd rfl hne, fun _ _ _ => rfl, fun k hk hjk hlt => by omega⟩
  | succ n ih =>
      rw [adjustClosureRecFns] at h
      split at h
      · next hj =>
          simp only [Option.bind_eq_bind, Option.bind_eq_some_iff] at h
          obtain ⟨idx, hidx, inst₁, hset, h⟩ := h
          obtain ⟨_, rfl⟩ := setClosureRecFn_eq_some hset
          obtain ⟨hop, hargs, hle, hbefore, hrest⟩ := ih h
          refine ⟨hop, hargs, fun _ => ?_, fun k hk hlt => ?_, fun k hk hjk hlt => ?_⟩
          · rcases Nat.eq_zero_or_pos n with rfl | hn
            · omega
            · have hle' := hle (by omega)
              omega
          · rw [hbefore k hk (by omega), Vector.getElem_set, if_neg (by omega)]
          · rcases Nat.eq_or_lt_of_le hjk with rfl | hlt'
            · rw [hbefore j hk (by omega), Vector.getElem_set, if_pos rfl]
              exact hpos _ _ hidx
            · exact hrest k hk (by omega) (by omega)
      · cases h

theorem mapM_resolved {ts ts' : List Int} (hpos : ∀ p i, instPositions p = some i → P i)
    (h : ts.mapM instPositions = some ts') : ∀ t ∈ ts', P t := by
  induction ts generalizing ts' with
  | nil => cases h; simp
  | cons t ts ih =>
      simp only [List.mapM_cons, Option.bind_eq_bind, Option.bind_eq_some_iff] at h
      obtain ⟨i, hi, ts₁, hts, h⟩ := h
      cases h
      intro t' ht'
      rcases List.mem_cons.mp ht' with rfl | ht'
      · exact hpos _ _ hi
      · exact ih hts t' ht'

theorem setArg_eq_some {j : Nat} {v : Int} (h : inst.setArg j v = some inst') :
    ∃ hj : j < 4, inst' = { inst with args := inst.args.set j v } := by
  unfold ZInstruction.setArg at h
  split at h
  · next hj => exact ⟨hj, (Option.some.inj h).symm⟩
  · cases h

theorem adjustInst_resolved (hpos : ∀ p i, instPositions p = some i → P i)
    (h : adjustInst instPositions inst = some inst') : inst'.Resolved P := by
  unfold adjustInst at h
  split at h
  · next hop =>
      obtain ⟨hop', hargs, hle, -, hfns⟩ := adjustClosureRecFns_resolved hpos h
      rw [hop] at hop'
      have harg : inst'.arg 0 = inst.arg 0 := by rw [ZInstruction.arg, ZInstruction.arg, hargs]
      refine ⟨fun t ht => ?_, fun t ht => ?_, fun _ => by omega⟩
      · simp [ZInstruction.dests, ZInstruction.isJumpInst, ZInstruction.isPushTrap,
          ZInstruction.isSwitch, hop'] at ht
      · rcases inst'.closureTargets_subset ht with ⟨-, hclosure⟩ | ⟨hmem, -⟩
        · simp [ZInstruction.isClosure, hop'] at hclosure
        · obtain ⟨k, hk, rfl⟩ := List.mem_take_iff_getElem.mp hmem
          rw [harg, Vector.length_toList] at hk
          rw [Vector.getElem_toList]
          exact hfns k (by omega) (Nat.zero_le k) (by omega)
  · next hrec =>
      split at h
      · next hop =>
          simp only [Option.bind_eq_bind, Option.bind_eq_some_iff] at h
          obtain ⟨entries, hentries, h⟩ := h
          cases h
          refine ⟨fun t ht => ?_, fun t ht => ?_, fun hsome => ?_⟩
          · simp only [ZInstruction.dests, ZInstruction.isJumpInst, ZInstruction.isPushTrap,
              ZInstruction.isSwitch, hop] at ht
            exact mapM_resolved hpos hentries t ht
          · simp [ZInstruction.closureTargets, ZInstruction.isClosure, ZInstruction.isClosureRec,
              hop] at ht
          · simp [ZInstruction.isClosureRec, hop] at hsome
      · next hswitch =>
          simp only [Option.bind_eq_bind, Option.bind_eq_some_iff] at h
          obtain ⟨argIdx, hoffset, idx, hidx, h⟩ := h
          obtain ⟨hj, rfl⟩ := setArg_eq_some h
          have hdest : ZInstruction.getDestIdx
              { inst with args := inst.args.set argIdx idx } = idx := by
            simp [ZInstruction.getDestIdx, ZInstruction.arg, hoffset]
          refine ⟨fun t ht => ?_, fun t ht => ?_, fun hsome => ?_⟩
          · rcases ZInstruction.dests_subset _ ht with ⟨rfl, -⟩ | ⟨-, hsome⟩
            · rw [hdest]
              exact hpos _ _ hidx
            · exact absurd (by simpa [ZInstruction.isSwitch] using hsome) hswitch
          · rcases ZInstruction.closureTargets_subset _ ht with ⟨rfl, -⟩ | ⟨-, hsome⟩
            · rw [hdest]
              exact hpos _ _ hidx
            · exact absurd (by simpa [ZInstruction.isClosureRec] using hsome) hrec
          · exact absurd (by simpa [ZInstruction.isClosureRec] using hsome) hrec

/-- The fix-up loop resolves the instructions it goes through, and leaves the others alone. -/
theorem adjustInsts_resolved {ks : List Nat} {insts insts' : List ZInstruction}
    (hpos : ∀ p i, instPositions p = some i → P i)
    (hreach : ∀ (k : Nat) inst, insts[k]? = some inst → k ∈ ks ∨ inst.Resolved P)
    (h : adjustInsts instPositions ks insts = some insts') :
    insts'.length = insts.length ∧ ∀ inst ∈ insts', inst.Resolved P := by
  induction ks generalizing insts with
  | nil =>
      cases h
      refine ⟨rfl, fun inst hmem => ?_⟩
      obtain ⟨k, hk⟩ := List.getElem?_of_mem hmem
      exact (hreach k inst hk).resolve_left List.not_mem_nil
  | cons k ks ih =>
      simp only [adjustInsts, Option.bind_eq_bind, Option.bind_eq_some_iff] at h
      obtain ⟨inst, hk, inst', hadjust, h⟩ := h
      have hreach' : ∀ (i : Nat) inst₁, (insts.set k inst')[i]? = some inst₁ →
          i ∈ ks ∨ inst₁.Resolved P := by
        intro i inst₁ hi
        rw [List.getElem?_set] at hi
        split at hi
        · split at hi
          · cases hi
            exact .inr (adjustInst_resolved hpos hadjust)
          · cases hi
        · next hne =>
            rcases hreach i inst₁ hi with hmem | hdone
            · exact .inl ((List.mem_cons.mp hmem).resolve_left fun heq => hne heq.symm)
            · exact .inr hdone
      obtain ⟨hlength, hresolved⟩ := ih hreach' h
      exact ⟨hlength.trans List.length_set, hresolved⟩

/-! ### The reading loop -/

variable {host : Host} {r r' : Reader}

/-- What a part of the reading of one instruction does with the lists of the reader. -/
structure ReadOn (inst inst' : ZInstruction) (r r' : Reader) : Prop where
  opNum : inst'.opNum = inst.opNum
  instructions : r'.instructions = r.instructions
  instPositions : r'.instPositions = r.instPositions
  instsToAdjust : r.instsToAdjust ⊆ r'.instsToAdjust

theorem ReadOn.refl (inst : ZInstruction) (r : Reader) : ReadOn inst inst r r :=
  ⟨rfl, rfl, rfl, List.Subset.refl _⟩

theorem ReadOn.trans {inst₁ inst₂ inst₃ : ZInstruction} {r₁ r₂ r₃ : Reader}
    (h : ReadOn inst₁ inst₂ r₁ r₂) (h' : ReadOn inst₂ inst₃ r₂ r₃) : ReadOn inst₁ inst₃ r₁ r₃ :=
  ⟨h'.opNum.trans h.opNum, h'.instructions.trans h.instructions,
    h'.instPositions.trans h.instPositions, List.Subset.trans h.instsToAdjust h'.instsToAdjust⟩

theorem Reader.next_readOn {w : Int} (inst : ZInstruction) (h : r.next host = some (w, r')) :
    ReadOn inst inst r r' := by
  unfold next at h
  split at h <;> cases h
  exact ⟨rfl, rfl, rfl, List.Subset.refl _⟩

theorem readArgs_readOn {j n : Nat} (h : readArgs host j n inst r = some (inst', r')) :
    ReadOn inst inst' r r' ∧ ∀ k, codeOffsetArgs inst.opNum = some k → j ≤ k → (k : Nat) < j + n →
      r.instructions.length ∈ r'.instsToAdjust := by
  induction n generalizing j inst r with
  | zero =>
      cases h
      exact ⟨ReadOn.refl _ _, fun k _ hjk hk => by omega⟩
  | succ n ih =>
      simp only [readArgs, Option.bind_eq_bind, Option.bind_eq_some_iff] at h
      obtain ⟨⟨w, r₁⟩, hnext, h⟩ := h
      have hread := Reader.next_readOn inst hnext
      split at h
      · next hoffset =>
          rw [Option.bind_eq_some_iff] at h
          obtain ⟨inst₁, hset, h⟩ := h
          obtain ⟨_, rfl⟩ := setArg_eq_some hset
          obtain ⟨hrest, -⟩ := ih h
          have hlater : r₁.instructions.length ∈ (r₁.adjustLater.advance 1).instsToAdjust :=
            List.mem_append_right _ List.mem_cons_self
          refine ⟨⟨hrest.opNum, hrest.instructions.trans hread.instructions,
            hrest.instPositions.trans hread.instPositions, fun k hk => ?_⟩, fun k _ _ _ => ?_⟩
          · exact hrest.instsToAdjust (List.mem_append_left _ (hread.instsToAdjust hk))
          · rw [← hread.instructions]
            exact hrest.instsToAdjust hlater
      · next hoffset =>
          rw [Option.bind_eq_some_iff] at h
          obtain ⟨inst₁, hset, h⟩ := h
          obtain ⟨_, rfl⟩ := setArg_eq_some hset
          obtain ⟨hrest, hadjust⟩ := ih h
          refine ⟨⟨hrest.opNum, hrest.instructions.trans hread.instructions,
            hrest.instPositions.trans hread.instPositions,
            List.Subset.trans hread.instsToAdjust hrest.instsToAdjust⟩, fun k hk hjk hlt => ?_⟩
          have hne : j ≠ k := by
            rintro rfl
            exact hoffset (by rw [hk]; rfl)
          rw [← hread.instructions]
          exact hadjust k hk (by omega) (by omega)

theorem readClosureRecFns_readOn {j n : Nat}
    (h : readClosureRecFns host j n inst r = some (inst', r')) : ReadOn inst inst' r r' := by
  induction n generalizing j inst r with
  | zero =>
      cases h
      exact ReadOn.refl _ _
  | succ n ih =>
      simp only [readClosureRecFns, Option.bind_eq_bind, Option.bind_eq_some_iff] at h
      obtain ⟨⟨w, r₁⟩, hnext, inst₁, hset, h⟩ := h
      obtain ⟨_, rfl⟩ := setClosureRecFn_eq_some hset
      exact (Reader.next_readOn inst hnext).trans
        ⟨(ih h).opNum, (ih h).instructions, (ih h).instPositions, (ih h).instsToAdjust⟩

theorem readSwitchEntries_readOn {n : Nat}
    (h : readSwitchEntries host n inst r = some (inst', r')) : ReadOn inst inst' r r' := by
  induction n generalizing inst r with
  | zero =>
      cases h
      exact ReadOn.refl _ _
  | succ n ih =>
      simp only [readSwitchEntries, Option.bind_eq_bind, Option.bind_eq_some_iff] at h
      obtain ⟨⟨w, r₁⟩, hnext, h⟩ := h
      exact (Reader.next_readOn inst hnext).trans
        ⟨(ih h).opNum, (ih h).instructions, (ih h).instPositions, (ih h).instsToAdjust⟩

theorem readTable_readOn (h : readTable host inst r = some (inst', r')) :
    ReadOn inst inst' r r' ∧ (inst.opNum = .closureRec ∨ inst.opNum = .switch →
      r.instructions.length ∈ r'.instsToAdjust) := by
  unfold readTable at h
  split at h
  · simp only [Option.bind_eq_bind, Option.bind_eq_some_iff] at h
    obtain ⟨⟨inst₁, r₁⟩, hread, h⟩ := h
    cases h
    have hon := readClosureRecFns_readOn hread
    refine ⟨⟨hon.opNum, hon.instructions, hon.instPositions,
      List.subset_append_of_subset_left _ hon.instsToAdjust⟩, fun _ => ?_⟩
    refine List.mem_append_right _ (List.mem_singleton.mpr ?_)
    exact congrArg List.length hon.instructions.symm
  · next hrec =>
      split at h
      · simp only [Option.bind_eq_bind, Option.bind_eq_some_iff] at h
        obtain ⟨⟨inst₁, r₁⟩, hread, h⟩ := h
        cases h
        have hon := readSwitchEntries_readOn hread
        refine ⟨⟨hon.opNum, hon.instructions, hon.instPositions,
          List.subset_append_of_subset_left _ hon.instsToAdjust⟩, fun _ => ?_⟩
        refine List.mem_append_right _ (List.mem_singleton.mpr ?_)
        exact congrArg List.length hon.instructions.symm
      · next hswitch =>
          cases h
          exact ⟨ReadOn.refl _ _, fun hop => absurd hop (not_or.mpr ⟨hrec, hswitch⟩)⟩

/-- The reader knows the number of every instruction and which of them have targets. -/
structure ReadSoFar (r : Reader) : Prop where
  adjust : ∀ (k : Nat) inst, r.instructions[k]? = some inst → inst.hasTargets → k ∈ r.instsToAdjust
  positions : ∀ p i, r.instPositions p = some i → 0 ≤ i ∧ i < r.instructions.length

theorem readInstruction_readSoFar {size : Nat} (h : ReadSoFar r)
    (hround : readInstruction host size r = some r') : ReadSoFar r' := by
  simp only [readInstruction, Option.bind_eq_bind, Option.bind_eq_some_iff] at hround
  obtain ⟨⟨w, r₁⟩, hnext, op, -, ⟨inst₁, r₂⟩, hargs, ⟨inst₂, r₃⟩, htable, hround⟩ := hround
  cases hround
  have hread := Reader.next_readOn (.blank op) hnext
  obtain ⟨hon₁, hoffset⟩ := readArgs_readOn hargs
  obtain ⟨hon₂, hrec⟩ := readTable_readOn htable
  have hinsts : r₃.instructions = r.instructions :=
    (hon₂.instructions.trans hon₁.instructions).trans hread.instructions
  have hsubset : r.instsToAdjust ⊆ r₃.instsToAdjust :=
    List.Subset.trans hread.instsToAdjust (List.Subset.trans hon₁.instsToAdjust hon₂.instsToAdjust)
  have hlength₁ : r₁.instructions.length = r.instructions.length :=
    congrArg List.length hread.instructions
  have hlength₂ : r₂.instructions.length = r.instructions.length :=
    congrArg List.length (hon₁.instructions.trans hread.instructions)
  have hop₁ : inst₁.opNum = op := hon₁.opNum
  have hop₂ : inst₂.opNum = op := hon₂.opNum.trans hop₁
  constructor
  · intro k inst hk htargets
    rw [hinsts, List.getElem?_append] at hk
    split at hk
    · exact hsubset (h.adjust k inst hk htargets)
    · next hge =>
        have hlt := (List.getElem?_eq_some_iff.mp hk).1
        rw [List.length_singleton] at hlt
        have hlast : k = r.instructions.length := by omega
        rw [hlast, Nat.sub_self, List.getElem?_cons_zero] at hk
        cases hk
        rw [hlast]
        simp only [ZInstruction.hasTargets, ZInstruction.isClosureRec, ZInstruction.isSwitch, hop₂,
          Bool.or_eq_true, beq_iff_eq] at htargets
        rcases htargets with (hsome | hop) | hop
        · obtain ⟨j, hj⟩ := Option.isSome_iff_exists.mp hsome
          have harity := arity_of_codeOffsetArgs hj
          have hmem := hoffset j hj (Nat.zero_le _) (by omega)
          exact hon₂.instsToAdjust (hlength₁ ▸ hmem)
        · exact hlength₂ ▸ hrec (.inl (hop₁.trans hop))
        · exact hlength₂ ▸ hrec (.inr (hop₁.trans hop))
  · intro p i hp
    rw [hinsts, List.length_append, List.length_singleton]
    have hpos : r₃.instPositions p = (if p = toInt32 (r₁.advance 1).pos then
        some ((r₁.advance 1).instructions.length : Int) else r₁.instPositions p) :=
      congrFun (hon₂.instPositions.trans hon₁.instPositions) p
    rw [hpos] at hp
    split at hp
    · cases hp
      have hlength : (r₁.advance 1).instructions.length = r.instructions.length := hlength₁
      omega
    · rw [hread.instPositions] at hp
      have hbound := h.positions p i hp
      omega

theorem readLoop_readSoFar {size : Nat} {limit : Int} {r r' : Reader} (h : ReadSoFar r)
    (hloop : readLoop host size limit r = some r') : ReadSoFar r' := by
  rw [readLoop] at hloop
  split at hloop
  · split at hloop
    · cases hloop
    · next r₁ hround => exact readLoop_readSoFar (readInstruction_readSoFar h hround) hloop
  · cases hloop
    exact h
termination_by r.tabInst.length
decreasing_by exact readInstruction_length (by assumption)

/-- Every instruction that is named has been read, whatever the words are. -/
theorem readInstructions_resolved {tabInst : List Int} {size : Int} {insts : List ZInstruction}
    (h : readInstructions host tabInst size = some insts) :
    ∀ inst ∈ insts, inst.Resolved fun t => 0 ≤ t ∧ t < insts.length := by
  simp only [readInstructions, Option.bind_eq_bind, Option.bind_eq_some_iff] at h
  obtain ⟨r, hloop, hadjust⟩ := h
  have hread : ReadSoFar r :=
    readLoop_readSoFar ⟨fun k inst hk => by simp at hk, fun p i hp => by cases hp⟩ hloop
  have hreach : ∀ (k : Nat) inst, r.instructions[k]? = some inst →
      k ∈ r.instsToAdjust ∨ inst.Resolved fun t => 0 ≤ t ∧ t < r.instructions.length := by
    intro k inst hk
    by_cases htargets : inst.hasTargets = true
    · exact .inl (hread.adjust k inst hk htargets)
    · exact .inr (ZInstruction.resolved_of_not_hasTargets htargets)
  obtain ⟨hlength, hresolved⟩ := adjustInsts_resolved hread.positions hreach hadjust
  rwa [hlength]

end CamllVM
