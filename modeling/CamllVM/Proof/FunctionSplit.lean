import CamllVM.ModuleCreator
import CamllVM.Encode
import CamllVM.Proof.DecodeNumbering

/-!
# Where a function ends

`initFunction` guesses the end of a body from the largest destination it has seen so far. Of a
`SWITCH` it looks at the last entry only, so a return that stands between the last entry's target
and the target of another entry is taken for the end. The guess is right exactly when behind every
early return there is a destination that was looked at.
-/

namespace CamllVM

def slice (prog : List ZInstruction) (s e : Nat) : List ZInstruction :=
  (prog.drop s).take (e + 1 - s)

/-- The instructions `s` to `e` are the body of a function. -/
structure IsBody (prog : List ZInstruction) (s e : Nat) : Prop where
  start_le : s ≤ e
  end_lt : e < prog.length
  dests : ∀ (i : Nat) inst, s ≤ i → i ≤ e → prog[i]? = some inst → ∀ d ∈ inst.dests, s ≤ d ∧ d ≤ e
  isReturn : ∀ inst, prog[e]? = some inst → inst.isReturn
  named : ∀ (i : Nat) inst, s ≤ i → i < e → prog[i]? = some inst → inst.isReturn →
    ∃ (j : Nat) (src : ZInstruction), s ≤ j ∧ j ≤ i ∧ prog[j]? = some src ∧ (i + 1 : Int) ∈ src.dests

/-- The destination of an instruction that `initFunction` looks at. -/
def ZInstruction.seenDest (inst : ZInstruction) : Option Int :=
  if inst.isJumpInst || inst.isPushTrap then some inst.getDestIdx
  else if inst.isSwitch then inst.switchEntries.getLast?
  else none

/-- The body from `s` to `e` shows its end: no table of it is empty, and behind every return before
`e` there is a destination that stands before the return. -/
structure ShowsEnd (prog : List ZInstruction) (s e : Nat) : Prop where
  tables : ∀ (i : Nat) inst, s ≤ i → i ≤ e → prog[i]? = some inst → inst.isSwitch →
    inst.switchEntries ≠ []
  returns : ∀ (i : Nat) inst, s ≤ i → i < e → prog[i]? = some inst → inst.isReturn →
    ∃ (j : Nat) (src : ZInstruction) (d : Int), s ≤ j ∧ j ≤ i ∧ prog[j]? = some src ∧ src.seenDest = some d ∧ i < d

/-! ### One body -/

theorem seenDest_mem_dests {inst : ZInstruction} {d : Int} (h : inst.seenDest = some d) :
    d ∈ inst.dests := by
  unfold ZInstruction.seenDest at h
  unfold ZInstruction.dests
  split at h
  · next hjump =>
      rw [if_pos hjump, Option.some.inj h]
      exact List.mem_singleton_self d
  · next hjump =>
      rw [if_neg hjump]
      split at h
      · next hswitch => rw [if_pos hswitch]; exact List.mem_of_getLast? h
      · cases h

theorem trackMax_eq (m : Int) (inst : ZInstruction) :
    inst.trackMax m =
      if inst.isSwitch ∧ inst.switchEntries = [] then none
      else some (inst.seenDest.elim m (max m)) := by
  cases hop : inst.opNum <;>
    simp [ZInstruction.trackMax, ZInstruction.seenDest, ZInstruction.isJumpInst,
      ZInstruction.isPushTrap, ZInstruction.isSwitch, hop]
  cases hentries : inst.switchEntries.getLast? with
  | none => simp [List.getLast?_eq_none_iff.mp hentries]
  | some d =>
      have hne : inst.switchEntries ≠ [] := by rintro heq; simp [heq] at hentries
      simp [hne]

/-- What makes `takeFunction`, with `m` as its maximum so far, stop at `e` when the next instruction
is `k`. -/
structure EndsAt (prog : List ZInstruction) (m : Int) (k e : Nat) : Prop where
  tables : ∀ (i : Nat) inst, k ≤ i → i ≤ e → prog[i]? = some inst → inst.isSwitch →
    inst.switchEntries ≠ []
  isReturn : ∀ inst, prog[e]? = some inst → inst.isReturn
  max_le : m ≤ e
  seen_le : ∀ (i : Nat) inst d, k ≤ i → i ≤ e → prog[i]? = some inst → inst.seenDest = some d → d ≤ e
  returns : ∀ (i : Nat) inst, k ≤ i → i < e → prog[i]? = some inst → inst.isReturn →
    i < m ∨ ∃ (j : Nat) (src : ZInstruction) (d : Int), k ≤ j ∧ j ≤ i ∧ prog[j]? = some src ∧ src.seenDest = some d ∧ i < d

theorem endsAt_self_iff {prog : List ZInstruction} {m : Int} {e : Nat} {inst : ZInstruction}
    (he : prog[e]? = some inst) :
    EndsAt prog m e e ↔
      ¬(inst.isSwitch ∧ inst.switchEntries = []) ∧ inst.isReturn ∧
        inst.seenDest.elim m (max m) ≤ e := by
  constructor
  · intro h
    refine ⟨fun hempty => h.tables e inst (Nat.le_refl e) (Nat.le_refl e) he hempty.1 hempty.2,
      h.isReturn inst he, ?_⟩
    cases hseen : inst.seenDest with
    | none => exact h.max_le
    | some d => exact max_le h.max_le (h.seen_le e inst d (Nat.le_refl e) (Nat.le_refl e) he hseen)
  · rintro ⟨htable, hreturn, hmax⟩
    have hat : ∀ i inst', e ≤ i → i ≤ e → prog[i]? = some inst' → inst' = inst := by
      intro i inst' hle hge hi
      rw [Nat.le_antisymm hge hle, he] at hi
      exact (Option.some.inj hi).symm
    refine ⟨?_, ?_, ?_, ?_, ?_⟩
    · intro i inst' hle hge hi hswitch hempty
      rw [hat i inst' hle hge hi] at hswitch hempty
      exact htable ⟨hswitch, hempty⟩
    · intro inst' hi
      rwa [hat e inst' (Nat.le_refl e) (Nat.le_refl e) hi]
    · cases hseen : inst.seenDest with
      | none => simpa [hseen] using hmax
      | some d => exact le_trans (le_max_left m d) (by simpa [hseen] using hmax)
    · intro i inst' d hle hge hi hseen
      rw [hat i inst' hle hge hi] at hseen
      exact le_trans (le_max_right m d) (by simpa [hseen] using hmax)
    · intro i inst' hle hlt
      omega

theorem endsAt_succ_iff {prog : List ZInstruction} {m : Int} {k e : Nat} {inst : ZInstruction}
    (hk : prog[k]? = some inst) (hke : k < e) :
    EndsAt prog m k e ↔
      ¬(inst.isSwitch ∧ inst.switchEntries = []) ∧
        ¬(inst.isReturn ∧ inst.seenDest.elim m (max m) ≤ k) ∧
        EndsAt prog (inst.seenDest.elim m (max m)) (k + 1) e := by
  have hle_elim : m ≤ inst.seenDest.elim m (max m) := by
    cases inst.seenDest with
    | none => exact le_refl m
    | some d => exact le_max_left m d
  constructor
  · intro h
    refine ⟨fun hempty => h.tables k inst (Nat.le_refl k) (Nat.le_of_lt hke) hk hempty.1 hempty.2, ?_, ?_⟩
    · rintro ⟨hreturn, hmax⟩
      rcases h.returns k inst (Nat.le_refl k) hke hk hreturn with hlt | ⟨j, src, d, hj, hjk, hsrc, hd, hlt⟩
      · omega
      · rw [Nat.le_antisymm hjk hj, hk] at hsrc
        cases hsrc
        rw [hd] at hmax
        exact absurd (le_trans (le_max_right m d) hmax) (by omega)
    · refine ⟨fun i inst' hi => h.tables i inst' (by omega), h.isReturn, ?_,
        fun i inst' d hi => h.seen_le i inst' d (by omega), ?_⟩
      · cases hseen : inst.seenDest with
        | none => exact h.max_le
        | some d => exact max_le h.max_le (h.seen_le k inst d (Nat.le_refl k) (Nat.le_of_lt hke) hk hseen)
      · intro i inst' hi hie hinst hreturn
        rcases h.returns i inst' (by omega) hie hinst hreturn with
          hlt | ⟨j, src, d, hj, hji, hsrc, hd, hlt⟩
        · exact .inl (lt_of_lt_of_le hlt hle_elim)
        · rcases Nat.eq_or_lt_of_le hj with rfl | hj
          · rw [hk] at hsrc
            cases hsrc
            rw [hd]
            exact .inl (lt_of_lt_of_le hlt (le_max_right m d))
          · exact .inr ⟨j, src, d, hj, hji, hsrc, hd, hlt⟩
  · rintro ⟨htable, hstop, h⟩
    have hsplit : ∀ i inst', k ≤ i → prog[i]? = some inst' → inst' = inst ∧ i = k ∨ k + 1 ≤ i := by
      intro i inst' hi hinst
      rcases Nat.eq_or_lt_of_le hi with rfl | hi
      · rw [hk] at hinst
        exact .inl ⟨(Option.some.inj hinst).symm, rfl⟩
      · exact .inr hi
    refine ⟨?_, h.isReturn, le_trans hle_elim h.max_le, ?_, ?_⟩
    · intro i inst' hi hie hinst hswitch
      rcases hsplit i inst' hi hinst with ⟨rfl, -⟩ | hi
      · exact fun hempty => htable ⟨hswitch, hempty⟩
      · exact h.tables i inst' hi hie hinst hswitch
    · intro i inst' d hi hie hinst hseen
      rcases hsplit i inst' hi hinst with ⟨rfl, -⟩ | hi
      · refine le_trans (le_max_right m d) ?_
        simpa [hseen] using h.max_le
      · exact h.seen_le i inst' d hi hie hinst hseen
    · intro i inst' hi hie hinst hreturn
      have hmax : i < inst.seenDest.elim m (max m) → i < m ∨ ∃ (j : Nat) (src : ZInstruction) (d : Int), k ≤ j ∧ j ≤ i ∧
          prog[j]? = some src ∧ src.seenDest = some d ∧ i < d := by
        intro hlt
        cases hseen : inst.seenDest with
        | none => rw [hseen] at hlt; exact .inl hlt
        | some d =>
            rw [hseen] at hlt
            rcases lt_max_iff.mp hlt with hlt | hlt
            · exact .inl hlt
            · exact .inr ⟨k, inst, d, Nat.le_refl k, hi, hk, hseen, hlt⟩
      rcases hsplit i inst' hi hinst with ⟨rfl, rfl⟩ | hi
      · exact hmax (not_le.mp fun hle => hstop ⟨hreturn, hle⟩)
      · rcases h.returns i inst' hi hie hinst hreturn with
          hlt | ⟨j, src, d, hj, hji, hsrc, hd, hlt⟩
        · exact hmax hlt
        · exact .inr ⟨j, src, d, by omega, hji, hsrc, hd, hlt⟩

theorem slice_self {prog : List ZInstruction} {e : Nat} {inst : ZInstruction}
    (he : prog[e]? = some inst) : slice prog e e = [inst] := by
  obtain ⟨hlt, heq⟩ := List.getElem?_eq_some_iff.mp he
  rw [slice, List.drop_eq_getElem_cons hlt, heq, show e + 1 - e = 1 by omega]
  rfl

theorem slice_cons {prog : List ZInstruction} {k e : Nat} {inst : ZInstruction}
    (hk : prog[k]? = some inst) (hke : k < e) : slice prog k e = inst :: slice prog (k + 1) e := by
  obtain ⟨hlt, heq⟩ := List.getElem?_eq_some_iff.mp hk
  rw [slice, List.drop_eq_getElem_cons hlt, heq, show e + 1 - k = e + 1 - (k + 1) + 1 by omega]
  rfl

theorem takeFunction_cons (m : Int) (inst : ZInstruction) (insts : List ZInstruction) :
    takeFunction m (inst :: insts) =
      if inst.isSwitch ∧ inst.switchEntries = [] then none
      else if inst.isReturn ∧ inst.seenDest.elim m (max m) ≤ inst.idx then some ([inst], insts)
      else (takeFunction (inst.seenDest.elim m (max m)) insts).map fun x => (inst :: x.1, x.2) := by
  rw [takeFunction, trackMax_eq]
  split
  · rfl
  · simp only [Option.bind_eq_bind, Option.bind_some, Bool.and_eq_true, decide_eq_true_eq]
    split
    · rfl
    · cases takeFunction (inst.seenDest.elim m (max m)) insts <;> rfl

theorem takeFunction_ne_nil {m : Int} {insts rest : List ZInstruction} :
    takeFunction m insts ≠ some ([], rest) := by
  cases insts with
  | nil => simp [takeFunction]
  | cons inst insts =>
      rw [takeFunction_cons]
      split
      · simp
      · split <;> simp

theorem takeFunction_drop_iff {prog : List ZInstruction}
    (hidx : ∀ (i : Nat) inst, prog[i]? = some inst → inst.idx = i) {k e : Nat} (hke : k ≤ e)
    (he : e < prog.length) (m : Int) :
    takeFunction m (prog.drop k) = some (slice prog k e, prog.drop (e + 1)) ↔ EndsAt prog m k e := by
  obtain ⟨n, rfl⟩ := Nat.exists_eq_add_of_le hke
  induction n generalizing k m with
  | zero =>
      rw [Nat.add_zero] at he ⊢
      have hk : prog[k]? = some prog[k] := List.getElem?_eq_getElem he
      rw [endsAt_self_iff hk, slice_self hk, List.drop_eq_getElem_cons he, takeFunction_cons,
        hidx k _ hk]
      split
      · next htable => simp [htable]
      · next htable =>
          split
          · next hstop => simp [htable, hstop]
          · next hstop => simp [takeFunction_ne_nil, htable, hstop]
  | succ n ih =>
      have hlt : k < prog.length := by omega
      have hk : prog[k]? = some prog[k] := List.getElem?_eq_getElem hlt
      have hend : k + (n + 1) = k + 1 + n := by omega
      rw [hend] at he ⊢
      have hnext : prog[k + 1]? = some prog[k + 1] := List.getElem?_eq_getElem (by omega)
      have hne : slice prog (k + 1) (k + 1 + n) ≠ [] := by
        cases n with
        | zero => simp [slice_self hnext]
        | succ n => simp [slice_cons hnext]
      rw [endsAt_succ_iff hk (by omega), slice_cons hk (by omega), List.drop_eq_getElem_cons hlt,
        takeFunction_cons, hidx k _ hk, ← ih _ (by omega) he]
      split
      · next htable => simp [htable]
      · next htable =>
          split
          · next hstop => simp [hstop, hne.symm]
          · next hstop => simp [htable, hstop]

theorem IsBody.endsAt_iff {prog : List ZInstruction} {s e : Nat} (hbody : IsBody prog s e) :
    EndsAt prog 0 s e ↔ ShowsEnd prog s e := by
  constructor
  · intro h
    refine ⟨h.tables, fun i inst hi hie hinst hreturn => ?_⟩
    rcases h.returns i inst hi hie hinst hreturn with hneg | hseen
    · omega
    · exact hseen
  · intro h
    refine ⟨h.tables, hbody.isReturn, Int.natCast_nonneg e, ?_,
      fun i inst hi hie hinst hreturn => .inr (h.returns i inst hi hie hinst hreturn)⟩
    intro i inst d hi hie hinst hseen
    exact (hbody.dests i inst hi hie hinst d (seenDest_mem_dests hseen)).2

/-- `initFunction`, with `s` at the head of the queue, takes the instructions up to `e`. -/
def TakesBody (prog : List ZInstruction) (s e : Nat) : Prop :=
  ∃ f, initFunction (prog.drop s) = some (f, prog.drop (e + 1)) ∧ f.insts = slice prog s e

theorem IsBody.takesBody_iff {prog : List ZInstruction}
    (hidx : ∀ (i : Nat) inst, prog[i]? = some inst → inst.idx = i) {s e : Nat}
    (hbody : IsBody prog s e) : TakesBody prog s e ↔ ShowsEnd prog s e := by
  have hlt : s < prog.length := Nat.lt_of_le_of_lt hbody.start_le hbody.end_lt
  rw [← hbody.endsAt_iff, ← takeFunction_drop_iff hidx hbody.start_le hbody.end_lt, TakesBody,
    List.drop_eq_getElem_cons hlt, initFunction]
  constructor
  · rintro ⟨f, hinit, hinsts⟩
    simp only [Option.bind_eq_bind, Option.bind_eq_some_iff] at hinit
    obtain ⟨⟨body, rest⟩, htake, hinit⟩ := hinit
    cases hinit
    rw [htake, ← hinsts]
  · intro htake
    rw [htake]
    exact ⟨_, rfl, rfl⟩

theorem mem_slice {prog : List ZInstruction} {s e : Nat} {inst : ZInstruction} :
    inst ∈ slice prog s e ↔ ∃ i, s ≤ i ∧ i ≤ e ∧ prog[i]? = some inst := by
  rw [slice, List.mem_iff_getElem?]
  simp only [List.getElem?_take, List.getElem?_drop]
  constructor
  · rintro ⟨k, hk⟩
    split at hk
    · exact ⟨s + k, by omega, by omega, hk⟩
    · cases hk
  · rintro ⟨i, hsi, hie, hinst⟩
    refine ⟨i - s, ?_⟩
    rw [if_pos (by omega), Nat.add_sub_cancel' hsi, hinst]

/-- The instructions to which control can go from an instruction. -/
def ZInstruction.successors (inst : ZInstruction) : List Int :=
  inst.dests ++ if inst.fallsThrough then [inst.idx + 1] else []

theorem IsBody.successors_mem {prog : List ZInstruction}
    (hidx : ∀ (i : Nat) inst, prog[i]? = some inst → inst.idx = i) {s e : Nat}
    (hbody : IsBody prog s e) {inst : ZInstruction} (hmem : inst ∈ slice prog s e) {d : Int}
    (hd : d ∈ inst.successors) : ∃ inst' ∈ slice prog s e, inst'.idx = d := by
  obtain ⟨i, hsi, hie, hinst⟩ := mem_slice.mp hmem
  have hbound : s ≤ d ∧ d ≤ e := by
    rw [ZInstruction.successors, List.mem_append] at hd
    rcases hd with hd | hd
    · exact hbody.dests i inst hsi hie hinst d hd
    · split at hd
      · next hfall =>
          rw [List.mem_singleton.mp hd, hidx i inst hinst]
          have hne : i ≠ e := by
            rintro rfl
            have hreturn := hbody.isReturn inst hinst
            simp [ZInstruction.fallsThrough, hreturn] at hfall
          omega
      · cases hd
  have hend := hbody.end_lt
  have hlt : d.toNat < prog.length := by omega
  have hat : prog[d.toNat]? = some prog[d.toNat] := List.getElem?_eq_getElem hlt
  refine ⟨prog[d.toNat], mem_slice.mpr ⟨d.toNat, by omega, by omega, hat⟩, ?_⟩
  rw [hidx _ _ hat]
  omega

/-! ### Annotation -/

/-- An instruction as it was before the annotation. -/
def ZInstruction.unannotated (inst : ZInstruction) : ZInstruction :=
  { inst with annotation := .nothing }

theorem annotate_unannotated {a : InstrAnnotation} {insts insts' : List ZInstruction} {i : Int}
    (h : annotate a insts i = some insts') :
    insts'.map ZInstruction.unannotated = insts.map ZInstruction.unannotated := by
  unfold annotate at h
  split at h
  · simp only [Option.bind_eq_bind, Option.bind_eq_some_iff] at h
    obtain ⟨inst, hinst, h⟩ := h
    cases h
    obtain ⟨hlt, rfl⟩ := List.getElem?_eq_some_iff.mp hinst
    have hlt' : i.toNat < (insts.map ZInstruction.unannotated).length := by simpa using hlt
    have hsame : ZInstruction.unannotated { insts[i.toNat] with annotation := a } =
        (insts.map ZInstruction.unannotated)[i.toNat] := by
      rw [List.getElem_map]
      rfl
    rw [List.map_set, hsame, List.set_getElem_self]
  · cases h

/-- Only a mark annotates an instruction as the start of a function. -/
theorem annotate_functionStart {a : InstrAnnotation} {insts insts' : List ZInstruction} {i : Int}
    (h : annotate a insts i = some insts') {k : Nat} {inst : ZInstruction}
    (hk : insts'[k]? = some inst) (hstart : inst.annotation = .functionStart) :
    (∃ inst₀, insts[k]? = some inst₀ ∧ inst₀.annotation = .functionStart) ∨
      (i = k ∧ a = .functionStart) := by
  unfold annotate at h
  split at h
  · next hlow =>
      simp only [Option.bind_eq_bind, Option.bind_eq_some_iff] at h
      obtain ⟨inst₀, hinst, h⟩ := h
      cases h
      rw [List.getElem?_set] at hk
      split at hk
      · split at hk
        · cases hk
          exact .inr ⟨by omega, hstart⟩
        · cases hk
      · exact .inl ⟨inst, hk, hstart⟩
  · cases h

theorem foldlM_annotate {marks : List (Int × InstrAnnotation)} {insts prog : List ZInstruction}
    (h : marks.foldlM (fun insts mark => annotate mark.2 insts mark.1) insts = some prog) :
    prog.map ZInstruction.unannotated = insts.map ZInstruction.unannotated ∧
      ∀ (k : Nat) inst, prog[k]? = some inst → inst.annotation = .functionStart →
        (∃ inst₀, insts[k]? = some inst₀ ∧ inst₀.annotation = .functionStart) ∨
          ((k : Int), InstrAnnotation.functionStart) ∈ marks := by
  induction marks generalizing insts with
  | nil =>
      cases h
      exact ⟨rfl, fun k inst hk hstart => .inl ⟨inst, hk, hstart⟩⟩
  | cons mark marks ih =>
      simp only [List.foldlM_cons, Option.bind_eq_bind, Option.bind_eq_some_iff] at h
      obtain ⟨insts', hmark, h⟩ := h
      obtain ⟨hmap, hstarts⟩ := ih h
      refine ⟨hmap.trans (annotate_unannotated hmark), fun k inst hk hstart => ?_⟩
      rcases hstarts k inst hk hstart with ⟨inst₀, hk₀, hstart₀⟩ | hmem
      · rcases annotate_functionStart hmark hk₀ hstart₀ with hbefore | ⟨hi, ha⟩
        · exact .inl hbefore
        · refine .inr (List.mem_cons.mpr (.inl ?_))
          rw [← hi, ← ha]
      · exact .inr (List.mem_cons_of_mem _ hmem)

/-- What annotation does to a program that has been read: it changes annotations only, and every
start of a function is the target of a `CLOSURE` or a `CLOSUREREC`. -/
theorem annotateNodes_spec {insts prog : List ZInstruction} (hdecoded : Decoded insts)
    (h : annotateNodes insts = some prog) :
    (∀ (i : Nat) inst, prog[i]? = some inst → inst.idx = i) ∧
      ∀ (i : Nat) inst, prog[i]? = some inst → inst.annotation = .functionStart →
        (i : Int) ∈ prog.flatMap ZInstruction.closureTargets := by
  unfold annotateNodes at h
  split at h
  · obtain ⟨hmap, hstarts⟩ := foldlM_annotate h
    have hsame : ∀ (i : Nat) inst, prog[i]? = some inst → ∃ inst₀, insts[i]? = some inst₀ ∧
        inst.unannotated = inst₀.unannotated := by
      intro i inst hi
      have hat := congrArg (fun l : List ZInstruction => l[i]?) hmap
      simp only [List.getElem?_map, hi, Option.map_some] at hat
      obtain ⟨inst₀, hi₀, heq⟩ := Option.map_eq_some_iff.mp hat.symm
      exact ⟨inst₀, hi₀, heq.symm⟩
    have htargets : prog.flatMap ZInstruction.closureTargets =
        insts.flatMap ZInstruction.closureTargets := by
      have hmapped := congrArg (List.flatMap ZInstruction.closureTargets) hmap
      rwa [List.flatMap_map, List.flatMap_map] at hmapped
    constructor
    · intro i inst hi
      obtain ⟨inst₀, hi₀, heq⟩ := hsame i inst hi
      calc inst.idx = inst.unannotated.idx := rfl
        _ = inst₀.unannotated.idx := by rw [heq]
        _ = inst₀.idx := rfl
        _ = i := (hdecoded i inst₀ hi₀).1
    · intro i inst hi hstart
      rcases hstarts i inst hi hstart with ⟨inst₀, hi₀, hstart₀⟩ | hmem
      · rw [(hdecoded i inst₀ hi₀).2] at hstart₀
        cases hstart₀
      · obtain ⟨src, hsrc, hmark⟩ := List.mem_flatMap.mp hmem
        rw [htargets, List.mem_flatMap]
        refine ⟨src, hsrc, ?_⟩
        rw [ZInstruction.marks, List.mem_append, List.mem_map, List.mem_map] at hmark
        rcases hmark with ⟨t, ht, heq⟩ | ⟨t, -, heq⟩
        · rwa [← (Prod.mk.inj heq).1]
        · cases (Prod.mk.inj heq).2
  · cases h

/-! ### The whole program -/

theorem mapM_range_getElem? {α : Type} (l : List α) :
    (List.range l.length).mapM (fun k => l[k]?) = some l := by
  induction l with
  | nil => rfl
  | cons a l ih =>
      rw [List.length_cons, List.range_succ_eq_map, List.mapM_cons, List.mapM_map]
      simp [Function.comp_def, ih]

theorem queueInstructions_all (prog : List ZInstruction) :
    queueInstructions prog 0 0 = some prog := by
  have hlength : ((prog.length : Int) - 1 + 1 - 0).toNat = prog.length := by omega
  rw [queueInstructions, if_pos rfl, hlength]
  simpa using mapM_range_getElem? prog

/-- Every instruction except dropped `RESTART`s is in one function or in the main stream, and the
functions have the successors of their instructions. -/
structure SplitExactly (prog : List ZInstruction) (m : SplitInsts) : Prop where
  perm : ∃ dropped, (∀ inst ∈ dropped, inst.opNum = .restart) ∧
    (m.functions.flatMap (·.insts) ++ m.mainBlockInsts ++ dropped).Perm prog
  successors : ∀ f ∈ m.functions, ∀ inst ∈ f.insts, ∀ d ∈ inst.successors,
    ∃ inst' ∈ f.insts, inst'.idx = d

theorem splitInstructions_cons_main {inst : ZInstruction} {insts : List ZInstruction}
    {m : SplitInsts} (hstart : inst.annotation ≠ .functionStart)
    (h : splitInstructions insts = some m) :
    splitInstructions (inst :: insts) =
      some (if inst.opNum != .restart then { m with mainBlockInsts := inst :: m.mainBlockInsts }
        else m) := by
  rw [splitInstructions, if_neg hstart, h]
  simp only [Option.bind_eq_bind, Option.bind_some]
  split <;> rfl

theorem splitInstructions_cons_function {inst : ZInstruction} {insts rest : List ZInstruction}
    {f : FuncInsts} {m : SplitInsts} (hstart : inst.annotation = .functionStart)
    (hinit : initFunction (inst :: insts) = some (f, rest)) (h : splitInstructions rest = some m) :
    splitInstructions (inst :: insts) = some { m with functions := f :: m.functions } := by
  rw [splitInstructions, if_pos hstart]
  split
  · next hnone => rw [hinit] at hnone; cases hnone
  · next f' rest' hsome =>
      rw [hinit] at hsome
      cases hsome
      rw [h]
      rfl

theorem slice_append_drop (prog : List ZInstruction) {s e : Nat} (hle : s ≤ e) :
    slice prog s e ++ prog.drop (e + 1) = prog.drop s := by
  have hrest : prog.drop (e + 1) = (prog.drop s).drop (e + 1 - s) := by
    rw [List.drop_drop]
    congr 1
    omega
  rw [slice, hrest, List.take_append_drop]

/-- The loop of `generate` on the instructions from `k` on, when every function that it meets has
a body that shows its end. -/
theorem splitInstructions_drop {prog : List ZInstruction}
    (hidx : ∀ (i : Nat) inst, prog[i]? = some inst → inst.idx = i)
    (hbodies : ∀ (s : Nat) inst, prog[s]? = some inst → inst.annotation = .functionStart →
      ∃ e, IsBody prog s e ∧ ShowsEnd prog s e) (k : Nat) :
    ∃ m, splitInstructions (prog.drop k) = some m ∧ SplitExactly (prog.drop k) m := by
  by_cases hlt : k < prog.length
  · have hk : prog[k]? = some prog[k] := List.getElem?_eq_getElem hlt
    by_cases hstart : ZInstruction.annotation prog[k] = .functionStart
    · obtain ⟨e, hbody, hshows⟩ := hbodies k _ hk hstart
      have hle := hbody.start_le
      obtain ⟨m, hsplit, hexact⟩ := splitInstructions_drop hidx hbodies (e + 1)
      obtain ⟨f, hinit, hinsts⟩ := (hbody.takesBody_iff hidx).mpr hshows
      rw [List.drop_eq_getElem_cons hlt] at hinit
      have hcons := splitInstructions_cons_function hstart hinit hsplit
      rw [← List.drop_eq_getElem_cons hlt] at hcons
      refine ⟨_, hcons, ?_, ?_⟩
      · obtain ⟨dropped, hrestart, hperm⟩ := hexact.perm
        refine ⟨dropped, hrestart, ?_⟩
        rw [← slice_append_drop prog hle, List.flatMap_cons, hinsts, List.append_assoc,
          List.append_assoc, ← List.append_assoc _ _ dropped]
        exact hperm.append_left _
      · rintro f' hf'
        rcases List.mem_cons.mp hf' with rfl | hf'
        · intro inst hinst d hd
          rw [hinsts] at hinst ⊢
          exact hbody.successors_mem hidx hinst hd
        · exact hexact.successors f' hf'
    · obtain ⟨m, hsplit, hexact⟩ := splitInstructions_drop hidx hbodies (k + 1)
      rw [List.drop_eq_getElem_cons hlt]
      refine ⟨_, splitInstructions_cons_main hstart hsplit, ?_, ?_⟩
      · obtain ⟨dropped, hrestart, hperm⟩ := hexact.perm
        split
        · refine ⟨dropped, hrestart, ?_⟩
          refine List.Perm.trans ?_ (hperm.cons prog[k])
          rw [List.append_assoc, List.cons_append, ← List.cons_append, List.append_assoc]
          exact List.perm_middle
        · next hop =>
            refine ⟨prog[k] :: dropped, ?_, ?_⟩
            · intro inst hinst
              rcases List.mem_cons.mp hinst with rfl | hinst
              · simpa using hop
              · exact hrestart inst hinst
            · exact List.perm_middle.trans (hperm.cons prog[k])
      · split <;> exact hexact.successors
  · rw [List.drop_eq_nil_of_le (Nat.le_of_not_lt hlt)]
    exact ⟨⟨[], []⟩, by simp [splitInstructions], ⟨[], by simp, by simp⟩, by simp⟩
termination_by prog.length - k

/-- The functions are taken exactly if and only if every body shows its end. -/
theorem generate_splits_iff {insts prog : List ZInstruction} (hdecoded : Decoded insts)
    (hannotate : annotateNodes insts = some prog) (bodyEnd : Nat → Nat)
    (hbody : ∀ s : Nat, (s : Int) ∈ prog.flatMap ZInstruction.closureTargets →
      IsBody prog s (bodyEnd s)) :
    ((∀ s : Nat, (s : Int) ∈ prog.flatMap ZInstruction.closureTargets →
        TakesBody prog s (bodyEnd s)) ∧
      ∃ m, (queueInstructions prog 0 0).bind splitInstructions = some m ∧ SplitExactly prog m) ↔
      ∀ s : Nat, (s : Int) ∈ prog.flatMap ZInstruction.closureTargets →
        ShowsEnd prog s (bodyEnd s) := by
  obtain ⟨hidx, hstarts⟩ := annotateNodes_spec hdecoded hannotate
  constructor
  · rintro ⟨htakes, -⟩ s hs
    exact ((hbody s hs).takesBody_iff hidx).mp (htakes s hs)
  · intro hshows
    refine ⟨fun s hs => ((hbody s hs).takesBody_iff hidx).mpr (hshows s hs), ?_⟩
    rw [queueInstructions_all, Option.bind_some]
    refine splitInstructions_drop hidx (fun s inst hinst hstart => ?_) 0
    have hs := hstarts s inst hinst hstart
    exact ⟨bodyEnd s, hbody s hs, hshows s hs⟩

/-! ### A switch whose cases are not in order -/

/-- A function that returns 0 for the case `1` and 1 for the case `0`. -/
def unorderedSwitch : SymProgram where
  size := 7
  code :=
    [.ofOffset .closure [0] 2 (.refl true),
     .ofPlain .stop [] (.refl true),
     .switch [5, 3] [] (by decide) (by decide),
     .ofPlain .const0 [] (.refl true),
     .ofPlain .return_ [1] (.refl true),
     .ofPlain .const1 [] (.refl true),
     .ofPlain .return_ [1] (.refl true)]
  length_code := rfl

def unorderedSwitchProg : List ZInstruction := (annotateNodes unorderedSwitch.decoded).getD []

theorem annotateNodes_unorderedSwitch :
    annotateNodes unorderedSwitch.decoded = some unorderedSwitchProg := by decide

theorem isBody_unorderedSwitch : IsBody unorderedSwitchProg 2 6 := by
  have hget : ∀ (i : Nat) inst, unorderedSwitchProg[i]? = some inst →
      inst = unorderedSwitchProg.getD i (ZInstruction.blank .stop) := by
    intro i inst hinst
    rw [List.getD_eq_getElem?_getD, hinst, Option.getD_some]
  have hdests : ∀ i ∈ List.range 7, 2 ≤ i →
      ∀ d ∈ (unorderedSwitchProg.getD i (ZInstruction.blank .stop)).dests, 2 ≤ d ∧ d ≤ 6 := by
    decide
  have hreturns : ∀ i ∈ List.range 6, 2 ≤ i →
      (unorderedSwitchProg.getD i (ZInstruction.blank .stop)).isReturn → i = 4 := by decide
  refine ⟨by decide, by decide, ?_, ?_, ?_⟩
  · intro i inst hi hie hinst d hd
    rw [hget i inst hinst] at hd
    exact hdests i (List.mem_range.mpr (by omega)) hi d hd
  · intro inst hinst
    rw [hget 6 inst hinst]
    decide
  · intro i inst hi hie hinst hreturn
    rw [hget i inst hinst] at hreturn
    have hi4 := hreturns i (List.mem_range.mpr (by omega)) hi hreturn
    subst hi4
    exact ⟨2, unorderedSwitchProg.getD 2 (ZInstruction.blank .stop), by decide, by decide,
      by decide, by decide⟩

theorem decoded_recordsFrom {n : Nat} (name : Fin n → Int) (code : List (SymInstruction n))
    (idx at_ i : Nat) (inst : ZInstruction) (h : (recordsFrom name idx at_ code)[i]? = some inst) :
    inst.idx = (idx + i : Nat) ∧ inst.annotation = .nothing := by
  induction code generalizing idx at_ i with
  | nil => simp [recordsFrom] at h
  | cons c code ih =>
      cases i with
      | zero =>
          rw [recordsFrom, List.getElem?_cons_zero] at h
          cases h
          exact ⟨rfl, by cases c <;> rfl⟩
      | succ i =>
          rw [recordsFrom, List.getElem?_cons_succ] at h
          rw [show idx + (i + 1) = idx + 1 + i by omega]
          exact ih (idx + 1) _ i h

theorem SymProgram.decoded_decoded (p : SymProgram) : Decoded p.decoded := fun i inst h => by
  simpa using decoded_recordsFrom _ p.code 0 0 i inst h

/-- The body of the only function ends at 6, but the return at 4 is taken for its end. -/
theorem not_takesBody_unorderedSwitch :
    Decoded unorderedSwitch.decoded ∧
      annotateNodes unorderedSwitch.decoded = some unorderedSwitchProg ∧
      unorderedSwitchProg.flatMap ZInstruction.closureTargets = [2] ∧
      IsBody unorderedSwitchProg 2 6 ∧ ¬TakesBody unorderedSwitchProg 2 6 := by
  refine ⟨unorderedSwitch.decoded_decoded, annotateNodes_unorderedSwitch, by decide,
    isBody_unorderedSwitch, ?_⟩
  rintro ⟨f, hinit, -⟩
  have hearly : (initFunction (unorderedSwitchProg.drop 2)).map (fun x => x.2.length) = some 2 := by
    decide
  rw [hinit, Option.map_some] at hearly
  have hlength : (unorderedSwitchProg.drop 7).length = 2 := Option.some.inj hearly
  exact absurd hlength (by decide)

theorem generate_splits_iff_unorderedSwitch :
    ((∀ s : Nat, (s : Int) ∈ unorderedSwitchProg.flatMap ZInstruction.closureTargets →
        TakesBody unorderedSwitchProg s 6) ∧
      ∃ m, (queueInstructions unorderedSwitchProg 0 0).bind splitInstructions = some m ∧
        SplitExactly unorderedSwitchProg m) ↔
      ∀ s : Nat, (s : Int) ∈ unorderedSwitchProg.flatMap ZInstruction.closureTargets →
        ShowsEnd unorderedSwitchProg s 6 :=
  generate_splits_iff unorderedSwitch.decoded_decoded annotateNodes_unorderedSwitch (fun _ => 6)
    fun s hs => by
      have htargets : unorderedSwitchProg.flatMap ZInstruction.closureTargets = [2] := by decide
      rw [htargets, List.mem_singleton] at hs
      obtain rfl : s = 2 := by omega
      exact isBody_unorderedSwitch

end CamllVM
