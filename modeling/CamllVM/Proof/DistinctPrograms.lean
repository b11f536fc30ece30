import CamllVM.Proof.DecodeEncode

/-!
# Distinct programs

The records of a program determine it: the opcode fixes how many operands a record has, and the
counts of a table how many of its entries belong to it.
-/

namespace CamllVM

theorem pad_inj {n : Nat} {l l' : List Int} (hlength : l.length = l'.length) (hle : l.length ≤ n)
    (h : pad n l = pad n l') : l = l' := by
  apply List.ext_getElem hlength
  intro j hj hj'
  have hj₁ : j < n := hj.trans_le hle
  have hget : (pad n l)[j] = (pad n l')[j] := by rw [h]
  rw [pad_getElem, pad_getElem] at hget
  simpa [List.getD_eq_getElem?_getD, List.getElem?_eq_getElem hj, List.getElem?_eq_getElem hj']
    using hget

theorem sizes_inj {n : Nat} {consts consts' blocks blocks' : List (Fin n)}
    (hconsts : consts.length < 2 ^ 16) (hconsts' : consts'.length < 2 ^ 16)
    (h : SymInstruction.sizes consts blocks = SymInstruction.sizes consts' blocks') :
    consts.length = consts'.length := by
  unfold SymInstruction.sizes at h
  omega

variable {n : Nat} {name : Fin n → Int}

/-- An instruction is determined by what its record holds beside the numbers. -/
theorem SymInstruction.record_inj (hname : Function.Injective name) {i j : SymInstruction n}
    (hop : (i.record name).opNum = (j.record name).opNum)
    (hargs : (i.record name).args = (j.record name).args)
    (hfns : (i.record name).closureRecFns = (j.record name).closureRecFns)
    (hentries : (i.record name).switchEntries = (j.record name).switchEntries) : i = j := by
  have hmap : Function.Injective (List.map name) := List.map_injective_iff.mpr hname
  cases i with
  | plain op operands hoffset hclosureRec hswitch hlength =>
      have harity := op.arity_le_two
      cases j with
      | plain op' operands' _ _ _ hlength' =>
          obtain rfl : op = op' := hop
          obtain rfl := pad_inj (hlength.trans hlength'.symm) (by omega) hargs
          rfl
      | offset op' _ _ hoffset' =>
          obtain rfl : op = op' := hop
          rw [hoffset] at hoffset'
          cases hoffset'
      | closureRec => exact absurd hop hclosureRec
      | switch => exact absurd hop hswitch
  | offset op operands k hoffset hlength t =>
      have hk := k.isLt
      cases j with
      | plain op' _ hoffset' =>
          obtain rfl : op = op' := hop
          rw [hoffset] at hoffset'
          cases hoffset'
      | offset op' operands' k' hoffset' hlength' t' =>
          obtain rfl : op = op' := hop
          obtain rfl : k = k' := Option.some.inj (hoffset.symm.trans hoffset')
          have hconcat : operands ++ [name t] = operands' ++ [name t'] :=
            pad_inj (by simp [hlength, hlength']) (by simp [hlength]) hargs
          obtain ⟨rfl, hlast⟩ := List.append_inj hconcat (hlength.trans hlength'.symm)
          obtain rfl := hname (List.singleton_inj.mp hlast)
          rfl
      | closureRec =>
          obtain rfl : op = .closureRec := hop
          cases hoffset
      | switch =>
          obtain rfl : op = .switch := hop
          cases hoffset
  | closureRec nvars fns hone hmax =>
      cases j with
      | plain op' _ _ hclosureRec => exact absurd hop.symm hclosureRec
      | offset op' _ _ hoffset' =>
          obtain rfl : OpCode.closureRec = op' := hop
          cases hoffset'
      | closureRec nvars' fns' _ hmax' =>
          have hcounts : [(fns.length : Int), nvars] = [(fns'.length : Int), nvars'] :=
            pad_inj rfl (by simp) hargs
          simp only [List.cons.injEq, Nat.cast_inj, and_true] at hcounts
          obtain ⟨hlength, rfl⟩ := hcounts
          obtain rfl := hmap (pad_inj (by simpa using hlength) (by simpa using hmax) hfns)
          rfl
      | switch => cases hop
  | switch consts blocks hconsts hblocks =>
      cases j with
      | plain op' _ _ _ hswitch => exact absurd hop.symm hswitch
      | offset op' _ _ hoffset' =>
          obtain rfl : OpCode.switch = op' := hop
          cases hoffset'
      | closureRec => cases hop
      | switch consts' blocks' hconsts' _ =>
          simp only [record] at hargs
          have hsizes : [sizes consts blocks] = [sizes consts' blocks'] :=
            pad_inj (by simp) (by simp) hargs
          have hlength := sizes_inj hconsts hconsts' (List.singleton_inj.mp hsizes)
          obtain ⟨rfl, rfl⟩ := List.append_inj (hmap hentries) hlength
          rfl

theorem recordsFrom_inj (hname : Function.Injective name) {idx at_ : Nat}
    {code code' : List (SymInstruction n)}
    (h : recordsFrom name idx at_ code = recordsFrom name idx at_ code') : code = code' := by
  induction code generalizing idx at_ code' with
  | nil =>
      cases code' with
      | nil => rfl
      | cons => cases h
  | cons i code ih =>
      cases code' with
      | nil => cases h
      | cons j code' =>
          obtain ⟨hhead, htail⟩ := List.cons.inj h
          simp only [ZInstruction.mk.injEq] at hhead
          obtain ⟨hop, hargs, -, -, hfns, hentries, -⟩ := hhead
          obtain rfl := SymInstruction.record_inj hname hop hargs hfns hentries
          rw [ih htail]

/-- No two programs have the same records. -/
theorem SymProgram.decoded_injective : Function.Injective SymProgram.decoded := by
  rintro ⟨n, code, hlength⟩ ⟨n', code', hlength'⟩ h
  have hsize : n = n' := by
    have hrecords := congrArg List.length h
    simp only [SymProgram.decoded, length_recordsFrom] at hrecords
    omega
  subst hsize
  have hname : Function.Injective fun t : Fin n => ((t : Nat) : Int) := fun t t' htt' =>
    Fin.ext (Nat.cast_inj.mp htt')
  obtain rfl := recordsFrom_inj hname h
  rfl

end CamllVM
