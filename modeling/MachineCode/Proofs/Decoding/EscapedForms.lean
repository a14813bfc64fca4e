import MachineCode.Proofs.Decoding.Forms

/-! The two-byte opcodes read back: general instructions with these opcodes, and all instructions on
floating-point registers. -/
namespace MachineCode.X64

open Reader Opcode

variable {o : Opcode} {dst : Gpr} {x : Rm}

/-- Without a lock prefix. -/
theorem decodes_twoByte {form : EscapedForm} (he : o.escaped = true)
    (hform : EscapedForm.ofByte? o.byte = some form) {r rm index : Nat} {tail : List UInt8}
    {i : Decoded} (h : Reads (form.read (o.prefixes r rm index)) tail i) :
    Decodes (o.bytes r rm index ++ tail) i :=
  decodes_escapedForm false he hform h

theorem decodes_imul (he : o.escaped = true) (hd : o.data16 = false)
    (hform : EscapedForm.ofByte? o.byte = some .imul) (hx : x.Encodable) :
    Decodes (o.regRm dst.num.val x).bytes (.imul (.ofWide o.wide) dst x none) := by
  rw [bytes_regRm, ← prefixes_width hd dst.num.val x.num x.indexNum]
  exact decodes_twoByte he hform ((reads_regRm hx (agrees_prefixes o _ _ _)
    (Prefixes.width_ne_byte _) (Prefixes.width_ne_byte _)).bind_nil (reads_pure _))

theorem decodes_cmov {cond : Cond} (he : o.escaped = true) (hd : o.data16 = false)
    (hform : EscapedForm.ofByte? o.byte = some (.cmov cond)) (hx : x.Encodable) :
    Decodes (o.regRm dst.num.val x).bytes (.cmov cond (.ofWide o.wide) dst x) := by
  rw [bytes_regRm, ← prefixes_width hd dst.num.val x.num x.indexNum]
  exact decodes_twoByte he hform ((reads_regRm hx (agrees_prefixes o _ _ _)
    (Prefixes.width_ne_byte _) (Prefixes.width_ne_byte _)).bind_nil (reads_pure _))

theorem decodes_bitScan {reverse : Bool} (he : o.escaped = true) (hd : o.data16 = false)
    (hform : EscapedForm.ofByte? o.byte = some (.bitScan reverse)) (hx : x.Encodable) :
    Decodes (o.regRm dst.num.val x).bytes (.bitScan reverse (.ofWide o.wide) dst x) := by
  rw [bytes_regRm, ← prefixes_width hd dst.num.val x.num x.indexNum]
  exact decodes_twoByte he hform ((reads_regRm hx (agrees_prefixes o _ _ _)
    (Prefixes.width_ne_byte _) (Prefixes.width_ne_byte _)).bind_nil (reads_pure _))

/-- The source is a byte register that can be named, or it is no byte register. -/
theorem decodes_movx {sign word : Bool} {v : Width} (he : o.escaped = true)
    (hd : o.data16 = false) (hform : EscapedForm.ofByte? o.byte = some (.movx sign word))
    (hv : (if word then Width.word else .byte) = v) (hx : x.Encodable)
    (hsrc : Reads (Reader.rm (o.prefixes dst.num.val x.num x.indexNum) v x.operand) [] x) :
    Decodes (o.regRm dst.num.val x).bytes
      (if sign then .movsx (.ofWide o.wide) dst v x else .movzx (.ofWide o.wide) dst v x) := by
  rw [bytes_regRm, ← prefixes_width hd dst.num.val x.num x.indexNum]
  apply decodes_twoByte he hform
  have hread : Reads (regRm (o.prefixes dst.num.val x.num x.indexNum)
      (o.prefixes dst.num.val x.num x.indexNum).width v) (rmTail dst.num.val x) (dst, x) :=
    (reads_modRm hx (agrees_prefixes o _ _ _)).bind_nil
      ((reads_gpr _ (Prefixes.width_ne_byte _) dst.num).bind_nil hsrc.bind_pure)
  unfold EscapedForm.read
  simp only [hv]
  exact hread.bind_nil (reads_pure _)

theorem decodes_setcc {cond : Cond} (he : o.escaped = true)
    (hform : EscapedForm.ofByte? o.byte = some (.setcc cond))
    (hbyte : 4 ≤ dst.num.val → (o.prefixes 0 dst.num.val 0).rex ≠ 0) :
    Decodes (o.extReg 0 dst.num.val).bytes (.setcc cond (.reg dst)) := by
  have hbytes : (o.extReg 0 dst.num.val).bytes = _ := bytes_extRm o (by omega) (.reg dst)
  rw [hbytes]
  exact decodes_twoByte he hform ((reads_modRm_ext (x := .reg dst) (by omega) trivial
    (agrees_prefixes o _ _ _)).bind_nil ((reads_gpr_byte hbyte).map.bind_nil (reads_pure _)))

/-- A compare and exchange, behind a lock prefix or without one. -/
theorem decodes_cmpxchg (lock : Bool) {src : Gpr} (he : o.escaped = true) (hd : o.data16 = false)
    (hform : EscapedForm.ofByte? o.byte = some .cmpxchg) (hx : x.Encodable) :
    Decodes (lockByte lock ++ (o.regRm src.num.val x).bytes)
      (.cmpxchg lock (.ofWide o.wide) x src) := by
  rw [bytes_regRm, ← prefixes_width hd src.num.val x.num x.indexNum]
  have hp := agrees_prefixes o src.num.val x.num x.indexNum
  exact decodes_escapedForm lock he hform ((reads_rmReg hx ⟨hp.highReg, hp.highRm, hp.highIndex⟩
    (Prefixes.width_ne_byte _)).bind_nil (reads_pure _))

/-! ### Floating-point registers -/

variable {d s : Xmm} {y : Xm}

theorem reads_require {b : Bool} (h : b = true) : Reads (require b) [] () := by
  rw [require, if_pos h]
  exact reads_pure ()

/-- An opcode with a mandatory prefix is scalar. -/
theorem isScalar_prefixes (hrep : o.rep.isSome) (r rm index : Nat) :
    (o.prefixes r rm index).isScalar = true := by
  obtain ⟨_, _, _, _, _, _, _ | _ | _⟩ := o <;> first | rfl | simp at hrep

/-- Forms that need a mandatory prefix, and have two floating-point operands. -/
theorem decodes_scalar {form : EscapedForm} {f : Prefixes → Xmm × Xm → Decoded} {i : Decoded}
    (he : o.escaped = true) (hrep : o.rep.isSome)
    (hform : EscapedForm.ofByte? o.byte = some form)
    (hread : ∀ p, form.read p = (do require p.isScalar; let xy ← xmmXm p; return f p xy))
    (hi : f (o.prefixes d.num.val y.rm.num y.rm.indexNum) (d, y) = i) (hy : y.rm.Encodable) :
    Decodes (o.regXm d.num.val y).bytes i := by
  rw [bytes_regXm]
  apply decodes_twoByte he hform
  rw [hread, ← hi]
  exact (reads_require (isScalar_prefixes hrep _ _ _)).bind
    (reads_xmmXm hy (agrees_prefixes o _ _ _)).bind_pure

/-- Forms with two floating-point operands. -/
theorem decodes_packed {form : EscapedForm} {f : Prefixes → Xmm × Xm → Decoded} {i : Decoded}
    (he : o.escaped = true) (hform : EscapedForm.ofByte? o.byte = some form)
    (hread : ∀ p, form.read p = (do let xy ← xmmXm p; return f p xy))
    (hi : f (o.prefixes d.num.val y.rm.num y.rm.indexNum) (d, y) = i) (hy : y.rm.Encodable) :
    Decodes (o.regXm d.num.val y).bytes i := by
  rw [bytes_regXm]
  apply decodes_twoByte he hform
  rw [hread, ← hi]
  exact (reads_xmmXm hy (agrees_prefixes o _ _ _)).bind_pure

theorem decodes_cvtFromInt {src : Gpr} (he : o.escaped = true) (hrep : o.rep.isSome)
    (hform : EscapedForm.ofByte? o.byte = some .cvtFromInt) :
    Decodes (o.regs d.num.val src.num.val).bytes
      (.cvtFromInt (o.rep = some .f2) (.ofWide o.wide) d (.reg src)) := by
  have hbytes : (o.regs d.num.val src.num.val).bytes = _ := bytes_regRm o d.num.val (.reg src)
  rw [hbytes, ← prefixes_intWidth o d.num.val _ _]
  have hw : (o.prefixes d.num.val (Rm.reg src).num (Rm.reg src).indexNum).intWidth ≠ .byte :=
    Width.ofWide_ne_byte _
  exact decodes_twoByte he hform ((reads_require (isScalar_prefixes hrep _ _ _)).bind
    ((reads_modRm (x := .reg src) trivial (agrees_prefixes o _ _ _)).bind_nil
      (reads_rm _ hw (.reg src)).bind_pure))

theorem decodes_cvtToInt (he : o.escaped = true) (hrep : o.rep.isSome)
    (hform : EscapedForm.ofByte? o.byte = some .cvtToInt) :
    Decodes (o.regs dst.num.val s.num.val).bytes
      (.cvtToInt (o.rep = some .f2) (.ofWide o.wide) dst (.reg s)) := by
  have hbytes : (o.regs dst.num.val s.num.val).bytes = _ := bytes_regXm o dst.num.val (.reg s)
  rw [hbytes, ← prefixes_intWidth o dst.num.val _ _]
  exact decodes_twoByte he hform ((reads_require (isScalar_prefixes hrep _ _ _)).bind
    ((reads_modRm (x := .reg ⟨s.num⟩) trivial (agrees_prefixes o _ _ _)).bind_nil
      (reads_gpr _ (Width.ofWide_ne_byte _) dst.num).bind_pure))

theorem decodes_movToXmm {src : Gpr} (he : o.escaped = true) (hd : o.data16 = true)
    (hform : EscapedForm.ofByte? o.byte = some .movToXmm) :
    Decodes (o.regs d.num.val src.num.val).bytes (.movToXmm (.ofWide o.wide) d (.reg src)) := by
  have hbytes : (o.regs d.num.val src.num.val).bytes = _ := bytes_regRm o d.num.val (.reg src)
  rw [hbytes, ← prefixes_intWidth o d.num.val _ _]
  exact decodes_twoByte he hform ((reads_require hd).bind
    ((reads_modRm (x := .reg src) trivial (agrees_prefixes o _ _ _)).bind_nil
      (reads_rm _ (Width.ofWide_ne_byte _) (.reg src)).bind_pure))

theorem decodes_movFromXmm (he : o.escaped = true) (hd : o.data16 = true)
    (hform : EscapedForm.ofByte? o.byte = some .movFromXmm) :
    Decodes (o.regs s.num.val dst.num.val).bytes (.movFromXmm (.ofWide o.wide) (.reg dst) s) := by
  have hbytes : (o.regs s.num.val dst.num.val).bytes = _ := bytes_regRm o s.num.val (.reg dst)
  rw [hbytes, ← prefixes_intWidth o s.num.val _ _]
  exact decodes_twoByte he hform ((reads_require hd).bind
    ((reads_modRm (x := .reg dst) trivial (agrees_prefixes o _ _ _)).bind_nil
      (reads_rm _ (Width.ofWide_ne_byte _) (.reg dst)).bind_pure))

end MachineCode.X64
