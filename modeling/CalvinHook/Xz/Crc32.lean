import CalvinHook.Coding.Crc
import CalvinHook.Xz.Dictionary

/-!
# CRC32

`xz_crc32.c`: the table that `xz_crc32_init` fills, and the check of a buffer, which may be given in
pieces.
-/

namespace CalvinHook
namespace Xz

/-- The polynomial of IEEE-802.3. -/
def crc32Poly : BitVec 32 := 0xEDB88320

/-- The body of the inner loop of `xz_crc32_init`. -/
def crc32TableStep (r : BitVec 32) : BitVec 32 := (r >>> 1) ^^^ (crc32Poly &&& ~~~((r &&& 1) - 1))

/-- `xz_crc32_table` after `xz_crc32_init`. -/
def xzCrc32Table (i : Byte) : BitVec 32 := crc32TableStep^[8] (i.setWidth 32)

/-- The body of the loop of `xz_crc32`. -/
def crc32Step (crc : BitVec 32) (byte : Byte) : BitVec 32 :=
  xzCrc32Table (byte ^^^ crc.setWidth 8) ^^^ (crc >>> 8)

/-- `xz_crc32`. -/
def xzCrc32 (buf : List Byte) (crc : BitVec 32) : BitVec 32 := ~~~(buf.foldl crc32Step (~~~crc))

/-- The mask that the source makes of the lowest bit. -/
theorem crc32Poly_mask (b : Bool) :
    crc32Poly &&& ~~~((BitVec.ofBool b).setWidth 32 - 1) = if b then crc32Poly else 0#32 := by
  cases b <;> decide

theorem crc32TableStep_eq (r : BitVec 32) : crc32TableStep r = Crc.step crc32Poly r := by
  unfold crc32TableStep Crc.step
  rw [← crc32Poly_mask, ← BitVec.and_one_eq_setWidth_ofBool_getLsbD]
  rfl

theorem crc32Step_eq (crc : BitVec 32) (byte : Byte) :
    crc32Step crc byte = Crc.update crc32Poly crc byte := by
  rw [Crc.update_eq_table, crc32Step, xzCrc32Table, Crc.entry]
  congr 2
  funext r
  exact crc32TableStep_eq r

/-- `xz_crc32` is the register of the polynomial, with its bits turned before and after. -/
theorem xzCrc32_eq (buf : List Byte) (crc : BitVec 32) :
    xzCrc32 buf crc = ~~~(Crc.register crc32Poly (~~~crc) buf) := by
  have hstep : crc32Step = Crc.update crc32Poly := by
    funext crc byte
    exact crc32Step_eq crc byte
  rw [xzCrc32, hstep]
  rfl

/-- A buffer may be given in pieces. -/
theorem xzCrc32_append (buf buf' : List Byte) (crc : BitVec 32) :
    xzCrc32 (buf ++ buf') crc = xzCrc32 buf' (xzCrc32 buf crc) := by
  unfold xzCrc32
  rw [List.foldl_append, BitVec.not_not]

@[simp] theorem xzCrc32_nil (crc : BitVec 32) : xzCrc32 [] crc = crc := BitVec.not_not

/-- **What the check sees.**  Two buffers that differ only within four bytes have different
values. -/
theorem xzCrc32_ne_of_window (crc : BitVec 32) (before window window' after : List Byte)
    (hlength : window.length = window'.length) (hfour : window.length ≤ 4)
    (hne : window ≠ window') :
    xzCrc32 (before ++ window ++ after) crc ≠ xzCrc32 (before ++ window' ++ after) crc := by
  have hpoly : crc32Poly.getLsbD (32 - 1) = true := by decide
  have hregister := Crc.register_ne hpoly (~~~crc) before after hlength (by omega) hne
  rw [xzCrc32_eq, xzCrc32_eq]
  exact fun heq => hregister (BitVec.not_inj.mp heq)

/-- One byte of a short text is another one. -/
theorem xzCrc32_ne_of_window_byte :
    xzCrc32 ([0x41] ++ [0x42] ++ [0x43]) 0 ≠ xzCrc32 ([0x41] ++ [0x44] ++ [0x43]) 0 :=
  xzCrc32_ne_of_window 0 [0x41] [0x42] [0x44] [0x43] rfl (by decide) (by decide)

end Xz
end CalvinHook
