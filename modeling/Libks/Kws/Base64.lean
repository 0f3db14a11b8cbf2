import Libks.Kws.Handshake
import Libks.Text.Base64

/-!
# The encoder of the handshake

`b64encode` is a second encoder, with the same loop and no test for the end of
its buffer. Both of them write the encoding of RFC 4648 (`encoders_agree`).
-/

namespace Libks

open Base

variable {a c d : UInt8} {b : ℕ} {input : List UInt8}

/-- What `b64encode` writes behind its loop. -/
def b64Rest (b l : ℕ) : List UInt8 :=
  (if 0 < l then [c64.getD (b % 16 * 2 ^ (6 - l) % 64) 0] else []) ++
    (if l ≠ 0 then List.replicate ((6 - l + 1) / 2) 61 else [])

theorem b64Rest_of_pos {l : ℕ} (h : 0 < l) :
    b64Rest b l =
      c64.getD (b % 16 * 2 ^ (6 - l) % 64) 0 :: List.replicate ((6 - l + 1) / 2) 61 := by
  rw [b64Rest, if_pos h, if_pos h.ne', List.singleton_append]

theorem c64_getD {n v : ℕ} (h : n = v) : c64.getD n 0 = base64Char v := by
  rw [h]
  rfl

/-- The loop, over three bytes. -/
theorem b64Loop_three :
    b64Loop b 0 (a :: c :: d :: input) =
      (base64Char (a.toNat / 4) :: base64Char (a.toNat % 4 * 16 + c.toNat / 16) ::
        base64Char (c.toNat % 16 * 4 + d.toNat / 64) :: base64Char (d.toNat % 64) ::
          (b64Loop (pushByte (pushByte (pushByte b a) c) d) 0 input).1,
        (b64Loop (pushByte (pushByte (pushByte b a) c) d) 0 input).2) := by
  have h₁ := pushByte_one b a
  have h₂ := pushByte_two b a c
  have h₃ := pushByte_three b a c d
  have ha := a.toNat_lt
  have hc := c.toNat_lt
  have hd := d.toNat_lt
  rw [← c64_getD (n := pushByte b a / 2 ^ 2 % 64) (by omega),
    ← c64_getD (n := pushByte (pushByte b a) c / 2 ^ 4 % 64) (by omega),
    ← c64_getD (n := pushByte (pushByte (pushByte b a) c) d / 2 ^ 6 % 64) (by omega),
    ← c64_getD (n := pushByte (pushByte (pushByte b a) c) d / 2 ^ 0 % 64) (by omega)]
  rfl

theorem b64Loop_rest :
    (b64Loop b 0 input).1 ++ b64Rest (b64Loop b 0 input).2.1 (b64Loop b 0 input).2.2 =
      base64Encode input := by
  induction input using sextets.induct generalizing b with
  | case1 a c d input ih =>
    rw [b64Loop_three, base64Encode_cons, List.cons_append, List.cons_append, List.cons_append,
      List.cons_append, ih]
  | case2 a c =>
    have h₁ := pushByte_one b a
    have h₂ := pushByte_two b a c
    have ha := a.toNat_lt
    have hc := c.toNat_lt
    rw [base64Encode_two, ← c64_getD (n := pushByte b a / 2 ^ 2 % 64) (by omega),
      ← c64_getD (n := pushByte (pushByte b a) c / 2 ^ 4 % 64) (by omega),
      ← c64_getD (n := pushByte (pushByte b a) c % 16 * 2 ^ (6 - 4) % 64) (by omega)]
    exact congrArg (_ ++ ·) (b64Rest_of_pos (l := 4) (by decide))
  | case3 a =>
    have h₁ := pushByte_one b a
    have ha := a.toNat_lt
    rw [base64Encode_one, ← c64_getD (n := pushByte b a / 2 ^ 2 % 64) (by omega),
      ← c64_getD (n := pushByte b a % 16 * 2 ^ (6 - 2) % 64) (by omega)]
    exact congrArg (_ ++ ·) (b64Rest_of_pos (l := 2) (by decide))
  | case4 => rfl

theorem b64encode_eq (input : List UInt8) : b64encode input = base64Encode input := by
  rw [← b64Loop_rest (b := 0), b64encode, b64Rest, ← List.append_assoc]

/-- In a buffer with room for it, both encoders write the encoding of RFC 4648. -/
theorem encoders_agree {out : Mem} {olen : ℕ}
    (h : 4 * ((input.length + 2) / 3) + 1 ≤ olen) (hlt : olen < 2 ^ 31) :
    ksB64Encode input out olen = .ok (.success, out.write 0 (base64Encode input ++ [0])) ∧
      b64encode input = base64Encode input :=
  ⟨ksB64Encode_full h hlt, b64encode_eq input⟩

theorem encoders_agree_man :
    ksB64Encode (ascii "Man") (fun _ => 35) 5 =
        .ok (.success, Mem.write (fun _ => 35) 0 (base64Encode (ascii "Man") ++ [0])) ∧
      b64encode (ascii "Man") = base64Encode (ascii "Man") :=
  encoders_agree (by decide) (by decide)

end Libks
