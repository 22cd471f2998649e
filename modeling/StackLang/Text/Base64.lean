import StackLang.Bytes

namespace StackLang.Text.Base64

def digit? (c : UInt8) : Option Nat :=
  if 0x41 ≤ c ∧ c ≤ 0x5A then some (c.toNat - 0x41)
  else if 0x61 ≤ c ∧ c ≤ 0x7A then some (c.toNat - 0x61 + 26)
  else if 0x30 ≤ c ∧ c ≤ 0x39 then some (c.toNat - 0x30 + 52)
  else if c = byte '+' then some 62
  else if c = Ascii.slash then some 63
  else none

/-- The three bytes of four digits. -/
def group (a b c d : Nat) : Bytes :=
  let n := ((a * 64 + b) * 64 + c) * 64 + d
  [UInt8.ofNat (n / 65536), UInt8.ofNat (n / 256 % 256), UInt8.ofNat (n % 256)]

/-- The bytes of digits in groups of four, the last of which may be padded. -/
def groups? : Bytes → Option Bytes
  | [] => some []
  | a :: b :: c :: d :: rest =>
    match digit? a, digit? b, digit? c, digit? d with
    | some p, some q, some r, some s => (groups? rest).map (group p q r s ++ ·)
    | some p, some q, some r, none =>
      if d = byte '=' ∧ rest = [] then some ((group p q r 0).take 2) else none
    | some p, some q, none, none =>
      if c = byte '=' ∧ d = byte '=' ∧ rest = [] then some ((group p q 0 0).take 1) else none
    | _, _, _, _ => none
  | _ => none

def decode? (text : Bytes) : Option Bytes :=
  groups? (text.filter fun c => c != Ascii.newline && c != Ascii.carriageReturn)

end StackLang.Text.Base64
