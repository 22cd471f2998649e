import StackLang.Bytes

namespace StackLang.Word

/-- The low `width` bytes of a number. -/
def encode : (width n : Nat) → Bytes
  | 0, _ => []
  | width + 1, n => encode width (n / 256) ++ [n.toUInt8]

def decode (b : Bytes) : Nat :=
  b.foldl (fun n c => n * 256 + c.toNat) 0

/-- The low four bytes of a number, of which a negative one counts from the end of the 32-bit
words. -/
def encode32 (v : Int) : Bytes :=
  encode 4 (v % 0x100000000).toNat

/-- Overwrites the first four bytes. -/
def put32 (b : Bytes) (v : Int) : Bytes :=
  encode32 v ++ b.drop 4

end StackLang.Word
