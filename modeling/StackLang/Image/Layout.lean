import StackLang.Code.Word

namespace StackLang.Image

def magic : Bytes := bytes "NENC"

/-- A header that announces a body of `bodyLen` bytes. -/
def header (bodyLen : Int) : Bytes :=
  magic ++ Word.encode32 bodyLen

/-- The longest body that the header can announce. -/
def maxBody : Nat := 0xFFFFFFFF

end StackLang.Image
