import StackLang.Image.Load
import StackLang.Machine.Run

namespace StackLang

/-- What running a program gives, under a limit on the depth of calls. -/
def Program.execute (limit : Int) (sink : Sink) (p : Program) : Option Outcome :=
  let m : Machine := ⟨p, limit⟩
  m.run m.fuel sink

/-- What running a compiled program gives. -/
def runImage (image : Bytes) (sink : Sink) : Except LoadFailure (Option Outcome) := do
  let program ← (Program.load image).mapError (.within (bytes "load"))
  .ok (program.execute 0 sink)

end StackLang
