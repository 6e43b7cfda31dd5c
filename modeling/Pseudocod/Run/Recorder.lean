import Pseudocod.Run.Protocol
import Pseudocod.Text.Lines

/-!
# Recording hosts

A host without a screen: it keeps what it is told, and takes its input from a list of lines that
was prepared beforehand. It pauses for no time at all.

* `Recorder.value_input`: the lines of input are provided in order.
-/

namespace Pseudocod.Run

/-- What a recording host was told, each list in order, and the input that it still has. -/
structure Recorder where
  output : List String := []
  inputs : List String := []
  shownLines : List Nat := []
  yields : Nat := 0
  delays : List Nat := []
  inputRequests : Nat := 0
deriving DecidableEq, Repr, Inhabited

namespace Recorder

/-- The output in one piece. -/
def text (recorder : Recorder) : String :=
  String.join recorder.output

/-- The output line by line; a newline at the end does not begin another line. -/
def lines (recorder : Recorder) : List String :=
  let lines := (Text.splitLines recorder.text.toList).map String.ofList
  if lines.getLast? = some "" then lines.dropLast else lines

/-- A recording host. -/
def host : Host Recorder where
  output text recorder :=
    { value := (), world := { recorder with output := recorder.output ++ [text] } }
  input recorder :=
    { value := recorder.inputs.head?
      world :=
        { recorder with
          inputs := recorder.inputs.tail, inputRequests := recorder.inputRequests + 1 } }
  showLine line recorder :=
    { value := (), world := { recorder with shownLines := recorder.shownLines ++ [line] } }
  yield recorder :=
    { value := (), world := { recorder with yields := recorder.yields + 1 } }
  delay milliseconds recorder :=
    { value := (), world := { recorder with delays := recorder.delays ++ [milliseconds] } }

theorem value_input (recorder : Recorder) :
    (host.input recorder).value.toList ++ (host.input recorder).world.inputs = recorder.inputs := by
  rcases recorder with ⟨_, _ | ⟨line, lines⟩, _, _, _, _⟩ <;> rfl

end Recorder

end Pseudocod.Run
