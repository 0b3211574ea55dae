import KeyIndexMachine.Assembly.Program
import KeyIndexMachine.Machine.Display
import KeyIndexMachine.Machine.Run

/-!
# A demonstration

Some lines are assembled, a sample program is listed and run with its trace shown, and the machine
is shown as the run leaves it. The transcript is one text, built without any input.
-/
namespace KeyIndexMachine.Demo

/-- Adds 15 and 15, stores the sum in cell 1/6, loads it back into `r1` and counts `r1` up once. -/
def program : List Word :=
  [0x028F8FFF#64, 0x0D0086FF#64, 0x0C0081FF#64, 0xCD0002FF#64, 0x0100CDFF#64, 0x030007FF#64,
    0x010181FF#64, 0x113080086FF#64, 0x0#64]

def lines : List String :=
  ["add hashtable[AK/DX], r3, $5",
    "mov hashtable[r6/DX], $5",
    "mov hashtable[r2/DX], $F",
    "add r2, $f, $f",
    "if(r3<$0) add r2, $f, $f",
    "if(DX==$0) add r2, $f, $f",
    "if(DX<=$0) sub r2, $f, $f",
    "mov DX, $6"]

def start : Machine := Machine.ofProgram program { trace := true }

def assembled (line : String) : String :=
  match Word.ofLine line with
  | .ok w => w.listing
  | .error e => e.message

def verdict : Answer Word → String
  | .value w => "Result: " ++ w.hex
  | .fault f => "Run failed: " ++ f.kind.text
  | .abort message => message

/-- The lines of the transcript up to the display of the machine. -/
def report : List String :=
  ["Assembly:"] ++ lines.map assembled ++
    ["", "Program:"] ++ (start.space.listing (start.space.register .pk) 0#64).getD [] ++
    ["", "Run:"] ++ start.run.log.map Event.message ++ [verdict start.run.answer]

def transcript : String :=
  String.join ((report ++ [start.run.machine.display]).map (· ++ "\n"))

end KeyIndexMachine.Demo
