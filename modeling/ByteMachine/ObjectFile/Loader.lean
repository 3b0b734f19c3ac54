/-
From an object file to a memory.

The bytes of a program go to the addresses 0, 1, 2 and so on.  A faulty code takes
no address, and loading goes on after it, so that every faulty line is reported;
but a memory is handed out only if there is no such line.

* `place` — codes to a program and the list of faulty lines;
* `parse` — a text to a program, over what the memory held before;
* `load` — a file to a program in an empty memory;
* `Program.foldl_push` — a program that grows byte by byte is one list of bytes
  written from its end on.
-/
import ByteMachine.Memory
import ByteMachine.ObjectFile.Code
import ByteMachine.ObjectFile.Error

namespace ByteMachine.ObjectFile

/-- The number of addresses. -/
def capacity : Nat := 256

/-- A memory with a program of the given size at its start. -/
structure Program where
  memory : Memory
  size : Nat
deriving DecidableEq

/-- What came of placing codes: the program so far and the faulty lines. -/
structure Placement where
  program : Program
  errors : List LineError
deriving DecidableEq

/-- Adds a faulty line in front. -/
def Placement.report (e : LineError) (p : Placement) : Placement :=
  { p with errors := e :: p.errors }

/-- Puts a byte behind a program. -/
def Program.push (p : Program) (b : Byte) : Program :=
  ⟨p.memory.write (UInt8.ofNat p.size) b, p.size + 1⟩

/-- Puts the bytes of the codes behind a program, as long as memory has room. -/
def place (p : Program) : List Code → Placement
  | [] => ⟨p, []⟩
  | c :: rest =>
    match c.byte? with
    | none => (place p rest).report ⟨c.line, c.text, .invalidNumber 2⟩
    | some b =>
      if p.size < capacity then place (p.push b) rest
      else (place p rest).report ⟨c.line, c.text, .invalidAddress p.size⟩

/-- Loads a text into a memory, from address 0 on. -/
def parse (base : Memory) (source : List Char) : Except (List LineError) Program :=
  let placed := place ⟨base, 0⟩ (codes source)
  if placed.errors.isEmpty then .ok placed.program else .error placed.errors

/-- Loads the bytes of a file into an empty memory. -/
def loadBytes (file : ByteArray) : Except LoadError Program :=
  match String.fromUTF8? file with
  | none => .error (.unreadable .notText)
  | some source => (parse .zero source.toList).mapError .invalid

/-- Loads a file into an empty memory, if it could be read. -/
def load : Except ReadFault ByteArray → Except LoadError Program
  | .ok file => loadBytes file
  | .error fault => .error (.unreadable fault)

@[simp] theorem Program.size_push (p : Program) (b : Byte) : (p.push b).size = p.size + 1 := rfl

/-- Reporting a line changes nothing but the list of faulty lines. -/
@[simp] theorem Placement.program_report (e : LineError) (p : Placement) :
    (p.report e).program = p.program := rfl

@[simp] theorem Placement.errors_report (e : LineError) (p : Placement) :
    (p.report e).errors = e :: p.errors := rfl

/-- Bytes pushed one after the other are written from the end of the program on. -/
theorem Program.foldl_push (bs : List Byte) (p : Program) :
    bs.foldl Program.push p =
      ⟨p.memory.writeAll (UInt8.ofNat p.size) bs, p.size + bs.length⟩ := by
  induction bs generalizing p with
  | nil => rfl
  | cons b bs ih =>
    rw [List.foldl_cons, ih]
    simp only [Program.push, Memory.writeAll, List.length_cons, UInt8.ofNat_add]
    congr 1
    omega

end ByteMachine.ObjectFile
