/-
Where printed values go.

A sink takes one value after the other and may fail to take one.  There are three:

* an array of bytes, which collects the values;
* a `Printer` without a limit, which writes each value as a decimal line;
* a `Printer` with a limit, which writes the same lines until the limit is reached.
  It may cut a line in the middle, and from then on it takes nothing more.
-/
import ByteMachine.Byte
import ByteMachine.IoError

namespace ByteMachine

/-- A receiver of printed values.  Taking a value changes the sink, and may fail. -/
class Sink (σ : Type) where
  emit : σ → Byte → σ × Option IoError

/-- Collecting values never fails. -/
instance : Sink (Array Byte) where
  emit values v := (values.push v, none)

/-- How many characters a printer accepts in all, and how it fails after them.  A
writer that says it was `interrupted` is asked again without end: such a print never
returns, and the failure stands for that. -/
structure Limit where
  capacity : Nat
  error : IoError := .writeZero

/-- The text printed so far, and the limit to it if there is one. -/
structure Printer where
  text : String := ""
  limit : Option Limit := none

/-- A value as a line of its own. -/
def Byte.line (v : Byte) : String := v.decimal ++ "\n"

namespace Printer

/-- The number of characters that a limit still allows. -/
def room (p : Printer) (l : Limit) : Nat := l.capacity - p.text.length

/-- Writes a value as a line, or as much of it as the limit allows. -/
def emit (p : Printer) (v : Byte) : Printer × Option IoError :=
  match p.limit with
  | none => ({ p with text := p.text ++ v.line }, none)
  | some l =>
    if v.line.length ≤ p.room l then ({ p with text := p.text ++ v.line }, none)
    else
      ({ p with text := p.text ++ String.ofList (v.line.toList.take (p.room l)) },
        some l.error)

instance : Sink Printer where
  emit := emit

end Printer

end ByteMachine
