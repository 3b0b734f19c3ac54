/-
What can be wrong with an object file.

A file that cannot be read has a read fault.  A file that can be read but is no
program has an error for each of its faulty lines: a code that is no numeral, or a
byte for which memory has no address left.
-/
import ByteMachine.Byte
import ByteMachine.IoError

namespace ByteMachine.ObjectFile

/-- What is wrong with a line. -/
inductive Problem where
  /-- The code is no numeral in this radix that fits a byte. -/
  | invalidNumber (radix : Nat)
  /-- The byte would go to an address that memory does not have. -/
  | invalidAddress (address : Nat)
deriving DecidableEq

def Problem.message : Problem → String
  | invalidNumber radix => "failed to parse number with radix `" ++ Nat.repr radix ++ "`"
  | invalidAddress address => "memory has no address `0x" ++ lowerHex address ++ "`"

/-- A faulty line: its number, its code and what is wrong with it. -/
structure LineError where
  line : Nat
  code : List Char
  problem : Problem
deriving DecidableEq

/-- What the problem means for this line. -/
def LineError.detail (e : LineError) : String :=
  match e.problem with
  | .invalidNumber _ => "`" ++ String.ofList e.code ++ "` is not an 8 bit binary number"
  | .invalidAddress _ => "program is larger than memory"

def LineError.message (e : LineError) : String :=
  "error [ln: " ++ Nat.repr e.line ++ "]: " ++ e.problem.message ++ " - " ++ e.detail

/-- Why a file could not be read as text. -/
inductive ReadFault where
  | notFound
  | notADirectory
  | isADirectory
  /-- The path, or a name in it, has more bytes than the system allows. -/
  | nameTooLong
  /-- The bytes of the file are not well-formed UTF-8. -/
  | notText
  /-- A failure of another kind, with the text the system gives for it. -/
  | system (error : IoError) (text : String)
deriving DecidableEq

def ReadFault.kind : ReadFault → IoError
  | notFound => .notFound
  | notADirectory => .notADirectory
  | isADirectory => .isADirectory
  | nameTooLong => .invalidFilename
  | notText => .invalidData
  | system error _ => error

def ReadFault.message : ReadFault → String
  | notFound => "No such file or directory (os error 2)"
  | notADirectory => "Not a directory (os error 20)"
  | isADirectory => "Is a directory (os error 21)"
  | nameTooLong => "File name too long (os error 36)"
  | notText => "stream did not contain valid UTF-8"
  | system _ text => text

/-- Why no program could be loaded from a file. -/
inductive LoadError where
  /-- The file could not be read. -/
  | unreadable (fault : ReadFault)
  /-- The file was read, and these lines of it are faulty. -/
  | invalid (errors : List LineError)
deriving DecidableEq

/-- The text of a load error.  Faulty lines are counted and then listed, one on
each line, behind two blanks. -/
def LoadError.message : LoadError → String
  | unreadable fault => "failed to read object file: " ++ fault.message
  | invalid errors =>
    "\n  ".intercalate
      (("object file has " ++ Nat.repr errors.length ++ " invalid line(s)") ::
        errors.map LineError.message)

/-- A load error and what caused it, outermost first. -/
def LoadError.chain : LoadError → List String
  | unreadable fault => [(unreadable fault).message, fault.message]
  | invalid errors => [(invalid errors).message]

end ByteMachine.ObjectFile
