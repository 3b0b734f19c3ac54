/-
A small eight-bit machine: its memory, registers and instructions, the object
files it is loaded from, and the command that runs them.
-/
import ByteMachine.Main
import ByteMachine.FileTree
import ByteMachine.Proofs.Reference
import ByteMachine.Proofs.StoredProgram
import ByteMachine.Proofs.Stack
import ByteMachine.Proofs.Failure
import ByteMachine.Proofs.Causes
import ByteMachine.Proofs.Iteration
import ByteMachine.Proofs.Halting
import ByteMachine.Proofs.Grammar
import ByteMachine.Proofs.Loading
import ByteMachine.Proofs.Dependence
import ByteMachine.Proofs.Comparison
import ByteMachine.Proofs.Rendering
import ByteMachine.Proofs.Output
import ByteMachine.Proofs.Recurrence
import ByteMachine.Proofs.Printing
import ByteMachine.Proofs.Capacity
import ByteMachine.Proofs.Command
import ByteMachine.Proofs.Layout
import ByteMachine.Proofs.Concatenation
import ByteMachine.Proofs.Commutation
import ByteMachine.Proofs.Rotation
import ByteMachine.Proofs.Arithmetic
import ByteMachine.Proofs.LastWrite
import ByteMachine.Proofs.Account
import ByteMachine.Proofs.PrintProgram
import ByteMachine.Proofs.Dump
import ByteMachine.Proofs.Report
import ByteMachine.Proofs.Thresholds
