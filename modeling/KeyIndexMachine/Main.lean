import KeyIndexMachine.Demo

/-!
# The program

Prints the demonstration. It takes no arguments.
-/

def main : IO Unit := IO.print KeyIndexMachine.Demo.transcript
