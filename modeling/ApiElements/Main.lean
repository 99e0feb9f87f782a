import ApiElements.Sample

/-!
This module contains the program that shows the sample description.
-/

def main : IO UInt32 := do
  match ApiElements.Sample.report with
  | .ok text =>
    IO.print text
    return 0
  | .error fault =>
    IO.eprintln fault.description
    return 1
