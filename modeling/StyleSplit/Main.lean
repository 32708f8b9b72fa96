import StyleSplit.Cli

/-!
# The program

Reads the command line, loads the input into a store, splits it, writes the new and changed
files back, and prints the report.
-/

open StyleSplit

/-- Splits the stylesheet named on the command line. -/
def main (args : List String) : IO UInt32 := do
  IO.println Cli.intro
  match Cli.parseArgs args with
  | .error message =>
    IO.eprintln ("error: " ++ message)
    return 2
  | .ok options =>
    let input : StyleSplit.Path := ⟨options.input⟩
    let loaded ← try
        let contents ← IO.FS.readFile options.input
        pure [(input, contents)]
      catch _ => pure []
    let before := Store.ofFiles loaded
    let result := run options.config Compiler.passthrough before input
    match result.result with
    | .error e =>
      IO.eprintln (Cli.failure e)
      return 1
    | .ok outcome =>
      for dir in result.store.dirs do
        IO.FS.createDirAll dir.text
      for (path, contents) in Cli.changedFiles before result.store do
        IO.FS.writeFile path.text contents
      for line in Cli.report options outcome do
        IO.println line
      return 0
