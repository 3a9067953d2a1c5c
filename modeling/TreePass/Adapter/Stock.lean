import TreePass.Adapter.Basic

/-!
# Ready-made adapters

A reader that takes one pass from each line of its input, and a renderer that
answers a short report.
-/

namespace TreePass

/-- The pieces of a text between line feeds, without the empty ones. -/
def nonEmptyLines (text : String) : List String :=
  ((text.splitOn "\n").filter fun line => !line.isEmpty)

/-- Reads a pass from each line that is not empty. The pass has the line as its
name, adds a root of that name and goes on to the pass of the next line. The
argument `root` names the first pass. -/
def Reader.lines {m : Type → Type} (name : String) : Reader m where
  name
  read input arguments := do
    let names := nonEmptyLines input
    let followers := (names.drop 1).map some ++ [none]
    let plan ← (names.zip followers).foldlM
      (fun (plan : Plan m) (line, next) =>
        match plan.addPass { name := line, steps := [.ofRule (.addRoot (.named line))], next } with
        | (none, plan) => pure plan
        | (some fault, _) => throw (Fault.pass fault))
      { root := Keyed.get? "root" arguments }
    plan.build.mapError .pass

/-- Answers a tag, the directory, and the numbers of nodes and of arguments. An
argument `fail` makes it fail with that text instead. -/
def Renderer.report (name tag : String) : Renderer where
  name
  render forest directory arguments :=
    match Keyed.get? "fail" arguments with
    | some message => .error (.custom message)
    | none =>
        .ok (tag ++ ":" ++ directory ++ ":" ++ toString forest.nodeCount ++ ":" ++
          toString arguments.length)

end TreePass
