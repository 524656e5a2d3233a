import Soong.Androidmk.Parser

/-!
# Dependency files

`makedeps/deps.go`.  A `Deps` is one output and its inputs.  `Print` writes it
as a Makefile rule, escaping blanks, `:`, `#`, `$` and `\`; `Parse` reads a
dependency file with the Makefile parser, and takes the first word of each
rule's target as the output and the words of its prerequisites as inputs.

`Parse` is `none` when Go panics.  The parse runs on fuel of four per
character, more than its loops and calls take.

## Main definitions

* `Deps`, `Deps.Print`, `Parse`.

## Main results

* `Parse_Print_assignment` — a printed input with `=` does not read back.
-/

namespace Soong

namespace makedeps

open Androidmk

structure Deps where
  Output : String
  Inputs : List String
  deriving DecidableEq, Repr

/-- The fuel `Parse` gives the parser. -/
def parseFuel (r : String) : ℕ := 4 * r.length + 16

/-- The scope of `Value(nil)`.  It is never read: `Parse` only takes the value
of words of strings without variables. -/
def nilScope : Androidmk.Variable → String := fun _ => ""

/-- One round of the loop of `Parse` over the nodes. -/
def parseNode (ret : Deps) : Node → Option (Except String Deps)
  | .Comment _ _ => some (.ok ret)
  | .Rule target prerequisites _ recipe =>
    if recipe ≠ "" then some (.error "unexpected recipe in rule: %v")
    else if !target.Const then some (.error "unsupported variable expansion: %v")
    else do
      let outputs ← target.Words
      let ret :=
        match outputs with
        | output :: _ => { ret with Output := output.Value nilScope }
        | [] => ret
      if !prerequisites.Const then some (.error "unsupported variable expansion: %v")
      else do
        let inputs ← prerequisites.Words
        some (.ok { ret with Inputs := ret.Inputs ++ inputs.map (·.Value nilScope) })
  | _ => some (.error "unexpected line: %#v")

/-- The loop of `Parse` over the nodes. -/
def parseNodes : Deps → List Node → Option (Except String Deps)
  | ret, [] => some (.ok ret)
  | ret, node :: nodes =>
    match parseNode ret node with
    | some (.ok ret) => parseNodes ret nodes
    | r => r

/-- `Parse`: one parse error is returned as it is, more are returned together. -/
def Parse (r : String) : Option (Except String Deps) :=
  match (do
      let p ← NewParser r.toList
      p.Parse (parseFuel r) : Except Abort (List Node × List String)) with
  | .error _ => none
  | .ok (nodes, errs) =>
    match errs with
    | [] => parseNodes ⟨"", []⟩ nodes
    | [err] => some (.error err)
    | _ => some (.error "many errors: %v")

/-- The escapes of `Print`. -/
def replacer : strings.Replacer :=
  strings.NewReplacer [(' ', "\\ "), (':', "\\:"), ('#', "\\#"), ('$', "$$"), ('\\', "\\\\")]

/-- `Print`: `output: input…` and a line end. -/
def Deps.Print (d : Deps) : String :=
  replacer.Replace d.Output ++ ":" ++ String.join (d.Inputs.map fun input => " " ++ replacer.Replace input) ++
    "\n"

/-- An input with `=` is printed into an assignment, which `Parse` rejects. -/
theorem Parse_Print_assignment :
    Parse (Deps.Print ⟨"out", ["x=y"]⟩) = some (.error "unexpected line: %#v") := by
  decide +kernel

end makedeps

end Soong
