import Soong.Lib.GoMap
import Soong.Androidmk.MakeStrings

/-!
# The Makefile parser

`androidmk/parser/parser.go` and `ast.go`.  The parser reads tokens from a
`text/scanner` and builds nodes: assignments, comments, directives, rules and
lone variable references.  It collects errors and goes on; the hundredth error
panics with `errTooManyErrors`, which `Parse` recovers from by returning no
nodes and no errors.  Other panics, such as `EndsWith` on an empty string or a
nil name's position while sorting, are not recovered.

The parser is a state passed through every function, and a Go panic or a
running out of fuel is an `Abort`.  Every loop and every call takes one unit
of fuel.  The positions of errors and the line table behind them are left out,
and an error is its format string.

## Main definitions

* `Node`, `parser`, `Abort`.
* `NewParser`, `parser.Parse`, and the functions of the grammar:
  `parseLines`, `parseDirective`, `parseDefine`, `parseExpression`,
  `parseVariable`, `parseRule`, `parseRulePrerequisites`, `parseComment`,
  `parseAssignment`.
-/

namespace Soong

namespace Androidmk

open scanner

/-- A node of a parsed Makefile. -/
inductive Node where
  | Assignment (Target : Option MakeString) (Name Value : MakeString) (type : String)
  | Comment (CommentPos : ℤ) (Comment : String)
  | Directive (NamePos : ℤ) (Name : String) (Args : MakeString) (EndPos : ℤ)
  | Rule (Target Prerequisites : MakeString) (RecipePos : ℤ) (Recipe : String)
  | Variable (v : Variable)

def NoPos : ℤ := 0

def builtinDollar : String := "__builtin_dollar"

def builtinDollarName : MakeString := SimpleMakeString builtinDollar NoPos

/-- `Pos()` of a node; a variable with a nil name dereferences nil (`none`). -/
def Node.Pos : Node → Option ℤ
  | .Assignment (some target) _ _ _ => some target.Pos
  | .Assignment none name _ _ => some name.Pos
  | .Comment pos _ => some pos
  | .Directive pos _ _ _ => some pos
  | .Rule target _ _ _ => some target.Pos
  | .Variable ⟨.ptr name⟩ => some name.Pos
  | .Variable ⟨.builtinDollarName⟩ => some builtinDollarName.Pos
  | .Variable ⟨.nil⟩ => none

/-- Why a parse stops: `errTooManyErrors`, another panic, or the fuel. -/
inductive Abort where
  | tooManyErrors
  | panic
  | outOfFuel
  deriving DecidableEq, Repr

/-- `sort.Sort(byPosition(nodes))`.  With two nodes or more every node's
position is read by some comparison, so a nil one panics; the positions of the
nodes of a parse differ, so a stable sort orders them as Go's does. -/
def sortByPosition (nodes : List Node) : Except Abort (List Node) :=
  if 2 ≤ nodes.length ∧ nodes.any (·.Pos.isNone) then .error .panic
  else .ok (sort.SliceStable nodes fun a b => decide (a.Pos.getD 0 < b.Pos.getD 0))

def maxErrors : ℕ := 100

/-- `isWhitespace` of a token. -/
def isWhitespace : Token → Bool
  | .char c => c == ' ' || c == '\t' || c == '\n'
  | _ => false

/-- The `IsIdentRune` that `NewParser` gives its scanner. -/
def IsIdentRune (ch : Char) : Bool :=
  ch.toNat > 0 && ch != ':' && ch != '#' && ch != '=' && ch != '+' && ch != '$' &&
    ch != '\\' && ch != '(' && ch != ')' && ch != '{' && ch != '}' && ch != ';' &&
    ch != '|' && ch != '?' && ch != '\r' && !isWhitespace (.char ch)

/-- The directives, sorted as `init` sorts them. -/
def directives : List String :=
  sort.Strings ["define", "else", "endef", "endif", "export", "ifdef", "ifeq", "ifndef", "ifneq",
    "include", "-include", "unexport"]

/-- The loop of `isDirective` over a sorted list. -/
def isDirectiveIn (s : String) : List String → Bool
  | [] => false
  | d :: ds => if s = d then true else if s < d then false else isDirectiveIn s ds

def isDirective (s : String) : Bool := isDirectiveIn s directives

def whitespaceRunes : List Token := [.char ' ', .char '\t', .char '\n']

def variableNameEndRunes : List Token :=
  [.char ':', .char '=', .char '#', .char ')', .char '}'] ++ whitespaceRunes

/-- The parser: its scanner, the current token, and what it has built. -/
structure parser where
  scanner : Scanner
  tok : Token
  errors : List String
  comments : List Node
  nodes : List Node

namespace parser

/-- `pos()`: the offset of the current token. -/
def pos (p : parser) : ℤ := p.scanner.Offset

/-- `errorf`: the hundredth error panics with `errTooManyErrors`. -/
def errorf (p : parser) (msg : String) : Except Abort parser :=
  if maxErrors ≤ p.errors.length + 1 then .error .tooManyErrors
  else .ok { p with errors := p.errors ++ [msg] }

/-- The scanner's errors, each through `errorf`. -/
def reportErrors (p : parser) : List String → Except Abort parser
  | [] => .ok p
  | msg :: msgs => do
    let p ← p.errorf msg
    p.reportErrors msgs

/-- `p.tok = p.scanner.Scan()`, again while the token is a carriage return. -/
def scanTok : ℕ → parser → Except Abort parser
  | 0, _ => .error .outOfFuel
  | fuel + 1, p => do
    let (tok, s, errs) := Scan IsIdentRune p.scanner
    let p ← { p with scanner := s, tok := tok }.reportErrors errs
    if tok = .char '\r' then scanTok fuel p else pure p

/-- `next`: no token after `EOF`; every carriage return takes a character, so
the fuel of the source's length and one suffices. -/
def next (p : parser) : Except Abort parser :=
  if p.tok ≠ .EOF then scanTok (p.scanner.src.length + 1) p else pure p

/-- `accept` of one token, which is how every call uses it. -/
def accept (p : parser) (tok : Token) : Except Abort (Bool × parser) :=
  if p.tok ≠ tok then do
    let p ← p.errorf "expected %s, found %s"
    pure (false, p)
  else do
    let p ← p.next
    pure (true, p)

/-- `parseEscape`: the token after a backslash is scanned as one character. -/
def parseEscape (p : parser) : Except Abort parser := do
  let (_, p) ← { p with scanner := { p.scanner with ScanIdents := false } }.accept (.char '\\')
  pure { p with scanner := { p.scanner with ScanIdents := true } }

/-- `ignoreSpaces`; the count it returns is never read. -/
def ignoreSpaces : ℕ → parser → Except Abort parser
  | 0, _ => .error .outOfFuel
  | fuel + 1, p =>
    if p.tok = .char ' ' ∨ p.tok = .char '\t' then do
      let (_, p) ← p.accept p.tok
      ignoreSpaces fuel p
    else pure p

def ignoreWhitespace : ℕ → parser → Except Abort parser
  | 0, _ => .error .outOfFuel
  | fuel + 1, p =>
    if isWhitespace p.tok then do
      let (_, p) ← p.accept p.tok
      ignoreWhitespace fuel p
    else pure p

mutual

/-- The loop of `parseExpression`, with the parentheses still open; the flag
is set when it returns at once, after a backslash at the end of the input. -/
def parseExpressionLoop : ℕ → List Token → Bool → ℕ → MakeString → parser →
    Except Abort (MakeString × ℕ × Bool × parser)
  | 0, _, _, _, _, _ => .error .outOfFuel
  | fuel + 1, endRunes, endParen, parens, value, p =>
    if endParen && 0 < parens && p.tok = .char ')' then do
      let (_, p) ← p.accept (.char ')')
      parseExpressionLoop fuel endRunes endParen (parens - 1) (value.appendString ")") p
    else if p.tok ∈ endRunes then pure (value, parens, false, p)
    else
      match p.tok with
      | .char '\n' => pure (value, parens, false, p)
      | .Ident => do
        let value := value.appendString p.scanner.tokenText
        let (_, p) ← p.accept .Ident
        parseExpressionLoop fuel endRunes endParen parens value p
      | .char '\\' => do
        let p ← p.parseEscape
        match p.tok with
        | .EOF => do
          let p ← p.errorf "expected escaped character, found %s"
          pure (value, parens, true, p)
        | tok => do
          let value :=
            if tok = .char '\n' then value.appendString " "
            else value.appendString ("\\" ++ tok.toString)
          let (_, p) ← p.accept p.tok
          parseExpressionLoop fuel endRunes endParen parens value p
      | .char '$' => do
        let (v, p) ← parseVariable fuel p
        let value :=
          match v.Name with
          | .builtinDollarName => value.appendString "$"
          | _ => value.appendVariable v
        parseExpressionLoop fuel endRunes endParen parens value p
      | .EOF => pure (value, parens, false, p)
      | .char '(' => do
        let (_, p) ← p.accept (.char '(')
        parseExpressionLoop fuel endRunes endParen (if endParen then parens + 1 else parens)
          (value.appendString "(") p
      | _ => do
        let value := value.appendString p.scanner.tokenText
        let (_, p) ← p.accept p.tok
        parseExpressionLoop fuel endRunes endParen parens value p

/-- `parseExpression`: up to one of the end tokens, a line end or `EOF`;
parentheses nest when `)` is an end token. -/
def parseExpression : ℕ → parser → List Token → Except Abort (MakeString × parser)
  | 0, _, _ => .error .outOfFuel
  | fuel + 1, p, endRunes => do
    let (value, parens, early, p) ←
      parseExpressionLoop fuel endRunes (endRunes.contains (.char ')')) 0
        (SimpleMakeString "" p.pos) p
    if !early && 0 < parens then do
      let p ← p.errorf "expected closing paren %s"
      pure (value, p)
    else pure (value, p)

/-- `parseVariable`, after a `$`; its position goes to
`parseBracketedVariable`, which does not read it. -/
def parseVariable : ℕ → parser → Except Abort (Variable × parser)
  | 0, _ => .error .outOfFuel
  | fuel + 1, p => do
    let (_, p) ← p.accept (.char '$')
    match p.tok with
    | .char '(' => parseBracketedVariable fuel p '(' ')'
    | .char '{' => parseBracketedVariable fuel p '{' '}'
    | .char '$' => do
      let (_, p) ← p.accept p.tok
      pure (⟨.builtinDollarName⟩, p)
    | .EOF => do
      let p ← p.errorf "expected variable name, found %s"
      pure (⟨.nil⟩, p)
    | _ => do
      let (name, p) ← parseExpression fuel p variableNameEndRunes
      pure (⟨.ptr name⟩, p)

def parseBracketedVariable : ℕ → parser → Char → Char → Except Abort (Variable × parser)
  | 0, _, _, _ => .error .outOfFuel
  | fuel + 1, p, start, close => do
    let (_, p) ← p.accept (.char start)
    let (name, p) ← parseExpression fuel p [.char close]
    let (_, p) ← p.accept (.char close)
    pure (⟨.ptr name⟩, p)

end

/-- The loop of `parseComment`. -/
def parseCommentLoop : ℕ → String → parser → Except Abort (String × parser)
  | 0, _, _ => .error .outOfFuel
  | fuel + 1, comment, p =>
    match p.tok with
    | .char '\\' => do
      let p ← p.parseEscape
      let comment := comment ++ "\\" ++ p.scanner.tokenText
      let (_, p) ← p.accept p.tok
      parseCommentLoop fuel comment p
    | .char '\n' => do
      let (_, p) ← p.accept (.char '\n')
      pure (comment, p)
    | .EOF => pure (comment, p)
    | _ => do
      let comment := comment ++ p.scanner.tokenText
      let (_, p) ← p.accept p.tok
      parseCommentLoop fuel comment p

def parseComment (fuel : ℕ) (p : parser) : Except Abort parser := do
  let pos := p.pos
  let (_, p) ← p.accept (.char '#')
  let (comment, p) ← parseCommentLoop fuel "" p
  pure { p with comments := p.comments ++ [.Comment pos comment] }

/-- `parseAssignment`: an `=` after a name ending in `+` is `+=`.  `EndsWith`
runs first, so a name whose last string is empty panics. -/
def parseAssignment (fuel : ℕ) (t : String) (target : Option MakeString) (ident : MakeString)
    (p : parser) : Except Abort parser := do
  let (_, p) ← p.accept (.char '=')
  let (value, p) ← parseExpression fuel p [.char '#']
  let value := value.TrimLeftSpaces
  let some endsWithPlus := ident.EndsWith '+' | .error .panic
  let (ident, t) := if endsWithPlus && t = "=" then (ident.TrimRightOne, "+=") else (ident, t)
  let ident := ident.TrimRightSpaces
  pure { p with nodes := p.nodes ++ [.Assignment target ident value t] }

/-- The loop of `parseDefine`, up to `endef`. -/
def parseDefineLoop : ℕ → MakeString → parser → Except Abort (MakeString × parser)
  | 0, _, _ => .error .outOfFuel
  | fuel + 1, value, p =>
    match p.tok with
    | .Ident => do
      let value := value.appendString p.scanner.tokenText
      if p.scanner.tokenText = "endef" then do
        let (_, p) ← p.accept .Ident
        pure (value, p)
      else do
        let (_, p) ← p.accept .Ident
        parseDefineLoop fuel value p
    | .char '\\' => do
      let p ← p.parseEscape
      match p.tok with
      | .EOF => do
        let p ← p.errorf "expected escaped character, found %s"
        pure (value, p)
      | tok => do
        let value :=
          if tok = .char '\n' then value.appendString " "
          else value.appendString ("\\" ++ tok.toString)
        let (_, p) ← p.accept p.tok
        parseDefineLoop fuel value p
    | .EOF => do
      let p ← p.errorf "unexpected EOF while looking for endef"
      pure (value, p)
    | _ => do
      let value := value.appendString p.scanner.tokenText
      let (_, p) ← p.accept p.tok
      parseDefineLoop fuel value p

def parseDefine (fuel : ℕ) (p : parser) : Except Abort (MakeString × ℤ × parser) := do
  let (value, p) ← parseDefineLoop fuel (SimpleMakeString "" p.pos) p
  pure (value, p.pos, p)

/-- `parseDirective`: a directive's name and arguments, as a node; `false`
when the token is not a directive. -/
def parseDirective (fuel : ℕ) (p : parser) : Except Abort (Bool × parser) :=
  if p.tok ≠ .Ident ∨ !isDirective p.scanner.tokenText then pure (false, p)
  else do
    let d := p.scanner.tokenText
    let pos := p.pos
    let (_, p) ← p.accept .Ident
    let expression := SimpleMakeString "" pos
    let (d, expression, endPos, p) ←
      match d with
      | "endif" | "endef" => pure (d, expression, NoPos, p)
      | "else" => do
        let p ← p.ignoreSpaces fuel
        if p.tok ≠ .char '\n' ∧ p.tok ≠ .char '#' then do
          let d := p.scanner.tokenText
          let (_, p) ← p.accept .Ident
          if d = "ifdef" ∨ d = "ifndef" ∨ d = "ifeq" ∨ d = "ifneq" then do
            let p ← p.ignoreSpaces fuel
            let (expression, p) ← parseExpression fuel p [.char '#']
            pure ("el" ++ d, expression.TrimRightSpaces, NoPos, p)
          else do
            let p ← p.errorf "expected ifdef/ifndef/ifeq/ifneq, found %s"
            pure (d, expression, NoPos, p)
        else pure (d, expression, NoPos, p)
      | "define" => do
        let (expression, endPos, p) ← p.parseDefine fuel
        pure (d, expression, endPos, p)
      | _ => do
        let p ← p.ignoreSpaces fuel
        let (expression, p) ← parseExpression fuel p [.char '#']
        pure (d, expression, NoPos, p)
    pure (true, { p with nodes := p.nodes ++ [.Directive pos d expression endPos] })

/-- `parseRulePrerequisites`: the prerequisites, or none when the rule is a
target-specific assignment, and whether a line ended. -/
def parseRulePrerequisites (fuel : ℕ) (target : MakeString) (p : parser) :
    Except Abort (Option MakeString × Bool × parser) := do
  let p ← p.ignoreSpaces fuel
  let (prerequisites, p) ←
    parseExpression fuel p [.char '#', .char '\n', .char ';', .char ':', .char '=']
  match p.tok with
  | .char '\n' => do
    let (_, p) ← p.accept (.char '\n')
    pure (some prerequisites, true, p)
  | .char '#' => do
    let p ← p.parseComment fuel
    pure (some prerequisites, true, p)
  | .char ';' => do
    let (_, p) ← p.accept (.char ';')
    pure (some prerequisites, false, p)
  | .char ':' => do
    let (_, p) ← p.accept (.char ':')
    if p.tok = .char '=' then do
      let p ← p.parseAssignment fuel ":=" (some target) prerequisites
      pure (none, true, p)
    else do
      let (more, p) ← parseExpression fuel p [.char '#', .char '\n', .char ';']
      pure (some (prerequisites.appendMakeString more), false, p)
  | .char '=' => do
    let p ← p.parseAssignment fuel "=" (some target) prerequisites
    pure (none, true, p)
  | .EOF => pure (some prerequisites, false, p)
  | _ => do
    let p ← p.errorf "unexpected token %s after rule prerequisites"
    pure (some prerequisites, false, p)

/-- The loop of `parseRule`: the recipe, lines that start with a tab, with
directives between them. -/
def parseRuleLoop : ℕ → Bool → String → parser → Except Abort (String × parser)
  | 0, _, _, _ => .error .outOfFuel
  | fuel + 1, newLine, recipe, p =>
    if newLine then
      if p.tok = .char '\t' then do
        let (_, p) ← p.accept (.char '\t')
        parseRuleLoop fuel false recipe p
      else do
        let (isDirective, p) ← p.parseDirective fuel
        if isDirective then parseRuleLoop fuel false recipe p else pure (recipe, p)
    else
      match p.tok with
      | .char '\\' => do
        let p ← p.parseEscape
        let recipe := recipe ++ p.tok.toString
        let (_, p) ← p.accept p.tok
        parseRuleLoop fuel false recipe p
      | .char '\n' => do
        let (_, p) ← p.accept (.char '\n')
        parseRuleLoop fuel true (recipe ++ "\n") p
      | .EOF => pure (recipe, p)
      | _ => do
        let recipe := recipe ++ p.scanner.tokenText
        let (_, p) ← p.accept p.tok
        parseRuleLoop fuel false recipe p

def parseRule (fuel : ℕ) (target : MakeString) (p : parser) : Except Abort parser := do
  let (prerequisites, newLine, p) ← p.parseRulePrerequisites fuel target
  let recipePos := p.pos
  let (recipe, p) ← parseRuleLoop fuel newLine "" p
  match prerequisites with
  | some prerequisites =>
    pure { p with nodes := p.nodes ++ [.Rule target prerequisites recipePos recipe] }
  | none => pure p

/-- `parseLines`: one line, or a directive, per round. -/
def parseLines : ℕ → parser → Except Abort parser
  | 0, _ => .error .outOfFuel
  | fuel + 1, p => do
    let p ← p.ignoreWhitespace fuel
    let (isDirective, p) ← p.parseDirective fuel
    if isDirective then parseLines fuel p
    else do
      let (ident, p) ← parseExpression fuel p
        [.char '=', .char '?', .char ':', .char '#', .char '\n']
      let p ← p.ignoreSpaces fuel
      match p.tok with
      | .char '?' => do
        let (_, p) ← p.accept (.char '?')
        let p ← if p.tok = .char '=' then p.parseAssignment fuel "?=" none ident
          else p.errorf "expected = after ?"
        parseLines fuel p
      | .char '+' => do
        let (_, p) ← p.accept (.char '+')
        let p ← if p.tok = .char '=' then p.parseAssignment fuel "+=" none ident
          else p.errorf "expected = after +"
        parseLines fuel p
      | .char ':' => do
        let (_, p) ← p.accept (.char ':')
        let p ← if p.tok = .char '=' then p.parseAssignment fuel ":=" none ident
          else p.parseRule fuel ident
        parseLines fuel p
      | .char '=' => do
        let p ← p.parseAssignment fuel "=" none ident
        parseLines fuel p
      | .char '#' | .char '\n' | .EOF => do
        let ident := ident.TrimRightSpaces
        let p ←
          match toVariable ident with
          | some v => pure { p with nodes := p.nodes ++ [.Variable v] }
          | none =>
            if !ident.Empty then p.errorf "expected directive, rule, or assignment after ident "
            else pure p
        match p.tok with
        | .EOF => pure p
        | .char '\n' => do
          let (_, p) ← p.accept (.char '\n')
          parseLines fuel p
        | _ => do
          let p ← p.parseComment fuel
          parseLines fuel p
      | _ => p.errorf "expected assignment or rule definition, found %s\n"

/-- `Parse`: the nodes and comments by position, and the errors.  Too many
errors panic, and the recovery returns nothing. -/
def Parse (fuel : ℕ) (p : parser) : Except Abort (List Node × List String) :=
  match (do
      let p ← p.parseLines fuel
      let (_, p) ← p.accept .EOF
      pure p : Except Abort parser) with
  | .ok p => do
    let nodes ← sortByPosition (p.nodes ++ p.comments)
    pure (nodes, p.errors)
  | .error .tooManyErrors => pure ([], [])
  | .error e => .error e

end parser

/-- `NewParser`: the scanner scans identifiers, and the first token is read. -/
def NewParser (r : List Char) : Except Abort parser := do
  let (s, errs) := Init r true
  let p ← (parser.mk s (.char '\x00') [] [] []).reportErrors errs
  p.next

end Androidmk

end Soong
