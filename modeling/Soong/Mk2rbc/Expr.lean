import Mathlib.Data.List.ModifyLast
import Soong.Androidmk.MakeStrings
import Soong.Lib.GoPath

/-!
# Interpolated strings in the Starlark that mk2rbc writes

`mk2rbc/expr.go` and `parseMakeString` of `mk2rbc/mk2rbc.go`.  A make string
`a$(X)b$(Y)c` becomes the Starlark expression `"a%sb%sc" % (X, Y)`: its raw
strings are the chunks of a format and its references the arguments.

`NewInterpolateExpr` reads the parts — literals alternating with expressions —
and folds a reference that came out as a literal into the chunk before it;
`interpolateExpr.emit` writes the chunks as one format, `%` doubled and `%s`
between them.  Expressions other than literals and interpolations are a type
parameter: the model follows only what these functions look at.

The value of an expression is taken against a valuation of the other
expressions; an interpolation's value is its chunks and its arguments'
values interleaved, and `starlarkPercent` — Starlark's `%` with `%s` and `%%`
only — shows that this is what the format written by `emit` evaluates to.

## Main definitions

* `starlarkExpr`, `NewInterpolateExpr`, `interpolateExpr.format`,
  `interpolateExpr.emit`, `parseMakeString`.
* `interleave`, `starlarkExpr.value`, `starlarkPercent`.

## Main results

* `NewInterpolateExpr_alternating` — on alternating parts the result is a
  literal of their concatenation when all are literals, and otherwise an
  interpolation whose arguments are the non-literal parts in order and whose
  value is their concatenation.
* `starlarkPercent_format` — the format `emit` writes gives back the
  interleaving of chunks and arguments.
-/

namespace Soong

namespace mk2rbc

/-- The Starlark expressions of mk2rbc: string literals, interpolations, and
the other kinds, which are a parameter. -/
inductive starlarkExpr (α : Type) where
  | stringLiteralExpr (literal : String)
  | interpolateExpr (chunks : List String) (args : List (starlarkExpr α))
  | other (e : α)

namespace starlarkExpr

variable {α : Type}

/-- The type assertion `part.(*stringLiteralExpr)`. -/
def isStringLiteral : starlarkExpr α → Bool
  | stringLiteralExpr _ => true
  | _ => false

@[simp] theorem isStringLiteral_stringLiteralExpr (literal : String) :
    (stringLiteralExpr literal : starlarkExpr α).isStringLiteral = true := rfl

@[simp] theorem isStringLiteral_interpolateExpr (chunks : List String) (args : List (starlarkExpr α)) :
    (interpolateExpr chunks args).isStringLiteral = false := rfl

@[simp] theorem isStringLiteral_other (e : α) : (other e).isStringLiteral = false := rfl

end starlarkExpr

open starlarkExpr

variable {α : Type}

/-! ### Building an interpolation -/

/-- The variables of `NewInterpolateExpr`'s loop. -/
structure interpolateAcc (α : Type) where
  chunks : List String
  args : List (starlarkExpr α)
  needString : Bool

/-- One part in `NewInterpolateExpr`'s loop.  Where a chunk is due, a literal
starts it and any other part starts an empty one, the part itself being
dropped; otherwise a literal is appended to the last chunk and any other part
becomes an argument. -/
def interpolateStep (acc : interpolateAcc α) (part : starlarkExpr α) : interpolateAcc α :=
  if acc.needString then
    match part with
    | stringLiteralExpr literal => { acc with chunks := acc.chunks ++ [literal], needString := false }
    | _ => { acc with chunks := acc.chunks ++ [""], needString := false }
  else
    match part with
    | stringLiteralExpr literal => { acc with chunks := acc.chunks.modifyLast (· ++ literal) }
    | _ => { acc with args := acc.args ++ [part], needString := true }

/-- `NewInterpolateExpr`: the loop, an empty last chunk when the parts ended on
an argument, and a literal of the joined chunks when there is no argument. -/
def NewInterpolateExpr (parts : List (starlarkExpr α)) : starlarkExpr α :=
  let result := parts.foldl interpolateStep ⟨[], [], true⟩
  let chunks := if result.chunks.length = result.args.length then result.chunks ++ [""]
    else result.chunks
  if result.args.length = 0 then stringLiteralExpr (String.join chunks)
  else interpolateExpr chunks result.args

/-- The format `emit` writes: the chunks with `%` doubled, `%s` between them. -/
def interpolateExpr.format : List String → String
  | [] => ""
  | chunk :: chunks => strings.ReplaceAll chunk '%' "%%" ++
    String.join (chunks.map fun chunk => "%s" ++ strings.ReplaceAll chunk '%' "%%")

/-- `interpolateExpr.emit`, given the text each argument is written as (a list
argument inside `" ".join(...)`): the quoted format, `%`, and the arguments, in
parentheses unless there is one; `none` is the panic on malformed chunks. -/
def interpolateExpr.emit (emitArg : starlarkExpr α → String) (chunks : List String)
    (args : List (starlarkExpr α)) : Option String :=
  if chunks.length ≠ args.length + 1 then none
  else some (strconv.Quote (interpolateExpr.format chunks) ++ " % " ++
    match args with
    | [arg] => emitArg arg
    -- the loop writes the opening parenthesis as the first separator, so
    -- without arguments only the closing one is written
    | [] => ")"
    | _ => "(" ++ ", ".intercalate (args.map emitArg) ++ ")")

/-- The parts of a make string, as `parseMakeString` lays them out: each raw
string as a literal, each variable as the reference parsed from its name. -/
def makeStringParts (parseReference : Androidmk.VariableName → starlarkExpr α)
    (mk : Androidmk.MakeString) : List (starlarkExpr α) :=
  stringLiteralExpr mk.first ::
    mk.rest.flatMap fun (v, s) => [parseReference v.Name, stringLiteralExpr s]

/-- `SingleVariable`: two raw strings of white space around one variable. -/
def SingleVariable (mk : Androidmk.MakeString) : Option Androidmk.VariableName :=
  match mk.rest with
  | [(v, s)] =>
    if strings.TrimSpace mk.first = "" ∧ strings.TrimSpace s = "" then some v.Name else none
  | _ => none

/-- `parseMakeString`: a constant make string is the literal of its one raw
string, a single variable is its reference, and otherwise the parts are
interpolated, unless a reference is bad, the first of which is returned. -/
def parseMakeString (parseReference : Androidmk.VariableName → starlarkExpr α)
    (isBadExpr : starlarkExpr α → Bool) (mk : Androidmk.MakeString) : starlarkExpr α :=
  if mk.Const then stringLiteralExpr mk.first
  else match SingleVariable mk with
    | some ref => parseReference ref
    | none =>
      match (makeStringParts parseReference mk).find? isBadExpr with
      | some x => x
      | none => NewInterpolateExpr (makeStringParts parseReference mk)

/-! ### Values -/

/-- The chunks with the values of the arguments between them. -/
def interleave : List String → List String → String
  | chunk :: chunks, value :: values => chunk ++ value ++ interleave chunks values
  | chunks, [] => String.join chunks
  | [], _ :: _ => ""

/-- The value of an expression, given those of the other kinds: an
interpolation interleaves its chunks with its arguments' values. -/
def starlarkExpr.value (v : α → String) : starlarkExpr α → String
  | stringLiteralExpr literal => literal
  | interpolateExpr chunks args => interleave chunks (args.map (value v))
  | other e => v e

/-- Starlark's `%` on a format with `%s` and `%%` only, given the arguments'
values: `none` for another directive, a missing argument or one left over. -/
def starlarkPercent : List Char → List String → Option (List Char)
  | [], [] => some []
  | [], _ :: _ => none
  | '%' :: '%' :: f, args => (starlarkPercent f args).map ('%' :: ·)
  | '%' :: 's' :: f, arg :: args => (starlarkPercent f args).map (arg.toList ++ ·)
  | '%' :: _, _ => none
  | c :: f, args => (starlarkPercent f args).map (c :: ·)

/-- The alternating parts: a literal, then each expression with the literal
after it. -/
def interpolateParts (first : String) (rest : List (starlarkExpr α × String)) :
    List (starlarkExpr α) :=
  stringLiteralExpr first :: rest.flatMap fun (e, s) => [e, stringLiteralExpr s]

/-! ### Interleaving -/

/-- With no argument, the chunks are joined. -/
theorem interleave_nil (chunks : List String) : interleave chunks [] = String.join chunks := by
  cases chunks <;> rfl

/-- An argument and a chunk appended: their values come last. -/
theorem interleave_append {chunks values : List String} (h : chunks.length = values.length + 1)
    (value chunk : String) :
    interleave (chunks ++ [chunk]) (values ++ [value]) = interleave chunks values ++ value ++ chunk := by
  induction values generalizing chunks with
  | nil =>
    obtain ⟨c, rfl⟩ := List.length_eq_one_iff.mp h
    simp [interleave]
  | cons w ws ih =>
    match chunks, h with
    | c :: cs, h => simp only [List.cons_append, interleave, ih (by simpa using h), String.append_assoc]

/-- The last element of a list with a head is in its tail. -/
theorem modifyLast_cons_of_ne_nil {β : Type} (f : β → β) (c : β) {cs : List β} (hcs : cs ≠ []) :
    (c :: cs).modifyLast f = c :: cs.modifyLast f := by
  obtain ⟨l, b, rfl⟩ := (List.eq_nil_or_concat cs).resolve_left hcs
  rw [List.concat_eq_append, ← List.cons_append, List.modifyLast_concat, List.modifyLast_concat,
    List.cons_append]

/-- Text added to the last chunk comes last. -/
theorem interleave_modifyLast {chunks values : List String} (h : chunks.length = values.length + 1)
    (x : String) :
    interleave (chunks.modifyLast (· ++ x)) values = interleave chunks values ++ x := by
  induction values generalizing chunks with
  | nil =>
    obtain ⟨c, rfl⟩ := List.length_eq_one_iff.mp h
    have hlast := List.modifyLast_concat (· ++ x) c []
    simp only [List.nil_append] at hlast
    simp [interleave, hlast]
  | cons w ws ih =>
    match chunks, h with
    | c :: cs, h =>
      have hcs : cs ≠ [] := by
        rintro rfl
        simp at h
      rw [modifyLast_cons_of_ne_nil _ _ hcs, interleave, ih (by simpa using h), interleave]
      simp only [String.append_assoc]

/-! ### The loop of `NewInterpolateExpr` on alternating parts -/

/-- Adding to the last element keeps the length. -/
theorem length_modifyLast {β : Type} (f : β → β) (l : List β) : (l.modifyLast f).length = l.length := by
  rcases List.eq_nil_or_concat l with rfl | ⟨l', b, rfl⟩
  · rfl
  · rw [List.concat_eq_append, List.modifyLast_concat]
    simp

/-- What the loop keeps after each literal of the parts read: no chunk due,
one chunk more than arguments, the arguments being the non-literal parts read,
and the chunks and arguments worth the parts read. -/
structure interpolateAcc.Reads (v : α → String) (acc : interpolateAcc α)
    (done : List (starlarkExpr α)) : Prop where
  needString : acc.needString = false
  length_chunks : acc.chunks.length = acc.args.length + 1
  args : acc.args = done.filter fun p => !p.isStringLiteral
  value : interleave acc.chunks (acc.args.map (value v)) = String.join (done.map (value v))

/-- The first literal starts the first chunk. -/
theorem reads_first (v : α → String) (first : String) :
    (interpolateStep ⟨[], [], true⟩ (stringLiteralExpr first)).Reads v [stringLiteralExpr first] where
  needString := rfl
  length_chunks := rfl
  args := rfl
  value := by simp [interpolateStep, interleave, starlarkExpr.value]

/-- Where a chunk is due, a literal starts it. -/
theorem interpolateStep_new_chunk {acc : interpolateAcc α} (hneed : acc.needString = true)
    (literal : String) :
    interpolateStep acc (stringLiteralExpr literal) =
      { acc with chunks := acc.chunks ++ [literal], needString := false } := by
  simp [interpolateStep, hneed]

/-- Where no chunk is due, a literal goes into the last chunk. -/
theorem interpolateStep_last_chunk {acc : interpolateAcc α} (hneed : acc.needString = false)
    (literal : String) :
    interpolateStep acc (stringLiteralExpr literal) =
      { acc with chunks := acc.chunks.modifyLast (· ++ literal) } := by
  simp [interpolateStep, hneed]

/-- Where no chunk is due, any other part becomes an argument. -/
theorem interpolateStep_arg {acc : interpolateAcc α} (hneed : acc.needString = false)
    {e : starlarkExpr α} (he : e.isStringLiteral = false) :
    interpolateStep acc e = { acc with args := acc.args ++ [e], needString := true } := by
  cases e <;> simp_all [interpolateStep, isStringLiteral]

/-- **An expression and the literal after it keep what the loop reads**: a
literal expression goes into the last chunk with the literal, any other
becomes an argument before a new chunk. -/
theorem reads_pair {v : α → String} {acc : interpolateAcc α} {done : List (starlarkExpr α)}
    (h : acc.Reads v done) (e : starlarkExpr α) (s : String) :
    ([e, stringLiteralExpr s].foldl interpolateStep acc).Reads v (done ++ [e, stringLiteralExpr s]) := by
  obtain ⟨hneed, hlen, hargs, hvalue⟩ := h
  simp only [List.foldl_cons, List.foldl_nil]
  cases hlit : e.isStringLiteral with
  | true =>
    -- a reference that came out as a literal joins the chunk before it, as does the literal
    obtain ⟨literal, rfl⟩ : ∃ literal, e = stringLiteralExpr literal := by
      cases e <;> simp_all
    simp only [interpolateStep_last_chunk, hneed]
    refine ⟨rfl, by simp [length_modifyLast, hlen], by simp [hargs], ?_⟩
    rw [interleave_modifyLast (by simp [length_modifyLast, hlen]),
      interleave_modifyLast (by simp [hlen]), hvalue]
    simp [starlarkExpr.value, String.join_cons, String.append_assoc]
  | false =>
    -- any other part is an argument, and the literal after it a new chunk
    rw [interpolateStep_arg hneed hlit, interpolateStep_new_chunk rfl]
    refine ⟨rfl, by simp [hlen], by simp [hargs, hlit], ?_⟩
    simp only
    rw [List.map_append, List.map_singleton, interleave_append (by simpa using hlen), hvalue]
    simp [starlarkExpr.value, String.join_cons, String.append_assoc]

/-- The loop over the pairs after the first literal keeps what it reads. -/
theorem reads_foldl {v : α → String} (rest : List (starlarkExpr α × String)) :
    ∀ {acc : interpolateAcc α} {done : List (starlarkExpr α)}, acc.Reads v done →
      ((rest.flatMap fun (e, s) => [e, stringLiteralExpr s]).foldl interpolateStep acc).Reads v
        (done ++ rest.flatMap fun (e, s) => [e, stringLiteralExpr s]) := by
  induction rest with
  | nil => simp
  | cons p rest ih =>
    intro acc done h
    obtain ⟨e, s⟩ := p
    rw [List.flatMap_cons, List.foldl_append, ← List.append_assoc]
    exact ih (reads_pair h e s)

/-! ### Formatting back -/

/-- **A chunk with `%` doubled reads back as the chunk**, whatever follows it. -/
theorem starlarkPercent_escape (c f : List Char) (args : List String) :
    starlarkPercent ((c.flatMap fun x => if x = '%' then ['%', '%'] else [x]) ++ f) args =
      (starlarkPercent f args).map (c ++ ·) := by
  induction c with
  | nil => simp
  | cons x c ih =>
    by_cases hx : x = '%'
    · -- a doubled `%` is one `%`
      subst hx
      simp only [List.flatMap_cons, if_true, List.cons_append, List.nil_append, starlarkPercent, ih,
        Option.map_map]
      rfl
    · -- any other character is itself
      rw [List.flatMap_cons, if_neg hx, List.singleton_append, List.cons_append,
        starlarkPercent.eq_6 _ _ _ (by simp [hx]) (by simp [hx]) (by simp [hx]), ih,
        Option.map_map]
      rfl

/-- `strings.ReplaceAll` doubling `%`, character by character. -/
theorem toList_ReplaceAll_percent (c : String) :
    (strings.ReplaceAll c '%' "%%").toList =
      c.toList.flatMap fun x => if x = '%' then ['%', '%'] else [x] := by
  simp [strings.ReplaceAll]

/-- The format of two chunks or more: the first escaped, then `%s`. -/
theorem format_cons_cons (c c' : String) (cs : List String) :
    interpolateExpr.format (c :: c' :: cs) =
      strings.ReplaceAll c '%' "%%" ++ "%s" ++ interpolateExpr.format (c' :: cs) := by
  simp [interpolateExpr.format, String.join_cons, String.append_assoc]

/-- **The format `emit` writes gives back the chunks interleaved with the
arguments' values** under Starlark's `%`. -/
theorem starlarkPercent_format {chunks values : List String}
    (h : chunks.length = values.length + 1) :
    starlarkPercent (interpolateExpr.format chunks).toList values =
      some (interleave chunks values).toList := by
  induction values generalizing chunks with
  | nil =>
    obtain ⟨c, rfl⟩ := List.length_eq_one_iff.mp h
    have hesc := starlarkPercent_escape c.toList [] []
    rw [List.append_nil] at hesc
    simp [interpolateExpr.format, toList_ReplaceAll_percent, hesc, starlarkPercent, interleave]
  | cons w ws ih =>
    match chunks, h with
    | c :: c' :: cs, h =>
      rw [format_cons_cons, String.toList_append, String.toList_append, toList_ReplaceAll_percent,
        List.append_assoc, starlarkPercent_escape]
      simp [starlarkPercent, @ih (c' :: cs) (by simpa using h), interleave]

/-! ### The interpolation of a make string -/

/-- **`NewInterpolateExpr` on alternating parts** — a literal, then expressions
each followed by a literal, as `parseMakeString` builds them.  When every part
is a literal the result is the literal of their concatenation; otherwise it is
an interpolation with one chunk more than arguments, whose arguments are the
non-literal parts in order, whose chunks and arguments interleave to the
parts' concatenation, and whose format gives that concatenation back under
Starlark's `%`, for every value the other expressions may take. -/
theorem NewInterpolateExpr_alternating (v : α → String) (first : String)
    (rest : List (starlarkExpr α × String)) :
    ((∀ p ∈ interpolateParts first rest, p.isStringLiteral = true) ∧
      NewInterpolateExpr (interpolateParts first rest) =
        stringLiteralExpr (String.join ((interpolateParts first rest).map (value v)))) ∨
    (∃ chunks args, NewInterpolateExpr (interpolateParts first rest) = interpolateExpr chunks args ∧
      chunks.length = args.length + 1 ∧ args ≠ [] ∧
      args = (interpolateParts first rest).filter (fun p => !p.isStringLiteral) ∧
      interleave chunks (args.map (value v)) =
        String.join ((interpolateParts first rest).map (value v)) ∧
      starlarkPercent (interpolateExpr.format chunks).toList (args.map (value v)) =
        some (String.join ((interpolateParts first rest).map (value v))).toList) := by
  have hreads : (List.foldl interpolateStep ⟨[], [], true⟩ (interpolateParts first rest)).Reads v
      (interpolateParts first rest) := reads_foldl rest (reads_first v first)
  simp only [NewInterpolateExpr]
  generalize List.foldl interpolateStep ⟨[], [], true⟩ (interpolateParts first rest) = r at hreads ⊢
  obtain ⟨-, hlen, hargs, hvalue⟩ := hreads
  -- the parts end on a literal, so no empty chunk is added
  rw [if_neg (show r.chunks.length ≠ r.args.length by omega)]
  by_cases h0 : r.args.length = 0
  · -- no argument: every part is a literal, and the chunk is their concatenation
    left
    have hnil : r.args = [] := List.eq_nil_of_length_eq_zero h0
    rw [if_pos h0]
    refine ⟨fun p hp => ?_, ?_⟩
    · by_contra hlit
      have hmem : p ∈ r.args := by
        rw [hargs, List.mem_filter]
        exact ⟨hp, by simpa using hlit⟩
      simp [hnil] at hmem
    · rw [← hvalue, hnil, List.map_nil, interleave_nil]
  · -- arguments: the interpolation, and its format read back
    right
    rw [if_neg h0]
    refine ⟨r.chunks, r.args, rfl, hlen, fun h => h0 (by simp [h]), hargs, hvalue, ?_⟩
    rw [← hvalue]
    exact starlarkPercent_format (by simpa using hlen)

end mk2rbc

end Soong
