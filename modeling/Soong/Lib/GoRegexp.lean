import Mathlib.Data.List.Basic

/-!
# Go's regular expression templates

`regexp`'s template expansion, which `ReplaceAllString` applies to its
replacement once a pattern has matched: `$$` is a dollar, `$name` and `${name}`
stand for a group, and a `$` that starts no name is kept as it is.  A name made
of digits is a group number; no pattern modelled has named groups, so any other
name stands for nothing.  The name characters are Unicode letters, digits and
`_`; the Unicode tables are outside the model, so that test is a parameter.

Beside it, the order in which a pattern `^.*sep…` tries the cuts of a string:
Go's leftmost-first matching lets the leading `.*` take as much as it can, so
the cut with the longest head that the rest of the pattern accepts wins.

## Main definitions

* `regexp.extract`, `regexp.groupNumber`, `regexp.expand`.
* `regexp.greedyCut`.

## Main results

* `expand_of_not_mem` — a template without `$` is its own expansion.
-/

namespace regexp

section expand

variable (isNameRune : Char → Bool)

/-- `extract`: the name after a `$`, plain or in braces, and the template after
it; `none` for an empty name or a missing closing brace. -/
def extract : List Char → Option (List Char × List Char)
  | '{' :: s =>
    match s.takeWhile isNameRune, s.drop (s.takeWhile isNameRune).length with
    | [], _ => none
    | name, '}' :: rest => some (name, rest)
    | _, _ => none
  | s => if s.takeWhile isNameRune = [] then none
    else some (s.takeWhile isNameRune, s.drop (s.takeWhile isNameRune).length)

/-- The group a name refers to: ASCII digits, without a leading zero, and at
most nine of them (Go gives up once the value reaches `1e8` before a digit). -/
def groupNumber (name : List Char) : Option ℕ :=
  if name.all Char.isDigit && name.length ≤ 9 && (name.length = 1 || name.head? != some '0') then
    some (name.foldl (fun n c => 10 * n + (c.toNat - '0'.toNat)) 0)
  else none

theorem extract_length {t name rest : List Char} (h : extract isNameRune t = some (name, rest)) :
    rest.length ≤ t.length := by
  unfold extract at h
  split at h
  · split at h
    · cases h
    · cases h
      simp only [List.length_cons]
      have hlen := congrArg List.length ‹List.drop _ _ = '}' :: rest›
      simp only [List.length_drop, List.length_cons] at hlen
      omega
    · cases h
  · split at h
    · cases h
    · cases h
      simp

/-- `expand` with the text of each group: `$$` is `$`, `$n` is group `n` when
there is one, any other name is nothing, and a `$` that starts no name stays. -/
def expand (groups : List String) : List Char → List Char
  | [] => []
  | '$' :: '$' :: t => '$' :: expand groups t
  | '$' :: t =>
    match h : extract isNameRune t with
    | none => '$' :: expand groups t
    | some (name, rest) =>
      have : rest.length < t.length + 1 := Nat.lt_succ_of_le (extract_length isNameRune h)
      (((groupNumber name).bind (groups[·]?)).getD "").toList ++ expand groups rest
  | c :: t => c :: expand groups t
termination_by t => t.length

variable {isNameRune}

/-- Text without `$` passes through the expansion unchanged. -/
theorem expand_append (groups : List String) {s : List Char} (h : '$' ∉ s) (t : List Char) :
    expand isNameRune groups (s ++ t) = s ++ expand isNameRune groups t := by
  induction s with
  | nil => rfl
  | cons c s ih =>
    have hc : c ≠ '$' := fun hc => h (hc ▸ List.mem_cons_self)
    rw [List.cons_append, expand.eq_def]
    split <;> simp_all

/-- **A template without `$` is its own expansion.** -/
theorem expand_of_not_mem (groups : List String) {t : List Char} (h : '$' ∉ t) :
    expand isNameRune groups t = t := by
  simpa [expand] using expand_append groups h []

end expand

section greedyCut

variable {α : Type} [DecidableEq α]

/-- The cuts `s = p ++ sep ++ r` that `ok` accepts, the longest `p` first, and
the first of them: the cut a pattern `^.*sep…` matches with. -/
def greedyCut (sep : List α) (ok : List α → List α → Bool) (s : List α) :
    Option (List α × List α) :=
  (List.range (s.length + 1)).reverse.findSome? fun i =>
    if sep.isPrefixOf (s.drop i) && ok (s.take i) ((s.drop i).drop sep.length) then
      some (s.take i, (s.drop i).drop sep.length)
    else none

end greedyCut

end regexp
