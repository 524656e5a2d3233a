import Mathlib.Data.List.ModifyLast
import Soong.Androidmk.MakeStrings

/-!
# Splitting make strings

`androidmk/parser/make_strings.go`.  `SplitN` cuts a make string at the
separator characters of its raw strings, into at most `n` pieces (`n = -1`: no
limit), with the variables kept whole inside the pieces.  `splitNFunc` splits
one raw string at a time with `splitAnyN`, carries the piece under way across
the variables, and counts down the pieces left by the pieces each raw string
gave.

A make string read item by item, its raw characters and its variables
(`MakeString.items`), is split as a list is by `strings.SplitN` (`splitItems`);
with no limit that is `List.splitOnP`.  `Split` does exactly that
(`Split_items`).  With a limit the count goes wrong: a piece that runs on past a
variable is counted once for each raw string it spans, so `SplitN` may stop
cutting early and give fewer pieces than asked for
(`SplitN_stops_early`).

`IndexAny` and `s[index+1:]` work on bytes; the model reads characters, which
agrees with Go for separators that are single bytes, as the callers' are.

## Main definitions

* `splitAnyN`, `MakeString.splitNFunc`, `MakeString.SplitN`, `MakeString.Split`.
* `Item`, `MakeString.items`, `splitItems` — the make string as a list, and
  `strings.SplitN`'s convention on it.

## Main results

* `splitItems_neg_one` — with no limit the convention is `List.splitOnP`.
* `Split_items` — `Split` cuts at every separator character.
* `SplitN_stops_early` — `SplitN` into three pieces gives two when a piece
  spans a variable.
-/

namespace Soong

namespace Androidmk

/-! ### `splitAnyN` -/

/-- The loop of `splitAnyN`, one character at a time: `IndexAny` finds the next
separator, and the characters before it are a piece.  `cur` is the piece under
way, `n` the pieces left (`-1`: no limit); the loop stops cutting once `n` is
down to one. -/
def splitAnyLoop (sep : List Char) : Int → List Char → List Char → List (List Char)
  | _, cur, [] => [cur]
  | n, cur, c :: s =>
    if (n = -1 ∨ n > 1) ∧ c ∈ sep then
      cur :: splitAnyLoop sep (if n > 0 then n - 1 else n) [] s
    else splitAnyLoop sep n (cur ++ [c]) s

/-- `splitAnyN`: `s` cut at the characters of `sep`, into at most `n` pieces. -/
def splitAnyN (s sep : String) (n : Int) : List String :=
  (splitAnyLoop sep.toList n [] s.toList).map String.ofList

namespace MakeString

/-- One raw string `s` in the loop of `splitNFunc`: the pieces done, the piece
under way and the pieces left after it; `none` where Go panics. -/
def splitChunk (splitFunc : String → Int → List String) (pos : ℤ)
    (st : List MakeString × MakeString × Int) (s : String) :
    Option (List MakeString × MakeString × Int) :=
  let (ret, curMs, n) := st
  if n ≠ 0 then do
    let split := splitFunc s n
    let n ← if n ≠ -1 then (if split.length > n then none else some (n - split.length))
      else some n
    match split with
    -- `split[0]` of an empty split is out of range
    | [] => none
    | s0 :: rest =>
      let (ret, curMs) := rest.foldl
        (fun (st : List MakeString × MakeString) r => (st.1 ++ [st.2], SimpleMakeString r pos))
        (ret, curMs.appendString s0)
      some (ret, curMs, n)
  else some (ret, curMs.appendString s, n)

/-- `splitNFunc`: `splitChunk` over the raw strings, each variable appended to
the piece under way before the raw string after it. -/
def splitNFunc (ms : MakeString) (n : Int) (splitFunc : String → Int → List String) :
    Option (List MakeString) := do
  let st ← splitChunk splitFunc ms.Pos ([], SimpleMakeString "" ms.Pos, n) ms.first
  let (ret, curMs, _) ← ms.rest.foldlM
    (fun st (e : Variable × String) =>
      splitChunk splitFunc ms.Pos (st.1, st.2.1.appendVariable e.1, st.2.2) e.2) st
  pure (ret ++ [curMs])

/-- `SplitN`. -/
def SplitN (ms : MakeString) (sep : String) (n : Int) : Option (List MakeString) :=
  ms.splitNFunc n fun s n => splitAnyN s sep n

/-- `Split`. -/
def Split (ms : MakeString) (sep : String) : Option (List MakeString) := ms.SplitN sep (-1)

end MakeString

/-! ### The make string as a list -/

/-- A raw character or a variable of a make string. -/
inductive Item where
  | char (c : Char)
  | var (v : Variable)

/-- A separator: a raw character of `sep`. -/
def Item.isSep (sep : List Char) : Item → Bool
  | .char c => decide (c ∈ sep)
  | .var _ => false

/-- The raw characters and the variables of a make string, in order. -/
def MakeString.items (ms : MakeString) : List Item :=
  ms.first.toList.map .char ++ ms.rest.flatMap fun e => .var e.1 :: e.2.toList.map .char

/-- One item of `strings.SplitN`'s convention: a separator starts a new piece
while there are fewer than `n` (`n = -1`: no limit). -/
def splitStep (sep : List Char) (n : Int) (pieces : List (List Item)) : Item → List (List Item)
  | .char c =>
    if c ∈ sep ∧ (n = -1 ∨ (pieces.length : Int) < n) then pieces ++ [[]]
    else pieces.modifyLast (· ++ [.char c])
  | i => pieces.modifyLast (· ++ [i])

/-- A list of items split at its separators into at most `n` pieces, the last
holding the rest. -/
def splitItems (sep : List Char) (n : Int) (l : List Item) : List (List Item) :=
  l.foldl (splitStep sep n) [[]]

theorem modifyHead_append_nil {α : Type} (l : List (List α)) :
    l.modifyHead ([] ++ ·) = l := by
  cases l <;> simp

/-- With no limit, the split runs on from any pieces as `List.splitOnP` does,
the first of its pieces going onto the last one there. -/
theorem foldl_splitStep_neg_one (sep : List Char) (l : List Item) (P : List (List Item))
    (q : List Item) :
    l.foldl (splitStep sep (-1)) (P ++ [q]) = P ++ (l.splitOnP (Item.isSep sep)).modifyHead (q ++ ·) := by
  induction l generalizing P q with
  | nil => simp
  | cons x l ih =>
    rw [List.foldl_cons, List.splitOnP_cons_eq_if_modifyHead]
    cases x with
    | char c =>
      by_cases hc : c ∈ sep
      · -- a separator ends the piece `q`
        have hstep : splitStep sep (-1) (P ++ [q]) (.char c) = (P ++ [q]) ++ [[]] := by
          simp [splitStep, hc]
        rw [hstep, ih, if_pos (by simp [Item.isSep, hc]), modifyHead_append_nil]
        simp
      · have hstep : splitStep sep (-1) (P ++ [q]) (.char c) = P ++ [q ++ [.char c]] := by
          simp [splitStep, hc, List.modifyLast_concat]
        rw [hstep, ih, if_neg (by simp [Item.isSep, hc])]
        simp [Function.comp_def]
    | var v =>
      have hstep : splitStep sep (-1) (P ++ [q]) (.var v) = P ++ [q ++ [.var v]] := by
        simp [splitStep, List.modifyLast_concat]
      rw [hstep, ih, if_neg (by simp [Item.isSep])]
      simp [Function.comp_def]

/-- **With no limit, `strings.SplitN`'s convention is `List.splitOnP`.** -/
theorem splitItems_neg_one (sep : List Char) (l : List Item) :
    splitItems sep (-1) l = l.splitOnP (Item.isSep sep) := by
  have h := foldl_splitStep_neg_one sep l [] []
  rw [List.nil_append, modifyHead_append_nil] at h
  exact h

/-! ### `Split` cuts at every separator -/

namespace MakeString

@[simp] theorem items_SimpleMakeString (s : String) (pos : ℤ) :
    (SimpleMakeString s pos).items = s.toList.map .char := by
  simp [SimpleMakeString, items]

@[simp] theorem items_appendVariable (ms : MakeString) (v : Variable) :
    (ms.appendVariable v).items = ms.items ++ [.var v] := by
  simp [appendVariable, items]

theorem modifyLast_mk_of_ne_nil (f : String → String) (pos : ℤ) (first : String)
    {rest : List (Variable × String)} (h : rest ≠ []) :
    (mk pos first rest).modifyLast f = mk pos first (rest.modifyLast fun e => (e.1, f e.2)) := by
  cases rest with
  | nil => exact absurd rfl h
  | cons e rest => rfl

theorem items_appendString (ms : MakeString) (s : String) :
    (ms.appendString s).items = ms.items ++ s.toList.map .char := by
  obtain ⟨pos, first, rest⟩ := ms
  rcases List.eq_nil_or_concat rest with rfl | ⟨init, ⟨v, t⟩, rfl⟩
  · simp [appendString, modifyLast, items]
  · -- the string goes onto the raw string after the last variable
    rw [List.concat_eq_append, appendString, modifyLast_mk_of_ne_nil _ _ _ (by simp),
      List.modifyLast_concat]
    simp [items]

/-- The pieces after the first of a split raw string each start a new piece. -/
theorem foldl_push_items (pos : ℤ) (rest : List String) (ret : List MakeString)
    (cur : MakeString) :
    let st := rest.foldl
      (fun (st : List MakeString × MakeString) r => (st.1 ++ [st.2], SimpleMakeString r pos))
      (ret, cur)
    st.1.map items ++ [st.2.items] =
      ret.map items ++ [cur.items] ++ rest.map (·.toList.map .char) := by
  induction rest generalizing ret cur with
  | nil => simp
  | cons r rest ih =>
    simp only [List.foldl_cons]
    rw [ih]
    simp

end MakeString

/-- **With no limit, `splitAnyN`'s loop over a raw string cuts as the split of
its characters does**, run on from the pieces there. -/
theorem foldl_splitStep_chars (sep : List Char) (s acc : List Char) (P : List (List Item))
    (q : List Item) :
    (s.map .char).foldl (splitStep sep (-1)) (P ++ [q ++ acc.map .char]) =
      P ++ ((splitAnyLoop sep (-1) acc s).map (·.map .char)).modifyHead (q ++ ·) := by
  induction s generalizing P q acc with
  | nil => simp [splitAnyLoop]
  | cons c s ih =>
    rw [List.map_cons, List.foldl_cons]
    by_cases hc : c ∈ sep
    · -- the separator ends the piece under way
      have hstep : splitStep sep (-1) (P ++ [q ++ acc.map .char]) (.char c) =
          (P ++ [q ++ acc.map .char]) ++ [[] ++ ([] : List Char).map .char] := by
        simp [splitStep, hc]
      have hloop : splitAnyLoop sep (-1) acc (c :: s) = acc :: splitAnyLoop sep (-1) [] s := by
        simp [splitAnyLoop, hc]
      rw [hstep, ih, hloop, modifyHead_append_nil]
      simp
    · have hstep : splitStep sep (-1) (P ++ [q ++ acc.map .char]) (.char c) =
          P ++ [q ++ (acc ++ [c]).map .char] := by
        simp [splitStep, hc, List.modifyLast_concat]
      have hloop : splitAnyLoop sep (-1) acc (c :: s) = splitAnyLoop sep (-1) (acc ++ [c]) s := by
        simp [splitAnyLoop, hc]
      rw [hstep, ih, hloop]

theorem splitAnyLoop_ne_nil (sep : List Char) (n : Int) (acc s : List Char) :
    splitAnyLoop sep n acc s ≠ [] := by
  induction s generalizing n acc with
  | nil => simp [splitAnyLoop]
  | cons c s ih =>
    simp only [splitAnyLoop]
    split
    · simp
    · exact ih _ _

namespace MakeString

/-- One raw string split with no limit: the pieces are the items' split, run on
from the pieces there. -/
theorem splitChunk_neg_one (sep : String) (pos : ℤ) (ret : List MakeString) (cur : MakeString)
    (s : String) :
    ∃ ret' cur', splitChunk (fun s n => splitAnyN s sep n) pos (ret, cur, -1) s =
        some (ret', cur', -1) ∧
      ret'.map items ++ [cur'.items] =
        (s.toList.map .char).foldl (splitStep sep.toList (-1)) (ret.map items ++ [cur.items]) := by
  obtain ⟨p0, ps, hsplit⟩ := List.exists_cons_of_ne_nil
    (splitAnyLoop_ne_nil sep.toList (-1) [] s.toList)
  let push := fun (st : List MakeString × MakeString) (r : String) =>
    (st.1 ++ [st.2], SimpleMakeString r pos)
  let st := (ps.map String.ofList).foldl push (ret, cur.appendString (String.ofList p0))
  refine ⟨st.1, st.2, ?_, ?_⟩
  · simp only [splitChunk, splitAnyN, hsplit]
    rfl
  · have hchars := foldl_splitStep_chars sep.toList s.toList [] (ret.map items) cur.items
    rw [List.map_nil, List.append_nil] at hchars
    rw [hchars, hsplit, foldl_push_items, items_appendString]
    simp

/-- The raw strings after the first, each after its variable, split with no
limit. -/
theorem foldlM_splitChunk_neg_one (sep : String) (pos : ℤ) (rest : List (Variable × String))
    (ret : List MakeString) (cur : MakeString) :
    ∃ ret' cur', rest.foldlM
        (fun st (e : Variable × String) =>
          splitChunk (fun s n => splitAnyN s sep n) pos (st.1, st.2.1.appendVariable e.1, st.2.2) e.2)
        (ret, cur, -1) = some (ret', cur', -1) ∧
      ret'.map items ++ [cur'.items] =
        (rest.flatMap fun e => .var e.1 :: e.2.toList.map .char).foldl
          (splitStep sep.toList (-1)) (ret.map items ++ [cur.items]) := by
  induction rest generalizing ret cur with
  | nil => exact ⟨ret, cur, rfl, rfl⟩
  | cons e rest ih =>
    obtain ⟨v, t⟩ := e
    obtain ⟨ret₁, cur₁, hchunk, hitems₁⟩ := splitChunk_neg_one sep pos ret (cur.appendVariable v) t
    obtain ⟨ret', cur', hfold, hitems'⟩ := ih ret₁ cur₁
    refine ⟨ret', cur', ?_, ?_⟩
    · simp only [List.foldlM_cons, hchunk, Option.bind_eq_bind, Option.bind_some]
      exact hfold
    · -- the variable goes onto the piece under way, then the raw string is split
      have hvar : splitStep sep.toList (-1) (ret.map items ++ [cur.items]) (.var v) =
          ret.map items ++ [(cur.appendVariable v).items] := by
        simp [splitStep, List.modifyLast_concat]
      rw [hitems', hitems₁, List.flatMap_cons, List.foldl_append, List.foldl_cons, hvar]

/-- **`Split` cuts at every separator character of the raw strings**, with the
variables kept whole: the pieces, read item by item, are the make string's
items split by `List.splitOnP`. -/
theorem Split_items (ms : MakeString) (sep : String) :
    (ms.Split sep).map (·.map items) = some (ms.items.splitOnP (Item.isSep sep.toList)) := by
  obtain ⟨ret₀, cur₀, hfirst, hitems₀⟩ :=
    splitChunk_neg_one sep ms.Pos [] (SimpleMakeString "" ms.Pos) ms.first
  obtain ⟨ret, cur, hrest, hitems⟩ := foldlM_splitChunk_neg_one sep ms.Pos ms.rest ret₀ cur₀
  have hsplit : ms.Split sep = some (ret ++ [cur]) := by
    simp only [Split, SplitN, splitNFunc, hfirst, Option.bind_eq_bind, Option.bind_some, hrest]
    rfl
  rw [hsplit, ← splitItems_neg_one, splitItems, items, List.foldl_append]
  simp only [Option.map_some, List.map_append, List.map_cons, List.map_nil]
  rw [hitems, hitems₀]
  simp

end MakeString

/-! ### `SplitN` with a limit -/

/-- `a$(X)b,c,d`. -/
def commasAfterVariable : MakeString :=
  .mk 0 "a" [(.mk (.ptr (SimpleMakeString "X" 0)), "b,c,d")]

/-- **`SplitN` stops cutting early when a piece spans a variable.**  Cut at
commas into at most three pieces, `a$(X)b,c,d` is `a$(X)b`, `c` and `d` by
`strings.SplitN`'s convention, but `SplitN` gives two pieces, `a$(X)b` and
`c,d`: the piece `a$(X)b` is counted for `a` and again for `b,c,d`. -/
theorem SplitN_stops_early :
    (commasAfterVariable.SplitN "," 3).map (·.map MakeString.Strings) =
        some [["a", "b"], ["c,d"]] ∧
      (splitItems [','] 3 commasAfterVariable.items).map List.length = [3, 1, 1] := by
  decide +kernel

end Androidmk

end Soong
