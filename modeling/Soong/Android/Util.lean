import Soong.Lib.GoPath
import Soong.Lib.Dedup

/-!
# Make patterns and product overrides

`android/util.go` and `findOverrideValue` of `android/config.go`.  A pattern
such as `foo%bar` matches the strings made of `foo`, a stem and `bar`, and
`substPattern` puts the stem in place of the `%` of a replacement.  Both are
copied from kati.  The product variables `PRODUCT_*_OVERRIDES` list rules
`pattern:replacement`, and `findOverrideValue` applies the first rule whose
pattern matches a module's name.

`matchPattern` tests the prefix and the suffix of the pattern on their own, so
in a short string they may overlap: `a%a` matches `a`, which has no stem
between `a` and `a`.  `substPattern` trims the prefix and then the suffix, finds
nothing left to trim and gives the string back.  So such a rule overrides a
name with itself, and hides the rules after it (`OverridePackageNameFor_a`).
When the prefix and the suffix do not overlap, matching is having a stem, and
`substPattern` puts that stem into the replacement.

Strings are read as characters; the `%` and `:` the functions cut at are single
bytes, so the cuts are where Go makes them.

## Main definitions

* `InList`, `CopyOf`, `substPattern`, `matchPattern`, `findOverrideValue`, `OverridePackageNameFor`.
* `patternPrefix`, `patternSuffix` — the texts around the first `%`.

## Main results

* `matchPattern_iff` — the prefix and the suffix are there, maybe overlapping.
* `matchPattern_stem_iff` — with room for both, matching is having a stem.
* `substPattern_stem` — the stem goes into the replacement.
* `substPattern_overlap` — with the halves overlapping, the string comes back.
* `OverridePackageNameFor_a` — an overlapping rule hides the next one.
-/

namespace Soong

/-- `android.InList`. -/
def InList (s : String) (list : List String) : Bool := decide (s ∈ list)

/-- `android.CopyOf`: `append([]string(nil), s...)`, a fresh slice of the same
strings. -/
def CopyOf (s : List String) : List String := [] ++ s

/-- `substPattern`: the stem of `str` under `pat` put into the `%` of `repl`;
`str` itself where the pattern does not fit, and `repl` itself when it has no
`%`. -/
def substPattern (pat repl str : String) : String :=
  match strings.SplitN pat '%' 2 with
  | [ps0, ps1] =>
    -- `in` and `trimmed` of the source, after each of its two trims
    let trimmed := if ps0 ≠ "" then strings.TrimPrefix str ps0 else str
    if ps0 ≠ "" ∧ trimmed = str then str
    else
      let inn := trimmed
      let trimmed := if ps1 ≠ "" then strings.TrimSuffix inn ps1 else inn
      if ps1 ≠ "" ∧ trimmed = inn then str
      else
        match strings.SplitN repl '%' 2 with
        | [rs0, rs1] => rs0 ++ trimmed ++ rs1
        | _ => repl
  | _ => if str = pat then repl else str

/-- `matchPattern`: `str` starts with the text of `pat` before its first `%` and
ends with the text after it; without a `%`, it is `pat`. -/
def matchPattern (pat str : String) : Bool :=
  let i := strings.IndexByte pat '%'
  if i < 0 then pat == str
  else strings.HasPrefix str (String.ofList (pat.toList.take i.toNat)) &&
    strings.HasSuffix str (String.ofList (pat.toList.drop (i.toNat + 1)))

/-- The message of a panic: `errorMsg`, whose one verb is `%q`, formatted with
`o`. -/
def overrideError (errorMsg o : String) : String :=
  strings.Replace errorMsg "%q" (strconv.Quote o)

/-- `findOverrideValue`: the first rule `pattern:replacement` whose pattern
matches `name`, applied to it; the error is the panic on a rule without
exactly one colon. -/
def findOverrideValue (overrides : List String) (name errorMsg : String) :
    Except String (String × Bool) :=
  match overrides with
  | [] => .ok ("", false)
  | o :: overrides =>
    match strings.Split o ':' with
    | [pattern, replacement] =>
      if matchPattern pattern name then .ok (substPattern pattern replacement name, true)
      else findOverrideValue overrides name errorMsg
    | _ => .error (overrideError errorMsg o)

/-- `(*deviceConfig).OverridePackageNameFor`, on the value of
`PRODUCT_PACKAGE_NAME_OVERRIDES`. -/
def OverridePackageNameFor (PackageNameOverrides : List String) (name : String) :
    Except String String := do
  let (newName, overridden) ← findOverrideValue PackageNameOverrides name
    "invalid override rule %q in PRODUCT_PACKAGE_NAME_OVERRIDES should be <module_name>:<package_name>"
  if overridden then pure newName else pure name

/-! ### The two halves of a pattern -/

/-- The text of a pattern before its first `%`. -/
def patternPrefix (pat : String) : List Char := pat.toList.takeWhile (· ≠ '%')

/-- The text of a pattern after its first `%`. -/
def patternSuffix (pat : String) : List Char := (pat.toList.dropWhile (· ≠ '%')).drop 1

/-- What is left of a list after the text before the first `c` starts with
that `c`. -/
theorem dropWhile_ne_of_mem {c : Char} {l : List Char} (h : c ∈ l) :
    l.dropWhile (· ≠ c) = c :: (l.dropWhile (· ≠ c)).drop 1 := by
  induction l with
  | nil => simp at h
  | cons x l ih =>
    by_cases hx : x = c
    · subst hx
      simp
    · have hl : c ∈ l := (List.mem_cons.mp h).resolve_left (Ne.symm hx)
      rw [List.dropWhile_cons_of_pos (by simpa using hx)]
      exact ih hl

theorem dropWhile_ne_of_not_mem {c : Char} {l : List Char} (h : c ∉ l) :
    l.dropWhile (· ≠ c) = [] := by
  induction l with
  | nil => rfl
  | cons x l ih =>
    have hx : x ≠ c := fun hx => h (hx ▸ List.mem_cons_self)
    rw [List.dropWhile_cons_of_pos (by simpa using hx)]
    exact ih fun hc => h (List.mem_cons_of_mem x hc)

/-- A pattern with a `%` is its prefix, the `%` and its suffix. -/
theorem toList_eq_pattern {pat : String} (h : '%' ∈ pat.toList) :
    pat.toList = patternPrefix pat ++ '%' :: patternSuffix pat := by
  have hsplit := List.takeWhile_append_dropWhile (p := (· ≠ '%')) (l := pat.toList)
  rw [dropWhile_ne_of_mem h] at hsplit
  exact hsplit.symm

theorem SplitN_percent {pat : String} (h : '%' ∈ pat.toList) :
    strings.SplitN pat '%' 2 =
      [String.ofList (patternPrefix pat), String.ofList (patternSuffix pat)] := by
  unfold strings.SplitN
  rw [if_neg (by decide), if_neg (by decide)]
  show (strings.splitOnN '%' 1 pat.toList).map String.ofList = _
  rw [strings.splitOnN, List.span_eq_takeWhile_dropWhile, dropWhile_ne_of_mem h]
  rfl

theorem SplitN_no_percent {pat : String} (h : '%' ∉ pat.toList) :
    strings.SplitN pat '%' 2 = [pat] := by
  unfold strings.SplitN
  rw [if_neg (by decide), if_neg (by decide)]
  show (strings.splitOnN '%' 1 pat.toList).map String.ofList = _
  have htake : pat.toList.takeWhile (· ≠ '%') = pat.toList := by
    have hsplit := List.takeWhile_append_dropWhile (p := (· ≠ '%')) (l := pat.toList)
    rwa [dropWhile_ne_of_not_mem h, List.append_nil] at hsplit
  rw [strings.splitOnN, List.span_eq_takeWhile_dropWhile, dropWhile_ne_of_not_mem h]
  simp only [htake, List.map_cons, List.map_nil, String.ofList_toList]

/-! ### Matching and substituting -/

theorem IndexByte_percent {pat : String} (h : '%' ∈ pat.toList) :
    strings.IndexByte pat '%' = (patternPrefix pat).length := by
  rw [strings.IndexByte, if_pos h]
  rfl

/-- **Matching tests the two halves on their own.**  A pattern with a `%`
matches the strings that start with its prefix and end with its suffix; in a
string shorter than both the two may overlap. -/
theorem matchPattern_iff {pat str : String} (h : '%' ∈ pat.toList) :
    matchPattern pat str = true ↔
      patternPrefix pat <+: str.toList ∧ patternSuffix pat <:+ str.toList := by
  have hpat := toList_eq_pattern h
  have htake : pat.toList.take (patternPrefix pat).length = patternPrefix pat := by
    rw [hpat, List.take_left]
  have hdrop : pat.toList.drop ((patternPrefix pat).length + 1) = patternSuffix pat := by
    rw [hpat]
    simp
  have hnonneg : ¬((patternPrefix pat).length : Int) < 0 := by omega
  simp only [matchPattern, IndexByte_percent h, if_neg hnonneg, Int.toNat_natCast, htake, hdrop,
    Bool.and_eq_true, strings.hasPrefix_iff, strings.hasSuffix_iff, String.toList_ofList]

/-- A string made of the prefix, a stem and the suffix of a pattern. -/
theorem matchPattern_of_stem {pat str : String} (h : '%' ∈ pat.toList) {stem : List Char}
    (hstr : str.toList = patternPrefix pat ++ stem ++ patternSuffix pat) :
    matchPattern pat str = true := by
  rw [matchPattern_iff h, hstr, List.append_assoc]
  exact ⟨List.prefix_append _ _, (List.suffix_append _ _).trans (List.suffix_append _ _)⟩

/-- **With room for both halves, matching is having a stem.** -/
theorem matchPattern_stem_iff {pat str : String} (h : '%' ∈ pat.toList)
    (hlen : (patternPrefix pat).length + (patternSuffix pat).length ≤ str.toList.length) :
    matchPattern pat str = true ↔
      ∃ stem, str.toList = patternPrefix pat ++ stem ++ patternSuffix pat := by
  constructor
  · intro hmatch
    obtain ⟨hp, hs⟩ := (matchPattern_iff h).mp hmatch
    exact exists_middle_of_prefix_of_suffix hp hs hlen
  · rintro ⟨stem, hstr⟩
    exact matchPattern_of_stem h hstr

theorem TrimPrefix_append (p rest : List Char) :
    strings.TrimPrefix (String.ofList (p ++ rest)) (String.ofList p) = String.ofList rest := by
  have hpre : strings.HasPrefix (String.ofList (p ++ rest)) (String.ofList p) = true := by
    rw [strings.hasPrefix_iff, String.toList_ofList, String.toList_ofList]
    exact List.prefix_append _ _
  rw [strings.TrimPrefix, if_pos hpre, String.toList_ofList, String.toList_ofList, List.drop_left]

theorem TrimSuffix_append (rest s : List Char) :
    strings.TrimSuffix (String.ofList (rest ++ s)) (String.ofList s) = String.ofList rest := by
  have hsuf : strings.HasSuffix (String.ofList (rest ++ s)) (String.ofList s) = true := by
    rw [strings.hasSuffix_iff, String.toList_ofList, String.toList_ofList]
    exact List.suffix_append _ _
  rw [strings.TrimSuffix, if_pos hsuf, String.toList_ofList, String.toList_ofList,
    List.length_append, Nat.add_sub_cancel, List.take_left]

/-- The first trim of `substPattern`, on a string that starts with the prefix,
whether the prefix is empty or not. -/
theorem trimPrefix_if (p rest : List Char) :
    (if String.ofList p ≠ "" then strings.TrimPrefix (String.ofList (p ++ rest)) (String.ofList p)
      else String.ofList (p ++ rest)) = String.ofList rest := by
  split_ifs with hp
  · exact TrimPrefix_append p rest
  · rw [not_not, String.ofList_eq_empty_iff] at hp
    rw [hp, List.nil_append]

/-- The second trim of `substPattern`, on a string that ends with the suffix. -/
theorem trimSuffix_if (rest s : List Char) :
    (if String.ofList s ≠ "" then strings.TrimSuffix (String.ofList (rest ++ s)) (String.ofList s)
      else String.ofList (rest ++ s)) = String.ofList rest := by
  split_ifs with hs
  · exact TrimSuffix_append rest s
  · rw [not_not, String.ofList_eq_empty_iff] at hs
    rw [hs, List.append_nil]

/-- **The stem goes into the replacement.**  On a string made of the prefix of
a pattern, a stem and its suffix, `substPattern` puts the stem in place of the
first `%` of the replacement, and gives the replacement itself when it has no
`%`. -/
theorem substPattern_stem {pat str : String} (repl : String) (h : '%' ∈ pat.toList)
    {stem : List Char} (hstr : str.toList = patternPrefix pat ++ stem ++ patternSuffix pat) :
    substPattern pat repl str =
      if '%' ∈ repl.toList then String.ofList (patternPrefix repl ++ stem ++ patternSuffix repl)
      else repl := by
  have hstr' : str = String.ofList (patternPrefix pat ++ (stem ++ patternSuffix pat)) := by
    rw [← List.append_assoc, ← hstr, String.ofList_toList]
  subst hstr'
  rw [substPattern, SplitN_percent h]
  -- neither trim finds its text missing: a trim that changes nothing trimmed nothing
  simp only [trimPrefix_if]
  simp only [trimSuffix_if]
  simp only [ne_eq, String.ofList_eq_empty_iff, String.ofList_inj,
    List.self_eq_append_left, List.self_eq_append_right, not_and_self, ↓reduceIte]
  by_cases hr : '%' ∈ repl.toList
  · simp only [SplitN_percent hr, if_pos hr, String.ofList_append]
  · simp only [SplitN_no_percent hr, if_neg hr]

theorem TrimSuffix_of_length_lt {r s : List Char} (hlt : r.length < s.length) :
    strings.TrimSuffix (String.ofList r) (String.ofList s) = String.ofList r := by
  have hsuf : strings.HasSuffix (String.ofList r) (String.ofList s) = false := by
    rw [Bool.eq_false_iff, ne_eq, strings.hasSuffix_iff, String.toList_ofList,
      String.toList_ofList]
    exact fun hs => absurd hs.length_le (by omega)
  rw [strings.TrimSuffix, if_neg (by rw [hsuf]; exact Bool.false_ne_true)]

/-- **Where the two halves overlap, `substPattern` gives the string back.**  A
string that matches a pattern but is shorter than its prefix and suffix
together has no stem; the second trim finds no suffix left and `substPattern`
returns the string itself. -/
theorem substPattern_overlap {pat str : String} (repl : String) (h : '%' ∈ pat.toList)
    (hmatch : matchPattern pat str = true)
    (hshort : str.toList.length < (patternPrefix pat).length + (patternSuffix pat).length) :
    substPattern pat repl str = str := by
  obtain ⟨⟨r, hr⟩, hs⟩ := (matchPattern_iff h).mp hmatch
  -- what the first trim leaves is shorter than the suffix, which is not empty
  have hlen : r.length < (patternSuffix pat).length := by
    have := congrArg List.length hr
    rw [List.length_append] at this
    omega
  have hsne : patternSuffix pat ≠ [] := fun hnil => by simp [hnil] at hlen
  have hstr : str = String.ofList (patternPrefix pat ++ r) := by
    rw [hr, String.ofList_toList]
  subst hstr
  rw [substPattern, SplitN_percent h]
  simp only [trimPrefix_if]
  simp only [ne_eq, String.ofList_eq_empty_iff, String.ofList_inj, List.self_eq_append_left,
    not_and_self, ↓reduceIte, TrimSuffix_of_length_lt hlen, hsne, not_false_eq_true,
    and_self]

/-- **`matchPattern` and `substPattern` on a pattern with a `%`.**  A string
matches when it starts with the pattern's prefix and ends with its suffix,
which may overlap; with room for both, exactly when it is the prefix, a stem
and the suffix.  `substPattern` puts such a stem into the `%` of the
replacement, and gives back a matching string too short for both halves. -/
theorem matchPattern_substPattern {pat : String} (h : '%' ∈ pat.toList) (repl str : String) :
    (matchPattern pat str = true ↔
      patternPrefix pat <+: str.toList ∧ patternSuffix pat <:+ str.toList) ∧
    ((patternPrefix pat).length + (patternSuffix pat).length ≤ str.toList.length →
      (matchPattern pat str = true ↔
        ∃ stem, str.toList = patternPrefix pat ++ stem ++ patternSuffix pat)) ∧
    (∀ stem, str.toList = patternPrefix pat ++ stem ++ patternSuffix pat →
      substPattern pat repl str =
        if '%' ∈ repl.toList then String.ofList (patternPrefix repl ++ stem ++ patternSuffix repl)
        else repl) ∧
    (matchPattern pat str = true →
      str.toList.length < (patternPrefix pat).length + (patternSuffix pat).length →
      substPattern pat repl str = str) :=
  ⟨matchPattern_iff h, matchPattern_stem_iff h, fun _ hstr => substPattern_stem repl h hstr,
    substPattern_overlap repl h⟩

/-- `lib%.so` takes `libfoo.so` to `foo.a` under the replacement `%.a`. -/
theorem matchPattern_substPattern_lib :
    '%' ∈ "lib%.so".toList ∧ substPattern "lib%.so" "%.a" "libfoo.so" = "foo.a" := by
  have h : '%' ∈ "lib%.so".toList := by decide +kernel
  obtain ⟨-, -, hstem, -⟩ := matchPattern_substPattern h "%.a" "libfoo.so"
  refine ⟨h, ?_⟩
  rw [hstem "foo".toList (by decide +kernel)]
  decide +kernel

/-- **An overlapping rule hides the rules after it.**  The pattern `a%a` matches
the name `a`, in which the two `a`s of the pattern overlap and there is no stem;
the rule `a%a:b%` then overrides `a` with `a` itself, and the rule `a:c` after
it, which alone renames `a` to `c`, is never reached. -/
theorem OverridePackageNameFor_a :
    OverridePackageNameFor ["a%a:b%", "a:c"] "a" = .ok "a" ∧
      OverridePackageNameFor ["a:c"] "a" = .ok "c" ∧
      matchPattern "a%a" "a" = true ∧
      ¬∃ stem, "a".toList = patternPrefix "a%a" ++ stem ++ patternSuffix "a%a" := by
  refine ⟨by decide +kernel, by decide +kernel, by decide +kernel, ?_⟩
  rintro ⟨stem, hstem⟩
  have hlen := congrArg List.length hstem
  have hpre : patternPrefix "a%a" = ['a'] := by decide +kernel
  have hsuf : patternSuffix "a%a" = ['a'] := by decide +kernel
  simp only [hpre, hsuf, List.length_append, List.length_singleton] at hlen
  have hone : "a".toList.length = 1 := by decide +kernel
  omega

/-! ### The last copy of each string -/

section LastUnique

variable {α : Type} [DecidableEq α] [Inhabited α]

/-- The inner loop of `LastUniqueStrings` for `x = list[i]`: `j` runs down from
`i - 1` to `totalSkip`, here `j = totalSkip + n` when `n + 1` passes are left.
A copy of `x` is counted in `skip`; any other value moves `skip` places to the
right.  (`j` is always an index of the list, so the default is never read.) -/
def lastUniqueInner (x : α) (totalSkip : ℕ) : ℕ → List α → ℕ → List α × ℕ
  | 0, list, skip => (list, skip)
  | n + 1, list, skip =>
    let j := totalSkip + n
    if x = list.getD j default then lastUniqueInner x totalSkip n list (skip + 1)
    else lastUniqueInner x totalSkip n (list.set (j + skip) (list.getD j default)) skip

/-- The outer loop of `LastUniqueStrings`: `i = top - 1` runs down while
`i ≥ totalSkip`. -/
def lastUniqueOuter : ℕ → List α → ℕ → List α × ℕ
  | 0, list, totalSkip => (list, totalSkip)
  | top + 1, list, totalSkip =>
    if totalSkip ≤ top then
      let (list, skip) :=
        lastUniqueInner (list.getD top default) totalSkip (top - totalSkip) list 0
      lastUniqueOuter top list (totalSkip + skip)
    else (list, totalSkip)

/-- `LastUniqueStrings` on values of any type Go compares with `==`; it is the
same code as `LastUniquePaths`. -/
def lastUnique (list : List α) : List α :=
  let (list, totalSkip) := lastUniqueOuter list.length list 0
  list.drop totalSkip

/-- `LastUniqueStrings`. -/
def LastUniqueStrings (list : List String) : List String := lastUnique list

omit [DecidableEq α] [Inhabited α] in
theorem getD_middle (P Q : List α) (y d : α) : (P ++ y :: Q).getD P.length d = y := by
  simp

omit [DecidableEq α] [Inhabited α] in
/-- The write of the inner loop: the last of the `skip` stale places before the
values already moved gets the value. -/
theorem set_middle (P G Q : List α) (y z : α) :
    (P ++ (y :: G) ++ Q).set (P.length + G.length) z = P ++ ((y :: G).take G.length ++ [z]) ++ Q := by
  have hlt : G.length < (y :: G).length := by simp
  rw [List.set_append, if_pos (by simp), List.set_append, if_neg (by omega),
    Nat.add_sub_cancel_left, List.set_eq_take_append_cons_drop, if_pos hlt]
  simp

/-- **The inner loop moves the values other than `x` to the right end of the
segment, in order, and counts the copies of `x`.**  Before a pass the list is
the untouched prefix `A`, the part `U` still to read, `skip` stale places `G`,
the values `F` already moved and the rest `B`.  The induction reads `U` from
its end, as the loop does. -/
theorem lastUniqueInner_spec (x : α) (A B : List α) (U : List α) :
    ∀ (G F : List α) (skip : ℕ), G.length = skip →
      ∃ G', G'.length = skip + U.count x ∧
        lastUniqueInner x A.length U.length (A ++ U ++ G ++ F ++ B) skip =
          (A ++ G' ++ (U.filter (· ≠ x) ++ F) ++ B, skip + U.count x) := by
  induction U using List.reverseRecOn with
  | nil =>
    intro G F skip hG
    exact ⟨G, by simp [hG], by simp [lastUniqueInner]⟩
  | append_singleton U y ih =>
    intro G F skip hG
    have hread : (A ++ (U ++ [y]) ++ G ++ F ++ B).getD (A.length + U.length) default = y := by
      simp
    rw [List.length_append, List.length_singleton, lastUniqueInner]
    simp only [hread]
    by_cases hxy : x = y
    · -- a copy of `x`: its place becomes stale
      subst hxy
      rw [if_pos rfl]
      obtain ⟨G', hG', heq⟩ := ih (x :: G) F (skip + 1) (by simp [hG])
      refine ⟨G', by rw [hG', List.count_append]; simp; omega, ?_⟩
      have hlist : A ++ (U ++ [x]) ++ G ++ F ++ B = A ++ U ++ (x :: G) ++ F ++ B := by simp
      rw [hlist, heq]
      simp [List.count_append]
      omega
    · -- another value: written `skip` places to the right
      rw [if_neg hxy]
      have hset : (A ++ (U ++ [y]) ++ G ++ F ++ B).set (A.length + U.length + skip) y =
          A ++ U ++ (y :: G).take G.length ++ (y :: F) ++ B := by
        have := set_middle (A ++ U) G (F ++ B) y y
        simp only [List.length_append, hG, List.append_assoc, List.cons_append] at this ⊢
        exact this
      obtain ⟨G', hG', heq⟩ := ih ((y :: G).take G.length) (y :: F) skip (by simp [hG])
      refine ⟨G', by rw [hG', List.count_append]; simp [Ne.symm hxy], ?_⟩
      rw [hset, heq]
      simp [List.filter_append, Ne.symm hxy, List.count_append]

/-- **The outer loop keeps the last copy of every value.**  Before a pass the
list is the stale prefix `A`, the part `W` still to process and the values `D`
already kept: `D` has no repeats and nothing of `W`, and the last copies of the
original list are those of `W` followed by `D`.  The induction is on `top`,
which every pass lowers by one. -/
theorem lastUniqueOuter_spec (orig : List α) (top : ℕ) :
    ∀ (A W D : List α), A.length + W.length = top → D.Nodup → (∀ y ∈ W, y ∉ D) →
      orig.dedup = W.dedup ++ D →
      ∃ A', lastUniqueOuter top (A ++ W ++ D) A.length = (A' ++ orig.dedup, A'.length) := by
  induction top with
  | zero =>
    intro A W D hlen _ _ hdedup
    have hA : A = [] := List.eq_nil_of_length_eq_zero (by omega)
    have hW : W = [] := List.eq_nil_of_length_eq_zero (by omega)
    subst hA hW
    exact ⟨[], by simp [lastUniqueOuter, hdedup]⟩
  | succ top ih =>
    intro A W D hlen hD hWD hdedup
    by_cases hstop : A.length ≤ top
    · -- a pass: `W` ends with the value `x` at `i = top`
      obtain ⟨W, x, rfl⟩ : ∃ W' x, W = W' ++ [x] := by
        rcases List.eq_nil_or_concat W with rfl | ⟨W', x, rfl⟩
        · simp at hlen; omega
        · exact ⟨W', x, List.concat_eq_append ▸ rfl⟩
      simp only [List.length_append, List.length_singleton] at hlen
      have hread : (A ++ (W ++ [x]) ++ D).getD top default = x := by
        have := getD_middle (A ++ W) D x default
        simp only [List.length_append, List.append_assoc, List.cons_append,
          List.nil_append] at this ⊢
        rwa [show top = A.length + W.length by omega]
      have hsplit : A ++ (W ++ [x]) ++ D = A ++ W ++ [] ++ [] ++ (x :: D) := by simp
      obtain ⟨G', hG', hinner⟩ := lastUniqueInner_spec x A (x :: D) W [] [] 0 rfl
      rw [lastUniqueOuter, if_pos hstop, hread, hsplit, show top - A.length = W.length by omega,
        hinner]
      simp only [List.append_nil, Nat.zero_add]
      -- the next pass: `x` joins the kept values, its other copies are gone
      have hxD : x ∉ D := hWD x (by simp)
      obtain ⟨A', hA'⟩ := ih (A ++ G') (W.filter (· ≠ x)) (x :: D)
        (by rw [List.length_append, hG']; have := List.length_filter_ne_add_count W x; omega)
        (List.nodup_cons.mpr ⟨hxD, hD⟩)
        (fun y hy => by
          obtain ⟨hyW, hyx⟩ := List.mem_filter.mp hy
          simp only [List.mem_cons, not_or]
          exact ⟨by simpa using hyx, hWD y (by simp [hyW])⟩)
        (by rw [hdedup, List.dedup_append_singleton]; simp)
      refine ⟨A', ?_⟩
      rw [← hA', List.length_append, hG']
      simp [List.append_assoc]
    · -- nothing left to process
      have hW : W = [] := List.eq_nil_of_length_eq_zero (by omega)
      subst hW
      refine ⟨A, ?_⟩
      rw [lastUniqueOuter, if_neg hstop]
      simp [hdedup]

/-- **`LastUniqueStrings` keeps the last copy of every value, in order**: it is
`List.dedup`. -/
theorem lastUnique_eq_dedup (list : List α) : lastUnique list = list.dedup := by
  obtain ⟨A', hA'⟩ := lastUniqueOuter_spec list list.length [] list [] (by simp) List.nodup_nil
    (by simp) (by simp)
  simp only [List.nil_append, List.append_nil, List.length_nil] at hA'
  simp [lastUnique, hA']

example : LastUniqueStrings ["liblog", "libdl", "libc++", "libdl", "libc", "libm"] =
    ["liblog", "libc++", "libdl", "libc", "libm"] := by decide

end LastUnique

end Soong
