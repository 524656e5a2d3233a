import Soong.Lib.GoPath
import Soong.Lib.GoText

/-!
# Expanding `$(var)` references

`android/expand.go`.  `expand` copies a string, passing the name of each
reference `$(name)` to a mapping and writing its value in place of the
reference; `$$` is written as one `$`.  `ExpandNinjaEscaped` also escapes each
value for ninja, unless the mapping says it is a ninja variable, and `Expand`
takes a mapping with no such flag.

The mapping is Go code that may do anything, so the model takes it in any monad
`m`: a mapping is a function to `ExceptT String m`, its error being Go's error
value.  A statement that holds for every `m` holds for a mapping that records
its calls, so `Expand_ReplaceAll` says that `Expand` of a string with every `$`
doubled calls no mapping at all.

`expand` writes the text between references as it is and escapes only the
values; escaping the whole output instead gives the same string because the
text between references has no `$`.  So for a mapping that never reports a
ninja variable, `ExpandNinjaEscaped` is `NinjaEscape` of `Expand`, with the same
calls of the mapping and the same errors.

`proptools.NinjaEscape` is blueprint code, not in this repository: the model
takes it as a parameter `NinjaEscape`, and the results that escape assume of it
only that it doubles every `$` and changes nothing else.

Strings are read as characters: `$`, `(` and `)` are single bytes, so the scan
cuts where Go's byte scan does.

## Main definitions

* `getMapping`, `expandLoop`, `expand`, `ExpandNinjaEscaped`, `Expand`.

## Main results

* `expandLoop_acc` — the loop's buffer and pending text are prefixes of its
  output.
* `expandLoop_escape` — with no ninja variables, the escaping loop escapes the
  output of the plain one.
* `expandLoop_doubled` — on a text with every `$` doubled, the loop gives the
  text back and calls nothing.
* `ExpandNinjaEscaped_eq`, `Expand_ReplaceAll` — the same for `ExpandNinjaEscaped`
  and `Expand`.
-/

namespace Soong

section Expand

variable {m : Type → Type} [Monad m] (NinjaEscape : String → String)

/-- The character `%c` prints for the byte `s[0]`: the first byte of the UTF-8
encoding of `c`, as a code point. -/
def firstByte (c : Char) : Char := Char.ofNat ((String.utf8EncodeChar c).headD 0).toNat

/-- `getMapping` of `c :: s`, the text after a `$`: the value of the reference
it starts with, whether that is a ninja variable, and the width `w` of the
reference after the `$`. -/
def getMapping (c : Char) (s : List Char) (mapping : String → ExceptT String m (String × Bool)) :
    ExceptT String m (String × Bool × ℕ) :=
  match c with
  | '(' =>
    -- scan to the closing brace
    if ')' ∈ s then do
      let name := s.takeWhile (· ≠ ')')
      let (ret, ninjaVariable) ← mapping (strings.TrimSpace (String.ofList name))
      pure (ret, ninjaVariable, name.length + 2)
    else throw "missing )"
  | '$' => pure ("$", false, 1)
  | _ =>
    let i := strings.IndexFunc (String.ofList (c :: s)) unicode.IsSpace
    if i = 0 then throw ("unexpected character '" ++ (firstByte c).toString ++ "' after '$'")
    else
      let i := if i = -1 then (c :: s).length else i.toNat
      throw ("expected '(' after '$', did you mean $(" ++ String.ofList ((c :: s).take i) ++ ")?")

/-- The loop of `expand` from byte `j` on: `rest` is `s[j:]`, `run` is
`s[i:j]`, the text since the end of the last reference, and `buf` what is
written before it. -/
def expandLoop (ninjaEscape : Bool) (mapping : String → ExceptT String m (String × Bool)) :
    List Char → List Char → List Char → ExceptT String m (List Char)
  | [], run, buf => pure (buf ++ run)
  | c :: rest, run, buf =>
    if c = '$' then
      match rest with
      | [] => throw "expected character after '$'"
      | c' :: rest' => do
        let buf := buf ++ run
        let (value, ninjaVariable, w) ← getMapping c' rest' mapping
        let value := if !ninjaVariable && ninjaEscape then NinjaEscape value else value
        -- `j += w; i = j + 1` and the loop's `j++`: on past the reference
        expandLoop ninjaEscape mapping ((c' :: rest').drop w) [] (buf ++ value.toList)
    else expandLoop ninjaEscape mapping rest (run ++ [c]) buf
termination_by rest => rest.length
decreasing_by
  all_goals simp only [List.length_drop, List.length_cons]
  all_goals omega

def expand (s : String) (ninjaEscape : Bool)
    (mapping : String → ExceptT String m (String × Bool)) : ExceptT String m String :=
  String.ofList <$> expandLoop NinjaEscape ninjaEscape mapping s.toList [] []

def ExpandNinjaEscaped (s : String) (mapping : String → ExceptT String m (String × Bool)) :
    ExceptT String m String :=
  expand NinjaEscape s true mapping

def Expand (s : String) (mapping : String → ExceptT String m String) : ExceptT String m String :=
  expand NinjaEscape s false fun s => (fun r => (r, false)) <$> mapping s

end Expand

/-! ### The loop, one reference at a time -/

/-- What `NinjaEscape` does to characters: each `$` doubled, nothing else
changed. -/
def ninjaEscapeChars (l : List Char) : List Char :=
  l.flatMap fun c => if c = '$' then ['$', '$'] else [c]

@[simp] theorem ninjaEscapeChars_nil : ninjaEscapeChars [] = [] := rfl

@[simp] theorem ninjaEscapeChars_append (l l' : List Char) :
    ninjaEscapeChars (l ++ l') = ninjaEscapeChars l ++ ninjaEscapeChars l' := by
  simp [ninjaEscapeChars]

@[simp] theorem ninjaEscapeChars_cons (c : Char) (l : List Char) :
    ninjaEscapeChars (c :: l) = (if c = '$' then ['$', '$'] else [c]) ++ ninjaEscapeChars l := by
  simp [ninjaEscapeChars]

theorem toList_ReplaceAll_dollar (t : String) :
    (strings.ReplaceAll t '$' "$$").toList = ninjaEscapeChars t.toList := by
  simp [strings.ReplaceAll, ninjaEscapeChars]

section Loop

variable {m : Type → Type} [Monad m] (NinjaEscape : String → String) (ninjaEscape : Bool)
  (mapping : String → ExceptT String m (String × Bool))

theorem expandLoop_nil (run buf : List Char) :
    expandLoop NinjaEscape ninjaEscape mapping [] run buf = pure (buf ++ run) := by
  rw [expandLoop]

theorem expandLoop_char {c : Char} (hc : c ≠ '$') (rest run buf : List Char) :
    expandLoop NinjaEscape ninjaEscape mapping (c :: rest) run buf =
      expandLoop NinjaEscape ninjaEscape mapping rest (run ++ [c]) buf := by
  rw [expandLoop.eq_def]
  dsimp only
  rw [if_neg hc]

theorem expandLoop_dollar_end (run buf : List Char) :
    expandLoop NinjaEscape ninjaEscape mapping ['$'] run buf = throw "expected character after '$'" := by
  rw [expandLoop, if_pos rfl]

theorem expandLoop_dollar (c : Char) (rest run buf : List Char) :
    expandLoop NinjaEscape ninjaEscape mapping ('$' :: c :: rest) run buf =
      getMapping c rest mapping >>= fun p =>
        expandLoop NinjaEscape ninjaEscape mapping ((c :: rest).drop p.2.2) []
          (buf ++ run ++
            (if !p.2.1 && ninjaEscape then NinjaEscape p.1 else p.1).toList) := by
  rw [expandLoop, if_pos rfl]

/-- The text after a reference is shorter than the text from its `$` on. -/
theorem length_drop_lt (c : Char) (rest : List Char) (w : ℕ) :
    ((c :: rest).drop w).length < ('$' :: c :: rest).length := by
  simp only [List.length_drop, List.length_cons]
  omega

variable [LawfulMonad m]

/-- **The buffer and the text since the last reference are written first.**
The induction is on the length of the text left, which every pass shortens. -/
theorem expandLoop_acc (rest run buf : List Char) :
    expandLoop NinjaEscape ninjaEscape mapping rest run buf =
      (fun out => buf ++ run ++ out) <$> expandLoop NinjaEscape ninjaEscape mapping rest [] [] := by
  induction hn : rest.length using Nat.strong_induction_on generalizing rest run buf with
  | _ n ih =>
    match rest with
    | [] => simp [expandLoop_nil]
    | c :: rest =>
      by_cases hc : c = '$'
      · subst hc
        match rest with
        | [] => simp [expandLoop_dollar_end]
        | c :: rest =>
          -- a reference: the text after it is shorter by the `$` at least
          rw [expandLoop_dollar, expandLoop_dollar, map_bind]
          congr 1
          funext p
          set v := (if !p.2.1 && ninjaEscape then NinjaEscape p.1 else p.1).toList
          have hlt : ((c :: rest).drop p.2.2).length < n := hn ▸ length_drop_lt c rest p.2.2
          rw [ih _ hlt _ [] (buf ++ run ++ v) rfl, ih _ hlt _ [] ([] ++ [] ++ v) rfl,
            Functor.map_map]
          simp
      · have hlt : rest.length < n := by simp [← hn]
        rw [expandLoop_char _ _ _ hc, expandLoop_char _ _ _ hc, ih _ hlt _ _ _ rfl,
          ih _ hlt _ ([] ++ [c]) [] rfl, Functor.map_map]
        simp

/-- With a mapping that never reports a ninja variable, neither does
`getMapping`. -/
theorem getMapping_flag {mapping : String → ExceptT String m (String × Bool)}
    (hmap : ∀ v, (fun r => (r.1, false)) <$> mapping v = mapping v) (c : Char)
    (rest : List Char) :
    (fun p => (p.1, false, p.2.2)) <$> getMapping c rest mapping = getMapping c rest mapping := by
  unfold getMapping
  split
  · split_ifs
    · -- a reference `$(name)`: the flag is the mapping's
      dsimp only
      rw [map_bind]
      conv_rhs => rw [← hmap, bind_map_left]
      simp
    · simp
  · simp
  · dsimp only
    split_ifs <;> simp

/-- **With no ninja variables, the escaping loop escapes the output of the
plain one**: the text between references is written unescaped, and it has no
`$`.  The induction is on the length of the text left. -/
theorem expandLoop_escape (hesc : ∀ s, (NinjaEscape s).toList = ninjaEscapeChars s.toList)
    {mapping : String → ExceptT String m (String × Bool)}
    (hmap : ∀ v, (fun r => (r.1, false)) <$> mapping v = mapping v) (rest : List Char) :
    expandLoop NinjaEscape true mapping rest [] [] =
      ninjaEscapeChars <$> expandLoop NinjaEscape false mapping rest [] [] := by
  induction hn : rest.length using Nat.strong_induction_on generalizing rest with
  | _ n ih =>
    match rest with
    | [] => simp [expandLoop_nil]
    | c :: rest =>
      by_cases hc : c = '$'
      · subst hc
        match rest with
        | [] => simp [expandLoop_dollar_end]
        | c :: rest =>
          -- a reference: its value is escaped here and in the escaped output alike
          rw [expandLoop_dollar, expandLoop_dollar, ← getMapping_flag hmap, bind_map_left,
            bind_map_left, map_bind]
          congr 1
          funext p
          have hlt : ((c :: rest).drop p.2.2).length < n := hn ▸ length_drop_lt c rest p.2.2
          rw [expandLoop_acc _ true, expandLoop_acc _ false, ih _ hlt _ rfl, Functor.map_map,
            Functor.map_map]
          simp [hesc]
      · -- a character of the text: it is not a `$`, so escaping keeps it
        have hlt : rest.length < n := by simp [← hn]
        rw [expandLoop_char _ _ _ hc, expandLoop_char _ _ _ hc, expandLoop_acc _ _ _ _ ([] ++ [c]),
          expandLoop_acc _ _ _ _ ([] ++ [c]), ih _ hlt _ rfl, Functor.map_map, Functor.map_map]
        simp [hc]

/-- **A text with every `$` doubled comes back**: each `$$` is one `$`, and no
mapping is called.  The induction is on the text. -/
theorem expandLoop_doubled (l : List Char) :
    expandLoop NinjaEscape false mapping (ninjaEscapeChars l) [] [] = pure l := by
  induction l with
  | nil => simp [expandLoop_nil]
  | cons c l ih =>
    by_cases hc : c = '$'
    · subst hc
      -- `$$` is a reference of width one whose value is `$`
      rw [ninjaEscapeChars_cons, if_pos rfl, List.cons_append, List.cons_append, List.nil_append,
        expandLoop_dollar]
      simp only [getMapping, pure_bind, List.drop_one, List.tail_cons, Bool.not_false,
        Bool.true_and, Bool.false_eq_true, ↓reduceIte]
      rw [expandLoop_acc, ih]
      simp
    · rw [ninjaEscapeChars_cons, if_neg hc, List.singleton_append, expandLoop_char _ _ _ hc,
        expandLoop_acc, ih]
      simp

end Loop

/-! ### `ExpandNinjaEscaped` and `Expand` -/

section Escaped

variable {m : Type → Type} [Monad m] [LawfulMonad m] (NinjaEscape : String → String)

/-- **For a mapping that never reports a ninja variable, `ExpandNinjaEscaped`
is `NinjaEscape` of `Expand`** with the same mapping: the same calls, the same
errors, and on success the escaped text. -/
theorem ExpandNinjaEscaped_eq (hesc : ∀ s, (NinjaEscape s).toList = ninjaEscapeChars s.toList)
    {mapping : String → ExceptT String m (String × Bool)}
    (hmap : ∀ v, (fun r => (r.1, false)) <$> mapping v = mapping v) (s : String) :
    ExpandNinjaEscaped NinjaEscape s mapping =
      NinjaEscape <$> Expand NinjaEscape s (fun v => Prod.fst <$> mapping v) := by
  -- `Expand` gives the string part back to a mapping with the flag `false`
  have hflag : (fun v => (fun r => (r, false)) <$> (Prod.fst <$> mapping v)) = mapping :=
    funext fun v => by rw [Functor.map_map]; exact hmap v
  rw [ExpandNinjaEscaped, Expand, expand, expand, hflag, expandLoop_escape _ hesc hmap,
    Functor.map_map, Functor.map_map]
  congr 1
  funext out
  apply String.ext
  simp [hesc]

/-- **`Expand` of a text with every `$` doubled is the text**, whatever the
mapping, and it calls no mapping. -/
theorem Expand_ReplaceAll (t : String) (mapping : String → ExceptT String m String) :
    Expand NinjaEscape (strings.ReplaceAll t '$' "$$") mapping = pure t := by
  rw [Expand, expand, toList_ReplaceAll_dollar, expandLoop_doubled]
  simp

/-- For an escaper that doubles every `$` and changes nothing else,
`ExpandNinjaEscaped` agrees with `NinjaEscape` of `Expand` for every mapping
that never reports a ninja variable, and `Expand` undoes the doubling of `$`
without calling the mapping; both in every monad the mapping may run in. -/
theorem ExpandNinjaEscaped_of_no_ninja_variables
    (hesc : ∀ s, (NinjaEscape s).toList = ninjaEscapeChars s.toList) :
    (∀ (s : String) (mapping : String → ExceptT String m (String × Bool)),
        (∀ v, (fun r => (r.1, false)) <$> mapping v = mapping v) →
        ExpandNinjaEscaped NinjaEscape s mapping =
          NinjaEscape <$> Expand NinjaEscape s (fun v => Prod.fst <$> mapping v)) ∧
      ∀ (t : String) (mapping : String → ExceptT String m String),
        Expand NinjaEscape (strings.ReplaceAll t '$' "$$") mapping = pure t :=
  ⟨fun s _ hmap => ExpandNinjaEscaped_eq NinjaEscape hesc hmap s, Expand_ReplaceAll NinjaEscape⟩

end Escaped

/-- The escaper that writes each character through `ninjaEscapeChars`, and a
mapping that returns each name as its value, never a ninja variable. -/
theorem ExpandNinjaEscaped_of_no_ninja_variables_pure :
    (∀ s : String, (String.ofList (ninjaEscapeChars s.toList)).toList = ninjaEscapeChars s.toList) ∧
    (∀ v : String,
      (fun r => (r.1, false)) <$> (pure (v, false) : ExceptT String Id (String × Bool)) =
        pure (v, false)) ∧
      ExpandNinjaEscaped (fun s : String => String.ofList (ninjaEscapeChars s.toList)) "$(x)$$"
          (fun v => (pure (v, false) : ExceptT String Id (String × Bool))) =
        (fun s : String => String.ofList (ninjaEscapeChars s.toList)) <$>
          Expand (fun s : String => String.ofList (ninjaEscapeChars s.toList)) "$(x)$$"
            (fun v => Prod.fst <$> (pure (v, false) : ExceptT String Id (String × Bool))) :=
  ⟨fun _ => String.toList_ofList, fun _ => by simp,
    (ExpandNinjaEscaped_of_no_ninja_variables (m := Id) _ fun _ => String.toList_ofList).1 _ _
      fun _ => by simp⟩

end Soong
