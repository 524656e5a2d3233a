import Mathlib.Data.List.ModifyLast
import Soong.Androidmk.MakeStrings

/-!
# The words of a make string

`MakeString.Words` (`androidmk/parser/make_strings.go`) is a character state
machine: it skips blanks, copies a word up to the next unescaped blank, takes a
backslash together with the character after it, and appends a variable where a
raw string ends.  What it computes is stated here apart from that machine.

A make string is read as a sequence of **tokens**: a raw character, an escape
pair `\c`, or a variable.  The tokens of one raw string are its characters
paired off from the left (`chunkTokens`); a raw string whose pairing leaves a
lone backslash at its end (`escapesPaired` false) is one the parser does not
produce.  The words are then the maximal non-empty runs of tokens between raw
blanks — `strings.FieldsFunc` over the tokens — each built back into a make
string by the same appends the machine makes (`ofTokens`).

## Main definitions

* `WordToken`, `chunkTokens`, `escapesPaired`, `MakeString.tokens`.
* `ofTokens` — the make string a run of tokens is built into.

## Main results

* `wordsLoop_fields` — the invariant of the machine: from any point of the walk
  it returns the runs of what is left, the word it holds included.
* `Words_eq_map_ofTokens` — `Words` is the runs of the tokens, built back.
* `tokens_ofTokens` — a run built back has that run as its tokens.
-/

namespace Soong

namespace Androidmk

open MakeString

/-! ### Tokens -/

/-- A token of a make string: a raw character, a backslash with the character
after it, or a variable. -/
inductive WordToken where
  | raw (c : Char)
  | esc (c : Char)
  | var (v : Variable)

namespace WordToken

/-- The separators of `Words`: an unescaped space or tab. -/
def isBlank : WordToken → Bool
  | raw ' ' => true
  | raw '\t' => true
  | _ => false

/-- The variable a token is, if it is one. -/
def var? : WordToken → Option Variable
  | var v => some v
  | _ => none

@[simp] theorem isBlank_esc (c : Char) : (esc c).isBlank = false := rfl

theorem isBlank_raw_of_ne {c : Char} (hs : c ≠ ' ') (ht : c ≠ '\t') : (raw c).isBlank = false := by
  rw [isBlank.eq_def]
  split <;> simp_all

@[simp] theorem isBlank_var (v : Variable) : (var v).isBlank = false := rfl

@[simp] theorem var?_raw (c : Char) : (raw c).var? = none := rfl

@[simp] theorem var?_esc (c : Char) : (esc c).var? = none := rfl

@[simp] theorem var?_var (v : Variable) : (var v).var? = some v := rfl

theorem var?_eq_none_of_isBlank {t : WordToken} (h : t.isBlank = true) : t.var? = none := by
  cases t <;> simp_all [isBlank]

end WordToken

open WordToken

/-- The tokens of a raw string: its characters paired off from the left, a
backslash taking the character after it. -/
def chunkTokens : List Char → List WordToken
  | '\\' :: c :: r => esc c :: chunkTokens r
  | c :: r => raw c :: chunkTokens r
  | [] => []

/-- The pairing of a raw string leaves no lone backslash at its end. -/
def escapesPaired : List Char → Bool
  | '\\' :: _ :: r => escapesPaired r
  | ['\\'] => false
  | _ :: r => escapesPaired r
  | [] => true

@[simp] theorem chunkTokens_backslash_cons (c : Char) (r : List Char) :
    chunkTokens ('\\' :: c :: r) = esc c :: chunkTokens r := rfl

theorem chunkTokens_cons_of_ne {c : Char} (hc : c ≠ '\\') (r : List Char) :
    chunkTokens (c :: r) = raw c :: chunkTokens r := by
  rw [chunkTokens.eq_def]
  split <;> simp_all

theorem escapesPaired_cons_of_ne {c : Char} (hc : c ≠ '\\') (r : List Char) :
    escapesPaired (c :: r) = escapesPaired r := by
  rw [escapesPaired.eq_def]
  split <;> simp_all

/-- The last clause of `chunkTokens` and `escapesPaired` is a character that
starts no pair. -/
theorem ne_backslash_of_not_pair {c : Char} {r : List Char}
    (hne : ∀ d r', c = '\\' → r = d :: r' → False) (hc : c = '\\' → r = [] → False) :
    c ≠ '\\' := by
  intro h
  cases r with
  | nil => exact hc h rfl
  | cons d r => exact hne d r h rfl

section paired

variable {l : List Char} (hl : escapesPaired l = true)
include hl

/-- A paired raw string tokenizes apart from what follows it. -/
theorem chunkTokens_append (m : List Char) : chunkTokens (l ++ m) = chunkTokens l ++ chunkTokens m := by
  fun_induction escapesPaired l with
  | case1 c r ih => simp [ih hl]
  | case2 => cases hl
  | case3 c r hne hc ih =>
    have hc' := ne_backslash_of_not_pair hne hc
    rw [List.cons_append, chunkTokens_cons_of_ne hc', chunkTokens_cons_of_ne hc', ih hl,
      List.cons_append]
  | case4 => rfl

theorem escapesPaired_append (m : List Char) : escapesPaired (l ++ m) = escapesPaired m := by
  fun_induction escapesPaired l with
  | case1 c r ih => exact ih hl
  | case2 => cases hl
  | case3 c r hne hc ih =>
    have hc' := ne_backslash_of_not_pair hne hc
    rw [List.cons_append, escapesPaired_cons_of_ne hc', ih hl]
  | case4 => rfl

/-- A paired raw string has no lone backslash among its tokens. -/
theorem raw_backslash_not_mem_chunkTokens : raw '\\' ∉ chunkTokens l := by
  fun_induction escapesPaired l with
  | case1 c r ih => simpa using ih hl
  | case2 => cases hl
  | case3 c r hne hc ih =>
    have hc' := ne_backslash_of_not_pair hne hc
    simpa [chunkTokens_cons_of_ne hc', hc'.symm] using ih hl
  | case4 => simp [chunkTokens]

end paired

/-- The reading of the parser's raw strings in which every backslash is
followed by a character of the same string pairs them all off: only a
backslash at the end is left alone. -/
theorem escapesPaired_of_getLast? {l : List Char} (h : l.getLast? ≠ some '\\') :
    escapesPaired l = true := by
  fun_induction escapesPaired l with
  | case1 c r ih =>
    apply ih
    cases r with
    | nil => simp
    | cons d r => simpa using h
  | case2 => simp at h
  | case3 c r hne hc ih =>
    apply ih
    cases r with
    | nil => simp
    | cons d r => simpa [List.getLast?_cons_cons] using h
  | case4 => rfl

/-- Every backslash followed by a character of the same string: the raw
strings the parser produces. -/
theorem escapesPaired_of_followed {l : List Char}
    (h : ∀ i (hi : i < l.length), l[i] = '\\' → i + 1 < l.length) : escapesPaired l = true := by
  apply escapesPaired_of_getLast?
  intro hlast
  rw [List.getLast?_eq_getElem?] at hlast
  obtain ⟨hi, hlast⟩ := List.getElem?_eq_some_iff.1 hlast
  have := h (l.length - 1) hi hlast
  omega

/-- The tokens of a make string: its raw strings' tokens with its variables
between them. -/
def MakeString.tokens (ms : MakeString) : List WordToken :=
  chunkTokens ms.first.toList ++ ms.rest.flatMap fun (v, s) => var v :: chunkTokens s.toList

/-- The append `Words` makes for a token. -/
def appendToken (word : MakeString) : WordToken → MakeString
  | raw c => word.appendString (String.singleton c)
  | esc c => (word.appendString "\\").appendString (String.singleton c)
  | var v => word.appendVariable v

/-- The make string `Words` builds from a run of tokens, starting from an empty
word at `pos`. -/
def ofTokens (pos : ℤ) (ts : List WordToken) : MakeString :=
  ts.foldl appendToken (SimpleMakeString "" pos)

/-! ### Building a word -/

namespace MakeString

variable (pos : ℤ) (first : String) (rest : List (Variable × String)) (v : Variable) (s : String)

theorem modifyLast_mk_concat (f : String → String) :
    (mk pos first (rest ++ [(v, s)])).modifyLast f = mk pos first (rest ++ [(v, f s)]) := by
  rw [modifyLast.eq_2 _ _ _ _ (by simp), List.modifyLast_concat]

@[simp] theorem last_mk_nil : (mk pos first []).last = first := rfl

@[simp] theorem last_mk_concat : (mk pos first (rest ++ [(v, s)])).last = s := by
  simp [last]

@[simp] theorem tokens_mk_concat :
    (mk pos first (rest ++ [(v, s)])).tokens =
      (mk pos first rest).tokens ++ var v :: chunkTokens s.toList := by
  simp [tokens]

variable {pos first rest v s}

/-- Every make string is its first raw string alone, or ends in a variable and
the raw string after it. -/
theorem eq_mk_nil_or_concat (ms : MakeString) :
    (∃ pos first, ms = mk pos first []) ∨
      ∃ pos first rest v s, ms = mk pos first (rest ++ [(v, s)]) := by
  obtain ⟨pos, first, rest⟩ := ms
  rcases List.eq_nil_or_concat rest with rfl | ⟨rest, ⟨v, s⟩, rfl⟩
  · exact Or.inl ⟨pos, first, rfl⟩
  · exact Or.inr ⟨pos, first, rest, v, s, by rw [List.concat_eq_append]⟩

variable (ms : MakeString)

@[simp] theorem StringPos_appendString : (ms.appendString s).StringPos = ms.StringPos := by
  rcases eq_mk_nil_or_concat ms with ⟨pos, first, rfl⟩ | ⟨pos, first, rest, v, s', rfl⟩
  · rfl
  · simp [appendString, modifyLast_mk_concat]

@[simp] theorem StringPos_appendVariable : (ms.appendVariable v).StringPos = ms.StringPos := rfl

@[simp] theorem last_appendString : (ms.appendString s).last = ms.last ++ s := by
  rcases eq_mk_nil_or_concat ms with ⟨pos, first, rfl⟩ | ⟨pos, first, rest, v, s', rfl⟩
  · rfl
  · simp [appendString, modifyLast_mk_concat]

@[simp] theorem last_appendVariable : (ms.appendVariable v).last = "" := by
  simp [appendVariable, last]

@[simp] theorem tokens_appendVariable : (ms.appendVariable v).tokens = ms.tokens ++ [var v] := by
  simp [appendVariable, tokens, chunkTokens]

/-- Text appended to a make string whose last raw string is paired adds its
own tokens. -/
theorem tokens_appendString (h : escapesPaired ms.last.toList = true) :
    (ms.appendString s).tokens = ms.tokens ++ chunkTokens s.toList := by
  rcases eq_mk_nil_or_concat ms with ⟨pos, first, rfl⟩ | ⟨pos, first, rest, v, s', rfl⟩
  · simp only [last_mk_nil] at h
    simp [appendString, modifyLast, tokens, chunkTokens_append h]
  · simp only [last_mk_concat] at h
    simp [appendString, modifyLast_mk_concat, chunkTokens_append h]

theorem Empty_appendString (hs : s ≠ "") : (ms.appendString s).Empty = false := by
  rcases eq_mk_nil_or_concat ms with ⟨pos, first, rfl⟩ | ⟨pos, first, rest, v, s', rfl⟩
  · simp [appendString, modifyLast, Empty, hs]
  · simp [appendString, modifyLast_mk_concat, Empty]

theorem appendString_appendString (a b : String) :
    (ms.appendString a).appendString b = ms.appendString (a ++ b) := by
  rcases eq_mk_nil_or_concat ms with ⟨pos, first, rfl⟩ | ⟨pos, first, rest, v, s', rfl⟩
  · simp [appendString, modifyLast, String.append_assoc]
  · simp [appendString, modifyLast_mk_concat, String.append_assoc]

/-- A make string of paired raw strings has no lone backslash among its
tokens. -/
theorem raw_backslash_not_mem_tokens (h : ∀ s ∈ ms.Strings, escapesPaired s.toList = true) :
    raw '\\' ∉ ms.tokens := by
  simp only [tokens, List.mem_append, List.mem_flatMap, List.mem_cons, reduceCtorEq, false_or,
    not_or, not_exists, not_and]
  refine ⟨raw_backslash_not_mem_chunkTokens (h _ List.mem_cons_self), fun p hp => ?_⟩
  exact raw_backslash_not_mem_chunkTokens
    (h p.2 (List.mem_cons_of_mem _ (List.mem_map_of_mem hp)))

/-- The variables of a make string are the variable tokens among its tokens. -/
theorem Variables_eq_filterMap_tokens : ms.Variables = ms.tokens.filterMap WordToken.var? := by
  have hchunk (l : List Char) : (chunkTokens l).filterMap WordToken.var? = [] := by
    fun_induction chunkTokens l <;> simp_all
  simp [Variables, tokens, List.filterMap_flatMap, hchunk, List.map_eq_flatMap]

end MakeString

theorem appendToken_esc (word : MakeString) (c : Char) :
    (word.appendString "\\").appendString (String.singleton c) = appendToken word (esc c) := rfl

theorem ofTokens_concat (pos : ℤ) (ts : List WordToken) (t : WordToken) :
    ofTokens pos (ts ++ [t]) = appendToken (ofTokens pos ts) t := by
  simp [ofTokens]

theorem Empty_appendToken (word : MakeString) (t : WordToken) : (appendToken word t).Empty = false := by
  cases t with
  | raw c => exact word.Empty_appendString (by simp [← String.toList_inj])
  | esc c => exact MakeString.Empty_appendString _ (by simp [← String.toList_inj])
  | var v => simp [appendToken, appendVariable, MakeString.Empty]

/-- A built word is empty exactly when it has no tokens. -/
theorem Empty_ofTokens (pos : ℤ) (ts : List WordToken) : (ofTokens pos ts).Empty = ts.isEmpty := by
  rcases List.eq_nil_or_concat ts with rfl | ⟨ts, t, rfl⟩
  · rfl
  · simp [ofTokens_concat, Empty_appendToken]

theorem StringPos_foldl_appendToken (ts : List WordToken) (word : MakeString) :
    (ts.foldl appendToken word).StringPos = word.StringPos := by
  induction ts generalizing word with
  | nil => rfl
  | cons t ts ih =>
    rw [List.foldl_cons, ih]
    cases t <;> simp [appendToken]

@[simp] theorem Pos_ofTokens (pos : ℤ) (ts : List WordToken) : (ofTokens pos ts).Pos = pos :=
  StringPos_foldl_appendToken ts _

theorem appendVariableOpt_ofTokens (pos : ℤ) (ts : List WordToken) (v : Option Variable) :
    appendVariableOpt (ofTokens pos ts) v = ofTokens pos (ts ++ (v.map var).toList) := by
  cases v with
  | none => simp [appendVariableOpt]
  | some v => simp [appendVariableOpt, ofTokens_concat, appendToken]

/-- One append keeps the last raw string paired, and adds its token. -/
theorem tokens_appendToken {word : MakeString} (h : escapesPaired word.last.toList = true)
    {t : WordToken} (ht : t ≠ raw '\\') :
    (appendToken word t).tokens = word.tokens ++ [t] ∧
      escapesPaired (appendToken word t).last.toList = true := by
  cases t with
  | raw c =>
    have hc : c ≠ '\\' := fun hc => ht (hc ▸ rfl)
    refine ⟨?_, ?_⟩
    · rw [appendToken, word.tokens_appendString h]
      simp [chunkTokens]
    · simp [appendToken, escapesPaired_append h, escapesPaired_cons_of_ne hc, escapesPaired]
  | esc c =>
    rw [appendToken, appendString_appendString]
    refine ⟨?_, ?_⟩
    · rw [word.tokens_appendString h]
      simp [chunkTokens]
    · simp [escapesPaired_append h, escapesPaired]
  | var v => simp [appendToken, escapesPaired]

/-- The appends of a run of tokens add those tokens, when none of them is a
lone backslash. -/
theorem tokens_foldl_appendToken {ts : List WordToken} (hts : raw '\\' ∉ ts) (word : MakeString)
    (h : escapesPaired word.last.toList = true) :
    (ts.foldl appendToken word).tokens = word.tokens ++ ts := by
  induction ts generalizing word with
  | nil => simp
  | cons t ts ih =>
    have ht : t ≠ raw '\\' := fun ht => hts (ht ▸ List.mem_cons_self)
    obtain ⟨htok, hpaired⟩ := tokens_appendToken h ht
    rw [List.foldl_cons, ih (fun h' => hts (List.mem_cons_of_mem t h')) _ hpaired, htok,
      List.append_assoc, List.singleton_append]

/-- **A run built back has that run as its tokens.** -/
theorem tokens_ofTokens (pos : ℤ) {ts : List WordToken} (hts : raw '\\' ∉ ts) :
    (ofTokens pos ts).tokens = ts := by
  rw [ofTokens, tokens_foldl_appendToken hts _ rfl]
  rfl

theorem Variables_ofTokens (pos : ℤ) {ts : List WordToken} (hts : raw '\\' ∉ ts) :
    (ofTokens pos ts).Variables = ts.filterMap var? := by
  rw [Variables_eq_filterMap_tokens, tokens_ofTokens pos hts]

/-! ### The walk of `Words` -/

/-- The tokens of a walk of `Words`: its characters paired off as in a raw
string, and the variable at each end of string that has one. -/
def streamTokens : List WordsCh → List WordToken
  | .char '\\' :: .char c :: r => esc c :: streamTokens r
  | .char c :: r => raw c :: streamTokens r
  | .EOS v :: r => (v.map var).toList ++ streamTokens r
  | [] => []

/-- A walk that a make string of the parser gives: no backslash before an end
of string or the end, and an end of string without a variable only last. -/
def streamOk : List WordsCh → Bool
  | .char '\\' :: .char _ :: r => streamOk r
  | .char '\\' :: _ => false
  | .char _ :: r => streamOk r
  | .EOS none :: r => r.isEmpty
  | .EOS (some _) :: r => streamOk r
  | [] => true

theorem streamOk_EOS {v : Option Variable} {r : List WordsCh} (h : streamOk (.EOS v :: r) = true) :
    streamOk r = true ∧ (v = none → r = []) := by
  cases v with
  | none =>
    have hr : r = [] := by simpa [streamOk] using h
    subst hr
    exact ⟨rfl, fun _ => rfl⟩
  | some v => exact ⟨h, fun h => nomatch h⟩

theorem streamTokens_char_of_ne {c : Char} (hc : c ≠ '\\') (r : List WordsCh) :
    streamTokens (.char c :: r) = raw c :: streamTokens r := by
  rw [streamTokens.eq_def]
  split <;> simp_all

theorem streamOk_char_of_ne {c : Char} (hc : c ≠ '\\') (r : List WordsCh) :
    streamOk (.char c :: r) = streamOk r := by
  rw [streamOk.eq_def]
  split <;> simp_all

section paired

variable {l : List Char} (hl : escapesPaired l = true)
include hl

theorem streamTokens_chars_append (x : List WordsCh) :
    streamTokens (l.map .char ++ x) = chunkTokens l ++ streamTokens x := by
  fun_induction escapesPaired l with
  | case1 c r ih => simp [streamTokens, ih hl]
  | case2 => cases hl
  | case3 c r hne hc ih =>
    have hc' := ne_backslash_of_not_pair hne hc
    rw [List.map_cons, List.cons_append, streamTokens_char_of_ne hc', chunkTokens_cons_of_ne hc',
      ih hl, List.cons_append]
  | case4 => rfl

theorem streamOk_chars_append (x : List WordsCh) :
    streamOk (l.map .char ++ x) = streamOk x := by
  fun_induction escapesPaired l with
  | case1 c r ih => simp [streamOk, ih hl]
  | case2 => cases hl
  | case3 c r hne hc ih =>
    have hc' := ne_backslash_of_not_pair hne hc
    rw [List.map_cons, List.cons_append, streamOk_char_of_ne hc', ih hl]
  | case4 => rfl

end paired

/-- The walk of `Words` as raw strings and ends of strings: each variable at
the end of the raw string before it, and a last end without one. -/
theorem wordsStream_eq (ms : MakeString) :
    wordsStream ms = ms.first.toList.map .char ++
      ms.rest.flatMap (fun (v, s) => .EOS (some v) :: s.toList.map .char) ++ [.EOS none] := by
  obtain ⟨pos, first, rest⟩ := ms
  simp only [wordsStream, Strings, Variables, first_mk, rest_mk]
  induction rest generalizing first with
  | nil => simp
  | cons p rest ih =>
    obtain ⟨v, s⟩ := p
    -- the walk from the second raw string on is the walk of the make string
    -- that starts there, its indices shifted by one
    have hshift : ((((v, s) :: rest).map Prod.snd).zipIdx 1).flatMap
        (fun (x : String × ℕ) => x.1.toList.map WordsCh.char ++
          [.EOS (((v, s) :: rest).map Prod.fst)[x.2]?]) =
        ((s :: rest.map Prod.snd).zipIdx.flatMap fun (x : String × ℕ) =>
          x.1.toList.map WordsCh.char ++ [.EOS (rest.map Prod.fst)[x.2]?]) := by
      rw [List.zipIdx_succ, List.flatMap_map]
      rfl
    rw [List.zipIdx_cons, List.flatMap_cons, Nat.zero_add, hshift, ih]
    simp

section stream

variable {rest : List (Variable × String)} (hrest : ∀ p ∈ rest, escapesPaired p.2.toList = true)
include hrest

theorem streamTokens_rest :
    streamTokens (rest.flatMap (fun (v, s) => .EOS (some v) :: s.toList.map .char) ++ [.EOS none]) =
      rest.flatMap fun (v, s) => var v :: chunkTokens s.toList := by
  induction rest with
  | nil => simp [streamTokens]
  | cons p rest ih =>
    have hp := hrest p List.mem_cons_self
    rw [List.flatMap_cons, List.append_assoc, List.cons_append, streamTokens,
      streamTokens_chars_append hp, ih fun q hq => hrest q (List.mem_cons_of_mem p hq)]
    simp

theorem streamOk_rest :
    streamOk (rest.flatMap (fun (v, s) => .EOS (some v) :: s.toList.map .char) ++ [.EOS none]) =
      true := by
  induction rest with
  | nil => rfl
  | cons p rest ih =>
    have hp := hrest p List.mem_cons_self
    rw [List.flatMap_cons, List.append_assoc, List.cons_append, streamOk,
      streamOk_chars_append hp, ih fun q hq => hrest q (List.mem_cons_of_mem p hq)]

end stream

section wordsStream

variable {ms : MakeString} (hms : ∀ s ∈ ms.Strings, escapesPaired s.toList = true)
include hms

/-- Read as tokens, the walk of `Words` over a make string of paired raw
strings is the make string's tokens. -/
theorem streamTokens_wordsStream : streamTokens (wordsStream ms) = ms.tokens := by
  have hfirst := hms ms.first List.mem_cons_self
  have hrest : ∀ p ∈ ms.rest, escapesPaired p.2.toList = true :=
    fun p hp => hms p.2 (List.mem_cons_of_mem _ (List.mem_map_of_mem hp))
  rw [wordsStream_eq, List.append_assoc, streamTokens_chars_append hfirst, streamTokens_rest hrest,
    tokens]

theorem streamOk_wordsStream : streamOk (wordsStream ms) = true := by
  have hfirst := hms ms.first List.mem_cons_self
  have hrest : ∀ p ∈ ms.rest, escapesPaired p.2.toList = true :=
    fun p hp => hms p.2 (List.mem_cons_of_mem _ (List.mem_map_of_mem hp))
  rw [wordsStream_eq, List.append_assoc, streamOk_chars_append hfirst, streamOk_rest hrest]

end wordsStream

/-! ### The machine -/

section loop

open strings

theorem wordsLoop_fields (pos : ℤ) (skipping : Bool) (word : MakeString) (words : List MakeString)
    (stream : List WordsCh) (hok : streamOk stream = true) :
    ∀ acc, word = ofTokens pos acc → (skipping = true → acc = []) →
      (skipping = false → acc ≠ [] ∨ stream = []) → (∀ t ∈ acc, t.isBlank = false) →
      wordsLoop pos skipping word words stream =
        some (words ++ (FieldsFunc (acc ++ streamTokens stream) isBlank).map (ofTokens pos)) := by
  fun_induction wordsLoop pos skipping word words stream with
  | case1 skipping word words =>
    intro acc hword _ _ hacc
    subst hword
    rw [Empty_ofTokens]
    cases acc with
    | nil => simp [streamTokens]
    | cons t ts => simp [streamTokens, FieldsFunc_of_forall hacc]
  -- a blank while skipping is dropped
  | case2 word words r ih | case3 word words r ih =>
    intro acc hword hskip _ _
    obtain rfl := hskip rfl
    rw [ih (by rwa [streamOk_char_of_ne (by decide)] at hok) [] hword (fun _ => rfl) (by simp)
      (by simp), streamTokens_char_of_ne (by decide), List.nil_append, List.nil_append,
      FieldsFunc_sep_cons rfl]
  -- an end of string while skipping starts a word with its variable; without
  -- one the walk is over, so no empty word is pushed
  | case4 word words v r _ ih =>
    intro acc hword hskip _ _
    obtain rfl := hskip rfl
    obtain ⟨hok', hnone⟩ := streamOk_EOS hok
    have hcopy : v.isSome ∨ r = [] := by
      cases v with
      | none => exact Or.inr (hnone rfl)
      | some v => exact Or.inl rfl
    rw [ih hok' ((v.map var).toList) (by rw [hword, appendVariableOpt_ofTokens, List.nil_append])
      (by simp) (fun _ => hcopy.imp (by cases v <;> simp) id) (by cases v <;> simp)]
    simp [streamTokens]
  | case5 word words v r hempty =>
    intro acc hword hskip _ _
    exact absurd (by rw [hword, hskip rfl]; rfl) hempty
  -- a blank ends the word being copied, which is not empty
  | case6 word words r ih | case7 word words r ih =>
    intro acc hword _ hcopy hacc
    have hne : acc ≠ [] := (hcopy rfl).resolve_right (List.cons_ne_nil _ _)
    rw [ih (by rwa [streamOk_char_of_ne (by decide)] at hok) [] rfl (fun _ => rfl) (by simp)
      (by simp), streamTokens_char_of_ne (by decide), FieldsFunc_append_sep hacc hne rfl, hword]
    simp
  | case8 word words v r ih =>
    intro acc hword _ hcopy hacc
    have hne : acc ≠ [] := (hcopy rfl).resolve_right (List.cons_ne_nil _ _)
    rw [ih (streamOk_EOS hok).1 (acc ++ (v.map var).toList) (by rw [hword, appendVariableOpt_ofTokens])
      (by simp) (fun _ => Or.inl (by simp [hne])) (List.forall_mem_append.2 ⟨hacc, by cases v <;> simp⟩)]
    simp [streamTokens]
  | case9 => simp [streamOk] at hok
  | case10 skipping word words c r ih =>
    intro acc hword _ _ hacc
    rw [ih hok (acc ++ [esc c]) (by rw [appendToken_esc, hword, ofTokens_concat]) (by simp)
      (fun _ => Or.inl (by simp)) (List.forall_mem_append.2 ⟨hacc, by simp⟩)]
    simp [streamTokens]
  | case11 => simp [streamOk] at hok
  | case12 skipping word words c r hs ht hs' ht' hb ih =>
    intro acc hword _ _ hacc
    -- the blanks were taken by the clauses above, whichever the mode
    have hsp : c ≠ ' ' := fun h => by
      cases skipping with
      | true => exact hs rfl h
      | false => exact hs' rfl h
    have htab : c ≠ '\t' := fun h => by
      cases skipping with
      | true => exact ht rfl h
      | false => exact ht' rfl h
    rw [ih (by rwa [streamOk_char_of_ne hb] at hok) (acc ++ [raw c])
      (by rw [ofTokens_concat, ← hword]; rfl) (by simp) (fun _ => Or.inl (by simp))
      (List.forall_mem_append.2 ⟨hacc, by simp [isBlank_raw_of_ne hsp htab]⟩),
      streamTokens_char_of_ne hb]
    simp

end loop

/-- **`Words` is the runs of the tokens between blanks, each built back into a
make string.** -/
theorem Words_eq_map_ofTokens (ms : MakeString)
    (hms : ∀ s ∈ ms.Strings, escapesPaired s.toList = true) :
    ms.Words = some ((strings.FieldsFunc ms.tokens isBlank).map (ofTokens ms.Pos)) := by
  rw [Words, wordsLoop_fields ms.Pos true (SimpleMakeString "" ms.Pos) [] _ (streamOk_wordsStream hms)
    [] rfl (fun _ => rfl)
    (by simp) (by simp), streamTokens_wordsStream hms, List.nil_append, List.nil_append]

/-- Dropping the blanks keeps the variables. -/
theorem filterMap_var?_filter_not_isBlank (l : List WordToken) :
    (l.filter fun t => !t.isBlank).filterMap var? = l.filterMap var? := by
  induction l with
  | nil => rfl
  | cons t l ih =>
    cases ht : t.isBlank
    · rw [List.filter_cons_of_pos (by simp [ht]), List.filterMap_cons, List.filterMap_cons, ih]
    · rw [List.filter_cons_of_neg (by simp [ht]), ih,
        List.filterMap_cons_none (var?_eq_none_of_isBlank ht)]

/-- For the raw strings the parser produces, `Words` does not panic, its words
have the runs of tokens between blanks as their tokens, none is empty, and
together they hold the variables of the make string, in order. -/
theorem Words_eq_token_runs (ms : MakeString)
    (hms : ∀ s ∈ ms.Strings, ∀ i (hi : i < s.toList.length), s.toList[i] = '\\' →
      i + 1 < s.toList.length) :
    ∃ ws, ms.Words = some ws ∧
      ws.map MakeString.tokens = strings.FieldsFunc ms.tokens isBlank ∧
      (∀ w ∈ ws, w.Pos = ms.Pos ∧ w.Empty = false) ∧
      ws.flatMap MakeString.Variables = ms.Variables := by
  have hpaired : ∀ s ∈ ms.Strings, escapesPaired s.toList = true :=
    fun s hs => escapesPaired_of_followed (hms s hs)
  -- every run is made of tokens of the make string, none a lone backslash
  have hruns : ∀ run ∈ strings.FieldsFunc ms.tokens isBlank, raw '\\' ∉ run := by
    intro run hrun hmem
    have hflat : raw '\\' ∈ (strings.FieldsFunc ms.tokens isBlank).flatten :=
      List.mem_flatten.2 ⟨run, hrun, hmem⟩
    rw [strings.flatten_FieldsFunc, List.mem_filter] at hflat
    exact raw_backslash_not_mem_tokens ms hpaired hflat.1
  refine ⟨_, Words_eq_map_ofTokens ms hpaired, ?_, ?_, ?_⟩
  · rw [List.map_map]
    conv_rhs => rw [← List.map_id (strings.FieldsFunc ms.tokens isBlank)]
    exact List.map_congr_left fun run hrun => tokens_ofTokens ms.Pos (hruns run hrun)
  · intro w hw
    obtain ⟨run, hrun, rfl⟩ := List.mem_map.1 hw
    refine ⟨Pos_ofTokens _ _, ?_⟩
    rw [Empty_ofTokens, List.isEmpty_eq_false_iff]
    exact strings.ne_nil_of_mem_FieldsFunc hrun
  · calc (List.map (ofTokens ms.Pos) (strings.FieldsFunc ms.tokens isBlank)).flatMap Variables
        = (strings.FieldsFunc ms.tokens isBlank).flatMap (List.filterMap var?) := by
          rw [List.flatMap_map]
          exact List.flatMap_congr fun run hrun => Variables_ofTokens ms.Pos (hruns run hrun)
      _ = (ms.tokens.filter fun t => !t.isBlank).filterMap var? := by
          rw [← strings.flatten_FieldsFunc, List.filterMap_flatten, List.flatMap_def]
      _ = ms.Variables := by
          rw [filterMap_var?_filter_not_isBlank, Variables_eq_filterMap_tokens]

/-- An escaped blank, a trailing blank and a variable between two raw
strings. -/
def wordsEscapedBlank : MakeString := .mk 0 "a\\ b " [(.mk .nil, "c")]

theorem Words_eq_token_runs_escapedBlank :
    (∀ s ∈ wordsEscapedBlank.Strings, ∀ i (hi : i < s.toList.length), s.toList[i] = '\\' →
      i + 1 < s.toList.length) ∧
    ∃ ws, wordsEscapedBlank.Words = some ws ∧
      ws.map MakeString.tokens = strings.FieldsFunc wordsEscapedBlank.tokens isBlank ∧
      (∀ w ∈ ws, w.Pos = wordsEscapedBlank.Pos ∧ w.Empty = false) ∧
      ws.flatMap MakeString.Variables = wordsEscapedBlank.Variables :=
  ⟨by decide, Words_eq_token_runs wordsEscapedBlank (by decide)⟩

end Androidmk

end Soong
