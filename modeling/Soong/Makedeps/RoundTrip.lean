import Soong.Makedeps.Deps

/-!
# Reading back a printed dependency file

`Parse` reads back what `Print` writes, as long as the parser sees in it only
the rule `Print` means: an output or input with `=` turns the line into an
assignment, `?` in the output or `;` in an input ends the rule early, a NUL
character is an error of the scanner, a byte order mark at the start is
skipped, and an output that starts with a directive's name is read as that
directive.  Outside those, `Parse (Print d) = d` when no input is empty and
nothing holds a line end or a tab.

The proof follows the text through the parser: every escaped character is one
or two tokens, which the loop of `parseExpression` appends with the backslash
kept, and `Words` and `unescape` then split at the separating blanks and drop
the backslashes.

## Main definitions

* `escape`, `kept` — what `Print` writes for a character, and what the parser
  keeps of it.
* `Printable` — the dependency files the round trip holds for.

## Main results

* `unescapeChars_kept`, `Words_kept` — the word level.
* `parseExpressionLoop_escaped` — the loop of `parseExpression` over an
  escaped text.
* `parseLines_printed`, `Parse_printed` — the printed text is one rule.
* `Parse_Print` — the round trip.
-/

namespace Soong

namespace makedeps

open Androidmk scanner

/-! ### Characters -/

/-- The characters `Print` escapes with a backslash. -/
def backslashed : List Char := [' ', ':', '#', '\\']

/-- What `Print` writes for a character. -/
def escape (c : Char) : List Char :=
  if c ∈ backslashed then ['\\', c] else if c = '$' then ['$', '$'] else [c]

/-- What the parser keeps of an escaped character: the backslash stays, and
`$$` is one `$`. -/
def kept (c : Char) : List Char := if c ∈ backslashed then ['\\', c] else [c]

/-- Every character `escape` writes is a backslash, a dollar, or the character. -/
theorem mem_escape {c d : Char} (hd : d ∈ escape c) : d = '\\' ∨ d = '$' ∨ d = c := by
  unfold escape at hd
  split_ifs at hd <;> simp at hd <;> tauto

theorem escape_eq_cons (c : Char) : ∃ d l, escape c = d :: l := by
  unfold escape
  split_ifs <;> exact ⟨_, _, rfl⟩

theorem join_map_eq_ofList {α : Type} (l : List α) (f : α → String) :
    String.join (l.map f) = String.ofList (l.flatMap fun c => (f c).toList) := by
  induction l with
  | nil => rfl
  | cons c l ih =>
    rw [List.map_cons, String.join_cons, ih, List.flatMap_cons, String.ofList_append,
      String.ofList_toList]

theorem replacer_char (c : Char) :
    (((replacer.oldnew.find? (·.1 = c)).map (·.2)).getD (String.singleton c)).toList = escape c := by
  by_cases hs : c = ' '
  · subst hs; decide
  by_cases hc : c = ':'
  · subst hc; decide
  by_cases hh : c = '#'
  · subst hh; decide
  by_cases hd : c = '$'
  · subst hd; decide
  by_cases hb : c = '\\'
  · subst hb; decide
  simp [replacer, strings.NewReplacer, escape, backslashed, hs, hc, hh, hd, hb, List.find?,
    Ne.symm hs, Ne.symm hc, Ne.symm hh, Ne.symm hd, Ne.symm hb]

theorem Replace_replacer (s : String) :
    replacer.Replace s = String.ofList (s.toList.flatMap escape) := by
  simp only [strings.Replacer.Replace, join_map_eq_ofList, replacer_char]

/-! ### `unescape` -/

theorem unescapeChars_of_ne {c : Char} (hc : c ≠ '\\') (rest : List Char) :
    MakeString.unescapeChars (c :: rest) = c :: MakeString.unescapeChars rest := by
  rw [MakeString.unescapeChars.eq_def]
  split <;> simp_all

/-- **`unescape` drops the backslashes the parser kept.** -/
theorem unescapeChars_kept (w : List Char) : MakeString.unescapeChars (w.flatMap kept) = w := by
  induction w with
  | nil => rfl
  | cons c w ih =>
    rw [List.flatMap_cons]
    by_cases hc : c ∈ backslashed
    · have hc' : c ∈ [' ', '\\', '#', ':', '*', '[', '|', '\t', '\n', '\r'] := by
        simp [backslashed] at hc
        rcases hc with rfl | rfl | rfl | rfl <;> simp
      simp [kept, hc, MakeString.unescapeChars, hc', ih]
    · have hb : c ≠ '\\' := fun h => hc (by simp [h, backslashed])
      simp [kept, hc, unescapeChars_of_ne hb, ih]

/-! ### `Words` -/

section words

open MakeString

variable (pos : ℤ)

@[simp] theorem appendString_mk_nil (q : ℤ) (s t : String) :
    (MakeString.mk q s []).appendString t = .mk q (s ++ t) [] := rfl

theorem wordsStream_const (s : String) :
    wordsStream (.mk pos s []) = s.toList.map .char ++ [.EOS none] := by
  simp [wordsStream, Strings, Variables]

theorem wordsLoop_char {c : Char} (hs : c ≠ ' ') (ht : c ≠ '\t') (hb : c ≠ '\\')
    (skipping : Bool) (word : MakeString) (words : List MakeString) (r : List WordsCh) :
    wordsLoop pos skipping word words (.char c :: r) =
      wordsLoop pos false (word.appendString (String.singleton c)) words r := by
  rw [wordsLoop.eq_def]
  cases skipping <;> simp [hs, ht]

theorem wordsLoop_backslash (c : Char) (skipping : Bool) (word : MakeString)
    (words : List MakeString) (r : List WordsCh) :
    wordsLoop pos skipping word words (.char '\\' :: .char c :: r) =
      wordsLoop pos false ((word.appendString "\\").appendString (String.singleton c)) words r := by
  rw [wordsLoop.eq_def]
  cases skipping <;> simp

/-- **A kept word is copied whole**: its escaped blanks stay in it. -/
theorem wordsLoop_kept (w : List Char) (htab : '\t' ∉ w) (skipping : Bool)
    (hne : skipping = true → w ≠ []) (q : ℤ) (s : String) (words : List MakeString)
    (r : List WordsCh) :
    wordsLoop pos skipping (.mk q s []) words ((w.flatMap kept).map .char ++ r) =
      wordsLoop pos false (.mk q (s ++ String.ofList (w.flatMap kept)) []) words r := by
  induction w generalizing skipping s with
  | nil =>
    cases skipping
    · simp
    · exact absurd rfl (hne rfl)
  | cons c w ih =>
    have htab' : '\t' ∉ w := fun h => htab (List.mem_cons_of_mem c h)
    by_cases hc : c ∈ backslashed
    · simp only [List.flatMap_cons, kept, hc, if_true, List.cons_append, List.map_cons,
        List.nil_append]
      rw [wordsLoop_backslash, appendString_mk_nil, appendString_mk_nil, ih htab' false (by simp)]
      congr 2
      rw [← String.toList_inj]
      simp
    · have hs : c ≠ ' ' := fun h => hc (by simp [h, backslashed])
      have hb : c ≠ '\\' := fun h => hc (by simp [h, backslashed])
      have ht : c ≠ '\t' := fun h => htab (by simp [h])
      simp only [List.flatMap_cons, kept, hc, if_false, List.cons_append, List.map_cons,
        List.nil_append]
      rw [wordsLoop_char pos hs ht hb, appendString_mk_nil, ih htab' false (by simp)]
      congr 2
      rw [← String.toList_inj]
      simp

theorem wordsLoop_blank (word : MakeString) (words : List MakeString) (r : List WordsCh) :
    wordsLoop pos false word words (.char ' ' :: r) =
      wordsLoop pos true (.mk pos "" []) (words ++ [word]) r := by
  simp [wordsLoop, SimpleMakeString]

theorem Empty_mk_ofList {l : List Char} (hl : l ≠ []) (q : ℤ) :
    (MakeString.mk q (String.ofList l) []).Empty = false := by
  have hne : String.ofList l ≠ "" := fun h => hl (by simpa using congrArg String.toList h)
  simp [MakeString.Empty, hne]

theorem flatMap_kept_ne_nil {w : List Char} (hw : w ≠ []) : w.flatMap kept ≠ [] := by
  obtain ⟨c, w', rfl⟩ := List.exists_cons_of_ne_nil hw
  by_cases hc : c ∈ backslashed <;> simp [kept, hc]

/-- The words of kept words joined by blanks, from a word being copied. -/
theorem wordsLoop_kept_join (w : List Char) (ws : List (List Char))
    (htab : ∀ v ∈ w :: ws, '\t' ∉ v) (hne : ∀ v ∈ w :: ws, v ≠ []) (acc : List MakeString) :
    wordsLoop pos true (.mk pos "" []) acc
        ((w.flatMap kept ++ ws.flatMap fun v => ' ' :: v.flatMap kept).map .char ++ [.EOS none]) =
      some (acc ++ (w :: ws).map fun v => .mk pos (String.ofList (v.flatMap kept)) []) := by
  induction ws generalizing w acc with
  | nil =>
    have hw : w ≠ [] := hne w List.mem_cons_self
    rw [List.flatMap_nil, List.append_nil,
      wordsLoop_kept pos w (htab w List.mem_cons_self) true (fun _ => hw)]
    simp [wordsLoop, appendVariableOpt, Empty_mk_ofList (flatMap_kept_ne_nil hw)]
  | cons v ws ih =>
    -- the first word is copied up to the blank, which ends it
    rw [List.flatMap_cons, List.map_append, List.append_assoc,
      wordsLoop_kept pos w (htab w List.mem_cons_self) true (fun _ => hne w List.mem_cons_self),
      List.cons_append, List.map_cons, List.cons_append, wordsLoop_blank,
      ih v (fun u hu => htab u (List.mem_cons_of_mem w hu))
        (fun u hu => hne u (List.mem_cons_of_mem w hu))]
    simp

/-- **The words of a printed list of inputs** are the inputs, kept. -/
theorem Words_kept (w : List Char) (ws : List (List Char)) (htab : ∀ v ∈ w :: ws, '\t' ∉ v)
    (hne : ∀ v ∈ w :: ws, v ≠ []) :
    (MakeString.mk pos (String.ofList (w.flatMap kept ++ ws.flatMap fun v => ' ' :: v.flatMap kept))
        []).Words =
      some ((w :: ws).map fun v => .mk pos (String.ofList (v.flatMap kept)) []) := by
  rw [Words, wordsStream_const, String.toList_ofList]
  exact wordsLoop_kept_join pos w ws htab hne []

theorem Words_empty : (MakeString.mk pos "" []).Words = some [] := by
  simp [Words, wordsStream_const, wordsLoop, appendVariableOpt, SimpleMakeString, MakeString.Empty]

end words

/-! ### The parser over a clean text -/

section scanning

@[simp] theorem ok_bind {α β : Type} (a : α) (f : α → Except Abort β) :
    (Except.ok a >>= f : Except Abort β) = f a := rfl

@[simp] theorem pure_eq_ok {α : Type} (a : α) : (pure a : Except Abort α) = .ok a := rfl

/-- A text the scanner reads without an error and without a carriage return to skip. -/
def Clean (t : List Char) : Prop := '\x00' ∉ t ∧ '\r' ∉ t

theorem Clean.tail {c : Char} {t : List Char} (h : Clean (c :: t)) : Clean t :=
  ⟨fun hm => h.1 (List.mem_cons_of_mem c hm), fun hm => h.2 (List.mem_cons_of_mem c hm)⟩

theorem clean_nil : Clean [] := ⟨by simp, by simp⟩

theorem Clean.append {t u : List Char} (ht : Clean t) (hu : Clean u) : Clean (t ++ u) :=
  ⟨by simp [ht.1, hu.1], by simp [ht.2, hu.2]⟩

theorem Clean.cons {c : Char} {t : List Char} (hc : c ≠ '\x00') (hc' : c ≠ '\r') (ht : Clean t) :
    Clean (c :: t) :=
  ⟨by simp [Ne.symm hc, ht.1], by simp [Ne.symm hc', ht.2]⟩

theorem flatMap_readError_eq_nil {l : List Char} (h : '\x00' ∉ l) : l.flatMap readError = [] := by
  rw [List.flatMap_eq_nil_iff]
  intro c hc
  have hc0 : c ≠ '\x00' := fun h' => h (h' ▸ hc)
  simp [readError, hc0]

/-- On a clean text the scanner reports nothing: what it reads ahead is never NUL. -/
theorem Scan_clean (isIdentRune : Char → Bool) {s : Scanner} (h : Clean s.src) :
    (Scan isIdentRune s).2.2 = [] := by
  unfold Scan
  split
  · rfl
  · next c r hs =>
    have hr : '\x00' ∉ r := (hs ▸ h).tail.1
    split
    · refine flatMap_readError_eq_nil fun hm => hr ?_
      rcases List.mem_append.mp hm with hm | hm
      · exact (List.takeWhile_sublist _).subset hm
      · exact (List.dropWhile_sublist _).subset ((List.take_sublist 1 _).subset hm)
    · exact flatMap_readError_eq_nil fun hm => hr ((List.take_sublist 1 r).subset hm)

/-- The parser with the text `t` ahead from offset `o`, no errors or comments
and the nodes `N`: the scanner has read the first token of `t`. -/
def parserAt (t : List Char) (o : ℕ) (N : List Node) : parser :=
  ⟨(Scan IsIdentRune ⟨t, o, true, "", 0⟩).2.1, (Scan IsIdentRune ⟨t, o, true, "", 0⟩).1, [], [], N⟩

variable {o : ℕ} {N : List Node}

theorem parserAt_nil : parserAt [] o N = ⟨⟨[], o, true, "", o⟩, .EOF, [], [], N⟩ := rfl

theorem parserAt_char {c : Char} (hc : IsIdentRune c = false) (r : List Char) :
    parserAt (c :: r) o N =
      ⟨⟨r, o + c.utf8Size, true, String.singleton c, o⟩, .char c, [], [], N⟩ := by
  simp [parserAt, @Scan_char IsIdentRune ⟨c :: r, o, true, "", 0⟩ c r rfl (by simp [hc])]

theorem parserAt_ident {c : Char} (hc : IsIdentRune c = true) (r : List Char) :
    parserAt (c :: r) o N =
      ⟨⟨r.dropWhile IsIdentRune, o + utf8Len (c :: r.takeWhile IsIdentRune), true,
        String.ofList (c :: r.takeWhile IsIdentRune), o⟩, .Ident, [], [], N⟩ := by
  simp [parserAt, @Scan_ident IsIdentRune ⟨c :: r, o, true, "", 0⟩ c r rfl rfl hc]

/-- **One token**: on a clean text, `next` reads the next token and reports nothing. -/
theorem next_scanned {t : List Char} (ht : Clean t) {o' : ℕ} {text : String} {tok : Token}
    (htok : tok ≠ .EOF) :
    (⟨⟨t, o', true, text, o⟩, tok, [], [], N⟩ : parser).next = .ok (parserAt t o' N) := by
  rw [parser.next, if_pos htok]
  show parser.scanTok (t.length + 1) _ = _
  have herr := Scan_clean IsIdentRune (s := ⟨t, o', true, text, o⟩) ht
  rw [parser.scanTok]
  cases t with
  | nil => rfl
  | cons c r =>
    -- a carriage return would be scanned past; the text has none
    have hcr : c ≠ '\r' := fun h => ht.2 (h ▸ List.mem_cons_self)
    cases hc : IsIdentRune c
    · rw [@Scan_char IsIdentRune _ c r rfl (by simp [hc])] at herr ⊢
      dsimp only at herr
      simp [herr, parser.reportErrors, hcr, parserAt_char hc]
    · rw [@Scan_ident IsIdentRune _ c r rfl rfl hc] at herr ⊢
      dsimp only at herr
      simp [herr, parser.reportErrors, parserAt_ident hc]

/-- **An escape**: the backslash and the character after it, which is not part
of an identifier, are two tokens. -/
theorem parseEscape_parserAt {c : Char} {r : List Char} (hc : IsIdentRune c = false)
    (ht : Clean (c :: r)) :
    (parserAt ('\\' :: c :: r) o N).parseEscape = .ok (parserAt (c :: r) (o + 1) N) := by
  have hb : IsIdentRune '\\' = false := by decide
  have hcr : c ≠ '\r' := fun h => ht.2 (h ▸ List.mem_cons_self)
  have herr : (r.take 1).flatMap readError = [] :=
    flatMap_readError_eq_nil fun h => ht.tail.1 ((List.take_sublist 1 r).subset h)
  rw [parserAt_char hb]
  simp [parser.parseEscape, parser.accept, parser.next, parser.scanTok, Scan, herr,
    parser.reportErrors, hcr, parserAt_char hc]
  rfl

theorem tok_parserAt_char {c : Char} (hc : IsIdentRune c = false) (r : List Char) :
    (parserAt (c :: r) o N).tok = .char c := by
  rw [parserAt_char hc]

theorem next_parserAt_char {c : Char} (hc : IsIdentRune c = false) {r : List Char} (hr : Clean r) :
    (parserAt (c :: r) o N).next = .ok (parserAt r (o + c.utf8Size) N) := by
  rw [parserAt_char hc]
  exact next_scanned hr (by simp)

theorem accept_parserAt_char {c : Char} (hc : IsIdentRune c = false) {r : List Char} (hr : Clean r) :
    (parserAt (c :: r) o N).accept (.char c) = .ok (true, parserAt r (o + c.utf8Size) N) := by
  simp [parser.accept, tok_parserAt_char hc, next_parserAt_char hc hr]

end scanning

/-! ### The loop of `parseExpression` -/

section loop

open parser

variable {endRunes : List Token} {fuel o : ℕ} {N : List Node} {q : ℤ} {s : String}

theorem parseExpressionLoop_stop {p : parser} (hp : p.tok ∈ endRunes) (value : MakeString) :
    parseExpressionLoop (fuel + 1) endRunes false 0 value p = .ok (value, 0, false, p) := by
  simp [parseExpressionLoop, hp]

theorem parseExpressionLoop_ident {c : Char} {r : List Char} (hc : IsIdentRune c = true)
    (hI : .Ident ∉ endRunes) (hr : Clean (r.dropWhile IsIdentRune)) :
    parseExpressionLoop (fuel + 1) endRunes false 0 (.mk q s []) (parserAt (c :: r) o N) =
      parseExpressionLoop fuel endRunes false 0
        (.mk q (s ++ String.ofList (c :: r.takeWhile IsIdentRune)) [])
        (parserAt (r.dropWhile IsIdentRune) (o + utf8Len (c :: r.takeWhile IsIdentRune)) N) := by
  rw [parserAt_ident hc]
  simp [parseExpressionLoop, hI, parser.accept, next_scanned hr]

theorem parseExpressionLoop_escape {c : Char} {r : List Char} (hc : IsIdentRune c = false)
    (hn : c ≠ '\n') (hB : .char '\\' ∉ endRunes) (ht : Clean (c :: r)) :
    parseExpressionLoop (fuel + 1) endRunes false 0 (.mk q s []) (parserAt ('\\' :: c :: r) o N) =
      parseExpressionLoop fuel endRunes false 0 (.mk q (s ++ ("\\" ++ String.singleton c)) [])
        (parserAt r (o + 1 + c.utf8Size) N) := by
  have hb : IsIdentRune '\\' = false := by decide
  simp [parseExpressionLoop, tok_parserAt_char hb, hB, parseEscape_parserAt hc ht,
    tok_parserAt_char hc, hn, parser.accept, next_parserAt_char hc ht.tail, Token.toString]

theorem parseExpressionLoop_dollar {r : List Char} (hD : .char '$' ∉ endRunes) (ht : Clean r) :
    parseExpressionLoop (fuel + 2) endRunes false 0 (.mk q s []) (parserAt ('$' :: '$' :: r) o N) =
      parseExpressionLoop (fuel + 1) endRunes false 0 (.mk q (s ++ "$") [])
        (parserAt r (o + 1 + 1) N) := by
  have hd : IsIdentRune '$' = false := by decide
  have h1 : '$'.utf8Size = 1 := by decide
  have hclean : Clean ('$' :: r) := ht.cons (by decide) (by decide)
  simp [parseExpressionLoop, parseVariable, tok_parserAt_char hd, hD, parser.accept,
    next_parserAt_char hd hclean, next_parserAt_char hd ht, Variable.Name, h1]

theorem parseExpressionLoop_plain {c : Char} {r : List Char} (hc : IsIdentRune c = false)
    (hn : c ≠ '\n') (hb : c ≠ '\\') (hd : c ≠ '$') (hE : .char c ∉ endRunes) (hr : Clean r) :
    parseExpressionLoop (fuel + 1) endRunes false 0 (.mk q s []) (parserAt (c :: r) o N) =
      parseExpressionLoop fuel endRunes false 0 (.mk q (s ++ String.singleton c) [])
        (parserAt r (o + c.utf8Size) N) := by
  rw [parserAt_char hc]
  by_cases hp : c = '('
  · subst hp
    simp [parseExpressionLoop, hE, parser.accept, next_scanned hr]
  · simp [parseExpressionLoop, hE, hn, hb, hd, hp, parser.accept, next_scanned hr]

/-- A character the loop of `parseExpression` with the end tokens `endRunes`
reads whole once escaped. -/
def Readable (endRunes : List Token) (c : Char) : Prop :=
  c ≠ '\n' ∧ c ≠ '\r' ∧ c ≠ '\x00' ∧ (c ∉ backslashed → .char c ∉ endRunes)

theorem not_ident_of_backslashed {c : Char} (hc : c ∈ backslashed) : IsIdentRune c = false := by
  simp only [backslashed, List.mem_cons, List.not_mem_nil, or_false] at hc
  rcases hc with rfl | rfl | rfl | rfl <;> decide

theorem escape_of_ident {c : Char} (hc : IsIdentRune c = true) : escape c = [c] := by
  have hb : c ∉ backslashed := fun h => by simp [not_ident_of_backslashed h] at hc
  have hd : c ≠ '$' := by rintro rfl; exact absurd hc (by decide)
  simp [escape, hb, hd]

theorem kept_of_ident {c : Char} (hc : IsIdentRune c = true) : kept c = [c] := by
  have hb : c ∉ backslashed := fun h => by simp [not_ident_of_backslashed h] at hc
  simp [kept, hb]

/-- An escaped character that is not part of an identifier starts with a
character that is not either. -/
theorem head_escape {c d : Char} (hc : IsIdentRune c = false) (hd : d ∈ (escape c).head?) :
    IsIdentRune d = false := by
  rcases mem_escape (List.mem_of_mem_head? hd) with rfl | rfl | rfl
  · decide
  · decide
  · exact hc

/-- Identifiers end where the escaped text of a non-identifier starts. -/
theorem takeWhile_escaped (w t : List Char) (ht : ∀ d ∈ t.head?, IsIdentRune d = false) :
    (w.flatMap escape ++ t).takeWhile IsIdentRune = w.takeWhile IsIdentRune := by
  induction w with
  | nil =>
    cases t with
    | nil => rfl
    | cons d t => simp [ht d rfl]
  | cons c w ih =>
    cases hc : IsIdentRune c
    · obtain ⟨d, l, hdl⟩ := escape_eq_cons c
      have hd : IsIdentRune d = false := head_escape hc (by simp [hdl])
      simp [List.flatMap_cons, hdl, hd, hc]
    · simp [List.flatMap_cons, escape_of_ident hc, hc, ih]

theorem dropWhile_escaped (w t : List Char) (ht : ∀ d ∈ t.head?, IsIdentRune d = false) :
    (w.flatMap escape ++ t).dropWhile IsIdentRune = (w.dropWhile IsIdentRune).flatMap escape ++ t := by
  induction w with
  | nil =>
    cases t with
    | nil => rfl
    | cons d t => simp [ht d rfl]
  | cons c w ih =>
    cases hc : IsIdentRune c
    · obtain ⟨d, l, hdl⟩ := escape_eq_cons c
      have hd : IsIdentRune d = false := head_escape hc (by simp [hdl])
      simp [List.flatMap_cons, hdl, hd, hc]
    · simp [List.flatMap_cons, escape_of_ident hc, hc, ih]

theorem clean_escaped {w t : List Char} (hw : ∀ c ∈ w, Readable endRunes c) (ht : Clean t) :
    Clean (w.flatMap escape ++ t) := by
  have hesc : ∀ c ∈ w, ∀ d ∈ escape c, d ≠ '\x00' ∧ d ≠ '\r' := by
    intro c hc d hd
    obtain ⟨-, hr, h0, -⟩ := hw c hc
    rcases mem_escape hd with rfl | rfl | rfl
    · decide
    · decide
    · exact ⟨h0, hr⟩
  constructor
  · simp only [List.mem_append, List.mem_flatMap, not_or, not_exists, not_and]
    exact ⟨fun c hc hd => (hesc c hc _ hd).1 rfl, ht.1⟩
  · simp only [List.mem_append, List.mem_flatMap, not_or, not_exists, not_and]
    exact ⟨fun c hc hd => (hesc c hc _ hd).2 rfl, ht.2⟩

theorem clean_flatMap_escape {w : List Char} (hw : ∀ c ∈ w, Readable endRunes c) :
    Clean (w.flatMap escape) := by
  simpa using clean_escaped hw (t := []) clean_nil

theorem clean_joined {vs : List (List Char)} (hvs : ∀ u ∈ vs, ∀ c ∈ u, Readable endRunes c) :
    Clean (vs.flatMap fun u => ' ' :: u.flatMap escape) := by
  induction vs with
  | nil => exact clean_nil
  | cons u vs ih =>
    rw [List.flatMap_cons]
    exact ((clean_flatMap_escape (hvs u List.mem_cons_self)).cons (by decide) (by decide)).append
      (ih fun w hw => hvs w (List.mem_cons_of_mem u hw))

theorem takeWhile_append_dropWhile_kept (w : List Char) :
    (w.takeWhile IsIdentRune).flatMap kept ++ (w.dropWhile IsIdentRune).flatMap kept = w.flatMap kept := by
  rw [← List.flatMap_append, List.takeWhile_append_dropWhile]

theorem flatMap_kept_takeWhile (w : List Char) :
    (w.takeWhile IsIdentRune).flatMap kept = w.takeWhile IsIdentRune := by
  have h : ∀ c ∈ w.takeWhile IsIdentRune, kept c = [c] := fun c hc =>
    kept_of_ident (List.all_eq_true.mp List.all_takeWhile c hc)
  rw [List.flatMap_congr h, List.flatMap_singleton']

/-- **The loop of `parseExpression` over an escaped text** appends what the
parser keeps of it, and stops where the text ends, taking one round per token. -/
theorem parseExpressionLoop_escaped (hI : .Ident ∉ endRunes) (hB : .char '\\' ∉ endRunes)
    (hD : .char '$' ∉ endRunes) {t : List Char} (ht : Clean t)
    (ht0 : ∀ d ∈ t.head?, IsIdentRune d = false) (N : List Node) (q : ℤ) (w : List Char)
    (hw : ∀ c ∈ w, Readable endRunes c) (s : String) (o : ℕ) :
    ∃ n ≤ w.length, ∃ o', ∀ fuel,
      parseExpressionLoop (fuel + 1 + n) endRunes false 0 (.mk q s [])
          (parserAt (w.flatMap escape ++ t) o N) =
        parseExpressionLoop (fuel + 1) endRunes false 0
          (.mk q (s ++ String.ofList (w.flatMap kept)) []) (parserAt t o' N) := by
  match w with
  | [] => exact ⟨0, le_refl _, o, fun fuel => by simp⟩
  | c :: w =>
    have hw' : ∀ c ∈ w, Readable endRunes c := fun d hd => hw d (List.mem_cons_of_mem c hd)
    obtain ⟨hn, -, -, hE⟩ := hw c List.mem_cons_self
    cases hc : IsIdentRune c
    · by_cases hbs : c ∈ backslashed
      · -- an escaped blank, `:`, `#` or backslash: two tokens
        have hesc : escape c = ['\\', c] := by simp [escape, hbs]
        have hclean : Clean (c :: (w.flatMap escape ++ t)) := by
          have h := clean_escaped hw ht
          rw [List.flatMap_cons, hesc] at h
          exact h.tail
        obtain ⟨n, hnw, o', h⟩ := parseExpressionLoop_escaped hI hB hD ht ht0 N q w hw'
          (s ++ ("\\" ++ String.singleton c)) (o + 1 + c.utf8Size)
        refine ⟨n + 1, by simp [hnw], o', fun fuel => ?_⟩
        simp only [List.flatMap_cons, hesc, List.cons_append, List.nil_append]
        rw [show fuel + 1 + (n + 1) = fuel + 1 + n + 1 by omega,
          parseExpressionLoop_escape hc hn hB hclean, h fuel]
        congr 2
        rw [← String.toList_inj]
        simp [kept, hbs]
      · by_cases hd : c = '$'
        · -- `$$` is one `$`
          subst hd
          obtain ⟨n, hnw, o', h⟩ := parseExpressionLoop_escaped hI hB hD ht ht0 N q w hw'
            (s ++ "$") (o + 1 + 1)
          refine ⟨n + 1, by simp [hnw], o', fun fuel => ?_⟩
          simp only [List.flatMap_cons, show escape '$' = ['$', '$'] by decide, List.cons_append,
            List.nil_append]
          rw [show fuel + 1 + (n + 1) = fuel + n + 2 by omega,
            parseExpressionLoop_dollar hD (clean_escaped hw' ht),
            show fuel + n + 1 = fuel + 1 + n by omega, h fuel]
          congr 2
          rw [← String.toList_inj]
          simp [kept, hbs]
        · -- any other character that is not part of an identifier is a token of its own
          have hb : c ≠ '\\' := fun h => hbs (by simp [h, backslashed])
          obtain ⟨n, hnw, o', h⟩ := parseExpressionLoop_escaped hI hB hD ht ht0 N q w hw'
            (s ++ String.singleton c) (o + c.utf8Size)
          refine ⟨n + 1, by simp [hnw], o', fun fuel => ?_⟩
          simp only [List.flatMap_cons, show escape c = [c] by simp [escape, hbs, hd],
            List.cons_append, List.nil_append]
          rw [show fuel + 1 + (n + 1) = fuel + 1 + n + 1 by omega,
            parseExpressionLoop_plain hc hn hb hd (hE hbs) (clean_escaped hw' ht), h fuel]
          congr 2
          rw [← String.toList_inj]
          simp [kept, hbs]
    · -- an identifier: the longest run of identifier characters is one token
      have hdrop : ∀ d ∈ (w.dropWhile IsIdentRune), Readable endRunes d := fun d hd =>
        hw' d ((List.dropWhile_sublist _).subset hd)
      -- the run left after the identifier is shorter, which the recursion needs
      have hlen : (w.dropWhile IsIdentRune).length ≤ w.length := (List.dropWhile_sublist _).length_le
      obtain ⟨n, hnw, o', h⟩ := parseExpressionLoop_escaped hI hB hD ht ht0 N q
        (w.dropWhile IsIdentRune) hdrop
        (s ++ String.ofList (c :: w.takeWhile IsIdentRune))
        (o + utf8Len (c :: w.takeWhile IsIdentRune))
      refine ⟨n + 1, by simp; omega, o', fun fuel => ?_⟩
      simp only [List.flatMap_cons, escape_of_ident hc, List.cons_append, List.nil_append]
      rw [show fuel + 1 + (n + 1) = fuel + 1 + n + 1 by omega,
        parseExpressionLoop_ident hc hI (by rw [dropWhile_escaped w t ht0]; exact clean_escaped hdrop ht),
        takeWhile_escaped w t ht0, dropWhile_escaped w t ht0, h fuel]
      congr 2
      rw [← String.toList_inj, kept_of_ident hc, ← takeWhile_append_dropWhile_kept w,
        flatMap_kept_takeWhile]
      simp
termination_by w.length
decreasing_by
  all_goals simp_wf
  all_goals omega

theorem length_le_flatMap_escape (w : List Char) : w.length ≤ (w.flatMap escape).length := by
  induction w with
  | nil => rfl
  | cons c w ih =>
    have : 1 ≤ (escape c).length := by
      obtain ⟨d, l, hdl⟩ := escape_eq_cons c
      simp [hdl]
    simp only [List.flatMap_cons, List.length_append, List.length_cons]
    omega

/-- **The loop over escaped words joined by blanks**: the blanks are tokens of
their own and stay. -/
theorem parseExpressionLoop_joined (hI : .Ident ∉ endRunes) (hB : .char '\\' ∉ endRunes)
    (hD : .char '$' ∉ endRunes) (hS : .char ' ' ∉ endRunes) {t : List Char} (ht : Clean t)
    (ht0 : ∀ d ∈ t.head?, IsIdentRune d = false) (N : List Node) (q : ℤ) (vs : List (List Char))
    (v : List Char) (hvs : ∀ u ∈ v :: vs, ∀ c ∈ u, Readable endRunes c) (s : String) (o : ℕ) :
    ∃ n ≤ (v.flatMap escape ++ vs.flatMap fun u => ' ' :: u.flatMap escape).length, ∃ o', ∀ fuel,
      parseExpressionLoop (fuel + 1 + n) endRunes false 0 (.mk q s [])
          (parserAt ((v.flatMap escape ++ vs.flatMap fun u => ' ' :: u.flatMap escape) ++ t) o N) =
        parseExpressionLoop (fuel + 1) endRunes false 0
          (.mk q (s ++ String.ofList (v.flatMap kept ++ vs.flatMap fun u => ' ' :: u.flatMap kept)) [])
          (parserAt t o' N) := by
  induction vs generalizing v s o with
  | nil =>
    obtain ⟨n, hn, o', h⟩ := parseExpressionLoop_escaped hI hB hD ht ht0 N q v
      (hvs v List.mem_cons_self) s o
    refine ⟨n, by simpa using hn.trans (length_le_flatMap_escape v), o', fun fuel => ?_⟩
    simpa using h fuel
  | cons u vs ih =>
    have hrest : ∀ w ∈ u :: vs, ∀ c ∈ w, Readable endRunes c := fun w hw =>
      hvs w (List.mem_cons_of_mem v hw)
    -- the text after the first word: a blank, then the other words
    have hcu : Clean (u.flatMap escape ++ ((vs.flatMap fun w => ' ' :: w.flatMap escape) ++ t)) :=
      (clean_flatMap_escape (hrest u List.mem_cons_self)).append
        ((clean_joined fun w hw => hrest w (List.mem_cons_of_mem u hw)).append ht)
    obtain ⟨n₁, hn₁, o₁, h₁⟩ := parseExpressionLoop_escaped hI hB hD
      (t := ' ' :: (u.flatMap escape ++ ((vs.flatMap fun w => ' ' :: w.flatMap escape) ++ t)))
      (hcu.cons (by decide) (by decide)) (by simp; decide) N q v (hvs v List.mem_cons_self) s o
    obtain ⟨n₂, hn₂, o₂, h₂⟩ := ih u hrest (s ++ String.ofList (v.flatMap kept) ++ " ")
      (o₁ + ' '.utf8Size)
    refine ⟨n₁ + 1 + n₂, ?_, o₂, fun fuel => ?_⟩
    · have := length_le_flatMap_escape v
      simp only [List.flatMap_cons, List.length_append, List.length_cons] at hn₂ ⊢
      omega
    · have hsp : IsIdentRune ' ' = false := by decide
      simp only [List.flatMap_cons, List.cons_append, List.append_assoc] at h₂ ⊢
      rw [show fuel + 1 + (n₁ + 1 + n₂) = fuel + 1 + n₂ + 1 + n₁ by omega, h₁,
        parseExpressionLoop_plain hsp (by decide) (by decide) (by decide) hS hcu,
        show String.singleton ' ' = " " from rfl, h₂ fuel]
      congr 2
      rw [← String.toList_inj]
      simp

end loop

/-! ### The printed rule -/

section rule

open parser

/-- The end tokens of a rule's target, as `parseLines` gives them. -/
def targetEnds : List Token := [.char '=', .char '?', .char ':', .char '#', .char '\n']

/-- The end tokens of a rule's prerequisites, as `parseRulePrerequisites` gives them. -/
def prerequisiteEnds : List Token := [.char '#', .char '\n', .char ';', .char ':', .char '=']

/-- What `Print` writes after the colon: each input after a blank, then the line end. -/
def inputsText (ins : List (List Char)) : List Char :=
  (ins.flatMap fun u => ' ' :: u.flatMap escape) ++ ['\n']

/-- What the parser keeps of the inputs: each kept, with the blanks between them. -/
def keptInputs : List (List Char) → List Char
  | [] => []
  | v :: vs => v.flatMap kept ++ vs.flatMap fun u => ' ' :: u.flatMap kept

theorem clean_inputsText {ins : List (List Char)}
    (hins : ∀ u ∈ ins, ∀ c ∈ u, Readable prerequisiteEnds c) : Clean (inputsText ins) :=
  (clean_joined hins).append (clean_nil.cons (by decide) (by decide))

variable {o : ℕ} {N : List Node}

theorem pos_parserAt (t : List Char) : (parserAt t o N).pos = o := by
  cases t with
  | nil => rfl
  | cons c r => cases hc : IsIdentRune c <;> simp [parserAt, Scan, hc, parser.pos]

theorem ignoreWhitespace_stop {p : parser} (hp : isWhitespace p.tok = false) {fuel : ℕ}
    (hf : 0 < fuel) : ignoreWhitespace fuel p = .ok p := by
  obtain ⟨f, rfl⟩ := Nat.exists_eq_add_of_lt hf
  simp [ignoreWhitespace, hp]

theorem ignoreSpaces_stop {p : parser} (hs : p.tok ≠ .char ' ') (ht : p.tok ≠ .char '\t')
    {fuel : ℕ} (hf : 0 < fuel) : ignoreSpaces fuel p = .ok p := by
  obtain ⟨f, rfl⟩ := Nat.exists_eq_add_of_lt hf
  simp [ignoreSpaces, hs, ht]

theorem parseDirective_stop {p : parser} (hp : p.tok ≠ .Ident ∨ isDirective p.scanner.tokenText = false)
    (fuel : ℕ) : p.parseDirective fuel = .ok (false, p) := by
  rcases hp with hp | hp <;> simp [parseDirective, hp]

/-- **`parseExpression` over escaped words joined by blanks**, up to an end
token. -/
theorem parseExpression_joined {endRunes : List Token} (hI : .Ident ∉ endRunes)
    (hB : .char '\\' ∉ endRunes) (hD : .char '$' ∉ endRunes) (hS : .char ' ' ∉ endRunes)
    (hP : .char ')' ∉ endRunes) {stop : Char} (hstop : .char stop ∈ endRunes)
    (hsi : IsIdentRune stop = false) {t : List Char} (ht : Clean (stop :: t)) (v : List Char)
    (vs : List (List Char)) (hvs : ∀ u ∈ v :: vs, ∀ c ∈ u, Readable endRunes c) :
    ∃ o', ∀ fuel, (v.flatMap escape ++ vs.flatMap fun u => ' ' :: u.flatMap escape).length + 2 ≤ fuel →
      parseExpression fuel
          (parserAt ((v.flatMap escape ++ vs.flatMap fun u => ' ' :: u.flatMap escape) ++ stop :: t) o N)
          endRunes =
        .ok (.mk o (String.ofList (v.flatMap kept ++ vs.flatMap fun u => ' ' :: u.flatMap kept)) [],
          parserAt (stop :: t) o' N) := by
  obtain ⟨n, hn, o', h⟩ := parseExpressionLoop_joined hI hB hD hS ht (by simpa using hsi) N o vs v
    hvs "" o
  refine ⟨o', fun fuel hfuel => ?_⟩
  have hparen : endRunes.contains (.char ')') = false := by simpa using hP
  rw [show fuel = fuel - 2 - n + 1 + n + 1 by omega, parseExpression, hparen, pos_parserAt,
    SimpleMakeString, h, parseExpressionLoop_stop (by rwa [tok_parserAt_char hsi])]
  simp

/-- The first token of an escaped text: an identifier made of the text's
leading identifier characters, or a character that is not a blank. -/
theorem tok_parserAt_escaped {w t : List Char} (ht0 : ∀ d ∈ t.head?, IsIdentRune d = false)
    (htab : '\t' ∉ w) (hnl : '\n' ∉ w) (hw : w ≠ []) :
    ((parserAt (w.flatMap escape ++ t) o N).tok = .Ident ∧
        (parserAt (w.flatMap escape ++ t) o N).scanner.tokenText =
          String.ofList (w.takeWhile IsIdentRune)) ∨
      ∃ d, (parserAt (w.flatMap escape ++ t) o N).tok = .char d ∧ d ≠ ' ' ∧ d ≠ '\t' ∧ d ≠ '\n' := by
  obtain ⟨c, w', rfl⟩ := List.exists_cons_of_ne_nil hw
  have hct : c ≠ '\t' := fun h => htab (by simp [h])
  have hcn : c ≠ '\n' := fun h => hnl (by simp [h])
  cases hc : IsIdentRune c
  · right
    by_cases hbs : c ∈ backslashed
    · refine ⟨'\\', ?_, by decide, by decide, by decide⟩
      simp only [List.flatMap_cons, show escape c = ['\\', c] by simp [escape, hbs],
        List.cons_append, List.nil_append]
      exact tok_parserAt_char (by decide) _
    · have hs : c ≠ ' ' := fun h => hbs (by simp [h, backslashed])
      by_cases hd : c = '$'
      · subst hd
        refine ⟨'$', ?_, by decide, by decide, by decide⟩
        simp only [List.flatMap_cons, show escape '$' = ['$', '$'] by decide, List.cons_append,
          List.nil_append]
        exact tok_parserAt_char (by decide) _
      · refine ⟨c, ?_, hs, hct, hcn⟩
        simp only [List.flatMap_cons, show escape c = [c] by simp [escape, hbs, hd],
          List.cons_append, List.nil_append]
        exact tok_parserAt_char hc _
  · left
    simp only [List.flatMap_cons, escape_of_ident hc, List.cons_append, List.nil_append]
    rw [parserAt_ident hc, takeWhile_escaped w' t ht0]
    simp [hc]

theorem readable_target {c : Char} (h : c ∉ ['\n', '\r', '\t', '\x00', '=', '?']) :
    Readable targetEnds c := by
  simp only [List.mem_cons, List.not_mem_nil, or_false, not_or] at h
  refine ⟨h.1, h.2.1, h.2.2.2.1, fun hb => ?_⟩
  simp only [backslashed, List.mem_cons, List.not_mem_nil, or_false, not_or] at hb
  simp [targetEnds, h.2.2.2.2.1, h.2.2.2.2.2, hb.2.1, hb.2.2.1, h.1]

theorem readable_prerequisite {c : Char} (h : c ∉ ['\n', '\r', '\t', '\x00', '=', ';']) :
    Readable prerequisiteEnds c := by
  simp only [List.mem_cons, List.not_mem_nil, or_false, not_or] at h
  refine ⟨h.1, h.2.1, h.2.2.2.1, fun hb => ?_⟩
  simp only [backslashed, List.mem_cons, List.not_mem_nil, or_false, not_or] at hb
  simp [prerequisiteEnds, h.2.2.2.2.1, h.2.2.2.2.2, hb.2.1, hb.2.2.1, h.1]

/-- The first token of an escaped word is not a blank. -/
theorem tok_not_blank {w t : List Char} (ht0 : ∀ d ∈ t.head?, IsIdentRune d = false)
    (htab : '\t' ∉ w) (hnl : '\n' ∉ w) (hw : w ≠ []) :
    (parserAt (w.flatMap escape ++ t) o N).tok ≠ .char ' ' ∧
      (parserAt (w.flatMap escape ++ t) o N).tok ≠ .char '\t' ∧
      isWhitespace (parserAt (w.flatMap escape ++ t) o N).tok = false := by
  rcases tok_parserAt_escaped (o := o) (N := N) ht0 htab hnl hw with ⟨h, -⟩ | ⟨d, h, hs, ht, hn⟩
  · simp [h, isWhitespace]
  · simp [h, isWhitespace, hs, ht, hn]

/-- **The prerequisites `Print` writes** are read up to the line end. -/
theorem parseRulePrerequisites_printed (target : MakeString) (ins : List (List Char))
    (hins : ∀ u ∈ ins, u ≠ [] ∧ '\t' ∉ u ∧ ∀ c ∈ u, Readable prerequisiteEnds c) :
    ∃ o₁ o₂, ∀ fuel, (inputsText ins).length + 2 ≤ fuel →
      parseRulePrerequisites fuel target (parserAt (inputsText ins) o []) =
        .ok (some (.mk o₁ (String.ofList (keptInputs ins)) []), true, parserAt [] o₂ []) := by
  have hnl : IsIdentRune '\n' = false := by decide
  have hends : .Ident ∉ prerequisiteEnds ∧ .char '\\' ∉ prerequisiteEnds ∧
      .char '$' ∉ prerequisiteEnds ∧ .char ' ' ∉ prerequisiteEnds ∧
      .char ')' ∉ prerequisiteEnds ∧ .char '\n' ∈ prerequisiteEnds := by decide
  obtain ⟨hI, hB, hD, hS, hP, hstop⟩ := hends
  cases ins with
  | nil =>
    obtain ⟨o', h⟩ := parseExpression_joined hI hB hD hS hP hstop hnl (t := []) (o := o) (N := [])
      (clean_nil.cons (by decide) (by decide)) [] [] (by simp)
    refine ⟨o, o' + 1, fun fuel hfuel => ?_⟩
    have hexpr := h fuel (by simp [inputsText] at hfuel ⊢; omega)
    simp only [List.flatMap_nil, List.append_nil, List.nil_append] at hexpr
    simp only [inputsText, List.flatMap_nil, List.nil_append, prerequisiteEnds] at hexpr ⊢
    rw [parseRulePrerequisites, ignoreSpaces_stop (by rw [tok_parserAt_char hnl]; decide)
      (by rw [tok_parserAt_char hnl]; decide) (by omega)]
    simp [hexpr, tok_parserAt_char hnl, accept_parserAt_char hnl clean_nil, keptInputs,
      show '\n'.utf8Size = 1 by decide]
  | cons v vs =>
    obtain ⟨hv, hvt, hvr⟩ := hins v List.mem_cons_self
    have hvs : ∀ u ∈ v :: vs, ∀ c ∈ u, Readable prerequisiteEnds c := fun u hu => (hins u hu).2.2
    have hclean : Clean ((v.flatMap escape ++ vs.flatMap fun u => ' ' :: u.flatMap escape) ++ ['\n']) := by
      rw [List.append_assoc]
      exact (clean_flatMap_escape hvr).append
        (clean_inputsText fun u hu => hvs u (List.mem_cons_of_mem v hu))
    obtain ⟨o', h⟩ := parseExpression_joined hI hB hD hS hP hstop hnl (t := []) (o := o + 1)
      (N := []) (clean_nil.cons (by decide) (by decide)) v vs hvs
    have hnlv : '\n' ∉ v := fun hm => (hvr _ hm).1 rfl
    obtain ⟨hsp, htb, -⟩ := tok_not_blank (o := o + 1) (N := [])
      (t := (vs.flatMap fun u => ' ' :: u.flatMap escape) ++ ['\n'])
      (by cases vs <;> simp <;> decide) hvt hnlv hv
    refine ⟨o + 1, o' + 1, fun fuel hfuel => ?_⟩
    have hlen : (inputsText (v :: vs)).length =
        (v.flatMap escape ++ vs.flatMap fun u => ' ' :: u.flatMap escape).length + 2 := by
      simp [inputsText]; omega
    have hexpr := h fuel (by omega)
    simp only [List.append_assoc] at hexpr hsp htb hclean
    simp only [prerequisiteEnds] at hexpr
    have hsp' : IsIdentRune ' ' = false := by decide
    have htext : inputsText (v :: vs) =
        ' ' :: (v.flatMap escape ++ ((vs.flatMap fun u => ' ' :: u.flatMap escape) ++ ['\n'])) := by
      simp [inputsText]
    obtain ⟨f, rfl⟩ : ∃ f, fuel = f + 1 := ⟨fuel - 1, by omega⟩
    rw [htext, parseRulePrerequisites, ignoreSpaces, if_pos (by simp [tok_parserAt_char hsp']),
      tok_parserAt_char hsp', accept_parserAt_char hsp' hclean, show ' '.utf8Size = 1 by decide]
    simp only [ok_bind]
    rw [ignoreSpaces_stop hsp htb (by omega)]
    simp [hexpr, tok_parserAt_char hnl, accept_parserAt_char hnl clean_nil, keptInputs,
      show '\n'.utf8Size = 1 by decide]

/-- At the end of the input a new line holds no recipe. -/
theorem parseRuleLoop_eof (fuel : ℕ) (recipe : String) :
    parseRuleLoop (fuel + 1) true recipe (parserAt [] o N) = .ok (recipe, parserAt [] o N) := by
  simp [parseRuleLoop, parserAt_nil, parseDirective_stop]

/-- **The rule `Print` writes**, after its colon, is one node with no recipe. -/
theorem parseRule_printed (target : MakeString) (ins : List (List Char))
    (hins : ∀ u ∈ ins, u ≠ [] ∧ '\t' ∉ u ∧ ∀ c ∈ u, Readable prerequisiteEnds c) :
    ∃ o₁ o₂, ∀ fuel, (inputsText ins).length + 2 ≤ fuel →
      parser.parseRule fuel target (parserAt (inputsText ins) o []) =
        .ok (parserAt [] o₂ [.Rule target (.mk o₁ (String.ofList (keptInputs ins)) []) o₂ ""]) := by
  obtain ⟨o₁, o₂, h⟩ := parseRulePrerequisites_printed (o := o) target ins hins
  refine ⟨o₁, o₂, fun fuel hfuel => ?_⟩
  obtain ⟨f, rfl⟩ : ∃ f, fuel = f + 1 := ⟨fuel - 1, by omega⟩
  simp only [parser.parseRule, h _ hfuel, ok_bind, pos_parserAt, parseRuleLoop_eof]
  rfl

/-- On no input an expression is empty. -/
theorem parseExpression_eof (fuel : ℕ) (endRunes : List Token) :
    parseExpression (fuel + 2) (parserAt [] o N) endRunes = .ok (.mk o "" [], parserAt [] o N) := by
  rw [parseExpression, parseExpressionLoop]
  -- whether or not the end tokens hold EOF, the loop stops at once
  by_cases h : Token.EOF ∈ endRunes <;> simp [h, parserAt_nil, SimpleMakeString, parser.pos]

/-- **The end of the input**: `parseLines` adds nothing. -/
theorem parseLines_eof (fuel : ℕ) : parseLines (fuel + 3) (parserAt [] o N) = .ok (parserAt [] o N) := by
  have hws : isWhitespace (parserAt [] o N).tok = false := rfl
  rw [parseLines, ignoreWhitespace_stop hws (by omega), ok_bind,
    parseDirective_stop (Or.inl (by simp [parserAt_nil])), ok_bind]
  simp only [Bool.false_eq_true, if_false]
  rw [parseExpression_eof, ok_bind, ignoreSpaces_stop (by simp [parserAt_nil])
    (by simp [parserAt_nil]) (by omega), ok_bind]
  simp [parserAt_nil, MakeString.TrimRightSpaces, MakeString.modifyLast, strings.TrimRightFunc,
    toVariable, MakeString.Empty]

theorem tok_inputsText_ne (ins : List (List Char)) (c : Char) (hc : c ≠ ' ') (hn : c ≠ '\n') :
    (parserAt (inputsText ins) o N).tok ≠ .char c := by
  cases ins with
  | nil =>
    rw [show inputsText [] = ['\n'] from rfl, tok_parserAt_char (by decide)]
    simpa using hn.symm
  | cons v vs =>
    simp only [inputsText, List.flatMap_cons, List.cons_append]
    rw [tok_parserAt_char (by decide)]
    simpa using hc.symm

/-- **The line `Print` writes** parses to one rule, whose target is the output
kept and whose prerequisites are the inputs kept. -/
theorem parseLines_printed (w : List Char) (ins : List (List Char))
    (hw : ∀ c ∈ w, c ∉ ['\n', '\r', '\t', '\x00', '=', '?'])
    (hdir : isDirective (String.ofList (w.takeWhile IsIdentRune)) = false)
    (hins : ∀ u ∈ ins, u ≠ [] ∧ '\t' ∉ u ∧ ∀ c ∈ u, Readable prerequisiteEnds c) :
    ∃ o₁ o₂, ∀ fuel, (w.flatMap escape).length + (inputsText ins).length + 4 ≤ fuel →
      parseLines fuel (parserAt (w.flatMap escape ++ ':' :: inputsText ins) o []) =
        .ok (parserAt [] o₂ [.Rule (.mk o (String.ofList (w.flatMap kept)) [])
          (.mk o₁ (String.ofList (keptInputs ins)) []) o₂ ""]) := by
  have hcolon : IsIdentRune ':' = false := by decide
  have hends : .Ident ∉ targetEnds ∧ .char '\\' ∉ targetEnds ∧ .char '$' ∉ targetEnds ∧
      .char ' ' ∉ targetEnds ∧ .char ')' ∉ targetEnds ∧ .char ':' ∈ targetEnds := by decide
  obtain ⟨hI, hB, hD, hS, hP, hstop⟩ := hends
  have hread : ∀ c ∈ w, Readable targetEnds c := fun c hc => readable_target (hw c hc)
  have htab : '\t' ∉ w := fun h => hw _ h (by simp)
  have hnl : '\n' ∉ w := fun h => hw _ h (by simp)
  have hin : Clean (inputsText ins) :=
    clean_inputsText fun u hu => (hins u hu).2.2
  have hclean : Clean (':' :: inputsText ins) := hin.cons (by decide) (by decide)
  obtain ⟨o', hexpr⟩ := parseExpression_joined hI hB hD hS hP hstop hcolon (o := o) (N := [])
    hclean w [] (by simpa using hread)
  simp only [List.flatMap_nil, List.append_nil, targetEnds] at hexpr
  obtain ⟨o₁, o₂, hrule⟩ := parseRule_printed (o := o' + 1) (.mk o (String.ofList (w.flatMap kept)) [])
    ins hins
  -- the first token is not a blank, and not a directive's name
  have hstart : isWhitespace (parserAt (w.flatMap escape ++ ':' :: inputsText ins) o []).tok = false ∧
      ((parserAt (w.flatMap escape ++ ':' :: inputsText ins) o []).tok ≠ .Ident ∨
        isDirective (parserAt (w.flatMap escape ++ ':' :: inputsText ins) o []).scanner.tokenText =
          false) := by
    by_cases hw0 : w = []
    · subst hw0
      simp [tok_parserAt_char hcolon, isWhitespace]
    · have ht0 : ∀ d ∈ (':' :: inputsText ins).head?, IsIdentRune d = false := by simpa using hcolon
      refine ⟨(tok_not_blank ht0 htab hnl hw0).2.2, ?_⟩
      rcases tok_parserAt_escaped (o := o) (N := []) ht0 htab hnl hw0 with ⟨-, htext⟩ | ⟨d, hd, -⟩
      · exact Or.inr (htext ▸ hdir)
      · exact Or.inl (by simp [hd])
  refine ⟨o₁, o₂, fun fuel hfuel => ?_⟩
  obtain ⟨f, rfl⟩ : ∃ f, fuel = f + 1 := ⟨fuel - 1, by omega⟩
  rw [parseLines, ignoreWhitespace_stop hstart.1 (by omega), ok_bind, parseDirective_stop hstart.2,
    ok_bind]
  simp only [Bool.false_eq_true, if_false]
  rw [hexpr f (by omega), ok_bind, ignoreSpaces_stop (by rw [tok_parserAt_char hcolon]; decide)
    (by rw [tok_parserAt_char hcolon]; decide) (by omega), ok_bind, tok_parserAt_char hcolon]
  simp only
  rw [accept_parserAt_char hcolon hin, ok_bind, show ':'.utf8Size = 1 by decide,
    if_neg (tok_inputsText_ne ins '=' (by decide) (by decide)), hrule f (by omega), ok_bind]
  obtain ⟨g, rfl⟩ : ∃ g, f = g + 3 := ⟨f - 3, by omega⟩
  exact parseLines_eof g

theorem accept_eof : (parserAt [] o N).accept .EOF = .ok (true, parserAt [] o N) := by
  simp [parser.accept, parser.next, parserAt_nil]

/-- **The parse of the text `Print` writes**: one rule, and no errors. -/
theorem Parse_printed (w : List Char) (ins : List (List Char))
    (hw : ∀ c ∈ w, c ∉ ['\n', '\r', '\t', '\x00', '=', '?'])
    (hdir : isDirective (String.ofList (w.takeWhile IsIdentRune)) = false)
    (hins : ∀ u ∈ ins, u ≠ [] ∧ '\t' ∉ u ∧ ∀ c ∈ u, Readable prerequisiteEnds c) :
    ∃ o₁ o₂, ∀ fuel, (w.flatMap escape).length + (inputsText ins).length + 4 ≤ fuel →
      parser.Parse fuel (parserAt (w.flatMap escape ++ ':' :: inputsText ins) o []) =
        .ok ([.Rule (.mk o (String.ofList (w.flatMap kept)) [])
          (.mk o₁ (String.ofList (keptInputs ins)) []) o₂ ""], []) := by
  obtain ⟨o₁, o₂, h⟩ := parseLines_printed (o := o) w ins hw hdir hins
  refine ⟨o₁, o₂, fun fuel hfuel => ?_⟩
  rw [parser.Parse, h fuel hfuel, ok_bind, accept_eof, ok_bind]
  simp [sortByPosition, sort.SliceStable, parserAt_nil]

end rule

/-! ### The round trip -/

section roundTrip

/-- A clean source that does not start with a byte order mark is read from its
first character. -/
theorem NewParser_clean {t : List Char} (ht : Clean t) (hb : ∀ c ∈ t.head?, c ≠ bom) :
    NewParser t = .ok (parserAt t 0 []) := by
  cases t with
  | nil => rfl
  | cons c r =>
    have hc : c ≠ bom := hb c rfl
    have hc0 : c ≠ '\x00' := fun h => ht.1 (h ▸ List.mem_cons_self)
    simp only [NewParser, Init, hc, if_false, readError, hc0, parser.reportErrors, ok_bind]
    exact next_scanned ht (by simp)

theorem toList_Print (d : Deps) :
    d.Print.toList = d.Output.toList.flatMap escape ++ ':' :: inputsText (d.Inputs.map String.toList) := by
  simp [Deps.Print, Replace_replacer, join_map_eq_ofList, inputsText, List.flatMap_map]

theorem Value_kept (w : List Char) (q : ℤ) (scope : Androidmk.Variable → String) :
    (MakeString.mk q (String.ofList (w.flatMap kept)) []).Value scope = String.ofList w := by
  simp [MakeString.Value, MakeString.unescape, unescapeChars_kept]

theorem Words_keptInputs (q : ℤ) (ins : List (List Char)) (h : ∀ u ∈ ins, u ≠ [] ∧ '\t' ∉ u) :
    (MakeString.mk q (String.ofList (keptInputs ins)) []).Words =
      some (ins.map fun u => .mk q (String.ofList (u.flatMap kept)) []) := by
  cases ins with
  | nil => exact Words_empty q
  | cons v vs => exact Words_kept q v vs (fun u hu => (h u hu).2) (fun u hu => (h u hu).1)

/-- The dependencies `Print` writes so that `Parse` reads them back: the output
holds no line end, tab, NUL, `=` or `?`, nor starts with a byte order
mark or a directive's name; each input is not empty and holds no line end,
tab, NUL, `=` or `;`. -/
def Printable (d : Deps) : Prop :=
  (∀ c ∈ d.Output.toList, c ∉ ['\n', '\r', '\t', '\x00', '=', '?']) ∧
    (∀ input ∈ d.Inputs, input ≠ "" ∧ ∀ c ∈ input.toList, c ∉ ['\n', '\r', '\t', '\x00', '=', ';']) ∧
    d.Output.toList.head? ≠ some bom ∧
    isDirective (String.ofList (d.Output.toList.takeWhile IsIdentRune)) = false

/-- Decided list by list: an instance for `∀ c ∈ l` found by search may be one
that runs over every character. -/
instance (d : Deps) : Decidable (Printable d) :=
  decidable_of_iff
    ((d.Output.toList.all fun c => c ∉ ['\n', '\r', '\t', '\x00', '=', '?']) &&
      (d.Inputs.all fun input =>
        input ≠ "" && input.toList.all fun c => c ∉ ['\n', '\r', '\t', '\x00', '=', ';']) &&
      d.Output.toList.head? ≠ some bom &&
      !isDirective (String.ofList (d.Output.toList.takeWhile IsIdentRune)))
    (by simp [Printable, and_assoc])

/-- The printed text starts with the output's first character, a backslash, a
dollar, or the colon. -/
theorem head_printed {w t : List Char} (hw : w.head? ≠ some bom) (hbom : ∀ c ∈ t.head?, c ≠ bom) :
    ∀ c ∈ (w.flatMap escape ++ t).head?, c ≠ bom := by
  cases w with
  | nil => simpa using hbom
  | cons c w =>
    have hc : c ≠ bom := fun h => hw (by simp [h])
    obtain ⟨d, l, hdl⟩ := escape_eq_cons c
    have hd : d ∈ escape c := by simp [hdl]
    simp only [List.flatMap_cons, hdl, List.cons_append, List.head?_cons, Option.mem_def,
      Option.some.injEq, forall_eq']
    rcases mem_escape hd with rfl | rfl | rfl
    · decide
    · decide
    · exact hc

theorem Parse_Print (d : Deps) (hd : Printable d) : Parse d.Print = some (.ok d) := by
  obtain ⟨hout, hins, hbom, hdir⟩ := hd
  have hins' : ∀ u ∈ d.Inputs.map String.toList,
      u ≠ [] ∧ '\t' ∉ u ∧ ∀ c ∈ u, Readable prerequisiteEnds c := by
    simp only [List.mem_map, forall_exists_index, and_imp, forall_apply_eq_imp_iff₂]
    intro input hinput
    obtain ⟨hne, hc⟩ := hins input hinput
    exact ⟨by simpa using hne, fun h => hc _ h (by simp), fun c hc' => readable_prerequisite (hc c hc')⟩
  obtain ⟨o₁, o₂, hparse⟩ := Parse_printed (o := 0) d.Output.toList _ hout hdir hins'
  have hclean : Clean (d.Output.toList.flatMap escape ++ ':' :: inputsText (d.Inputs.map String.toList)) :=
    clean_escaped (fun c hc => readable_target (hout c hc))
      ((clean_inputsText fun u hu => (hins' u hu).2.2).cons (by decide) (by decide))
  have hlen := congrArg List.length (toList_Print d)
  simp only [String.length_toList] at hlen
  rw [Parse, toList_Print, NewParser_clean hclean (head_printed hbom (by simp [bom])), ok_bind,
    hparse _ (by simp only [parseFuel, hlen, List.length_append, List.length_cons]; omega)]
  -- the target's words give the output, the prerequisites' words the inputs
  have hword : (d.Output.toList = [] → d.Output = "") := fun h => by simpa using congrArg String.ofList h
  have htab : '\t' ∉ d.Output.toList := fun h => hout _ h (by simp)
  by_cases hw : d.Output.toList = []
  · rw [hw] at hparse ⊢
    simp [parseNodes, parseNode, MakeString.Const, Words_empty,
      Words_keptInputs _ _ fun u hu => ⟨(hins' u hu).1, (hins' u hu).2.1⟩, Value_kept,
      Function.comp_def]
    rw [← hword hw]
  · have hwords := Words_keptInputs 0 [d.Output.toList]
      (fun u hu => by rw [List.mem_singleton.mp hu]; exact ⟨hw, htab⟩)
    simp only [keptInputs, List.flatMap_nil, List.append_nil, List.map_cons, List.map_nil] at hwords
    simp [parseNodes, parseNode, MakeString.Const, hwords,
      Words_keptInputs _ _ fun u hu => ⟨(hins' u hu).1, (hins' u hu).2.1⟩, Value_kept, Function.comp_def]

theorem Parse_Print_escaped :
    Parse (Deps.Print ⟨"a b$c", ["d:e", "f#g\\h"]⟩) = some (.ok ⟨"a b$c", ["d:e", "f#g\\h"]⟩) :=
  Parse_Print _ (by decide +kernel)

end roundTrip

end makedeps

end Soong
