import Soong.Lib.Utf8

/-!
# Stripping ANSI escape codes

`stripAnsiEscapes` of `ui/terminal/util.go` removes the CSI sequences of a
byte slice, in place: an ESC followed by `[` starts one, and it runs through
the first ASCII letter after the `[`, or to the end of the slice.  Everything
else, an ESC that starts nothing included, is kept.

The code keeps three slices of one array: `read`, what is left to process;
`write`, where the next kept bytes go; and `input`, whose length drops by the
length of every sequence removed.  It finds the next ESC with
`bytes.IndexByte` and the end of a sequence with `bytes.IndexFunc`, which
decodes UTF-8; `Soong.Lib.Utf8` shows that this search still finds the first
ASCII letter, whatever bytes come before it.

`withoutCSI` states what the function is for, as a scan of the bytes.  The
loop keeps `Stripped`: the bytes written, followed by the scan of what is left
to read, are the scan of the whole input, and `input` is exactly long enough
to hold them.

## Main definitions

* `withoutCSI`, `skipCSI` — the bytes without their CSI sequences.
* `stripState`, `advance`, `stripStep`, `stripLoop`, `stripAnsiEscapes`.
* `Stripped` — the invariant of the loop.

## Main results

* `Stripped.step` — a pass keeps the invariant, or breaks with the scan.
* `stripAnsiEscapes_eq_withoutCSI` — the function computes the scan.
-/

namespace Soong

namespace terminal

/-- The end of a CSI sequence, as `stripAnsiEscapes` looks for it. -/
def csiEnd (r : ℕ) : Bool :=
  (r ≥ 'a'.toNat && r ≤ 'z'.toNat) || (r ≥ 'A'.toNat && r ≤ 'Z'.toNat)

/-! ### The bytes without their CSI sequences -/

/-- An ASCII letter. -/
def asciiLetter (b : UInt8) : Bool :=
  ('A'.toUInt8 ≤ b && b ≤ 'Z'.toUInt8) || ('a'.toUInt8 ≤ b && b ≤ 'z'.toUInt8)

mutual

/-- The bytes with every CSI sequence removed, found left to right. -/
def withoutCSI : List UInt8 → List UInt8
  | [] => []
  | [b] => [b]
  | b :: tl@(c :: rest) =>
    if b = 0x1b ∧ c = '['.toUInt8 then skipCSI rest else b :: withoutCSI tl

/-- The rest of a CSI sequence after its `[`, dropped through its first
letter, then the bytes after it without their CSI sequences. -/
def skipCSI : List UInt8 → List UInt8
  | [] => []
  | b :: rest => if asciiLetter b then withoutCSI rest else skipCSI rest

end

theorem withoutCSI_cons_of_ne {b : UInt8} (hb : b ≠ 0x1b) (l : List UInt8) :
    withoutCSI (b :: l) = b :: withoutCSI l := by
  cases l with
  | nil => simp [withoutCSI]
  | cons c rest => simp [withoutCSI, hb]

/-- Bytes with no ESC among them are kept as they are. -/
theorem withoutCSI_append_of_not_mem {pre : List UInt8} (h : (0x1b : UInt8) ∉ pre)
    (l : List UInt8) : withoutCSI (pre ++ l) = pre ++ withoutCSI l := by
  induction pre with
  | nil => rfl
  | cons b pre ih =>
    rw [List.mem_cons, not_or] at h
    rw [List.cons_append, withoutCSI_cons_of_ne (Ne.symm h.1), ih h.2, List.cons_append]

/-- An ESC that starts no sequence is kept. -/
theorem withoutCSI_esc_of_ne {c : UInt8} (hc : c ≠ '['.toUInt8) (rest : List UInt8) :
    withoutCSI (0x1b :: c :: rest) = 0x1b :: withoutCSI (c :: rest) := by
  simp [withoutCSI, hc]

theorem withoutCSI_esc_csi (rest : List UInt8) :
    withoutCSI (0x1b :: '['.toUInt8 :: rest) = skipCSI rest := by
  simp [withoutCSI]

/-- A sequence ends at its first letter. -/
theorem skipCSI_append_letter {pre post : List UInt8} {x : UInt8}
    (hpre : ∀ y ∈ pre, asciiLetter y = false) (hx : asciiLetter x = true) :
    skipCSI (pre ++ x :: post) = withoutCSI post := by
  induction pre with
  | nil => simp [skipCSI, hx]
  | cons y pre ih =>
    rw [List.forall_mem_cons] at hpre
    rw [List.cons_append, skipCSI, if_neg (by rw [hpre.1]; decide), ih hpre.2]

/-- A sequence with no letter runs to the end. -/
theorem skipCSI_of_no_letter {l : List UInt8} (h : ∀ y ∈ l, asciiLetter y = false) :
    skipCSI l = [] := by
  induction l with
  | nil => simp [skipCSI]
  | cons y l ih =>
    rw [List.forall_mem_cons] at h
    rw [skipCSI, if_neg (by rw [h.1]; decide), ih h.2]

example : withoutCSI ("interrupted: \x1b[12".toList.map Char.toUInt8) =
    "interrupted: ".toList.map Char.toUInt8 := by decide +kernel

example : withoutCSI ("other \x1bescape \x1b".toList.map Char.toUInt8) =
    "other \x1bescape \x1b".toList.map Char.toUInt8 := by decide +kernel

/-! ### The code -/

/-- The slices of `stripAnsiEscapes`, over the array `buf` they share: `write`
is `buf[w:]`, `read` is `buf[r:]` and `input` is `buf[:n]`. -/
structure stripState where
  buf : List UInt8
  w : ℕ
  r : ℕ
  n : ℕ

/-- `advance(write, read, count)`: copy `count` bytes from `read` to `write`,
and move both past them. -/
def advance (st : stripState) (count : ℕ) : stripState :=
  { st with
    buf := List.copyInto st.buf st.w ((st.buf.drop st.r).take count)
    w := st.w + count
    r := st.r + count }

/-- What a pass of the loop does: `break` with the slice returned, or go on. -/
inductive stripNext
  | done (out : List UInt8)
  | next (st : stripState)

/-- A pass of the loop of `stripAnsiEscapes`. -/
def stripStep (st : stripState) : stripNext :=
  let read := st.buf.drop st.r
  let i := bytes.IndexByte read 0x1b
  if i = -1 ∨ i + 1 ≥ read.length then
    -- no room for `<ESC>[`: copy the rest and return `input`
    .done ((List.copyInto st.buf st.w read).take st.n)
  else if read.getD (i + 1).toNat 0 ≠ '['.toUInt8 then
    .next (advance st (i + 1).toNat)
  else
    let st := advance st i.toNat
    let read := st.buf.drop st.r
    let i := bytes.IndexFunc read csiEnd
    -- no end found: the sequence runs to the end
    let i := (if i = -1 then (read.length : ℤ) - 1 else i) + 1
    .next { st with r := st.r + i.toNat, n := st.n - i.toNat }

/-- The loop of `stripAnsiEscapes`, for at most `fuel` passes. -/
def stripLoop : ℕ → stripState → List UInt8
  | 0, st => st.buf.take st.n
  | fuel + 1, st =>
    match stripStep st with
    | .done out => out
    | .next st => stripLoop fuel st

/-- `stripAnsiEscapes`.  Every pass that goes on moves `read` on, so the loop
ends within one pass more than the input has bytes. -/
def stripAnsiEscapes (input : List UInt8) : List UInt8 :=
  stripLoop (input.length + 1) ⟨input, 0, 0, input.length⟩

/-! ### The loop keeps the scan -/

@[simp] theorem advance_buf (st : stripState) (count : ℕ) :
    (advance st count).buf = List.copyInto st.buf st.w ((st.buf.drop st.r).take count) := rfl

@[simp] theorem advance_w (st : stripState) (count : ℕ) : (advance st count).w = st.w + count := rfl

@[simp] theorem advance_r (st : stripState) (count : ℕ) : (advance st count).r = st.r + count := rfl

@[simp] theorem advance_n (st : stripState) (count : ℕ) : (advance st count).n = st.n := rfl

/-- What the passes so far leave of `orig`: `read` is still `orig`'s, `write`
is at most `read`, the bytes written followed by the scan of `read` are the
scan of `orig`, and `input` ends where those bytes would end. -/
structure Stripped (orig : List UInt8) (st : stripState) : Prop where
  length_eq : st.buf.length = orig.length
  w_le : st.w ≤ st.r
  r_le : st.r ≤ orig.length
  n_eq : st.n = st.w + (orig.length - st.r)
  unread : st.buf.drop st.r = orig.drop st.r
  written : st.buf.take st.w ++ withoutCSI (orig.drop st.r) = withoutCSI orig

theorem stripped_init (orig : List UInt8) : Stripped orig ⟨orig, 0, 0, orig.length⟩ where
  length_eq := rfl
  w_le := Nat.le_refl 0
  r_le := Nat.zero_le _
  n_eq := by simp
  unread := rfl
  written := by simp

namespace Stripped

variable {orig : List UInt8} {st : stripState}

/-- Copying bytes whose scan is themselves, then what follows, keeps the
invariant. -/
theorem advance (h : Stripped orig st) {count : ℕ} (hcount : st.r + count ≤ orig.length)
    (hscan : withoutCSI (orig.drop st.r) =
      (orig.drop st.r).take count ++ withoutCSI (orig.drop (st.r + count))) :
    Stripped orig (advance st count) := by
  have hsrc : (st.buf.drop st.r).take count = (orig.drop st.r).take count := by rw [h.unread]
  have hlen : ((orig.drop st.r).take count).length = count := by
    rw [List.length_take, List.length_drop]
    omega
  have hfit : st.w + ((orig.drop st.r).take count).length ≤ st.buf.length := by
    rw [hlen, h.length_eq]
    have := h.w_le
    omega
  refine ⟨?_, ?_, hcount, ?_, ?_, ?_⟩
  · rw [advance_buf, hsrc, List.length_copyInto hfit, h.length_eq]
  · simp only [advance_w, advance_r]
    have := h.w_le
    omega
  · simp only [advance_n, advance_w, advance_r]
    have := h.n_eq
    omega
  · rw [advance_buf, advance_r, hsrc, List.drop_copyInto hfit (by rw [hlen]; have := h.w_le; omega),
      ← List.drop_drop, h.unread, List.drop_drop]
  · have htake := List.take_copyInto hfit
    rw [hlen] at htake
    rw [advance_buf, advance_w, advance_r, hsrc, htake, List.append_assoc, ← hscan, h.written]

/-- Skipping bytes whose scan is empty keeps the invariant. -/
theorem skip (h : Stripped orig st) {count : ℕ} (hcount : st.r + count ≤ orig.length)
    (hscan : withoutCSI (orig.drop st.r) = withoutCSI (orig.drop (st.r + count))) :
    Stripped orig { st with r := st.r + count, n := st.n - count } where
  length_eq := h.length_eq
  w_le := Nat.le_trans h.w_le (Nat.le_add_right _ _)
  r_le := hcount
  n_eq := by
    have := h.n_eq
    dsimp only
    omega
  unread := by
    dsimp only
    rw [← List.drop_drop, h.unread, List.drop_drop]
  written := by
    rw [← hscan]
    exact h.written

/-- Copying the rest, when its scan is itself, gives the scan of `orig`. -/
theorem copy_rest (h : Stripped orig st) (hscan : withoutCSI (orig.drop st.r) = orig.drop st.r) :
    (List.copyInto st.buf st.w (orig.drop st.r)).take st.n = withoutCSI orig := by
  have hfit : st.w + (orig.drop st.r).length ≤ st.buf.length := by
    rw [List.length_drop, h.length_eq]
    have := h.w_le
    have := h.r_le
    omega
  have hn : st.n = st.w + (orig.drop st.r).length := by
    rw [List.length_drop]
    exact h.n_eq
  rw [hn, List.take_copyInto hfit, ← hscan, h.written]

end Stripped

/-! ### Where a sequence ends -/

/-- No non-ASCII rune ends a sequence. -/
theorem csiEnd_of_nonascii {r : ℕ} (h : utf8.RuneSelf ≤ r) : csiEnd r = false := by
  rw [utf8.RuneSelf] at h
  simp [csiEnd]
  omega

/-- The bytes that end a sequence are the ASCII letters. -/
theorem asciiSatisfies_csiEnd : bytes.asciiSatisfies csiEnd = asciiLetter := by
  funext b
  have hA : 'A'.toUInt8.toNat = 65 := rfl
  have hZ : 'Z'.toUInt8.toNat = 90 := rfl
  have ha : 'a'.toUInt8.toNat = 97 := rfl
  have hz : 'z'.toUInt8.toNat = 122 := rfl
  rw [Bool.eq_iff_iff]
  simp only [bytes.asciiSatisfies, csiEnd, asciiLetter, utf8.RuneSelf, UInt8.le_iff_toNat_le, hA,
    hZ, ha, hz]
  simp only [Char.reduceToNat, Bool.and_eq_true, Bool.or_eq_true, decide_eq_true_eq]
  constructor
  · rintro ⟨-, hletter⟩
    omega
  · intro hletter
    exact ⟨decide_eq_true (by omega), by omega⟩

/-- **The search for the end of a sequence finds its first letter**, whatever
bytes come before it. -/
theorem IndexFunc_csi (rest : List UInt8) :
    bytes.IndexFunc (0x1b :: '['.toUInt8 :: rest) csiEnd =
      bytes.indexAt 2 (rest.findIdx? asciiLetter) := by
  rw [bytes.IndexFunc_eq_findIdx? (fun _ => csiEnd_of_nonascii), asciiSatisfies_csiEnd,
    List.findIdx?_cons, if_neg (by decide), List.findIdx?_cons, if_neg (by decide),
    bytes.indexAt_map_add, bytes.indexAt_map_add]

/-! ### A pass of the loop -/

/-- What a pass must give: the scan of `orig` when it breaks, and otherwise a
state that keeps the invariant with `read` moved on from `r`. -/
def stripNext.Good (orig : List UInt8) (r : ℕ) : stripNext → Prop
  | .done out => out = withoutCSI orig
  | .next st => Stripped orig st ∧ r < st.r

/-- The bytes after a cut of what is left to read. -/
theorem drop_add_of_drop_eq {l pre post : List UInt8} {r : ℕ} (h : l.drop r = pre ++ post) :
    l.drop (r + pre.length) = post := by
  rw [← List.drop_drop, h, List.drop_left]

theorem Stripped.step {orig : List UInt8} {st : stripState} (h : Stripped orig st) :
    (stripStep st).Good orig st.r := by
  have hN := h.r_le
  simp only [stripStep, h.unread]
  rcases bytes.IndexByte_cases (orig.drop st.r) 0x1b with ⟨hidx, hnot⟩ | ⟨pre, rest, hsplit, hpre, hidx⟩
  · -- no ESC: the rest is copied as it is
    rw [if_pos (Or.inl hidx)]
    exact h.copy_rest (by simpa [withoutCSI] using withoutCSI_append_of_not_mem hnot [])
  have hlen : st.r + (pre.length + 1 + rest.length) = orig.length := by
    have := congrArg List.length hsplit
    simp only [List.length_drop, List.length_append, List.length_cons] at this
    omega
  rw [hidx]
  cases rest with
  | nil =>
    -- a trailing ESC is kept
    rw [if_pos (Or.inr (by rw [hsplit]; simp))]
    exact h.copy_rest (by rw [hsplit, withoutCSI_append_of_not_mem hpre]; simp [withoutCSI])
  | cons c rest =>
    have hroom : ¬((pre.length : ℤ) = -1 ∨ (pre.length : ℤ) + 1 ≥ ((orig.drop st.r).length : ℤ)) := by
      rw [hsplit]
      simp
    have hc : (orig.drop st.r).getD ((pre.length : ℤ) + 1).toNat 0 = c := by
      rw [hsplit, Int.toNat_natCast_add_one]
      simp
    rw [if_neg hroom, hc, Int.toNat_natCast_add_one, Int.toNat_natCast]
    by_cases hcsi : c = '['.toUInt8
    · -- a CSI sequence: what precedes it is copied, and it is skipped
      subst hcsi
      rw [if_neg (not_not.mpr rfl)]
      have hread : orig.drop (st.r + pre.length) = 0x1b :: '['.toUInt8 :: rest :=
        drop_add_of_drop_eq hsplit
      have hscan : withoutCSI (orig.drop st.r) =
          (orig.drop st.r).take pre.length ++ withoutCSI (orig.drop (st.r + pre.length)) := by
        rw [hread, hsplit, withoutCSI_append_of_not_mem hpre, List.take_left]
      have h1 : Stripped orig (terminal.advance st pre.length) := h.advance (by simp at hlen; omega) hscan
      rw [h1.unread, advance_r, hread, IndexFunc_csi]
      rcases hk : rest.findIdx? asciiLetter with _ | k
      · -- no letter: the sequence runs to the end
        have hcount : ((if bytes.indexAt 2 none = -1 then
            (((0x1b : UInt8) :: '['.toUInt8 :: rest).length : ℤ) - 1 else bytes.indexAt 2 none) + 1).toNat =
            rest.length + 2 := by
          simp [bytes.indexAt]
          omega
        rw [hcount]
        refine ⟨h1.skip (by simp at hlen ⊢; omega) ?_, by simp; omega⟩
        rw [advance_r, hread, withoutCSI_esc_csi, skipCSI_of_no_letter (List.findIdx?_eq_none_iff.mp hk),
          List.drop_eq_nil_of_le (by simp at hlen; omega)]
        simp [withoutCSI]
      · -- the sequence runs through the first letter
        obtain ⟨pre', x, post, hrest, hk', hx, hpre'⟩ := List.findIdx?_eq_some_split hk
        have hcount : ((if bytes.indexAt 2 (some k) = -1 then
            (((0x1b : UInt8) :: '['.toUInt8 :: rest).length : ℤ) - 1 else bytes.indexAt 2 (some k)) + 1).toNat =
            k + 3 := by
          simp only [bytes.indexAt]
          omega
        have hpost : orig.drop (st.r + pre.length + (k + 3)) = post := by
          have hread' : orig.drop (st.r + pre.length) = ((0x1b :: '['.toUInt8 :: pre') ++ [x]) ++ post := by
            rw [hread, hrest]
            simp
          have hlen' : ((0x1b :: '['.toUInt8 :: pre') ++ [x]).length = k + 3 := by
            simp [hk']
          rw [← hlen', drop_add_of_drop_eq hread']
        have hklt : k < rest.length := by
          rw [hrest, ← hk']
          simp
        rw [hcount]
        refine ⟨h1.skip (by simp at hlen ⊢; omega) ?_, by simp; omega⟩
        rw [advance_r, hread, withoutCSI_esc_csi, hrest, skipCSI_append_letter hpre' hx, hpost]
    · -- an ESC that starts nothing is copied with what precedes it
      rw [if_pos hcsi]
      refine ⟨h.advance (by simp at hlen; omega) ?_, by simp⟩
      have hsplit' : orig.drop st.r = (pre ++ [0x1b]) ++ c :: rest := by simp [hsplit]
      have hscan : withoutCSI (orig.drop st.r) = (pre ++ [0x1b]) ++ withoutCSI (c :: rest) := by
        rw [hsplit, withoutCSI_append_of_not_mem hpre, withoutCSI_esc_of_ne hcsi]
        simp
      have hlen1 : (pre ++ [(0x1b : UInt8)]).length = pre.length + 1 := by simp
      rw [← hlen1, drop_add_of_drop_eq hsplit', hscan, hsplit', List.take_left]

/-! ### The loop -/

/-- **Enough passes give the scan.**  Each pass that goes on moves `read` on,
so one pass more than there are bytes left to read suffices; the induction is
on the passes left, with `Stripped` carried from pass to pass. -/
theorem Stripped.loop {orig : List UInt8} {fuel : ℕ} {st : stripState} (h : Stripped orig st)
    (hfuel : orig.length - st.r < fuel) : stripLoop fuel st = withoutCSI orig := by
  induction fuel generalizing st with
  | zero => omega
  | succ fuel ih =>
    have hstep := h.step
    rw [stripLoop]
    cases hs : stripStep st with
    | done out =>
      rw [hs] at hstep
      exact hstep
    | next st' =>
      rw [hs] at hstep
      obtain ⟨h', hlt⟩ := hstep
      have := h'.r_le
      exact ih h' (by omega)

/-- **`stripAnsiEscapes` removes exactly the CSI sequences**, found left to
right, and keeps every other byte in order. -/
theorem stripAnsiEscapes_eq_withoutCSI (b : List UInt8) : stripAnsiEscapes b = withoutCSI b :=
  (stripped_init b).loop (by simp)

end terminal

end Soong
