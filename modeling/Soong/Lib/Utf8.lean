import Soong.Lib.InPlace
import Mathlib.Tactic.IntervalCases

/-!
# Go's UTF-8 decoding, and the byte searches that use it

`utf8.DecodeRune` and the searches `bytes.IndexByte` and `bytes.IndexFunc` of
Go's standard library, over byte slices as lists of `UInt8` and runes as
naturals.  `DecodeRune` follows `unicode/utf8`: a table `first` classifies the
first byte (ASCII, invalid, or the length of a sequence with the accepted
range of its second byte, packed in one byte), and every later byte must be a
continuation byte; a sequence that is too short or breaks a range decodes to
`RuneError` of width one.

What a search for an ASCII rune needs of the decoder is that it never steps
over an ASCII byte: a non-ASCII first byte decodes to a rune from `RuneSelf`
on, and the bytes it spans are all from `RuneSelf` on (`Skips`).  So
`IndexFunc` with a predicate that holds of no such rune finds the first ASCII
byte that satisfies it (`IndexFunc_eq_findIdx?`), whatever else the slice
holds.

## Main definitions

* `utf8.first`, `utf8.acceptRanges`, `utf8.DecodeRune`.
* `bytes.IndexByte`, `bytes.IndexFunc`.
* `utf8.Skips` — what decoding a non-ASCII first byte returns.

## Main results

* `utf8.DecodeRune_of_nonascii` — a non-ASCII first byte decodes as `Skips` says.
* `bytes.IndexFunc_eq_findIdx?` — a search for an ASCII rune is a search for
  its byte.
-/

namespace utf8

/-- `utf8.RuneError`, the replacement character. -/
def RuneError : ℕ := 0xFFFD

/-- `utf8.RuneSelf`: runes below it are their own single byte. -/
def RuneSelf : ℕ := 0x80

/-- The range of a continuation byte. -/
def locb : UInt8 := 0x80

def hicb : UInt8 := 0xBF

/-- An invalid first byte. -/
def xx : UInt8 := 0xF1

/-- An ASCII byte. -/
def «as» : UInt8 := 0xF0

-- The low nibble is the length of the sequence, the high one an index into
-- `acceptRanges`.
def s1 : UInt8 := 0x02
def s2 : UInt8 := 0x13
def s3 : UInt8 := 0x03
def s4 : UInt8 := 0x23
def s5 : UInt8 := 0x34
def s6 : UInt8 := 0x04
def s7 : UInt8 := 0x44

/-- The table `first` of `utf8.go`, written by ranges of the byte. -/
def first (p0 : UInt8) : UInt8 :=
  if p0.toNat < 0x80 then «as»
  else if p0.toNat < 0xC2 then xx
  else if p0.toNat < 0xE0 then s1
  else if p0.toNat = 0xE0 then s2
  else if p0.toNat < 0xED then s3
  else if p0.toNat = 0xED then s4
  else if p0.toNat < 0xF0 then s3
  else if p0.toNat = 0xF0 then s5
  else if p0.toNat < 0xF4 then s6
  else if p0.toNat = 0xF4 then s7
  else xx

/-- The accepted range of the second byte of a sequence. -/
structure acceptRange where
  lo : UInt8
  hi : UInt8

/-- `acceptRanges`; Go's array has sixteen entries, those past the fifth zero. -/
def acceptRanges : ℕ → acceptRange
  | 0 => ⟨locb, hicb⟩
  | 1 => ⟨0xA0, hicb⟩
  | 2 => ⟨locb, 0x9F⟩
  | 3 => ⟨0x90, hicb⟩
  | 4 => ⟨locb, 0x8F⟩
  | _ => ⟨0, 0⟩

def maskx : UInt8 := 0x3F
def mask2 : UInt8 := 0x1F
def mask3 : UInt8 := 0x0F
def mask4 : UInt8 := 0x07

/-- `utf8.DecodeRune`: the first rune of `p` and its width in bytes. -/
def DecodeRune (p : List UInt8) : ℕ × ℕ :=
  match p with
  | [] => (RuneError, 0)
  | p0 :: _ =>
    let x := first p0
    if x ≥ «as» then
      -- Go's mask-and-or: the low bit of `x` tells `xx` from `as`
      (if x = xx then RuneError else p0.toNat, 1)
    else
      let sz := (x &&& 7).toNat
      let accept := acceptRanges (x >>> 4).toNat
      if p.length < sz then (RuneError, 1)
      else
        let b1 := p.getD 1 0
        if b1 < accept.lo ∨ accept.hi < b1 then (RuneError, 1)
        else if sz ≤ 2 then
          ((p0 &&& mask2).toNat <<< 6 ||| (b1 &&& maskx).toNat, 2)
        else
          let b2 := p.getD 2 0
          if b2 < locb ∨ hicb < b2 then (RuneError, 1)
          else if sz ≤ 3 then
            ((p0 &&& mask3).toNat <<< 12 ||| (b1 &&& maskx).toNat <<< 6 |||
              (b2 &&& maskx).toNat, 3)
          else
            let b3 := p.getD 3 0
            if b3 < locb ∨ hicb < b3 then (RuneError, 1)
            else
              ((p0 &&& mask4).toNat <<< 18 ||| (b1 &&& maskx).toNat <<< 12 |||
                (b2 &&& maskx).toNat <<< 6 ||| (b3 &&& maskx).toNat, 4)

/-! ### Decoding a non-ASCII byte -/

/-- The entries of `first` for the bytes from `RuneSelf` on. -/
theorem first_of_nonascii {p0 : UInt8} (h : RuneSelf ≤ p0.toNat) :
    first p0 = xx ∨
    (first p0 = s1 ∧ 0xC2 ≤ p0.toNat ∧ p0.toNat ≤ 0xDF) ∨
    (first p0 = s2 ∧ p0.toNat = 0xE0) ∨
    (first p0 = s3 ∧ 0xE1 ≤ p0.toNat ∧ p0.toNat ≤ 0xEF) ∨
    (first p0 = s4 ∧ p0.toNat = 0xED) ∨
    (first p0 = s5 ∧ p0.toNat = 0xF0) ∨
    (first p0 = s6 ∧ 0xF1 ≤ p0.toNat ∧ p0.toNat ≤ 0xF3) ∨
    (first p0 = s7 ∧ p0.toNat = 0xF4) := by
  unfold first
  rw [RuneSelf] at h
  -- one case for each range of the table, the ASCII one excluded by `h`
  split_ifs with h0 h1 h2 h3 h4 h5 h6 h7 h8 h9
  · omega
  · exact Or.inl rfl
  · exact Or.inr <| Or.inl ⟨rfl, by omega, by omega⟩
  · exact Or.inr <| Or.inr <| Or.inl ⟨rfl, h3⟩
  · exact Or.inr <| Or.inr <| Or.inr <| Or.inl ⟨rfl, by omega, by omega⟩
  · exact Or.inr <| Or.inr <| Or.inr <| Or.inr <| Or.inl ⟨rfl, h5⟩
  · exact Or.inr <| Or.inr <| Or.inr <| Or.inl ⟨rfl, by omega, by omega⟩
  · exact Or.inr <| Or.inr <| Or.inr <| Or.inr <| Or.inr <| Or.inl ⟨rfl, h7⟩
  · exact Or.inr <| Or.inr <| Or.inr <| Or.inr <| Or.inr <| Or.inr <| Or.inl ⟨rfl, by omega, by omega⟩
  · exact Or.inr <| Or.inr <| Or.inr <| Or.inr <| Or.inr <| Or.inr <| Or.inr ⟨rfl, h9⟩
  · exact Or.inl rfl

/-- What decoding from a non-ASCII byte returns: a rune from `RuneSelf` on, and
a width of at least one byte, all of them from `RuneSelf` on. -/
structure Skips (p : List UInt8) (r w : ℕ) : Prop where
  rune_ge : RuneSelf ≤ r
  width_pos : 1 ≤ w
  width_le : w ≤ p.length
  continuation : ∀ b ∈ p.take w, RuneSelf ≤ b.toNat

theorem Skips.of_getD {p : List UInt8} {r w : ℕ} (hr : RuneSelf ≤ r) (hw : 1 ≤ w)
    (hwl : w ≤ p.length) (hk : ∀ k < w, RuneSelf ≤ (p.getD k 0).toNat) : Skips p r w where
  rune_ge := hr
  width_pos := hw
  width_le := hwl
  continuation := by
    intro b hb
    obtain ⟨k, hk', rfl⟩ := List.getElem_of_mem hb
    rw [List.length_take] at hk'
    rw [List.getElem_take, ← List.getD_eq_getElem p 0]
    exact hk k (by omega)

/-- A byte that is not a first byte is skipped alone. -/
theorem Skips.error {p0 : UInt8} (rest : List UInt8) (h : RuneSelf ≤ p0.toNat) :
    Skips (p0 :: rest) RuneError 1 :=
  .of_getD (by decide) (Nat.le_refl 1) (by simp) fun k hk => by
    rw [Nat.lt_one_iff.mp hk, List.getD_cons_zero]
    exact h

/-! The masks keep the low bits of a byte. -/

theorem and_maskx (b : ℕ) : b &&& maskx.toNat = b % 64 := Nat.and_two_pow_sub_one_eq_mod b 6

theorem and_mask2 (b : ℕ) : b &&& mask2.toNat = b % 32 := Nat.and_two_pow_sub_one_eq_mod b 5

theorem and_mask3 (b : ℕ) : b &&& mask3.toNat = b % 16 := Nat.and_two_pow_sub_one_eq_mod b 4

theorem and_mask4 (b : ℕ) : b &&& mask4.toNat = b % 8 := Nat.and_two_pow_sub_one_eq_mod b 3

/-- A bound on a rune read off its leading part. -/
theorem le_or_of_le_left {n a b : ℕ} (h : n ≤ a) : n ≤ a ||| b := Nat.le_trans h Nat.left_le_or

/-- A bound on a rune read off a later part. -/
theorem le_or_of_le_right {n a b : ℕ} (h : n ≤ b) : n ≤ a ||| b := Nat.le_trans h Nat.right_le_or

-- Whether `simp` leaves a length test as `rest = []` depends on the simp set in
-- scope, so the proof turns it back into a length either way.
set_option linter.unusedSimpArgs false in
/-- **Decoding never steps over an ASCII byte.**  The first byte's class fixes
the length; each class either fails to width one or spans continuation bytes,
and the ranges `first` and `acceptRanges` exclude the overlong forms, so the
rune is past `0x7F`: through the first byte's low bits, or through the second
byte's for `0xE0` and `0xF0`. -/
theorem DecodeRune_of_nonascii {p0 : UInt8} (rest : List UInt8) (h : RuneSelf ≤ p0.toNat) :
    Skips (p0 :: rest) (DecodeRune (p0 :: rest)).1 (DecodeRune (p0 :: rest)).2 := by
  have herr := Skips.error rest h
  rcases first_of_nonascii h with hx | ⟨hx, hlo, hhi⟩ | ⟨hx, h0⟩ | ⟨hx, hlo, hhi⟩ | ⟨hx, h0⟩ |
    ⟨hx, h0⟩ | ⟨hx, hlo, hhi⟩ | ⟨hx, h0⟩
  · -- `0x80`–`0xC1` and `0xF5`–`0xFF` start no sequence
    simpa [DecodeRune, hx, «as», xx] using herr
  -- a sequence: it fails to width one, or each byte it reads passed its check
  all_goals
    simp [DecodeRune, hx, s1, s2, s3, s4, s5, s6, s7, «as», acceptRanges, locb, hicb, and_maskx,
      and_mask2, and_mask3, and_mask4, Nat.shiftLeft_eq]
    split_ifs <;> try exact herr
    simp only [UInt8.lt_iff_toNat_lt, UInt8.reduceToNat, not_or, not_lt, RuneSelf,
      ← List.length_eq_zero_iff] at *
    refine .of_getD ?_ (by omega) (by simp only [List.length_cons]; omega) fun k hk => by
      interval_cases k <;>
        simp only [List.getD_eq_getElem?_getD, List.getElem?_cons_zero, List.getElem?_cons_succ,
          Option.getD_some, RuneSelf] <;> omega
    rw [RuneSelf]
  -- the rune: the ranges leave out the overlong forms
  · -- `0xC2`–`0xDF`: `p0 % 32 ≥ 2`
    exact le_or_of_le_left (by omega)
  · -- `0xE0`: the second byte from `0xA0` on
    exact le_or_of_le_left <| le_or_of_le_right (by omega)
  · -- `0xE1`–`0xEF`: `p0 % 16 ≥ 1`
    exact le_or_of_le_left <| le_or_of_le_left (by omega)
  · -- `0xED`: `p0 % 16 = 13`
    exact le_or_of_le_left <| le_or_of_le_left (by omega)
  · -- `0xF0`: the second byte from `0x90` on
    exact le_or_of_le_left <| le_or_of_le_left <| le_or_of_le_right (by omega)
  · -- `0xF1`–`0xF3`: `p0 % 8 ≥ 1`
    exact le_or_of_le_left <| le_or_of_le_left <| le_or_of_le_left (by omega)
  · -- `0xF4`: `p0 % 8 = 4`
    exact le_or_of_le_left <| le_or_of_le_left <| le_or_of_le_left (by omega)

example : DecodeRune [0xC3, 0xA9] = (0xE9, 2) := by decide

example : DecodeRune [0xE0, 0x80, 0x80] = (RuneError, 1) := by decide

end utf8

namespace bytes

open utf8

/-- `bytes.IndexByte`: the index of the first `c`, `-1` when there is none. -/
def IndexByte (s : List UInt8) (c : UInt8) : ℤ :=
  match s.findIdx? (· == c) with
  | some i => i
  | none => -1

/-- Where `IndexByte` finds `c`: nowhere, or after a prefix without it. -/
theorem IndexByte_cases (s : List UInt8) (c : UInt8) :
    (IndexByte s c = -1 ∧ c ∉ s) ∨
      ∃ pre rest, s = pre ++ c :: rest ∧ c ∉ pre ∧ IndexByte s c = pre.length := by
  unfold IndexByte
  cases h : s.findIdx? (· == c) with
  | none =>
    refine .inl ⟨rfl, fun hc => ?_⟩
    have := List.findIdx?_eq_none_iff.mp h c hc
    simp at this
  | some k =>
    obtain ⟨pre, x, post, rfl, hlen, hx, hpre⟩ := List.findIdx?_eq_some_split h
    rw [beq_iff_eq] at hx
    subst hx
    refine .inr ⟨pre, post, rfl, fun hc => ?_, by rw [hlen]⟩
    simpa using hpre x hc

/-- The rune `indexFunc` reads at `start`, and its width: a byte below
`RuneSelf` is its own rune, any other starts a sequence to decode. -/
def runeAt (s : List UInt8) (start : ℕ) : ℕ × ℕ :=
  if (s.getD start 0).toNat < RuneSelf then ((s.getD start 0).toNat, 1)
  else DecodeRune (s.drop start)

theorem drop_eq_getD_cons {s : List UInt8} {start : ℕ} (h : start < s.length) :
    s.drop start = s.getD start 0 :: s.drop (start + 1) := by
  rw [List.drop_eq_getElem_cons h, List.getD_eq_getElem s 0 h]

theorem runeAt_of_ascii {s : List UInt8} {start : ℕ} (hascii : (s.getD start 0).toNat < RuneSelf) :
    runeAt s start = ((s.getD start 0).toNat, 1) := if_pos hascii

/-- At a non-ASCII byte `indexFunc` reads a decoded sequence. -/
theorem skips_runeAt {s : List UInt8} {start : ℕ} (h : start < s.length)
    (hascii : ¬(s.getD start 0).toNat < RuneSelf) :
    Skips (s.drop start) (runeAt s start).1 (runeAt s start).2 := by
  rw [runeAt, if_neg hascii, drop_eq_getD_cons h]
  exact DecodeRune_of_nonascii _ (Nat.le_of_not_lt hascii)

theorem runeAt_width_pos {s : List UInt8} {start : ℕ} (h : start < s.length) :
    1 ≤ (runeAt s start).2 := by
  by_cases hascii : (s.getD start 0).toNat < RuneSelf
  · rw [runeAt_of_ascii hascii]
  · exact (skips_runeAt h hascii).width_pos

/-- `indexFunc(s, f, truth)` of `bytes.go`, from `start` on. -/
def indexFunc (s : List UInt8) (f : ℕ → Bool) (truth : Bool) (start : ℕ) : ℤ :=
  if h : start < s.length then
    if f (runeAt s start).1 = truth then start
    else indexFunc s f truth (start + (runeAt s start).2)
  else -1
termination_by s.length - start
decreasing_by
  have := runeAt_width_pos h
  omega

/-- `bytes.IndexFunc`: the byte index of the first rune satisfying `f`, `-1`
when there is none. -/
def IndexFunc (s : List UInt8) (f : ℕ → Bool) : ℤ := indexFunc s f true 0

/-- The ASCII bytes a predicate holds of. -/
def asciiSatisfies (f : ℕ → Bool) (b : UInt8) : Bool := decide (b.toNat < RuneSelf) && f b.toNat

/-- A search result at an offset. -/
def indexAt (start : ℕ) : Option ℕ → ℤ
  | some k => (start + k : ℕ)
  | none => -1

theorem indexAt_map_add (start w : ℕ) (o : Option ℕ) :
    indexAt start (o.map (· + w)) = indexAt (start + w) o := by
  cases o with
  | none => rfl
  | some k =>
    simp only [Option.map_some, indexAt]
    rw [Nat.add_comm k w, Nat.add_assoc]

/-- A decoded sequence is passed over with none of its bytes found. -/
theorem findIdx?_of_skips {f : ℕ → Bool} {p : List UInt8} {r w : ℕ} (hskip : Skips p r w) :
    p.findIdx? (asciiSatisfies f) = (List.findIdx? (asciiSatisfies f) (p.drop w)).map (· + w) := by
  have hnone : (p.take w).findIdx? (asciiSatisfies f) = none := by
    rw [List.findIdx?_eq_none_iff]
    intro b hb
    simp [asciiSatisfies, Nat.not_lt.mpr (hskip.continuation b hb)]
  conv_lhs => rw [← List.take_append_drop w p]
  rw [List.findIdx?_append, hnone, Option.none_or, List.length_take,
    Nat.min_eq_left hskip.width_le]

section ascii

variable {f : ℕ → Bool} (hf : ∀ r, RuneSelf ≤ r → f r = false)
include hf

/-- **A search for a rune that is no non-ASCII rune finds the first ASCII byte
it holds of**: the decoder never steps over an ASCII byte. -/
theorem indexFunc_eq_findIdx? (s : List UInt8) (start : ℕ) :
    indexFunc s f true start = indexAt start ((s.drop start).findIdx? (asciiSatisfies f)) := by
  fun_induction indexFunc s f true start with
  | case1 start h hfound =>
    -- found: the rune read is ASCII, since `f` fails on every other
    by_cases hascii : (s.getD start 0).toNat < RuneSelf
    · rw [runeAt_of_ascii hascii] at hfound
      have hsat : asciiSatisfies f (s.getD start 0) = true := by
        rw [asciiSatisfies, decide_eq_true hascii, Bool.true_and]
        exact hfound
      rw [drop_eq_getD_cons h, List.findIdx?_cons, if_pos hsat]
      rfl
    · have hskip := skips_runeAt h hascii
      rw [hf _ hskip.rune_ge] at hfound
      exact absurd hfound Bool.false_ne_true
  | case2 start h hnot ih =>
    rw [ih]
    by_cases hascii : (s.getD start 0).toNat < RuneSelf
    · -- an ASCII byte it fails on: one byte on
      rw [runeAt_of_ascii hascii] at hnot ⊢
      have hsat : ¬asciiSatisfies f (s.getD start 0) = true := by
        rw [asciiSatisfies, decide_eq_true hascii, Bool.true_and]
        exact hnot
      rw [drop_eq_getD_cons h, List.findIdx?_cons, if_neg hsat, indexAt_map_add]
    · -- a decoded sequence: none of its bytes is found
      rw [findIdx?_of_skips (skips_runeAt h hascii), List.drop_drop, indexAt_map_add]
  | case3 start h =>
    rw [List.drop_eq_nil_of_le (Nat.le_of_not_lt h)]
    rfl

theorem IndexFunc_eq_findIdx? (s : List UInt8) :
    IndexFunc s f = indexAt 0 (s.findIdx? (asciiSatisfies f)) := by
  rw [IndexFunc, indexFunc_eq_findIdx? hf, List.drop_zero]

end ascii

end bytes
