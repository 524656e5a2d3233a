import Mathlib.Data.Int.Notation
import Soong.Lib.DLList

/-!
# The manager of open input zips

`cmd/merge_zips/merge_zips.go`.  `mergeZips` may read more input zips than the
process may keep open, so every input zip is wrapped in a `ManagedInputZip`
owned by one `InputZipsManager`, which keeps at most `maxOpenZips` of them
open.  The open ones are chained in a circular doubly linked list through a
sentinel, `openInputZips`: the sentinel's `older` link is the most recently
opened zip, its `newer` link the least recently opened.  Opening an open zip
moves it to the front; opening a closed one first closes the front zip when
the limit is reached.

The model's heap holds the two links of every `ManagedInputZip` as functions
of its address; the sentinel is address `0` and the managed zips are `1 …
inputZips`.  The real zip's `Open` and `Close` are outside the manager, so a
call carries what they report: like `FileInputZip`'s, `Open` either opens the
zip or fails and leaves it closed, and `Close` always closes it and may report
an error.  A Go panic is `none`.

## Main definitions

* `InputZipsManager`, `unlink`, `link`, `reopen`, `close`, `checkOpenZipsDeque`.
* `ZipCall`, `InputZipsManager.run` — a sequence of `Open` and `Close` calls.
* `InputZipsManager.Valid s L` — the deque holds the open zips `L`, most
  recently opened first.
* `ZipCall.next` — what a call does to `L`.

## Main results

* `unlink_spec`, `link_spec` — the two pointer operations on a valid deque.
* `Valid.call` — every call keeps the deque valid, and moves `L` as `next` says.
* `Valid.run` — so does every sequence of calls.
* `Valid.checkOpenZipsDeque` — the check passes on a valid deque.
* `InputZipsManager_run_valid` — from a new manager, for every sequence of
  calls.
-/

namespace Soong

namespace MergeZips

open DLList

/-- An `InputZipsManager` and the heap of its `ManagedInputZip`s. -/
structure InputZipsManager where
  /-- `miz.older` of the zip at each address; `0` is the sentinel. -/
  older : ℕ → Option ℕ
  /-- `miz.newer` of the zip at each address. -/
  newer : ℕ → Option ℕ
  /-- `realInputZip.IsOpen()` of the zip at each address. -/
  isOpen : ℕ → Bool
  /-- `len(inputZips)`: the managed zips are at `1 … inputZips`. -/
  inputZips : ℕ
  nOpenZips : ℤ
  maxOpenZips : ℤ

namespace InputZipsManager

/-- `miz.older = v`. -/
def setOlder (s : InputZipsManager) (miz : ℕ) (v : Option ℕ) : InputZipsManager :=
  { s with older := Function.update s.older miz v }

/-- `miz.newer = v`. -/
def setNewer (s : InputZipsManager) (miz : ℕ) (v : Option ℕ) : InputZipsManager :=
  { s with newer := Function.update s.newer miz v }

/-- `unlink`: take `miz` out of the deque.  A nil neighbour or a neighbour that
does not link back panics. -/
def unlink (s : InputZipsManager) (miz : ℕ) : Option InputZipsManager := do
  let olderMiz ← s.older miz
  let newerMiz ← s.newer miz
  if s.older newerMiz ≠ some miz ∨ s.newer olderMiz ≠ some miz then none
  else
    let s := s.setNewer olderMiz (some newerMiz)
    let s := s.setOlder newerMiz (some olderMiz)
    let s := s.setNewer miz none
    some (s.setOlder miz none)

/-- `miz.link(olderMiz)`: put `olderMiz` right after `miz`.  A zip already
linked, or a broken link at `miz`, panics. -/
def link (s : InputZipsManager) (miz olderMiz : ℕ) : Option InputZipsManager := do
  if s.newer olderMiz ≠ none ∨ s.older olderMiz ≠ none then none
  else
    let oldOlderMiz ← s.older miz
    if s.newer oldOlderMiz ≠ some miz then none
    else
      let s := s.setOlder miz (some olderMiz)
      let s := s.setOlder olderMiz (some oldOlderMiz)
      let s := s.setNewer oldOlderMiz (some olderMiz)
      some (s.setNewer olderMiz (some miz))

/-- `close`: close an open zip, count it out and unlink it, returning the
error its real `Close` reports.  The sentinel has no real zip, so asking it
`IsOpen` panics. -/
def close (s : InputZipsManager) (closeErr : Option String) (miz : ℕ) :
    Option (InputZipsManager × Option String) :=
  if miz = 0 then none
  else if s.isOpen miz then do
    let s := { s with isOpen := Function.update s.isOpen miz false, nOpenZips := s.nOpenZips - 1 }
    let s ← s.unlink miz
    pure (s, closeErr)
  else pure (s, none)

/-- `reopen`: an open zip moves to the front; a closed one is opened, after
closing the front zip when the limit is reached. -/
def reopen (s : InputZipsManager) (closeErr openErr : Option String) (miz : ℕ) :
    Option (InputZipsManager × Option String) := do
  if s.isOpen miz then
    if miz ≠ 0 then
      let s ← s.unlink miz
      let s ← s.link 0 miz
      pure (s, none)
    else pure (s, none)
  else
    let (s, err) ← if s.nOpenZips ≥ s.maxOpenZips then do
        let victim ← s.older 0
        s.close closeErr victim
      else pure (s, none)
    match err with
    | some err => pure (s, some err)
    | none =>
      match openErr with
      -- the real `Open` failed and left the zip closed
      | some err => pure (s, some err)
      | none =>
        let s := { s with isOpen := Function.update s.isOpen miz true }
        let s ← s.link 0 miz
        pure ({ s with nOpenZips := s.nOpenZips + 1 }, none)

/-- The loop of `checkOpenZipsDeque` from `el`, with `nReallyOpen` open zips
counted; `.error` is a panic.  A round that goes on counts one more zip and
panics past `nOpenZips`, so `nOpenZips + 2` rounds of fuel always suffice. -/
def checkLoop (s : InputZipsManager) : ℕ → ℕ → ℤ → Option (Except String Unit)
  | 0, _, _ => none
  | fuel + 1, el, nReallyOpen =>
    match s.older el with
    | none => some (.error "nil dereference")
    | some elNext =>
      if s.newer elNext ≠ some el then some (.error "Element")
      else if elNext = 0 then
        if nReallyOpen > s.nOpenZips then some (.error "found open zips")
        else some (.ok ())
      else if !s.isOpen elNext then some (.error "Found unopened element")
      else if nReallyOpen + 1 > s.nOpenZips then some (.error "found open zips")
      else s.checkLoop fuel elNext (nReallyOpen + 1)

/-- `checkOpenZipsDeque`. -/
def checkOpenZipsDeque (s : InputZipsManager) : Option (Except String Unit) :=
  s.checkLoop (s.nOpenZips.toNat + 2) 0 0

end InputZipsManager

/-- `NewInputZipsManager`: the sentinel links to itself.  A limit under three
panics. -/
def NewInputZipsManager (maxOpenZips : ℤ) : Option InputZipsManager :=
  if maxOpenZips < 3 then none
  else some ⟨fun p => if p = 0 then some 0 else none, fun p => if p = 0 then some 0 else none,
    fun _ => false, 0, 0, maxOpenZips⟩

namespace InputZipsManager

/-- `Manage`: a new zip, closed and unlinked, at the next address. -/
def Manage (s : InputZipsManager) : InputZipsManager × ℕ :=
  ({ s with inputZips := s.inputZips + 1 }, s.inputZips + 1)

/-- `n` calls of `Manage`. -/
def manage (s : InputZipsManager) : ℕ → InputZipsManager
  | 0 => s
  | n + 1 => ((s.manage n).Manage).1

end InputZipsManager

/-- A call on a managed zip, with what its real zip reports: `Open` of the zip
at `miz`, with the error of closing the front zip if the limit is reached and
the error of opening it, or `Close`, with the error of closing it. -/
inductive ZipCall
  | Open (miz : ℕ) (closeErr openErr : Option String)
  | Close (miz : ℕ) (closeErr : Option String)
  deriving DecidableEq, Repr

/-- The zip a call is made on. -/
def ZipCall.miz : ZipCall → ℕ
  | .Open miz _ _ => miz
  | .Close miz _ => miz

/-- **What a call does to the open zips**, most recently opened first: `Open`
moves an open zip to the front, or adds a closed one there after closing the
front zip at the limit, unless closing that or opening fails; `Close` takes the
zip out. -/
def ZipCall.next (maxOpenZips : ℤ) (L : List ℕ) : ZipCall → List ℕ
  | .Open miz closeErr openErr =>
    if miz ∈ L then miz :: L.erase miz
    else if maxOpenZips ≤ L.length then
      if closeErr.isSome || openErr.isSome then L.tail else miz :: L.tail
    else if openErr.isSome then L else miz :: L
  | .Close miz _ => L.erase miz

/-- The open zips after a sequence of calls. -/
def ZipCall.nextAll (maxOpenZips : ℤ) (L : List ℕ) (calls : List ZipCall) : List ℕ :=
  calls.foldl (fun L c => c.next maxOpenZips L) L

namespace InputZipsManager

/-- `ManagedInputZip.Open` and `ManagedInputZip.Close`. -/
def call (s : InputZipsManager) : ZipCall → Option (InputZipsManager × Option String)
  | .Open miz closeErr openErr => s.reopen closeErr openErr miz
  | .Close miz closeErr => s.close closeErr miz

/-- A sequence of calls, whatever errors they return; `none` if one panics. -/
def run (s : InputZipsManager) : List ZipCall → Option InputZipsManager
  | [] => some s
  | c :: cs => do
    let (s, _) ← s.call c
    s.run cs

/-! ### Unlinking and linking -/

section pointers

variable {s : InputZipsManager} {L : List ℕ}

/-- **`unlink` of a zip of the deque** takes it out and clears its links,
changing no link of a zip outside the deque. -/
theorem unlink_spec (hseg : Seg s.older s.newer 0 L 0) (hnd : (0 :: L).Nodup) {x : ℕ}
    (hx : x ∈ L) :
    ∃ older newer, s.unlink x = some { s with older, newer } ∧
      Seg older newer 0 (L.erase x) 0 ∧ older x = none ∧ newer x = none ∧
      ∀ y, y ∉ 0 :: L → older y = s.older y ∧ newer y = s.newer y := by
  obtain ⟨l₁, l₂, rfl⟩ := List.append_of_mem hx
  obtain ⟨hbefore, hafter⟩ := seg_append_cons.mp hseg
  -- the neighbours: `q` after `x`, `p` before it, each linking back
  obtain ⟨q, hq, hqx⟩ := hafter.older_newer (List.mem_cons_self)
  obtain ⟨p, hp, hpx⟩ :=
    hbefore.newer_older (List.mem_append_right l₁ (List.mem_singleton_self x))
  have hnd' : (l₁ ++ x :: l₂ ++ [0]).Nodup := List.nodup_append_comm.mp hnd
  have hunlinked := hseg.unlink hq hp hnd hnd'
  have hpmem : p ∈ 0 :: l₁ := hbefore.mem_of_newer hp
  have hqmem : q ∈ l₂ ++ [0] := hafter.mem_of_older hq
  -- `x` occurs once
  obtain ⟨-, hnd₂, hdisj⟩ := List.nodup_append.mp (List.nodup_cons.mp hnd).2
  have hx₁ : x ∉ l₁ := fun h => hdisj x h x List.mem_cons_self rfl
  have hx₂ : x ∉ l₂ := (List.nodup_cons.mp hnd₂).1
  have hx0 : x ≠ 0 := by
    rintro rfl
    exact (List.nodup_cons.mp hnd).1 hx
  have hxl : x ∉ 0 :: (l₁ ++ l₂) := by simp [hx₁, hx₂, hx0]
  have hxr : x ∉ l₁ ++ l₂ ++ [0] := by simp [hx₁, hx₂, hx0]
  have herase : (l₁ ++ x :: l₂).erase x = l₁ ++ l₂ := by
    rw [List.erase_append_right _ hx₁, List.erase_cons_head]
  refine ⟨Function.update (Function.update s.older p (some q)) x none,
    Function.update (Function.update s.newer q (some p)) x none, ?_, ?_, by simp, by simp, ?_⟩
  · simp [unlink, hq, hp, hpx, hqx, setOlder, setNewer]
  · rw [herase]
    refine hunlinked.frame ?_ ?_
    · intro r hr
      have hrx : r ≠ x := fun h => hxl (h ▸ hr)
      simp [hrx]
    · intro r hr
      have hrx : r ≠ x := fun h => hxr (h ▸ hr)
      simp [hrx]
  · -- a zip outside the deque is neither `x` nor a neighbour of it
    intro y hy
    have hyx : y ≠ x := by rintro rfl; simp at hy
    have hyp : y ≠ p := by rintro rfl; simp_all
    have hyq : y ≠ q := by rintro rfl; simp_all
    simp [hyx, hyp, hyq]

/-- **`link` of a fresh zip after the sentinel** puts it at the front of the
deque, changing no link of a zip outside the deque. -/
theorem link_spec (hseg : Seg s.older s.newer 0 L 0) (hnd : (0 :: L).Nodup) {x : ℕ}
    (hx0 : x ≠ 0) (hxL : x ∉ L) (holder : s.older x = none) (hnewer : s.newer x = none) :
    ∃ older newer, s.link 0 x = some { s with older, newer } ∧
      Seg older newer 0 (x :: L) 0 ∧
      ∀ y, y ∉ 0 :: x :: L → older y = s.older y ∧ newer y = s.newer y := by
  -- the sentinel's old front zip `o` links back to it
  obtain ⟨o, ho, hoz⟩ := hseg.older_newer (List.mem_cons_self)
  have homem : o ∈ L ++ [0] := hseg.mem_of_older ho
  have hx : x ∉ 0 :: L ++ [0] := by simp [hx0, hxL]
  refine ⟨Function.update (Function.update s.older 0 (some x)) x (some o),
    Function.update (Function.update s.newer o (some x)) x (some 0), ?_,
    hseg.link ho hx hnd (List.nodup_append_comm.mp hnd), ?_⟩
  · simp [link, holder, hnewer, ho, hoz, setOlder, setNewer]
  · intro y hy
    have hy0 : y ≠ 0 := by rintro rfl; simp at hy
    have hyx : y ≠ x := by rintro rfl; simp at hy
    have hyo : y ≠ o := by rintro rfl; simp_all
    simp [hy0, hyx, hyo]

end pointers

/-! ### The valid deque -/

/-- **The deque holds the open zips `L`**, most recently opened first: a
circular doubly linked list through the sentinel of distinct zips, exactly the
open ones, all managed, counted by `nOpenZips` within the limit; a zip out of
the deque has no links. -/
structure Valid (s : InputZipsManager) (L : List ℕ) : Prop where
  seg : Seg s.older s.newer 0 L 0
  nodup : (0 :: L).Nodup
  mem_iff : ∀ x, x ≠ 0 → (x ∈ L ↔ s.isOpen x = true)
  managed : ∀ x, x ≠ 0 → s.isOpen x = true → x ≤ s.inputZips
  unlinked : ∀ x, x ≠ 0 → x ∉ L → s.older x = none ∧ s.newer x = none
  count : s.nOpenZips = L.length
  bound : s.nOpenZips ≤ s.maxOpenZips
  atLeast3 : 3 ≤ s.maxOpenZips

theorem Valid.ne_zero {s : InputZipsManager} {L : List ℕ} (h : s.Valid L) {x : ℕ} (hx : x ∈ L) :
    x ≠ 0 := by
  rintro rfl
  exact (List.nodup_cons.mp h.nodup).1 hx

/-- Links that agree with the deque's at a zip out of it leave that zip
unlinked. -/
theorem Valid.unlinked_of_frame {s : InputZipsManager} {L : List ℕ} (h : s.Valid L)
    {older newer : ℕ → Option ℕ} {y : ℕ} (hy0 : y ≠ 0) (hyL : y ∉ L) (ho : older y = s.older y)
    (hn : newer y = s.newer y) : older y = none ∧ newer y = none :=
  ⟨ho.trans (h.unlinked y hy0 hyL).1, hn.trans (h.unlinked y hy0 hyL).2⟩

/-- What the deque holds is the managed zips that are open. -/
theorem Valid.mem_iff_open {s : InputZipsManager} {L : List ℕ} (h : s.Valid L) (x : ℕ) :
    x ∈ L ↔ 1 ≤ x ∧ x ≤ s.inputZips ∧ s.isOpen x = true := by
  constructor
  · intro hx
    have hx0 := h.ne_zero hx
    have hopen := (h.mem_iff x hx0).mp hx
    exact ⟨Nat.one_le_iff_ne_zero.mpr hx0, h.managed x hx0 hopen, hopen⟩
  · rintro ⟨hx1, -, hopen⟩
    exact (h.mem_iff x (Nat.one_le_iff_ne_zero.mp hx1)).mpr hopen

/-- Every zip of the deque, the sentinel included, is its older neighbour's
newer neighbour and its newer neighbour's older one. -/
theorem Valid.neighbours {s : InputZipsManager} {L : List ℕ} (h : s.Valid L) {x : ℕ}
    (hx : x ∈ 0 :: L) :
    (∃ y, s.older x = some y ∧ s.newer y = some x) ∧
      (∃ y, s.newer x = some y ∧ s.older y = some x) := by
  refine ⟨h.seg.older_newer hx, h.seg.newer_older ?_⟩
  rcases List.mem_cons.mp hx with rfl | hx
  · simp
  · simp [hx]

/-- A new zip is closed and has no links. -/
theorem Valid.Manage {s : InputZipsManager} {L : List ℕ} (h : s.Valid L) : s.Manage.1.Valid L :=
  ⟨h.seg, h.nodup, h.mem_iff, fun x hx0 hx => Nat.le_trans (h.managed x hx0 hx) (Nat.le_succ _),
    h.unlinked, h.count, h.bound, h.atLeast3⟩

theorem Valid.manage {s : InputZipsManager} {L : List ℕ} (h : s.Valid L) (n : ℕ) :
    (s.manage n).Valid L := by
  induction n with
  | zero => exact h
  | succ n ih => exact ih.Manage

@[simp] theorem inputZips_manage (s : InputZipsManager) (n : ℕ) :
    (s.manage n).inputZips = s.inputZips + n := by
  induction n with
  | zero => rfl
  | succ n ih => simp [manage, Manage, ih, Nat.add_assoc]

@[simp] theorem maxOpenZips_manage (s : InputZipsManager) (n : ℕ) :
    (s.manage n).maxOpenZips = s.maxOpenZips := by
  induction n with
  | zero => rfl
  | succ n ih => exact ih

/-! ### Calls on a valid deque -/

section calls

variable {s : InputZipsManager} {L : List ℕ}

/-- **`close` of a managed zip**: an open zip leaves the deque and the error
its real `Close` reports is returned; a closed zip is left alone. -/
theorem Valid.close (h : s.Valid L) (closeErr : Option String) {x : ℕ} (hx0 : x ≠ 0) :
    ∃ s' err, s.close closeErr x = some (s', err) ∧ s'.Valid (L.erase x) ∧
      s'.inputZips = s.inputZips ∧ s'.maxOpenZips = s.maxOpenZips ∧ (x ∈ L → err = closeErr) := by
  by_cases hopen : s.isOpen x = true
  · have hxL : x ∈ L := (h.mem_iff x hx0).mpr hopen
    -- the real zip is closed and counted out, and then unlinked
    let s₁ : InputZipsManager :=
      { s with
        isOpen := Function.update s.isOpen x false
        nOpenZips := s.nOpenZips - 1 }
    obtain ⟨older, newer, hunlink, hseg, hxo, hxn, hframe⟩ :=
      unlink_spec (s := s₁) h.seg h.nodup hxL
    have hclose : s.close closeErr x = some ({ s₁ with older, newer }, closeErr) := by
      unfold InputZipsManager.close
      rw [if_neg hx0, if_pos hopen]
      show (s₁.unlink x >>= fun s => pure (s, closeErr)) = _
      rw [hunlink]
      rfl
    refine ⟨_, closeErr, hclose, ⟨hseg, ?_, ?_, ?_, ?_, ?_, ?_, h.atLeast3⟩, rfl, rfl,
      fun _ => rfl⟩
    · exact List.Nodup.sublist (List.erase_sublist.cons_cons 0) h.nodup
    · intro y hy0
      by_cases hyx : y = x
      · subst hyx
        simp [s₁, (List.nodup_cons.mp h.nodup).2.not_mem_erase]
      · simp [s₁, List.mem_erase_of_ne hyx, hyx, h.mem_iff y hy0]
    · intro y hy0 hy
      have hyx : y ≠ x := by rintro rfl; simp [s₁] at hy
      simp only [s₁, Function.update_of_ne hyx] at hy
      exact h.managed y hy0 hy
    · intro y hy0 hy
      by_cases hyx : y = x
      · subst hyx
        exact ⟨hxo, hxn⟩
      · have hyL : y ∉ L := fun hm => hy ((List.mem_erase_of_ne hyx).mpr hm)
        obtain ⟨ho, hn⟩ := hframe y (by simp [hy0, hyL])
        exact h.unlinked_of_frame hy0 hyL ho hn
    · have := List.length_erase_of_mem hxL
      have hpos := List.length_pos_of_mem hxL
      simp only [s₁, h.count]
      omega
    · have := h.bound
      simp only [s₁]
      omega
  · have hxL : x ∉ L := fun hm => hopen ((h.mem_iff x hx0).mp hm)
    refine ⟨s, none, by simp [InputZipsManager.close, hx0, hopen], ?_, rfl, rfl,
      fun hm => absurd hm hxL⟩
    rwa [List.erase_of_not_mem hxL]

/-- **Opening a closed zip with room for it**: marked open, linked after the
sentinel and counted, it is the front of the deque. -/
theorem Valid.link_fresh (h : s.Valid L) {x : ℕ} (hx0 : x ≠ 0) (hxL : x ∉ L)
    (hxn : x ≤ s.inputZips) (hroom : s.nOpenZips < s.maxOpenZips) :
    ∃ s', { s with isOpen := Function.update s.isOpen x true }.link 0 x = some s' ∧
      { s' with nOpenZips := s'.nOpenZips + 1 }.Valid (x :: L) ∧ s'.isOpen x = true ∧
      s'.inputZips = s.inputZips ∧ s'.maxOpenZips = s.maxOpenZips := by
  let s₁ : InputZipsManager := { s with isOpen := Function.update s.isOpen x true }
  obtain ⟨hxo, hxn'⟩ := h.unlinked x hx0 hxL
  obtain ⟨older, newer, hlink, hseg, hframe⟩ := link_spec (s := s₁) h.seg h.nodup hx0 hxL hxo hxn'
  refine ⟨_, hlink, ⟨hseg, ?_, ?_, ?_, ?_, ?_, ?_, h.atLeast3⟩, by simp [s₁], rfl, rfl⟩
  · have h0 : (0 : ℕ) ∉ L := (List.nodup_cons.mp h.nodup).1
    exact List.nodup_cons.mpr ⟨by simp [h0, Ne.symm hx0],
      List.nodup_cons.mpr ⟨hxL, (List.nodup_cons.mp h.nodup).2⟩⟩
  · intro y hy0
    by_cases hyx : y = x
    · subst hyx
      simp [s₁]
    · simp [s₁, hyx, h.mem_iff y hy0]
  · intro y hy0 hy
    by_cases hyx : y = x
    · subst hyx
      exact hxn
    · simp only [s₁, Function.update_of_ne hyx] at hy
      exact h.managed y hy0 hy
  · intro y hy0 hy
    have hyL : y ∉ L := fun hm => hy (List.mem_cons_of_mem x hm)
    obtain ⟨ho, hn⟩ := hframe y (by simp_all)
    exact h.unlinked_of_frame hy0 hyL ho hn
  · simp [s₁, h.count]
  · have := h.bound
    simp only [s₁]
    omega

/-- **`reopen` of an open zip** moves it to the front. -/
theorem Valid.reopen_open (h : s.Valid L) (closeErr openErr : Option String) {x : ℕ}
    (hx0 : x ≠ 0) (hopen : s.isOpen x = true) :
    ∃ s', s.reopen closeErr openErr x = some (s', none) ∧ s'.Valid (x :: L.erase x) ∧
      s'.isOpen = s.isOpen ∧ s'.inputZips = s.inputZips ∧ s'.maxOpenZips = s.maxOpenZips := by
  have hxL : x ∈ L := (h.mem_iff x hx0).mpr hopen
  obtain ⟨older₁, newer₁, hunlink, hseg₁, hxo, hxn, hframe₁⟩ := unlink_spec h.seg h.nodup hxL
  let s₁ : InputZipsManager := { s with older := older₁, newer := newer₁ }
  have hnd₁ : (0 :: L.erase x).Nodup := List.Nodup.sublist (List.erase_sublist.cons_cons 0) h.nodup
  have hxL₁ : x ∉ L.erase x := (List.nodup_cons.mp h.nodup).2.not_mem_erase
  obtain ⟨older₂, newer₂, hlink, hseg₂, hframe₂⟩ := link_spec (s := s₁) hseg₁ hnd₁ hx0 hxL₁ hxo hxn
  have hreopen : s.reopen closeErr openErr x = some ({ s₁ with older := older₂, newer := newer₂ }, none) := by
    simp only [InputZipsManager.reopen, hopen, if_true, hx0, ne_eq, not_false_eq_true]
    show (s.unlink x >>= fun s => s.link 0 x >>= fun s => pure (s, none)) = _
    rw [hunlink]
    show (s₁.link 0 x >>= fun s => pure (s, none)) = _
    rw [hlink]
    rfl
  -- the deque holds the same zips, `x` first
  have hperm : (x :: L.erase x).Perm L := (List.perm_cons_erase hxL).symm
  refine ⟨_, hreopen, ⟨hseg₂, (hperm.cons 0).nodup_iff.mpr h.nodup, ?_, h.managed, ?_, ?_, h.bound,
    h.atLeast3⟩, rfl, rfl, rfl⟩
  · intro y hy0
    exact hperm.mem_iff.trans (h.mem_iff y hy0)
  · intro y hy0 hy
    have hyL : y ∉ L := fun hm => hy (hperm.mem_iff.mpr hm)
    obtain ⟨ho₂, hn₂⟩ := hframe₂ y (by simp_all)
    obtain ⟨ho₁, hn₁⟩ := hframe₁ y (by simp_all)
    exact h.unlinked_of_frame hy0 hyL (ho₂.trans ho₁) (hn₂.trans hn₁)
  · exact h.count.trans (congrArg _ hperm.length_eq.symm)

/-- **`reopen` of a closed zip**: at the limit the front zip is closed first;
the zip is opened and put at the front unless that close or the open fails. -/
theorem Valid.reopen_closed (h : s.Valid L) (closeErr openErr : Option String) {x : ℕ}
    (hx0 : x ≠ 0) (hxn : x ≤ s.inputZips) (hopen : s.isOpen x = false) :
    ∃ s' err, s.reopen closeErr openErr x = some (s', err) ∧
      s'.Valid ((ZipCall.Open x closeErr openErr).next s.maxOpenZips L) ∧
      s'.inputZips = s.inputZips ∧ s'.maxOpenZips = s.maxOpenZips ∧
      (err = none → s'.isOpen x = true) := by
  have hxL : x ∉ L := fun hm => by simp [(h.mem_iff x hx0).mp hm] at hopen
  by_cases hfull : s.maxOpenZips ≤ s.nOpenZips
  · -- at the limit: the front zip `v` is closed first
    have hlen : s.maxOpenZips ≤ L.length := h.count ▸ hfull
    obtain ⟨v, L', rfl⟩ : ∃ v L', L = v :: L' := by
      cases L with
      | nil =>
        have := h.atLeast3
        simp at hlen
        omega
      | cons v L' => exact ⟨v, L', rfl⟩
    have hv : s.older 0 = some v := h.seg.1
    have hv0 : v ≠ 0 := h.ne_zero List.mem_cons_self
    obtain ⟨s₁, err₁, hclose, hvalid₁, hin₁, hmax₁, herr₁⟩ := h.close closeErr hv0
    obtain rfl : err₁ = closeErr := herr₁ List.mem_cons_self
    rw [List.erase_cons_head] at hvalid₁
    have hxL' : x ∉ L' := fun hm => hxL (List.mem_cons_of_mem v hm)
    have hnext : (ZipCall.Open x err₁ openErr).next s.maxOpenZips (v :: L') =
        if err₁.isSome || openErr.isSome then L' else x :: L' := by
      rw [ZipCall.next, if_neg hxL, if_pos hlen, List.tail_cons]
    rw [hnext]
    cases err₁ with
    | some e =>
      refine ⟨s₁, some e, ?_, by simpa using hvalid₁, hin₁, hmax₁, by simp⟩
      simp [InputZipsManager.reopen, hopen, hfull, hv, hclose]
    | none =>
      cases openErr with
      | some e =>
        refine ⟨s₁, some e, ?_, by simpa using hvalid₁, hin₁, hmax₁, by simp⟩
        simp [InputZipsManager.reopen, hopen, hfull, hv, hclose]
      | none =>
        -- the close made room
        have hroom : s₁.nOpenZips < s₁.maxOpenZips := by
          have hcount := h.count
          have hbound := h.bound
          rw [hvalid₁.count, hmax₁]
          simp only [List.length_cons] at hcount
          omega
        obtain ⟨s₂, hlink, hvalid₂, hopen₂, hin₂, hmax₂⟩ :=
          hvalid₁.link_fresh hx0 hxL' (hin₁ ▸ hxn) hroom
        refine ⟨{ s₂ with nOpenZips := s₂.nOpenZips + 1 }, none, ?_, by simpa using hvalid₂,
          by simp [hin₂, hin₁], by simp [hmax₂, hmax₁], fun _ => hopen₂⟩
        simp [InputZipsManager.reopen, hopen, hfull, hv, hclose, hlink]
  · -- below the limit: nothing is closed
    have hlen : ¬s.maxOpenZips ≤ L.length := h.count ▸ hfull
    have hnext : (ZipCall.Open x closeErr openErr).next s.maxOpenZips L =
        if openErr.isSome then L else x :: L := by
      rw [ZipCall.next, if_neg hxL, if_neg hlen]
    rw [hnext]
    cases openErr with
    | some e =>
      refine ⟨s, some e, ?_, by simpa using h, rfl, rfl, by simp⟩
      simp [InputZipsManager.reopen, hopen, hfull]
    | none =>
      obtain ⟨s₂, hlink, hvalid₂, hopen₂, hin₂, hmax₂⟩ :=
        h.link_fresh hx0 hxL hxn (by omega)
      refine ⟨{ s₂ with nOpenZips := s₂.nOpenZips + 1 }, none, ?_, by simpa using hvalid₂,
        by simp [hin₂], by simp [hmax₂], fun _ => hopen₂⟩
      simp [InputZipsManager.reopen, hopen, hfull, hlink]

/-- **Every call on a managed zip keeps the deque valid**, and moves the open
zips as `next` says. -/
theorem Valid.call (h : s.Valid L) (c : ZipCall) (hc0 : c.miz ≠ 0) (hcn : c.miz ≤ s.inputZips) :
    ∃ s' err, s.call c = some (s', err) ∧ s'.Valid (c.next s.maxOpenZips L) ∧
      s'.inputZips = s.inputZips ∧ s'.maxOpenZips = s.maxOpenZips := by
  cases c with
  | Open x closeErr openErr =>
    cases hopen : s.isOpen x with
    | true =>
      obtain ⟨s', hreopen, hvalid, -, hin, hmax⟩ := h.reopen_open closeErr openErr hc0 hopen
      have hxL : x ∈ L := (h.mem_iff x hc0).mpr hopen
      refine ⟨s', none, hreopen, ?_, hin, hmax⟩
      rwa [ZipCall.next, if_pos hxL]
    | false =>
      obtain ⟨s', err, hreopen, hvalid, hin, hmax, -⟩ :=
        h.reopen_closed closeErr openErr hc0 hcn hopen
      exact ⟨s', err, hreopen, hvalid, hin, hmax⟩
  | Close x closeErr =>
    obtain ⟨s', err, hclose, hvalid, hin, hmax, -⟩ := h.close closeErr hc0
    exact ⟨s', err, hclose, hvalid, hin, hmax⟩

/-- **An `Open` that returns no error leaves the zip open.** -/
theorem Valid.reopen_isOpen (h : s.Valid L) (closeErr openErr : Option String) {x : ℕ}
    (hx0 : x ≠ 0) (hxn : x ≤ s.inputZips) :
    ∃ s' err, s.reopen closeErr openErr x = some (s', err) ∧ (err = none → s'.isOpen x = true) := by
  cases hopen : s.isOpen x with
  | true =>
    obtain ⟨s', hreopen, -, hisOpen, -⟩ := h.reopen_open closeErr openErr hx0 hopen
    exact ⟨s', none, hreopen, fun _ => hisOpen ▸ hopen⟩
  | false =>
    obtain ⟨s', err, hreopen, -, -, -, hisOpen⟩ := h.reopen_closed closeErr openErr hx0 hxn hopen
    exact ⟨s', err, hreopen, hisOpen⟩

/-- **A run of calls on managed zips** never panics, and the deque holds the
open zips as `nextAll` moves them. -/
theorem Valid.run (h : s.Valid L) (calls : List ZipCall)
    (hcalls : ∀ c ∈ calls, c.miz ≠ 0 ∧ c.miz ≤ s.inputZips) :
    ∃ s', s.run calls = some s' ∧ s'.Valid (ZipCall.nextAll s.maxOpenZips L calls) ∧
      s'.inputZips = s.inputZips ∧ s'.maxOpenZips = s.maxOpenZips := by
  -- induction on the calls, carrying the deque from one call to the next
  induction calls generalizing s L with
  | nil => exact ⟨s, rfl, h, rfl, rfl⟩
  | cons c cs ih =>
    obtain ⟨hc0, hcn⟩ := hcalls c List.mem_cons_self
    obtain ⟨s₁, err, hcall, hvalid₁, hin₁, hmax₁⟩ := h.call c hc0 hcn
    have hcs : ∀ c' ∈ cs, c'.miz ≠ 0 ∧ c'.miz ≤ s₁.inputZips := by
      intro c' hc'
      obtain ⟨h0, hn⟩ := hcalls c' (List.mem_cons_of_mem c hc')
      exact ⟨h0, hin₁ ▸ hn⟩
    obtain ⟨s', hrun, hvalid', hin', hmax'⟩ := ih hvalid₁ hcs
    refine ⟨s', ?_, ?_, hin'.trans hin₁, hmax'.trans hmax₁⟩
    · simp [InputZipsManager.run, hcall, hrun]
    · rw [hmax₁] at hvalid'
      simpa [ZipCall.nextAll] using hvalid'

end calls

/-! ### The check of the deque -/

section check

variable {s : InputZipsManager}

/-- **The loop of `checkOpenZipsDeque` on a segment of open zips** passes when
the zips it has counted and those still ahead make `nOpenZips`. -/
theorem checkLoop_seg {fuel el : ℕ} {nReallyOpen : ℤ} {rest : List ℕ}
    (hseg : Seg s.older s.newer el rest 0) (hopen : ∀ y ∈ rest, y ≠ 0 ∧ s.isOpen y = true)
    (hcount : nReallyOpen + rest.length = s.nOpenZips) (hfuel : rest.length < fuel) :
    s.checkLoop fuel el nReallyOpen = some (.ok ()) := by
  -- induction on the zips still ahead; each round counts the next one
  induction rest generalizing el nReallyOpen fuel with
  | nil =>
    obtain ⟨k, rfl⟩ : ∃ k, fuel = k + 1 := ⟨fuel - 1, by simp at hfuel; omega⟩
    obtain ⟨hel, h0⟩ := hseg
    have hnot : ¬nReallyOpen > s.nOpenZips := by simp at hcount; omega
    simp [checkLoop, hel, h0, hnot]
  | cons y rest ih =>
    obtain ⟨k, rfl⟩ : ∃ k, fuel = k + 1 := ⟨fuel - 1, by simp at hfuel; omega⟩
    obtain ⟨hely, hyel, hrest⟩ := hseg
    obtain ⟨hy0, hyopen⟩ := hopen y List.mem_cons_self
    have hnot : ¬nReallyOpen + 1 > s.nOpenZips := by
      simp only [List.length_cons] at hcount
      omega
    have hnext : s.checkLoop k y (nReallyOpen + 1) = some (.ok ()) := by
      refine ih hrest (fun z hz => hopen z (List.mem_cons_of_mem y hz)) ?_ ?_
      · simp only [List.length_cons] at hcount
        omega
      · simp only [List.length_cons] at hfuel
        omega
    simp [checkLoop, hely, hyel, hy0, hyopen, hnot, hnext]

/-- **`checkOpenZipsDeque` passes on a valid deque.** -/
theorem Valid.checkOpenZipsDeque {L : List ℕ} (h : s.Valid L) :
    s.checkOpenZipsDeque = some (.ok ()) := by
  have hcount := h.count
  refine checkLoop_seg h.seg (fun y hy => ⟨h.ne_zero hy, (h.mem_iff y (h.ne_zero hy)).mp hy⟩)
    (by simp [hcount]) ?_
  omega

end check

end InputZipsManager

/-- A new manager, with nothing open. -/
theorem NewInputZipsManager_valid {maxOpenZips : ℤ} (h3 : 3 ≤ maxOpenZips) :
    ∃ s, NewInputZipsManager maxOpenZips = some s ∧ s.Valid [] ∧ s.inputZips = 0 ∧
      s.maxOpenZips = maxOpenZips := by
  have hnot : ¬maxOpenZips < 3 := by omega
  unfold NewInputZipsManager
  rw [if_neg hnot]
  refine ⟨_, rfl, ?_, rfl, rfl⟩
  refine ⟨by simp, by simp, ?_, ?_, ?_, rfl, by simp; omega, h3⟩
  · intro x _
    simp
  · intro x _ hx
    simp at hx
  · intro x hx0 _
    simp [hx0]

/-- **The deque of open input zips over every run.**  After any sequence of
`Open` and `Close` calls on the `n` zips a new manager manages, nothing has
panicked and the deque through the sentinel is a circular doubly linked list of
distinct zips, exactly the open managed ones, counted by `nOpenZips` within the
limit, in the order `nextAll` gives; `checkOpenZipsDeque` passes, and a further
`Open` of a managed zip does not panic and leaves it open unless it fails. -/
theorem InputZipsManager_run_valid (n : ℕ) (maxOpenZips : ℤ) (h3 : 3 ≤ maxOpenZips)
    (calls : List ZipCall) (hcalls : ∀ c ∈ calls, 1 ≤ c.miz ∧ c.miz ≤ n) :
    ∃ s, ((NewInputZipsManager maxOpenZips).map fun s => s.manage n).bind (fun s => s.run calls) =
        some s ∧
      ∃ L, L = ZipCall.nextAll maxOpenZips [] calls ∧
        Seg s.older s.newer 0 L 0 ∧ (0 :: L).Nodup ∧
        (∀ x ∈ 0 :: L, (∃ y, s.older x = some y ∧ s.newer y = some x) ∧
          (∃ y, s.newer x = some y ∧ s.older y = some x)) ∧
        (∀ x, x ∈ L ↔ 1 ≤ x ∧ x ≤ n ∧ s.isOpen x = true) ∧
        s.nOpenZips = L.length ∧ s.nOpenZips ≤ maxOpenZips ∧
        s.checkOpenZipsDeque = some (.ok ()) ∧
        ∀ miz closeErr openErr, 1 ≤ miz → miz ≤ n →
          ∃ s' err, s.call (.Open miz closeErr openErr) = some (s', err) ∧
            (err = none → s'.isOpen miz = true) := by
  obtain ⟨s₀, hnew, hvalid₀, hin₀, hmax₀⟩ := NewInputZipsManager_valid h3
  have hvalid₁ := hvalid₀.manage n
  have hin₁ : (s₀.manage n).inputZips = n := by simp [hin₀]
  have hcalls₁ : ∀ c ∈ calls, c.miz ≠ 0 ∧ c.miz ≤ (s₀.manage n).inputZips := by
    intro c hc
    obtain ⟨h1, hn⟩ := hcalls c hc
    exact ⟨Nat.one_le_iff_ne_zero.mp h1, by rw [hin₁]; exact hn⟩
  obtain ⟨s, hrun, hvalid, hin, hmax⟩ := hvalid₁.run calls hcalls₁
  rw [InputZipsManager.maxOpenZips_manage, hmax₀] at hvalid hmax
  refine ⟨s, by simp [hnew, hrun], _, rfl, hvalid.seg, hvalid.nodup,
    fun x hx => hvalid.neighbours hx, ?_, hvalid.count, hmax ▸ hvalid.bound,
    hvalid.checkOpenZipsDeque, ?_⟩
  · intro x
    rw [hvalid.mem_iff_open, hin, hin₁]
  · intro miz closeErr openErr h1 hn
    exact hvalid.reopen_isOpen closeErr openErr (Nat.one_le_iff_ne_zero.mp h1) (by omega)

/-- The calls of the package's test: the first `n` zips opened in order, then
closed in order. -/
def openCloseAll (n : ℕ) : List ZipCall :=
  (List.range n).map (fun i => .Open (i + 1) none none) ++
    (List.range n).map (fun i => .Close (i + 1) none)

/-- Twenty zips opened with at most ten open and then closed leave none open. -/
theorem InputZipsManager_run_valid_openCloseAll :
    ∃ s, ((NewInputZipsManager 10).map fun s => s.manage 20).bind
        (fun s => s.run (openCloseAll 20)) = some s ∧ s.nOpenZips = 0 := by
  obtain ⟨s, hrun, L, hL, -, -, -, -, hcount, -⟩ :=
    InputZipsManager_run_valid 20 10 (by decide) (openCloseAll 20) (by decide)
  have hnil : L = [] := by
    rw [hL]
    decide
  exact ⟨s, hrun, by simp [hcount, hnil]⟩

end MergeZips

end Soong
