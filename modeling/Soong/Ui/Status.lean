import Mathlib
import Soong.Lib.Interleave

/-!
# Counting the actions of concurrent tools

`ui/status/status.go`.  A `Status` keeps the counts of the actions of every
tool of a build and hands them to its outputs.  A tool reports through its own
`toolStatus`: each call updates the tool's counts under the tool's lock, and
after it has released the lock passes the difference on to the `Status`
(`updateTotalActions`, `startAction`, `finishAction`), which updates its counts
under its own lock and calls the outputs' `StartAction` and `FinishAction` with
them.  `Finish` is the exception: it passes its difference on while it still
holds the tool's lock.

The goroutines that call the tools are the parties of an interleaving
(`Interleave`).  A `caller` of a tool holds the calls it still makes and the
`Status` calls left of the one it is in; one move is either the part of its
next call made under the tool's lock, or the next of those `Status` calls.  The
outputs are modelled by the counts they are handed, which is all they see.

The shared counts lag behind the tools' ones, and each tool's share of them is
what it has passed on (`toolStatus.forwarded`).  A tool never
passes on more starts than total (`toolStatus.Inv`) as long as no caller moves
while another caller of the same tool has set the tool's total and not yet
passed the difference on (`Admissible`); the shared counts are then always the
sum of the shares (`Inv`).  Without that restriction a caller's `StartAction`
can reach the `Status` before another caller's larger total does, and the
output is handed fewer actions in total than started.

## Main definitions

* `Counts`, `Status.updateTotalActions`, `Status.startAction`,
  `Status.finishAction`.
* `toolStatus.SetTotalActions`, `toolStatus.StartAction`,
  `toolStatus.FinishAction`, `toolStatus.Finish` — the parts under the lock.
* `toolStatus.step`, `step`, `init` — the moves of the callers.
* `Admissible`, `Quiescent`.

## Main results

* `toolStatus.Inv.step` — one move keeps a tool's invariant.
* `Inv.step`, `run_inv` — every allowed run keeps the whole invariant.
* `quiescent_counts` — when no call is under way the shared counts are the sums
  of the tools' counts.
-/

namespace Soong

namespace status

/-- `Counts`: the number of actions in each state. -/
structure Counts where
  TotalActions : Int
  RunningActions : Int
  StartedActions : Int
  FinishedActions : Int
  deriving DecidableEq, Repr

/-- The counts of a new `Status` and of a tool that `StartTool` returns. -/
def Counts.zero : Counts := ⟨0, 0, 0, 0⟩

/-- The counts an output can be handed: some action started, no more started
than in total, and every started action running or finished. -/
def Counts.Valid (c : Counts) : Prop :=
  c.StartedActions ≤ c.TotalActions ∧ 1 ≤ c.StartedActions ∧
    c.StartedActions = c.FinishedActions + c.RunningActions

/-! ### The shared counts -/

/-- `Status`: its counts, and the counts its outputs were handed by
`StartAction` and `FinishAction`, in order; every output is handed the same. -/
structure Status where
  counts : Counts
  handed : List Counts
  deriving DecidableEq, Repr

/-- `(*Status).updateTotalActions`. -/
def Status.updateTotalActions (s : Status) (diff : Int) : Status :=
  { s with counts := { s.counts with TotalActions := s.counts.TotalActions + diff } }

/-- `(*Status).startAction`: the outputs are handed the new counts. -/
def Status.startAction (s : Status) : Status :=
  let counts := { s.counts with
    RunningActions := s.counts.RunningActions + 1
    StartedActions := s.counts.StartedActions + 1 }
  { counts, handed := s.handed ++ [counts] }

/-- `(*Status).finishAction`: the outputs are handed the new counts. -/
def Status.finishAction (s : Status) : Status :=
  let counts := { s.counts with
    RunningActions := s.counts.RunningActions - 1
    FinishedActions := s.counts.FinishedActions + 1 }
  { counts, handed := s.handed ++ [counts] }

/-- A call of a tool on the `Status`. -/
inductive statusCall where
  | updateTotalActions (diff : Int)
  | startAction
  | finishAction
  deriving DecidableEq, Repr

/-- Make a call on the `Status`. -/
def Status.call (s : Status) : statusCall → Status
  | .updateTotalActions diff => s.updateTotalActions diff
  | .startAction => s.startAction
  | .finishAction => s.finishAction

/-- The counts a tool passes on to the `Status`. -/
inductive share where
  | total
  | started
  | finished
  deriving DecidableEq, Repr

/-- The count of a share. -/
def Counts.get (c : Counts) : share → Int
  | .total => c.TotalActions
  | .started => c.StartedActions
  | .finished => c.FinishedActions

/-- What a call adds to a share of the `Status`'s counts. -/
def statusCall.get : statusCall → share → Int
  | .updateTotalActions diff, .total => diff
  | .startAction, .started => 1
  | .finishAction, .finished => 1
  | _, _ => 0

@[simp] theorem Status.call_get (st : Status) (f : statusCall) (s : share) :
    (st.call f).counts.get s = st.counts.get s + f.get s := by
  cases f <;> cases s <;> simp [Status.call, Status.updateTotalActions, Status.startAction,
    Status.finishAction, Counts.get, statusCall.get]

/-- Every call keeps the started actions the finished and the running ones. -/
theorem Status.call_running (s : Status) (f : statusCall)
    (h : s.counts.StartedActions = s.counts.FinishedActions + s.counts.RunningActions) :
    (s.call f).counts.StartedActions =
      (s.call f).counts.FinishedActions + (s.call f).counts.RunningActions := by
  cases f <;> simp only [Status.call, Status.updateTotalActions, Status.startAction,
    Status.finishAction, h] <;> omega

/-- The outputs are handed the counts after a start or a finish, and nothing
after an update of the total. -/
theorem Status.call_handed (s : Status) (f : statusCall) :
    (s.call f).handed =
      s.handed ++ (if f = .startAction ∨ f = .finishAction then [(s.call f).counts] else []) := by
  cases f <;> simp [Status.call, Status.updateTotalActions, Status.startAction,
    Status.finishAction]

/-! ### A tool's counts under its lock -/

/-- A call on a `ToolStatus`. -/
inductive Call where
  | SetTotalActions (total : Int)
  | StartAction
  | FinishAction
  | Finish
  deriving DecidableEq, Repr

namespace toolStatus

/-- `SetTotalActions` under the lock: the new counts and the difference of the
total, zero when the call is ignored. -/
def SetTotalActions (c : Counts) (total : Int) : Counts × Int :=
  if total ≥ c.StartedActions ∧ total ≠ c.TotalActions then
    ({ c with TotalActions := total }, total - c.TotalActions)
  else (c, 0)

/-- `StartAction` under the lock: the total is raised to the started actions. -/
def StartAction (c : Counts) : Counts × Int :=
  let c := { c with RunningActions := c.RunningActions + 1, StartedActions := c.StartedActions + 1 }
  if c.StartedActions > c.TotalActions then
    ({ c with TotalActions := c.StartedActions }, c.StartedActions - c.TotalActions)
  else (c, 0)

/-- `FinishAction` under the lock. -/
def FinishAction (c : Counts) : Counts :=
  { c with RunningActions := c.RunningActions - 1, FinishedActions := c.FinishedActions + 1 }

/-- `Finish`: the total drops to the started actions, by the difference it
passes on. -/
def Finish (c : Counts) : Counts × Int :=
  ({ c with RunningActions := 0, TotalActions := c.StartedActions },
    c.StartedActions - c.TotalActions)

end toolStatus

/-- The `updateTotalActions` of a difference, made only when it is not zero. -/
def updateTotal (diff : Int) : List statusCall :=
  if diff ≠ 0 then [.updateTotalActions diff] else []

/-- The part of a call made under the tool's lock: the tool's new counts, the
`Status` calls made under the lock, and those left for after it. -/
def locked (c : Counts) : Call → Counts × List statusCall × List statusCall
  | .SetTotalActions total =>
    let (c, diff) := toolStatus.SetTotalActions c total
    (c, [], updateTotal diff)
  | .StartAction =>
    let (c, totalDiff) := toolStatus.StartAction c
    (c, [], updateTotal totalDiff ++ [.startAction])
  | .FinishAction => (toolStatus.FinishAction c, [], [.finishAction])
  | .Finish =>
    let (c, diff) := toolStatus.Finish c
    (c, updateTotal diff, [])

/-! ### The callers of the tools -/

/-- A goroutine calling a tool: the calls it still makes, and the `Status`
calls left of the call it is in. -/
structure caller where
  calls : List Call
  pending : List statusCall
  deriving DecidableEq, Repr

/-- `toolStatus`: the tool's counts, and the goroutines calling it. -/
structure toolStatus where
  counts : Counts
  callers : List caller
  deriving DecidableEq, Repr

/-- One move of the tool's caller `j`: the tool after it and the `Status`
calls made in it. -/
def toolStatus.step (ts : toolStatus) (j : ℕ) : Option (toolStatus × List statusCall) := do
  let c ← ts.callers[j]?
  match c.pending, c.calls with
  | f :: rest, calls => some ({ ts with callers := ts.callers.set j ⟨calls, rest⟩ }, [f])
  | [], call :: calls =>
    let (counts, now, later) := locked ts.counts call
    some ({ counts, callers := ts.callers.set j ⟨calls, later⟩ }, now)
  | [], [] => none

/-- A build: the `Status` and its tools. -/
structure system where
  shared : Status
  tools : List toolStatus
  deriving DecidableEq, Repr

/-- One move of caller `j` of tool `t`. -/
def step (sys : system) : ℕ × ℕ → Option system
  | (t, j) => do
    let ts ← sys.tools[t]?
    let (ts', now) ← ts.step j
    some { shared := now.foldl Status.call sys.shared, tools := sys.tools.set t ts' }

/-- A new `Status` with a tool from `StartTool` for each list of callers, each
caller with the calls it makes. -/
def init (programs : List (List (List Call))) : system :=
  { shared := ⟨Counts.zero, []⟩
    tools := programs.map fun calls => ⟨Counts.zero, calls.map fun c => ⟨c, []⟩⟩ }

/-! ### What the tools have passed on -/

/-- What a caller's `Status` calls left will add to a share. -/
def caller.pendingOf (c : caller) (s : share) : Int := (c.pending.map (·.get s)).sum

/-- A share of the tool's counts as the `Status` has it so far. -/
def toolStatus.forwarded (ts : toolStatus) (s : share) : Int :=
  ts.counts.get s - (ts.callers.map (·.pendingOf s)).sum

/-- The caller has set the tool's total and not yet passed the difference on. -/
def caller.settingTotal (c : caller) : Bool :=
  match c.pending with
  | [.updateTotalActions _] => true
  | _ => false

/-- The moves of caller `j` of a tool that the theorems allow: no other caller of
the tool is setting its total, and a `FinishAction` begins only after a start
on the tool has reached the `Status`. -/
def toolStatus.Admissible (ts : toolStatus) (j : ℕ) : Prop :=
  (∀ k (hk : k < ts.callers.length), k ≠ j → ts.callers[k].settingTotal = false) ∧
    ∀ c ∈ ts.callers[j]?, c.pending = [] → c.calls.head? = some .FinishAction →
      1 ≤ ts.forwarded .started

instance (ts : toolStatus) (j : ℕ) : Decidable (ts.Admissible j) :=
  inferInstanceAs (Decidable (_ ∧ _))

/-- The moves of the build that the theorems allow. -/
def Admissible (sys : system) : ℕ × ℕ → Prop
  | (t, j) => ∀ ts ∈ sys.tools[t]?, ts.Admissible j

instance (sys : system) (tj : ℕ × ℕ) : Decidable (Admissible sys tj) :=
  inferInstanceAs (Decidable (∀ ts ∈ sys.tools[tj.1]?, ts.Admissible tj.2))

/-- No call is under way: no caller has `Status` calls left. -/
def Quiescent (sys : system) : Prop :=
  ∀ ts ∈ sys.tools, ∀ c ∈ ts.callers, c.pending = []

/-! ### One call under the lock -/

@[simp] theorem updateTotal_get (diff : Int) (s : share) :
    ((updateTotal diff).map (·.get s)).sum = if s = .total then diff else 0 := by
  unfold updateTotal
  by_cases hd : diff = 0 <;> cases s <;> simp [hd, statusCall.get]

/-- Under the lock a call moves each share by what it passes on, under the
lock or after it. -/
theorem locked_get (c : Counts) (k : Call) (s : share) :
    (locked c k).1.get s - ((locked c k).2.2.map (·.get s)).sum =
      c.get s + ((locked c k).2.1.map (·.get s)).sum := by
  cases k with
  | SetTotalActions total =>
    simp only [locked, toolStatus.SetTotalActions]
    split_ifs <;> cases s <;> simp [Counts.get]
  | StartAction =>
    simp only [locked, toolStatus.StartAction]
    split_ifs <;> cases s <;>
      simp only [List.map_append, List.sum_append, updateTotal_get] <;>
      simp [Counts.get, statusCall.get]
  | FinishAction => cases s <;> simp [locked, toolStatus.FinishAction, Counts.get, statusCall.get]
  | Finish => cases s <;> simp [locked, toolStatus.Finish, Counts.get]

/-- The `Status` calls a caller can have left between two moves. -/
inductive Pending : List statusCall → Prop
  | idle : Pending []
  | starting : Pending [.updateTotalActions 1, .startAction]
  | started : Pending [.startAction]
  | finishing : Pending [.finishAction]
  | settingTotal (diff : Int) : Pending [.updateTotalActions diff]

theorem pending_updateTotal (diff : Int) : Pending (updateTotal diff) := by
  unfold updateTotal
  split
  · exact .settingTotal diff
  · exact .idle

section locked

variable {c : Counts} (hle : c.StartedActions ≤ c.TotalActions)
include hle

/-- A call under the lock keeps no more actions started than in total. -/
theorem locked_started_le_total (k : Call) :
    (locked c k).1.StartedActions ≤ (locked c k).1.TotalActions := by
  cases k with
  | SetTotalActions total =>
    simp only [locked, toolStatus.SetTotalActions]
    split_ifs with h
    · simpa using h.1
    · exact hle
  | StartAction =>
    simp only [locked, toolStatus.StartAction]
    split_ifs with h <;> simp at h ⊢
    omega
  | FinishAction => simpa [locked, toolStatus.FinishAction] using hle
  | Finish => simp [locked, toolStatus.Finish]

/-- What a call leaves for after the lock: a start raises the total by one at
most, since no more actions were started than in total. -/
theorem locked_pending (k : Call) : Pending (locked c k).2.2 := by
  cases k with
  | SetTotalActions total => exact pending_updateTotal _
  | StartAction =>
    simp only [locked, toolStatus.StartAction]
    split_ifs with h
    · have hdiff : c.StartedActions + 1 - c.TotalActions = 1 := by simp at h; omega
      simp only [hdiff, updateTotal, ne_eq, one_ne_zero, not_false_eq_true, if_true,
        List.cons_append, List.nil_append]
      exact .starting
    · simp only [updateTotal, ne_eq, not_true_eq_false, if_false, List.nil_append]
      exact .started
  | FinishAction => exact .finishing
  | Finish => exact .idle

end locked

/-- Only `Finish` makes a `Status` call under the lock. -/
theorem locked_now {c : Counts} {k : Call} (hk : k ≠ .Finish) : (locked c k).2.1 = [] := by
  cases k <;> simp_all [locked]

/-! ### The moves of a caller -/

/-- **What a move of a caller is**: one of its `Status` calls left, or the part
of its next call under the lock. -/
theorem toolStatus.step_cases {ts ts' : toolStatus} {j : ℕ} {now : List statusCall}
    (h : ts.step j = some (ts', now)) :
    ∃ c, ts.callers[j]? = some c ∧
      ((∃ f rest, c.pending = f :: rest ∧ now = [f] ∧
          ts' = { ts with callers := ts.callers.set j ⟨c.calls, rest⟩ }) ∨
        (∃ k calls, c.pending = [] ∧ c.calls = k :: calls ∧ now = (locked ts.counts k).2.1 ∧
          ts' = ⟨(locked ts.counts k).1, ts.callers.set j ⟨calls, (locked ts.counts k).2.2⟩⟩)) := by
  unfold toolStatus.step at h
  cases hc : ts.callers[j]? with
  | none => simp [hc] at h
  | some c =>
    refine ⟨c, rfl, ?_⟩
    obtain ⟨calls, pending⟩ := c
    simp only [hc, Option.bind_eq_bind, Option.bind_some] at h
    cases pending with
    | cons f rest =>
      simp only [Option.some.injEq, Prod.mk.injEq] at h
      exact .inl ⟨f, rest, rfl, h.2.symm, h.1.symm⟩
    | nil =>
      cases calls with
      | nil => simp at h
      | cons k calls =>
        simp only [Option.some.injEq, Prod.mk.injEq] at h
        exact .inr ⟨k, calls, rfl, rfl, h.2.symm, h.1.symm⟩

/-- Only `Finish` makes a `Status` call under the lock, and that call updates
the total. -/
theorem locked_now_total (c : Counts) (k : Call) :
    ∀ f ∈ (locked c k).2.1, ∃ d, f = .updateTotalActions d := by
  by_cases hk : k = .Finish
  · subst hk
    simp only [locked, updateTotal]
    split <;> simp
  · simp [locked_now hk]

/-- Only a `FinishAction` leaves a finish to pass on. -/
theorem locked_finishing {c : Counts} {k : Call} (h : (locked c k).2.2 = [.finishAction]) :
    k = .FinishAction := by
  cases k with
  | SetTotalActions total =>
    simp only [locked, updateTotal] at h
    split_ifs at h
    simp at h
  | StartAction =>
    simp only [locked, updateTotal] at h
    split_ifs at h <;> simp at h
  | FinishAction => rfl
  | Finish => simp [locked] at h

/-- A move makes at most one `Status` call. -/
theorem toolStatus.step_now {ts ts' : toolStatus} {j : ℕ} {now : List statusCall}
    (h : ts.step j = some (ts', now)) : now = [] ∨ ∃ f, now = [f] := by
  obtain ⟨c, -, ⟨f, rest, -, rfl, -⟩ | ⟨k, calls, -, -, rfl, -⟩⟩ := toolStatus.step_cases h
  · exact .inr ⟨f, rfl⟩
  · by_cases hk : k = .Finish
    · subst hk
      simp only [locked, updateTotal]
      split <;> simp
    · simp [locked_now hk]

/-! ### What a tool has passed on -/

@[simp] theorem statusCall.get_started_nonneg (f : statusCall) : 0 ≤ f.get .started := by
  cases f <;> simp [statusCall.get]

/-- The shares of a tool after caller `j` changed. -/
theorem toolStatus.forwarded_set {ts : toolStatus} {j : ℕ} {c : caller}
    (hc : ts.callers[j]? = some c) (counts : Counts) (c' : caller) (s : share) :
    toolStatus.forwarded ⟨counts, ts.callers.set j c'⟩ s =
      counts.get s - (ts.callers.map (·.pendingOf s)).sum + c.pendingOf s - c'.pendingOf s := by
  simp only [toolStatus.forwarded]
  rw [Interleave.sum_map_set_of_getElem? hc]
  omega

/-- **A move passes on to the `Status` exactly what it adds to the tool's
shares as the `Status` has them.** -/
theorem toolStatus.step_forwarded {ts ts' : toolStatus} {j : ℕ} {now : List statusCall}
    (h : ts.step j = some (ts', now)) (s : share) :
    ts'.forwarded s = ts.forwarded s + (now.map (·.get s)).sum := by
  obtain ⟨c, hc, ⟨f, rest, hp, rfl, rfl⟩ | ⟨k, calls, hp, -, rfl, rfl⟩⟩ := toolStatus.step_cases h
  · -- a call left: it leaves the caller's calls left and reaches the `Status`
    have hpend : c.pendingOf s = f.get s + (⟨c.calls, rest⟩ : caller).pendingOf s := by
      simp [caller.pendingOf, hp]
    rw [show ({ ts with callers := ts.callers.set j ⟨c.calls, rest⟩ } : toolStatus) =
      ⟨ts.counts, ts.callers.set j ⟨c.calls, rest⟩⟩ from rfl, toolStatus.forwarded_set hc, hpend]
    simp only [toolStatus.forwarded, List.map_cons, List.map_nil, List.sum_cons, List.sum_nil]
    omega
  · -- the part under the lock: what it does not pass on now it leaves for later
    have hpend : c.pendingOf s = 0 := by simp [caller.pendingOf, hp]
    have hlater : (⟨calls, (locked ts.counts k).2.2⟩ : caller).pendingOf s =
        ((locked ts.counts k).2.2.map (·.get s)).sum := rfl
    have hlocked := locked_get ts.counts k s
    rw [toolStatus.forwarded_set hc, hpend, hlater]
    simp only [toolStatus.forwarded]
    omega

/-- A move never takes back a start passed on. -/
theorem toolStatus.step_started_mono {ts ts' : toolStatus} {j : ℕ} {now : List statusCall}
    (h : ts.step j = some (ts', now)) : ts.forwarded .started ≤ ts'.forwarded .started := by
  have hnow : 0 ≤ (now.map (·.get .started)).sum :=
    List.sum_nonneg (by simp)
  rw [toolStatus.step_forwarded h]
  omega

/-- When every caller has no more total left to pass on than starts, the tool
has passed on no more starts than total. -/
theorem toolStatus.started_le_of_pending {ts : toolStatus}
    (hle : ts.counts.StartedActions ≤ ts.counts.TotalActions)
    (h : ∀ c ∈ ts.callers, c.pendingOf .total ≤ c.pendingOf .started) :
    ts.forwarded .started ≤ ts.forwarded .total := by
  have hsum := List.sum_le_sum h
  simp only [toolStatus.forwarded, Counts.get]
  omega

/-- A caller between two moves that is not setting the total has no more total
left to pass on than starts. -/
theorem Pending.total_le_started {c : caller} (hp : Pending c.pending)
    (hs : c.settingTotal = false) : c.pendingOf .total ≤ c.pendingOf .started := by
  obtain ⟨calls, pending⟩ := c
  dsimp only at hp
  cases hp <;> simp_all [caller.pendingOf, caller.settingTotal, statusCall.get]

/-- The calls left after the first of a caller's are never a total to pass on. -/
theorem Pending.tail {f : statusCall} {rest : List statusCall} (hp : Pending (f :: rest)) :
    rest = [] ∨ rest = [.startAction] := by
  cases hp <;> simp

/-! ### A tool's invariant -/

/-- A tool's invariant: no more actions started than in total, every caller
between two moves, and no more starts passed on than total; a caller about to
pass on a finish comes after a start was passed on. -/
structure toolStatus.Inv (ts : toolStatus) : Prop where
  started_le_total : ts.counts.StartedActions ≤ ts.counts.TotalActions
  pending : ∀ c ∈ ts.callers, Pending c.pending
  started_nonneg : 0 ≤ ts.forwarded .started
  started_le : ts.forwarded .started ≤ ts.forwarded .total
  finishing : ∀ c ∈ ts.callers, c.pending = [.finishAction] → 1 ≤ ts.forwarded .started

/-- In an allowed move of caller `j` the other callers are not setting the
total, so once `j`'s calls left are no more total than starts, the tool's are. -/
theorem toolStatus.Inv.total_le_started_set {ts : toolStatus} (hi : ts.Inv) {j : ℕ}
    (hadm : ts.Admissible j) {x : caller} (hx : x.pendingOf .total ≤ x.pendingOf .started) :
    ∀ c ∈ ts.callers.set j x, c.pendingOf .total ≤ c.pendingOf .started := by
  intro c hc
  obtain ⟨k, hk, rfl⟩ := List.getElem_of_mem hc
  have hk' : k < ts.callers.length := by simpa using hk
  rw [List.getElem_set]
  split_ifs with hjk
  · exact hx
  · exact Pending.total_le_started (hi.pending _ (List.getElem_mem hk'))
      (hadm.1 k hk' (Ne.symm hjk))

/-- **One move keeps a tool's invariant.** -/
theorem toolStatus.Inv.step {ts ts' : toolStatus} {j : ℕ} {now : List statusCall}
    (hi : ts.Inv) (hadm : ts.Admissible j) (h : ts.step j = some (ts', now)) : ts'.Inv := by
  have hmono := toolStatus.step_started_mono h
  obtain ⟨c, hc, ⟨f, rest, hp, rfl, rfl⟩ | ⟨k, calls, hp, hcalls, rfl, rfl⟩⟩ :=
    toolStatus.step_cases h
  · -- a `Status` call left: the caller keeps at most a start
    have hcp : Pending (f :: rest) := hp ▸ hi.pending c (List.mem_of_getElem? hc)
    have hrest := Pending.tail hcp
    have hrest_le : (⟨c.calls, rest⟩ : caller).pendingOf .total ≤
        (⟨c.calls, rest⟩ : caller).pendingOf .started := by
      rcases hrest with rfl | rfl <;> simp [caller.pendingOf, statusCall.get]
    refine ⟨hi.started_le_total, ?_, hi.started_nonneg.trans hmono, ?_, ?_⟩
    · intro c' hc'
      rcases List.mem_or_eq_of_mem_set hc' with hc' | rfl
      · exact hi.pending c' hc'
      · rcases hrest with rfl | rfl
        · exact .idle
        · exact .started
    · exact toolStatus.started_le_of_pending hi.started_le_total
        (hi.total_le_started_set hadm hrest_le)
    · intro c' hc' hfin
      rcases List.mem_or_eq_of_mem_set hc' with hc' | rfl
      · exact (hi.finishing c' hc' hfin).trans hmono
      · rcases hrest with h' | h' <;> simp [h'] at hfin
  · -- the part under the lock of call `k`
    have hcounts := locked_started_le_total hi.started_le_total k
    refine ⟨hcounts, ?_, hi.started_nonneg.trans hmono, ?_, ?_⟩
    · intro c' hc'
      rcases List.mem_or_eq_of_mem_set hc' with hc' | rfl
      · exact hi.pending c' hc'
      · exact locked_pending hi.started_le_total k
    · by_cases hk : k = .Finish
      · -- `Finish` passes its difference on at once and leaves nothing
        subst hk
        refine toolStatus.started_le_of_pending hcounts (hi.total_le_started_set hadm ?_)
        simp [caller.pendingOf, locked]
      · -- the other calls pass nothing on under the lock
        have hsame := toolStatus.step_forwarded h
        rw [locked_now hk] at hsame
        simpa [hsame] using hi.started_le
    · intro c' hc' hfin
      rcases List.mem_or_eq_of_mem_set hc' with hc' | rfl
      · exact (hi.finishing c' hc' hfin).trans hmono
      · -- a `FinishAction` begins only after a start was passed on
        have hk := locked_finishing hfin
        subst hk
        exact (hadm.2 c hc hp (by simp [hcalls])).trans hmono

/-- After a move that passes on a start or a finish, the tool has passed on a
start. -/
theorem toolStatus.Inv.step_callback {ts ts' : toolStatus} {j : ℕ} {now : List statusCall}
    (hi : ts.Inv) (h : ts.step j = some (ts', now))
    (hf : .startAction ∈ now ∨ .finishAction ∈ now) : 1 ≤ ts'.forwarded .started := by
  have hmono := toolStatus.step_started_mono h
  obtain ⟨c, hc, ⟨f, rest, hp, rfl, -⟩ | ⟨k, calls, -, -, rfl, -⟩⟩ := toolStatus.step_cases h
  · simp only [List.mem_singleton] at hf
    rcases hf with rfl | rfl
    · -- the start itself
      have hstep := toolStatus.step_forwarded h .started
      simp only [List.map_cons, List.map_nil, List.sum_cons, List.sum_nil,
        statusCall.get] at hstep
      have := hi.started_nonneg
      omega
    · -- a finish is passed on by a caller that was left with it alone
      have hcp : Pending (.finishAction :: rest) := hp ▸ hi.pending c (List.mem_of_getElem? hc)
      have hrest : rest = [] := by cases hcp; rfl
      subst hrest
      exact (hi.finishing c (List.mem_of_getElem? hc) hp).trans hmono
  · rcases hf with hf | hf <;>
      obtain ⟨d, hd⟩ := locked_now_total ts.counts k _ hf <;> cases hd

/-! ### The whole build -/

/-- What the `Status` has after a tool's `Status` calls. -/
theorem Status.foldl_call_get (l : List statusCall) (st : Status) (s : share) :
    (l.foldl Status.call st).counts.get s = st.counts.get s + (l.map (·.get s)).sum := by
  induction l generalizing st with
  | nil => simp
  | cons f l ih =>
    rw [List.foldl_cons, ih, Status.call_get, List.map_cons, List.sum_cons]
    omega

/-- The build's invariant: every tool keeps its invariant, each share of the
`Status`'s counts is the sum of what the tools passed on, every started action
is running or finished, and every output was handed valid counts. -/
structure Inv (sys : system) : Prop where
  tools : ∀ ts ∈ sys.tools, ts.Inv
  shares : ∀ s, sys.shared.counts.get s = (sys.tools.map (·.forwarded s)).sum
  running : sys.shared.counts.StartedActions =
    sys.shared.counts.FinishedActions + sys.shared.counts.RunningActions
  handed : ∀ c ∈ sys.shared.handed, c.Valid

/-- **Counts made of what the tools passed on are valid** once one of them has
passed on a start. -/
theorem Counts.valid_of_shares {c : Counts} {tools : List toolStatus} (ht : ∀ ts ∈ tools, ts.Inv)
    (hs : ∀ s, c.get s = (tools.map (·.forwarded s)).sum)
    (hrun : c.StartedActions = c.FinishedActions + c.RunningActions)
    {t : ℕ} {ts : toolStatus} (hts : tools[t]? = some ts) (h1 : 1 ≤ ts.forwarded .started) :
    c.Valid := by
  have hle : (tools.map (·.forwarded .started)).sum ≤ (tools.map (·.forwarded .total)).sum :=
    List.sum_le_sum fun ts hts => (ht ts hts).started_le
  have hone : ts.forwarded .started ≤ (tools.map (·.forwarded .started)).sum :=
    Interleave.le_sum_map_of_getElem? hts (·.forwarded .started) fun k hk _ =>
      (ht _ (List.getElem_mem hk)).started_nonneg
  have htotal := hs .total
  have hstarted := hs .started
  simp only [Counts.get] at htotal hstarted
  exact ⟨by omega, by omega, hrun⟩

/-- What a move of the build is: a move of a caller of one of its tools. -/
theorem step_cases {sys sys' : system} {t j : ℕ} (h : step sys (t, j) = some sys') :
    ∃ ts ts' now, sys.tools[t]? = some ts ∧ ts.step j = some (ts', now) ∧
      sys' = ⟨now.foldl Status.call sys.shared, sys.tools.set t ts'⟩ := by
  simp only [step, Option.bind_eq_bind] at h
  cases hts : sys.tools[t]? with
  | none => simp [hts] at h
  | some ts =>
    cases hstep : ts.step j with
    | none => simp [hts, hstep] at h
    | some r =>
      obtain ⟨ts', now⟩ := r
      simp only [hts, hstep, Option.bind_some, Option.some.injEq] at h
      exact ⟨ts, ts', now, rfl, hstep, h.symm⟩

/-- **One allowed move keeps the build's invariant.** -/
theorem Inv.step {sys sys' : system} {tj : ℕ × ℕ} (hi : Inv sys) (hadm : Admissible sys tj)
    (h : step sys tj = some sys') : Inv sys' := by
  obtain ⟨t, j⟩ := tj
  obtain ⟨ts, ts', now, hts, hstep, rfl⟩ := step_cases h
  have hti' : ts'.Inv := (hi.tools ts (List.mem_of_getElem? hts)).step (hadm ts hts) hstep
  have htools : ∀ u ∈ sys.tools.set t ts', u.Inv := by
    intro u hu
    rcases List.mem_or_eq_of_mem_set hu with hu | rfl
    · exact hi.tools u hu
    · exact hti'
  have hshares : ∀ s, (now.foldl Status.call sys.shared).counts.get s =
      ((sys.tools.set t ts').map (·.forwarded s)).sum := by
    intro s
    rw [Status.foldl_call_get, hi.shares s, Interleave.sum_map_set_of_getElem? hts,
      toolStatus.step_forwarded hstep s]
    omega
  -- a move makes at most one `Status` call
  rcases toolStatus.step_now hstep with rfl | ⟨f, rfl⟩
  · exact ⟨htools, hshares, hi.running, hi.handed⟩
  · have hrun := Status.call_running sys.shared f hi.running
    refine ⟨htools, hshares, hrun, ?_⟩
    intro c hc
    simp only [List.foldl_cons, List.foldl_nil, Status.call_handed, List.mem_append] at hc
    rcases hc with hc | hc
    · exact hi.handed c hc
    · -- the counts handed now are the `Status`'s own after the start or the finish
      split_ifs at hc with hf
      · simp only [List.mem_singleton] at hc
        subst hc
        have hts' : (sys.tools.set t ts')[t]? = some ts' := by
          simp [(List.getElem?_eq_some_iff.mp hts).1]
        have h1 := (hi.tools ts (List.mem_of_getElem? hts)).step_callback hstep
          (by rcases hf with rfl | rfl <;> simp)
        exact Counts.valid_of_shares htools hshares hrun hts' h1
      · simp at hc

/-- The build before any call is made keeps the invariant. -/
theorem init_inv (programs : List (List (List Call))) : Inv (init programs) := by
  have hzero : ∀ ts ∈ (init programs).tools, ∀ s, ts.forwarded s = 0 := by
    intro ts hts s
    simp only [init, List.mem_map] at hts
    obtain ⟨calls, -, rfl⟩ := hts
    cases s <;> simp [toolStatus.forwarded, caller.pendingOf, Counts.get, Counts.zero,
      Function.comp_def]
  refine ⟨?_, ?_, by simp [init, Counts.zero], by simp [init]⟩
  · intro ts hts
    have h0 := hzero ts hts
    simp only [init, List.mem_map] at hts
    obtain ⟨calls, -, rfl⟩ := hts
    refine ⟨by simp [Counts.zero], ?_, by simp [h0], by simp [h0], ?_⟩
    · intro c hc
      simp only [List.mem_map] at hc
      obtain ⟨_, -, rfl⟩ := hc
      exact .idle
    · intro c hc
      simp only [List.mem_map] at hc
      obtain ⟨_, -, rfl⟩ := hc
      simp
  · intro s
    rw [List.map_congr_left (hzero · · s)]
    cases s <;> simp [init, Counts.get, Counts.zero, Function.comp_def]

/-- **Every allowed run keeps the build's invariant.** -/
theorem run_inv (programs : List (List (List Call))) {sched : List (ℕ × ℕ)}
    (h : Interleave.Within Admissible step (init programs) sched) :
    Inv (Interleave.run step (init programs) sched) :=
  Interleave.run_invariant (fun _ _ _ hi hadm hstep => hi.step hadm hstep) (init_inv programs) h

/-- **When no call is under way, each share of the `Status`'s counts is the
sum of the tools' own.** -/
theorem quiescent_counts {sys : system} (hi : Inv sys) (hq : Quiescent sys) (s : share) :
    sys.shared.counts.get s = (sys.tools.map (·.counts.get s)).sum := by
  rw [hi.shares s]
  congr 1
  refine List.map_congr_left fun ts hts => ?_
  have hidle : ∀ c ∈ ts.callers, c.pendingOf s = 0 := by
    intro c hc
    simp [caller.pendingOf, hq ts hts c hc]
  simp [toolStatus.forwarded, List.map_congr_left hidle]

end status

end Soong
