import Soong.Lib.PyStr
import Soong.Lib.GoMap

/-!
# The signature trie of the hidden API scripts

`scripts/hiddenapi/signature_trie.py` stores values under member signatures
such as `Ljava/lang/Character$UnicodeScript;->of(I)...`, in a trie keyed by
the elements of the signature: its packages, its classes from the outermost
in, and the member.  A key is a pair of the element's kind and its text, so a
package and a class of one name are different keys.  `get_matching_rows`
answers a pattern: a member signature, a class, or a package followed by `*`
(its classes) or `**` (its classes and those of its sub-packages).

`signature_to_elements` splits a signature or a pattern into elements, and
rejects a last package-or-class element that is all lower case: such a
pattern raises rather than matching nothing.

`Node.entries` says what a trie holds: every leaf, with the path of keys that
leads to it.  A trie built by `add` keeps `Node.WF`: the keys of a node are
distinct, and exactly the member keys lead to leaves.  Over it, `Signature`
and `Pattern` give signatures and patterns by their parts, and
`Pattern.selects` says which signatures a pattern means; `Pattern.reaches`
connects the two levels, as the paths `get_matching_rows` collects.

## Main definitions

* `elementType`, `Element`, `Node` — the trie, Python's dicts in insertion
  order.
* `signature_to_elements`, `add`, `addAll`, `get_matching_rows`, `Node.values`.
* `Node.entries`, `Node.WF`, `below` — what a trie holds, its invariant, and
  what lies under a path.
* `Signature`, `Pattern`, `Pattern.selects` — signatures and patterns by their
  parts, and what a pattern means.

## Main results

* `append_values_eq`, `walk_eq` — reading a trie, by its entries.
* `addLoop_spec`, `add_eq`, `addAll_spec` — adding new members keeps the
  invariant and adds one entry each.
* `signature_to_elements_render` and the lemmas before it — a rendered
  signature or pattern parses back into its elements.
* `get_matching_rows_eq`, `Pattern.reaches_elements` — a pattern collects the
  entries under its path that its selector picks, which are those of the
  signatures it selects.
* `get_matching_rows_selects` — the values a pattern gets from a trie of
  distinct valid signatures are those of the signatures it selects.
* `get_matching_rows_lower_case_class` — a class pattern that is all lower
  case raises instead.
-/

namespace Soong

namespace hiddenapi

/-- The kinds of element of a signature. -/
inductive elementType
  | package
  | «class»
  | member
  | wildcard
  deriving DecidableEq, Repr

/-- An element of a signature, Python's pair `(type, value)`. -/
structure Element where
  type : elementType
  value : List Char
  deriving DecidableEq, Repr

/-- A node of the trie: an `InteriorNode` with its dict `nodes` from elements
to children, in insertion order, or a `Leaf` with its value.  The `type` and
`selector` fields Python keeps on each node are read by nothing modelled
here. -/
inductive Node (V : Type)
  | interior (nodes : List (Element × Node V))
  | leaf (value : V)

variable {V : Type}

/-- `signature_trie()`. -/
def signature_trie : Node V := .interior []

section Elements

variable (cased lower : Char → Bool)

/-- `InteriorNode.signature_to_elements`: the packages, the classes from the
outermost in, then the member or the wildcard.  `cased` and `lower` are the
Unicode tables `str.islower` reads. -/
def signature_to_elements (signature : List Char) : Except String (List Element) :=
  let text := str.removePrefix signature ['L']
  let parts := str.split text ';' ['-', '>']
  let member := parts.drop 1
  let elements := (parts.headD []).splitOn '/'
  let last_element := elements.getLastD []
  if '*' ∈ last_element then
    if last_element ≠ ['*'] ∧ last_element ≠ ['*', '*'] then
      .error ("Invalid signature '" ++ String.ofList signature ++ "': invalid wildcard '" ++
        String.ofList last_element ++ "'")
    else if member ≠ [] then
      .error ("Invalid signature '" ++ String.ofList signature ++ "': contains wildcard '" ++
        String.ofList last_element ++ "' and member signature '" ++
        String.ofList (member.headD []) ++ "'")
    else .ok (elements.dropLast.map (⟨.package, ·⟩) ++ [⟨.wildcard, last_element⟩])
  else if str.islower cased lower last_element then
    .error ("Invalid signature '" ++ String.ofList signature ++ "': last element '" ++
      String.ofList last_element ++
      "' is lower case but should be an upper case class name or wildcard")
  else
    let classes := (str.removeSuffix last_element [';']).splitOn '$'
    .ok (elements.dropLast.map (⟨.package, ·⟩) ++ classes.map (⟨.«class», ·⟩) ++
      member.map (⟨.member, ·⟩))

end Elements

/-! ### Adding a value -/

/-- After the loop of `add`: a `Leaf` for the last element, which must be a
member not already there. -/
def addLeaf (signature : List Char) (value : V) (last_element : Element) (node : Node V) :
    Node V × Option String :=
  if last_element.type ≠ .member then
    (node, some ("Invalid signature: " ++ String.ofList signature ++
      ", does not identify a specific member"))
  else
    match node with
    | .leaf v => (.leaf v, some "'Leaf' object has no attribute 'nodes'")
    | .interior nodes =>
      if last_element ∈ GoMap.keys nodes then
        (.interior nodes, some ("Duplicate signature: " ++ String.ofList signature))
      else (.interior (GoMap.set nodes last_element (.leaf value)), none)

/-- The loop of `add` over `elements[:-1]`, from the element at `index`: an
element already there is followed, and any other gets a new `InteriorNode`,
unless `only_if_matches` and it is the first.  The second component is the
exception raised, if any; the nodes written before it stay. -/
def addLoop (signature : List Char) (value : V) (only_if_matches : Bool) (last_element : Element) :
    ℕ → List Element → Node V → Node V × Option String
  | _, [], node => addLeaf signature value last_element node
  | _, _ :: _, .leaf v => (.leaf v, some "'Leaf' object has no attribute 'nodes'")
  | index, element :: rest, .interior nodes =>
    match GoMap.get? nodes element with
    | some node =>
      let r := addLoop signature value only_if_matches last_element (index + 1) rest node
      (.interior (GoMap.set nodes element r.1), r.2)
    | none =>
      if only_if_matches ∧ index = 0 then (.interior nodes, none)
      else
        let r := addLoop signature value only_if_matches last_element (index + 1) rest (.interior [])
        (.interior (GoMap.set nodes element r.1), r.2)

/-- `InteriorNode.add(signature, value, only_if_matches)`: the trie after the
call, and the exception it raised, if any. -/
def add (cased lower : Char → Bool) (t : Node V) (signature : List Char) (value : V)
    (only_if_matches : Bool) : Node V × Option String :=
  match signature_to_elements cased lower signature with
  | .error e => (t, some e)
  | .ok elements =>
    match elements.getLast? with
    | none => (t, some "list index out of range")
    | some last_element => addLoop signature value only_if_matches last_element 0 elements.dropLast t

/-- The loop that fills a trie, as the tests do with
`for signature, value in rows: trie.add(signature, value)`: the trie after
it, and the first exception, which ends the loop. -/
def addAll (cased lower : Char → Bool) (t : Node V) : List (List Char × V) → Node V × Option String
  | [] => (t, none)
  | (signature, value) :: rows =>
    match add cased lower t signature value false with
    | (t', none) => addAll cased lower t' rows
    | (t', some e) => (t', some e)

/-! ### Reading values -/

mutual

/-- `append_values(values, selector)`: a `Leaf` gives its value; an
`InteriorNode` gives, for each child whose key `selector` picks, all the
values below it. -/
def Node.append_values : Node V → (Element → Bool) → List V
  | .interior nodes, selector => appendChildValues nodes selector
  | .leaf value, _ => [value]

/-- The loop of `InteriorNode.append_values` over `nodes.items()`. -/
def appendChildValues : List (Element × Node V) → (Element → Bool) → List V
  | [], _ => []
  | (key, node) :: rest, selector =>
    (if selector key then node.append_values fun _ => true else []) ++
      appendChildValues rest selector

end

/-- `Node.values(selector)`. -/
def Node.values (node : Node V) (selector : Element → Bool) : List V := node.append_values selector

/-- The loop of `get_matching_rows` down the elements: the node reached, or
`none` when an element is missing. -/
def walk : Node V → List Element → Except String (Option (Node V))
  | node, [] => .ok (some node)
  | .leaf _, _ :: _ => .error "'Leaf' object has no attribute 'nodes'"
  | .interior nodes, element :: rest =>
    match GoMap.get? nodes element with
    | some node => walk node rest
    | none => .ok none

/-- `InteriorNode.get_matching_rows(pattern)`. -/
def get_matching_rows (cased lower : Char → Bool) (t : Node V) (pattern : List Char) :
    Except String (List V) := do
  let elements ← signature_to_elements cased lower pattern
  match elements.getLast? with
  | none => .error "list index out of range"
  | some last_element =>
    -- a wildcard is not walked; `*` leaves out the sub-packages
    let (elements, selector) : List Element × (Element → Bool) :=
      if last_element.type = .wildcard then
        (elements.dropLast,
          if last_element.value = ['*'] then fun x => decide (x.type ≠ .package) else fun _ => true)
      else (elements, fun _ => true)
    match ← walk t elements with
    | some node => pure (node.values selector)
    | none => pure []

/-! ### What a trie holds -/

/-- Whether a node is a `Leaf`. -/
def Node.isLeaf : Node V → Bool
  | .interior _ => false
  | .leaf _ => true

mutual

/-- The values of a trie with the paths of keys that lead to them, in the
order `append_values` visits them. -/
def Node.entries : Node V → List (List Element × V)
  | .interior nodes => childEntries nodes
  | .leaf value => [([], value)]

/-- The entries below the children of a node, each under its key. -/
def childEntries : List (Element × Node V) → List (List Element × V)
  | [] => []
  | (key, node) :: rest =>
    node.entries.map (fun e => (key :: e.1, e.2)) ++ childEntries rest

end

mutual

/-- The invariant of a trie built by `add`: the keys of a node are distinct,
and exactly the member keys lead to leaves. -/
def Node.WF : Node V → Prop
  | .interior nodes => (GoMap.keys nodes).Nodup ∧ ChildrenWF nodes
  | .leaf _ => True

/-- `Node.WF` for the children of a node. -/
def ChildrenWF : List (Element × Node V) → Prop
  | [] => True
  | (key, node) :: rest => (key.type = .member ↔ node.isLeaf = true) ∧ node.WF ∧ ChildrenWF rest

end

/-- The entries under `path`, with `path` taken off. -/
def below (path : List Element) (entries : List (List Element × V)) : List (List Element × V) :=
  entries.filterMap fun e => if path <+: e.1 then some (e.1.drop path.length, e.2) else none

/-- Whether `selector` picks the first key of a path: the empty path of a
leaf's own value is always picked. -/
def headSel (selector : Element → Bool) : List Element → Bool
  | [] => true
  | key :: _ => selector key

/-! ### Reading values, by the entries -/

@[simp] theorem childEntries_append (a b : List (Element × Node V)) :
    childEntries (a ++ b) = childEntries a ++ childEntries b := by
  induction a with
  | nil => rfl
  | cons e a ih =>
    obtain ⟨key, node⟩ := e
    rw [List.cons_append, childEntries, childEntries, ih, List.append_assoc]

theorem filter_headSel_true (es : List (List Element × V)) :
    es.filter (fun e => headSel (fun _ => true) e.1) = es := by
  rw [List.filter_eq_self]
  rintro ⟨_ | _, _⟩ _ <;> rfl

/-- The entries under one key: the selector reads the key itself. -/
theorem filter_headSel_map_cons (selector : Element → Bool) (key : Element)
    (es : List (List Element × V)) :
    (es.map fun e => (key :: e.1, e.2)).filter (fun e => headSel selector e.1) =
      if selector key then es.map fun e => (key :: e.1, e.2) else [] := by
  split_ifs with hk
  · rw [List.filter_eq_self, List.forall_mem_map]
    exact fun _ _ => hk
  · rw [List.filter_eq_nil_iff, List.forall_mem_map]
    exact fun _ _ => hk

mutual

/-- **`append_values` collects the entries whose first key is selected**, in
the order of `Node.entries`. -/
theorem append_values_eq : ∀ (node : Node V) (selector : Element → Bool),
    node.append_values selector = (node.entries.filter fun e => headSel selector e.1).map Prod.snd
  | .interior nodes, selector => by
    rw [Node.append_values, Node.entries]
    exact appendChildValues_eq nodes selector
  | .leaf value, selector => by
    simp [Node.append_values, Node.entries, headSel]

theorem appendChildValues_eq : ∀ (nodes : List (Element × Node V)) (selector : Element → Bool),
    appendChildValues nodes selector =
      ((childEntries nodes).filter fun e => headSel selector e.1).map Prod.snd
  | [], _ => rfl
  | (key, node) :: rest, selector => by
    rw [appendChildValues, childEntries, List.filter_append, List.map_append,
      appendChildValues_eq rest selector, filter_headSel_map_cons]
    -- below a selected key every value is collected
    split_ifs
    · rw [append_values_eq node, filter_headSel_true, List.map_map]
      rfl
    · rfl

end

/-! ### The entries under a path -/

@[simp] theorem below_nil (entries : List (List Element × V)) : below [] entries = entries := by
  simp [below]

@[simp] theorem below_of_nil (path : List Element) : below path ([] : List (List Element × V)) = [] :=
  rfl

@[simp] theorem below_append (path : List Element) (a b : List (List Element × V)) :
    below path (a ++ b) = below path a ++ below path b :=
  List.filterMap_append

/-- Going down a path is going down its first key, then the rest. -/
theorem below_cons (key : Element) (path : List Element) (entries : List (List Element × V)) :
    below (key :: path) entries = below path (below [key] entries) := by
  simp only [below, List.filterMap_filterMap]
  apply List.filterMap_congr
  rintro ⟨_ | ⟨x, p⟩, v⟩ -
  · simp
  · by_cases hx : key = x
    · simp [hx]
    · simp [hx]

/-- Below `key`, the entries of a child under `key'`: all of them when the keys
agree, none otherwise. -/
theorem below_map_cons (key key' : Element) (es : List (List Element × V)) :
    below [key] (es.map fun e => (key' :: e.1, e.2)) = if key' = key then es else [] := by
  split_ifs with hk
  · subst hk
    simp [below, List.filterMap_map]
  · simp [below, List.filterMap_map, Ne.symm hk]

theorem below_childEntries_of_get?_none {nodes : List (Element × Node V)} {key : Element}
    (h : GoMap.get? nodes key = none) : below [key] (childEntries nodes) = [] := by
  induction nodes with
  | nil => rfl
  | cons e nodes ih =>
    obtain ⟨key', node⟩ := e
    have hne : key' ≠ key := fun hk => by simp [GoMap.get?, hk] at h
    have hrest : GoMap.get? nodes key = none := by simpa [GoMap.get?, hne] using h
    rw [childEntries, below_append, below_map_cons, if_neg hne, ih hrest, List.nil_append]

/-- Below a key of a node, in a node of distinct keys: the entries of its child. -/
theorem below_childEntries_of_get? {nodes : List (Element × Node V)} {key : Element} {c : Node V}
    (hnd : (GoMap.keys nodes).Nodup) (h : GoMap.get? nodes key = some c) :
    below [key] (childEntries nodes) = c.entries := by
  induction nodes with
  | nil => simp [GoMap.get?] at h
  | cons e nodes ih =>
    obtain ⟨key', node⟩ := e
    simp only [GoMap.keys, List.map_cons, List.nodup_cons] at hnd
    rw [childEntries, below_append, below_map_cons]
    by_cases hk : key' = key
    · -- the child is the first one; no other key is `key`
      subst hk
      simp only [GoMap.get?, if_true, Option.some.injEq] at h
      have hrest : GoMap.get? nodes key' = none :=
        GoMap.get?_eq_none_of_not_mem_keys hnd.1
      rw [if_pos rfl, h, below_childEntries_of_get?_none hrest, List.append_nil]
    · simp only [GoMap.get?, hk, if_false] at h
      rw [if_neg hk, ih hnd.2 h, List.nil_append]

/-- A child found under `key` is well formed, and a leaf exactly when `key` is
a member. -/
theorem childrenWF_of_get? {nodes : List (Element × Node V)} {key : Element} {c : Node V}
    (hwf : ChildrenWF nodes) (h : GoMap.get? nodes key = some c) :
    (key.type = .member ↔ c.isLeaf = true) ∧ c.WF := by
  induction nodes with
  | nil => simp [GoMap.get?] at h
  | cons e nodes ih =>
    obtain ⟨key', node⟩ := e
    rw [ChildrenWF] at hwf
    by_cases hk : key' = key
    · subst hk
      simp only [GoMap.get?, if_true, Option.some.injEq] at h
      subst h
      exact ⟨hwf.1, hwf.2.1⟩
    · simp only [GoMap.get?, hk, if_false] at h
      exact ih hwf.2.2 h

/-- **What `walk` finds.**  Down a path whose keys before the last are not
members, in a well-formed trie, the node reached holds the entries below the
path, and a missing key means there are none. -/
theorem walk_eq : ∀ (path : List Element) (node : Node V), node.WF →
    (node.isLeaf = true → path = []) → (∀ e ∈ path.dropLast, e.type ≠ .member) →
    (∃ n, walk node path = .ok (some n) ∧ n.entries = below path node.entries) ∨
      (walk node path = .ok none ∧ below path node.entries = [])
  | [], node, _, _, _ => .inl ⟨node, rfl, (below_nil _).symm⟩
  | _ :: _, .leaf _, _, hleaf, _ => absurd (hleaf rfl) (List.cons_ne_nil _ _)
  | key :: rest, .interior nodes, hwf, _, hpath => by
    rw [Node.WF] at hwf
    rw [Node.entries, below_cons]
    cases hget : GoMap.get? nodes key with
    | none =>
      right
      rw [walk, hget, below_childEntries_of_get?_none hget, below_of_nil]
      exact ⟨rfl, rfl⟩
    | some c =>
      obtain ⟨hleaf, hc⟩ := childrenWF_of_get? hwf.2 hget
      -- the keys of `rest` before its last are keys of the path before its last
      have hrest : ∀ e ∈ rest.dropLast, e.type ≠ .member := by
        intro e he
        cases rest with
        | nil => simp at he
        | cons x xs => exact hpath e (List.mem_cons_of_mem key he)
      -- `key` is not the last key, so not a member, so `c` is no leaf
      have hcleaf : c.isLeaf = true → rest = [] := by
        intro hc'
        cases rest with
        | nil => rfl
        | cons x xs => exact absurd (hleaf.mpr hc') (hpath key List.mem_cons_self)
      rw [walk, hget, below_childEntries_of_get? hwf.1 hget]
      exact walk_eq rest c hc hcleaf hrest

/-! ### Adding a member -/

/-- An entry of a child is an entry of its parent, under the child's key. -/
theorem mem_childEntries {nodes : List (Element × Node V)} {key : Element} {c : Node V}
    (h : (key, c) ∈ nodes) {e : List Element × V} (he : e ∈ c.entries) :
    (key :: e.1, e.2) ∈ childEntries nodes := by
  induction nodes with
  | nil => simp at h
  | cons n nodes ih =>
    obtain ⟨key', node⟩ := n
    rw [childEntries, List.mem_append]
    rcases List.mem_cons.mp h with h | h
    · obtain ⟨rfl, rfl⟩ := Prod.mk.inj h
      exact .inl (List.mem_map_of_mem he)
    · exact .inr (ih h)

theorem childrenWF_set {nodes : List (Element × Node V)} {key : Element} {c : Node V}
    (hwf : ChildrenWF nodes) (hleaf : key.type = .member ↔ c.isLeaf = true) (hc : c.WF) :
    ChildrenWF (GoMap.set nodes key c) := by
  induction nodes with
  | nil => exact ⟨hleaf, hc, trivial⟩
  | cons n nodes ih =>
    obtain ⟨key', node⟩ := n
    rw [ChildrenWF] at hwf
    by_cases hk : key' = key
    · rw [GoMap.set, if_pos hk, ChildrenWF]
      exact ⟨hleaf, hc, hwf.2.2⟩
    · rw [GoMap.set, if_neg hk, ChildrenWF]
      exact ⟨hwf.1, hwf.2.1, ih hwf.2.2⟩

/-- Setting a well-formed child under a key of its kind keeps a node well formed. -/
theorem WF_set {nodes : List (Element × Node V)} (hwf : (Node.interior nodes).WF) {key : Element}
    {c : Node V} (hleaf : key.type = .member ↔ c.isLeaf = true) (hc : c.WF) :
    (Node.interior (GoMap.set nodes key c)).WF := by
  rw [Node.WF] at hwf ⊢
  exact ⟨GoMap.nodup_keys_set hwf.1 key c, childrenWF_set hwf.2 hleaf hc⟩

/-- A new child is appended with its entries. -/
theorem childEntries_set_of_get?_none {nodes : List (Element × Node V)} {key : Element}
    (h : GoMap.get? nodes key = none) (c : Node V) :
    childEntries (GoMap.set nodes key c) =
      childEntries nodes ++ c.entries.map fun e => (key :: e.1, e.2) := by
  rw [GoMap.set_of_get?_eq_none c h, childEntries_append, childEntries, childEntries,
    List.append_nil]

/-- A child replaced by one with an entry more: the parent has that entry more,
under the child's key. -/
theorem childEntries_set_perm {nodes : List (Element × Node V)} {key : Element} {c c' : Node V}
    (h : GoMap.get? nodes key = some c) {e : List Element × V}
    (hc : c'.entries.Perm (c.entries ++ [e])) :
    (childEntries (GoMap.set nodes key c')).Perm (childEntries nodes ++ [(key :: e.1, e.2)]) := by
  induction nodes with
  | nil => simp [GoMap.get?] at h
  | cons n nodes ih =>
    obtain ⟨key', node⟩ := n
    by_cases hk : key' = key
    · subst hk
      simp only [GoMap.get?, if_true, Option.some.injEq] at h
      subst h
      rw [GoMap.set, if_pos rfl, childEntries, childEntries, List.append_assoc]
      calc List.Perm ((c'.entries.map fun e => (key' :: e.1, e.2)) ++ childEntries nodes)
            ((node.entries ++ [e]).map (fun e => (key' :: e.1, e.2)) ++ childEntries nodes) :=
            (hc.map _).append_right _
        _ = (node.entries.map fun e => (key' :: e.1, e.2)) ++
              ([(key' :: e.1, e.2)] ++ childEntries nodes) := by
            rw [List.map_append, List.append_assoc, List.map_singleton]
        List.Perm _ ((node.entries.map fun e => (key' :: e.1, e.2)) ++
              (childEntries nodes ++ [(key' :: e.1, e.2)])) :=
            List.perm_append_comm.append_left _
    · simp only [GoMap.get?, hk, if_false] at h
      rw [GoMap.set, if_neg hk, childEntries, childEntries, List.append_assoc]
      exact (ih h).append_left _

theorem WF_interior_nil : (Node.interior [] : Node V).WF := ⟨List.nodup_nil, trivial⟩

/-- The last step of `add`: a member not yet in a well-formed node is added
under it as a new leaf. -/
theorem addLeaf_eq {signature : List Char} (value : V) {last_element : Element}
    {nodes : List (Element × Node V)} (hwf : (Node.interior nodes).WF)
    (hlast : last_element.type = .member) (hnew : ∀ e ∈ childEntries nodes, e.1 ≠ [last_element]) :
    GoMap.get? nodes last_element = none ∧
      addLeaf signature value last_element (.interior nodes) =
        (.interior (GoMap.set nodes last_element (.leaf value)), none) := by
  rw [Node.WF] at hwf
  -- a member key already there leads to a leaf, whose value would be an entry
  have hnot : last_element ∉ GoMap.keys nodes := by
    intro hmem
    obtain ⟨c, hc⟩ := Option.isSome_iff_exists.mp (GoMap.get?_isSome_of_mem_keys hmem)
    obtain ⟨hleaf, -⟩ := childrenWF_of_get? hwf.2 hc
    cases c with
    | interior _ => exact absurd (hleaf.mp hlast) Bool.false_ne_true
    | leaf w =>
      exact hnew _ (mem_childEntries (GoMap.mem_of_get?_eq_some hc) List.mem_cons_self) rfl
  refine ⟨GoMap.get?_eq_none_of_not_mem_keys hnot, ?_⟩
  rw [addLeaf, if_neg (not_not_intro hlast)]
  simp only [hnot, if_false]

/-- **Adding a new member** down keys that are no members: the loop of `add`
raises nothing, and the node stays well formed and holds one entry more. -/
theorem addLoop_spec (signature : List Char) (value : V) {last_element : Element}
    (hlast : last_element.type = .member) : ∀ (path : List Element) (index : ℕ) (node : Node V),
    node.WF → node.isLeaf = false → (∀ e ∈ path, e.type ≠ .member) →
    (∀ e ∈ node.entries, e.1 ≠ path ++ [last_element]) →
    ∃ node', addLoop signature value false last_element index path node = (node', none) ∧
      node'.WF ∧ node'.isLeaf = false ∧
      node'.entries.Perm (node.entries ++ [(path ++ [last_element], value)])
  | _, _, .leaf _, _, hleaf, _, _ => by simp [Node.isLeaf] at hleaf
  | [], _, .interior nodes, hwf, _, _, hnew => by
    obtain ⟨hget, hadd⟩ := addLeaf_eq value hwf hlast hnew
    refine ⟨_, by rw [addLoop, hadd], WF_set hwf (by simp [Node.isLeaf, hlast]) (by rw [Node.WF]; trivial), rfl, ?_⟩
    rw [Node.entries, Node.entries, childEntries_set_of_get?_none hget]
    rfl
  | key :: rest, index, .interior nodes, hwf, _, hpath, hnew => by
    have hkey : key.type ≠ .member := hpath key List.mem_cons_self
    have hrest : ∀ e ∈ rest, e.type ≠ .member := fun e he => hpath e (List.mem_cons_of_mem key he)
    cases hget : GoMap.get? nodes key with
    | some c =>
      -- an existing child: go down it
      obtain ⟨hleaf, hc⟩ := childrenWF_of_get? hwf.2 hget
      have hcleaf : c.isLeaf = false := Bool.eq_false_iff.mpr fun h => hkey (hleaf.mpr h)
      have hcnew : ∀ e ∈ c.entries, e.1 ≠ rest ++ [last_element] := fun e he heq =>
        hnew _ (mem_childEntries (GoMap.mem_of_get?_eq_some hget) he) (by rw [heq]; rfl)
      obtain ⟨c', hadd, hc'wf, hc'leaf, hc'⟩ :=
        addLoop_spec signature value hlast rest (index + 1) c hc hcleaf hrest hcnew
      refine ⟨.interior (GoMap.set nodes key c'), ?_, WF_set hwf (by simp [hkey, hc'leaf]) hc'wf,
        rfl, ?_⟩
      · simp [addLoop, hget, hadd]
      · rw [Node.entries, Node.entries]
        exact childEntries_set_perm hget hc'
    | none =>
      -- a new `InteriorNode` under `key`, then down it
      obtain ⟨c', hadd, hc'wf, hc'leaf, hc'⟩ :=
        addLoop_spec signature value hlast rest (index + 1) (.interior []) WF_interior_nil rfl hrest
          (fun e he => by simp [Node.entries, childEntries] at he)
      refine ⟨.interior (GoMap.set nodes key c'), ?_, WF_set hwf (by simp [hkey, hc'leaf]) hc'wf,
        rfl, ?_⟩
      · rw [addLoop, hget]
        simp [hadd]
      · rw [Node.entries, Node.entries, childEntries_set_of_get?_none hget]
        refine (hc'.map _).append_left _

/-! ### Signatures and patterns by their parts -/

/-- A member signature `L p1/.../pk/C1$...$Cm;->member` by its parts. -/
structure Signature where
  packages : List (List Char)
  classes : List (List Char)
  member : List Char
  deriving DecidableEq, Repr

/-- `C1$...$Cm`. -/
def classChain (classes : List (List Char)) : List Char := ['$'].intercalate classes

/-- `L q1/.../ql/last`. -/
def qualified (packages : List (List Char)) (last : List Char) : List Char :=
  'L' :: ['/'].intercalate (packages ++ [last])

def Signature.render (s : Signature) : List Char :=
  qualified s.packages (classChain s.classes) ++ [';', '-', '>'] ++ s.member

def packageElements (packages : List (List Char)) : List Element := packages.map (⟨.package, ·⟩)

def classElements (classes : List (List Char)) : List Element := classes.map (⟨.«class», ·⟩)

/-- The keys a signature is added under. -/
def Signature.elements (s : Signature) : List Element :=
  packageElements s.packages ++ classElements s.classes ++ [⟨.member, s.member⟩]

/-- A package or class name that a rendered signature reads back as one name:
not empty, and free of the separators `/`, `$` and `;` and of the wildcard
`*`. -/
def ValidName (n : List Char) : Prop := n ≠ [] ∧ '/' ∉ n ∧ '$' ∉ n ∧ ';' ∉ n ∧ '*' ∉ n

instance (n : List Char) : Decidable (ValidName n) := inferInstanceAs (Decidable (_ ∧ _))

/-- A member signature that `signature_to_elements` splits back into the parts
it was rendered from: valid names, at least one class, a class chain that
`str.islower` does not take for a package, and a member with no `;->` in it. -/
structure Signature.Valid (cased lower : Char → Bool) (s : Signature) : Prop where
  packages : ∀ p ∈ s.packages, ValidName p
  classes_ne_nil : s.classes ≠ []
  classes : ∀ c ∈ s.classes, ValidName c
  not_islower : str.islower cased lower (classChain s.classes) = false
  member_ne_nil : s.member ≠ []
  member : ¬[';', '-', '>'] <:+: s.member

/-- The patterns `get_matching_rows` answers: a member signature, a class
`L q1/.../ql/D1$...$Dj`, or a package followed by `*` or, with
`subpackages`, `**`. -/
inductive Pattern
  | member (signature : Signature)
  | «class» (packages classes : List (List Char))
  | wildcard (packages : List (List Char)) (subpackages : Bool)

def Pattern.render : Pattern → List Char
  | .member s => s.render
  | .class q D => qualified q (classChain D)
  | .wildcard q false => qualified q ['*']
  | .wildcard q true => qualified q ['*', '*']

/-- A pattern that `signature_to_elements` splits back into the parts it was
rendered from: the same conditions on names as for a member signature. -/
def Pattern.Valid (cased lower : Char → Bool) : Pattern → Prop
  | .member s => s.Valid cased lower
  | .class q D => (∀ p ∈ q, ValidName p) ∧ D ≠ [] ∧ (∀ c ∈ D, ValidName c) ∧
      str.islower cased lower (classChain D) = false
  | .wildcard q _ => ∀ p ∈ q, ValidName p

/-- The keys `get_matching_rows` walks down for a pattern. -/
def Pattern.path : Pattern → List Element
  | .member s => s.elements
  | .class q D => packageElements q ++ classElements D
  | .wildcard q _ => packageElements q

/-- The selector `get_matching_rows` collects with: `*` leaves out the
sub-packages. -/
def Pattern.selector : Pattern → Element → Bool
  | .wildcard _ false => fun x => decide (x.type ≠ .package)
  | _ => fun _ => true

@[simp] theorem Pattern.selector_member (s : Signature) :
    (Pattern.member s).selector = fun _ => true := rfl

@[simp] theorem Pattern.selector_class (q D : List (List Char)) :
    (Pattern.class q D).selector = fun _ => true := rfl

@[simp] theorem Pattern.selector_star (q : List (List Char)) :
    (Pattern.wildcard q false).selector = fun x => decide (x.type ≠ .package) := rfl

@[simp] theorem Pattern.selector_starStar (q : List (List Char)) :
    (Pattern.wildcard q true).selector = fun _ => true := rfl

/-- **What a pattern means**: the signature itself, a class and those nested
in it, the classes of one package, or those of a package and its
sub-packages. -/
def Pattern.selects : Pattern → Signature → Bool
  | .member s', s => decide (s = s')
  | .class q D, s => decide (s.packages = q ∧ D <+: s.classes)
  | .wildcard q false, s => decide (s.packages = q)
  | .wildcard q true, s => decide (q <+: s.packages)

/-! ### Parsing what is rendered -/

section Parse

variable {cased lower : Char → Bool}

theorem type_ne_member_of_mem {q D : List (List Char)} {e : Element}
    (he : e ∈ packageElements q ++ classElements D) : e.type ≠ .member := by
  simp only [packageElements, classElements, List.mem_append, List.mem_map] at he
  rcases he with ⟨a, -, rfl⟩ | ⟨a, -, rfl⟩ <;> simp

/-- No valid name, and not the class chain of valid names, holds a character
of `/`, `$`, `;`, `*` other than the chain's own `$`. -/
theorem not_mem_classChain {D : List (List Char)} (hD : ∀ c ∈ D, ValidName c) {x : Char}
    (hx : x ≠ '$') (hname : ∀ n, ValidName n → x ∉ n) : x ∉ classChain D :=
  str.not_mem_intercalate hx fun c hc => hname c (hD c hc)

/-- The part before `;->`, cut at `/`, gives back the names it was made of. -/
theorem splitOn_qualified {q : List (List Char)} {last : List Char} (hq : ∀ p ∈ q, ValidName p)
    (hlast : '/' ∉ last) : (['/'].intercalate (q ++ [last])).splitOn '/' = q ++ [last] := by
  refine List.splitOn_intercalate '/' (fun l hl => ?_) (by simp)
  rcases List.mem_append.mp hl with hl | hl
  · exact (hq l hl).2.1
  · rw [List.mem_singleton.mp hl]
    exact hlast

theorem semicolon_not_mem_qualified {q : List (List Char)} {last : List Char}
    (hq : ∀ p ∈ q, ValidName p) (hlast : ';' ∉ last) : ';' ∉ ['/'].intercalate (q ++ [last]) := by
  refine str.not_mem_intercalate (by decide) fun l hl => ?_
  rcases List.mem_append.mp hl with hl | hl
  · exact (hq l hl).2.2.2.1
  · rw [List.mem_singleton.mp hl]
    exact hlast

/-- A rendered member signature is cut at its `;->`. -/
theorem split_render {s : Signature} (hs : s.Valid cased lower) :
    str.split (str.removePrefix s.render ['L']) ';' ['-', '>'] =
      [['/'].intercalate (s.packages ++ [classChain s.classes]), s.member] := by
  have hsemi : ';' ∉ classChain s.classes :=
    not_mem_classChain hs.classes (by decide) fun _ h => h.2.2.2.1
  have htext : str.removePrefix s.render ['L'] =
      ['/'].intercalate (s.packages ++ [classChain s.classes]) ++ (';' :: ['-', '>']) ++ s.member :=
    str.removePrefix_append ['L'] _
  rw [htext, str.split_append (semicolon_not_mem_qualified hs.packages hsemi),
    str.split_of_not_infix hs.member]

/-- A rendered class or wildcard pattern has no `;->`. -/
theorem split_qualified {q : List (List Char)} {last : List Char} (hq : ∀ p ∈ q, ValidName p)
    (hlast : ';' ∉ last) :
    str.split (str.removePrefix (qualified q last) ['L']) ';' ['-', '>'] =
      [['/'].intercalate (q ++ [last])] := by
  rw [qualified, show 'L' :: ['/'].intercalate (q ++ [last]) = ['L'] ++ ['/'].intercalate (q ++ [last])
    from rfl, str.removePrefix_append]
  exact str.split_of_not_infix fun hi =>
    semicolon_not_mem_qualified hq hlast (hi.subset List.mem_cons_self)

/-- The elements of a text whose part before `;->` is packages, then a class
chain that is not all lower case. -/
theorem signature_to_elements_of_classes {signature : List Char} {q D : List (List Char)}
    {member : List (List Char)}
    (hsplit : str.split (str.removePrefix signature ['L']) ';' ['-', '>'] =
      ['/'].intercalate (q ++ [classChain D]) :: member)
    (hq : ∀ p ∈ q, ValidName p) (hD : D ≠ []) (hDn : ∀ c ∈ D, ValidName c)
    (hlow : str.islower cased lower (classChain D) = false) :
    signature_to_elements cased lower signature =
      .ok (packageElements q ++ classElements D ++ member.map (⟨.member, ·⟩)) := by
  have hstar : '*' ∉ classChain D := not_mem_classChain hDn (by decide) fun _ h => h.2.2.2.2
  have hsemi : ';' ∉ classChain D := not_mem_classChain hDn (by decide) fun _ h => h.2.2.2.1
  have hslash : '/' ∉ classChain D := not_mem_classChain hDn (by decide) fun _ h => h.2.1
  have hclasses : (str.removeSuffix (classChain D) [';']).splitOn '$' = D := by
    rw [str.removeSuffix_of_not_mem hsemi]
    exact List.splitOn_intercalate '$' (fun c hc => (hDn c hc).2.2.1) hD
  rw [signature_to_elements]
  simp only [hsplit, List.drop_one, List.tail_cons, List.headD_cons, splitOn_qualified hq hslash,
    List.getLastD_concat, List.dropLast_concat, if_neg hstar, hlow, hclasses]
  rfl

/-- The elements of a package followed by `*` or `**`. -/
theorem signature_to_elements_of_wildcard {signature : List Char} {q : List (List Char)}
    {w : List Char}
    (hsplit : str.split (str.removePrefix signature ['L']) ';' ['-', '>'] =
      [['/'].intercalate (q ++ [w])])
    (hq : ∀ p ∈ q, ValidName p) (hw : w = ['*'] ∨ w = ['*', '*']) :
    signature_to_elements cased lower signature = .ok (packageElements q ++ [⟨.wildcard, w⟩]) := by
  have hslash : '/' ∉ w := by rcases hw with rfl | rfl <;> decide
  have hstar : '*' ∈ w := by rcases hw with rfl | rfl <;> decide
  have hvalid : ¬(w ≠ ['*'] ∧ w ≠ ['*', '*']) := by rcases hw with rfl | rfl <;> decide
  rw [signature_to_elements]
  simp only [hsplit, List.drop_one, List.tail_cons, List.headD_cons, splitOn_qualified hq hslash,
    List.getLastD_concat, List.dropLast_concat, if_pos hstar, if_neg hvalid]
  rfl

/-- The elements of a valid pattern, and the last one `get_matching_rows`
reads first. -/
theorem signature_to_elements_render {s : Signature} (hs : s.Valid cased lower) :
    signature_to_elements cased lower s.render = .ok s.elements := by
  rw [signature_to_elements_of_classes (split_render hs) hs.packages hs.classes_ne_nil hs.classes
    hs.not_islower]
  rfl

theorem getLast?_classElements {q D : List (List Char)} (hD : D ≠ []) :
    ∃ last, (packageElements q ++ classElements D).getLast? = some last ∧ last.type = .«class» := by
  obtain ⟨D', d, rfl⟩ := (List.eq_nil_or_concat D).resolve_left hD
  refine ⟨⟨.«class», d⟩, ?_, rfl⟩
  rw [classElements, List.concat_eq_append, List.map_append, List.map_singleton,
    ← List.append_assoc, List.getLast?_concat]

end Parse

/-! ### Answering a pattern -/

section Rows

variable {cased lower : Char → Bool} {t : Node V}

/-- The end of `get_matching_rows`: the values below the path that the
selector picks, or none when the walk stops at a missing key. -/
theorem walk_values (ht : t.WF) (hleaf : t.isLeaf = false) (path : List Element)
    (hpath : ∀ e ∈ path.dropLast, e.type ≠ .member) (selector : Element → Bool) :
    ∃ r, walk t path = .ok r ∧
      (match r with
        | some node => (pure (node.values selector) : Except String (List V))
        | none => pure []) =
      .ok (((below path t.entries).filter fun e => headSel selector e.1).map Prod.snd) := by
  have hpath' : t.isLeaf = true → path = [] := fun h => absurd (hleaf ▸ h) Bool.false_ne_true
  rcases walk_eq path t ht hpath' hpath with ⟨n, hn, hent⟩ | ⟨hn, hent⟩
  · refine ⟨some n, hn, ?_⟩
    show Except.ok (n.values selector) = _
    rw [Node.values, append_values_eq, hent]
  · refine ⟨none, hn, ?_⟩
    rw [hent]
    rfl

/-- **`get_matching_rows` collects the entries below the pattern's path that
its selector picks**, in a well-formed trie. -/
theorem get_matching_rows_eq (ht : t.WF) (hleaf : t.isLeaf = false) {p : Pattern}
    (hp : p.Valid cased lower) :
    get_matching_rows cased lower t p.render =
      .ok (((below p.path t.entries).filter fun e => headSel p.selector e.1).map Prod.snd) := by
  cases p with
  | member s =>
    have hlast : s.elements.getLast? = some ⟨.member, s.member⟩ := List.getLast?_concat
    obtain ⟨r, hr, hval⟩ := walk_values ht hleaf s.elements
      (fun e he => type_ne_member_of_mem (by rwa [Signature.elements, List.dropLast_concat] at he))
      fun _ => true
    rw [Pattern.render, get_matching_rows, signature_to_elements_render hp]
    simp only [bind, Except.bind, hlast, reduceCtorEq, if_false, hr]
    exact hval
  | «class» q D =>
    obtain ⟨hq, hD, hDn, hlow⟩ := hp
    obtain ⟨last, hlast, htype⟩ := @getLast?_classElements q D hD
    have hparse := @signature_to_elements_of_classes cased lower _ q D []
      (split_qualified hq (not_mem_classChain hDn (by decide) fun _ h => h.2.2.2.1))
      hq hD hDn hlow
    rw [List.map_nil, List.append_nil] at hparse
    obtain ⟨r, hr, hval⟩ := walk_values ht hleaf (packageElements q ++ classElements D)
      (fun e he => type_ne_member_of_mem (List.dropLast_subset _ he)) fun _ => true
    rw [Pattern.render, get_matching_rows, hparse]
    simp only [bind, Except.bind, hlast, htype, reduceCtorEq, if_false, hr]
    exact hval
  | wildcard q subpackages =>
    obtain ⟨r, hr, hval⟩ := walk_values ht hleaf (packageElements q)
      (fun e he => type_ne_member_of_mem (List.mem_append_left (classElements []) (List.dropLast_subset _ he)))
      (Pattern.wildcard q subpackages).selector
    cases subpackages with
    | false =>
      rw [Pattern.render, get_matching_rows,
        signature_to_elements_of_wildcard (split_qualified hp (by decide)) hp (.inl rfl)]
      simp only [bind, Except.bind, List.getLast?_concat, if_true, List.dropLast_concat, hr]
      exact hval
    | true =>
      rw [Pattern.render, get_matching_rows,
        signature_to_elements_of_wildcard (split_qualified hp (by decide)) hp (.inr rfl)]
      simp only [bind, Except.bind, List.getLast?_concat, if_true, List.dropLast_concat, hr,
        show (['*', '*'] : List Char) ≠ ['*'] by decide, if_false]
      exact hval

/-- What `get_matching_rows` collects of the entries, read off their paths. -/
theorem map_filter_below (path : List Element) (selector : Element → Bool)
    (entries : List (List Element × V)) :
    ((below path entries).filter fun e => headSel selector e.1).map Prod.snd =
      (entries.filter fun e => decide (path <+: e.1) && headSel selector (e.1.drop path.length)).map
        Prod.snd := by
  induction entries with
  | nil => rfl
  | cons e entries ih =>
    rw [below, List.filterMap_cons, ← below]
    by_cases hp : path <+: e.1
    · by_cases hs : headSel selector (e.1.drop path.length) = true
      · simp [hp, hs, ih]
      · simp [hp, hs, ih]
    · simp [hp, ih]

end Rows

/-! ### What a pattern selects -/

section Selects

/-- Whether an entry's path lies under a pattern's path, with its next key
picked by the pattern's selector: the entries `get_matching_rows` collects. -/
def Pattern.reaches (p : Pattern) (path : List Element) : Bool :=
  decide (p.path <+: path) && headSel p.selector (path.drop p.path.length)

/-- Names of one kind, then a key of another kind: a prefix of names of the
first kind is a prefix of the names. -/
theorem map_prefix_map_append {τ : elementType} {Z : List Element}
    (hZ : ∀ z ∈ Z.head?, z.type ≠ τ) :
    ∀ {q a : List (List Char)}, q.map (⟨τ, ·⟩) <+: a.map (⟨τ, ·⟩) ++ Z ↔ q <+: a
  | [], _ => by simp
  | x :: q, [] => by
    simp only [List.map_cons, List.map_nil, List.nil_append, List.prefix_nil, reduceCtorEq,
      iff_false]
    intro h
    -- the next key of the path is no name of this kind
    cases Z with
    | nil => exact List.cons_ne_nil _ _ (List.prefix_nil.mp h)
    | cons z Z' => exact hZ z rfl (congrArg Element.type (List.cons_prefix_cons.mp h).1).symm
  | x :: q, y :: a => by
    rw [List.map_cons, List.map_cons, List.cons_append, List.cons_prefix_cons,
      List.cons_prefix_cons, map_prefix_map_append hZ]
    simp

/-- Names of one kind followed by keys of another kind: two such lists are
prefixes exactly when the names agree and the rest are prefixes. -/
theorem map_append_prefix_map_append {τ : elementType} {W Z : List Element} (hW : W ≠ [])
    (hWτ : ∀ w ∈ W.head?, w.type ≠ τ) (hZ : ∀ z ∈ Z.head?, z.type ≠ τ) :
    ∀ {q a : List (List Char)}, q.map (⟨τ, ·⟩) ++ W <+: a.map (⟨τ, ·⟩) ++ Z ↔ q = a ∧ W <+: Z
  | [], [] => by simp
  | [], y :: a => by
    obtain ⟨w, W', rfl⟩ := List.exists_cons_of_ne_nil hW
    simp only [List.map_nil, List.nil_append, List.map_cons, List.cons_append,
      List.cons_prefix_cons, reduceCtorEq, false_and, iff_false, not_and]
    intro hwy _
    exact hWτ w rfl (congrArg Element.type hwy)
  | x :: q, [] => by
    simp only [List.map_cons, List.map_nil, List.nil_append, List.cons_append, reduceCtorEq,
      false_and, iff_false]
    intro h
    -- the next key of the path is no name of this kind
    cases Z with
    | nil => exact List.cons_ne_nil _ _ (List.prefix_nil.mp h)
    | cons z Z' => exact hZ z rfl (congrArg Element.type (List.cons_prefix_cons.mp h).1).symm
  | x :: q, y :: a => by
    rw [List.map_cons, List.map_cons, List.cons_append, List.cons_append, List.cons_prefix_cons,
      map_append_prefix_map_append hW hWτ hZ]
    simp [and_assoc]

theorem Signature.elements_eq (s : Signature) :
    s.elements = packageElements s.packages ++ (classElements s.classes ++ [⟨.member, s.member⟩]) :=
  List.append_assoc _ _ _

/-- After its packages, a signature's next key is a class or its member. -/
theorem head_type_ne_package (classes : List (List Char)) (member : List Char) :
    ∀ z ∈ (classElements classes ++ [(⟨.member, member⟩ : Element)]).head?, z.type ≠ .package := by
  cases classes <;> simp [classElements]

theorem headSel_true (path : List Element) : headSel (fun _ => true) path = true := by
  cases path <;> rfl

theorem headSel_not_package {Z : List Element} (hZ : ∀ z ∈ Z.head?, z.type ≠ .package) :
    headSel (fun x => decide (x.type ≠ .package)) Z = true := by
  cases Z with
  | nil => rfl
  | cons z Z => exact decide_eq_true (hZ z rfl)

/-- A signature's elements start another's only when they are the same
signature: the packages agree, then the classes, then the member. -/
theorem Signature.elements_prefix_iff (s s' : Signature) : s'.elements <+: s.elements ↔ s = s' := by
  rw [Signature.elements_eq, Signature.elements_eq, packageElements, packageElements,
    map_append_prefix_map_append (by simp) (head_type_ne_package s'.classes s'.member)
      (head_type_ne_package s.classes s.member),
    classElements, classElements, map_append_prefix_map_append (by simp) (by simp) (by simp)]
  cases s
  cases s'
  simp [eq_comm]

theorem Signature.elements_injective : Function.Injective Signature.elements := fun s s' h =>
  ((Signature.elements_prefix_iff s' s).mp (h ▸ List.prefix_refl _)).symm

variable {cased lower : Char → Bool}

/-- **A valid pattern reaches exactly the signatures it selects**: the paths
below a pattern's path that its selector picks are the elements of the
signatures it means. -/
theorem Pattern.reaches_elements {p : Pattern} (hp : p.Valid cased lower) (s : Signature) :
    p.reaches s.elements = p.selects s := by
  have hZ := head_type_ne_package s.classes s.member
  cases p with
  | member s' =>
    rw [Pattern.reaches, Pattern.path, Pattern.selector_member, headSel_true, Bool.and_true,
      Pattern.selects]
    exact decide_eq_decide.mpr (Signature.elements_prefix_iff s s')
  | «class» q D =>
    obtain ⟨-, hD, -, -⟩ := hp
    have hW : classElements D ≠ [] := by simpa [classElements] using hD
    have hWτ : ∀ w ∈ (classElements D).head?, w.type ≠ .package := by
      cases D <;> simp [classElements]
    rw [Pattern.reaches, Pattern.path, Pattern.selector_class, headSel_true, Bool.and_true,
      Pattern.selects]
    apply decide_eq_decide.mpr
    -- the packages agree, then the class chain starts with `D`
    rw [Signature.elements_eq, packageElements, packageElements,
      map_append_prefix_map_append hW hWτ hZ, classElements, classElements,
      map_prefix_map_append (by simp)]
    exact and_congr_left' eq_comm
  | wildcard q subpackages =>
    have hreach : q.map (⟨.package, ·⟩) <+: s.elements ↔ q <+: s.packages := by
      rw [Signature.elements_eq, packageElements, map_prefix_map_append hZ]
    cases subpackages with
    | true =>
      rw [Pattern.reaches, Pattern.path, Pattern.selector_starStar, headSel_true, Bool.and_true,
        Pattern.selects, packageElements]
      exact decide_eq_decide.mpr hreach
    | false =>
      rw [Pattern.reaches, Pattern.path, Pattern.selector_star, Pattern.selects, packageElements]
      by_cases hq : q <+: s.packages
      · -- `*` reaches the signatures whose key after `q` is no package
        obtain ⟨rest, hrest⟩ := hq
        have hdrop : s.elements.drop q.length =
            packageElements rest ++ (classElements s.classes ++ [⟨.member, s.member⟩]) := by
          rw [Signature.elements_eq, packageElements, packageElements, ← hrest, List.map_append,
            List.append_assoc, List.drop_left' (List.length_map _)]
        rw [decide_eq_true (hreach.mpr ⟨rest, hrest⟩), Bool.true_and, List.length_map, hdrop]
        cases rest with
        | nil =>
          rw [packageElements, List.map_nil, List.nil_append, headSel_not_package hZ, ← hrest,
            List.append_nil,
            decide_eq_true rfl]
        | cons r rest =>
          have hne : s.packages ≠ q := by
            rw [← hrest]
            simp
          rw [decide_eq_false hne]
          rfl
      · have hne : s.packages ≠ q := fun h => hq (h ▸ List.prefix_refl _)
        rw [decide_eq_false (mt hreach.mp hq), decide_eq_false hne, Bool.false_and]

end Selects

/-! ### Building a trie of signatures -/

section Build

variable {cased lower : Char → Bool}

/-- **Adding a valid member signature that is not there yet** raises nothing;
the trie stays well formed and holds the signature's elements with its value. -/
theorem add_eq {t : Node V} (ht : t.WF) (hleaf : t.isLeaf = false) {s : Signature}
    (hs : s.Valid cased lower) (value : V) (hnew : ∀ e ∈ t.entries, e.1 ≠ s.elements) :
    ∃ t', add cased lower t s.render value false = (t', none) ∧ t'.WF ∧ t'.isLeaf = false ∧
      t'.entries.Perm (t.entries ++ [(s.elements, value)]) := by
  have hlast : s.elements.getLast? = some ⟨.member, s.member⟩ := List.getLast?_concat
  obtain ⟨t', hadd, hwf, hl, hperm⟩ :=
    addLoop_spec s.render value (show (⟨.member, s.member⟩ : Element).type = .member from rfl)
      (packageElements s.packages ++ classElements s.classes) 0 t ht hleaf
      (fun _ he => type_ne_member_of_mem he) hnew
  refine ⟨t', ?_, hwf, hl, hperm⟩
  rw [add, signature_to_elements_render hs]
  simp only [hlast]
  rw [Signature.elements, List.dropLast_concat]
  exact hadd

/-- **Adding rows of distinct valid signatures** raises nothing, and the trie
holds each with its value. -/
theorem addAll_spec : ∀ (rows : List (Signature × V)) (t : Node V), t.WF → t.isLeaf = false →
    (∀ r ∈ rows, r.1.Valid cased lower) → (rows.map fun r => r.1.elements).Nodup →
    (∀ e ∈ t.entries, ∀ r ∈ rows, e.1 ≠ r.1.elements) →
    ∃ t', addAll cased lower t (rows.map fun r => (r.1.render, r.2)) = (t', none) ∧ t'.WF ∧
      t'.isLeaf = false ∧ t'.entries.Perm (t.entries ++ rows.map fun r => (r.1.elements, r.2))
  | [], t, ht, hleaf, _, _, _ => ⟨t, rfl, ht, hleaf, by rw [List.map_nil, List.append_nil]⟩
  | (s, value) :: rows, t, ht, hleaf, hvalid, hnd, hnew => by
    rw [List.map_cons, List.nodup_cons] at hnd
    obtain ⟨t₁, hadd, hwf₁, hleaf₁, hperm₁⟩ :=
      add_eq ht hleaf (hvalid _ List.mem_cons_self) value fun e he => hnew e he _ List.mem_cons_self
    -- the entries after the first row are the old ones and the first row's
    have hnew₁ : ∀ e ∈ t₁.entries, ∀ r ∈ rows, e.1 ≠ r.1.elements := by
      intro e he r hr
      rcases List.mem_append.mp (hperm₁.subset he) with he | he
      · exact hnew e he r (List.mem_cons_of_mem _ hr)
      · rw [List.mem_singleton.mp he]
        exact fun h => hnd.1 (List.mem_map.mpr ⟨r, hr, h.symm⟩)
    obtain ⟨t', hall, hwf', hleaf', hperm'⟩ := addAll_spec rows t₁ hwf₁ hleaf₁
      (fun r hr => hvalid r (List.mem_cons_of_mem _ hr)) hnd.2 hnew₁
    refine ⟨t', ?_, hwf', hleaf', ?_⟩
    · rw [List.map_cons, addAll, hadd]
      exact hall
    · rw [List.map_cons, ← List.singleton_append, ← List.append_assoc]
      exact hperm'.trans (hperm₁.append_right _)

theorem signature_trie_entries : (signature_trie : Node V).entries = [] := rfl

/-- **`get_matching_rows` answers a pattern with the values of the signatures
it selects.**  Valid member signatures of distinct texts, added one by one to
a fresh trie, are all added; a valid pattern then gets, up to order, the
values of those it selects. -/
theorem get_matching_rows_selects (S : List (Signature × V))
    (hS : ∀ e ∈ S, e.1.Valid cased lower) (hdistinct : (S.map fun e => e.1.render).Nodup)
    (p : Pattern) (hp : p.Valid cased lower) :
    ∃ t vals, addAll cased lower signature_trie (S.map fun e => (e.1.render, e.2)) = (t, none) ∧
      get_matching_rows cased lower t p.render = .ok vals ∧
      vals.Perm ((S.filter fun e => p.selects e.1).map Prod.snd) := by
  -- distinct texts are distinct signatures, so distinct paths
  have hnd : (S.map fun e => e.1.elements).Nodup := by
    rw [List.Nodup, List.pairwise_map] at hdistinct ⊢
    exact hdistinct.imp fun hne heq => hne (by rw [Signature.elements_injective heq])
  obtain ⟨t, hadd, hwf, hleaf, hperm⟩ := addAll_spec S signature_trie WF_interior_nil rfl hS hnd
    (fun e he => by rw [signature_trie_entries] at he; cases he)
  rw [signature_trie_entries, List.nil_append] at hperm
  refine ⟨t, _, hadd, get_matching_rows_eq hwf hleaf hp, ?_⟩
  rw [map_filter_below]
  calc List.Perm ((t.entries.filter fun e => p.reaches e.1).map Prod.snd)
        (((S.map fun e => (e.1.elements, e.2)).filter fun e => p.reaches e.1).map Prod.snd) :=
        (hperm.filter _).map _
    _ = (S.filter fun e => p.reaches e.1.elements).map Prod.snd := by
        rw [List.filter_map, List.map_map]
        rfl
    _ = (S.filter fun e => p.selects e.1).map Prod.snd := by
        rw [List.filter_congr fun e _ => Pattern.reaches_elements hp e.1]

/-- The test's trie `La/b/C;->l()`, `La/b/C$D;->m()` asked for the class
`La/b/C`: both values, the nested class's included. -/
theorem get_matching_rows_selects_nestedClass :
    (∀ e ∈ [((⟨[['a'], ['b']], [['C']], ['l']⟩ : Signature), 1),
        ((⟨[['a'], ['b']], [['C'], ['D']], ['m']⟩ : Signature), 2)],
      e.1.Valid Char.isAlpha Char.isLower) ∧
    ([((⟨[['a'], ['b']], [['C']], ['l']⟩ : Signature), 1),
        ((⟨[['a'], ['b']], [['C'], ['D']], ['m']⟩ : Signature), 2)].map fun e => e.1.render).Nodup ∧
    (Pattern.class [['a'], ['b']] [['C']]).Valid Char.isAlpha Char.isLower ∧
    ∃ t vals, addAll Char.isAlpha Char.isLower signature_trie
        ([((⟨[['a'], ['b']], [['C']], ['l']⟩ : Signature), 1),
          ((⟨[['a'], ['b']], [['C'], ['D']], ['m']⟩ : Signature), 2)].map
          fun e => (e.1.render, e.2)) = (t, none) ∧
      get_matching_rows Char.isAlpha Char.isLower t (Pattern.class [['a'], ['b']] [['C']]).render =
        .ok vals ∧
      vals.Perm (([((⟨[['a'], ['b']], [['C']], ['l']⟩ : Signature), 1),
        ((⟨[['a'], ['b']], [['C'], ['D']], ['m']⟩ : Signature), 2)].filter
          fun e => (Pattern.class [['a'], ['b']] [['C']]).selects e.1).map Prod.snd) := by
  have hS : ∀ e ∈ [((⟨[['a'], ['b']], [['C']], ['l']⟩ : Signature), 1),
      ((⟨[['a'], ['b']], [['C'], ['D']], ['m']⟩ : Signature), 2)],
      e.1.Valid Char.isAlpha Char.isLower := by
    intro e he
    rcases List.mem_pair.mp he with rfl | rfl <;>
      exact ⟨by decide, by decide, by decide, by decide, by decide, by decide⟩
  have hd : ([((⟨[['a'], ['b']], [['C']], ['l']⟩ : Signature), 1),
      ((⟨[['a'], ['b']], [['C'], ['D']], ['m']⟩ : Signature), 2)].map
        fun e => e.1.render).Nodup := by decide
  have hp : (Pattern.class [['a'], ['b']] [['C']]).Valid Char.isAlpha Char.isLower :=
    ⟨by decide, by decide, by decide, by decide⟩
  exact ⟨hS, hd, hp, get_matching_rows_selects _ hS hd _ hp⟩

/-- A class pattern whose chain is all lower case raises, even on an empty
trie, rather than matching nothing. -/
theorem get_matching_rows_lower_case_class :
    get_matching_rows Char.isAlpha Char.isLower (signature_trie : Node ℕ)
        (Pattern.class [] [['a']]).render =
      .error ("Invalid signature 'La': last element 'a' is lower case but should be an upper " ++
        "case class name or wildcard") := by
  decide +kernel

end Build

end hiddenapi

end Soong
