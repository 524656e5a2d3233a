import Mathlib
import Soong.Android.Namespace
import Soong.Lib.GoPath
import Soong.Lib.SortSearch

/-!
# Modules in namespaces: registration and lookup

`android/namespace.go`, the part of `NameResolver` that implements blueprint's
`NameInterface`.  Every module of a blueprints file goes through `NewModule`:
a `soong_namespace` module adds a namespace at its directory, any other module
is put in the module container of the namespace of its directory.  The
namespace mutator then runs `FindNamespaceImports` for each namespace module,
which fixes the namespaces a module of that namespace can read: its own, those
it imports, and the root.  Dependencies are resolved by `ModuleFromName`,
either by a fully qualified name `//dir:name`, or by a plain name searched for
through the namespaces the depending module can read, the first one holding
it winning.

A namespace's fields that lookup reads are kept beside the `NameResolver` of
`Soong.Android.Namespace`, by the directory of the namespace: `addNamespace`
gives every namespace a directory of its own.  The module container of a
namespace is blueprint's `SimpleNameInterface`, whose code is not in this
repository: it is a parameter, a `ModuleContainer`, and the results that read
it back assume of it only `ModuleContainer.Lawful`: it refuses a name it holds,
stores a name it accepts, and a `Rename` moves a group onto a free name.

## Main definitions

* `parseFullyQualifiedName`, `dirOfText`.
* `ModuleContainer`, `ModuleContainer.Lawful` — the container a namespace
  keeps its modules in, and what the resolver relies on of it.
* `ModuleResolver`, `NewModuleResolver`, `ModuleResolver.NewModule`,
  `ModuleResolver.FindNamespaceImports`, `ModuleResolver.ModuleFromName`,
  `ModuleResolver.MissingDependencyError`, `ModuleResolver.Rename`.
* `ModuleResolver.step`, `ModuleResolver.run` — interleavings of
  registrations, the namespace mutator, lookups, unique names and renames.
* `ModuleResolver.Inv` — the invariant of every state a run reaches.

## Main results

* `parseFullyQualifiedName_eq_some_iff` — the names read as fully qualified are
  exactly `//dir:name` with no colon in `dir` or `name`.
* `ModuleResolver.Inv.run` — a run keeps the invariant.
* `ModuleResolver.Inv.run_keeps_module` — over a lawful container, a run keeps
  every module where it is but those it renames.
* `ModuleFromName_registered` — every module a run registers, and does not
  rename, is found at the end by the fully qualified name of its namespace.
* `ModuleFromName_qualified` — `//dir:name` reads the namespace `lookupRef`
  gives `dir` once `dir` is in the map, also when only a module was there.
* `ModuleFromName_search` — a plain name is looked up in the namespace of the
  depending module, then in the namespaces of the directories it imports, in
  order, then in the root.
* `step_namespaceMutator` — what the namespace mutator sets, ids included.
* `step_eq_none_iff` — the only panic of a run is a namespace declared after
  the namespaces were read sorted.
* `UniqueName_injective` — modules of numbered namespaces get distinct unique
  names.
-/

namespace Soong

/-! ### Fully qualified names -/

/-- `parseFullyQualifiedName`: the namespace's directory and the module's name
of a name `//namespace_path:module_name`, and `none` for every other name. -/
def parseFullyQualifiedName (name : String) : Option (String × String) :=
  if !strings.HasPrefix name "//" then none
  else
    match strings.Split (strings.TrimPrefix name "//") ':' with
    | [namespaceName, moduleName] => some (namespaceName, moduleName)
    | _ => none

/-- The directory a text names, in the form `NameResolver` keeps directories
in: `.` is the top of the tree, any other text the names between its slashes.
The map of a resolver is keyed by the text of a directory in Go; a text that
is not a clean relative directory gives an empty or a `.` name, which no
directory of a module has. -/
def dirOfText (dir : String) : List String :=
  if dir = "." then [] else strings.Split dir '/'

/-- **The fully qualified names are exactly `//dir:name`**, with no colon in
`dir` or in `name`. -/
theorem parseFullyQualifiedName_eq_some_iff {name dir moduleName : String} :
    parseFullyQualifiedName name = some (dir, moduleName) ↔
      name = "//" ++ dir ++ ":" ++ moduleName ∧ ':' ∉ dir.toList ∧ ':' ∉ moduleName.toList := by
  constructor
  · intro h
    unfold parseFullyQualifiedName at h
    by_cases hpre : strings.HasPrefix name "//" = true
    · rw [hpre] at h
      simp only [Bool.not_true, Bool.false_eq_true, if_false] at h
      obtain ⟨rest, hrest⟩ := (strings.hasPrefix_iff _ _).1 hpre
      have hname : name = "//" ++ String.ofList rest := by
        apply String.ext
        simp [← hrest]
      have htrim : strings.TrimPrefix name "//" = String.ofList rest := by
        rw [strings.TrimPrefix, if_pos hpre, ← hrest]
        simp
      rw [htrim] at h
      split at h
      · rename_i hsplit
        cases h
        -- the text after `//` is its two pieces joined by the colon
        have hjoin := strings.intercalate_Split (String.ofList rest) ':'
        rw [hsplit] at hjoin
        refine ⟨?_, strings.not_mem_of_mem_Split (hsplit ▸ List.mem_cons_self),
          strings.not_mem_of_mem_Split (hsplit ▸ List.mem_cons_of_mem _ List.mem_cons_self)⟩
        rw [hname, ← hjoin]
        simp [String.append_assoc]
      · cases h
    · simp only [Bool.not_eq_true] at hpre
      simp [hpre] at h
  · rintro ⟨rfl, hdir, hname⟩
    have hpre : strings.HasPrefix ("//" ++ dir ++ ":" ++ moduleName) "//" = true := by
      rw [strings.hasPrefix_iff]
      simp
    have htrim : strings.TrimPrefix ("//" ++ dir ++ ":" ++ moduleName) "//" =
        String.intercalate (String.singleton ':') [dir, moduleName] := by
      rw [strings.TrimPrefix, if_pos hpre]
      apply String.ext
      simp
    have hsplit := @strings.Split_intercalate [dir, moduleName] ':'
      (by simp [hdir, hname]) (by simp)
    rw [parseFullyQualifiedName, hpre, htrim, hsplit]
    rfl

/-- The text of a directory of valid names reads back as the directory. -/
theorem dirOfText_pathString {d : List String} (hd : ∀ n ∈ d, ValidName n) :
    dirOfText (pathString d) = d := by
  cases d with
  | nil => rfl
  | cons n ns =>
    have hne : pathString (n :: ns) ≠ "." := by
      intro h
      have h' := congrArg String.toList h
      cases ns with
      | nil => exact (hd n List.mem_cons_self).2.2.1 (by simpa [pathString] using h)
      | cons m ms =>
        -- a first name and a slash are longer than `.`
        have hn : n.toList ≠ [] := by simpa using (hd n List.mem_cons_self).1
        have hlen := congrArg List.length h'
        simp [pathString, String.toList_intercalate] at hlen
        have := List.length_pos_iff.2 hn
        omega
    rw [dirOfText, if_neg hne]
    exact strings.Split_intercalate (fun p hp => (hd p hp).slash_not_mem) (List.cons_ne_nil _ _)

/-- The text of a directory holds a colon only if one of its names does. -/
theorem colon_not_mem_pathString {d : List String} (hd : ∀ n ∈ d, ':' ∉ n.toList) :
    ':' ∉ (pathString d).toList := by
  cases d with
  | nil => simp [pathString]
  | cons n ns =>
    intro hmem
    have hjoin : pathString (n :: ns) = String.intercalate "/" (n :: ns) := rfl
    rw [hjoin, String.toList_intercalate] at hmem
    rcases strings.mem_intercalate_singleton hmem with h | ⟨l, hl, hc⟩
    · cases h
    · obtain ⟨m, hm, rfl⟩ := List.mem_map.1 hl
      exact hd m hm hc

/-! ### What the resolver keeps -/

namespace NameResolver

variable {r r' : NameResolver}

theorem Keeps.ne_none (hk : r.Keeps r') {d : List String} (hd : r.namespaceAt d ≠ none) :
    r'.namespaceAt d ≠ none := by
  obtain ⟨v, hv⟩ := Option.ne_none_iff_exists'.1 hd
  rw [hk d v hv]
  exact Option.some_ne_none v

/-- The namespace of a directory in the map does not change as the map grows:
its entry stays, and both resolvers cache `lookupRef`. -/
theorem lookupRef_of_keeps (h : r.Inv) (h' : r'.Inv) (hk : r.Keeps r') {d : List String}
    (hd : r.namespaceAt d ≠ none) : lookupRef r'.sortedNamespaces d = lookupRef r.sortedNamespaces d := by
  obtain ⟨v, hv⟩ := Option.ne_none_iff_exists'.1 hd
  rw [← h'.cached d v (hk d v hv), ← h.cached d v hv]

/-- A successful `addNamespace` keeps every entry of the map. -/
theorem keeps_of_addNamespace {ns : Namespace} (hadd : r.addNamespace ns = some (.ok r')) :
    r.Keeps r' := by
  obtain ⟨hnone, -, -, hat⟩ := addNamespace_eq_ok hadd
  intro d v hd
  have hdp : d ≠ ns.Path := by
    rintro rfl
    rw [hnone] at hd
    cases hd
  rw [hat, namespaceAt_Store_of_ne _ _ hdp]
  exact hd

/-- A successful `addNamespace` shows the namespace to the root when it is
exported to Kati. -/
theorem addNamespace_visibleNamespaces {ns : Namespace} (hadd : r.addNamespace ns = some (.ok r')) :
    r'.visibleNamespaces = r.visibleNamespaces ++ if ns.exportToKati then [ns] else [] := by
  unfold addNamespace at hadd
  split at hadd
  · split at hadd <;> cases hadd
  · cases hadd
  · cases hadd
    cases hexp : ns.exportToKati <;> simp [Store]

/-- A lookup only adds entries to the map. -/
theorem findNamespace_eq {dir : List String} {found : Option Namespace} (h : r.Inv)
    (hfind : r.findNamespace dir = (found, r')) :
    r'.Inv ∧ r.Keeps r' ∧ found = lookupRef r.sortedNamespaces dir ∧
      ∃ m, r' = { r with namespacesByDir := m } := by
  have hf := findNamespace_spec h dir
  rw [hfind] at hf
  exact ⟨hf.inv, hf.keeps, hf.answer, hf.only_map⟩

end NameResolver

/-! ### Namespaces with their modules -/

/-- A module as `NewModule` tells them apart: a `soong_namespace` module, with
the names of the namespaces it imports, a `NamelessModule`, or any other
module, with its name and its group. -/
inductive ModuleKind (G : Type)
  | soongNamespace (imports : List String)
  | nameless
  | module (name : String) (group : G)

/-- The errors of `NewModule`: the error of `addNewNamespaceForModule`, or the
errors of the container's own `NewModule`. -/
inductive NewModuleError (E : Type)
  | namespaceError (err : String)
  | containerError (errs : E)

/-- The module container of a namespace, blueprint's `NameInterface` as
`blueprint.NewSimpleNameInterface` makes it, whose code is not in this
repository: a type of containers `C` of module groups `G`, with the
operations `NameResolver` calls, which report errors of type `E`. -/
structure ModuleContainer (C G E : Type) where
  empty : C
  newModule : C → String → G → Except E C
  moduleFromName : C → String → Option G
  rename : C → String → String → Except E C

/-- What `NameResolver` may rely on of a container: `NewModule` refuses a name
it holds, and stores the group under a name it accepts; a `Rename` that
succeeds moves the group of the old name to the new one, which was free. -/
structure ModuleContainer.Lawful {C G E : Type} (mc : ModuleContainer C G E) : Prop where
  newModule_held : ∀ c name g, (mc.moduleFromName c name).isSome →
    ∃ errs, mc.newModule c name g = .error errs
  moduleFromName_newModule : ∀ c name g c', mc.newModule c name g = .ok c' →
    ∀ m, mc.moduleFromName c' m = if m = name then some g else mc.moduleFromName c m
  rename_ok : ∀ c oldName newName c', mc.rename c oldName newName = .ok c' →
    mc.moduleFromName c newName = none ∧ ∃ g, mc.moduleFromName c oldName = some g ∧
      ∀ m, mc.moduleFromName c' m =
        if m = newName then some g else if m = oldName then none else mc.moduleFromName c m

namespace ModuleContainer.Lawful

variable {C G E : Type} {mc : ModuleContainer C G E} (hmc : mc.Lawful) {c c' : C} {name : String}
  {g : G}
include hmc

/-- A name a container holds keeps its group through every name it accepts. -/
theorem moduleFromName_of_newModule {name' : String} {g' : G} (hnew : mc.newModule c name' g' = .ok c')
    (hheld : mc.moduleFromName c name = some g) : mc.moduleFromName c' name = some g := by
  rw [hmc.moduleFromName_newModule c name' g' c' hnew]
  split_ifs with hname
  · -- the container refuses a name it holds
    subst hname
    obtain ⟨errs, herr⟩ := hmc.newModule_held c name g' (by simp [hheld])
    rw [herr] at hnew
    cases hnew
  · exact hheld

/-- A name a container holds keeps its group through every rename of another
name. -/
theorem moduleFromName_of_rename {oldName newName : String}
    (hren : mc.rename c oldName newName = .ok c') (hold : oldName ≠ name)
    (hheld : mc.moduleFromName c name = some g) : mc.moduleFromName c' name = some g := by
  obtain ⟨hfree, g', -, hlook⟩ := hmc.rename_ok c oldName newName c' hren
  -- the new name was free, so it is not the name held
  have hnew : name ≠ newName := by
    rintro rfl
    rw [hfree] at hheld
    cases hheld
  rw [hlook, if_neg hnew, if_neg (Ne.symm hold)]
  exact hheld

end ModuleContainer.Lawful

/-- A container that keeps its groups in a map from names, refuses a name it
holds, and renames onto a free name only: how blueprint's `SimpleNameInterface`
keeps them, and the container the examples below run on. -/
def mapContainer (G : Type) : ModuleContainer (List (String × G)) G Unit where
  empty := []
  newModule c name g := if (GoMap.get? c name).isSome then .error () else .ok (GoMap.set c name g)
  moduleFromName c name := GoMap.get? c name
  rename c oldName newName :=
    match GoMap.get? c newName, GoMap.get? c oldName with
    | none, some g => .ok (GoMap.set (GoMap.delete c oldName) newName g)
    | _, _ => .error ()

theorem mapContainer_lawful (G : Type) : (mapContainer G).Lawful where
  newModule_held c name g hheld := by
    simp only [mapContainer] at hheld ⊢
    exact ⟨(), if_pos hheld⟩
  moduleFromName_newModule c name g c' hnew m := by
    simp only [mapContainer, Option.isSome_iff_ne_none, ne_eq, ite_not] at hnew ⊢
    split_ifs at hnew with hnone
    cases hnew
    by_cases hm : m = name
    · subst hm
      simp [GoMap.get?_set_self]
    · rw [GoMap.get?_set_of_ne _ _ hm, if_neg hm]
  rename_ok c oldName newName c' hren := by
    simp only [mapContainer] at hren ⊢
    cases hnew : GoMap.get? c newName with
    | some _ => simp [hnew] at hren
    | none =>
      cases hold : GoMap.get? c oldName with
      | none => simp [hnew, hold] at hren
      | some g =>
        simp only [hnew, hold, Except.ok.injEq] at hren
        subst hren
        refine ⟨rfl, g, rfl, fun m => ?_⟩
        by_cases hmn : m = newName
        · subst hmn
          simp [GoMap.get?_set_self]
        rw [GoMap.get?_set_of_ne _ _ hmn, if_neg hmn]
        by_cases hmo : m = oldName
        · subst hmo
          simp [GoMap.get?_delete_self]
        · rw [GoMap.get?_delete_of_ne _ hmo, if_neg hmo]

/-- The fields of a `Namespace` that registration and lookup read: the names its
`soong_namespace` module imports, the namespaces `FindNamespaceImports` made
visible to it (nil before), its module container, and the id `chooseId` gives
it (empty before). -/
structure NamespaceFields (C : Type) where
  importedNamespaceNames : List String
  visibleNamespaces : Option (List Namespace)
  moduleContainer : C
  id : String

/-- The fields of a new namespace, with the empty container `NewNamespace`
makes. -/
def NamespaceFields.new {C : Type} (empty : C) (imports : List String) : NamespaceFields C :=
  ⟨imports, none, empty, ""⟩

/-- A `NameResolver` with the fields of its namespaces, by directory, the flag
of `sortedNamespaces` that says the namespaces have been read sorted, after
which adding one panics, and the module containers in use. -/
structure ModuleResolver (C G E : Type) where
  resolver : NameResolver
  fields : List (List String × NamespaceFields C)
  sorted : Bool
  container : ModuleContainer C G E

/-- `NewNameResolver`, the root namespace with an empty container. -/
def NewModuleResolver {C G E : Type} (container : ModuleContainer C G E)
    (namespaceExportFilter : Namespace → Bool) : ModuleResolver C G E :=
  ⟨NewNameResolver namespaceExportFilter, [([], NamespaceFields.new container.empty [])], false,
    container⟩

namespace ModuleResolver

variable {C G E : Type} (s : ModuleResolver C G E)

/-- The fields of a namespace, read at its directory. -/
def fieldsOf (ns : Namespace) : NamespaceFields C :=
  GoMap.getD s.fields ns.Path (NamespaceFields.new s.container.empty [])

/-- `moduleContainer` of a namespace. -/
def containerOf (ns : Namespace) : C := (s.fieldsOf ns).moduleContainer

/-- Write the fields of a namespace, as Go writes them through the pointer
that every lookup of the namespace shares. -/
def modifyFields (ns : Namespace) (f : NamespaceFields C → NamespaceFields C) : ModuleResolver C G E :=
  { s with fields := GoMap.set s.fields ns.Path (f (s.fieldsOf ns)) }

/-- Write the container of a namespace. -/
def setContainer (ns : Namespace) (container : C) : ModuleResolver C G E :=
  s.modifyFields ns fun fs => { fs with moduleContainer := container }

/-- Write `visibleNamespaces` of a namespace. -/
def setVisible (ns : Namespace) (visible : List Namespace) : ModuleResolver C G E :=
  s.modifyFields ns fun fs => { fs with visibleNamespaces := some visible }

/-- Write the id of a namespace. -/
def setId (ns : Namespace) (id : String) : ModuleResolver C G E :=
  s.modifyFields ns fun fs => { fs with id := id }

/-- `sortedNamespaces.sortedItems`: the namespaces in the order of their
directories' texts. -/
def sortedItems : List Namespace :=
  sort.Slice s.resolver.sortedNamespaces fun a b => decide (pathString a.Path < pathString b.Path)

/-- `sortedNamespaces.index`: the position of a namespace in `sortedItems`, or
`-1`; the loop reads the namespaces sorted. -/
def index (ns : Namespace) : ℤ × ModuleResolver C G E :=
  (match s.sortedItems.findIdx? fun candidate => decide (ns = candidate) with
    | some i => i
    | none => -1, { s with sorted := true })

/-- `chooseId`: the position of the namespace in `sortedItems` is its id.
`none` is the panic on a namespace that was not added. -/
def chooseId (ns : Namespace) : Option (ModuleResolver C G E) :=
  let (id, s) := s.index ns
  if id < 0 then none else some (s.setId ns (strconv.Itoa id))

/-- `visibleNamespaces` of a namespace.  The root's are the resolver's own
list, which `addNamespace` grows by every namespace exported to Kati. -/
def visibleOf (ns : Namespace) : Option (List Namespace) :=
  if ns.Path = s.resolver.rootNamespace.Path then some s.resolver.visibleNamespaces
  else (s.fieldsOf ns).visibleNamespaces

/-- `getNamespacesToSearchForModule`: the namespaces visible to the namespace
of the depending module, or, for a module of no namespace or of one whose
imports are not resolved yet, every namespace, read sorted. -/
def getNamespacesToSearchForModule (source : Option Namespace) :
    List Namespace × ModuleResolver C G E :=
  match source.bind s.visibleOf with
  | some visible => (visible, s)
  | none => (s.sortedItems, { s with sorted := true })

/-- `ModuleFromName`: a fully qualified name is looked up in the container of
the namespace at its directory, a plain name in the containers of the
namespaces to search, the first holding it winning.  `none` is the panic on a
nil entry of the map. -/
def ModuleFromName (name : String) (fromNamespace : Option Namespace) :
    Option (Option G × ModuleResolver C G E) :=
  match parseFullyQualifiedName name with
  | some (nsName, moduleName) =>
    match s.resolver.namespaceAt (dirOfText nsName) with
    | none => some (none, s)
    | some none => none
    | some (some ns) => some (s.container.moduleFromName (s.containerOf ns) moduleName, s)
  | none =>
    let (candidates, s) := s.getNamespacesToSearchForModule fromNamespace
    some (candidates.findSome? fun candidate => s.container.moduleFromName (s.containerOf candidate) name,
      s)

/-- The error of `FindNamespaceImports` for an import at no directory of the
map. -/
def importError (name : String) : String :=
  "namespace " ++ name ++ " does not exist"

/-- The loop of `FindNamespaceImports` over the imported names: the namespace
of each appended to the visible ones, up to the first name at no directory of
the map, with its error.  `none` is a nil entry of the map, which Go appends
and panics on at the first lookup through it (the invariant rules it out). -/
def importsLoop (r : NameResolver) : List Namespace → List String → Option (List Namespace × Option String)
  | visible, [] => some (visible, none)
  | visible, name :: names =>
    match r.namespaceAt (dirOfText name) with
    | none => some (visible, some (importError name))
    | some none => none
    | some (some imp) => importsLoop r (visible ++ [imp]) names

/-- `FindNamespaceImports`: the namespace itself, then those it imports, then
the root; an error stops the loop, leaving the namespaces found so far. -/
def FindNamespaceImports (ns : Namespace) : Option (Option String × ModuleResolver C G E) :=
  (importsLoop s.resolver [ns] (s.fieldsOf ns).importedNamespaceNames).map fun (visible, err) =>
    match err with
    | some err => (some err, s.setVisible ns visible)
    | none => (none, s.setVisible ns (visible ++ [s.resolver.rootNamespace]))

/-- `NewModule`.  A `soong_namespace` module adds a namespace at the directory
of its file (`addNewNamespaceForModule`); a `NamelessModule` goes nowhere; any
other module goes into the container of the namespace of its directory, which
it returns.  A module path
is given as its directory and its file name, as `filepath.Dir` and
`filepath.Base` cut it.  `none` is a panic: a nil namespace, or a namespace
added after the namespaces were read sorted. -/
def NewModule (dir : List String) (fileName : String) :
    ModuleKind G → Option (Except (NewModuleError E) (Option Namespace) × ModuleResolver C G E)
  | .soongNamespace imports =>
    if fileName ≠ "Android.bp" then
      some (.error (.namespaceError "A namespace may only be declared in a file named Android.bp"), s)
    else
      match s.resolver.addNamespace (s.resolver.newNamespace dir) with
      | none => none
      | some (.error err) => some (.error (.namespaceError err), s)
      | some (.ok r) =>
        if s.sorted then none
        else
          let fields := GoMap.set s.fields dir (NamespaceFields.new s.container.empty imports)
          some (.ok none, { s with resolver := r, fields := fields })
  -- a nameless module is never looked up by name, and goes in no namespace
  | .nameless => some (.ok none, s)
  | .module name group =>
    match s.resolver.findNamespace dir with
    | (none, _) => none
    | (some ns, r) =>
      let s : ModuleResolver C G E := { s with resolver := r }
      match s.container.newModule (s.containerOf ns) name group with
      | .error errs => some (.error (.containerError errs), s)
      | .ok c => some (.ok (some ns), s.setContainer ns c)

/-- `Rename`: the container of the renamed module's namespace renames it,
and gives its errors. -/
def Rename (oldName newName : String) (ns : Namespace) : Option E × ModuleResolver C G E :=
  match s.container.rename (s.containerOf ns) oldName newName with
  | .error errs => (some errs, s)
  | .ok c => (none, s.setContainer ns c)

/-- `%q` of a list of strings. -/
def quoteList (l : List String) : String :=
  "[" ++ " ".intercalate (l.map strconv.Quote) ++ "]"

/-- The directories of the namespaces whose containers hold a name, in the
order of `sortedItems`. -/
def foundInNamespaces (depName : String) : List String :=
  (s.sortedItems.filter fun ns => (s.container.moduleFromName (s.containerOf ns) depName).isSome).map
    fun ns => pathString ns.Path

/-- `MissingDependencyError`: the error for a dependency `ModuleFromName` did
not find.  For a plain name held by some namespace it adds the namespaces the
depending module can read and those holding the name. -/
def MissingDependencyError (depender : String) (dependerNamespace : Namespace)
    (depName : String) : String × ModuleResolver C G E :=
  let text := strconv.Quote depender ++ " depends on undefined module " ++ strconv.Quote depName
  if (parseFullyQualifiedName depName).isSome then (text, s)
  else
    -- the loop over `sortedItems` marks the namespaces read sorted
    let s : ModuleResolver C G E := { s with sorted := true }
    let foundIn := s.foundInNamespaces depName
    if foundIn = [] then (text, s)
    else
      let (searched, s) := s.getNamespacesToSearchForModule (some dependerNamespace)
      let importedNames := searched.map fun ns => pathString ns.Path
      (text ++ "\nModule " ++ strconv.Quote depender ++ " is defined in namespace " ++
        strconv.Quote (pathString dependerNamespace.Path) ++ " which can read these " ++
        toString importedNames.length ++ " namespaces: " ++ quoteList importedNames ++
        "\nModule " ++ strconv.Quote depName ++ " can be found in these namespaces: " ++
        quoteList foundIn, s)

/-- `UniqueName`: the name of a module of a directory after the id of the
namespace of the directory and a `-`, when the id is set.  `none` is the panic
on a nil namespace. -/
def UniqueName (dir : List String) (name : String) : Option (String × ModuleResolver C G E) :=
  match s.resolver.findNamespace dir with
  | (none, _) => none
  | (some ns, r) =>
    let pfx := (s.fieldsOf ns).id
    some ((if pfx ≠ "" then pfx ++ "-" else pfx) ++ name, { s with resolver := r })

/-! ### Runs -/

/-- An operation of a run: `NewModule` of a module of a directory and file,
`namespaceMutator` on the `soong_namespace` module of a directory, the lookup
of a name for a module of a namespace (or of none), `UniqueName` of a module
of a directory, `MissingDependencyError`, or `Rename` of a module of a
namespace. -/
inductive Op (G : Type)
  | newModule (dir : List String) (fileName : String) (m : ModuleKind G)
  | namespaceMutator (dir : List String)
  | moduleFromName (name : String) (fromNamespace : Option Namespace)
  | uniqueName (dir : List String) (name : String)
  | missingDependencyError (depender : String) (dependerNamespace : Namespace) (depName : String)
  | rename (oldName newName : String) (ns : Namespace)

/-- What an operation gives back. -/
inductive Result (G E : Type)
  | registered (res : Except (NewModuleError E) (Option Namespace))
  | imported (err : Option String)
  | notAdded
  | found (group : Option G)
  | unique (name : String)
  | error (text : String)
  | renamed (errs : Option E)

/-- One operation; `none` is a panic.  The namespace mutator runs on the
namespace a `soong_namespace` module added at its directory, which is never
the root's: a namespace module whose namespace was not added made `NewModule`
fail, and blueprint stops before the mutators on such an error; the model
leaves the state as it is.  The mutator reports the error of
`FindNamespaceImports` and chooses the namespace's id either way.  A module
is renamed in the namespace `NewModule` gave it, one added. -/
def step : Op G → Option (Result G E × ModuleResolver C G E)
  | .newModule dir fileName m =>
    (s.NewModule dir fileName m).map fun (res, s') => (.registered res, s')
  | .namespaceMutator dir =>
    match s.resolver.namespaceAt dir with
    | some (some ns) =>
      if ns.Path = dir ∧ dir ≠ [] then
        (s.FindNamespaceImports ns).bind fun (err, s') =>
          (s'.chooseId ns).map fun s'' => (.imported err, s'')
      else some (.notAdded, s)
    | _ => some (.notAdded, s)
  | .moduleFromName name fromNamespace =>
    (s.ModuleFromName name fromNamespace).map fun (group, s') => (.found group, s')
  | .uniqueName dir name => (s.UniqueName dir name).map fun (u, s') => (.unique u, s')
  | .missingDependencyError depender dependerNamespace depName =>
    let (text, s') := s.MissingDependencyError depender dependerNamespace depName
    some (.error text, s')
  | .rename oldName newName ns =>
    if s.resolver.namespaceAt ns.Path = some (some ns) then
      let (errs, s') := s.Rename oldName newName ns
      some (.renamed errs, s')
    else some (.notAdded, s)

/-- A run of operations, with what each gave back. -/
def run : ModuleResolver C G E → List (Op G) → Option (List (Result G E) × ModuleResolver C G E)
  | s, [] => some ([], s)
  | s, op :: ops =>
    (s.step op).bind fun (res, s) => (run s ops).map fun (results, s) => (res :: results, s)

/-! ### The fields of namespaces under writes -/

section Writes

variable (ns : Namespace) (f : NamespaceFields C → NamespaceFields C)

@[simp] theorem resolver_modifyFields : (s.modifyFields ns f).resolver = s.resolver := rfl

@[simp] theorem sortedItems_modifyFields : (s.modifyFields ns f).sortedItems = s.sortedItems := rfl

theorem fieldsOf_modifyFields (ns' : Namespace) :
    (s.modifyFields ns f).fieldsOf ns' =
      if ns'.Path = ns.Path then f (s.fieldsOf ns') else s.fieldsOf ns' := by
  by_cases h : ns'.Path = ns.Path
  · simp [fieldsOf, modifyFields, h]
  · simp [fieldsOf, modifyFields, GoMap.getD_set_of_ne _ _ _ h, h]

/-- **The frame of a write**: a field the write leaves alone reads the same at
every namespace. -/
theorem fieldsOf_modifyFields_frame {β : Type} (proj : NamespaceFields C → β)
    (hf : ∀ fs, proj (f fs) = proj fs) (ns' : Namespace) :
    proj ((s.modifyFields ns f).fieldsOf ns') = proj (s.fieldsOf ns') := by
  rw [fieldsOf_modifyFields]
  split
  · exact hf _
  · rfl

/-- A write leaves fields only at the directories of the map, when the
namespace written is one added. -/
theorem fields_mapped_modifyFields {r : NameResolver} (hr : r.Inv)
    (hmapped : ∀ d ∈ GoMap.keys s.fields, r.namespaceAt d ≠ none) (hns : ns ∈ r.sortedNamespaces) :
    ∀ d ∈ GoMap.keys (s.modifyFields ns f).fields, r.namespaceAt d ≠ none := by
  intro d hd
  rcases GoMap.mem_keys_set hd with hd | rfl
  · exact hmapped d hd
  · rw [hr.registered ns hns]
    exact Option.some_ne_none _

end Writes

@[simp] theorem containerOf_setVisible (ns : Namespace) (v : List Namespace) (ns' : Namespace) :
    (s.setVisible ns v).containerOf ns' = s.containerOf ns' :=
  s.fieldsOf_modifyFields_frame ns _ NamespaceFields.moduleContainer (fun _ => by rfl) ns'

@[simp] theorem containerOf_setId (ns : Namespace) (id : String) (ns' : Namespace) :
    (s.setId ns id).containerOf ns' = s.containerOf ns' :=
  s.fieldsOf_modifyFields_frame ns _ NamespaceFields.moduleContainer (fun _ => by rfl) ns'

theorem fieldsOf_setVisible (ns : Namespace) (v : List Namespace) (ns' : Namespace) :
    (s.setVisible ns v).fieldsOf ns' =
      if ns'.Path = ns.Path then { s.fieldsOf ns' with visibleNamespaces := some v }
      else s.fieldsOf ns' :=
  s.fieldsOf_modifyFields ns _ ns'

/-! ### The invariant -/

/-- Whether a text names a directory in the map. -/
def inMap (r : NameResolver) (t : String) : Bool := (r.namespaceAt (dirOfText t)).isSome

/-- The namespace of the directory a text names. -/
def namespaceOfText (r : NameResolver) (t : String) : Option Namespace :=
  lookupRef r.sortedNamespaces (dirOfText t)

/-- What `FindNamespaceImports` leaves as the visible namespaces of `ns`, whose
`soong_namespace` module imports `imports`: the namespace itself, then the
namespaces of the directories of the first `k` imports, each in the map, and
the root when these are all the imports. -/
def Resolved (r : NameResolver) (ns : Namespace) (imports : List String)
    (visible : List Namespace) : Prop :=
  ∃ k ≤ imports.length, (∀ t ∈ imports.take k, inMap r t = true) ∧
    visible = ns :: (imports.take k).filterMap (namespaceOfText r) ++
      (if k = imports.length then [r.rootNamespace] else [])

/-- The id of a namespace is empty, or, once the namespaces were read sorted,
the text of its position in `sortedItems`. -/
def IdPosition (ns : Namespace) : Prop :=
  (s.fieldsOf ns).id = "" ∨
    s.sorted = true ∧ ∃ i : ℕ, s.sortedItems[i]? = some ns ∧ (s.fieldsOf ns).id = strconv.Itoa i

/-- The invariant of a module resolver: the resolver's own; the root sees
itself, then every namespace added that is exported to Kati; fields stand only
at directories in the map, so that a namespace added later starts with an
empty container; the visible namespaces of a namespace are the ones its
imports resolved to; and the id of a namespace is its position, the root's
empty. -/
structure Inv : Prop where
  resolver : s.resolver.Inv
  root_visible : s.resolver.visibleNamespaces =
    s.resolver.rootNamespace :: s.resolver.sortedNamespaces.filter (·.exportToKati)
  fields_mapped : ∀ d ∈ GoMap.keys s.fields, s.resolver.namespaceAt d ≠ none
  visible : ∀ ns ∈ s.resolver.sortedNamespaces, ∀ vis, (s.fieldsOf ns).visibleNamespaces = some vis →
    Resolved s.resolver ns (s.fieldsOf ns).importedNamespaceNames vis
  ids : ∀ ns ∈ s.resolver.sortedNamespaces, s.IdPosition ns
  root_id : (s.fieldsOf s.resolver.rootNamespace).id = ""

/-- What a later state keeps of an earlier one: the entries of the map, the
namespaces added and the root, the imports of every namespace, and the
containers in use.  (A `Rename` moves modules, so the modules are not kept.) -/
structure Keeps (s s' : ModuleResolver C G E) : Prop where
  resolver : s.resolver.Keeps s'.resolver
  sorted : s.resolver.sortedNamespaces <+: s'.resolver.sortedNamespaces
  root : s'.resolver.rootNamespace = s.resolver.rootNamespace
  imports : ∀ ns ∈ s.resolver.sortedNamespaces,
    (s'.fieldsOf ns).importedNamespaceNames = (s.fieldsOf ns).importedNamespaceNames
  container : s'.container = s.container

theorem Keeps.refl : Keeps s s :=
  ⟨fun _ _ hd => hd, List.prefix_refl _, rfl, fun _ _ => rfl, rfl⟩

theorem Keeps.trans {s₁ s₂ s₃ : ModuleResolver C G E} (h₁ : Keeps s₁ s₂) (h₂ : Keeps s₂ s₃) :
    Keeps s₁ s₃ where
  resolver := h₁.resolver.trans h₂.resolver
  sorted := h₁.sorted.trans h₂.sorted
  root := h₂.root.trans h₁.root
  imports ns hns := (h₂.imports ns (h₁.sorted.subset hns)).trans (h₁.imports ns hns)
  container := h₂.container.trans h₁.container

/-- A text in the map stays in it, naming the same namespace. -/
theorem inMap_of_keeps {r r' : NameResolver} (hk : r.Keeps r') {t : String} (ht : inMap r t = true) :
    inMap r' t = true := by
  rw [inMap, Option.isSome_iff_ne_none] at ht ⊢
  exact hk.ne_none ht

/-- Imports once resolved stay resolved to the same namespaces. -/
theorem Resolved.of_keeps {r r' : NameResolver} (h : r.Inv) (h' : r'.Inv) (hk : r.Keeps r')
    (hroot : r'.rootNamespace = r.rootNamespace) {ns : Namespace} {imports : List String}
    {visible : List Namespace} (hres : Resolved r ns imports visible) :
    Resolved r' ns imports visible := by
  obtain ⟨k, hk_le, hin, rfl⟩ := hres
  refine ⟨k, hk_le, fun t ht => inMap_of_keeps hk (hin t ht), ?_⟩
  have hsame : ∀ t ∈ imports.take k, namespaceOfText r' t = namespaceOfText r t := fun t ht =>
    NameResolver.lookupRef_of_keeps h h' hk (Option.isSome_iff_ne_none.1 (hin t ht))
  rw [hroot, List.filterMap_congr hsame]

end ModuleResolver

namespace ModuleResolver

variable {C G E : Type} {s s' : ModuleResolver C G E}

/-! ### Each operation keeps the invariant -/

/-- The fields of a namespace are those at its directory. -/
theorem fieldsOf_congr (s : ModuleResolver C G E) {ns ns' : Namespace} (h : ns'.Path = ns.Path) :
    s.fieldsOf ns' = s.fieldsOf ns := by
  simp [fieldsOf, h]

theorem containerOf_congr (s : ModuleResolver C G E) {ns ns' : Namespace} (h : ns'.Path = ns.Path) :
    s.containerOf ns' = s.containerOf ns := by
  rw [containerOf, containerOf, s.fieldsOf_congr h]

/-- An id stays where it is when the id, `sortedItems` and a set sorted flag
do. -/
theorem IdPosition.mono {ns : Namespace} (h : s.IdPosition ns)
    (hid : (s'.fieldsOf ns).id = (s.fieldsOf ns).id) (hitems : s'.sortedItems = s.sortedItems)
    (hsorted : s.sorted = true → s'.sorted = true) : s'.IdPosition ns := by
  rcases h with h | ⟨hs, i, hi, hid'⟩
  · exact .inl (hid.trans h)
  · exact .inr ⟨hsorted hs, i, hitems ▸ hi, hid.trans hid'⟩

/-- Reading the namespaces sorted keeps the invariant. -/
theorem Inv.withSorted (h : s.Inv) : ({ s with sorted := true } : ModuleResolver C G E).Inv :=
  ⟨h.resolver, h.root_visible, h.fields_mapped, h.visible,
    fun ns hns => (h.ids ns hns).mono rfl rfl fun _ => rfl, h.root_id⟩

@[simp] theorem containerOf_withSorted (b : Bool) (ns : Namespace) :
    ({ s with sorted := b } : ModuleResolver C G E).containerOf ns = s.containerOf ns := rfl

theorem keeps_withSorted : s.Keeps { s with sorted := true } :=
  ⟨fun _ _ hd => hd, List.prefix_refl _, rfl, fun _ _ => rfl, rfl⟩

theorem containerOf_setContainer (s : ModuleResolver C G E) (ns : Namespace) (c : C)
    (ns' : Namespace) :
    (s.setContainer ns c).containerOf ns' = if ns'.Path = ns.Path then c else s.containerOf ns' := by
  rw [containerOf, setContainer, fieldsOf_modifyFields]
  split <;> rfl

@[simp] theorem visibleNamespaces_fieldsOf_setContainer (s : ModuleResolver C G E) (ns : Namespace)
    (c : C) (ns' : Namespace) :
    ((s.setContainer ns c).fieldsOf ns').visibleNamespaces = (s.fieldsOf ns').visibleNamespaces :=
  s.fieldsOf_modifyFields_frame ns _ NamespaceFields.visibleNamespaces (fun _ => by rfl) ns'

@[simp] theorem visibleNamespaces_fieldsOf_setId (s : ModuleResolver C G E) (ns : Namespace)
    (id : String) (ns' : Namespace) :
    ((s.setId ns id).fieldsOf ns').visibleNamespaces = (s.fieldsOf ns').visibleNamespaces :=
  s.fieldsOf_modifyFields_frame ns _ NamespaceFields.visibleNamespaces (fun _ => by rfl) ns'

@[simp] theorem importedNamespaceNames_fieldsOf_setContainer (s : ModuleResolver C G E) (ns : Namespace)
    (c : C) (ns' : Namespace) :
    ((s.setContainer ns c).fieldsOf ns').importedNamespaceNames =
      (s.fieldsOf ns').importedNamespaceNames :=
  s.fieldsOf_modifyFields_frame ns _ NamespaceFields.importedNamespaceNames (fun _ => by rfl) ns'

@[simp] theorem importedNamespaceNames_fieldsOf_setVisible (s : ModuleResolver C G E) (ns : Namespace)
    (v : List Namespace) (ns' : Namespace) :
    ((s.setVisible ns v).fieldsOf ns').importedNamespaceNames =
      (s.fieldsOf ns').importedNamespaceNames :=
  s.fieldsOf_modifyFields_frame ns _ NamespaceFields.importedNamespaceNames (fun _ => by rfl) ns'

@[simp] theorem importedNamespaceNames_fieldsOf_setId (s : ModuleResolver C G E) (ns : Namespace)
    (id : String) (ns' : Namespace) :
    ((s.setId ns id).fieldsOf ns').importedNamespaceNames =
      (s.fieldsOf ns').importedNamespaceNames :=
  s.fieldsOf_modifyFields_frame ns _ NamespaceFields.importedNamespaceNames (fun _ => by rfl) ns'

@[simp] theorem id_fieldsOf_setContainer (s : ModuleResolver C G E) (ns : Namespace)
    (c : C) (ns' : Namespace) :
    ((s.setContainer ns c).fieldsOf ns').id = (s.fieldsOf ns').id :=
  s.fieldsOf_modifyFields_frame ns _ NamespaceFields.id (fun _ => by rfl) ns'

@[simp] theorem id_fieldsOf_setVisible (s : ModuleResolver C G E) (ns : Namespace)
    (v : List Namespace) (ns' : Namespace) :
    ((s.setVisible ns v).fieldsOf ns').id = (s.fieldsOf ns').id :=
  s.fieldsOf_modifyFields_frame ns _ NamespaceFields.id (fun _ => by rfl) ns'

/-- The lookup of a directory's namespace only adds entries to the map, so the
state with the grown map keeps the invariant and everything of the state. -/
theorem Inv.withFound (h : s.Inv) {dir : List String} {found : Option Namespace} {r : NameResolver}
    (hfind : s.resolver.findNamespace dir = (found, r)) :
    ({ s with resolver := r } : ModuleResolver C G E).Inv ∧ s.Keeps { s with resolver := r } := by
  obtain ⟨hinv, hk, -, m, rfl⟩ := NameResolver.findNamespace_eq h.resolver hfind
  refine ⟨⟨hinv, h.root_visible, fun d hd => hk.ne_none (h.fields_mapped d hd),
    fun ns hns vis hvis => (h.visible ns hns vis hvis).of_keeps h.resolver hinv hk rfl, h.ids,
    h.root_id⟩, ⟨hk, List.prefix_refl _, rfl, fun _ _ => rfl, rfl⟩⟩

/-- Writing the container of a namespace added keeps the invariant. -/
theorem Inv.setContainer (h : s.Inv) {ns : Namespace} (hns : ns ∈ s.resolver.sortedNamespaces)
    (c : C) : (s.setContainer ns c).Inv where
  resolver := h.resolver
  root_visible := h.root_visible
  fields_mapped := s.fields_mapped_modifyFields ns _ h.resolver h.fields_mapped hns
  visible ns' hns' vis hvis := by
    rw [visibleNamespaces_fieldsOf_setContainer] at hvis
    rw [importedNamespaceNames_fieldsOf_setContainer]
    exact h.visible ns' hns' vis hvis
  ids ns' hns' := (h.ids ns' hns').mono (id_fieldsOf_setContainer _ _ _ _) rfl id
  root_id := (id_fieldsOf_setContainer _ _ _ _).trans h.root_id

theorem keeps_setContainer (ns : Namespace) (c : C) : s.Keeps (s.setContainer ns c) :=
  ⟨fun _ _ hd => hd, List.prefix_refl _, rfl, fun _ _ => by simp, rfl⟩

theorem keeps_setVisible (ns : Namespace) (v : List Namespace) : s.Keeps (s.setVisible ns v) :=
  ⟨fun _ _ hd => hd, List.prefix_refl _, rfl, fun _ _ => by simp, rfl⟩

@[simp] theorem containerOf_withResolver (r : NameResolver) (ns : Namespace) :
    ({ s with resolver := r } : ModuleResolver C G E).containerOf ns = s.containerOf ns := rfl

/-- What `NewModule` of a `soong_namespace` module does: nothing, or adds the
namespace with its fields. -/
theorem NewModule_soongNamespace_eq {dir : List String} {fileName : String} {imports : List String}
    {res : Except (NewModuleError E) (Option Namespace)}
    (hnew : s.NewModule dir fileName (.soongNamespace imports) = some (res, s')) :
    s' = s ∨ ∃ r, s.resolver.addNamespace (s.resolver.newNamespace dir) = some (.ok r) ∧
      s.sorted = false ∧
        s' = { s with
          resolver := r
          fields := GoMap.set s.fields dir (NamespaceFields.new s.container.empty imports) } := by
  by_cases hf : fileName = "Android.bp"
  · cases hadd : s.resolver.addNamespace (s.resolver.newNamespace dir) with
    | none => simp [NewModule, hf, hadd] at hnew
    | some e =>
      cases e with
      | error err =>
        simp [NewModule, hf, hadd] at hnew
        exact .inl hnew.2.symm
      | ok r =>
        cases hs : s.sorted
        · simp [NewModule, hf, hadd, hs] at hnew
          exact .inr ⟨r, rfl, rfl, hnew.2.symm⟩
        · simp [NewModule, hf, hadd, hs] at hnew
  · simp [NewModule, hf] at hnew
    exact .inl hnew.2.symm

/-- What `NewModule` of any other module does: it finds the namespace of the
directory, then either reports the name its container holds already or adds
the module to it. -/
theorem NewModule_module_eq {dir : List String} {fileName name : String} {g : G}
    {res : Except (NewModuleError E) (Option Namespace)}
    (hnew : s.NewModule dir fileName (.module name g) = some (res, s')) :
    ∃ ns r, s.resolver.findNamespace dir = (some ns, r) ∧
      ((∃ errs, s.container.newModule (s.containerOf ns) name g = .error errs ∧
          res = .error (.containerError errs) ∧ s' = { s with resolver := r }) ∨
        (∃ c, s.container.newModule (s.containerOf ns) name g = .ok c ∧ res = .ok (some ns) ∧
          s' = ({ s with resolver := r } : ModuleResolver C G E).setContainer ns c)) := by
  cases hfind : s.resolver.findNamespace dir with
  | mk found r =>
    cases found with
    | none => simp [NewModule, hfind] at hnew
    | some ns =>
      refine ⟨ns, r, rfl, ?_⟩
      cases hc : s.container.newModule (s.containerOf ns) name g with
      | error errs =>
        simp [NewModule, hfind, hc] at hnew
        exact .inl ⟨errs, rfl, hnew.1.symm, hnew.2.symm⟩
      | ok c =>
        simp [NewModule, hfind, hc] at hnew
        exact .inr ⟨c, rfl, hnew.1.symm, hnew.2.symm⟩

/-- Adding a `soong_namespace` keeps the invariant: its directory was out of
the map, so no fields stood there, and the root sees the new namespace when it
is exported. -/
theorem Inv.NewModule_soongNamespace (h : s.Inv) {dir : List String} {fileName : String}
    {imports : List String} {res : Except (NewModuleError E) (Option Namespace)}
    (hnew : s.NewModule dir fileName (.soongNamespace imports) = some (res, s')) :
    s'.Inv ∧ s.Keeps s' := by
  rcases NewModule_soongNamespace_eq hnew with rfl | ⟨r, hadd, hs, rfl⟩
  · exact ⟨h, Keeps.refl _⟩
  obtain ⟨hnone, hsorted, hroot, -⟩ := NameResolver.addNamespace_eq_ok hadd
  have hinv := h.resolver.addNamespace hadd
  have hk := NameResolver.keeps_of_addNamespace hadd
  -- no namespace added before is at `dir`, so their fields stay
  have hold : ∀ ns ∈ s.resolver.sortedNamespaces, ns.Path ≠ dir :=
    h.resolver.path_ne_of_namespaceAt_eq_none hnone
  have hfields : ∀ ns : Namespace, ns.Path ≠ dir →
      ({ s with
          resolver := r
          fields := GoMap.set s.fields dir (NamespaceFields.new s.container.empty imports) } :
        ModuleResolver C G E).fieldsOf ns = s.fieldsOf ns := fun ns hne => by
    simp [fieldsOf, GoMap.getD_set_of_ne _ _ _ hne]
  -- before the first sorted read no id was chosen
  have hid : ∀ ns ∈ s.resolver.sortedNamespaces, (s.fieldsOf ns).id = "" := fun ns hns => by
    rcases h.ids ns hns with hid | ⟨hs', -⟩
    · exact hid
    · rw [hs] at hs'
      cases hs'
  refine ⟨⟨hinv, ?_, fun d hd => ?_, fun ns hns vis hvis => ?_, fun ns hns => ?_, ?_⟩,
    ⟨hk, ?_, hroot, ?_, rfl⟩⟩
  · rw [NameResolver.addNamespace_visibleNamespaces hadd, h.root_visible, hsorted, hroot,
      List.filter_append]
    cases hexp : (s.resolver.newNamespace dir).exportToKati <;> simp [hexp]
  · rcases GoMap.mem_keys_set hd with hd | rfl
    · exact hk.ne_none (h.fields_mapped d hd)
    · have hreg := hinv.registered (s.resolver.newNamespace d) (by simp [hsorted])
      show r.namespaceAt (s.resolver.newNamespace d).Path ≠ none
      rw [hreg]
      exact Option.some_ne_none _
  · rw [hsorted] at hns
    rcases List.mem_append.1 hns with hns | hns
    · rw [hfields ns (hold ns hns)] at hvis ⊢
      exact (h.visible ns hns vis hvis).of_keeps h.resolver hinv hk hroot
    · -- the new namespace has no visible namespaces yet
      rw [List.mem_singleton.1 hns] at hvis
      simp [fieldsOf, NameResolver.newNamespace, NewNamespace, NamespaceFields.new] at hvis
  · left
    rw [hsorted] at hns
    rcases List.mem_append.1 hns with hns | hns
    · rw [hfields ns (hold ns hns)]
      exact hid ns hns
    · rw [List.mem_singleton.1 hns]
      simp [fieldsOf, NameResolver.newNamespace, NewNamespace, NamespaceFields.new]
  · rw [hroot, hfields _ (hold _ h.resolver.root_mem)]
    exact h.root_id
  · rw [hsorted]
    exact List.prefix_append _ _
  · intro ns hns
    rw [hfields ns (hold ns hns)]

/-- Registering a module keeps the invariant: the lookup of its directory only
grows the map, and the name goes into the container of a namespace added. -/
theorem Inv.NewModule_module (h : s.Inv) {dir : List String} {fileName name : String} {g : G}
    {res : Except (NewModuleError E) (Option Namespace)}
    (hnew : s.NewModule dir fileName (.module name g) = some (res, s')) :
    s'.Inv ∧ s.Keeps s' := by
  obtain ⟨ns, r, hfind, ⟨errs, -, -, rfl⟩ | ⟨c, -, -, rfl⟩⟩ := NewModule_module_eq hnew
  · exact h.withFound hfind
  obtain ⟨hinv₁, hk₁⟩ := h.withFound hfind
  obtain ⟨-, -, hans, m, rfl⟩ := NameResolver.findNamespace_eq h.resolver hfind
  -- the namespace found is one added
  have hns : ns ∈ s.resolver.sortedNamespaces := (isLongest_of_lookupRef hans.symm).1
  exact ⟨hinv₁.setContainer hns c, hk₁.trans (keeps_setContainer ns c)⟩

/-- **The loop of `FindNamespaceImports`** appends the namespaces of the
leading imports whose directories are in the map, and stops with the error of
the first import whose directory is not. -/
theorem importsLoop_eq {r : NameResolver} (h : r.Inv) (visible : List Namespace)
    (names : List String) :
    importsLoop r visible names =
      some (visible ++ (names.takeWhile (inMap r)).filterMap (namespaceOfText r),
        (names.find? fun t => !inMap r t).map importError) := by
  induction names generalizing visible with
  | nil => simp [importsLoop]
  | cons t ts ih =>
    cases hat : r.namespaceAt (dirOfText t) with
    | none => simp [importsLoop, hat, inMap]
    | some v =>
      cases v with
      | none => exact absurd hat (h.ne_some_none _)
      | some imp =>
        -- the namespace found is the one `lookupRef` gives the directory
        have himp : namespaceOfText r t = some imp := (h.cached _ _ hat).symm
        have hin : inMap r t = true := by simp [inMap, hat]
        simp [importsLoop, hat, ih, hin, himp]

/-- The imports are all in the map exactly when the leading ones in it are all
of them. -/
theorem all_iff_length_takeWhile {p : String → Bool} {l : List String} :
    l.all p = true ↔ (l.takeWhile p).length = l.length := by
  rw [List.all_eq_true, ← List.takeWhile_eq_self_iff]
  exact ⟨fun h => by rw [h], fun h => (List.takeWhile_prefix p).eq_of_length h⟩

/-- What `FindNamespaceImports` leaves resolves the imports. -/
theorem resolved_takeWhile (r : NameResolver) (ns : Namespace) (imports : List String) :
    Resolved r ns imports (ns :: (imports.takeWhile (inMap r)).filterMap (namespaceOfText r) ++
      if imports.all (inMap r) then [r.rootNamespace] else []) := by
  have htake := List.prefix_iff_eq_take.1 (List.takeWhile_prefix (inMap r) (l := imports))
  refine ⟨(imports.takeWhile (inMap r)).length, (List.takeWhile_prefix _).length_le,
    fun t ht => ?_, ?_⟩
  · rw [← htake] at ht
    exact List.mem_takeWhile_imp ht
  · rw [← htake]
    by_cases hall : imports.all (inMap r) = true
    · rw [if_pos hall, if_pos (all_iff_length_takeWhile.1 hall)]
    · rw [if_neg hall, if_neg (mt all_iff_length_takeWhile.2 hall)]

/-- **`FindNamespaceImports` under the invariant**: each import whose directory
is in the map — a directory a namespace was declared at, or one whose
namespace was looked up — resolves to the namespace `lookupRef` gives that
directory, its longest ancestor with a namespace; the first import whose
directory is not in the map stops the loop with its error; and the root is
visible last only when every import resolved. -/
theorem FindNamespaceImports_eq (h : s.Inv) (ns : Namespace) :
    s.FindNamespaceImports ns =
      some (((s.fieldsOf ns).importedNamespaceNames.find? fun t => !inMap s.resolver t).map importError,
        s.setVisible ns (ns :: ((s.fieldsOf ns).importedNamespaceNames.takeWhile
            (inMap s.resolver)).filterMap (namespaceOfText s.resolver) ++
          if (s.fieldsOf ns).importedNamespaceNames.all (inMap s.resolver) then
            [s.resolver.rootNamespace] else [])) := by
  rw [FindNamespaceImports, importsLoop_eq h.resolver]
  cases hfind : (s.fieldsOf ns).importedNamespaceNames.find? fun t => !inMap s.resolver t with
  | none =>
    have hall : (s.fieldsOf ns).importedNamespaceNames.all (inMap s.resolver) = true := by
      rw [List.find?_eq_none] at hfind
      simpa using hfind
    simp [hall]
  | some t =>
    -- an import out of the map stops the loop before the root
    have hall : (s.fieldsOf ns).importedNamespaceNames.all (inMap s.resolver) = false := by
      have ht := List.find?_some hfind
      rw [Bool.eq_false_iff]
      intro hall
      rw [List.all_eq_true] at hall
      simp [hall t (List.mem_of_find?_eq_some hfind)] at ht
    simp [hall]

/-- Setting the visible namespaces of a namespace added to ones that resolve its
imports keeps the invariant. -/
theorem Inv.setVisible (h : s.Inv) {ns : Namespace} (hns : ns ∈ s.resolver.sortedNamespaces)
    {visible : List Namespace}
    (hres : Resolved s.resolver ns (s.fieldsOf ns).importedNamespaceNames visible) :
    (s.setVisible ns visible).Inv where
  resolver := h.resolver
  root_visible := h.root_visible
  fields_mapped := s.fields_mapped_modifyFields ns _ h.resolver h.fields_mapped hns
  ids ns' hns' := (h.ids ns' hns').mono (id_fieldsOf_setVisible _ _ _ _) rfl id
  root_id := (id_fieldsOf_setVisible _ _ _ _).trans h.root_id
  visible ns' hns' vis hvis := by
    rw [importedNamespaceNames_fieldsOf_setVisible]
    rw [fieldsOf_setVisible] at hvis
    split at hvis
    · -- one namespace per directory: it is `ns`
      rename_i hpath
      obtain rfl := List.inj_on_of_nodup_map h.resolver.paths_nodup hns' hns hpath
      cases hvis
      exact hres
    · exact h.visible ns' hns' vis hvis

theorem Inv.FindNamespaceImports (h : s.Inv) {ns : Namespace} (hns : ns ∈ s.resolver.sortedNamespaces)
    {err : Option String} (hfind : s.FindNamespaceImports ns = some (err, s')) :
    s'.Inv ∧ s.Keeps s' := by
  rw [FindNamespaceImports_eq h, Option.some.injEq, Prod.mk.injEq] at hfind
  obtain ⟨-, rfl⟩ := hfind
  exact ⟨h.setVisible hns (resolved_takeWhile _ _ _), keeps_setVisible _ _⟩

/-- A lookup changes nothing but the flag of a sorted read. -/
theorem ModuleFromName_state {name : String} {fromNamespace : Option Namespace} {g : Option G}
    (hfind : s.ModuleFromName name fromNamespace = some (g, s')) :
    s' = s ∨ s' = { s with sorted := true } := by
  cases hp : parseFullyQualifiedName name with
  | some p =>
    obtain ⟨nsName, moduleName⟩ := p
    cases hat : s.resolver.namespaceAt (dirOfText nsName) with
    | none =>
      simp [ModuleFromName, hp, hat] at hfind
      exact .inl hfind.2.symm
    | some v =>
      cases v with
      | none => simp [ModuleFromName, hp, hat] at hfind
      | some ns =>
        simp [ModuleFromName, hp, hat] at hfind
        exact .inl hfind.2.symm
  | none =>
    cases hv : fromNamespace.bind s.visibleOf with
    | none =>
      simp [ModuleFromName, hp, getNamespacesToSearchForModule, hv] at hfind
      exact .inr hfind.2.symm
    | some vis =>
      simp [ModuleFromName, hp, getNamespacesToSearchForModule, hv] at hfind
      exact .inl hfind.2.symm

theorem Inv.ModuleFromName (h : s.Inv) {name : String} {fromNamespace : Option Namespace}
    {g : Option G} (hfind : s.ModuleFromName name fromNamespace = some (g, s')) :
    s'.Inv ∧ s.Keeps s' := by
  rcases ModuleFromName_state hfind with rfl | rfl
  · exact ⟨h, Keeps.refl _⟩
  · exact ⟨h.withSorted, keeps_withSorted⟩

/-- The loop of `index` finds a namespace added at its position in
`sortedItems`. -/
theorem findIdx?_sortedItems {ns : Namespace} (hns : ns ∈ s.resolver.sortedNamespaces) :
    ∃ i : ℕ, s.sortedItems.findIdx? (fun candidate => decide (ns = candidate)) = some i ∧
      s.sortedItems[i]? = some ns := by
  have hmem : ns ∈ s.sortedItems := (sort.Slice_perm _ _).mem_iff.2 hns
  cases hidx : s.sortedItems.findIdx? (fun candidate => decide (ns = candidate)) with
  | none =>
    have := List.findIdx?_eq_none_iff.1 hidx ns hmem
    simp at this
  | some i =>
    obtain ⟨hi, hp, -⟩ := List.findIdx?_eq_some_iff_getElem.1 hidx
    refine ⟨i, rfl, ?_⟩
    rw [List.getElem?_eq_getElem hi, of_decide_eq_true hp]

/-- `chooseId` of a namespace added reads the namespaces sorted and sets the
id to the namespace's position in `sortedItems`. -/
theorem chooseId_eq {ns : Namespace} (hns : ns ∈ s.resolver.sortedNamespaces) :
    ∃ i : ℕ, s.sortedItems[i]? = some ns ∧
      s.chooseId ns = some (({ s with sorted := true } : ModuleResolver C G E).setId ns (strconv.Itoa i)) := by
  obtain ⟨i, hidx, hi⟩ := findIdx?_sortedItems hns
  exact ⟨i, hi, by simp [chooseId, index, hidx]⟩

/-- Setting the id of a namespace other than the root to its position keeps
the invariant, once the namespaces were read sorted. -/
theorem Inv.setId_sorted (h : s.Inv) {ns : Namespace} (hns : ns ∈ s.resolver.sortedNamespaces)
    (hroot : ns.Path ≠ []) {i : ℕ} (hi : s.sortedItems[i]? = some ns) :
    (({ s with sorted := true } : ModuleResolver C G E).setId ns (strconv.Itoa i)).Inv where
  resolver := h.resolver
  root_visible := h.root_visible
  fields_mapped := ModuleResolver.fields_mapped_modifyFields _ ns _ h.resolver h.fields_mapped hns
  visible ns' hns' vis hvis := by
    rw [visibleNamespaces_fieldsOf_setId] at hvis
    rw [importedNamespaceNames_fieldsOf_setId]
    exact h.visible ns' hns' vis hvis
  ids ns' hns' := by
    by_cases hpath : ns'.Path = ns.Path
    · -- one namespace per directory: it is `ns`
      obtain rfl := List.inj_on_of_nodup_map h.resolver.paths_nodup hns' hns hpath
      exact .inr ⟨rfl, i, hi, by simp [setId, fieldsOf_modifyFields]⟩
    · exact (h.ids ns' hns').mono (by simp [setId, fieldsOf_modifyFields, hpath]; rfl) rfl
        fun _ => rfl
  root_id := by
    have hpath : s.resolver.rootNamespace.Path ≠ ns.Path := by
      rw [h.resolver.root_path]
      exact hroot.symm
    simp only [setId, fieldsOf_modifyFields, resolver_modifyFields, if_neg hpath]
    exact h.root_id

theorem keeps_setId_sorted (ns : Namespace) (id : String) :
    s.Keeps (({ s with sorted := true } : ModuleResolver C G E).setId ns id) where
  resolver _ _ hd := hd
  sorted := List.prefix_refl _
  root := rfl
  imports _ _ := importedNamespaceNames_fieldsOf_setId _ _ _ _
  container := rfl

/-- A unique name changes nothing but the resolver, by the lookup of the
directory. -/
theorem UniqueName_state {dir : List String} {name u : String}
    (hu : s.UniqueName dir name = some (u, s')) :
    ∃ found r, s.resolver.findNamespace dir = (found, r) ∧ s' = { s with resolver := r } := by
  cases hfind : s.resolver.findNamespace dir with
  | mk found r =>
    cases found with
    | none => simp [ModuleResolver.UniqueName, hfind] at hu
    | some ns =>
      simp only [ModuleResolver.UniqueName, hfind, Option.some.injEq, Prod.mk.injEq] at hu
      exact ⟨some ns, r, rfl, hu.2.symm⟩

/-- A unique name only grows the map, by the lookup of the directory. -/
theorem Inv.UniqueName (h : s.Inv) {dir : List String} {name u : String}
    (hu : s.UniqueName dir name = some (u, s')) : s'.Inv ∧ s.Keeps s' := by
  obtain ⟨found, r, hfind, rfl⟩ := UniqueName_state hu
  exact h.withFound hfind

/-- The error for a missing dependency changes nothing but the flag of a
sorted read. -/
theorem MissingDependencyError_snd (s : ModuleResolver C G E) (depender : String)
    (dependerNamespace : Namespace) (depName : String) :
    (s.MissingDependencyError depender dependerNamespace depName).2 = s ∨
      (s.MissingDependencyError depender dependerNamespace depName).2 = { s with sorted := true } := by
  unfold MissingDependencyError
  dsimp only
  split_ifs
  · exact .inl rfl
  · exact .inr rfl
  · right
    cases hv : (some dependerNamespace).bind ({ s with sorted := true } : ModuleResolver C G E).visibleOf <;>
      simp [getNamespacesToSearchForModule, hv]

/-- `Rename` writes at most the container of the namespace, with what the
container's own `Rename` gave. -/
theorem Rename_snd (s : ModuleResolver C G E) (oldName newName : String) (ns : Namespace) :
    (s.Rename oldName newName ns).2 = s ∨
      ∃ c, s.container.rename (s.containerOf ns) oldName newName = .ok c ∧
        (s.Rename oldName newName ns).2 = s.setContainer ns c := by
  unfold Rename
  split
  · exact .inl rfl
  · rename_i c hc
    exact .inr ⟨c, hc, rfl⟩

/-- The namespace the map holds at its own directory is one added. -/
theorem Inv.mem_of_namespaceAt (h : s.Inv) {dir : List String} {ns : Namespace}
    (hat : s.resolver.namespaceAt dir = some (some ns)) (hpath : ns.Path = dir) :
    ns ∈ s.resolver.sortedNamespaces := by
  have hlook := h.resolver.cached dir _ hat
  rw [← hpath] at hlook
  exact (isLongest_of_lookupRef hlook.symm).1

/-- What the namespace mutator does: nothing, unless the directory holds the
namespace declared there and is not the root's; then it resolves the imports
and chooses the id. -/
theorem step_namespaceMutator_eq {dir : List String} {res : Result G E}
    (hstep : s.step (.namespaceMutator dir) = some (res, s')) :
    s' = s ∨ ∃ ns, s.resolver.namespaceAt dir = some (some ns) ∧ ns.Path = dir ∧ dir ≠ [] ∧
      ∃ err s₁, s.FindNamespaceImports ns = some (err, s₁) ∧ s₁.chooseId ns = some s' := by
  simp only [ModuleResolver.step] at hstep
  split at hstep
  · rename_i ns hat
    split at hstep
    · rename_i hcond
      simp only [Option.bind_eq_some_iff, Option.map_eq_some_iff] at hstep
      obtain ⟨⟨err, s₁⟩, hfind, s₂, hchoose, heq⟩ := hstep
      cases heq
      exact .inr ⟨ns, hat, hcond.1, hcond.2, err, s₁, hfind, hchoose⟩
    · simp only [Option.some.injEq, Prod.mk.injEq] at hstep
      exact .inl hstep.2.symm
  · simp only [Option.some.injEq, Prod.mk.injEq] at hstep
    exact .inl hstep.2.symm

/-- What registering a module does: `NewModule`, its result reported. -/
theorem step_newModule_eq {dir : List String} {fileName : String} {m : ModuleKind G}
    {res : Result G E} (hstep : s.step (.newModule dir fileName m) = some (res, s')) :
    ∃ res', s.NewModule dir fileName m = some (res', s') ∧ res = .registered res' := by
  simp only [ModuleResolver.step, Option.map_eq_some_iff] at hstep
  obtain ⟨⟨res', s''⟩, hnew, heq⟩ := hstep
  cases heq
  exact ⟨res', hnew, rfl⟩

theorem step_moduleFromName_eq {name : String} {fromNamespace : Option Namespace}
    {res : Result G E} (hstep : s.step (.moduleFromName name fromNamespace) = some (res, s')) :
    ∃ g, s.ModuleFromName name fromNamespace = some (g, s') ∧ res = .found g := by
  simp only [ModuleResolver.step, Option.map_eq_some_iff] at hstep
  obtain ⟨⟨g, s''⟩, hfind, heq⟩ := hstep
  cases heq
  exact ⟨g, hfind, rfl⟩

theorem step_uniqueName_eq {dir : List String} {name : String} {res : Result G E}
    (hstep : s.step (.uniqueName dir name) = some (res, s')) :
    ∃ u, s.UniqueName dir name = some (u, s') ∧ res = .unique u := by
  simp only [ModuleResolver.step, Option.map_eq_some_iff] at hstep
  obtain ⟨⟨u, s''⟩, hu, heq⟩ := hstep
  cases heq
  exact ⟨u, hu, rfl⟩

/-- The error for a missing dependency at most sorts the namespaces. -/
theorem step_missingDependencyError_state {depender : String} {dependerNamespace : Namespace}
    {depName : String} {res : Result G E}
    (hstep : s.step (.missingDependencyError depender dependerNamespace depName) = some (res, s')) :
    s' = s ∨ s' = { s with sorted := true } := by
  simp only [ModuleResolver.step, Option.some.injEq, Prod.mk.injEq] at hstep
  rw [← hstep.2]
  exact MissingDependencyError_snd s depender dependerNamespace depName

/-- What a rename does: nothing, unless the namespace is the one added at its
directory and its container renames the module; then that container is
replaced. -/
theorem step_rename_eq {oldName newName : String} {ns : Namespace} {res : Result G E}
    (hstep : s.step (.rename oldName newName ns) = some (res, s')) :
    s' = s ∨ s.resolver.namespaceAt ns.Path = some (some ns) ∧
      ∃ c, s.container.rename (s.containerOf ns) oldName newName = .ok c ∧
        s' = s.setContainer ns c := by
  simp only [ModuleResolver.step] at hstep
  split at hstep
  · rename_i hat
    simp only [Option.some.injEq, Prod.mk.injEq] at hstep
    rw [← hstep.2]
    rcases Rename_snd s oldName newName ns with hs | ⟨c, hc, hs⟩
    · exact .inl hs
    · exact .inr ⟨hat, c, hc, hs⟩
  · simp only [Option.some.injEq, Prod.mk.injEq] at hstep
    exact .inl hstep.2.symm

/-- **One operation keeps the invariant**, and everything `Keeps` names. -/
theorem Inv.step (h : s.Inv) {op : Op G} {res : Result G E} (hstep : s.step op = some (res, s')) :
    s'.Inv ∧ s.Keeps s' := by
  cases op with
  | newModule dir fileName m =>
    obtain ⟨res', hnew, -⟩ := step_newModule_eq hstep
    cases m with
    | soongNamespace imports => exact h.NewModule_soongNamespace hnew
    | nameless =>
      simp only [NewModule, Option.some.injEq, Prod.mk.injEq] at hnew
      rw [← hnew.2]
      exact ⟨h, Keeps.refl _⟩
    | module name g => exact h.NewModule_module hnew
  | namespaceMutator dir =>
    rcases step_namespaceMutator_eq hstep with rfl | ⟨ns, hat, hpath, hroot, err, s₁, hfind, hchoose⟩
    · exact ⟨h, Keeps.refl _⟩
    have hns := h.mem_of_namespaceAt hat hpath
    obtain ⟨h₁, hk₁⟩ := h.FindNamespaceImports hns hfind
    -- `FindNamespaceImports` adds no namespace, so `chooseId` finds this one
    have hns₁ := hk₁.sorted.subset hns
    obtain ⟨i, hi, hch⟩ := chooseId_eq hns₁
    rw [hch, Option.some.injEq] at hchoose
    subst hchoose
    have hroot' : ns.Path ≠ [] := by
      rw [hpath]
      exact hroot
    exact ⟨h₁.setId_sorted hns₁ hroot' hi, hk₁.trans (keeps_setId_sorted _ _)⟩
  | moduleFromName name fromNamespace =>
    obtain ⟨g, hfind, -⟩ := step_moduleFromName_eq hstep
    exact h.ModuleFromName hfind
  | uniqueName dir name =>
    obtain ⟨u, hu, -⟩ := step_uniqueName_eq hstep
    exact h.UniqueName hu
  | missingDependencyError depender dependerNamespace depName =>
    rcases step_missingDependencyError_state hstep with rfl | rfl
    · exact ⟨h, Keeps.refl _⟩
    · exact ⟨h.withSorted, keeps_withSorted⟩
  | rename oldName newName ns =>
    rcases step_rename_eq hstep with rfl | ⟨hat, c, -, rfl⟩
    · exact ⟨h, Keeps.refl _⟩
    -- the renamed module's namespace is one added
    have hns := h.mem_of_namespaceAt hat rfl
    exact ⟨h.setContainer hns c, keeps_setContainer ns c⟩

/-- **One operation keeps a module where it is**: in a lawful container, the
group a namespace added holds under a name stays under that name through every
operation but a rename of that name in that namespace. -/
theorem Inv.step_keeps_module (hmc : s.container.Lawful) (h : s.Inv) {op : Op G}
    {res : Result G E} (hstep : s.step op = some (res, s')) {ns : Namespace}
    (hns : ns ∈ s.resolver.sortedNamespaces) {name : String} {g : G}
    (hg : s.container.moduleFromName (s.containerOf ns) name = some g)
    (hop : ∀ newName rns, op = .rename name newName rns → rns.Path ≠ ns.Path) :
    s'.container.moduleFromName (s'.containerOf ns) name = some g := by
  cases op with
  | newModule dir fileName m =>
    obtain ⟨res', hnew, -⟩ := step_newModule_eq hstep
    cases m with
    | soongNamespace imports =>
      rcases NewModule_soongNamespace_eq hnew with rfl | ⟨r, hadd, -, rfl⟩
      · exact hg
      -- the new namespace's directory was out of the map, so it is not `ns`'s
      obtain ⟨hnone, -⟩ := NameResolver.addNamespace_eq_ok hadd
      have hne : ns.Path ≠ dir := h.resolver.path_ne_of_namespaceAt_eq_none hnone ns hns
      simpa [containerOf, fieldsOf, GoMap.getD_set_of_ne _ _ _ hne] using hg
    | nameless =>
      simp only [NewModule, Option.some.injEq, Prod.mk.injEq] at hnew
      rw [← hnew.2]
      exact hg
    | module name' g' =>
      obtain ⟨ns', r, -, ⟨errs, -, -, rfl⟩ | ⟨c, hc, -, rfl⟩⟩ := NewModule_module_eq hnew
      · exact hg
      rw [containerOf_setContainer]
      split
      · rename_i hpath
        exact hmc.moduleFromName_of_newModule hc (s.containerOf_congr hpath ▸ hg)
      · exact hg
  | namespaceMutator dir =>
    rcases step_namespaceMutator_eq hstep with rfl | ⟨ns₀, hat, hpath, -, err, s₁, hfind, hchoose⟩
    · exact hg
    -- the mutator writes the visible namespaces and the id only
    have hns₀ := h.mem_of_namespaceAt hat hpath
    rw [FindNamespaceImports_eq h, Option.some.injEq, Prod.mk.injEq] at hfind
    obtain ⟨-, rfl⟩ := hfind
    obtain ⟨i, -, hch⟩ := chooseId_eq (s := s.setVisible ns₀ _) hns₀
    rw [hch, Option.some.injEq] at hchoose
    subst hchoose
    rw [containerOf_setId, containerOf_withSorted, containerOf_setVisible]
    exact hg
  | moduleFromName name' fromNamespace =>
    obtain ⟨g', hfind, -⟩ := step_moduleFromName_eq hstep
    rcases ModuleFromName_state hfind with rfl | rfl <;> exact hg
  | uniqueName dir name' =>
    obtain ⟨u, hu, -⟩ := step_uniqueName_eq hstep
    obtain ⟨found, r, -, rfl⟩ := UniqueName_state hu
    exact hg
  | missingDependencyError depender dependerNamespace depName =>
    rcases step_missingDependencyError_state hstep with rfl | rfl <;> exact hg
  | rename oldName newName rns =>
    rcases step_rename_eq hstep with rfl | ⟨-, c, hc, rfl⟩
    · exact hg
    rw [containerOf_setContainer]
    split
    · rename_i hpath
      -- a rename in `ns`'s container is of another name
      have hold : oldName ≠ name := by
        rintro rfl
        exact hop newName rns rfl hpath.symm
      exact hmc.moduleFromName_of_rename hc hold (s.containerOf_congr hpath ▸ hg)
    · exact hg

theorem run_cons_eq_some {op : Op G} {ops : List (Op G)} {results : List (Result G E)}
    (hrun : s.run (op :: ops) = some (results, s')) :
    ∃ res results' s₁, s.step op = some (res, s₁) ∧ s₁.run ops = some (results', s') ∧
      results = res :: results' := by
  simp only [run, Option.bind_eq_some_iff, Option.map_eq_some_iff] at hrun
  obtain ⟨⟨res, s₁⟩, hstep, ⟨results', s''⟩, hrest, heq⟩ := hrun
  simp only [Prod.mk.injEq] at heq
  obtain ⟨rfl, rfl⟩ := heq
  exact ⟨res, results', s₁, hstep, hrest, rfl⟩

/-- **A run keeps the invariant**, and everything `Keeps` names. -/
theorem Inv.run (h : s.Inv) {ops : List (Op G)} {results : List (Result G E)}
    (hrun : s.run ops = some (results, s')) : s'.Inv ∧ s.Keeps s' := by
  induction ops generalizing s results with
  | nil =>
    simp only [ModuleResolver.run, Option.some.injEq, Prod.mk.injEq] at hrun
    obtain ⟨-, rfl⟩ := hrun
    exact ⟨h, Keeps.refl _⟩
  | cons op ops ih =>
    obtain ⟨res, results', s₁, hstep, hrest, -⟩ := run_cons_eq_some hrun
    obtain ⟨h₁, hk₁⟩ := h.step hstep
    obtain ⟨h', hk'⟩ := ih h₁ hrest
    exact ⟨h', hk₁.trans hk'⟩

/-- **A run keeps a module where it is**, unless it renames it. -/
theorem Inv.run_keeps_module (hmc : s.container.Lawful) (h : s.Inv) {ops : List (Op G)}
    {results : List (Result G E)} (hrun : s.run ops = some (results, s')) {ns : Namespace}
    (hns : ns ∈ s.resolver.sortedNamespaces) {name : String} {g : G}
    (hg : s.container.moduleFromName (s.containerOf ns) name = some g)
    (hops : ∀ op ∈ ops, ∀ newName rns, op = .rename name newName rns → rns.Path ≠ ns.Path) :
    s'.container.moduleFromName (s'.containerOf ns) name = some g := by
  induction ops generalizing s results with
  | nil =>
    simp only [ModuleResolver.run, Option.some.injEq, Prod.mk.injEq] at hrun
    obtain ⟨-, rfl⟩ := hrun
    exact hg
  | cons op ops ih =>
    obtain ⟨res, results', s₁, hstep, hrest, -⟩ := run_cons_eq_some hrun
    obtain ⟨h₁, hk₁⟩ := h.step hstep
    have hg₁ := h.step_keeps_module hmc hstep hns hg (hops op List.mem_cons_self)
    exact ih (hk₁.container ▸ hmc) h₁ hrest (hk₁.sorted.subset hns) hg₁
      fun op' hop' => hops op' (List.mem_cons_of_mem _ hop')

/-- A new resolver keeps the invariant: the root alone, with empty fields. -/
theorem NewModuleResolver_inv (container : ModuleContainer C G E)
    (namespaceExportFilter : Namespace → Bool) :
    (NewModuleResolver container namespaceExportFilter).Inv := by
  have hnew := NewNameResolver_inv namespaceExportFilter
  -- every namespace of a new resolver reads the fields a new namespace has
  have hfields : ∀ ns : Namespace, (NewModuleResolver container namespaceExportFilter).fieldsOf ns =
      NamespaceFields.new container.empty [] := by
    intro ns
    by_cases hpath : ns.Path = []
    · simp [NewModuleResolver, fieldsOf, GoMap.getD, GoMap.get?, hpath]
    · simp [NewModuleResolver, fieldsOf, GoMap.getD, GoMap.get?, Ne.symm hpath]
  refine ⟨hnew, ?_, fun d hd => ?_, fun ns _ vis hvis => ?_, fun ns _ => .inl ?_, ?_⟩
  · cases hf : namespaceExportFilter (NewNamespace []) <;>
      simp [NewModuleResolver, NewNameResolver, NameResolver.addNamespace, NameResolver.namespaceAt,
        GoMap.get?, NameResolver.Store, hf]
  · -- the only fields are the root's, at `.`
    simp only [NewModuleResolver, GoMap.keys, List.map_cons, List.map_nil,
      List.mem_singleton] at hd
    subst hd
    show (NewNameResolver namespaceExportFilter).namespaceAt [] ≠ none
    rw [← hnew.root_path, hnew.registered _ hnew.root_mem]
    exact Option.some_ne_none _
  · -- no namespace has visible namespaces yet
    simp [hfields, NamespaceFields.new] at hvis
  · rw [hfields]
    rfl
  · rw [hfields]
    rfl

/-- The states around the `i`-th operation of a run: the one it starts from
keeps the invariant and what the run held before, and the rest of the run goes
on from the one it ends in. -/
theorem Inv.run_getElem (h : s.Inv) {ops : List (Op G)} {results : List (Result G E)}
    (hrun : s.run ops = some (results, s')) {i : ℕ} {op : Op G} (hop : ops[i]? = some op) :
    ∃ res sᵢ sᵢ₁, results[i]? = some res ∧ sᵢ.Inv ∧ sᵢ.step op = some (res, sᵢ₁) ∧
      s.Keeps sᵢ ∧ sᵢ₁.run (ops.drop (i + 1)) = some (results.drop (i + 1), s') := by
  induction ops generalizing s results i with
  | nil => simp at hop
  | cons op₀ ops ih =>
    obtain ⟨res, results', s₁, hstep, hrest, rfl⟩ := run_cons_eq_some hrun
    obtain ⟨h₁, hk₁⟩ := h.step hstep
    cases i with
    | zero =>
      simp only [List.getElem?_cons_zero, Option.some.injEq] at hop
      subst hop
      exact ⟨res, s, s₁, rfl, h, hstep, Keeps.refl _, by simpa using hrest⟩
    | succ i =>
      rw [List.getElem?_cons_succ] at hop
      obtain ⟨res', sᵢ, sᵢ₁, hres, hinv, hstepᵢ, hk, hrestᵢ⟩ := ih h₁ hrest hop
      exact ⟨res', sᵢ, sᵢ₁, by simpa using hres, hinv, hstepᵢ, hk₁.trans hk,
        by simpa using hrestᵢ⟩

/-! ### Registration and lookup over runs -/

/-- **Every module a run registers is found at the end by its fully qualified
name.**  Over a lawful container, a module registered without error, from a
directory of valid names without colons, went into the namespace of that
directory, which is still the namespace `lookupRef` gives the directory when
the run ends; and the name `//dir:name` with the directory of that namespace
finds the module's group, whatever the run did after but rename the module in
that namespace. -/
theorem ModuleFromName_registered (mc : ModuleContainer C G E) (hmc : mc.Lawful)
    (namespaceExportFilter : Namespace → Bool) {ops : List (Op G)} {results : List (Result G E)}
    (hrun : (NewModuleResolver mc namespaceExportFilter).run ops = some (results, s'))
    {i : ℕ} {dir : List String} {fileName name : String} {g : G} {ns : Namespace}
    (hop : ops[i]? = some (.newModule dir fileName (.module name g)))
    (hres : results[i]? = some (.registered (.ok (some ns))))
    (hdir : ∀ n ∈ dir, ValidName n ∧ ':' ∉ n.toList) (hname : ':' ∉ name.toList)
    (hkept : ∀ j > i, ∀ newName rns,
      ops[j]? = some (.rename name newName rns) → rns.Path ≠ ns.Path)
    (fromNamespace : Option Namespace) :
    lookupRef s'.resolver.sortedNamespaces dir = some ns ∧
      s'.ModuleFromName ("//" ++ pathString ns.Path ++ ":" ++ name) fromNamespace =
        some (some g, s') := by
  have h₀ := NewModuleResolver_inv mc namespaceExportFilter
  have h' := (h₀.run hrun).1
  obtain ⟨res, sᵢ, sᵢ₁, hresᵢ, hinvᵢ, hstep, hkᵢ, hrest⟩ := h₀.run_getElem hrun hop
  rw [hres, Option.some.injEq] at hresᵢ
  subst hresᵢ
  -- the step put the module in the container of the namespace of its directory
  obtain ⟨res', hnew, hreg⟩ := step_newModule_eq hstep
  cases hreg
  obtain ⟨hinvᵢ₁, -⟩ := hinvᵢ.NewModule_module hnew
  have hk := (hinvᵢ₁.run hrest).2
  have hmcᵢ : sᵢ.container = mc := hkᵢ.container
  obtain ⟨ns', r, hfind, ⟨errs, -, hbad, -⟩ | ⟨c, hc, hok, rfl⟩⟩ := NewModule_module_eq hnew
  · cases hbad
  simp only [Except.ok.injEq, Option.some.injEq] at hok
  subst hok
  have hf := NameResolver.findNamespace_spec hinvᵢ.resolver dir
  rw [hfind] at hf
  obtain ⟨hmem, hpre, -⟩ := isLongest_of_lookupRef hf.answer.symm
  obtain ⟨m, hm⟩ := hf.only_map
  have hmem₁ : ns ∈ r.sortedNamespaces := by simp only at hm; rw [hm]; exact hmem
  have hmcᵢ' : sᵢ.container.Lawful := hmcᵢ ▸ hmc
  have hgᵢ₁ : sᵢ.container.moduleFromName
      ((({ sᵢ with resolver := r } : ModuleResolver C G E).setContainer ns c).containerOf ns) name =
        some g := by
    rw [containerOf_setContainer, if_pos rfl, hmcᵢ'.moduleFromName_newModule _ _ _ _ hc, if_pos rfl]
  -- no later operation renames the module in its namespace, so it stays to the end
  have hget : s'.container.moduleFromName (s'.containerOf ns) name = some g := by
    refine hinvᵢ₁.run_keeps_module ?_ hrest hmem₁ hgᵢ₁ ?_
    · exact hmcᵢ'
    intro op hop' newName rns hren
    obtain ⟨k, hk'⟩ := List.mem_iff_getElem?.1 hop'
    rw [List.getElem?_drop, hren] at hk'
    exact hkept (i + 1 + k) (by omega) newName rns hk'
  -- the entry the lookup cached at the directory stays to the end
  have hat : s'.resolver.namespaceAt dir = some (some ns) :=
    hk.resolver dir _ (by simpa [← hf.answer, setContainer] using hf.cached_here)
  refine ⟨(h'.resolver.cached dir _ hat).symm, ?_⟩
  -- the namespace's directory is an ancestor of `dir`, so its names are valid
  have hvalid : ∀ n ∈ ns.Path, ValidName n ∧ ':' ∉ n.toList := fun n hn => hdir n (hpre.subset hn)
  have hparse : parseFullyQualifiedName ("//" ++ pathString ns.Path ++ ":" ++ name) =
      some (pathString ns.Path, name) :=
    parseFullyQualifiedName_eq_some_iff.2
      ⟨rfl, colon_not_mem_pathString fun n hn => (hvalid n hn).2, hname⟩
  have hreg := h'.resolver.registered ns (hk.sorted.subset hmem₁)
  rw [← dirOfText_pathString fun n hn => (hvalid n hn).1] at hreg
  simp [ModuleResolver.ModuleFromName, hparse, hreg, hget]

/-- A module of `a/b`, below the namespace of `a`, is found as `//a:m` after
another module of the namespace was renamed. -/
theorem ModuleFromName_registered_below :
    ∃ s' : ModuleResolver (List (String × ℕ)) ℕ Unit,
      (NewModuleResolver (mapContainer ℕ) (fun _ => true)).run
        [.newModule ["a"] "Android.bp" (.soongNamespace []),
          .newModule ["a", "b"] "Android.bp" (.module "m" 7),
          .newModule ["a"] "Android.bp" (.module "n" 8), .rename "n" "n2" ⟨["a"], true⟩] =
          some ([.registered (.ok none), .registered (.ok (some ⟨["a"], true⟩)),
            .registered (.ok (some ⟨["a"], true⟩)), .renamed none], s') ∧
      lookupRef s'.resolver.sortedNamespaces ["a", "b"] = some ⟨["a"], true⟩ ∧
      s'.ModuleFromName ("//" ++ pathString ["a"] ++ ":" ++ "m") none = some (some 7, s') := by
  obtain ⟨s', hrun⟩ : ∃ s' : ModuleResolver (List (String × ℕ)) ℕ Unit,
      (NewModuleResolver (mapContainer ℕ) (fun _ => true)).run
        [.newModule ["a"] "Android.bp" (.soongNamespace []),
          .newModule ["a", "b"] "Android.bp" (.module "m" 7),
          .newModule ["a"] "Android.bp" (.module "n" 8), .rename "n" "n2" ⟨["a"], true⟩] =
        some ([.registered (.ok none), .registered (.ok (some ⟨["a"], true⟩)),
          .registered (.ok (some ⟨["a"], true⟩)), .renamed none], s') := by
    simp [NewModuleResolver, NewNameResolver, ModuleResolver.run, ModuleResolver.step, NewModule,
      NameResolver.addNamespace, NameResolver.newNamespace, NewNamespace, NameResolver.namespaceAt,
      NameResolver.Store, NameResolver.findNamespace, GoMap.get?, GoMap.set, GoMap.delete,
      containerOf, fieldsOf, GoMap.getD, NamespaceFields.new, setContainer, modifyFields,
      mapContainer, Rename]
  -- the only rename after the module is of `n`
  have hkept : ∀ j > 1, ∀ newName (rns : Namespace),
      ([.newModule ["a"] "Android.bp" (.soongNamespace []),
          .newModule ["a", "b"] "Android.bp" (.module "m" 7),
          .newModule ["a"] "Android.bp" (.module "n" 8),
          .rename "n" "n2" ⟨["a"], true⟩] : List (Op ℕ))[j]? = some (.rename "m" newName rns) →
        rns.Path ≠ (⟨["a"], true⟩ : Namespace).Path := by
    intro j _ newName rns hj
    rcases j with _ | _ | _ | _ | j <;> simp at hj
  exact ⟨s', hrun, ModuleFromName_registered (mapContainer ℕ) (mapContainer_lawful ℕ) (fun _ => true)
    hrun (i := 1) rfl rfl (by decide) (by decide) hkept none⟩

/-- **A fully qualified name is looked up through the map of directories.**  In
every state a run reaches, `//dir:name` finds nothing when no namespace was
declared or looked up at `dir`; otherwise it reads the container of the
namespace `lookupRef` gives `dir`, its longest ancestor with a namespace, so a
directory that only holds modules stands for the namespace it lies in. -/
theorem ModuleFromName_qualified (mc : ModuleContainer C G E)
    (namespaceExportFilter : Namespace → Bool)
    {ops : List (Op G)} {results : List (Result G E)}
    (hrun : (NewModuleResolver mc namespaceExportFilter).run ops = some (results, s))
    {name nsName moduleName : String}
    (hname : parseFullyQualifiedName name = some (nsName, moduleName))
    (fromNamespace : Option Namespace) :
    s.ModuleFromName name fromNamespace =
      some ((if inMap s.resolver nsName then
          (namespaceOfText s.resolver nsName).bind fun ns =>
            s.container.moduleFromName (s.containerOf ns) moduleName
        else none), s) := by
  have h := ((NewModuleResolver_inv mc namespaceExportFilter).run hrun).1
  cases hat : s.resolver.namespaceAt (dirOfText nsName) with
  | none => simp [ModuleResolver.ModuleFromName, hname, hat, inMap]
  | some v =>
    -- the entry is what `lookupRef` gives the directory, and is not nil
    have hv := h.resolver.cached _ v hat
    cases v with
    | none => exact absurd hat (h.resolver.ne_some_none _)
    | some ns => simp [ModuleResolver.ModuleFromName, hname, hat, inMap, namespaceOfText, ← hv]

/-- After a module of `a/b` is registered, `//a/b:m` finds it in the namespace
of `a`. -/
theorem ModuleFromName_qualified_cached :
    ∃ s' : ModuleResolver (List (String × ℕ)) ℕ Unit,
      (NewModuleResolver (mapContainer ℕ) (fun _ => true)).run
        [.newModule ["a"] "Android.bp" (.soongNamespace []),
          .newModule ["a", "b"] "Android.bp" (.module "m" 7)] =
          some ([.registered (.ok none), .registered (.ok (some ⟨["a"], true⟩))], s') ∧
      s'.ModuleFromName "//a/b:m" none =
        some ((if inMap s'.resolver "a/b" then
            (namespaceOfText s'.resolver "a/b").bind fun ns =>
              s'.container.moduleFromName (s'.containerOf ns) "m"
          else none), s') := by
  obtain ⟨s', hrun⟩ : ∃ s' : ModuleResolver (List (String × ℕ)) ℕ Unit,
      (NewModuleResolver (mapContainer ℕ) (fun _ => true)).run
      [.newModule ["a"] "Android.bp" (.soongNamespace []),
        .newModule ["a", "b"] "Android.bp" (.module "m" 7)] =
        some ([.registered (.ok none), .registered (.ok (some ⟨["a"], true⟩))], s') := by
    simp [NewModuleResolver, NewNameResolver, ModuleResolver.run, ModuleResolver.step, NewModule,
      NameResolver.addNamespace, NameResolver.newNamespace, NewNamespace, NameResolver.namespaceAt,
      NameResolver.Store, NameResolver.findNamespace, GoMap.get?, GoMap.set, containerOf, fieldsOf,
      GoMap.getD, NamespaceFields.new, setContainer, modifyFields, mapContainer]
  exact ⟨s', hrun, ModuleFromName_qualified (mapContainer ℕ) (fun _ => true) hrun (by decide) none⟩

/-- **A plain name is looked up through the namespaces the depending module's
namespace reads**, the first holding it winning.  In every state a run
reaches, the root reads itself, then every namespace added that is exported to
Kati, in the order added; any other namespace whose imports were resolved
reads itself, then the namespaces of the directories of its imports in order,
each the namespace `lookupRef` gives that directory, up to the first import
whose directory was not in the map, and then the root when there was none. -/
theorem ModuleFromName_search (mc : ModuleContainer C G E)
    (namespaceExportFilter : Namespace → Bool)
    {ops : List (Op G)} {results : List (Result G E)}
    (hrun : (NewModuleResolver mc namespaceExportFilter).run ops = some (results, s))
    {name : String} (hplain : parseFullyQualifiedName name = none) {ns : Namespace}
    (hns : ns ∈ s.resolver.sortedNamespaces) {visible : List Namespace}
    (hvis : s.visibleOf ns = some visible) :
    s.ModuleFromName name (some ns) =
        some (visible.findSome? (fun c => s.container.moduleFromName (s.containerOf c) name), s) ∧
      (ns.Path = [] →
        visible = s.resolver.rootNamespace :: s.resolver.sortedNamespaces.filter (·.exportToKati)) ∧
      (ns.Path ≠ [] → Resolved s.resolver ns (s.fieldsOf ns).importedNamespaceNames visible) := by
  have h := ((NewModuleResolver_inv mc namespaceExportFilter).run hrun).1
  refine ⟨by simp [ModuleResolver.ModuleFromName, hplain, getNamespacesToSearchForModule, hvis],
    fun hroot => ?_, fun hroot => ?_⟩
  · -- the root's visible namespaces are the resolver's list
    rw [visibleOf, if_pos (hroot.trans h.resolver.root_path.symm), Option.some.injEq] at hvis
    rw [← hvis, h.root_visible]
  · rw [visibleOf, if_neg (fun hpath => hroot (hpath.trans h.resolver.root_path))] at hvis
    exact h.visible ns hns visible hvis

/-- A plain name from the root is searched in the root, then in the namespace
`c`, exported to Kati. -/
theorem ModuleFromName_search_root :
    ∃ s' : ModuleResolver (List (String × ℕ)) ℕ Unit,
      (NewModuleResolver (mapContainer ℕ) (fun _ => true)).run
        [.newModule ["c"] "Android.bp" (.soongNamespace []),
          .newModule ["c"] "Android.bp" (.module "m" 5)] =
          some ([.registered (.ok none), .registered (.ok (some ⟨["c"], true⟩))], s') ∧
      s'.ModuleFromName "m" (some ⟨[], true⟩) =
        some ([⟨[], true⟩, ⟨[], true⟩, ⟨["c"], true⟩].findSome?
          (fun c => s'.container.moduleFromName (s'.containerOf c) "m"), s') ∧
      (([] : List String) = [] → [⟨[], true⟩, ⟨[], true⟩, ⟨["c"], true⟩] =
        s'.resolver.rootNamespace :: s'.resolver.sortedNamespaces.filter (·.exportToKati)) ∧
      (([] : List String) ≠ [] → Resolved s'.resolver ⟨[], true⟩
        (s'.fieldsOf ⟨[], true⟩).importedNamespaceNames [⟨[], true⟩, ⟨[], true⟩, ⟨["c"], true⟩]) := by
  obtain ⟨s', hrun, hns, hvis⟩ : ∃ s' : ModuleResolver (List (String × ℕ)) ℕ Unit,
      (NewModuleResolver (mapContainer ℕ) (fun _ => true)).run
      [.newModule ["c"] "Android.bp" (.soongNamespace []),
        .newModule ["c"] "Android.bp" (.module "m" 5)] =
        some ([.registered (.ok none), .registered (.ok (some ⟨["c"], true⟩))], s') ∧
      ⟨[], true⟩ ∈ s'.resolver.sortedNamespaces ∧
      s'.visibleOf ⟨[], true⟩ = some [⟨[], true⟩, ⟨[], true⟩, ⟨["c"], true⟩] := by
    simp [NewModuleResolver, NewNameResolver, ModuleResolver.run, ModuleResolver.step, NewModule,
      NameResolver.addNamespace, NameResolver.newNamespace, NewNamespace, NameResolver.namespaceAt,
      NameResolver.Store, NameResolver.findNamespace, GoMap.get?, GoMap.set, containerOf, fieldsOf,
      GoMap.getD, NamespaceFields.new, setContainer, modifyFields, visibleOf, mapContainer]
  exact ⟨s', hrun, ModuleFromName_search (mapContainer ℕ) (fun _ => true) hrun (by decide) hns hvis⟩

/-- **The namespace mutator resolves the imports through the map of
directories, then numbers the namespace by its sorted position.**  In every
state a run reaches, the mutator on the module of a namespace other than the
root sets the namespaces it reads to itself, then the namespace of each
leading import whose directory is in the map, which is the namespace
`lookupRef` gives that directory, so that an import of a directory that only
holds modules reads the namespace it lies in; the first import whose directory
is not in the map stops it with its error, and the root comes last only when
every import resolved.  Then `chooseId` reads the namespaces sorted and sets
the namespace's id to its position in `sortedItems`. -/
theorem step_namespaceMutator (mc : ModuleContainer C G E)
    (namespaceExportFilter : Namespace → Bool)
    {ops : List (Op G)} {results : List (Result G E)}
    (hrun : (NewModuleResolver mc namespaceExportFilter).run ops = some (results, s))
    {ns : Namespace} (hns : ns ∈ s.resolver.sortedNamespaces) (hroot : ns.Path ≠ []) :
    ∃ i : ℕ, s.sortedItems[i]? = some ns ∧
      s.step (.namespaceMutator ns.Path) =
        some (.imported (((s.fieldsOf ns).importedNamespaceNames.find?
            fun t => !inMap s.resolver t).map importError),
          ({ s.setVisible ns (ns :: ((s.fieldsOf ns).importedNamespaceNames.takeWhile
              (inMap s.resolver)).filterMap (namespaceOfText s.resolver) ++
            if (s.fieldsOf ns).importedNamespaceNames.all (inMap s.resolver) then
              [s.resolver.rootNamespace] else []) with sorted := true }).setId ns
            (strconv.Itoa i)) := by
  have h := ((NewModuleResolver_inv mc namespaceExportFilter).run hrun).1
  obtain ⟨i, hidx, hi⟩ := findIdx?_sortedItems hns
  refine ⟨i, hi, ?_⟩
  simp [ModuleResolver.step, h.resolver.registered ns hns, hroot, FindNamespaceImports_eq h,
    chooseId, index, setVisible, hidx]

/-- Namespace `a` imports `c/d`, a directory of namespace `c` that only holds a
module: the mutator on `a` reads `c`. -/
theorem step_namespaceMutator_cached :
    ∃ s' : ModuleResolver (List (String × ℕ)) ℕ Unit,
      (NewModuleResolver (mapContainer ℕ) (fun _ => true)).run
        [.newModule ["c"] "Android.bp" (.soongNamespace []),
          .newModule ["c", "d"] "Android.bp" (.module "m" 5),
          .newModule ["a"] "Android.bp" (.soongNamespace ["c/d"])] =
          some ([.registered (.ok none), .registered (.ok (some ⟨["c"], true⟩)),
            .registered (.ok none)], s') ∧
      ∃ i : ℕ, s'.sortedItems[i]? = some ⟨["a"], true⟩ ∧
        s'.step (.namespaceMutator ["a"]) =
          some (.imported (((s'.fieldsOf ⟨["a"], true⟩).importedNamespaceNames.find?
              fun t => !inMap s'.resolver t).map importError),
            ({ s'.setVisible ⟨["a"], true⟩ ((⟨["a"], true⟩ : Namespace) ::
                ((s'.fieldsOf ⟨["a"], true⟩).importedNamespaceNames.takeWhile
                  (inMap s'.resolver)).filterMap (namespaceOfText s'.resolver) ++
              if (s'.fieldsOf ⟨["a"], true⟩).importedNamespaceNames.all (inMap s'.resolver) then
                [s'.resolver.rootNamespace] else []) with sorted := true }).setId ⟨["a"], true⟩
              (strconv.Itoa i)) := by
  obtain ⟨s', hrun, hns⟩ : ∃ s' : ModuleResolver (List (String × ℕ)) ℕ Unit,
      (NewModuleResolver (mapContainer ℕ) (fun _ => true)).run
      [.newModule ["c"] "Android.bp" (.soongNamespace []),
        .newModule ["c", "d"] "Android.bp" (.module "m" 5),
        .newModule ["a"] "Android.bp" (.soongNamespace ["c/d"])] =
        some ([.registered (.ok none), .registered (.ok (some ⟨["c"], true⟩)),
          .registered (.ok none)], s') ∧
      ⟨["a"], true⟩ ∈ s'.resolver.sortedNamespaces := by
    simp [NewModuleResolver, NewNameResolver, ModuleResolver.run, ModuleResolver.step, NewModule,
      NameResolver.addNamespace, NameResolver.newNamespace, NewNamespace, NameResolver.namespaceAt,
      NameResolver.Store, NameResolver.findNamespace, GoMap.get?, GoMap.set, containerOf, fieldsOf,
      GoMap.getD, NamespaceFields.new, setContainer, modifyFields, mapContainer]
  exact ⟨s', hrun, step_namespaceMutator (mapContainer ℕ) (fun _ => true) hrun hns (by decide)⟩

/-! ### Panics -/

/-- Under the invariant a lookup never panics: no entry of the map is nil. -/
theorem Inv.ModuleFromName_ne_none (h : s.Inv) (name : String) (fromNamespace : Option Namespace) :
    s.ModuleFromName name fromNamespace ≠ none := by
  cases hp : parseFullyQualifiedName name with
  | some p =>
    obtain ⟨nsName, moduleName⟩ := p
    cases hat : s.resolver.namespaceAt (dirOfText nsName) with
    | none => simp [ModuleResolver.ModuleFromName, hp, hat]
    | some v =>
      cases v with
      | none => exact absurd hat (h.resolver.ne_some_none _)
      | some ns => simp [ModuleResolver.ModuleFromName, hp, hat]
  | none => simp [ModuleResolver.ModuleFromName, hp]

/-- Under the invariant the lookup of a directory finds the namespace
`lookupRef` gives it, the root at worst, and never nil. -/
theorem Inv.findNamespace_eq_some (h : s.Inv) (dir : List String) :
    ∃ ns r, s.resolver.findNamespace dir = (some ns, r) ∧
      lookupRef s.resolver.sortedNamespaces dir = some ns := by
  obtain ⟨ns, hns⟩ := Option.ne_none_iff_exists'.1 (lookupRef_ne_none h.resolver.hroot dir)
  have hanswer := (NameResolver.findNamespace_spec h.resolver dir).answer
  rw [hns] at hanswer
  exact ⟨ns, _, Prod.ext hanswer rfl, hns⟩

/-- Under the invariant registering a module never panics. -/
theorem Inv.NewModule_module_ne_none (h : s.Inv) (dir : List String) (fileName name : String)
    (g : G) : s.NewModule dir fileName (.module name g) ≠ none := by
  obtain ⟨ns, r, hfind, -⟩ := h.findNamespace_eq_some dir
  cases hc : s.container.newModule (s.containerOf ns) name g <;> simp [NewModule, hfind, hc]

/-- Under the invariant a unique name never panics. -/
theorem Inv.UniqueName_ne_none (h : s.Inv) (dir : List String) (name : String) :
    s.UniqueName dir name ≠ none := by
  obtain ⟨ns, r, hfind, -⟩ := h.findNamespace_eq_some dir
  simp [ModuleResolver.UniqueName, hfind]

/-- Under the invariant a `soong_namespace` module panics exactly when it
declares, in an `Android.bp` file, a namespace at a directory out of the map
after the namespaces were read sorted. -/
theorem Inv.NewModule_soongNamespace_eq_none_iff (h : s.Inv) (dir : List String)
    (fileName : String) (imports : List String) :
    s.NewModule dir fileName (.soongNamespace imports) = none ↔
      fileName = "Android.bp" ∧ s.sorted = true ∧ s.resolver.namespaceAt dir = none := by
  have hpath : (s.resolver.newNamespace dir).Path = dir := rfl
  by_cases hf : fileName = "Android.bp"
  · cases hat : s.resolver.namespaceAt dir with
    | none =>
      -- the namespace is added, and only the sorted flag can make it panic
      cases hs : s.sorted <;> simp [NewModule, hf, NameResolver.addNamespace, hpath, hat, hs]
    | some v =>
      cases v with
      | none => exact absurd hat (h.resolver.ne_some_none _)
      | some existing =>
        by_cases he : existing.Path = dir <;>
          simp [NewModule, hf, NameResolver.addNamespace, hpath, hat, he]
  · simp [NewModule, hf]

/-- Under the invariant an operation panics exactly when it declares a
namespace, in an `Android.bp` file, at a directory out of the map after the
namespaces were read sorted. -/
theorem Inv.step_none_iff (h : s.Inv) (op : Op G) :
    s.step op = none ↔ ∃ dir imports, op = .newModule dir "Android.bp" (.soongNamespace imports) ∧
      s.sorted = true ∧ s.resolver.namespaceAt dir = none := by
  cases op with
  | newModule dir fileName m =>
    cases m with
    | soongNamespace imports =>
      rw [ModuleResolver.step, Option.map_eq_none_iff, h.NewModule_soongNamespace_eq_none_iff]
      constructor
      · rintro ⟨rfl, hs, hat⟩
        exact ⟨dir, imports, rfl, hs, hat⟩
      · rintro ⟨dir', imports', heq, hs, hat⟩
        simp only [Op.newModule.injEq, ModuleKind.soongNamespace.injEq] at heq
        obtain ⟨rfl, rfl, rfl⟩ := heq
        exact ⟨rfl, hs, hat⟩
    | nameless => simp [ModuleResolver.step, NewModule]
    | module name g =>
      simp [ModuleResolver.step, h.NewModule_module_ne_none]
  | namespaceMutator dir =>
    -- the mutator runs `FindNamespaceImports` and `chooseId`, which never panic
    simp only [ModuleResolver.step, reduceCtorEq, false_and, exists_false, iff_false]
    split
    · rename_i ns hat
      split
      · rename_i hcond
        obtain ⟨i, hidx, -⟩ := findIdx?_sortedItems (h.mem_of_namespaceAt hat hcond.1)
        simp [FindNamespaceImports_eq h, chooseId, index, ModuleResolver.setVisible, hidx]
      · simp
    · simp
  | moduleFromName name fromNamespace =>
    simp [ModuleResolver.step, h.ModuleFromName_ne_none]
  | uniqueName dir name =>
    simp [ModuleResolver.step, h.UniqueName_ne_none]
  | missingDependencyError depender dependerNamespace depName =>
    simp [ModuleResolver.step]
  | rename oldName newName ns =>
    simp only [ModuleResolver.step, reduceCtorEq, false_and, exists_false, iff_false]
    split <;> simp

/-- **A run panics only by declaring a namespace after a sorted read.**  From
every state a run from `NewModuleResolver` reaches, an operation panics
exactly when it is a `soong_namespace` module in an `Android.bp` file at a
directory out of the map, once a lookup read the namespaces sorted:
`sortedNamespaces.add` then panics.  No registration of a module, lookup of a
name, resolution of imports or rename panics; in particular no nil entry of
the map is ever read. -/
theorem step_eq_none_iff (mc : ModuleContainer C G E)
    (namespaceExportFilter : Namespace → Bool) {ops : List (Op G)} {results : List (Result G E)}
    (hrun : (NewModuleResolver mc namespaceExportFilter).run ops = some (results, s)) (op : Op G) :
    s.step op = none ↔ ∃ dir imports, op = .newModule dir "Android.bp" (.soongNamespace imports) ∧
      s.sorted = true ∧ s.resolver.namespaceAt dir = none :=
  ((NewModuleResolver_inv mc namespaceExportFilter).run hrun).1.step_none_iff op

/-- A lookup for a module of no namespace reads the namespaces sorted; a
namespace declared after it panics. -/
theorem step_eq_none_iff_after_sorted_read :
    ∃ (results : List (Result ℕ Unit)) (s' : ModuleResolver (List (String × ℕ)) ℕ Unit),
      (NewModuleResolver (mapContainer ℕ) (fun _ => true)).run [.moduleFromName "m" none] =
        some (results, s') ∧
      (s'.step (.newModule ["a"] "Android.bp" (.soongNamespace [])) = none ↔
        ∃ dir imports, (.newModule ["a"] "Android.bp" (.soongNamespace []) : Op ℕ) =
            .newModule dir "Android.bp" (.soongNamespace imports) ∧
          s'.sorted = true ∧ s'.resolver.namespaceAt dir = none) := by
  obtain ⟨results, s', hrun⟩ : ∃ (results : List (Result ℕ Unit))
      (s' : ModuleResolver (List (String × ℕ)) ℕ Unit),
      (NewModuleResolver (mapContainer ℕ) (fun _ => true)).run [.moduleFromName "m" none] =
        some (results, s') := by
    have hp : parseFullyQualifiedName "m" = none := by decide
    simp [hp, ModuleResolver.run, ModuleResolver.step, ModuleResolver.ModuleFromName]
  exact ⟨results, s', hrun, step_eq_none_iff (mapContainer ℕ) (fun _ => true) hrun _⟩

/-! ### Unique names -/

/-- Under the invariant `UniqueName` puts the id of the namespace `lookupRef`
gives the directory before the name. -/
theorem Inv.UniqueName_fst (h : s.Inv) {dir : List String} {ns : Namespace}
    (hns : lookupRef s.resolver.sortedNamespaces dir = some ns) (name : String) :
    (s.UniqueName dir name).map Prod.fst =
      some ((if (s.fieldsOf ns).id ≠ "" then (s.fieldsOf ns).id ++ "-" else (s.fieldsOf ns).id) ++
        name) := by
  obtain ⟨ns', r, hfind, hlook⟩ := h.findNamespace_eq_some dir
  obtain rfl : ns' = ns := Option.some.inj (hlook.symm.trans hns)
  simp [ModuleResolver.UniqueName, hfind]

/-- A set id is the text of the namespace's position in `sortedItems`. -/
theorem Inv.id_eq_Itoa (h : s.Inv) {ns : Namespace} (hns : ns ∈ s.resolver.sortedNamespaces)
    (hid : (s.fieldsOf ns).id ≠ "") :
    ∃ i : ℕ, s.sortedItems[i]? = some ns ∧ (s.fieldsOf ns).id = strconv.Itoa i := by
  rcases h.ids ns hns with hempty | ⟨-, i, hi, hidi⟩
  · exact absurd hempty hid
  · exact ⟨i, hi, hidi⟩

/-- **Unique names of modules of numbered namespaces are distinct.**  In every
state a run reaches, two modules whose directories belong to namespaces that
the namespace mutator numbered get the same unique name only when they are in
the same namespace under the same name: an id is the decimal text of the
namespace's position in `sortedItems`, which has no `-`, and no two
namespaces share a position. -/
theorem UniqueName_injective (mc : ModuleContainer C G E)
    (namespaceExportFilter : Namespace → Bool)
    {ops : List (Op G)} {results : List (Result G E)}
    (hrun : (NewModuleResolver mc namespaceExportFilter).run ops = some (results, s))
    {dir₁ dir₂ : List String} {ns₁ ns₂ : Namespace}
    (hns₁ : lookupRef s.resolver.sortedNamespaces dir₁ = some ns₁)
    (hns₂ : lookupRef s.resolver.sortedNamespaces dir₂ = some ns₂)
    (hid₁ : (s.fieldsOf ns₁).id ≠ "") (hid₂ : (s.fieldsOf ns₂).id ≠ "") {name₁ name₂ : String}
    (heq : (s.UniqueName dir₁ name₁).map Prod.fst = (s.UniqueName dir₂ name₂).map Prod.fst) :
    ns₁ = ns₂ ∧ name₁ = name₂ := by
  have h := ((NewModuleResolver_inv mc namespaceExportFilter).run hrun).1
  obtain ⟨i₁, hi₁, he₁⟩ := h.id_eq_Itoa (isLongest_of_lookupRef hns₁).1 hid₁
  obtain ⟨i₂, hi₂, he₂⟩ := h.id_eq_Itoa (isLongest_of_lookupRef hns₂).1 hid₂
  rw [h.UniqueName_fst hns₁, h.UniqueName_fst hns₂, if_pos hid₁, if_pos hid₂, he₁, he₂,
    Option.some.injEq] at heq
  -- the ids are digits, so the first `-` ends them
  obtain ⟨hids, hnames⟩ := strings.append_singleton_append_inj (c := '-')
    (strconv.minus_not_mem_Itoa i₁) (strconv.minus_not_mem_Itoa i₂) heq
  have hi : i₁ = i₂ := by exact_mod_cast strconv.Itoa_injective hids
  subst hi
  rw [hi₁, Option.some.injEq] at hi₂
  exact ⟨hi₂, hnames⟩

/-- After the mutator numbered namespace `a`, its modules' unique names are
told apart by the names. -/
theorem UniqueName_injective_numbered :
    ∃ s' : ModuleResolver (List (String × ℕ)) ℕ Unit,
      (NewModuleResolver (mapContainer ℕ) (fun _ => true)).run
        [.newModule ["a"] "Android.bp" (.soongNamespace []),
          .newModule ["a"] "Android.bp" (.module "m" 7),
          .namespaceMutator ["a"]] =
          some ([.registered (.ok none), .registered (.ok (some ⟨["a"], true⟩)), .imported none], s') ∧
      (⟨["a"], true⟩ : Namespace) = ⟨["a"], true⟩ ∧ "m" = "m" := by
  obtain ⟨s', hrun, hns, hid⟩ : ∃ s' : ModuleResolver (List (String × ℕ)) ℕ Unit,
      (NewModuleResolver (mapContainer ℕ) (fun _ => true)).run
      [.newModule ["a"] "Android.bp" (.soongNamespace []),
        .newModule ["a"] "Android.bp" (.module "m" 7),
        .namespaceMutator ["a"]] =
        some ([.registered (.ok none), .registered (.ok (some ⟨["a"], true⟩)), .imported none], s') ∧
      lookupRef s'.resolver.sortedNamespaces ["a"] = some ⟨["a"], true⟩ ∧
      (s'.fieldsOf ⟨["a"], true⟩).id ≠ "" := by
    -- `decide` runs the sort of `chooseId` over the two namespaces
    simp +decide [NewModuleResolver, NewNameResolver, ModuleResolver.run, ModuleResolver.step,
      NewModule, NameResolver.addNamespace, NameResolver.newNamespace, NewNamespace,
      NameResolver.namespaceAt, NameResolver.Store, NameResolver.findNamespace, GoMap.get?, GoMap.set,
      containerOf, fieldsOf, GoMap.getD, NamespaceFields.new, setContainer, modifyFields,
      FindNamespaceImports, importsLoop, setVisible, chooseId, index, setId, lookupRef, mapContainer]
  exact ⟨s', hrun, UniqueName_injective (mapContainer ℕ) (fun _ => true) hrun hns hns hid hid rfl⟩

end ModuleResolver

end Soong
