import CodeIndex.Semantic.Naming
import CodeIndex.Syntactic.Naming
import Mathlib.Data.List.Basic

/-!
# Names of modules

Both indexers name a module by its path: they look for the first directory of a search path with
which the path begins, and what is left of the path is the name. Only the text is compared. So a
directory is also taken for one that holds the file if its name is merely the beginning of another
name, as `stdlib/3` is of `stdlib/3.7`.

## What is proved

* `Path.componentsBelow?_eq_some` — the components of a name are what is left of the path below the
  first directory that fits.
* `Path.leadsTo_iff` — they lead from that directory to the file just if one slash stands between
  the directory and what is left.
* `modules_named_from_directories` — so it is for the modules of both indexers.
* `module_naming_fails_for_bare_markers` — a name is never empty and has no empty element. Naming
  fails in one case only: the semantic indexer does not expect that nothing but the marker of a
  package is left.
-/

namespace CodeIndex

/-! ### Components -/

/-- The names of the elements, the outermost first. -/
def QualifiedName.names (q : QualifiedName) : List String := q.elements.map NameElement.name

@[simp] theorem QualifiedName.names_dotted (ns : List String) : (dotted ns).names = ns := by
  simp [names, dotted, Function.comp_def]

namespace Path

/-- Names that can be the components of a path: there is one, none is empty, and none holds a
slash. -/
structure AreComponents (ns : List String) : Prop where
  ne_nil : ns ≠ []
  ne_empty : ∀ n ∈ ns, n ≠ ""
  no_slash : ∀ n ∈ ns, '/' ∉ n.toList

/-- The text of components with slashes between them. -/
def joined (ns : List String) : List Char := ['/'].intercalate (ns.map String.toList)

theorem toList_intercalate (ns : List String) : (String.intercalate "/" ns).toList = joined ns :=
  String.toList_intercalate

/-- Components begin with something other than a slash. -/
theorem AreComponents.head?_joined {ns : List String} (h : AreComponents ns) :
    ∃ x tail, joined ns = x :: tail ∧ x ≠ '/' := by
  cases ns with
  | nil => exact absurd rfl h.ne_nil
  | cons n ns =>
    cases hn : n.toList with
    | nil => exact absurd (String.toList_eq_nil_iff.mp hn) (h.ne_empty n (by simp))
    | cons x tail =>
      have other : x ≠ '/' := by
        rintro rfl
        exact h.no_slash n (by simp) (by simp [hn])
      cases ns with
      | nil => exact ⟨x, tail, by simp [joined, hn], other⟩
      | cons m ns =>
        exact ⟨x, tail ++ '/' :: joined (m :: ns),
          by simp [joined, hn, List.intercalate_cons_cons], other⟩

/-- The last components, with the slash before them, are at the end. -/
theorem suffix_joined (as : List String) {bs : List String} (h : bs ≠ []) :
    '/' :: joined bs <:+ '/' :: joined (as ++ bs) := by
  induction as with
  | nil => exact List.suffix_refl _
  | cons a as ih =>
    obtain ⟨c, cs, hcs⟩ := List.exists_cons_of_ne_nil (List.append_ne_nil_of_right_ne_nil as h)
    have step : joined (a :: (as ++ bs)) = a.toList ++ '/' :: joined (as ++ bs) := by
      simp [joined, hcs, List.intercalate_cons_cons]
    rw [List.cons_append, step]
    exact ih.trans ⟨'/' :: a.toList, rfl⟩

theorem slash_notMem_of_mem_splitOn {cs c : List Char} (h : c ∈ cs.splitOn '/') : '/' ∉ c := by
  induction cs generalizing c with
  | nil =>
    obtain rfl := List.mem_singleton.mp h
    simp
  | cons x xs ih =>
    rw [List.splitOn_cons_eq_if_modifyHead] at h
    split at h
    · rcases List.mem_cons.mp h with rfl | h
      · simp
      · exact ih h
    · rename_i other
      obtain ⟨d, ds, hxs⟩ := List.exists_cons_of_ne_nil (List.splitOn_ne_nil '/' xs)
      rw [hxs, List.modifyHead_cons] at h
      rcases List.mem_cons.mp h with rfl | h
      · have rest : '/' ∉ d := ih (by simp [hxs])
        intro slash
        rcases List.mem_cons.mp slash with rfl | slash
        · exact other rfl
        · exact rest slash
      · exact ih (by simp [hxs, h])

/-! ### Directories above a path -/

/-- The first of the directories with whose text the path begins, such that something is left. -/
def firstAbove? (roots : List String) (p : String) : Option String :=
  roots.find? fun root => (below? root p).isSome

/-- What is left of a path below a directory. -/
theorem below?_eq_some {root p : String} {rest : List Char} (h : below? root p = some rest) :
    rest ≠ [] ∧ (root.toList.isPrefixOf? p.toList = some ('/' :: rest) ∨
      root.toList.isPrefixOf? p.toList = some rest ∧ rest.head? ≠ some '/') := by
  unfold below? at h
  split at h
  · cases h
  · rename_i left hleft
    split at h
    · cases h
    · rename_i nonempty
      obtain rfl := Option.some.inj h
      exact ⟨by simpa using nonempty, .inl hleft⟩
  · rename_i left other hleft
    split at h
    · cases h
    · rename_i nonempty
      obtain rfl := Option.some.inj h
      refine ⟨by simpa using nonempty, .inr ⟨hleft, fun slash => ?_⟩⟩
      obtain ⟨tail, rfl⟩ := List.head?_eq_some_iff.mp slash
      exact other tail rfl

theorem below?_of_append {root p : String} {rest : List Char} (h : p.toList = root.toList ++ rest)
    (nonempty : rest ≠ []) (begins : rest.head? ≠ some '/') : below? root p = some rest := by
  have left : root.toList.isPrefixOf? p.toList = some rest :=
    List.isPrefixOf?_eq_some_iff_append_eq.mpr h.symm
  cases rest with
  | nil => exact absurd rfl nonempty
  | cons x tail =>
    have other : x ≠ '/' := by simpa using begins
    unfold below?
    rw [left]
    split
    · next none => cases none
    · next slash => exact absurd (List.cons.inj (Option.some.inj slash)).1 other
    · next found =>
      obtain rfl := Option.some.inj found
      rfl

theorem below?_of_append_slash {root p : String} {rest : List Char}
    (h : p.toList = root.toList ++ '/' :: rest) (nonempty : rest ≠ []) :
    below? root p = some rest := by
  have left : root.toList.isPrefixOf? p.toList = some ('/' :: rest) :=
    List.isPrefixOf?_eq_some_iff_append_eq.mpr h.symm
  unfold below?
  rw [left]
  simp [nonempty]

/-- After the directory `d` and one slash, if there is one, `rest` is left of the path `p`, and is
not empty. -/
structure Leaves (d p rest : String) : Prop where
  nonempty : rest ≠ ""
  path : p = d ++ "/" ++ rest ∨ p = d ++ rest ∧ rest.toList.head? ≠ some '/'

theorem leaves_iff {d p rest : String} : Leaves d p rest ↔ below? d p = some rest.toList := by
  constructor
  · rintro ⟨nonempty, path⟩
    have full : rest.toList ≠ [] := fun empty => nonempty (String.toList_eq_nil_iff.mp empty)
    rcases path with rfl | ⟨rfl, begins⟩
    · exact below?_of_append_slash (by simp) full
    · exact below?_of_append (by simp) full begins
  · intro left
    obtain ⟨full, left | ⟨left, begins⟩⟩ := below?_eq_some left
    · refine ⟨fun empty => full (by rw [empty]; rfl), .inl ?_⟩
      rw [← String.toList_inj, ← List.append_eq_of_isPrefixOf?_eq_some left]
      simp
    · refine ⟨fun empty => full (by rw [empty]; rfl), .inr ⟨?_, begins⟩⟩
      rw [← String.toList_inj, ← List.append_eq_of_isPrefixOf?_eq_some left, String.toList_append]

theorem leaves_of_below? {d p : String} {rest : List Char} (left : below? d p = some rest) :
    Leaves d p (String.ofList rest) := leaves_iff.mpr (by rw [left, String.toList_ofList])

theorem Leaves.isPrefix {d p rest : String} (h : Leaves d p rest) : d.toList <+: p.toList := by
  rcases h.path with rfl | ⟨rfl, -⟩ <;> simp

theorem findSome?_below (roots : List String) (p : String) :
    roots.findSome? (below? · p) = (firstAbove? roots p).bind (below? · p) := by
  unfold firstAbove?
  induction roots with
  | nil => rfl
  | cons root roots ih =>
    rw [List.findSome?_cons, List.find?_cons]
    cases h : below? root p with
    | none => exact ih
    | some rest => simp [h]

/-- The components are what is left of the path below the first directory that fits. -/
theorem componentsBelow?_eq_some {roots : List String} {p : String} {cs : List String}
    (h : componentsBelow? roots p = some cs) :
    AreComponents cs ∧
      ∃ root, firstAbove? roots p = some root ∧ below? root p = some (joined cs) := by
  unfold componentsBelow? at h
  rw [findSome?_below] at h
  cases hroot : firstAbove? roots p with
  | none => simp [hroot] at h
  | some root =>
    cases hrest : below? root p with
    | none => simp [hroot, hrest] at h
    | some rest =>
      simp only [hroot, hrest, Option.bind_some] at h
      split at h
      · cases h
      · rename_i full
        obtain rfl := Option.some.inj h
        refine ⟨⟨?_, ?_, ?_⟩, root, rfl, ?_⟩
        · simp [List.splitOn_ne_nil]
        · intro n hn
          obtain ⟨c, hc, rfl⟩ := List.mem_map.mp hn
          rintro empty
          obtain rfl : c = [] := by simpa using empty
          exact full (by simpa using hc)
        · intro n hn
          obtain ⟨c, hc, rfl⟩ := List.mem_map.mp hn
          simpa using slash_notMem_of_mem_splitOn hc
        · have same : ((rest.splitOn '/').map String.ofList).map String.toList =
              rest.splitOn '/' := by simp
          rw [joined, same, List.intercalate_splitOn]
          exact hrest

/-! ### From a directory to a file -/

/-- The path without a slash at its end. -/
def withoutSlash (p : String) : String :=
  if p.toList.getLast? = some '/' then String.ofList p.toList.dropLast else p

/-- The names lead from the directory `root` to the file `stem`, which is given without its
extension: one component after the other, and in a package its marker at the end. -/
def LeadsTo (root stem : String) (names : List String) : Prop :=
  stem = withoutSlash root ++ "/" ++ String.intercalate "/" names ∨
    stem = withoutSlash root ++ "/" ++ String.intercalate "/" (names ++ ["__init__"])

instance (root stem : String) (names : List String) : Decidable (LeadsTo root stem names) :=
  inferInstanceAs (Decidable (_ ∨ _))

/-- The path begins with `root`, and exactly one slash stands between it and what is left: at its
end or after it. -/
def endsAtComponent (root p : String) : Bool :=
  match root.toList.isPrefixOf? p.toList with
  | none => false
  | some rest => (root.toList.getLast? = some '/') != (rest.head? = some '/')

/-- What comes after the directory and one slash. -/
theorem eq_withoutSlash_iff {root stem : String} {ns : List String} {rest : List Char}
    (hns : AreComponents ns) (left : root.toList.isPrefixOf? stem.toList = some rest) :
    stem = withoutSlash root ++ "/" ++ String.intercalate "/" ns ↔
      endsAtComponent root stem = true ∧
        (rest = joined ns ∨ rest = '/' :: joined ns) := by
  obtain ⟨x, tail, hx, other⟩ := hns.head?_joined
  have split := List.append_eq_of_isPrefixOf?_eq_some left
  rw [← String.toList_inj, String.toList_append, String.toList_append, toList_intercalate, ← split,
    endsAtComponent, left]
  by_cases slash : root.toList.getLast? = some '/'
  · -- the slash belongs to the directory
    obtain ⟨front, hfront⟩ := List.getLast?_eq_some_iff.mp slash
    have without : (withoutSlash root).toList ++ "/".toList = root.toList := by
      simp [withoutSlash, hfront]
    rw [without, List.append_cancel_left_eq, hx]
    simp only [slash, decide_true]
    constructor
    · rintro rfl
      simp [other]
    · rintro ⟨one, rfl | rfl⟩
      · rfl
      · simp at one
  · have without : (withoutSlash root).toList = root.toList := by simp [withoutSlash, slash]
    rw [without, List.append_assoc, List.append_cancel_left_eq, hx]
    simp only [slash, decide_false]
    constructor
    · rintro rfl
      simp
    · rintro ⟨one, rfl | rfl⟩
      · simp [other] at one
      · rfl

/-- Components may be followed by the marker of a package. -/
theorem AreComponents.marked {ns : List String} (h : AreComponents ns) :
    AreComponents (ns ++ ["__init__"]) := by
  refine ⟨by simp, fun n hn => ?_, fun n hn => ?_⟩
  · rcases List.mem_append.mp hn with hn | hn
    · exact h.ne_empty n hn
    · obtain rfl := List.mem_singleton.mp hn
      decide
  · rcases List.mem_append.mp hn with hn | hn
    · exact h.no_slash n hn
    · obtain rfl := List.mem_singleton.mp hn
      decide

/-- What is left below a directory is all that comes after it and one slash, if it ends where a
component does. -/
theorem eq_withoutSlash_of_below {root stem : String} {cs : List String} (hcs : AreComponents cs)
    (below : below? root stem = some (joined cs)) (ends : endsAtComponent root stem = true) :
    stem = withoutSlash root ++ "/" ++ String.intercalate "/" cs := by
  obtain ⟨-, left | ⟨left, -⟩⟩ := below?_eq_some below
  · exact (eq_withoutSlash_iff hcs left).mpr ⟨ends, .inr rfl⟩
  · exact (eq_withoutSlash_iff hcs left).mpr ⟨ends, .inl rfl⟩

/-- The components of a name lead from the directory to the file just if the directory ends where a
component does. -/
theorem leadsTo_iff {root stem : String} {cs ns : List String} (hcs : AreComponents cs)
    (hns : AreComponents ns) (below : below? root stem = some (joined cs))
    (named : endsAtComponent root stem = true → cs = ns ∨ cs = ns ++ ["__init__"]) :
    LeadsTo root stem ns ↔ endsAtComponent root stem = true := by
  constructor
  · obtain ⟨rest, left⟩ : ∃ rest, root.toList.isPrefixOf? stem.toList = some rest := by
      obtain ⟨-, left | ⟨left, -⟩⟩ := below?_eq_some below
      · exact ⟨_, left⟩
      · exact ⟨_, left⟩
    rintro (leads | leads)
    · exact ((eq_withoutSlash_iff hns left).mp leads).1
    · exact ((eq_withoutSlash_iff hns.marked left).mp leads).1
  · intro ends
    have leads := eq_withoutSlash_of_below hcs below ends
    rcases named ends with rfl | rfl
    · exact .inl leads
    · exact .inr leads

end Path

/-! ### The names of modules -/

/-- The components without the marker of a package at their end, if it is there. -/
def Unmarked (left own : List String) : Prop :=
  left = own ++ ["__init__"] ∨ left = own ∧ left.getLast? ≠ some "__init__"

/-- The names come from the first directory that fits. They are made, in the way of the indexer, of
the components that are left below it, whether or not it ends where a component of the path does.
They lead from it to the file just if it does. -/
def NamedBelow (become : List String → List String → Prop) (roots : List String) (stem : String)
    (names : List String) : Prop :=
  ∃ root ∈ roots, Path.firstAbove? roots stem = some root ∧
    (∃ left own, Path.AreComponents left ∧ Path.Leaves root stem (String.intercalate "/" left) ∧
      Unmarked left own ∧ become own names) ∧
    (Path.LeadsTo root stem names ↔ Path.endsAtComponent root stem = true)

/-- A marker at the end is all that is dropped. -/
theorem unmarked_dropPackageMarker (cs : List String) : Unmarked cs (dropPackageMarker cs) := by
  unfold dropPackageMarker
  split
  · rename_i marked
    obtain ⟨front, rfl⟩ := List.getLast?_eq_some_iff.mp marked
    exact .inl (by simp)
  · rename_i plain
    exact .inr ⟨rfl, plain⟩

theorem dropPackageMarker_cases (cs : List String) :
    cs = dropPackageMarker cs ∨ cs = dropPackageMarker cs ++ ["__init__"] := by
  rcases unmarked_dropPackageMarker cs with marked | ⟨same, -⟩
  · exact .inr marked
  · exact .inl same

/-- What is left after dropping the marker are components, if it is anything. -/
theorem Path.AreComponents.dropPackageMarker {cs : List String} (h : AreComponents cs)
    (left : CodeIndex.dropPackageMarker cs ≠ []) :
    AreComponents (CodeIndex.dropPackageMarker cs) := by
  have sub : CodeIndex.dropPackageMarker cs ⊆ cs := by
    unfold CodeIndex.dropPackageMarker
    split
    · exact List.dropLast_subset cs
    · exact List.Subset.refl cs
  exact ⟨left, fun n hn => h.ne_empty n (sub hn), fun n hn => h.no_slash n (sub hn)⟩

theorem areComponents_virtualModule : Path.AreComponents virtualModule.names :=
  ⟨by decide, by decide, by decide⟩

/-- A name that is made of the components, but perhaps for the marker of a package, comes from the
first directory that fits. -/
theorem namedBelow_of_components {become : List String → List String → Prop} {roots : List String}
    {stem : String} {cs ns : List String} (h : Path.componentsBelow? roots stem = some cs)
    (hns : Path.AreComponents ns) (made : become (dropPackageMarker cs) ns)
    (named : ∀ root, stem = Path.withoutSlash root ++ "/" ++ String.intercalate "/" cs →
      cs = ns ∨ cs = ns ++ ["__init__"]) : NamedBelow become roots stem ns := by
  obtain ⟨hcs, root, first, below⟩ := Path.componentsBelow?_eq_some h
  have left : Path.Leaves root stem (String.intercalate "/" cs) :=
    Path.leaves_iff.mpr (by rw [below, Path.toList_intercalate])
  refine ⟨root, List.mem_of_find?_eq_some first, first,
    ⟨cs, _, hcs, left, unmarked_dropPackageMarker cs, made⟩, ?_⟩
  exact Path.leadsTo_iff hcs hns below fun ends =>
    named root (Path.eq_withoutSlash_of_below hcs below ends)

namespace Syntactic

/-- The path by which a file is named, without its extension. -/
def stem (s : Source) (path : String) : String :=
  let full := (Path.absolute s.workingDirectory path).toList
  String.ofList ((".py".toList.isSuffixOf? full).getD full)

theorem moduleName_some {s : Source} {path : String} (real : path ≠ virtualFile) :
    moduleName s (some path) = (Path.componentsBelow? s.searchPath (stem s path)).bind
      fun components => QualifiedName.dotted? (dropPackageMarker components) := by
  simp only [moduleName, if_neg real, stem]
  split
  · next missing => rw [missing, Option.bind_none]
  · next found => rw [found, Option.bind_some]

/-- Where the name of a module comes from. -/
theorem moduleName_eq_some {s : Source} {path : String} {q : QualifiedName}
    (real : path ≠ virtualFile) (h : moduleName s (some path) = some q) :
    ∃ cs, Path.componentsBelow? s.searchPath (stem s path) = some cs ∧
      dropPackageMarker cs ≠ [] ∧ q.names = dropPackageMarker cs := by
  rw [moduleName_some real] at h
  obtain ⟨cs, hcs, h⟩ := Option.bind_eq_some_iff.mp h
  cases hns : dropPackageMarker cs with
  | nil => simp [hns, QualifiedName.dotted?] at h
  | cons n ns =>
    obtain rfl : QualifiedName.dotted (n :: ns) = q := by
      simpa [hns, QualifiedName.dotted?] using h
    exact ⟨cs, hcs, by simp [hns], by simp [hns]⟩

/-- A module is named by components of its path. -/
theorem areComponents_moduleName {s : Source} {path : Option String} {q : QualifiedName}
    (h : moduleName s path = some q) : Path.AreComponents q.names := by
  cases path with
  | none => cases h
  | some path =>
    by_cases real : path = virtualFile
    · obtain rfl : virtualModule = q := by simpa [moduleName, real] using h
      exact areComponents_virtualModule
    · obtain ⟨cs, hcs, nonempty, hq⟩ := moduleName_eq_some real h
      rw [hq]
      exact (Path.componentsBelow?_eq_some hcs).1.dropPackageMarker nonempty

theorem namedBelow_moduleName {s : Source} {path : String} {q : QualifiedName}
    (real : path ≠ virtualFile) (h : moduleName s (some path) = some q) :
    NamedBelow Eq s.searchPath (stem s path) q.names := by
  obtain ⟨cs, hcs, -, hq⟩ := moduleName_eq_some real h
  refine namedBelow_of_components hcs (areComponents_moduleName h) hq.symm fun root _ => ?_
  rw [hq]
  exact dropPackageMarker_cases cs

end Syntactic

namespace Semantic

/-- The path by which a file is named, without its extension. -/
def Setting.stem (s : Setting) (path : String) : String :=
  Path.dropExtension (Path.absolute s.source.workingDirectory path)

/-- The directories below which modules are named. -/
def Setting.directories (s : Setting) : List String := s.stubDirectories ++ s.source.searchPath

/-- The file is that of the built-in functions, which have a module name of their own. -/
def NamesBuiltins (stem : String) : Prop :=
  "/__builtin__".toList <:+ stem.toList ∨ "/__builtin__/__init__".toList <:+ stem.toList

instance (stem : String) : Decidable (NamesBuiltins stem) :=
  inferInstanceAs (Decidable (_ ∨ _))

/-- The names that components become: the module of the built-in functions is called otherwise, and
its new name comes first. -/
def Become (own names : List String) : Prop :=
  if own.getLast? = some "__builtin__" then names = "builtins" :: own.dropLast else names = own

instance (own names : List String) : Decidable (Become own names) :=
  inferInstanceAs (Decidable (ite _ _ _))

/-- The naming by components fails just if there is none. -/
theorem nameOfComponents_eq_error {ds : List String} {fault : Fault} :
    Setting.nameOfComponents ds = .error fault ↔ fault = .outOfRange ∧ ds = [] := by
  rcases List.eq_nil_or_concat ds with rfl | ⟨front, last, rfl⟩
  · simp [Setting.nameOfComponents, eq_comm]
  · simp [Setting.nameOfComponents]

theorem nameOfComponents_eq_ok {ds : List String} {q : QualifiedName}
    (h : Setting.nameOfComponents ds = .ok (some q)) :
    ∃ front last, ds = front ++ [last] ∧
      q.names = if last = "__builtin__" then "builtins" :: front else ds := by
  rcases List.eq_nil_or_concat ds with rfl | ⟨front, last, rfl⟩
  · simp [Setting.nameOfComponents] at h
  · refine ⟨front, last, by simp, ?_⟩
    simp only [Setting.nameOfComponents, List.concat_eq_append, List.getLast?_concat,
      List.dropLast_concat, Except.ok.injEq, Option.some.injEq] at h
    rw [← h, QualifiedName.names_dotted, List.concat_eq_append]

/-- The naming of a module by its path. -/
theorem Setting.moduleName_some (s : Setting) {path : String} (real : path ≠ virtualFile) :
    s.moduleName (some path) =
      match Path.componentsBelow? s.directories (s.stem path) with
      | none => .ok none
      | some components => nameOfComponents (dropPackageMarker components) := by
  simp only [moduleName, if_neg real]
  rfl

/-- Where the name of a module comes from. -/
theorem Setting.moduleName_eq_ok {s : Setting} {path : String} {q : QualifiedName}
    (real : path ≠ virtualFile) (h : s.moduleName (some path) = .ok (some q)) :
    ∃ cs front last, Path.componentsBelow? s.directories (s.stem path) = some cs ∧
      dropPackageMarker cs = front ++ [last] ∧
      q.names = if last = "__builtin__" then "builtins" :: front else front ++ [last] := by
  rw [s.moduleName_some real] at h
  cases hcs : Path.componentsBelow? s.directories (s.stem path) with
  | none => simp [hcs] at h
  | some cs =>
    rw [hcs] at h
    obtain ⟨front, last, hds, hq⟩ := nameOfComponents_eq_ok h
    exact ⟨cs, front, last, rfl, hds, hds ▸ hq⟩

/-- A module is named by components of its path. -/
theorem Setting.areComponents_moduleName {s : Setting} {path : Option String} {q : QualifiedName}
    (h : s.moduleName path = .ok (some q)) : Path.AreComponents q.names := by
  cases path with
  | none => simp [moduleName] at h
  | some path =>
    by_cases real : path = virtualFile
    · obtain rfl : virtualModule = q := by simpa [moduleName, real] using h
      exact areComponents_virtualModule
    · obtain ⟨cs, front, last, hcs, hds, hq⟩ := moduleName_eq_ok real h
      have parts := (Path.componentsBelow?_eq_some hcs).1.dropPackageMarker (by simp [hds])
      rw [hds] at parts
      rw [hq]
      split
      · exact ⟨by simp, by simpa using fun n hn => parts.ne_empty n (by simp [hn]),
          by simpa using fun n hn => parts.no_slash n (by simp [hn])⟩
      · exact parts

/-- The components of the file of the built-in functions. -/
theorem namesBuiltins_of_components {stem root : String} {cs front : List String}
    (hstem : stem = Path.withoutSlash root ++ "/" ++ String.intercalate "/" cs)
    (hcs : dropPackageMarker cs = front ++ ["__builtin__"]) : NamesBuiltins stem := by
  have ends : '/' :: Path.joined cs <:+ stem.toList := by
    rw [hstem, String.toList_append, String.toList_append, Path.toList_intercalate,
      List.append_assoc]
    exact List.suffix_append _ _
  rcases dropPackageMarker_cases cs with same | marked
  · rw [same, hcs] at ends
    exact .inl ((Path.suffix_joined front (by simp)).trans ends)
  · rw [marked, hcs, List.append_assoc] at ends
    exact .inr ((Path.suffix_joined front (by simp)).trans ends)

theorem Setting.namedBelow_moduleName {s : Setting} {path : String} {q : QualifiedName}
    (real : path ≠ virtualFile) (other : ¬ NamesBuiltins (s.stem path))
    (h : s.moduleName (some path) = .ok (some q)) :
    NamedBelow Become s.directories (s.stem path) q.names := by
  obtain ⟨cs, front, last, hcs, hds, hq⟩ := moduleName_eq_ok real h
  have made : Become (dropPackageMarker cs) q.names := by
    rw [hds, hq]
    by_cases builtin : last = "__builtin__" <;> simp [Become, builtin]
  refine namedBelow_of_components hcs (areComponents_moduleName h) made fun root hstem => ?_
  have own : last ≠ "__builtin__" := by
    rintro rfl
    exact other (namesBuiltins_of_components hstem hds)
  rw [hq, if_neg own, ← hds]
  exact dropPackageMarker_cases cs

/-- Naming fails just if nothing but the marker of a package is left below the first directory that
fits. -/
theorem Setting.moduleName_eq_error {s : Setting} {path : String} {fault : Fault}
    (real : path ≠ virtualFile) :
    s.moduleName (some path) = .error fault ↔ fault = .outOfRange ∧
      ∃ root, Path.firstAbove? s.directories (s.stem path) = some root ∧
        Path.below? root (s.stem path) = some "__init__".toList := by
  rw [s.moduleName_some real]
  constructor
  · intro failed
    cases hcs : Path.componentsBelow? s.directories (s.stem path) with
    | none => simp [hcs] at failed
    | some cs =>
      rw [hcs] at failed
      obtain ⟨rfl, nothing⟩ := nameOfComponents_eq_error.mp failed
      obtain ⟨parts, root, first, below⟩ := Path.componentsBelow?_eq_some hcs
      rcases dropPackageMarker_cases cs with same | marked
      · exact absurd (same.trans nothing) parts.ne_nil
      · rw [marked, nothing] at below
        exact ⟨rfl, root, first, below⟩
  · rintro ⟨rfl, root, first, below⟩
    have marker : Path.componentsBelow? s.directories (s.stem path) = some ["__init__"] := by
      rw [Path.componentsBelow?, Path.findSome?_below, first, Option.bind_some, below]
      decide
    rw [marker]
    rfl

end Semantic

/-! ### Both indexers -/

/-- The modules of both indexers are named from the first directory that fits, by what is left of
the path below it, and their names lead from it to the file just if it ends where a component of the
path does. -/
theorem modules_named_from_directories (source : Source) (s : Semantic.Setting) (path : String)
    (q : QualifiedName) (real : path ≠ virtualFile) :
    (Syntactic.moduleName source (some path) = some q →
      NamedBelow Eq source.searchPath (Syntactic.stem source path) q.names) ∧
    (¬ Semantic.NamesBuiltins (s.stem path) → s.moduleName (some path) = .ok (some q) →
      NamedBelow Semantic.Become s.directories (s.stem path) q.names) :=
  ⟨Syntactic.namedBelow_moduleName real, Semantic.Setting.namedBelow_moduleName real⟩

/-- A package in a directory of the search path, and a module among the stub files. -/
theorem package_and_stub_named_from_directories :
    let s : Semantic.Setting := ⟨⟨"/w", virtualFile, ["/w", "/lib/"]⟩, 3, 7, "/stubs", ⟨[]⟩, false⟩
    Syntactic.moduleName s.source (some "/lib/json/__init__.py") = some (.dotted ["json"]) ∧
    NamedBelow Eq s.source.searchPath (Syntactic.stem s.source "/lib/json/__init__.py") ["json"] ∧
    ¬ Semantic.NamesBuiltins (s.stem "/stubs/3/json/decoder.pyi") ∧
    s.moduleName (some "/stubs/3/json/decoder.pyi") = .ok (some (.dotted ["json", "decoder"])) ∧
    NamedBelow Semantic.Become s.directories (s.stem "/stubs/3/json/decoder.pyi")
      ["json", "decoder"] := by
  intro s
  have package : Syntactic.moduleName s.source (some "/lib/json/__init__.py") =
      some (.dotted ["json"]) := by decide +kernel
  have other : ¬ Semantic.NamesBuiltins (s.stem "/stubs/3/json/decoder.pyi") := by
    decide +kernel
  have stub : s.moduleName (some "/stubs/3/json/decoder.pyi") =
      .ok (some (.dotted ["json", "decoder"])) := by decide +kernel
  exact ⟨package, (modules_named_from_directories _ s _ _ (by decide)).1 package, other, stub,
    (modules_named_from_directories s.source _ _ _ (by decide)).2 other stub⟩

/-- A stub file in the directory of a minor version, and a module in a directory whose name begins
with that of another one. Neither name leads from any directory to the file. -/
theorem names_cut_within_components :
    let s : Semantic.Setting :=
      ⟨⟨"/w", virtualFile, ["/w", "/w_old"]⟩, 3, 7, "/stubs", ⟨[]⟩, false⟩
    let stub := "/stubs/3.7/dataclasses.pyi"
    let old := "/w_old/m.py"
    (s.moduleName (some stub) = .ok (some (.dotted [".7", "dataclasses"])) ∧
      ¬ Semantic.NamesBuiltins (s.stem stub) ∧
      Path.LeadsTo "/stubs/3.7" (s.stem stub) ["dataclasses"] ∧ "/stubs/3.7" ∈ s.directories ∧
      ∀ root ∈ s.directories, ¬ Path.LeadsTo root (s.stem stub) [".7", "dataclasses"]) ∧
    Syntactic.moduleName s.source (some old) = some (.dotted ["_old", "m"]) ∧
      "/w_old" ∈ s.source.searchPath ∧
      ∀ root ∈ s.source.searchPath,
        ¬ Path.LeadsTo root (Syntactic.stem s.source old) ["_old", "m"] := by
  intro s stub old
  decide +kernel

/-- A module's name has an element, and none of its elements is empty. Naming fails just if nothing
but the marker of a package is left below the first directory that fits, and only in the semantic
indexer. -/
theorem module_naming_fails_for_bare_markers (source : Source) (s : Semantic.Setting)
    (path : Option String) :
    (∀ q, Syntactic.moduleName source path = some q → q.names ≠ [] ∧ "" ∉ q.names) ∧
    (∀ q, s.moduleName path = .ok (some q) → q.names ≠ [] ∧ "" ∉ q.names) ∧
    ∀ fault, s.moduleName path = .error fault ↔ fault = .outOfRange ∧
      ∃ file, path = some file ∧ file ≠ virtualFile ∧
        ∃ root, Path.firstAbove? s.directories (s.stem file) = some root ∧
          Path.below? root (s.stem file) = some "__init__".toList := by
  refine ⟨fun q h => ?_, fun q h => ?_, fun fault => ?_⟩
  · have parts := Syntactic.areComponents_moduleName h
    exact ⟨parts.ne_nil, fun empty => parts.ne_empty "" empty rfl⟩
  · have parts := Semantic.Setting.areComponents_moduleName h
    exact ⟨parts.ne_nil, fun empty => parts.ne_empty "" empty rfl⟩
  · cases path with
    | none => simp [Semantic.Setting.moduleName]
    | some path =>
      by_cases real : path = virtualFile
      · simp [Semantic.Setting.moduleName, real]
      · simp [Semantic.Setting.moduleName_eq_error real, real]

/-- A module directly in a directory of the search path has a name of one element. -/
theorem module_directly_in_directory_named :
    let s : Semantic.Setting := ⟨⟨"/w", virtualFile, ["/lib"]⟩, 3, 7, "/stubs", ⟨[]⟩, false⟩
    Syntactic.moduleName s.source (some "/lib/json.py") = some (.dotted ["json"]) ∧
    s.moduleName (some "/lib/json.py") = .ok (some (.dotted ["json"])) ∧
    (QualifiedName.dotted ["json"]).names ≠ [] ∧ "" ∉ (QualifiedName.dotted ["json"]).names := by
  intro s
  have named : Syntactic.moduleName s.source (some "/lib/json.py") = some (.dotted ["json"]) := by
    decide +kernel
  have alike : s.moduleName (some "/lib/json.py") = .ok (some (.dotted ["json"])) := by
    decide +kernel
  exact ⟨named, alike, ((module_naming_fails_for_bare_markers _ s _).1 _ named).1,
    ((module_naming_fails_for_bare_markers s.source _ _).2.1 _ alike).2⟩

/-- The marker of a package that lies directly in a directory of the search path has no name in the
syntactic indexer, and the semantic one fails. -/
theorem bare_marker_not_named :
    let s : Semantic.Setting := ⟨⟨"/w", virtualFile, ["/lib"]⟩, 3, 7, "/stubs", ⟨[]⟩, false⟩
    Syntactic.moduleName s.source (some "/lib/__init__.py") = none ∧
      s.moduleName (some "/lib/__init__.py") = .error .outOfRange := by
  intro s
  exact ⟨by decide +kernel, by decide +kernel⟩

end CodeIndex
