import CodeIndex.Proofs.CallLog
import CodeIndex.Proofs.NormalPaths
import CodeIndex.Semantic.Visit
import CodeIndex.Syntactic.Visit

/-!
# Package roots

A file belongs to the package of its directory, if that has a marker file, and the package to that
of the directory around it, and so on upwards. The root of the package is the first directory on the
way that has no marker. It is the first directory of the search path, so the file is named by its
path from there.

The search for the root goes on for ever if the root directory of the file system has a marker, too,
and `GoesUp` is the search as a loop that may do so. `FileSystem.packageRoot?` looks at the same
directories, but only once.

## What is proved

* `packageRoot?_eq_some_iff` — the two are the same.
* `exists_goesUp_iff`, `nearest_of_goesUp` — when the search ends, and where.
* `modules_named_below_package_root` — so it is for every file, and both indexers record it under
  the components of its path below the root.
-/

namespace CodeIndex

namespace FileSystem

/-- The name of the marker of a package. -/
def marker : String := "__init__.py"

/-- The directory has the marker of a package. -/
def isPackage (fs : FileSystem) (d : String) : Bool := fs.holds (Path.join d marker)

/-- The search for a package root that has come to the directory `d` ends at `r`: a directory with a
marker makes it go on with the directory around it. -/
inductive GoesUp (fs : FileSystem) : String → String → Prop where
  /-- The directory is no package. -/
  | stop {d : String} (h : fs.isPackage d = false) : GoesUp fs d d
  /-- It is one. -/
  | up {d r : String} (h : fs.isPackage d = true) (rest : GoesUp fs (Path.directory d) r) :
      GoesUp fs d r

/-! ### The search ends -/

/-- The path of a directory begins that of what is in it. -/
theorem directory_isPrefix (p : String) : (Path.directory p).toList <+: p.toList := by
  have ends : ∀ l : List Char, l <:+ p.toList.reverse → l.reverse <+: p.toList := by
    intro l h
    have reversed := List.reverse_prefix.mpr h
    rwa [List.reverse_reverse] at reversed
  unfold Path.directory
  extract_lets head
  have suffix : head <:+ p.toList.reverse := List.dropWhile_suffix _
  rw [String.toList_ofList]
  split
  · exact ends head suffix
  · exact ends _ ((List.dropWhile_suffix _).trans suffix)

theorem length_directory_lt {p : String} (h : Path.directory p ≠ p) :
    (Path.directory p).length < p.length := by
  have shorter := directory_isPrefix p
  rw [← String.length_toList, ← String.length_toList]
  refine lt_of_le_of_ne shorter.length_le fun same => h ?_
  exact String.toList_inj.mp (shorter.eq_of_length same)

variable {fs : FileSystem}

/-- A directory that is its own directory keeps the search from ending if it has a marker. -/
theorem not_goesUp {d r : String} (h : fs.isPackage d = true) (itself : Path.directory d = d) :
    ¬ fs.GoesUp d r := by
  intro goes
  induction goes with
  | stop other =>
    rw [h] at other
    cases other
  | up _ _ ih => exact ih (by rwa [itself]) (by rw [itself, itself])

theorem goesUp_of_not_isPackage {d r : String} (h : fs.isPackage d = false) :
    fs.GoesUp d r ↔ d = r := by
  constructor
  · intro goes
    cases goes with
    | stop => rfl
    | up isPackage =>
      rw [h] at isPackage
      cases isPackage
  · rintro rfl
    exact .stop h

theorem goesUp_of_isPackage {d r : String} (h : fs.isPackage d = true) :
    fs.GoesUp d r ↔ fs.GoesUp (Path.directory d) r := by
  constructor
  · intro goes
    cases goes with
    | stop other =>
      rw [h] at other
      cases other
    | up _ rest => exact rest
  · exact .up h

theorem find?_singleton {d r : String} (itself : Path.directory d = d) :
    [d].find? (fun d => !fs.isPackage d) = some r ↔ fs.GoesUp d r := by
  cases h : fs.isPackage d with
  | false => simp [h, goesUp_of_not_isPackage]
  | true => simp [h, not_goesUp h itself]

theorem find?_directoriesUpTo {fuel : Nat} {d r : String} (enough : d.length ≤ fuel) :
    (Path.directoriesUpTo fuel d).find? (fun d => !fs.isPackage d) = some r ↔ fs.GoesUp d r := by
  induction fuel generalizing d with
  | zero =>
    obtain rfl : d = "" := String.length_eq_zero_iff.mp (by omega)
    exact find?_singleton rfl
  | succ fuel ih =>
    unfold Path.directoriesUpTo
    by_cases itself : Path.directory d = d
    · rw [if_pos itself]
      exact find?_singleton itself
    · have shorter := length_directory_lt itself
      have rest := ih (d := Path.directory d) (by omega)
      rw [if_neg itself, List.find?_cons]
      cases h : fs.isPackage d with
      | false => simp [goesUp_of_not_isPackage h]
      | true => simpa [goesUp_of_isPackage h] using rest

/-- The directories that are looked at once are those of the search. -/
theorem packageRoot?_eq_some_iff {d r : String} : fs.packageRoot? d = some r ↔ fs.GoesUp d r :=
  find?_directoriesUpTo (Nat.le_refl _)

/-! ### Where it ends -/

open CodeIndex.Path in
/-- The search ends if one of the directories has no marker. -/
theorem exists_goesUp_iff (b : Bool) {as : List String} (h : ∀ a ∈ as, IsComponent a) :
    (∃ r, fs.GoesUp (rooted b as) r) ↔ ∃ cs, cs <+: as ∧ fs.isPackage (rooted b cs) = false := by
  induction as using List.reverseRecOn with
  | nil =>
    have itself : directory (rooted b []) = rooted b [] := by cases b <;> rfl
    cases top : fs.isPackage (rooted b []) with
    | false => exact ⟨fun _ => ⟨[], List.prefix_refl _, top⟩, fun _ => ⟨_, .stop top⟩⟩
    | true =>
      constructor
      · rintro ⟨r, goes⟩
        exact absurd goes (not_goesUp top itself)
      · rintro ⟨cs, isPrefix, other⟩
        obtain rfl := List.prefix_nil.mp isPrefix
        rw [top] at other
        cases other
  | append_singleton as a ih =>
    have earlier : ∀ a ∈ as, IsComponent a := fun a ha => h a (by simp [ha])
    cases here : fs.isPackage (rooted b (as ++ [a])) with
    | false => exact ⟨fun _ => ⟨_, List.prefix_refl _, here⟩, fun _ => ⟨_, .stop here⟩⟩
    | true =>
      have rest := ih earlier
      simp only [goesUp_of_isPackage here, directory_rooted b (h a (by simp)) earlier, rest]
      constructor
      · rintro ⟨cs, isPrefix, other⟩
        exact ⟨cs, List.prefix_append_of_prefix isPrefix, other⟩
      · rintro ⟨cs, isPrefix, other⟩
        rcases List.prefix_concat_iff.mp isPrefix with rfl | isPrefix
        · rw [here] at other
          cases other
        · exact ⟨cs, isPrefix, other⟩

open CodeIndex.Path in
/-- The search ends at the nearest directory without a marker. -/
theorem nearest_of_goesUp (b : Bool) {as : List String} (h : ∀ a ∈ as, IsComponent a) {r : String}
    (goes : fs.GoesUp (rooted b as) r) :
    ∃ cs, cs <+: as ∧ r = rooted b cs ∧ fs.isPackage r = false ∧
      ∀ ds, ds <+: as → cs <+: ds → cs ≠ ds → fs.isPackage (rooted b ds) = true := by
  induction as using List.reverseRecOn with
  | nil =>
    cases goes with
    | stop other =>
      refine ⟨[], List.prefix_refl _, rfl, other, fun ds below _ apart => ?_⟩
      exact absurd (List.prefix_nil.mp below).symm apart
    | up isPackage rest =>
      have itself : directory (rooted b []) = rooted b [] := by cases b <;> rfl
      exact absurd (GoesUp.up isPackage rest) (not_goesUp isPackage itself)
  | append_singleton as a ih =>
    have earlier : ∀ a ∈ as, IsComponent a := fun a ha => h a (by simp [ha])
    cases goes with
    | stop other =>
      refine ⟨_, List.prefix_refl _, rfl, other, fun ds below above apart => ?_⟩
      exact absurd (above.eq_of_length_le below.length_le) apart
    | up isPackage rest =>
      rw [directory_rooted b (h a (by simp)) earlier] at rest
      obtain ⟨cs, below, hr, other, between⟩ := ih earlier rest
      refine ⟨cs, List.prefix_append_of_prefix below, hr, other, fun ds hds above apart => ?_⟩
      rcases List.prefix_concat_iff.mp hds with rfl | hds
      · exact isPackage
      · exact between ds hds above apart

end FileSystem

/-! ### Names below the package root -/

/-- The names of the file `stem` inside the packages `above`: the file of the marker is the package
itself. -/
def modulePath (above : List String) (stem : String) : List String :=
  if stem = "__init__" then above else above ++ [stem]

theorem dropPackageMarker_concat (above : List String) (stem : String) :
    dropPackageMarker (above ++ [stem]) = modulePath above stem := by
  unfold dropPackageMarker modulePath
  simp

section Names

open CodeIndex.Path

variable {b : Bool} {cs above : List String} {stem : String}

theorem isComponent_stem (h : IsComponent (stem ++ ".py")) (named : ∃ x ∈ stem.toList, x ≠ '.') :
    IsComponent stem := by
  obtain ⟨x, hx, -⟩ := named
  refine ⟨?_, fun slash => h.no_slash (by simp [slash])⟩
  rintro rfl
  cases hx

theorem areComponents_stem (h : ∀ n ∈ cs ++ above ++ [stem ++ ".py"], IsProper n)
    (named : ∃ x ∈ stem.toList, x ≠ '.') : AreComponents (above ++ [stem]) := by
  have components : ∀ n ∈ cs ++ above ++ [stem ++ ".py"], IsComponent n :=
    fun n hn => (h n hn).toIsComponent
  refine areComponents_iff.mpr ⟨by simp, List.forall_mem_append.mpr ⟨?_, ?_⟩⟩
  · exact fun n hn => components n (by simp [hn])
  · simpa using isComponent_stem (components _ (by simp)) named

/-- The file with its extension. -/
theorem toList_rooted_stem (b : Bool) (as : List String) (stem : String) :
    (rooted b (as ++ [stem])).toList ++ ".py".toList =
      (rooted b (as ++ [stem ++ ".py"])).toList := by
  rw [toList_rooted_append b as (by simp), toList_rooted_append b as (by simp), joined_singleton,
    joined_singleton, String.toList_append, List.append_assoc]

theorem absolute_rooted (cwd : String) (h : ∀ n ∈ cs, IsProper n) :
    absolute cwd (rooted b cs) = rooted b cs := by
  rw [absolute, if_pos (isAbsolute_rooted b cs), normalize_rooted b h]

theorem rooted_ne_virtualFile (b : Bool) (cs : List String) : rooted b cs ≠ virtualFile := by
  intro same
  have absolute := isAbsolute_rooted b cs
  rw [same] at absolute
  cases absolute

/-- The syntactic indexer drops the extension. -/
theorem Syntactic.stem_rooted (source : Source) (h : ∀ n ∈ cs ++ [stem ++ ".py"], IsProper n) :
    Syntactic.stem source (rooted b (cs ++ [stem ++ ".py"])) = rooted b (cs ++ [stem]) := by
  have cut : ".py".toList.isSuffixOf? (rooted b (cs ++ [stem ++ ".py"])).toList =
      some (rooted b (cs ++ [stem])).toList :=
    List.isSuffixOf?_eq_some_iff_append_eq.mpr (toList_rooted_stem b cs stem)
  rw [Syntactic.stem, absolute_rooted _ h, cut, Option.getD_some, String.ofList_toList]

/-- The semantic indexer drops the same, if something other than dots stands before it. -/
theorem Semantic.Setting.stem_rooted (s : Semantic.Setting)
    (h : ∀ n ∈ cs ++ [stem ++ ".py"], IsProper n) (named : ∃ x ∈ stem.toList, x ≠ '.') :
    s.stem (rooted b (cs ++ [stem ++ ".py"])) = rooted b (cs ++ [stem]) := by
  have last : IsComponent (stem ++ ".py") := (h _ (by simp)).toIsComponent
  rw [Semantic.Setting.stem, absolute_rooted _ h, dropExtension_rooted b last,
    dropExtension_append (isComponent_stem last named).no_slash named]

variable {source : Source} {others : List String}

/-- The syntactic indexer names a file below the first directory of its search path. -/
theorem Syntactic.moduleName_rooted (first : source.searchPath = rooted b cs :: others)
    (h : ∀ n ∈ cs ++ above ++ [stem ++ ".py"], IsProper n)
    (named : ∃ x ∈ stem.toList, x ≠ '.') (left : modulePath above stem ≠ []) :
    Syntactic.moduleName source (some (rooted b (cs ++ above ++ [stem ++ ".py"]))) =
      some (.dotted (modulePath above stem)) := by
  rw [Syntactic.moduleName_some (rooted_ne_virtualFile b _), Syntactic.stem_rooted source h, first,
    List.append_assoc, componentsBelow?_rooted b cs (areComponents_stem h named), Option.bind_some,
    dropPackageMarker_concat]
  obtain ⟨n, ns, hns⟩ := List.exists_cons_of_ne_nil left
  rw [hns]
  rfl

/-- So does the semantic indexer, if no directory of stub files comes first and the module is not
that of the built-in functions. -/
theorem Semantic.Setting.moduleName_rooted (s : Semantic.Setting)
    (first : s.source.searchPath = rooted b cs :: others)
    (h : ∀ n ∈ cs ++ above ++ [stem ++ ".py"], IsProper n)
    (named : ∃ x ∈ stem.toList, x ≠ '.')
    (noStub : ∀ d ∈ s.stubDirectories,
      ¬ d.toList <+: (rooted b (cs ++ above ++ [stem ++ ".py"])).toList)
    {front : List String} {last : String} (ends : modulePath above stem = front ++ [last])
    (own : last ≠ "__builtin__") :
    s.moduleName (some (rooted b (cs ++ above ++ [stem ++ ".py"]))) =
      .ok (some (.dotted (modulePath above stem))) := by
  have apart : ∀ d ∈ s.stubDirectories,
      ¬ d.toList <+: (rooted b (cs ++ above ++ [stem])).toList := by
    intro d hd isPrefix
    apply noStub d hd
    rw [← toList_rooted_stem]
    exact List.prefix_append_of_prefix isPrefix
  have found : componentsBelow? s.directories (rooted b (cs ++ above ++ [stem])) =
      some (above ++ [stem]) := by
    rw [Semantic.Setting.directories, componentsBelow?_append apart, first, List.append_assoc,
      componentsBelow?_rooted b cs (areComponents_stem h named)]
  rw [s.moduleName_some (rooted_ne_virtualFile b _), s.stem_rooted h named, found]
  simp [dropPackageMarker_concat, ends, Semantic.Setting.nameOfComponents, own]

end Names

namespace FileSystem

/-- The directory `r` is the root of the package of the file `f`: the nearest directory around it
that has no marker. -/
structure IsPackageRoot (fs : FileSystem) (f r : String) : Prop where
  above : Path.IsAbove r f
  not_isPackage : fs.isPackage r = false
  nearest : ∀ d, Path.IsAbove d f → Path.IsAbove r d → fs.isPackage d = true

variable {fs : FileSystem}

open CodeIndex.Path

/-- The search from the directory of a file ends at the root of its package. -/
theorem isPackageRoot_of_goesUp {b : Bool} {as : List String} {n r : String}
    (h : ∀ m ∈ as ++ [n], IsProper m) (goes : fs.GoesUp (rooted b as) r) :
    fs.IsPackageRoot (rooted b (as ++ [n])) r := by
  have components : ∀ a ∈ as, IsComponent a := fun a ha => (h a (by simp [ha])).toIsComponent
  obtain ⟨cs, below, rfl, other, between⟩ := nearest_of_goesUp b components goes
  refine ⟨(isAbove_concat b h).mpr ⟨cs, below, rfl⟩, other, fun d around inside => ?_⟩
  obtain ⟨ds, hds, rfl⟩ := (isAbove_concat b h).mp around
  obtain ⟨cs', bs, nonempty, rfl, same⟩ :=
    (isAbove_rooted b fun m hm => h m (List.mem_append_left _ (hds.subset hm))).mp inside
  have parts : ∀ m ∈ cs', IsComponent m := fun m hm => components m (hds.subset (by simp [hm]))
  obtain ⟨-, rfl⟩ := rooted_inj (fun m hm => components m (below.subset hm)) parts same
  exact between _ hds (List.prefix_append _ _) (by simpa using nonempty)

theorem directory_of_isProper {b : Bool} {as : List String} {n : String}
    (h : ∀ m ∈ as ++ [n], IsProper m) : directory (rooted b (as ++ [n])) = rooted b as := by
  apply directory_rooted
  · exact (h n (by simp)).toIsComponent
  · exact fun a ha => (h a (by simp [ha])).toIsComponent

/-- The source is located if the search ends. -/
theorem locate_eq_ok {p path root : String}
    (isPath : (if p = virtualFile then p else absolute fs.workingDirectory p) = path)
    (isRoot : fs.packageRoot? (directory path) = some root) (directories : List String) :
    Source.locate fs p directories =
      .ok ⟨fs.workingDirectory, path, (root :: directories).filter fun d => !d.isEmpty⟩ := by
  subst isPath
  simp only [Source.locate, isRoot]

/-- A source that is located has a package root, which is the first directory of its search path. -/
theorem exists_root_of_locate {p : String} {directories : List String} {source : Source}
    (h : Source.locate fs p directories = .ok source) :
    ∃ root, fs.packageRoot? (directory source.path) = some root ∧
      source = ⟨fs.workingDirectory,
        if p = virtualFile then p else absolute fs.workingDirectory p,
        (root :: directories).filter fun d => !d.isEmpty⟩ := by
  unfold Source.locate at h
  extract_lets path at h
  split at h
  · cases h
  · next root found =>
    obtain rfl := Except.ok.inj h
    exact ⟨root, found, rfl⟩

theorem locate_rooted {b : Bool} {as : List String} {n r : String}
    (h : ∀ m ∈ as ++ [n], IsProper m) (goes : fs.GoesUp (rooted b as) r)
    (directories : List String) :
    Source.locate fs (rooted b (as ++ [n])) directories =
      .ok ⟨fs.workingDirectory, rooted b (as ++ [n]),
        (r :: directories).filter fun d => !d.isEmpty⟩ := by
  refine locate_eq_ok ?_ ?_ directories
  · rw [if_neg (rooted_ne_virtualFile b _), absolute_rooted _ h]
  · rw [directory_of_isProper h]
    exact packageRoot?_eq_some_iff.mpr goes

/-- Without an end of the search no source is located. -/
theorem locate_eq_error {b : Bool} {as : List String} {n : String}
    (h : ∀ m ∈ as ++ [n], IsProper m) (endless : ∀ r, ¬ fs.GoesUp (rooted b as) r)
    (directories : List String) :
    Source.locate fs (rooted b (as ++ [n])) directories = .error .unending := by
  have missing : fs.packageRoot? (rooted b as) = none :=
    Option.eq_none_iff_forall_ne_some.mpr fun r found =>
      endless r (packageRoot?_eq_some_iff.mp found)
  simp only [Source.locate, if_neg (rooted_ne_virtualFile b _), absolute_rooted _ h,
    directory_of_isProper h, missing]

/-- A marker that exists is not directly in the root of its package. -/
theorem above_ne_nil_of_marker {b : Bool} {cs above : List String}
    (h : ∀ a ∈ cs ++ above, IsComponent a) (other : fs.isPackage (rooted b cs) = false)
    (isFile : fs.holds (rooted b (cs ++ above ++ [marker])) = true) : above ≠ [] := by
  rintro rfl
  rw [List.append_nil] at h isFile
  rw [isPackage, join_rooted b h ⟨by decide, by decide⟩, isFile] at other
  cases other

end FileSystem

/-- The beginning of a run that records the module under the given names. -/
def startAs {ρ : Type} [Recorder ρ] (source : Source) (names : List String) : Indexing ρ Unit := do
  startFile source
  startModule (some (.dotted names))

section Begin

open CodeIndex.Path

variable {b : Bool} {cs above : List String} {stem : String} {source : Source}
  {others : List String} (first : source.searchPath = rooted b cs :: others)
  (located : source.path = rooted b (cs ++ above ++ [stem ++ ".py"]))
  (proper : ∀ n ∈ cs ++ above ++ [stem ++ ".py"], IsProper n) (named : ∃ x ∈ stem.toList, x ≠ '.')
  (left : modulePath above stem ≠ [])
include first located proper named left

/-- The syntactic indexer begins with the module below the first directory of the search path. -/
theorem begin_syntactic {ρ : Type} [Recorder ρ] (verbose : Bool) :
    (Syntactic.begin ⟨source, verbose⟩ : Indexing ρ Unit) =
      startAs source (modulePath above stem) := by
  have name := Syntactic.moduleName_rooted first proper named left
  rw [Syntactic.begin, start_eq, located, name]
  rfl

/-- So does the semantic indexer. -/
theorem begin_semantic {ρ : Type} [Recorder ρ] {s : Semantic.Setting} (hs : s.source = source)
    (noStub : ∀ d ∈ s.stubDirectories, ¬ d.toList <+: source.path.toList)
    (own : (modulePath above stem).getLast? ≠ some "__builtin__") :
    (s.begin : Indexing ρ Unit) = startAs source (modulePath above stem) := by
  subst hs
  obtain ⟨front, last, ends⟩ := (List.eq_nil_or_concat' (modulePath above stem)).resolve_left left
  rw [ends, List.getLast?_concat] at own
  have name := s.moduleName_rooted first proper named (by rwa [← located]) ends
    fun same => own (congrArg some same)
  rw [Semantic.Setting.begin, start_eq, located, name]
  rfl

end Begin

/-- The search for the package root of a file ends if a directory around the file has no marker, and
then at the nearest such directory. Both indexers record the file as the module that is named by the
way from there to the file. The semantic one does so provided that the file is not below a directory
of stub files and that the module is not called `__builtin__`. -/
theorem modules_named_below_package_root (fs : FileSystem) (f : String) (directories : List String)
    (absolute : Path.isAbsolute f = true) (normal : Path.normalize f = f)
    (isFile : Path.baseName f ≠ "") (exist : fs.holds f = true) :
    ((∃ r, fs.GoesUp (Path.directory f) r) ↔
      ∃ d, Path.IsAbove d f ∧ fs.isPackage d = false) ∧
    ((∀ r, ¬ fs.GoesUp (Path.directory f) r) →
      Source.locate fs f directories = .error .unending) ∧
    ∀ r, fs.GoesUp (Path.directory f) r →
      fs.IsPackageRoot f r ∧
      ∃ source, Source.locate fs f directories = .ok source ∧ source.path = f ∧
        ∀ stem, Path.baseName f = stem ++ ".py" → (∃ x ∈ stem.toList, x ≠ '.') →
          ∃ above, Path.AreComponents (above ++ [stem ++ ".py"]) ∧
            f = Path.withoutSlash r ++ "/" ++ String.intercalate "/" (above ++ [stem ++ ".py"]) ∧
            (∀ (ρ : Type) [Recorder ρ] (verbose : Bool),
              (Syntactic.begin ⟨source, verbose⟩ : Indexing ρ Unit) =
                startAs source (modulePath above stem)) ∧
            ∀ s : Semantic.Setting, s.source = source →
              (∀ d ∈ s.stubDirectories, ¬ d.toList <+: f.toList) →
              (modulePath above stem).getLast? ≠ some "__builtin__" →
              ∀ (ρ : Type) [Recorder ρ],
                (s.begin : Indexing ρ Unit) = startAs source (modulePath above stem) := by
  obtain ⟨b, ns, proper, hf⟩ := Path.normalize_eq_rooted absolute
  rw [normal] at hf
  subst hf
  obtain ⟨as, n, rfl⟩ : ∃ as n, ns = as ++ [n] := by
    refine (List.eq_nil_or_concat' ns).resolve_left fun none => isFile ?_
    subst none
    cases b <;> rfl
  have components : ∀ m ∈ as ++ [n], Path.IsComponent m := fun m hm => (proper m hm).toIsComponent
  obtain ⟨has, hn⟩ := List.forall_mem_append.mp components
  have last : Path.IsComponent n := hn n List.mem_cons_self
  simp only [FileSystem.directory_of_isProper proper, Path.baseName_rooted b last]
  refine ⟨?_, fun endless => FileSystem.locate_eq_error proper endless directories,
    fun r goes => ⟨FileSystem.isPackageRoot_of_goesUp proper goes, _,
      FileSystem.locate_rooted proper goes directories, rfl, ?_⟩⟩
  · rw [FileSystem.exists_goesUp_iff b has]
    constructor
    · rintro ⟨cs, below, other⟩
      exact ⟨_, (Path.isAbove_concat b proper).mpr ⟨cs, below, rfl⟩, other⟩
    · rintro ⟨d, around, other⟩
      obtain ⟨cs, below, rfl⟩ := (Path.isAbove_concat b proper).mp around
      exact ⟨cs, below, other⟩
  · rintro stem rfl named
    obtain ⟨cs, ⟨above, rfl⟩, rfl, other, -⟩ := FileSystem.nearest_of_goesUp b has goes
    obtain ⟨hcs, habove⟩ := List.forall_mem_append.mp has
    have left : modulePath above stem ≠ [] := by
      unfold modulePath
      split
      · next marked =>
        subst marked
        exact FileSystem.above_ne_nil_of_marker has other exist
      · simp
    have first : ((Path.rooted b cs :: directories).filter fun d => !d.isEmpty) =
        Path.rooted b cs :: directories.filter fun d => !d.isEmpty := by
      refine List.filter_cons_of_pos ?_
      cases b <;> simp [Path.rooted, Path.lead]
    refine ⟨above, Path.areComponents_iff.mpr ⟨by simp, List.forall_mem_append.mpr ⟨habove, hn⟩⟩,
      ?_, fun ρ _ => begin_syntactic first rfl proper named left,
      fun s hs noStub own ρ _ => begin_semantic first rfl proper named left hs noStub own⟩
    rw [List.append_assoc, Path.rooted_append b hcs (by simp)]

/-- The module of a package inside another package. -/
theorem module_of_nested_package :
    let fs : FileSystem := ⟨"/", [], ["/w/p/__init__.py", "/w/p/q/__init__.py"]⟩
    let f := "/w/p/q/__init__.py"
    fs.IsPackageRoot f "/w" ∧
    ∃ source, Source.locate fs f ["/lib"] = .ok source ∧
      (Syntactic.begin ⟨source, false⟩ : Indexing Client Unit) = startAs source ["p", "q"] ∧
      (Semantic.Setting.begin ⟨source, 3, 7, "/stubs", ⟨[]⟩, false⟩ : Indexing Client Unit) =
        startAs source ["p", "q"] := by
  intro fs f
  have goes : fs.GoesUp (Path.directory f) "/w" :=
    FileSystem.packageRoot?_eq_some_iff.mp (by decide +kernel)
  obtain ⟨isRoot, source, located, -, names⟩ := (modules_named_below_package_root fs f ["/lib"]
    (by decide) (by decide +kernel) (by decide) (by decide)).2.2 "/w" goes
  obtain ⟨above, parts, path, syntactic, semantic⟩ := names "__init__" (by decide) ⟨'i', by decide⟩
  obtain rfl : ["p", "q"] = above := by
    have given : Path.AreComponents ["p", "q", "__init__.py"] :=
      ⟨by decide, by decide, by decide⟩
    have split : f = Path.withoutSlash "/w" ++ "/" ++
        String.intercalate "/" ["p", "q", "__init__.py"] := by decide
    have equal : ["p", "q"] ++ ["__init__.py"] = above ++ ["__init__.py"] :=
      given.intercalate_inj parts (String.append_right_inj _ |>.mp (split.symm.trans path))
    exact List.append_cancel_right equal
  refine ⟨isRoot, source, located, syntactic Client false, ?_⟩
  refine semantic ⟨source, 3, 7, "/stubs", ⟨[]⟩, false⟩ rfl ?_ (by decide) Client
  have stubs : ∀ d ∈ ["/stubs/2and3", "/stubs/3", "/stubs/3.7"], ¬ d.toList <+: f.toList := by
    decide
  exact stubs

end CodeIndex
