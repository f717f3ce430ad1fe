import CodeIndex.Environment
import CodeIndex.Proofs.PackageRoots

/-!
# The longest entry of the search path

The entries of an environment's search path are put in decreasing order before they are searched for
the first one that is above a file. All entries above one file are beginnings of its path, so of two
of them the longer one stands first: the file is named below the longest entry, in whatever order
the environment lists them.

## What is proved

* `exists_components_of_suffix` — what is left of a normal path after a beginning of it are
  components, too.
* `length_le_of_firstAbove?`, `firstAbove?_of_isLongest` — the first entry above a path is the
  longest one.
* `longest_entry_names_module` — the name of a module that is neither below a directory of stub
  files nor below the package root.
-/

namespace CodeIndex

namespace Path

/-! ### The end of a path -/

/-- The end of a path is made of components, but perhaps for a slash before them. -/
theorem exists_components_of_suffix {ns : List String} (h : ∀ n ∈ ns, IsComponent n)
    {rest : List Char} (ends : rest <:+ joined ns) (nonempty : rest ≠ []) :
    ∃ ms, AreComponents ms ∧ (rest = joined ms ∨ rest = '/' :: joined ms) := by
  have cut : ∀ {n : String} {part : List Char}, IsComponent n → part ⊆ n.toList → part ≠ [] →
      IsComponent (String.ofList part) := by
    intro n part hn sub full
    exact ⟨by simpa using full, fun slash => hn.no_slash (sub (by simpa using slash))⟩
  induction ns with
  | nil => exact absurd (List.suffix_nil.mp ends) nonempty
  | cons n ns ih =>
    have hn := h n List.mem_cons_self
    have hns : ∀ m ∈ ns, IsComponent m := fun m hm => h m (List.mem_cons_of_mem n hm)
    by_cases last : ns = []
    · subst last
      rw [joined_singleton] at ends
      refine ⟨[String.ofList rest], areComponents_iff.mpr ⟨by simp, ?_⟩, .inl (by simp)⟩
      simpa using cut hn ends.subset nonempty
    · obtain ⟨front, path⟩ := ends
      rw [joined_cons n last] at path
      rcases List.append_eq_append_iff.mp path with ⟨part, hpart, rfl⟩ | ⟨more, -, path⟩
      · by_cases empty : part = []
        · exact ⟨ns, areComponents_iff.mpr ⟨last, hns⟩, .inr (by simp [empty])⟩
        · refine ⟨String.ofList part :: ns, areComponents_iff.mpr ⟨by simp, ?_⟩, .inl ?_⟩
          · have sub : part ⊆ n.toList := fun x hx => by simp [hpart, hx]
            exact List.forall_mem_cons.mpr ⟨cut hn sub empty, hns⟩
          · rw [joined_cons _ last, String.toList_ofList]
      · cases more with
        | nil => exact ⟨ns, areComponents_iff.mpr ⟨last, hns⟩, .inr path.symm⟩
        | cons x more => exact ih hns ⟨more, (List.cons.inj path).2.symm⟩

/-- What is left of a normal path after some of it are components. -/
theorem exists_components_of_below? {b : Bool} {ns : List String} (h : ∀ n ∈ ns, IsComponent n)
    {d : String} (nonempty : d ≠ "") {rest : List Char}
    (left : below? d (rooted b ns) = some rest) :
    ∃ cs, AreComponents cs ∧ rest = joined cs := by
  have tail : ∀ {t : List Char}, d.toList ++ t = (rooted b ns).toList →
      t = '/' :: joined ns ∨ t <:+ joined ns := by
    intro t path
    obtain ⟨x, front, hd⟩ :=
      List.exists_cons_of_ne_nil fun empty => nonempty (String.toList_eq_nil_iff.mp empty)
    rw [hd, toList_rooted] at path
    cases b with
    | false => exact .inr ⟨front, (List.cons.inj path).2⟩
    | true => exact List.suffix_cons_iff.mp ⟨front, (List.cons.inj path).2⟩
  obtain ⟨full, left | ⟨left, begins⟩⟩ := below?_eq_some left
  · rcases tail (List.append_eq_of_isPrefixOf?_eq_some left) with all | ends
    · obtain rfl := (List.cons.inj all).2
      exact ⟨ns, areComponents_iff.mpr ⟨fun none => full (by rw [none, joined_nil]), h⟩, rfl⟩
    · obtain ⟨ms, hms, same | same⟩ := exists_components_of_suffix h ends (by simp)
      · obtain ⟨x, tail, hx, other⟩ := hms.head?_joined
        rw [hx] at same
        exact absurd (List.cons.inj same).1.symm other
      · exact ⟨ms, hms, (List.cons.inj same).2⟩
  · rcases tail (List.append_eq_of_isPrefixOf?_eq_some left) with rfl | ends
    · exact absurd rfl begins
    · obtain ⟨ms, hms, same | rfl⟩ := exists_components_of_suffix h ends full
      · exact ⟨ms, hms, same⟩
      · exact absurd rfl begins

/-- Without its extension a normal path is still made of components. -/
theorem dropExtension_normalize {p : String} (h : isAbsolute p = true) :
    ∃ b ns, (∀ n ∈ ns, IsComponent n) ∧ dropExtension (normalize p) = rooted b ns := by
  obtain ⟨b, ns, proper, hp⟩ := normalize_eq_rooted h
  rw [hp]
  rcases List.eq_nil_or_concat' ns with rfl | ⟨as, n, rfl⟩
  · exact ⟨b, [], by simp, by cases b <;> rfl⟩
  · have components : ∀ m ∈ as ++ [n], IsComponent m := fun m hm => (proper m hm).toIsComponent
    obtain ⟨has, hn⟩ := List.forall_mem_append.mp components
    have last := hn n List.mem_cons_self
    refine ⟨b, as ++ [dropExtension n], ?_, dropExtension_rooted b last⟩
    exact List.forall_mem_append.mpr ⟨has, by simpa using isComponent_dropExtension last⟩

theorem dropExtension_isPrefix (p : String) : (dropExtension p).toList <+: p.toList := by
  unfold dropExtension
  extract_lets base extension
  split
  · rw [String.toList_ofList, ← List.reverse_suffix, List.reverse_reverse]
    exact List.drop_suffix _ _
  · exact List.prefix_refl _

/-! ### The longest beginning -/

/-- The longest of the entries after which something is left of the path, namely `rest`. Empty
entries do not count. -/
structure IsLongest (entries : List String) (p d rest : String) : Prop where
  mem : d ∈ entries
  nonempty : d ≠ ""
  leaves : Leaves d p rest
  longest : ∀ d' ∈ entries, d' ≠ "" → ∀ rest', Leaves d' p rest' → d'.length ≤ d.length

theorem IsLongest.unique {entries : List String} {p d d' rest rest' : String}
    (h : IsLongest entries p d rest) (h' : IsLongest entries p d' rest') : d = d' := by
  have same : d.toList.length = d'.toList.length := by
    rw [String.length_toList, String.length_toList]
    exact Nat.le_antisymm (h'.longest d h.mem h.nonempty rest h.leaves)
      (h.longest d' h'.mem h'.nonempty rest' h'.leaves)
  have begins := List.prefix_of_prefix_length_le h.leaves.isPrefix h'.leaves.isPrefix (by omega)
  exact String.toList_inj.mp (begins.eq_of_length same)

/-- Of entries in decreasing order the first that is above a path is the longest. -/
theorem length_le_of_firstAbove? {entries : List String} (sorted : entries.Pairwise (· ≥ ·))
    {p d : String} (first : firstAbove? entries p = some d) {d' rest : String} (mem : d' ∈ entries)
    (leaves : Leaves d' p rest) : d'.length ≤ d.length := by
  obtain ⟨fits, before, after, rfl, unfit⟩ := List.find?_eq_some_iff_append.mp first
  obtain ⟨rest', left⟩ := Option.isSome_iff_exists.mp fits
  have begins : d.toList <+: p.toList := (leaves_of_below? left).isPrefix
  have later : d' = d ∨ d' ∈ after := by
    rcases List.mem_append.mp mem with early | late
    · have none := unfit d' early
      simp [leaves_iff.mp leaves] at none
    · exact List.mem_cons.mp late
  rcases later with rfl | late
  · exact Nat.le_refl _
  · by_contra longer
    -- The shorter of two beginnings of a path begins the longer one and so comes before it.
    have inside : d.toList <+: d'.toList :=
      List.prefix_of_prefix_length_le begins leaves.isPrefix (by
        rw [String.length_toList, String.length_toList]
        omega)
    have ordered : d' ≤ d := (List.pairwise_cons.mp (List.pairwise_append.mp sorted).2.1).1 d' late
    obtain rfl := String.le_antisymm ordered inside.le
    exact longer (Nat.le_refl _)

end Path

/-- The ordered search path is in decreasing order. -/
theorem Environment.pairwise_orderedSearchPath (e : Environment) :
    e.orderedSearchPath.Pairwise (· ≥ ·) := by
  have sorted : e.orderedSearchPath.Pairwise fun a b => (!decide (a < b)) = true := by
    refine List.pairwise_mergeSort (fun a b c hab hbc => ?_) (fun a b => ?_) e.searchPath
    · rw [Bool.not_eq_true', decide_eq_false_iff_not, String.not_lt] at hab hbc ⊢
      exact String.le_trans hbc hab
    · rw [Bool.or_eq_true, Bool.not_eq_true', Bool.not_eq_true', decide_eq_false_iff_not,
        decide_eq_false_iff_not, String.not_lt, String.not_lt]
      exact String.le_total b a
  refine sorted.imp fun {a b} h => ?_
  rwa [Bool.not_eq_true', decide_eq_false_iff_not, String.not_lt] at h

theorem Environment.mem_orderedSearchPath {e : Environment} {d : String} :
    d ∈ e.orderedSearchPath ↔ d ∈ e.searchPath := List.mem_mergeSort

/-- The search path that is left without empty entries. -/
def Environment.entries (e : Environment) : List String :=
  e.orderedSearchPath.filter fun d => !d.isEmpty

theorem Environment.mem_entries {e : Environment} {d : String} :
    d ∈ e.entries ↔ d ∈ e.searchPath ∧ d ≠ "" := by
  simp [Environment.entries, Environment.mem_orderedSearchPath]

/-- The first entry that is above a path is the longest. -/
theorem Environment.isLongest_of_firstAbove? {e : Environment} {p d : String}
    (first : Path.firstAbove? e.entries p = some d) :
    ∃ rest, Path.IsLongest e.searchPath p d rest := by
  have fits : (Path.below? d p).isSome = true := by
    obtain ⟨fits, -⟩ := List.find?_eq_some_iff_append.mp first
    exact fits
  obtain ⟨rest, left⟩ := Option.isSome_iff_exists.mp fits
  obtain ⟨mem, nonempty⟩ := Environment.mem_entries.mp (List.mem_of_find?_eq_some first)
  refine ⟨_, mem, nonempty, Path.leaves_of_below? left, ?_⟩
  intro d' mem' nonempty' rest' leaves
  have sorted : e.entries.Pairwise (· ≥ ·) := e.pairwise_orderedSearchPath.filter _
  have mem' := Environment.mem_entries.mpr ⟨mem', nonempty'⟩
  exact Path.length_le_of_firstAbove? sorted first mem' leaves

/-- Some entry of the search path is above the path, and something is left of it. -/
def Environment.HasEntryAbove (e : Environment) (p : String) : Prop :=
  ∃ d ∈ e.searchPath, d ≠ "" ∧ ∃ rest, Path.Leaves d p rest

theorem Environment.firstAbove?_eq_none {e : Environment} {p : String} :
    Path.firstAbove? e.entries p = none ↔ ¬ e.HasEntryAbove p := by
  rw [Path.firstAbove?, List.find?_eq_none]
  constructor
  · rintro none ⟨d, mem, nonempty, rest, leaves⟩
    exact none d (Environment.mem_entries.mpr ⟨mem, nonempty⟩) (by simp [Path.leaves_iff.mp leaves])
  · intro none d mem fits
    obtain ⟨mem, nonempty⟩ := Environment.mem_entries.mp mem
    obtain ⟨rest, left⟩ := Option.isSome_iff_exists.mp fits
    exact none ⟨d, mem, nonempty, _, Path.leaves_of_below? left⟩

/-- If there is such an entry, there is a longest one. -/
theorem Environment.HasEntryAbove.exists_isLongest {e : Environment} {p : String}
    (h : e.HasEntryAbove p) : ∃ d rest, Path.IsLongest e.searchPath p d rest := by
  cases first : Path.firstAbove? e.entries p with
  | none => exact absurd h (Environment.firstAbove?_eq_none.mp first)
  | some d => exact ⟨d, Environment.isLongest_of_firstAbove? first⟩

/-- The first entry above a path is the longest one. -/
theorem Environment.firstAbove?_of_isLongest {e : Environment} {p d rest : String}
    (h : Path.IsLongest e.searchPath p d rest) : Path.firstAbove? e.entries p = some d := by
  cases first : Path.firstAbove? e.entries p with
  | none =>
    exact absurd ⟨d, h.mem, h.nonempty, rest, h.leaves⟩ (Environment.firstAbove?_eq_none.mp first)
  | some d' =>
    obtain ⟨rest', h'⟩ := Environment.isLongest_of_firstAbove? first
    rw [h'.unique h]

/-- The order of the entries, repetitions and empty entries make no difference. -/
theorem Environment.componentsBelow?_congr {e e' : Environment}
    (same : ∀ d, d ≠ "" → (d ∈ e'.searchPath ↔ d ∈ e.searchPath)) (p : String) :
    Path.componentsBelow? e'.entries p = Path.componentsBelow? e.entries p := by
  have first : Path.firstAbove? e'.entries p = Path.firstAbove? e.entries p := by
    cases first : Path.firstAbove? e.entries p with
    | none =>
      rw [Environment.firstAbove?_eq_none] at first ⊢
      rintro ⟨d, mem, nonempty, leaves⟩
      exact first ⟨d, (same d nonempty).mp mem, nonempty, leaves⟩
    | some d =>
      obtain ⟨rest, h⟩ := Environment.isLongest_of_firstAbove? first
      refine Environment.firstAbove?_of_isLongest ⟨(same d h.nonempty).mpr h.mem, h.nonempty,
        h.leaves, fun d' mem nonempty => ?_⟩
      exact h.longest d' ((same d' nonempty).mp mem) nonempty
  rw [Path.componentsBelow?, Path.componentsBelow?, Path.findSome?_below, Path.findSome?_below,
    first]

/-! ### Names below the longest entry -/

/-- The search path of a source is the package root and then the entries. -/
theorem searchPath_of_locate {fs : FileSystem} {file root : String} {e : Environment}
    {source : Source} (located : Source.locate fs file e.orderedSearchPath = .ok source)
    (isRoot : fs.packageRoot? (Path.directory source.path) = some root) :
    source.searchPath = [root].filter (!·.isEmpty) ++ e.entries := by
  obtain ⟨root', found, hsource⟩ := FileSystem.exists_root_of_locate located
  obtain rfl := Option.some.inj (found.symm.trans isRoot)
  simp only [hsource, Environment.entries, ← List.filter_append, List.singleton_append]

namespace Semantic.Setting

section Search

variable {fs : FileSystem} {e : Environment} {file root path : String} {s : Setting}
  (located : Source.locate fs file e.orderedSearchPath = .ok s.source)
  (isRoot : fs.packageRoot? (Path.directory s.source.path) = some root)
  (absolute : Path.isAbsolute path = true)
  (noStub : ∀ d ∈ s.stubDirectories, ¬ d.toList <+: (Path.normalize path).toList)
  (outside : root = "" ∨ ¬ root.toList <+: (Path.normalize path).toList)

include absolute in
theorem stem_eq : s.stem path = Path.dropExtension (Path.normalize path) := by
  rw [stem, Path.absolute, if_pos absolute]

include absolute in
theorem ne_virtualFile : path ≠ virtualFile := by
  rintro rfl
  cases absolute

include located isRoot absolute noStub outside

/-- The stub directories and the package root do not count, so the entries are searched. -/
theorem componentsBelow?_directories :
    Path.componentsBelow? s.directories (s.stem path) =
      Path.componentsBelow? e.entries (s.stem path) := by
  have shorter : ∀ {d : String}, ¬ d.toList <+: (Path.normalize path).toList →
      ¬ d.toList <+: (s.stem path).toList := by
    intro d apart begins
    rw [stem_eq absolute] at begins
    exact apart (begins.trans (Path.dropExtension_isPrefix _))
  have others : ∀ d ∈ s.stubDirectories ++ [root].filter (!·.isEmpty),
      ¬ d.toList <+: (s.stem path).toList := by
    refine List.forall_mem_append.mpr ⟨fun d hd => shorter (noStub d hd), fun d hd => ?_⟩
    obtain ⟨mem, nonempty⟩ := List.mem_filter.mp hd
    obtain rfl := List.mem_singleton.mp mem
    refine shorter (outside.resolve_left ?_)
    rintro rfl
    cases nonempty
  rw [directories, searchPath_of_locate located isRoot, ← List.append_assoc,
    Path.componentsBelow?_append others]

/-- The name of a module comes from the longest entry. -/
theorem moduleName_of_isLongest {d rest : String}
    (h : Path.IsLongest e.searchPath (s.stem path) d rest) :
    ∃ cs, Path.AreComponents cs ∧ rest = String.intercalate "/" cs ∧
      s.moduleName (some path) = nameOfComponents (dropPackageMarker cs) := by
  have left := Path.leaves_iff.mp h.leaves
  obtain ⟨b, ns, components, shape⟩ := Path.dropExtension_normalize absolute
  rw [← stem_eq absolute] at shape
  obtain ⟨cs, hcs, hrest⟩ :=
    Path.exists_components_of_below? components h.nonempty (by rw [← shape]; exact left)
  have found : Path.componentsBelow? s.directories (s.stem path) = some cs := by
    rw [componentsBelow?_directories located isRoot absolute noStub outside]
    refine Path.componentsBelow?_of_below? hcs ?_
    rw [Path.findSome?_below, Environment.firstAbove?_of_isLongest h, Option.bind_some, left, hrest]
  refine ⟨cs, hcs, ?_, ?_⟩
  · rw [← String.toList_inj, Path.toList_intercalate, hrest]
  · rw [s.moduleName_some (ne_virtualFile absolute), found]

/-- Without an entry above it a module has no name. -/
theorem moduleName_of_not_hasEntryAbove (h : ¬ e.HasEntryAbove (s.stem path)) :
    s.moduleName (some path) = .ok none := by
  have missing : Path.componentsBelow? s.directories (s.stem path) = none := by
    rw [componentsBelow?_directories located isRoot absolute noStub outside, Path.componentsBelow?,
      Path.findSome?_below, Environment.firstAbove?_eq_none.mpr h, Option.bind_none]
  rw [s.moduleName_some (ne_virtualFile absolute), missing]

end Search

theorem nameOfComponents_ne_none (cs : List String) : nameOfComponents cs ≠ .ok none := by
  unfold nameOfComponents
  split <;> simp

/-- Components give a name unless a marker is all there is. -/
theorem exists_name_of_components {cs : List String} (h : Path.AreComponents cs)
    (other : String.intercalate "/" cs ≠ "__init__") :
    ∃ q, nameOfComponents (dropPackageMarker cs) = .ok (some q) := by
  cases result : nameOfComponents (dropPackageMarker cs) with
  | error fault =>
    obtain ⟨-, empty⟩ := nameOfComponents_eq_error.mp result
    rcases dropPackageMarker_cases cs with same | same
    · exact absurd (same.trans empty) h.ne_nil
    · rw [empty, List.nil_append] at same
      exact absurd (by rw [same]; rfl) other
  | ok name =>
    cases name with
    | none => exact absurd result (nameOfComponents_ne_none _)
    | some q => exact ⟨q, rfl⟩

/-- A file of the environment is named below the longest entry of the search path with which its
path begins and after which something is left. It has no name just if there is no such entry, and
the order of the entries, repetitions and empty entries make no difference. -/
theorem longest_entry_names_module (fs : FileSystem) (e : Environment) (file root path : String)
    (s : Setting) (located : Source.locate fs file e.orderedSearchPath = .ok s.source)
    (isRoot : fs.packageRoot? (Path.directory s.source.path) = some root)
    (absolute : Path.isAbsolute path = true)
    (noStub : ∀ d ∈ s.stubDirectories, ¬ d.toList <+: (Path.normalize path).toList)
    (outside : root = "" ∨ ¬ root.toList <+: (Path.normalize path).toList) :
    (∀ d rest, Path.IsLongest e.searchPath (s.stem path) d rest →
      ∃ cs, Path.AreComponents cs ∧ rest = String.intercalate "/" cs ∧
        s.moduleName (some path) = nameOfComponents (dropPackageMarker cs) ∧
        (rest ≠ "__init__" → ∃ q, s.moduleName (some path) = .ok (some q))) ∧
    (s.moduleName (some path) = .ok none ↔ ¬ e.HasEntryAbove (s.stem path)) ∧
    ∀ (e' : Environment) (s' : Setting),
      Source.locate fs file e'.orderedSearchPath = .ok s'.source →
      s'.stubDirectories = s.stubDirectories →
      (∀ d, d ≠ "" → (d ∈ e'.searchPath ↔ d ∈ e.searchPath)) →
      s'.moduleName (some path) = s.moduleName (some path) := by
  refine ⟨fun d rest longest => ?_, ⟨fun none above => ?_, fun missing => ?_⟩, ?_⟩
  · obtain ⟨cs, hcs, hrest, named⟩ :=
      moduleName_of_isLongest located isRoot absolute noStub outside longest
    refine ⟨cs, hcs, hrest, named, fun other => ?_⟩
    rw [named]
    exact exists_name_of_components hcs (by rwa [← hrest])
  · obtain ⟨d, rest, longest⟩ := above.exists_isLongest
    obtain ⟨cs, -, -, named⟩ :=
      moduleName_of_isLongest located isRoot absolute noStub outside longest
    exact nameOfComponents_ne_none _ (named.symm.trans none)
  · exact moduleName_of_not_hasEntryAbove located isRoot absolute noStub outside missing
  · intro e' s' located' stubs same
    have sameStem : s'.stem path = s.stem path := by rw [stem_eq absolute, stem_eq absolute]
    have samePath : s'.source.path = s.source.path := by
      obtain ⟨_, -, hs⟩ := FileSystem.exists_root_of_locate located
      obtain ⟨_, -, hs'⟩ := FileSystem.exists_root_of_locate located'
      rw [hs, hs']
    have isRoot' : fs.packageRoot? (Path.directory s'.source.path) = some root := by
      rw [samePath]
      exact isRoot
    rw [s'.moduleName_some (ne_virtualFile absolute), s.moduleName_some (ne_virtualFile absolute),
      componentsBelow?_directories located' isRoot' absolute (by rwa [stubs]) outside,
      componentsBelow?_directories located isRoot absolute noStub outside, sameStem,
      Environment.componentsBelow?_congr same]

/-- Three entries are above the module, and the longest is neither the first nor the last. -/
theorem module_named_below_longest :
    let fs : FileSystem := ⟨"/", [], ["/work/a.py"]⟩
    let e : Environment := ⟨"/bin/python", 3, 7, ["/lib", "", "/lib/py/site", "/lib/py"], none⟩
    let e' : Environment := ⟨"/bin/python", 3, 7, ["/lib/py", "/lib", "/lib/py/site", "/lib"], none⟩
    let s (e : Environment) : Setting :=
      ⟨⟨"/", "/work/a.py", ("/work" :: e.orderedSearchPath).filter fun d => !d.isEmpty⟩,
        3, 7, "/stubs", ⟨[]⟩, false⟩
    let path := "/lib/py/site/json/../xml/__init__.py"
    Source.locate fs "/work/a.py" e.orderedSearchPath = .ok (s e).source ∧
    Source.locate fs "/work/a.py" e'.orderedSearchPath = .ok (s e').source ∧
    Path.IsLongest e.searchPath ((s e).stem path) "/lib/py/site" "xml/__init__" ∧
    (s e).moduleName (some path) = .ok (some (.dotted ["xml"])) ∧
    (s e').moduleName (some path) = .ok (some (.dotted ["xml"])) := by
  intro fs e e' s path
  have isRoot : fs.packageRoot? (Path.directory "/work/a.py") = some "/work" := by decide +kernel
  have located : ∀ e, Source.locate fs "/work/a.py" e.orderedSearchPath = .ok (s e).source :=
    fun e => FileSystem.locate_eq_ok (by decide +kernel) isRoot e.orderedSearchPath
  have longest : Path.IsLongest e.searchPath ((s e).stem path) "/lib/py/site" "xml/__init__" := by
    have stem : (s e).stem path = "/lib/py/site/xml/__init__" := by decide +kernel
    have bound : ∀ d ∈ e.searchPath, d.length ≤ "/lib/py/site".length := by decide
    rw [stem]
    exact ⟨by decide, by decide, ⟨by decide, .inl (by decide)⟩, fun d mem _ _ _ => bound d mem⟩
  have normal : Path.normalize path = "/lib/py/site/xml/__init__.py" := by decide +kernel
  obtain ⟨named, -, permuted⟩ := longest_entry_names_module fs e "/work/a.py" "/work" path (s e)
    (located e) isRoot (by decide) (by rw [normal]; decide) (.inr (by rw [normal]; decide))
  obtain ⟨cs, hcs, hrest, named, -⟩ := named _ _ longest
  obtain rfl : ["xml", "__init__"] = cs := by
    have given : Path.AreComponents ["xml", "__init__"] := ⟨by decide, by decide, by decide⟩
    exact given.intercalate_inj hcs hrest
  refine ⟨located e, located e', longest, named,
    (permuted e' (s e') (located e') rfl fun d nonempty => ?_).trans named⟩
  simp only [e, e', List.mem_cons, nonempty, List.not_mem_nil]
  grind

/-- It is the normal form of the path that must not begin with the package root: a detour leads to a
module that is named although no entry is above it. -/
theorem detour_to_package_root :
    let fs : FileSystem := ⟨"/", [], ["/work/a.py"]⟩
    let e : Environment := ⟨"/bin/python", 3, 7, ["/lib"], none⟩
    let s : Setting := ⟨⟨"/", "/work/a.py", ["/work", "/lib"]⟩, 3, 7, "/stubs", ⟨[]⟩, false⟩
    let path := "/x/../work/b.py"
    Source.locate fs "/work/a.py" e.orderedSearchPath = .ok s.source ∧
    fs.packageRoot? (Path.directory s.source.path) = some "/work" ∧
    Path.isAbsolute path = true ∧
    (∀ d ∈ s.stubDirectories, ¬ d.toList <+: path.toList) ∧
    ¬ "/work".toList <+: path.toList ∧
    ¬ e.HasEntryAbove (s.stem path) ∧
    s.moduleName (some path) = .ok (some (.dotted ["b"])) := by
  intro fs e s path
  have isRoot : fs.packageRoot? (Path.directory s.source.path) = some "/work" := by decide +kernel
  have ordered : e.orderedSearchPath = ["/lib"] := List.mergeSort_singleton _
  refine ⟨?_, isRoot, by decide, by decide, by decide, ?_, by decide +kernel⟩
  · rw [FileSystem.locate_eq_ok (by decide +kernel) isRoot, ordered]
    rfl
  · rintro ⟨d, mem, -, rest, leaves⟩
    obtain rfl := List.mem_singleton.mp mem
    have begins := leaves.isPrefix
    revert begins
    decide +kernel

end Semantic.Setting

end CodeIndex
