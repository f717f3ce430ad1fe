import CodeIndex.Proofs.CallLog
import CodeIndex.Semantic.Visit
import Mathlib.Data.List.Basic

/-!
# Errors for imports that cannot be resolved

The semantic indexer records an error for a name in an import statement that the resolver does not
know. It does so along the grammar of the statement: the path of a module is given up at its first
unknown name, the names that are imported from a module are only looked at if its path is known, and
the new names after `as` are not looked at.

`ImportStatement` is that grammar: each value is a statement of the language, with the positions of
all its tokens, and `ImportStatement.tree` is the tree that a parser makes of it.

## What is proved

* `reports_path`, `reports_modules`, `reports_selection` — what is reported for each of the
  constructs of a statement.
* `unresolved_imports_reported` — what is reported for the whole statement, and in which order.
-/

namespace CodeIndex

/-! ### The grammar of import statements -/

/-- An identifier of the source. -/
structure Identifier where
  /-- Its text. -/
  text : String
  /-- The position of its first character. -/
  start : Position
  deriving DecidableEq, Repr

namespace Identifier

/-- The identifier as a tree. -/
def tree (n : Identifier) : Tree := .leaf { kind := .name, text := n.text, start := n.start }

/-- The range of the identifier. -/
def range (n : Identifier) : SourceRange :=
  .between n.start ⟨n.start.line, n.start.column + n.text.length⟩

end Identifier

/-- A reserved word as a tree. -/
def Tree.ofWord (text : String) (start : Position) : Tree :=
  .leaf { kind := .keyword, text, start }

/-- An operator or delimiter as a tree. -/
def Tree.ofSign (text : String) (start : Position) : Tree :=
  .leaf { kind := .operator, text, start }

/-- At least one element, and a sign between each two of them, whose position is known. -/
structure Separated (α : Type) where
  /-- The first element. -/
  first : α
  /-- The others, each with the position of the sign before it. -/
  rest : List (Position × α)

namespace Separated

variable {α : Type}

/-- The elements. -/
def toList (xs : Separated α) : List α := xs.first :: xs.rest.map Prod.snd

/-- The elements and signs as trees. -/
def parts (sign : String) (tree : α → Tree) (xs : Separated α) : List Tree :=
  tree xs.first :: xs.rest.flatMap fun (start, x) => [.ofSign sign start, tree x]

/-- The construct that the elements make up. One element alone makes up none. -/
def tree (kind : NodeKind) (sign : String) (tree : α → Tree) (xs : Separated α) : Tree :=
  if xs.rest.isEmpty then tree xs.first else .node kind (xs.parts sign tree)

end Separated

/-- The path of a module: names with dots between them. -/
abbrev ModulePath := Separated Identifier

/-- The path as a tree. -/
def ModulePath.tree (path : ModulePath) : Tree :=
  Separated.tree .dottedName "." Identifier.tree path

/-- Something that is imported, perhaps under a new name. -/
structure Imported (α : Type) where
  /-- What is imported. -/
  subject : α
  /-- The position of `as`, and the new name. -/
  newName : Option (Position × Identifier)

/-- Something that is imported as a tree. -/
def Imported.tree {α : Type} (kind : NodeKind) (tree : α → Tree) (x : Imported α) : Tree :=
  match x.newName with
  | none => tree x.subject
  | some (start, n) => .node kind [tree x.subject, .ofWord "as" start, n.tree]

/-- What is imported from a module. -/
inductive Selection where
  /-- Everything; the position is that of the star. -/
  | everything (star : Position)
  /-- Some names. A comma may follow the last one, and there may be brackets around them. -/
  | names (names : Separated (Imported Identifier)) (comma : Option Position)
      (brackets : Option (Position × Position))

namespace Selection

/-- The construct of the names in a selection. One name alone makes up none. -/
def namesTree (names : Separated (Imported Identifier)) (comma : Option Position) : Tree :=
  let tree := Imported.tree .importAsName Identifier.tree
  match comma with
  | none => names.tree .importAsNames "," tree
  | some start => .node .importAsNames (names.parts "," tree ++ [.ofSign "," start])

/-- The parts of the statement that are the selection. -/
def parts : Selection → List Tree
  | everything star => [.ofSign "*" star]
  | names ns comma none => [namesTree ns comma]
  | names ns comma (some (opening, closing)) =>
    [.ofSign "(" opening, namesTree ns comma, .ofSign ")" closing]

/-- The names that are imported, by which they are known in the module. -/
def identifiers : Selection → List Identifier
  | everything _ => []
  | names ns _ _ => ns.toList.map Imported.subject

end Selection

/-- An import statement. -/
inductive ImportStatement where
  /-- `import a.b, c as d` -/
  | ofModules (word : Position) (modules : Separated (Imported ModulePath))
  /-- `from ..a.b import c, d as e`. A dot may also be an ellipsis. Without dots there is a path. -/
  | ofNames (fromWord : Position) (dots : List (Bool × Position)) (path : Option ModulePath)
      (origin : path = none → dots ≠ []) (word : Position) (selection : Selection)

/-- The statement as a tree. -/
def ImportStatement.tree : ImportStatement → Tree
  | ofModules word modules =>
    .node .importName [.ofWord "import" word,
      modules.tree .dottedAsNames "," (Imported.tree .dottedAsName ModulePath.tree)]
  | ofNames fromWord dots path _ word selection =>
    .node .importFrom (.ofWord "from" fromWord ::
      (dots.map (fun (ellipsis, start) => .ofSign (if ellipsis then "..." else ".") start) ++
        (path.toList.map ModulePath.tree ++ .ofWord "import" word :: selection.parts)))

namespace Semantic.Setting

open Indexing

/-! ### What is to be reported -/

/-- The resolver knows no definition of the identifier: it gives no answer, or fails, or its answer
is empty. An answer that holds nothing but a missing definition is not empty. -/
def isUnresolved (s : Setting) (n : Identifier) : Bool :=
  match s.resolver.answers.lookup
      ⟨if s.source.isVirtual then none else some s.source.path, n.start⟩ with
  | some (.ok (_ :: _)) => false
  | _ => true

/-- The first name of a path that cannot be resolved. -/
def unresolvedIn? (s : Setting) (path : ModulePath) : Option Identifier :=
  path.toList.find? s.isUnresolved

/-- The names for which a statement is in error. -/
def unresolved (s : Setting) : ImportStatement → List Identifier
  | .ofModules _ modules => modules.toList.filterMap fun m => s.unresolvedIn? m.subject
  | .ofNames _ _ path _ _ selection =>
    match path.bind s.unresolvedIn? with
    | some n => [n]
    | none => selection.identifiers.filter s.isUnresolved

/-- The message about a name that cannot be resolved. -/
def importMessage (n : Identifier) : String :=
  "Imported symbol named \"" ++ n.text ++ "\" has not been found."

variable {ρ : Type} [Recorder ρ]

/-- Reports names, one after the other. -/
def report : List Identifier → Indexing ρ Unit
  | [] => pure ()
  | n :: ns => do
    note (.error (.text (importMessage n)) (.flag false) n.range)
    report ns

theorem report_append (ms ns : List Identifier) :
    (report (ms ++ ns) : Indexing ρ Unit) = (do report ms; report ns) := by
  induction ms with
  | nil => rfl
  | cons m ms ih =>
    change (do note _; report (ms ++ ns)) = (do (do note _; report ms); report ns)
    rw [ih, bind_assoc]

/-! ### What is reported -/

/-- The check of a tree does nothing but report the names `ns`. It says whether all has been
`found`. -/
def Reports (ρ : Type) [Recorder ρ] (s : Setting) (t : Tree) (ns : List Identifier)
    (found : Bool) : Prop :=
  (s.checkImports t : Indexing ρ Bool) = (do report ns; return found)

section Trees

variable {s : Setting}

theorem reports_word (text : String) (start : Position) :
    Reports ρ s (.ofWord text start) [] true := rfl

theorem reports_sign (text : String) (start : Position) :
    Reports ρ s (.ofSign text start) [] true := rfl

/-- The resolver is asked about the position of the identifier in the file. -/
theorem definitionsAt_isEmpty (s : Setting) (n : Identifier) :
    (s.definitionsAt (.root n.tree) s.source.path).isEmpty = s.isUnresolved n := by
  have asked : s.definitionsAt (.root n.tree) s.source.path = s.resolver.definitions
      ⟨if s.source.path = virtualFile then none else some s.source.path, n.start⟩ := rfl
  rw [asked, isUnresolved, Resolver.definitions]
  simp only [Source.isVirtual, decide_eq_true_eq]
  split
  · next ds answer =>
    rw [answer]
    cases ds <;> rfl
  · next other =>
    split
    · next d ds answer => exact absurd answer (other (d :: ds))
    · rfl

theorem reports_identifier (s : Setting) (n : Identifier) :
    Reports ρ s n.tree (if s.isUnresolved n then [n] else []) (!s.isUnresolved n) := by
  change s.checkName n.tree = _
  unfold checkName
  rw [definitionsAt_isEmpty]
  cases s.isUnresolved n with
  | false => rfl
  | true =>
    change (do note (.error (.text (importMessage n)) (.flag false) n.range); return false) = _
    simp only [if_true, report, Bool.not_true, bind_assoc, pure_bind]

/-! ### Lists of trees -/

/-- Trees that are all checked. -/
theorem checkAllImports_cons {t : Tree} {ns : List Identifier} {found : Bool}
    (h : Reports ρ s t ns found) (ts : List Tree) :
    (s.checkAllImports (t :: ts) : Indexing ρ Unit) = (do report ns; s.checkAllImports ts) := by
  rw [checkAllImports, h]
  simp only [bind_assoc, pure_bind]

theorem checkAllImports_append (ts us : List Tree) :
    (s.checkAllImports (ts ++ us) : Indexing ρ Unit) =
      (do s.checkAllImports ts; s.checkAllImports us) := by
  induction ts with
  | nil => simp [checkAllImports]
  | cons t ts ih => simp only [List.cons_append, checkAllImports, ih, bind_assoc]

/-- Elements with signs between them, which are all checked. -/
theorem checkAllImports_parts {α : Type} {tree : α → Tree} {names : α → List Identifier}
    {found : α → Bool} (each : ∀ x, Reports ρ s (tree x) (names x) (found x)) (sign : String)
    (xs : Separated α) :
    (s.checkAllImports (xs.parts sign tree) : Indexing ρ Unit) =
      report (xs.toList.flatMap names) := by
  obtain ⟨first, rest⟩ := xs
  have others : (s.checkAllImports (rest.flatMap fun (start, x) =>
      [.ofSign sign start, tree x]) : Indexing ρ Unit) =
      report ((rest.map Prod.snd).flatMap names) := by
    induction rest with
    | nil => rfl
    | cons x rest ih =>
      rw [List.flatMap_cons, List.map_cons, List.flatMap_cons, report_append, ← ih]
      change s.checkAllImports (_ :: _ :: _) = _
      rw [checkAllImports_cons (reports_sign sign x.1), checkAllImports_cons (each x.2)]
      rfl
  rw [Separated.parts, checkAllImports_cons (each first), others, Separated.toList,
    List.flatMap_cons, report_append]

/-- Trees that are checked up to the first that is not found. -/
theorem checkImportsInTurn_cons {t : Tree} {ns : List Identifier} {found : Bool}
    (h : Reports ρ s t ns found) (ts : List Tree) :
    (s.checkImportsInTurn (t :: ts) : Indexing ρ Bool) = do
      report ns
      if found then s.checkImportsInTurn ts else return false := by
  rw [checkImportsInTurn, h]
  simp only [bind_assoc, pure_bind]

/-- Trees that are found, and for which nothing is reported. -/
theorem checkImportsInTurn_found {ts : List Tree} (h : ∀ t ∈ ts, Reports ρ s t [] true)
    (us : List Tree) :
    (s.checkImportsInTurn (ts ++ us) : Indexing ρ Bool) = s.checkImportsInTurn us := by
  induction ts with
  | nil => rfl
  | cons t ts ih =>
    have rest := ih fun u hu => h u (List.mem_cons_of_mem t hu)
    rw [List.cons_append, checkImportsInTurn_cons (h t List.mem_cons_self), ← rest]
    rfl

end Trees

/-! ### Constructs -/

section Constructs

variable (s : Setting)

/-- Names with dots between them, up to the first that cannot be resolved. -/
theorem checkImportsInTurn_names (n : Identifier) (rest : List (Position × Identifier)) :
    (s.checkImportsInTurn (Separated.parts "." Identifier.tree ⟨n, rest⟩) : Indexing ρ Bool) = do
      report (s.unresolvedIn? ⟨n, rest⟩).toList
      return (s.unresolvedIn? ⟨n, rest⟩).isNone := by
  induction rest generalizing n with
  | nil =>
    change s.checkImportsInTurn [n.tree] = _
    rw [checkImportsInTurn_cons (reports_identifier s n)]
    cases known : s.isUnresolved n with
    | false => simp [unresolvedIn?, Separated.toList, known, checkImportsInTurn]
    | true => simp [unresolvedIn?, Separated.toList, known]
  | cons m rest ih =>
    obtain ⟨dot, m⟩ := m
    change s.checkImportsInTurn (n.tree :: .ofSign "." dot ::
      Separated.parts "." Identifier.tree ⟨m, rest⟩) = _
    rw [checkImportsInTurn_cons (reports_identifier s n),
      checkImportsInTurn_cons (reports_sign "." dot), ih]
    cases known : s.isUnresolved n with
    | false => simp [unresolvedIn?, Separated.toList, known, report]
    | true => simp [unresolvedIn?, Separated.toList, known]

/-- The path of a module is given up at its first name that cannot be resolved. -/
theorem reports_path (path : ModulePath) :
    Reports ρ s path.tree (s.unresolvedIn? path).toList (s.unresolvedIn? path).isNone := by
  obtain ⟨n, rest⟩ := path
  cases rest with
  | nil =>
    -- a name alone is its own path
    change Reports ρ s n.tree _ _
    have alone := reports_identifier (ρ := ρ) s n
    cases known : s.isUnresolved n with
    | false => simpa [unresolvedIn?, Separated.toList, known] using alone
    | true => simpa [unresolvedIn?, Separated.toList, known] using alone
  | cons m rest => exact checkImportsInTurn_names s n (m :: rest)

/-- Something that is imported is reported as if it were not renamed. -/
theorem reports_imported {α : Type} {tree : α → Tree} {names : α → List Identifier}
    {found : α → Bool} (plain : ∀ x, (tree x).isKind .keyword = false)
    (each : ∀ x, Reports ρ s (tree x) (names x) (found x)) {kind : NodeKind}
    (isImported : kind = .importAsName ∨ kind = .dottedAsName) (x : Imported α) :
    Reports ρ s (x.tree kind tree) (names x.subject)
      (x.newName.isSome || found x.subject) := by
  obtain ⟨x, newName⟩ := x
  cases newName with
  | none => exact each x
  | some newName =>
    obtain ⟨start, n⟩ := newName
    have toKeyword : (s.checkImportsToKeyword [tree x, .ofWord "as" start, n.tree] :
        Indexing ρ Unit) = report (names x) := by
      rw [checkImportsToKeyword, plain x, each x]
      simp [checkImportsToKeyword, Tree.ofWord, Tree.isKind, Tree.kind]
    rcases isImported with rfl | rfl
    · change (do s.checkImportsToKeyword _; return true) = _
      rw [toKeyword]
      rfl
    · change (do s.checkImportsToKeyword _; return true) = _
      rw [toKeyword]
      rfl

theorem isKind_path (path : ModulePath) : path.tree.isKind .keyword = false := by
  unfold ModulePath.tree Separated.tree
  split <;> rfl

theorem reports_module (m : Imported ModulePath) :
    Reports ρ s (m.tree .dottedAsName ModulePath.tree) (s.unresolvedIn? m.subject).toList
      (m.newName.isSome || (s.unresolvedIn? m.subject).isNone) :=
  reports_imported s isKind_path (reports_path s) (.inr rfl) m

theorem reports_name (m : Imported Identifier) :
    Reports ρ s (m.tree .importAsName Identifier.tree)
      (if s.isUnresolved m.subject then [m.subject] else [])
      (m.newName.isSome || !s.isUnresolved m.subject) :=
  reports_imported s (fun _ => rfl) (reports_identifier s) (.inl rfl) m

/-- The modules of a statement are checked one by one. -/
theorem reports_modules (modules : Separated (Imported ModulePath)) :
    ∃ found, Reports ρ s
      (modules.tree .dottedAsNames "," (Imported.tree .dottedAsName ModulePath.tree))
      (modules.toList.filterMap fun m => s.unresolvedIn? m.subject) found := by
  rw [List.filterMap_eq_flatMap_toList]
  obtain ⟨m, rest⟩ := modules
  cases rest with
  | nil =>
    refine ⟨m.newName.isSome || (s.unresolvedIn? m.subject).isNone, ?_⟩
    simpa [Separated.tree, Separated.toList] using reports_module (ρ := ρ) s m
  | cons m' rest =>
    refine ⟨true, ?_⟩
    change (do s.checkAllImports _; return true) = _
    rw [checkAllImports_parts (reports_module s)]

/-- The names of a selection are checked one by one. -/
theorem reports_namesTree (names : Separated (Imported Identifier)) (comma : Option Position) :
    ∃ found, Reports ρ s (Selection.namesTree names comma)
      ((names.toList.map Imported.subject).filter s.isUnresolved) found := by
  have same : (names.toList.map Imported.subject).filter s.isUnresolved =
      names.toList.flatMap fun m => if s.isUnresolved m.subject then [m.subject] else [] := by
    induction names.toList with
    | nil => rfl
    | cons m ms ih =>
      rw [List.map_cons, List.filter_cons, List.flatMap_cons, ih]
      split <;> rfl
  rw [same]
  cases comma with
  | some start =>
    refine ⟨true, ?_⟩
    change (do s.checkAllImports (_ ++ [_]); return true) = _
    rw [checkAllImports_append, checkAllImports_parts (reports_name s),
      checkAllImports_cons (reports_sign "," start)]
    simp [checkAllImports, report]
  | none =>
    obtain ⟨m, rest⟩ := names
    cases rest with
    | nil =>
      refine ⟨m.newName.isSome || !s.isUnresolved m.subject, ?_⟩
      simpa [Selection.namesTree, Separated.tree, Separated.toList] using
        reports_name (ρ := ρ) s m
    | cons m' rest =>
      refine ⟨true, ?_⟩
      change (do s.checkAllImports _; return true) = _
      rw [checkAllImports_parts (reports_name s)]

/-- What is imported from a module whose path is known. -/
theorem reports_selection (selection : Selection) :
    ∃ found, (s.checkImportsInTurn selection.parts : Indexing ρ Bool) = do
      report (selection.identifiers.filter s.isUnresolved)
      return found := by
  cases selection with
  | everything star => exact ⟨true, rfl⟩
  | names ns comma brackets =>
    obtain ⟨found, reports⟩ := reports_namesTree (ρ := ρ) s ns comma
    cases brackets with
    | none =>
      refine ⟨found, ?_⟩
      change s.checkImportsInTurn [_] = _
      rw [checkImportsInTurn_cons reports]
      cases found <;> rfl
    | some brackets =>
      refine ⟨found, ?_⟩
      change s.checkImportsInTurn [_, _, _] = _
      rw [checkImportsInTurn_cons (reports_sign "(" brackets.1), checkImportsInTurn_cons reports,
        checkImportsInTurn_cons (reports_sign ")" brackets.2)]
      cases found <;> rfl

/-- The parts of a statement after the reserved word and the dots. -/
theorem checkImportsInTurn_path (path : Option ModulePath) (word : Position)
    (selection : Selection) :
    ∃ found, (s.checkImportsInTurn
        (path.toList.map ModulePath.tree ++ .ofWord "import" word :: selection.parts) :
          Indexing ρ Bool) = do
      report (match path.bind s.unresolvedIn? with
        | some n => [n]
        | none => selection.identifiers.filter s.isUnresolved)
      return found := by
  obtain ⟨found, reports⟩ := reports_selection (ρ := ρ) s selection
  have fromWord : (s.checkImportsInTurn (.ofWord "import" word :: selection.parts) :
      Indexing ρ Bool) = do
      report (selection.identifiers.filter s.isUnresolved)
      return found := by
    rw [checkImportsInTurn_cons (reports_word "import" word), ← reports]
    rfl
  cases path with
  | none => exact ⟨found, fromWord⟩
  | some path =>
    rw [Option.toList_some, List.map_singleton, List.singleton_append,
      checkImportsInTurn_cons (reports_path s path), fromWord, Option.bind_some]
    cases s.unresolvedIn? path with
    | none => exact ⟨found, rfl⟩
    | some n => exact ⟨false, rfl⟩

/-- The check of a statement reports its names that cannot be resolved, and does nothing else. -/
theorem reports_statement (i : ImportStatement) :
    ∃ found, Reports ρ s i.tree (s.unresolved i) found := by
  cases i with
  | ofModules word modules =>
    obtain ⟨found, reports⟩ := reports_modules (ρ := ρ) s modules
    refine ⟨true, ?_⟩
    change (do s.checkAllImports [_, _]; return true) = _
    rw [checkAllImports_cons (reports_word "import" word), checkAllImports_cons reports]
    simp only [report, checkAllImports, pure_bind, bind_pure_unit]
    rfl
  | ofNames fromWord dots path origin word selection =>
    obtain ⟨found, inTurn⟩ := checkImportsInTurn_path (ρ := ρ) s path word selection
    refine ⟨found, ?_⟩
    have dotted : ∀ t ∈ dots.map fun (ellipsis, start) =>
        Tree.ofSign (if ellipsis then "..." else ".") start, Reports ρ s t [] true := by
      intro t ht
      obtain ⟨dot, -, rfl⟩ := List.mem_map.mp ht
      exact reports_sign _ dot.2
    change s.checkImportsInTurn (_ :: (_ ++ _)) = _
    rw [checkImportsInTurn_cons (reports_word "from" fromWord), checkImportsInTurn_found dotted,
      inTurn]
    rfl

end Constructs

/-! ### The log -/

/-- The call for a name that cannot be resolved. -/
def importError (file : Value) (n : Identifier) : Call :=
  .error (.text (importMessage n)) (.flag false) file n.range

/-- Each report is one call. -/
theorem report_eq_ok (ns : List Identifier) (σ : Trace Client) :
    ∃ τ more, report ns σ = .ok () τ ∧ τ.contexts = σ.contexts ∧ τ.calls = σ.calls ++ more ∧
      more.map LogEntry.call = ns.map (importError σ.recorder.file) := by
  induction ns generalizing σ with
  | nil => exact ⟨σ, [], rfl, rfl, (List.append_nil _).symm, rfl⟩
  | cons n ns ih =>
    let call := importError σ.recorder.file n
    obtain ⟨τ, more, reported, contexts, calls, made⟩ := ih (σ.logged call)
    refine ⟨τ, ⟨call, σ.recorder.database.answer call⟩ :: more, reported, contexts, ?_, ?_⟩
    · rw [calls, Trace.calls_logged, List.append_assoc, List.singleton_append]
    · rw [List.map_cons, made]
      rfl

/-- **The errors for an import statement.** For every statement and every resolver, the check of the
statement ends without a fault and has recorded, in this order: for an import of modules, of each
module the first name of its path that the resolver does not know, if there is one; for an import
from a module, the first such name of the path and nothing else, or, if there is none, each such
name of what is imported. Nothing else is recorded, by whichever recorder, and the visit of the
statement does the same wherever it stands. -/
theorem unresolved_imports_reported (s : Setting) (i : ImportStatement) :
    (∀ (ρ : Type) [Recorder ρ], ∃ found, (s.checkImports i.tree : Indexing ρ Bool) = do
      report (s.unresolved i)
      return found) ∧
    ∀ (above : List Ancestor) (σ : Trace Client), ∃ found τ more,
      s.checkImports i.tree σ = .ok found τ ∧ s.visitSelf ⟨i.tree, above⟩ σ = .ok () τ ∧
      τ.contexts = σ.contexts ∧ τ.calls = σ.calls ++ more ∧
      more.map LogEntry.call = (s.unresolved i).map (importError σ.recorder.file) := by
  refine ⟨fun ρ _ => reports_statement s i, fun above σ => ?_⟩
  obtain ⟨found, reports⟩ := reports_statement (ρ := Client) s i
  obtain ⟨τ, more, reported, contexts, calls, made⟩ := report_eq_ok (s.unresolved i) σ
  have checked : s.checkImports i.tree σ = .ok found τ := by
    rw [reports, bind_of_ok reported]
    rfl
  have visited : s.visitSelf ⟨i.tree, above⟩ σ = .ok () τ := by
    have visit : (s.visitSelf ⟨i.tree, above⟩ : Indexing Client Unit) =
        (do let _ ← s.checkImports i.tree) := by
      cases i <;> rfl
    rw [visit, bind_of_ok checked]
    rfl
  exact ⟨found, τ, more, checked, visited, contexts, calls, made⟩

/-- In `import a.b.c as d, e`, where the resolver has an answer for `a` only and knows no more than
that there is something, the errors are for `b` and `e`. -/
example :
    let n (text : String) (column : Nat) : Identifier := ⟨text, ⟨1, column⟩⟩
    let s : Setting := ⟨⟨"/w", virtualFile, []⟩, 3, 7, "/stubs",
      ⟨[(⟨none, ⟨1, 7⟩⟩, .ok [none])]⟩, false⟩
    let path : ModulePath := ⟨n "a" 7, [(⟨1, 8⟩, n "b" 9), (⟨1, 10⟩, n "c" 11)]⟩
    s.unresolved (.ofModules ⟨1, 0⟩
      ⟨⟨path, some (⟨1, 13⟩, n "d" 16)⟩, [(⟨1, 17⟩, ⟨⟨n "e" 19, []⟩, none⟩)]⟩) =
      [n "b" 9, n "e" 19] := by
  decide

end Semantic.Setting

end CodeIndex
