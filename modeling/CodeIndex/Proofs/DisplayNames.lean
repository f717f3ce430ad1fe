import CodeIndex.Proofs.Discipline
import CodeIndex.Proofs.Identifiers
import CodeIndex.Semantic.Reference
import CodeIndex.Syntactic.Visit

/-!
# What display names say

A dotted name is shown as its parts with dots between them. The resolver gives the full name of a
definition in this form, so the text is taken apart at its dots, whatever it is, and shown again as
it was. The other way round the parts can be read off the text if they have no dots themselves.

A local variable is recorded by a text alone, its own name in angle brackets behind the display name
of the function it is in. Names of functions may hold anything but dots, so there may be an angle
bracket in front of the one that belongs to the variable; but there is none behind it, and the text
is taken apart there.

## What is proved

* `QualifiedName.display_dotParts`, `QualifiedName.AreDotless.dotParts_display` — taking names apart
  and showing them undo each other.
* `Semantic.Setting.localName_of_namedAfter` — how the semantic indexer names local variables.
* `QualifiedName.AreDotless.localText_eq_iff` — no two variables share a text.
* `display_names_unambiguous` — all of this for both indexers.
-/

namespace CodeIndex

/-- A text behind a mark that does not occur in it can be told from what stands before. -/
theorem append_cons_inj_right {a a' s s' : List Char} {c : Char} (hs : c ∉ s) (hs' : c ∉ s')
    (h : a ++ c :: s = a' ++ c :: s') : a = a' ∧ s = s' := by
  have mirrored : s.reverse ++ c :: a.reverse = s'.reverse ++ c :: a'.reverse := by
    simpa using congrArg List.reverse h
  obtain ⟨behind, before⟩ := append_cons_inj (by simpa using hs) (by simpa using hs') mirrored
  exact ⟨List.reverse_inj.mp before, List.reverse_inj.mp behind⟩

namespace QualifiedName

/-! ### Dotted names -/

/-- The parts of a text between its dots. -/
def dotParts (text : String) : List String := (text.toList.splitOn '.').map String.ofList

/-- Names that can be the parts of a dotted name: there is one, and none holds a dot. -/
structure AreDotless (ns : List String) : Prop where
  ne_nil : ns ≠ []
  no_dot : ∀ n ∈ ns, '.' ∉ n.toList

theorem display_dotted (ns : List String) : (dotted ns).display = String.intercalate "." ns := by
  have bare : ∀ n : String, NameElement.display ⟨n, "", ""⟩ = n := fun n => by
    simp [NameElement.display]
  simp [display, dotted, Function.comp_def, bare]

theorem toList_display_dotted (ns : List String) :
    (dotted ns).display.toList = ['.'].intercalate (ns.map String.toList) := by
  rw [display_dotted, String.toList_intercalate]
  rfl

/-- A text that is taken apart at its dots is shown as it was. -/
theorem display_dotParts (text : String) : (dotted (dotParts text)).display = text := by
  rw [← String.toList_inj, toList_display_dotted, dotParts, List.map_map]
  simp [Function.comp_def, List.intercalate_splitOn]

/-- The parts of a dotted name can be read off the text. -/
theorem AreDotless.dotParts_display {ns : List String} (h : AreDotless ns) :
    dotParts (dotted ns).display = ns := by
  have pieces : ∀ cs ∈ ns.map String.toList, '.' ∉ cs := by
    intro cs hcs
    obtain ⟨n, hn, rfl⟩ := List.mem_map.mp hcs
    exact h.no_dot n hn
  rw [dotParts, toList_display_dotted,
    List.splitOn_intercalate '.' pieces (by simpa using h.ne_nil), List.map_map]
  simp [Function.comp_def]

/-- Dotted names that are shown alike have the same parts. -/
theorem AreDotless.display_inj {ns ns' : List String} (h : AreDotless ns) (h' : AreDotless ns')
    (same : (dotted ns).display = (dotted ns').display) : ns = ns' := by
  rw [← h.dotParts_display, same, h'.dotParts_display]

/-! ### Local variables -/

/-- The text for a local variable of what is called `q`. -/
def localText (q : QualifiedName) (v : String) : String := q.display ++ "<" ++ v ++ ">"

theorem toList_localText (q : QualifiedName) (v : String) :
    (q.localText v).toList = q.display.toList ++ '<' :: (v.toList ++ ['>']) := by
  simp [localText, String.toList_append]

/-- The variable and what it belongs to can be read off the text. -/
theorem localText_inj {q q' : QualifiedName} {v v' : String} (hv : '<' ∉ v.toList)
    (hv' : '<' ∉ v'.toList) (same : q.localText v = q'.localText v') :
    q.display = q'.display ∧ v = v' := by
  rw [← String.toList_inj, toList_localText, toList_localText] at same
  obtain ⟨owners, own⟩ := append_cons_inj_right (by simpa using hv) (by simpa using hv') same
  exact ⟨String.toList_inj.mp owners, String.toList_inj.mp (List.append_cancel_right own)⟩

theorem AreDotless.localText_eq_iff {ns ns' : List String} (h : AreDotless ns)
    (h' : AreDotless ns') {v v' : String} (hv : '<' ∉ v.toList) (hv' : '<' ∉ v'.toList) :
    (dotted ns).localText v = (dotted ns').localText v' ↔ ns = ns' ∧ v = v' := by
  constructor
  · intro same
    obtain ⟨owners, own⟩ := localText_inj hv hv' same
    exact ⟨h.display_inj h' owners, own⟩
  · rintro ⟨rfl, rfl⟩
    rfl

end QualifiedName

/-! ### The semantic indexer -/

namespace Semantic.Setting

variable {ρ : Type} {s : Setting} {d : Definition} {σ : Trace ρ} {q : QualifiedName}

/-- The name of the function in which the variable that `d` defines is, if there is one. -/
def functionName (s : Setting) (d : Definition) : Except Fault (Option QualifiedName) := do
  match ← s.fileOf d, (← d.site.cursor).bind (Cursor.enclosing? (· = .funcdef)) with
  | some file, some function =>
    match ← function.firstName? with
    | none => return none
    | some name => s.qualifiedName name file
  | _, _ => return none

/-- The variable that `d` defines is named after `q`: that is the name of the function it is in, or
if there is nothing to show for it, the name of the innermost context. -/
inductive NamedAfter (s : Setting) (d : Definition) (σ : Trace ρ) (q : QualifiedName) : Prop where
  | function : s.functionName d = .ok (some q) → q.display ≠ "" → NamedAfter s d σ q
  | context {name : Option QualifiedName} {top : Context} {outer : List Context} :
      s.functionName d = .ok name → name.elim "" QualifiedName.display = "" →
        σ.contexts = top :: outer → top.name = q.display → NamedAfter s d σ q

theorem localName_eq {name : Option QualifiedName} {site : Cursor} {v : String}
    (named : s.functionName d = .ok name) (hsite : d.site.cursor = .ok (some site))
    (text : site.tree.text = .ok v) :
    (s.localName d : Indexing ρ String) = do
      let shown := name.elim "" QualifiedName.display
      let owner ← if shown.isEmpty then pure (← Indexing.context).name else pure shown
      return owner ++ "<" ++ v ++ ">" := by
  obtain ⟨file, hfile, named⟩ := except_bind_eq_ok.mp named
  obtain ⟨_, hsite', named⟩ := except_bind_eq_ok.mp named
  obtain rfl := Except.ok.inj (hsite.symm.trans hsite')
  rw [localName, hsite, hfile]
  simp only [lift_ok, pure_bind, text, Option.bind_some] at named ⊢
  cases file with
  | none =>
    cases named
    rfl
  | some file =>
    cases around : site.enclosing? (· = .funcdef) with
    | none =>
      rw [around] at named
      cases named
      rfl
    | some function =>
      rw [around] at named
      obtain ⟨leaf, hleaf, named⟩ := except_bind_eq_ok.mp named
      simp only [hleaf, lift_ok, pure_bind]
      cases leaf with
      | none =>
        cases named
        rfl
      | some leaf =>
        simp only at named
        simp only [named, lift_ok, pure_bind]
        cases name <;> rfl

/-- The name that the semantic indexer gives to a local variable. -/
theorem localName_of_namedAfter {site : Cursor} {v : String} (after : s.NamedAfter d σ q)
    (hsite : d.site.cursor = .ok (some site)) (text : site.tree.text = .ok v) :
    s.localName d σ = .ok (q.localText v) σ := by
  cases after with
  | function named shown =>
    rw [localName_eq named hsite text]
    simp only [Option.elim_some, String.isEmpty_iff, if_neg shown]
    rfl
  | @context name top outer named nothing contexts owner =>
    rw [localName_eq named hsite text, nothing]
    simp only [String.isEmpty_iff, if_true, pure_bind]
    rw [Indexing.context_bind, contexts]
    change EStateM.Result.ok (top.name ++ "<" ++ v ++ ">") σ = _
    rw [owner]
    rfl

end Semantic.Setting

open QualifiedName in
/-- **Display names are unambiguous.** A name that is made from the full name of a definition is
shown as that full name, whatever it is. A dotted name whose parts have no dots is shown by a text
that has these parts between its dots. The text for a local variable is made of a display name and
the name of the variable, by the syntactic indexer from the innermost context, and by the semantic
one from the function the variable is in or the innermost context. If there is no opening angle
bracket in the names of the variables, two such texts for dotted names are equal if and only if the
dotted names have the same parts and the variables the same name. -/
theorem display_names_unambiguous :
    (∀ (d : Definition) (full : String), d.fullName = .ok (some full) →
      ∃ q, Semantic.Setting.nameByFullName d = .ok q ∧ q.display = full) ∧
    (∀ ns, AreDotless ns → dotParts (dotted ns).display = ns) ∧
    (∀ (q : QualifiedName) (v : String),
      (∀ context : Context, context.name = q.display →
        Syntactic.localName context v = q.localText v) ∧
      ∀ (ρ : Type) (s : Semantic.Setting) (d : Definition) (site : Cursor) (σ : Trace ρ),
        s.NamedAfter d σ q → d.site.cursor = .ok (some site) → site.tree.text = .ok v →
          s.localName d σ = .ok (q.localText v) σ) ∧
    ∀ (ns ns' : List String) (v v' : String), AreDotless ns → AreDotless ns' →
      '<' ∉ v.toList → '<' ∉ v'.toList →
        ((dotted ns).localText v = (dotted ns').localText v' ↔ ns = ns' ∧ v = v') := by
  refine ⟨fun d full given => ?_, fun ns dotless => dotless.dotParts_display,
    fun q v => ⟨fun context named => ?_, ?_⟩, ?_⟩
  · refine ⟨dotted (dotParts full), ?_, display_dotParts full⟩
    rw [Semantic.Setting.nameByFullName, given]
    rfl
  · rw [Syntactic.localName, named]
    rfl
  · intro ρ s d site σ after hsite text
    exact Semantic.Setting.localName_of_namedAfter after hsite text
  · intro ns ns' v v' dotless dotless' plain plain'
    exact dotless.localText_eq_iff dotless' plain plain'

-- with an angle bracket in the name of a variable, two variables can have one text
example : (QualifiedName.dotted ["m", "f<g"]).localText "x" =
    (QualifiedName.dotted ["m", "f"]).localText "g<x" := by decide

/-- A function with a local variable. -/
def variableInFunction : Tree :=
  .node .funcdef
    [.tokenAt .keyword "def" 1 0, .tokenAt .name "f" 1 4,
      .node .parameters [.tokenAt .operator "(" 1 5, .tokenAt .operator ")" 1 6],
      .tokenAt .operator ":" 1 7,
      .node .exprStmt
        [.tokenAt .name "x" 1 9, .tokenAt .operator "=" 1 11, .tokenAt .name "y" 1 13]]

/-- The definition of a name in the function, by its place. -/
def definitionInFunction (path : List Nat) : Definition :=
  { site := ((Cursor.root variableInFunction).descend? path).elim .unplaced .place }

/-- The variable is named after the function, and has another text than a variable of that name in
any other function. -/
theorem variable_named_after_function :
    let s : Semantic.Setting :=
      ⟨⟨"/w", virtualFile, []⟩, 3, 7, "/stubs",
        ⟨[(⟨none, ⟨1, 4⟩⟩, .ok [some (definitionInFunction [1])])]⟩, false⟩
    let d := definitionInFunction [4, 0]
    let σ : Trace Unit := { recorder := () }
    let f := QualifiedName.dotted ["virtual_file", "f"]
    s.NamedAfter d σ f ∧ s.localName d σ = .ok "virtual_file.f<x>" σ ∧
      Syntactic.localName { id := .null, kind := .function, name := f.display } "x" =
        "virtual_file.f<x>" ∧
      (∀ ns, QualifiedName.AreDotless ns →
        (QualifiedName.dotted ns).localText "x" = f.localText "x" → ns = ["virtual_file", "f"]) ∧
      QualifiedName.dotParts f.display = ["virtual_file", "f"] ∧
      ∃ q, Semantic.Setting.nameByFullName { fullName := .ok (some "a..b") } = .ok q ∧
        q.display = "a..b" := by
  intro s d σ f
  obtain ⟨full, parts, texts, apart⟩ := display_names_unambiguous
  have after : s.NamedAfter d σ f := .function rfl (by decide)
  have dotless : QualifiedName.AreDotless ["virtual_file", "f"] := ⟨by decide, by decide⟩
  refine ⟨after, ?_, ?_, ?_, parts _ dotless, full _ "a..b" rfl⟩
  · exact (texts f "x").2 Unit s d _ σ after rfl rfl
  · exact (texts f "x").1 _ rfl
  · intro ns dotless' same
    exact ((apart ns _ "x" "x" dotless' dotless (by decide) (by decide)).mp same).1

end CodeIndex
