import CodeIndex.Proofs.ForeignDefinitions

/-!
# Names at their own definitions

The name of a class or function is one of the places that the name itself refers to. Nothing should
be recorded for it then: the definition is recorded when it is entered. But the definitions of a
name are looked at in turn, and each leaves its calls at once. The one that stands at the name ends
the search, and no reference to something unknown follows. It does not take back what the
definitions before it have left, as in a file that defines the same class twice.

## What is proved

* `Judged.ne_nil_iff` — one definition leaves calls just if it can be recorded.
* `InTurn.ne_nil_iff` — so it is for the definitions in turn, up to one that stands at the name.
* `nothing_recorded_at_definition_site` — when nothing is recorded for a name that stands at one of
  its definitions.
-/

namespace CodeIndex

open Indexing

namespace Semantic.Setting

section Turns

variable {s : Setting} {x file : Value} {c : Cursor} {p : Position} {r : SourceRange}
  {d : Definition} {ds : List (Option Definition)} {settled : Bool} {verdict : Verdict}
  {xs ys entries : List LogEntry}

/-- A definition that stands at the name comes after one that does not. -/
theorem Judged.site_later (first : Judged s x file c p r d verdict xs) (apart : verdict ≠ .here)
    (site : ∃ d', some d' ∈ some d :: ds ∧ d'.isAt p = true) :
    ∃ d', some d' ∈ ds ∧ d'.isAt p = true := by
  simpa [mt first.isAt_iff.mp apart] using site

/-- Another definition is followed by the rest. -/
theorem Judged.append_ne_nil_iff (start : c.tree.start = .ok p)
    (first : Judged s x file c p r d verdict xs) (apart : verdict ≠ .here)
    (rest : ys ≠ [] ↔ ∃ d, some d ∈ lookedAt p ds ∧ s.Recordable c d) :
    xs ++ ys ≠ [] ↔ ∃ d', some d' ∈ lookedAt p (some d :: ds) ∧ s.Recordable c d' := by
  have looked : (∃ d', some d' ∈ lookedAt p (some d :: ds) ∧ s.Recordable c d') ↔
      s.Recordable c d ∨ ∃ d', some d' ∈ lookedAt p ds ∧ s.Recordable c d' := by
    simp [lookedAt, mt first.isAt_iff.mp apart, or_and_right, exists_or]
  rw [looked, ← first.ne_nil_iff start, ← rest, ne_eq, List.append_eq_nil_iff]
  exact Decidable.not_and_iff_or_not

/-- Up to a definition that stands at the name, those that can be recorded leave calls. -/
theorem InTurn.ne_nil_iff (start : c.tree.start = .ok p)
    (h : InTurn (Judged s x file c p r) (UnknownEntries x file r) ds settled entries)
    (site : ∃ d, some d ∈ ds ∧ d.isAt p = true) :
    entries ≠ [] ↔ ∃ d, some d ∈ lookedAt p ds ∧ s.Recordable c d := by
  induction h with
  | settled | unsettled =>
    obtain ⟨d, hd, -⟩ := site
    cases hd
  | missing _ ih => exact (ih (by simpa using site)).trans (by simp [lookedAt])
  | here first =>
    obtain rfl := first.eq_nil
    simp [lookedAt, first.isAt_iff.mpr rfl]
  | solved first _ ih | unsolved first _ ih =>
    exact first.append_ne_nil_iff start (by simp) (ih (first.site_later (by simp) site))

/-- Where a definition stands at the name, nothing is said to be unknown. -/
theorem InTurn.isUnsolved_eq_false
    (h : InTurn (Judged s x file c p r) (UnknownEntries x file r) ds settled entries)
    (site : ∃ d, some d ∈ ds ∧ d.isAt p = true) :
    ∀ e ∈ entries, e.call.isUnsolved = false := by
  induction h with
  | settled | unsettled =>
    obtain ⟨d, hd, -⟩ := site
    cases hd
  | missing _ ih => exact ih (by simpa using site)
  | here first => exact fun e he => (first.ofName e he).2
  | solved first _ ih | unsolved first _ ih =>
    exact List.forall_mem_append.mpr ⟨fun e he => (first.ofName e he).2,
      ih (first.site_later (by simp) site)⟩

end Turns

/-- **A name that stands at one of its definitions leaves what the definitions before leave.** Let a
class or function among the definitions of a name stand at the name itself. The visit ends without a
fault and makes no reference to something unknown. It records nothing just if the name is a constant
or none of the definitions before the first such class or function can be recorded. -/
theorem nothing_recorded_at_definition_site (s : Setting) (c : Cursor) (token : Token)
    (leaf : c.tree = .leaf token) (isName : token.kind = .name)
    (site : ∃ d, some d ∈ s.definitionsAt c s.source.path ∧ d.isAt token.start = true)
    (σ : Trace Client) (context : σ.contexts ≠ []) :
    ∃ τ xs, s.visitSelf c σ = .ok () τ ∧ Made σ τ xs ∧ (∀ x ∈ xs, x.isUnsolved = false) ∧
      (xs = [] ↔ constantNames.contains token.text = true ∨
        ∀ d, some d ∈ lookedAt token.start (s.definitionsAt c s.source.path) →
          ¬ s.Recordable c d) := by
  obtain ⟨_, above⟩ := c
  subst leaf
  obtain ⟨x, stands⟩ := Trace.exists_stands context
  obtain ⟨τ, entries, ran, adds, written⟩ := exists_nameEntries s above isName stands
  unfold NameEntries at written
  by_cases constant : constantNames.contains token.text = true
  · rw [if_pos constant] at written
    subst written
    exact ⟨τ, [], ran, adds.made context, by simp, iff_of_true rfl (.inl constant)⟩
  · rw [if_neg constant] at written
    refine ⟨τ, _, ran, adds.made context, ?_, ?_⟩
    · exact List.forall_mem_map.mpr (written.isUnsolved_eq_false site)
    · rw [List.map_eq_nil_iff, or_iff_right constant, ← not_iff_not]
      refine (written.ne_nil_iff rfl site).trans ?_
      simp only [not_forall, Classical.not_not, exists_prop]

/-- A resolver that knows the two definitions of a class in one file. Asked for the first name, it
begins with the definition at the name; asked for the second, with the other one. -/
def redefinitionResolver : Resolver where
  answers :=
    let definition (line : Nat) : Definition :=
      { kind := .ok (some "class"), line := .ok (some line), column := .ok (some 6),
        modulePath := .ok (some "/work/a.py"),
        site := .place (.root (.tokenAt .name "A" line 6)) }
    [(⟨some "/work/a.py", ⟨1, 6⟩⟩, .ok [some (definition 1), some (definition 4)]),
      (⟨some "/work/a.py", ⟨4, 6⟩⟩, .ok [some (definition 1), some (definition 4)])]

/-- Nothing is recorded for the name of the first class, whose own definition comes first. -/
theorem first_of_two_definitions_silent :
    let s : Setting :=
      ⟨⟨"/work", "/work/a.py", ["/work"]⟩, 3, 7, "/stubs", redefinitionResolver, false⟩
    let σ : Trace Client := finalState (s.begin ({ database := {} } : Client).fresh)
    let first : Token := { kind := .name, text := "A", start := ⟨1, 6⟩ }
    let c : Cursor := .root (.leaf first)
    (∃ d, some d ∈ s.definitionsAt c s.source.path ∧ d.isAt first.start = true) ∧
      σ.contexts ≠ [] ∧ ∃ τ, s.visitSelf c σ = .ok () τ ∧ Made σ τ [] := by
  intro s σ first c
  have site : ∃ d, some d ∈ s.definitionsAt c s.source.path ∧ d.isAt first.start = true :=
    ⟨_, List.mem_cons_self, by decide +kernel⟩
  have context : σ.contexts ≠ [] := by decide +kernel
  obtain ⟨τ, xs, ran, made, -, nothing⟩ :=
    nothing_recorded_at_definition_site s c first rfl rfl site σ context
  have looked : lookedAt first.start (s.definitionsAt c s.source.path) = [] := rfl
  obtain rfl : xs = [] := nothing.mpr (.inr (by simp [looked]))
  exact ⟨site, context, τ, ran, made⟩

/-- The name of the second class stands at a definition too, but is recorded as a use of the
class. -/
theorem second_of_two_definitions_recorded :
    let s : Setting :=
      ⟨⟨"/work", "/work/a.py", ["/work"]⟩, 3, 7, "/stubs", redefinitionResolver, false⟩
    let σ : Trace Client := finalState (s.begin ({ database := {} } : Client).fresh)
    let second : Token := { kind := .name, text := "A", start := ⟨4, 6⟩ }
    let c : Cursor := .root (.leaf second)
    (∃ d, some d ∈ s.definitionsAt c s.source.path ∧ d.isAt second.start = true) ∧
    ((finalState (s.visitSelf c σ)).calls.drop σ.calls.length).any
      (fun entry => entry.call.located?.isSome) = true := by
  intro s σ second c
  exact ⟨⟨_, List.mem_cons_of_mem _ List.mem_cons_self, by decide +kernel⟩, by decide +kernel⟩

end Semantic.Setting

end CodeIndex
