import CodeIndex.Proofs.NameCoverage

/-!
# References to functions

A name may stand for a function without being called: the function is passed on, assigned, or used
as a decorator. The semantic indexer records a reference to a function only where its name is called
or imported. Anywhere else it records the function, but no reference to it, and then reports the
name as one of something unknown, unless another definition of the name settles what it is. Names of
classes, modules and variables are never lost that way, since there is a kind of reference for every
place in which they occur.

## What is proved

* `InTurn.exists_block`, `InTurn.exists_unknown` — where the entries for one definition of a name
  and the report of something unknown stand among the entries for the name.
* `Judged.function` — the entries for a definition that is a function.
* `functions_referred_to_where_called_or_imported` — what the visit of a name logs if one of its
  definitions is a function.
-/

namespace CodeIndex.Semantic.Setting

open Indexing

/-! ### Definitions in turn -/

namespace InTurn

variable {P : Definition → Verdict → List LogEntry → Prop} {unknown : List LogEntry → Prop}
  {ds : List (Option Definition)} {b : Bool} {xs : List LogEntry}

/-- Unless the search ends before, the entries of every definition stand together in the log. -/
theorem exists_block (h : InTurn P unknown ds b xs)
    (elsewhere : ∀ d, some d ∈ ds → ∀ block, ¬ P d .here block) {d : Definition}
    (hd : some d ∈ ds) : ∃ verdict block, block <:+: xs ∧ P d verdict block := by
  induction h with
  | settled | unsettled => cases hd
  | missing rest ih =>
    rcases List.mem_cons.mp hd with none | hd
    · cases none
    · exact ih (fun d hd => elsewhere d (List.mem_cons_of_mem _ hd)) hd
  | here first => exact absurd first (elsewhere _ List.mem_cons_self _)
  | solved first rest ih | unsolved first rest ih =>
    rcases List.mem_cons.mp hd with same | hd
    · obtain rfl := Option.some.inj same
      exact ⟨_, _, (List.prefix_append _ _).isInfix, first⟩
    · obtain ⟨verdict, block, inside, hblock⟩ :=
        ih (fun d hd => elsewhere d (List.mem_cons_of_mem _ hd)) hd
      exact ⟨verdict, block, inside.trans (List.suffix_append _ _).isInfix, hblock⟩

/-- If a definition settles what the name is, nothing is added at the end. -/
theorem forall_mem_of_solved (h : InTurn P unknown ds b xs) {R : LogEntry → Prop}
    (settles : b = true ∨ ∃ d, some d ∈ ds ∧ ∀ verdict block, P d verdict block → verdict = .solved)
    (each : ∀ d verdict block, P d verdict block → ∀ entry ∈ block, R entry) :
    ∀ entry ∈ xs, R entry := by
  induction h with
  | settled => simp
  | unsettled => simp at settles
  | missing rest ih =>
    refine ih ?_
    rcases settles with settled | ⟨d, hd, solves⟩
    · exact .inl settled
    · exact .inr ⟨d, by simpa using hd, solves⟩
  | here first => exact each _ _ _ first
  | solved first rest ih => exact List.forall_mem_append.mpr ⟨each _ _ _ first, ih (.inl rfl)⟩
  | @unsolved d _ _ _ _ first rest ih =>
    refine List.forall_mem_append.mpr ⟨each _ _ _ first, ih ?_⟩
    rcases settles with settled | ⟨d', hd', solves⟩
    · exact .inl settled
    · rcases List.mem_cons.mp hd' with same | hd'
      · obtain rfl := Option.some.inj same
        cases solves _ _ first
      · exact .inr ⟨d', hd', solves⟩

/-- If no definition settles what the name is, the end says so. -/
theorem exists_unknown (h : InTurn P unknown ds false xs)
    (unsettled : ∀ d, some d ∈ ds → ∀ verdict block, P d verdict block → verdict = .unsolved)
    {R : LogEntry → Prop} (each : ∀ d block, P d .unsolved block → ∀ entry ∈ block, R entry) :
    ∃ before after, xs = before ++ after ∧ unknown after ∧ ∀ entry ∈ before, R entry := by
  generalize hb : false = b at h
  induction h with
  | settled => cases hb
  | unsettled h => exact ⟨[], _, rfl, h, by simp⟩
  | missing rest ih => exact ih (fun d hd => unsettled d (List.mem_cons_of_mem _ hd)) hb
  | here first => cases unsettled _ List.mem_cons_self _ _ first
  | solved first => cases unsettled _ List.mem_cons_self _ _ first
  | unsolved first rest ih =>
    obtain ⟨before, after, rfl, hafter, hbefore⟩ :=
      ih (fun d hd => unsettled d (List.mem_cons_of_mem _ hd)) hb
    refine ⟨_ ++ before, after, (List.append_assoc _ _ _).symm, hafter, ?_⟩
    exact List.forall_mem_append.mpr ⟨each _ _ first, hbefore⟩

end InTurn

/-! ### One class or function -/

/-- The definition is of the given kind, it is called `q`, and it does not stand at the position. -/
structure FoundElsewhere (s : Setting) (kind : String) (p : Position) (d : Definition)
    (q : QualifiedName) : Prop where
  kind : d.kind = .ok (some kind)
  elsewhere : standsAt d p = .ok false
  named : s.nameOfDefinition d = .ok (some q)

/-- The entries record a symbol of some kind and then a reference to it. -/
def ReferenceTo (x file : Value) (q : QualifiedName) (symbolKind : SymbolKind)
    (kind : ReferenceKind) (r : Extent) (xs : List LogEntry) : Prop :=
  ∃ i j v w, xs = [⟨.symbol q.stored, i⟩, ⟨.symbolKind i symbolKind, v⟩,
    ⟨.reference x i kind, j⟩, ⟨.referenceLocation j file r, w⟩]

/-- The entries record a symbol of some kind and nothing else. -/
def OnlySymbol (q : QualifiedName) (symbolKind : SymbolKind) (xs : List LogEntry) : Prop :=
  ∃ i v, xs = [⟨.symbol q.stored, i⟩, ⟨.symbolKind i symbolKind, v⟩]

section Definitions

variable {s : Setting} {x file : Value} {c : Cursor} {p : Position} {r : SourceRange}
  {d : Definition} {q : QualifiedName} {verdict : Verdict} {entries : List LogEntry}

theorem Mention.Entries.referenceTo {symbolKind : SymbolKind} {kind : ReferenceKind}
    (h : Mention.Entries x file r
      (.symbol q.stored { symbol := some symbolKind, reference := some kind }) entries) :
    ReferenceTo x file q symbolKind kind r entries := by
  cases h with
  | symbol _ _ i u _ _ j z => exact ⟨i, j, u, z, rfl⟩

theorem Mention.Entries.onlySymbol {symbolKind : SymbolKind}
    (h : Mention.Entries x file r (.symbol q.stored { symbol := some symbolKind }) entries) :
    OnlySymbol q symbolKind entries := by
  cases h with
  | symbol _ _ i u => exact ⟨i, u, rfl⟩

/-- A class or function that stands elsewhere and has a name is mentioned. -/
theorem FoundElsewhere.mentioned {kind : String} (found : s.FoundElsewhere kind p d q)
    (placed : kind = "class" ∨ kind = "function") (start : c.tree.start = .ok p)
    (h : Judged s x file c p r d verdict entries) :
    ∃ m ending, ending.getD .unsolved = verdict ∧ MentionedAs s c d m ending ∧
      m.Entries x file r entries := by
  have recordable : s.Recordable c d := by
    unfold Recordable
    rw [found.kind]
    rcases placed with rfl | rfl <;> exact ⟨p, start, found.elsewhere, q, found.named⟩
  have nonempty := (h.ne_nil_iff start).mpr recordable
  obtain ⟨ending, ends, considered⟩ := h
  cases considered with
  | here | passed => exact absurd rfl nonempty
  | recorded _ _ as written => exact ⟨_, ending, ends, as, written⟩

/-- What a function makes a name a mention of. -/
theorem MentionedAs.eq_function {called : Bool} {m : Mention} {ending : Option Verdict}
    (isFunction : d.kind = .ok (some "function")) (told : c.isCall = .ok called)
    (h : MentionedAs s c d m ending) :
    ∃ q, s.nameOfDefinition d = .ok (some q) ∧ m = .symbol q.stored
      { symbol := some .function, reference := functionReference? c called } ∧
      ending = some (.ofBool (functionReference? c called).isSome) := by
  have same : ∀ {kind}, d.kind = .ok (some kind) → kind = "function" := fun isKind =>
    Option.some.inj (Except.ok.inj (isKind.symm.trans isFunction))
  cases h with
  | function _ named told' =>
    obtain rfl := Except.ok.inj (told.symm.trans told')
    exact ⟨_, named, rfl, rfl⟩
  | functionUntold _ _ untold => cases untold.symm.trans told
  | object isKind | moduleUnclear isKind | moduleQualifier isKind | moduleReference isKind
  | classUnclear isKind | classQualifier isKind | classReference isKind | classUntold isKind
  | classConstructed isKind | parameter isKind | localVariable isKind | lasting isKind =>
    exact absurd (same isKind) (by decide)

/-- What is logged for a function. -/
theorem Judged.function {called : Bool} (start : c.tree.start = .ok p)
    (told : c.isCall = .ok called) (found : s.FoundElsewhere "function" p d q)
    (h : Judged s x file c p r d verdict entries) :
    verdict = .ofBool (functionReference? c called).isSome ∧
      Mention.Entries x file r (.symbol q.stored
        { symbol := some .function, reference := functionReference? c called }) entries := by
  obtain ⟨m, ending, rfl, as, written⟩ := found.mentioned (.inr rfl) start h
  obtain ⟨q', named, rfl, rfl⟩ := as.eq_function found.kind told
  obtain rfl := Option.some.inj (Except.ok.inj (found.named.symm.trans named))
  exact ⟨rfl, written⟩

/-- Where a name does not refer to functions, a function does not settle what it is. -/
theorem Judged.unsettled_by_function {called : Bool} (told : c.isCall = .ok called)
    (isFunction : d.kind = .ok (some "function")) (unreferred : functionReference? c called = none)
    (elsewhere : d.isAt p = false) (h : Judged s x file c p r d verdict entries) :
    verdict = .unsolved := by
  obtain ⟨ending, rfl, considered⟩ := h
  cases considered with
  | here stands => cases elsewhere.symm.trans stands
  | passed _ _ unsettled => rcases unsettled with rfl | rfl <;> rfl
  | recorded _ _ as =>
    obtain ⟨q, -, -, rfl⟩ := as.eq_function isFunction told
    rw [unreferred]
    rfl

end Definitions

/-- **A function is referred to where its name is called or imported.** Let one of the definitions
of a name be a function that stands elsewhere and whose name can be derived, and let none be one of
a class or function that stands at the name itself. The visit of the name ends without a fault.
Where the name is called, or is inside a `from … import` statement, a reference to the function is
logged, from the innermost context and at the range of the name, and nothing is said to be unknown.
In all other places the function is recorded without a reference to it; and if the definitions of
the name are all functions, then nothing else locates the name, and it is reported as one of
something unknown. Constants are passed over. -/
theorem functions_referred_to_where_called_or_imported (s : Setting) (t : Tree)
    (bracketed : t.TrailersBracketed) (c : Cursor) (place : c ∈ t.places) (token : Token)
    (leaf : c.tree = .leaf token) (isName : token.kind = .name) (d : Definition) (q : QualifiedName)
    (answered : some d ∈ s.definitionsAt c s.source.path)
    (function : s.FoundElsewhere "function" token.start d q)
    (stays : ∀ d', some d' ∈ s.definitionsAt c s.source.path → d'.isAt token.start = false)
    (x file : Value) (σ : Trace Client) (stands : σ.Stands x file) :
    ∃ r called τ entries, c.range = .ok r ∧ c.isCall = .ok called ∧ s.visitSelf c σ = .ok () τ ∧
      τ.calls = σ.calls ++ entries ∧
      if constantNames.contains token.text then entries = [] else
        match functionReference? c called with
        | some kind =>
          (∃ block, block <:+: entries ∧ ReferenceTo x file q .function kind r block) ∧
            ∀ entry ∈ entries, entry.call.isUnsolved = false
        | none =>
          (∃ block, block <:+: entries ∧ OnlySymbol q .function block) ∧
            ((∀ d', some d' ∈ s.definitionsAt c s.source.path →
                d'.kind = .ok (some "function")) →
              (∃ v, ⟨.unsolvedReference x .usage file r, v⟩ ∈ entries) ∧
                ∀ entry ∈ entries, entry.call.isLocation = true →
                  entry.call.isUnsolved = true) := by
  obtain ⟨_, above⟩ := c
  subst leaf
  obtain ⟨called, told⟩ := Cursor.isCall_eq_ok bracketed place
  obtain ⟨τ, entries, ran, adds, written⟩ := exists_nameEntries s above isName stands
  refine ⟨tokenRange token, called, τ, entries, rfl, told, ran, adds.calls, ?_⟩
  unfold NameEntries at written
  by_cases constant : constantNames.contains token.text = true
  · rw [if_pos constant] at written ⊢
    exact written
  rw [if_neg constant] at written ⊢
  have elsewhere : ∀ d', some d' ∈ s.definitionsAt ⟨.leaf token, above⟩ s.source.path → ∀ block,
      ¬ Judged s x file ⟨.leaf token, above⟩ token.start (tokenRange token) d' .here block :=
    fun d' hd' block here => by cases (stays d' hd').symm.trans (here.isAt_iff.mpr rfl)
  obtain ⟨verdict, block, inside, judged⟩ := written.exists_block elsewhere answered
  have mentioned := (judged.function rfl told function).2
  cases reference : functionReference? ⟨.leaf token, above⟩ called with
  | some kind =>
    rw [reference] at mentioned
    refine ⟨⟨block, inside, mentioned.referenceTo⟩, ?_⟩
    refine written.forall_mem_of_solved (.inr ⟨d, answered, fun verdict block judged => ?_⟩)
      fun _ _ _ judged entry hentry => (judged.ofName entry hentry).2
    rw [(judged.function rfl told function).1, reference]
    rfl
  | none =>
    rw [reference] at mentioned
    refine ⟨⟨block, inside, mentioned.onlySymbol⟩, fun functions => ?_⟩
    obtain ⟨before, after, rfl, ⟨v, rfl⟩, quiet⟩ := written.exists_unknown
      (fun d' hd' _ _ judged =>
        judged.unsettled_by_function told (functions d' hd') reference (stays d' hd'))
      fun d' block judged => judged.located?_eq_none told
    refine ⟨⟨v, by simp⟩, fun entry hentry location => ?_⟩
    rcases List.mem_append.mp hentry with hentry | hentry
    · rw [Call.isLocation, quiet entry hentry] at location
      cases location
    · obtain rfl := List.mem_singleton.mp hentry
      rfl

/-- A call of a function with the function itself as the argument. -/
def functionAsArgument : Tree :=
  .node .atomExpr
    [.tokenAt .name "len" 1 0,
      .node .trailer
        [.tokenAt .operator "(" 1 3, .tokenAt .name "len" 1 4, .tokenAt .operator ")" 1 7]]

/-- A resolver that knows the function by both names. The function has no place in a file. -/
def functionResolver : Resolver where
  answers :=
    let function : Definition :=
      { kind := .ok (some "function"), fullName := .ok (some "builtins.len") }
    [(⟨none, ⟨1, 0⟩⟩, .ok [some function]), (⟨none, ⟨1, 4⟩⟩, .ok [some function])]

/-- The name in front of the brackets refers to the function. -/
theorem function_referred_to_by_call :
    let s : Setting := ⟨⟨"/w", virtualFile, []⟩, 3, 7, "/stubs", functionResolver, false⟩
    let σ : Trace Client := finalState (s.begin ({ database := {} } : Client).fresh)
    let token : Token := { kind := .name, text := "len", start := ⟨1, 0⟩ }
    let c : Cursor := ⟨.leaf token, [⟨.atomExpr, functionAsArgument.children?.getD [], 0⟩]⟩
    functionAsArgument.TrailersBracketed ∧ c ∈ functionAsArgument.places ∧
      ∃ d, s.definitionsAt c s.source.path = [some d] ∧ d.isAt token.start = false ∧
      ∃ q, s.FoundElsewhere "function" token.start d q ∧ ∃ x, σ.Stands x σ.recorder.file ∧
      ∃ r τ entries, s.visitSelf c σ = .ok () τ ∧ τ.calls = σ.calls ++ entries ∧
        ∃ block, block <:+: entries ∧ ReferenceTo x σ.recorder.file q .function .call r block := by
  intro s σ token c
  have bracketed : functionAsArgument.TrailersBracketed := by decide
  have place : c ∈ functionAsArgument.places := List.mem_of_getElem? (i := 1) rfl
  have called : c.isCall = .ok true := by decide
  have context : σ.contexts ≠ [] := by decide +kernel
  obtain ⟨top, rest, contexts⟩ := List.exists_cons_of_ne_nil context
  have stands : σ.Stands top.id σ.recorder.file := ⟨⟨top, rest, contexts, rfl⟩, rfl⟩
  let d : Definition := { kind := .ok (some "function"), fullName := .ok (some "builtins.len") }
  have answers : s.definitionsAt c s.source.path = [some d] := rfl
  have function : s.FoundElsewhere "function" token.start d (.dotted ["builtins", "len"]) :=
    ⟨rfl, rfl, by decide +kernel⟩
  have stays : ∀ d', some d' ∈ s.definitionsAt c s.source.path → d'.isAt token.start = false := by
    intro d' hd'
    rw [answers] at hd'
    obtain rfl := Option.some.inj (List.mem_singleton.mp hd')
    rfl
  obtain ⟨r, called', τ, entries, -, told, ran, calls, referred⟩ :=
    functions_referred_to_where_called_or_imported s functionAsArgument bracketed c place token rfl
      rfl d _ (answers ▸ List.mem_singleton.mpr rfl) function stays _ _ σ stands
  obtain rfl := Except.ok.inj (called.symm.trans told)
  rw [if_neg (by decide)] at referred
  exact ⟨bracketed, place, d, answers, rfl, _, function, _, stands, r, τ, entries, ran, calls,
    referred.1⟩

/-- The argument is reported as something unknown, although the resolver knows the function. -/
theorem function_as_argument_unknown :
    let s : Setting := ⟨⟨"/w", virtualFile, []⟩, 3, 7, "/stubs", functionResolver, false⟩
    let σ : Trace Client := finalState (s.begin ({ database := {} } : Client).fresh)
    let token : Token := { kind := .name, text := "len", start := ⟨1, 4⟩ }
    let parts := functionAsArgument.children?.getD []
    let c : Cursor := ⟨.leaf token, [⟨.trailer, (parts[1]?.bind Tree.children?).getD [], 1⟩,
      ⟨.atomExpr, parts, 1⟩]⟩
    let made := ((finalState (s.visitSelf c σ)).calls.drop σ.calls.length).map LogEntry.call
    functionAsArgument.TrailersBracketed ∧ c ∈ functionAsArgument.places ∧
      (∃ d q, s.definitionsAt c s.source.path = [some d] ∧
        s.FoundElsewhere "function" token.start d q) ∧
      made.any Call.isUnsolved = true ∧ made.any Call.isKnown = false := by
  intro s σ token parts c made
  refine ⟨by decide, List.mem_of_getElem? (i := 4) rfl, ⟨_, .dotted ["builtins", "len"], rfl, ?_⟩,
    by decide +kernel, by decide +kernel⟩
  exact ⟨rfl, rfl, by decide +kernel⟩

end CodeIndex.Semantic.Setting
