import CodeIndex.Proofs.Logging
import Mathlib.Tactic.MkIffOfInductiveProp

/-!
# What a name is taken for

The syntactic indexer takes each name that it looks at for one of a few things, and this decides all
that is logged for the name. `Occurrence` lists what a name can be taken for, `Occurrence.Entries`
says what is logged then, and `OccursAs` says of which names it is true. Each function of the
indexer that deals with a name has one lemma about it. A fault leaves no trace in the log, since all
questions are asked before anything is recorded.

## What is proved

* `outcome_visitDefining`, `outcome_visitUse`, `outcome_visitName` — what each function takes a name
  for, and what it logs.
* `outcome_visitSelf` — what is done for a place of any kind.
* `recordsField_of_look` — inside a function a field is only recorded for an attribute of the first
  parameter, under the name of the place.
-/

namespace CodeIndex

open Indexing

/-- The call makes a symbol a field. -/
def Call.makesField : Call → Bool
  | .symbolKind _ .field => true
  | _ => false

namespace Syntactic

/-! ### Occurrences -/

/-- What a name can be taken for. -/
inductive Occurrence where
  /-- A logical constant or the missing value. -/
  | constant
  /-- What is in front of a dot. -/
  | qualifier
  /-- A reference to something unknown. -/
  | unknown (kind : ReferenceKind)
  /-- The use of a local variable. -/
  | known
  /-- The definition of a local variable. -/
  | declared
  /-- The definition of a variable outside of all functions. -/
  | lasting (name : QualifiedName) (kind : SymbolKind)
  /-- The definition of a field by a method, and a use of it. -/
  | member (name : QualifiedName) (kind : ReferenceKind)

namespace Occurrence

/-- The entries for the name `x` that has the range `r`. -/
inductive Entries (top : Context) (file : Value) (x : String) (r : SourceRange) :
    Occurrence → List LogEntry → Prop where
  | constant : Entries top file x r constant []
  | qualifier (i v : Value) : Entries top file x r qualifier
      [⟨.symbol QualifiedName.unsolved.stored, i⟩, ⟨.qualifierLocation i file r, v⟩]
  | unknown (kind : ReferenceKind) (v : Value) : Entries top file x r (unknown kind)
      [⟨.unsolvedReference top.id kind file r, v⟩]
  | known (i v : Value) : Entries top file x r known
      [⟨.localSymbol (localName top x), i⟩, ⟨.localLocation i file r, v⟩]
  | declared (i v : Value) : Entries top file x r declared
      [⟨.localSymbol (localName top x), i⟩, ⟨.localLocation i file r, v⟩]
  | lasting (name : QualifiedName) (kind : SymbolKind) (i u v w : Value) :
      Entries top file x r (lasting name kind)
        [⟨.symbol name.stored, i⟩, ⟨.symbolKind i kind, u⟩, ⟨.definitionKind i .explicit, v⟩,
          ⟨.symbolLocation i file r, w⟩]
  | member (name : QualifiedName) (kind : ReferenceKind) (i j u v w z : Value) :
      Entries top file x r (member name kind)
        [⟨.symbol name.stored, i⟩, ⟨.symbolKind i .field, u⟩, ⟨.definitionKind i .explicit, v⟩,
          ⟨.symbolLocation i file r, w⟩, ⟨.reference top.id i kind, j⟩,
          ⟨.referenceLocation j file r, z⟩]

/-- The contexts afterwards. A local variable that is defined becomes known. -/
def contexts (x : String) (before : List Context) : Occurrence → List Context
  | declared => withLocal x before
  | _ => before

/-- Between the two states the name `x`, which has the range `r`, was recorded as the occurrence. -/
structure Logged (o : Occurrence) (top : Context) (x : String) (r : SourceRange)
    (σ τ : Trace Client) : Prop where
  entries : ∃ entries, o.Entries top σ.recorder.file x r entries ∧ τ.calls = σ.calls ++ entries
  contexts : τ.contexts = o.contexts x σ.contexts

/-- What is recorded without a fault is recorded for some reason. -/
theorem because {o : Occurrence} {top : Context} {x : String} {r : SourceRange}
    {σ : Trace Client} {P : Occurrence → Prop} {result : EStateM.Result Fault (Trace Client) Unit}
    (h : Outcome (fun _ τ => o.Logged top x r σ τ) (fun _ => False) result) (reason : P o) :
    Outcome (fun _ τ => ∃ o, P o ∧ o.Logged top x r σ τ) (fun τ => Adds σ τ []) result :=
  h.mono (fun _ _ logged => ⟨o, reason, logged⟩) fun _ impossible => impossible.elim

end Occurrence

/-! ### Imposed kinds -/

/-- The innermost imposed kind does not decide what names are. -/
def Undecided (kinds : List ImposedKind) : Prop :=
  ∀ k ∈ kinds.head?, k.kind ≠ .inheritance ∧ k.kind ≠ .importing

instance (kinds : List ImposedKind) : Decidable (Undecided kinds) :=
  inferInstanceAs (Decidable (∀ k ∈ kinds.head?, _))

/-- The innermost imposed kind decides what names are. -/
def Decided (kinds : List ImposedKind) (kind : ReferenceKind) : Prop :=
  (kinds.map ImposedKind.kind).head? = some kind ∧ (kind = .inheritance ∨ kind = .importing)

/-- The imposed kinds are only read, and the innermost one decides or it does not. -/
theorem imposedKind_cases (σ : Trace Client) :
    (imposedKind : Indexing Client _) σ = .ok none σ ∧ Undecided σ.kinds ∨
      ∃ kind, (imposedKind : Indexing Client _) σ = .ok (some kind) σ ∧ Decided σ.kinds kind := by
  have got : (get : Indexing Client (Trace Client)) σ = .ok σ σ := rfl
  rw [imposedKind, bind_of_ok got]
  cases σ.kinds with
  | nil => exact .inl ⟨rfl, by simp [Undecided]⟩
  | cons k kinds =>
    by_cases decides : (k.kind = .inheritance || k.kind = .importing) = true
    · exact .inr ⟨k.kind, congrFun (if_pos decides) σ, rfl, by simpa using decides⟩
    · exact .inl ⟨congrFun (if_neg decides) σ, by simpa [Undecided] using decides⟩

theorem Decided.not_undecided {kinds : List ImposedKind} {kind : ReferenceKind}
    (h : Decided kinds kind) : ¬ Undecided kinds := by
  intro undecided
  obtain ⟨innermost, decides⟩ := h
  rw [List.head?_map, Option.map_eq_some_iff] at innermost
  obtain ⟨k, hk, rfl⟩ := innermost
  obtain ⟨noBase, noImport⟩ := undecided k hk
  rcases decides with isBase | isImport
  · exact noBase isBase
  · exact noImport isImport

theorem imposedKind_of_undecided {σ : Trace Client} (h : Undecided σ.kinds) :
    (imposedKind : Indexing Client _) σ = .ok none σ := by
  rcases imposedKind_cases σ with ⟨none, -⟩ | ⟨kind, -, decided⟩
  · exact none
  · exact absurd h decided.not_undecided

theorem imposedKind_of_decided {σ : Trace Client} {kind : ReferenceKind}
    (h : Decided σ.kinds kind) : (imposedKind : Indexing Client _) σ = .ok (some kind) σ := by
  rcases imposedKind_cases σ with ⟨-, undecided⟩ | ⟨kind', told, decided⟩
  · exact absurd undecided h.not_undecided
  · rwa [Option.some.inj (h.1.symm.trans decided.1)]

/-! ### Reasons -/

/-- The kind of reference that a name is: a call if an opening bracket follows. -/
def nameReference (d : Cursor) : ReferenceKind := if followedBy "(" d then .call else .usage

/-- What a defining name is taken for. -/
inductive DefinedAs (s : Setting) (contexts : List Context) (top : Context) (d : Cursor)
    (reference : ReferenceKind) : Occurrence → Prop where
  /-- Outside of all functions it is a variable, if it has a name there. -/
  | lasting {name : QualifiedName} {kind : SymbolKind}
      (outside : d.definitionAround?.any (Cursor.isKind .funcdef) = false)
      (named : qualifiedName s.source contexts d = .ok (some name)) :
      DefinedAs s contexts top d reference (.lasting name kind)
  /-- It may have no name, or be an attribute of some other object. -/
  | unknown : DefinedAs s contexts top d reference (.unknown reference)
  /-- In a function it is a local variable. -/
  | declared (inside : d.definitionAround?.any (Cursor.isKind .funcdef) = true) :
      DefinedAs s contexts top d reference .declared
  /-- In a method it may be an attribute of the first parameter. -/
  | member {name : QualifiedName}
      (inside : d.definitionAround?.any (Cursor.isKind .funcdef) = true)
      (ofObject : isAttribute d = .ok true) (self : isSelf top d = .ok true)
      (named : qualifiedName s.source contexts d = .ok (some name)) :
      DefinedAs s contexts top d reference (.member name reference)

/-- What a name that defines nothing is taken for. -/
inductive UsedAs (top : Context) (d : Cursor) (x : String) (reference : ReferenceKind) :
    Occurrence → Prop where
  | known (plain : isAttribute d = .ok false) (mem : x ∈ top.locals) :
      UsedAs top d x reference .known
  | unknown : UsedAs top d x reference (.unknown reference)

/-- What a name is taken for that is recorded by itself. -/
inductive TakenFor (s : Setting) (σ : Trace Client) (top : Context) (d : Cursor) (x : String) :
    Occurrence → Prop where
  | imposed {kind : ReferenceKind} (decided : Decided σ.kinds kind) :
      TakenFor s σ top d x (.unknown kind)
  | defined {o : Occurrence} (undecided : Undecided σ.kinds) (told : d.isDefining = .ok true)
      (as : DefinedAs s σ.contexts top d (nameReference d) o) : TakenFor s σ top d x o
  | used {o : Occurrence} (undecided : Undecided σ.kinds) (told : d.isDefining = .ok false)
      (as : UsedAs top d x (nameReference d) o) : TakenFor s σ top d x o

/-- What a name is taken for. -/
inductive OccursAs (s : Setting) (σ : Trace Client) (top : Context) (d : Cursor) (x : String) :
    Occurrence → Prop where
  | constant (mem : x ∈ constantNames) : OccursAs s σ top d x .constant
  | qualifier (noConstant : x ∉ constantNames) (followed : followedBy "." d = true) :
      OccursAs s σ top d x .qualifier
  | bare {o : Occurrence} (noConstant : x ∉ constantNames)
      (noQualifier : followedBy "." d = false) (taken : TakenFor s σ top d x o) :
      OccursAs s σ top d x o

/-! ### Names -/

/-- A token has a range. -/
theorem range_of_text {d : Cursor} {x : String} (text : d.tree.text = .ok x) :
    ∃ r, d.range = .ok r := by
  obtain ⟨tree, above⟩ := d
  cases tree with
  | leaf token => exact ⟨_, rfl⟩
  | node kind parts => cases text

section Names

variable {s : Setting} {d : Cursor} {x : String} {r : SourceRange} {σ : Trace Client}
  {top : Context} {rest : List Context}

/-- Naming a place leaves the state alone. -/
theorem nameAt_eq {name : Option QualifiedName}
    (named : qualifiedName s.source σ.contexts d = .ok name) :
    (nameAt s d : Indexing Client _) σ = .ok name σ := by
  change (liftM (qualifiedName s.source σ.contexts d) : Indexing Client _) σ = _
  rw [named]
  rfl

theorem outcome_nameAt {Q : Option QualifiedName → Trace Client → Prop} {E : Trace Client → Prop}
    (hE : E σ) (h : ∀ name, qualifiedName s.source σ.contexts d = .ok name → Q name σ) :
    Outcome Q E (nameAt s d σ) := by
  change Outcome Q E ((liftM (qualifiedName s.source σ.contexts d) :
    Indexing Client (Option QualifiedName)) σ)
  cases named : qualifiedName s.source σ.contexts d with
  | ok name => exact h name named
  | error e => exact hE

theorem writes_defineVariable {context file : Value} {E : List LogEntry → Prop}
    (name : QualifiedName) (kind : SymbolKind) (range : SourceRange) :
    Writes context file (defineVariable name kind range)
      (fun i entries => ∃ u v w, entries =
        [⟨.symbol name.stored, i⟩, ⟨.symbolKind i kind, u⟩, ⟨.definitionKind i .explicit, v⟩,
          ⟨.symbolLocation i file range, w⟩]) E :=
  .symbolBind (fun _ => rfl) fun _ => .noteBind rfl fun u => .noteBind rfl fun v =>
    .noteBind rfl fun w => .pure ⟨u, v, w, rfl⟩

theorem recordLocal_eq (contexts : σ.contexts = top :: rest) (text : d.tree.text = .ok x)
    (range : d.range = .ok r) : recordLocal d σ = useLocal (localName top x) r σ := by
  rw [recordLocal, context_bind, contexts, text, range]
  rfl

variable (contexts : σ.contexts = top :: rest)
include contexts

/-- Entries that are written without a fault are those of the occurrence. -/
theorem Occurrence.logged_of_writes {o : Occurrence} {m : Indexing Client Unit}
    (h : Writes top.id σ.recorder.file m (fun _ => o.Entries top σ.recorder.file x r)
      fun _ => False)
    (keeps : o.contexts x σ.contexts = σ.contexts) :
    Outcome (fun _ τ => o.Logged top x r σ τ) (fun _ => False) (m σ) := by
  refine (h σ ⟨⟨top, rest, contexts, rfl⟩, rfl⟩).mono ?_ ?_
  · rintro _ τ ⟨entries, adds, hentries⟩
    exact ⟨⟨entries, hentries, adds.calls⟩, adds.contexts.trans keeps.symm⟩
  · rintro τ ⟨_, _, impossible⟩
    exact impossible

theorem outcome_referToUnsolved (x : String) (range : d.range = .ok r) (kind : ReferenceKind) :
    Outcome (fun _ τ => (Occurrence.unknown kind).Logged top x r σ τ) (fun _ => False)
      (referToUnsolved kind d σ) := by
  refine Occurrence.logged_of_writes contexts
    ((writes_referToUnsolved kind range).mono ?_ fun _ h => h) rfl
  rintro _ _ ⟨v, rfl⟩
  exact .unknown kind v

theorem outcome_defineVariable (x : String) (r : SourceRange) (name : QualifiedName)
    (kind : SymbolKind) :
    Outcome (fun _ τ => (Occurrence.lasting name kind).Logged top x r σ τ) (fun _ => False)
      ((do let _ ← defineVariable name kind r : Indexing Client Unit) σ) := by
  refine Occurrence.logged_of_writes contexts
    (.bind ((writes_defineVariable name kind r).mono ?_ fun _ h => h)) rfl
  rintro i _ ⟨u, v, w, rfl⟩
  exact .pure (.lasting name kind i u v w)

theorem outcome_defineMember (x : String) (r : SourceRange) (name : QualifiedName)
    (reference : ReferenceKind) :
    Outcome (fun _ τ => (Occurrence.member name reference).Logged top x r σ τ) (fun _ => False)
      ((do refer (← defineVariable name .field r) reference r : Indexing Client Unit) σ) := by
  refine Occurrence.logged_of_writes contexts
    (.bind ((writes_defineVariable name .field r).mono ?_ fun _ h => h)) rfl
  rintro i _ ⟨u, v, w, rfl⟩
  exact .refer fun j z => .member name reference i j u v w z

variable (text : d.tree.text = .ok x) (range : d.range = .ok r)
include text range

theorem outcome_recordLocal :
    Outcome (fun _ τ => Occurrence.known.Logged top x r σ τ) (fun _ => False)
      (recordLocal d σ) := by
  rw [recordLocal_eq contexts text range]
  refine Occurrence.logged_of_writes contexts
    ((writes_useLocal (localName top x) r).mono ?_ fun _ h => h) rfl
  rintro _ _ ⟨i, v, rfl⟩
  exact .known i v

theorem outcome_defineLocal :
    Outcome (fun _ τ => Occurrence.declared.Logged top x r σ τ) (fun _ => False)
      (defineLocal d σ) := by
  refine Outcome.bind ((outcome_recordLocal contexts text range).mono ?_ fun _ h => h)
  rintro _ τ ⟨⟨entries, h, calls⟩, same⟩
  cases h with
  | known i v =>
    rw [text]
    exact ⟨⟨_, .declared i v, calls⟩, congrArg (withLocal x) same⟩

omit text in
theorem outcome_visitLasting (kind : SymbolKind) (reference : ReferenceKind)
    (outside : d.definitionAround?.any (Cursor.isKind .funcdef) = false) :
    Outcome
      (fun _ τ => ∃ o, DefinedAs s σ.contexts top d reference o ∧ o.Logged top x r σ τ)
      (fun τ => Adds σ τ []) (visitLasting s d kind reference σ) := by
  refine Outcome.bind (outcome_nameAt (.refl σ) fun name named => ?_)
  cases name with
  | none => exact Occurrence.because (outcome_referToUnsolved contexts x range reference) .unknown
  | some name =>
    refine Outcome.liftBind (.refl σ) fun r' range' => ?_
    obtain rfl := Except.ok.inj (range.symm.trans range')
    exact Occurrence.because (outcome_defineVariable contexts x r name kind)
      (.lasting outside named)

theorem outcome_visitMember (reference : ReferenceKind)
    (inside : d.definitionAround?.any (Cursor.isKind .funcdef) = true)
    (ofObject : isAttribute d = .ok true) :
    Outcome
      (fun _ τ => ∃ o, DefinedAs s σ.contexts top d reference o ∧ o.Logged top x r σ τ)
      (fun τ => Adds σ τ []) (visitMember s d reference σ) := by
  refine Outcome.bind (Outcome.context (.refl σ) fun top' rest' contexts' => ?_)
  obtain ⟨rfl, rfl⟩ := List.cons.inj (contexts.symm.trans contexts')
  refine Outcome.liftBind (.refl σ) fun self isSelf => ?_
  cases self with
  | false => exact Occurrence.because (outcome_referToUnsolved contexts x range reference) .unknown
  | true =>
    refine Outcome.bind (outcome_nameAt (.refl σ) fun name named => ?_)
    cases name with
    | none => exact Occurrence.because (outcome_defineLocal contexts text range) (.declared inside)
    | some name =>
      refine Outcome.liftBind (.refl σ) fun r' range' => ?_
      obtain rfl := Except.ok.inj (range.symm.trans range')
      exact Occurrence.because (outcome_defineMember contexts x r name reference)
        (.member inside ofObject isSelf named)

/-- What is done for a defining name. -/
theorem outcome_visitDefining (reference : ReferenceKind) :
    Outcome
      (fun _ τ => ∃ o, DefinedAs s σ.contexts top d reference o ∧ o.Logged top x r σ τ)
      (fun τ => Adds σ τ []) (visitDefining s d reference σ) := by
  unfold visitDefining
  cases around : d.definitionAround? with
  | none => exact outcome_visitLasting contexts range _ reference (by simp [around])
  | some definition =>
    have isDefinition : definition.tree.kind.isDefinition = true := by
      rw [Cursor.definitionAround?_eq] at around
      exact Cursor.isDefinition_of_mem (List.mem_of_head? around)
    dsimp only
    rcases NodeKind.eq_of_isDefinition isDefinition with kind | kind
    · -- directly in a class
      have outside : d.definitionAround?.any (Cursor.isKind .funcdef) = false := by
        simp [around, Cursor.isKind, Tree.isKind, kind]
      rw [if_pos (by simp [Cursor.isKind, Tree.isKind, kind])]
      split
      · exact outcome_visitLasting contexts range _ reference outside
      · exact Occurrence.because (outcome_referToUnsolved contexts x range reference) .unknown
    · -- in a function
      have inside : d.definitionAround?.any (Cursor.isKind .funcdef) = true := by
        simp [around, Cursor.isKind, Tree.isKind, kind]
      rw [if_neg (by simp [Cursor.isKind, Tree.isKind, kind])]
      refine Outcome.liftBind (.refl σ) fun ofObject isAttribute => ?_
      cases ofObject with
      | true => exact outcome_visitMember contexts text range reference inside isAttribute
      | false =>
        exact Occurrence.because (outcome_defineLocal contexts text range) (.declared inside)

/-- What is done for a name that defines nothing. -/
theorem outcome_visitUse (reference : ReferenceKind) :
    Outcome (fun _ τ => ∃ o, UsedAs top d x reference o ∧ o.Logged top x r σ τ)
      (fun τ => Adds σ τ []) (visitUse d reference σ) := by
  refine Outcome.liftBind (.refl σ) fun ofObject isAttribute => ?_
  rw [context_bind, contexts, text]
  dsimp only
  rw [lift_ok, pure_bind]
  split
  · rename_i isKnown
    obtain ⟨plain, mem⟩ : ofObject = false ∧ x ∈ top.locals := by simpa using isKnown
    exact Occurrence.because (outcome_recordLocal contexts text range)
      (.known (plain ▸ isAttribute) mem)
  · exact Occurrence.because (outcome_referToUnsolved contexts x range reference) .unknown

omit text range in
/-- What is done for a name. -/
theorem outcome_visitName :
    Outcome
      (fun _ τ => ∃ x r o, d.tree.text = .ok x ∧ d.range = .ok r ∧ OccursAs s σ top d x o ∧
        o.Logged top x r σ τ)
      (fun τ => Adds σ τ []) (visitName s d σ) := by
  change Outcome _ _ ((if σ.contexts.isEmpty = true then pure () else _ : Indexing Client Unit) σ)
  rw [if_neg (by simp [contexts])]
  refine Outcome.liftBind (.refl σ) fun x text => ?_
  obtain ⟨r, range⟩ := range_of_text text
  by_cases constant : constantNames.contains x = true
  · rw [if_pos constant]
    exact ⟨x, r, _, text, range, .constant (by simpa using constant),
      ⟨[], .constant, (List.append_nil _).symm⟩, rfl⟩
  have noConstant : x ∉ constantNames := by simpa using constant
  rw [if_neg constant]
  by_cases followed : followedBy "." d = true
  · have writes : Writes top.id σ.recorder.file
        (do
          let symbol ← emit (.symbol .unsolved)
          note (.qualifierLocation symbol (← d.range)))
        (fun _ => Occurrence.qualifier.Entries top σ.recorder.file x r) (fun _ => False) :=
      .symbolBind (fun _ => rfl) fun i => .liftOk range (.note rfl fun v => .qualifier i v)
    rw [if_pos followed]
    refine (Occurrence.logged_of_writes contexts writes rfl).mono ?_ fun _ h => h.elim
    exact fun _ τ logged => ⟨x, r, _, text, range, .qualifier noConstant followed, logged⟩
  have bare : ∀ τ, (∃ o, TakenFor s σ top d x o ∧ o.Logged top x r σ τ) →
      ∃ x r o, d.tree.text = .ok x ∧ d.range = .ok r ∧ OccursAs s σ top d x o ∧
        o.Logged top x r σ τ := by
    rintro τ ⟨o, taken, logged⟩
    exact ⟨x, r, o, text, range, .bare noConstant (Bool.eq_false_iff.mpr followed) taken, logged⟩
  rw [if_neg followed]
  refine Outcome.mono (E := fun τ => Adds σ τ []) ?_ (fun _ => bare) fun _ h => h
  rcases imposedKind_cases σ with ⟨told, undecided⟩ | ⟨kind, told, decided⟩
  · rw [bind_of_ok told]
    refine Outcome.liftBind (.refl σ) fun defines isDefining => ?_
    cases defines with
    | true =>
      exact (outcome_visitDefining contexts text range (nameReference d)).mono
        (fun _ τ ⟨o, as, logged⟩ => ⟨o, .defined undecided isDefining as, logged⟩) fun _ h => h
    | false =>
      exact (outcome_visitUse contexts text range (nameReference d)).mono
        (fun _ τ ⟨o, as, logged⟩ => ⟨o, .used undecided isDefining as, logged⟩) fun _ h => h
  · rw [bind_of_ok told]
    exact Occurrence.because (outcome_referToUnsolved contexts x range kind) (.imposed decided)

end Names

/-! ### Places -/

/-- What is done for a place between the two states. -/
inductive Visited (s : Setting) (d : Cursor) (σ τ : Trace Client) : Prop where
  | name {x : String} {r : SourceRange} {top : Context} {rest : List Context} {o : Occurrence}
      (isName : d.tree.kind = .name) (text : d.tree.text = .ok x) (range : d.range = .ok r)
      (contexts : σ.contexts = top :: rest) (occurs : OccursAs s σ top d x o)
      (logged : o.Logged top x r σ τ)
  | string {entries : List LogEntry} (isString : d.tree.kind = .string) (adds : Adds σ τ entries)
      (calls : StringCalls d (entries.map LogEntry.call))
  | errorLeaf {entries : List LogEntry} (isError : d.tree.kind = .errorLeaf)
      (adds : Adds σ τ entries) (calls : ErrorCalls d (entries.map LogEntry.call))
  | other (noName : d.tree.kind ≠ .name) (noString : d.tree.kind ≠ .string)
      (noError : d.tree.kind ≠ .errorLeaf) (same : τ = σ)

/-- What is done for a place. Nothing is logged before a fault. -/
theorem outcome_visitSelf (s : Setting) (d : Cursor) {σ : Trace Client}
    (context : σ.contexts ≠ []) :
    Outcome (fun _ τ => Visited s d σ τ) (fun τ => Adds σ τ []) (visitSelf s d σ) := by
  obtain ⟨x, stands⟩ := Trace.exists_stands context
  have nothing : ∀ τ, (∃ xs, Adds σ τ xs ∧ xs = []) → Adds σ τ [] := by
    rintro τ ⟨_, adds, rfl⟩
    exact adds
  unfold visitSelf
  cases kind : d.tree.kind with
  | name =>
    obtain ⟨top, rest, contexts⟩ := List.exists_cons_of_ne_nil context
    refine (outcome_visitName contexts).mono ?_ fun _ h => h
    rintro _ τ ⟨x, r, o, text, range, occurs, logged⟩
    exact .name kind text range contexts occurs logged
  | string =>
    refine (writes_visitString d σ stands).mono ?_ nothing
    rintro _ τ ⟨xs, adds, calls⟩
    exact .string kind adds calls
  | errorLeaf =>
    refine (writes_visitErrorToken d σ stands).mono ?_ nothing
    rintro _ τ ⟨xs, adds, calls⟩
    exact .errorLeaf kind adds calls
  | _ => exact .other (by simp [kind]) (by simp [kind]) (by simp [kind]) rfl

/-- A parameter is recorded as a local variable where its name stands. -/
theorem writes_visitParameter {context file : Value} (c : Cursor) :
    Writes context file (visitParameter c)
      (fun _ entries => ∃ name r own i v, c.parameterName = .ok name ∧ name.range = .ok r ∧
        entries = [⟨.localSymbol own, i⟩, ⟨.localLocation i file r, v⟩]) (· = []) := by
  refine .liftBind (fun _ _ => rfl) fun name hname => .contextBind fun top _ => ?_
  refine .liftBind (fun _ _ => rfl) fun text _ => .liftBind (fun _ _ => rfl) fun r hr => ?_
  refine (writes_useLocal (localName top text) r).mono ?_ fun _ h => h
  rintro _ _ ⟨i, v, rfl⟩
  exact ⟨name, r, _, i, v, hname, hr, rfl⟩

section Events

variable {s : Setting} {t : Tree} {c : Client} {e : Event Client} {d : Cursor}

theorem after_of_look (he : e ∈ (walk s t : Walk Client).events c.fresh)
    (looks : e.step = .look d) : e.after = finalState (visitSelf s d e.before) := by
  obtain ⟨held, after⟩ := Walk.after_eq he
  rw [after, looks]
  exact finalState_discard _ _ _

/-- What was done for a place that was looked at in a run, even in one that ends there. -/
theorem visited_of_look (he : e ∈ (walk s t : Walk Client).events c.fresh)
    (looks : e.step = .look d) : Visited s d e.before e.after ∨ e.calls = [] := by
  have context := Walk.contexts_ne_nil (disciplined_actions s) (way_inside t) he
  have ends : Outcome (fun _ τ => Visited s d e.before τ ∨ Adds e.before τ [])
      (fun τ => Visited s d e.before τ ∨ Adds e.before τ []) (visitSelf s d e.before) :=
    (outcome_visitSelf s d context).mono (fun _ _ => .inl) fun _ => .inr
  have final := ends.final
  rw [← after_of_look he looks] at final
  exact final.imp_right fun nothing => Event.calls_eq nothing.calls

theorem visited_of_done {held held' : Held} {σ τ : Trace Client} (context : σ.contexts ≠ [])
    (done : (actions s).perform (.look d) held σ = .ok held' τ) : Visited s d σ τ := by
  obtain ⟨_, _, looked, done⟩ := bind_eq_ok.mp done
  obtain ⟨-, rfl⟩ := pure_eq_ok.mp done
  exact (outcome_visitSelf s d context).of_ok looked

end Events

/-! ### Fields -/

/-- The place defines the variable `x`: it is a name that is not a constant, does not stand in front
of a dot, and is a defining occurrence. -/
@[mk_iff]
structure DefinesVariable (d : Cursor) (x : String) : Prop where
  isName : d.isName = true
  text : d.tree.text = .ok x
  noConstant : x ∉ constantNames
  noQualifier : followedBy "." d = false
  defines : d.isDefining = .ok true

instance (d : Cursor) (x : String) : Decidable (DefinesVariable d x) :=
  decidable_of_iff _ (definesVariable_iff d x).symm

/-- The place is recorded as the definition of a field in a method. -/
structure RecordsField (s : Setting) (d : Cursor) (σ τ : Trace Client) : Prop where
  definition : ∃ x, DefinesVariable d x
  undecided : Undecided σ.kinds
  ofObject : isAttribute d = .ok true
  self : ∃ top rest, σ.contexts = top :: rest ∧ isSelf top d = .ok true
  named : ∃ name field answer more, qualifiedName s.source σ.contexts d = .ok (some name) ∧
    τ.calls = σ.calls ++
      ⟨.symbol name.stored, field⟩ :: ⟨.symbolKind field .field, answer⟩ :: more

/-- Inside a function only attributes of the first parameter are made fields. -/
theorem recordsField_of_look {s : Setting} {t : Tree} {c : Client} {e : Event Client} {d : Cursor}
    (he : e ∈ (walk s t : Walk Client).events c.fresh) (looks : e.step = .look d)
    (inside : d.definitionAround?.any (Cursor.isKind .funcdef) = true)
    (makes : e.made.any Call.makesField = true) : RecordsField s d e.before e.after := by
  rcases visited_of_look he looks with visited | nothing
  · cases visited with
    | name isName text range contexts occurs logged =>
      obtain ⟨entries, logged, calls⟩ := logged.entries
      rw [Event.made, Event.calls_eq calls] at makes
      cases occurs with
      | constant | qualifier => cases logged; cases makes
      | bare noConstant noQualifier taken =>
        cases taken with
        | imposed => cases logged; cases makes
        | used _ _ as => cases as <;> cases logged <;> cases makes
        | defined undecided told as =>
          cases as with
          | lasting outside => cases inside.symm.trans outside
          | unknown | declared => cases logged; cases makes
          | member _ ofObject self named =>
            cases logged with
            | member _ _ field _ answer =>
              exact ⟨⟨_, decide_eq_true isName, text, noConstant, noQualifier, told⟩, undecided,
                ofObject, ⟨_, _, contexts, self⟩, _, field, answer, _, named, calls⟩
    | string _ adds strings =>
      obtain ⟨r, file, -, only⟩ := strings
      rw [Event.made, Event.calls_eq adds.calls, only] at makes
      split at makes <;> cases makes
    | errorLeaf _ adds errors =>
      obtain ⟨r, type, file, -, -, only⟩ := errors
      rw [Event.made, Event.calls_eq adds.calls, only] at makes
      cases makes
    | other _ _ _ same =>
      rw [Event.made, Event.calls_eq (by rw [same, List.append_nil])] at makes
      cases makes
  · rw [Event.made, nothing] at makes
    cases makes

end Syntactic

end CodeIndex
