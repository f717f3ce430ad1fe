import CodeIndex.Proofs.Logging

/-!
# What a name is mentioned as

The semantic indexer looks at the definitions of a name in turn, and each of them either makes the
name a mention of something or leaves no trace in the log. `Mention` lists what a name can be a
mention of, `Mention.Entries` says what is logged then, and `MentionedAs` says for which definitions
that is so and how the look at the definition ends: with a verdict or in a fault. Each function of
the indexer that deals with a definition has one lemma about it.

## What is proved

* `mentions_referToClass`, `mentions_referToVariable` and others — what comes of a definition, by
  its kind.
* `writes_considerSafely` — what comes of one definition, whatever it is.
* `Judged.ne_nil_iff`, `Judged.exists_located` — when a definition leaves a trace, and when it
  locates the name.
* `writes_visitDefinitions`, `writes_visitName` — what comes of all definitions of a name in turn.
-/

namespace CodeIndex

/-- The definition is one of a class or function and stands at the position, as far as that can be
read. -/
def Definition.isAt (d : Definition) (p : Position) : Bool :=
  match d.kind, d.line, d.column with
  | .ok (some kind), .ok (some line), .ok (some column) =>
    (kind = "class" || kind = "function") && line = p.line && column = p.column
  | _, _, _ => false

namespace Semantic.Setting

open Indexing

/-! ### Mentions -/

/-- What a name can be a mention of. -/
inductive Mention where
  /-- A symbol, by the name under which it is stored, in some role. -/
  | symbol (stored : String) (role : Role)
  /-- A symbol in front of a dot. -/
  | qualifier (stored : String) (kind : SymbolKind)
  /-- A class that is called, and so its constructor. -/
  | construction (name : QualifiedName)
  /-- A local variable. -/
  | localVariable (name : String)

/-- The entries that say of the symbol `i` what the role tells. -/
def Role.entries (role : Role) (x file : Value) (r : Extent) (i u v w j z : Value) :
    List LogEntry :=
  (role.symbol.elim [] fun kind => [⟨.symbolKind i kind, u⟩]) ++
    ((if role.defines then [⟨.definitionKind i .explicit, v⟩, ⟨.symbolLocation i file r, w⟩]
      else []) ++
    role.reference.elim [] fun kind => [⟨.reference x i kind, j⟩, ⟨.referenceLocation j file r, z⟩])

/-- The entries for a mention by a name with the range `r`. -/
inductive Mention.Entries (x file : Value) (r : Extent) : Mention → List LogEntry → Prop
  | symbol (stored : String) (role : Role) (i u v w j z : Value) :
      Entries x file r (.symbol stored role)
        (⟨.symbol stored, i⟩ :: role.entries x file r i u v w j z)
  | qualifier (stored : String) (kind : SymbolKind) (i u v : Value) :
      Entries x file r (.qualifier stored kind)
        [⟨.symbol stored, i⟩, ⟨.symbolKind i kind, u⟩, ⟨.qualifierLocation i file r, v⟩]
  | construction {name : QualifiedName} {ofClass ofConstructor : List LogEntry}
      (refers : Entries x file r
        (.symbol name.stored { symbol := some .classSymbol, reference := some .typeUsage }) ofClass)
      (calls : Entries x file r
        (.symbol (name.child "__init__").stored { symbol := some .method, reference := some .call })
        ofConstructor) :
      Entries x file r (.construction name) (ofClass ++ ofConstructor)
  | localVariable (name : String) (i v : Value) :
      Entries x file r (.localVariable name)
        [⟨.localSymbol name, i⟩, ⟨.localLocation i file r, v⟩]

/-! ### Reasons -/

/-- If the place in a file is in a function, the name of the function can be looked for. -/
def FunctionNamed (s : Setting) (site : Cursor) (file : Option String) : Prop :=
  ∀ path function, file = some path → site.enclosing? (· = .funcdef) = some function →
    ∃ name, function.firstName? = .ok name ∧
      ∀ leaf, name = some leaf → ∃ q, s.qualifiedName leaf path = .ok q

/-- The local variable that `d` defines can be named, after the function that it is in and the text
at its place. -/
def LocalNamed (s : Setting) (d : Definition) : Prop :=
  ∃ site file text, d.site.cursor = .ok (some site) ∧ s.fileOf d = .ok file ∧
    s.FunctionNamed site file ∧ site.tree.text = .ok text

/-- The variable that `d` defines has a name, for the role that it has at `c`. -/
def VariableNamed (s : Setting) (c : Cursor) (d : Definition) : Prop :=
  ∃ file site role, s.fileOf d = .ok (some file) ∧ d.site.cursor = .ok (some site) ∧
    s.role c site file = .ok role ∧
    if role.symbol.isSome || role.reference.isSome then
      ∃ q, s.qualifiedName site file = .ok (some q)
    else s.LocalNamed d

/-- The definition `d` of the name at `c` can be recorded: it does not stand at the name, and it has
a name of its own. -/
def Recordable (s : Setting) (c : Cursor) (d : Definition) : Prop :=
  match d.kind with
  | .ok (some "instance") => isUnlocated d = .ok true ∧ ∃ q, nameByFullName d = .ok q
  | .ok (some "module") => ∃ recording, s.recordingOfModule d = .ok recording
  | .ok (some "class") | .ok (some "function") =>
    ∃ p, c.tree.start = .ok p ∧ standsAt d p = .ok false ∧ ∃ q, s.nameOfDefinition d = .ok (some q)
  | .ok (some "param") => isLocated d = .ok true ∧ s.LocalNamed d
  | .ok (some "statement") => isLocated d = .ok true ∧ s.VariableNamed c d
  | _ => False

/-- How a name refers to a function, by whether it is called: a name that is neither called nor
imported does not refer to it. -/
def functionReference? (c : Cursor) (called : Bool) : Option ReferenceKind :=
  if called then some .call else if c.within .importFrom then some .importing else none

/-- What the definition `d` makes the name at `c` a mention of, and how the look at it ends: with a
verdict, or in a fault. It ends in a fault where a question about what follows the name has no
answer. -/
inductive MentionedAs (s : Setting) (c : Cursor) (d : Definition) : Mention → Option Verdict → Prop
  | object {q : QualifiedName} (isKind : d.kind = .ok (some "instance")) :
      MentionedAs s c d (.symbol q.stored
        { symbol := some .globalVariable, reference := some (orImported c .usage) }) (some .solved)
  | moduleUnclear {stored : String} (isKind : d.kind = .ok (some "module")) :
      MentionedAs s c d (.symbol stored { symbol := some .moduleSymbol }) none
  | moduleQualifier {stored : String} (isKind : d.kind = .ok (some "module")) :
      MentionedAs s c d (.qualifier stored .moduleSymbol) (some .solved)
  | moduleReference {stored : String} {kind : ReferenceKind}
      (isKind : d.kind = .ok (some "module")) :
      MentionedAs s c d (.symbol stored { symbol := some .moduleSymbol, reference := some kind })
        (some .solved)
  | classUnclear {q : QualifiedName} {e : Fault} (isKind : d.kind = .ok (some "class"))
      (named : s.nameOfDefinition d = .ok (some q)) (unclear : c.isQualifier = .error e) :
      MentionedAs s c d (.symbol q.stored { symbol := some .classSymbol }) none
  | classQualifier {q : QualifiedName} (isKind : d.kind = .ok (some "class"))
      (named : s.nameOfDefinition d = .ok (some q)) (qualifies : c.isQualifier = .ok true) :
      MentionedAs s c d (.qualifier q.stored .classSymbol) (some .solved)
  | classReference {q : QualifiedName} (isKind : d.kind = .ok (some "class"))
      (named : s.nameOfDefinition d = .ok (some q)) (noQualifier : c.isQualifier = .ok false)
      (uncalled : classReferenceKind c = .typeUsage → c.isCall = .ok false) :
      MentionedAs s c d (.symbol q.stored
        { symbol := some .classSymbol, reference := some (classReferenceKind c) }) (some .solved)
  -- only here does a fault come up when the name is located already
  | classUntold {q : QualifiedName} {e : Fault} (isKind : d.kind = .ok (some "class"))
      (named : s.nameOfDefinition d = .ok (some q)) (noQualifier : c.isQualifier = .ok false)
      (isType : classReferenceKind c = .typeUsage) (untold : c.isCall = .error e) :
      MentionedAs s c d (.symbol q.stored
        { symbol := some .classSymbol, reference := some (classReferenceKind c) }) none
  | classConstructed {q : QualifiedName} (isKind : d.kind = .ok (some "class"))
      (named : s.nameOfDefinition d = .ok (some q)) (noQualifier : c.isQualifier = .ok false)
      (isType : classReferenceKind c = .typeUsage) (called : c.isCall = .ok true) :
      MentionedAs s c d (.construction q) (some .solved)
  | function {q : QualifiedName} {called : Bool} (isKind : d.kind = .ok (some "function"))
      (named : s.nameOfDefinition d = .ok (some q)) (told : c.isCall = .ok called) :
      MentionedAs s c d (.symbol q.stored
        { symbol := some .function, reference := functionReference? c called })
        (some (.ofBool (functionReference? c called).isSome))
  | functionUntold {q : QualifiedName} {e : Fault} (isKind : d.kind = .ok (some "function"))
      (named : s.nameOfDefinition d = .ok (some q)) (untold : c.isCall = .error e) :
      MentionedAs s c d (.symbol q.stored { symbol := some .function }) none
  | parameter {name : String} (isKind : d.kind = .ok (some "param")) :
      MentionedAs s c d (.localVariable name) (some .solved)
  | localVariable {name file : String} {site : Cursor} {role : Role}
      (isKind : d.kind = .ok (some "statement")) (inFile : s.fileOf d = .ok (some file))
      (atSite : d.site.cursor = .ok (some site)) (inRole : s.role c site file = .ok role)
      (unknown : (role.symbol.isSome || role.reference.isSome) = false) :
      MentionedAs s c d (.localVariable name) (some .solved)
  | lasting {q : QualifiedName} {file : String} {site : Cursor} {role : Role}
      (isKind : d.kind = .ok (some "statement")) (inFile : s.fileOf d = .ok (some file))
      (atSite : d.site.cursor = .ok (some site)) (inRole : s.role c site file = .ok role)
      (known : (role.symbol.isSome || role.reference.isSome) = true)
      (named : s.qualifiedName site file = .ok (some q)) :
      MentionedAs s c d (.symbol q.stored role) (some .solved)

/-! ### What a mention says -/

/-- The mention locates the name. -/
def Mention.locates : Mention → Bool
  | .symbol _ role => role.defines || role.reference.isSome
  | .qualifier _ _ | .construction _ | .localVariable _ => true

/-- The call is one for a name with the range `r`. -/
def OfName (r : Extent) (call : Call) : Prop :=
  call.isStructural = false ∧ (call.located? = none ∨ call.located? = some r)

section Said

variable {s : Setting} {x file : Value} {c : Cursor} {r : Extent} {d : Definition} {m : Mention}
  {entries : List LogEntry}

theorem Mention.Entries.ne_nil (h : m.Entries x file r entries) : entries ≠ [] := by
  cases h with
  | construction refers => cases refers; simp
  | _ => simp

/-- Nothing is said of another name, and nothing is unknown. -/
theorem Mention.Entries.ofName (h : m.Entries x file r entries) :
    ∀ e ∈ entries, OfName r e.call ∧ e.call.isUnsolved = false := by
  induction h with
  | symbol stored role =>
    obtain ⟨symbol, defines, reference⟩ := role
    cases symbol <;> cases defines <;> cases reference <;> simp [Role.entries, OfName]
  | construction _ _ ofClass ofConstructor =>
    exact List.forall_mem_append.mpr ⟨ofClass, ofConstructor⟩
  | qualifier | localVariable => simp [OfName]

theorem Mention.Entries.exists_located (h : m.Entries x file r entries) :
    (∃ e ∈ entries, e.call.located? = some r) ↔ m.locates = true := by
  induction h with
  | symbol stored role =>
    obtain ⟨symbol, defines, reference⟩ := role
    cases symbol <;> cases defines <;> cases reference <;> simp [Role.entries, Mention.locates]
  | construction _ _ ofClass =>
    obtain ⟨e, he, located⟩ := ofClass.mpr rfl
    exact iff_of_true ⟨e, List.mem_append_left _ he, located⟩ rfl
  | qualifier | localVariable => simp [Mention.locates]

/-- An occurrence that tells what kind of symbol the variable is either defines it or refers to
it. -/
theorem defines_or_refers {site : Cursor} {file : String} {role : Role}
    (h : s.role c site file = .ok role) (known : role.symbol.isSome || role.reference.isSome) :
    role.defines = true ∨ role.reference.isSome = true := by
  have possible := role_mem h
  simp only [possibleRoles, List.mem_cons, List.not_mem_nil, or_false] at possible
  rcases possible with rfl | rfl | rfl | rfl | rfl | rfl <;> simp at known ⊢

/-- A definition settles what the name is just if the name is located. -/
theorem MentionedAs.eq_ofBool {verdict : Verdict} (h : MentionedAs s c d m (some verdict)) :
    verdict = .ofBool m.locates := by
  cases h with
  | function => simp [Mention.locates]
  | lasting _ _ _ inRole known =>
    have located := defines_or_refers inRole known
    simp [Mention.locates, located, Verdict.ofBool]
  | _ => rfl

/-- A fault comes up before the name is located if it can be told whether the name is called. -/
theorem MentionedAs.locates_eq_false {called : Bool} (h : MentionedAs s c d m none)
    (told : c.isCall = .ok called) : m.locates = false := by
  cases h with
  | classUntold _ _ _ _ untold => cases untold.symm.trans told
  | _ => rfl

end Said

/-! ### One definition, by its kind -/

/-- What comes of a definition that can be recorded just if it is `named`. -/
inductive Mentioned (s : Setting) (x file : Value) (c : Cursor) (r : Extent) (d : Definition)
    (named : Prop) : Option Verdict → List LogEntry → Prop
  | unnamed {ending : Option Verdict} (not : ¬ named)
      (unsettled : ending = none ∨ ending = some .unsolved) :
      Mentioned s x file c r d named ending []
  | recorded {m : Mention} {ending : Option Verdict} {entries : List LogEntry} (holds : named)
      (as : MentionedAs s c d m ending) (written : m.Entries x file r entries) :
      Mentioned s x file c r d named ending entries

/-- What comes of a definition: `m` mentions it if it is `named`, and says whether the name is
settled. -/
def Mentions (s : Setting) (x file : Value) (c : Cursor) (r : Extent) (d : Definition)
    (named : Prop) (m : Indexing Client Bool) : Prop :=
  Writes x file m (fun settled => Mentioned s x file c r d named (some (.ofBool settled)))
    (Mentioned s x file c r d named none)

section Kinds

variable {s : Setting} {x file : Value} {c : Cursor} {r : SourceRange} {d : Definition}

theorem mentions_referToInstance (isKind : d.kind = .ok (some "instance")) (hr : c.range = .ok r) :
    Mentions s x file c r d (∃ q, nameByFullName d = .ok q) (referToInstance c d) := by
  refine .liftBind (fun e he => .unnamed (by simp [he]) (.inl rfl)) fun q hq => ?_
  exact .symbolBind (fun _ => rfl) fun i => .noteBind rfl fun u => .liftOk hr <|
    .referBind fun j z => .pure (.recorded ⟨q, hq⟩ (.object isKind)
      (.symbol q.stored _ i u .null .null j z))

theorem mentions_referToModule (isKind : d.kind = .ok (some "module")) (hr : c.range = .ok r) :
    Mentions s x file c r d (∃ recording, s.recordingOfModule d = .ok recording)
      (s.referToModule c d) := by
  refine .liftBind (fun e he => .unnamed (by simp [he]) (.inl rfl)) fun recording found => ?_
  have call : ∃ stored, ∀ file, recording.call? file = some (.symbol stored) := by
    rcases recordingOfModule_isSymbol found with ⟨q, rfl⟩ | ⟨q, rfl⟩
    · exact ⟨_, fun _ => rfl⟩
    · exact ⟨_, fun _ => rfl⟩
  obtain ⟨stored, call⟩ := call
  refine .symbolBind call fun i => .noteBind rfl fun u => .liftBind (fun e _ => ?_)
    fun isQualifier _ => ?_
  · exact .recorded ⟨_, found⟩ (.moduleUnclear isKind)
      (.symbol stored _ i u .null .null .null .null)
  cases isQualifier with
  | true =>
    exact .liftOk hr (.noteBind rfl fun v =>
      .pure (.recorded ⟨_, found⟩ (.moduleQualifier isKind) (.qualifier stored _ i u v)))
  | false =>
    exact .liftOk hr (.referBind fun j z => .pure (.recorded ⟨_, found⟩ (.moduleReference isKind)
      (.symbol stored _ i u .null .null j z)))

theorem mentions_referToClass (isKind : d.kind = .ok (some "class")) (hr : c.range = .ok r) :
    Mentions s x file c r d (∃ q, s.nameOfDefinition d = .ok (some q)) (s.referToClass c d) := by
  refine .liftBind (fun e he => .unnamed (by simp [he]) (.inl rfl)) fun name hname => ?_
  cases name with
  | none => exact .pure (.unnamed (by simp [hname]) (.inr rfl))
  | some q =>
    refine .symbolBind (fun _ => rfl) fun i => .noteBind rfl fun u => .liftBind
      (fun e unclear => ?_) fun isQualifier told => ?_
    · exact .recorded ⟨q, hname⟩ (.classUnclear isKind hname unclear)
        (.symbol q.stored _ i u .null .null .null .null)
    cases isQualifier with
    | true =>
      exact .liftOk hr (.noteBind rfl fun v => .pure (.recorded ⟨q, hname⟩
        (.classQualifier isKind hname told) (.qualifier q.stored _ i u v)))
    | false =>
      refine .liftOk hr (.referBind fun j z => ?_)
      have refers : Mention.Entries x file r (.symbol q.stored
          { symbol := some .classSymbol, reference := some (classReferenceKind c) }) _ :=
        .symbol q.stored _ i u .null .null j z
      -- whether the class is called is only asked where it is used as a type
      by_cases isType : classReferenceKind c = .typeUsage
      · rw [if_pos isType]
        refine .liftBind (fun e untold => ?_) fun isCall called => ?_
        · exact .recorded ⟨q, hname⟩ (.classUntold isKind hname told isType untold) refers
        cases isCall with
        | false =>
          exact .pure (.recorded ⟨q, hname⟩ (.classReference isKind hname told fun _ => called)
            refers)
        | true =>
          rw [isType] at refers
          refine .symbolBind (fun _ => rfl) fun i' => .noteBind rfl fun u' => .liftOk hr <|
            .referBind fun j' z' => .pure (.recorded ⟨q, hname⟩
              (.classConstructed isKind hname told isType called) ?_)
          rw [isType]
          exact .construction refers (.symbol _ _ i' u' .null .null j' z')
      · rw [if_neg isType]
        exact .pure (.recorded ⟨q, hname⟩
          (.classReference isKind hname told fun same => absurd same isType) refers)

theorem mentions_referToFunction (isKind : d.kind = .ok (some "function")) (hr : c.range = .ok r) :
    Mentions s x file c r d (∃ q, s.nameOfDefinition d = .ok (some q))
      (s.referToFunction c d) := by
  refine .liftBind (fun e he => .unnamed (by simp [he]) (.inl rfl)) fun name hname => ?_
  cases name with
  | none => exact .pure (.unnamed (by simp [hname]) (.inr rfl))
  | some q =>
    refine .symbolBind (fun _ => rfl) fun i => .noteBind rfl fun u => .liftBind
      (fun e untold => ?_) fun called told => ?_
    · exact .recorded ⟨q, hname⟩ (.functionUntold isKind hname untold)
        (.symbol q.stored _ i u .null .null .null .null)
    have as := MentionedAs.function isKind hname told
    have written : ∀ j z, Mention.Entries x file r (.symbol q.stored
        { symbol := some .function, reference := functionReference? c called }) _ := fun j z =>
      .symbol q.stored _ i u .null .null j z
    unfold functionReference? at as written
    cases called with
    | true => exact .liftOk hr (.referBind fun j z => .pure (.recorded ⟨q, hname⟩ as (written j z)))
    | false =>
      by_cases imported : c.within .importFrom = true
      · simp only [imported] at as written ⊢
        exact .liftOk hr (.referBind fun j z =>
          .pure (.recorded ⟨q, hname⟩ as (written j z)))
      · simp only [imported] at as written ⊢
        exact .pure (.recorded ⟨q, hname⟩ as (written .null .null))

/-- The computation leaves no trace and succeeds just if `P`. -/
def SucceedsIf (x file : Value) (P : Prop) (m : Indexing Client String) : Prop :=
  Writes x file m (fun _ entries => entries = [] ∧ P) fun entries => entries = [] ∧ ¬ P

/-- What it takes to name the function that the place is in. -/
theorem functionNamed_iff {site f : Cursor} {path : String}
    (inside : site.enclosing? (· = .funcdef) = some f) :
    s.FunctionNamed site (some path) ↔ ∃ name, f.firstName? = .ok name ∧
      ∀ leaf, name = some leaf → ∃ q, s.qualifiedName leaf path = .ok q := by
  simp [FunctionNamed, inside]

/-- A local variable is named just if the function that it is in and its place can be. -/
theorem succeedsIf_localName (s : Setting) (d : Definition) :
    SucceedsIf x file (s.LocalNamed d) (s.localName d) := by
  unfold localName
  refine .liftBind (fun e he => ⟨rfl, by simp [LocalNamed, he]⟩) fun site hsite =>
    .liftBind (fun e he => ⟨rfl, by simp [LocalNamed, he]⟩) fun home hhome => ?_
  have named : s.LocalNamed d ↔ ∃ place text, site = some place ∧
      s.FunctionNamed place home ∧ place.tree.text = .ok text := by
    simp [LocalNamed, hsite, hhome]
  extract_lets function write complete
  have around : ∀ path f, function = some (path, f) ↔
      home = some path ∧ site.bind (Cursor.enclosing? (· = .funcdef)) = some f := by
    intro path f
    unfold function
    split
    · simp_all
    · next apart => exact iff_of_false (by simp) fun ⟨inFile, inside⟩ => apart _ _ inFile inside
  have writes : ∀ owner, (∀ place, site = some place → s.FunctionNamed place home) →
      SucceedsIf x file (s.LocalNamed d) (write owner) := by
    intro owner functionNamed
    unfold write
    cases site with
    | none => exact .throw ⟨rfl, by simp [named]⟩
    | some place =>
      exact .liftBind (fun e he => ⟨rfl, by simp [named, he]⟩) fun text htext =>
        .pure ⟨rfl, named.mpr ⟨place, text, rfl, functionNamed place rfl, htext⟩⟩
  have completes : ∀ owner, (∀ place, site = some place → s.FunctionNamed place home) →
      SucceedsIf x file (s.LocalNamed d) (complete owner) := by
    intro owner functionNamed
    unfold complete
    split
    · exact .contextBind fun top _ => writes _ functionNamed
    · exact writes _ functionNamed
  clear_value function complete
  -- the name of the function is only looked for if the place is in one
  split
  · refine completes _ fun place hplace path f inFile inside => ?_
    cases (around path f).mpr ⟨inFile, by rw [hplace]; exact inside⟩
  · next path f =>
    obtain ⟨rfl, inside⟩ := (around path f).mp rfl
    obtain ⟨place, rfl, inside⟩ := Option.bind_eq_some_iff.mp inside
    have needed : s.FunctionNamed place (some path) ↔ _ := functionNamed_iff inside
    refine .liftBind (fun e he => ⟨rfl, by simp [named, needed, he]⟩) fun name hname => ?_
    split
    · exact completes _ (by simp [needed, hname])
    · next leaf =>
      refine .liftBind (fun e he => ⟨rfl, by simp [named, needed, hname, he]⟩) fun q hq => ?_
      split <;> exact completes _ (by simp [needed, hname, hq])

/-- A local variable that can be named is mentioned. -/
theorem mentions_localName {named : Prop} (needed : named ↔ s.LocalNamed d)
    (as : ∀ name, MentionedAs s c d (.localVariable name) (some .solved)) :
    Mentions s x file c r d named (do useLocal (← s.localName d) r; return true) := by
  refine .bind ((succeedsIf_localName s d).mono ?_ ?_)
  · rintro name _ ⟨rfl, isNamed⟩
    refine .bind ((writes_useLocal name r).mono ?_ fun _ h => h)
    rintro _ _ ⟨i, v, rfl⟩
    exact .pure (.recorded (needed.mpr isNamed) (as name) (.localVariable name i v))
  · rintro _ ⟨rfl, unnamed⟩
    exact .unnamed (mt needed.mp unnamed) (.inl rfl)

theorem mentions_referToLocal (isKind : d.kind = .ok (some "param")) (hr : c.range = .ok r) :
    Mentions s x file c r d (s.LocalNamed d) (s.referToLocal c d) := by
  have same : (s.referToLocal c d : Indexing Client Bool) =
      (do useLocal (← s.localName d) r; return true) := by
    unfold referToLocal
    rw [hr]
    rfl
  rw [same]
  exact mentions_localName Iff.rfl fun _ => .parameter isKind

/-- What the occurrence of a variable is recorded as. -/
theorem writes_role (role : Role) (i : Value) (r : SourceRange) :
    Writes x file (do
      match role.symbol with
      | none => pure ()
      | some kind => note (.symbolKind i kind)
      if role.defines then
        note (.definitionKind i .explicit)
        note (.symbolLocation i r)
      match role.reference with
      | none => pure ()
      | some kind => refer i kind r
      return true)
      (fun settled entries => settled = true ∧
        ∃ u v w j z, entries = role.entries x file r i u v w j z) fun _ => False := by
  obtain ⟨symbol, defines, reference⟩ := role
  -- each part goes on with the next one, so the last comes first
  extract_lets finish addReference addDefinition
  have refers : ∀ a, Writes x file (addReference a) (fun settled entries => settled = true ∧
      ∃ j z, entries = Role.entries { reference } x file r i .null .null .null j z)
      fun _ => False := by
    intro a
    unfold addReference
    cases reference with
    | none => exact .pure ⟨rfl, .null, .null, rfl⟩
    | some kind => exact .referBind fun j z => .pure ⟨rfl, j, z, rfl⟩
  have locates : ∀ a, Writes x file (addDefinition a) (fun settled entries => settled = true ∧
      ∃ v w j z, entries = Role.entries { defines, reference } x file r i .null v w j z)
      fun _ => False := by
    intro a
    unfold addDefinition
    clear_value addReference
    cases defines with
    | false =>
      refine (refers ()).mono ?_ fun _ h => h
      rintro _ _ ⟨rfl, j, z, rfl⟩
      exact ⟨rfl, .null, .null, j, z, rfl⟩
    | true =>
      refine .noteBind rfl fun v => .noteBind rfl fun w => (refers ()).mono ?_ fun _ h => h
      rintro _ _ ⟨rfl, j, z, rfl⟩
      exact ⟨rfl, v, w, j, z, rfl⟩
  clear_value addDefinition
  cases symbol with
  | none =>
    refine (locates ()).mono ?_ fun _ h => h
    rintro _ _ ⟨rfl, v, w, j, z, rfl⟩
    exact ⟨rfl, .null, v, w, j, z, rfl⟩
  | some kind =>
    refine .noteBind rfl fun u => (locates ()).mono ?_ fun _ h => h
    rintro _ _ ⟨rfl, v, w, j, z, rfl⟩
    exact ⟨rfl, u, v, w, j, z, rfl⟩

theorem mentions_referToVariable (isKind : d.kind = .ok (some "statement")) (hr : c.range = .ok r) :
    Mentions s x file c r d (s.VariableNamed c d) (s.referToVariable c d) := by
  refine .liftBind (fun e he => .unnamed (by simp [VariableNamed, he]) (.inl rfl))
    fun home inFile => ?_
  cases home with
  | none => exact .pure (.unnamed (by simp [VariableNamed, inFile]) (.inr rfl))
  | some home =>
    refine .liftBind (fun e he => .unnamed (by simp [VariableNamed, he]) (.inl rfl))
      fun site atSite => ?_
    cases site with
    | none => exact .throw (.unnamed (by simp [VariableNamed, atSite]) (.inl rfl))
    | some site =>
      refine .liftBind
        (fun e he => .unnamed (by simp [VariableNamed, inFile, atSite, he]) (.inl rfl))
        fun role inRole => .liftOk hr ?_
      have named : s.VariableNamed c d ↔
          if role.symbol.isSome || role.reference.isSome then
            ∃ q, s.qualifiedName site home = .ok (some q)
          else s.LocalNamed d := by
        simp [VariableNamed, inFile, atSite, inRole]
      by_cases known : (role.symbol.isSome || role.reference.isSome) = true
      · rw [if_pos known] at named ⊢
        refine .liftBind (fun e he => .unnamed (by simp [named, he]) (.inl rfl))
          fun name hname => ?_
        cases name with
        | none => exact .pure (.unnamed (by simp [named, hname]) (.inr rfl))
        | some q =>
          refine .symbolBind (fun _ => rfl) fun i =>
            (writes_role role i r).mono ?_ fun _ h => h.elim
          rintro _ _ ⟨rfl, u, v, w, j, z, rfl⟩
          exact .recorded (named.mpr ⟨q, hname⟩) (.lasting isKind inFile atSite inRole known hname)
            (.symbol q.stored role i u v w j z)
      · rw [if_neg known] at named ⊢
        exact mentions_localName named fun _ =>
          .localVariable isKind inFile atSite inRole (Bool.eq_false_iff.mpr known)

end Kinds

/-! ### One definition -/

section Definitions

variable {s : Setting} {x file : Value} {c : Cursor} {p : Position} {r : SourceRange}
  {d : Definition}

theorem isAt_iff : d.isAt p = true ↔
    (d.kind = .ok (some "class") ∨ d.kind = .ok (some "function")) ∧
      standsAt d p = .ok true := by
  unfold Definition.isAt standsAt
  rcases d.kind with _ | _ | kind
  · simp
  · simp
  · rcases d.line with _ | _ | line
    · simp [bind, Except.bind]
    · simp [bind, Except.bind, pure, Except.pure]
    · rcases d.column with _ | _ | column <;> by_cases h : line = p.line <;>
        simp [bind, Except.bind, pure, Except.pure, h]

theorem isAt_eq_false {kind : String} (hkind : d.kind = .ok (some kind))
    (noClass : kind ≠ "class") (noFunction : kind ≠ "function") : d.isAt p = false := by
  simp [← Bool.not_eq_true, isAt_iff, hkind, noClass, noFunction]

/-- What a look at the definition `d` of the name at `c`, which begins at `p` and has the range `r`,
adds to the log, and how it ends. -/
inductive Considered (s : Setting) (x file : Value) (c : Cursor) (p : Position) (r : Extent)
    (d : Definition) : Option Verdict → List LogEntry → Prop
  /-- The definition stands at the name itself. -/
  | here (stands : d.isAt p = true) : Considered s x file c p r d (some .here) []
  /-- It cannot be recorded. -/
  | passed {ending : Option Verdict} (elsewhere : d.isAt p = false) (not : ¬ s.Recordable c d)
      (unsettled : ending = none ∨ ending = some .unsolved) : Considered s x file c p r d ending []
  /-- It is recorded. -/
  | recorded {m : Mention} {ending : Option Verdict} {entries : List LogEntry}
      (elsewhere : d.isAt p = false) (recordable : s.Recordable c d)
      (as : MentionedAs s c d m ending) (written : m.Entries x file r entries) :
      Considered s x file c p r d ending entries

/-- What comes of a definition that does not stand at the name. -/
theorem considered_of_mentioned {named : Prop} {ending : Option Verdict} {entries : List LogEntry}
    (elsewhere : d.isAt p = false) (needed : s.Recordable c d ↔ named)
    (h : Mentioned s x file c r d named ending entries) :
    Considered s x file c p r d ending entries := by
  cases h with
  | unnamed not unsettled => exact .passed elsewhere (mt needed.mp not) unsettled
  | recorded holds as written => exact .recorded elsewhere (needed.mpr holds) as written

theorem writes_elsewhere {named : Prop} {m : Indexing Client Bool} (elsewhere : d.isAt p = false)
    (needed : s.Recordable c d ↔ named) (h : Mentions s x file c r d named m) :
    Writes x file (return .ofBool (← m))
      (fun verdict => Considered s x file c p r d (some verdict))
      (Considered s x file c p r d none) := by
  refine .bind (h.mono (fun settled entries mentioned => .pure ?_) fun entries mentioned => ?_)
  · rw [List.append_nil]
    exact considered_of_mentioned elsewhere needed mentioned
  · exact considered_of_mentioned elsewhere needed mentioned

/-- A definition that is only looked at if it passes a test. -/
theorem writes_onlyIf {named : Prop} {m : Indexing Client Bool} {test : Except Fault Bool}
    (elsewhere : d.isAt p = false) (needed : s.Recordable c d ↔ test = .ok true ∧ named)
    (h : Mentions s x file c r d named m) :
    Writes x file (do if ← test then return .ofBool (← m) else return .unsolved)
      (fun verdict => Considered s x file c p r d (some verdict))
      (Considered s x file c p r d none) := by
  refine .liftBind (fun e he => .passed elsewhere (by simp [needed, he]) (.inl rfl))
    fun passed told => ?_
  cases passed with
  | true => exact writes_elsewhere elsewhere (needed.trans (and_iff_right told)) h
  | false => exact .pure (.passed elsewhere (by simp [needed, told]) (.inr rfl))

/-- A class or function, which may stand at the name itself. -/
theorem writes_placed {named : Prop} {m : Indexing Client Bool}
    (isKind : d.kind = .ok (some "class") ∨ d.kind = .ok (some "function"))
    (start : c.tree.start = .ok p) (needed : s.Recordable c d ↔ standsAt d p = .ok false ∧ named)
    (h : Mentions s x file c r d named m) :
    Writes x file (do
      if ← standsAt d (← c.tree.start) then return .here
      else return .ofBool (← m))
      (fun verdict => Considered s x file c p r d (some verdict))
      (Considered s x file c p r d none) := by
  refine .liftOk start (.liftBind (fun e he => .passed ?_ ?_ (.inl rfl)) fun stands told => ?_)
  · simp [← Bool.not_eq_true, isAt_iff, he]
  · simp [needed, he]
  cases stands with
  | true => exact .pure (.here (isAt_iff.mpr ⟨isKind, told⟩))
  | false =>
    have elsewhere : d.isAt p = false := by simp [← Bool.not_eq_true, isAt_iff, told]
    exact writes_elsewhere elsewhere (needed.trans (and_iff_right told)) h

theorem writes_consider (s : Setting) (d : Definition) (start : c.tree.start = .ok p)
    (hr : c.range = .ok r) :
    Writes x file (s.consider c d) (fun verdict => Considered s x file c p r d (some verdict))
      (Considered s x file c p r d none) := by
  refine .liftBind (fun e he => .passed ?_ ?_ (.inl rfl)) fun kind hkind => ?_
  · simp [← Bool.not_eq_true, isAt_iff, he]
  · simp [Recordable, he]
  split
  · exact writes_onlyIf (isAt_eq_false hkind (by decide) (by decide)) (by simp [Recordable, hkind])
      (mentions_referToInstance hkind hr)
  · exact writes_elsewhere (isAt_eq_false hkind (by decide) (by decide))
      (by simp [Recordable, hkind]) (mentions_referToModule hkind hr)
  · exact writes_placed (.inl hkind) start (by simp [Recordable, hkind, start])
      (mentions_referToClass hkind hr)
  · exact writes_placed (.inr hkind) start (by simp [Recordable, hkind, start])
      (mentions_referToFunction hkind hr)
  · exact writes_onlyIf (isAt_eq_false hkind (by decide) (by decide)) (by simp [Recordable, hkind])
      (mentions_referToLocal hkind hr)
  · exact writes_onlyIf (isAt_eq_false hkind (by decide) (by decide)) (by simp [Recordable, hkind])
      (mentions_referToVariable hkind hr)
  · rename_i noClass noFunction _ _
    refine .pure (.passed ?_ ?_ (.inr rfl))
    · simp only [← Bool.not_eq_true, isAt_iff, hkind, Except.ok.injEq]
      rintro ⟨rfl | rfl, -⟩
      · exact noClass rfl
      · exact noFunction rfl
    · unfold Recordable
      rw [hkind]
      split <;> simp_all

/-- What comes of one definition, where a fault counts as no answer. -/
def Judged (s : Setting) (x file : Value) (c : Cursor) (p : Position) (r : Extent) (d : Definition)
    (verdict : Verdict) (entries : List LogEntry) : Prop :=
  ∃ ending, ending.getD .unsolved = verdict ∧ Considered s x file c p r d ending entries

namespace Judged

variable {verdict : Verdict} {entries : List LogEntry}

theorem ofName (h : Judged s x file c p r d verdict entries) :
    ∀ e ∈ entries, OfName r e.call ∧ e.call.isUnsolved = false := by
  obtain ⟨ending, -, considered⟩ := h
  cases considered with
  | here | passed => simp
  | recorded _ _ _ written => exact written.ofName

theorem isAt_iff (h : Judged s x file c p r d verdict entries) :
    d.isAt p = true ↔ verdict = .here := by
  obtain ⟨ending, rfl, considered⟩ := h
  cases considered with
  | here stands => exact iff_of_true stands rfl
  | passed elsewhere _ unsettled => rcases unsettled with rfl | rfl <;> simp [elsewhere]
  | recorded elsewhere _ as =>
    refine iff_of_false (by simp [elsewhere]) ?_
    cases ending with
    | none => simp
    | some verdict =>
      rw [as.eq_ofBool]
      cases Mention.locates _ <;> simp [Verdict.ofBool]

/-- A definition leaves entries just if it can be recorded. -/
theorem ne_nil_iff (start : c.tree.start = .ok p) (h : Judged s x file c p r d verdict entries) :
    entries ≠ [] ↔ s.Recordable c d := by
  obtain ⟨ending, -, considered⟩ := h
  cases considered with
  | here stands =>
    refine iff_of_false (by simp) ?_
    obtain ⟨isKind, stands⟩ := Setting.isAt_iff.mp stands
    unfold Recordable
    rcases isKind with kind | kind <;> simp [kind, start, stands]
  | passed _ not => exact iff_of_false (by simp) not
  | recorded _ recordable _ written => exact iff_of_true written.ne_nil recordable

theorem eq_nil (h : Judged s x file c p r d .here entries) : entries = [] := by
  have stands := h.isAt_iff.mpr rfl
  obtain ⟨ending, -, considered⟩ := h
  cases considered with
  | here | passed => rfl
  | recorded elsewhere => cases elsewhere.symm.trans stands

/-- A definition that settles what the name is locates it. -/
theorem exists_located (h : Judged s x file c p r d .solved entries) :
    ∃ e ∈ entries, e.call.located? = some r.extent := by
  obtain ⟨ending, ends, considered⟩ := h
  cases considered with
  | here => cases ends
  | passed _ _ unsettled => rcases unsettled with rfl | rfl <;> cases ends
  | @recorded m _ _ _ _ as written =>
    cases ending with
    | none => cases ends
    | some verdict =>
      obtain rfl : verdict = .solved := ends
      refine written.exists_located.mpr ?_
      cases located : m.locates with
      | true => rfl
      | false => simpa [located, Verdict.ofBool] using as.eq_ofBool

/-- One that does not settle it locates nothing, if it can be told whether the name is called. -/
theorem located?_eq_none {called : Bool} (told : c.isCall = .ok called)
    (h : Judged s x file c p r d .unsolved entries) :
    ∀ e ∈ entries, e.call.located? = none := by
  have ofName := h.ofName
  obtain ⟨ending, ends, considered⟩ := h
  cases considered with
  | here | passed => simp
  | @recorded m _ _ _ _ as written =>
    have unlocated : m.locates = false := by
      cases ending with
      | none => exact as.locates_eq_false told
      | some verdict =>
        obtain rfl : verdict = .unsolved := ends
        cases located : m.locates with
        | false => rfl
        | true => simpa [located, Verdict.ofBool] using as.eq_ofBool
    intro e he
    refine (ofName e he).1.2.resolve_right fun located => ?_
    exact Bool.false_ne_true (unlocated.symm.trans (written.exists_located.mp ⟨e, he, located⟩))

end Judged

/-- A fault ends the look at a definition but not the run. -/
theorem writes_considerSafely {text : String} (s : Setting) (d : Definition)
    (start : c.tree.start = .ok p) (htext : c.tree.text = .ok text) (hr : c.range = .ok r) :
    Writes x file (s.considerSafely c d) (Judged s x file c p r d) fun _ => False := by
  refine .tryCatch ((writes_consider s d start hr).mono ?_ ?_)
  · exact fun verdict entries considered => ⟨some verdict, rfl, considered⟩
  · intro entries considered e
    refine .liftOk htext (.liftOk hr (.bind (.say (.pure ⟨none, rfl, ?_⟩))))
    simpa using considered

/-! ### Definitions in turn -/

/-- The entries for the definitions of a name. `P` says what one definition adds to the log, and
`unknown` what is added at the end if neither an earlier definition nor one of these has settled
what the name is. At a definition that stands at the name itself the search ends. -/
inductive InTurn (P : Definition → Verdict → List LogEntry → Prop)
    (unknown : List LogEntry → Prop) : List (Option Definition) → Bool → List LogEntry → Prop
  | settled : InTurn P unknown [] true []
  | unsettled {xs : List LogEntry} (h : unknown xs) : InTurn P unknown [] false xs
  | missing {ds : List (Option Definition)} {b : Bool} {xs : List LogEntry}
      (rest : InTurn P unknown ds b xs) : InTurn P unknown (none :: ds) b xs
  | here {d : Definition} {ds : List (Option Definition)} {b : Bool} {xs : List LogEntry}
      (first : P d .here xs) : InTurn P unknown (some d :: ds) b xs
  | solved {d : Definition} {ds : List (Option Definition)} {b : Bool} {xs ys : List LogEntry}
      (first : P d .solved xs) (rest : InTurn P unknown ds true ys) :
      InTurn P unknown (some d :: ds) b (xs ++ ys)
  | unsolved {d : Definition} {ds : List (Option Definition)} {b : Bool} {xs ys : List LogEntry}
      (first : P d .unsolved xs) (rest : InTurn P unknown ds b ys) :
      InTurn P unknown (some d :: ds) b (xs ++ ys)

namespace InTurn

variable {P : Definition → Verdict → List LogEntry → Prop} {unknown : List LogEntry → Prop}
  {ds : List (Option Definition)} {b : Bool} {xs : List LogEntry}

/-- What holds of every entry for a definition and at the end holds of all entries. -/
theorem forall_mem (h : InTurn P unknown ds b xs) {R : LogEntry → Prop}
    (each : ∀ d verdict xs, P d verdict xs → ∀ e ∈ xs, R e)
    (last : ∀ xs, unknown xs → ∀ e ∈ xs, R e) : ∀ e ∈ xs, R e := by
  induction h with
  | settled => simp
  | unsettled h => exact last _ h
  | missing _ ih => exact ih
  | here first => exact each _ _ _ first
  | solved first _ ih | unsolved first _ ih =>
    exact List.forall_mem_append.mpr ⟨each _ _ _ first, ih⟩

end InTurn

/-- The entry for a name that refers to something unknown. -/
def UnknownEntries (x file : Value) (r : Extent) (entries : List LogEntry) : Prop :=
  ∃ v, entries = [⟨.unsolvedReference x .usage file r, v⟩]

theorem writes_visitDefinitions {text : String} (s : Setting)
    (start : c.tree.start = .ok p) (htext : c.tree.text = .ok text) (hr : c.range = .ok r)
    (ds : List (Option Definition)) (settled : Bool) :
    Writes x file (s.visitDefinitions c ds settled)
      (fun _ => InTurn (Judged s x file c p r)
        (UnknownEntries x file r) ds settled) fun _ => False := by
  induction ds generalizing settled with
  | nil =>
    cases settled with
    | true => exact .pure .settled
    | false =>
      exact (writes_referToUnsolved .usage hr).mono (fun _ _ unknown => .unsettled unknown)
        fun _ h => h
  | cons d ds ih =>
    cases d with
    | none => exact (ih settled).mono (fun _ _ rest => .missing rest) fun _ h => h
    | some d =>
      refine .bind ((writes_considerSafely s d start htext hr).mono (fun verdict xs first => ?_)
        fun _ h => h)
      cases verdict with
      | here => exact .pure (by rw [List.append_nil]; exact .here first)
      | solved => exact (ih true).mono (fun _ _ rest => .solved first rest) fun _ h => h
      | unsolved => exact (ih settled).mono (fun _ _ rest => .unsolved first rest) fun _ h => h

end Definitions

/-! ### Names -/

/-- The range of a token. -/
def tokenRange (token : Token) : SourceRange := .between token.start (Tree.leafEnd token)

/-- The entries for a name: none for a constant, and otherwise those for its definitions. -/
def NameEntries (s : Setting) (x file : Value) (token : Token) (above : List Ancestor)
    (entries : List LogEntry) : Prop :=
  if constantNames.contains token.text then entries = [] else
    InTurn (Judged s x file ⟨.leaf token, above⟩ token.start (tokenRange token))
      (UnknownEntries x file (tokenRange token))
      (s.definitionsAt ⟨.leaf token, above⟩ s.source.path) false entries

theorem writes_visitName {x file : Value} (s : Setting) (token : Token) (above : List Ancestor) :
    Writes x file (s.visitName ⟨.leaf token, above⟩) (fun _ => NameEntries s x file token above)
      fun _ => False := by
  refine .getBind fun σ stands => ?_
  rw [if_neg (by simpa using stands.ne_nil)]
  refine .liftOk rfl ?_
  unfold NameEntries
  by_cases constant : constantNames.contains token.text = true
  · simp only [if_pos constant]
    exact .pure rfl
  · simp only [if_neg constant]
    exact writes_visitDefinitions s rfl rfl rfl _ false

/-- Nothing is said of another name. -/
theorem NameEntries.ofName {s : Setting} {x file : Value} {token : Token} {above : List Ancestor}
    {entries : List LogEntry} (h : NameEntries s x file token above entries) :
    ∀ e ∈ entries, OfName (tokenRange token) e.call := by
  unfold NameEntries at h
  split at h
  · simp [h]
  · refine h.forall_mem (fun d verdict xs judged e he => (judged.ofName e he).1) ?_
    rintro _ ⟨v, rfl⟩
    simp [OfName]

theorem visitSelf_name {token : Token} (s : Setting) (above : List Ancestor)
    (isName : token.kind = .name) :
    s.visitSelf ⟨.leaf token, above⟩ =
      (s.visitName ⟨.leaf token, above⟩ : Indexing Client Unit) := by
  unfold visitSelf
  rw [show Tree.kind (.leaf token) = .name from isName]

/-- The visit of a name never fails. -/
theorem exists_nameEntries {token : Token} (s : Setting) (above : List Ancestor)
    (isName : token.kind = .name) {x file : Value} {σ : Trace Client} (stands : σ.Stands x file) :
    ∃ τ entries, s.visitSelf ⟨.leaf token, above⟩ σ = .ok () τ ∧ Adds σ τ entries ∧
      NameEntries s x file token above entries := by
  obtain ⟨_, τ, entries, ran, adds, written⟩ := (writes_visitName s token above).returns stands
  exact ⟨τ, entries, by rw [visitSelf_name s above isName]; exact ran, adds, written⟩

end Semantic.Setting

end CodeIndex
