import CodeIndex.Proofs.Outcome
import CodeIndex.Trace

/-!
# The discipline of recording

An indexer gets identifiers from the recorder and passes them on. This module says once what it may
do between entering and leaving a context: print a line, make a local variable of the innermost
context known, and make a recording whose identifiers stand for what the recording takes them for.
Anything that these three keep is kept by whatever is done for a place of the tree, for every
recorder and also when a fault ends it.

A `Discipline` is something that they keep: a relation between states, and for each state what is
known about values. `Moves` says of a computation that it keeps to the discipline, given that some
values are known to identify symbols. The rules below it follow the constructs of the `do` notation,
so that there is one short proof for each function of an indexer, and it is the same for all
disciplines.
-/

namespace CodeIndex

variable {ρ α β : Type}

/-- The innermost context has the identifier `x`. -/
def Trace.IsTop (t : Trace ρ) (x : Value) : Prop :=
  ∃ top rest, t.contexts = top :: rest ∧ top.id = x

/-- What follows the reading of the innermost context. -/
theorem Indexing.context_bind (f : Context → Indexing ρ α) (s : Trace ρ) :
    (context >>= f) s =
      (match s.contexts with
        | [] => throw .outOfRange
        | top :: _ => f top : Indexing ρ α) s := by
  change (((match s.contexts with | [] => throw .outOfRange | top :: _ => return top) :
    Indexing ρ Context) >>= f) s = _
  cases s.contexts <;> rfl

/-- Reading the innermost context leaves the state alone. -/
theorem Outcome.context {Q : Context → Trace ρ → Prop} {E : Trace ρ → Prop} {s : Trace ρ} (hE : E s)
    (h : ∀ top rest, s.contexts = top :: rest → Q top s) :
    Outcome Q E ((Indexing.context : Indexing ρ Context) s) := by
  rw [← bind_pure Indexing.context, Indexing.context_bind]
  cases hc : s.contexts with
  | nil => exact hE
  | cons top rest => exact h top rest hc

/-- A recording changes the recorder and nothing else. -/
theorem Outcome.emit [Recorder ρ] {Q : Value → Trace ρ → Prop} {E : Trace ρ → Prop} {s : Trace ρ}
    {r : Recording}
    (h : Outcome (fun v recorder => Q v { s with recorder }) (fun recorder => E { s with recorder })
      (Recorder.record r s.recorder)) :
    Outcome Q E ((Indexing.emit r : Indexing ρ Value) s) := by
  unfold Indexing.emit Indexing.recording
  exact Outcome.focus h

/-- Only a token has a text. -/
theorem Tree.isLeaf_of_text {t : Tree} {text : String} (h : t.text = .ok text) :
    t.isLeaf = true := by
  cases t with
  | leaf token => rfl
  | node kind parts => cases h

theorem Tree.text_of_isLeaf {t : Tree} (h : t.isLeaf = true) : ∃ text, t.text = .ok text := by
  cases t with
  | leaf token => exact ⟨token.text, rfl⟩
  | node => cases h

namespace Indexing

variable [Recorder ρ]

/-- What is recorded about the symbol of a class or function. -/
def describe (symbol : Value) (kind : SymbolKind) (nameAt : Option Cursor) (c : Cursor) :
    Indexing ρ Unit := do
  note (.definitionKind symbol .explicit)
  note (.symbolKind symbol kind)
  note (.symbolLocation symbol (← rangeOf nameAt))
  note (.scopeLocation symbol (← c.range))

/-- A definition is recorded as a symbol first, and then described. -/
theorem define_eq (name : QualifiedName) (kind : SymbolKind) (nameAt : Option Cursor) (c : Cursor) :
    (define name kind nameAt c : Indexing ρ Value) = do
      let symbol ← emit (.symbol name)
      describe symbol kind nameAt c
      return symbol := by
  simp only [define, describe, bind_assoc]

end Indexing

/-- What values stand for. -/
structure Standing where
  /-- The value identifies a symbol. -/
  symbol : Value → Prop
  /-- The value identifies a reference. -/
  reference : Value → Prop
  /-- The value identifies a local variable. -/
  localSymbol : Value → Prop
  /-- The value identifies what a reference may start from. -/
  origin : Value → Prop

namespace Standing

/-- The identifiers in a recording stand for what it takes them for. Files are recorded at the
beginning of a run only, and no name is recorded as missing. -/
def Admits (k : Standing) : Recording → Prop
  | .symbol _ | .namelessMember _ | .localSymbol _ | .atomicRange _ | .error _ _ _ => True
  | .definitionKind i _ | .symbolKind i _ | .symbolLocation i _ | .scopeLocation i _
  | .qualifierLocation i _ => k.symbol i
  | .reference context target _ => k.origin context ∧ k.symbol target
  | .unsolvedReference context _ _ => k.origin context
  | .referenceLocation i _ => k.reference i
  | .localLocation i _ => k.localSymbol i
  | _ => False

/-- What the recorder gives back for a recording stands for what was recorded. -/
def Gains (k : Standing) (v : Value) : Recording → Prop
  | .symbol _ | .namelessMember _ => k.symbol v
  | .reference _ _ _ => k.reference v
  | .localSymbol _ => k.localSymbol v
  | _ => True

end Standing

/-- Something that an indexer keeps while it stays in a context. -/
structure Discipline (ρ : Type) [Recorder ρ] where
  /-- What holds of every state. -/
  holds : Trace ρ → Prop
  /-- How the state may change. -/
  goes : Trace ρ → Trace ρ → Prop
  /-- What values stand for in a state. -/
  standing : Trace ρ → Standing
  refl : ∀ {s}, holds s → goes s s
  trans : ∀ {s t u}, goes s t → goes t u → goes s u
  holds_of_goes : ∀ {s t}, goes s t → holds t
  /-- What identifies a symbol goes on doing so. -/
  symbol_mono : ∀ {s t v}, goes s t → (standing s).symbol v → (standing t).symbol v
  /-- What is printed, and how far it is indented, does not matter. -/
  print : ∀ {s} lines indent, holds s → goes s { s with lines, indent }
  declare : ∀ {s} name, holds s → goes s { s with contexts := Indexing.withLocal name s.contexts }
  record : ∀ {s r}, holds s → (standing s).Admits r →
    Outcome (fun v t => goes s t ∧ (standing t).Gains v r) (goes s) (Indexing.emit r s)

namespace Discipline

variable [Recorder ρ] (D : Discipline ρ)

/-- References from the innermost context are allowed. -/
def AllowsReferences : Prop := ∀ s x, D.holds s → s.IsTop x → (D.standing s).origin x

/-- Where the `known` values identify symbols, the computation keeps to the discipline, whether or
not it ends in a fault; and what it gives back `gains` further values that identify symbols. -/
def Moves (known : List Value) (m : Indexing ρ α) (gains : α → List Value := fun _ => []) : Prop :=
  ∀ s, D.holds s → (∀ v ∈ known, (D.standing s).symbol v) →
    Outcome (fun a t => D.goes s t ∧ ∀ v ∈ gains a, (D.standing t).symbol v) (D.goes s) (m s)

namespace Moves

variable {D} {known : List Value} {gains : α → List Value}

/-! ### Rules for the constructs of a computation -/

theorem pure (a : α) : D.Moves known (pure a) := fun _ hs _ => ⟨D.refl hs, by simp⟩

/-- A result that is known to identify a symbol. -/
theorem pureSymbol {v : Value} (hv : v ∈ known) : D.Moves known (Pure.pure v) (fun v => [v]) :=
  fun _ hs isSymbol => ⟨D.refl hs, by simpa using isSymbol v hv⟩

theorem throw (e : Fault) : D.Moves known (throw e : Indexing ρ α) gains := fun _ hs _ => D.refl hs

theorem lift (x : Except Fault α) : D.Moves known (liftM x : Indexing ρ α) := by
  intro s hs _
  cases x with
  | ok a => exact ⟨D.refl hs, by simp⟩
  | error e => exact D.refl hs

/-- One computation after the other: the second one knows what the first one gained. -/
theorem bind {m : Indexing ρ α} {f : α → Indexing ρ β} {more : β → List Value}
    (hm : D.Moves known m gains) (hf : ∀ a, D.Moves (gains a ++ known) (f a) more) :
    D.Moves known (m >>= f) more := by
  intro s hs isSymbol
  refine Outcome.bind ((hm s hs isSymbol).mono ?_ fun _ h => h)
  rintro a t ⟨hst, ha⟩
  have known_t : ∀ v ∈ gains a ++ known, (D.standing t).symbol v := by
    intro v hv
    rcases List.mem_append.mp hv with hv | hv
    · exact ha v hv
    · exact D.symbol_mono hst (isSymbol v hv)
  refine (hf a t (D.holds_of_goes hst) known_t).mono ?_ fun _ h => D.trans hst h
  rintro b u ⟨htu, hb⟩
  exact ⟨D.trans hst htu, hb⟩

theorem liftBind {x : Except Fault α} {f : α → Indexing ρ β} {more : β → List Value}
    (hf : ∀ a, D.Moves known (f a) more) : D.Moves known ((liftM x : Indexing ρ α) >>= f) more :=
  bind (lift x) hf

/-- A result that is looked at more closely. -/
theorem liftBindOf {x : Except Fault α} {f : α → Indexing ρ β} {more : β → List Value}
    (hf : ∀ a, x = .ok a → D.Moves known (f a) more) :
    D.Moves known ((liftM x : Indexing ρ α) >>= f) more :=
  fun s hs isSymbol => Outcome.liftBind (D.refl hs) fun a ha => hf a ha s hs isSymbol

/-- A fault is caught: the handler goes on from the state that the fault left behind. -/
theorem tryCatch {m : Indexing ρ α} {handle : Fault → Indexing ρ α}
    (hm : D.Moves known m) (hh : ∀ e, D.Moves known (handle e)) :
    D.Moves known (MonadExcept.tryCatch m handle) := by
  intro s hs isSymbol
  refine Outcome.tryCatch ((hm s hs isSymbol).mono (fun _ _ h => h) fun t hst e => ?_)
  have known_t : ∀ v ∈ known, (D.standing t).symbol v :=
    fun v hv => D.symbol_mono hst (isSymbol v hv)
  refine (hh e t (D.holds_of_goes hst) known_t).mono ?_ fun _ h => D.trans hst h
  rintro a u ⟨htu, ha⟩
  exact ⟨D.trans hst htu, ha⟩

theorem get : D.Moves known (MonadState.get : Indexing ρ (Trace ρ)) :=
  fun _ hs _ => ⟨D.refl hs, by simp⟩

theorem context : D.Moves known (Indexing.context : Indexing ρ Context) :=
  fun _ hs _ => Outcome.context (D.refl hs) fun _ _ _ => ⟨D.refl hs, by simp⟩

theorem say (line : String) : D.Moves known (Indexing.say line : Indexing ρ Unit) :=
  fun s hs _ => ⟨D.print (s.lines.push line) s.indent hs, by simp⟩

theorem declare (name : String) : D.Moves known (Indexing.declare name : Indexing ρ Unit) :=
  fun _ hs _ => ⟨D.declare name hs, by simp⟩

theorem beginListing (verbose : Bool) (c : Cursor) :
    D.Moves known (Indexing.beginListing verbose c : Indexing ρ Unit) := by
  unfold Indexing.beginListing
  split
  · refine bind get fun s => ?_
    refine liftBind fun range => ?_
    refine bind (say _) fun _ => ?_
    exact fun s hs _ => ⟨D.print s.lines (s.indent + 1) hs, by simp⟩
  · exact pure _

theorem endListing (verbose : Bool) :
    D.Moves known (Indexing.endListing verbose : Indexing ρ Unit) := by
  unfold Indexing.endListing
  split
  · exact fun s hs _ => ⟨D.print s.lines (s.indent - 1) hs, by simp⟩
  · exact pure _

/-! ### Recordings -/

theorem emit {r : Recording}
    (hr : ∀ s, (∀ v ∈ known, (D.standing s).symbol v) → (D.standing s).Admits r) :
    D.Moves known (Indexing.emit r : Indexing ρ Value) :=
  fun s hs isSymbol =>
    (D.record hs (hr s isSymbol)).mono (fun _ _ h => ⟨h.1, by simp⟩) fun _ h => h

theorem note {r : Recording}
    (hr : ∀ s, (∀ v ∈ known, (D.standing s).symbol v) → (D.standing s).Admits r) :
    D.Moves known (Indexing.note r : Indexing ρ Unit) :=
  bind (emit hr) fun _ => pure _

/-- A recording that gives out the identifier of a symbol. -/
theorem emitSymbol {r : Recording} (hr : ∀ k : Standing, k.Admits r)
    (hg : ∀ (k : Standing) v, k.Gains v r → k.symbol v) :
    D.Moves known (Indexing.emit r : Indexing ρ Value) (fun v => [v]) :=
  fun _ hs _ =>
    (D.record hs (hr _)).mono (fun _ _ h => ⟨h.1, by simpa using hg _ _ h.2⟩) fun _ h => h

theorem symbol (name : QualifiedName) :
    D.Moves known (Indexing.emit (.symbol name) : Indexing ρ Value) (fun v => [v]) :=
  emitSymbol (fun _ => trivial) fun _ _ h => h

/-- A recording, and then one about what the recorder gave back for it. -/
theorem emitThenNote {s : Trace ρ} (hs : D.holds s) {r : Recording} {about : Value → Recording}
    (hr : (D.standing s).Admits r) (ha : ∀ (k : Standing) v, k.Gains v r → k.Admits (about v)) :
    Outcome (fun _ t => D.goes s t ∧ ∀ v ∈ ([] : List Value), (D.standing t).symbol v) (D.goes s)
      ((Indexing.emit r >>= fun v => Indexing.note (about v) : Indexing ρ Unit) s) := by
  refine Outcome.bind ((D.record hs hr).mono ?_ fun _ h => h)
  rintro v t ⟨hst, hv⟩
  refine Outcome.bind ((D.record (D.holds_of_goes hst) (ha _ v hv)).mono ?_
    fun _ h => D.trans hst h)
  rintro _ u ⟨htu, -⟩
  exact ⟨D.trans hst htu, by simp⟩

theorem useLocal (name : String) (range : SourceRange) :
    D.Moves known (Indexing.useLocal name range : Indexing ρ Unit) :=
  fun _ hs _ => emitThenNote hs trivial fun _ _ h => h

section References

variable (allowed : D.AllowsReferences)
include allowed

theorem refer {target : Value} (kind : ReferenceKind) (range : SourceRange) (ht : target ∈ known) :
    D.Moves known (Indexing.refer target kind range : Indexing ρ Unit) := by
  intro s hs isSymbol
  refine Outcome.bind (Outcome.context (D.refl hs) fun top rest hc => ?_)
  exact emitThenNote hs ⟨allowed s top.id hs ⟨top, rest, hc, rfl⟩, isSymbol target ht⟩
    fun _ _ h => h

theorem referToUnsolved (kind : ReferenceKind) (c : Cursor) :
    D.Moves known (Indexing.referToUnsolved kind c : Indexing ρ Unit) := by
  intro s hs _
  refine Outcome.bind (Outcome.context (D.refl hs) fun top rest hc => ?_)
  refine Outcome.liftBind (D.refl hs) fun range _ => ?_
  have admitted : (D.standing s).Admits (.unsolvedReference top.id kind range) :=
    allowed s top.id hs ⟨top, rest, hc, rfl⟩
  refine Outcome.bind ((D.record hs admitted).mono ?_ fun _ h => h)
  rintro _ t ⟨hst, -⟩
  exact ⟨hst, by simp⟩

end References

/-! ### What both indexers record alike -/

theorem describe {symbol : Value} (kind : SymbolKind) (nameAt : Option Cursor) (c : Cursor)
    (hs : symbol ∈ known) :
    D.Moves known (Indexing.describe symbol kind nameAt c : Indexing ρ Unit) := by
  unfold Indexing.describe
  refine bind (note fun s h => h symbol hs) fun _ => ?_
  refine bind (note fun s h => h symbol hs) fun _ => ?_
  refine liftBind fun nameRange => ?_
  refine bind (note fun s h => h symbol hs) fun _ => ?_
  refine liftBind fun range => ?_
  exact note fun s h => h symbol hs

theorem visitString (c : Cursor) : D.Moves known (Indexing.visitString c : Indexing ρ Unit) := by
  unfold Indexing.visitString
  refine liftBind fun range => ?_
  split
  · exact note fun _ _ => trivial
  · exact pure _

theorem visitErrorToken (c : Cursor) :
    D.Moves known (Indexing.visitErrorToken c : Indexing ρ Unit) := by
  unfold Indexing.visitErrorToken
  refine liftBind fun token => ?_
  refine liftBind fun range => ?_
  exact note fun _ _ => trivial

end Moves

end Discipline

end CodeIndex
