import CodeIndex.Proofs.Walk
import Mathlib.Data.List.Forall2

/-!
# Two runs side by side

An indexer never looks at the identifiers that it gets from the recorder; it only passes them on. So
two runs of the same indexer that report to different recorders do the same, step by step, up to the
identifiers: they end with the same result or the same fault, and each makes the recordings of the
other.

A `Bond` is something that holds between two recorders and is kept by corresponding recordings. It
says which identifiers correspond to each other. `Agree` says of two computations that they keep the
bond; like the rules for `Moves`, those for `Agree` follow the constructs of the `do` notation, and
there is one proof for each function of an indexer. At the end stands `Actions.lockstep_run`: two
runs with the same steps keep the bond, whether or not the tree is listed.

The lines of the tree listing can be told from all other lines: each of them begins with the same
mark, and no other line does.
-/

namespace CodeIndex

variable {ρ σ τ α β γ δ : Type}

/-! ### Lines of the tree listing -/

/-- The line belongs to the listing of the tree. -/
def isTreeLine (line : String) : Bool := "AST: ".toList.isPrefixOf line.toList

/-- The text begins with a character that no line of the listing begins with. -/
def BeginsOtherwise (s : String) : Prop := ∃ c, s.toList.head? = some c ∧ c ≠ 'A'

theorem BeginsOtherwise.append {s : String} (h : BeginsOtherwise s) (rest : String) :
    BeginsOtherwise (s ++ rest) := by
  obtain ⟨c, hs, hc⟩ := h
  exact ⟨c, by rw [String.toList_append, List.head?_append, hs, Option.some_or], hc⟩

theorem BeginsOtherwise.isTreeLine {s : String} (h : BeginsOtherwise s) : isTreeLine s = false := by
  obtain ⟨c, hs, hc⟩ := h
  obtain ⟨cs, hs⟩ := List.head?_eq_some_iff.mp hs
  simp [CodeIndex.isTreeLine, hs, List.isPrefixOf, hc.symm]

namespace Trace

/-- The lines of the tree listing that were printed so far. -/
def treeLines (t : Trace ρ) : List String := t.lines.toList.filter isTreeLine

theorem treeLines_push (t : Trace ρ) (line : String) :
    treeLines { t with lines := t.lines.push line } =
      t.treeLines ++ if isTreeLine line then [line] else [] := by
  cases h : isTreeLine line <;> simp [treeLines, h]

/-- Nothing was added to the tree listing in between, and it is indented as before. -/
structure Unlisted (s t : Trace ρ) : Prop where
  lines : t.treeLines = s.treeLines
  indent : t.indent = s.indent

namespace Unlisted

theorem refl (s : Trace ρ) : Unlisted s s := ⟨rfl, rfl⟩

theorem trans {s t u : Trace ρ} (hst : Unlisted s t) (htu : Unlisted t u) : Unlisted s u :=
  ⟨htu.lines.trans hst.lines, htu.indent.trans hst.indent⟩

theorem push (s : Trace ρ) {line : String} (other : isTreeLine line = false) :
    Unlisted s { s with lines := s.lines.push line } :=
  ⟨by simp [treeLines_push, other], rfl⟩

end Unlisted

end Trace

/-! ### Ending alike -/

/-- The result or the fault that a computation ends with. -/
def ending : EStateM.Result Fault σ α → Except Fault α
  | .ok a _ => .ok a
  | .error e _ => .error e

/-- Both computations end with a result, and `Q` holds of the results and the states; or both end
with the same fault, and `E` holds of the states. -/
def Lockstep (Q : α → σ → β → τ → Prop) (E : σ → τ → Prop) :
    EStateM.Result Fault σ α → EStateM.Result Fault τ β → Prop
  | .ok a s, .ok b t => Q a s b t
  | .error e s, .error e' t => e = e' ∧ E s t
  | _, _ => False

namespace Lockstep

variable {Q : α → σ → β → τ → Prop} {E : σ → τ → Prop}

theorem mono {Q' : α → σ → β → τ → Prop} {E' : σ → τ → Prop} {r : EStateM.Result Fault σ α}
    {r' : EStateM.Result Fault τ β} (h : Lockstep Q E r r')
    (hQ : ∀ a s b t, Q a s b t → Q' a s b t) (hE : ∀ s t, E s t → E' s t) :
    Lockstep Q' E' r r' := by
  cases r <;> cases r'
  · exact hQ _ _ _ _ h
  · exact h
  · exact h
  · exact ⟨h.1, hE _ _ h.2⟩

/-- What holds at either end holds of the states at the end. -/
theorem final {r : EStateM.Result Fault σ α} {r' : EStateM.Result Fault τ β}
    (h : Lockstep (fun _ s _ t => E s t) E r r') : E (finalState r) (finalState r') := by
  cases r <;> cases r'
  · exact h
  · exact h.elim
  · exact h.elim
  · exact h.2

theorem ending {r : EStateM.Result Fault σ Unit} {r' : EStateM.Result Fault τ Unit}
    {Q : Unit → σ → Unit → τ → Prop} (h : Lockstep Q E r r') : ending r' = ending r := by
  cases r <;> cases r'
  · rfl
  · exact h.elim
  · exact h.elim
  · exact congrArg Except.error h.1.symm

theorem bind {Q : γ → σ → δ → τ → Prop} {m : EStateM Fault σ α} {n : EStateM Fault τ β}
    {f : α → EStateM Fault σ γ} {g : β → EStateM Fault τ δ} {s : σ} {t : τ}
    (h : Lockstep (fun a s' b t' => Lockstep Q E (f a s') (g b t')) E (m s) (n t)) :
    Lockstep Q E ((m >>= f) s) ((n >>= g) t) := by
  change Lockstep Q E (EStateM.bind m f s) (EStateM.bind n g t)
  unfold EStateM.bind
  cases hm : m s <;> cases hn : n t <;> rw [hm, hn] at h
  · exact h
  · exact h.elim
  · exact h.elim
  · exact h

theorem tryCatch {m : EStateM Fault σ α} {n : EStateM Fault τ β}
    {handle : Fault → EStateM Fault σ α} {handle' : Fault → EStateM Fault τ β} {s : σ} {t : τ}
    (h : Lockstep Q (fun s' t' => ∀ e, Lockstep Q E (handle e s') (handle' e t')) (m s) (n t)) :
    Lockstep Q E (MonadExcept.tryCatch m handle s) (MonadExcept.tryCatch n handle' t) := by
  change Lockstep Q E (EStateM.tryCatch m handle s) (EStateM.tryCatch n handle' t)
  unfold EStateM.tryCatch
  cases hm : m s <;> cases hn : n t <;> rw [hm, hn] at h
  · exact h
  · exact h.elim
  · exact h.elim
  · obtain ⟨rfl, h⟩ := h
    exact h _

/-- What two computations do to parts of the states. -/
theorem focus {σ' τ' : Type} {part : σ → σ'} {replace : σ' → σ → σ} {part' : τ → τ'}
    {replace' : τ' → τ → τ} {m : EStateM Fault σ' α} {n : EStateM Fault τ' β} {s : σ} {t : τ}
    (h : Lockstep (fun a s' b t' => Q a (replace s' s) b (replace' t' t))
      (fun s' t' => E (replace s' s) (replace' t' t)) (m (part s)) (n (part' t))) :
    Lockstep Q E (CodeIndex.focus part replace m s) (CodeIndex.focus part' replace' n t) := by
  unfold CodeIndex.focus
  cases hm : m (part s) <;> cases hn : n (part' t) <;> (rw [hm, hn] at h; exact h)

end Lockstep

/-! ### Corresponding recordings -/

/-- The code of the kind is a number. -/
def ReferenceKind.Numbered (kind : ReferenceKind) : Prop := ∃ n, kind.code = .number n

/-- Two recordings that differ in their identifiers only. References and local variables are left
out; they are recorded together with their places. -/
inductive Paired (link : Value → Value → Prop) : Recording → Recording → Prop where
  | symbol (name : QualifiedName) : Paired link (.symbol name) (.symbol name)
  | namelessMember (owner : QualifiedName) :
      Paired link (.namelessMember owner) (.namelessMember owner)
  | definitionKind {v w : Value} (h : link v w) (kind : DefinitionKind) :
      Paired link (.definitionKind v kind) (.definitionKind w kind)
  | symbolKind {v w : Value} (h : link v w) (kind : SymbolKind) :
      Paired link (.symbolKind v kind) (.symbolKind w kind)
  | symbolLocation {v w : Value} (h : link v w) (range : Extent) :
      Paired link (.symbolLocation v range) (.symbolLocation w range)
  | scopeLocation {v w : Value} (h : link v w) (range : Extent) :
      Paired link (.scopeLocation v range) (.scopeLocation w range)
  | qualifierLocation {v w : Value} (h : link v w) (range : Extent) :
      Paired link (.qualifierLocation v range) (.qualifierLocation w range)
  | unsolvedReference {v w : Value} (h : link v w) {kind : ReferenceKind} (numbered : kind.Numbered)
      (range : Extent) :
      Paired link (.unsolvedReference v kind range) (.unsolvedReference w kind range)
  | atomicRange (range : Extent) : Paired link (.atomicRange range) (.atomicRange range)
  | error (message : String) (fatal : Value) (range : Extent) :
      Paired link (.error (.text message) fatal range) (.error (.text message) fatal range)

theorem Paired.mono {link link' : Value → Value → Prop} {r r' : Recording}
    (h : Paired link r r') (hl : ∀ v w, link v w → link' v w) : Paired link' r r' := by
  cases h with
  | symbol name => exact .symbol name
  | namelessMember owner => exact .namelessMember owner
  | definitionKind h kind => exact .definitionKind (hl _ _ h) kind
  | symbolKind h kind => exact .symbolKind (hl _ _ h) kind
  | symbolLocation h range => exact .symbolLocation (hl _ _ h) range
  | scopeLocation h range => exact .scopeLocation (hl _ _ h) range
  | qualifierLocation h range => exact .qualifierLocation (hl _ _ h) range
  | unsolvedReference h numbered range => exact .unsolvedReference (hl _ _ h) numbered range
  | atomicRange range => exact .atomicRange range
  | error message fatal range => exact .error message fatal range

/-- The recording gives out the identifier of a symbol. -/
def Recording.givesSymbol : Recording → Bool
  | .symbol _ | .namelessMember _ => true
  | _ => false

/-- The recording is that of a symbol without a name of its own. -/
def Recording.lacksName : Recording → Bool
  | .namelessMember _ => true
  | _ => false

section Recorders

variable [Recorder ρ]

/-- Records something and then, with the identifier that was given out for it, something else. -/
def recordBoth (r : Recording) (about : Value → Recording) : EStateM Fault ρ Unit := do
  let v ← Recorder.record r
  let _ ← Recorder.record (about v)

theorem Indexing.emitThenNote_eq (r : Recording) (about : Value → Recording) :
    (do let v ← emit r; note (about v) : Indexing ρ Unit) = recording (recordBoth r about) := by
  funext s
  unfold note emit recording recordBoth
  cases h : Recorder.record r s.recorder with
  | error e c =>
    have first : focus Trace.recorder (fun recorder t => { t with recorder }) (Recorder.record r) s
        = .error e { s with recorder := c } := by rw [focus, h]
    rw [bind_of_error first, focus, bind_of_error h]
  | ok v c =>
    have first : focus Trace.recorder (fun recorder t => { t with recorder }) (Recorder.record r) s
        = .ok v { s with recorder := c } := by rw [focus, h]
    rw [bind_of_ok first, focus, bind_of_ok h]
    cases h' : Recorder.record (about v) c with
    | error e d =>
      rw [bind_of_error h']
      exact bind_of_error (by rw [focus, h'])
    | ok w d =>
      rw [bind_of_ok h']
      exact bind_of_ok (by rw [focus, h'])

end Recorders

/-! ### Bonds -/

/-- What a step of the two recorders leads to. -/
structure Onward (holds : ρ → σ → Prop) (link : ρ → σ → Value → Value → Prop) (r : ρ) (t : σ)
    (r' : ρ) (t' : σ) : Prop where
  holds : holds r' t'
  /-- Identifiers that correspond to each other go on doing so. -/
  link : ∀ {v w}, link r t v w → link r' t' v w

/-- Something between two recorders that is kept by corresponding recordings. -/
structure Bond (ρ σ : Type) [Recorder ρ] [Recorder σ] where
  /-- What holds between the recorders. -/
  holds : ρ → σ → Prop
  /-- The identifiers correspond to each other. -/
  link : ρ → σ → Value → Value → Prop
  /-- Symbols without a name of their own may be recorded. -/
  nameless : Prop
  record : ∀ {r t x x'}, holds r t → Paired (link r t) x x' → (x.lacksName = true → nameless) →
    Lockstep
      (fun v r' w t' => Onward holds link r t r' t' ∧ (x.givesSymbol = true → link r' t' v w))
      (Onward holds link r t) (Recorder.record x r) (Recorder.record x' t)
  refer : ∀ {r t c c' v v'} {kind : ReferenceKind} (range : Extent), holds r t → link r t c c' →
    link r t v v' → kind.Numbered →
    Lockstep (fun _ r' _ t' => Onward holds link r t r' t') (Onward holds link r t)
      (recordBoth (.reference c v kind) (.referenceLocation · range) r)
      (recordBoth (.reference c' v' kind) (.referenceLocation · range) t)
  useLocal : ∀ {r t} {name : String} (range : Extent), holds r t → name ≠ "" →
    Lockstep (fun _ r' _ t' => Onward holds link r t r' t') (Onward holds link r t)
      (recordBoth (.localSymbol name) (.localLocation · range) r)
      (recordBoth (.localSymbol name) (.localLocation · range) t)

/-- The contexts differ in their identifiers only. -/
def Context.SameButId (k k' : Context) : Prop := k' = { k with id := k'.id }

namespace Bond

variable [Recorder ρ] [Recorder σ] (B : Bond ρ σ)

/-- The contexts correspond to each other. -/
def Alike (r : ρ) (t : σ) (k k' : Context) : Prop := k.SameButId k' ∧ B.link r t k.id k'.id

/-- The states correspond to each other. What was printed does not matter. -/
structure Related (s : Trace ρ) (t : Trace σ) : Prop where
  holds : B.holds s.recorder t.recorder
  contexts : List.Forall₂ (B.Alike s.recorder t.recorder) s.contexts t.contexts
  kinds : t.kinds = s.kinds

theorem Related.same {B : Bond ρ σ} {s : Trace ρ} {t : Trace σ} (h : B.Related s t) :
    List.Forall₂ Context.SameButId s.contexts t.contexts :=
  h.contexts.imp fun _ _ h => h.1

theorem Related.isEmpty {B : Bond ρ σ} {s : Trace ρ} {t : Trace σ} (h : B.Related s t) :
    t.contexts.isEmpty = s.contexts.isEmpty := by
  rw [Bool.eq_iff_iff, List.isEmpty_iff_length_eq_zero, List.isEmpty_iff_length_eq_zero,
    h.contexts.length_eq]

theorem forall₂_leaveFrom {B : Bond ρ σ} {r : ρ} {t : σ} (c : Cursor) {ks ks' : List Context}
    (h : List.Forall₂ (B.Alike r t) ks ks') :
    List.Forall₂ (B.Alike r t) (Indexing.leaveFrom c ks) (Indexing.leaveFrom c ks') := by
  cases h with
  | nil => exact .nil
  | @cons top top' _ _ alike rest =>
    have place : top'.place = top.place := by rw [alike.1]
    simp only [Indexing.leaveFrom, place]
    split
    · exact rest
    · exact .cons alike rest

theorem forall₂_withLocal {B : Bond ρ σ} {r : ρ} {t : σ} (name : String) {ks ks' : List Context}
    (h : List.Forall₂ (B.Alike r t) ks ks') :
    List.Forall₂ (B.Alike r t) (Indexing.withLocal name ks) (Indexing.withLocal name ks') := by
  cases h with
  | nil => exact .nil
  | cons top rest =>
    refine .cons ⟨?_, top.2⟩ rest
    rw [top.1]
    rfl

/-- From two corresponding states to two others, without a line for the tree listing. -/
structure Goes (s : Trace ρ) (t : Trace σ) (s' : Trace ρ) (t' : Trace σ) : Prop where
  related : B.Related s' t'
  link : ∀ {v w}, B.link s.recorder t.recorder v w → B.link s'.recorder t'.recorder v w
  left : s.Unlisted s'
  right : t.Unlisted t'

namespace Goes

variable {B : Bond ρ σ} {s s' s'' : Trace ρ} {t t' t'' : Trace σ}

theorem refl (h : B.Related s t) : B.Goes s t s t := ⟨h, fun h => h, .refl s, .refl t⟩

theorem trans (h : B.Goes s t s' t') (h' : B.Goes s' t' s'' t'') : B.Goes s t s'' t'' :=
  ⟨h'.related, fun hl => h'.link (h.link hl), h.left.trans h'.left, h.right.trans h'.right⟩

/-- Only the recorders have changed. -/
theorem ofRecorders {r : ρ} {r' : σ} (h : B.Related s t)
    (onward : Onward B.holds B.link s.recorder t.recorder r r') :
    B.Goes s t { s with recorder := r } { t with recorder := r' } where
  related := ⟨onward.holds, h.contexts.imp fun _ _ h => ⟨h.1, onward.link h.2⟩, h.kinds⟩
  link := onward.link
  left := ⟨rfl, rfl⟩
  right := ⟨rfl, rfl⟩

end Goes

/-- Where the `known` pairs of identifiers correspond to each other, the two computations end alike
and keep the bond, and `result` holds of what they give back. -/
def Agree (known : List (Value × Value)) (m : Indexing ρ α) (n : Indexing σ α)
    (result : ρ → σ → α → α → Prop := fun _ _ => Eq) : Prop :=
  ∀ s t, B.Related s t → (∀ p ∈ known, B.link s.recorder t.recorder p.1 p.2) →
    Lockstep (fun a s' b t' => B.Goes s t s' t' ∧ result s'.recorder t'.recorder a b)
      (fun s' t' => B.Goes s t s' t') (m s) (n t)

namespace Agree

variable {B} {known : List (Value × Value)} {result : ρ → σ → β → β → Prop}

/-! ### Rules for the constructs of a computation -/

theorem pure (a : α) : B.Agree known (pure a) (pure a) := fun _ _ h _ => ⟨.refl h, rfl⟩

theorem pureSymbol {v w : Value} (h : (v, w) ∈ known) :
    B.Agree known (Pure.pure v) (Pure.pure w) B.link :=
  fun _ _ hst linked => ⟨.refl hst, linked _ h⟩

theorem pureSuch {P : α → Prop} {a : α} (ha : P a) :
    B.Agree known (Pure.pure a) (Pure.pure a) fun _ _ a b => a = b ∧ P a :=
  fun _ _ h _ => ⟨.refl h, rfl, ha⟩

theorem throw (e : Fault) {result : ρ → σ → α → α → Prop} :
    B.Agree known (throw e : Indexing ρ α) (throw e : Indexing σ α) result :=
  fun _ _ h _ => ⟨rfl, .refl h⟩

/-- One computation after the other. -/
theorem bindOf {given : ρ → σ → α → α → Prop} (more : α → α → List (Value × Value))
    {m : Indexing ρ α} {n : Indexing σ α} {f : α → Indexing ρ β} {g : α → Indexing σ β}
    (hm : B.Agree known m n given)
    (hmore : ∀ r t a b, given r t a b → ∀ p ∈ more a b, B.link r t p.1 p.2)
    (hf : ∀ r t a b, given r t a b → B.Agree (more a b ++ known) (f a) (g b) result) :
    B.Agree known (m >>= f) (n >>= g) result := by
  intro s t hst linked
  refine Lockstep.bind ((hm s t hst linked).mono ?_ fun _ _ h => h)
  rintro a s' b t' ⟨goes, ha⟩
  have linked' : ∀ p ∈ more a b ++ known, B.link s'.recorder t'.recorder p.1 p.2 := by
    intro p hp
    rcases List.mem_append.mp hp with hp | hp
    · exact hmore _ _ a b ha p hp
    · exact goes.link (linked p hp)
  refine (hf _ _ a b ha s' t' goes.related linked').mono ?_ fun _ _ h => goes.trans h
  rintro c s'' d t'' ⟨goes', hc⟩
  exact ⟨goes.trans goes', hc⟩

theorem bind {m : Indexing ρ α} {n : Indexing σ α} {f : α → Indexing ρ β} {g : α → Indexing σ β}
    (hm : B.Agree known m n) (hf : ∀ a, B.Agree known (f a) (g a) result) :
    B.Agree known (m >>= f) (n >>= g) result := by
  refine bindOf (fun _ _ => []) hm (by simp) ?_
  rintro _ _ a _ rfl
  exact hf a

/-- What is given back is known to satisfy `P`. -/
theorem bindSuch {P : α → Prop} {m : Indexing ρ α} {n : Indexing σ α} {f : α → Indexing ρ β}
    {g : α → Indexing σ β} (hm : B.Agree known m n fun _ _ a b => a = b ∧ P a)
    (hf : ∀ a, P a → B.Agree known (f a) (g a) result) :
    B.Agree known (m >>= f) (n >>= g) result := by
  refine bindOf (fun _ _ => []) hm (by simp) ?_
  rintro _ _ a _ ⟨rfl, ha⟩
  exact hf a ha

/-- The identifiers of symbols are given back, and what follows knows that they correspond to each
other. -/
theorem bindSymbol {m : Indexing ρ Value} {n : Indexing σ Value} {f : Value → Indexing ρ β}
    {g : Value → Indexing σ β} (hm : B.Agree known m n B.link)
    (hf : ∀ v w, B.Agree ((v, w) :: known) (f v) (g w) result) :
    B.Agree known (m >>= f) (n >>= g) result := by
  refine bindOf (fun v w => [(v, w)]) hm ?_ fun _ _ v w _ => hf v w
  intro r t v w h p hp
  obtain rfl := List.mem_singleton.mp hp
  exact h

/-- A result that is looked at more closely. -/
theorem liftBindOf {x : Except Fault α} {f : α → Indexing ρ β} {g : α → Indexing σ β}
    (hf : ∀ a, x = .ok a → B.Agree known (f a) (g a) result) :
    B.Agree known ((liftM x : Indexing ρ α) >>= f) ((liftM x : Indexing σ α) >>= g) result := by
  cases x with
  | ok a => exact hf a rfl
  | error e => exact throw e

theorem liftBind {x : Except Fault α} {f : α → Indexing ρ β} {g : α → Indexing σ β}
    (hf : ∀ a, B.Agree known (f a) (g a) result) :
    B.Agree known ((liftM x : Indexing ρ α) >>= f) ((liftM x : Indexing σ α) >>= g) result :=
  liftBindOf fun a _ => hf a

theorem lift (x : Except Fault α) :
    B.Agree known (liftM x : Indexing ρ α) (liftM x : Indexing σ α) := by
  cases x with
  | ok a => exact pure a
  | error e => exact throw e

/-- A fault is caught: both handlers go on from the states that it left behind. -/
theorem tryCatch {m : Indexing ρ α} {n : Indexing σ α} {handle : Fault → Indexing ρ α}
    {handle' : Fault → Indexing σ α} (hm : B.Agree known m n)
    (hh : ∀ e, B.Agree known (handle e) (handle' e)) :
    B.Agree known (MonadExcept.tryCatch m handle) (MonadExcept.tryCatch n handle') := by
  intro s t hst linked
  refine Lockstep.tryCatch ((hm s t hst linked).mono (fun _ _ _ _ h => h) fun s' t' goes e => ?_)
  have linked' : ∀ p ∈ known, B.link s'.recorder t'.recorder p.1 p.2 :=
    fun p hp => goes.link (linked p hp)
  refine (hh e s' t' goes.related linked').mono ?_ fun _ _ h => goes.trans h
  rintro a s'' b t'' ⟨goes', same⟩
  exact ⟨goes.trans goes', same⟩

/-- The states are read: what follows sees two that correspond to each other. -/
theorem getBind {f : Trace ρ → Indexing ρ β} {g : Trace σ → Indexing σ β}
    (hf : ∀ s t, B.Related s t → B.Agree known (f s) (g t) result) :
    B.Agree known (MonadState.get >>= f) (MonadState.get >>= g) result :=
  fun s t hst linked => hf s t hst s t hst linked

/-- The innermost contexts are read: they correspond to each other. -/
theorem contextBindOf {f : Context → Indexing ρ β} {g : Context → Indexing σ β}
    (hf : ∀ top top' : Context, top.SameButId top' →
      B.Agree ((top.id, top'.id) :: known) (f top) (g top') result) :
    B.Agree known (Indexing.context >>= f) (Indexing.context >>= g) result := by
  intro s t hst linked
  rw [Indexing.context_bind, Indexing.context_bind]
  have contexts := hst.contexts
  cases hs : s.contexts with
  | nil =>
    rw [hs, List.forall₂_nil_left_iff] at contexts
    rw [contexts]
    exact ⟨rfl, .refl hst⟩
  | cons top rest =>
    rw [hs, List.forall₂_cons_left_iff] at contexts
    obtain ⟨top', rest', ⟨same, origin⟩, -, ht⟩ := contexts
    rw [ht]
    exact hf top top' same s t hst (List.forall_mem_cons.mpr ⟨origin, linked⟩)

/-- What follows does not use the identifiers of the contexts. -/
theorem contextBind {f : Context → Indexing ρ β} {g : Context → Indexing σ β}
    (hf : ∀ top id, B.Agree known (f top) (g { top with id }) result) :
    B.Agree known (Indexing.context >>= f) (Indexing.context >>= g) result := by
  refine contextBindOf fun top top' same s t hst linked => ?_
  rw [same]
  exact hf top top'.id s t hst fun p hp => linked p (List.mem_cons_of_mem _ hp)

theorem say {line : String} (other : isTreeLine line = false) :
    B.Agree known (Indexing.say line : Indexing ρ Unit) (Indexing.say line : Indexing σ Unit) :=
  fun s t h _ => ⟨⟨⟨h.holds, h.contexts, h.kinds⟩, fun h => h, .push s other, .push t other⟩, rfl⟩

theorem declare (name : String) :
    B.Agree known (Indexing.declare name : Indexing ρ Unit)
      (Indexing.declare name : Indexing σ Unit) :=
  fun _ _ h _ => ⟨⟨⟨h.holds, forall₂_withLocal name h.contexts, h.kinds⟩, fun h => h, ⟨rfl, rfl⟩,
    ⟨rfl, rfl⟩⟩, rfl⟩

/-! ### Recordings -/

section Recordings

variable {x x' : Recording}

theorem emit (h : Paired (fun v w => (v, w) ∈ known) x x')
    (named : x.lacksName = true → B.nameless) :
    B.Agree known (Indexing.emit x : Indexing ρ Value) (Indexing.emit x' : Indexing σ Value)
      fun r t v w => x.givesSymbol = true → B.link r t v w := by
  intro s t hst linked
  have paired := h.mono fun v w hvw => linked (v, w) hvw
  unfold Indexing.emit Indexing.recording
  refine Lockstep.focus ((B.record hst.holds paired named).mono ?_ fun _ _ h => .ofRecorders hst h)
  rintro v r w r' ⟨onward, hv⟩
  exact ⟨.ofRecorders hst onward, hv⟩

theorem note (h : Paired (fun v w => (v, w) ∈ known) x x') (plain : x.lacksName = false) :
    B.Agree known (Indexing.note x : Indexing ρ Unit) (Indexing.note x' : Indexing σ Unit) :=
  bindOf (fun _ _ => []) (emit h (by simp [plain])) (by simp) fun _ _ _ _ _ => pure ()

/-- A recording that gives out the identifier of a symbol. -/
theorem emitSymbol (h : Paired (fun v w => (v, w) ∈ known) x x') (isSymbol : x.givesSymbol = true)
    (named : x.lacksName = true → B.nameless) :
    B.Agree known (Indexing.emit x : Indexing ρ Value) (Indexing.emit x' : Indexing σ Value)
      B.link :=
  fun s t hst linked => (emit h named s t hst linked).mono
    (fun _ _ _ _ h => ⟨h.1, h.2 isSymbol⟩) fun _ _ h => h

theorem symbol (name : QualifiedName) :
    B.Agree known (Indexing.emit (.symbol name) : Indexing ρ Value)
      (Indexing.emit (.symbol name) : Indexing σ Value) B.link :=
  emitSymbol (.symbol name) rfl (by simp [Recording.lacksName])

end Recordings

theorem useLocal {name : String} (range : SourceRange) (nonempty : name ≠ "") :
    B.Agree known (Indexing.useLocal name range : Indexing ρ Unit)
      (Indexing.useLocal name range : Indexing σ Unit) := by
  intro s t hst _
  unfold Indexing.useLocal
  rw [Indexing.emitThenNote_eq _ (.localLocation · range),
    Indexing.emitThenNote_eq _ (.localLocation · range)]
  refine Lockstep.focus ((B.useLocal range hst.holds nonempty).mono ?_
    fun _ _ h => .ofRecorders hst h)
  exact fun _ _ _ _ onward => ⟨.ofRecorders hst onward, rfl⟩

theorem refer {v w : Value} {kind : ReferenceKind} (range : SourceRange) (numbered : kind.Numbered)
    (h : (v, w) ∈ known) :
    B.Agree known (Indexing.refer v kind range : Indexing ρ Unit)
      (Indexing.refer w kind range : Indexing σ Unit) := by
  refine contextBindOf fun top top' _ s t hst linked => ?_
  rw [Indexing.emitThenNote_eq _ (.referenceLocation · range),
    Indexing.emitThenNote_eq _ (.referenceLocation · range)]
  have origin := linked _ List.mem_cons_self
  have target := linked _ (List.mem_cons_of_mem _ h)
  refine Lockstep.focus ((B.refer range hst.holds origin target numbered).mono ?_
    fun _ _ h => .ofRecorders hst h)
  exact fun _ _ _ _ onward => ⟨.ofRecorders hst onward, rfl⟩

theorem referToUnsolved {kind : ReferenceKind} (numbered : kind.Numbered) (c : Cursor) :
    B.Agree known (Indexing.referToUnsolved kind c : Indexing ρ Unit)
      (Indexing.referToUnsolved kind c : Indexing σ Unit) := by
  refine contextBindOf fun top top' _ => ?_
  refine liftBind fun range => ?_
  exact note (.unsolvedReference (by simp) numbered _) rfl

/-! ### What both indexers record alike -/

theorem describe {v w : Value} (kind : SymbolKind) (nameAt : Option Cursor) (c : Cursor)
    (h : (v, w) ∈ known) :
    B.Agree known (Indexing.describe v kind nameAt c : Indexing ρ Unit)
      (Indexing.describe w kind nameAt c : Indexing σ Unit) := by
  unfold Indexing.describe
  refine bind (note (.definitionKind h _) rfl) fun _ => ?_
  refine bind (note (.symbolKind h _) rfl) fun _ => ?_
  refine liftBind fun nameRange => ?_
  refine bind (note (.symbolLocation h _) rfl) fun _ => ?_
  refine liftBind fun range => ?_
  exact note (.scopeLocation h _) rfl

theorem define (name : QualifiedName) (kind : SymbolKind) (nameAt : Option Cursor) (c : Cursor) :
    B.Agree known (Indexing.define name kind nameAt c : Indexing ρ Value)
      (Indexing.define name kind nameAt c : Indexing σ Value) B.link := by
  rw [Indexing.define_eq, Indexing.define_eq]
  refine bindSymbol (symbol name) fun v w => ?_
  refine bind (describe kind nameAt c (by simp)) fun _ => ?_
  exact pureSymbol (by simp)

theorem visitString (c : Cursor) :
    B.Agree known (Indexing.visitString c : Indexing ρ Unit)
      (Indexing.visitString c : Indexing σ Unit) := by
  unfold Indexing.visitString
  refine liftBind fun range => ?_
  split
  · exact note (.atomicRange _) rfl
  · exact pure _

theorem visitErrorToken (c : Cursor) :
    B.Agree known (Indexing.visitErrorToken c : Indexing ρ Unit)
      (Indexing.visitErrorToken c : Indexing σ Unit) := by
  unfold Indexing.visitErrorToken
  refine liftBind fun token => ?_
  refine liftBind fun range => ?_
  exact note (.error _ _ _) rfl

end Agree

end Bond

/-! ### Runs -/

namespace Actions

open Indexing

variable [Recorder ρ] [Recorder σ] {B : Bond ρ σ} {A : Actions ρ} {A' : Actions σ}

/-- What two indexers do of their own keeps the bond. -/
structure Agree (B : Bond ρ σ) (A : Actions ρ) (A' : Actions σ) : Prop where
  look : ∀ c, c.tree.kind.isDefinition = false → B.Agree [] (A.look c) (A'.look c)
  parameter : ∀ c, B.Agree [] (A.parameter c) (A'.parameter c)
  opening : ∀ {ks ks'}, List.Forall₂ Context.SameButId ks ks' →
    ∀ c, A'.opening ks' c = A.opening ks c

/-- What is needed of a step for two runs to do it alike: nothing is done for a definition but
entering it, and where one run lists the tree and the other does not, the line can be printed. -/
def Comparable (A : Actions ρ) (A' : Actions σ) : Step → Prop
  | .look c => c.tree.kind.isDefinition = false
  | .list c => A'.verbose = A.verbose ∨ ∃ range, c.range = .ok range
  | _ => True

/-- Two computations that keep the bond, as a step. -/
theorem lockstep_of_agree {m : Indexing ρ Unit} {n : Indexing σ Unit} (h : B.Agree [] m n)
    (held : Held) {s : Trace ρ} {t : Trace σ} (hst : B.Related s t) :
    Lockstep (fun held' s' held'' t' => held'' = held' ∧ B.Related s' t') B.Related
      ((do m; return held) s) ((do n; return held) t) :=
  Lockstep.bind ((h s t hst (by simp)).mono (fun _ _ _ _ h => ⟨rfl, h.1.related⟩)
    fun _ _ h => h.related)

/-- A line of the tree listing, in either run, does not matter. -/
theorem lockstep_beginListing {b b' : Bool} {c : Cursor}
    (comparable : b' = b ∨ ∃ range, c.range = .ok range) (held : Held) {s : Trace ρ} {t : Trace σ}
    (hst : B.Related s t) :
    Lockstep (fun held' s' held'' t' => held'' = held' ∧ B.Related s' t') B.Related
      ((do beginListing b c; return held) s) ((do beginListing b' c; return held) t) := by
  cases hr : c.range with
  | ok range =>
    cases b <;> cases b' <;> simp only [beginListing, hr] <;>
      exact ⟨rfl, hst.holds, hst.contexts, hst.kinds⟩
  | error e =>
    obtain rfl : b' = b := by simpa [hr] using comparable
    cases b' <;> simp only [beginListing, hr]
    · exact ⟨rfl, hst⟩
    · exact ⟨rfl, hst⟩

theorem lockstep_endListing (b b' : Bool) (held : Held) {s : Trace ρ} {t : Trace σ}
    (hst : B.Related s t) :
    Lockstep (fun held' s' held'' t' => held'' = held' ∧ B.Related s' t') B.Related
      ((do endListing b; return held) s) ((do endListing b' ; return held) t) := by
  cases b <;> cases b' <;> exact ⟨rfl, hst.holds, hst.contexts, hst.kinds⟩

/-- A definition is entered in both runs. -/
theorem lockstep_enter (agree : Agree B A A') (c : Cursor) (held : Held) {s : Trace ρ} {t : Trace σ}
    (hst : B.Related s t) :
    Lockstep (fun held' s' held'' t' => held'' = held' ∧ B.Related s' t') B.Related
      ((do A.enter c; return held) s) ((do A'.enter c; return held) t) := by
  refine Lockstep.bind ?_
  change Lockstep _ _ ((liftM (A.opening s.contexts c) >>= fun o : Opening => o.perform c) s)
    ((liftM (A'.opening t.contexts c) >>= fun o : Opening => o.perform c) t)
  rw [agree.opening hst.same c]
  cases A.opening s.contexts c with
  | error e => exact ⟨rfl, hst⟩
  | ok o =>
    change Lockstep _ _ (o.perform c s) (o.perform c t)
    refine Lockstep.bind (((Bond.Agree.define o.name o.kind o.nameAt c :
      B.Agree [] _ _ B.link) s t hst (by simp)).mono ?_ fun _ _ h => h.related)
    rintro v s' w t' ⟨goes, link⟩
    exact ⟨rfl, goes.related.holds, .cons ⟨rfl, link⟩ goes.related.contexts, goes.related.kinds⟩

theorem lockstep_perform (agree : Agree B A A') {x : Step} (comparable : Comparable A A' x)
    (held : Held) {s : Trace ρ} {t : Trace σ} (hst : B.Related s t) :
    Lockstep (fun held' s' held'' t' => held'' = held' ∧ B.Related s' t') B.Related
      (A.perform x held s) (A'.perform x held t) := by
  cases x with
  | list c => exact lockstep_beginListing comparable held hst
  | unlist => exact lockstep_endListing _ _ held hst
  | look c => exact lockstep_of_agree (agree.look c comparable) held hst
  | parameter c => exact lockstep_of_agree (agree.parameter c) held hst
  | enter c => exact lockstep_enter agree c held hst
  | leave c => exact ⟨rfl, hst.holds, Bond.forall₂_leaveFrom c hst.contexts, hst.kinds⟩
  | impose kind place => exact ⟨rfl, hst.holds, hst.contexts, congrArg (_ :: ·) hst.kinds⟩
  | lift place => exact ⟨rfl, hst.holds, hst.contexts, congrArg (liftFrom place) hst.kinds⟩
  | drop => exact ⟨rfl, hst.holds, hst.contexts, congrArg List.tail hst.kinds⟩
  | beginAlias => exact ⟨rfl, hst⟩
  | aliasWord =>
    rcases held with _ | ⟨_ | _, rest⟩
    · exact ⟨rfl, hst⟩
    · exact ⟨congrArg (List.head? · :: rest) hst.kinds, hst.holds, hst.contexts,
        congrArg List.tail hst.kinds⟩
    · exact ⟨rfl, hst⟩
  | endAlias =>
    rcases held with _ | ⟨_ | _, rest⟩
    · exact ⟨rfl, hst⟩
    · exact ⟨rfl, hst⟩
    · exact ⟨rfl, hst.holds, hst.contexts, congrArg (_ :: ·) hst.kinds⟩
  | fail e => exact ⟨rfl, hst⟩

/-- Two runs with the same steps end alike and keep the bond. -/
theorem lockstep_run (agree : Agree B A A') {xs : List Step}
    (comparable : ∀ x ∈ xs, Comparable A A' x) (held : Held) {s : Trace ρ} {t : Trace σ}
    (hst : B.Related s t) :
    Lockstep (fun held' s' held'' t' => held'' = held' ∧ B.Related s' t') B.Related
      (A.run xs held s) (A'.run xs held t) := by
  induction xs generalizing held s t with
  | nil => exact ⟨rfl, hst⟩
  | cons x xs ih =>
    rw [run_cons, run_cons]
    have first := lockstep_perform agree (comparable x List.mem_cons_self) held hst
    refine Lockstep.bind (first.mono ?_ fun _ _ h => h)
    rintro _ s' held' t' ⟨rfl, hst'⟩
    exact ih (fun y hy => comparable y (List.mem_cons_of_mem _ hy)) held' hst'

end Actions

end CodeIndex
