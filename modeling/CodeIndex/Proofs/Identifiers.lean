import CodeIndex.Listing.View
import CodeIndex.Proofs.Outcome
import CodeIndex.Proofs.StoredNames

/-!
# The identifiers of a listing

A listing gives out identifiers for symbols, files, references and local variables, all of them from
one counter. Whatever operations are carried out on a new listing, in whatever order, an identifier
belongs to one thing only and a thing has one identifier only.

What the listing remembers is a relation between things and identifiers, `Listing.Issued`. An
operation leaves it as it is or adds one new thing under the next identifier, so that a listing
stays `Consistent`; everything else follows from what the things are: a name by its stored form, a
reference by its written form, a file by its path.

## What is proved

* `Listing.outcome_record` — one operation keeps the listing consistent, and what it gives back is
  the identifier of the thing that was recorded.
* `Listing.leads_performAll` — so does every sequence of operations.
* `listing_identifies` — what the identifiers of a listing say about each other.
-/

namespace CodeIndex

/-- Something that a listing has an identifier for. -/
inductive Item where
  /-- A symbol by its stored form, or a file by its path. -/
  | key (text : String)
  /-- A reference by its written form. -/
  | reference (written : String)
  /-- A local variable by its name. -/
  | localSymbol (name : String)

namespace Listing

variable {l l' l'' : Listing}

/-- The listing has given out the identifier `i` for an item. -/
def Issued (l : Listing) : Item → Int → Prop
  | .key text, i => (text, i) ∈ l.keys
  | .reference written, i => ∃ e ∈ l.references, e.written = written ∧ e.id = i
  | .localSymbol name, i => ∃ e ∈ l.locals, e.name = name ∧ e.id = i

/-- Items and identifiers correspond to each other one to one. -/
structure Consistent (l : Listing) : Prop where
  /-- No identifier has been given out that is still to come. -/
  below : ∀ {x i}, l.Issued x i → i < l.nextId
  /-- An item has one identifier. -/
  unique : ∀ {x i j}, l.Issued x i → l.Issued x j → i = j
  /-- An identifier belongs to one item. -/
  distinct : ∀ {x y i}, l.Issued x i → l.Issued y i → x = y
  /-- The symbols and files that are shown have got their identifiers. -/
  symbols : ∀ e ∈ l.symbols, ∃ text, (text, e.id) ∈ l.keys

theorem consistent_empty : Consistent {} where
  below {x i} h := by cases x <;> simp [Issued] at h
  unique {x i j} h := by cases x <;> simp [Issued] at h
  distinct {x y i} h := by cases x <;> simp [Issued] at h
  symbols e h := by cases h

/-! ### What operations do to the identifiers -/

/-- From a consistent listing to another one that has not forgotten anything. -/
structure Leads (l l' : Listing) : Prop where
  consistent : l.Consistent → l'.Consistent
  issued : ∀ {x i}, l.Issued x i → l'.Issued x i

namespace Leads

theorem refl (l : Listing) : Leads l l := ⟨fun h => h, fun h => h⟩

theorem trans (h : Leads l l') (h' : Leads l' l'') : Leads l l'' :=
  ⟨fun hl => h'.consistent (h.consistent hl), fun hi => h'.issued (h.issued hi)⟩

/-- Nothing is given out. -/
theorem ofSame (next : l'.nextId = l.nextId) (issued : ∀ x i, l'.Issued x i ↔ l.Issued x i)
    (symbols : ∀ e ∈ l'.symbols, ∃ e₀ ∈ l.symbols, e₀.id = e.id) : Leads l l' := by
  refine ⟨fun h => ⟨fun hi => ?_, fun hi hj => ?_, fun hx hy => ?_, fun e he => ?_⟩,
    (issued _ _).mpr⟩
  · rw [next]
    exact h.below ((issued _ _).mp hi)
  · exact h.unique ((issued _ _).mp hi) ((issued _ _).mp hj)
  · exact h.distinct ((issued _ _).mp hx) ((issued _ _).mp hy)
  · obtain ⟨e₀, he₀, same⟩ := symbols e he
    obtain ⟨text, hkey⟩ := h.symbols e₀ he₀
    rw [same] at hkey
    exact ⟨text, (issued (.key text) e.id).mpr hkey⟩

/-- A new item gets the next identifier. -/
theorem ofNew {x : Item} (new : ∀ i, ¬l.Issued x i) (next : l'.nextId = l.nextId + 1)
    (issued : ∀ y j, l'.Issued y j ↔ l.Issued y j ∨ y = x ∧ j = l.nextId)
    (symbols : ∀ e ∈ l'.symbols, e ∈ l.symbols ∨ e.id = l.nextId ∧ ∃ text, x = .key text) :
    Leads l l' := by
  refine ⟨fun h => ⟨fun {y i} hi => ?_, fun {y i j} hi hj => ?_, fun {y z i} hy hz => ?_,
    fun e he => ?_⟩, fun hi => (issued _ _).mpr (.inl hi)⟩
  · rcases (issued y i).mp hi with hi | ⟨-, rfl⟩
    · have := h.below hi
      omega
    · omega
  · rcases (issued y i).mp hi with hi | ⟨rfl, rfl⟩ <;> rcases (issued y j).mp hj with hj | ⟨hy, rfl⟩
    · exact h.unique hi hj
    · exact absurd (hy ▸ hi) (new i)
    · exact absurd hj (new j)
    · rfl
  · rcases (issued y i).mp hy with hy | ⟨hy, hi⟩ <;> rcases (issued z i).mp hz with hz | ⟨hz, hi'⟩
    · exact h.distinct hy hz
    · have := h.below hy
      omega
    · have := h.below hz
      omega
    · exact hy.trans hz.symm
  · rcases symbols e he with he | ⟨hid, text, rfl⟩
    · obtain ⟨text, hkey⟩ := h.symbols e he
      exact ⟨text, (issued (.key text) e.id).mpr (.inl hkey)⟩
    · exact ⟨text, (issued (.key text) e.id).mpr (.inr ⟨rfl, hid⟩)⟩

end Leads

/-- A new key gets the next identifier, whether or not it is shown. -/
theorem leads_addKey {text : String} (new : l.keys.lookup text = none) {shown : List SymbolEntry}
    (own : ∀ e ∈ shown, e.id = l.nextId) :
    Leads l { (l.addKey text).2 with symbols := l.symbols ++ shown } := by
  have missing : ∀ i, ¬l.Issued (.key text) i := by
    intro i hi
    simpa using List.lookup_eq_none_iff.mp new _ hi
  refine .ofNew missing rfl (fun y j => ?_) fun e he => ?_
  · cases y <;> simp [addKey, Issued, takeId]
  · rcases List.mem_append.mp he with he | he
    · exact .inl he
    · exact .inr ⟨own e he, text, rfl⟩

/-- A symbol or file has the identifier that is given back. -/
theorem leads_addSymbol (l : Listing) (text : String) {entry : Int → SymbolEntry}
    (own : ∀ i, (entry i).id = i) :
    Leads l (l.addSymbol text entry).2 ∧
      (l.addSymbol text entry).2.Issued (.key text) (l.addSymbol text entry).1 := by
  unfold addSymbol
  cases found : l.keys.lookup text with
  | some i =>
    obtain ⟨before, after, split, -⟩ := List.lookup_eq_some_iff.mp found
    exact ⟨.refl l, show (text, i) ∈ l.keys by simp [split]⟩
  | none =>
    refine ⟨leads_addKey found fun e he => ?_, List.mem_append_right _ (List.mem_singleton.mpr rfl)⟩
    obtain rfl := List.mem_singleton.mp he
    exact own _

/-- A reference has the identifier that is given back. -/
theorem leads_addReference (l : Listing) (context target : Value) (kind : ReferenceKind) :
    Leads l (l.addReference context target kind).2 ∧
      (l.addReference context target kind).2.Issued
        (.reference (writtenReference context target kind))
        (l.addReference context target kind).1 := by
  unfold addReference
  cases found : l.references.find? (·.written = writtenReference context target kind) with
  | some e =>
    exact ⟨.refl l, e, List.mem_of_find?_eq_some found, by simpa using List.find?_some found, rfl⟩
  | none =>
    have missing : ∀ i, ¬l.Issued (.reference (writtenReference context target kind)) i := by
      rintro i ⟨e, he, written, -⟩
      exact absurd written (by simpa using List.find?_eq_none.mp found e he)
    refine ⟨.ofNew missing rfl (fun y j => ?_) fun e he => .inl he, ?_⟩
    · cases y with
      | reference written =>
        simp only [Issued, takeId, List.mem_append, List.mem_singleton]
        constructor
        · rintro ⟨e, he | rfl, hw, hi⟩
          · exact .inl ⟨e, he, hw, hi⟩
          · exact .inr ⟨by rw [← hw]; rfl, hi.symm⟩
        · rintro (⟨e, he, hw, hi⟩ | ⟨hw, hi⟩)
          · exact ⟨e, .inl he, hw, hi⟩
          · exact ⟨_, .inr rfl, (Item.reference.inj hw).symm, hi.symm⟩
      | key | localSymbol => simp [Issued, takeId]
    · exact ⟨_, List.mem_append_right _ (List.mem_singleton.mpr rfl), rfl, rfl⟩

/-- A local variable has the identifier that is given back. -/
theorem leads_addLocal (l : Listing) (name : String) :
    Leads l (l.addLocal name).2 ∧
      (l.addLocal name).2.Issued (.localSymbol name) (l.addLocal name).1 := by
  unfold addLocal
  cases found : l.locals.find? (·.name = name) with
  | some e =>
    exact ⟨.refl l, e, List.mem_of_find?_eq_some found, by simpa using List.find?_some found, rfl⟩
  | none =>
    have missing : ∀ i, ¬l.Issued (.localSymbol name) i := by
      rintro i ⟨e, he, same, -⟩
      exact absurd same (by simpa using List.find?_eq_none.mp found e he)
    refine ⟨.ofNew missing rfl (fun y j => ?_) fun e he => .inl he, ?_⟩
    · cases y with
      | localSymbol other =>
        simp only [Issued, takeId, List.mem_append, List.mem_singleton]
        constructor
        · rintro ⟨e, he | rfl, hn, hi⟩
          · exact .inl ⟨e, he, hn, hi⟩
          · exact .inr ⟨by rw [← hn], hi.symm⟩
        · rintro (⟨e, he, hn, hi⟩ | ⟨hn, hi⟩)
          · exact ⟨e, .inl he, hn, hi⟩
          · exact ⟨_, .inr rfl, (Item.localSymbol.inj hn).symm, hi.symm⟩
      | key | reference => simp [Issued, takeId]
    · exact ⟨_, List.mem_append_right _ (List.mem_singleton.mpr rfl), rfl, rfl⟩

/-! ### Changes that give out nothing -/

/-- Only what is known about the symbols changes. -/
theorem leads_changeSymbol (l : Listing) (i : Value) {f : SymbolEntry → SymbolEntry}
    (own : ∀ e, (f e).id = e.id) : Leads l (l.changeSymbol i f) := by
  refine .ofSame rfl (fun x j => ?_) fun e he => ?_
  · cases x <;> exact Iff.rfl
  · obtain ⟨e₀, he₀, rfl⟩ := List.mem_map.mp he
    refine ⟨e₀, he₀, ?_⟩
    split
    · exact (own e₀).symm
    · rfl

/-- Only the places of the references change. -/
theorem leads_mapReferences (l : Listing) {f : ReferenceEntry → ReferenceEntry}
    (own : ∀ e, (f e).id = e.id ∧ (f e).written = e.written) :
    Leads l { l with references := l.references.map f } := by
  refine .ofSame rfl (fun x j => ?_) fun e he => ⟨e, he, rfl⟩
  cases x with
  | reference written =>
    constructor
    · rintro ⟨e, he, hw, hi⟩
      obtain ⟨e₀, he₀, rfl⟩ := List.mem_map.mp he
      exact ⟨e₀, he₀, (own e₀).2.symm.trans hw, (own e₀).1.symm.trans hi⟩
    · rintro ⟨e, he, hw, hi⟩
      exact ⟨f e, List.mem_map_of_mem he, (own e).2.trans hw, (own e).1.trans hi⟩
  | key | localSymbol => exact Iff.rfl

/-- Only the places of the local variables change. -/
theorem leads_mapLocals (l : Listing) {f : LocalEntry → LocalEntry}
    (own : ∀ e, (f e).id = e.id ∧ (f e).name = e.name) :
    Leads l { l with locals := l.locals.map f } := by
  refine .ofSame rfl (fun x j => ?_) fun e he => ⟨e, he, rfl⟩
  cases x with
  | localSymbol name =>
    constructor
    · rintro ⟨e, he, hn, hi⟩
      obtain ⟨e₀, he₀, rfl⟩ := List.mem_map.mp he
      exact ⟨e₀, he₀, (own e₀).2.symm.trans hn, (own e₀).1.symm.trans hi⟩
    · rintro ⟨e, he, hn, hi⟩
      exact ⟨f e, List.mem_map_of_mem he, (own e).2.trans hn, (own e).1.trans hi⟩
  | key | reference => exact Iff.rfl

/-- A symbol by its name. -/
theorem leads_addNamed (l : Listing) (name : QualifiedName) :
    Leads l (l.addNamed name).2 ∧
      (l.addNamed name).2.Issued (.key name.stored) (l.addNamed name).1 :=
  leads_addSymbol l name.stored fun _ => rfl

/-- A file by its path. -/
theorem leads_addFile (l : Listing) (path : String) :
    Leads l (l.addFile path).2 ∧ (l.addFile path).2.Issued (.key path) (l.addFile path).1 :=
  leads_addSymbol l path fun _ => rfl

theorem leads_placeReference (l : Listing) (i : Value) (range : Extent) :
    Leads l (l.placeReference i range) := by
  refine l.leads_mapReferences fun e => ?_
  split <;> exact ⟨rfl, rfl⟩

theorem leads_placeLocal (l : Listing) (i : Value) (range : Extent) :
    Leads l (l.placeLocal i range) := by
  refine l.leads_mapLocals fun e => ?_
  split <;> exact ⟨rfl, rfl⟩

theorem leads_settle (l : Listing) : Leads l l.settle := by
  refine l.leads_mapReferences fun e => ?_
  split <;> exact ⟨rfl, rfl⟩

/-- Nothing that has to do with identifiers changes. -/
theorem leads_quiet (next : l'.nextId = l.nextId) (keys : l'.keys = l.keys)
    (symbols : l'.symbols = l.symbols) (references : l'.references = l.references)
    (locals : l'.locals = l.locals) : Leads l l' := by
  refine .ofSame next (fun x i => ?_) fun e he => ⟨e, by rwa [symbols] at he, rfl⟩
  cases x with
  | key => simp [Issued, keys]
  | reference => simp [Issued, references]
  | localSymbol => simp [Issued, locals]

/-! ### Operations -/

end Listing

/-- The recording is about the item, as the listing sees it. What a reference to something unknown
refers to is known to the listing only. -/
def Recording.Denotes (l : Listing) (x : Item) : Recording → Prop
  | .file path => x = .key path
  | .symbol name => x = .key name.stored
  | .namelessMember owner => x = .key owner.storedNameless
  | .reference context target kind => x = .reference (writtenReference context target kind)
  | .unsolvedReference context kind _ => ∃ i, l.Issued (.key QualifiedName.unsolved.stored) i ∧
      x = .reference (writtenReference context (.number i) kind)
  | .localSymbol name => x = .localSymbol name
  | _ => False

/-- The recording is answered with an identifier. -/
def Recording.isAnsweredById : Recording → Bool
  | .file _ | .symbol _ | .namelessMember _ | .reference _ _ _ | .unsolvedReference _ _ _
  | .localSymbol _ => true
  | _ => false

namespace Listing

/-- What is given back is the identifier of what was recorded. -/
def Answers (l : Listing) (r : Recording) (v : Value) : Prop :=
  r.isAnsweredById = true → ∃ x i, r.Denotes l x ∧ v = .number i ∧ l.Issued x i

theorem Leads.answers (h : Leads l l') {r : Recording} {v : Value} (answers : l.Answers r v) :
    l'.Answers r v := by
  intro hr
  obtain ⟨x, i, denotes, rfl, issued⟩ := answers hr
  refine ⟨x, i, ?_, rfl, h.issued issued⟩
  cases r with
  | unsolvedReference context kind range =>
    obtain ⟨j, hj, hx⟩ := denotes
    exact ⟨j, h.issued hj, hx⟩
  | _ => exact denotes

/-- A recording keeps the listing consistent. -/
theorem outcome_record (r : Recording) (l : Listing) :
    Outcome (fun v l' => Leads l l' ∧ l'.Answers r v) (Leads l) (Listing.record r l) := by
  cases r with
  | file path =>
    obtain ⟨leads, issued⟩ := leads_addFile l path
    exact ⟨leads, fun _ => ⟨_, _, rfl, rfl, issued⟩⟩
  | symbol name =>
    obtain ⟨leads, issued⟩ := leads_addNamed l name
    exact ⟨leads, fun _ => ⟨_, _, rfl, rfl, issued⟩⟩
  | namelessMember owner =>
    change Outcome _ _ (recordNameless owner l)
    unfold recordNameless
    cases found : l.keys.lookup owner.storedNameless with
    | some i =>
      obtain ⟨before, after, split, -⟩ := List.lookup_eq_some_iff.mp found
      exact ⟨.refl l, fun _ => ⟨_, i, rfl, rfl,
        show (owner.storedNameless, i) ∈ l.keys by simp [split]⟩⟩
    | none =>
      have leads : Leads l { (l.addKey owner.storedNameless).2 with symbols := l.symbols ++ [] } :=
        leads_addKey found (by simp)
      rwa [List.append_nil] at leads
  | reference context target kind =>
    obtain ⟨leads, issued⟩ := leads_addReference l context target kind
    exact ⟨leads, fun _ => ⟨_, _, rfl, rfl, issued⟩⟩
  | localSymbol name =>
    obtain ⟨leads, issued⟩ := leads_addLocal l name
    exact ⟨leads, fun _ => ⟨_, _, rfl, rfl, issued⟩⟩
  | unsolvedReference context kind range =>
    obtain ⟨named, target⟩ := leads_addNamed l .unsolved
    obtain ⟨referred, issued⟩ := leads_addReference (l.addNamed .unsolved).2 context
      (.number (l.addNamed .unsolved).1) kind
    have placed := leads_placeReference ((l.addNamed .unsolved).2.addReference context
      (.number (l.addNamed .unsolved).1) kind).2 (.number ((l.addNamed .unsolved).2.addReference
        context (.number (l.addNamed .unsolved).1) kind).1) range
    exact ⟨(named.trans referred).trans placed, fun _ => ⟨_, _,
      ⟨_, placed.issued (referred.issued target), rfl⟩, rfl, placed.issued issued⟩⟩
  | definitionKind i kind | symbolKind i kind | symbolLocation i range | scopeLocation i range
  | signatureLocation i range =>
    exact ⟨leads_changeSymbol l i fun _ => rfl, by simp [Answers, Recording.isAnsweredById]⟩
  | referenceLocation i range =>
    exact ⟨leads_placeReference l i range, by simp [Answers, Recording.isAnsweredById]⟩
  | localLocation i range =>
    exact ⟨leads_placeLocal l i range, by simp [Answers, Recording.isAnsweredById]⟩
  | fileLanguage | qualifierLocation | atomicRange =>
    exact ⟨leads_quiet rfl rfl rfl rfl rfl, by simp [Answers, Recording.isAnsweredById]⟩
  | error message fatal range =>
    refine Outcome.liftBind (.refl l) fun text _ => ?_
    exact ⟨leads_quiet rfl rfl rfl rfl rfl, by simp [Answers, Recording.isAnsweredById]⟩
  | namelessSymbol | ambiguousReference => exact .refl l

/-- An operation on a listing. -/
inductive Operation where
  /-- Something is recorded. -/
  | record (r : Recording)
  /-- The listing is read. -/
  | read

/-- What an operation gives back, if it does not end in a fault, and the listing afterwards. -/
def Operation.perform (l : Listing) : Operation → List (Recording × Value) × Listing
  | .record r =>
    match Listing.record r l with
    | .ok v l' => ([(r, v)], l')
    | .error _ l' => ([], l')
  | .read => ([], l.read.2)

theorem Operation.perform_of_ok {r : Recording} {v : Value} (h : Listing.record r l = .ok v l') :
    (Operation.record r).perform l = ([(r, v)], l') := by
  rw [perform, h]

theorem Operation.perform_of_error {r : Recording} {e : Fault}
    (h : Listing.record r l = .error e l') : (Operation.record r).perform l = ([], l') := by
  rw [perform, h]

/-- What operations give back one after the other, and the listing in the end. -/
def performAll (l : Listing) : List Operation → List (Recording × Value) × Listing
  | [] => ([], l)
  | op :: ops =>
    let (answers, l) := op.perform l
    let (more, l) := l.performAll ops
    (answers ++ more, l)

theorem leads_perform (op : Operation) (l : Listing) :
    Leads l (op.perform l).2 ∧ ∀ p ∈ (op.perform l).1, (op.perform l).2.Answers p.1 p.2 := by
  cases op with
  | read => exact ⟨leads_settle l, by simp [Operation.perform]⟩
  | record r =>
    have recorded := outcome_record r l
    cases h : Listing.record r l with
    | error e l' =>
      rw [h] at recorded
      rw [Operation.perform_of_error h]
      exact ⟨recorded, by simp⟩
    | ok v l' =>
      rw [h] at recorded
      rw [Operation.perform_of_ok h]
      exact ⟨recorded.1, by simpa using recorded.2⟩

/-- Answers are given to what was recorded. -/
theorem record_mem_of_mem_performAll {ops : List Operation} {l : Listing} {p : Recording × Value}
    (h : p ∈ (l.performAll ops).1) : .record p.1 ∈ ops := by
  induction ops generalizing l with
  | nil => cases h
  | cons op ops ih =>
    change p ∈ (op.perform l).1 ++ ((op.perform l).2.performAll ops).1 at h
    rcases List.mem_append.mp h with h | h
    · cases op with
      | read => cases h
      | record r =>
        cases hr : Listing.record r l with
        | error e l' =>
          rw [Operation.perform_of_error hr] at h
          cases h
        | ok v l' =>
          rw [Operation.perform_of_ok hr] at h
          obtain rfl := List.mem_singleton.mp h
          exact List.mem_cons_self
    · exact List.mem_cons_of_mem _ (ih h)

/-- Operations keep a listing consistent, and every answer stays what it was. -/
theorem leads_performAll (ops : List Operation) (l : Listing) :
    Leads l (l.performAll ops).2 ∧
      ∀ p ∈ (l.performAll ops).1, (l.performAll ops).2.Answers p.1 p.2 := by
  induction ops generalizing l with
  | nil => exact ⟨.refl l, by simp [performAll]⟩
  | cons op ops ih =>
    obtain ⟨leads, answers⟩ := leads_perform op l
    obtain ⟨more, answers'⟩ := ih (op.perform l).2
    refine ⟨leads.trans more, fun p hp => ?_⟩
    rcases List.mem_append.mp hp with hp | hp
    · exact more.answers (answers p hp)
    · exact answers' p hp

end Listing

/-! ### What the items are -/

/-- A text before a mark that does not occur in it can be told from what follows. -/
theorem append_cons_inj {a a' s s' : List Char} {c : Char} (ha : c ∉ a) (ha' : c ∉ a')
    (h : a ++ c :: s = a' ++ c :: s') : a = a' ∧ s = s' := by
  induction a generalizing a' with
  | nil =>
    cases a' with
    | nil => exact ⟨rfl, (List.cons.inj h).2⟩
    | cons d a' => exact absurd ((List.cons.inj h).1 ▸ List.mem_cons_self) ha'
  | cons d a ih =>
    cases a' with
    | nil => exact absurd ((List.cons.inj h).1 ▸ List.mem_cons_self) ha
    | cons d' a' =>
      obtain ⟨rfl, rest⟩ := List.cons.inj h
      obtain ⟨rfl, same⟩ := ih (fun m => ha (List.mem_cons_of_mem _ m))
        (fun m => ha' (List.mem_cons_of_mem _ m)) rest
      exact ⟨rfl, same⟩

/-- A number is written with digits, after a sign if it is negative. -/
theorem toList_toString_int (n : Int) :
    ∃ m : Nat, (0 ≤ n ∧ n = m ∧ (toString n).toList = Nat.toDigits 10 m) ∨
      (n < 0 ∧ -n = m ∧ (toString n).toList = '-' :: Nat.toDigits 10 m) := by
  rw [Int.toString_eq_repr, Int.repr_eq_if]
  by_cases sign : 0 ≤ n
  · rw [if_pos sign, Nat.toList_repr]
    exact ⟨n.toNat, .inl ⟨sign, by omega, rfl⟩⟩
  · rw [if_neg sign, String.toList_append, Nat.toList_repr]
    exact ⟨(-n).toNat, .inr ⟨by omega, by omega, by simp⟩⟩

theorem isDigit_of_mem_toDigits_ten {c : Char} {m : Nat} (h : c ∈ Nat.toDigits 10 m) :
    c.isDigit = true :=
  Nat.isDigit_of_mem_toDigits (by decide) (by decide) h

theorem mem_toString_int {n : Int} {c : Char} (h : c ∈ (toString n).toList) :
    c.isDigit = true ∨ c = '-' := by
  obtain ⟨m, ⟨-, -, digits⟩ | ⟨-, -, digits⟩⟩ := toList_toString_int n
  · rw [digits] at h
    exact .inl (isDigit_of_mem_toDigits_ten h)
  · rw [digits] at h
    rcases List.mem_cons.mp h with h | h
    · exact .inr h
    · exact .inl (isDigit_of_mem_toDigits_ten h)

theorem toString_int_inj {n n' : Int} (h : (toString n).toList = (toString n').toList) :
    n = n' := by
  have read : ∀ {m m' : Nat}, Nat.toDigits 10 m = Nat.toDigits 10 m' → m = m' := by
    intro m m' h
    rw [← Nat.ofDigitChars_ten_toDigits (n := m), h, Nat.ofDigitChars_ten_toDigits]
  have sign : ∀ {m m' : Nat}, Nat.toDigits 10 m ≠ '-' :: Nat.toDigits 10 m' := by
    intro m m' h
    have digit : '-'.isDigit = true :=
      isDigit_of_mem_toDigits_ten (h ▸ List.mem_cons_self : '-' ∈ Nat.toDigits 10 m)
    exact absurd digit (by decide)
  obtain ⟨m, ⟨-, hn, digits⟩ | ⟨-, hn, digits⟩⟩ := toList_toString_int n <;>
    obtain ⟨m', ⟨-, hn', digits'⟩ | ⟨-, hn', digits'⟩⟩ := toList_toString_int n' <;>
    rw [digits, digits'] at h
  · have := read h
    omega
  · exact absurd h sign
  · exact absurd h.symm sign
  · have := read (List.cons.inj h).2
    omega

/-- References between numbers are written alike only if they are the same. -/
theorem writtenReference_inj {c t k c' t' k' : Int}
    (h : writtenReference (.number c) (.number t) ⟨.number k⟩ =
      writtenReference (.number c') (.number t') ⟨.number k'⟩) : c = c' ∧ t = t' ∧ k = k' := by
  have mark : ∀ {d : Char} (n : Int), d.isDigit = false → d ≠ '-' → d ∉ (toString n).toList := by
    intro d n digit sign hd
    rcases mem_toString_int hd with h | h
    · rw [h] at digit
      cases digit
    · exact sign h
  have chars := congrArg String.toList h
  simp only [writtenReference, Value.render, String.toList_append, List.append_assoc] at chars
  -- The arrow begins with a blank and ends before the target; the kind stands between brackets.
  obtain ⟨hc, chars⟩ := append_cons_inj (c := ' ') (mark c (by decide) (by decide))
    (mark c' (by decide) (by decide)) chars
  obtain ⟨ht, chars⟩ := append_cons_inj (c := '[') (mark t (by decide) (by decide))
    (mark t' (by decide) (by decide)) (by simpa using chars)
  obtain ⟨hk, -⟩ := append_cons_inj (c := ']') (mark k (by decide) (by decide))
    (mark k' (by decide) (by decide)) chars
  exact ⟨toString_int_inj hc, toString_int_inj ht, toString_int_inj hk⟩

/-- The name under which a recording is stored, if it is that of a symbol. -/
def Recording.storedName? : Recording → Option StoredName
  | .symbol name => some name.asStored
  | .namelessMember owner => some owner.asStoredNameless
  | _ => none

/-- The operation has numbers for the ends and for the kind of a reference, and no path begins with
a brace, as stored names do. -/
def Listing.Operation.Regular : Listing.Operation → Prop
  | .record (.reference context target kind) =>
    ∃ c t k, context = .number c ∧ target = .number t ∧ kind = ⟨.number k⟩
  | .record (.file path) => path.toList.head? ≠ some '\x7b'
  | _ => True

namespace Listing

variable {l : Listing} {r r' : Recording} {v v' : Value}

/-- Two answers are the same if and only if they are about the same item. -/
theorem Consistent.answer_eq_iff (consistent : l.Consistent) {x x' : Item}
    (answers : ∃ i, v = .number i ∧ l.Issued x i) (answers' : ∃ i, v' = .number i ∧ l.Issued x' i) :
    v = v' ↔ x = x' := by
  obtain ⟨i, rfl, issued⟩ := answers
  obtain ⟨i', rfl, issued'⟩ := answers'
  constructor
  · intro h
    obtain rfl := Value.number.inj h
    exact consistent.distinct issued issued'
  · rintro rfl
    rw [consistent.unique issued issued']

/-- The item of a recording whose item does not depend on the listing. -/
theorem Answers.issued {x : Item} (answers : l.Answers r v) (denotes : ∀ y, r.Denotes l y → y = x)
    (answered : r.isAnsweredById = true) : ∃ i, v = .number i ∧ l.Issued x i := by
  obtain ⟨y, i, hy, rfl, issued⟩ := answers answered
  rw [denotes y hy] at issued
  exact ⟨i, rfl, issued⟩

theorem Answers.symbol (answers : l.Answers r v) {name : StoredName}
    (hr : r.storedName? = some name) : ∃ i, v = .number i ∧ l.Issued (.key name.written) i := by
  cases r with
  | symbol q =>
    obtain rfl := Option.some.inj hr
    rw [← QualifiedName.stored_eq]
    exact answers.issued (fun _ h => h) rfl
  | namelessMember q =>
    obtain rfl := Option.some.inj hr
    rw [← QualifiedName.storedNameless_eq]
    exact answers.issued (fun _ h => h) rfl
  | _ => cases hr

/-- Whatever has different identifiers for different items keeps its tables apart. -/
theorem Consistent.disjoint (consistent : l.Consistent) :
    (∀ e ∈ l.symbols, ∀ e' ∈ l.references, e.id ≠ e'.id) ∧
    (∀ e ∈ l.symbols, ∀ e' ∈ l.locals, e.id ≠ e'.id) ∧
    (∀ e ∈ l.references, ∀ e' ∈ l.locals, e.id ≠ e'.id) := by
  refine ⟨fun e he e' he' same => ?_, fun e he e' he' same => ?_, fun e he e' he' same => ?_⟩
  · obtain ⟨text, hkey⟩ := consistent.symbols e he
    have issued : l.Issued (.reference e'.written) e.id := ⟨e', he', rfl, same.symm⟩
    cases consistent.distinct (x := .key text) hkey issued
  · obtain ⟨text, hkey⟩ := consistent.symbols e he
    have issued : l.Issued (.localSymbol e'.name) e.id := ⟨e', he', rfl, same.symm⟩
    cases consistent.distinct (x := .key text) hkey issued
  · have issued : l.Issued (.localSymbol e'.name) e.id := ⟨e', he', rfl, same.symm⟩
    cases consistent.distinct (x := .reference e.written) ⟨e, he, rfl, rfl⟩ issued

/-- All identifiers in the tables of a listing. -/
def ids (l : Listing) : List Int :=
  l.keys.map Prod.snd ++ l.symbols.map SymbolEntry.id ++ l.references.map ReferenceEntry.id ++
    l.locals.map LocalEntry.id

/-- Every identifier in the tables has been given out. -/
theorem Consistent.issued_of_mem_ids (consistent : l.Consistent) {i : Int} (h : i ∈ l.ids) :
    ∃ x, l.Issued x i := by
  simp only [ids, List.mem_append, List.mem_map] at h
  obtain ((⟨⟨text, _⟩, hkey, rfl⟩ | ⟨e, he, rfl⟩) | ⟨e, he, rfl⟩) | ⟨e, he, rfl⟩ := h
  · exact ⟨.key text, hkey⟩
  · obtain ⟨text, hkey⟩ := consistent.symbols e he
    exact ⟨.key text, hkey⟩
  · exact ⟨.reference e.written, e, he, rfl, rfl⟩
  · exact ⟨.localSymbol e.name, e, he, rfl, rfl⟩

/-- Answers about references. -/
theorem Consistent.reference_eq_iff (consistent : l.Consistent) {c t c' t' : Value}
    {k k' : ReferenceKind} (answers : l.Answers (.reference c t k) v)
    (answers' : l.Answers (.reference c' t' k') v')
    (regular : (Operation.record (.reference c t k)).Regular)
    (regular' : (Operation.record (.reference c' t' k')).Regular) :
    v = v' ↔ c = c' ∧ t = t' ∧ k = k' := by
  obtain ⟨_, _, _, rfl, rfl, rfl⟩ := regular
  obtain ⟨_, _, _, rfl, rfl, rfl⟩ := regular'
  rw [consistent.answer_eq_iff (answers.issued (fun _ h => h) rfl)
    (answers'.issued (fun _ h => h) rfl)]
  constructor
  · intro h
    obtain ⟨rfl, rfl, rfl⟩ := writtenReference_inj (Item.reference.inj h)
    exact ⟨rfl, rfl, rfl⟩
  · rintro ⟨hc, ht, hk⟩
    rw [hc, ht, hk]

/-- A path that does not begin with a brace is no stored name. -/
theorem Operation.Regular.ne_written {path : String}
    (regular : (Operation.record (.file path)).Regular) (name : StoredName) :
    path ≠ name.written := by
  intro same
  obtain ⟨tail, begins⟩ := name.toList_written
  refine regular ?_
  rw [same, begins, List.head?_cons]

/-- The identifier of a file belongs to nothing but its path. -/
theorem Consistent.file_eq_iff (consistent : l.Consistent) {path : String}
    (answers : l.Answers (.file path) v) {x : Item} {i : Int} (issued : l.Issued x i) :
    v = .number i ↔ x = .key path := by
  rw [consistent.answer_eq_iff (answers.issued (fun _ h => h) rfl) ⟨i, rfl, issued⟩]
  exact eq_comm

/-- Answers about a file and a symbol. -/
theorem Consistent.file_ne_symbol (consistent : l.Consistent) {path : String} {name : StoredName}
    (answers : l.Answers (.file path) v) (answers' : l.Answers r' v')
    (hr' : r'.storedName? = some name) (regular : (Operation.record (.file path)).Regular) :
    v ≠ v' := by
  obtain ⟨i, rfl, issued⟩ := answers'.symbol hr'
  rw [ne_eq, consistent.file_eq_iff answers issued]
  exact fun same => regular.ne_written name (Item.key.inj same).symm

/-- What a reference to something unknown leaves in the tables. -/
theorem Answers.unsolved {context : Value} {kind : ReferenceKind} {range : Extent}
    (answers : l.Answers (.unsolvedReference context kind range) v) :
    ∃ i, (QualifiedName.unsolved.stored, i) ∈ l.keys ∧ ∃ e ∈ l.references,
      v = .number e.id ∧ e.written = writtenReference context (.number i) kind := by
  obtain ⟨x, j, ⟨i, hi, rfl⟩, rfl, e, he, written, rfl⟩ := answers rfl
  exact ⟨i, hi, e, he, rfl, written⟩

end Listing

/-- What the identifiers of a listing say. After any operations on a new listing, every identifier
that was given out or that stands in a table is below the next one, and symbols and files,
references and local variables have different identifiers. No stored name, reference or local
variable in the tables has the identifier of a file; the tables hold also the name for unknown
symbols if a reference to something unknown was recorded, and that reference. Of any two answers
that were given at any time: those for symbols are the same just for the same stored name, those for
references just for the same ends and kind, those for local variables just for the same name, those
for files just for the same path, and those for a file and for a symbol are never the same. -/
theorem listing_identifies (ops : List Listing.Operation) (regular : ∀ op ∈ ops, op.Regular) :
    let l := (Listing.performAll {} ops).2
    let answers := (Listing.performAll {} ops).1
    (∀ p ∈ answers, p.1.isAnsweredById = true → ∃ i, p.2 = .number i ∧ i < l.nextId) ∧
    (∀ i ∈ l.ids, i < l.nextId) ∧
    (∀ path v, (.file path, v) ∈ answers →
      (∀ (name : StoredName) (i : Int), (name.written, i) ∈ l.keys → v ≠ .number i) ∧
      (∀ e ∈ l.references, v ≠ .number e.id) ∧ ∀ e ∈ l.locals, v ≠ .number e.id) ∧
    (∀ context kind range v, (.unsolvedReference context kind range, v) ∈ answers →
      ∃ i, (QualifiedName.unsolved.asStored.written, i) ∈ l.keys ∧ ∃ e ∈ l.references,
        v = .number e.id ∧ e.written = writtenReference context (.number i) kind) ∧
    (∀ e ∈ l.symbols, ∀ e' ∈ l.references, e.id ≠ e'.id) ∧
    (∀ e ∈ l.symbols, ∀ e' ∈ l.locals, e.id ≠ e'.id) ∧
    (∀ e ∈ l.references, ∀ e' ∈ l.locals, e.id ≠ e'.id) ∧
    ∀ r v r' v', (r, v) ∈ answers → (r', v') ∈ answers →
      (∀ n n', r.storedName? = some n → r'.storedName? = some n' → (v = v' ↔ n = n')) ∧
      (∀ c t k c' t' k', r = .reference c t k → r' = .reference c' t' k' →
        (v = v' ↔ c = c' ∧ t = t' ∧ k = k')) ∧
      (∀ n n', r = .localSymbol n → r' = .localSymbol n' → (v = v' ↔ n = n')) ∧
      (∀ p p', r = .file p → r' = .file p' → (v = v' ↔ p = p')) ∧
      (∀ p n, r = .file p → r'.storedName? = some n → v ≠ v') := by
  obtain ⟨leads, answers⟩ := Listing.leads_performAll ops {}
  have consistent := leads.consistent Listing.consistent_empty
  refine ⟨fun p hp answered => ?_, fun i hi => ?_, fun path v h => ⟨fun name i hkey => ?_,
    fun e he => ?_, fun e he => ?_⟩, fun context kind range v h => ?_, consistent.disjoint.1,
    consistent.disjoint.2.1, consistent.disjoint.2.2, fun r v r' v' h h' => ⟨?_, ?_, ?_, ?_, ?_⟩⟩
  · obtain ⟨x, i, -, hi, issued⟩ := answers p hp answered
    exact ⟨i, hi, consistent.below issued⟩
  · obtain ⟨x, issued⟩ := consistent.issued_of_mem_ids hi
    exact consistent.below issued
  · rw [ne_eq, consistent.file_eq_iff (answers _ h) (x := .key name.written) hkey]
    have plain := (regular _ (Listing.record_mem_of_mem_performAll h)).ne_written name
    exact fun same => plain (Item.key.inj same).symm
  · rw [ne_eq, consistent.file_eq_iff (answers _ h) (x := .reference e.written) ⟨e, he, rfl, rfl⟩]
    exact Item.noConfusion
  · rw [ne_eq, consistent.file_eq_iff (answers _ h) (x := .localSymbol e.name) ⟨e, he, rfl, rfl⟩]
    exact Item.noConfusion
  · rw [← QualifiedName.stored_eq]
    exact (answers _ h).unsolved
  · intro n n' hr hr'
    rw [consistent.answer_eq_iff ((answers _ h).symbol hr) ((answers _ h').symbol hr'),
      Item.key.injEq, StoredName.written_inj]
  · rintro c t k c' t' k' rfl rfl
    exact consistent.reference_eq_iff (answers _ h) (answers _ h')
      (regular _ (Listing.record_mem_of_mem_performAll h))
      (regular _ (Listing.record_mem_of_mem_performAll h'))
  · rintro n n' rfl rfl
    rw [consistent.answer_eq_iff ((answers _ h).issued (fun _ h => h) rfl)
      ((answers _ h').issued (fun _ h => h) rfl), Item.localSymbol.injEq]
  · rintro p p' rfl rfl
    rw [consistent.answer_eq_iff ((answers _ h).issued (fun _ h => h) rfl)
      ((answers _ h').issued (fun _ h => h) rfl), Item.key.injEq]
  · rintro p n rfl hr'
    exact consistent.file_ne_symbol (answers _ h) (answers _ h') hr'
      (regular _ (Listing.record_mem_of_mem_performAll h))

/-- Two symbols whose names differ in the delimiter only, a file, references that differ in the kind
only, a symbol without a name that comes up twice, and a reference to something unknown, which gets
its identifier after the name for unknown symbols. -/
def sampleOperations : List Listing.Operation :=
  [.record (.file "a.py"), .record (.symbol ⟨".", [⟨"f", "", "()"⟩]⟩), .read,
    .record (.symbol ⟨"/", [⟨"f", "", "()"⟩]⟩), .record (.reference (.number 1) (.number 2) .call),
    .record (.reference (.number 1) (.number 2) .usage), .record (.namelessMember (.dotted ["f"])),
    .record (.localSymbol "f<x>"), .record (.namelessMember (.dotted ["f"])),
    .record (.file "a.py"),
    .record (.unsolvedReference (.number 2) .usage ⟨.number 1, .number 1, .number 1, .number 1⟩),
    .record (.symbol .unsolved)]

theorem sampleOperations_identified :
    (∀ op ∈ sampleOperations, op.Regular) ∧
    (Listing.performAll {} sampleOperations).1.map Prod.snd = [.number 1, .number 2, .number 3,
      .number 4, .number 5, .number 7, .number 6, .number 1, .number 9, .number 8] ∧
    (∀ i ∈ (Listing.performAll {} sampleOperations).2.ids,
      i < (Listing.performAll {} sampleOperations).2.nextId) ∧
    ∀ e ∈ (Listing.performAll {} sampleOperations).2.symbols,
      ∀ e' ∈ (Listing.performAll {} sampleOperations).2.references, e.id ≠ e'.id := by
  have regular : ∀ op ∈ sampleOperations, op.Regular := by
    simp [sampleOperations, Listing.Operation.Regular, ReferenceKind.call, ReferenceKind.usage]
  obtain ⟨-, below, -, -, apart, -⟩ := listing_identifies sampleOperations regular
  exact ⟨regular, by decide +kernel, below, apart⟩

end CodeIndex
